set_option autoImplicit false

/-!
# Options

What surrounds the functions of a generated file can be chosen: includes, namespaces, the
library that the functions are registered in, and a prefix for their names.
-/

namespace KernelGen

/-- The choices for a generated file. -/
structure Options where
  /-- What is put in front of the name of every function. -/
  functionNamePrefix? : Option String
  /-- A line on where the file comes from. -/
  provenance? : Option String
  /-- The targets of the includes, as they are written. -/
  includes : List String
  /-- The namespaces around everything behind the includes, the outermost first. -/
  namespaces : List String
  usingDeclarations : List String
  /-- The library that functions are registered in. -/
  library : String
  /-- The dispatch key that functions are registered for. -/
  dispatchKey : String
  deriving DecidableEq, Repr, Inhabited

/-- The choices where none are made. -/
def Options.standard : Options where
  functionNamePrefix? := none
  provenance? := none
  includes :=
    ["<torch/extension.h>", "<core/providers/dml/OperatorAuthorHelper/Attributes.h>",
     "\"ort_tensor.h\"", "\"ort_aten.h\"", "\"ort_log.h\""]
  namespaces := ["torch_ort", "eager"]
  usingDeclarations :=
    ["using namespace at;", "using NodeAttributes = onnxruntime::NodeAttributes;"]
  library := "aten"
  dispatchKey := "ORT"

end KernelGen
