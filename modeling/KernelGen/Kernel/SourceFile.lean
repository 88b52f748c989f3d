import KernelGen.Kernel.Function
import KernelGen.Options
import KernelGen.Schema.Registration
set_option autoImplicit false

/-!
# Kernel: source files

A generated file has a banner, the includes, the namespaces with the functions in them, and a
block that registers the functions for their operators.
-/

namespace KernelGen

/-- A file to be written. -/
structure SourceFile where
  options : Options
  /-- The digest of the header that the file is made from. -/
  digest : String
  functions : List KernelFunction
  deriving Inhabited

namespace SourceFile

/-- The first line of every generated file. -/
def banner : String := "// AUTO-GENERATED CODE! - DO NOT EDIT!"

/-- Writes everything in front of the functions. -/
def writePrelude (p : Page) (o : Options) (digest : String) : Page :=
  let p := p.writeLine banner
  let p := match o.provenance? with
    | some provenance => p.writeLine ("// $ " ++ provenance)
    | none => p
  let p := (p.writeLine ("// source sha256: " ++ digest)).blankLine
  let p := (p.writeLines (o.includes.map ("#include " ++ ·))).blankLine
  let p := o.namespaces.foldl Page.openNamespace p
  if o.usingDeclarations.isEmpty then p else p.blankLine.writeLines o.usingDeclarations

/-- The line that registers a function for its operator. -/
def registrationLine (f : LinkedFunction) : String :=
  match f.signature.registration with
  | .unboxed => "m.impl_UNBOXED(\"" ++ f.operator ++ "\", " ++ f.name ++ ");"
  | .boxed => "m.impl(\"" ++ f.operator ++ "\", TORCH_FN(" ++ f.name ++ "));"

/-- Writes the block that registers functions for their operators. -/
def writeRegistrations (p : Page) (o : Options) (fs : List LinkedFunction) : Page :=
  let p := p.blankLine.writeLine
    ("TORCH_LIBRARY_IMPL(" ++ o.library ++ ", " ++ o.dispatchKey ++ ", m) \x7b")
  let p := p.indent.writeLine "ORT_LOG_DEBUG << \"ATen init\";"
  let p := (p.writeLines (fs.map registrationLine)).dedent
  (p.writeLine "\x7d").blankLine

/-- The text of a file. -/
def text (s : SourceFile) : String :=
  let p := writePrelude (.blank 0) s.options s.digest
  let p := s.functions.foldl KernelFunction.write p
  let p := writeRegistrations p s.options (s.functions.map KernelFunction.linked)
  p.closeNamespaces.text

end SourceFile

end KernelGen
