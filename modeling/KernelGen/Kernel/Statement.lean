import KernelGen.Kernel.Page
set_option autoImplicit false

/-!
# Kernel: statements

The body of a generated function is a sequence of statements without branches.  Each statement
declares locals, runs an op on the engine, checks how that went, or returns.  The locals have
names of their own kinds, so what a statement refers to can be told apart from the parameters
of the function and from expressions that were written by hand.

`Statement.write` gives the text of a statement.
-/

namespace KernelGen

/-- A local of a generated function. -/
inductive Local where
  /-- the engine's invoker -/
  | invoker
  /-- how the last op went -/
  | status
  /-- the engine's value for a parameter -/
  | input (param : String)
  /-- the engine's value for an expression -/
  | literal (index : Nat)
  /-- the attributes of the op at a place in the order -/
  | attributeTable (place : Nat)
  /-- the outputs of an op -/
  | outputs (name : String)
  /-- the tensor that was computed -/
  | resultTensor
  /-- the memory of the tensor that was computed -/
  | resultData
  /-- the tensor that is written in place -/
  | selfTensor
  /-- the memory of the tensor that is written in place -/
  | selfData
  deriving DecidableEq, Repr, Inhabited

/-- The name of a local. -/
def Local.name : Local → String
  | .invoker => "invoker"
  | .status => "status"
  | .input param => "ort_input_" ++ param
  | .literal index => "ort_literal_" ++ toString index
  | .attributeTable place => "attrs_" ++ toString place
  | .outputs name => name
  | .resultTensor => "ort_result_tensor"
  | .resultData => "ort_result_data"
  | .selfTensor => "ort_self_tensor"
  | .selfData => "ort_self_data"

/-- An argument of an op: a local, or the first of the outputs of an op. -/
inductive Argument where
  | whole (l : Local)
  | first (l : Local)
  deriving DecidableEq, Repr, Inhabited

/-- An argument as it is written. -/
def Argument.text : Argument → String
  | .whole l => l.name
  | .first l => l.name ++ "[0]"

/-- The value of an attribute: a parameter, an expression, or the first output of an op. -/
inductive AttributeValue where
  | param (name : String)
  | literal (text : String)
  | first (l : Local)
  deriving DecidableEq, Repr, Inhabited

/-- The value of an attribute as it is written. -/
def AttributeValue.text : AttributeValue → String
  | .param name => name
  | .literal text => text
  | .first l => l.name ++ "[0]"

/-- One run of an op. -/
structure Invocation where
  /-- It is the first of the function, which declares the status. -/
  isFirst : Bool
  op : String
  arguments : List Argument
  outputs : Local
  /-- The table of attributes, if there are any. -/
  attributes? : Option Local
  domain? : Option String
  deriving DecidableEq, Repr, Inhabited

/-- A statement of a generated function. -/
inductive Statement where
  /-- logs the call -/
  | log (params : List String)
  /-- declares the invoker, from the device of a parameter -/
  | bindInvoker (param : String)
  /-- declares the engine's value for a parameter -/
  | bindInput (param : String)
  /-- declares the engine's value for an expression -/
  | bindLiteral (index : Nat) (expression : String)
  /-- declares a table of attributes and fills it -/
  | bindAttributes (table : Local) (entries : List (String × AttributeValue))
  /-- declares the outputs of an op -/
  | bindOutputs (outputs : Local) (count : Nat)
  /-- runs an op -/
  | invoke (i : Invocation)
  /-- throws unless the op went well -/
  | check
  /-- returns the result of an op as a new tensor with the options of a parameter -/
  | returnNew (result : Local) (param : String)
  /-- copies the result of an op into the memory of a parameter -/
  | copyInto (result : Local) (param : String)
  /-- returns a parameter -/
  | returnParam (param : String)
  deriving DecidableEq, Repr, Inhabited

namespace Statement

/-- The line that declares the engine's value for an expression. -/
def bindLine (l : Local) (expression : String) : String :=
  "auto " ++ l.name ++ " = create_ort_value(" ++ Local.invoker.name ++ ", " ++ expression ++ ");"

/-- The line that sets an attribute. -/
def attributeLine (table : Local) (entry : String × AttributeValue) : String :=
  let key := "AttrName::" ++ entry.1
  table.name ++ "[" ++ key ++ "] = create_ort_attribute(" ++ key ++ ", " ++ entry.2.text ++ ");"

/-- The line on which the arguments of an op end. -/
def closingLine (i : Invocation) : String :=
  "\x7d, " ++ i.outputs.name ++ ", " ++
    (match i.attributes? with
      | some table => "&" ++ table.name
      | none => "nullptr") ++
    (match i.domain? with
      | some domain => ", " ++ domain
      | none => "") ++ ");"

/-- Writes the run of an op. -/
def writeInvocation (p : Page) (i : Invocation) : Page :=
  let opening := (if i.isFirst then "auto " else "") ++ Local.status.name ++ " = " ++
    Local.invoker.name ++ ".Invoke(\"" ++ i.op ++ "\", \x7b"
  let p := ((p.writeLine opening).indent.writeLines (i.arguments.map (·.text ++ ","))).dedent
  (p.writeLine (closingLine i)).blankLine

/-- Writes the check of the status. -/
def writeCheck (p : Page) : Page :=
  let p := (p.writeLine ("if (!" ++ Local.status.name ++ ".IsOK())")).indent
  let p := (p.writeLine "throw std::runtime_error(").indent
  let p := p.writeLine
    ("\"ORT return failure status:\" + " ++ Local.status.name ++ ".ErrorMessage());")
  p.dedent.dedent.blankLine

/-- The lines that copy the result of an op into the memory of a parameter. -/
def copyLines (result : Local) (param : String) : List String :=
  let resultTensor := Local.resultTensor.name
  let selfTensor := Local.selfTensor.name
  ["auto& " ++ resultTensor ++ " = " ++ result.name ++ "[0].Get<onnxruntime::Tensor>();",
   "auto* " ++ Local.resultData.name ++ " = " ++ resultTensor ++ ".DataRaw(" ++ resultTensor ++
     ".DataType());",
   "auto* " ++ selfTensor ++ " = " ++ (Local.input param).name ++
     ".GetMutable<onnxruntime::Tensor>();",
   "auto* " ++ Local.selfData.name ++ " = " ++ selfTensor ++ "->MutableDataRaw(" ++ selfTensor ++
     "->DataType());",
   "memcpy(" ++ Local.selfData.name ++ ", " ++ Local.resultData.name ++ ", " ++ selfTensor ++
     "->DataType()->Size() * " ++ selfTensor ++ "->Shape().Size());"]

/-- Writes a statement. -/
def write (p : Page) : Statement → Page
  | .log params => (p.writeLine ("ORT_LOG_FN(" ++ ", ".intercalate params ++ ");")).blankLine
  | .bindInvoker param =>
    (p.writeLine
      ("auto& " ++ Local.invoker.name ++ " = GetORTInvoker(" ++ param ++ ".device());")).blankLine
  | .bindInput param => p.writeLine (bindLine (.input param) param)
  | .bindLiteral index expression => p.writeLine (bindLine (.literal index) expression)
  | .bindAttributes table entries =>
    (p.blankLine.writeLine
      ("NodeAttributes " ++ table.name ++ "(" ++ toString entries.length ++ ");")).writeLines
        (entries.map (attributeLine table))
  | .bindOutputs outputs count =>
    (p.blankLine.writeLine
      ("std::vector<OrtValue> " ++ outputs.name ++ "(" ++ toString count ++ ");")).blankLine
  | .invoke i => writeInvocation p i
  | .check => writeCheck p
  | .returnNew result param =>
    ((p.writeLine "return aten_tensor_from_ort(").indent.writeLines
      ["std::move(" ++ result.name ++ "[0]),", param ++ ".options());"]).dedent
  | .copyInto result param => p.writeLines (copyLines result param)
  | .returnParam param => p.writeLine ("return " ++ param ++ ";")

/-- Writes statements one after the other. -/
def writeAll (p : Page) (ss : List Statement) : Page := ss.foldl write p

end Statement

end KernelGen
