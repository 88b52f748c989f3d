import KernelGen.Graph.Evaluation
import KernelGen.Kernel.Statement
import KernelGen.Link
set_option autoImplicit false

/-!
# Kernel: the body of a function

A graph becomes a body by running its ops in the order of execution.  Values that an op needs
are declared in front of it: a parameter once for the whole body, an expression each time.
Outputs are used by their first value only, so an op whose outputs are used has exactly one.

What is returned depends on the operator.  If its return value may be written, the result is
copied into the parameter that shares its memory, the last one that was used as an input;
otherwise the result is a new tensor.
-/

namespace KernelGen

namespace Body

/-- What the ops so far have left behind. -/
structure Progress where
  /-- The parameters that have a value of the engine. -/
  bound : List String
  /-- The number of expressions that have one. -/
  literals : Nat
  /-- The parameter that is written in place. -/
  inPlace? : Option String
  deriving DecidableEq, Repr, Inhabited

/-- Nothing was run. -/
def Progress.start : Progress := ⟨[], 0, none⟩

/-- The outputs of a node. -/
def outputsOf (e : Evaluation) (i : Nat) : Except Cause Local :=
  match e.name? i with
  | some name => .ok (.outputs name)
  | none => .error (.notEvaluated i)

/-- The outputs of a node that another one refers to; it has exactly one. -/
def singleOutput (f : LinkedFunction) (g : OpGraph) (e : Evaluation) (i : Nat) :
    Except Cause Local :=
  match g.nodes[i]? with
  | none => .error (.notEvaluated i)
  | some n => if n.outputs = 1 then outputsOf e i else .error (.multipleOutputs n.outputs f.schema)

/-- The parameter of a given name that an op refers to. -/
def requireParam (f : LinkedFunction) (op name : String) : Except Cause LinkedParam :=
  match f.paramNamed? name with
  | some p => .ok p
  | none => .error (.unknownParameter op name f.name f.schema)

/-- The value of an op's input that is a parameter can be written in place. -/
def sharesReturn (f : LinkedFunction) (p : LinkedParam) : Bool :=
  match f.signature.writableReturn? with
  | some a => f.alias? p == some a
  | none => false

/-- The statements that declare an input of an op, and the argument that stands for it. -/
def input (f : LinkedFunction) (g : OpGraph) (e : Evaluation) (op : String) (s : Progress) :
    Value Nat → Except Cause (List Statement × Argument × Progress)
  | .output i => do
    let outputs ← singleOutput f g e i
    return ([], .first outputs, s)
  | .param name => do
    let p ← requireParam f op name
    let inPlace? := if sharesReturn f p then some name else s.inPlace?
    if s.bound.contains name then
      return ([], .whole (.input name), ⟨s.bound, s.literals, inPlace?⟩)
    else
      return ([.bindInput name], .whole (.input name), ⟨name :: s.bound, s.literals, inPlace?⟩)
  | .literal text =>
    .ok ([.bindLiteral s.literals text], .whole (.literal s.literals),
      ⟨s.bound, s.literals + 1, s.inPlace?⟩)

/-- The statements that declare the inputs of an op, and the arguments that stand for them. -/
def inputs (f : LinkedFunction) (g : OpGraph) (e : Evaluation) (op : String) (s : Progress) :
    List (Value Nat) → Except Cause (List Statement × List Argument × Progress)
  | [] => .ok ([], [], s)
  | v :: vs => do
    let (here, a, s) ← input f g e op s v
    let (more, as, s) ← inputs f g e op s vs
    return (here ++ more, a :: as, s)

/-- The value of an attribute of an op. -/
def attributeValue (f : LinkedFunction) (g : OpGraph) (e : Evaluation) (op : String) :
    Value Nat → Except Cause AttributeValue
  | .param name => do
    let _ ← requireParam f op name
    return .param name
  | .literal text => .ok (.literal text)
  | .output i => do
    let outputs ← singleOutput f g e i
    return .first outputs

/-- The attributes of an op that have a value; the others are told. -/
def attributeEntries (f : LinkedFunction) (g : OpGraph) (e : Evaluation) (op : String) :
    List (String × Option (Value Nat)) → Outcome Cause (List (String × AttributeValue))
  | [] => pure []
  | (key, none) :: as => do
    .tell (.omittedAttribute f.operator op key)
    attributeEntries f g e op as
  | (key, some v) :: as => do
    let value ← .ofExcept (attributeValue f g e op v)
    let more ← attributeEntries f g e op as
    return (key, value) :: more

/-- The statements that run the node `i`, which is at `place` in the order of execution. -/
def node (f : LinkedFunction) (g : OpGraph) (e : Evaluation) (place i : Nat) (s : Progress) :
    Outcome Cause (List Statement × Progress) :=
  match g.nodes[i]? with
  | none => .fail (.notEvaluated i)
  | some n => do
    let (bindings, arguments, s) ← .ofExcept (inputs f g e n.name s n.inputs)
    let entries ← attributeEntries f g e n.name n.attributes
    let outputs ← .ofExcept (outputsOf e i)
    let table := Local.attributeTable place
    let (attributes, attributes?) : List Statement × Option Local :=
      if entries.isEmpty then ([], none) else ([.bindAttributes table entries], some table)
    let run : List Statement :=
      [.bindOutputs outputs n.outputs,
       .invoke ⟨place == 0, n.name, arguments, outputs, attributes?, n.domain?⟩, .check]
    return (bindings ++ attributes ++ run, s)

/-- The statements that run nodes, the first of which is at `place` in the order. -/
def nodes (f : LinkedFunction) (g : OpGraph) (e : Evaluation) :
    Nat → List Nat → Progress → Outcome Cause (List Statement × Progress)
  | _, [], s => pure ([], s)
  | place, i :: is, s => do
    let (here, s) ← node f g e place i s
    let (more, s) ← nodes f g e (place + 1) is s
    return (here ++ more, s)

/-- The outputs of the node that was run last; it has exactly one. -/
def result (f : LinkedFunction) (g : OpGraph) (e : Evaluation) : Except Cause Local :=
  match e.order.getLast? with
  | none => .error (.nothingEvaluated f.schema)
  | some i => singleOutput f g e i

/-- The statements that return the result. -/
def returning (f : LinkedFunction) (first : String) (result : Local) (s : Progress) :
    Except Cause (List Statement) :=
  match f.signature.writableReturn? with
  | none => .ok [.returnNew result first]
  | some _ =>
    match s.inPlace? with
    | none => .error (.aliasWithoutParameter f.schema)
    | some param => .ok [.copyInto result param, .returnParam param]

/-- The name of the parameter for the first schema parameter, which has to be a tensor. -/
def firstTensor (f : LinkedFunction) : Except Cause String :=
  match f.signature.params.head?, (f.paramFor? 0).bind LinkedParam.name? with
  | some p, some name => if p.isTensor then .ok name else .error (.firstParameter f.schema)
  | _, _ => .error (.firstParameter f.schema)

/-- The body of a function that computes a graph. -/
def ofGraph (f : LinkedFunction) (g : OpGraph) : Outcome Cause (List Statement) := do
  let e := g.evaluate
  let first ← .ofExcept (firstTensor f)
  let (run, s) ← nodes f g e 0 e.order .start
  let result ← .ofExcept (result f g e)
  let returns ← .ofExcept (returning f first result s)
  return .log (f.params.filterMap LinkedParam.name?) :: .bindInvoker first :: run ++ returns

end Body

end KernelGen
