import KernelGen.Kernel.Statement
import KernelGen.Proofs.Graph.Fold
set_option autoImplicit false

/-!
# Kernel: what bodies and graphs compute

The meaning of the parameters, of the expressions and of the ops of the engine is left open: a
`Meaning` gives a value to every parameter and expression, and outputs to every call of the
engine.  Given one, a graph has a value by recursion over its nodes, and a body can be run.

Running a body follows its text.  A machine knows its locals by their names only, declares each
name once, and gets stuck at a name that was not declared or does not hold what is asked of it.
-/

namespace KernelGen

variable {V : Type}

/-- All that the engine is told when it runs an op. -/
structure Call (V : Type) where
  op : String
  arguments : List V
  attributes : List (String × V)
  domain? : Option String
  /-- The number of outputs that were declared. -/
  outputs : Nat

/-- What a function is computed from. -/
structure Meaning (V : Type) where
  /-- The values of the parameters, by name. -/
  param : String → V
  /-- The values of the expressions, by their text. -/
  literal : String → V
  /-- The outputs of a call, by their places. -/
  invoke : Call V → Nat → V

/-! ## Graphs -/

namespace Meaning

/-- The value of an input or an attribute: of a node that is referred to, the first output. -/
def value (m : Meaning V) : Value (Nat → V) → V
  | .param name => m.param name
  | .literal text => m.literal text
  | .output outputs => outputs 0

/-- The call that runs a node: its inputs in order, and the attributes that have a value. -/
def callOf (m : Meaning V) (n : OpNode (Nat → V)) : Call V where
  op := n.name
  arguments := n.inputs.map m.value
  attributes := n.attributes.filterMap fun a => a.2.map fun v => (a.1, m.value v)
  domain? := n.domain?
  outputs := n.outputs

/-- The outputs of the node at a place of a graph, by recursion over the graph.  No value is
asked of a place without a node. -/
def outputs (m : Meaning V) (g : OpGraph) : Nat → Nat → V :=
  g.fold (fun _ => m.param "") fun n => m.invoke (m.callOf n)

/-- The call that runs the node at a place of a graph. -/
def call? (m : Meaning V) (g : OpGraph) (i : Nat) : Option (Call V) :=
  g.nodes[i]?.map fun n => m.callOf (n.map (m.outputs g))

theorem outputs_eq (m : Meaning V) {g : OpGraph} {i : Nat} {n : OpNode Nat}
    (h : g.nodes[i]? = some n) :
    m.outputs g i = m.invoke (m.callOf (n.map (m.outputs g))) :=
  g.fold_eq _ _ h

end Meaning

/-! ## Bodies -/

/-- What a name stands for. -/
inductive Cell (V : Type) where
  | invoker
  | status
  | value (v : V)
  | attributes (entries : List (String × V))
  /-- Outputs, with their number; they have no values before an op was run for them. -/
  | outputs (count : Nat) (values? : Option (Nat → V))
  /-- A tensor, or its memory, while a result is copied. -/
  | tensor

/-- A body that is being run. -/
structure Machine (V : Type) where
  /-- What the names that were declared stand for. -/
  cells : String → Option (Cell V)
  /-- The calls of the engine so far, in order. -/
  calls : List (Call V)
  /-- What was copied into the memory of a parameter. -/
  copied? : Option (String × V)
  /-- What was returned. -/
  returned? : Option V

namespace Machine

/-- Nothing was run. -/
def start : Machine V := ⟨fun _ => none, [], none, none⟩

/-- The machine with another cell under a name. -/
def set (s : Machine V) (name : String) (c : Cell V) : Machine V :=
  { s with cells := fun other => if other = name then some c else s.cells other }

/-- Declares a name, which must be new. -/
def declare (s : Machine V) (name : String) (c : Cell V) : Option (Machine V) :=
  match s.cells name with
  | none => some (s.set name c)
  | some _ => none

/-- The invoker is declared. -/
def hasInvoker (s : Machine V) : Option Unit :=
  match s.cells Local.invoker.name with
  | some .invoker => some ()
  | _ => none

/-- The status is declared. -/
def hasStatus (s : Machine V) : Option Unit :=
  match s.cells Local.status.name with
  | some .status => some ()
  | _ => none

/-- The value under a name. -/
def value? (s : Machine V) (name : String) : Option V :=
  match s.cells name with
  | some (.value v) => some v
  | _ => none

/-- The first of the outputs under a name. -/
def first? (s : Machine V) (name : String) : Option V :=
  match s.cells name with
  | some (.outputs _ (some values)) => some (values 0)
  | _ => none

/-- The number of the outputs under a name. -/
def count? (s : Machine V) (name : String) : Option Nat :=
  match s.cells name with
  | some (.outputs count _) => some count
  | _ => none

/-- The attributes under a name. -/
def attributes? (s : Machine V) (name : String) : Option (List (String × V)) :=
  match s.cells name with
  | some (.attributes entries) => some entries
  | _ => none

/-- The value of an argument. -/
def argument? (s : Machine V) : Argument → Option V
  | .whole l => s.value? l.name
  | .first l => s.first? l.name

/-- The value of an attribute. -/
def attribute? (m : Meaning V) (s : Machine V) : AttributeValue → Option V
  | .param name => some (m.param name)
  | .literal text => some (m.literal text)
  | .first l => s.first? l.name

/-- The attributes that are given to an op. -/
def table? (s : Machine V) : Option Local → Option (List (String × V))
  | none => some []
  | some table => s.attributes? table.name

/-- Writes the status, which the first run of an op declares and a later one finds. -/
def setStatus (s : Machine V) (isFirst : Bool) : Option (Machine V) :=
  if isFirst then s.declare Local.status.name .status
  else s.hasStatus.map fun _ => s

/-- Runs an op. -/
def invoke (m : Meaning V) (s : Machine V) (i : Invocation) : Option (Machine V) := do
  s.hasInvoker
  let arguments ← i.arguments.mapM s.argument?
  let attributes ← s.table? i.attributes?
  let count ← s.count? i.outputs.name
  let call : Call V := ⟨i.op, arguments, attributes, i.domain?, count⟩
  let s ← s.setStatus i.isFirst
  return { s.set i.outputs.name (.outputs count (some (m.invoke call))) with
    calls := s.calls ++ [call] }

/-- Copies a result into the memory of a parameter, by way of four locals. -/
def copy (s : Machine V) (result : Local) (param : String) : Option (Machine V) := do
  let v ← s.first? result.name
  let s ← s.declare Local.resultTensor.name .tensor
  let s ← s.declare Local.resultData.name .tensor
  let _ ← s.value? (Local.input param).name
  let s ← s.declare Local.selfTensor.name .tensor
  let s ← s.declare Local.selfData.name .tensor
  return { s with copied? := some (param, v) }

/-- Runs a statement. -/
def step (m : Meaning V) (s : Machine V) : Statement → Option (Machine V)
  | .log _ => some s
  | .bindInvoker _ => s.declare Local.invoker.name .invoker
  | .bindInput param => do
    s.hasInvoker
    s.declare (Local.input param).name (.value (m.param param))
  | .bindLiteral index expression => do
    s.hasInvoker
    s.declare (Local.literal index).name (.value (m.literal expression))
  | .bindAttributes table entries => do
    let entries ← entries.mapM fun e => (attribute? m s e.2).map fun v => (e.1, v)
    s.declare table.name (.attributes entries)
  | .bindOutputs outputs count => s.declare outputs.name (.outputs count none)
  | .invoke i => s.invoke m i
  | .check => do
    s.hasStatus
    return s
  | .returnNew result _ => do
    let v ← s.first? result.name
    return { s with returned? := some v }
  | .copyInto result param => s.copy result param
  | .returnParam param =>
    match s.copied? with
    | some (copied, v) => if copied = param then some { s with returned? := some v } else none
    | none => none

/-- Runs statements one after the other.  Nothing may follow once a value was returned. -/
def run (m : Meaning V) (s : Machine V) : List Statement → Option (Machine V)
  | [] => some s
  | statement :: body =>
    if s.returned?.isSome then none
    else do
      let s ← s.step m statement
      run m s body

theorem run_cons {m : Meaning V} {s : Machine V} (h : s.returned? = none) (statement : Statement)
    (body : List Statement) :
    run m s (statement :: body) = s.step m statement >>= fun s => run m s body := by
  simp [run, h]

theorem run_append (m : Meaning V) (s : Machine V) (body more : List Statement) :
    run m s (body ++ more) = run m s body >>= fun s => run m s more := by
  induction body generalizing s with
  | nil => rfl
  | cons statement body ih =>
    simp only [List.cons_append, run]
    split
    · rfl
    · cases hstep : s.step m statement with
      | none => rfl
      | some s' => exact ih s'

end Machine

end KernelGen
