import KernelGen.Graph.Basic
set_option autoImplicit false

/-!
# Graph: order of execution

The nodes of a graph are executed in post-order: a node comes behind everything it refers to,
its inputs before its attributes, and a node that is reached again is not executed again.
After that each node in the order has a name of its own for its outputs.
-/

namespace KernelGen

/-- The order with a node appended behind everything it refers to, unless it is there. -/
def OpGraph.visit (g : OpGraph) (order : List Nat) (i : Nat) : List Nat :=
  if i ∈ order then order
  else (g.references i).attach.foldl (fun o r => g.visit o r.val) order ++ [i]
termination_by i
decreasing_by exact OpGraph.lt_of_mem_references r.property

/-- A character of an identifier, or an underscore in its place. -/
def identifierChar (c : Char) : Char := if c.isAlphanum || c == '_' then c else '_'

/-- The name of the outputs of a node: its place in the order, and the name of its op as far as
that can stand in an identifier. -/
def bindingName (place : Nat) (op : String) : String :=
  "result_" ++ toString place ++ "_" ++ String.ofList (op.toList.map identifierChar)

/-- The nodes evaluated so far, in the order of execution, and the names of the outputs by the
nodes' places in the graph. -/
structure Evaluation where
  order : List Nat
  names : List (Option String)
  deriving DecidableEq, Repr, Inhabited

namespace Evaluation

/-- Nothing is evaluated. -/
def empty : Evaluation := ⟨[], []⟩

/-- Evaluates a node of a graph. -/
def visit (e : Evaluation) (g : OpGraph) (i : Nat) : Evaluation := ⟨g.visit e.order i, e.names⟩

/-- The name of the outputs of a node of a graph, by the node's place in an order. -/
def nameIn (g : OpGraph) (order : List Nat) (i : Nat) : Option String := do
  let n ← g.nodes[i]?
  return bindingName (← order.idxOf? i) n.name

/-- Names the outputs of all evaluated nodes of a graph. -/
def prepare (e : Evaluation) (g : OpGraph) : Evaluation :=
  ⟨e.order, (List.range g.size).map (nameIn g e.order)⟩

/-- The name of the outputs of a node, by its place in the graph. -/
def name? (e : Evaluation) (i : Nat) : Option String := e.names[i]?.join

end Evaluation

/-- The evaluation of a graph from its root. -/
def OpGraph.evaluate (g : OpGraph) : Evaluation :=
  (Evaluation.empty.visit g g.root).prepare g

end KernelGen
