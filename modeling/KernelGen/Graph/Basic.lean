import KernelGen.Graph.Node
set_option autoImplicit false

/-!
# Graph: op graphs

A graph is a list of nodes and one of them, its root.  A node refers only to nodes in front of
it, so references make no cycle and everything that follows them ends.

Nodes are known outside the graph by identifiers, which also name the graph's owner: the
builder that made them.  A graph answers only for identifiers of its own.
-/

namespace KernelGen

/-- The identifier of a node: who made it, and its place there. -/
structure NodeId where
  owner : Nat
  index : Nat
  deriving DecidableEq, Repr, Inhabited

/-- A finished graph. -/
structure OpGraph where
  owner : Nat
  nodes : List (OpNode Nat)
  root : Nat
  root_lt : root < nodes.length
  /-- References go to nodes further in front. -/
  references_lt : ∀ (i : Nat) (h : i < nodes.length), ∀ r ∈ nodes[i].references, r < i

namespace OpGraph

/-- The number of nodes. -/
def size (g : OpGraph) : Nat := g.nodes.length

/-- The node of an identifier; nothing for the identifiers of other owners. -/
def node? (g : OpGraph) (id : NodeId) : Option (OpNode Nat) :=
  if id.owner = g.owner then g.nodes[id.index]? else none

/-- The places that the node at a place refers to. -/
def references (g : OpGraph) (i : Nat) : List Nat :=
  match g.nodes[i]? with
  | some n => n.references
  | none => []

theorem lt_of_mem_references {g : OpGraph} {i r : Nat} (h : r ∈ g.references i) : r < i := by
  unfold references at h
  split at h
  · rename_i n hn
    obtain ⟨hi, rfl⟩ := List.getElem?_eq_some_iff.1 hn
    exact g.references_lt i hi r h
  · cases h

end OpGraph

end KernelGen
