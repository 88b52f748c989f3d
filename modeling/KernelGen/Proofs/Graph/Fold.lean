import KernelGen.Graph.Basic
set_option autoImplicit false

/-!
# Graph: recursion over a graph

What a graph means is said node by node: a rule gives the meaning of a node whose references
have been replaced by the meanings of the nodes referred to.  `OpGraph.fold` follows such a rule
from a node down its references, and `fold_eq` is the equation it is used by.  The recursion
knows nothing of sharing or of an order of execution.
-/

namespace KernelGen

variable {ν μ α : Type}

namespace OpNode

theorem mem_references_of_input {n : OpNode ν} {r : ν} (h : .output r ∈ n.inputs) :
    r ∈ n.references :=
  List.mem_filterMap.2 ⟨.output r, List.mem_append_left _ h, rfl⟩

theorem mem_references_of_attribute {n : OpNode ν} {key : String} {r : ν}
    (h : (key, some (.output r)) ∈ n.attributes) : r ∈ n.references := by
  refine List.mem_filterMap.2 ⟨.output r, List.mem_append_right _ ?_, rfl⟩
  exact List.mem_filterMap.2 ⟨_, h, rfl⟩

/-- The node with, for each of its references, the fact that it is one. -/
def attach (n : OpNode ν) : OpNode { r // r ∈ n.references } where
  name := n.name
  outputs := n.outputs
  inputs := n.inputs.attach.map fun v =>
    match h : v.val with
    | .param name => .param name
    | .literal text => .literal text
    | .output r => .output ⟨r, mem_references_of_input (h ▸ v.property)⟩
  attributes := n.attributes.attach.map fun a =>
    (a.val.1, match h : a.val.2 with
      | none => none
      | some (.param name) => some (.param name)
      | some (.literal text) => some (.literal text)
      | some (.output r) => some (.output ⟨r, by
          have ha : (a.val.1, some (.output r)) ∈ n.attributes := h ▸ a.property
          exact mem_references_of_attribute ha⟩))
  domain? := n.domain?

/-- Forgetting the facts gives the node back. -/
theorem attach_map (n : OpNode ν) (f : ν → μ) : n.attach.map (fun r => f r.val) = n.map f := by
  unfold attach map
  congr 1
  · rw [List.map_map]
    conv => rhs; rw [← List.attach_map_subtype_val n.inputs, List.map_map]
    apply List.map_congr_left
    rintro ⟨v, hv⟩ -
    cases v <;> rfl
  · rw [List.map_map]
    conv => rhs; rw [← List.attach_map_subtype_val n.attributes, List.map_map]
    apply List.map_congr_left
    rintro ⟨⟨key, v?⟩, ha⟩ -
    cases v? with
    | none => rfl
    | some v => cases v <;> rfl

end OpNode

namespace OpGraph

/-- The meaning of the node at a place, by a rule for nodes that hold the meanings of the nodes
they refer to.  A place without a node means `outside`. -/
def fold (g : OpGraph) (outside : α) (rule : OpNode α → α) (i : Nat) : α :=
  match _h : g.nodes[i]? with
  | none => outside
  | some n => rule (n.attach.map fun r => g.fold outside rule r.val)
termination_by i
decreasing_by
  refine OpGraph.lt_of_mem_references (g := g) ?_
  unfold references
  rw [_h]
  exact r.property

theorem fold_eq (g : OpGraph) (outside : α) (rule : OpNode α → α) {i : Nat} {n : OpNode Nat}
    (h : g.nodes[i]? = some n) :
    g.fold outside rule i = rule (n.map (g.fold outside rule)) := by
  rw [fold]
  split
  · rename_i hnone
    rw [h] at hnone
    cases hnone
  · rename_i n' hn'
    rw [h] at hn'
    cases hn'
    rw [OpNode.attach_map n (g.fold outside rule)]

end OpGraph

end KernelGen
