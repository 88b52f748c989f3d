import KernelGen.Diagnostic.Cause
import KernelGen.Graph.Basic
set_option autoImplicit false

/-!
# Graph: builders

A builder collects nodes and gives out an identifier for each.  When it is finished with one
of them as the root, every identifier that its nodes refer to has to be its own and of an
earlier node; the first node that breaks this is reported.

Several builders are kept in a session, which gives every builder a number of its own.
-/

namespace KernelGen

/-- A graph in the making. -/
structure Builder where
  /-- What tells the builder's identifiers from those of others. -/
  id : Nat
  nodes : List (OpNode NodeId)
  deriving DecidableEq, Repr, Inhabited

namespace Builder

/-- A builder without nodes. -/
def new (id : Nat) : Builder := ⟨id, []⟩

/-- Adds a node. -/
def add (b : Builder) (n : OpNode NodeId) : NodeId × Builder :=
  (⟨b.id, b.nodes.length⟩, ⟨b.id, b.nodes ++ [n]⟩)

/-- The identifier is one of the builder's. -/
def owns (b : Builder) (id : NodeId) : Bool := id.owner == b.id && id.index < b.nodes.length

/-- The node at a place with its references as places, when all of them may be made there. -/
def resolve (owner place : Nat) (n : OpNode NodeId) : Except Cause (OpNode Nat) :=
  match n.references.find? (·.owner != owner), n.references.find? (place ≤ ·.index) with
  | some r, _ => .error (.foreignReference place n.name r.index)
  | none, some r => .error (.forwardReference place n.name r.index)
  | none, none => .ok (n.map NodeId.index)

/-- The nodes from a place on with their references as places. -/
def resolveFrom (owner place : Nat) :
    List (OpNode NodeId) → Except Cause (List (OpNode Nat))
  | [] => .ok []
  | n :: ns =>
    match resolve owner place n with
    | .error c => .error c
    | .ok m =>
      match resolveFrom owner (place + 1) ns with
      | .error c => .error c
      | .ok ms => .ok (m :: ms)

theorem resolve_references_lt {owner place : Nat} {n : OpNode NodeId} {m : OpNode Nat}
    (h : resolve owner place n = .ok m) : ∀ r ∈ m.references, r < place := by
  unfold resolve at h
  split at h
  · cases h
  · cases h
  · rename_i _ hf
    cases h
    intro r hr
    rw [OpNode.references_map] at hr
    obtain ⟨id, hid, rfl⟩ := List.mem_map.1 hr
    have := List.find?_eq_none.1 hf id hid
    simpa using this

theorem length_resolveFrom {owner place : Nat} {ns : List (OpNode NodeId)}
    {ms : List (OpNode Nat)} (h : resolveFrom owner place ns = .ok ms) :
    ms.length = ns.length := by
  induction ns generalizing place ms with
  | nil => cases h; rfl
  | cons n ns ih =>
    simp only [resolveFrom] at h
    split at h
    · cases h
    split at h
    · cases h
    · rename_i hms
      cases h
      simp [ih hms]

theorem resolveFrom_references_lt {owner place : Nat} {ns : List (OpNode NodeId)}
    {ms : List (OpNode Nat)} (h : resolveFrom owner place ns = .ok ms) :
    ∀ (i : Nat) (hi : i < ms.length), ∀ r ∈ ms[i].references, r < place + i := by
  induction ns generalizing place ms with
  | nil => cases h; intro i hi; simp at hi
  | cons n ns ih =>
    simp only [resolveFrom] at h
    split at h
    · cases h
    rename_i m hm
    split at h
    · cases h
    · rename_i ms' hms
      cases h
      intro i hi r hr
      cases i with
      | zero => exact resolve_references_lt hm r hr
      | succ i =>
        have := ih hms i (by simpa using hi) r hr
        omega

/-- The graph of a builder with a given root. -/
def finish (b : Builder) (root : NodeId) : Except Cause OpGraph :=
  if hr : b.owns root then
    match h : resolveFrom b.id 0 b.nodes with
    | .error c => .error c
    | .ok nodes =>
      .ok {
        owner := b.id
        nodes
        root := root.index
        root_lt := by
          rw [length_resolveFrom h]
          simp only [owns, Bool.and_eq_true, decide_eq_true_eq] at hr
          exact hr.2
        references_lt := by
          intro i hi r hr
          have := resolveFrom_references_lt h i hi r hr
          omega }
  else .error (.foreignRoot root.index)

end Builder

/-- Builders by their numbers; a builder that was finished is gone. -/
structure Session where
  builders : List (Option Builder)
  deriving Repr, Inhabited

namespace Session

/-- The session without builders. -/
def empty : Session := ⟨[]⟩

/-- A new builder, by its number. -/
def new (s : Session) : Nat × Session :=
  (s.builders.length, ⟨s.builders ++ [some (.new s.builders.length)]⟩)

/-- The builder of a number that was not finished yet. -/
def builder? (s : Session) (k : Nat) : Option Builder := s.builders[k]?.join

/-- Adds a node to a builder that was not finished yet. -/
def add? (s : Session) (k : Nat) (n : OpNode NodeId) : Option (NodeId × Session) :=
  (s.builder? k).map fun b =>
    let (id, b) := b.add n
    (id, ⟨s.builders.set k (some b)⟩)

/-- Finishes a builder, which is gone afterwards, also when it makes no graph. -/
def finish? (s : Session) (k : Nat) (root : NodeId) :
    Option (Except Cause OpGraph × Session) :=
  (s.builder? k).map fun b => (b.finish root, ⟨s.builders.set k none⟩)

end Session

end KernelGen
