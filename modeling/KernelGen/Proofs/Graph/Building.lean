import KernelGen.Graph.Builder
set_option autoImplicit false

/-!
# Graph: when a builder makes a graph

A builder makes a graph exactly when the root is one of its nodes and every reference is one of
its own and goes to an earlier node.  Nothing is moved on the way: the nodes of the graph are
those of the builder with places for identifiers.
-/

namespace KernelGen

/-- What is added behind a list is at the place that was its length, and the rest stays. -/
theorem getElem?_concat_eq_some {α : Type} {xs : List α} {x y : α} {i : Nat} :
    (xs ++ [x])[i]? = some y ↔ xs[i]? = some y ∨ i = xs.length ∧ y = x := by
  rcases Nat.lt_trichotomy i xs.length with hlt | rfl | hgt
  · rw [List.getElem?_append_left hlt]
    simp [Nat.ne_of_lt hlt]
  · simp [eq_comm]
  · rw [List.getElem?_eq_none (by simp; omega), List.getElem?_eq_none (by omega)]
    simp [Nat.ne_of_gt hgt]

namespace Builder

/-- The references of a node may be made at a place: they are the owner's, and go to places
further in front. -/
def RefersBack (owner place : Nat) (n : OpNode NodeId) : Prop :=
  ∀ r ∈ n.references, r.owner = owner ∧ r.index < place

/-- Every node of the builder may stand where it stands. -/
def Backward (b : Builder) : Prop :=
  ∀ (i : Nat) (n : OpNode NodeId), b.nodes[i]? = some n → RefersBack b.id i n

/-- The nodes of a builder with places for identifiers. -/
def places (b : Builder) : List (OpNode Nat) := b.nodes.map (OpNode.map NodeId.index)

/-- A node that is added stands behind the others, and these stay where they are. -/
theorem getElem?_nodes_add (b : Builder) (n : OpNode NodeId) {i : Nat} {m : OpNode NodeId} :
    (b.add n).2.nodes[i]? = some m ↔ b.nodes[i]? = some m ∨ i = b.nodes.length ∧ m = n :=
  getElem?_concat_eq_some

variable {owner place : Nat}

theorem resolve_eq_ok {n : OpNode NodeId} {m : OpNode Nat} :
    resolve owner place n = .ok m ↔ RefersBack owner place n ∧ m = n.map NodeId.index := by
  unfold resolve
  split
  · rename_i _ r hforeign
    have hne : r.owner ≠ owner := by simpa using List.find?_some hforeign
    simpa using fun hback : RefersBack owner place n =>
      (hne (hback r (List.mem_of_find?_eq_some hforeign)).1).elim
  · rename_i r _ hforward
    have hle : place ≤ r.index := by simpa using List.find?_some hforward
    simpa using fun hback : RefersBack owner place n =>
      (Nat.not_lt.2 hle (hback r (List.mem_of_find?_eq_some hforward)).2).elim
  · rename_i hown hback
    have hrefers : RefersBack owner place n := fun r hr =>
      ⟨by simpa using List.find?_eq_none.1 hown r hr,
        by simpa using List.find?_eq_none.1 hback r hr⟩
    rw [Except.ok.injEq]
    exact ⟨fun h => ⟨hrefers, h.symm⟩, fun h => h.2.symm⟩

theorem resolveFrom_eq_ok {ns : List (OpNode NodeId)} {ms : List (OpNode Nat)} :
    resolveFrom owner place ns = .ok ms ↔
      (∀ (i : Nat) (n : OpNode NodeId), ns[i]? = some n → RefersBack owner (place + i) n) ∧
        ms = ns.map (OpNode.map NodeId.index) := by
  induction ns generalizing place ms with
  | nil => simp [resolveFrom, eq_comm]
  | cons n ns ih =>
    -- the node itself, and those behind it one place further on
    have hcons : (∀ (i : Nat) (m : OpNode NodeId), (n :: ns)[i]? = some m →
        RefersBack owner (place + i) m) ↔ RefersBack owner place n ∧
          ∀ (i : Nat) (m : OpNode NodeId), ns[i]? = some m →
            RefersBack owner (place + 1 + i) m := by
      constructor
      · intro h
        refine ⟨h 0 n rfl, fun i m hm => ?_⟩
        rw [Nat.add_assoc, Nat.add_comm 1 i]
        exact h (i + 1) m hm
      · rintro ⟨hn, hns⟩ i m hm
        cases i with
        | zero => cases hm; exact hn
        | succ i =>
          have := hns i m hm
          rwa [Nat.add_assoc, Nat.add_comm 1 i] at this
    rw [hcons, resolveFrom]
    split
    · rename_i c hc
      have hnot : ¬ RefersBack owner place n := fun h => by
        rw [resolve_eq_ok.2 ⟨h, rfl⟩] at hc
        cases hc
      simp [hnot]
    · rename_i m hm
      obtain ⟨hn, rfl⟩ := resolve_eq_ok.1 hm
      split
      · rename_i c hc
        have hnot : ¬ ∀ (i : Nat) (m : OpNode NodeId), ns[i]? = some m →
            RefersBack owner (place + 1 + i) m := fun h => by
          rw [ih.2 ⟨h, rfl⟩] at hc
          cases hc
        simp [hnot]
      · rename_i ms' hms
        obtain ⟨hns, rfl⟩ := ih.1 hms
        rw [Except.ok.injEq, List.map_cons]
        exact ⟨fun h => ⟨⟨hn, hns⟩, h.symm⟩, fun h => h.2.symm⟩

/-- **Finishing.**  A builder makes a graph from a root exactly when the root is one of its nodes
and every reference is its own and goes to an earlier node, and the graph is the builder's
nodes. -/
theorem finish_eq_ok {b : Builder} {root : NodeId} {g : OpGraph} :
    b.finish root = .ok g ↔
      b.owns root = true ∧ b.Backward ∧
        g.owner = b.id ∧ g.nodes = b.places ∧ g.root = root.index := by
  unfold finish
  split
  · rename_i hroot
    have hresolve : ∀ {ms}, resolveFrom b.id 0 b.nodes = .ok ms ↔ b.Backward ∧ ms = b.places := by
      intro ms
      rw [resolveFrom_eq_ok]
      simp only [Nat.zero_add]
      exact Iff.rfl
    split
    · rename_i c hc
      have hnot : ¬ b.Backward := fun h => by
        rw [hresolve.2 ⟨h, rfl⟩] at hc
        cases hc
      simp [hnot]
    · rename_i ms hms
      obtain ⟨hback, rfl⟩ := hresolve.1 hms
      rw [Except.ok.injEq]
      constructor
      · rintro rfl
        exact ⟨hroot, hback, rfl, rfl, rfl⟩
      · rintro ⟨-, -, howner, hnodes, hplace⟩
        cases g
        cases howner
        cases hnodes
        cases hplace
        rfl
  · rename_i hroot
    simp [hroot]

/-- Nodes that may stand where they stand make a graph from each of them. -/
theorem exists_finish {b : Builder} {root : NodeId} (hroot : b.owns root = true)
    (hback : b.Backward) :
    ∃ g, b.finish root = .ok g ∧ g.nodes = b.places ∧ g.root = root.index := by
  have hlt : root.index < b.places.length := by
    rw [places, List.length_map]
    simp only [owns, Bool.and_eq_true, decide_eq_true_eq] at hroot
    exact hroot.2
  have hrefs : ∀ (i : Nat) (h : i < b.places.length), ∀ r ∈ b.places[i].references, r < i := by
    intro i hi r hr
    simp only [places, List.getElem_map, OpNode.references_map] at hr
    obtain ⟨id, hid, rfl⟩ := List.mem_map.1 hr
    exact (hback i _ (List.getElem?_eq_getElem _) id hid).2
  exact ⟨⟨b.id, b.places, root.index, hlt, hrefs⟩,
    finish_eq_ok.2 ⟨hroot, hback, rfl, rfl, rfl⟩, rfl, rfl⟩

end Builder

end KernelGen
