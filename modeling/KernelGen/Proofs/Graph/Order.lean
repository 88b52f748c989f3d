import KernelGen.Graph.Evaluation
import KernelGen.Proofs.FirstOccurrences
import Mathlib.Logic.Relation
set_option autoImplicit false

/-!
# Graph: what the order of execution is

A node depends on the nodes it refers to and on everything these depend on.  The plain
traversal of a node lists all of that in front of the node, without remembering what it has
seen, so a node that is shared is listed again and again.  The order of execution is that list
with only the first occurrence of every node kept.

The reason is an invariant of orders, `OpGraph.Settled`: a node that is listed has everything
it depends on in front of it.  A node that is met again therefore adds nothing, although its
whole traversal is gone through by the plain one.
-/

namespace KernelGen

theorem OpNode.mem_references_iff {ν : Type} {n : OpNode ν} {r : ν} :
    r ∈ n.references ↔ Value.output r ∈ n.values := by
  rw [OpNode.references, List.mem_filterMap]
  constructor
  · rintro ⟨v, hv, hr⟩
    cases v with
    | output r' =>
      cases hr
      exact hv
    | param name => cases hr
    | literal text => cases hr
  · intro h
    exact ⟨_, h, rfl⟩

namespace OpGraph

theorem mem_references_iff {g : OpGraph} {i r : Nat} :
    r ∈ g.references i ↔ ∃ n, g.nodes[i]? = some n ∧ Value.output r ∈ n.values := by
  unfold references
  split
  · rename_i n hn
    simp [hn, OpNode.mem_references_iff]
  · rename_i hn
    simp [hn]

/-- The node `n` is `i` or one of those that `i` depends on. -/
def Reaches (g : OpGraph) (i n : Nat) : Prop :=
  Relation.ReflTransGen (fun a b => b ∈ g.references a) i n

/-- The nodes that a node depends on and the node behind them, as often as they are met. -/
def postorder (g : OpGraph) (i : Nat) : List Nat :=
  (g.references i).attach.flatMap (fun r => g.postorder r.val) ++ [i]
termination_by i
decreasing_by exact OpGraph.lt_of_mem_references r.property

/-- An order in which no node is listed twice, and none in front of a node it refers to. -/
structure Settled (g : OpGraph) (order : List Nat) : Prop where
  nodup : order.Nodup
  references_before : ∀ (front : List Nat) (n : Nat) (back : List Nat),
    order = front ++ n :: back → ∀ r ∈ g.references n, r ∈ front

variable {g : OpGraph}

/-! ## The plain traversal -/

theorem postorder_eq (i : Nat) :
    g.postorder i = (g.references i).flatMap g.postorder ++ [i] := by
  rw [postorder]
  congr 1
  simp

theorem mem_postorder {i n : Nat} : n ∈ g.postorder i ↔ g.Reaches i n := by
  induction i using Nat.strongRecOn with
  | ind i ih =>
    rw [postorder_eq, List.mem_append, List.mem_flatMap, List.mem_singleton]
    constructor
    · rintro (⟨r, hr, hn⟩ | rfl)
      · exact .head hr ((ih r (lt_of_mem_references hr)).1 hn)
      · exact .refl
    · intro h
      cases Relation.ReflTransGen.cases_head h with
      | inl heq => exact .inr heq.symm
      | inr hstep =>
        obtain ⟨r, hr, hrn⟩ := hstep
        exact .inl ⟨r, hr, (ih r (lt_of_mem_references hr)).2 hrn⟩

theorem Reaches.le {i n : Nat} (h : g.Reaches i n) : n ≤ i := by
  induction h with
  | refl => exact Nat.le_refl i
  | tail _ hstep ih => exact Nat.le_trans (Nat.le_of_lt (lt_of_mem_references hstep)) ih

/-! ## Settled orders -/

theorem settled_nil : g.Settled [] where
  nodup := List.nodup_nil
  references_before front n back h := by simp at h

/-- What is in a settled order has everything it depends on there. -/
theorem Settled.mem_of_reaches {order : List Nat} (h : g.Settled order) {i n : Nat}
    (hi : i ∈ order) (hn : g.Reaches i n) : n ∈ order := by
  induction hn with
  | refl => exact hi
  | tail _ hstep ih =>
    obtain ⟨front, back, hsplit⟩ := List.append_of_mem ih
    rw [hsplit]
    exact List.mem_append_left _ (h.references_before front _ back hsplit _ hstep)

/-- A node may be appended once everything it refers to is listed. -/
theorem Settled.concat {order : List Nat} (h : g.Settled order) {i : Nat} (hi : i ∉ order)
    (hr : ∀ r ∈ g.references i, r ∈ order) : g.Settled (order ++ [i]) where
  nodup := by
    rw [List.nodup_append]
    refine ⟨h.nodup, List.nodup_singleton i, ?_⟩
    intro a ha b hb hab
    rw [List.mem_singleton] at hb
    exact hi (hb ▸ hab ▸ ha)
  references_before front n back hsplit := by
    rcases List.eq_nil_or_concat back with rfl | ⟨back, last, rfl⟩
    · obtain ⟨rfl, hn⟩ := List.append_inj' hsplit rfl
      cases hn
      exact hr
    · have hsplit' : order ++ [i] = (front ++ n :: back) ++ [last] := by
        simpa using hsplit
      exact h.references_before front n back (List.append_inj' hsplit' rfl).1

/-! ## One visit, and many -/

theorem visit_eq (order : List Nat) (i : Nat) :
    g.visit order i =
      if i ∈ order then order else (g.references i).foldl g.visit order ++ [i] := by
  rw [visit]
  split
  · rfl
  · congr 1
    exact List.foldl_attach

/-- What a visit of `i` does to any settled order: the order stays settled, and the first
occurrences in the plain traversal are appended. -/
def VisitExtends (g : OpGraph) (i : Nat) : Prop :=
  ∀ order, g.Settled order →
    g.Settled (g.visit order i) ∧ g.visit order i = (order ++ g.postorder i).eraseDups

/-- Visits that extend settled orders do so one after the other. -/
theorem foldl_visit {is : List Nat} (his : ∀ i ∈ is, g.VisitExtends i) {order : List Nat}
    (h : g.Settled order) :
    g.Settled (is.foldl g.visit order) ∧
      is.foldl g.visit order = (order ++ is.flatMap g.postorder).eraseDups := by
  induction is generalizing order with
  | nil => simpa using ⟨h, (eraseDups_eq_self h.nodup).symm⟩
  | cons i is ih =>
    obtain ⟨hset, heq⟩ := his i List.mem_cons_self order h
    obtain ⟨hset', heq'⟩ := ih (fun j hj => his j (List.mem_cons_of_mem _ hj)) hset
    refine ⟨hset', ?_⟩
    rw [List.foldl_cons, heq', heq, eraseDups_eraseDups_append, List.flatMap_cons,
      List.append_assoc]

/-- The induction goes down the references, and the order so far is arbitrary: the nodes that a
visit skips are those of that order, not of the visit itself. -/
theorem visitExtends (g : OpGraph) (i : Nat) : g.VisitExtends i := by
  induction i using Nat.strongRecOn with
  | ind i ih =>
    intro order h
    rw [visit_eq]
    split
    · rename_i hi
      have hall : ∀ n ∈ g.postorder i, n ∈ order := fun n hn =>
        h.mem_of_reaches hi (mem_postorder.1 hn)
      exact ⟨h, by rw [eraseDups_append_of_subset hall, eraseDups_eq_self h.nodup]⟩
    · rename_i hi
      obtain ⟨hset, heq⟩ := foldl_visit (fun r hr => ih r (lt_of_mem_references hr)) h
      have hmem : ∀ n, n ∈ (g.references i).foldl g.visit order ↔
          n ∈ order ∨ n ∈ (g.references i).flatMap g.postorder := by
        intro n
        rw [heq, List.mem_eraseDups, List.mem_append]
      -- the references lie in front of `i`, so their traversals do not meet it
      have hnew : i ∉ order ++ (g.references i).flatMap g.postorder := by
        rw [List.mem_append, List.mem_flatMap]
        rintro (hio | ⟨r, hr, hir⟩)
        · exact hi hio
        · exact Nat.not_le.2 (lt_of_mem_references hr) (mem_postorder.1 hir).le
      constructor
      · refine hset.concat ?_ ?_
        · rwa [hmem, ← List.mem_append]
        · intro r hr
          exact (hmem r).2 (.inr (List.mem_flatMap_of_mem hr (mem_postorder.2 .refl)))
      · rw [postorder_eq, ← List.append_assoc, eraseDups_concat_of_notMem hnew, heq]

end OpGraph

/-! ## Evaluations -/

namespace Evaluation

/-- The evaluation of several nodes of a graph, one after the other. -/
def ofNodes (g : OpGraph) (is : List Nat) : Evaluation :=
  is.foldl (fun e i => e.visit g i) .empty

theorem order_ofNodes (g : OpGraph) (is : List Nat) :
    (ofNodes g is).order = is.foldl g.visit [] := by
  have hgen : ∀ (is : List Nat) (e : Evaluation),
      (is.foldl (fun e i => e.visit g i) e).order = is.foldl g.visit e.order := by
    intro is
    induction is with
    | nil => intro e; rfl
    | cons i is ih => intro e; exact ih (e.visit g i)
  exact hgen is .empty

theorem settled_ofNodes (g : OpGraph) (is : List Nat) : g.Settled (ofNodes g is).order := by
  rw [order_ofNodes]
  exact (OpGraph.foldl_visit (fun i _ => g.visitExtends i) OpGraph.settled_nil).1

theorem order_ofNodes_eq_eraseDups (g : OpGraph) (is : List Nat) :
    (ofNodes g is).order = (is.flatMap g.postorder).eraseDups := by
  rw [order_ofNodes]
  simpa using (OpGraph.foldl_visit (fun i _ => g.visitExtends i) OpGraph.settled_nil).2

theorem mem_order_ofNodes {g : OpGraph} {is : List Nat} {n : Nat} :
    n ∈ (ofNodes g is).order ↔ ∃ i ∈ is, g.Reaches i n := by
  rw [order_ofNodes_eq_eraseDups, List.mem_eraseDups, List.mem_flatMap]
  simp only [OpGraph.mem_postorder]

theorem order_evaluate (g : OpGraph) : g.evaluate.order = (ofNodes g [g.root]).order := rfl

theorem settled_evaluate (g : OpGraph) : g.Settled g.evaluate.order :=
  settled_ofNodes g [g.root]

theorem mem_order_evaluate {g : OpGraph} {n : Nat} :
    n ∈ g.evaluate.order ↔ g.Reaches g.root n := by
  rw [order_evaluate, mem_order_ofNodes]
  simp

/-- The root is executed last. -/
theorem getLast?_order_evaluate (g : OpGraph) : g.evaluate.order.getLast? = some g.root := by
  rw [order_evaluate, order_ofNodes]
  simp only [List.foldl_cons, List.foldl_nil]
  rw [OpGraph.visit_eq, if_neg List.not_mem_nil]
  exact List.getLast?_concat

/-- **The order of execution.**  After any sequence of evaluations of nodes of a graph, the
order lists exactly what the evaluated nodes depend on, each node once and behind all it refers
to; it only grew by the last evaluation; and it is the first occurrences in the plain
traversals.  The order of the graph itself ends with the root. -/
theorem order_after_evaluations (g : OpGraph) (is : List Nat) (i : Nat) :
    let before := (ofNodes g is).order
    let after := ((ofNodes g is).visit g i).order
    after.Nodup ∧
      (∀ n, n ∈ after ↔ ∃ j ∈ is ++ [i], g.Reaches j n) ∧
      (∀ (front : List Nat) (n : Nat) (back : List Nat),
        after = front ++ n :: back → ∀ r ∈ g.references n, r ∈ front) ∧
      before <+: after ∧
      after = ((is ++ [i]).flatMap g.postorder).eraseDups ∧
      g.evaluate.order.getLast? = some g.root := by
  intro before after
  have hafter : after = (ofNodes g (is ++ [i])).order := by
    simp [after, ofNodes]
  have hsettled : g.Settled after := by
    rw [hafter]
    exact settled_ofNodes g _
  refine ⟨hsettled.nodup, ?_, hsettled.references_before, ?_, ?_, getLast?_order_evaluate g⟩
  · intro n
    rw [hafter]
    exact mem_order_ofNodes
  · rw [hafter, order_ofNodes_eq_eraseDups, List.flatMap_append, List.eraseDups_append,
      ← order_ofNodes_eq_eraseDups]
    exact List.prefix_append _ _
  · rw [hafter]
    exact order_ofNodes_eq_eraseDups g _

end Evaluation

end KernelGen
