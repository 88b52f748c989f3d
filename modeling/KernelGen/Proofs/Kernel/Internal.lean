import KernelGen.Proofs.Graph.Tables
import KernelGen.Proofs.Kernel.Faults
set_option autoImplicit false

/-!
# Kernel: no function ends in an internal failure

There is a code for what should never happen: a node that was referred to and has no name, and a
graph of which nothing was executed.  Neither happens on a finished graph.  The order of execution
is closed under references and ends with the root, and everything in it was named before the
first statement is written; so all that remains to fail is what a function does not offer its
graph.
-/

namespace KernelGen

/-- What is reported about a body is about the function and its graph. -/
theorem Body.code_ne_internalBug {f : LinkedFunction} {g : OpGraph} {c : Cause}
    (h : (Body.ofGraph f g).result = .error c) : c.code ≠ .internalBug := by
  rcases Body.ofGraph_fault h with ⟨hcode, -⟩ | ⟨hcode, -⟩ | ⟨hcode, -⟩ | ⟨hcode, -⟩
  all_goals
    rw [hcode]
    decide

theorem KernelFunction.code_ne_internalBug {f : LinkedFunction} {mapping : Mapping} {c : Cause}
    (h : (KernelFunction.ofMapping f mapping).result = .error c) : c.code ≠ .internalBug := by
  cases mapping with
  | signatureOnly => cases h
  | graph g =>
    rcases Outcome.result_bind_eq_error.1 h with hbody | ⟨body, -, hpure⟩
    · exact Body.code_ne_internalBug hbody
    · cases hpure

namespace Builder

variable {b : Builder} {root : NodeId} {g : OpGraph}

/-- What the order lists can be looked up, in the builder's nodes and in those of the graph, and
has a name. -/
theorem lookup_of_mem_order (hg : b.finish root = .ok g) {i : Nat}
    (hi : i ∈ g.evaluate.order) :
    ∃ n, b.lookup ⟨g.owner, i⟩ = .ok n ∧ g.node? ⟨g.owner, i⟩ = some (n.map NodeId.index) ∧
      (g.evaluate.name? i).isSome = true := by
  obtain ⟨-, -, howner, hnodes, -⟩ := finish_eq_ok.1 hg
  obtain ⟨m, name, hm, hname⟩ := named_of_reaches (Evaluation.mem_order_evaluate.1 hi)
  have hplaces : (b.nodes[i]?).map (OpNode.map NodeId.index) = some m := by
    rw [← hm, hnodes, places, List.getElem?_map]
  obtain ⟨n, hn, rfl⟩ := Option.map_eq_some_iff.1 hplaces
  refine ⟨n, lookup_eq_ok.2 ⟨howner, hn⟩, ?_, by rw [hname]; rfl⟩
  rw [OpGraph.node?, if_pos rfl]
  exact hm

/-- **No internal failure.**  The evaluation of a finished graph never looks up a foreign
identifier nor anything outside the nodes, the marks and the names.  Its order ends with the root.
A node of the order can be looked up and has a name; what it refers to stands further in front of
it, can be looked up and has a name as well.  Whatever the function is, making its text from the
graph or from its prototype alone never fails with the code for internal failures. -/
theorem finish_never_internal (f : LinkedFunction) (b : Builder) (root : NodeId) (g : OpGraph)
    (hg : b.finish root = .ok g) :
    ∃ (hb : b.Backward) (t : Tables), Tables.evaluate b hb root = .ok t ∧
      t.order = g.evaluate.order.map (NodeId.mk g.owner) ∧ t.names = g.evaluate.names ∧
      t.order.getLast? = some root ∧
      (∀ front id back, t.order = front ++ id :: back →
        ∃ n, b.lookup id = .ok n ∧ g.node? id = some (n.map NodeId.index) ∧
          (t.name? id).isSome = true ∧
          ∀ r ∈ n.references, r ∈ front ∧ (t.name? r).isSome = true ∧
            ∃ m, b.lookup r = .ok m ∧ g.node? r = some (m.map NodeId.index)) ∧
      ∀ mapping ∈ [Mapping.signatureOnly, .graph g], ∀ c,
        (KernelFunction.ofMapping f mapping).result = .error c → c.code ≠ .internalBug := by
  obtain ⟨howns, hb, howner, hnodes, hroot⟩ := finish_eq_ok.1 hg
  have hid : root = ⟨b.id, g.root⟩ := by
    simp only [owns, Bool.and_eq_true, beq_iff_eq] at howns
    rw [hroot, ← howns.1]
  obtain ⟨t, hevaluate, horder, hnames, -⟩ := Tables.evaluate_eq_ok hb hnodes
  have hname : ∀ i, t.name? ⟨g.owner, i⟩ = g.evaluate.name? i := by
    intro i
    rw [Tables.name?, hnames]
    rfl
  rw [← howner] at horder
  refine ⟨hb, t, hid ▸ hevaluate, horder, hnames, ?_, ?_,
    fun mapping _ c hc => KernelFunction.code_ne_internalBug hc⟩
  · rw [horder, List.getLast?_map, Evaluation.getLast?_order_evaluate, hid, howner]
    rfl
  · intro front id back hsplit
    rw [horder] at hsplit
    obtain ⟨before, rest, hbefore, rfl, hrest⟩ := List.map_eq_append_iff.1 hsplit
    obtain ⟨i, behind, rfl, rfl, -⟩ := List.map_eq_cons_iff.1 hrest
    have hi : i ∈ g.evaluate.order := by simp [hbefore]
    obtain ⟨n, hn, hnode, hsome⟩ := lookup_of_mem_order hg hi
    refine ⟨n, hn, hnode, by rwa [hname], fun r hr => ?_⟩
    have hrefs := Tables.references_eq hb hnodes (lookup_eq_ok.1 hn).2
    rw [hrefs, ← howner] at hr
    obtain ⟨j, hj, rfl⟩ := List.mem_map.1 hr
    have hfront : j ∈ before :=
      (Evaluation.settled_evaluate g).references_before before i behind hbefore j hj
    obtain ⟨m, hm, hmnode, hmsome⟩ :=
      lookup_of_mem_order hg (i := j) (by simp [hbefore, hfront])
    exact ⟨List.mem_map.2 ⟨j, hfront, rfl⟩, by rwa [hname], m, hm, hmnode⟩

/-- A builder with a node that is used twice, by an input and by an attribute. -/
def sharing : Builder where
  id := 3
  nodes := [⟨"Exp", 1, [.param "self"], [], none⟩,
    ⟨"Add", 1, [.output ⟨3, 0⟩], [("alpha", some (.output ⟨3, 0⟩)), ("beta", none)], none⟩]

/-- The graph that it makes. -/
def sharingGraph : OpGraph where
  owner := 3
  nodes := [⟨"Exp", 1, [.param "self"], [], none⟩,
    ⟨"Add", 1, [.output 0], [("alpha", some (.output 0)), ("beta", none)], none⟩]
  root := 1
  root_lt := by decide
  references_lt := by decide

theorem finish_never_internal_sharing :
    sharing.finish ⟨3, 1⟩ = .ok sharingGraph ∧
    ∃ (hb : sharing.Backward) (t : Tables), Tables.evaluate sharing hb ⟨3, 1⟩ = .ok t ∧
      t.order = [⟨3, 0⟩, ⟨3, 1⟩] ∧ t.names = [some "result_0_Exp", some "result_1_Add"] := by
  have hg : sharing.finish ⟨3, 1⟩ = .ok sharingGraph := rfl
  obtain ⟨hb, t, hevaluate, horder, hnames, -⟩ :=
    finish_never_internal default sharing ⟨3, 1⟩ sharingGraph hg
  have hgraph : sharingGraph.evaluate = ⟨[0, 1], [some "result_0_Exp", some "result_1_Add"]⟩ := by
    cbv
  rw [hgraph] at horder hnames
  exact ⟨hg, hb, t, hevaluate, horder, hnames⟩

end Builder

end KernelGen
