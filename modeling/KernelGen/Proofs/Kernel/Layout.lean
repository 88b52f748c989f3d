import Mathlib
import KernelGen.Kernel.Function
import KernelGen.Proofs.Kernel.Naming
set_option autoImplicit false

/-!
# Kernel: the layout of a graph

A graph has a layout: the owner of its identifiers, the places of its nodes, and the nodes that its
root does not depend on.  None of it shows in what is written.  Two graphs that are the same but
for the layout are written as the same function, or fail with the same cause.

`Relabels` says that one graph is another one with its nodes at other places.  The order of
execution of the one is then that of the other with the places replaced, so the two have the same
names for outputs, which are made from positions in the order and from names of ops.  From there
on each part of a body is the same.
-/

namespace KernelGen

theorem Value.map_id {ν : Type} : Value.map (id : ν → ν) = id := by
  funext v
  cases v <;> rfl

theorem OpNode.map_id {ν : Type} : OpNode.map (id : ν → ν) = id := by
  funext n
  simp [OpNode.map, Value.map_id]

/-- The nodes behind the root of `g` are in `h`, with the places replaced, behind its root. -/
structure Relabels (σ : Nat → Nat) (g h : OpGraph) : Prop where
  root_eq : h.root = σ g.root
  nodes_eq : ∀ i, g.Reaches g.root i → h.nodes[σ i]? = (g.nodes[i]?).map (OpNode.map σ)
  injOn : Set.InjOn σ {i | g.Reaches g.root i}

namespace Relabels

variable {σ : Nat → Nat} {g h : OpGraph} {f : LinkedFunction} {op : String}

/-- Graphs with one root and the same nodes behind it. -/
theorem of_nodes_eq (hroot : h.root = g.root)
    (hnodes : ∀ i, g.Reaches g.root i → h.nodes[i]? = g.nodes[i]?) : Relabels id g h where
  root_eq := hroot
  nodes_eq i hi := by rw [OpNode.map_id, Option.map_id, id, id, hnodes i hi]
  injOn := Set.injOn_id _

/-! ## The order of execution -/

theorem references_eq (hσ : Relabels σ g h) {i : Nat} (hi : g.Reaches g.root i) :
    h.references (σ i) = (g.references i).map σ := by
  rw [OpGraph.references, OpGraph.references, hσ.nodes_eq i hi]
  cases g.nodes[i]? with
  | none => rfl
  | some n => exact OpNode.references_map σ n

theorem postorder_eq (hσ : Relabels σ g h) {i : Nat} (hi : g.Reaches g.root i) :
    h.postorder (σ i) = (g.postorder i).map σ := by
  induction i using Nat.strongRecOn with
  | ind i ih =>
    have hparts : (g.references i).flatMap (fun r => h.postorder (σ r)) =
        (g.references i).flatMap fun r => (g.postorder r).map σ :=
      List.flatMap_congr fun r hr => ih r (OpGraph.lt_of_mem_references hr) (hi.tail hr)
    rw [OpGraph.postorder_eq, OpGraph.postorder_eq, hσ.references_eq hi, List.flatMap_map, hparts,
      List.map_append, List.map_flatMap, List.map_singleton]

/-- The order of execution is the same, with the places replaced. -/
theorem order_eq (hσ : Relabels σ g h) : h.evaluate.order = g.evaluate.order.map σ := by
  have hinj : ∀ a ∈ g.postorder g.root, ∀ b ∈ g.postorder g.root, σ a = σ b → a = b :=
    fun a ha b hb => hσ.injOn (OpGraph.mem_postorder.1 ha) (OpGraph.mem_postorder.1 hb)
  simp only [Evaluation.order_evaluate, Evaluation.order_ofNodes_eq_eraseDups,
    List.flatMap_singleton, hσ.root_eq, hσ.postorder_eq .refl, eraseDups_map hinj]

/-- A node behind the root, its counterpart, and the name that the outputs of both have. -/
theorem exists_counterpart (hσ : Relabels σ g h) {i : Nat} (hi : g.Reaches g.root i) :
    ∃ n name, g.nodes[i]? = some n ∧ h.nodes[σ i]? = some (n.map σ) ∧
      g.evaluate.name? i = some name ∧ h.evaluate.name? (σ i) = some name := by
  obtain ⟨front, back, hsplit⟩ := List.append_of_mem (Evaluation.mem_order_evaluate.2 hi)
  obtain ⟨n, -, hn, -⟩ := named_of_reaches hi
  have hn' : h.nodes[σ i]? = some (n.map σ) := by rw [hσ.nodes_eq i hi, hn, Option.map_some]
  have hsplit' : h.evaluate.order = front.map σ ++ σ i :: back.map σ := by
    rw [hσ.order_eq, hsplit, List.map_append, List.map_cons]
  have hname' := name?_evaluate hsplit' hn'
  rw [List.length_map] at hname'
  exact ⟨n, _, hn, hn', name?_evaluate hsplit hn, hname'⟩

/-! ## The parts of a body -/

theorem outputsOf_eq (hσ : Relabels σ g h) {i : Nat} (hi : g.Reaches g.root i) :
    Body.outputsOf h.evaluate (σ i) = Body.outputsOf g.evaluate i := by
  obtain ⟨n, name, -, -, hname, hname'⟩ := hσ.exists_counterpart hi
  rw [Body.outputsOf, Body.outputsOf, hname, hname']

theorem singleOutput_eq (hσ : Relabels σ g h) {i : Nat} (hi : g.Reaches g.root i) :
    Body.singleOutput f h h.evaluate (σ i) = Body.singleOutput f g g.evaluate i := by
  obtain ⟨n, -, hn, hn', -, -⟩ := hσ.exists_counterpart hi
  simp only [Body.singleOutput, hn, hn', hσ.outputsOf_eq hi]
  rfl

/-- Values that refer to nothing but nodes behind the root. -/
def Behind (g : OpGraph) (vs : List (Value Nat)) : Prop :=
  ∀ r, Value.output r ∈ vs → g.Reaches g.root r

theorem Behind.head {v : Value Nat} {vs : List (Value Nat)} (hvs : Behind g (v :: vs)) :
    Behind g [v] := fun r hr => hvs r (List.mem_cons.2 (.inl (List.mem_singleton.1 hr)))

theorem Behind.tail {v : Value Nat} {vs : List (Value Nat)} (hvs : Behind g (v :: vs)) :
    Behind g vs := fun r hr => hvs r (List.mem_cons_of_mem v hr)

theorem input_eq (hσ : Relabels σ g h) {v : Value Nat} (hv : Behind g [v]) (s : Body.Progress) :
    Body.input f h h.evaluate op s (v.map σ) = Body.input f g g.evaluate op s v := by
  cases v with
  | output r =>
    simp only [Value.map, Body.input, hσ.singleOutput_eq (hv r (List.mem_singleton_self _))]
  | param name => rfl
  | literal text => rfl

theorem inputs_eq (hσ : Relabels σ g h) {vs : List (Value Nat)} (hvs : Behind g vs)
    (s : Body.Progress) :
    Body.inputs f h h.evaluate op s (vs.map (Value.map σ)) =
      Body.inputs f g g.evaluate op s vs := by
  induction vs generalizing s with
  | nil => rfl
  | cons v vs ih => simp only [List.map_cons, Body.inputs, hσ.input_eq hvs.head, ih hvs.tail]

theorem attributeValue_eq (hσ : Relabels σ g h) {v : Value Nat} (hv : Behind g [v]) :
    Body.attributeValue f h h.evaluate op (v.map σ) =
      Body.attributeValue f g g.evaluate op v := by
  cases v with
  | output r =>
    simp only [Value.map, Body.attributeValue,
      hσ.singleOutput_eq (hv r (List.mem_singleton_self _))]
  | param name => rfl
  | literal text => rfl

theorem attributeEntries_eq (hσ : Relabels σ g h) {as : List (String × Option (Value Nat))}
    (has : Behind g (as.filterMap (·.2))) :
    Body.attributeEntries f h h.evaluate op (as.map fun a => (a.1, a.2.map (Value.map σ))) =
      Body.attributeEntries f g g.evaluate op as := by
  induction as with
  | nil => rfl
  | cons a as ih =>
    obtain ⟨key, v?⟩ := a
    cases v? with
    | none => simp only [List.map_cons, Option.map_none, Body.attributeEntries, ih has]
    | some v =>
      simp only [List.map_cons, Option.map_some, Body.attributeEntries,
        hσ.attributeValue_eq has.head, ih has.tail]

theorem node_eq (hσ : Relabels σ g h) {i : Nat} (hi : g.Reaches g.root i) (place : Nat)
    (s : Body.Progress) :
    Body.node f h h.evaluate place (σ i) s = Body.node f g g.evaluate place i s := by
  obtain ⟨n, -, hn, hn', -, -⟩ := hσ.exists_counterpart hi
  have hbehind : Behind g n.values := fun r hr =>
    hi.tail (OpGraph.mem_references_iff.2 ⟨n, hn, hr⟩)
  have hinputs : Body.inputs f h h.evaluate n.name s (n.map σ).inputs =
      Body.inputs f g g.evaluate n.name s n.inputs :=
    hσ.inputs_eq (fun r hr => hbehind r (List.mem_append_left _ hr)) s
  have hattributes : Body.attributeEntries f h h.evaluate n.name (n.map σ).attributes =
      Body.attributeEntries f g g.evaluate n.name n.attributes :=
    hσ.attributeEntries_eq fun r hr => hbehind r (List.mem_append_right _ hr)
  have hname : (n.map σ).name = n.name := rfl
  have houtputs : (n.map σ).outputs = n.outputs := rfl
  have hdomain : (n.map σ).domain? = n.domain? := rfl
  simp only [Body.node, hn, hn', hname, houtputs, hdomain, hinputs, hattributes,
    hσ.outputsOf_eq hi]

theorem runNodes_eq (hσ : Relabels σ g h) {is : List Nat} (his : ∀ i ∈ is, g.Reaches g.root i)
    (place : Nat) (s : Body.Progress) :
    Body.nodes f h h.evaluate place (is.map σ) s = Body.nodes f g g.evaluate place is s := by
  induction is generalizing place s with
  | nil => rfl
  | cons i is ih =>
    obtain ⟨hi, hrest⟩ := List.forall_mem_cons.1 his
    simp only [List.map_cons, Body.nodes, hσ.node_eq hi, ih hrest]

/-- The two graphs have the same body, or fail with the same cause. -/
theorem ofGraph_eq (hσ : Relabels σ g h) : Body.ofGraph f h = Body.ofGraph f g := by
  have hnodes : Body.nodes f h h.evaluate 0 h.evaluate.order .start =
      Body.nodes f g g.evaluate 0 g.evaluate.order .start := by
    rw [hσ.order_eq]
    exact hσ.runNodes_eq (fun i hi => Evaluation.mem_order_evaluate.1 hi) 0 .start
  have hresult : Body.result f h h.evaluate = Body.result f g g.evaluate := by
    simp only [Body.result, Evaluation.getLast?_order_evaluate, hσ.root_eq,
      hσ.singleOutput_eq .refl]
  simp only [Body.ofGraph, hnodes, hresult]

end Relabels

/-! ## What is written -/

/-- **The layout does not show.**  Let the nodes behind the root of one graph and those behind the
root of another correspond, root to root, with the same op, outputs, domain, inputs and attributes
but for the places that are referred to.  Then both graphs make the same function, with the same
events, or fail with the same cause; so they are written as the same text on every page. -/
theorem KernelFunction.ofMapping_layout (f : LinkedFunction) (g h : OpGraph) (σ : Nat → Nat)
    (hbij : Set.BijOn σ {i | g.Reaches g.root i} {j | h.Reaches h.root j})
    (hroot : σ g.root = h.root)
    (hnodes : ∀ i, g.Reaches g.root i → h.nodes[σ i]? = (g.nodes[i]?).map (OpNode.map σ)) :
    KernelFunction.ofMapping f (.graph h) = KernelFunction.ofMapping f (.graph g) ∧
    ∀ p : Page, (KernelFunction.ofMapping f (.graph h)).result.map (fun k => (k.write p).text) =
      (KernelFunction.ofMapping f (.graph g)).result.map fun k => (k.write p).text := by
  have hσ : Relabels σ g h := ⟨hroot.symm, hnodes, hbij.injOn⟩
  have hsame : KernelFunction.ofMapping f (.graph h) = KernelFunction.ofMapping f (.graph g) := by
    simp only [KernelFunction.ofMapping, hσ.ofGraph_eq]
  refine ⟨hsame, fun p => ?_⟩
  rw [hsame]

/-- A function on a tensor. -/
def activation : LinkedFunction :=
  let tensor : Host.HostType := ⟨false, false, ["at", "Tensor"], [], []⟩
  let self : Host.Param := ⟨tensor, some "self", none⟩
  { declaration := ⟨tensor, "activation", [self], .endOfText .start [], .start⟩
    metadata := ⟨"aten::activation(Tensor self) -> Tensor", true, false⟩
    signature := ⟨["aten", "activation"], none, [.value ⟨.tensor, none, []⟩ (some "self") none],
      .value ⟨.tensor, none, []⟩⟩
    params := [.declared self [0]] }

/-- A graph in which two nodes are referred to twice, one of them by an attribute. -/
def gated : OpGraph where
  owner := 0
  nodes := [⟨"Exp", 1, [.param "self"], [], none⟩, ⟨"Relu", 1, [.param "self"], [], none⟩,
    ⟨"Add", 1, [.output 1, .output 0], [("bias", some (.output 0)), ("axis", none)], some "com"⟩,
    ⟨"Mul", 1, [.output 2, .output 1], [], none⟩]
  root := 3
  root_lt := by decide
  references_lt := by decide

/-- The graph of another owner, with a node in front that nothing refers to, and with two nodes
in the other order. -/
def gatedElsewhere : OpGraph where
  owner := 7
  nodes := [⟨"Neg", 2, [.param "missing"], [], none⟩, ⟨"Relu", 1, [.param "self"], [], none⟩,
    ⟨"Exp", 1, [.param "self"], [], none⟩,
    ⟨"Add", 1, [.output 1, .output 2], [("bias", some (.output 2)), ("axis", none)], some "com"⟩,
    ⟨"Mul", 1, [.output 3, .output 1], [], none⟩]
  root := 4
  root_lt := by decide
  references_lt := by decide

theorem ofMapping_layout_gated :
    (∃ k, (KernelFunction.ofMapping activation (.graph gated)).result = .ok k) ∧
    KernelFunction.ofMapping activation (.graph gatedElsewhere) =
      KernelFunction.ofMapping activation (.graph gated) := by
  have hreaches : ∀ i, gated.Reaches gated.root i ↔ i ∈ [1, 0, 2, 3] := by
    intro i
    rw [← Evaluation.mem_order_evaluate, show gated.evaluate.order = [1, 0, 2, 3] by cbv]
  have hreaches' : ∀ i, gatedElsewhere.Reaches gatedElsewhere.root i ↔ i ∈ [1, 2, 3, 4] := by
    intro i
    rw [← Evaluation.mem_order_evaluate, show gatedElsewhere.evaluate.order = [1, 2, 3, 4] by cbv]
  have hmaps : ∀ i ∈ [1, 0, 2, 3], [2, 1, 3, 4].getD i 0 ∈ [1, 2, 3, 4] := by decide
  have hinj : ∀ i ∈ [1, 0, 2, 3], ∀ j ∈ [1, 0, 2, 3],
      [2, 1, 3, 4].getD i 0 = [2, 1, 3, 4].getD j 0 → i = j := by decide
  have hsurj : ∀ j ∈ [1, 2, 3, 4], ∃ i ∈ [1, 0, 2, 3], [2, 1, 3, 4].getD i 0 = j := by decide
  have hnodes : ∀ i ∈ [1, 0, 2, 3], gatedElsewhere.nodes[[2, 1, 3, 4].getD i 0]? =
      (gated.nodes[i]?).map (OpNode.map fun i => [2, 1, 3, 4].getD i 0) := by decide
  have hbij : Set.BijOn (fun i => [2, 1, 3, 4].getD i 0) {i | gated.Reaches gated.root i}
      {j | gatedElsewhere.Reaches gatedElsewhere.root j} := by
    simp only [hreaches, hreaches']
    exact ⟨hmaps, fun i hi j hj => hinj i hi j hj, hsurj⟩
  have hok : (KernelFunction.ofMapping activation (.graph gated)).result.isOk = true := by cbv
  constructor
  · cases hresult : (KernelFunction.ofMapping activation (.graph gated)).result with
    | error c =>
      rw [hresult] at hok
      cases hok
    | ok k => exact ⟨k, rfl⟩
  · exact (KernelFunction.ofMapping_layout activation gated gatedElsewhere _ hbij rfl
      fun i hi => hnodes i ((hreaches i).1 hi)).1

end KernelGen
