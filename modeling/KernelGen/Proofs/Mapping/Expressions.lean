import Mathlib
import KernelGen.Mapping.Document
import KernelGen.Proofs.Graph.Building
import KernelGen.Proofs.Graph.Fold
import KernelGen.Proofs.Graph.Order
import KernelGen.Proofs.NameTable
set_option autoImplicit false

/-!
# Mapping: expressions as graphs, faithfully

Adding an expression to a builder and executing the graph that comes of it are two recursions
that know nothing of each other.  Both go through the inputs of an op, then through its
attributes, and then take the op itself, so the order of execution of the graph is the order in
which its nodes were added, and unfolding it gives the expression back.

`Lays` says what adding expressions does to a builder.  Its facts about graphs are about every
graph that begins with the builder's nodes, because a builder goes on growing while the
expressions around are added.
-/

namespace KernelGen

variable {ν μ κ : Type}

/-! ## The size of an expression -/

mutual

/-- The number of ops in an expression. -/
def OpExpr.size : OpExpr → Nat
  | .op ⟨_, _, inputs, attributes, _⟩ => sizeOfInputs inputs + sizeOfAttributes attributes + 1

/-- The number of ops in a value. -/
def sizeOfValue : Value OpExpr → Nat
  | .param _ | .literal _ => 0
  | .output e => e.size

/-- The number of ops in inputs. -/
def sizeOfInputs : List (Value OpExpr) → Nat
  | [] => 0
  | v :: vs => sizeOfValue v + sizeOfInputs vs

/-- The number of ops in attributes. -/
def sizeOfAttributes : List (String × Option (Value OpExpr)) → Nat
  | [] => 0
  | (_, none) :: as => sizeOfAttributes as
  | (_, some v) :: as => sizeOfValue v + sizeOfAttributes as

end

/-- The number of ops in several expressions. -/
def sizeOfAll (es : List OpExpr) : Nat := (es.map OpExpr.size).sum

@[simp] theorem sizeOfAll_nil : sizeOfAll [] = 0 := rfl

@[simp] theorem sizeOfAll_singleton (e : OpExpr) : sizeOfAll [e] = e.size := by simp [sizeOfAll]

@[simp] theorem sizeOfAll_append (es fs : List OpExpr) :
    sizeOfAll (es ++ fs) = sizeOfAll es + sizeOfAll fs := by simp [sizeOfAll]

/-- The nodes that values refer to are those of the first, and then those of the others. -/
theorem filterMap_node?_cons (v : Value ν) (vs : List (Value ν)) :
    (v :: vs).filterMap Value.node? = v.node?.toList ++ vs.filterMap Value.node? := by
  cases v <;> rfl

theorem sizeOfValue_eq (v : Value OpExpr) : sizeOfValue v = sizeOfAll v.node?.toList := by
  cases v <;> simp [sizeOfValue, Value.node?]

theorem sizeOfInputs_eq (vs : List (Value OpExpr)) :
    sizeOfInputs vs = sizeOfAll (vs.filterMap Value.node?) := by
  induction vs with
  | nil => rfl
  | cons v vs ih =>
    rw [sizeOfInputs, sizeOfValue_eq, ih, filterMap_node?_cons, sizeOfAll_append]

theorem sizeOfAttributes_eq (as : List (String × Option (Value OpExpr))) :
    sizeOfAttributes as = sizeOfInputs (as.filterMap (·.2)) := by
  induction as with
  | nil => rfl
  | cons a as ih =>
    obtain ⟨key, v?⟩ := a
    cases v? with
    | none => exact ih
    | some v => exact congrArg (sizeOfValue v + ·) ih

/-- An op counts one more than the ops it refers to. -/
theorem OpExpr.size_op (n : OpNode OpExpr) : (OpExpr.op n).size = sizeOfAll n.references + 1 := by
  obtain ⟨name, outputs, inputs, attributes, domain?⟩ := n
  rw [OpExpr.size, sizeOfAttributes_eq, sizeOfInputs_eq, sizeOfInputs_eq, OpNode.references,
    OpNode.values, List.filterMap_append, sizeOfAll_append]

/-! ## What adding expressions does to a builder -/

theorem OpNode.map_map (f : ν → μ) (g : μ → κ) (n : OpNode ν) :
    (n.map f).map g = n.map (g ∘ f) := by
  have hvalue : ∀ v : Value ν, (v.map f).map g = v.map (g ∘ f) := fun v => by cases v <;> rfl
  have hattribute : ∀ v? : Option (Value ν),
      (v?.map (Value.map f)).map (Value.map g) = v?.map (Value.map (g ∘ f)) := fun v? => by
    cases v? with
    | none => rfl
    | some v => exact congrArg some (hvalue v)
  simp only [OpNode.map, List.map_map, Function.comp_def, hvalue, hattribute]

/-- Adding the ops of expressions takes a builder from `b` to `b'`, and the expressions are known
by `ids` from then on. -/
structure Lays (es : List OpExpr) (ids : List NodeId) (b b' : Builder) : Prop where
  id_eq : b'.id = b.id
  nodes_prefix : b.nodes <+: b'.nodes
  length_nodes : b'.nodes.length = b.nodes.length + sizeOfAll es
  length_ids : ids.length = es.length
  owned : ∀ r ∈ ids, r.owner = b'.id ∧ r.index < b'.nodes.length
  backward : b.Backward → b'.Backward
  /-- Unfolding a graph from the places of the identifiers gives the expressions back. -/
  unfolds : ∀ (g : OpGraph) (outside : OpExpr), b'.places <+: g.nodes →
    ids.map (fun r => g.fold outside .op r.index) = es
  /-- The traversals from there go through the new nodes in the order they were added. -/
  traverses : ∀ g : OpGraph, b'.places <+: g.nodes →
    ids.flatMap (fun r => g.postorder r.index) = List.range' b.nodes.length (sizeOfAll es)

namespace Lays

variable {b b' b'' : Builder} {es fs : List OpExpr} {ids jds : List NodeId}

theorem places_prefix (h : Lays es ids b b') : b.places <+: b'.places := h.nodes_prefix.map _

theorem nil (b : Builder) : Lays [] [] b b where
  id_eq := rfl
  nodes_prefix := List.prefix_refl _
  length_nodes := rfl
  length_ids := rfl
  owned _ hr := absurd hr List.not_mem_nil
  backward h := h
  unfolds _ _ _ := rfl
  traverses _ _ := rfl

theorem append (h : Lays es ids b b') (h' : Lays fs jds b' b'') :
    Lays (es ++ fs) (ids ++ jds) b b'' where
  id_eq := h'.id_eq.trans h.id_eq
  nodes_prefix := h.nodes_prefix.trans h'.nodes_prefix
  length_nodes := by
    rw [h'.length_nodes, h.length_nodes, sizeOfAll_append, Nat.add_assoc]
  length_ids := by
    rw [List.length_append, List.length_append, h.length_ids, h'.length_ids]
  owned r hr := by
    rcases List.mem_append.1 hr with hr | hr
    · obtain ⟨howner, hlt⟩ := h.owned r hr
      exact ⟨howner.trans h'.id_eq.symm, Nat.lt_of_lt_of_le hlt h'.nodes_prefix.length_le⟩
    · exact h'.owned r hr
  backward hb := h'.backward (h.backward hb)
  unfolds g outside hg := by
    rw [List.map_append, h.unfolds g outside (h'.places_prefix.trans hg),
      h'.unfolds g outside hg]
  traverses g hg := by
    rw [List.flatMap_append, h.traverses g (h'.places_prefix.trans hg), h'.traverses g hg,
      h.length_nodes, sizeOfAll_append, List.range'_append_1]

/-- A node goes behind everything that it refers to. -/
theorem op {n : OpNode OpExpr} {n' : OpNode NodeId} (h : Lays n.references n'.references b b')
    (hmap : ∀ f : NodeId → OpExpr, n'.references.map f = n.references → n'.map f = n) :
    Lays [.op n] [(b'.add n').1] b (b'.add n').2 := by
  have hnodes : (b'.add n').2.nodes = b'.nodes ++ [n'] := rfl
  -- in a graph that begins with the nodes, the new node stands where its identifier says
  have hnode : ∀ g : OpGraph, (b'.add n').2.places <+: g.nodes →
      b'.places <+: g.nodes ∧ g.nodes[b'.nodes.length]? = some (n'.map NodeId.index) := by
    intro g hg
    have hplaces : (b'.add n').2.places = b'.places ++ [n'.map NodeId.index] := by
      simp [Builder.places, hnodes]
    rw [hplaces] at hg
    obtain ⟨rest, hrest⟩ := hg
    refine ⟨⟨_, (List.append_assoc _ _ _).symm.trans hrest⟩, ?_⟩
    have hlength : b'.nodes.length = b'.places.length := (List.length_map _).symm
    rw [← hrest, hlength, List.append_assoc]
    simp
  refine ⟨h.id_eq, ?_, ?_, rfl, ?_, ?_, ?_, ?_⟩
  · exact h.nodes_prefix.trans (List.prefix_append _ _)
  · rw [hnodes, List.length_append, h.length_nodes, sizeOfAll_singleton, OpExpr.size_op]
    rfl
  · intro r hr
    rw [List.mem_singleton] at hr
    subst hr
    exact ⟨rfl, by rw [hnodes, List.length_append]; exact Nat.lt_succ_self _⟩
  · intro hb i m hm
    obtain hm | ⟨rfl, rfl⟩ := (Builder.getElem?_nodes_add b' n').1 hm
    · exact h.backward hb i m hm
    · exact h.owned
  · intro g outside hg
    obtain ⟨hfront, hplace⟩ := hnode g hg
    have hrefs := h.unfolds g outside hfront
    rw [List.map_singleton]
    show [g.fold outside OpExpr.op b'.nodes.length] = [.op n]
    rw [OpGraph.fold_eq g outside _ hplace, OpNode.map_map]
    exact congrArg (fun m => [OpExpr.op m]) (hmap _ hrefs)
  · intro g hg
    obtain ⟨hfront, hplace⟩ := hnode g hg
    have hrefs : g.references b'.nodes.length = n'.references.map NodeId.index := by
      rw [OpGraph.references, hplace]
      exact OpNode.references_map _ _
    rw [List.flatMap_singleton]
    show g.postorder b'.nodes.length = _
    rw [OpGraph.postorder_eq, hrefs, List.flatMap_map, h.traverses g hfront, h.length_nodes,
      sizeOfAll_singleton, OpExpr.size_op, List.range'_concat, Nat.one_mul]

end Lays

/-! ## Values, inputs and attributes -/

theorem map_addInputs (f : NodeId → OpExpr) (vs : List (Value OpExpr)) (b : Builder)
    (h : ((addInputs vs b).1.filterMap Value.node?).map f = vs.filterMap Value.node?) :
    (addInputs vs b).1.map (Value.map f) = vs := by
  induction vs generalizing b with
  | nil => rfl
  | cons v vs ih =>
    rw [addInputs] at h ⊢
    cases v with
    | param name => exact congrArg (_ :: ·) (ih b h)
    | literal text => exact congrArg (_ :: ·) (ih b h)
    | output e =>
      obtain ⟨he, hvs⟩ := List.cons.inj h
      exact congrArg₂ (fun e vs => Value.output e :: vs) he (ih _ hvs)

theorem map_addAttributes (f : NodeId → OpExpr) (as : List (String × Option (Value OpExpr)))
    (b : Builder)
    (h : (((addAttributes as b).1.filterMap (·.2)).filterMap Value.node?).map f =
      (as.filterMap (·.2)).filterMap Value.node?) :
    ((addAttributes as b).1.map fun a => (a.1, a.2.map (Value.map f))) = as := by
  induction as generalizing b with
  | nil => rfl
  | cons a as ih =>
    obtain ⟨key, v?⟩ := a
    rw [addAttributes.eq_def] at h ⊢
    cases v? with
    | none => exact congrArg (_ :: ·) (ih b h)
    | some v =>
      cases v with
      | param name => exact congrArg (_ :: ·) (ih b h)
      | literal text => exact congrArg (_ :: ·) (ih b h)
      | output e =>
        obtain ⟨he, has⟩ := List.cons.inj h
        exact congrArg₂ (fun e as => (key, some (Value.output e)) :: as) he (ih _ has)

mutual

theorem OpExpr.addTo_lays : ∀ (e : OpExpr) (b : Builder),
    Lays [e] [(e.addTo b).1] b (e.addTo b).2
  | .op ⟨name, outputs, inputs, attributes, domain?⟩, b => by
    rw [OpExpr.addTo]
    have hinputs := addInputs_lays inputs b
    have hattributes := addAttributes_lays attributes (addInputs inputs b).2
    have hboth := hinputs.append hattributes
    simp only [← List.filterMap_append] at hboth
    refine Lays.op hboth ?_
    intro f hf
    rw [OpNode.references, OpNode.values, OpNode.references, OpNode.values, List.filterMap_append,
      List.filterMap_append, List.map_append] at hf
    obtain ⟨hin, hat⟩ := List.append_inj hf ((List.length_map _).trans hinputs.length_ids)
    rw [OpNode.map, map_addInputs f inputs b hin, map_addAttributes f attributes _ hat]

theorem addValue_lays : ∀ (v : Value OpExpr) (b : Builder),
    Lays v.node?.toList (addValue v b).1.node?.toList b (addValue v b).2
  | .param _, b => .nil b
  | .literal _, b => .nil b
  | .output e, b => e.addTo_lays b

theorem addInputs_lays : ∀ (vs : List (Value OpExpr)) (b : Builder),
    Lays (vs.filterMap Value.node?) ((addInputs vs b).1.filterMap Value.node?) b
      (addInputs vs b).2
  | [], b => .nil b
  | v :: vs, b => by
    rw [addInputs]
    rw [filterMap_node?_cons, filterMap_node?_cons]
    exact (addValue_lays v b).append (addInputs_lays vs (addValue v b).2)

theorem addAttributes_lays : ∀ (as : List (String × Option (Value OpExpr))) (b : Builder),
    Lays ((as.filterMap (·.2)).filterMap Value.node?)
      (((addAttributes as b).1.filterMap (·.2)).filterMap Value.node?) b (addAttributes as b).2
  | [], b => .nil b
  | (_, none) :: as, b => addAttributes_lays as b
  | (_, some v) :: as, b => by
    have h := (addValue_lays v b).append (addAttributes_lays as (addValue v b).2)
    rw [← filterMap_node?_cons, ← filterMap_node?_cons] at h
    rw [addAttributes]
    exact h

end

/-! ## The graph of an expression -/

/-- The graph is the expression: it has a node for every op, in the order of execution, and
unfolds to the expression from its root, the last node. -/
structure OpExpr.IsGraph (e : OpExpr) (g : OpGraph) : Prop where
  size_eq : g.size = e.size
  root_last : g.root + 1 = g.size
  order_eq : g.evaluate.order = List.range g.size
  unfold_eq : ∀ outside : OpExpr, g.fold outside .op g.root = e

theorem Builder.backward_new (owner : Nat) : (Builder.new owner).Backward := by
  intro i n hn
  cases hn

/-- Every expression has a graph. -/
theorem OpExpr.exists_graph (e : OpExpr) : ∃ g, e.graph = .ok g ∧ e.IsGraph g := by
  have hlays := e.addTo_lays (.new 0)
  generalize hroot : (e.addTo (.new 0)).1 = root at hlays
  generalize hb : (e.addTo (.new 0)).2 = b at hlays
  obtain ⟨howner, hlt⟩ := hlays.owned root (List.mem_singleton_self _)
  have howns : b.owns root = true := by simp [Builder.owns, howner, hlt]
  obtain ⟨g, hfinish, hnodes, hplace⟩ :=
    Builder.exists_finish howns (hlays.backward (Builder.backward_new 0))
  have hprefix : b.places <+: g.nodes := hnodes ▸ List.prefix_refl _
  have hsize : g.size = e.size := by
    rw [OpGraph.size, hnodes, Builder.places, List.length_map, hlays.length_nodes,
      sizeOfAll_singleton]
    exact Nat.zero_add _
  have hpostorder : g.postorder g.root = List.range g.size := by
    have htraverses := hlays.traverses g hprefix
    rw [List.flatMap_singleton, ← hplace, sizeOfAll_singleton, ← hsize] at htraverses
    exact htraverses.trans List.range_eq_range'.symm
  refine ⟨g, ?_, hsize, ?_, ?_, ?_⟩
  · rw [OpExpr.graph, ← hfinish, ← hroot, ← hb]
  · -- the root is last in its own traversal, and the greatest place is last in the range
    have hlast := congrArg List.getLast? hpostorder
    rw [OpGraph.postorder_eq, List.getLast?_concat, List.getLast?_range] at hlast
    split at hlast
    · cases hlast
    · have := Option.some.inj hlast
      omega
  · rw [Evaluation.order_evaluate, Evaluation.order_ofNodes_eq_eraseDups, List.flatMap_singleton,
      hpostorder, eraseDups_eq_self List.nodup_range]
  · intro outside
    have hunfolds := hlays.unfolds g outside hprefix
    rw [List.map_singleton, ← hplace] at hunfolds
    exact List.head_eq_of_cons_eq hunfolds

end KernelGen
