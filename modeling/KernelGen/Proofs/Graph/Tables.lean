import KernelGen.Proofs.Graph.Building
import KernelGen.Proofs.Graph.Order
set_option autoImplicit false

/-!
# Graph: an evaluation that is kept in tables

An evaluation can be kept in tables that are looked up by the places of nodes: a mark for each
node that was visited, and a name for each node that was executed.  A node is marked before what
it refers to is visited, and its identifier is checked for its owner.  `Tables.evaluate` works so,
and every lookup that can go wrong is a `Fault` here.  On the nodes of a finished graph none does:
after any sequence of visits the tables hold the order that the graph's own evaluation of these
nodes has, and at the end they hold its names, too.

What carries the proof is `Mirrors`.  The marks run ahead of the order, because the nodes whose
visits are under way are marked and not listed yet; but these are all behind the node that is
visited, so that below it the marks and the order agree.
-/

namespace KernelGen

/-- A lookup that goes wrong. -/
inductive Fault where
  /-- the identifier is another graph's -/
  | foreign (id : NodeId)
  /-- there is no such node -/
  | noNode (index : Nat)
  /-- there is no mark for the node -/
  | noMark (index : Nat)
  /-- there is no place for the name of the node -/
  | noName (index : Nat)
  deriving DecidableEq, Repr

/-- The node of an identifier, which has to be the builder's own. -/
def Builder.lookup (b : Builder) (id : NodeId) : Except Fault (OpNode NodeId) :=
  if id.owner = b.id then
    match b.nodes[id.index]? with
    | some n => .ok n
    | none => .error (.noNode id.index)
  else .error (.foreign id)

theorem Builder.lookup_eq_ok {b : Builder} {id : NodeId} {n : OpNode NodeId} :
    b.lookup id = .ok n ↔ id.owner = b.id ∧ b.nodes[id.index]? = some n := by
  unfold lookup
  split
  · rename_i howner
    cases b.nodes[id.index]? <;> simp [howner]
  · rename_i howner
    simp [howner]

/-- An evaluation in tables. -/
structure Tables where
  order : List NodeId
  /-- Whether a node was visited, by its place. -/
  visited : List Bool
  /-- The name of the outputs of a node, by its place. -/
  names : List (Option String)
  deriving DecidableEq, Repr

namespace Tables

/-- Nothing is evaluated, and there is room for nothing. -/
def empty : Tables := ⟨[], [], []⟩

/-- Makes room for the marks of `count` nodes. -/
def reserve (t : Tables) (count : Nat) : Tables :=
  { t with visited := t.visited ++ List.replicate (count - t.visited.length) false }

/-- Whether a node was visited. -/
def isVisited (t : Tables) (index : Nat) : Except Fault Bool :=
  match t.visited[index]? with
  | some v => .ok v
  | none => .error (.noMark index)

/-- Marks a node. -/
def mark (t : Tables) (index : Nat) : Tables := { t with visited := t.visited.set index true }

/-- Appends a node to the order. -/
def push (t : Tables) (id : NodeId) : Tables := { t with order := t.order ++ [id] }

/-- Visits a node of a builder and everything that it refers to. -/
def visit (b : Builder) (hb : b.Backward) (t : Tables) (id : NodeId) : Except Fault Tables :=
  match (t.reserve b.nodes.length).isVisited id.index with
  | .error fault => .error fault
  | .ok true => .ok (t.reserve b.nodes.length)
  | .ok false =>
    match _h : b.lookup id with
    | .error fault => .error fault
    | .ok n => do
      let t ← n.references.attach.foldlM (fun t r => visit b hb t r.val)
        ((t.reserve b.nodes.length).mark id.index)
      return t.push id
termination_by id.index
decreasing_by exact (hb id.index n (Builder.lookup_eq_ok.1 ‹_›).2 r.val r.property).2

/-- Enters a name for a node. -/
def enter (names : List (Option String)) (index : Nat) (name : String) :
    Except Fault (List (Option String)) :=
  if index < names.length then .ok (names.set index (some name)) else .error (.noName index)

/-- Enters names for the outputs of nodes, the first of which is at `place` in the order. -/
def nameAll (b : Builder) : Nat → List NodeId → List (Option String) →
    Except Fault (List (Option String))
  | _, [], names => .ok names
  | place, id :: ids, names => do
    let n ← b.lookup id
    let names ← enter names id.index (bindingName place n.name)
    nameAll b (place + 1) ids names

/-- Names the outputs of all nodes in the order. -/
def prepare (b : Builder) (t : Tables) : Except Fault Tables := do
  let names ← nameAll b 0 t.order (List.replicate b.nodes.length none)
  return { t with names }

/-- The evaluation of a builder's nodes from a root. -/
def evaluate (b : Builder) (hb : b.Backward) (root : NodeId) : Except Fault Tables := do
  let t ← visit b hb .empty root
  prepare b t

/-- The name of the outputs of a node. -/
def name? (t : Tables) (id : NodeId) : Option String := t.names[id.index]?.join

/-- The node was visited, or its visit is under way. -/
def Marked (t : Tables) (i : Nat) : Prop := t.visited[i]? = some true

end Tables

/-! ## Visits -/

namespace Tables

variable {b : Builder} {hb : b.Backward} {g : OpGraph} {t t' t'' : Tables}
  {order order' order'' : List Nat} {below i : Nat}

/-- The tables hold an order, and below a node they have marks for nothing else. -/
structure Mirrors (b : Builder) (t : Tables) (order : List Nat) (below : Nat) : Prop where
  listing : t.order = order.map (NodeId.mk b.id)
  length : t.visited.length = b.nodes.length
  marked : ∀ i ∈ order, t.Marked i
  listed : ∀ i < below, t.Marked i → i ∈ order

/-- From the tables to those of a longer order: what was listed in between is marked, and nothing
else. -/
structure Extends (b : Builder) (t t' : Tables) (order order' : List Nat) : Prop where
  listing : t'.order = order'.map (NodeId.mk b.id)
  length : t'.visited.length = b.nodes.length
  subset : order ⊆ order'
  marked : ∀ i, t'.Marked i ↔ t.Marked i ∨ i ∈ order'

theorem Mirrors.extends_self (h : Mirrors b t order below) : Extends b t t order order where
  listing := h.listing
  length := h.length
  subset := List.Subset.refl _
  marked i := ⟨.inl, fun hi => hi.elim id (h.marked i)⟩

theorem Extends.trans (h : Extends b t t' order order') (h' : Extends b t' t'' order' order'') :
    Extends b t t'' order order'' where
  listing := h'.listing
  length := h'.length
  subset := List.Subset.trans h.subset h'.subset
  marked i := by
    rw [h'.marked, h.marked, or_assoc]
    exact or_congr_right ⟨fun hi => hi.elim (@h'.subset i) id, .inr⟩

theorem Mirrors.of_extends (h : Mirrors b t order below) (h' : Extends b t t' order order') :
    Mirrors b t' order' below where
  listing := h'.listing
  length := h'.length
  marked i hi := (h'.marked i).2 (.inr hi)
  listed i hi hmarked :=
    ((h'.marked i).1 hmarked).elim (fun hold => h'.subset (h.listed i hi hold)) id

/-- Room that was made already is not made again. -/
theorem reserve_reserve (t : Tables) (count : Nat) :
    (t.reserve count).reserve count = t.reserve count := by
  have hnone : count - (t.visited.length + (count - t.visited.length)) = 0 := by omega
  simp [reserve, hnone]

theorem visit_reserve (id : NodeId) :
    visit b hb (t.reserve b.nodes.length) id = visit b hb t id := by
  rw [visit, visit, reserve_reserve]

theorem reserve_eq_self (h : t.visited.length = b.nodes.length) :
    t.reserve b.nodes.length = t := by
  simp [reserve, h]

/-- Within the table, a mark can be read. -/
theorem isVisited_eq (h : i < t.visited.length) [Decidable (t.Marked i)] :
    t.isVisited i = .ok (decide (t.Marked i)) := by
  unfold isVisited
  rw [List.getElem?_eq_getElem h]
  simp [Marked, List.getElem?_eq_getElem h]

theorem marked_mark (h : i < t.visited.length) (j : Nat) :
    (t.mark i).Marked j ↔ t.Marked j ∨ j = i := by
  unfold Marked mark
  rw [List.getElem?_set]
  by_cases hj : i = j
  · subst hj
    simp [h]
  · simp [hj, Ne.symm hj]

theorem visit_of_marked {id : NodeId}
    (hseen : (t.reserve b.nodes.length).isVisited id.index = .ok true) :
    visit b hb t id = .ok (t.reserve b.nodes.length) := by
  rw [visit, hseen]

theorem visit_of_new {id : NodeId} {n : OpNode NodeId}
    (hnew : (t.reserve b.nodes.length).isVisited id.index = .ok false)
    (hlookup : b.lookup id = .ok n) :
    visit b hb t id = (do
      let t ← n.references.foldlM (visit b hb) ((t.reserve b.nodes.length).mark id.index)
      return t.push id) := by
  rw [visit, hnew]
  dsimp only
  split
  · rename_i fault hfault
    rw [hlookup] at hfault
    cases hfault
  · rename_i n' hn'
    rw [hlookup] at hn'
    cases hn'
    rw [List.foldlM_subtype (fun _ _ _ => rfl), List.unattach_attach]

/-- What a visit of a node does to tables that mirror an order. -/
def VisitMirrors (b : Builder) (hb : b.Backward) (g : OpGraph) (i : Nat) : Prop :=
  ∀ t order below, Mirrors b t order below → i < below → i < b.nodes.length →
    ∃ t', visit b hb t ⟨b.id, i⟩ = .ok t' ∧ Extends b t t' order (g.visit order i)

theorem foldlM_visit {is : List Nat} (his : ∀ i ∈ is, VisitMirrors b hb g i)
    (hbelow : ∀ i ∈ is, i < below) (hrange : ∀ i ∈ is, i < b.nodes.length)
    (h : Mirrors b t order below) :
    ∃ t', (is.map (NodeId.mk b.id)).foldlM (visit b hb) t = .ok t' ∧
      Extends b t t' order (is.foldl g.visit order) := by
  induction is generalizing t order with
  | nil => exact ⟨t, rfl, h.extends_self⟩
  | cons i is ih =>
    obtain ⟨hi, hrest⟩ := List.forall_mem_cons.1 his
    obtain ⟨hib, hbelow⟩ := List.forall_mem_cons.1 hbelow
    obtain ⟨hir, hrange⟩ := List.forall_mem_cons.1 hrange
    obtain ⟨t₁, hvisit, hext⟩ := hi t order below h hib hir
    obtain ⟨t₂, hvisits, hexts⟩ := ih hrest hbelow hrange (h.of_extends hext)
    refine ⟨t₂, ?_, hext.trans hexts⟩
    rw [List.map_cons, List.foldlM_cons, hvisit]
    exact hvisits

/-- The references of a node of the builder, by their places. -/
theorem references_eq (hb : b.Backward) (hg : g.nodes = b.places) {n : OpNode NodeId}
    (hn : b.nodes[i]? = some n) : n.references = (g.references i).map (NodeId.mk b.id) := by
  have hplaces : g.nodes[i]? = some (n.map NodeId.index) := by
    rw [hg, Builder.places, List.getElem?_map, hn, Option.map_some]
  have hown : ∀ r ∈ n.references, id r = (NodeId.mk b.id ∘ NodeId.index) r := by
    intro r hr
    rw [Function.comp_apply, ← (hb i n hn r hr).1]
    rfl
  rw [OpGraph.references, hplaces]
  dsimp only
  rw [OpNode.references_map, List.map_map, ← List.map_congr_left hown, List.map_id]

/-- The induction goes down the references.  A node is marked before they are visited, and from
there on the marks are looked at below the node only. -/
theorem visitMirrors (hg : g.nodes = b.places) (i : Nat) : VisitMirrors b hb g i := by
  classical
  induction i using Nat.strongRecOn with
  | ind i ih =>
    intro t order below h hbelow hrange
    have hreserve : t.reserve b.nodes.length = t := reserve_eq_self h.length
    have hlength : i < t.visited.length := h.length.symm ▸ hrange
    by_cases hseen : t.Marked i
    · have hi : i ∈ order := h.listed i hbelow hseen
      refine ⟨t, ?_, ?_⟩
      · rw [visit_of_marked (by rw [hreserve, isVisited_eq hlength, decide_eq_true hseen]),
          hreserve]
      · rw [OpGraph.visit_eq, if_pos hi]
        exact h.extends_self
    · have hi : i ∉ order := fun hi => hseen (h.marked i hi)
      have hn : b.nodes[i]? = some b.nodes[i] := List.getElem?_eq_getElem hrange
      have hlookup : b.lookup ⟨b.id, i⟩ = .ok b.nodes[i] := Builder.lookup_eq_ok.2 ⟨rfl, hn⟩
      have hmark := marked_mark hlength
      have hstart : Mirrors b (t.mark i) order i := {
        listing := h.listing
        length := by rw [mark, List.length_set, h.length]
        marked := fun j hj => (hmark j).2 (.inl (h.marked j hj))
        listed := fun j hj hmarked => by
          have hold : t.Marked j := ((hmark j).1 hmarked).resolve_right (Nat.ne_of_lt hj)
          exact h.listed j (Nat.lt_trans hj hbelow) hold }
      have hlt : ∀ r ∈ g.references i, r < i := fun r hr => OpGraph.lt_of_mem_references hr
      obtain ⟨t', hvisits, hext⟩ := foldlM_visit (fun r hr => ih r (hlt r hr)) hlt
        (fun r hr => Nat.lt_trans (hlt r hr) hrange) hstart
      refine ⟨t'.push ⟨b.id, i⟩, ?_, ?_⟩
      · rw [visit_of_new (by rw [hreserve, isVisited_eq hlength, decide_eq_false hseen]) hlookup,
          hreserve, references_eq hb hg hn, hvisits]
        rfl
      · rw [OpGraph.visit_eq, if_neg hi]
        refine {
          listing := ?_
          length := hext.length
          subset := List.subset_append_of_subset_left _ hext.subset
          marked := fun j => ?_ }
        · rw [push, hext.listing, List.map_append]
          rfl
        · have hpush : (t'.push ⟨b.id, i⟩).Marked j ↔ t'.Marked j := Iff.rfl
          rw [hpush, hext.marked, hmark, List.mem_append, List.mem_singleton, or_assoc]
          exact or_congr_right or_comm

theorem mirrors_reserve_empty (b : Builder) (below : Nat) :
    Mirrors b (Tables.empty.reserve b.nodes.length) [] below where
  listing := rfl
  length := by simp [reserve, empty]
  marked i hi := (List.not_mem_nil hi).elim
  listed i hi hmarked := by
    simp [Marked, reserve, empty, List.getElem?_replicate] at hmarked

/-- **Visits one after the other.**  Any sequence of visits goes through that starts with nothing
and visits nodes of a graph that was finished.  The tables hold the order of the graph's own
evaluation of these nodes, and marks for what is listed there and for nothing else. -/
theorem foldlM_visit_empty (hb : b.Backward) (hg : g.nodes = b.places) {is : List Nat}
    (hrange : ∀ i ∈ is, i < b.nodes.length) :
    ∃ t, (is.map (NodeId.mk b.id)).foldlM (visit b hb) .empty = .ok t ∧
      t.order = (Evaluation.ofNodes g is).order.map (NodeId.mk b.id) ∧
      (∀ i, t.Marked i ↔ i ∈ (Evaluation.ofNodes g is).order) ∧
      (is ≠ [] → t.visited.length = b.nodes.length) := by
  have hstart := mirrors_reserve_empty b b.nodes.length
  have hmirrors : ∀ i ∈ is, VisitMirrors b hb g i := fun i _ => visitMirrors hg i
  obtain ⟨t, hvisits, hext⟩ := foldlM_visit hmirrors hrange hrange hstart
  have hmarked : ∀ i, t.Marked i ↔ i ∈ (Evaluation.ofNodes g is).order := by
    intro i
    rw [hext.marked, Evaluation.order_ofNodes]
    refine or_iff_right fun hold => ?_
    simp [Marked, reserve, empty, List.getElem?_replicate] at hold
  rw [Evaluation.order_ofNodes] at hmarked ⊢
  cases is with
  | nil =>
    refine ⟨.empty, rfl, rfl, fun i => ?_, fun hne => absurd rfl hne⟩
    simp [Marked, empty]
  | cons i is =>
    refine ⟨t, ?_, hext.listing, hmarked, fun _ => hext.length⟩
    rw [List.map_cons, List.foldlM_cons, visit_reserve] at hvisits
    exact hvisits

/-- The tables before and after a visit hold the orders before and after an evaluation of the
graph: what is known of those is known of the tables. -/
theorem visit_after_visits (hb : b.Backward) (hg : g.nodes = b.places) {is : List Nat}
    (hrange : ∀ j ∈ is ++ [i], j < b.nodes.length) :
    ∃ before after : Tables,
      (is.map (NodeId.mk b.id)).foldlM (visit b hb) .empty = .ok before ∧
      visit b hb before ⟨b.id, i⟩ = .ok after ∧
      before.order = (Evaluation.ofNodes g is).order.map (NodeId.mk b.id) ∧
      after.order = ((Evaluation.ofNodes g is).visit g i).order.map (NodeId.mk b.id) := by
  obtain ⟨before, hbefore, horder, -⟩ :=
    foldlM_visit_empty hb hg fun j hj => hrange j (List.mem_append_left [i] hj)
  obtain ⟨after, hafter, horder', -⟩ := foldlM_visit_empty hb hg hrange
  have hone : Evaluation.ofNodes g (is ++ [i]) = (Evaluation.ofNodes g is).visit g i := by
    rw [Evaluation.ofNodes, List.foldl_append]
    rfl
  rw [List.map_append, List.foldlM_append, hbefore] at hafter
  have hvisit : visit b hb before ⟨b.id, i⟩ = .ok after := (bind_pure _).symm.trans hafter
  exact ⟨before, after, hbefore, hvisit, horder, hone ▸ horder'⟩

/-- From nothing, a visit of the root makes the order of the graph's evaluation. -/
theorem visit_empty (hb : b.Backward) (hg : g.nodes = b.places) :
    ∃ t, visit b hb .empty ⟨b.id, g.root⟩ = .ok t ∧
      t.order = g.evaluate.order.map (NodeId.mk b.id) ∧ t.visited.length = b.nodes.length := by
  have hroot : g.root < b.nodes.length := by
    have hlt := g.root_lt
    rwa [hg, Builder.places, List.length_map] at hlt
  have hrange : ∀ i ∈ [g.root], i < b.nodes.length := List.forall_mem_singleton.2 hroot
  obtain ⟨t, hvisit, horder, -, hlength⟩ := foldlM_visit_empty hb hg hrange
  refine ⟨t, ?_, horder, hlength (List.cons_ne_nil _ _)⟩
  rw [← hvisit, List.map_singleton, List.foldlM_cons]
  exact (bind_pure _).symm

/-! ## Names -/

/-- Names are entered for the nodes that are listed, and those of other nodes are left alone. -/
theorem nameAll_eq_ok {is : List Nat} (his : ∀ i ∈ is, i < b.nodes.length) (hnodup : is.Nodup)
    (place : Nat) (names : List (Option String)) (hnames : names.length = b.nodes.length) :
    ∃ names', nameAll b place (is.map (NodeId.mk b.id)) names = .ok names' ∧
      names'.length = b.nodes.length ∧
      ∀ i n, b.nodes[i]? = some n → names'[i]? = match is.idxOf? i with
        | some k => some (some (bindingName (place + k) n.name))
        | none => names[i]? := by
  induction is generalizing place names with
  | nil => exact ⟨names, rfl, hnames, fun i n _ => rfl⟩
  | cons j is ih =>
    obtain ⟨hj, hrest⟩ := List.forall_mem_cons.1 his
    obtain ⟨hnotin, hnodup⟩ := List.nodup_cons.1 hnodup
    have hlookup : b.lookup ⟨b.id, j⟩ = .ok b.nodes[j] :=
      Builder.lookup_eq_ok.2 ⟨rfl, List.getElem?_eq_getElem hj⟩
    have henter : enter names j (bindingName place b.nodes[j].name) =
        .ok (names.set j (some (bindingName place b.nodes[j].name))) := by
      rw [enter, if_pos (hnames.symm ▸ hj)]
    obtain ⟨names', hrun, hlength, hentries⟩ :=
      ih hrest hnodup (place + 1) _ (List.length_set.trans hnames)
    refine ⟨names', ?_, hlength, fun i n hn => ?_⟩
    · rw [List.map_cons, nameAll, hlookup]
      show (enter names j _ >>= fun names => nameAll b (place + 1) _ names) = _
      rw [henter]
      exact hrun
    · rw [hentries i n hn, List.idxOf?_cons]
      by_cases hij : j = i
      · subst hij
        have hn' : b.nodes[j] = n := (List.getElem?_eq_some_iff.1 hn).2
        simp [List.idxOf?_eq_none_iff.2 hnotin, hn', hnames, hj]
      · cases hplace : is.idxOf? i with
        | none => simp [hij]
        | some k => simp [hij, Nat.add_assoc, Nat.add_comm 1 k]

/-- Naming the order of the graph's evaluation makes the names of that evaluation. -/
theorem prepare_eq_ok (hg : g.nodes = b.places)
    (ht : t.order = g.evaluate.order.map (NodeId.mk b.id)) :
    prepare b t = .ok { t with names := g.evaluate.names } := by
  have hsize : g.size = b.nodes.length := by rw [OpGraph.size, hg, Builder.places, List.length_map]
  have hrange : ∀ i ∈ g.evaluate.order, i < b.nodes.length := by
    intro i hi
    have hle := (Evaluation.mem_order_evaluate.1 hi).le
    exact hsize ▸ Nat.lt_of_le_of_lt hle g.root_lt
  obtain ⟨names, hrun, hlength, hentries⟩ := nameAll_eq_ok hrange
    (Evaluation.settled_evaluate g).nodup 0 (List.replicate b.nodes.length none)
    List.length_replicate
  have hnames : names = g.evaluate.names := by
    have heval : g.evaluate.names =
        (List.range g.size).map (Evaluation.nameIn g g.evaluate.order) := rfl
    rw [heval, hsize]
    refine List.ext_getElem? fun i => ?_
    by_cases hi : i < b.nodes.length
    · have hn : b.nodes[i]? = some b.nodes[i] := List.getElem?_eq_getElem hi
      have hplaces : g.nodes[i]? = some (b.nodes[i].map NodeId.index) := by
        rw [hg, Builder.places, List.getElem?_map, hn, Option.map_some]
      rw [hentries i _ hn, List.getElem?_map, List.getElem?_range hi, Option.map_some,
        Evaluation.nameIn, hplaces]
      cases g.evaluate.order.idxOf? i with
      | none => simp [hi]
      | some k => simp [OpNode.map]
    · rw [List.getElem?_eq_none (by omega), List.getElem?_eq_none (by simpa using hi)]
  rw [prepare, ht, hrun, ← hnames]
  rfl

/-- **Nothing is looked up in vain.**  The evaluation in tables of a graph that was finished goes
through, and holds the order and the names of the graph's own evaluation. -/
theorem evaluate_eq_ok (hb : b.Backward) (hg : g.nodes = b.places) :
    ∃ t, evaluate b hb ⟨b.id, g.root⟩ = .ok t ∧
      t.order = g.evaluate.order.map (NodeId.mk b.id) ∧ t.names = g.evaluate.names ∧
      t.visited.length = b.nodes.length := by
  obtain ⟨t, hvisit, horder, hlength⟩ := visit_empty hb hg
  refine ⟨{ t with names := g.evaluate.names }, ?_, horder, rfl, hlength⟩
  rw [evaluate, hvisit]
  exact prepare_eq_ok hg horder

end Tables

end KernelGen
