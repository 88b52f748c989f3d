import KernelGen.Proofs.Graph.Building
import KernelGen.Proofs.Graph.Order
set_option autoImplicit false

/-!
# Graph: identifiers across builders

Identifiers are handed around freely, so a builder may be given those of another builder, and one
that is in range looks like its own but for the owner.  A `History` is a session with a record of
the identifiers that every builder has given out; the record is not part of the session, which
never looks at it.  Each operation keeps `History.Consistent`: what a builder has given out is
what it would take for its own, and references to its own nodes lead back.

The numbers of builders are not bounded here.  A counter of 32 bits gives the same numbers to the
first 2 ^ 32 builders.
-/

namespace KernelGen

/-- A session, and the identifiers that were given out, each with the number of the builder that
gave it out. -/
structure History where
  session : Session
  minted : List (Nat × NodeId)

namespace History

/-- Nothing has happened yet. -/
def start : History := ⟨.empty, []⟩

/-- Some builder has given out the identifier. -/
def Knows (h : History) (id : NodeId) : Prop := ∃ k, (k, id) ∈ h.minted

/-- One operation.  It can only be given identifiers that were given out before, by whichever
builder, and a builder that was finished takes no more part. -/
inductive Step : History → History → Prop
  | new (h : History) : Step h ⟨h.session.new.2, h.minted⟩
  | add {h : History} {k : Nat} {n : OpNode NodeId} {id : NodeId} {s : Session}
    (hrefs : ∀ r ∈ n.references, h.Knows r) (hadd : h.session.add? k n = some (id, s)) :
    Step h ⟨s, (k, id) :: h.minted⟩
  | finish {h : History} {k : Nat} {root : NodeId} {result : Except Cause OpGraph} {s : Session}
    (hroot : h.Knows root) (hfinish : h.session.finish? k root = some (result, s)) :
    Step h ⟨s, h.minted⟩

/-- Operations lead to the history. -/
def Reachable (h : History) : Prop := Relation.ReflTransGen Step start h

/-- The record fits the session. -/
structure Consistent (h : History) : Prop where
  /-- A builder carries its number. -/
  number : ∀ k b, h.session.builder? k = some b → b.id = k
  /-- An identifier tells which builder has given it out, and there is such a builder. -/
  owner : ∀ k id, (k, id) ∈ h.minted → id.owner = k ∧ k < h.session.builders.length
  /-- A builder has given out one identifier for each of its nodes. -/
  indices : ∀ k b, h.session.builder? k = some b →
    ∀ id, (k, id) ∈ h.minted ↔ id.owner = k ∧ id.index < b.nodes.length
  /-- What a node refers to in its own builder is further in front. -/
  earlier : ∀ k b, h.session.builder? k = some b → ∀ (i : Nat) (n : OpNode NodeId),
    b.nodes[i]? = some n → ∀ r ∈ n.references, r.owner = k → r.index < i

end History

/-! ## Sessions after an operation -/

namespace Session

variable {s s' : Session} {k : Nat}

theorem lt_of_builder? {b : Builder} (h : s.builder? k = some b) : k < s.builders.length := by
  obtain ⟨x, hx, -⟩ := Option.bind_eq_some_iff.1 h
  exact (List.getElem?_eq_some_iff.1 hx).1

theorem builder?_new {j : Nat} {b : Builder} :
    s.new.2.builder? j = some b ↔
      s.builder? j = some b ∨ j = s.builders.length ∧ b = .new j := by
  simp only [builder?, new, Option.join_eq_some_iff, getElem?_concat_eq_some, Option.some.injEq]
  refine or_congr_right (and_congr_right fun hj => ?_)
  rw [hj]

/-- Replacing what is kept under a number leaves the other numbers alone. -/
theorem builder?_set (hk : k < s.builders.length) (b? : Option Builder) {j : Nat} {b : Builder} :
    (⟨s.builders.set k b?⟩ : Session).builder? j = some b ↔
      j = k ∧ b? = some b ∨ j ≠ k ∧ s.builder? j = some b := by
  unfold builder?
  rw [List.getElem?_set]
  by_cases h : j = k
  · simp [h, hk]
  · simp [h, Ne.symm h]

theorem add?_eq_some {n : OpNode NodeId} {id : NodeId} (h : s.add? k n = some (id, s')) :
    ∃ b, s.builder? k = some b ∧ id = ⟨b.id, b.nodes.length⟩ ∧
      s' = ⟨s.builders.set k (some ⟨b.id, b.nodes ++ [n]⟩)⟩ := by
  obtain ⟨b, hb, he⟩ := Option.map_eq_some_iff.1 h
  cases he
  exact ⟨b, hb, rfl, rfl⟩

theorem finish?_eq_some {root : NodeId} {result : Except Cause OpGraph}
    (h : s.finish? k root = some (result, s')) :
    ∃ b, s.builder? k = some b ∧ result = b.finish root ∧ s' = ⟨s.builders.set k none⟩ := by
  obtain ⟨b, hb, he⟩ := Option.map_eq_some_iff.1 h
  cases he
  exact ⟨b, hb, rfl, rfl⟩

end Session

/-! ## The record stays in step -/

namespace History

variable {h h' : History}

theorem consistent_start : start.Consistent where
  number k b hb := by simp [start, Session.empty, Session.builder?] at hb
  owner k id hid := by cases hid
  indices k b hb := by simp [start, Session.empty, Session.builder?] at hb
  earlier k b hb := by simp [start, Session.empty, Session.builder?] at hb

/-- A new builder has a number under which nothing was given out. -/
theorem Consistent.new (hc : h.Consistent) : Consistent ⟨h.session.new.2, h.minted⟩ where
  number k b hb := by
    rcases Session.builder?_new.1 hb with hold | ⟨rfl, rfl⟩
    · exact hc.number k b hold
    · rfl
  owner k id hid := by
    obtain ⟨howner, hlt⟩ := hc.owner k id hid
    exact ⟨howner, by simpa [Session.new] using Nat.lt_succ_of_lt hlt⟩
  indices k b hb id := by
    rcases Session.builder?_new.1 hb with hold | ⟨rfl, rfl⟩
    · exact hc.indices k b hold id
    · refine iff_of_false (fun hid => ?_) ?_
      · exact Nat.lt_irrefl _ (hc.owner _ id hid).2
      · rintro ⟨-, hlt⟩
        exact Nat.not_lt_zero _ hlt
  earlier k b hb i n hn := by
    rcases Session.builder?_new.1 hb with hold | ⟨rfl, rfl⟩
    · exact hc.earlier k b hold i n hn
    · cases hn

/-- The identifier that is given out is of the builder's next place, and the references of the
node are of places that were taken before. -/
theorem Consistent.add (hc : h.Consistent) {k : Nat} {n : OpNode NodeId} {id : NodeId}
    {s : Session} (hrefs : ∀ r ∈ n.references, h.Knows r)
    (hadd : h.session.add? k n = some (id, s)) : Consistent ⟨s, (k, id) :: h.minted⟩ := by
  obtain ⟨b, hb, rfl, rfl⟩ := Session.add?_eq_some hadd
  have hk : k < h.session.builders.length := Session.lt_of_builder? hb
  have hid : b.id = k := hc.number k b hb
  refine { number := ?_, owner := ?_, indices := ?_, earlier := ?_ }
  · intro j c hc'
    obtain ⟨rfl, hnew⟩ | ⟨-, hold⟩ := (Session.builder?_set hk _).1 hc'
    · cases hnew
      exact hid
    · exact hc.number j c hold
  · intro j id hmem
    rw [List.length_set]
    rcases List.mem_cons.1 hmem with he | hmem
    · cases he
      exact ⟨hid, hk⟩
    · exact hc.owner j id hmem
  · intro j c hc' id
    obtain ⟨rfl, hnew⟩ | ⟨hj, hold⟩ := (Session.builder?_set hk _).1 hc'
    · cases hnew
      rw [List.mem_cons, hc.indices j b hb id, List.length_append, List.length_singleton]
      constructor
      · rintro (he | ⟨howner, hlt⟩)
        · cases he
          exact ⟨hid, Nat.lt_succ_self _⟩
        · exact ⟨howner, Nat.lt_succ_of_lt hlt⟩
      · rintro ⟨howner, hlt⟩
        rcases Nat.lt_succ_iff_lt_or_eq.1 hlt with hlt | heq
        · exact .inr ⟨howner, hlt⟩
        · refine .inl ?_
          rw [hid, ← howner, ← heq]
    · rw [List.mem_cons, hc.indices j c hold id]
      exact or_iff_right fun he => hj (congrArg Prod.fst he)
  · intro j c hc' i m hm r hr howner
    obtain ⟨rfl, hnew⟩ | ⟨-, hold⟩ := (Session.builder?_set hk _).1 hc'
    · cases hnew
      obtain hm | ⟨rfl, rfl⟩ := (Builder.getElem?_nodes_add b n).1 hm
      · exact hc.earlier j b hb i m hm r hr howner
      · -- the node is the one that was added
        obtain ⟨j', hr'⟩ := hrefs r hr
        obtain rfl : j' = j := (hc.owner j' r hr').1.symm.trans howner
        exact ((hc.indices j' b hb r).1 hr').2
    · exact hc.earlier j c hold i m hm r hr howner

theorem Consistent.finish (hc : h.Consistent) {k : Nat} {root : NodeId}
    {result : Except Cause OpGraph} {s : Session}
    (hfinish : h.session.finish? k root = some (result, s)) : Consistent ⟨s, h.minted⟩ := by
  obtain ⟨b, hb, -, rfl⟩ := Session.finish?_eq_some hfinish
  have hold : ∀ j c, (⟨h.session.builders.set k none⟩ : Session).builder? j = some c →
      h.session.builder? j = some c := by
    intro j c hc'
    obtain ⟨-, hnone⟩ | ⟨-, hold⟩ := (Session.builder?_set (Session.lt_of_builder? hb) _).1 hc'
    · cases hnone
    · exact hold
  exact {
    number := fun j c hc' => hc.number j c (hold j c hc')
    owner := fun j id hid => by
      rw [List.length_set]
      exact hc.owner j id hid
    indices := fun j c hc' => hc.indices j c (hold j c hc')
    earlier := fun j c hc' => hc.earlier j c (hold j c hc') }

theorem Consistent.step (hc : h.Consistent) (hstep : Step h h') : h'.Consistent := by
  cases hstep with
  | new => exact hc.new
  | add hrefs hadd => exact hc.add hrefs hadd
  | finish hroot hfinish => exact hc.finish hfinish

theorem Reachable.consistent (hr : h.Reachable) : h.Consistent := by
  induction hr with
  | refl => exact consistent_start
  | tail _ hstep ih => exact ih.step hstep

end History

/-! ## What can go wrong when a builder is finished -/

namespace Builder

variable {owner place : Nat} {c : Cause}

theorem resolve_eq_error {n : OpNode NodeId} (h : resolve owner place n = .error c) :
    (∃ r : NodeId, c = .foreignReference place n.name r.index) ∨
      ∃ r ∈ n.references, r.owner = owner ∧ place ≤ r.index := by
  unfold resolve at h
  split at h
  · cases h
    exact .inl ⟨_, rfl⟩
  · rename_i r hown hback
    have hmem : r ∈ n.references := List.mem_of_find?_eq_some hback
    exact .inr ⟨r, hmem, by simpa using List.find?_eq_none.1 hown r hmem,
      by simpa using List.find?_some hback⟩
  · cases h

theorem resolveFrom_eq_error {ns : List (OpNode NodeId)}
    (h : resolveFrom owner place ns = .error c) :
    ∃ i n, ns[i]? = some n ∧ resolve owner (place + i) n = .error c := by
  induction ns generalizing place with
  | nil => cases h
  | cons n ns ih =>
    rw [resolveFrom] at h
    split at h
    · rename_i c' hc'
      cases h
      exact ⟨0, n, rfl, hc'⟩
    · split at h
      · rename_i c' hc'
        cases h
        obtain ⟨i, m, hm, hresolve⟩ := ih hc'
        refine ⟨i + 1, m, hm, ?_⟩
        rwa [Nat.add_assoc, Nat.add_comm 1 i] at hresolve
      · cases h

theorem finish_eq_error {b : Builder} {root : NodeId} (h : b.finish root = .error c) :
    c = .foreignRoot root.index ∨
      ∃ i n, b.nodes[i]? = some n ∧ resolve b.id i n = .error c := by
  unfold finish at h
  split at h
  · split at h
    · rename_i c' hc'
      cases h
      obtain ⟨i, n, hn, hresolve⟩ := resolveFrom_eq_error hc'
      rw [Nat.zero_add] at hresolve
      exact .inr ⟨i, n, hn, hresolve⟩
    · cases h
  · cases h
    exact .inl rfl

end Builder

/-- References of a finished graph make no cycle. -/
theorem OpGraph.not_transGen_references (g : OpGraph) (i : Nat) :
    ¬ Relation.TransGen (fun a b => b ∈ g.references a) i i := by
  have hlt : ∀ {a b : Nat}, Relation.TransGen (fun a b => b ∈ g.references a) a b → b < a := by
    intro a b hab
    induction hab with
    | single hstep => exact lt_of_mem_references hstep
    | tail _ hstep ih => exact Nat.lt_trans (lt_of_mem_references hstep) ih
  exact fun hcycle => Nat.lt_irrefl i (hlt hcycle)

namespace History

variable {h : History} {k : Nat} {b : Builder}

/-- A builder owns what it has given out. -/
theorem Consistent.owns_iff (hc : h.Consistent) (hb : h.session.builder? k = some b)
    {id : NodeId} : b.owns id = true ↔ (k, id) ∈ h.minted := by
  rw [hc.indices k b hb id, Builder.owns, hc.number k b hb, Bool.and_eq_true, beq_iff_eq,
    decide_eq_true_eq]

/-- The nodes of a builder may stand where they stand when the builder has given out all that they
refer to. -/
theorem Consistent.backward_iff (hc : h.Consistent) (hb : h.session.builder? k = some b) :
    b.Backward ↔ ∀ n ∈ b.nodes, ∀ r ∈ n.references, (k, r) ∈ h.minted := by
  have hid : b.id = k := hc.number k b hb
  constructor
  · intro hback n hn r hr
    obtain ⟨i, hi⟩ := List.mem_iff_getElem?.1 hn
    obtain ⟨howner, hlt⟩ := hback i n hi r hr
    have hrange : i < b.nodes.length := (List.getElem?_eq_some_iff.1 hi).1
    exact (hc.indices k b hb r).2 ⟨howner.trans hid, Nat.lt_trans hlt hrange⟩
  · intro hall i n hn r hr
    have howner : r.owner = k := (hc.owner k r (hall n (List.mem_of_getElem? hn) r hr)).1
    exact ⟨howner.trans hid.symm, hc.earlier k b hb i n hn r hr howner⟩

/-- A builder that makes no graph was given an identifier of another one. -/
theorem Consistent.finish_error (hc : h.Consistent) (hb : h.session.builder? k = some b)
    {root : NodeId} {c : Cause} (herror : b.finish root = .error c) :
    c = .foreignRoot root.index ∨ ∃ index name target, c = .foreignReference index name target := by
  rcases Builder.finish_eq_error herror with hroot | ⟨i, n, hn, hresolve⟩
  · exact .inl hroot
  · rcases Builder.resolve_eq_error hresolve with ⟨r, hforeign⟩ | ⟨r, hr, howner, hle⟩
    · exact .inr ⟨i, n.name, r.index, hforeign⟩
    · have hlt := hc.earlier k b hb i n hn r hr (howner.trans (hc.number k b hb))
      exact absurd hle (Nat.not_le.2 hlt)

end History

/-- **Finishing rejects foreign identifiers, and nothing else.**  Whatever operations came before,
on whichever builders and with whichever identifiers, a builder can be finished unless it was.  It
makes a graph exactly when it has given out the root and every identifier that its nodes refer to
in their inputs and in attributes that have a value.  A failure has the code of an invalid graph
and never reports a reference to a later node.  A graph consists of the builder's nodes, and their
references are in range, lead back and make no cycle. -/
theorem finish_rejects_foreign (h : History) (hreach : h.Reachable) (k : Nat) (b : Builder)
    (hb : h.session.builder? k = some b) (root : NodeId) :
    ∃ result s, h.session.finish? k root = some (result, s) ∧
      ((∃ g, result = .ok g) ↔
        (k, root) ∈ h.minted ∧ ∀ n ∈ b.nodes, ∀ r ∈ n.references, (k, r) ∈ h.minted) ∧
      (∀ c, result = .error c → c.code = .invalidGraph ∧
        ∀ index name target, c ≠ .forwardReference index name target) ∧
      ∀ g, result = .ok g →
        g.nodes = b.places ∧ g.root = root.index ∧ g.root < g.size ∧
        (∀ i r, r ∈ g.references i → r < i ∧ i < g.size) ∧
        ∀ i, ¬ Relation.TransGen (fun a b => b ∈ g.references a) i i := by
  have hc : h.Consistent := hreach.consistent
  have hfinish : h.session.finish? k root =
      some (b.finish root, ⟨h.session.builders.set k none⟩) := by
    rw [Session.finish?, hb]
    rfl
  refine ⟨_, _, hfinish, ?_, ?_, ?_⟩
  · rw [← hc.owns_iff hb, ← hc.backward_iff hb]
    constructor
    · rintro ⟨g, hg⟩
      obtain ⟨hroot, hback, -⟩ := Builder.finish_eq_ok.1 hg
      exact ⟨hroot, hback⟩
    · rintro ⟨hroot, hback⟩
      obtain ⟨g, hg, -⟩ := Builder.exists_finish hroot hback
      exact ⟨g, hg⟩
  · intro c herror
    rcases hc.finish_error hb herror with rfl | ⟨index, name, target, rfl⟩
    · exact ⟨rfl, fun _ _ _ heq => nomatch heq⟩
    · exact ⟨rfl, fun _ _ _ heq => nomatch heq⟩
  · intro g hg
    obtain ⟨-, -, -, hnodes, hroot⟩ := Builder.finish_eq_ok.1 hg
    refine ⟨hnodes, hroot, g.root_lt, fun i r hr => ?_, g.not_transGen_references⟩
    obtain ⟨n, hn, -⟩ := OpGraph.mem_references_iff.1 hr
    exact ⟨OpGraph.lt_of_mem_references hr, (List.getElem?_eq_some_iff.1 hn).1⟩

/-! ## Two builders -/

/-- Two builders with a node each; the second one's refers to the first one's. -/
def entangled : History :=
  ⟨⟨[some ⟨0, [⟨"Exp", 1, [.param "self"], [], none⟩]⟩,
      some ⟨1, [⟨"Neg", 1, [.output ⟨0, 0⟩], [], none⟩]⟩]⟩,
    [(1, ⟨1, 0⟩), (0, ⟨0, 0⟩)]⟩

theorem reachable_entangled : entangled.Reachable := by
  have hfirst : History.Step .start ⟨⟨[some (.new 0)]⟩, []⟩ := .new .start
  have hsecond : History.Step ⟨⟨[some (.new 0)]⟩, []⟩ ⟨⟨[some (.new 0), some (.new 1)]⟩, []⟩ :=
    .new ⟨⟨[some (.new 0)]⟩, []⟩
  have hexp : History.Step ⟨⟨[some (.new 0), some (.new 1)]⟩, []⟩
      ⟨⟨[some ⟨0, [⟨"Exp", 1, [.param "self"], [], none⟩]⟩, some (.new 1)]⟩, [(0, ⟨0, 0⟩)]⟩ :=
    .add (k := 0) (n := ⟨"Exp", 1, [.param "self"], [], none⟩)
      (fun r hr => (List.not_mem_nil hr).elim) rfl
  have hneg : History.Step
      ⟨⟨[some ⟨0, [⟨"Exp", 1, [.param "self"], [], none⟩]⟩, some (.new 1)]⟩, [(0, ⟨0, 0⟩)]⟩
      entangled := by
    refine .add (k := 1) (n := ⟨"Neg", 1, [.output ⟨0, 0⟩], [], none⟩) (fun r hr => ?_) rfl
    cases List.mem_singleton.1 hr
    exact ⟨0, List.mem_cons_self⟩
  exact (((Relation.ReflTransGen.single hfirst).tail hsecond).tail hexp).tail hneg

/-- The reference in range is of another builder, so there is no graph. -/
theorem finish_rejects_foreign_entangled :
    ∃ c s, entangled.session.finish? 1 ⟨1, 0⟩ = some (.error c, s) ∧ c.code = .invalidGraph := by
  obtain ⟨result, s, hfinish, hiff, herror, -⟩ :=
    finish_rejects_foreign entangled reachable_entangled 1 _ rfl ⟨1, 0⟩
  cases result with
  | ok g =>
    have hall := (hiff.1 ⟨g, rfl⟩).2 _ List.mem_cons_self ⟨0, 0⟩ List.mem_cons_self
    exact absurd hall (by decide)
  | error c => exact ⟨c, s, hfinish, (herror c rfl).1⟩

end KernelGen
