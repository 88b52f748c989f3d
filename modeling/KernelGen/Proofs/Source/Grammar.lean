import KernelGen.Proofs.Source.Shape
import KernelGen.Source.Step
set_option autoImplicit false

/-!
# Source: grammars of steps

A grammar is a relation between the shapes of tokens and what they denote.  A step is sound for
a grammar when what it takes denotes what it returns, and complete when it takes whatever
denotes something, as long as the token behind that is one at which it is meant to stop.

The steps that declarations and schemas have in common get their grammars here.
-/

namespace KernelGen.Source

variable {α : Type}

/-- The kind of the next token; that of the end of the text when there is none. -/
def nextKind (ks : List Shape) : TokenKind := (ks.headD Shape.endOfText).kind

theorem nextKind_map (ts : List Token) : nextKind (ts.map Token.shape) = (next ts).kind := by
  cases ts <;> rfl

namespace Step

/-- What the step takes denotes what it returns. -/
def Sound (p : Step α) (Denotes : List Shape → α → Prop) : Prop :=
  ∀ ts a rest, p ts = .ok (a, rest) →
    ∃ ks, ts.map Token.shape = ks ++ rest.map Token.shape ∧ Denotes ks a

/-- The step takes what denotes something in front of a token at which it stops. -/
def Complete (p : Step α) (Denotes : List Shape → α → Prop) (Stops : TokenKind → Prop) : Prop :=
  ∀ ts ks a more, ts.map Token.shape = ks ++ more → Denotes ks a → Stops (nextKind more) →
    ∃ rest, p ts = .ok (a, rest) ∧ rest.map Token.shape = more

end Step

/-! ## One token -/

theorem expect_complete {ts : List Token} {kind : TokenKind} {x : String} {more : List Shape}
    (h : ts.map Token.shape = ⟨kind, x⟩ :: more) (what : Expectation) :
    ∃ t rest, expect kind what ts = .ok (t, rest) ∧ t.text = x ∧
      rest.map Token.shape = more := by
  obtain ⟨t, rest, rfl, ht, hrest⟩ := List.map_eq_cons_iff.1 h
  cases ht
  exact ⟨t, rest, expect_eq_ok.2 ⟨rfl, rfl⟩, rfl, hrest⟩

theorem expect_sound {ts rest : List Token} {kind : TokenKind} {what : Expectation} {t : Token}
    (h : expect kind what ts = .ok (t, rest)) :
    ts.map Token.shape = ⟨kind, t.text⟩ :: rest.map Token.shape := by
  obtain ⟨rfl, rfl⟩ := expect_eq_ok.1 h
  rfl

theorem accept?_complete {ts : List Token} {kind : TokenKind} {x : String} {more : List Shape}
    (h : ts.map Token.shape = ⟨kind, x⟩ :: more) :
    ∃ rest, accept? kind ts = some rest ∧ rest.map Token.shape = more := by
  obtain ⟨t, rest, rfl, ht, hrest⟩ := List.map_eq_cons_iff.1 h
  cases ht
  exact ⟨rest, if_pos rfl, hrest⟩

theorem accept?_eq_none {ts : List Token} {kind : TokenKind}
    (h : nextKind (ts.map Token.shape) ≠ kind) : accept? kind ts = none := by
  cases ts with
  | nil => rfl
  | cons t r => exact if_neg h

theorem accept?_sound {ts rest : List Token} {kind : TokenKind}
    (h : accept? kind ts = some rest) :
    ∃ x, ts.map Token.shape = ⟨kind, x⟩ :: rest.map Token.shape := by
  obtain ⟨t, rfl, rfl⟩ := eq_cons_of_accept? h
  exact ⟨t.text, rfl⟩

/-! ## Parts that may be missing -/

/-- A mark that may be there or not. -/
inductive Flag (kind : TokenKind) : List Shape → Bool → Prop where
  | absent : Flag kind [] false
  | present {x : String} : Flag kind [⟨kind, x⟩] true

theorem flag_sound (kind : TokenKind) : Step.Sound (fun ts => .ok (flag kind ts)) (Flag kind) := by
  intro ts b rest h
  simp only [flag] at h
  split at h
  · rename_i r hr
    cases h
    obtain ⟨x, hx⟩ := accept?_sound hr
    exact ⟨[⟨kind, x⟩], hx, .present⟩
  · cases h
    exact ⟨[], rfl, .absent⟩

theorem flag_complete (kind : TokenKind) :
    Step.Complete (fun ts => .ok (flag kind ts)) (Flag kind) (· ≠ kind) := by
  intro ts ks b more hts hb hstops
  cases hb with
  | absent =>
    rw [List.nil_append] at hts
    refine ⟨ts, ?_, hts⟩
    simp only [flag, accept?_eq_none (hts ▸ hstops)]
  | present =>
    obtain ⟨rest, hrest, hmore⟩ := accept?_complete hts
    refine ⟨rest, ?_, hmore⟩
    simp only [flag, hrest]

/-- A part that a mark introduces, if the mark is there. -/
inductive Behind (kind : TokenKind) (Denotes : List Shape → α → Prop) :
    List Shape → Option α → Prop where
  | absent : Behind kind Denotes [] none
  | present {x : String} {ks : List Shape} {a : α} :
      Denotes ks a → Behind kind Denotes (⟨kind, x⟩ :: ks) (some a)

theorem Behind.imp {kind : TokenKind} {Denotes Denotes' : List Shape → α → Prop}
    (himp : ∀ ks a, Denotes ks a → Denotes' ks a) {ks : List Shape} {a? : Option α}
    (h : Behind kind Denotes ks a?) : Behind kind Denotes' ks a? := by
  cases h with
  | absent => exact .absent
  | present ha => exact .present (himp _ _ ha)

theorem behind_sound {kind : TokenKind} {p : Step α} {Denotes : List Shape → α → Prop}
    (hp : p.Sound Denotes) : (behind kind p).Sound (Behind kind Denotes) := by
  intro ts a? rest h
  unfold behind at h
  split at h
  · rename_i r hr
    obtain ⟨⟨a, rest'⟩, ha, he⟩ := bind_eq_ok.1 h
    cases he
    obtain ⟨x, hx⟩ := accept?_sound hr
    obtain ⟨ks, hks, hdenotes⟩ := hp r a _ ha
    refine ⟨⟨kind, x⟩ :: ks, ?_, .present hdenotes⟩
    rw [hx, hks]
    rfl
  · cases h
    exact ⟨[], rfl, .absent⟩

theorem behind_complete {kind : TokenKind} {p : Step α} {Denotes : List Shape → α → Prop}
    {Stops : TokenKind → Prop} (hp : p.Complete Denotes Stops) :
    (behind kind p).Complete (Behind kind Denotes) fun k => Stops k ∧ k ≠ kind := by
  intro ts ks a? more hts ha hstops
  unfold behind
  cases ha with
  | absent =>
    rw [List.nil_append] at hts
    rw [accept?_eq_none (hts ▸ hstops.2)]
    exact ⟨ts, rfl, hts⟩
  | present hdenotes =>
    obtain ⟨r, hr, hmore⟩ := accept?_complete hts
    obtain ⟨rest, hrest, hmap⟩ := hp r _ _ more hmore hdenotes hstops.1
    rw [hr]
    exact ⟨rest, bind_eq_ok.2 ⟨_, hrest, rfl⟩, hmap⟩

/-- A name that may be there or not. -/
inductive OptionalName : List Shape → Option String → Prop where
  | absent : OptionalName [] none
  | present (name : String) : OptionalName [⟨.identifier, name⟩] (some name)

theorem optionalName_sound : Step.Sound (fun ts => .ok (optionalName ts)) OptionalName := by
  intro ts name? rest h
  cases ts with
  | nil =>
    cases h
    exact ⟨[], rfl, .absent⟩
  | cons t r =>
    simp only [optionalName] at h
    split at h
    · rename_i ht
      cases h
      refine ⟨[⟨.identifier, t.text⟩], ?_, .present t.text⟩
      rw [← ht]
      rfl
    · cases h
      exact ⟨[], rfl, .absent⟩

theorem optionalName_complete :
    Step.Complete (fun ts => .ok (optionalName ts)) OptionalName (· ≠ .identifier) := by
  intro ts ks name? more hts hname hstops
  cases hname with
  | absent =>
    rw [List.nil_append] at hts
    refine ⟨ts, ?_, hts⟩
    cases ts with
    | nil => rfl
    | cons t r =>
      rw [← hts] at hstops
      simp only [optionalName, if_neg (show t.kind ≠ .identifier from hstops)]
  | present name =>
    obtain ⟨t, rest, rfl, ht, hrest⟩ := List.map_eq_cons_iff.1 hts
    obtain ⟨hkind, htext⟩ := Shape.mk.inj ht
    refine ⟨rest, ?_, hrest⟩
    simp only [optionalName, if_pos hkind, htext]

/-! ## Default values -/

/-- The depth behind a token. -/
def depthBehind (depth : Nat) (kind : TokenKind) : Nat :=
  if opens kind then depth + 1 else if closes kind then depth - 1 else depth

/-- Tokens that close the brackets they open and `depth` more, with no comma outside brackets
and no bracket closed that is not open. -/
inductive Balanced : Nat → List Shape → Prop where
  | nil : Balanced 0 []
  | cons {depth : Nat} {k : Shape} {ks : List Shape} : k.kind ≠ .eof →
      (depth = 0 → k.kind ≠ .comma ∧ closes k.kind = false) →
      Balanced (depthBehind depth k.kind) ks → Balanced depth (k :: ks)

/-- A default value stops at a comma or at a closing bracket. -/
def EndsDefault (kind : TokenKind) : Prop := kind = .comma ∨ closes kind = true

theorem not_endsDefault_eof : ¬ EndsDefault .eof := by
  unfold EndsDefault
  decide

theorem balancedRun_sound {depth : Nat} {ts run rest : List Token}
    (h : balancedRun depth ts = .ok (run, rest)) : Balanced depth (run.map Token.shape) := by
  induction ts generalizing depth run rest with
  | nil => cases h
  | cons t r ih =>
    simp only [balancedRun] at h
    split at h
    · cases h
    rename_i heof
    split at h
    · rename_i hend
      cases h
      rw [hend.1]
      exact .nil
    rename_i hgoes
    obtain ⟨⟨run', rest'⟩, hr, he⟩ := bind_eq_ok.1 h
    cases he
    refine .cons heof ?_ (ih hr)
    intro hdepth
    obtain ⟨hcomma, hcloses⟩ := not_or.1 fun hend => hgoes ⟨hdepth, hend⟩
    exact ⟨hcomma, Bool.eq_false_iff.2 hcloses⟩

theorem balancedRun_complete {depth : Nat} {ts : List Token} {ks more : List Shape}
    (h : Balanced depth ks) (hts : ts.map Token.shape = ks ++ more)
    (hends : EndsDefault (nextKind more)) :
    ∃ run rest, balancedRun depth ts = .ok (run, rest) ∧ run.map Token.shape = ks ∧
      rest.map Token.shape = more := by
  induction h generalizing ts with
  | nil =>
    rw [List.nil_append] at hts
    cases ts with
    | nil =>
      rw [← hts] at hends
      exact absurd hends not_endsDefault_eof
    | cons t r =>
      rw [← hts] at hends
      refine ⟨[], t :: r, ?_, rfl, hts⟩
      have heof : t.kind ≠ .eof := fun heof => not_endsDefault_eof (heof ▸ hends)
      rw [balancedRun, if_neg heof]
      exact if_pos ⟨rfl, hends⟩
  | @cons depth k ks hk hgoes _ ih =>
    obtain ⟨t, r, rfl, ht, hr⟩ := List.map_eq_cons_iff.1 hts
    cases ht
    obtain ⟨run, rest, hrun, hmap, hrest⟩ := ih hr
    refine ⟨t :: run, rest, ?_, by rw [List.map_cons, hmap], hrest⟩
    have hnot : ¬ (depth = 0 ∧ (t.kind = .comma ∨ closes t.kind = true)) := by
      rintro ⟨hdepth, hcomma | hcloses⟩
      · exact (hgoes hdepth).1 hcomma
      · exact Bool.false_ne_true ((hgoes hdepth).2.symm.trans hcloses)
    simp only [balancedRun]
    rw [if_neg (show t.kind ≠ .eof from hk), if_neg hnot]
    exact bind_eq_ok.2 ⟨_, hrun, rfl⟩

/-- The text of a default value, from its tokens. -/
inductive DefaultValue : List Shape → String → Prop where
  | mk {ks : List Shape} : Balanced 0 ks → ks ≠ [] →
      DefaultValue ks (String.join (ks.map Shape.text))

theorem concatTexts_eq (ts : List Token) :
    concatTexts ts = String.join ((ts.map Token.shape).map Shape.text) := by
  rw [concatTexts, List.map_map]
  rfl

theorem defaultValue_sound : defaultValue.Sound DefaultValue := by
  intro ts text rest h
  obtain ⟨⟨run, rest'⟩, hrun, h⟩ := bind_eq_ok.1 h
  dsimp only at h
  split at h
  · cases h
  · rename_i hne
    cases h
    refine ⟨run.map Token.shape, ?_, ?_⟩
    · rw [← balancedRun_append hrun, List.map_append]
    · rw [concatTexts_eq]
      refine .mk (balancedRun_sound hrun) ?_
      simpa using hne

theorem defaultValue_complete : defaultValue.Complete DefaultValue EndsDefault := by
  intro ts ks text more hts htext hends
  obtain ⟨hbalanced, hne⟩ := htext
  obtain ⟨run, rest, hrun, rfl, hrest⟩ := balancedRun_complete hbalanced hts hends
  have hrunNe : run.isEmpty = false := by
    cases run with
    | nil => exact absurd rfl hne
    | cons => rfl
  refine ⟨rest, bind_eq_ok.2 ⟨_, hrun, ?_⟩, hrest⟩
  simp only [hrunNe, concatTexts_eq]
  rfl

/-! ## Lists -/

/-- One or more items with a mark between each two. -/
inductive Separated (mark : TokenKind) (Denotes : List Shape → α → Prop) :
    List Shape → List α → Prop where
  | one {ks : List Shape} {a : α} : Denotes ks a → Separated mark Denotes ks [a]
  | more {x : String} {ks ks' : List Shape} {a : α} {as : List α} : Denotes ks a →
      Separated mark Denotes ks' as → Separated mark Denotes (ks ++ ⟨mark, x⟩ :: ks') (a :: as)

theorem Separated.imp {mark : TokenKind} {Denotes Denotes' : List Shape → α → Prop}
    (himp : ∀ ks a, Denotes ks a → Denotes' ks a) {ks : List Shape} {as : List α}
    (h : Separated mark Denotes ks as) : Separated mark Denotes' ks as := by
  induction h with
  | one ha => exact .one (himp _ _ ha)
  | more ha _ ih => exact .more (himp _ _ ha) ih

theorem Separated.ne_nil {mark : TokenKind} {Denotes : List Shape → α → Prop} {ks : List Shape}
    {as : List α} (h : Separated mark Denotes ks as) : as ≠ [] := by
  cases h with
  | one => exact List.cons_ne_nil _ _
  | more => exact List.cons_ne_nil _ _

theorem Separated.map_ne_nil {β : Type} {mark : TokenKind} {Denotes : List Shape → α → Prop}
    {ks : List Shape} {as : List α} (h : Separated mark Denotes ks as) (f : α → β) :
    as.map f ≠ [] := mt List.map_eq_nil_iff.1 h.ne_nil

/-- A step that reads items for as long as a mark follows. -/
def ReadsSeparated (mark : TokenKind) (item : Step α) (p : Step (List α)) : Prop :=
  ∀ ts, p ts = match item ts with
    | .error e => .error e
    | .ok (a, []) => .ok ([a], [])
    | .ok (a, t :: r) =>
      if t.kind = mark then do
        let (as, rest) ← p r
        return (a :: as, rest)
      else .ok ([a], t :: r)

theorem readsSeparated_commaSeparated (item : Step α) (consumes : item.Consumes) :
    ReadsSeparated .comma item (commaSeparated item consumes) := by
  intro ts
  rw [commaSeparated]
  split <;> simp_all

section Separated

variable {mark : TokenKind} {item : Step α} {p : Step (List α)}
  {Denotes : List Shape → α → Prop} {Stops : TokenKind → Prop}

/-- Items are sound together if each is, which is asked for only where at most `n` tokens are
left. -/
theorem ReadsSeparated.sound_within (hp : ReadsSeparated mark item p) (consumes : item.Consumes)
    {n : Nat} (hitem : ∀ ts a rest, ts.length ≤ n → item ts = .ok (a, rest) →
      ∃ ks, ts.map Token.shape = ks ++ rest.map Token.shape ∧ Denotes ks a)
    {ts rest : List Token} {as : List α} (hn : ts.length ≤ n) (h : p ts = .ok (as, rest)) :
    ∃ ks, ts.map Token.shape = ks ++ rest.map Token.shape ∧ Separated mark Denotes ks as := by
  induction hlength : ts.length using Nat.strongRecOn generalizing ts as rest with
  | ind m ih =>
    subst hlength
    rw [hp] at h
    split at h
    · cases h
    · rename_i a ha
      cases h
      obtain ⟨ks, hks, hdenotes⟩ := hitem _ _ _ hn ha
      exact ⟨ks, hks, .one hdenotes⟩
    · rename_i a t r ha
      obtain ⟨ks, hks, hdenotes⟩ := hitem _ _ _ hn ha
      split at h
      · rename_i ht
        obtain ⟨⟨as', rest'⟩, hr, he⟩ := bind_eq_ok.1 h
        cases he
        have hshorter : r.length < ts.length :=
          Nat.lt_of_succ_lt (consumes _ _ _ ha)
        obtain ⟨ks', hks', hmore⟩ := ih _ hshorter (Nat.le_trans (Nat.le_of_lt hshorter) hn) hr rfl
        refine ⟨ks ++ ⟨mark, t.text⟩ :: ks', ?_, .more hdenotes hmore⟩
        rw [hks, List.map_cons, hks', ← ht]
        simp [Token.shape]
      · cases h
        exact ⟨ks, hks, .one hdenotes⟩

theorem ReadsSeparated.sound (hp : ReadsSeparated mark item p) (consumes : item.Consumes)
    (hitem : item.Sound Denotes) : p.Sound (Separated mark Denotes) := fun _ _ _ h =>
  hp.sound_within consumes (fun ts a rest _ ha => hitem ts a rest ha) (Nat.le_refl _) h

theorem ReadsSeparated.one (hp : ReadsSeparated mark item p) {ts rest : List Token} {a : α}
    (ha : item ts = .ok (a, rest)) (hrest : (next rest).kind ≠ mark) : p ts = .ok ([a], rest) := by
  rw [hp, ha]
  cases rest with
  | nil => rfl
  | cons t r => exact if_neg hrest

theorem ReadsSeparated.more (hp : ReadsSeparated mark item p) {ts r rest : List Token} {t : Token}
    {a : α} {as : List α} (ha : item ts = .ok (a, t :: r)) (ht : t.kind = mark)
    (has : p r = .ok (as, rest)) : p ts = .ok (a :: as, rest) := by
  rw [hp, ha]
  exact (if_pos ht).trans (bind_eq_ok.2 ⟨_, has, rfl⟩)

theorem ReadsSeparated.complete (hp : ReadsSeparated mark item p)
    (hitem : item.Complete Denotes Stops) (hmark : Stops mark) :
    p.Complete (Separated mark Denotes) fun k => Stops k ∧ k ≠ mark := by
  intro ts ks as more hts has hstops
  induction has generalizing ts with
  | one hdenotes =>
    obtain ⟨rest, hrest, rfl⟩ := hitem ts _ _ more hts hdenotes hstops.1
    exact ⟨rest, hp.one hrest (nextKind_map rest ▸ hstops.2), rfl⟩
  | more hdenotes _ ih =>
    rw [List.append_assoc] at hts
    obtain ⟨rest, hrest, hmap⟩ := hitem ts _ _ _ hts hdenotes hmark
    obtain ⟨t, r, rfl, ht, hr⟩ := List.map_eq_cons_iff.1 hmap
    obtain ⟨rest', hrest', hmore⟩ := ih r hr
    exact ⟨rest', hp.more hrest (congrArg Shape.kind ht) hrest', hmore⟩

end Separated

/-- Items with a mark behind each. -/
inductive Followed (mark : TokenKind) (Denotes : List Shape → α → Prop) :
    List Shape → List α → Prop where
  | nil : Followed mark Denotes [] []
  | cons {x : String} {ks ks' : List Shape} {a : α} {as : List α} : Denotes ks a →
      Followed mark Denotes ks' as → Followed mark Denotes (ks ++ ⟨mark, x⟩ :: ks') (a :: as)

section Followed

variable {mark : TokenKind} {item : Step α} {p : Step (List α)}
  {Denotes : List Shape → α → Prop} {Stops : TokenKind → Prop}

/-- An item behind those that have a mark behind them. -/
theorem Followed.separated {ks ks' : List Shape} {as : List α} {a : α}
    (h : Followed mark Denotes ks as) (ha : Denotes ks' a) :
    Separated mark Denotes (ks ++ ks') (as ++ [a]) := by
  induction h with
  | nil => exact .one ha
  | cons hb _ ih =>
    rw [List.append_assoc]
    exact .more hb ih

/-- Behind a mark another item is asked for. -/
theorem ReadsSeparated.refuses (hp : ReadsSeparated mark item p)
    (hitem : item.Complete Denotes Stops) (hmark : Stops mark) {more : List Shape}
    (hmore : ∀ r : List Token, r.map Token.shape = more → ∃ e, item r = .error e)
    {ks : List Shape} {as : List α} (h : Followed mark Denotes ks as) {ts : List Token}
    (hts : ts.map Token.shape = ks ++ more) : ∃ e, p ts = .error e := by
  induction h generalizing ts with
  | nil =>
    obtain ⟨e, he⟩ := hmore ts hts
    exact ⟨e, by rw [hp, he]⟩
  | cons ha _ ih =>
    rw [List.append_assoc] at hts
    obtain ⟨rest, hrest, hmap⟩ := hitem ts _ _ _ hts ha hmark
    obtain ⟨t, r, rfl, ht, hr⟩ := List.map_eq_cons_iff.1 hmap
    obtain ⟨e, he⟩ := ih hr
    refine ⟨e, ?_⟩
    rw [hp, hrest]
    refine (if_pos (congrArg Shape.kind ht)).trans ?_
    rw [he]
    rfl

end Followed

/-- Items with commas between them, in front of a closing parenthesis. -/
inductive Listed (Denotes : List Shape → α → Prop) : List Shape → List α → Prop where
  | none : Listed Denotes [] []
  | some {ks : List Shape} {as : List α} : Separated .comma Denotes ks as → Listed Denotes ks as

theorem Listed.imp {Denotes Denotes' : List Shape → α → Prop}
    (himp : ∀ ks a, Denotes ks a → Denotes' ks a) {ks : List Shape} {as : List α}
    (h : Listed Denotes ks as) : Listed Denotes' ks as := by
  cases h with
  | none => exact .none
  | some hsome => exact .some (hsome.imp himp)

theorem listed_sound {item : Step α} {consumes : item.Consumes}
    {Denotes : List Shape → α → Prop} (hitem : item.Sound Denotes) :
    (listed item consumes).Sound (Listed Denotes) := by
  intro ts as rest h
  unfold listed at h
  split at h
  · cases h
    exact ⟨[], rfl, .none⟩
  · obtain ⟨ks, hks, has⟩ :=
      (readsSeparated_commaSeparated item consumes).sound consumes hitem _ _ _ h
    exact ⟨ks, hks, .some has⟩

theorem listed_complete {item : Step α} {consumes : item.Consumes}
    {Denotes : List Shape → α → Prop} {Stops : TokenKind → Prop}
    (hitem : item.Complete Denotes Stops) (hcomma : Stops .comma) (hclose : Stops .closeParen)
    (hstart : ∀ ks a more, Denotes ks a → nextKind (ks ++ more) ≠ .closeParen) :
    (listed item consumes).Complete (Listed Denotes) (· = .closeParen) := by
  intro ts ks as more hts has hstops
  unfold listed
  rw [← nextKind_map, hts]
  cases has with
  | none => exact ⟨ts, if_pos hstops, hts⟩
  | some hsome =>
    have hne : nextKind (ks ++ more) ≠ .closeParen := by
      cases hsome with
      | one hdenotes => exact hstart _ _ _ hdenotes
      | more hdenotes _ =>
        rw [List.append_assoc]
        exact hstart _ _ _ hdenotes
    rw [if_neg hne]
    refine (readsSeparated_commaSeparated item consumes).complete hitem hcomma ts ks as more hts
      hsome ?_
    rw [hstops]
    exact ⟨hclose, by decide⟩

end KernelGen.Source
