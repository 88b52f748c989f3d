import KernelGen.Proofs.Host.Grammar
set_option autoImplicit false

/-!
# Host: which tokens a declaration is read from

The grammar says what tokens look like that denote a declaration; here it is said which tokens of a
header these are.  What a step leaves is the end of what it was given.  So a declaration was read
from the tokens in front of what is left: its semicolon is the last of them, and its place is that
of the first.  `Declaration.step_eq_ok` puts this together with the grammar, in both directions.

Tokens that look the same are therefore read as the same declarations, each with the semicolon and
the place that its own tokens have, and whatever comes behind them is read on its own.
-/

namespace KernelGen.Source

variable {α : Type}

/-- What the step leaves is the end of what it was given. -/
def Step.Leaves (p : Step α) : Prop := ∀ ts a rest, p ts = .ok (a, rest) → rest <:+ ts

theorem expect_leaves (kind : TokenKind) (what : Expectation) : (expect kind what).Leaves := by
  intro ts t rest h
  obtain ⟨rfl, -⟩ := expect_eq_ok.1 h
  exact List.suffix_cons t rest

theorem suffix_of_accept? {kind : TokenKind} {ts rest : List Token}
    (h : accept? kind ts = some rest) : rest <:+ ts := by
  obtain ⟨t, -, rfl⟩ := eq_cons_of_accept? h
  exact List.suffix_cons t rest

theorem behind_leaves {kind : TokenKind} {p : Step α} (hp : p.Leaves) :
    (behind kind p).Leaves := by
  intro ts a? rest h
  unfold behind at h
  split at h
  · rename_i r hr
    obtain ⟨⟨a, rest'⟩, ha, he⟩ := bind_eq_ok.1 h
    cases he
    exact (hp _ _ _ ha).trans (suffix_of_accept? hr)
  · cases h
    exact List.suffix_refl ts

theorem suffix_optionalName (ts : List Token) : (optionalName ts).2 <:+ ts := by
  cases ts with
  | nil => exact List.suffix_refl []
  | cons t r =>
    simp only [optionalName]
    split
    · exact List.suffix_cons t r
    · exact List.suffix_refl (t :: r)

theorem defaultValue_leaves : defaultValue.Leaves := by
  intro ts text rest h
  obtain ⟨⟨run, rest'⟩, hrun, h⟩ := bind_eq_ok.1 h
  dsimp only at h
  split at h
  · cases h
  · cases h
    exact ⟨run, balancedRun_append hrun⟩

section CommaSeparated

variable {item : Step α} {consumes : item.Consumes}

/-- Items leave the end of what they were given if each does, which is asked for only where at most
`n` tokens are left. -/
theorem suffix_of_commaSeparated {n : Nat}
    (hitem : ∀ ts a rest, ts.length ≤ n → item ts = .ok (a, rest) → rest <:+ ts)
    {ts rest : List Token} {as : List α} (hn : ts.length ≤ n)
    (h : commaSeparated item consumes ts = .ok (as, rest)) : rest <:+ ts := by
  fun_induction commaSeparated item consumes ts generalizing as rest with
  | case1 => cases h
  | case2 ts a ha =>
    cases h
    exact hitem _ _ _ hn ha
  | case3 ts a t r ha _ ih =>
    obtain ⟨⟨as', rest'⟩, hr, he⟩ := bind_eq_ok.1 h
    cases he
    have hback : r <:+ ts := (List.suffix_cons t r).trans (hitem _ _ _ hn ha)
    exact (ih (Nat.le_trans hback.length_le hn) hr).trans hback
  | case4 ts a t r ha _ =>
    cases h
    exact hitem _ _ _ hn ha

theorem listed_leaves (hitem : item.Leaves) : (listed item consumes).Leaves := by
  intro ts as rest h
  unfold listed at h
  split at h
  · cases h
    exact List.suffix_refl ts
  · exact suffix_of_commaSeparated (fun ts a rest _ => hitem ts a rest) (Nat.le_refl _) h

end CommaSeparated

end KernelGen.Source

namespace KernelGen.Host

open Source

/-! ## What the steps leave -/

theorem firstSegment_leaves : firstSegment.Leaves := by
  intro ts name rest h
  obtain ⟨⟨t, r⟩, ht, h⟩ := bind_eq_ok.1 h
  have hr := expect_leaves _ _ _ _ _ ht
  dsimp only at h
  split at h
  · rename_i u r
    split at h <;> cases h
    · exact (List.suffix_cons u rest).trans hr
    · exact hr
  · cases h
    exact hr

theorem moreSegments_leaves : moreSegments.Leaves := by
  intro ts names rest h
  fun_induction moreSegments ts generalizing names rest with
  | case1 =>
    cases h
    exact List.suffix_refl []
  | case2 t _ u r _ ih =>
    obtain ⟨⟨more, rest'⟩, hr, he⟩ := bind_eq_ok.1 h
    cases he
    exact ((ih _ _ hr).trans (List.suffix_cons u r)).trans (List.suffix_cons t (u :: r))
  | case5 =>
    cases h
    exact List.suffix_refl _
  | _ => cases h

theorem suffix_declaratorRun (ts : List Token) : (declaratorRun ts).2 <:+ ts := by
  fun_induction declaratorRun ts with
  | case1 => exact List.suffix_refl []
  | case2 t r _ ih => exact ih.trans (List.suffix_cons t r)
  | case3 t _ _ u r _ ih =>
    exact (ih.trans (List.suffix_cons u r)).trans (List.suffix_cons t (u :: r))
  | case4 t _ _ u r _ ih => exact ih.trans (List.suffix_cons t (u :: r))
  | case5 t _ _ => exact List.suffix_cons t []
  | case6 t r _ _ _ ih => exact ih.trans (List.suffix_cons t r)
  | case7 t r _ _ _ => exact List.suffix_refl (t :: r)

theorem suffix_tailIf (b : Bool) (ts : List Token) : (if b then ts.tail else ts) <:+ ts := by
  cases b
  · exact List.suffix_refl ts
  · exact List.tail_suffix ts

theorem typeHead_leaves : typeHead.Leaves := by
  intro ts head rest h
  obtain ⟨⟨first, r⟩, hfirst, h⟩ := bind_eq_ok.1 h
  obtain ⟨⟨names, r'⟩, hnames, h⟩ := bind_eq_ok.1 h
  cases h
  have hback := (moreSegments_leaves _ _ _ hnames).trans (firstSegment_leaves _ _ _ hfirst)
  exact (hback.trans (suffix_tailIf _ _)).trans (suffix_tailIf _ ts)

theorem constantArgument_leaves : constantArgument.Leaves := by
  intro ts a rest h
  obtain ⟨⟨run, rest'⟩, hrun, h⟩ := bind_eq_ok.1 h
  dsimp only at h
  split at h
  · cases h
  · cases h
    exact ⟨run, constantRun_append hrun⟩

theorem TemplateArg.suffix_of_step {ts rest : List Token} {a : TemplateArg HostType}
    (htype : ∀ t rest', HostType.step ts = .ok (t, rest') → rest' <:+ ts)
    (h : TemplateArg.step ts = .ok (a, rest)) : rest <:+ ts := by
  unfold TemplateArg.step at h
  split at h
  · obtain ⟨⟨t, rest'⟩, ht, he⟩ := bind_eq_ok.1 h
    cases he
    exact htype _ _ ht
  · exact constantArgument_leaves _ _ _ h

/-- A type has a head, and takes arguments and declarators behind it, which do not change its
name. -/
theorem HostType.exists_head {ts rest : List Token} {t : HostType}
    (hargument : ∀ us a rest', us.length < ts.length →
      TemplateArg.step us = .ok (a, rest') → rest' <:+ us)
    (h : HostType.step ts = .ok (t, rest)) :
    ∃ head r, typeHead ts = .ok (head, r) ∧ t.path = head.path ∧ rest <:+ r := by
  rw [HostType.step_eq] at h
  obtain ⟨⟨head, r⟩, hhead, h⟩ := bind_eq_ok.1 h
  refine ⟨head, r, hhead, ?_⟩
  cases r with
  | nil =>
    cases h
    exact ⟨rfl, List.suffix_refl []⟩
  | cons u r =>
    have hshorter : r.length < ts.length := Nat.lt_of_succ_lt (typeHead_consumes _ _ _ hhead)
    dsimp only at h
    split at h
    · obtain ⟨⟨as, r₁⟩, has, h⟩ := bind_eq_ok.1 h
      obtain ⟨⟨v, r₂⟩, hv, h⟩ := bind_eq_ok.1 h
      cases h
      have harguments : r₁ <:+ r := suffix_of_commaSeparated
        (fun us a rest' hus => hargument us a rest' (Nat.lt_of_le_of_lt hus hshorter))
        (Nat.le_refl r.length) has
      have hclose := (expect_leaves _ _ _ _ _ hv).trans harguments
      exact ⟨rfl, (suffix_declaratorRun r₂).trans (hclose.trans (List.suffix_cons u r))⟩
    · cases h
      exact ⟨rfl, suffix_declaratorRun (u :: r)⟩

theorem HostType.step_leaves : HostType.step.Leaves := by
  intro ts t rest h
  induction hlength : ts.length using Nat.strongRecOn generalizing ts t rest with
  | ind n ih =>
    subst hlength
    have hargument : ∀ us a rest', us.length < ts.length →
        TemplateArg.step us = .ok (a, rest') → rest' <:+ us := fun us a rest' hus ha =>
      TemplateArg.suffix_of_step (fun t' rest'' ht => ih us.length hus _ _ _ ht rfl) ha
    obtain ⟨head, r, hhead, -, hrest⟩ := HostType.exists_head hargument h
    exact hrest.trans (typeHead_leaves _ _ _ hhead)

theorem Param.step_leaves : Param.step.Leaves := by
  intro ts p rest h
  obtain ⟨⟨type, r⟩, htype, h⟩ := bind_eq_ok.1 h
  obtain ⟨⟨default?, r'⟩, hdefault, h⟩ := bind_eq_ok.1 h
  cases h
  have hback := behind_leaves defaultValue_leaves _ _ _ hdefault
  exact (hback.trans (suffix_optionalName r)).trans (HostType.step_leaves _ _ _ htype)

/-! ## The tokens of a declaration -/

/-- The tokens of a declaration denote it, its semicolon is the last of them, and it stands where
the first of them does. -/
theorem Declaration.step_reads {ts rest : List Token} {d : Declaration}
    (h : Declaration.step ts = .ok (d, rest)) :
    ∃ front, ts.dropWhile isSpecifier = front ++ d.terminator :: rest ∧
      DeclarationDenotes ((front ++ [d.terminator]).map Token.shape) d.returnType d.name
        d.params ∧
      d.location = (next (front ++ [d.terminator])).location := by
  obtain ⟨ks, hks, hdenotes⟩ := Declaration.step_sound h
  obtain ⟨⟨returnType, r₁⟩, h₁, h⟩ := bind_eq_ok.1 h
  obtain ⟨⟨name, r₂⟩, h₂, h⟩ := bind_eq_ok.1 h
  obtain ⟨⟨t₃, r₃⟩, h₃, h⟩ := bind_eq_ok.1 h
  obtain ⟨⟨params, r₄⟩, h₄, h⟩ := bind_eq_ok.1 h
  obtain ⟨⟨t₅, r₅⟩, h₅, h⟩ := bind_eq_ok.1 h
  obtain ⟨⟨t₆, r₆⟩, h₆, h⟩ := bind_eq_ok.1 h
  cases h
  obtain ⟨rfl, -⟩ := expect_eq_ok.1 h₆
  have hparams := (expect_leaves _ _ _ _ _ h₅).trans (listed_leaves Param.step_leaves _ _ _ h₄)
  have hname := (expect_leaves _ _ _ _ _ h₃).trans (expect_leaves _ _ _ _ _ h₂)
  obtain ⟨front, hfront⟩ := (hparams.trans hname).trans (HostType.step_leaves _ _ _ h₁)
  have hsplit : front ++ t₆ :: rest = (front ++ [t₆]) ++ rest := by simp
  rw [← hfront, hsplit, List.map_append] at hks
  refine ⟨front, hfront.symm, ?_, ?_⟩
  · rw [List.append_cancel_right hks]
    exact hdenotes
  · rw [← hfront]
    cases front <;> rfl

theorem Declaration.step_dropWhile (ts : List Token) :
    Declaration.step (ts.dropWhile isSpecifier) = Declaration.step ts := by
  unfold Declaration.step
  rw [List.dropWhile_idempotent]

theorem Declaration.step_eq_ok {ts rest : List Token} {d : Declaration} :
    Declaration.step ts = .ok (d, rest) ↔
      ∃ front, ts.dropWhile isSpecifier = front ++ d.terminator :: rest ∧
        DeclarationDenotes ((front ++ [d.terminator]).map Token.shape) d.returnType d.name
          d.params ∧
        d.location = (next (front ++ [d.terminator])).location := by
  refine ⟨Declaration.step_reads, ?_⟩
  rintro ⟨front, hts, hdenotes, hlocation⟩
  have hshapes : (ts.dropWhile isSpecifier).map Token.shape =
      (front ++ [d.terminator]).map Token.shape ++ rest.map Token.shape := by
    rw [hts]
    simp
  obtain ⟨d', rest', hstep, hrest, hreturn, hname, hparams⟩ :=
    Declaration.step_complete hshapes hdenotes
  obtain ⟨front', hts', -, hlocation'⟩ := Declaration.step_reads hstep
  -- as much is left in both readings, so the semicolon is the same token
  rw [List.dropWhile_idempotent, hts] at hts'
  obtain ⟨rfl, hlast⟩ := List.append_inj' hts' (by simpa using congrArg List.length hrest.symm)
  obtain ⟨hterminator, rfl⟩ := List.cons.inj hlast
  rw [Declaration.step_dropWhile] at hstep
  have hsame : d' = d := by
    cases d
    cases d'
    simp_all
  rw [hstep, hsame]

/-! ## Tokens that look the same -/

theorem declarationsOf_eq {ts : List Token} (h : (next ts).kind ≠ .eof) :
    declarationsOf ts = (do
      let (d, rest) ← Declaration.step ts
      let ds ← declarationsOf rest
      return d :: ds) := by
  rw [declarationsOf, if_neg h]
  split <;> rename_i hstep <;> rw [hstep] <;> rfl

/-- The declarations differ no more than the tokens they were read from. -/
structure Declaration.Alike (R : Token → Token → Prop) (d d' : Declaration) : Prop where
  returnType : d'.returnType = d.returnType
  name : d'.name = d.name
  params : d'.params = d.params
  terminator : R d.terminator d'.terminator
  location : ∃ t t', R t t' ∧ d.location = t.location ∧ d'.location = t'.location

section Alike

variable {R : Token → Token → Prop} {us us' : List Token} {e : Token}

theorem forall₂_dropWhile {p : Token → Bool} (hp : ∀ t t', R t t' → p t' = p t)
    (h : List.Forall₂ R us us') : List.Forall₂ R (us.dropWhile p) (us'.dropWhile p) := by
  induction h with
  | nil => exact .nil
  | @cons t t' us us' ht hmore ih =>
    rw [List.dropWhile_cons, List.dropWhile_cons, hp t t' ht]
    split
    · exact ih
    · exact .cons ht hmore

theorem exists_append_of_forall₂ {front back : List Token}
    (h : List.Forall₂ R (front ++ back) us') :
    ∃ front' back', us' = front' ++ back' ∧ List.Forall₂ R front front' ∧
      List.Forall₂ R back back' := by
  induction front generalizing us' with
  | nil => exact ⟨[], us', rfl, .nil, h⟩
  | cons t front ih =>
    obtain ⟨t', us', ht, hmore, rfl⟩ := List.forall₂_cons_left_iff.1 h
    obtain ⟨front', back', rfl, hfront, hback⟩ := ih hmore
    exact ⟨t' :: front', back', rfl, .cons ht hfront, hback⟩

theorem forall₂_of_map_eq {β : Type} {f g : Token → β} (h : us'.map f = us.map g) :
    List.Forall₂ (fun t t' => f t' = g t) us us' := by
  rw [eq_comm, ← List.forall₂_eq_eq_eq, List.forall₂_map_left_iff, List.forall₂_map_right_iff] at h
  exact h.imp fun t t' ht => ht.symm

theorem map_shape_of_forall₂ (hR : ∀ t t', R t t' → t'.shape = t.shape)
    (h : List.Forall₂ R us us') : us'.map Token.shape = us.map Token.shape := by
  induction h with
  | nil => rfl
  | cons ht _ ih => rw [List.map_cons, List.map_cons, hR _ _ ht, ih]

theorem next_of_forall₂ (h : List.Forall₂ R us us') (hne : us ≠ []) : R (next us) (next us') := by
  cases h with
  | nil => exact absurd rfl hne
  | cons ht _ => exact ht

/-- The words in front of a declaration end before a token that is none of them. -/
theorem dropWhile_append_stop {t : Token} (ht : isSpecifier t = false) (front back : List Token) :
    (front ++ t :: back).dropWhile isSpecifier = front.dropWhile isSpecifier ++ t :: back := by
  rw [List.dropWhile_append]
  split
  · rename_i hempty
    rw [List.isEmpty_iff.1 hempty, List.dropWhile_cons_of_neg (Bool.eq_false_iff.1 ht)]
    rfl
  · rfl

theorem isSpecifier_of_kind_ne {t : Token} (h : t.kind ≠ .identifier) : isSpecifier t = false := by
  simp [isSpecifier, h]

theorem DeclarationDenotes.ends {ks : List Shape} {returnType : HostType} {name : String}
    {params : List Param} (h : DeclarationDenotes ks returnType name params) :
    ∃ front z, ks = front ++ [⟨.semicolon, z⟩] := by
  obtain ⟨-, -, -, -⟩ := h
  rename_i x y z depth ks₁ ks₂ params
  exact ⟨ks₁ ++ ⟨.identifier, name⟩ :: ⟨.openParen, x⟩ :: (ks₂ ++ [⟨.closeParen, y⟩]), z, by simp⟩

/-- The semicolon of a declaration is not the end of the text, so that is still left behind it. -/
theorem Declaration.step_in_front (he : e.kind = .eof) {d : Declaration} {rest : List Token}
    (h : Declaration.step (us ++ [e]) = .ok (d, rest)) :
    ∃ front back, rest = back ++ [e] ∧
      us.dropWhile isSpecifier = front ++ d.terminator :: back ∧
      DeclarationDenotes ((front ++ [d.terminator]).map Token.shape) d.returnType d.name
        d.params ∧
      d.location = (next (front ++ [d.terminator])).location ∧ d.terminator.kind = .semicolon := by
  obtain ⟨front, hts, hdenotes, hlocation⟩ := Declaration.step_eq_ok.1 h
  have hsemicolon : d.terminator.kind = .semicolon := by
    obtain ⟨front', z, hends⟩ := hdenotes.ends
    rw [List.map_append] at hends
    obtain ⟨-, hlast⟩ := List.append_inj' hends rfl
    exact congrArg Shape.kind (List.cons.inj hlast).1
  rw [dropWhile_append_stop (isSpecifier_of_kind_ne (he ▸ TokenKind.noConfusion))] at hts
  rcases List.eq_nil_or_concat' rest with rfl | ⟨back, e', rfl⟩
  · obtain ⟨-, hlast⟩ := List.append_inj' hts rfl
    rw [← (List.cons.inj hlast).1, he] at hsemicolon
    cases hsemicolon
  · rw [← List.cons_append, ← List.append_assoc] at hts
    obtain ⟨hsplit, hlast⟩ := List.append_inj' hts rfl
    rw [← hlast]
    exact ⟨front, back, rfl, hsplit, hdenotes, hlocation, hsemicolon⟩

/-- A declaration in front of the end of a text is read from tokens that look the same as well,
whatever comes behind them. -/
theorem Declaration.step_alike (hR : ∀ t t', R t t' → t'.shape = t.shape)
    (hus : List.Forall₂ R us us') (he : e.kind = .eof) {d : Declaration} {rest : List Token}
    (h : Declaration.step (us ++ [e]) = .ok (d, rest)) (more : List Token) :
    ∃ back back' d', rest = back ++ [e] ∧ back <:+ us ∧ List.Forall₂ R back back' ∧
      d.Alike R d' ∧ Declaration.step (us' ++ more) = .ok (d', back' ++ more) := by
  obtain ⟨front, back, rfl, hsplit, hdenotes, hlocation, -⟩ := Declaration.step_in_front he h
  have hrelated := forall₂_dropWhile (p := isSpecifier) (fun t t' ht => by
    rw [Bool.eq_iff_iff, isSpecifier_iff, isSpecifier_iff, hR t t' ht]) hus
  rw [hsplit] at hrelated
  obtain ⟨front', behind', hsplit', hfront, hbehind⟩ := exists_append_of_forall₂ hrelated
  obtain ⟨t', back', ht, hback, rfl⟩ := List.forall₂_cons_left_iff.1 hbehind
  have hread : List.Forall₂ R (front ++ [d.terminator]) (front' ++ [t']) :=
    List.rel_append hfront (.cons ht .nil)
  have hnext := next_of_forall₂ hread (by simp)
  refine ⟨back, back', ⟨d.returnType, d.name, d.params, t', (next (front' ++ [t'])).location⟩, rfl,
    ?_, hback, ⟨rfl, rfl, rfl, ht, _, _, hnext, hlocation, rfl⟩, ?_⟩
  · have hsuffix := List.dropWhile_suffix isSpecifier (l := us)
    rw [hsplit] at hsuffix
    exact ((List.suffix_cons d.terminator back).trans (List.suffix_append front _)).trans hsuffix
  · refine Declaration.step_eq_ok.2 ⟨front', ?_, ?_, rfl⟩
    · rw [List.dropWhile_append, hsplit', if_neg (by simp), List.append_assoc, List.cons_append]
    · rw [map_shape_of_forall₂ hR hread]
      exact hdenotes

/-- Declarations in front of the end of a text are read from tokens that look the same as well, and
what comes behind those is read on its own. -/
theorem declarationsOf_alike (hR : ∀ t t', R t t' → t'.shape = t.shape)
    (hus : List.Forall₂ R us us') (hnotEnd : ∀ t ∈ us, t.kind ≠ .eof) (he : e.kind = .eof)
    {ds : List Declaration} (h : declarationsOf (us ++ [e]) = .ok ds) (more : List Token) :
    ∃ ds', List.Forall₂ (Declaration.Alike R) ds ds' ∧
      declarationsOf (us' ++ more) = (ds' ++ ·) <$> declarationsOf more := by
  induction hlength : us.length using Nat.strongRecOn generalizing us us' ds with
  | ind n ih =>
    subst hlength
    cases hus with
    | nil =>
      have hend : (next [e]).kind = .eof := he
      rw [List.nil_append, declarationsOf, if_pos hend] at h
      cases h
      refine ⟨[], .nil, ?_⟩
      rw [List.nil_append]
      cases declarationsOf more <;> rfl
    | @cons t t' us us' ht hmore =>
      have hstart : (next (t :: us ++ [e])).kind ≠ .eof := hnotEnd t List.mem_cons_self
      have hstart' : (next (t' :: us' ++ more)).kind ≠ .eof := by
        rw [show (next (t' :: us' ++ more)).kind = t.kind from congrArg Shape.kind (hR t t' ht)]
        exact hstart
      rw [declarationsOf_eq hstart] at h
      obtain ⟨⟨d, rest⟩, hstep, h⟩ := bind_eq_ok.1 h
      obtain ⟨back, back', d', rfl, hsuffix, hback, hd, hstep'⟩ :=
        Declaration.step_alike hR (.cons ht hmore) he hstep more
      obtain ⟨ds₂, hds₂, h⟩ := bind_eq_ok.1 h
      cases h
      have hshorter : back.length < (t :: us).length := by
        have := Declaration.step_consumes _ _ _ hstep
        simpa using this
      obtain ⟨ds', hds', hread⟩ :=
        ih _ hshorter hback (fun u hu => hnotEnd u (hsuffix.subset hu)) hds₂ rfl
      refine ⟨d' :: ds', .cons hd hds', ?_⟩
      rw [declarationsOf_eq hstart', hstep']
      simp only [bind, Except.bind, hread]
      cases declarationsOf more <;> rfl

theorem declarationsOf_alike_end (hR : ∀ t t', R t t' → t'.shape = t.shape)
    (hus : List.Forall₂ R (us ++ [e]) us') (hnotEnd : ∀ t ∈ us, t.kind ≠ .eof)
    (he : e.kind = .eof) {ds : List Declaration} (h : declarationsOf (us ++ [e]) = .ok ds) :
    ∃ ds', declarationsOf us' = .ok ds' ∧ List.Forall₂ (Declaration.Alike R) ds ds' := by
  obtain ⟨front, back, rfl, hfront, hback⟩ := exists_append_of_forall₂ hus
  obtain ⟨e', rest, he', hrest, rfl⟩ := List.forall₂_cons_left_iff.1 hback
  cases hrest
  have hend : (next [e']).kind = .eof := (congrArg Shape.kind (hR e e' he')).trans he
  obtain ⟨ds', hds', hread⟩ := declarationsOf_alike hR hfront hnotEnd he h [e']
  refine ⟨ds', ?_, hds'⟩
  rw [hread, declarationsOf, if_pos hend]
  simp

end Alike

end KernelGen.Host
