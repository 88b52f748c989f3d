import KernelGen.Proofs.Source.Grammar
import KernelGen.Schema.Step
set_option autoImplicit false

/-!
# Schema: the grammar of signatures

Each nonterminal of the grammar is a relation between the shapes of tokens and what they denote,
with one constructor for each of its alternatives.  The steps are sound and complete for it, so
a text has a signature exactly when its tokens denote one.
-/

namespace KernelGen.Schema

open Source

/-! ## Types -/

/-- `member := name | *` -/
inductive AliasMember.Denotes : List Shape → AliasMember → Prop where
  | wildcard {x : String} : Denotes [⟨.asterisk, x⟩] .wildcard
  | set (name : String) : Denotes [⟨.identifier, name⟩] (.set name)

/-- `set := member { | member }` -/
def AliasSetDenotes : List Shape → List AliasMember → Prop :=
  Separated .pipe AliasMember.Denotes

/-- `set [!] [-> set] )`, what stands behind the opening parenthesis of an annotation. -/
inductive AliasInfo.Denotes : List Shape → AliasInfo → Prop where
  | mk {x : String} {ks ks₂ ks₃ : List Shape} {before : List AliasMember}
      {after? : Option (List AliasMember)} {writable : Bool} :
      AliasSetDenotes ks before → Flag .bang ks₂ writable →
      Behind .arrow AliasSetDenotes ks₃ after? →
      Denotes (ks ++ ks₂ ++ ks₃ ++ [⟨.closeParen, x⟩]) ⟨before, after?, writable⟩

/-- `{ ? | [ [number] ] }` -/
inductive SuffixesDenote : List Shape → List Suffix → Prop where
  | nil : SuffixesDenote [] []
  | optional {x : String} {ks : List Shape} {ss : List Suffix} : SuffixesDenote ks ss →
      SuffixesDenote (⟨.question, x⟩ :: ks) (.optional :: ss)
  | array {x y : String} {ks : List Shape} {ss : List Suffix} : SuffixesDenote ks ss →
      SuffixesDenote (⟨.openBracket, x⟩ :: ⟨.closeBracket, y⟩ :: ks) (.array none :: ss)
  | sized {x y size : String} {ks : List Shape} {ss : List Suffix} {n : Nat} :
      arraySize? size = some n → SuffixesDenote ks ss →
      SuffixesDenote (⟨.openBracket, x⟩ :: ⟨.number, size⟩ :: ⟨.closeBracket, y⟩ :: ks)
        (.array (some n) :: ss)

/-- `type := name [( annotation] suffixes` -/
inductive SchemaType.Denotes : List Shape → SchemaType → Prop where
  | mk {name : String} {ks ks₂ : List Shape} {annotation? : Option AliasInfo}
      {suffixes : List Suffix} : Behind .openParen AliasInfo.Denotes ks annotation? →
      SuffixesDenote ks₂ suffixes →
      Denotes (⟨.identifier, name⟩ :: (ks ++ ks₂)) ⟨.ofName name, annotation?, suffixes⟩

/-! ## Signatures -/

/-- `param := * | type [name] [= default]` -/
inductive Param.Denotes : List Shape → Param → Prop where
  | marker {x : String} : Denotes [⟨.asterisk, x⟩] .marker
  | value {ks ks₂ ks₃ : List Shape} {type : SchemaType} {name? default? : Option String} :
      type.Denotes ks → OptionalName ks₂ name? → Behind .equals DefaultValue ks₃ default? →
      Denotes (ks ++ ks₂ ++ ks₃) (.value type name? default?)

/-- `type [name]` -/
inductive ElementDenotes : List Shape → SchemaType × Option String → Prop where
  | mk {ks ks₂ : List Shape} {type : SchemaType} {name? : Option String} :
      type.Denotes ks → OptionalName ks₂ name? → ElementDenotes (ks ++ ks₂) (type, name?)

/-- `return := ( [type [name] , ...] ) | type` -/
inductive ReturnType.Denotes : List Shape → ReturnType → Prop where
  | tuple {x y : String} {ks : List Shape} {elements : List (SchemaType × Option String)} :
      Listed ElementDenotes ks elements →
      Denotes (⟨.openParen, x⟩ :: (ks ++ [⟨.closeParen, y⟩])) (.tuple elements)
  | value {ks : List Shape} {type : SchemaType} : type.Denotes ks → Denotes ks (.value type)

/-- `{ :: name }` -/
inductive SegmentsDenote : List Shape → List String → Prop where
  | nil : SegmentsDenote [] []
  | cons {x : String} {ks : List Shape} {names : List String} (name : String) :
      SegmentsDenote ks names →
      SegmentsDenote (⟨.doubleColon, x⟩ :: ⟨.identifier, name⟩ :: ks) (name :: names)

/-- The name of an overload. -/
inductive OverloadDenotes : List Shape → String → Prop where
  | mk (name : String) : OverloadDenotes [⟨.identifier, name⟩] name

/-- `schema := name [. name] ( [param , ...] ) -> return` -/
inductive Signature.Denotes : List Shape → Signature → Prop where
  | mk {first x y z : String} {ks ks₂ ks₃ ks₄ : List Shape} {names : List String}
      {overload? : Option String} {params : List Param} {returnType : ReturnType} :
      SegmentsDenote ks names → Behind .dot OverloadDenotes ks₂ overload? →
      Listed Param.Denotes ks₃ params → returnType.Denotes ks₄ →
      Denotes (⟨.identifier, first⟩ :: (ks ++ ks₂ ++ ⟨.openParen, x⟩ ::
        (ks₃ ++ ⟨.closeParen, y⟩ :: ⟨.arrow, z⟩ :: ks₄)))
        ⟨first :: names, overload?, params, returnType⟩

/-! ## The steps are sound -/

theorem AliasMember.step_sound : AliasMember.step.Sound AliasMember.Denotes := by
  intro ts m rest h
  unfold AliasMember.step at h
  split at h
  · rename_i r hr
    cases h
    obtain ⟨x, hx⟩ := accept?_sound hr
    exact ⟨[⟨.asterisk, x⟩], hx, .wildcard⟩
  · obtain ⟨⟨t, r⟩, ht, he⟩ := bind_eq_ok.1 h
    cases he
    exact ⟨[⟨.identifier, t.text⟩], expect_sound ht, .set t.text⟩

theorem readsSeparated_aliasSet : ReadsSeparated .pipe AliasMember.step aliasSet := by
  intro ts
  rw [aliasSet]
  split <;> simp_all

theorem aliasSet_sound : Step.Sound aliasSet AliasSetDenotes :=
  readsSeparated_aliasSet.sound AliasMember.step_consumes AliasMember.step_sound

theorem AliasInfo.step_sound : AliasInfo.step.Sound AliasInfo.Denotes := by
  intro ts a rest h
  obtain ⟨⟨before, r₁⟩, h₁, h⟩ := bind_eq_ok.1 h
  obtain ⟨⟨after?, r₃⟩, h₃, h⟩ := bind_eq_ok.1 h
  obtain ⟨⟨t, r₄⟩, h₄, h⟩ := bind_eq_ok.1 h
  cases h
  obtain ⟨ks₁, hks₁, hbefore⟩ := aliasSet_sound _ _ _ h₁
  obtain ⟨ks₂, hks₂, hwritable⟩ := flag_sound .bang r₁ _ _ rfl
  obtain ⟨ks₃, hks₃, hafter⟩ := behind_sound aliasSet_sound _ _ _ h₃
  refine ⟨ks₁ ++ ks₂ ++ ks₃ ++ [⟨.closeParen, t.text⟩], ?_, .mk hbefore hwritable hafter⟩
  rw [hks₁, hks₂, hks₃, expect_sound h₄]
  simp

theorem suffixRun_sound : Step.Sound suffixRun SuffixesDenote := by
  intro ts ss rest h
  fun_induction suffixRun ts generalizing ss rest with
  | case1 =>
    cases h
    exact ⟨[], rfl, .nil⟩
  | case2 t r ht ih =>
    obtain ⟨⟨more, rest'⟩, hr, he⟩ := bind_eq_ok.1 h
    cases he
    obtain ⟨ks, hks, hmore⟩ := ih _ _ hr
    refine ⟨⟨.question, t.text⟩ :: ks, ?_, .optional hmore⟩
    rw [List.map_cons, hks, ← ht]
    rfl
  | case4 t _ ht u r hu ih =>
    obtain ⟨⟨more, rest'⟩, hr, he⟩ := bind_eq_ok.1 h
    cases he
    obtain ⟨ks, hks, hmore⟩ := ih _ _ hr
    refine ⟨⟨.openBracket, t.text⟩ :: ⟨.closeBracket, u.text⟩ :: ks, ?_, .array hmore⟩
    rw [List.map_cons, List.map_cons, hks, ← ht, ← hu]
    rfl
  | case7 t _ ht u _ hu n hn v r hv ih =>
    obtain ⟨⟨more, rest'⟩, hr, he⟩ := bind_eq_ok.1 h
    cases he
    obtain ⟨ks, hks, hmore⟩ := ih _ _ hr
    refine ⟨⟨.openBracket, t.text⟩ :: ⟨.number, u.text⟩ :: ⟨.closeBracket, v.text⟩ :: ks, ?_,
      .sized hn hmore⟩
    rw [List.map_cons, List.map_cons, List.map_cons, hks, ← ht, ← hu, ← hv]
    rfl
  | case10 =>
    cases h
    exact ⟨[], rfl, .nil⟩
  | _ => cases h

theorem SchemaType.step_sound : SchemaType.step.Sound SchemaType.Denotes := by
  intro ts type rest h
  obtain ⟨⟨t, r₁⟩, h₁, h⟩ := bind_eq_ok.1 h
  obtain ⟨⟨annotation?, r₂⟩, h₂, h⟩ := bind_eq_ok.1 h
  obtain ⟨⟨suffixes, r₃⟩, h₃, h⟩ := bind_eq_ok.1 h
  cases h
  obtain ⟨ks₁, hks₁, hannotates⟩ := behind_sound AliasInfo.step_sound _ _ _ h₂
  obtain ⟨ks₂, hks₂, hsuffixes⟩ := suffixRun_sound _ _ _ h₃
  refine ⟨⟨.identifier, t.text⟩ :: (ks₁ ++ ks₂), ?_, .mk hannotates hsuffixes⟩
  rw [expect_sound h₁, hks₁, hks₂]
  simp

theorem Param.step_sound : Param.step.Sound Param.Denotes := by
  intro ts p rest h
  unfold Param.step at h
  split at h
  · rename_i r hr
    cases h
    obtain ⟨x, hx⟩ := accept?_sound hr
    exact ⟨[⟨.asterisk, x⟩], hx, .marker⟩
  · obtain ⟨⟨type, r₁⟩, h₁, h⟩ := bind_eq_ok.1 h
    obtain ⟨⟨default?, r₃⟩, h₃, h⟩ := bind_eq_ok.1 h
    cases h
    obtain ⟨ks₁, hks₁, htype⟩ := SchemaType.step_sound _ _ _ h₁
    obtain ⟨ks₂, hks₂, hname⟩ := optionalName_sound r₁ _ _ rfl
    obtain ⟨ks₃, hks₃, hdefault⟩ := behind_sound defaultValue_sound _ _ _ h₃
    refine ⟨ks₁ ++ ks₂ ++ ks₃, ?_, .value htype hname hdefault⟩
    rw [hks₁, hks₂, hks₃]
    simp

theorem elementStep_sound : elementStep.Sound ElementDenotes := by
  intro ts e rest h
  obtain ⟨⟨type, r₁⟩, h₁, h⟩ := bind_eq_ok.1 h
  cases h
  obtain ⟨ks₁, hks₁, htype⟩ := SchemaType.step_sound _ _ _ h₁
  obtain ⟨ks₂, hks₂, hname⟩ := optionalName_sound r₁ _ _ rfl
  refine ⟨ks₁ ++ ks₂, ?_, .mk htype hname⟩
  rw [hks₁, hks₂, List.append_assoc]

theorem ReturnType.step_sound : ReturnType.step.Sound ReturnType.Denotes := by
  intro ts type rest h
  unfold ReturnType.step at h
  split at h
  · rename_i r hr
    obtain ⟨⟨elements, r₁⟩, h₁, h⟩ := bind_eq_ok.1 h
    obtain ⟨⟨t, r₂⟩, h₂, h⟩ := bind_eq_ok.1 h
    cases h
    obtain ⟨x, hx⟩ := accept?_sound hr
    obtain ⟨ks, hks, helements⟩ := listed_sound elementStep_sound _ _ _ h₁
    refine ⟨⟨.openParen, x⟩ :: (ks ++ [⟨.closeParen, t.text⟩]), ?_, .tuple helements⟩
    rw [hx, hks, expect_sound h₂]
    simp
  · obtain ⟨⟨type, r₁⟩, h₁, h⟩ := bind_eq_ok.1 h
    cases h
    obtain ⟨ks, hks, htype⟩ := SchemaType.step_sound _ _ _ h₁
    exact ⟨ks, hks, .value htype⟩

theorem moreSegments_sound : Step.Sound moreSegments SegmentsDenote := by
  intro ts names rest h
  fun_induction moreSegments ts generalizing names rest with
  | case1 =>
    cases h
    exact ⟨[], rfl, .nil⟩
  | case2 t ht u r hu ih =>
    obtain ⟨⟨more, rest'⟩, hr, he⟩ := bind_eq_ok.1 h
    cases he
    obtain ⟨ks, hks, hmore⟩ := ih _ _ hr
    refine ⟨⟨.doubleColon, t.text⟩ :: ⟨.identifier, u.text⟩ :: ks, ?_, .cons u.text hmore⟩
    rw [List.map_cons, List.map_cons, hks, ← ht, ← hu]
    rfl
  | case5 =>
    cases h
    exact ⟨[], rfl, .nil⟩
  | _ => cases h

theorem overloadName_sound : overloadName.Sound OverloadDenotes := by
  intro ts name rest h
  obtain ⟨⟨t, r⟩, ht, he⟩ := bind_eq_ok.1 h
  cases he
  exact ⟨[⟨.identifier, t.text⟩], expect_sound ht, .mk t.text⟩

/-- A signature that was read is denoted by the tokens in front of the end. -/
theorem Signature.ofTokens_sound {ts : List Token} {s : Signature}
    (h : Signature.ofTokens ts = .ok s) :
    ∃ ks more, ts.map Token.shape = ks ++ more ∧ nextKind more = .eof ∧ Signature.Denotes ks s := by
  obtain ⟨⟨first, r₁⟩, h₁, h⟩ := bind_eq_ok.1 h
  obtain ⟨⟨names, r₂⟩, h₂, h⟩ := bind_eq_ok.1 h
  obtain ⟨⟨overload?, r₃⟩, h₃, h⟩ := bind_eq_ok.1 h
  obtain ⟨⟨t₄, r₄⟩, h₄, h⟩ := bind_eq_ok.1 h
  obtain ⟨⟨params, r₅⟩, h₅, h⟩ := bind_eq_ok.1 h
  obtain ⟨⟨t₆, r₆⟩, h₆, h⟩ := bind_eq_ok.1 h
  obtain ⟨⟨t₇, r₇⟩, h₇, h⟩ := bind_eq_ok.1 h
  obtain ⟨⟨returnType, r₈⟩, h₈, h⟩ := bind_eq_ok.1 h
  dsimp only at h
  split at h
  · cases h
  rename_i heof
  cases h
  obtain ⟨ks₁, hks₁, hnames⟩ := moreSegments_sound _ _ _ h₂
  obtain ⟨ks₂, hks₂, hoverload⟩ := behind_sound overloadName_sound _ _ _ h₃
  obtain ⟨ks₃, hks₃, hparams⟩ := listed_sound Param.step_sound _ _ _ h₅
  obtain ⟨ks₄, hks₄, hreturn⟩ := ReturnType.step_sound _ _ _ h₈
  refine ⟨_, r₈.map Token.shape, ?_, ?_, .mk (x := t₄.text) (y := t₆.text) (z := t₇.text) hnames
    hoverload hparams hreturn⟩
  · rw [expect_sound h₁, hks₁, hks₂, expect_sound h₄, hks₃, expect_sound h₆, expect_sound h₇, hks₄]
    simp
  · rw [nextKind_map]
    exact Decidable.not_not.1 heof

/-! ## The steps are complete -/

/-- A type is not gone on with. -/
def EndsType (kind : TokenKind) : Prop :=
  kind ≠ .openParen ∧ kind ≠ .question ∧ kind ≠ .openBracket

/-- An item of a list is not gone on with. -/
def EndsItem (kind : TokenKind) : Prop := kind = .comma ∨ kind = .closeParen

theorem endsType_identifier : EndsType .identifier := ⟨by decide, by decide, by decide⟩

theorem endsType_equals : EndsType .equals := ⟨by decide, by decide, by decide⟩

theorem EndsItem.ne {kind other : TokenKind} (h : EndsItem kind) (hcomma : other ≠ .comma)
    (hparen : other ≠ .closeParen) : kind ≠ other := by
  rcases h with rfl | rfl
  · exact hcomma.symm
  · exact hparen.symm

theorem EndsItem.endsType {kind : TokenKind} (h : EndsItem kind) : EndsType kind := by
  refine ⟨?_, ?_, ?_⟩ <;> apply h.ne <;> decide

theorem EndsItem.endsDefault {kind : TokenKind} (h : EndsItem kind) : EndsDefault kind := by
  rcases h with rfl | rfl
  · exact .inl rfl
  · exact .inr rfl

theorem AliasMember.step_complete :
    AliasMember.step.Complete AliasMember.Denotes fun _ => True := by
  intro ts ks m more hts hm _
  unfold AliasMember.step
  cases hm with
  | wildcard =>
    obtain ⟨rest, hrest, hmore⟩ := accept?_complete hts
    rw [hrest]
    exact ⟨rest, rfl, hmore⟩
  | set name =>
    have hnone : accept? .asterisk ts = none := by
      refine accept?_eq_none ?_
      rw [hts]
      exact TokenKind.noConfusion
    obtain ⟨t, rest, ht, htext, hmore⟩ := expect_complete hts .aliasSet
    rw [hnone]
    exact ⟨rest, bind_eq_ok.2 ⟨_, ht, by rw [← htext]; rfl⟩, hmore⟩

theorem aliasSet_complete : Step.Complete aliasSet AliasSetDenotes (· ≠ .pipe) := by
  intro ts ks ms more hts hms hstops
  exact readsSeparated_aliasSet.complete AliasMember.step_complete trivial ts ks ms more hts hms
    ⟨trivial, hstops⟩

theorem AliasInfo.step_complete : AliasInfo.step.Complete AliasInfo.Denotes fun _ => True := by
  rintro ts _ _ more hts ⟨hbefore, hwritable, hafter⟩ -
  rename_i x ks₁ ks₂ ks₃ before after? writable
  simp only [List.append_assoc] at hts
  have hclose : ∀ k, k ≠ .closeParen → nextKind ([⟨.closeParen, x⟩] ++ more) ≠ k :=
    fun k hk => Ne.symm hk
  have hbehind : ∀ k, k ≠ .arrow → k ≠ .closeParen →
      nextKind (ks₃ ++ ([⟨.closeParen, x⟩] ++ more)) ≠ k := by
    intro k harrow hparen
    cases hafter with
    | absent => exact Ne.symm hparen
    | present => exact Ne.symm harrow
  have hmarks : nextKind (ks₂ ++ (ks₃ ++ ([⟨.closeParen, x⟩] ++ more))) ≠ .pipe := by
    cases hwritable with
    | absent => exact hbehind _ (by decide) (by decide)
    | present => exact (by decide : TokenKind.bang ≠ .pipe)
  obtain ⟨r₁, h₁, hr₁⟩ := aliasSet_complete _ _ _ _ hts hbefore hmarks
  obtain ⟨r₂, h₂, hr₂⟩ :=
    flag_complete .bang _ _ _ _ hr₁ hwritable (hbehind _ (by decide) (by decide))
  obtain ⟨r₃, h₃, hr₃⟩ := behind_complete aliasSet_complete _ _ _ _ hr₂ hafter
    ⟨hclose _ (by decide), hclose _ (by decide)⟩
  obtain ⟨t, r₄, h₄, -, hr₄⟩ := expect_complete hr₃ .closeAlias
  refine ⟨r₄, bind_eq_ok.2 ⟨_, h₁, ?_⟩, hr₄⟩
  simp only [Except.ok.inj h₂]
  exact bind_eq_ok.2 ⟨_, h₃, bind_eq_ok.2 ⟨_, h₄, rfl⟩⟩

theorem suffixRun_complete :
    Step.Complete suffixRun SuffixesDenote fun k => k ≠ .question ∧ k ≠ .openBracket := by
  intro ts ks ss more hts hss hstops
  induction hss generalizing ts with
  | nil =>
    rw [List.nil_append] at hts
    rw [← hts, nextKind_map] at hstops
    refine ⟨ts, ?_, hts⟩
    cases ts with
    | nil => rw [suffixRun]
    | cons t r =>
      rw [suffixRun.eq_def]
      exact (if_neg hstops.1).trans (if_neg hstops.2)
  | optional _ ih =>
    obtain ⟨t, r, rfl, ht, hr⟩ := List.map_eq_cons_iff.1 hts
    obtain ⟨rest, hrest, hmore⟩ := ih r hr
    refine ⟨rest, ?_, hmore⟩
    rw [suffixRun.eq_def]
    simp only [if_pos (show t.kind = .question from congrArg Shape.kind ht)]
    exact bind_eq_ok.2 ⟨_, hrest, rfl⟩
  | array _ ih =>
    obtain ⟨t, r, rfl, ht, hr⟩ := List.map_eq_cons_iff.1 hts
    obtain ⟨u, r', rfl, hu, hr'⟩ := List.map_eq_cons_iff.1 hr
    obtain ⟨rest, hrest, hmore⟩ := ih r' hr'
    refine ⟨rest, ?_, hmore⟩
    have htkind : t.kind = .openBracket := congrArg Shape.kind ht
    rw [suffixRun.eq_def]
    simp only [htkind, reduceCtorEq, if_false, if_pos,
      if_pos (show u.kind = .closeBracket from congrArg Shape.kind hu)]
    exact bind_eq_ok.2 ⟨_, hrest, rfl⟩
  | @sized x y size ks ss n hn _ ih =>
    obtain ⟨t, r, rfl, ht, hr⟩ := List.map_eq_cons_iff.1 hts
    obtain ⟨u, r', rfl, hu, hr'⟩ := List.map_eq_cons_iff.1 hr
    obtain ⟨v, r'', rfl, hv, hr''⟩ := List.map_eq_cons_iff.1 hr'
    obtain ⟨rest, hrest, hmore⟩ := ih r'' hr''
    refine ⟨rest, ?_, hmore⟩
    have htkind : t.kind = .openBracket := congrArg Shape.kind ht
    have hukind : u.kind = .number := congrArg Shape.kind hu
    have hutext : u.text = size := congrArg Shape.text hu
    rw [suffixRun.eq_def]
    simp only [htkind, hukind, hutext, hn, reduceCtorEq, if_false, if_true,
      if_pos (show v.kind = .closeBracket from congrArg Shape.kind hv)]
    exact bind_eq_ok.2 ⟨_, hrest, rfl⟩

theorem SchemaType.step_complete : SchemaType.step.Complete SchemaType.Denotes EndsType := by
  rintro ts _ _ more hts ⟨hannotates, hsuffixes⟩ ⟨hparen, hquestion, hbracket⟩
  rename_i name ks₁ ks₂ annotation? suffixes
  rw [List.cons_append, List.append_assoc] at hts
  have hbehind : nextKind (ks₂ ++ more) ≠ .openParen := by
    cases hsuffixes with
    | nil => exact hparen
    | _ => exact TokenKind.noConfusion
  obtain ⟨t, r₁, h₁, htext, hr₁⟩ := expect_complete hts .schemaType
  obtain ⟨r₂, h₂, hr₂⟩ := behind_complete AliasInfo.step_complete _ _ _ _ hr₁ hannotates
    ⟨trivial, hbehind⟩
  obtain ⟨r₃, h₃, hr₃⟩ := suffixRun_complete _ _ _ _ hr₂ hsuffixes ⟨hquestion, hbracket⟩
  refine ⟨r₃, bind_eq_ok.2 ⟨_, h₁, bind_eq_ok.2 ⟨_, h₂, bind_eq_ok.2 ⟨_, h₃, ?_⟩⟩⟩, hr₃⟩
  rw [← htext]
  rfl

theorem nextKind_type {ks more : List Shape} {type : SchemaType}
    (h : SchemaType.Denotes ks type) : nextKind (ks ++ more) = .identifier := by
  cases h
  rfl

/-- A type and a name that may be there are followed by what follows the name. -/
theorem endsType_optionalName {ks more : List Shape} {name? : Option String}
    (h : OptionalName ks name?) (hmore : EndsType (nextKind more)) :
    EndsType (nextKind (ks ++ more)) := by
  cases h with
  | absent => exact hmore
  | present => exact endsType_identifier

theorem Param.step_complete : Param.step.Complete Param.Denotes EndsItem := by
  intro ts ks p more hts hp hends
  unfold Param.step
  cases hp with
  | marker =>
    obtain ⟨rest, hrest, hmore⟩ := accept?_complete hts
    rw [hrest]
    exact ⟨rest, rfl, hmore⟩
  | @value ks₁ ks₂ ks₃ type name? default? htype hname hdefault =>
    rw [List.append_assoc, List.append_assoc] at hts
    have hnone : accept? .asterisk ts = none :=
      accept?_eq_none (by rw [hts, nextKind_type htype]; decide)
    have hnext : EndsType (nextKind (ks₃ ++ more)) ∧ nextKind (ks₃ ++ more) ≠ .identifier := by
      cases hdefault with
      | absent => exact ⟨hends.endsType, hends.ne (by decide) (by decide)⟩
      | present => exact ⟨endsType_equals, (by decide : TokenKind.equals ≠ .identifier)⟩
    have hequals : nextKind more ≠ .equals := hends.ne (by decide) (by decide)
    obtain ⟨r₁, h₁, hr₁⟩ :=
      SchemaType.step_complete _ _ _ _ hts htype (endsType_optionalName hname hnext.1)
    obtain ⟨r₂, h₂, hr₂⟩ := optionalName_complete _ _ _ _ hr₁ hname hnext.2
    obtain ⟨r₃, h₃, hr₃⟩ := behind_complete defaultValue_complete _ _ _ _ hr₂ hdefault
      ⟨hends.endsDefault, hequals⟩
    rw [hnone]
    refine ⟨r₃, bind_eq_ok.2 ⟨_, h₁, ?_⟩, hr₃⟩
    simp only [Except.ok.inj h₂]
    exact bind_eq_ok.2 ⟨_, h₃, rfl⟩

theorem elementStep_complete : elementStep.Complete ElementDenotes EndsItem := by
  rintro ts _ _ more hts ⟨htype, hname⟩ hends
  rw [List.append_assoc] at hts
  have hidentifier : nextKind more ≠ .identifier := hends.ne (by decide) (by decide)
  obtain ⟨r₁, h₁, hr₁⟩ :=
    SchemaType.step_complete _ _ _ _ hts htype (endsType_optionalName hname hends.endsType)
  obtain ⟨r₂, h₂, hr₂⟩ := optionalName_complete _ _ _ _ hr₁ hname hidentifier
  refine ⟨r₂, bind_eq_ok.2 ⟨_, h₁, ?_⟩, hr₂⟩
  simp only [Except.ok.inj h₂]
  rfl

theorem ReturnType.step_complete : ReturnType.step.Complete ReturnType.Denotes EndsType := by
  intro ts ks type more hts htype hends
  unfold ReturnType.step
  cases htype with
  | @tuple x y ks elements helements =>
    rw [List.cons_append, List.append_assoc] at hts
    obtain ⟨r, hr, hr₀⟩ := accept?_complete hts
    have hstart : ∀ ks e more, ElementDenotes ks e → nextKind (ks ++ more) ≠ .closeParen := by
      rintro _ _ more ⟨htype, -⟩
      rw [List.append_assoc, nextKind_type htype]
      decide
    obtain ⟨r₁, h₁, hr₁⟩ := listed_complete elementStep_complete (.inl rfl) (.inr rfl) hstart
      _ _ _ _ hr₀ helements rfl
    obtain ⟨t, r₂, h₂, -, hr₂⟩ := expect_complete hr₁ .closeTuple
    rw [hr]
    exact ⟨r₂, bind_eq_ok.2 ⟨_, h₁, bind_eq_ok.2 ⟨_, h₂, rfl⟩⟩, hr₂⟩
  | value htype =>
    have hnone : accept? .openParen ts = none :=
      accept?_eq_none (by rw [hts, nextKind_type htype]; decide)
    obtain ⟨r₁, h₁, hr₁⟩ := SchemaType.step_complete _ _ _ _ hts htype hends
    rw [hnone]
    exact ⟨r₁, bind_eq_ok.2 ⟨_, h₁, rfl⟩, hr₁⟩

theorem moreSegments_complete :
    Step.Complete moreSegments SegmentsDenote (· ≠ .doubleColon) := by
  intro ts ks names more hts hnames hstops
  induction hnames generalizing ts with
  | nil =>
    rw [List.nil_append] at hts
    rw [← hts, nextKind_map] at hstops
    refine ⟨ts, ?_, hts⟩
    cases ts with
    | nil => rw [moreSegments]
    | cons t r =>
      rw [moreSegments.eq_def]
      exact if_neg hstops
  | cons name _ ih =>
    obtain ⟨t, r, rfl, ht, hr⟩ := List.map_eq_cons_iff.1 hts
    obtain ⟨u, r', rfl, hu, hr'⟩ := List.map_eq_cons_iff.1 hr
    obtain ⟨rest, hrest, hmore⟩ := ih r' hr'
    refine ⟨rest, ?_, hmore⟩
    rw [moreSegments.eq_def]
    simp only [if_pos (show t.kind = .doubleColon from congrArg Shape.kind ht),
      if_pos (show u.kind = .identifier from congrArg Shape.kind hu)]
    refine bind_eq_ok.2 ⟨_, hrest, ?_⟩
    rw [← show u.text = name from congrArg Shape.text hu]
    rfl

theorem overloadName_complete : overloadName.Complete OverloadDenotes fun _ => True := by
  rintro ts _ _ more hts ⟨name⟩ -
  obtain ⟨t, rest, ht, htext, hmore⟩ := expect_complete hts .overloadName
  refine ⟨rest, bind_eq_ok.2 ⟨_, ht, ?_⟩, hmore⟩
  rw [← htext]
  rfl

theorem nextKind_param {ks more : List Shape} {p : Param} (h : Param.Denotes ks p) :
    nextKind (ks ++ more) ≠ .closeParen := by
  cases h with
  | marker => exact (by decide : TokenKind.asterisk ≠ .closeParen)
  | value htype =>
    rw [List.append_assoc, List.append_assoc, nextKind_type htype]
    decide

/-- Tokens that denote a signature, and nothing behind them, are read as that signature. -/
theorem Signature.ofTokens_complete {ts : List Token} {ks more : List Shape} {s : Signature}
    (h : Signature.Denotes ks s) (hts : ts.map Token.shape = ks ++ more)
    (heof : nextKind more = .eof) : Signature.ofTokens ts = .ok s := by
  obtain ⟨hnames, hoverload, hparams, hreturn⟩ := h
  rename_i first x y z ks₁ ks₂ ks₃ ks₄ names overload? params returnType
  simp only [List.cons_append, List.append_assoc] at hts
  have hsegments : nextKind (ks₂ ++ ⟨.openParen, x⟩ :: (ks₃ ++ ⟨.closeParen, y⟩ ::
      ⟨.arrow, z⟩ :: (ks₄ ++ more))) ≠ .doubleColon := by
    cases hoverload with
    | absent => exact (by decide : TokenKind.openParen ≠ .doubleColon)
    | present => exact (by decide : TokenKind.dot ≠ .doubleColon)
  have hends : EndsType (nextKind more) := by
    rw [heof]
    exact ⟨by decide, by decide, by decide⟩
  obtain ⟨t₁, r₁, h₁, htext, hr₁⟩ := expect_complete hts .operatorName
  obtain ⟨r₂, h₂, hr₂⟩ := moreSegments_complete _ _ _ _ hr₁ hnames hsegments
  obtain ⟨r₃, h₃, hr₃⟩ := behind_complete overloadName_complete _ _ _ _ hr₂ hoverload
    ⟨trivial, (by decide : TokenKind.openParen ≠ .dot)⟩
  obtain ⟨t₄, r₄, h₄, -, hr₄⟩ := expect_complete hr₃ .openParen
  obtain ⟨r₅, h₅, hr₅⟩ := listed_complete Param.step_complete (.inl rfl) (.inr rfl)
    (fun _ _ _ => nextKind_param) _ _ _ _ hr₄ hparams rfl
  obtain ⟨t₆, r₆, h₆, -, hr₆⟩ := expect_complete hr₅ .closeParen
  obtain ⟨t₇, r₇, h₇, -, hr₇⟩ := expect_complete hr₆ .arrow
  obtain ⟨r₈, h₈, hr₈⟩ := ReturnType.step_complete _ _ _ _ hr₇ hreturn hends
  refine bind_eq_ok.2 ⟨_, h₁, bind_eq_ok.2 ⟨_, h₂, bind_eq_ok.2 ⟨_, h₃, bind_eq_ok.2 ⟨_, h₄,
    bind_eq_ok.2 ⟨_, h₅, bind_eq_ok.2 ⟨_, h₆, bind_eq_ok.2 ⟨_, h₇, bind_eq_ok.2 ⟨_, h₈, ?_⟩⟩⟩⟩⟩⟩⟩⟩
  have hend : (next r₈).kind = .eof := by
    rw [← nextKind_map, hr₈]
    exact heof
  rw [← htext]
  exact if_neg (not_not_intro hend)

end KernelGen.Schema
