import KernelGen.Host.DeclarationStep
import KernelGen.Proofs.Host.Constants
import KernelGen.Proofs.Schema.Grammar
set_option autoImplicit false

/-!
# Host: the grammar of declarations

Which tokens denote which type, parameter or declaration, and that the steps find exactly this.

Types are read greedily, so what may follow one depends on it: no type is followed by what would
be one more declarator of it, and a type that is a name alone is not followed by what would go on
with the name either.  `HostType.EndsBefore` says this.  It holds of every type that was read, and
it is what is asked for when a type is to be read again.

Types and template arguments contain each other.  `HostType.Denotes` counts how deep, and what is
shown of it is shown by induction on that depth, for the lists of arguments at once.
-/

namespace KernelGen.Host

open Source
open Schema (SegmentsDenote EndsItem)

/-- What a parser sees of the next token. -/
def nextShape (ks : List Shape) : Shape := ks.headD Shape.endOfText

theorem nextShape_map (ts : List Token) : nextShape (ts.map Token.shape) = (next ts).shape := by
  cases ts <;> rfl

/-! ## Heads -/

/-- The two words together name a builtin type. -/
def JoinsWords (name : String) (k : Shape) : Prop :=
  name ∈ sizeWords ∧ k.kind = .identifier ∧ k.text ∈ kindWords

/-- `name | size kind` -/
inductive FirstSegment : List Shape → String → Prop where
  | word (name : String) : FirstSegment [⟨.identifier, name⟩] name
  | words {size kind : String} : JoinsWords size ⟨.identifier, kind⟩ →
      FirstSegment [⟨.identifier, size⟩, ⟨.identifier, kind⟩] (size ++ " " ++ kind)

/-- The word that makes a type constant from the front. -/
inductive LeadingConst : List Shape → Bool → Prop where
  | absent : LeadingConst [] false
  | present : LeadingConst [⟨.identifier, "const"⟩] true

/-- `head := [const] [::] first { :: name }`, where the first name is `const` only behind one of
the optional parts. -/
inductive TypeHead.Denotes : List Shape → TypeHead → Prop where
  | mk {ks ks₂ ks₃ ks₄ : List Shape} {leadingConst fromGlobal : Bool} {first : String}
      {names : List String} : LeadingConst ks leadingConst → Flag .doubleColon ks₂ fromGlobal →
      FirstSegment ks₃ first → SegmentsDenote ks₄ names →
      (leadingConst = false → fromGlobal = false → first ≠ "const") →
      Denotes (ks ++ (ks₂ ++ (ks₃ ++ ks₄))) ⟨leadingConst, fromGlobal, first :: names⟩

/-- The token does not go on with the name. -/
structure TypeHead.EndsBefore (h : TypeHead) (k : Shape) : Prop where
  noSegment : k.kind ≠ .doubleColon
  noWord : ∀ name, h.path = [name] → ¬ JoinsWords name k

/-! ## Declarators -/

/-- The token is the start of a declarator. -/
def StartsDeclarator (k : Shape) : Prop :=
  k = ⟨.identifier, "const"⟩ ∨ k.kind = .ampersand ∨ k.kind = .asterisk

/-- `{ const | & | && | * }`, where no `&` is followed by another one. -/
inductive DeclaratorsDenote : List Shape → List Declarator → Prop where
  | nil : DeclaratorsDenote [] []
  | const {ks : List Shape} {ds : List Declarator} : DeclaratorsDenote ks ds →
      DeclaratorsDenote (⟨.identifier, "const"⟩ :: ks) (.const :: ds)
  | ref {x : String} {ks : List Shape} {ds : List Declarator} : nextKind ks ≠ .ampersand →
      DeclaratorsDenote ks ds → DeclaratorsDenote (⟨.ampersand, x⟩ :: ks) (.ref :: ds)
  | rvalueRef {x y : String} {ks : List Shape} {ds : List Declarator} : DeclaratorsDenote ks ds →
      DeclaratorsDenote (⟨.ampersand, x⟩ :: ⟨.ampersand, y⟩ :: ks) (.rvalueRef :: ds)
  | pointer {x : String} {ks : List Shape} {ds : List Declarator} : DeclaratorsDenote ks ds →
      DeclaratorsDenote (⟨.asterisk, x⟩ :: ks) (.pointer :: ds)

/-! ## Types -/

/-- `head [< argument , ... >] declarators`, by what arguments denote. -/
inductive TypeDenotes (Argument : List Shape → TemplateArg HostType → Prop) :
    List Shape → HostType → Prop where
  | plain {ks ks₂ : List Shape} {h : TypeHead} {ds : List Declarator} : h.Denotes ks →
      DeclaratorsDenote ks₂ ds →
      TypeDenotes Argument (ks ++ ks₂) ⟨h.leadingConst, h.fromGlobal, h.path, [], ds⟩
  | template {x y : String} {ks ks₂ ks₃ : List Shape} {h : TypeHead}
      {as : List (TemplateArg HostType)} {ds : List Declarator} : h.Denotes ks →
      Separated .comma Argument ks₂ as → DeclaratorsDenote ks₃ ds →
      TypeDenotes Argument (ks ++ ⟨.lessThan, x⟩ :: (ks₂ ++ ⟨.greaterThan, y⟩ :: ks₃))
        ⟨h.leadingConst, h.fromGlobal, h.path, as, ds⟩

/-- `argument := type | constant`, by what types denote. -/
inductive ArgumentDenotes (Nested : List Shape → HostType → Prop) :
    List Shape → TemplateArg HostType → Prop where
  | type {ks : List Shape} {t : HostType} : Nested ks t → ArgumentDenotes Nested ks (.type t)
  | constant {ks : List Shape} {text : String} : Constant ks text → StartsConstant ks →
      ArgumentDenotes Nested ks (.constant text)

/-- What types denote that are nested at most `depth` deep. -/
def HostType.Denotes : Nat → List Shape → HostType → Prop
  | 0 => fun _ _ => False
  | depth + 1 => TypeDenotes (ArgumentDenotes (HostType.Denotes depth))

/-- The token does not go on with the type. -/
structure HostType.EndsBefore (t : HostType) (k : Shape) : Prop where
  noDeclarator : ¬ StartsDeclarator k
  noArguments : t.arguments = [] → t.declarators = [] → k.kind ≠ .lessThan
  noName : t.arguments = [] → t.declarators = [] →
    TypeHead.EndsBefore ⟨t.leadingConst, t.fromGlobal, t.path⟩ k

/-! ## Declarations -/

/-- `param := type [name] [= default]` -/
inductive Param.Denotes : List Shape → Param → Prop where
  | mk {depth : Nat} {ks ks₂ ks₃ : List Shape} {type : HostType} {name? default? : Option String} :
      type.Denotes depth ks → OptionalName ks₂ name? → Behind .equals DefaultValue ks₃ default? →
      (∀ name ∈ name?, type.EndsBefore ⟨.identifier, name⟩) →
      Denotes (ks ++ ks₂ ++ ks₃) ⟨type, name?, default?⟩

/-- The word may stand in front of a declaration. -/
def IsSpecifier (k : Shape) : Prop := k.kind = .identifier ∧ k.text ∈ specifiers

/-- `declaration := type name ( [param , ...] ) ;`, behind the words that may stand in front of
it. -/
inductive DeclarationDenotes : List Shape → HostType → String → List Param → Prop where
  | mk {x y z name : String} {depth : Nat} {ks ks₂ : List Shape} {returnType : HostType}
      {params : List Param} : returnType.Denotes depth ks → ¬ IsSpecifier (nextShape ks) →
      returnType.EndsBefore ⟨.identifier, name⟩ → Listed Param.Denotes ks₂ params →
      DeclarationDenotes (ks ++ ⟨.identifier, name⟩ :: ⟨.openParen, x⟩ ::
        (ks₂ ++ [⟨.closeParen, y⟩, ⟨.semicolon, z⟩])) returnType name (withoutVoid params)

/-! ## The steps are sound -/

theorem shape_eq {t : Token} {kind : TokenKind} (h : t.kind = kind) : t.shape = ⟨kind, t.text⟩ :=
  congrArg (Shape.mk · t.text) h

theorem isWord_iff {t : Token} {w : String} : t.isWord w = true ↔ t.shape = ⟨.identifier, w⟩ := by
  simp [Token.isWord, Token.shape]

theorem not_isWord_of_mark {t : Token} {kind : TokenKind} {w : String} (h : t.kind = kind)
    (hkind : kind ≠ .identifier) : ¬ t.isWord w = true :=
  fun hword => hkind (h.symm.trans (congrArg Shape.kind (isWord_iff.1 hword)))

theorem joinsWords_iff {name : String} {u : Token} :
    (sizeWords.contains name && u.kind == .identifier && kindWords.contains u.text) = true ↔
      JoinsWords name u.shape := by
  simp [JoinsWords, Token.shape, and_assoc]

/-- The name of a builtin type of two words starts no other one. -/
theorem not_joinsWords_joined {size kind : String} (h : JoinsWords size ⟨.identifier, kind⟩)
    (k : Shape) : ¬ JoinsWords (size ++ " " ++ kind) k := by
  have hall : ∀ s ∈ sizeWords, ∀ w ∈ kindWords, s ++ " " ++ w ∉ sizeWords := by decide
  exact fun hjoins => hall size h.1 kind h.2.2 hjoins.1

theorem firstSegment_sound {ts rest : List Token} {name : String}
    (h : firstSegment ts = .ok (name, rest)) :
    ∃ ks, ts.map Token.shape = ks ++ rest.map Token.shape ∧ FirstSegment ks name ∧
      ¬ JoinsWords name (nextShape (rest.map Token.shape)) := by
  obtain ⟨⟨t, r⟩, ht, h⟩ := bind_eq_ok.1 h
  have hts := expect_sound ht
  cases r with
  | nil =>
    cases h
    exact ⟨_, hts, .word t.text, fun hjoins => absurd hjoins.2.1 (by decide)⟩
  | cons u r =>
    dsimp only at h
    split at h <;> rename_i hjoins <;> cases h <;> rw [joinsWords_iff] at hjoins
    · have hu : u.shape = ⟨.identifier, u.text⟩ := shape_eq hjoins.2.1
      rw [hu] at hjoins
      refine ⟨_, ?_, .words hjoins, not_joinsWords_joined hjoins _⟩
      rw [hts, List.map_cons, hu]
      rfl
    · exact ⟨_, hts, .word t.text, hjoins⟩

theorem moreSegments_sound {ts rest : List Token} {names : List String}
    (h : moreSegments ts = .ok (names, rest)) :
    ∃ ks, ts.map Token.shape = ks ++ rest.map Token.shape ∧ SegmentsDenote ks names ∧
      nextKind (rest.map Token.shape) ≠ .doubleColon := by
  fun_induction moreSegments ts generalizing names rest with
  | case1 =>
    cases h
    exact ⟨[], rfl, .nil, by decide⟩
  | case2 t ht u r hu ih =>
    obtain ⟨⟨more, rest'⟩, hr, he⟩ := bind_eq_ok.1 h
    cases he
    obtain ⟨ks, hks, hmore, hends⟩ := ih hr
    refine ⟨⟨.doubleColon, t.text⟩ :: ⟨.identifier, u.text⟩ :: ks, ?_, .cons u.text hmore, hends⟩
    rw [List.map_cons, List.map_cons, hks, ← ht, ← hu]
    rfl
  | case5 t r ht =>
    cases h
    exact ⟨[], rfl, .nil, ht⟩
  | _ => cases h

theorem leadingConst_sound (ts : List Token) :
    ∃ ks, ts.map Token.shape =
        ks ++ (if (next ts).isWord "const" then ts.tail else ts).map Token.shape ∧
      LeadingConst ks ((next ts).isWord "const") := by
  by_cases hconst : (next ts).isWord "const" = true
  · rw [if_pos hconst, hconst]
    rw [isWord_iff, ← nextShape_map] at hconst
    cases ts with
    | nil => cases hconst
    | cons t r =>
      refine ⟨[⟨.identifier, "const"⟩], ?_, .present⟩
      rw [List.map_cons, show t.shape = _ from hconst]
      rfl
  · rw [if_neg hconst, Bool.eq_false_iff.2 hconst]
    exact ⟨[], rfl, .absent⟩

theorem fromGlobal_sound (ts : List Token) :
    ∃ ks, ts.map Token.shape =
        ks ++ (if (next ts).kind == .doubleColon then ts.tail else ts).map Token.shape ∧
      Flag .doubleColon ks ((next ts).kind == .doubleColon) := by
  by_cases hcolons : ((next ts).kind == .doubleColon) = true
  · rw [if_pos hcolons, hcolons]
    cases ts with
    | nil => cases hcolons
    | cons t r =>
      refine ⟨[⟨.doubleColon, t.text⟩], ?_, .present⟩
      rw [← eq_of_beq hcolons]
      rfl
  · rw [if_neg hcolons, Bool.eq_false_iff.2 hcolons]
    exact ⟨[], rfl, .absent⟩

/-- A segment starts with the word `const` only if it is this word. -/
theorem firstSegment_const_iff {ks : List Shape} {name : String} (h : FirstSegment ks name)
    (more : List Shape) : nextShape (ks ++ more) = ⟨.identifier, "const"⟩ ↔ name = "const" := by
  cases h with
  | word => exact ⟨fun heq => congrArg Shape.text heq, fun heq => congrArg (Shape.mk _) heq⟩
  | @words size kind hjoins =>
    have hsize : ∀ s ∈ sizeWords, s ≠ "const" ∧ ∀ w ∈ kindWords, s ++ " " ++ w ≠ "const" := by
      decide
    exact ⟨fun heq => absurd (congrArg Shape.text heq) (hsize size hjoins.1).1,
      fun heq => absurd heq ((hsize size hjoins.1).2 kind hjoins.2.2)⟩

theorem typeHead_sound {ts rest : List Token} {head : TypeHead}
    (h : typeHead ts = .ok (head, rest)) :
    ∃ ks, ts.map Token.shape = ks ++ rest.map Token.shape ∧ head.Denotes ks ∧
      head.EndsBefore (nextShape (rest.map Token.shape)) := by
  obtain ⟨⟨first, r₁⟩, h₁, h⟩ := bind_eq_ok.1 h
  obtain ⟨⟨names, r₂⟩, h₂, h⟩ := bind_eq_ok.1 h
  cases h
  obtain ⟨ks₁, hks₁, hconst⟩ := leadingConst_sound ts
  obtain ⟨ks₂, hks₂, hglobal⟩ :=
    fromGlobal_sound (if (next ts).isWord "const" then ts.tail else ts)
  obtain ⟨ks₃, hks₃, hfirst, hword⟩ := firstSegment_sound h₁
  obtain ⟨ks₄, hks₄, hnames, hsegment⟩ := moreSegments_sound h₂
  refine ⟨_, ?_, .mk hconst hglobal hfirst hnames ?_, hsegment, ?_⟩
  · rw [hks₁, hks₂, hks₃, hks₄]
    simp only [List.append_assoc]
  · intro hnoConst hnoGlobal hword
    rw [hnoConst] at hconst
    rw [hnoGlobal] at hglobal
    cases hconst
    cases hglobal
    rw [hks₂, hks₃] at hks₁
    refine Bool.false_ne_true (hnoConst.symm.trans (isWord_iff.2 ?_))
    rw [← nextShape_map, hks₁]
    exact (firstSegment_const_iff hfirst _).2 hword
  · intro name hname
    obtain ⟨rfl, rfl⟩ := List.cons.inj hname
    cases hnames
    rwa [hks₄] at hword

theorem declaratorRun_sound (ts : List Token) :
    ∃ ks, ts.map Token.shape = ks ++ (declaratorRun ts).2.map Token.shape ∧
      DeclaratorsDenote ks (declaratorRun ts).1 ∧
      ¬ StartsDeclarator (nextShape ((declaratorRun ts).2.map Token.shape)) := by
  fun_induction declaratorRun ts with
  | case1 => exact ⟨[], rfl, .nil, by rintro (h | h | h) <;> cases h⟩
  | case2 t r ht ih =>
    obtain ⟨ks, hks, hds, hends⟩ := ih
    refine ⟨⟨.identifier, "const"⟩ :: ks, ?_, .const hds, hends⟩
    rw [List.map_cons, isWord_iff.1 ht, hks]
    rfl
  | case3 t ht hkind u r hu ih =>
    obtain ⟨ks, hks, hds, hends⟩ := ih
    refine ⟨⟨.ampersand, t.text⟩ :: ⟨.ampersand, u.text⟩ :: ks, ?_, .rvalueRef hds, hends⟩
    rw [List.map_cons, List.map_cons, shape_eq hkind, shape_eq hu, hks]
    rfl
  | case4 t ht hkind u r hu ih =>
    obtain ⟨ks, hks, hds, hends⟩ := ih
    have hnext : nextKind ks ≠ .ampersand := by
      cases ks with
      | nil => exact (by decide : TokenKind.eof ≠ .ampersand)
      | cons k ks => rwa [← (List.cons.inj hks).1]
    refine ⟨⟨.ampersand, t.text⟩ :: ks, ?_, .ref hnext hds, hends⟩
    rw [List.map_cons, shape_eq hkind, hks]
    rfl
  | case5 t ht hkind =>
    refine ⟨[⟨.ampersand, t.text⟩], by rw [← shape_eq hkind]; rfl, .ref (by decide) .nil, ?_⟩
    rintro (h | h | h) <;> cases h
  | case6 t r ht hkind hstar ih =>
    obtain ⟨ks, hks, hds, hends⟩ := ih
    refine ⟨⟨.asterisk, t.text⟩ :: ks, ?_, .pointer hds, hends⟩
    rw [List.map_cons, shape_eq hstar, hks]
    rfl
  | case7 t r ht hkind hstar =>
    refine ⟨[], rfl, .nil, ?_⟩
    rintro (h | h | h)
    · exact ht (isWord_iff.2 h)
    · exact hkind h
    · exact hstar h

theorem TypeHead.Denotes.ne_nil {ks : List Shape} {h : TypeHead} (hh : h.Denotes ks) : ks ≠ [] := by
  obtain ⟨-, -, hfirst, -, -⟩ := hh
  cases hfirst <;> simp

theorem HostType.Denotes.ne_nil {depth : Nat} {ks : List Shape} {t : HostType}
    (h : t.Denotes depth ks) : ks ≠ [] := by
  cases depth with
  | zero => exact absurd h id
  | succ depth =>
    cases h with
    | plain hhead _ => exact List.append_ne_nil_of_left_ne_nil hhead.ne_nil _
    | template hhead _ _ => exact List.append_ne_nil_of_left_ne_nil hhead.ne_nil _

theorem TemplateArg.step_sound {depth : Nat}
    (htype : ∀ ts t rest, ts.length ≤ depth → HostType.step ts = .ok (t, rest) →
      ∃ ks, ts.map Token.shape = ks ++ rest.map Token.shape ∧ t.Denotes depth ks)
    (ts : List Token) (a : TemplateArg HostType) (rest : List Token) (hlength : ts.length ≤ depth)
    (h : TemplateArg.step ts = .ok (a, rest)) :
    ∃ ks, ts.map Token.shape = ks ++ rest.map Token.shape ∧
      ArgumentDenotes (HostType.Denotes depth) ks a := by
  unfold TemplateArg.step at h
  split at h
  · obtain ⟨⟨t, r⟩, ht, he⟩ := bind_eq_ok.1 h
    cases he
    obtain ⟨ks, hks, hdenotes⟩ := htype _ _ _ hlength ht
    exact ⟨ks, hks, .type hdenotes⟩
  · rename_i hstarts
    obtain ⟨ks, text, hks, hconstant, rfl⟩ := constantArgument_sound h
    refine ⟨ks, hks, .constant hconstant ?_⟩
    obtain ⟨k, js, rfl, -, -⟩ := hconstant.cons
    rw [← nextKind_map, hks] at hstarts
    exact not_or.1 hstarts

/-- A type of a head and declarators was read up to where it ends. -/
theorem endsBefore_of_declarators {head : TypeHead} {as : List (TemplateArg HostType)}
    {ds : List Declarator} {ks more : List Shape} (hds : DeclaratorsDenote ks ds)
    (hends : ¬ StartsDeclarator (nextShape more))
    (hhead : as = [] → (nextShape (ks ++ more)).kind ≠ .lessThan ∧
      head.EndsBefore (nextShape (ks ++ more))) :
    HostType.EndsBefore ⟨head.leadingConst, head.fromGlobal, head.path, as, ds⟩
      (nextShape more) := by
  have hplain : as = [] → ds = [] →
      (nextShape more).kind ≠ .lessThan ∧ head.EndsBefore (nextShape more) := by
    rintro has rfl
    cases hds
    exact hhead has
  exact ⟨hends, fun has hds => (hplain has hds).1, fun has hds => (hplain has hds).2⟩

theorem HostType.step_sound {depth : Nat} {ts rest : List Token} {t : HostType}
    (hdepth : ts.length ≤ depth) (h : HostType.step ts = .ok (t, rest)) :
    ∃ ks, ts.map Token.shape = ks ++ rest.map Token.shape ∧ t.Denotes depth ks ∧
      t.EndsBefore (nextShape (rest.map Token.shape)) := by
  induction depth generalizing ts rest t with
  | zero =>
    have := HostType.step_consumes _ _ _ h
    omega
  | succ depth ih =>
    rw [HostType.step_eq] at h
    obtain ⟨⟨head, r⟩, hhead, h⟩ := bind_eq_ok.1 h
    obtain ⟨ks, hks, hdenotes, hends⟩ := typeHead_sound hhead
    have hshorter := typeHead_consumes _ _ _ hhead
    cases r with
    | nil =>
      cases h
      refine ⟨ks ++ [], by rw [hks, List.append_nil], .plain hdenotes .nil, ?_⟩
      refine endsBefore_of_declarators .nil ?_ fun _ => ⟨by decide, hends⟩
      rintro (h | h | h) <;> cases h
    | cons u r =>
      rw [List.length_cons] at hshorter
      dsimp only at h
      split at h
      · rename_i hu
        obtain ⟨⟨as, r₁⟩, has, h⟩ := bind_eq_ok.1 h
        obtain ⟨⟨v, r₂⟩, hv, h⟩ := bind_eq_ok.1 h
        cases h
        obtain ⟨ks₂, hks₂, hargs⟩ :=
          (readsSeparated_commaSeparated _ TemplateArg.step_consumes).sound_within
            TemplateArg.step_consumes (TemplateArg.step_sound fun ts t rest hlength ht => by
              obtain ⟨ks, hks, hdenotes, -⟩ := ih hlength ht
              exact ⟨ks, hks, hdenotes⟩) (by omega) has
        obtain ⟨ks₃, hks₃, hds, hstop⟩ := declaratorRun_sound r₂
        refine ⟨_, ?_, .template (x := u.text) (y := v.text) hdenotes hargs hds, ?_⟩
        · rw [hks, List.map_cons, shape_eq hu, hks₂, expect_sound hv, hks₃]
          simp
        · refine endsBefore_of_declarators hds hstop fun hnil => ?_
          exact absurd hnil hargs.ne_nil
      · rename_i hu
        cases h
        obtain ⟨ks₂, hks₂, hds, hstop⟩ := declaratorRun_sound (u :: r)
        refine ⟨ks ++ ks₂, by rw [hks, hks₂, List.append_assoc], .plain hdenotes hds, ?_⟩
        refine endsBefore_of_declarators hds hstop fun _ => ?_
        rw [← hks₂]
        exact ⟨hu, hends⟩

theorem Param.step_sound : Param.step.Sound Param.Denotes := by
  intro ts p rest h
  obtain ⟨⟨type, r₁⟩, h₁, h⟩ := bind_eq_ok.1 h
  obtain ⟨⟨default?, r₃⟩, h₃, h⟩ := bind_eq_ok.1 h
  cases h
  obtain ⟨ks₁, hks₁, htype, hends⟩ := HostType.step_sound (Nat.le_refl _) h₁
  obtain ⟨ks₂, hks₂, hname⟩ := optionalName_sound r₁ _ _ rfl
  obtain ⟨ks₃, hks₃, hdefault⟩ := behind_sound defaultValue_sound _ _ _ h₃
  refine ⟨ks₁ ++ ks₂ ++ ks₃, ?_, .mk htype hname hdefault ?_⟩
  · rw [hks₁, hks₂, hks₃]
    simp only [List.append_assoc]
  · intro name hmem
    rw [Option.mem_def.1 hmem] at hname
    cases hname
    rwa [hks₂] at hends

theorem isSpecifier_iff {t : Token} : isSpecifier t = true ↔ IsSpecifier t.shape := by
  simp [isSpecifier, IsSpecifier, Token.shape]

/-- The words passed over in front of a declaration are followed by something else. -/
theorem specifiers_sound (ts : List Token) :
    (∃ ks, ts.map Token.shape = ks ++ (ts.dropWhile isSpecifier).map Token.shape) ∧
      ¬ IsSpecifier (nextShape ((ts.dropWhile isSpecifier).map Token.shape)) := by
  constructor
  · refine ⟨(ts.takeWhile isSpecifier).map Token.shape, ?_⟩
    rw [← List.map_append, List.takeWhile_append_dropWhile]
  · intro h
    have hhead := List.head?_dropWhile_not isSpecifier ts
    cases hdrop : ts.dropWhile isSpecifier with
    | nil =>
      rw [hdrop] at h
      cases h.1
    | cons t r =>
      rw [hdrop] at h hhead
      exact Bool.false_ne_true (hhead.symm.trans (isSpecifier_iff.2 h))

theorem nextShape_append {ks more : List Shape} (h : ks ≠ []) :
    nextShape (ks ++ more) = nextShape ks := by
  cases ks with
  | nil => exact absurd rfl h
  | cons => rfl

theorem Declaration.step_sound {ts rest : List Token} {d : Declaration}
    (h : Declaration.step ts = .ok (d, rest)) :
    ∃ ks, (ts.dropWhile isSpecifier).map Token.shape = ks ++ rest.map Token.shape ∧
      DeclarationDenotes ks d.returnType d.name d.params := by
  obtain ⟨⟨returnType, r₁⟩, h₁, h⟩ := bind_eq_ok.1 h
  obtain ⟨⟨name, r₂⟩, h₂, h⟩ := bind_eq_ok.1 h
  obtain ⟨⟨t₃, r₃⟩, h₃, h⟩ := bind_eq_ok.1 h
  obtain ⟨⟨params, r₄⟩, h₄, h⟩ := bind_eq_ok.1 h
  obtain ⟨⟨t₅, r₅⟩, h₅, h⟩ := bind_eq_ok.1 h
  obtain ⟨⟨t₆, r₆⟩, h₆, h⟩ := bind_eq_ok.1 h
  cases h
  obtain ⟨-, hspecifier⟩ := specifiers_sound ts
  obtain ⟨ks₁, hks₁, hreturn, hends⟩ := HostType.step_sound (Nat.le_refl _) h₁
  obtain ⟨ks₂, hks₂, hparams⟩ := listed_sound Param.step_sound _ _ _ h₄
  rw [expect_sound h₂] at hks₁ hends
  rw [expect_sound h₃, hks₂, expect_sound h₅, expect_sound h₆] at hks₁
  refine ⟨_, ?_, .mk (x := t₃.text) (y := t₅.text) (z := t₆.text) hreturn ?_ hends hparams⟩
  · rw [hks₁]
    simp only [List.append_assoc, List.cons_append, List.nil_append]
  · rwa [hks₁, nextShape_append hreturn.ne_nil] at hspecifier

/-- Each declaration of a header was read from some of its tokens. -/
theorem declarationsOf_sound {ts : List Token} {ds : List Declaration}
    (h : declarationsOf ts = .ok ds) {d : Declaration} (hd : d ∈ ds) :
    ∃ front ks back, ts.map Token.shape = front ++ (ks ++ back) ∧
      DeclarationDenotes ks d.returnType d.name d.params := by
  fun_induction declarationsOf ts generalizing ds with
  | case1 => cases h; exact absurd hd List.not_mem_nil
  | case2 => cases h
  | case3 ts _ e rest hstep ih =>
    obtain ⟨⟨front, hfront⟩, -⟩ := specifiers_sound ts
    obtain ⟨ks, hks, hdenotes⟩ := Declaration.step_sound hstep
    rw [hks] at hfront
    cases hrest : declarationsOf rest with
    | error => rw [hrest] at h; cases h
    | ok es =>
      rw [hrest] at h
      cases h
      rcases List.mem_cons.1 hd with rfl | hd
      · exact ⟨front, ks, _, hfront, hdenotes⟩
      · obtain ⟨front', ks', back, hks', hdenotes'⟩ := ih hrest hd
        refine ⟨front ++ (ks ++ front'), ks', back, ?_, hdenotes'⟩
        rw [hfront, hks']
        simp only [List.append_assoc]

/-! ## The steps are complete -/

theorem firstSegment_complete {ts : List Token} {ks more : List Shape} {name : String}
    (hts : ts.map Token.shape = ks ++ more) (h : FirstSegment ks name)
    (hends : ¬ JoinsWords name (nextShape more)) :
    ∃ rest, firstSegment ts = .ok (name, rest) ∧ rest.map Token.shape = more := by
  cases h with
  | word =>
    obtain ⟨t, r, ht, rfl, hr⟩ := expect_complete hts .typeName
    refine ⟨r, bind_eq_ok.2 ⟨_, ht, ?_⟩, hr⟩
    cases r with
    | nil => rfl
    | cons u r =>
      rw [← show (u :: r).map Token.shape = more from hr] at hends
      exact if_neg (mt joinsWords_iff.1 hends)
  | @words size kind hjoins =>
    obtain ⟨t, r, ht, rfl, hr⟩ := expect_complete hts .typeName
    obtain ⟨u, r', rfl, hu, hr'⟩ := List.map_eq_cons_iff.1 hr
    rw [← hu] at hjoins
    refine ⟨r', bind_eq_ok.2 ⟨_, ht, ?_⟩, hr'⟩
    refine (if_pos (joinsWords_iff.2 hjoins)).trans ?_
    rw [← show u.text = kind from congrArg Shape.text hu]
    rfl

theorem moreSegments_complete {ts : List Token} {ks more : List Shape} {names : List String}
    (hts : ts.map Token.shape = ks ++ more) (h : SegmentsDenote ks names)
    (hends : nextKind more ≠ .doubleColon) :
    ∃ rest, moreSegments ts = .ok (names, rest) ∧ rest.map Token.shape = more := by
  induction h generalizing ts with
  | nil =>
    rw [List.nil_append] at hts
    rw [← hts, nextKind_map] at hends
    refine ⟨ts, ?_, hts⟩
    cases ts with
    | nil => rw [moreSegments]
    | cons t r =>
      rw [moreSegments.eq_def]
      exact if_neg hends
  | cons name _ ih =>
    obtain ⟨t, r, rfl, ht, hr⟩ := List.map_eq_cons_iff.1 hts
    obtain ⟨u, r', rfl, hu, hr'⟩ := List.map_eq_cons_iff.1 hr
    obtain ⟨rest, hrest, hmore⟩ := ih hr'
    refine ⟨rest, ?_, hmore⟩
    rw [moreSegments.eq_def]
    simp only [if_pos (show t.kind = .doubleColon from congrArg Shape.kind ht),
      if_pos (show u.kind = .identifier from congrArg Shape.kind hu)]
    refine bind_eq_ok.2 ⟨_, hrest, ?_⟩
    rw [← show u.text = name from congrArg Shape.text hu]
    rfl

theorem leadingConst_complete {ts : List Token} {ks more : List Shape} {leadingConst : Bool}
    (hts : ts.map Token.shape = ks ++ more) (h : LeadingConst ks leadingConst)
    (hends : leadingConst = false → nextShape more ≠ ⟨.identifier, "const"⟩) :
    (next ts).isWord "const" = leadingConst ∧
      (if leadingConst then ts.tail else ts).map Token.shape = more := by
  cases h with
  | absent =>
    refine ⟨Bool.eq_false_iff.2 fun hconst => hends rfl ?_, hts⟩
    rw [← isWord_iff.1 hconst, ← nextShape_map, hts]
    rfl
  | present =>
    obtain ⟨t, r, rfl, ht, hr⟩ := List.map_eq_cons_iff.1 hts
    exact ⟨isWord_iff.2 ht, hr⟩

theorem fromGlobal_complete {ts : List Token} {ks more : List Shape} {fromGlobal : Bool}
    (hts : ts.map Token.shape = ks ++ more) (h : Flag .doubleColon ks fromGlobal)
    (hends : nextKind more ≠ .doubleColon) :
    ((next ts).kind == .doubleColon) = fromGlobal ∧
      (if fromGlobal then ts.tail else ts).map Token.shape = more := by
  cases h with
  | absent =>
    refine ⟨beq_false_of_ne ?_, hts⟩
    rw [← nextKind_map, hts]
    exact hends
  | present =>
    obtain ⟨t, r, rfl, ht, hr⟩ := List.map_eq_cons_iff.1 hts
    exact ⟨beq_iff_eq.2 (congrArg Shape.kind ht), hr⟩

theorem nextKind_firstSegment {ks : List Shape} {name : String} (h : FirstSegment ks name)
    (more : List Shape) : nextKind (ks ++ more) = .identifier := by
  cases h <;> rfl

theorem typeHead_complete {ts : List Token} {ks more : List Shape} {head : TypeHead}
    (hts : ts.map Token.shape = ks ++ more) (h : head.Denotes ks)
    (hends : head.EndsBefore (nextShape more)) :
    ∃ rest, typeHead ts = .ok (head, rest) ∧ rest.map Token.shape = more := by
  obtain ⟨hconst, hglobal, hfirst, hnames, hnot⟩ := h
  rename_i ks₁ ks₂ ks₃ ks₄ leadingConst fromGlobal first names
  simp only [List.append_assoc] at hts
  have hstart : leadingConst = false →
      nextShape (ks₂ ++ (ks₃ ++ (ks₄ ++ more))) ≠ ⟨.identifier, "const"⟩ := by
    intro hnoConst
    cases hglobal with
    | absent => exact mt (firstSegment_const_iff hfirst _).1 (hnot hnoConst rfl)
    | present => exact fun heq => absurd (congrArg Shape.kind heq) TokenKind.noConfusion
  have hword : ¬ JoinsWords first (nextShape (ks₄ ++ more)) := by
    cases hnames with
    | nil => exact hends.noWord first rfl
    | cons => exact fun hjoins => absurd hjoins.2.1 TokenKind.noConfusion
  obtain ⟨h₁, hr₁⟩ := leadingConst_complete hts hconst hstart
  obtain ⟨h₂, hr₂⟩ := fromGlobal_complete hr₁ hglobal
    (by rw [nextKind_firstSegment hfirst]; decide)
  obtain ⟨r₃, h₃, hr₃⟩ := firstSegment_complete hr₂ hfirst hword
  obtain ⟨r₄, h₄, hr₄⟩ := moreSegments_complete hr₃ hnames hends.noSegment
  refine ⟨r₄, ?_, hr₄⟩
  simp only [typeHead, h₁, h₂]
  exact bind_eq_ok.2 ⟨_, h₃, bind_eq_ok.2 ⟨_, h₄, rfl⟩⟩

theorem declaratorRun_complete {ts : List Token} {ks more : List Shape} {ds : List Declarator}
    (hts : ts.map Token.shape = ks ++ more) (h : DeclaratorsDenote ks ds)
    (hends : ¬ StartsDeclarator (nextShape more)) :
    (declaratorRun ts).1 = ds ∧ (declaratorRun ts).2.map Token.shape = more := by
  induction h generalizing ts with
  | nil =>
    rw [List.nil_append] at hts
    cases ts with
    | nil => exact ⟨rfl, hts⟩
    | cons t r =>
      rw [← hts] at hends
      have hword : ¬ t.isWord "const" = true := fun hword => hends (.inl (isWord_iff.1 hword))
      have hamp : t.kind ≠ .ampersand := fun hamp => hends (.inr (.inl hamp))
      have hstar : t.kind ≠ .asterisk := fun hstar => hends (.inr (.inr hstar))
      rw [declaratorRun.eq_def]
      simp only [if_neg hword, if_neg hamp, if_neg hstar]
      exact ⟨trivial, hts⟩
  | const _ ih =>
    obtain ⟨t, r, rfl, ht, hr⟩ := List.map_eq_cons_iff.1 hts
    obtain ⟨h₁, h₂⟩ := ih hr
    rw [declaratorRun.eq_def]
    simp only [if_pos (isWord_iff.2 ht)]
    exact ⟨congrArg (Declarator.const :: ·) h₁, h₂⟩
  | ref hnext _ ih =>
    obtain ⟨t, r, rfl, ht, hr⟩ := List.map_eq_cons_iff.1 hts
    obtain ⟨h₁, h₂⟩ := ih hr
    have hamp : t.kind = .ampersand := congrArg Shape.kind ht
    rw [declaratorRun.eq_def]
    simp only [if_neg (not_isWord_of_mark hamp (by decide)), if_pos hamp]
    cases r with
    | nil => exact ⟨congrArg (Declarator.ref :: ·) h₁, h₂⟩
    | cons u r =>
      have hu : u.kind ≠ .ampersand := by
        rename_i ks ds _
        cases ks with
        | nil =>
          rw [← show (u :: r).map Token.shape = more from hr] at hends
          exact fun heq => hends (.inr (.inl heq))
        | cons k ks => rwa [← (List.cons.inj hr).1] at hnext
      simp only [if_neg hu]
      exact ⟨congrArg (Declarator.ref :: ·) h₁, h₂⟩
  | rvalueRef _ ih =>
    obtain ⟨t, r, rfl, ht, hr⟩ := List.map_eq_cons_iff.1 hts
    obtain ⟨u, r', rfl, hu, hr'⟩ := List.map_eq_cons_iff.1 hr
    obtain ⟨h₁, h₂⟩ := ih hr'
    have hamp : t.kind = .ampersand := congrArg Shape.kind ht
    rw [declaratorRun.eq_def]
    simp only [if_neg (not_isWord_of_mark hamp (by decide)), if_pos hamp,
      if_pos (show u.kind = .ampersand from congrArg Shape.kind hu)]
    exact ⟨congrArg (Declarator.rvalueRef :: ·) h₁, h₂⟩
  | pointer _ ih =>
    obtain ⟨t, r, rfl, ht, hr⟩ := List.map_eq_cons_iff.1 hts
    obtain ⟨h₁, h₂⟩ := ih hr
    have hstar : t.kind = .asterisk := congrArg Shape.kind ht
    rw [declaratorRun.eq_def]
    simp only [if_neg (not_isWord_of_mark hstar (by decide)), hstar, reduceCtorEq, if_false,
      if_true]
    exact ⟨congrArg (Declarator.pointer :: ·) h₁, h₂⟩

/-- A token that is neither a word nor a pair of colons goes on with no name. -/
theorem TypeHead.endsBefore_mark (h : TypeHead) {k : Shape} (hword : k.kind ≠ .identifier)
    (hcolons : k.kind ≠ .doubleColon) : h.EndsBefore k :=
  ⟨hcolons, fun _ _ hjoins => hword hjoins.2.1⟩

theorem TypeHead.endsBefore_declarator (h : TypeHead) {k : Shape} (hk : StartsDeclarator k) :
    h.EndsBefore k := by
  rcases hk with rfl | hk | hk
  · refine ⟨TokenKind.noConfusion, fun _ _ hjoins => ?_⟩
    exact absurd hjoins.2.2 (by decide : "const" ∉ kindWords)
  · exact h.endsBefore_mark (hk ▸ TokenKind.noConfusion) (hk ▸ TokenKind.noConfusion)
  · exact h.endsBefore_mark (hk ▸ TokenKind.noConfusion) (hk ▸ TokenKind.noConfusion)

theorem StartsDeclarator.kind_ne {k : Shape} (hk : StartsDeclarator k) : k.kind ≠ .lessThan := by
  rcases hk with rfl | hk | hk
  · exact TokenKind.noConfusion
  · exact hk ▸ TokenKind.noConfusion
  · exact hk ▸ TokenKind.noConfusion

theorem DeclaratorsDenote.starts {ks : List Shape} {ds : List Declarator}
    (h : DeclaratorsDenote ks ds) :
    ks = [] ∧ ds = [] ∨ ∀ more, StartsDeclarator (nextShape (ks ++ more)) := by
  cases h with
  | nil => exact .inl ⟨rfl, rfl⟩
  | const => exact .inr fun _ => .inl rfl
  | ref => exact .inr fun _ => .inr (.inl rfl)
  | rvalueRef => exact .inr fun _ => .inr (.inl rfl)
  | pointer => exact .inr fun _ => .inr (.inr rfl)

/-- The marks that may follow a type that has no name behind it. -/
def typeMarks : List TokenKind := [.comma, .greaterThan, .closeParen, .equals]

theorem HostType.endsBefore_mark (t : HostType) {k : Shape} (h : k.kind ∈ typeMarks) :
    t.EndsBefore k := by
  have hall : ∀ kind ∈ typeMarks, kind ≠ .identifier ∧ kind ≠ .ampersand ∧ kind ≠ .asterisk ∧
      kind ≠ .lessThan ∧ kind ≠ .doubleColon := by decide
  obtain ⟨hword, hamp, hstar, hless, hcolons⟩ := hall _ h
  refine ⟨?_, fun _ _ => hless, fun _ _ => TypeHead.endsBefore_mark _ hword hcolons⟩
  rintro (rfl | hk | hk)
  · exact hword rfl
  · exact hamp hk
  · exact hstar hk

theorem TypeHead.Denotes.nextKind {ks : List Shape} {h : TypeHead} (hh : h.Denotes ks)
    (more : List Shape) :
    Source.nextKind (ks ++ more) = .identifier ∨ Source.nextKind (ks ++ more) = .doubleColon := by
  obtain ⟨hconst, hglobal, hfirst, -, -⟩ := hh
  cases hconst with
  | present => exact .inl rfl
  | absent =>
    cases hglobal with
    | present => exact .inr rfl
    | absent =>
      simp only [List.nil_append, List.append_assoc]
      exact .inl (nextKind_firstSegment hfirst _)

theorem HostType.Denotes.nextKind {depth : Nat} {ks : List Shape} {t : HostType}
    (h : t.Denotes depth ks) (more : List Shape) :
    Source.nextKind (ks ++ more) = .identifier ∨ Source.nextKind (ks ++ more) = .doubleColon := by
  cases depth with
  | zero => exact absurd h id
  | succ depth =>
    cases h with
    | plain hhead _ =>
      rw [List.append_assoc]
      exact hhead.nextKind _
    | template hhead _ _ =>
      rw [List.append_assoc]
      exact hhead.nextKind _

/-- An argument is followed by a comma or by the bracket that closes the arguments. -/
def EndsArgument (kind : TokenKind) : Prop := kind = .comma ∨ kind = .greaterThan

theorem TemplateArg.step_complete {depth : Nat}
    (htype : ∀ ts ks t more, ts.map Token.shape = ks ++ more → HostType.Denotes depth ks t →
      t.EndsBefore (nextShape more) →
      ∃ rest, HostType.step ts = .ok (t, rest) ∧ rest.map Token.shape = more) :
    TemplateArg.step.Complete (ArgumentDenotes (HostType.Denotes depth)) EndsArgument := by
  intro ts ks a more hts ha hends
  unfold TemplateArg.step
  rw [← nextKind_map, hts]
  cases ha with
  | type ht =>
    have hmark : nextKind more ∈ typeMarks := by
      rcases hends with h | h <;> rw [h] <;> decide
    obtain ⟨rest, hrest, hmore⟩ := htype _ _ _ _ hts ht (HostType.endsBefore_mark _ hmark)
    rw [if_pos (ht.nextKind more)]
    exact ⟨rest, bind_eq_ok.2 ⟨_, hrest, rfl⟩, hmore⟩
  | constant hconstant hstarts =>
    have hconstantEnds : EndsConstant (nextKind more) := by
      rcases hends with h | h
      · exact .inl h
      · exact .inr (.inl h)
    obtain ⟨rest, hrest, hmore⟩ := constantArgument_complete hts hconstant hconstantEnds
    have hnot : ¬ (nextKind (ks ++ more) = .identifier ∨ nextKind (ks ++ more) = .doubleColon) := by
      obtain ⟨k, js, rfl, -, -⟩ := hconstant.cons
      exact not_or.2 hstarts
    rw [if_neg hnot]
    exact ⟨rest, hrest, hmore⟩

theorem HostType.step_complete {depth : Nat} (ts : List Token) (ks : List Shape) (t : HostType)
    (more : List Shape) (hts : ts.map Token.shape = ks ++ more) (h : t.Denotes depth ks)
    (hends : t.EndsBefore (nextShape more)) :
    ∃ rest, HostType.step ts = .ok (t, rest) ∧ rest.map Token.shape = more := by
  induction depth generalizing ts ks t more with
  | zero => exact absurd h id
  | succ depth ih =>
    rw [HostType.step_eq]
    cases h with
    | @plain ks ks₂ head ds hhead hds =>
      rw [List.append_assoc] at hts
      have hbehind : (nextShape (ks₂ ++ more)).kind ≠ .lessThan ∧
          head.EndsBefore (nextShape (ks₂ ++ more)) := by
        rcases hds.starts with ⟨rfl, rfl⟩ | hstarts
        · exact ⟨hends.noArguments rfl rfl, hends.noName rfl rfl⟩
        · exact ⟨(hstarts more).kind_ne, head.endsBefore_declarator (hstarts more)⟩
      obtain ⟨r, hr, hmore⟩ := typeHead_complete hts hhead hbehind.2
      obtain ⟨hdeclarators, hrest⟩ := declaratorRun_complete hmore hds hends.noDeclarator
      refine ⟨(declaratorRun r).2, bind_eq_ok.2 ⟨_, hr, ?_⟩, hrest⟩
      cases r with
      | nil =>
        rw [← hdeclarators]
        rfl
      | cons u r =>
        rw [← hmore] at hbehind
        rw [← hdeclarators]
        exact if_neg hbehind.1
    | @template x y ks ks₂ ks₃ head as ds hhead hargs hds =>
      simp only [List.append_assoc, List.cons_append] at hts
      obtain ⟨r, hr, hmore⟩ := typeHead_complete hts hhead
        (head.endsBefore_mark TokenKind.noConfusion TokenKind.noConfusion)
      obtain ⟨u, r₁, rfl, hu, hr₁⟩ := List.map_eq_cons_iff.1 hmore
      obtain ⟨r₂, h₂, hr₂⟩ := (readsSeparated_commaSeparated _ TemplateArg.step_consumes).complete
        (TemplateArg.step_complete ih) (.inl rfl) _ _ _ _ hr₁ hargs
        ⟨.inr rfl, TokenKind.noConfusion⟩
      obtain ⟨v, r₃, h₃, -, hr₃⟩ := expect_complete hr₂ .closeTemplate
      obtain ⟨hdeclarators, hrest⟩ := declaratorRun_complete hr₃ hds hends.noDeclarator
      refine ⟨(declaratorRun r₃).2, bind_eq_ok.2 ⟨_, hr, ?_⟩, hrest⟩
      rw [← hdeclarators]
      refine (if_pos (show u.kind = .lessThan from congrArg Shape.kind hu)).trans ?_
      exact bind_eq_ok.2 ⟨_, h₂, bind_eq_ok.2 ⟨_, h₃, rfl⟩⟩

theorem Param.step_complete : Param.step.Complete Param.Denotes EndsItem := by
  rintro ts _ _ more hts ⟨htype, hname, hdefault, hends⟩ hstops
  rename_i depth ks₁ ks₂ ks₃ type name? default?
  simp only [List.append_assoc] at hts
  have hnext : nextKind (ks₃ ++ more) ∈ typeMarks := by
    cases hdefault with
    | absent => rcases hstops with h | h <;> rw [List.nil_append, h] <;> decide
    | present => exact (by decide : TokenKind.equals ∈ typeMarks)
  have hnotName : nextKind (ks₃ ++ more) ≠ .identifier := by
    intro h
    rw [h] at hnext
    exact absurd hnext (by decide)
  have htypeEnds : type.EndsBefore (nextShape (ks₂ ++ (ks₃ ++ more))) := by
    cases hname with
    | absent => exact type.endsBefore_mark hnext
    | present name => exact hends name rfl
  obtain ⟨r₁, h₁, hr₁⟩ := HostType.step_complete _ _ _ _ hts htype htypeEnds
  obtain ⟨r₂, h₂, hr₂⟩ := optionalName_complete _ _ _ _ hr₁ hname hnotName
  obtain ⟨r₃, h₃, hr₃⟩ := behind_complete defaultValue_complete _ _ _ _ hr₂ hdefault
    ⟨hstops.endsDefault, hstops.ne (by decide) (by decide)⟩
  refine ⟨r₃, bind_eq_ok.2 ⟨_, h₁, ?_⟩, hr₃⟩
  simp only [Except.ok.inj h₂]
  exact bind_eq_ok.2 ⟨_, h₃, rfl⟩

theorem Param.Denotes.nextKind_ne {ks : List Shape} {p : Param} (h : Param.Denotes ks p)
    (more : List Shape) : nextKind (ks ++ more) ≠ .closeParen := by
  obtain ⟨htype, -, -, -⟩ := h
  rw [List.append_assoc, List.append_assoc]
  rcases htype.nextKind _ with h | h <;> rw [h] <;> decide

theorem dropWhile_specifiers {ts : List Token} {ks more : List Shape}
    (hts : ts.map Token.shape = ks ++ more) (hne : ks ≠ []) (h : ¬ IsSpecifier (nextShape ks)) :
    ts.dropWhile isSpecifier = ts := by
  cases ts with
  | nil => rfl
  | cons t r =>
    rw [← nextShape_append hne, ← hts] at h
    exact List.dropWhile_cons_of_neg (mt isSpecifier_iff.1 h)

/-- A declaration is read when its parts are read one behind the other. -/
theorem Declaration.step_of_parts {ts r₁ r₂ r₃ r₄ r₅ rest : List Token} {d : Declaration}
    {name x y : Token} {params : List Param}
    (hlocation : (next (ts.dropWhile isSpecifier)).location = d.location)
    (hreturn : HostType.step (ts.dropWhile isSpecifier) = .ok (d.returnType, r₁))
    (hname : expect .identifier .functionName r₁ = .ok (name, r₂)) (htext : name.text = d.name)
    (hopen : expect .openParen .openParen r₂ = .ok (x, r₃))
    (hparams : listed Param.step Param.step_consumes r₃ = .ok (params, r₄))
    (hvoid : withoutVoid params = d.params)
    (hclose : expect .closeParen .closeParen r₄ = .ok (y, r₅))
    (hterminator : expect .semicolon .endOfDeclaration r₅ = .ok (d.terminator, rest)) :
    Declaration.step ts = .ok (d, rest) := by
  refine bind_eq_ok.2 ⟨_, hreturn, bind_eq_ok.2 ⟨_, hname, bind_eq_ok.2 ⟨_, hopen,
    bind_eq_ok.2 ⟨_, hparams, bind_eq_ok.2 ⟨_, hclose, bind_eq_ok.2 ⟨_, hterminator, ?_⟩⟩⟩⟩⟩⟩
  simp only [hlocation, htext, hvoid]
  rfl

theorem Declaration.step_complete {ts : List Token} {ks more : List Shape} {returnType : HostType}
    {name : String} {params : List Param} (hts : ts.map Token.shape = ks ++ more)
    (h : DeclarationDenotes ks returnType name params) :
    ∃ d rest, Declaration.step ts = .ok (d, rest) ∧ rest.map Token.shape = more ∧
      d.returnType = returnType ∧ d.name = name ∧ d.params = params := by
  obtain ⟨hreturn, hspecifier, hends, hparams⟩ := h
  rename_i x y z depth ks₁ ks₂ params
  simp only [List.append_assoc, List.cons_append] at hts
  have hfirst := dropWhile_specifiers hts hreturn.ne_nil hspecifier
  obtain ⟨r₁, h₁, hr₁⟩ := HostType.step_complete _ _ _ _ hts hreturn hends
  obtain ⟨t₂, r₂, h₂, rfl, hr₂⟩ := expect_complete hr₁ .functionName
  obtain ⟨t₃, r₃, h₃, -, hr₃⟩ := expect_complete hr₂ .openParen
  obtain ⟨r₄, h₄, hr₄⟩ := listed_complete Param.step_complete (.inl rfl) (.inr rfl)
    (fun _ _ more hp => hp.nextKind_ne more) _ _ _ _ hr₃ hparams rfl
  obtain ⟨t₅, r₅, h₅, -, hr₅⟩ := expect_complete hr₄ .closeParen
  obtain ⟨t₆, r₆, h₆, -, hr₆⟩ := expect_complete hr₅ .endOfDeclaration
  refine ⟨⟨returnType, t₂.text, withoutVoid params, t₆, (next ts).location⟩, r₆, ?_, hr₆, rfl, rfl,
    rfl⟩
  rw [← hfirst] at h₁
  exact Declaration.step_of_parts (by rw [hfirst]) h₁ h₂ rfl h₃ h₄ rfl h₅ h₆

/-- A declaration with nothing behind it is the only one. -/
theorem declarationsOf_of_step {ts rest : List Token} {d : Declaration}
    (hts : (next ts).kind ≠ .eof) (hd : Declaration.step ts = .ok (d, rest))
    (hrest : (next rest).kind = .eof) : declarationsOf ts = .ok [d] := by
  have hend : declarationsOf rest = .ok [] := by rw [declarationsOf, if_pos hrest]
  rw [declarationsOf, if_neg hts]
  split <;> rename_i h <;> cases hd.symm.trans h
  rw [hend]
  rfl

/-- A text with the tokens of one declaration is read as this declaration. -/
theorem declarations_of_step {text : String} {ts rest : List Token} {d : Declaration}
    (htext : tokenize text = .ok ts) (hts : (next ts).kind ≠ .eof)
    (hd : Declaration.step ts = .ok (d, rest)) (hrest : (next rest).kind = .eof) :
    declarations text = .ok [d] := by
  rw [declarations, Source.read, htext]
  simp only [declarationsOf_of_step hts hd hrest]

/-- Tokens that denote a declaration, and nothing behind them, are read as this declaration. -/
theorem declarationsOf_complete {ts : List Token} {ks : List Shape} {returnType : HostType}
    {name : String} {params : List Param} (hts : ts.map Token.shape = ks ++ [Shape.endOfText])
    (h : DeclarationDenotes ks returnType name params) :
    ∃ d, declarationsOf ts = .ok [d] ∧ d.returnType = returnType ∧ d.name = name ∧
      d.params = params := by
  obtain ⟨d, rest, hstep, hrest, hparts⟩ := Declaration.step_complete hts h
  have hnotEnd : (next ts).kind ≠ .eof := by
    rw [← nextKind_map, hts]
    obtain ⟨hreturn, -, -, -⟩ := h
    rw [List.append_assoc]
    rcases hreturn.nextKind _ with h | h <;> rw [h] <;> decide
  refine ⟨d, declarationsOf_of_step hnotEnd hstep ?_, hparts⟩
  rw [← nextKind_map, hrest]
  rfl

/-! ## What is refused -/

/-- No type starts with another token than a word or a pair of colons. -/
theorem HostType.step_refuses {ts : List Token}
    (hword : nextKind (ts.map Token.shape) ≠ .identifier)
    (hcolons : nextKind (ts.map Token.shape) ≠ .doubleColon) :
    ∃ e, HostType.step ts = .error e := by
  cases h : HostType.step ts with
  | error e => exact ⟨e, rfl⟩
  | ok parts =>
    obtain ⟨ks, hks, hdenotes, -⟩ := HostType.step_sound (Nat.le_refl _) h
    rw [hks] at hword hcolons
    exact absurd (hdenotes.nextKind _) (not_or.2 ⟨hword, hcolons⟩)

/-- A comma behind the last parameter is refused. -/
theorem Declaration.step_refuses {x y name : String} {depth : Nat} {ts : List Token}
    {ks ks₂ more : List Shape} {returnType : HostType} {params : List Param}
    (hreturn : returnType.Denotes depth ks) (hspecifier : ¬ IsSpecifier (nextShape ks))
    (hends : returnType.EndsBefore ⟨.identifier, name⟩)
    (hparams : Followed .comma Param.Denotes ks₂ params) (hne : params ≠ [])
    (hts : ts.map Token.shape = ks ++ (⟨.identifier, name⟩ :: ⟨.openParen, x⟩ ::
      (ks₂ ++ ⟨.closeParen, y⟩ :: more))) :
    ∃ e, Declaration.step ts = .error e := by
  have hfirst := dropWhile_specifiers hts hreturn.ne_nil hspecifier
  have hlast : ∀ r : List Token, r.map Token.shape = ⟨.closeParen, y⟩ :: more →
      ∃ e, Param.step r = .error e := by
    intro r hr
    obtain ⟨e, he⟩ : ∃ e, HostType.step r = .error e := by
      refine HostType.step_refuses ?_ ?_ <;> rw [hr] <;> exact TokenKind.noConfusion
    exact ⟨e, by simp only [Param.step, he, bind, Except.bind]⟩
  obtain ⟨r₁, h₁, hr₁⟩ := HostType.step_complete _ _ _ _ hts hreturn hends
  obtain ⟨t₂, r₂, h₂, -, hr₂⟩ := expect_complete hr₁ .functionName
  obtain ⟨t₃, r₃, h₃, -, hr₃⟩ := expect_complete hr₂ .openParen
  have hnotEnd : (next r₃).kind ≠ .closeParen := by
    rw [← nextKind_map, hr₃]
    cases hparams with
    | nil => exact absurd rfl hne
    | cons hp _ =>
      rw [List.append_assoc]
      exact hp.nextKind_ne _
  obtain ⟨e, he⟩ := (readsSeparated_commaSeparated _ Param.step_consumes).refuses
    Param.step_complete (.inl rfl) hlast hparams hr₃
  refine ⟨e, ?_⟩
  simp only [Declaration.step, hfirst, h₁, h₂, h₃, listed, if_neg hnotEnd, he, bind, Except.bind]

end KernelGen.Host
