import KernelGen.Proofs.Host.Rendering
import KernelGen.Proofs.Source.Merging
set_option autoImplicit false

/-!
# Host: which tokens a written parameter has

A parameter is written from what it denotes, with blanks where the grammar needs them.  Only the
constants among its template arguments and its default value are written as the texts of their
tokens, one behind the other, because nobody interprets them.  So a written parameter has the
tokens that it was read from unless two neighbours merge in such a run, or a constant that ends in
a minus makes an arrow out of the bracket behind it.

`Param.Kept` says that neither happens, and `tokenize_params_iff` that this is exactly when the
text of a parameter has the tokens that the parameter was read from.
-/

namespace KernelGen.Host

open Source
open Schema (Readable EndsItem nameText optionalText reads_nameText)

/-! ## Runs that are written without anything between their tokens -/

/-- `argument := type | constant`, with no neighbours in a constant that merge. -/
inductive ArgumentKept (Nested : List Shape → HostType → Prop) :
    List Shape → TemplateArg HostType → Prop where
  | type {ks : List Shape} {t : HostType} : Nested ks t → ArgumentKept Nested ks (.type t)
  | constant {ks : List Shape} {text : String} : Constant ks text → StartsConstant ks →
      Mergeless ks → ArgumentKept Nested ks (.constant text)

/-- What types denote that are nested at most `depth` deep, with no neighbours in a constant that
merge, and no minus in front of a bracket that closes arguments. -/
def HostType.Kept : Nat → List Shape → HostType → Prop
  | 0 => fun _ _ => False
  | depth + 1 => fun ks t => TypeDenotes (ArgumentKept (HostType.Kept depth)) ks t ∧
      ∀ a ∈ t.arguments.getLast?, a.endsInMinus = false

/-- The text of a default value, from its tokens, with no neighbours that merge. -/
def DefaultKept (ks : List Shape) (text : String) : Prop := DefaultValue ks text ∧ Mergeless ks

/-- `param := type [name] [= default]`, with no neighbours that merge in a constant of the type or
in the default value. -/
inductive Param.Kept : List Shape → Param → Prop where
  | mk {depth : Nat} {ks ks₂ ks₃ : List Shape} {type : HostType} {name? default? : Option String} :
      type.Kept depth ks → OptionalName ks₂ name? → Behind .equals DefaultKept ks₃ default? →
      (∀ name ∈ name?, type.EndsBefore ⟨.identifier, name⟩) →
      Kept (ks ++ ks₂ ++ ks₃) ⟨type, name?, default?⟩

/-! ## What is kept is denoted -/

theorem ArgumentKept.denotes {Nested Nested' : List Shape → HostType → Prop}
    (himp : ∀ ks t, Nested ks t → Nested' ks t) {ks : List Shape} {a : TemplateArg HostType}
    (h : ArgumentKept Nested ks a) : ArgumentDenotes Nested' ks a := by
  cases h with
  | type ht => exact .type (himp _ _ ht)
  | constant hconstant hstarts _ => exact .constant hconstant hstarts

theorem HostType.Kept.denotes {depth : Nat} {ks : List Shape} {t : HostType}
    (h : t.Kept depth ks) : t.Denotes depth ks := by
  induction depth generalizing ks t with
  | zero => exact h
  | succ depth ih =>
    obtain ⟨h, -⟩ := h
    cases h with
    | plain hhead hds => exact .plain hhead hds
    | template hhead hargs hds =>
      have hdenoted := hargs.imp fun _ _ ha => ha.denotes fun _ _ ht => ih ht
      exact .template hhead hdenoted hds

/-! ## Constants -/

theorem Enclosed.ne_eof {depth : Nat} {ks : List Shape} (h : Enclosed depth ks) :
    ∀ k ∈ ks, k.kind ≠ .eof := by
  induction h with
  | nil => exact List.forall_mem_nil _
  | cons heof _ _ ih => exact List.forall_mem_cons.2 ⟨heof, ih⟩

theorem Constant.spelled {ks : List Shape} {text : String} (h : Constant ks text)
    (hks : Readable ks) : ∀ k ∈ ks, k.Spelled := by
  obtain ⟨henclosed, -⟩ := h
  exact fun k hk => hks k hk (henclosed.ne_eof k hk)

/-- What stands behind a template argument: a comma, or the bracket that closes the arguments. -/
def BehindArgument (rest : List Char) : Prop := ∃ more, rest = ',' :: more ∨ rest = '>' :: more

theorem BehindArgument.apart {rest : List Char} (h : BehindArgument rest) : Apart rest := by
  obtain ⟨more, rfl | rfl⟩ := h <;> exact apart_cons.2 rfl

theorem EndsWritten.behindArgument {a : TemplateArg HostType} {rest : List Char}
    (h : EndsWritten a rest) : BehindArgument rest := by
  rcases h with ⟨more, rfl⟩ | ⟨-, more, rfl⟩
  · exact ⟨more, .inl rfl⟩
  · exact ⟨more, .inr rfl⟩

theorem Constant.toList_eq {ks : List Shape} {text : String} (h : Constant ks text) :
    text.toList = joinedChars ks := by
  obtain ⟨-, -⟩ := h
  exact toList_join_text ks

/-- A constant goes on behind its last token only if a minus ends it and a bracket follows. -/
theorem Constant.endsWritten_iff {ks : List Shape} {text : String} (h : Constant ks text)
    (hks : ∀ k ∈ ks, k.Spelled) {rest : List Char} (hrest : BehindArgument rest) :
    (∀ k ∈ ks.getLast?, ¬ k.GrowsInto rest) ↔ EndsWritten (.constant text) rest := by
  obtain ⟨more, rfl | rfl⟩ := hrest
  · exact ⟨fun _ => .inl ⟨more, rfl⟩, fun _ k _ => k.not_growsInto_comma more⟩
  · have hlast : (TemplateArg.constant text).endsInMinus = false ↔
        ∀ k ∈ ks.getLast?, ¬ k.GrowsInto ('>' :: more) := by
      rw [TemplateArg.endsInMinus, beq_eq_false_iff_ne, Ne, h.toList_eq, getLast?_joinedChars hks]
      simp only [Shape.growsInto_bracket_iff, not_exists, not_and]
    rw [← hlast]
    constructor
    · exact fun hminus => .inr ⟨hminus, more, rfl⟩
    · rintro (⟨_, heq⟩ | ⟨hminus, -⟩)
      · cases heq
      · exact hminus

/-! ## Arguments -/

/-- Kept types of a nesting depth have the tokens they were read from. -/
def KeptRead (depth : Nat) : Prop :=
  ∀ ks t, HostType.Kept depth ks t → Readable ks → Reads t.text ks

/-- Types of a nesting depth that have the tokens they were read from are kept. -/
def ReadKept (depth : Nat) : Prop :=
  ∀ ks t rest ks', HostType.Denotes depth ks t → Readable ks → Apart rest →
    Cuts (t.text.toList ++ rest) (ks ++ ks') [] → HostType.Kept depth ks t ∧ Cuts rest ks' []

section Arguments

variable {depth : Nat} {ks ks' : List Shape} {a : TemplateArg HostType}
  {as : List (TemplateArg HostType)} {rest : List Char}

theorem ArgumentKept.cuts (htypes : KeptRead depth) (h : ArgumentKept (HostType.Kept depth) ks a)
    (hks : Readable ks) (hrest : EndsWritten a rest) : Cuts (a.text.toList ++ rest) ks rest := by
  cases h with
  | type ht => exact htypes _ _ ht hks rest hrest.apart
  | constant hconstant hstarts hmergeless =>
    have hspelled := hconstant.spelled hks
    have hlast := (hconstant.endsWritten_iff hspelled hrest.behindArgument).2 hrest
    rw [TemplateArg.text, hconstant.toList_eq]
    exact cuts_join hspelled hrest.apart hmergeless hlast

theorem argumentKept_of_cuts (htypes : ReadKept depth)
    (h : ArgumentDenotes (HostType.Denotes depth) ks a) (hks : Readable ks)
    (hrest : BehindArgument rest) (hcuts : Cuts (a.text.toList ++ rest) (ks ++ ks') []) :
    ArgumentKept (HostType.Kept depth) ks a ∧ EndsWritten a rest ∧ Cuts rest ks' [] := by
  cases h with
  | type ht =>
    obtain ⟨hkept, hmore⟩ := htypes _ _ _ _ ht hks hrest.apart hcuts
    refine ⟨.type hkept, ?_, hmore⟩
    obtain ⟨more, rfl | rfl⟩ := hrest
    · exact .inl ⟨more, rfl⟩
    · exact .inr ⟨rfl, more, rfl⟩
  | constant hconstant hstarts =>
    have hspelled := hconstant.spelled hks
    rw [TemplateArg.text, hconstant.toList_eq] at hcuts
    obtain ⟨hmergeless, hlast, hmore⟩ := (cuts_join_iff hspelled hrest.apart).1 hcuts
    have hends := (hconstant.endsWritten_iff hspelled hrest).1 hlast
    exact ⟨.constant hconstant hstarts hmergeless, hends, hmore⟩

theorem arguments_cuts (htypes : KeptRead depth)
    (h : Separated .comma (ArgumentKept (HostType.Kept depth)) ks as) (hks : Readable ks)
    (hlast : ∀ a ∈ as.getLast?, a.endsInMinus = false) (rest : List Char) :
    Cuts ((", ".intercalate (TemplateArg.texts as)).toList ++ '>' :: rest) ks ('>' :: rest) := by
  induction h with
  | @one ks a ha =>
    rw [TemplateArg.texts, TemplateArg.texts, String.intercalate_singleton]
    exact ha.cuts htypes hks (.inr ⟨hlast a rfl, rest, rfl⟩)
  | @more x ks ks' a as ha has ih =>
    obtain rfl : x = "," := hks.right.oneChar (c := ',') (by decide)
    have hdenoted := has.imp fun _ _ ha => ha.denotes fun _ _ ht => ht.denotes
    have hstarts := startsVisibly_arguments hdenoted hks.right.tail
    rw [List.getLast?_cons_of_ne_nil has.ne_nil] at hlast
    have hmore := ih hks.right.tail hlast
    rw [toList_arguments_cons has.ne_nil]
    exact (ha.cuts htypes hks.left (.inl ⟨_, rfl⟩)).append ((cuts_comma hstarts _).append hmore)

theorem argumentsKept_of_cuts (htypes : ReadKept depth)
    (h : Separated .comma (ArgumentDenotes (HostType.Denotes depth)) ks as) (hks : Readable ks)
    (hcuts : Cuts ((", ".intercalate (TemplateArg.texts as)).toList ++ '>' :: rest) (ks ++ ks')
      []) :
    Separated .comma (ArgumentKept (HostType.Kept depth)) ks as ∧
      (∀ a ∈ as.getLast?, a.endsInMinus = false) ∧ Cuts ('>' :: rest) ks' [] := by
  induction h with
  | @one ks a ha =>
    rw [TemplateArg.texts, TemplateArg.texts, String.intercalate_singleton] at hcuts
    obtain ⟨hkept, hends, hmore⟩ :=
      argumentKept_of_cuts htypes ha hks ⟨rest, .inr rfl⟩ hcuts
    refine ⟨.one hkept, ?_, hmore⟩
    rcases hends with ⟨_, heq⟩ | ⟨hminus, -⟩
    · cases heq
    · exact fun b hb => Option.some.inj hb ▸ hminus
  | @more x ks₁ ks₂ a as ha has ih =>
    obtain rfl : x = "," := hks.right.oneChar (c := ',') (by decide)
    have hstarts := startsVisibly_arguments has hks.right.tail
    rw [toList_arguments_cons has.ne_nil, List.append_assoc] at hcuts
    obtain ⟨hkept, -, hbehind⟩ := argumentKept_of_cuts htypes ha hks.left ⟨_, .inl rfl⟩ hcuts
    obtain ⟨hmoreKept, hlast, hmore⟩ :=
      ih hks.right.tail ((cuts_comma hstarts _).append_iff.1 hbehind)
    refine ⟨.more hkept hmoreKept, ?_, hmore⟩
    rwa [List.getLast?_cons_of_ne_nil has.ne_nil]

end Arguments

/-! ## Types -/

theorem keptRead (depth : Nat) : KeptRead depth := by
  induction depth with
  | zero => exact fun _ _ h => absurd h id
  | succ depth ih =>
    rintro ks t ⟨h, hlast⟩ hks
    cases h with
    | @plain ks ks₂ head ds hhead hds =>
      exact head.reads_plain hhead hds hks
    | @template x y ks ks₂ ks₃ head as ds hhead hargs hds =>
      obtain rfl : x = "<" := hks.right.oneChar (c := '<') (by decide)
      obtain rfl : y = ">" := hks.right.tail.right.oneChar (c := '>') (by decide)
      obtain ⟨hreads, -⟩ := hhead.reads_text hks.left
      obtain ⟨hreadsDs, -⟩ := hds.reads_text hks.right.tail.right.tail
      intro rest hrest
      have hinner := arguments_cuts ih hargs hks.right.tail.left hlast
        ((String.join (ds.map Declarator.text)).toList ++ rest)
      have hbehind := hinner.append (.token rfl (hreadsDs rest hrest))
      have hall := (head.cuts_open hreads hargs.ne_nil ds rest).append hbehind
      rwa [List.append_assoc] at hall

theorem readKept (depth : Nat) : ReadKept depth := by
  induction depth with
  | zero => exact fun _ _ _ _ h => absurd h id
  | succ depth ih =>
    intro ks t rest ks' h hks hrest hcuts
    cases h with
    | @plain ks ks₂ head ds hhead hds =>
      have hmore := (head.reads_plain hhead hds hks rest hrest).append_iff.1 hcuts
      have hlast : ∀ a ∈ ([] : List (TemplateArg HostType)).getLast?, a.endsInMinus = false := by
        simp
      exact ⟨⟨.plain hhead hds, hlast⟩, hmore⟩
    | @template x y ks ks₂ ks₃ head as ds hhead hargs hds =>
      obtain rfl : x = "<" := hks.right.oneChar (c := '<') (by decide)
      obtain rfl : y = ">" := hks.right.tail.right.oneChar (c := '>') (by decide)
      obtain ⟨hreads, -⟩ := hhead.reads_text hks.left
      obtain ⟨hreadsDs, -⟩ := hds.reads_text hks.right.tail.right.tail
      -- The tokens are cancelled from the left: the head with its bracket, the arguments, the
      -- closing bracket and the declarators.
      have hsplit : ks ++ ⟨.lessThan, "<"⟩ :: (ks₂ ++ ⟨.greaterThan, ">"⟩ :: ks₃) ++ ks' =
          (ks ++ [⟨.lessThan, "<"⟩]) ++ (ks₂ ++ ([⟨.greaterThan, ">"⟩] ++ (ks₃ ++ ks'))) := by
        simp
      rw [hsplit] at hcuts
      have hinner := (head.cuts_open hreads hargs.ne_nil ds rest).append_iff.1 hcuts
      obtain ⟨hkept, hlast, hclose⟩ := argumentsKept_of_cuts ih hargs hks.right.tail.left hinner
      have hbehind := (Cuts.token rfl .done).append_iff.1 hclose
      have hmore := (hreadsDs rest hrest).append_iff.1 hbehind
      exact ⟨⟨.template hhead hkept hds, hlast⟩, hmore⟩

/-! ## Default values -/

theorem apart_default (default? : Option String) :
    Apart (optionalText (" " ++ "=" ++ " " ++ ·) default?).toList := by
  cases default? with
  | none => exact apart_nil
  | some text =>
    have h := keepsApart_blank ("=" ++ (" " ++ text)) [] apart_nil
    rw [List.append_nil, ← String.append_assoc, ← String.append_assoc] at h
    exact h

theorem cuts_equals {s : String} (hs : StartsVisibly s) :
    Cuts (" " ++ "=" ++ " " ++ s).toList [⟨.equals, "="⟩] s.toList := by
  have hblank : Cuts (' ' :: s.toList) [] s.toList := by
    have h := hs.head []
    rw [List.append_nil] at h
    exact cuts_blank .done h
  have hequals : Cuts (' ' :: '=' :: ' ' :: s.toList) [⟨.equals, "="⟩] s.toList :=
    cuts_blank (.token rfl hblank) fun c hc => Option.some.inj hc ▸ rfl
  rw [String.toList_append]
  exact hequals

theorem defaultKept_iff {ks : List Shape} {text : String} (h : DefaultValue ks text)
    (hks : Readable ks) : DefaultKept ks text ↔ Cuts text.toList ks [] := by
  have hspelled := h.spelled hks
  have hlast : ∀ k ∈ ks.getLast?, ¬ k.GrowsInto [] := fun k _ => k.not_growsInto_nil
  have hjoin : Cuts (joinedChars ks ++ []) (ks ++ []) [] ↔
      Mergeless ks ∧ (∀ k ∈ ks.getLast?, ¬ k.GrowsInto []) ∧ Cuts [] [] [] :=
    cuts_join_iff hspelled apart_nil
  rw [List.append_nil, List.append_nil, ← h.toList_eq] at hjoin
  rw [hjoin, DefaultKept]
  exact ⟨fun hkept => ⟨hkept.2, hlast, .done⟩, fun hcuts => ⟨h, hcuts.1⟩⟩

theorem behindKept_iff {ks : List Shape} {default? : Option String}
    (h : Behind .equals DefaultValue ks default?) (hks : Readable ks) :
    Behind .equals DefaultKept ks default? ↔
      Cuts (optionalText (" " ++ "=" ++ " " ++ ·) default?).toList ks [] := by
  cases h with
  | absent => exact ⟨fun _ => .done, fun _ => .absent⟩
  | @present x ks text hvalue =>
    obtain rfl : x = "=" := hks.oneChar (c := '=') (by decide)
    have hequals : Cuts (" " ++ "=" ++ " " ++ text).toList ([⟨.equals, "="⟩] ++ ks) [] ↔
        Cuts text.toList ks [] := (cuts_equals (hvalue.startsVisibly hks.tail)).append_iff
    rw [optionalText, ← List.singleton_append, hequals, ← defaultKept_iff hvalue hks.tail]
    constructor
    · rintro (_ | hkept)
      exact hkept
    · exact .present

/-! ## Parameters -/

/-- The text of the parameter has these tokens. -/
def Param.WrittenAs (p : Param) (ks : List Shape) : Prop :=
  ∃ ts, tokenize p.text = .ok ts ∧ ts.map Token.shape = ks ++ [Shape.endOfText]

/-- The parameter is read where these tokens stand in front of a comma or of the parenthesis that
closes the parameters, and takes these tokens. -/
def Param.ReadFrom (p : Param) (ks : List Shape) : Prop :=
  ∀ ts more, ts.map Token.shape = ks ++ more → EndsItem (nextKind more) →
    ∃ rest, Param.step ts = .ok (p, rest) ∧ rest.map Token.shape = more

theorem Param.Denotes.readFrom {ks : List Shape} {p : Param} (h : Param.Denotes ks p) :
    p.ReadFrom ks := fun ts more hts hmore => Param.step_complete ts ks p more hts h hmore

theorem Param.writtenAs_iff {p : Param} {ks : List Shape} :
    p.WrittenAs ks ↔ Cuts p.text.toList ks [] := by
  constructor
  · rintro ⟨ts, hts, hks⟩
    obtain ⟨js, hcuts, hjs⟩ := exists_cuts hts
    rw [hks] at hjs
    rwa [List.append_cancel_right hjs]
  · exact exists_tokens

theorem Param.text_eq (p : Param) : p.text.toList = p.type.text.toList ++
    ((nameText p.name?).toList ++ (optionalText (" " ++ "=" ++ " " ++ ·) p.default?).toList) := by
  rw [Param.text, nameAndDefault_eq, String.toList_append, String.toList_append]

/-- The text of a parameter is cut into the tokens it was read from exactly if it is kept. -/
theorem Param.Denotes.cuts_text_iff {ks : List Shape} {p : Param} (h : Param.Denotes ks p)
    (hks : Readable ks) : Cuts p.text.toList ks [] ↔ p.Kept ks := by
  rw [Param.text_eq]
  constructor
  · obtain ⟨htype, hname, hdefault, hends⟩ := h
    rename_i depth ks₁ ks₂ ks₃ type name? default?
    intro hcuts
    obtain ⟨hreadsName, hapartName⟩ := reads_nameText hname hks.left.right
    have hapart := hapartName _ (apart_default default?)
    rw [List.append_assoc] at hcuts
    obtain ⟨htypeKept, hbehind⟩ := readKept depth _ _ _ _ htype hks.left.left hapart hcuts
    have hvalue := (hreadsName _ (apart_default default?)).append_iff.1 hbehind
    exact .mk htypeKept hname ((behindKept_iff hdefault hks.right).2 hvalue) hends
  · rintro ⟨htype, hname, hdefault, -⟩
    rename_i depth ks₁ ks₂ ks₃ type name? default?
    obtain ⟨hreadsName, hapartName⟩ := reads_nameText hname hks.left.right
    have hapart := hapartName _ (apart_default default?)
    have htypeCuts := keptRead depth _ _ htype hks.left.left _ hapart
    have hvalue := (behindKept_iff (hdefault.imp fun _ _ h => h.1) hks.right).1 hdefault
    rw [List.append_assoc]
    exact htypeCuts.append ((hreadsName _ (apart_default default?)).append hvalue)

theorem Param.Denotes.writtenAs_iff {ks : List Shape} {p : Param} (h : Param.Denotes ks p)
    (hks : Readable ks) : p.WrittenAs ks ↔ p.Kept ks :=
  Param.writtenAs_iff.trans (h.cuts_text_iff hks)

/-! ## Declarations -/

/-- Between the parentheses of the declaration stand these items, a comma between each two, and they
are its parameters. -/
def Declaration.ParamsAmong (d : Declaration) (ks : List Shape)
    (Item : List Shape → Param → Prop) : Prop :=
  ∃ front x js y back params,
    ks = front ++ ⟨.identifier, d.name⟩ :: ⟨.openParen, x⟩ :: (js ++ ⟨.closeParen, y⟩ :: back) ∧
      d.params = withoutVoid params ∧ Listed Item js params

theorem Listed.of_readable {α : Type} {D D' : List Shape → α → Prop}
    (himp : ∀ ks a, D ks a → Readable ks → D' ks a) {ks : List Shape} {as : List α}
    (h : Listed D ks as) (hks : Readable ks) : Listed D' ks as := by
  cases h with
  | none => exact .none
  | some h =>
    refine .some ?_
    induction h with
    | one ha => exact .one (himp _ _ ha hks)
    | more ha _ ih => exact .more (himp _ _ ha hks.left) (ih hks.right.tail)

theorem DeclarationDenotes.paramsAmong {ks : List Shape} {d : Declaration}
    (h : DeclarationDenotes ks d.returnType d.name d.params) (hks : Readable ks)
    (front back : List Shape) :
    d.ParamsAmong (front ++ (ks ++ back)) fun js p =>
      p.ReadFrom js ∧ (p.WrittenAs js ↔ p.Kept js) := by
  obtain ⟨returnType, name, ps, terminator, location⟩ := d
  obtain ⟨-, -, -, hparams⟩ := h
  rename_i x y z depth ks₁ ks₂ params
  have hitems : Listed (fun js p => p.ReadFrom js ∧ (p.WrittenAs js ↔ p.Kept js)) ks₂ params :=
    Listed.of_readable (fun _ _ hp hjs => ⟨hp.readFrom, hp.writtenAs_iff hjs⟩) hparams
      hks.right.tail.tail.left
  refine ⟨front ++ ks₁, x, ks₂, y, ⟨.semicolon, z⟩ :: back, params, ?_, rfl, hitems⟩
  simp only [List.append_assoc, List.cons_append, List.nil_append]

/-- **Which parameters keep their tokens.**  Every parameter of a declaration is read from tokens of
its own between the parentheses of the declaration, and its text has these tokens if and only if
no two neighbours merge in the default value or in a constant among the template arguments, however
deep, and no minus stands in front of a bracket that closes template arguments. -/
theorem tokenize_params_iff {header : String} {ds : List Declaration}
    (h : declarations header = .ok ds) :
    ∃ ts, tokenize header = .ok ts ∧ ∀ d ∈ ds, d.ParamsAmong (ts.map Token.shape) fun js p =>
      p.ReadFrom js ∧ (p.WrittenAs js ↔ p.Kept js) := by
  unfold declarations Source.read at h
  split at h
  · cases h
  rename_i ts hts
  split at h
  · cases h
  rename_i hds
  cases h
  refine ⟨ts, hts, fun d hd => ?_⟩
  obtain ⟨front, ks, back, hks, hdenotes⟩ := declarationsOf_sound hds hd
  have hreadable : Readable ks := (hks ▸ Schema.readable_of_tokenize hts).right.left
  rw [hks]
  exact hdenotes.paramsAmong hreadable front back

/-! ## A default value whose tokens merge -/

/-- A word that is no part of a type goes on with none. -/
theorem HostType.endsBefore_word (t : HostType) {w : String} (hconst : w ≠ "const")
    (hkind : w ∉ kindWords) : t.EndsBefore ⟨.identifier, w⟩ := by
  refine ⟨?_, fun _ _ => TokenKind.noConfusion, fun _ _ => ⟨TokenKind.noConfusion, ?_⟩⟩
  · rintro (h | h | h)
    · exact hconst (congrArg Shape.text h)
    · cases h
    · cases h
  · exact fun _ _ hjoins => hkind hjoins.2.2

/-- A declaration with a default value in which two words stand side by side. -/
def sizeofHeader : String := "at::Tensor f(int n = sizeof(unsigned int));"

/-- The tokens of the default value. -/
def sizeofTokens : List Shape :=
  [⟨.identifier, "sizeof"⟩, ⟨.openParen, "("⟩, ⟨.identifier, "unsigned"⟩, ⟨.identifier, "int"⟩,
    ⟨.closeParen, ")"⟩]

/-- The tokens of the parameter. -/
def sizeofParamTokens : List Shape :=
  [⟨.identifier, "int"⟩] ++ [⟨.identifier, "n"⟩] ++ ⟨.equals, "="⟩ :: sizeofTokens

/-- The tokens of the declaration. -/
def sizeofHeaderTokens : List Shape :=
  [⟨.identifier, "at"⟩, ⟨.doubleColon, "::"⟩, ⟨.identifier, "Tensor"⟩] ++ ⟨.identifier, "f"⟩ ::
    ⟨.openParen, "("⟩ :: (sizeofParamTokens ++ [⟨.closeParen, ")"⟩, ⟨.semicolon, ";"⟩])

/-- The parameter, as it is read. -/
def sizeofParam : Param :=
  ⟨⟨false, false, ["int"], [], []⟩, some "n", some "sizeof(unsignedint)"⟩

theorem sizeofParam_denotes : Param.Denotes sizeofParamTokens sizeofParam := by
  have hhead : TypeHead.Denotes [⟨.identifier, "int"⟩] ⟨false, false, ["int"]⟩ :=
    .mk .absent .absent (.word "int") .nil (by decide)
  have htype : sizeofParam.type.Denotes 1 [⟨.identifier, "int"⟩] := .plain hhead .nil
  have hinner : Balanced 1 [⟨.identifier, "unsigned"⟩, ⟨.identifier, "int"⟩, ⟨.closeParen, ")"⟩] :=
    .cons (by decide) (by decide) (.cons (by decide) (by decide) (.cons (by decide) (by decide)
      .nil))
  have hvalue : DefaultValue sizeofTokens "sizeof(unsignedint)" :=
    .mk (.cons (by decide) (by decide) (.cons (by decide) (by decide) hinner))
      (List.cons_ne_nil _ _)
  have hends : sizeofParam.type.EndsBefore ⟨.identifier, "n"⟩ :=
    HostType.endsBefore_word _ (by decide) (by decide)
  exact .mk htype (.present "n") (.present hvalue) fun name hname => Option.some.inj hname ▸ hends

theorem sizeofHeader_denotes : DeclarationDenotes sizeofHeaderTokens
    ⟨false, false, ["at", "Tensor"], [], []⟩ "f" [sizeofParam] := by
  have hhead : TypeHead.Denotes
      [⟨.identifier, "at"⟩, ⟨.doubleColon, "::"⟩, ⟨.identifier, "Tensor"⟩]
      ⟨false, false, ["at", "Tensor"]⟩ :=
    .mk .absent .absent (.word "at") (.cons "Tensor" .nil) (by decide)
  have hreturn : HostType.Denotes 1 [⟨.identifier, "at"⟩, ⟨.doubleColon, "::"⟩,
      ⟨.identifier, "Tensor"⟩] ⟨false, false, ["at", "Tensor"], [], []⟩ := .plain hhead .nil
  have hends : HostType.EndsBefore ⟨false, false, ["at", "Tensor"], [], []⟩ ⟨.identifier, "f"⟩ :=
    HostType.endsBefore_word _ (by decide) (by decide)
  have hspecifier : ¬ IsSpecifier ⟨.identifier, "at"⟩ := fun h => absurd h.2 (by decide)
  exact .mk hreturn hspecifier hends (.some (.one sizeofParam_denotes))

theorem declarations_sizeof :
    ∃ d, declarations sizeofHeader = .ok [d] ∧ d.params = [sizeofParam] := by
  have htokens : (tokenize sizeofHeader).map (List.map Token.shape) =
      .ok (sizeofHeaderTokens ++ [Shape.endOfText]) := by cbv
  cases hts : tokenize sizeofHeader with
  | error e =>
    rw [hts] at htokens
    cases htokens
  | ok ts =>
    rw [hts] at htokens
    have hshapes : ts.map Token.shape = sizeofHeaderTokens ++ [Shape.endOfText] :=
      Except.ok.inj htokens
    obtain ⟨d, hd, -, -, hparams⟩ := declarationsOf_complete hshapes sizeofHeader_denotes
    refine ⟨d, ?_, hparams⟩
    rw [declarations, Source.read, hts]
    simp only [hd]

theorem tokenize_params_sizeof :
    ∃ ds, declarations sizeofHeader = .ok ds ∧
    ∃ ts, tokenize sizeofHeader = .ok ts ∧ ∀ d ∈ ds,
      d.ParamsAmong (ts.map Token.shape) fun js p =>
        p.ReadFrom js ∧ (p.WrittenAs js ↔ p.Kept js) := by
  obtain ⟨d, hd, -⟩ := declarations_sizeof
  exact ⟨[d], hd, tokenize_params_iff hd⟩

/-- The two words of the default value are one in the text of the parameter. -/
theorem sizeof_merges :
    ∃ d, declarations sizeofHeader = .ok [d] ∧ d.params = [sizeofParam] ∧
      sizeofParam.text = "int n = sizeof(unsignedint)" ∧
      sizeofParam.ReadFrom sizeofParamTokens ∧ ¬ sizeofParam.WrittenAs sizeofParamTokens := by
  obtain ⟨d, hd, hparams⟩ := declarations_sizeof
  refine ⟨d, hd, hparams, rfl, sizeofParam_denotes.readFrom, ?_⟩
  rintro ⟨ts, hts, hshapes⟩
  have htokens : (tokenize sizeofParam.text).map (List.map Token.shape) =
      .ok [⟨.identifier, "int"⟩, ⟨.identifier, "n"⟩, ⟨.equals, "="⟩, ⟨.identifier, "sizeof"⟩,
        ⟨.openParen, "("⟩, ⟨.identifier, "unsignedint"⟩, ⟨.closeParen, ")"⟩,
        Shape.endOfText] := by cbv
  rw [hts] at htokens
  have hsame := (Except.ok.inj htokens).symm.trans hshapes
  exact absurd hsame (by decide)

end KernelGen.Host
