import Mathlib
import KernelGen.Proofs.Host.Grammar
import KernelGen.Proofs.Schema.Rendering
set_option autoImplicit false

/-!
# Host: reading what was written

The text of a type or of a parameter is cut into tokens that denote it again.  They need not be
those that it was read from, because the tokens of default values and of constant template
arguments may have grown together.

A constant does not always survive that.  `HostType.keepsConstants` says of a type that all of
its constants do.
-/

namespace KernelGen.Host

open Source
open Schema (ItemsRead Readable nameText optionalText reads_nameText reads_path)

/-! ## Constants that survive -/

/-- A constant that makes an arrow out of the bracket behind it. -/
def TemplateArg.endsInMinus : TemplateArg HostType → Bool
  | .type _ => false
  | .constant text => text.toList.getLast? == some '-'

mutual

/-- No constant in the type, however deep, turns into something else when it is written. -/
def HostType.keepsConstants : HostType → Bool
  | ⟨_, _, _, arguments, _⟩ => TemplateArg.allKept arguments

/-- A template argument that is not read as something else.  A constant that starts with two
colons is read as a type. -/
def TemplateArg.isKept : TemplateArg HostType → Bool
  | .type t => t.keepsConstants
  | .constant text => !([':', ':'].isPrefixOf text.toList)

/-- Template arguments that are not read as something else, in front of the closing bracket. -/
def TemplateArg.allKept : List (TemplateArg HostType) → Bool
  | [] => true
  | a :: as => a.isKept && !(as.isEmpty && a.endsInMinus) && TemplateArg.allKept as

end

/-- A constant, and what its text is read as. -/
example :
    read (fun ts => Prod.fst <$> HostType.step ts) "F<: :x>" =
      .ok ⟨false, false, ["F"], [.constant "::x"], []⟩ ∧
    HostType.text ⟨false, false, ["F"], [.constant "::x"], []⟩ = "F<::x>" ∧
    read (fun ts => Prod.fst <$> HostType.step ts) "F<::x>" =
      .ok ⟨false, false, ["F"], [.type ⟨false, true, ["x"], [], []⟩], []⟩ :=
  ⟨by cbv, by cbv, by cbv⟩

/-! ## Heads -/

/-- A type up to its template arguments, as it is written. -/
def TypeHead.text (h : TypeHead) : String :=
  (if h.leadingConst then "const " else "") ++
    ((if h.fromGlobal then "::" else "") ++ "::".intercalate h.path)

theorem reads_firstSegment {ks : List Shape} {name : String} (h : FirstSegment ks name)
    (hks : Readable ks) : Reads name ks ∧ StartsVisibly name := by
  cases h with
  | word name => exact ⟨reads_word hks.word, hks.word.startsVisibly⟩
  | @words size kind hjoins =>
    have hkind := hks.tail.word
    rw [String.append_assoc]
    exact ⟨(reads_word hks.word).append ((reads_word hkind).behindBlank hkind.startsVisibly)
      (keepsApart_blank kind), hks.word.startsVisibly.append _⟩

theorem startsVisibly_path {first : String} (h : StartsVisibly first) (names : List String) :
    StartsVisibly ("::".intercalate (first :: names)) := by
  cases names with
  | nil => rwa [String.intercalate_singleton]
  | cons name names =>
    rw [String.intercalate_cons_cons]
    exact (h.append _).append _

theorem spelled_const : Shape.Spelled ⟨.identifier, "const"⟩ :=
  ⟨'c', ['o', 'n', 's', 't'], ['c', 'o', 'n', 's', 't'], [], rfl, rfl⟩

section Path

variable {path : String} {ks ks₀ : List Shape}

theorem reads_fromGlobal {fromGlobal : Bool} (h : Flag .doubleColon ks₀ fromGlobal)
    (hks : Readable ks₀) (hpath : Reads path ks) (hstarts : StartsVisibly path) :
    Reads ((if fromGlobal then "::" else "") ++ path) (ks₀ ++ ks) ∧
      StartsVisibly ((if fromGlobal then "::" else "") ++ path) := by
  cases h with
  | absent => exact ⟨by simpa using hpath, by simpa using hstarts⟩
  | present =>
    obtain rfl := hks.colons
    have hcolons : Seals "::" [⟨.doubleColon, "::"⟩] := fun _ => .token rfl .done
    exact ⟨hcolons.append_reads hpath, ⟨':', _, String.toList_append, rfl⟩⟩

theorem reads_leadingConst {leadingConst : Bool} (h : LeadingConst ks₀ leadingConst)
    (hpath : Reads path ks) (hstarts : StartsVisibly path) :
    Reads ((if leadingConst then "const " else "") ++ path) (ks₀ ++ ks) ∧
      StartsVisibly ((if leadingConst then "const " else "") ++ path) := by
  cases h with
  | absent => exact ⟨by simpa using hpath, by simpa using hstarts⟩
  | present =>
    have htext : "const " ++ path = "const" ++ (" " ++ path) := by
      rw [← String.append_assoc]
      rfl
    rw [if_pos rfl, htext]
    exact ⟨(reads_word spelled_const).append (hpath.behindBlank hstarts) (keepsApart_blank path),
      spelled_const.startsVisibly.append _⟩

end Path

theorem TypeHead.Denotes.reads_text {ks : List Shape} {h : TypeHead} (hh : h.Denotes ks)
    (hks : Readable ks) : Reads h.text ks ∧ StartsVisibly h.text := by
  obtain ⟨hconst, hglobal, hfirst, hnames, -⟩ := hh
  rename_i ks₁ ks₂ ks₃ ks₄ leadingConst fromGlobal first names
  obtain ⟨hreads₃, hstarts₃⟩ := reads_firstSegment hfirst hks.right.right.left
  have hpath := reads_path hnames hreads₃ hks.right.right.right
  obtain ⟨hreads₂, hstarts₂⟩ :=
    reads_fromGlobal hglobal hks.right.left hpath (startsVisibly_path hstarts₃ names)
  exact reads_leadingConst hconst hreads₂ hstarts₂

/-! ## Declarators -/

/-- A declarator that is a mark of its own, and others behind it. -/
theorem reads_mark {mark more : String} {ks ks' : List Shape} (hmark : Seals mark ks)
    (hstarts : StartsVisibly mark) (hmore : Reads more ks') :
    Reads (" " ++ mark ++ more) (ks ++ ks') ∧ KeepsApart (" " ++ mark ++ more) := by
  rw [String.append_assoc]
  exact ⟨(hmark.append_reads hmore).behindBlank (hstarts.append more), keepsApart_blank _⟩

theorem DeclaratorsDenote.reads_text {ks : List Shape} {ds : List Declarator}
    (h : DeclaratorsDenote ks ds) (hks : Readable ks) :
    Reads (String.join (ds.map Declarator.text)) ks ∧
      KeepsApart (String.join (ds.map Declarator.text)) := by
  have hamp : Seals "&" [⟨.ampersand, "&"⟩] := fun _ => .token rfl .done
  have hamps : Seals "&&" [⟨.ampersand, "&"⟩, ⟨.ampersand, "&"⟩] :=
    fun _ => .token rfl (.token rfl .done)
  have hstar : Seals "*" [⟨.asterisk, "*"⟩] := fun _ => .token rfl .done
  induction h with
  | nil => exact ⟨seals_empty.reads, keepsApart_empty⟩
  | const _ ih =>
    obtain ⟨hreads, hapart⟩ := ih hks.tail
    rw [List.map_cons, String.join_cons, show Declarator.const.text = " " ++ "const" from rfl,
      String.append_assoc]
    exact ⟨((reads_word spelled_const).append hreads hapart).behindBlank
      (spelled_const.startsVisibly.append _), keepsApart_blank _⟩
  | @ref x _ _ _ _ ih =>
    obtain rfl : x = "&" := hks.oneChar (c := '&') (by decide)
    rw [List.map_cons, String.join_cons, show Declarator.ref.text = " " ++ "&" from rfl]
    exact reads_mark hamp ⟨'&', [], rfl, rfl⟩ (ih hks.tail).1
  | @rvalueRef x y _ _ _ ih =>
    obtain rfl : x = "&" := hks.oneChar (c := '&') (by decide)
    obtain rfl : y = "&" := hks.tail.oneChar (c := '&') (by decide)
    rw [List.map_cons, String.join_cons, show Declarator.rvalueRef.text = " " ++ "&&" from rfl]
    exact reads_mark hamps ⟨'&', ['&'], rfl, rfl⟩ (ih hks.tail.tail).1
  | @pointer x _ _ _ ih =>
    obtain rfl : x = "*" := hks.oneChar (c := '*') (by decide)
    rw [List.map_cons, String.join_cons, show Declarator.pointer.text = " " ++ "*" from rfl]
    exact reads_mark hstar ⟨'*', [], rfl, rfl⟩ (ih hks.tail).1

/-! ## Template arguments -/

/-- What stands behind a template argument: a comma, or the bracket that closes the arguments. -/
def EndsWritten (a : TemplateArg HostType) (rest : List Char) : Prop :=
  (∃ more, rest = ',' :: more) ∨ a.endsInMinus = false ∧ ∃ more, rest = '>' :: more

theorem EndsWritten.apart {a : TemplateArg HostType} {rest : List Char} (h : EndsWritten a rest) :
    Apart rest := by
  rcases h with ⟨more, rfl⟩ | ⟨-, more, rfl⟩ <;> intro c hc <;> cases hc <;> rfl

theorem Constant.startsVisibly {ks : List Shape} {text : String} (h : Constant ks text)
    (hks : Readable ks) : StartsVisibly text := by
  obtain ⟨k, js, rfl, heof, -⟩ := h.cons
  cases h
  exact startsVisibly_join (hks k List.mem_cons_self heof) js

/-- The template arguments of a type, as they are written. -/
def argumentsText (as : List (TemplateArg HostType)) : String :=
  if as.isEmpty then "" else "<" ++ ", ".intercalate (TemplateArg.texts as) ++ ">"

theorem HostType.text_eq (h : TypeHead) (as : List (TemplateArg HostType)) (ds : List Declarator) :
    (HostType.mk h.leadingConst h.fromGlobal h.path as ds).text =
      h.text ++ (argumentsText as ++ String.join (ds.map Declarator.text)) := by
  simp only [HostType.text, TypeHead.text, argumentsText, String.append_assoc]

theorem HostType.Denotes.startsVisibly {depth : Nat} {ks : List Shape} {t : HostType}
    (h : t.Denotes depth ks) (hks : Readable ks) : StartsVisibly t.text := by
  cases depth with
  | zero => exact absurd h id
  | succ depth =>
    cases h with
    | plain hhead _ =>
      rw [HostType.text_eq]
      exact (hhead.reads_text hks.left).2.append _
    | template hhead _ _ =>
      rw [HostType.text_eq]
      exact (hhead.reads_text hks.left).2.append _

theorem ArgumentDenotes.startsVisibly {depth : Nat} {ks : List Shape} {a : TemplateArg HostType}
    (h : ArgumentDenotes (HostType.Denotes depth) ks a) (hks : Readable ks) :
    StartsVisibly a.text := by
  cases h with
  | type ht => exact ht.startsVisibly hks
  | constant hconstant _ => exact hconstant.startsVisibly hks

section Written

variable {as : List (TemplateArg HostType)}

theorem texts_ne_nil (h : as ≠ []) : TemplateArg.texts as ≠ [] := by
  cases as with
  | nil => exact absurd rfl h
  | cons a as => exact List.cons_ne_nil _ _

theorem startsVisibly_arguments {depth : Nat} {ks : List Shape}
    (h : Separated .comma (ArgumentDenotes (HostType.Denotes depth)) ks as) (hks : Readable ks) :
    StartsVisibly (", ".intercalate (TemplateArg.texts as)) := by
  cases h with
  | one ha =>
    rw [TemplateArg.texts, TemplateArg.texts, String.intercalate_singleton]
    exact ha.startsVisibly hks
  | more ha has =>
    rw [TemplateArg.texts, String.intercalate_cons_of_ne_nil (texts_ne_nil has.ne_nil)]
    exact ((ha.startsVisibly hks.left).append _).append _

/-- Two arguments are written with a comma and a blank between them. -/
theorem toList_arguments_cons (h : as ≠ []) (a : TemplateArg HostType) (rest : List Char) :
    (", ".intercalate (TemplateArg.texts (a :: as))).toList ++ rest = a.text.toList ++
      ',' :: ' ' :: ((", ".intercalate (TemplateArg.texts as)).toList ++ rest) := by
  rw [TemplateArg.texts, String.intercalate_cons_of_ne_nil (texts_ne_nil h), String.toList_append,
    String.toList_append, List.append_assoc, List.append_assoc]
  rfl

theorem cuts_comma {s : String} (hs : StartsVisibly s) (rest : List Char) :
    Cuts (',' :: ' ' :: (s.toList ++ rest)) [⟨.comma, ","⟩] (s.toList ++ rest) :=
  .token rfl (cuts_blank .done (hs.head rest))

end Written

/-- Types of a nesting depth are read again, and start with a specifier only if they did. -/
def TypesRead (depth : Nat) : Prop :=
  ∀ ks t, HostType.Denotes depth ks t → Readable ks → t.keepsConstants = true →
    StartsVisibly t.text ∧ ∀ rest, Apart rest → ∃ ks', HostType.Denotes depth ks' t ∧
      Cuts (t.text.toList ++ rest) ks' rest ∧
      (IsSpecifier (nextShape ks') → IsSpecifier (nextShape ks))

section Arguments

variable {depth : Nat} (htypes : TypesRead depth)

include htypes

theorem argument_read {ks : List Shape} {a : TemplateArg HostType}
    (h : ArgumentDenotes (HostType.Denotes depth) ks a) (hks : Readable ks)
    (hkept : a.isKept = true) {rest : List Char} (hrest : EndsWritten a rest) :
    ∃ ks', ArgumentDenotes (HostType.Denotes depth) ks' a ∧
      Cuts (a.text.toList ++ rest) ks' rest := by
  cases h with
  | type ht =>
    obtain ⟨-, hread⟩ := htypes _ _ ht hks hkept
    obtain ⟨ks', hdenotes, hcuts, -⟩ := hread rest hrest.apart
    exact ⟨ks', .type hdenotes, hcuts⟩
  | @constant text hconstant hstarts =>
    have hpacked : EndsPacked text.toList rest := by
      rcases hrest with ⟨more, rfl⟩ | ⟨hlast, more, rfl⟩
      · exact ⟨',', more, rfl, .inl rfl⟩
      · exact ⟨'>', more, rfl, .inr ⟨rfl, by simpa [TemplateArg.endsInMinus] using hlast⟩⟩
    have hcolons : ¬ [':', ':'] <+: text.toList := by
      intro hprefix
      rw [TemplateArg.isKept, List.isPrefixOf_iff_prefix.2 hprefix] at hkept
      cases hkept
    obtain ⟨ks', hcuts, hconstant'⟩ := hconstant.cuts hks hpacked
    exact ⟨ks', .constant hconstant' (hconstant.startsConstant hconstant' hks
      (fun k hk _ => hcuts.spelled k hk) hstarts hcolons), hcuts⟩

theorem arguments_read {ks : List Shape} {as : List (TemplateArg HostType)}
    (h : Separated .comma (ArgumentDenotes (HostType.Denotes depth)) ks as) (hks : Readable ks)
    (hkept : TemplateArg.allKept as = true) (rest : List Char) :
    ∃ ks', Separated .comma (ArgumentDenotes (HostType.Denotes depth)) ks' as ∧
      Cuts ((", ".intercalate (TemplateArg.texts as)).toList ++ '>' :: rest) ks'
        ('>' :: rest) := by
  induction h with
  | @one ks a ha =>
    simp only [TemplateArg.allKept, List.isEmpty_nil, Bool.true_and, Bool.and_true,
      Bool.and_eq_true, Bool.not_eq_true'] at hkept
    obtain ⟨ks', hdenotes, hcut⟩ :=
      argument_read htypes ha hks hkept.1 (.inr ⟨hkept.2, rest, rfl⟩)
    rw [TemplateArg.texts, TemplateArg.texts, String.intercalate_singleton]
    exact ⟨ks', .one hdenotes, hcut⟩
  | @more x ks ks' a as ha has ih =>
    rw [TemplateArg.allKept, Bool.and_eq_true, Bool.and_eq_true] at hkept
    have hstarts := startsVisibly_arguments has hks.right.tail
    obtain ⟨back, hback, hcutBack⟩ := ih hks.right.tail hkept.2
    obtain ⟨front, hfront, hcutFront⟩ :=
      argument_read htypes ha hks.left hkept.1.1 (.inl ⟨_, rfl⟩)
    refine ⟨front ++ ⟨.comma, ","⟩ :: back, .more hfront hback, ?_⟩
    rw [toList_arguments_cons has.ne_nil]
    exact hcutFront.append ((cuts_comma hstarts _).append hcutBack)

end Arguments

/-! ## Types -/

theorem TypeHead.reads_plain (h : TypeHead) {ks ks₂ : List Shape} {ds : List Declarator}
    (hhead : h.Denotes ks) (hds : DeclaratorsDenote ks₂ ds) (hks : Readable (ks ++ ks₂)) :
    Reads (HostType.mk h.leadingConst h.fromGlobal h.path [] ds).text (ks ++ ks₂) := by
  obtain ⟨hreads, -⟩ := hhead.reads_text hks.left
  obtain ⟨hreadsDs, hapart⟩ := hds.reads_text hks.right
  rw [HostType.text_eq, argumentsText, List.isEmpty_nil, if_pos rfl, String.empty_append]
  exact hreads.append hreadsDs hapart

/-- A type with template arguments is cut up to the bracket that opens them. -/
theorem TypeHead.cuts_open (h : TypeHead) {ks : List Shape} (hreads : Reads h.text ks)
    {as : List (TemplateArg HostType)} (hne : as ≠ []) (ds : List Declarator) (rest : List Char) :
    Cuts ((HostType.mk h.leadingConst h.fromGlobal h.path as ds).text.toList ++ rest)
      (ks ++ [⟨.lessThan, "<"⟩]) ((", ".intercalate (TemplateArg.texts as)).toList ++ '>' ::
        ((String.join (ds.map Declarator.text)).toList ++ rest)) := by
  have hempty : as.isEmpty = false := by
    cases as with
    | nil => exact absurd rfl hne
    | cons => rfl
  have hopen : ∀ cs, Apart ('<' :: cs) := by
    intro cs c hc
    cases hc
    rfl
  have hall := (hreads _ (hopen ((", ".intercalate (TemplateArg.texts as)).toList ++ '>' ::
    ((String.join (ds.map Declarator.text)).toList ++ rest)))).append (.token rfl .done)
  rw [HostType.text_eq]
  simp only [argumentsText, hempty, if_false, Bool.false_eq_true, String.toList_append,
    List.append_assoc]
  exact hall

theorem HostType.read (depth : Nat) : TypesRead depth := by
  induction depth with
  | zero => exact fun _ _ h => absurd h id
  | succ depth ih =>
    intro ks t h hks hkept
    have hstarts := h.startsVisibly hks
    cases h with
    | @plain ks ks₂ head ds hhead hds =>
      exact ⟨hstarts, fun rest hrest =>
        ⟨ks ++ ks₂, .plain hhead hds, head.reads_plain hhead hds hks rest hrest, id⟩⟩
    | @template x y ks ks₂ ks₃ head as ds hhead hargs hds =>
      obtain ⟨hreads, -⟩ := hhead.reads_text hks.left
      obtain ⟨hreadsDs, -⟩ := hds.reads_text hks.right.tail.right.tail
      refine ⟨hstarts, fun rest hrest => ?_⟩
      obtain ⟨ks₂', hargs', hcutsArgs⟩ := arguments_read ih hargs hks.right.tail.left hkept
        ((String.join (ds.map Declarator.text)).toList ++ rest)
      refine ⟨_, .template (x := "<") (y := ">") hhead hargs' hds, ?_, ?_⟩
      · have hbehind := hcutsArgs.append (.token rfl (hreadsDs rest hrest))
        have hall := (head.cuts_open hreads hargs.ne_nil ds rest).append hbehind
        rwa [List.append_assoc] at hall
      · rw [nextShape_append hhead.ne_nil, nextShape_append hhead.ne_nil]
        exact id

/-! ## Parameters -/

theorem nameAndDefault_eq (name? default? : Option String) :
    nameAndDefault name? default? =
      nameText name? ++ optionalText (" " ++ "=" ++ " " ++ ·) default? := by
  cases name? <;> cases default? <;> rfl

/-- What stands behind a type and its name is the default value. -/
theorem cuts_default {ks : List Shape} {default? : Option String}
    (h : Behind .equals DefaultValue ks default?) (hks : Readable ks) {rest : List Char}
    (hrest : EndsGlued rest) :
    ∃ ks', Behind .equals DefaultValue ks' default? ∧
      Cuts ((optionalText (" " ++ "=" ++ " " ++ ·) default?).toList ++ rest) ks' rest ∧
      Apart ((optionalText (" " ++ "=" ++ " " ++ ·) default?).toList ++ rest) := by
  cases h with
  | absent => exact ⟨[], .absent, .done, hrest.apart⟩
  | @present x ks text hdefault =>
    obtain ⟨ks', hcuts, hdenotes⟩ := hdefault.cuts hks.tail hrest
    have hvalue := (hdefault.startsVisibly hks.tail).cuts_blank hcuts
    have hequals : Cuts (("=" ++ (" " ++ text)).toList ++ rest) (⟨.equals, "="⟩ :: ks') rest := by
      rw [String.toList_append, List.append_assoc]
      exact .token rfl hvalue
    have hvisible : StartsVisibly ("=" ++ (" " ++ text)) := ⟨'=', _, String.toList_append, rfl⟩
    rw [optionalText, String.append_assoc, String.append_assoc]
    exact ⟨⟨.equals, "="⟩ :: ks', .present hdenotes, hvisible.cuts_blank hequals,
      apart_of_cons String.toList_append rfl rest⟩

/-- A parameter with a type that keeps its constants. -/
def KeptParam (ks : List Shape) (p : Param) : Prop :=
  Param.Denotes ks p ∧ p.type.keepsConstants = true

theorem Param.itemsRead : ItemsRead KeptParam Param.text := by
  rintro _ _ ⟨⟨htype, hname, hdefault, hends⟩, hkept⟩ hks
  rename_i depth ks₁ ks₂ ks₃ type name? default?
  obtain ⟨hstarts, hread⟩ := HostType.read depth _ _ htype hks.left.left hkept
  obtain ⟨hreadsName, hapartName⟩ := reads_nameText hname hks.left.right
  rw [Param.text, nameAndDefault_eq]
  refine ⟨hstarts.append _, fun rest hrest => ?_⟩
  obtain ⟨ks₃', hdefault', hcuts, hapart⟩ := cuts_default hdefault hks.right hrest
  obtain ⟨ks₁', htype', hcutsType, -⟩ := hread _ (hapartName _ hapart)
  refine ⟨ks₁' ++ ks₂ ++ ks₃', ⟨.mk htype' hname hdefault' hends, hkept⟩, ?_⟩
  rw [String.toList_append, String.toList_append, List.append_assoc, List.append_assoc,
    List.append_assoc]
  exact hcutsType.append ((hreadsName _ hapart).append hcuts)

/-! ## Declarations -/

theorem mem_withoutVoid {ps : List Param} {p : Param} (h : p ∈ withoutVoid ps) : p ∈ ps := by
  unfold withoutVoid at h
  split at h
  · split at h
    · exact absurd h List.not_mem_nil
    · exact h
  · exact h

theorem withoutVoid_withoutVoid (ps : List Param) :
    withoutVoid (withoutVoid ps) = withoutVoid ps := by
  match ps with
  | [] => rfl
  | [p] =>
    by_cases h : (p.name?.isNone && p.type.isVoid) = true
    · simp only [withoutVoid, if_pos h]
    · simp only [withoutVoid, if_neg h]
  | _ :: _ :: _ => rfl

/-- No constant in the types of the declaration turns into something else when it is written. -/
def Declaration.keepsConstants (d : Declaration) : Bool :=
  d.returnType.keepsConstants && d.params.all fun p => p.type.keepsConstants

/-- What is known of a declaration that was read from some text. -/
structure Declaration.WasRead (d : Declaration) : Prop where
  returnType : ∃ depth ks, d.returnType.Denotes depth ks ∧ Readable ks ∧
    ¬ IsSpecifier (nextShape ks)
  endsBefore : d.returnType.EndsBefore ⟨.identifier, d.name⟩
  name : Shape.Spelled ⟨.identifier, d.name⟩
  params : ∀ p ∈ d.params, ∃ ks, Param.Denotes ks p ∧ Readable ks
  noVoid : withoutVoid d.params = d.params

/-- Each of the items has tokens of its own. -/
theorem exists_tokens_of_mem {α : Type} {mark : TokenKind} {Denotes : List Shape → α → Prop}
    {ks : List Shape} {as : List α} (h : Separated mark Denotes ks as) (hks : Readable ks) {a : α}
    (ha : a ∈ as) : ∃ ks', Denotes ks' a ∧ Readable ks' := by
  induction h with
  | one hb =>
    cases List.mem_singleton.1 ha
    exact ⟨_, hb, hks⟩
  | more hb _ ih =>
    rcases List.mem_cons.1 ha with rfl | ha
    · exact ⟨_, hb, hks.left⟩
    · exact ih hks.right.tail ha

theorem wasRead_of_denotes {ks : List Shape} {d : Declaration}
    (h : DeclarationDenotes ks d.returnType d.name d.params) (hks : Readable ks) : d.WasRead := by
  obtain ⟨returnType, name, ps, terminator, location⟩ := d
  obtain ⟨hreturn, hspecifier, hends, hparams⟩ := h
  refine ⟨⟨_, _, hreturn, hks.left, hspecifier⟩, hends, hks.right.word, ?_,
    withoutVoid_withoutVoid _⟩
  intro p hp
  cases hparams with
  | none => exact absurd (mem_withoutVoid hp) List.not_mem_nil
  | some hparams => exact exists_tokens_of_mem hparams hks.right.tail.tail.left (mem_withoutVoid hp)

theorem wasRead_of_mem {header : String} {ds : List Declaration} {d : Declaration}
    (h : declarations header = .ok ds) (hd : d ∈ ds) : d.WasRead := by
  unfold declarations Source.read at h
  split at h
  · cases h
  rename_i ts hts
  split at h
  · cases h
  rename_i hds
  cases h
  obtain ⟨front, ks, back, hks, hdenotes⟩ := declarationsOf_sound hds hd
  exact wasRead_of_denotes hdenotes (hks ▸ Schema.readable_of_tokenize hts).right.left

end KernelGen.Host
