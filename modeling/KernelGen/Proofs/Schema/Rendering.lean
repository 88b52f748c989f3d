import Mathlib
import KernelGen.Proofs.Schema.Grammar
import KernelGen.Proofs.Source.Gluing
set_option autoImplicit false

/-!
# Schema: reading what was written

The text of a signature is put together out of the texts of its parts, and is cut into tokens
part by part.  The tokens of a part denote that part again, although they need not be those that
it was read from: sizes lose their leading zeros, and the tokens of a default value may have
grown together.
-/

namespace KernelGen.Schema

open Source

/-- All tokens but the end come from some text. -/
def Readable (ks : List Shape) : Prop := ∀ k ∈ ks, k.kind ≠ .eof → k.Spelled

theorem Readable.left {ks ks' : List Shape} (h : Readable (ks ++ ks')) : Readable ks :=
  fun k hk => h k (List.mem_append_left ks' hk)

theorem Readable.right {ks ks' : List Shape} (h : Readable (ks ++ ks')) : Readable ks' :=
  fun k hk => h k (List.mem_append_right ks hk)

theorem Readable.tail {k : Shape} {ks : List Shape} (h : Readable (k :: ks)) : Readable ks :=
  fun j hj => h j (List.mem_cons_of_mem k hj)

theorem Readable.word {w : String} {ks : List Shape} (h : Readable (⟨.identifier, w⟩ :: ks)) :
    Shape.Spelled ⟨.identifier, w⟩ :=
  h _ List.mem_cons_self (by decide : TokenKind.identifier ≠ .eof)

theorem Readable.colons {x : String} {ks : List Shape}
    (h : Readable (⟨.doubleColon, x⟩ :: ks)) : x = "::" :=
  (h _ List.mem_cons_self TokenKind.noConfusion).text_of_doubleColon rfl

theorem Readable.oneChar {c : Char} {kind : TokenKind} {x : String} {ks : List Shape}
    (h : Readable (⟨kind, x⟩ :: ks)) (hmark : (c, kind) ∈ punctuation) :
    x = String.ofList [c] := by
  have hend : ∀ m ∈ punctuation, m.2 ≠ .eof := by decide
  exact (h _ List.mem_cons_self (hend _ hmark)).text_of_mark hmark

/-- The tokens of a text come from it. -/
theorem readable_of_tokenize {text : String} {ts : List Token} (h : tokenize text = .ok ts) :
    Readable (ts.map Token.shape) := by
  obtain ⟨ks, hcuts, hks⟩ := exists_cuts h
  intro k hk hne
  rw [hks] at hk
  rcases List.mem_append.1 hk with hk | hk
  · exact hcuts.spelled k hk
  · rw [List.mem_singleton.1 hk] at hne
    exact absurd rfl hne

/-! ## Marks -/

theorem seals_openParen : Seals "(" [⟨.openParen, "("⟩] := fun _ => .token rfl .done

theorem seals_closeParen : Seals ")" [⟨.closeParen, ")"⟩] := fun _ => .token rfl .done

theorem seals_arrow : Seals "->" [⟨.arrow, "->"⟩] := fun _ => .token rfl .done

/-- The text of a part that may be missing. -/
def optionalText {α : Type} (text : α → String) : Option α → String
  | some a => text a
  | none => ""

/-! ## Alias annotations -/

theorem AliasMember.reads_text {ks : List Shape} {m : AliasMember}
    (h : AliasMember.Denotes ks m) (hks : Readable ks) :
    ∃ ks', AliasMember.Denotes ks' m ∧ Reads m.text ks' ∧ StartsVisibly m.text := by
  cases h with
  | wildcard =>
    refine ⟨[⟨.asterisk, "*"⟩], .wildcard, ?_, ⟨'*', [], rfl, rfl⟩⟩
    exact fun _ _ => .token rfl .done
  | set name =>
    exact ⟨[⟨.identifier, name⟩], .set name, reads_word hks.word, hks.word.startsVisibly⟩

theorem reads_aliasSetText {ks : List Shape} {ms : List AliasMember}
    (h : AliasSetDenotes ks ms) (hks : Readable ks) :
    ∃ ks', AliasSetDenotes ks' ms ∧ Reads (aliasSetText ms) ks' ∧
      StartsVisibly (aliasSetText ms) := by
  unfold aliasSetText
  induction h with
  | one hm =>
    obtain ⟨ks', hdenotes, hreads, hstarts⟩ := AliasMember.reads_text hm hks
    rw [List.map_singleton, String.intercalate_singleton]
    exact ⟨ks', .one hdenotes, hreads, hstarts⟩
  | @more x ks ks' m ms hm hms ih =>
    obtain ⟨front, hfront, hreads, hstarts⟩ := AliasMember.reads_text hm hks.left
    obtain ⟨back, hback, hreads', -⟩ := ih hks.right.tail
    rw [List.map_cons, String.intercalate_cons_of_ne_nil (hms.map_ne_nil AliasMember.text)]
    refine ⟨front ++ ⟨.pipe, "|"⟩ :: back, .more hfront hback, ?_, (hstarts.append _).append _⟩
    have hpipe : Seals "|" [⟨.pipe, "|"⟩] := fun _ => .token rfl .done
    have hfrontPipe : Seals (m.text ++ "|") (front ++ [⟨.pipe, "|"⟩]) :=
      hreads.append_seals hpipe (apart_of_cons (c := '|') rfl rfl)
    have hall := hfrontPipe.append_reads hreads'
    rwa [List.append_assoc] at hall

/-- The mark of a value that may be written. -/
theorem seals_writable {ks : List Shape} {writable : Bool} (h : Flag .bang ks writable) :
    ∃ ks', Flag .bang ks' writable ∧ Seals (if writable then "!" else "") ks' ∧
      KeepsApart (if writable then "!" else "") := by
  cases h with
  | absent => exact ⟨[], .absent, seals_empty, keepsApart_empty⟩
  | present =>
    exact ⟨[⟨.bang, "!"⟩], .present, fun _ => .token rfl .done,
      keepsApart_of_cons (c := '!') rfl rfl⟩

/-- The sets that a value belongs to on exit, as they are written. -/
theorem reads_after {ks : List Shape} {after? : Option (List AliasMember)}
    (h : Behind .arrow AliasSetDenotes ks after?) (hks : Readable ks) :
    ∃ ks', Behind .arrow AliasSetDenotes ks' after? ∧
      Reads (optionalText (fun ms => " -> " ++ aliasSetText ms) after?) ks' ∧
      KeepsApart (optionalText (fun ms => " -> " ++ aliasSetText ms) after?) := by
  cases h with
  | absent => exact ⟨[], .absent, seals_empty.reads, keepsApart_empty⟩
  | @present x ks ms hms =>
    obtain ⟨ks', hdenotes, hreads, hstarts⟩ := reads_aliasSetText hms hks.tail
    have htext : " -> " ++ aliasSetText ms = " " ++ ("->" ++ (" " ++ aliasSetText ms)) := by
      rw [← String.append_assoc, ← String.append_assoc]
      rfl
    refine ⟨⟨.arrow, "->"⟩ :: ks', .present hdenotes, ?_, ?_⟩
    · rw [optionalText, htext]
      refine Reads.behindBlank (seals_arrow.append_reads (hreads.behindBlank hstarts)) ?_
      exact ⟨'-', _, by rw [String.toList_append]; rfl, rfl⟩
    · rw [optionalText, htext]
      exact keepsApart_blank _

theorem AliasInfo.text_eq (a : AliasInfo) :
    a.text = "(" ++ aliasSetText a.before ++ (if a.writable then "!" else "") ++
      optionalText (fun ms => " -> " ++ aliasSetText ms) a.after? ++ ")" := by
  obtain ⟨before, after?, writable⟩ := a
  cases after? <;> rfl

/-- An annotation, from its opening parenthesis to its closing one. -/
theorem AliasInfo.seals_text {ks : List Shape} {a : AliasInfo} (h : AliasInfo.Denotes ks a)
    (hks : Readable ks) :
    ∃ ks', AliasInfo.Denotes ks' a ∧ Seals a.text (⟨.openParen, "("⟩ :: ks') := by
  obtain ⟨hbefore, hwritable, hafter⟩ := h
  obtain ⟨ks₁, hks₁, hreads₁, -⟩ := reads_aliasSetText hbefore hks.left.left.left
  obtain ⟨ks₂, hks₂, hseals₂, hapart₂⟩ := seals_writable hwritable
  obtain ⟨ks₃, hks₃, hreads₃, hapart₃⟩ := reads_after hafter hks.left.right
  refine ⟨ks₁ ++ ks₂ ++ ks₃ ++ [⟨.closeParen, ")"⟩], .mk hks₁ hks₂ hks₃, ?_⟩
  have hopen := seals_openParen.append_reads hreads₁
  have hmarked := hopen.append hseals₂.reads hapart₂
  have hexit := hmarked.append hreads₃ hapart₃
  have hclosed := hexit.append_seals seals_closeParen (apart_of_cons (c := ')') rfl rfl)
  rw [AliasInfo.text_eq]
  simp only [List.cons_append, List.nil_append] at hclosed
  exact hclosed

/-! ## Types -/

theorem base_text_ofName (name : String) : (BaseType.ofName name).text = name := by
  unfold BaseType.ofName
  cases h : BaseType.keywords.lookup name with
  | none => rfl
  | some base =>
    obtain ⟨before, after, hsplit, -⟩ := List.lookup_eq_some_iff.1 h
    have hmem : (name, base) ∈ BaseType.keywords := by
      rw [hsplit]
      exact List.mem_append_right before List.mem_cons_self
    have hall : ∀ k ∈ BaseType.keywords, k.2.text = k.1 := by decide
    exact hall _ hmem

/-- A size without leading zeros is the same size. -/
theorem arraySize?_toString {size : String} {n : Nat} (h : arraySize? size = some n) :
    arraySize? (toString n) = some n := by
  have hbound : n < sizeBound := by
    unfold arraySize? at h
    split at h
    · dsimp only at h
      split at h
      · rename_i hlt
        cases h
        exact hlt
      · cases h
    · cases h
  have hchars : (toString n).toList = Nat.toDigits 10 n := by
    rw [Nat.toString_eq_ofList_toDigits, String.toList_ofList]
  have hdigits : (Nat.toDigits 10 n).all Char.isDigit = true := by
    rw [List.all_eq_true]
    intro c hc
    exact Nat.isDigit_of_mem_toDigits (by decide) (by decide) hc
  have hvalue : (Nat.toDigits 10 n).foldl (fun n c => 10 * n + (c.toNat - 48)) 0 = n :=
    Nat.ofDigitChars_ten_toDigits
  rw [arraySize?, hchars, if_pos hdigits, hvalue]
  exact if_pos hbound

theorem Suffix.seals_text {ks : List Shape} {ss : List Suffix} (h : SuffixesDenote ks ss) :
    ∃ ks', SuffixesDenote ks' ss ∧ Seals (String.join (ss.map Suffix.text)) ks' ∧
      KeepsApart (String.join (ss.map Suffix.text)) := by
  induction h with
  | nil => exact ⟨[], .nil, seals_empty, keepsApart_empty⟩
  | optional _ ih =>
    obtain ⟨ks', hdenotes, hseals, -⟩ := ih
    rw [List.map_cons, String.join_cons]
    have hmark : Seals "?" [⟨.question, "?"⟩] := fun _ => .token rfl .done
    exact ⟨⟨.question, "?"⟩ :: ks', .optional hdenotes, hmark.append hseals,
      keepsApart_of_cons String.toList_append rfl⟩
  | array _ ih =>
    obtain ⟨ks', hdenotes, hseals, -⟩ := ih
    rw [List.map_cons, String.join_cons]
    have hmark : Seals "[]" [⟨.openBracket, "["⟩, ⟨.closeBracket, "]"⟩] :=
      fun _ => .token rfl (.token rfl .done)
    exact ⟨⟨.openBracket, "["⟩ :: ⟨.closeBracket, "]"⟩ :: ks', .array hdenotes,
      hmark.append hseals, keepsApart_of_cons String.toList_append rfl⟩
  | @sized x y size ks ss n hn _ ih =>
    obtain ⟨ks', hdenotes, hseals, -⟩ := ih
    rw [List.map_cons, String.join_cons]
    refine ⟨⟨.openBracket, "["⟩ :: ⟨.number, toString n⟩ :: ⟨.closeBracket, "]"⟩ :: ks',
      .sized (arraySize?_toString hn) hdenotes, (seals_bracketedNumber n).append hseals, ?_⟩
    rw [Suffix.text, String.append_assoc, String.append_assoc]
    exact keepsApart_of_cons String.toList_append rfl

theorem SchemaType.text_eq (t : SchemaType) :
    t.text = t.base.text ++ optionalText AliasInfo.text t.annotation? ++
      String.join (t.suffixes.map Suffix.text) := by
  obtain ⟨base, annotation?, suffixes⟩ := t
  cases annotation? <;> rfl

theorem AliasInfo.text_toList (a : AliasInfo) : ∃ cs, a.text.toList = '(' :: cs := by
  rw [AliasInfo.text_eq]
  simp only [String.toList_append, List.append_assoc]
  exact ⟨_, rfl⟩

theorem SchemaType.reads_text {ks : List Shape} {t : SchemaType} (h : SchemaType.Denotes ks t)
    (hks : Readable ks) :
    ∃ ks', SchemaType.Denotes ks' t ∧ Reads t.text ks' ∧ StartsVisibly t.text := by
  obtain ⟨hannotates, hsuffixes⟩ := h
  rename_i name ks₁ ks₂ annotation? suffixes
  have hannotated : ∃ ks', Behind .openParen AliasInfo.Denotes ks' annotation? ∧
      Seals (optionalText AliasInfo.text annotation?) ks' ∧
      KeepsApart (optionalText AliasInfo.text annotation?) := by
    cases hannotates with
    | absent => exact ⟨[], .absent, seals_empty, keepsApart_empty⟩
    | @present x ks a ha =>
      obtain ⟨ks', hdenotes, hseals⟩ := AliasInfo.seals_text ha hks.tail.left.tail
      obtain ⟨cs, hcs⟩ := a.text_toList
      exact ⟨⟨.openParen, "("⟩ :: ks', .present hdenotes, hseals, keepsApart_of_cons hcs rfl⟩
  obtain ⟨ks₁', hks₁', hseals₁, hapart₁⟩ := hannotated
  obtain ⟨ks₂', hks₂', hseals₂, hapart₂⟩ := Suffix.seals_text hsuffixes
  refine ⟨⟨.identifier, name⟩ :: (ks₁' ++ ks₂'), .mk hks₁' hks₂', ?_, ?_⟩
  · rw [SchemaType.text_eq, base_text_ofName, String.append_assoc]
    have hbehind := hseals₁.append_reads hseals₂.reads
    exact (reads_word hks.word).append hbehind (hapart₁.append hapart₂)
  · rw [SchemaType.text_eq, base_text_ofName]
    exact (hks.word.startsVisibly.append _).append _

/-! ## Lists of items -/

theorem reads_nameText {ks : List Shape} {name? : Option String} (h : OptionalName ks name?)
    (hks : Readable ks) : Reads (nameText name?) ks ∧ KeepsApart (nameText name?) := by
  cases h with
  | absent => exact ⟨seals_empty.reads, keepsApart_empty⟩
  | present name =>
    exact ⟨(reads_word hks.word).behindBlank hks.word.startsVisibly, keepsApart_blank name⟩

/-- Items are read again in front of a comma and in front of a closing parenthesis. -/
def ItemsRead {α : Type} (Denotes : List Shape → α → Prop) (text : α → String) : Prop :=
  ∀ ks a, Denotes ks a → Readable ks → StartsVisibly (text a) ∧
    ∀ rest, EndsGlued rest → ∃ ks', Denotes ks' a ∧ Cuts ((text a).toList ++ rest) ks' rest

section Items

variable {α : Type} {Denotes : List Shape → α → Prop} {text : α → String}

theorem ItemsRead.separated (hitem : ItemsRead Denotes text) {ks : List Shape} {as : List α}
    (h : Separated .comma Denotes ks as) (hks : Readable ks) :
    StartsVisibly (", ".intercalate (as.map text)) ∧
      ∀ rest, EndsGlued rest → ∃ ks', Separated .comma Denotes ks' as ∧
        Cuts ((", ".intercalate (as.map text)).toList ++ rest) ks' rest := by
  induction h with
  | one ha =>
    obtain ⟨hstarts, hcuts⟩ := hitem _ _ ha hks
    rw [List.map_singleton, String.intercalate_singleton]
    refine ⟨hstarts, fun rest hrest => ?_⟩
    obtain ⟨ks', hdenotes, hcut⟩ := hcuts rest hrest
    exact ⟨ks', .one hdenotes, hcut⟩
  | @more x ks ks' a as ha has ih =>
    obtain ⟨hstarts, hcuts⟩ := hitem _ _ ha hks.left
    obtain ⟨hstarts', hcuts'⟩ := ih hks.right.tail
    rw [List.map_cons, String.intercalate_cons_of_ne_nil (has.map_ne_nil text)]
    refine ⟨(hstarts.append _).append _, fun rest hrest => ?_⟩
    obtain ⟨back, hback, hcutBack⟩ := hcuts' rest hrest
    have hcomma : EndsGlued (", ".toList ++ ((", ".intercalate (as.map text)).toList ++ rest)) :=
      ⟨',', _, rfl, .inl rfl⟩
    obtain ⟨front, hfront, hcutFront⟩ := hcuts _ hcomma
    refine ⟨front ++ ⟨.comma, ","⟩ :: back, .more hfront hback, ?_⟩
    have hblank := hstarts'.cuts_blank hcutBack
    rw [String.toList_append, List.append_assoc] at hblank
    rw [String.toList_append, String.toList_append, List.append_assoc, List.append_assoc]
    exact hcutFront.append (.token rfl hblank)

/-- Items between parentheses, behind the opening one. -/
theorem ItemsRead.listed (hitem : ItemsRead Denotes text) {ks : List Shape} {as : List α}
    (h : Listed Denotes ks as) (hks : Readable ks) (rest : List Char) :
    ∃ ks', Listed Denotes ks' as ∧
      Cuts ((", ".intercalate (as.map text)).toList ++ ')' :: rest) ks' (')' :: rest) := by
  cases h with
  | none => exact ⟨[], .none, .done⟩
  | some has =>
    obtain ⟨ks', hdenotes, hcuts⟩ :=
      (hitem.separated has hks).2 (')' :: rest) ⟨')', rest, rfl, .inr rfl⟩
    exact ⟨ks', .some hdenotes, hcuts⟩

end Items

theorem Param.text_eq (type : SchemaType) (name? default? : Option String) :
    (Param.value type name? default?).text =
      type.text ++ nameText name? ++ optionalText ("=" ++ ·) default? := by
  cases default? <;> rfl

/-- What stands behind a type and its name is the default value. -/
theorem cuts_default {ks : List Shape} {default? : Option String}
    (h : Behind .equals DefaultValue ks default?) (hks : Readable ks) {rest : List Char}
    (hrest : EndsGlued rest) :
    ∃ ks', Behind .equals DefaultValue ks' default? ∧
      Cuts ((optionalText ("=" ++ ·) default?).toList ++ rest) ks' rest ∧
      Apart ((optionalText ("=" ++ ·) default?).toList ++ rest) := by
  cases h with
  | absent => exact ⟨[], .absent, .done, hrest.apart⟩
  | present hdefault =>
    obtain ⟨ks', hcuts, hdenotes⟩ := hdefault.cuts hks.tail hrest
    refine ⟨⟨.equals, "="⟩ :: ks', .present hdenotes, ?_, ?_⟩
    · rw [optionalText, String.toList_append]
      exact .token rfl hcuts
    · rw [optionalText]
      exact apart_of_cons String.toList_append rfl rest

theorem Param.itemsRead : ItemsRead Param.Denotes Param.text := by
  intro ks p h hks
  cases h with
  | marker =>
    refine ⟨⟨'*', [], rfl, rfl⟩, fun rest _ => ⟨[⟨.asterisk, "*"⟩], .marker, ?_⟩⟩
    exact .token rfl .done
  | @value ks₁ ks₂ ks₃ type name? default? htype hname hdefault =>
    obtain ⟨ks₁', htype', hreads, hstarts⟩ := SchemaType.reads_text htype hks.left.left
    obtain ⟨hreadsName, hapartName⟩ := reads_nameText hname hks.left.right
    rw [Param.text_eq]
    refine ⟨(hstarts.append _).append _, fun rest hrest => ?_⟩
    obtain ⟨ks₃', hdefault', hcuts, hapart⟩ := cuts_default hdefault hks.right hrest
    refine ⟨ks₁' ++ ks₂ ++ ks₃', .value htype' hname hdefault', ?_⟩
    rw [String.toList_append, List.append_assoc]
    exact ((hreads.append hreadsName hapartName) _ hapart).append hcuts

/-- An element of a tuple as it is written. -/
def elementText (e : SchemaType × Option String) : String := e.1.text ++ nameText e.2

theorem element_itemsRead : ItemsRead ElementDenotes elementText := by
  rintro _ _ ⟨htype, hname⟩ hks
  obtain ⟨ks', htype', hreads, hstarts⟩ := SchemaType.reads_text htype hks.left
  obtain ⟨hreadsName, hapartName⟩ := reads_nameText hname hks.right
  refine ⟨hstarts.append _, fun rest hrest => ?_⟩
  exact ⟨_, .mk htype' hname, (hreads.append hreadsName hapartName) rest hrest.apart⟩

/-! ## Signatures -/

/-- A return type ends the text. -/
theorem ReturnType.cuts_text {ks : List Shape} {r : ReturnType} (h : ReturnType.Denotes ks r)
    (hks : Readable ks) :
    StartsVisibly r.text ∧ ∃ ks', ReturnType.Denotes ks' r ∧ Cuts r.text.toList ks' [] := by
  cases h with
  | @tuple x y ks elements helements =>
    have htext : (ReturnType.tuple elements).text =
        "(" ++ (", ".intercalate (elements.map elementText) ++ ")") := String.append_assoc
    obtain ⟨ks', hdenotes, hcuts⟩ := element_itemsRead.listed helements hks.tail.left []
    refine ⟨⟨'(', _, by rw [htext, String.toList_append]; rfl, rfl⟩,
      ⟨.openParen, "("⟩ :: (ks' ++ [⟨.closeParen, ")"⟩]), .tuple hdenotes, ?_⟩
    rw [htext, String.toList_append, String.toList_append]
    exact .token rfl (hcuts.append (.token rfl .done))
  | value htype =>
    obtain ⟨ks', hdenotes, hreads, hstarts⟩ := SchemaType.reads_text htype hks
    have hcuts := hreads [] fun c hc => nomatch hc
    rw [List.append_nil] at hcuts
    exact ⟨hstarts, ks', .value hdenotes, hcuts⟩

/-- The segments of a name, from the first one on. -/
theorem reads_path {first : String} {ks ks₀ : List Shape} {names : List String}
    (h : SegmentsDenote ks names) (hfirst : Reads first ks₀) (hks : Readable ks) :
    Reads ("::".intercalate (first :: names)) (ks₀ ++ ks) := by
  induction h generalizing first ks₀ with
  | nil => rwa [String.intercalate_singleton, List.append_nil]
  | @cons x ks names name hnames ih =>
    obtain rfl := hks.colons
    have hcolons : Seals "::" [⟨.doubleColon, "::"⟩] := fun _ => .token rfl .done
    have hfirstColons := hfirst.append_seals hcolons
      (apart_of_cons (show "::".toList = [':', ':'] from rfl) rfl)
    have hall := hfirstColons.append_reads (ih (reads_word hks.tail.word) hks.tail.tail)
    rw [String.intercalate_cons_cons]
    rwa [List.append_assoc] at hall

theorem reads_overload {ks : List Shape} {overload? : Option String}
    (h : Behind .dot OverloadDenotes ks overload?) (hks : Readable ks) :
    ∃ ks', Behind .dot OverloadDenotes ks' overload? ∧
      Reads (optionalText ("." ++ ·) overload?) ks' ∧
      KeepsApart (optionalText ("." ++ ·) overload?) := by
  cases h with
  | absent => exact ⟨[], .absent, seals_empty.reads, keepsApart_empty⟩
  | @present x ks name hname =>
    cases hname
    have hdot : Seals "." [⟨.dot, "."⟩] := fun _ => .token rfl .done
    exact ⟨[⟨.dot, "."⟩, ⟨.identifier, name⟩], .present (.mk name),
      hdot.append_reads (reads_word hks.tail.word), keepsApart_of_cons String.toList_append rfl⟩

theorem Signature.text_eq (s : Signature) :
    s.text = "::".intercalate s.path ++ optionalText ("." ++ ·) s.overload? ++ ("(" ++
      (", ".intercalate (s.params.map Param.text) ++ (")" ++ (" " ++ ("->" ++
        (" " ++ s.returnType.text)))))) := by
  have harrow : ") -> " = ")" ++ (" " ++ ("->" ++ " ")) := rfl
  obtain ⟨path, overload?, params, returnType⟩ := s
  cases overload? <;>
    simp only [Signature.text, Signature.fullName, Signature.name, optionalText,
      String.append_assoc] <;> rw [harrow] <;> simp only [String.append_assoc]

/-- The arrow and the return type end the text. -/
theorem cuts_arrow {ks : List Shape} {r : ReturnType} (hstarts : StartsVisibly r.text)
    (h : Cuts r.text.toList ks []) :
    Cuts (" " ++ ("->" ++ (" " ++ r.text))).toList (⟨.arrow, "->"⟩ :: ks) [] := by
  rw [← List.append_nil r.text.toList] at h
  have hreturn := hstarts.cuts_blank h
  rw [List.append_nil] at hreturn
  have harrow : Cuts ("->" ++ (" " ++ r.text)).toList (⟨.arrow, "->"⟩ :: ks) [] := by
    rw [String.toList_append]
    exact .token rfl hreturn
  have hvisible : StartsVisibly ("->" ++ (" " ++ r.text)) :=
    ⟨'-', _, by rw [String.toList_append]; rfl, rfl⟩
  rw [← List.append_nil ("->" ++ (" " ++ r.text)).toList] at harrow
  have hall := hvisible.cuts_blank harrow
  rwa [List.append_nil] at hall

/-- The text of a signature is cut into tokens that denote it. -/
theorem Signature.cuts_text {ks : List Shape} {s : Signature} (h : Signature.Denotes ks s)
    (hks : Readable ks) : ∃ ks', Signature.Denotes ks' s ∧ Cuts s.text.toList ks' [] := by
  obtain ⟨hnames, hoverload, hparams, hreturn⟩ := h
  rename_i first x y z ks₁ ks₂ ks₃ ks₄ names overload? params returnType
  have hbehind := hks.tail.right.tail
  have hpath := reads_path hnames (reads_word hks.word) hks.tail.left.left
  obtain ⟨ks₂', hoverload', hreads, hapart⟩ := reads_overload hoverload hks.tail.left.right
  obtain ⟨hstarts, ks₄', hreturn', hcuts₄⟩ :=
    ReturnType.cuts_text hreturn hbehind.right.tail.tail
  obtain ⟨ks₃', hparams', hcuts₃⟩ := Param.itemsRead.listed hparams hbehind.left
    (" " ++ ("->" ++ (" " ++ returnType.text))).toList
  refine ⟨_, .mk (x := "(") (y := ")") (z := "->") hnames hoverload' hparams' hreturn', ?_⟩
  have hname := (hpath.append hreads hapart).append_seals seals_openParen
    (apart_of_cons (c := '(') rfl rfl)
  have hclose := hcuts₃.append (.token rfl (cuts_arrow hstarts hcuts₄))
  have hall := (hname _).append hclose
  rw [Signature.text_eq]
  simp only [String.toList_append, List.append_assoc, List.cons_append, List.nil_append] at hall ⊢
  exact hall

/-- **Signatures survive being written.**  Whatever text a signature was read from, its own text
is read as the same signature. -/
theorem Signature.ofText_text {t : String} {s : Signature} (h : Signature.ofText t = .ok s) :
    Signature.ofText s.text = .ok s := by
  unfold Signature.ofText Source.read at h
  split at h
  · cases h
  rename_i ts hts
  split at h
  · cases h
  rename_i hs
  cases h
  obtain ⟨ks, more, hks, -, hdenotes⟩ := Signature.ofTokens_sound hs
  have hreadable : Readable ks := (hks ▸ readable_of_tokenize hts).left
  obtain ⟨ks', hdenotes', hcuts'⟩ := Signature.cuts_text hdenotes hreadable
  obtain ⟨ts', hts', hmap⟩ := exists_tokens hcuts'
  have hread := Signature.ofTokens_complete hdenotes' hmap rfl
  rw [Signature.ofText, Source.read, hts']
  simp only [hread]

/-! ## A schema at work -/

/-- A schema with blanks and zeros that its signature does not keep, and with tokens that grow
together. -/
def spacedSchema : String :=
  "aten :: f.out( Tensor?[007] x = 1 . 5, *, int y=(- >, \"a,)\") ) -> (Tensor r,int)"

/-- The signature of `spacedSchema`. -/
def spacedSignature : Signature where
  path := ["aten", "f"]
  overload? := some "out"
  params :=
    [.value ⟨.tensor, none, [.optional, .array (some 7)]⟩ (some "x") (some "1.5"), .marker,
     .value ⟨.int, none, []⟩ (some "y") (some "(->,\"a,)\")")]
  returnType := .tuple [(⟨.tensor, none, []⟩, some "r"), (⟨.int, none, []⟩, none)]

theorem ofText_text_spacedSignature :
    Signature.ofText spacedSchema = .ok spacedSignature ∧
    Signature.ofText spacedSignature.text = .ok spacedSignature :=
  have h : Signature.ofText spacedSchema = .ok spacedSignature := by cbv
  ⟨h, Signature.ofText_text h⟩

end KernelGen.Schema
