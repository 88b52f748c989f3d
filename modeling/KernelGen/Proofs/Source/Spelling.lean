import Mathlib
import KernelGen.Proofs.Source.Shape
set_option autoImplicit false

/-!
# Source: how tokens are spelled

The first character of a lexeme says what it is.  Words and numbers go on for as long as they
can, so a text that ends with a word is cut as it stands only if what follows does not go on
with the word; marks end where they end.  `Reads` and `Seals` are these two ways of being cut,
and texts that are put together out of such pieces are cut piece by piece.
-/

namespace KernelGen.Source

/-! ## First characters -/

theorem wordPart_cases {c : Char} (h : isWordPart c = true) :
    isWordStart c = true ∨ c.isDigit = true := by
  simp only [isWordPart, isWordStart, Char.isAlphanum, Bool.or_eq_true] at h ⊢
  rcases h with (h | h) | h
  · exact .inl (.inl h)
  · exact .inr h
  · exact .inl (.inr h)

theorem isWordPart_of_isWordStart {c : Char} (h : isWordStart c = true) : isWordPart c = true := by
  simp only [isWordPart, isWordStart, Char.isAlphanum, Bool.or_eq_true] at h ⊢
  rcases h with h | h
  · exact .inl (.inl h)
  · exact .inr h

theorem isWordPart_of_isDigit {c : Char} (h : c.isDigit = true) : isWordPart c = true := by
  simp [isWordPart, Char.isAlphanum, h]

/-- What is of no class that word characters are of is no word character. -/
theorem ne_of_isWordPart {c d : Char} (h : isWordPart c = true) (hd : isWordPart d = false) :
    c ≠ d := by
  rintro rfl
  exact Bool.false_ne_true (hd.symm.trans h)

theorem isSeparator_of_isWordPart {c : Char} (h : isWordPart c = true) : isSeparator c = false := by
  simp only [isSeparator, Bool.or_eq_false_iff, beq_eq_false_iff_ne]
  exact ⟨⟨⟨ne_of_isWordPart h rfl, ne_of_isWordPart h rfl⟩, ne_of_isWordPart h rfl⟩,
    ne_of_isWordPart h rfl⟩

namespace Lexeme

theorem first_word {c : Char} (h : isWordStart c = true) (r : List Char) :
    first c r =
      .ok (.token .identifier, c :: r.takeWhile isWordPart, r.dropWhile isWordPart) := by
  have hpart := isWordPart_of_isWordStart h
  unfold first
  rw [if_neg (Bool.eq_false_iff.1 (isSeparator_of_isWordPart hpart)),
    if_neg (ne_of_isWordPart hpart rfl), if_neg (ne_of_isWordPart hpart rfl), if_pos h]

theorem first_number {c : Char} (h : c.isDigit = true) (r : List Char) :
    first c r = .ok (.token .number, c :: (splitNumber r).1, (splitNumber r).2) := by
  have hpart := isWordPart_of_isDigit h
  have hstart : ¬ isWordStart c = true := by
    intro hstart
    simp only [Char.isDigit, Bool.and_eq_true, decide_eq_true_eq, ge_iff_le,
      UInt32.le_iff_toNat_le] at h
    simp only [isWordStart, Char.isAlpha, Char.isUpper, Char.isLower, Bool.or_eq_true,
      Bool.and_eq_true, decide_eq_true_eq, beq_iff_eq, ge_iff_le, UInt32.le_iff_toNat_le] at hstart
    rcases hstart with (hupper | hlower) | rfl
    · simp at hupper h
      omega
    · simp at hlower h
      omega
    · simp at h
  unfold first
  rw [if_neg (Bool.eq_false_iff.1 (isSeparator_of_isWordPart hpart)),
    if_neg (ne_of_isWordPart hpart rfl), if_neg (ne_of_isWordPart hpart rfl), if_neg hstart,
    if_pos h]

theorem mem_punctuation {c : Char} {kind : TokenKind} (h : punctuation.lookup c = some kind) :
    (c, kind) ∈ punctuation := by
  obtain ⟨before, after, hsplit, -⟩ := List.lookup_eq_some_iff.1 h
  rw [hsplit]
  exact List.mem_append_right before List.mem_cons_self

/-- What the tokens of each kind look like. -/
theorem first_token_cases {c : Char} {r chars more : List Char} {kind : TokenKind}
    (h : first c r = .ok (.token kind, chars, more)) :
    (kind = .identifier ∧ isWordStart c = true ∧ chars = c :: r.takeWhile isWordPart) ∨
    (kind = .number ∧ c.isDigit = true ∧ chars = c :: (splitNumber r).1) ∨
    (kind = .string ∧ c = '"' ∧ ∃ body, splitString r = .ok (body, more) ∧ chars = c :: body) ∨
    (kind, chars) ∈ [(.doubleColon, [':', ':']), (.colon, [':']), (.arrow, ['-', '>']),
      (.minus, ['-'])] ∨
    ((c, kind) ∈ punctuation ∧ chars = [c]) := by
  unfold first at h
  -- first come the characters that start no token
  split at h
  · cases h
  split at h
  · cases h
  split at h
  · cases h
  split at h
  · rename_i hword
    cases h
    exact .inl ⟨rfl, hword, rfl⟩
  split at h
  · rename_i hdigit
    cases h
    exact .inr (.inl ⟨rfl, hdigit, rfl⟩)
  split at h
  · rename_i hquote
    split at h
    · rename_i body rest hbody
      cases h
      exact .inr (.inr (.inl ⟨rfl, hquote, body, hbody, rfl⟩))
    · cases h
  split at h
  · split at h <;> cases h
  split at h
  · rename_i hcolon
    subst hcolon
    split at h <;> cases h <;> exact .inr (.inr (.inr (.inl (by decide))))
  split at h
  · rename_i hminus
    subst hminus
    split at h <;> cases h <;> exact .inr (.inr (.inr (.inl (by decide))))
  split at h
  · rename_i hlookup
    cases h
    exact .inr (.inr (.inr (.inr ⟨mem_punctuation hlookup, rfl⟩)))
  · cases h

end Lexeme

/-! ## Runs of characters in front of a rest -/

section Runs

variable {p : Char → Bool} {rest : List Char}

theorem takeWhile_append_rest (h : ∀ c ∈ rest.head?, p c = false) (cs : List Char) :
    (cs ++ rest).takeWhile p = cs.takeWhile p := by
  induction cs with
  | nil =>
    cases rest with
    | nil => rfl
    | cons c rest => exact List.takeWhile_cons_of_neg (Bool.eq_false_iff.1 (h c rfl))
  | cons c cs ih => by_cases hc : p c <;> simp [hc, ih]

theorem dropWhile_append_rest (h : ∀ c ∈ rest.head?, p c = false) (cs : List Char) :
    (cs ++ rest).dropWhile p = cs.dropWhile p ++ rest := by
  have hsplit : cs.takeWhile p ++ (cs ++ rest).dropWhile p =
      cs.takeWhile p ++ (cs.dropWhile p ++ rest) := by
    rw [← takeWhile_append_rest h, List.takeWhile_append_dropWhile, takeWhile_append_rest h,
      ← List.append_assoc, List.takeWhile_append_dropWhile]
  exact List.append_cancel_left hsplit

end Runs

/-- No word goes on at the front of the text. -/
def Apart (cs : List Char) : Prop := ∀ c ∈ cs.head?, isWordPart c = false

/-- A number ends in front of a text with which neither it nor its fraction can go on. -/
theorem splitNumber_append_rest {rest : List Char} (h : Apart rest) (hpoint : rest.head? ≠ some '.')
    (cs : List Char) :
    splitNumber (cs ++ rest) = ((splitNumber cs).1, (splitNumber cs).2 ++ rest) := by
  unfold splitNumber
  rw [takeWhile_append_rest h, dropWhile_append_rest h]
  cases hcs : cs.dropWhile isWordPart with
  | nil =>
    cases rest with
    | nil => rfl
    | cons x rest =>
      have hx : x ≠ '.' := fun heq => hpoint (congrArg some heq)
      simp [hx]
  | cons c tail =>
    by_cases hc : c = '.'
    · subst hc
      cases tail with
      | nil =>
        cases rest with
        | nil => rfl
        | cons x rest =>
          have hx : isWordPart x = false := h x rfl
          simp [hx]
      | cons d tail =>
        by_cases hd : isWordPart d = true
        · simp [hd, takeWhile_append_rest h, dropWhile_append_rest h]
        · simp [hd]
    · simp [hc]

/-! ## Texts that are cut as they stand -/

/-- The text is cut into tokens, unless what follows goes on with its last word. -/
def Reads (s : String) (ks : List Shape) : Prop :=
  ∀ rest, Apart rest → Cuts (s.toList ++ rest) ks rest

/-- The text is cut into tokens, whatever follows. -/
def Seals (s : String) (ks : List Shape) : Prop := ∀ rest, Cuts (s.toList ++ rest) ks rest

/-- The text does not go on with a word that stands in front of it. -/
def KeepsApart (s : String) : Prop := ∀ rest, Apart rest → Apart (s.toList ++ rest)

section Pieces

variable {a b : String} {ks ks' : List Shape}

theorem Seals.reads (h : Seals a ks) : Reads a ks := fun rest _ => h rest

theorem seals_empty : Seals "" [] := fun _ => .done

theorem keepsApart_empty : KeepsApart "" := fun _ h => h

theorem apart_of_cons {c : Char} {cs : List Char} (ha : a.toList = c :: cs)
    (hc : isWordPart c = false) (rest : List Char) : Apart (a.toList ++ rest) := by
  rw [ha]
  intro d hd
  cases hd
  exact hc

theorem keepsApart_of_cons {c : Char} {cs : List Char} (ha : a.toList = c :: cs)
    (hc : isWordPart c = false) : KeepsApart a := fun rest _ => apart_of_cons ha hc rest

theorem KeepsApart.append (ha : KeepsApart a) (hb : KeepsApart b) : KeepsApart (a ++ b) := by
  intro rest hrest
  rw [String.toList_append, List.append_assoc]
  exact ha _ (hb rest hrest)

theorem Seals.append (ha : Seals a ks) (hb : Seals b ks') : Seals (a ++ b) (ks ++ ks') := by
  intro rest
  rw [String.toList_append, List.append_assoc]
  exact (ha _).append (hb rest)

theorem Seals.append_reads (ha : Seals a ks) (hb : Reads b ks') : Reads (a ++ b) (ks ++ ks') := by
  intro rest hrest
  rw [String.toList_append, List.append_assoc]
  exact (ha _).append (hb rest hrest)

theorem Reads.append (ha : Reads a ks) (hb : Reads b ks') (hapart : KeepsApart b) :
    Reads (a ++ b) (ks ++ ks') := by
  intro rest hrest
  rw [String.toList_append, List.append_assoc]
  exact (ha _ (hapart rest hrest)).append (hb rest hrest)

theorem Reads.append_seals (ha : Reads a ks) (hb : Seals b ks')
    (hapart : ∀ rest, Apart (b.toList ++ rest)) : Seals (a ++ b) (ks ++ ks') := by
  intro rest
  rw [String.toList_append, List.append_assoc]
  exact (ha _ (hapart rest)).append (hb rest)

end Pieces

/-! ## Words and numbers -/

theorem Shape.Spelled.word {w : String} (h : Shape.Spelled ⟨.identifier, w⟩) :
    ∃ c cs, w.toList = c :: cs ∧ isWordStart c = true ∧ ∀ d ∈ cs, isWordPart d = true := by
  obtain ⟨c, r, chars, more, hfirst, hw⟩ := h
  rcases Lexeme.first_token_cases hfirst with ⟨-, hc, rfl⟩ | ⟨hkind, -⟩ | ⟨hkind, -⟩ | hmark |
    ⟨hmark, -⟩
  · refine ⟨c, r.takeWhile isWordPart, ?_, hc, List.all_eq_true.1 List.all_takeWhile⟩
    rw [show w = _ from hw, String.toList_ofList]
  · cases hkind
  · cases hkind
  · simp at hmark
  · simp [punctuation] at hmark

theorem reads_word {w : String} (h : Shape.Spelled ⟨.identifier, w⟩) :
    Reads w [⟨.identifier, w⟩] := by
  obtain ⟨c, cs, hw, hc, hcs⟩ := h.word
  intro rest hrest
  have hshape : w = String.ofList (c :: cs) := by rw [← hw, String.ofList_toList]
  have hfirst : Lexeme.first c (cs ++ rest) = .ok (.token .identifier, c :: cs, rest) := by
    have htake : rest.takeWhile isWordPart = [] := takeWhile_append_rest hrest []
    have hdrop : rest.dropWhile isWordPart = rest := dropWhile_append_rest hrest []
    rw [Lexeme.first_word hc, List.takeWhile_append_of_pos hcs, List.dropWhile_append_of_pos hcs,
      htake, hdrop, List.append_nil]
  rw [hw, hshape]
  exact .token hfirst .done

/-- A number in brackets ends at the closing bracket. -/
theorem seals_bracketedNumber (n : Nat) :
    Seals ("[" ++ toString n ++ "]")
      [⟨.openBracket, "["⟩, ⟨.number, toString n⟩, ⟨.closeBracket, "]"⟩] := by
  intro rest
  cases hdigits : Nat.toDigits 10 n with
  | nil => exact absurd hdigits Nat.toDigits_ne_nil
  | cons d ds =>
    have hdigit : ∀ c ∈ d :: ds, c.isDigit = true := by
      intro c hc
      exact Nat.isDigit_of_mem_toDigits (by decide) (by decide) (hdigits ▸ hc)
    have hwords : ∀ c ∈ ds, isWordPart c = true := fun c hc =>
      isWordPart_of_isDigit (hdigit c (List.mem_cons_of_mem d hc))
    have hnumber : toString n = String.ofList (d :: ds) := by
      rw [Nat.toString_eq_ofList_toDigits, hdigits]
    have hsplit : splitNumber (ds ++ ']' :: rest) = (ds, ']' :: rest) := by
      have htake : (ds ++ ']' :: rest).takeWhile isWordPart = ds :=
        (List.takeWhile_append_of_pos hwords).trans (List.append_nil ds)
      have hdrop : (ds ++ ']' :: rest).dropWhile isWordPart = ']' :: rest :=
        List.dropWhile_append_of_pos hwords
      rw [splitNumber, htake, hdrop]
      rfl
    have hfirst : Lexeme.first d (ds ++ ']' :: rest) =
        .ok (.token .number, d :: ds, ']' :: rest) := by
      rw [Lexeme.first_number (hdigit d List.mem_cons_self), hsplit]
    have hchars : ("[" ++ toString n ++ "]").toList ++ rest = '[' :: d :: (ds ++ ']' :: rest) := by
      simp [hnumber]
    rw [hchars, hnumber]
    exact .token rfl (.token hfirst (.token rfl .done))

/-! ## Marks -/

/-- A mark of one character is spelled in one way. -/
theorem Shape.Spelled.text_of_mark {k : Shape} (h : k.Spelled) {c : Char}
    (hk : (c, k.kind) ∈ punctuation) : k.text = String.ofList [c] := by
  obtain ⟨d, r, chars, more, hfirst, htext⟩ := h
  have hother : ∀ m ∈ punctuation, m.2 ∉ [TokenKind.identifier, .number, .string, .doubleColon,
      .colon, .arrow, .minus] := by decide
  have hkind := hother _ hk
  rw [htext]
  rcases Lexeme.first_token_cases hfirst with ⟨hword, -⟩ | ⟨hnumber, -⟩ | ⟨hstring, -⟩ | hpair |
    ⟨hmark, rfl⟩
  · simp [hword] at hkind
  · simp [hnumber] at hkind
  · simp [hstring] at hkind
  · simp only [List.mem_cons, Prod.mk.injEq, List.not_mem_nil, or_false] at hpair
    rcases hpair with ⟨heq, -⟩ | ⟨heq, -⟩ | ⟨heq, -⟩ | ⟨heq, -⟩ <;> simp [heq] at hkind
  · have hone : ∀ m ∈ punctuation, ∀ m' ∈ punctuation, m.2 = m'.2 → m.1 = m'.1 := by decide
    rw [show d = c from hone _ hmark _ hk rfl]

theorem Shape.Spelled.text_of_doubleColon {k : Shape} (h : k.Spelled)
    (hk : k.kind = .doubleColon) : k.text = "::" := by
  obtain ⟨c, r, chars, more, hfirst, htext⟩ := h
  rw [hk] at hfirst
  rw [htext]
  rcases Lexeme.first_token_cases hfirst with ⟨hkind, -⟩ | ⟨hkind, -⟩ | ⟨hkind, -⟩ | hmark |
    ⟨hmark, -⟩
  · cases hkind
  · cases hkind
  · cases hkind
  · rw [show chars = [':', ':'] by simpa using hmark]
  · simp [punctuation] at hmark

/-! ## Blanks -/

/-- The text starts with a character that is no blank. -/
def StartsVisibly (s : String) : Prop := ∃ c cs, s.toList = c :: cs ∧ isSeparator c = false

theorem cuts_blank {cs rest : List Char} {ks : List Shape} (h : Cuts cs ks rest)
    (hcs : ∀ c ∈ cs.head?, isSeparator c = false) : Cuts (' ' :: cs) ks rest := by
  have hdrop : cs.dropWhile isSeparator = cs := dropWhile_append_rest hcs []
  have hfirst : Lexeme.first ' ' cs =
      .ok (.trivia .whitespace, ' ' :: cs.takeWhile isSeparator, cs.dropWhile isSeparator) := rfl
  rw [hdrop] at hfirst
  exact .trivia hfirst h

section Blanks

variable {s : String} {ks : List Shape}

theorem StartsVisibly.append (h : StartsVisibly s) (t : String) : StartsVisibly (s ++ t) := by
  obtain ⟨c, cs, hs, hc⟩ := h
  exact ⟨c, cs ++ t.toList, by rw [String.toList_append, hs, List.cons_append], hc⟩

theorem StartsVisibly.head (hs : StartsVisibly s) (rest : List Char) :
    ∀ c ∈ (s.toList ++ rest).head?, isSeparator c = false := by
  obtain ⟨c, cs, hcs, hc⟩ := hs
  rw [hcs]
  intro d hd
  cases hd
  exact hc

theorem StartsVisibly.cuts_blank (hs : StartsVisibly s) {rest : List Char}
    (h : Cuts (s.toList ++ rest) ks rest) : Cuts ((" " ++ s).toList ++ rest) ks rest := by
  have hchars : (" " ++ s).toList ++ rest = ' ' :: (s.toList ++ rest) := by simp
  rw [hchars]
  exact Source.cuts_blank h (hs.head rest)

theorem Reads.behindBlank (h : Reads s ks) (hs : StartsVisibly s) : Reads (" " ++ s) ks :=
  fun rest hrest => hs.cuts_blank (h rest hrest)

theorem keepsApart_blank (s : String) : KeepsApart (" " ++ s) :=
  keepsApart_of_cons String.toList_append rfl

/-- No token starts with a blank. -/
theorem Shape.Spelled.startsVisibly {k : Shape} (h : k.Spelled) : StartsVisibly k.text := by
  obtain ⟨c, r, chars, more, hfirst, htext⟩ := h
  have hchars := Lexeme.first_append hfirst
  cases chars with
  | nil => exact absurd rfl (Lexeme.first_ne_nil hfirst)
  | cons d ds =>
    refine ⟨d, ds, by rw [htext, String.toList_ofList], ?_⟩
    rw [(List.cons.inj hchars).1]
    cases hblank : isSeparator c with
    | false => rfl
    | true =>
      unfold Lexeme.first at hfirst
      rw [if_pos hblank] at hfirst
      cases hfirst

theorem startsVisibly_join {k : Shape} (hk : k.Spelled) (ks : List Shape) :
    StartsVisibly (String.join ((k :: ks).map Shape.text)) := by
  rw [List.map_cons, String.join_cons]
  exact hk.startsVisibly.append _

end Blanks

end KernelGen.Source
