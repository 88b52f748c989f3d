import KernelGen.Proofs.Source.Lossless
import KernelGen.Proofs.Source.Merging
import KernelGen.Source.Document
set_option autoImplicit false

/-!
# Source: where no lexeme starts

A text has no tokens if and only if whole lexemes can be cut off its front up to a place where no
lexeme starts.  That is so at a slash which is not the first of two, at a quote whose string is not
closed on its line, and at a character that no lexeme starts with.  A text is refused at such a
place, or else for the tokens that it has.
-/

namespace KernelGen.Source

/-! ## Strings -/

/-- What may stand between quotes: anything on the line but a quote, and any character of the line
behind a backslash. -/
inductive StringBody : List Char → Prop where
  | nil : StringBody []
  | plain {c : Char} {cs : List Char} : c ≠ '"' → c ≠ '\\' → c ≠ '\n' → StringBody cs →
      StringBody (c :: cs)
  | escaped {c : Char} {cs : List Char} : c ≠ '\n' → StringBody cs → StringBody ('\\' :: c :: cs)

theorem StringBody.split {body : List Char} (h : StringBody body) (rest : List Char) :
    splitString (body ++ '"' :: rest) = .ok (body ++ ['"'], rest) := by
  induction h with
  | nil => rfl
  | @plain c cs hquote hescape hnewline _ ih =>
    rw [List.cons_append, splitString, if_neg hquote, if_neg hnewline, ih]
    · rfl
    · exact fun heq => absurd heq hescape
    · exact fun d r heq => absurd heq hescape
  | escaped hnewline _ ih =>
    rw [List.cons_append, List.cons_append, splitString, if_neg hnewline, ih]
    rfl

theorem exists_stringBody {cs text rest : List Char} (h : splitString cs = .ok (text, rest)) :
    ∃ body, StringBody body ∧ text = body ++ ['"'] ∧ cs = body ++ '"' :: rest := by
  fun_induction splitString cs generalizing text rest with
  | case4 c r hc body' rest' hr ih =>
    cases h
    obtain ⟨body, hbody, rfl, rfl⟩ := ih hr
    exact ⟨'\\' :: c :: body, .escaped hc hbody, rfl, rfl⟩
  | case6 r =>
    cases h
    exact ⟨[], .nil, rfl, rfl⟩
  | case8 c r hlone hescape hquote hnewline body' rest' hr ih =>
    cases h
    obtain ⟨body, hbody, rfl, rfl⟩ := ih hr
    refine ⟨c :: body, .plain hquote (fun heq => ?_) hnewline hbody, rfl, rfl⟩
    cases body with
    | nil => exact hescape _ _ heq rfl
    | cons d body => exact hescape _ _ heq rfl
  | _ => cases h

/-! ## Lexemes -/

/-- A lexeme starts with the character, whatever follows. -/
def startsAny (c : Char) : Bool :=
  isSeparator c || c == '\n' || c == '#' || isWordStart c || c.isDigit || c == ':' || c == '-' ||
    (punctuation.lookup c).isSome

/-- A lexeme starts with the character in front of what follows. -/
inductive StartsLexeme : Char → List Char → Prop where
  | any {c : Char} {r : List Char} : startsAny c = true → StartsLexeme c r
  | comment (r : List Char) : StartsLexeme '/' ('/' :: r)
  | string {body : List Char} (r : List Char) : StringBody body →
      StartsLexeme '"' (body ++ '"' :: r)

theorem first_quote (r : List Char) : Lexeme.first '"' r = match splitString r with
    | .ok (body, rest) => .ok (.token .string, '"' :: body, rest)
    | .error body => .error ('"' :: body) := rfl

theorem first_slash (r : List Char) : Lexeme.first '/' r = match r with
    | '/' :: _ => .ok (.trivia .lineComment, '/' :: r.takeWhile isInLine, r.dropWhile isInLine)
    | '*' :: body => .error ('/' :: '*' :: blockComment body)
    | _ => .error ['/'] := rfl

theorem first_isOk_iff_startsAny {c : Char} (hquote : c ≠ '"') (hslash : c ≠ '/') (r : List Char) :
    (∃ kind chars rest, Lexeme.first c r = .ok (kind, chars, rest)) ↔ startsAny c = true := by
  unfold Lexeme.first
  by_cases hseparator : isSeparator c = true
  · rw [if_pos hseparator]
    exact iff_of_true ⟨_, _, _, rfl⟩ (by simp [startsAny, hseparator])
  by_cases hnewline : c = '\n'
  · rw [if_neg hseparator, if_pos hnewline]
    exact iff_of_true ⟨_, _, _, rfl⟩ (by simp [startsAny, hnewline])
  by_cases hhash : c = '#'
  · rw [if_neg hseparator, if_neg hnewline, if_pos hhash]
    exact iff_of_true ⟨_, _, _, rfl⟩ (by simp [startsAny, hhash])
  by_cases hword : isWordStart c = true
  · rw [if_neg hseparator, if_neg hnewline, if_neg hhash, if_pos hword]
    exact iff_of_true ⟨_, _, _, rfl⟩ (by simp [startsAny, hword])
  rw [if_neg hseparator, if_neg hnewline, if_neg hhash, if_neg hword]
  by_cases hdigit : c.isDigit = true
  · rw [if_pos hdigit]
    exact iff_of_true ⟨_, _, _, rfl⟩ (by simp [startsAny, hdigit])
  rw [if_neg hdigit, if_neg hquote, if_neg hslash]
  by_cases hcolon : c = ':'
  · rw [if_pos hcolon]
    exact iff_of_true (by split <;> exact ⟨_, _, _, rfl⟩) (by simp [startsAny, hcolon])
  by_cases hminus : c = '-'
  · rw [if_neg hcolon, if_pos hminus]
    exact iff_of_true (by split <;> exact ⟨_, _, _, rfl⟩) (by simp [startsAny, hminus])
  rw [if_neg hcolon, if_neg hminus]
  cases hmark : punctuation.lookup c with
  | some kind => exact iff_of_true ⟨_, _, _, rfl⟩ (by simp [startsAny, hmark])
  | none =>
    have hnone : startsAny c = false := by
      simp [startsAny, hseparator, hnewline, hhash, hword, hdigit, hcolon, hminus, hmark]
    exact iff_of_false (by rintro ⟨_, _, _, h⟩; cases h) (by simp [hnone])

/-- A lexeme can be cut off exactly where one starts. -/
theorem first_isOk_iff {c : Char} {r : List Char} :
    (∃ kind chars rest, Lexeme.first c r = .ok (kind, chars, rest)) ↔ StartsLexeme c r := by
  constructor
  · rintro ⟨kind, chars, rest, h⟩
    by_cases hquote : c = '"'
    · subst hquote
      rw [first_quote] at h
      cases hsplit : splitString r with
      | error body =>
        rw [hsplit] at h
        cases h
      | ok parts =>
        obtain ⟨body, hbody, -, rfl⟩ := exists_stringBody hsplit
        exact .string _ hbody
    by_cases hslash : c = '/'
    · subst hslash
      rw [first_slash] at h
      split at h
      · exact .comment _
      · cases h
      · cases h
    exact .any ((first_isOk_iff_startsAny hquote hslash r).1 ⟨_, _, _, h⟩)
  · rintro (h | r | ⟨r, hbody⟩)
    · have hquote : c ≠ '"' := fun heq => absurd (heq ▸ h) (by decide)
      have hslash : c ≠ '/' := fun heq => absurd (heq ▸ h) (by decide)
      exact (first_isOk_iff_startsAny hquote hslash r).2 h
    · exact ⟨_, _, _, first_slash _⟩
    · exact ⟨_, _, _, first_string (hbody.split r)⟩

/-! ## Texts -/

/-- Behind whole lexemes there is a place in the text at which none starts. -/
def HasStray (text : String) : Prop :=
  ∃ ks c r, Cuts text.toList ks (c :: r) ∧ ¬ StartsLexeme c r

theorem not_startsLexeme_of_first {c : Char} {r chars : List Char}
    (h : Lexeme.first c r = .error chars) : ¬ StartsLexeme c r := by
  intro hstarts
  obtain ⟨_, _, _, hok⟩ := first_isOk_iff.2 hstarts
  cases h.symm.trans hok

/-- What is refused is the front of what is left behind whole lexemes, and is located there. -/
theorem exists_stray_of_scan {l : Location} {cs : List Char} {e : StrayText}
    (h : Lexeme.scan l cs = .error e) :
    ∃ ks before c r, Cuts cs ks (c :: r) ∧ cs = before ++ c :: r ∧
      Lexeme.first c r = .error e.text.toList ∧ e.location = l.advance before := by
  fun_induction Lexeme.scan l cs generalizing e with
  | case1 => cases h
  | case2 l c r chars hfirst =>
    cases h
    exact ⟨[], [], c, r, .done, rfl, by rw [hfirst, String.toList_ofList], rfl⟩
  | case3 l c r kind chars more hfirst e' hmore ih =>
    cases h
    obtain ⟨ks, before, d, r', hcuts, hsplit, hstray, hlocation⟩ := ih hmore
    have hchars : c :: r = (chars ++ before) ++ d :: r' := by
      rw [← Lexeme.first_append hfirst, hsplit, List.append_assoc]
    rw [← Location.advance_append] at hlocation
    cases kind with
    | token kind => exact ⟨_, _, d, r', .token hfirst hcuts, hchars, hstray, hlocation⟩
    | trivia kind => exact ⟨_, _, d, r', .trivia hfirst hcuts, hchars, hstray, hlocation⟩
  | case4 => cases h

/-- What is left when whole lexemes are cut off a text that is cut to its end is cut to its end. -/
theorem Cuts.behind {cs more : List Char} {ks ks' : List Shape} (h : Cuts cs ks more)
    (hall : Cuts cs ks' []) : ∃ ks'', Cuts more ks'' [] := by
  induction h generalizing ks' with
  | done => exact ⟨ks', hall⟩
  | token hfirst _ ih =>
    obtain ⟨back, -, hmore⟩ := hall.of_token hfirst
    exact ih hmore
  | trivia hfirst _ ih => exact ih (hall.of_trivia hfirst)

/-- **A text has no tokens if and only if no lexeme starts somewhere behind whole ones.** -/
theorem tokenize_fails_iff {text : String} :
    (∃ e, tokenize text = .error e) ↔ HasStray text := by
  constructor
  · rintro ⟨e, h⟩
    obtain ⟨ks, -, c, r, hcuts, -, hfirst, -⟩ := exists_stray_of_scan (tokenize_eq_error.1 h)
    exact ⟨ks, c, r, hcuts, not_startsLexeme_of_first hfirst⟩
  · rintro ⟨ks, c, r, hcuts, hstray⟩
    cases h : tokenize text with
    | error e => exact ⟨e, rfl⟩
    | ok ts =>
      obtain ⟨ks', hall, -⟩ := exists_cuts h
      obtain ⟨ks'', hbehind⟩ := hcuts.behind hall
      refine absurd (first_isOk_iff.1 ?_) hstray
      cases hbehind with
      | token hfirst _ => exact ⟨_, _, _, hfirst⟩
      | trivia hfirst _ => exact ⟨_, _, _, hfirst⟩

/-! ## Reading -/

section Read

variable {α : Type} {ofTokens : List Token → Except SyntaxFault α} {text : String}

theorem read_eq_ok {a : α} : read ofTokens text = .ok a ↔
    ∃ ts, tokenize text = .ok ts ∧ ofTokens ts = .ok a := by
  unfold read
  cases tokenize text with
  | error e => simp
  | ok ts => cases hread : ofTokens ts <;> simp [hread]

theorem read_eq_stray {e : StrayText} :
    read ofTokens text = .error (.stray e) ↔ tokenize text = .error e := by
  unfold read
  cases tokenize text with
  | error e => simp
  | ok ts => cases hread : ofTokens ts <;> simp [hread]

theorem read_eq_unexpected {f : SyntaxFault} : read ofTokens text = .error (.unexpected f) ↔
    ∃ ts, tokenize text = .ok ts ∧ ofTokens ts = .error f := by
  unfold read
  cases tokenize text with
  | error e => simp
  | ok ts => cases hread : ofTokens ts <;> simp [hread]

/-- A text is refused for want of tokens exactly when it has a stray place. -/
theorem read_refuses_stray_iff {e : ReadError} (h : read ofTokens text = .error e) :
    (∃ s, e = .stray s) ↔ HasStray text := by
  rw [← tokenize_fails_iff]
  constructor
  · rintro ⟨s, rfl⟩
    exact ⟨s, read_eq_stray.1 h⟩
  · rintro ⟨s, hs⟩
    exact ⟨s, Except.error.inj (h.symm.trans (read_eq_stray.2 hs))⟩

end Read

end KernelGen.Source
