import KernelGen.Proofs.Source.Spelling
set_option autoImplicit false

/-!
# Source: nothing of a text is lost

Tokenizing loses nothing of a text and makes nothing up: every piece of it is a token, or is trivia
that one of the tokens owns.  `tokenize_lossless` says that the tokens, each with its trivia in
front and behind, are the text, and that no piece is empty but the end.
-/

namespace KernelGen.Source

/-! ## Lexemes and tokens -/

namespace Lexeme

/-- The lexeme is the token, whatever trivia the token owns. -/
def Is (x : Lexeme) (t : Token) : Prop :=
  x.kind = .token t.kind ∧ String.ofList x.chars = t.text ∧ x.location = t.location

/-- The piece of trivia that the lexeme is, unless it is a token. -/
def trivia? (x : Lexeme) : Option Trivia :=
  match x.kind with
  | .trivia kind => some ⟨kind, String.ofList x.chars⟩
  | .token _ => none

end Lexeme

section Attach

variable {l : Location} {x : Lexeme} {xs : List Lexeme}

theorem attach_trivia {kind : TriviaKind} (h : x.kind = .trivia kind) :
    attach l (x :: xs) =
      (⟨kind, String.ofList x.chars⟩ :: (attach l xs).1, (attach l xs).2) := by
  rw [attach, h]

theorem attach_token {kind : TokenKind} (h : x.kind = .token kind) :
    attach l (x :: xs) =
      ([], ⟨kind, String.ofList x.chars, x.location, [], (divide (attach l xs).1).1⟩ ::
        leadWith (divide (attach l xs).1).2 (attach l xs).2) := by
  rw [attach, h]

/-- There is a first token, and what leads it is kept apart. -/
theorem exists_first_attach (l : Location) (xs : List Lexeme) :
    ∃ t ts, (attach l xs).2 = t :: ts ∧ t.leading = [] := by
  induction xs with
  | nil => exact ⟨Token.endOfText l [], [], rfl, rfl⟩
  | cons x xs ih =>
    cases hx : x.kind with
    | trivia kind => rwa [attach_trivia hx]
    | token kind =>
      rw [attach_token hx]
      exact ⟨_, _, rfl, rfl⟩

end Attach

/-! ## Nothing is lost -/

/-- The text of a run of trivia. -/
def runText (run : List Trivia) : String := String.join (run.map Trivia.text)

/-- The piece of the text that the token owns: itself, with its trivia on both sides. -/
def Token.source (t : Token) : String := runText t.leading ++ (t.text ++ runText t.trailing)

theorem runText_cons (u : Trivia) (run : List Trivia) :
    runText (u :: run) = u.text ++ runText run := by
  rw [runText, List.map_cons, String.join_cons, runText]

theorem runText_append (run run' : List Trivia) :
    runText (run ++ run') = runText run ++ runText run' := by
  rw [runText, List.map_append, String.join_append, runText, runText]

theorem join_source_leadWith {run : List Trivia} {t : Token} (ts : List Token)
    (ht : t.leading = []) :
    String.join ((leadWith run (t :: ts)).map Token.source) =
      runText run ++ String.join ((t :: ts).map Token.source) := by
  have hempty : runText [] = "" := rfl
  simp [leadWith, Token.source, ht, hempty, String.append_assoc]

/-- The tokens of lexemes, and the trivia in front of them, are the lexemes. -/
theorem join_source_attach (l : Location) (xs : List Lexeme) :
    runText (attach l xs).1 ++ String.join ((attach l xs).2.map Token.source) =
      String.join (xs.map fun x => String.ofList x.chars) := by
  induction xs with
  | nil => rfl
  | cons x xs ih =>
    cases hx : x.kind with
    | trivia kind =>
      rw [attach_trivia hx, runText_cons, String.append_assoc, ih, List.map_cons, String.join_cons]
    | token kind =>
      obtain ⟨t, ts, hts, ht⟩ := exists_first_attach l xs
      have hrun : runText (divide (attach l xs).1).1 ++ runText (divide (attach l xs).1).2 =
          runText (attach l xs).1 := by
        rw [← runText_append, divide_append]
      rw [attach_token hx, List.map_cons, String.join_cons, hts, join_source_leadWith ts ht, ← hts]
      simp only [Token.source, List.map_cons, String.join_cons, ← ih, ← hrun]
      simp [runText, String.append_assoc]

theorem Lexeme.flatMap_chars_of_scan {l : Location} {cs : List Char} {xs : List Lexeme}
    (h : Lexeme.scan l cs = .ok xs) : xs.flatMap Lexeme.chars = cs := by
  fun_induction Lexeme.scan l cs generalizing xs with
  | case1 => cases h; rfl
  | case2 => cases h
  | case3 => cases h
  | case4 l c r kind chars rest hfirst more hmore ih =>
    cases h
    rw [List.flatMap_cons, ih hmore, Lexeme.first_append hfirst]

theorem Lexeme.kind_ne_eof {c : Char} {r chars more : List Char} :
    Lexeme.first c r ≠ .ok (.token .eof, chars, more) := by
  intro h
  rcases Lexeme.first_token_cases h with ⟨hkind, -⟩ | ⟨hkind, -⟩ | ⟨hkind, -⟩ | hmark | ⟨hmark, -⟩
  · cases hkind
  · cases hkind
  · cases hkind
  · simp at hmark
  · simp [punctuation] at hmark

theorem mem_leadWith {run : List Trivia} {ts : List Token} {t : Token}
    (h : t ∈ leadWith run ts) : t ∈ ts ∨ ∃ u ∈ ts, t = { u with leading := run } := by
  cases ts with
  | nil => exact absurd h List.not_mem_nil
  | cons u ts =>
    rcases List.mem_cons.1 h with rfl | h
    · exact .inr ⟨u, List.mem_cons_self, rfl⟩
    · exact .inl (List.mem_cons_of_mem u h)

/-- What does not depend on leading trivia holds when the first token is given some. -/
theorem forall_mem_leadWith {P : Token → Prop} {ts : List Token} (h : ∀ t ∈ ts, P t)
    (hP : ∀ t leading, P t → P { t with leading := leading }) (run : List Trivia) :
    ∀ t ∈ leadWith run ts, P t := by
  intro t ht
  rcases mem_leadWith ht with ht | ⟨u, hu, rfl⟩
  · exact h t ht
  · exact hP u run (h u hu)

/-- Trivia is never made up. -/
theorem exists_lexeme_of_trivia (l : Location) (xs : List Lexeme) :
    (∀ u ∈ (attach l xs).1, ∃ x ∈ xs, x.trivia? = some u) ∧
    ∀ t ∈ (attach l xs).2, ∀ u ∈ t.leading ++ t.trailing, ∃ x ∈ xs, x.trivia? = some u := by
  induction xs with
  | nil =>
    refine ⟨fun u hu => absurd hu List.not_mem_nil, fun t ht u hu => ?_⟩
    rw [attach, List.mem_singleton] at ht
    rw [ht] at hu
    exact absurd hu List.not_mem_nil
  | cons x xs ih =>
    obtain ⟨ihFront, ihTokens⟩ := ih
    have hmore : ∀ {u : Trivia}, (∃ y ∈ xs, y.trivia? = some u) →
        ∃ y ∈ x :: xs, y.trivia? = some u := by
      rintro u ⟨y, hy, hu⟩
      exact ⟨y, List.mem_cons_of_mem x hy, hu⟩
    cases hx : x.kind with
    | trivia kind =>
      rw [attach_trivia hx]
      refine ⟨fun u hu => ?_, fun t ht u hu => hmore (ihTokens t ht u hu)⟩
      rcases List.mem_cons.1 hu with rfl | hu
      · exact ⟨x, List.mem_cons_self, by rw [Lexeme.trivia?, hx]⟩
      · exact hmore (ihFront u hu)
    | token kind =>
      have hparts : ∀ u ∈ (divide (attach l xs).1).1 ++ (divide (attach l xs).1).2,
          ∃ y ∈ x :: xs, y.trivia? = some u :=
        fun u hu => hmore (ihFront u (divide_append (attach l xs).1 ▸ hu))
      rw [attach_token hx]
      refine ⟨fun u hu => absurd hu List.not_mem_nil, fun t ht u hu => ?_⟩
      rcases List.mem_cons.1 ht with rfl | ht
      · exact hparts u (List.mem_append_left _ hu)
      rcases mem_leadWith ht with ht | ⟨t', ht', rfl⟩
      · exact hmore (ihTokens t ht u hu)
      rcases List.mem_append.1 hu with hu | hu
      · exact hparts u (List.mem_append_right _ hu)
      · exact hmore (ihTokens t' ht' u (List.mem_append_right _ hu))

/-- A token is a lexeme, or the end of the text. -/
theorem is_or_end_of_mem_attach (l : Location) (xs : List Lexeme) :
    ∀ t ∈ (attach l xs).2, (∃ x ∈ xs, x.Is t) ∨ t.kind = .eof ∧ t.text = "" := by
  induction xs with
  | nil =>
    intro t ht
    rw [attach, List.mem_singleton] at ht
    exact .inr (ht ▸ ⟨rfl, rfl⟩)
  | cons x xs ih =>
    have hmore : ∀ t ∈ (attach l xs).2,
        (∃ y ∈ x :: xs, y.Is t) ∨ t.kind = .eof ∧ t.text = "" := by
      intro t ht
      refine (ih t ht).imp_left ?_
      rintro ⟨y, hy, his⟩
      exact ⟨y, List.mem_cons_of_mem x hy, his⟩
    cases hx : x.kind with
    | trivia kind =>
      rw [attach_trivia hx]
      exact hmore
    | token kind =>
      rw [attach_token hx]
      refine List.forall_mem_cons.2 ⟨.inl ⟨x, List.mem_cons_self, hx, rfl, rfl⟩, ?_⟩
      exact forall_mem_leadWith hmore (fun _ _ ht => ht) _

/-- No lexeme is empty, and none is the end of the text. -/
theorem Lexeme.visible_of_scan {l : Location} {cs : List Char} {xs : List Lexeme}
    (h : Lexeme.scan l cs = .ok xs) : ∀ x ∈ xs, x.chars ≠ [] ∧ x.kind ≠ .token .eof := by
  fun_induction Lexeme.scan l cs generalizing xs with
  | case1 => cases h; exact fun x hx => absurd hx List.not_mem_nil
  | case2 => cases h
  | case3 => cases h
  | case4 l c r kind chars rest hfirst more hmore ih =>
    cases h
    intro x hx
    rcases List.mem_cons.1 hx with rfl | hx
    · refine ⟨Lexeme.first_ne_nil hfirst, fun heof => ?_⟩
      rw [show kind = .token .eof from heof] at hfirst
      exact Lexeme.kind_ne_eof hfirst
    · exact ih hmore x hx

theorem tokenize_eq_ok {text : String} {ts : List Token} (h : tokenize text = .ok ts) :
    ∃ xs, Lexeme.scan .start text.toList = .ok xs ∧
      ts = tokensOf (Location.start.advance text.toList) xs := by
  unfold tokenize at h
  cases hscan : Lexeme.scan .start text.toList with
  | error e => rw [hscan] at h; cases h
  | ok xs => rw [hscan] at h; cases h; exact ⟨xs, rfl, rfl⟩

theorem tokenize_eq_error {text : String} {e : StrayText} :
    tokenize text = .error e ↔ Lexeme.scan .start text.toList = .error e := by
  unfold tokenize
  cases Lexeme.scan .start text.toList with
  | error e' => simp [Except.map]
  | ok xs => simp [Except.map]

section TokensOf

variable (l : Location) (xs : List Lexeme)

theorem join_source_tokensOf :
    String.join ((tokensOf l xs).map Token.source) =
      String.join (xs.map fun x => String.ofList x.chars) := by
  obtain ⟨t, ts, hts, ht⟩ := exists_first_attach l xs
  rw [tokensOf, hts, join_source_leadWith ts ht, ← hts, join_source_attach]

theorem exists_lexeme_of_trivia_tokensOf :
    ∀ t ∈ tokensOf l xs, ∀ u ∈ t.leading ++ t.trailing, ∃ x ∈ xs, x.trivia? = some u := by
  obtain ⟨hfront, hmore⟩ := exists_lexeme_of_trivia l xs
  intro t ht u hu
  rcases mem_leadWith ht with ht | ⟨t', ht', rfl⟩
  · exact hmore t ht u hu
  rcases List.mem_append.1 hu with hu | hu
  · exact hfront u hu
  · exact hmore t' ht' u (List.mem_append_right _ hu)

theorem is_or_end_of_mem_tokensOf :
    ∀ t ∈ tokensOf l xs, (∃ x ∈ xs, x.Is t) ∨ t.kind = .eof ∧ t.text = "" :=
  forall_mem_leadWith (is_or_end_of_mem_attach l xs) (fun _ _ ht => ht) _

end TokensOf

/-- **Tokens and their trivia are the text.**  Nothing is dropped and nothing is made up; and only
the end of the text is an empty piece of it. -/
theorem tokenize_lossless {text : String} {ts : List Token} (h : tokenize text = .ok ts) :
    String.join (ts.map Token.source) = text ∧
    ∀ t ∈ ts, (t.text = "" ↔ t.kind = .eof) ∧ ∀ u ∈ t.leading ++ t.trailing, u.text ≠ "" := by
  obtain ⟨xs, hscan, rfl⟩ := tokenize_eq_ok h
  have hvisible := Lexeme.visible_of_scan hscan
  have htext : ∀ x ∈ xs, String.ofList x.chars ≠ "" := fun x hx hempty =>
    (hvisible x hx).1 (String.ofList_eq_empty_iff.1 hempty)
  refine ⟨?_, fun t ht => ⟨?_, fun u hu => ?_⟩⟩
  · rw [join_source_tokensOf, ← String.toList_inj, String.toList_join, List.flatMap_map]
    simpa using Lexeme.flatMap_chars_of_scan hscan
  · rcases is_or_end_of_mem_tokensOf _ _ t ht with ⟨x, hx, hkind, hchars, -⟩ | ⟨hkind, hempty⟩
    · refine iff_of_false (hchars ▸ htext x hx) fun heof => (hvisible x hx).2 ?_
      rw [hkind, heof]
    · exact iff_of_true hempty hkind
  · obtain ⟨x, hx, hu⟩ := exists_lexeme_of_trivia_tokensOf _ _ t ht u hu
    unfold Lexeme.trivia? at hu
    split at hu <;> cases hu
    exact htext x hx

/-! ## A text at work -/

/-- A text with trivia of each kind: a comment behind a token, and a directive in front of one. -/
def notedText : String := " f // \t a\n\n#b\ng "

/-- The tokens of `notedText`. -/
def notedTokens : List Token :=
  [⟨.identifier, "f", ⟨1, 2⟩, [⟨.whitespace, " "⟩],
      [⟨.whitespace, " "⟩, ⟨.lineComment, "// \t a"⟩, ⟨.newline, "\n"⟩]⟩,
    ⟨.identifier, "g", ⟨4, 1⟩, [⟨.newline, "\n"⟩, ⟨.directive, "#b"⟩, ⟨.newline, "\n"⟩],
      [⟨.whitespace, " "⟩]⟩,
    Token.endOfText ⟨4, 3⟩ []]

theorem tokenize_notedText : tokenize notedText = .ok notedTokens := by cbv

theorem tokenize_lossless_notedText :
    tokenize notedText = .ok notedTokens ∧
    String.join (notedTokens.map Token.source) = notedText ∧
    ∀ t ∈ notedTokens, (t.text = "" ↔ t.kind = .eof) ∧
      ∀ u ∈ t.leading ++ t.trailing, u.text ≠ "" :=
  ⟨tokenize_notedText, tokenize_lossless tokenize_notedText⟩

end KernelGen.Source
