import KernelGen.Proofs.Source.Joining
set_option autoImplicit false

/-!
# Source: a text with a comment behind it

When a text ends with its last token, a comment behind it on the same line trails that token, and
all the other tokens of the text stay as they are.
-/

namespace KernelGen.Source

/-- The tokens in front of some lexemes are decided by these and by the trivia that the lexemes
begin with. -/
theorem exists_attach_append (ys : List Lexeme) (run : List Trivia) :
    ∃ run' front leading, ∀ (l : Location) (ws : List Lexeme) (t : Token) (ts : List Token),
      attach l ws = (run, { t with leading := [] } :: ts) →
        attach l (ys ++ ws) = (run', front ++ { t with leading := leading } :: ts) := by
  induction ys with
  | nil => exact ⟨run, [], [], fun l ws t ts h => h⟩
  | cons y ys ih =>
    obtain ⟨run', front, leading, hys⟩ := ih
    cases hy : y.kind with
    | trivia kind =>
      refine ⟨⟨kind, String.ofList y.chars⟩ :: run', front, leading, fun l ws t ts h => ?_⟩
      rw [List.cons_append, attach_trivia hy, hys l ws t ts h]
    | token kind =>
      let first : Token := ⟨kind, String.ofList y.chars, y.location, [], (divide run').1⟩
      cases front with
      | nil =>
        refine ⟨[], [first], (divide run').2, fun l ws t ts h => ?_⟩
        rw [List.cons_append, attach_token hy, hys l ws t ts h]
        rfl
      | cons u front =>
        refine ⟨[], first :: { u with leading := (divide run').2 } :: front, leading,
          fun l ws t ts h => ?_⟩
        rw [List.cons_append, attach_token hy, hys l ws t ts h]
        rfl

theorem exists_tokensOf_append (ys : List Lexeme) (run : List Trivia) :
    ∃ front leading, ∀ (l : Location) (ws : List Lexeme) (t : Token) (ts : List Token),
      attach l ws = (run, { t with leading := [] } :: ts) →
        tokensOf l (ys ++ ws) = front ++ { t with leading := leading } :: ts := by
  obtain ⟨run', front, leading, hys⟩ := exists_attach_append ys run
  cases front with
  | nil =>
    refine ⟨[], run', fun l ws t ts h => ?_⟩
    rw [tokensOf, hys l ws t ts h]
    rfl
  | cons u front =>
    refine ⟨{ u with leading := run' } :: front, leading, fun l ws t ts h => ?_⟩
    rw [tokensOf, hys l ws t ts h]
    rfl

theorem Divided.eq_nil {run back : List Trivia} (h : Divided run [] back) : run = [] := by
  generalize hfront : ([] : List Trivia) = front at h
  cases h with
  | whole => rfl
  | newline => exact absurd hfront.symm (by simp)

/-- The last lexeme of a text is the last token in front of the end, if nothing trails that one. -/
theorem exists_last_lexeme {l : Location} {xs : List Lexeme} {front : List Token} {t e : Token}
    (hxs : ∀ x ∈ xs, x.kind ≠ .token .eof) (h : tokensOf l xs = front ++ [t, e])
    (ht : t.trailing = []) (he : e.kind = .eof) : ∃ ys x, xs = ys ++ [x] ∧ x.Is t := by
  obtain ⟨front', leading, hall⟩ := neighbours_of_leadWith h
  obtain ⟨run, ⟨ys, x, back, rfl, his, hbehind⟩, hdivided⟩ := attach_between l xs hall
  rw [ht] at hdivided
  rw [hdivided.eq_nil] at hbehind
  obtain ⟨between, rest, rfl, hbetween, hrest⟩ := hbehind
  rw [List.map_nil, List.map_eq_nil_iff] at hbetween
  subst hbetween
  cases rest with
  | nil => exact ⟨ys, x, rfl, his⟩
  | cons y rest =>
    refine absurd (hrest.1.trans (congrArg _ he)) (hxs y ?_)
    simp

theorem first_comment {note : List Char} (hnote : '\n' ∉ note) :
    Lexeme.first '/' ('/' :: ' ' :: note) =
      .ok (.trivia .lineComment, '/' :: '/' :: ' ' :: note, []) := by
  have hline : ∀ c ∈ '/' :: ' ' :: note, isInLine c = true := by
    intro c hc
    rw [isInLine, bne_iff_ne]
    rintro rfl
    exact hnote (by simpa using hc)
  have hfirst : Lexeme.first '/' ('/' :: ' ' :: note) =
      .ok (.trivia .lineComment, '/' :: ('/' :: ' ' :: note).takeWhile isInLine,
        ('/' :: ' ' :: note).dropWhile isInLine) := rfl
  rw [hfirst, List.takeWhile_eq_self_iff.2 hline, List.dropWhile_eq_nil_iff.2 hline]

theorem scan_comment (l : Location) {note : List Char} (hnote : '\n' ∉ note) :
    Lexeme.scan l (' ' :: '/' :: '/' :: ' ' :: note) = .ok
      [⟨.trivia .whitespace, [' '], l⟩,
        ⟨.trivia .lineComment, '/' :: '/' :: ' ' :: note, l.advance [' ']⟩] := by
  have hblank : Lexeme.first ' ' ('/' :: '/' :: ' ' :: note) =
      .ok (.trivia .whitespace, [' '], '/' :: '/' :: ' ' :: note) := rfl
  rw [Lexeme.scan_of_first hblank, Lexeme.scan_of_first (first_comment hnote), Lexeme.scan]
  rfl

theorem divide_of_forall_ne {run : List Trivia} (h : ∀ u ∈ run, u.kind ≠ .newline) :
    divide run = (run, []) := by
  induction run with
  | nil => rfl
  | cons u run ih =>
    obtain ⟨hu, hmore⟩ := List.forall_mem_cons.1 h
    rw [divide_cons_of_ne hu, ih hmore]

/-- The last token keeps the trivia behind it, if that has no newline. -/
theorem attach_last {l : Location} {x : Lexeme} {zs : List Lexeme} {t : Token} {run : List Trivia}
    (hx : x.Is t) (hzs : attach l zs = (run, [Token.endOfText l []]))
    (hrun : ∀ u ∈ run, u.kind ≠ .newline) :
    attach l (x :: zs) =
      ([], { t with leading := [], trailing := run } :: [Token.endOfText l []]) := by
  obtain ⟨hkind, htext, hlocation⟩ := hx
  rw [attach_token hkind, htext, hlocation, hzs, divide_of_forall_ne hrun]
  rfl

/-- The token with a comment behind it. -/
def Token.commented (note : String) (t : Token) : Token :=
  { t with trailing := [⟨.whitespace, " "⟩, ⟨.lineComment, "// " ++ note⟩] }

/-- A comment behind the last token of a text trails that token, and nothing else changes. -/
theorem tokenize_commented {text note : String} {front : List Token} {t e : Token}
    (h : tokenize text = .ok (front ++ [t, e])) (ht : t.trailing = [])
    (hnote : '\n' ∉ note.toList) :
    ∃ e', e'.kind = .eof ∧
      tokenize (text ++ " // " ++ note) = .ok (front ++ [t.commented note, e']) := by
  obtain ⟨us, last, hsplit, hlast, -⟩ := endsText_of_tokenize h
  rw [List.append_cons] at hsplit
  obtain ⟨-, he⟩ := List.append_inj' hsplit rfl
  obtain rfl := (List.cons.inj he).1
  obtain ⟨xs, hscan, htokens⟩ := tokenize_eq_ok h
  obtain ⟨ys, x, rfl, hx⟩ := exists_last_lexeme
    (fun x hx => (Lexeme.visible_of_scan hscan x hx).2) htokens.symm ht hlast
  obtain ⟨front', leading, hys⟩ := exists_tokensOf_append ys []
  -- the last token is read with nothing behind it, and then with the comment
  have hbare : attach (Location.start.advance text.toList) [x] = ([],
      { t with leading := [], trailing := [] } ::
        [Token.endOfText (Location.start.advance text.toList) []]) :=
    attach_last hx rfl (List.forall_mem_nil _)
  have hplain := hys _ _ { t with trailing := [] } _ hbare
  rw [← htokens] at hplain
  obtain ⟨rfl, hsame⟩ := List.append_inj' hplain rfl
  obtain rfl : t.leading = leading := congrArg Token.leading (List.cons.inj hsame).1
  have hbehind : (text ++ " // " ++ note).toList =
      text.toList ++ ' ' :: '/' :: '/' :: ' ' :: note.toList := by simp
  have hblank : BeginsBlank (' ' :: '/' :: '/' :: ' ' :: note.toList) := by
    intro c hc
    cases hc
    exact .inl rfl
  have hends : ∀ z ∈ (ys ++ [x]).getLast?, Lexeme.IsTrivia z.kind →
      BeginsLine (' ' :: '/' :: '/' :: ' ' :: note.toList) := by
    rintro z hz ⟨kind, hkind⟩
    rw [List.getLast?_concat] at hz
    cases hz
    cases hx.1.symm.trans hkind
  have hall := Lexeme.scan_append hscan hblank hends
  rw [scan_comment _ hnote] at hall
  have hnoteText : String.ofList ('/' :: '/' :: ' ' :: note.toList) = "// " ++ note := by
    rw [← String.toList_inj]
    simp
  refine ⟨Token.endOfText (Location.start.advance (text ++ " // " ++ note).toList) [], rfl, ?_⟩
  rw [tokenize, hbehind, hall]
  refine congrArg Except.ok ?_
  dsimp only
  rw [List.append_assoc]
  refine hys _ _ (t.commented note) _ (attach_last hx ?_ ?_)
  · rw [Token.commented, ← hnoteText]
    rfl
  · simp [Token.commented]

end KernelGen.Source
