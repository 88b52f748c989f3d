import KernelGen.Proofs.Source.Joining
import KernelGen.Proofs.Source.Strays
set_option autoImplicit false

/-!
# Source: lines and tokens

No lexeme but the end of a line has the end of a line in it.  So the tokens of a text are those of
its first line and, behind them, those of the other lines; and a text keeps the tokens it has when
it goes on with the end of a line.
-/

namespace KernelGen.Source

/-! ## Lexemes stay on their line -/

theorem isInLine_of_isWordPart {c : Char} (h : isWordPart c = true) : isInLine c = true :=
  bne_iff_ne.2 (ne_of_isWordPart h rfl)

theorem StringBody.inLine {body : List Char} (h : StringBody body) :
    ∀ c ∈ body, isInLine c = true := by
  induction h with
  | nil => exact List.forall_mem_nil _
  | plain _ _ hnewline _ ih => exact List.forall_mem_cons.2 ⟨bne_iff_ne.2 hnewline, ih⟩
  | escaped hnewline _ ih =>
    exact List.forall_mem_cons.2 ⟨rfl, List.forall_mem_cons.2 ⟨bne_iff_ne.2 hnewline, ih⟩⟩

theorem Lexeme.inLine_of_token {c : Char} {r chars more : List Char} {kind : TokenKind}
    (h : first c r = .ok (.token kind, chars, more)) : ∀ d ∈ chars, isInLine d = true := by
  rcases first_token_cases h with ⟨-, hstart, rfl⟩ | ⟨-, hdigit, rfl⟩ | ⟨-, rfl, body, hbody, rfl⟩ |
    hmark | ⟨hmark, rfl⟩
  · have hc := isInLine_of_isWordPart (isWordPart_of_isWordStart hstart)
    refine List.forall_mem_cons.2 ⟨hc, fun d hd => isInLine_of_isWordPart ?_⟩
    exact List.all_eq_true.1 List.all_takeWhile d hd
  · have hc := isInLine_of_isWordPart (isWordPart_of_isDigit hdigit)
    refine List.forall_mem_cons.2 ⟨hc, fun d hd => ?_⟩
    rcases mem_splitNumber hd with hword | rfl
    · exact isInLine_of_isWordPart hword
    · rfl
  · obtain ⟨inner, hinner, rfl, -⟩ := exists_stringBody hbody
    refine List.forall_mem_cons.2 ⟨rfl, List.forall_mem_append.2 ⟨hinner.inLine, ?_⟩⟩
    exact List.forall_mem_singleton.2 rfl
  · simp only [List.mem_cons, Prod.mk.injEq, List.not_mem_nil, or_false] at hmark
    rcases hmark with ⟨-, rfl⟩ | ⟨-, rfl⟩ | ⟨-, rfl⟩ | ⟨-, rfl⟩ <;> simp [isInLine]
  · have hall : ∀ m ∈ punctuation, isInLine m.1 = true := by decide
    exact List.forall_mem_singleton.2 (hall _ hmark)

theorem Lexeme.inLine_of_trivia {c : Char} {r chars more : List Char} {kind : TriviaKind}
    (h : first c r = .ok (.trivia kind, chars, more)) (hc : c ≠ '\n') :
    ∀ d ∈ chars, isInLine d = true := by
  have hrun : ∀ d ∈ r.takeWhile isInLine, isInLine d = true :=
    List.all_eq_true.1 List.all_takeWhile
  rcases first_trivia_cases h with ⟨-, -, rfl, -⟩ | ⟨-, rfl, -⟩ | ⟨-, rfl, rfl, -⟩ |
    ⟨-, rfl, r', rfl, rfl, -⟩
  · refine List.forall_mem_cons.2 ⟨bne_iff_ne.2 hc, fun d hd => bne_iff_ne.2 ?_⟩
    have hseparator : isSeparator d = true := List.all_eq_true.1 List.all_takeWhile d hd
    rintro rfl
    cases hseparator
  · exact absurd rfl hc
  · exact List.forall_mem_cons.2 ⟨rfl, hrun⟩
  · exact List.forall_mem_cons.2 ⟨rfl, hrun⟩

/-! ## The tokens of a line -/

/-- What stands behind the first line of a text, with the end of this line. -/
def behindFirstLine (cs : List Char) : List Char := cs.dropWhile isInLine

theorem behindFirstLine_append {chars : List Char} (h : ∀ c ∈ chars, isInLine c = true)
    (more : List Char) : behindFirstLine (chars ++ more) = behindFirstLine more :=
  List.dropWhile_append_of_pos h

/-- The tokens of a text are those of its first line, and those behind it. -/
theorem Cuts.split_line {cs : List Char} {ks : List Shape} (h : Cuts cs ks []) :
    ∃ front back, ks = front ++ back ∧ Cuts cs front (behindFirstLine cs) ∧
      Cuts (behindFirstLine cs) back [] := by
  generalize hend : ([] : List Char) = rest at h
  -- every lexeme is on the first line, up to the one that ends it
  induction h with
  | done =>
    subst hend
    exact ⟨[], [], rfl, .done, .done⟩
  | @token c r chars more rest kind ks hfirst _ ih =>
    obtain ⟨front, back, rfl, hfront, hback⟩ := ih hend
    have hline := behindFirstLine_append (Lexeme.inLine_of_token hfirst) more
    rw [Lexeme.first_append hfirst] at hline
    rw [hline]
    exact ⟨_ :: front, back, rfl, .token hfirst hfront, hback⟩
  | @trivia c r chars more rest kind ks hfirst hmore ih =>
    by_cases hc : c = '\n'
    · subst hc
      exact ⟨[], ks, rfl, .done, .trivia hfirst hmore⟩
    · obtain ⟨front, back, rfl, hfront, hback⟩ := ih hend
      have hline := behindFirstLine_append (Lexeme.inLine_of_trivia hfirst hc) more
      rw [Lexeme.first_append hfirst] at hline
      rw [hline]
      exact ⟨front, back, rfl, .trivia hfirst hfront, hback⟩

/-- The end of a line behind a text changes no token of it. -/
theorem Cuts.append_line {cs more rest : List Char} {ks : List Shape} (h : Cuts cs ks more)
    (hrest : BeginsLine rest) : Cuts (cs ++ rest) ks (more ++ rest) := by
  induction h with
  | done => exact .done
  | token hfirst _ ih =>
    exact .token (Lexeme.first_append_blank hfirst hrest.beginsBlank fun _ _ => hrest) ih
  | trivia hfirst _ ih =>
    exact .trivia (Lexeme.first_append_blank hfirst hrest.beginsBlank fun _ _ => hrest) ih

/-- A comment hides the line it starts on, and nothing behind that. -/
theorem cuts_commented {cs rest : List Char} {ks : List Shape}
    (h : Cuts (behindFirstLine cs) ks rest) : Cuts ('/' :: '/' :: cs) ks rest := by
  have hfirst : Lexeme.first '/' ('/' :: cs) = .ok (.trivia .lineComment,
      '/' :: ('/' :: cs).takeWhile isInLine, behindFirstLine ('/' :: cs)) := rfl
  rw [behindFirstLine, List.dropWhile_cons_of_pos rfl] at hfirst
  exact .trivia hfirst h

end KernelGen.Source
