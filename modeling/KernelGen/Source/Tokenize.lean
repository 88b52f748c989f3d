import KernelGen.Source.Lexeme
set_option autoImplicit false

/-!
# Source: from lexemes to tokens

Trivia is divided between the two tokens around it.  When the run of trivia has a newline,
everything through the first newline trails the earlier token and the rest leads the later
one; without a newline all of it trails the earlier one.  What stands in front of the first
token leads it, and the end of the text is a token of its own that owns what is left.
-/

namespace KernelGen.Source

/-- A run of trivia behind a token: the part the token keeps, through the first newline, and
the part that leads the next token. -/
def divide : List Trivia → List Trivia × List Trivia
  | [] => ([], [])
  | t :: run =>
    if t.kind = .newline then ([t], run)
    else
      let parts := divide run
      (t :: parts.1, parts.2)

/-- Dividing a run of trivia loses nothing. -/
theorem divide_append (run : List Trivia) : (divide run).1 ++ (divide run).2 = run := by
  induction run with
  | nil => rfl
  | cons t run ih => by_cases h : t.kind = .newline <;> simp [divide, h, ih]

/-- Gives the first token its leading trivia. -/
def leadWith (run : List Trivia) : List Token → List Token
  | [] => []
  | t :: ts => { t with leading := run } :: ts

/-- The trivia in front of the first token, and the tokens, the first still without the
trivia that leads it.  The last token is the end of the text, at `l`. -/
def attach (l : Location) : List Lexeme → List Trivia × List Token
  | [] => ([], [Token.endOfText l []])
  | lexeme :: more =>
    let following := attach l more
    match lexeme.kind with
    | .trivia kind => (⟨kind, String.ofList lexeme.chars⟩ :: following.1, following.2)
    | .token kind =>
      let parts := divide following.1
      ([], ⟨kind, String.ofList lexeme.chars, lexeme.location, [], parts.1⟩ ::
        leadWith parts.2 following.2)

/-- The tokens of the lexemes of a text that ends at `l`. -/
def tokensOf (l : Location) (lexemes : List Lexeme) : List Token :=
  let all := attach l lexemes
  leadWith all.1 all.2

/-- The tokens of a text, the end of the text last. -/
def tokenize (text : String) : Except StrayText (List Token) :=
  (Lexeme.scan .start text.toList).map (tokensOf (Location.start.advance text.toList))

end KernelGen.Source
