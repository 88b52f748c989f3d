import KernelGen.Source.Location
set_option autoImplicit false

/-!
# Source: tokens and trivia

Declarations and schemas are read as tokens.  Blanks, newlines, comments and directives are
never tokens of their own: they are the trivia of the token they stand beside, so nothing of
the text is lost.  The comment that trails a token on its own line can be read off it.
-/

namespace KernelGen.Source

/-- What a token is. -/
inductive TokenKind where
  | identifier
  | number
  | string
  | doubleColon
  | arrow
  | openParen
  | closeParen
  | lessThan
  | greaterThan
  | openBracket
  | closeBracket
  | openBrace
  | closeBrace
  | comma
  | semicolon
  | ampersand
  | asterisk
  | equals
  | bang
  | question
  | pipe
  | dot
  | minus
  | colon
  /-- The end of the text; the last token, and the only one without text. -/
  | eof
  deriving DecidableEq, Repr, Inhabited

/-- What a piece of trivia is. -/
inductive TriviaKind where
  | whitespace
  | newline
  | lineComment
  | directive
  deriving DecidableEq, Repr, Inhabited

/-- A piece of text that no parser looks at. -/
structure Trivia where
  kind : TriviaKind
  text : String
  deriving DecidableEq, Repr, Inhabited

/-- A token with the trivia it owns. -/
structure Token where
  kind : TokenKind
  text : String
  location : Location
  leading : List Trivia
  trailing : List Trivia
  deriving DecidableEq, Repr, Inhabited

namespace Token

/-- The end of a text, at a given place. -/
def endOfText (l : Location) (leading : List Trivia) : Token :=
  ⟨.eof, "", l, leading, []⟩

/-- The token is this word. -/
def isWord (t : Token) (w : String) : Bool := t.kind == .identifier && t.text == w

/-- The body of the first line comment that trails the token, without any of the slashes
that introduce it. -/
def trailingComment? (t : Token) : Option String :=
  (t.trailing.find? (·.kind == .lineComment)).map fun c =>
    String.ofList (c.text.toList.dropWhile (· == '/'))

end Token

end KernelGen.Source
