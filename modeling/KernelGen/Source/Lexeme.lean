import KernelGen.Source.Token
set_option autoImplicit false

/-!
# Source: lexemes

A text is cut into lexemes from left to right, each the longest one that starts there.
`Lexeme.first` cuts one off; `first_append` says that it only cuts, and `first_ne_nil` that
it always takes something, which is why `Lexeme.scan` ends.

A block comment is not a lexeme: it is refused, and so is a string that its line does not
close.  What is refused is reported with the text up to where it stopped being acceptable.
-/

namespace KernelGen.Source

/-- A lexeme is a token or a piece of trivia. -/
inductive LexemeKind where
  | token (kind : TokenKind)
  | trivia (kind : TriviaKind)
  deriving DecidableEq, Repr, Inhabited

/-- A piece of the text, where it starts, and what it is. -/
structure Lexeme where
  kind : LexemeKind
  chars : List Char
  location : Location
  deriving DecidableEq, Repr, Inhabited

/-- A place at which no lexeme starts, with the text that is reported for it. -/
structure StrayText where
  text : String
  location : Location
  deriving DecidableEq, Repr, Inhabited

/-! ## Character classes -/

/-- The blanks that may stand between tokens on one line. -/
def isSeparator (c : Char) : Bool := c == ' ' || c == '\t' || c == '\r' || c == '\x0c'

/-- The characters an identifier starts with. -/
def isWordStart (c : Char) : Bool := c.isAlpha || c == '_'

/-- The characters an identifier or a number goes on with. -/
def isWordPart (c : Char) : Bool := c.isAlphanum || c == '_'

/-- The end of a line is the newline only. -/
def isInLine (c : Char) : Bool := c != '\n'

/-- The tokens of one character that are no beginning of a longer token. -/
def punctuation : List (Char × TokenKind) :=
  [('(', .openParen), (')', .closeParen), ('<', .lessThan), ('>', .greaterThan),
   ('[', .openBracket), (']', .closeBracket), ('\x7b', .openBrace), ('\x7d', .closeBrace),
   (',', .comma), (';', .semicolon), ('&', .ampersand), ('*', .asterisk), ('=', .equals),
   ('!', .bang), ('?', .question), ('|', .pipe), ('.', .dot)]

/-! ## Cutting one lexeme off -/

/-- The rest of a number behind its first digit, and what follows it: word characters, and a
fraction if the point has at least one of them behind it. -/
def splitNumber (cs : List Char) : List Char × List Char :=
  match cs.dropWhile isWordPart with
  | '.' :: d :: r =>
    if isWordPart d then
      (cs.takeWhile isWordPart ++ '.' :: d :: r.takeWhile isWordPart, r.dropWhile isWordPart)
    else (cs.takeWhile isWordPart, '.' :: d :: r)
  | r => (cs.takeWhile isWordPart, r)

/-- The rest of a string behind its opening quote, through the closing one, and what follows
it.  A string that does not end on its line gives the acceptable part of it. -/
def splitString : List Char → Except (List Char) (List Char × List Char)
  | [] => .error []
  | ['\\'] => .error []
  | '\\' :: c :: r =>
    if c = '\n' then .error []
    else
      match splitString r with
      | .ok (body, rest) => .ok ('\\' :: c :: body, rest)
      | .error body => .error ('\\' :: c :: body)
  | c :: r =>
    if c = '"' then .ok (['"'], r)
    else if c = '\n' then .error []
    else
      match splitString r with
      | .ok (body, rest) => .ok (c :: body, rest)
      | .error body => .error (c :: body)

/-- The part of a block comment that is reported: up to the star that ends it, or all of it
when nothing ends it. -/
def blockComment : List Char → List Char
  | [] => []
  | ['*'] => ['*']
  | '*' :: '/' :: _ => ['*']
  | c :: r => c :: blockComment r

namespace Lexeme

/-- The longest lexeme at the front of a text that starts with `c`: what it is, its
characters, and what follows; or the characters that are refused. -/
def first (c : Char) (r : List Char) :
    Except (List Char) (LexemeKind × List Char × List Char) :=
  if isSeparator c then
    .ok (.trivia .whitespace, c :: r.takeWhile isSeparator, r.dropWhile isSeparator)
  else if c = '\n' then .ok (.trivia .newline, [c], r)
  else if c = '#' then
    .ok (.trivia .directive, c :: r.takeWhile isInLine, r.dropWhile isInLine)
  else if isWordStart c then
    .ok (.token .identifier, c :: r.takeWhile isWordPart, r.dropWhile isWordPart)
  else if c.isDigit then
    .ok (.token .number, c :: (splitNumber r).1, (splitNumber r).2)
  else if c = '"' then
    match splitString r with
    | .ok (body, rest) => .ok (.token .string, c :: body, rest)
    | .error body => .error (c :: body)
  else if c = '/' then
    match r with
    | '/' :: _ => .ok (.trivia .lineComment, c :: r.takeWhile isInLine, r.dropWhile isInLine)
    | '*' :: body => .error (c :: '*' :: blockComment body)
    | _ => .error [c]
  else if c = ':' then
    match r with
    | ':' :: rest => .ok (.token .doubleColon, [c, ':'], rest)
    | _ => .ok (.token .colon, [c], r)
  else if c = '-' then
    match r with
    | '>' :: rest => .ok (.token .arrow, [c, '>'], rest)
    | _ => .ok (.token .minus, [c], r)
  else
    match punctuation.lookup c with
    | some kind => .ok (.token kind, [c], r)
    | none => .error [c]

end Lexeme

/-! ## Nothing is lost -/

theorem splitNumber_append (cs : List Char) : (splitNumber cs).1 ++ (splitNumber cs).2 = cs := by
  have h := List.takeWhile_append_dropWhile (p := isWordPart) (l := cs)
  unfold splitNumber
  split
  · rename_i d r hd
    split
    · simp only [List.append_assoc, List.cons_append, List.takeWhile_append_dropWhile]
      rw [← hd]; exact h
    · rw [← hd]; exact h
  · exact h

theorem splitString_append {cs body rest : List Char} (h : splitString cs = .ok (body, rest)) :
    body ++ rest = cs := by
  fun_induction splitString cs generalizing body rest with
  | case1 | case2 | case3 | case7 => cases h
  | case4 c r hc body' rest' hr ih =>
    cases h
    simp [ih hr]
  | case5 | case9 => cases h
  | case6 => cases h; simp_all
  | case8 c r _ _ _ _ body' rest' hr ih =>
    cases h
    simp [ih hr]

namespace Lexeme

/-- A lexeme is never empty, and cutting it off loses nothing. -/
theorem first_cuts {c : Char} {r chars rest : List Char} {kind : LexemeKind}
    (h : first c r = .ok (kind, chars, rest)) : chars ++ rest = c :: r ∧ chars ≠ [] := by
  unfold first at h
  by_cases h1 : isSeparator c = true
  · rw [if_pos h1] at h; cases h; simp
  rw [if_neg h1] at h
  by_cases h2 : c = '\n'
  · rw [if_pos h2] at h; cases h; simp
  rw [if_neg h2] at h
  by_cases h3 : c = '#'
  · rw [if_pos h3] at h; cases h; simp
  rw [if_neg h3] at h
  by_cases h4 : isWordStart c = true
  · rw [if_pos h4] at h; cases h; simp
  rw [if_neg h4] at h
  by_cases h5 : c.isDigit = true
  · rw [if_pos h5] at h; cases h; simp [splitNumber_append]
  rw [if_neg h5] at h
  by_cases h6 : c = '"'
  · rw [if_pos h6] at h
    cases hs : splitString r with
    | error body => rw [hs] at h; cases h
    | ok parts => rw [hs] at h; cases h; simp [splitString_append hs]
  rw [if_neg h6] at h
  by_cases h7 : c = '/'
  · rw [if_pos h7] at h; split at h <;> cases h; simp
  rw [if_neg h7] at h
  by_cases h8 : c = ':'
  · rw [if_pos h8] at h; split at h <;> cases h <;> simp
  rw [if_neg h8] at h
  by_cases h9 : c = '-'
  · rw [if_pos h9] at h; split at h <;> cases h <;> simp
  rw [if_neg h9] at h
  split at h <;> cases h; simp

/-- Cutting a lexeme off loses nothing. -/
theorem first_append {c : Char} {r chars rest : List Char} {kind : LexemeKind}
    (h : first c r = .ok (kind, chars, rest)) : chars ++ rest = c :: r :=
  (first_cuts h).1

/-- A lexeme is never empty. -/
theorem first_ne_nil {c : Char} {r chars rest : List Char} {kind : LexemeKind}
    (h : first c r = .ok (kind, chars, rest)) : chars ≠ [] :=
  (first_cuts h).2

/-- What follows a lexeme is shorter than the text it was cut off. -/
theorem length_lt_of_first {c : Char} {r chars rest : List Char} {kind : LexemeKind}
    (h : first c r = .ok (kind, chars, rest)) : rest.length < (c :: r).length := by
  have hn := List.length_pos_iff.2 (first_ne_nil h)
  rw [← first_append h, List.length_append]
  omega

/-! ## Cutting a whole text -/

/-- The lexemes of a text that starts at `l`, in order. -/
def scan (l : Location) (cs : List Char) : Except StrayText (List Lexeme) :=
  match cs with
  | [] => .ok []
  | c :: r =>
    match _h : first c r with
    | .error chars => .error ⟨String.ofList chars, l⟩
    | .ok (kind, chars, rest) =>
      match scan (l.advance chars) rest with
      | .error e => .error e
      | .ok more => .ok (⟨kind, chars, l⟩ :: more)
termination_by cs.length
decreasing_by exact length_lt_of_first ‹_›

end Lexeme

end KernelGen.Source
