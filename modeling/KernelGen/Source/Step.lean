import KernelGen.Source.Token
set_option autoImplicit false

/-!
# Source: parsing steps

A step reads something at the front of the remaining tokens and returns it with the tokens
behind it, or says what was wrong and at which token.  The end of the text is a token that no
step takes.  A step that takes at least one token whenever it succeeds is said to consume;
a loop over such a step ends, which is what `commaSeparated` relies on.

The steps that declarations and schemas have in common are here: one token, an optional name,
an optional default value, and lists separated by commas.
-/

namespace KernelGen.Source

/-! ## Faults -/

/-- What a step asks for. -/
inductive Expectation where
  | functionName
  | typeName
  | nameBehindScope
  | openParen
  | closeParen
  | closeTemplate
  | endOfDeclaration
  | templateArgument
  | defaultValue
  | operatorName
  | overloadName
  | arrow
  | schemaType
  | aliasSet
  | closeAlias
  | closeTuple
  | closeBracket
  deriving DecidableEq, Repr, Inhabited

/-- The words for what a step asks for. -/
def Expectation.text : Expectation → String
  | .functionName => "function name"
  | .typeName => "type name"
  | .nameBehindScope => "name after '::'"
  | .openParen => "'('"
  | .closeParen => "')'"
  | .closeTemplate => "'>' closing template arguments"
  | .endOfDeclaration => "';' after declaration"
  | .templateArgument => "template argument"
  | .defaultValue => "default value"
  | .operatorName => "operator name"
  | .overloadName => "overload name"
  | .arrow => "'->'"
  | .schemaType => "type"
  | .aliasSet => "alias set"
  | .closeAlias => "')' closing alias annotation"
  | .closeTuple => "')' closing return tuple"
  | .closeBracket => "']'"

/-- What is wrong at a token. -/
inductive Problem where
  | expected (what : Expectation)
  | unterminatedDefault
  | unterminatedTemplateArgument
  | trailingInput
  | invalidArraySize (text : String)
  deriving DecidableEq, Repr, Inhabited

/-- A problem and the token it was noticed at. -/
structure SyntaxFault where
  problem : Problem
  found : Token
  deriving DecidableEq, Repr, Inhabited

/-- The next token; the end of the text when there is none. -/
def next (ts : List Token) : Token := ts.headD (Token.endOfText .start [])

/-- A problem at the next token. -/
def SyntaxFault.at (ts : List Token) (problem : Problem) : SyntaxFault := ⟨problem, next ts⟩

/-! ## Steps -/

/-- Reads something at the front of the tokens and returns it with the tokens behind it. -/
abbrev Step (α : Type) : Type := List Token → Except SyntaxFault (α × List Token)

namespace Step

/-- A step that takes at least one token whenever it succeeds. -/
def Consumes {α : Type} (p : Step α) : Prop :=
  ∀ ts a rest, p ts = .ok (a, rest) → rest.length < ts.length

end Step

theorem bind_eq_ok {ε α β : Type} {x : Except ε α} {f : α → Except ε β} {b : β} :
    x >>= f = .ok b ↔ ∃ a, x = .ok a ∧ f a = .ok b := by
  cases x with
  | error e => simp [bind, Except.bind]
  | ok a => simp [bind, Except.bind]

/-- One token of a given kind. -/
def expect (kind : TokenKind) (what : Expectation) : Step Token
  | t :: r => if t.kind = kind then .ok (t, r) else .error (.at (t :: r) (.expected what))
  | [] => .error (.at [] (.expected what))

theorem expect_eq_ok {kind : TokenKind} {what : Expectation} {ts rest : List Token} {t : Token} :
    expect kind what ts = .ok (t, rest) ↔ ts = t :: rest ∧ t.kind = kind := by
  cases ts with
  | nil => simp [expect]
  | cons u r =>
    simp only [expect]
    split
    · rename_i h
      constructor
      · intro he; cases he; exact ⟨rfl, h⟩
      · rintro ⟨he, -⟩; cases he; rfl
    · rename_i h
      constructor
      · intro he; cases he
      · rintro ⟨he, hk⟩; cases he; exact absurd hk h

theorem expect_consumes (kind : TokenKind) (what : Expectation) :
    (expect kind what).Consumes := by
  intro ts t rest h
  rw [(expect_eq_ok.1 h).1]
  exact Nat.lt_succ_self _

/-- The tokens behind the next one when it is of a given kind. -/
def accept? (kind : TokenKind) : List Token → Option (List Token)
  | t :: r => if t.kind = kind then some r else none
  | [] => none

theorem eq_cons_of_accept? {kind : TokenKind} {ts rest : List Token}
    (h : accept? kind ts = some rest) : ∃ t, t.kind = kind ∧ ts = t :: rest := by
  cases ts with
  | nil => cases h
  | cons t r =>
    simp only [accept?] at h
    split at h
    · rename_i hk; cases h; exact ⟨t, hk, rfl⟩
    · cases h

theorem length_accept?_lt {kind : TokenKind} {ts rest : List Token}
    (h : accept? kind ts = some rest) : rest.length < ts.length := by
  obtain ⟨t, -, rfl⟩ := eq_cons_of_accept? h
  exact Nat.lt_succ_self _

/-- Whether a token of a given kind comes next, and the tokens behind it. -/
def flag (kind : TokenKind) (ts : List Token) : Bool × List Token :=
  match accept? kind ts with
  | some r => (true, r)
  | none => (false, ts)

theorem length_flag_le (kind : TokenKind) (ts : List Token) :
    (flag kind ts).2.length ≤ ts.length := by
  unfold flag
  split
  · exact Nat.le_of_lt (length_accept?_lt ‹_›)
  · exact Nat.le_refl _

/-- What a step reads behind a token of a given kind, if that token comes next. -/
def behind {α : Type} (kind : TokenKind) (p : Step α) : Step (Option α) := fun ts =>
  match accept? kind ts with
  | some r => do
    let (a, rest) ← p r
    return (some a, rest)
  | none => .ok (none, ts)

theorem length_behind_le {α : Type} {kind : TokenKind} {p : Step α} (hp : p.Consumes)
    {ts rest : List Token} {a : Option α} (h : behind kind p ts = .ok (a, rest)) :
    rest.length ≤ ts.length := by
  unfold behind at h
  split at h
  · rename_i r hr
    obtain ⟨⟨a', rest'⟩, hp', he⟩ := bind_eq_ok.1 h
    cases he
    have h1 := length_accept?_lt hr
    have h2 := hp _ _ _ hp'
    omega
  · cases h; exact Nat.le_refl _

/-- A name, if one comes next. -/
def optionalName : List Token → Option String × List Token
  | t :: r => if t.kind = .identifier then (some t.text, r) else (none, t :: r)
  | [] => (none, [])

theorem length_optionalName_le (ts : List Token) :
    (optionalName ts).2.length ≤ ts.length := by
  cases ts with
  | nil => exact Nat.le_refl _
  | cons t r =>
    simp only [optionalName]
    split
    · exact Nat.le_succ _
    · exact Nat.le_refl _

/-! ## Default values

Nobody interprets a default value: it is the run of tokens up to the first comma or closing
bracket that is not inside brackets opened in the run.  The three kinds of brackets are not
told apart. -/

/-- The brackets that open. -/
def opens (k : TokenKind) : Bool := k == .openParen || k == .openBracket || k == .openBrace

/-- The brackets that close. -/
def closes (k : TokenKind) : Bool := k == .closeParen || k == .closeBracket || k == .closeBrace

/-- The tokens up to the first comma or closing bracket outside the brackets, `depth` of which
are open already. -/
def balancedRun (depth : Nat) : Step (List Token)
  | [] => .error (.at [] .unterminatedDefault)
  | t :: r =>
    if t.kind = .eof then .error (.at (t :: r) .unterminatedDefault)
    else if depth = 0 ∧ (t.kind = .comma ∨ closes t.kind) then .ok ([], t :: r)
    else do
      let (run, rest) ← balancedRun
        (if opens t.kind then depth + 1 else if closes t.kind then depth - 1 else depth) r
      return (t :: run, rest)

/-- The texts of tokens, one behind the other. -/
def concatTexts (ts : List Token) : String := String.join (ts.map (·.text))

/-- A default value. -/
def defaultValue : Step String := fun ts => do
  let (run, rest) ← balancedRun 0 ts
  if run.isEmpty then throw (.at rest (.expected .defaultValue))
  return (concatTexts run, rest)

/-- A default value behind an equals sign, if an equals sign comes next. -/
def optionalDefault : Step (Option String) := behind .equals defaultValue

/-- A run is the tokens between those in front of it and those behind it. -/
theorem balancedRun_append {ts run rest : List Token} {depth : Nat}
    (h : balancedRun depth ts = .ok (run, rest)) : run ++ rest = ts := by
  induction ts generalizing depth run rest with
  | nil => cases h
  | cons t r ih =>
    simp only [balancedRun] at h
    split at h
    · cases h
    split at h
    · cases h; rfl
    · obtain ⟨⟨run', rest'⟩, hr, he⟩ := bind_eq_ok.1 h
      cases he
      rw [List.cons_append, ih hr]

theorem defaultValue_consumes : defaultValue.Consumes := by
  intro ts text rest h
  obtain ⟨⟨run, rest'⟩, hr, h⟩ := bind_eq_ok.1 h
  dsimp only at h
  split at h
  · cases h
  · rename_i hne
    cases h
    cases run with
    | nil => simp at hne
    | cons t run =>
      rw [← balancedRun_append hr, List.length_append, List.length_cons]
      omega

/-! ## Lists -/

/-- One or more items with commas between them. -/
def commaSeparated {α : Type} (item : Step α) (consumes : item.Consumes) (ts : List Token) :
    Except SyntaxFault (List α × List Token) :=
  match _h : item ts with
  | .error e => .error e
  | .ok (a, []) => .ok ([a], [])
  | .ok (a, t :: r) =>
    if t.kind = .comma then do
      let (as, rest) ← commaSeparated item consumes r
      return (a :: as, rest)
    else .ok ([a], t :: r)
termination_by ts.length
decreasing_by
  have := consumes _ _ _ ‹_›
  simp only [List.length_cons] at this
  omega

theorem commaSeparated_consumes {α : Type} {item : Step α} (consumes : item.Consumes) :
    Step.Consumes (commaSeparated item consumes) := by
  intro ts as rest h
  fun_induction commaSeparated item consumes ts generalizing as rest with
  | case1 => cases h
  | case2 ts a hi => cases h; exact consumes _ _ _ hi
  | case3 ts a t r hi _ ih =>
    obtain ⟨⟨as', rest'⟩, hr, he⟩ := bind_eq_ok.1 h
    cases he
    have h1 := ih _ _ hr
    have h2 := consumes _ _ _ hi
    simp only [List.length_cons] at h2
    omega
  | case4 ts a t r hi _ => cases h; exact consumes _ _ _ hi

/-- The items in front of a closing parenthesis; none when it comes at once. -/
def listed {α : Type} (item : Step α) (consumes : item.Consumes) : Step (List α) := fun ts =>
  if (next ts).kind = .closeParen then .ok ([], ts) else commaSeparated item consumes ts

theorem length_listed_le {α : Type} {item : Step α} {consumes : item.Consumes}
    {ts rest : List Token} {as : List α} (h : listed item consumes ts = .ok (as, rest)) :
    rest.length ≤ ts.length := by
  unfold listed at h
  split at h
  · cases h; exact Nat.le_refl _
  · exact Nat.le_of_lt (commaSeparated_consumes consumes _ _ _ h)

end KernelGen.Source
