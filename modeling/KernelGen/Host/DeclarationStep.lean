import KernelGen.Host.TypeStep
import KernelGen.Host.Declaration
import KernelGen.Source.Document
set_option autoImplicit false

/-!
# Host: reading declarations

A header is a sequence of function declarations.  Words such as `static` in front of a
declaration are passed over, and its location is the token behind them.  A parameter list
that holds nothing but an unnamed `void` is empty.
-/

namespace KernelGen.Host

open Source

/-- The words that may stand in front of a declaration. -/
def specifiers : List String := ["static", "inline", "extern", "constexpr", "virtual"]

/-- The token is a word that may stand in front of a declaration. -/
def isSpecifier (t : Token) : Bool := t.kind == .identifier && specifiers.contains t.text

/-- A parameter. -/
def Param.step : Step Param := fun ts => do
  let (type, ts) ← HostType.step ts
  let (name?, ts) := optionalName ts
  let (default?, ts) ← optionalDefault ts
  return (⟨type, name?, default?⟩, ts)

theorem Param.step_consumes : Param.step.Consumes := by
  intro ts a rest h
  obtain ⟨⟨type, r⟩, h1, h⟩ := bind_eq_ok.1 h
  obtain ⟨⟨default?, r'⟩, h2, h⟩ := bind_eq_ok.1 h
  cases h
  have ht := HostType.step_consumes _ _ _ h1
  have hn := length_optionalName_le r
  have hd : rest.length ≤ (optionalName r).2.length :=
    length_behind_le defaultValue_consumes h2
  omega

/-- A parameter list that was written as an unnamed `void` is empty. -/
def withoutVoid : List Param → List Param
  | [p] => if p.name?.isNone && p.type.isVoid then [] else [p]
  | ps => ps

/-- A declaration through its semicolon. -/
def Declaration.step : Step Declaration := fun ts => do
  let ts := ts.dropWhile isSpecifier
  let location := (next ts).location
  let (returnType, ts) ← HostType.step ts
  let (name, ts) ← expect .identifier .functionName ts
  let (_, ts) ← expect .openParen .openParen ts
  let (params, ts) ← listed Param.step Param.step_consumes ts
  let (_, ts) ← expect .closeParen .closeParen ts
  let (terminator, ts) ← expect .semicolon .endOfDeclaration ts
  return (⟨returnType, name.text, withoutVoid params, terminator, location⟩, ts)

theorem Declaration.step_consumes : Declaration.step.Consumes := by
  intro ts a rest h
  obtain ⟨⟨returnType, r1⟩, h1, h⟩ := bind_eq_ok.1 h
  obtain ⟨⟨name, r2⟩, h2, h⟩ := bind_eq_ok.1 h
  obtain ⟨⟨_, r3⟩, h3, h⟩ := bind_eq_ok.1 h
  obtain ⟨⟨params, r4⟩, h4, h⟩ := bind_eq_ok.1 h
  obtain ⟨⟨_, r5⟩, h5, h⟩ := bind_eq_ok.1 h
  obtain ⟨⟨terminator, r6⟩, h6, h⟩ := bind_eq_ok.1 h
  cases h
  have g0 : (ts.dropWhile isSpecifier).length ≤ ts.length :=
    (List.dropWhile_suffix isSpecifier).length_le
  have g1 := HostType.step_consumes _ _ _ h1
  have g2 : r2.length < r1.length := expect_consumes _ _ _ _ _ h2
  have g3 : r3.length < r2.length := expect_consumes _ _ _ _ _ h3
  have g4 : r4.length ≤ r3.length := length_listed_le h4
  have g5 : r5.length < r4.length := expect_consumes _ _ _ _ _ h5
  have g6 : rest.length < r5.length := expect_consumes _ _ _ _ _ h6
  omega

/-- The declarations up to the end of the text. -/
def declarationsOf (ts : List Token) : Except SyntaxFault (List Declaration) :=
  if (next ts).kind = .eof then .ok []
  else
    match _h : Declaration.step ts with
    | .error e => .error e
    | .ok (d, rest) => (d :: ·) <$> declarationsOf rest
termination_by ts.length
decreasing_by exact Declaration.step_consumes _ _ _ ‹_›

/-- The declarations of a header. -/
def declarations (header : String) : Except ReadError (List Declaration) :=
  read declarationsOf header

end KernelGen.Host
