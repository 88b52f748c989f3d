import KernelGen.Schema.Basic
import KernelGen.Source.Document
set_option autoImplicit false

/-!
# Schema: reading signatures

The steps follow the grammar of schemas:

    schema := name [. name] ( [param , ...] ) -> return
    param  := * | type [name] [= default]
    return := ( [type [name] , ...] ) | type
    type   := name [( set [!] [-> set] )] { ? | [ [number] ] }
    set    := member { | member }
    member := name | *

A signature takes the whole text.
-/

namespace KernelGen.Schema

open Source

/-! ## Types -/

/-- A member of an alias set. -/
def AliasMember.step : Step AliasMember := fun ts =>
  match accept? .asterisk ts with
  | some r => .ok (.wildcard, r)
  | none => do
    let (t, r) ← expect .identifier .aliasSet ts
    return (.set t.text, r)

theorem AliasMember.step_consumes : AliasMember.step.Consumes := by
  intro ts a rest h
  unfold AliasMember.step at h
  split at h
  · rename_i r hr
    obtain ⟨t, -, rfl⟩ := eq_cons_of_accept? hr
    cases h
    exact Nat.lt_succ_self _
  · obtain ⟨⟨t, r⟩, ht, he⟩ := bind_eq_ok.1 h
    cases he
    exact expect_consumes _ _ _ _ _ ht

/-- An alias set: members with bars between them. -/
def aliasSet (ts : List Token) : Except SyntaxFault (List AliasMember × List Token) :=
  match _h : AliasMember.step ts with
  | .error e => .error e
  | .ok (m, []) => .ok ([m], [])
  | .ok (m, t :: r) =>
    if t.kind = .pipe then do
      let (ms, rest) ← aliasSet r
      return (m :: ms, rest)
    else .ok ([m], t :: r)
termination_by ts.length
decreasing_by
  have := AliasMember.step_consumes _ _ _ ‹_›
  simp only [List.length_cons] at this
  omega

/-- An alias annotation behind its opening parenthesis. -/
def AliasInfo.step : Step AliasInfo := fun ts => do
  let (before, ts) ← aliasSet ts
  let (writable, ts) := flag .bang ts
  let (after?, ts) ← behind .arrow aliasSet ts
  let (_, ts) ← expect .closeParen .closeAlias ts
  return (⟨before, after?, writable⟩, ts)

/-- An array size is a decimal number below this bound: it fits into 32 bits. -/
def sizeBound : Nat := 4294967296

/-- The array size that a number denotes. -/
def arraySize? (text : String) : Option Nat :=
  if text.toList.all Char.isDigit then
    let n := text.toList.foldl (fun n c => 10 * n + (c.toNat - 48)) 0
    if n < sizeBound then some n else none
  else none

/-- The suffixes that follow a type. -/
def suffixRun : Step (List Suffix)
  | [] => .ok ([], [])
  | t :: r =>
    if t.kind = .question then do
      let (more, rest) ← suffixRun r
      return (.optional :: more, rest)
    else if t.kind = .openBracket then
      match r with
      | [] => .error (.at [] (.expected .closeBracket))
      | u :: r' =>
        if u.kind = .closeBracket then do
          let (more, rest) ← suffixRun r'
          return (.array none :: more, rest)
        else if u.kind = .number then
          match arraySize? u.text with
          | none => .error (.at r' (.invalidArraySize u.text))
          | some n =>
            match r' with
            | [] => .error (.at [] (.expected .closeBracket))
            | v :: r'' =>
              if v.kind = .closeBracket then do
                let (more, rest) ← suffixRun r''
                return (.array (some n) :: more, rest)
              else .error (.at r' (.expected .closeBracket))
        else .error (.at r (.expected .closeBracket))
    else .ok ([], t :: r)

/-- A type. -/
def SchemaType.step : Step SchemaType := fun ts => do
  let (base, ts) ← expect .identifier .schemaType ts
  let (annotation?, ts) ← behind .openParen AliasInfo.step ts
  let (suffixes, ts) ← suffixRun ts
  return (⟨.ofName base.text, annotation?, suffixes⟩, ts)

/-! ## What the steps take -/

theorem aliasSet_consumes : Step.Consumes aliasSet := by
  intro ts ms rest h
  fun_induction aliasSet ts generalizing ms rest with
  | case1 => cases h
  | case2 ts m hm => cases h; exact AliasMember.step_consumes _ _ _ hm
  | case3 ts m t r hm _ ih =>
    obtain ⟨⟨ms', rest'⟩, hr, he⟩ := bind_eq_ok.1 h
    cases he
    have h1 := ih _ _ hr
    have h2 := AliasMember.step_consumes _ _ _ hm
    simp only [List.length_cons] at h2
    omega
  | case4 ts m t r hm _ => cases h; exact AliasMember.step_consumes _ _ _ hm

theorem AliasInfo.step_consumes : AliasInfo.step.Consumes := by
  intro ts a rest h
  obtain ⟨⟨before, r1⟩, h1, h⟩ := bind_eq_ok.1 h
  obtain ⟨⟨after?, r2⟩, h2, h⟩ := bind_eq_ok.1 h
  obtain ⟨⟨_, r3⟩, h3, h⟩ := bind_eq_ok.1 h
  cases h
  have g1 := aliasSet_consumes _ _ _ h1
  have gf := length_flag_le .bang r1
  have g2 : r2.length ≤ (flag .bang r1).2.length := length_behind_le aliasSet_consumes h2
  have g3 : rest.length < r2.length := expect_consumes _ _ _ _ _ h3
  omega

theorem length_suffixRun_le {ts rest : List Token} {ss : List Suffix}
    (h : suffixRun ts = .ok (ss, rest)) : rest.length ≤ ts.length := by
  fun_induction suffixRun ts generalizing ss rest with
  | case1 => cases h; exact Nat.le_refl _
  | case2 t r _ ih =>
    obtain ⟨⟨more, rest'⟩, hr, he⟩ := bind_eq_ok.1 h
    cases he
    exact Nat.le_succ_of_le (ih hr)
  | case4 t u r _ _ _ ih =>
    obtain ⟨⟨more, rest'⟩, hr, he⟩ := bind_eq_ok.1 h
    cases he
    have := ih hr
    simp only [List.length_cons]
    omega
  | case7 t u v r _ _ _ _ n _ _ ih =>
    obtain ⟨⟨more, rest'⟩, hr, he⟩ := bind_eq_ok.1 h
    cases he
    have := ih hr
    simp only [List.length_cons]
    omega
  | case10 => cases h; exact Nat.le_refl _
  | _ => cases h

theorem SchemaType.step_consumes : SchemaType.step.Consumes := by
  intro ts a rest h
  obtain ⟨⟨base, r1⟩, h1, h⟩ := bind_eq_ok.1 h
  obtain ⟨⟨annotation?, r2⟩, h2, h⟩ := bind_eq_ok.1 h
  obtain ⟨⟨suffixes, r3⟩, h3, h⟩ := bind_eq_ok.1 h
  cases h
  have g1 := expect_consumes _ _ _ _ _ h1
  have g2 : r2.length ≤ r1.length := length_behind_le AliasInfo.step_consumes h2
  have g3 : rest.length ≤ r2.length := length_suffixRun_le h3
  omega

/-! ## Parameters and return types -/

/-- A parameter. -/
def Param.step : Step Param := fun ts =>
  match accept? .asterisk ts with
  | some r => .ok (.marker, r)
  | none => do
    let (type, ts) ← SchemaType.step ts
    let (name?, ts) := optionalName ts
    let (default?, ts) ← optionalDefault ts
    return (.value type name? default?, ts)

theorem Param.step_consumes : Param.step.Consumes := by
  intro ts a rest h
  unfold Param.step at h
  split at h
  · rename_i r hr
    obtain ⟨t, -, rfl⟩ := eq_cons_of_accept? hr
    cases h
    exact Nat.lt_succ_self _
  · obtain ⟨⟨type, r⟩, h1, h⟩ := bind_eq_ok.1 h
    obtain ⟨⟨default?, r'⟩, h2, h⟩ := bind_eq_ok.1 h
    cases h
    have ht := SchemaType.step_consumes _ _ _ h1
    have hn := length_optionalName_le r
    have hd : rest.length ≤ (optionalName r).2.length :=
      length_behind_le defaultValue_consumes h2
    omega

/-- An element of a returned tuple. -/
def elementStep : Step (SchemaType × Option String) := fun ts => do
  let (type, ts) ← SchemaType.step ts
  let (name?, ts) := optionalName ts
  return ((type, name?), ts)

theorem elementStep_consumes : elementStep.Consumes := by
  intro ts a rest h
  obtain ⟨⟨type, r⟩, h1, h⟩ := bind_eq_ok.1 h
  cases h
  exact Nat.lt_of_le_of_lt (length_optionalName_le r) (SchemaType.step_consumes _ _ _ h1)

/-- A return type. -/
def ReturnType.step : Step ReturnType := fun ts =>
  match accept? .openParen ts with
  | some r => do
    let (elements, r) ← listed elementStep elementStep_consumes r
    let (_, r) ← expect .closeParen .closeTuple r
    return (.tuple elements, r)
  | none => do
    let (type, r) ← SchemaType.step ts
    return (.value type, r)

/-! ## Signatures -/

/-- The segments of a name that follow the first one. -/
def moreSegments : Step (List String)
  | [] => .ok ([], [])
  | t :: r =>
    if t.kind = .doubleColon then
      match r with
      | u :: r' =>
        if u.kind = .identifier then do
          let (names, rest) ← moreSegments r'
          return (u.text :: names, rest)
        else .error (.at r (.expected .operatorName))
      | [] => .error (.at r (.expected .operatorName))
    else .ok ([], t :: r)

/-- The overload of an operator, behind a point. -/
def overloadName : Step String := fun ts => do
  let (t, r) ← expect .identifier .overloadName ts
  return (t.text, r)

/-- The signature that the whole of a text denotes. -/
def Signature.ofTokens (ts : List Token) : Except SyntaxFault Signature := do
  let (first, ts) ← expect .identifier .operatorName ts
  let (names, ts) ← moreSegments ts
  let (overload?, ts) ← behind .dot overloadName ts
  let (_, ts) ← expect .openParen .openParen ts
  let (params, ts) ← listed Param.step Param.step_consumes ts
  let (_, ts) ← expect .closeParen .closeParen ts
  let (_, ts) ← expect .arrow .arrow ts
  let (returnType, ts) ← ReturnType.step ts
  if (next ts).kind ≠ .eof then throw (.at ts .trailingInput)
  return ⟨first.text :: names, overload?, params, returnType⟩

/-- The signature that a text denotes. -/
def Signature.ofText (text : String) : Except ReadError Signature := read Signature.ofTokens text

end KernelGen.Schema
