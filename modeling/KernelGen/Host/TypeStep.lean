import KernelGen.Host.Type
import KernelGen.Source.Step
set_option autoImplicit false

/-!
# Host: reading types

Types and template arguments contain each other, so what reads them is defined together, by
recursion on the number of tokens left, and returns the proof that fewer are left behind it.
`HostType.step` and `TemplateArg.step` are the steps without that proof; `HostType.step_eq` gives
the one in terms of the other.

The name of a builtin type may have two words.  The constant expressions among the arguments
of a template are runs of tokens, like default values, but only parentheses nest in them.
-/

namespace KernelGen.Host

open Source

/-! ## Names -/

/-- The words a builtin type of two words starts with. -/
def sizeWords : List String := ["unsigned", "signed", "long", "short"]

/-- The words a builtin type of two words ends with. -/
def kindWords : List String := ["int", "long", "char", "short", "double"]

/-- The first segment of the name of a type. -/
def firstSegment : Step String := fun ts => do
  let (t, r) ← expect .identifier .typeName ts
  match r with
  | u :: r' =>
    if sizeWords.contains t.text && u.kind == .identifier && kindWords.contains u.text then
      return (t.text ++ " " ++ u.text, r')
    else return (t.text, r)
  | [] => return (t.text, r)

/-- The segments of a name that follow the first one. -/
def moreSegments : Step (List String)
  | [] => .ok ([], [])
  | t :: r =>
    if t.kind = .doubleColon then
      match r with
      | u :: r' =>
        if u.kind = .identifier then do
          let (names, rest) ← moreSegments r'
          return (u.text :: names, rest)
        else .error (.at r (.expected .nameBehindScope))
      | [] => .error (.at r (.expected .nameBehindScope))
    else .ok ([], t :: r)

/-- The declarators that follow a name. -/
def declaratorRun : List Token → List Declarator × List Token
  | [] => ([], [])
  | t :: r =>
    if t.isWord "const" then
      (declaratorRun r).map (.const :: ·) id
    else if t.kind = .ampersand then
      match r with
      | u :: r' =>
        if u.kind = .ampersand then
          (declaratorRun r').map (.rvalueRef :: ·) id
        else
          (declaratorRun (u :: r')).map (.ref :: ·) id
      | [] => ([.ref], [])
    else if t.kind = .asterisk then
      (declaratorRun r).map (.pointer :: ·) id
    else ([], t :: r)

/-- A type up to its template arguments. -/
structure TypeHead where
  leadingConst : Bool
  fromGlobal : Bool
  path : List String
  deriving DecidableEq, Repr, Inhabited

/-- The part of a type up to its template arguments. -/
def typeHead : Step TypeHead := fun ts => do
  let leadingConst := (next ts).isWord "const"
  let ts := if leadingConst then ts.tail else ts
  let fromGlobal := (next ts).kind == .doubleColon
  let ts := if fromGlobal then ts.tail else ts
  let (first, ts) ← firstSegment ts
  let (names, ts) ← moreSegments ts
  return (⟨leadingConst, fromGlobal, first :: names⟩, ts)

/-! ## Constant template arguments -/

/-- The tokens up to the first comma, closing angle bracket or closing parenthesis outside the
parentheses, `depth` of which are open already. -/
def constantRun (depth : Nat) : Step (List Token)
  | [] => .error (.at [] .unterminatedTemplateArgument)
  | t :: r =>
    if t.kind = .eof then .error (.at (t :: r) .unterminatedTemplateArgument)
    else if depth = 0 ∧ (t.kind = .comma ∨ t.kind = .greaterThan ∨ t.kind = .closeParen) then
      .ok ([], t :: r)
    else do
      let (run, rest) ← constantRun
        (if t.kind = .openParen then depth + 1
          else if t.kind = .closeParen then depth - 1 else depth) r
      return (t :: run, rest)

/-- A constant template argument. -/
def constantArgument : Step (TemplateArg HostType) := fun ts => do
  let (run, rest) ← constantRun 0 ts
  if run.isEmpty then throw (.at rest (.expected .templateArgument))
  return (.constant (concatTexts run), rest)

/-! ## What the steps take -/

theorem firstSegment_consumes : firstSegment.Consumes := by
  intro ts a rest h
  obtain ⟨⟨t, r⟩, hr, h⟩ := bind_eq_ok.1 h
  have hlt := expect_consumes _ _ _ _ _ hr
  dsimp only at h
  split at h
  · rw [List.length_cons] at hlt
    split at h <;> cases h
    · omega
    · exact hlt
  · cases h; exact hlt

theorem length_moreSegments_le {ts rest : List Token} {names : List String}
    (h : moreSegments ts = .ok (names, rest)) : rest.length ≤ ts.length := by
  fun_induction moreSegments ts generalizing names rest with
  | case1 => cases h; exact Nat.le_refl _
  | case2 t u r' _ _ ih =>
    obtain ⟨⟨names', rest'⟩, hr, he⟩ := bind_eq_ok.1 h
    cases he
    have := ih hr
    simp only [List.length_cons]
    omega
  | case3 => cases h
  | case4 => cases h
  | case5 => cases h; exact Nat.le_refl _

theorem length_declaratorRun_le (ts : List Token) :
    (declaratorRun ts).2.length ≤ ts.length := by
  fun_induction declaratorRun ts <;> simp only [Prod.map_snd, id_eq, List.length_cons] at * <;>
    omega

theorem typeHead_consumes : typeHead.Consumes := by
  intro ts a rest h
  obtain ⟨⟨first, r⟩, h1, h⟩ := bind_eq_ok.1 h
  obtain ⟨⟨names, r'⟩, h2, h⟩ := bind_eq_ok.1 h
  cases h
  have hf := firstSegment_consumes _ _ _ h1
  have hm : rest.length ≤ r.length := length_moreSegments_le h2
  have tail_le : ∀ (b : Bool) (us : List Token),
      (if b then us.tail else us).length ≤ us.length := by
    intro b us
    cases b
    · exact Nat.le_refl _
    · simp
  have hc := tail_le ((next ts).isWord "const") ts
  have hg := tail_le
    ((next (if (next ts).isWord "const" then ts.tail else ts)).kind == .doubleColon)
    (if (next ts).isWord "const" then ts.tail else ts)
  omega

/-- A run is the tokens between those in front of it and those behind it. -/
theorem constantRun_append {ts run rest : List Token} {depth : Nat}
    (h : constantRun depth ts = .ok (run, rest)) : run ++ rest = ts := by
  induction ts generalizing depth run rest with
  | nil => cases h
  | cons t r ih =>
    simp only [constantRun] at h
    split at h
    · cases h
    split at h
    · cases h; rfl
    · obtain ⟨⟨run', rest'⟩, hr, he⟩ := bind_eq_ok.1 h
      cases he
      rw [List.cons_append, ih hr]

theorem constantArgument_consumes : constantArgument.Consumes := by
  intro ts a rest h
  obtain ⟨⟨run, r⟩, hr, h⟩ := bind_eq_ok.1 h
  dsimp only at h
  split at h
  · cases h
  · rename_i hne
    cases h
    cases run with
    | nil => simp at hne
    | cons t run =>
      rw [← constantRun_append hr, List.length_append, List.length_cons]
      omega

/-! ## Types and their arguments -/

mutual

/-- A type, with the tokens behind it, which are fewer. -/
def typeWithin (ts : List Token) :
    Except SyntaxFault {p : HostType × List Token // p.2.length < ts.length} :=
  match hh : typeHead ts with
  | .error e => .error e
  | .ok (head, []) => .ok ⟨(⟨head.leadingConst, head.fromGlobal, head.path, [], []⟩, []),
      typeHead_consumes _ _ _ hh⟩
  | .ok (head, t :: r) =>
    have hr := typeHead_consumes _ _ _ hh
    if t.kind = .lessThan then
      match argumentsWithin r with
      | .error e => .error e
      | .ok ⟨(arguments, rest), hrest⟩ =>
        match hc : expect .greaterThan .closeTemplate rest with
        | .error e => .error e
        | .ok (_, rest') =>
          .ok ⟨(⟨head.leadingConst, head.fromGlobal, head.path, arguments,
            (declaratorRun rest').1⟩, (declaratorRun rest').2), by
              have h1 := expect_consumes _ _ _ _ _ hc
              have h2 := length_declaratorRun_le rest'
              simp only [List.length_cons] at hr hrest ⊢
              omega⟩
    else
      .ok ⟨(⟨head.leadingConst, head.fromGlobal, head.path, [],
        (declaratorRun (t :: r)).1⟩, (declaratorRun (t :: r)).2),
          Nat.lt_of_le_of_lt (length_declaratorRun_le _) hr⟩
termination_by (ts.length, 0)
decreasing_by
  simp only [List.length_cons] at hr
  exact Prod.Lex.left _ _ (by omega)

/-- A template argument, with the tokens behind it, which are fewer: a type where one can start,
and a constant expression elsewhere. -/
def argumentWithin (ts : List Token) :
    Except SyntaxFault {p : TemplateArg HostType × List Token // p.2.length < ts.length} :=
  if (next ts).kind = .identifier ∨ (next ts).kind = .doubleColon then
    match typeWithin ts with
    | .error e => .error e
    | .ok ⟨(t, rest), h⟩ => .ok ⟨(.type t, rest), h⟩
  else
    match hc : constantArgument ts with
    | .error e => .error e
    | .ok (a, rest) => .ok ⟨(a, rest), constantArgument_consumes _ _ _ hc⟩
termination_by (ts.length, 1)
decreasing_by exact Prod.Lex.right _ (by decide)

/-- One or more template arguments, with the tokens behind them, which are fewer. -/
def argumentsWithin (ts : List Token) :
    Except SyntaxFault {p : List (TemplateArg HostType) × List Token // p.2.length < ts.length} :=
  match argumentWithin ts with
  | .error e => .error e
  | .ok ⟨(a, []), h⟩ => .ok ⟨([a], []), h⟩
  | .ok ⟨(a, t :: r), h⟩ =>
    if t.kind = .comma then
      match argumentsWithin r with
      | .error e => .error e
      | .ok ⟨(as, rest), hr⟩ => .ok ⟨(a :: as, rest), by
          simp only [List.length_cons] at h hr ⊢
          omega⟩
    else .ok ⟨([a], t :: r), h⟩
termination_by (ts.length, 2)
decreasing_by
  · exact Prod.Lex.right _ (by decide)
  · simp only [List.length_cons] at h
    exact Prod.Lex.left _ _ (by omega)

end

/-- A type. -/
def HostType.step : Step HostType := fun ts => (typeWithin ts).map (·.val)

theorem HostType.step_consumes : HostType.step.Consumes := by
  intro ts a rest h
  unfold HostType.step at h
  cases ht : typeWithin ts with
  | error e => rw [ht] at h; cases h
  | ok p =>
    rw [ht] at h
    have he : p.val = (a, rest) := by simpa [Except.map] using h
    have := p.property
    rw [he] at this
    exact this

/-- A template argument: a type where one can start, and a constant expression elsewhere. -/
def TemplateArg.step : Step (TemplateArg HostType) := fun ts =>
  if (next ts).kind = .identifier ∨ (next ts).kind = .doubleColon then do
    let (t, rest) ← HostType.step ts
    return (.type t, rest)
  else constantArgument ts

theorem TemplateArg.step_consumes : TemplateArg.step.Consumes := by
  intro ts a rest h
  unfold TemplateArg.step at h
  split at h
  · obtain ⟨⟨t, r⟩, ht, he⟩ := bind_eq_ok.1 h
    cases he
    exact HostType.step_consumes _ _ _ ht
  · exact constantArgument_consumes _ _ _ h

/-! ## The steps without the lengths they prove -/

theorem map_argumentWithin (ts : List Token) :
    (argumentWithin ts).map (·.val) = TemplateArg.step ts := by
  rw [argumentWithin]
  unfold TemplateArg.step HostType.step
  split
  · cases typeWithin ts <;> rfl
  · split <;> rename_i h <;> exact h.symm

theorem argumentsWithin_eq (ts : List Token) :
    (argumentsWithin ts).map (·.val) = (do
      let (a, rest) ← TemplateArg.step ts
      match rest with
      | t :: r =>
        if t.kind = .comma then
          let (as, rest) ← (argumentsWithin r).map (·.val)
          return (a :: as, rest)
        else return ([a], t :: r)
      | [] => return ([a], [])) := by
  rw [argumentsWithin, ← map_argumentWithin]
  cases argumentWithin ts with
  | error e => rfl
  | ok p =>
    obtain ⟨⟨a, rest⟩, h⟩ := p
    cases rest with
    | nil => rfl
    | cons t r =>
      by_cases hc : t.kind = .comma
      · simp only [hc, if_pos, Except.map, bind, Except.bind]
        cases argumentsWithin r <;> rfl
      · simp only [hc, if_false, Except.map, bind, Except.bind]
        rfl

/-- The arguments of a template are a list separated by commas. -/
theorem map_argumentsWithin (ts : List Token) :
    (argumentsWithin ts).map (·.val) =
      commaSeparated TemplateArg.step TemplateArg.step_consumes ts := by
  fun_induction commaSeparated TemplateArg.step TemplateArg.step_consumes ts with
  | case1 ts e h => rw [argumentsWithin_eq, h]; rfl
  | case2 ts a h => rw [argumentsWithin_eq, h]; rfl
  | case3 ts a t r h hc ih =>
    rw [argumentsWithin_eq, h]
    simp only [bind, Except.bind, if_pos hc]
    rw [ih]
  | case4 ts a t r h hc =>
    rw [argumentsWithin_eq, h]
    simp only [bind, Except.bind, if_neg hc]
    rfl

/-- A type is a head, arguments in angle brackets where some follow, and declarators. -/
theorem HostType.step_eq (ts : List Token) : HostType.step ts = (do
    let (head, rest) ← typeHead ts
    match rest with
    | t :: r =>
      if t.kind = .lessThan then
        let (arguments, rest) ← commaSeparated TemplateArg.step TemplateArg.step_consumes r
        let (_, rest) ← expect .greaterThan .closeTemplate rest
        return (⟨head.leadingConst, head.fromGlobal, head.path, arguments,
          (declaratorRun rest).1⟩, (declaratorRun rest).2)
      else
        return (⟨head.leadingConst, head.fromGlobal, head.path, [],
          (declaratorRun (t :: r)).1⟩, (declaratorRun (t :: r)).2)
    | [] => return (⟨head.leadingConst, head.fromGlobal, head.path, [], []⟩, [])) := by
  unfold HostType.step
  rw [typeWithin]
  split <;> rename_i h <;> simp only [h]
  · rfl
  · rfl
  · rename_i t r
    by_cases hk : t.kind = .lessThan
    · simp only [hk, if_pos, bind, Except.bind]
      rw [← map_argumentsWithin]
      cases argumentsWithin r with
      | error e => rfl
      | ok p =>
        simp only [Except.map]
        split <;> rename_i hx
        · split at hx
          · rename_i e he
            cases hx
            rw [he]
          · cases hx
        · split at hx
          · cases hx
          · rename_i he
            cases hx
            simp only [he]
            rfl
    · simp only [hk, if_false, Except.map, bind, Except.bind]
      rfl

end KernelGen.Host
