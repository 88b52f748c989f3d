import KernelGen.Json.Value
set_option autoImplicit false

/-!
# JSON: symbols

The symbols of a JSON text are its brackets, separators, words, numbers and strings.  A
string symbol holds the text that the string denotes: escapes are resolved here, a pair of
surrogate escapes denotes one character, and a surrogate without its partner is refused, as
is a control character that is not escaped.
-/

namespace KernelGen.Json

/-- A symbol of a JSON text. -/
inductive Symbol where
  | openArray
  | closeArray
  | openObject
  | closeObject
  | comma
  | colon
  | null
  | bool (value : Bool)
  | number (text : String)
  | string (text : String)
  deriving DecidableEq, Repr, Inhabited

/-! ## Strings -/

/-- What stands at one place of a string: a character, or a code written in hexadecimal. -/
inductive StringUnit where
  | char (c : Char)
  | code (n : Nat)
  deriving DecidableEq, Repr, Inhabited

/-- The value of a hexadecimal digit of either case. -/
def hexDigit? (c : Char) : Option Nat :=
  if c.isDigit then some (c.toNat - 48)
  else if 'a' ≤ c ∧ c ≤ 'f' then some (c.toNat - 87)
  else if 'A' ≤ c ∧ c ≤ 'F' then some (c.toNat - 55)
  else none

/-- The value of four hexadecimal digits. -/
def hexCode? (a b c d : Char) : Option Nat := do
  return ((← hexDigit? a) * 4096 + (← hexDigit? b) * 256 + (← hexDigit? c) * 16 + (← hexDigit? d))

/-- The characters with an escape of one letter. -/
def shortEscapes : List (Char × Char) :=
  [('"', '"'), ('\\', '\\'), ('/', '/'), ('b', '\x08'), ('f', '\x0c'), ('n', '\n'), ('r', '\r'),
   ('t', '\t')]

/-- The units of a string behind its opening quote, and what follows its closing quote. -/
def stringUnits : List Char → Option (List StringUnit × List Char)
  | [] => none
  | '\\' :: 'u' :: a :: b :: c :: d :: r => do
    let n ← hexCode? a b c d
    let (us, rest) ← stringUnits r
    return (.code n :: us, rest)
  | '\\' :: e :: r => do
    let c ← shortEscapes.lookup e
    let (us, rest) ← stringUnits r
    return (.char c :: us, rest)
  | c :: r =>
    if c = '"' then some ([], r)
    else if c = '\\' ∨ c.toNat < 0x20 then none
    else do
      let (us, rest) ← stringUnits r
      return (.char c :: us, rest)

/-- The first half of a pair of codes. -/
def isHighSurrogate (n : Nat) : Bool := 0xD800 ≤ n && n ≤ 0xDBFF

/-- The second half of a pair of codes. -/
def isLowSurrogate (n : Nat) : Bool := 0xDC00 ≤ n && n ≤ 0xDFFF

/-- The characters that the units of a string denote. -/
def unitChars : List StringUnit → Option (List Char)
  | [] => some []
  | .char c :: us => (c :: ·) <$> unitChars us
  | .code n :: .code m :: us =>
    if isHighSurrogate n then
      if isLowSurrogate m then
        (Char.ofNat (0x10000 + (n - 0xD800) * 0x400 + (m - 0xDC00)) :: ·) <$> unitChars us
      else none
    else if isLowSurrogate n then none
    else (Char.ofNat n :: ·) <$> unitChars (.code m :: us)
  | .code n :: us =>
    if isHighSurrogate n || isLowSurrogate n then none
    else (Char.ofNat n :: ·) <$> unitChars us

/-! ## Numbers -/

/-- The whole digits of a number: a zero alone, or digits that do not start with one. -/
def splitWhole : List Char → Option (List Char × List Char)
  | [] => none
  | c :: r =>
    if c = '0' then some ([c], r)
    else if c.isDigit then some (c :: r.takeWhile Char.isDigit, r.dropWhile Char.isDigit)
    else none

/-- The fraction at the front of a text, if there is one with a digit. -/
def splitFraction : List Char → List Char × List Char
  | '.' :: d :: r =>
    if d.isDigit then ('.' :: d :: r.takeWhile Char.isDigit, r.dropWhile Char.isDigit)
    else ([], '.' :: d :: r)
  | r => ([], r)

/-- The digits of an exponent, if there are any, with `mark` in front. -/
def splitExponentDigits (mark all : List Char) : List Char → List Char × List Char
  | d :: r =>
    if d.isDigit then (mark ++ d :: r.takeWhile Char.isDigit, r.dropWhile Char.isDigit)
    else ([], all)
  | [] => ([], all)

/-- The exponent at the front of a text, if there is one with a digit. -/
def splitExponent : List Char → List Char × List Char
  | [] => ([], [])
  | e :: r =>
    if e = 'e' ∨ e = 'E' then
      match r with
      | '+' :: r' => splitExponentDigits [e, '+'] (e :: r) r'
      | '-' :: r' => splitExponentDigits [e, '-'] (e :: r) r'
      | r' => splitExponentDigits [e] (e :: r) r'
    else ([], e :: r)

/-- The number behind a sign, and what follows it. -/
def splitNumber (sign cs : List Char) : Option (Symbol × List Char) := do
  let (whole, r) ← splitWhole cs
  let (fraction, r) := splitFraction r
  let (exponent, r) := splitExponent r
  return (.number (String.ofList (sign ++ whole ++ fraction ++ exponent)), r)

/-! ## One symbol -/

/-- The blanks of a JSON text. -/
def isSpace (c : Char) : Bool := c == ' ' || c == '\t' || c == '\n' || c == '\r'

/-- The symbols of one character. -/
def marks : List (Char × Symbol) :=
  [('[', .openArray), (']', .closeArray), ('\x7b', .openObject), ('\x7d', .closeObject),
   (',', .comma), (':', .colon)]

/-- The symbols that are words. -/
def words : List (List Char × Symbol) :=
  [("null".toList, .null), ("true".toList, .bool true), ("false".toList, .bool false)]

/-- The word at the front of a text, and what follows it. -/
def splitWord (cs : List Char) : Option (Symbol × List Char) :=
  words.findSome? fun w =>
    if w.1.isPrefixOf cs then some (w.2, cs.drop w.1.length) else none

/-- The symbol at the front of a text that starts with `c`, and what follows it. -/
def firstSymbol (c : Char) (r : List Char) : Option (Symbol × List Char) :=
  match marks.lookup c with
  | some mark => some (mark, r)
  | none =>
    if c = '"' then do
      let (us, rest) ← stringUnits r
      let chars ← unitChars us
      return (.string (String.ofList chars), rest)
    else if c = '-' then splitNumber [c] r
    else if c.isDigit then splitNumber [] (c :: r)
    else splitWord (c :: r)

/-! ## Symbols are not empty -/

theorem length_lt_of_stringUnits {cs rest : List Char} {us : List StringUnit}
    (h : stringUnits cs = some (us, rest)) : rest.length < cs.length := by
  fun_induction stringUnits cs generalizing us rest with
  | case1 => cases h
  | case2 a b c d r ih =>
    simp only [Option.bind_eq_bind, Option.bind_eq_some_iff] at h
    obtain ⟨_, _, ⟨us', rest'⟩, hr, he⟩ := h
    cases he
    have := ih hr
    simp only [List.length_cons]
    omega
  | case3 e r _ ih =>
    simp only [Option.bind_eq_bind, Option.bind_eq_some_iff] at h
    obtain ⟨_, _, ⟨us', rest'⟩, hr, he⟩ := h
    cases he
    have := ih hr
    simp only [List.length_cons]
    omega
  | case4 r => cases h; simp
  | case5 => cases h
  | case6 c r _ _ _ _ ih =>
    simp only [Option.bind_eq_bind, Option.bind_eq_some_iff] at h
    obtain ⟨⟨us', rest'⟩, hr, he⟩ := h
    cases he
    have := ih hr
    simp only [List.length_cons]
    omega

theorem length_lt_of_splitWhole {cs whole rest : List Char}
    (h : splitWhole cs = some (whole, rest)) : rest.length < cs.length := by
  cases cs with
  | nil => cases h
  | cons c r =>
    simp only [splitWhole] at h
    split at h
    · cases h; simp
    · split at h <;> cases h
      have := (List.dropWhile_suffix (l := r) Char.isDigit).length_le
      simp only [List.length_cons]
      omega

theorem length_splitFraction_le (cs : List Char) : (splitFraction cs).2.length ≤ cs.length := by
  unfold splitFraction
  split
  · rename_i d r
    split
    · have := (List.dropWhile_suffix (l := r) Char.isDigit).length_le
      simp only [List.length_cons]
      omega
    · exact Nat.le_refl _
  · exact Nat.le_refl _

theorem length_splitExponentDigits_le (mark : List Char) {all cs : List Char}
    (h : cs.length ≤ all.length) :
    (splitExponentDigits mark all cs).2.length ≤ all.length := by
  cases cs with
  | nil => exact Nat.le_refl _
  | cons d r =>
    simp only [splitExponentDigits]
    split
    · have := (List.dropWhile_suffix (l := r) Char.isDigit).length_le
      simp only [List.length_cons] at h ⊢
      omega
    · exact Nat.le_refl _

theorem length_splitExponent_le (cs : List Char) : (splitExponent cs).2.length ≤ cs.length := by
  cases cs with
  | nil => exact Nat.le_refl _
  | cons e r =>
    simp only [splitExponent]
    split
    · split <;> exact length_splitExponentDigits_le _ (by simp only [List.length_cons]; omega)
    · exact Nat.le_refl _

theorem length_lt_of_splitNumber {sign cs rest : List Char} {s : Symbol}
    (h : splitNumber sign cs = some (s, rest)) : rest.length < cs.length := by
  simp only [splitNumber, Option.bind_eq_bind, Option.bind_eq_some_iff] at h
  obtain ⟨⟨whole, r⟩, hw, he⟩ := h
  cases he
  have h1 := length_lt_of_splitWhole hw
  have h2 := length_splitFraction_le r
  have h3 := length_splitExponent_le (splitFraction r).2
  simp only
  omega

theorem length_lt_of_splitWord {cs rest : List Char} {s : Symbol}
    (h : splitWord cs = some (s, rest)) : rest.length < cs.length := by
  obtain ⟨w, hw, he⟩ := List.exists_of_findSome?_eq_some h
  split at he
  · rename_i hp
    cases he
    have hle : w.1.length ≤ cs.length := (List.isPrefixOf_iff_prefix.1 hp).length_le
    have hpos : 0 < w.1.length := by
      simp only [words, List.mem_cons, List.not_mem_nil, or_false] at hw
      rcases hw with rfl | rfl | rfl <;> decide
    rw [List.length_drop]
    omega
  · cases he

/-- What follows a symbol is shorter than the text it stands at the front of. -/
theorem length_lt_of_firstSymbol {c : Char} {r rest : List Char} {s : Symbol}
    (h : firstSymbol c r = some (s, rest)) : rest.length < (c :: r).length := by
  unfold firstSymbol at h
  rw [List.length_cons]
  split at h
  · cases h; omega
  split at h
  · simp only [Option.bind_eq_bind, Option.bind_eq_some_iff] at h
    obtain ⟨⟨us, rest'⟩, hu, _, _, he⟩ := h
    cases he
    have h : rest'.length < r.length := length_lt_of_stringUnits hu
    exact Nat.lt_succ_of_lt h
  split at h
  · have := length_lt_of_splitNumber h
    omega
  split at h
  · exact length_lt_of_splitNumber h
  · exact length_lt_of_splitWord h

/-! ## A whole text -/

/-- The symbols of a text, or nothing when a piece of it is not a symbol. -/
def symbols (cs : List Char) : Option (List Symbol) :=
  match cs with
  | [] => some []
  | c :: r =>
    if isSpace c then symbols r
    else
      match _h : firstSymbol c r with
      | none => none
      | some (s, rest) => (s :: ·) <$> symbols rest
termination_by cs.length
decreasing_by
  · simp
  · exact length_lt_of_firstSymbol ‹_›

end KernelGen.Json
