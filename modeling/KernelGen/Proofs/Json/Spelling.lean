import KernelGen.Json.Symbol
import Mathlib.Data.List.TakeWhile
set_option autoImplicit false

/-!
# JSON: how symbols are spelled

The same symbols can be written in many ways: blanks go between them, and each character of a
string is written as itself or as an escape.  The forms below are those that the JSON grammar
allows, and whatever has such a form is read as the symbols it was written for.
-/

namespace KernelGen.Json

/-! ## Strings -/

/-- A hexadecimal digit of either case, and its value. -/
def HexDigit (d : Char) (n : Nat) : Prop := n < 16 ∧ (d = n.digitChar ∨ d = n.digitChar.toUpper)

/-- Four hexadecimal digits, and the code they are. -/
inductive HexCode : List Char → Nat → Prop where
  | mk {a b c d : Char} {w x y z : Nat} : HexDigit a w → HexDigit b x → HexDigit c y →
      HexDigit d z → HexCode [a, b, c, d] (w * 4096 + x * 256 + y * 16 + z)

/-- The letter behind a backslash, and the character it stands for. -/
inductive ShortEscape : Char → Char → Prop where
  | quote : ShortEscape '"' '"'
  | backslash : ShortEscape '\\' '\\'
  | slash : ShortEscape '/' '/'
  | backspace : ShortEscape 'b' '\x08'
  | formFeed : ShortEscape 'f' '\x0c'
  | newline : ShortEscape 'n' '\n'
  | carriageReturn : ShortEscape 'r' '\r'
  | tab : ShortEscape 't' '\t'

/-- The forms of a character in a string: itself, an escape of one letter, its code, or a pair of
codes when it is outside the basic plane. -/
inductive CharForm (c : Char) : List Char → Prop where
  | plain : c ≠ '"' → c ≠ '\\' → 0x20 ≤ c.toNat → CharForm c [c]
  | short {e : Char} : ShortEscape e c → CharForm c ['\\', e]
  | code {ds : List Char} : HexCode ds c.toNat → CharForm c ('\\' :: 'u' :: ds)
  | pair {ds ds' : List Char} {high low : Nat} : HexCode ds high → HexCode ds' low →
      0xD800 ≤ high → high < 0xDC00 → 0xDC00 ≤ low → low < 0xE000 →
      c.toNat = 0x10000 + (high - 0xD800) * 0x400 + (low - 0xDC00) →
      CharForm c ('\\' :: 'u' :: (ds ++ '\\' :: 'u' :: ds'))

/-- The forms of the characters of a string, one behind the other. -/
inductive CharsForm : List Char → List Char → Prop where
  | nil : CharsForm [] []
  | cons {c : Char} {cs form forms : List Char} : CharForm c form → CharsForm cs forms →
      CharsForm (c :: cs) (form ++ forms)

theorem HexDigit.value {d : Char} {n : Nat} (h : HexDigit d n) : hexDigit? d = some n := by
  have hall : ∀ n < 16, hexDigit? n.digitChar = some n ∧
      hexDigit? n.digitChar.toUpper = some n := by
    decide
  obtain ⟨hn, rfl | rfl⟩ := h
  · exact (hall n hn).1
  · exact (hall n hn).2

theorem HexCode.stringUnits {ds : List Char} {n : Nat} (h : HexCode ds n) (rest : List Char) :
    stringUnits ('\\' :: 'u' :: (ds ++ rest)) =
      (stringUnits rest).map fun p => (.code n :: p.1, p.2) := by
  obtain ⟨ha, hb, hc, hd⟩ := h
  rw [List.cons_append, List.cons_append, List.cons_append, List.cons_append, List.nil_append,
    Json.stringUnits, hexCode?, ha.value, hb.value, hc.value, hd.value]
  cases Json.stringUnits rest <;> rfl

theorem ShortEscape.stands {e c : Char} (h : ShortEscape e c) :
    e ≠ 'u' ∧ shortEscapes.lookup e = some c := by
  cases h <;> decide

theorem ShortEscape.stringUnits {e c : Char} (h : ShortEscape e c) (rest : List Char) :
    stringUnits ('\\' :: e :: rest) = (stringUnits rest).map fun p => (.char c :: p.1, p.2) := by
  obtain ⟨hcode, hstands⟩ := h.stands
  rw [Json.stringUnits, hstands]
  · cases Json.stringUnits rest <;> rfl
  · exact fun _ _ _ _ _ he _ => hcode he

theorem stringUnits_plain {c : Char} (hquote : c ≠ '"') (hescape : c ≠ '\\')
    (hcontrol : 0x20 ≤ c.toNat) (rest : List Char) :
    stringUnits (c :: rest) = (stringUnits rest).map fun p => (.char c :: p.1, p.2) := by
  have hshows : ¬ (c = '\\' ∨ c.toNat < 0x20) := by
    rintro (h | h)
    · exact hescape h
    · omega
  rw [stringUnits, if_neg hquote, if_neg hshows]
  · cases stringUnits rest <;> rfl
  · exact fun _ _ _ _ _ hc _ => hescape hc
  · exact fun _ _ hc _ => hescape hc

theorem unitChars_code {n : Nat} (hhigh : isHighSurrogate n = false)
    (hlow : isLowSurrogate n = false) (us : List StringUnit) :
    unitChars (.code n :: us) = (Char.ofNat n :: ·) <$> unitChars us := by
  rcases us with _ | ⟨_ | m, us⟩ <;> simp [unitChars, hhigh, hlow]

/-- No character is half of a pair of codes. -/
theorem not_isSurrogate (c : Char) :
    isHighSurrogate c.toNat = false ∧ isLowSurrogate c.toNat = false := by
  have hvalid : c.toNat.isValidChar := c.valid
  simp only [isHighSurrogate, isLowSurrogate]
  rcases hvalid with h | h <;> simp <;> omega

/-- Each form of a character is read as units that denote it. -/
theorem CharForm.stringUnits {c : Char} {form : List Char} (h : CharForm c form) :
    ∃ us, (∀ rest, stringUnits (form ++ rest) =
        (stringUnits rest).map fun p => (us ++ p.1, p.2)) ∧
      ∀ vs, unitChars (us ++ vs) = (c :: ·) <$> unitChars vs := by
  cases h with
  | plain hquote hescape hcontrol =>
    exact ⟨[.char c], stringUnits_plain hquote hescape hcontrol, fun vs => by rfl⟩
  | short he => exact ⟨[.char c], he.stringUnits, fun vs => rfl⟩
  | code hds =>
    obtain ⟨hhigh, hlow⟩ := not_isSurrogate c
    refine ⟨[.code c.toNat], hds.stringUnits, fun vs => ?_⟩
    rw [List.singleton_append, unitChars_code hhigh hlow, Char.ofNat_toNat]
  | @pair ds ds' high low hds hds' hhigh hhigh' hlow hlow' hc =>
    refine ⟨[.code high, .code low], fun rest => ?_, fun vs => ?_⟩
    · have hsplit : '\\' :: 'u' :: (ds ++ '\\' :: 'u' :: ds') ++ rest =
          '\\' :: 'u' :: (ds ++ '\\' :: 'u' :: (ds' ++ rest)) := by simp
      rw [hsplit, hds.stringUnits, hds'.stringUnits]
      cases Json.stringUnits rest <;> rfl
    · have hfirst : isHighSurrogate high = true := by
        simp [isHighSurrogate]
        omega
      have hsecond : isLowSurrogate low = true := by
        simp [isLowSurrogate]
        omega
      rw [List.cons_append, List.singleton_append, unitChars, if_pos hfirst, if_pos hsecond, ← hc,
        Char.ofNat_toNat]

theorem CharsForm.stringUnits {cs form : List Char} (h : CharsForm cs form) :
    ∃ us, (∀ rest, stringUnits (form ++ '"' :: rest) = some (us, rest)) ∧
      unitChars us = some cs := by
  induction h with
  | nil => exact ⟨[], fun rest => rfl, rfl⟩
  | cons hc _ ih =>
    obtain ⟨us, hus, hcs⟩ := ih
    obtain ⟨vs, hvs, hc⟩ := hc.stringUnits
    refine ⟨vs ++ us, fun rest => ?_, ?_⟩
    · rw [List.append_assoc, hvs, hus]
      rfl
    · rw [hc, hcs]
      rfl

theorem firstSymbol_string {t : String} {form : List Char} (h : CharsForm t.toList form)
    (rest : List Char) : firstSymbol '"' (form ++ '"' :: rest) = some (.string t, rest) := by
  obtain ⟨us, hus, hcs⟩ := h.stringUnits
  have hmark : marks.lookup '"' = none := by decide
  rw [firstSymbol, hmark]
  simp [hus, hcs]

/-! ## Numbers -/

/-- All of the characters are digits. -/
def AreDigits (ds : List Char) : Prop := ∀ d ∈ ds, d.isDigit = true

/-- A zero alone, or digits that do not start with one. -/
inductive WholeForm : List Char → Prop where
  | zero : WholeForm ['0']
  | digits {d : Char} {ds : List Char} : d ≠ '0' → AreDigits (d :: ds) → WholeForm (d :: ds)

/-- A dot and digits, if there is a fraction. -/
inductive FractionForm : List Char → Prop where
  | absent : FractionForm []
  | present {d : Char} {ds : List Char} : AreDigits (d :: ds) → FractionForm ('.' :: d :: ds)

/-- A letter, a sign that may be missing, and digits, if there is an exponent. -/
inductive ExponentForm : List Char → Prop where
  | absent : ExponentForm []
  | present {e d : Char} {sign ds : List Char} : e = 'e' ∨ e = 'E' →
      sign = [] ∨ sign = ['+'] ∨ sign = ['-'] → AreDigits (d :: ds) →
      ExponentForm (e :: (sign ++ d :: ds))

/-- `[-] whole [fraction] [exponent]` -/
inductive NumberForm : List Char → Prop where
  | mk {sign whole fraction exponent : List Char} : sign = [] ∨ sign = ['-'] → WholeForm whole →
      FractionForm fraction → ExponentForm exponent →
      NumberForm (sign ++ (whole ++ (fraction ++ exponent)))

/-- What follows does not go on with a number. -/
def EndsNumber (rest : List Char) : Prop :=
  ∀ c ∈ rest.head?, c.isDigit = false ∧ c ≠ '.' ∧ c ≠ 'e' ∧ c ≠ 'E'

section Numbers

variable {rest : List Char}

theorem span_digits {ds : List Char} (h : AreDigits ds)
    (hrest : ∀ c ∈ rest.head?, c.isDigit = false) :
    (ds ++ rest).takeWhile Char.isDigit = ds ∧ (ds ++ rest).dropWhile Char.isDigit = rest := by
  rw [List.takeWhile_append_of_pos h, List.dropWhile_append_of_pos h]
  cases rest with
  | nil => simp
  | cons c rest => simp [hrest c rfl]

theorem splitWhole_form {whole : List Char} (h : WholeForm whole)
    (hrest : ∀ c ∈ rest.head?, c.isDigit = false) :
    splitWhole (whole ++ rest) = some (whole, rest) := by
  cases h with
  | zero => rfl
  | @digits d ds hzero hdigits =>
    have hd : d.isDigit = true := hdigits d List.mem_cons_self
    obtain ⟨htake, hdrop⟩ :=
      span_digits (fun c hc => hdigits c (List.mem_cons_of_mem d hc)) hrest
    rw [List.cons_append, splitWhole, if_neg hzero, if_pos hd, htake, hdrop]

theorem splitFraction_form {fraction : List Char} (h : FractionForm fraction)
    (hrest : ∀ c ∈ rest.head?, c.isDigit = false ∧ c ≠ '.') :
    splitFraction (fraction ++ rest) = (fraction, rest) := by
  cases h with
  | absent =>
    rw [List.nil_append]
    unfold splitFraction
    split
    · exact absurd rfl (hrest _ rfl).2
    · rfl
  | @present d ds hdigits =>
    have hd : d.isDigit = true := hdigits d List.mem_cons_self
    obtain ⟨htake, hdrop⟩ :=
      span_digits (fun c hc => hdigits c (List.mem_cons_of_mem d hc)) fun c hc => (hrest c hc).1
    rw [List.cons_append, List.cons_append, splitFraction, if_pos hd, htake, hdrop]

theorem splitExponentDigits_form {mark all : List Char} {d : Char} {ds : List Char}
    (h : AreDigits (d :: ds)) (hrest : ∀ c ∈ rest.head?, c.isDigit = false) :
    splitExponentDigits mark all (d :: ds ++ rest) = (mark ++ d :: ds, rest) := by
  have hd : d.isDigit = true := h d List.mem_cons_self
  obtain ⟨htake, hdrop⟩ := span_digits (fun c hc => h c (List.mem_cons_of_mem d hc)) hrest
  rw [List.cons_append, splitExponentDigits, if_pos hd, htake, hdrop]

theorem splitExponent_form {exponent : List Char} (h : ExponentForm exponent)
    (hrest : EndsNumber rest) : splitExponent (exponent ++ rest) = (exponent, rest) := by
  cases h with
  | absent =>
    cases rest with
    | nil => rfl
    | cons c rest =>
      obtain ⟨-, -, he, hE⟩ := hrest c rfl
      rw [List.nil_append, splitExponent.eq_def]
      exact if_neg (not_or.2 ⟨he, hE⟩)
  | @present e d sign ds he hsign hdigits =>
    have hends : ∀ c ∈ rest.head?, c.isDigit = false := fun c hc => (hrest c hc).1
    have hd : d.isDigit = true := hdigits d List.mem_cons_self
    have hplus : d ≠ '+' := by
      rintro rfl
      cases hd
    have hminus : d ≠ '-' := by
      rintro rfl
      cases hd
    rw [splitExponent.eq_def]
    refine (if_pos he).trans ?_
    rcases hsign with rfl | rfl | rfl
    · split
      · rename_i heq
        exact absurd (List.cons.inj heq).1 hplus
      · rename_i heq
        exact absurd (List.cons.inj heq).1 hminus
      · exact splitExponentDigits_form hdigits hends
    · exact splitExponentDigits_form hdigits hends
    · exact splitExponentDigits_form hdigits hends

theorem ExponentForm.ends {exponent : List Char} (h : ExponentForm exponent)
    (hrest : EndsNumber rest) :
    ∀ c ∈ (exponent ++ rest).head?, c.isDigit = false ∧ c ≠ '.' := by
  cases h with
  | absent => exact fun c hc => ⟨(hrest c hc).1, (hrest c hc).2.1⟩
  | present he _ _ =>
    intro c hc
    cases hc
    rcases he with rfl | rfl <;> decide

theorem FractionForm.ends {fraction : List Char} (h : FractionForm fraction)
    (hrest : ∀ c ∈ rest.head?, c.isDigit = false) :
    ∀ c ∈ (fraction ++ rest).head?, c.isDigit = false := by
  cases h with
  | absent => exact hrest
  | present _ =>
    intro c hc
    cases hc
    decide

theorem splitNumber_form (sign : List Char) {whole fraction exponent : List Char}
    (hwhole : WholeForm whole) (hfraction : FractionForm fraction)
    (hexponent : ExponentForm exponent) (hrest : EndsNumber rest) :
    splitNumber sign (whole ++ (fraction ++ exponent) ++ rest) =
      some (.number (String.ofList (sign ++ (whole ++ (fraction ++ exponent)))), rest) := by
  have hbehind := hexponent.ends hrest
  have hends := hfraction.ends fun c hc => (hbehind c hc).1
  rw [List.append_assoc, List.append_assoc, splitNumber, splitWhole_form hwhole hends]
  simp only [Option.bind_eq_bind, Option.bind_some, splitFraction_form hfraction hbehind,
    splitExponent_form hexponent hrest, List.append_assoc]
  rfl

theorem isSpace_digit {c : Char} (hdigit : c.isDigit = true) : isSpace c = false := by
  simp only [isSpace, Bool.or_eq_false_iff, beq_eq_false_iff_ne]
  refine ⟨⟨⟨?_, ?_⟩, ?_⟩, ?_⟩ <;> rintro rfl <;> cases hdigit

theorem firstSymbol_digit {c : Char} (hdigit : c.isDigit = true) (r : List Char) :
    firstSymbol c r = splitNumber [] (c :: r) := by
  have hmark : marks.lookup c = none := by
    have hmarks : ∀ m ∈ marks, m.1.isDigit = false := by decide
    refine List.lookup_eq_none_iff.2 fun m hm => bne_iff_ne.2 ?_
    rintro rfl
    exact Bool.false_ne_true ((hmarks m hm).symm.trans hdigit)
  have hquote : c ≠ '"' := by
    rintro rfl
    cases hdigit
  have hminus : c ≠ '-' := by
    rintro rfl
    cases hdigit
  rw [firstSymbol, hmark]
  simp only [if_neg hquote, if_neg hminus, if_pos hdigit]

end Numbers

/-! ## Texts -/

/-- The forms of a symbol. -/
inductive SymbolForm : Symbol → List Char → Prop where
  | openArray : SymbolForm .openArray ['[']
  | closeArray : SymbolForm .closeArray [']']
  | openObject : SymbolForm .openObject ['\x7b']
  | closeObject : SymbolForm .closeObject ['\x7d']
  | comma : SymbolForm .comma [',']
  | colon : SymbolForm .colon [':']
  | null : SymbolForm .null ['n', 'u', 'l', 'l']
  | yes : SymbolForm (.bool true) ['t', 'r', 'u', 'e']
  | no : SymbolForm (.bool false) ['f', 'a', 'l', 's', 'e']
  | number {form : List Char} : NumberForm form → SymbolForm (.number (String.ofList form)) form
  | string {t : String} {form : List Char} : CharsForm t.toList form →
      SymbolForm (.string t) ('"' :: (form ++ ['"']))

/-- A blank between symbols. -/
def Space (c : Char) : Prop := c = ' ' ∨ c = '\t' ∨ c = '\n' ∨ c = '\r'

/-- Symbols one behind the other, with any blanks between them, where nothing goes on with a
number. -/
inductive TextForm : List Symbol → List Char → Prop where
  | nil : TextForm [] []
  | blank {c : Char} {ss : List Symbol} {cs : List Char} : Space c → TextForm ss cs →
      TextForm ss (c :: cs)
  | symbol {s : Symbol} {ss : List Symbol} {form cs : List Char} : SymbolForm s form →
      (∀ t, s = .number t → EndsNumber cs) → TextForm ss cs → TextForm (s :: ss) (form ++ cs)

theorem NumberForm.firstSymbol {form rest : List Char} (h : NumberForm form)
    (hrest : EndsNumber rest) :
    ∃ c r, form = c :: r ∧ isSpace c = false ∧
      firstSymbol c (r ++ rest) = some (.number (String.ofList form), rest) := by
  obtain ⟨hsign, hwhole, hfraction, hexponent⟩ := h
  rename_i sign whole fraction exponent
  rcases hsign with rfl | rfl
  · obtain ⟨c, ds, hcs, hdigit⟩ : ∃ c ds, whole = c :: ds ∧ c.isDigit = true := by
      cases hwhole with
      | zero => exact ⟨'0', [], rfl, rfl⟩
      | @digits d ds _ hdigits => exact ⟨d, ds, rfl, hdigits d List.mem_cons_self⟩
    have hread := splitNumber_form [] hwhole hfraction hexponent hrest
    rw [hcs] at hread
    refine ⟨c, ds ++ (fraction ++ exponent), by rw [hcs]; rfl, isSpace_digit hdigit, ?_⟩
    rw [firstSymbol_digit hdigit, hcs]
    exact hread
  · refine ⟨'-', whole ++ (fraction ++ exponent), rfl, rfl, ?_⟩
    exact splitNumber_form ['-'] hwhole hfraction hexponent hrest

/-- A symbol is read from each of its forms, whatever follows that does not go on with it. -/
theorem SymbolForm.firstSymbol {s : Symbol} {form rest : List Char} (h : SymbolForm s form)
    (hrest : ∀ t, s = .number t → EndsNumber rest) :
    ∃ c r, form = c :: r ∧ isSpace c = false ∧
      firstSymbol c (r ++ rest) = some (s, rest) := by
  cases h with
  | number hform => exact hform.firstSymbol (hrest _ rfl)
  | string hform =>
    refine ⟨'"', _, rfl, rfl, ?_⟩
    rw [List.append_assoc]
    exact firstSymbol_string hform rest
  | null => exact ⟨'n', _, rfl, rfl, rfl⟩
  | yes => exact ⟨'t', _, rfl, rfl, rfl⟩
  | no => exact ⟨'f', _, rfl, rfl, rfl⟩
  | _ => exact ⟨_, [], rfl, rfl, rfl⟩

theorem symbols_of_textForm {ss : List Symbol} {cs : List Char} (h : TextForm ss cs) :
    symbols cs = some ss := by
  induction h with
  | nil => rw [symbols]
  | @blank c ss cs hc _ ih =>
    have hspace : isSpace c = true := by
      rcases hc with rfl | rfl | rfl | rfl <;> rfl
    rw [symbols, if_pos hspace, ih]
  | symbol hs hends _ ih =>
    obtain ⟨c, r, rfl, hspace, hfirst⟩ := hs.firstSymbol hends
    rw [List.cons_append, symbols, if_neg (Bool.eq_false_iff.1 hspace)]
    split <;> rename_i hread <;> cases hfirst.symm.trans hread
    rw [ih]
    rfl

/-! ## One way to write symbols -/

/-- A form for each character: an escape only where the character cannot stand for itself. -/
def escape (c : Char) : List Char :=
  if c = '"' then ['\\', '"']
  else if c = '\\' then ['\\', '\\']
  else if c.toNat < 0x20 then
    ['\\', 'u', '0', '0', (c.toNat / 16).digitChar, (c.toNat % 16).digitChar]
  else [c]

/-- A form for each symbol. -/
def Symbol.write : Symbol → List Char
  | .openArray => ['[']
  | .closeArray => [']']
  | .openObject => ['\x7b']
  | .closeObject => ['\x7d']
  | .comma => [',']
  | .colon => [':']
  | .null => ['n', 'u', 'l', 'l']
  | .bool true => ['t', 'r', 'u', 'e']
  | .bool false => ['f', 'a', 'l', 's', 'e']
  | .number t => t.toList
  | .string t => '"' :: (t.toList.flatMap escape ++ ['"'])

theorem charForm_escape (c : Char) : CharForm c (escape c) := by
  unfold escape
  split
  · rename_i hc
    subst hc
    exact .short .quote
  split
  · rename_i hc
    subst hc
    exact .short .backslash
  split
  · rename_i hquote hescape hcontrol
    have hcode : HexCode ['0', '0', (c.toNat / 16).digitChar, (c.toNat % 16).digitChar]
        (0 * 4096 + 0 * 256 + c.toNat / 16 * 16 + c.toNat % 16) :=
      .mk ⟨by omega, .inl rfl⟩ ⟨by omega, .inl rfl⟩ ⟨by omega, .inl rfl⟩ ⟨by omega, .inl rfl⟩
    have hvalue : 0 * 4096 + 0 * 256 + c.toNat / 16 * 16 + c.toNat % 16 = c.toNat := by omega
    rw [hvalue] at hcode
    exact .code hcode
  · rename_i hquote hescape hcontrol
    exact .plain hquote hescape (by omega)

theorem charsForm_escape (cs : List Char) : CharsForm cs (cs.flatMap escape) := by
  induction cs with
  | nil => exact .nil
  | cons c cs ih => exact .cons (charForm_escape c) ih

theorem newline_notMem_escape (c : Char) : '\n' ∉ escape c := by
  have hdigits : ∀ n < 16, '\n' ≠ n.digitChar := by decide
  unfold escape
  split
  · decide
  split
  · decide
  split
  · rename_i hcontrol
    have hhigh := hdigits (c.toNat / 16) (by omega)
    have hlow := hdigits (c.toNat % 16) (by omega)
    simp [hhigh, hlow]
  · rename_i hshows
    rw [List.mem_singleton]
    rintro rfl
    exact hshows (by decide)

/-- Symbols without numbers among them can be written one behind the other. -/
theorem textForm_write {ss : List Symbol} (h : ∀ s ∈ ss, ∀ t, s ≠ .number t) :
    TextForm ss (ss.flatMap Symbol.write) := by
  induction ss with
  | nil => exact .nil
  | cons s ss ih =>
    obtain ⟨hs, hmore⟩ := List.forall_mem_cons.1 h
    refine .symbol ?_ (fun t ht => absurd ht (hs t)) (ih hmore)
    cases s with
    | bool b => cases b <;> constructor
    | number t => exact absurd rfl (hs t)
    | string t => exact .string (charsForm_escape t.toList)
    | _ => constructor

theorem newline_notMem_write {s : Symbol} (h : ∀ t, s ≠ .number t) : '\n' ∉ s.write := by
  cases s with
  | bool b => cases b <;> decide
  | number t => exact absurd rfl (h t)
  | string t =>
    have hchars : '\n' ∉ t.toList.flatMap escape := by
      intro hmem
      obtain ⟨c, -, hc⟩ := List.mem_flatMap.1 hmem
      exact newline_notMem_escape c hc
    simp [Symbol.write, hchars]
  | _ => decide

end KernelGen.Json
