import KernelGen.Text.Invisible
set_option autoImplicit false

/-!
# Text: quoted form

Messages show a piece of input between double quotes, so that its ends and its invisible
characters can be seen: a quote and a backslash are escaped, four control characters have
short names, and any other character that would not show as a glyph of its own is written
as its code in hexadecimal between braces.
-/

namespace KernelGen.Text

/-- The digits of a code in lower-case hexadecimal, without leading zeros. -/
def hexDigits (n : Nat) : List Char := Nat.toDigits 16 n

/-- One character as it stands between the quotes. -/
def quotedChar (c : Char) : List Char :=
  if c = '\t' then ['\\', 't']
  else if c = '\r' then ['\\', 'r']
  else if c = '\n' then ['\\', 'n']
  else if c = '\x00' then ['\\', '0']
  else if c = '"' then ['\\', '"']
  else if c = '\\' then ['\\', '\\']
  else if isInvisible c then ['\\', 'u', '\x7b'] ++ hexDigits c.toNat ++ ['\x7d']
  else [c]

/-- A text between double quotes, with every character that needs it escaped. -/
def quoted (s : String) : String :=
  String.ofList (['"'] ++ s.toList.flatMap quotedChar ++ ['"'])

end KernelGen.Text
