set_option autoImplicit false

/-!
# Text: blank characters

Free text in comments and version fields is compared after its surrounding blanks are
removed.  Blank means the Unicode property White_Space, which has more members than the
blanks a token may be separated by, and does not contain the zero-width characters.
-/

namespace KernelGen.Text

/-- A character with the property White_Space. -/
def isBlank (c : Char) : Bool :=
  (9 ≤ c.toNat && c.toNat ≤ 13) || c.toNat == 0x20 || c.toNat == 0x85 || c.toNat == 0xA0 ||
    c.toNat == 0x1680 || (0x2000 ≤ c.toNat && c.toNat ≤ 0x200A) || c.toNat == 0x2028 ||
    c.toNat == 0x2029 || c.toNat == 0x202F || c.toNat == 0x205F || c.toNat == 0x3000

/-- The characters left when the blanks at both ends are removed. -/
def trimmed (cs : List Char) : List Char :=
  ((cs.dropWhile isBlank).reverse.dropWhile isBlank).reverse

/-- A text without the blanks at its two ends. -/
def trim (s : String) : String := String.ofList (trimmed s.toList)

end KernelGen.Text
