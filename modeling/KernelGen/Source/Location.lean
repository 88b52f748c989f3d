set_option autoImplicit false

/-!
# Source: locations

A place in a text is a line and a column, both counted from one.  Only a newline ends a
line, and columns count the bytes of the UTF-8 form, so a location follows from the text in
front of it: `Location.advance` is that rule, and `advance_append` says that it can be
followed piece by piece.
-/

namespace KernelGen.Source

/-- A line and a column, both from one; the column counts bytes. -/
structure Location where
  line : Nat
  column : Nat
  deriving DecidableEq, Repr, Inhabited

namespace Location

/-- The first place of a text. -/
def start : Location := ⟨1, 1⟩

/-- The place behind one character. -/
def step (l : Location) (c : Char) : Location :=
  if c = '\n' then ⟨l.line + 1, 1⟩ else ⟨l.line, l.column + c.utf8Size⟩

/-- The place behind a piece of text that begins at `l`. -/
def advance (l : Location) (cs : List Char) : Location := cs.foldl step l

@[simp] theorem advance_nil (l : Location) : l.advance [] = l := rfl

@[simp] theorem advance_append (l : Location) (cs ds : List Char) :
    l.advance (cs ++ ds) = (l.advance cs).advance ds := by
  simp [advance]

/-- The form used in messages: line, colon, column. -/
def text (l : Location) : String := s!"{l.line}:{l.column}"

end Location

end KernelGen.Source
