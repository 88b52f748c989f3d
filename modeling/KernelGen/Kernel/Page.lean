set_option autoImplicit false

/-!
# Kernel: pages

Generated text is written on a page.  A line is indented by the depth at which its first text
is written, two blanks for each step, and a line without text is not indented.  The page
remembers the namespaces that were opened, so that it can close them.

Text may also be put on a page as it stands; that is how a body that was written on a page of
its own gets into the text around it.
-/

namespace KernelGen

/-- A page in the making. -/
structure Page where
  text : String
  /-- The depth of the next line. -/
  depth : Nat
  /-- Nothing was written on the last line. -/
  atLineStart : Bool
  /-- The open namespaces, the innermost first. -/
  namespaces : List String
  deriving DecidableEq, Repr, Inhabited

namespace Page

/-- The empty page, at a given depth. -/
def blank (depth : Nat) : Page := ⟨"", depth, true, []⟩

/-- The indentation of a line. -/
def indentation (depth : Nat) : String := String.ofList (List.replicate (2 * depth) ' ')

/-- Writes text on the last line. -/
def write (p : Page) (s : String) : Page :=
  if s.isEmpty then p
  else
    { p with
      text := (if p.atLineStart then p.text ++ indentation p.depth else p.text) ++ s
      atLineStart := false }

/-- Ends the last line. -/
def endLine (p : Page) : Page := { p with text := p.text ++ "\n", atLineStart := true }

/-- Writes text on the last line and ends it. -/
def writeLine (p : Page) (s : String) : Page := (p.write s).endLine

/-- Ends the last line, which leaves a blank one when nothing was written on it. -/
def blankLine (p : Page) : Page := p.writeLine ""

/-- Writes several lines. -/
def writeLines (p : Page) (ss : List String) : Page := ss.foldl writeLine p

/-- Puts text on the page as it stands. -/
def writeRaw (p : Page) (s : String) : Page :=
  if s.isEmpty then p
  else { p with text := p.text ++ s, atLineStart := s.toList.getLast? == some '\n' }

/-- Makes the lines that follow deeper by one step. -/
def indent (p : Page) : Page := { p with depth := p.depth + 1 }

/-- Makes the lines that follow less deep by one step, as far as they are deep at all. -/
def dedent (p : Page) : Page := { p with depth := p.depth - 1 }

/-- Opens a namespace. -/
def openNamespace (p : Page) (name : String) : Page :=
  let p := p.writeLine ("namespace " ++ name ++ " \x7b")
  { p with namespaces := name :: p.namespaces }

/-- Closes the open namespaces, the innermost first. -/
def closeNamespaces (p : Page) : Page :=
  let closed := p.writeLines (p.namespaces.map fun name => "\x7d // namespace " ++ name)
  { closed with namespaces := [] }

/-! ## What the operations leave alone -/

@[simp] theorem depth_write (p : Page) (s : String) : (p.write s).depth = p.depth := by
  unfold write; split <;> rfl

@[simp] theorem namespaces_write (p : Page) (s : String) :
    (p.write s).namespaces = p.namespaces := by
  unfold write; split <;> rfl

@[simp] theorem depth_writeLine (p : Page) (s : String) : (p.writeLine s).depth = p.depth :=
  depth_write p s

@[simp] theorem namespaces_writeLine (p : Page) (s : String) :
    (p.writeLine s).namespaces = p.namespaces :=
  namespaces_write p s

@[simp] theorem atLineStart_writeLine (p : Page) (s : String) :
    (p.writeLine s).atLineStart = true := rfl

@[simp] theorem depth_writeLines (p : Page) (ss : List String) :
    (p.writeLines ss).depth = p.depth := by
  unfold writeLines
  induction ss generalizing p with
  | nil => rfl
  | cons s ss ih => rw [List.foldl_cons, ih, depth_writeLine]

@[simp] theorem namespaces_writeLines (p : Page) (ss : List String) :
    (p.writeLines ss).namespaces = p.namespaces := by
  unfold writeLines
  induction ss generalizing p with
  | nil => rfl
  | cons s ss ih => rw [List.foldl_cons, ih, namespaces_writeLine]

end Page

end KernelGen
