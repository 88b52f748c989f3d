import KernelGen.Kernel.Body
import KernelGen.Mapping.Basic
set_option autoImplicit false

/-!
# Kernel: functions

A kernel function is a linked function with its body, or without one when only its prototype
is wanted.  On the page it is preceded by a blank line and by its schema in a comment.  Each
parameter has a line of its own; the place of a marker is a comment, so the line that a marker
is on holds nothing behind it.
-/

namespace KernelGen

/-- A function to be written. -/
structure KernelFunction where
  linked : LinkedFunction
  /-- The body; a function without one is a prototype. -/
  body? : Option (List Statement)
  deriving Inhabited

namespace KernelFunction

/-- The function that a mapping stands for. -/
def ofMapping (f : LinkedFunction) : Mapping → Outcome Cause KernelFunction
  | .signatureOnly => pure ⟨f, none⟩
  | .graph g => do
    let body ← Body.ofGraph f g
    return ⟨f, some body⟩

/-- Writes a parameter on a line of its own. -/
def writeParam (p : Page) (param : LinkedParam) (isLast : Bool) : Page :=
  let p := p.blankLine
  let p := if param.isMarker then p.write "// " else p
  let p := p.write param.text
  if isLast then p else p.write ","

/-- Writes parameters, each on a line of its own. -/
def writeParams (p : Page) : List LinkedParam → Page
  | [] => p
  | [param] => writeParam p param true
  | param :: params => writeParams (writeParam p param false) params

/-- Writes the signature of a function.  The closing parenthesis goes to a line of its own when
it would stand in a comment. -/
def writeSignature (p : Page) (f : LinkedFunction) : Page :=
  let p := p.write (f.declaration.returnType.text ++ " " ++ f.name ++ "(")
  let p := (writeParams p.indent f.params).dedent
  let p := if (f.params.getLast?.map LinkedParam.isMarker).getD false then p.blankLine else p
  p.write ")"

/-- Writes a function. -/
def write (p : Page) (k : KernelFunction) : Page :=
  let p := p.blankLine.writeLine ("// " ++ k.linked.schema)
  let p := writeSignature p k.linked
  match k.body? with
  | none => p.writeLine ";"
  | some body =>
    ((p.writeLine " \x7b").writeRaw (Statement.writeAll (.blank 1) body).text).writeLine "\x7d"

end KernelFunction

end KernelGen
