import KernelGen.Proofs.Kernel.PageText
set_option autoImplicit false

/-!
# Kernel: where locals occur in the text

The text of a body is code in which the names of locals occur, here to declare the local, there
to use it.  `Statement.lines` is the text of a statement with these occurrences told apart, and
`writeAll_eq` says that it is the text: whatever is shown about the occurrences is about what is
on the page, in the order in which it stands there.
-/

namespace KernelGen

/-- A piece of the text of a body. -/
inductive Piece where
  /-- text without names of locals, expressions of the mapping apart -/
  | code (s : String)
  /-- the name of a local that is declared -/
  | declares (l : Local)
  /-- the name of a local that is used -/
  | uses (l : Local)
  /-- the name of a table of which an entry is set -/
  | assigns (table : Local)
  /-- the number of entries that a table is made for -/
  | capacity (table : Local) (count : Nat)
  deriving DecidableEq, Repr, Inhabited

/-- A piece as it is written. -/
def Piece.text : Piece → String
  | .code s => s
  | .declares l | .uses l | .assigns l => l.name
  | .capacity _ count => toString count

/-- Pieces as they are written. -/
def piecesText (ps : List Piece) : String := String.join (ps.map Piece.text)

@[simp] theorem piecesText_nil : piecesText [] = "" := rfl

@[simp] theorem piecesText_cons (p : Piece) (ps : List Piece) :
    piecesText (p :: ps) = p.text ++ piecesText ps := by
  simp [piecesText]

@[simp] theorem piecesText_append (ps qs : List Piece) :
    piecesText (ps ++ qs) = piecesText ps ++ piecesText qs := by
  simp [piecesText]

/-- A line of the text of a statement, with its depth inside the statement. -/
structure Line where
  depth : Nat
  pieces : List Piece

namespace Line

/-- A line without text. -/
def blank : Line := ⟨0, []⟩

@[simp] theorem pieces_blank : blank.pieces = [] := rfl

/-- A line as it is written in a statement at a given depth. -/
def text (depth : Nat) (l : Line) : String := Page.lineText (depth + l.depth) (piecesText l.pieces)

end Line

/-- Lines as they are written. -/
def linesText (depth : Nat) (ls : List Line) : String := String.join (ls.map (Line.text depth))

@[simp] theorem linesText_nil (depth : Nat) : linesText depth [] = "" := rfl

@[simp] theorem linesText_cons (depth : Nat) (l : Line) (ls : List Line) :
    linesText depth (l :: ls) = l.text depth ++ linesText depth ls := by
  simp [linesText]

@[simp] theorem linesText_append (depth : Nat) (ls ms : List Line) :
    linesText depth (ls ++ ms) = linesText depth ls ++ linesText depth ms := by
  simp [linesText]

/-- Lines that are made in the same way, all at the same depth. -/
theorem linesText_map {α : Type} (depth inner : Nat) (f : α → List Piece) (xs : List α) :
    linesText depth (xs.map fun a => ⟨inner, f a⟩) =
      String.join ((xs.map fun a => piecesText (f a)).map (Page.lineText (depth + inner))) := by
  simp [linesText, Line.text, Function.comp_def]

/-! ## The lines of a statement -/

/-- The pieces of an argument. -/
def Argument.pieces : Argument → List Piece
  | .whole l => [.uses l]
  | .first l => [.uses l, .code "[0]"]

/-- The pieces of the value of an attribute. -/
def AttributeValue.pieces : AttributeValue → List Piece
  | .param name => [.code name]
  | .literal text => [.code text]
  | .first l => [.uses l, .code "[0]"]

@[simp] theorem Argument.piecesText_pieces (a : Argument) : piecesText a.pieces = a.text := by
  cases a <;> simp [pieces, Argument.text, Piece.text]

@[simp] theorem AttributeValue.piecesText_pieces (a : AttributeValue) :
    piecesText a.pieces = a.text := by
  cases a <;> simp [pieces, AttributeValue.text, Piece.text]

namespace Statement

/-- The line that declares the engine's value for an expression. -/
def bindPieces (l : Local) (expression : String) : List Piece :=
  [.code "auto ", .declares l, .code " = create_ort_value(", .uses .invoker,
    .code (", " ++ expression ++ ");")]

/-- The line that sets an attribute. -/
def attributePieces (table : Local) (entry : String × AttributeValue) : List Piece :=
  let key := "AttrName::" ++ entry.1
  [.assigns table, .code ("[" ++ key ++ "] = create_ort_attribute(" ++ key ++ ", ")] ++
    entry.2.pieces ++ [.code ");"]

/-- The line on which the run of an op begins. -/
def openingPieces (i : Invocation) : List Piece :=
  (if i.isFirst then [.code "auto ", .declares .status] else [.uses .status]) ++
    [.code " = ", .uses .invoker, .code (".Invoke(\"" ++ i.op ++ "\", \x7b")]

/-- The line on which the arguments of an op end. -/
def closingPieces (i : Invocation) : List Piece :=
  [.code "\x7d, ", .uses i.outputs, .code ", "] ++
    (match i.attributes? with
      | some table => [.code "&", .uses table]
      | none => [.code "nullptr"]) ++
    [.code ((match i.domain? with
      | some domain => ", " ++ domain
      | none => "") ++ ");")]

/-- The lines that copy the result of an op into the memory of a parameter. -/
def copyPieces (result : Local) (param : String) : List (List Piece) :=
  [[.code "auto& ", .declares .resultTensor, .code " = ", .uses result,
      .code "[0].Get<onnxruntime::Tensor>();"],
    [.code "auto* ", .declares .resultData, .code " = ", .uses .resultTensor,
      .code ".DataRaw(", .uses .resultTensor, .code ".DataType());"],
    [.code "auto* ", .declares .selfTensor, .code " = ", .uses (.input param),
      .code ".GetMutable<onnxruntime::Tensor>();"],
    [.code "auto* ", .declares .selfData, .code " = ", .uses .selfTensor,
      .code "->MutableDataRaw(", .uses .selfTensor, .code "->DataType());"],
    [.code "memcpy(", .uses .selfData, .code ", ", .uses .resultData, .code ", ",
      .uses .selfTensor, .code "->DataType()->Size() * ", .uses .selfTensor,
      .code "->Shape().Size());"]]

/-- The lines of a statement. -/
def lines : Statement → List Line
  | .log params => [⟨0, [.code ("ORT_LOG_FN(" ++ ", ".intercalate params ++ ");")]⟩, .blank]
  | .bindInvoker param =>
    [⟨0, [.code "auto& ", .declares .invoker,
        .code (" = GetORTInvoker(" ++ param ++ ".device());")]⟩,
      .blank]
  | .bindInput param => [⟨0, bindPieces (.input param) param⟩]
  | .bindLiteral index expression => [⟨0, bindPieces (.literal index) expression⟩]
  | .bindAttributes table entries =>
    .blank :: ⟨0, [.code "NodeAttributes ", .declares table, .code "(",
        .capacity table entries.length, .code ");"]⟩ ::
      entries.map fun e => ⟨0, attributePieces table e⟩
  | .bindOutputs outputs count =>
    [.blank, ⟨0, [.code "std::vector<OrtValue> ", .declares outputs,
        .code ("(" ++ toString count ++ ");")]⟩, .blank]
  | .invoke i =>
    ⟨0, openingPieces i⟩ :: i.arguments.map (fun a => ⟨1, a.pieces ++ [.code ","]⟩) ++
      [⟨0, closingPieces i⟩, .blank]
  | .check =>
    [⟨0, [.code "if (!", .uses .status, .code ".IsOK())"]⟩,
      ⟨1, [.code "throw std::runtime_error("]⟩,
      ⟨2, [.code "\"ORT return failure status:\" + ", .uses .status,
        .code ".ErrorMessage());"]⟩, .blank]
  | .returnNew result param =>
    [⟨0, [.code "return aten_tensor_from_ort("]⟩,
      ⟨1, [.code "std::move(", .uses result, .code "[0]),"]⟩,
      ⟨1, [.code (param ++ ".options());")]⟩]
  | .copyInto result param => (copyPieces result param).map (Line.mk 0)
  | .returnParam param => [⟨0, [.code ("return " ++ param ++ ";")]⟩]

end Statement

/-! ## The lines are the text -/

namespace Page

/-- The page with text behind it. -/
def put (p : Page) (s : String) : Page := { p with text := p.text ++ s }

@[simp] theorem put_put (p : Page) (s t : String) : (p.put s).put t = p.put (s ++ t) := by
  simp [put, String.append_assoc]

@[simp] theorem put_empty (p : Page) : p.put "" = p := by simp [put]

@[simp] theorem depth_put (p : Page) (s : String) : (p.put s).depth = p.depth := rfl

@[simp] theorem atLineStart_put (p : Page) (s : String) :
    (p.put s).atLineStart = p.atLineStart := rfl

@[simp] theorem indent_put (p : Page) (s : String) : (p.put s).indent = p.indent.put s := rfl

@[simp] theorem dedent_put (p : Page) (s : String) : (p.put s).dedent = p.dedent.put s := rfl

@[simp] theorem dedent_indent (p : Page) : p.indent.dedent = p := rfl

@[simp] theorem depth_indent (p : Page) : p.indent.depth = p.depth + 1 := rfl

@[simp] theorem atLineStart_indent (p : Page) : p.indent.atLineStart = p.atLineStart := rfl

theorem writeLine_put {p : Page} (h : p.atLineStart = true) (s : String) :
    p.writeLine s = p.put (lineText p.depth s) := writeLine_eq h s

theorem writeLines_put {p : Page} (h : p.atLineStart = true) (ss : List String) :
    p.writeLines ss = p.put (String.join (ss.map (lineText p.depth))) := writeLines_eq h ss

end Page

namespace Statement

open Page

theorem piecesText_bindPieces (l : Local) (expression : String) :
    piecesText (bindPieces l expression) = bindLine l expression := by
  simp [bindPieces, bindLine, Piece.text, String.append_assoc]

theorem piecesText_attributePieces (table : Local) (entry : String × AttributeValue) :
    piecesText (attributePieces table entry) = attributeLine table entry := by
  simp [attributePieces, attributeLine, Piece.text, String.append_assoc]

theorem piecesText_closingPieces (i : Invocation) :
    piecesText (closingPieces i) = closingLine i := by
  unfold closingPieces closingLine
  cases i.attributes? <;> cases i.domain? <;>
    simp only [piecesText_append, piecesText_cons, piecesText_nil, Piece.text,
      String.append_assoc, String.append_empty, String.empty_append]

theorem map_piecesText_copyPieces (result : Local) (param : String) :
    (copyPieces result param).map piecesText = copyLines result param := by
  simp [copyPieces, copyLines, Piece.text, String.append_assoc]

theorem writeInvocation_eq {p : Page} (h : p.atLineStart = true) (i : Invocation) :
    writeInvocation p i = p.put (linesText p.depth (lines (.invoke i))) := by
  have hopening : piecesText (openingPieces i) = (if i.isFirst then "auto " else "") ++
      Local.status.name ++ " = " ++ Local.invoker.name ++ ".Invoke(\"" ++ i.op ++ "\", \x7b" := by
    unfold openingPieces
    cases i.isFirst <;> simp [Piece.text, String.append_assoc]
  simp [writeInvocation, lines, blankLine, writeLine_put, writeLines_put, h, Line.text, Line.blank,
    linesText_map, Piece.text, hopening, piecesText_closingPieces, String.append_assoc]

/-- A statement puts its lines on the page. -/
theorem write_eq {p : Page} (h : p.atLineStart = true) (s : Statement) :
    s.write p = p.put (linesText p.depth s.lines) := by
  cases s with
  | invoke i => exact writeInvocation_eq h i
  | check =>
    simp [write, writeCheck, lines, blankLine, writeLine_put, h, Line.text, Line.blank,
      Piece.text, String.append_assoc]
  | copyInto result param =>
    have hlines : (copyPieces result param).map (Line.mk 0) =
        (copyPieces result param).map fun ps => ⟨0, ps⟩ := rfl
    rw [write, writeLines_put h, lines, hlines, linesText_map, ← map_piecesText_copyPieces]
    rfl
  | bindAttributes table entries =>
    simp [write, lines, blankLine, writeLine_put, writeLines_put, h, Line.text, Line.blank,
      linesText_map, Piece.text, piecesText_attributePieces, String.append_assoc]
  | _ =>
    simp [write, lines, blankLine, writeLine_put, writeLines_put, h, Line.text, Line.blank,
      Piece.text, piecesText_bindPieces, String.append_assoc]

/-- The text of a body is its lines, one behind the other. -/
theorem writeAll_eq {p : Page} (h : p.atLineStart = true) (body : List Statement) :
    writeAll p body = p.put (linesText p.depth (body.flatMap lines)) := by
  unfold writeAll
  induction body generalizing p with
  | nil => simp
  | cons s body ih =>
    rw [List.foldl_cons, write_eq h, ih ((Page.atLineStart_put p _).trans h)]
    simp

/-- On a page of its own, a body is nothing but its lines. -/
theorem text_writeAll_blank (depth : Nat) (body : List Statement) :
    (writeAll (.blank depth) body).text = linesText depth (body.flatMap lines) := by
  rw [writeAll_eq rfl]
  exact String.empty_append

end Statement

end KernelGen
