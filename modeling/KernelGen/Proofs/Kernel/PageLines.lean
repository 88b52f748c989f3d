import KernelGen.Proofs.Kernel.PageText
set_option autoImplicit false

/-!
# Kernel: the lines of a page

A page knows its depth, its open namespaces, and whether its last line was begun; what is on its
lines follows from what was done to it.  The operations are recorded as texts, each with the depth
at which it was written, and as ends of lines.  `linesOf_run` says that the lines of the page are
those of the record, and that closing namespaces closes those which are open.
-/

namespace KernelGen

namespace Page

/-! ## Operations -/

/-- What is done to a page that is written piece by piece. -/
inductive Operation where
  | write (s : String)
  | writeLine (s : String)
  | indent
  | dedent
  | openNamespace (name : String)
  | closeNamespaces
  deriving DecidableEq, Repr, Inhabited

/-- The texts that an operation is given. -/
def Operation.texts : Operation → List String
  | .write s | .writeLine s => [s]
  | .openNamespace name => [name]
  | .indent | .dedent | .closeNamespaces => []

/-- Does one thing to a page. -/
def perform (p : Page) : Operation → Page
  | .write s => p.write s
  | .writeLine s => p.writeLine s
  | .indent => p.indent
  | .dedent => p.dedent
  | .openNamespace name => p.openNamespace name
  | .closeNamespaces => p.closeNamespaces

/-- The page that operations leave, when they begin with an empty one. -/
def run (ops : List Operation) : Page := ops.foldl perform (blank 0)

/-! ## What is recorded -/

/-- The depth behind an operation; it does not get less than zero. -/
def Operation.depthFrom (depth : Nat) : Operation → Nat
  | .indent => depth + 1
  | .dedent => depth - 1
  | _ => depth

/-- The depth behind operations. -/
def depthBehind (ops : List Operation) : Nat := ops.foldl Operation.depthFrom 0

/-- The namespace that an operation opens. -/
def Operation.opened? : Operation → Option String
  | .openNamespace name => some name
  | _ => none

/-- The namespaces that were opened since namespaces were closed, the innermost first. -/
def openBehind (ops : List Operation) : List String :=
  (ops.reverse.takeWhile (· != .closeNamespaces)).filterMap Operation.opened?

/-- The line on which a namespace is opened. -/
def openingLine (name : String) : String := "namespace " ++ name ++ " \x7b"

/-- The line on which a namespace is closed. -/
def closingLine (name : String) : String := "\x7d // namespace " ++ name

/-- A piece of a record. -/
inductive Mark where
  /-- a text is written on the last line, at a depth -/
  | text (depth : Nat) (s : String)
  /-- the last line is ended -/
  | lineEnd
  deriving DecidableEq, Repr, Inhabited

/-- The record of one line, with its end. -/
def lineMarks (depth : Nat) (s : String) : List Mark := [.text depth s, .lineEnd]

/-- What is recorded of an operation that others stand in front of. -/
def marks (before : List Operation) : Operation → List Mark
  | .write s => [.text (depthBehind before) s]
  | .writeLine s => lineMarks (depthBehind before) s
  | .indent | .dedent => []
  | .openNamespace name => lineMarks (depthBehind before) (openingLine name)
  | .closeNamespaces =>
    (openBehind before).flatMap fun name => lineMarks (depthBehind before) (closingLine name)

/-- The record of operations that others stand in front of. -/
def recordBehind (before : List Operation) : List Operation → List Mark
  | [] => []
  | op :: ops => marks before op ++ recordBehind (before ++ [op]) ops

/-- The record of operations. -/
def record (ops : List Operation) : List Mark := recordBehind [] ops

/-- The characters that a piece of a record puts on its line. -/
def Mark.chars : Mark → List Char
  | .text _ s => s.toList
  | .lineEnd => []

/-- The piece of a record puts something on its line. -/
def Mark.isVisible (m : Mark) : Bool := !m.chars.isEmpty

/-- A line as its record says it is: two blanks for each step of the depth at which the first text
that is not empty was written, and behind them all texts of the line.  Without such a text the line
is empty. -/
def lineChars (line : List Mark) : List Char :=
  match line.find? Mark.isVisible with
  | some (.text depth _) => List.replicate (2 * depth) ' ' ++ line.flatMap Mark.chars
  | _ => []

/-! ## Lines that go on -/

/-- What is added without the separator goes on with the last part. -/
theorem exists_last_part {α : Type} [BEq α] [LawfulBEq α] (a : α) (xs : List α) :
    ∃ front last, xs.splitOn a = front ++ [last] ∧
      ∀ ys, a ∉ ys → (xs ++ ys).splitOn a = front ++ [last ++ ys] := by
  induction xs with
  | nil => exact ⟨[], [], rfl, fun ys hys => List.splitOn_eq_singleton hys⟩
  | cons x xs ih =>
    obtain ⟨front, last, hsplit, hmore⟩ := ih
    by_cases hx : (x == a) = true
    · refine ⟨[] :: front, last, ?_, fun ys hys => ?_⟩
      · rw [List.splitOn_cons_eq_if_modifyHead, if_pos hx, hsplit, List.cons_append]
      · rw [List.cons_append, List.splitOn_cons_eq_if_modifyHead, if_pos hx, hmore ys hys,
          List.cons_append]
    · cases front with
      | nil =>
        refine ⟨[], x :: last, ?_, fun ys hys => ?_⟩
        · rw [List.splitOn_cons_eq_if_modifyHead, if_neg hx, hsplit]
          rfl
        · rw [List.cons_append, List.splitOn_cons_eq_if_modifyHead, if_neg hx, hmore ys hys]
          rfl
      | cons part front =>
        refine ⟨(x :: part) :: front, last, ?_, fun ys hys => ?_⟩
        · rw [List.splitOn_cons_eq_if_modifyHead, if_neg hx, hsplit]
          rfl
        · rw [List.cons_append, List.splitOn_cons_eq_if_modifyHead, if_neg hx, hmore ys hys]
          rfl

section LineChars

variable {line : List Mark} {depth : Nat} {s : String}

theorem lineChars_of_find?_eq_none (h : line.find? Mark.isVisible = none) :
    lineChars line = [] := by
  rw [lineChars, h]

theorem flatMap_chars_of_find?_eq_none (h : line.find? Mark.isVisible = none) :
    line.flatMap Mark.chars = [] := by
  rw [List.flatMap_eq_nil_iff]
  intro m hm
  simpa [Mark.isVisible] using List.find?_eq_none.1 h m hm

theorem lineChars_of_find?_eq_some (h : line.find? Mark.isVisible =
    some (.text depth s)) :
    lineChars line = List.replicate (2 * depth) ' ' ++ line.flatMap Mark.chars := by
  rw [lineChars, h]

/-- A piece that puts something on its line is a text. -/
theorem exists_text_of_find? {m : Mark} (h : line.find? Mark.isVisible = some m) :
    ∃ depth s, m = .text depth s ∧ s.toList ≠ [] ∧ lineChars line ≠ [] := by
  have hvisible := List.find?_some h
  cases m with
  | lineEnd => cases hvisible
  | text depth s =>
    have hs : s.toList ≠ [] := by simpa [Mark.isVisible, Mark.chars] using hvisible
    refine ⟨depth, s, rfl, hs, ?_⟩
    rw [lineChars_of_find?_eq_some h]
    intro hnil
    have hchars := List.flatMap_eq_nil_iff.1 (List.append_eq_nil_iff.1 hnil).2
    exact hs (hchars _ (List.mem_of_find?_eq_some h))

/-- An empty text changes nothing about a line. -/
theorem lineChars_append_empty (line : List Mark) (depth : Nat) :
    lineChars (line ++ [Mark.text depth ""]) = lineChars line := by
  have hfind : (line ++ [Mark.text depth ""]).find? Mark.isVisible =
      line.find? Mark.isVisible := by
    simp [List.find?_append, Mark.isVisible, Mark.chars]
  have hchars : (line ++ [Mark.text depth ""]).flatMap Mark.chars = line.flatMap Mark.chars := by
    simp [Mark.chars]
  rw [lineChars, lineChars, hfind, hchars]

/-- The first text that is not empty is indented. -/
theorem lineChars_append_first (h : lineChars line = []) (hs : s ≠ "") :
    lineChars (line ++ [Mark.text depth s]) = List.replicate (2 * depth) ' ' ++ s.toList := by
  have hnone : line.find? Mark.isVisible = none := by
    cases hfind : line.find? Mark.isVisible with
    | none => rfl
    | some m =>
      obtain ⟨-, -, -, -, hne⟩ := exists_text_of_find? hfind
      exact absurd h hne
  have hfind : (line ++ [Mark.text depth s]).find? Mark.isVisible =
      some (.text depth s) := by
    simp [List.find?_append, hnone, Mark.isVisible, Mark.chars, hs]
  rw [lineChars_of_find?_eq_some hfind, List.flatMap_append, flatMap_chars_of_find?_eq_none hnone]
  simp [Mark.chars]

/-- Later texts go behind what is on the line. -/
theorem lineChars_append_later (h : lineChars line ≠ []) :
    lineChars (line ++ [Mark.text depth s]) = lineChars line ++ s.toList := by
  cases hfind : line.find? Mark.isVisible with
  | none => exact absurd (lineChars_of_find?_eq_none hfind) h
  | some m =>
    obtain ⟨first, s', rfl, -, -⟩ := exists_text_of_find? hfind
    have hfind' : (line ++ [Mark.text depth s]).find? Mark.isVisible =
        some (.text first s') := by
      rw [List.find?_append, hfind, Option.some_or]
    rw [lineChars_of_find?_eq_some hfind, lineChars_of_find?_eq_some hfind', List.flatMap_append]
    simp [Mark.chars, List.append_assoc]

end LineChars

/-! ## Pages and records -/

/-- The lines of the page are those of the record, and the page knows whether the last one was
begun. -/
def Shows (p : Page) (ms : List Mark) : Prop :=
  ∃ front last, ms.splitOn .lineEnd = front ++ [last] ∧
    linesOf p.text = (front ++ [last]).map lineChars ∧ (p.atLineStart = true ↔ lineChars last = [])

theorem toList_indentation (depth : Nat) :
    (indentation depth).toList = List.replicate (2 * depth) ' ' := String.toList_ofList

namespace Shows

variable {p : Page} {ms : List Mark} {s : String}

theorem linesOf_eq (h : p.Shows ms) :
    linesOf p.text = (ms.splitOn .lineEnd).map lineChars := by
  obtain ⟨front, last, hsplit, hlines, -⟩ := h
  rw [hlines, hsplit]

theorem blank (depth : Nat) : (blank depth).Shows [] := ⟨[], [], rfl, rfl, iff_of_true rfl rfl⟩

/-- The page shows the record that goes on with a text, if its text goes on with what this puts on
the last line. -/
theorem append_text {q : Page} {depth : Nat} (h : p.Shows ms) (more : List Char)
    (htext : q.text.toList = p.text.toList ++ more) (hmore : '\n' ∉ more)
    (hline : ∀ line, (p.atLineStart = true ↔ lineChars line = []) →
      lineChars (line ++ [Mark.text depth s]) = lineChars line ++ more ∧
        (q.atLineStart = true ↔ lineChars line ++ more = [])) :
    q.Shows (ms ++ [.text depth s]) := by
  obtain ⟨front, last, hsplit, hlines, hstart⟩ := h
  obtain ⟨front', last', hsplit', hgoes⟩ := exists_last_part Mark.lineEnd ms
  obtain ⟨rfl, rfl⟩ : front' = front ∧ last' = last := by
    simpa using hsplit'.symm.trans hsplit
  obtain ⟨parts, part, hparts, hparts'⟩ := exists_last_part '\n' p.text.toList
  obtain ⟨rfl, rfl⟩ : parts = front'.map lineChars ∧ part = lineChars last' := by
    simpa using hparts.symm.trans hlines
  obtain ⟨hchars, hstart'⟩ := hline last' hstart
  refine ⟨front', last' ++ [.text depth s], hgoes _ (by simp), ?_, ?_⟩
  · rw [linesOf, htext, hparts' more hmore, List.map_append, List.map_singleton, hchars]
  · rw [hchars, hstart']

theorem write (h : p.Shows ms) (hs : '\n' ∉ s.toList) :
    (p.write s).Shows (ms ++ [.text p.depth s]) := by
  by_cases hempty : s = ""
  · subst hempty
    refine h.append_text [] (by simp [Page.write]) List.not_mem_nil fun line hstart => ?_
    rw [List.append_nil, lineChars_append_empty]
    exact ⟨rfl, hstart⟩
  have hne : s.toList ≠ [] := fun hnil => hempty (String.toList_eq_nil_iff.1 hnil)
  have hwrite : s.isEmpty = false := by simpa using hempty
  by_cases hp : p.atLineStart = true
  · refine h.append_text (List.replicate (2 * p.depth) ' ' ++ s.toList) ?_ ?_
      fun line hstart => ?_
    · simp [Page.write, hwrite, hp, toList_indentation]
    · simpa using hs
    · have hline := hstart.1 hp
      rw [hline, List.nil_append, lineChars_append_first hline hempty]
      exact ⟨rfl, iff_of_false (by simp [Page.write, hwrite]) (by simp [hne])⟩
  · refine h.append_text s.toList ?_ hs fun line hstart => ?_
    · simp [Page.write, hwrite, hp]
    · rw [lineChars_append_later (mt hstart.2 hp)]
      exact ⟨rfl, iff_of_false (by simp [Page.write, hwrite]) (by simp [hne])⟩

theorem endLine (h : p.Shows ms) : p.endLine.Shows (ms ++ [.lineEnd]) := by
  have hlines := h.linesOf_eq
  refine ⟨ms.splitOn .lineEnd, [], List.splitOn_append_cons_self ms [], ?_, iff_of_true rfl rfl⟩
  have htext : p.endLine.text.toList = p.text.toList ++ ['\n'] := by simp [Page.endLine]
  rw [List.map_append, ← hlines, linesOf, htext, List.splitOn_append_cons_self]
  rfl

theorem writeLine (h : p.Shows ms) (hs : '\n' ∉ s.toList) :
    (p.writeLine s).Shows (ms ++ lineMarks p.depth s) := by
  have hline := (h.write hs).endLine
  rwa [List.append_assoc] at hline

theorem writeLines (h : p.Shows ms) {ss : List String} (hss : ∀ s ∈ ss, '\n' ∉ s.toList) :
    (p.writeLines ss).Shows (ms ++ ss.flatMap (lineMarks p.depth)) := by
  induction ss generalizing p ms with
  | nil => simpa [Page.writeLines] using h
  | cons s ss ih =>
    obtain ⟨hs, hmore⟩ := List.forall_mem_cons.1 hss
    have hlater := ih (h.writeLine hs) hmore
    rw [depth_writeLine, List.append_assoc] at hlater
    exact hlater

end Shows

/-! ## Steps and runs -/

theorem depth_perform (p : Page) (op : Operation) :
    (p.perform op).depth = op.depthFrom p.depth := by
  cases op with
  | write s => exact depth_write p s
  | writeLine s => exact depth_writeLine p s
  | indent => rfl
  | dedent => rfl
  | openNamespace name => exact depth_writeLine p _
  | closeNamespaces => exact depth_writeLines p _

theorem openBehind_append (ops : List Operation) (op : Operation) :
    openBehind (ops ++ [op]) = match op with
      | .openNamespace name => name :: openBehind ops
      | .closeNamespaces => []
      | _ => openBehind ops := by
  cases op <;> simp [openBehind, Operation.opened?, List.filterMap_cons]

/-- The page knows which namespaces are open. -/
theorem namespaces_perform {p : Page} {before : List Operation}
    (h : p.namespaces = openBehind before) (op : Operation) :
    (p.perform op).namespaces = openBehind (before ++ [op]) := by
  rw [openBehind_append]
  cases op with
  | write s => exact (namespaces_write p s).trans h
  | writeLine s => exact (namespaces_writeLine p s).trans h
  | indent => exact h
  | dedent => exact h
  | openNamespace name => exact congrArg (name :: ·) h
  | closeNamespaces => rfl

/-- How a page stands behind operations that are recorded. -/
structure Follows (p : Page) (before : List Operation) (ms : List Mark) : Prop where
  shows : p.Shows ms
  depth : p.depth = depthBehind before
  namespaces : p.namespaces = openBehind before
  /-- The lines that close the open namespaces are lines. -/
  oneLine : ∀ name ∈ p.namespaces, '\n' ∉ name.toList

namespace Follows

variable {p : Page} {before : List Operation} {ms : List Mark}

theorem blank : (blank 0).Follows [] [] :=
  ⟨.blank 0, rfl, rfl, fun _ hname => absurd hname List.not_mem_nil⟩

theorem shows_perform (h : p.Follows before ms) {op : Operation}
    (hop : ∀ s ∈ op.texts, '\n' ∉ s.toList) :
    (p.perform op).Shows (ms ++ marks before op) := by
  cases op with
  | write s =>
    rw [marks, ← h.depth]
    exact h.shows.write (hop s (List.mem_singleton_self s))
  | writeLine s =>
    rw [marks, ← h.depth]
    exact h.shows.writeLine (hop s (List.mem_singleton_self s))
  | indent =>
    rw [marks, List.append_nil]
    exact h.shows
  | dedent =>
    rw [marks, List.append_nil]
    exact h.shows
  | openNamespace name =>
    have hline : '\n' ∉ (openingLine name).toList := by
      simpa [openingLine] using hop name (List.mem_singleton_self name)
    rw [marks, ← h.depth]
    exact h.shows.writeLine hline
  | closeNamespaces =>
    have hlines : ∀ s ∈ p.namespaces.map closingLine, '\n' ∉ s.toList := by
      intro s hs
      obtain ⟨name, hname, rfl⟩ := List.mem_map.1 hs
      simpa [closingLine] using h.oneLine name hname
    rw [marks, ← h.depth, ← h.namespaces, ← List.flatMap_map]
    exact h.shows.writeLines hlines

theorem perform (h : p.Follows before ms) {op : Operation}
    (hop : ∀ s ∈ op.texts, '\n' ∉ s.toList) :
    (p.perform op).Follows (before ++ [op]) (ms ++ marks before op) where
  shows := h.shows_perform hop
  depth := by
    rw [depth_perform, h.depth, depthBehind, depthBehind, List.foldl_append]
    rfl
  namespaces := namespaces_perform h.namespaces op
  oneLine := by
    rw [namespaces_perform h.namespaces op, openBehind_append, ← h.namespaces]
    cases op with
    | openNamespace name =>
      exact List.forall_mem_cons.2 ⟨hop name (List.mem_singleton_self name), h.oneLine⟩
    | closeNamespaces => exact fun _ hname => absurd hname List.not_mem_nil
    | write | writeLine | indent | dedent => exact h.oneLine

theorem foldl_perform (h : p.Follows before ms) {ops : List Operation}
    (hops : ∀ op ∈ ops, ∀ s ∈ op.texts, '\n' ∉ s.toList) :
    (ops.foldl Page.perform p).Follows (before ++ ops) (ms ++ recordBehind before ops) := by
  induction ops generalizing p before ms with
  | nil => simpa [recordBehind] using h
  | cons op ops ih =>
    obtain ⟨hop, hmore⟩ := List.forall_mem_cons.1 hops
    have hlater := ih (h.perform hop) hmore
    rwa [List.append_assoc, List.append_assoc] at hlater

end Follows

/-- **The lines of a page.**  Whatever is done to an empty page with texts that are parts of lines,
the lines of the page are those of the record: each is ended where a line was ended, and holds what
was written on it, indented by the depth at which the first text that is not empty was written.
Closing the namespaces writes one line for each namespace that was opened since namespaces were
closed, the innermost first, and leaves none open. -/
theorem linesOf_run {ops : List Operation}
    (h : ∀ op ∈ ops, ∀ s ∈ op.texts, '\n' ∉ s.toList) :
    linesOf (run ops).text = ((record ops).splitOn .lineEnd).map lineChars ∧
    run (ops ++ [.closeNamespaces]) =
      { (run ops).writeLines ((openBehind ops).map closingLine) with namespaces := [] } := by
  have hfollows := Follows.blank.foldl_perform h
  refine ⟨hfollows.shows.linesOf_eq, ?_⟩
  have hopen : (run ops).namespaces = openBehind ops := hfollows.namespaces
  rw [run, List.foldl_append, ← run, ← hopen]
  rfl

/-- Operations in which the depth changes on a line that was begun, and namespaces are closed in the
middle of a line. -/
def interleaved : List Operation :=
  [.openNamespace "outer", .indent, .write "", .indent, .write "int x", .dedent, .writeLine " = 1;",
    .writeLine "", .openNamespace "inner", .dedent, .dedent, .write "done", .closeNamespaces,
    .indent, .openNamespace "later", .closeNamespaces, .closeNamespaces, .write "end"]

theorem linesOf_run_interleaved :
    (∀ op ∈ interleaved, ∀ s ∈ op.texts, '\n' ∉ s.toList) ∧
    linesOf (run interleaved).text = ((record interleaved).splitOn .lineEnd).map lineChars ∧
    ((record interleaved).splitOn .lineEnd).map (fun line => String.ofList (lineChars line)) =
      ["namespace outer \x7b", "    int x = 1;", "", "  namespace inner \x7b",
        "done\x7d // namespace inner", "\x7d // namespace outer", "  namespace later \x7b",
        "  \x7d // namespace later", "  end"] := by
  have honeLine : ∀ op ∈ interleaved, ∀ s ∈ op.texts, '\n' ∉ s.toList := by decide
  exact ⟨honeLine, (linesOf_run honeLine).1, by cbv⟩

end Page

end KernelGen
