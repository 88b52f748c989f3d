import KernelGen.Kernel.SourceFile
set_option autoImplicit false

/-!
# Kernel: pages behind pages

Writing only adds to a page, and what it adds depends on the depth and on whether a line was
begun, not on what is there already.  So what is written on a page at rest, at the left margin
and at the start of a line, is what would be written on a blank one.  A source file is therefore
the texts of its parts, one behind the other.
-/

namespace KernelGen

/-- The lines of a text, without their ends. -/
def linesOf (text : String) : List (List Char) := text.toList.splitOn '\n'

namespace Page

/-- Nothing is indented and no line was begun. -/
structure AtRest (p : Page) : Prop where
  depth : p.depth = 0
  atLineStart : p.atLineStart = true

/-- What was written on `p`, behind what is on `q`. -/
def behind (q p : Page) : Page := ⟨q.text ++ p.text, p.depth, p.atLineStart, q.namespaces⟩

theorem atRest_blank : (blank 0).AtRest := ⟨rfl, rfl⟩

theorem behind_blank {q : Page} (h : q.AtRest) : q.behind (blank 0) = q := by
  obtain ⟨text, depth, atLineStart, namespaces⟩ := q
  obtain ⟨hdepth, hstart⟩ := h
  simp only at hdepth hstart
  simp [behind, blank, hdepth, hstart]

/-! ## Operations behind a page -/

@[simp] theorem write_behind (q p : Page) (s : String) :
    (q.behind p).write s = q.behind (p.write s) := by
  unfold write behind
  by_cases hs : s.isEmpty
  · simp [hs]
  · by_cases hp : p.atLineStart <;> simp [hs, hp, String.append_assoc]

@[simp] theorem writeLine_behind (q p : Page) (s : String) :
    (q.behind p).writeLine s = q.behind (p.writeLine s) := by
  rw [writeLine, write_behind]
  simp [writeLine, endLine, behind, String.append_assoc]

@[simp] theorem blankLine_behind (q p : Page) : (q.behind p).blankLine = q.behind p.blankLine :=
  writeLine_behind q p ""

@[simp] theorem writeRaw_behind (q p : Page) (s : String) :
    (q.behind p).writeRaw s = q.behind (p.writeRaw s) := by
  unfold writeRaw
  by_cases hs : s.isEmpty
  · simp [hs]
  · simp [hs, behind, String.append_assoc]

@[simp] theorem indent_behind (q p : Page) : (q.behind p).indent = q.behind p.indent := rfl

@[simp] theorem dedent_behind (q p : Page) : (q.behind p).dedent = q.behind p.dedent := rfl

/-! ## Lines -/

/-- A line as it is written at a given depth. -/
def lineText (depth : Nat) (s : String) : String :=
  (if s.isEmpty then "" else indentation depth ++ s) ++ "\n"

theorem lineText_zero (s : String) : lineText 0 s = s ++ "\n" := by
  by_cases h : s.isEmpty
  · simp [lineText, String.isEmpty_iff.1 h]
  · simp [lineText, indentation, h]

theorem lineText_one {s : String} (h : s.isEmpty = false) : lineText 1 s = "  " ++ s ++ "\n" := by
  rw [lineText, h]
  rfl

theorem writeLine_eq {p : Page} (h : p.atLineStart = true) (s : String) :
    p.writeLine s = { p with text := p.text ++ lineText p.depth s } := by
  by_cases hs : s.isEmpty
  · simp [writeLine, write, endLine, lineText, hs, h]
  · simp [writeLine, write, endLine, lineText, hs, h, String.append_assoc]

/-- Lines are written one behind the other, all at the same depth. -/
theorem writeLines_eq {p : Page} (h : p.atLineStart = true) (ss : List String) :
    p.writeLines ss = { p with text := p.text ++ String.join (ss.map (lineText p.depth)) } := by
  induction ss generalizing p with
  | nil => simp [writeLines]
  | cons s ss ih =>
    have hnext := ih (atLineStart_writeLine p s)
    simp only [writeLines, List.foldl_cons] at hnext ⊢
    rw [hnext, depth_writeLine, writeLine_eq h]
    simp [String.append_assoc]

theorem AtRest.writeLine {p : Page} (h : p.AtRest) (s : String) : (p.writeLine s).AtRest :=
  ⟨(depth_writeLine p s).trans h.depth, atLineStart_writeLine p s⟩

theorem AtRest.writeLines {p : Page} (h : p.AtRest) (ss : List String) :
    (p.writeLines ss).AtRest := by
  rw [writeLines_eq h.atLineStart]
  exact ⟨h.depth, h.atLineStart⟩

/-! ## Pages that go on -/

/-- The text of a page starts with that of another one. -/
def Continues (p q : Page) : Prop := ∃ more, q.text = p.text ++ more

theorem Continues.refl (p : Page) : p.Continues p := ⟨"", String.append_empty.symm⟩

theorem Continues.trans {p q r : Page} (h : p.Continues q) (h' : q.Continues r) :
    p.Continues r := by
  obtain ⟨more, hmore⟩ := h
  obtain ⟨more', hmore'⟩ := h'
  exact ⟨more ++ more', by rw [hmore', hmore, String.append_assoc]⟩

theorem continues_write (p : Page) (s : String) : p.Continues (p.write s) := by
  by_cases hs : s.isEmpty
  · exact ⟨"", by simp [write, hs]⟩
  · by_cases hp : p.atLineStart
    · exact ⟨indentation p.depth ++ s, by simp [write, hs, hp, String.append_assoc]⟩
    · exact ⟨s, by simp [write, hs, hp]⟩

theorem continues_writeLine (p : Page) (s : String) : p.Continues (p.writeLine s) :=
  (continues_write p s).trans ⟨"\n", rfl⟩

theorem continues_writeRaw (p : Page) (s : String) : p.Continues (p.writeRaw s) := by
  unfold writeRaw
  split
  · exact .refl p
  · exact ⟨s, rfl⟩

theorem continues_writeLines (p : Page) (ss : List String) : p.Continues (p.writeLines ss) := by
  unfold writeLines
  induction ss generalizing p with
  | nil => exact .refl p
  | cons s ss ih => exact (continues_writeLine p s).trans (ih _)

theorem continues_openNamespaces (p : Page) (names : List String) :
    p.Continues (names.foldl openNamespace p) := by
  induction names generalizing p with
  | nil => exact .refl p
  | cons name names ih =>
    have hopen : p.Continues (p.openNamespace name) := continues_writeLine p _
    exact hopen.trans (ih _)

end Page

/-! ## Functions -/

/-- A function keeps what it is written for. -/
theorem linked_of_ofMapping {f : LinkedFunction} {mapping : Mapping} {k : KernelFunction}
    (h : (KernelFunction.ofMapping f mapping).result = .ok k) : k.linked = f := by
  cases mapping with
  | signatureOnly =>
    cases h
    rfl
  | graph g =>
    obtain ⟨body, -, h⟩ := Outcome.result_bind_eq_ok.1 h
    cases h
    rfl

namespace KernelFunction

open Page

@[simp] theorem writeParam_behind (q p : Page) (param : LinkedParam) (isLast : Bool) :
    writeParam (q.behind p) param isLast = q.behind (writeParam p param isLast) := by
  unfold writeParam
  by_cases hmarker : param.isMarker <;> by_cases hlast : isLast <;> simp [hmarker, hlast]

@[simp] theorem writeParams_behind (q p : Page) (params : List LinkedParam) :
    writeParams (q.behind p) params = q.behind (writeParams p params) := by
  fun_induction writeParams p params with
  | case1 p => rfl
  | case2 p param => exact writeParam_behind q p param true
  | case3 p param params hne ih =>
    rw [writeParams, writeParam_behind, ih]
    exact hne

theorem writeSignature_behind (q p : Page) (f : LinkedFunction) :
    writeSignature (q.behind p) f = q.behind (writeSignature p f) := by
  unfold writeSignature
  by_cases hlast : (f.params.getLast?.map LinkedParam.isMarker).getD false <;> simp [hlast]

theorem write_behind (q p : Page) (k : KernelFunction) :
    k.write (q.behind p) = q.behind (k.write p) := by
  unfold write
  cases k.body? <;> simp [writeSignature_behind]

@[simp] theorem depth_writeParam (p : Page) (param : LinkedParam) (isLast : Bool) :
    (writeParam p param isLast).depth = p.depth := by
  unfold writeParam
  by_cases hmarker : param.isMarker <;> by_cases hlast : isLast <;> simp [hmarker, hlast, blankLine]

@[simp] theorem depth_writeParams (p : Page) (params : List LinkedParam) :
    (writeParams p params).depth = p.depth := by
  fun_induction writeParams p params with
  | case1 p => rfl
  | case2 p param => exact depth_writeParam p param true
  | case3 p param params hne ih => rw [ih, depth_writeParam]

theorem depth_writeSignature (p : Page) (f : LinkedFunction) :
    (writeSignature p f).depth = p.depth := by
  unfold writeSignature
  by_cases hlast : (f.params.getLast?.map LinkedParam.isMarker).getD false <;>
    simp [hlast, blankLine, dedent, indent]

@[simp] theorem depth_writeRaw (p : Page) (s : String) : (p.writeRaw s).depth = p.depth := by
  unfold writeRaw
  split <;> rfl

/-- A function leaves the page as it found it: at the left margin, at the start of a line. -/
theorem atRest_write {p : Page} (h : p.AtRest) (k : KernelFunction) : (k.write p).AtRest := by
  have hdepth : (k.write p).depth = p.depth := by
    unfold write
    cases k.body? <;> simp [depth_writeSignature, blankLine]
  refine ⟨hdepth.trans h.depth, ?_⟩
  unfold write
  cases k.body? <;> exact atLineStart_writeLine _ _

/-- The text of a function. -/
def text (k : KernelFunction) : String := (k.write (.blank 0)).text

theorem write_eq {p : Page} (h : p.AtRest) (k : KernelFunction) :
    k.write p = { p with text := p.text ++ k.text } := by
  have hrest : (k.write (.blank 0)).AtRest := atRest_write atRest_blank k
  calc k.write p
      = p.behind (k.write (.blank 0)) := by rw [← write_behind, behind_blank h]
    _ = { p with text := p.text ++ k.text } := by
        simp [behind, text, hrest.depth, hrest.atLineStart, h.depth, h.atLineStart]

/-- Functions are written one behind the other. -/
theorem foldl_write {p : Page} (h : p.AtRest) (ks : List KernelFunction) :
    ks.foldl write p = { p with text := p.text ++ String.join (ks.map text) } := by
  induction ks generalizing p with
  | nil => simp
  | cons k ks ih =>
    have hnext : ({ p with text := p.text ++ k.text } : Page).AtRest := ⟨h.depth, h.atLineStart⟩
    rw [List.foldl_cons, write_eq h, ih hnext]
    simp [String.append_assoc]

end KernelFunction

end KernelGen
