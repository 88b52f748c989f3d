import KernelGen.Proofs.Kernel.PageText
set_option autoImplicit false

/-!
# Kernel: the text of a source file

The text of a file is made of four pieces, one behind the other: the prelude, the functions, the
block that registers them, and the postlude.  Each piece depends on nothing but its own data.
-/

namespace KernelGen.SourceFile

open Page

/-- The text in front of the functions. -/
def preludeText (o : Options) (digest : String) : String := (writePrelude (.blank 0) o digest).text

/-- The text of the block that registers functions: one line for each. -/
def registrationText (o : Options) (fs : List LinkedFunction) : String :=
  "\n" ++ ("TORCH_LIBRARY_IMPL(" ++ o.library ++ ", " ++ o.dispatchKey ++ ", m) \x7b" ++ "\n") ++
    ("  " ++ "ORT_LOG_DEBUG << \"ATen init\";" ++ "\n") ++
    String.join (fs.map fun f => "  " ++ registrationLine f ++ "\n") ++ ("\x7d" ++ "\n") ++ "\n"

/-- The text that closes the namespaces, the innermost first. -/
def postludeText (o : Options) : String :=
  String.join (o.namespaces.reverse.map fun name => "\x7d // namespace " ++ name ++ "\n")

/-! ## The prelude -/

/-- Opening namespaces leaves a page at rest, with the namespaces on top of those it had. -/
theorem foldl_openNamespace {p : Page} (h : p.AtRest) (names : List String) :
    (names.foldl openNamespace p).AtRest ∧
      (names.foldl openNamespace p).namespaces = names.reverse ++ p.namespaces := by
  induction names generalizing p with
  | nil => exact ⟨h, rfl⟩
  | cons name names ih =>
    have hopen : (p.openNamespace name).AtRest := ⟨(depth_writeLine p _).trans h.depth, rfl⟩
    obtain ⟨hrest, hnames⟩ := ih hopen
    refine ⟨hrest, hnames.trans ?_⟩
    have hhead : (p.openNamespace name).namespaces = name :: p.namespaces := by simp [openNamespace]
    rw [hhead, List.reverse_cons, List.append_assoc, List.singleton_append]

/-- The prelude leaves the page at rest, with all namespaces open. -/
theorem writePrelude_leaves (o : Options) (digest : String) :
    (writePrelude (.blank 0) o digest).AtRest ∧
      (writePrelude (.blank 0) o digest).namespaces = o.namespaces.reverse := by
  unfold writePrelude
  extract_lets p₁ p₂ p₃ p₄ p₅
  have h₁ : p₁.AtRest ∧ p₁.namespaces = [] :=
    ⟨atRest_blank.writeLine _, namespaces_writeLine _ _⟩
  have h₂ : p₂.AtRest ∧ p₂.namespaces = [] := by
    simp only [p₂]
    split
    · exact ⟨h₁.1.writeLine _, (namespaces_writeLine _ _).trans h₁.2⟩
    · exact h₁
  have h₃ : p₃.AtRest ∧ p₃.namespaces = [] :=
    ⟨(h₂.1.writeLine _).writeLine _, by simp [p₃, blankLine, h₂.2]⟩
  have h₄ : p₄.AtRest ∧ p₄.namespaces = [] :=
    ⟨(h₃.1.writeLines _).writeLine _, by simp [p₄, blankLine, namespaces_writeLines, h₃.2]⟩
  obtain ⟨hrest, hnames⟩ := foldl_openNamespace h₄.1 o.namespaces
  rw [h₄.2, List.append_nil] at hnames
  split
  · exact ⟨hrest, hnames⟩
  · exact ⟨(hrest.writeLine _).writeLines _,
      by rw [namespaces_writeLines, blankLine, namespaces_writeLine]; exact hnames⟩

/-- The prelude starts with the banner. -/
theorem exists_preludeText (o : Options) (digest : String) :
    ∃ rest, preludeText o digest = banner ++ rest := by
  unfold preludeText writePrelude
  extract_lets p₁ p₂ p₃ p₄ p₅
  have h₂ : p₁.Continues p₂ := by
    simp only [p₂]
    split
    · exact continues_writeLine _ _
    · exact .refl _
  have h₃ : p₂.Continues p₃ := (continues_writeLine _ _).trans (continues_writeLine _ _)
  have h₄ : p₃.Continues p₄ := (continues_writeLines _ _).trans (continues_writeLine _ _)
  have h₅ : p₁.Continues p₅ :=
    ((h₂.trans h₃).trans h₄).trans (continues_openNamespaces _ _)
  have hbanner : ∀ {p : Page}, p₁.Continues p → ∃ rest, p.text = banner ++ rest := by
    rintro p ⟨more, hmore⟩
    exact ⟨"\n" ++ more, by rw [hmore, ← String.append_assoc]; rfl⟩
  split
  · exact hbanner h₅
  · exact hbanner (h₅.trans ((continues_writeLine _ _).trans (continues_writeLines _ _)))

/-! ## Registrations and postlude -/

theorem isEmpty_registrationLine (f : LinkedFunction) : (registrationLine f).isEmpty = false := by
  unfold registrationLine
  split <;> simp

/-- The registration block goes behind what is on the page. -/
theorem writeRegistrations_eq {p : Page} (h : p.AtRest) (o : Options) (fs : List LinkedFunction) :
    writeRegistrations p o fs = { p with text := p.text ++ registrationText o fs } := by
  obtain ⟨text, depth, atLineStart, namespaces⟩ := p
  obtain ⟨hdepth, hstart⟩ := h
  cases hdepth
  cases hstart
  have hlines : (fs.map registrationLine).map (lineText 1) =
      fs.map fun f => "  " ++ registrationLine f ++ "\n" := by
    rw [List.map_map]
    apply List.map_congr_left
    intro f _
    exact lineText_one (isEmpty_registrationLine f)
  have hlog : lineText 1 "ORT_LOG_DEBUG << \"ATen init\";" =
      "  " ++ "ORT_LOG_DEBUG << \"ATen init\";" ++ "\n" := lineText_one (by simp)
  simp only [writeRegistrations, blankLine, writeLine_eq, writeLines_eq, indent, dedent, hlines,
    hlog, lineText_zero, registrationText, Nat.zero_add, Nat.sub_self, String.append_assoc,
    String.empty_append]

/-- Closing the namespaces adds their lines. -/
theorem text_closeNamespaces {p : Page} (h : p.AtRest) :
    p.closeNamespaces.text = p.text ++
      String.join (p.namespaces.map fun name => "\x7d // namespace " ++ name ++ "\n") := by
  have hlines := writeLines_eq h.atLineStart
    (p.namespaces.map fun name => "\x7d // namespace " ++ name)
  have hline : (lineText 0 ∘ fun name => "\x7d // namespace " ++ name) =
      fun name => "\x7d // namespace " ++ name ++ "\n" := funext fun name => lineText_zero _
  simp only [closeNamespaces, hlines, h.depth, List.map_map, hline]

/-- **A file is its prelude, its functions, their registrations and its postlude.** -/
theorem text_eq (s : SourceFile) :
    s.text = preludeText s.options s.digest ++ String.join (s.functions.map KernelFunction.text) ++
      registrationText s.options (s.functions.map KernelFunction.linked) ++
      postludeText s.options := by
  obtain ⟨hrest, hnames⟩ := writePrelude_leaves s.options s.digest
  unfold text
  extract_lets p₁ p₂ p₃
  have h₂ : p₂ = { p₁ with text := p₁.text ++ String.join (s.functions.map KernelFunction.text) } :=
    KernelFunction.foldl_write hrest s.functions
  have hrest₂ : p₂.AtRest := by
    rw [h₂]
    exact ⟨hrest.depth, hrest.atLineStart⟩
  have h₃ : p₃ = { p₂ with text := p₂.text ++ _ } := writeRegistrations_eq hrest₂ _ _
  have hrest₃ : p₃.AtRest := by
    rw [h₃]
    exact ⟨hrest₂.depth, hrest₂.atLineStart⟩
  have hnames₃ : p₃.namespaces = s.options.namespaces.reverse := by
    rw [h₃, h₂]
    exact hnames
  rw [text_closeNamespaces hrest₃, hnames₃, h₃, h₂]
  rfl

/-- Every file starts with the banner. -/
theorem exists_text (s : SourceFile) : ∃ rest, s.text = banner ++ rest := by
  obtain ⟨rest, hrest⟩ := exists_preludeText s.options s.digest
  rw [text_eq, hrest]
  simp only [String.append_assoc]
  exact ⟨_, rfl⟩

end KernelGen.SourceFile
