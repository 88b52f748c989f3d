import KernelGen.Proofs.Host.Joining
import KernelGen.Proofs.Metadata.Table
set_option autoImplicit false

/-!
# Metadata: a header below another

A comment stays behind its declaration when another header comes in front or behind.  So what is
read of a header with another one below it is what is read of the two: the declarations of the
first, then those of the second on their later lines, and the table of the first together with that
of the second, its places moved behind the declarations of the first.
-/

namespace KernelGen

open Source Host

namespace MetadataTable

theorem ofComments_joined {ds₁ ds₂ ds : List Declaration} {t₁ t₂ : MetadataTable}
    (h : ds.map Declaration.comment? = (ds₁ ++ ds₂).map Declaration.comment?)
    (h₁ : ofComments ds₁ = .ok t₁) (h₂ : ofComments ds₂ = .ok t₂) :
    ofComments ds = .ok ⟨t₁.entries ++ (t₂.shifted ds₁.length).entries⟩ := by
  obtain ⟨ms₁, hms₁, rfl⟩ := ofComments_eq_ok.1 h₁
  obtain ⟨ms₂, hms₂, rfl⟩ := ofComments_eq_ok.1 h₂
  have hlength : ms₁.length = ds₁.length := by simpa using hms₁.length_eq.symm
  refine ofComments_eq_ok.2 ⟨ms₁ ++ ms₂, ?_, ?_⟩
  · rw [h, List.map_append]
    exact List.rel_append hms₁ hms₂
  · rw [entriesFrom_append, shifted, ← entriesFrom_shifted, hlength, Nat.zero_add, Nat.add_zero]

end MetadataTable

/-- **A header below another.**  Below a header that is read, the outcome is that of the second
header on its later lines.  The declarations, and the tables, come one behind the other; a text in
which no token starts is refused at the same text; and tokens that are no declarations are
refused. -/
theorem declarations_below {s₁ s₂ : String} {ds₁ : List Declaration}
    (h₁ : declarations s₁ = .ok ds₁) :
    (∀ ds₂, declarations s₂ = .ok ds₂ →
      ∃ ds, declarations (below s₁ s₂) = .ok ds ∧
        ds.map Declaration.bare =
          (ds₁ ++ ds₂.map (Declaration.moved (Location.below (height s₁)))).map Declaration.bare ∧
        ∀ t₁ t₂, MetadataTable.ofComments ds₁ = .ok t₁ → MetadataTable.ofComments ds₂ = .ok t₂ →
          MetadataTable.ofComments ds =
            .ok ⟨t₁.entries ++ (t₂.shifted ds₁.length).entries⟩) ∧
    (∀ e, declarations s₂ = .error (.stray e) →
      declarations (below s₁ s₂) = .error (.stray (e.below (height s₁)))) ∧
    ∀ f, declarations s₂ = .error (.unexpected f) →
      ∃ f', declarations (below s₁ s₂) = .error (.unexpected f') := by
  refine ⟨fun ds₂ h₂ => ?_, fun e => declarations_joined_stray h₁,
    fun f => declarations_joined_unexpected h₁⟩
  obtain ⟨ds, hds, hbare⟩ := declarations_joined h₁ h₂
  refine ⟨ds, hds, hbare, fun t₁ t₂ => MetadataTable.ofComments_joined ?_⟩
  rw [map_of_bare Declaration.comment?_bare hbare, List.map_append, List.map_append, List.map_map]
  rfl

/-- A header that ends in the comment behind its only declaration. -/
def notedHeader : String :=
  "#f\nvoid f(); // \x7b\"schema\":\"f\",\"dispatch\":\"True\",\"default\":\"False\"\x7d"

/-- The declaration of `notedHeader`. -/
def notedDeclaration : Declaration where
  returnType := ⟨false, false, ["void"], [], []⟩
  name := "f"
  params := []
  terminator := ⟨.semicolon, ";", ⟨2, 9⟩, [], [⟨.whitespace, " "⟩, ⟨.lineComment,
    "// \x7b\"schema\":\"f\",\"dispatch\":\"True\",\"default\":\"False\"\x7d"⟩]⟩
  location := ⟨2, 1⟩

/-- The tokens of `notedHeader`. -/
def notedHeaderTokens : List Token :=
  [⟨.identifier, "void", ⟨2, 1⟩, [⟨.directive, "#f"⟩, ⟨.newline, "\n"⟩], [⟨.whitespace, " "⟩]⟩,
    ⟨.identifier, "f", ⟨2, 6⟩, [], []⟩, ⟨.openParen, "(", ⟨2, 7⟩, [], []⟩,
    ⟨.closeParen, ")", ⟨2, 8⟩, [], []⟩, notedDeclaration.terminator, Token.endOfText ⟨2, 64⟩ []]

theorem declarations_notedHeader : declarations notedHeader = .ok [notedDeclaration] := by
  have hts : tokenize notedHeader = .ok notedHeaderTokens := by cbv
  have hstep : Declaration.step notedHeaderTokens =
      .ok (notedDeclaration, [Token.endOfText ⟨2, 64⟩ []]) := by cbv
  exact declarations_of_step hts TokenKind.noConfusion hstep rfl

theorem ofComments_notedHeader : MetadataTable.ofComments [notedDeclaration] =
    .ok ⟨[(0, ⟨"f", true, false⟩)]⟩ := by cbv

theorem declarations_below_notedHeader :
    declarations notedHeader = .ok [notedDeclaration] ∧
    ∃ ds, declarations (below notedHeader notedHeader) = .ok ds ∧
      ds.map Declaration.bare =
        [notedDeclaration.bare, (notedDeclaration.moved (Location.below 2)).bare] ∧
      MetadataTable.ofComments ds =
        .ok ⟨[(0, ⟨"f", true, false⟩), (1, ⟨"f", true, false⟩)]⟩ := by
  have hheight : height notedHeader = 2 := by cbv
  obtain ⟨ds, hds, hbare, htable⟩ :=
    (declarations_below declarations_notedHeader).1 _ declarations_notedHeader
  rw [hheight] at hbare
  exact ⟨declarations_notedHeader, ds, hds, hbare,
    htable _ _ ofComments_notedHeader ofComments_notedHeader⟩

end KernelGen
