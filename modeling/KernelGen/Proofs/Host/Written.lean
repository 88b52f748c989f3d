import KernelGen.Proofs.Host.Rendering
set_option autoImplicit false

/-!
# Host: declarations as they are written

A declaration is written on one line: its return type, its name, its parameters between
parentheses with commas between them, and a semicolon.  The line is read as one declaration with
the same return type, the same name and the same parameters.

The one condition is on the constants among the template arguments, however deep.  One that starts
with a colon may be read as a type, and one that ends in a minus may make an arrow out of the
bracket behind it; no other constant is lost.
-/

namespace KernelGen.Host

open Source
open Schema (Readable)

/-- A declaration as it is written, without what stands in front of it or behind it. -/
def Declaration.text (d : Declaration) : String :=
  d.returnType.text ++ " " ++ d.name ++ "(" ++ ", ".intercalate (d.params.map Param.text) ++ ");"

/-! ## Constants -/

mutual

/-- The constants among the template arguments of a type, however deep. -/
def HostType.constants : HostType → List String
  | ⟨_, _, _, arguments, _⟩ => TemplateArg.allConstants arguments

/-- The constants in a template argument. -/
def TemplateArg.constants : TemplateArg HostType → List String
  | .type t => t.constants
  | .constant text => [text]

/-- The constants in template arguments. -/
def TemplateArg.allConstants : List (TemplateArg HostType) → List String
  | [] => []
  | a :: as => a.constants ++ TemplateArg.allConstants as

end

/-- The constants in the types of a declaration. -/
def Declaration.constants (d : Declaration) : List String :=
  d.returnType.constants ++ d.params.flatMap fun p => p.type.constants

/-- The constant neither starts with a colon nor ends in a minus. -/
def StandsFree (text : String) : Prop :=
  text.toList.head? ≠ some ':' ∧ text.toList.getLast? ≠ some '-'

theorem StandsFree.not_colons {text : String} (h : StandsFree text) :
    [':', ':'].isPrefixOf text.toList = false := by
  rw [← Bool.not_eq_true, List.isPrefixOf_iff_prefix]
  rintro ⟨more, hmore⟩
  refine h.1 ?_
  rw [← hmore]
  rfl

mutual

/-- Constants that stand free survive. -/
theorem HostType.keepsConstants_of_free (t : HostType) (h : ∀ text ∈ t.constants, StandsFree text) :
    t.keepsConstants = true := by
  obtain ⟨_, _, _, arguments, _⟩ := t
  rw [HostType.keepsConstants]
  exact TemplateArg.allKept_of_free arguments h

theorem TemplateArg.isKept_of_free (a : TemplateArg HostType)
    (h : ∀ text ∈ a.constants, StandsFree text) : a.isKept = true ∧ a.endsInMinus = false := by
  cases a with
  | type t => exact ⟨HostType.keepsConstants_of_free t h, rfl⟩
  | constant text =>
    have hfree : StandsFree text := h text List.mem_cons_self
    refine ⟨?_, beq_eq_false_iff_ne.2 hfree.2⟩
    rw [TemplateArg.isKept, hfree.not_colons]
    rfl

theorem TemplateArg.allKept_of_free (as : List (TemplateArg HostType))
    (h : ∀ text ∈ TemplateArg.allConstants as, StandsFree text) :
    TemplateArg.allKept as = true := by
  cases as with
  | nil => rfl
  | cons a as =>
    rw [TemplateArg.allConstants] at h
    obtain ⟨hhere, hbehind⟩ := List.forall_mem_append.1 h
    obtain ⟨hkept, hminus⟩ := TemplateArg.isKept_of_free a hhere
    rw [TemplateArg.allKept, hkept, hminus, TemplateArg.allKept_of_free as hbehind, Bool.and_false]
    rfl

end

theorem Declaration.keepsConstants_of_free {d : Declaration}
    (h : ∀ text ∈ d.constants, StandsFree text) : d.keepsConstants = true := by
  obtain ⟨hreturn, hparams⟩ := List.forall_mem_append.1 h
  rw [Declaration.keepsConstants, Bool.and_eq_true, List.all_eq_true]
  refine ⟨HostType.keepsConstants_of_free _ hreturn, fun p hp => ?_⟩
  refine HostType.keepsConstants_of_free _ fun text htext => hparams text ?_
  exact List.mem_flatMap.2 ⟨p, hp, htext⟩

/-! ## What the line is cut into -/

/-- Items that have tokens of their own have them in a row, with commas between. -/
theorem exists_listed {α : Type} {Denotes : List Shape → α → Prop} {as : List α}
    (h : ∀ a ∈ as, ∃ ks, Denotes ks a ∧ Readable ks) :
    ∃ ks, Listed Denotes ks as ∧ Readable ks := by
  have hcomma : Shape.Spelled ⟨.comma, ","⟩ := ⟨',', [], [','], [], rfl, rfl⟩
  induction as with
  | nil => exact ⟨[], .none, List.forall_mem_nil _⟩
  | cons a as ih =>
    obtain ⟨ha, has⟩ := List.forall_mem_cons.1 h
    obtain ⟨ks, hdenotes, hks⟩ := ha
    obtain ⟨ks', hmore, hks'⟩ := ih has
    cases hmore with
    | none => exact ⟨ks, .some (.one hdenotes), hks⟩
    | some hmore =>
      have hall : Readable (ks ++ ⟨.comma, ","⟩ :: ks') :=
        List.forall_mem_append.2 ⟨hks, List.forall_mem_cons.2 ⟨fun _ => hcomma, hks'⟩⟩
      exact ⟨_, .some (.more hdenotes hmore), hall⟩

namespace Declaration.WasRead

variable {d : Declaration}

/-- The return type, the name and the opening parenthesis. -/
theorem cuts_opening (h : d.WasRead) (hkept : d.returnType.keepsConstants = true)
    (cs : List Char) :
    ∃ n ks, d.returnType.Denotes n ks ∧ ¬ IsSpecifier (nextShape ks) ∧
      StartsVisibly d.returnType.text ∧
      Cuts ((d.returnType.text ++ (" " ++ (d.name ++ "("))).toList ++ cs)
        (ks ++ [⟨.identifier, d.name⟩, ⟨.openParen, "("⟩]) cs := by
  obtain ⟨n, ks, hdenotes, hks, hspecifier⟩ := h.returnType
  obtain ⟨hstarts, hread⟩ := HostType.read n _ _ hdenotes hks hkept
  have hname : Seals (d.name ++ "(") [⟨.identifier, d.name⟩, ⟨.openParen, "("⟩] :=
    (reads_word h.name).append_seals Schema.seals_openParen (apart_of_cons (c := '(') rfl rfl)
  have hbehind : Cuts ((" " ++ (d.name ++ "(")).toList ++ cs)
      [⟨.identifier, d.name⟩, ⟨.openParen, "("⟩] cs :=
    (h.name.startsVisibly.append "(").cuts_blank (hname cs)
  have hapart : Apart ((" " ++ (d.name ++ "(")).toList ++ cs) :=
    apart_of_cons String.toList_append rfl cs
  obtain ⟨ks', hdenotes', hcuts, hsame⟩ := hread _ hapart
  refine ⟨n, ks', hdenotes', mt hsame hspecifier, hstarts, ?_⟩
  rw [String.toList_append, List.append_assoc]
  exact hcuts.append hbehind

/-- The parameters, up to the end of the line. -/
theorem cuts_params (h : d.WasRead) (hkept : ∀ p ∈ d.params, p.type.keepsConstants = true) :
    ∃ ks, Listed Param.Denotes ks d.params ∧
      Cuts ((", ".intercalate (d.params.map Param.text)).toList ++ ");".toList)
        (ks ++ [⟨.closeParen, ")"⟩, ⟨.semicolon, ";"⟩]) [] := by
  have hitems : ∀ p ∈ d.params, ∃ ks, KeptParam ks p ∧ Readable ks := by
    intro p hp
    obtain ⟨ks, hdenotes, hks⟩ := h.params p hp
    exact ⟨ks, ⟨hdenotes, hkept p hp⟩, hks⟩
  obtain ⟨ks, hlisted, hks⟩ := exists_listed hitems
  -- the text may be cut into other tokens than the ones it was read from, which denote the same
  obtain ⟨ks', hlisted', hcuts⟩ := Param.itemsRead.listed hlisted hks [';']
  have hclose : Cuts [')', ';'] [⟨.closeParen, ")"⟩, ⟨.semicolon, ";"⟩] [] :=
    .token rfl (.token rfl .done)
  exact ⟨ks', hlisted'.imp fun _ _ hp => hp.1, hcuts.append hclose⟩

end Declaration.WasRead

/-- The text of a declaration that was read, and whose constants survive, denotes it. -/
theorem Declaration.WasRead.cuts_text {d : Declaration} (h : d.WasRead)
    (hkept : d.keepsConstants = true) :
    ∃ ks, Cuts d.text.toList ks [] ∧ DeclarationDenotes ks d.returnType d.name d.params := by
  rw [Declaration.keepsConstants, Bool.and_eq_true, List.all_eq_true] at hkept
  obtain ⟨ks₂, hparams, hcutsParams⟩ := h.cuts_params hkept.2
  obtain ⟨n, ks, hreturn, hspecifier, -, hcuts⟩ := h.cuts_opening hkept.1
    ((", ".intercalate (d.params.map Param.text)).toList ++ ");".toList)
  have hdenotes := DeclarationDenotes.mk (x := "(") (y := ")") (z := ";") hreturn hspecifier
    h.endsBefore hparams
  rw [h.noVoid] at hdenotes
  refine ⟨_, ?_, hdenotes⟩
  have hall := hcuts.append hcutsParams
  simp only [Declaration.text, String.toList_append, List.append_assoc, List.cons_append,
    List.nil_append] at hall ⊢
  exact hall

/-- **Declarations survive being written.**  Whatever declaration was read from a header, its text
is read as one declaration with the same return type, name and parameters, unless a constant among
the template arguments starts with a colon or ends in a minus. -/
theorem reads_declaration_text {header : String} {ds : List Declaration} {d : Declaration}
    (hheader : declarations header = .ok ds) (hd : d ∈ ds)
    (hfree : ∀ text ∈ d.constants, StandsFree text) :
    ∃ d', declarations d.text = .ok [d'] ∧ d'.returnType = d.returnType ∧ d'.name = d.name ∧
      d'.params = d.params := by
  have hread := wasRead_of_mem hheader hd
  obtain ⟨ks, hcuts, hdenotes⟩ := hread.cuts_text (Declaration.keepsConstants_of_free hfree)
  obtain ⟨ts, hts, hshapes⟩ := exists_tokens hcuts
  obtain ⟨d', hd', hparts⟩ := declarationsOf_complete hshapes hdenotes
  refine ⟨d', ?_, hparts⟩
  rw [declarations, Source.read, hts]
  simp only [hd']

/-- A header with templates and constants inside each other. -/
def keysHeader : String := "static ::A<F<(N - 1), int const>, 1 -> x> & keys(long n = 1 . 5);"

/-- The tokens of `keysHeader`. -/
def keysTokens : List Token := (tokenize keysHeader).toOption.getD []

/-- The declaration of `keysHeader`. -/
def keysDeclaration : Declaration where
  returnType :=
    let integer : HostType := ⟨false, false, ["int"], [], [.const]⟩
    let inner : HostType := ⟨false, false, ["F"], [.constant "(N-1)", .type integer], []⟩
    ⟨false, true, ["A"], [.type inner, .constant "1->x"], [.ref]⟩
  name := "keys"
  params := [⟨⟨false, false, ["long"], [], []⟩, some "n", some "1.5"⟩]
  terminator := ⟨.semicolon, ";", ⟨1, 65⟩, [], []⟩
  location := ⟨1, 8⟩

theorem tokenize_keys : tokenize keysHeader = .ok keysTokens := by cbv

theorem returnType_keys :
    (next (keysTokens.dropWhile isSpecifier)).location = keysDeclaration.location ∧
    HostType.step (keysTokens.dropWhile isSpecifier) =
      .ok (keysDeclaration.returnType, keysTokens.drop 21) := by cbv

theorem opening_keys :
    expect .identifier .functionName (keysTokens.drop 21) =
      .ok (⟨.identifier, "keys", ⟨1, 45⟩, [], []⟩, keysTokens.drop 22) ∧
    expect .openParen .openParen (keysTokens.drop 22) =
      .ok (next (keysTokens.drop 22), keysTokens.drop 23) := by cbv

theorem param_keys : Param.step (keysTokens.drop 23) =
    .ok (⟨⟨false, false, ["long"], [], []⟩, some "n", some "1.5"⟩, keysTokens.drop 29) := by cbv

theorem closing_keys :
    expect .closeParen .closeParen (keysTokens.drop 29) =
      .ok (next (keysTokens.drop 29), keysTokens.drop 30) ∧
    expect .semicolon .endOfDeclaration (keysTokens.drop 30) =
      .ok (keysDeclaration.terminator, keysTokens.drop 31) := by cbv

theorem declarations_keys : declarations keysHeader = .ok [keysDeclaration] := by
  obtain ⟨hfirst, hopened, hclosed, hlast⟩ : (next keysTokens).kind = .identifier ∧
      (next (keysTokens.drop 23)).kind = .identifier ∧
      (next (keysTokens.drop 29)).kind = .closeParen ∧
      (next (keysTokens.drop 31)).kind = .eof := by cbv
  obtain ⟨hlocation, hreturn⟩ := returnType_keys
  obtain ⟨hname, hopen⟩ := opening_keys
  obtain ⟨hclose, hterminator⟩ := closing_keys
  have hparams : Source.listed Param.step Param.step_consumes (keysTokens.drop 23) =
      .ok (keysDeclaration.params, keysTokens.drop 29) :=
    (if_neg (by simp [hopened])).trans
      ((readsSeparated_commaSeparated Param.step Param.step_consumes).one param_keys
        (by simp [hclosed]))
  have hstep : Declaration.step keysTokens = .ok (keysDeclaration, keysTokens.drop 31) :=
    Declaration.step_of_parts hlocation hreturn hname rfl hopen hparams rfl hclose hterminator
  exact declarations_of_step tokenize_keys (by simp [hfirst]) hstep hlast

theorem reads_declaration_text_keys :
    declarations keysHeader = .ok [keysDeclaration] ∧
    (∀ text ∈ keysDeclaration.constants, StandsFree text) ∧
    ∃ d', declarations keysDeclaration.text = .ok [d'] ∧
      d'.returnType = keysDeclaration.returnType ∧ d'.name = keysDeclaration.name ∧
      d'.params = keysDeclaration.params := by
  have hconstants : keysDeclaration.constants = ["(N-1)", "1->x"] := by cbv
  have hfree : ∀ text ∈ keysDeclaration.constants, StandsFree text := by
    rw [hconstants]
    unfold StandsFree
    decide
  exact ⟨declarations_keys, hfree,
    reads_declaration_text declarations_keys List.mem_cons_self hfree⟩

end KernelGen.Host
