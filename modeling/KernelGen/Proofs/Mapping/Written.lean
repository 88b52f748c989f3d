import KernelGen.Proofs.Json.Nesting
import KernelGen.Proofs.Json.Records
import KernelGen.Proofs.Mapping.Form
import KernelGen.Proofs.NameTable
set_option autoImplicit false

/-!
# Mapping: documents as they are written

What a mapping document says can be written in many ways: the members of its records come in any
order, and those that have their default may be left out.  Only the attributes of an op are written
in their own order.  Whatever is written in this way is read as what it was written for.

The forms follow the reader and not each other: a string, a literal and an op can be told apart
because a record with one member of an op is no literal.
-/

namespace KernelGen

open Json (IsRecord Holds optionalString stringArray count greatestCount)

/-! ## How documents are written -/

mutual

/-- The value is written for the op. -/
def OpExpr.Written : OpExpr → Json → Prop
  | .op ⟨name, outputs, inputs, attributes, domain?⟩, j =>
    ∃ outputs' inputs' attributes' domain',
      IsRecord [("op", some (.string name)), ("outputs", outputs'), ("inputs", inputs'),
        ("attributes", attributes'), ("domain", domain')] j ∧
      Holds (outputs = 1) (fun j => j = count outputs ∧ outputs ≤ greatestCount) outputs' ∧
      Holds (inputs = []) (fun j => ∃ items, j = .array items ∧ InputsWritten inputs items)
        inputs' ∧
      Holds (attributes = [])
        (fun j => ∃ ms, j = .object ms ∧ (attributes.map Prod.fst).Nodup ∧
          AttributesWritten attributes ms) attributes' ∧
      Holds (domain? = none) (· = optionalString domain?) domain'

/-- The value is written for the value of an op. -/
def ValueWritten : Value OpExpr → Json → Prop
  | .param name, j => j = .string name
  | .literal text, j => IsRecord [("literal", some (.string text))] j
  | .output e, j => e.Written j

/-- The items are written for inputs. -/
def InputsWritten : List (Value OpExpr) → List Json → Prop
  | [], items => items = []
  | v :: vs, items => ∃ j js, items = j :: js ∧ ValueWritten v j ∧ InputsWritten vs js

/-- The members are written for attributes, in their order. -/
def AttributesWritten : List (String × Option (Value OpExpr)) → List (String × Json) → Prop
  | [], ms => ms = []
  | (name, none) :: as, ms => ∃ more, ms = (name, .null) :: more ∧ AttributesWritten as more
  | (name, some v) :: as, ms =>
    ∃ j more, ms = (name, j) :: more ∧ ValueWritten v j ∧ AttributesWritten as more

end

/-- The value is written for the entry of an operator. -/
def OpEntry.Written : OpEntry → Json → Prop
  | .keyword word, j => j = .string word
  | .expression e, j => e.Written j

/-- The value is written for options. -/
def Options.Written (o : Options) (j : Json) : Prop :=
  ∃ functionNamePrefix provenance includes namespaces usingDeclarations library dispatchKey,
    IsRecord [("function_name_prefix", functionNamePrefix), ("provenance", provenance),
      ("includes", includes), ("namespaces", namespaces),
      ("using_declarations", usingDeclarations), ("library", library),
      ("dispatch_key", dispatchKey)] j ∧
    Holds (o.functionNamePrefix? = standard.functionNamePrefix?)
      (· = optionalString o.functionNamePrefix?) functionNamePrefix ∧
    Holds (o.provenance? = standard.provenance?) (· = optionalString o.provenance?) provenance ∧
    Holds (o.includes = standard.includes) (· = stringArray o.includes) includes ∧
    Holds (o.namespaces = standard.namespaces) (· = stringArray o.namespaces) namespaces ∧
    Holds (o.usingDeclarations = standard.usingDeclarations)
      (· = stringArray o.usingDeclarations) usingDeclarations ∧
    Holds (o.library = standard.library) (· = .string o.library) library ∧
    Holds (o.dispatchKey = standard.dispatchKey) (· = .string o.dispatchKey) dispatchKey

/-- The value is written for options, or it is null where there are none. -/
def optionsWritten : Option Options → Json → Prop
  | none, j => j = .null
  | some o, j => o.Written j

/-- The value is written for a document. -/
def MappingFile.Written (f : MappingFile) (j : Json) : Prop :=
  ∃ options operators es,
    IsRecord [("schema_version", some (.string f.version)), ("options", options),
      ("ops", some (.object operators))] j ∧
    Holds (f.options? = none) (optionsWritten f.options?) options ∧
    es.Perm f.operators.entries ∧
    List.Forall₂ (fun m e => m.1 = e.1 ∧ e.2.Written m.2) operators es

/-! ## What can be written -/

mutual

/-- Throughout the expression, counts fit into 64 bits and attributes have different names. -/
def OpExpr.Fits : OpExpr → Prop
  | .op ⟨_, outputs, inputs, attributes, _⟩ =>
    outputs ≤ greatestCount ∧ (attributes.map Prod.fst).Nodup ∧ InputsFit inputs ∧
      AttributesFit attributes

def ValueFits : Value OpExpr → Prop
  | .param _ | .literal _ => True
  | .output e => e.Fits

def InputsFit : List (Value OpExpr) → Prop
  | [] => True
  | v :: vs => ValueFits v ∧ InputsFit vs

def AttributesFit : List (String × Option (Value OpExpr)) → Prop
  | [] => True
  | (_, none) :: as => AttributesFit as
  | (_, some v) :: as => ValueFits v ∧ AttributesFit as

end

/-- The expression of an entry, if it is one, fits. -/
def OpEntry.Fits : OpEntry → Prop
  | .keyword _ => True
  | .expression e => e.Fits

mutual

theorem OpExpr.exists_written : ∀ e : OpExpr, e.Fits → ∃ j, e.Written j
  | .op ⟨name, outputs, inputs, attributes, domain?⟩, h => by
    obtain ⟨houtputs, hnodup, hinputs, hattributes⟩ := h
    obtain ⟨items, hitems⟩ := exists_inputsWritten inputs hinputs
    obtain ⟨ms, hms⟩ := exists_attributesWritten attributes hattributes
    exact ⟨_, some (count outputs), some (.array items), some (.object ms),
      some (optionalString domain?), ⟨_, rfl, .refl _⟩, ⟨rfl, houtputs⟩, ⟨items, rfl, hitems⟩,
      ⟨ms, rfl, hnodup, hms⟩, rfl⟩

theorem exists_valueWritten : ∀ v : Value OpExpr, ValueFits v → ∃ j, ValueWritten v j
  | .param name, _ => ⟨.string name, rfl⟩
  | .literal _, _ => ⟨_, _, rfl, .refl _⟩
  | .output e, h => e.exists_written h

theorem exists_inputsWritten : ∀ vs : List (Value OpExpr), InputsFit vs →
    ∃ items, InputsWritten vs items
  | [], _ => ⟨[], rfl⟩
  | v :: vs, h => by
    obtain ⟨j, hj⟩ := exists_valueWritten v h.1
    obtain ⟨js, hjs⟩ := exists_inputsWritten vs h.2
    exact ⟨j :: js, j, js, rfl, hj, hjs⟩

theorem exists_attributesWritten : ∀ as : List (String × Option (Value OpExpr)),
    AttributesFit as → ∃ ms, AttributesWritten as ms
  | [], _ => ⟨[], rfl⟩
  | (name, none) :: as, h => by
    obtain ⟨more, hmore⟩ := exists_attributesWritten as h
    exact ⟨(name, .null) :: more, more, rfl, hmore⟩
  | (name, some v) :: as, h => by
    obtain ⟨j, hj⟩ := exists_valueWritten v h.1
    obtain ⟨more, hmore⟩ := exists_attributesWritten as h.2
    exact ⟨(name, j) :: more, j, more, rfl, hj, hmore⟩

end

theorem OpEntry.exists_written (entry : OpEntry) (h : entry.Fits) : ∃ j, entry.Written j := by
  cases entry with
  | keyword word => exact ⟨.string word, rfl⟩
  | expression e => exact e.exists_written h

theorem Options.exists_written (o : Options) : ∃ j, o.Written j :=
  ⟨_, some _, some _, some _, some _, some _, some _, some _, ⟨_, rfl, .refl _⟩, rfl, rfl, rfl,
    rfl, rfl, rfl, rfl⟩

/-- Every document whose expressions fit can be written. -/
theorem MappingFile.exists_written (f : MappingFile)
    (h : ∀ e ∈ f.operators.entries, e.2.Fits) : ∃ j, f.Written j := by
  have hentries : ∃ ms : List (String × Json), List.Forall₂ (fun m e => m.1 = e.1 ∧ e.2.Written m.2)
      ms f.operators.entries := by
    revert h
    generalize f.operators.entries = es
    intro h
    induction es with
    | nil => exact ⟨[], .nil⟩
    | cons e es ih =>
      obtain ⟨he, hes⟩ := List.forall_mem_cons.1 h
      obtain ⟨j, hj⟩ := e.2.exists_written he
      obtain ⟨ms, hms⟩ := ih hes
      exact ⟨(e.1, j) :: ms, .cons ⟨rfl, hj⟩ hms⟩
  have hoptions : ∃ j, optionsWritten f.options? j := by
    cases f.options? with
    | none => exact ⟨.null, rfl⟩
    | some o => exact o.exists_written
  obtain ⟨ms, hms⟩ := hentries
  obtain ⟨options, hoptions⟩ := hoptions
  exact ⟨_, some options, ms, _, ⟨_, rfl, .refl _⟩, hoptions, .refl _, hms⟩

/-! ## What is written is read -/

theorem nodup_opMembers : opMembers.Nodup := by decide

theorem nodup_optionMembers : optionMembers.Nodup := by decide

theorem nodup_fileMembers : fileMembers.Nodup := by decide

/-- An object is no string. -/
theorem asString_object (ms : List (String × Json)) :
    ∃ fault, Json.asString (.object ms) = .error fault := ⟨_, rfl⟩

/-- A record with another member is no literal. -/
theorem literalOfJson_ne_ok {ms : List (String × Json)} {name : String} {v : Json}
    (h : (name, v) ∈ ms) (hname : name ≠ "literal") (text : String) :
    literalOfJson (.object ms) ≠ .ok text := by
  intro hok
  obtain ⟨literal, hmembers, -⟩ := literalOfJson_eq_ok.1 hok
  have hin := (Json.members_object_eq_ok.1 hmembers).1 _ h
  exact hname (List.mem_singleton.1 hin)

/-- What is no literal is an op. -/
theorem valueOfJson_object {op : Json → Except Json.Fault OpExpr} {ms : List (String × Json)}
    (h : ∀ text, literalOfJson (.object ms) ≠ .ok text) :
    valueOfJson op (.object ms) = (op (.object ms)).map .output := by
  obtain ⟨fault, hfault⟩ := asString_object ms
  cases hliteral : literalOfJson (.object ms) with
  | ok text => exact absurd hliteral (h text)
  | error fault' =>
    rw [valueOfJson, hfault, hliteral]

theorem valueOfJson_literal {op : Json → Except Json.Fault OpExpr} {j : Json} {text : String}
    (h : IsRecord [("literal", some (.string text))] j) :
    valueOfJson op j = .ok (.literal text) := by
  have hmembers : Json.members ["literal"] j = .ok [some (.string text)] :=
    h.members (List.nodup_singleton _)
  have hliteral : literalOfJson j = .ok text := literalOfJson_eq_ok.2 ⟨_, hmembers, rfl⟩
  obtain ⟨ms, rfl, -⟩ := h
  obtain ⟨fault, hfault⟩ := asString_object ms
  rw [valueOfJson, hfault, hliteral]

/-- An op is an object with a member that a literal does not have. -/
theorem OpExpr.Written.exists_object {e : OpExpr} {j : Json} (h : e.Written j) :
    ∃ ms v, j = .object ms ∧ ("op", v) ∈ ms := by
  obtain ⟨⟨name, outputs, inputs, attributes, domain?⟩⟩ := e
  obtain ⟨outputs', inputs', attributes', domain', ⟨ms, rfl, hperm⟩, -⟩ := h
  exact ⟨ms, _, rfl, hperm.mem_iff.2 List.mem_cons_self⟩

theorem ne_null_of_valueWritten {v : Value OpExpr} {j : Json} (h : ValueWritten v j) :
    j ≠ .null := by
  cases v with
  | param name =>
    obtain rfl : j = .string name := h
    exact Json.noConfusion
  | literal text =>
    obtain ⟨ms, rfl, -⟩ : IsRecord _ j := h
    exact Json.noConfusion
  | output e =>
    obtain ⟨ms, v, rfl, -⟩ := OpExpr.Written.exists_object h
    exact Json.noConfusion

mutual

theorem opOfJson_of_written : ∀ (e : OpExpr) (depth : Nat) (j : Json), e.Written j →
    j.depth ≤ depth → opOfJson depth j = .ok e
  | .op ⟨name, outputs, inputs, attributes, domain?⟩, depth, j, h, hdepth => by
    obtain ⟨outputs', inputs', attributes', domain', hrecord, houtputs, hinputs, hattributes,
      hdomain⟩ := h
    have hmembers : Json.members opMembers j =
        .ok [some (.string name), outputs', inputs', attributes', domain'] :=
      hrecord.members nodup_opMembers
    obtain ⟨k, rfl⟩ : ∃ k, depth = k + 1 := by
      have hlt := hrecord.depth_lt (List.mem_cons_self)
      exact Nat.exists_eq_succ_of_ne_zero (by omega)
    refine opOfJson_eq_ok.2 ⟨_, _, _, _, _, hmembers, rfl, houtputs.orElse ?_, hinputs.orElse ?_,
      hattributes.orElse ?_, hdomain.orElse ?_⟩
    · rintro _ - ⟨rfl, hle⟩
      exact Json.asCount_count hle
    · rintro _ rfl ⟨items, rfl, hitems⟩
      have hlt : (Json.array items).depth < j.depth :=
        hrecord.depth_lt (.tail _ (.tail _ (.head _)))
      rw [Json.depth] at hlt
      exact asList_array_eq_ok.2 (inputsOfJson_of_written inputs k items hitems (by omega))
    · rintro _ rfl ⟨ms, rfl, hnodup, hms⟩
      have hlt : (Json.object ms).depth < j.depth :=
        hrecord.depth_lt (.tail _ (.tail _ (.tail _ (.head _))))
      rw [Json.depth] at hlt
      have hread := attributesOfJson_of_written attributes k ms hms (by omega)
      exact attributesOfJson_eq_ok.2 ⟨map_fst_of_forall₂ hread ▸ hnodup, hread⟩
    · rintro _ - rfl
      exact Json.asOption_optionalString domain?

theorem valueOfJson_of_written : ∀ (v : Value OpExpr) (depth : Nat) (j : Json), ValueWritten v j →
    j.depth ≤ depth → valueOfJson (opOfJson depth) j = .ok v
  | .param name, depth, j, h, _ => by
    obtain rfl : j = .string name := h
    rfl
  | .literal text, depth, j, h, _ => valueOfJson_literal h
  | .output e, depth, j, h, hdepth => by
    have hwritten : e.Written j := h
    obtain ⟨ms, v, rfl, hop⟩ := hwritten.exists_object
    rw [valueOfJson_object (literalOfJson_ne_ok hop (by decide)),
      opOfJson_of_written e depth _ hwritten hdepth]
    rfl

theorem inputsOfJson_of_written : ∀ (vs : List (Value OpExpr)) (depth : Nat) (items : List Json),
    InputsWritten vs items → Json.depthOfItems items ≤ depth →
      List.Forall₂ (fun j v => valueOfJson (opOfJson depth) j = .ok v) items vs
  | [], depth, items, h, _ => by
    obtain rfl : items = [] := h
    exact .nil
  | v :: vs, depth, items, h, hdepth => by
    obtain ⟨j, js, rfl, hv, hvs⟩ := h
    rw [Json.depthOfItems] at hdepth
    exact .cons (valueOfJson_of_written v depth j hv (by omega))
      (inputsOfJson_of_written vs depth js hvs (by omega))

theorem attributesOfJson_of_written : ∀ (as : List (String × Option (Value OpExpr)))
    (depth : Nat) (ms : List (String × Json)), AttributesWritten as ms →
      Json.depthOfMembers ms ≤ depth →
        List.Forall₂ (fun m a => m.1 = a.1 ∧
          Json.asOption (valueOfJson (opOfJson depth)) m.2 = .ok a.2) ms as
  | [], depth, ms, h, _ => by
    obtain rfl : ms = [] := h
    exact .nil
  | (name, none) :: as, depth, ms, h, hdepth => by
    obtain ⟨more, rfl, has⟩ := h
    rw [Json.depthOfMembers] at hdepth
    exact .cons ⟨rfl, rfl⟩ (attributesOfJson_of_written as depth more has (by omega))
  | (name, some v) :: as, depth, ms, h, hdepth => by
    obtain ⟨j, more, rfl, hv, has⟩ := h
    rw [Json.depthOfMembers] at hdepth
    have hvalue : Json.asOption (valueOfJson (opOfJson depth)) j = .ok (some v) := by
      rw [Json.asOption_of_ne_null (ne_null_of_valueWritten hv),
        valueOfJson_of_written v depth j hv (by omega)]
      rfl
    exact .cons ⟨rfl, hvalue⟩ (attributesOfJson_of_written as depth more has (by omega))

end

theorem OpEntry.ofJson_of_written {entry : OpEntry} {j : Json} (h : entry.Written j)
    (hdepth : j.depth ≤ Json.nestingLimit) : OpEntry.ofJson j = .ok entry := by
  cases entry with
  | keyword word =>
    obtain rfl : j = .string word := h
    rfl
  | expression e =>
    have hwritten : e.Written j := h
    have hread := opOfJson_of_written e Json.nestingLimit j hwritten hdepth
    obtain ⟨ms, v, rfl, -⟩ := hwritten.exists_object
    obtain ⟨fault, hfault⟩ := asString_object ms
    rw [OpEntry.ofJson, hfault, hread]
    rfl

theorem Options.ofJson_of_written {o : Options} {j : Json} (h : o.Written j) :
    Options.ofJson j = .ok o := by
  obtain ⟨functionNamePrefix, provenance, includes, namespaces, usingDeclarations, library,
    dispatchKey, hrecord, h₁, h₂, h₃, h₄, h₅, h₆, h₇⟩ := h
  have hmembers : Json.members optionMembers j = .ok [functionNamePrefix, provenance, includes,
      namespaces, usingDeclarations, library, dispatchKey] :=
    hrecord.members nodup_optionMembers
  refine Options.ofJson_eq_ok.2 ⟨_, _, _, _, _, _, _, hmembers, h₁.orElse ?_, h₂.orElse ?_,
    h₃.orElse ?_, h₄.orElse ?_, h₅.orElse ?_, h₆.orElse ?_, h₇.orElse ?_⟩
  · rintro _ - rfl
    exact Json.asOption_optionalString _
  · rintro _ - rfl
    exact Json.asOption_optionalString _
  · rintro _ - rfl
    exact Json.asList_stringArray _
  · rintro _ - rfl
    exact Json.asList_stringArray _
  · rintro _ - rfl
    exact Json.asList_stringArray _
  · rintro _ - rfl
    rfl
  · rintro _ - rfl
    rfl

theorem optionsOfJson_of_written {o? : Option Options} {j : Json} (h : optionsWritten o? j) :
    Json.asOption Options.ofJson j = .ok o? := by
  cases o? with
  | none =>
    obtain rfl : j = .null := h
    rfl
  | some o =>
    have hread : Options.ofJson j = .ok o := Options.ofJson_of_written h
    have hne : j ≠ .null := by
      rintro rfl
      cases hread
    rw [Json.asOption_of_ne_null hne, hread]
    rfl

/-- A document that is written is read, if it does not nest too deeply. -/
theorem MappingFile.ofJson_of_written {f : MappingFile} {j : Json} (h : f.Written j)
    (hdepth : j.depth ≤ Json.nestingLimit) : MappingFile.ofJson j = .ok f := by
  obtain ⟨options, operators, es, hrecord, hoptions, hperm, hentries⟩ := h
  have hmembers : Json.members fileMembers j =
      .ok [some (.string f.version), options, some (.object operators)] :=
    hrecord.members nodup_fileMembers
  have hlt : (Json.object operators).depth < j.depth :=
    hrecord.depth_lt (.tail _ (.tail _ (.head _)))
  rw [Json.depth] at hlt
  have hread : List.Forall₂ (fun m e => m.1 = e.1 ∧ OpEntry.ofJson m.2 = .ok e.2) operators es := by
    have hshallow : ∀ m ∈ operators, m.2.depth ≤ Json.nestingLimit := fun m hm =>
      (Json.depth_le_depthOfMembers hm).trans (by omega)
    refine ((List.forall₂_and_left operators es).2 ⟨hshallow, hentries⟩).imp ?_
    rintro m e ⟨hm, hname, hwritten⟩
    exact ⟨hname, OpEntry.ofJson_of_written hwritten hm⟩
  refine MappingFile.ofJson_eq_ok.2 ⟨_, _, _, hmembers, rfl, hoptions.orElse ?_, ?_⟩
  · rintro _ - hwritten
    exact optionsOfJson_of_written hwritten
  · exact operatorsOfJson_eq_ok.2 ⟨es, hread, (NameTable.insertMany_of_perm hperm).symm⟩

end KernelGen
