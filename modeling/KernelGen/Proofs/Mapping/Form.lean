import KernelGen.Mapping.Form
import KernelGen.Proofs.Json.Form
import KernelGen.Proofs.Mapping.Table
set_option autoImplicit false

/-!
# Mapping: what the forms ask for

When a record of a mapping document is read: its members are found, and each of them is read.  One
statement for each form says so; whoever reasons about documents goes through them and not through
the definitions.
-/

namespace KernelGen

open Json (members required orElse asString asOption asList asCount)
open Source (bind_eq_ok)

/-- The members of an op. -/
def opMembers : List String := ["op", "outputs", "inputs", "attributes", "domain"]

/-- The members of options. -/
def optionMembers : List String :=
  ["function_name_prefix", "provenance", "includes", "namespaces", "using_declarations", "library",
    "dispatch_key"]

/-- The members of a document. -/
def fileMembers : List String := ["schema_version", "options", "ops"]

/-- A value that is kept with its name. -/
theorem map_named_eq_ok {ε α : Type} {x : Except ε α} {name : String} {m : String × α} :
    x.map (fun v => (name, v)) = .ok m ↔ name = m.1 ∧ x = .ok m.2 := by
  cases x <;> simp [Except.map, Prod.ext_iff]

theorem literalOfJson_eq_ok {j : Json} {text : String} :
    literalOfJson j = .ok text ↔ ∃ literal, members ["literal"] j = .ok [literal] ∧
      required "literal" asString literal = .ok text := by
  unfold literalOfJson
  constructor
  · intro h
    obtain ⟨slots, hslots, h⟩ := bind_eq_ok.1 h
    split at h
    · exact ⟨_, hslots, h⟩
    · cases h
  · rintro ⟨literal, hslots, h⟩
    exact bind_eq_ok.2 ⟨_, hslots, h⟩

theorem opOfJson_eq_ok {depth : Nat} {j : Json} {n : OpNode OpExpr} :
    opOfJson (depth + 1) j = .ok (.op n) ↔ ∃ op outputs inputs attributes domain,
      members opMembers j = .ok [op, outputs, inputs, attributes, domain] ∧
      required "op" asString op = .ok n.name ∧
      orElse 1 asCount outputs = .ok n.outputs ∧
      orElse [] (asList (valueOfJson (opOfJson depth))) inputs = .ok n.inputs ∧
      orElse [] (attributesOfJson (opOfJson depth)) attributes = .ok n.attributes ∧
      orElse none (asOption asString) domain = .ok n.domain? := by
  rw [opOfJson]
  constructor
  · intro h
    obtain ⟨slots, hslots, h⟩ := bind_eq_ok.1 h
    split at h
    · obtain ⟨name, hname, h⟩ := bind_eq_ok.1 h
      obtain ⟨outputs, houtputs, h⟩ := bind_eq_ok.1 h
      obtain ⟨inputs, hinputs, h⟩ := bind_eq_ok.1 h
      obtain ⟨attributes, hattributes, h⟩ := bind_eq_ok.1 h
      obtain ⟨domain?, hdomain, h⟩ := bind_eq_ok.1 h
      cases h
      exact ⟨_, _, _, _, _, hslots, hname, houtputs, hinputs, hattributes, hdomain⟩
    · cases h
  · rintro ⟨op, outputs, inputs, attributes, domain, hslots, hname, houtputs, hinputs, hattributes,
      hdomain⟩
    refine bind_eq_ok.2 ⟨_, hslots, bind_eq_ok.2 ⟨_, hname, bind_eq_ok.2 ⟨_, houtputs,
      bind_eq_ok.2 ⟨_, hinputs, bind_eq_ok.2 ⟨_, hattributes, bind_eq_ok.2 ⟨_, hdomain, rfl⟩⟩⟩⟩⟩⟩

theorem asList_array_eq_ok {α : Type} {read : Json → Except Json.Fault α} {items : List Json}
    {as : List α} :
    asList read (.array items) = .ok as ↔ List.Forall₂ (fun j a => read j = .ok a) items as :=
  mapM_eq_ok

/-- The names of attributes differ, and each of them has a value or null. -/
theorem attributesOfJson_eq_ok {op : Json → Except Json.Fault OpExpr} {ms : List (String × Json)}
    {as : List (String × Option (Value OpExpr))} :
    attributesOfJson op (.object ms) = .ok as ↔ (ms.map Prod.fst).Nodup ∧
      List.Forall₂ (fun m a => m.1 = a.1 ∧ asOption (valueOfJson op) m.2 = .ok a.2) ms as := by
  rw [attributesOfJson, ← Json.repeated?_eq_none_iff]
  cases Json.repeated? (ms.map Prod.fst) with
  | some name => exact iff_of_false (fun h => nomatch h) fun h => nomatch h.1
  | none =>
    simp only [true_and]
    exact mapM_eq_ok.trans (by simp only [map_named_eq_ok])

theorem Options.ofJson_eq_ok {j : Json} {o : Options} :
    Options.ofJson j = .ok o ↔ ∃ functionNamePrefix provenance includes namespaces
        usingDeclarations library dispatchKey,
      members optionMembers j = .ok [functionNamePrefix, provenance, includes, namespaces,
        usingDeclarations, library, dispatchKey] ∧
      orElse standard.functionNamePrefix? (asOption asString) functionNamePrefix =
        .ok o.functionNamePrefix? ∧
      orElse standard.provenance? (asOption asString) provenance =
        .ok o.provenance? ∧
      orElse standard.includes (asList asString) includes = .ok o.includes ∧
      orElse standard.namespaces (asList asString) namespaces = .ok o.namespaces ∧
      orElse standard.usingDeclarations (asList asString) usingDeclarations =
        .ok o.usingDeclarations ∧
      orElse standard.library asString library = .ok o.library ∧
      orElse standard.dispatchKey asString dispatchKey = .ok o.dispatchKey := by
  unfold Options.ofJson
  constructor
  · intro h
    obtain ⟨slots, hslots, h⟩ := bind_eq_ok.1 h
    split at h
    · obtain ⟨_, h₁, h⟩ := bind_eq_ok.1 h
      obtain ⟨_, h₂, h⟩ := bind_eq_ok.1 h
      obtain ⟨_, h₃, h⟩ := bind_eq_ok.1 h
      obtain ⟨_, h₄, h⟩ := bind_eq_ok.1 h
      obtain ⟨_, h₅, h⟩ := bind_eq_ok.1 h
      obtain ⟨_, h₆, h⟩ := bind_eq_ok.1 h
      obtain ⟨_, h₇, h⟩ := bind_eq_ok.1 h
      cases h
      exact ⟨_, _, _, _, _, _, _, hslots, h₁, h₂, h₃, h₄, h₅, h₆, h₇⟩
    · cases h
  · rintro ⟨_, _, _, _, _, _, _, hslots, h₁, h₂, h₃, h₄, h₅, h₆, h₇⟩
    exact bind_eq_ok.2 ⟨_, hslots, bind_eq_ok.2 ⟨_, h₁, bind_eq_ok.2 ⟨_, h₂,
      bind_eq_ok.2 ⟨_, h₃, bind_eq_ok.2 ⟨_, h₄, bind_eq_ok.2 ⟨_, h₅,
        bind_eq_ok.2 ⟨_, h₆, bind_eq_ok.2 ⟨_, h₇, rfl⟩⟩⟩⟩⟩⟩⟩⟩

theorem operatorsOfJson_eq_ok {ms : List (String × Json)} {t : NameTable OpEntry} :
    operatorsOfJson (.object ms) = .ok t ↔ ∃ es,
      List.Forall₂ (fun m e => m.1 = e.1 ∧ OpEntry.ofJson m.2 = .ok e.2) ms es ∧
        t = NameTable.empty.insertMany es := by
  rw [operatorsOfJson, bind_eq_ok]
  simp only [mapM_eq_ok, map_named_eq_ok, pure, Except.pure, Except.ok.injEq]
  exact exists_congr fun es => and_congr_right fun _ => eq_comm

theorem MappingFile.ofJson_eq_ok {j : Json} {f : MappingFile} :
    MappingFile.ofJson j = .ok f ↔ ∃ version options operators,
      members fileMembers j = .ok [version, options, operators] ∧
      required "schema_version" asString version = .ok f.version ∧
      orElse none (asOption Options.ofJson) options = .ok f.options? ∧
      required "ops" operatorsOfJson operators = .ok f.operators := by
  unfold MappingFile.ofJson
  constructor
  · intro h
    obtain ⟨slots, hslots, h⟩ := bind_eq_ok.1 h
    split at h
    · obtain ⟨version, hversion, h⟩ := bind_eq_ok.1 h
      obtain ⟨options?, hoptions, h⟩ := bind_eq_ok.1 h
      obtain ⟨operators, hoperators, h⟩ := bind_eq_ok.1 h
      cases h
      exact ⟨_, _, _, hslots, hversion, hoptions, hoperators⟩
    · cases h
  · rintro ⟨_, _, _, hslots, hversion, hoptions, hoperators⟩
    exact bind_eq_ok.2 ⟨_, hslots, bind_eq_ok.2 ⟨_, hversion, bind_eq_ok.2 ⟨_, hoptions,
      bind_eq_ok.2 ⟨_, hoperators, rfl⟩⟩⟩⟩

end KernelGen
