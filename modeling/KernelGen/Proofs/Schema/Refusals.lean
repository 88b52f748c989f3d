import KernelGen.Link
import KernelGen.Proofs.Source.Strays
set_option autoImplicit false

/-!
# Schema: reports of refused schemas

A text is refused as a schema because it has no tokens, or because its tokens are not those of a
schema.  Only in the second case is it reported as a schema that is wrong: the report of the first
case has the code that it has for headers.  Linking says which declaration the schema is attached
to, and reports the same.
-/

namespace KernelGen

open Source

/-! ## One text -/

/-- The report of a text that is refused as a schema. -/
def Schema.refusal (wording : Json.Fault → String) (text : String) (e : ReadError) : Diagnostic :=
  (Cause.unreadableSchema text e).diagnostic wording

section Refusal

variable (wording : Json.Fault → String) {text : String} {e : ReadError}

/-- A text without tokens is reported like a header without tokens. -/
theorem Schema.code_refusal_of_stray (h : Schema.Signature.ofText text = .error e)
    (hstray : HasStray text) : (Schema.refusal wording text e).code = .parseError := by
  obtain ⟨s, rfl⟩ := (read_refuses_stray_iff h).2 hstray
  rfl

/-- A text with tokens is reported as a schema that is wrong. -/
theorem Schema.code_refusal_of_tokens (h : Schema.Signature.ofText text = .error e)
    (htokens : ¬ HasStray text) : (Schema.refusal wording text e).code = .schemaParseError := by
  cases e with
  | stray s => exact absurd ((read_refuses_stray_iff h).1 ⟨s, rfl⟩) htokens
  | unexpected fault => rfl

end Refusal

/-! ## Linking -/

/-- A declaration whose schema is refused is not linked, and the failure says which one it is. -/
theorem link_of_refused {d : Host.Declaration} {m : Metadata} {e : ReadError}
    (h : Schema.Signature.ofText m.schema = .error e) :
    link d m = .fail ⟨.unreadableSchema m.schema e, [.schemaOf d.name d.location]⟩ := by
  unfold link
  rw [h]
  rfl

/-- **Refused schemas are reported as schemas unless they have no tokens.**  Whatever text is
refused as a schema, its report has the code and the phase of schemas if and only if no place in the
text is one where no lexeme starts, and those of headers otherwise.  A declaration with this schema
is refused with the same report. -/
theorem Schema.refusal_iff (wording : Json.Fault → String) {text : String} {e : ReadError}
    (h : Schema.Signature.ofText text = .error e) :
    ((Schema.refusal wording text e).code = .schemaParseError ∧
        (Schema.refusal wording text e).code.phase = .schema ↔ ¬ HasStray text) ∧
    ((Schema.refusal wording text e).code = .parseError ∧
        (Schema.refusal wording text e).code.phase = .parse ↔ HasStray text) ∧
    ∀ (d : Host.Declaration) (m : Metadata), m.schema = text →
      ∃ failure, (link d m).result = .error failure ∧
        failure.contexts = [.schemaOf d.name d.location] ∧
        failure.cause.diagnostic wording = Schema.refusal wording text e := by
  refine ⟨?_, ?_, ?_⟩
  · by_cases hstray : HasStray text
    · rw [Schema.code_refusal_of_stray wording h hstray]
      exact iff_of_false (by decide) (not_not_intro hstray)
    · rw [Schema.code_refusal_of_tokens wording h hstray]
      exact iff_of_true ⟨rfl, rfl⟩ hstray
  · by_cases hstray : HasStray text
    · rw [Schema.code_refusal_of_stray wording h hstray]
      exact iff_of_true ⟨rfl, rfl⟩ hstray
    · rw [Schema.code_refusal_of_tokens wording h hstray]
      exact iff_of_false (by decide) hstray
  · rintro d m rfl
    exact ⟨_, congrArg Outcome.result (link_of_refused h), rfl, rfl⟩

/-- A schema with a character that no lexeme starts with. -/
def atSchema : String := "foo(Tensor @x) -> Tensor"

/-- Why `atSchema` is refused. -/
def atError : ReadError := .stray ⟨"@", ⟨1, 12⟩⟩

theorem Schema.refusal_at :
    Schema.Signature.ofText atSchema = .error atError ∧
    ((Schema.refusal Json.Fault.message atSchema atError).code = .schemaParseError ∧
        (Schema.refusal Json.Fault.message atSchema atError).code.phase = .schema ↔
      ¬ HasStray atSchema) ∧
    ((Schema.refusal Json.Fault.message atSchema atError).code = .parseError ∧
        (Schema.refusal Json.Fault.message atSchema atError).code.phase = .parse ↔
      HasStray atSchema) ∧
    ∀ (d : Host.Declaration) (m : Metadata), m.schema = atSchema →
      ∃ failure, (link d m).result = .error failure ∧
        failure.contexts = [.schemaOf d.name d.location] ∧
        failure.cause.diagnostic Json.Fault.message =
          Schema.refusal Json.Fault.message atSchema atError := by
  have hrefused : Schema.Signature.ofText atSchema = .error atError := by cbv
  exact ⟨hrefused, Schema.refusal_iff Json.Fault.message hrefused⟩

/-- The character is reported as a fault of host declarations. -/
theorem Schema.misreports_at :
    Schema.Signature.ofText atSchema = .error atError ∧
    (Schema.refusal Json.Fault.message atSchema atError).code ≠ .schemaParseError ∧
    (Schema.refusal Json.Fault.message atSchema atError).code.phase ≠ .schema ∧
    (Schema.refusal Json.Fault.message atSchema atError).code.summary =
      "failed to parse host declarations" := by
  have hrefused : Schema.Signature.ofText atSchema = .error atError := by cbv
  exact ⟨hrefused, by decide, by decide, rfl⟩

end KernelGen
