import KernelGen.Link
set_option autoImplicit false

/-!
# Link: what linked functions are made of

Linking keeps the declaration and the metadata, and only adds the marker to the parameters: the
declared ones are all there, in order.
-/

namespace KernelGen

/-- The declared parameter, unless the place is the marker's. -/
def LinkedParam.declared? : LinkedParam → Option Host.Param
  | .marker _ => none
  | .declared param _ => some param

/-- The declared parameters. -/
def LinkedFunction.declaredParams (f : LinkedFunction) : List Host.Param :=
  f.params.filterMap LinkedParam.declared?

theorem declared_of_pair {marker? : Option Nat} {count position index last : Nat}
    {ps : List Host.Param} {params : List LinkedParam}
    (h : Link.pair marker? count position index ps = .ok (params, last)) :
    params.filterMap LinkedParam.declared? = ps := by
  have hmarker : ∀ i, (Link.markerAt marker? i).filterMap LinkedParam.declared? = [] := by
    intro i
    unfold Link.markerAt
    split <;> rfl
  induction ps generalizing position index params last with
  | nil =>
    cases h
    exact hmarker index
  | cons p ps ih =>
    simp only [Link.pair] at h
    split at h
    · cases h
    · obtain ⟨⟨more, last'⟩, hmore, he⟩ := Source.bind_eq_ok.1 h
      cases he
      rw [List.filterMap_append, hmarker, List.nil_append]
      exact congrArg (p :: ·) (ih hmore)

section Link

variable {d : Host.Declaration} {m : Metadata} {f : LinkedFunction}

/-- A declaration is linked to the signature that its metadata give, and its parameters are paired
with those of the signature. -/
theorem link_eq_ok (h : (link d m).result = .ok f) :
    ∃ signature params last, Schema.Signature.ofText m.schema = .ok signature ∧
      Link.pair signature.markerIndex? signature.params.length 0 0 d.params = .ok (params, last) ∧
      f = ⟨d, m, signature, params⟩ := by
  unfold link at h
  split at h
  · cases h
  rename_i signature hsignature
  extract_lets count at h
  split at h
  · cases h
  rename_i params last hpair
  refine ⟨signature, params, last, hsignature, hpair, ?_⟩
  extract_lets finish at h
  split at h
  · obtain ⟨_, -, h⟩ := Outcome.result_bind_eq_ok.1 h
    cases h
    rfl
  · cases h
    rfl

theorem declaration_of_link (h : (link d m).result = .ok f) : f.declaration = d := by
  obtain ⟨_, _, _, -, -, rfl⟩ := link_eq_ok h
  rfl

theorem declaredParams_of_link (h : (link d m).result = .ok f) : f.declaredParams = d.params := by
  obtain ⟨_, _, _, -, hpair, rfl⟩ := link_eq_ok h
  exact declared_of_pair hpair

end Link

end KernelGen
