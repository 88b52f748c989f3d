import Mathlib
import KernelGen.Proofs.Link
set_option autoImplicit false

/-!
# Link: runs of schema parameters

Linking goes through the declared parameters with a cursor into the schema.  The cursor steps over
the first marker whenever it stands on it, and each parameter takes the run of schema parameters
that starts there.  `Overruns` says that some run does not fit, and this is the only way in which
linking to a schema that can be read fails.  The runs of a linked function, with the marker's
place among them, cover the schema from its start to where the cursor ends, each place once.
-/

namespace KernelGen

namespace Link

/-- Where a run starts if the cursor stands at `index`: behind the marker, if that is there. -/
def past (marker? : Option Nat) (index : Nat) : Nat :=
  if marker? = some index then index + 1 else index

/-- Where the cursor stands behind declared parameters, if it stands at `index` in front of
them. -/
def cursor (marker? : Option Nat) (index : Nat) (ps : List Host.Param) : Nat :=
  ps.foldl (fun index p => past marker? index + width p) index

/-- The run of some parameter goes past the end of a schema of `count` parameters. -/
def Overruns (marker? : Option Nat) (count index : Nat) (ps : List Host.Param) : Prop :=
  ∃ i p, ps[i]? = some p ∧ count < past marker? (cursor marker? index (ps.take i)) + width p

variable {marker? : Option Nat} {count position index last : Nat} {p : Host.Param}
  {ps : List Host.Param} {params : List LinkedParam}

theorem width_pos (p : Host.Param) : 0 < width p := by
  unfold width
  split <;> decide

theorem past_of_ne (h : marker? ≠ some index) : past marker? index = index := if_neg h

theorem le_past (marker? : Option Nat) (index : Nat) : index ≤ past marker? index := by
  unfold past
  split <;> omega

/-! ## The marker -/

theorem length_markerAt (marker? : Option Nat) (index : Nat) :
    index + (markerAt marker? index).length = past marker? index := by
  unfold markerAt past
  split <;> rfl

/-- The marker takes the places that the cursor steps over. -/
theorem range_markerAt (marker? : Option Nat) (index : Nat) :
    List.range index ++ (markerAt marker? index).flatMap LinkedParam.indices =
      List.range (past marker? index) := by
  unfold markerAt past
  split
  · exact List.range_succ.symm
  · exact List.append_nil _

theorem declared_notMem_markerAt {indices : List Nat} :
    .declared p indices ∉ markerAt marker? index := by
  unfold markerAt
  split <;> simp

/-! ## One parameter -/

theorem overruns_nil : ¬ Overruns marker? count index [] := by
  rintro ⟨i, p, hp, -⟩
  cases hp

theorem overruns_cons :
    Overruns marker? count index (p :: ps) ↔ count < past marker? index + width p ∨
      Overruns marker? count (past marker? index + width p) ps := by
  constructor
  · rintro ⟨i, q, hq, hlt⟩
    cases i with
    | zero => cases hq; exact .inl hlt
    | succ i => exact .inr ⟨i, q, hq, hlt⟩
  · rintro (hlt | ⟨i, q, hq, hlt⟩)
    · exact ⟨0, p, rfl, hlt⟩
    · exact ⟨i + 1, q, hq, hlt⟩

/-- What pairing a parameter does: its run starts where the cursor stands, behind the marker if
that is there, and the other parameters are paired from the end of the run on. -/
theorem pair_cons_eq_ok (h : pair marker? count position index (p :: ps) = .ok (params, last)) :
    past marker? index + width p ≤ count ∧ ∃ position' more,
      pair marker? count position' (past marker? index + width p) ps = .ok (more, last) ∧
      params = markerAt marker? index ++
        .declared p (List.range' (past marker? index) (width p)) :: more := by
  simp only [pair, length_markerAt] at h
  split at h
  · cases h
  · obtain ⟨⟨more, last'⟩, hmore, he⟩ := Source.bind_eq_ok.1 h
    cases he
    exact ⟨by omega, _, more, hmore, rfl⟩

/-- Pairing fails exactly when the run of some parameter goes past the end of the schema. -/
theorem pair_eq_error :
    (∃ o, pair marker? count position index ps = .error o) ↔ Overruns marker? count index ps := by
  induction ps generalizing position index with
  | nil =>
    refine iff_of_false ?_ overruns_nil
    rintro ⟨o, h⟩
    cases h
  | cons p ps ih =>
    have hrest := @ih (position + (markerAt marker? index).length + 1)
      (past marker? index + width p)
    rw [overruns_cons, ← hrest]
    simp only [pair, length_markerAt]
    split
    · rename_i hlt
      exact iff_of_true ⟨_, rfl⟩ (.inl hlt)
    · rename_i hle
      rw [or_iff_right hle]
      cases pair marker? count (position + (markerAt marker? index).length + 1)
          (past marker? index + width p) ps with
      | error o => exact iff_of_true ⟨o, rfl⟩ ⟨o, rfl⟩
      | ok r =>
        refine iff_of_false ?_ ?_
        · rintro ⟨o, h⟩
          cases h
        · rintro ⟨o, h⟩
          cases h

theorem not_overruns_of_pair (h : pair marker? count position index ps = .ok (params, last)) :
    ¬ Overruns marker? count index ps := by
  intro hover
  obtain ⟨o, ho⟩ := pair_eq_error.2 hover
  rw [h] at ho
  cases ho

/-! ## All parameters -/

theorem last_of_pair (h : pair marker? count position index ps = .ok (params, last)) :
    last = past marker? (cursor marker? index ps) := by
  induction ps generalizing position index params with
  | nil =>
    cases h
    exact length_markerAt marker? index
  | cons p ps ih =>
    obtain ⟨-, _, more, hmore, -⟩ := pair_cons_eq_ok h
    exact ih hmore

/-- The places that linked parameters stand for follow each other without gaps. -/
theorem range_of_pair (h : pair marker? count position index ps = .ok (params, last)) :
    List.range index ++ params.flatMap LinkedParam.indices = List.range last := by
  induction ps generalizing position index params with
  | nil =>
    cases h
    rw [length_markerAt, range_markerAt]
  | cons p ps ih =>
    obtain ⟨-, _, more, hmore, rfl⟩ := pair_cons_eq_ok h
    calc List.range index ++ (markerAt marker? index ++
            .declared p (List.range' (past marker? index) (width p)) :: more).flatMap
              LinkedParam.indices
        = List.range index ++ (markerAt marker? index).flatMap LinkedParam.indices ++
            List.range' (past marker? index) (width p) ++ more.flatMap LinkedParam.indices := by
          simp only [List.flatMap_append, List.flatMap_cons, LinkedParam.indices,
            List.append_assoc]
      _ = List.range (past marker? index + width p) ++ more.flatMap LinkedParam.indices := by
          rw [range_markerAt, List.range_eq_range', List.range_eq_range',
            ← List.range'_append_1, Nat.zero_add]
      _ = List.range last := ih hmore

/-- No place behind the end of the schema is stood for. -/
theorem last_le_of_pair (h : pair marker? count position index ps = .ok (params, last))
    (hmarker : ∀ k, marker? = some k → k < count) (hindex : index ≤ count) : last ≤ count := by
  induction ps generalizing position index params with
  | nil =>
    rw [last_of_pair h]
    unfold past
    split
    · exact hmarker _ ‹_›
    · exact hindex
  | cons p ps ih =>
    obtain ⟨hle, _, more, hmore, -⟩ := pair_cons_eq_ok h
    exact ih hmore hle

/-- A declared parameter stands for as many places as it is wide. -/
theorem length_of_pair (h : pair marker? count position index ps = .ok (params, last))
    {indices : List Nat} (hp : .declared p indices ∈ params) : indices.length = width p := by
  induction ps generalizing position index params with
  | nil =>
    cases h
    exact absurd hp declared_notMem_markerAt
  | cons q ps ih =>
    obtain ⟨-, _, more, hmore, rfl⟩ := pair_cons_eq_ok h
    rcases List.mem_append.1 hp with hp | hp
    · exact absurd hp declared_notMem_markerAt
    · rcases List.mem_cons.1 hp with he | hp
      · cases he
        exact List.length_range'
      · exact ih hmore hp

/-- Once the cursor has gone past the marker it does not come back to it. -/
theorem markers_of_pair (h : pair marker? count position index ps = .ok (params, last)) :
    params.filter LinkedParam.isMarker = [] ∨
      ∃ k, marker? = some k ∧ index ≤ k ∧
        params.filter LinkedParam.isMarker = [.marker k] := by
  induction ps generalizing position index params with
  | nil =>
    cases h
    unfold markerAt
    split
    · exact .inr ⟨index, ‹_›, Nat.le_refl _, rfl⟩
    · exact .inl rfl
  | cons p ps ih =>
    obtain ⟨-, _, more, hmore, rfl⟩ := pair_cons_eq_ok h
    have hwidth := width_pos p
    have hpast := le_past marker? index
    rw [List.filter_append, List.filter_cons_of_neg (by simp [LinkedParam.isMarker])]
    by_cases hhere : marker? = some index
    · rcases ih hmore with hnone | ⟨k, hk, hle, -⟩
      · rw [hnone, markerAt, if_pos hhere]
        exact .inr ⟨index, hhere, Nat.le_refl _, rfl⟩
      · rw [hhere] at hk
        cases hk
        omega
    · rw [markerAt, if_neg hhere]
      rcases ih hmore with hnone | ⟨k, hk, hle, hone⟩
      · exact .inl hnone
      · exact .inr ⟨k, hk, by omega, hone⟩

end Link

/-! ## Linking -/

section

variable {d : Host.Declaration} {m : Metadata} {s : Schema.Signature}

theorem markerIndex?_lt {k : Nat} (h : s.markerIndex? = some k) : k < s.params.length :=
  (List.findIdx?_eq_some_iff_findIdx_eq.1 h).1

/-- Linking to a schema that can be read is pairing. -/
theorem link_eq (hs : Schema.Signature.ofText m.schema = .ok s) :
    (∀ o, Link.pair s.markerIndex? s.params.length 0 0 d.params = .error o →
      (link d m).result = .error (.ofCause
        (.arity d.name o.position o.first o.width m.schema s.params.length))) ∧
    (∀ params last, Link.pair s.markerIndex? s.params.length 0 0 d.params = .ok (params, last) →
      (link d m).result = .ok ⟨d, m, s, params⟩) := by
  constructor
  · intro o ho
    simp only [link, hs, ho]
    rfl
  · intro params last hpair
    simp only [link, hs, hpair]
    split <;> rfl

end

/-- **Linking partitions a prefix of the schema.**  For a schema that can be read, linking fails
with the code of a mismatch exactly when the cursor, which steps over the first marker whenever it
stands on it, comes to a parameter whose run goes past the end of the schema.  Otherwise it
succeeds: the places that the linked parameters stand for are, in order, those from the start of
the schema to where the cursor ends, which is not behind the schema's end; each declared parameter
stands for as many as it is wide; there is at most one place for a marker, which is that of the
first; and without it the parameters are those of the declaration, of which nothing is changed. -/
theorem link_partitions (d : Host.Declaration) (m : Metadata) (s : Schema.Signature)
    (hs : Schema.Signature.ofText m.schema = .ok s) :
    ((∃ e, (link d m).result = .error e ∧ e.cause.code = .linkArityMismatch) ↔
      Link.Overruns s.markerIndex? s.params.length 0 d.params) ∧
    (¬ Link.Overruns s.markerIndex? s.params.length 0 d.params →
      ∃ f, (link d m).result = .ok f ∧ f.signature = s ∧
        (∃ last ≤ s.params.length,
          last = Link.past s.markerIndex? (Link.cursor s.markerIndex? 0 d.params) ∧
          f.params.flatMap LinkedParam.indices = List.range last) ∧
        (∀ p indices, .declared p indices ∈ f.params → indices.length = Link.width p) ∧
        (f.params.filter LinkedParam.isMarker).length ≤ 1 ∧
        (∀ index, .marker index ∈ f.params → s.markerIndex? = some index) ∧
        f.declaredParams = d.params ∧ f.declaration = d) := by
  obtain ⟨herror, hok⟩ := link_eq (d := d) hs
  cases hpair : Link.pair s.markerIndex? s.params.length 0 0 d.params with
  | error o =>
    have hover := Link.pair_eq_error.1 ⟨o, hpair⟩
    exact ⟨⟨fun _ => hover, fun _ => ⟨_, herror o hpair, rfl⟩⟩, fun hnot => absurd hover hnot⟩
  | ok r =>
    obtain ⟨params, last⟩ := r
    have hlink := hok params last hpair
    refine ⟨⟨fun ⟨e, he, _⟩ => ?_, fun hover => absurd hover (Link.not_overruns_of_pair hpair)⟩,
      fun _ =>
      ⟨_, hlink, rfl, ⟨last, ?_, Link.last_of_pair hpair, ?_⟩, ?_, ?_, ?_, ?_, rfl⟩⟩
    · rw [hlink] at he
      cases he
    · exact Link.last_le_of_pair hpair (fun k => markerIndex?_lt) (Nat.zero_le _)
    · simpa using Link.range_of_pair hpair
    · exact fun p indices hp => Link.length_of_pair hpair hp
    · rcases Link.markers_of_pair hpair with hnone | ⟨k, -, -, hone⟩
      · simp [hnone]
      · simp [hone]
    · intro index hindex
      have hmem : .marker index ∈ params.filter LinkedParam.isMarker :=
        List.mem_filter.2 ⟨hindex, rfl⟩
      rcases Link.markers_of_pair hpair with hnone | ⟨k, hk, -, hone⟩
      · rw [hnone] at hmem
        cases hmem
      · rw [hone, List.mem_singleton] at hmem
        cases hmem
        exact hk
    · exact declared_of_pair hpair

/-! ## Tensor options behind the marker -/

/-- The declaration of a function of a size and tensor options. -/
def emptyDeclaration : Host.Declaration where
  returnType := ⟨false, false, ["at", "Tensor"], [], []⟩
  name := "empty"
  params :=
    [⟨⟨false, false, ["at", "IntArrayRef"], [], []⟩, some "size", none⟩,
     ⟨⟨false, false, ["at", "TensorOptions"], [], []⟩, some "options", none⟩]
  terminator := .endOfText .start []
  location := .start

/-- Its operator, which has the marker between the two, and one parameter more. -/
def emptyMetadata : Metadata :=
  ⟨"empty(int s, *, T a, L b, D c, bool d, M e) -> Tensor", true, false⟩

/-- The signature of the operator. -/
def emptySignature : Schema.Signature :=
  let param : Schema.BaseType → String → Schema.Param := fun base name =>
    .value ⟨base, none, []⟩ (some name) none
  ⟨["empty"], none, [param .int "s", .marker, param (.named "T") "a", param (.named "L") "b",
    param (.named "D") "c", param .bool "d", param (.named "M") "e"],
    .value ⟨.tensor, none, []⟩⟩

theorem link_partitions_empty :
    Schema.Signature.ofText emptyMetadata.schema = .ok emptySignature ∧
    ∃ f, (link emptyDeclaration emptyMetadata).result = .ok f ∧
      f.params.flatMap LinkedParam.indices = List.range 6 ∧
      (∀ index, .marker index ∈ f.params → index = 1) ∧
      f.declaredParams = emptyDeclaration.params := by
  have hs : Schema.Signature.ofText emptyMetadata.schema = .ok emptySignature := by cbv
  have hfits : ¬ Link.Overruns emptySignature.markerIndex? emptySignature.params.length 0
      emptyDeclaration.params :=
    Link.not_overruns_of_pair (show Link.pair (some 1) 7 0 0 emptyDeclaration.params = .ok (_, 6)
      from rfl)
  obtain ⟨f, hf, -, ⟨last, -, hlast, hplaces⟩, -, -, hmarker, hdeclared, -⟩ :=
    (link_partitions emptyDeclaration emptyMetadata emptySignature hs).2 hfits
  have hsix : last = 6 := hlast.trans (by decide)
  have hone : ∀ index, .marker index ∈ f.params → index = 1 :=
    fun index hindex => (Option.some.inj (hmarker index hindex)).symm
  exact ⟨hs, f, hf, hsix ▸ hplaces, hone, hdeclared⟩

end KernelGen
