import KernelGen.Proofs.Host.Grammar
import KernelGen.Proofs.Link.Runs
set_option autoImplicit false

/-!
# Link: markers and the parameters around them

A marker of a schema has no counterpart in the host's declaration, which is why linking makes a
place for it.  It makes one place only, for the first marker, and only if the cursor stands on it:
tensor options whose run covers the marker take it for one of the four schema parameters they
stand for, and a second marker is taken for the schema parameter of the declared parameter that
comes to it.  `SparesMarkers` says of a declaration and a schema that neither happens, and it
is all that is needed for the linked parameters to be in step with the markers.
-/

namespace KernelGen

/-- One of the places that a linked parameter stands for is that of a marker. -/
def LinkedFunction.StandsForMarker (f : LinkedFunction) (p : LinkedParam) : Prop :=
  ∃ i ∈ p.indices, f.signature.params[i]? = some .marker

namespace Link

/-- The number of schema parameters that declared parameters stand for. -/
def span (ps : List Host.Param) : Nat := (ps.map width).sum

/-- Declared parameters leave the markers of a schema to themselves. -/
structure SparesMarkers (s : Schema.Signature) (ps : List Host.Param) : Prop where
  /-- Where they reach beyond the first marker, some of them end exactly in front of it. -/
  first : ∀ k, s.markerIndex? = some k → k < span ps → ∃ n, span (ps.take n) = k
  /-- They do not reach any other marker. -/
  others : ∀ j, s.params[j]? = some .marker → s.markerIndex? ≠ some j → span ps < j

variable {marker? : Option Nat} {count position index last k : Nat} {ps : List Host.Param}
  {params : List LinkedParam}

theorem marker_mem_markerAt :
    .marker k ∈ markerAt marker? index ↔ marker? = some k ∧ index = k := by
  unfold markerAt
  split
  · rename_i h
    rw [List.mem_singleton, LinkedParam.marker.injEq, h, Option.some_inj]
    omega
  · rename_i h
    constructor
    · intro hk
      cases hk
    · rintro ⟨hk, rfl⟩
      exact absurd hk h

/-- The marker gets a place exactly where some parameters, from the first on, end in front of
it. -/
theorem marker_mem_of_pair (h : pair marker? count position index ps = .ok (params, last)) :
    .marker k ∈ params ↔ marker? = some k ∧ ∃ n, index + span (ps.take n) = k := by
  induction ps generalizing position index params with
  | nil =>
    cases h
    simp [marker_mem_markerAt, span]
  | cons p ps ih =>
    obtain ⟨-, _, more, hmore, rfl⟩ := pair_cons_eq_ok h
    have hwidth := width_pos p
    rw [List.mem_append, marker_mem_markerAt, List.mem_cons, ih hmore]
    constructor
    · rintro (⟨hk, rfl⟩ | he | ⟨hk, n, hn⟩)
      · exact ⟨hk, 0, rfl⟩
      · cases he
      · refine ⟨hk, n + 1, ?_⟩
        have hpast := le_past marker? index
        rw [past_of_ne (by rw [hk, ne_eq, Option.some_inj]; omega)] at hn
        simp only [List.take_succ_cons, span, List.map_cons, List.sum_cons] at hn ⊢
        omega
    · rintro ⟨hk, n, hn⟩
      by_cases hhere : index = k
      · exact .inl ⟨hk, hhere⟩
      · cases n with
        | zero => exact absurd hn hhere
        | succ n =>
          refine .inr (.inr ⟨hk, n, ?_⟩)
          rw [past_of_ne (by rw [hk, ne_eq, Option.some_inj]; omega)]
          simp only [List.take_succ_cons, span, List.map_cons, List.sum_cons] at hn ⊢
          omega

/-- The places that are stood for are those of the declared parameters and that of the marker. -/
theorem last_eq_of_pair (h : pair marker? count position index ps = .ok (params, last)) :
    last = index + span ps + (params.filter LinkedParam.isMarker).length := by
  have hmarkerAt : ∀ i, (markerAt marker? i).filter LinkedParam.isMarker = markerAt marker? i := by
    intro i
    unfold markerAt
    split <;> rfl
  induction ps generalizing position index params with
  | nil =>
    cases h
    rw [hmarkerAt]
    rfl
  | cons p ps ih =>
    obtain ⟨-, _, more, hmore, rfl⟩ := pair_cons_eq_ok h
    have hlast := ih hmore
    rw [← length_markerAt] at hlast
    rw [List.filter_append, hmarkerAt, List.filter_cons_of_neg (by simp [LinkedParam.isMarker]),
      List.length_append]
    simp only [span, List.map_cons, List.sum_cons] at hlast ⊢
    omega

/-- No place is stood for twice. -/
theorem eq_of_mem_indices (h : pair marker? count position 0 ps = .ok (params, last))
    {p q : LinkedParam} (hp : p ∈ params) (hq : q ∈ params) {i : Nat} (hip : i ∈ p.indices)
    (hiq : i ∈ q.indices) : p = q := by
  have hrange : params.flatMap LinkedParam.indices = List.range last := by
    simpa using range_of_pair h
  have hnodup : (params.flatMap LinkedParam.indices).Nodup := hrange ▸ List.nodup_range
  by_contra hne
  have : Std.Symm (Function.onFun List.Disjoint LinkedParam.indices) :=
    ⟨fun _ _ hdisjoint _ hy hx => hdisjoint hx hy⟩
  exact (List.nodup_flatMap.1 hnodup).2.forall hp hq hne hip hiq

theorem exists_mem_indices (h : pair marker? count position 0 ps = .ok (params, last)) {i : Nat} :
    (∃ p ∈ params, i ∈ p.indices) ↔ i < last := by
  have hrange : params.flatMap LinkedParam.indices = List.range last := by
    simpa using range_of_pair h
  rw [← List.mem_flatMap, hrange, List.mem_range]

/-! ## The markers of a schema -/

theorem marker_of_markerIndex? {s : Schema.Signature} {k : Nat} (h : s.markerIndex? = some k) :
    s.params[k]? = some .marker := by
  obtain ⟨hlt, hk, -⟩ := List.findIdx?_eq_some_iff_getElem.1 h
  rw [List.getElem?_eq_getElem hlt]
  cases hp : s.params[k] with
  | marker => rfl
  | value => rw [hp] at hk; cases hk

theorem exists_markerIndex? {s : Schema.Signature} {j : Nat} (h : s.params[j]? = some .marker) :
    ∃ k ≤ j, s.markerIndex? = some k := by
  obtain ⟨hlt, hj⟩ := List.getElem?_eq_some_iff.1 h
  cases hk : s.markerIndex? with
  | none =>
    have hnot := List.findIdx?_eq_none_iff.1 hk _ (List.mem_of_getElem? h)
    cases hnot
  | some k =>
    refine ⟨k, Nat.le_of_not_lt fun hjk => ?_, rfl⟩
    obtain ⟨_, _, hbefore⟩ := List.findIdx?_eq_some_iff_getElem.1 hk
    exact hbefore j hjk (by rw [hj]; rfl)

/-- Declared parameters spare the markers exactly when each marker among the places that are stood
for has the place that is made for markers. -/
theorem sparesMarkers_iff {s : Schema.Signature}
    (h : pair s.markerIndex? s.params.length position 0 ps = .ok (params, last)) :
    SparesMarkers s ps ↔ ∀ i < last, s.params[i]? = some .marker → .marker i ∈ params := by
  have hplace : ∀ k, .marker k ∈ params ↔
      s.markerIndex? = some k ∧ ∃ n, span (ps.take n) = k := by
    intro k
    rw [marker_mem_of_pair h]
    simp only [Nat.zero_add]
  have hlast := last_eq_of_pair h
  constructor
  · intro hspares i hi hmarker
    by_cases hfirst : s.markerIndex? = some i
    · rcases Nat.lt_or_ge i (span ps) with hlt | hge
      · exact (hplace i).2 ⟨hfirst, hspares.first i hfirst hlt⟩
      -- the cursor ends behind the declared parameters, so a place was made for a marker
      · rcases markers_of_pair h with hnone | ⟨k, hk, -, hone⟩
        · rw [hnone, List.length_nil] at hlast
          omega
        · rw [hfirst] at hk
          cases hk
          have hmem : .marker i ∈ params.filter LinkedParam.isMarker := by
            rw [hone]
            exact List.mem_singleton_self _
          exact List.mem_of_mem_filter hmem
    · have hspan := hspares.others i hmarker hfirst
      rcases markers_of_pair h with hnone | ⟨k, -, -, hone⟩
      · rw [hnone, List.length_nil] at hlast
        omega
      · rw [hone, List.length_singleton] at hlast
        omega
  · intro hmade
    have hfirst : ∀ k, s.markerIndex? = some k → k < span ps → ∃ n, span (ps.take n) = k :=
      fun k hk hlt => ((hplace k).1 (hmade k (by omega) (marker_of_markerIndex? hk))).2
    refine ⟨hfirst, fun j hmarker hother => Nat.lt_of_not_le fun hle => ?_⟩
    -- the first marker is in front of this one, so that its place is one of those stood for
    obtain ⟨k, hkj, hk⟩ := exists_markerIndex? hmarker
    have hne : k ≠ j := by
      rintro rfl
      exact hother hk
    have hmem : .marker k ∈ params.filter LinkedParam.isMarker :=
      List.mem_filter.2 ⟨(hplace k).2 ⟨hk, hfirst k hk (by omega)⟩, rfl⟩
    have hpos := List.length_pos_of_mem hmem
    exact hother ((hplace j).1 (hmade j (by omega) hmarker)).1

end Link

/-! ## Linked functions -/

theorem LinkedParam.eq_marker {p : LinkedParam} {i : Nat} (hp : p.isMarker = true)
    (hi : i ∈ p.indices) : p = .marker i := by
  cases p with
  | marker k => rw [List.mem_singleton.1 hi]
  | declared => cases hp

/-- **Markers and the places made for them.**  The place that linking makes is always that of a
marker.  It is the only linked parameter to stand for a marker exactly when the declared
parameters spare the markers: those that reach beyond the first marker come to an end in front
of it, so that no tensor options cover it, and they do not reach a second one. -/
theorem link_spares_markers_iff (d : Host.Declaration) (m : Metadata) (f : LinkedFunction)
    (h : (link d m).result = .ok f) :
    (∀ p ∈ f.params, p.isMarker = true → f.StandsForMarker p) ∧
    ((∀ p ∈ f.params, f.StandsForMarker p ↔ p.isMarker = true) ↔
      Link.SparesMarkers f.signature d.params) := by
  obtain ⟨s, params, last, -, hpair, rfl⟩ := link_eq_ok h
  have hmade : ∀ p ∈ params, p.isMarker = true →
      LinkedFunction.StandsForMarker ⟨d, m, s, params⟩ p := by
    intro p hp hmark
    cases p with
    | marker k =>
      exact ⟨k, List.mem_singleton_self k,
        Link.marker_of_markerIndex? ((Link.marker_mem_of_pair hpair).1 hp).1⟩
    | declared => cases hmark
  refine ⟨hmade, ?_⟩
  rw [Link.sparesMarkers_iff hpair]
  constructor
  · intro haligned i hi hmarker
    obtain ⟨p, hp, hip⟩ := (Link.exists_mem_indices hpair).2 hi
    have hmark : p.isMarker = true := (haligned p hp).1 ⟨i, hip, hmarker⟩
    exact LinkedParam.eq_marker hmark hip ▸ hp
  · refine fun hplaced p hp => ⟨?_, hmade p hp⟩
    rintro ⟨i, hip, hmarker⟩
    have hi : i < last := (Link.exists_mem_indices hpair).1 ⟨p, hp, hip⟩
    have hsame : p = .marker i :=
      Link.eq_of_mem_indices hpair hp (hplaced i hi hmarker) hip (List.mem_singleton_self i)
    rw [hsame]
    rfl

/-! ## Tensor options around a marker -/

open Source

/-- A header with a function of tensor options. -/
def optionsHeader : String := "at::Tensor f(at::TensorOptions options);"

/-- The parameter of the function. -/
def optionsParam : Host.Param :=
  ⟨⟨false, false, ["at", "TensorOptions"], [], []⟩, some "options", none⟩

/-- The declaration of `optionsHeader`. -/
def optionsDeclaration : Host.Declaration where
  returnType := ⟨false, false, ["at", "Tensor"], [], []⟩
  name := "f"
  params := [optionsParam]
  terminator := ⟨.semicolon, ";", ⟨1, 40⟩, [], []⟩
  location := ⟨1, 1⟩

/-- The tokens of `optionsHeader` behind the return type. -/
def optionsTokens : List Token :=
  [⟨.identifier, "f", ⟨1, 12⟩, [], []⟩, ⟨.openParen, "(", ⟨1, 13⟩, [], []⟩,
    ⟨.identifier, "at", ⟨1, 14⟩, [], []⟩, ⟨.doubleColon, "::", ⟨1, 16⟩, [], []⟩,
    ⟨.identifier, "TensorOptions", ⟨1, 18⟩, [], [⟨.whitespace, " "⟩]⟩,
    ⟨.identifier, "options", ⟨1, 32⟩, [], []⟩, ⟨.closeParen, ")", ⟨1, 39⟩, [], []⟩,
    optionsDeclaration.terminator, Token.endOfText ⟨1, 41⟩ []]

theorem declarations_options : Host.declarations optionsHeader = .ok [optionsDeclaration] := by
  obtain ⟨ts, hts, hfirst, hlocation, hreturn⟩ : ∃ ts, tokenize optionsHeader = .ok ts ∧
      (next ts).kind = .identifier ∧
      (next (ts.dropWhile Host.isSpecifier)).location = optionsDeclaration.location ∧
      Host.HostType.step (ts.dropWhile Host.isSpecifier) =
        .ok (optionsDeclaration.returnType, optionsTokens) :=
    ⟨⟨.identifier, "at", ⟨1, 1⟩, [], []⟩ :: ⟨.doubleColon, "::", ⟨1, 3⟩, [], []⟩ ::
      ⟨.identifier, "Tensor", ⟨1, 5⟩, [], [⟨.whitespace, " "⟩]⟩ :: optionsTokens, by cbv⟩
  have hparam : Host.Param.step (optionsTokens.drop 2) =
      .ok (optionsParam, optionsTokens.drop 6) := by cbv
  have hparams : Source.listed Host.Param.step Host.Param.step_consumes (optionsTokens.drop 2) =
      .ok ([optionsParam], optionsTokens.drop 6) :=
    (readsSeparated_commaSeparated Host.Param.step Host.Param.step_consumes).one hparam (by decide)
  have hstep : Host.Declaration.step ts = .ok (optionsDeclaration, optionsTokens.drop 8) :=
    Host.Declaration.step_of_parts hlocation hreturn rfl rfl rfl hparams rfl rfl rfl
  exact Host.declarations_of_step hts (by simp [hfirst]) hstep rfl

/-- An operator with a marker among the schema parameters that the options stand for. -/
def coveredMetadata : Metadata :=
  ⟨"f(ScalarType dtype, *, Layout layout, Device device, bool pin) -> Tensor", true, false⟩

/-- An operator with a second marker there. -/
def repeatedMetadata : Metadata :=
  ⟨"f(*, ScalarType dtype, Layout layout, Device device, *, bool pin) -> Tensor", true, false⟩

/-- A schema parameter with a name and no default value. -/
def namedParam (base : Schema.BaseType) (name : String) : Schema.Param :=
  .value ⟨base, none, []⟩ (some name) none

/-- A function of `optionsDeclaration`. -/
def optionsFunction (m : Metadata) (schema : List Schema.Param) (params : List LinkedParam) :
    LinkedFunction :=
  ⟨optionsDeclaration, m, ⟨["f"], none, schema, .value ⟨.tensor, none, []⟩⟩, params⟩

/-- The function, with the marker among the places of the options. -/
def coveredFunction : LinkedFunction :=
  optionsFunction coveredMetadata
    [namedParam (.named "ScalarType") "dtype", .marker, namedParam (.named "Layout") "layout",
      namedParam (.named "Device") "device", namedParam .bool "pin"]
    [.declared optionsParam [0, 1, 2, 3]]

/-- The function, with the second marker among the places of the options. -/
def repeatedFunction : LinkedFunction :=
  optionsFunction repeatedMetadata
    [.marker, namedParam (.named "ScalarType") "dtype", namedParam (.named "Layout") "layout",
      namedParam (.named "Device") "device", .marker, namedParam .bool "pin"]
    [.marker 0, .declared optionsParam [1, 2, 3, 4]]

theorem link_covered : (link optionsDeclaration coveredMetadata).result = .ok coveredFunction := by
  cbv

theorem link_repeated :
    (link optionsDeclaration repeatedMetadata).result = .ok repeatedFunction := by
  cbv

/-- Declared tensor options stand for a marker: for the first one, which their run covers, and
for a second one, which gets no place of its own. -/
theorem options_stand_for_markers :
    Host.declarations optionsHeader = .ok [optionsDeclaration] ∧
    (link optionsDeclaration coveredMetadata).result = .ok coveredFunction ∧
    coveredFunction.StandsForMarker (.declared optionsParam [0, 1, 2, 3]) ∧
    (link optionsDeclaration repeatedMetadata).result = .ok repeatedFunction ∧
    repeatedFunction.StandsForMarker (.declared optionsParam [1, 2, 3, 4]) :=
  ⟨declarations_options, link_covered, ⟨1, by decide, rfl⟩, link_repeated, ⟨4, by decide, rfl⟩⟩

theorem link_spares_markers_iff_covered :
    (link optionsDeclaration coveredMetadata).result = .ok coveredFunction ∧
    (∀ p ∈ coveredFunction.params, p.isMarker = true → coveredFunction.StandsForMarker p) ∧
    ¬ Link.SparesMarkers coveredFunction.signature optionsDeclaration.params := by
  obtain ⟨hmade, hspares⟩ := link_spares_markers_iff _ _ _ link_covered
  refine ⟨link_covered, hmade, fun h => ?_⟩
  have htaken : coveredFunction.StandsForMarker (.declared optionsParam [0, 1, 2, 3]) ↔
      false = true := hspares.2 h _ (List.mem_singleton_self _)
  exact Bool.false_ne_true (htaken.1 ⟨1, by decide, rfl⟩)

end KernelGen
