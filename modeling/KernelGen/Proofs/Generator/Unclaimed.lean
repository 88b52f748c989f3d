import KernelGen.Proofs.Generator.Success
set_option autoImplicit false

/-!
# Generator: declarations without a claim

A run passes a declaration over when it has no metadata, when its operator has no mapping, and
when an earlier declaration has taken that mapping.  Such declarations leave no trace: without
them, and with the metadata moved to the places that the others have then, a run makes the same
file.

The two runs go through lists of different lengths and are at different places, but they hold the
same table at every declaration that stays.  `Loop.without` carries this through the loop; a
declaration that goes is one at which the table that is held has nothing to take.
-/

namespace KernelGen

/-! ## Taking declarations out -/

/-- The number of places below `place` that stay. -/
def keptBelow (dropped : Finset Nat) (place : Nat) : Nat :=
  (List.range place).countP (· ∉ dropped)

/-- The table for the declarations that stay, at the places that they have then. -/
def MetadataTable.without (t : MetadataTable) (dropped : Finset Nat) : MetadataTable :=
  ⟨(t.entries.filter (·.1 ∉ dropped)).map fun e => (keptBelow dropped e.1, e.2)⟩

namespace Generator

/-- The declarations that stay, of those from `place` on. -/
def remainingFrom (dropped : Finset Nat) (place : Nat) (ds : List Host.Declaration) :
    List Host.Declaration :=
  ((ds.zipIdx place).filter (·.2 ∉ dropped)).map Prod.fst

/-- The declarations of a unit that stay. -/
def remaining (dropped : Finset Nat) (ds : List Host.Declaration) : List Host.Declaration :=
  remainingFrom dropped 0 ds

end Generator

section Places

variable {dropped : Finset Nat}

theorem keptBelow_succ_of_mem {place : Nat} (h : place ∈ dropped) :
    keptBelow dropped (place + 1) = keptBelow dropped place := by
  rw [keptBelow, List.range_succ, List.countP_append, keptBelow]
  simp [h]

theorem keptBelow_succ_of_notMem {place : Nat} (h : place ∉ dropped) :
    keptBelow dropped (place + 1) = keptBelow dropped place + 1 := by
  rw [keptBelow, List.range_succ, List.countP_append, keptBelow]
  simp [h]

theorem keptBelow_mono {i j : Nat} (h : i ≤ j) : keptBelow dropped i ≤ keptBelow dropped j :=
  (List.range_sublist.2 h).countP_le

theorem keptBelow_lt {i j : Nat} (hlt : i < j) (hi : i ∉ dropped) :
    keptBelow dropped i < keptBelow dropped j := by
  calc keptBelow dropped i < keptBelow dropped i + 1 := Nat.lt_succ_self _
    _ = keptBelow dropped (i + 1) := (keptBelow_succ_of_notMem hi).symm
    _ ≤ keptBelow dropped j := keptBelow_mono hlt

/-- Two places that stay become different places. -/
theorem keptBelow_inj {i j : Nat} (hi : i ∉ dropped) (hj : j ∉ dropped) :
    keptBelow dropped i = keptBelow dropped j ↔ i = j := by
  refine ⟨fun h => ?_, congrArg _⟩
  rcases Nat.lt_trichotomy i j with hlt | heq | hlt
  · exact absurd h (keptBelow_lt hlt hi).ne
  · exact heq
  · exact absurd h (keptBelow_lt hlt hj).ne'

/-- The metadata of a declaration that stays stays with it. -/
theorem MetadataTable.get?_without (t : MetadataTable) {place : Nat} (h : place ∉ dropped) :
    (t.without dropped).get? (keptBelow dropped place) = t.get? place := by
  unfold MetadataTable.without MetadataTable.get?
  induction t.entries with
  | nil => rfl
  | cons e es ih =>
    rw [List.lookup_cons]
    by_cases he : e.1 ∈ dropped
    · have hne : (place == e.1) = false := by
        rw [beq_eq_false_iff_ne]
        rintro rfl
        exact h he
      rw [List.filter_cons_of_neg (by simpa using he), ih, hne]
    · have hsame : (keptBelow dropped place == keptBelow dropped e.1) = (place == e.1) := by
        rw [Bool.eq_iff_iff, beq_iff_eq, beq_iff_eq, keptBelow_inj h he]
      rw [List.filter_cons_of_pos (by simpa using he), List.map_cons, List.lookup_cons, ih, hsame]

end Places

namespace Generator

theorem remainingFrom_cons_of_mem {dropped : Finset Nat} {place : Nat} (h : place ∈ dropped)
    (d : Host.Declaration) (ds : List Host.Declaration) :
    remainingFrom dropped place (d :: ds) = remainingFrom dropped (place + 1) ds := by
  rw [remainingFrom, List.zipIdx_cons, List.filter_cons_of_neg (by simpa using h), remainingFrom]

theorem remainingFrom_cons_of_notMem {dropped : Finset Nat} {place : Nat} (h : place ∉ dropped)
    (d : Host.Declaration) (ds : List Host.Declaration) :
    remainingFrom dropped place (d :: ds) = d :: remainingFrom dropped (place + 1) ds := by
  rw [remainingFrom, List.zipIdx_cons, List.filter_cons_of_pos (by simpa using h), List.map_cons,
    remainingFrom]

/-! ## What has no claim -/

section Unit

variable (g : Generator) (ds : List Host.Declaration) (t : MetadataTable)

/-- The declaration at a place claims nothing: it has no metadata, or its operator has no mapping,
or an earlier declaration claims that. -/
inductive Unclaimed (i : Nat) : Prop where
  | unannotated : t.get? i = none → Unclaimed i
  | unmapped {name : String} : LinksAt g ds t i name → g.mappings.get? name = none → Unclaimed i
  | taken {name : String} {j : Nat} : LinksAt g ds t i name → j < i → ClaimsAt g ds t j name →
      Unclaimed i

end Unit

/-- The loop has nothing to take at a place, as far as it can be told from the table it holds. -/
def PassedOver (o : Options) (t : MetadataTable) (place : Nat) (ds : List Host.Declaration)
    (mappings : MappingTable) (i : Nat) : Prop :=
  t.get? i = none ∨ ∃ name, LinksFrom o t place ds i name ∧
    (mappings.get? name = none ∨ ∃ j < i, LinksFrom o t place ds j name)

variable {o : Options} {t t' : MetadataTable} {mappings mid left : MappingTable}
  {ds : List Host.Declaration} {ks : List KernelFunction} {place : Nat} {d : Host.Declaration}

theorem Unclaimed.passedOver {g : Generator} {i : Nat} (h : Unclaimed g ds t i) :
    PassedOver g.options t 0 ds g.mappings i := by
  cases h with
  | unannotated hnone => exact .inl hnone
  | unmapped hlinks hnone => exact .inr ⟨_, linksFrom_zero.2 hlinks, .inl hnone⟩
  | taken hlinks hlt hclaims =>
    exact .inr ⟨_, linksFrom_zero.2 hlinks, .inr ⟨_, hlt, linksFrom_zero.2 hclaims.1⟩⟩

/-! ## The loop -/

/-- At a declaration that has no claim, the table that is held has nothing to take. -/
theorem PassedOver.get?_eq_none {m : Metadata} {f : LinkedFunction}
    (h : PassedOver o t place (d :: ds) mappings place) (hmeta : t.get? place = some m)
    (hf : LinksTo o (d, m) f) : mappings.get? f.operator = none := by
  rcases h with hnone | ⟨name, hlinks, hnone | ⟨j, hj, hlinksj⟩⟩
  · cases hnone.symm.trans hmeta
  · rw [hlinks.eq_operator hmeta hf]
    exact hnone
  · exact absurd hlinksj.le (Nat.not_le_of_lt hj)

/-- What has no claim before a declaration has none behind it, if what the declaration is linked
to has no mapping there, and nothing has come back into the table. -/
theorem PassedOver.behind {i : Nat} (h : PassedOver o t place (d :: ds) mappings i)
    (hlt : place < i) (hkept : ∀ name, mappings.get? name = none → mid.get? name = none)
    (htaken : ∀ name, LinksFrom o t place (d :: ds) place name → mid.get? name = none) :
    PassedOver o t (place + 1) ds mid i := by
  rcases h with hnone | ⟨name, hlinks, hnone | ⟨j, hj, hlinksj⟩⟩
  · exact .inl hnone
  · exact .inr ⟨name, hlinks.tail hlt, .inl (hkept name hnone)⟩
  · refine .inr ⟨name, hlinks.tail hlt, ?_⟩
    rcases Nat.eq_or_lt_of_le hlinksj.le with rfl | hplace
    · exact .inl (htaken name hlinksj)
    · exact .inr ⟨j, hj, hlinksj.tail hplace⟩

/-- The loop has nothing to take at any of the declarations that go. -/
def PassesOver (dropped : Finset Nat) (o : Options) (t : MetadataTable) (place : Nat)
    (ds : List Host.Declaration) (mappings : MappingTable) : Prop :=
  ∀ d i, (d, i) ∈ ds.zipIdx place → i ∈ dropped → PassedOver o t place ds mappings i

theorem PassesOver.here {dropped : Finset Nat} (h : PassesOver dropped o t place (d :: ds) mappings)
    (hplace : place ∈ dropped) : PassedOver o t place (d :: ds) mappings place :=
  h d place List.mem_cons_self hplace

theorem PassesOver.behind {dropped : Finset Nat}
    (h : PassesOver dropped o t place (d :: ds) mappings)
    (hkept : ∀ name, mappings.get? name = none → mid.get? name = none)
    (htaken : ∀ name, LinksFrom o t place (d :: ds) place name → mid.get? name = none) :
    PassesOver dropped o t (place + 1) ds mid := fun d' i hmem hi =>
  (h d' i (List.mem_cons_of_mem _ hmem) hi).behind (List.le_snd_of_mem_zipIdx hmem) hkept htaken

/-- Without declarations that have no claim the loop ends with the same functions and the same
table. -/
theorem Loop.without {dropped : Finset Nat}
    (ht : ∀ i, i ∉ dropped → t'.get? (keptBelow dropped i) = t.get? i)
    (hloop : Loop o t place ds mappings ks left)
    (hdropped : PassesOver dropped o t place ds mappings) :
    Loop o t' (keptBelow dropped place) (remainingFrom dropped place ds) mappings ks left := by
  -- both loops hold the same table, at every declaration that stays
  induction hloop with
  | done => exact .done
  | @unannotated place d ds mappings left ks hmeta _ ih =>
    have hrest := ih (hdropped.behind (fun _ hname => hname) fun name hlinks =>
      absurd hmeta hlinks.annotated)
    by_cases hplace : place ∈ dropped
    · rw [remainingFrom_cons_of_mem hplace, ← keptBelow_succ_of_mem hplace]
      exact hrest
    · rw [keptBelow_succ_of_notMem hplace] at hrest
      rw [remainingFrom_cons_of_notMem hplace]
      exact .unannotated ((ht place hplace).trans hmeta) hrest
  | @unmapped place d ds m mappings left ks f hmeta hf hnone _ ih =>
    have hrest := ih (hdropped.behind (fun _ hname => hname) fun name hlinks =>
      hlinks.eq_operator hmeta hf ▸ hnone)
    by_cases hplace : place ∈ dropped
    · rw [remainingFrom_cons_of_mem hplace, ← keptBelow_succ_of_mem hplace]
      exact hrest
    · rw [keptBelow_succ_of_notMem hplace] at hrest
      rw [remainingFrom_cons_of_notMem hplace]
      exact .unmapped ((ht place hplace).trans hmeta) hf hnone hrest
  | @claimed place d ds m mappings left ks f mapping k hmeta hf hmapping hk _ ih =>
    have hplace : place ∉ dropped := fun hplace => by
      cases hmapping.symm.trans ((hdropped.here hplace).get?_eq_none hmeta hf)
    have hkept : ∀ name, mappings.get? name = none →
        (mappings.erase f.operator).get? name = none := by
      intro name hname
      rw [NameTable.get?_erase, hname, ite_self]
    have htaken : ∀ name, LinksFrom o t place (d :: ds) place name →
        (mappings.erase f.operator).get? name = none := by
      intro name hlinks
      rw [NameTable.get?_erase, if_pos (hlinks.eq_operator hmeta hf).symm]
    have hrest := ih (hdropped.behind hkept htaken)
    rw [keptBelow_succ_of_notMem hplace] at hrest
    rw [remainingFrom_cons_of_notMem hplace]
    exact .claimed ((ht place hplace).trans hmeta) hf hmapping hk hrest

/-! ## The run -/

/-- In a run that succeeds, what has no claim is what claims nothing. -/
theorem unclaimed_iff {g : Generator} {digest : String} {out : Generated}
    (hout : (g.runOn ds t digest).result = .ok out) {i : Nat} (hi : i < ds.length) :
    Unclaimed g ds t i ↔ ∀ name, ¬ ClaimsAt g ds t i name := by
  constructor
  · rintro h name ⟨hlinks, hmapped, hfirst⟩
    cases h with
    | unannotated hnone =>
      obtain ⟨d, m, f, -, hmeta, -⟩ := hlinks
      cases hnone.symm.trans hmeta
    | unmapped hlinks' hnone =>
      rw [hlinks'.unique hlinks] at hnone
      rw [NameTable.contains, hnone] at hmapped
      cases hmapped
    | taken hlinks' hlt hclaims =>
      rw [hlinks'.unique hlinks] at hclaims
      exact hfirst _ hlt hclaims.1
  · intro hnot
    cases hmeta : t.get? i with
    | none => exact .unannotated hmeta
    | some m =>
      obtain ⟨name, hlinks⟩ := exists_linksAt hout (List.getElem?_eq_getElem hi) hmeta
      cases hmapping : g.mappings.get? name with
      | none => exact .unmapped hlinks hmapping
      | some mapping =>
        have hmapped : g.mappings.contains name = true := by
          rw [NameTable.contains, hmapping]
          rfl
        -- the first declaration that is linked to the operator claims the mapping
        classical
        have hsome : ∃ j, LinksAt g ds t j name := ⟨i, hlinks⟩
        have hclaims : ClaimsAt g ds t (Nat.find hsome) name :=
          ⟨Nat.find_spec hsome, hmapped, fun j hj => Nat.find_min hsome hj⟩
        rcases Nat.eq_or_lt_of_le (Nat.find_min' hsome hlinks) with heq | hlt
        · exact absurd (heq ▸ hclaims) (hnot name)
        · exact .taken hlinks hlt hclaims

/-- **Declarations without a claim leave no trace.**  When a run succeeds, and a set of
declarations claims nothing, the run without them succeeds as well, and its output is the same. -/
theorem runOn_without (g : Generator) (ds : List Host.Declaration) (t : MetadataTable)
    (digest : String) (out : Generated) (dropped : Finset Nat)
    (hout : (g.runOn ds t digest).result = .ok out)
    (hdropped : ∀ i ∈ dropped, i < ds.length → Unclaimed g ds t i) :
    (g.runOn (remaining dropped ds) (t.without dropped) digest).result = .ok out := by
  obtain ⟨ks, left, hloop, hempty, rfl⟩ := runOn_eq_ok.1 hout
  have hpasses : PassesOver dropped g.options t 0 ds g.mappings := by
    intro d i hmem hi
    have hd : ds[i]? = some d := List.mk_mem_zipIdx_iff_getElem?.1 hmem
    exact (hdropped i hi (List.getElem?_eq_some_iff.1 hd).1).passedOver
  exact runOn_eq_ok.2 ⟨ks, left, hloop.without (fun i hi => t.get?_without hi) hpasses, hempty, rfl⟩

/-- The operator of a declaration whose operator has no mapping. -/
def tanhMetadata : Metadata := ⟨"aten::tanh(Tensor self) -> Tensor", true, false⟩

/-- A unit in which the third declaration claims the one mapping.  The first has no metadata, the
operator of the second has no mapping, and the last comes too late. -/
def mixedUnit : List Host.Declaration :=
  ["clamp", "tanh", "relu", "relu_again"].map unaryDeclaration

/-- The metadata of the unit. -/
def mixedTable : MetadataTable := ⟨[(1, tanhMetadata), (2, reluMetadata), (3, reluMetadata)]⟩

/-- The declaration whose operator has no mapping, linked to it. -/
def tanhFunction : LinkedFunction where
  __ := reluFunction "ort_tanh"
  metadata := tanhMetadata
  signature := { (reluFunction "ort_tanh").signature with path := ["aten", "tanh"] }

theorem runOn_without_mixed : ∃ out,
    (reluGenerator.runOn mixedUnit mixedTable "").result = .ok out ∧
    (reluGenerator.runOn [unaryDeclaration "relu"] ⟨[(0, reluMetadata)]⟩ "").result = .ok out := by
  have htanh : LinksTo reluGenerator.options (unaryDeclaration "tanh", tanhMetadata)
      tanhFunction := by unfold LinksTo; cbv
  have hrelu : LinksTo reluGenerator.options (unaryDeclaration "relu", reluMetadata)
      (reluFunction "ort_relu") := by unfold LinksTo; cbv
  have hagain : LinksTo reluGenerator.options (unaryDeclaration "relu_again", reluMetadata)
      (reluFunction "ort_relu_again") := by unfold LinksTo; cbv
  have hlink : List.Forall₂ (LinksTo reluGenerator.options) (annotated mixedTable 0 mixedUnit)
      [tanhFunction, reluFunction "ort_relu", reluFunction "ort_relu_again"] :=
    .cons htanh (.cons hrelu (.cons hagain .nil))
  have hclaims : claims reluGenerator.mappings
      [tanhFunction, reluFunction "ort_relu", reluFunction "ort_relu_again"] =
        [(reluFunction "ort_relu", .signatureOnly)] := by cbv
  have hwrite : List.Forall₂ WrittenAs (claims reluGenerator.mappings
      [tanhFunction, reluFunction "ort_relu", reluFunction "ort_relu_again"])
        [⟨reluFunction "ort_relu", none⟩] := by
    rw [hclaims]
    exact .cons rfl .nil
  have hcovered : ∀ name ∈ reluGenerator.mappings.names,
      ∃ f ∈ [tanhFunction, reluFunction "ort_relu", reluFunction "ort_relu_again"],
        f.operator = name := by
    intro name hname
    refine ⟨_, List.mem_cons_of_mem _ List.mem_cons_self, ?_⟩
    rw [List.mem_singleton.1 hname]
    cbv
  obtain ⟨out, hout⟩ := (exists_output_iff hlink hwrite "").2 hcovered
  have htanhAt : LinksAt reluGenerator mixedUnit mixedTable 1 tanhFunction.operator :=
    ⟨_, _, _, rfl, rfl, htanh, rfl⟩
  have hreluAt : LinksAt reluGenerator mixedUnit mixedTable 2 "aten::relu" :=
    ⟨_, _, _, rfl, rfl, hrelu, by cbv⟩
  have hagainAt : LinksAt reluGenerator mixedUnit mixedTable 3 "aten::relu" :=
    ⟨_, _, _, rfl, rfl, hagain, by cbv⟩
  have hfirst : ∀ j < 2, ¬ LinksAt reluGenerator mixedUnit mixedTable j "aten::relu" := by
    intro j hj hlinks
    interval_cases j
    · obtain ⟨-, m, -, -, hmeta, -⟩ := hlinks
      cases hmeta
    · have hne : tanhFunction.operator ≠ "aten::relu" := by decide
      exact hne (htanhAt.unique hlinks)
  have hdropped : ∀ i ∈ ({0, 1, 3} : Finset Nat), i < mixedUnit.length →
      Unclaimed reluGenerator mixedUnit mixedTable i := by
    intro i hi _
    fin_cases hi
    · exact .unannotated rfl
    · exact .unmapped htanhAt (by cbv)
    · exact .taken hagainAt (by decide : 2 < 3) ⟨hreluAt, by cbv, hfirst⟩
  have hsame := runOn_without reluGenerator mixedUnit mixedTable "" out {0, 1, 3} hout hdropped
  have hunit : remaining {0, 1, 3} mixedUnit = [unaryDeclaration "relu"] := rfl
  have htable : mixedTable.without {0, 1, 3} = ⟨[(0, reluMetadata)]⟩ := by decide
  rw [hunit, htable] at hsame
  exact ⟨out, hout, hsame⟩

end Generator

end KernelGen
