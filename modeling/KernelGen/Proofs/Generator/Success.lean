import KernelGen.Proofs.Generator.Accounting
set_option autoImplicit false

/-!
# Generator: what a run that succeeds went through

`Generator.Accounting` says how a run ends when all declarations with metadata can be linked and
all claims can be written.  Here is the converse.  `Loop` lists what the loop can do at a
declaration, and a loop that succeeds is a way through its rules; what holds of all runs that
succeed is proved by induction on these ways, and the loop itself is opened nowhere else.
-/

namespace KernelGen.Generator

/-- The loop goes through declarations, the first of which is at a place, from one table to
another, and writes functions. -/
inductive Loop (o : Options) (t : MetadataTable) : Nat → List Host.Declaration → MappingTable →
    List KernelFunction → MappingTable → Prop where
  | done {place : Nat} {mappings : MappingTable} : Loop o t place [] mappings [] mappings
  | unannotated {place : Nat} {d : Host.Declaration} {ds : List Host.Declaration}
      {mappings left : MappingTable} {ks : List KernelFunction} : t.get? place = none →
      Loop o t (place + 1) ds mappings ks left → Loop o t place (d :: ds) mappings ks left
  | unmapped {place : Nat} {d : Host.Declaration} {ds : List Host.Declaration} {m : Metadata}
      {mappings left : MappingTable} {ks : List KernelFunction} {f : LinkedFunction} :
      t.get? place = some m → LinksTo o (d, m) f → mappings.get? f.operator = none →
      Loop o t (place + 1) ds mappings ks left → Loop o t place (d :: ds) mappings ks left
  | claimed {place : Nat} {d : Host.Declaration} {ds : List Host.Declaration} {m : Metadata}
      {mappings left : MappingTable} {ks : List KernelFunction} {f : LinkedFunction}
      {mapping : Mapping} {k : KernelFunction} :
      t.get? place = some m → LinksTo o (d, m) f → mappings.get? f.operator = some mapping →
      WrittenAs (f, mapping) k → Loop o t (place + 1) ds (mappings.erase f.operator) ks left →
      Loop o t place (d :: ds) mappings (k :: ks) left

variable {o : Options} {t : MetadataTable} {mappings left : MappingTable}
  {ds : List Host.Declaration} {ks : List KernelFunction} {place : Nat} {d : Host.Declaration}

/-- What a claim that succeeds did: it passed the declaration over, or it wrote a function and took
its mapping. -/
theorem claim_eq_ok {m : Metadata} {k? : Option KernelFunction}
    (h : (claim o mappings d m).result = .ok (k?, left)) :
    ∃ f, LinksTo o (d, m) f ∧
      ((mappings.get? f.operator = none ∧ k? = none ∧ left = mappings) ∨
        ∃ mapping k, mappings.get? f.operator = some mapping ∧ WrittenAs (f, mapping) k ∧
          k? = some k ∧ left = mappings.erase f.operator) := by
  obtain ⟨f, hf, h⟩ := Outcome.result_bind_eq_ok.1 h
  refine ⟨f, hf, ?_⟩
  cases hmapping : mappings.get? f.operator with
  | none =>
    rw [hmapping] at h
    obtain ⟨-, -, h⟩ := Outcome.result_bind_eq_ok.1 h
    cases h
    exact .inl ⟨rfl, rfl, rfl⟩
  | some mapping =>
    rw [hmapping] at h
    obtain ⟨k, hk, h⟩ := Outcome.result_bind_eq_ok.1 h
    obtain ⟨-, -, h⟩ := Outcome.result_bind_eq_ok.1 h
    cases h
    refine .inr ⟨mapping, k, rfl, ?_, rfl, rfl⟩
    have hmap : ((KernelFunction.ofMapping f mapping).mapError Failure.ofCause).result =
        (KernelFunction.ofMapping f mapping).result.mapError Failure.ofCause := rfl
    rw [hmap] at hk
    unfold WrittenAs
    cases hresult : (KernelFunction.ofMapping f mapping).result with
    | error e =>
      rw [hresult] at hk
      cases hk
    | ok k' =>
      rw [hresult] at hk
      cases hk
      rfl

/-- A loop that succeeds followed the rules, and whatever follows them succeeds. -/
theorem claimAll_eq_ok :
    (claimAll o t place ds mappings).result = .ok (ks, left) ↔
      Loop o t place ds mappings ks left := by
  constructor
  · intro h
    induction ds generalizing place mappings ks left with
    | nil =>
      cases h
      exact .done
    | cons d ds ih =>
      cases hmeta : t.get? place with
      | none =>
        rw [claimAll, hmeta, Outcome.result_bind] at h
        exact .unannotated hmeta (ih h)
      | some m =>
        rw [claimAll, hmeta] at h
        obtain ⟨⟨k?, mid⟩, hclaim, h⟩ := Outcome.result_bind_eq_ok.1 h
        obtain ⟨⟨ks', left'⟩, hrest, h⟩ := Outcome.result_bind_eq_ok.1 h
        cases h
        obtain ⟨f, hf, ⟨hnone, rfl, rfl⟩ | ⟨mapping, k, hmapping, hk, rfl, rfl⟩⟩ :=
          claim_eq_ok hclaim
        · exact .unmapped hmeta hf hnone (ih hrest)
        · exact .claimed hmeta hf hmapping hk (ih hrest)
  · intro h
    induction h with
    | done => rfl
    | unannotated hmeta _ ih =>
      rw [claimAll, hmeta]
      exact Outcome.result_bind_eq_ok.2 ⟨(), rfl, ih⟩
    | unmapped hmeta hf hnone _ ih =>
      rw [claimAll, hmeta]
      refine Outcome.result_bind_eq_ok.2 ⟨_, result_claim_none hf hnone, ?_⟩
      exact Outcome.result_bind_eq_ok.2 ⟨_, ih, rfl⟩
    | claimed hmeta hf hmapping hk _ ih =>
      rw [claimAll, hmeta]
      refine Outcome.result_bind_eq_ok.2 ⟨_, result_claim_some hf hmapping hk, ?_⟩
      exact Outcome.result_bind_eq_ok.2 ⟨_, ih, rfl⟩

/-- A loop that succeeds linked all declarations with metadata, and wrote the claims. -/
theorem Loop.exists_linked (h : Loop o t place ds mappings ks left) :
    ∃ fs, List.Forall₂ (LinksTo o) (annotated t place ds) fs ∧
      List.Forall₂ WrittenAs (claims mappings fs) ks := by
  induction h with
  | done => exact ⟨[], .nil, .nil⟩
  | unannotated hmeta _ ih =>
    rw [annotated_cons_none hmeta]
    exact ih
  | @unmapped _ _ _ _ _ _ _ f hmeta hf hnone _ ih =>
    obtain ⟨fs, hlink, hwrite⟩ := ih
    rw [annotated_cons_some hmeta]
    refine ⟨f :: fs, .cons hf hlink, ?_⟩
    rw [claims_cons_none hnone]
    exact hwrite
  | @claimed _ _ _ _ _ _ _ f _ _ hmeta hf hmapping hk _ ih =>
    obtain ⟨fs, hlink, hwrite⟩ := ih
    rw [annotated_cons_some hmeta]
    refine ⟨f :: fs, .cons hf hlink, ?_⟩
    rw [claims_cons_some hmapping]
    exact .cons hk hwrite

/-- A run succeeds when its loop does and leaves nothing in the table. -/
theorem runOn_eq_ok {g : Generator} {digest : String} {out : Generated} :
    (g.runOn ds t digest).result = .ok out ↔
      ∃ ks left, Loop g.options t 0 ds g.mappings ks left ∧ left.isEmpty = true ∧
        out = ⟨(SourceFile.mk g.options digest ks).text, ks.map (·.linked.operator)⟩ := by
  unfold runOn
  constructor
  · intro h
    obtain ⟨⟨ks, left⟩, hloop, h⟩ := Outcome.result_bind_eq_ok.1 h
    cases hempty : left.isEmpty with
    | false =>
      simp only [hempty] at h
      cases h
    | true =>
      simp only [hempty] at h
      cases h
      exact ⟨ks, left, claimAll_eq_ok.1 hloop, hempty, rfl⟩
  · rintro ⟨ks, left, hloop, hempty, rfl⟩
    refine Outcome.result_bind_eq_ok.2 ⟨_, claimAll_eq_ok.2 hloop, ?_⟩
    simp only [hempty]
    rfl

/-! ## Which declaration claims what -/

/-- The declaration at a place has metadata and is linked to an operator.  The first declaration
is at `place`. -/
def LinksFrom (o : Options) (t : MetadataTable) (place : Nat) (ds : List Host.Declaration) (i : Nat)
    (name : String) : Prop :=
  ∃ d m f, (d, i) ∈ ds.zipIdx place ∧ t.get? i = some m ∧ LinksTo o (d, m) f ∧ f.operator = name

section Unit

variable (g : Generator) (ds : List Host.Declaration) (t : MetadataTable)

/-- The declaration at a place has metadata and is linked to an operator. -/
def LinksAt (i : Nat) (name : String) : Prop :=
  ∃ d m f, ds[i]? = some d ∧ t.get? i = some m ∧ LinksTo g.options (d, m) f ∧ f.operator = name

/-- The declaration at a place claims a mapping: it is the first that is linked to its operator. -/
def ClaimsAt (i : Nat) (name : String) : Prop :=
  LinksAt g ds t i name ∧ g.mappings.contains name = true ∧ ∀ j < i, ¬ LinksAt g ds t j name

end Unit

theorem linksFrom_zero {g : Generator} {i : Nat} {name : String} :
    LinksFrom g.options t 0 ds i name ↔ LinksAt g ds t i name := by
  unfold LinksFrom LinksAt
  simp only [List.mk_mem_zipIdx_iff_getElem?]

theorem LinksFrom.le {i : Nat} {name : String} (h : LinksFrom o t place ds i name) : place ≤ i := by
  obtain ⟨d, m, f, hmem, -⟩ := h
  exact List.le_snd_of_mem_zipIdx hmem

theorem LinksFrom.annotated {i : Nat} {name : String} (h : LinksFrom o t place ds i name) :
    t.get? i ≠ none := by
  obtain ⟨d, m, f, -, hm, -⟩ := h
  rw [hm]
  exact Option.some_ne_none m

theorem LinksFrom.tail {i : Nat} {name : String} (h : LinksFrom o t place (d :: ds) i name)
    (hlt : place < i) : LinksFrom o t (place + 1) ds i name := by
  obtain ⟨d', m, f, hmem, hrest⟩ := h
  rw [List.zipIdx_cons] at hmem
  rcases List.mem_cons.1 hmem with heq | hmem
  · obtain ⟨-, rfl⟩ := Prod.mk.inj heq
    exact absurd hlt (Nat.lt_irrefl _)
  · exact ⟨d', m, f, hmem, hrest⟩

/-- A declaration is linked to one operator. -/
theorem LinksFrom.eq_operator {m : Metadata} {f : LinkedFunction} {name : String}
    (h : LinksFrom o t place (d :: ds) place name) (hmeta : t.get? place = some m)
    (hf : LinksTo o (d, m) f) : f.operator = name := by
  obtain ⟨d', m', f', hmem, hmeta', hf', rfl⟩ := h
  have hd : d' = d := by
    rw [List.zipIdx_cons] at hmem
    rcases List.mem_cons.1 hmem with heq | hmem
    · exact (Prod.mk.inj heq).1
    · exact absurd (List.le_snd_of_mem_zipIdx hmem) (Nat.not_succ_le_self place)
  have hm : m' = m := Option.some.inj (hmeta'.symm.trans hmeta)
  subst hd hm
  exact congrArg LinkedFunction.operator (Except.ok.inj (hf.symm.trans hf'))

/-- In a run that succeeds every declaration with metadata is linked. -/
theorem exists_linksAt {g : Generator} {digest : String} {out : Generated}
    (hout : (g.runOn ds t digest).result = .ok out) {i : Nat} {m : Metadata}
    (hd : ds[i]? = some d) (hmeta : t.get? i = some m) :
    ∃ name, LinksAt g ds t i name := by
  obtain ⟨ks, left, hloop, -, -⟩ := runOn_eq_ok.1 hout
  obtain ⟨fs, hlink, -⟩ := hloop.exists_linked
  have hmem : (d, m) ∈ annotated t 0 ds := by
    refine List.mem_filterMap.2 ⟨(d, i), List.mk_mem_zipIdx_iff_getElem?.2 hd, ?_⟩
    rw [hmeta]
    rfl
  obtain ⟨n, hn, hget⟩ := List.mem_iff_getElem.1 hmem
  have hn' : n < fs.length := hlink.length_eq ▸ hn
  have hf : LinksTo g.options (d, m) fs[n] := hget ▸ hlink.get hn hn'
  exact ⟨_, d, m, fs[n], hd, hmeta, hf, rfl⟩

/-- A declaration is linked to one operator. -/
theorem LinksAt.unique {g : Generator} {i : Nat} {a b : String} (ha : LinksAt g ds t i a)
    (hb : LinksAt g ds t i b) : a = b := by
  obtain ⟨d, m, f, hd, hm, hf, rfl⟩ := ha
  obtain ⟨d', m', f', hd', hm', hf', rfl⟩ := hb
  cases hd.symm.trans hd'
  cases hm.symm.trans hm'
  exact congrArg LinkedFunction.operator (Except.ok.inj (hf.symm.trans hf'))

end KernelGen.Generator
