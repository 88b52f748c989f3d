import Mathlib
import KernelGen.Proofs.Generator.Claims
import KernelGen.Proofs.Kernel.SourceFileText
import KernelGen.Proofs.Link
set_option autoImplicit false

/-!
# Generator: every mapping is accounted for

When all declarations with metadata can be linked and all claims can be written, nothing but the
table decides how a run ends.  The loop writes the function of each claim, in order, and takes
the operators of all linked functions out of the table; so the run succeeds exactly when these
operators cover the table, and otherwise it names those that they do not cover.
-/

namespace KernelGen

open Generator

namespace Generator

/-- A declaration with metadata is linked, under its new name, to a function. -/
def LinksTo (o : Options) (a : Host.Declaration × Metadata) (f : LinkedFunction) : Prop :=
  (link (renamed o a.1) a.2).result = .ok f

/-- A claim is written as a function. -/
def WrittenAs (c : LinkedFunction × Mapping) (k : KernelFunction) : Prop :=
  (KernelFunction.ofMapping c.1 c.2).result = .ok k

variable {o : Options} {t : MetadataTable} {mappings : MappingTable}
  {fs : List LinkedFunction} {ks : List KernelFunction}

/-! ## The loop -/

theorem result_claim_none {d : Host.Declaration} {m : Metadata} {f : LinkedFunction}
    (hf : LinksTo o (d, m) f) (hmapping : mappings.get? f.operator = none) :
    (claim o mappings d m).result = .ok (none, mappings) := by
  refine Outcome.result_bind_eq_ok.2 ⟨f, hf, ?_⟩
  rw [hmapping]
  exact Outcome.result_bind_eq_ok.2 ⟨(), rfl, rfl⟩

theorem result_claim_some {d : Host.Declaration} {m : Metadata} {f : LinkedFunction}
    {mapping : Mapping} {k : KernelFunction} (hf : LinksTo o (d, m) f)
    (hmapping : mappings.get? f.operator = some mapping) (hk : WrittenAs (f, mapping) k) :
    (claim o mappings d m).result = .ok (some k, mappings.erase f.operator) := by
  refine Outcome.result_bind_eq_ok.2 ⟨f, hf, ?_⟩
  rw [hmapping]
  refine Outcome.result_bind_eq_ok.2 ⟨k, ?_, ?_⟩
  · have hmap : ((KernelFunction.ofMapping f mapping).mapError Failure.ofCause).result =
        (KernelFunction.ofMapping f mapping).result.mapError Failure.ofCause := rfl
    rw [hmap, show (KernelFunction.ofMapping f mapping).result = .ok k from hk]
    rfl
  · exact Outcome.result_bind_eq_ok.2 ⟨(), rfl, rfl⟩

/-- The loop writes the claims, in order, and takes the operators of all linked functions out
of the table, those without a mapping and the later ones of an operator included. -/
theorem result_claimAll {place : Nat} {ds : List Host.Declaration}
    (hlink : List.Forall₂ (LinksTo o) (annotated t place ds) fs)
    (hwrite : List.Forall₂ WrittenAs (claims mappings fs) ks) :
    (claimAll o t place ds mappings).result =
      .ok (ks, mappings.eraseMany (fs.map LinkedFunction.operator)) := by
  induction ds generalizing place mappings fs ks with
  | nil =>
    cases hlink
    cases hwrite
    rfl
  | cons d ds ih =>
    cases hmeta : t.get? place with
    | none =>
      rw [annotated_cons_none hmeta] at hlink
      rw [claimAll, hmeta]
      exact Outcome.result_bind_eq_ok.2 ⟨(), rfl, ih hlink hwrite⟩
    | some m =>
      rw [annotated_cons_some hmeta] at hlink
      obtain ⟨f, fs, hf, hfs, rfl⟩ := List.forall₂_cons_left_iff.1 hlink
      rw [claimAll, hmeta, List.map_cons]
      cases hmapping : mappings.get? f.operator with
      | none =>
        rw [claims_cons_none hmapping] at hwrite
        have hrest := ih hfs hwrite
        have herase : mappings.eraseMany (f.operator :: fs.map LinkedFunction.operator) =
            mappings.eraseMany (fs.map LinkedFunction.operator) := by
          rw [NameTable.eraseMany, List.foldl_cons, NameTable.erase_eq_self hmapping]
          rfl
        rw [herase]
        refine Outcome.result_bind_eq_ok.2 ⟨_, result_claim_none hf hmapping, ?_⟩
        exact Outcome.result_bind_eq_ok.2 ⟨_, hrest, rfl⟩
      | some mapping =>
        rw [claims_cons_some hmapping] at hwrite
        obtain ⟨k, ks, hk, hks, rfl⟩ := List.forall₂_cons_left_iff.1 hwrite
        have hrest := ih hfs hks
        refine Outcome.result_bind_eq_ok.2 ⟨_, result_claim_some hf hmapping hk, ?_⟩
        exact Outcome.result_bind_eq_ok.2 ⟨_, hrest, rfl⟩

/-! ## The run -/

/-- How a run ends, by what is left in the table. -/
theorem result_runOn {g : Generator} {ds : List Host.Declaration}
    (hlink : List.Forall₂ (LinksTo g.options) (annotated t 0 ds) fs)
    (hwrite : List.Forall₂ WrittenAs (claims g.mappings fs) ks) (digest : String) :
    (g.runOn ds t digest).result =
      if (g.mappings.eraseMany (fs.map LinkedFunction.operator)).isEmpty then
        .ok ⟨(SourceFile.mk g.options digest ks).text, ks.map (·.linked.operator)⟩
      else
        .error (.ofCause
          (.unclaimed (g.mappings.eraseMany (fs.map LinkedFunction.operator)).names)) := by
  unfold runOn
  rw [Outcome.result_bind, result_claimAll hlink hwrite]
  simp only [bind, Except.bind]
  cases (g.mappings.eraseMany (fs.map LinkedFunction.operator)).isEmpty <;> rfl

/-! ## What is left in the table -/

theorem isEmpty_eraseMany_iff :
    (mappings.eraseMany (fs.map LinkedFunction.operator)).isEmpty = true ↔
      ∀ name ∈ mappings.names, ∃ f ∈ fs, f.operator = name := by
  rw [NameTable.isEmpty_iff, NameTable.names_eraseMany, List.filter_eq_nil_iff]
  simp

theorem linked_of_writtenAs {cs : List (LinkedFunction × Mapping)}
    (h : List.Forall₂ WrittenAs cs ks) : ks.map KernelFunction.linked = cs.map Prod.fst := by
  induction h with
  | nil => rfl
  | cons hk _ ih => rw [List.map_cons, List.map_cons, linked_of_ofMapping hk, ih]

/-- Claims cover a table whose names are all operators of functions, each name once. -/
theorem operators_claims_perm (h : ∀ name ∈ mappings.names, ∃ f ∈ fs, f.operator = name) :
    ((claims mappings fs).map (·.1.operator)).Perm mappings.names := by
  rw [operators_claims]
  refine (List.perm_ext_iff_of_nodup ((nodup_eraseDups _).filter _)
    mappings.nodup_names).2 fun name => ?_
  rw [List.mem_filter, List.mem_eraseDups, ← NameTable.mem_names_iff, List.mem_map]
  constructor
  · rintro ⟨-, hmem⟩
    exact hmem
  · intro hmem
    exact ⟨h name hmem, hmem⟩

/-! ## How a run ends -/

/-- A run succeeds when the operators of its functions cover the table, and not otherwise. -/
theorem exists_output_iff {g : Generator} {ds : List Host.Declaration}
    (hlink : List.Forall₂ (LinksTo g.options) (annotated t 0 ds) fs)
    (hwrite : List.Forall₂ WrittenAs (claims g.mappings fs) ks) (digest : String) :
    (∃ out, (g.runOn ds t digest).result = .ok out) ↔
      ∀ name ∈ g.mappings.names, ∃ f ∈ fs, f.operator = name := by
  rw [result_runOn hlink hwrite digest, ← isEmpty_eraseMany_iff]
  split
  · rename_i hempty
    exact ⟨fun _ => hempty, fun _ => ⟨_, rfl⟩⟩
  · rename_i hleft
    constructor
    · rintro ⟨out, hout⟩
      cases hout
    · exact fun hempty => absurd hempty hleft

/-- The output of a run: the functions of the claims, in order, for all names of the table. -/
theorem output_of_runOn {g : Generator} {ds : List Host.Declaration} {digest : String}
    {out : Generated} (hlink : List.Forall₂ (LinksTo g.options) (annotated t 0 ds) fs)
    (hwrite : List.Forall₂ WrittenAs (claims g.mappings fs) ks)
    (hout : (g.runOn ds t digest).result = .ok out) :
    out.operators.Perm g.mappings.names ∧
      out.operators = (fs.map LinkedFunction.operator).eraseDups.filter g.mappings.contains ∧
      out.operators = ks.map (·.linked.operator) ∧
      out.text = (SourceFile.mk g.options digest ks).text := by
  have hcovers := (exists_output_iff hlink hwrite digest).1 ⟨out, hout⟩
  have hoperators : ks.map (·.linked.operator) = (claims g.mappings fs).map (·.1.operator) := by
    have h := congrArg (List.map LinkedFunction.operator) (linked_of_writtenAs hwrite)
    rw [List.map_map, List.map_map] at h
    exact h
  rw [result_runOn hlink hwrite digest, if_pos (isEmpty_eraseMany_iff.2 hcovers)] at hout
  cases hout
  refine ⟨?_, hoperators.trans (operators_claims _ _), rfl, rfl⟩
  rw [hoperators]
  exact operators_claims_perm hcovers

/-- A function on a tensor. -/
def unaryDeclaration (name : String) : Host.Declaration :=
  let tensor : Host.HostType := ⟨false, false, ["at", "Tensor"], [], []⟩
  ⟨tensor, name, [⟨tensor, some "self", none⟩], .endOfText .start [], .start⟩

/-- The operator that two declarations implement. -/
def reluMetadata : Metadata := ⟨"aten::relu(Tensor self) -> Tensor", true, false⟩

/-- A generator of the prototype of one operator, under another name. -/
def reluGenerator : Generator :=
  ⟨NameTable.empty.insert "aten::relu" .signatureOnly,
    { Options.standard with functionNamePrefix? := some "ort_" }⟩

/-- A declaration of the operator, linked to it. -/
def reluFunction (name : String) : LinkedFunction where
  declaration := unaryDeclaration name
  metadata := reluMetadata
  signature :=
    let tensor : Schema.SchemaType := ⟨.tensor, none, []⟩
    ⟨["aten", "relu"], none, [.value tensor (some "self") none], .value tensor⟩
  params := (unaryDeclaration name).params.map (.declared · [0])

end Generator

end KernelGen
