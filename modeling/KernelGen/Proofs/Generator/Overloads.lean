import KernelGen.Proofs.Generator.Success
set_option autoImplicit false

/-!
# Generator: the names that are registered

The entries of the registration block are in the name space of the operators, in which the
overloads of a function are told apart.  The functions they refer to keep the names of the
declarations they were written for, behind the prefix of the run, and these are names of the host,
in which overloads share one.  So no two entries are for one operator, and two entries refer to
one name exactly when the declarations that claim their operators have one.
-/

namespace KernelGen.Generator

/-- The declaration that claims the mapping of an operator. -/
def Claimant (g : Generator) (ds : List Host.Declaration) (t : MetadataTable) (name : String)
    (d : Host.Declaration) : Prop :=
  ∃ i, ds[i]? = some d ∧ ClaimsAt g ds t i name

variable {g : Generator} {o : Options} {t : MetadataTable} {mappings left : MappingTable}
  {ds : List Host.Declaration} {ks : List KernelFunction} {place : Nat}

/-! ## Names of functions -/

/-- A name behind the prefix of a run determines the name of the host. -/
theorem name_renamed_inj {d e : Host.Declaration} :
    (renamed o d).name = (renamed o e).name ↔ d.name = e.name := by
  unfold renamed
  cases o.functionNamePrefix? with
  | none => exact Iff.rfl
  | some functionNamePrefix => exact String.append_right_inj functionNamePrefix

/-- A mapping has one claimant. -/
theorem Claimant.unique {name : String} {d e : Host.Declaration} (hd : Claimant g ds t name d)
    (he : Claimant g ds t name e) : d = e := by
  obtain ⟨i, hi, hlinks, -, hfirst⟩ := hd
  obtain ⟨j, hj, hlinks', -, hfirst'⟩ := he
  have hij : i = j := by
    rcases Nat.lt_trichotomy i j with hlt | heq | hlt
    · exact absurd hlinks (hfirst' i hlt)
    · exact heq
    · exact absurd hlinks' (hfirst j hlt)
  subst hij
  exact Option.some.inj (hi.symm.trans hj)

/-- A function is for the first declaration that is linked to its operator. -/
def WrittenFor (o : Options) (t : MetadataTable) (place : Nat) (ds : List Host.Declaration)
    (k : KernelFunction) : Prop :=
  ∃ i d m, (d, i) ∈ ds.zipIdx place ∧ t.get? i = some m ∧ LinksTo o (d, m) k.linked ∧
    ∀ j < i, ¬ LinksFrom o t place ds j k.linked.operator

theorem WrittenFor.cons {d : Host.Declaration} {k : KernelFunction}
    (h : WrittenFor o t (place + 1) ds k)
    (hnot : ¬ LinksFrom o t place (d :: ds) place k.linked.operator) :
    WrittenFor o t place (d :: ds) k := by
  obtain ⟨i, d', m, hmem, hm, hf, hfirst⟩ := h
  refine ⟨i, d', m, List.mem_cons_of_mem _ hmem, hm, hf, fun j hj hlinks => ?_⟩
  rcases Nat.eq_or_lt_of_le hlinks.le with rfl | hlt
  · exact hnot hlinks
  · exact hfirst j hj (hlinks.tail hlt)

/-- Each function that the loop writes takes a mapping, and is for the first declaration that is
linked to its operator: of an operator that was linked before, the table has no mapping left. -/
theorem Loop.writtenFor (hloop : Loop o t place ds mappings ks left) {k : KernelFunction}
    (hk : k ∈ ks) :
    mappings.contains k.linked.operator = true ∧ WrittenFor o t place ds k := by
  induction hloop with
  | done => cases hk
  | unannotated hmeta _ ih =>
    obtain ⟨hmapped, hfor⟩ := ih hk
    exact ⟨hmapped, hfor.cons fun hlinks => hlinks.annotated hmeta⟩
  | unmapped hmeta hf hnone _ ih =>
    obtain ⟨hmapped, hfor⟩ := ih hk
    refine ⟨hmapped, hfor.cons fun hlinks => ?_⟩
    rw [← hlinks.eq_operator hmeta hf, NameTable.contains, hnone] at hmapped
    cases hmapped
  | @claimed place d ds m mappings left ks f mapping k' hmeta hf hmapping hk' _ ih =>
    rcases List.mem_cons.1 hk with rfl | hk
    · have hlinked : k.linked = f := linked_of_ofMapping hk'
      rw [NameTable.contains, WrittenFor, hlinked, hmapping]
      exact ⟨rfl, place, d, m, List.mem_cons_self, hmeta, hf,
        fun j hj hlinks => absurd hlinks.le (Nat.not_le_of_lt hj)⟩
    · obtain ⟨hmapped, hfor⟩ := ih hk
      rw [NameTable.contains, NameTable.get?_erase] at hmapped
      have hne : k.linked.operator ≠ f.operator := by
        intro heq
        rw [if_pos heq] at hmapped
        cases hmapped
      rw [if_neg hne] at hmapped
      exact ⟨hmapped, hfor.cons fun hlinks => hne (hlinks.eq_operator hmeta hf).symm⟩

/-- Each function of a run was written for the declaration that claims its operator, and has its
name. -/
theorem exists_claimant (hloop : Loop g.options t 0 ds g.mappings ks left) {k : KernelFunction}
    (hk : k ∈ ks) :
    ∃ d, Claimant g ds t k.linked.operator d ∧ k.linked.name = (renamed g.options d).name := by
  obtain ⟨hmapped, i, d, m, hmem, hmeta, hf, hfirst⟩ := hloop.writtenFor hk
  have hd : ds[i]? = some d := List.mk_mem_zipIdx_iff_getElem?.1 hmem
  refine ⟨d, ⟨i, hd, ⟨d, m, k.linked, hd, hmeta, hf, rfl⟩, hmapped, ?_⟩, ?_⟩
  · exact fun j hj hlinks => hfirst j hj (linksFrom_zero.2 hlinks)
  · exact congrArg Host.Declaration.name (declaration_of_link hf)

/-! ## The entries of a run -/

/-- **The entries of the registration block.**  No two entries of a run are for one operator.  Each
refers to the name of the declaration that claims its operator, behind the prefix of the run.  So
two entries refer to one name exactly when these declarations have one name, and the names are
pairwise different exactly when no two operators are claimed by declarations of one name. -/
theorem runOn_registers (g : Generator) (ds : List Host.Declaration) (t : MetadataTable)
    (digest : String) (out : Generated) (hout : (g.runOn ds t digest).result = .ok out) :
    ∃ ks : List KernelFunction,
      out.text = SourceFile.preludeText g.options digest ++
        String.join (ks.map KernelFunction.text) ++
        SourceFile.registrationText g.options (ks.map KernelFunction.linked) ++
        SourceFile.postludeText g.options ∧
      (ks.map (·.linked.operator)).Nodup ∧
      (∀ k ∈ ks, ∃ d, Claimant g ds t k.linked.operator d ∧
        k.linked.name = (renamed g.options d).name) ∧
      (∀ k ∈ ks, ∀ k' ∈ ks, ∀ d d', Claimant g ds t k.linked.operator d →
        Claimant g ds t k'.linked.operator d' →
        (k.linked.name = k'.linked.name ↔ d.name = d'.name)) ∧
      ((ks.map (·.linked.name)).Nodup ↔ ∀ a b d e, Claimant g ds t a d → Claimant g ds t b e →
        d.name = e.name → a = b) := by
  obtain ⟨ks, left, hloop, -, hks⟩ := runOn_eq_ok.1 hout
  obtain ⟨fs, hlink, hwrite⟩ := hloop.exists_linked
  obtain ⟨hperm, -, hoperators, htext⟩ := output_of_runOn hlink hwrite hout
  have hnodup : (ks.map (·.linked.operator)).Nodup := by
    rw [← hoperators, hperm.nodup_iff]
    exact g.mappings.nodup_names
  have hclaimant : ∀ k ∈ ks, ∃ d, Claimant g ds t k.linked.operator d ∧
      k.linked.name = (renamed g.options d).name := fun k hk => exists_claimant hloop hk
  have hshared : ∀ k ∈ ks, ∀ k' ∈ ks, ∀ d d', Claimant g ds t k.linked.operator d →
      Claimant g ds t k'.linked.operator d' →
      (k.linked.name = k'.linked.name ↔ d.name = d'.name) := by
    intro k hk k' hk' d d' hd hd'
    obtain ⟨e, he, hname⟩ := hclaimant k hk
    obtain ⟨e', he', hname'⟩ := hclaimant k' hk'
    rw [hname, hname', hd.unique he, hd'.unique he', name_renamed_inj]
  refine ⟨ks, htext.trans (SourceFile.text_eq _), hnodup, hclaimant, hshared, ?_⟩
  constructor
  · intro hnames a b d e hd he hname
    have hmem : ∀ name d, Claimant g ds t name d → ∃ k ∈ ks, k.linked.operator = name := by
      rintro name d ⟨i, -, -, hmapped, -⟩
      have hname : name ∈ out.operators := hperm.mem_iff.2 (NameTable.mem_names_iff.2 hmapped)
      rwa [hoperators, List.mem_map] at hname
    obtain ⟨k, hk, rfl⟩ := hmem a d hd
    obtain ⟨k', hk', rfl⟩ := hmem b e he
    have hsame : k = k' :=
      List.inj_on_of_nodup_map hnames hk hk' ((hshared k hk k' hk' d e hd he).2 hname)
    rw [hsame]
  · intro hclaims
    refine (List.nodup_map_iff_inj_on hnodup.of_map).2 fun k hk k' hk' hname => ?_
    obtain ⟨d, hd, -⟩ := hclaimant k hk
    obtain ⟨d', hd', -⟩ := hclaimant k' hk'
    have hhost : d.name = d'.name := (hshared k hk k' hk' d d' hd hd').1 hname
    exact List.inj_on_of_nodup_map hnodup hk hk' (hclaims _ _ d d' hd hd' hhost)

/-! ## Overloads at work -/

/-- A declaration of one overload of a function of two parameters. -/
def addDeclaration (other : String) : Host.Declaration :=
  let constReference : String → Host.HostType := fun name =>
    ⟨true, false, ["at", name], [], [.ref]⟩
  ⟨⟨false, false, ["at", "Tensor"], [], []⟩, "add",
    [⟨constReference "Tensor", some "self", none⟩, ⟨constReference other, some "other", none⟩],
    .endOfText .start [], .start⟩

/-- The operator of an overload. -/
def addMetadata (other : String) : Metadata :=
  ⟨"aten::add." ++ other ++ "(Tensor self, " ++ other ++ " other) -> Tensor", true, false⟩

/-- A unit with two overloads of a function. -/
def addUnit : List Host.Declaration := [addDeclaration "Tensor", addDeclaration "Scalar"]

/-- The metadata of the unit. -/
def addTable : MetadataTable := ⟨[(0, addMetadata "Tensor"), (1, addMetadata "Scalar")]⟩

/-- A generator of the prototypes of both overloads. -/
def addGenerator : Generator :=
  ⟨(NameTable.empty.insert "aten::add.Tensor" .signatureOnly).insert "aten::add.Scalar"
    .signatureOnly, .standard⟩

/-- An overload, linked to its operator. -/
def addFunction (other : String) (type : Schema.BaseType) : LinkedFunction where
  declaration := addDeclaration other
  metadata := addMetadata other
  signature := ⟨["aten", "add"], some other, [.value ⟨.tensor, none, []⟩ (some "self") none,
    .value ⟨type, none, []⟩ (some "other") none], .value ⟨.tensor, none, []⟩⟩
  params := (addDeclaration other).params.zipIdx.map fun p => .declared p.1 [p.2]

theorem linksTo_addTensor : LinksTo addGenerator.options (addDeclaration "Tensor",
    addMetadata "Tensor") (addFunction "Tensor" .tensor) := by
  unfold LinksTo
  cbv

theorem linksTo_addScalar : LinksTo addGenerator.options (addDeclaration "Scalar",
    addMetadata "Scalar") (addFunction "Scalar" .scalar) := by
  unfold LinksTo
  cbv

/-- The functions of the two overloads. -/
def addFunctions : List LinkedFunction :=
  [addFunction "Tensor" .tensor, addFunction "Scalar" .scalar]

theorem result_addUnit : (addGenerator.runOn addUnit addTable "").result =
    .ok ⟨(SourceFile.mk .standard "" (addFunctions.map fun f => ⟨f, none⟩)).text,
      ["aten::add.Tensor", "aten::add.Scalar"]⟩ := by
  have hlink : List.Forall₂ (LinksTo addGenerator.options) (annotated addTable 0 addUnit)
      addFunctions := .cons linksTo_addTensor (.cons linksTo_addScalar .nil)
  have hclaims : claims addGenerator.mappings addFunctions =
      addFunctions.map fun f => (f, .signatureOnly) := by cbv
  have hwrite : List.Forall₂ WrittenAs (claims addGenerator.mappings addFunctions)
      (addFunctions.map fun f => ⟨f, none⟩) := by
    rw [hclaims]
    exact .cons rfl (.cons rfl .nil)
  have hempty : (addGenerator.mappings.eraseMany
      (addFunctions.map LinkedFunction.operator)).isEmpty = true := by cbv
  rw [result_runOn hlink hwrite, if_pos hempty]
  rfl

/-- The run writes two functions of one name, and registers that name for both operators. -/
theorem overloads_share_name : ∃ out : Generated,
    (addGenerator.runOn addUnit addTable "").result = .ok out ∧
    out.text = SourceFile.preludeText .standard "" ++
      String.join (addFunctions.map fun f => KernelFunction.text ⟨f, none⟩) ++
      SourceFile.registrationText .standard addFunctions ++ SourceFile.postludeText .standard ∧
    addFunctions.map (fun f => (f.operator, f.name)) =
      [("aten::add.Tensor", "add"), ("aten::add.Scalar", "add")] ∧
    addFunctions.map SourceFile.registrationLine =
      ["m.impl(\"aten::add.Tensor\", TORCH_FN(add));",
       "m.impl(\"aten::add.Scalar\", TORCH_FN(add));"] := by
  refine ⟨_, result_addUnit, ?_, by cbv, by cbv⟩
  exact SourceFile.text_eq _

theorem runOn_registers_add : ∃ (out : Generated) (ks : List KernelFunction),
    (addGenerator.runOn addUnit addTable "").result = .ok out ∧
    out.text = SourceFile.preludeText .standard "" ++ String.join (ks.map KernelFunction.text) ++
      SourceFile.registrationText .standard (ks.map KernelFunction.linked) ++
      SourceFile.postludeText .standard ∧
    (ks.map (·.linked.operator)).Nodup ∧ ¬ (ks.map (·.linked.name)).Nodup := by
  obtain ⟨ks, htext, hoperators, -, -, hnames⟩ :=
    runOn_registers addGenerator addUnit addTable "" _ result_addUnit
  have hlinksTensor : LinksAt addGenerator addUnit addTable 0 "aten::add.Tensor" :=
    ⟨_, _, _, rfl, rfl, linksTo_addTensor, by cbv⟩
  have hlinksScalar : LinksAt addGenerator addUnit addTable 1 "aten::add.Scalar" :=
    ⟨_, _, _, rfl, rfl, linksTo_addScalar, by cbv⟩
  have htensor : Claimant addGenerator addUnit addTable "aten::add.Tensor"
      (addDeclaration "Tensor") :=
    ⟨0, rfl, hlinksTensor, by cbv, fun j hj => absurd hj (Nat.not_lt_zero j)⟩
  have hscalar : Claimant addGenerator addUnit addTable "aten::add.Scalar"
      (addDeclaration "Scalar") := by
    refine ⟨1, rfl, hlinksScalar, by cbv, fun j hj hlinks => ?_⟩
    rw [Nat.lt_one_iff.1 hj] at hlinks
    exact absurd (hlinksTensor.unique hlinks) (by decide)
  refine ⟨_, ks, result_addUnit, htext, hoperators, fun hnodup => ?_⟩
  have hsame : "aten::add.Tensor" = "aten::add.Scalar" :=
    hnames.1 hnodup _ _ _ _ htensor hscalar rfl
  exact absurd hsame (by decide)

end KernelGen.Generator
