import KernelGen.Proofs.Kernel.BodyParts
import KernelGen.Proofs.Kernel.Layout
set_option autoImplicit false

/-!
# Kernel: which graphs have a body

A body is made on the way through the nodes, and whatever is missing ends it there.  What has to
be there can be said without the way: the values of the nodes that the root depends on have to
fit the function, and where the return value may be written, one of these nodes has to take the
parameter that shares its memory.

`Fits` says what a value needs and `Blames` what is reported when it is missing.  For each part
of a body there are two statements: a part that was made has values that fit, and a part that was
not made reports a value that does not.
-/

namespace KernelGen

/-- A sequence fails when its first part does, or its second after the first. -/
theorem bind_eq_error {ε α β : Type} {x : Except ε α} {f : α → Except ε β} {c : ε} :
    x >>= f = .error c ↔ x = .error c ∨ ∃ a, x = .ok a ∧ f a = .error c := by
  cases x <;> simp [bind, Except.bind]

theorem Outcome.result_bind_eq_error {ε α β : Type} {x : Outcome ε α} {f : α → Outcome ε β}
    {c : ε} :
    (x >>= f).result = .error c ↔
      x.result = .error c ∨ ∃ a, x.result = .ok a ∧ (f a).result = .error c := by
  rw [Outcome.result_bind, bind_eq_error]

namespace Body

variable {f : LinkedFunction} {g : OpGraph} {e : Evaluation} {op : String} {c : Cause}

/-- The value can be written: a parameter is one of the function's, and a node that is referred
to has exactly one output. -/
def Fits (f : LinkedFunction) (g : OpGraph) : Value Nat → Prop
  | .param name => ∃ p, f.paramNamed? name = some p
  | .literal _ => True
  | .output r => ∃ n, g.nodes[r]? = some n ∧ n.outputs = 1

/-- What is reported about a value of an op that cannot be written. -/
inductive Blames (f : LinkedFunction) (g : OpGraph) (op : String) : Value Nat → Cause → Prop
  | param {name : String} (h : f.paramNamed? name = none) :
    Blames f g op (.param name) (.unknownParameter op name f.name f.schema)
  | output {r : Nat} {n : OpNode Nat} (hn : g.nodes[r]? = some n) (h : n.outputs ≠ 1) :
    Blames f g op (.output r) (.multipleOutputs n.outputs f.schema)

/-- One of the inputs is a parameter that shares the memory of the return value. -/
def TakesReturn (f : LinkedFunction) (vs : List (Value Nat)) : Prop :=
  ∃ name p, Value.param name ∈ vs ∧ f.paramNamed? name = some p ∧ sharesReturn f p = true

theorem takesReturn_cons {v : Value Nat} {vs : List (Value Nat)} :
    TakesReturn f (v :: vs) ↔ TakesReturn f [v] ∨ TakesReturn f vs := by
  simp only [TakesReturn, List.mem_cons, List.not_mem_nil, or_false, or_and_right, exists_or]

theorem not_takesReturn_nil : ¬ TakesReturn f [] := by
  rintro ⟨name, p, hmem, -⟩
  cases hmem

/-- The nodes that values refer to have names for their outputs. -/
def Named (g : OpGraph) (e : Evaluation) (vs : List (Value Nat)) : Prop :=
  ∀ r, Value.output r ∈ vs → ∃ n name, g.nodes[r]? = some n ∧ e.name? r = some name

theorem Named.subset {vs ws : List (Value Nat)} (h : Named g e vs) (hsub : ∀ w ∈ ws, w ∈ vs) :
    Named g e ws := fun r hr => h r (hsub _ hr)

/-! ## Values -/

theorem singleOutput_eq_error {r : Nat} (hnamed : Named g e [.output r])
    (h : singleOutput f g e r = .error c) : Blames f g op (.output r) c := by
  obtain ⟨n, name, hn, hname⟩ := hnamed r (List.mem_singleton_self _)
  rw [singleOutput, hn] at h
  dsimp only at h
  split at h
  · rw [outputsOf, hname] at h
    cases h
  · rename_i hone
    cases h
    exact .output hn hone

theorem requireParam_eq_error {name : String} (h : requireParam f op name = .error c) :
    Blames f g op (.param name) c := by
  unfold requireParam at h
  split at h
  · cases h
  · rename_i hnone
    cases h
    exact .param hnone

/-- An input that was made fits, and it may be the one that is written in place. -/
theorem input_fits {v : Value Nat} {s s' : Progress} {ss : List Statement} {a : Argument}
    (h : input f g e op s v = .ok (ss, a, s')) :
    Fits f g v ∧ (s'.inPlace?.isSome = true ↔
      s.inPlace?.isSome = true ∨ TakesReturn f [v]) := by
  cases v with
  | output r =>
    obtain ⟨l, hl, -, -, rfl⟩ := input_output_eq_ok h
    obtain ⟨n, -, hn, hone, -⟩ := singleOutput_eq_ok hl
    exact ⟨⟨n, hn, hone⟩, by simp [TakesReturn]⟩
  | literal text =>
    obtain ⟨-, -, rfl⟩ := input_literal_eq_ok h
    exact ⟨trivial, by simp [TakesReturn]⟩
  | param name =>
    obtain ⟨p, hp, -, -, hin, -⟩ := input_param_eq_ok h
    refine ⟨⟨p, hp⟩, ?_⟩
    have htakes : TakesReturn f [.param name] ↔ sharesReturn f p = true := by
      simp [TakesReturn, hp]
    rw [hin, htakes]
    split <;> simp_all

theorem input_blames {v : Value Nat} {s : Progress} (hnamed : Named g e [v])
    (h : input f g e op s v = .error c) : Blames f g op v c := by
  cases v with
  | output r =>
    rcases bind_eq_error.1 h with h | ⟨l, -, h⟩
    · exact singleOutput_eq_error hnamed h
    · cases h
  | literal text => cases h
  | param name =>
    rcases bind_eq_error.1 h with h | ⟨p, -, h⟩
    · exact requireParam_eq_error h
    · dsimp only at h
      split at h <;> cases h

/-! ## Inputs and attributes -/

theorem inputs_fit {vs : List (Value Nat)} {s s' : Progress} {ss : List Statement}
    {as : List Argument} (h : inputs f g e op s vs = .ok (ss, as, s')) :
    (∀ v ∈ vs, Fits f g v) ∧ (s'.inPlace?.isSome = true ↔
      s.inPlace?.isSome = true ∨ TakesReturn f vs) := by
  induction vs generalizing s ss as with
  | nil =>
    cases h
    exact ⟨fun v hv => (List.not_mem_nil hv).elim, by simp [not_takesReturn_nil]⟩
  | cons v vs ih =>
    obtain ⟨here, a, s₁, more, as', hhere, hmore, rfl, rfl⟩ := inputs_cons_eq_ok h
    obtain ⟨hfit, hin⟩ := input_fits hhere
    obtain ⟨hfits, hins⟩ := ih hmore
    exact ⟨List.forall_mem_cons.2 ⟨hfit, hfits⟩, by rw [hins, hin, or_assoc, ← takesReturn_cons]⟩

theorem inputs_blame {vs : List (Value Nat)} {s : Progress} (hnamed : Named g e vs)
    (h : inputs f g e op s vs = .error c) : ∃ v ∈ vs, Blames f g op v c := by
  induction vs generalizing s with
  | nil => cases h
  | cons v vs ih =>
    rcases bind_eq_error.1 h with h | ⟨⟨here, a, s₁⟩, -, h⟩
    · exact ⟨v, List.mem_cons_self, input_blames (hnamed.subset (by simp)) h⟩
    · rcases bind_eq_error.1 h with h | ⟨x, -, h⟩
      · obtain ⟨w, hw, hblames⟩ := ih (hnamed.subset fun w hw => List.mem_cons_of_mem _ hw) h
        exact ⟨w, List.mem_cons_of_mem _ hw, hblames⟩
      · cases h

theorem attributeValue_blames {v : Value Nat} (hnamed : Named g e [v])
    (h : attributeValue f g e op v = .error c) : Blames f g op v c := by
  cases v with
  | output r =>
    rcases bind_eq_error.1 h with h | ⟨l, -, h⟩
    · exact singleOutput_eq_error hnamed h
    · cases h
  | literal text => cases h
  | param name =>
    rcases bind_eq_error.1 h with h | ⟨p, -, h⟩
    · exact requireParam_eq_error h
    · cases h

theorem attributeEntries_fit {as : List (String × Option (Value Nat))}
    {entries : List (String × AttributeValue)}
    (h : (attributeEntries f g e op as).result = .ok entries) :
    ∀ v ∈ as.filterMap (·.2), Fits f g v := by
  induction as generalizing entries with
  | nil => intro v hv; cases hv
  | cons a as ih =>
    obtain ⟨key, v?⟩ := a
    cases v? with
    | none => exact ih (attributeEntries_none_eq_ok h)
    | some v =>
      obtain ⟨a, more, ha, hmore, -⟩ := attributeEntries_some_eq_ok h
      refine List.forall_mem_cons.2 ⟨?_, ih hmore⟩
      rcases attributeValue_eq_ok ha with
        ⟨name, p, rfl, hp, -⟩ | ⟨text, rfl, -⟩ | ⟨r, l, rfl, hl, -⟩
      · exact ⟨p, hp⟩
      · trivial
      · obtain ⟨n, -, hn, hone, -⟩ := singleOutput_eq_ok hl
        exact ⟨n, hn, hone⟩

theorem attributeEntries_blame {as : List (String × Option (Value Nat))}
    (hnamed : Named g e (as.filterMap (·.2)))
    (h : (attributeEntries f g e op as).result = .error c) :
    ∃ v ∈ as.filterMap (·.2), Blames f g op v c := by
  induction as with
  | nil => cases h
  | cons a as ih =>
    obtain ⟨key, v?⟩ := a
    cases v? with
    | none =>
      rcases Outcome.result_bind_eq_error.1 h with h | ⟨u, -, h⟩
      · cases h
      · exact ih hnamed h
    | some v =>
      rcases Outcome.result_bind_eq_error.1 h with h | ⟨a, -, h⟩
      · exact ⟨v, List.mem_cons_self, attributeValue_blames (hnamed.subset (by simp)) h⟩
      · rcases Outcome.result_bind_eq_error.1 h with h | ⟨more, -, h⟩
        · obtain ⟨w, hw, hblames⟩ := ih (hnamed.subset fun w hw => List.mem_cons_of_mem _ hw) h
          exact ⟨w, List.mem_cons_of_mem _ hw, hblames⟩
        · cases h

/-! ## Nodes -/

theorem node_fits {place i : Nat} {s s' : Progress} {ss : List Statement}
    (h : (node f g e place i s).result = .ok (ss, s')) :
    ∃ n, g.nodes[i]? = some n ∧ (∀ v ∈ n.values, Fits f g v) ∧
      (s'.inPlace?.isSome = true ↔ s.inPlace?.isSome = true ∨ TakesReturn f n.inputs) := by
  obtain ⟨n, bindings, arguments, entries, name, hn, hinputs, hentries, -, -⟩ := node_eq_ok h
  obtain ⟨hfits, hin⟩ := inputs_fit hinputs
  refine ⟨n, hn, fun v hv => ?_, hin⟩
  rcases List.mem_append.1 hv with hv | hv
  · exact hfits v hv
  · exact attributeEntries_fit hentries v hv

theorem node_blames {place i : Nat} {s : Progress} {n : OpNode Nat} {name : String}
    (hn : g.nodes[i]? = some n) (hname : e.name? i = some name) (hnamed : Named g e n.values)
    (h : (node f g e place i s).result = .error c) : ∃ v ∈ n.values, Blames f g n.name v c := by
  rw [node, hn] at h
  dsimp only at h
  rcases Outcome.result_bind_eq_error.1 h with h | ⟨⟨bindings, arguments, s₁⟩, -, h⟩
  · obtain ⟨v, hv, hblames⟩ :=
      inputs_blame (hnamed.subset fun v hv => List.mem_append_left _ hv) h
    exact ⟨v, List.mem_append_left _ hv, hblames⟩
  rcases Outcome.result_bind_eq_error.1 h with h | ⟨entries, -, h⟩
  · obtain ⟨v, hv, hblames⟩ :=
      attributeEntries_blame (hnamed.subset fun v hv => List.mem_append_right _ hv) h
    exact ⟨v, List.mem_append_right _ hv, hblames⟩
  -- the outputs of the node itself have a name
  rcases Outcome.result_bind_eq_error.1 h with h | ⟨l, -, h⟩
  · rw [outputsOf, hname] at h
    cases h
  · cases h

theorem nodes_fit {place : Nat} {is : List Nat} {s s' : Progress} {ss : List Statement}
    (h : (nodes f g e place is s).result = .ok (ss, s')) :
    (∀ i ∈ is, ∀ n, g.nodes[i]? = some n → ∀ v ∈ n.values, Fits f g v) ∧
      (s'.inPlace?.isSome = true ↔ s.inPlace?.isSome = true ∨
        ∃ i ∈ is, ∃ n, g.nodes[i]? = some n ∧ TakesReturn f n.inputs) := by
  induction is generalizing place s ss with
  | nil =>
    cases h
    exact ⟨fun i hi => (List.not_mem_nil hi).elim, by simp⟩
  | cons i is ih =>
    obtain ⟨here, s₁, more, hhere, hmore, rfl⟩ := nodes_cons_eq_ok h
    obtain ⟨n, hn, hfits, hin⟩ := node_fits hhere
    obtain ⟨hrest, hins⟩ := ih hmore
    refine ⟨List.forall_mem_cons.2 ⟨fun m hm => ?_, hrest⟩, ?_⟩
    · rw [hn] at hm
      cases hm
      exact hfits
    · rw [hins, hin, or_assoc]
      simp [hn]

theorem nodes_blame {place : Nat} {is : List Nat} {s : Progress}
    (hnamed : ∀ i ∈ is, ∃ n name, g.nodes[i]? = some n ∧ e.name? i = some name ∧
      Named g e n.values)
    (h : (nodes f g e place is s).result = .error c) :
    ∃ i ∈ is, ∃ n, g.nodes[i]? = some n ∧ ∃ v ∈ n.values, Blames f g n.name v c := by
  induction is generalizing place s with
  | nil => cases h
  | cons i is ih =>
    obtain ⟨⟨n, name, hn, hname, hvalues⟩, hrest⟩ := List.forall_mem_cons.1 hnamed
    rcases Outcome.result_bind_eq_error.1 h with h | ⟨⟨here, s₁⟩, -, h⟩
    · exact ⟨i, List.mem_cons_self, n, hn, node_blames hn hname hvalues h⟩
    rcases Outcome.result_bind_eq_error.1 h with h | ⟨x, -, h⟩
    · obtain ⟨j, hj, hblames⟩ := ih hrest h
      exact ⟨j, List.mem_cons_of_mem _ hj, hblames⟩
    · cases h

/-! ## Bodies -/

/-- The first schema parameter is a tensor, and the parameter that stands for it has a name. -/
def StartsWithTensor (f : LinkedFunction) : Prop :=
  (∃ p, f.signature.params.head? = some p ∧ p.isTensor = true) ∧
    ∃ q name, f.paramFor? 0 = some q ∧ q.name? = some name

/-- The parameters that the nodes behind the root refer to are the function's. -/
def KnowsParams (f : LinkedFunction) (g : OpGraph) : Prop :=
  ∀ i n name, g.Reaches g.root i → g.nodes[i]? = some n → Value.param name ∈ n.values →
    ∃ p ∈ f.params, p.name? = some name

/-- What the nodes behind the root refer to has exactly one output. -/
def SingleReferences (g : OpGraph) : Prop :=
  ∀ i r, g.Reaches g.root i → r ∈ g.references i → ∃ n, g.nodes[r]? = some n ∧ n.outputs = 1

/-- The root has exactly one output. -/
def SingleRoot (g : OpGraph) : Prop := ∃ n, g.nodes[g.root]? = some n ∧ n.outputs = 1

/-- If the return value may be written, a node behind the root takes a parameter with the same
alias annotation. -/
def SuppliesReturn (f : LinkedFunction) (g : OpGraph) : Prop :=
  ∀ a, f.signature.writableReturn? = some a →
    ∃ i n name p only, g.Reaches g.root i ∧ g.nodes[i]? = some n ∧ Value.param name ∈ n.inputs ∧
      f.paramNamed? name = some p ∧ f.schemaParams p = [only] ∧ only.alias? = some a

theorem paramNamed?_isSome {name : String} :
    (∃ p, f.paramNamed? name = some p) ↔ ∃ p ∈ f.params, p.name? = some name := by
  unfold LinkedFunction.paramNamed?
  rw [← Option.isSome_iff_exists, List.find?_isSome]
  simp only [beq_iff_eq]

theorem firstTensor_eq_ok {first : String} (h : firstTensor f = .ok first) :
    StartsWithTensor f := by
  unfold firstTensor at h
  split at h
  · rename_i p name hp hname
    obtain ⟨q, hq, hqname⟩ := Option.bind_eq_some_iff.1 hname
    split at h
    · rename_i htensor
      exact ⟨⟨p, hp, htensor⟩, q, name, hq, hqname⟩
    · cases h
  · cases h

theorem firstTensor_eq_error (h : firstTensor f = .error c) :
    c = .firstParameter f.schema ∧ ¬ StartsWithTensor f := by
  unfold firstTensor at h
  split at h
  · rename_i p name hp hname
    split at h
    · cases h
    · rename_i htensor
      cases h
      refine ⟨rfl, ?_⟩
      rintro ⟨⟨p', hp', htensor'⟩, -⟩
      rw [hp] at hp'
      cases hp'
      exact htensor htensor'
  · rename_i hnone
    cases h
    refine ⟨rfl, ?_⟩
    rintro ⟨⟨p, hp, -⟩, q, name, hq, hqname⟩
    exact hnone p name hp (Option.bind_eq_some_iff.2 ⟨q, hq, hqname⟩)

/-- The values of the nodes behind the root fit when their parameters and their references do. -/
theorem fit_iff :
    (∀ i ∈ g.evaluate.order, ∀ n, g.nodes[i]? = some n → ∀ v ∈ n.values, Fits f g v) ↔
      KnowsParams f g ∧ SingleReferences g := by
  constructor
  · intro h
    constructor
    · intro i n name hi hn hv
      exact paramNamed?_isSome.1 (h i (Evaluation.mem_order_evaluate.2 hi) n hn _ hv)
    · intro i r hi hr
      obtain ⟨n, hn, hv⟩ := OpGraph.mem_references_iff.1 hr
      exact h i (Evaluation.mem_order_evaluate.2 hi) n hn _ hv
  · rintro ⟨hparams, hrefs⟩ i hi n hn v hv
    have hreach := Evaluation.mem_order_evaluate.1 hi
    cases v with
    | param name => exact paramNamed?_isSome.2 (hparams i n name hreach hn hv)
    | literal text => trivial
    | output r => exact hrefs i r hreach (OpGraph.mem_references_iff.2 ⟨n, hn, hv⟩)

/-- The nodes behind the root can be written as far as names of outputs go. -/
theorem named_of_mem_order {i : Nat} (hi : i ∈ g.evaluate.order) :
    ∃ n name, g.nodes[i]? = some n ∧ g.evaluate.name? i = some name ∧
      Named g g.evaluate n.values := by
  have hreach := Evaluation.mem_order_evaluate.1 hi
  obtain ⟨n, name, hn, hname⟩ := named_of_reaches hreach
  refine ⟨n, name, hn, hname, fun r hr => named_of_reaches (hreach.tail ?_)⟩
  exact OpGraph.mem_references_iff.2 ⟨n, hn, hr⟩

/-- What is reported about a value of a node behind the root tells what the graph lacks. -/
theorem Blames.lacks {i : Nat} {n : OpNode Nat} {v : Value Nat} (h : Blames f g op v c)
    (hi : g.Reaches g.root i) (hn : g.nodes[i]? = some n) (hv : v ∈ n.values) :
    c.code = .unknownParameter ∧ ¬ KnowsParams f g ∨
      c.code = .multipleOutputsUnsupported ∧ ¬ SingleReferences g := by
  cases h with
  | @param name hnone =>
    refine .inl ⟨rfl, fun hparams => ?_⟩
    obtain ⟨p, hp⟩ := paramNamed?_isSome.2 (hparams i n name hi hn hv)
    rw [hnone] at hp
    cases hp
  | @output r m hm hone =>
    refine .inr ⟨rfl, fun hrefs => ?_⟩
    obtain ⟨m', hm', hone'⟩ := hrefs i r hi (OpGraph.mem_references_iff.2 ⟨n, hn, hv⟩)
    rw [hm] at hm'
    cases hm'
    exact hone hone'

theorem result_fits {l : Local} (h : result f g g.evaluate = .ok l) : SingleRoot g := by
  obtain ⟨i, hi, hl⟩ := result_eq_ok h
  rw [Evaluation.getLast?_order_evaluate] at hi
  cases hi
  obtain ⟨n, -, hn, hone, -⟩ := singleOutput_eq_ok hl
  exact ⟨n, hn, hone⟩

theorem result_blames (h : result f g g.evaluate = .error c) :
    c.code = .multipleOutputsUnsupported ∧ ¬ SingleRoot g := by
  rw [result, Evaluation.getLast?_order_evaluate] at h
  have hnamed : Named g g.evaluate [.output g.root] := by
    intro r hr
    cases List.mem_singleton.1 hr
    exact named_of_reaches .refl
  have hblames : Blames f g f.operator (.output g.root) c := singleOutput_eq_error hnamed h
  cases hblames with
  | output hn hone =>
    refine ⟨rfl, ?_⟩
    rintro ⟨n, hn', hone'⟩
    rw [hn] at hn'
    cases hn'
    exact hone hone'

theorem sharesReturn_iff {a : Schema.AliasInfo} {p : LinkedParam}
    (ha : f.signature.writableReturn? = some a) :
    sharesReturn f p = true ↔ ∃ only, f.schemaParams p = [only] ∧ only.alias? = some a := by
  rw [sharesReturn, ha]
  dsimp only
  rw [beq_iff_eq, LinkedFunction.alias?]
  split
  · rename_i only honly
    simp [honly]
  · rename_i hnot
    constructor
    · intro h
      cases h
    · rintro ⟨only, honly, -⟩
      exact (hnot only honly).elim

/-- When the nodes were run, there is a parameter to write in place if one is asked for. -/
theorem suppliesReturn_iff {s : Progress}
    (h : s.inPlace?.isSome = true ↔
      ∃ i ∈ g.evaluate.order, ∃ n, g.nodes[i]? = some n ∧ TakesReturn f n.inputs) :
    SuppliesReturn f g ↔
      ∀ a, f.signature.writableReturn? = some a → s.inPlace?.isSome = true := by
  unfold SuppliesReturn
  refine forall_congr' fun a => imp_congr_right fun ha => ?_
  rw [h]
  constructor
  · rintro ⟨i, n, name, p, only, hi, hn, hv, hp, honly, halias⟩
    exact ⟨i, Evaluation.mem_order_evaluate.2 hi, n, hn, name, p, hv, hp,
      (sharesReturn_iff ha).2 ⟨only, honly, halias⟩⟩
  · rintro ⟨i, hi, n, hn, name, p, hv, hp, hshares⟩
    obtain ⟨only, honly, halias⟩ := (sharesReturn_iff ha).1 hshares
    exact ⟨i, n, name, p, only, Evaluation.mem_order_evaluate.1 hi, hn, hv, hp, honly, halias⟩

theorem returning_eq_error {first : String} {l : Local} {s : Progress}
    (h : returning f first l s = .error c) :
    c.code = .aliasWithoutInPlaceParameter ∧
      ∃ a, f.signature.writableReturn? = some a ∧ s.inPlace?.isSome = false := by
  unfold returning at h
  split at h
  · cases h
  · rename_i a ha
    split at h
    · rename_i hnone
      cases h
      exact ⟨rfl, a, ha, by rw [hnone]; rfl⟩
    · cases h

/-- A body that was made needed all of it. -/
theorem ofGraph_usable {body : List Statement} (h : (ofGraph f g).result = .ok body) :
    StartsWithTensor f ∧ KnowsParams f g ∧ SingleReferences g ∧ SingleRoot g ∧
      SuppliesReturn f g := by
  obtain ⟨first, ops, s, l, returns, hfirst, hops, hl, hreturns, -⟩ := ofGraph_eq_ok h
  obtain ⟨hfit, hin⟩ := nodes_fit hops
  obtain ⟨hparams, hrefs⟩ := fit_iff.1 hfit
  refine ⟨firstTensor_eq_ok hfirst, hparams, hrefs, result_fits hl, ?_⟩
  rw [suppliesReturn_iff (by simpa [Progress.start] using hin)]
  intro a ha
  rcases returning_eq_ok hreturns with ⟨hnone, -⟩ | ⟨a', p, -, hp, -⟩
  · rw [ha] at hnone
    cases hnone
  · rw [hp]
    rfl

/-- A body that was not made reports the first thing that is missing. -/
theorem ofGraph_fault (h : (ofGraph f g).result = .error c) :
    c.code = .firstParameterNotTensor ∧ ¬ StartsWithTensor f ∨
    c.code = .unknownParameter ∧ StartsWithTensor f ∧ ¬ KnowsParams f g ∨
    c.code = .multipleOutputsUnsupported ∧ StartsWithTensor f ∧
      (¬ SingleReferences g ∨ ¬ SingleRoot g) ∨
    c.code = .aliasWithoutInPlaceParameter ∧ StartsWithTensor f ∧ KnowsParams f g ∧
      SingleReferences g ∧ SingleRoot g ∧ ¬ SuppliesReturn f g := by
  rcases Outcome.result_bind_eq_error.1 h with h | ⟨first, hfirst, h⟩
  · obtain ⟨rfl, hnot⟩ := firstTensor_eq_error h
    exact .inl ⟨rfl, hnot⟩
  have htensor := firstTensor_eq_ok hfirst
  rcases Outcome.result_bind_eq_error.1 h with h | ⟨⟨ops, s⟩, hops, h⟩
  · obtain ⟨i, hi, n, hn, v, hv, hblames⟩ := nodes_blame (fun i hi => named_of_mem_order hi) h
    rcases hblames.lacks (Evaluation.mem_order_evaluate.1 hi) hn hv with ⟨hc, hnot⟩ | ⟨hc, hnot⟩
    · exact .inr (.inl ⟨hc, htensor, hnot⟩)
    · exact .inr (.inr (.inl ⟨hc, htensor, .inl hnot⟩))
  obtain ⟨hfit, hin⟩ := nodes_fit hops
  obtain ⟨hparams, hrefs⟩ := fit_iff.1 hfit
  rcases Outcome.result_bind_eq_error.1 h with h | ⟨l, hl, h⟩
  · obtain ⟨hc, hnot⟩ := result_blames h
    exact .inr (.inr (.inl ⟨hc, htensor, .inr hnot⟩))
  rcases Outcome.result_bind_eq_error.1 h with h | ⟨returns, -, h⟩
  · obtain ⟨hc, a, ha, hnone⟩ := returning_eq_error h
    refine .inr (.inr (.inr ⟨hc, htensor, hparams, hrefs, result_fits hl, ?_⟩))
    rw [suppliesReturn_iff (by simpa [Progress.start] using hin)]
    intro hall
    rw [hall a ha] at hnone
    cases hnone
  · cases h

/-- **Which graphs have a body.**  A body is made exactly when the first schema parameter is a
tensor with a named parameter, the nodes behind the root refer to parameters of the function and
to nodes with one output, the root has one output, and a return value that may be written finds
a parameter that shares its memory.  Each failure has one code for each kind of thing that is
missing, and nodes that the root does not depend on change nothing at all. -/
theorem ofGraph_succeeds_iff (f : LinkedFunction) (g : OpGraph) :
    ((∃ body, (ofGraph f g).result = .ok body) ↔
      StartsWithTensor f ∧ KnowsParams f g ∧ SingleReferences g ∧ SingleRoot g ∧
        SuppliesReturn f g) ∧
    (∀ c, (ofGraph f g).result = .error c →
      (¬ StartsWithTensor f → c.code = .firstParameterNotTensor) ∧
      (c.code = .firstParameterNotTensor → ¬ StartsWithTensor f) ∧
      (c.code = .unknownParameter → ¬ KnowsParams f g) ∧
      (c.code = .multipleOutputsUnsupported → ¬ SingleReferences g ∨ ¬ SingleRoot g) ∧
      (c.code = .aliasWithoutInPlaceParameter → StartsWithTensor f ∧ KnowsParams f g ∧
        SingleReferences g ∧ SingleRoot g ∧ ¬ SuppliesReturn f g) ∧
      c.code ∈ [.firstParameterNotTensor, .unknownParameter, .multipleOutputsUnsupported,
        .aliasWithoutInPlaceParameter]) ∧
    (∀ g' : OpGraph, g'.root = g.root →
      (∀ i, g.Reaches g.root i → g'.nodes[i]? = g.nodes[i]?) → ofGraph f g' = ofGraph f g) := by
  refine ⟨⟨?_, ?_⟩, ?_, ?_⟩
  · rintro ⟨body, hbody⟩
    exact ofGraph_usable hbody
  · rintro ⟨htensor, hparams, hrefs, hroot, hsupplies⟩
    cases hresult : (ofGraph f g).result with
    | ok body => exact ⟨body, rfl⟩
    | error c =>
      rcases ofGraph_fault hresult with
        ⟨-, hnot⟩ | ⟨-, -, hnot⟩ | ⟨-, -, hnot | hnot⟩ | ⟨-, -, -, -, -, hnot⟩
      · exact absurd htensor hnot
      · exact absurd hparams hnot
      · exact absurd hrefs hnot
      · exact absurd hroot hnot
      · exact absurd hsupplies hnot
  · intro c hc
    rcases ofGraph_fault hc with
      ⟨hcode, hnot⟩ | ⟨hcode, htensor, hnot⟩ | ⟨hcode, htensor, hnot⟩ | ⟨hcode, htensor, hrest⟩
    all_goals simp_all
  · intro g' hroot hnodes
    exact (Relabels.of_nodes_eq hroot hnodes).ofGraph_eq

end Body

end KernelGen
