import KernelGen.Proofs.Kernel.Faults
import KernelGen.Proofs.Kernel.Scoping
import KernelGen.Proofs.Link.Markers
set_option autoImplicit false

/-!
# Kernel: what a body returns

Which parameter is written in place is settled on the way through the ops: every input that
shares the memory of the return value takes the place of the one before it.  The parameter is
looked at behind the last op only, long after it was declared.  So two things are carried along:
the last candidate among the inputs so far (`inPlace?_nodes`), and that a parameter is declared
by a statement in front as soon as it counts as bound (`prepares_nodes`).  Nothing returns in
front of the statements at the end.
-/

namespace KernelGen

/-- The statement returns, or writes what is returned. -/
def Statement.returns : Statement → Bool
  | .returnNew .. | .copyInto .. | .returnParam _ => true
  | _ => false

/-- The inputs of the node at a place. -/
def OpGraph.inputsAt (g : OpGraph) (i : Nat) : List (Value Nat) :=
  match g.nodes[i]? with
  | some n => n.inputs
  | none => []

/-! ## Parameters of linked functions -/

namespace LinkedFunction

variable {d : Host.Declaration} {m : Metadata} {f : LinkedFunction}

theorem lt_of_mem_indices (hf : (link d m).result = .ok f) {q : LinkedParam} (hq : q ∈ f.params)
    {k : Nat} (hk : k ∈ q.indices) : k < f.signature.params.length := by
  obtain ⟨signature, params, last, -, hpair, rfl⟩ := link_eq_ok hf
  have hlast : last ≤ signature.params.length :=
    Link.last_le_of_pair hpair (fun k => markerIndex?_lt) (Nat.zero_le _)
  exact Nat.lt_of_lt_of_le ((Link.exists_mem_indices hpair).1 ⟨q, hq, hk⟩) hlast

/-- A parameter with a single schema parameter stands for one place. -/
theorem indices_of_schemaParams (hf : (link d m).result = .ok f) {q : LinkedParam}
    (hq : q ∈ f.params) {only : Schema.Param} (honly : f.schemaParams q = [only]) :
    ∃ k, q.indices = [k] ∧ f.signature.params[k]? = some only := by
  have hlength : (f.schemaParams q).length = q.indices.length := by
    unfold schemaParams
    rw [List.length_filterMap_eq_countP, List.countP_eq_length]
    intro k hk
    simpa using lt_of_mem_indices hf hq hk
  rw [honly] at hlength
  obtain ⟨k, hk⟩ := List.length_eq_one_iff.1 hlength.symm
  refine ⟨k, hk, ?_⟩
  rw [schemaParams, hk] at honly
  cases hparam : f.signature.params[k]? with
  | none => simp [hparam] at honly
  | some param => simpa [hparam] using honly

/-- No two parameters stand for the same place. -/
theorem eq_of_mem_indices (hf : (link d m).result = .ok f) {q q' : LinkedParam}
    (hq : q ∈ f.params) (hq' : q' ∈ f.params) {k : Nat} (hk : k ∈ q.indices)
    (hk' : k ∈ q'.indices) : q = q' := by
  obtain ⟨signature, params, last, -, hpair, rfl⟩ := link_eq_ok hf
  exact Link.eq_of_mem_indices hpair hq hq' hk hk'

end LinkedFunction

namespace Body

variable {f : LinkedFunction} {g : OpGraph} {e : Evaluation} {op : String} {s s' : Progress}
  {ss : List Statement}

/-! ## The candidates for writing in place -/

/-- The parameter that a value is, if it shares the memory of the return value. -/
def candidate? (f : LinkedFunction) : Value Nat → Option String
  | .param name => if (f.paramNamed? name).any (sharesReturn f) then some name else none
  | .literal _ | .output _ => none

/-- The parameters among values that share the memory of the return value. -/
def candidates (f : LinkedFunction) (vs : List (Value Nat)) : List String :=
  vs.filterMap (candidate? f)

theorem candidates_append (vs ws : List (Value Nat)) :
    candidates f (vs ++ ws) = candidates f vs ++ candidates f ws := List.filterMap_append

theorem mem_candidates {vs : List (Value Nat)} {name : String} :
    name ∈ candidates f vs ↔
      .param name ∈ vs ∧ ∃ p, f.paramNamed? name = some p ∧ sharesReturn f p = true := by
  rw [candidates, List.mem_filterMap]
  constructor
  · rintro ⟨v, hv, hname⟩
    cases v with
    | literal text => cases hname
    | output r => cases hname
    | param name' =>
      rw [candidate?] at hname
      split at hname
      · rename_i hany
        cases hname
        exact ⟨hv, (Option.any_eq_true _ _).1 hany⟩
      · cases hname
  · rintro ⟨hv, hshares⟩
    have hany : (f.paramNamed? name).any (sharesReturn f) = true :=
      (Option.any_eq_true _ _).2 hshares
    exact ⟨.param name, hv, if_pos hany⟩

/-- An input that is a candidate takes the place of the one before. -/
theorem inPlace?_input {v : Value Nat} {a : Argument}
    (h : input f g e op s v = .ok (ss, a, s')) :
    s'.inPlace? = (candidate? f v).or s.inPlace? := by
  cases v with
  | output r =>
    obtain ⟨l, -, -, -, rfl⟩ := input_output_eq_ok h
    rfl
  | literal text =>
    obtain ⟨-, -, rfl⟩ := input_literal_eq_ok h
    rfl
  | param name =>
    obtain ⟨p, hp, -, -, hinPlace, -⟩ := input_param_eq_ok h
    rw [hinPlace, candidate?, hp, Option.any_some]
    split
    · rfl
    · rfl

theorem inPlace?_inputs {vs : List (Value Nat)} {as : List Argument}
    (h : inputs f g e op s vs = .ok (ss, as, s')) :
    s'.inPlace? = (candidates f vs).getLast?.or s.inPlace? := by
  induction vs generalizing s ss as with
  | nil =>
    cases h
    rfl
  | cons v vs ih =>
    obtain ⟨here, a, s₁, more, as', hhere, hmore, -, -⟩ := inputs_cons_eq_ok h
    have hsplit : candidates f (v :: vs) = candidates f [v] ++ candidates f vs :=
      candidates_append [v] vs
    have hone : (candidates f [v]).getLast? = candidate? f v := by
      cases hv : candidate? f v <;> simp [candidates, hv]
    rw [ih hmore, inPlace?_input hhere, hsplit, List.getLast?_append, hone, Option.or_assoc]

theorem inPlace?_nodes {place : Nat} {is : List Nat}
    (h : (nodes f g e place is s).result = .ok (ss, s')) :
    s'.inPlace? = (candidates f (is.flatMap g.inputsAt)).getLast?.or s.inPlace? := by
  induction is generalizing place s ss with
  | nil =>
    cases h
    rfl
  | cons i is ih =>
    obtain ⟨here, s₁, more, hhere, hmore, -⟩ := nodes_cons_eq_ok h
    obtain ⟨n, bindings, arguments, entries, name, hn, hinputs, -, -, -⟩ := node_eq_ok hhere
    have hat : g.inputsAt i = n.inputs := by rw [OpGraph.inputsAt, hn]
    rw [ih hmore, inPlace?_inputs hinputs, List.flatMap_cons, hat, candidates_append,
      List.getLast?_append, Option.or_assoc]

/-! ## What was declared on the way -/

/-- The statements declare the parameters that are bound behind them and were not in front, the
one that is written in place is among them, and nothing is returned yet. -/
structure Prepares (s : Progress) (ss : List Statement) (s' : Progress) : Prop where
  bound : ∀ name, name ∈ s'.bound ↔ name ∈ s.bound ∨ .bindInput name ∈ ss
  inPlace : ∀ name, s'.inPlace? = some name → s.inPlace? = some name ∨ name ∈ s'.bound
  running : ∀ st ∈ ss, st.returns = false

theorem Prepares.append {s'' : Progress} {ts : List Statement} (h : Prepares s ss s')
    (h' : Prepares s' ts s'') : Prepares s (ss ++ ts) s'' where
  bound name := by rw [h'.bound, h.bound, List.mem_append, or_assoc]
  inPlace name hname := by
    rcases h'.inPlace name hname with hbefore | hbound
    · exact (h.inPlace name hbefore).imp_right fun hb => (h'.bound name).2 (.inl hb)
    · exact .inr hbound
  running := List.forall_mem_append.2 ⟨h.running, h'.running⟩

/-- Statements of other kinds bind no parameters. -/
theorem prepares_of_forall (s : Progress)
    (h : ∀ st ∈ ss, st.returns = false ∧ ∀ name, st ≠ .bindInput name) : Prepares s ss s where
  bound name := by
    refine ⟨.inl, fun hname => hname.resolve_right fun hin => ?_⟩
    exact (h _ hin).2 name rfl
  inPlace name hname := .inl hname
  running st hst := (h st hst).1

theorem prepares_input {v : Value Nat} {a : Argument}
    (h : input f g e op s v = .ok (ss, a, s')) : Prepares s ss s' := by
  cases v with
  | output r =>
    obtain ⟨l, -, rfl, -, rfl⟩ := input_output_eq_ok h
    exact prepares_of_forall s' (by simp)
  | literal text =>
    obtain ⟨rfl, -, rfl⟩ := input_literal_eq_ok h
    have hnone : Prepares s [.bindLiteral s.literals text] s :=
      prepares_of_forall s (by simp [Statement.returns])
    exact ⟨hnone.bound, hnone.inPlace, hnone.running⟩
  | param name =>
    obtain ⟨p, -, -, -, hinPlace, hcase⟩ := input_param_eq_ok h
    have hbinds : name ∈ s'.bound ∧
        (∀ other, other ∈ s'.bound ↔ other ∈ s.bound ∨ .bindInput other ∈ ss) ∧
        ∀ st ∈ ss, st.returns = false := by
      rcases hcase with ⟨hold, rfl, hbound⟩ | ⟨-, rfl, hbound⟩
      · rw [hbound]
        exact ⟨hold, by simp, by simp⟩
      · rw [hbound]
        exact ⟨List.mem_cons_self, by simp [or_comm], by simp [Statement.returns]⟩
    obtain ⟨hname, hbound, hrunning⟩ := hbinds
    refine ⟨hbound, fun other hother => ?_, hrunning⟩
    rw [hinPlace] at hother
    split at hother
    · cases hother
      exact .inr hname
    · exact .inl hother

theorem prepares_inputs {vs : List (Value Nat)} {as : List Argument}
    (h : inputs f g e op s vs = .ok (ss, as, s')) : Prepares s ss s' := by
  induction vs generalizing s ss as with
  | nil =>
    cases h
    exact prepares_of_forall s' (by simp)
  | cons v vs ih =>
    obtain ⟨here, a, s₁, more, as', hhere, hmore, rfl, -⟩ := inputs_cons_eq_ok h
    exact (prepares_input hhere).append (ih hmore)

theorem prepares_nodes {place : Nat} {is : List Nat}
    (h : (nodes f g e place is s).result = .ok (ss, s')) : Prepares s ss s' := by
  induction is generalizing place s ss with
  | nil =>
    cases h
    exact prepares_of_forall s' (by simp)
  | cons i is ih =>
    obtain ⟨here, s₁, more, hhere, hmore, rfl⟩ := nodes_cons_eq_ok h
    obtain ⟨n, bindings, arguments, entries, name, -, hinputs, -, -, rfl⟩ := node_eq_ok hhere
    have htable : Prepares s₁ (attributePart place entries).1 s₁ := by
      apply prepares_of_forall
      unfold attributePart
      split
      · simp
      · simp [Statement.returns]
    have hrun : Prepares s₁ [.bindOutputs (.outputs name) n.outputs,
        .invoke ⟨place == 0, n.name, arguments, .outputs name, (attributePart place entries).2,
          n.domain?⟩, .check] s₁ :=
      prepares_of_forall s₁ (by simp [Statement.returns])
    exact (((prepares_inputs hinputs).append htable).append hrun).append (ih hmore)

/-- A parameter that a body declares is declared there once. -/
theorem count_bindInput_ofGraph {body : List Statement} {name : String}
    (h : (ofGraph f g).result = .ok body) (hname : .bindInput name ∈ body) :
    body.count (.bindInput name) = 1 := by
  obtain ⟨front, back, rfl⟩ := List.append_of_mem hname
  have hdeclares : .declares (.input name) ∈ Statement.pieces (.bindInput name) := by
    simp [Statement.pieces, Statement.lines, Statement.bindPieces]
  obtain ⟨hfront, hback⟩ := notMem_declaredNames_of_nodup (scoped_ofGraph h).nodup.1 hdeclares
  have hnone : ∀ part : List Statement,
      (Local.input name).name ∉ declaredNames (bodyPieces part) →
        part.count (.bindInput name) = 0 := by
    intro part hpart
    refine List.count_eq_zero.2 fun hin => hpart ?_
    exact mem_declaredNames.2 ⟨_, List.mem_flatMap.2 ⟨_, hin, hdeclares⟩, rfl⟩
  rw [List.count_append, List.count_cons_self, hnone front hfront, hnone back hback]

/-! ## The return path -/

/-- The lines that copy the first of the outputs `result` into a parameter and return that. -/
def inPlaceLines (result param : String) : List String :=
  ["auto& ort_result_tensor = " ++ result ++ "[0].Get<onnxruntime::Tensor>();",
   "auto* ort_result_data = ort_result_tensor.DataRaw(ort_result_tensor.DataType());",
   "auto* ort_self_tensor = ort_input_" ++ param ++ ".GetMutable<onnxruntime::Tensor>();",
   "auto* ort_self_data = ort_self_tensor->MutableDataRaw(ort_self_tensor->DataType());",
   "memcpy(ort_self_data, ort_result_data, " ++
     "ort_self_tensor->DataType()->Size() * ort_self_tensor->Shape().Size());",
   "return " ++ param ++ ";"]

/-- The text that returns the first of the outputs `result` as a new tensor with the options of
a parameter. -/
def newTensorText (depth : Nat) (result param : String) : String :=
  Page.lineText depth "return aten_tensor_from_ort(" ++
    Page.lineText (depth + 1) ("std::move(" ++ result ++ "[0]),") ++
    Page.lineText (depth + 1) (param ++ ".options());")

theorem writeAll_append (depth : Nat) (ss ts : List Statement) :
    (Statement.writeAll (.blank depth) (ss ++ ts)).text =
      (Statement.writeAll (.blank depth) ss).text ++
        linesText depth (ts.flatMap Statement.lines) := by
  rw [Statement.text_writeAll_blank, Statement.text_writeAll_blank, List.flatMap_append,
    linesText_append]

theorem inPlaceLines_eq (result param : String) :
    inPlaceLines result param =
      Statement.copyLines (.outputs result) param ++ ["return " ++ param ++ ";"] := by
  simp [inPlaceLines, Statement.copyLines, Local.name, ← String.toList_inj]

theorem linesText_inPlace (depth : Nat) (result param : String) :
    linesText depth ([Statement.copyInto (.outputs result) param, .returnParam param].flatMap
      Statement.lines) = String.join ((inPlaceLines result param).map (Page.lineText depth)) := by
  rw [inPlaceLines_eq, ← Statement.map_piecesText_copyPieces]
  simp [Statement.lines, Statement.copyPieces, Line.text, Piece.text, String.append_assoc]

theorem linesText_newTensor (depth : Nat) (result param : String) :
    linesText depth ([Statement.returnNew (.outputs result) param].flatMap Statement.lines) =
      newTensorText depth result param := by
  simp [Statement.lines, newTensorText, Line.text, Piece.text, Local.name, String.append_assoc]

/-- What a body is made of: what runs the ops and does not return, and what returns the outputs
of the root. -/
theorem ofGraph_split {body : List Statement} (h : (ofGraph f g).result = .ok body) :
    ∃ first ops s root returns, firstTensor f = .ok first ∧
      (nodes f g g.evaluate 0 g.evaluate.order .start).result = .ok (ops, s) ∧
      g.evaluate.name? g.root = some root ∧
      returning f first (.outputs root) s = .ok returns ∧
      body = (.log (f.params.filterMap LinkedParam.name?) :: .bindInvoker first :: ops) ++
        returns := by
  obtain ⟨first, ops, s, l, returns, hfirst, hops, hl, hreturns, rfl⟩ := ofGraph_eq_ok h
  obtain ⟨i, hlast, hsingle⟩ := result_eq_ok hl
  cases (Evaluation.getLast?_order_evaluate g).symm.trans hlast
  obtain ⟨n, root, -, -, hroot, rfl⟩ := singleOutput_eq_ok hsingle
  exact ⟨first, ops, s, root, returns, hfirst, hops, hroot, hreturns, rfl⟩

/-- The parameter that is written in place is an input behind the root, shares the memory of the
return value, and was declared. -/
theorem inPlace?_ofGraph {ops : List Statement} {a : Schema.AliasInfo} {p : String}
    (ha : f.signature.writableReturn? = some a)
    (hops : (nodes f g g.evaluate 0 g.evaluate.order .start).result = .ok (ops, s))
    (hp : s.inPlace? = some p) :
    .bindInput p ∈ ops ∧ (∃ i, g.Reaches g.root i ∧ .param p ∈ g.inputsAt i) ∧
      ∃ q only, q ∈ f.params ∧ q.name? = some p ∧ f.schemaParams q = [only] ∧
        only.alias? = some a := by
  have hprepares := prepares_nodes hops
  have hdeclared : .bindInput p ∈ ops := by
    rcases hprepares.inPlace p hp with hstart | hbound
    · cases hstart
    · exact ((hprepares.bound p).1 hbound).resolve_left List.not_mem_nil
  have hlast : (candidates f (g.evaluate.order.flatMap g.inputsAt)).getLast? = some p := by
    have hnodes := inPlace?_nodes hops
    rw [hp] at hnodes
    simpa [Progress.start] using hnodes.symm
  obtain ⟨hv, q, hq, hshares⟩ := mem_candidates.1 (List.mem_of_getLast? hlast)
  obtain ⟨i, hi, hvi⟩ := List.mem_flatMap.1 hv
  obtain ⟨only, honly, halias⟩ := (sharesReturn_iff ha).1 hshares
  have hname : q.name? = some p := by
    simpa using List.find?_some hq
  exact ⟨hdeclared, ⟨i, Evaluation.mem_order_evaluate.1 hi, hvi⟩, q, only,
    List.mem_of_find?_eq_some hq, hname, honly, halias⟩

/-- The first parameter stands for the first schema parameter. -/
theorem firstTensor_paramFor {first : String} (h : firstTensor f = .ok first) :
    ∃ q ∈ f.params, 0 ∈ q.indices ∧ q.name? = some first := by
  unfold firstTensor at h
  split at h
  · rename_i p name hp hname
    split at h
    · cases h
      obtain ⟨q, hq, hqname⟩ := Option.bind_eq_some_iff.1 hname
      have hhead : q.indices.head? = some 0 := by
        simpa using List.find?_some hq
      exact ⟨q, List.mem_of_find?_eq_some hq, List.mem_of_head? hhead, hqname⟩
    · cases h
  · cases h

/-- **The return path.**  A body runs without returning to its last statements, which return the
first output of the root.  If the return value may be written, they copy that output into the
engine's value for a parameter and return the parameter: an input of a node that the root depends
on, which stands for exactly one schema parameter, with the alias annotation of the return value,
and whose value was declared once further in front.  Otherwise the output becomes a new tensor
with the options of the one parameter that stands for the first schema parameter. -/
theorem ofGraph_returns (d : Host.Declaration) (m : Metadata) (f : LinkedFunction) (g : OpGraph)
    (body : List Statement) (hf : (link d m).result = .ok f)
    (hbody : (ofGraph f g).result = .ok body) :
    ∃ run returns root, body = run ++ returns ∧ (∀ st ∈ run, st.returns = false) ∧
      g.evaluate.name? g.root = some root ∧
      (∀ a, f.signature.returnType.alias? = some a → a.writable = true →
        ∃ p, returns = [.copyInto (.outputs root) p, .returnParam p] ∧
          (∀ depth, (Statement.writeAll (.blank depth) body).text =
            (Statement.writeAll (.blank depth) run).text ++
              String.join ((inPlaceLines root p).map (Page.lineText depth))) ∧
          run.count (.bindInput p) = 1 ∧
          (∃ i, g.Reaches g.root i ∧ .param p ∈ g.inputsAt i) ∧
          ∃ q k only, q ∈ f.params ∧ q.name? = some p ∧ q.indices = [k] ∧
            f.signature.params[k]? = some only ∧ only.alias? = some a) ∧
      ((∀ a, f.signature.returnType.alias? = some a → a.writable = false) →
        ∃ p, returns = [.returnNew (.outputs root) p] ∧
          (∀ depth, (Statement.writeAll (.blank depth) body).text =
            (Statement.writeAll (.blank depth) run).text ++ newTensorText depth root p) ∧
          ∃ q ∈ f.params, q.name? = some p ∧ 0 ∈ q.indices ∧
            ∀ q' ∈ f.params, 0 ∈ q'.indices → q' = q) := by
  obtain ⟨first, ops, s, root, returns, hfirst, hops, hroot, hreturns, rfl⟩ := ofGraph_split hbody
  refine ⟨_, returns, root, rfl, ?_, hroot, ?_, ?_⟩
  · intro st hst
    rcases List.mem_cons.1 hst with rfl | hst
    · rfl
    rcases List.mem_cons.1 hst with rfl | hst
    · rfl
    · exact (prepares_nodes hops).running st hst
  · intro a ha hwritable
    have hreturn : f.signature.writableReturn? = some a := by
      rw [Schema.Signature.writableReturn?, ha, Option.filter_some_pos hwritable]
    rcases returning_eq_ok hreturns with ⟨hnone, -⟩ | ⟨a', p, -, hp, rfl⟩
    · rw [hreturn] at hnone
      cases hnone
    obtain ⟨hdeclared, hinput, q, only, hq, hname, honly, halias⟩ :=
      inPlace?_ofGraph hreturn hops hp
    obtain ⟨k, hk, hparam⟩ := LinkedFunction.indices_of_schemaParams hf hq honly
    refine ⟨p, rfl, fun depth => ?_, ?_, hinput, q, k, only, hq, hname, hk, hparam, halias⟩
    · rw [writeAll_append, linesText_inPlace]
    · have hbefore : .bindInput p ∈ .log (f.params.filterMap LinkedParam.name?) ::
          .bindInvoker first :: ops := List.mem_cons_of_mem _ (List.mem_cons_of_mem _ hdeclared)
      have hone := count_bindInput_ofGraph hbody (List.mem_append_left _ hbefore)
      rw [List.count_append] at hone
      simpa using hone
  · intro hnot
    have hreturn : f.signature.writableReturn? = none := by
      rw [Schema.Signature.writableReturn?, Option.filter_eq_none_iff]
      intro a ha
      simp [hnot a ha]
    rcases returning_eq_ok hreturns with ⟨-, rfl⟩ | ⟨a', p, ha', -, -⟩
    · obtain ⟨q, hq, hzero, hname⟩ := firstTensor_paramFor hfirst
      refine ⟨first, rfl, fun depth => ?_, q, hq, hname, hzero, fun q' hq' hzero' => ?_⟩
      · rw [writeAll_append, linesText_newTensor]
      · exact LinkedFunction.eq_of_mem_indices hf hq' hq hzero' hzero
    · rw [hreturn] at ha'
      cases ha'

/-- A function that writes its result over its argument returns its argument. -/
theorem ofGraph_returns_doubledExp :
    (link expInPlace.declaration expInPlace.metadata).result = .ok expInPlace ∧
    (ofGraph expInPlace doubledExp).result = .ok doubledExpBody ∧
    ∃ run root, doubledExpBody = run ++ [.copyInto (.outputs root) "self", .returnParam "self"] ∧
      run.count (.bindInput "self") = 1 := by
  have hs : Schema.Signature.ofText expInPlace.schema = .ok expInPlace.signature := by
    have hread : (Schema.Signature.ofText expInPlace.schema).toOption =
        some expInPlace.signature := by decide +kernel
    cases hresult : Schema.Signature.ofText expInPlace.schema with
    | error e => rw [hresult] at hread; cases hread
    | ok s => rw [hresult] at hread; cases hread; rfl
  have hf : (link expInPlace.declaration expInPlace.metadata).result = .ok expInPlace :=
    (link_eq hs).2 expInPlace.params 1 rfl
  have hbody : (ofGraph expInPlace doubledExp).result = .ok doubledExpBody := by cbv
  obtain ⟨run, returns, root, hsplit, -, -, hcopied, -⟩ := ofGraph_returns expInPlace.declaration
    expInPlace.metadata expInPlace doubledExp doubledExpBody hf hbody
  obtain ⟨p, rfl, -, hone, -, q, k, only, hq, hname, -⟩ :=
    hcopied ⟨[.set "a"], none, true⟩ rfl rfl
  have hself : p = "self" := by
    cases List.mem_singleton.1 hq
    exact (Option.some.inj hname).symm
  subst hself
  exact ⟨hf, hbody, run, root, hsplit, hone⟩

end Body

end KernelGen
