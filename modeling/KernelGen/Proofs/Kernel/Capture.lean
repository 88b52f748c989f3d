import KernelGen.Proofs.Kernel.Returning
set_option autoImplicit false

/-!
# Kernel: locals that capture parameters

A body is one block, so a parameter of the function is out of reach behind a local of its name.
The names of locals are made up without a look at the parameters: `invoker`, `status` and the four
names that copying takes are fixed words, and the others are made from parameters, from counters
and from ops.  `Body.locals` lists what a body declares, read off the function and the graph, and a
parameter keeps its name throughout the body exactly when none of these locals has it.

What the inputs of the ops declare depends on what was declared in front; `Body.Takes` says it for
a run of statements, and such runs are put together.
-/

namespace KernelGen

/-! ## What statements declare -/

namespace Statement

/-- The locals that a statement declares, in order. -/
def declared : Statement → List Local
  | .bindInvoker _ => [.invoker]
  | .bindInput param => [.input param]
  | .bindLiteral index _ => [.literal index]
  | .bindAttributes table _ => [table]
  | .bindOutputs outputs _ => [outputs]
  | .invoke i => if i.isFirst then [.status] else []
  | .copyInto .. => [.resultTensor, .resultData, .selfTensor, .selfData]
  | .log _ | .check | .returnNew .. | .returnParam _ => []

theorem declares_notMem_argument (l : Local) (a : Argument) : .declares l ∉ a.pieces := by
  cases a <;> simp [Argument.pieces]

theorem declares_notMem_attribute (l : Local) (a : AttributeValue) : .declares l ∉ a.pieces := by
  cases a <;> simp [AttributeValue.pieces]

theorem declares_notMem_closing (l : Local) (i : Invocation) :
    .declares l ∉ closingPieces i := by
  unfold closingPieces
  cases i.attributes? <;> simp

theorem declares_mem_pieces {st : Statement} {l : Local} :
    .declares l ∈ st.pieces ↔ l ∈ st.declared := by
  cases st with
  | bindAttributes table entries =>
    simp [pieces_bindAttributes, declared, attributePieces, declares_notMem_attribute]
  | invoke i =>
    simp only [pieces_invoke, List.mem_append, declares_notMem_closing, List.mem_flatMap,
      declares_notMem_argument, openingPieces, declared]
    cases i.isFirst <;> simp
  | _ => simp [pieces, lines, bindPieces, copyPieces, declared, Line.blank]

end Statement

theorem declares_mem_bodyPieces {body : List Statement} {l : Local} :
    .declares l ∈ bodyPieces body ↔ l ∈ body.flatMap Statement.declared := by
  simp only [bodyPieces, List.mem_flatMap, Statement.declares_mem_pieces]

/-! ## The locals of a body -/

/-- The inputs of the nodes that are executed, in the order of execution. -/
def OpGraph.inputsRun (g : OpGraph) : List (Value Nat) := g.evaluate.order.flatMap g.inputsAt

/-- The parameters among values. -/
def paramsAmong (vs : List (Value Nat)) : List String :=
  vs.filterMap fun
    | .param name => some name
    | .literal _ | .output _ => none

/-- The number of expressions among values. -/
def literalsAmong (vs : List (Value Nat)) : Nat :=
  vs.countP fun
    | .literal _ => true
    | .param _ | .output _ => false

@[simp] theorem paramsAmong_append (vs ws : List (Value Nat)) :
    paramsAmong (vs ++ ws) = paramsAmong vs ++ paramsAmong ws := List.filterMap_append

@[simp] theorem literalsAmong_append (vs ws : List (Value Nat)) :
    literalsAmong (vs ++ ws) = literalsAmong vs + literalsAmong ws := List.countP_append

namespace Body

/-- The locals of the node `i`, at `place` in the order of execution, its inputs apart. -/
def nodeLocals (g : OpGraph) (place i : Nat) : List Local :=
  match g.nodes[i]? with
  | none => []
  | some n =>
    (if n.attributes.any (·.2.isSome) then [.attributeTable place] else []) ++
      [.outputs (bindingName place n.name)] ++ if place = 0 then [.status] else []

/-- The locals that a body declares. -/
def locals (f : LinkedFunction) (g : OpGraph) : List Local :=
  .invoker :: (paramsAmong g.inputsRun).map Local.input ++
    (List.range (literalsAmong g.inputsRun)).map Local.literal ++
    g.evaluate.order.zipIdx.flatMap (fun x => nodeLocals g x.2 x.1) ++
    if f.signature.writableReturn?.isSome then
      [.resultTensor, .resultData, .selfTensor, .selfData]
    else []

variable {f : LinkedFunction} {g : OpGraph} {e : Evaluation} {op : String}
  {s s' : Progress} {ss : List Statement} {vs : List (Value Nat)} {own : List Local}

/-- The statements take the inputs `vs`, and declare `own` beside what stands for the inputs. -/
structure Takes (s : Progress) (vs : List (Value Nat)) (own : List Local) (ss : List Statement)
    (s' : Progress) : Prop where
  bound : ∀ name, name ∈ s'.bound ↔ name ∈ s.bound ∨ name ∈ paramsAmong vs
  literals : s'.literals = s.literals + literalsAmong vs
  declared : ∀ l, l ∈ ss.flatMap Statement.declared ↔ l ∈ own ∨
    (∃ name, l = .input name ∧ name ∉ s.bound ∧ name ∈ s'.bound) ∨
    ∃ k, l = .literal k ∧ s.literals ≤ k ∧ k < s'.literals

theorem Takes.append {s'' : Progress} {ws : List (Value Nat)} {own' : List Local}
    {ts : List Statement} (h : Takes s vs own ss s') (h' : Takes s' ws own' ts s'') :
    Takes s (vs ++ ws) (own ++ own') (ss ++ ts) s'' where
  bound name := by rw [h'.bound, h.bound, paramsAmong_append, List.mem_append, or_assoc]
  literals := by rw [h'.literals, h.literals, literalsAmong_append, Nat.add_assoc]
  declared l := by
    have hkeeps : ∀ name ∈ s.bound, name ∈ s'.bound := fun name hn => (h.bound name).2 (.inl hn)
    have hkeeps' : ∀ name ∈ s'.bound, name ∈ s''.bound := fun name hn =>
      (h'.bound name).2 (.inl hn)
    have hliterals := h.literals
    have hliterals' := h'.literals
    rw [List.flatMap_append, List.mem_append, h.declared, h'.declared, List.mem_append]
    constructor
    · rintro ((hown | ⟨name, rfl, hnew, hin⟩ | ⟨k, rfl, hle, hlt⟩) |
        (hown | ⟨name, rfl, hnew, hin⟩ | ⟨k, rfl, hle, hlt⟩))
      · exact .inl (.inl hown)
      · exact .inr (.inl ⟨name, rfl, hnew, hkeeps' name hin⟩)
      · exact .inr (.inr ⟨k, rfl, hle, by omega⟩)
      · exact .inl (.inr hown)
      · exact .inr (.inl ⟨name, rfl, fun hold => hnew (hkeeps name hold), hin⟩)
      · exact .inr (.inr ⟨k, rfl, by omega, hlt⟩)
    · rintro ((hown | hown) | ⟨name, rfl, hnew, hin⟩ | ⟨k, rfl, hle, hlt⟩)
      · exact .inl (.inl hown)
      · exact .inr (.inl hown)
      · by_cases hmid : name ∈ s'.bound
        · exact .inl (.inr (.inl ⟨name, rfl, hnew, hmid⟩))
        · exact .inr (.inr (.inl ⟨name, rfl, hmid, hin⟩))
      · by_cases hmid : k < s'.literals
        · exact .inl (.inr (.inr ⟨k, rfl, hle, hmid⟩))
        · exact .inr (.inr (.inr ⟨k, rfl, by omega, hlt⟩))

/-- Statements that take no inputs. -/
theorem takes_nil (s : Progress) (h : ∀ l, l ∈ ss.flatMap Statement.declared ↔ l ∈ own) :
    Takes s [] own ss s where
  bound name := by simp [paramsAmong]
  literals := rfl
  declared l := by
    rw [h]
    grind

theorem takes_input {v : Value Nat} {a : Argument} (h : input f g e op s v = .ok (ss, a, s')) :
    Takes s [v] [] ss s' := by
  cases v with
  | output r =>
    obtain ⟨l, -, rfl, -, rfl⟩ := input_output_eq_ok h
    have hnone : Takes s' [] [] [] s' := takes_nil s' (by simp)
    exact ⟨hnone.bound, hnone.literals, hnone.declared⟩
  | literal text =>
    obtain ⟨rfl, -, rfl⟩ := input_literal_eq_ok h
    refine ⟨fun name => by simp [paramsAmong], rfl, fun l => ?_⟩
    have hone : ∀ k, s.literals ≤ k ∧ k ≤ s.literals ↔ k = s.literals := by omega
    simp [Statement.declared, hone]
  | param name =>
    obtain ⟨p, -, -, hliterals, -, hcase⟩ := input_param_eq_ok h
    have hno : ∀ k, ¬ (s.literals ≤ k ∧ k < s'.literals) := by omega
    rcases hcase with ⟨hold, rfl, hbound⟩ | ⟨hnew, rfl, hbound⟩
    · refine ⟨fun other => ?_, hliterals, fun l => ?_⟩
      · rw [hbound]
        exact ⟨.inl, fun hother => hother.elim id fun heq => List.mem_singleton.1 heq ▸ hold⟩
      · rw [hbound]
        simp [hno]
    · refine ⟨fun other => ?_, hliterals, fun l => ?_⟩
      · rw [hbound, List.mem_cons, or_comm]
        exact or_congr_right List.mem_singleton.symm
      · have hone : ∀ other, other ∉ s.bound ∧ other ∈ s'.bound ↔ other = name := by
          intro other
          rw [hbound, List.mem_cons]
          grind
        simp [Statement.declared, hone, hno]

theorem takes_inputs {as : List Argument} (h : inputs f g e op s vs = .ok (ss, as, s')) :
    Takes s vs [] ss s' := by
  induction vs generalizing s ss as with
  | nil =>
    cases h
    exact takes_nil s' (by simp)
  | cons v vs ih =>
    obtain ⟨here, a, s₁, more, as', hhere, hmore, rfl, -⟩ := inputs_cons_eq_ok h
    exact (takes_input hhere).append (ih hmore)

/-- Attributes without a value leave no entry. -/
theorem isEmpty_attributeEntries {as : List (String × Option (Value Nat))}
    {entries : List (String × AttributeValue)}
    (h : (attributeEntries f g e op as).result = .ok entries) :
    entries.isEmpty = !as.any (·.2.isSome) := by
  induction as generalizing entries with
  | nil =>
    cases h
    rfl
  | cons a as ih =>
    obtain ⟨key, v?⟩ := a
    cases v? with
    | none => simpa using ih (attributeEntries_none_eq_ok h)
    | some v =>
      obtain ⟨value, more, -, -, rfl⟩ := attributeEntries_some_eq_ok h
      rfl

/-- A node takes its inputs, and declares its table, its outputs and, if it is the first, the
status. -/
theorem takes_node {front back : List Nat} {i : Nat}
    (horder : g.evaluate.order = front ++ i :: back)
    (h : (node f g g.evaluate front.length i s).result = .ok (ss, s')) :
    Takes s (g.inputsAt i) (nodeLocals g front.length i) ss s' := by
  obtain ⟨n, bindings, arguments, entries, name, hn, hinputs, hentries, hname, rfl⟩ := node_eq_ok h
  have hat : g.inputsAt i = n.inputs := by rw [OpGraph.inputsAt, hn]
  obtain rfl : bindingName front.length n.name = name :=
    Option.some.inj ((name?_evaluate horder hn).symm.trans hname)
  have htable : (attributePart front.length entries).1.flatMap Statement.declared =
      if n.attributes.any (·.2.isSome) then [.attributeTable front.length] else [] := by
    rw [attributePart, isEmpty_attributeEntries hentries]
    cases n.attributes.any (·.2.isSome) <;> rfl
  have hown : Takes s' [] (nodeLocals g front.length i)
      ((attributePart front.length entries).1 ++
        [.bindOutputs (.outputs (bindingName front.length n.name)) n.outputs,
         .invoke ⟨front.length == 0, n.name, arguments,
           .outputs (bindingName front.length n.name), (attributePart front.length entries).2,
           n.domain?⟩,
         .check]) s' := by
    refine takes_nil s' fun l => ?_
    rw [List.flatMap_append, htable, nodeLocals, hn]
    simp [Statement.declared]
  rw [hat, List.append_assoc]
  simpa using (takes_inputs hinputs).append hown

theorem takes_nodes {front is : List Nat} (horder : g.evaluate.order = front ++ is)
    (h : (nodes f g g.evaluate front.length is s).result = .ok (ss, s')) :
    Takes s (is.flatMap g.inputsAt)
      ((is.zipIdx front.length).flatMap fun x => nodeLocals g x.2 x.1) ss s' := by
  induction is generalizing front s ss with
  | nil =>
    cases h
    exact takes_nil s' (by simp)
  | cons i is ih =>
    obtain ⟨here, s₁, more, hhere, hmore, rfl⟩ := nodes_cons_eq_ok h
    have hrest : g.evaluate.order = (front ++ [i]) ++ is := by simp [horder]
    have hlength : (front ++ [i]).length = front.length + 1 := List.length_append
    have hbehind := ih hrest (hlength ▸ hmore)
    rw [hlength] at hbehind
    exact (takes_node horder hhere).append hbehind

/-- What a body declares can be read off the function and the graph. -/
theorem declares_ofGraph_iff {body : List Statement} (h : (ofGraph f g).result = .ok body)
    (l : Local) : .declares l ∈ bodyPieces body ↔ l ∈ locals f g := by
  obtain ⟨first, ops, s, result, returns, -, hops, -, hreturns, rfl⟩ := ofGraph_eq_ok h
  have horder : g.evaluate.order = [] ++ g.evaluate.order := (List.nil_append _).symm
  have htakes : Takes .start g.inputsRun _ ops s := takes_nodes horder hops
  have hreturned : returns.flatMap Statement.declared =
      if f.signature.writableReturn?.isSome then
        [.resultTensor, .resultData, .selfTensor, .selfData]
      else [] := by
    rcases returning_eq_ok hreturns with ⟨hnone, rfl⟩ | ⟨a, p, ha, -, rfl⟩
    · rw [hnone]
      rfl
    · rw [ha]
      rfl
  have hparams : (∃ name, l = .input name ∧ name ∉ Progress.start.bound ∧ name ∈ s.bound) ↔
      l ∈ (paramsAmong g.inputsRun).map .input := by
    simp [htakes.bound, Progress.start, eq_comm, and_comm]
  have hliterals : (∃ k, l = .literal k ∧ Progress.start.literals ≤ k ∧ k < s.literals) ↔
      l ∈ (List.range (literalsAmong g.inputsRun)).map .literal := by
    simp [htakes.literals, Progress.start, eq_comm, and_comm]
  have hops := htakes.declared l
  rw [hparams, hliterals, or_comm] at hops
  rw [declares_mem_bodyPieces, List.flatMap_append, List.mem_append, hreturned]
  simp only [List.cons_append, List.flatMap_cons, List.mem_append, hops, locals, List.mem_cons,
    Statement.declared, List.not_mem_nil, false_or, List.length_nil, or_assoc]

/-! ## What names stand for -/

/-- What a name stands for in a body. -/
inductive Referent where
  /-- a parameter of the function -/
  | param (p : LinkedParam)
  /-- a local that was declared -/
  | declared (l : Local)

/-- What a name stands for behind the text in front of it: the local that was declared there, and
otherwise the parameter of the function. -/
def referent? (f : LinkedFunction) (front : List Piece) (name : String) : Option Referent :=
  match (front.filterMap Piece.declared?).find? (·.name == name) with
  | some l => some (.declared l)
  | none => (f.paramNamed? name).map .param

theorem referent?_eq_param {front : List Piece} {name : String} {p : LinkedParam}
    (hp : f.paramNamed? name = some p) :
    referent? f front name = some (.param p) ↔ name ∉ declaredNames front := by
  unfold referent?
  split
  · rename_i l hl
    have hname : l.name = name := by simpa using List.find?_some hl
    have hdeclared : name ∈ declaredNames front :=
      List.mem_map.2 ⟨l, List.mem_of_find?_eq_some hl, hname⟩
    simp [hdeclared]
  · rename_i hnone
    rw [List.find?_eq_none] at hnone
    have hfree : name ∉ declaredNames front := by
      intro hin
      obtain ⟨l, hl, hname⟩ := List.mem_map.1 hin
      exact hnone l hl (by simpa using hname)
    simp [hp, hfree]

/-- **Capture.**  Whenever a body was made for a graph, the locals that its text declares are those
that `locals` lists, and the name of a parameter stands for the parameter at every place of the
text exactly when none of these locals has it. -/
theorem referents_ofGraph (f : LinkedFunction) (g : OpGraph) (body : List Statement)
    (h : (ofGraph f g).result = .ok body) :
    let lines := body.flatMap Statement.lines
    let pieces := lines.flatMap Line.pieces
    (∀ depth, (Statement.writeAll (.blank depth) body).text = linesText depth lines) ∧
    (∀ l, .declares l ∈ pieces ↔ l ∈ locals f g) ∧
    ∀ name p, f.paramNamed? name = some p →
      ((∀ front back, pieces = front ++ back → referent? f front name = some (.param p)) ↔
        ∀ l ∈ locals f g, l.name ≠ name) := by
  intro lines pieces
  have hpieces : pieces = bodyPieces body := bodyPieces_eq body
  have hlocals : ∀ l, .declares l ∈ pieces ↔ l ∈ locals f g := by
    rw [hpieces]
    exact declares_ofGraph_iff h
  refine ⟨fun depth => Statement.text_writeAll_blank depth body, hlocals,
    fun name p hp => ⟨fun hall l hl hname => ?_, ?_⟩⟩
  · have hwhole := hall pieces [] (List.append_nil _).symm
    have hfree := (referent?_eq_param hp).1 hwhole
    exact hfree (mem_declaredNames.2 ⟨l, (hlocals l).2 hl, hname⟩)
  · intro hne front back hsplit
    refine (referent?_eq_param hp).2 fun hin => ?_
    obtain ⟨l, hl, hname⟩ := mem_declaredNames.1 hin
    have hmem : .declares l ∈ pieces := hsplit ▸ List.mem_append_left back hl
    exact hne l ((hlocals l).1 hmem) hname

/-- The parameter of `expInPlace` keeps its name throughout the body. -/
theorem referents_ofGraph_doubledExp :
    (ofGraph expInPlace doubledExp).result = .ok doubledExpBody ∧
    expInPlace.paramNamed? "self" = some expInPlace.params[0] ∧
    ∀ front back, (doubledExpBody.flatMap Statement.lines).flatMap Line.pieces = front ++ back →
      referent? expInPlace front "self" = some (.param expInPlace.params[0]) := by
  have h : (ofGraph expInPlace doubledExp).result = .ok doubledExpBody := by cbv
  have hself : expInPlace.paramNamed? "self" = some expInPlace.params[0] := rfl
  have hfree : ∀ l ∈ locals expInPlace doubledExp, l.name ≠ "self" := by
    have hlocals : locals expInPlace doubledExp = [.invoker, .input "self",
        .outputs "result_0_Exp", .status, .attributeTable 1, .outputs "result_1_Add",
        .resultTensor, .resultData, .selfTensor, .selfData] := by cbv
    rw [hlocals]
    decide
  exact ⟨h, hself, ((referents_ofGraph _ _ _ h).2.2 "self" _ hself).2 hfree⟩

/-! ## A parameter that is captured -/

open Source

/-- A header in which a parameter has the name of a local. -/
def statusHeader : String := "at::Tensor relu(at::Tensor status);"

/-- The declaration of `statusHeader`. -/
def statusDeclaration : Host.Declaration where
  returnType := ⟨false, false, ["at", "Tensor"], [], []⟩
  name := "relu"
  params := [⟨⟨false, false, ["at", "Tensor"], [], []⟩, some "status", none⟩]
  terminator := ⟨.semicolon, ";", ⟨1, 35⟩, [], []⟩
  location := ⟨1, 1⟩

/-- The operator of `statusDeclaration`. -/
def statusMetadata : Metadata := ⟨"aten::relu(Tensor self) -> Tensor", true, false⟩

/-- The declaration, linked to the operator. -/
def statusFunction : LinkedFunction where
  declaration := statusDeclaration
  metadata := statusMetadata
  signature :=
    let tensor : Schema.SchemaType := ⟨.tensor, none, []⟩
    ⟨["aten", "relu"], none, [.value tensor (some "self") none], .value tensor⟩
  params := statusDeclaration.params.map (.declared · [0])

/-- One op on the parameter. -/
def statusGraph : OpGraph where
  owner := 0
  nodes := [⟨"Relu", 1, [.param "status"], [], none⟩]
  root := 0
  root_lt := by decide
  references_lt := by decide

/-- The body that computes `statusGraph`. -/
def statusBody : List Statement :=
  [.log ["status"], .bindInvoker "status", .bindInput "status",
    .bindOutputs (.outputs "result_0_Relu") 1,
    .invoke ⟨true, "Relu", [.whole (.input "status")], .outputs "result_0_Relu", none, none⟩,
    .check, .returnNew (.outputs "result_0_Relu") "status"]

/-- The tokens of `statusHeader`. -/
def statusTokens : List Token := (tokenize statusHeader).toOption.getD []

theorem listed_status : listed Host.Param.step Host.Param.step_consumes (statusTokens.drop 5) =
    .ok (statusDeclaration.params, statusTokens.drop 9) := by
  obtain ⟨hparam, hfirst, hend⟩ :
      Host.Param.step (statusTokens.drop 5) =
        .ok (⟨⟨false, false, ["at", "Tensor"], [], []⟩, some "status", none⟩,
          statusTokens.drop 9) ∧
      (next (statusTokens.drop 5)).kind = .identifier ∧
      (next (statusTokens.drop 9)).kind = .closeParen := by cbv
  have hparams := readsSeparated_commaSeparated Host.Param.step Host.Param.step_consumes
  exact (if_neg (by simp [hfirst])).trans (hparams.one hparam (by simp [hend]))

theorem declarations_status : Host.declarations statusHeader = .ok [statusDeclaration] := by
  obtain ⟨hts, hfirst, hlast⟩ : tokenize statusHeader = .ok statusTokens ∧
      (next statusTokens).kind = .identifier ∧ (next (statusTokens.drop 11)).kind = .eof := by cbv
  obtain ⟨hreturn, hname, hopen, hclose, hterminator⟩ :
      Host.HostType.step (statusTokens.dropWhile Host.isSpecifier) =
        .ok (statusDeclaration.returnType, statusTokens.drop 3) ∧
      expect .identifier .functionName (statusTokens.drop 3) =
        .ok (⟨.identifier, "relu", ⟨1, 12⟩, [], []⟩, statusTokens.drop 4) ∧
      expect .openParen .openParen (statusTokens.drop 4) =
        .ok (next (statusTokens.drop 4), statusTokens.drop 5) ∧
      expect .closeParen .closeParen (statusTokens.drop 9) =
        .ok (next (statusTokens.drop 9), statusTokens.drop 10) ∧
      expect .semicolon .endOfDeclaration (statusTokens.drop 10) =
        .ok (statusDeclaration.terminator, statusTokens.drop 11) := by cbv
  have hlocation :
      (next (statusTokens.dropWhile Host.isSpecifier)).location = statusDeclaration.location := by
    cbv
  have hstep : Host.Declaration.step statusTokens =
      .ok (statusDeclaration, statusTokens.drop 11) :=
    Host.Declaration.step_of_parts hlocation hreturn hname rfl hopen listed_status rfl hclose
      hterminator
  exact Host.declarations_of_step hts (by simp [hfirst]) hstep hlast

/-- The options of what is returned are not those of the parameter. -/
theorem status_captured :
    Host.declarations statusHeader = .ok [statusDeclaration] ∧
    (link statusDeclaration statusMetadata).result = .ok statusFunction ∧
    (ofGraph statusFunction statusGraph).result = .ok statusBody ∧
    (∃ p ∈ statusFunction.params, p.name? = some Local.status.name) ∧
    .declares .status ∈ (statusBody.flatMap Statement.lines).flatMap Line.pieces ∧
    ∃ front, (statusBody.flatMap Statement.lines).flatMap Line.pieces =
        front ++ [.code "status.options());"] ∧
      referent? statusFunction front "status" = some (.declared .status) := by
  have hlink : (link statusDeclaration statusMetadata).result = .ok statusFunction := by cbv
  have hbody : (ofGraph statusFunction statusGraph).result = .ok statusBody := by cbv
  refine ⟨declarations_status, hlink, hbody, ⟨_, List.mem_singleton_self _, rfl⟩, by decide,
    ((statusBody.flatMap Statement.lines).flatMap Line.pieces).dropLast, by decide, ?_⟩
  rfl

end Body

end KernelGen
