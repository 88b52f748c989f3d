import KernelGen.Kernel.Body
set_option autoImplicit false

/-!
# Kernel: the parts of a body

What a body that was made looks like, one statement for each function that makes a part of it.
A part exists only when everything it needs was found, and these statements say what that was;
whoever reasons about bodies goes through them and not through the definitions.
-/

namespace KernelGen.Body

open Source (bind_eq_ok)

variable {f : LinkedFunction} {g : OpGraph} {e : Evaluation} {op : String}

theorem outputsOf_eq_ok {i : Nat} {l : Local} (h : outputsOf e i = .ok l) :
    ∃ name, e.name? i = some name ∧ l = .outputs name := by
  unfold outputsOf at h
  split at h
  · rename_i name hname
    cases h
    exact ⟨name, hname, rfl⟩
  · cases h

theorem singleOutput_eq_ok {i : Nat} {l : Local} (h : singleOutput f g e i = .ok l) :
    ∃ n name, g.nodes[i]? = some n ∧ n.outputs = 1 ∧ e.name? i = some name ∧
      l = .outputs name := by
  unfold singleOutput at h
  split at h
  · cases h
  · rename_i n hn
    split at h
    · rename_i hone
      obtain ⟨name, hname, rfl⟩ := outputsOf_eq_ok h
      exact ⟨n, name, hn, hone, hname, rfl⟩
    · cases h

theorem requireParam_eq_ok {name : String} {p : LinkedParam}
    (h : requireParam f op name = .ok p) : f.paramNamed? name = some p := by
  unfold requireParam at h
  split at h
  · rename_i p' hp'
    cases h
    exact hp'
  · cases h

/-! ## Inputs -/

theorem input_output_eq_ok {s s' : Progress} {i : Nat} {ss : List Statement} {a : Argument}
    (h : input f g e op s (.output i) = .ok (ss, a, s')) :
    ∃ l, singleOutput f g e i = .ok l ∧ ss = [] ∧ a = .first l ∧ s' = s := by
  obtain ⟨l, hl, h⟩ := bind_eq_ok.1 h
  cases h
  exact ⟨l, hl, rfl, rfl, rfl⟩

/-- A parameter is declared when it is used for the first time. -/
theorem input_param_eq_ok {s s' : Progress} {name : String} {ss : List Statement} {a : Argument}
    (h : input f g e op s (.param name) = .ok (ss, a, s')) :
    ∃ p, f.paramNamed? name = some p ∧ a = .whole (.input name) ∧ s'.literals = s.literals ∧
      s'.inPlace? = (if sharesReturn f p then some name else s.inPlace?) ∧
      ((name ∈ s.bound ∧ ss = [] ∧ s'.bound = s.bound) ∨
        (name ∉ s.bound ∧ ss = [.bindInput name] ∧ s'.bound = name :: s.bound)) := by
  obtain ⟨p, hp, h⟩ := bind_eq_ok.1 h
  refine ⟨p, requireParam_eq_ok hp, ?_⟩
  dsimp only at h
  split at h
  · rename_i hbound
    cases h
    exact ⟨rfl, rfl, rfl, .inl ⟨List.contains_iff_mem.1 hbound, rfl, rfl⟩⟩
  · rename_i hbound
    cases h
    exact ⟨rfl, rfl, rfl, .inr ⟨fun hm => hbound (List.contains_iff_mem.2 hm), rfl, rfl⟩⟩

/-- Behind an input that is a parameter, it is declared, and so is what is written in place. -/
theorem bound_of_input_param {s s' : Progress} {name : String} {ss : List Statement} {a : Argument}
    (h : input f g e op s (.param name) = .ok (ss, a, s'))
    (hinPlace : ∀ param, s.inPlace? = some param → param ∈ s.bound) :
    name ∈ s'.bound ∧ (∀ param ∈ s.bound, param ∈ s'.bound) ∧
      (∀ param ∈ s'.bound, param ∈ s.bound ∨ name = param) ∧
      ∀ param, s'.inPlace? = some param → param ∈ s'.bound := by
  obtain ⟨p, -, -, -, hin, hcase⟩ := input_param_eq_ok h
  have hbound : name ∈ s'.bound ∧ (∀ param ∈ s.bound, param ∈ s'.bound) ∧
      ∀ param ∈ s'.bound, param ∈ s.bound ∨ name = param := by
    rcases hcase with ⟨hmem, -, hbound⟩ | ⟨-, -, hbound⟩
    · rw [hbound]
      exact ⟨hmem, fun _ hparam => hparam, fun _ hparam => .inl hparam⟩
    · rw [hbound]
      refine ⟨List.mem_cons_self, fun _ hparam => List.mem_cons_of_mem _ hparam, ?_⟩
      intro param hparam
      rcases List.mem_cons.1 hparam with rfl | hold
      · exact .inr rfl
      · exact .inl hold
  obtain ⟨hname, hmore, honly⟩ := hbound
  refine ⟨hname, hmore, honly, ?_⟩
  intro param hparam
  rw [hin] at hparam
  split at hparam
  · cases hparam
    exact hname
  · exact hmore param (hinPlace param hparam)

theorem input_literal_eq_ok {s s' : Progress} {text : String} {ss : List Statement} {a : Argument}
    (h : input f g e op s (.literal text) = .ok (ss, a, s')) :
    ss = [.bindLiteral s.literals text] ∧ a = .whole (.literal s.literals) ∧
      s' = ⟨s.bound, s.literals + 1, s.inPlace?⟩ := by
  cases h
  exact ⟨rfl, rfl, rfl⟩

theorem inputs_cons_eq_ok {s s' : Progress} {v : Value Nat} {vs : List (Value Nat)}
    {ss : List Statement} {as : List Argument}
    (h : inputs f g e op s (v :: vs) = .ok (ss, as, s')) :
    ∃ here a s₁ more as', input f g e op s v = .ok (here, a, s₁) ∧
      inputs f g e op s₁ vs = .ok (more, as', s') ∧ ss = here ++ more ∧ as = a :: as' := by
  obtain ⟨⟨here, a, s₁⟩, hhere, h⟩ := bind_eq_ok.1 h
  obtain ⟨⟨more, as', s₂⟩, hmore, h⟩ := bind_eq_ok.1 h
  cases h
  exact ⟨here, a, s₁, more, as', hhere, hmore, rfl, rfl⟩

/-! ## Attributes -/

theorem attributeValue_eq_ok {v : Value Nat} {a : AttributeValue}
    (h : attributeValue f g e op v = .ok a) :
    (∃ name p, v = .param name ∧ f.paramNamed? name = some p ∧ a = .param name) ∨
      (∃ text, v = .literal text ∧ a = .literal text) ∨
      (∃ i l, v = .output i ∧ singleOutput f g e i = .ok l ∧ a = .first l) := by
  cases v with
  | param name =>
    obtain ⟨p, hp, h⟩ := bind_eq_ok.1 h
    cases h
    exact .inl ⟨name, p, rfl, requireParam_eq_ok hp, rfl⟩
  | literal text =>
    cases h
    exact .inr (.inl ⟨text, rfl, rfl⟩)
  | output i =>
    obtain ⟨l, hl, h⟩ := bind_eq_ok.1 h
    cases h
    exact .inr (.inr ⟨i, l, rfl, hl, rfl⟩)

theorem attributeEntries_none_eq_ok {key : String} {as : List (String × Option (Value Nat))}
    {entries : List (String × AttributeValue)}
    (h : (attributeEntries f g e op ((key, none) :: as)).result = .ok entries) :
    (attributeEntries f g e op as).result = .ok entries := by
  obtain ⟨_, _, h⟩ := Outcome.result_bind_eq_ok.1 h
  exact h

theorem attributeEntries_some_eq_ok {key : String} {v : Value Nat}
    {as : List (String × Option (Value Nat))} {entries : List (String × AttributeValue)}
    (h : (attributeEntries f g e op ((key, some v) :: as)).result = .ok entries) :
    ∃ a more, attributeValue f g e op v = .ok a ∧
      (attributeEntries f g e op as).result = .ok more ∧ entries = (key, a) :: more := by
  obtain ⟨a, ha, h⟩ := Outcome.result_bind_eq_ok.1 h
  obtain ⟨more, hmore, h⟩ := Outcome.result_bind_eq_ok.1 h
  cases h
  exact ⟨a, more, ha, hmore, rfl⟩

/-! ## Nodes -/

/-- The statements that declare the attributes of an op, and its table, if it has any. -/
def attributePart (place : Nat) (entries : List (String × AttributeValue)) :
    List Statement × Option Local :=
  if entries.isEmpty then ([], none)
  else ([.bindAttributes (.attributeTable place) entries], some (.attributeTable place))

theorem node_eq_ok {place i : Nat} {s s' : Progress} {ss : List Statement}
    (h : (node f g e place i s).result = .ok (ss, s')) :
    ∃ n bindings arguments entries name,
      g.nodes[i]? = some n ∧
      inputs f g e n.name s n.inputs = .ok (bindings, arguments, s') ∧
      (attributeEntries f g e n.name n.attributes).result = .ok entries ∧
      e.name? i = some name ∧
      ss = bindings ++ (attributePart place entries).1 ++
        [.bindOutputs (.outputs name) n.outputs,
         .invoke ⟨place == 0, n.name, arguments, .outputs name, (attributePart place entries).2,
           n.domain?⟩,
         .check] := by
  unfold node at h
  split at h
  · cases h
  · rename_i n hn
    obtain ⟨⟨bindings, arguments, s₁⟩, hinputs, h⟩ := Outcome.result_bind_eq_ok.1 h
    obtain ⟨entries, hentries, h⟩ := Outcome.result_bind_eq_ok.1 h
    obtain ⟨l, hl, h⟩ := Outcome.result_bind_eq_ok.1 h
    obtain ⟨name, hname, rfl⟩ := outputsOf_eq_ok hl
    cases h
    exact ⟨n, bindings, arguments, entries, name, hn, hinputs, hentries, hname, rfl⟩

theorem nodes_cons_eq_ok {place i : Nat} {is : List Nat} {s s' : Progress} {ss : List Statement}
    (h : (nodes f g e place (i :: is) s).result = .ok (ss, s')) :
    ∃ here s₁ more, (node f g e place i s).result = .ok (here, s₁) ∧
      (nodes f g e (place + 1) is s₁).result = .ok (more, s') ∧ ss = here ++ more := by
  obtain ⟨⟨here, s₁⟩, hhere, h⟩ := Outcome.result_bind_eq_ok.1 h
  obtain ⟨⟨more, s₂⟩, hmore, h⟩ := Outcome.result_bind_eq_ok.1 h
  cases h
  exact ⟨here, s₁, more, hhere, hmore, rfl⟩

/-! ## The whole body -/

theorem result_eq_ok {l : Local} (h : result f g e = .ok l) :
    ∃ i, e.order.getLast? = some i ∧ singleOutput f g e i = .ok l := by
  unfold result at h
  split at h
  · cases h
  · rename_i i hi
    exact ⟨i, hi, h⟩

theorem returning_eq_ok {first : String} {l : Local} {s : Progress} {ss : List Statement}
    (h : returning f first l s = .ok ss) :
    (f.signature.writableReturn? = none ∧ ss = [.returnNew l first]) ∨
      (∃ a p, f.signature.writableReturn? = some a ∧ s.inPlace? = some p ∧
        ss = [.copyInto l p, .returnParam p]) := by
  unfold returning at h
  split at h
  · rename_i hnone
    cases h
    exact .inl ⟨hnone, rfl⟩
  · rename_i a ha
    split at h
    · cases h
    · rename_i p hp
      cases h
      exact .inr ⟨a, p, ha, hp, rfl⟩

theorem ofGraph_eq_ok {body : List Statement} (h : (ofGraph f g).result = .ok body) :
    ∃ first ops s l returns,
      firstTensor f = .ok first ∧
      (nodes f g g.evaluate 0 g.evaluate.order .start).result = .ok (ops, s) ∧
      result f g g.evaluate = .ok l ∧
      returning f first l s = .ok returns ∧
      body = .log (f.params.filterMap LinkedParam.name?) :: .bindInvoker first ::
        ops ++ returns := by
  obtain ⟨first, hfirst, h⟩ := Outcome.result_bind_eq_ok.1 h
  obtain ⟨⟨ops, s⟩, hops, h⟩ := Outcome.result_bind_eq_ok.1 h
  obtain ⟨l, hl, h⟩ := Outcome.result_bind_eq_ok.1 h
  obtain ⟨returns, hreturns, h⟩ := Outcome.result_bind_eq_ok.1 h
  cases h
  exact ⟨first, ops, s, l, returns, hfirst, hops, hl, hreturns, rfl⟩

end KernelGen.Body
