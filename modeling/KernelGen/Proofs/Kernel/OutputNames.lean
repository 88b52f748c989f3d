import KernelGen.Proofs.Kernel.Naming
set_option autoImplicit false

/-!
# Kernel: names of outputs

Whatever the ops of a graph are called, the outputs of its nodes have names that code can use, and
no two nodes share one.  Names of ops are only made to look like identifiers, and two of them may
look the same afterwards; what keeps the outputs apart is the place in the order of execution, which
can be read off the name again.
-/

namespace KernelGen

/-- A name that code can use: letters, digits and underscores, all of them ASCII, and no digit in
front. -/
def IsIdentifier (name : String) : Prop :=
  (∃ c ∈ name.toList.head?, c.isDigit = false) ∧
    ∀ c ∈ name.toList, c.isAlphanum = true ∨ c = '_'

instance (name : String) : Decidable (IsIdentifier name) :=
  decidable_of_iff (name.toList.head?.any (!·.isDigit) = true ∧
    name.toList.all (fun c => c.isAlphanum || c == '_') = true)
    (by simp [IsIdentifier, Option.any_eq_true])

example : ¬ IsIdentifier "" ∧ ¬ IsIdentifier "0x" ∧ ¬ IsIdentifier "Größe" ∧ IsIdentifier "_0" := by
  decide

theorem identifierChar_fits (c : Char) :
    (identifierChar c).isAlphanum = true ∨ identifierChar c = '_' := by
  unfold identifierChar
  split
  · rename_i hfits
    simpa using hfits
  · exact .inr rfl

theorem isIdentifier_bindingName (place : Nat) (op : String) :
    IsIdentifier (bindingName place op) := by
  have hlist : (bindingName place op).toList =
      "result_".toList ++ (Nat.toDigits 10 place ++ ('_' :: op.toList.map identifierChar)) := by
    simp [bindingName]
  constructor
  · rw [hlist]
    exact ⟨'r', rfl, by decide⟩
  · intro c hc
    rw [hlist] at hc
    rcases List.mem_append.1 hc with hword | hc
    · have hall : ∀ c ∈ "result_".toList, c.isAlphanum = true ∨ c = '_' := by simp
      exact hall c hword
    rcases List.mem_append.1 hc with hdigit | hc
    · have hisDigit : c.isDigit = true :=
        Nat.isDigit_of_mem_toDigits (by decide) (by decide) hdigit
      exact .inl (by simp [Char.isAlphanum, hisDigit])
    rcases List.mem_cons.1 hc with rfl | hop
    · exact .inr rfl
    · obtain ⟨d, -, rfl⟩ := List.mem_map.1 hop
      exact identifierChar_fits d

namespace Evaluation

variable {g : OpGraph} {e : Evaluation} {i j : Nat} {name : String}

/-- A name is given to the nodes in the order, and it is made from the place that the node has
there. -/
theorem name?_prepare (h : (e.prepare g).name? i = some name) :
    ∃ place op, e.order[place]? = some i ∧ name = bindingName place op := by
  have hnames : (e.prepare g).names = (List.range g.size).map (nameIn g e.order) := rfl
  rw [name?, hnames, List.getElem?_map, Option.join_eq_some_iff, Option.map_eq_some_iff] at h
  obtain ⟨k, hk, hname⟩ := h
  obtain ⟨hk, rfl⟩ := List.getElem?_eq_some_iff.1 hk
  rw [List.getElem_range] at hname
  simp only [nameIn, Option.bind_eq_bind, Option.bind_eq_some_iff] at hname
  obtain ⟨n, -, place, hplace, heq⟩ := hname
  obtain ⟨hlt, hat, -⟩ := List.idxOf?_eq_some_iff.1 hplace
  refine ⟨place, n.name, ?_, (Option.some.inj heq).symm⟩
  rw [List.getElem?_eq_getElem hlt, hat]

theorem mem_order_of_name? (h : (e.prepare g).name? i = some name) : i ∈ e.order := by
  obtain ⟨place, op, hplace, -⟩ := name?_prepare h
  exact List.mem_of_getElem? hplace

/-- The place in a name tells the node. -/
theorem eq_of_name?_eq (hi : (e.prepare g).name? i = some name)
    (hj : (e.prepare g).name? j = some name) : i = j := by
  obtain ⟨place, op, hplace, rfl⟩ := name?_prepare hi
  obtain ⟨place', op', hplace', hname⟩ := name?_prepare hj
  obtain rfl : place = place' := place_eq_of_bindingName_eq hname
  exact Option.some.inj (hplace.symm.trans hplace')

end Evaluation

/-- **Names of outputs.**  Behind the evaluation of a graph every node in the order has a name,
which is an identifier; different nodes have different names; and no other node has one. -/
theorem evaluate_names (g : OpGraph) :
    (∀ i ∈ g.evaluate.order, ∃ name, g.evaluate.name? i = some name ∧ IsIdentifier name) ∧
      (∀ i ∈ g.evaluate.order, ∀ j ∈ g.evaluate.order, i ≠ j →
        g.evaluate.name? i ≠ g.evaluate.name? j) ∧
      ∀ i, i ∉ g.evaluate.order → g.evaluate.name? i = none := by
  have hnamed : ∀ i ∈ g.evaluate.order, ∃ name, g.evaluate.name? i = some name := by
    intro i hi
    obtain ⟨-, name, -, hname⟩ := named_of_reaches (Evaluation.mem_order_evaluate.1 hi)
    exact ⟨name, hname⟩
  refine ⟨fun i hi => ?_, fun i hi j hj hne heq => ?_, fun i hi => ?_⟩
  · obtain ⟨name, hname⟩ := hnamed i hi
    obtain ⟨place, op, -, rfl⟩ := Evaluation.name?_prepare hname
    exact ⟨_, hname, isIdentifier_bindingName place op⟩
  · obtain ⟨name, hname⟩ := hnamed i hi
    exact hne (Evaluation.eq_of_name?_eq hname (heq.symm.trans hname))
  · cases hname : g.evaluate.name? i with
    | none => rfl
    | some name => exact absurd (Evaluation.mem_order_of_name? hname) hi

end KernelGen
