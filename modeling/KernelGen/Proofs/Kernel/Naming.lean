import KernelGen.Graph.Evaluation
import KernelGen.Kernel.Statement
import KernelGen.Proofs.Graph.Order
set_option autoImplicit false

/-!
# Kernel: names of locals

The text of a function knows a local by its name alone.  Locals of different kinds have
different names, and so have locals of one kind that stand for different things: the outputs of
an op carry its place in the order of execution, which is why ops of the same name, or with
names that look the same as identifiers, do not get in each other's way.
-/

namespace KernelGen

theorem toDigits_inj {i j : Nat} : Nat.toDigits 10 i = Nat.toDigits 10 j ↔ i = j := by
  constructor
  · intro h
    have hvalue := congrArg (fun ds => Nat.ofDigitChars 10 ds 0) h
    simpa using hvalue
  · rintro rfl
    rfl

/-- The place that a name of outputs carries can be read off it. -/
theorem place_eq_of_bindingName_eq {i j : Nat} {op op' : String}
    (h : bindingName i op = bindingName j op') : i = j := by
  have hlist := congrArg String.toList h
  simp only [bindingName, String.toList_append, List.append_assoc, List.append_cancel_left_eq,
    Nat.toString_eq_repr, Nat.toList_repr] at hlist
  -- the digits end at the first underscore
  have hdigits : ∀ (n : Nat) (cs : List Char),
      (Nat.toDigits 10 n ++ ("_".toList ++ cs)).takeWhile Char.isDigit = Nat.toDigits 10 n := by
    intro n cs
    rw [List.takeWhile_append_of_pos
      (fun c hc => Nat.isDigit_of_mem_toDigits (by decide) (by decide) hc)]
    simp
  have htake := congrArg (List.takeWhile Char.isDigit) hlist
  rw [hdigits, hdigits] at htake
  exact toDigits_inj.1 htake

/-- The outputs of a node are named by its place in the order of execution. -/
theorem name?_evaluate {g : OpGraph} {front back : List Nat} {i : Nat} {n : OpNode Nat}
    (horder : g.evaluate.order = front ++ i :: back) (hn : g.nodes[i]? = some n) :
    g.evaluate.name? i = some (bindingName front.length n.name) := by
  have hnodup : (front ++ i :: back).Nodup := horder ▸ (Evaluation.settled_evaluate g).nodup
  have hplace : g.evaluate.order.idxOf? i = some front.length := by
    rw [horder, List.idxOf?_eq_some_iff]
    refine ⟨by simp, by simp, fun j hj hji => ?_⟩
    rw [List.getElem_append_left hj] at hji
    have hmem : i ∈ front := hji ▸ List.getElem_mem hj
    exact (List.nodup_append.1 hnodup).2.2 i hmem i List.mem_cons_self rfl
  have hlt : i < g.size := (List.getElem?_eq_some_iff.1 hn).1
  have hnames : g.evaluate.names =
      (List.range g.size).map (Evaluation.nameIn g g.evaluate.order) := rfl
  have hat : g.evaluate.names[i]? = some (Evaluation.nameIn g g.evaluate.order i) := by
    rw [hnames, List.getElem?_map, List.getElem?_range hlt, Option.map_some]
  simp [Evaluation.name?, hat, Evaluation.nameIn, hn, hplace]

/-- The nodes that the root depends on are in the graph, and their outputs have names. -/
theorem named_of_reaches {g : OpGraph} {i : Nat} (h : g.Reaches g.root i) :
    ∃ n name, g.nodes[i]? = some n ∧ g.evaluate.name? i = some name := by
  have hlt : i < g.nodes.length := Nat.lt_of_le_of_lt h.le g.root_lt
  obtain ⟨front, back, hsplit⟩ := List.append_of_mem (Evaluation.mem_order_evaluate.2 h)
  have hn : g.nodes[i]? = some g.nodes[i] := List.getElem?_eq_getElem hlt
  exact ⟨_, _, hn, name?_evaluate hsplit hn⟩

namespace Local

/-- The outputs of an op are named by its place in the order of execution. -/
def Proper : Local → Prop
  | .outputs name => ∃ place op, name = bindingName place op
  | _ => True

theorem name_injective {l l' : Local} (h : l.Proper) (h' : l'.Proper) (heq : l.name = l'.name) :
    l = l' := by
  have hlist := congrArg String.toList heq
  cases l with
  | outputs name =>
    cases l' with
    | outputs name' => exact congrArg outputs heq
    | _ =>
      obtain ⟨place, op, rfl⟩ := h
      simp [Local.name, bindingName] at hlist
  | _ =>
    cases l' with
    | outputs name' =>
      obtain ⟨place, op, rfl⟩ := h'
      simp [Local.name, bindingName] at hlist
    | _ => simp_all [Local.name, toDigits_inj, ← String.toList_inj]

end Local

end KernelGen
