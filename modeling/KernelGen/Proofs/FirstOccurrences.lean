import Mathlib.Data.List.Induction
import Mathlib.Data.List.Nodup
set_option autoImplicit false

/-!
# First occurrences

`List.eraseDups` keeps the first occurrence of every item of a list and drops the others.  An
order of execution is such a list, and so is the list of operators that a header names; the
facts about first occurrences that both need are here.
-/

namespace KernelGen

variable {α : Type} [BEq α] [LawfulBEq α]

/-- One more item is a first occurrence unless it is there already. -/
theorem eraseDups_concat [DecidableEq α] (xs : List α) (a : α) :
    (xs ++ [a]).eraseDups = if a ∈ xs then xs.eraseDups else xs.eraseDups ++ [a] := by
  rw [List.eraseDups_append]
  by_cases h : a ∈ xs
  · simp [List.cons_removeAll, h]
  · simp [List.cons_removeAll, List.eraseDups_cons, h]

theorem eraseDups_concat_of_notMem {xs : List α} {a : α} (h : a ∉ xs) :
    (xs ++ [a]).eraseDups = xs.eraseDups ++ [a] := by
  classical
  rw [eraseDups_concat, if_neg h]

theorem nodup_eraseDups (xs : List α) : xs.eraseDups.Nodup := by
  classical
  induction xs using List.reverseRecOn with
  | nil => exact List.nodup_nil
  | append_singleton xs a ih =>
    rw [eraseDups_concat]
    split
    · exact ih
    · rename_i h
      rw [List.nodup_append]
      refine ⟨ih, List.nodup_singleton a, ?_⟩
      intro b hb c hc hbc
      rw [List.mem_eraseDups] at hb
      rw [List.mem_singleton] at hc
      exact h (hc ▸ hbc ▸ hb)

theorem eraseDups_eq_self {xs : List α} (h : xs.Nodup) : xs.eraseDups = xs := by
  induction xs using List.reverseRecOn with
  | nil => rfl
  | append_singleton xs a ih =>
    obtain ⟨hxs, -, hdisj⟩ := List.nodup_append.1 h
    have ha : a ∉ xs := fun hm => hdisj a hm a (List.mem_singleton_self a) rfl
    rw [eraseDups_concat_of_notMem ha, ih hxs]

/-- Items that are there already add no first occurrence. -/
theorem eraseDups_append_of_subset {xs ys : List α} (h : ∀ y ∈ ys, y ∈ xs) :
    (xs ++ ys).eraseDups = xs.eraseDups := by
  have hnil : ys.removeAll xs = [] := by
    rw [List.removeAll, List.filter_eq_nil_iff]
    intro y hy
    simp [h y hy]
  rw [List.eraseDups_append, hnil, List.eraseDups_nil, List.append_nil]

/-- Items that are told apart can be replaced before or after repetitions are dropped. -/
theorem eraseDups_map {β : Type} [BEq β] [LawfulBEq β] {f : α → β} {xs : List α}
    (h : ∀ a ∈ xs, ∀ b ∈ xs, f a = f b → a = b) : (xs.map f).eraseDups = xs.eraseDups.map f := by
  classical
  induction xs using List.reverseRecOn with
  | nil => rfl
  | append_singleton xs a ih =>
    have hxs := ih fun b hb c hc => h b (List.mem_append_left _ hb) c (List.mem_append_left _ hc)
    have hmem : f a ∈ xs.map f ↔ a ∈ xs := by
      constructor
      · intro hfa
        obtain ⟨b, hb, hba⟩ := List.mem_map.1 hfa
        have heq : b = a :=
          h b (List.mem_append_left _ hb) a (List.mem_append_right _ List.mem_cons_self) hba
        exact heq ▸ hb
      · exact fun ha => List.mem_map_of_mem ha
    rw [List.map_append, List.map_singleton, eraseDups_concat, eraseDups_concat, hxs]
    by_cases ha : a ∈ xs
    · rw [if_pos (hmem.2 ha), if_pos ha]
    · rw [if_neg (mt hmem.1 ha), if_neg ha, List.map_append, List.map_singleton]

/-- Items can be left out before or after repetitions are dropped. -/
theorem eraseDups_filter (p : α → Bool) (xs : List α) :
    (xs.filter p).eraseDups = xs.eraseDups.filter p := by
  classical
  induction xs using List.reverseRecOn with
  | nil => rfl
  | append_singleton xs a ih =>
    rw [eraseDups_concat, List.filter_append]
    by_cases ha : p a
    · rw [List.filter_cons_of_pos ha, List.filter_nil, eraseDups_concat, ih]
      by_cases hmem : a ∈ xs
      · rw [if_pos hmem, if_pos (List.mem_filter.2 ⟨hmem, ha⟩)]
      · rw [if_neg hmem, if_neg fun h => hmem (List.mem_filter.1 h).1, List.filter_append,
          List.filter_cons_of_pos ha, List.filter_nil]
    · rw [List.filter_cons_of_neg ha, List.filter_nil, List.append_nil, ih]
      split
      · rfl
      · rw [List.filter_append, List.filter_cons_of_neg ha, List.filter_nil, List.append_nil]

/-- The first item comes first, and does not come again. -/
theorem eraseDups_cons_eq (a : α) (xs : List α) :
    (a :: xs).eraseDups = a :: xs.eraseDups.filter (· != a) := by
  rw [List.eraseDups_cons, ← eraseDups_filter]
  rfl

/-- What was dropped at the front does not matter for what follows. -/
theorem eraseDups_eraseDups_append (xs ys : List α) :
    (xs.eraseDups ++ ys).eraseDups = (xs ++ ys).eraseDups := by
  have hsame : ys.removeAll xs.eraseDups = ys.removeAll xs := by
    unfold List.removeAll
    congr 1
    funext y
    rw [Bool.eq_iff_iff]
    simp
  rw [List.eraseDups_append, List.eraseDups_append, hsame, eraseDups_eq_self (nodup_eraseDups xs)]

end KernelGen
