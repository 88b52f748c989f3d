import KernelGen.Json.Form
import Mathlib.Data.List.Nodup
set_option autoImplicit false

/-!
# JSON: the members of a fixed form

A record has each of its members once, in any order: what is looked up in it does not depend on the
order, and a name is repeated exactly if the names are not all different.
-/

namespace KernelGen.Json

theorem repeated?_eq_none_iff {ns : List String} : repeated? ns = none ↔ ns.Nodup := by
  induction ns with
  | nil => exact iff_of_true rfl List.nodup_nil
  | cons n ns ih =>
    rw [repeated?, List.nodup_cons, ← ih]
    by_cases hn : n ∈ ns
    · simp [hn]
    · simp [hn]

section Members

variable {ms ms' : List (String × Json)}

theorem lookup_eq_some_iff (h : (ms.map Prod.fst).Nodup) {name : String} {j : Json} :
    ms.lookup name = some j ↔ (name, j) ∈ ms := by
  induction ms with
  | nil => simp
  | cons m ms ih =>
    obtain ⟨key, value⟩ := m
    obtain ⟨hkey, hmore⟩ := List.nodup_cons.1 h
    rw [List.lookup_cons, List.mem_cons, Prod.mk.injEq]
    by_cases hname : name = key
    · subst hname
      have hnot : (name, j) ∉ ms := fun hmem => hkey (List.mem_map.2 ⟨_, hmem, rfl⟩)
      simp [hnot, eq_comm]
    · have hne : (name == key) = false := beq_false_of_ne hname
      simp only [hne, hname, false_and, false_or]
      exact ih hmore

theorem lookup_of_perm (h : ms.Perm ms') (hnodup : (ms'.map Prod.fst).Nodup) (name : String) :
    ms.lookup name = ms'.lookup name := by
  have hnodup' : (ms.map Prod.fst).Nodup := (h.map Prod.fst).nodup_iff.2 hnodup
  ext j
  rw [lookup_eq_some_iff hnodup', lookup_eq_some_iff hnodup, h.mem_iff]

/-- A record with all its names in the fixed form and each of them once, in any order. -/
theorem members_of_perm {names : List String} (h : ms.Perm ms')
    (hnames : ∀ m ∈ ms', m.1 ∈ names) (hnodup : (ms'.map Prod.fst).Nodup) :
    members names (.object ms) = .ok (names.map fun name => ms'.lookup name) := by
  have hknown : ms.find? (fun m => !names.contains m.1) = none := by
    refine List.find?_eq_none.2 fun m hm => ?_
    simpa using hnames m (h.mem_iff.1 hm)
  have honce : repeated? (ms.map Prod.fst) = none :=
    repeated?_eq_none_iff.2 ((h.map Prod.fst).nodup_iff.2 hnodup)
  have hsame : names.map (fun name => ms.lookup name) = names.map fun name => ms'.lookup name :=
    List.map_congr_left fun name _ => lookup_of_perm h hnodup name
  rw [members, hknown, honce]
  exact congrArg Except.ok hsame

end Members

end KernelGen.Json
