import KernelGen.Proofs.Json.Document
import KernelGen.Proofs.Json.Form
set_option autoImplicit false

/-!
# JSON: records and their slots

A fixed form has a slot for each of its members, filled or left empty.  A record is written as an
object of what its slots hold, in any order, and what `members` finds in it are the slots again.
Objects with other members, or with a member twice, are not records.
-/

namespace KernelGen.Json

/-- An object is a record of a form if its members are in the form, each of them once. -/
theorem members_object_eq_ok {names : List String} {ms : List (String × Json)}
    {slots : List (Option Json)} :
    members names (.object ms) = .ok slots ↔
      (∀ m ∈ ms, m.1 ∈ names) ∧ (ms.map Prod.fst).Nodup ∧
        slots = names.map fun name => ms.lookup name := by
  have hknown : ms.find? (fun m => !names.contains m.1) = none ↔ ∀ m ∈ ms, m.1 ∈ names := by
    simp
  rw [members, ← hknown, ← repeated?_eq_none_iff]
  cases ms.find? (fun m => !names.contains m.1) with
  | some m =>
    refine iff_of_false (fun h => ?_) fun h => ?_
    · cases h
    · cases h.1
  | none =>
    cases repeated? (ms.map Prod.fst) with
    | some name =>
      refine iff_of_false (fun h => ?_) fun h => ?_
      · cases h
      · cases h.2.1
    | none =>
      exact ⟨fun h => ⟨rfl, rfl, (Except.ok.inj h).symm⟩, fun h => congrArg Except.ok h.2.2.symm⟩

/-! ## What is in the slots -/

/-- The members in the slots that are filled. -/
def filled (slots : List (String × Option Json)) : List (String × Json) :=
  slots.filterMap fun s => s.2.map fun j => (s.1, j)

section Slots

variable {slots : List (String × Option Json)} {name : String} {j v : Json}

theorem mem_filled : (name, v) ∈ filled slots ↔ (name, some v) ∈ slots := by
  rw [filled, List.mem_filterMap]
  constructor
  · rintro ⟨⟨key, v?⟩, hmem, hv⟩
    obtain ⟨w, rfl, heq⟩ := Option.map_eq_some_iff.1 hv
    cases heq
    exact hmem
  · intro hmem
    exact ⟨_, hmem, rfl⟩

theorem sublist_map_fst_filled (slots : List (String × Option Json)) :
    ((filled slots).map Prod.fst).Sublist (slots.map Prod.fst) := by
  induction slots with
  | nil => exact .slnil
  | cons s slots ih =>
    obtain ⟨key, v?⟩ := s
    cases v? with
    | none => exact ih.cons key
    | some v => exact ih.cons_cons key

/-- What is looked up among the members is what the slot holds. -/
theorem lookup_filled (hnodup : (slots.map Prod.fst).Nodup) {v? : Option Json}
    (h : (name, v?) ∈ slots) : (filled slots).lookup name = v? := by
  have hdifferent := (sublist_map_fst_filled slots).nodup hnodup
  ext v
  rw [lookup_eq_some_iff hdifferent, mem_filled]
  constructor
  · intro hv
    exact (congrArg Prod.snd (List.inj_on_of_nodup_map hnodup hv h rfl)).symm
  · rintro rfl
    exact h

/-- The value is a record with these slots: an object of what they hold, in any order. -/
def IsRecord (slots : List (String × Option Json)) (j : Json) : Prop :=
  ∃ ms, j = .object ms ∧ ms.Perm (filled slots)

/-- The slots of a record are found again. -/
theorem IsRecord.members (h : IsRecord slots j) (hnodup : (slots.map Prod.fst).Nodup) :
    members (slots.map Prod.fst) j = .ok (slots.map Prod.snd) := by
  obtain ⟨ms, rfl, hperm⟩ := h
  have hsub := sublist_map_fst_filled slots
  rw [members_of_perm hperm (fun m hm => hsub.subset (List.mem_map_of_mem hm)) (hsub.nodup hnodup),
    List.map_map]
  refine congrArg Except.ok (List.map_congr_left fun s hs => ?_)
  exact lookup_filled hnodup hs

theorem depth_le_depthOfMembers {ms : List (String × Json)} (h : (name, v) ∈ ms) :
    depth v ≤ depthOfMembers ms := by
  induction ms with
  | nil => cases h
  | cons m ms ih =>
    rw [depthOfMembers]
    rcases List.mem_cons.1 h with rfl | h
    · exact Nat.le_max_left _ _
    · exact (ih h).trans (Nat.le_max_right _ _)

theorem IsRecord.depth_lt (h : IsRecord slots j) (hv : (name, some v) ∈ slots) :
    depth v < depth j := by
  obtain ⟨ms, rfl, hperm⟩ := h
  rw [depth]
  exact Nat.lt_succ_of_le (depth_le_depthOfMembers (hperm.mem_iff.2 (mem_filled.2 hv)))

end Slots

/-! ## Slots with a default -/

/-- The slot holds what was asked for, or it is empty and this is the default. -/
def Holds (isDefault : Prop) (form : Json → Prop) : Option Json → Prop
  | none => isDefault
  | some j => form j

theorem Holds.orElse {α : Type} {a default : α} {form : Json → Prop}
    {read : Json → Except Fault α} {slot : Option Json} (h : Holds (a = default) form slot)
    (hread : ∀ j, slot = some j → form j → read j = .ok a) : orElse default read slot = .ok a := by
  cases slot with
  | none => exact congrArg Except.ok (Eq.symm h)
  | some j => exact hread j rfl h

theorem asOption_of_ne_null {α : Type} {read : Json → Except Fault α} {j : Json}
    (h : j ≠ .null) : asOption read j = (read j).map some := by
  cases j with
  | null => exact absurd rfl h
  | _ => rfl

/-- A string, or null for nothing. -/
def optionalString : Option String → Json
  | none => .null
  | some s => .string s

theorem asOption_optionalString (s? : Option String) :
    asOption asString (optionalString s?) = .ok s? := by
  cases s? <;> rfl

/-- An array of strings. -/
def stringArray (ss : List String) : Json := .array (ss.map .string)

theorem asList_stringArray (ss : List String) : asList asString (stringArray ss) = .ok ss := by
  show (ss.map Json.string).mapM asString = .ok ss
  induction ss with
  | nil => rfl
  | cons s ss ih =>
    rw [List.map_cons, List.mapM_cons, ih]
    rfl

/-- A count as it is written. -/
def count (n : Nat) : Json := .number (toString n)

theorem asCount_count {n : Nat} (h : n ≤ greatestCount) : asCount (count n) = .ok n := by
  have hlist : (toString n).toList = Nat.toDigits 10 n := by simp
  have hdigits : (Nat.toDigits 10 n).all Char.isDigit = true :=
    List.all_eq_true.2 fun c hc => Nat.isDigit_of_mem_toDigits (by decide) (by decide) hc
  have hvalue : (Nat.toDigits 10 n).foldl (fun n c => 10 * n + (c.toNat - 48)) 0 = n :=
    Nat.ofDigitChars_toDigits (by decide) (by decide)
  rw [count, asCount, hlist, if_pos hdigits]
  simp only [hvalue, if_pos h]

end KernelGen.Json
