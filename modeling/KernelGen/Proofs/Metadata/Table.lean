import KernelGen.Metadata
import KernelGen.Source.Step
import Mathlib.Data.List.Forall2
set_option autoImplicit false

/-!
# Metadata: the table of the comments behind declarations

Whether a declaration gets metadata, and which, is decided by its comment alone.  The table has what
the comments denote, each at the place of its declaration, and there is one unless some comment
denotes nothing.
-/

namespace KernelGen

open Source (bind_eq_ok)

namespace Metadata

/-- What the comment behind a declaration denotes: metadata, or none if there is no comment. -/
inductive Denotes : Option String → Option Metadata → Prop where
  | none : Denotes none none
  | some {comment : String} {m : Metadata} : ofText comment = .ok m →
      Denotes (some comment) (some m)

end Metadata

namespace MetadataTable

/-- What is at a place of a list goes to that place, counted from `place`. -/
def entriesFrom : Nat → List (Option Metadata) → List (Nat × Metadata)
  | _, [] => []
  | place, none :: ms => entriesFrom (place + 1) ms
  | place, some m :: ms => (place, m) :: entriesFrom (place + 1) ms

/-- The table of the same declarations behind `n` others. -/
def shifted (n : Nat) (t : MetadataTable) : MetadataTable :=
  ⟨t.entries.map fun e => (n + e.1, e.2)⟩

theorem entriesFrom_append (place : Nat) (ms ms' : List (Option Metadata)) :
    entriesFrom place (ms ++ ms') =
      entriesFrom place ms ++ entriesFrom (place + ms.length) ms' := by
  induction ms generalizing place with
  | nil => rfl
  | cons m? ms ih =>
    have hplace : place + 1 + ms.length = place + (m? :: ms).length := by
      rw [List.length_cons]
      omega
    cases m? with
    | none => rw [List.cons_append, entriesFrom, entriesFrom, ih, hplace]
    | some m => rw [List.cons_append, entriesFrom, entriesFrom, ih, hplace, List.cons_append]

theorem length_entriesFrom (place : Nat) (ms : List (Option Metadata)) :
    (entriesFrom place ms).length = (ms.filterMap id).length := by
  induction ms generalizing place with
  | nil => rfl
  | cons m? ms ih => cases m? <;> simp [entriesFrom, ih]

theorem entriesFrom_shifted (n place : Nat) (ms : List (Option Metadata)) :
    entriesFrom (n + place) ms = (entriesFrom place ms).map fun e => (n + e.1, e.2) := by
  induction ms generalizing place with
  | nil => rfl
  | cons m? ms ih =>
    cases m? with
    | none => rw [entriesFrom, entriesFrom, Nat.add_assoc, ih]
    | some m => rw [entriesFrom, entriesFrom, Nat.add_assoc, ih, List.map_cons]

theorem le_of_mem_entriesFrom {place : Nat} {ms : List (Option Metadata)} {e : Nat × Metadata}
    (h : e ∈ entriesFrom place ms) : place ≤ e.1 := by
  induction ms generalizing place with
  | nil => exact absurd h List.not_mem_nil
  | cons m? ms ih =>
    cases m? with
    | none =>
      have := ih h
      omega
    | some m =>
      rcases List.mem_cons.1 h with rfl | h
      · exact Nat.le_refl _
      · have := ih h
        omega

/-- What is at a place of the list is at that place of the table. -/
theorem lookup_entriesFrom (place i : Nat) (ms : List (Option Metadata)) :
    (entriesFrom place ms).lookup (place + i) = ms[i]?.join := by
  induction ms generalizing place i with
  | nil => rfl
  | cons m? ms ih =>
    cases i with
    | zero =>
      cases m? with
      | none =>
        have hnone : ∀ e ∈ entriesFrom (place + 1) ms, (place + 0 != e.1) = true := by
          intro e he
          have := le_of_mem_entriesFrom he
          simp
          omega
        exact List.lookup_eq_none_iff.2 hnone
      | some m => simp [entriesFrom]
    | succ i =>
      have hplace : place + (i + 1) = place + 1 + i := by omega
      have hne : (place + 1 + i == place) = false := by
        simp
        omega
      rw [List.getElem?_cons_succ, ← ih (place + 1) i, hplace]
      cases m? with
      | none => rfl
      | some m => rw [entriesFrom, List.lookup_cons, hne]

theorem commentEntries_eq_ok {place : Nat} {ds : List Host.Declaration}
    {entries : List (Nat × Metadata)} :
    commentEntries place ds = .ok entries ↔
      ∃ ms, List.Forall₂ Metadata.Denotes (ds.map Host.Declaration.comment?) ms ∧
        entries = entriesFrom place ms := by
  induction ds generalizing place entries with
  | nil =>
    constructor
    · intro h
      cases h
      exact ⟨[], .nil, rfl⟩
    · rintro ⟨ms, hms, rfl⟩
      cases hms
      rfl
  | cons d ds ih =>
    rw [commentEntries, List.map_cons]
    cases d.comment? with
    | none =>
      dsimp only
      rw [ih]
      constructor
      · rintro ⟨ms, hms, rfl⟩
        exact ⟨none :: ms, .cons .none hms, rfl⟩
      · rintro ⟨ms, hms, rfl⟩
        obtain ⟨m?, ms, hm, hmore, rfl⟩ := List.forall₂_cons_left_iff.1 hms
        cases hm
        exact ⟨ms, hmore, rfl⟩
    | some comment =>
      dsimp only
      rw [bind_eq_ok]
      constructor
      · rintro ⟨m, hm, h⟩
        obtain ⟨more, hmore, h⟩ := bind_eq_ok.1 h
        cases h
        obtain ⟨ms, hms, rfl⟩ := ih.1 hmore
        refine ⟨some m :: ms, .cons (.some ?_) hms, rfl⟩
        cases htext : Metadata.ofText comment with
        | error e => rw [htext] at hm; cases hm
        | ok m' => rw [htext] at hm; cases hm; rfl
      · rintro ⟨ms, hms, rfl⟩
        obtain ⟨m?, ms, hm, hmore, rfl⟩ := List.forall₂_cons_left_iff.1 hms
        cases hm with
        | some htext =>
          rw [htext]
          exact ⟨_, rfl, bind_eq_ok.2 ⟨_, ih.2 ⟨ms, hmore, rfl⟩, rfl⟩⟩

theorem ofComments_eq_ok {ds : List Host.Declaration} {t : MetadataTable} :
    ofComments ds = .ok t ↔
      ∃ ms, List.Forall₂ Metadata.Denotes (ds.map Host.Declaration.comment?) ms ∧
        t = ⟨entriesFrom 0 ms⟩ := by
  unfold ofComments
  constructor
  · intro h
    cases hentries : commentEntries 0 ds with
    | error e => rw [hentries] at h; cases h
    | ok entries =>
      rw [hentries] at h
      cases h
      obtain ⟨ms, hms, rfl⟩ := commentEntries_eq_ok.1 hentries
      exact ⟨ms, hms, rfl⟩
  · rintro ⟨ms, hms, rfl⟩
    rw [commentEntries_eq_ok.2 ⟨ms, hms, rfl⟩]
    rfl

end MetadataTable

end KernelGen
