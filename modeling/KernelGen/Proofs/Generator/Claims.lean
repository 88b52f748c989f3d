import KernelGen.Generator
import KernelGen.Proofs.FirstOccurrences
import KernelGen.Proofs.NameTable
set_option autoImplicit false

/-!
# Generator: who claims a mapping

A run drains its table as it goes, so the state of the table hides which declaration a mapping
goes to.  Said without a state: the mapping of an operator is claimed by the first function that
is linked to the operator, and the claims are ordered by these first functions.
-/

namespace KernelGen.Generator

/-- The declarations that have metadata, with it.  The first declaration is at `place`. -/
def annotated (t : MetadataTable) (place : Nat) (ds : List Host.Declaration) :
    List (Host.Declaration × Metadata) :=
  (ds.zipIdx place).filterMap fun d => (t.get? d.2).map fun m => (d.1, m)

/-- The first function of every operator that has a mapping, with the mapping. -/
def claims (mappings : MappingTable) (fs : List LinkedFunction) :
    List (LinkedFunction × Mapping) :=
  (fs.map LinkedFunction.operator).eraseDups.filterMap fun name => do
    let mapping ← mappings.get? name
    let f ← fs.find? (·.operator == name)
    return (f, mapping)

theorem annotated_cons_none {t : MetadataTable} {place : Nat} (h : t.get? place = none)
    (d : Host.Declaration) (ds : List Host.Declaration) :
    annotated t place (d :: ds) = annotated t (place + 1) ds := by
  rw [annotated, List.zipIdx_cons, List.filterMap_cons_none (by rw [h]; rfl), annotated]

theorem annotated_cons_some {t : MetadataTable} {place : Nat} {m : Metadata}
    (h : t.get? place = some m) (d : Host.Declaration) (ds : List Host.Declaration) :
    annotated t place (d :: ds) = (d, m) :: annotated t (place + 1) ds := by
  rw [annotated, List.zipIdx_cons, List.filterMap_cons_some (b := (d, m)) (by rw [h]; rfl),
    annotated]

/-! ## One function after the other -/

/-- Behind a function, its operator has no mapping any more. -/
theorem claims_behind (mappings : MappingTable) (f : LinkedFunction) (fs : List LinkedFunction) :
    claims (mappings.erase f.operator) fs =
      ((fs.map LinkedFunction.operator).eraseDups.filter (· != f.operator)).filterMap fun name =>
        do
          let mapping ← mappings.get? name
          let g ← (f :: fs).find? (·.operator == name)
          return (g, mapping) := by
  rw [List.filterMap_filter]
  unfold claims
  congr 1
  funext name
  rw [NameTable.get?_erase]
  by_cases hname : name = f.operator
  · simp [hname]
  · have hne : (f.operator == name) = false := by simpa using Ne.symm hname
    simp [hname, hne]

theorem claims_cons_none {mappings : MappingTable} {f : LinkedFunction}
    (h : mappings.get? f.operator = none) (fs : List LinkedFunction) :
    claims mappings (f :: fs) = claims mappings fs := by
  have hbehind := claims_behind mappings f fs
  rw [NameTable.erase_eq_self h] at hbehind
  rw [hbehind, claims, List.map_cons, eraseDups_cons_eq, List.filterMap_cons_none]
  rw [h]
  rfl

theorem claims_cons_some {mappings : MappingTable} {f : LinkedFunction} {mapping : Mapping}
    (h : mappings.get? f.operator = some mapping) (fs : List LinkedFunction) :
    claims mappings (f :: fs) = (f, mapping) :: claims (mappings.erase f.operator) fs := by
  rw [claims_behind, claims, List.map_cons, eraseDups_cons_eq,
    List.filterMap_cons_some (b := (f, mapping))]
  simp [h]

/-- The operators that are claimed: those with a mapping, each where it occurs first. -/
theorem operators_claims (mappings : MappingTable) (fs : List LinkedFunction) :
    (claims mappings fs).map (·.1.operator) =
      (fs.map LinkedFunction.operator).eraseDups.filter mappings.contains := by
  induction fs generalizing mappings with
  | nil => rfl
  | cons f fs ih =>
    rw [List.map_cons, eraseDups_cons_eq]
    cases h : mappings.get? f.operator with
    | none =>
      have hnot : mappings.contains f.operator = false := by rw [NameTable.contains, h]; rfl
      rw [claims_cons_none h, ih, List.filter_cons_of_neg (by simp [hnot]), List.filter_filter]
      apply List.filter_congr
      intro name _
      by_cases hname : name = f.operator <;> simp [hname, hnot]
    | some mapping =>
      have hmapped : mappings.contains f.operator = true := by rw [NameTable.contains, h]; rfl
      rw [claims_cons_some h, List.map_cons, ih, List.filter_cons_of_pos hmapped,
        List.filter_filter]
      congr 1
      apply List.filter_congr
      intro name _
      rw [NameTable.contains, NameTable.get?_erase]
      by_cases hname : name = f.operator <;> simp [hname, NameTable.contains]

end KernelGen.Generator
