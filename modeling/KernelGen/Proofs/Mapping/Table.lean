import KernelGen.Proofs.Mapping.Expressions
import Mathlib.Data.List.Forall2
set_option autoImplicit false

/-!
# Mapping: documents as tables

A document has a mapping for each of its entries unless one of them is a word that stands for no
mapping; the first such entry, by name, is reported.  Expressions never fail: their graphs are
made by a builder that refers only to what it has added.
-/

namespace KernelGen

/-! ## Entries one after the other -/

section

variable {α β ε : Type} {f : α → Except ε β}

theorem mapM_eq_ok {xs : List α} {ys : List β} :
    xs.mapM f = .ok ys ↔ List.Forall₂ (fun x y => f x = .ok y) xs ys := by
  induction xs generalizing ys with
  | nil => simp [pure, Except.pure, eq_comm]
  | cons x xs ih =>
    rw [List.mapM_cons, List.forall₂_cons_left_iff]
    cases hx : f x with
    | error c => simp [bind, Except.bind]
    | ok y =>
      cases hxs : xs.mapM f with
      | error c => simp [bind, Except.bind, ← ih, hxs]
      | ok zs => simp [bind, Except.bind, pure, Except.pure, ← ih, hxs, eq_comm]

/-- What is reported is what is wrong with the first item that has no result. -/
theorem mapM_eq_error {xs : List α} {c : ε} (h : xs.mapM f = .error c) :
    ∃ front x back, xs = front ++ x :: back ∧ (∀ w ∈ front, ∃ y, f w = .ok y) ∧
      f x = .error c := by
  induction xs with
  | nil => cases h
  | cons x xs ih =>
    rw [List.mapM_cons] at h
    cases hx : f x with
    | error c' =>
      rw [hx] at h
      cases h
      exact ⟨[], x, xs, rfl, fun w hw => absurd hw List.not_mem_nil, hx⟩
    | ok y =>
      rw [hx] at h
      cases hxs : xs.mapM f with
      | error c' =>
        rw [hxs] at h
        cases h
        obtain ⟨front, x', back, rfl, hfront, hx'⟩ := ih hxs
        exact ⟨x :: front, x', back, rfl, List.forall_mem_cons.2 ⟨⟨y, hx⟩, hfront⟩, hx'⟩
      | ok ys =>
        rw [hxs] at h
        cases h

end

/-! ## Lists of entries that go together -/

section

variable {α β : Type} {r : String × α → String × β → Prop} {es : List (String × α)}
  {ms : List (String × β)}

/-- Two lists that go together have the same names. -/
theorem map_fst_of_forall₂ (h : List.Forall₂ (fun e m => e.1 = m.1 ∧ r e m) es ms) :
    es.map (·.1) = ms.map (·.1) := by
  induction h with
  | nil => rfl
  | cons hem _ ih => exact congrArg₂ List.cons hem.1 ih

/-- What has a value in one of two lists that go together has one in the other. -/
theorem lookup_of_forall₂ (h : List.Forall₂ (fun e m => e.1 = m.1 ∧ r e m) es ms)
    {name : String} {a : α} (ha : es.lookup name = some a) :
    ∃ b, ms.lookup name = some b ∧ r (name, a) (name, b) := by
  induction h with
  | nil => cases ha
  | @cons e m es ms hem _ ih =>
    obtain ⟨key, a'⟩ := e
    obtain ⟨key', b⟩ := m
    obtain ⟨rfl, hr⟩ := hem
    rw [NameTable.lookup_entry] at ha ⊢
    split
    · rename_i hname
      rw [if_pos hname] at ha
      cases ha
      subst hname
      exact ⟨b, rfl, hr⟩
    · rename_i hname
      rw [if_neg hname] at ha
      exact ih ha

end

/-! ## The mapping of an entry -/

/-- A word that stands for no mapping. -/
def OpEntry.Unknown (e : OpEntry) : Prop := ∃ word, e = .keyword word ∧ word ≠ signatureOnlyKeyword

/-- What an entry is mapped to. -/
def OpEntry.Means : OpEntry → Mapping → Prop
  | .keyword word, .signatureOnly => word = signatureOnlyKeyword
  | .expression e, .graph g => e.IsGraph g
  | _, _ => False

namespace OpEntry

variable {name : String} {e : OpEntry} {c : Cause} {m : Mapping}

theorem means_of_mapping (h : e.mapping name = .ok m) : e.Means m := by
  cases e with
  | keyword word =>
    rw [mapping] at h
    split at h
    · cases h; assumption
    · cases h
  | expression e =>
    obtain ⟨g, hg, hgraph⟩ := e.exists_graph
    rw [mapping, hg] at h
    cases h
    exact hgraph

/-- Only words that stand for no mapping have none. -/
theorem mapping_eq_error :
    e.mapping name = .error c ↔
      ∃ word, e = .keyword word ∧ word ≠ signatureOnlyKeyword ∧
        c = .unknownKeyword name word signatureOnlyKeyword := by
  cases e with
  | keyword word =>
    rw [mapping]
    split <;> rename_i hword <;> simp [hword, eq_comm]
  | expression e =>
    obtain ⟨g, hg, -⟩ := e.exists_graph
    simp [mapping, hg, Except.map]

theorem not_unknown_of_mapping (h : e.mapping name = .ok m) : ¬ e.Unknown := by
  rintro ⟨word, rfl, hword⟩
  exact hword (by
    cases m with
    | signatureOnly => exact means_of_mapping h
    | graph g => exact (means_of_mapping h).elim)

end OpEntry

/-! ## The table of a document -/

namespace MappingFile

/-- The mapping of an entry beside its name. -/
def mapEntry (e : String × OpEntry) : Except Cause (String × Mapping) :=
  (e.2.mapping e.1).map fun m => (e.1, m)

theorem mapEntry_eq_ok {e : String × OpEntry} {m : String × Mapping} :
    mapEntry e = .ok m ↔ e.1 = m.1 ∧ e.2.mapping e.1 = .ok m.2 := by
  obtain ⟨name, mapping⟩ := m
  unfold mapEntry
  cases e.2.mapping e.1 with
  | error c => simp [Except.map]
  | ok m => simp [Except.map, Prod.ext_iff]

theorem mapEntry_eq_error {e : String × OpEntry} {c : Cause} :
    mapEntry e = .error c ↔ e.2.mapping e.1 = .error c := by
  unfold mapEntry
  cases e.2.mapping e.1 <;> simp [Except.map]

theorem table_eq (f : MappingFile) :
    f.table = (f.operators.entries.mapM mapEntry).map fun ms => NameTable.empty.insertMany ms := by
  show (f.operators.entries.mapM mapEntry >>= fun ms => pure (NameTable.empty.insertMany ms)) = _
  cases f.operators.entries.mapM mapEntry <;> rfl

/-- A table that a document has is its entries' mappings, entry by entry. -/
theorem entries_of_table {f : MappingFile} {t : MappingTable} (h : f.table = .ok t) :
    List.Forall₂ (fun e m => e.1 = m.1 ∧ e.2.mapping e.1 = .ok m.2) f.operators.entries
      t.entries := by
  rw [table_eq] at h
  cases hms : f.operators.entries.mapM mapEntry with
  | error c =>
    rw [hms] at h
    cases h
  | ok ms =>
    rw [hms] at h
    cases h
    have hall : List.Forall₂ (fun e m => e.1 = m.1 ∧ e.2.mapping e.1 = .ok m.2)
        f.operators.entries ms :=
      (mapM_eq_ok.1 hms).imp fun _ _ => mapEntry_eq_ok.1
    -- the mappings are in order already, because the entries are
    have hascending : Ascending ms :=
      List.pairwise_map.1 (map_fst_of_forall₂ hall ▸ f.operators.ascending_names)
    rwa [NameTable.entries_insertMany (t := .empty) hascending]

/-- A document without a table has an entry that is to blame, the first of its kind. -/
theorem error_of_table {f : MappingFile} {c : Cause} (h : f.table = .error c) :
    ∃ front name word back, f.operators.entries = front ++ (name, .keyword word) :: back ∧
      (∀ e ∈ front, ¬ e.2.Unknown) ∧ word ≠ signatureOnlyKeyword ∧
      c = .unknownKeyword name word signatureOnlyKeyword := by
  rw [table_eq] at h
  cases hms : f.operators.entries.mapM mapEntry with
  | ok ms =>
    rw [hms] at h
    cases h
  | error c' =>
    rw [hms] at h
    cases h
    obtain ⟨front, ⟨name, e⟩, back, hentries, hfront, he⟩ := mapM_eq_error hms
    obtain ⟨word, rfl, hword, rfl⟩ := OpEntry.mapping_eq_error.1 (mapEntry_eq_error.1 he)
    refine ⟨front, name, word, back, hentries, fun d hd => ?_, hword, rfl⟩
    obtain ⟨m, hm⟩ := hfront d hd
    exact OpEntry.not_unknown_of_mapping (mapEntry_eq_ok.1 hm).2

/-- **Documents as tables.**  A document has no table exactly when an entry is a word that stands
for no mapping, and then the first such entry by name is reported, as an invalid document.
Otherwise the table has the names of the document; words stay what they are; and every
expression has become a graph with a node for every op, whose root is its last node, which is
executed in the order of its nodes and unfolds to the expression. -/
theorem table_faithful (f : MappingFile) :
    ((∃ c, f.table = .error c) ↔
      ∃ name word, f.operators.get? name = some (.keyword word) ∧ word ≠ signatureOnlyKeyword) ∧
    (∀ c, f.table = .error c →
      c.code = .invalidMappingFile ∧
      ∃ front name word back, f.operators.entries = front ++ (name, .keyword word) :: back ∧
        (∀ e ∈ front, ∀ word, e.2 = .keyword word → word = signatureOnlyKeyword) ∧
        word ≠ signatureOnlyKeyword ∧ c = .unknownKeyword name word signatureOnlyKeyword) ∧
    (∀ t, f.table = .ok t →
      t.names = f.operators.names ∧
      (∀ name word, f.operators.get? name = some (.keyword word) →
        t.get? name = some .signatureOnly) ∧
      (∀ name e, f.operators.get? name = some (.expression e) →
        ∃ g, t.get? name = some (.graph g) ∧ g.size = e.size ∧ g.root + 1 = g.size ∧
          g.evaluate.order = List.range g.size ∧
          ∀ outside : OpExpr, g.fold outside .op g.root = e)) := by
  refine ⟨?_, ?_, ?_⟩
  · constructor
    · rintro ⟨c, hc⟩
      obtain ⟨front, name, word, back, hentries, -, hword, -⟩ := error_of_table hc
      refine ⟨name, word, NameTable.get?_of_mem ?_, hword⟩
      rw [hentries]
      exact List.mem_append_right _ List.mem_cons_self
    · rintro ⟨name, word, hget, hword⟩
      cases ht : f.table with
      | error c => exact ⟨c, rfl⟩
      | ok t =>
        obtain ⟨m, -, hm⟩ := lookup_of_forall₂ (entries_of_table ht) hget
        exact absurd ⟨word, rfl, hword⟩ (OpEntry.not_unknown_of_mapping hm)
  · intro c hc
    obtain ⟨front, name, word, back, hentries, hfront, hword, rfl⟩ := error_of_table hc
    refine ⟨rfl, front, name, word, back, hentries, fun e he word' he' => ?_, hword, rfl⟩
    by_contra hunknown
    exact hfront e he ⟨word', he', hunknown⟩
  · intro t ht
    have hentries := entries_of_table ht
    refine ⟨(map_fst_of_forall₂ hentries).symm, ?_, ?_⟩
    · intro name word hget
      obtain ⟨m, hm, hmapping⟩ := lookup_of_forall₂ hentries hget
      cases m with
      | signatureOnly => exact hm
      | graph g => exact (OpEntry.means_of_mapping hmapping).elim
    · intro name e hget
      obtain ⟨m, hm, hmapping⟩ := lookup_of_forall₂ hentries hget
      cases m with
      | signatureOnly => exact (OpEntry.means_of_mapping hmapping).elim
      | graph g =>
        have hgraph : e.IsGraph g := OpEntry.means_of_mapping hmapping
        exact ⟨g, hm, hgraph.size_eq, hgraph.root_last, hgraph.order_eq, hgraph.unfold_eq⟩

end MappingFile

end KernelGen
