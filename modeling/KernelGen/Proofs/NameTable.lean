import KernelGen.NameTable
set_option autoImplicit false

/-!
# Tables by name: what is in them

The names of a table are strictly ascending, and they are the names that have a value.  Taking
names out of a table takes them out of its list of names and changes nothing else.  Entries that
are in order already make a table of just these entries.
-/

namespace KernelGen.NameTable

variable {α : Type}

theorem ascending_names (t : NameTable α) : t.names.Pairwise (· < ·) :=
  List.pairwise_map.2 t.ascending

theorem nodup_names (t : NameTable α) : t.names.Nodup := by
  refine t.ascending_names.imp ?_
  rintro a b hlt rfl
  exact String.lt_irrefl a hlt

theorem mem_names_iff {t : NameTable α} {name : String} :
    name ∈ t.names ↔ t.contains name = true := by
  unfold names contains get?
  induction t.entries with
  | nil => simp
  | cons e es ih =>
    obtain ⟨k, a⟩ := e
    rw [lookup_entry, List.map_cons, List.mem_cons, ih]
    by_cases h : name = k <;> simp [h]

theorem isEmpty_iff {t : NameTable α} : t.isEmpty = true ↔ t.names = [] := by
  simp [isEmpty, names]

/-- The names that are left when one is taken out. -/
theorem names_erase (t : NameTable α) (name : String) :
    (t.erase name).names = t.names.filter (· != name) := by
  simp only [names, erase, List.filter_map]
  rfl

/-- Taking a name out that has no value changes nothing. -/
theorem erase_eq_self {t : NameTable α} {name : String} (h : t.get? name = none) :
    t.erase name = t := by
  have hnot : name ∉ t.names := by
    rw [mem_names_iff, contains, h]
    exact Bool.false_ne_true
  have hentries : t.entries.filter (fun e => e.1 != name) = t.entries := by
    rw [List.filter_eq_self]
    intro e he
    rw [bne_iff_ne]
    rintro rfl
    exact hnot (List.mem_map_of_mem he)
  unfold erase
  congr 1

/-- Takes names out of the table, one after the other. -/
def eraseMany (t : NameTable α) (names : List String) : NameTable α := names.foldl erase t

theorem names_eraseMany (t : NameTable α) (names : List String) :
    (t.eraseMany names).names = t.names.filter fun name => !names.contains name := by
  unfold eraseMany
  induction names generalizing t with
  | nil => exact (List.filter_eq_self.2 fun _ _ => rfl).symm
  | cons name names ih =>
    rw [List.foldl_cons, ih, names_erase, List.filter_filter]
    congr 1
    funext other
    simp only [List.contains_cons, Bool.not_or, bne]
    exact Bool.and_comm _ _

/-- The value of an entry is the value of its name, as no other entry has that name. -/
theorem get?_of_mem {t : NameTable α} {name : String} {a : α} (h : (name, a) ∈ t.entries) :
    t.get? name = some a := by
  have hascending := t.ascending
  unfold get?
  generalize t.entries = es at h hascending
  induction es with
  | nil => cases h
  | cons e es ih =>
    obtain ⟨hhead, htail⟩ := List.pairwise_cons.1 hascending
    rw [lookup_entry]
    split
    · rename_i hname
      rcases List.mem_cons.1 h with rfl | h
      · rfl
      · exact absurd (hname ▸ hhead _ h) (String.lt_irrefl _)
    · rename_i hname
      rcases List.mem_cons.1 h with rfl | h
      · exact absurd rfl hname
      · exact ih h htail

/-! ## Entries that are in order already -/

/-- A name behind all others is put last. -/
theorem put_concat {name : String} {a : α} {es : List (String × α)} (h : ∀ e ∈ es, e.1 < name) :
    put name a es = es ++ [(name, a)] := by
  induction es with
  | nil => rfl
  | cons e es ih =>
    have he : e.1 < name := h e List.mem_cons_self
    have hne : name ≠ e.1 := fun heq => String.lt_irrefl name (heq ▸ he)
    have hnlt : ¬ name < e.1 := fun hlt => String.lt_irrefl name (String.lt_trans hlt he)
    rw [put, if_neg hne, if_neg hnlt, ih fun d hd => h d (List.mem_cons_of_mem _ hd)]
    rfl

/-- Entries in order are inserted as they stand. -/
theorem entries_insertMany {t : NameTable α} {es : List (String × α)}
    (h : Ascending (t.entries ++ es)) : (t.insertMany es).entries = t.entries ++ es := by
  unfold insertMany
  induction es generalizing t with
  | nil => exact (List.append_nil _).symm
  | cons e es ih =>
    have hlast : (t.insert e.1 e.2).entries = t.entries ++ [e] :=
      put_concat fun d hd => (List.pairwise_append.1 h).2.2 d hd e List.mem_cons_self
    have happend : t.entries ++ e :: es = t.entries ++ [e] ++ es := by simp
    rw [happend] at h
    rw [List.foldl_cons, ih (by rwa [hlast]), hlast, happend]

/-! ## Entries in any order -/

/-- A name that had no value is one entry more. -/
theorem perm_put {name : String} {a : α} {es : List (String × α)} (h : name ∉ es.map Prod.fst) :
    (put name a es).Perm ((name, a) :: es) := by
  induction es with
  | nil => exact .refl _
  | cons e es ih =>
    rw [List.map_cons, List.mem_cons, not_or] at h
    rw [put, if_neg h.1]
    split
    · exact .refl _
    · exact ((ih h.2).cons e).trans (.swap _ _ _)

/-- Entries whose names differ are all there when they were inserted. -/
theorem perm_entries_insertMany {t : NameTable α} {es : List (String × α)}
    (h : ((t.entries ++ es).map Prod.fst).Nodup) :
    (t.insertMany es).entries.Perm (t.entries ++ es) := by
  unfold insertMany
  induction es generalizing t with
  | nil => exact .of_eq (List.append_nil _).symm
  | cons e es ih =>
    have hmoved : (t.entries ++ e :: es).Perm (e :: (t.entries ++ es)) := List.perm_middle
    have hsplit := (hmoved.map Prod.fst).nodup_iff.1 h
    rw [List.map_cons, List.nodup_cons, List.map_append, List.mem_append, not_or] at hsplit
    have hput : (t.insert e.1 e.2).entries.Perm (e :: t.entries) := perm_put hsplit.1.1
    have hlater : ((t.insert e.1 e.2).entries ++ es).Perm (t.entries ++ e :: es) :=
      (hput.append_right es).trans hmoved.symm
    exact (ih ((hlater.map Prod.fst).nodup_iff.2 h)).trans hlater

theorem eq_of_entries {t t' : NameTable α} (h : t.entries = t'.entries) : t = t' := by
  cases t
  cases t'
  cases h
  rfl

/-- The entries of a table make the table, in whatever order they are inserted. -/
theorem insertMany_of_perm {t : NameTable α} {es : List (String × α)} (h : es.Perm t.entries) :
    empty.insertMany es = t := by
  have hnodup : (es.map Prod.fst).Nodup := (h.map Prod.fst).nodup_iff.2 t.nodup_names
  have hperm : (empty.insertMany es).entries.Perm t.entries :=
    (perm_entries_insertMany hnodup).trans h
  have hentries : (empty.insertMany es).entries = t.entries := by
    refine hperm.eq_of_pairwise (fun a b _ _ hab hba => ?_) (empty.insertMany es).ascending
      t.ascending
    exact absurd (String.lt_trans hab hba) (String.lt_irrefl a.1)
  exact eq_of_entries hentries

end KernelGen.NameTable
