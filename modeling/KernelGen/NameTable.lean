set_option autoImplicit false

/-!
# Tables by name

A table gives values to names.  Its entries are kept in the order of their names, code point by
code point, which is the order in which names are listed and visited everywhere.  Each name
occurs once: a later value replaces an earlier one.

`get?_insert` and `get?_erase` say what the two operations do to what can be looked up.
-/

namespace KernelGen

/-- Entries in the strict order of their names. -/
def Ascending {α : Type} (es : List (String × α)) : Prop := es.Pairwise fun a b => a.1 < b.1

/-- Values by name. -/
structure NameTable (α : Type) where
  entries : List (String × α)
  ascending : Ascending entries

namespace NameTable

variable {α : Type}

/-- The entries with a value for `name`, instead of any it had. -/
def put (name : String) (a : α) : List (String × α) → List (String × α)
  | [] => [(name, a)]
  | e :: es =>
    if name = e.1 then (name, a) :: es
    else if name < e.1 then (name, a) :: e :: es
    else e :: put name a es

theorem lt_of_not_lt {a b : String} (hne : a ≠ b) (h : ¬ a < b) : b < a :=
  String.not_le.1 fun hab => hne (String.le_antisymm hab (String.not_lt.1 h))

theorem mem_put {name : String} {a : α} {es : List (String × α)} {e : String × α}
    (h : e ∈ put name a es) : e = (name, a) ∨ e ∈ es := by
  induction es with
  | nil => simpa [put] using h
  | cons d es ih =>
    simp only [put] at h
    split at h
    · rcases List.mem_cons.1 h with h | h
      · exact .inl h
      · exact .inr (List.mem_cons_of_mem _ h)
    split at h
    · rcases List.mem_cons.1 h with h | h
      · exact .inl h
      · exact .inr h
    · rcases List.mem_cons.1 h with h | h
      · exact .inr (h ▸ List.mem_cons_self)
      · rcases ih h with h | h
        · exact .inl h
        · exact .inr (List.mem_cons_of_mem _ h)

theorem ascending_put (name : String) (a : α) {es : List (String × α)} (h : Ascending es) :
    Ascending (put name a es) := by
  induction es with
  | nil => exact List.pairwise_singleton _ _
  | cons e es ih =>
    obtain ⟨hhead, htail⟩ := List.pairwise_cons.1 h
    simp only [put]
    split
    · rename_i heq
      exact List.pairwise_cons.2 ⟨fun d hd => heq ▸ hhead d hd, htail⟩
    rename_i hne
    split
    · rename_i hlt
      refine List.pairwise_cons.2 ⟨fun d hd => ?_, h⟩
      rcases List.mem_cons.1 hd with rfl | hd
      · exact hlt
      · exact String.lt_trans hlt (hhead d hd)
    · rename_i hlt
      refine List.pairwise_cons.2 ⟨fun d hd => ?_, ih htail⟩
      rcases mem_put hd with rfl | hd
      · exact lt_of_not_lt hne hlt
      · exact hhead d hd

/-- The table without entries. -/
def empty : NameTable α := ⟨[], List.Pairwise.nil⟩

instance : Inhabited (NameTable α) := ⟨empty⟩

/-- Gives a name a value, instead of any it had. -/
def insert (t : NameTable α) (name : String) (a : α) : NameTable α :=
  ⟨put name a t.entries, ascending_put name a t.ascending⟩

/-- Takes a name out of the table. -/
def erase (t : NameTable α) (name : String) : NameTable α :=
  ⟨t.entries.filter fun e => e.1 != name, List.Pairwise.filter _ t.ascending⟩

/-- The value of a name. -/
def get? (t : NameTable α) (name : String) : Option α := t.entries.lookup name

/-- The name has a value. -/
def contains (t : NameTable α) (name : String) : Bool := (t.get? name).isSome

/-- The names that have values, in order. -/
def names (t : NameTable α) : List String := t.entries.map (·.1)

/-- The number of names that have values. -/
def size (t : NameTable α) : Nat := t.entries.length

/-- No name has a value. -/
def isEmpty (t : NameTable α) : Bool := t.entries.isEmpty

/-- Inserts entries one after the other. -/
def insertMany (t : NameTable α) (es : List (String × α)) : NameTable α :=
  es.foldl (fun t e => t.insert e.1 e.2) t

theorem get?_empty (name : String) : (empty : NameTable α).get? name = none := rfl

theorem lookup_entry {κ : Type} [DecidableEq κ] [BEq κ] [LawfulBEq κ] (m name : κ) (a : α)
    (es : List (κ × α)) :
    ((name, a) :: es).lookup m = if m = name then some a else es.lookup m := by
  by_cases h : m = name
  · simp [h]
  · have : (m == name) = false := by simpa using h
    simp [List.lookup_cons, this, h]

theorem lookup_put (name m : String) (a : α) (es : List (String × α)) :
    (put name a es).lookup m = if m = name then some a else es.lookup m := by
  induction es with
  | nil => exact lookup_entry m name a []
  | cons e es ih =>
    obtain ⟨k, b⟩ := e
    simp only [put]
    split
    · rename_i heq
      rw [lookup_entry, lookup_entry, ← show name = k from heq]
      by_cases h : m = name <;> simp [h]
    split
    · rw [lookup_entry]
    · rename_i hne _
      rw [lookup_entry, lookup_entry, ih]
      by_cases h : m = k
      · have hm : ¬ m = name := fun h' => hne (h'.symm.trans h)
        simp [h, Ne.symm hne]
      · simp [h]

/-- A name that was given a value has it, and other names keep theirs. -/
theorem get?_insert (t : NameTable α) (name m : String) (a : α) :
    (t.insert name a).get? m = if m = name then some a else t.get? m :=
  lookup_put name m a t.entries

theorem lookup_filter_ne {κ : Type} [DecidableEq κ] [BEq κ] [LawfulBEq κ] (name m : κ)
    (es : List (κ × α)) :
    (es.filter fun e => e.1 != name).lookup m = if m = name then none else es.lookup m := by
  induction es with
  | nil => simp
  | cons e es ih =>
    obtain ⟨k, b⟩ := e
    by_cases he : k = name
    · rw [List.filter_cons_of_neg (by simp [he]), ih, lookup_entry]
      by_cases hm : m = name <;> simp [hm, he]
    · rw [List.filter_cons_of_pos (by simp [he]), lookup_entry, lookup_entry, ih]
      by_cases hm : m = k <;> simp [hm, he]

/-- A name that was taken out has no value, and other names keep theirs. -/
theorem get?_erase (t : NameTable α) (name m : String) :
    (t.erase name).get? m = if m = name then none else t.get? m :=
  lookup_filter_ne name m t.entries

end NameTable

end KernelGen
