import KernelGen.Json.Reader
import KernelGen.Proofs.Json.Spelling
set_option autoImplicit false

/-!
# JSON: which documents denote a value

A value that is not nested too deeply is read from its symbols, and so from every text that spells
them.  What is read leaves the containers around it as they were, which is what carries the
induction.
-/

namespace KernelGen.Json

mutual

/-- The symbols of a value. -/
def symbolsOf : Json → List Symbol
  | .null => [.null]
  | .bool b => [.bool b]
  | .number t => [.number t]
  | .string t => [.string t]
  | .array items => .openArray :: (symbolsOfItems items ++ [.closeArray])
  | .object ms => .openObject :: (symbolsOfMembers ms ++ [.closeObject])

/-- The symbols of the items of an array, with commas between them. -/
def symbolsOfItems : List Json → List Symbol
  | [] => []
  | [j] => symbolsOf j
  | j :: k :: js => symbolsOf j ++ .comma :: symbolsOfItems (k :: js)

/-- The symbols of the members of an object, with commas between them. -/
def symbolsOfMembers : List (String × Json) → List Symbol
  | [] => []
  | [(name, j)] => .string name :: .colon :: symbolsOf j
  | (name, j) :: m :: ms =>
    .string name :: .colon :: (symbolsOf j ++ .comma :: symbolsOfMembers (m :: ms))

end

mutual

/-- How many containers are open at once in a value. -/
def depth : Json → Nat
  | .array items => depthOfItems items + 1
  | .object ms => depthOfMembers ms + 1
  | _ => 0

def depthOfItems : List Json → Nat
  | [] => 0
  | j :: js => max (depth j) (depthOfItems js)

def depthOfMembers : List (String × Json) → Nat
  | [] => 0
  | (_, j) :: ms => max (depth j) (depthOfMembers ms)

end

theorem depthOfMembers_eq_zero {ms : List (String × Json)} (h : ∀ m ∈ ms, depth m.2 = 0) :
    depthOfMembers ms = 0 := by
  induction ms with
  | nil => rfl
  | cons m ms ih =>
    obtain ⟨hm, hmore⟩ := List.forall_mem_cons.1 h
    rw [depthOfMembers, hm, ih hmore]
    rfl

/-! ## The reader -/

/-- Reading the symbols leads from the one state to the other. -/
def Takes (st : ReaderState) (ss : List Symbol) (st' : ReaderState) : Prop :=
  ss.foldlM step st = .ok st'

section Takes

variable {st st' st'' : ReaderState} {s : Symbol} {ss ss' : List Symbol}

theorem Takes.cons (h : step st s = .ok st') (hmore : Takes st' ss st'') :
    Takes st (s :: ss) st'' := by
  rw [Takes, List.foldlM_cons, h]
  exact hmore

theorem Takes.append (h : Takes st ss st') (hmore : Takes st' ss' st'') :
    Takes st (ss ++ ss') st'' := by
  rw [Takes, List.foldlM_append, h]
  exact hmore

end Takes

theorem exists_cons_symbolsOf (j : Json) : ∃ s ss, symbolsOf j = s :: ss ∧ s ≠ .closeArray := by
  cases j <;> exact ⟨_, _, rfl, Symbol.noConfusion⟩

/-- The first item of an array is read as any other value. -/
theorem foldlM_firstItem (stack : List OpenContainer) (j : Json) (ss : List Symbol) :
    (symbolsOf j ++ ss).foldlM step (.firstItem stack) =
      (symbolsOf j ++ ss).foldlM step (.value (.array [] :: stack)) := by
  obtain ⟨s, ss', hs, hne⟩ := exists_cons_symbolsOf j
  have hstep : step (.firstItem stack) s = step (.value (.array [] :: stack)) s := by
    cases s <;> first | rfl | exact absurd rfl hne
  rw [hs, List.cons_append, List.foldlM_cons, hstep, List.foldlM_cons]

theorem takes_firstItem {stack : List OpenContainer} {j : Json} {ss : List Symbol}
    {st : ReaderState} (h : Takes (.value (.array [] :: stack)) (symbolsOf j ++ ss) st) :
    Takes (.firstItem stack) (symbolsOf j ++ ss) st :=
  (foldlM_firstItem stack j ss).trans h

mutual

theorem takes_symbolsOf : ∀ (j : Json) (stack : List OpenContainer),
    depth j + stack.length ≤ nestingLimit → Takes (.value stack) (symbolsOf j) (.complete j stack)
  | .null, _, _ => rfl
  | .bool _, _, _ => rfl
  | .number _, _, _ => rfl
  | .string _, _, _ => rfl
  | .array [], stack, h => by
    rw [depth, depthOfItems] at h
    have hopen : stack.length < nestingLimit := by omega
    exact .cons (if_pos hopen) (.cons rfl rfl)
  | .array (j :: js), stack, h => by
    rw [depth] at h
    have hopen : stack.length < nestingLimit := by omega
    have hitems := takes_items (j :: js) [] stack (List.cons_ne_nil j js) (by omega)
    rw [symbolsOf]
    refine .cons (if_pos hopen) ?_
    cases js with
    | nil => exact takes_firstItem hitems
    | cons k js =>
      rw [symbolsOfItems, List.append_assoc] at hitems ⊢
      exact takes_firstItem hitems
  | .object [], stack, h => by
    rw [depth, depthOfMembers] at h
    have hopen : stack.length < nestingLimit := by omega
    exact .cons (if_pos hopen) (.cons rfl rfl)
  | .object ((name, j) :: ms), stack, h => by
    rw [depth] at h
    have hopen : stack.length < nestingLimit := by omega
    have hmembers := takes_members ((name, j) :: ms) [] stack (List.cons_ne_nil _ ms) (by omega)
    rw [symbolsOf]
    refine .cons (if_pos hopen) ?_
    cases ms with
    | nil => exact hmembers
    | cons m ms => exact hmembers

theorem takes_items : ∀ (items done : List Json) (stack : List OpenContainer), items ≠ [] →
    depthOfItems items + 1 + stack.length ≤ nestingLimit →
      Takes (.value (.array done :: stack)) (symbolsOfItems items ++ [.closeArray])
        (.complete (.array (done.reverse ++ items)) stack)
  | [], _, _, h, _ => absurd rfl h
  | [j], done, stack, _, h => by
    rw [depthOfItems, depthOfItems] at h
    have hitem : depth j + (OpenContainer.array done :: stack).length ≤ nestingLimit := by
      rw [List.length_cons]
      omega
    have hclose : Takes (.complete j (.array done :: stack)) [.closeArray]
        (.complete (.array (j :: done).reverse) stack) := .cons rfl rfl
    rw [List.reverse_cons] at hclose
    exact (takes_symbolsOf j _ hitem).append hclose
  | j :: k :: js, done, stack, _, h => by
    rw [depthOfItems] at h
    have hitem : depth j + (OpenContainer.array done :: stack).length ≤ nestingLimit := by
      rw [List.length_cons]
      omega
    have hmore := takes_items (k :: js) (j :: done) stack (List.cons_ne_nil k js) (by omega)
    rw [List.reverse_cons, List.append_assoc] at hmore
    rw [symbolsOfItems, List.append_assoc]
    exact (takes_symbolsOf j _ hitem).append (.cons rfl hmore)

theorem takes_members : ∀ (ms done : List (String × Json)) (stack : List OpenContainer),
    ms ≠ [] → depthOfMembers ms + 1 + stack.length ≤ nestingLimit →
      Takes (.nextName done stack) (symbolsOfMembers ms ++ [.closeObject])
        (.complete (.object (done.reverse ++ ms)) stack)
  | [], _, _, h, _ => absurd rfl h
  | [(name, j)], done, stack, _, h => by
    rw [depthOfMembers, depthOfMembers] at h
    have hvalue : depth j + (OpenContainer.object done name :: stack).length ≤ nestingLimit := by
      rw [List.length_cons]
      omega
    have hclose : Takes (.complete j (.object done name :: stack)) [.closeObject]
        (.complete (.object ((name, j) :: done).reverse) stack) := .cons rfl rfl
    rw [List.reverse_cons] at hclose
    exact .cons rfl (.cons rfl ((takes_symbolsOf j _ hvalue).append hclose))
  | (name, j) :: m :: ms, done, stack, _, h => by
    rw [depthOfMembers] at h
    have hvalue : depth j + (OpenContainer.object done name :: stack).length ≤ nestingLimit := by
      rw [List.length_cons]
      omega
    have hmore := takes_members (m :: ms) ((name, j) :: done) stack (List.cons_ne_nil m ms)
      (by omega)
    rw [List.reverse_cons, List.append_assoc] at hmore
    have hcomma : Takes (.complete j (.object done name :: stack))
        (.comma :: (symbolsOfMembers (m :: ms) ++ [.closeObject])) _ := .cons rfl hmore
    have hvalues := (takes_symbolsOf j _ hvalue).append hcomma
    rw [← List.cons_append, ← List.append_assoc] at hvalues
    exact .cons rfl (.cons rfl hvalues)

end

/-- The symbols of a value that is not nested too deeply denote it. -/
theorem ofSymbols_symbolsOf {j : Json} (h : depth j ≤ nestingLimit) :
    ofSymbols (symbolsOf j) = .ok j := by
  have htakes := takes_symbolsOf j [] h
  rw [ofSymbols, htakes]
  rfl

/-- The text is one of those that denote the value. -/
def Spells (j : Json) (text : String) : Prop := TextForm (symbolsOf j) text.toList

theorem parse_of_spells {j : Json} {text : String} (h : Spells j text)
    (hdepth : depth j ≤ nestingLimit) : parse text = .ok j := by
  rw [parse, symbols_of_textForm h]
  exact ofSymbols_symbolsOf hdepth

theorem parseBytes_toUTF8 (text : String) : parseBytes text.toUTF8 = parse text := by
  have hread : String.fromUTF8? text.toUTF8 = some text := dif_pos text.isValidUTF8
  rw [parseBytes, hread]

/-- One of the texts that denote a value, if there are no numbers in it. -/
def write (j : Json) : String := String.ofList ((symbolsOf j).flatMap Symbol.write)

theorem spells_write {j : Json} (hnumber : ∀ s ∈ symbolsOf j, ∀ t, s ≠ .number t) :
    Spells j j.write := by
  rw [Spells, write, String.toList_ofList]
  exact textForm_write hnumber

theorem parse_write {j : Json} (hnumber : ∀ s ∈ symbolsOf j, ∀ t, s ≠ .number t)
    (hdepth : depth j ≤ nestingLimit) : parse j.write = .ok j :=
  parse_of_spells (spells_write hnumber) hdepth

end KernelGen.Json
