import KernelGen.Proofs.Json.Document
set_option autoImplicit false

/-!
# JSON: documents that nest too deeply

A container that is opened inside as many others as a document may have open ends the reading there,
whatever comes behind it.  So a text that spells a value is read as that value, or refused for its
depth and for nothing else.
-/

namespace KernelGen.Json

/-- Reading the symbols ends at a container that is too deep. -/
def Stops (st : ReaderState) (ss : List Symbol) : Prop :=
  ss.foldlM step st = .error .nestedTooDeeply

section Stops

variable {st st' : ReaderState} {s : Symbol} {ss ss' : List Symbol}

theorem stops_cons (h : step st s = .error .nestedTooDeeply) (ss : List Symbol) :
    Stops st (s :: ss) := by
  rw [Stops, List.foldlM_cons, h]
  rfl

theorem Stops.cons (h : step st s = .ok st') (hmore : Stops st' ss) : Stops st (s :: ss) := by
  rw [Stops, List.foldlM_cons, h]
  exact hmore

theorem Stops.append (h : Stops st ss) (ss' : List Symbol) : Stops st (ss ++ ss') := by
  rw [Stops, List.foldlM_append, h]
  rfl

theorem Takes.stops (h : Takes st ss st') (hmore : Stops st' ss') : Stops st (ss ++ ss') := by
  rw [Stops, List.foldlM_append, h]
  exact hmore

end Stops

theorem exists_symbolsOfItems (j : Json) (js : List Json) :
    ∃ ss, symbolsOfItems (j :: js) = symbolsOf j ++ ss := by
  cases js with
  | nil => exact ⟨[], (List.append_nil _).symm⟩
  | cons k js => exact ⟨_, rfl⟩

mutual

theorem stops_symbolsOf : ∀ (j : Json) (stack : List OpenContainer),
    stack.length ≤ nestingLimit → nestingLimit < depth j + stack.length →
      Stops (.value stack) (symbolsOf j)
  | .null, _, hroom, h | .bool _, _, hroom, h | .number _, _, hroom, h
  | .string _, _, hroom, h => by
    simp only [depth] at h
    omega
  | .array items, stack, hroom, h => by
    rw [depth] at h
    rw [symbolsOf]
    by_cases hopen : stack.length < nestingLimit
    · refine .cons (if_pos hopen) ?_
      have hitems := (stops_items items [] stack hopen (by omega)).append [.closeArray]
      cases items with
      | nil =>
        rw [depthOfItems] at h
        omega
      | cons j js =>
        obtain ⟨ss, hss⟩ := exists_symbolsOfItems j js
        rw [hss, List.append_assoc] at hitems ⊢
        exact (foldlM_firstItem stack j _).trans hitems
    · have hfull : step (.value stack) .openArray = .error .nestedTooDeeply := if_neg hopen
      exact stops_cons hfull _
  | .object ms, stack, hroom, h => by
    rw [depth] at h
    rw [symbolsOf]
    by_cases hopen : stack.length < nestingLimit
    · refine .cons (if_pos hopen) ?_
      have hmembers := (stops_members ms [] stack hopen (by omega)).append [.closeObject]
      cases ms with
      | nil =>
        rw [depthOfMembers] at h
        omega
      | cons m ms =>
        cases ms with
        | nil => exact hmembers
        | cons m' ms => exact hmembers
    · have hfull : step (.value stack) .openObject = .error .nestedTooDeeply := if_neg hopen
      exact stops_cons hfull _

theorem stops_items : ∀ (items done : List Json) (stack : List OpenContainer),
    stack.length < nestingLimit → nestingLimit < depthOfItems items + 1 + stack.length →
      Stops (.value (.array done :: stack)) (symbolsOfItems items)
  | [], _, _, _, h => by
    rw [depthOfItems] at h
    omega
  | [j], done, stack, hopen, h => by
    rw [depthOfItems, depthOfItems] at h
    have hdeep : nestingLimit < depth j + (OpenContainer.array done :: stack).length := by
      rw [List.length_cons]
      omega
    exact stops_symbolsOf j _ hopen hdeep
  | j :: k :: js, done, stack, hopen, h => by
    rw [depthOfItems] at h
    rw [symbolsOfItems]
    by_cases hitem : depth j + (OpenContainer.array done :: stack).length ≤ nestingLimit
    · have hmore : Stops (.value (.array (j :: done) :: stack)) (symbolsOfItems (k :: js)) := by
        rw [List.length_cons] at hitem
        exact stops_items (k :: js) (j :: done) stack hopen (by omega)
      exact (takes_symbolsOf j _ hitem).stops (.cons rfl hmore)
    · exact (stops_symbolsOf j (.array done :: stack) hopen (by omega)).append _

theorem stops_members : ∀ (ms done : List (String × Json)) (stack : List OpenContainer),
    stack.length < nestingLimit → nestingLimit < depthOfMembers ms + 1 + stack.length →
      Stops (.nextName done stack) (symbolsOfMembers ms)
  | [], _, _, _, h => by
    rw [depthOfMembers] at h
    omega
  | [(name, j)], done, stack, hopen, h => by
    rw [depthOfMembers, depthOfMembers] at h
    have hdeep : nestingLimit < depth j + (OpenContainer.object done name :: stack).length := by
      rw [List.length_cons]
      omega
    exact .cons rfl (.cons rfl (stops_symbolsOf j _ hopen hdeep))
  | (name, j) :: m :: ms, done, stack, hopen, h => by
    rw [depthOfMembers] at h
    rw [symbolsOfMembers]
    refine .cons rfl (.cons rfl ?_)
    by_cases hvalue : depth j + (OpenContainer.object done name :: stack).length ≤ nestingLimit
    · have hmore : Stops (.nextName ((name, j) :: done) stack) (symbolsOfMembers (m :: ms)) := by
        rw [List.length_cons] at hvalue
        exact stops_members (m :: ms) ((name, j) :: done) stack hopen (by omega)
      exact (takes_symbolsOf j _ hvalue).stops (.cons rfl hmore)
    · exact (stops_symbolsOf j (.object done name :: stack) hopen (by omega)).append _

end

/-- A text that spells a value is read as that value unless the value nests too deeply. -/
theorem parse_spells {j : Json} {text : String} (h : Spells j text) :
    parse text = if depth j ≤ nestingLimit then .ok j else .error .nestedTooDeeply := by
  split
  · rename_i hdepth
    exact parse_of_spells h hdepth
  · rename_i hdepth
    have hstops : Stops (.value []) (symbolsOf j) :=
      stops_symbolsOf j [] (Nat.zero_le _) (by rw [List.length_nil]; omega)
    rw [parse, symbols_of_textForm h]
    show ofSymbols (symbolsOf j) = _
    rw [ofSymbols, hstops]
    rfl

end KernelGen.Json
