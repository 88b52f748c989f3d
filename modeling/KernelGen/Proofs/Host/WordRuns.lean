import KernelGen.Proofs.Host.Extent
set_option autoImplicit false

/-!
# Host: runs of words

The names of builtin types are runs of words.  The loop that reads such a name goes on for as long
as what it has read so far is a word that a builtin type starts with.  Two words with a blank
between them are no such word any more, so the loop joins two words and leaves the third one, which
is then read as the name of a parameter.
-/

namespace KernelGen.Host

open Source

/-! ## The loop -/

/-- The name that starts with `name`, and the tokens behind it.  A word is taken for as long as the
name so far is a word a builtin type starts with and the next one is a word it ends with. -/
def joinWords (name : String) : List Token → String × List Token
  | [] => (name, [])
  | u :: r =>
    if sizeWords.contains name && u.kind == .identifier && kindWords.contains u.text then
      joinWords (name ++ " " ++ u.text) r
    else (name, u :: r)

theorem joinWords_of_joins {name : String} {u : Token} (h : JoinsWords name u.shape)
    (r : List Token) : joinWords name (u :: r) = joinWords (name ++ " " ++ u.text) r :=
  if_pos (joinsWords_iff.2 h)

theorem joinWords_of_not_joins {name : String} {ts : List Token}
    (h : ¬ JoinsWords name (nextShape (ts.map Token.shape))) : joinWords name ts = (name, ts) := by
  cases ts with
  | nil => rfl
  | cons u r => exact if_neg (mt joinsWords_iff.1 h)

/-- The loop ends behind two words. -/
theorem joinWords_joined {name : String} {u : Token} (h : JoinsWords name u.shape)
    (r : List Token) : joinWords name (u :: r) = (name ++ " " ++ u.text, r) := by
  rw [joinWords_of_joins h]
  exact joinWords_of_not_joins (not_joinsWords_joined (shape_eq h.2.1 ▸ h) _)

/-- The first segment of a name is what the loop makes of its first word. -/
theorem firstSegment_eq (ts : List Token) : firstSegment ts = (do
    let (t, r) ← expect .identifier .typeName ts
    return joinWords t.text r) := by
  unfold firstSegment
  cases expect .identifier .typeName ts with
  | error e => rfl
  | ok p =>
    obtain ⟨t, r⟩ := p
    cases r with
    | nil => rfl
    | cons u r =>
      by_cases h : JoinsWords t.text u.shape
      · have hloop : joinWords t.text (u :: r) = _ := joinWords_joined h r
        simp only [bind, Except.bind, if_pos (joinsWords_iff.2 h), hloop]
      · have hloop : joinWords t.text (u :: r) = _ := joinWords_of_not_joins h
        simp only [bind, Except.bind, if_neg (mt joinsWords_iff.1 h), hloop]

/-! ## A type that starts with two words -/

/-- The type that is a name alone. -/
def HostType.named (name : String) : HostType := ⟨false, false, [name], [], []⟩

/-- The token ends a type that is a name alone. -/
structure EndsName (k : Shape) : Prop where
  noSegment : k.kind ≠ .doubleColon
  noArguments : k.kind ≠ .lessThan
  noDeclarator : ¬ StartsDeclarator k

theorem endsName_kindWord {u : Token} (hu : u.kind = .identifier) (h : u.text ∈ kindWords) :
    EndsName u.shape := by
  have hconst : ∀ w ∈ kindWords, w ≠ "const" := by decide
  refine ⟨?_, ?_, ?_⟩
  · exact fun hkind => TokenKind.noConfusion (hu.symm.trans hkind)
  · exact fun hkind => TokenKind.noConfusion (hu.symm.trans hkind)
  · rintro (hword | hkind | hkind)
    · exact hconst _ h (congrArg Shape.text hword)
    · exact TokenKind.noConfusion (hu.symm.trans hkind)
    · exact TokenKind.noConfusion (hu.symm.trans hkind)

section Pair

variable {t u : Token}

theorem typeHead_pair (ht : t.kind = .identifier) (h : JoinsWords t.text u.shape)
    (more : List Token) : typeHead (t :: u :: more) = (do
      let (names, rest) ← moreSegments more
      return (⟨false, false, (t.text ++ " " ++ u.text) :: names⟩, rest)) := by
  have hsize : ∀ w ∈ sizeWords, w ≠ "const" := by decide
  have hconst : t.isWord "const" = false := by
    rw [← Bool.not_eq_true, isWord_iff]
    exact fun hword => hsize _ h.1 (congrArg Shape.text hword)
  have hglobal : (t.kind == .doubleColon) = false := by rw [ht]; rfl
  have hfirst : firstSegment (t :: u :: more) = .ok (t.text ++ " " ++ u.text, more) := by
    rw [firstSegment_eq, expect_eq_ok.2 ⟨rfl, ht⟩]
    exact congrArg Except.ok (joinWords_joined h more)
  have hnext : next (t :: u :: more) = t := rfl
  simp only [typeHead, hnext, hconst, hglobal, Bool.false_eq_true, if_false, hfirst]
  rfl

theorem moreSegments_ends {ts : List Token} (h : EndsName (next ts).shape) :
    moreSegments ts = .ok ([], ts) := by
  cases ts with
  | nil => rfl
  | cons v r =>
    have hv : v.kind ≠ .doubleColon := h.noSegment
    unfold moreSegments
    exact if_neg hv

theorem declaratorRun_ends {v : Token} (h : EndsName v.shape) (r : List Token) :
    declaratorRun (v :: r) = ([], v :: r) := by
  have hconst : ¬ v.isWord "const" = true := fun hword => h.noDeclarator (.inl (isWord_iff.1 hword))
  have hampersand : v.kind ≠ .ampersand := fun hkind => h.noDeclarator (.inr (.inl hkind))
  have hasterisk : v.kind ≠ .asterisk := fun hkind => h.noDeclarator (.inr (.inr hkind))
  unfold declaratorRun
  rw [if_neg hconst, if_neg hampersand, if_neg hasterisk]

/-- Two words in front of what ends a name are the type. -/
theorem HostType.step_pair (ht : t.kind = .identifier) (h : JoinsWords t.text u.shape)
    {more : List Token} (hends : EndsName (next more).shape) :
    HostType.step (t :: u :: more) = .ok (.named (t.text ++ " " ++ u.text), more) := by
  rw [HostType.step_eq, typeHead_pair ht h, moreSegments_ends hends]
  cases more with
  | nil => rfl
  | cons v r =>
    have hhead : v.kind ≠ .lessThan := hends.noArguments
    simp only [bind, Except.bind, pure, Except.pure, if_neg hhead,
      declaratorRun_ends (v := v) hends]
    rfl

/-- Two words are taken whole wherever a type is read that starts with them. -/
theorem HostType.path_of_pair (ht : t.kind = .identifier) (h : JoinsWords t.text u.shape)
    {more rest : List Token} {type : HostType}
    (hstep : HostType.step (t :: u :: more) = .ok (type, rest)) :
    type.path.head? = some (t.text ++ " " ++ u.text) ∧ rest <:+ more := by
  have hargument : ∀ us a rest', us.length < (t :: u :: more).length →
      TemplateArg.step us = .ok (a, rest') → rest' <:+ us := fun us a rest' _ =>
    TemplateArg.suffix_of_step (HostType.step_leaves us)
  obtain ⟨head, r, hhead, hpath, hrest⟩ := HostType.exists_head hargument hstep
  rw [typeHead_pair ht h] at hhead
  obtain ⟨⟨names, r'⟩, hnames, hhead⟩ := bind_eq_ok.1 hhead
  cases hhead
  rw [hpath]
  exact ⟨rfl, hrest.trans (moreSegments_leaves _ _ _ hnames)⟩

end Pair

/-! ## Runs of words -/

/-- Two or more words that name a builtin type together: all but the last are words that one starts
with, and all but the first are words that one ends with. -/
structure IsWordRun (ws : List Token) : Prop where
  several : 2 ≤ ws.length
  words : ∀ t ∈ ws, t.kind = .identifier
  sizes : ∀ t ∈ ws.dropLast, t.text ∈ sizeWords
  kinds : ∀ t ∈ ws.tail, t.text ∈ kindWords

/-- Words with a blank between each two. -/
def wordsText (ws : List Token) : String := " ".intercalate (ws.map (·.text))

theorem IsWordRun.pair {ws : List Token} (h : IsWordRun ws) :
    ∃ t u others, ws = t :: u :: others ∧ t.kind = .identifier ∧ JoinsWords t.text u.shape ∧
      wordsText (ws.take 2) = t.text ++ " " ++ u.text ∧
      ∀ v ∈ others, v.kind = .identifier ∧ v.text ∈ kindWords := by
  obtain ⟨hseveral, hwords, hsizes, hkinds⟩ := h
  match ws, hseveral with
  | t :: u :: others, _ =>
    refine ⟨t, u, others, rfl, hwords t List.mem_cons_self, ⟨?_, ?_, ?_⟩, ?_, fun v hv => ⟨?_, ?_⟩⟩
    · exact hsizes t List.mem_cons_self
    · exact hwords u (List.mem_cons_of_mem t List.mem_cons_self)
    · exact hkinds u List.mem_cons_self
    · simp [wordsText, String.append_assoc]
    · exact hwords v (List.mem_cons_of_mem t (List.mem_cons_of_mem u hv))
    · exact hkinds v (List.mem_cons_of_mem u hv)

section Run

variable {ws : List Token} (h : IsWordRun ws) (more : List Token)

include h

/-- The first two words of a run are the type, when there are more words or the name ends. -/
theorem HostType.step_wordRun (hends : 3 ≤ ws.length ∨ EndsName (next more).shape) :
    HostType.step (ws ++ more) = .ok (.named (wordsText (ws.take 2)), ws.drop 2 ++ more) := by
  obtain ⟨t, u, others, rfl, ht, hjoins, htext, hothers⟩ := h.pair
  rw [htext]
  refine HostType.step_pair ht hjoins ?_
  cases others with
  | nil => exact hends.resolve_left (by simp)
  | cons v others =>
    obtain ⟨hv, hkind⟩ := hothers v List.mem_cons_self
    exact endsName_kindWord hv hkind

/-- The third word of a run is read as the name of the parameter. -/
theorem Param.step_wordRun (hlong : 3 ≤ ws.length)
    (hvalue : (next (ws.drop 3 ++ more)).kind ≠ .equals) :
    Param.step (ws ++ more) =
      .ok (⟨.named (wordsText (ws.take 2)), ws[2]?.map (·.text), none⟩, ws.drop 3 ++ more) := by
  have htype := HostType.step_wordRun h more (.inl hlong)
  obtain ⟨t, u, others, rfl, -, -, -, hothers⟩ := h.pair
  cases others with
  | nil => exact absurd hlong (by simp)
  | cons v others =>
    obtain ⟨hv, -⟩ := hothers v List.mem_cons_self
    have hdefault : optionalDefault (others ++ more) = .ok (none, others ++ more) := by
      rw [optionalDefault, behind, accept?_eq_none (by rw [nextKind_map]; exact hvalue)]
    refine bind_eq_ok.2 ⟨_, htype, ?_⟩
    simp only [List.drop_succ_cons, List.drop_zero, List.cons_append, optionalName, if_pos hv,
      hdefault]
    rfl

/-- A run is read whole if and only if it has two words. -/
theorem HostType.reads_wordRun :
    (∃ type rest, HostType.step (ws ++ more) = .ok (type, rest) ∧
      type.path.head? = some (wordsText ws) ∧ rest <:+ more) ↔
    ws.length = 2 ∧ ∃ r, HostType.step (ws ++ more) = .ok r := by
  constructor
  · rintro ⟨type, rest, hstep, -, hrest⟩
    refine ⟨?_, _, hstep⟩
    by_contra hne
    have hlong : 3 ≤ ws.length := Nat.lt_of_le_of_ne h.several (Ne.symm hne)
    cases hstep.symm.trans (HostType.step_wordRun h more (.inl hlong))
    -- the third word is left, so more is left than what stands behind the run
    have hlength := hrest.length_le
    rw [List.length_append, List.length_drop] at hlength
    omega
  · rintro ⟨htwo, ⟨type, rest⟩, hstep⟩
    obtain ⟨t, u, others, rfl, ht, hjoins, htext, -⟩ := h.pair
    obtain rfl : others = [] := List.length_eq_zero_iff.1 (by simpa using htwo)
    obtain ⟨hpath, hrest⟩ := HostType.path_of_pair ht hjoins hstep
    exact ⟨type, rest, hstep, hpath.trans (congrArg some htext.symm), hrest⟩

end Run

/-- **Runs of words are read two words long.**  Whatever stands behind a run of words that name a
builtin type together, the name of the type that is read is the run, and none of its words is left,
if and only if the run has two words.  Of a longer one the first two words are the type, and a
parameter that starts with it takes the third word for its name. -/
theorem HostType.reads_wordRun_iff {ws : List Token} (h : IsWordRun ws) (more : List Token) :
    ((∃ type rest, HostType.step (ws ++ more) = .ok (type, rest) ∧
        type.path.head? = some (wordsText ws) ∧ rest <:+ more) ↔
      ws.length = 2 ∧ ∃ r, HostType.step (ws ++ more) = .ok r) ∧
    (3 ≤ ws.length ∨ EndsName (next more).shape →
      HostType.step (ws ++ more) = .ok (.named (wordsText (ws.take 2)), ws.drop 2 ++ more)) ∧
    (3 ≤ ws.length → (next (ws.drop 3 ++ more)).kind ≠ .equals →
      Param.step (ws ++ more) =
        .ok (⟨.named (wordsText (ws.take 2)), ws[2]?.map (·.text), none⟩, ws.drop 3 ++ more)) :=
  ⟨HostType.reads_wordRun h more, HostType.step_wordRun h more, Param.step_wordRun h more⟩

/-- A header with a type of three words. -/
def longLongHeader : String := "at::Tensor f(unsigned long long n);"

/-- The tokens of `longLongHeader`. -/
def longLongTokens : List Token := (tokenize longLongHeader).toOption.getD []

/-- The words of the type. -/
def longLongWords : List Token := (longLongTokens.drop 5).take 3

/-- What stands behind the type: the name of the parameter and the end of the declaration. -/
def behindLongLong : List Token := longLongTokens.drop 8

theorem isWordRun_longLong : IsWordRun longLongWords := by
  have hwords : longLongWords = [⟨.identifier, "unsigned", ⟨1, 14⟩, [], [⟨.whitespace, " "⟩]⟩,
      ⟨.identifier, "long", ⟨1, 23⟩, [], [⟨.whitespace, " "⟩]⟩,
      ⟨.identifier, "long", ⟨1, 28⟩, [], [⟨.whitespace, " "⟩]⟩] := by cbv
  rw [hwords]
  constructor <;> decide

theorem reads_wordRun_longLong :
    IsWordRun longLongWords ∧
    ((∃ type rest, HostType.step (longLongWords ++ behindLongLong) = .ok (type, rest) ∧
        type.path.head? = some (wordsText longLongWords) ∧ rest <:+ behindLongLong) ↔
      longLongWords.length = 2 ∧ ∃ r, HostType.step (longLongWords ++ behindLongLong) = .ok r) ∧
    (3 ≤ longLongWords.length ∨ EndsName (next behindLongLong).shape →
      HostType.step (longLongWords ++ behindLongLong) =
        .ok (.named (wordsText (longLongWords.take 2)), longLongWords.drop 2 ++ behindLongLong)) ∧
    (3 ≤ longLongWords.length →
      (next (longLongWords.drop 3 ++ behindLongLong)).kind ≠ .equals →
      Param.step (longLongWords ++ behindLongLong) =
        .ok (⟨.named (wordsText (longLongWords.take 2)), longLongWords[2]?.map (·.text), none⟩,
          longLongWords.drop 3 ++ behindLongLong)) :=
  ⟨isWordRun_longLong, HostType.reads_wordRun_iff isWordRun_longLong behindLongLong⟩

theorem append_longLong : longLongWords ++ behindLongLong = longLongTokens.drop 5 := by
  have hbehind : behindLongLong = (longLongTokens.drop 5).drop 3 := by
    rw [List.drop_drop]
    rfl
  rw [longLongWords, hbehind, List.take_append_drop]

theorem param_longLong : Param.step (longLongWords ++ behindLongLong) =
    .ok (⟨.named "unsigned long", some "long", none⟩, behindLongLong) := by
  obtain ⟨htext, hname, hvalue⟩ : wordsText (longLongWords.take 2) = "unsigned long" ∧
      longLongWords[2]?.map (·.text) = some "long" ∧
      (next behindLongLong).kind = .identifier := by cbv
  have hnone : longLongWords.drop 3 = [] := List.drop_take_self
  have hstep := Param.step_wordRun isWordRun_longLong behindLongLong (by cbv)
    (by rw [hnone, List.nil_append, hvalue]; decide)
  rwa [htext, hname, hnone] at hstep

theorem refuses_longLong : Declaration.step longLongTokens =
    .error (.at behindLongLong (.expected .closeParen)) := by
  obtain ⟨hreturn, hname, hopen, hopened, hcomma, hclose⟩ :
      HostType.step (longLongTokens.dropWhile isSpecifier) =
        .ok (⟨false, false, ["at", "Tensor"], [], []⟩, longLongTokens.drop 3) ∧
      expect .identifier .functionName (longLongTokens.drop 3) =
        .ok (next (longLongTokens.drop 3), longLongTokens.drop 4) ∧
      expect .openParen .openParen (longLongTokens.drop 4) =
        .ok (next (longLongTokens.drop 4), longLongTokens.drop 5) ∧
      (next (longLongTokens.drop 5)).kind = .identifier ∧
      (next behindLongLong).kind = .identifier ∧
      expect .closeParen .closeParen behindLongLong =
        .error (.at behindLongLong (.expected .closeParen)) := by cbv
  have hparam := param_longLong
  rw [append_longLong] at hparam
  have hparams : listed Param.step Param.step_consumes (longLongTokens.drop 5) =
      .ok ([⟨.named "unsigned long", some "long", none⟩], behindLongLong) :=
    (if_neg (by simp [hopened])).trans
      ((readsSeparated_commaSeparated Param.step Param.step_consumes).one hparam
        (by simp [hcomma]))
  simp only [Declaration.step, bind, Except.bind, hreturn, hname, hopen, hparams, hclose]

/-- The last word of the type is the name of the parameter, and the header is refused. -/
theorem longLong_splits :
    IsWordRun longLongWords ∧ wordsText longLongWords = "unsigned long long" ∧
    (next behindLongLong).text = "n" ∧
    Param.step (longLongWords ++ behindLongLong) =
      .ok (⟨.named "unsigned long", some "long", none⟩, behindLongLong) ∧
    (¬ ∃ type rest, HostType.step (longLongWords ++ behindLongLong) = .ok (type, rest) ∧
      type.path.head? = some (wordsText longLongWords) ∧ rest <:+ behindLongLong) ∧
    declarations longLongHeader =
      .error (.unexpected (.at behindLongLong (.expected .closeParen))) := by
  obtain ⟨htext, hnext, hlength⟩ : wordsText longLongWords = "unsigned long long" ∧
      (next behindLongLong).text = "n" ∧ longLongWords.length = 3 := by cbv
  refine ⟨isWordRun_longLong, htext, hnext, param_longLong, ?_, ?_⟩
  · rw [HostType.reads_wordRun isWordRun_longLong, hlength]
    exact fun h => absurd h.1 (by decide)
  · obtain ⟨hts, hfirst⟩ : tokenize longLongHeader = .ok longLongTokens ∧
        (next longLongTokens).kind = .identifier := by cbv
    have hrefused : declarationsOf longLongTokens = _ := declarationsOf_eq (by simp [hfirst])
    rw [refuses_longLong] at hrefused
    rw [declarations, Source.read, hts]
    simp only [hrefused]
    rfl

end KernelGen.Host
