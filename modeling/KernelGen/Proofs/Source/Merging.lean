import Mathlib
import KernelGen.Proofs.Source.Gluing
set_option autoImplicit false

/-!
# Source: which tokens grow together

Tokens that are written one behind the other are found again unless one of them goes on with what
is written behind it.  Four kinds of tokens can go on: a word or a number with a word or a number,
a number with a point that has a word or a number behind it, a colon with a colon, and a minus with
a closing angle bracket.  `Shape.GrowsInto` says this of a token and the characters behind it, and
`Shape.MergesWith` of a token and the tokens behind it.

`cuts_join_iff` is the result: tokens written without anything between them are found again if and
only if no two neighbours merge, and the last does not go on with what comes next.
-/

namespace KernelGen.Source

/-! ## What is cut off first -/

section Cut

variable {c : Char} {r chars more : List Char} {ks ks' : List Shape}

/-- A text that starts with a token has this token first. -/
theorem Cuts.of_token {kind : TokenKind} (h : Cuts (c :: r) ks [])
    (hfirst : Lexeme.first c r = .ok (.token kind, chars, more)) :
    ∃ back, ks = ⟨kind, String.ofList chars⟩ :: back ∧ Cuts more back [] := by
  cases h with
  | token hfirst' hmore =>
    cases hfirst.symm.trans hfirst'
    exact ⟨_, rfl, hmore⟩
  | trivia hfirst' _ => cases hfirst.symm.trans hfirst'

theorem Cuts.of_trivia {kind : TriviaKind} (h : Cuts (c :: r) ks [])
    (hfirst : Lexeme.first c r = .ok (.trivia kind, chars, more)) : Cuts more ks [] := by
  cases h with
  | token hfirst' _ => cases hfirst.symm.trans hfirst'
  | trivia hfirst' hmore =>
    cases hfirst.symm.trans hfirst'
    exact hmore

/-- There is one way to cut a text, so tokens that were cut off its front can be cancelled. -/
theorem Cuts.append_iff {cs : List Char} (h : Cuts cs ks more) :
    Cuts cs (ks ++ ks') [] ↔ Cuts more ks' [] := by
  refine ⟨fun hall => ?_, h.append⟩
  induction h with
  | done => exact hall
  | token hfirst _ ih =>
    obtain ⟨back, hback, hmore⟩ := hall.of_token hfirst
    rw [← (List.cons.inj hback).2] at hmore
    exact ih hmore
  | trivia hfirst _ ih => exact ih (hall.of_trivia hfirst)

end Cut

/-! ## Words and numbers -/

theorem apart_nil : Apart [] := fun _ h => nomatch h

theorem apart_cons {c : Char} {cs : List Char} : Apart (c :: cs) ↔ isWordPart c = false :=
  ⟨fun h => h c rfl, fun h _ hd => Option.some.inj hd ▸ h⟩

theorem apart_iff_takeWhile {cs : List Char} : Apart cs ↔ cs.takeWhile isWordPart = [] := by
  cases cs with
  | nil => exact ⟨fun _ => rfl, fun _ => apart_nil⟩
  | cons c cs =>
    rw [apart_cons]
    by_cases hc : isWordPart c = true
    · simp [hc]
    · simp [hc]

/-- A point with a word behind it, with which a number goes on. -/
def BeginsFraction (cs : List Char) : Prop := ∃ more, cs = '.' :: more ∧ ¬ Apart more

section Numbers

variable {ds : List Char} (hds : ∀ d ∈ ds, isWordPart d = true)

include hds

theorem splitNumber_words_append (cs : List Char) :
    splitNumber (ds ++ cs) = (ds ++ (splitNumber cs).1, (splitNumber cs).2) := by
  unfold splitNumber
  rw [List.takeWhile_append_of_pos hds, List.dropWhile_append_of_pos hds]
  split
  · split
    · rw [List.append_assoc]
    · rfl
  · rfl

theorem splitNumber_fraction_append (cs : List Char) (d : Char) {es : List Char}
    (hes : ∀ e ∈ d :: es, isWordPart e = true) :
    splitNumber (ds ++ '.' :: d :: es ++ cs) =
      (ds ++ '.' :: d :: (es ++ cs.takeWhile isWordPart), cs.dropWhile isWordPart) := by
  obtain ⟨hd, hes⟩ := List.forall_mem_cons.1 hes
  have hpoint : splitNumber ('.' :: d :: (es ++ cs)) =
      ('.' :: d :: (es ++ cs).takeWhile isWordPart, (es ++ cs).dropWhile isWordPart) := by
    have hdrop : ('.' :: d :: (es ++ cs)).dropWhile isWordPart = '.' :: d :: (es ++ cs) := rfl
    unfold splitNumber
    rw [hdrop]
    exact if_pos hd
  rw [List.append_assoc, List.cons_append, List.cons_append, splitNumber_words_append hds, hpoint,
    List.takeWhile_append_of_pos hes, List.dropWhile_append_of_pos hes]

end Numbers

/-- Behind its first digit a number is a run of word characters, maybe with a fraction behind. -/
theorem splitNumber_cases (cs : List Char) :
    ∃ ds, (∀ d ∈ ds, isWordPart d = true) ∧ ((splitNumber cs).1 = ds ∨
      ∃ d es, (∀ e ∈ d :: es, isWordPart e = true) ∧
        (splitNumber cs).1 = ds ++ '.' :: d :: es) := by
  refine ⟨cs.takeWhile isWordPart, List.all_eq_true.1 List.all_takeWhile, ?_⟩
  unfold splitNumber
  split
  · rename_i d r _
    split
    · rename_i hd
      exact .inr ⟨d, _, List.forall_mem_cons.2 ⟨hd, List.all_eq_true.1 List.all_takeWhile⟩, rfl⟩
    · exact .inl rfl
  · exact .inl rfl

theorem beginsFraction_cons {d : Char} {cs : List Char} :
    BeginsFraction ('.' :: d :: cs) ↔ isWordPart d = true := by
  constructor
  · rintro ⟨more, hmore, hword⟩
    cases hmore
    rwa [apart_cons, Bool.not_eq_false] at hword
  · intro hd
    exact ⟨d :: cs, rfl, fun h => Bool.false_ne_true ((apart_cons.1 h).symm.trans hd)⟩

/-- No more of a text goes on with a number than a word, or a point and a word. -/
theorem splitNumber_eq_nil_iff {cs : List Char} :
    (splitNumber cs).1 = [] ↔ Apart cs ∧ ¬ BeginsFraction cs := by
  cases htake : cs.takeWhile isWordPart with
  | cons d ds =>
    have hne : (splitNumber cs).1 ≠ [] := by
      unfold splitNumber
      rw [htake]
      split
      · split <;> exact List.cons_ne_nil d _
      · exact List.cons_ne_nil d _
    have hword : ¬ Apart cs := fun h => by
      rw [apart_iff_takeWhile.1 h] at htake
      cases htake
    exact ⟨fun h => absurd h hne, fun h => absurd h.1 hword⟩
  | nil =>
    have hdrop : cs.dropWhile isWordPart = cs := by
      have h := List.takeWhile_append_dropWhile (p := isWordPart) (l := cs)
      rwa [htake, List.nil_append] at h
    rw [and_iff_right (apart_iff_takeWhile.2 htake)]
    unfold splitNumber
    rw [hdrop, htake]
    split
    · rename_i d r
      rw [beginsFraction_cons]
      split
      · rename_i hd
        exact ⟨fun h => absurd h (List.cons_ne_nil _ _), fun h => absurd hd h⟩
      · rename_i hd
        exact ⟨fun _ => hd, fun _ => rfl⟩
    · rename_i hnot
      refine ⟨fun _ => ?_, fun _ => rfl⟩
      rintro ⟨more, rfl, hword⟩
      cases more with
      | nil => exact hword apart_nil
      | cons d r => exact hnot d r rfl

/-! ## Tokens and the characters behind them -/

/-- The token goes on with the characters behind it, and is another one with them. -/
def Shape.GrowsInto (k : Shape) (cs : List Char) : Prop :=
  match k.kind with
  | .identifier => ¬ Apart cs
  | .number => ¬ Apart cs ∨ '.' ∉ k.text.toList ∧ BeginsFraction cs
  | .colon => cs.head? = some ':'
  | .minus => cs.head? = some '>'
  | _ => False

section First

variable {k : Shape} {c : Char} {r : List Char}

/-- What a text is cut into first that starts with the characters `c :: r` of a token: a token,
and this one unless it goes on with what is behind it. -/
def CutFirst (k : Shape) (c : Char) (r cs : List Char) : Prop :=
  ∃ kind chars more, Lexeme.first c (r ++ cs) = .ok (.token kind, chars, more) ∧
    (chars = c :: r ↔ ¬ k.GrowsInto cs) ∧ (chars = c :: r → kind = k.kind)

theorem cutFirst_word (hkind : k.kind = .identifier) (hc : isWordStart c = true)
    (hr : ∀ d ∈ r, isWordPart d = true) (cs : List Char) : CutFirst k c r cs := by
  refine ⟨.identifier, c :: (r ++ cs.takeWhile isWordPart), cs.dropWhile isWordPart, ?_, ?_,
    fun _ => hkind.symm⟩
  · rw [Lexeme.first_word hc, List.takeWhile_append_of_pos hr, List.dropWhile_append_of_pos hr]
  · rw [List.cons_inj_right, List.append_right_eq_self, ← apart_iff_takeWhile]
    simp only [Shape.GrowsInto, hkind, not_not]

theorem cutFirst_number (hkind : k.kind = .number) (hk : k.text.toList = c :: r)
    (hc : c.isDigit = true) {r' : List Char} (hr : r = (splitNumber r').1) (cs : List Char) :
    CutFirst k c r cs := by
  have hpoint : c ≠ '.' := ne_of_isWordPart (isWordPart_of_isDigit hc) rfl
  obtain ⟨ds, hds, hplain | ⟨d, es, hes, hfraction⟩⟩ := splitNumber_cases r'
  · rw [← hr] at hplain
    subst hplain
    refine ⟨.number, c :: (r ++ (splitNumber cs).1), (splitNumber cs).2, ?_, ?_,
      fun _ => hkind.symm⟩
    · rw [Lexeme.first_number hc, splitNumber_words_append hds]
    · have hnone : '.' ∉ k.text.toList := by
        rw [hk, List.mem_cons, not_or]
        exact ⟨hpoint.symm, fun hmem => absurd (hds _ hmem) (by decide)⟩
      rw [List.cons_inj_right, List.append_right_eq_self, splitNumber_eq_nil_iff]
      simp only [Shape.GrowsInto, hkind, hnone, not_false_eq_true, true_and, not_or, not_not]
  · rw [← hr] at hfraction
    subst hfraction
    refine ⟨.number, c :: (ds ++ '.' :: d :: (es ++ cs.takeWhile isWordPart)),
      cs.dropWhile isWordPart, ?_, ?_, fun _ => hkind.symm⟩
    · rw [Lexeme.first_number hc, splitNumber_fraction_append hds cs d hes]
    · have hsome : '.' ∈ k.text.toList := by
        rw [hk]
        exact List.mem_cons_of_mem c (List.mem_append_right ds List.mem_cons_self)
      rw [List.cons_inj_right, List.append_cancel_left_eq, List.cons_inj_right, List.cons_inj_right,
        List.append_right_eq_self, ← apart_iff_takeWhile]
      simp only [Shape.GrowsInto, hkind, hsome, not_true_eq_false, false_and, or_false, not_not]

/-- A mark of one character that may go on with another one. -/
theorem cutFirst_pair {second : Char} {one two : TokenKind} (hkind : k.kind = one)
    (hgrows : ∀ cs, k.GrowsInto cs ↔ cs.head? = some second)
    (hone : ∀ r : List Char, r.head? ≠ some second → Lexeme.first c r = .ok (.token one, [c], r))
    (htwo : ∀ r, Lexeme.first c (second :: r) = .ok (.token two, [c, second], r))
    (cs : List Char) : CutFirst k c [] cs := by
  by_cases hcs : cs.head? = some second
  · obtain ⟨more, rfl⟩ : ∃ more, cs = second :: more := by
      cases cs with
      | nil => cases hcs
      | cons d more => exact ⟨more, by rw [Option.some.inj hcs]⟩
    refine ⟨two, [c, second], more, htwo more, ?_, fun h => absurd h (by simp)⟩
    exact ⟨fun h => absurd h (by simp), fun h => absurd ((hgrows _).2 hcs) h⟩
  · exact ⟨one, [c], cs, hone cs hcs, ⟨fun _ => mt (hgrows cs).1 hcs, fun _ => rfl⟩,
      fun _ => hkind.symm⟩

theorem cutFirst_fixed {cs : List Char} (hgrows : ¬ k.GrowsInto cs)
    (h : Lexeme.first c (r ++ cs) = .ok (.token k.kind, c :: r, cs)) : CutFirst k c r cs :=
  ⟨k.kind, c :: r, cs, h, ⟨fun _ => hgrows, fun _ => rfl⟩, fun _ => rfl⟩

theorem Shape.Spelled.cutFirst (h : k.Spelled) (hk : k.text.toList = c :: r) (cs : List Char) :
    CutFirst k c r cs := by
  obtain ⟨d, r', chars, more, hfirst, htext⟩ := h
  have hchars : chars = c :: r := by rw [← hk, htext, String.toList_ofList]
  subst hchars
  -- Only words, numbers, a colon and a minus look at what is behind them.
  rcases Lexeme.first_token_cases hfirst with ⟨hkind, hc, hword⟩ | ⟨hkind, hc, hnumber⟩ |
    ⟨hkind, hquote, body, hbody, hstring⟩ | hmark | ⟨hmark, hone⟩
  · obtain ⟨rfl, hr⟩ := List.cons.inj hword
    exact cutFirst_word hkind hc (hr ▸ List.all_eq_true.1 List.all_takeWhile) cs
  · obtain ⟨rfl, hr⟩ := List.cons.inj hnumber
    exact cutFirst_number hkind hk hc hr cs
  · obtain ⟨rfl, rfl⟩ := List.cons.inj hstring
    subst hquote
    refine cutFirst_fixed (by simp [Shape.GrowsInto, hkind]) ?_
    rw [hkind]
    exact first_string (closedString_of_splitString hbody cs)
  · simp only [List.mem_cons, Prod.mk.injEq, List.not_mem_nil, or_false] at hmark
    rcases hmark with ⟨hkind, hpair⟩ | ⟨hkind, hpair⟩ | ⟨hkind, hpair⟩ | ⟨hkind, hpair⟩ <;>
      obtain ⟨rfl, rfl⟩ := List.cons.inj hpair
    · exact cutFirst_fixed (by simp [Shape.GrowsInto, hkind]) (by rw [hkind]; rfl)
    · exact cutFirst_pair hkind (fun cs => by simp only [Shape.GrowsInto, hkind])
        (fun r hr => first_colon hr) (fun r => rfl) cs
    · exact cutFirst_fixed (by simp [Shape.GrowsInto, hkind]) (by rw [hkind]; rfl)
    · exact cutFirst_pair hkind (fun cs => by simp only [Shape.GrowsInto, hkind])
        (fun r hr => first_minus hr) (fun r => rfl) cs
  · obtain ⟨rfl, rfl⟩ := List.cons.inj hone
    refine cutFirst_fixed ?_ (first_punctuation hmark cs)
    have hfixed : ∀ m ∈ punctuation, m.2 ≠ .identifier ∧ m.2 ≠ .number ∧ m.2 ≠ .colon ∧
        m.2 ≠ .minus := by decide
    obtain ⟨hword, hnumber, hcolon, hminus⟩ := hfixed _ hmark
    unfold Shape.GrowsInto
    split
    · exact absurd ‹_› hword
    · exact absurd ‹_› hnumber
    · exact absurd ‹_› hcolon
    · exact absurd ‹_› hminus
    · exact id

end First

section Token

variable {k : Shape} {cs : List Char}

theorem Shape.Spelled.cuts (hk : k.Spelled) (hfixed : ¬ k.GrowsInto cs) :
    Cuts (k.text.toList ++ cs) [k] cs := by
  obtain ⟨c, r, hchars⟩ := List.exists_cons_of_ne_nil hk.toList_ne_nil
  obtain ⟨kind, chars, more, hfirst, hgrows, hkind⟩ := hk.cutFirst hchars cs
  have hsame := hgrows.2 hfixed
  have hcut := Lexeme.first_append hfirst
  rw [hsame, List.cons_append, List.cons_inj_right] at hcut
  have hshape : k = ⟨kind, String.ofList chars⟩ := by
    rw [hkind hsame, hsame, ← hchars, String.ofList_toList]
  rw [hchars, List.cons_append, hshape]
  exact .token hfirst (List.append_cancel_left hcut ▸ .done)

theorem Shape.Spelled.not_growsInto_of_cuts {ks : List Shape} (hk : k.Spelled)
    (h : Cuts (k.text.toList ++ cs) (k :: ks) []) : ¬ k.GrowsInto cs := by
  obtain ⟨c, r, hchars⟩ := List.exists_cons_of_ne_nil hk.toList_ne_nil
  obtain ⟨kind, chars, more, hfirst, hgrows, -⟩ := hk.cutFirst hchars cs
  rw [hchars, List.cons_append] at h
  obtain ⟨back, hback, -⟩ := h.of_token hfirst
  obtain ⟨rfl, -⟩ := List.cons.inj hback
  exact hgrows.1 (by rw [← hchars, String.toList_ofList])

/-- A token in front of a text is found again if and only if it does not go on with the text. -/
theorem cuts_token_iff (hk : k.Spelled) {ks : List Shape} :
    Cuts (k.text.toList ++ cs) (k :: ks) [] ↔ ¬ k.GrowsInto cs ∧ Cuts cs ks [] := by
  constructor
  · intro h
    have hfixed := hk.not_growsInto_of_cuts h
    exact ⟨hfixed, (hk.cuts hfixed).append_iff.1 h⟩
  · rintro ⟨hfixed, hcuts⟩
    exact (hk.cuts hfixed).append hcuts

end Token

/-! ## Tokens and the tokens behind them -/

/-- The first token is a word or a number. -/
def BeginsWord (ks : List Shape) : Prop := nextKind ks = .identifier ∨ nextKind ks = .number

/-- The token goes on with the tokens that are written behind it, and is another one with them. -/
def Shape.MergesWith (k : Shape) (ks : List Shape) : Prop :=
  match k.kind with
  | .identifier => BeginsWord ks
  | .number => BeginsWord ks ∨ '.' ∉ k.text.toList ∧ nextKind ks = .dot ∧ BeginsWord ks.tail
  | .colon => nextKind ks = .colon ∨ nextKind ks = .doubleColon
  | .minus => nextKind ks = .greaterThan
  | _ => False

/-- No token goes on with those behind it. -/
def Mergeless : List Shape → Prop
  | [] => True
  | k :: ks => ¬ k.MergesWith ks ∧ Mergeless ks

/-- The characters of tokens that are written one behind the other. -/
def joinedChars (ks : List Shape) : List Char := ks.flatMap fun k => k.text.toList

theorem joinedChars_cons (k : Shape) (ks : List Shape) :
    joinedChars (k :: ks) = k.text.toList ++ joinedChars ks := List.flatMap_cons

/-- What the first character of a token says of its kind. -/
theorem Shape.Spelled.head {k : Shape} (h : k.Spelled) :
    ∃ c cs, k.text.toList = c :: cs ∧
      (isWordPart c = true ↔ k.kind = .identifier ∨ k.kind = .number) ∧
      (c = ':' ↔ k.kind = .colon ∨ k.kind = .doubleColon) ∧ (c = '>' ↔ k.kind = .greaterThan) ∧
      (c = '.' ↔ k.kind = .dot) := by
  obtain ⟨c, r, chars, more, hfirst, htext⟩ := h
  rw [htext, String.toList_ofList]
  have hword : isWordPart c = true → c ≠ ':' ∧ c ≠ '>' ∧ c ≠ '.' := fun hc =>
    ⟨ne_of_isWordPart hc rfl, ne_of_isWordPart hc rfl, ne_of_isWordPart hc rfl⟩
  rcases Lexeme.first_token_cases hfirst with ⟨hkind, hc, rfl⟩ | ⟨hkind, hc, rfl⟩ |
    ⟨hkind, rfl, body, -, rfl⟩ | hmark | ⟨hmark, rfl⟩
  · have hpart := isWordPart_of_isWordStart hc
    exact ⟨c, _, rfl, by simp [hkind, hpart], by simp [hkind, hword hpart],
      by simp [hkind, hword hpart], by simp [hkind, hword hpart]⟩
  · have hpart := isWordPart_of_isDigit hc
    exact ⟨c, _, rfl, by simp [hkind, hpart], by simp [hkind, hword hpart],
      by simp [hkind, hword hpart], by simp [hkind, hword hpart]⟩
  · rw [hkind]
    exact ⟨'"', body, rfl, by decide, by decide, by decide, by decide⟩
  · simp only [List.mem_cons, Prod.mk.injEq, List.not_mem_nil, or_false] at hmark
    rcases hmark with ⟨hkind, rfl⟩ | ⟨hkind, rfl⟩ | ⟨hkind, rfl⟩ | ⟨hkind, rfl⟩ <;> rw [hkind] <;>
      exact ⟨_, _, rfl, by decide, by decide, by decide, by decide⟩
  · have hall : ∀ m ∈ punctuation,
        (isWordPart m.1 = true ↔ m.2 = .identifier ∨ m.2 = .number) ∧
        (m.1 = ':' ↔ m.2 = .colon ∨ m.2 = .doubleColon) ∧ (m.1 = '>' ↔ m.2 = .greaterThan) ∧
        (m.1 = '.' ↔ m.2 = .dot) := by decide
    exact ⟨c, [], rfl, hall _ hmark⟩

section Join

variable {k : Shape} {js : List Shape} {rest : List Char}

/-- Written tokens go on with a word in front of them if the first is a word or a number. -/
theorem apart_joinedChars_iff (hjs : ∀ j ∈ js, j.Spelled) (hrest : Apart rest) :
    Apart (joinedChars js ++ rest) ↔ ¬ BeginsWord js := by
  cases js with
  | nil => exact ⟨fun _ h => h.elim TokenKind.noConfusion TokenKind.noConfusion, fun _ => hrest⟩
  | cons j js =>
    obtain ⟨c, cs, hchars, hword, -⟩ := (hjs j List.mem_cons_self).head
    rw [joinedChars_cons, hchars, List.cons_append, List.cons_append, apart_cons,
      ← Bool.not_eq_true, hword]
    exact Iff.rfl

theorem beginsFraction_joinedChars_iff {j : Shape} (hjs : ∀ i ∈ j :: js, i.Spelled)
    (hrest : Apart rest) :
    BeginsFraction (joinedChars (j :: js) ++ rest) ↔ j.kind = .dot ∧ BeginsWord js := by
  obtain ⟨hj, hjs⟩ := List.forall_mem_cons.1 hjs
  have hword := (apart_joinedChars_iff hjs hrest).not_left
  have hpoint : j.kind = .dot →
      joinedChars (j :: js) ++ rest = '.' :: (joinedChars js ++ rest) := by
    intro hdot
    rw [joinedChars_cons, hj.text_of_mark (c := '.') (by rw [hdot]; decide), String.toList_ofList]
    rfl
  constructor
  · rintro ⟨more, hmore, hgoes⟩
    obtain ⟨c, cs, hchars, -, -, -, hpointKind⟩ := hj.head
    have hdot : j.kind = .dot := by
      rw [joinedChars_cons, hchars, List.cons_append, List.cons_append] at hmore
      exact hpointKind.1 (List.cons.inj hmore).1
    rw [hpoint hdot] at hmore
    rw [← (List.cons.inj hmore).2] at hgoes
    exact ⟨hdot, hword.1 hgoes⟩
  · rintro ⟨hdot, hbegins⟩
    exact ⟨joinedChars js ++ rest, hpoint hdot, hword.2 hbegins⟩

/-- Within a run of tokens, what a token goes on with are the tokens behind it. -/
theorem growsInto_joinedChars_iff (hjs : ∀ j ∈ js, j.Spelled) (hrest : Apart rest) :
    k.GrowsInto (joinedChars js ++ rest) ↔ k.MergesWith js ∨ js = [] ∧ k.GrowsInto rest := by
  cases js with
  | nil =>
    have hnone : ¬ k.MergesWith [] := by
      unfold Shape.MergesWith BeginsWord
      split <;> simp [nextKind, Shape.endOfText]
    simp [joinedChars, hnone]
  | cons j js =>
    have hword := (apart_joinedChars_iff hjs hrest).not_left
    have hfraction := beginsFraction_joinedChars_iff hjs hrest
    obtain ⟨c, cs, hchars, -, hcolon, hangle, -⟩ := (hjs j List.mem_cons_self).head
    have hhead : (joinedChars (j :: js) ++ rest).head? = some c := by
      rw [joinedChars_cons, hchars]
      rfl
    unfold Shape.GrowsInto Shape.MergesWith
    split
    · simp [hword]
    · simp [hword, hfraction, nextKind]
    · simp [hhead, hcolon, nextKind]
    · simp [hhead, hangle, nextKind]
    · simp

/-- Tokens written without anything between them are found again if and only if no two neighbours
merge and the last does not go on with what comes next. -/
theorem cuts_join_iff (hjs : ∀ j ∈ js, j.Spelled) (hrest : Apart rest) {ks : List Shape} :
    Cuts (joinedChars js ++ rest) (js ++ ks) [] ↔
      Mergeless js ∧ (∀ j ∈ js.getLast?, ¬ j.GrowsInto rest) ∧ Cuts rest ks [] := by
  induction js with
  | nil => simp [joinedChars, Mergeless]
  | cons j js ih =>
    obtain ⟨hj, hjs⟩ := List.forall_mem_cons.1 hjs
    rw [joinedChars_cons, List.append_assoc, List.cons_append, cuts_token_iff hj, ih hjs,
      growsInto_joinedChars_iff hjs hrest, Mergeless]
    cases js with
    | nil => simp [Mergeless, and_assoc]
    | cons i js =>
      rw [List.getLast?_cons_cons]
      simp [and_assoc]

theorem cuts_join (hjs : ∀ j ∈ js, j.Spelled) (hrest : Apart rest) (hmergeless : Mergeless js)
    (hlast : ∀ j ∈ js.getLast?, ¬ j.GrowsInto rest) : Cuts (joinedChars js ++ rest) js rest := by
  induction js with
  | nil => exact .done
  | cons j js ih =>
    obtain ⟨hj, hjs⟩ := List.forall_mem_cons.1 hjs
    obtain ⟨hmerges, hmergeless⟩ := hmergeless
    have hfixed : ¬ j.GrowsInto (joinedChars js ++ rest) := by
      rw [growsInto_joinedChars_iff hjs hrest]
      rintro (h | ⟨rfl, h⟩)
      · exact hmerges h
      · exact hlast j rfl h
    have hmore : ∀ i ∈ js.getLast?, ¬ i.GrowsInto rest := by
      intro i hi
      refine hlast i ?_
      rw [List.getLast?_cons, Option.mem_def.1 hi]
      rfl
    rw [joinedChars_cons, List.append_assoc]
    exact (hj.cuts hfixed).append (ih hjs hmergeless hmore)

end Join

theorem Balanced.ne_eof {depth : Nat} {ks : List Shape} (h : Balanced depth ks) :
    ∀ k ∈ ks, k.kind ≠ .eof := by
  induction h with
  | nil => exact List.forall_mem_nil _
  | cons heof _ _ ih => exact List.forall_mem_cons.2 ⟨heof, ih⟩

theorem DefaultValue.spelled {ks : List Shape} {text : String} (h : DefaultValue ks text)
    (hks : ∀ k ∈ ks, k.kind ≠ .eof → k.Spelled) : ∀ k ∈ ks, k.Spelled := by
  obtain ⟨hbalanced, -⟩ := h
  exact fun k hk => hks k hk (hbalanced.ne_eof k hk)

theorem DefaultValue.toList_eq {ks : List Shape} {text : String} (h : DefaultValue ks text) :
    text.toList = joinedChars ks := by
  obtain ⟨-, -⟩ := h
  exact toList_join_text ks

/-! ## What a last token goes on with -/

section Last

variable {k : Shape} {cs : List Char}

theorem Shape.growsInto_iff_of_apart (hcs : Apart cs) (hpoint : cs.head? ≠ some '.') :
    k.GrowsInto cs ↔
      k.kind = .colon ∧ cs.head? = some ':' ∨ k.kind = .minus ∧ cs.head? = some '>' := by
  have hfraction : ¬ BeginsFraction cs := by
    rintro ⟨more, rfl, -⟩
    exact hpoint rfl
  unfold Shape.GrowsInto
  split <;> simp_all

theorem Shape.not_growsInto_nil (k : Shape) : ¬ k.GrowsInto [] := by
  rw [Shape.growsInto_iff_of_apart apart_nil (by decide)]
  simp

theorem Shape.not_growsInto_comma (k : Shape) (cs : List Char) : ¬ k.GrowsInto (',' :: cs) := by
  rw [Shape.growsInto_iff_of_apart (apart_cons.2 rfl) (by simp)]
  simp

theorem Shape.growsInto_bracket_iff : k.GrowsInto ('>' :: cs) ↔ k.kind = .minus := by
  rw [Shape.growsInto_iff_of_apart (apart_cons.2 rfl) (by simp)]
  simp

end Last

theorem getLast?_splitString {cs body more : List Char}
    (h : splitString cs = .ok (body, more)) : body.getLast? = some '"' := by
  fun_induction splitString cs generalizing body more with
  | case4 c r hc body' rest' hr ih =>
    cases h
    rw [List.getLast?_cons, List.getLast?_cons, ih hr]
    rfl
  | case6 r =>
    cases h
    rfl
  | case8 c r hlone hescape hquote hnewline body' rest' hr ih =>
    cases h
    rw [List.getLast?_cons, ih hr]
    rfl
  | _ => cases h

/-- The only token that ends in a minus is the minus. -/
theorem Shape.Spelled.getLast?_eq_minus_iff {k : Shape} (h : k.Spelled) :
    k.text.toList.getLast? = some '-' ↔ k.kind = .minus := by
  obtain ⟨c, r, chars, more, hfirst, htext⟩ := h
  rw [htext, String.toList_ofList]
  have hwords : ∀ (ds : List Char) {d : Char}, isWordPart d = true →
      (∀ e ∈ ds, isWordPart e = true ∨ e = '.') → (d :: ds).getLast? ≠ some '-' := by
    intro ds d hd hds hlast
    rcases List.mem_cons.1 (List.mem_of_getLast? hlast) with rfl | hmem
    · exact absurd hd (by decide)
    · exact absurd (hds _ hmem) (by decide)
  rcases Lexeme.first_token_cases hfirst with ⟨hkind, hc, rfl⟩ | ⟨hkind, hc, rfl⟩ |
    ⟨hkind, rfl, body, hbody, rfl⟩ | hmark | ⟨hmark, rfl⟩
  · have hne := hwords (r.takeWhile isWordPart) (isWordPart_of_isWordStart hc) fun e he =>
      .inl (List.all_eq_true.1 List.all_takeWhile e he)
    simp only [hne, hkind, reduceCtorEq]
  · have hne := hwords (splitNumber r).1 (isWordPart_of_isDigit hc) fun e he => mem_splitNumber he
    simp only [hne, hkind, reduceCtorEq]
  · rw [List.getLast?_cons, getLast?_splitString hbody, hkind]
    decide
  · simp only [List.mem_cons, Prod.mk.injEq, List.not_mem_nil, or_false] at hmark
    rcases hmark with ⟨hkind, rfl⟩ | ⟨hkind, rfl⟩ | ⟨hkind, rfl⟩ | ⟨hkind, rfl⟩ <;> rw [hkind] <;>
      decide
  · have hall : ∀ m ∈ punctuation, [m.1].getLast? = some '-' ↔ m.2 = .minus := by decide
    exact hall _ hmark

theorem getLast?_joinedChars {ks : List Shape} (hks : ∀ k ∈ ks, k.Spelled) :
    (joinedChars ks).getLast? = some '-' ↔ ∃ k ∈ ks.getLast?, k.kind = .minus := by
  rcases List.eq_nil_or_concat' ks with rfl | ⟨front, k, rfl⟩
  · simp [joinedChars]
  · have hk := hks k (by simp)
    have hchars : joinedChars (front ++ [k]) = joinedChars front ++ k.text.toList := by
      simp [joinedChars]
    rw [hchars, List.getLast?_append_of_ne_nil _ hk.toList_ne_nil, hk.getLast?_eq_minus_iff]
    simp

end KernelGen.Source
