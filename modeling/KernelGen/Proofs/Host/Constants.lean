import KernelGen.Host.TypeStep
import KernelGen.Proofs.Source.Gluing
set_option autoImplicit false

/-!
# Host: constant template arguments written without trivia

The text of a constant template argument is that of its tokens, one behind the other, so it may
be cut into other tokens than those it came from.  Only parentheses nest in it.  Outside of them
it holds no comma, no closing parenthesis and no closing angle bracket; but an arrow, whose last
character is one, may stand anywhere.

What is found in the text is the same constant again, with two exceptions.  Two colons that came
together at its front begin a qualified name.  And a minus in front of the bracket that closes
the arguments makes an arrow out of this bracket.
-/

namespace KernelGen.Host

open Source

/-! ## Runs of tokens -/

/-- A constant stops at a comma, a closing angle bracket or a closing parenthesis. -/
def EndsConstant (kind : TokenKind) : Prop :=
  kind = .comma ∨ kind = .greaterThan ∨ kind = .closeParen

instance (kind : TokenKind) : Decidable (EndsConstant kind) :=
  inferInstanceAs (Decidable (_ ∨ _))

/-- The number of open parentheses behind a token. -/
def parensBehind (depth : Nat) (kind : TokenKind) : Nat :=
  if kind = .openParen then depth + 1 else if kind = .closeParen then depth - 1 else depth

/-- Tokens that close the parentheses they open and `depth` more, with nothing outside of
parentheses that ends a constant. -/
inductive Enclosed : Nat → List Shape → Prop where
  | nil : Enclosed 0 []
  | cons {depth : Nat} {k : Shape} {ks : List Shape} : k.kind ≠ .eof →
      (depth = 0 → ¬ EndsConstant k.kind) → Enclosed (parensBehind depth k.kind) ks →
      Enclosed depth (k :: ks)

/-- The text of a constant, from its tokens. -/
inductive Constant : List Shape → String → Prop where
  | mk {ks : List Shape} : Enclosed 0 ks → ks ≠ [] →
      Constant ks (String.join (ks.map Shape.text))

theorem constantRun_sound {depth : Nat} {ts run rest : List Token}
    (h : constantRun depth ts = .ok (run, rest)) : Enclosed depth (run.map Token.shape) := by
  induction ts generalizing depth run rest with
  | nil => cases h
  | cons t r ih =>
    simp only [constantRun] at h
    split at h
    · cases h
    rename_i heof
    split at h
    · rename_i hend
      cases h
      rw [hend.1]
      exact .nil
    rename_i hgoes
    obtain ⟨⟨run', rest'⟩, hr, he⟩ := bind_eq_ok.1 h
    cases he
    exact .cons heof (fun hdepth hends => hgoes ⟨hdepth, hends⟩) (ih hr)

theorem constantRun_complete {depth : Nat} {ts : List Token} {ks more : List Shape}
    (h : Enclosed depth ks) (hts : ts.map Token.shape = ks ++ more)
    (hends : EndsConstant (nextKind more)) :
    ∃ run rest, constantRun depth ts = .ok (run, rest) ∧ run.map Token.shape = ks ∧
      rest.map Token.shape = more := by
  induction h generalizing ts with
  | nil =>
    rw [List.nil_append] at hts
    cases ts with
    | nil =>
      rw [← hts] at hends
      exact absurd hends (by decide : ¬ EndsConstant .eof)
    | cons t r =>
      rw [← hts] at hends
      refine ⟨[], t :: r, ?_, rfl, hts⟩
      have heof : t.kind ≠ .eof := by
        intro heof
        exact absurd (heof ▸ hends : EndsConstant .eof) (by decide)
      rw [constantRun, if_neg heof]
      exact if_pos ⟨rfl, hends⟩
  | @cons depth k ks heof hgoes _ ih =>
    obtain ⟨t, r, rfl, ht, hr⟩ := List.map_eq_cons_iff.1 hts
    cases ht
    obtain ⟨run, rest, hrun, hmap, hrest⟩ := ih hr
    refine ⟨t :: run, rest, ?_, by rw [List.map_cons, hmap], hrest⟩
    simp only [constantRun]
    have hnot : ¬ (depth = 0 ∧ (t.kind = .comma ∨ t.kind = .greaterThan ∨ t.kind = .closeParen)) :=
      fun hend => hgoes hend.1 hend.2
    rw [if_neg (show t.kind ≠ .eof from heof), if_neg hnot]
    exact bind_eq_ok.2 ⟨_, hrun, rfl⟩

theorem constantArgument_sound {ts rest : List Token} {a : TemplateArg HostType}
    (h : constantArgument ts = .ok (a, rest)) :
    ∃ ks text, ts.map Token.shape = ks ++ rest.map Token.shape ∧ Constant ks text ∧
      a = .constant text := by
  obtain ⟨⟨run, rest'⟩, hrun, h⟩ := bind_eq_ok.1 h
  dsimp only at h
  split at h
  · cases h
  · rename_i hne
    cases h
    refine ⟨run.map Token.shape, _, ?_, .mk (constantRun_sound hrun) ?_, ?_⟩
    · rw [← constantRun_append hrun, List.map_append]
    · simpa using hne
    · rw [concatTexts_eq]

theorem constantArgument_complete {ts : List Token} {ks more : List Shape} {text : String}
    (hts : ts.map Token.shape = ks ++ more) (h : Constant ks text)
    (hends : EndsConstant (nextKind more)) :
    ∃ rest, constantArgument ts = .ok (.constant text, rest) ∧
      rest.map Token.shape = more := by
  obtain ⟨henclosed, hne⟩ := h
  obtain ⟨run, rest, hrun, rfl, hrest⟩ := constantRun_complete henclosed hts hends
  have hrunNe : run.isEmpty = false := by
    cases run with
    | nil => exact absurd rfl hne
    | cons => rfl
  refine ⟨rest, bind_eq_ok.2 ⟨_, hrun, ?_⟩, hrest⟩
  simp only [hrunNe, concatTexts_eq]
  rfl

/-! ## The characters of a constant -/

/-- The token neither ends a constant nor counts as a parenthesis. -/
def Loose (kind : TokenKind) : Prop :=
  kind ≠ .eof ∧ kind ≠ .openParen ∧ ¬ EndsConstant kind

instance (kind : TokenKind) : Decidable (Loose kind) := inferInstanceAs (Decidable (_ ∧ _))

/-- The marks that are loose tokens of one character, and no beginning of a longer token. -/
def looseMarks : List Char :=
  ['.', '<', '[', ']', '\x7b', '\x7d', ';', '&', '*', '=', '!', '?', '|']

/-- The character is part of a loose token, and not the end of an arrow. -/
def isLoose (c : Char) : Bool := isWordPart c || c == ':' || c == '-' || looseMarks.contains c

/-- The character may follow another one within a token that is no arrow and no string. -/
def isInert (c : Char) : Bool := isWordPart c || c == ':' || c == '.'

/-- The characters of tokens that close the parentheses they open and `depth` more, with nothing
outside of parentheses that ends a constant. -/
inductive Packed : Nat → List Char → Prop where
  | nil : Packed 0 []
  | loose {depth : Nat} {c : Char} {cs : List Char} : isLoose c = true → Packed depth cs →
      Packed depth (c :: cs)
  | arrow {depth : Nat} {cs : List Char} : Packed depth cs → Packed depth ('-' :: '>' :: cs)
  | inner {depth : Nat} {c : Char} {cs : List Char} : c = ',' ∨ c = '>' →
      Packed (depth + 1) cs → Packed (depth + 1) (c :: cs)
  | opening {depth : Nat} {cs : List Char} : Packed (depth + 1) cs → Packed depth ('(' :: cs)
  | closing {depth : Nat} {cs : List Char} : Packed depth cs → Packed (depth + 1) (')' :: cs)
  | string {depth : Nat} {body cs : List Char} : ClosedString body → Packed depth cs →
      Packed depth ('"' :: (body ++ cs))

theorem isLoose_of_isWordPart {c : Char} (h : isWordPart c = true) : isLoose c = true := by
  rw [isLoose, h]
  rfl

theorem isLoose_of_isInert {c : Char} (h : isInert c = true) : isLoose c = true := by
  simp only [isInert, Bool.or_eq_true, beq_iff_eq] at h
  rcases h with (h | rfl) | rfl
  · exact isLoose_of_isWordPart h
  · rfl
  · rfl

theorem isInert_of_mem_word {cs : List Char} :
    ∀ c ∈ cs.takeWhile isWordPart, isInert c = true := by
  intro c hc
  rw [isInert, List.all_eq_true.1 List.all_takeWhile c hc]
  rfl

theorem isInert_of_mem_splitNumber {cs : List Char} :
    ∀ c ∈ (splitNumber cs).1, isInert c = true := by
  intro c hc
  rcases mem_splitNumber hc with hword | rfl
  · rw [isInert, hword]
    rfl
  · rfl

/-- Marks of one character are those that end a constant, opening parentheses, or loose. -/
theorem punctuation_loose_cases : ∀ m ∈ punctuation,
    m = (',', .comma) ∨ m = ('>', .greaterThan) ∨ m = ('(', .openParen) ∨ m = (')', .closeParen) ∨
      isLoose m.1 = true ∧ Loose m.2 := by
  decide

theorem exists_looseMark :
    ∀ c ∈ looseMarks, ∃ kind, (c, kind) ∈ punctuation ∧ Loose kind :=
  exists_mark (by decide)

namespace Packed

theorem looses {depth : Nat} {cs more : List Char} (hcs : ∀ c ∈ cs, isInert c = true)
    (h : Packed depth more) : Packed depth (cs ++ more) := by
  induction cs with
  | nil => exact h
  | cons c cs ih =>
    exact .loose (isLoose_of_isInert (hcs c List.mem_cons_self))
      (ih fun d hd => hcs d (List.mem_cons_of_mem c hd))

theorem tail {depth : Nat} {c : Char} {cs : List Char} (hc : isInert c = true)
    (h : Packed depth (c :: cs)) : Packed depth cs := by
  cases h with
  | loose _ h => exact h
  | arrow => exact absurd hc (by decide)
  | inner hinner _ => rcases hinner with rfl | rfl <;> exact absurd hc (by decide)
  | opening => exact absurd hc (by decide)
  | closing => exact absurd hc (by decide)
  | string => exact absurd hc (by decide)

/-- Inert characters at the front can be dropped. -/
theorem behind {depth : Nat} {cs more : List Char} (hcs : ∀ c ∈ cs, isInert c = true)
    (h : Packed depth (cs ++ more)) : Packed depth more := by
  induction cs with
  | nil => exact h
  | cons c cs ih =>
    exact ih (fun d hd => hcs d (List.mem_cons_of_mem c hd)) (h.tail (hcs c List.mem_cons_self))

/-- A closing angle bracket can be dropped. -/
theorem behindBracket {depth : Nat} {cs : List Char} (h : Packed depth ('>' :: cs)) :
    Packed depth cs := by
  cases h with
  | loose hc _ => exact absurd hc (by decide)
  | inner _ h => exact h

end Packed

/-! ## From tokens to characters -/

theorem parensBehind_of_loose {kind : TokenKind} (h : Loose kind) (depth : Nat) :
    parensBehind depth kind = depth := by
  have hclose : kind ≠ .closeParen := fun heq => h.2.2 (.inr (.inr heq))
  rw [parensBehind, if_neg h.2.1, if_neg hclose]

theorem Enclosed.cons_loose {depth : Nat} {k : Shape} {ks : List Shape} (hk : Loose k.kind)
    (h : Enclosed depth ks) : Enclosed depth (k :: ks) := by
  refine .cons hk.1 (fun _ => hk.2.2) ?_
  rw [parensBehind_of_loose hk]
  exact h

/-- The characters of a run of tokens, one token behind the other. -/
theorem packed_of_enclosed {depth : Nat} {ks : List Shape} (h : Enclosed depth ks)
    (hks : ∀ k ∈ ks, k.kind ≠ .eof → k.Spelled) :
    Packed depth (ks.flatMap fun k => k.text.toList) := by
  induction h with
  | nil => exact .nil
  | @cons depth k ks heof hgoes _ ih =>
    have hmore := ih fun j hj => hks j (List.mem_cons_of_mem k hj)
    rw [List.flatMap_cons]
    obtain ⟨c, r, chars, more, hfirst, htext⟩ := hks k List.mem_cons_self heof
    rw [htext, String.toList_ofList]
    rcases Lexeme.first_token_cases hfirst with ⟨hkind, hc, rfl⟩ | ⟨hkind, hc, rfl⟩ |
      ⟨hkind, rfl, body, hbody, rfl⟩ | hmark | ⟨hmark, rfl⟩
    · rw [hkind, parensBehind_of_loose (by decide)] at hmore
      exact .loose (isLoose_of_isWordPart (isWordPart_of_isWordStart hc))
        (.looses isInert_of_mem_word hmore)
    · rw [hkind, parensBehind_of_loose (by decide)] at hmore
      exact .loose (isLoose_of_isWordPart (isWordPart_of_isDigit hc))
        (.looses isInert_of_mem_splitNumber hmore)
    · rw [hkind, parensBehind_of_loose (by decide)] at hmore
      exact .string (closedString_of_splitString hbody) hmore
    · simp only [List.mem_cons, Prod.mk.injEq, List.not_mem_nil, or_false] at hmark
      rcases hmark with ⟨hkind, rfl⟩ | ⟨hkind, rfl⟩ | ⟨hkind, rfl⟩ | ⟨hkind, rfl⟩ <;>
        rw [hkind, parensBehind_of_loose (by decide)] at hmore
      · exact .loose rfl (.loose rfl hmore)
      · exact .loose rfl hmore
      · exact .arrow hmore
      · exact .loose rfl hmore
    · rcases punctuation_loose_cases _ hmark with hc | hc | hc | hc | ⟨hloose, hkind⟩
      · obtain ⟨rfl, hkind⟩ := Prod.mk.inj hc
        rw [hkind] at hmore hgoes
        cases depth with
        | zero => exact absurd (.inl rfl) (hgoes rfl)
        | succ depth => exact .inner (.inl rfl) hmore
      · obtain ⟨rfl, hkind⟩ := Prod.mk.inj hc
        rw [hkind] at hmore hgoes
        cases depth with
        | zero => exact absurd (.inr (.inl rfl)) (hgoes rfl)
        | succ depth => exact .inner (.inr rfl) hmore
      · obtain ⟨rfl, hkind⟩ := Prod.mk.inj hc
        rw [hkind] at hmore
        exact .opening hmore
      · obtain ⟨rfl, hkind⟩ := Prod.mk.inj hc
        rw [hkind] at hmore hgoes
        cases depth with
        | zero => exact absurd (.inr (.inr rfl)) (hgoes rfl)
        | succ depth => exact .closing hmore
      · rw [parensBehind_of_loose hkind] at hmore
        exact .loose hloose hmore

/-! ## From characters to tokens -/

/-- What follows a constant is a comma, or the bracket that closes the arguments if it cannot
become an arrow. -/
def EndsPacked (cs rest : List Char) : Prop :=
  ∃ c more, rest = c :: more ∧ (c = ',' ∨ c = '>' ∧ cs.getLast? ≠ some '-')

theorem EndsPacked.behind (front : List Char) {back rest : List Char}
    (h : EndsPacked (front ++ back) rest) : EndsPacked back rest := by
  obtain ⟨c, more, rfl, rfl | ⟨rfl, hlast⟩⟩ := h
  · exact ⟨',', more, rfl, .inl rfl⟩
  · refine ⟨'>', more, rfl, .inr ⟨rfl, fun heq => hlast ?_⟩⟩
    rw [List.getLast?_append, heq]
    rfl

theorem EndsPacked.apart {cs rest : List Char} (h : EndsPacked cs rest) : Apart rest := by
  obtain ⟨c, more, rfl, hc⟩ := h
  intro d hd
  cases hd
  rcases hc with rfl | ⟨rfl, -⟩ <;> rfl

theorem EndsPacked.head?_ne {cs rest : List Char} (h : EndsPacked cs rest) {c : Char}
    (hc : c ≠ ',' ∧ c ≠ '>') : rest.head? ≠ some c := by
  obtain ⟨d, more, rfl, hd⟩ := h
  intro heq
  cases heq
  rcases hd with rfl | ⟨rfl, -⟩
  · exact hc.1 rfl
  · exact hc.2 rfl

/-- Behind a minus there is no closing angle bracket. -/
theorem EndsPacked.head?_ne_bracket {cs rest : List Char} (h : EndsPacked cs rest)
    (hcs : cs.getLast? = some '-') : rest.head? ≠ some '>' := by
  obtain ⟨c, more, rfl, rfl | ⟨-, hlast⟩⟩ := h
  · exact fun heq => absurd (Option.some.inj heq) (by decide)
  · exact absurd hcs hlast

/-- A loose character starts a loose token. -/
theorem first_loose {depth : Nat} {c : Char} {cs rest : List Char} (hc : isLoose c = true)
    (h : Packed depth cs) (hrest : EndsPacked (c :: cs) rest) :
    ∃ kind front back, Lexeme.first c (cs ++ rest) = .ok (.token kind, c :: front, back ++ rest) ∧
      cs = front ++ back ∧ Packed depth back ∧ Loose kind := by
  simp only [isLoose, Bool.or_eq_true, beq_iff_eq, List.contains_iff_mem] at hc
  obtain hmark | hc := hc.symm
  · obtain ⟨kind, hmem, hloose⟩ := exists_looseMark c hmark
    exact ⟨kind, [], cs, first_punctuation hmem _, rfl, h, hloose⟩
  have hbracket : c = '-' → cs = [] → rest.head? ≠ some '>' := by
    rintro rfl rfl
    exact hrest.head?_ne_bracket rfl
  obtain ⟨kind, front, back, hfirst, rfl, hkind, hfront⟩ := first_fused cs hrest.apart
    (hrest.head?_ne (by decide)) (hrest.head?_ne (by decide)) hbracket (or_assoc.1 hc)
  have hloose : ∀ kind ∈ [TokenKind.identifier, .number, .colon, .doubleColon, .minus, .arrow],
      Loose kind := by decide
  refine ⟨kind, front, back, hfirst, rfl, ?_, hloose kind hkind⟩
  rcases hfront with rfl | hfront
  · exact h.behindBracket
  · refine h.behind fun d hd => ?_
    rcases hfront d hd with hword | rfl | rfl
    · rw [isInert, hword]
      rfl
    · rfl
    · rfl

/-- The characters of a constant are cut into tokens that are enclosed in the same way, even if
these are not the tokens that the characters came from. -/
theorem cuts_of_packed {depth : Nat} {cs rest : List Char} (h : Packed depth cs)
    (hrest : EndsPacked cs rest) :
    ∃ ks, Cuts (cs ++ rest) ks rest ∧ Enclosed depth ks ∧
      ks.flatMap (fun k => k.text.toList) = cs := by
  induction hn : cs.length using Nat.strongRecOn generalizing depth cs with
  | ind n ih =>
    subst hn
    cases h with
    | nil => exact ⟨[], .done, .nil, rfl⟩
    | @loose depth c cs hc hmore =>
      obtain ⟨kind, front, back, hfirst, rfl, hback, hloose⟩ := first_loose hc hmore hrest
      obtain ⟨ks, hcuts, henclosed, htext⟩ := ih back.length
        (by simp only [List.length_cons, List.length_append]; omega)
        hback (EndsPacked.behind (c :: front) hrest) rfl
      refine ⟨⟨kind, String.ofList (c :: front)⟩ :: ks, .token hfirst hcuts,
        .cons_loose hloose henclosed, ?_⟩
      rw [List.flatMap_cons, htext, String.toList_ofList, List.cons_append]
    | @arrow depth cs hmore =>
      obtain ⟨ks, hcuts, henclosed, htext⟩ := ih cs.length (by simp) hmore
        (EndsPacked.behind ['-', '>'] hrest) rfl
      exact ⟨⟨.arrow, "->"⟩ :: ks, .token rfl hcuts,
        .cons_loose (by decide : Loose .arrow) henclosed, by rw [List.flatMap_cons, htext]; rfl⟩
    | @inner depth c cs hc hmore =>
      obtain ⟨ks, hcuts, henclosed, htext⟩ := ih cs.length (by simp) hmore
        (EndsPacked.behind [c] hrest) rfl
      rcases hc with rfl | rfl
      · refine ⟨⟨.comma, ","⟩ :: ks, .token rfl hcuts, ?_, by rw [List.flatMap_cons, htext]; rfl⟩
        exact .cons (by decide) (fun h => absurd h (Nat.succ_ne_zero depth)) henclosed
      · refine ⟨⟨.greaterThan, ">"⟩ :: ks, .token rfl hcuts, ?_,
          by rw [List.flatMap_cons, htext]; rfl⟩
        exact .cons (by decide) (fun h => absurd h (Nat.succ_ne_zero depth)) henclosed
    | @opening depth cs hmore =>
      obtain ⟨ks, hcuts, henclosed, htext⟩ := ih cs.length (by simp) hmore
        (EndsPacked.behind ['('] hrest) rfl
      refine ⟨⟨.openParen, "("⟩ :: ks, .token rfl hcuts, ?_, by rw [List.flatMap_cons, htext]; rfl⟩
      exact .cons (by decide) (fun _ => by decide) henclosed
    | @closing depth cs hmore =>
      obtain ⟨ks, hcuts, henclosed, htext⟩ := ih cs.length (by simp) hmore
        (EndsPacked.behind [')'] hrest) rfl
      refine ⟨⟨.closeParen, ")"⟩ :: ks, .token rfl hcuts, ?_,
        by rw [List.flatMap_cons, htext]; rfl⟩
      exact .cons (by decide) (fun h => absurd h (Nat.succ_ne_zero depth)) henclosed
    | @string depth body cs hclosed hmore =>
      obtain ⟨ks, hcuts, henclosed, htext⟩ := ih cs.length
        (by simp only [List.length_cons, List.length_append]; omega) hmore
        (EndsPacked.behind ('"' :: body) hrest) rfl
      refine ⟨⟨.string, String.ofList ('"' :: body)⟩ :: ks, ?_,
        .cons_loose (by decide : Loose .string) henclosed, ?_⟩
      · rw [List.cons_append, List.append_assoc]
        exact .token (first_string (hclosed (cs ++ rest))) hcuts
      · rw [List.flatMap_cons, htext, String.toList_ofList, List.cons_append]

/-- The text of a constant is that of its first token and more. -/
theorem Constant.cons {ks : List Shape} {text : String} (h : Constant ks text) :
    ∃ k js, ks = k :: js ∧ k.kind ≠ .eof ∧
      text.toList = k.text.toList ++ js.flatMap fun j => j.text.toList := by
  obtain ⟨henclosed, hne⟩ := h
  cases henclosed with
  | nil => exact absurd rfl hne
  | @cons _ k js heof _ _ =>
    refine ⟨k, js, rfl, heof, ?_⟩
    rw [toList_join_text, List.flatMap_cons]

/-- The text of a constant is read as a constant with that text. -/
theorem Constant.cuts {ks : List Shape} {text : String} (h : Constant ks text)
    (hks : ∀ k ∈ ks, k.kind ≠ .eof → k.Spelled) {rest : List Char}
    (hrest : EndsPacked text.toList rest) :
    ∃ ks', Cuts (text.toList ++ rest) ks' rest ∧ Constant ks' text := by
  obtain ⟨k, js, hcons, heof, htext⟩ := h.cons
  obtain ⟨henclosed, -⟩ := h
  rw [toList_join_text] at hrest
  obtain ⟨ks', hcuts, henclosed', hsame⟩ := cuts_of_packed (packed_of_enclosed henclosed hks) hrest
  rw [← toList_join_text, ← toList_join_text, String.toList_inj] at hsame
  refine ⟨ks', by rw [toList_join_text]; exact hcuts, ?_⟩
  rw [← hsame]
  refine .mk henclosed' ?_
  rintro rfl
  have hfront := (hks k (hcons ▸ List.mem_cons_self) heof).toList_ne_nil
  rw [← hsame] at htext
  exact hfront (List.append_eq_nil_iff.1 htext.symm).1

/-! ## The first token of a constant -/

/-- A constant, and not a type, is read in front of tokens that start like this. -/
def StartsConstant (ks : List Shape) : Prop :=
  nextKind ks ≠ .identifier ∧ nextKind ks ≠ .doubleColon

/-- A token whose first character starts a word is a word. -/
theorem kind_of_isWordStart {k : Shape} (h : k.Spelled) {c : Char} {cs : List Char}
    (hk : k.text.toList = c :: cs) (hc : isWordStart c = true) : k.kind = .identifier := by
  obtain ⟨d, r, chars, more, hfirst, htext⟩ := h
  rw [htext, String.toList_ofList] at hk
  subst hk
  cases Lexeme.first_append hfirst
  rw [Lexeme.first_word hc] at hfirst
  injection hfirst with hfirst
  exact (LexemeKind.token.inj (Prod.mk.inj hfirst).1).symm

/-- Whatever tokens the text of a constant is cut into, they start a constant, unless two colons
came together at the front. -/
theorem Constant.startsConstant {ks ks' : List Shape} {text : String} (h : Constant ks text)
    (h' : Constant ks' text) (hks : ∀ k ∈ ks, k.kind ≠ .eof → k.Spelled)
    (hks' : ∀ k ∈ ks', k.kind ≠ .eof → k.Spelled) (hstarts : StartsConstant ks)
    (hcolons : ¬ [':', ':'] <+: text.toList) : StartsConstant ks' := by
  obtain ⟨k, js, rfl, heof, htext⟩ := h.cons
  obtain ⟨k', js', rfl, heof', htext'⟩ := h'.cons
  have hk := hks k List.mem_cons_self heof
  have hk' := hks' k' List.mem_cons_self heof'
  refine ⟨fun hword => hstarts.1 ?_, fun hglobal => hcolons ?_⟩
  · obtain ⟨kind, x⟩ := k'
    cases (hword : kind = .identifier)
    obtain ⟨c, cs, hc, hstart, -⟩ := hk'.word
    rw [htext, hc, List.cons_append] at htext'
    cases hchars : k.text.toList with
    | nil => exact absurd hchars hk.toList_ne_nil
    | cons d ds =>
      rw [hchars, List.cons_append] at htext'
      rw [← (List.cons.inj htext').1] at hstart
      exact kind_of_isWordStart hk hchars hstart
  · rw [htext', hk'.text_of_doubleColon hglobal]
    exact List.prefix_append _ _

end KernelGen.Host
