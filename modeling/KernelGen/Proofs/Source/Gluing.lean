import KernelGen.Proofs.Source.Grammar
import KernelGen.Proofs.Source.Spelling
set_option autoImplicit false

/-!
# Source: default values written without trivia

The text of a default value is that of its tokens, one behind the other, so tokens that stood
apart may grow together: `1 . 5` becomes one number, and `- >` becomes an arrow.  What grows
together are words, points and other marks that neither separate nor enclose.  Commas, brackets
and strings stay what they are, so the run of tokens that is found in the text nests its
brackets as before, and has the same text.
-/

namespace KernelGen.Source

/-! ## The characters of a default value -/

/-- The marks that neither separate nor enclose, and that are no beginning of a longer token. -/
def plainMarks : List Char := ['.', '<', '>', ';', '&', '*', '=', '!', '?', '|']

/-- The character may grow together with others; it neither separates nor encloses. -/
def isPlain (c : Char) : Bool := isWordPart c || c == ':' || c == '-' || plainMarks.contains c

/-- The token neither separates nor encloses. -/
def Neutral (kind : TokenKind) : Prop :=
  kind ≠ .eof ∧ kind ≠ .comma ∧ opens kind = false ∧ closes kind = false

instance (kind : TokenKind) : Decidable (Neutral kind) :=
  inferInstanceAs (Decidable (_ ∧ _))

/-- The rest of a string behind its opening quote, closed by its last character. -/
def ClosedString (body : List Char) : Prop :=
  ∀ rest, splitString (body ++ rest) = .ok (body, rest)

/-- The characters of tokens that close the brackets they open and `depth` more. -/
inductive Glued : Nat → List Char → Prop where
  | nil : Glued 0 []
  | plain {depth : Nat} {c : Char} {cs : List Char} : isPlain c = true → Glued depth cs →
      Glued depth (c :: cs)
  | comma {depth : Nat} {cs : List Char} : Glued (depth + 1) cs → Glued (depth + 1) (',' :: cs)
  | opening {depth : Nat} {c : Char} {kind : TokenKind} {cs : List Char} :
      (c, kind) ∈ punctuation → opens kind = true → Glued (depth + 1) cs → Glued depth (c :: cs)
  | closing {depth : Nat} {c : Char} {kind : TokenKind} {cs : List Char} :
      (c, kind) ∈ punctuation → closes kind = true → Glued depth cs → Glued (depth + 1) (c :: cs)
  | string {depth : Nat} {body cs : List Char} : ClosedString body → Glued depth cs →
      Glued depth ('"' :: (body ++ cs))

theorem closedString_of_splitString {cs body more : List Char}
    (h : splitString cs = .ok (body, more)) : ClosedString body := by
  fun_induction splitString cs generalizing body more with
  | case4 c r hc body' rest' hr ih =>
    cases h
    intro rest
    rw [List.cons_append, List.cons_append, splitString, if_neg hc, ih hr]
  | case6 r =>
    cases h
    intro rest
    rfl
  | case8 c r hlone hescape hquote hnewline body' rest' hr ih =>
    cases h
    intro rest
    have hc : c ≠ '\\' := by
      intro heq
      cases r with
      | nil => exact hlone heq rfl
      | cons d r => exact hescape d r heq rfl
    rw [List.cons_append, splitString, if_neg hquote, if_neg hnewline, ih hr]
    · exact fun heq => absurd heq hc
    · exact fun d r heq => absurd heq hc
  | _ => cases h

theorem isPlain_of_isWordPart {c : Char} (h : isWordPart c = true) : isPlain c = true := by
  rw [isPlain, h]
  rfl

/-- Marks of one character are commas, brackets, or plain. -/
theorem punctuation_cases : ∀ m ∈ punctuation,
    m = (',', .comma) ∨ opens m.2 = true ∨ closes m.2 = true ∨
      isPlain m.1 = true ∧ Neutral m.2 := by
  decide

theorem not_isPlain_of_bracket {c : Char} {kind : TokenKind} (h : (c, kind) ∈ punctuation)
    (hkind : opens kind = true ∨ closes kind = true) : ¬ isPlain c = true := by
  have hall : ∀ m ∈ punctuation, opens m.2 = true ∨ closes m.2 = true → ¬ isPlain m.1 = true := by
    decide
  exact hall (c, kind) h hkind

/-- Marks that were looked up are tokens of one character, of kinds with the property. -/
theorem exists_mark {P : TokenKind → Prop} [DecidablePred P] {marks : List Char}
    (h : marks.all (fun c => punctuation.any fun m => m.1 == c && decide (P m.2)) = true) :
    ∀ c ∈ marks, ∃ kind, (c, kind) ∈ punctuation ∧ P kind := by
  intro c hc
  obtain ⟨⟨d, kind⟩, hmem, hm⟩ := List.any_eq_true.1 (List.all_eq_true.1 h c hc)
  obtain ⟨hd, hkind⟩ := Bool.and_eq_true_iff.1 hm
  cases eq_of_beq hd
  exact ⟨kind, hmem, of_decide_eq_true hkind⟩

theorem exists_plainMark :
    ∀ c ∈ plainMarks, ∃ kind, (c, kind) ∈ punctuation ∧ Neutral kind :=
  exists_mark (by decide)

theorem first_punctuation {m : Char × TokenKind} (h : m ∈ punctuation) (r : List Char) :
    Lexeme.first m.1 r = .ok (.token m.2, [m.1], r) := by
  simp only [punctuation, List.mem_cons, List.not_mem_nil, or_false] at h
  rcases h with rfl | rfl | rfl | rfl | rfl | rfl | rfl | rfl | rfl | rfl | rfl | rfl | rfl |
    rfl | rfl | rfl | rfl <;> rfl

theorem first_string {r body rest : List Char} (h : splitString r = .ok (body, rest)) :
    Lexeme.first '"' r = .ok (.token .string, '"' :: body, rest) := by
  unfold Lexeme.first
  rw [if_neg (by decide), if_neg (by decide), if_neg (by decide), if_neg (by decide),
    if_neg (by decide), if_pos rfl, h]

namespace Glued

theorem plains {depth : Nat} {cs more : List Char} (hcs : ∀ c ∈ cs, isPlain c = true)
    (h : Glued depth more) : Glued depth (cs ++ more) := by
  induction cs with
  | nil => exact h
  | cons c cs ih =>
    exact .plain (hcs c List.mem_cons_self) (ih fun d hd => hcs d (List.mem_cons_of_mem c hd))

theorem tail {depth : Nat} {c : Char} {cs : List Char} (hc : isPlain c = true)
    (h : Glued depth (c :: cs)) : Glued depth cs := by
  generalize hall : c :: cs = all at h
  cases h with
  | nil => cases hall
  | plain _ h =>
    cases hall
    exact h
  | comma =>
    cases hall
    exact absurd hc (by decide)
  | opening hmem hopens =>
    cases hall
    exact absurd hc (not_isPlain_of_bracket hmem (.inl hopens))
  | closing hmem hcloses =>
    cases hall
    exact absurd hc (not_isPlain_of_bracket hmem (.inr hcloses))
  | string =>
    cases hall
    exact absurd hc (by decide)

/-- Plain characters at the front can be dropped. -/
theorem behind {depth : Nat} {cs more : List Char} (hcs : ∀ c ∈ cs, isPlain c = true)
    (h : Glued depth (cs ++ more)) : Glued depth more := by
  induction cs with
  | nil => exact h
  | cons c cs ih =>
    exact ih (fun d hd => hcs d (List.mem_cons_of_mem c hd)) (h.tail (hcs c List.mem_cons_self))

end Glued

/-! ## From tokens to characters -/

theorem isPlain_of_mem_word {cs : List Char} : ∀ c ∈ cs.takeWhile isWordPart, isPlain c = true :=
  fun c hc => isPlain_of_isWordPart (List.all_eq_true.1 List.all_takeWhile c hc)

/-- Behind its first digit a number has word characters, and maybe a point. -/
theorem mem_splitNumber {c : Char} {cs : List Char} (h : c ∈ (splitNumber cs).1) :
    isWordPart c = true ∨ c = '.' := by
  have hword : ∀ {ds : List Char}, c ∈ ds.takeWhile isWordPart → isWordPart c = true := fun hc =>
    List.all_eq_true.1 List.all_takeWhile c hc
  unfold splitNumber at h
  split at h
  · rename_i d r hdrop
    split at h
    · rename_i hd
      rcases List.mem_append.1 h with h | h
      · exact .inl (hword h)
      rcases List.mem_cons.1 h with rfl | h
      · exact .inr rfl
      rcases List.mem_cons.1 h with rfl | h
      · exact .inl hd
      · exact .inl (hword h)
    · exact .inl (hword h)
  · exact .inl (hword h)

theorem isPlain_of_mem_splitNumber {cs : List Char} :
    ∀ c ∈ (splitNumber cs).1, isPlain c = true := by
  intro c hc
  rcases mem_splitNumber hc with hword | rfl
  · exact isPlain_of_isWordPart hword
  · rfl

/-- What the characters of a token are, as far as growing together is concerned. -/
theorem Shape.Spelled.cases {k : Shape} (h : k.Spelled) :
    Neutral k.kind ∧ (∀ c ∈ k.text.toList, isPlain c = true) ∨
    Neutral k.kind ∧ (∃ body, k.text.toList = '"' :: body ∧ ClosedString body) ∨
    ∃ c, (c, k.kind) ∈ punctuation ∧ k.text.toList = [c] := by
  obtain ⟨c, r, chars, more, hfirst, htext⟩ := h
  rw [htext, String.toList_ofList]
  rcases Lexeme.first_token_cases hfirst with ⟨hkind, hc, rfl⟩ | ⟨hkind, hc, rfl⟩ |
    ⟨hkind, rfl, body, hbody, rfl⟩ | hmark | ⟨hmark, rfl⟩
  · left
    rw [hkind]
    refine ⟨by decide, ?_⟩
    intro d hd
    rcases List.mem_cons.1 hd with rfl | hd
    · exact isPlain_of_isWordPart (isWordPart_of_isWordStart hc)
    · exact isPlain_of_mem_word d hd
  · left
    rw [hkind]
    refine ⟨by decide, ?_⟩
    intro d hd
    rcases List.mem_cons.1 hd with rfl | hd
    · exact isPlain_of_isWordPart (isWordPart_of_isDigit hc)
    · exact isPlain_of_mem_splitNumber d hd
  · right
    left
    rw [hkind]
    exact ⟨by decide, body, rfl, closedString_of_splitString hbody⟩
  · left
    simp only [List.mem_cons, Prod.mk.injEq, List.not_mem_nil, or_false] at hmark
    have htwo : ∀ c d : Char, isPlain c = true → isPlain d = true →
        ∀ x ∈ [c, d], isPlain x = true := fun c d hc hd =>
      List.forall_mem_cons.2 ⟨hc, List.forall_mem_singleton.2 hd⟩
    rcases hmark with ⟨hkind, rfl⟩ | ⟨hkind, rfl⟩ | ⟨hkind, rfl⟩ | ⟨hkind, rfl⟩ <;> rw [hkind]
    · exact ⟨by decide, htwo ':' ':' rfl rfl⟩
    · exact ⟨by decide, List.forall_mem_singleton.2 rfl⟩
    · exact ⟨by decide, htwo '-' '>' rfl rfl⟩
    · exact ⟨by decide, List.forall_mem_singleton.2 rfl⟩
  · right
    right
    exact ⟨c, hmark, rfl⟩

theorem depthBehind_of_neutral {kind : TokenKind} (h : Neutral kind) (depth : Nat) :
    depthBehind depth kind = depth := by
  rw [depthBehind, h.2.2.1, h.2.2.2]
  rfl

theorem opens_of_closes {kind : TokenKind} (h : closes kind = true) : ¬ opens kind = true := by
  cases kind <;> first | exact absurd h (by decide) | decide

theorem Balanced.cons_neutral {depth : Nat} {k : Shape} {ks : List Shape} (hk : Neutral k.kind)
    (h : Balanced depth ks) : Balanced depth (k :: ks) := by
  refine .cons hk.1 (fun _ => ⟨hk.2.1, hk.2.2.2⟩) ?_
  rw [depthBehind_of_neutral hk]
  exact h

/-- The characters of a balanced run of tokens, one token behind the other. -/
theorem glued_of_balanced {depth : Nat} {ks : List Shape} (h : Balanced depth ks)
    (hks : ∀ k ∈ ks, k.kind ≠ .eof → k.Spelled) :
    Glued depth (ks.flatMap fun k => k.text.toList) := by
  induction h with
  | nil => exact .nil
  | @cons depth k ks heof hgoes _ ih =>
    have hmore := ih fun j hj => hks j (List.mem_cons_of_mem k hj)
    rw [List.flatMap_cons]
    rcases (hks k List.mem_cons_self heof).cases with ⟨hneutral, hplain⟩ |
      ⟨hneutral, body, hbody, hclosed⟩ | ⟨c, hmem, hc⟩
    · rw [depthBehind_of_neutral hneutral] at hmore
      exact .plains hplain hmore
    · rw [depthBehind_of_neutral hneutral] at hmore
      rw [hbody]
      exact .string hclosed hmore
    rw [hc]
    rcases punctuation_cases _ hmem with hcomma | hopens | hcloses | ⟨hplain, hneutral⟩
    · obtain ⟨rfl, hkind⟩ := Prod.mk.inj hcomma
      rw [hkind] at hmore hgoes
      cases depth with
      | zero => exact absurd rfl (hgoes rfl).1
      | succ depth => exact .comma hmore
    · rw [depthBehind, if_pos hopens] at hmore
      exact .opening hmem hopens hmore
    · cases depth with
      | zero => exact absurd hcloses (Bool.eq_false_iff.1 (hgoes rfl).2)
      | succ depth =>
        rw [depthBehind, if_neg (opens_of_closes hcloses), if_pos hcloses] at hmore
        exact .closing hmem hcloses hmore
    · rw [depthBehind_of_neutral hneutral] at hmore
      exact .plain hplain hmore

/-! ## From characters to tokens -/

/-- A default value ends at a comma or at the parenthesis that closes the parameters. -/
def EndsGlued (rest : List Char) : Prop := ∃ c more, rest = c :: more ∧ (c = ',' ∨ c = ')')

theorem EndsGlued.apart {rest : List Char} (h : EndsGlued rest) : Apart rest := by
  obtain ⟨c, more, rfl, hc⟩ := h
  intro d hd
  cases hd
  rcases hc with rfl | rfl <;> rfl

theorem EndsGlued.head?_ne {rest : List Char} (h : EndsGlued rest) {c : Char}
    (hc : c ≠ ',' ∧ c ≠ ')') : rest.head? ≠ some c := by
  obtain ⟨d, more, rfl, hd⟩ := h
  intro heq
  cases heq
  rcases hd with hd | hd
  · exact hc.1 hd
  · exact hc.2 hd

theorem first_colon {r : List Char} (h : r.head? ≠ some ':') :
    Lexeme.first ':' r = .ok (.token .colon, [':'], r) := by
  unfold Lexeme.first
  rw [if_neg (by decide), if_neg (by decide), if_neg (by decide), if_neg (by decide),
    if_neg (by decide), if_neg (by decide), if_neg (by decide), if_pos rfl]
  split
  · exact absurd rfl h
  · rfl

theorem first_minus {r : List Char} (h : r.head? ≠ some '>') :
    Lexeme.first '-' r = .ok (.token .minus, ['-'], r) := by
  unfold Lexeme.first
  rw [if_neg (by decide), if_neg (by decide), if_neg (by decide), if_neg (by decide),
    if_neg (by decide), if_neg (by decide), if_neg (by decide), if_neg (by decide), if_pos rfl]
  split
  · exact absurd rfl h
  · rfl

/-- A character that is a token alone, and another one with one character behind it. -/
theorem first_pair {c second : Char} {one two : TokenKind} (cs : List Char) {rest : List Char}
    (hone : ∀ r : List Char, r.head? ≠ some second → Lexeme.first c r = .ok (.token one, [c], r))
    (htwo : ∀ r, Lexeme.first c (second :: r) = .ok (.token two, [c, second], r))
    (hrest : cs = [] → rest.head? ≠ some second) :
    Lexeme.first c (cs ++ rest) = .ok (.token one, [c], cs ++ rest) ∨
      ∃ back, cs = second :: back ∧
        Lexeme.first c (cs ++ rest) = .ok (.token two, [c, second], back ++ rest) := by
  by_cases hhead : (cs ++ rest).head? = some second
  · cases cs with
    | nil => exact absurd hhead (hrest rfl)
    | cons d back =>
      cases hhead
      exact .inr ⟨back, rfl, htwo _⟩
  · exact .inl (hone _ hhead)

/-- What the first token is where characters may grow together.  It is a word, a number, or one
of colons and minuses; and apart from the bracket of an arrow, all it takes behind its first
character are word characters, points and colons. -/
theorem first_fused {c : Char} (cs : List Char) {rest : List Char} (hapart : Apart rest)
    (hpoint : rest.head? ≠ some '.') (hcolon : rest.head? ≠ some ':')
    (hbracket : c = '-' → cs = [] → rest.head? ≠ some '>')
    (hc : isWordPart c = true ∨ c = ':' ∨ c = '-') :
    ∃ kind front back, Lexeme.first c (cs ++ rest) = .ok (.token kind, c :: front, back ++ rest) ∧
      cs = front ++ back ∧
      kind ∈ [TokenKind.identifier, .number, .colon, .doubleColon, .minus, .arrow] ∧
      (front = ['>'] ∨ ∀ d ∈ front, isWordPart d = true ∨ d = '.' ∨ d = ':') := by
  rcases hc with hword | rfl | rfl
  · rcases wordPart_cases hword with hstart | hdigit
    · refine ⟨.identifier, cs.takeWhile isWordPart, cs.dropWhile isWordPart, ?_,
        List.takeWhile_append_dropWhile.symm, by decide, ?_⟩
      · rw [Lexeme.first_word hstart, takeWhile_append_rest hapart, dropWhile_append_rest hapart]
      · exact .inr fun d hd => .inl (List.all_eq_true.1 List.all_takeWhile d hd)
    · refine ⟨.number, (splitNumber cs).1, (splitNumber cs).2, ?_,
        (splitNumber_append cs).symm, by decide, ?_⟩
      · rw [Lexeme.first_number hdigit, splitNumber_append_rest hapart hpoint]
      · exact .inr fun d hd => (mem_splitNumber hd).imp_right .inl
  · rcases first_pair cs (fun r hr => first_colon hr) (fun r => rfl) (fun _ => hcolon) with
      hfirst | ⟨back, rfl, hfirst⟩
    · exact ⟨.colon, [], cs, hfirst, rfl, by decide, .inr (List.forall_mem_nil _)⟩
    · exact ⟨.doubleColon, [':'], back, hfirst, rfl, by decide,
        .inr (List.forall_mem_singleton.2 (.inr (.inr rfl)))⟩
  · rcases first_pair cs (fun r hr => first_minus hr) (fun r => rfl) (hbracket rfl) with
      hfirst | ⟨back, rfl, hfirst⟩
    · exact ⟨.minus, [], cs, hfirst, rfl, by decide, .inr (List.forall_mem_nil _)⟩
    · exact ⟨.arrow, ['>'], back, hfirst, rfl, by decide, .inl rfl⟩

/-- A plain character starts a neutral token, which takes plain characters only. -/
theorem first_plain {c : Char} (cs : List Char) {rest : List Char} (hc : isPlain c = true)
    (hrest : EndsGlued rest) :
    ∃ kind front back, Lexeme.first c (cs ++ rest) = .ok (.token kind, c :: front, back ++ rest) ∧
      cs = front ++ back ∧ (∀ d ∈ front, isPlain d = true) ∧ Neutral kind := by
  simp only [isPlain, Bool.or_eq_true, beq_iff_eq, List.contains_iff_mem] at hc
  obtain hmark | hc := hc.symm
  · obtain ⟨kind, hmem, hneutral⟩ := exists_plainMark c hmark
    exact ⟨kind, [], cs, first_punctuation hmem _, rfl, List.forall_mem_nil _, hneutral⟩
  obtain ⟨kind, front, back, hfirst, rfl, hkind, hfront⟩ := first_fused cs hrest.apart
    (hrest.head?_ne (by decide)) (hrest.head?_ne (by decide))
    (fun _ _ => hrest.head?_ne (by decide)) (or_assoc.1 hc)
  have hneutral : ∀ kind ∈ [TokenKind.identifier, .number, .colon, .doubleColon, .minus, .arrow],
      Neutral kind := by decide
  refine ⟨kind, front, back, hfirst, rfl, ?_, hneutral kind hkind⟩
  rcases hfront with rfl | hfront
  · exact List.forall_mem_singleton.2 rfl
  · intro d hd
    rcases hfront d hd with hword | rfl | rfl
    · exact isPlain_of_isWordPart hword
    · rfl
    · rfl

/-- The characters of a default value are cut into tokens that are nested in the same way, even
if these are not the tokens that the characters came from. -/
theorem cuts_of_glued {depth : Nat} {cs : List Char} (h : Glued depth cs) {rest : List Char}
    (hrest : EndsGlued rest) :
    ∃ ks, Cuts (cs ++ rest) ks rest ∧ Balanced depth ks ∧
      ks.flatMap (fun k => k.text.toList) = cs := by
  induction hn : cs.length using Nat.strongRecOn generalizing depth cs with
  | ind n ih =>
    subst hn
    cases h with
    | nil => exact ⟨[], .done, .nil, rfl⟩
    | @plain depth c cs hc hmore =>
      obtain ⟨kind, front, back, hfirst, rfl, hfront, hneutral⟩ := first_plain cs hc hrest
      obtain ⟨ks, hcuts, hbalanced, htext⟩ := ih back.length
        (by simp only [List.length_cons, List.length_append]; omega)
        (hmore.behind hfront) rfl
      refine ⟨⟨kind, String.ofList (c :: front)⟩ :: ks, .token hfirst hcuts,
        .cons_neutral hneutral hbalanced, ?_⟩
      rw [List.flatMap_cons, htext, String.toList_ofList, List.cons_append]
    | @comma depth cs hmore =>
      obtain ⟨ks, hcuts, hbalanced, htext⟩ := ih cs.length (by simp) hmore rfl
      refine ⟨⟨.comma, ","⟩ :: ks, .token rfl hcuts, ?_, by rw [List.flatMap_cons, htext]; rfl⟩
      exact .cons (by decide) (fun h => absurd h (Nat.succ_ne_zero depth)) hbalanced
    | @opening depth c kind cs hmem hopens hmore =>
      obtain ⟨ks, hcuts, hbalanced, htext⟩ := ih cs.length (by simp) hmore rfl
      refine ⟨⟨kind, String.ofList [c]⟩ :: ks, .token (first_punctuation hmem _) hcuts, ?_, ?_⟩
      · refine .cons ?_ ?_ ?_
        · rintro rfl
          exact absurd hopens (by decide)
        · intro _
          refine ⟨?_, Bool.eq_false_iff.2 fun hcloses => opens_of_closes hcloses hopens⟩
          rintro rfl
          exact absurd hopens (by decide)
        · rw [depthBehind, if_pos hopens]
          exact hbalanced
      · rw [List.flatMap_cons, htext, String.toList_ofList, List.cons_append, List.nil_append]
    | @closing depth c kind cs hmem hcloses hmore =>
      obtain ⟨ks, hcuts, hbalanced, htext⟩ := ih cs.length (by simp) hmore rfl
      refine ⟨⟨kind, String.ofList [c]⟩ :: ks, .token (first_punctuation hmem _) hcuts, ?_, ?_⟩
      · refine .cons ?_ (fun h => absurd h (Nat.succ_ne_zero depth)) ?_
        · rintro rfl
          exact absurd hcloses (by decide)
        · rw [depthBehind, if_neg (opens_of_closes hcloses), if_pos hcloses]
          exact hbalanced
      · rw [List.flatMap_cons, htext, String.toList_ofList, List.cons_append, List.nil_append]
    | @string depth body cs hclosed hmore =>
      obtain ⟨ks, hcuts, hbalanced, htext⟩ := ih cs.length
        (by simp only [List.length_cons, List.length_append]; omega) hmore rfl
      refine ⟨⟨.string, String.ofList ('"' :: body)⟩ :: ks, ?_,
        .cons_neutral (by decide : Neutral .string) hbalanced, ?_⟩
      · rw [List.cons_append, List.append_assoc]
        exact .token (first_string (hclosed (cs ++ rest))) hcuts
      · rw [List.flatMap_cons, htext, String.toList_ofList, List.cons_append]

theorem Shape.Spelled.toList_ne_nil {k : Shape} (h : k.Spelled) : k.text.toList ≠ [] := by
  obtain ⟨c, r, chars, more, hfirst, htext⟩ := h
  rw [htext, String.toList_ofList]
  exact Lexeme.first_ne_nil hfirst

theorem toList_join_text (ks : List Shape) :
    (String.join (ks.map Shape.text)).toList = ks.flatMap fun k => k.text.toList := by
  rw [String.toList_join, List.flatMap_map]

/-- The text of a default value is read as a default value with that text. -/
theorem DefaultValue.cuts {ks : List Shape} {text : String} (h : DefaultValue ks text)
    (hks : ∀ k ∈ ks, k.kind ≠ .eof → k.Spelled) {rest : List Char} (hrest : EndsGlued rest) :
    ∃ ks', Cuts (text.toList ++ rest) ks' rest ∧ DefaultValue ks' text := by
  obtain ⟨hbalanced, hne⟩ := h
  obtain ⟨ks', hcuts, hbalanced', htext⟩ := cuts_of_glued (glued_of_balanced hbalanced hks) hrest
  have hsame : String.join (ks'.map Shape.text) = String.join (ks.map Shape.text) := by
    rw [← String.toList_inj, toList_join_text, toList_join_text, htext]
  refine ⟨ks', by rw [toList_join_text]; exact hcuts, ?_⟩
  rw [← hsame]
  refine .mk hbalanced' ?_
  rintro rfl
  cases hbalanced with
  | nil => exact hne rfl
  | @cons _ k ks heof _ _ =>
    rw [List.flatMap_cons] at htext
    exact (hks k List.mem_cons_self heof).toList_ne_nil (List.append_eq_nil_iff.1 htext.symm).1

theorem DefaultValue.startsVisibly {ks : List Shape} {text : String} (h : DefaultValue ks text)
    (hks : ∀ k ∈ ks, k.kind ≠ .eof → k.Spelled) : StartsVisibly text := by
  obtain ⟨hbalanced, hne⟩ := h
  cases hbalanced with
  | nil => exact absurd rfl hne
  | @cons _ k ks heof _ _ => exact startsVisibly_join (hks k List.mem_cons_self heof) ks

end KernelGen.Source
