import KernelGen.Proofs.Source.Gluing
import KernelGen.Proofs.Source.Ownership
set_option autoImplicit false

/-!
# Source: a text below another

No lexeme goes on behind the end of its line.  So a text with another one below it is cut into the
lexemes of the first, a newline, and the lexemes of the second, which only stand on later lines.
`tokenize_joined` says the same of tokens: all that the seam changes is which trivia a token owns,
and no comment behind a token is among that trivia.
-/

namespace KernelGen.Source

/-! ## What cannot be split -/

section Runs

variable {p : Char → Bool} {cs rest : List Char}

/-- A run of characters ends where it ended, if what follows does not go on with it. -/
theorem takeWhile_append_behind (h : cs.dropWhile p = [] → ∀ c ∈ rest.head?, p c = false) :
    (cs ++ rest).takeWhile p = cs.takeWhile p := by
  induction cs with
  | nil => exact takeWhile_append_rest (h rfl) []
  | cons c cs ih =>
    by_cases hc : p c = true
    · rw [List.dropWhile_cons_of_pos hc] at h
      rw [List.cons_append, List.takeWhile_cons_of_pos hc, List.takeWhile_cons_of_pos hc, ih h]
    · rw [List.cons_append, List.takeWhile_cons_of_neg hc, List.takeWhile_cons_of_neg hc]

end Runs

/-- The text begins with a blank or with a newline, if with anything. -/
def BeginsBlank (cs : List Char) : Prop := ∀ c ∈ cs.head?, isSeparator c = true ∨ c = '\n'

/-- The text begins with a newline, if with anything. -/
def BeginsLine (cs : List Char) : Prop := ∀ c ∈ cs.head?, c = '\n'

theorem BeginsLine.beginsBlank {cs : List Char} (h : BeginsLine cs) : BeginsBlank cs :=
  fun c hc => .inr (h c hc)

theorem BeginsBlank.apart {cs : List Char} (h : BeginsBlank cs) : Apart cs := by
  intro c hc
  rcases h c hc with hblank | rfl
  · cases hpart : isWordPart c with
    | false => rfl
    | true => exact absurd hblank (Bool.eq_false_iff.1 (isSeparator_of_isWordPart hpart))
  · rfl

theorem BeginsBlank.head?_ne {cs : List Char} (h : BeginsBlank cs) {c : Char}
    (hblank : isSeparator c = false) (hline : c ≠ '\n') : cs.head? ≠ some c := by
  intro hc
  rcases h c hc with hc | hc
  · exact Bool.false_ne_true (hblank.symm.trans hc)
  · exact hline hc

theorem head?_append_ne {c : Char} {cs rest : List Char} (hcs : cs.head? ≠ some c)
    (hrest : rest.head? ≠ some c) : (cs ++ rest).head? ≠ some c := by
  cases cs with
  | nil => exact hrest
  | cons d cs => exact hcs

namespace Lexeme

theorem first_separator {c : Char} (h : isSeparator c = true) (r : List Char) :
    first c r =
      .ok (.trivia .whitespace, c :: r.takeWhile isSeparator, r.dropWhile isSeparator) := by
  unfold first
  rw [if_pos h]

/-- A lexeme of the kind is trivia. -/
def IsTrivia (kind : LexemeKind) : Prop := ∃ k, kind = .trivia k

/-- A lexeme that is cut off stays what it is when more text follows: a token ends at a blank, and
trivia ends at a newline. -/
theorem first_append_blank {c : Char} {r chars more rest : List Char} {kind : LexemeKind}
    (h : first c r = .ok (kind, chars, more)) (hrest : BeginsBlank rest)
    (htrivia : more = [] → IsTrivia kind → BeginsLine rest) :
    first c (r ++ rest) = .ok (kind, chars, more ++ rest) := by
  have hchars := first_append h
  -- the characters say what follows them
  suffices hcut : ∃ more', first c (r ++ rest) = .ok (kind, chars, more') by
    obtain ⟨more', hmore⟩ := hcut
    have hchars' := first_append hmore
    rw [← List.cons_append, ← hchars, List.append_assoc] at hchars'
    rw [hmore, List.append_cancel_left hchars']
  cases kind with
  | token kind =>
    rcases first_token_cases h with ⟨rfl, hstart, rfl⟩ | ⟨rfl, hdigit, rfl⟩ |
      ⟨rfl, rfl, body, hbody, rfl⟩ | hmark | ⟨hmark, rfl⟩
    · rw [first_word hstart, takeWhile_append_rest hrest.apart]
      exact ⟨_, rfl⟩
    · rw [first_number hdigit,
        splitNumber_append_rest hrest.apart (hrest.head?_ne rfl (by decide))]
      exact ⟨_, rfl⟩
    · have hsplit := closedString_of_splitString hbody (more ++ rest)
      rw [← List.append_assoc, splitString_append hbody] at hsplit
      exact ⟨_, first_string hsplit⟩
    · simp only [List.mem_cons, Prod.mk.injEq, List.not_mem_nil, or_false] at hmark
      rcases hmark with ⟨rfl, rfl⟩ | ⟨rfl, rfl⟩ | ⟨rfl, rfl⟩ | ⟨rfl, rfl⟩ <;>
        obtain ⟨rfl, rfl⟩ := List.cons.inj hchars
      · exact ⟨_, rfl⟩
      · refine ⟨_, first_colon (head?_append_ne ?_ (hrest.head?_ne rfl (by decide)))⟩
        exact fun hcolon => by cases more <;> cases hcolon; cases h
      · exact ⟨_, rfl⟩
      · refine ⟨_, first_minus (head?_append_ne ?_ (hrest.head?_ne rfl (by decide)))⟩
        exact fun hangle => by cases more <;> cases hangle; cases h
    · exact ⟨_, first_punctuation hmark _⟩
  | trivia kind =>
    have hends : more = [] → BeginsLine rest := fun hmore => htrivia hmore ⟨kind, rfl⟩
    rcases first_trivia_cases h with ⟨rfl, hc, rfl, rfl⟩ | ⟨rfl, rfl, rfl, rfl⟩ |
      ⟨rfl, rfl, rfl, rfl⟩ | ⟨rfl, rfl, r', rfl, rfl, rfl⟩
    · have hrun := takeWhile_append_behind fun hmore c hmem =>
        (hends hmore c hmem ▸ rfl : isSeparator c = false)
      exact ⟨_, by rw [first_separator hc, hrun]⟩
    · exact ⟨_, rfl⟩
    · have hrun := takeWhile_append_behind fun hmore c hmem =>
        (hends hmore c hmem ▸ rfl : isInLine c = false)
      exact ⟨_, by rw [← hrun]; rfl⟩
    · have hrun := takeWhile_append_behind fun hmore c hmem =>
        (hends hmore c hmem ▸ rfl : isInLine c = false)
      exact ⟨_, by rw [← hrun]; rfl⟩

/-! ## Lexemes of a text in two parts -/

theorem scan_of_first {c : Char} {r chars more : List Char} {kind : LexemeKind}
    (h : first c r = .ok (kind, chars, more)) (l : Location) :
    scan l (c :: r) = (⟨kind, chars, l⟩ :: ·) <$> scan (l.advance chars) more := by
  rw [scan]
  split <;> rename_i hfirst <;> cases h.symm.trans hfirst
  cases scan (l.advance chars) more <;> rfl

/-- The lexemes of a text are followed by those of what comes behind it, unless the last of them
goes on there. -/
theorem scan_append {l : Location} {cs rest : List Char} {xs : List Lexeme}
    (h : scan l cs = .ok xs) (hrest : BeginsBlank rest)
    (hlast : ∀ x ∈ xs.getLast?, IsTrivia x.kind → BeginsLine rest) :
    scan l (cs ++ rest) = (xs ++ ·) <$> scan (l.advance cs) rest := by
  fun_induction scan l cs generalizing xs with
  | case1 l =>
    cases h
    cases hscan : scan l rest <;> simp [hscan]
  | case2 => cases h
  | case3 => cases h
  | case4 l c r kind chars more hfirst ys hys ih =>
    cases h
    have hends : more = [] → IsTrivia kind → BeginsLine rest := by
      rintro rfl
      rw [scan] at hys
      cases hys
      exact hlast _ rfl
    have hmore : ∀ y ∈ ys.getLast?, IsTrivia y.kind → BeginsLine rest := by
      intro y hy
      refine hlast y ?_
      rw [List.getLast?_cons, Option.mem_def.1 hy]
      rfl
    rw [List.cons_append, scan_of_first (first_append_blank hfirst hrest hends), ih hys hmore,
      ← first_append hfirst, Location.advance_append]
    cases scan ((l.advance chars).advance more) rest <;> rfl

end Lexeme

/-! ## The same text further down -/

/-- The same place on a later line. -/
def Location.below (n : Nat) (l : Location) : Location := ⟨l.line + n, l.column⟩

/-- The same lexeme on a later line. -/
def Lexeme.below (n : Nat) (x : Lexeme) : Lexeme := { x with location := x.location.below n }

/-- The same refused text on a later line. -/
def StrayText.below (n : Nat) (e : StrayText) : StrayText :=
  { e with location := e.location.below n }

theorem Location.advance_below (n : Nat) (l : Location) (cs : List Char) :
    (l.below n).advance cs = (l.advance cs).below n := by
  induction cs generalizing l with
  | nil => rfl
  | cons c cs ih =>
    have hstep : (l.below n).step c = (l.step c).below n := by
      unfold Location.step Location.below
      split
      · rw [Nat.add_right_comm]
      · rfl
    exact (congrArg (Location.advance · cs) hstep).trans (ih (l.step c))

theorem Location.line_advance (l : Location) (cs : List Char) :
    (l.advance cs).line = l.line + cs.count '\n' := by
  induction cs generalizing l with
  | nil => rfl
  | cons c cs ih =>
    have hcons : l.advance (c :: cs) = (l.step c).advance cs := rfl
    rw [hcons, ih, List.count_cons]
    unfold Location.step
    by_cases hc : c = '\n'
    · simp only [hc, if_true, BEq.rfl]
      omega
    · simp [hc]

namespace Lexeme

theorem scan_below (n : Nat) (l : Location) (cs : List Char) :
    scan (l.below n) cs = ((scan l cs).map (List.map (below n))).mapError (StrayText.below n) := by
  fun_induction scan l cs with
  | case1 => rw [scan]; rfl
  | case2 l c r chars hfirst =>
    rw [scan]
    split <;> rename_i h <;> cases hfirst.symm.trans h
    rfl
  | case3 l c r kind chars more hfirst e hmore ih =>
    rw [scan_of_first hfirst, Location.advance_below, ih, hmore]
    rfl
  | case4 l c r kind chars more hfirst xs hmore ih =>
    rw [scan_of_first hfirst, Location.advance_below, ih, hmore]
    rfl

end Lexeme

/-! ## Tokens of a text below another -/

/-- The same token in another place. -/
def Token.moved (move : Location → Location) (t : Token) : Token :=
  { t with location := move t.location }

/-- The token without its trivia, the line comments behind it apart. -/
def Token.bare (t : Token) : Token :=
  { t with leading := [], trailing := t.trailing.filter (·.kind == .lineComment) }

@[simp] theorem map_bare_leadWith (run : List Trivia) (ts : List Token) :
    (leadWith run ts).map Token.bare = ts.map Token.bare := by
  cases ts <;> rfl

theorem map_moved_leadWith (move : Location → Location) (run : List Trivia) (ts : List Token) :
    (leadWith run ts).map (Token.moved move) = leadWith run (ts.map (Token.moved move)) := by
  cases ts <;> rfl

theorem attach_below (n : Nat) (l : Location) (xs : List Lexeme) :
    attach (l.below n) (xs.map (Lexeme.below n)) =
      ((attach l xs).1, (attach l xs).2.map (Token.moved (Location.below n))) := by
  induction xs with
  | nil => rfl
  | cons x xs ih =>
    cases hx : x.kind with
    | trivia kind =>
      have hx' : (x.below n).kind = .trivia kind := hx
      rw [List.map_cons, attach_trivia hx', attach_trivia hx, ih]
      rfl
    | token kind =>
      have hx' : (x.below n).kind = .token kind := hx
      rw [List.map_cons, attach_token hx', attach_token hx, ih, List.map_cons, map_moved_leadWith]
      rfl

/-- A newline behind a run adds no comment to what trails the token in front of the run. -/
theorem filter_divide_append {u : Trivia} (hu : u.kind = .newline) (run more : List Trivia) :
    (divide (run ++ u :: more)).1.filter (·.kind == .lineComment) =
      (divide run).1.filter (·.kind == .lineComment) := by
  induction run with
  | nil =>
    rw [List.nil_append, divide_cons_of_eq hu, List.filter_cons_of_neg (by rw [hu]; decide)]
    rfl
  | cons v run ih =>
    by_cases hv : v.kind = .newline
    · rw [List.cons_append, divide_cons_of_eq hv, divide_cons_of_eq hv]
    · rw [List.cons_append, divide_cons_of_ne hv, divide_cons_of_ne hv, List.filter_cons,
        List.filter_cons, ih]

/-- The tokens of lexemes with a newline and more lexemes behind them: those of the first part, and
those of the second.  What is in front of the first token stays, or goes on with the newline. -/
theorem attach_seam (l : Location) (xs : List Lexeme) {l' : Location} {zs : List Lexeme}
    {u : Trivia} {run : List Trivia} {ts : List Token} (hzs : attach l' zs = (u :: run, ts))
    (hu : u.kind = .newline) :
    (attach l' (xs ++ zs)).2.map Token.bare =
      ((attach l xs).2.map Token.bare).dropLast ++ ts.map Token.bare ∧
    ((attach l' (xs ++ zs)).1 = (attach l xs).1 ∨
      (attach l' (xs ++ zs)).1 = (attach l xs).1 ++ u :: run) := by
  induction xs with
  | nil =>
    rw [List.nil_append, hzs]
    exact ⟨rfl, .inr rfl⟩
  | cons x xs ih =>
    obtain ⟨ihTokens, ihFront⟩ := ih
    cases hx : x.kind with
    | trivia kind =>
      rw [List.cons_append, attach_trivia hx, attach_trivia hx]
      refine ⟨ihTokens, ihFront.imp (fun hsame => ?_) fun hmore => ?_⟩
      · rw [hsame]
      · rw [hmore, List.cons_append]
    | token kind =>
      have hcomments : (divide (attach l' (xs ++ zs)).1).1.filter (·.kind == .lineComment) =
          (divide (attach l xs).1).1.filter (·.kind == .lineComment) := by
        rcases ihFront with hsame | hmore
        · rw [hsame]
        · rw [hmore, filter_divide_append hu]
      obtain ⟨t, more, hmore, -⟩ := exists_first_attach l xs
      have hne : (attach l xs).2.map Token.bare ≠ [] := by
        rw [hmore]
        exact List.cons_ne_nil _ _
      rw [List.cons_append, attach_token hx, attach_token hx, List.map_cons, List.map_cons,
        map_bare_leadWith, map_bare_leadWith, ihTokens, List.dropLast_cons_of_ne_nil hne,
        List.cons_append]
      refine ⟨?_, .inl rfl⟩
      rw [Token.bare, Token.bare, hcomments]

section Joined

variable {s₁ s₂ : String}

/-- A text with another one below it. -/
def below (s₁ s₂ : String) : String := s₁ ++ "\n" ++ s₂

/-- The number of the lines that a text is, as far as a text below it is concerned. -/
def height (s : String) : Nat := s.toList.count '\n' + 1

theorem toList_below : (below s₁ s₂).toList = s₁.toList ++ '\n' :: s₂.toList := by
  simp [below]

/-- Behind the newline the next line begins. -/
theorem advance_line (s : String) :
    (Location.start.advance s.toList).advance ['\n'] = Location.start.below (height s) := by
  have hnext : (Location.start.advance s.toList).advance ['\n'] =
      ⟨(Location.start.advance s.toList).line + 1, 1⟩ := rfl
  rw [hnext, Location.line_advance, Nat.add_assoc]
  rfl

theorem advance_joined : Location.start.advance (below s₁ s₂).toList =
    (Location.start.advance s₂.toList).below (height s₁) := by
  have hsplit : s₁.toList ++ '\n' :: s₂.toList = (s₁.toList ++ ['\n']) ++ s₂.toList := by simp
  rw [toList_below, hsplit, Location.advance_append, Location.advance_append, advance_line,
    Location.advance_below]

theorem scan_joined {xs : List Lexeme} (h : Lexeme.scan .start s₁.toList = .ok xs) :
    Lexeme.scan .start (below s₁ s₂).toList =
      ((Lexeme.scan .start s₂.toList).map fun ys =>
        xs ++ ⟨.trivia .newline, ['\n'], Location.start.advance s₁.toList⟩ ::
          ys.map (Lexeme.below (height s₁))).mapError (StrayText.below (height s₁)) := by
  have hline : BeginsLine ('\n' :: s₂.toList) := fun c hc => (Option.some.inj hc).symm
  have hnewline : Lexeme.first '\n' s₂.toList = .ok (.trivia .newline, ['\n'], s₂.toList) := rfl
  rw [toList_below, Lexeme.scan_append h hline.beginsBlank fun _ _ _ => hline,
    Lexeme.scan_of_first hnewline, advance_line, Lexeme.scan_below]
  cases Lexeme.scan .start s₂.toList <;> rfl

theorem tokenize_joined {ts₁ ts₂ : List Token} (h₁ : tokenize s₁ = .ok ts₁)
    (h₂ : tokenize s₂ = .ok ts₂) :
    ∃ ts, tokenize (below s₁ s₂) = .ok ts ∧
      ts.map Token.bare =
        (ts₁.dropLast ++ ts₂.map (Token.moved (Location.below (height s₁)))).map Token.bare := by
  obtain ⟨xs, hxs, rfl⟩ := tokenize_eq_ok h₁
  obtain ⟨ys, hys, rfl⟩ := tokenize_eq_ok h₂
  have hzs : attach ((Location.start.advance s₂.toList).below (height s₁))
      (⟨.trivia .newline, ['\n'], Location.start.advance s₁.toList⟩ ::
        ys.map (Lexeme.below (height s₁))) = _ := attach_trivia rfl
  rw [attach_below] at hzs
  obtain ⟨htokens, -⟩ := attach_seam (Location.start.advance s₁.toList) xs hzs rfl
  refine ⟨_, by rw [tokenize, scan_joined hxs, hys]; rfl, ?_⟩
  rw [advance_joined, tokensOf, map_bare_leadWith, htokens, List.map_append, tokensOf, tokensOf,
    List.map_dropLast, map_bare_leadWith, map_moved_leadWith, map_bare_leadWith]

theorem tokenize_joined_error {ts₁ : List Token} {e : StrayText} (h₁ : tokenize s₁ = .ok ts₁)
    (h₂ : tokenize s₂ = .error e) :
    tokenize (below s₁ s₂) = .error (e.below (height s₁)) := by
  obtain ⟨xs, hxs, -⟩ := tokenize_eq_ok h₁
  rw [tokenize_eq_error] at h₂ ⊢
  rw [scan_joined hxs, h₂]
  rfl

end Joined

end KernelGen.Source
