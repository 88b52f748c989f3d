import KernelGen.Proofs.Source.Lossless
set_option autoImplicit false

/-!
# Source: which token owns which trivia

A run of trivia between two tokens is divided behind its first newline: the part through the
newline trails the earlier token, and the rest leads the later one.  So at most one line comment
trails a token, and it is the one that follows the token on its line with nothing but blanks in
front.  `tokenize_ownTrivia` says this of the tokens and the lexemes of a text.
-/

namespace KernelGen.Source

/-! ## A run of trivia belongs to the tokens around it -/

/-- The lexemes begin with the token, which is the end of the text when there are none. -/
def BeginsWith : List Lexeme → Token → Prop
  | [], t => t.kind = .eof
  | x :: _, t => x.Is t

/-- The run is what stands in front of the first token of the lexemes. -/
def InFront (xs : List Lexeme) (run : List Trivia) (t : Token) : Prop :=
  ∃ front back, xs = front ++ back ∧ front.map Lexeme.trivia? = run.map some ∧ BeginsWith back t

/-- The run is what stands between a token of the lexemes and the next one. -/
def Between (xs : List Lexeme) (t : Token) (run : List Trivia) (t' : Token) : Prop :=
  ∃ front x back, xs = front ++ x :: back ∧ x.Is t ∧ InFront back run t'

/-- A run of trivia is divided behind its first newline, if it has one. -/
inductive Divided : List Trivia → List Trivia → List Trivia → Prop where
  | whole {run : List Trivia} : (∀ u ∈ run, u.kind ≠ .newline) → Divided run run []
  | newline {front back : List Trivia} {u : Trivia} : (∀ v ∈ front, v.kind ≠ .newline) →
      u.kind = .newline → Divided (front ++ u :: back) (front ++ [u]) back

theorem divided_divide (run : List Trivia) : Divided run (divide run).1 (divide run).2 := by
  induction run with
  | nil => exact .whole fun u hu => absurd hu List.not_mem_nil
  | cons u run ih =>
    by_cases hu : u.kind = .newline
    · rw [divide, if_pos hu]
      exact .newline (fun v hv => absurd hv List.not_mem_nil) hu
    · have hfront : ∀ {front : List Trivia}, (∀ v ∈ front, v.kind ≠ .newline) →
          ∀ v ∈ u :: front, v.kind ≠ .newline := fun h => List.forall_mem_cons.2 ⟨hu, h⟩
      rw [divide, if_neg hu]
      dsimp only
      generalize divide run = parts at ih ⊢
      obtain ⟨kept, passed⟩ := parts
      cases ih with
      | whole h => exact .whole (hfront h)
      | newline h hnewline => exact .newline (hfront h) hnewline

theorem BeginsWith.inFront {xs : List Lexeme} {t : Token} (h : BeginsWith xs t) : InFront xs [] t :=
  ⟨[], xs, rfl, rfl, h⟩

theorem InFront.cons {x : Lexeme} {xs : List Lexeme} {u : Trivia} {run : List Trivia} {t : Token}
    (hx : x.trivia? = some u) (h : InFront xs run t) : InFront (x :: xs) (u :: run) t := by
  obtain ⟨front, back, rfl, hrun, ht⟩ := h
  exact ⟨x :: front, back, rfl, by rw [List.map_cons, hx, hrun, List.map_cons], ht⟩

theorem Between.cons {xs : List Lexeme} {t t' : Token} {run : List Trivia}
    (h : Between xs t run t') (x : Lexeme) : Between (x :: xs) t run t' := by
  obtain ⟨front, y, back, rfl, ht, hrun⟩ := h
  exact ⟨x :: front, y, back, rfl, ht, hrun⟩

theorem InFront.leading {xs : List Lexeme} {run : List Trivia} {t : Token} (h : InFront xs run t)
    (leading : List Trivia) : InFront xs run { t with leading := leading } := by
  obtain ⟨front, back, hxs, hrun, ht⟩ := h
  refine ⟨front, back, hxs, hrun, ?_⟩
  cases back with
  | nil => exact ht
  | cons x back => exact ht

theorem attach_inFront {l : Location} {xs : List Lexeme} {t : Token} {ts : List Token}
    (h : (attach l xs).2 = t :: ts) : InFront xs (attach l xs).1 t := by
  induction xs with
  | nil =>
    cases h
    exact BeginsWith.inFront rfl
  | cons x xs ih =>
    cases hx : x.kind with
    | trivia kind =>
      rw [attach_trivia hx] at h ⊢
      exact (ih h).cons (by rw [Lexeme.trivia?, hx])
    | token kind =>
      rw [attach_token hx] at h ⊢
      cases h
      exact BeginsWith.inFront ⟨hx, rfl, rfl⟩

/-- Leading trivia is all that neighbours differ in when it is given to the first token. -/
theorem neighbours_of_leadWith {run : List Trivia} {ts front back : List Token} {a b : Token}
    (h : leadWith run ts = front ++ a :: b :: back) :
    ∃ front' leading, ts = front' ++ { a with leading := leading } :: b :: back := by
  cases ts with
  | nil =>
    exact absurd h.symm (List.append_ne_nil_of_right_ne_nil front (List.cons_ne_nil a _))
  | cons t ts =>
    cases front with
    | nil =>
      obtain ⟨rfl, rfl⟩ := List.cons.inj h
      exact ⟨[], t.leading, rfl⟩
    | cons c front =>
      obtain ⟨-, rfl⟩ := List.cons.inj h
      exact ⟨t :: front, a.leading, rfl⟩

/-- What stands between two tokens is divided between them. -/
theorem attach_between (l : Location) (xs : List Lexeme) {front back : List Token} {a b : Token}
    (h : (attach l xs).2 = front ++ a :: b :: back) :
    ∃ run, Between xs a run b ∧ Divided run a.trailing b.leading := by
  induction xs generalizing front a b back with
  | nil =>
    have hlength := congrArg List.length h
    simp [attach] at hlength
    omega
  | cons x xs ih =>
    have hmore : ∀ {front : List Token}, (attach l xs).2 = front ++ a :: b :: back →
        ∃ run, Between (x :: xs) a run b ∧ Divided run a.trailing b.leading := fun h =>
      (ih h).imp fun run hrun => ⟨hrun.1.cons x, hrun.2⟩
    cases hx : x.kind with
    | trivia kind =>
      rw [attach_trivia hx] at h
      exact hmore h
    | token kind =>
      rw [attach_token hx] at h
      cases front with
      | nil =>
        obtain ⟨rfl, hrest⟩ := List.cons.inj h
        obtain ⟨t, ts, hts, -⟩ := exists_first_attach l xs
        rw [hts] at hrest
        obtain ⟨rfl, rfl⟩ := List.cons.inj hrest
        exact ⟨_, ⟨[], x, xs, rfl, ⟨hx, rfl, rfl⟩, (attach_inFront hts).leading _⟩,
          divided_divide _⟩
      | cons c front =>
        obtain ⟨-, hrest⟩ := List.cons.inj h
        obtain ⟨front', leading, hts⟩ := neighbours_of_leadWith hrest
        obtain ⟨run, hbetween, hdivided⟩ := ih hts
        exact ⟨run, hbetween.cons x, hdivided⟩

/-! ## The comment behind a token -/

/-- The body of the first line comment of a run. -/
def commentIn? (run : List Trivia) : Option String :=
  (run.find? (·.kind == .lineComment)).map fun u =>
    String.ofList (u.text.toList.dropWhile (· == '/'))

/-- The body of the comment that a text begins with, with nothing but blanks in front. -/
def commentBehind? (cs : List Char) : Option String :=
  match cs.dropWhile isSeparator with
  | '/' :: '/' :: r => some (String.ofList ((r.takeWhile isInLine).dropWhile (· == '/')))
  | _ => none

theorem commentBehind?_eq_some {cs : List Char} {body : String} :
    commentBehind? cs = some body ↔
      ∃ blanks rest, cs = blanks ++ '/' :: '/' :: rest ∧ (∀ c ∈ blanks, isSeparator c = true) ∧
        body = String.ofList ((rest.takeWhile isInLine).dropWhile (· == '/')) := by
  constructor
  · intro h
    unfold commentBehind? at h
    split at h
    · rename_i r hr
      cases h
      refine ⟨cs.takeWhile isSeparator, r, ?_, List.all_eq_true.1 List.all_takeWhile, rfl⟩
      rw [← hr, List.takeWhile_append_dropWhile]
    · cases h
  · rintro ⟨blanks, rest, rfl, hblanks, rfl⟩
    have hdrop : (blanks ++ '/' :: '/' :: rest).dropWhile isSeparator = '/' :: '/' :: rest :=
      List.dropWhile_append_of_pos hblanks
    rw [commentBehind?, hdrop]
    rfl

/-- What the pieces of trivia look like. -/
theorem Lexeme.first_trivia_cases {c : Char} {r chars more : List Char} {kind : TriviaKind}
    (h : first c r = .ok (.trivia kind, chars, more)) :
    (kind = .whitespace ∧ isSeparator c = true ∧ chars = c :: r.takeWhile isSeparator ∧
      more = r.dropWhile isSeparator) ∨
    (kind = .newline ∧ c = '\n' ∧ chars = [c] ∧ more = r) ∨
    (kind = .directive ∧ c = '#' ∧ chars = c :: r.takeWhile isInLine ∧
      more = r.dropWhile isInLine) ∨
    (kind = .lineComment ∧ c = '/' ∧ ∃ r', r = '/' :: r' ∧ chars = c :: r.takeWhile isInLine ∧
      more = r.dropWhile isInLine) := by
  unfold first at h
  split at h
  · rename_i hc
    cases h
    exact .inl ⟨rfl, hc, rfl, rfl⟩
  split at h
  · rename_i hc
    cases h
    exact .inr (.inl ⟨rfl, hc, rfl, rfl⟩)
  split at h
  · rename_i hc
    cases h
    exact .inr (.inr (.inl ⟨rfl, hc, rfl, rfl⟩))
  -- then come the characters that start tokens
  split at h
  · cases h
  split at h
  · cases h
  split at h
  · split at h <;> cases h
  split at h
  · rename_i hc
    split at h
    · cases h
      exact .inr (.inr (.inr ⟨rfl, hc, _, rfl, rfl, rfl⟩))
    · cases h
    · cases h
  split at h
  · split at h <;> cases h
  split at h
  · split at h <;> cases h
  split at h <;> cases h

/-- No token starts with a blank or with a slash. -/
theorem commentBehind?_of_token {c : Char} {r chars more : List Char} {kind : TokenKind}
    (h : Lexeme.first c r = .ok (.token kind, chars, more)) : commentBehind? (c :: r) = none := by
  have hc : isSeparator c ≠ true ∧ c ≠ '/' := by
    constructor <;> intro hc
    · unfold Lexeme.first at h
      rw [if_pos hc] at h
      cases h
    · subst hc
      rcases Lexeme.first_token_cases h with ⟨-, hstart, -⟩ | ⟨-, hdigit, -⟩ | ⟨-, hquote, -⟩ |
        hmark | ⟨hmark, -⟩
      · exact absurd hstart (by decide)
      · exact absurd hdigit (by decide)
      · exact absurd hquote (by decide)
      · have hchars := Lexeme.first_append h
        simp at hmark
        rcases hmark with ⟨-, rfl⟩ | ⟨-, rfl⟩ | ⟨-, rfl⟩ | ⟨-, rfl⟩ <;> simp at hchars
      · simp [punctuation] at hmark
  unfold commentBehind?
  rw [List.dropWhile_cons_of_neg hc.1]
  split
  · rename_i heq
    exact absurd (List.cons.inj heq).1 hc.2
  · rfl

/-- No comment begins at the end of a line. -/
theorem commentBehind?_dropWhile (r : List Char) :
    commentBehind? (r.dropWhile isInLine) = none := by
  cases hr : r.dropWhile isInLine with
  | nil => rfl
  | cons c cs =>
    have hc : isInLine c = false := by
      have := List.head?_dropWhile_not isInLine r
      rwa [hr] at this
    obtain rfl : c = '\n' := by simpa [isInLine] using hc
    rfl

section Runs

variable {u : Trivia} {run : List Trivia}

theorem divide_cons_of_eq (h : u.kind = .newline) : divide (u :: run) = ([u], run) := by
  rw [divide, if_pos h]

theorem divide_cons_of_ne (h : u.kind ≠ .newline) :
    divide (u :: run) = (u :: (divide run).1, (divide run).2) := by
  rw [divide, if_neg h]

theorem commentIn?_cons_of_ne (h : u.kind ≠ .lineComment) :
    commentIn? (u :: run) = commentIn? run := by
  rw [commentIn?, List.find?_cons_of_neg (by simpa using h), commentIn?]

theorem countP_of_commentIn?_eq_none (h : commentIn? run = none) :
    run.countP (·.kind == .lineComment) = 0 := by
  rw [commentIn?, Option.map_eq_none_iff, List.find?_eq_none] at h
  exact List.countP_eq_zero.2 h

end Runs

/-- The part of a run that trails the token in front of it has the comment that follows that token
in the text, if one does, and no other one. -/
theorem comment_of_scan {l : Location} {cs : List Char} {xs : List Lexeme}
    (h : Lexeme.scan l cs = .ok xs) (last : Location) :
    commentIn? (divide (attach last xs).1).1 = commentBehind? cs ∧
      (divide (attach last xs).1).1.countP (·.kind == .lineComment) ≤ 1 := by
  fun_induction Lexeme.scan l cs generalizing xs with
  | case1 => cases h; exact ⟨rfl, Nat.zero_le 1⟩
  | case2 => cases h
  | case3 => cases h
  | case4 l c r kind chars rest hfirst more hmore ih =>
    cases h
    obtain ⟨ihComment, ihCount⟩ := ih hmore
    cases kind with
    | token kind =>
      rw [attach_token rfl, commentBehind?_of_token hfirst]
      exact ⟨rfl, Nat.zero_le 1⟩
    | trivia kind =>
      rw [attach_trivia rfl]
      rcases Lexeme.first_trivia_cases hfirst with ⟨rfl, hc, rfl, rfl⟩ | ⟨rfl, rfl, rfl, rfl⟩ |
        ⟨rfl, rfl, rfl, rfl⟩ | ⟨rfl, rfl, r', rfl, rfl, rfl⟩
      · have hsame : commentBehind? (c :: r) = commentBehind? (r.dropWhile isSeparator) := by
          rw [commentBehind?, commentBehind?, List.dropWhile_cons_of_pos hc,
            List.dropWhile_idempotent]
        rw [divide_cons_of_ne TriviaKind.noConfusion,
          commentIn?_cons_of_ne TriviaKind.noConfusion, hsame, List.countP_cons_of_neg (by simp)]
        exact ⟨ihComment, ihCount⟩
      · exact ⟨rfl, Nat.zero_le 1⟩
      · rw [commentBehind?_dropWhile] at ihComment
        rw [divide_cons_of_ne TriviaKind.noConfusion,
          commentIn?_cons_of_ne TriviaKind.noConfusion, ihComment,
          List.countP_cons_of_neg (by simp)]
        exact ⟨rfl, ihCount⟩
      · rw [commentBehind?_dropWhile] at ihComment
        rw [divide_cons_of_ne TriviaKind.noConfusion, List.countP_cons_of_pos rfl,
          countP_of_commentIn?_eq_none ihComment, List.takeWhile_cons_of_pos rfl]
        refine ⟨?_, Nat.le_refl 1⟩
        simp [commentIn?, commentBehind?, isSeparator]

/-! ## The tokens of a text -/

/-- Each token stands at its place in the text, and what trails it is decided by the text behind
it. -/
theorem placed_of_scan {l : Location} {cs : List Char} {xs : List Lexeme}
    (h : Lexeme.scan l cs = .ok xs) :
    ∀ t ∈ (attach (l.advance cs) xs).2, t.trailing.countP (·.kind == .lineComment) ≤ 1 ∧
      ∃ before behind, cs = before ++ (t.text.toList ++ behind) ∧
        t.location = l.advance before ∧ t.trailingComment? = commentBehind? behind := by
  fun_induction Lexeme.scan l cs generalizing xs with
  | case1 l =>
    cases h
    intro t ht
    rw [attach, List.mem_singleton] at ht
    subst ht
    exact ⟨Nat.zero_le 1, [], [], rfl, rfl, rfl⟩
  | case2 => cases h
  | case3 => cases h
  | case4 l c r kind chars rest hfirst more hmore ih =>
    cases h
    have hcs : c :: r = chars ++ rest := (Lexeme.first_append hfirst).symm
    rw [hcs, Location.advance_append]
    have hlater : ∀ t ∈ (attach ((l.advance chars).advance rest) more).2,
        t.trailing.countP (·.kind == .lineComment) ≤ 1 ∧
          ∃ before behind, chars ++ rest = before ++ (t.text.toList ++ behind) ∧
            t.location = l.advance before ∧ t.trailingComment? = commentBehind? behind := by
      intro t ht
      obtain ⟨hone, before, behind, hrest, hlocation, hcomment⟩ := ih hmore t ht
      refine ⟨hone, chars ++ before, behind, by rw [hrest, List.append_assoc], ?_, hcomment⟩
      rw [hlocation, Location.advance_append]
    cases kind with
    | trivia kind =>
      rw [attach_trivia rfl]
      exact hlater
    | token kind =>
      obtain ⟨hcomment, hone⟩ := comment_of_scan hmore ((l.advance chars).advance rest)
      rw [attach_token rfl]
      refine List.forall_mem_cons.2 ⟨⟨hone, [], rest, ?_, rfl, hcomment⟩, ?_⟩
      · rw [String.toList_ofList]
        rfl
      · exact forall_mem_leadWith hlater (fun _ _ ht => ht) _

/-- The end of the text is the last of the tokens and no other one, and nothing trails it. -/
def EndsText (ts : List Token) : Prop :=
  ∃ front t, ts = front ++ [t] ∧ t.kind = .eof ∧ t.trailing = [] ∧ ∀ u ∈ front, u.kind ≠ .eof

theorem EndsText.cons {t : Token} {ts : List Token} (h : EndsText ts) (ht : t.kind ≠ .eof) :
    EndsText (t :: ts) := by
  obtain ⟨front, last, rfl, heof, htrailing, hfront⟩ := h
  exact ⟨t :: front, last, rfl, heof, htrailing, List.forall_mem_cons.2 ⟨ht, hfront⟩⟩

theorem EndsText.leadWith {ts : List Token} (h : EndsText ts) (run : List Trivia) :
    EndsText (leadWith run ts) := by
  obtain ⟨front, last, rfl, heof, htrailing, hfront⟩ := h
  cases front with
  | nil => exact ⟨[], { last with leading := run }, rfl, heof, htrailing, hfront⟩
  | cons t front =>
    obtain ⟨ht, hmore⟩ := List.forall_mem_cons.1 hfront
    exact ⟨{ t with leading := run } :: front, last, rfl, heof, htrailing,
      List.forall_mem_cons.2 ⟨ht, hmore⟩⟩

theorem endsText_attach (l : Location) {xs : List Lexeme} (h : ∀ x ∈ xs, x.kind ≠ .token .eof) :
    EndsText (attach l xs).2 := by
  induction xs with
  | nil => exact ⟨[], Token.endOfText l [], rfl, rfl, rfl, fun t ht => absurd ht List.not_mem_nil⟩
  | cons x xs ih =>
    have hmore := ih fun y hy => h y (List.mem_cons_of_mem x hy)
    cases hx : x.kind with
    | trivia kind => rwa [attach_trivia hx]
    | token kind =>
      have hkind : kind ≠ .eof := fun heof => h x List.mem_cons_self (heof ▸ hx)
      rw [attach_token hx]
      exact (hmore.leadWith _).cons hkind

theorem endsText_of_tokenize {text : String} {ts : List Token} (h : tokenize text = .ok ts) :
    EndsText ts := by
  obtain ⟨xs, hscan, rfl⟩ := tokenize_eq_ok h
  exact (endsText_attach _ fun x hx => (Lexeme.visible_of_scan hscan x hx).2).leadWith _

/-- How the tokens of a text own the trivia that its lexemes have between them. -/
structure OwnTrivia (text : String) (xs : List Lexeme) (ts : List Token) : Prop where
  /-- Trivia in front of the first token leads it. -/
  first : ∃ t more, ts = t :: more ∧ InFront xs t.leading t
  /-- Trivia between two tokens is divided at its first newline. -/
  between : ∀ front a b back, ts = front ++ a :: b :: back →
    ∃ run, Between xs a run b ∧ Divided run a.trailing b.leading
  /-- The end of the text is the last token and no other one, and nothing trails it. -/
  last : EndsText ts
  /-- At most one line comment trails a token. -/
  oneComment : ∀ t ∈ ts, t.trailing.countP (·.kind == .lineComment) ≤ 1
  /-- The comment that trails a token is the one that follows it in the text, with nothing but
  blanks in front. -/
  comment : ∀ t ∈ ts, ∃ before behind, text.toList = before ++ (t.text.toList ++ behind) ∧
    t.location = Location.start.advance before ∧
    ∀ body, t.trailingComment? = some body ↔
      ∃ blanks rest, behind = blanks ++ '/' :: '/' :: rest ∧
        (∀ c ∈ blanks, isSeparator c = true) ∧
        body = String.ofList ((rest.takeWhile isInLine).dropWhile (· == '/'))

/-- **Trivia and their owners.**  The tokens of a text own its trivia as `OwnTrivia` says: all that
is in front of the first token, and behind that each run through its first newline or from there
on. -/
theorem tokenize_ownTrivia {text : String} {ts : List Token} (h : tokenize text = .ok ts) :
    ∃ xs, Lexeme.scan .start text.toList = .ok xs ∧ OwnTrivia text xs ts := by
  have hlast := endsText_of_tokenize h
  obtain ⟨xs, hscan, rfl⟩ := tokenize_eq_ok h
  obtain ⟨first, more, hfirst, -⟩ := exists_first_attach (Location.start.advance text.toList) xs
  have hplaced : ∀ t ∈ tokensOf (Location.start.advance text.toList) xs,
      t.trailing.countP (·.kind == .lineComment) ≤ 1 ∧
        ∃ before behind, text.toList = before ++ (t.text.toList ++ behind) ∧
          t.location = Location.start.advance before ∧
          t.trailingComment? = commentBehind? behind :=
    forall_mem_leadWith (placed_of_scan hscan) (fun _ _ ht => ht) _
  refine ⟨xs, hscan, ?_, ?_, hlast, fun t ht => (hplaced t ht).1, ?_⟩
  · rw [tokensOf, hfirst]
    exact ⟨_, more, rfl, (attach_inFront hfirst).leading _⟩
  · intro front a b back hsplit
    obtain ⟨front', leading, hsplit'⟩ := neighbours_of_leadWith hsplit
    obtain ⟨run, hbetween, hdivided⟩ := attach_between _ _ hsplit'
    exact ⟨run, hbetween, hdivided⟩
  · intro t ht
    obtain ⟨-, before, behind, htext, hlocation, hcomment⟩ := hplaced t ht
    refine ⟨before, behind, htext, hlocation, fun body => ?_⟩
    rw [hcomment, commentBehind?_eq_some]

theorem tokenize_ownTrivia_notedText :
    tokenize notedText = .ok notedTokens ∧
    ∃ xs, Lexeme.scan .start notedText.toList = .ok xs ∧ OwnTrivia notedText xs notedTokens :=
  ⟨tokenize_notedText, tokenize_ownTrivia tokenize_notedText⟩

end KernelGen.Source
