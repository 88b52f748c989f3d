import KernelGen.Proofs.Schema.Derivation
import KernelGen.Proofs.Source.Lossless
set_option autoImplicit false

/-!
# Schema: texts and derivations

A text has a signature exactly when its tokens have a derivation, and they have one derivation
at most.

That there is one is shown nonterminal by nonterminal: where two derivations begin with the same
tokens, the token at which the first of them stops is none with which the second could go on.
-/

namespace KernelGen.Schema

open Source

/-! ## Trees are determined by their tokens -/

section Parts

variable {τ : Type} {tokens : τ → List Shape} {Stops : TokenKind → Prop}

/-! Which token comes next. -/

theorem nextKind_behind (P : TokenKind → Prop) {kind : TokenKind} (hkind : P kind) (t? : Option τ)
    {more : List Shape} (hmore : P (nextKind more)) :
    P (nextKind (optionalTokens (fun t => mark kind :: tokens t) t? ++ more)) := by
  cases t? with
  | none => exact hmore
  | some t => exact hkind

theorem nextKind_flag (P : TokenKind → Prop) {kind : TokenKind} (hkind : P kind) (present : Bool)
    {more : List Shape} (hmore : P (nextKind more)) :
    P (nextKind (flagTokens kind present ++ more)) := by
  cases present with
  | false => exact hmore
  | true => exact hkind

theorem nextKind_repeated (P : TokenKind → Prop)
    (hstarts : ∀ t more, P (nextKind (tokens t ++ more))) (ts : List τ) {more : List Shape}
    (hmore : P (nextKind more)) : P (nextKind (ts.flatMap tokens ++ more)) := by
  cases ts with
  | nil => exact hmore
  | cons t ts =>
    rw [List.flatMap_cons, List.append_assoc]
    exact hstarts t _

theorem nextKind_separated (P : TokenKind → Prop)
    (hstarts : ∀ t more, P (nextKind (tokens t ++ more))) (kind : TokenKind) (t : τ)
    (ts : List τ) (more : List Shape) :
    P (nextKind (separatedTokens kind tokens (t :: ts) ++ more)) := by
  cases ts with
  | nil =>
    rw [separatedTokens_singleton]
    exact hstarts t more
  | cons u ts =>
    rw [separatedTokens_cons, List.append_assoc]
    exact hstarts t _

/-- Two trees have the same tokens, in front of tokens at which both stop, only if they are the
same tree. -/
def Unambiguous (tokens : τ → List Shape) (Stops : TokenKind → Prop) : Prop :=
  ∀ t t' more more', tokens t ++ more = tokens t' ++ more' → Stops (nextKind more) →
    Stops (nextKind more') → t = t' ∧ more = more'

theorem Unambiguous.behind (h : Unambiguous tokens Stops) (kind : TokenKind) :
    Unambiguous (optionalTokens fun t => mark kind :: tokens t) fun k => Stops k ∧ k ≠ kind := by
  intro t? t'? more more' heq hmore hmore'
  cases t? with
  | none =>
    cases t'? with
    | none => exact ⟨rfl, heq⟩
    | some t' => exact absurd (congrArg nextKind heq) hmore.2
  | some t =>
    cases t'? with
    | none => exact absurd (congrArg nextKind heq).symm hmore'.2
    | some t' =>
      obtain ⟨rfl, hrest⟩ := h _ _ _ _ (List.cons.inj heq).2 hmore.1 hmore'.1
      exact ⟨rfl, hrest⟩

theorem Unambiguous.repeated (h : Unambiguous tokens fun _ => True) (Starts : TokenKind → Prop)
    (hstarts : ∀ t more, Starts (nextKind (tokens t ++ more))) :
    Unambiguous (List.flatMap tokens) fun k => ¬ Starts k := by
  intro ts ts' more more' heq hmore hmore'
  induction ts generalizing ts' with
  | nil =>
    cases ts' with
    | nil => exact ⟨rfl, heq⟩
    | cons t' ts' =>
      rw [List.flatMap_cons, List.append_assoc, List.flatMap_nil, List.nil_append] at heq
      rw [heq] at hmore
      exact absurd (hstarts t' _) hmore
  | cons t ts ih =>
    rw [List.flatMap_cons, List.append_assoc] at heq
    cases ts' with
    | nil =>
      rw [List.flatMap_nil, List.nil_append] at heq
      rw [← heq] at hmore'
      exact absurd (hstarts t _) hmore'
    | cons t' ts' =>
      rw [List.flatMap_cons, List.append_assoc] at heq
      obtain ⟨rfl, hrest⟩ := h _ _ _ _ heq trivial trivial
      obtain ⟨rfl, hlast⟩ := ih _ hrest
      exact ⟨rfl, hlast⟩

theorem Unambiguous.separated (h : Unambiguous tokens Stops) {kind : TokenKind}
    (hmark : Stops kind) {ts ts' : List τ} (hne : ts ≠ []) (hne' : ts' ≠ [])
    {more more' : List Shape}
    (heq : separatedTokens kind tokens ts ++ more = separatedTokens kind tokens ts' ++ more')
    (hmore : Stops (nextKind more) ∧ nextKind more ≠ kind)
    (hmore' : Stops (nextKind more') ∧ nextKind more' ≠ kind) : ts = ts' ∧ more = more' := by
  induction ts generalizing ts' with
  | nil => exact absurd rfl hne
  | cons t ts ih =>
    obtain ⟨t', ts', rfl⟩ := List.exists_cons_of_ne_nil hne'
    cases ts with
    | nil =>
      cases ts' with
      | nil =>
        rw [separatedTokens_singleton, separatedTokens_singleton] at heq
        obtain ⟨rfl, hrest⟩ := h _ _ _ _ heq hmore.1 hmore'.1
        exact ⟨rfl, hrest⟩
      | cons u' us' =>
        rw [separatedTokens_singleton, separatedTokens_cons, List.append_assoc] at heq
        obtain ⟨-, hrest⟩ := h _ _ _ _ heq hmore.1 hmark
        exact absurd (congrArg nextKind hrest) hmore.2
    | cons u us =>
      rw [separatedTokens_cons, List.append_assoc] at heq
      cases ts' with
      | nil =>
        rw [separatedTokens_singleton] at heq
        obtain ⟨-, hrest⟩ := h _ _ _ _ heq hmark hmore'.1
        exact absurd (congrArg nextKind hrest).symm hmore'.2
      | cons u' us' =>
        rw [separatedTokens_cons, List.append_assoc] at heq
        obtain ⟨rfl, hrest⟩ := h _ _ _ _ heq hmark hmark
        obtain ⟨hus, hlast⟩ := ih (List.cons_ne_nil u us) (List.cons_ne_nil u' us')
          (List.cons.inj hrest).2
        exact ⟨congrArg (t :: ·) hus, hlast⟩

theorem Unambiguous.listed (h : Unambiguous tokens Stops) (hcomma : Stops .comma)
    (hclose : Stops .closeParen) (hstart : ∀ t more, nextKind (tokens t ++ more) ≠ .closeParen) :
    Unambiguous (separatedTokens .comma tokens) (· = .closeParen) := by
  intro ts ts' more more' heq hmore hmore'
  have hne : ∀ t ts more,
      nextKind (separatedTokens .comma tokens (t :: ts) ++ more) ≠ .closeParen :=
    nextKind_separated (· ≠ .closeParen) hstart .comma
  have hends : ∀ ks, nextKind ks = .closeParen → Stops (nextKind ks) ∧ nextKind ks ≠ .comma := by
    intro ks hks
    rw [hks]
    exact ⟨hclose, by decide⟩
  cases ts with
  | nil =>
    cases ts' with
    | nil => exact ⟨rfl, heq⟩
    | cons t' ts' =>
      exact absurd ((congrArg nextKind heq).symm.trans hmore) (hne t' ts' more')
  | cons t ts =>
    cases ts' with
    | nil =>
      exact absurd ((congrArg nextKind heq).trans hmore') (hne t ts more)
    | cons t' ts' =>
      exact h.separated hcomma (List.cons_ne_nil t ts) (List.cons_ne_nil t' ts') heq
        (hends more hmore) (hends more' hmore')

end Parts

theorem AliasMember.unambiguous : Unambiguous (fun m => [AliasMember.token m]) fun _ => True := by
  intro m m' more more' heq _ _
  obtain ⟨hhead, hmore⟩ := List.cons.inj heq
  refine ⟨?_, hmore⟩
  cases m <;> cases m' <;> simp_all [AliasMember.token, mark, word]

theorem SetTree.unambiguous : Unambiguous SetTree.tokens (· ≠ .pipe) := by
  rintro ⟨members, hne⟩ ⟨members', hne'⟩ more more' heq hmore hmore'
  obtain ⟨rfl, hrest⟩ := AliasMember.unambiguous.separated trivial hne hne' heq
    ⟨trivial, hmore⟩ ⟨trivial, hmore'⟩
  exact ⟨rfl, hrest⟩

theorem flag_unambiguous (kind : TokenKind) : Unambiguous (flagTokens kind) (· ≠ kind) := by
  intro b b' more more' heq hmore hmore'
  cases b <;> cases b'
  · exact ⟨rfl, heq⟩
  · exact absurd (congrArg nextKind heq) hmore
  · exact absurd (congrArg nextKind heq).symm hmore'
  · exact ⟨rfl, (List.cons.inj heq).2⟩

theorem AnnotationTree.unambiguous : Unambiguous AnnotationTree.innerTokens fun _ => True := by
  rintro ⟨before, writable, after?⟩ ⟨before', writable', after?'⟩ more more' heq - -
  simp only [innerTokens, List.append_assoc] at heq
  have hclose : ∀ k ms, k ≠ .closeParen → nextKind ([mark .closeParen] ++ ms) ≠ k :=
    fun k ms hk => Ne.symm hk
  have hbang : ∀ (s? : Option SetTree) ms, nextKind (optionalTokens
      (fun s => mark .arrow :: s.tokens) s? ++ ([mark .closeParen] ++ ms)) ≠ .bang :=
    fun s? ms => nextKind_behind (· ≠ .bang) (by decide) s? (hclose _ ms (by decide))
  have hpipe : ∀ b (s? : Option SetTree) ms, nextKind (flagTokens .bang b ++ (optionalTokens
      (fun s => mark .arrow :: s.tokens) s? ++ ([mark .closeParen] ++ ms))) ≠ .pipe :=
    fun b s? ms => nextKind_flag (· ≠ .pipe) (by decide) b
      (nextKind_behind (· ≠ .pipe) (by decide) s? (hclose _ ms (by decide)))
  obtain ⟨rfl, h₁⟩ := SetTree.unambiguous _ _ _ _ heq (hpipe _ _ _) (hpipe _ _ _)
  obtain ⟨rfl, h₂⟩ := flag_unambiguous .bang _ _ _ _ h₁ (hbang _ _) (hbang _ _)
  obtain ⟨rfl, h₃⟩ := SetTree.unambiguous.behind .arrow _ _ _ _ h₂
    ⟨hclose _ _ (by decide), hclose _ _ (by decide)⟩
    ⟨hclose _ _ (by decide), hclose _ _ (by decide)⟩
  exact ⟨rfl, (List.cons.inj h₃).2⟩

theorem SizeTree.eq_of_digits {s s' : SizeTree} (h : s.digits = s'.digits) : s = s' := by
  cases s
  cases s'
  cases h
  rfl

theorem SuffixTree.unambiguous : Unambiguous SuffixTree.tokens fun _ => True := by
  intro s s' more more' heq _ _
  match s, s' with
  | .optional, .optional => exact ⟨rfl, (List.cons.inj heq).2⟩
  | .array none, .array none => exact ⟨rfl, (List.cons.inj (List.cons.inj heq).2).2⟩
  | .array (some size), .array (some size') =>
    obtain ⟨hnumber, hrest⟩ := List.cons.inj (List.cons.inj heq).2
    have hsize : size = size' := SizeTree.eq_of_digits (congrArg Shape.text hnumber)
    exact ⟨congrArg (fun s => SuffixTree.array (some s)) hsize, (List.cons.inj hrest).2⟩
  | .optional, .array _ => cases congrArg nextKind heq
  | .array _, .optional => cases congrArg nextKind heq
  | .array none, .array (some _) => cases congrArg nextKind (List.cons.inj heq).2
  | .array (some _), .array none => cases congrArg nextKind (List.cons.inj heq).2

theorem SuffixTree.nextKind_tokens (s : SuffixTree) (more : List Shape) :
    nextKind (s.tokens ++ more) = .question ∨ nextKind (s.tokens ++ more) = .openBracket := by
  cases s with
  | optional => exact .inl rfl
  | array => exact .inr rfl

theorem TypeTree.unambiguous : Unambiguous TypeTree.tokens EndsType := by
  rintro ⟨name, annotation?, suffixes⟩ ⟨name', annotation?', suffixes'⟩ more more' heq hmore hmore'
  simp only [tokens, List.cons_append, List.append_assoc] at heq
  obtain ⟨hname, hrest⟩ := List.cons.inj heq
  obtain rfl : name = name' := congrArg Shape.text hname
  have hparen : ∀ (ss : List SuffixTree) ms, EndsType (nextKind ms) →
      nextKind (ss.flatMap SuffixTree.tokens ++ ms) ≠ .openParen := by
    intro ss ms hms
    refine nextKind_repeated (· ≠ .openParen) ?_ ss hms.1
    intro s ms
    rcases s.nextKind_tokens ms with h | h <;> rw [h] <;> decide
  have hsuffix : ∀ k, EndsType k → ¬ (k = .question ∨ k = .openBracket) :=
    fun k hk => not_or.2 hk.2
  obtain ⟨rfl, h₁⟩ := AnnotationTree.unambiguous.behind .openParen _ _ _ _ hrest
    ⟨trivial, hparen _ _ hmore⟩ ⟨trivial, hparen _ _ hmore'⟩
  obtain ⟨rfl, h₂⟩ := SuffixTree.unambiguous.repeated (fun k => k = .question ∨ k = .openBracket)
    SuffixTree.nextKind_tokens _ _ _ _ h₁ (hsuffix _ hmore) (hsuffix _ hmore')
  exact ⟨rfl, h₂⟩

theorem name_unambiguous : Unambiguous nameTokens (· ≠ .identifier) := by
  intro name? name?' more more' heq hmore hmore'
  cases name? with
  | none =>
    cases name?' with
    | none => exact ⟨rfl, heq⟩
    | some => exact absurd (congrArg nextKind heq) hmore
  | some name =>
    cases name?' with
    | none => exact absurd (congrArg nextKind heq).symm hmore'
    | some name' =>
      obtain ⟨hname, hrest⟩ := List.cons.inj heq
      exact ⟨congrArg some (congrArg Shape.text hname), hrest⟩

theorem DefaultTree.eq_of_tokens {d d' : DefaultTree} (h : d.tokens = d'.tokens) : d = d' := by
  cases d
  cases d'
  cases h
  rfl

/-- A default goes up to the first comma or closing bracket for which no bracket is open. -/
theorem DefaultTree.maximal {d d' : DefaultTree} {ks more : List Shape}
    (h : d'.tokens = d.tokens ++ ks) (hends : EndsDefault (nextKind (ks ++ more))) : ks = [] := by
  cases ks with
  | nil => rfl
  | cons k ks =>
    have hinside : closed d.tokens < opened d.tokens := d'.inside d.tokens k ks h hends
    exact absurd d.balanced.symm hinside.ne

theorem DefaultTree.unambiguous : Unambiguous DefaultTree.tokens EndsDefault := by
  intro d d' more more' heq hmore hmore'
  rcases List.append_eq_append_iff.1 heq with ⟨ks, htokens, rfl⟩ | ⟨ks, htokens, rfl⟩
  · obtain rfl := DefaultTree.maximal htokens hmore
    rw [List.append_nil] at htokens
    exact ⟨DefaultTree.eq_of_tokens htokens.symm, rfl⟩
  · obtain rfl := DefaultTree.maximal htokens hmore'
    rw [List.append_nil] at htokens
    exact ⟨DefaultTree.eq_of_tokens htokens, rfl⟩

/-- What stands behind the type of a parameter ends it. -/
theorem endsType_nameTokens (name? : Option String) {more : List Shape}
    (hmore : EndsType (nextKind more)) : EndsType (nextKind (nameTokens name? ++ more)) :=
  endsType_optionalName (name_denotes name?) hmore

theorem ParamTree.unambiguous : Unambiguous ParamTree.tokens EndsItem := by
  intro p p' more more' heq hmore hmore'
  cases p with
  | marker =>
    cases p' with
    | marker => exact ⟨rfl, (List.cons.inj heq).2⟩
    | value => cases congrArg nextKind heq
  | value type name? default? =>
    cases p' with
    | marker => cases congrArg nextKind heq
    | value type' name?' default?' =>
      simp only [tokens, List.append_assoc] at heq
      have hname : ∀ (d? : Option DefaultTree) ms, EndsItem (nextKind ms) →
          nextKind (optionalTokens (fun d => mark .equals :: d.tokens) d? ++ ms) ≠ .identifier :=
        fun d? ms hms =>
          nextKind_behind (· ≠ .identifier) (by decide) d? (hms.ne (by decide) (by decide))
      have htype : ∀ (n? : Option String) (d? : Option DefaultTree) ms, EndsItem (nextKind ms) →
          EndsType (nextKind (nameTokens n? ++
            (optionalTokens (fun d => mark .equals :: d.tokens) d? ++ ms))) :=
        fun n? d? ms hms => endsType_nameTokens n?
          (nextKind_behind EndsType endsType_equals d? hms.endsType)
      obtain ⟨rfl, h₁⟩ :=
        TypeTree.unambiguous _ _ _ _ heq (htype _ _ _ hmore) (htype _ _ _ hmore')
      obtain ⟨rfl, h₂⟩ := name_unambiguous _ _ _ _ h₁ (hname _ _ hmore) (hname _ _ hmore')
      obtain ⟨rfl, h₃⟩ := DefaultTree.unambiguous.behind .equals _ _ _ _ h₂
        ⟨hmore.endsDefault, hmore.ne (by decide) (by decide)⟩
        ⟨hmore'.endsDefault, hmore'.ne (by decide) (by decide)⟩
      exact ⟨rfl, h₃⟩

theorem ElementTree.unambiguous : Unambiguous ElementTree.tokens EndsItem := by
  rintro ⟨type, name?⟩ ⟨type', name?'⟩ more more' heq hmore hmore'
  simp only [tokens, List.append_assoc] at heq
  obtain ⟨rfl, h₁⟩ := TypeTree.unambiguous _ _ _ _ heq
    (endsType_nameTokens name? hmore.endsType) (endsType_nameTokens name?' hmore'.endsType)
  obtain ⟨rfl, h₂⟩ := name_unambiguous _ _ _ _ h₁ (hmore.ne (by decide) (by decide))
    (hmore'.ne (by decide) (by decide))
  exact ⟨rfl, h₂⟩

theorem ElementTree.nextKind_tokens (e : ElementTree) (more : List Shape) :
    nextKind (e.tokens ++ more) ≠ .closeParen := TokenKind.noConfusion

theorem ParamTree.nextKind_tokens (p : ParamTree) (more : List Shape) :
    nextKind (p.tokens ++ more) ≠ .closeParen := nextKind_param p.denotes

theorem ReturnTree.unambiguous : Unambiguous ReturnTree.tokens EndsType := by
  intro r r' more more' heq hmore hmore'
  cases r with
  | tuple elements =>
    cases r' with
    | tuple elements' =>
      simp only [tokens, List.cons_append, List.append_assoc] at heq
      obtain ⟨rfl, h₁⟩ := ElementTree.unambiguous.listed (.inl rfl) (.inr rfl)
        ElementTree.nextKind_tokens _ _ _ _ (List.cons.inj heq).2 rfl rfl
      exact ⟨rfl, (List.cons.inj h₁).2⟩
    | value => cases congrArg nextKind heq
  | value type =>
    cases r' with
    | tuple => cases congrArg nextKind heq
    | value type' =>
      obtain ⟨rfl, h₁⟩ := TypeTree.unambiguous _ _ _ _ heq hmore hmore'
      exact ⟨rfl, h₁⟩

theorem word_unambiguous : Unambiguous (fun name => [word name]) fun _ => True := by
  intro name name' more more' heq _ _
  obtain ⟨hname, hrest⟩ := List.cons.inj heq
  exact ⟨congrArg Shape.text hname, hrest⟩

theorem segment_unambiguous :
    Unambiguous (fun name => [mark .doubleColon, word name]) fun _ => True := by
  intro name name' more more' heq _ _
  exact word_unambiguous name name' more more' (List.cons.inj heq).2 trivial trivial

/-- Two derivations of a schema from the same tokens are the same derivation. -/
theorem SchemaTree.eq_of_tokens {d d' : SchemaTree} (h : d.tokens = d'.tokens) : d = d' := by
  obtain ⟨first, more, overload?, params, returned⟩ := d
  obtain ⟨first', more', overload?', params', returned'⟩ := d'
  have hend : EndsType (nextKind []) := ⟨by decide, by decide, by decide⟩
  obtain ⟨hfirst, hrest⟩ := List.cons.inj h
  obtain rfl : first = first' := congrArg Shape.text hfirst
  simp only [List.append_assoc] at hrest
  have hsegments : ∀ (name? : Option String) (ks : List Shape), nextKind (optionalTokens
      (fun name => [mark .dot, word name]) name? ++ mark .openParen :: ks) ≠ .doubleColon := by
    intro name? ks
    cases name? <;> exact TokenKind.noConfusion
  obtain ⟨rfl, h₁⟩ := segment_unambiguous.repeated (· = .doubleColon) (fun _ _ => rfl) _ _ _ _ hrest
    (hsegments _ _) (hsegments _ _)
  obtain ⟨rfl, h₂⟩ := word_unambiguous.behind .dot _ _ _ _ h₁
    ⟨trivial, TokenKind.noConfusion⟩ ⟨trivial, TokenKind.noConfusion⟩
  obtain ⟨rfl, h₃⟩ := ParamTree.unambiguous.listed (.inl rfl) (.inr rfl)
    ParamTree.nextKind_tokens _ _ _ _ (List.cons.inj h₂).2 rfl rfl
  have h₄ := (List.cons.inj (List.cons.inj h₃).2).2
  rw [← List.append_nil returned.tokens, ← List.append_nil returned'.tokens] at h₄
  obtain ⟨rfl, -⟩ := ReturnTree.unambiguous _ _ _ _ h₄ hend hend
  rfl

/-! ## Schemas and their derivations -/

/-- The last token is not the end of the text. -/
def EndsBefore (ks : List Shape) : Prop := ∃ front k, ks = front ++ [k] ∧ k.kind ≠ .eof

theorem EndsBefore.last {k : Shape} (h : k.kind ≠ .eof) : EndsBefore [k] := ⟨[], k, rfl, h⟩

theorem EndsBefore.behind {ks : List Shape} (h : EndsBefore ks) (front : List Shape) :
    EndsBefore (front ++ ks) := by
  obtain ⟨front', k, rfl, hk⟩ := h
  exact ⟨front ++ front', k, (List.append_assoc _ _ _).symm, hk⟩

theorem EndsBefore.cons {ks : List Shape} (h : EndsBefore ks) (k : Shape) : EndsBefore (k :: ks) :=
  h.behind [k]

theorem endsBefore_closeParen : EndsBefore [mark .closeParen] := .last TokenKind.noConfusion

theorem SuffixTree.endsBefore (s : SuffixTree) : EndsBefore s.tokens := by
  cases s with
  | optional => exact .last TokenKind.noConfusion
  | array size? => exact ((EndsBefore.last TokenKind.noConfusion).behind _).cons _

theorem TypeTree.endsBefore (t : TypeTree) : EndsBefore t.tokens := by
  obtain ⟨name, annotation?, suffixes⟩ := t
  rcases List.eq_nil_or_concat suffixes with rfl | ⟨ss, s, rfl⟩
  · rw [tokens, List.flatMap_nil, List.append_nil]
    cases annotation? with
    | none => exact .last TokenKind.noConfusion
    | some a => exact ((endsBefore_closeParen.behind _).cons _).cons _
  · have hlast : (ss.concat s).flatMap SuffixTree.tokens =
        ss.flatMap SuffixTree.tokens ++ s.tokens := by simp
    rw [tokens, hlast]
    exact ((s.endsBefore.behind _).behind _).cons _

theorem ReturnTree.endsBefore (r : ReturnTree) : EndsBefore r.tokens := by
  cases r with
  | tuple elements => exact (endsBefore_closeParen.behind _).cons _
  | value type => exact type.endsBefore

theorem SchemaTree.endsBefore (d : SchemaTree) : EndsBefore d.tokens :=
  (((((d.returned.endsBefore.cons _).cons _).behind _).cons _).behind _).cons _

/-- Of the tokens of a text, a derivation that goes up to an end goes up to the end. -/
theorem SchemaTree.derives_of_eof {d : SchemaTree} {text : String} {ts : List Token}
    {more : List Shape} (h : tokenize text = .ok ts) (hts : ts.map Token.shape = d.tokens ++ more)
    (heof : nextKind more = .eof) : d.Derives ts := by
  obtain ⟨ks, hcuts, hks⟩ := exists_cuts h
  have hends : ks ++ [Shape.endOfText] = d.tokens ++ more := hks.symm.trans hts
  cases hmore : more.getLast? with
  | none =>
    -- the last token of the text would be the last one of the derivation
    obtain ⟨front, k, htokens, hk⟩ := d.endsBefore
    rw [List.getLast?_eq_none_iff.1 hmore, List.append_nil, htokens] at hends
    cases (List.append_inj' hends rfl).2
    exact absurd rfl hk
  | some k =>
    obtain ⟨front, rfl⟩ := List.getLast?_eq_some_iff.1 hmore
    rw [← List.append_assoc] at hends
    obtain ⟨rfl, hk⟩ := List.append_inj' hends rfl
    rw [Derives, hts, ← hk]
    cases front with
    | nil => rfl
    | cons k' front =>
      obtain ⟨c, r, chars, rest, hfirst, -⟩ := hcuts.spelled k'
        (List.mem_append_right d.tokens List.mem_cons_self)
      rw [show k'.kind = .eof from heof] at hfirst
      exact absurd hfirst Lexeme.kind_ne_eof

/-- **A text with tokens has a signature exactly when its tokens have a derivation.**  The
signature is the one that the derivation denotes, and there is one derivation only. -/
theorem Signature.ofText_derivable {text : String} {ts : List Token}
    (h : tokenize text = .ok ts) :
    ((∃ s, Signature.ofText text = .ok s) ↔ ∃ d : SchemaTree, d.Derives ts) ∧
    (∀ d : SchemaTree, d.Derives ts → Signature.ofText text = .ok d.signature) ∧
    ∀ d d' : SchemaTree, d.Derives ts → d'.Derives ts → d = d' := by
  have hofText : ∀ s, Signature.ofText text = .ok s ↔ Signature.ofTokens ts = .ok s := by
    intro s
    simp only [Signature.ofText, Source.read, h]
    cases Signature.ofTokens ts <;> simp
  have hcomplete : ∀ d : SchemaTree, d.Derives ts → Signature.ofText text = .ok d.signature :=
    fun d hd => (hofText _).2 (Signature.ofTokens_complete d.denotes hd rfl)
  refine ⟨⟨?_, ?_⟩, hcomplete, ?_⟩
  · rintro ⟨s, hs⟩
    obtain ⟨ks, more, hks, heof, hdenotes⟩ := Signature.ofTokens_sound ((hofText s).1 hs)
    have hreadable : Readable ks := (hks ▸ readable_of_tokenize h).left
    obtain ⟨d, rfl, -⟩ := SchemaTree.hasTrees _ _ hdenotes hreadable
    exact ⟨d, SchemaTree.derives_of_eof h hks heof⟩
  · rintro ⟨d, hd⟩
    exact ⟨d.signature, hcomplete d hd⟩
  · intro d d' hd hd'
    exact SchemaTree.eq_of_tokens (List.append_cancel_right (hd.symm.trans hd'))

/-- A schema that has a derivation, and one that has tokens but no derivation: a default may
not be empty. -/
theorem spacedSchema_derivable :
    (∃ (ts : List Token) (d : SchemaTree), tokenize spacedSchema = .ok ts ∧ d.Derives ts ∧
      d.signature = spacedSignature ∧ ∀ d' : SchemaTree, d'.Derives ts → d' = d) ∧
    ∃ ts : List Token, tokenize "f(int x=) -> int" = .ok ts ∧ ¬ ∃ d : SchemaTree, d.Derives ts := by
  constructor
  · have hread : Signature.ofText spacedSchema = .ok spacedSignature := by cbv
    obtain ⟨ts, hts⟩ : ∃ ts, tokenize spacedSchema = .ok ts := by
      have htext := hread
      rw [Signature.ofText, Source.read] at htext
      split at htext
      · cases htext
      · rename_i ts hts
        exact ⟨ts, hts⟩
    obtain ⟨hiff, hdenotes, hunique⟩ := Signature.ofText_derivable hts
    obtain ⟨d, hd⟩ := hiff.1 ⟨_, hread⟩
    have hsignature : d.signature = spacedSignature :=
      Except.ok.inj ((hdenotes d hd).symm.trans hread)
    exact ⟨ts, d, hts, hd, hsignature, fun d' hd' => hunique d' d hd' hd⟩
  · have hrefused : (Signature.ofText "f(int x=) -> int").toOption = none := by cbv
    obtain ⟨ts, hts⟩ : ∃ ts, tokenize "f(int x=) -> int" = .ok ts := ⟨_, by cbv⟩
    refine ⟨ts, hts, fun hd => ?_⟩
    obtain ⟨s, hs⟩ := (Signature.ofText_derivable hts).1.2 hd
    rw [hs] at hrefused
    cases hrefused

end KernelGen.Schema
