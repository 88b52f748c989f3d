import KernelGen.Source.Tokenize
set_option autoImplicit false

/-!
# Source: what a parser sees of a text

A parser decides by the kinds and the texts of tokens, and by nothing else: not by where they
stand, nor by the trivia around them.  `Cuts` says which kinds and texts the tokens of a text
have, without locations.  `exists_cuts` and `exists_tokens` say that this is what tokenizing a
text finds.
-/

namespace KernelGen.Source

/-- The kind and the text of a token. -/
structure Shape where
  kind : TokenKind
  text : String
  deriving DecidableEq, Repr, Inhabited

/-- What a parser sees of a token. -/
def Token.shape (t : Token) : Shape := ⟨t.kind, t.text⟩

/-- What a parser sees of the end of a text. -/
def Shape.endOfText : Shape := ⟨.eof, ""⟩

/-- What a parser sees of a lexeme, unless it is trivia. -/
def Lexeme.shape? (lexeme : Lexeme) : Option Shape :=
  match lexeme.kind with
  | .token kind => some ⟨kind, String.ofList lexeme.chars⟩
  | .trivia _ => none

/-- Cutting lexemes off a text gives tokens of the shapes listed, and leaves a rest. -/
inductive Cuts : List Char → List Shape → List Char → Prop where
  | done {cs : List Char} : Cuts cs [] cs
  | token {c : Char} {r chars more rest : List Char} {kind : TokenKind} {ks : List Shape} :
      Lexeme.first c r = .ok (.token kind, chars, more) → Cuts more ks rest →
      Cuts (c :: r) (⟨kind, String.ofList chars⟩ :: ks) rest
  | trivia {c : Char} {r chars more rest : List Char} {kind : TriviaKind} {ks : List Shape} :
      Lexeme.first c r = .ok (.trivia kind, chars, more) → Cuts more ks rest →
      Cuts (c :: r) ks rest

/-- A shape that a token of some text has. -/
def Shape.Spelled (k : Shape) : Prop :=
  ∃ (c : Char) (r chars more : List Char),
    Lexeme.first c r = .ok (.token k.kind, chars, more) ∧ k.text = String.ofList chars

namespace Cuts

theorem append {cs more rest : List Char} {ks ks' : List Shape} (h : Cuts cs ks more)
    (h' : Cuts more ks' rest) : Cuts cs (ks ++ ks') rest := by
  induction h with
  | done => exact h'
  | token hfirst _ ih => exact .token hfirst (ih h')
  | trivia hfirst _ ih => exact .trivia hfirst (ih h')

theorem spelled {cs rest : List Char} {ks : List Shape} (h : Cuts cs ks rest) :
    ∀ k ∈ ks, k.Spelled := by
  induction h with
  | done => exact fun k hk => absurd hk List.not_mem_nil
  | token hfirst _ ih =>
    intro k hk
    rcases List.mem_cons.1 hk with rfl | hk
    · exact ⟨_, _, _, _, hfirst, rfl⟩
    · exact ih k hk
  | trivia _ _ ih => exact ih

theorem of_scan {l : Location} {cs : List Char} {lexemes : List Lexeme}
    (h : Lexeme.scan l cs = .ok lexemes) : Cuts cs (lexemes.filterMap Lexeme.shape?) [] := by
  fun_induction Lexeme.scan l cs generalizing lexemes with
  | case1 l =>
    cases h
    exact .done
  | case2 => cases h
  | case3 => cases h
  | case4 l c r kind chars more hfirst lexemes' _ ih =>
    cases h
    have hmore := ih ‹_›
    cases kind with
    | token kind => exact .token hfirst hmore
    | trivia kind => exact .trivia hfirst hmore

theorem scan {cs rest : List Char} {ks : List Shape} (h : Cuts cs ks rest) (hrest : rest = [])
    (l : Location) :
    ∃ lexemes, Lexeme.scan l cs = .ok lexemes ∧ lexemes.filterMap Lexeme.shape? = ks := by
  induction h generalizing l with
  | done =>
    subst hrest
    exact ⟨[], by rw [Lexeme.scan], rfl⟩
  | @token c r chars more rest kind ks hfirst _ ih =>
    obtain ⟨lexemes, hscan, hshapes⟩ := ih hrest (l.advance chars)
    refine ⟨⟨.token kind, chars, l⟩ :: lexemes, ?_, ?_⟩
    · rw [Lexeme.scan]
      split
      · rename_i he
        cases hfirst.symm.trans he
      · rename_i he
        cases hfirst.symm.trans he
        rw [hscan]
    · rw [← hshapes]
      rfl
  | @trivia c r chars more rest kind ks hfirst _ ih =>
    obtain ⟨lexemes, hscan, hshapes⟩ := ih hrest (l.advance chars)
    refine ⟨⟨.trivia kind, chars, l⟩ :: lexemes, ?_, hshapes⟩
    rw [Lexeme.scan]
    split
    · rename_i he
      cases hfirst.symm.trans he
    · rename_i he
      cases hfirst.symm.trans he
      rw [hscan]

end Cuts

/-! ## Tokens -/

theorem map_shape_leadWith (run : List Trivia) (ts : List Token) :
    (leadWith run ts).map Token.shape = ts.map Token.shape := by
  cases ts <;> rfl

theorem map_shape_attach (l : Location) (lexemes : List Lexeme) :
    (attach l lexemes).2.map Token.shape =
      lexemes.filterMap Lexeme.shape? ++ [Shape.endOfText] := by
  induction lexemes with
  | nil => rfl
  | cons lexeme lexemes ih =>
    obtain ⟨kind, chars, place⟩ := lexeme
    cases kind with
    | trivia kind => exact ih
    | token kind =>
      rw [attach, List.map_cons, map_shape_leadWith, ih]
      rfl

/-- The tokens that a text is found to have are those it is cut into, and the end. -/
theorem exists_cuts {text : String} {ts : List Token} (h : tokenize text = .ok ts) :
    ∃ ks, Cuts text.toList ks [] ∧ ts.map Token.shape = ks ++ [Shape.endOfText] := by
  unfold tokenize at h
  cases hscan : Lexeme.scan .start text.toList with
  | error e =>
    rw [hscan] at h
    cases h
  | ok lexemes =>
    rw [hscan] at h
    cases h
    refine ⟨_, .of_scan hscan, ?_⟩
    rw [tokensOf, map_shape_leadWith, map_shape_attach]

theorem exists_tokens {text : String} {ks : List Shape} (h : Cuts text.toList ks []) :
    ∃ ts, tokenize text = .ok ts ∧ ts.map Token.shape = ks ++ [Shape.endOfText] := by
  obtain ⟨lexemes, hscan, hshapes⟩ := h.scan rfl .start
  refine ⟨_, by rw [tokenize, hscan]; rfl, ?_⟩
  rw [tokensOf, map_shape_leadWith, map_shape_attach, hshapes]

end KernelGen.Source
