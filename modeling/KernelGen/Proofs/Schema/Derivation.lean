import KernelGen.Proofs.Schema.Rendering
set_option autoImplicit false

/-!
# Schema: derivations

The grammar of schemas, with its marks as they are spelled, is

    schema := name {'::' name} ['.' name] '(' [param {',' param}] ')' '->' return
    param  := '*' | type [name] ['=' default]
    return := '(' [type [name] {',' type [name]}] ')' | type
    type   := name ['(' set ['!'] ['->' set] ')'] {'?' | '[' [number] ']'}
    set    := member {'|' member}
    member := name | '*'

A derivation is a tree: it holds the alternative that was taken at every place, and the tokens
that the grammar leaves open.  The tokens that it derives and the signature that it denotes are
read off it.

The steps are known to be sound and complete for relations between tokens and what they denote
(`Schema.Grammar`).  Every tree is an instance of these relations, and tokens of a text that stand
in one of them have a tree.
-/

namespace KernelGen.Schema

open Source

/-! ## Marks -/

/-- The spelling of the marks of the grammar. -/
def markText : TokenKind → String
  | .doubleColon => "::"
  | .arrow => "->"
  | .openParen => "("
  | .closeParen => ")"
  | .openBracket => "["
  | .closeBracket => "]"
  | .comma => ","
  | .asterisk => "*"
  | .equals => "="
  | .bang => "!"
  | .question => "?"
  | .pipe => "|"
  | .dot => "."
  | _ => ""

/-- A mark of the grammar. -/
def mark (kind : TokenKind) : Shape := ⟨kind, markText kind⟩

/-- A name. -/
def word (name : String) : Shape := ⟨.identifier, name⟩

/-- The tokens of a mark of the grammar are spelled in one way. -/
theorem eq_mark_of_spelled {kind : TokenKind} {x : String} (h : Shape.Spelled ⟨kind, x⟩)
    (hmark : markText kind ≠ "") : (⟨kind, x⟩ : Shape) = mark kind := by
  obtain ⟨c, r, chars, more, hfirst, rfl⟩ := h
  suffices hchars : String.ofList chars = markText kind by rw [hchars, mark]
  rcases Lexeme.first_token_cases hfirst with ⟨rfl, -⟩ | ⟨rfl, -⟩ | ⟨rfl, -⟩ | hpair | ⟨hone, rfl⟩
  · exact absurd rfl hmark
  · exact absurd rfl hmark
  · exact absurd rfl hmark
  · have hpairs : ∀ m ∈ [(TokenKind.doubleColon, [':', ':']), (.colon, [':']), (.arrow, ['-', '>']),
        (.minus, ['-'])], markText m.1 ≠ "" → String.ofList m.2 = markText m.1 := by decide
    exact hpairs _ hpair hmark
  · have hones : ∀ m ∈ punctuation, markText m.2 ≠ "" → String.ofList [m.1] = markText m.2 := by
      decide
    exact hones _ hone hmark

/-! ## Parts that may be missing, and lists -/

section Parts

variable {τ : Type}

/-- The tokens of a part that may be missing. -/
def optionalTokens (tokens : τ → List Shape) : Option τ → List Shape
  | some t => tokens t
  | none => []

/-- The tokens of a mark that may be missing. -/
def flagTokens (kind : TokenKind) (present : Bool) : List Shape :=
  if present then [mark kind] else []

/-- The tokens of parts with a mark between each two. -/
def separatedTokens (kind : TokenKind) (tokens : τ → List Shape) (ts : List τ) : List Shape :=
  [mark kind].intercalate (ts.map tokens)

end Parts

/-! ## Derivations of types -/

/-- The token of a member of a set. -/
def AliasMember.token : AliasMember → Shape
  | .wildcard => mark .asterisk
  | .set name => word name

/-- A derivation of `set := member {'|' member}`. -/
structure SetTree where
  members : List AliasMember
  nonempty : members ≠ []

/-- The tokens of a set. -/
def SetTree.tokens (s : SetTree) : List Shape :=
  separatedTokens .pipe (fun m => [m.token]) s.members

/-- A derivation of `'(' set ['!'] ['->' set] ')'`. -/
structure AnnotationTree where
  before : SetTree
  writable : Bool
  after? : Option SetTree

namespace AnnotationTree

/-- The tokens of an annotation behind its opening parenthesis. -/
def innerTokens (a : AnnotationTree) : List Shape :=
  a.before.tokens ++ flagTokens .bang a.writable ++
    optionalTokens (fun s => mark .arrow :: s.tokens) a.after? ++ [mark .closeParen]

/-- What an annotation denotes. -/
def info (a : AnnotationTree) : AliasInfo :=
  ⟨a.before.members, a.after?.map SetTree.members, a.writable⟩

end AnnotationTree

/-- The text of a number token that is a decimal integer below 2³². -/
structure SizeTree where
  digits : String
  nonempty : digits ≠ ""
  decimal : ∀ c ∈ digits.toList, c.isDigit = true
  small : Nat.ofDigitChars 10 digits.toList 0 < 2 ^ 32

/-- The size that a number denotes. -/
def SizeTree.size (s : SizeTree) : Nat := Nat.ofDigitChars 10 s.digits.toList 0

/-- A derivation of `'?' | '[' [number] ']'`. -/
inductive SuffixTree where
  | optional
  | array (size? : Option SizeTree)

namespace SuffixTree

/-- The tokens of a suffix. -/
def tokens : SuffixTree → List Shape
  | .optional => [mark .question]
  | .array size? =>
    mark .openBracket :: (optionalTokens (fun s => [⟨.number, s.digits⟩]) size? ++
      [mark .closeBracket])

/-- What a suffix denotes. -/
def suffix : SuffixTree → Suffix
  | .optional => .optional
  | .array size? => .array (size?.map SizeTree.size)

end SuffixTree

/-- A derivation of `type := name [annotation] {suffix}`. -/
structure TypeTree where
  name : String
  annotation? : Option AnnotationTree
  suffixes : List SuffixTree

namespace TypeTree

/-- The tokens of a type. -/
def tokens (t : TypeTree) : List Shape :=
  word t.name :: (optionalTokens (fun a => mark .openParen :: a.innerTokens) t.annotation? ++
    t.suffixes.flatMap SuffixTree.tokens)

/-- The type that a derivation denotes. -/
def type (t : TypeTree) : SchemaType :=
  ⟨.ofName t.name, t.annotation?.map AnnotationTree.info, t.suffixes.map SuffixTree.suffix⟩

end TypeTree

/-! ## Derivations of signatures -/

/-- The number of brackets that tokens open; the three kinds of brackets are not told apart. -/
def opened (ks : List Shape) : Nat := ks.countP fun k => opens k.kind

/-- The number of brackets that tokens close. -/
def closed (ks : List Shape) : Nat := ks.countP fun k => closes k.kind

/-- A default: one token of the text or more, in which a comma or a closing bracket stands only
where a bracket is open, and all brackets are closed at the end. -/
structure DefaultTree where
  tokens : List Shape
  nonempty : tokens ≠ []
  ne_eof : ∀ k ∈ tokens, k.kind ≠ .eof
  inside : ∀ (front : List Shape) (k : Shape) (back : List Shape), tokens = front ++ k :: back →
    k.kind = .comma ∨ closes k.kind = true → closed front < opened front
  balanced : opened tokens = closed tokens

/-- The text of a default: that of its tokens, one behind the other. -/
def DefaultTree.text (d : DefaultTree) : String := String.join (d.tokens.map Shape.text)

/-- The tokens of a name that may be missing. -/
def nameTokens (name? : Option String) : List Shape :=
  optionalTokens (fun name => [word name]) name?

/-- A derivation of `param := '*' | type [name] ['=' default]`. -/
inductive ParamTree where
  | marker
  | value (type : TypeTree) (name? : Option String) (default? : Option DefaultTree)

namespace ParamTree

/-- The tokens of a parameter. -/
def tokens : ParamTree → List Shape
  | .marker => [mark .asterisk]
  | .value type name? default? =>
    type.tokens ++ nameTokens name? ++ optionalTokens (fun d => mark .equals :: d.tokens) default?

/-- The parameter that a derivation denotes. -/
def param : ParamTree → Param
  | .marker => .marker
  | .value type name? default? => .value type.type name? (default?.map DefaultTree.text)

end ParamTree

/-- A derivation of `type [name]`. -/
structure ElementTree where
  type : TypeTree
  name? : Option String

namespace ElementTree

/-- The tokens of an element of a tuple. -/
def tokens (e : ElementTree) : List Shape := e.type.tokens ++ nameTokens e.name?

/-- The element that a derivation denotes. -/
def element (e : ElementTree) : SchemaType × Option String := (e.type.type, e.name?)

end ElementTree

/-- A derivation of `return := '(' [type [name] {',' type [name]}] ')' | type`. -/
inductive ReturnTree where
  | tuple (elements : List ElementTree)
  | value (type : TypeTree)

namespace ReturnTree

/-- The tokens of a return type. -/
def tokens : ReturnTree → List Shape
  | .tuple elements =>
    mark .openParen :: (separatedTokens .comma ElementTree.tokens elements ++ [mark .closeParen])
  | .value type => type.tokens

/-- The return type that a derivation denotes. -/
def returnType : ReturnTree → ReturnType
  | .tuple elements => .tuple (elements.map ElementTree.element)
  | .value type => .value type.type

end ReturnTree

/-- A derivation of
`schema := name {'::' name} ['.' name] '(' [param {',' param}] ')' '->' return`. -/
structure SchemaTree where
  first : String
  more : List String
  overload? : Option String
  params : List ParamTree
  returned : ReturnTree

namespace SchemaTree

/-- The tokens of a schema. -/
def tokens (d : SchemaTree) : List Shape :=
  word d.first :: (d.more.flatMap (fun name => [mark .doubleColon, word name]) ++
    optionalTokens (fun name => [mark .dot, word name]) d.overload? ++
    mark .openParen :: (separatedTokens .comma ParamTree.tokens d.params ++
      mark .closeParen :: mark .arrow :: d.returned.tokens))

/-- The signature that a derivation denotes. -/
def signature (d : SchemaTree) : Signature :=
  ⟨d.first :: d.more, d.overload?, d.params.map ParamTree.param, d.returned.returnType⟩

/-- The tokens of a text, the end apart, are those of the derivation. -/
def Derives (d : SchemaTree) (ts : List Token) : Prop :=
  ts.map Token.shape = d.tokens ++ [Shape.endOfText]

end SchemaTree

/-! ## Trees are instances of the grammar -/

section Parts

variable {τ α : Type} {tokens : τ → List Shape} {value : τ → α} {Denotes : List Shape → α → Prop}

theorem separatedTokens_singleton (kind : TokenKind) (t : τ) :
    separatedTokens kind tokens [t] = tokens t := by
  rw [separatedTokens, List.map_singleton, List.intercalate_singleton]

theorem separatedTokens_cons (kind : TokenKind) (t u : τ) (ts : List τ) :
    separatedTokens kind tokens (t :: u :: ts) =
      tokens t ++ mark kind :: separatedTokens kind tokens (u :: ts) := by
  simp [separatedTokens, List.intercalate_cons_cons]

theorem separated_denotes (h : ∀ t, Denotes (tokens t) (value t)) (kind : TokenKind) {ts : List τ}
    (hne : ts ≠ []) :
    Separated kind Denotes (separatedTokens kind tokens ts) (ts.map value) := by
  induction ts with
  | nil => exact absurd rfl hne
  | cons t ts ih =>
    cases ts with
    | nil =>
      rw [separatedTokens_singleton]
      exact .one (h t)
    | cons u ts =>
      rw [separatedTokens_cons]
      exact .more (h t) (ih (List.cons_ne_nil u ts))

theorem listed_denotes (h : ∀ t, Denotes (tokens t) (value t)) (ts : List τ) :
    Listed Denotes (separatedTokens .comma tokens ts) (ts.map value) := by
  cases ts with
  | nil => exact .none
  | cons t ts => exact .some (separated_denotes h .comma (List.cons_ne_nil t ts))

theorem behind_denotes (h : ∀ t, Denotes (tokens t) (value t)) (kind : TokenKind) (t? : Option τ) :
    Behind kind Denotes (optionalTokens (fun t => mark kind :: tokens t) t?) (t?.map value) := by
  cases t? with
  | none => exact .absent
  | some t => exact .present (h t)

end Parts

theorem AliasMember.denotes (m : AliasMember) : AliasMember.Denotes [m.token] m := by
  cases m with
  | wildcard => exact .wildcard
  | set name => exact .set name

theorem SetTree.denotes (s : SetTree) : AliasSetDenotes s.tokens s.members := by
  have h := separated_denotes AliasMember.denotes .pipe s.nonempty
  rwa [List.map_id'] at h

theorem AnnotationTree.denotes (a : AnnotationTree) : AliasInfo.Denotes a.innerTokens a.info := by
  have hwritable : Flag .bang (flagTokens .bang a.writable) a.writable := by
    cases a.writable with
    | false => exact .absent
    | true => exact .present
  exact .mk a.before.denotes hwritable (behind_denotes SetTree.denotes .arrow a.after?)

theorem SizeTree.arraySize? (s : SizeTree) : Schema.arraySize? s.digits = some s.size := by
  rw [Schema.arraySize?, if_pos (List.all_eq_true.2 s.decimal)]
  exact if_pos s.small

theorem SuffixTree.denotes (ss : List SuffixTree) :
    SuffixesDenote (ss.flatMap SuffixTree.tokens) (ss.map SuffixTree.suffix) := by
  induction ss with
  | nil => exact .nil
  | cons s ss ih =>
    match s with
    | .optional => exact .optional ih
    | .array none => exact .array ih
    | .array (some size) => exact .sized size.arraySize? ih

theorem TypeTree.denotes (t : TypeTree) : SchemaType.Denotes t.tokens t.type :=
  .mk (behind_denotes AnnotationTree.denotes .openParen t.annotation?)
    (SuffixTree.denotes t.suffixes)

theorem name_denotes (name? : Option String) : OptionalName (nameTokens name?) name? := by
  cases name? with
  | none => exact .absent
  | some name => exact .present name

theorem opened_cons (k : Shape) (ks : List Shape) :
    opened (k :: ks) = (if opens k.kind then 1 else 0) + opened ks := by
  rw [opened, List.countP_cons, Nat.add_comm]
  rfl

theorem closed_cons (k : Shape) (ks : List Shape) :
    closed (k :: ks) = (if closes k.kind then 1 else 0) + closed ks := by
  rw [closed, List.countP_cons, Nat.add_comm]
  rfl

/-- The depth behind a token that does not close what is not open. -/
theorem depthBehind_add {depth : Nat} {kind : TokenKind} (h : closes kind = true → 0 < depth) :
    depthBehind depth kind + (if closes kind then 1 else 0) =
      depth + (if opens kind then 1 else 0) := by
  unfold depthBehind
  cases hopens : opens kind <;> cases hcloses : closes kind
  · rfl
  · exact Nat.sub_add_cancel (h hcloses)
  · rfl
  · exact absurd hopens (opens_of_closes hcloses)

theorem balanced_cons_iff {depth : Nat} {k : Shape} {ks : List Shape} :
    Balanced depth (k :: ks) ↔ k.kind ≠ .eof ∧
      (k.kind = .comma ∨ closes k.kind = true → 0 < depth) ∧
      Balanced (depthBehind depth k.kind) ks := by
  have hcondition : (depth = 0 → k.kind ≠ .comma ∧ closes k.kind = false) ↔
      (k.kind = .comma ∨ closes k.kind = true → 0 < depth) := by
    rw [← Bool.not_eq_true, ← not_or, Nat.pos_iff_ne_zero, imp_not_comm]
  constructor
  · intro h
    cases h with
    | cons heof hdepth hrest => exact ⟨heof, hcondition.1 hdepth, hrest⟩
  · rintro ⟨heof, hdepth, hrest⟩
    exact .cons heof (hcondition.2 hdepth) hrest

/-- What `Balanced` says from token to token, said of the whole run. -/
theorem balanced_iff {depth : Nat} {ks : List Shape} :
    Balanced depth ks ↔
      (∀ k ∈ ks, k.kind ≠ .eof) ∧
      (∀ (front : List Shape) (k : Shape) (back : List Shape), ks = front ++ k :: back →
        k.kind = .comma ∨ closes k.kind = true → closed front < depth + opened front) ∧
      depth + opened ks = closed ks := by
  induction ks generalizing depth with
  | nil =>
    constructor
    · intro h
      cases h
      exact ⟨by simp, by simp, rfl⟩
    · rintro ⟨-, -, h⟩
      have hdepth : depth = 0 := h
      rw [hdepth]
      exact .nil
  | cons k ks ih =>
    rw [balanced_cons_iff, ih, List.forall_mem_cons]
    constructor
    · rintro ⟨heof, hfirst, heofs, hinside, hsum⟩
      have hdepth := depthBehind_add fun h => hfirst (.inr h)
      refine ⟨⟨heof, heofs⟩, ?_, ?_⟩
      · intro front j back hsplit hj
        rcases List.cons_eq_append_iff.1 hsplit with ⟨rfl, hhead⟩ | ⟨front', rfl, hrest⟩
        · cases hhead
          exact hfirst hj
        · have hlt := hinside front' j back hrest hj
          rw [closed_cons, opened_cons]
          omega
      · rw [closed_cons, opened_cons]
        omega
    · rintro ⟨⟨heof, heofs⟩, hinside, hsum⟩
      have hfirst : k.kind = .comma ∨ closes k.kind = true → 0 < depth := hinside [] k ks rfl
      have hdepth := depthBehind_add fun h => hfirst (.inr h)
      rw [closed_cons, opened_cons] at hsum
      refine ⟨heof, hfirst, heofs, ?_, by omega⟩
      intro front j back hsplit hj
      have hlt := hinside (k :: front) j back (congrArg (k :: ·) hsplit) hj
      rw [closed_cons, opened_cons] at hlt
      omega

theorem DefaultTree.denotes (d : DefaultTree) : DefaultValue d.tokens d.text := by
  refine .mk (balanced_iff.2 ⟨d.ne_eof, ?_, ?_⟩) d.nonempty
  · simpa using d.inside
  · simpa using d.balanced

theorem ParamTree.denotes (p : ParamTree) : Param.Denotes p.tokens p.param := by
  cases p with
  | marker => exact .marker
  | value type name? default? =>
    exact .value type.denotes (name_denotes name?)
      (behind_denotes DefaultTree.denotes .equals default?)

theorem ElementTree.denotes (e : ElementTree) : ElementDenotes e.tokens e.element :=
  .mk e.type.denotes (name_denotes e.name?)

theorem ReturnTree.denotes (r : ReturnTree) : ReturnType.Denotes r.tokens r.returnType := by
  cases r with
  | tuple elements => exact .tuple (listed_denotes ElementTree.denotes elements)
  | value type => exact .value type.denotes

theorem segments_denote (names : List String) :
    SegmentsDenote (names.flatMap fun name => [mark .doubleColon, word name]) names := by
  induction names with
  | nil => exact .nil
  | cons name names ih => exact .cons name ih

theorem overload_denotes (overload? : Option String) :
    Behind .dot OverloadDenotes (optionalTokens (fun name => [mark .dot, word name]) overload?)
      overload? := by
  have h := behind_denotes OverloadDenotes.mk .dot overload?
  rwa [Option.map_id'] at h

/-- A derivation of a schema is an instance of its grammar. -/
theorem SchemaTree.denotes (d : SchemaTree) : Signature.Denotes d.tokens d.signature :=
  .mk (segments_denote d.more) (overload_denotes d.overload?)
    (listed_denotes ParamTree.denotes d.params) d.returned.denotes

/-! ## What is denoted has a tree -/

theorem Readable.mark {kind : TokenKind} {x : String} {ks : List Shape}
    (h : Readable (⟨kind, x⟩ :: ks)) (hmark : markText kind ≠ "") :
    (⟨kind, x⟩ : Shape) = Schema.mark kind := by
  have heof : kind ≠ .eof := by
    rintro rfl
    exact hmark rfl
  exact eq_mark_of_spelled (h _ List.mem_cons_self heof) hmark

section Parts

variable {τ α : Type} {tokens : τ → List Shape} {value : τ → α} {Denotes : List Shape → α → Prop}

/-- Tokens of a text that denote something are those of a tree for it. -/
def HasTrees (tokens : τ → List Shape) (value : τ → α) (Denotes : List Shape → α → Prop) : Prop :=
  ∀ ks a, Denotes ks a → Readable ks → ∃ t, tokens t = ks ∧ value t = a

theorem HasTrees.separated (h : HasTrees tokens value Denotes) {kind : TokenKind}
    (hmark : markText kind ≠ "") {ks : List Shape} {as : List α}
    (has : Separated kind Denotes ks as) (hks : Readable ks) :
    ∃ ts, ts ≠ [] ∧ separatedTokens kind tokens ts = ks ∧ ts.map value = as := by
  induction has with
  | one ha =>
    obtain ⟨t, rfl, rfl⟩ := h _ _ ha hks
    exact ⟨[t], List.cons_ne_nil t [], separatedTokens_singleton kind t, rfl⟩
  | more ha _ ih =>
    obtain ⟨t, rfl, rfl⟩ := h _ _ ha hks.left
    obtain ⟨ts, hne, rfl, rfl⟩ := ih hks.right.tail
    obtain ⟨u, us, rfl⟩ := List.exists_cons_of_ne_nil hne
    refine ⟨t :: u :: us, List.cons_ne_nil t (u :: us), ?_, rfl⟩
    rw [separatedTokens_cons, hks.right.mark hmark]

theorem HasTrees.listed (h : HasTrees tokens value Denotes) :
    HasTrees (separatedTokens .comma tokens) (List.map value) (Listed Denotes) := by
  intro ks as has hks
  cases has with
  | none => exact ⟨[], rfl, rfl⟩
  | some has =>
    obtain ⟨ts, -, htokens, hvalues⟩ := h.separated (by decide) has hks
    exact ⟨ts, htokens, hvalues⟩

theorem HasTrees.behind (h : HasTrees tokens value Denotes) {kind : TokenKind}
    (hmark : markText kind ≠ "") :
    HasTrees (optionalTokens fun t => Schema.mark kind :: tokens t) (Option.map value)
      (Behind kind Denotes) := by
  intro ks a? ha hks
  cases ha with
  | absent => exact ⟨none, rfl, rfl⟩
  | present ha =>
    obtain ⟨t, rfl, rfl⟩ := h _ _ ha hks.tail
    exact ⟨some t, congrArg (· :: tokens t) (hks.mark hmark).symm, rfl⟩

end Parts

theorem AliasMember.hasTrees :
    HasTrees (fun m => [AliasMember.token m]) id AliasMember.Denotes := by
  intro ks m hm hks
  cases hm with
  | wildcard => exact ⟨.wildcard, congrArg ([·]) (hks.mark (by decide)).symm, rfl⟩
  | set name => exact ⟨.set name, rfl, rfl⟩

theorem SetTree.hasTrees : HasTrees SetTree.tokens SetTree.members AliasSetDenotes := by
  intro ks ms hms hks
  obtain ⟨members, hne, htokens, hmembers⟩ :=
    AliasMember.hasTrees.separated (by decide) hms hks
  rw [List.map_id] at hmembers
  exact ⟨⟨members, hne⟩, htokens, hmembers⟩

theorem AnnotationTree.hasTrees :
    HasTrees AnnotationTree.innerTokens AnnotationTree.info AliasInfo.Denotes := by
  rintro _ _ ⟨hbefore, hwritable, hafter⟩ hks
  obtain ⟨before, rfl, rfl⟩ := SetTree.hasTrees _ _ hbefore hks.left.left.left
  obtain ⟨after?, rfl, rfl⟩ := SetTree.hasTrees.behind (by decide) _ _ hafter hks.left.right
  have hclose := hks.right.mark (by decide)
  cases hwritable with
  | absent => exact ⟨⟨before, false, after?⟩, by rw [innerTokens, hclose]; rfl, rfl⟩
  | present =>
    have hbang := hks.left.left.right.mark (by decide)
    exact ⟨⟨before, true, after?⟩, by rw [innerTokens, hclose, hbang]; rfl, rfl⟩

theorem SizeTree.exists_of_arraySize? {digits : String} {n : Nat}
    (h : Schema.arraySize? digits = some n) (hspelled : Shape.Spelled ⟨.number, digits⟩) :
    ∃ s : SizeTree, s.digits = digits ∧ s.size = n := by
  rw [Schema.arraySize?] at h
  split at h
  · rename_i hdecimal
    dsimp only at h
    split at h
    · rename_i hsmall
      cases h
      have hne : digits ≠ "" := mt String.toList_eq_nil_iff.2 (Shape.Spelled.toList_ne_nil hspelled)
      exact ⟨⟨digits, hne, List.all_eq_true.1 hdecimal, hsmall⟩, rfl, rfl⟩
    · cases h
  · cases h

theorem SuffixTree.hasTrees :
    HasTrees (List.flatMap SuffixTree.tokens) (List.map SuffixTree.suffix) SuffixesDenote := by
  intro ks ss hss hks
  induction hss with
  | nil => exact ⟨[], rfl, rfl⟩
  | optional _ ih =>
    obtain ⟨ts, rfl, rfl⟩ := ih hks.tail
    exact ⟨.optional :: ts, by rw [hks.mark (by decide)]; rfl, rfl⟩
  | array _ ih =>
    obtain ⟨ts, rfl, rfl⟩ := ih hks.tail.tail
    exact ⟨.array none :: ts, by rw [hks.mark (by decide), hks.tail.mark (by decide)]; rfl, rfl⟩
  | sized hsize _ ih =>
    obtain ⟨ts, rfl, rfl⟩ := ih hks.tail.tail.tail
    obtain ⟨size, rfl, rfl⟩ := SizeTree.exists_of_arraySize? hsize
      (hks.tail _ List.mem_cons_self TokenKind.noConfusion)
    refine ⟨.array (some size) :: ts, ?_, rfl⟩
    rw [hks.mark (by decide), hks.tail.tail.mark (by decide)]
    rfl

theorem TypeTree.hasTrees : HasTrees TypeTree.tokens TypeTree.type SchemaType.Denotes := by
  rintro _ _ ⟨hannotates, hsuffixes⟩ hks
  rename_i name ks₁ ks₂ annotation? suffixes
  obtain ⟨annotation?, rfl, rfl⟩ :=
    AnnotationTree.hasTrees.behind (by decide) _ _ hannotates hks.tail.left
  obtain ⟨suffixes, rfl, rfl⟩ := SuffixTree.hasTrees _ _ hsuffixes hks.tail.right
  exact ⟨⟨name, annotation?, suffixes⟩, rfl, rfl⟩

theorem name_hasTrees : HasTrees nameTokens id OptionalName := by
  intro ks name? hname _
  cases hname with
  | absent => exact ⟨none, rfl, rfl⟩
  | present name => exact ⟨some name, rfl, rfl⟩

theorem DefaultTree.hasTrees : HasTrees DefaultTree.tokens DefaultTree.text DefaultValue := by
  rintro ks _ ⟨hbalanced, hne⟩ _
  obtain ⟨heof, hinside, hsum⟩ := balanced_iff.1 hbalanced
  simp only [Nat.zero_add] at hinside hsum
  exact ⟨⟨ks, hne, heof, hinside, hsum⟩, rfl, rfl⟩

theorem ParamTree.hasTrees : HasTrees ParamTree.tokens ParamTree.param Param.Denotes := by
  intro ks p hp hks
  cases hp with
  | marker => exact ⟨.marker, congrArg ([·]) (hks.mark (by decide)).symm, rfl⟩
  | value htype hname hdefault =>
    obtain ⟨type, rfl, rfl⟩ := TypeTree.hasTrees _ _ htype hks.left.left
    obtain ⟨name?, rfl, rfl⟩ := name_hasTrees _ _ hname hks.left.right
    obtain ⟨default?, rfl, rfl⟩ :=
      DefaultTree.hasTrees.behind (by decide) _ _ hdefault hks.right
    exact ⟨.value type name? default?, rfl, rfl⟩

theorem ElementTree.hasTrees : HasTrees ElementTree.tokens ElementTree.element ElementDenotes := by
  rintro _ _ ⟨htype, hname⟩ hks
  obtain ⟨type, rfl, rfl⟩ := TypeTree.hasTrees _ _ htype hks.left
  obtain ⟨name?, rfl, rfl⟩ := name_hasTrees _ _ hname hks.right
  exact ⟨⟨type, name?⟩, rfl, rfl⟩

theorem ReturnTree.hasTrees :
    HasTrees ReturnTree.tokens ReturnTree.returnType ReturnType.Denotes := by
  intro ks r hr hks
  cases hr with
  | tuple helements =>
    obtain ⟨elements, rfl, rfl⟩ := ElementTree.hasTrees.listed _ _ helements hks.tail.left
    refine ⟨.tuple elements, ?_, rfl⟩
    rw [hks.mark (by decide), hks.tail.right.mark (by decide)]
    rfl
  | value htype =>
    obtain ⟨type, rfl, rfl⟩ := TypeTree.hasTrees _ _ htype hks
    exact ⟨.value type, rfl, rfl⟩

theorem segments_hasTrees :
    HasTrees (List.flatMap fun name => [mark .doubleColon, word name]) id SegmentsDenote := by
  intro ks names hnames hks
  induction hnames with
  | nil => exact ⟨[], rfl, rfl⟩
  | cons name _ ih =>
    obtain ⟨names, rfl, rfl⟩ := ih hks.tail.tail
    exact ⟨name :: names, by rw [hks.mark (by decide)]; rfl, rfl⟩

theorem overload_hasTrees : HasTrees (fun name => [word name]) id OverloadDenotes := by
  intro ks name hname _
  cases hname
  exact ⟨name, rfl, rfl⟩

/-- The tokens of a text that denote a signature have a derivation of it. -/
theorem SchemaTree.hasTrees :
    HasTrees SchemaTree.tokens SchemaTree.signature Signature.Denotes := by
  rintro _ _ ⟨hnames, hoverload, hparams, hreturn⟩ hks
  rename_i first x y z ks₁ ks₂ ks₃ ks₄ names overload? params returnType
  have hlist := hks.tail.right
  have htail := hlist.tail.right
  obtain ⟨more, rfl, rfl⟩ := segments_hasTrees _ _ hnames hks.tail.left.left
  obtain ⟨overload?, rfl, rfl⟩ :=
    overload_hasTrees.behind (by decide) _ _ hoverload hks.tail.left.right
  obtain ⟨params, rfl, rfl⟩ := ParamTree.hasTrees.listed _ _ hparams hlist.tail.left
  obtain ⟨returned, rfl, rfl⟩ := ReturnTree.hasTrees _ _ hreturn htail.tail.tail
  refine ⟨⟨first, more, overload?, params, returned⟩, ?_, ?_⟩
  · rw [hlist.mark (by decide), htail.mark (by decide), htail.tail.mark (by decide)]
    rfl
  · simp only [signature, id, Option.map_id_fun]

end KernelGen.Schema
