import Mathlib
import KernelGen.Proofs.Host.Written
import KernelGen.Proofs.Kernel.PageText
import KernelGen.Proofs.Link
import KernelGen.Proofs.Source.Lines
set_option autoImplicit false

/-!
# Kernel: prototypes as declarations

What is written for a function without a body is a declaration again, and is read as one: the
marker is in a comment, and comments, indentation and the ends of lines are nothing to a parser.
The declaration has the same return type, the same name and the declared parameters in order.

There are two conditions.  Constant template arguments must survive being written.  And the marker
must not be the last of the parameters when a declared one is in front of it: the comma behind
that one is written, and no parameter follows it.
-/

namespace KernelGen

open Source

/-! ## The text of a prototype -/

namespace LinkedParam

/-- What is written for a parameter, from the end of the line in front of it on. -/
def line (depth : Nat) (p : LinkedParam) : String :=
  "\n" ++ (Page.indentation depth ++ ((if p.isMarker then "// " else "") ++ p.text))

end LinkedParam

namespace LinkedFunction

/-- The marker is the last of the parameters, and not the only one. -/
def dangles (f : LinkedFunction) : Bool :=
  (f.params.getLast?.map LinkedParam.isMarker).getD false && !f.declaredParams.isEmpty

end LinkedFunction

namespace KernelFunction

open Page

/-- Parameters with a comma behind each, as they are written. -/
def followedText (depth : Nat) (params : List LinkedParam) : String :=
  String.join (params.map fun p => p.line depth ++ ",")

theorem writeParam_eq (page : Page) {param : LinkedParam} (h : param.text.isEmpty = false)
    (isLast : Bool) :
    writeParam page param isLast =
      ⟨page.text ++ (param.line page.depth ++ if isLast then "" else ","), page.depth, false,
        page.namespaces⟩ := by
  unfold writeParam LinkedParam.line
  cases param.isMarker <;> cases isLast <;>
    simp [blankLine, writeLine, endLine, Page.write, h, String.append_assoc]

theorem writeParams_eq (page : Page) (front : List LinkedParam) (last : LinkedParam)
    (h : ∀ p ∈ front ++ [last], p.text.isEmpty = false) :
    writeParams page (front ++ [last]) =
      ⟨page.text ++ (followedText page.depth front ++ last.line page.depth), page.depth, false,
        page.namespaces⟩ := by
  induction front generalizing page with
  | nil =>
    rw [List.nil_append, writeParams, writeParam_eq page (h last List.mem_cons_self)]
    simp [followedText]
  | cons p front ih =>
    have hmore : front ++ [last] ≠ [] := by simp
    have htail := ih (writeParam page p false) fun q hq => h q (List.mem_cons_of_mem p hq)
    rw [List.cons_append, writeParams.eq_3 page p _ hmore, htail,
      writeParam_eq page (h p List.mem_cons_self)]
    simp [followedText, String.append_assoc]

/-- The text of a function without a body. -/
def prototype (depth : Nat) (f : LinkedFunction) : String :=
  ((writeSignature (.blank depth) f).writeLine ";").text

/-- What is written in front of the parameters. -/
def opening (depth : Nat) (f : LinkedFunction) : String :=
  indentation depth ++ (f.declaration.returnType.text ++ (" " ++ (f.name ++ "(")))

theorem prototype_of_nil (depth : Nat) {f : LinkedFunction} (h : f.params = []) :
    prototype depth f = opening depth f ++ ");\n" := by
  simp [prototype, opening, writeSignature, writeParams, h, Page.write, writeLine, endLine,
    indent, dedent, blank, String.append_assoc]

theorem prototype_of_concat (depth : Nat) {f : LinkedFunction} {front : List LinkedParam}
    {last : LinkedParam} (h : f.params = front ++ [last])
    (htexts : ∀ p ∈ f.params, p.text.isEmpty = false) :
    prototype depth f = opening depth f ++ (followedText (depth + 1) front ++
      (last.line (depth + 1) ++
        ((if last.isMarker then "\n" ++ indentation depth else "") ++ ");\n"))) := by
  rw [h] at htexts
  cases hlast : last.isMarker <;>
    simp [prototype, opening, writeSignature, h, writeParams_eq _ front last htexts, Page.write,
      writeLine, endLine, indent, dedent, blank, blankLine, String.append_assoc, hlast]

/-! ## What a parser sees of it -/

theorem cuts_newline {cs rest : List Char} {ks : List Shape} (h : Cuts cs ks rest) :
    Cuts ('\n' :: cs) ks rest := .trivia rfl h

theorem cuts_indentation (depth : Nat) {cs rest : List Char} {ks : List Shape}
    (h : Cuts cs ks rest) (hcs : ∀ c ∈ cs.head?, isSeparator c = false) :
    Cuts ((indentation depth).toList ++ cs) ks rest := by
  have hblanks : ∀ n, (List.replicate n ' ' ++ cs).dropWhile isSeparator = cs := by
    intro n
    rw [dropWhile_append_rest hcs, List.dropWhile_replicate,
      if_pos (show isSeparator ' ' = true from rfl), List.nil_append]
  rw [indentation, String.toList_ofList]
  cases 2 * depth with
  | zero => exact h
  | succ n =>
    have hfirst : Lexeme.first ' ' (List.replicate n ' ' ++ cs) = .ok (.trivia .whitespace,
        ' ' :: (List.replicate n ' ' ++ cs).takeWhile isSeparator,
        (List.replicate n ' ' ++ cs).dropWhile isSeparator) := rfl
    rw [hblanks] at hfirst
    exact .trivia hfirst h

/-- A comment goes up to the end of the line. -/
theorem cuts_comment {text cs rest : List Char} {ks : List Shape}
    (htext : ∀ c ∈ text, isInLine c = true) (h : Cuts ('\n' :: cs) ks rest) :
    Cuts ('/' :: '/' :: (text ++ '\n' :: cs)) ks rest := by
  refine cuts_commented ?_
  rw [behindFirstLine_append htext]
  exact h

/-- The line of a marker is nothing, whatever follows the marker on it. -/
theorem cuts_markerLine (index depth : Nat) {text cs rest : List Char} {ks : List Shape}
    (htext : ∀ c ∈ text, isInLine c = true) (h : Cuts ('\n' :: cs) ks rest) :
    Cuts (((LinkedParam.marker index).line depth).toList ++ (text ++ '\n' :: cs)) ks rest := by
  have hcomment := cuts_comment (List.forall_mem_cons.2 ⟨rfl, List.forall_mem_cons.2
    ⟨rfl, htext⟩⟩ : ∀ c ∈ ' ' :: '*' :: text, isInLine c = true) h
  have hline : (LinkedParam.marker index).line depth = "\n" ++ (indentation depth ++ "// *") := rfl
  rw [hline, String.toList_append, String.toList_append, List.append_assoc, List.append_assoc]
  exact cuts_newline (cuts_indentation depth hcomment fun c hc => by cases hc; rfl)

theorem cuts_declaredLine (depth : Nat) {param : Host.Param} {ks : List Shape}
    (h : Host.KeptParam ks param) (hks : Schema.Readable ks) (indices : List Nat)
    {rest : List Char} (hrest : EndsGlued rest) :
    ∃ ks', Host.Param.Denotes ks' param ∧
      Cuts (((LinkedParam.declared param indices).line depth).toList ++ rest) ks' rest := by
  obtain ⟨hstarts, hread⟩ := Host.Param.itemsRead _ _ h hks
  obtain ⟨ks', hdenotes, hcuts⟩ := hread rest hrest
  have hline : (LinkedParam.declared param indices).line depth =
      "\n" ++ (indentation depth ++ param.text) := rfl
  rw [hline, String.toList_append, String.toList_append, List.append_assoc, List.append_assoc]
  exact ⟨ks', hdenotes.1, cuts_newline (cuts_indentation depth hcuts (hstarts.head rest))⟩

/-- Parameters that may be written and read again. -/
def Rereadable (params : List LinkedParam) : Prop :=
  ∀ p ∈ params.filterMap LinkedParam.declared?, ∃ ks, Host.KeptParam ks p ∧ Schema.Readable ks

theorem followedText_cons (depth : Nat) (p : LinkedParam) (params : List LinkedParam) :
    (followedText depth (p :: params)).toList =
      (p.line depth).toList ++ ',' :: (followedText depth params).toList := by
  simp [followedText]

/-- The text starts with the end of a line. -/
def StartsLine (cs : List Char) : Prop := ∃ more, cs = '\n' :: more

theorem startsLine_line (depth : Nat) (p : LinkedParam) (cs : List Char) :
    StartsLine ((p.line depth).toList ++ cs) := by
  rw [LinkedParam.line, String.toList_append]
  exact ⟨_, rfl⟩

theorem startsLine_followedText (depth : Nat) (params : List LinkedParam) {cs : List Char}
    (h : StartsLine cs) : StartsLine ((followedText depth params).toList ++ cs) := by
  cases params with
  | nil => exact h
  | cons p params =>
    rw [followedText_cons, List.append_assoc]
    exact startsLine_line depth p _

/-- Parameters with a comma behind each, up to the line that follows them. -/
theorem cuts_followed (depth : Nat) {params : List LinkedParam} (h : Rereadable params)
    {cs : List Char} (hcs : StartsLine cs) :
    ∃ ks, Followed .comma Host.Param.Denotes ks (params.filterMap LinkedParam.declared?) ∧
      Cuts ((followedText depth params).toList ++ cs) ks cs := by
  induction params with
  | nil => exact ⟨[], .nil, .done⟩
  | cons p params ih =>
    rw [followedText_cons, List.append_assoc, List.cons_append]
    cases p with
    | marker index =>
      obtain ⟨ks, hfollowed, hcuts⟩ := ih h
      obtain ⟨more, hmore⟩ := startsLine_followedText depth params hcs
      have hcomma : ∀ c ∈ [','], isInLine c = true := List.forall_mem_singleton.2 rfl
      rw [hmore] at hcuts ⊢
      exact ⟨ks, hfollowed, cuts_markerLine index depth hcomma hcuts⟩
    | declared param indices =>
      obtain ⟨ks, hfollowed, hcuts⟩ := ih fun q hq => h q (List.mem_cons_of_mem param hq)
      obtain ⟨ks', hkept, hks'⟩ := h param List.mem_cons_self
      have hcomma : EndsGlued (',' :: ((followedText depth params).toList ++ cs)) :=
        ⟨',', _, rfl, .inl rfl⟩
      obtain ⟨front, hfront, hcutsFront⟩ := cuts_declaredLine depth hkept hks' indices hcomma
      exact ⟨front ++ ⟨.comma, ","⟩ :: ks, .cons hfront hfollowed,
        hcutsFront.append (.token rfl hcuts)⟩

/-- The return type, the name and the opening parenthesis. -/
theorem cuts_opening (depth : Nat) {f : LinkedFunction} (h : f.declaration.WasRead)
    (hkept : f.declaration.returnType.keepsConstants = true) (cs : List Char) :
    ∃ n ks, f.declaration.returnType.Denotes n ks ∧ ¬ Host.IsSpecifier (Host.nextShape ks) ∧
      Cuts ((opening depth f).toList ++ cs) (ks ++ [⟨.identifier, f.name⟩, ⟨.openParen, "("⟩])
        cs := by
  obtain ⟨n, ks, hdenotes, hspecifier, hstarts, hcuts⟩ := h.cuts_opening hkept cs
  refine ⟨n, ks, hdenotes, hspecifier, ?_⟩
  rw [opening, String.toList_append, List.append_assoc]
  exact cuts_indentation depth hcuts ((hstarts.append _).head cs)

/-- What follows the last parameter, or the opening parenthesis. -/
theorem cuts_closing : Cuts ");\n".toList [⟨.closeParen, ")"⟩, ⟨.semicolon, ";"⟩] [] :=
  .token rfl (.token rfl (.trivia rfl .done))

theorem isEmpty_text {params : List LinkedParam} (h : Rereadable params) :
    ∀ p ∈ params, p.text.isEmpty = false := by
  intro p hp
  cases p with
  | marker => rfl
  | declared param indices =>
    obtain ⟨ks, hkept, hks⟩ := h param (List.mem_filterMap.2 ⟨_, hp, rfl⟩)
    obtain ⟨⟨c, cs, hc, -⟩, -⟩ := Host.Param.itemsRead _ _ hkept hks
    rw [LinkedParam.text, ← Bool.not_eq_true, String.isEmpty_iff]
    rintro hempty
    rw [hempty] at hc
    cases hc

/-- What stands between the opening parenthesis and the end of a prototype: parameters with commas
between them, unless the marker leaves a comma behind the last one. -/
theorem cuts_params (depth : Nat) {f : LinkedFunction} (h : Rereadable f.params) :
    ∃ text ks, prototype depth f = opening depth f ++ text ∧
      Cuts text.toList (ks ++ [⟨.closeParen, ")"⟩, ⟨.semicolon, ";"⟩]) [] ∧
      (f.dangles = false → Listed Host.Param.Denotes ks f.declaredParams) ∧
      (f.dangles = true → Followed .comma Host.Param.Denotes ks f.declaredParams ∧
        f.declaredParams ≠ []) := by
  rcases List.eq_nil_or_concat' f.params with hnil | ⟨front, last, hparams⟩
  · refine ⟨_, [], prototype_of_nil depth hnil, cuts_closing, fun _ => ?_, fun hdangles => ?_⟩
    · rw [LinkedFunction.declaredParams, hnil]
      exact .none
    · rw [LinkedFunction.dangles, hnil] at hdangles
      cases hdangles
  · have htext := prototype_of_concat depth hparams (isEmpty_text h)
    have hfront : Rereadable front := fun p hp => h p (by rw [hparams]; simp [hp])
    cases last with
    | marker index =>
      have hdeclared : f.declaredParams = front.filterMap LinkedParam.declared? := by
        simp [LinkedFunction.declaredParams, hparams, LinkedParam.declared?]
      have hclosing : Cuts ('\n' :: ((indentation depth).toList ++ ");\n".toList))
          [⟨.closeParen, ")"⟩, ⟨.semicolon, ";"⟩] [] :=
        cuts_newline (cuts_indentation depth cuts_closing fun c hc => by cases hc; rfl)
      have hline := cuts_markerLine index (depth + 1) (List.forall_mem_nil _) hclosing
      obtain ⟨ks, hfollowed, hcuts⟩ :=
        cuts_followed (depth + 1) hfront (startsLine_line (depth + 1) (.marker index) _)
      rw [← hdeclared] at hfollowed
      have hdangles : f.dangles = !f.declaredParams.isEmpty := by
        simp [LinkedFunction.dangles, hparams, LinkedParam.isMarker]
      refine ⟨_, ks, htext, ?_, fun hfalse => ?_, fun htrue => ⟨hfollowed, ?_⟩⟩
      · have hall := hcuts.append hline
        simpa [LinkedParam.isMarker] using hall
      · have hnone : f.declaredParams = [] := by simpa [hdangles] using hfalse
        rw [hnone] at hfollowed ⊢
        cases hfollowed
        exact .none
      · simpa [hdangles] using htrue
    | declared param indices =>
      have hdeclared : f.declaredParams = front.filterMap LinkedParam.declared? ++ [param] := by
        simp [LinkedFunction.declaredParams, hparams, LinkedParam.declared?]
      have hdangles : f.dangles = false := by
        simp [LinkedFunction.dangles, hparams, LinkedParam.isMarker]
      obtain ⟨ks, hkept, hks⟩ := h param (by rw [hparams]; simp [LinkedParam.declared?])
      obtain ⟨back, hback, hline⟩ := cuts_declaredLine (depth + 1) hkept hks indices
        (⟨')', _, rfl, .inr rfl⟩ : EndsGlued ");\n".toList)
      obtain ⟨front, hfollowed, hcuts⟩ := cuts_followed (depth + 1) hfront
        (startsLine_line (depth + 1) (.declared param indices) ");\n".toList)
      refine ⟨_, front ++ back, htext, ?_, fun _ => ?_, fun h => ?_⟩
      · have hall := hcuts.append (hline.append cuts_closing)
        simpa [LinkedParam.isMarker] using hall
      · rw [hdeclared]
        exact .some (hfollowed.separated hback)
      · rw [hdangles] at h
        cases h

/-- The tokens of a prototype. -/
theorem tokenize_prototype (depth : Nat) {f : LinkedFunction} (hread : f.declaration.WasRead)
    (hkept : f.declaration.keepsConstants = true)
    (hdeclared : f.declaredParams = f.declaration.params) :
    ∃ ts n ks ks₂, tokenize (prototype depth f) = .ok ts ∧
      ts.map Token.shape = ks ++ (⟨.identifier, f.name⟩ :: ⟨.openParen, "("⟩ ::
        (ks₂ ++ [⟨.closeParen, ")"⟩, ⟨.semicolon, ";"⟩, Shape.endOfText])) ∧
      f.declaration.returnType.Denotes n ks ∧ ¬ Host.IsSpecifier (Host.nextShape ks) ∧
      (f.dangles = false → Listed Host.Param.Denotes ks₂ f.declaredParams) ∧
      (f.dangles = true → Followed .comma Host.Param.Denotes ks₂ f.declaredParams ∧
        f.declaredParams ≠ []) := by
  rw [Host.Declaration.keepsConstants, Bool.and_eq_true, List.all_eq_true] at hkept
  have hparams : Rereadable f.params := by
    intro p hp
    have hmem : p ∈ f.declaration.params := hdeclared ▸ hp
    obtain ⟨ks, hdenotes, hks⟩ := hread.params p hmem
    exact ⟨ks, ⟨hdenotes, hkept.2 p hmem⟩, hks⟩
  obtain ⟨text, ks₂, htext, hcuts₂, hlisted, hfollowed⟩ := cuts_params depth hparams
  obtain ⟨n, ks, hreturn, hspecifier, hcuts⟩ := cuts_opening depth hread hkept.1 text.toList
  have hall := hcuts.append hcuts₂
  rw [← String.toList_append, ← htext] at hall
  obtain ⟨ts, hts, hmap⟩ := exists_tokens hall
  refine ⟨ts, n, ks, ks₂, hts, ?_, hreturn, hspecifier, hlisted, hfollowed⟩
  rw [hmap]
  simp only [List.append_assoc, List.cons_append, List.nil_append]

/-- A prototype whose marker does not dangle is read as the declaration it was written for. -/
theorem declarations_prototype (depth : Nat) {f : LinkedFunction} (hread : f.declaration.WasRead)
    (hkept : f.declaration.keepsConstants = true)
    (hdeclared : f.declaredParams = f.declaration.params) (hdangles : f.dangles = false) :
    ∃ d, Host.declarations (prototype depth f) = .ok [d] ∧
      d.returnType = f.declaration.returnType ∧ d.name = f.name ∧ d.params = f.declaredParams := by
  obtain ⟨ts, n, ks, ks₂, hts, hmap, hreturn, hspecifier, hlisted, -⟩ :=
    tokenize_prototype depth hread hkept hdeclared
  have hdenotes := Host.DeclarationDenotes.mk (x := "(") (y := ")") (z := ";") hreturn hspecifier
    hread.endsBefore (hlisted hdangles)
  have hvoid : Host.withoutVoid f.declaredParams = f.declaredParams := by
    rw [hdeclared]
    exact hread.noVoid
  rw [hvoid] at hdenotes
  obtain ⟨d, hd, hparts⟩ := Host.declarationsOf_complete
    (by rw [hmap]; simp only [List.append_assoc, List.cons_append, List.nil_append]; rfl) hdenotes
  refine ⟨d, ?_, hparts⟩
  rw [Host.declarations, Source.read, hts]
  simp only [hd]

/-- A prototype whose marker dangles is refused. -/
theorem refuses_prototype (depth : Nat) {f : LinkedFunction} (hread : f.declaration.WasRead)
    (hkept : f.declaration.keepsConstants = true)
    (hdeclared : f.declaredParams = f.declaration.params) (hdangles : f.dangles = true) :
    ∃ e, Host.declarations (prototype depth f) = .error e := by
  obtain ⟨ts, n, ks, ks₂, hts, hmap, hreturn, hspecifier, -, hfollowed⟩ :=
    tokenize_prototype depth hread hkept hdeclared
  obtain ⟨hfollowed, hne⟩ := hfollowed hdangles
  obtain ⟨e, he⟩ := Host.Declaration.step_refuses hreturn hspecifier hread.endsBefore hfollowed hne
    hmap
  have hnotEnd : (next ts).kind ≠ .eof := by
    rw [← nextKind_map, hmap]
    rcases hreturn.nextKind _ with h | h <;> rw [h] <;> decide
  have hrefused : Host.declarationsOf ts = .error e := by
    rw [Host.declarationsOf, if_neg hnotEnd]
    split <;> rename_i h <;> cases he.symm.trans h
    rfl
  refine ⟨.unexpected e, ?_⟩
  rw [Host.declarations, Source.read, hts]
  simp only [hrefused]

/-! ## Linked functions -/

/-- **Prototypes are declarations.**  Whatever declaration was read from a header, and whatever
operator it was linked to, its prototype is read as one declaration with the same return type, the
same name and the declared parameters, unless the marker dangles; in that case it is not. -/
theorem reads_prototype_iff (depth : Nat) {header : String} {ds : List Host.Declaration}
    {d : Host.Declaration} {m : Metadata} {f : LinkedFunction}
    (hheader : Host.declarations header = .ok ds) (hd : d ∈ ds)
    (hlink : (link d m).result = .ok f) (hkept : d.keepsConstants = true) :
    (∃ d', Host.declarations (prototype depth f) = .ok [d'] ∧ d'.returnType = d.returnType ∧
      d'.name = d.name ∧ d'.params = f.declaredParams) ↔ f.dangles = false := by
  have hdeclaration := declaration_of_link hlink
  have hdeclared := declaredParams_of_link hlink
  have hread := Host.wasRead_of_mem hheader hd
  subst hdeclaration
  constructor
  · rintro ⟨d', hd', -⟩
    by_contra hdangles
    obtain ⟨e, he⟩ :=
      refuses_prototype depth hread hkept hdeclared (Bool.not_eq_false _ ▸ hdangles)
    cases hd'.symm.trans he
  · exact declarations_prototype depth hread hkept hdeclared

/-! ## Prototypes at work -/

/-- A header with a specifier, and with tokens that are written closer together. -/
def maskHeader : String := "static at::Tensor mask(const at::Foo<1 -> x> & self, int n = 1 . 5);"

/-- The declaration of `maskHeader`. -/
def maskDeclaration : Host.Declaration where
  returnType := ⟨false, false, ["at", "Tensor"], [], []⟩
  name := "mask"
  params :=
    [⟨⟨true, false, ["at", "Foo"], [.constant "1->x"], [.ref]⟩, some "self", none⟩,
     ⟨⟨false, false, ["int"], [], []⟩, some "n", some "1.5"⟩]
  terminator := ⟨.semicolon, ";", ⟨1, 68⟩, [], []⟩
  location := ⟨1, 8⟩

/-- The operator of `maskDeclaration`, with a marker between its parameters. -/
def maskMetadata : Metadata := ⟨"mask(Tensor self, *, int n) -> Tensor", true, false⟩

/-- The declaration, linked to the operator. -/
def maskFunction : LinkedFunction where
  declaration := maskDeclaration
  metadata := maskMetadata
  signature :=
    let tensor : Schema.SchemaType := ⟨.tensor, none, []⟩
    ⟨["mask"], none,
      [.value tensor (some "self") none, .marker, .value ⟨.int, none, []⟩ (some "n") none],
      .value tensor⟩
  params :=
    [.declared ⟨⟨true, false, ["at", "Foo"], [.constant "1->x"], [.ref]⟩, some "self", none⟩ [0],
     .marker 1,
     .declared ⟨⟨false, false, ["int"], [], []⟩, some "n", some "1.5"⟩ [2]]

/-- The tokens of `maskHeader`. -/
def maskTokens : List Token := (tokenize maskHeader).toOption.getD []

theorem listed_mask : Source.listed Host.Param.step Host.Param.step_consumes (maskTokens.drop 6) =
    .ok (maskDeclaration.params, maskTokens.drop 24) := by
  have hself : Host.Param.step (maskTokens.drop 6) = .ok
      (⟨⟨true, false, ["at", "Foo"], [.constant "1->x"], [.ref]⟩, some "self", none⟩,
        next (maskTokens.drop 17) :: maskTokens.drop 18) := by cbv
  have hn : Host.Param.step (maskTokens.drop 18) = .ok
      (⟨⟨false, false, ["int"], [], []⟩, some "n", some "1.5"⟩, maskTokens.drop 24) := by cbv
  obtain ⟨hfirst, hcomma, hend⟩ : (next (maskTokens.drop 6)).kind = .identifier ∧
      (next (maskTokens.drop 17)).kind = .comma ∧
      (next (maskTokens.drop 24)).kind = .closeParen := by cbv
  have hparams := readsSeparated_commaSeparated Host.Param.step Host.Param.step_consumes
  exact (if_neg (by simp [hfirst])).trans
    (hparams.more hself hcomma (hparams.one hn (by simp [hend])))

theorem declarations_mask : Host.declarations maskHeader = .ok [maskDeclaration] := by
  obtain ⟨hts, hfirst, hlast, hlocation⟩ : tokenize maskHeader = .ok maskTokens ∧
      (next maskTokens).kind = .identifier ∧ (next (maskTokens.drop 26)).kind = .eof ∧
      (next (maskTokens.dropWhile Host.isSpecifier)).location = maskDeclaration.location := by cbv
  obtain ⟨hreturn, hname, hopen, hclose, hterminator⟩ :
      Host.HostType.step (maskTokens.dropWhile Host.isSpecifier) =
        .ok (maskDeclaration.returnType, maskTokens.drop 4) ∧
      expect .identifier .functionName (maskTokens.drop 4) =
        .ok (⟨.identifier, "mask", ⟨1, 19⟩, [], []⟩, maskTokens.drop 5) ∧
      expect .openParen .openParen (maskTokens.drop 5) =
        .ok (next (maskTokens.drop 5), maskTokens.drop 6) ∧
      expect .closeParen .closeParen (maskTokens.drop 24) =
        .ok (next (maskTokens.drop 24), maskTokens.drop 25) ∧
      expect .semicolon .endOfDeclaration (maskTokens.drop 25) =
        .ok (maskDeclaration.terminator, maskTokens.drop 26) := by cbv
  have hstep : Host.Declaration.step maskTokens = .ok (maskDeclaration, maskTokens.drop 26) :=
    Host.Declaration.step_of_parts hlocation hreturn hname rfl hopen listed_mask rfl hclose
      hterminator
  exact Host.declarations_of_step hts (by simp [hfirst]) hstep hlast

theorem reads_prototype_mask :
    Host.declarations maskHeader = .ok [maskDeclaration] ∧
    (link maskDeclaration maskMetadata).result = .ok maskFunction ∧
    maskDeclaration.keepsConstants = true ∧
    ((∃ d', Host.declarations (prototype 0 maskFunction) = .ok [d'] ∧
      d'.returnType = maskDeclaration.returnType ∧ d'.name = maskDeclaration.name ∧
      d'.params = maskFunction.declaredParams) ↔ maskFunction.dangles = false) :=
  have hlink : (link maskDeclaration maskMetadata).result = .ok maskFunction := by cbv
  have hkept : maskDeclaration.keepsConstants = true := by cbv
  ⟨declarations_mask, hlink, hkept,
    reads_prototype_iff 0 declarations_mask List.mem_cons_self hlink hkept⟩

/-- The operator of `maskDeclaration`, with a marker behind its parameters. -/
def danglingMetadata : Metadata := ⟨"mask(Tensor self, int n, *) -> Tensor", true, false⟩

/-- The declaration, linked to the operator with the marker behind the parameters. -/
def danglingFunction : LinkedFunction where
  declaration := maskDeclaration
  metadata := danglingMetadata
  signature :=
    let tensor : Schema.SchemaType := ⟨.tensor, none, []⟩
    ⟨["mask"], none,
      [.value tensor (some "self") none, .value ⟨.int, none, []⟩ (some "n") none, .marker],
      .value tensor⟩
  params :=
    [.declared ⟨⟨true, false, ["at", "Foo"], [.constant "1->x"], [.ref]⟩, some "self", none⟩ [0],
     .declared ⟨⟨false, false, ["int"], [], []⟩, some "n", some "1.5"⟩ [1],
     .marker 2]

example : prototype 0 danglingFunction =
    "at::Tensor mask(\n  const at::Foo<1->x> & self,\n  int n = 1.5,\n  // *\n);\n" := rfl

theorem refuses_prototype_mask :
    Host.declarations maskHeader = .ok [maskDeclaration] ∧
    (link maskDeclaration danglingMetadata).result = .ok danglingFunction ∧
    maskDeclaration.keepsConstants = true ∧
    ∃ e, Host.declarations (prototype 0 danglingFunction) = .error e := by
  have hlink : (link maskDeclaration danglingMetadata).result = .ok danglingFunction := by cbv
  have hkept : maskDeclaration.keepsConstants = true := by cbv
  have hread := Host.wasRead_of_mem declarations_mask List.mem_cons_self
  exact ⟨declarations_mask, hlink, hkept,
    refuses_prototype 0 hread hkept (declaredParams_of_link hlink) (by cbv)⟩

end KernelFunction

end KernelGen
