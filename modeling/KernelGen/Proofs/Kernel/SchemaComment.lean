import KernelGen.Proofs.Kernel.PageText
import KernelGen.Proofs.Link
import KernelGen.Proofs.Source.Lines
set_option autoImplicit false

/-!
# Kernel: the comment with the schema

In front of a function stands its schema, behind two slashes.  The slashes are written once, so
they comment the first line of the schema out and no other: a line behind it is a comment only if
the schema says so, and the tokens of these lines are tokens of the generated file.
-/

namespace KernelGen

open Source

/-! ## Lines -/

/-- The line starts with two slashes. -/
def IsComment (line : List Char) : Prop := ['/', '/'] <+: line

/-- The comment with a schema. -/
def schemaComment (schema : String) : String := "// " ++ schema

theorem toList_schemaComment (schema : String) :
    (schemaComment schema).toList = '/' :: '/' :: ' ' :: schema.toList := by
  simp [schemaComment]

/-- Only the first line of the comment is not one of the schema. -/
theorem linesOf_schemaComment (schema : String) : ∃ line lines, linesOf schema = line :: lines ∧
    linesOf (schemaComment schema) = ('/' :: '/' :: ' ' :: line) :: lines := by
  obtain ⟨line, lines, hlines⟩ :=
    List.exists_cons_of_ne_nil (List.splitOn_ne_nil '\n' schema.toList)
  refine ⟨line, lines, hlines, ?_⟩
  rw [linesOf, toList_schemaComment]
  simp [List.splitOn_cons_eq_if_modifyHead, hlines]

/-- The lines of the comment are comments if and only if those behind the first line of the schema
are. -/
theorem isComment_schemaComment_iff (schema : String) :
    (∀ line ∈ linesOf (schemaComment schema), IsComment line) ↔
      ∀ line ∈ (linesOf schema).tail, IsComment line := by
  obtain ⟨line, lines, hschema, hcomment⟩ := linesOf_schemaComment schema
  rw [hschema, hcomment, List.forall_mem_cons]
  exact and_iff_right ⟨' ' :: line, rfl⟩

/-! ## Tokens -/

/-- The tokens behind the first line of a schema are those of the comment. -/
theorem tokens_of_schemaComment {schema : String} {ts : List Token}
    (h : tokenize schema = .ok ts) :
    ∃ front back, ts.map Token.shape = front ++ back ++ [Shape.endOfText] ∧
      Cuts schema.toList front (behindFirstLine schema.toList) ∧
      ∃ us, tokenize (schemaComment schema ++ "\n") = .ok us ∧
        us.map Token.shape = back ++ [Shape.endOfText] := by
  obtain ⟨ks, hcuts, hshapes⟩ := exists_cuts h
  obtain ⟨front, back, rfl, hfront, hback⟩ := hcuts.split_line
  have hend : BeginsLine ['\n'] := fun c hc => (Option.some.inj hc).symm
  -- the end of the comment is one more line behind those of the schema
  have hline : behindFirstLine (' ' :: (schema.toList ++ ['\n'])) =
      behindFirstLine schema.toList ++ ['\n'] :=
    dropWhile_append_rest (fun c hc => by cases hc; rfl) schema.toList
  have hcomment : Cuts (schemaComment schema ++ "\n").toList back [] := by
    rw [String.toList_append, toList_schemaComment]
    refine cuts_commented ?_
    have hdone : Cuts ['\n'] [] [] := .trivia rfl .done
    have hall := (hback.append_line hend).append hdone
    rw [List.append_nil] at hall
    exact hline ▸ hall
  obtain ⟨us, hus, hus'⟩ := exists_tokens hcomment
  exact ⟨front, back, hshapes, hfront, us, hus, hus'⟩

/-! ## The text in front of a signature -/

namespace KernelFunction

open Page

theorem continues_writeParam (p : Page) (param : LinkedParam) (isLast : Bool) :
    p.Continues (writeParam p param isLast) := by
  unfold writeParam
  extract_lets p₁ p₂ p₃
  have h₁ : p.Continues p₁ := continues_writeLine p ""
  have h₂ : p₁.Continues p₂ := by
    simp only [p₂]
    split
    · exact continues_write p₁ "// "
    · exact .refl p₁
  have h₃ : p.Continues p₃ := (h₁.trans h₂).trans (continues_write p₂ param.text)
  split
  · exact h₃
  · exact h₃.trans (continues_write p₃ ",")

theorem continues_writeParams (p : Page) (params : List LinkedParam) :
    p.Continues (writeParams p params) := by
  fun_induction writeParams p params with
  | case1 p => exact .refl p
  | case2 p param => exact continues_writeParam p param true
  | case3 p param params _ ih => exact (continues_writeParam p param false).trans ih

/-- What stands in front of the parameters of a function. -/
def signatureStart (f : LinkedFunction) : String :=
  f.declaration.returnType.text ++ " " ++ f.name ++ "("

theorem continues_writeSignature (p : Page) (f : LinkedFunction) :
    (p.write (signatureStart f)).Continues (writeSignature p f) := by
  have hparams : (p.write (signatureStart f)).Continues
      (writeParams (p.write (signatureStart f)).indent f.params).dedent :=
    continues_writeParams (p.write (signatureStart f)).indent f.params
  unfold writeSignature
  extract_lets p₁ p₂ p₃
  have hlast : p₂.Continues p₃ := by
    simp only [p₃]
    split
    · exact continues_writeLine p₂ ""
    · exact .refl p₂
  exact (hparams.trans hlast).trans (continues_write p₃ ")")

/-- A function is a blank line, the comment with its schema, and its signature, which goes on to
the end. -/
theorem text_write (p : Page) (k : KernelFunction) : ∃ behind, (k.write p).text =
    p.text ++ "\n" ++ (indentation p.depth ++ schemaComment k.linked.schema ++ "\n") ++
      (indentation p.depth ++ signatureStart k.linked) ++ behind := by
  have hcomment : (schemaComment k.linked.schema).isEmpty = false := by simp [schemaComment]
  have hstart : (signatureStart k.linked).isEmpty = false := by simp [signatureStart]
  have hopening : ((p.blankLine.writeLine (schemaComment k.linked.schema)).write
      (signatureStart k.linked)).text =
      p.text ++ "\n" ++ (indentation p.depth ++ schemaComment k.linked.schema ++ "\n") ++
        (indentation p.depth ++ signatureStart k.linked) := by
    simp [blankLine, writeLine, endLine, Page.write, hcomment, hstart, String.append_assoc]
  have hsignature := continues_writeSignature
    (p.blankLine.writeLine (schemaComment k.linked.schema)) k.linked
  suffices hwrite : ((p.blankLine.writeLine (schemaComment k.linked.schema)).write
      (signatureStart k.linked)).Continues (k.write p) by
    obtain ⟨behind, hbehind⟩ := hwrite
    exact ⟨behind, hbehind.trans (congrArg (· ++ behind) hopening)⟩
  unfold KernelFunction.write
  cases k.body? with
  | none => exact hsignature.trans (continues_writeLine _ ";")
  | some body =>
    exact ((hsignature.trans (continues_writeLine _ " \x7b")).trans (continues_writeRaw _ _)).trans
      (continues_writeLine _ "\x7d")

/-- **A comment hides the first line of a schema.**  Whatever function is written for a linked
declaration, its schema stands between a blank line and the signature, behind two slashes.  All
lines there are comments if and only if those of the schema behind its first one are, and the tokens
of these lines, which the signature was read from, are tokens of what is written. -/
theorem comments_schema_iff {d : Host.Declaration} {m : Metadata} {f : LinkedFunction}
    {mapping : Mapping} {k : KernelFunction} (hlink : (link d m).result = .ok f)
    (hk : (ofMapping f mapping).result = .ok k) (p : Page) :
    (∃ behind, (k.write p).text =
      p.text ++ "\n" ++ (indentation p.depth ++ schemaComment m.schema ++ "\n") ++
        (indentation p.depth ++ (d.returnType.text ++ " " ++ d.name ++ "(")) ++ behind) ∧
    ((∀ line ∈ linesOf (schemaComment m.schema), IsComment line) ↔
      ∀ line ∈ (linesOf m.schema).tail, IsComment line) ∧
    ∃ ts front back, tokenize m.schema = .ok ts ∧
      ts.map Token.shape = front ++ back ++ [Shape.endOfText] ∧
      Cuts m.schema.toList front (behindFirstLine m.schema.toList) ∧
      ∃ us, tokenize (schemaComment m.schema ++ "\n") = .ok us ∧
        us.map Token.shape = back ++ [Shape.endOfText] := by
  obtain ⟨signature, params, -, hsignature, -, rfl⟩ := link_eq_ok hlink
  obtain ⟨ts, hts, -⟩ := read_eq_ok.1 hsignature
  have hkept := linked_of_ofMapping hk
  obtain ⟨front, back, hshapes, hfront, hcomment⟩ := tokens_of_schemaComment hts
  have htext := text_write p k
  rw [hkept] at htext
  exact ⟨htext, isComment_schemaComment_iff m.schema, ts, front, back, hts, hshapes, hfront,
    hcomment⟩

/-- A declaration of two tensors. -/
def sumDeclaration : Host.Declaration where
  returnType := ⟨false, false, ["Tensor"], [], []⟩
  name := "sum"
  params :=
    [⟨⟨false, false, ["Tensor"], [], []⟩, some "a", none⟩,
     ⟨⟨false, false, ["Tensor"], [], []⟩, some "b", none⟩]
  terminator := ⟨.semicolon, ";", ⟨1, 29⟩, [], []⟩
  location := ⟨1, 1⟩

/-- Its operator, with a schema of two lines. -/
def sumMetadata : Metadata := ⟨"sum(Tensor a,\nTensor b) -> Tensor", true, false⟩

/-- The declaration, linked to the operator. -/
def sumFunction : LinkedFunction where
  declaration := sumDeclaration
  metadata := sumMetadata
  signature :=
    let tensor : Schema.SchemaType := ⟨.tensor, none, []⟩
    ⟨["sum"], none, [.value tensor (some "a") none, .value tensor (some "b") none], .value tensor⟩
  params :=
    [.declared ⟨⟨false, false, ["Tensor"], [], []⟩, some "a", none⟩ [0],
     .declared ⟨⟨false, false, ["Tensor"], [], []⟩, some "b", none⟩ [1]]

theorem link_sum : (link sumDeclaration sumMetadata).result = .ok sumFunction := by cbv

theorem comments_schema_sum :
    (link sumDeclaration sumMetadata).result = .ok sumFunction ∧
    (ofMapping sumFunction .signatureOnly).result = .ok ⟨sumFunction, none⟩ ∧
    (∃ behind, ((⟨sumFunction, none⟩ : KernelFunction).write (.blank 0)).text =
      "" ++ "\n" ++ (indentation 0 ++ schemaComment sumMetadata.schema ++ "\n") ++
        (indentation 0 ++ (sumDeclaration.returnType.text ++ " " ++ sumDeclaration.name ++ "(")) ++
        behind) ∧
    ((∀ line ∈ linesOf (schemaComment sumMetadata.schema), IsComment line) ↔
      ∀ line ∈ (linesOf sumMetadata.schema).tail, IsComment line) ∧
    ∃ ts front back, tokenize sumMetadata.schema = .ok ts ∧
      ts.map Token.shape = front ++ back ++ [Shape.endOfText] ∧
      Cuts sumMetadata.schema.toList front (behindFirstLine sumMetadata.schema.toList) ∧
      ∃ us, tokenize (schemaComment sumMetadata.schema ++ "\n") = .ok us ∧
        us.map Token.shape = back ++ [Shape.endOfText] := by
  have hk : (ofMapping sumFunction .signatureOnly).result = .ok ⟨sumFunction, none⟩ := rfl
  exact ⟨link_sum, hk, comments_schema_iff link_sum hk (.blank 0)⟩

/-- The second line of the schema stands in front of the prototype as it is. -/
theorem schema_leaks_sum :
    (link sumDeclaration sumMetadata).result = .ok sumFunction ∧
    (ofMapping sumFunction .signatureOnly).result = .ok ⟨sumFunction, none⟩ ∧
    (⟨sumFunction, none⟩ : KernelFunction).text =
      "\n// sum(Tensor a,\nTensor b) -> Tensor\nTensor sum(\n  Tensor a,\n  Tensor b);\n" ∧
    ∃ line ∈ linesOf (schemaComment sumMetadata.schema), ¬ IsComment line := by
  refine ⟨link_sum, rfl, rfl, "Tensor b) -> Tensor".toList, ?_, ?_⟩
  · decide
  · unfold IsComment
    decide

end KernelFunction

end KernelGen
