import KernelGen.Proofs.Host.Commented
import KernelGen.Proofs.Json.Document
import KernelGen.Proofs.Json.Form
import KernelGen.Proofs.Metadata.Joining
set_option autoImplicit false

/-!
# Metadata: what the comments of a header carry

Metadata is written behind a declaration as a JSON object in a comment.  Whatever the schema is, the
object has no newline, so the comment ends where the object does; it trails the semicolon that it
was written behind; and what is read from it is what was written.  `declarations_sheet` says this of
a whole header.
-/

namespace KernelGen

open Source Host

namespace Metadata

/-- The word for a flag. -/
def flagWord (b : Bool) : String := if b then "True" else "False"

/-- The members of the record for the metadata. -/
def record (m : Metadata) : List (String × Json) :=
  [("schema", .string m.schema), ("dispatch", .string (flagWord m.dispatch)),
    ("default", .string (flagWord m.default))]

/-- The text is a JSON object for the metadata, with its members in any order and on one line. -/
structure SpelledBy (m : Metadata) (text : String) : Prop where
  object : ∃ ms, ms.Perm m.record ∧ Json.Spells (.object ms) text
  braces : ∃ inner, text.toList = '\x7b' :: (inner ++ ['\x7d'])
  oneLine : '\n' ∉ text.toList

theorem flag_flagWord (key : String) (b : Bool) : flag key (flagWord b) = .ok b := by
  cases b <;> rfl

theorem trimmed_behind {b c d : Char} (hb : Text.isBlank b = true) (hc : Text.isBlank c = false)
    (hd : Text.isBlank d = false) (cs : List Char) :
    Text.trimmed (b :: c :: (cs ++ [d])) = c :: (cs ++ [d]) := by
  simp [Text.trimmed, hb, hc, hd]

theorem trim_spelled {m : Metadata} {text : String} (h : m.SpelledBy text) :
    Text.trim (" " ++ text) = text := by
  obtain ⟨inner, hinner⟩ := h.braces
  have hall : (" " ++ text).toList = ' ' :: '\x7b' :: (inner ++ ['\x7d']) := by simp [hinner]
  rw [Text.trim, hall, trimmed_behind (by decide) (by decide) (by decide), ← hinner,
    String.ofList_toList]

/-- The members of a record are strings, so nothing is nested in it. -/
theorem depth_record {m : Metadata} {ms : List (String × Json)} (h : ms.Perm m.record) :
    Json.depth (.object ms) ≤ Json.nestingLimit := by
  have hstrings : ∀ x ∈ m.record, Json.depth x.2 = 0 := by
    intro x hx
    simp only [record, List.mem_cons, List.not_mem_nil, or_false] at hx
    rcases hx with rfl | rfl | rfl <;> rfl
  rw [Json.depth, Json.depthOfMembers_eq_zero fun x hx => hstrings x (h.mem_iff.1 hx)]
  decide

theorem fieldsOf_record {m : Metadata} {ms : List (String × Json)} (h : ms.Perm m.record) :
    fieldsOf (.object ms) = .ok (m.schema, flagWord m.dispatch, flagWord m.default) := by
  have hnames : m.record.map Prod.fst = ["schema", dispatchKey, defaultKey] := rfl
  have hmembers := Json.members_of_perm h
    (fun x hx => hnames ▸ List.mem_map_of_mem hx) (hnames ▸ by decide)
  rw [fieldsOf, hmembers]
  rfl

/-- What is read from a comment is what was written into it. -/
theorem ofText_of_spelledBy {m : Metadata} {text : String} (h : m.SpelledBy text) :
    ofText (" " ++ text) = .ok m := by
  obtain ⟨ms, hms, hspells⟩ := h.object
  have hfields : (Json.parse text >>= fieldsOf) =
      .ok (m.schema, flagWord m.dispatch, flagWord m.default) := by
    rw [Json.parse_of_spells hspells (depth_record hms)]
    exact fieldsOf_record hms
  rw [ofText, trim_spelled h, hfields]
  simp only [flag_flagWord]
  rfl

/-- One of the texts for the metadata. -/
def write (m : Metadata) : String :=
  String.ofList ((Json.symbolsOf (.object m.record)).flatMap Json.Symbol.write)

/-- All metadata can be written on one line. -/
theorem spelledBy_write (m : Metadata) : m.SpelledBy m.write := by
  have hnumber : ∀ s ∈ Json.symbolsOf (.object m.record), ∀ t, s ≠ .number t := by
    simp [record, Json.symbolsOf, Json.symbolsOfMembers]
  refine ⟨⟨m.record, .refl _, ?_⟩,
    ⟨(Json.symbolsOfMembers m.record).flatMap Json.Symbol.write, ?_⟩, ?_⟩
  · rw [Json.Spells, write, String.toList_ofList]
    exact Json.textForm_write hnumber
  · rw [write, String.toList_ofList, Json.symbolsOf, List.flatMap_cons, List.flatMap_append]
    rfl
  · rw [write, String.toList_ofList]
    intro hmem
    obtain ⟨s, hs, hline⟩ := List.mem_flatMap.1 hmem
    exact Json.newline_notMem_write (hnumber s hs) hline

end Metadata

/-! ## Headers one below the other -/

/-- What a declaration says, and the comment behind it. -/
def content (d : Declaration) : HostType × String × List Param × Option String :=
  (d.returnType, d.name, d.params, d.comment?)

theorem content_bare (d : Declaration) : content d.bare = content d := by
  rw [content, content, Declaration.comment?_bare]
  rfl

theorem declarations_empty : declarations "" = .ok [] := by
  refine read_eq_ok.2 ⟨[Token.endOfText .start []], by cbv, ?_⟩
  rw [declarationsOf]
  rfl

theorem declarations_intercalate {texts : List String} {dss : List (List Declaration)}
    (h : List.Forall₂ (fun text ds => declarations text = .ok ds) texts dss) :
    ∃ ds, declarations ("\n".intercalate texts) = .ok ds ∧
      ds.map content = dss.flatten.map content := by
  induction h with
  | nil => exact ⟨[], declarations_empty, rfl⟩
  | @cons text ds texts dss hfirst hmore ih =>
    cases hmore with
    | nil =>
      refine ⟨ds, ?_, by simp⟩
      rw [String.intercalate_singleton]
      exact hfirst
    | @cons text' ds' texts dss hsecond hmore =>
      obtain ⟨more, hread, hcontent⟩ := ih
      obtain ⟨all, hall, hbare⟩ := declarations_joined hfirst hread
      refine ⟨all, ?_, ?_⟩
      · rw [String.intercalate_cons_cons]
        exact hall
      · rw [map_of_bare content_bare hbare, List.map_append, List.map_map, List.flatten_cons,
          List.map_append, ← hcontent]
        rfl

/-! ## Headers with metadata -/

/-- Metadata, and a text for it. -/
structure Note where
  metadata : Metadata
  text : String
  spelled : metadata.SpelledBy text

/-- A declaration that ends with its semicolon, and the metadata to write behind it, if any. -/
structure AnnotatedLine where
  prototype : String
  declaration : Declaration
  reads : declarations prototype = .ok [declaration]
  /-- Nothing stands behind the semicolon. -/
  ends : declaration.terminator.trailing = []
  note? : Option Note

namespace AnnotatedLine

/-- The declaration, followed by its metadata in a comment if it has some. -/
def text (x : AnnotatedLine) : String :=
  match x.note? with
  | none => x.prototype
  | some note => x.prototype ++ " // " ++ note.text

/-- The metadata that is written behind the declaration. -/
def metadata? (x : AnnotatedLine) : Option Metadata := x.note?.map Note.metadata

/-- The declaration says what the line is written for, and its comment carries the metadata. -/
structure Gives (x : AnnotatedLine) (d : Declaration) : Prop where
  returnType : d.returnType = x.declaration.returnType
  name : d.name = x.declaration.name
  params : d.params = x.declaration.params
  metadata : Metadata.Denotes d.comment? x.metadata?

theorem declarations_text (x : AnnotatedLine) :
    ∃ d, declarations x.text = .ok [d] ∧ x.Gives d := by
  unfold text
  cases hnote : x.note? with
  | none =>
    refine ⟨x.declaration, x.reads, rfl, rfl, rfl, ?_⟩
    rw [metadata?, hnote, Declaration.comment?, Token.trailingComment?, x.ends]
    exact .none
  | some note =>
    refine ⟨x.declaration.commented note.text,
      declarations_commented x.reads x.ends note.spelled.oneLine, rfl, rfl, rfl, ?_⟩
    rw [metadata?, hnote, Declaration.comment?_commented]
    exact .some (Metadata.ofText_of_spelledBy note.spelled)

/-- What a line gives is in the contents of the declaration. -/
theorem Gives.of_content {x : AnnotatedLine} {d d' : Declaration} (h : x.Gives d)
    (hcontent : content d = content d') : x.Gives d' := by
  simp only [content, Prod.mk.injEq] at hcontent
  obtain ⟨hreturn, hname, hparams, hcomment⟩ := hcontent
  exact ⟨hreturn ▸ h.returnType, hname ▸ h.name, hparams ▸ h.params, hcomment ▸ h.metadata⟩

end AnnotatedLine

/-- The lines one below the other.  When the text ends with a newline, an empty line is the last. -/
def sheet (ended : Bool) (xs : List AnnotatedLine) : String :=
  "\n".intercalate (xs.map AnnotatedLine.text ++ if ended then [""] else [])

/-- Each line of a sheet gives one declaration, and nothing else does. -/
theorem declarations_sheet_gives (ended : Bool) (xs : List AnnotatedLine) :
    ∃ ds, declarations (sheet ended xs) = .ok ds ∧
      List.Forall₂ (fun d x => x.Gives d) ds xs := by
  choose read hread hgives using AnnotatedLine.declarations_text
  have hlines : List.Forall₂ (fun text ds => declarations text = .ok ds)
      (xs.map AnnotatedLine.text ++ if ended then [""] else [])
      (xs.map (fun x => [read x]) ++ if ended then [[]] else []) := by
    refine List.rel_append ?_ ?_
    · rw [List.forall₂_map_left_iff, List.forall₂_map_right_iff, List.forall₂_same]
      exact fun x _ => hread x
    · cases ended
      · exact .nil
      · exact .cons declarations_empty .nil
  have hflat : (xs.map (fun x => [read x]) ++ if ended then [[]] else []).flatten =
      xs.map read := by
    have hone : (xs.map fun x => [read x]).flatten = xs.map read := by
      rw [← List.flatMap_def, ← List.map_eq_flatMap]
    cases ended <;> simp [hone]
  obtain ⟨ds, hds, hcontent⟩ := declarations_intercalate hlines
  rw [hflat, List.map_map, ← List.forall₂_eq_eq_eq, List.forall₂_map_left_iff,
    List.forall₂_map_right_iff] at hcontent
  exact ⟨ds, hds, hcontent.imp fun d x h => (hgives x).of_content h.symm⟩

/-! ## A small sheet -/

/-- A declaration that ends with its semicolon. -/
def plainDeclaration : Declaration where
  returnType := ⟨false, false, ["void"], [], []⟩
  name := "f"
  params := []
  terminator := ⟨.semicolon, ";", ⟨1, 9⟩, [], []⟩
  location := ⟨1, 1⟩

/-- The tokens of `plainDeclaration`. -/
def plainTokens : List Token :=
  [⟨.identifier, "void", ⟨1, 1⟩, [], [⟨.whitespace, " "⟩]⟩, ⟨.identifier, "f", ⟨1, 6⟩, [], []⟩,
    ⟨.openParen, "(", ⟨1, 7⟩, [], []⟩, ⟨.closeParen, ")", ⟨1, 8⟩, [], []⟩,
    plainDeclaration.terminator, Token.endOfText ⟨1, 10⟩ []]

theorem declarations_plain : declarations "void f();" = .ok [plainDeclaration] := by
  have hts : tokenize "void f();" = .ok plainTokens := by cbv
  have hstep : Declaration.step plainTokens =
      .ok (plainDeclaration, [Token.endOfText ⟨1, 10⟩ []]) := by cbv
  exact declarations_of_step hts TokenKind.noConfusion hstep rfl

/-- The declaration with metadata behind it or not. -/
def plainLine (m? : Option Metadata) : AnnotatedLine where
  prototype := "void f();"
  declaration := plainDeclaration
  reads := declarations_plain
  ends := rfl
  note? := m?.map fun m => ⟨m, m.write, m.spelledBy_write⟩

/-- Metadata whose schema has a quote, a backslash, a newline and slashes. -/
def oddMetadata : Metadata := ⟨"\"\\\n//", true, false⟩

/-! ## The metadata of a sheet -/

/-- What was written behind each declaration is what its place in the table has. -/
theorem declarations_sheet (ended : Bool) (xs : List AnnotatedLine) :
    ∃ ds table, declarations (sheet ended xs) = .ok ds ∧
      ds.map (fun d => (d.returnType, d.name, d.params)) =
        xs.map (fun x => (x.declaration.returnType, x.declaration.name, x.declaration.params)) ∧
      MetadataTable.ofComments ds = .ok table ∧
      table.size = (xs.filterMap AnnotatedLine.metadata?).length ∧
      ∀ place, table.get? place = xs[place]?.bind AnnotatedLine.metadata? := by
  obtain ⟨ds, hds, hgives⟩ := declarations_sheet_gives ended xs
  have htable : MetadataTable.ofComments ds =
      .ok ⟨MetadataTable.entriesFrom 0 (xs.map AnnotatedLine.metadata?)⟩ := by
    refine MetadataTable.ofComments_eq_ok.2 ⟨_, ?_, rfl⟩
    rw [List.forall₂_map_left_iff, List.forall₂_map_right_iff]
    exact hgives.imp fun d x h => h.metadata
  refine ⟨ds, _, hds, ?_, htable, ?_, fun place => ?_⟩
  · rw [← List.forall₂_eq_eq_eq, List.forall₂_map_left_iff, List.forall₂_map_right_iff]
    exact hgives.imp fun d x h => by rw [h.returnType, h.name, h.params]
  · rw [MetadataTable.size, MetadataTable.length_entriesFrom, List.filterMap_map]
    rfl
  · have hplace := MetadataTable.lookup_entriesFrom 0 place (xs.map AnnotatedLine.metadata?)
    rw [Nat.zero_add, List.getElem?_map] at hplace
    rw [MetadataTable.get?, hplace]
    cases xs[place]? <;> rfl

theorem declarations_sheet_plain :
    sheet true [plainLine none, plainLine (some oddMetadata)] =
      "void f();\nvoid f(); // \x7b\"schema\":\"\\\"\\\\\\u000a//\"," ++
        "\"dispatch\":\"True\",\"default\":\"False\"\x7d\n" ∧
    ∃ ds table,
      declarations (sheet true [plainLine none, plainLine (some oddMetadata)]) = .ok ds ∧
      MetadataTable.ofComments ds = .ok table ∧ table.size = 1 ∧ table.get? 0 = none ∧
      table.get? 1 = some oddMetadata := by
  refine ⟨by cbv, ?_⟩
  obtain ⟨ds, table, hds, -, htable, hsize, hplaces⟩ :=
    declarations_sheet true [plainLine none, plainLine (some oddMetadata)]
  exact ⟨ds, table, hds, htable, hsize, hplaces 0, hplaces 1⟩

end KernelGen
