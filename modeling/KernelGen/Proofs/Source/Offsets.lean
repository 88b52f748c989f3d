import KernelGen.Diagnostic.Cause
import KernelGen.Proofs.Source.Strays
set_option autoImplicit false

/-!
# Source: locations and offsets

A location is kept while a text is cut, one character after the other, and trivia is handed over to
the tokens around it afterwards.  What a location says does not depend on either: it is the line
and the column of a byte of the text, and the byte is found by adding up what stands in front of
the token.  `tokenize_locations` says so of the tokens of a text, and of the place where a text
without tokens is refused.
-/

namespace KernelGen.Source

/-! ## Bytes -/

/-- The bytes of a text. -/
def bytesOf (text : String) : List UInt8 := text.toUTF8.data.toList

theorem bytesOf_eq_flatMap (text : String) :
    bytesOf text = text.toList.flatMap String.utf8EncodeChar := by
  rw [bytesOf, String.toUTF8, ← String.utf8Encode_toList, List.utf8Encode,
    List.toList_data_toByteArray]

theorem bytesOf_append (s t : String) : bytesOf (s ++ t) = bytesOf s ++ bytesOf t := by
  simp [bytesOf_eq_flatMap]

theorem length_bytesOf (text : String) : (bytesOf text).length = text.utf8ByteSize := rfl

theorem take_bytesOf_append (s t : String) :
    (bytesOf (s ++ t)).take s.utf8ByteSize = bytesOf s := by
  rw [bytesOf_append, ← length_bytesOf, List.take_left]

/-- A character of one byte has its code as this byte, and no other character has a byte below
128. -/
theorem toNat_of_mem_encode {c : Char} {b : UInt8} (h : b ∈ String.utf8EncodeChar c) :
    b.toNat = c.toNat ∨ 128 ≤ b.toNat := by
  have hcode : c.toNat = c.val.toNat := rfl
  unfold String.utf8EncodeChar at h
  dsimp only at h
  split at h
  · rw [List.mem_singleton.1 h, UInt8.toNat_ofNat']
    omega
  split at h
  · simp only [List.mem_cons, List.not_mem_nil, or_false] at h
    rcases h with rfl | rfl <;> rw [UInt8.toNat_ofNat'] <;> omega
  split at h
  · simp only [List.mem_cons, List.not_mem_nil, or_false] at h
    rcases h with rfl | rfl | rfl <;> rw [UInt8.toNat_ofNat'] <;> omega
  · simp only [List.mem_cons, List.not_mem_nil, or_false] at h
    rcases h with rfl | rfl | rfl | rfl <;> rw [UInt8.toNat_ofNat'] <;> omega

/-- The byte that ends a line. -/
def newlineByte : UInt8 := 10

/-- No character but the newline has the byte that ends a line. -/
theorem newlineByte_notMem_encode {c : Char} (h : c ≠ '\n') :
    newlineByte ∉ String.utf8EncodeChar c := by
  intro hmem
  have hbyte : newlineByte.toNat = 10 := rfl
  have hcode : c.toNat ≠ 10 := fun hc => h (Char.ext (UInt32.toNat_inj.1 hc))
  rcases toNat_of_mem_encode hmem with hsame | hlarge <;> omega

/-! ## The location of a byte -/

namespace Location

/-- The location behind bytes: the line is one more than the newlines among them, the column one
more than the bytes behind the last newline. -/
def behindBytes (bs : List UInt8) : Location :=
  ⟨1 + bs.count newlineByte, 1 + (bs.reverse.takeWhile (· != newlineByte)).length⟩

/-- The location of the byte at an offset of a text. -/
def ofOffset (text : String) (offset : Nat) : Location :=
  behindBytes ((bytesOf text).take offset)

/-- Both numbers of the location are numbers of 32 bits. -/
def Fits (l : Location) : Prop := l.line < 2 ^ 32 ∧ l.column < 2 ^ 32

theorem behindBytes_append_encode (bs : List UInt8) (c : Char) :
    behindBytes (bs ++ String.utf8EncodeChar c) = (behindBytes bs).step c := by
  by_cases hc : c = '\n'
  · subst hc
    have hencode : String.utf8EncodeChar '\n' = [newlineByte] := rfl
    simp [behindBytes, step, hencode, Nat.add_assoc]
  · have hnot := newlineByte_notMem_encode hc
    have hline : ∀ b ∈ (String.utf8EncodeChar c).reverse, (b != newlineByte) = true :=
      fun b hb => bne_iff_ne.2 fun heq => hnot (heq ▸ List.mem_reverse.1 hb)
    rw [behindBytes, behindBytes, step, if_neg hc, List.count_append, List.count_eq_zero.2 hnot,
      List.reverse_append, List.takeWhile_append_of_pos hline, List.length_append,
      List.length_reverse, String.length_utf8EncodeChar]
    simp only [Location.mk.injEq]
    omega

/-- Going through a text character by character leads to the location behind its bytes. -/
theorem advance_start (cs : List Char) :
    start.advance cs = behindBytes (cs.flatMap String.utf8EncodeChar) := by
  induction cs using List.reverseRecOn with
  | nil => rfl
  | append_singleton cs c ih =>
    rw [advance_append, ih, List.flatMap_append, List.flatMap_singleton,
      behindBytes_append_encode]
    rfl

theorem ofOffset_append (s t : String) :
    ofOffset (s ++ t) s.utf8ByteSize = start.advance s.toList := by
  rw [ofOffset, take_bytesOf_append, bytesOf_eq_flatMap, advance_start]

theorem fits_ofOffset {text : String} (h : text.utf8ByteSize < 2 ^ 32 - 1) (offset : Nat) :
    (ofOffset text offset).Fits := by
  have hbytes : ((bytesOf text).take offset).length ≤ text.utf8ByteSize :=
    (List.length_take_le' _ _).trans (length_bytesOf text).le
  have hlines := List.count_le_length (a := newlineByte) (l := (bytesOf text).take offset)
  have hcolumns := (List.takeWhile_prefix (l := ((bytesOf text).take offset).reverse)
    (· != newlineByte)).length_le
  rw [List.length_reverse] at hcolumns
  constructor <;> simp only [ofOffset, behindBytes] <;> omega

end Location

/-- The piece of the text stands at the offset, and the location is that of its first byte. -/
structure Stands (text : String) (l : Location) (offset : Nat) (piece : String) : Prop where
  /-- The location counts the lines and the columns in front of the offset. -/
  location : l = .ofOffset text offset
  fits : l.Fits
  /-- The bytes in front of the piece are as many as the offset says. -/
  split : ∃ before behind, text = before ++ (piece ++ behind) ∧ before.utf8ByteSize = offset

theorem Stands.of_advance {text before piece behind : String} {l : Location}
    (hsize : text.utf8ByteSize < 2 ^ 32 - 1) (htext : text = before ++ (piece ++ behind))
    (hl : l = Location.start.advance before.toList) :
    Stands text l before.utf8ByteSize piece := by
  have hlocation : l = .ofOffset text before.utf8ByteSize := by
    rw [hl, htext, Location.ofOffset_append]
  exact ⟨hlocation, hlocation ▸ Location.fits_ofOffset hsize _, before, behind, htext, rfl⟩

/-! ## The offset of a token -/

/-- The number of bytes of a run of trivia. -/
def runSize (run : List Trivia) : Nat := (run.map (·.text.utf8ByteSize)).sum

/-- The number of bytes of a token, with its trivia on both sides. -/
def Token.byteSize (t : Token) : Nat :=
  runSize t.leading + t.text.utf8ByteSize + runSize t.trailing

/-- The number of bytes in front of a token: those of the tokens in front of it, each with its
trivia, and those of the trivia that leads it. -/
def offsetOf (front : List Token) (t : Token) : Nat :=
  (front.map Token.byteSize).sum + runSize t.leading

theorem utf8ByteSize_join (ss : List String) :
    (String.join ss).utf8ByteSize = (ss.map String.utf8ByteSize).sum := by
  induction ss with
  | nil => rfl
  | cons s ss ih =>
    rw [String.join_cons, String.utf8ByteSize_append, ih, List.map_cons, List.sum_cons]

theorem utf8ByteSize_runText (run : List Trivia) : (runText run).utf8ByteSize = runSize run := by
  rw [runText, utf8ByteSize_join, List.map_map]
  rfl

theorem utf8ByteSize_source (t : Token) : t.source.utf8ByteSize = t.byteSize := by
  rw [Token.source, String.utf8ByteSize_append, String.utf8ByteSize_append, utf8ByteSize_runText,
    utf8ByteSize_runText, ← Nat.add_assoc, Token.byteSize]

/-- The text in front of a token. -/
def textInFront (front : List Token) (t : Token) : String :=
  String.join (front.map Token.source) ++ runText t.leading

theorem utf8ByteSize_textInFront (front : List Token) (t : Token) :
    (textInFront front t).utf8ByteSize = offsetOf front t := by
  rw [textInFront, String.utf8ByteSize_append, utf8ByteSize_join, List.map_map,
    utf8ByteSize_runText, offsetOf]
  simp only [Function.comp_def, utf8ByteSize_source]

theorem join_source_split (front : List Token) (t : Token) (back : List Token) :
    String.join ((front ++ t :: back).map Token.source) =
      textInFront front t ++ (t.text ++ (runText t.trailing ++
        String.join (back.map Token.source))) := by
  simp [textInFront, Token.source, String.join_append, String.append_assoc]

/-! ## Tokens at their locations -/

/-- Each token is where the tokens in front of it and the trivia that leads it end, when the first
of them begins at `l`. -/
def Located : Location → List Token → Prop
  | _, [] => True
  | l, t :: ts =>
    t.location = l.advance (runText t.leading).toList ∧ Located (l.advance t.source.toList) ts

/-- Trivia that leads the first token moves it. -/
theorem located_leadWith_append (l : Location) (run run' : List Trivia) (ts : List Token) :
    Located l (leadWith (run ++ run') ts) ↔
      Located (l.advance (runText run).toList) (leadWith run' ts) := by
  cases ts with
  | nil => exact Iff.rfl
  | cons t ts => simp [leadWith, Located, Token.source, runText_append]

theorem located_of_scan {l : Location} {cs : List Char} {xs : List Lexeme}
    (h : Lexeme.scan l cs = .ok xs) :
    Located l (leadWith (attach (l.advance cs) xs).1 (attach (l.advance cs) xs).2) := by
  fun_induction Lexeme.scan l cs generalizing xs with
  | case1 l =>
    cases h
    exact ⟨rfl, trivial⟩
  | case2 => cases h
  | case3 => cases h
  | case4 l c r kind chars rest hfirst more hmore ih =>
    cases h
    have hlater := ih hmore
    rw [← Lexeme.first_append hfirst, Location.advance_append]
    cases kind with
    | trivia kind =>
      rw [attach_trivia rfl]
      refine (located_leadWith_append l [_] _ _).2 ?_
      simpa [runText] using hlater
    | token kind =>
      rw [attach_token rfl]
      -- the run behind the token is divided, and the token keeps the first part of it
      rw [← divide_append (attach ((l.advance chars).advance rest) more).1,
        located_leadWith_append] at hlater
      refine ⟨rfl, ?_⟩
      simpa [Token.source, runText] using hlater

theorem Located.split {l : Location} {front back : List Token} {t : Token}
    (h : Located l (front ++ t :: back)) :
    t.location = l.advance (textInFront front t).toList := by
  induction front generalizing l with
  | nil => simpa [textInFront] using h.1
  | cons u front ih => simpa [textInFront, String.append_assoc] using ih h.2

/-! ## Refused texts -/

theorem splitString_error_begins {cs body : List Char} (h : splitString cs = .error body) :
    body <+: cs := by
  fun_induction splitString cs generalizing body with
  | case1 | case2 | case3 | case7 => cases h; exact List.nil_prefix
  | case5 c r hc body' hr ih =>
    cases h
    exact List.prefix_cons_inj _ |>.2 (List.prefix_cons_inj _ |>.2 (ih hr))
  | case9 c r _ _ _ _ body' hr ih =>
    cases h
    exact List.prefix_cons_inj _ |>.2 (ih hr)
  | case4 | case6 | case8 => cases h

theorem blockComment_begins (cs : List Char) : blockComment cs <+: cs := by
  fun_induction blockComment cs with
  | case1 | case2 => exact List.prefix_rfl
  | case3 r => exact ⟨'/' :: r, rfl⟩
  | case4 c r _ _ ih => exact List.prefix_cons_inj c |>.2 ih

/-- What is refused is the front of what could not be cut, the first character at least. -/
theorem Lexeme.first_error_begins {c : Char} {r chars : List Char}
    (h : first c r = .error chars) : chars <+: c :: r ∧ chars ≠ [] := by
  unfold first at h
  -- blanks, newlines, directives, words and numbers are never refused
  iterate 5 (split at h; · cases h)
  split at h
  · split at h
    · cases h
    · rename_i body hbody
      cases h
      exact ⟨(List.prefix_cons_inj c).2 (splitString_error_begins hbody), List.cons_ne_nil _ _⟩
  split at h
  · split at h
    · cases h
    · cases h
      exact ⟨(List.prefix_cons_inj c).2 ((List.prefix_cons_inj _).2 (blockComment_begins _)),
        List.cons_ne_nil _ _⟩
    · cases h
      exact ⟨⟨r, rfl⟩, List.cons_ne_nil _ _⟩
  split at h
  · split at h <;> cases h
  split at h
  · split at h <;> cases h
  split at h
  · cases h
  · cases h
    exact ⟨⟨r, rfl⟩, List.cons_ne_nil _ _⟩

/-- A lexeme starts with the text, if it is not empty. -/
def GoesOn (cs : List Char) : Prop := ∀ c r, cs = c :: r → StartsLexeme c r

theorem goesOn_of_first {c : Char} {r : List Char} {kind : LexemeKind} {chars more : List Char}
    (h : Lexeme.first c r = .ok (kind, chars, more)) : GoesOn (c :: r) := by
  rintro _ _ ⟨⟩
  exact first_isOk_iff.1 ⟨kind, chars, more, h⟩

/-- There is one place at most where cutting lexemes off a text stops short. -/
theorem Cuts.eq_of_stops {cs rest rest' : List Char} {ks ks' : List Shape} (h : Cuts cs ks rest)
    (h' : Cuts cs ks' rest') (hrest : ¬ GoesOn rest) (hrest' : ¬ GoesOn rest') : rest = rest' := by
  induction h generalizing ks' with
  | done =>
    cases h' with
    | done => rfl
    | token hfirst _ => exact absurd (goesOn_of_first hfirst) hrest
    | trivia hfirst _ => exact absurd (goesOn_of_first hfirst) hrest
  | token hfirst _ ih =>
    cases h' with
    | done => exact absurd (goesOn_of_first hfirst) hrest'
    | token hfirst' hmore =>
      cases hfirst.symm.trans hfirst'
      exact ih hmore hrest
    | trivia hfirst' _ => cases hfirst.symm.trans hfirst'
  | trivia hfirst _ ih =>
    cases h' with
    | done => exact absurd (goesOn_of_first hfirst) hrest'
    | token hfirst' _ => cases hfirst.symm.trans hfirst'
    | trivia hfirst' hmore =>
      cases hfirst.symm.trans hfirst'
      exact ih hmore hrest

/-- Whole lexemes lead up to the offset in the text, and none starts there. -/
def StopsAt (text : String) (offset : Nat) : Prop :=
  ∃ before behind ks, text = before ++ behind ∧ before.utf8ByteSize = offset ∧
    Cuts text.toList ks behind.toList ∧ ¬ GoesOn behind.toList

theorem StopsAt.unique {text : String} {m n : Nat} (h : StopsAt text m) (h' : StopsAt text n) :
    m = n := by
  obtain ⟨before, behind, ks, htext, rfl, hcuts, hstops⟩ := h
  obtain ⟨before', behind', ks', htext', rfl, hcuts', hstops'⟩ := h'
  have hbehind : behind = behind' :=
    String.toList_inj.1 (hcuts.eq_of_stops hcuts' hstops hstops')
  have hsize : (before ++ behind).utf8ByteSize = (before' ++ behind').utf8ByteSize := by
    rw [← htext, ← htext']
  rw [String.utf8ByteSize_append, String.utf8ByteSize_append, hbehind] at hsize
  exact Nat.add_right_cancel hsize

/-- What is refused stands where no lexeme starts, and its location is that of this place. -/
theorem stands_of_stray {text : String} {e : StrayText} (hsize : text.utf8ByteSize < 2 ^ 32 - 1)
    (h : tokenize text = .error e) :
    ∃ offset, (∀ n, StopsAt text n ↔ n = offset) ∧ Stands text e.location offset e.text ∧
      e.text ≠ "" := by
  obtain ⟨ks, before, c, r, hcuts, hsplit, hfirst, hlocation⟩ :=
    exists_stray_of_scan (tokenize_eq_error.1 h)
  obtain ⟨⟨behind, hbehind⟩, hne⟩ := Lexeme.first_error_begins hfirst
  have htext : text = String.ofList before ++ String.ofList (c :: r) := by
    rw [← String.toList_inj, hsplit]
    simp
  have hpiece : String.ofList (c :: r) = e.text ++ String.ofList behind := by
    rw [← String.toList_inj, String.toList_ofList, ← hbehind]
    simp
  have hstops : StopsAt text (String.ofList before).utf8ByteSize := by
    refine ⟨_, _, ks, htext, rfl, by rwa [String.toList_ofList], fun hgoes => ?_⟩
    exact not_startsLexeme_of_first hfirst (hgoes c r String.toList_ofList)
  refine ⟨_, fun n => ⟨fun hn => hn.unique hstops, fun hn => hn ▸ hstops⟩,
    .of_advance hsize (hpiece ▸ htext) ?_, fun hempty => ?_⟩
  · rw [hlocation, String.toList_ofList]
  · exact hne (hempty ▸ rfl)

/-! ## The locations of a text -/

/-- **Locations are true.**  Let a text have fewer bytes than the largest number of 32 bits.  Then
each of its tokens, the end of the text included, stands at the offset that the tokens and the
trivia in front of it add up to, and its location is that of the byte there: one line more than
there are newlines in front of it, and one column more than there are bytes behind the last of them.
If the text has no tokens, the location that is reported is that of the first byte of what is
refused, which stands at the one place where cutting the text stops short. -/
theorem tokenize_locations {text : String} (hsize : text.utf8ByteSize < 2 ^ 32 - 1) :
    (∀ ts, tokenize text = .ok ts → ∀ front t back, ts = front ++ t :: back →
      Stands text t.location (offsetOf front t) t.text) ∧
    ∀ e, tokenize text = .error e → ∃ offset, (∀ n, StopsAt text n ↔ n = offset) ∧
      Stands text e.location offset e.text ∧ e.text ≠ "" ∧
      ∀ origin, (ReadError.stray e).text origin = "unexpected character " ++
        Text.quoted e.text ++ " at " ++ (Location.ofOffset text offset).text := by
  constructor
  · rintro ts h front t back rfl
    have hsource := (tokenize_lossless h).1
    rw [join_source_split] at hsource
    obtain ⟨xs, hscan, hts⟩ := tokenize_eq_ok h
    have hlocated := located_of_scan hscan
    rw [← tokensOf, ← hts] at hlocated
    rw [← utf8ByteSize_textInFront]
    exact .of_advance hsize hsource.symm hlocated.split
  · intro e h
    obtain ⟨offset, hstops, hstands, hne⟩ := stands_of_stray hsize h
    refine ⟨offset, hstops, hstands, hne, fun origin => ?_⟩
    rw [← hstands.location]
    rfl

/-! ## Texts with characters of several bytes -/

/-- A text in which characters of several bytes are in a comment and in a string. -/
def accentedText : String := "// é\n f(\"ß€\") // ü\n\ng"

/-- The tokens of `accentedText` up to the string. -/
def accentedFront : List Token :=
  [⟨.identifier, "f", ⟨2, 2⟩,
      [⟨.lineComment, "// é"⟩, ⟨.newline, "\n"⟩, ⟨.whitespace, " "⟩], []⟩,
    ⟨.openParen, "(", ⟨2, 3⟩, [], []⟩,
    ⟨.string, "\"ß€\"", ⟨2, 4⟩, [], []⟩]

/-- The token of `accentedText` behind the string. -/
def accentedParen : Token :=
  ⟨.closeParen, ")", ⟨2, 11⟩, [],
    [⟨.whitespace, " "⟩, ⟨.lineComment, "// ü"⟩, ⟨.newline, "\n"⟩]⟩

/-- The tokens of `accentedText` behind the comment that follows the string. -/
def accentedBack : List Token :=
  [⟨.identifier, "g", ⟨4, 1⟩, [⟨.newline, "\n"⟩], []⟩, Token.endOfText ⟨4, 2⟩ []]

/-- A text in which a string is not closed on its line. -/
def openString : String := "f // é\n g \"€\n"

theorem tokenize_locations_accentedText :
    (accentedText.utf8ByteSize < 2 ^ 32 - 1 ∧
      tokenize accentedText = .ok (accentedFront ++ accentedParen :: accentedBack) ∧
      Stands accentedText ⟨2, 11⟩ 16 ")") ∧
    (openString.utf8ByteSize < 2 ^ 32 - 1 ∧
      tokenize openString = .error ⟨"\"€", ⟨2, 4⟩⟩ ∧
      ∃ offset, (∀ n, StopsAt openString n ↔ n = offset) ∧
        Stands openString ⟨2, 4⟩ offset "\"€") := by
  have hsize : accentedText.utf8ByteSize < 2 ^ 32 - 1 := by decide
  have htokens : tokenize accentedText =
      .ok (accentedFront ++ accentedParen :: accentedBack) := by cbv
  have hoffset : offsetOf accentedFront accentedParen = 16 := by cbv
  have hsize' : openString.utf8ByteSize < 2 ^ 32 - 1 := by decide
  have hrefused : tokenize openString = .error ⟨"\"€", ⟨2, 4⟩⟩ := by cbv
  have hparen := (tokenize_locations hsize).1 _ htokens accentedFront accentedParen accentedBack rfl
  obtain ⟨offset, hstops, hstands, -⟩ := (tokenize_locations hsize').2 _ hrefused
  exact ⟨⟨hsize, htokens, hoffset ▸ hparen⟩, hsize', hrefused, offset, hstops, hstands⟩

end KernelGen.Source
