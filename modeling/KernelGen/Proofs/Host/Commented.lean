import KernelGen.Proofs.Host.Joining
import KernelGen.Proofs.Source.Commented
set_option autoImplicit false

/-!
# Host: a declaration with a comment behind it

When a text holds one declaration and ends with its semicolon, a comment behind it becomes the
comment of the declaration, and nothing else of what is read changes.
-/

namespace KernelGen.Host

open Source

theorem next_kind_of_declarationsOf {ts : List Token} (h : declarationsOf ts = .ok []) :
    (next ts).kind = .eof := by
  by_contra hne
  rw [declarationsOf_eq hne] at h
  obtain ⟨⟨d, rest⟩, -, h⟩ := bind_eq_ok.1 h
  obtain ⟨ds, -, h⟩ := bind_eq_ok.1 h
  cases h

/-- The only declaration of a text is read from all of its tokens but the end. -/
theorem exists_tokens_of_declarationsOf {ts : List Token} {d : Declaration} (hend : EndsText ts)
    (h : declarationsOf ts = .ok [d]) :
    ∃ front e, ts = front ++ [d.terminator, e] ∧ (next ts).kind ≠ .eof ∧
      Declaration.step ts = .ok (d, [e]) ∧ d.terminator.kind = .semicolon := by
  have hstart : (next ts).kind ≠ .eof := by
    intro hstart
    rw [declarationsOf, if_pos hstart] at h
    cases h
  rw [declarationsOf_eq hstart] at h
  obtain ⟨⟨d', rest⟩, hstep, h⟩ := bind_eq_ok.1 h
  obtain ⟨ds, hds, h⟩ := bind_eq_ok.1 h
  cases h
  obtain ⟨us, e, rfl, he, -, hus⟩ := hend
  obtain ⟨front, back, rfl, hsplit, -, -, hterminator⟩ := Declaration.step_in_front he hstep
  have hwords := List.takeWhile_append_dropWhile (p := isSpecifier) (l := us)
  rw [hsplit] at hwords
  cases back with
  | nil =>
    refine ⟨us.takeWhile isSpecifier ++ front, e, ?_, hstart, hstep, hterminator⟩
    exact (congrArg (· ++ [e]) hwords).symm.trans (by simp)
  | cons t back =>
    refine absurd (next_kind_of_declarationsOf hds) (hus t ?_)
    rw [← hwords]
    simp

/-- A declaration changes with its semicolon, and with nothing behind that. -/
theorem Declaration.step_terminator {front : List Token} {e : Token} {d : Declaration}
    (hterminator : d.terminator.kind = .semicolon)
    (h : Declaration.step (front ++ [d.terminator, e]) = .ok (d, [e]))
    (t e' : Token) (hshape : t.shape = d.terminator.shape)
    (hlocation : t.location = d.terminator.location) :
    Declaration.step (front ++ [t, e']) = .ok ({ d with terminator := t }, [e']) := by
  have hkind : t.kind = .semicolon := (congrArg Shape.kind hshape).trans hterminator
  obtain ⟨front', hts, hdenotes, hplace⟩ := Declaration.step_eq_ok.1 h
  rw [dropWhile_append_stop (isSpecifier_of_kind_ne (hterminator ▸ TokenKind.noConfusion))] at hts
  obtain ⟨rfl, -⟩ := List.append_inj' hts rfl
  refine Declaration.step_eq_ok.2 ⟨front.dropWhile isSpecifier, ?_, ?_, ?_⟩
  · exact dropWhile_append_stop (isSpecifier_of_kind_ne (hkind ▸ TokenKind.noConfusion)) _ _
  · simpa [hshape] using hdenotes
  · rw [hplace]
    cases front.dropWhile isSpecifier with
    | nil => exact hlocation.symm
    | cons => rfl

/-- The declaration with a comment behind it. -/
def Declaration.commented (note : String) (d : Declaration) : Declaration :=
  { d with terminator := d.terminator.commented note }

theorem declarations_commented {text note : String} {d : Declaration}
    (h : declarations text = .ok [d]) (hd : d.terminator.trailing = [])
    (hnote : '\n' ∉ note.toList) :
    declarations (text ++ " // " ++ note) = .ok [d.commented note] := by
  obtain ⟨ts, hts, hds⟩ := read_eq_ok.1 h
  obtain ⟨front, e, rfl, hstart, hstep, hterminator⟩ :=
    exists_tokens_of_declarationsOf (endsText_of_tokenize hts) hds
  obtain ⟨e', he', hcommented⟩ := tokenize_commented hts hd hnote
  have hstep' : Declaration.step (front ++ [d.terminator.commented note, e']) =
      .ok (d.commented note, [e']) :=
    Declaration.step_terminator hterminator hstep (d.terminator.commented note) e' rfl rfl
  refine declarations_of_step hcommented ?_ hstep' he'
  cases front with
  | nil => exact hstart
  | cons => exact hstart

/-- The comment is what stands behind the slashes. -/
theorem Declaration.comment?_commented (note : String) (d : Declaration) :
    (d.commented note).comment? = some (" " ++ note) := by
  have hnote : ("// " ++ note).toList = '/' :: '/' :: ' ' :: note.toList := by simp
  have hbody : String.ofList (' ' :: note.toList) = " " ++ note := by
    rw [← String.toList_inj]
    simp
  rw [← hbody, comment?, Token.trailingComment?, commented, Token.commented]
  simp [hnote]

end KernelGen.Host
