import KernelGen.Proofs.Host.Extent
import KernelGen.Proofs.Source.Joining
import KernelGen.Proofs.Source.Strays
set_option autoImplicit false

/-!
# Host: a header below another

The tokens of a header with another one below it are those of the two, and a declaration ends with
its semicolon.  So the declarations are those of the first header and then those of the second,
which only stand on later lines, and the second header is refused wherever it stands.
-/

namespace KernelGen.Host

open Source

/-- The same declaration in another place. -/
def Declaration.moved (move : Location → Location) (d : Declaration) : Declaration :=
  { d with terminator := d.terminator.moved move, location := move d.location }

/-- The declaration without the trivia of its semicolon, the line comments behind it apart. -/
def Declaration.bare (d : Declaration) : Declaration := { d with terminator := d.terminator.bare }

theorem Declaration.comment?_bare (d : Declaration) : d.bare.comment? = d.comment? := by
  have hfind : ∀ run : List Trivia, (run.filter (·.kind == .lineComment)).find?
      (·.kind == .lineComment) = run.find? (·.kind == .lineComment) := by
    intro run
    rw [← List.head?_filter, ← List.head?_filter, List.filter_filter]
    simp only [Bool.and_self]
  unfold Declaration.comment? Token.trailingComment?
  rw [Declaration.bare, Token.bare, hfind]

/-- What does not depend on trivia is the same for declarations that differ in nothing else. -/
theorem map_of_bare {β : Type} {f : Declaration → β} (hf : ∀ d, f d.bare = f d)
    {ds ds' : List Declaration} (h : ds'.map Declaration.bare = ds.map Declaration.bare) :
    ds'.map f = ds.map f := by
  have hbare : f ∘ Declaration.bare = f := funext hf
  have hmap := congrArg (List.map f) h
  rwa [List.map_map, List.map_map, hbare] at hmap

/-! ## Tokens in another place -/

section Moved

variable {move : Location → Location} {ts ts' : List Token}

/-- The tokens are the same in another place, whatever trivia they own. -/
def MovedTo (move : Location → Location) (t t' : Token) : Prop := t'.bare = (t.moved move).bare

theorem MovedTo.shape {t t' : Token} (h : MovedTo move t t') : t'.shape = t.shape := by
  have hshape := congrArg Token.shape h
  exact hshape

theorem map_bare_of_alike {ds ds' : List Declaration}
    (h : List.Forall₂ (Declaration.Alike (MovedTo move)) ds ds') :
    ds'.map Declaration.bare = (ds.map (Declaration.moved move)).map Declaration.bare := by
  induction h with
  | nil => rfl
  | @cons d d' ds ds' hd _ ih =>
    obtain ⟨t, t', ht, hlocation, hlocation'⟩ := hd.location
    have hplace : d'.location = move d.location := by
      rw [hlocation, hlocation']
      exact congrArg Token.location ht
    have hterminator : d'.terminator.bare = (d.terminator.moved move).bare := hd.terminator
    rw [List.map_cons, ih, List.map_cons, List.map_cons]
    simp only [Declaration.bare, Declaration.moved, hd.returnType, hd.name, hd.params, hplace,
      hterminator]

/-- The tokens that look like those of a text end as they do. -/
theorem exists_end_of_shapes (hend : EndsText ts)
    (h : ts'.map Token.shape = ts.map Token.shape) :
    ∃ us e, ts' = us ++ [e] ∧ e.kind = .eof ∧ ∀ t ∈ us, t.kind ≠ .eof := by
  obtain ⟨front, last, rfl, hlast, -, hfront⟩ := hend
  rw [List.map_append] at h
  obtain ⟨us, back, rfl, hus, hback⟩ := List.map_eq_append_iff.1 h
  obtain ⟨e, rest, rfl, he, hrest⟩ := List.map_eq_cons_iff.1 hback
  rw [List.map_eq_nil_iff.1 hrest]
  refine ⟨us, e, rfl, (congrArg Shape.kind he).trans hlast, fun t ht heof => ?_⟩
  have hmem : t.shape ∈ front.map Token.shape := hus ▸ List.mem_map_of_mem ht
  obtain ⟨u, hu, hshape⟩ := List.mem_map.1 hmem
  exact hfront u hu ((congrArg Shape.kind hshape).trans heof)

/-- Tokens in another place are read as the declarations in that place. -/
theorem declarationsOf_moved (hend : EndsText ts)
    (hts : ts'.map Token.bare = (ts.map (Token.moved move)).map Token.bare)
    {ds : List Declaration} (h : declarationsOf ts = .ok ds) :
    ∃ ds', declarationsOf ts' = .ok ds' ∧
      ds'.map Declaration.bare = (ds.map (Declaration.moved move)).map Declaration.bare := by
  obtain ⟨us, e, rfl, he, -, hus⟩ := hend
  rw [List.map_map] at hts
  obtain ⟨ds', hds', halike⟩ := declarationsOf_alike_end (R := MovedTo move)
    (fun t t' ht => ht.shape) (forall₂_of_map_eq hts) hus he h
  exact ⟨ds', hds', map_bare_of_alike halike⟩

/-- Tokens that look like those of a text are refused if those are. -/
theorem declarationsOf_refuses (hend : EndsText ts) (hts : ts'.map Token.shape = ts.map Token.shape)
    {f : SyntaxFault} (h : declarationsOf ts = .error f) :
    ∃ f', declarationsOf ts' = .error f' := by
  cases hread : declarationsOf ts' with
  | error f' => exact ⟨f', rfl⟩
  | ok ds' =>
    obtain ⟨us, e, rfl, he, hus⟩ := exists_end_of_shapes hend hts
    obtain ⟨ds, hds, -⟩ := declarationsOf_alike_end (R := fun t t' => t'.shape = t.shape)
      (fun t t' ht => ht) (forall₂_of_map_eq hts.symm) hus he hread
    rw [h] at hds
    cases hds

end Moved

/-! ## A header below another -/

section Joined

variable {s₁ s₂ : String} {ts₁ ts₂ ts : List Token} {ds₁ : List Declaration}

/-- The declarations of the first header end where its tokens do. -/
theorem declarationsOf_joined (hend : EndsText ts₁) (h₁ : declarationsOf ts₁ = .ok ds₁)
    {move : Location → Location} (hts : ts.map Token.bare =
      (ts₁.dropLast ++ ts₂.map (Token.moved move)).map Token.bare) :
    ∃ ds back, declarationsOf ts = (ds ++ ·) <$> declarationsOf back ∧
      ds.map Declaration.bare = ds₁.map Declaration.bare ∧
      back.map Token.bare = (ts₂.map (Token.moved move)).map Token.bare := by
  obtain ⟨us, e, rfl, he, -, hus⟩ := hend
  rw [List.dropLast_concat, List.map_append] at hts
  obtain ⟨us', back, rfl, hus', hback⟩ := List.map_eq_append_iff.1 hts
  obtain ⟨ds, hds, hread⟩ := declarationsOf_alike (R := MovedTo id)
    (fun t t' ht => ht.shape) (forall₂_of_map_eq hus') hus he h₁ back
  refine ⟨ds, back, hread, ?_, hback⟩
  rw [map_bare_of_alike hds, List.map_map]
  rfl

theorem declarations_joined {ds₂ : List Declaration} (h₁ : declarations s₁ = .ok ds₁)
    (h₂ : declarations s₂ = .ok ds₂) :
    ∃ ds, declarations (below s₁ s₂) = .ok ds ∧
      ds.map Declaration.bare =
        (ds₁ ++ ds₂.map (Declaration.moved (Location.below (height s₁)))).map Declaration.bare := by
  obtain ⟨ts₁, hts₁, hds₁⟩ := read_eq_ok.1 h₁
  obtain ⟨ts₂, hts₂, hds₂⟩ := read_eq_ok.1 h₂
  obtain ⟨ts, hts, hbare⟩ := tokenize_joined hts₁ hts₂
  obtain ⟨front, back, hread, hfront, hback⟩ :=
    declarationsOf_joined (endsText_of_tokenize hts₁) hds₁ hbare
  obtain ⟨ds, hds, hmoved⟩ := declarationsOf_moved (endsText_of_tokenize hts₂) hback hds₂
  refine ⟨front ++ ds, read_eq_ok.2 ⟨ts, hts, ?_⟩, ?_⟩
  · rw [hread, hds]
    rfl
  · rw [List.map_append, hfront, hmoved, List.map_append]

/-- A header in which no token starts somewhere is refused there below another one, too. -/
theorem declarations_joined_stray {e : StrayText} (h₁ : declarations s₁ = .ok ds₁)
    (h₂ : declarations s₂ = .error (.stray e)) :
    declarations (below s₁ s₂) = .error (.stray (e.below (height s₁))) := by
  obtain ⟨ts₁, hts₁, -⟩ := read_eq_ok.1 h₁
  exact read_eq_stray.2 (tokenize_joined_error hts₁ (read_eq_stray.1 h₂))

/-- A header whose tokens are not those of declarations is refused below another one, too. -/
theorem declarations_joined_unexpected {f : SyntaxFault} (h₁ : declarations s₁ = .ok ds₁)
    (h₂ : declarations s₂ = .error (.unexpected f)) :
    ∃ f', declarations (below s₁ s₂) = .error (.unexpected f') := by
  obtain ⟨ts₁, hts₁, hds₁⟩ := read_eq_ok.1 h₁
  obtain ⟨ts₂, hts₂, hfault⟩ := read_eq_unexpected.1 h₂
  obtain ⟨ts, hts, hbare⟩ := tokenize_joined hts₁ hts₂
  obtain ⟨front, back, hread, -, hback⟩ :=
    declarationsOf_joined (endsText_of_tokenize hts₁) hds₁ hbare
  have hshapes := congrArg (List.map Token.shape) hback
  rw [List.map_map, List.map_map, List.map_map] at hshapes
  obtain ⟨f', hf'⟩ := declarationsOf_refuses (endsText_of_tokenize hts₂) hshapes hfault
  refine ⟨f', read_eq_unexpected.2 ⟨ts, hts, ?_⟩⟩
  rw [hread, hf']
  rfl

end Joined

end KernelGen.Host
