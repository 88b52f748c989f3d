import KernelGen.Proofs.Kernel.Meaning
set_option autoImplicit false

/-!
# Kernel: names are declared before they are used, and once

A machine that runs a body gets stuck at a name that was declared already and at a name that was
not declared, so a body that can be run to its end is well scoped.  That is shown for one
statement and then for any body; that bodies of graphs run is known.  What is said about scopes
is said about the occurrences of names in the text, from left to right and line by line.
-/

namespace KernelGen

/-! ## Scopes of texts -/

namespace Piece

/-- The local that is declared here. -/
def declared? : Piece → Option Local
  | .declares l => some l
  | .code _ | .uses _ | .assigns _ | .capacity .. => none

/-- The local that is used here. -/
def used? : Piece → Option Local
  | .uses l | .assigns l => some l
  | .code _ | .declares _ | .capacity .. => none

/-- An entry of the table of a given name is set here. -/
def assignsTo (name : String) : Piece → Bool
  | .assigns table => table.name == name
  | .code _ | .declares _ | .uses _ | .capacity .. => false

end Piece

@[simp] theorem Piece.assignsTo_assigns (name : String) (table : Local) :
    (Piece.assigns table).assignsTo name = (table.name == name) := rfl

@[simp] theorem Piece.assignsTo_code (name s : String) : (Piece.code s).assignsTo name = false :=
  rfl

@[simp] theorem Piece.assignsTo_declares (name : String) (l : Local) :
    (Piece.declares l).assignsTo name = false := rfl

@[simp] theorem Piece.assignsTo_capacity (name : String) (table : Local) (count : Nat) :
    (Piece.capacity table count).assignsTo name = false := rfl

theorem Piece.assignsTo_iff {name : String} {p : Piece} :
    p.assignsTo name = true ↔ ∃ table, p = .assigns table ∧ table.name = name := by
  cases p <;> simp [assignsTo]

/-- The names that are declared, in order. -/
def declaredNames (ps : List Piece) : List String :=
  (ps.filterMap Piece.declared?).map Local.name

@[simp] theorem declaredNames_nil : declaredNames [] = [] := rfl

@[simp] theorem declaredNames_append (ps qs : List Piece) :
    declaredNames (ps ++ qs) = declaredNames ps ++ declaredNames qs := by
  simp [declaredNames]

theorem mem_declaredNames {ps : List Piece} {name : String} :
    name ∈ declaredNames ps ↔ ∃ l, .declares l ∈ ps ∧ l.name = name := by
  rw [declaredNames, List.mem_map]
  refine exists_congr fun l => and_congr_left fun _ => ?_
  rw [List.mem_filterMap]
  constructor
  · rintro ⟨p, hp, hl⟩
    cases p with
    | declares l' => cases hl; exact hp
    | _ => cases hl
  · intro h
    exact ⟨_, h, rfl⟩

/-- From left to right, where the names `known` were declared before: what is used is known,
and what is declared is not. -/
def Scoped : (known : String → Prop) → List Piece → Prop
  | _, [] => True
  | known, .code _ :: ps => Scoped known ps
  | known, .capacity .. :: ps => Scoped known ps
  | known, .uses l :: ps => known l.name ∧ Scoped known ps
  | known, .assigns l :: ps => known l.name ∧ Scoped known ps
  | known, .declares l :: ps => ¬ known l.name ∧ Scoped (fun n => n = l.name ∨ known n) ps

/-- A name is known behind a text if it was before or is declared there. -/
def KnownAfter (known : String → Prop) (ps : List Piece) (name : String) : Prop :=
  name ∈ declaredNames ps ∨ known name

theorem scoped_append {known : String → Prop} {ps qs : List Piece} :
    Scoped known (ps ++ qs) ↔ Scoped known ps ∧ Scoped (KnownAfter known ps) qs := by
  induction ps generalizing known with
  | nil =>
    have hnil : KnownAfter known [] = known := by
      funext name
      simp [KnownAfter]
    simp [Scoped, hnil]
  | cons p ps ih =>
    cases p with
    | declares l =>
      have hafter : KnownAfter (fun n => n = l.name ∨ known n) ps =
          KnownAfter known (.declares l :: ps) := by
        funext name
        simp [KnownAfter, declaredNames, Piece.declared?, or_assoc, or_left_comm]
      simp only [List.cons_append, Scoped, ih, hafter, and_assoc]
    | _ =>
      simp only [List.cons_append, Scoped, ih, and_assoc]
      rfl

theorem Scoped.nodup {known : String → Prop} {ps : List Piece} (h : Scoped known ps) :
    (declaredNames ps).Nodup ∧ ∀ name ∈ declaredNames ps, ¬ known name := by
  induction ps generalizing known with
  | nil => simp
  | cons p ps ih =>
    cases p with
    | declares l =>
      obtain ⟨hnew, hrest⟩ := h
      obtain ⟨hnodup, hfresh⟩ := ih hrest
      have hnames : declaredNames (.declares l :: ps) = l.name :: declaredNames ps := rfl
      rw [hnames]
      refine ⟨List.nodup_cons.2 ⟨fun hl => hfresh _ hl (.inl rfl), hnodup⟩, ?_⟩
      exact List.forall_mem_cons.2 ⟨hnew, fun name hname hk => hfresh name hname (.inr hk)⟩
    | code s => exact ih h
    | capacity table count => exact ih h
    | uses l => exact ih h.2
    | assigns l => exact ih h.2

/-- What is used is declared further in front, or was known. -/
theorem Scoped.known_of_used {known : String → Prop} {front back : List Piece} {p : Piece}
    {l : Local} (h : Scoped known (front ++ p :: back)) (hl : p.used? = some l) :
    KnownAfter known front l.name := by
  have hp := (scoped_append.1 h).2
  cases p with
  | uses l' => cases hl; exact hp.1
  | assigns l' => cases hl; exact hp.1
  | code s => cases hl
  | declares l' => cases hl
  | capacity table count => cases hl

/-- The piece declares nothing, and what it uses is known. -/
def Piece.Reads (known : String → Prop) (p : Piece) : Prop :=
  p.declared? = none ∧ ∀ l, p.used? = some l → known l.name

/-- Pieces that only use what is known may stand anywhere, and make nothing known. -/
theorem scoped_of_reads {known : String → Prop} {ps : List Piece}
    (h : ∀ p ∈ ps, p.Reads known) : Scoped known ps ∧ declaredNames ps = [] := by
  induction ps with
  | nil => exact ⟨trivial, rfl⟩
  | cons p ps ih =>
    obtain ⟨⟨hdeclares, huses⟩, hrest⟩ := List.forall_mem_cons.1 h
    obtain ⟨hscoped, hnames⟩ := ih hrest
    cases p with
    | declares l => cases hdeclares
    | uses l => exact ⟨⟨huses l rfl, hscoped⟩, hnames⟩
    | assigns l => exact ⟨⟨huses l rfl, hscoped⟩, hnames⟩
    | code s => exact ⟨hscoped, hnames⟩
    | capacity table count => exact ⟨hscoped, hnames⟩

theorem reads_code {known : String → Prop} (s : String) : (Piece.code s).Reads known :=
  ⟨rfl, fun _ h => nomatch h⟩

theorem reads_capacity {known : String → Prop} (table : Local) (count : Nat) :
    (Piece.capacity table count).Reads known :=
  ⟨rfl, fun _ h => nomatch h⟩

theorem reads_uses {known : String → Prop} {l : Local} (h : known l.name) :
    (Piece.uses l).Reads known :=
  ⟨rfl, fun _ hl => by cases hl; exact h⟩

theorem reads_assigns {known : String → Prop} {l : Local} (h : known l.name) :
    (Piece.assigns l).Reads known :=
  ⟨rfl, fun _ hl => by cases hl; exact h⟩

/-! ## What a machine that gets on has found -/

variable {V : Type}

namespace Machine

variable {m : Meaning V} {s s' : Machine V}

/-- The name was declared. -/
def Knows (s : Machine V) (name : String) : Prop := s.cells name ≠ none

theorem knows_of_invoker (h : s.hasInvoker = some ()) : s.Knows Local.invoker.name := by
  intro hnone
  rw [hasInvoker, hnone] at h
  cases h

theorem knows_of_status (h : s.hasStatus = some ()) : s.Knows Local.status.name := by
  intro hnone
  rw [hasStatus, hnone] at h
  cases h

theorem knows_of_value? {name : String} {v : V} (h : s.value? name = some v) : s.Knows name := by
  intro hnone
  rw [value?, hnone] at h
  cases h

theorem knows_of_first? {name : String} {v : V} (h : s.first? name = some v) : s.Knows name := by
  intro hnone
  rw [first?, hnone] at h
  cases h

theorem knows_of_count? {name : String} {n : Nat} (h : s.count? name = some n) :
    s.Knows name := by
  intro hnone
  rw [count?, hnone] at h
  cases h

theorem knows_of_attributes? {name : String} {entries : List (String × V)}
    (h : s.attributes? name = some entries) : s.Knows name := by
  intro hnone
  rw [attributes?, hnone] at h
  cases h

theorem declare_eq_some_iff {name : String} {c : Cell V} :
    s.declare name c = some s' ↔ s.cells name = none ∧ s' = s.set name c := by
  unfold declare
  split
  · rename_i hnone
    simp [hnone, eq_comm]
  · rename_i c' hc'
    simp [hc']

/-- Setting a name makes it known, and nothing else. -/
theorem knows_set {name : String} {c : Cell V} :
    (s.set name c).Knows = fun n => n = name ∨ s.Knows n := by
  funext n
  by_cases h : n = name <;> simp [Knows, set, h]

theorem reads_argument {known : String → Prop} (hknown : ∀ n, s.Knows n → known n) {a : Argument}
    {v : V} (h : s.argument? a = some v) : ∀ p ∈ a.pieces, p.Reads known := by
  cases a with
  | whole l => simpa [Argument.pieces] using reads_uses (hknown _ (knows_of_value? h))
  | first l =>
    simpa [Argument.pieces, reads_code] using reads_uses (hknown _ (knows_of_first? h))

theorem reads_attribute {known : String → Prop} (hknown : ∀ n, s.Knows n → known n)
    {a : AttributeValue} {v : V} (h : attribute? m s a = some v) :
    ∀ p ∈ a.pieces, p.Reads known := by
  cases a with
  | param name => simp [AttributeValue.pieces, reads_code]
  | literal text => simp [AttributeValue.pieces, reads_code]
  | first l =>
    simpa [AttributeValue.pieces, reads_code] using reads_uses (hknown _ (knows_of_first? h))

end Machine

/-- The pieces of a statement, line by line. -/
def Statement.pieces (st : Statement) : List Piece := st.lines.flatMap Line.pieces

/-- The pieces of a table that is bound: its name, its size, and then its entries. -/
theorem Statement.pieces_bindAttributes (table : Local) (entries : List (String × AttributeValue)) :
    Statement.pieces (.bindAttributes table entries) =
      ([.code "NodeAttributes ", .declares table, .code "(", .capacity table entries.length,
        .code ");"] : List Piece) ++ entries.flatMap (Statement.attributePieces table) := by
  simp [Statement.pieces, Statement.lines, List.flatMap_map]

/-- The pieces of the run of an op: the line on which it begins, the arguments, and the line on
which it ends. -/
theorem Statement.pieces_invoke (i : Invocation) :
    Statement.pieces (.invoke i) = Statement.openingPieces i ++
      (i.arguments.flatMap (fun a => a.pieces ++ [.code ","]) ++ Statement.closingPieces i) := by
  simp [Statement.pieces, Statement.lines, List.flatMap_map]

/-- The pieces of a body. -/
def bodyPieces (body : List Statement) : List Piece := body.flatMap Statement.pieces

namespace Machine

variable {m : Meaning V} {s s' : Machine V}

/-- The text of a statement fits what is known in front of it, and makes known what the machine
has declared. -/
def Fits (s : Machine V) (ps : List Piece) (s' : Machine V) : Prop :=
  Scoped s.Knows ps ∧ s'.Knows = KnownAfter s.Knows ps

theorem Fits.append {s'' : Machine V} {ps qs : List Piece} (h : s.Fits ps s')
    (h' : s'.Fits qs s'') : s.Fits (ps ++ qs) s'' := by
  obtain ⟨hscoped, hknows⟩ := h
  obtain ⟨hscoped', hknows'⟩ := h'
  refine ⟨scoped_append.2 ⟨hscoped, hknows ▸ hscoped'⟩, ?_⟩
  rw [hknows', hknows]
  funext name
  simp [KnownAfter, or_assoc, or_left_comm]

/-- Reading changes nothing. -/
theorem fits_of_reads {ps : List Piece} (h : ∀ p ∈ ps, p.Reads s.Knows)
    (hknows : s'.Knows = s.Knows) : s.Fits ps s' := by
  obtain ⟨hscoped, hnames⟩ := scoped_of_reads h
  refine ⟨hscoped, ?_⟩
  funext name
  rw [hknows, KnownAfter, hnames]
  simp

/-- A local is declared where its name was free. -/
theorem fits_declares {l : Local} {c : Cell V} (h : s.declare l.name c = some s') :
    s.Fits [.declares l] s' := by
  obtain ⟨hnone, rfl⟩ := declare_eq_some_iff.1 h
  refine ⟨⟨fun hknows => hknows hnone, trivial⟩, ?_⟩
  rw [knows_set]
  funext name
  simp [KnownAfter, declaredNames, Piece.declared?]

theorem exists_of_mapM_eq_some {α β : Type} {f : α → Option β} {xs : List α} {ys : List β}
    (h : xs.mapM f = some ys) : ∀ x ∈ xs, ∃ y, f x = some y := by
  induction xs generalizing ys with
  | nil => intro x hx; cases hx
  | cons x xs ih =>
    simp only [List.mapM_cons, Option.bind_eq_bind, Option.bind_eq_some_iff] at h
    obtain ⟨y, hy, ys', hys, -⟩ := h
    exact List.forall_mem_cons.2 ⟨⟨y, hy⟩, ih hys⟩

theorem knows_of_declare {name : String} {c : Cell V} (h : s.declare name c = some s') :
    s'.Knows name := by
  obtain ⟨-, rfl⟩ := declare_eq_some_iff.1 h
  rw [knows_set]
  exact .inl rfl

theorem Fits.knows {ps : List Piece} {name : String} (h : s.Fits ps s') (hname : s.Knows name) :
    s'.Knows name := by
  rw [h.2]
  exact .inr hname

/-- A local is declared in the middle of text that only reads. -/
theorem fits_declares_within {l : Local} {c : Cell V} (front : List Piece) {back : List Piece}
    (h : s.declare l.name c = some s') (hfront : ∀ p ∈ front, p.Reads s.Knows)
    (hback : ∀ p ∈ back, p.Reads s'.Knows) : s.Fits (front ++ .declares l :: back) s' := by
  have hread : s.Fits front s := fits_of_reads hfront rfl
  have hread' : s'.Fits back s' := fits_of_reads hback rfl
  exact hread.append ((fits_declares h).append hread')

/-- The line that binds a value of the engine. -/
theorem bindPieces_fits {l : Local} {c : Cell V} (expression : String)
    (hinvoker : s.hasInvoker = some ()) (h : s.declare l.name c = some s') :
    s.Fits (Statement.bindPieces l expression) s' := by
  have hknown : s'.Knows Local.invoker.name := (fits_declares h).knows (knows_of_invoker hinvoker)
  exact fits_declares_within [.code "auto "] h (by simp [reads_code])
    (by simp [reads_code, reads_uses hknown])

/-- The first run declares the status, and the others find it. -/
theorem setStatus_fits {i : Invocation} (hinvoker : s.hasInvoker = some ())
    (h : s.setStatus i.isFirst = some s') : s.Fits (Statement.openingPieces i) s' := by
  unfold Statement.openingPieces
  unfold setStatus at h
  cases hfirst : i.isFirst with
  | true =>
    rw [hfirst, if_pos rfl] at h
    have hknown : s'.Knows Local.invoker.name :=
      (fits_declares h).knows (knows_of_invoker hinvoker)
    exact fits_declares_within [.code "auto "] h (by simp [reads_code])
      (by simp [reads_code, reads_uses hknown])
  | false =>
    rw [hfirst, if_neg Bool.false_ne_true] at h
    obtain ⟨_, hstatus, rfl⟩ := Option.map_eq_some_iff.1 h
    refine fits_of_reads ?_ rfl
    simp [reads_code, reads_uses (knows_of_status hstatus),
      reads_uses (knows_of_invoker hinvoker)]

theorem closingPieces_reads {known : String → Prop} {i : Invocation}
    (houtputs : known i.outputs.name) (htable : ∀ table, i.attributes? = some table →
      known table.name) : ∀ p ∈ Statement.closingPieces i, p.Reads known := by
  unfold Statement.closingPieces
  cases htable? : i.attributes? with
  | none => simp [reads_code, reads_uses houtputs]
  | some table => simp [reads_code, reads_uses houtputs, reads_uses (htable table htable?)]

theorem invoke_fits {i : Invocation} (h : s.invoke m i = some s') :
    s.Fits (Statement.pieces (.invoke i)) s' := by
  simp only [invoke, Option.bind_eq_bind, Option.bind_eq_some_iff] at h
  obtain ⟨_, hinvoker, arguments, harguments, attributes, hattributes, count, hcount, s₁, hset,
    hs'⟩ := h
  cases hs'
  have hopening := setStatus_fits hinvoker hset
  rw [Statement.pieces_invoke]
  -- the outputs were declared before, so that storing them makes no name known
  have houtputs : s₁.Knows i.outputs.name := hopening.knows (knows_of_count? hcount)
  refine hopening.append (fits_of_reads ?_ ?_)
  · intro p hp
    rcases List.mem_append.1 hp with hp | hp
    · obtain ⟨a, ha, hpa⟩ := List.mem_flatMap.1 hp
      obtain ⟨v, hv⟩ := exists_of_mapM_eq_some harguments a ha
      rcases List.mem_append.1 hpa with hpa | hpa
      · exact reads_argument (fun n hn => hopening.knows hn) hv p hpa
      · cases List.mem_singleton.1 hpa
        exact reads_code _
    · refine closingPieces_reads houtputs (fun table htable => ?_) p hp
      rw [htable] at hattributes
      exact hopening.knows (knows_of_attributes? hattributes)
  · refine (knows_set (s := s₁)).trans ?_
    funext n
    exact propext ⟨fun hn => hn.elim (fun heq => heq ▸ houtputs) id, .inr⟩

theorem copy_fits {result : Local} {param : String} (h : s.copy result param = some s') :
    s.Fits (Statement.pieces (.copyInto result param)) s' := by
  simp only [copy, Option.bind_eq_bind, Option.bind_eq_some_iff] at h
  obtain ⟨v, hv, s₁, h₁, s₂, h₂, w, hw, s₃, h₃, s₄, h₄, hs'⟩ := h
  cases hs'
  have hresult : s₁.Knows result.name := (fits_declares h₁).knows (knows_of_first? hv)
  have hresultTensor : s₂.Knows Local.resultTensor.name :=
    (fits_declares h₂).knows (knows_of_declare h₁)
  have hresultData : s₄.Knows Local.resultData.name :=
    (fits_declares h₄).knows ((fits_declares h₃).knows (knows_of_declare h₂))
  have hinput : s₃.Knows (Local.input param).name := (fits_declares h₃).knows (knows_of_value? hw)
  have hselfTensor : s₄.Knows Local.selfTensor.name :=
    (fits_declares h₄).knows (knows_of_declare h₃)
  have hselfData : s₄.Knows Local.selfData.name := knows_of_declare h₄
  have hline₁ : s.Fits [.code "auto& ", .declares .resultTensor, .code " = ", .uses result,
      .code "[0].Get<onnxruntime::Tensor>();"] s₁ :=
    fits_declares_within [.code "auto& "] h₁ (by simp [reads_code])
      (by simp [reads_code, reads_uses hresult])
  have hline₂ : s₁.Fits [.code "auto* ", .declares .resultData, .code " = ",
      .uses .resultTensor, .code ".DataRaw(", .uses .resultTensor, .code ".DataType());"] s₂ :=
    fits_declares_within [.code "auto* "] h₂ (by simp [reads_code])
      (by simp [reads_code, reads_uses hresultTensor])
  have hline₃ : s₂.Fits [.code "auto* ", .declares .selfTensor, .code " = ",
      .uses (.input param), .code ".GetMutable<onnxruntime::Tensor>();"] s₃ :=
    fits_declares_within [.code "auto* "] h₃ (by simp [reads_code])
      (by simp [reads_code, reads_uses hinput])
  have hline₄ : s₃.Fits [.code "auto* ", .declares .selfData, .code " = ", .uses .selfTensor,
      .code "->MutableDataRaw(", .uses .selfTensor, .code "->DataType());"] s₄ :=
    fits_declares_within [.code "auto* "] h₄ (by simp [reads_code])
      (by simp [reads_code, reads_uses hselfTensor])
  have hline₅ : s₄.Fits [.code "memcpy(", .uses .selfData, .code ", ", .uses .resultData,
      .code ", ", .uses .selfTensor, .code "->DataType()->Size() * ", .uses .selfTensor,
      .code "->Shape().Size());"] { s₄ with copied? := some (param, v) } :=
    fits_of_reads (by simp [reads_code, reads_uses hselfData, reads_uses hresultData,
      reads_uses hselfTensor]) rfl
  exact hline₁.append (hline₂.append (hline₃.append (hline₄.append hline₅)))

/-- The table is declared, and then its entries are set. -/
theorem bindAttributes_fits {table : Local} {entries : List (String × AttributeValue)}
    (h : s.step m (.bindAttributes table entries) = some s') :
    s.Fits (Statement.pieces (.bindAttributes table entries)) s' := by
  obtain ⟨values, hvalues, h⟩ := Option.bind_eq_some_iff.1 h
  have htable : s'.Knows table.name := knows_of_declare h
  have hentries : ∀ e ∈ entries, ∀ p ∈ Statement.attributePieces table e, p.Reads s'.Knows := by
    intro e he p hp
    obtain ⟨x, hx⟩ := exists_of_mapM_eq_some hvalues e he
    obtain ⟨v, hv, -⟩ := Option.map_eq_some_iff.1 hx
    simp only [Statement.attributePieces, List.mem_append, List.mem_cons, List.not_mem_nil,
      or_false] at hp
    rcases hp with ((rfl | rfl) | hp) | rfl
    · exact reads_assigns htable
    · exact reads_code _
    · exact reads_attribute (fun n hn => (fits_declares h).knows hn) hv p hp
    · exact reads_code _
  have hpieces : Statement.pieces (.bindAttributes table entries) =
      [Piece.code "NodeAttributes "] ++ Piece.declares table :: (([.code "(",
        .capacity table entries.length, .code ");"] : List Piece) ++
          entries.flatMap (Statement.attributePieces table)) :=
    Statement.pieces_bindAttributes table entries
  rw [hpieces]
  refine fits_declares_within _ h (by simp [reads_code]) fun p hp => ?_
  rcases List.mem_append.1 hp with hp | hp
  · simp only [List.mem_cons, List.not_mem_nil, or_false] at hp
    rcases hp with rfl | rfl | rfl
    · exact reads_code _
    · exact reads_capacity table _
    · exact reads_code _
  · obtain ⟨e, he, hpe⟩ := List.mem_flatMap.1 hp
    exact hentries e he p hpe

theorem step_fits {st : Statement} (h : s.step m st = some s') : s.Fits st.pieces s' := by
  cases st with
  | log params =>
    cases h
    exact fits_of_reads (by simp [Statement.pieces, Statement.lines, Line.blank, reads_code]) rfl
  | bindInvoker param =>
    exact fits_declares_within [.code "auto& "] h (by simp [reads_code])
      (by simp [reads_code])
  | bindInput param =>
    obtain ⟨_, hinvoker, h⟩ := Option.bind_eq_some_iff.1 h
    exact bindPieces_fits param hinvoker h
  | bindLiteral index expression =>
    obtain ⟨_, hinvoker, h⟩ := Option.bind_eq_some_iff.1 h
    exact bindPieces_fits expression hinvoker h
  | bindAttributes table entries => exact bindAttributes_fits h
  | bindOutputs outputs count =>
    exact fits_declares_within [.code "std::vector<OrtValue> "] h (by simp [reads_code])
      (by simp [reads_code])
  | invoke i => exact invoke_fits h
  | check =>
    obtain ⟨_, hstatus, h⟩ := Option.bind_eq_some_iff.1 h
    cases h
    refine fits_of_reads ?_ rfl
    simp [Statement.pieces, Statement.lines, Line.blank, reads_code,
      reads_uses (knows_of_status hstatus)]
  | returnNew result param =>
    obtain ⟨v, hv, h⟩ := Option.bind_eq_some_iff.1 h
    cases h
    refine fits_of_reads ?_ rfl
    simp [Statement.pieces, Statement.lines, reads_code, reads_uses (knows_of_first? hv)]
  | copyInto result param => exact copy_fits h
  | returnParam param =>
    have hknows : s'.Knows = s.Knows := by
      simp only [step] at h
      split at h
      · split at h
        · cases h
          rfl
        · cases h
      · cases h
    exact fits_of_reads (by simp [Statement.pieces, Statement.lines, reads_code]) hknows

/-- The text of a body that is run to its end is well scoped. -/
theorem run_fits {body : List Statement} (h : s.run m body = some s') :
    s.Fits (bodyPieces body) s' := by
  induction body generalizing s with
  | nil =>
    cases h
    exact fits_of_reads (fun p hp => nomatch hp) rfl
  | cons st body ih =>
    rw [run] at h
    split at h
    · cases h
    · obtain ⟨s₁, hstep, hrest⟩ := Option.bind_eq_some_iff.1 h
      exact (step_fits hstep).append (ih hrest)

end Machine

/-! ## Tables and runs of ops -/

/-- The run of an op that a statement is. -/
def Statement.invocation? : Statement → Option Invocation
  | .invoke i => some i
  | _ => none

namespace Body

variable {f : LinkedFunction} {g : OpGraph} {e : Evaluation} {op : String} {s s' : Progress}
  {ss : List Statement}

theorem invocations_input {v : Value Nat} {a : Argument}
    (h : input f g e op s v = .ok (ss, a, s')) : ss.filterMap Statement.invocation? = [] := by
  cases v with
  | output i =>
    obtain ⟨l, -, rfl, -⟩ := input_output_eq_ok h
    rfl
  | literal text =>
    obtain ⟨rfl, -⟩ := input_literal_eq_ok h
    rfl
  | param name =>
    obtain ⟨p, -, -, -, -, ⟨-, rfl, -⟩ | ⟨-, rfl, -⟩⟩ := input_param_eq_ok h
    · rfl
    · rfl

theorem invocations_inputs {vs : List (Value Nat)} {as : List Argument}
    (h : inputs f g e op s vs = .ok (ss, as, s')) : ss.filterMap Statement.invocation? = [] := by
  induction vs generalizing s ss as with
  | nil =>
    cases h
    rfl
  | cons v vs ih =>
    obtain ⟨here, a, s₁, more, as', hhere, hmore, rfl, rfl⟩ := inputs_cons_eq_ok h
    rw [List.filterMap_append, invocations_input hhere, ih hmore]
    rfl

/-- The op at a place in the order is run once, and it is the first if the place is. -/
theorem invocations_node {place i : Nat} (h : (node f g e place i s).result = .ok (ss, s')) :
    (ss.filterMap Statement.invocation?).map Invocation.isFirst = [place == 0] := by
  obtain ⟨n, bindings, arguments, entries, name, -, hinputs, -, -, rfl⟩ := node_eq_ok h
  have htable : (attributePart place entries).1.filterMap Statement.invocation? = [] := by
    unfold attributePart
    split <;> rfl
  rw [List.filterMap_append, List.filterMap_append, invocations_inputs hinputs, htable]
  rfl

theorem invocations_nodes {place : Nat} {is : List Nat}
    (h : (nodes f g e place is s).result = .ok (ss, s')) :
    (ss.filterMap Statement.invocation?).map Invocation.isFirst =
      (List.range' place is.length).map (· == 0) := by
  induction is generalizing place s ss with
  | nil =>
    cases h
    rfl
  | cons i is ih =>
    obtain ⟨here, s₁, more, hhere, hmore, rfl⟩ := nodes_cons_eq_ok h
    rw [List.filterMap_append, List.map_append, invocations_node hhere, ih hmore]
    rfl

/-- The ops of a body are run once for each node, and only the first run counts as the first. -/
theorem invocations_ofGraph {body : List Statement} (h : (ofGraph f g).result = .ok body) :
    (body.filterMap Statement.invocation?).map Invocation.isFirst =
      (List.range g.evaluate.order.length).map (· == 0) := by
  obtain ⟨first, ops, p, l, returns, -, hops, -, hreturns, rfl⟩ := ofGraph_eq_ok h
  have hnone : returns.filterMap Statement.invocation? = [] := by
    rcases returning_eq_ok hreturns with ⟨-, rfl⟩ | ⟨a, param, -, -, rfl⟩
    · rfl
    · rfl
  have hall : (Statement.log (f.params.filterMap LinkedParam.name?) :: .bindInvoker first ::
      (ops ++ returns)).filterMap Statement.invocation? =
        ops.filterMap Statement.invocation? := by
    show (ops ++ returns).filterMap Statement.invocation? = _
    rw [List.filterMap_append, hnone, List.append_nil]
  rw [List.cons_append, List.cons_append, hall, invocations_nodes hops, List.range_eq_range']

end Body

/-! ## Tables of attributes -/

/-- The table of which an entry or the number of entries is written here. -/
def Piece.ofTable? : Piece → Option Local
  | .assigns table | .capacity table _ => some table
  | .code _ | .declares _ | .uses _ => none

namespace Statement

theorem ofTable?_argument (a : Argument) : ∀ p ∈ a.pieces, p.ofTable? = none := by
  cases a <;> simp [Argument.pieces, Piece.ofTable?]

theorem ofTable?_attribute (a : AttributeValue) : ∀ p ∈ a.pieces, p.ofTable? = none := by
  cases a <;> simp [AttributeValue.pieces, Piece.ofTable?]

/-- Tables are written about where they are bound and nowhere else. -/
theorem eq_of_ofTable? {st : Statement} {table : Local} {p : Piece} (hp : p ∈ st.pieces)
    (htable : p.ofTable? = some table) :
    ∃ entries, st = .bindAttributes table entries ∧
      (p = .assigns table ∨ p = .capacity table entries.length) := by
  have hnone : (∀ p ∈ st.pieces, p.ofTable? = none) → False := by
    intro hall
    rw [hall p hp] at htable
    cases htable
  cases st with
  | bindAttributes table' entries =>
    rw [pieces_bindAttributes] at hp
    rcases List.mem_append.1 hp with hp | hp
    · simp only [List.mem_cons, List.not_mem_nil, or_false] at hp
      rcases hp with rfl | rfl | rfl | rfl | rfl <;> cases htable
      exact ⟨entries, rfl, .inr rfl⟩
    · obtain ⟨e, -, hpe⟩ := List.mem_flatMap.1 hp
      simp only [attributePieces, List.mem_append, List.mem_cons, List.not_mem_nil,
        or_false] at hpe
      rcases hpe with ((rfl | rfl) | hpe) | rfl
      · cases htable
        exact ⟨entries, rfl, .inl rfl⟩
      · cases htable
      · rw [ofTable?_attribute e.2 p hpe] at htable
        cases htable
      · cases htable
  | invoke i =>
    refine (hnone fun q hq => ?_).elim
    have hopening : ∀ p ∈ openingPieces i, p.ofTable? = none := by
      unfold openingPieces
      cases i.isFirst <;> simp [Piece.ofTable?]
    have hclosing : ∀ p ∈ closingPieces i, p.ofTable? = none := by
      unfold closingPieces
      cases i.attributes? <;> simp [Piece.ofTable?]
    rw [pieces_invoke] at hq
    rcases List.mem_append.1 hq with hq | hq
    · exact hopening q hq
    rcases List.mem_append.1 hq with hq | hq
    · obtain ⟨a, -, hqa⟩ := List.mem_flatMap.1 hq
      rcases List.mem_append.1 hqa with hqa | hqa
      · exact ofTable?_argument a q hqa
      · cases List.mem_singleton.1 hqa
        rfl
    · exact hclosing q hq
  | _ => exact (hnone (by simp [pieces, lines, bindPieces, copyPieces, Piece.ofTable?])).elim

/-- As many entries are set as the table has. -/
theorem countP_pieces_bindAttributes (table : Local) (entries : List (String × AttributeValue)) :
    (pieces (.bindAttributes table entries)).countP (·.assignsTo table.name) = entries.length := by
  have hentry : ∀ e : String × AttributeValue,
      (attributePieces table e).countP (·.assignsTo table.name) = 1 := by
    intro e
    have hvalue : e.2.pieces.countP (·.assignsTo table.name) = 0 := by
      cases e.2 <;> rfl
    rw [attributePieces, List.countP_append, List.countP_append, hvalue]
    simp
  rw [pieces_bindAttributes, List.countP_append, List.countP_flatMap]
  simp [Function.comp_def, hentry]

end Statement

theorem bodyPieces_eq (body : List Statement) :
    (body.flatMap Statement.lines).flatMap Line.pieces = bodyPieces body := List.flatMap_assoc

theorem bodyPieces_split (front : List Statement) (st : Statement) (back : List Statement) :
    bodyPieces (front ++ st :: back) = bodyPieces front ++ (st.pieces ++ bodyPieces back) := by
  simp [bodyPieces]

/-- A name that a statement declares is not declared by any other. -/
theorem notMem_declaredNames_of_nodup {front back : List Statement} {st : Statement} {l : Local}
    (h : (declaredNames (bodyPieces (front ++ st :: back))).Nodup) (hl : .declares l ∈ st.pieces) :
    l.name ∉ declaredNames (bodyPieces front) ∧ l.name ∉ declaredNames (bodyPieces back) := by
  have hmem : l.name ∈ declaredNames st.pieces := mem_declaredNames.2 ⟨l, hl, rfl⟩
  rw [bodyPieces_split, declaredNames_append, declaredNames_append] at h
  obtain ⟨-, hrest, hfront⟩ := List.nodup_append.1 h
  obtain ⟨-, -, hback⟩ := List.nodup_append.1 hrest
  exact ⟨fun hin => hfront _ hin _ (List.mem_append_left _ hmem) rfl,
    fun hin => hback _ hmem _ hin rfl⟩

/-- Where a table is not declared none of its entries is set. -/
theorem countP_assigns_eq_zero {body : List Statement} {name : String}
    (h : name ∉ declaredNames (bodyPieces body)) :
    (bodyPieces body).countP (·.assignsTo name) = 0 := by
  rw [List.countP_eq_zero]
  intro p hp hassigns
  obtain ⟨table, rfl, hname⟩ := Piece.assignsTo_iff.1 hassigns
  obtain ⟨st, hst, hpst⟩ := List.mem_flatMap.1 hp
  obtain ⟨entries, rfl, -⟩ := Statement.eq_of_ofTable? hpst rfl
  have hdeclares : .declares table ∈ Statement.pieces (.bindAttributes table entries) := by
    simp [Statement.pieces_bindAttributes]
  exact h (mem_declaredNames.2 ⟨table, List.mem_flatMap.2 ⟨_, hst, hdeclares⟩, hname⟩)

/-- A table is made for as many entries as are set in the whole body. -/
theorem countP_assigns_of_nodup {body : List Statement} {table : Local} {count : Nat}
    (h : (declaredNames (bodyPieces body)).Nodup) (hp : .capacity table count ∈ bodyPieces body) :
    (bodyPieces body).countP (·.assignsTo table.name) = count := by
  obtain ⟨st, hst, hpst⟩ := List.mem_flatMap.1 hp
  obtain ⟨entries, rfl, hcapacity⟩ := Statement.eq_of_ofTable? hpst rfl
  have hcount : count = entries.length := by simpa using hcapacity
  obtain ⟨front, back, rfl⟩ := List.append_of_mem hst
  obtain ⟨hfront, hback⟩ := notMem_declaredNames_of_nodup (l := table) h
    (by simp [Statement.pieces_bindAttributes])
  rw [bodyPieces_split, List.countP_append, List.countP_append, countP_assigns_eq_zero hfront,
    countP_assigns_eq_zero hback, Statement.countP_pieces_bindAttributes, hcount]
  omega

/-! ## Bodies of graphs -/

section

variable {f : LinkedFunction} {g : OpGraph} {body : List Statement}

theorem scoped_ofGraph (h : (Body.ofGraph f g).result = .ok body) :
    Scoped (fun _ => False) (bodyPieces body) := by
  let m : Meaning Unit := ⟨fun _ => (), fun _ => (), fun _ _ => ()⟩
  obtain ⟨s, hrun, -, -⟩ := run_body h m
  have hstart : (Machine.start : Machine Unit).Knows = fun _ => False := by
    funext name
    simp [Machine.Knows, Machine.start]
  exact hstart ▸ (Machine.run_fits hrun).1

/-- The status is declared where an op is run for the first time, and nowhere else. -/
theorem status_ofGraph (h : (Body.ofGraph f g).result = .ok body) :
    ∃ front i back, body = front ++ .invoke i :: back ∧ (∀ j, .invoke j ∉ front) ∧
      .declares .status ∈ Statement.pieces (.invoke i) ∧
      ∀ st ∈ front ++ back, .declares .status ∉ st.pieces := by
  have hruns := Body.invocations_ofGraph h
  obtain ⟨i, rest, hsplit, hfirst⟩ : ∃ i rest,
      body.filterMap Statement.invocation? = i :: rest ∧ i.isFirst = true := by
    obtain ⟨front, hfront⟩ := List.getLast?_eq_some_iff.1 (Evaluation.getLast?_order_evaluate g)
    rw [hfront, List.length_append, List.length_singleton, List.range_succ_eq_map] at hruns
    obtain ⟨i, rest, hsplit, hi, -⟩ := List.map_eq_cons_iff.1 hruns
    exact ⟨i, rest, hsplit, hi⟩
  obtain ⟨front, st, back, rfl, hnone, hst, -⟩ := List.filterMap_eq_cons_iff.1 hsplit
  obtain rfl : st = .invoke i := by
    cases st with
    | invoke j => cases hst; rfl
    | _ => cases hst
  have hdeclares : .declares .status ∈ Statement.pieces (.invoke i) := by
    simp [Statement.pieces_invoke, Statement.openingPieces, hfirst]
  refine ⟨front, i, back, rfl, fun j hj => ?_, hdeclares, fun other hother hagain => ?_⟩
  · have := hnone _ hj
    cases this
  · obtain ⟨hfront, hback⟩ :=
      notMem_declaredNames_of_nodup (scoped_ofGraph h).nodup.1 hdeclares
    rcases List.mem_append.1 hother with hother | hother
    · exact hfront (mem_declaredNames.2 ⟨_, List.mem_flatMap.2 ⟨_, hother, hagain⟩, rfl⟩)
    · exact hback (mem_declaredNames.2 ⟨_, List.mem_flatMap.2 ⟨_, hother, hagain⟩, rfl⟩)

/-- **Scopes of bodies.**  Whenever a body was made for a graph, its text is made of pieces in
which no name is declared twice and every local is used behind its declaration.  The status is
declared where an op is run for the first time, and every table of attributes is made for as
many entries as are set. -/
theorem ofGraph_scoped (f : LinkedFunction) (g : OpGraph) (body : List Statement)
    (h : (Body.ofGraph f g).result = .ok body) :
    let lines := body.flatMap Statement.lines
    let pieces := lines.flatMap Line.pieces
    (∀ depth, (Statement.writeAll (.blank depth) body).text = linesText depth lines) ∧
    (declaredNames pieces).Nodup ∧
    (∀ front p back l, pieces = front ++ p :: back → p.used? = some l →
      l.name ∈ declaredNames front) ∧
    (∃ front i back, body = front ++ .invoke i :: back ∧ (∀ j, .invoke j ∉ front) ∧
      .declares .status ∈ Statement.pieces (.invoke i) ∧
      ∀ st ∈ front ++ back, .declares .status ∉ st.pieces) ∧
    (∀ table count, .capacity table count ∈ pieces →
      pieces.countP (·.assignsTo table.name) = count) := by
  intro lines pieces
  have hpieces : pieces = bodyPieces body := bodyPieces_eq body
  have hscoped : Scoped (fun _ => False) pieces := by
    rw [hpieces]
    exact scoped_ofGraph h
  refine ⟨fun depth => Statement.text_writeAll_blank depth body, hscoped.nodup.1, ?_,
    status_ofGraph h, ?_⟩
  · intro front p back l hsplit hl
    exact ((hsplit ▸ hscoped).known_of_used hl).resolve_right id
  · intro table count hcount
    rw [hpieces] at hcount hscoped ⊢
    exact countP_assigns_of_nodup hscoped.nodup.1 hcount

theorem ofGraph_scoped_doubledExp :
    (Body.ofGraph expInPlace doubledExp).result = .ok doubledExpBody ∧
    let lines := doubledExpBody.flatMap Statement.lines
    let pieces := lines.flatMap Line.pieces
    (∀ depth, (Statement.writeAll (.blank depth) doubledExpBody).text = linesText depth lines) ∧
    (declaredNames pieces).Nodup ∧
    (∀ front p back l, pieces = front ++ p :: back → p.used? = some l →
      l.name ∈ declaredNames front) ∧
    (∃ front i back, doubledExpBody = front ++ .invoke i :: back ∧ (∀ j, .invoke j ∉ front) ∧
      .declares .status ∈ Statement.pieces (.invoke i) ∧
      ∀ st ∈ front ++ back, .declares .status ∉ st.pieces) ∧
    (∀ table count, .capacity table count ∈ pieces →
      pieces.countP (·.assignsTo table.name) = count) :=
  have h : (Body.ofGraph expInPlace doubledExp).result = .ok doubledExpBody := by cbv
  ⟨h, ofGraph_scoped expInPlace doubledExp doubledExpBody h⟩

end

end KernelGen
