import KernelGen.Proofs.Kernel.BodyParts
import KernelGen.Proofs.Kernel.Meaning
import KernelGen.Proofs.Kernel.Occurrences
set_option autoImplicit false

/-!
# Kernel: functions written in one go

A body is made first and written afterwards.  It could as well be written while it is made, each
statement as soon as everything it needs was found; what is on the page when something is missing
then stays there.  `Body.draft` does that.  A function whose body is drafted on a page of its own
and put on the page around it when it is complete (`KernelFunction.emit`) leaves nothing behind when
it fails, and otherwise cannot be told from one whose body was drafted in its place.

The reason is that a draft follows its body (`Draft.Follows`): it fails where the body does, and it
writes the statements of the body in their order.
-/

namespace KernelGen

/-- Something that writes on a page and has an outcome.  What was written stays there when it
fails. -/
def Draft (α : Type) : Type := Page → Outcome Cause α × Page

namespace Draft

variable {α β : Type}

instance : Monad Draft where
  pure a := fun p => (pure a, p)
  bind x f := fun p =>
    match (x p).1.result with
    | .error c => (⟨(x p).1.events, .error c⟩, (x p).2)
    | .ok a =>
      let behind := f a (x p).2
      (⟨(x p).1.events ++ behind.1.events, behind.1.result⟩, behind.2)

/-- Does something to the page. -/
def put (change : Page → Page) : Draft Unit := fun p => (pure (), change p)

/-- Writes statements. -/
def statements (ss : List Statement) : Draft Unit := put (Statement.writeAll · ss)

/-- An outcome, with nothing written. -/
def ofOutcome (o : Outcome Cause α) : Draft α := fun p => (o, p)

/-- A result, with nothing written. -/
def ofExcept (x : Except Cause α) : Draft α := ofOutcome (.ofExcept x)

/-- Writes on a page of its own, at a given depth, and returns the text. -/
def apart (depth : Nat) (x : Draft Unit) : Draft String := fun p =>
  ((fun _ => (x (.blank depth)).2.text) <$> (x (.blank depth)).1, p)

end Draft

namespace Body

variable (f : LinkedFunction) (g : OpGraph) (e : Evaluation) (op : String)

/-- Writes the statements that declare the inputs of an op. -/
def draftInputs : Progress → List (Value Nat) → Draft (List Argument × Progress)
  | s, [] => pure ([], s)
  | s, v :: vs => do
    let (here, a, s) ← .ofExcept (input f g e op s v)
    .statements here
    let (as, s) ← draftInputs s vs
    return (a :: as, s)

/-- Writes the statements that run a node. -/
def draftNode (place i : Nat) (s : Progress) : Draft Progress :=
  match g.nodes[i]? with
  | none => .ofOutcome (.fail (.notEvaluated i))
  | some n => do
    let (arguments, s) ← draftInputs f g e n.name s n.inputs
    let entries ← .ofOutcome (attributeEntries f g e n.name n.attributes)
    .statements (attributePart place entries).1
    let outputs ← .ofExcept (outputsOf e i)
    .statements
      [.bindOutputs outputs n.outputs,
       .invoke ⟨place == 0, n.name, arguments, outputs, (attributePart place entries).2,
         n.domain?⟩, .check]
    return s

/-- Writes the statements that run nodes. -/
def draftNodes : Nat → List Nat → Progress → Draft Progress
  | _, [], s => pure s
  | place, i :: is, s => do
    let s ← draftNode f g e place i s
    draftNodes (place + 1) is s

/-- Writes a body while it is made. -/
def draft : Draft Unit := do
  .statements [.log (f.params.filterMap LinkedParam.name?)]
  let first ← .ofExcept (firstTensor f)
  .statements [.bindInvoker first]
  let s ← draftNodes f g g.evaluate 0 g.evaluate.order .start
  let result ← .ofExcept (result f g g.evaluate)
  let returns ← .ofExcept (returning f first result s)
  .statements returns

end Body

namespace KernelFunction

/-- Writes everything in front of the body of a function. -/
def writeHead (p : Page) (f : LinkedFunction) : Page :=
  writeSignature (p.blankLine.writeLine ("// " ++ f.schema)) f

/-- Writes the function that a mapping stands for, with its body drafted on a page of its own. -/
def emit (f : LinkedFunction) : Mapping → Draft Unit
  | .signatureOnly => .put fun p => (writeHead p f).writeLine ";"
  | .graph g => do
    let body ← .apart 1 (Body.draft f g)
    .put fun p => (((writeHead p f).writeLine " \x7b").writeRaw body).writeLine "\x7d"

/-- Writes the function that a mapping stands for, with its body drafted in its place. -/
def emitInPlace (f : LinkedFunction) : Mapping → Draft Unit
  | .signatureOnly => .put fun p => (writeHead p f).writeLine ";"
  | .graph g => do
    .put fun p => ((writeHead p f).writeLine " \x7b").indent
    Body.draft f g
    .put fun p => p.dedent.writeLine "\x7d"

end KernelFunction

namespace Outcome

variable {ε α β : Type} {x : Outcome ε α}

theorem map_of_error (f : α → β) {c : ε} (h : x.result = .error c) :
    f <$> x = ⟨x.events, .error c⟩ := by
  rcases x with ⟨events, result⟩
  cases h
  rfl

theorem map_of_ok (f : α → β) {a : α} (h : x.result = .ok a) :
    f <$> x = ⟨x.events, .ok (f a)⟩ := by
  rcases x with ⟨events, result⟩
  cases h
  simp [Functor.map]

end Outcome

/-! ## Drafts follow what they write -/

namespace Statement

theorem writeAll_append_page (p : Page) (ss ts : List Statement) :
    writeAll p (ss ++ ts) = writeAll (writeAll p ss) ts := List.foldl_append

end Statement

namespace Draft

variable {α β : Type} {x : Draft α} {k : α → Draft β}

/-- The draft has the outcome `y` and writes the statements that come with it. -/
def Follows (x : Draft α) (y : Outcome Cause (List Statement × α)) : Prop :=
  ∀ p, (x p).1 = Prod.snd <$> y ∧
    ∀ ss a, y.result = .ok (ss, a) → (x p).2 = Statement.writeAll p ss

theorem follows_pure (a : α) : (pure a : Draft α).Follows (pure ([], a)) := by
  intro p
  refine ⟨rfl, fun ss b h => ?_⟩
  cases h
  rfl

theorem follows_statements (ss : List Statement) : (statements ss).Follows (pure (ss, ())) := by
  intro p
  refine ⟨rfl, fun ts b h => ?_⟩
  cases h
  rfl

theorem follows_ofOutcome (o : Outcome Cause α) :
    (ofOutcome o).Follows (Prod.mk [] <$> o) := by
  intro p
  refine ⟨?_, fun ss a h => ?_⟩
  · rw [← comp_map]
    exact (id_map o).symm
  · rw [map_eq_pure_bind, Outcome.result_bind_eq_ok] at h
    obtain ⟨b, -, h⟩ := h
    cases h
    rfl

theorem bind_of_error {p : Page} {c : Cause} (h : (x p).1.result = .error c) :
    (x >>= k) p = (⟨(x p).1.events, .error c⟩, (x p).2) := by
  simp only [bind, h]

theorem bind_of_ok {p : Page} {a : α} (h : (x p).1.result = .ok a) :
    (x >>= k) p = (⟨(x p).1.events ++ (k a (x p).2).1.events, (k a (x p).2).1.result⟩,
      (k a (x p).2).2) := by
  simp only [bind, h]

/-- What two drafts write stands one behind the other. -/
theorem Follows.bind {y : Outcome Cause (List Statement × α)}
    {z : α → Outcome Cause (List Statement × β)} (hx : x.Follows y)
    (hk : ∀ a, (k a).Follows (z a)) :
    (x >>= k).Follows (y >>= fun w => (fun w' => (w.1 ++ w'.1, w'.2)) <$> z w.2) := by
  intro p
  obtain ⟨houtcome, hpage⟩ := hx p
  rcases y with ⟨events, result⟩
  cases result with
  | error c =>
    have hresult : (x p).1.result = .error c := by
      rw [houtcome]
      rfl
    refine ⟨?_, fun ss b h => ?_⟩
    · rw [bind_of_error hresult, houtcome]
      rfl
    · rw [Outcome.result_bind_eq_ok] at h
      obtain ⟨w, hw, -⟩ := h
      cases hw
  | ok w =>
    obtain ⟨ss, a⟩ := w
    have hresult : (x p).1.result = .ok a := by
      rw [houtcome]
      rfl
    have hwritten : (x p).2 = Statement.writeAll p ss := hpage ss a rfl
    obtain ⟨houtcome', hpage'⟩ := hk a (x p).2
    refine ⟨?_, fun ss' b h => ?_⟩
    · rw [bind_of_ok hresult, houtcome, houtcome']
      rcases hz : z a with ⟨events', result'⟩
      cases result' <;> simp [hz, Functor.map, Bind.bind]
    · rw [Outcome.result_bind_eq_ok] at h
      obtain ⟨w, hw, h⟩ := h
      cases hw
      rw [map_eq_pure_bind, Outcome.result_bind_eq_ok] at h
      obtain ⟨⟨ts, b'⟩, hts, h⟩ := h
      cases h
      rw [bind_of_ok hresult, hpage' ts _ hts, hwritten, Statement.writeAll_append_page]

theorem put_bind (change : Page → Page) (k : Unit → Draft α) (p : Page) :
    (put change >>= k) p = k () (change p) := rfl

theorem Follows.congr {y y' : Outcome Cause (List Statement × α)} (h : x.Follows y) (heq : y = y') :
    x.Follows y' := heq ▸ h

end Draft

theorem ofExcept_bind {ε α β : Type} (x : Except ε α) (k : α → Except ε β) :
    Outcome.ofExcept (x >>= k) = Outcome.ofExcept x >>= fun a => .ofExcept (k a) := by
  cases x <;> rfl

theorem ofExcept_map {ε α β : Type} (f : α → β) (x : Except ε α) :
    Outcome.ofExcept (f <$> x) = f <$> Outcome.ofExcept x := by
  cases x <;> rfl

namespace Body

open Draft

variable {f : LinkedFunction} {g : OpGraph} {e : Evaluation}

theorem draftInputs_follows (op : String) (s : Progress) (vs : List (Value Nat)) :
    (draftInputs f g e op s vs).Follows (.ofExcept (inputs f g e op s vs)) := by
  induction vs generalizing s with
  | nil => exact follows_pure ([], s)
  | cons v vs ih =>
    have h := (follows_ofOutcome (.ofExcept (input f g e op s v))).bind fun w =>
      (follows_statements w.1).bind fun _ =>
        (ih w.2.2).bind fun w' => follows_pure (w.2.1 :: w'.1, w'.2)
    refine h.congr ?_
    simp [inputs, ofExcept_bind, ofExcept_map]

theorem draftNode_follows (place i : Nat) (s : Progress) :
    (draftNode f g e place i s).Follows (node f g e place i s) := by
  unfold draftNode node
  cases g.nodes[i]? with
  | none => exact follows_ofOutcome _
  | some n =>
    have h := (draftInputs_follows (f := f) (g := g) (e := e) n.name s n.inputs).bind fun w =>
      (follows_ofOutcome (attributeEntries f g e n.name n.attributes)).bind fun entries =>
        (follows_statements (attributePart place entries).1).bind fun _ =>
          (follows_ofOutcome (.ofExcept (outputsOf e i))).bind fun outputs =>
            (follows_statements [.bindOutputs outputs n.outputs,
              .invoke ⟨place == 0, n.name, w.1, outputs, (attributePart place entries).2,
                n.domain?⟩, .check]).bind fun _ => follows_pure w.2
    refine h.congr ?_
    simp [attributePart]

theorem draftNodes_follows (place : Nat) (is : List Nat) (s : Progress) :
    (draftNodes f g e place is s).Follows (nodes f g e place is s) := by
  induction is generalizing place s with
  | nil => exact follows_pure s
  | cons i is ih =>
    refine ((draftNode_follows place i s).bind fun s' => ih (place + 1) s').congr ?_
    simp [nodes]

theorem draft_follows (f : LinkedFunction) (g : OpGraph) :
    (draft f g).Follows ((fun body => (body, ())) <$> ofGraph f g) := by
  have hnodes := draftNodes_follows (f := f) (g := g) (e := g.evaluate) 0 g.evaluate.order .start
  have h := (follows_statements [.log (f.params.filterMap LinkedParam.name?)]).bind fun _ =>
    (follows_ofOutcome (.ofExcept (firstTensor f))).bind fun first =>
      (follows_statements [.bindInvoker first]).bind fun _ =>
        hnodes.bind fun s =>
          (follows_ofOutcome (.ofExcept (result f g g.evaluate))).bind fun result =>
            (follows_ofOutcome (.ofExcept (returning f first result s))).bind fun returns =>
              follows_statements returns
  refine h.congr ?_
  simp [ofGraph]

end Body

/-! ## Bodies on pages of their own -/

/-- Lines end with a newline, if there are any. -/
theorem getLast?_linesText (depth : Nat) {ls : List Line} (h : ls ≠ []) :
    (linesText depth ls).toList.getLast? = some '\n' := by
  obtain ⟨front, last, rfl⟩ := (List.eq_nil_or_concat ls).resolve_left h
  rw [List.concat_eq_append, linesText_append, linesText_cons, Line.text, Page.lineText,
    linesText_nil]
  simp

/-- Putting lines on a page as they stand leaves it as writing them would. -/
theorem writeRaw_linesText {p : Page} (h : p.atLineStart = true) (depth : Nat) (ls : List Line) :
    p.writeRaw (linesText depth ls) = p.put (linesText depth ls) := by
  unfold Page.writeRaw
  split
  · rename_i hempty
    rw [String.isEmpty_iff.1 hempty, Page.put_empty]
  · rename_i hne
    have hlines : ls ≠ [] := by
      rintro rfl
      exact hne rfl
    rw [getLast?_linesText depth hlines]
    simp [Page.put, h]

/-- A body that was written one step deeper is what was written at that depth on a page of its
own. -/
theorem dedent_writeAll_indent {p : Page} (h : p.AtRest) (body : List Statement) :
    (Statement.writeAll p.indent body).dedent =
      p.writeRaw (Statement.writeAll (.blank 1) body).text := by
  have hin : Statement.writeAll p.indent body =
      p.indent.put (linesText 1 (body.flatMap Statement.lines)) := by
    rw [Statement.writeAll_eq (p := p.indent) h.atLineStart, Page.depth_indent, h.depth]
  rw [hin, Statement.text_writeAll_blank, writeRaw_linesText h.atLineStart, Page.dedent_put,
    Page.dedent_indent]

namespace Body

variable {f : LinkedFunction} {g : OpGraph}

theorem outcome_draft (p : Page) : (draft f g p).1 = (fun _ => ()) <$> ofGraph f g := by
  rw [(draft_follows f g p).1, ← comp_map]

theorem page_draft {body : List Statement} (h : (ofGraph f g).result = .ok body) (p : Page) :
    (draft f g p).2 = Statement.writeAll p body := by
  refine (draft_follows f g p).2 body () ?_
  rw [map_eq_pure_bind, Outcome.result_bind_eq_ok]
  exact ⟨body, h, rfl⟩

end Body

namespace KernelFunction

open Page

variable {f : LinkedFunction} {g : OpGraph} {p : Page}

theorem depth_writeHead (p : Page) (f : LinkedFunction) : (writeHead p f).depth = p.depth := by
  rw [writeHead, depth_writeSignature]
  simp [blankLine]

/-- A body that is drafted apart has the outcome of the body. -/
theorem outcome_apart (p : Page) :
    (Draft.apart 1 (Body.draft f g) p).1 =
      (fun _ => (Body.draft f g (.blank 1)).2.text) <$> Body.ofGraph f g := by
  rw [Draft.apart, Body.outcome_draft, ← comp_map]
  rfl

/-- A body that is missing something leaves nothing on the page around it. -/
theorem emit_of_error {c : Cause} (h : (Body.ofGraph f g).result = .error c) :
    emit f (.graph g) p = (⟨(Body.ofGraph f g).events, .error c⟩, p) := by
  have hbody : (Draft.apart 1 (Body.draft f g) p).1 = ⟨(Body.ofGraph f g).events, .error c⟩ := by
    rw [outcome_apart, Outcome.map_of_error _ h]
  have hresult : (Draft.apart 1 (Body.draft f g) p).1.result = .error c := by rw [hbody]
  rw [emit, Draft.bind_of_error hresult, hbody]
  rfl

/-- A body that is complete is put on the page as it was drafted. -/
theorem emit_of_ok {body : List Statement} (h : (Body.ofGraph f g).result = .ok body) :
    emit f (.graph g) p = (⟨(Body.ofGraph f g).events, .ok ()⟩, write p ⟨f, some body⟩) := by
  have hbody : (Draft.apart 1 (Body.draft f g) p).1 =
      ⟨(Body.ofGraph f g).events, .ok (Statement.writeAll (.blank 1) body).text⟩ := by
    rw [outcome_apart, Outcome.map_of_ok _ h, Body.page_draft h]
  have hresult : (Draft.apart 1 (Body.draft f g) p).1.result =
      .ok (Statement.writeAll (.blank 1) body).text := by rw [hbody]
  rw [emit, Draft.bind_of_ok hresult, hbody]
  simp [Draft.put]
  rfl

/-- A body that is complete is put on the page as it was drafted, in its place too. -/
theorem emitInPlace_of_ok (hp : p.AtRest) {body : List Statement}
    (h : (Body.ofGraph f g).result = .ok body) :
    emitInPlace f (.graph g) p = (⟨(Body.ofGraph f g).events, .ok ()⟩, write p ⟨f, some body⟩) := by
  have hrest : ((writeHead p f).writeLine " \x7b").AtRest :=
    ⟨(depth_writeLine _ _).trans ((depth_writeHead p f).trans hp.depth), rfl⟩
  have hbody : (Body.draft f g ((writeHead p f).writeLine " \x7b").indent).1 =
      ⟨(Body.ofGraph f g).events, .ok ()⟩ := by
    rw [Body.outcome_draft, Outcome.map_of_ok _ h]
  have hresult : (Body.draft f g ((writeHead p f).writeLine " \x7b").indent).1.result = .ok () := by
    rw [hbody]
  rw [emitInPlace, Draft.put_bind, Draft.bind_of_ok hresult, hbody, Body.page_draft h]
  simp only [Draft.put, dedent_writeAll_indent hrest]
  simp
  rfl

/-- Writing a function has the outcome of making it. -/
theorem outcome_emit (f : LinkedFunction) (m : Mapping) (p : Page) :
    (emit f m p).1 = (fun _ => ()) <$> ofMapping f m := by
  cases m with
  | signatureOnly => rfl
  | graph g =>
    have hmade : (fun _ => ()) <$> ofMapping f (.graph g) = (fun _ => ()) <$> Body.ofGraph f g := by
      simp [ofMapping]
    rw [hmade]
    cases hresult : (Body.ofGraph f g).result with
    | error c => rw [emit_of_error hresult, Outcome.map_of_error _ hresult]
    | ok body => rw [emit_of_ok hresult, Outcome.map_of_ok _ hresult]

/-- A function that cannot be written leaves the page as it was.  One that can be written is
written as if its body had been drafted in its place, which is how `KernelFunction.write` puts it
there. -/
theorem emit_atomic {p : Page} (hp : p.AtRest) (f : LinkedFunction) (m : Mapping) :
    (emit f m p).1 = (fun _ => ()) <$> ofMapping f m ∧
    (∀ c, (emit f m p).1.result = .error c → (emit f m p).2 = p) ∧
    ((emit f m p).1.result = .ok () → emit f m p = emitInPlace f m p) ∧
    ∀ k, (ofMapping f m).result = .ok k → (emit f m p).2 = k.write p := by
  refine ⟨outcome_emit f m p, ?_⟩
  cases m with
  | signatureOnly =>
    refine ⟨fun c h => ?_, fun _ => rfl, fun k h => ?_⟩
    · cases h
    · cases h
      rfl
  | graph g =>
    cases hbody : (Body.ofGraph f g).result with
    | error c =>
      rw [emit_of_error hbody]
      refine ⟨fun _ _ => rfl, fun h => ?_, fun k h => ?_⟩
      · cases h
      · obtain ⟨body, hok, -⟩ := Outcome.result_bind_eq_ok.1 h
        cases hbody.symm.trans hok
    | ok body =>
      rw [emit_of_ok hbody]
      refine ⟨fun c h => ?_, fun _ => (emitInPlace_of_ok hp hbody).symm, fun k h => ?_⟩
      · cases h
      · obtain ⟨body', hok, h⟩ := Outcome.result_bind_eq_ok.1 h
        cases hbody.symm.trans hok
        cases h
        rfl

/-- A function without parameters, which has nothing to take the device from. -/
def expOfNothing : LinkedFunction := { expInPlace with params := [] }

theorem emit_atomic_exp :
    (blank 0).AtRest ∧ (emit expInPlace (.graph doubledExp) (.blank 0)).1.result = .ok () ∧
    emit expInPlace (.graph doubledExp) (.blank 0) =
      emitInPlace expInPlace (.graph doubledExp) (.blank 0) ∧
    (emit expOfNothing (.graph doubledExp) (.blank 0)).1.result =
      .error (.firstParameter expOfNothing.schema) ∧
    (emit expOfNothing (.graph doubledExp) (.blank 0)).2 = .blank 0 := by
  have hbody : (Body.ofGraph expInPlace doubledExp).result = .ok doubledExpBody := by cbv
  have hok : (emit expInPlace (.graph doubledExp) (.blank 0)).1.result = .ok () := by
    rw [emit_of_ok hbody]
  have hmissing : (Body.ofGraph expOfNothing doubledExp).result =
      .error (.firstParameter expOfNothing.schema) := by cbv
  have herror : (emit expOfNothing (.graph doubledExp) (.blank 0)).1.result =
      .error (.firstParameter expOfNothing.schema) := by
    rw [emit_of_error hmissing]
  exact ⟨atRest_blank, hok,
    (emit_atomic atRest_blank expInPlace (.graph doubledExp)).2.2.1 hok, herror,
    (emit_atomic atRest_blank expOfNothing (.graph doubledExp)).2.1 _ herror⟩

/-- In its place, a body that is missing something leaves the page inside the function. -/
example : (emitInPlace expOfNothing (.graph doubledExp) (.blank 0)).2.depth = 1 := by
  rfl

end KernelFunction

end KernelGen
