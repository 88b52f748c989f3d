import Mathlib
import KernelGen.Proofs.Graph.Order
import KernelGen.Proofs.Kernel.BodyParts
import KernelGen.Proofs.Kernel.Execution
import KernelGen.Proofs.Kernel.Naming
import KernelGen.Proofs.Kernel.Occurrences
set_option autoImplicit false

/-!
# Kernel: a body computes its graph

Whatever the parameters, the expressions and the ops mean, a body that is run returns the value
of its graph.  It calls the engine once for every node that the root depends on, with the
arguments and attributes that the graph gives to that node.

What carries the proof is `Tracks`: it ties a machine in the middle of a body to the nodes that
were run so far.  Names that come later are still free, and those that were declared hold what
the graph says.
-/

namespace KernelGen

variable {V : Type}

namespace Machine

/-- Every name that was declared still stands for the same. -/
def Keeps (s s' : Machine V) : Prop :=
  ∀ name c, s.cells name = some c → s'.cells name = some c

theorem Keeps.refl (s : Machine V) : s.Keeps s := fun _ _ h => h

theorem Keeps.trans {s s' s'' : Machine V} (h : s.Keeps s') (h' : s'.Keeps s'') : s.Keeps s'' :=
  fun name c hc => h' name c (h name c hc)

theorem keeps_set {s : Machine V} {name : String} (h : s.cells name = none) (c : Cell V) :
    s.Keeps (s.set name c) := by
  intro other c' hc'
  have hne : other ≠ name := by
    rintro rfl
    rw [h] at hc'
    cases hc'
  simp [set, hne, hc']

theorem declare_eq_some {s : Machine V} {name : String} (h : s.cells name = none) (c : Cell V) :
    s.declare name c = some (s.set name c) := by
  simp [declare, h]

@[simp] theorem cells_set_self (s : Machine V) (name : String) (c : Cell V) :
    (s.set name c).cells name = some c := by
  simp [set]

theorem cells_set_of_ne (s : Machine V) {name other : String} (h : other ≠ name) (c : Cell V) :
    (s.set name c).cells other = s.cells other := by
  simp [set, h]

theorem Keeps.value? {s s' : Machine V} (h : s.Keeps s') {name : String} {v : V}
    (hv : s.value? name = some v) : s'.value? name = some v := by
  unfold Machine.value? at hv
  split at hv
  · rename_i w hw
    simpa [Machine.value?, h _ _ hw] using hv
  · cases hv

theorem Keeps.first? {s s' : Machine V} (h : s.Keeps s') {name : String} {v : V}
    (hv : s.first? name = some v) : s'.first? name = some v := by
  unfold Machine.first? at hv
  split at hv
  · rename_i count values hcell
    simpa [Machine.first?, h _ _ hcell] using hv
  · cases hv

theorem Keeps.argument? {s s' : Machine V} (h : s.Keeps s') {a : Argument} {v : V}
    (hv : s.argument? a = some v) : s'.argument? a = some v := by
  cases a with
  | whole l => exact h.value? hv
  | first l => exact h.first? hv

theorem Keeps.arguments? {s s' : Machine V} (h : s.Keeps s') {as : List Argument} {vs : List V}
    (hvs : as.mapM s.argument? = some vs) : as.mapM s'.argument? = some vs := by
  induction as generalizing vs with
  | nil => exact hvs
  | cons a as ih =>
    simp only [List.mapM_cons, Option.bind_eq_bind, Option.bind_eq_some_iff] at hvs ⊢
    obtain ⟨v, hv, vs', hvs', hpure⟩ := hvs
    exact ⟨v, h.argument? hv, vs', ih hvs', hpure⟩

theorem Keeps.table? {s s' : Machine V} (h : s.Keeps s') {table? : Option Local}
    {entries : List (String × V)} (he : s.table? table? = some entries) :
    s'.table? table? = some entries := by
  cases table? with
  | none => exact he
  | some table =>
    simp only [Machine.table?, Machine.attributes?] at he ⊢
    split at he
    · rename_i entries' hcell
      simpa [h _ _ hcell] using he
    · cases he

end Machine

/-! ## What holds while the nodes are run -/

open Body (Progress)

/-- How far a body was run. -/
structure Scope where
  progress : Progress
  /-- The number of tables of attributes whose names were given away. -/
  tables : Nat
  /-- The number of outputs whose names were given away. -/
  outputs : Nat
  /-- The nodes that were run, in order. -/
  done : List Nat

/-- The local may have been declared. -/
def Scope.Declares (c : Scope) : Local → Prop
  | .invoker => True
  | .status => c.done ≠ []
  | .input param => param ∈ c.progress.bound
  | .literal index => index < c.progress.literals
  | .attributeTable place => place < c.tables
  | .outputs name => ∃ place op, place < c.outputs ∧ name = bindingName place op
  | .resultTensor | .resultData | .selfTensor | .selfData => False

/-- The second scope has run the same nodes, and has given away all names that the first has. -/
structure Scope.Grows (c c' : Scope) : Prop where
  bound : ∀ param ∈ c.progress.bound, param ∈ c'.progress.bound
  literals : c.progress.literals ≤ c'.progress.literals
  tables : c.tables ≤ c'.tables
  outputs : c.outputs ≤ c'.outputs
  done : c'.done = c.done

theorem Scope.Grows.declares {c c' : Scope} (h : c.Grows c') {l : Local} (hl : c.Declares l) :
    c'.Declares l := by
  cases l with
  | invoker => trivial
  | status => exact fun hnil => hl (h.done ▸ hnil)
  | input param => exact h.bound param hl
  | literal index => exact Nat.lt_of_lt_of_le hl h.literals
  | attributeTable place => exact Nat.lt_of_lt_of_le hl h.tables
  | outputs name =>
    obtain ⟨place, op, hplace, hname⟩ := hl
    exact ⟨place, op, Nat.lt_of_lt_of_le hplace h.outputs, hname⟩
  | resultTensor | resultData | selfTensor | selfData => exact hl

/-- The machine has run the nodes `c.done` of the graph. -/
structure Tracks (m : Meaning V) (g : OpGraph) (c : Scope) (s : Machine V) : Prop where
  free : ∀ l : Local, l.Proper → ¬ c.Declares l → s.cells l.name = none
  invoker : s.cells Local.invoker.name = some .invoker
  status : c.done ≠ [] → s.cells Local.status.name = some .status
  inputs : ∀ param ∈ c.progress.bound,
    s.cells (Local.input param).name = some (.value (m.param param))
  outputs : ∀ i ∈ c.done, ∀ name, g.evaluate.name? i = some name →
    ∃ count, s.cells name = some (.outputs count (some (m.outputs g i)))
  inPlace : ∀ param, c.progress.inPlace? = some param → param ∈ c.progress.bound
  calls : s.calls.map some = c.done.map (m.call? g)
  running : s.returned? = none

namespace Tracks

variable {m : Meaning V} {g : OpGraph} {c c' : Scope} {s : Machine V}

theorem hasInvoker (h : Tracks m g c s) : s.hasInvoker = some () := by
  simp [Machine.hasInvoker, h.invoker]

theorem value? (h : Tracks m g c s) {param : String} (hparam : param ∈ c.progress.bound) :
    s.value? (Local.input param).name = some (m.param param) := by
  simp [Machine.value?, h.inputs param hparam]

/-- The first output of a node that was run is there under the name of its outputs. -/
theorem first? (h : Tracks m g c s) {i : Nat} {name : String} (hi : i ∈ c.done)
    (hname : g.evaluate.name? i = some name) : s.first? name = some (m.outputs g i 0) := by
  obtain ⟨count, hcell⟩ := h.outputs i hi name hname
  simp [Machine.first?, hcell]

/-- Declaring a local whose name is free.  A parameter that is new in the scope has to be the
local itself. -/
theorem set (h : Tracks m g c s) (hgrows : c.Grows c') (l : Local) (cell : Cell V)
    (hl : l.Proper) (hnew : ¬ c.Declares l) (hdeclares : c'.Declares l)
    (hbound : ∀ param ∈ c'.progress.bound, param ∈ c.progress.bound ∨
      l = .input param ∧ cell = .value (m.param param))
    (hinPlace : ∀ param, c'.progress.inPlace? = some param → param ∈ c'.progress.bound) :
    s.declare l.name cell = some (s.set l.name cell) ∧ s.Keeps (s.set l.name cell) ∧
      Tracks m g c' (s.set l.name cell) := by
  have hfree : s.cells l.name = none := h.free l hl hnew
  have hkeeps : s.Keeps (s.set l.name cell) := Machine.keeps_set hfree cell
  refine ⟨Machine.declare_eq_some hfree cell, hkeeps, ?_⟩
  refine {
    free := ?_
    invoker := hkeeps _ _ h.invoker
    status := fun hne => hkeeps _ _ (h.status (hgrows.done ▸ hne))
    inputs := ?_
    outputs := ?_
    inPlace := hinPlace
    calls := by rw [hgrows.done]; exact h.calls
    running := h.running }
  · intro l' hl' hnot
    have hne : l'.name ≠ l.name := by
      intro heq
      rw [Local.name_injective hl' hl heq] at hnot
      exact hnot hdeclares
    rw [Machine.cells_set_of_ne s hne]
    exact h.free l' hl' fun hd => hnot (hgrows.declares hd)
  · intro param hparam
    rcases hbound param hparam with hold | ⟨rfl, rfl⟩
    · exact hkeeps _ _ (h.inputs param hold)
    · exact Machine.cells_set_self s _ _
  · intro i hi name hname
    obtain ⟨count, hcell⟩ := h.outputs i (hgrows.done ▸ hi) name hname
    exact ⟨count, hkeeps _ _ hcell⟩

/-- Names may be given away without being declared, and the parameter that is written in place
may be another one of those that were declared. -/
theorem mono (h : Tracks m g c s) (hgrows : c.Grows c')
    (hbound : c'.progress.bound = c.progress.bound)
    (hinPlace : ∀ param, c'.progress.inPlace? = some param → param ∈ c'.progress.bound) :
    Tracks m g c' s where
  free l hl hnot := h.free l hl fun hd => hnot (hgrows.declares hd)
  invoker := h.invoker
  status hne := h.status (hgrows.done ▸ hne)
  inputs param hparam := h.inputs param (hbound ▸ hparam)
  outputs i hi := h.outputs i (hgrows.done ▸ hi)
  inPlace := hinPlace
  calls := by rw [hgrows.done]; exact h.calls
  running := h.running

end Tracks

/-! ## What the parts of a body do -/

section Parts

variable {m : Meaning V} {f : LinkedFunction} {g : OpGraph} {c : Scope} {op : String}

theorem run_single (m : Meaning V) {s : Machine V} (h : s.returned? = none)
    (statement : Statement) : s.run m [statement] = s.step m statement := by
  rw [Machine.run_cons h]
  cases s.step m statement <;> rfl

theorem first?_singleOutput {s : Machine V} (ht : Tracks m g c s) {i : Nat} {l : Local}
    (hi : i ∈ c.done) (h : Body.singleOutput f g g.evaluate i = .ok l) :
    s.first? l.name = some (m.outputs g i 0) := by
  obtain ⟨n, name, -, -, hname, rfl⟩ := Body.singleOutput_eq_ok h
  exact ht.first? hi hname

/-- A parameter is declared unless it was before, and its argument has the value of it. -/
theorem run_param {s : Machine V} (ht : Tracks m g c s) {name : String} {p : Progress}
    {ss : List Statement} {a : Argument}
    (h : Body.input f g g.evaluate op c.progress (.param name) = .ok (ss, a, p)) :
    ∃ s', s.run m ss = some s' ∧ s.Keeps s' ∧ Tracks m g { c with progress := p } s' ∧
      s'.argument? a = some (m.param name) := by
  obtain ⟨hname, hmore, honly, hinPlace⟩ := Body.bound_of_input_param h ht.inPlace
  obtain ⟨q, -, rfl, hliterals, -, hcase⟩ := Body.input_param_eq_ok h
  have hgrows : c.Grows { c with progress := p } :=
    ⟨hmore, Nat.le_of_eq hliterals.symm, Nat.le_refl _, Nat.le_refl _, rfl⟩
  have hrun : ∃ s', s.run m ss = some s' ∧ s.Keeps s' ∧
      Tracks m g { c with progress := p } s' := by
    rcases hcase with ⟨-, rfl, hbound⟩ | ⟨hnew, rfl, -⟩
    · exact ⟨s, rfl, .refl s, ht.mono hgrows hbound hinPlace⟩
    · have hadded : ∀ param ∈ p.bound, param ∈ c.progress.bound ∨
          Local.input name = .input param ∧ Cell.value (m.param name) = .value (m.param param) := by
        intro param hparam
        refine (honly param hparam).imp_right ?_
        rintro rfl
        exact ⟨rfl, rfl⟩
      obtain ⟨hdeclare, hkeeps, htracks⟩ :=
        ht.set hgrows (.input name) (.value (m.param name)) trivial hnew hname hadded hinPlace
      refine ⟨_, ?_, hkeeps, htracks⟩
      rw [run_single m ht.running]
      simp [Machine.step, ht.hasInvoker, hdeclare]
  obtain ⟨s', hran, hkeeps, htracks⟩ := hrun
  exact ⟨s', hran, hkeeps, htracks, htracks.value? hname⟩

/-- An input is declared where it has to be, and its argument has the value of the input. -/
theorem run_input {s : Machine V} (ht : Tracks m g c s) {v : Value Nat} {p : Progress}
    {ss : List Statement} {a : Argument} (hrefs : ∀ r, v = .output r → r ∈ c.done)
    (h : Body.input f g g.evaluate op c.progress v = .ok (ss, a, p)) :
    ∃ s', s.run m ss = some s' ∧ s.Keeps s' ∧ Tracks m g { c with progress := p } s' ∧
      s'.argument? a = some (m.value (v.map (m.outputs g))) := by
  cases v with
  | output i =>
    obtain ⟨l, hl, rfl, rfl, rfl⟩ := Body.input_output_eq_ok h
    exact ⟨s, rfl, .refl s, ht, first?_singleOutput ht (hrefs i rfl) hl⟩
  | literal text =>
    obtain ⟨rfl, rfl, rfl⟩ := Body.input_literal_eq_ok h
    have hgrows : c.Grows { c with progress :=
        ⟨c.progress.bound, c.progress.literals + 1, c.progress.inPlace?⟩ } :=
      ⟨fun _ hp => hp, Nat.le_succ _, Nat.le_refl _, Nat.le_refl _, rfl⟩
    obtain ⟨hdeclare, hkeeps, htracks⟩ := ht.set hgrows
      (.literal c.progress.literals) (.value (m.literal text))
      trivial (Nat.lt_irrefl _) (Nat.lt_succ_self _) (fun _ hp => .inl hp) ht.inPlace
    refine ⟨_, ?_, hkeeps, htracks, ?_⟩
    · rw [run_single m ht.running]
      simp [Machine.step, ht.hasInvoker, hdeclare]
    · simp [Machine.argument?, Machine.value?, Meaning.value, Value.map]
  | param name => exact run_param ht h

/-- Inputs are declared one after the other; an argument keeps its value through those that
follow. -/
theorem run_inputs {s : Machine V} {vs : List (Value Nat)} {p : Progress}
    {ss : List Statement} {as : List Argument} (ht : Tracks m g c s)
    (hrefs : ∀ r, .output r ∈ vs → r ∈ c.done)
    (h : Body.inputs f g g.evaluate op c.progress vs = .ok (ss, as, p)) :
    ∃ s', s.run m ss = some s' ∧ s.Keeps s' ∧ Tracks m g { c with progress := p } s' ∧
      as.mapM s'.argument? = some (vs.map fun v => m.value (v.map (m.outputs g))) := by
  induction vs generalizing c s p ss as with
  | nil =>
    cases h
    exact ⟨s, rfl, .refl s, ht, rfl⟩
  | cons v vs ih =>
    obtain ⟨here, a, p₁, more, as', hhere, hmore, rfl, rfl⟩ := Body.inputs_cons_eq_ok h
    obtain ⟨s₁, hrun₁, hkeeps₁, ht₁, hread₁⟩ :=
      run_input ht (fun r hr => hrefs r (hr ▸ List.mem_cons_self)) hhere
    obtain ⟨s₂, hrun₂, hkeeps₂, ht₂, hread₂⟩ :=
      ih ht₁ (fun r hr => hrefs r (List.mem_cons_of_mem _ hr)) hmore
    refine ⟨s₂, ?_, hkeeps₁.trans hkeeps₂, ht₂, ?_⟩
    · rw [Machine.run_append, hrun₁]
      exact hrun₂
    · simp [hkeeps₂.argument? hread₁, hread₂]

/-- The attributes that have a value have it when they are read. -/
theorem read_entries {s : Machine V} (ht : Tracks m g c s)
    {as : List (String × Option (Value Nat))} {entries : List (String × AttributeValue)}
    (hrefs : ∀ key r, (key, some (.output r)) ∈ as → r ∈ c.done)
    (h : (Body.attributeEntries f g g.evaluate op as).result = .ok entries) :
    entries.mapM (fun e => (Machine.attribute? m s e.2).map fun v => (e.1, v)) =
      some (as.filterMap fun a => a.2.map fun v => (a.1, m.value (v.map (m.outputs g)))) := by
  induction as generalizing entries with
  | nil =>
    cases h
    rfl
  | cons a as ih =>
    obtain ⟨key, v?⟩ := a
    have hrefs' : ∀ key r, (key, some (.output r)) ∈ as → r ∈ c.done :=
      fun key r hr => hrefs key r (List.mem_cons_of_mem _ hr)
    cases v? with
    | none => simpa using ih hrefs' (Body.attributeEntries_none_eq_ok h)
    | some v =>
      obtain ⟨a, more, ha, hmore, rfl⟩ := Body.attributeEntries_some_eq_ok h
      have hread : Machine.attribute? m s a = some (m.value (v.map (m.outputs g))) := by
        rcases Body.attributeValue_eq_ok ha with
          ⟨name, q, rfl, -, rfl⟩ | ⟨text, rfl, rfl⟩ | ⟨i, l, rfl, hl, rfl⟩
        · rfl
        · rfl
        · exact first?_singleOutput ht (hrefs key i List.mem_cons_self) hl
      simp [hread, ih hrefs' hmore]

/-- The table of the attributes is declared unless there are none, and it holds their values. -/
theorem run_attributePart {s : Machine V} (ht : Tracks m g c s)
    {entries : List (String × AttributeValue)} {values : List (String × V)}
    (hread : entries.mapM (fun e => (Machine.attribute? m s e.2).map fun v => (e.1, v)) =
      some values) :
    ∃ s', s.run m (Body.attributePart c.tables entries).1 = some s' ∧ s.Keeps s' ∧
      Tracks m g { c with tables := c.tables + 1 } s' ∧
      s'.table? (Body.attributePart c.tables entries).2 = some values := by
  have hgrows : c.Grows { c with tables := c.tables + 1 } :=
    ⟨fun _ hp => hp, Nat.le_refl _, Nat.le_succ _, Nat.le_refl _, rfl⟩
  cases entries with
  | nil =>
    cases hread
    exact ⟨s, rfl, .refl s, ht.mono hgrows rfl ht.inPlace, rfl⟩
  | cons e es =>
    obtain ⟨hdeclare, hkeeps, htracks⟩ := ht.set hgrows
      (.attributeTable c.tables) (.attributes values)
      trivial (Nat.lt_irrefl _) (Nat.lt_succ_self _) (fun _ hp => .inl hp) ht.inPlace
    refine ⟨_, ?_, hkeeps, htracks, ?_⟩
    · simp only [Body.attributePart, List.isEmpty_cons, Bool.false_eq_true, if_false]
      rw [run_single m ht.running, Machine.step, hread]
      exact hdeclare
    · simp [Body.attributePart, Machine.table?, Machine.attributes?]

/-- The second machine is the first with the status written. -/
structure WithStatus (s s' : Machine V) : Prop where
  keeps : s.Keeps s'
  status : s'.cells Local.status.name = some .status
  others : ∀ name, name ≠ Local.status.name → s'.cells name = s.cells name
  calls : s'.calls = s.calls
  returned : s'.returned? = s.returned?

/-- The status can be written: it is declared by the first run and there for the later ones. -/
theorem setStatus_eq_some {s : Machine V} (ht : Tracks m g c s) :
    ∃ s', s.setStatus (c.done.length == 0) = some s' ∧ WithStatus s s' := by
  cases hdone : c.done with
  | nil =>
    have hfree : s.cells Local.status.name = none :=
      ht.free .status trivial fun hne => hne hdone
    refine ⟨s.set Local.status.name .status, Machine.declare_eq_some hfree _, ?_⟩
    exact ⟨Machine.keeps_set hfree _, Machine.cells_set_self s _ _,
      fun name hne => Machine.cells_set_of_ne s hne _, rfl, rfl⟩
  | cons i is =>
    have hstatus : s.cells Local.status.name = some .status :=
      ht.status (by rw [hdone]; exact List.cons_ne_nil i is)
    refine ⟨s, ?_, .refl s, hstatus, fun _ _ => rfl, rfl, rfl⟩
    simp [Machine.setStatus, Machine.hasStatus, hstatus]

/-- The scope between two nodes. -/
def Scope.after (p : Progress) (done : List Nat) : Scope := ⟨p, done.length, done.length, done⟩

/-- What was declared in front of the run of an op is declared behind it. -/
theorem Scope.declares_after {p : Progress} {done : List Nat} {l : Local} (i : Nat)
    (h : Scope.Declares ⟨p, done.length + 1, done.length + 1, done⟩ l) :
    (Scope.after p (done ++ [i])).Declares l := by
  cases l with
  | status => simp [Scope.Declares, Scope.after]
  | attributeTable place => simpa [Scope.Declares, Scope.after] using h
  | outputs name => simpa [Scope.Declares, Scope.after] using h
  | _ => exact h

/-- A machine that had the outputs of the node `i` declared, without values, has run that node
once the status was written, the outputs have their values and the call was made. -/
theorem Tracks.ran {s s₁ : Machine V} {p : Progress} {done : List Nat} {i : Nat}
    {n : OpNode Nat} {name : String}
    (ht : Tracks m g ⟨p, done.length + 1, done.length + 1, done⟩ s) (hs₁ : WithStatus s s₁)
    (hn : g.nodes[i]? = some n) (hname : g.evaluate.name? i = some name)
    (hplace : ∃ op, name = bindingName done.length op)
    (hcell : s.cells name = some (.outputs n.outputs none)) :
    Tracks m g (.after p (done ++ [i]))
      { s₁.set name (.outputs n.outputs (some (m.outputs g i))) with
        calls := s₁.calls ++ [m.callOf (n.map (m.outputs g))] } := by
  have hne : name ≠ Local.status.name := by
    rintro rfl
    have hkept := hs₁.keeps _ _ hcell
    rw [hs₁.status] at hkept
    cases hkept
  have hproper : (Local.outputs name).Proper := ⟨done.length, hplace⟩
  have hdeclared : (Scope.after p (done ++ [i])).Declares (.outputs name) := by
    obtain ⟨op, hop⟩ := hplace
    exact Scope.declares_after i ⟨done.length, op, Nat.lt_succ_self _, hop⟩
  -- all that was declared before is still there, the outputs themselves apart
  have hother : ∀ (values : Nat → V) (other : String) (cell : Cell V),
      s.cells other = some cell → (∀ count, cell ≠ .outputs count none) →
        (s₁.set name (.outputs n.outputs (some values))).cells other = some cell := by
    intro values other cell hold hcellNe
    have hotherNe : other ≠ name := by
      rintro rfl
      rw [hcell] at hold
      cases hold
      exact hcellNe _ rfl
    rw [Machine.cells_set_of_ne s₁ hotherNe]
    exact hs₁.keeps _ _ hold
  refine {
    free := ?_
    invoker := hother _ _ _ ht.invoker (fun _ h => by cases h)
    status := fun _ => (Machine.cells_set_of_ne s₁ hne.symm _).trans hs₁.status
    inputs := fun param hparam => hother _ _ _ (ht.inputs param hparam) (fun _ h => by cases h)
    outputs := ?_
    inPlace := ht.inPlace
    calls := ?_
    running := hs₁.returned.trans ht.running }
  · intro l hl hnot
    have hnameNe : l.name ≠ name := by
      intro heq
      obtain rfl : l = .outputs name := Local.name_injective hl hproper heq
      exact hnot hdeclared
    have hstatusNe : l.name ≠ Local.status.name := by
      intro heq
      obtain rfl : l = .status := Local.name_injective hl trivial heq
      exact hnot (by simp [Scope.Declares, Scope.after])
    refine (Machine.cells_set_of_ne s₁ hnameNe _).trans ?_
    rw [hs₁.others _ hstatusNe]
    exact ht.free l hl fun hd => hnot (Scope.declares_after i hd)
  · intro j hj name' hname'
    rcases List.mem_append.1 hj with hold | hnew
    · obtain ⟨count, hcell'⟩ := ht.outputs j hold name' hname'
      exact ⟨count, hother _ _ _ hcell' (fun _ h => by cases h)⟩
    · rw [List.mem_singleton.1 hnew] at hname' ⊢
      cases hname.symm.trans hname'
      exact ⟨n.outputs, Machine.cells_set_self s₁ _ _⟩
  · rw [List.map_append, hs₁.calls, ht.calls, Scope.after, List.map_append]
    simp [Meaning.call?, hn]

/-- Running an op that was prepared: its outputs are declared and have no values yet, and its
arguments and attributes are those of the node `i`. -/
theorem invoke_eq_some {s : Machine V} {p : Progress} {done : List Nat} {i : Nat}
    {n : OpNode Nat} {name : String} (inv : Invocation)
    (ht : Tracks m g ⟨p, done.length + 1, done.length + 1, done⟩ s)
    (hn : g.nodes[i]? = some n) (hname : g.evaluate.name? i = some name)
    (hplace : ∃ op, name = bindingName done.length op)
    (hcell : s.cells name = some (.outputs n.outputs none))
    (hfirst : inv.isFirst = (done.length == 0)) (hop : inv.op = n.name)
    (hdomain : inv.domain? = n.domain?) (houtputs : inv.outputs = .outputs name)
    (hargs : inv.arguments.mapM s.argument? =
      some (n.inputs.map fun v => m.value (v.map (m.outputs g))))
    (hattrs : s.table? inv.attributes? = some
      (n.attributes.filterMap fun a => a.2.map fun v => (a.1, m.value (v.map (m.outputs g))))) :
    ∃ s', s.invoke m inv = some s' ∧ Tracks m g (.after p (done ++ [i])) s' := by
  have hcount : s.count? name = some n.outputs := by
    simp [Machine.count?, hcell]
  obtain ⟨s₁, hset, hs₁⟩ := setStatus_eq_some ht
  -- the call that is made is the one that the graph has for the node
  have hcall : (⟨inv.op, n.inputs.map fun v => m.value (v.map (m.outputs g)),
      n.attributes.filterMap fun a => a.2.map fun v => (a.1, m.value (v.map (m.outputs g))),
      inv.domain?, n.outputs⟩ : Call V) = m.callOf (n.map (m.outputs g)) := by
    simp [Meaning.callOf, OpNode.map, hop, hdomain, List.filterMap_map, Function.comp_def,
      Option.map_map]
  refine ⟨_, ?_, ht.ran hs₁ hn hname hplace hcell⟩
  simp [Machine.invoke, ht.hasInvoker, hargs, hattrs, hcount, hfirst, hset, hcall, houtputs,
    m.outputs_eq hn, Local.name]

/-- A node is run once everything it refers to was run. -/
theorem run_node {s : Machine V} {p p' : Progress} {done back : List Nat} {i : Nat}
    {ss : List Statement} (ht : Tracks m g (.after p done) s)
    (horder : g.evaluate.order = done ++ i :: back)
    (h : (Body.node f g g.evaluate done.length i p).result = .ok (ss, p')) :
    ∃ s', s.run m ss = some s' ∧ Tracks m g (.after p' (done ++ [i])) s' := by
  obtain ⟨n, bindings, arguments, entries, name, hn, hinputs, hentries, hname, rfl⟩ :=
    Body.node_eq_ok h
  have hrefs : ∀ r ∈ n.references, r ∈ done := by
    intro r hr
    refine (Evaluation.settled_evaluate g).references_before done i back horder r ?_
    simpa [OpGraph.references, hn] using hr
  have hplace : name = bindingName done.length n.name :=
    Option.some.inj (hname.symm.trans (name?_evaluate horder hn))
  obtain ⟨s₁, hrun₁, hkeeps₁, ht₁, hargs⟩ :=
    run_inputs (c := .after p done) ht (fun r hr => hrefs r (OpNode.mem_references_of_input hr))
      hinputs
  have hread := read_entries ht₁
    (fun key r hr => hrefs r (OpNode.mem_references_of_attribute hr)) hentries
  obtain ⟨s₂, hrun₂, hkeeps₂, ht₂, hattrs⟩ := run_attributePart ht₁ hread
  have hproper : (Local.outputs name).Proper := ⟨done.length, n.name, hplace⟩
  have hgrows : Scope.Grows ⟨p', done.length + 1, done.length, done⟩
      ⟨p', done.length + 1, done.length + 1, done⟩ :=
    ⟨fun _ hp => hp, Nat.le_refl _, Nat.le_refl _, Nat.le_succ _, rfl⟩
  obtain ⟨hdeclare, hkeeps₃, ht₃⟩ := ht₂.set hgrows (.outputs name) (.outputs n.outputs none)
    hproper
    (by
      rintro ⟨place, op, hlt, hop⟩
      rw [hplace] at hop
      have heq := place_eq_of_bindingName_eq hop
      exact absurd hlt (heq ▸ Nat.lt_irrefl _))
    ⟨done.length, n.name, Nat.lt_succ_self _, hplace⟩ (fun _ hp => .inl hp) ht₂.inPlace
  let inv : Invocation := ⟨done.length == 0, n.name, arguments, .outputs name,
    (Body.attributePart done.length entries).2, n.domain?⟩
  obtain ⟨s₄, hinvoke, ht₄⟩ := invoke_eq_some inv ht₃ hn hname ⟨n.name, hplace⟩
    (Machine.cells_set_self s₂ _ _) rfl rfl rfl rfl
    ((hkeeps₂.trans hkeeps₃).arguments? hargs) (hkeeps₃.table? hattrs)
  refine ⟨s₄, ?_, ht₄⟩
  have hcheck : s₄.hasStatus = some () := by
    simp [Machine.hasStatus, ht₄.status (by simp [Scope.after])]
  have hrest : s₂.run m
      [.bindOutputs (.outputs name) n.outputs, .invoke inv, .check] = some s₄ := by
    rw [Machine.run_cons ht₂.running, Machine.step, hdeclare]
    refine (Machine.run_cons ht₃.running _ _).trans ?_
    rw [Machine.step, hinvoke]
    refine (run_single m ht₄.running _).trans ?_
    simp [Machine.step, hcheck]
  calc s.run m (bindings ++ (Body.attributePart done.length entries).1 ++ _)
      = s₁.run m ((Body.attributePart done.length entries).1 ++ _) := by
        rw [List.append_assoc, Machine.run_append, hrun₁]
        rfl
    _ = s₂.run m _ := by
        rw [Machine.run_append]
        exact congrArg (· >>= _) hrun₂
    _ = some s₄ := hrest

/-- The nodes of an order are run one after the other. -/
theorem run_nodes {s : Machine V} {p p' : Progress} {done rest : List Nat}
    {ss : List Statement} (ht : Tracks m g (.after p done) s)
    (horder : g.evaluate.order = done ++ rest)
    (h : (Body.nodes f g g.evaluate done.length rest p).result = .ok (ss, p')) :
    ∃ s', s.run m ss = some s' ∧ Tracks m g (.after p' g.evaluate.order) s' := by
  induction rest generalizing done s p ss with
  | nil =>
    cases h
    rw [List.append_nil] at horder
    exact ⟨s, rfl, horder ▸ ht⟩
  | cons i rest ih =>
    obtain ⟨here, p₁, more, hhere, hmore, rfl⟩ := Body.nodes_cons_eq_ok h
    obtain ⟨s₁, hrun₁, ht₁⟩ := run_node ht horder hhere
    have horder' : g.evaluate.order = (done ++ [i]) ++ rest := by
      rw [horder, List.append_assoc, List.singleton_append]
    have hlength : (done ++ [i]).length = done.length + 1 := by simp
    obtain ⟨s₂, hrun₂, ht₂⟩ := ih ht₁ horder' (hlength ▸ hmore)
    refine ⟨s₂, ?_, ht₂⟩
    rw [Machine.run_append, hrun₁]
    exact hrun₂

end Parts

/-! ## The whole body -/

/-- A machine that has logged the call and declared the invoker has run no nodes. -/
theorem tracks_start (m : Meaning V) (g : OpGraph) :
    Tracks m g (.after .start [])
      ((Machine.start : Machine V).set Local.invoker.name .invoker) where
  free l hl hnot := by
    have hne : l.name ≠ Local.invoker.name := by
      intro heq
      obtain rfl : l = .invoker := Local.name_injective hl trivial heq
      exact hnot trivial
    exact Machine.cells_set_of_ne _ hne _
  invoker := Machine.cells_set_self _ _ _
  status hne := absurd rfl hne
  inputs param hparam := nomatch hparam
  outputs i hi := nomatch hi
  inPlace param hparam := nomatch hparam
  calls := rfl
  running := rfl

/-- Copying a result declares four locals, and changes nothing else that is looked at later. -/
theorem copy_eq_some {s : Machine V} {result : Local} {param : String} {v w : V}
    (hv : s.first? result.name = some v) (hw : s.value? (Local.input param).name = some w)
    (hresultTensor : s.cells Local.resultTensor.name = none)
    (hresultData : s.cells Local.resultData.name = none)
    (hselfTensor : s.cells Local.selfTensor.name = none)
    (hselfData : s.cells Local.selfData.name = none) :
    ∃ s', s.copy result param = some s' ∧ s'.copied? = some (param, v) ∧
      s'.calls = s.calls ∧ s'.returned? = s.returned? := by
  let s₁ := s.set Local.resultTensor.name .tensor
  let s₂ := s₁.set Local.resultData.name .tensor
  let s₃ := s₂.set Local.selfTensor.name .tensor
  let s₄ := s₃.set Local.selfData.name .tensor
  have hfree₁ : s₁.cells Local.resultData.name = none := by
    rw [Machine.cells_set_of_ne s (by decide)]
    exact hresultData
  have hfree₂ : s₂.cells Local.selfTensor.name = none := by
    rw [Machine.cells_set_of_ne s₁ (by decide), Machine.cells_set_of_ne s (by decide)]
    exact hselfTensor
  have hfree₃ : s₃.cells Local.selfData.name = none := by
    rw [Machine.cells_set_of_ne s₂ (by decide), Machine.cells_set_of_ne s₁ (by decide),
      Machine.cells_set_of_ne s (by decide)]
    exact hselfData
  have hkeeps : s.Keeps s₂ :=
    (Machine.keeps_set hresultTensor _).trans (Machine.keeps_set hfree₁ _)
  refine ⟨{ s₄ with copied? := some (param, v) }, ?_, rfl, rfl, rfl⟩
  simp only [Machine.copy, hv, Machine.declare_eq_some hresultTensor,
    Machine.declare_eq_some hfree₁, hkeeps.value? hw, Machine.declare_eq_some hfree₂,
    Machine.declare_eq_some hfree₃, Option.bind_eq_bind, Option.bind_some, s₁, s₂, s₃]
  rfl

/-- Either way of returning hands on the first output of the op that was run last. -/
theorem run_returning {m : Meaning V} {f : LinkedFunction} {g : OpGraph} {c : Scope}
    {s : Machine V} {first : String} {l : Local} {v : V} {ss : List Statement}
    (ht : Tracks m g c s) (hv : s.first? l.name = some v)
    (h : Body.returning f first l c.progress = .ok ss) :
    ∃ s', s.run m ss = some s' ∧ s'.returned? = some v ∧ s'.calls = s.calls := by
  rcases Body.returning_eq_ok h with ⟨-, rfl⟩ | ⟨a, param, -, hparam, rfl⟩
  · refine ⟨{ s with returned? := some v }, ?_, rfl, rfl⟩
    rw [run_single m ht.running]
    simp [Machine.step, hv]
  · have hinput : s.value? (Local.input param).name = some (m.param param) :=
      ht.value? (ht.inPlace param hparam)
    obtain ⟨s', hcopy, hcopied, hcalls, hreturned⟩ := copy_eq_some hv hinput
      (ht.free .resultTensor trivial id) (ht.free .resultData trivial id)
      (ht.free .selfTensor trivial id) (ht.free .selfData trivial id)
    refine ⟨{ s' with returned? := some v }, ?_, rfl, hcalls⟩
    rw [Machine.run_cons ht.running, Machine.step, hcopy]
    refine (run_single m (hreturned.trans ht.running) _).trans ?_
    simp [Machine.step, hcopied]

/-- The statements in front of the first op declare the invoker and run no node. -/
theorem run_opening (m : Meaning V) (names : List String) (first : String)
    (ss : List Statement) :
    (Machine.start : Machine V).run m (.log names :: .bindInvoker first :: ss) =
      (Machine.start.set Local.invoker.name .invoker).run m ss := by
  have hinvoker : (Machine.start : Machine V).declare Local.invoker.name .invoker =
      some (Machine.start.set Local.invoker.name .invoker) := Machine.declare_eq_some rfl _
  calc Machine.start.run m (.log names :: .bindInvoker first :: ss)
      = Machine.start.run m (.bindInvoker first :: ss) := Machine.run_cons rfl _ _
    _ = (Machine.start.set Local.invoker.name .invoker).run m ss := by
        rw [Machine.run_cons rfl, Machine.step, hinvoker]
        rfl

/-- A body gets to its end.  The nodes are run in the order in which they were evaluated, and
the root is the last of them. -/
theorem run_body {f : LinkedFunction} {g : OpGraph} {body : List Statement}
    (h : (Body.ofGraph f g).result = .ok body) (m : Meaning V) :
    ∃ s : Machine V, Machine.start.run m body = some s ∧
      s.returned? = some (m.outputs g g.root 0) ∧
      s.calls.map some = g.evaluate.order.map (m.call? g) := by
  obtain ⟨first, ops, p, l, returns, -, hops, hl, hreturns, rfl⟩ := Body.ofGraph_eq_ok h
  obtain ⟨s₁, hrun₁, ht₁⟩ := run_nodes (tracks_start m g) (List.nil_append _).symm hops
  obtain ⟨i, hlast, hsingle⟩ := Body.result_eq_ok hl
  cases (Evaluation.getLast?_order_evaluate g).symm.trans hlast
  have hroot : g.root ∈ g.evaluate.order := Evaluation.mem_order_evaluate.2 .refl
  have hvalue : s₁.first? l.name = some (m.outputs g g.root 0) :=
    first?_singleOutput ht₁ hroot hsingle
  obtain ⟨s₂, hrun₂, hreturned, hcalls⟩ := run_returning ht₁ hvalue hreturns
  refine ⟨s₂, ?_, hreturned, hcalls.symm ▸ ht₁.calls⟩
  refine (run_opening m _ first (ops ++ returns)).trans ?_
  rw [Machine.run_append, hrun₁]
  exact hrun₂

/-- **A body computes its graph.**  Whenever a body was made for a graph, its text is its
statements, line by line, and running it from the start gets to its end.  What it returns is the
value of the root, by recursion over the graph; and the calls of the engine are those of the nodes
that the root depends on, one for each. -/
theorem run_ofGraph (f : LinkedFunction) (g : OpGraph) (body : List Statement)
    (h : (Body.ofGraph f g).result = .ok body) (m : Meaning V) :
    (∀ depth, (Statement.writeAll (.blank depth) body).text =
      linesText depth (body.flatMap Statement.lines)) ∧
    ∃ (s : Machine V) (order : List Nat),
      Machine.start.run m body = some s ∧
      s.returned? = some (m.outputs g g.root 0) ∧
      order.Nodup ∧ (∀ i, i ∈ order ↔ g.Reaches g.root i) ∧
      s.calls.map some = order.map (m.call? g) := by
  refine ⟨fun depth => Statement.text_writeAll_blank depth body, ?_⟩
  obtain ⟨s, hrun, hreturned, hcalls⟩ := run_body h m
  have hnodup : g.evaluate.order.Nodup := (Evaluation.settled_evaluate g).nodup
  have hmem : ∀ i, i ∈ g.evaluate.order ↔ g.Reaches g.root i :=
    fun i => Evaluation.mem_order_evaluate
  exact ⟨s, g.evaluate.order, hrun, hreturned, hnodup, hmem, hcalls⟩

/-! ## A body at work -/

/-- A function that writes its result over its argument. -/
def expInPlace : LinkedFunction :=
  let tensorRef : Host.HostType := ⟨true, false, ["at", "Tensor"], [], [.ref]⟩
  let self : Host.Param := ⟨tensorRef, some "self", none⟩
  let written : Schema.SchemaType := ⟨.tensor, some ⟨[.set "a"], none, true⟩, []⟩
  { declaration := ⟨tensorRef, "exp_", [self], .endOfText .start [], .start⟩
    metadata := ⟨"aten::exp_(Tensor(a!) self) -> Tensor(a!)", false, false⟩
    signature := ⟨["aten", "exp_"], none, [.value written (some "self") none], .value written⟩
    params := [.declared self [0]] }

/-- A node that is used twice, and an attribute without a value. -/
def doubledExp : OpGraph where
  owner := 0
  nodes := [⟨"Exp", 1, [.param "self"], [], none⟩,
    ⟨"Add", 1, [.output 0, .output 0], [("alpha", some (.literal "1")), ("beta", none)], none⟩]
  root := 1
  root_lt := by decide
  references_lt := by decide

/-- The body that computes `doubledExp` in place. -/
def doubledExpBody : List Statement :=
  [.log ["self"], .bindInvoker "self", .bindInput "self",
    .bindOutputs (.outputs "result_0_Exp") 1,
    .invoke ⟨true, "Exp", [.whole (.input "self")], .outputs "result_0_Exp", none, none⟩, .check,
    .bindAttributes (.attributeTable 1) [("alpha", .literal "1")],
    .bindOutputs (.outputs "result_1_Add") 1,
    .invoke ⟨false, "Add", [.first (.outputs "result_0_Exp"), .first (.outputs "result_0_Exp")],
      .outputs "result_1_Add", some (.attributeTable 1), none⟩, .check,
    .copyInto (.outputs "result_1_Add") "self", .returnParam "self"]

/-- Values are lengths of names and sums of them. -/
def lengthSums : Meaning Nat :=
  ⟨String.length, String.length, fun c i =>
    (c.arguments ++ c.attributes.map (·.2)).foldl (fun m n => m + n) i⟩

theorem run_ofGraph_doubledExp :
    (Body.ofGraph expInPlace doubledExp).result = .ok doubledExpBody ∧
    (∀ depth, (Statement.writeAll (.blank depth) doubledExpBody).text =
      linesText depth (doubledExpBody.flatMap Statement.lines)) ∧
    ∃ (s : Machine Nat) (order : List Nat),
      Machine.start.run lengthSums doubledExpBody = some s ∧
      s.returned? = some (lengthSums.outputs doubledExp 1 0) ∧
      order.Nodup ∧ (∀ i, i ∈ order ↔ doubledExp.Reaches 1 i) ∧
      s.calls.map some = order.map (lengthSums.call? doubledExp) :=
  have h : (Body.ofGraph expInPlace doubledExp).result = .ok doubledExpBody := by cbv
  ⟨h, run_ofGraph expInPlace doubledExp doubledExpBody h lengthSums⟩

end KernelGen
