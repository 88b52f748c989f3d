import Mathlib
import KernelGen.Command.Run
set_option autoImplicit false

/-!
# Command: actions on a file tree

An action takes a file tree to an outcome and to another tree.  `result` and `tree` are the two
sides of it without the events, and one equation for each way of building actions says what they
are.  An action that `OnlyReads` leaves every tree as it is, and so does what is built from such
actions.
-/

namespace KernelGen

/-- Actions on a file tree. -/
abbrev TreeAction (α : Type) : Type := Action (StateM FileTree) α

namespace Action

variable {α β : Type}

/-- What an action does to a tree. -/
def on (x : TreeAction α) (t : FileTree) : Outcome CommandFailure α × FileTree :=
  StateT.run (m := Id) x t

/-- What an action on a tree returns. -/
def result (x : TreeAction α) (t : FileTree) : Except CommandFailure α := (x.on t).1.result

/-- The tree that an action on a tree leaves. -/
def tree (x : TreeAction α) (t : FileTree) : FileTree := (x.on t).2

/-- The action returns something on a tree. -/
def SucceedsOn (x : TreeAction α) (t : FileTree) : Prop := ∃ a, x.result t = .ok a

/-- The action leaves every tree as it is. -/
def OnlyReads (x : TreeAction α) : Prop := ∀ t, x.tree t = t

variable {x : TreeAction α} {f : α → TreeAction β} {t : FileTree}

/-! ## What is built, and what it does -/

@[simp] theorem result_pure (a : α) : (pure a : TreeAction α).result t = .ok a := rfl

@[simp] theorem tree_pure (a : α) : (pure a : TreeAction α).tree t = t := rfl

@[simp] theorem result_ofOutcome (o : Outcome CommandFailure α) :
    (ofOutcome o : TreeAction α).result t = o.result := rfl

@[simp] theorem tree_ofOutcome (o : Outcome CommandFailure α) :
    (ofOutcome o : TreeAction α).tree t = t := rfl

@[simp] theorem result_within (c : CommandContext) :
    (x.within c).result t = (x.result t).mapError (CommandFailure.within c) := rfl

@[simp] theorem tree_within (c : CommandContext) : (x.within c).tree t = x.tree t := rfl

@[simp] theorem result_ofFileSystem (y : StateM FileTree (Except IoFault α)) :
    (ofFileSystem y : TreeAction α).result t =
      (StateT.run (m := Id) y t).1.mapError fun e => ⟨.io e, []⟩ := rfl

@[simp] theorem tree_ofFileSystem (y : StateM FileTree (Except IoFault α)) :
    (ofFileSystem y : TreeAction α).tree t = (StateT.run (m := Id) y t).2 := rfl

theorem on_bind : (x >>= f).on t =
    match (x.on t).1.result with
    | .error e => (⟨(x.on t).1.events, .error e⟩, x.tree t)
    | .ok a => (⟨(x.on t).1.events ++ ((f a).on (x.tree t)).1.events, (f a).result (x.tree t)⟩,
        (f a).tree (x.tree t)) := by
  rcases hx : x.on t with ⟨⟨events, r⟩, t'⟩
  have hx' : x t = (⟨events, r⟩, t') := hx
  cases r with
  | error e =>
    simp only [on, bind, StateT.run, StateT.bind, hx', tree]
    rfl
  | ok a =>
    simp only [on, bind, StateT.run, StateT.bind, hx', tree, result]
    rfl

/-- The second action is done on the tree that the first one leaves. -/
theorem result_bind : (x >>= f).result t = x.result t >>= fun a => (f a).result (x.tree t) := by
  rw [result, on_bind]
  unfold result
  cases (x.on t).1.result <;> rfl

theorem tree_bind_of_ok {a : α} (h : x.result t = .ok a) :
    (x >>= f).tree t = (f a).tree (x.tree t) := by
  unfold result at h
  rw [tree, on_bind, h]

theorem tree_bind_of_error {e : CommandFailure} (h : x.result t = .error e) :
    (x >>= f).tree t = x.tree t := by
  unfold result at h
  rw [tree, on_bind, h]

theorem result_bind_eq_ok {b : β} : (x >>= f).result t = .ok b ↔
    ∃ a, x.result t = .ok a ∧ (f a).result (x.tree t) = .ok b := by
  rw [result_bind]
  cases x.result t <;> simp [bind, Except.bind]

theorem result_bind_eq_error {e : CommandFailure} : (x >>= f).result t = .error e ↔
    x.result t = .error e ∨
      ∃ a, x.result t = .ok a ∧ (f a).result (x.tree t) = .error e := by
  rw [result_bind]
  cases x.result t <;> simp [bind, Except.bind]

/-- Returning something else does not change what is done. -/
theorem tree_bind_pure (b : β) : (x >>= fun _ => pure b).tree t = x.tree t := by
  cases h : x.result t with
  | ok a => rw [tree_bind_of_ok h, tree_pure]
  | error e => rw [tree_bind_of_error h]

theorem succeedsOn_bind_pure (b : β) :
    (x >>= fun _ => pure b).SucceedsOn t ↔ x.SucceedsOn t := by
  unfold SucceedsOn
  rw [result_bind]
  cases x.result t <;> simp [bind, Except.bind]

theorem result_bind_pure_eq_error {b : β} {e : CommandFailure} :
    (x >>= fun _ => pure b).result t = .error e ↔ x.result t = .error e := by
  rw [result_bind]
  cases x.result t <;> simp [bind, Except.bind]

theorem result_within_eq_ok {c : CommandContext} {a : α} :
    (x.within c).result t = .ok a ↔ x.result t = .ok a := by
  rw [result_within]
  cases x.result t <;> simp [Except.mapError]

theorem result_within_eq_error {c : CommandContext} {e : CommandFailure} :
    (x.within c).result t = .error e ↔ ∃ e', x.result t = .error e' ∧ e = e'.within c := by
  rw [result_within]
  cases x.result t <;> simp [Except.mapError, eq_comm]

theorem result_ofExcept_eq_ok {y : Except Cause α} {a : α} :
    (Action.ofExcept y : TreeAction α).result t = .ok a ↔ y = .ok a := by
  rw [Action.ofExcept, result_ofOutcome]
  cases y <;> simp [Outcome.ofExcept, Except.mapError]

theorem result_mapError_eq_ok {o : Outcome Failure α} {g : Failure → CommandFailure} {a : α} :
    (ofOutcome (o.mapError g) : TreeAction α).result t = .ok a ↔ o.result = .ok a := by
  rw [result_ofOutcome, Outcome.mapError]
  cases o.result <;> simp [Except.mapError]

/-! ## Actions that only read -/

namespace OnlyReads

theorem pure (a : α) : (Pure.pure a : TreeAction α).OnlyReads := fun _ => rfl

theorem ofOutcome (o : Outcome CommandFailure α) : (Action.ofOutcome o : TreeAction α).OnlyReads :=
  fun _ => rfl

theorem within (h : x.OnlyReads) (c : CommandContext) : (x.within c).OnlyReads := h

theorem bind (hx : x.OnlyReads) (hf : ∀ a, (f a).OnlyReads) : (x >>= f).OnlyReads := by
  intro t
  cases h : x.result t with
  | error e => rw [tree_bind_of_error h, hx t]
  | ok a => rw [tree_bind_of_ok h, hx t, hf a t]

/-- What follows an action that only reads is done on the same tree. -/
theorem result_bind_eq_ok (hx : x.OnlyReads) {b : β} : (x >>= f).result t = .ok b ↔
    ∃ a, x.result t = .ok a ∧ (f a).result t = .ok b := by
  rw [Action.result_bind_eq_ok, hx t]

theorem bind_of_ok (hx : x.OnlyReads) {a : α} (h : x.result t = .ok a) :
    (x >>= f).result t = (f a).result t ∧ (x >>= f).tree t = (f a).tree t := by
  rw [result_bind, tree_bind_of_ok h, h, hx t]
  exact ⟨rfl, rfl⟩

theorem read (path : String) :
    (ofFileSystem (FileSystem.read path) : TreeAction ByteArray).OnlyReads := fun _ => rfl

end OnlyReads

end Action

end KernelGen
