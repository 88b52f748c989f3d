set_option autoImplicit false

/-!
# Outcome: results with a log

A run tells what it does as it goes, and what it told stays told when it fails later.  An
outcome is therefore the list of events, in order, and beside it the result or the failure.
Outcomes form a monad: `events_bind` and `result_bind` say what a sequence of two leaves.
-/

namespace KernelGen

/-- What a run may tell. -/
inductive Event where
  /-- a declaration without metadata is passed over -/
  | withoutMetadata (declaration : String)
  /-- schema parameters at the end are not linked -/
  | unlinked (declaration : String) (count : Nat)
  /-- a declaration whose operator is not mapped is passed over -/
  | withoutMapping (operator declaration : String)
  /-- an attribute without a value is left out -/
  | omittedAttribute (operator node attr : String)
  /-- a function was written -/
  | emitted (operator declaration : String)
  /-- all declarations were gone through -/
  | finished (declarations functions : Nat)
  /-- the text for an output file is complete -/
  | generated (out : String) (functions : Nat)
  deriving DecidableEq, Repr, Inhabited

/-- How much an event matters. -/
inductive Level where
  | debug
  | info
  | warn
  deriving DecidableEq, Repr, Inhabited

/-- The name of a level. -/
def Level.name : Level → String
  | .debug => "DEBUG"
  | .info => "INFO"
  | .warn => "WARN"

/-- The value of a field of an event. -/
inductive FieldValue where
  | text (s : String)
  | count (n : Nat)
  deriving DecidableEq, Repr, Inhabited

namespace Event

/-- How much an event matters. -/
def level : Event → Level
  | .withoutMetadata _ | .unlinked .. | .withoutMapping .. | .emitted .. => .debug
  | .finished .. | .generated .. => .info
  | .omittedAttribute .. => .warn

/-- The sentence that tells an event. -/
def message : Event → String
  | .withoutMetadata _ => "no operator metadata; skipped"
  | .unlinked .. => "trailing schema parameters have no host counterpart"
  | .withoutMapping .. => "no mapping; skipped"
  | .omittedAttribute .. => "attribute has no value and is omitted"
  | .emitted .. => "emitted"
  | .finished .. => "generation finished"
  | .generated .. => "generated"

/-- The fields of an event, by name. -/
def fields : Event → List (String × FieldValue)
  | .withoutMetadata declaration => [("decl", .text declaration)]
  | .unlinked declaration count => [("decl", .text declaration), ("unlinked", .count count)]
  | .withoutMapping operator declaration =>
    [("op", .text operator), ("decl", .text declaration)]
  | .omittedAttribute operator node attr =>
    [("op", .text operator), ("node", .text node), ("attribute", .text attr)]
  | .emitted operator declaration => [("op", .text operator), ("decl", .text declaration)]
  | .finished declarations functions =>
    [("decls", .count declarations), ("generated", .count functions)]
  | .generated out functions => [("out", .text out), ("functions", .count functions)]

end Event

/-- The events of a run, in order, and its result. -/
structure Outcome (ε α : Type) where
  events : List Event
  result : Except ε α

namespace Outcome

variable {ε ε' α β : Type}

/-- A result, with nothing told. -/
def ofExcept (x : Except ε α) : Outcome ε α := ⟨[], x⟩

/-- A failure, with nothing told. -/
def fail (e : ε) : Outcome ε α := ⟨[], .error e⟩

/-- One event. -/
def tell (e : Event) : Outcome ε Unit := ⟨[e], .ok ()⟩

/-- The failure put differently. -/
def mapError (f : ε → ε') (x : Outcome ε α) : Outcome ε' α := ⟨x.events, x.result.mapError f⟩

instance : Monad (Outcome ε) where
  pure a := ⟨[], .ok a⟩
  bind x f :=
    match x.result with
    | .error e => ⟨x.events, .error e⟩
    | .ok a => ⟨x.events ++ (f a).events, (f a).result⟩

@[ext] theorem ext {x y : Outcome ε α} (he : x.events = y.events) (hr : x.result = y.result) :
    x = y := by
  cases x; cases y; cases he; cases hr; rfl

@[simp] theorem events_pure (a : α) : (pure a : Outcome ε α).events = [] := rfl

@[simp] theorem result_pure (a : α) : (pure a : Outcome ε α).result = .ok a := rfl

theorem result_bind (x : Outcome ε α) (f : α → Outcome ε β) :
    (x >>= f).result = x.result >>= fun a => (f a).result := by
  simp only [bind]
  cases h : x.result <;> rfl

theorem events_bind (x : Outcome ε α) (f : α → Outcome ε β) :
    (x >>= f).events = x.events ++ match x.result with
      | .error _ => []
      | .ok a => (f a).events := by
  simp only [bind]
  cases h : x.result <;> simp

instance : LawfulMonad (Outcome ε) := LawfulMonad.mk' (Outcome ε)
  (by
    intro α x
    rcases x with ⟨events, result⟩
    cases result <;> simp [Functor.map])
  (by
    intro α β a f
    simp [bind, pure])
  (by
    intro α β γ x f g
    rcases x with ⟨events, result⟩
    cases result with
    | error e => rfl
    | ok a =>
      rcases hf : f a with ⟨events', result'⟩
      cases result' <;> simp [bind, hf])

/-- A sequence succeeds when both parts do. -/
theorem result_bind_eq_ok {x : Outcome ε α} {f : α → Outcome ε β} {b : β} :
    (x >>= f).result = .ok b ↔ ∃ a, x.result = .ok a ∧ (f a).result = .ok b := by
  rw [result_bind]
  cases h : x.result with
  | error e => simp [bind, Except.bind]
  | ok a => simp [bind, Except.bind]

end Outcome

end KernelGen
