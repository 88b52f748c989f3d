import KernelGen.Json.Value
set_option autoImplicit false

/-!
# JSON: fixed forms

A record is written as an object with named members, or as an array of the same members in
their fixed order.  `members` brings both to one shape, the members in their fixed order with
the missing ones marked; a name that the form does not have, a name that occurs twice and an
item too many are faults.  Members that may be missing are filled in by `orElse`.
-/

namespace KernelGen.Json

/-- The first name that occurs again later. -/
def repeated? : List String → Option String
  | [] => none
  | n :: ns => if ns.contains n then some n else repeated? ns

/-- The members of a record in the order of `names`. -/
def members (names : List String) : Json → Except Fault (List (Option Json))
  | .object ms =>
    match ms.find? (fun m => !names.contains m.1), repeated? (ms.map (·.1)) with
    | some m, _ => .error (.unknownMember m.1)
    | none, some n => .error (.repeatedMember n)
    | none, none => .ok (names.map fun n => ms.lookup n)
  | .array items =>
    if items.length ≤ names.length then
      .ok (items.map some ++ List.replicate (names.length - items.length) none)
    else .error .tooManyItems
  | _ => .error (.expected "an object")

/-- A member that has to be there. -/
def required {α : Type} (name : String) (read : Json → Except Fault α) :
    Option Json → Except Fault α
  | some j => read j
  | none => .error (.missingMember name)

/-- A member that may be missing. -/
def orElse {α : Type} (default : α) (read : Json → Except Fault α) :
    Option Json → Except Fault α
  | some j => read j
  | none => .ok default

/-- A string. -/
def asString : Json → Except Fault String
  | .string t => .ok t
  | _ => .error (.expected "a string")

/-- A value that may be null. -/
def asOption {α : Type} (read : Json → Except Fault α) : Json → Except Fault (Option α)
  | .null => .ok none
  | j => (read j).map some

/-- An array of values of one kind. -/
def asList {α : Type} (read : Json → Except Fault α) : Json → Except Fault (List α)
  | .array items => items.mapM read
  | _ => .error (.expected "an array")

/-- The greatest count that a document may hold: it fits into 64 bits. -/
def greatestCount : Nat := 18446744073709551615

/-- A count: digits only, and not above `greatestCount`. -/
def asCount : Json → Except Fault Nat
  | .number t =>
    if t.toList.all Char.isDigit then
      let n := t.toList.foldl (fun n c => 10 * n + (c.toNat - 48)) 0
      if n ≤ greatestCount then .ok n else .error (.expected "a count")
    else .error (.expected "a count")
  | _ => .error (.expected "a count")

end KernelGen.Json
