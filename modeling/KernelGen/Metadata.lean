import KernelGen.Diagnostic.Cause
import KernelGen.Host.Declaration
import KernelGen.Json.Form
import KernelGen.Json.Reader
import KernelGen.Text.Blank
set_option autoImplicit false

/-!
# Metadata of declarations

The comment behind a declaration may hold a JSON record with the schema of the operator that
the function implements and two flags.  A metadata table gives such metadata to declarations
by their place in the header; it is filled from the comments or by hand.
-/

namespace KernelGen

/-- What is known of the operator that a declaration implements. -/
structure Metadata where
  schema : String
  /-- The operator takes part in explicit dispatch. -/
  dispatch : Bool
  /-- The operator takes part in default dispatch. -/
  default : Bool
  deriving DecidableEq, Repr, Inhabited

namespace Metadata

/-- The key of the first flag. -/
def dispatchKey : String := "dispatch"

/-- The key of the second flag. -/
def defaultKey : String := "default"

/-- The value of a flag. -/
def flag (key value : String) : Except Cause Bool :=
  if value = "True" then .ok true
  else if value = "False" then .ok false
  else .error (.metadataFlag key value)

/-- The schema and the two flags of a record, as they are written. -/
def fieldsOf (j : Json) : Except Json.Fault (String × String × String) := do
  match ← Json.members ["schema", dispatchKey, defaultKey] j with
  | [schema, dispatch, default] =>
    return (← Json.required "schema" Json.asString schema,
      ← Json.required dispatchKey Json.asString dispatch,
      ← Json.required defaultKey Json.asString default)
  | _ => throw (.expected "metadata")

/-- The metadata that the text of a comment denotes. -/
def ofText (comment : String) : Except Cause Metadata :=
  let text := Text.trim comment
  match Json.parse text >>= fieldsOf with
  | .error fault => .error (.metadataForm fault text)
  | .ok (schema, dispatch, default) => do
    let dispatch ← flag dispatchKey dispatch
    let default ← flag defaultKey default
    return ⟨schema, dispatch, default⟩

end Metadata

/-- Metadata by the place of the declaration it belongs to. -/
structure MetadataTable where
  entries : List (Nat × Metadata)
  deriving DecidableEq, Repr, Inhabited

namespace MetadataTable

/-- The table without entries. -/
def empty : MetadataTable := ⟨[]⟩

/-- Gives metadata to the declaration at a place, instead of any it had. -/
def insert (t : MetadataTable) (place : Nat) (m : Metadata) : MetadataTable :=
  ⟨t.entries.filter (fun e => e.1 != place) ++ [(place, m)]⟩

/-- The metadata of the declaration at a place. -/
def get? (t : MetadataTable) (place : Nat) : Option Metadata := t.entries.lookup place

/-- The number of declarations that have metadata. -/
def size (t : MetadataTable) : Nat := t.entries.length

/-- The metadata in the comments of declarations, the first of which is at `place`. -/
def commentEntries : Nat → List Host.Declaration → Except Failure (List (Nat × Metadata))
  | _, [] => .ok []
  | place, d :: ds =>
    match d.comment? with
    | none => commentEntries (place + 1) ds
    | some comment => do
      let m ← (Metadata.ofText comment).mapError fun cause =>
        (Failure.ofCause cause).within (.metadataOf d.name d.terminator.location)
      let more ← commentEntries (place + 1) ds
      return (place, m) :: more

/-- The table of the comments behind declarations. -/
def ofComments (ds : List Host.Declaration) : Except Failure MetadataTable :=
  (commentEntries 0 ds).map MetadataTable.mk

end MetadataTable

end KernelGen
