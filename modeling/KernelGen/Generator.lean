import KernelGen.Digest
import KernelGen.Host.DeclarationStep
import KernelGen.Kernel.SourceFile
import KernelGen.Mapping.Document
set_option autoImplicit false

/-!
# Generator

A run goes through the declarations of a header in order.  A declaration with metadata is
linked to its operator and takes the operator's mapping out of the table; what it finds there
says how the function is written.  Declarations without metadata, and those whose operator has
no mapping left, are passed over.  A run succeeds only if the table is empty at its end.
-/

namespace KernelGen

/-- What a run makes. -/
structure Generated where
  text : String
  /-- The operators whose functions were written, in order. -/
  operators : List String
  deriving DecidableEq, Repr, Inhabited

/-- The mappings and the choices of a run. -/
structure Generator where
  mappings : MappingTable
  options : Options

namespace Generator

/-- The generator of a mapping document. -/
def ofFile (f : MappingFile) : Except Cause Generator := do
  let mappings ← f.table
  return ⟨mappings, f.options?.getD .standard⟩

/-- The generator with another prefix for the names of functions, if one is given. -/
def withPrefix (g : Generator) : Option String → Generator
  | some functionNamePrefix =>
    { g with options := { g.options with functionNamePrefix? := some functionNamePrefix } }
  | none => g

/-- A declaration under the name that its function is to have. -/
def renamed (o : Options) (d : Host.Declaration) : Host.Declaration :=
  match o.functionNamePrefix? with
  | some functionNamePrefix => { d with name := functionNamePrefix ++ d.name }
  | none => d

/-- The function of a declaration, if its operator has a mapping, and the mappings left. -/
def claim (o : Options) (mappings : MappingTable) (d : Host.Declaration) (m : Metadata) :
    Outcome Failure (Option KernelFunction × MappingTable) := do
  let f ← link (renamed o d) m
  match mappings.get? f.operator with
  | none =>
    .tell (.withoutMapping f.operator f.name)
    return (none, mappings)
  | some mapping =>
    let k ← (KernelFunction.ofMapping f mapping).mapError .ofCause
    .tell (.emitted f.operator f.name)
    return (some k, mappings.erase f.operator)

/-- The functions of declarations, the first of which is at `place`, and the mappings left. -/
def claimAll (o : Options) (t : MetadataTable) :
    Nat → List Host.Declaration → MappingTable →
      Outcome Failure (List KernelFunction × MappingTable)
  | _, [], mappings => pure ([], mappings)
  | place, d :: ds, mappings =>
    match t.get? place with
    | none => do
      .tell (.withoutMetadata d.name)
      claimAll o t (place + 1) ds mappings
    | some m => do
      let (k?, mappings) ← claim o mappings d m
      let (ks, mappings) ← claimAll o t (place + 1) ds mappings
      return (k?.toList ++ ks, mappings)

/-- Generates the file for declarations with metadata, and with the digest of their header. -/
def runOn (g : Generator) (ds : List Host.Declaration) (t : MetadataTable) (digest : String) :
    Outcome Failure Generated := do
  let (functions, mappings) ← claimAll g.options t 0 ds g.mappings
  if !mappings.isEmpty then .fail (.ofCause (.unclaimed mappings.names))
  .tell (.finished ds.length functions.length)
  return ⟨(SourceFile.mk g.options digest functions).text, functions.map (·.linked.operator)⟩

/-- Generates the file for a header. -/
def run (g : Generator) (header origin : String) : Outcome Failure Generated :=
  match Host.declarations header with
  | .error e => .fail (.ofCause (.unreadableDeclarations origin e))
  | .ok ds =>
    match MetadataTable.ofComments ds with
    | .error f => .fail f
    | .ok t => g.runOn ds t (Digest.sha256Hex header.toUTF8)

end Generator

end KernelGen
