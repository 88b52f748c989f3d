import KernelGen.Metadata
import KernelGen.Outcome
import KernelGen.Schema.Step
set_option autoImplicit false

/-!
# Link: declarations and their operators

A declaration is linked to the operator it implements by pairing its parameters, from left to
right, with runs of schema parameters.  A parameter for tensor options stands for four schema
parameters, any other for one.  The first marker of the schema has no counterpart in the
declaration and gets a place of its own among the linked parameters.

The runs follow each other without gaps, so linking fails exactly when a run would go past
the end of the schema; schema parameters may be left over.
-/

namespace KernelGen

/-- A parameter of a linked function. -/
inductive LinkedParam where
  /-- The place of the schema's marker, at `index`. -/
  | marker (index : Nat)
  /-- A declared parameter, and the places of the schema parameters it stands for. -/
  | declared (param : Host.Param) (indices : List Nat)
  deriving Inhabited

namespace LinkedParam

/-- The place is the marker's. -/
def isMarker : LinkedParam → Bool
  | .marker _ => true
  | .declared .. => false

/-- The places of the schema parameters that a parameter stands for. -/
def indices : LinkedParam → List Nat
  | .marker index => [index]
  | .declared _ indices => indices

/-- The name of a parameter. -/
def name? : LinkedParam → Option String
  | .marker _ => none
  | .declared param _ => param.name?

/-- A parameter as it is written. -/
def text : LinkedParam → String
  | .marker _ => "*"
  | .declared param _ => param.text

end LinkedParam

/-- A declaration with the operator it implements. -/
structure LinkedFunction where
  declaration : Host.Declaration
  metadata : Metadata
  signature : Schema.Signature
  params : List LinkedParam
  deriving Inhabited

namespace LinkedFunction

/-- The name of the function. -/
def name (f : LinkedFunction) : String := f.declaration.name

/-- The schema as it was attached to the declaration. -/
def schema (f : LinkedFunction) : String := f.metadata.schema

/-- The name of the operator. -/
def operator (f : LinkedFunction) : String := f.signature.fullName

/-- The schema parameters that a parameter stands for. -/
def schemaParams (f : LinkedFunction) (p : LinkedParam) : List Schema.Param :=
  p.indices.filterMap fun i => f.signature.params[i]?

/-- The alias annotation of a parameter that stands for a single schema parameter. -/
def alias? (f : LinkedFunction) (p : LinkedParam) : Option Schema.AliasInfo :=
  match f.schemaParams p with
  | [only] => only.alias?
  | _ => none

/-- The first parameter of a given name. -/
def paramNamed? (f : LinkedFunction) (name : String) : Option LinkedParam :=
  f.params.find? (·.name? == some name)

/-- The parameter whose run of schema parameters starts at a given place. -/
def paramFor? (f : LinkedFunction) (index : Nat) : Option LinkedParam :=
  f.params.find? (·.indices.head? == some index)

end LinkedFunction

namespace Link

/-- The number of schema parameters that tensor options stand for: element type, layout,
device and pinning. -/
def optionsWidth : Nat := 4

/-- The number of schema parameters that a declared parameter stands for. -/
def width (p : Host.Param) : Nat := if p.type.isTensorOptions then optionsWidth else 1

/-- A parameter whose run goes past the end of the schema: its place among the linked
parameters, and its run. -/
structure Overrun where
  position : Nat
  first : Nat
  width : Nat
  deriving DecidableEq, Repr, Inhabited

/-- The marker, if it is the schema parameter at `index`. -/
def markerAt (marker? : Option Nat) (index : Nat) : List LinkedParam :=
  if marker? = some index then [.marker index] else []

/-- Pairs declared parameters with the schema parameters from `index` on, of which there are
`count` in all.  The linked parameters are returned with the place behind the last run. -/
def pair (marker? : Option Nat) (count : Nat) (position index : Nat) :
    List Host.Param → Except Overrun (List LinkedParam × Nat)
  | [] =>
    let here := markerAt marker? index
    .ok (here, index + here.length)
  | p :: ps =>
    let here := markerAt marker? index
    let position := position + here.length
    let index := index + here.length
    if index + width p > count then .error ⟨position, index, width p⟩
    else do
      let (more, last) ← pair marker? count (position + 1) (index + width p) ps
      return (here ++ .declared p (List.range' index (width p)) :: more, last)

end Link

/-- Links a declaration to the operator that its metadata names. -/
def link (d : Host.Declaration) (m : Metadata) : Outcome Failure LinkedFunction :=
  match Schema.Signature.ofText m.schema with
  | .error e =>
    .fail ((Failure.ofCause (.unreadableSchema m.schema e)).within (.schemaOf d.name d.location))
  | .ok signature =>
    let count := signature.params.length
    match Link.pair signature.markerIndex? count 0 0 d.params with
    | .error o =>
      .fail (.ofCause (.arity d.name o.position o.first o.width m.schema count))
    | .ok (params, last) => do
      if last < count then .tell (.unlinked d.name (count - last))
      return ⟨d, m, signature, params⟩

end KernelGen
