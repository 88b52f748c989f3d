set_option autoImplicit false

/-!
# Diagnostic: codes

Every failure has a stable code.  The code decides the phase it belongs to, the sentence that
sums it up, and the advice that goes with it; `Diagnostic.catalog` lists all of them.
-/

namespace KernelGen

/-- The part of a run in which a failure arises. -/
inductive Phase where
  | parse
  | metadata
  | schema
  | link
  | graph
  | emit
  | finish
  | config
  | internal
  deriving DecidableEq, Repr, Inhabited

/-- The name of a phase. -/
def Phase.name : Phase → String
  | .parse => "Parse"
  | .metadata => "Metadata"
  | .schema => "Schema"
  | .link => "Link"
  | .graph => "Graph"
  | .emit => "Emit"
  | .finish => "Finish"
  | .config => "Config"
  | .internal => "Internal"

/-- The kinds of failures. -/
inductive Code where
  | parseError
  | metadataError
  | schemaParseError
  | linkArityMismatch
  | invalidGraph
  | unknownParameter
  | firstParameterNotTensor
  | multipleOutputsUnsupported
  | aliasWithoutInPlaceParameter
  | unconsumedMapping
  | invalidMappingFile
  | internalBug
  deriving DecidableEq, Repr, Inhabited

namespace Code

/-- All codes, in the order of their numbers. -/
def all : List Code :=
  [.parseError, .metadataError, .schemaParseError, .linkArityMismatch, .invalidGraph,
   .unknownParameter, .firstParameterNotTensor, .multipleOutputsUnsupported,
   .aliasWithoutInPlaceParameter, .unconsumedMapping, .invalidMappingFile, .internalBug]

theorem mem_all (c : Code) : c ∈ all := by cases c <;> decide

/-- The number of a code. -/
def number : Code → String
  | .parseError => "OPG0001"
  | .metadataError => "OPG0100"
  | .schemaParseError => "OPG0110"
  | .linkArityMismatch => "OPG0200"
  | .invalidGraph => "OPG0300"
  | .unknownParameter => "OPG0310"
  | .firstParameterNotTensor => "OPG0400"
  | .multipleOutputsUnsupported => "OPG0410"
  | .aliasWithoutInPlaceParameter => "OPG0420"
  | .unconsumedMapping => "OPG0500"
  | .invalidMappingFile => "OPG0600"
  | .internalBug => "OPG0901"

/-- The word that goes with the number of a code. -/
def word : Code → String
  | .parseError => "ParseError"
  | .metadataError => "MetadataError"
  | .schemaParseError => "SchemaParseError"
  | .linkArityMismatch => "LinkArityMismatch"
  | .invalidGraph => "InvalidGraph"
  | .unknownParameter => "UnknownParameter"
  | .firstParameterNotTensor => "FirstParameterNotTensor"
  | .multipleOutputsUnsupported => "MultipleOutputsUnsupported"
  | .aliasWithoutInPlaceParameter => "AliasWithoutInPlaceParameter"
  | .unconsumedMapping => "UnconsumedMapping"
  | .invalidMappingFile => "InvalidMappingFile"
  | .internalBug => "InternalBug"

/-- The name of a code in full: its number and its word. -/
def name (c : Code) : String := c.number ++ c.word

/-- The code of a given name. -/
def ofName? (s : String) : Option Code := all.find? (·.name == s)

/-- The phase a code belongs to. -/
def phase : Code → Phase
  | .parseError => .parse
  | .metadataError => .metadata
  | .schemaParseError => .schema
  | .linkArityMismatch => .link
  | .invalidGraph => .graph
  | .unknownParameter | .firstParameterNotTensor | .multipleOutputsUnsupported
  | .aliasWithoutInPlaceParameter => .emit
  | .unconsumedMapping => .finish
  | .invalidMappingFile => .config
  | .internalBug => .internal

/-- The sentence that sums a code up. -/
def summary : Code → String
  | .parseError => "failed to parse host declarations"
  | .metadataError => "malformed operator metadata"
  | .schemaParseError => "failed to parse operator schema"
  | .linkArityMismatch => "host parameters do not line up with schema parameters"
  | .invalidGraph => "op graph references an undeclared node"
  | .unknownParameter => "op input names an unknown parameter"
  | .firstParameterNotTensor => "first parameter must be a Tensor"
  | .multipleOutputsUnsupported => "multiple outputs not supported"
  | .aliasWithoutInPlaceParameter => "return type has alias info but no associated parameter"
  | .unconsumedMapping => "operator(s) could not be found for mapping"
  | .invalidMappingFile => "invalid mapping file"
  | .internalBug => "internal opgen bug"

/-- The advice that goes with a code. -/
def help? : Code → Option String
  | .metadataError => some
    "The trailing comment must be a JSON object with string keys schema, dispatch and default."
  | .aliasWithoutInPlaceParameter => some
    "Route the aliased parameter through an op input, or map the out-of-place overload instead."
  | .unconsumedMapping => some
    "Check the mapped names against the schema names attached to the host declarations."
  | .internalBug => some "This is a bug in opgen. Please report it with the input files."
  | _ => none

end Code

/-- How grave a diagnostic is; every diagnostic is an error. -/
def severityName : String := "Error"

/-- A failure as it is reported. -/
structure Diagnostic where
  code : Code
  message : String
  /-- The names that the failure is about. -/
  related : List String
  deriving DecidableEq, Repr, Inhabited

namespace Diagnostic

/-- A diagnostic as it is printed: the message, and the advice on a line of its own. -/
def text (d : Diagnostic) : String :=
  s!"{d.code.number} {d.code.phase.name} {severityName}: {d.message}" ++
    (match d.code.help? with
      | some help => s!"\n  help: {help}"
      | none => "")

/-- The row of a code in the catalog. -/
def catalogRow (c : Code) : String :=
  let help := c.help?.getD ""
  s!"| {c.number} | {c.phase.name} | {severityName} | {c.summary} | {help} |\n"

/-- The catalog of all codes, as a page of markdown. -/
def catalog : String :=
  "# opgen diagnostics catalog\n\n" ++
  "This document is generated from `crates/opgen-core/src/diagnostics.rs`.\n\n" ++
  "| Code | Phase | Severity | Message | Help |\n" ++
  "| ---- | ----- | -------- | ------- | ---- |\n" ++
  String.join (Code.all.map catalogRow)

end Diagnostic

end KernelGen
