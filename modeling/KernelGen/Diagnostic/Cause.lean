import KernelGen.Diagnostic.Code
import KernelGen.Json.Value
import KernelGen.Source.Document
import KernelGen.Text.Quoted
set_option autoImplicit false

/-!
# Diagnostic: causes

A failure is kept as its cause, with the values that the cause is about, and with the
contexts it arose in.  Only this module puts causes into words.  The words for a fault of a
JSON document come from the reader of such documents, and are a parameter here.
-/

namespace KernelGen

open Source (ReadError SyntaxFault Problem TokenKind)

/-- Why something failed. -/
inductive Cause where
  /-- the declarations of `origin` cannot be read -/
  | unreadableDeclarations (origin : String) (error : ReadError)
  /-- a schema cannot be read -/
  | unreadableSchema (text : String) (error : ReadError)
  /-- the metadata in `text` is not what was asked for -/
  | metadataForm (fault : Json.Fault) (text : String)
  /-- a flag of the metadata has neither of the two values of flags -/
  | metadataFlag (key value : String)
  /-- a parameter needs the `width` schema parameters from `first` on, but there are `count` -/
  | arity (declaration : String) (position first width : Nat) (schema : String) (count : Nat)
  /-- the root of a graph is not one of its nodes -/
  | foreignRoot (index : Nat)
  /-- a node refers to a node that is not one of its graph -/
  | foreignReference (index : Nat) (name : String) (target : Nat)
  /-- a node refers to a node of its graph that is not in front of it -/
  | forwardReference (index : Nat) (name : String) (target : Nat)
  /-- a node refers to a parameter that the declaration does not have -/
  | unknownParameter (op name declaration schema : String)
  /-- the first parameter is not a named tensor -/
  | firstParameter (schema : String)
  /-- a node whose output is used does not have exactly one -/
  | multipleOutputs (count : Nat) (schema : String)
  /-- no parameter can take the value that is written in place -/
  | aliasWithoutParameter (schema : String)
  /-- a node is referred to, but was not evaluated -/
  | notEvaluated (index : Nat)
  /-- no node was evaluated -/
  | nothingEvaluated (schema : String)
  /-- these mappings belong to no declaration -/
  | unclaimed (names : List String)
  /-- a mapping file is not what was asked for -/
  | mappingForm (fault : Json.Fault)
  /-- a mapping file states another version than `expected` -/
  | mappingVersion (expected got : String)
  /-- the entry of an operator is a keyword other than `known` -/
  | unknownKeyword (operator keyword known : String)
  deriving DecidableEq, Repr, Inhabited

namespace Source

/-- The words for a problem. -/
def Problem.text : Problem → String
  | .expected what => s!"expected {what.text}"
  | .unterminatedDefault => "unterminated default value"
  | .unterminatedTemplateArgument => "unterminated template argument"
  | .trailingInput => "trailing input after return type"
  | .invalidArraySize size => s!"invalid array size {Text.quoted size}"

/-- The words for a token at which something is wrong. -/
def foundText (t : Token) : String :=
  if t.kind = .eof then "end of input" else Text.quoted t.text

/-- The words for a refused text that comes from `origin`.  A place where no token starts is
reported without the origin. -/
def ReadError.text (origin : String) : ReadError → String
  | .stray s => s!"unexpected character {Text.quoted s.text} at {s.location.text}"
  | .unexpected f =>
    s!"{f.problem.text} at {origin}:{f.found.location.text}: found {foundText f.found}"

/-- The code of a refused text: a place where no token starts has the same code everywhere. -/
def ReadError.code (unexpected : Code) : ReadError → Code
  | .stray _ => .parseError
  | .unexpected _ => unexpected

end Source

namespace Cause

/-- The code of a cause. -/
def code : Cause → Code
  | .unreadableDeclarations _ e => e.code .parseError
  | .unreadableSchema _ e => e.code .schemaParseError
  | .metadataForm .. | .metadataFlag .. => .metadataError
  | .arity .. => .linkArityMismatch
  | .foreignRoot _ | .foreignReference .. | .forwardReference .. => .invalidGraph
  | .unknownParameter .. => .unknownParameter
  | .firstParameter _ => .firstParameterNotTensor
  | .multipleOutputs .. => .multipleOutputsUnsupported
  | .aliasWithoutParameter _ => .aliasWithoutInPlaceParameter
  | .notEvaluated _ | .nothingEvaluated _ => .internalBug
  | .unclaimed _ => .unconsumedMapping
  | .mappingForm _ | .mappingVersion .. | .unknownKeyword .. => .invalidMappingFile

/-- The names that a cause is about. -/
def related : Cause → List String
  | .unclaimed names => names
  | _ => []

/-- The words for a cause, given the words for faults of JSON documents. -/
def message (wording : Json.Fault → String) : Cause → String
  | .unreadableDeclarations origin e => e.text origin
  | .unreadableSchema text e => e.text s!"schema {Text.quoted text}"
  | .metadataForm fault text => s!"{wording fault}: {Text.quoted text}"
  | .metadataFlag key value =>
    s!"{Text.quoted key} must be \"True\" or \"False\", got {Text.quoted value}"
  | .arity declaration position first width schema count =>
    s!"`{declaration}` parameter {position} needs schema parameters " ++
      s!"{first}..{first + width} but {Text.quoted schema} has {count}"
  | .foreignRoot index => s!"root node {index} is not part of this graph"
  | .foreignReference index name target =>
    s!"node {index} ({name}) references node {target} of another graph"
  | .forwardReference index name target =>
    s!"node {index} ({name}) references node {target} which is not declared before it"
  | .unknownParameter op name declaration schema =>
    s!"{op} refers to `{name}` which is not a parameter of `{declaration}`: {schema}"
  | .firstParameter schema => s!"first parameter must be an at::Tensor: {schema}"
  | .multipleOutputs count schema => s!"multiple outputs not supported ({count}): {schema}"
  | .aliasWithoutParameter schema =>
    s!"{Text.quoted schema} has alias info on its return type but no associated parameter"
  | .notEvaluated index => s!"node {index} was referenced before evaluation"
  | .nothingEvaluated schema => s!"op graph produced no instructions: {schema}"
  | .unclaimed names =>
    "operation(s) could not be found for mapping: " ++
      ", ".intercalate (names.map fun n => "'" ++ n ++ "'")
  | .mappingForm fault => wording fault
  | .mappingVersion expected got =>
    s!"schema_version mismatch: expected {expected} got {Text.quoted got}"
  | .unknownKeyword operator keyword known =>
    s!"ops[{Text.quoted operator}]: unknown keyword {Text.quoted keyword} " ++
      s!"(expected {Text.quoted known} or an op object)"

/-- A cause as it is reported. -/
def diagnostic (wording : Json.Fault → String) (c : Cause) : Diagnostic :=
  ⟨c.code, c.message wording, c.related⟩

end Cause

/-- What was being done when something failed. -/
inductive Context where
  | metadataOf (declaration : String) (location : Source.Location)
  | schemaOf (declaration : String) (location : Source.Location)
  deriving DecidableEq, Repr, Inhabited

/-- The words for a context. -/
def Context.text : Context → String
  | .metadataOf d l => s!"metadata for `{d}` at {l.text}"
  | .schemaOf d l => s!"schema attached to `{d}` at {l.text}"

/-- A cause and the contexts it arose in, the outermost first. -/
structure Failure where
  cause : Cause
  contexts : List Context
  deriving DecidableEq, Repr, Inhabited

namespace Failure

/-- A cause outside any context. -/
def ofCause (c : Cause) : Failure := ⟨c, []⟩

/-- A failure in one more context. -/
def within (context : Context) (f : Failure) : Failure := ⟨f.cause, context :: f.contexts⟩

end Failure

end KernelGen
