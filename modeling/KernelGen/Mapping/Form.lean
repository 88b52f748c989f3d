import KernelGen.Json.Form
import KernelGen.Json.Reader
import KernelGen.Mapping.Document
import KernelGen.Text.Blank
set_option autoImplicit false

/-!
# Mapping: reading documents

A mapping document is a JSON record.  Where a value may take several forms they are tried in a
fixed order: a value of an op is a string, a literal or an op; an entry of an operator is a
string or an op.  A record with one member may be written as an array of one item, so an array
of one string is a literal where a value is asked for, and an op where an entry is.
-/

namespace KernelGen

open Json (Fault members required orElse asString asOption asList asCount)

/-- The form of options; whatever is missing is as in the standard ones. -/
def Options.ofJson (j : Json) : Except Fault Options := do
  match ← members ["function_name_prefix", "provenance", "includes", "namespaces",
      "using_declarations", "library", "dispatch_key"] j with
  | [functionNamePrefix, provenance, includes, namespaces, usingDeclarations, library,
      dispatchKey] =>
    let s := Options.standard
    return ⟨← orElse s.functionNamePrefix? (asOption asString) functionNamePrefix,
      ← orElse s.provenance? (asOption asString) provenance,
      ← orElse s.includes (asList asString) includes,
      ← orElse s.namespaces (asList asString) namespaces,
      ← orElse s.usingDeclarations (asList asString) usingDeclarations,
      ← orElse s.library asString library,
      ← orElse s.dispatchKey asString dispatchKey⟩
  | _ => throw (.expected "options")

/-- The form of a literal. -/
def literalOfJson (j : Json) : Except Fault String := do
  match ← members ["literal"] j with
  | [literal] => required "literal" asString literal
  | _ => throw (.expected "a literal")

/-- The form of a value, by that of an op. -/
def valueOfJson (op : Json → Except Fault OpExpr) (j : Json) : Except Fault (Value OpExpr) :=
  match asString j with
  | .ok name => .ok (.param name)
  | .error _ =>
    match literalOfJson j with
    | .ok text => .ok (.literal text)
    | .error _ => (op j).map .output

/-- The form of attributes: an object whose names differ.  A value may be null. -/
def attributesOfJson (op : Json → Except Fault OpExpr) :
    Json → Except Fault (List (String × Option (Value OpExpr)))
  | .object ms =>
    match Json.repeated? (ms.map (·.1)) with
    | some name => .error (.repeatedMember name)
    | none => ms.mapM fun m => (asOption (valueOfJson op) m.2).map fun v => (m.1, v)
  | _ => .error (.expected "attributes")

/-- The form of an op whose ops inside nest less than `depth` deep.  No document nests deeper
than its containers may. -/
def opOfJson : (depth : Nat) → Json → Except Fault OpExpr
  | 0, _ => .error .nestedTooDeeply
  | depth + 1, j => do
    match ← members ["op", "outputs", "inputs", "attributes", "domain"] j with
    | [op, outputs, inputs, attributes, domain] =>
      return .op ⟨← required "op" asString op,
        ← orElse 1 asCount outputs,
        ← orElse [] (asList (valueOfJson (opOfJson depth))) inputs,
        ← orElse [] (attributesOfJson (opOfJson depth)) attributes,
        ← orElse none (asOption asString) domain⟩
    | _ => throw (.expected "an op")

/-- The form of the entry of an operator. -/
def OpEntry.ofJson (j : Json) : Except Fault OpEntry :=
  match asString j with
  | .ok word => .ok (.keyword word)
  | .error _ => (opOfJson Json.nestingLimit j).map .expression

/-- The form of the entries of a document; the last entry of an operator counts. -/
def operatorsOfJson : Json → Except Fault (NameTable OpEntry)
  | .object ms => do
    let entries ← ms.mapM fun m => (OpEntry.ofJson m.2).map fun e => (m.1, e)
    return NameTable.empty.insertMany entries
  | _ => .error (.expected "operators")

namespace MappingFile

/-- The form of a document. -/
def ofJson (j : Json) : Except Fault MappingFile := do
  match ← members ["schema_version", "options", "ops"] j with
  | [version, options, operators] =>
    return ⟨← required "schema_version" asString version,
      ← orElse none (asOption Options.ofJson) options,
      ← required "ops" operatorsOfJson operators⟩
  | _ => throw (.expected "a mapping file")

/-- The document in the bytes of a file, whose version has to be the right one. -/
def ofBytes (bytes : ByteArray) : Except Cause MappingFile :=
  match Json.parseBytes bytes >>= ofJson with
  | .error fault => .error (.mappingForm fault)
  | .ok f =>
    if Text.trim f.version = mappingsVersion then .ok f
    else .error (.mappingVersion mappingsVersion f.version)

end MappingFile

end KernelGen
