import KernelGen.Mapping.Basic
import KernelGen.Options
set_option autoImplicit false

/-!
# Mapping: documents

In a document the mapping of an operator is a keyword or an op expression: an op applied to
values, some of which may be op expressions again.  An expression becomes a graph by adding
its ops to a builder, inner ones before outer ones and inputs before attributes; the outermost
op is added last and is the root.
-/

namespace KernelGen

/-- An op expression: a node that holds the nodes it refers to. -/
inductive OpExpr where
  | op (node : OpNode OpExpr)

/-- The entry of an operator. -/
inductive OpEntry where
  | keyword (word : String)
  | expression (e : OpExpr)

/-- A mapping document. -/
structure MappingFile where
  version : String
  options? : Option Options
  operators : NameTable OpEntry

/-- The version of mapping documents. -/
def mappingsVersion : String := "opgen.mappings@0.1.0"

/-- The keyword for an operator whose function is a prototype only. -/
def signatureOnlyKeyword : String := "signature_only"

/-! ## Expressions as graphs -/

mutual

/-- Adds the ops of an expression to a builder; the identifier is that of the outermost. -/
def OpExpr.addTo : OpExpr → Builder → NodeId × Builder
  | .op ⟨name, outputs, inputs, attributes, domain?⟩, b =>
    let (inputs, b) := addInputs inputs b
    let (attributes, b) := addAttributes attributes b
    b.add ⟨name, outputs, inputs, attributes, domain?⟩

/-- Adds the ops of a value to a builder. -/
def addValue : Value OpExpr → Builder → Value NodeId × Builder
  | .param name, b => (.param name, b)
  | .literal text, b => (.literal text, b)
  | .output e, b =>
    let (id, b) := e.addTo b
    (.output id, b)

/-- Adds the ops of inputs to a builder. -/
def addInputs : List (Value OpExpr) → Builder → List (Value NodeId) × Builder
  | [], b => ([], b)
  | v :: vs, b =>
    let (v, b) := addValue v b
    let (vs, b) := addInputs vs b
    (v :: vs, b)

/-- Adds the ops of attributes to a builder. -/
def addAttributes :
    List (String × Option (Value OpExpr)) → Builder →
      List (String × Option (Value NodeId)) × Builder
  | [], b => ([], b)
  | (name, none) :: as, b =>
    let (as, b) := addAttributes as b
    ((name, none) :: as, b)
  | (name, some v) :: as, b =>
    let (v, b) := addValue v b
    let (as, b) := addAttributes as b
    ((name, some v) :: as, b)

end

/-- The graph of an expression. -/
def OpExpr.graph (e : OpExpr) : Except Cause OpGraph :=
  let (root, b) := e.addTo (.new 0)
  b.finish root

/-- The mapping of an entry of an operator. -/
def OpEntry.mapping (operator : String) : OpEntry → Except Cause Mapping
  | .keyword word =>
    if word = signatureOnlyKeyword then .ok .signatureOnly
    else .error (.unknownKeyword operator word signatureOnlyKeyword)
  | .expression e => e.graph.map .graph

/-- The mappings of a document; the first entry, by name, that has none is reported. -/
def MappingFile.table (f : MappingFile) : Except Cause MappingTable := do
  let mappings ← f.operators.entries.mapM fun e => (e.2.mapping e.1).map fun m => (e.1, m)
  return NameTable.empty.insertMany mappings

end KernelGen
