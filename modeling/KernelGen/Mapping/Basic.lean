import KernelGen.Graph.Builder
import KernelGen.NameTable
set_option autoImplicit false

/-!
# Mapping: from operators to graphs

A mapping says how the function of an operator is written: with the body that a graph stands
for, or as a prototype only.  A mapping table gives mappings to operators by name.
-/

namespace KernelGen

/-- How the function of an operator is written. -/
inductive Mapping where
  | graph (g : OpGraph)
  /-- The function has a prototype and no body. -/
  | signatureOnly

/-- Mappings by the names of operators. -/
abbrev MappingTable : Type := NameTable Mapping

end KernelGen
