set_option autoImplicit false

/-!
# Graph: op nodes

An op node applies an op to input values and gives it attributes.  A value is a parameter of
the function, an expression written out, or the first output of another node.  How nodes are
referred to is left open: a builder uses identifiers, a finished graph uses places, and an
expression tree holds the nodes themselves.
-/

namespace KernelGen

/-- An input of an op, or the value of an attribute. -/
inductive Value (ν : Type) where
  /-- a parameter of the function, by name -/
  | param (name : String)
  /-- an expression, as it is written -/
  | literal (text : String)
  /-- the first output of a node -/
  | output (node : ν)
  deriving DecidableEq, Repr, Inhabited

/-- The application of an op. -/
structure OpNode (ν : Type) where
  name : String
  /-- The number of outputs. -/
  outputs : Nat
  inputs : List (Value ν)
  /-- The attributes in order; one without a value is left out when code is written. -/
  attributes : List (String × Option (Value ν))
  domain? : Option String
  deriving DecidableEq, Repr, Inhabited

variable {ν μ : Type}

namespace Value

/-- The node whose output the value is. -/
def node? : Value ν → Option ν
  | .output node => some node
  | .param _ | .literal _ => none

/-- The value with its reference replaced. -/
def map (f : ν → μ) : Value ν → Value μ
  | .param name => .param name
  | .literal text => .literal text
  | .output node => .output (f node)

@[simp] theorem node?_map (f : ν → μ) (v : Value ν) : (v.map f).node? = v.node?.map f := by
  cases v <;> rfl

end Value

namespace OpNode

/-- The inputs, and then the values of the attributes that have one. -/
def values (n : OpNode ν) : List (Value ν) := n.inputs ++ n.attributes.filterMap (·.2)

/-- The nodes that a node refers to: those of its inputs, and then those of its attributes. -/
def references (n : OpNode ν) : List ν := n.values.filterMap Value.node?

/-- The node with its references replaced. -/
def map (f : ν → μ) (n : OpNode ν) : OpNode μ :=
  ⟨n.name, n.outputs, n.inputs.map (Value.map f),
    n.attributes.map fun a => (a.1, a.2.map (Value.map f)), n.domain?⟩

theorem values_map (f : ν → μ) (n : OpNode ν) : (n.map f).values = n.values.map (Value.map f) := by
  have hattributes : (n.map f).attributes.filterMap (·.2) =
      (n.attributes.filterMap (·.2)).map (Value.map f) := by
    rw [map, List.filterMap_map, List.map_filterMap]
    rfl
  rw [values, hattributes, values, List.map_append]
  rfl

theorem references_map (f : ν → μ) (n : OpNode ν) :
    (n.map f).references = n.references.map f := by
  have hnode : Value.node? ∘ Value.map f = fun v => v.node?.map f := funext (Value.node?_map f)
  rw [references, values_map, List.filterMap_map, hnode, references, List.map_filterMap]

end OpNode

end KernelGen
