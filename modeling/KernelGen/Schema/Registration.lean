import KernelGen.Schema.Basic
set_option autoImplicit false

/-!
# Schema: how an operator is registered

The dispatcher can call a function with its arguments boxed as long as every type of the
signature is one it knows how to box: tensors, scalars, booleans, integers and arrays of
them.  A signature with any other type is registered for direct calls.
-/

namespace KernelGen.Schema

/-- The calling convention of a registered function. -/
inductive Registration where
  | boxed
  | unboxed
  deriving DecidableEq, Repr, Inhabited

/-- The base types that can be boxed. -/
def BaseType.isBoxable : BaseType → Bool
  | .tensor | .scalar | .bool | .int => true
  | .float | .str | .named _ => false

/-- A type that can be boxed: a boxable base type, or an array of one. -/
def SchemaType.isBoxable (t : SchemaType) : Bool :=
  t.base.isBoxable && (match t.suffixes with
    | [] => true
    | [.array _] => true
    | _ => false)

/-- A parameter that can be boxed; a marker takes no argument. -/
def Param.isBoxable : Param → Bool
  | .marker => true
  | .value type _ _ => type.isBoxable

/-- A return type that can be boxed. -/
def ReturnType.isBoxable : ReturnType → Bool
  | .value type => type.isBoxable
  | .tuple _ => false

/-- The calling convention of an operator. -/
def Signature.registration (s : Signature) : Registration :=
  if s.returnType.isBoxable && s.params.all Param.isBoxable then .boxed else .unboxed

end KernelGen.Schema
