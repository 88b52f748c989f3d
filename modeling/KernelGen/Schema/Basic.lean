import KernelGen.Text.Quoted
set_option autoImplicit false

/-!
# Schema: operator signatures

An operator schema names an operator and an overload of it, lists its parameters and gives
its return type.  A parameter list may hold markers: a star separates the positional
parameters from those that are given by name.

A type is a base type, an alias annotation on it, and a run of suffixes, innermost first.
The annotation says which memory a value may share and whether it may be written.  `text`
functions give the one spelling in which signatures are written.
-/

namespace KernelGen.Schema

/-- The types that others are made of. -/
inductive BaseType where
  | tensor
  | scalar
  | bool
  | int
  | float
  | str
  /-- Any other type, by its name. -/
  | named (name : String)
  deriving DecidableEq, Repr, Inhabited

namespace BaseType

/-- The names that stand for types of their own. -/
def keywords : List (String × BaseType) :=
  [("Tensor", .tensor), ("Scalar", .scalar), ("bool", .bool), ("int", .int), ("float", .float),
   ("str", .str)]

/-- The base type of a given name. -/
def ofName (name : String) : BaseType := (keywords.lookup name).getD (.named name)

/-- A base type as it is written. -/
def text : BaseType → String
  | .tensor => "Tensor"
  | .scalar => "Scalar"
  | .bool => "bool"
  | .int => "int"
  | .float => "float"
  | .str => "str"
  | .named name => name

end BaseType

/-- A member of an alias set. -/
inductive AliasMember where
  /-- The set of everything. -/
  | wildcard
  | set (name : String)
  deriving DecidableEq, Repr, Inhabited

/-- A member of an alias set as it is written. -/
def AliasMember.text : AliasMember → String
  | .wildcard => "*"
  | .set name => name

/-- The alias annotation of a type. -/
structure AliasInfo where
  /-- The sets a value belongs to on entry. -/
  before : List AliasMember
  /-- The sets it belongs to on exit, where they are given. -/
  after? : Option (List AliasMember)
  writable : Bool
  deriving DecidableEq, Repr, Inhabited

/-- An alias set as it is written. -/
def aliasSetText (ms : List AliasMember) : String := "|".intercalate (ms.map AliasMember.text)

/-- An alias annotation as it is written. -/
def AliasInfo.text (a : AliasInfo) : String :=
  "(" ++ aliasSetText a.before ++ (if a.writable then "!" else "") ++
    (match a.after? with
      | some ms => " -> " ++ aliasSetText ms
      | none => "") ++ ")"

/-- What may follow a type to make another one. -/
inductive Suffix where
  | optional
  | array (size? : Option Nat)
  deriving DecidableEq, Repr, Inhabited

/-- A suffix as it is written. -/
def Suffix.text : Suffix → String
  | .optional => "?"
  | .array none => "[]"
  | .array (some n) => "[" ++ toString n ++ "]"

/-- A type of a schema. -/
structure SchemaType where
  base : BaseType
  /-- The annotation on the base type. -/
  annotation? : Option AliasInfo
  /-- The suffixes, innermost first. -/
  suffixes : List Suffix
  deriving DecidableEq, Repr, Inhabited

namespace SchemaType

/-- The annotation of the type itself: one that a suffix covers is not. -/
def alias? (t : SchemaType) : Option AliasInfo :=
  if t.suffixes.isEmpty then t.annotation? else none

/-- The type is a tensor, annotated or not. -/
def isTensor (t : SchemaType) : Bool := t.base == .tensor && t.suffixes.isEmpty

/-- A type as it is written. -/
def text (t : SchemaType) : String :=
  t.base.text ++ (match t.annotation? with
    | some a => a.text
    | none => "") ++ String.join (t.suffixes.map Suffix.text)

end SchemaType

/-- A name as it follows a type. -/
def nameText : Option String → String
  | some name => " " ++ name
  | none => ""

/-- A parameter of an operator. -/
inductive Param where
  /-- The star behind which parameters are given by name. -/
  | marker
  | value (type : SchemaType) (name? : Option String) (default? : Option String)
  deriving DecidableEq, Repr, Inhabited

namespace Param

/-- The parameter is a marker. -/
def isMarker : Param → Bool
  | .marker => true
  | .value .. => false

/-- The name of a parameter. -/
def name? : Param → Option String
  | .marker => none
  | .value _ name? _ => name?

/-- The default value of a parameter. -/
def default? : Param → Option String
  | .marker => none
  | .value _ _ default? => default?

/-- The parameter is a tensor. -/
def isTensor : Param → Bool
  | .marker => false
  | .value type _ _ => type.isTensor

/-- The alias annotation of a parameter. -/
def alias? : Param → Option AliasInfo
  | .marker => none
  | .value type _ _ => type.alias?

/-- A parameter as it is written. -/
def text : Param → String
  | .marker => "*"
  | .value type name? default? =>
    type.text ++ nameText name? ++ (match default? with
      | some d => "=" ++ d
      | none => "")

end Param

/-- What an operator returns: one value, or several that may be named. -/
inductive ReturnType where
  | value (type : SchemaType)
  | tuple (elements : List (SchemaType × Option String))
  deriving DecidableEq, Repr, Inhabited

namespace ReturnType

/-- The return value is a tensor. -/
def isTensor : ReturnType → Bool
  | .value type => type.isTensor
  | .tuple _ => false

/-- The alias annotation of the return value. -/
def alias? : ReturnType → Option AliasInfo
  | .value type => type.alias?
  | .tuple _ => none

/-- A return type as it is written. -/
def text : ReturnType → String
  | .value type => type.text
  | .tuple elements =>
    "(" ++ ", ".intercalate (elements.map fun e => e.1.text ++ nameText e.2) ++ ")"

end ReturnType

/-- The signature of an operator. -/
structure Signature where
  /-- The segments of the qualified name, outermost first. -/
  path : List String
  overload? : Option String
  params : List Param
  returnType : ReturnType
  deriving DecidableEq, Repr, Inhabited

namespace Signature

/-- The name without the overload. -/
def name (s : Signature) : String := "::".intercalate s.path

/-- The name by which operators are mapped and registered. -/
def fullName (s : Signature) : String :=
  s.name ++ (match s.overload? with
    | some o => "." ++ o
    | none => "")

/-- The place of the first marker. -/
def markerIndex? (s : Signature) : Option Nat := s.params.findIdx? Param.isMarker

/-- The annotation of the return value, if the value may be written. -/
def writableReturn? (s : Signature) : Option AliasInfo := s.returnType.alias?.filter (·.writable)

/-- A signature as it is written. -/
def text (s : Signature) : String :=
  s.fullName ++ "(" ++ ", ".intercalate (s.params.map Param.text) ++ ") -> " ++ s.returnType.text

end Signature

end KernelGen.Schema
