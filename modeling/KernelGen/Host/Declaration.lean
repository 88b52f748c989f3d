import KernelGen.Host.Type
import KernelGen.Source.Token
set_option autoImplicit false

/-!
# Host: declarations

A declaration gives a function its return type, its name and its parameters.  It keeps the
semicolon that ends it, because the comment behind that semicolon may say which operator the
function implements.
-/

namespace KernelGen.Host

/-- A parameter of a declared function. -/
structure Param where
  type : HostType
  name? : Option String
  default? : Option String
  deriving Inhabited

/-- A name and a default value as they follow the type of a parameter. -/
def nameAndDefault (name? default? : Option String) : String :=
  (match name? with
    | some name => " " ++ name
    | none => "") ++
  (match default? with
    | some value => " = " ++ value
    | none => "")

/-- A parameter as it is written. -/
def Param.text (p : Param) : String := p.type.text ++ nameAndDefault p.name? p.default?

/-- The declaration of a function. -/
structure Declaration where
  returnType : HostType
  name : String
  params : List Param
  /-- The semicolon that ends the declaration. -/
  terminator : Source.Token
  location : Source.Location
  deriving Inhabited

namespace Declaration

/-- The comment behind the declaration, on the line on which it ends. -/
def comment? (d : Declaration) : Option String := d.terminator.trailingComment?

/-- The place of the first parameter of a given name. -/
def indexOf? (d : Declaration) (name : String) : Option Nat :=
  d.params.findIdx? (·.name? == some name)

end Declaration

end KernelGen.Host
