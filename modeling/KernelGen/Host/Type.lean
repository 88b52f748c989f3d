set_option autoImplicit false

/-!
# Host: types

A host type is a qualified name with template arguments and declarators.  A template
argument is a type or a constant expression nobody interprets.  `HostType.text` is the one
spelling in which types are written.
-/

namespace KernelGen.Host

/-- What may follow the name of a type. -/
inductive Declarator where
  | ref
  | rvalueRef
  | pointer
  | const
  deriving DecidableEq, Repr, Inhabited

/-- A declarator as it follows a type. -/
def Declarator.text : Declarator → String
  | .ref => " &"
  | .rvalueRef => " &&"
  | .pointer => " *"
  | .const => " const"

/-- An argument of a template: a type, or the text of a constant expression. -/
inductive TemplateArg (τ : Type) where
  | type (t : τ)
  | constant (text : String)
  deriving Inhabited

/-- A host type. -/
structure HostType where
  leadingConst : Bool
  /-- The name is looked up from the global scope. -/
  fromGlobal : Bool
  /-- The segments of the qualified name, outermost first. -/
  path : List String
  arguments : List (TemplateArg HostType)
  declarators : List Declarator
  deriving Inhabited

namespace HostType

/-- The last segment of the name. -/
def simpleName (t : HostType) : String := t.path.getLastD ""

/-- The aggregate of tensor options, which stands for several schema parameters. -/
def isTensorOptions (t : HostType) : Bool := t.simpleName == "TensorOptions"

/-- The type of an empty parameter list. -/
def isVoid (t : HostType) : Bool := t.path == ["void"] && t.declarators.isEmpty

end HostType

mutual

/-- A type as it is written. -/
def HostType.text : HostType → String
  | ⟨leadingConst, fromGlobal, path, arguments, declarators⟩ =>
    (if leadingConst then "const " else "") ++ (if fromGlobal then "::" else "") ++
      "::".intercalate path ++
      (if arguments.isEmpty then ""
        else "<" ++ ", ".intercalate (TemplateArg.texts arguments) ++ ">") ++
      String.join (declarators.map Declarator.text)

/-- A template argument as it is written. -/
def TemplateArg.text : TemplateArg HostType → String
  | .type t => t.text
  | .constant text => text

/-- Template arguments as they are written. -/
def TemplateArg.texts : List (TemplateArg HostType) → List String
  | [] => []
  | a :: as => a.text :: TemplateArg.texts as

end

end KernelGen.Host
