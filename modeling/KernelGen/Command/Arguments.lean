set_option autoImplicit false

/-!
# Command: arguments

There are three commands.  Options have long names, may come in any order and at most once,
and take their value from the next argument or from behind an equals sign.  A value that comes
as an argument of its own does not start with a dash, unless it is one.  Nothing else may be
given.
-/

namespace KernelGen

/-- The files of one generation, and a prefix for the names of functions. -/
structure Job where
  declarations : String
  mappings : String
  out : String
  functionNamePrefix? : Option String
  deriving DecidableEq, Repr, Inhabited

/-- A command. -/
inductive Command where
  /-- generates one file, or checks it -/
  | generate (job : Job) (check : Bool)
  /-- generates every file of a manifest, or checks them -/
  | batch (manifest : String) (check : Bool)
  /-- prints the catalog of diagnostics -/
  | diagnostics
  deriving DecidableEq, Repr, Inhabited

namespace Command

/-- The options that were given; a switch has no value. -/
abbrev Given : Type := List (String × Option String)

/-- The name of an option, and what is behind the equals sign. -/
def splitOption (body : List Char) : String × Option String :=
  (String.ofList (body.takeWhile (· != '=')),
    match body.dropWhile (· != '=') with
    | _ :: value => some (String.ofList value)
    | [] => none)

/-- An argument that can be the value of an option. -/
def isValue (arg : String) : Bool := arg == "-" || arg.toList.head? != some '-'

/-- The options among arguments, if there is nothing but options of the given names. -/
def options? (valued switches : List String) : List String → Option Given
  | [] => some []
  | arg :: more =>
    match arg.toList with
    | ['-', '-'] => if more.isEmpty then some [] else none
    | '-' :: '-' :: body =>
      match splitOption body with
      | (name, some value) =>
        if valued.contains name then ((name, some value) :: ·) <$> options? valued switches more
        else none
      | (name, none) =>
        if switches.contains name then ((name, none) :: ·) <$> options? valued switches more
        else if valued.contains name then
          match more with
          | value :: more' =>
            if isValue value then ((name, some value) :: ·) <$> options? valued switches more'
            else none
          | [] => none
        else none
    | _ => none

/-- The options among arguments, if none is given twice. -/
def once? (valued switches args : List String) : Option Given := do
  let given ← options? valued switches args
  if (given.map (·.1)).Nodup then return given else none

/-- The value of an option that is a path, which is never empty. -/
def path? (given : Given) (name : String) : Option String :=
  match given.lookup name with
  | some (some value) => if value.isEmpty then none else some value
  | _ => none

/-- The command that arguments ask for. -/
def ofArguments? : List String → Option Command
  | "gen" :: args => do
    let given ← once? ["decls", "mappings", "out", "prefix"] ["check"] args
    return .generate
      ⟨← path? given "decls", ← path? given "mappings", ← path? given "out",
        (given.lookup "prefix").join⟩
      (given.lookup "check").isSome
  | "batch" :: args => do
    let given ← once? ["manifest"] ["check"] args
    return .batch (← path? given "manifest") (given.lookup "check").isSome
  | "diagnostics" :: args => do
    let _ ← once? [] [] args
    return .diagnostics
  | _ => none

end Command

end KernelGen
