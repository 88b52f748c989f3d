import KernelGen.Command.Arguments
import KernelGen.Json.Form
import KernelGen.Json.Reader
set_option autoImplicit false

/-!
# Command: manifests

A manifest is a JSON record that lists jobs.  The paths in it are relative to the directory
that the manifest lies in.
-/

namespace KernelGen

open Json (Fault members required orElse asString asOption asList)

/-- A list of jobs. -/
structure Manifest where
  version : String
  jobs : List Job
  deriving DecidableEq, Repr, Inhabited

/-- The version of manifests. -/
def manifestVersion : String := "opgen.manifest@0.1.0"

/-- The form of a job. -/
def Job.ofJson (j : Json) : Except Fault Job := do
  match ← members ["decls", "mappings", "out", "prefix"] j with
  | [declarations, mappings, out, functionNamePrefix] =>
    return ⟨← required "decls" asString declarations,
      ← required "mappings" asString mappings,
      ← required "out" asString out,
      ← orElse none (asOption asString) functionNamePrefix⟩
  | _ => throw (.expected "a job")

/-- The form of a manifest. -/
def Manifest.ofJson (j : Json) : Except Fault Manifest := do
  match ← members ["schema_version", "entries"] j with
  | [version, jobs] =>
    return ⟨← required "schema_version" asString version,
      ← required "entries" (asList Job.ofJson) jobs⟩
  | _ => throw (.expected "a manifest")

end KernelGen
