import KernelGen.Command.FileSystem
import KernelGen.Command.Manifest
import KernelGen.Generator
import KernelGen.Mapping.Form
set_option autoImplicit false

/-!
# Command: running

A job reads a header and a mapping document and makes a text of them.  The text is written to
the output file, or compared with what is there; a job that fails before that changes nothing.
A batch runs the jobs of a manifest in order, up to the first that fails.

Commands run in any monad that has a file system.  A failure is kept as its cause and as the
list of what was being done, the outermost first.
-/

namespace KernelGen

/-- Why a command fails. -/
inductive CommandCause where
  | diagnostic (c : Cause)
  | json (fault : Json.Fault)
  | io (fault : IoFault)
  | manifestVersion (expected got : String)
  /-- the output file holds another text -/
  | outputDiffers (path : String)
  deriving DecidableEq, Repr, Inhabited

/-- What a command was doing when it failed. -/
inductive CommandContext where
  | readDeclarations (path : String)
  | readMappings (path : String)
  | parseMappings (path : String)
  | buildMappings (path : String)
  | generateFrom (path : String)
  | inGeneration (c : Context)
  | readExistingOutput (path : String)
  | createOutputDirectory (path : String)
  | writeOutput (path : String)
  | readManifest (path : String)
  | parseManifest (path : String)
  | manifestEntry (index : Nat) (out : String)
  deriving DecidableEq, Repr, Inhabited

/-- The words for what a command was doing. -/
def CommandContext.text : CommandContext → String
  | .readDeclarations path => "read declarations: " ++ path
  | .readMappings path => "read mappings: " ++ path
  | .parseMappings path => "parse mappings: " ++ path
  | .buildMappings path => "build mappings: " ++ path
  | .generateFrom path => "generate from " ++ path
  | .inGeneration c => c.text
  | .readExistingOutput path => "read existing output: " ++ path
  | .createOutputDirectory path => "create output dir: " ++ path
  | .writeOutput path => "write output: " ++ path
  | .readManifest path => "read manifest: " ++ path
  | .parseManifest path => "parse manifest JSON: " ++ path
  | .manifestEntry index out => s!"manifest entry[{index}] {out}"

/-- The words for faults of components that commands use. -/
structure Wording where
  json : Json.Fault → String
  io : IoFault → String

/-- The components' own words. -/
def Wording.standard : Wording := ⟨Json.Fault.message, IoFault.message⟩

/-- The words for the cause of a failure. -/
def CommandCause.text (w : Wording) : CommandCause → String
  | .diagnostic c => (c.diagnostic w.json).text
  | .json fault => w.json fault
  | .io fault => w.io fault
  | .manifestVersion expected got =>
    s!"manifest schema_version mismatch: expected {expected} got {Text.quoted got}"
  | .outputDiffers path => "generated output differs: " ++ path

/-- The failure of a command. -/
structure CommandFailure where
  cause : CommandCause
  contexts : List CommandContext
  deriving DecidableEq, Repr, Inhabited

namespace CommandFailure

/-- A failure in one more context. -/
def within (c : CommandContext) (f : CommandFailure) : CommandFailure :=
  ⟨f.cause, c :: f.contexts⟩

/-- The failure of a generation. -/
def ofFailure (f : Failure) : CommandFailure :=
  ⟨.diagnostic f.cause, f.contexts.map .inGeneration⟩

/-- The words for a failure: what was being done, the outermost first, and then the cause. -/
def chain (w : Wording) (f : CommandFailure) : List String :=
  f.contexts.map CommandContext.text ++ [f.cause.text w]

end CommandFailure

/-! ## Actions -/

/-- Something that is done in a monad and has an outcome. -/
def Action (m : Type → Type) (α : Type) : Type := m (Outcome CommandFailure α)

namespace Action

variable {m : Type → Type} [Monad m] {α β : Type}

instance : Monad (Action m) where
  pure a := (pure (pure a) : m (Outcome CommandFailure _))
  bind x f := (do
    let o ← (x : m (Outcome CommandFailure _))
    match o.result with
    | .error e => pure ⟨o.events, .error e⟩
    | .ok a =>
      let o' ← (f a : m (Outcome CommandFailure _))
      pure ⟨o.events ++ o'.events, o'.result⟩ : m (Outcome CommandFailure _))

/-- An outcome that needs nothing done. -/
def ofOutcome (o : Outcome CommandFailure α) : Action m α := (pure o : m (Outcome CommandFailure α))

/-- A cause, in a context. -/
def fail (c : CommandCause) : Action m α := ofOutcome (.fail ⟨c, []⟩)

/-- The action with its failures in one more context. -/
def within (c : CommandContext) (x : Action m α) : Action m α :=
  (do
    let o ← (x : m (Outcome CommandFailure α))
    pure (o.mapError (CommandFailure.within c)) : m (Outcome CommandFailure α))

/-- A result or a diagnostic. -/
def ofExcept (x : Except Cause α) : Action m α :=
  ofOutcome (.ofExcept (x.mapError fun c => ⟨.diagnostic c, []⟩))

/-- An operation of a file system. -/
def ofFileSystem (x : m (Except IoFault α)) : Action m α :=
  (do
    let r ← x
    pure (.ofExcept (r.mapError fun e => ⟨.io e, []⟩)) : m (Outcome CommandFailure α))

end Action

/-! ## Jobs -/

section

variable {m : Type → Type} [Monad m] [FileSystem m]

/-- The text of a file. -/
def readText (path : String) : Action m String := do
  let bytes ← .ofFileSystem (FileSystem.read path)
  match String.fromUTF8? bytes with
  | some text => return text
  | none => .fail (.io .notText)

/-- Fails unless the output file holds a text. -/
def checkOutput (path text : String) : Action m Unit := do
  let present ← (readText path).within (.readExistingOutput path)
  if present ≠ text then .fail (.outputDiffers path)

/-- Writes a text to the output file, and makes the directory the file lies in. -/
def writeOutput (path text : String) : Action m Unit := do
  match Path.parent? path with
  | some directory =>
    (Action.ofFileSystem (FileSystem.createDirectories directory)).within
      (.createOutputDirectory directory)
  | none => pure ()
  (Action.ofFileSystem (FileSystem.write path text.toUTF8)).within (.writeOutput path)

namespace Job

/-- The text that a job makes; this only reads. -/
def make (job : Job) : Action m Generated := do
  let header ← (readText job.declarations).within (.readDeclarations job.declarations)
  let bytes ← (Action.ofFileSystem (FileSystem.read job.mappings)).within
    (.readMappings job.mappings)
  let file ← (Action.ofExcept (MappingFile.ofBytes bytes)).within (.parseMappings job.mappings)
  let generator ← (Action.ofExcept (Generator.ofFile file)).within (.buildMappings job.mappings)
  let generator := generator.withPrefix job.functionNamePrefix?
  let made ← (Action.ofOutcome
    ((generator.run header job.declarations).mapError .ofFailure)).within
      (.generateFrom job.declarations)
  Action.ofOutcome (.tell (.generated job.out made.operators.length))
  return made

/-- Runs a job: its text is written to the output file or, in a check, compared with it. -/
def run (job : Job) (check : Bool) : Action m Unit := do
  let made ← job.make
  if check then checkOutput job.out made.text else writeOutput job.out made.text

/-- The job with its paths relative to a directory. -/
def inDirectory (directory : String) (job : Job) : Job :=
  ⟨Path.join directory job.declarations, Path.join directory job.mappings,
    Path.join directory job.out, job.functionNamePrefix?⟩

end Job

/-! ## Batches and commands -/

/-- Runs jobs of a manifest, the first of which is at `index`, up to the first that fails. -/
def runJobs (directory : String) (check : Bool) : Nat → List Job → Action m Unit
  | _, [] => pure ()
  | index, job :: jobs => do
    ((job.inDirectory directory).run check).within (.manifestEntry index job.out)
    runJobs directory check (index + 1) jobs

/-- Runs the jobs of a manifest. -/
def runBatch (path : String) (check : Bool) : Action m Unit := do
  let bytes ← (Action.ofFileSystem (FileSystem.read path)).within (.readManifest path)
  let manifest ← (match Json.parseBytes bytes >>= Manifest.ofJson with
    | .ok manifest => pure manifest
    | .error fault => Action.fail (.json fault)).within (.parseManifest path)
  if Text.trim manifest.version ≠ manifestVersion then
    Action.fail (.manifestVersion manifestVersion manifest.version)
  runJobs ((Path.parent? path).getD "") check 0 manifest.jobs

/-- Runs a command, and returns what it prints. -/
def Command.run : Command → Action m String
  | .generate job check => do
    job.run check
    return ""
  | .batch manifest check => do
    runBatch manifest check
    return ""
  | .diagnostics => return Diagnostic.catalog

end

end KernelGen
