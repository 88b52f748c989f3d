import KernelGen.Command.Run
set_option autoImplicit false

/-!
# The program

Runs the command that the arguments ask for on the files of the machine.  What the command
prints goes to standard output; what it tells, as far as it matters, and what is wrong go to
standard error.
-/

namespace KernelGen

/-- An operation on files, with the reason why it failed. -/
def attempt {α : Type} (x : IO α) : IO (Except IoFault α) := do
  try
    return .ok (← x)
  catch e => return .error (.other (toString e))

instance : FileSystem IO where
  read path := attempt (IO.FS.readBinFile path)
  createDirectories path := attempt (unless path.isEmpty do IO.FS.createDirAll path)
  write path bytes := attempt (IO.FS.writeBinFile path bytes)

/-- A field of an event on a line of the log. -/
def fieldText (field : String × FieldValue) : String :=
  field.1 ++ "=" ++ match field.2 with
    | .text s => s
    | .count n => toString n

/-- An event as a line of the log. -/
def eventText (e : Event) : String :=
  " ".intercalate (e.level.name :: e.message :: e.fields.map fieldText)

/-- How the program is called. -/
def usage : String :=
  "usage: gen --decls FILE --mappings FILE --out FILE [--prefix TEXT] [--check]\n" ++
  "       batch --manifest FILE [--check]\n" ++
  "       diagnostics"

end KernelGen

open KernelGen in
/-- Runs the command that the arguments ask for. -/
def main (args : List String) : IO UInt32 := do
  match Command.ofArguments? args with
  | none =>
    IO.eprintln usage
    return 2
  | some command =>
    let outcome ← (command.run : Action IO String)
    for e in outcome.events do
      if e.level ≠ .debug then IO.eprintln (eventText e)
    match outcome.result with
    | .ok printed =>
      IO.print printed
      return 0
    | .error failure =>
      IO.eprintln (": ".intercalate (failure.chain .standard))
      return 1
