import StackMachine.Command.Line

/-!
# The program

Reads the file that the command line asks for, and writes what the command has done.
-/

namespace StackMachine

/-- How many instructions a run may dispatch: more than can be waited for. -/
def budget : Nat := 1152921504606846976

/-- What is said of a text that is not in the interchange format. -/
def complaint (_ : String) : String := "unexpected text"

/-- The reason for which the system could not read a file. -/
def ReadFailure.ofError : IO.Error → ReadFailure
  | .noFileOrDirectory _ _ _ => .missing
  | .inappropriateType _ code reason => ofNumber code.toNat reason
  | .invalidArgument _ code reason => ofNumber code.toNat reason
  | e => .other (toString e)
where
  /-- The reason by its number, which the system gives with either sign. -/
  ofNumber (code : Nat) (reason : String) : ReadFailure :=
    match ((code : Int).bmod 4294967296).natAbs with
    | 20 => .throughFile
    | 21 => .directory
    | 36 => .tooLong
    | _ => .other reason

/-- The bytes of a file of the system. -/
def readFile (path : String) : IO (Except ReadFailure (List UInt8)) := do
  try
    return .ok (← IO.FS.readBinFile path).toList
  catch e => return .error (.ofError e)

/-- The variables of the environment that matter. -/
def readEnvironment : IO Environment := do
  let mut settings := []
  for name in [Environment.traceVariable, Environment.stderrVariable] do
    if let some value ← IO.getEnv name then
      settings := (name, value) :: settings
  return .ofSettings settings

/-- Performs a write. -/
def Command.Write.perform (w : Command.Write) : IO Unit :=
  match w.stream with
  | .out => IO.print w.text
  | .err => IO.eprint w.text

end StackMachine

open StackMachine in
/-- Entry point of the program. -/
def main (args : List String) : IO UInt32 := do
  let request := CommandLine.parse args
  let contents ← match request.file? with
    | some file => readFile file
    | none => pure (.error .missing)
  let finished := CommandLine.fulfil complaint contents (← readEnvironment) budget request
  for w in finished.writes do
    w.perform
  return finished.exit.toUInt32
