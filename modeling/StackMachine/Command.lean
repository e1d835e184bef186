import StackMachine.Bytecode
import StackMachine.Files
import StackMachine.Machine
import StackMachine.Machine.Dump
import StackMachine.Source.Compile
import StackMachine.Source.Listing
import StackMachine.Text.Utf8

/-!
# Commands

The two commands of the program: one runs a stored program, the other writes it in either
stored form. A command is a function of the contents of its file; what it writes to the two
output streams is kept in order, together with its exit status.

## Main definitions

* `loadProgram`: the program that a file holds.
* `Command.run` and `Command.compile`: the commands.
-/

namespace StackMachine

/-! ### Loading

What is said of a text that is not in the interchange format is up to the platform, which reads
the format by means of its own. Its complaint about each text is a parameter of everything that
loads a file.
-/

/-- Why a file holds no program. -/
inductive LoadFailure where
  /-- It cannot be read. -/
  | unreadable (path : String) (reason : ReadFailure)
  /-- Its text is no program. -/
  | diagnosed (d : Diagnostic)

/-- The wording of a failure to load. -/
def LoadFailure.message : LoadFailure → String
  | unreadable path reason => reason.message path
  | diagnosed d => d.message

/-- Whether a path names a file of bytecode; any other file holds source text. -/
def isBytecodePath (path : String) : Bool := (extension path).toLower == ".json"

/-- The program of a text, in the form that the path tells. -/
def parseProgram (complaint : String → String) (path text : String) : Except Diagnostic Program :=
  if isBytecodePath path then
    ((Bytecode.read text).map (·.program)).mapError (Bytecode.Offence.diagnostic (complaint text))
  else (Source.compile text).mapError BadToken.diagnostic

/-- The program that a file holds. -/
def loadProgram (complaint : String → String) (path : String)
    (contents : Except ReadFailure (List UInt8)) : Except LoadFailure Program :=
  match contents with
  | .error reason => .error (.unreadable path reason)
  | .ok bytes => (parseProgram complaint path (Utf8.decode bytes)).mapError .diagnosed

namespace Command

/-! ### Effects -/

/-- The streams that a command writes to. -/
inductive Stream where
  | out
  | err
  deriving DecidableEq, Repr

/-- One write to a stream. -/
structure Write where
  /-- The stream. -/
  stream : Stream
  /-- What is written to it. -/
  text : String
  deriving DecidableEq, Repr

/-- What a command has done. -/
structure Done where
  /-- Its writes, in order. -/
  writes : List Write
  /-- Its exit status. -/
  exit : Nat
  deriving DecidableEq, Repr

/-- The exit status of a command that succeeds. -/
def exitOk : Nat := 0

/-- The exit status of a diagnosed failure. -/
def exitFault : Nat := 1

/-- The exit status of a wrong use of the command line. -/
def exitUsage : Nat := 2

/-- A line on the standard output. -/
def outLine (text : String) : Write := ⟨.out, text ++ "\n"⟩

/-- A line on the error stream. -/
def errLine (text : String) : Write := ⟨.err, text ++ "\n"⟩

/-- What a command does whose file holds no program. -/
def failLoad (failure : LoadFailure) : Done :=
  match failure with
  | .unreadable _ _ => ⟨[errLine failure.message], exitUsage⟩
  | .diagnosed _ => ⟨[errLine failure.message], exitFault⟩

/-! ### The commands -/

/-- The options of the command that runs a program. -/
structure RunOptions where
  /-- Show the state of the machine afterwards. -/
  dump : Bool
  /-- Write the trace to the error stream. -/
  trace : Bool
  /-- Exit with the low byte of the final value. -/
  exitWithResult : Bool
  deriving DecidableEq, Repr

/-- The write that shows an event: tags go to the error stream, lines to the output. -/
def showEvent : Event → Option Write
  | .tag t => some (errLine t.text)
  | .line text => some (outLine text)
  | .refused _ => none

/-- The last writes of a run and its exit status, from its result. -/
def conclude (options : RunOptions) : Except Error (Option Int) → Done
  | .error (.diagnosed d) => ⟨[errLine d.report], exitFault⟩
  | .error (.defect d) => ⟨[errLine d.message], exitUsage⟩
  | .ok none => ⟨[], exitOk⟩
  | .ok (some v) =>
    ⟨[outLine (toString v)], if options.exitWithResult then Word.lowByte v else exitOk⟩

/-- Runs a loaded program on a new machine whose tags and lines are written as they come. -/
def runProgram (options : RunOptions) (env : Environment) (budget : Nat) (program : Program) :
    Done :=
  let (m, _) := Machine.create ⟨some options.trace, true, .standard⟩ env
  let report := m.execute budget program
  let last := conclude options report.result
  let dump := if options.dump then [errLine report.state.dump.text] else []
  ⟨report.events.filterMap showEvent ++ dump ++ last.writes, last.exit⟩

/-- Runs the program that a file holds. -/
def run (complaint : String → String) (path : String)
    (contents : Except ReadFailure (List UInt8)) (options : RunOptions) (env : Environment)
    (budget : Nat) : Done :=
  match loadProgram complaint path contents with
  | .error failure => failLoad failure
  | .ok program => runProgram options env budget program

/-- Writes the program that a file holds, as bytecode or as source text. -/
def compile (complaint : String → String) (path : String)
    (contents : Except ReadFailure (List UInt8)) (bytecode : Bool) : Done :=
  match loadProgram complaint path contents with
  | .error failure => failLoad failure
  | .ok program =>
    if bytecode then ⟨[outLine (Bytecode.write program)], exitOk⟩
    else
      match program.listing with
      | .ok text => ⟨[outLine text], exitOk⟩
      | .error d => ⟨[errLine d.message], exitUsage⟩

end Command

end StackMachine
