import StackMachine.Command

/-!
# The command line

The arguments of the program name a command, a file and flags. Arguments are read in two
rounds: the first one, which knows no flags, takes the words before the first flag, and the
command that they name reads the rest again, with its own flags. A double dash ends the
flags of the round that meets it.

## Main definitions

* `CommandLine.Request`: what the arguments ask for.
* `CommandLine.parse`: the request of given arguments.
* `CommandLine.fulfil`: what is done about a request.
-/

namespace StackMachine.CommandLine

/-- The commands. -/
inductive Verb where
  | run
  | compile
  deriving DecidableEq, Repr

namespace Verb

/-- The command of a given name. -/
def ofName? (name : String) : Option Verb :=
  if name = "run" then some run else if name = "compile" then some compile else none

/-- The flags that a command knows. -/
def flags : Verb → List String
  | run => ["--dump", "--trace", "--exit-with-result"]
  | compile => ["--json"]

end Verb

/-! ### Help -/

/-- What there is help on. -/
inductive Topic where
  /-- The program. -/
  | program
  /-- A command. -/
  | verb (v : Verb)
  deriving DecidableEq, Repr

/-- The lines of the help texts. -/
def Topic.helpLines : Topic → List String
  | program =>
    ["Usage: stack-vm [options] [command]",
      "",
      "stack-vm compiler and runtime",
      "",
      "Options:",
      "  -h, --help                display help for command",
      "",
      "Commands:",
      "  run [options] <file>",
      "  compile [options] <file>",
      "  help [command]            display help for command"]
  | verb .run =>
    ["Usage: stack-vm run [options] <file>",
      "",
      "Arguments:",
      "  file                source file, or .json bytecode",
      "",
      "Options:",
      "  --dump              print stack, memory and labels to stderr after the run",
      "  --trace             write trace events to stderr as JSON lines",
      "  --exit-with-result  use the final value (low 8 bits) as the exit code",
      "  -h, --help          display help for command"]
  | verb .compile =>
    ["Usage: stack-vm compile [options] <file>",
      "",
      "Arguments:",
      "  file        source file, or .json bytecode",
      "",
      "Options:",
      "  --json      print bytecode JSON instead of source",
      "  -h, --help  display help for command"]

/-- The help text on a topic. -/
def Topic.help (t : Topic) : String := String.join (t.helpLines.map (· ++ "\n"))

/-! ### Requests -/

/-- A wrong use of the command line. -/
inductive Misuse where
  /-- Nothing was asked for, or help on something that there is none on. -/
  | nothing
  /-- The first word is no command. -/
  | unknownCommand (name : String)
  /-- A flag is not known. -/
  | unknownOption (name : String)
  /-- A command was given no file. -/
  | missingFile
  deriving DecidableEq, Repr

/-- What the arguments ask for. -/
inductive Request where
  /-- To run a file. -/
  | run (file : String) (options : Command.RunOptions)
  /-- To write the program of a file. -/
  | compile (file : String) (bytecode : Bool)
  /-- For help. -/
  | help (topic : Topic)
  /-- For nothing that can be done. -/
  | misuse (m : Misuse)
  deriving DecidableEq, Repr

/-- Whether an argument looks like a flag: a dash followed by something. -/
def looksLikeFlag (arg : String) : Bool :=
  match arg.toList with
  | '-' :: _ :: _ => true
  | _ => false

/-- Whether an argument asks for help. -/
def asksForHelp (arg : String) : Bool := arg == "-h" || arg == "--help"

/-- The arguments of one round, sorted. -/
structure Sorted where
  /-- The words before the first unknown flag, and what follows a double dash there. -/
  words : List String
  /-- The known flags. -/
  flags : List String
  /-- The first unknown flag and everything after it but known flags. -/
  rest : List String

/-- Sorts the arguments of a round that knows some flags. Once an unknown flag has been
met, words are left to the rest too, and so is a double dash. -/
def sort (known : List String) (afterUnknown : Bool) : List String → Sorted
  | [] => ⟨[], [], []⟩
  | arg :: args =>
    if arg = "--" then
      if afterUnknown then ⟨[], [], arg :: args⟩ else ⟨args, [], []⟩
    else if known.contains arg then
      let later := sort known afterUnknown args
      { later with flags := arg :: later.flags }
    else if afterUnknown || looksLikeFlag arg then
      let later := sort known true args
      { later with rest := arg :: later.rest }
    else
      let later := sort known false args
      { later with words := arg :: later.words }

/-- The request of a command, from the words after its name and the arguments that the
first round left over. -/
def parseVerb (v : Verb) (words rest : List String) : Request :=
  let sorted := sort v.flags false rest
  if sorted.rest.any asksForHelp then .help (.verb v)
  else
    match sorted.rest, words ++ sorted.words with
    | arg :: _, _ => .misuse (.unknownOption arg)
    | [], [] => .misuse .missingFile
    | [], file :: _ =>
      match v with
      | .run =>
        .run file
          ⟨sorted.flags.contains "--dump", sorted.flags.contains "--trace",
            sorted.flags.contains "--exit-with-result"⟩
      | .compile => .compile file (sorted.flags.contains "--json")

/-- The request for help, from the words after it. -/
def parseHelp : List String → Request
  | [] => .help .program
  | name :: _ =>
    if name.isEmpty then .help .program
    else
      match Verb.ofName? name with
      | some v => .help (.verb v)
      | none => .misuse .nothing

/-- The request of the arguments of the program. -/
def parse (args : List String) : Request :=
  let sorted := sort [] false args
  match sorted.words, sorted.rest with
  | [], [] => .misuse .nothing
  | [], arg :: rest =>
    if (arg :: rest).any asksForHelp then .help .program else .misuse (.unknownOption arg)
  | name :: words, rest =>
    match Verb.ofName? name with
    | some v => parseVerb v words rest
    | none =>
      if name = "help" then parseHelp words
      else if rest.any asksForHelp then .help .program
      else .misuse (.unknownCommand name)

/-! ### Fulfilment -/

/-- The text that rebukes a misuse. -/
def Misuse.message : Misuse → String
  | nothing => Topic.program.help
  | unknownCommand name => "error: unknown command '" ++ name ++ "'\n"
  | unknownOption name => "error: unknown option '" ++ name ++ "'\n"
  | missingFile => "error: missing required argument 'file'\n"

/-- The file that a request needs. -/
def Request.file? : Request → Option String
  | run file _ => some file
  | compile file _ => some file
  | _ => none

/-- What is done about a request, given the contents of the file that it needs and what the
platform says of texts that are not in the interchange format. -/
def fulfil (complaint : String → String) (contents : Except ReadFailure (List UInt8))
    (env : Environment) (budget : Nat) : Request → Command.Done
  | .run file options => Command.run complaint file contents options env budget
  | .compile file bytecode => Command.compile complaint file contents bytecode
  | .help topic => ⟨[⟨.out, topic.help⟩], Command.exitOk⟩
  | .misuse m => ⟨[⟨.err, m.message⟩], Command.exitUsage⟩

/-- What the program does in a tree of files. -/
def runIn (complaint : String → String) (files : FileTree) (env : Environment) (budget : Nat)
    (args : List String) : Command.Done :=
  let request := parse args
  let contents := match request.file? with
    | some file => files.read file
    | none => .error .missing
  fulfil complaint contents env budget request

end StackMachine.CommandLine
