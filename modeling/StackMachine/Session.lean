import StackMachine.Machine
import StackMachine.Machine.Dump
import StackMachine.Source.Compile
import StackMachine.Trace.Log

/-!
# Sessions

A session is a sequence of calls over any number of named machines that share an
environment, a trace log and the standard streams. Calls can be grouped in a scope, which
gathers the tags recorded while it is open; a scope that rethrows is left by the first
error of a call inside it.

Each call is answered by its result together with what it wrote to the streams and, if it
concerns a machine, with a view of that machine. What one answer has shown, the next does
not show again. A call whose error leaves a scope is not answered itself: the streams go
into the answer of the scope, and the lines and tags of its machine into the next view.

## Main definitions

* `Call`, `Reply`, `Answer`: the vocabulary.
* `Session.call` and `Session.callAll`: the semantics.
* `interpret`: a source text on a new machine.
-/

namespace StackMachine

/-! ### Vocabulary -/

/-- A program as it is handed to a machine. -/
inductive Supply where
  /-- As instructions. -/
  | program (instrs : Program)
  /-- As source text, which is compiled first. -/
  | source (text : String)

/-- The program that is handed over. -/
def Supply.load : Supply → Except Diagnostic Program
  | program instrs => .ok instrs
  | source text =>
    match Source.compile text with
    | .ok instrs => .ok instrs
    | .error b => .error b.diagnostic

/-- What running a source text yields. -/
structure Outcome where
  /-- The value that the run left, if it left one. -/
  value : Option Int
  /-- The lines that it printed. -/
  output : List String

/-- A call. -/
inductive Call where
  /-- Sets a variable of the environment, or unsets it. -/
  | setVariable (name : String) (value : Option String)
  /-- Forgets the remembered flags. -/
  | forgetFlags
  /-- Reads both flags. -/
  | readFlags
  /-- Creates a machine, in place of an earlier one of that name. -/
  | create (name : String) (options : Machine.Options)
  /-- Runs a program; a diagnosed failure is an error of the call. -/
  | execute (name : String) (code : Supply)
  /-- Runs a program; a diagnosed failure of the run is a result. -/
  | tryExecute (name : String) (code : Supply)
  /-- Puts a machine into the state of a new one. -/
  | reset (name : String)
  /-- Asks for the state of a machine. -/
  | inspect (name : String)
  /-- Asks for the text that shows the state of a machine. -/
  | dump (name : String)
  /-- Compiles and runs a source text on a machine of its own. -/
  | interpret (source : String) (trace : Option Bool)
  /-- Records a tag in the trace log. -/
  | record (tag : Tag)
  /-- Drains the buffer of the trace log. -/
  | take
  /-- Makes calls inside a scope of the trace log. -/
  | scope (rethrow : Bool) (body : List Call)

/-- The machine that a call concerns and whose view belongs to the answer. -/
def Call.subject? : Call → Option String
  | execute name _ => some name
  | tryExecute name _ => some name
  | reset name => some name
  | inspect name => some name
  | dump name => some name
  | _ => none

/-- A view of a machine. -/
structure View where
  /-- Its state. -/
  state : State
  /-- The lines that it collected since the last view. -/
  output : List String
  /-- The tags that its listener heard since the last view. -/
  heard : List Tag

mutual

/-- What a call yields. -/
inductive Reply where
  | done
  | flags (trace stderr : Bool)
  | value (v : Option Int)
  | result (r : Except Diagnostic (Option Int))
  | outcome (r : Except Diagnostic Outcome)
  | state (s : State)
  | text (s : String)
  | tags (ts : List Tag)
  | scope (tags : List Tag) (answers : List Answer)

/-- The answer to a call: its reply or error, what it wrote to the streams, and a view of
the machine that it concerns. -/
inductive Answer where
  | mk (reply : Except Error Reply) (stdout stderr : String) (view : Option View)

end

/-! ### Semantics -/

/-- A session. -/
structure Session where
  /-- The environment. -/
  env : Environment
  /-- The trace log. -/
  log : TraceLog
  /-- The machines, by name. -/
  machines : List (String × Machine)
  /-- What was written to the standard output since the last answer. -/
  stdout : String
  /-- What was written to the error stream since the last answer. -/
  stderr : String

namespace Session

/-- A session in which nothing has happened. -/
def initial : Session := ⟨.ofSettings [], .empty, [], "", ""⟩

/-- Puts a machine in the place of its name. -/
def put (name : String) (m : Machine) (s : Session) : Session :=
  { s with machines := Members.put name m s.machines }

/-- Records a tag in the trace log, and copies it to the error stream if the flag says so. -/
def record (t : Tag) (s : Session) : Session :=
  let (copied, env) := s.env.readStderr
  { s with
    env
    log := s.log.record t
    stderr := if copied then s.stderr ++ t.text ++ "\n" else s.stderr }

/-- Takes an event of a machine to whom it may concern. -/
def deliver (s : Session) (m : Machine) : Event → Session × Machine
  | .tag t =>
    if m.listener then (s, { m with heard := t :: m.heard }) else (s.record t, m)
  | .line text =>
    match m.output with
    | .standard => ({ s with stdout := s.stdout ++ text ++ "\n" }, m)
    | .collected _ => (s, { m with lines := text :: m.lines })
  | .refused _ => (s, m)

/-- Takes the events of a machine, in order, to whom they may concern. -/
def deliverAll : List Event → Session → Machine → Session × Machine
  | [], s, m => (s, m)
  | e :: rest, s, m =>
    let (s, m) := s.deliver m e
    deliverAll rest s m

/-- Runs a program on a machine. -/
def runOn (budget : Nat) (m : Machine) (program : Program) (s : Session) :
    Except Error (Option Int) × Session × Machine :=
  let report := m.execute budget program
  (report.result, deliverAll report.events s { m with state := report.state })

/-- Runs a program on the machine of a name. -/
def execute (budget : Nat) (name : String) (code : Supply) (s : Session) :
    Except Error (Except Error (Option Int)) × Session :=
  match code.load with
  | .error d => (.error (.diagnosed d), s)
  | .ok program =>
    match s.machines.lookup name with
    | none => (.error (.defect (.noMachine name)), s)
    | some m =>
      let (result, s, m) := s.runOn budget m program
      (.ok result, s.put name m)

/-- Compiles and runs a source text on a machine of its own, which collects its lines. -/
def interpret (budget : Nat) (source : String) (trace : Option Bool) (s : Session) :
    Except Defect (Except Diagnostic Outcome) × Session :=
  let (m, env) := Machine.create ⟨trace, false, .collected none⟩ s.env
  let s := { s with env }
  match Source.compile source with
  | .error b => (.ok (.error b.diagnostic), s)
  | .ok program =>
    let (result, s, m) := s.runOn budget m program
    (Error.capture (result.map fun value => ⟨value, m.lines.reverse⟩), s)

/-- Applies a function to the machine of a name. -/
def withMachine (name : String) (s : Session) (f : Machine → Reply × Machine) :
    Except Error Reply × Session :=
  match s.machines.lookup name with
  | none => (.error (.defect (.noMachine name)), s)
  | some m =>
    let (reply, m) := f m
    (.ok reply, s.put name m)

/-- Ends a call: gathers what it wrote and a view of the machine that it concerns, so that
the next answer starts afresh. -/
def answer (c : Call) (reply : Except Error Reply) (s : Session) : Answer × Session :=
  let rest := { s with stdout := "", stderr := "" }
  match c.subject?.bind fun name => (s.machines.lookup name).map fun m => (name, m) with
  | none => (.mk reply s.stdout s.stderr none, rest)
  | some (name, m) =>
    let view : View := ⟨m.state, m.lines.reverse, m.heard.reverse⟩
    (.mk reply s.stdout s.stderr (some view), rest.put name { m with lines := [], heard := [] })

/-- Turns a captured result into a reply, and lets a defect through. -/
def replyOf {α : Type} (f : Except Diagnostic α → Reply) :
    Except Defect (Except Diagnostic α) → Except Error Reply
  | .ok r => .ok (f r)
  | .error d => .error (.defect d)

mutual

/-- Makes a call. -/
def call (budget : Nat) : Call → Session → Except Error Reply × Session
  | .setVariable name value, s => (.ok .done, { s with env := s.env.set name value })
  | .forgetFlags, s => (.ok .done, { s with env := s.env.forget })
  | .readFlags, s =>
    let (trace, env) := s.env.readTrace
    let (stderr, env) := env.readStderr
    (.ok (.flags trace stderr), { s with env })
  | .create name options, s =>
    let (m, env) := Machine.create options s.env
    (.ok .done, { s with env }.put name m)
  | .execute name code, s =>
    let (result, s) := s.execute budget name code
    (result.bind fun r => r.map .value, s)
  | .tryExecute name code, s =>
    let (result, s) := s.execute budget name code
    (result.bind fun r => replyOf .result (Error.capture r), s)
  | .reset name, s => s.withMachine name fun m => (.done, m.reset)
  | .inspect name, s => s.withMachine name fun m => (.state m.state, m)
  | .dump name, s => s.withMachine name fun m => (.text m.state.dump.text, m)
  | .interpret source trace, s =>
    let (result, s) := s.interpret budget source trace
    (replyOf .outcome result, s)
  | .record t, s => (.ok .done, s.record t)
  | .take, s =>
    let (tags, log) := s.log.take
    (.ok (.tags tags), { s with log })
  | .scope rethrow body, s =>
    let (answers, s) := callAll budget rethrow body { s with log := s.log.enter }
    let (tags, log) := s.log.leave
    (answers.map (.scope tags), { s with log })

/-- Makes calls in turn, and answers each. A failing call ends them if it is to be
rethrown. -/
def callAll (budget : Nat) (rethrow : Bool) :
    List Call → Session → Except Error (List Answer) × Session
  | [], s => (.ok [], s)
  | c :: rest, s =>
    match call budget c s with
    | (reply, s) =>
      match rethrow, reply with
      | true, .error e => (.error e, s)
      | _, reply =>
        let (answer, s) := s.answer c reply
        let (answers, s) := callAll budget rethrow rest s
        (answers.map (answer :: ·), s)

end

end Session

end StackMachine
