import StackMachine.Environment
import StackMachine.Machine.Run

/-!
# Machines

A machine is a state together with the choices made when it was created: whether it
traces, who hears its tags, and where its lines go. A machine that is not told whether to
trace asks the environment once, at its creation.

## Main definitions

* `Machine.Options`: the choices.
* `Machine.create`, `Machine.execute`, `Machine.reset`.
-/

namespace StackMachine

namespace Machine

/-- The bound of a sink that collects lines. -/
structure Limit where
  /-- How many lines it takes. -/
  capacity : Nat
  /-- The error by which it refuses more. -/
  error : Error

/-- Where printed lines go. -/
inductive Output where
  /-- To the standard output. -/
  | standard
  /-- To a list of lines, perhaps a bounded one. -/
  | collected (limit : Option Limit)

/-- The choices made at the creation of a machine. -/
structure Options where
  /-- Whether to trace; left out, the environment decides. -/
  trace : Option Bool
  /-- Whether tags go to a listener of the machine's own, and not to the trace log. -/
  listener : Bool
  /-- Where printed lines go. -/
  output : Output

end Machine

/-- A machine. -/
structure Machine where
  /-- Whether it traces. -/
  tracing : Bool
  /-- Whether it has a listener of its own. -/
  listener : Bool
  /-- Where its lines go. -/
  output : Machine.Output
  /-- Its state. -/
  state : State
  /-- The collected lines that have not been looked at yet, the newest first. -/
  lines : List String
  /-- The tags heard by its listener that have not been looked at yet, the newest first. -/
  heard : List Tag

namespace Machine

/-- A new machine. -/
def create (o : Options) (env : Environment) : Machine × Environment :=
  match o.trace with
  | some tracing => (⟨tracing, o.listener, o.output, .initial, [], []⟩, env)
  | none =>
    let (tracing, env) := env.readTrace
    (⟨tracing, o.listener, o.output, .initial, [], []⟩, env)

/-- The sink of a machine. A bounded one counts the lines that have not been looked at. -/
def sink (m : Machine) : Sink :=
  match m.output with
  | .collected (some limit) =>
    let pending := m.lines.length
    fun taken _ => if limit.capacity ≤ pending + taken.length then some limit.error else none
  | _ => Sink.takeAll

/-- What a program does on a machine. -/
def execute (budget : Nat) (program : Program) (m : Machine) : Report :=
  StackMachine.execute ⟨m.tracing, m.sink⟩ budget program m.state

/-- A machine with the state of a new one. -/
def reset (m : Machine) : Machine := { m with state := .initial }

end Machine

end StackMachine
