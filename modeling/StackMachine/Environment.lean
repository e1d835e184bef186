/-!
# Environment flags

Two variables of the environment switch tracing on and copy the trace to the error stream.
Each flag is read once and then remembered until the memory is cleared, whatever happens to
its variable in between.

## Main definitions

* `Environment`: the variables and the remembered flags.
* `Environment.readTrace` and `Environment.readStderr`: the flags.
-/

namespace StackMachine

/-- The variables of the environment and what is remembered of them. -/
structure Environment where
  /-- The variables that are set. -/
  settings : List (String × String)
  /-- The remembered flag that switches tracing on. -/
  trace : Option Bool
  /-- The remembered flag that copies the trace to the error stream. -/
  stderr : Option Bool

namespace Environment

/-- The variable that switches tracing on. -/
def traceVariable : String := "STACKVM_TRACE"

/-- The variable that copies the trace to the error stream. -/
def stderrVariable : String := "STACKVM_TRACE_STDERR"

/-- An environment of which nothing is remembered yet. -/
def ofSettings (settings : List (String × String)) : Environment := ⟨settings, none, none⟩

/-- Sets a variable, or unsets it. -/
def set (name : String) (value : Option String) (env : Environment) : Environment :=
  let others := env.settings.filter fun (n, _) => n != name
  { env with settings := (value.map fun v => (name, v)).toList ++ others }

/-- Forgets what is remembered. -/
def forget (env : Environment) : Environment := { env with trace := none, stderr := none }

/-- Whether a variable is set to `1` or to `true`, in letters of either case. -/
def flag (name : String) (env : Environment) : Bool :=
  match env.settings.lookup name with
  | some v => v.toLower == "1" || v.toLower == "true"
  | none => false

/-- Whether tracing is switched on. -/
def readTrace (env : Environment) : Bool × Environment :=
  match env.trace with
  | some b => (b, env)
  | none =>
    let b := env.flag traceVariable
    (b, { env with trace := some b })

/-- Whether the trace is copied to the error stream. -/
def readStderr (env : Environment) : Bool × Environment :=
  match env.stderr with
  | some b => (b, env)
  | none =>
    let b := env.flag stderrVariable
    (b, { env with stderr := some b })

end Environment

end StackMachine
