import StackMachine.Machine.Binding
import StackMachine.Machine.Step
import StackMachine.Trace.Tag

/-!
# Running programs

A run binds the labels of its program and then dispatches instructions until the
instruction pointer leaves the program or something stops it. It is watched by two
parties: a sink that takes the printed lines and may refuse one, and a trace that hears
tags. What reaches them is kept in one list of events, in order, because a command may
send both to the same terminal.

The recursion is structural on a budget of dispatched instructions. A run that does not
fit the budget ends as `exhausted`, with the state that it has reached.

## Main definitions

* `Sink`, `Watch`, `Event`: the parties and what reaches them.
* `Ending` and `Report`: how a run ends and what it leaves.
* `Config.dispatch` and `Config.run`: one instruction, and all of them.
* `execute`: a whole run.

## Main results

* `execute_mono`: a larger budget changes nothing about a run that has ended.
-/

namespace StackMachine

/-! ### Observers -/

/-- A sink decides, from the lines that it has taken since the run began, the newest
first, whether it refuses the next line, and with which error. -/
abbrev Sink := List String → String → Option Error

/-- The sink that takes every line. -/
def Sink.takeAll : Sink := fun _ _ => none

/-- The parties that watch a run. -/
structure Watch where
  /-- Whether tags are raised. -/
  trace : Bool
  /-- Who takes the printed lines. -/
  sink : Sink

/-- What reaches the observers of a run. -/
inductive Event where
  /-- A tag was raised. -/
  | tag (t : Tag)
  /-- The sink was handed a line and took it. -/
  | line (text : String)
  /-- The sink was handed a line and refused it. -/
  | refused (text : String)
  deriving DecidableEq

namespace Event

/-- The tag of an event that is one. -/
def tag? : Event → Option Tag
  | tag t => some t
  | _ => none

/-- The line of an event by which the sink took one. -/
def line? : Event → Option String
  | line text => some text
  | _ => none

end Event

/-! ### Outcomes -/

/-- How a run ends. -/
inductive Ending where
  /-- It reached the end of the program, and popped the top of the stack if there was one. -/
  | finished (value : Option Int)
  /-- An instruction found too few operands. -/
  | underflow
  /-- An instruction, or the binding of labels, met a fault. -/
  | faulted (f : Fault)
  /-- The sink refused a line. -/
  | refused (e : Error)
  /-- An instruction named no operation. -/
  | unknownOpcode
  /-- The budget was used up. -/
  | exhausted
  deriving DecidableEq

namespace Ending

/-- The result of a run: a value, if it left one, or the error that stopped it. -/
def result : Ending → Except Error (Option Int)
  | finished value => .ok value
  | underflow => .ok none
  | faulted f => .error (.diagnosed f.diagnostic)
  | refused e => .error e
  | unknownOpcode => .error (.defect .unknownOpcode)
  | exhausted => .error (.defect .exhausted)

end Ending

/-- What a run leaves. -/
structure Report where
  /-- How it ended. -/
  ending : Ending
  /-- The state of the machine afterwards. -/
  state : State
  /-- What reached the observers, in order. -/
  events : List Event

namespace Report

/-- The result of the run. -/
def result (r : Report) : Except Error (Option Int) := r.ending.result

/-- The tags that were raised, in order. -/
def tags (r : Report) : List Tag := r.events.filterMap Event.tag?

/-- The lines that the sink took, in order. -/
def lines (r : Report) : List String := r.events.filterMap Event.line?

end Report

/-! ### The run -/

/-- A run under way. -/
structure Config where
  /-- The index of the next instruction. -/
  ip : Nat
  /-- The state of the machine. -/
  state : State
  /-- The lines that the sink has taken, the newest first. -/
  taken : List String
  /-- What has reached the observers, the newest first. -/
  events : List Event

namespace Config

/-- Raises a tag, if the run is traced. -/
def raise (w : Watch) (t : Tag) (c : Config) : Config :=
  if w.trace then { c with events := .tag t :: c.events } else c

/-- Ends a run. -/
def stop (ending : Ending) (c : Config) : Report := ⟨ending, c.state, c.events.reverse⟩

/-- Ends a run at the end of the program. -/
def finish (w : Watch) (c : Config) : Report :=
  let value := c.state.stack.head?
  let popped := { c with state := c.state.withStack c.state.stack.tail }
  (popped.raise w (.halt .finished (.ofNat c.ip) (value.map toString))).stop (.finished value)

/-- Ends a run by an error of the sink. A diagnosed one is traced. -/
def refuse (w : Watch) (e : Error) (c : Config) : Report :=
  match e with
  | .diagnosed d => (c.raise w (d.tag c.ip)).stop (.refused e)
  | .defect _ => c.stop (.refused e)

/-- Hands a printed value to the sink, which may end the run. -/
def print (w : Watch) (value : Int) (c : Config) : Config ⊕ Report :=
  let text := toString value
  let c := c.raise w (.emit (.ofNat c.ip) text)
  match w.sink c.taken text with
  | none =>
    .inl { c with ip := c.ip + 1, taken := text :: c.taken, events := .line text :: c.events }
  | some e => .inr ({ c with events := .refused text :: c.events }.refuse w e)

/-- Dispatches an instruction, which may end the run. -/
def dispatch (w : Watch) (ins : Instr) (c : Config) : Config ⊕ Report :=
  match step ins c.state with
  | .next s => .inl { c with ip := c.ip + 1, state := s }
  | .print value s => { c with state := s }.print w value
  | .jump label target s =>
    let raised := c.raise w (.jump (.ofNat c.ip) (.ofNat target) (.ofNat label))
    .inl { raised with ip := target, state := s }
  | .underflow s =>
    .inr (({ c with state := s }.raise w (.halt .underflow (.ofNat c.ip) none)).stop .underflow)
  | .fault cause s =>
    let f : Fault := ⟨c.ip, cause⟩
    .inr (({ c with state := s }.raise w (f.diagnostic.tag c.ip)).stop (.faulted f))
  | .unknown => .inr (c.stop .unknownOpcode)

/-- Dispatches instructions until the run ends or the budget is used up. -/
def run (w : Watch) (code : Array Instr) : Nat → Config → Report
  | 0, c =>
    match code[c.ip]? with
    | none => c.finish w
    | some _ => c.stop .exhausted
  | budget + 1, c =>
    match code[c.ip]? with
    | none => c.finish w
    | some ins =>
      match c.dispatch w ins with
      | .inl next => next.run w code budget
      | .inr report => report

/-- A run that ends within its budget ends the same way within any larger one. -/
theorem run_mono {w : Watch} {code : Array Instr} {b b' : Nat} {c : Config} (hb : b ≤ b')
    (h : (c.run w code b).ending ≠ .exhausted) : c.run w code b' = c.run w code b := by
  induction b generalizing b' c with
  | zero =>
    cases hc : code[c.ip]? with
    | none => cases b' <;> simp only [run, hc]
    | some ins => simp [run, hc, stop] at h
  | succ b ih =>
    obtain ⟨b', rfl⟩ : ∃ k, b' = k + 1 := ⟨b' - 1, by omega⟩
    cases hc : code[c.ip]? with
    | none => simp only [run, hc]
    | some ins =>
      cases hd : c.dispatch w ins with
      | inl next =>
        simp only [run, hc, hd] at h ⊢
        exact ih (by omega) h
      | inr report => simp only [run, hc, hd]

end Config

/-- Runs a program on a machine: binds its labels, then dispatches its instructions from
the first one on, at most as many as the budget allows. -/
def execute (w : Watch) (budget : Nat) (program : Program) (s : State) : Report :=
  let binding := s.table.bindAll program
  let raised := if w.trace then binding.bound.map fun (label, index) =>
    Event.tag (.bind label (.ofNat index)) else []
  let c : Config := ⟨0, { s with table := binding.table }, [], raised.reverse⟩
  match binding.fault with
  | some f => (c.raise w (f.diagnostic.tag 0)).stop (.faulted f)
  | none => c.run w program.toArray budget

/-- A program that ends within a budget ends the same way within any larger one. -/
theorem execute_mono {w : Watch} {b b' : Nat} {program : Program} {s : State} (hb : b ≤ b')
    (h : (execute w b program s).ending ≠ .exhausted) :
    execute w b' program s = execute w b program s := by
  unfold execute at h ⊢
  cases hf : (s.table.bindAll program).fault with
  | some f => simp only [hf]
  | none =>
    simp only [hf] at h ⊢
    exact Config.run_mono hb h

end StackMachine
