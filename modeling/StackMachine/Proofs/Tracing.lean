import Mathlib.Data.List.Basic
import StackMachine.Proofs.Labels
import StackMachine.Proofs.Visits

/-!
# What a trace tells, and that it changes nothing

A traced run raises a tag for each label that it binds, for each jump that it takes and
each line that it prints, and one more for the way it ends. The tags come from both passes
over the program, and some are raised before the effect that they report. This module
compares them with the visits of the run, and shows that raising them leaves no mark.

For the comparison an event by which the sink refused a line is looked at as if the line had
been taken, `Event.asTaken`: a trace does not tell the two apart. For the second part a run
is *muted*: its tags are struck out, `Report.mute`, and what is left is the run with tracing
switched off.

## Main definitions

* `Visit.tag?`: the tag of a visit.
* `Closes`: the last tag of a run, told from how it ended.

## Main results

* `Config.exists_events_run`: the events of a run are those of its visits, and a last tag.
* `execute_mute`: a run without a trace is the muted run with one.
* `trace_structure`: **the trace of a run and its transparency**.
-/

namespace StackMachine

/-! ### Tags and handed lines -/

namespace Event

/-- The line that an event hands to the sink, whether it is taken or refused. -/
def handed? : Event → Option String
  | line text | refused text => some text
  | tag _ => none

/-- The event as if the sink had taken the line. -/
def asTaken : Event → Event
  | refused text => line text
  | e => e

/-- Taking a refused line changes no tag. -/
@[simp] theorem tag?_asTaken (e : Event) : e.asTaken.tag? = e.tag? := by cases e <;> rfl

/-- Taking a refused line changes nothing of what was handed over. -/
@[simp] theorem handed?_asTaken (e : Event) : e.asTaken.handed? = e.handed? := by
  cases e <;> rfl

end Event

/-- The lines that a run handed to the sink, in order; the last one may have been refused. -/
def Report.handed (r : Report) : List String := r.events.filterMap Event.handed?

/-- The text of a tag that reports a printed line. -/
def Tag.emitted? : Tag → Option String
  | emit _ text => some text
  | _ => none

namespace Visit

/-- The tag of a visit: a jump that is taken, or a line that is printed. -/
def tag? (v : Visit) : Option Tag :=
  match v.jump? with
  | some (label, target) => some (.jump (.ofNat v.ip) (.ofNat target) (.ofNat label))
  | none => v.print?.map fun value => .emit (.ofNat v.ip) (toString value)

/-- The events of a visit, the sink being willing. -/
def events (w : Watch) (v : Visit) : List Event :=
  v.tag?.toList.flatMap w.raised ++ (v.print?.map fun value => .line (toString value)).toList

end Visit

/-- **The last tag of a run**, told from its visits and how it ended. An error that is
diagnosed is reported with its code and the index that its details name by a number, or
else with that of the last visit; an error that is not diagnosed is not reported. -/
inductive Closes (start : Nat) (visited : List Visit) : Ending → List Tag → Prop where
  | finished (value : Option Int) : Closes start visited (.finished value)
      [.halt .finished (.ofNat (visited.getLast?.elim start Visit.next)) (value.map toString)]
  | underflow {v : Visit} (hlast : visited.getLast? = some v) :
      Closes start visited .underflow [.halt .underflow (.ofNat v.ip) none]
  | named {e : Ending} {d : Diagnostic} {n : Number} (hresult : e.result = .error (.diagnosed d))
      (hip : d.details.lookup "ip" = some (.number n)) : Closes start visited e [.fault d.code n]
  | unnamed {e : Ending} {d : Diagnostic} {v : Visit}
      (hresult : e.result = .error (.diagnosed d))
      (hip : ∀ n, d.details.lookup "ip" ≠ some (.number n))
      (hlast : visited.getLast? = some v) :
      Closes start visited e [.fault d.code (.ofNat v.ip)]
  | defect {e : Ending} {d : Defect} (hresult : e.result = .error (.defect d)) :
      Closes start visited e []

namespace Closes

variable {start : Nat} {v v' : Visit} {visited : List Visit} {e : Ending} {last : List Tag}

/-- A diagnosed error is reported by the tag of its diagnosis. -/
theorem diagnosed {d : Diagnostic} (hresult : e.result = .error (.diagnosed d))
    (hlast : visited.getLast? = some v) : Closes start visited e [d.tag v.ip] := by
  rw [Diagnostic.tag]
  split
  next n hip => exact .named hresult hip
  next hip => exact .unnamed hresult hip hlast

/-- One more visit at the front does not change the last tag. -/
theorem cons (h : Closes v.next visited e last) : Closes start (v :: visited) e last := by
  have hcons : ∀ {u}, visited.getLast? = some u → (v :: visited).getLast? = some u := by
    intro u hu
    rw [List.getLast?_cons, hu]
    rfl
  cases h with
  | finished value =>
      have hnext : (v :: visited).getLast?.elim start Visit.next =
          visited.getLast?.elim v.next Visit.next := by
        rw [List.getLast?_cons]
        cases visited.getLast? <;> rfl
      rw [← hnext]
      exact .finished value
  | underflow hlast => exact .underflow (hcons hlast)
  | named hresult hip => exact .named hresult hip
  | unnamed hresult hip hlast => exact .unnamed hresult hip (hcons hlast)
  | defect hresult => exact .defect hresult

/-- There is no last tag exactly if the run ended by an error that is not diagnosed. -/
theorem eq_nil_iff (h : Closes start visited e last) :
    last = [] ↔ ∃ d, e.result = .error (.defect d) := by
  cases h with
  | finished value => simp [Ending.result]
  | underflow hlast => simp [Ending.result]
  | named hresult hip => simp [hresult]
  | unnamed hresult hip hlast => simp [hresult]
  | defect hresult => simp [hresult]

end Closes

/-! ### The events of a run -/

namespace Watch

variable {w : Watch} {t : Tag}

/-- A raised tag is one event at most, so that its order does not matter. -/
@[simp] theorem reverse_raised : (w.raised t).reverse = w.raised t := by
  rw [raised]
  split <;> rfl

/-- A raised tag is no line, so that it is neither taken nor refused. -/
@[simp] theorem map_asTaken_raised : (w.raised t).map Event.asTaken = w.raised t := by
  rw [raised]
  split <;> rfl

end Watch

namespace Visit

variable {w : Watch} {v : Visit} {s : State}

/-- A visit that jumps raises the tag of its jump. -/
theorem events_of_jump {label target : Nat} (h : step v.ins v.state = .jump label target s) :
    v.events w = w.raised (.jump (.ofNat v.ip) (.ofNat target) (.ofNat label)) := by
  simp [events, tag?, jump?_eq, print?_eq, h, Action.jump?, Action.print?]

/-- A visit that prints raises the tag of its line, and then hands the line over. -/
theorem events_of_print {value : Int} (h : step v.ins v.state = .print value s) :
    v.events w =
      w.raised (.emit (.ofNat v.ip) (toString value)) ++ [.line (toString value)] := by
  simp [events, tag?, jump?_eq, print?_eq, h, Action.jump?, Action.print?]

/-- A visit that neither jumps nor prints has no events. -/
theorem events_eq_nil {a : Action} (h : step v.ins v.state = a) (hjump : a.jump? = none)
    (hprint : a.print? = none) : v.events w = [] := by
  simp [events, tag?, jump?_eq, print?_eq, h, hjump, hprint]

end Visit

namespace Config

variable {w : Watch} {code : Array Instr} {ins : Instr} {c c' : Config} {r : Report}

/-- A dispatch after which the run goes on has the events of its visit. -/
theorem events_of_dispatch_inl (hd : c.dispatch w ins = .inl c') :
    c'.events.map Event.asTaken =
      ((c.visit ins).events w).reverse ++ c.events.map Event.asTaken := by
  obtain ⟨s, hs, rfl⟩ | ⟨v, s, hs, -, rfl⟩ | ⟨label, target, s, hs, rfl⟩ :=
    dispatch_inl_cases hd
  · have hnil : (c.visit ins).events w = [] := Visit.events_eq_nil hs rfl rfl
    rw [hnil]
    rfl
  · have hevents : (c.visit ins).events w =
        w.raised (.emit (.ofNat c.ip) (toString v)) ++ [.line (toString v)] :=
      Visit.events_of_print hs
    simp [hevents, Event.asTaken]
  · have hevents : (c.visit ins).events w =
        w.raised (.jump (.ofNat c.ip) (.ofNat target) (.ofNat label)) :=
      Visit.events_of_jump hs
    simp [hevents]

/-- A dispatch that ends the run has the events of its visit, and then the last tag. -/
theorem exists_events_of_dispatch_inr (hd : c.dispatch w ins = .inr r) :
    ∃ last, Closes c.ip [c.visit ins] r.ending last ∧
      r.events.map Event.asTaken =
        c.events.reverse.map Event.asTaken ++ (c.visit ins).events w ++ last.flatMap w.raised := by
  have hlast : [c.visit ins].getLast? = some (c.visit ins) := rfl
  obtain ⟨v, s, e, hs, -, rfl⟩ | ⟨s, hs, rfl⟩ | ⟨cause, s, hs, rfl⟩ | ⟨hs, rfl⟩ :=
    dispatch_inr_cases hd
  · have hevents : (c.visit ins).events w =
        w.raised (.emit (.ofNat c.ip) (toString v)) ++ [.line (toString v)] :=
      Visit.events_of_print hs
    rw [ending_refuse, hevents]
    cases e with
    | diagnosed d =>
        refine ⟨[d.tag c.ip], .diagnosed rfl hlast, ?_⟩
        simp [refuse, raise_eq, stop, Event.asTaken]
    | defect d =>
        refine ⟨[], .defect rfl, ?_⟩
        simp [refuse, stop, Event.asTaken]
  · have hnil : (c.visit ins).events w = [] := Visit.events_eq_nil hs rfl rfl
    refine ⟨_, .underflow hlast, ?_⟩
    simp [hnil]
  · have hnil : (c.visit ins).events w = [] := Visit.events_eq_nil hs rfl rfl
    refine ⟨_, .diagnosed rfl hlast, ?_⟩
    simp [hnil]
  · have hnil : (c.visit ins).events w = [] := Visit.events_eq_nil hs rfl rfl
    refine ⟨[], .defect rfl, ?_⟩
    simp [hnil, stop]

/-- **The events of a run** are those of its visits in order, and then the last tag. -/
theorem exists_events_run (w : Watch) (code : Array Instr) (b : Nat) (c : Config) :
    ∃ last, Closes c.ip (c.visits w code b) (c.run w code b).ending last ∧
      (c.run w code b).events.map Event.asTaken =
        c.events.reverse.map Event.asTaken ++ (c.visits w code b).flatMap (Visit.events w) ++
          last.flatMap w.raised := by
  induction b generalizing c with
  | zero =>
      cases hc : code[c.ip]? with
      | none =>
          rw [run_of_none hc, visits_of_none hc]
          refine ⟨_, .finished c.state.stack.head?, ?_⟩
          simp [finish, raise_eq, stop]
      | some ins =>
          refine ⟨[], .defect (d := .exhausted) (by simp only [run, hc]; rfl), ?_⟩
          simp [run, hc, stop, visits]
  | succ b ih =>
      cases hc : code[c.ip]? with
      | none =>
          rw [run_of_none hc, visits_of_none hc]
          refine ⟨_, .finished c.state.stack.head?, ?_⟩
          simp [finish, raise_eq, stop]
      | some ins =>
          cases hd : c.dispatch w ins with
          | inl next =>
              obtain ⟨last, hcloses, hevents⟩ := ih next
              rw [run_of_inl hc hd, visits_of_inl hc hd]
              rw [ip_of_dispatch_inl hd] at hcloses
              refine ⟨last, hcloses.cons, ?_⟩
              rw [hevents, List.map_reverse, events_of_dispatch_inl hd]
              simp
          | inr r =>
              obtain ⟨last, hcloses, hevents⟩ := exists_events_of_dispatch_inr hd
              rw [run_of_inr hc hd, visits_of_inr hc hd]
              refine ⟨last, hcloses, ?_⟩
              simpa using hevents

end Config

/-! ### Runs without a trace -/

/-- The events that are left when the tags are struck out. -/
def Event.mute (events : List Event) : List Event := events.filter fun e => e.tag?.isNone

/-- The same observers without a trace. -/
def Watch.mute (w : Watch) : Watch := { w with trace := false }

/-- A run under way without its tags. -/
def Config.mute (c : Config) : Config := { c with events := Event.mute c.events }

/-- What a run leaves, without its tags. -/
def Report.mute (r : Report) : Report := { r with events := Event.mute r.events }

/-- Without its tags, a list of events does not tell what was raised. -/
theorem Watch.mute_raised (w : Watch) (t : Tag) (events : List Event) :
    Event.mute (w.raised t ++ events) = Event.mute events := by
  rw [raised]
  split <;> rfl

namespace Config

/-- A muted watch raises nothing. -/
@[simp] theorem raise_mute (w : Watch) (t : Tag) (c : Config) : c.raise w.mute t = c := rfl

/-- Without its tags, a configuration does not tell what was raised. -/
@[simp] theorem mute_raise (w : Watch) (t : Tag) (c : Config) : (c.raise w t).mute = c.mute := by
  rw [raise_eq, mute, w.mute_raised]
  rfl

/-- Stopping and leaving the tags out commute. -/
@[simp] theorem mute_stop (e : Ending) (c : Config) : (c.stop e).mute = c.mute.stop e := by
  simp only [stop, mute, Report.mute, Event.mute, List.filter_reverse]

/-- Ending on a refused line and leaving the tags out commute. -/
theorem refuse_mute (w : Watch) (e : Error) (c : Config) :
    c.mute.refuse w.mute e = (c.refuse w e).mute := by
  cases e with
  | diagnosed d => rw [refuse, refuse, mute_stop, mute_raise, raise_mute]
  | defect d => rw [refuse, refuse, mute_stop]

/-- Handing a line to the sink, without a trace. -/
theorem print_mute (w : Watch) (value : Int) (c : Config) :
    c.mute.print w.mute value = (c.print w value).map Config.mute Report.mute := by
  have hsink : w.mute.sink = w.sink := rfl
  have htaken : c.mute.taken = c.taken := rfl
  have hraised := w.mute_raised (.emit (.ofNat c.ip) (toString value)) c.events
  simp only [print, raise_mute, hsink, htaken]
  simp only [raise_eq]
  cases w.sink c.taken (toString value) with
  | none =>
      simp only [Sum.map_inl, mute, ← hraised]
      rfl
  | some e =>
      simp only [Sum.map_inr, ← refuse_mute, mute, ← hraised]
      rfl

/-- **A dispatch without a trace** is the muted dispatch. -/
theorem dispatch_mute (w : Watch) (ins : Instr) (c : Config) :
    c.mute.dispatch w.mute ins = (c.dispatch w ins).map Config.mute Report.mute := by
  have hstate : c.mute.state = c.state := rfl
  rw [dispatch, dispatch, hstate]
  cases step ins c.state with
  | next s => rfl
  | print value s => exact print_mute w value { c with state := s }
  | jump label target s =>
      simp only [raise_eq, Sum.map_inl, mute, w.mute_raised]
      rfl
  | underflow s => simp only [Sum.map_inr, mute_stop, mute_raise, raise_mute]; rfl
  | fault cause s => simp only [Sum.map_inr, mute_stop, mute_raise, raise_mute]; rfl
  | unknown => simp only [Sum.map_inr, mute_stop]

/-- **A run without a trace** is the muted run. -/
theorem run_mute (w : Watch) (code : Array Instr) (b : Nat) (c : Config) :
    c.mute.run w.mute code b = (c.run w code b).mute := by
  have hip : c.mute.ip = c.ip := rfl
  induction b generalizing c with
  | zero =>
      rw [run, run, hip]
      cases code[c.ip]? with
      | none => simp only [finish, mute_stop, mute_raise, raise_mute]; rfl
      | some ins => simp only [mute_stop]
  | succ b ih =>
      rw [run, run, hip]
      cases code[c.ip]? with
      | none => simp only [finish, mute_stop, mute_raise, raise_mute]; rfl
      | some ins =>
          simp only [dispatch_mute]
          cases c.dispatch w ins with
          | inl next => exact ih next rfl
          | inr r => rfl

/-- The visits of a run from a configuration are the same untraced. -/
theorem visits_mute (w : Watch) (code : Array Instr) (b : Nat) (c : Config) :
    c.mute.visits w.mute code b = c.visits w code b := by
  have hip : c.mute.ip = c.ip := rfl
  induction b generalizing c with
  | zero => rfl
  | succ b ih =>
      rw [visits, visits, hip]
      cases code[c.ip]? with
      | none => rfl
      | some ins =>
          simp only [dispatch_mute]
          cases c.dispatch w ins with
          | inl next => exact congrArg (c.visit ins :: ·) (ih next rfl)
          | inr r => rfl

/-- An untraced run starts as the traced one does, without its tags. -/
theorem start_mute (w : Watch) (p : Program) (s : State) :
    start w.mute p s = (start w p s).mute := by
  have hnil : Event.mute (start w p s).events = [] := by
    rw [Event.mute, List.filter_eq_nil_iff]
    intro e he
    rw [start, List.mem_reverse] at he
    split at he
    · obtain ⟨bound, -, rfl⟩ := List.mem_map.1 he
      simp [Event.tag?]
    · cases he
  rw [mute, hnil]
  rfl

end Config

/-- **A program without a trace** runs as the muted program does. -/
theorem execute_mute (w : Watch) (b : Nat) (p : Program) (s : State) :
    execute w.mute b p s = (execute w b p s).mute := by
  rw [execute_eq, execute_eq, Config.start_mute]
  cases (s.table.bindAll p).fault with
  | some f => simp only [Config.mute_stop, Config.mute_raise, Config.raise_mute]
  | none => exact Config.run_mute w p.toArray b _

/-- The visits of a run are the same untraced. -/
theorem visits_mute (w : Watch) (b : Nat) (p : Program) (s : State) :
    visits w.mute b p s = visits w b p s := by
  rw [visits, visits, Config.start_mute]
  cases (s.table.bindAll p).fault with
  | some f => rfl
  | none => exact Config.visits_mute w p.toArray b _

/-! ### The trace of a program -/

/-- The tags of labels with their positions. -/
def Tag.binds (bound : List (Number × Nat)) : List Tag :=
  bound.map fun (label, index) => .bind label (.ofNat index)

/-- The events of a program: its labels, its visits, and the last tag. -/
theorem exists_events_execute (w : Watch) (b : Nat) (p : Program) (s : State) :
    ∃ last, Closes 0 (visits w b p s) (execute w b p s).ending last ∧
      (execute w b p s).events.map Event.asTaken =
        (Tag.binds (s.table.bindAll p).bound).flatMap w.raised ++
          (visits w b p s).flatMap (Visit.events w) ++ last.flatMap w.raised := by
  have hstart : (Config.start w p s).events.reverse.map Event.asTaken =
      (Tag.binds (s.table.bindAll p).bound).flatMap w.raised := by
    rw [Config.start, List.reverse_reverse, Tag.binds, List.flatMap_map]
    cases htrace : w.trace with
    | true =>
        simp only [Watch.raised, htrace, if_true, List.map_map]
        rw [← List.map_eq_flatMap]
        rfl
    | false => simp [Watch.raised, htrace]
  cases hfault : (s.table.bindAll p).fault with
  | some f =>
      have hvisits : visits w b p s = [] := by simp only [visits, hfault]
      rw [execute_of_fault w b hfault, hvisits]
      refine ⟨[f.diagnostic.tag 0], .named rfl rfl, ?_⟩
      simp [Config.raise_eq, Config.stop, ← hstart]
  | none =>
      have hvisits : visits w b p s = (Config.start w p s).visits w p.toArray b := by
        simp only [visits, hfault]
      obtain ⟨last, hcloses, hevents⟩ :=
        Config.exists_events_run w p.toArray b (Config.start w p s)
      rw [execute_eq, hfault, hvisits]
      exact ⟨last, hcloses, hstart ▸ hevents⟩

namespace Visit

/-- A visit that jumps does not print, so its tag reports what it prints. -/
theorem emitted?_tag? (v : Visit) : v.tag?.bind Tag.emitted? = v.print?.map toString := by
  rw [tag?, jump?_eq, print?_eq]
  cases step v.ins v.state <;> rfl

/-- The events of a traced visit hold its tag, if it has one, and no other. -/
theorem filterMap_tag?_events {w : Watch} (htrace : w.trace = true) (v : Visit) :
    (v.events w).filterMap Event.tag? = v.tag?.toList := by
  cases htag : v.tag? <;> cases hprint : v.print? <;>
    simp [events, htag, hprint, Watch.raised, htrace, Event.tag?]

/-- The events of a visit hand over what it prints, and nothing else. -/
theorem filterMap_handed?_events (w : Watch) (v : Visit) :
    (v.events w).filterMap Event.handed? = (v.print?.map toString).toList := by
  cases htag : v.tag? <;> cases hprint : v.print? <;> cases htrace : w.trace <;>
    simp [events, htag, hprint, Watch.raised, htrace, List.filterMap_cons, Event.handed?]

end Visit

namespace Watch

variable {w : Watch}

/-- The tags of raised tags are these tags. -/
theorem filterMap_tag?_raised (htrace : w.trace = true) (tags : List Tag) :
    (tags.flatMap w.raised).filterMap Event.tag? = tags := by
  simp [List.filterMap_flatMap, raised, htrace, Event.tag?]

/-- Raising tags hands no line to the sink. -/
theorem filterMap_handed?_raised (w : Watch) (tags : List Tag) :
    (tags.flatMap w.raised).filterMap Event.handed? = [] := by
  cases htrace : w.trace <;> simp [List.filterMap_flatMap, raised, htrace, Event.handed?]

end Watch

/-- The last tag reports no line. -/
theorem Closes.filterMap_emitted? {start : Nat} {visited : List Visit} {e : Ending}
    {last : List Tag} (h : Closes start visited e last) : last.filterMap Tag.emitted? = [] := by
  cases h <;> rfl

/-- The tags of a run are those of its events, whichever lines the sink took. -/
theorem Report.tags_eq (r : Report) :
    r.tags = (r.events.map Event.asTaken).filterMap Event.tag? := by
  rw [List.filterMap_map, tags]
  congr 1
  funext e
  exact (Event.tag?_asTaken e).symm

/-- The handed lines of a run are those of its events, whichever lines the sink took. -/
theorem Report.handed_eq (r : Report) :
    r.handed = (r.events.map Event.asTaken).filterMap Event.handed? := by
  rw [List.filterMap_map, handed]
  congr 1
  funext e
  exact (Event.handed?_asTaken e).symm

/-- The tags of a traced program are those of its labels and of its visits, and the last
one; the lines that it hands to the sink are those of its visits. -/
theorem exists_tags_execute {w : Watch} (htrace : w.trace = true) (b : Nat) (p : Program)
    (s : State) :
    ∃ last, Closes 0 (visits w b p s) (execute w b p s).ending last ∧
      (execute w b p s).tags =
        Tag.binds (s.table.bindAll p).bound ++ (visits w b p s).filterMap Visit.tag? ++ last ∧
      (execute w b p s).handed =
        (visits w b p s).filterMap fun v => v.print?.map toString := by
  obtain ⟨last, hcloses, hevents⟩ := exists_events_execute w b p s
  refine ⟨last, hcloses, ?_, ?_⟩
  · rw [Report.tags_eq, hevents, List.filterMap_append, List.filterMap_append,
      Watch.filterMap_tag?_raised htrace, Watch.filterMap_tag?_raised htrace,
      List.filterMap_flatMap, List.filterMap_eq_flatMap_toList Visit.tag?]
    simp only [Visit.filterMap_tag?_events htrace]
  · rw [Report.handed_eq, hevents, List.filterMap_append, List.filterMap_append,
      Watch.filterMap_handed?_raised, Watch.filterMap_handed?_raised, List.filterMap_flatMap,
      List.filterMap_eq_flatMap_toList]
    simp only [Visit.filterMap_handed?_events, List.nil_append, List.append_nil]

/-- **The trace of a run, and its transparency.** Take any state, any program and any sink,
also one that refuses lines.

The tags of the traced run are, in order: one for each label of the program up to the first
one that is out of order, or for all of them if there is none; one for each visit that takes
a jump and one for each visit that prints; and a last one that closes the trace, unless the
run ended by an error that is not diagnosed. The texts of the tags for printed lines are the
lines that were handed to the sink, the refused one included.

The run without a trace raises no tag, dispatches the same instructions, ends in the same
way and in the same state, and hands the sink the same lines with the same success. -/
theorem trace_structure (sink : Sink) (b : Nat) (p : Program) (s : State) :
    let traced := execute ⟨true, sink⟩ b p s
    let visited := visits ⟨true, sink⟩ b p s
    let silent := execute ⟨false, sink⟩ b p s
    (∃ k last,
      (∀ i, i < k → ¬s.table.OutOfOrder p i) ∧ (s.table.OutOfOrder p k ∨ k = p.length) ∧
      traced.tags =
        Tag.binds (Program.labelsFrom 0 (p.take k)) ++ visited.filterMap Visit.tag? ++ last ∧
      Closes 0 visited traced.ending last ∧
      (last = [] ↔ ∃ d, traced.result = .error (.defect d))) ∧
    traced.tags.filterMap Tag.emitted? = traced.handed ∧
    silent.tags = [] ∧ visits ⟨false, sink⟩ b p s = visited ∧
    silent.result = traced.result ∧ silent.state = traced.state ∧
    silent.events = traced.events.filter fun e => e.tag?.isNone := by
  intro traced visited silent
  obtain ⟨last, hcloses, htags, hhanded⟩ :=
    exists_tags_execute (w := ⟨true, sink⟩) rfl b p s
  obtain ⟨k, hbefore, hstop, hbound⟩ := s.table.exists_stop p
  rw [hbound] at htags
  have hmute : silent = traced.mute := execute_mute ⟨true, sink⟩ b p s
  refine ⟨⟨k, last, hbefore, hstop, htags, hcloses, hcloses.eq_nil_iff⟩, ?_, ?_⟩
  · have hbinds : (Tag.binds (Program.labelsFrom 0 (p.take k))).filterMap Tag.emitted? = [] := by
      refine List.filterMap_eq_nil_iff.2 ?_
      intro t ht
      obtain ⟨bound, -, rfl⟩ := List.mem_map.1 ht
      rfl
    rw [htags, hhanded, List.filterMap_append, List.filterMap_append, hbinds,
      hcloses.filterMap_emitted?, List.filterMap_filterMap]
    simp only [Visit.emitted?_tag?, List.nil_append, List.append_nil]
  · rw [hmute]
    refine ⟨?_, visits_mute ⟨true, sink⟩ b p s, rfl, rfl, rfl⟩
    refine List.filterMap_eq_nil_iff.2 ?_
    intro e he
    simpa using (List.mem_filter.1 he).2

end StackMachine
