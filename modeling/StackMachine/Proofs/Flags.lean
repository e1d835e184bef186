import StackMachine.Proofs.FirstReads
import StackMachine.Proofs.Isolation

/-!
# Flags are read once

The machines of a session and its trace log share the remembered flags of the environment, and
two parties ask for them. A machine that is not told whether to trace asks for the one flag when
it is created, and never again. The trace log asks for the other one with every tag that it
records; the tags that a listener of a machine's own hears do not get there.

This module tells for everything that can be done in a session how it uses the environment. The
answer to a question is then found at a first read among these uses.

## Main definitions

* `Call.recorded`, `Call.uses`: the tags that a call records, and its uses of the environment.
* `Deed`, `Session.after`, `Session.uses`: what is done in a session, and its uses of the
  environment.

## Main results

* `Session.call_effect`: a call changes the environment by its uses, and the trace log by the tags
  that it records.
* `Session.reset_held_after_create`: a machine keeps the choices of its creation.
* `flags_read_once`: **the answer to a question is that of the first read since the last
  `forget`, and whether a machine traces is settled at its creation.**
-/

namespace StackMachine

/-! ### What is recorded in the trace log -/

open Environment (Use)

/-- The tags that a machine hands to the trace log, and not to a listener of its own. -/
def Machine.logged (events : List Event) (m : Machine) : List Tag :=
  if m.listener then [] else events.filterMap Event.tag?

/-- What a machine logs of events, it logs of the first and then of the others. -/
theorem Machine.logged_cons (e : Event) (events : List Event) (m : Machine) :
    m.logged (e :: events) = m.logged [e] ++ m.logged events := by
  simp only [logged]
  split
  · rfl
  · exact List.filterMap_append (l := [e])

/-- What a machine that is created with the options asks the environment. -/
def Machine.Options.asked (o : Machine.Options) : List Use :=
  if o.trace.isNone then [.read .trace] else []

/-- A new machine reads at most one flag, and that only when its options leave tracing open. -/
theorem Machine.Options.mem_asked {o : Machine.Options} {u : Use} :
    u ∈ o.asked ↔ u = .read .trace ∧ o.trace = none := by
  rw [asked]
  cases o.trace <;> simp

/-- A new machine leaves the environment as its reads do. -/
theorem Machine.create_snd (o : Machine.Options) (env : Environment) :
    (Machine.create o env).2 = env.after o.asked := by
  rw [Machine.create, Machine.Options.asked]
  cases o.trace <;> rfl

/-- A new machine traces as its options say, or else as the flag reads. -/
theorem Machine.tracing_create (o : Machine.Options) (env : Environment) :
    (Machine.create o env).1.tracing = o.trace.getD (env.read .trace).1 := by
  rw [Machine.create]
  cases o.trace <;> rfl

namespace Session

variable {s s' : Session} {m : Machine}

/-- The environment and the trace log of a session have come from those of another one by
recording tags. -/
structure Records (tags : List Tag) (s s' : Session) : Prop where
  env : s'.env = s.env.after (List.replicate tags.length (.read .stderr))
  log : s'.log = tags.foldl (fun log t => log.record t) s.log

/-- By recording nothing a session comes from itself. -/
theorem records_nil (s : Session) : Records [] s s := ⟨rfl, rfl⟩

/-- A recorded tag asks for the flag. -/
theorem records_record (t : Tag) (s : Session) : Records [t] s (s.record t) := ⟨rfl, rfl⟩

/-- Recording tags after others records both. -/
theorem Records.trans {tags tags' : List Tag} {s'' : Session} (h : Records tags s s')
    (h' : Records tags' s' s'') : Records (tags ++ tags') s s'' where
  env := by
    rw [h'.env, h.env, ← Environment.after_append, List.replicate_append_replicate,
      List.length_append, Nat.add_comm]
  log := by rw [h'.log, h.log, List.foldl_append]

/-- An event is recorded if it is a tag and the machine has no listener of its own. -/
theorem records_deliver (s : Session) (m : Machine) (e : Event) :
    Records (m.logged [e]) s (s.deliver m e).1 := by
  cases e with
  | tag t =>
      rw [Machine.logged, deliver]
      split
      · exact records_nil s
      · exact records_record t s
  | line text =>
      rw [Machine.logged, deliver]
      cases m.output <;> cases m.listener <;> exact ⟨rfl, rfl⟩
  | refused text =>
      rw [Machine.logged]
      cases m.listener <;> exact ⟨rfl, rfl⟩

/-- Delivering events records what the machine logs of them. -/
theorem records_deliverAll (events : List Event) (s : Session) (m : Machine) :
    Records (m.logged events) s (deliverAll events s m).1 := by
  induction events generalizing s m with
  | nil =>
      rw [Machine.logged, List.filterMap_nil, ite_self]
      exact records_nil s
  | cons e events ih =>
      have hlogged : (s.deliver m e).2.logged events = m.logged events := by
        rw [deliver_eq_receive]
        rfl
      have hrest := ih (s.deliver m e).1 (s.deliver m e).2
      rw [hlogged] at hrest
      rw [Machine.logged_cons]
      exact (records_deliver s m e).trans hrest

/-- A run of a machine records what the machine logs of its events. -/
theorem records_runOn (budget : Nat) (m : Machine) (p : Program) (s : Session) :
    Records (m.logged (m.execute budget p).events) s (s.runOn budget m p).2.1 :=
  records_deliverAll _ s { m with state := (m.execute budget p).state }

/-- The tags that a program on the machine of a name adds to the trace log. -/
def tagsOf (budget : Nat) (name : String) (code : Supply) (s : Session) : List Tag :=
  match code.load, s.machines.lookup name with
  | .ok p, some m => m.logged (m.execute budget p).events
  | _, _ => []

/-- A program or a source run on a named machine records the tags of that run. -/
theorem records_execute (budget : Nat) (name : String) (code : Supply) (s : Session) :
    Records (s.tagsOf budget name code) s (s.execute budget name code).2 := by
  rw [tagsOf, Session.execute]
  rcases code.load with d | p
  · exact records_nil s
  · rcases s.machines.lookup name with _ | m
    · exact records_nil s
    · have h := records_runOn budget m p s
      exact ⟨h.env, h.log⟩

end Session

namespace Call

/-- The tags that a call adds to the trace log. -/
def recorded (budget : Nat) (c : Call) (s : Session) : List Tag :=
  match c with
  | .record t => [t]
  | .execute name code => s.tagsOf budget name code
  | .tryExecute name code => s.tagsOf budget name code
  | .interpret source trace =>
    let m := (Machine.create ⟨trace, false, .collected none⟩ s.env).1
    match Source.compile source with
    | .ok p => m.logged (m.execute budget p).events
    | .error _ => []
  | _ => []

/-- The uses that a call makes of the environment before it records a tag. -/
def asked : Call → List Use
  | .setVariable name value => [.set name value]
  | .forgetFlags => [.forget]
  | .readFlags => [.read .stderr, .read .trace]
  | .create _ o => o.asked
  | .interpret _ trace => Machine.Options.asked ⟨trace, false, .collected none⟩
  | _ => []

/-- All uses that a call makes of the environment, the newest first. -/
def uses (budget : Nat) (c : Call) (s : Session) : List Use :=
  List.replicate (c.recorded budget s).length (.read .stderr) ++ c.asked

/-- A call reads the flag of the error stream if it records tags, and what it asks for itself. -/
theorem mem_uses {budget : Nat} {c : Call} {s : Session} {u : Use} :
    u ∈ c.uses budget s ↔ c.recorded budget s ≠ [] ∧ u = .read .stderr ∨ u ∈ c.asked := by
  rw [uses, List.mem_append, List.mem_replicate, ne_eq, List.length_eq_zero_iff]

end Call

namespace Session

/-- A source that is interpreted records the tags of its run, after its flag was read. -/
theorem records_interpret (budget : Nat) (source : String) (trace : Option Bool) (s : Session) :
    Records (Call.recorded budget (.interpret source trace) s)
      { s with env := s.env.after (Call.asked (.interpret source trace)) }
      (s.interpret budget source trace).2 := by
  rw [Call.asked, ← Machine.create_snd]
  simp only [Call.recorded, Session.interpret]
  rcases Source.compile source with bad | p
  · exact records_nil _
  · exact records_runOn budget _ p _

/-- **A call changes the environment by its uses**, and the trace log by the tags that it
records. -/
theorem call_effect (budget : Nat) {c : Call} (hsingle : c.IsSingle) (s : Session) :
    (s.call budget c).2.env = s.env.after (c.uses budget s) ∧
      (c ≠ .take → (s.call budget c).2.log =
        (c.recorded budget s).foldl (fun log t => log.record t) s.log) := by
  -- Both calls that run a program, and the three that look at a machine, are alike here.
  have hexecute : ∀ name code,
      (s.execute budget name code).2.env = s.env.after
          (List.replicate (s.tagsOf budget name code).length (.read .stderr) ++ []) ∧
        ((s.execute budget name code).2.log =
          (s.tagsOf budget name code).foldl (fun log t => log.record t) s.log) := by
    intro name code
    have h := records_execute budget name code s
    rw [List.append_nil]
    exact ⟨h.env, h.log⟩
  have hwith : ∀ name f, (s.withMachine name f).2.env = s.env ∧
      (s.withMachine name f).2.log = s.log := by
    intro name f
    rw [withMachine]
    split <;> exact ⟨rfl, rfl⟩
  cases c with
  | execute name code => exact ⟨(hexecute name code).1, fun _ => (hexecute name code).2⟩
  | tryExecute name code => exact ⟨(hexecute name code).1, fun _ => (hexecute name code).2⟩
  | interpret source trace =>
      have h := records_interpret budget source trace s
      rw [Call.uses, Environment.after_append]
      exact ⟨h.env, fun _ => h.log⟩
  | create name o => exact ⟨Machine.create_snd o s.env, fun _ => rfl⟩
  | reset name => exact ⟨(hwith name _).1, fun _ => (hwith name _).2⟩
  | inspect name => exact ⟨(hwith name _).1, fun _ => (hwith name _).2⟩
  | dump name => exact ⟨(hwith name _).1, fun _ => (hwith name _).2⟩
  | take => exact ⟨rfl, fun h => absurd rfl h⟩
  | scope rethrow body => exact absurd rfl (hsingle rethrow body)
  | _ => exact ⟨rfl, fun _ => rfl⟩

end Session

/-! ### What is done in a session -/

/-- Something that is done in a session. A scope is opened and closed by deeds of their own, so
that anything can be done in between. -/
inductive Deed where
  /-- A flag is asked for. -/
  | read (f : Flag)
  /-- A call is made that is not a scope. -/
  | call (c : Call) (single : c.IsSingle)
  /-- A call is answered. -/
  | answer (c : Call) (reply : Except Error Reply)
  /-- A scope of the trace log is opened. -/
  | enter
  /-- The innermost scope is closed. -/
  | leave

namespace Deed

/-- The call that is made. -/
def call? : Deed → Option Call
  | call c _ => some c
  | _ => none

/-- The session after a deed. -/
def perform (budget : Nat) : Deed → Session → Session
  | read f, s => { s with env := (s.env.read f).2 }
  | call c _, s => (s.call budget c).2
  | answer c reply, s => (s.answer c reply).2
  | enter, s => { s with log := s.log.enter }
  | leave, s => { s with log := s.log.leave.2 }

/-- The tags that a deed adds to the trace log. -/
def recorded (budget : Nat) : Deed → Session → List Tag
  | call c _, s => c.recorded budget s
  | _, _ => []

/-- The uses that a deed makes of the environment, the newest first. -/
def uses (budget : Nat) : Deed → Session → List Use
  | read f, _ => [.read f]
  | call c _, s => c.uses budget s
  | _, _ => []

variable (budget : Nat) (d : Deed) (s : Session)

/-- **The environment changes by the uses of a deed.** -/
theorem env_perform : (d.perform budget s).env = s.env.after (d.uses budget s) := by
  cases d with
  | read f => rfl
  | call c single => exact (Session.call_effect budget single s).1
  | answer c reply =>
      rw [perform, Session.answer]
      split <;> rfl
  | enter => rfl
  | leave => rfl

/-- Only the call that sets a variable does so. -/
theorem set_mem_uses (n : String) (v : Option String) :
    .set n v ∈ d.uses budget s ↔ d.call? = some (.setVariable n v) := by
  cases d with
  | call c single =>
      rw [uses, Call.mem_uses, call?]
      cases c <;> simp [Call.asked, Machine.Options.mem_asked, eq_comm (a := n), eq_comm (a := v)]
  | _ => simp [uses, call?]

/-- Only the call that forgets the flags does so. -/
theorem forget_mem_uses : .forget ∈ d.uses budget s ↔ d.call? = some .forgetFlags := by
  cases d with
  | call c single =>
      rw [uses, Call.mem_uses, call?]
      cases c <;> simp [Call.asked, Machine.Options.mem_asked]
  | _ => simp [uses, call?]

/-- Whether to trace is asked by those who want to know, and for new machines that are not told. -/
theorem read_trace_mem_uses : .read .trace ∈ d.uses budget s ↔
    d = .read .trace ∨ d.call? = some .readFlags ∨
      (∃ name o, d.call? = some (.create name o) ∧ o.trace = none) ∨
      ∃ source, d.call? = some (.interpret source none) := by
  cases d with
  | read f => simp [uses, call?, eq_comm]
  | call c single =>
      rw [uses, Call.mem_uses, call?]
      cases c <;> simp [Call.asked, Machine.Options.mem_asked]
  | _ => simp [uses, call?]

/-- Whether to copy the trace is asked by those who want to know, and for tags that are
recorded. -/
theorem read_stderr_mem_uses : .read .stderr ∈ d.uses budget s ↔
    d = .read .stderr ∨ d.call? = some .readFlags ∨ d.recorded budget s ≠ [] := by
  cases d with
  | read f => simp [uses, call?, recorded, eq_comm]
  | call c single =>
      rw [uses, Call.mem_uses, call?, recorded]
      cases c <;> simp [Call.asked, Machine.Options.mem_asked]
  | _ => simp [uses, call?, recorded]

variable {d} {name : String}

/-- What is recorded is added to the trace log. Only scopes and the call that takes tags from
there do something else to it. -/
theorem log_perform (htake : d.call? ≠ some .take) (henter : d ≠ .enter) (hleave : d ≠ .leave) :
    (d.perform budget s).log =
      (d.recorded budget s).foldl (fun log t => log.record t) s.log := by
  cases d with
  | read f => rfl
  | call c single =>
      exact (Session.call_effect budget single s).2 fun hc => htake (congrArg some hc)
  | answer c reply =>
      rw [perform, Session.answer]
      split <;> rfl
  | enter => exact absurd rfl henter
  | leave => exact absurd rfl hleave

/-- Nothing but a new machine in its place changes what was chosen at its creation. -/
theorem reset_held_perform (hcreate : ∀ o, d.call? ≠ some (.create name o)) :
    ((d.perform budget s).held name).map Machine.reset = (s.held name).map Machine.reset := by
  cases d with
  | read f => rfl
  | call c single =>
      exact Moment.reset_held_after budget (m := ⟨s, c⟩) single
        fun o hc => hcreate o (congrArg some hc)
  | answer c reply => rw [perform, (Session.steady_held name).answer]
  | enter => rfl
  | leave => rfl

end Deed

namespace Session

/-- The session after deeds, the newest first. -/
def after (budget : Nat) (s : Session) : List Deed → Session
  | [] => s
  | d :: earlier => d.perform budget (s.after budget earlier)

/-- The uses that deeds make of the environment, the newest first. -/
def uses (budget : Nat) (s : Session) : List Deed → List Use
  | [] => []
  | d :: earlier => d.uses budget (s.after budget earlier) ++ s.uses budget earlier

variable (budget : Nat) {s : Session}

/-- A history in two parts leads on from where the earlier part leads. -/
theorem after_append (later earlier : List Deed) :
    s.after budget (later ++ earlier) = (s.after budget earlier).after budget later := by
  induction later with
  | nil => rfl
  | cons d later ih => rw [List.cons_append, after, ih, after]

/-- The environment after a history of deeds is the one after its uses. -/
theorem env_after (history : List Deed) :
    (s.after budget history).env = s.env.after (s.uses budget history) := by
  induction history with
  | nil => rfl
  | cons d earlier ih => rw [after, Deed.env_perform, ih, uses, Environment.after_append]

/-- **A machine keeps the choices of its creation**, whatever is done afterwards. -/
theorem reset_held_after_create {name : String} {o : Machine.Options} {made : Deed}
    {between : List Deed} (hmade : made.call? = some (.create name o))
    (hbetween : ∀ d ∈ between, ∀ o', d.call? ≠ some (.create name o')) (past : List Deed) :
    ((s.after budget (between ++ made :: past)).held name).map Machine.reset =
      some ⟨o.trace.getD ((s.after budget past).env.read .trace).1, o.listener, o.output,
        .initial, [], []⟩ := by
  induction between with
  | nil =>
      cases made with
      | call c single =>
          obtain rfl : c = .create name o := Option.some.inj hmade
          have hheld := (Moment.observe_of_create budget
            (m := ⟨s.after budget past, .create name o⟩) rfl).2
          rw [Machine.tracing_create] at hheld
          exact congrArg (Option.map Machine.reset) hheld
      | _ => cases hmade
  | cons d between ih =>
      obtain ⟨hd, hbetween⟩ := List.forall_mem_cons.1 hbetween
      rw [List.cons_append, after, Deed.reset_held_perform budget _ hd, ih hbetween]

mutual

/-- A call is a list of deeds. -/
theorem exists_deeds_call (budget : Nat) (c : Call) (s : Session) :
    ∃ deeds, (s.call budget c).2 = s.after budget deeds := by
  rcases c.isSingle_or_scope with hsingle | ⟨rethrow, body, rfl⟩
  · exact ⟨[.call c hsingle], rfl⟩
  · obtain ⟨deeds, hdeeds⟩ := exists_deeds_callAll budget rethrow body { s with log := s.log.enter }
    -- The newest deed stands first, so the scope is opened by the last one in the list.
    refine ⟨.leave :: (deeds ++ [.enter]), ?_⟩
    rw [after, after_append, call]
    simp only [hdeeds]
    rfl

/-- **Deeds are all that there is**: what calls do, in scopes or not, and whether or not an error
leaves one, is done by deeds. -/
theorem exists_deeds_callAll (budget : Nat) (rethrow : Bool) (calls : List Call) (s : Session) :
    ∃ deeds, (s.callAll budget rethrow calls).2 = s.after budget deeds := by
  match calls with
  | [] => exact ⟨[], rfl⟩
  | c :: rest =>
      obtain ⟨deeds, hdeeds⟩ := exists_deeds_call budget c s
      have hrest : ∀ reply, ∃ later, (callAll budget rethrow rest
          ((s.call budget c).2.answer c reply).2).2 = s.after budget later := by
        intro reply
        obtain ⟨later, hlater⟩ := exists_deeds_callAll budget rethrow rest
          ((s.call budget c).2.answer c reply).2
        refine ⟨later ++ .answer c reply :: deeds, ?_⟩
        rw [hlater, after_append, after, ← hdeeds]
        rfl
      rw [callAll]
      rcases hstep : s.call budget c with ⟨reply, s'⟩
      rw [hstep] at hdeeds hrest
      cases rethrow with
      | false => exact hrest reply
      | true =>
          cases reply with
          | error e => exact ⟨deeds, hdeeds⟩
          | ok reply => exact hrest (.ok reply)

end

end Session

/-! ### The tags of a machine -/

/-- A machine that traces raises tags, and no other one does. -/
theorem Machine.tags_execute (budget : Nat) (p : Program) (m : Machine) :
    (m.execute budget p).tags =
      if m.tracing then (StackMachine.execute ⟨true, m.sink⟩ budget p m.state).tags else [] := by
  rw [Machine.execute]
  cases m.tracing with
  | true => rfl
  | false =>
      rw [execute_untraced, Report.tags_mute]
      rfl

/-- A machine with a listener of its own hands it all tags; any other machine hands it none. -/
theorem Machine.filterMap_tag? (events : List Event) (m : Machine) :
    events.filterMap m.tag? = if m.listener then events.filterMap Event.tag? else [] := by
  have htag : m.tag? = fun e => if m.listener then e.tag? else none := rfl
  rw [htag]
  cases m.listener with
  | true => rfl
  | false => exact List.filterMap_none events

/-- The tags of a program go to the trace log, or else to the listener of the machine. -/
theorem Session.tags_call {budget : Nat} {name : String} {s : Session} {m : Machine} {c : Call}
    {code : Supply} {p : Program} (hm : s.machines.lookup name = some m)
    (hc : c = .execute name code ∨ c = .tryExecute name code) (hload : code.load = .ok p) :
    c.recorded budget s = (if m.listener then [] else (m.execute budget p).tags) ∧
      ((s.call budget c).2.machines.lookup name).map Machine.heard =
        some ((if m.listener then (m.execute budget p).tags else []).reverse ++ m.heard) := by
  have hrecorded : s.tagsOf budget name code =
      if m.listener then [] else (m.execute budget p).tags := by
    rw [tagsOf, hload, hm]
    rfl
  have hheard : (m.follow (m.execute budget p)).heard =
      (if m.listener then (m.execute budget p).tags else []).reverse ++ m.heard := by
    rw [Report.tags, ← Machine.filterMap_tag?]
    rfl
  have hsubject : c.subject? = some name := by rcases hc with rfl | rfl <;> rfl
  have hserved : (m.serve budget c).2 = m.follow (m.execute budget p) := by
    rcases hc with rfl | rfl <;> rw [Machine.serve, hload]
  constructor
  · rcases hc with rfl | rfl <;> exact hrecorded
  · rw [(call_of_present budget hsubject hm).2, if_pos rfl, hserved, Option.map_some, hheard]

/-- A machine, told by what is left of it without its past. -/
theorem Session.exists_of_reset_held {name : String} {s : Session} {new : Machine}
    (h : (s.held name).map Machine.reset = some new) :
    ∃ m, s.machines.lookup name = some m ∧ m.tracing = new.tracing ∧ m.listener = new.listener := by
  obtain ⟨_, hheld, rfl⟩ := Option.map_eq_some_iff.1 h
  obtain ⟨m, hm, rfl⟩ := Option.map_eq_some_iff.1 hheld
  exact ⟨m, hm, rfl, rfl⟩

open Environment (FirstRead SwitchesOn)

/-- **Flags are read once.** Start with any variables, with nothing remembered, and do anything:
set variables, forget the flags, ask for them, create machines, run programs, record tags, open
and close scopes. If a flag is asked for then, the answer is whether its variable was `1` or
`true` at the first read of that flag since the last `forget`, and there is just one such read;
the call that asks for both flags answers likewise.

What is done changes the environment by its uses, and no more. There is one call that sets
variables and one that forgets the flags. Whether to trace is asked for by those who want to know,
and when a machine is created that is not told; whether to copy the trace, by those who want to
know, and for tags that are recorded in the trace log. All calls, in scopes or not, come down to
such deeds.

A machine raises the tags of a traced run, or none at all, as it was told at its creation or as
the flag was then, whatever has been done meanwhile. Its tags are recorded in the trace log, or
they are handed to its listener and not recorded. -/
theorem flags_read_once (b : Nat) (settings : List (String × String)) (history : List Deed) :
    let start : Session := { Session.initial with env := .ofSettings settings }
    let s := start.after b history
    let uses := start.uses b history
    (∀ f, ∃ before, (∀ p, FirstRead f (.read f :: uses) p ↔ p = before) ∧
      ((s.env.read f).1 = true ↔ SwitchesOn (start.env.value? f.variableName before))) ∧
    (s.call b .readFlags).1 = .ok (.flags (s.env.read .trace).1 (s.env.read .stderr).1) ∧
    (∀ d : Deed, (d.perform b s).env = s.env.after (d.uses b s) ∧
      (∀ n v, .set n v ∈ d.uses b s ↔ d.call? = some (.setVariable n v)) ∧
      (.forget ∈ d.uses b s ↔ d.call? = some .forgetFlags) ∧
      (.read .trace ∈ d.uses b s ↔
        d = .read .trace ∨ d.call? = some .readFlags ∨
          (∃ name o, d.call? = some (.create name o) ∧ o.trace = none) ∨
          ∃ source, d.call? = some (.interpret source none)) ∧
      (.read .stderr ∈ d.uses b s ↔
        d = .read .stderr ∨ d.call? = some .readFlags ∨ d.recorded b s ≠ []) ∧
      (d.call? ≠ some .take → d ≠ .enter → d ≠ .leave →
        (d.perform b s).log = (d.recorded b s).foldl (fun log t => log.record t) s.log)) ∧
    (∀ rethrow calls, ∃ deeds, (s.callAll b rethrow calls).2 = start.after b (deeds ++ history)) ∧
    ∀ name o made between past, history = between ++ made :: past →
      made.call? = some (.create name o) →
      (∀ d ∈ between, ∀ o', d.call? ≠ some (.create name o')) →
      let tracing := o.trace.getD ((start.after b past).env.read .trace).1
      ∃ m, s.machines.lookup name = some m ∧
        ∀ c code p, c = .execute name code ∨ c = .tryExecute name code → code.load = .ok p →
          let tags := if tracing then (execute ⟨true, m.sink⟩ b p m.state).tags else []
          (m.execute b p).tags = tags ∧
          c.recorded b s = (if o.listener then [] else tags) ∧
          ((s.call b c).2.machines.lookup name).map Machine.heard =
            some ((if o.listener then tags else []).reverse ++ m.heard) := by
  intro start s uses
  refine ⟨?_, ?_, ?_, ?_, ?_⟩
  · intro f
    have hstart : start.env.remembered f = none := by cases f <;> rfl
    rw [show s.env = start.env.after uses from Session.env_after b history]
    exact Environment.read_after hstart uses
  · rw [← Environment.read_read (g := .trace) (f := .stderr)]
    rfl
  · intro d
    exact ⟨d.env_perform b s, d.set_mem_uses b s, d.forget_mem_uses b s, d.read_trace_mem_uses b s,
      d.read_stderr_mem_uses b s, Deed.log_perform b s⟩
  · intro rethrow calls
    obtain ⟨deeds, hdeeds⟩ := Session.exists_deeds_callAll b rethrow calls s
    exact ⟨deeds, hdeeds.trans (Session.after_append b deeds history).symm⟩
  · intro name o made between past hsplit hmade hbetween tracing
    -- What was chosen at the creation is all that is left of a machine that is reset.
    have hkept := Session.reset_held_after_create b (s := start) hmade hbetween past
    rw [← hsplit] at hkept
    obtain ⟨m, hm, htracing, hlistener⟩ := Session.exists_of_reset_held hkept
    refine ⟨m, hm, ?_⟩
    intro c code p hc hload tags
    have htags : (m.execute b p).tags = tags := by
      rw [Machine.tags_execute, htracing]
    rw [← htags, ← show m.listener = o.listener from hlistener]
    exact ⟨rfl, Session.tags_call hm hc hload⟩

/-- A machine that is created while tracing is switched on. It goes on raising tags when tracing
has been switched off and the flags are forgotten, and the first of them asks whether to copy the
trace before that is switched on. -/
theorem flags_read_once_forgotten :
    let between : List Deed := [.call (.setVariable "STACKVM_TRACE_STDERR" (some "1")) nofun,
      .call (.execute "a" (.program [.lit 7, .bare .put])) nofun, .read .trace,
      .call .forgetFlags nofun, .call (.setVariable "STACKVM_TRACE" (some "0")) nofun]
    let past : List Deed := [.call (.setVariable "STACKVM_TRACE" (some "True")) nofun]
    let made : Deed := .call (.create "a" ⟨none, false, .collected none⟩) nofun
    let start : Session := { Session.initial with env := .ofSettings [] }
    let s := start.after 20 (between ++ made :: past)
    (∀ d ∈ between, ∀ o, d.call? ≠ some (.create "a" o)) ∧
    ((start.after 20 past).env.read .trace).1 = true ∧
    (s.env.read .trace).1 = false ∧ (s.env.read .stderr).1 = false ∧
    ∃ m, s.machines.lookup "a" = some m ∧
      ∀ p, (m.execute 20 p).tags = (execute ⟨true, m.sink⟩ 20 p m.state).tags ∧
        Call.recorded 20 (.execute "a" (.program p)) s = (m.execute 20 p).tags := by
  intro between past made start s
  have hbetween : ∀ d ∈ between, ∀ o, d.call? ≠ some (.create "a" o) := by
    simp [between, Deed.call?]
  have htracing : ((start.after 20 past).env.read .trace).1 = true := by decide +kernel
  refine ⟨hbetween, htracing, by decide +kernel, by decide +kernel, ?_⟩
  obtain ⟨-, -, -, -, hfixed⟩ := flags_read_once 20 [] (between ++ made :: past)
  obtain ⟨m, hm, htags⟩ := hfixed "a" _ made between past rfl rfl hbetween
  refine ⟨m, hm, ?_⟩
  intro p
  obtain ⟨hraised, hrecorded, -⟩ := htags _ (.program p) p (.inl rfl) rfl
  rw [hrecorded, hraised]
  exact ⟨if_pos htracing, rfl⟩

end StackMachine
