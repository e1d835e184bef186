import StackMachine.Proofs.Agreement
import StackMachine.Proofs.History
import StackMachine.Proofs.Moments

/-!
# Calls and the machines that they concern

A call that concerns a machine runs a program on it, resets it or asks for its state, and the
events of a run go to whom they may concern. For the machine itself all this is a matter of its
own: what the call yields and what becomes of the machine are functions of that machine.

A machine keeps lines and tags until an answer shows them. Whether they have been shown makes no
difference to what the machine does, unless its sink counts them.

## Main definitions

* `Machine.serve`: what a call does on the machine that it concerns.
* `Machine.viewSince`: what can be seen of a machine after a call.
* `Session.held`: the machine of a name, without what it has yet to show.

## Main results

* `Machine.serve_settled`: what a machine has yet to show does not show in what it does.
* `Session.call_of_present`: **a call is a function of the machine that it concerns, and leaves
  all others.**
* `Session.steady_held`: answers and scopes change no machine, but for what it has yet to show.
-/

namespace StackMachine

/-! ### What a machine does by itself -/

namespace Machine

/-- The machine without what it has yet to show. -/
def settled (m : Machine) : Machine := { m with lines := [], heard := [] }

/-- What a list has gained at its front, the newest last. -/
def gained {α : Type} (before after : List α) : List α :=
  (after.take (after.length - before.length)).reverse

/-- A list gains what is put in front of it. -/
theorem gained_append {α : Type} (before new : List α) :
    gained before (new.reverse ++ before) = new := by
  simp [gained]

/-- A list has gained nothing over itself. -/
theorem gained_self {α : Type} (before : List α) : gained before before = [] := by
  simp [gained]

/-- An empty list has gained nothing. -/
theorem gained_nil {α : Type} (before : List α) : gained before [] = [] := by
  simp [gained]

/-- The state of the machine, and the lines and tags that its observers have taken since it was
as before. -/
def viewSince (before : Option Machine) (m : Machine) : View where
  state := m.state
  output := gained (before.elim [] lines) m.lines
  heard := gained (before.elim [] heard) m.heard

/-- The line of an event that goes to a list of the machine's own. -/
def line? (m : Machine) (e : Event) : Option String :=
  match m.output with
  | .standard => none
  | .collected _ => e.line?

/-- The tag of an event that goes to a listener of the machine's own. -/
def tag? (m : Machine) (e : Event) : Option Tag := if m.listener then e.tag? else none

/-- The machine whose own observers have been handed the events. -/
def receive (events : List Event) (m : Machine) : Machine :=
  { m with
    lines := (events.filterMap m.line?).reverse ++ m.lines
    heard := (events.filterMap m.tag?).reverse ++ m.heard }

/-- A machine receives events as the first part of them and then the second. -/
theorem receive_append (events events' : List Event) (m : Machine) :
    m.receive (events ++ events') = (m.receive events).receive events' := by
  simp only [receive, List.filterMap_append, List.reverse_append, List.append_assoc]
  rfl

/-- The machine after a program. -/
def follow (r : Report) (m : Machine) : Machine := receive r.events { m with state := r.state }

/-- What a call does on the machine that it concerns. -/
def serve (budget : Nat) (c : Call) (m : Machine) : Except Error Reply × Machine :=
  match c with
  | .execute _ code =>
    match code.load with
    | .error d => (.error (.diagnosed d), m)
    | .ok p => ((m.execute budget p).result.map .value, m.follow (m.execute budget p))
  | .tryExecute _ code =>
    match code.load with
    | .error d => (.error (.diagnosed d), m)
    | .ok p =>
      (Session.replyOf .result (Error.capture (m.execute budget p).result),
        m.follow (m.execute budget p))
  | .reset _ => (.ok .done, m.reset)
  | .inspect _ => (.ok (.state m.state), m)
  | .dump _ => (.ok (.text m.state.dump.text), m)
  | _ => (.ok .done, m)

section Serve

variable {m : Machine} (budget : Nat) (c : Call)

/-- A machine that is as it was has shown nothing since. -/
theorem viewSince_self (m : Machine) : m.viewSince (some m) = ⟨m.state, [], []⟩ := by
  simp only [viewSince, Option.elim_some, gained_self]

/-- A machine that follows a report has shown the lines and tags of the report since. -/
theorem viewSince_follow (r : Report) (m : Machine) : (m.follow r).viewSince (some m) =
    ⟨r.state, r.events.filterMap m.line?, r.events.filterMap m.tag?⟩ := by
  simp only [viewSince, follow, receive, Option.elim_some, gained_append]
  rfl

/-- A sink that takes everything does not count what it has taken. -/
theorem execute_settled (h : m.output = .collected none) (p : Program) :
    m.settled.execute budget p = m.execute budget p := by
  simp only [execute, sink, settled, h]

/-- **What a machine has yet to show does not show in what it does**, if its sink takes
everything. -/
theorem serve_settled (h : m.output = .collected none) :
    (m.settled.serve budget c).1 = (m.serve budget c).1 ∧
      (m.settled.serve budget c).2.settled = (m.serve budget c).2.settled ∧
      (m.settled.serve budget c).2.viewSince (some m.settled) =
        (m.serve budget c).2.viewSince (some m) := by
  have hfollow : ∀ r, (m.settled.follow r).viewSince (some m.settled) =
      (m.follow r).viewSince (some m) := by
    intro r
    rw [viewSince_follow, viewSince_follow]
    rfl
  have hself : m.settled.viewSince (some m.settled) = m.viewSince (some m) := by
    rw [viewSince_self, viewSince_self]
    rfl
  cases c with
  | execute n code =>
      simp only [serve, execute_settled budget h]
      rcases code.load with d | p
      · exact ⟨rfl, rfl, hself⟩
      · exact ⟨rfl, rfl, hfollow _⟩
  | tryExecute n code =>
      simp only [serve, execute_settled budget h]
      rcases code.load with d | p
      · exact ⟨rfl, rfl, hself⟩
      · exact ⟨rfl, rfl, hfollow _⟩
  | reset n =>
      refine ⟨rfl, rfl, ?_⟩
      simp only [serve, reset, viewSince, Option.elim_some, settled, gained_self]
  | _ => exact ⟨rfl, rfl, hself⟩

/-- A call keeps the choices that were made when the machine was created. -/
theorem reset_serve (m : Machine) : (m.serve budget c).2.settled.reset = m.settled.reset := by
  cases c with
  | execute n code =>
      rw [serve]
      cases code.load <;> rfl
  | tryExecute n code =>
      rw [serve]
      cases code.load <;> rfl
  | _ => rfl

end Serve

end Machine

namespace Session

variable {budget : Nat} {name : String} {c : Call} {s : Session} {m : Machine}

/-- Delivering an event to a machine lets the machine receive it. -/
theorem deliver_eq_receive (s : Session) (m : Machine) (e : Event) :
    (s.deliver m e).2 = m.receive [e] := by
  obtain ⟨tracing, listener, output, state, lines, heard⟩ := m
  cases e <;> cases listener <;> cases output <;> rfl

/-- Whatever else the events concern, the machine receives what concerns its own observers. -/
theorem deliverAll_eq_receive (events : List Event) (s : Session) (m : Machine) :
    (deliverAll events s m).2 = m.receive events := by
  induction events generalizing s m with
  | nil => rfl
  | cons e events ih =>
      rw [deliverAll, ih, deliver_eq_receive, ← Machine.receive_append]
      rfl

/-- A program changes the machine that it is run on, and no other. -/
theorem lookup_execute {code : Supply} {p : Program} (hm : s.machines.lookup name = some m)
    (hload : code.load = .ok p) (k : String) :
    (s.execute budget name code).2.machines.lookup k =
      if k = name then some (m.follow (m.execute budget p)) else s.machines.lookup k := by
  rw [Session.execute, hload]
  simp only [hm]
  rw [put, Members.lookup_put, (runOn_frame budget m p s).1, runOn, deliverAll_eq_receive]
  rfl

/-- A call of a machine that the session has is served by it, and the machine is put back. -/
theorem withMachine_of_present (hm : s.machines.lookup name = some m)
    (f : Machine → Reply × Machine) :
    s.withMachine name f = (.ok (f m).1, s.put name (f m).2) := by
  rw [withMachine, hm]

/-- **A call is a function of the machine that it concerns**, and leaves all others. -/
theorem call_of_present (budget : Nat) (hc : c.subject? = some name)
    (hm : s.machines.lookup name = some m) :
    (s.call budget c).1 = (m.serve budget c).1 ∧
      ∀ k, (s.call budget c).2.machines.lookup k =
        if k = name then some (m.serve budget c).2 else s.machines.lookup k := by
  have hsame : ∀ k, s.machines.lookup k = if k = name then some m else s.machines.lookup k := by
    intro k
    split
    next hk => rw [hk, hm]
    next => rfl
  cases c with
  | execute n code =>
      obtain rfl : n = name := Option.some.inj hc
      rw [Machine.serve]
      rcases hload : code.load with d | p
      · rw [call, Session.execute, hload]
        exact ⟨rfl, hsame⟩
      · rw [call_execute hm hload]
        exact ⟨rfl, lookup_execute hm hload⟩
  | tryExecute n code =>
      obtain rfl : n = name := Option.some.inj hc
      rw [Machine.serve]
      rcases hload : code.load with d | p
      · rw [call, Session.execute, hload]
        exact ⟨rfl, hsame⟩
      · rw [call_tryExecute hm hload]
        exact ⟨rfl, lookup_execute hm hload⟩
  | reset n =>
      obtain rfl : n = name := Option.some.inj hc
      rw [call, withMachine_of_present hm]
      exact ⟨rfl, Members.lookup_put n _ s.machines⟩
  | inspect n =>
      obtain rfl : n = name := Option.some.inj hc
      rw [call, withMachine_of_present hm]
      exact ⟨rfl, Members.lookup_put n _ s.machines⟩
  | dump n =>
      obtain rfl : n = name := Option.some.inj hc
      rw [call, withMachine_of_present hm]
      exact ⟨rfl, Members.lookup_put n _ s.machines⟩
  | _ => cases hc

/-- A call on a machine that is not there does nothing, and yields the same in any session. -/
theorem call_of_absent (budget : Nat) (hc : c.subject? = some name)
    (hs : s.machines.lookup name = none) :
    (s.call budget c).1 = (initial.call budget c).1 ∧
      (s.call budget c).2.machines = s.machines := by
  have hexecute : ∀ code : Supply,
      (s.execute budget name code).1 = (initial.execute budget name code).1 ∧
        (s.execute budget name code).2.machines = s.machines := by
    intro code
    rw [Session.execute, Session.execute, hs]
    rcases code.load with d | p
    · exact ⟨rfl, rfl⟩
    · exact ⟨rfl, rfl⟩
  have hwith : ∀ f, (s.withMachine name f).1 = (initial.withMachine name f).1 ∧
      (s.withMachine name f).2.machines = s.machines := by
    intro f
    rw [withMachine, hs]
    exact ⟨rfl, rfl⟩
  -- Without the machine the reply turns on nothing but the call.
  cases c with
  | execute n code =>
      obtain rfl : n = name := Option.some.inj hc
      simp only [call, (hexecute code).1, true_and]
      exact (hexecute code).2
  | tryExecute n code =>
      obtain rfl : n = name := Option.some.inj hc
      simp only [call, (hexecute code).1, true_and]
      exact (hexecute code).2
  | reset n =>
      obtain rfl : n = name := Option.some.inj hc
      exact hwith _
  | inspect n =>
      obtain rfl : n = name := Option.some.inj hc
      exact hwith _
  | dump n =>
      obtain rfl : n = name := Option.some.inj hc
      exact hwith _
  | _ => cases hc

/-- A call that concerns no machine leaves them all. -/
theorem machines_call_of_shared (hc : c.subject? = none) (hsingle : c.IsSingle)
    (hcreate : ∀ n o, c ≠ .create n o) : (s.call budget c).2.machines = s.machines := by
  cases c with
  | create n o => exact absurd rfl (hcreate n o)
  | scope rethrow body => exact absurd rfl (hsingle rethrow body)
  | interpret source trace =>
      simp only [call, Session.interpret]
      rcases Source.compile source with bad | p
      · rfl
      · exact (runOn_frame budget _ p _).1
  | setVariable n value => rfl
  | forgetFlags => rfl
  | readFlags => rfl
  | record t => rfl
  | take => rfl
  | _ => cases hc

/-- A new machine takes the place of its name. -/
theorem lookup_create (o : Machine.Options) (k : String) :
    (s.call budget (.create name o)).2.machines.lookup k =
      if k = name then some (Machine.create o s.env).1 else s.machines.lookup k :=
  Members.lookup_put name _ s.machines k

/-- The machine of a name, without what it has yet to show. -/
def held (name : String) (s : Session) : Option Machine :=
  (s.machines.lookup name).map Machine.settled

/-- An answer shows what a machine has yet to show, and takes nothing else. -/
theorem steady_held (name : String) : Steady (held name) where
  log _ _ := rfl
  answer := by
    intro s c reply
    rw [answer]
    split
    · rfl
    next n m hsubject =>
      obtain ⟨n', -, hlookup⟩ := Option.bind_eq_some_iff.1 hsubject
      obtain ⟨m', hm', heq⟩ := Option.map_eq_some_iff.1 hlookup
      obtain ⟨rfl, rfl⟩ := Prod.mk.inj heq
      simp only [held, put, Members.lookup_put]
      split
      next hname =>
        rw [hname, hm']
        rfl
      next => rfl

end Session

end StackMachine
