import Mathlib.Logic.Basic
import StackMachine.Proofs.Members
import StackMachine.Session

/-!
# Histories of a machine

A machine keeps its stack, its memory and its jump table from one program to the next. What
it holds at some point is therefore the outcome of all the requests since it was new. This
module makes the list of these requests explicit, so that claims about every machine that
can occur become inductions over lists.

A request to run carries its own observers and budget. The machines of a session have their
observers fixed at creation, and a sink that counts what it has taken, so the histories here
are more than those that a session can produce.

## Main definitions

* `Request`, `Request.serve`, `State.after`: requests, and the state that they lead to.

## Main results

* `Session.exists_history`: **every machine of a session is in the state of a new machine
  after some requests**, whatever calls were made, on whichever machines, in whichever
  scopes.
-/

namespace StackMachine

/-- A request to a machine. Whether the caller lets an error through or captures it makes
no difference to the machine, so there is a single request to run a program. -/
inductive Request where
  /-- Runs a program. -/
  | run (w : Watch) (budget : Nat) (program : Program)
  /-- Puts the machine into the state of a new one. -/
  | reset

/-- The state after a request. -/
def Request.serve : Request → State → State
  | run w budget program, s => (execute w budget program s).state
  | reset, _ => .initial

/-- The state of a new machine after a history of requests, the newest first. -/
def State.after : List Request → State
  | [] => .initial
  | request :: earlier => request.serve (after earlier)

/-! ### The machines of a session -/

/-- A new machine is in the initial state. -/
theorem Machine.state_create (o : Machine.Options) (env : Environment) :
    (Machine.create o env).1.state = .initial := by
  rw [Machine.create]
  cases o.trace <;> rfl

namespace Session

/-- Every machine of the session is in the state of a new one after some requests. -/
def Reached (s : Session) : Prop :=
  ∀ name m, s.machines.lookup name = some m → ∃ history, m.state = .after history

/-- The initial session has no machine, so that each is reached by requests. -/
theorem reached_initial : initial.Reached := by
  intro name m hm
  cases hm

/-- Putting a machine that requests have led to keeps every machine reached. -/
theorem Reached.put {s : Session} {m : Machine} (hs : s.Reached) (name : String)
    (hm : ∃ history, m.state = .after history) : (s.put name m).Reached := by
  intro other m' hm'
  rw [Session.put, Members.lookup_put] at hm'
  split at hm'
  · obtain rfl : m = m' := Option.some.inj hm'
    exact hm
  · exact hs other m' hm'

/-- Events change what the observers hold, but no machine's state. -/
theorem deliverAll_frame (events : List Event) (s : Session) (m : Machine) :
    (deliverAll events s m).1.machines = s.machines ∧
      (deliverAll events s m).2.state = m.state := by
  induction events generalizing s m with
  | nil => exact ⟨rfl, rfl⟩
  | cons e events ih =>
      rw [deliverAll]
      obtain ⟨hmachines, hstate⟩ := ih (s.deliver m e).1 (s.deliver m e).2
      rw [hmachines, hstate]
      cases e with
      | tag t =>
          rw [deliver]
          split <;> exact ⟨rfl, rfl⟩
      | line text =>
          rw [deliver]
          split <;> exact ⟨rfl, rfl⟩
      | refused text => exact ⟨rfl, rfl⟩

/-- A run on a machine is one more request to it. -/
theorem runOn_frame (budget : Nat) (m : Machine) (p : Program) (s : Session) :
    (s.runOn budget m p).2.1.machines = s.machines ∧
      (s.runOn budget m p).2.2.state =
        (Request.run ⟨m.tracing, m.sink⟩ budget p).serve m.state :=
  deliverAll_frame _ _ _

/-- Running a program on a machine is one request more to it. -/
theorem Reached.runOn {s : Session} (hs : s.Reached) (budget : Nat) (m : Machine) (p : Program) :
    (s.runOn budget m p).2.1.Reached := by
  intro other m' hm'
  rw [(runOn_frame budget m p s).1] at hm'
  exact hs other m' hm'

/-- Executing on a named machine is one request more to it. -/
theorem Reached.execute {s : Session} (hs : s.Reached) (budget : Nat) (name : String)
    (code : Supply) : (s.execute budget name code).2.Reached := by
  rw [Session.execute]
  split
  · exact hs
  next p hload =>
    split
    · exact hs
    next m hm =>
      obtain ⟨history, hhistory⟩ := hs name m hm
      refine (hs.runOn budget m p).put name ?_
      refine ⟨.run ⟨m.tracing, m.sink⟩ budget p :: history, ?_⟩
      rw [(runOn_frame budget m p s).2, hhistory]
      rfl

/-- Interpreting a source concerns no machine of the session. -/
theorem Reached.interpret {s : Session} (hs : s.Reached) (budget : Nat) (source : String)
    (trace : Option Bool) : (s.interpret budget source trace).2.Reached := by
  let created := Machine.create ⟨trace, false, .collected none⟩ s.env
  have hcreated : Session.Reached { s with env := created.2 } := hs
  simp only [Session.interpret]
  cases Source.compile source with
  | error b => exact hcreated
  | ok p => exact hcreated.runOn budget created.1 p

/-- A call of a machine that keeps or resets its state keeps the machines reached. -/
theorem Reached.withMachine {s : Session} (hs : s.Reached) (name : String)
    (f : Machine → Reply × Machine)
    (hf : ∀ m, (f m).2.state = m.state ∨ (f m).2.state = .initial) :
    (s.withMachine name f).2.Reached := by
  rw [Session.withMachine]
  split
  · exact hs
  next m hm =>
    obtain ⟨history, hhistory⟩ := hs name m hm
    refine hs.put name ?_
    rcases hf m with hsame | hinitial
    · exact ⟨history, hsame.trans hhistory⟩
    · exact ⟨[], hinitial⟩

/-- Giving an answer concerns no machine. -/
theorem Reached.answer {s : Session} (hs : s.Reached) (c : Call) (reply : Except Error Reply) :
    (s.answer c reply).2.Reached := by
  rw [Session.answer]
  split
  · exact hs
  next name m hsubject =>
    obtain ⟨name', -, hlookup⟩ := Option.bind_eq_some_iff.1 hsubject
    obtain ⟨m', hm', heq⟩ := Option.map_eq_some_iff.1 hlookup
    obtain ⟨rfl, rfl⟩ := Prod.mk.inj heq
    exact Reached.put hs name' (hs name' m' hm')

mutual

/-- One call keeps every machine reached by requests. -/
theorem Reached.call {s : Session} (hs : s.Reached) (budget : Nat) (c : Call) :
    (s.call budget c).2.Reached := by
  match c with
  | .setVariable name value => exact hs
  | .forgetFlags => exact hs
  | .readFlags => exact hs
  | .create name options =>
      exact Reached.put hs name ⟨[], Machine.state_create options s.env⟩
  | .execute name code => exact hs.execute budget name code
  | .tryExecute name code => exact hs.execute budget name code
  | .reset name => exact hs.withMachine name _ fun m => .inr rfl
  | .inspect name => exact hs.withMachine name _ fun m => .inl rfl
  | .dump name => exact hs.withMachine name _ fun m => .inl rfl
  | .interpret source trace => exact hs.interpret budget source trace
  | .record t => exact hs
  | .take => exact hs
  | .scope rethrow body =>
      rw [Session.call]
      exact Reached.callAll (s := { s with log := s.log.enter }) hs budget rethrow body

/-- Calls in a row keep every machine reached by requests. -/
theorem Reached.callAll {s : Session} (hs : s.Reached) (budget : Nat) (rethrow : Bool)
    (calls : List Call) : (s.callAll budget rethrow calls).2.Reached := by
  match calls with
  | [] => exact hs
  | c :: rest =>
      have hcall : (s.call budget c).2.Reached := hs.call budget c
      have hrest : ∀ reply, (Session.callAll budget rethrow rest
          ((s.call budget c).2.answer c reply).2).2.Reached := fun reply =>
        (hcall.answer c reply).callAll budget rethrow rest
      rw [Session.callAll]
      rcases hstep : s.call budget c with ⟨reply, s'⟩
      rw [hstep] at hcall hrest
      cases rethrow with
      | false => exact hrest reply
      | true =>
          cases reply with
          | error e => exact hcall
          | ok reply => exact hrest (.ok reply)

end

/-- **Every machine of a session has a history**: it is in the state of a new machine after
some requests. -/
theorem exists_history {budget : Nat} {rethrow : Bool} {calls : List Call} {name : String}
    {m : Machine} (h : (initial.callAll budget rethrow calls).2.machines.lookup name = some m) :
    ∃ history, m.state = .after history :=
  reached_initial.callAll budget rethrow calls name m h

end Session

end StackMachine
