import StackMachine.Proofs.Calls

/-!
# Machines do not notice each other

The machines of a session share an environment, a trace log and the standard streams, and calls
on them may come in any order, inside and outside of scopes. A machine that collects its lines
notices nothing of this: what its calls yield, what its observers take and what state it is in
are the same as if all other calls had been left out.

What is shared enters a machine at one place only. A machine that is created without being told
whether to trace asks the environment. So the calls of a machine alone are its calls in the
session, with the answer of the environment written into those that create it.

## Main definitions

* `Moment.own`: the call of a moment, if it is one of the machine.
* `Moment.observe`: what can be observed of it.

## Main results

* `Moment.lookup_after_of_foreign`: calls that do not concern a machine leave it alone.
* `Moment.observe_congr`: a call of a machine depends on nothing but that machine.
* `Threaded.observe_eq`: the calls of a machine tell nothing of what else is called.
* `machine_isolation`: **a machine does not notice other machines or what is shared with them,
  and a reset machine does not notice its past.**
-/

namespace StackMachine

/-! ### The calls of a machine -/

/-- What can be observed of a call of a machine. -/
structure Observation where
  /-- What the call yielded. -/
  reply : Except Error Reply
  /-- The state of the machine after the call, with what its own observers took meanwhile. -/
  view : Option View

namespace Moment

variable {name : String} {m : Moment} {c : Call}

/-- The call, if it concerns or creates the machine of the name. The one that creates it is told
whether to trace, as the environment has answered. -/
def own (name : String) (m : Moment) : Option Call :=
  match m.call with
  | .create n o =>
    let tracing := (Machine.create o m.session.env).1.tracing
    if n = name then some (.create n { o with trace := some tracing }) else none
  | c => if c.subject? = some name then some c else none

/-- Creating a machine is its own call, with tracing settled by the environment. -/
theorem own_create (s : Session) (o : Machine.Options) :
    own name ⟨s, .create name o⟩ =
      some (.create name { o with trace := some (Machine.create o s.env).1.tracing }) :=
  if_pos rfl

/-- A call of a machine is its own call. -/
theorem own_of_subject {s : Session} (h : c.subject? = some name) : own name ⟨s, c⟩ = some c := by
  rw [own]
  split
  next hcreate =>
    obtain rfl : c = _ := hcreate
    cases h
  next => exact if_pos h

/-- What is a machine's own either creates it or is a call of it. -/
theorem own_cases (h : m.own name = some c) :
    (∃ o, m.call = .create name o ∧
      c = .create name { o with trace := some (Machine.create o m.session.env).1.tracing }) ∨
    m.call = c ∧ c.subject? = some name := by
  rw [own] at h
  split at h
  next n o hcall =>
    split at h
    next hname =>
      subst hname
      exact .inl ⟨o, hcall, (Option.some.inj h).symm⟩
    next => cases h
  next hother =>
    split at h
    next hsubject =>
      obtain rfl := Option.some.inj h
      exact .inr ⟨rfl, hsubject⟩
    next => cases h

/-- **Calls that do not concern a machine leave it alone.** -/
theorem lookup_after_of_foreign (budget : Nat) (hsingle : m.call.IsSingle) (h : m.own name = none) :
    (m.after budget).machines.lookup name = m.session.machines.lookup name := by
  obtain ⟨s, c⟩ := m
  rcases hsubject : c.subject? with _ | n
  · by_cases hcreate : ∃ n o, c = .create n o
    · obtain ⟨n, o, rfl⟩ := hcreate
      have hname : name ≠ n := by
        rintro rfl
        rw [own_create] at h
        cases h
      rw [after, Session.lookup_create, if_neg hname]
    · have hshared : ∀ n o, c ≠ .create n o := fun n o hc => hcreate ⟨n, o, hc⟩
      rw [after, Session.machines_call_of_shared hsubject hsingle hshared]
  · have hname : name ≠ n := by
      rintro rfl
      rw [own_of_subject hsubject] at h
      cases h
    rcases hn : s.machines.lookup n with _ | machine
    · rw [after, (Session.call_of_absent budget hsubject hn).2]
    · rw [after, (Session.call_of_present budget hsubject hn).2, if_neg hname]

/-- What can be observed of a call of the machine: what it yields, the state of the machine
afterwards, and what its own observers have taken meanwhile. -/
def observe (budget : Nat) (name : String) (m : Moment) : Option Observation :=
  (m.own name).map fun _ =>
    { reply := m.reply budget
      view := ((m.after budget).machines.lookup name).map
        (·.viewSince (m.session.machines.lookup name)) }

/-- Creating a machine does not depend on the machine that it replaces. -/
theorem observe_of_create (budget : Nat) {o : Machine.Options} (hcall : m.call = .create name o) :
    m.observe budget name = some ⟨.ok .done, some ⟨.initial, [], []⟩⟩ ∧
      (m.after budget).held name = some ⟨(Machine.create o m.session.env).1.tracing, o.listener,
        o.output, .initial, [], []⟩ := by
  obtain ⟨s, c⟩ := m
  obtain rfl : c = .create name o := hcall
  obtain ⟨tracing, hcreate⟩ := Machine.exists_create o s.env
  have hafter : (after budget ⟨s, .create name o⟩).machines.lookup name =
      some ⟨tracing, o.listener, o.output, .initial, [], []⟩ := by
    rw [after, Session.lookup_create, if_pos rfl, hcreate]
  constructor
  · rw [observe, own_create, hafter]
    simp only [Machine.viewSince, Machine.gained_nil, Option.map_some]
    rfl
  · rw [Session.held, hafter, hcreate]
    rfl

/-- A call of a machine that is there yields what the machine serves, and leaves it as served. -/
theorem observe_of_present (budget : Nat) {s : Session} {machine : Machine}
    (hsubject : c.subject? = some name) (hs : s.machines.lookup name = some machine) :
    observe budget name ⟨s, c⟩ = some ⟨(machine.serve budget c).1,
        some ((machine.serve budget c).2.viewSince (some machine))⟩ ∧
      (after budget ⟨s, c⟩).held name = some (machine.serve budget c).2.settled := by
  obtain ⟨hreply, hlookup⟩ := Session.call_of_present budget hsubject hs
  have hafter : (after budget ⟨s, c⟩).machines.lookup name = some (machine.serve budget c).2 := by
    rw [after, hlookup, if_pos rfl]
  constructor
  · rw [observe, own_of_subject hsubject, hafter, hs, reply, hreply]
    rfl
  · rw [Session.held, hafter]
    rfl

/-- A call of a machine that is not there yields the same in every session, and leaves none. -/
theorem observe_of_absent (budget : Nat) {s : Session} (hsubject : c.subject? = some name)
    (hs : s.machines.lookup name = none) :
    observe budget name ⟨s, c⟩ = some ⟨(Session.initial.call budget c).1, none⟩ ∧
      (after budget ⟨s, c⟩).held name = none := by
  obtain ⟨hreply, hmachines⟩ := Session.call_of_absent budget hsubject hs
  have hafter : (after budget ⟨s, c⟩).machines.lookup name = none := by
    rw [after, hmachines, hs]
  constructor
  · rw [observe, own_of_subject hsubject, hafter, reply, hreply]
    rfl
  · rw [Session.held, hafter]
    rfl

/-- A call of a machine is observed alike in sessions that hold the same machine. -/
theorem observe_of_subject (budget : Nat) {s s' : Session} (hsubject : c.subject? = some name)
    (hheld : s.held name = s'.held name)
    (hsink : ∀ machine ∈ s.held name, machine.output = .collected none) :
    observe budget name ⟨s, c⟩ = observe budget name ⟨s', c⟩ ∧
      (after budget ⟨s, c⟩).held name = (after budget ⟨s', c⟩).held name := by
  rw [Session.held] at hheld hsink
  rcases hs : s.machines.lookup name with _ | machine
  · rw [hs, Option.map_none, Session.held, eq_comm, Option.map_eq_none_iff] at hheld
    obtain ⟨hobserve, hafter⟩ := observe_of_absent budget hsubject hs
    obtain ⟨hobserve', hafter'⟩ := observe_of_absent budget hsubject hheld
    exact ⟨hobserve.trans hobserve'.symm, hafter.trans hafter'.symm⟩
  · rw [hs, Option.map_some, Session.held, eq_comm, Option.map_eq_some_iff] at hheld
    obtain ⟨machine', hs', hsettled⟩ := hheld
    have houtput : machine.output = .collected none := hsink machine.settled (by rw [hs]; rfl)
    have houtput' : machine'.output = .collected none :=
      (congrArg Machine.output hsettled).trans houtput
    obtain ⟨hobserve, hafter⟩ := observe_of_present budget hsubject hs
    obtain ⟨hobserve', hafter'⟩ := observe_of_present budget hsubject hs'
    -- Both machines serve the call as what they have in common does.
    obtain ⟨hreply, hstate, hview⟩ := Machine.serve_settled budget c houtput
    obtain ⟨hreply', hstate', hview'⟩ := Machine.serve_settled budget c houtput'
    rw [hsettled] at hreply' hstate' hview'
    constructor
    · rw [hobserve, hobserve', ← hreply, ← hreply', ← hview, ← hview']
    · rw [hafter, hafter', ← hstate, ← hstate']

/-- **A call of a machine depends on nothing but that machine**, and on nothing at all if it
creates the machine and is told whether to trace. -/
theorem observe_congr (budget : Nat) {m' : Moment} (hm : m.own name = some c)
    (hm' : m'.own name = some c) (hheld : m.session.held name = m'.session.held name)
    (hsink : ∀ machine ∈ m.session.held name, machine.output = .collected none) :
    m.observe budget name = m'.observe budget name ∧
      (m.after budget).held name = (m'.after budget).held name := by
  rcases own_cases hm with ⟨o, hcall, rfl⟩ | ⟨rfl, hsubject⟩
  · rcases own_cases hm' with ⟨o', hcall', hsame⟩ | ⟨-, hsubject⟩
    · obtain ⟨-, hsame⟩ := Call.create.inj hsame
      obtain ⟨htracing, hlistener, houtput⟩ := Machine.Options.mk.inj hsame
      obtain ⟨hobserve, hafter⟩ := observe_of_create budget hcall
      obtain ⟨hobserve', hafter'⟩ := observe_of_create budget hcall'
      rw [hobserve, hobserve', hafter, hafter', Option.some.inj htracing, hlistener, houtput]
      exact ⟨rfl, rfl⟩
    · cases hsubject
  · obtain ⟨s, c⟩ := m
    obtain ⟨s', c'⟩ := m'
    rcases own_cases hm' with ⟨o, -, hcreate⟩ | ⟨hcall, -⟩
    · rw [hcreate] at hsubject
      cases hsubject
    · obtain rfl : c' = c := hcall
      exact observe_of_subject budget hsubject hheld hsink

/-- A call of a machine is a call by itself, and it is a call of that machine in any session. -/
theorem own_of_own (hm : m.own name = some c) (s : Session) :
    c.IsSingle ∧ own name ⟨s, c⟩ = some c := by
  rcases own_cases hm with ⟨o, -, rfl⟩ | ⟨-, hsubject⟩
  · exact ⟨nofun, own_create s _⟩
  · refine ⟨?_, own_of_subject hsubject⟩
    rintro rethrow body rfl
    cases hsubject

/-- Nothing but a new machine in its place changes what was chosen at its creation. -/
theorem reset_held_after (budget : Nat) (hsingle : m.call.IsSingle)
    (hcreate : ∀ o, m.call ≠ .create name o) :
    ((m.after budget).held name).map Machine.reset = (m.session.held name).map Machine.reset := by
  rcases hown : m.own name with _ | c
  · rw [Session.held, lookup_after_of_foreign budget hsingle hown, Session.held]
  · rcases own_cases hown with ⟨o, hcall, -⟩ | ⟨rfl, hsubject⟩
    · exact absurd hcall (hcreate o)
    · obtain ⟨s, c⟩ := m
      rcases hs : s.machines.lookup name with _ | machine
      · rw [(observe_of_absent budget hsubject hs).2, Session.held, hs]
        rfl
      · rw [(observe_of_present budget hsubject hs).2, Session.held, hs]
        exact congrArg some (machine.reset_serve budget c)

/-- A reset of a machine resets what the session holds of it. -/
theorem held_after_reset (budget : Nat) (s : Session) :
    (after budget ⟨s, .reset name⟩).held name = (s.held name).map Machine.reset := by
  rcases hs : s.machines.lookup name with _ | machine
  · rw [(observe_of_absent budget rfl hs).2, Session.held, hs]
    rfl
  · rw [(observe_of_present budget rfl hs).2, Session.held, hs]
    rfl

/-- A machine that collects its lines goes on doing so. -/
theorem output_held_after (budget : Nat) (hsingle : m.call.IsSingle)
    (hcreate : ∀ o, m.call = .create name o → o.output = .collected none)
    (hheld : ∀ machine ∈ m.session.held name, machine.output = .collected none) :
    ∀ machine ∈ (m.after budget).held name, machine.output = .collected none := by
  intro machine hmachine
  by_cases hnew : ∃ o, m.call = .create name o
  · obtain ⟨o, hcall⟩ := hnew
    rw [(observe_of_create budget hcall).2] at hmachine
    obtain rfl := Option.some.inj hmachine
    exact hcreate o hcall
  · have hreset := reset_held_after budget hsingle fun o hcall => hnew ⟨o, hcall⟩
    rw [hmachine, Option.map_some, eq_comm, Option.map_eq_some_iff] at hreset
    obtain ⟨before, hbefore, hsame⟩ := hreset
    exact (congrArg Machine.output hsame).symm.trans (hheld before hbefore)

end Moment

/-- **The calls of a machine tell nothing of what else is called**: if the same calls of a machine
are made elsewhere, with nothing in between, the same is observed of them, and they leave the
same machine. -/
theorem Threaded.observe_eq {budget : Nat} {name : String} {ms ms' : List Moment}
    {a b b' : Option Machine} (h : Threaded budget (Session.held name) a ms b)
    (h' : Threaded budget (Session.held name) a ms' b')
    (hsink : ∀ m ∈ ms, ∀ o, m.call = .create name o → o.output = .collected none)
    (hheld : ∀ machine ∈ a, machine.output = .collected none)
    (hcalls : ms'.map Moment.call = ms.filterMap (Moment.own name))
    (hown : ∀ m ∈ ms', m.own name = some m.call) :
    ms.filterMap (Moment.observe budget name) = ms'.filterMap (Moment.observe budget name) ∧
      b = b' := by
  induction h generalizing ms' with
  | nil a =>
      obtain rfl := List.map_eq_nil_iff.1 hcalls
      cases h'
      exact ⟨rfl, rfl⟩
  | @cons m ms a b hview hsingle h ih =>
      subst hview
      obtain ⟨hsink, hsinks⟩ := List.forall_mem_cons.1 hsink
      have hafter := Moment.output_held_after budget hsingle hsink hheld
      rcases hm : m.own name with _ | c
      -- A foreign call changes nothing, and the calls elsewhere wait.
      · have hkept : (m.after budget).held name = m.session.held name :=
          congrArg (Option.map Machine.settled) (Moment.lookup_after_of_foreign budget hsingle hm)
        have hobserve : m.observe budget name = none := by rw [Moment.observe, hm]; rfl
        rw [List.filterMap_cons_none hm] at hcalls
        rw [List.filterMap_cons_none hobserve]
        exact ih (hkept ▸ h') hsinks hafter hcalls hown
      -- An own call is made on both sides.
      · rw [List.filterMap_cons_some hm, List.map_eq_cons_iff] at hcalls
        obtain ⟨m', rest, rfl, rfl, hcalls⟩ := hcalls
        obtain ⟨hm', hrest⟩ := List.forall_mem_cons.1 hown
        obtain _ | ⟨hview, -, h'⟩ := h'
        obtain ⟨hsame, hnext⟩ := Moment.observe_congr budget hm hm' hview.symm hheld
        obtain ⟨hobserve, hend⟩ := ih (hnext ▸ h') hsinks hafter hcalls hrest
        rw [List.filterMap_cons, List.filterMap_cons, hsame, hobserve]
        exact ⟨rfl, hend⟩

/-- Where the calls of a machine are made with nothing in between, all of them are made. -/
theorem Session.own_momentsAll (budget : Nat) (name : String) (ms : List Moment) (s : Session) :
    let alone := s.momentsAll budget false (ms.filterMap (Moment.own name))
    alone.map Moment.call = ms.filterMap (Moment.own name) ∧
      ∀ m ∈ alone, m.own name = some m.call := by
  intro alone
  have hown : ∀ c ∈ ms.filterMap (Moment.own name), ∀ s : Session,
      c.IsSingle ∧ Moment.own name ⟨s, c⟩ = some c := by
    intro c hc
    obtain ⟨m, -, hm⟩ := List.mem_filterMap.1 hc
    exact Moment.own_of_own hm
  have hcalls : alone.map Moment.call = ms.filterMap (Moment.own name) :=
    map_call_momentsAll (fun c hc => (hown c hc s).1) budget s
  refine ⟨hcalls, ?_⟩
  intro m hm
  exact (hown m.call (hcalls ▸ List.mem_map_of_mem hm) m.session).2

/-- A machine that was reset is observed like a new one with the same choices, whatever it did
before. -/
theorem Threaded.observe_after_reset {budget : Nat} {name : String}
    {between later : List Moment} {s₀ s₁ : Session} {o : Machine.Options} {a b : Option Machine}
    (h : Threaded budget (Session.held name) a
      (⟨s₀, .create name o⟩ :: (between ++ ⟨s₁, .reset name⟩ :: later)) b)
    (hbetween : ∀ m ∈ between, ∀ o, m.call ≠ .create name o)
    (hsink : ∀ m ∈ ⟨s₀, .create name o⟩ :: later, ∀ o, m.call = .create name o →
      o.output = .collected none) (s : Session) :
    let tracing := (Machine.create o s₀.env).1.tracing
    let created := .create name { o with trace := some tracing } ::
      later.filterMap (Moment.own name)
    ∃ first, (s.momentsAll budget false created).filterMap (Moment.observe budget name) =
      first :: later.filterMap (Moment.observe budget name) := by
  intro tracing created
  let new : Machine := ⟨tracing, o.listener, o.output, .initial, [], []⟩
  obtain ⟨hnew, hsinks⟩ := List.forall_mem_cons.1 hsink
  -- The reset leaves the machine as it was when it was new.
  obtain _ | ⟨-, -, h⟩ := h
  rw [(Moment.observe_of_create budget rfl).2] at h
  obtain ⟨before, hpast, hreset⟩ := h.of_append
  obtain _ | ⟨hview, -, hlater⟩ := hreset
  have hchoices : before.map Machine.reset = some new := by
    refine hpast.preserves (P := fun x => x.map Machine.reset = some new) ?_ rfl
    intro m hm hsingle hbefore
    rw [Moment.reset_held_after budget hsingle (hbetween m hm), hbefore]
  rw [Moment.held_after_reset, hview, hchoices] at hlater
  -- The first of the calls elsewhere leaves the same machine.
  obtain ⟨hcalls, hown⟩ := Session.own_momentsAll budget name (⟨s₀, .create name o⟩ :: later) s
  rw [List.filterMap_cons_some (Moment.own_create s₀ o)] at hcalls hown
  have halone := Session.threaded_momentsAll (Session.steady_held name) budget false created s
  obtain ⟨m, rest, hmoments, hcall, hcalls⟩ := List.map_eq_cons_iff.1 hcalls
  rw [hmoments] at halone hown ⊢
  obtain ⟨hobserve, hafter⟩ := Moment.observe_of_create budget hcall
  obtain _ | ⟨-, -, halone⟩ := halone
  rw [hafter] at halone
  have hheld : ∀ machine ∈ some new, machine.output = .collected none := by
    rintro machine ⟨⟩
    exact hnew o rfl
  obtain ⟨hsame, -⟩ := hlater.observe_eq halone hsinks hheld hcalls (List.forall_mem_cons.1 hown).2
  rw [List.filterMap_cons_some hobserve, hsame]
  exact ⟨_, rfl⟩

/-- **Machines do not notice each other.** Take any calls in any session, in scopes or not, and a
name that no machine has yet. If the machines that get this name collect their lines, then each
call of theirs yields the same, hands the same to their own observers and leaves the same state
as when these calls alone are made, in whichever session, each new machine being told whether to
trace as it was decided then. The machine that is there in the end is the same, too.

And from a reset on, a machine is observed like a new one with the same choices, whatever calls
were made on it, or not on it, between its creation and the reset. -/
theorem machine_isolation (b : Nat) (rethrow : Bool) (calls : List Call) (name : String)
    (s s' : Session) (hs : s.machines.lookup name = none) (hs' : s'.machines.lookup name = none)
    (hsink : ∀ m ∈ s.momentsAll b rethrow calls, ∀ o, m.call = .create name o →
      o.output = .collected none) :
    let made := s.momentsAll b rethrow calls
    let own := made.filterMap (Moment.own name)
    let alone := s'.momentsAll b false own
    alone.map Moment.call = own ∧
    made.filterMap (Moment.observe b name) = alone.filterMap (Moment.observe b name) ∧
    (s.callAll b rethrow calls).2.held name = (s'.callAll b false own).2.held name ∧
    ∀ earlier s₀ o between s₁ later,
      made = earlier ++ ⟨s₀, .create name o⟩ :: (between ++ ⟨s₁, .reset name⟩ :: later) →
      (∀ m ∈ between, ∀ o, m.call ≠ .create name o) → ∀ s'' : Session,
      let tracing := (Machine.create o s₀.env).1.tracing
      let fresh := s''.momentsAll b false
        (.create name { o with trace := some tracing } :: later.filterMap (Moment.own name))
      ∃ first, fresh.filterMap (Moment.observe b name) =
        first :: later.filterMap (Moment.observe b name) := by
  intro made own alone
  -- What the session holds under the name changes in calls only, so scopes do not count.
  have hmade := Session.threaded_momentsAll (Session.steady_held name) b rethrow calls s
  have halone := Session.threaded_momentsAll (Session.steady_held name) b false own s'
  have hnone : s.held name = none := by rw [Session.held, hs]; rfl
  have hnone' : s'.held name = none := by rw [Session.held, hs']; rfl
  rw [hnone] at hmade
  rw [hnone'] at halone
  obtain ⟨hcalls, hown⟩ := Session.own_momentsAll b name made s'
  have hheld : ∀ machine ∈ (none : Option Machine), machine.output = .collected none := by
    intro machine hmachine
    cases hmachine
  obtain ⟨hobserve, hend⟩ := hmade.observe_eq halone hsink hheld hcalls hown
  refine ⟨hcalls, hobserve, hend, ?_⟩
  intro earlier s₀ o between s₁ later hsplit hbetween s''
  change s.momentsAll b rethrow calls = _ at hsplit
  rw [hsplit] at hmade hsink
  obtain ⟨a, -, hrest⟩ := hmade.of_append
  refine hrest.observe_after_reset hbetween ?_ s''
  intro m hm
  refine hsink m ?_
  simp only [List.mem_append, List.mem_cons] at hm ⊢
  rcases hm with rfl | hm
  · exact .inr (.inl rfl)
  · exact .inr (.inr (.inr (.inr hm)))

/-- One of two machines in a scope that an error of its program leaves. It is created while
tracing is switched on, and it is run again after a reset. -/
theorem machine_isolation_scope :
    let s : Session := { Session.initial with env := ⟨[], some true, none⟩ }
    let calls : List Call := [.create "a" ⟨none, true, .collected none⟩,
      .create "b" ⟨none, false, .standard⟩,
      .scope true [.execute "b" (.program [.lit 1, .bare .put]),
        .execute "a" (.program [.label 0, .lit 3, .bare .put, .lit 4, .bare .jmp]), .take],
      .forgetFlags, .reset "a", .execute "a" (.program [.lit 0, .bare .jmp])]
    let made := s.momentsAll 20 false calls
    let own := made.filterMap (Moment.own "a")
    let alone := Session.initial.momentsAll 20 false own
    (∀ m ∈ made, ∀ o, m.call = .create "a" o → o.output = .collected none) ∧
    made.length = 7 ∧ alone.map Moment.call = own ∧
    (alone.filterMap (Moment.observe 20 "a")).map (fun seen => seen.view.map (·.output)) =
      [some [], some ["3"], some [], some []] ∧
    (alone.filterMap (Moment.observe 20 "a")).map (fun seen => seen.view.map (·.heard)) =
      [some [], some [.bind (.ofNat 0) (.ofNat 0), .emit (.ofNat 2) "3",
        .fault .labelUndefined (.ofNat 4)], some [], some [.fault .labelUndefined (.ofNat 1)]] := by
  intro s calls made own alone
  have hmade : made = ⟨s, .create "a" ⟨none, true, .collected none⟩⟩ :: made.tail := by rfl
  have hlater : (made.tail.all fun m => (m.own "a").isNone || m.call.subject?.isSome) = true := by
    decide +kernel
  have hsink : ∀ m ∈ made, ∀ o, m.call = .create "a" o → o.output = .collected none := by
    rw [hmade]
    intro m hm o hcall
    rcases List.mem_cons.1 hm with rfl | hm
    · cases hcall
      rfl
    · -- No later call creates the machine again.
      obtain ⟨s₁, c⟩ := m
      obtain rfl : c = .create "a" o := hcall
      have hother := List.all_eq_true.1 hlater _ hm
      rw [Moment.own_create] at hother
      cases hother
  obtain ⟨halone, hobserve, -⟩ := machine_isolation 20 false calls "a" s .initial rfl rfl hsink
  refine ⟨hsink, ?_, halone, ?_, ?_⟩
  · decide +kernel
  · rw [← hobserve]
    decide +kernel
  · rw [← hobserve]
    decide +kernel

end StackMachine
