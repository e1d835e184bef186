import StackMachine.Session

/-!
# Scopes of the trace log

Tags are recorded, the buffer is drained, and work is done inside of scopes, from anywhere in a
program and in any order. A scope is closed however its work ends, and an error that leaves it
may be caught by the work around it. This module follows a tag through all this: it goes to the
innermost scope that is open, or to the buffer if none is, and it comes out once.

What a program does between these calls is of no interest. So a program is a tree of calls, a
`Routine`, whose branches are the answers that a call can give. What happened in a run of it is
its `History`, in which scopes are nested as they were.

The log before and after a history are related by `History.Accounts`, which has a rule for each
kind of call. Everything follows from it, since a routine is built up by the same rules.

## Main definitions

* `Session.within`: work inside of a scope.
* `Routine`, `Routine.run`, `Routine.history`: programs that use the trace log.
* `History.direct`, `History.taken`, `History.scopes`: what happened.
* `History.Accounts`: what becomes of the tags of a history.

## Main results

* `Routine.accounts`: a routine accounts for all tags.
* `Routine.within_run`: a scope yields what was recorded directly in it, and is closed.
* `tags_conserved`: **no tag is lost, told twice or misfiled**.
-/

namespace StackMachine

/-! ### Programs that use the trace log -/

namespace Session

/-- Drains the buffer of the trace log, and gives the tags that it held. -/
def drain (s : Session) : List Tag × Session :=
  let (tags, log) := s.log.take
  (tags, { s with log })

/-- The session inside of a new scope. -/
def entered (s : Session) : Session := { s with log := s.log.enter }

/-- Does some work inside of a scope, which is closed however the work ends. If it succeeds, the
tags of the scope are given, too. -/
def within {ε α : Type} (work : Session → Except ε α × Session) (s : Session) :
    Except ε (α × List Tag) × Session :=
  let (result, inner) := work s.entered
  let (tags, log) := inner.log.leave
  (result.map fun value => (value, tags), { inner with log })

/-- A call for a scope makes its calls inside of a scope. -/
theorem call_scope (budget : Nat) (rethrow : Bool) (body : List Call) (s : Session) :
    s.call budget (.scope rethrow body) =
      ((s.within (callAll budget rethrow body)).1.map fun x => .scope x.2 x.1,
        (s.within (callAll budget rethrow body)).2) := by
  rw [call, within, entered]
  rcases callAll budget rethrow body { s with log := s.log.enter } with ⟨result, inner⟩
  cases result <;> rfl

end Session

/-- A program that uses the trace log, as the tree of its calls. It goes on as each call answers:
a drained buffer by its tags, and a scope by the value and the tags that it yields, or by the
error that leaves it. -/
inductive Routine (ε α : Type) where
  /-- Returns a value. -/
  | done (value : α)
  /-- Throws an error. -/
  | throw (error : ε)
  /-- Records a tag. -/
  | record (t : Tag) (next : Routine ε α)
  /-- Drains the buffer. -/
  | take (next : List Tag → Routine ε α)
  /-- Does some work inside of a scope. An error of it is caught if the program goes on. -/
  | scope (body : Routine ε α) (next : Except ε (α × List Tag) → Routine ε α)

/-- What happened in a program that uses the trace log. -/
inductive History where
  /-- Nothing more. -/
  | nil
  /-- A tag was recorded. -/
  | recorded (t : Tag) (later : History)
  /-- The buffer was drained and held these tags. -/
  | took (tags : List Tag) (later : History)
  /-- Something happened in a scope, which yielded its tags unless an error left it. -/
  | scope (inner : History) (yielded : Option (List Tag)) (later : History)
  deriving DecidableEq

namespace Routine

variable {ε α : Type}

/-- Runs a program: its result and the session after it. -/
def run : Routine ε α → Session → Except ε α × Session
  | done value, s => (.ok value, s)
  | throw error, s => (.error error, s)
  | record t next, s => next.run (s.record t)
  | take next, s => (next s.drain.1).run s.drain.2
  | scope body next, s => (next (s.within body.run).1).run (s.within body.run).2

/-- What happens in a run. -/
def history : Routine ε α → Session → History
  | done _, _ => .nil
  | throw _, _ => .nil
  | record t next, s => .recorded t (next.history (s.record t))
  | take next, s => .took s.drain.1 ((next s.drain.1).history s.drain.2)
  | scope body next, s =>
    .scope (body.history s.entered)
      ((s.within body.run).1.toOption.map Prod.snd)
      ((next (s.within body.run).1).history (s.within body.run).2)

end Routine

namespace History

/-! ### What becomes of tags -/

/-- The tags recorded directly in the history, and not in a scope of it. -/
def direct : History → List Tag
  | nil => []
  | recorded t later => t :: later.direct
  | took _ later => later.direct
  | scope _ _ later => later.direct

/-- The tags that were taken from the buffer, inside of scopes or not. -/
def taken : History → List Tag
  | nil => []
  | recorded _ later => later.taken
  | took tags later => tags ++ later.taken
  | scope inner _ later => inner.taken ++ later.taken

/-- The scopes of the history at any depth: what happened in each, and what it yielded. -/
def scopes : History → List (History × Option (List Tag))
  | nil => []
  | recorded _ later => later.scopes
  | took _ later => later.scopes
  | scope inner yielded later => inner.scopes ++ (inner, yielded) :: later.scopes

/-- What becomes of the tags of a history. Outside of all scopes, what was in the buffer and what
is recorded is taken or still there in the end. Inside of a scope, what is recorded is added to
it, and only what was in the buffer is taken. -/
structure Accounts (before : TraceLog) (h : History) (after : TraceLog) : Prop where
  outside : before.scopes = [] →
    after.scopes = [] ∧ h.taken ++ after.buffer.reverse = before.buffer.reverse ++ h.direct
  inside : ∀ tags outer, before.scopes = tags :: outer →
    after.scopes = (h.direct.reverse ++ tags) :: outer ∧
      h.taken ++ after.buffer.reverse = before.buffer.reverse

section Accounts

variable {log after : TraceLog} {h : History}

/-- The empty history accounts for a log that stays as it is. -/
theorem accounts_nil (log : TraceLog) : Accounts log nil log where
  outside hscopes := ⟨hscopes, by simp [taken, direct]⟩
  inside tags outer hscopes := ⟨hscopes, rfl⟩

/-- A tag that is recorded first is accounted for. -/
theorem Accounts.recorded {t : Tag} (hlater : Accounts (log.record t) h after) :
    Accounts log (recorded t h) after := by
  obtain ⟨scopes, buffer⟩ := log
  constructor
  · rintro rfl
    obtain ⟨hscopes, hbuffer⟩ := hlater.outside rfl
    refine ⟨hscopes, hbuffer.trans ?_⟩
    simp [TraceLog.record, direct]
  · rintro tags outer rfl
    obtain ⟨hscopes, hbuffer⟩ := hlater.inside (t :: tags) outer rfl
    refine ⟨hscopes.trans ?_, hbuffer⟩
    simp [direct]

/-- What is taken first is accounted for. -/
theorem Accounts.took (hlater : Accounts log.take.2 h after) :
    Accounts log (took log.take.1 h) after := by
  constructor
  · intro hnone
    obtain ⟨hscopes, hbuffer⟩ := hlater.outside hnone
    refine ⟨hscopes, ?_⟩
    rw [taken, List.append_assoc, hbuffer]
    rfl
  · intro tags outer hopen
    obtain ⟨hscopes, hbuffer⟩ := hlater.inside tags outer hopen
    refine ⟨hscopes, ?_⟩
    rw [taken, List.append_assoc, hbuffer]
    exact List.append_nil _

/-- A scope is closed as it was opened, with what was recorded directly in it. -/
theorem Accounts.leave {inner : TraceLog} (hinner : Accounts log.enter h inner) :
    inner.leave.1 = h.direct ∧ inner.leave.2.scopes = log.scopes ∧
      h.taken ++ inner.leave.2.buffer.reverse = log.buffer.reverse := by
  obtain ⟨hscopes, hbuffer⟩ := hinner.inside [] log.scopes rfl
  obtain ⟨scopes, buffer⟩ := inner
  obtain rfl : scopes = (h.direct.reverse ++ []) :: log.scopes := hscopes
  refine ⟨?_, rfl, hbuffer⟩
  simp [TraceLog.leave]

/-- A scope is accounted for, if what goes on in it and behind it is. -/
theorem Accounts.scope {inner : TraceLog} {later : History} (yielded : Option (List Tag))
    (hinner : Accounts log.enter h inner) (hlater : Accounts inner.leave.2 later after) :
    Accounts log (scope h yielded later) after := by
  obtain ⟨-, hsame, htaken⟩ := hinner.leave
  constructor
  · intro hnone
    obtain ⟨hscopes, hbuffer⟩ := hlater.outside (hsame.trans hnone)
    refine ⟨hscopes, ?_⟩
    rw [taken, List.append_assoc, hbuffer, ← List.append_assoc, htaken]
    rfl
  · intro tags outer hopen
    obtain ⟨hscopes, hbuffer⟩ := hlater.inside tags outer (hsame.trans hopen)
    refine ⟨hscopes, ?_⟩
    rw [taken, List.append_assoc, hbuffer, htaken]

end Accounts

end History

namespace Routine

variable {ε α : Type}

/-- **A routine accounts for all tags.** -/
theorem accounts (r : Routine ε α) (s : Session) :
    (r.history s).Accounts s.log (r.run s).2.log := by
  induction r generalizing s with
  | done value => exact History.accounts_nil s.log
  | throw error => exact History.accounts_nil s.log
  | record t next ih => exact (ih (s.record t)).recorded
  | take next ih => exact (ih s.drain.1 s.drain.2).took
  | scope body next ihbody ihnext =>
      exact (ihbody s.entered).scope _
        (ihnext (s.within body.run).1 (s.within body.run).2)

/-- Work inside of a scope ends as it does, with the tags that it recorded directly if it returns,
and however it ends, the scopes around it are open again. -/
theorem within_run (body : Routine ε α) (s : Session) :
    (s.within body.run).1 = (body.run s.entered).1.map
      (fun value => (value, (body.history s.entered).direct)) ∧
    (s.within body.run).2.log.scopes = s.log.scopes := by
  obtain ⟨hyielded, hscopes, -⟩ := (body.accounts s.entered).leave
  rw [← hyielded]
  exact ⟨rfl, hscopes⟩

/-- Each scope of a routine, at any depth, yields what was recorded directly in it. -/
theorem tags_of_mem_scopes {r : Routine ε α} {s : Session} {inner : History} {tags : List Tag}
    (h : (inner, some tags) ∈ (r.history s).scopes) : tags = inner.direct := by
  induction r generalizing s with
  | done value => cases h
  | throw error => cases h
  | record t next ih => exact ih h
  | take next ih => exact ih _ h
  | scope body next ihbody ihnext =>
      rcases List.mem_append.1 h with h | h
      · exact ihbody h
      · rcases List.mem_cons.1 h with heq | h
        · obtain ⟨rfl, hyielded⟩ := Prod.mk.inj heq
          rw [(within_run body s).1] at hyielded
          rcases hresult : (body.run s.entered).1 with error | value
          · rw [hresult] at hyielded
            cases hyielded
          · rw [hresult] at hyielded
            exact Option.some.inj hyielded
        · exact ihnext _ h

end Routine

/-- **No tag is lost, told twice or misfiled.** Take any program that records tags, drains the
buffer and works inside of scopes, with errors that are thrown and perhaps caught. Each scope that
it opens, at any depth, yields exactly the tags that were recorded directly in it, if it returns.
If no scope is open at the start, then none is in the end, and what was taken from the buffer,
with what is left in it, is what was in it with what was recorded outside of all scopes. If a
scope is open at the start, it is open in the end and has got what was recorded directly in it;
the buffer gets nothing, and nothing else is taken. Done inside of a scope, the program ends as
it does, with its tags if it returns, and the scopes around are open again either way. The calls
of a session do the same. -/
theorem tags_conserved {ε α : Type} (r : Routine ε α) (s : Session) :
    let h := r.history s
    let log := (r.run s).2.log
    (∀ inner tags, (inner, some tags) ∈ h.scopes → tags = inner.direct) ∧
    (s.log.scopes = [] → log.scopes = [] ∧
      h.taken ++ log.buffer.reverse = s.log.buffer.reverse ++ h.direct) ∧
    (∀ tags outer, s.log.scopes = tags :: outer →
      log.scopes = (h.direct.reverse ++ tags) :: outer ∧
        h.taken ++ log.buffer.reverse = s.log.buffer.reverse) ∧
    (s.within r.run).1 =
      (r.run s.entered).1.map (fun value => (value, (r.history s.entered).direct)) ∧
    (s.within r.run).2.log.scopes = s.log.scopes ∧
    ∀ budget, (∀ t, s.call budget (.record t) = (.ok .done, s.record t)) ∧
      s.call budget .take = (.ok (.tags s.drain.1), s.drain.2) ∧
      ∀ rethrow body, s.call budget (.scope rethrow body) =
        ((s.within (·.callAll budget rethrow body)).1.map fun x => .scope x.2 x.1,
          (s.within (·.callAll budget rethrow body)).2) := by
  intro h log
  obtain ⟨houtside, hinside⟩ := r.accounts s
  obtain ⟨hyields, hscopes⟩ := r.within_run s
  exact ⟨fun _ _ => Routine.tags_of_mem_scopes, houtside, hinside, hyields, hscopes,
    fun budget => ⟨fun _ => rfl, rfl, fun rethrow body => s.call_scope budget rethrow body⟩⟩

/-- The inner of two scopes is left by an error, which the outer one catches. The buffer is
drained in the outer scope and again after it. -/
theorem tags_conserved_caught :
    let a : Tag := .emit (.ofNat 0) "a"
    let b : Tag := .emit (.ofNat 1) "b"
    let c : Tag := .emit (.ofNat 2) "c"
    let d : Tag := .emit (.ofNat 3) "d"
    let e : Tag := .emit (.ofNat 4) "e"
    let inner : Routine String Unit := .record c (.throw "left")
    let outer : Routine String Unit :=
      .record b (.take fun _ => .scope inner fun _ => .record d (.done ()))
    let r : Routine String Unit :=
      .record a (.scope outer fun _ => .record e (.take fun _ => .done ()))
    let h := r.history .initial
    h.scopes.map Prod.snd = [none, some [b, d]] ∧ h.direct = [a, e] ∧ h.taken = [a, e] := by
  intro a b c d e inner outer r h
  obtain ⟨-, houtside, -⟩ := tags_conserved r .initial
  obtain ⟨-, hbuffer⟩ := houtside rfl
  have hdirect : h.direct = [a, e] := by rfl
  have hleft : (r.run .initial).2.log.buffer = [] := by rfl
  rw [hleft] at hbuffer
  refine ⟨by rfl, hdirect, ?_⟩
  calc h.taken = h.taken ++ [] := (List.append_nil _).symm
    _ = h.direct := hbuffer
    _ = [a, e] := hdirect

end StackMachine
