import StackMachine.Session

/-!
# The moments of a session

Calls can be grouped in scopes, and an error may leave a scope before all of its calls were
made. What happened in a session is told by the single calls that were really made, in order,
each with the session in which it was made. This module writes these moments down.

Between a moment and the next, a scope may be opened or closed, and the call may be answered.
A view of the session that neither can change is threaded through the moments: what it shows
after a call, it shows before the next one. So a claim about whole sessions becomes an
induction over a list, with single calls for its steps.

## Main definitions

* `Moment`, `Session.moments`, `Session.momentsAll`: the moments of calls.
* `Session.Steady`: views that change in calls only.
* `Threaded`: a view is handed on from moment to moment.

## Main results

* `Session.threaded_momentsAll`: **a steady view is threaded through the moments of any
  calls**, whatever scopes they are in, and whether or not an error leaves one.
-/

namespace StackMachine

/-- A call by itself, and not a scope. -/
def Call.IsSingle (c : Call) : Prop := ∀ rethrow body, c ≠ .scope rethrow body

/-- A call is a single one or a scope around calls. -/
theorem Call.isSingle_or_scope (c : Call) :
    c.IsSingle ∨ ∃ rethrow body, c = .scope rethrow body := by
  by_cases h : ∃ rethrow body, c = .scope rethrow body
  · exact .inr h
  · exact .inl fun rethrow body hc => h ⟨rethrow, body, hc⟩

/-- A call that was made, and the session in which it was made. -/
structure Moment where
  /-- The session before the call. -/
  session : Session
  /-- The call. -/
  call : Call

/-- What the call yielded. -/
def Moment.reply (budget : Nat) (m : Moment) : Except Error Reply :=
  (m.session.call budget m.call).1

/-- The session after the call. -/
def Moment.after (budget : Nat) (m : Moment) : Session := (m.session.call budget m.call).2

namespace Session

mutual

/-- The moment of a single call, or the moments inside a scope. -/
def moments (budget : Nat) : Call → Session → List Moment
  | .scope rethrow body, s => momentsAll budget rethrow body { s with log := s.log.enter }
  | c, s => [⟨s, c⟩]

/-- The moments of calls that are made in turn, until a failing one ends them. -/
def momentsAll (budget : Nat) (rethrow : Bool) : List Call → Session → List Moment
  | [], _ => []
  | c :: rest, s =>
    let (reply, after) := s.call budget c
    s.moments budget c ++
      if rethrow && !reply.isOk then [] else momentsAll budget rethrow rest (after.answer c reply).2

end

/-- A single call is the only moment of itself. -/
theorem moments_of_isSingle {c : Call} (h : c.IsSingle) (budget : Nat) (s : Session) :
    s.moments budget c = [⟨s, c⟩] := by
  cases c with
  | scope rethrow body => exact absurd rfl (h rethrow body)
  | _ => rfl

/-- Where errors are not rethrown, every call is made. -/
theorem map_call_momentsAll {calls : List Call} (h : ∀ c ∈ calls, c.IsSingle) (budget : Nat)
    (s : Session) : (s.momentsAll budget false calls).map Moment.call = calls := by
  induction calls generalizing s with
  | nil => rfl
  | cons c rest ih =>
      obtain ⟨hc, hrest⟩ := List.forall_mem_cons.1 h
      rw [momentsAll, moments_of_isSingle hc, List.map_append]
      exact congrArg (c :: ·) (ih hrest _)

/-- A view of the session that changes in calls only, neither by the scopes around them nor by
the answers after them. -/
structure Steady {α : Type} (v : Session → α) : Prop where
  log : ∀ s log, v { s with log } = v s
  answer : ∀ s c reply, v (answer c reply s).2 = v s

end Session

/-- What the view shows after each call, it shows before the next one. -/
inductive Threaded {α : Type} (budget : Nat) (v : Session → α) : α → List Moment → α → Prop where
  | nil (a : α) : Threaded budget v a [] a
  | cons {m : Moment} {ms : List Moment} {a b : α} (hview : v m.session = a)
      (hsingle : m.call.IsSingle) (h : Threaded budget v (v (m.after budget)) ms b) :
      Threaded budget v a (m :: ms) b

section Threaded

variable {α : Type} {budget : Nat} {v : Session → α} {a b c : α} {m : Moment}
  {ms ms' : List Moment}

/-- A view that is threaded through two rows of moments is threaded through both in a row. -/
theorem Threaded.append (h : Threaded budget v a ms b) (h' : Threaded budget v b ms' c) :
    Threaded budget v a (ms ++ ms') c := by
  induction h with
  | nil a => exact h'
  | cons hview hsingle _ ih => exact .cons hview hsingle (ih h')

/-- A view that is threaded through moments is threaded through each part of them. -/
theorem Threaded.of_append (h : Threaded budget v a (ms ++ ms') c) :
    ∃ b, Threaded budget v a ms b ∧ Threaded budget v b ms' c := by
  induction ms generalizing a with
  | nil => exact ⟨a, .nil a, h⟩
  | cons m ms ih =>
      obtain _ | ⟨hview, hsingle, h⟩ := h
      obtain ⟨b, hms, hms'⟩ := ih h
      exact ⟨b, .cons hview hsingle hms, hms'⟩

/-- What every call keeps, all of them keep. -/
theorem Threaded.preserves {P : α → Prop} (h : Threaded budget v a ms b)
    (hstep : ∀ m ∈ ms, m.call.IsSingle → P (v m.session) → P (v (m.after budget))) (ha : P a) :
    P b := by
  induction h with
  | nil a => exact ha
  | cons hview hsingle _ ih =>
      obtain ⟨hm, hms⟩ := List.forall_mem_cons.1 hstep
      exact ih hms (hm hsingle (hview ▸ ha))

mutual

/-- **A steady view is threaded through the moments of a call**, from before it to after it. -/
theorem Session.threaded_moments (hv : Session.Steady v) (budget : Nat) (c : Call) (s : Session) :
    Threaded budget v (v s) (s.moments budget c) (v (s.call budget c).2) := by
  rcases c.isSingle_or_scope with hsingle | ⟨rethrow, body, rfl⟩
  · rw [Session.moments_of_isSingle hsingle]
    exact .cons rfl hsingle (.nil _)
  · have hbody := Session.threaded_momentsAll hv budget rethrow body { s with log := s.log.enter }
    rw [hv.log] at hbody
    rw [Session.moments, Session.call]
    simp only [hv.log]
    exact hbody

/-- A steady view is threaded through the moments of calls in a row. -/
theorem Session.threaded_momentsAll (hv : Session.Steady v) (budget : Nat) (rethrow : Bool)
    (calls : List Call) (s : Session) : Threaded budget v (v s) (s.momentsAll budget rethrow calls)
      (v (s.callAll budget rethrow calls).2) := by
  match calls with
  | [] => exact .nil _
  | c :: rest =>
      have hcall := Session.threaded_moments hv budget c s
      have hrest : ∀ reply, Threaded budget v (v (s.call budget c).2)
          (Session.momentsAll budget rethrow rest ((s.call budget c).2.answer c reply).2)
          (v (Session.callAll budget rethrow rest ((s.call budget c).2.answer c reply).2).2) := by
        intro reply
        rw [← hv.answer (s.call budget c).2 c reply]
        exact Session.threaded_momentsAll hv budget rethrow rest _
      rw [Session.momentsAll, Session.callAll]
      rcases hstep : s.call budget c with ⟨reply, s'⟩
      rw [hstep] at hcall hrest
      cases rethrow with
      | false => exact hcall.append (hrest reply)
      | true =>
          cases reply with
          | error e => exact hcall.append (.nil _)
          | ok reply => exact hcall.append (hrest (.ok reply))

end

end Threaded

end StackMachine
