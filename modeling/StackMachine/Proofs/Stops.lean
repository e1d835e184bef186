import StackMachine.Proofs.Labels
import StackMachine.Proofs.Tandem

/-!
# What a stopped run leaves behind

A machine lives on after a run that was stopped, so what such a run leaves is what the next one
finds. An instruction pops its operands one at a time. If one is missing, the run underflows and
the stack is empty, whatever the operands that were there would have led to; otherwise all of
them are gone before anything can be wrong with them. In both cases nothing else has changed, and
all that earlier instructions did stays.

The lines that were printed are compared through the configuration that a run has come to, which
counts them once for the sink and once among its events.

## Main definitions

* `Instr.arity`: how many operands an instruction has.
* `StopsAt`: a configuration and an instruction at which the run of a program ends.

## Main results

* `exists_underflow_iff`: an instruction underflows exactly if it finds too few operands.
* `state_of_fault`: a fault has popped the operands of its instruction and changed nothing else.
* `Config.Reaches.lines_eq`: the lines among the events are those that the sink has taken.
* `stopped_run`: **what a stopped run leaves behind.**
-/

namespace StackMachine

/-! ### Operands -/

/-- How many operands an instruction has. -/
def Instr.arity : Instr → Nat
  | bare op => op.arity
  | _ => 0

section Operands

variable {ins : Instr} {s t : State} {cause : Cause}

/-- An instruction that is about to jump has its operands. -/
theorem Instr.arity_le_of_jumpsTo? {stack : List Int} {v : Int}
    (h : ins.jumpsTo? stack = some v) : ins.arity ≤ stack.length := by
  rw [jumpsTo?.eq_def] at h
  split at h
  next id rest => exact Nat.le_add_left 1 rest.length
  next id cond rest => exact Nat.le_add_left 2 rest.length
  next => cases h

/-- **An instruction underflows exactly if it finds too few operands.** -/
theorem exists_underflow_iff : (∃ t, step ins s = .underflow t) ↔ s.stack.length < ins.arity := by
  constructor
  · rintro ⟨t, hstep⟩
    cases effect_of_step hstep with
    | underflow hins hfew =>
        subst hins
        exact hfew
  · intro hfew
    cases ins with
    | bare op => exact ⟨_, Opcode.perform_of_few hfew⟩
    | lit v => exact absurd hfew (Nat.not_lt_zero _)
    | label n => exact absurd hfew (Nat.not_lt_zero _)
    | mislabel x => exact absurd hfew (Nat.not_lt_zero _)
    | unknown name => exact absurd hfew (Nat.not_lt_zero _)

/-- An underflow empties the stack. -/
theorem state_of_underflow (h : step ins s = .underflow t) : t = s.withStack [] := by
  cases effect_of_step h with
  | underflow hins hfew => rfl

/-- **A fault has popped the operands of its instruction and changed nothing else.** -/
theorem state_of_fault (h : step ins s = .fault cause t) :
    ins.arity ≤ s.stack.length ∧ t = s.withStack (s.stack.drop ins.arity) := by
  cases effect_of_step h with
  | undefined hins hjump htarget =>
      have harity := Instr.arity_le_of_jumpsTo? hjump
      subst hins
      exact ⟨harity, rfl⟩
  | divisionByZero hins hstack =>
      subst hins
      simp [Instr.arity, Opcode.arity, hstack]
  | loadOutside hins hstack hcell =>
      subst hins
      simp [Instr.arity, Opcode.arity, hstack]
  | storePast hins hstack hout =>
      subst hins
      simp [Instr.arity, Opcode.arity, hstack]

end Operands

/-! ### Printed lines -/

/-- Raising a tag hands no line over. -/
theorem Watch.filterMap_line?_raised (w : Watch) (t : Tag) (events : List Event) :
    (w.raised t ++ events).filterMap Event.line? = events.filterMap Event.line? := by
  rw [raised]
  split <;> rfl

namespace Config

variable {w : Watch} {code : Array Instr} {ins : Instr} {c c' : Config} {r : Report}

/-- An instruction adds the same lines to the events and to what the sink has taken. -/
theorem lines_of_dispatch_inl (hd : c.dispatch w ins = .inl c')
    (h : c.events.filterMap Event.line? = c.taken) :
    c'.events.filterMap Event.line? = c'.taken := by
  obtain ⟨s, -, rfl⟩ | ⟨v, s, -, -, rfl⟩ | ⟨label, target, s, -, rfl⟩ := dispatch_inl_cases hd
  · exact h
  · simp only [List.filterMap_cons, Event.line?, w.filterMap_line?_raised, h]
  · simp only [w.filterMap_line?_raised, h]

/-- A run that underflows or faults ends without a further line. -/
theorem lines_of_dispatch_inr (hd : c.dispatch w ins = .inr r)
    (hends : r.ending = .underflow ∨ ∃ f, r.ending = .faulted f) :
    r.lines = (c.events.filterMap Event.line?).reverse := by
  obtain ⟨v, s, e, -, -, rfl⟩ | ⟨s, -, rfl⟩ | ⟨cause, s, -, rfl⟩ | ⟨-, rfl⟩ :=
    dispatch_inr_cases hd
  · rw [ending_refuse] at hends
    rcases hends with hunder | ⟨f, hfault⟩
    · cases hunder
    · cases hfault
  · rw [Report.lines, List.filterMap_reverse, w.filterMap_line?_raised]
  · rw [Report.lines, List.filterMap_reverse, w.filterMap_line?_raised]
  · rcases hends with hunder | ⟨f, hfault⟩
    · cases hunder
    · cases hfault

/-- At the start of a run no line has been taken. -/
theorem lines_start (w : Watch) (p : Program) (s : State) :
    (start w p s).events.filterMap Event.line? = [] := by
  rw [start, List.filterMap_reverse]
  split <;> simp [Event.line?]

end Config

/-- The lines among the events of a run under way are those that its sink has taken. -/
theorem Config.Reaches.lines_eq {w : Watch} {code : Array Instr} {c c' : Config}
    (hreach : Reaches w code c c') (h : c.events.filterMap Event.line? = c.taken) :
    c'.events.filterMap Event.line? = c'.taken := by
  induction hreach with
  | refl => exact h
  | tail _ hstep ih =>
      obtain ⟨ins, -, hd⟩ := hstep
      exact lines_of_dispatch_inl hd ih

/-- The lines among the events of a run are those that were taken. -/
theorem Passes.lines_eq {w : Watch} {p : Program} {s : State} {c : Config} (h : Passes w p s c) :
    c.events.filterMap Event.line? = c.taken :=
  h.reaches.lines_eq (Config.lines_start w p s)

/-! ### Stopped runs -/

/-- The run of a program ends at an instruction: it comes to a configuration, finds the
instruction there, and reports what dispatching it reports. -/
structure StopsAt (w : Watch) (b : Nat) (p : Program) (s : State) (c : Config) (ins : Instr) :
    Prop where
  passes : Passes w p s c
  next : p[c.ip]? = some ins
  report : c.dispatch w ins = .inr (execute w b p s)

section Stops

variable {w : Watch} {b : Nat} {p : Program} {s : State} {c : Config} {ins : Instr}

/-- A program ends at an instruction, unless it finishes, exhausts its budget, or faults for the
order of its labels. -/
theorem exists_stopsAt (hbefore : ∀ value, (execute w b p s).ending ≠ .finished value)
    (hends : (execute w b p s).ending ≠ .exhausted)
    (horder : ∀ f, (execute w b p s).ending = .faulted f → f.cause.code ≠ .labelOrder) :
    ∃ c ins, StopsAt w b p s c ins := by
  cases hfault : (s.table.bindAll p).fault with
  | some f =>
      obtain ⟨k, x, -, -, rfl, -⟩ := JumpTable.bindFrom_of_fault hfault
      rw [execute_of_fault w b hfault] at horder
      exact absurd rfl (horder _ rfl)
  | none =>
      obtain ⟨c, hpass, hend⟩ := exists_passes_of_execute w b hfault
      generalize hr : execute w b p s = r at hbefore hends hend
      cases hend with
      | finish hnone => exact absurd rfl (hbefore _)
      | exhaust hins => exact absurd rfl hends
      | @halt ins r hins hd =>
          rw [List.getElem?_toArray] at hins
          exact ⟨c, ins, hpass, hins, hr ▸ hd⟩

/-- An instruction ends its run by an underflow exactly if it finds too few operands. -/
theorem Config.exists_dispatch_underflow_iff :
    (∃ r, c.dispatch w ins = .inr r ∧ r.ending = .underflow) ↔
      c.state.stack.length < ins.arity := by
  rw [← exists_underflow_iff]
  constructor
  · rintro ⟨r, hd, hr⟩
    obtain ⟨v, s, e, -, -, rfl⟩ | ⟨s, hs, -⟩ | ⟨cause, s, -, rfl⟩ | ⟨-, rfl⟩ :=
      dispatch_inr_cases hd
    · rw [ending_refuse] at hr
      cases hr
    · exact ⟨s, hs⟩
    · cases hr
    · cases hr
  · rintro ⟨t, hs⟩
    exact ⟨_, dispatch_of_underflow hs, rfl⟩

namespace StopsAt

/-- A run that underflows has found too few operands; it has emptied the stack and done nothing
else. -/
theorem of_underflow (h : StopsAt w b p s c ins) (hr : (execute w b p s).ending = .underflow) :
    c.state.stack.length < ins.arity ∧ (execute w b p s).state = c.state.withStack [] ∧
      (execute w b p s).lines = c.taken.reverse := by
  have hfew := Config.exists_dispatch_underflow_iff.1 ⟨_, h.report, hr⟩
  obtain ⟨t, hstep⟩ := exists_underflow_iff.2 hfew
  refine ⟨hfew, ?_, ?_⟩
  · rw [Config.state_of_dispatch_inr h.report, hstep]
    exact state_of_underflow hstep
  · rw [Config.lines_of_dispatch_inr h.report (.inl hr), h.passes.lines_eq]

/-- A run that faults has found the operands of its instruction; it has popped them and done
nothing else. -/
theorem of_fault (h : StopsAt w b p s c ins) {f : Fault}
    (hr : (execute w b p s).ending = .faulted f) :
    c.ip = f.ip ∧ ins.arity ≤ c.state.stack.length ∧
      (execute w b p s).state = c.state.withStack (c.state.stack.drop ins.arity) ∧
      (execute w b p s).lines = c.taken.reverse := by
  have hlines := Config.lines_of_dispatch_inr h.report (.inr ⟨f, hr⟩)
  rw [h.passes.lines_eq] at hlines
  have hd := h.report
  generalize execute w b p s = r at hr hlines hd
  obtain ⟨v, t, e, -, -, rfl⟩ | ⟨t, -, rfl⟩ | ⟨cause, t, hs, rfl⟩ | ⟨-, rfl⟩ :=
    Config.dispatch_inr_cases hd
  · rw [Config.ending_refuse] at hr
    cases hr
  · cases hr
  · obtain rfl := Ending.faulted.inj hr
    obtain ⟨harity, rfl⟩ := state_of_fault hs
    exact ⟨rfl, harity, rfl, hlines⟩
  · cases hr

end StopsAt

end Stops

/-- **What a stopped run leaves behind.** Take any program on any state, and any sink. An
instruction that the run comes to underflows exactly if the stack has fewer cells than the
instruction has operands, and then the program ends by that underflow; a fault is only ever met
by an instruction that has all its operands. A branch whose condition is zero goes on, whatever
its label.

If the program underflows, it has come to an instruction that finds too few operands. The stack
is left empty, and memory, table and printed lines are those before this instruction. If it
faults in one of the four ways that an instruction can, it has come to an instruction that finds
its operands. The stack is left without exactly these, and memory, table and printed lines are
those before this instruction. -/
theorem stopped_run (w : Watch) (p : Program) (s : State) :
    (∀ c ins, Passes w p s c → p[c.ip]? = some ins →
      ((∃ r, c.dispatch w ins = .inr r ∧ r.ending = .underflow) ↔
        c.state.stack.length < ins.arity) ∧
      (c.state.stack.length < ins.arity →
        ∃ k, ∀ b, k ≤ b → (execute w b p s).ending = .underflow) ∧
      (∀ r f, c.dispatch w ins = .inr r → r.ending = .faulted f →
        ins.arity ≤ c.state.stack.length)) ∧
    (∀ (c : Config) (id : Int) (rest : List Int), c.state.stack = id :: 0 :: rest →
      c.dispatch w (.bare .cjmp) =
        .inl { c with ip := c.ip + 1, state := c.state.withStack rest }) ∧
    (∀ b, let r := execute w b p s
      r.ending = .underflow → ∃ c ins, StopsAt w b p s c ins ∧
        c.state.stack.length < ins.arity ∧ r.state.stack = [] ∧
        r.state.memory = c.state.memory ∧ r.state.table = c.state.table ∧
        r.lines = c.taken.reverse) ∧
    (∀ b f, let r := execute w b p s
      r.ending = .faulted f →
      f.cause.code.name ∈ ["E_DIV_ZERO", "E_MEM_LOAD", "E_MEM_STORE", "E_LABEL_UNDEFINED"] →
      ∃ c ins, StopsAt w b p s c ins ∧ c.ip = f.ip ∧ ins.arity ≤ c.state.stack.length ∧
        r.state.stack = c.state.stack.drop ins.arity ∧ r.state.memory = c.state.memory ∧
        r.state.table = c.state.table ∧ r.lines = c.taken.reverse) := by
  refine ⟨?_, ?_, ?_, ?_⟩
  · intro c ins hpass hins
    refine ⟨Config.exists_dispatch_underflow_iff, ?_, ?_⟩
    · intro hfew
      obtain ⟨r, hd, hr⟩ := Config.exists_dispatch_underflow_iff (w := w).2 hfew
      obtain ⟨k, hk⟩ := hpass.exists_execute_eq hins hd
      exact ⟨k, fun b hb => by rw [hk b hb, hr]⟩
    · intro r f hd hr
      by_contra hfew
      obtain ⟨r', hd', hunder⟩ :=
        Config.exists_dispatch_underflow_iff (w := w).2 (Nat.lt_of_not_le hfew)
      obtain rfl : r = r' := Sum.inr.inj (hd.symm.trans hd')
      rw [hr] at hunder
      cases hunder
  · intro c id rest hstack
    refine Config.dispatch_of_next ?_
    simp only [step, Opcode.perform, hstack, if_true]
  -- A run that underflows neither finishes nor fails in the pass over its labels.
  · intro b r hr
    have hstops : ∃ c ins, StopsAt w b p s c ins := by
      refine exists_stopsAt ?_ ?_ ?_
      · intro value hvalue
        cases hr.symm.trans hvalue
      · intro hexhausted
        cases hr.symm.trans hexhausted
      · intro f hf
        cases hr.symm.trans hf
    obtain ⟨c, ins, hstop⟩ := hstops
    obtain ⟨hfew, hstate, hlines⟩ := hstop.of_underflow hr
    refine ⟨c, ins, hstop, hfew, ?_, ?_, ?_, hlines⟩ <;> rw [hstate] <;> rfl
  · intro b f r hr hcode
    have hstops : ∃ c ins, StopsAt w b p s c ins := by
      refine exists_stopsAt ?_ ?_ ?_
      · intro value hvalue
        cases hr.symm.trans hvalue
      · intro hexhausted
        cases hr.symm.trans hexhausted
      -- Of the faults, only that of a label out of order comes without an instruction.
      · intro g hg horder
        obtain rfl : f = g := Ending.faulted.inj (hr.symm.trans hg)
        rw [horder] at hcode
        exact absurd hcode (by decide)
    obtain ⟨c, ins, hstop⟩ := hstops
    obtain ⟨hip, harity, hstate, hlines⟩ := hstop.of_fault hr
    refine ⟨c, ins, hstop, hip, harity, ?_, ?_, ?_, hlines⟩ <;> rw [hstate] <;> rfl

/-- A store to an address out of reach: without a value it underflows and empties the stack, and
with one it faults and leaves the cell below its operands. -/
theorem stopped_run_store :
    let w : Watch := ⟨true, Sink.takeAll⟩
    let p : Program := [.lit 4, .bare .put, .lit 9, .bare .store]
    let q : Program := [.lit 4, .lit 1, .lit 9, .bare .store]
    (execute w 9 p .initial).ending = .underflow ∧
    (∃ c ins, StopsAt w 9 p .initial c ins ∧ c.state.stack.length < ins.arity ∧
      (execute w 9 p .initial).state.stack = [] ∧
      (execute w 9 p .initial).lines = c.taken.reverse) ∧
    (execute w 9 q .initial).ending = .faulted ⟨3, .storePast 9 0⟩ ∧
    (∃ c ins, StopsAt w 9 q .initial c ins ∧ c.ip = 3 ∧
      (execute w 9 q .initial).state.stack = c.state.stack.drop ins.arity) := by
  intro w p q
  have hunder : (execute w 9 p .initial).ending = .underflow := by decide
  have hfault : (execute w 9 q .initial).ending = .faulted ⟨3, .storePast 9 0⟩ := by decide
  obtain ⟨-, -, hstopped, -⟩ := stopped_run w p .initial
  obtain ⟨c, ins, hstop, hfew, hstack, -, -, hlines⟩ := hstopped 9 hunder
  obtain ⟨-, -, -, hfaulted⟩ := stopped_run w q .initial
  obtain ⟨c', ins', hstop', hip, -, hstack', -⟩ := hfaulted 9 _ hfault (by decide)
  exact ⟨hunder, ⟨c, ins, hstop, hfew, hstack, hlines⟩, hfault, c', ins', hstop', hip, hstack'⟩

end StackMachine
