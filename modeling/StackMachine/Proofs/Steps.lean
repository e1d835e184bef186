import Mathlib.Logic.Relation
import StackMachine.Machine.Run

/-!
# Runs as sequences of steps

A run recurses on a budget. This module takes the budget out of the way: a run steps from
configuration to configuration, `Config.Steps`, and what it reports is how the last one of
them ends, `Config.Ends`. A property of runs is then a property of single steps, carried
along `Relation.ReflTransGen`.

The semantics is inverted once on each of its two levels: `effect_of_step` tells what a
single instruction can do to a state, and `Config.dispatch_inl_cases` and
`Config.dispatch_inr_cases` tell what the run makes of it. Later proofs split on these
cases and do not look into the definitions again.

## Main results

* `effect_of_step`: an instruction has one of the effects of `Effect`.
* `Config.exists_ends_run`: a run ends at a configuration that it reaches.
* `Config.Reaches.exists_run_eq`: a configuration that is reached takes over the run, for
  every large enough budget.
* `Passes` and `exists_passes_of_execute`: the same for a program on a state.
-/

namespace StackMachine

/-! ### What an instruction can do -/

/-- The label that an instruction is about to jump to: the popped one, unless operands are
missing or the condition is zero. -/
def Instr.jumpsTo? (ins : Instr) (stack : List Int) : Option Int :=
  match ins, stack with
  | bare .jmp, id :: _ => some id
  | bare .cjmp, id :: cond :: _ => if cond = 0 then none else some id
  | _, _ => none

/-- What an instruction can do to a state. Apart from going on, each action tells which
instruction it was and what it found. -/
inductive Effect (ins : Instr) (s : State) : Action → Prop where
  | next {s' : State} (htable : s'.table = s.table) : Effect ins s (.next s')
  | print {v : Int} {rest : List Int} (hins : ins = .bare .put) (hstack : s.stack = v :: rest) :
      Effect ins s (.print v (s.withStack rest))
  | jump {op : Opcode} {v : Int} {i : Nat} (hins : ins = .bare op)
      (hjump : ins.jumpsTo? s.stack = some v) (htarget : s.table.target? v = some i) :
      Effect ins s (.jump v.toNat i (s.withStack (s.stack.drop op.arity)))
  | undefined {op : Opcode} {v : Int} (hins : ins = .bare op)
      (hjump : ins.jumpsTo? s.stack = some v) (htarget : s.table.target? v = none) :
      Effect ins s (.fault (.labelUndefined v) (s.withStack (s.stack.drop op.arity)))
  | divisionByZero {a : Int} {rest : List Int} (hins : ins = .bare .div)
      (hstack : s.stack = a :: 0 :: rest) :
      Effect ins s (.fault (.divisionByZero a) (s.withStack rest))
  | loadOutside {addr : Int} {rest : List Int} (hins : ins = .bare .load)
      (hstack : s.stack = addr :: rest) (hcell : s.memory.cell? addr = none) :
      Effect ins s (.fault (.loadOutside addr s.memory.size) (s.withStack rest))
  | storePast {addr value : Int} {rest : List Int} (hins : ins = .bare .store)
      (hstack : s.stack = addr :: value :: rest) (hout : ¬(0 ≤ addr ∧ addr ≤ s.memory.size)) :
      Effect ins s (.fault (.storePast addr s.memory.size) (s.withStack rest))
  | underflow {op : Opcode} (hins : ins = .bare op) (hfew : s.stack.length < op.arity) :
      Effect ins s (.underflow (s.withStack []))
  | unknown {name : String} (hins : ins = .unknown name) : Effect ins s .unknown

/-- A jump has the effect of taken or undefined jumps, as the table has its label or not. -/
theorem Effect.of_jump {op : Opcode} {s : State} {v : Int} {rest : List Int}
    (hjump : (Instr.bare op).jumpsTo? s.stack = some v) (hrest : s.stack.drop op.arity = rest) :
    Effect (.bare op) s ((s.withStack rest).jump v) := by
  subst hrest
  have htable : (s.withStack (s.stack.drop op.arity)).table = s.table := rfl
  rw [State.jump, htable]
  cases htarget : s.table.target? v with
  | some i => exact .jump rfl hjump htarget
  | none => exact .undefined rfl hjump htarget

/-- **What an operation does is one of the effects.** -/
theorem Opcode.effect_perform (op : Opcode) (s : State) : Effect (.bare op) s (op.perform s) := by
  rw [Opcode.perform.eq_def]
  split
  case h_4 a b rest hstack =>
      split
      next hzero => exact .divisionByZero rfl (hzero ▸ hstack)
      next => exact .next rfl
  case h_5 addr rest hstack =>
      rw [Memory.load]
      cases hcell : s.memory.cell? addr with
      | some v => exact .next rfl
      | none => exact .loadOutside rfl hstack hcell
  case h_6 addr value rest hstack =>
      by_cases hin : 0 ≤ addr ∧ addr ≤ s.memory.size
      · have hstored : ∃ memory, s.memory.store addr value = .ok memory :=
          Memory.exists_store_iff.2 hin
        obtain ⟨memory, hstore⟩ := hstored
        rw [hstore]
        exact .next rfl
      · rw [Memory.store, if_neg hin]
        exact .storePast rfl hstack hin
  case h_7 id rest hstack => exact .of_jump (by rw [hstack]; rfl) (by rw [hstack]; rfl)
  case h_8 id cond rest hstack =>
      split
      next => exact .next rfl
      next hcond =>
        exact .of_jump (by rw [hstack, Instr.jumpsTo?, if_neg hcond]) (by rw [hstack]; rfl)
  case h_9 a rest hstack => exact .print rfl hstack
  case h_15 op _ _ hadd hsub hmul hdiv hload hstore hjmp hcjmp hput hdup hswap heq hlt hgt =>
      refine .underflow rfl ?_
      -- an operation that finds its operands is one of the cases before
      rcases hstack : s.stack with _ | ⟨a, _ | ⟨b, rest⟩⟩ <;> cases op <;> grind [arity]
  all_goals exact .next rfl

/-- What an instruction does is one of the effects. -/
theorem effect_of_step {ins : Instr} {s : State} {action : Action} (h : step ins s = action) :
    Effect ins s action := by
  subst h
  cases ins with
  | lit v => exact .next rfl
  | label n => exact .next rfl
  | mislabel x => exact .next rfl
  | bare op => exact op.effect_perform s
  | unknown name => exact .unknown rfl

/-- The state that an action leaves. -/
def Action.after (s : State) : Action → State
  | next t | print _ t | jump _ _ t | underflow t | fault _ t => t
  | unknown => s

/-- A jump leaves the state that it is made in, whether it is taken or not. -/
theorem State.after_jump (s t : State) (id : Int) : (t.jump id).after s = t := by
  rw [State.jump]
  cases t.table.target? id <;> rfl

/-- No instruction binds a label. -/
theorem table_step (ins : Instr) (s : State) : ((step ins s).after s).table = s.table := by
  generalize h : step ins s = action
  cases effect_of_step h with
  | next htable => exact htable
  | _ => rfl

/-- Only `put` prints, and it prints the cell that it pops. -/
theorem print_of_step {ins : Instr} {s s' : State} {v : Int} (h : step ins s = .print v s') :
    ins = .bare .put ∧ s.stack = v :: s'.stack := by
  cases effect_of_step h with
  | print hins hstack => exact ⟨hins, hstack⟩

/-- Only a jump jumps, and only to a label of the table. -/
theorem target_of_step {ins : Instr} {s s' : State} {label target : Nat}
    (h : step ins s = .jump label target s') :
    ∃ v, ins.jumpsTo? s.stack = some v ∧ s.table.target? v = some target := by
  cases effect_of_step h with
  | jump hins hjump htarget => exact ⟨_, hjump, htarget⟩

/-- An instruction that is about to jump to a label does so. -/
theorem step_of_jumpsTo? {ins : Instr} {s : State} {v : Int}
    (h : ins.jumpsTo? s.stack = some v) : ∃ rest, step ins s = (s.withStack rest).jump v := by
  rw [Instr.jumpsTo?.eq_def] at h
  split at h
  next id rest hstack =>
    obtain rfl := Option.some.inj h
    exact ⟨rest, by simp only [step, Opcode.perform, hstack]⟩
  next id cond rest hstack =>
    split at h
    · cases h
    next hcond =>
      obtain rfl := Option.some.inj h
      exact ⟨rest, by simp only [step, Opcode.perform, hstack, if_neg hcond]⟩
  next => cases h

/-- The events of a tag: one if the run is traced, and none otherwise. -/
def Watch.raised (w : Watch) (t : Tag) : List Event := if w.trace then [.tag t] else []

namespace Config

variable {w : Watch} {code : Array Instr} {ins : Instr} {c c' : Config} {r : Report}

/-- Raising a tag changes the events only. -/
theorem raise_eq (w : Watch) (t : Tag) (c : Config) :
    c.raise w t = { c with events := w.raised t ++ c.events } := by
  rw [raise, Watch.raised]
  split <;> rfl

/-! ### Dispatch, inverted -/

/-- A dispatch after which the run goes on: an instruction that only changed the state, one
that printed a line, or a jump. -/
theorem dispatch_inl_cases (h : c.dispatch w ins = .inl c') :
    (∃ s, step ins c.state = .next s ∧ c' = { c with ip := c.ip + 1, state := s }) ∨
    (∃ v s, step ins c.state = .print v s ∧ w.sink c.taken (toString v) = none ∧
      c' = ⟨c.ip + 1, s, toString v :: c.taken,
        .line (toString v) :: (w.raised (.emit (.ofNat c.ip) (toString v)) ++ c.events)⟩) ∨
    (∃ label target s, step ins c.state = .jump label target s ∧
      c' = ⟨target, s, c.taken,
        w.raised (.jump (.ofNat c.ip) (.ofNat target) (.ofNat label)) ++ c.events⟩) := by
  rw [dispatch] at h
  cases hstep : step ins c.state with
  | next s =>
      rw [hstep] at h
      exact .inl ⟨s, rfl, (Sum.inl.inj h).symm⟩
  | print v s =>
      simp only [hstep, print, raise_eq] at h
      split at h
      next hsink => exact .inr (.inl ⟨v, s, rfl, hsink, (Sum.inl.inj h).symm⟩)
      next => cases h
  | jump label target s =>
      simp only [hstep, raise_eq] at h
      exact .inr (.inr ⟨label, target, s, rfl, (Sum.inl.inj h).symm⟩)
  | underflow s => rw [hstep] at h; cases h
  | fault cause s => rw [hstep] at h; cases h
  | unknown => rw [hstep] at h; cases h

/-- A dispatch that ends the run: a line that the sink refused, too few operands, a fault,
or no operation. -/
theorem dispatch_inr_cases (h : c.dispatch w ins = .inr r) :
    (∃ v s e, step ins c.state = .print v s ∧ w.sink c.taken (toString v) = some e ∧
      r = refuse w e ⟨c.ip, s, c.taken,
        .refused (toString v) :: (w.raised (.emit (.ofNat c.ip) (toString v)) ++ c.events)⟩) ∨
    (∃ s, step ins c.state = .underflow s ∧
      r = ⟨.underflow, s,
        (w.raised (.halt .underflow (.ofNat c.ip) none) ++ c.events).reverse⟩) ∨
    (∃ cause s, step ins c.state = .fault cause s ∧
      r = ⟨.faulted ⟨c.ip, cause⟩, s,
        (w.raised (Diagnostic.tag (Fault.diagnostic ⟨c.ip, cause⟩) c.ip) ++
          c.events).reverse⟩) ∨
    (step ins c.state = .unknown ∧ r = c.stop .unknownOpcode) := by
  rw [dispatch] at h
  cases hstep : step ins c.state with
  | next s => rw [hstep] at h; cases h
  | jump label target s => rw [hstep] at h; cases h
  | print v s =>
      simp only [hstep, print, raise_eq] at h
      split at h
      next => cases h
      next e hsink => exact .inl ⟨v, s, e, rfl, hsink, (Sum.inr.inj h).symm⟩
  | underflow s =>
      simp only [hstep, raise_eq, stop] at h
      exact .inr (.inl ⟨s, rfl, (Sum.inr.inj h).symm⟩)
  | fault cause s =>
      simp only [hstep, raise_eq, stop] at h
      exact .inr (.inr (.inl ⟨cause, s, rfl, (Sum.inr.inj h).symm⟩))
  | unknown =>
      rw [hstep] at h
      exact .inr (.inr (.inr ⟨rfl, (Sum.inr.inj h).symm⟩))

/-- A run that ends on a refused line ends with the error of the sink. -/
@[simp]
theorem ending_refuse (w : Watch) (e : Error) (c : Config) :
    (c.refuse w e).ending = .refused e := by
  cases e <;> rfl

/-- A run that ends on a refused line leaves the state as it is. -/
@[simp]
theorem state_refuse (w : Watch) (e : Error) (c : Config) : (c.refuse w e).state = c.state := by
  cases e with
  | diagnosed d => rw [refuse, raise_eq]; rfl
  | defect d => rfl

/-- A run that finishes pops the value that it yields. -/
@[simp]
theorem state_finish (w : Watch) (c : Config) :
    (c.finish w).state = c.state.withStack c.state.stack.tail := by
  rw [finish, raise_eq]
  rfl

/-- With the returned value back on the stack, the state is the one in which the run ended. -/
theorem withStack_finish {value : Option Int} (h : (c.finish w).ending = .finished value) :
    (c.finish w).state.withStack (value.toList ++ (c.finish w).state.stack) = c.state := by
  obtain rfl : c.state.stack.head? = value := Ending.finished.inj h
  obtain ⟨ip, ⟨_ | ⟨v, rest⟩, memory, table⟩, taken, events⟩ := c
  · rw [state_finish]
    rfl
  · rw [state_finish]
    rfl

/-- A dispatch after which the run goes on leaves the state that the instruction leaves. -/
theorem state_of_dispatch_inl (h : c.dispatch w ins = .inl c') :
    c'.state = (step ins c.state).after c.state := by
  obtain ⟨s, hs, rfl⟩ | ⟨v, s, hs, -, rfl⟩ | ⟨label, target, s, hs, rfl⟩ :=
    dispatch_inl_cases h <;> rw [hs] <;> rfl

/-- A dispatch that ends the run leaves the state that the instruction leaves. -/
theorem state_of_dispatch_inr (h : c.dispatch w ins = .inr r) :
    r.state = (step ins c.state).after c.state := by
  obtain ⟨v, s, e, hs, -, rfl⟩ | ⟨s, hs, rfl⟩ | ⟨cause, s, hs, rfl⟩ | ⟨hs, rfl⟩ :=
    dispatch_inr_cases h <;> rw [hs]
  · exact state_refuse w e _
  all_goals rfl

/-! ### Steps -/

/-- One step of a run: an instruction is dispatched and the run goes on. -/
def Steps (w : Watch) (code : Array Instr) (c c' : Config) : Prop :=
  ∃ ins, code[c.ip]? = some ins ∧ c.dispatch w ins = .inl c'

/-- The configurations that a run comes to from a given one. -/
abbrev Reaches (w : Watch) (code : Array Instr) : Config → Config → Prop :=
  Relation.ReflTransGen (Steps w code)

/-- A step that goes on takes one from the budget. -/
theorem run_of_inl (hc : code[c.ip]? = some ins) (hd : c.dispatch w ins = .inl c') (b : Nat) :
    c.run w code (b + 1) = c'.run w code b := by
  simp only [run, hc, hd]

/-- A step that ends the run gives its report. -/
theorem run_of_inr (hc : code[c.ip]? = some ins) (hd : c.dispatch w ins = .inr r) (b : Nat) :
    c.run w code (b + 1) = r := by
  simp only [run, hc, hd]

/-- How a configuration ends a run. -/
inductive Ends (w : Watch) (code : Array Instr) (c : Config) : Report → Prop where
  /-- There is no next instruction. -/
  | finish (h : code[c.ip]? = none) : Ends w code c (c.finish w)
  /-- The next instruction ends the run. -/
  | halt {ins : Instr} {r : Report} (h : code[c.ip]? = some ins)
      (hd : c.dispatch w ins = .inr r) : Ends w code c r
  /-- There is a next instruction, but no budget for it. -/
  | exhaust {ins : Instr} (h : code[c.ip]? = some ins) : Ends w code c (c.stop .exhausted)

/-- **A run ends at a configuration that it reaches.** -/
theorem exists_ends_run (w : Watch) (code : Array Instr) (b : Nat) (c : Config) :
    ∃ c', Reaches w code c c' ∧ Ends w code c' (c.run w code b) := by
  induction b generalizing c with
  | zero =>
      rw [run]
      cases hc : code[c.ip]? with
      | none => exact ⟨c, .refl, .finish hc⟩
      | some ins => exact ⟨c, .refl, .exhaust hc⟩
  | succ b ih =>
      cases hc : code[c.ip]? with
      | none =>
          have hrun : c.run w code (b + 1) = c.finish w := by simp only [run, hc]
          exact ⟨c, .refl, hrun ▸ .finish hc⟩
      | some ins =>
          cases hd : c.dispatch w ins with
          | inl next =>
              obtain ⟨c', hreach, hends⟩ := ih next
              rw [run_of_inl hc hd]
              exact ⟨c', .head ⟨ins, hc, hd⟩ hreach, hends⟩
          | inr r =>
              rw [run_of_inr hc hd]
              exact ⟨c, .refl, .halt hc hd⟩

/-- A configuration that is reached takes over the run, for every large enough budget. -/
theorem Reaches.exists_run_eq (h : Reaches w code c c') :
    ∃ k, ∀ b, c.run w code (b + k) = c'.run w code b := by
  induction h using Relation.ReflTransGen.head_induction_on with
  | refl => exact ⟨0, fun b => rfl⟩
  | head hstep _ ih =>
      obtain ⟨ins, hc, hd⟩ := hstep
      obtain ⟨k, hk⟩ := ih
      refine ⟨k + 1, ?_⟩
      intro b
      rw [← Nat.add_assoc, run_of_inl hc hd]
      exact hk b

/-- Steps do not bind labels. -/
theorem Reaches.table_eq (h : Reaches w code c c') : c'.state.table = c.state.table := by
  induction h with
  | refl => rfl
  | tail _ hstep ih =>
      obtain ⟨ins, -, hd⟩ := hstep
      rw [state_of_dispatch_inl hd, table_step, ih]

/-- The configuration in which the dispatch of a program begins, once its labels are
bound. -/
def start (w : Watch) (program : Program) (s : State) : Config :=
  let binding := s.table.bindAll program
  let raised := if w.trace then binding.bound.map fun (label, index) =>
    Event.tag (.bind label (.ofNat index)) else []
  ⟨0, { s with table := binding.table }, [], raised.reverse⟩

end Config

/-! ### Programs on states -/

open Config

variable {w : Watch} {p : Program} {s : State} {c c' : Config}

/-- A run binds its labels and, unless one is out of order, goes through its instructions. -/
theorem execute_eq (w : Watch) (b : Nat) (p : Program) (s : State) :
    execute w b p s =
      match (s.table.bindAll p).fault with
      | some f => ((start w p s).raise w (f.diagnostic.tag 0)).stop (.faulted f)
      | none => (start w p s).run w p.toArray b := rfl

/-- The configurations that the run of a program on a state passes through. -/
structure Passes (w : Watch) (p : Program) (s : State) (c : Config) : Prop where
  /-- The labels of the program can be bound. -/
  binds : (s.table.bindAll p).fault = none
  /-- The configuration is reached from the first one. -/
  reaches : Reaches w p.toArray (start w p s) c

/-- The run of a program whose labels can be bound ends at a configuration that it passes
through. -/
theorem exists_passes_of_execute (w : Watch) (b : Nat) (h : (s.table.bindAll p).fault = none) :
    ∃ c, Passes w p s c ∧ Ends w p.toArray c (execute w b p s) := by
  obtain ⟨c, hreach, hends⟩ := exists_ends_run w p.toArray b (start w p s)
  refine ⟨c, ⟨h, hreach⟩, ?_⟩
  rw [execute_eq, h]
  exact hends

/-- A program whose labels cannot be bound ends with that fault. -/
theorem execute_of_fault {f : Fault} (w : Watch) (b : Nat)
    (h : (s.table.bindAll p).fault = some f) :
    execute w b p s = ((start w p s).raise w (f.diagnostic.tag 0)).stop (.faulted f) := by
  rw [execute_eq, h]

/-- How a configuration ends a run does not bind labels. -/
theorem Config.Ends.table_eq {code : Array Instr} {r : Report} (h : c.Ends w code r) :
    r.state.table = c.state.table := by
  cases h with
  | finish hend => rw [state_finish]; rfl
  | halt hins hd => rw [state_of_dispatch_inr hd, table_step]
  | exhaust hins => rfl

/-- Only the end of the program finishes a run. -/
theorem Config.Ends.eq_finish {code : Array Instr} {r : Report} {value : Option Int}
    (h : c.Ends w code r) (hr : r.ending = .finished value) :
    code[c.ip]? = none ∧ r = c.finish w := by
  cases h with
  | finish hend => exact ⟨hend, rfl⟩
  | exhaust hins => cases hr
  | halt hins hd =>
      obtain ⟨v, s, e, -, -, rfl⟩ | ⟨s, -, rfl⟩ | ⟨cause, s, -, rfl⟩ | ⟨-, rfl⟩ :=
        dispatch_inr_cases hd
      · rw [ending_refuse] at hr
        cases hr
      all_goals cases hr

/-- A program that finishes has passed through a configuration without a next instruction. -/
theorem exists_finish_of_execute {b : Nat} {value : Option Int}
    (h : (execute w b p s).ending = .finished value) :
    ∃ c, Passes w p s c ∧ p[c.ip]? = none ∧ execute w b p s = c.finish w := by
  cases hfault : (s.table.bindAll p).fault with
  | some f =>
      rw [execute_of_fault w b hfault] at h
      cases h
  | none =>
      obtain ⟨c, hpass, hends⟩ := exists_passes_of_execute w b hfault
      obtain ⟨hnone, heq⟩ := hends.eq_finish h
      rw [List.getElem?_toArray] at hnone
      exact ⟨c, hpass, hnone, heq⟩

namespace Passes

/-- An instruction that ends the run decides what the program reports, for every large
enough budget. -/
theorem exists_execute_eq {ins : Instr} {r : Report} (h : Passes w p s c)
    (hins : p[c.ip]? = some ins) (hd : c.dispatch w ins = .inr r) :
    ∃ k, ∀ b, k ≤ b → execute w b p s = r := by
  obtain ⟨k, hk⟩ := h.reaches.exists_run_eq
  refine ⟨k + 1, ?_⟩
  intro b hb
  obtain ⟨b, rfl⟩ : ∃ b', b = b' + 1 + k := ⟨b - 1 - k, by omega⟩
  have hc : p.toArray[c.ip]? = some ins := by rwa [List.getElem?_toArray]
  simp only [execute_eq, h.binds, hk]
  exact run_of_inr hc hd b

/-- The table of a passed configuration is the one that the binding left. -/
theorem table_eq (h : Passes w p s c) : c.state.table = (s.table.bindAll p).table :=
  h.reaches.table_eq

end Passes

/-- A program leaves the table as its labels were bound, however it ends. -/
theorem table_execute (w : Watch) (b : Nat) (p : Program) (s : State) :
    (execute w b p s).state.table = (s.table.bindAll p).table := by
  cases hfault : (s.table.bindAll p).fault with
  | some f =>
      rw [execute_of_fault w b hfault, raise_eq]
      rfl
  | none =>
      obtain ⟨c, hpass, hends⟩ := exists_passes_of_execute w b hfault
      rw [hends.table_eq, hpass.table_eq]

end StackMachine
