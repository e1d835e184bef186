import StackMachine.Proofs.Steps

/-!
# The instructions that a run dispatches

A run is watched through its events, but what it does is decided by the instructions that
it dispatches and the states in which it finds them. This module lists them, as *visits*,
and says of a visit on its own whether it jumps and what it prints, so that what observers
see of a run can be compared with what happened in it.

## Main definitions

* `Visit`: a dispatched instruction, with its index and the state that it finds.
* `Visit.jump?`, `Visit.print?` and `Visit.next`: what a visit does, if it does not end the
  run.
* `visits`: the visits of a program on a state, in order.

## Main results

* `Visit.jump?_eq` and `Visit.print?_eq`: a visit jumps and prints exactly as its instruction
  does.
* `Config.ip_of_dispatch_inl`: a run goes on where the visit says.
* `Config.exists_last_visit`: an instruction that ends a run is its last visit.
* `Config.exists_of_mem_visits`: a visit is made by a configuration that takes over the run.
-/

namespace StackMachine

/-- A dispatched instruction, with its index and the state that it finds. -/
structure Visit where
  /-- The index of the instruction. -/
  ip : Nat
  /-- The instruction. -/
  ins : Instr
  /-- The state in which it was dispatched. -/
  state : State

/-! ### What a visit does -/

namespace Visit

/-- The label and the target of the jump that a visit takes, if it takes one. -/
def jump? (v : Visit) : Option (Nat × Nat) :=
  (v.ins.jumpsTo? v.state.stack).bind fun id =>
    (v.state.table.target? id).map fun target => (id.toNat, target)

/-- The value that a visit prints, if it prints one. -/
def print? (v : Visit) : Option Int :=
  if v.ins = .bare .put then v.state.stack.head? else none

/-- The index after a visit that does not end the run. -/
def next (v : Visit) : Nat :=
  match v.jump? with
  | some (_, target) => target
  | none => v.ip + 1

end Visit

namespace Action

/-- The label and the target of an action that jumps. -/
def jump? : Action → Option (Nat × Nat)
  | jump label target _ => some (label, target)
  | _ => none

/-- The value of an action that prints. -/
def print? : Action → Option Int
  | print value _ => some value
  | _ => none

end Action

namespace Visit

/-- A visit takes a jump exactly if its instruction does. -/
theorem jump?_eq (v : Visit) : v.jump? = (step v.ins v.state).jump? := by
  rw [jump?]
  cases hjump : v.ins.jumpsTo? v.state.stack with
  | some id =>
      obtain ⟨rest, hstep⟩ := step_of_jumpsTo? hjump
      have htable : (v.state.withStack rest).table = v.state.table := rfl
      rw [hstep, State.jump, htable]
      cases htarget : v.state.table.target? id with
      | some target => simp [htarget, Action.jump?]
      | none => simp [htarget, Action.jump?]
  | none =>
      cases hstep : step v.ins v.state with
      | jump label target s =>
          obtain ⟨id, hid, -⟩ := target_of_step hstep
          rw [hjump] at hid
          cases hid
      | _ => rfl

/-- A visit prints exactly what its instruction does. -/
theorem print?_eq (v : Visit) : v.print? = (step v.ins v.state).print? := by
  obtain ⟨ip, ins, s⟩ := v
  rw [print?]
  split
  next hput =>
    obtain rfl : ins = .bare .put := hput
    cases hstack : s.stack with
    | nil => simp [step, Opcode.perform, hstack, Action.print?]
    | cons a rest => simp [step, Opcode.perform, hstack, Action.print?]
  next hput =>
    cases hstep : step ins s with
    | print value s' => exact absurd (print_of_step hstep).1 hput
    | _ => rfl

end Visit

/-! ### The visits of a run -/

namespace Config

variable {w : Watch} {code : Array Instr} {ins : Instr} {c c' : Config} {b : Nat}

/-- The visit that a configuration makes when its instruction is dispatched. -/
def visit (c : Config) (ins : Instr) : Visit := ⟨c.ip, ins, c.state⟩

/-- A visit is made at the index of its configuration. -/
@[simp] theorem ip_visit (c : Config) (ins : Instr) : (c.visit ins).ip = c.ip := rfl

/-- The visits of a run, in order. -/
def visits (w : Watch) (code : Array Instr) : Nat → Config → List Visit
  | 0, _ => []
  | budget + 1, c =>
    match code[c.ip]? with
    | none => []
    | some ins =>
      c.visit ins ::
        match c.dispatch w ins with
        | .inl next => next.visits w code budget
        | .inr _ => []

/-- Behind the last instruction nothing is visited. -/
theorem visits_of_none (hc : code[c.ip]? = none) (b : Nat) : c.visits w code b = [] := by
  cases b with
  | zero => rfl
  | succ b => simp only [visits, hc]

/-- A step that goes on is a visit, followed by those from where it leads. -/
theorem visits_of_inl (hc : code[c.ip]? = some ins) (hd : c.dispatch w ins = .inl c') (b : Nat) :
    c.visits w code (b + 1) = c.visit ins :: c'.visits w code b := by
  simp only [visits, hc, hd]

/-- A step that ends the run is its last visit. -/
theorem visits_of_inr {r : Report} (hc : code[c.ip]? = some ins)
    (hd : c.dispatch w ins = .inr r) (b : Nat) :
    c.visits w code (b + 1) = [c.visit ins] := by
  simp only [visits, hc, hd]

/-- Behind the last instruction a run finishes. -/
theorem run_of_none (hc : code[c.ip]? = none) (b : Nat) : c.run w code b = c.finish w := by
  cases b with
  | zero => simp only [run, hc]
  | succ b => simp only [run, hc]

/-- **A run goes on where the visit says.** -/
theorem ip_of_dispatch_inl (hd : c.dispatch w ins = .inl c') : c'.ip = (c.visit ins).next := by
  have hjump : (c.visit ins).jump? = (step ins c.state).jump? := Visit.jump?_eq _
  rw [Visit.next, hjump]
  obtain ⟨s, hs, rfl⟩ | ⟨v, s, hs, -, rfl⟩ | ⟨label, target, s, hs, rfl⟩ :=
    dispatch_inl_cases hd <;> rw [hs] <;> rfl

/-- A run that is ended by an instruction is ended by its last visit. -/
theorem exists_last_visit (w : Watch) (code : Array Instr) (b : Nat) (c : Config) :
    (c.run w code b).ending = .exhausted ∨
    (∃ c' : Config, c.run w code b = c'.finish w) ∨
    ∃ (c' : Config) (ins : Instr), (c.visits w code b).getLast? = some (c'.visit ins) ∧
      code[c'.ip]? = some ins ∧ c'.dispatch w ins = .inr (c.run w code b) := by
  induction b generalizing c with
  | zero =>
      cases hc : code[c.ip]? with
      | none => exact .inr (.inl ⟨c, run_of_none hc 0⟩)
      | some ins => exact .inl (by simp only [run, hc]; rfl)
  | succ b ih =>
      cases hc : code[c.ip]? with
      | none => exact .inr (.inl ⟨c, run_of_none hc (b + 1)⟩)
      | some ins =>
          cases hd : c.dispatch w ins with
          | inl next =>
              rw [run_of_inl hc hd, visits_of_inl hc hd]
              rcases ih next with hexhausted | hfinish | ⟨c', ins', hlast, hrest⟩
              · exact .inl hexhausted
              · exact .inr (.inl hfinish)
              · refine .inr (.inr ⟨c', ins', ?_, hrest⟩)
                rw [List.getLast?_cons, hlast]
                rfl
          | inr r =>
              rw [run_of_inr hc hd, visits_of_inr hc hd]
              exact .inr (.inr ⟨c, ins, rfl, hc, hd⟩)

/-- A visit is made by a configuration that takes over the run: if its instruction ends the
run, then so does the run. -/
theorem exists_of_mem_visits {v : Visit} (h : v ∈ c.visits w code b) :
    ∃ c' : Config, v = c'.visit v.ins ∧ code[v.ip]? = some v.ins ∧
      ∀ r, c'.dispatch w v.ins = .inr r → c.run w code b = r := by
  induction b generalizing c with
  | zero => cases h
  | succ b ih =>
      cases hc : code[c.ip]? with
      | none =>
          rw [visits_of_none hc] at h
          cases h
      | some ins =>
          have hhead : v = c.visit ins → ∃ c' : Config, v = c'.visit v.ins ∧
              code[v.ip]? = some v.ins ∧
                ∀ r, c'.dispatch w v.ins = .inr r → c.run w code (b + 1) = r := by
            rintro rfl
            exact ⟨c, rfl, hc, fun r hr => run_of_inr hc hr b⟩
          cases hd : c.dispatch w ins with
          | inl next =>
              rw [visits_of_inl hc hd] at h
              rcases List.mem_cons.1 h with heq | hmem
              · exact hhead heq
              · rw [run_of_inl hc hd]
                exact ih hmem
          | inr r =>
              rw [visits_of_inr hc hd] at h
              exact hhead (List.mem_singleton.1 h)

end Config

/-- The visits of a program on a state, in order. -/
def visits (w : Watch) (budget : Nat) (program : Program) (s : State) : List Visit :=
  match (s.table.bindAll program).fault with
  | some _ => []
  | none => (Config.start w program s).visits w program.toArray budget

end StackMachine
