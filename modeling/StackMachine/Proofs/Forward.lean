import Mathlib.Data.List.Nodup
import StackMachine.Proofs.Labels
import StackMachine.Proofs.Visits

/-!
# Programs that only go forward

The run of a program has no bound of its own: a jump may lead back, and where it leads is decided
by a value on the stack. But it leads to an entry of the jump table, and the table does not change
while the program runs. If every entry lies behind every jump, then each instruction that does not
end the run leads to a greater index, whatever is on the stack. The distance to the end of the
program is a measure that each step decreases.

The table is the one that the labels of the program leave, with what earlier programs have left in
it. An entry may point beyond the program; such a jump ends the run.

## Main definitions

* `Program.Forward`: every entry of a table lies behind every jump of a program.
* `Program.JumpsFirst`: every label of a program stands behind every jump.
* `SinglePass`: a program dispatches no index twice, and ends.

## Main results

* `Program.Forward.ip_lt`: a step leads to a greater index.
* `Program.Forward.ascending_visits`: so a run dispatches its instructions in ascending order.
* `Program.Forward.run_ends`: and ends before it has dispatched more than there are.
* `forward_terminates`: **programs that only go forward terminate.**
-/

namespace StackMachine

/-! ### Tables behind the jumps -/

namespace Program

/-- Every entry of the table lies behind every jump of the program. -/
def Forward (p : Program) (t : JumpTable) : Prop :=
  ∀ i (h : i < p.length), p[i].isJump = true → ∀ target ∈ t.toList, i < target

instance (p : Program) (t : JumpTable) : Decidable (p.Forward t) :=
  inferInstanceAs
    (Decidable (∀ i (h : i < p.length), p[i].isJump = true → ∀ target ∈ t.toList, i < target))

/-- Every label of the program stands behind every jump. -/
def JumpsFirst (p : Program) : Prop :=
  ∀ i (hi : i < p.length), ∀ j (hj : j < p.length),
    p[i].isJump = true → p[j].isLabel = true → i < j

instance (p : Program) : Decidable p.JumpsFirst :=
  inferInstanceAs (Decidable (∀ i (hi : i < p.length), ∀ j (hj : j < p.length),
    p[i].isJump = true → p[j].isLabel = true → i < j))

end Program

namespace JumpTable

/-- The positions in a table are the targets of its labels. -/
theorem mem_toList_iff {t : JumpTable} {i : Nat} :
    i ∈ t.toList ↔ ∃ n : Nat, t.target? n = some i := by
  simp only [target?_natCast, toList, List.mem_iff_getElem?, Array.getElem?_toList]

/-- The entry that a jump finds is an entry of the table. -/
theorem mem_toList_of_target? {t : JumpTable} {id : Int} {i : Nat} (h : t.target? id = some i) :
    i ∈ t.toList := by
  rw [target?] at h
  split at h
  next => cases h
  next => exact List.mem_iff_getElem?.2 ⟨id.toNat, by rwa [toList, Array.getElem?_toList]⟩

/-- A table that was empty has the positions of labels of the program. -/
theorem exists_label_of_mem {p : Program} {i : Nat} (h : i ∈ (empty.bindAll p).table.toList) :
    ∃ n, p[i]? = some (.label n) := by
  obtain ⟨n, hn⟩ := mem_toList_iff.1 h
  have hnone : empty.target? n = none := by
    rw [target?_natCast]
    rfl
  rw [target?_bindAll, hnone, Option.or_none, Program.lastLabel?_eq_some_iff, Binding.reached] at hn
  obtain ⟨hlabel, -⟩ := hn
  refine ⟨n, ?_⟩
  cases hfault : (empty.bindAll p).fault with
  | none => rwa [hfault] at hlabel
  | some f =>
      rw [hfault, List.getElem?_take] at hlabel
      exact (Option.ite_none_right_eq_some.1 hlabel).2

end JumpTable

/-- An instruction that jumps is a jump. -/
theorem Instr.isJump_of_jumpsTo? {ins : Instr} {stack : List Int} {v : Int}
    (h : ins.jumpsTo? stack = some v) : ins.isJump = true := by
  rw [jumpsTo?.eq_def] at h
  split at h
  next => rfl
  next => rfl
  next => cases h

namespace Program

/-- Without jumps, every table will do. -/
theorem forward_of_no_jump {p : Program} (h : ∀ ins ∈ p, ins.isJump = false) (t : JumpTable) :
    p.Forward t := by
  intro i hi hjump
  rw [h p[i] (List.getElem_mem hi)] at hjump
  cases hjump

/-- Without earlier labels, the labels of the program decide. -/
theorem JumpsFirst.forward {p : Program} (h : p.JumpsFirst) :
    p.Forward (JumpTable.empty.bindAll p).table := by
  intro i hi hjump target htarget
  obtain ⟨n, hn⟩ := JumpTable.exists_label_of_mem htarget
  obtain ⟨hlt, heq⟩ := List.getElem?_eq_some_iff.1 hn
  exact h i hi target hlt hjump (heq ▸ rfl)

end Program

/-! ### Steps and runs -/

/-- An instruction that ends a run does so within the budget. -/
theorem Config.ending_ne_exhausted {w : Watch} {ins : Instr} {c : Config} {r : Report}
    (hd : c.dispatch w ins = .inr r) : r.ending ≠ .exhausted := by
  obtain ⟨v, s, e, -, -, rfl⟩ | ⟨s, -, rfl⟩ | ⟨cause, s, -, rfl⟩ | ⟨-, rfl⟩ :=
    dispatch_inr_cases hd
  · rw [ending_refuse]
    nofun
  all_goals nofun

namespace Program.Forward

open Config

variable {p : Program} {w : Watch} {c c' : Config} {ins : Instr}

/-- **A step leads to a greater index.** -/
theorem ip_lt (h : p.Forward c.state.table) (hins : p[c.ip]? = some ins)
    (hd : c.dispatch w ins = .inl c') : c.ip < c'.ip := by
  obtain ⟨s, -, rfl⟩ | ⟨v, s, -, -, rfl⟩ | ⟨label, target, s, hs, rfl⟩ := dispatch_inl_cases hd
  · exact Nat.lt_succ_self c.ip
  · exact Nat.lt_succ_self c.ip
  · obtain ⟨v, hjump, htarget⟩ := target_of_step hs
    obtain ⟨hlt, rfl⟩ := List.getElem?_eq_some_iff.1 hins
    exact h c.ip hlt (Instr.isJump_of_jumpsTo? hjump) target
      (JumpTable.mem_toList_of_target? htarget)

/-- A step keeps the table, and with it that the program only goes forward. -/
theorem step (h : p.Forward c.state.table) (hd : c.dispatch w ins = .inl c') :
    p.Forward c'.state.table := by
  rwa [state_of_dispatch_inl hd, table_step]

/-- **A run dispatches its instructions in ascending order**, from its own index on. -/
theorem ascending_visits (h : p.Forward c.state.table) (b : Nat) :
    (c.visits w p.toArray b).Pairwise (fun u v => u.ip < v.ip) ∧
      ∀ v ∈ c.visits w p.toArray b, c.ip ≤ v.ip := by
  induction b generalizing c with
  | zero => exact ⟨.nil, nofun⟩
  | succ b ih =>
      cases hins : p[c.ip]? with
      | none =>
          rw [visits_of_none (by rwa [List.getElem?_toArray])]
          exact ⟨.nil, nofun⟩
      | some ins =>
          have hcode : p.toArray[c.ip]? = some ins := by rwa [List.getElem?_toArray]
          cases hd : c.dispatch w ins with
          | inl c' =>
              obtain ⟨hpairs, hfrom⟩ := ih (h.step hd)
              have hlt : c.ip < c'.ip := h.ip_lt hins hd
              have hlater : ∀ v ∈ c'.visits w p.toArray b, c.ip < v.ip := by
                intro v hv
                exact Nat.lt_of_lt_of_le hlt (hfrom v hv)
              rw [visits_of_inl hcode hd]
              refine ⟨List.pairwise_cons.2 ⟨hlater, hpairs⟩, ?_⟩
              intro v hv
              rcases List.mem_cons.1 hv with rfl | hv
              · exact Nat.le_refl c.ip
              · exact Nat.le_of_lt (hlater v hv)
          | inr r =>
              rw [visits_of_inr hcode hd]
              refine ⟨List.pairwise_singleton _ _, ?_⟩
              intro v hv
              rw [List.mem_singleton.1 hv]
              exact Nat.le_refl c.ip

/-- **A run ends** once its budget covers the rest of the program. -/
theorem run_ends (h : p.Forward c.state.table) {b : Nat} (hb : p.length ≤ c.ip + b) :
    (c.run w p.toArray b).ending ≠ .exhausted := by
  -- Every step moves the index up by at least one while the budget goes down by one.
  induction b generalizing c with
  | zero =>
      have hnone : p.toArray[c.ip]? = none := by
        rw [List.getElem?_toArray, List.getElem?_eq_none_iff]
        omega
      rw [run_of_none hnone]
      nofun
  | succ b ih =>
      cases hins : p[c.ip]? with
      | none =>
          rw [run_of_none (by rwa [List.getElem?_toArray])]
          nofun
      | some ins =>
          have hcode : p.toArray[c.ip]? = some ins := by rwa [List.getElem?_toArray]
          cases hd : c.dispatch w ins with
          | inl c' =>
              have hlt : c.ip < c'.ip := h.ip_lt hins hd
              rw [run_of_inl hcode hd]
              exact ih (h.step hd) (by omega)
          | inr r =>
              rw [run_of_inr hcode hd]
              exact ending_ne_exhausted hd

end Program.Forward

/-! ### Single passes -/

/-- A run ended by itself: it returns a value, returns nothing, or throws. -/
def Ending.Settled (ending : Ending) : Prop :=
  (∃ v, ending = .finished (some v)) ∨ ending = .finished none ∨ ending = .underflow ∨
    (∃ f, ending = .faulted f) ∨ (∃ e, ending = .refused e) ∨ ending = .unknownOpcode

/-- A run that did not spend its budget is settled. -/
theorem Ending.settled_of_ne {ending : Ending} (h : ending ≠ .exhausted) : ending.Settled := by
  rcases ending with ⟨_ | v⟩ | _ | f | e | _ | _
  · exact .inr (.inl rfl)
  · exact .inl ⟨v, rfl⟩
  · exact .inr (.inr (.inl rfl))
  · exact .inr (.inr (.inr (.inl ⟨f, rfl⟩)))
  · exact .inr (.inr (.inr (.inr (.inl ⟨e, rfl⟩))))
  · exact .inr (.inr (.inr (.inr (.inr rfl))))
  · exact absurd rfl h

/-- A program makes a single pass over its instructions. Whatever the budget, it dispatches no
index twice, and not more instructions than there are. A budget of that many is enough for it to
return a value, to return nothing or to throw, and a larger one makes no difference. -/
structure SinglePass (w : Watch) (p : Program) (s : State) : Prop where
  once : ∀ b, ((visits w b p s).map Visit.ip).Nodup
  few : ∀ b, (visits w b p s).length ≤ p.length
  ends : (execute w p.length p s).ending.Settled
  steady : ∀ b, p.length ≤ b → execute w b p s = execute w p.length p s

section SinglePass

variable {w : Watch} {p : Program} {s : State}

/-- Instructions that are dispatched in ascending order are not more than there are. -/
theorem length_visits_le {c : Config} {b : Nat}
    (h : (c.visits w p.toArray b).Pairwise fun u v => u.ip < v.ip) :
    ((c.visits w p.toArray b).map Visit.ip).Nodup ∧ (c.visits w p.toArray b).length ≤ p.length := by
  have hnodup : ((c.visits w p.toArray b).map Visit.ip).Nodup :=
    (List.pairwise_map.2 h).imp Nat.ne_of_lt
  have hsubset : (c.visits w p.toArray b).map Visit.ip ⊆ List.range p.length := by
    intro i hi
    obtain ⟨v, hv, rfl⟩ := List.mem_map.1 hi
    obtain ⟨-, -, hins, -⟩ := Config.exists_of_mem_visits hv
    rw [List.getElem?_toArray] at hins
    exact List.mem_range.2 (List.getElem?_eq_some_iff.1 hins).1
  have hle := hnodup.length_le_of_subset hsubset
  rw [List.length_map, List.length_range] at hle
  exact ⟨hnodup, hle⟩

/-- A program that only goes forward makes a single pass. -/
theorem Program.Forward.singlePass (h : p.Forward (s.table.bindAll p).table) :
    SinglePass w p s := by
  have hvisits : ∀ b, ((visits w b p s).map Visit.ip).Nodup ∧
      (visits w b p s).length ≤ p.length := by
    intro b
    cases hfault : (s.table.bindAll p).fault with
    | some f =>
        rw [visits, hfault]
        exact ⟨.nil, Nat.zero_le _⟩
    | none =>
        rw [visits, hfault]
        exact length_visits_le (Program.Forward.ascending_visits (c := .start w p s) h b).1
  have hends : (execute w p.length p s).ending ≠ .exhausted := by
    cases hfault : (s.table.bindAll p).fault with
    | some f =>
        rw [execute_eq, hfault]
        nofun
    | none =>
        rw [execute_eq, hfault]
        exact Program.Forward.run_ends (c := .start w p s) h (Nat.le_add_left _ _)
  exact ⟨fun b => (hvisits b).1, fun b => (hvisits b).2, Ending.settled_of_ne hends,
    fun b hb => execute_mono hb hends⟩

end SinglePass

/-- **Programs that only go forward terminate.** Take a program on any state, with any sink, such
that every entry that the table has once the labels are bound lies behind every jump of the
program. It makes a single pass over its instructions. This is so for a program without jumps on
any state, and for a program whose labels stand behind all its jumps on a machine that is new or
was reset, or that has an empty table for another reason. -/
theorem forward_terminates (w : Watch) (p : Program) :
    (∀ s : State, p.Forward (s.table.bindAll p).table → SinglePass w p s) ∧
    ((∀ ins ∈ p, ins.isJump = false) → ∀ s : State, SinglePass w p s) ∧
    (p.JumpsFirst → ∀ s : State, s.table = .empty → SinglePass w p s) := by
  refine ⟨fun s h => h.singlePass, fun h s => (Program.forward_of_no_jump h _).singlePass, ?_⟩
  intro h s hs
  have hforward : p.Forward (s.table.bindAll p).table := hs ▸ h.forward
  exact hforward.singlePass

/-- A jump beyond the end, through a label that an earlier program has left; a division by zero
on the same machine; and a jump over an addition on a new one. -/
theorem forward_terminates_stale :
    let w : Watch := ⟨true, Sink.takeAll⟩
    let s : State := ⟨[], .empty, ⟨#[9]⟩⟩
    let p : Program := [.lit 3, .lit 0, .bare .cjmp, .lit 5]
    let q : Program := [.lit 0, .lit 4, .bare .div]
    let r : Program := [.lit 1, .lit 0, .bare .cjmp, .bare .add, .label 0]
    (p.Forward (s.table.bindAll p).table ∧ SinglePass w p s) ∧
    ((∀ ins ∈ q, ins.isJump = false) ∧ SinglePass w q s) ∧
    (r.JumpsFirst ∧ SinglePass w r .initial) := by
  intro w s p q r
  have hp : p.Forward (s.table.bindAll p).table := by decide
  have hq : ∀ ins ∈ q, ins.isJump = false := by decide
  have hr : r.JumpsFirst := by decide
  exact ⟨⟨hp, (forward_terminates w p).1 s hp⟩, ⟨hq, (forward_terminates w q).2.1 hq s⟩, hr,
    (forward_terminates w r).2.2 hr .initial rfl⟩

end StackMachine
