import Mathlib.Order.Monotone.Basic
import StackMachine.Proofs.Labels
import StackMachine.Proofs.Tandem

/-!
# Swaps after a dup

A `swap` right after a `dup` exchanges two equal cells. Writing it changes no state, but it
moves all that comes behind it in the program: the labels are bound elsewhere, the jumps go
elsewhere, and a fault names another index. This module shows that everything moves alike.

The program with the swaps written is compared with the one without them along the function
that tells where an instruction has gone. It keeps up with the other: an instruction is
followed by itself, and a `dup` perhaps by a `swap` as well, before the two are matched again.

## Main definitions

* `Program.withSwaps`: a program with a `swap` after each chosen `dup`.
* `Program.shift`: where its instructions have gone.
* `Spread`: the same as a relation between the two programs.

## Main results

* `Spread.bindFrom_eq`: the labels of a spread program are bound at the moved positions.
* `Spread.keepsUp`: a spread program keeps up with the one that it was spread from.
* `dup_swap_indistinguishable`: **a `swap` after a `dup` cannot be told from none.**
-/

namespace StackMachine

/-! ### Writing the swaps -/

namespace Program

/-- The part of a program that starts at an index, with a `swap` after each chosen `dup`. -/
def withSwapsFrom (chosen : Nat → Bool) (index : Nat) : Program → Program
  | [] => []
  | ins :: rest =>
    if ins = .bare .dup ∧ chosen index = true then
      ins :: .bare .swap :: withSwapsFrom chosen (index + 1) rest
    else ins :: withSwapsFrom chosen (index + 1) rest

/-- A program with a `swap` after each chosen `dup`. -/
def withSwaps (chosen : Nat → Bool) (p : Program) : Program := withSwapsFrom chosen 0 p

/-- An index plus the number of chosen `dup` instructions before it. -/
def shift (chosen : Nat → Bool) (p : Program) (i : Nat) : Nat :=
  i + (List.range i).countP fun j => p[j]? = some (.bare .dup) ∧ chosen j = true

/-- Behind a duplication that is spread out, indices are shifted by one more. -/
theorem shift_succ (chosen : Nat → Bool) (p : Program) (i : Nat) : p.shift chosen (i + 1) =
    p.shift chosen i + if p[i]? = some (.bare .dup) ∧ chosen i = true then 2 else 1 := by
  simp only [shift, List.range_succ, List.countP_append, List.countP_singleton, decide_eq_true_eq]
  split <;> omega

/-- Shifting keeps the order of indices. -/
theorem monotone_shift (chosen : Nat → Bool) (p : Program) : Monotone (p.shift chosen) := by
  refine monotone_nat_of_le_succ ?_
  intro i
  rw [shift_succ]
  omega

end Program

/-- From an index on, the second program is the first with some `dup` followed by a `swap`, and
the instructions have gone where `g` says. -/
inductive Spread (g : Nat → Nat) : Nat → Program → Program → Prop where
  | nil (i : Nat) : Spread g i [] []
  | keep {i : Nat} {ins : Instr} {p q : Program} (hnext : g (i + 1) = g i + 1)
      (h : Spread g (i + 1) p q) : Spread g i (ins :: p) (ins :: q)
  | swap {i : Nat} {p q : Program} (hnext : g (i + 1) = g i + 2) (h : Spread g (i + 1) p q) :
      Spread g i (.bare .dup :: p) (.bare .dup :: .bare .swap :: q)

/-- The program with swaps behind its chosen duplications is a spread of the program. -/
theorem spread_withSwaps (chosen : Nat → Bool) (p : Program) :
    Spread (p.shift chosen) 0 p (p.withSwaps chosen) := by
  -- the induction is on the part of the program behind an index
  suffices hfrom : ∀ rest i, p.drop i = rest →
      Spread (p.shift chosen) i rest (Program.withSwapsFrom chosen i rest) from hfrom p 0 rfl
  intro rest
  induction rest with
  | nil => exact fun i _ => .nil i
  | cons ins rest ih =>
      intro i hdrop
      have hins : p[i]? = some ins := by
        rw [← List.head?_drop, hdrop]
        rfl
      have hrest : p.drop (i + 1) = rest := by
        rw [← List.tail_drop, hdrop]
        rfl
      have hshift := p.shift_succ chosen i
      simp only [hins, Option.some.injEq] at hshift
      rw [Program.withSwapsFrom]
      split
      next hchosen =>
        rw [if_pos hchosen] at hshift
        obtain ⟨rfl, -⟩ := hchosen
        exact .swap hshift (ih (i + 1) hrest)
      next hchosen =>
        rw [if_neg hchosen] at hshift
        exact .keep hshift (ih (i + 1) hrest)

namespace Spread

variable {g : Nat → Nat} {i k : Nat} {ins : Instr} {p q : Program}

/-- An instruction has gone where `g` says, and if its follower has gone any further, it is a
`dup` before a `swap`. -/
theorem getElem?_eq (h : Spread g i p q) (hk : p[k]? = some ins) :
    g i ≤ g (i + k) ∧ q[g (i + k) - g i]? = some ins ∧
      (g (i + k + 1) = g (i + k) + 1 ∨ ins = .bare .dup ∧ g (i + k + 1) = g (i + k) + 2 ∧
        q[g (i + k) - g i + 1]? = some (.bare .swap)) := by
  induction h generalizing k with
  | nil i => cases hk
  | @keep i head p q hnext h ih =>
      rcases k with _ | k
      · obtain rfl : head = ins := Option.some.inj hk
        exact ⟨Nat.le_refl _, by simp, .inl hnext⟩
      · obtain ⟨hle, hat, hafter⟩ := ih hk
        rw [← Nat.add_assoc, Nat.add_right_comm]
        have hoffset : g (i + 1 + k) - g i = g (i + 1 + k) - g (i + 1) + 1 := by omega
        rw [hoffset]
        exact ⟨by omega, hat, hafter⟩
  | @swap i p q hnext h ih =>
      rcases k with _ | k
      · obtain rfl : Instr.bare .dup = ins := Option.some.inj hk
        exact ⟨Nat.le_refl _, by simp, .inr ⟨rfl, hnext, by simp⟩⟩
      · obtain ⟨hle, hat, hafter⟩ := ih hk
        rw [← Nat.add_assoc, Nat.add_right_comm]
        have hoffset : g (i + 1 + k) - g i = g (i + 1 + k) - g (i + 1) + 1 + 1 := by omega
        rw [hoffset]
        exact ⟨by omega, hat, hafter⟩

/-- A spread program begins and ends where the indices of its ends are moved to. -/
theorem length_eq (h : Spread g i p q) : g (i + p.length) = g i + q.length := by
  induction h with
  | nil i => rfl
  | keep hnext h ih =>
      rw [List.length_cons, List.length_cons, ← Nat.add_assoc, Nat.add_right_comm, ih, hnext]
      omega
  | swap hnext h ih =>
      rw [List.length_cons, List.length_cons, List.length_cons, ← Nat.add_assoc,
        Nat.add_right_comm, ih, hnext]
      omega

/-- The spread program ends where the other one does. -/
theorem isNone_iff (h : Spread g 0 p q) (hzero : g 0 = 0) (hmono : Monotone g) (i : Nat) :
    q[g i]? = none ↔ p[i]? = none := by
  constructor
  · intro hnone
    by_contra hsome
    obtain ⟨ins, hins⟩ := Option.ne_none_iff_exists'.1 hsome
    obtain ⟨-, hat, -⟩ := h.getElem?_eq hins
    rw [Nat.zero_add, hzero, Nat.sub_zero, hnone] at hat
    cases hat
  · intro hnone
    rw [List.getElem?_eq_none_iff] at hnone ⊢
    have hlength := h.length_eq
    rw [Nat.zero_add, hzero, Nat.zero_add] at hlength
    exact hlength ▸ hmono hnone

end Spread

/-! ### Tables with moved entries -/

namespace JumpTable

/-- The table with each entry moved. -/
def relocate (g : Nat → Nat) (t : JumpTable) : JumpTable := ⟨t.entries.map g⟩

variable {g : Nat → Nat} {t : JumpTable}

/-- A label of a relocated table leads where its position is moved to. -/
theorem target?_relocate (id : Int) : (t.relocate g).target? id = (t.target? id).map g := by
  unfold target?
  split
  · rfl
  · exact Array.getElem?_map

/-- Relocation keeps the size of a table. -/
theorem size_relocate : (t.relocate g).size = t.size := Array.size_map

/-- Relocating the empty table changes nothing. -/
theorem relocate_empty (g : Nat → Nat) : empty.relocate g = empty := by
  simp only [relocate, empty, Array.map_empty]

/-- The positions in a relocated table are the moved ones. -/
theorem toList_relocate : (t.relocate g).toList = t.toList.map g := Array.toList_map

/-- A label is bound in a moved table at its moved position. -/
theorem bind_relocate {id : Nat} (h : id ≤ t.size) (i : Nat) :
    (t.relocate g).bind id (g i) (Nat.le_trans h (Nat.le_of_eq size_relocate.symm)) =
      (t.bind id i h).relocate g := by
  refine ext_target? ?_
  intro n
  rw [target?_bind, target?_relocate, target?_relocate, target?_bind]
  split <;> rfl

end JumpTable

namespace Spread

variable {g : Nat → Nat} {i : Nat} {p q : Program} {t : JumpTable}

/-- **The labels of a spread program are bound at the moved positions.** -/
theorem bindFrom_eq (h : Spread g i p q) :
    (JumpTable.bindFrom (g i) (t.relocate g) q).table =
        (JumpTable.bindFrom i t p).table.relocate g ∧
      (JumpTable.bindFrom i t p).Moved g (JumpTable.bindFrom (g i) (t.relocate g) q) := by
  induction h generalizing t with
  | nil i => exact ⟨rfl, rfl, rfl⟩
  | @keep i ins p q hnext h ih =>
      rw [JumpTable.bindFrom_cons, JumpTable.bindFrom_cons]
      rcases hins : ins.labelNumber? with _ | x
      · rw [← hnext]
        exact ih
      · simp only [JumpTable.size_relocate]
        by_cases hexceeds : x.exceeds t.size = true
        · rw [if_pos hexceeds, if_pos hexceeds]
          exact ⟨rfl, rfl, rfl⟩
        · have hmark : (t.relocate g).mark ins (g i) = (t.mark ins i).relocate g :=
            JumpTable.mark_comm (Nat.le_of_eq JumpTable.size_relocate.symm)
              (fun _ hid => JumpTable.bind_relocate hid i) hins hexceeds
          rw [if_neg hexceeds, if_neg hexceeds, hmark, ← hnext]
          obtain ⟨htable, hbound, hfault⟩ := ih (t := t.mark ins i)
          refine ⟨htable, ?_, hfault⟩
          simp only [hbound, List.map_cons]
  | swap hnext h ih =>
      simp only [JumpTable.bindFrom]
      rw [Nat.add_assoc, ← hnext]
      exact ih

end Spread

/-! ### Runs of a spread program -/

/-- The state with the positions of its labels moved. -/
def State.relocate (g : Nat → Nat) : State → State := State.recast [] (JumpTable.relocate g)

section Relocate

variable {g : Nat → Nat} {w : Watch} {ins : Instr} {s : State} {p q : Program}
  {c c' d : Config}

/-- Every instruction follows the moved labels. -/
theorem step_relocate : step ins (s.relocate g) = (step ins s).map g (State.relocate g) := by
  refine step_recast ?_ (.inl rfl) ?_
  · intro id i htarget
    rw [JumpTable.target?_relocate, htarget]
    rfl
  · intro id t hundefined
    rw [JumpTable.target?_relocate, target?_of_undefined hundefined]
    rfl

/-- A `dup` that does not end the run leaves two equal cells on top. -/
theorem Config.dispatch_dup_cases (hd : c.dispatch w (.bare .dup) = .inl d) :
    ∃ a rest, step (.bare .dup) c.state = .next (c.state.withStack (a :: a :: rest)) ∧
      d = { c with ip := c.ip + 1, state := c.state.withStack (a :: a :: rest) } := by
  rcases hstack : c.state.stack with _ | ⟨a, rest⟩
  · have hstep : step (.bare .dup) c.state = .underflow (c.state.withStack []) := by
      simp only [step, Opcode.perform, hstack]
    rw [dispatch_of_underflow hstep] at hd
    cases hd
  · have hstep : step (.bare .dup) c.state = .next (c.state.withStack (a :: a :: rest)) := by
      simp only [step, Opcode.perform, hstack]
    rw [dispatch_of_next hstep] at hd
    exact ⟨a, rest, hstep, (Sum.inl.inj hd).symm⟩

/-- A `swap` after a `dup` changes no state, so both together keep up with a `dup`. -/
theorem Config.Matches.dup_swap (hm : c.Matches g (State.relocate g) c')
    (hd : c.dispatch w (.bare .dup) = .inl d) (hnext : g (c.ip + 1) = g c.ip + 2) :
    ∃ m d', c'.dispatch w (.bare .dup) = .inl m ∧ m.ip = c'.ip + 1 ∧
      m.dispatch w (.bare .swap) = .inl d' ∧ d.Matches g (State.relocate g) d' := by
  obtain ⟨a, rest, hstep, rfl⟩ := dispatch_dup_cases hd
  let twice := c.state.withStack (a :: a :: rest)
  have hdup : step (.bare .dup) c'.state = .next (twice.relocate g) := by
    rw [hm.state, step_relocate, hstep]
    rfl
  have hswap : step (.bare .swap) (twice.relocate g) = .next (twice.relocate g) := by
    rw [step_relocate]
    rfl
  refine ⟨_, _, dispatch_of_next hdup, rfl, dispatch_of_next hswap, ?_, rfl, hm.taken, hm.events⟩
  simp only [hm.ip, hnext]

/-- **A spread program keeps up with the one that it was spread from**, at two steps for one. -/
theorem Spread.keepsUp (h : Spread g 0 p q) (hzero : g 0 = 0) (hmono : Monotone g) :
    KeepsUp w p q g (State.relocate g) 2 fun _ => False where
  pace_pos := by omega
  isNone_iff := h.isNone_iff hzero hmono
  go := by
    intro c c' d ins hm hins hd
    obtain ⟨-, hat, hafter⟩ := h.getElem?_eq hins
    simp only [Nat.zero_add, hzero, Nat.sub_zero, ← hm.ip] at hat hafter
    have hcode : q.toArray[c'.ip]? = some ins := by rwa [List.getElem?_toArray]
    rcases hafter with hnext | ⟨rfl, hnext, hswap⟩
    · obtain ⟨d', hd', hmatch⟩ := hm.dispatch_inl step_relocate (hm.ip ▸ hnext) hd
      exact ⟨1, d', by omega, by omega, ⟨d', ⟨ins, hcode, hd'⟩, rfl⟩, hmatch⟩
    · obtain ⟨m, d', hdup, hip, hdispatch, hmatch⟩ := hm.dup_swap hd (hm.ip ▸ hnext)
      have hcode' : q.toArray[m.ip]? = some (.bare .swap) := by
        rwa [List.getElem?_toArray, hip]
      exact ⟨2, d', by omega, by omega,
        ⟨m, ⟨_, hcode, hdup⟩, d', ⟨_, hcode', hdispatch⟩, rfl⟩, hmatch⟩
  halt := by
    intro c c' ins r hm hins hd _
    obtain ⟨-, hat, -⟩ := h.getElem?_eq hins
    simp only [Nat.zero_add, hzero, Nat.sub_zero, ← hm.ip] at hat
    obtain ⟨r', hd', hmatch⟩ := hm.dispatch_inr step_relocate hd
    exact ⟨ins, r', hat, hd', hmatch⟩

/-- A spread program ends like the one that it was spread from, within a budget twice as
large. -/
theorem Spread.exists_matches (h : Spread g 0 p q) (hzero : g 0 = 0) (hmono : Monotone g)
    (stack : List Int) (memory : Memory) (b : Nat) :
    ∃ b', b ≤ b' ∧ b' ≤ 2 * b ∧ (execute w b p ⟨stack, memory, .empty⟩).Matches g
      (State.relocate g) (execute w b' q ⟨stack, memory, .empty⟩) := by
  obtain ⟨htable, hbind⟩ := h.bindFrom_eq (t := .empty)
  rw [hzero, JumpTable.relocate_empty] at htable hbind
  have hstate : (⟨stack, memory, (JumpTable.empty.bindAll q).table⟩ : State) =
      State.relocate g ⟨stack, memory, (JumpTable.empty.bindAll p).table⟩ := by
    rw [State.relocate, State.recast, List.append_nil]
    exact congrArg (State.mk stack memory) htable
  let s : State := ⟨stack, memory, .empty⟩
  have hbind : (s.table.bindAll p).Moved g (s.table.bindAll q) := hbind
  obtain ⟨b', hle, hge, htogether⟩ :=
    (h.keepsUp hzero hmono).exists_execute hzero hbind hstate b id
  exact ⟨b', hle, hge, htogether.matches_recast⟩

end Relocate

/-- Two budgets that a run fits into give the same run. -/
theorem execute_eq_of_ends {w : Watch} {b b' : Nat} {p : Program} {s : State}
    (h : (execute w b p s).ending ≠ .exhausted) (h' : (execute w b' p s).ending ≠ .exhausted) :
    execute w b p s = execute w b' p s := by
  rcases Nat.le_total b b' with hle | hle
  · exact (execute_mono hle h).symm
  · exact execute_mono hle h'

/-- **A `swap` after a `dup` cannot be told from none.** Take a program on any stack and memory
with an empty table, and write a `swap` after each chosen `dup`. The one terminates if and only
if the other does. Then both return the same value, or both underflow, or both are stopped by
the same error at corresponding positions; they print the same lines and leave the same stack
and memory, and the labels are bound at corresponding positions. -/
theorem dup_swap_indistinguishable (w : Watch) (p : Program) (chosen : Nat → Bool)
    (stack : List Int) (memory : Memory) :
    let s : State := ⟨stack, memory, .empty⟩
    let q := p.withSwaps chosen
    let f := p.shift chosen
    ((∃ b, (execute w b p s).ending ≠ .exhausted) ↔
      ∃ b, (execute w b q s).ending ≠ .exhausted) ∧
    ∀ b b', (execute w b p s).ending ≠ .exhausted → (execute w b' q s).ending ≠ .exhausted →
      let r := execute w b p s
      let r' := execute w b' q s
      r'.ending = r.ending.moved f ∧ r'.lines = r.lines ∧ r'.state.stack = r.state.stack ∧
      r'.state.memory = r.state.memory ∧
      r'.state.table.toList = r.state.table.toList.map f := by
  intro s q f
  have hmatches : ∀ b, ∃ b', b ≤ b' ∧ b' ≤ 2 * b ∧
      (execute w b p s).Matches f (State.relocate f) (execute w b' q s) :=
    (spread_withSwaps chosen p).exists_matches rfl (p.monotone_shift chosen) stack memory
  refine ⟨⟨?_, ?_⟩, ?_⟩
  · rintro ⟨b, hends⟩
    obtain ⟨b', -, -, hm⟩ := hmatches b
    refine ⟨b', ?_⟩
    rwa [hm.ending, Ne, Ending.moved_eq_exhausted_iff]
  · rintro ⟨b, hends⟩
    obtain ⟨b', hle, -, hm⟩ := hmatches b
    rw [← execute_mono hle hends, hm.ending, Ne, Ending.moved_eq_exhausted_iff] at hends
    exact ⟨b, hends⟩
  · intro b b' hends hends' r r'
    obtain ⟨b'', -, -, hm⟩ := hmatches b
    have hends'' : (execute w b'' q s).ending ≠ .exhausted := by
      rwa [hm.ending, Ne, Ending.moved_eq_exhausted_iff]
    rw [execute_eq_of_ends hends'' hends'] at hm
    refine ⟨hm.ending, hm.lines_eq, ?_, ?_, ?_⟩
    · rw [hm.state]
      exact List.append_nil r.state.stack
    · rw [hm.state]
      rfl
    · rw [hm.state]
      exact JumpTable.toList_relocate

/-- A countdown, and then a jump to a label that is missing, with a `swap` after both `dup`. -/
theorem dup_swap_indistinguishable_countdown :
    let w : Watch := ⟨false, Sink.takeAll⟩
    let p : Program := [.label 0, .bare .dup, .bare .put, .lit (-1), .bare .add, .bare .dup,
      .lit 0, .bare .cjmp, .label 1, .lit 7, .bare .jmp]
    let q := p.withSwaps fun _ => true
    let s : State := ⟨[2], .empty, .empty⟩
    (execute w 30 p s).ending = .faulted ⟨10, .labelUndefined 7⟩ ∧
    (execute w 30 q s).ending = .faulted ⟨12, .labelUndefined 7⟩ ∧
    (execute w 30 q s).lines = ["2", "1"] ∧ (execute w 30 q s).state.table.toList = [0, 10] := by
  intro w p q s
  have hfault : (execute w 30 p s).ending = .faulted ⟨10, .labelUndefined 7⟩ := by decide
  have hends : (execute w 30 p s).ending ≠ .exhausted := by
    rw [hfault]
    nofun
  have hends' : (execute w 30 q s).ending ≠ .exhausted := by decide
  obtain ⟨-, hall⟩ := dup_swap_indistinguishable w p (fun _ => true) [2] .empty
  obtain ⟨hending, hlines, -, -, htable⟩ := hall 30 30 hends hends'
  refine ⟨hfault, hending.trans ?_, hlines.trans ?_, htable.trans ?_⟩
  · rw [hfault]
    rfl
  · decide
  · decide

end StackMachine
