import StackMachine.Proofs.History
import StackMachine.Proofs.Labels

/-!
# Where jumps go

The jump table outlives the program that filled it. A later program overwrites the entries
of its own labels in place, and a program whose labels are out of order leaves the part
before the offending label bound. This module describes the table by the history of its
machine: `boundParts` lists the parts of programs whose labels were bound since the last
reset, and an entry is the last position of its label in the newest part that has it.

## Main results

* `State.target?_after`: the table of a machine, told from its history.
* `jump_resolution`: **which jumps are taken, and where they go**; on a machine without a
  past, no jump leaves the program.
-/

namespace StackMachine

/-! ### The dispatch of a jump -/

namespace Config

variable {w : Watch} {ins : Instr} {c c' : Config} {v : Int}

/-- A jump to a label of the table is taken. -/
theorem dispatch_of_target {i : Nat} (h : ins.jumpsTo? c.state.stack = some v)
    (htarget : c.state.table.target? v = some i) :
    ∃ c', c.dispatch w ins = .inl c' ∧ c'.ip = i := by
  obtain ⟨rest, hstep⟩ := step_of_jumpsTo? h
  have htable : (c.state.withStack rest).table.target? v = some i := htarget
  rw [State.jump, htable] at hstep
  rw [dispatch, hstep]
  exact ⟨_, rfl, rfl⟩

/-- A jump to any other label is a fault that names it. -/
theorem dispatch_of_no_target (h : ins.jumpsTo? c.state.stack = some v)
    (htarget : c.state.table.target? v = none) :
    ∃ r, c.dispatch w ins = .inr r ∧ r.ending = .faulted ⟨c.ip, .labelUndefined v⟩ := by
  obtain ⟨rest, hstep⟩ := step_of_jumpsTo? h
  have htable : (c.state.withStack rest).table.target? v = none := htarget
  rw [State.jump, htable] at hstep
  rw [dispatch, hstep]
  exact ⟨_, rfl, rfl⟩

end Config

/-! ### The table, told from the history -/

/-- The parts of programs whose labels were bound since the last reset, the newest first. A
program whose labels were out of order counts up to the label that stopped the pass. -/
def boundParts : List Request → List Program
  | [] => []
  | .reset :: _ => []
  | .run w budget p :: earlier =>
    (execute w budget p (.after earlier)).ending.reached p :: boundParts earlier

/-- **The table of a machine.** -/
theorem State.target?_after (history : List Request) (n : Nat) :
    (State.after history).table.target? n =
      (boundParts history).findSome? (Program.lastLabel? n) := by
  induction history with
  | nil => rfl
  | cons request earlier ih =>
      cases request with
      | reset => rfl
      | run w budget p =>
          rw [State.after, Request.serve, table_execute, JumpTable.target?_bindAll, ih,
            boundParts, List.findSome?_cons, Ending.reached_execute]
          cases Program.lastLabel? n _ <;> rfl

/-- Label `n` stands in one of the parts. -/
def Bound (parts : List Program) (n : Nat) : Prop := ∃ part ∈ parts, Instr.label n ∈ part

/-- The newest of the parts that have label `n` has it last at position `i`. -/
def Resolves (parts : List Program) (n i : Nat) : Prop :=
  ∃ newer part older, parts = newer ++ part :: older ∧
    (∀ q ∈ newer, Instr.label n ∉ q) ∧ Program.LastAt part n i

/-- A label resolves to its last position in the latest part that holds it. -/
theorem resolves_iff {parts : List Program} {n i : Nat} :
    Resolves parts n i ↔ parts.findSome? (Program.lastLabel? n) = some i := by
  simp only [List.findSome?_eq_some_iff, Program.lastLabel?_eq_some_iff,
    Program.lastLabel?_eq_none_iff]
  constructor
  · rintro ⟨newer, part, older, hparts, hnewer, hlast⟩
    exact ⟨newer, part, older, hparts, hlast, hnewer⟩
  · rintro ⟨newer, part, older, hparts, hlast, hnewer⟩
    exact ⟨newer, part, older, hparts, hnewer, hlast⟩

/-- A label is bound when some part holds it. -/
theorem bound_iff {parts : List Program} {n : Nat} :
    Bound parts n ↔ (parts.findSome? (Program.lastLabel? n)).isSome := by
  rw [List.findSome?_isSome_iff]
  refine exists_congr fun part => and_congr_right fun _ => ?_
  rw [← not_iff_not, Option.not_isSome_iff_eq_none, Program.lastLabel?_eq_none_iff]

/-- A table has no hole: below a label that is bound, all are. -/
theorem JumpTable.exists_target_of_le {t : JumpTable} {n m i : Nat} (h : t.target? n = some i)
    (hm : m ≤ n) : ∃ j, t.target? m = some j := by
  simp only [target?, Int.toNat_natCast] at h ⊢
  grind

/-- Only a natural number has a target. -/
theorem JumpTable.exists_nat_of_target {t : JumpTable} {v : Int} {i : Nat}
    (h : t.target? v = some i) : ∃ n : Nat, v = n := by
  rw [target?] at h
  split at h
  next => cases h
  next hnonneg => exact Int.eq_ofNat_of_zero_le (Int.not_lt.1 hnonneg)

/-- Below a label that is bound, all are. -/
theorem bound_of_le {history : List Request} {n m : Nat} (h : Bound (boundParts history) n)
    (hm : m ≤ n) : Bound (boundParts history) m := by
  rw [bound_iff, ← State.target?_after] at h ⊢
  obtain ⟨i, hi⟩ := Option.isSome_iff_exists.1 h
  obtain ⟨j, hj⟩ := JumpTable.exists_target_of_le hi hm
  exact Option.isSome_iff_exists.2 ⟨j, hj⟩

namespace Passes

variable {w : Watch} {p : Program} {history : List Request} {c c' : Config} {ins : Instr} {v : Int}

/-- While a program runs, the table is that of the history with the program in front. -/
theorem target?_eq (h : Passes w p (.after history) c) (n : Nat) :
    c.state.table.target? n = (p :: boundParts history).findSome? (Program.lastLabel? n) := by
  rw [h.table_eq, JumpTable.target?_bindAll, State.target?_after, Binding.reached, h.binds,
    List.findSome?_cons]
  cases Program.lastLabel? n p <;> rfl

/-- A jump that is taken goes where its label resolves to. -/
theorem resolves_of_dispatch (h : Passes w p (.after history) c)
    (hv : ins.jumpsTo? c.state.stack = some v) (hd : c.dispatch w ins = .inl c') :
    ∃ n : Nat, v = n ∧ Resolves (p :: boundParts history) n c'.ip := by
  cases htarget : c.state.table.target? v with
  | none =>
      obtain ⟨r, hr, -⟩ := Config.dispatch_of_no_target (w := w) hv htarget
      rw [hr] at hd
      cases hd
  | some i =>
      obtain ⟨next, hnext, hip⟩ := Config.dispatch_of_target (w := w) hv htarget
      rw [hnext] at hd
      obtain rfl : next = c' := Sum.inl.inj hd
      obtain ⟨n, rfl⟩ := JumpTable.exists_nat_of_target htarget
      rw [h.target?_eq] at htarget
      exact ⟨n, rfl, hip ▸ resolves_iff.2 htarget⟩

/-- A jump is taken exactly if its label is bound. -/
theorem exists_dispatch_iff (h : Passes w p (.after history) c)
    (hv : ins.jumpsTo? c.state.stack = some v) :
    (∃ c', c.dispatch w ins = .inl c') ↔ ∃ n : Nat, v = n ∧ Bound (p :: boundParts history) n := by
  constructor
  · rintro ⟨c', hd⟩
    obtain ⟨n, hn, hresolves⟩ := h.resolves_of_dispatch hv hd
    refine ⟨n, hn, bound_iff.2 ?_⟩
    rw [resolves_iff.1 hresolves]
    rfl
  · rintro ⟨n, rfl, hbound⟩
    rw [bound_iff, ← h.target?_eq] at hbound
    obtain ⟨i, hi⟩ := Option.isSome_iff_exists.1 hbound
    obtain ⟨c', hd, -⟩ := Config.dispatch_of_target (w := w) hv hi
    exact ⟨c', hd⟩

/-- A jump to a label that is not bound ends the program with a fault that names it. -/
theorem exists_fault_of_not_bound (h : Passes w p (.after history) c)
    (hins : p[c.ip]? = some ins) (hv : ins.jumpsTo? c.state.stack = some v)
    (hnot : ¬∃ n : Nat, v = n ∧ Bound (p :: boundParts history) n) :
    ∃ k, ∀ b, k ≤ b →
      (execute w b p (.after history)).ending = .faulted ⟨c.ip, .labelUndefined v⟩ := by
  cases htarget : c.state.table.target? v with
  | some i =>
      obtain ⟨c', hd, -⟩ := Config.dispatch_of_target (w := w) hv htarget
      exact absurd ((h.exists_dispatch_iff hv).1 ⟨c', hd⟩) hnot
  | none =>
      obtain ⟨r, hd, hending⟩ := Config.dispatch_of_no_target (w := w) hv htarget
      obtain ⟨k, hk⟩ := h.exists_execute_eq hins hd
      exact ⟨k, fun b hb => by rw [hk b hb, hending]⟩

/-! ### A machine without a past -/

/-- If no earlier label is bound, a jump that is taken lands on its label. -/
theorem lands_of_dispatch (h : Passes w p (.after history) c) (hfresh : boundParts history = [])
    (hv : ins.jumpsTo? c.state.stack = some v) (hd : c.dispatch w ins = .inl c') :
    ∃ n : Nat, v = n ∧ p[c'.ip]? = some (.label n) := by
  obtain ⟨n, hn, hresolves⟩ := h.resolves_of_dispatch hv hd
  rw [hfresh, resolves_iff, List.findSome?_singleton, Program.lastLabel?_eq_some_iff] at hresolves
  exact ⟨n, hn, hresolves.1⟩

/-- If no earlier label is bound, no instruction leaves the program except to its end. -/
theorem ip_le_length (h : Passes w p (.after history) c) (hfresh : boundParts history = []) :
    c.ip ≤ p.length := by
  obtain ⟨hbinds, hreach⟩ := h
  induction hreach with
  | refl => exact Nat.zero_le _
  | @tail c c' hreach hstep ih =>
      obtain ⟨ins, hins, hd⟩ := hstep
      rw [List.getElem?_toArray] at hins
      have hlt : c.ip < p.length := (List.getElem?_eq_some_iff.1 hins).1
      obtain ⟨s, -, rfl⟩ | ⟨v, s, -, -, rfl⟩ | ⟨label, target, s, hs, rfl⟩ :=
        Config.dispatch_inl_cases hd
      · exact hlt
      · exact hlt
      · obtain ⟨v, hv, -⟩ := target_of_step hs
        obtain ⟨n, -, hlands⟩ := lands_of_dispatch ⟨hbinds, hreach⟩ hfresh hv hd
        exact Nat.le_of_lt (List.getElem?_eq_some_iff.1 hlands).1

end Passes

/-- Before the first program since a reset, nothing is bound. -/
theorem boundParts_of_fresh {history : List Request}
    (h : history = [] ∨ history.head? = some .reset) : boundParts history = [] := by
  rcases h with rfl | h
  · rfl
  · obtain ⟨earlier, rfl⟩ := List.head?_eq_some_iff.1 h
    rfl

/-- **Jump resolution.** Take any history of a machine, and a jump that a further program is
about to make with label `v`. The jump is taken exactly if a label `v` was bound by the
program or since the last reset, and then goes to the last one in the program or, if the
program has none, in the newest part before that has one. Otherwise the program ends with
the fault that names `v`. The labels that are bound have no hole.

On a machine that is new or was just reset, a jump that is taken lands on its label in the
program, the instruction pointer does not leave the program, and a program that finishes
does so at its end. -/
theorem jump_resolution (history : List Request) (w : Watch) (p : Program) :
    (∀ c ins (v : Int), Passes w p (.after history) c → p[c.ip]? = some ins →
      ins.jumpsTo? c.state.stack = some v →
        ((∃ c', c.dispatch w ins = .inl c') ↔
          ∃ n : Nat, v = n ∧ Bound (p :: boundParts history) n) ∧
        (∀ c', c.dispatch w ins = .inl c' →
          ∃ n : Nat, v = n ∧ Resolves (p :: boundParts history) n c'.ip) ∧
        ((¬∃ n : Nat, v = n ∧ Bound (p :: boundParts history) n) →
          ∃ k, ∀ b, k ≤ b →
            (execute w b p (.after history)).ending = .faulted ⟨c.ip, .labelUndefined v⟩)) ∧
    (∀ n m, Bound (boundParts history) n → m ≤ n → Bound (boundParts history) m) ∧
    (history = [] ∨ history.head? = some .reset →
      (∀ c, Passes w p (.after history) c → c.ip ≤ p.length) ∧
      (∀ c ins (v : Int) c', Passes w p (.after history) c →
        ins.jumpsTo? c.state.stack = some v → c.dispatch w ins = .inl c' →
          ∃ n : Nat, v = n ∧ p[c'.ip]? = some (.label n)) ∧
      (∀ b value, (execute w b p (.after history)).ending = .finished value →
        ∃ c, Passes w p (.after history) c ∧ c.ip = p.length ∧
          execute w b p (.after history) = c.finish w)) := by
  refine ⟨?_, fun n m => bound_of_le, ?_⟩
  · intro c ins v h hins hv
    exact ⟨h.exists_dispatch_iff hv, fun c' hd => h.resolves_of_dispatch hv hd,
      h.exists_fault_of_not_bound hins hv⟩
  · intro hhistory
    have hfresh := boundParts_of_fresh hhistory
    refine ⟨fun c h => h.ip_le_length hfresh,
      fun c ins v c' h hv hd => h.lands_of_dispatch hfresh hv hd, ?_⟩
    intro b value hfinished
    obtain ⟨c, hpass, hnone, heq⟩ := exists_finish_of_execute hfinished
    have hle : p.length ≤ c.ip := List.getElem?_eq_none_iff.1 hnone
    exact ⟨c, hpass, Nat.le_antisymm (hpass.ip_le_length hfresh) hle, heq⟩

/-- A jump through an entry that a stopped pass left behind, and one after a reset. -/
theorem jump_resolution_stale :
    let w : Watch := ⟨true, Sink.takeAll⟩
    let stopped : List Request := [.run w 9 [.bare .dup, .label 0, .label 5]]
    let p : Program := [.lit 1, .lit 0, .bare .cjmp]
    let c : Config := ⟨2, ⟨[0, 1], .empty, ⟨#[1]⟩⟩, [], []⟩
    boundParts stopped = [[.bare .dup, .label 0]] ∧ Passes w p (.after stopped) c ∧
      (∃ c', c.dispatch w (.bare .cjmp) = .inl c' ∧ Resolves (p :: boundParts stopped) 0 c'.ip) ∧
      ∃ k, ∀ b, k ≤ b → (execute w b p (.after (.reset :: stopped))).ending =
        .faulted ⟨2, .labelUndefined 0⟩ := by
  intro w stopped p c
  have hpass : Passes w p (.after stopped) c :=
    ⟨rfl, .head ⟨.lit 1, rfl, rfl⟩ (.head ⟨.lit 0, rfl, rfl⟩ .refl)⟩
  have hreset : Passes w p (.after (.reset :: stopped)) ⟨2, ⟨[0, 1], .empty, .empty⟩, [], []⟩ :=
    ⟨rfl, .head ⟨.lit 1, rfl, rfl⟩ (.head ⟨.lit 0, rfl, rfl⟩ .refl)⟩
  refine ⟨rfl, hpass, ?_, ?_⟩
  · obtain ⟨htaken, hresolves, -⟩ := (jump_resolution stopped w p).1 c _ 0 hpass rfl rfl
    obtain ⟨c', hd⟩ := htaken.2 ⟨0, rfl, _, List.mem_cons_of_mem _ List.mem_cons_self, by decide⟩
    obtain ⟨n, hn, hto⟩ := hresolves c' hd
    obtain rfl : n = 0 := Int.ofNat.inj hn.symm
    exact ⟨c', hd, hto⟩
  · refine ((jump_resolution (.reset :: stopped) w p).1 _ _ 0 hreset rfl rfl).2.2 ?_
    rintro ⟨n, -, part, hpart, hlabel⟩
    obtain rfl : part = p := List.mem_singleton.1 hpart
    simp [p] at hlabel

end StackMachine
