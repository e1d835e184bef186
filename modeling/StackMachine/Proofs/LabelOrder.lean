import StackMachine.Proofs.Faults
import StackMachine.Proofs.Tracing

/-!
# Which programs have their labels in order

A pass over the labels of a program asks of each label whether the table has room for it. The
table grows while the pass goes on, and may have been filled by earlier programs, so the answer
seems to depend on all that was bound before. It can be told from the numbers of the labels
alone: a label has room if it is at most the size of the first table, or at most one more than
the greatest label before it.

## Main definitions

* `Program.room`: one more than the greatest label of a program.
* `Program.InOrder`: every label has room when the pass comes to it.
* `JumpTable.Updated`: a table with the labels of a program bound in it.

## Main results

* `JumpTable.size_bindFrom`: the size of the table is a running maximum.
* `JumpTable.updated_bindAll`: a pass updates the table by the part that it has reached.
* `JumpTable.fault_eq_none_iff`: a pass succeeds exactly if the labels are in order.
* `label_binding`: **which programs have their labels bound, and what is left of those that
  have not.**
-/

namespace StackMachine

/-! ### The room that labels need -/

/-- The size of the smallest table with a place for the label, if the instruction is one. -/
def Instr.room : Instr → Nat
  | label n => n + 1
  | _ => 0

/-- An instruction that is no label needs no room. -/
theorem Instr.room_eq_zero {ins : Instr} (h : ins.labelNumber? = none) : ins.room = 0 := by
  cases ins with
  | label n => cases h
  | _ => rfl

namespace Program

/-- The size of the smallest table with a place for every label of a program: one more than the
greatest of them, or `0` if there is none. -/
def room : Program → Nat
  | [] => 0
  | ins :: rest => max ins.room (room rest)

/-- Every label of the program has room when a pass comes to it, in a table of the given size
that takes up the labels before. -/
def InOrder (size : Nat) (p : Program) : Prop :=
  ∀ i n, p[i]? = some (.label n) → n ≤ max size (room (p.take i))

/-- The part before an index is in order if its labels are. -/
theorem inOrder_take_iff {size i : Nat} {p : Program} :
    InOrder size (p.take i) ↔
      ∀ j n, j < i → p[j]? = some (.label n) → n ≤ max size (room (p.take j)) := by
  constructor
  · intro h j n hj hn
    have hbelow := h j n (by rwa [List.getElem?_take_of_lt hj])
    rwa [List.take_take, Nat.min_eq_left (Nat.le_of_lt hj)] at hbelow
  · intro h j n hn
    have hj : j < i :=
      Nat.lt_of_lt_of_le (List.getElem?_eq_some_iff.1 hn).1 (List.length_take_le i p)
    rw [List.getElem?_take_of_lt hj] at hn
    rw [List.take_take, Nat.min_eq_left (Nat.le_of_lt hj)]
    exact h j n hj hn

end Program

/-! ### The table of a pass -/

/-- The table `t'` is `t` with the labels of a program bound: there is room for all of them,
each is at its last position in the program, and every other label is where it was. -/
structure JumpTable.Updated (t : JumpTable) (p : Program) (t' : JumpTable) : Prop where
  size : t'.size = max t.size p.room
  bound : ∀ n, Instr.label n ∈ p → ∃ i, p.LastAt n i ∧ t'.target? n = some i
  kept : ∀ n : Nat, Instr.label n ∉ p → t'.target? n = t.target? n

namespace JumpTable

variable {t : JumpTable} {p : Program} {index : Nat}

/-- A label that is not above the table makes the room that it needs. -/
theorem size_mark {ins : Instr} {x : Number} (hins : ins.labelNumber? = some x)
    (h : ¬x.exceeds t.size = true) : (t.mark ins index).size = max t.size ins.room := by
  cases ins with
  | label n =>
      obtain rfl := Option.some.inj hins
      have hle : n ≤ t.size := Nat.le_of_not_lt fun hlt => h (Number.exceeds_ofNat.2 hlt)
      rw [mark_label hle, size_bind hle, Instr.room]
      split <;> omega
  | mislabel y => exact (Nat.max_zero t.size).symm
  | lit v => cases hins
  | bare op => cases hins
  | unknown name => cases hins

/-- **The size of the table is a running maximum**, as long as the pass is not stopped. -/
theorem size_bindFrom (h : (bindFrom index t p).fault = none) :
    (bindFrom index t p).table.size = max t.size p.room := by
  induction p generalizing index t with
  | nil => exact (Nat.max_zero t.size).symm
  | cons ins rest ih =>
      rw [bindFrom_cons] at h ⊢
      rw [Program.room, ← Nat.max_assoc]
      cases hins : ins.labelNumber? with
      | none =>
          simp only [hins] at h ⊢
          rw [ih h, Instr.room_eq_zero hins, Nat.max_zero]
      | some x =>
          simp only [hins] at h ⊢
          by_cases hexceeds : x.exceeds t.size = true
          · rw [if_pos hexceeds] at h
            cases h
          · rw [if_neg hexceeds] at h ⊢
            rw [ih h, size_mark hins hexceeds]

/-- **A pass updates the table by the part of the program that it has reached.** -/
theorem updated_bindAll (t : JumpTable) (p : Program) :
    t.Updated ((t.bindAll p).reached p) (t.bindAll p).table where
  size := by
    rw [Binding.reached]
    cases hfault : (t.bindAll p).fault with
    | none => exact size_bindFrom hfault
    | some f =>
        obtain ⟨k, x, -, -, rfl, hnone, heq⟩ := bindFrom_of_fault hfault
        rw [bindAll, heq]
        simpa using size_bindFrom hnone
  bound := by
    intro n hn
    have hsome : ((t.bindAll p).reached p).lastLabel? n ≠ none :=
      fun hnone => Program.lastLabel?_eq_none_iff.1 hnone hn
    obtain ⟨i, hi⟩ := Option.ne_none_iff_exists'.1 hsome
    refine ⟨i, Program.lastLabel?_eq_some_iff.1 hi, ?_⟩
    rw [target?_bindAll, hi]
    rfl
  kept := by
    intro n hn
    rw [target?_bindAll, Program.lastLabel?_eq_none_iff.2 hn]
    rfl

/-! ### Passes that are not stopped -/

/-- A pass that is not stopped is not stopped before. -/
theorem fault_take (h : (t.bindAll p).fault = none) (i : Nat) :
    (t.bindAll (p.take i)).fault = none := by
  cases hfault : (t.bindAll (p.take i)).fault with
  | none => rfl
  | some f =>
      obtain ⟨k, x, hx, hexceeds, -⟩ := bindFrom_of_fault hfault
      have hout : t.OutOfOrder (p.take i) k := ⟨x, hx, hexceeds⟩
      have hlt : k < i := by
        obtain ⟨ins, hins, -⟩ := Option.bind_eq_some_iff.1 hx
        exact Nat.lt_of_lt_of_le (List.getElem?_eq_some_iff.1 hins).1 (List.length_take_le i p)
      exact absurd ((outOfOrder_take hlt).1 hout) (not_outOfOrder_of_no_fault h k)

/-- **A pass over a well-formed program succeeds exactly if its labels are in order.** -/
theorem fault_eq_none_iff (hp : p.WellFormed) :
    (t.bindAll p).fault = none ↔ p.InOrder t.size := by
  constructor
  · intro hnone i n hn
    by_contra habove
    have hsize : (t.bindAll (p.take i)).table.size = max t.size (Program.room (p.take i)) :=
      size_bindFrom (fault_take hnone i)
    rw [← hsize, Nat.not_le] at habove
    have hblame : LabelBlame t p i n := ⟨hn, fault_take hnone i, habove⟩
    exact not_outOfOrder_of_no_fault hnone i hblame.outOfOrder
  · intro horder
    cases hfault : (t.bindAll p).fault with
    | none => rfl
    | some f =>
        obtain ⟨n, ⟨hlabel, hreached, habove⟩, -⟩ := LabelBlame.of_fault hp hfault
        rw [bindAll, size_bindFrom hreached] at habove
        exact absurd (horder f.ip n hlabel) (Nat.not_le.2 habove)

end JumpTable

/-! ### Programs whose labels are out of order -/

section Runs

variable {w : Watch} {b : Nat} {p : Program} {s : State}

/-- A program that dispatches no instruction hands no line to the sink. -/
theorem handed_of_no_visits (h : visits w b p s = []) : (execute w b p s).handed = [] := by
  obtain ⟨last, -, hevents⟩ := exists_events_execute w b p s
  rw [Report.handed_eq, hevents, h]
  simp only [List.filterMap_append, Watch.filterMap_handed?_raised, List.flatMap_nil,
    List.append_nil]

/-- A program whose labels are bound does not fault for their order. -/
theorem code_ne_labelOrder (hbinds : (s.table.bindAll p).fault = none) {f : Fault}
    (hf : (execute w b p s).ending = .faulted f) : f.cause.code ≠ .labelOrder := by
  obtain ⟨c, -, hends⟩ := exists_passes_of_execute w b hbinds
  generalize execute w b p s = r at hf hends
  cases hends with
  | finish hend => cases hf
  | exhaust hins => cases hf
  | halt hins hd =>
      obtain ⟨v, s, e, -, -, rfl⟩ | ⟨s, -, rfl⟩ | ⟨cause, s, hs, rfl⟩ | ⟨-, rfl⟩ :=
        Config.dispatch_inr_cases hd
      · rw [Config.ending_refuse] at hf
        cases hf
      · cases hf
      · obtain rfl := Ending.faulted.inj hf
        cases effect_of_step hs <;> nofun
      · cases hf

end Runs

/-- **The binding of labels.** Take a well-formed program on any state. The pass over its labels
succeeds exactly if each of them is at most the size of the table, or at most one more than the
greatest label before it. Then the table grows to hold the greatest label, each label of the
program is at its last position, and the others are where they were, at every instruction and at
the end; no fault of the run is one of the order of labels.

Otherwise the program ends with the fault that names the first label without room and its index,
whoever watches it. No instruction was dispatched, no line was handed to the sink, the stack and
the memory are those of before, and the table is updated by the labels before that index. -/
theorem label_binding (p : Program) (hp : p.WellFormed) (s : State) :
    ((s.table.bindAll p).fault = none ↔ p.InOrder s.table.size) ∧
    (p.InOrder s.table.size → ∀ w b,
      (∀ c, Passes w p s c → s.table.Updated p c.state.table) ∧
      s.table.Updated p (execute w b p s).state.table ∧
      ∀ f, (execute w b p s).ending = .faulted f → f.cause.code ≠ .labelOrder) ∧
    (¬p.InOrder s.table.size → ∃ i n, p[i]? = some (.label n) ∧
      max s.table.size (Program.room (p.take i)) < n ∧
      (∀ j m, j < i → p[j]? = some (.label m) → m ≤ max s.table.size (Program.room (p.take j))) ∧
      ∀ w b, let r := execute w b p s
        (∃ d, r.result = .error (.diagnosed d) ∧
          d.Names "E_LABEL_ORDER" i [("label", .number (.ofNat n))]) ∧
        visits w b p s = [] ∧ r.handed = [] ∧ r.state.stack = s.stack ∧
        r.state.memory = s.memory ∧ s.table.Updated (p.take i) r.state.table) := by
  have hiff : (s.table.bindAll p).fault = none ↔ p.InOrder s.table.size :=
    JumpTable.fault_eq_none_iff hp
  have hupdated := s.table.updated_bindAll p
  rw [Binding.reached] at hupdated
  refine ⟨hiff, ?_, ?_⟩
  · intro horder w b
    have hnone := hiff.2 horder
    simp only [hnone] at hupdated
    refine ⟨?_, ?_, fun f => code_ne_labelOrder hnone⟩
    · intro c hc
      rw [hc.table_eq]
      exact hupdated
    · rw [table_execute]
      exact hupdated
  · intro horder
    cases hfault : (s.table.bindAll p).fault with
    | none => exact absurd (hiff.1 hfault) horder
    | some f =>
        obtain ⟨n, ⟨hlabel, hreached, habove⟩, hcause⟩ := LabelBlame.of_fault hp hfault
        rw [JumpTable.bindAll, JumpTable.size_bindFrom hreached] at habove
        -- The pass came to this label, so the ones before it are in order.
        have hbefore : Program.InOrder s.table.size (p.take f.ip) := by
          refine (JumpTable.fault_eq_none_iff ?_).1 hreached
          exact fun ins hins => hp ins (List.mem_of_mem_take hins)
        refine ⟨f.ip, n, hlabel, habove, Program.inOrder_take_iff.1 hbefore, ?_⟩
        intro w b r
        have hr : r = ((Config.start w p s).raise w (f.diagnostic.tag 0)).stop (.faulted f) :=
          execute_of_fault w b hfault
        have hending : r.ending = .faulted ⟨f.ip, f.cause⟩ := by rw [hr]; rfl
        have hvisits : visits w b p s = [] := by simp only [visits, hfault]
        obtain ⟨d, hd, hnames⟩ := Report.exists_names hending
        rw [hcause] at hnames
        refine ⟨⟨d, hd, hnames⟩, hvisits, handed_of_no_visits hvisits, ?_, ?_, ?_⟩
        · rw [hr, Config.raise_eq]
          rfl
        · rw [hr, Config.raise_eq]
          rfl
        · simp only [hfault] at hupdated
          rw [table_execute]
          exact hupdated

/-- A table of one label has room for label `1`, and a label `3` behind it stops the pass; the
print in front of both finds no operand, but is not reached. -/
theorem label_binding_stopped :
    let p : Program := [.bare .put, .label 1, .label 3]
    let s : State := ⟨[], .empty, ⟨#[8]⟩⟩
    p.WellFormed ∧ ¬p.InOrder s.table.size ∧ ∀ w b,
      (∃ d, (execute w b p s).result = .error (.diagnosed d) ∧
        d.Names "E_LABEL_ORDER" 2 [("label", .number (.ofNat 3))]) ∧
      (execute w b p s).handed = [] ∧
      s.table.Updated [.bare .put, .label 1] (execute w b p s).state.table := by
  intro p s
  have hp : p.WellFormed := by decide
  have hout : ¬p.InOrder s.table.size := by
    intro horder
    exact absurd (horder 2 3 rfl) (by decide)
  obtain ⟨-, -, hstopped⟩ := label_binding p hp s
  obtain ⟨i, n, hlabel, habove, -, hruns⟩ := hstopped hout
  rcases i with _ | _ | _ | i
  · cases hlabel
  · cases hlabel
    exact absurd habove (by decide)
  · cases hlabel
    refine ⟨hp, hout, ?_⟩
    intro w b
    obtain ⟨herror, -, hhanded, -, -, htable⟩ := hruns w b
    exact ⟨herror, hhanded, htable⟩
  · cases hlabel

end StackMachine
