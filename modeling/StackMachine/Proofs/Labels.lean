import StackMachine.Proofs.Steps

/-!
# What binding labels does to the table

The labels of a program are bound from the first to the last, each at the place that its
number has in the table. Afterwards a label of the program is at its last position, and the
table has kept every other entry. A pass that is stopped has done the same for the part of
the program before the label that stopped it.

## Main definitions

* `Program.lastLabel?` and `Program.LastAt`: the last position of a label.
* `Program.labelsFrom`: the labels of a program, with their positions.
* `JumpTable.OutOfOrder`: a label lies above the table that those before it leave.
* `Binding.reached`: the part of a program whose labels a pass has bound.

## Main results

* `JumpTable.target?_bindAll`: the table after a pass, stopped or not.
* `JumpTable.exists_stop`: a pass stops at the first label that is out of order.
* `Ending.reached_execute`: the part that was bound can be told from how the program ended.
-/

namespace StackMachine

/-! ### The last position of a label -/

namespace Program

/-- The last position of a label in a program, if the program has it. -/
def lastLabel? (n : Nat) : Program → Option Nat
  | [] => none
  | ins :: rest =>
    ((lastLabel? n rest).map (· + 1)).or (if ins = .label n then some 0 else none)

/-- The last position of label `n` in the program is `i`. -/
def LastAt (p : Program) (n i : Nat) : Prop :=
  p[i]? = some (.label n) ∧ ∀ j, i < j → p[j]? ≠ some (.label n)

/-- A label is last at the front of a program when it does not come behind it. -/
theorem lastAt_cons_zero {ins : Instr} {rest : Program} {n : Nat} :
    LastAt (ins :: rest) n 0 ↔ ins = .label n ∧ Instr.label n ∉ rest := by
  constructor
  · rintro ⟨hhead, hlast⟩
    refine ⟨Option.some.inj hhead, ?_⟩
    intro hmem
    obtain ⟨j, hj⟩ := List.mem_iff_getElem?.1 hmem
    exact hlast (j + 1) (by omega) hj
  · rintro ⟨rfl, hnot⟩
    refine ⟨rfl, ?_⟩
    intro j hj hlabel
    obtain ⟨j, rfl⟩ : ∃ j', j = j' + 1 := ⟨j - 1, by omega⟩
    exact hnot (List.mem_iff_getElem?.2 ⟨j, hlabel⟩)

/-- A label is last behind the first instruction as it is last in the rest. -/
theorem lastAt_cons_succ {ins : Instr} {rest : Program} {n i : Nat} :
    LastAt (ins :: rest) n (i + 1) ↔ LastAt rest n i := by
  constructor
  · rintro ⟨hi, hlast⟩
    exact ⟨hi, fun j hj => hlast (j + 1) (by omega)⟩
  · rintro ⟨hi, hlast⟩
    refine ⟨hi, ?_⟩
    intro j hj
    obtain ⟨j, rfl⟩ : ∃ j', j = j' + 1 := ⟨j - 1, by omega⟩
    exact hlast j (by omega)

/-- There is no last position of a label exactly if the program does not hold it. -/
theorem lastLabel?_eq_none_iff {p : Program} {n : Nat} :
    p.lastLabel? n = none ↔ Instr.label n ∉ p := by
  induction p with
  | nil => simp [lastLabel?]
  | cons ins rest ih =>
      rw [lastLabel?, Option.or_eq_none_iff, Option.map_eq_none_iff, ih, List.mem_cons, not_or,
        and_comm]
      by_cases heq : ins = .label n
      · simp [heq]
      · simp [heq, Ne.symm heq]

/-- The last position that is found is the last position. -/
theorem lastLabel?_eq_some_iff {p : Program} {n i : Nat} :
    p.lastLabel? n = some i ↔ p.LastAt n i := by
  induction p generalizing i with
  | nil => simp [lastLabel?, LastAt]
  | cons ins rest ih =>
      rw [lastLabel?, Option.or_eq_some_iff, Option.map_eq_some_iff, Option.map_eq_none_iff,
        lastLabel?_eq_none_iff]
      cases i with
      | zero => rw [lastAt_cons_zero]; simp [and_comm]
      | succ i => rw [lastAt_cons_succ, ← ih]; simp

end Program

/-! ### The labels of a program -/

/-- The number of an instruction that has the form of a label. -/
def Instr.labelNumber? : Instr → Option Number
  | label n => some (.ofNat n)
  | mislabel x => some x
  | _ => none

/-- The labels of the part of a program that starts at an index, each with its position, in
order. -/
def Program.labelsFrom (index : Nat) (p : Program) : List (Number × Nat) :=
  (p.zipIdx index).filterMap fun (ins, i) => ins.labelNumber?.map fun x => (x, i)

/-- The labels of a program are its first instruction, if that is one, and those of the rest. -/
theorem Program.labelsFrom_cons (index : Nat) (ins : Instr) (rest : Program) :
    Program.labelsFrom index (ins :: rest) =
      match ins.labelNumber? with
      | none => rest.labelsFrom (index + 1)
      | some x => (x, index) :: rest.labelsFrom (index + 1) := by
  rw [labelsFrom, List.zipIdx_cons, List.filterMap_cons]
  cases hins : ins.labelNumber? with
  | none => simp only [hins, Option.map_none, labelsFrom]
  | some x => simp only [hins, Option.map_some, labelsFrom]

/-! ### A pass over a program -/

namespace JumpTable

/-- The target of a natural number is the entry of that number. -/
theorem target?_natCast (t : JumpTable) (n : Nat) : t.target? n = t.entries[n]? := by
  rw [target?, Int.toNat_natCast, if_neg (Int.not_lt.2 (Int.natCast_nonneg n))]

/-- A table is known from where its labels are. -/
theorem ext_target? {t t' : JumpTable} (h : ∀ n : Nat, t.target? n = t'.target? n) : t = t' := by
  have hentries : t.entries = t'.entries := by
    refine Array.ext_getElem? ?_
    intro n
    rw [← target?_natCast, ← target?_natCast, h n]
  obtain ⟨entries⟩ := t
  obtain ⟨entries'⟩ := t'
  rw [show entries = entries' from hentries]

/-- A pass that is not stopped moves each label to its last position, and no other one. -/
theorem target?_bindFrom {index : Nat} {t : JumpTable} {p : Program}
    (h : (bindFrom index t p).fault = none) (n : Nat) :
    (bindFrom index t p).table.target? n =
      ((p.lastLabel? n).map (· + index)).or (t.target? n) := by
  fun_induction bindFrom index t p with
  | case1 index t => rfl
  | case2 index t id rest hsize => cases h
  | case3 index t id rest hsize later ih =>
      have hrest : later.table.target? n = _ := ih h
      rw [hrest, target?_bind (Nat.le_of_not_lt hsize), Program.lastLabel?, Option.map_or,
        Option.or_assoc, Option.map_map]
      simp only [Instr.label.injEq, Int.natCast_inj]
      congr 1
      · exact Option.map_congr (fun i _ => by simp; omega)
      · by_cases hid : id = n
        · simp [hid]
        · simp [hid, Ne.symm hid]
  | case4 index t id rest hexceeds => cases h
  | case5 index t id rest hexceeds later ih =>
      have hrest : later.table.target? n = _ := ih h
      rw [hrest, Program.lastLabel?]
      cases Program.lastLabel? n rest <;> simp [Nat.add_assoc, Nat.add_comm 1 index]
  | case6 index t ins rest hlabel hmislabel ih =>
      have hne : ins ≠ .label n := fun heq => hlabel n heq
      rw [ih h, Program.lastLabel?, if_neg hne]
      cases Program.lastLabel? n rest <;> simp [Nat.add_assoc, Nat.add_comm 1 index]

/-- The table after one instruction of a pass: a label is bound, if it has a place. -/
def mark (t : JumpTable) (ins : Instr) (index : Nat) : JumpTable :=
  match ins with
  | .label id => if h : id ≤ t.size then t.bind id index h else t
  | _ => t

/-- A label that is not above the table is bound. -/
theorem mark_label {t : JumpTable} {id : Nat} (h : id ≤ t.size) (index : Nat) :
    t.mark (.label id) index = t.bind id index h :=
  dif_pos h

/-- **One instruction of a pass.** Only a label counts; it stops the pass if its number lies
above the table, and is met otherwise. -/
theorem bindFrom_cons (index : Nat) (t : JumpTable) (ins : Instr) (rest : Program) :
    bindFrom index t (ins :: rest) =
      match ins.labelNumber? with
      | none => bindFrom (index + 1) t rest
      | some x =>
        if x.exceeds t.size then ⟨t, [], some ⟨index, .labelOrder x t.size⟩⟩
        else
          let later := bindFrom (index + 1) (t.mark ins index) rest
          { later with bound := (x, index) :: later.bound } := by
  cases ins with
  | label id =>
      simp only [bindFrom, Instr.labelNumber?, Number.exceeds_ofNat]
      split
      next => rfl
      next hsize => rw [mark_label (Nat.le_of_not_lt hsize)]
  | mislabel x => simp only [bindFrom, Instr.labelNumber?, mark]
  | lit v => rfl
  | bare op => rfl
  | unknown name => rfl

/-- A label that has a place marks a changed table alike, if binding does so. -/
theorem mark_comm {τ : JumpTable → JumpTable} {t : JumpTable} {ins : Instr} {x : Number}
    {i j : Nat} (hsize : t.size ≤ (τ t).size)
    (hbind : ∀ id (h : id ≤ t.size), (τ t).bind id j (Nat.le_trans h hsize) = τ (t.bind id i h))
    (hins : ins.labelNumber? = some x) (h : ¬x.exceeds t.size = true) :
    (τ t).mark ins j = τ (t.mark ins i) := by
  cases ins with
  | label id =>
      obtain rfl := Option.some.inj hins
      have hid : id ≤ t.size := Nat.le_of_not_lt fun hlt => h (Number.exceeds_ofNat.2 hlt)
      rw [mark_label hid, mark_label (Nat.le_trans hid hsize), hbind id hid]
  | mislabel y => rfl
  | lit v => rfl
  | bare op => rfl
  | unknown name => rfl

/-- A pass that is not stopped has met the labels of the program, and none of them above the
table that the part before it left. -/
theorem bindFrom_of_no_fault {index : Nat} {t : JumpTable} {p : Program}
    (h : (bindFrom index t p).fault = none) :
    (bindFrom index t p).bound = p.labelsFrom index ∧
      ∀ k x, p[k]?.bind Instr.labelNumber? = some x →
        x.exceeds (bindFrom index t (p.take k)).table.size = false := by
  induction p generalizing index t with
  | nil => exact ⟨rfl, nofun⟩
  | cons ins rest ih =>
      rw [bindFrom_cons] at h ⊢
      rw [Program.labelsFrom_cons]
      cases hins : ins.labelNumber? with
      | none =>
          simp only [hins] at h ⊢
          obtain ⟨hbound, hbelow⟩ := ih h
          refine ⟨hbound, ?_⟩
          intro k x hx
          cases k with
          | zero =>
              rw [List.getElem?_cons_zero, Option.bind_some, hins] at hx
              cases hx
          | succ k =>
              rw [List.take_succ_cons, bindFrom_cons, hins]
              exact hbelow k x hx
      | some y =>
          simp only [hins] at h ⊢
          by_cases hexceeds : y.exceeds t.size = true
          · rw [if_pos hexceeds] at h
            cases h
          -- The label is below the table as it was met, and those behind it are by induction.
          · rw [if_neg hexceeds] at h ⊢
            obtain ⟨hbound, hbelow⟩ := ih h
            refine ⟨congrArg ((y, index) :: ·) hbound, ?_⟩
            intro k x hx
            cases k with
            | zero =>
                rw [List.getElem?_cons_zero, Option.bind_some, hins] at hx
                obtain rfl := Option.some.inj hx
                exact Bool.eq_false_iff.2 hexceeds
            | succ k =>
                rw [List.take_succ_cons, bindFrom_cons, hins]
                simp only [if_neg hexceeds]
                exact hbelow k x hx

/-- A pass that is stopped has passed over the part of the program before a label, and the
number of that label lies above the table that this part left. -/
theorem bindFrom_of_fault {index : Nat} {t : JumpTable} {p : Program} {f : Fault}
    (h : (bindFrom index t p).fault = some f) :
    ∃ k x, p[k]?.bind Instr.labelNumber? = some x ∧
      x.exceeds (bindFrom index t (p.take k)).table.size = true ∧
      f = ⟨index + k, .labelOrder x (bindFrom index t (p.take k)).table.size⟩ ∧
      (bindFrom index t (p.take k)).fault = none ∧
      bindFrom index t p = { bindFrom index t (p.take k) with fault := some f } := by
  induction p generalizing index t with
  | nil => cases h
  | cons ins rest ih =>
      rw [bindFrom_cons] at h ⊢
      cases hins : ins.labelNumber? with
      | none =>
          simp only [hins] at h ⊢
          obtain ⟨k, x, hx, hrest⟩ := ih h
          refine ⟨k + 1, x, hx, ?_⟩
          rw [List.take_succ_cons, bindFrom_cons, hins, ← Nat.add_assoc, Nat.add_right_comm]
          exact hrest
      | some y =>
          simp only [hins] at h ⊢
          by_cases hexceeds : y.exceeds t.size = true
          · rw [if_pos hexceeds] at h ⊢
            obtain rfl := Option.some.inj h
            exact ⟨0, y, hins, hexceeds, rfl, rfl, rfl⟩
          · rw [if_neg hexceeds] at h ⊢
            obtain ⟨k, x, hx, habove, hf, hnone, heq⟩ := ih h
            refine ⟨k + 1, x, hx, ?_⟩
            rw [List.take_succ_cons, bindFrom_cons, hins, ← Nat.add_assoc, Nat.add_right_comm]
            simp only [if_neg hexceeds]
            exact ⟨habove, hf, hnone, by rw [heq]⟩

end JumpTable

/-- The part of a program whose labels a pass has bound. -/
def Binding.reached (b : Binding) (p : Program) : Program :=
  match b.fault with
  | some f => p.take f.ip
  | none => p

/-- **The table after a pass.** A label of the part that was reached is at its last position
there, and every other label is where it was. -/
theorem JumpTable.target?_bindAll (t : JumpTable) (p : Program) (n : Nat) :
    (t.bindAll p).table.target? n =
      (((t.bindAll p).reached p).lastLabel? n).or (t.target? n) := by
  rw [bindAll, Binding.reached]
  cases hfault : (bindFrom 0 t p).fault with
  | none =>
      have htarget := target?_bindFrom hfault n
      simpa using htarget
  | some f =>
      obtain ⟨k, x, -, -, rfl, hnone, heq⟩ := bindFrom_of_fault hfault
      have htarget := target?_bindFrom hnone n
      rw [heq]
      simpa using htarget

/-! ### Where a pass stops -/

namespace JumpTable

/-- The label at an index is out of order: its number lies above the table that the labels
before it leave. -/
def OutOfOrder (t : JumpTable) (p : Program) (i : Nat) : Prop :=
  ∃ x, p[i]?.bind Instr.labelNumber? = some x ∧
    x.exceeds (t.bindAll (p.take i)).table.size = true

variable {t : JumpTable} {p : Program}

/-- Whether a label is out of order depends only on what comes before. -/
theorem outOfOrder_take {i k : Nat} (h : i < k) :
    t.OutOfOrder (p.take k) i ↔ t.OutOfOrder p i := by
  rw [OutOfOrder, OutOfOrder, List.getElem?_take_of_lt h, List.take_take,
    Nat.min_eq_left (Nat.le_of_lt h)]

/-- A pass that is not stopped meets no label out of order. -/
theorem not_outOfOrder_of_no_fault (h : (t.bindAll p).fault = none) (i : Nat) :
    ¬t.OutOfOrder p i := by
  rintro ⟨x, hx, hexceeds⟩
  have hbelow : x.exceeds (t.bindAll (p.take i)).table.size = false :=
    (bindFrom_of_no_fault h).2 i x hx
  rw [hbelow] at hexceeds
  cases hexceeds

/-- **Where a pass stops**: at the first label that is out of order, or at the end of the
program. The labels that it has met are those before. -/
theorem exists_stop (t : JumpTable) (p : Program) :
    ∃ k, (∀ i, i < k → ¬t.OutOfOrder p i) ∧ (t.OutOfOrder p k ∨ k = p.length) ∧
      (t.bindAll p).bound = Program.labelsFrom 0 (p.take k) := by
  cases hfault : (t.bindAll p).fault with
  | none =>
      refine ⟨p.length, fun i _ => not_outOfOrder_of_no_fault hfault i, .inr rfl, ?_⟩
      rw [List.take_length]
      exact (bindFrom_of_no_fault hfault).1
  | some f =>
      obtain ⟨k, x, hx, hexceeds, -, hnone, heq⟩ := bindFrom_of_fault hfault
      refine ⟨k, ?_, .inl ⟨x, hx, hexceeds⟩, ?_⟩
      · intro i hi
        rw [← outOfOrder_take hi]
        exact not_outOfOrder_of_no_fault hnone i
      · rw [bindAll, heq]
        exact (bindFrom_of_no_fault hnone).1

end JumpTable

/-- The part of a program whose labels were bound, told from how the program ended: a fault
of the order of labels names the label that stopped the pass. -/
def Ending.reached (p : Program) : Ending → Program
  | faulted ⟨ip, .labelOrder _ _⟩ => p.take ip
  | _ => p

/-- Of the dispatched instructions none faults for the order of labels. -/
theorem reached_of_ends {w : Watch} {code : Array Instr} {c : Config} {r : Report}
    (h : c.Ends w code r) (p : Program) : r.ending.reached p = p := by
  cases h with
  | finish hend => rfl
  | exhaust hins => rfl
  | halt hins hd =>
      obtain ⟨v, s, e, -, -, rfl⟩ | ⟨s, -, rfl⟩ | ⟨cause, s, hs, rfl⟩ | ⟨-, rfl⟩ :=
        Config.dispatch_inr_cases hd
      · rw [Config.ending_refuse]
        rfl
      · rfl
      · cases effect_of_step hs <;> rfl
      · rfl

/-- The part that was bound can be told from how the program ended. -/
theorem Ending.reached_execute (w : Watch) (b : Nat) (p : Program) (s : State) :
    (execute w b p s).ending.reached p = (s.table.bindAll p).reached p := by
  rw [Binding.reached]
  cases hfault : (s.table.bindAll p).fault with
  | none =>
      obtain ⟨c, -, hends⟩ := exists_passes_of_execute w b hfault
      exact reached_of_ends hends p
  | some f =>
      obtain ⟨k, x, -, -, rfl, -⟩ := JumpTable.bindFrom_of_fault hfault
      rw [execute_of_fault w b hfault]
      rfl

end StackMachine
