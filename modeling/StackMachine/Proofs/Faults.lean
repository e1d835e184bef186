import StackMachine.Proofs.Labels
import StackMachine.Proofs.Visits

/-!
# Faults are to blame on an instruction

A run of a well-formed program whose sink takes every line ends well or with one of five
faults. Four of them are met by a dispatched instruction that finds its operands and cannot
use one of them, `Blame`; the fifth is met before the program runs, by a label out of order.
Each names the instruction and the address or label that it could not use, and each
instruction to blame ends the run by its fault.

## Main definitions

* `Blame` and `LabelBlame`: an instruction cannot use an operand that it finds, a label has
  no place in the table.
* `Diagnostic.Names`: what an error tells.

## Main results

* `Blame.of_step` and `Blame.exists_step`: an instruction faults exactly if it is to blame.
* `LabelBlame.of_fault` and `LabelBlame.fault_eq`: so it is with a label.
* `fault_soundness`: **the faults of a run**.
-/

namespace StackMachine

/-- An error has a code, and its details are the index of an instruction and an operand. -/
structure Diagnostic.Names (d : Diagnostic) (code : String) (index : Nat)
    (operand : List (String × Detail)) : Prop where
  code : d.code.name = code
  details : d.details = ("ip", .number (.ofNat index)) :: operand

/-! ### Instructions to blame -/

/-- An instruction finds its operands in a state and cannot use one of them. The code of the
fault comes with the operand that it names. -/
inductive Blame (s : State) : Instr → String → List (String × Detail) → Prop where
  | division {a : Int} {rest : List Int} (hstack : s.stack = a :: 0 :: rest) :
      Blame s (.bare .div) "E_DIV_ZERO" []
  | load {addr : Int} {rest : List Int} (hstack : s.stack = addr :: rest)
      (hout : ¬(0 ≤ addr ∧ addr < s.memory.size)) :
      Blame s (.bare .load) "E_MEM_LOAD" [("addr", .text (toString addr))]
  | store {addr value : Int} {rest : List Int} (hstack : s.stack = addr :: value :: rest)
      (hout : ¬(0 ≤ addr ∧ addr ≤ s.memory.size)) :
      Blame s (.bare .store) "E_MEM_STORE" [("addr", .text (toString addr))]
  | jump {id : Int} {rest : List Int} (hstack : s.stack = id :: rest)
      (hout : ¬(0 ≤ id ∧ id < s.table.size)) :
      Blame s (.bare .jmp) "E_LABEL_UNDEFINED" [("label", .text (toString id))]
  | branch {id cond : Int} {rest : List Int} (hstack : s.stack = id :: cond :: rest)
      (hcond : cond ≠ 0) (hout : ¬(0 ≤ id ∧ id < s.table.size)) :
      Blame s (.bare .cjmp) "E_LABEL_UNDEFINED" [("label", .text (toString id))]

/-- A label misses the table exactly if it is not an index of it. -/
theorem JumpTable.target?_eq_none_iff {t : JumpTable} {id : Int} :
    t.target? id = none ↔ ¬(0 ≤ id ∧ id < t.size) := by
  unfold target? size
  split
  · simp only [true_iff]
    omega
  · simp only [Array.getElem?_eq_none_iff]
    omega

namespace Blame

variable {s s' : State} {ins : Instr} {cause : Cause} {code : String}
  {operand : List (String × Detail)}

/-- A fault has its instruction to blame. -/
theorem of_step (h : step ins s = .fault cause s') :
    Blame s ins cause.code.name cause.operand := by
  cases effect_of_step h with
  | @undefined op v hins hjump htarget =>
      have hout := JumpTable.target?_eq_none_iff.1 htarget
      subst hins
      rw [Instr.jumpsTo?.eq_def] at hjump
      split at hjump
      next id rest hbare hstack =>
        obtain rfl := Instr.bare.inj hbare
        obtain rfl := Option.some.inj hjump
        exact .jump hstack hout
      next id cond rest hbare hstack =>
        obtain rfl := Instr.bare.inj hbare
        split at hjump
        · cases hjump
        next hcond =>
          obtain rfl := Option.some.inj hjump
          exact .branch hstack hcond hout
      next => cases hjump
  | divisionByZero hins hstack =>
      subst hins
      exact .division hstack
  | loadOutside hins hstack hcell =>
      subst hins
      refine .load hstack ?_
      rw [← Memory.cell?_isSome_iff, hcell]
      simp
  | storePast hins hstack hout =>
      subst hins
      exact .store hstack hout

/-- An instruction to blame faults. -/
theorem exists_step (h : Blame s ins code operand) :
    ∃ cause s', step ins s = .fault cause s' ∧ cause.code.name = code ∧
      cause.operand = operand := by
  cases h with
  | @division a rest hstack =>
      refine ⟨.divisionByZero a, s.withStack rest, ?_, rfl, rfl⟩
      simp only [step, Opcode.perform, hstack, if_true]
  | @load addr rest hstack hout =>
      refine ⟨.loadOutside addr s.memory.size, s.withStack rest, ?_, rfl, rfl⟩
      have hcell : s.memory.cell? addr = none := by
        rw [← Option.not_isSome_iff_eq_none, Memory.cell?_isSome_iff]
        exact hout
      simp only [step, Opcode.perform, hstack, Memory.load, hcell]
  | @store addr value rest hstack hout =>
      refine ⟨.storePast addr s.memory.size, s.withStack rest, ?_, rfl, rfl⟩
      simp only [step, Opcode.perform, hstack, Memory.store, if_neg hout]
  | @jump id rest hstack hout =>
      refine ⟨.labelUndefined id, s.withStack rest, ?_, rfl, rfl⟩
      have htarget := JumpTable.target?_eq_none_iff.2 hout
      simp only [step, Opcode.perform, hstack, State.jump, State.withStack, htarget]
  | @branch id cond rest hstack hcond hout =>
      refine ⟨.labelUndefined id, s.withStack rest, ?_, rfl, rfl⟩
      have htarget := JumpTable.target?_eq_none_iff.2 hout
      simp only [step, Opcode.perform, hstack, if_neg hcond, State.jump, State.withStack, htarget]

end Blame

/-! ### Labels to blame -/

/-- The pass over the labels of a program comes to label `n` at index `i`, and finds it above
the table. -/
structure LabelBlame (t : JumpTable) (p : Program) (i n : Nat) : Prop where
  label : p[i]? = some (.label n)
  reached : (t.bindAll (p.take i)).fault = none
  above : (t.bindAll (p.take i)).table.size < n

namespace LabelBlame

variable {t : JumpTable} {p : Program} {f : Fault} {i n : Nat}

/-- A label that is blamed is out of order. -/
theorem outOfOrder (h : LabelBlame t p i n) : t.OutOfOrder p i :=
  ⟨.ofNat n, by rw [h.label]; rfl, Number.exceeds_ofNat.2 h.above⟩

/-- The pass over a well-formed program is stopped by a label to blame. -/
theorem of_fault (hp : p.WellFormed) (h : (t.bindAll p).fault = some f) :
    ∃ n, LabelBlame t p f.ip n ∧
      f.cause = .labelOrder (.ofNat n) (t.bindAll (p.take f.ip)).table.size := by
  obtain ⟨k, x, hx, hexceeds, rfl, hnone, -⟩ := JumpTable.bindFrom_of_fault h
  obtain ⟨ins, hins, hnumber⟩ := Option.bind_eq_some_iff.1 hx
  have hwell : ins.WellFormed := hp ins (List.mem_of_getElem? hins)
  cases ins with
  | label n =>
      obtain rfl := Option.some.inj hnumber
      simp only [Nat.zero_add]
      exact ⟨n, ⟨hins, hnone, Number.exceeds_ofNat.1 hexceeds⟩, rfl⟩
  | mislabel y => exact absurd hwell id
  | lit v => cases hnumber
  | bare op => cases hnumber
  | unknown name => cases hnumber

/-- A label to blame stops the pass. -/
theorem fault_eq (h : LabelBlame t p i n) :
    (t.bindAll p).fault =
      some ⟨i, .labelOrder (.ofNat n) (t.bindAll (p.take i)).table.size⟩ := by
  cases hfault : (t.bindAll p).fault with
  | none => exact absurd h.outOfOrder (JumpTable.not_outOfOrder_of_no_fault hfault i)
  | some f =>
      obtain ⟨k, x, hx, hexceeds, rfl, hnone, -⟩ := JumpTable.bindFrom_of_fault hfault
      -- neither label can stand before the other, since no pass over a part was stopped
      obtain rfl : i = k := by
        rcases Nat.lt_trichotomy i k with hlt | heq | hlt
        · have hout := (JumpTable.outOfOrder_take hlt).2 h.outOfOrder
          exact absurd hout (JumpTable.not_outOfOrder_of_no_fault hnone i)
        · exact heq
        · have hout : t.OutOfOrder p k := ⟨x, hx, hexceeds⟩
          exact absurd ((JumpTable.outOfOrder_take hlt).2 hout)
            (JumpTable.not_outOfOrder_of_no_fault h.reached k)
      rw [h.label] at hx
      obtain rfl := Option.some.inj hx
      simp only [Nat.zero_add]
      rfl

end LabelBlame

/-! ### Runs -/

/-- A fault is reported by an error that names its instruction and its operand. -/
theorem Report.exists_names {r : Report} {i : Nat} {cause : Cause}
    (h : r.ending = .faulted ⟨i, cause⟩) :
    ∃ d, r.result = .error (.diagnosed d) ∧ d.Names cause.code.name i cause.operand := by
  refine ⟨Fault.diagnostic ⟨i, cause⟩, ?_, rfl, rfl⟩
  rw [Report.result, h]
  rfl

section Runs

variable {w : Watch} {p : Program} {s : State} {b : Nat}

/-- A run of a well-formed program whose sink takes every line, and which an instruction
ends, ends by an underflow or has its last visit to blame. -/
theorem Config.blame_of_dispatch_inr {c : Config} {ins : Instr} {r : Report}
    (hins : ins.WellFormed) (hsink : ∀ taken line, w.sink taken line = none)
    (hd : c.dispatch w ins = .inr r) :
    r.ending = .underflow ∨ ∃ cause, r.ending = .faulted ⟨c.ip, cause⟩ ∧
      Blame c.state ins cause.code.name cause.operand := by
  obtain ⟨v, s, e, -, hrefused, rfl⟩ | ⟨s, -, rfl⟩ | ⟨cause, s, hs, rfl⟩ | ⟨hs, rfl⟩ :=
    dispatch_inr_cases hd
  · rw [hsink] at hrefused
    cases hrefused
  · exact .inl rfl
  · exact .inr ⟨cause, rfl, .of_step hs⟩
  · cases effect_of_step hs with
    | unknown hunknown =>
        subst hunknown
        exact absurd hins id

/-- A visit to blame ends the run by its fault. -/
theorem Blame.exists_fault {v : Visit} {code : String} {operand : List (String × Detail)}
    (hv : v ∈ visits w b p s) (h : Blame v.state v.ins code operand) :
    ∃ cause, (execute w b p s).ending = .faulted ⟨v.ip, cause⟩ ∧ cause.code.name = code ∧
      cause.operand = operand := by
  rw [visits] at hv
  split at hv
  · cases hv
  next hfault =>
    obtain ⟨cause, s', hstep, hcode, hoperand⟩ := h.exists_step
    obtain ⟨c, hvisit, -, hrun⟩ := Config.exists_of_mem_visits hv
    have hstate : v.state = c.state := congrArg Visit.state hvisit
    have hip : v.ip = c.ip := congrArg Visit.ip hvisit
    rw [hstate] at hstep
    refine ⟨cause, ?_, hcode, hoperand⟩
    rw [execute_eq, hfault, hip]
    simp only [hrun _ (by rw [Config.dispatch, hstep])]
    rfl

end Runs

/-- **The faults of a run.** Take a well-formed program on any state, and a sink that takes
every line. If the run ends, it ends without an error, or by the fault of the instruction
that it dispatched last, or by that of a label out of order; the error has the code of the
fault, and its details name the instruction and the operand that it could not use.
Conversely an instruction to blame that is dispatched ends the run by its fault, and so does
a label to blame that the pass over the labels comes to. -/
theorem fault_soundness (p : Program) (hp : p.WellFormed) (w : Watch)
    (hsink : ∀ taken line, w.sink taken line = none) (s : State) (b : Nat)
    (hends : (execute w b p s).ending ≠ .exhausted) :
    ((∃ value, (execute w b p s).result = .ok value) ∨
      (∃ d v code operand, (execute w b p s).result = .error (.diagnosed d) ∧
        (visits w b p s).getLast? = some v ∧ p[v.ip]? = some v.ins ∧
        Blame v.state v.ins code operand ∧ d.Names code v.ip operand) ∨
      (∃ d i n, (execute w b p s).result = .error (.diagnosed d) ∧ LabelBlame s.table p i n ∧
        d.Names "E_LABEL_ORDER" i [("label", .number (.ofNat n))])) ∧
    (∀ v ∈ visits w b p s, ∀ code operand, Blame v.state v.ins code operand →
      ∃ d, (execute w b p s).result = .error (.diagnosed d) ∧ d.Names code v.ip operand) ∧
    (∀ i n, LabelBlame s.table p i n → ∃ d, (execute w b p s).result = .error (.diagnosed d) ∧
      d.Names "E_LABEL_ORDER" i [("label", .number (.ofNat n))]) := by
  refine ⟨?_, ?_, ?_⟩
  · cases hfault : (s.table.bindAll p).fault with
    | some f =>
        obtain ⟨n, hblame, hcause⟩ := LabelBlame.of_fault hp hfault
        have hending : (execute w b p s).ending = .faulted ⟨f.ip, f.cause⟩ := by
          rw [execute_of_fault w b hfault]
          rfl
        obtain ⟨d, hd, hnames⟩ := Report.exists_names hending
        rw [hcause] at hnames
        exact .inr (.inr ⟨d, f.ip, n, hd, hblame, hnames⟩)
    | none =>
        have hrun : execute w b p s = (Config.start w p s).run w p.toArray b := by
          rw [execute_eq, hfault]
        have hvisits : visits w b p s = (Config.start w p s).visits w p.toArray b := by
          simp only [visits, hfault]
        -- The labels are bound, so the run ends by itself or by its last visit.
        rcases Config.exists_last_visit w p.toArray b (Config.start w p s) with
          hexhausted | ⟨c, hfinish⟩ | ⟨c, ins, hlast, hins, hd⟩
        · exact absurd (hrun ▸ hexhausted) hends
        · rw [hrun, hfinish]
          exact .inl ⟨_, rfl⟩
        · rw [List.getElem?_toArray] at hins
          rw [← hvisits] at hlast
          rw [← hrun] at hd
          have hwell : ins.WellFormed := hp ins (List.mem_of_getElem? hins)
          rcases Config.blame_of_dispatch_inr hwell hsink hd with hunder | ⟨cause, hcause, hblame⟩
          · rw [Report.result, hunder]
            exact .inl ⟨none, rfl⟩
          · obtain ⟨d, hresult, hnames⟩ := Report.exists_names hcause
            exact .inr (.inl ⟨d, c.visit ins, _, _, hresult, hlast, hins, hblame, hnames⟩)
  · intro v hv code operand hblame
    obtain ⟨cause, hending, rfl, rfl⟩ := hblame.exists_fault hv
    exact Report.exists_names hending
  · intro i n hblame
    have hending : (execute w b p s).ending =
        .faulted ⟨i, .labelOrder (.ofNat n) (s.table.bindAll (p.take i)).table.size⟩ := by
      rw [execute_of_fault w b hblame.fault_eq]
      rfl
    exact Report.exists_names hending

/-- A branch through a label above a table that an earlier program left. -/
theorem fault_soundness_branch :
    let p : Program := [.lit 1, .lit 7, .bare .cjmp]
    let w : Watch := ⟨true, Sink.takeAll⟩
    let s : State := ⟨[], .empty, ⟨#[0, 4]⟩⟩
    p.WellFormed ∧ (execute w 9 p s).ending ≠ .exhausted ∧
      ∃ d, (execute w 9 p s).result = .error (.diagnosed d) ∧
        d.Names "E_LABEL_UNDEFINED" 2 [("label", .text "7")] := by
  intro p w s
  have hp : p.WellFormed := by decide
  have hends : (execute w 9 p s).ending ≠ .exhausted := by decide
  have hvisit : (⟨2, .bare .cjmp, ⟨[7, 1], .empty, ⟨#[0, 4]⟩⟩⟩ : Visit) ∈ visits w 9 p s :=
    List.mem_of_getLast? rfl
  have hblame : Blame ⟨[7, 1], .empty, ⟨#[0, 4]⟩⟩ (.bare .cjmp) "E_LABEL_UNDEFINED"
      [("label", .text "7")] := @Blame.branch _ 7 1 [] rfl (by decide) (by decide)
  exact ⟨hp, hends, (fault_soundness p hp w (fun _ _ => rfl) s 9 hends).2.1 _ hvisit _ _ hblame⟩

end StackMachine
