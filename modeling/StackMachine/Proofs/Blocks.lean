import Mathlib.Data.List.Infix
import StackMachine.Proofs.Agreement
import StackMachine.Proofs.Residue
import StackMachine.Proofs.Stops

/-!
# Blocks of code

A program that is known in parts is followed part by part. A *block* is a part in which one
instruction is dispatched after the other. What it does to a state can be computed without the
program around it, `Program.advance`, and it does the same wherever it stands. Between blocks
there are branches, and what blocks and branches do is put together along `Leads`, which counts
the steps, so that a loop has a known budget.

Nothing here looks at a trace: the lines that were printed are told from what the sink has taken.

## Main definitions

* `Program.HasAt`: a block stands in a program at an index.
* `Program.advance`: the state that a block leads to, and what it prints.
* `Leads`: a program comes from one index and state to another.

## Main results

* `Leads.block`, `Leads.branch` and `Leads.pass`: how far a block and a branch lead.
* `Leads.interpret_finished` and `Leads.interpret_faulted`: what interpretation returns of a source
  whose program is known to come to its end, or to a fault.
-/

namespace StackMachine

/-! ### Blocks -/

namespace Program

/-- A block of instructions stands in a program at an index. -/
def HasAt (p : Program) (i : Nat) (block : Program) : Prop := block <+: p.drop i

/-- A program that has instructions at an index has the first one there and the others behind it. -/
theorem HasAt.cons {p : Program} {i : Nat} {ins : Instr} {rest : Program}
    (h : p.HasAt i (ins :: rest)) : p[i]? = some ins ∧ p.HasAt (i + 1) rest := by
  obtain ⟨more, hdrop, hrest⟩ := List.cons_prefix_iff.1 h
  refine ⟨?_, ?_⟩
  · rw [← List.head?_drop, hdrop]
    rfl
  · rwa [HasAt, ← List.tail_drop, hdrop]

/-- The state that a block leads to and the values that it prints, if each of its instructions
goes on to the next one. -/
def advance : Program → State → Option (State × List Int)
  | [], s => some (s, [])
  | ins :: rest, s =>
    match step ins s with
    | .next t => advance rest t
    | .print v t => (advance rest t).map fun (u, vs) => (u, v :: vs)
    | _ => none

/-- A block after a block. -/
theorem advance_append {p q : Program} {s t u : State} {vs vs' : List Int}
    (hp : p.advance s = some (t, vs)) (hq : q.advance t = some (u, vs')) :
    Program.advance (p ++ q) s = some (u, vs ++ vs') := by
  induction p generalizing s vs with
  | nil =>
      obtain ⟨rfl, rfl⟩ := Prod.mk.inj (Option.some.inj hp)
      exact hq
  | cons ins rest ih =>
      rw [List.cons_append]
      cases hstep : step ins s with
      | next s' =>
          simp only [advance, hstep] at hp ⊢
          exact ih hp
      | print v s' =>
          simp only [advance, hstep] at hp ⊢
          obtain ⟨⟨t', ws⟩, hrest, heq⟩ := Option.map_eq_some_iff.1 hp
          obtain ⟨rfl, rfl⟩ := Prod.mk.inj heq
          rw [ih hrest]
          rfl
      | _ =>
          simp only [advance, hstep] at hp
          cases hp

end Program

/-! ### From one index to another -/

/-- A program comes in `n` steps from index `i` in state `s` to index `j` in state `t`, and prints
the values `vs` on the way. -/
def Leads (w : Watch) (p : Program) (n i : Nat) (s : State) (vs : List Int) (j : Nat)
    (t : State) : Prop :=
  ∀ c : Config, c.ip = i → c.state = s → ∃ d, Config.StepsIn w p.toArray n c d ∧ d.ip = j ∧
    d.state = t ∧ d.taken = (vs.map toString).reverse ++ c.taken

/-- Steps after steps. -/
theorem Config.StepsIn.trans {w : Watch} {code : Array Instr} {n m : Nat} {c d e : Config}
    (h : StepsIn w code n c d) (h' : StepsIn w code m d e) : StepsIn w code (m + n) c e := by
  induction n generalizing c with
  | zero =>
      obtain rfl : c = d := h
      exact h'
  | succ n ih =>
      obtain ⟨next, hstep, hrest⟩ := h
      exact ⟨next, hstep, ih hrest⟩

namespace Leads

variable {w : Watch} {p : Program} {n m i j k : Nat} {s t u : State} {vs us : List Int}
  {ins : Instr}

/-- Taking no step leads nowhere else. -/
theorem refl (w : Watch) (p : Program) (i : Nat) (s : State) : Leads w p 0 i s [] i s := by
  intro c hip hstate
  exact ⟨c, rfl, hip, hstate, rfl⟩

/-- Where steps lead, further steps lead on, and what is printed adds up. -/
theorem trans (h : Leads w p n i s vs j t) (h' : Leads w p m j t us k u) :
    Leads w p (m + n) i s (vs ++ us) k u := by
  intro c hip hstate
  obtain ⟨d, hsteps, hdip, hdstate, hdtaken⟩ := h c hip hstate
  obtain ⟨e, hsteps', heip, hestate, hetaken⟩ := h' d hdip hdstate
  refine ⟨e, hsteps.trans hsteps', heip, hestate, ?_⟩
  rw [hetaken, hdtaken, List.map_append, List.reverse_append, List.append_assoc]

/-- One instruction that goes on to the next one. -/
theorem next (hins : p[i]? = some ins) (hstep : step ins s = .next t) :
    Leads w p 1 i s [] (i + 1) t := by
  rintro c rfl rfl
  have hcode : p.toArray[c.ip]? = some ins := by rwa [List.getElem?_toArray]
  exact ⟨_, ⟨_, ⟨ins, hcode, Config.dispatch_of_next hstep⟩, rfl⟩, rfl, rfl, rfl⟩

/-- One instruction that prints a value. -/
theorem print {v : Int} (hsink : ∀ taken line, w.sink taken line = none)
    (hins : p[i]? = some ins) (hstep : step ins s = .print v t) :
    Leads w p 1 i s [v] (i + 1) t := by
  rintro c rfl rfl
  have hcode : p.toArray[c.ip]? = some ins := by rwa [List.getElem?_toArray]
  exact ⟨_, ⟨_, ⟨ins, hcode, Config.dispatch_of_print hstep (hsink _ _)⟩, rfl⟩, rfl, rfl, rfl⟩

/-- **A block leads to its end.** -/
theorem block {b : Program} (hsink : ∀ taken line, w.sink taken line = none) (hb : p.HasAt i b)
    (h : b.advance s = some (t, vs)) : Leads w p b.length i s vs (i + b.length) t := by
  induction b generalizing i s vs with
  | nil =>
      obtain ⟨rfl, rfl⟩ := Prod.mk.inj (Option.some.inj h)
      exact refl w p i s
  | cons ins rest ih =>
      obtain ⟨hins, hrest⟩ := hb.cons
      have hindex : i + (rest.length + 1) = i + 1 + rest.length := by omega
      rw [List.length_cons, hindex]
      cases hstep : step ins s with
      | next s' =>
          simp only [Program.advance, hstep] at h
          exact (next hins hstep).trans (ih hrest h)
      | print v s' =>
          simp only [Program.advance, hstep] at h
          obtain ⟨⟨t', ws⟩, hws, heq⟩ := Option.map_eq_some_iff.1 h
          obtain ⟨rfl, rfl⟩ := Prod.mk.inj heq
          exact (print hsink hins hstep).trans (ih hrest hws)
      | _ =>
          simp only [Program.advance, hstep] at h
          cases h

section Branch

variable {id cond : Int} {rest : List Int}

/-- A branch whose condition is not zero leads to its label. -/
theorem branch (hins : p[i]? = some (.bare .cjmp)) (hstack : s.stack = id :: cond :: rest)
    (hcond : cond ≠ 0) (htarget : s.table.target? id = some j) :
    Leads w p 1 i s [] j (s.withStack rest) := by
  have hstep : step (.bare .cjmp) s = .jump id.toNat j (s.withStack rest) := by
    have htable : (s.withStack rest).table.target? id = some j := htarget
    simp only [step, Opcode.perform, hstack, if_neg hcond, State.jump, htable]
  rintro c rfl rfl
  have hcode : p.toArray[c.ip]? = some (.bare .cjmp) := by rwa [List.getElem?_toArray]
  exact ⟨_, ⟨_, ⟨.bare .cjmp, hcode, Config.dispatch_of_jump hstep⟩, rfl⟩, rfl, rfl, rfl⟩

/-- A branch whose condition is zero leads on. -/
theorem pass (hins : p[i]? = some (.bare .cjmp)) (hstack : s.stack = id :: 0 :: rest) :
    Leads w p 1 i s [] (i + 1) (s.withStack rest) := by
  refine next hins ?_
  simp only [step, Opcode.perform, hstack, if_true]

end Branch

/-! ### Whole programs -/

/-- A program whose labels are bound and that comes to an index goes on from there. -/
theorem exists_execute_eq (h : Leads w p n 0 { s with table := (s.table.bindAll p).table } vs j t)
    (hbinds : (s.table.bindAll p).fault = none) :
    ∃ d : Config, d.ip = j ∧ d.state = t ∧
      (d.events.filterMap Event.line?).reverse = vs.map toString ∧
      ∀ b, execute w (b + n) p s = d.run w p.toArray b := by
  obtain ⟨d, hsteps, hip, hstate, htaken⟩ := h (Config.start w p s) rfl rfl
  refine ⟨d, hip, hstate, ?_, ?_⟩
  · rw [hsteps.reaches.lines_eq (Config.lines_start w p s), htaken]
    simp [Config.start]
  · intro b
    rw [execute_eq, hbinds]
    exact hsteps.run_eq b

/-- A program that comes behind its last instruction finishes. -/
theorem execute_finished (h : Leads w p n 0 { s with table := (s.table.bindAll p).table } vs j t)
    (hbinds : (s.table.bindAll p).fault = none) (hend : p[j]? = none) {b : Nat} (hb : n ≤ b) :
    (execute w b p s).ending = .finished t.stack.head? ∧
      (execute w b p s).lines = vs.map toString := by
  obtain ⟨d, rfl, rfl, hlines, hrun⟩ := h.exists_execute_eq hbinds
  obtain ⟨b, rfl⟩ := Nat.exists_eq_add_of_le' hb
  rw [hrun, Config.run_of_none (by rwa [List.getElem?_toArray])]
  refine ⟨rfl, ?_⟩
  rw [Config.lines_finish, List.filterMap_reverse, hlines]

/-- A program that comes to an instruction that faults is stopped there. -/
theorem execute_faulted {cause : Cause}
    (h : Leads w p n 0 { s with table := (s.table.bindAll p).table } vs j t)
    (hbinds : (s.table.bindAll p).fault = none) (hins : p[j]? = some ins)
    (hstep : step ins t = .fault cause u) {b : Nat} (hb : n < b) :
    (execute w b p s).ending = .faulted ⟨j, cause⟩ := by
  obtain ⟨d, rfl, rfl, -, hrun⟩ := h.exists_execute_eq hbinds
  obtain ⟨b, rfl⟩ := Nat.exists_eq_add_of_le' hb
  have hcode : p.toArray[d.ip]? = some ins := by rwa [List.getElem?_toArray]
  have hbudget : b + (n + 1) = b + 1 + n := by omega
  rw [hbudget, hrun, Config.run_of_inr hcode (Config.dispatch_of_fault hstep)]

section Interpret

variable {source : String} {b : Nat}

/-- **What interpretation returns** of a source whose program comes to its end. -/
theorem interpret_finished (hsource : Source.compile source = .ok p)
    (hbinds : (JumpTable.empty.bindAll p).fault = none)
    (h : Leads ⟨false, Sink.takeAll⟩ p n 0 ⟨[], .empty, (JumpTable.empty.bindAll p).table⟩ vs j t)
    (hend : p[j]? = none) (hb : n ≤ b) (session : Session) (trace : Option Bool) :
    (session.interpret b source trace).1 = .ok (.ok ⟨t.stack.head?, vs.map toString⟩) := by
  obtain ⟨hending, hlines⟩ := execute_finished (s := .initial) h hbinds hend hb
  rw [Session.interpret_eq hsource, ← lines_execute false, hlines, Report.result, hending]
  rfl

/-- What interpretation returns of a source whose program comes to a fault. -/
theorem interpret_faulted {cause : Cause} (hsource : Source.compile source = .ok p)
    (hbinds : (JumpTable.empty.bindAll p).fault = none)
    (h : Leads ⟨false, Sink.takeAll⟩ p n 0 ⟨[], .empty, (JumpTable.empty.bindAll p).table⟩ vs j t)
    (hins : p[j]? = some ins) (hstep : step ins t = .fault cause u) (hb : n < b)
    (session : Session) (trace : Option Bool) :
    (session.interpret b source trace).1 = .ok (.error (Fault.diagnostic ⟨j, cause⟩)) := by
  have hending := execute_faulted (s := .initial) h hbinds hins hstep hb
  rw [Session.interpret_eq hsource, Report.result, hending]
  rfl

end Interpret

end Leads

end StackMachine
