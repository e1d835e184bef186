import StackMachine.Proofs.History
import StackMachine.Proofs.Steps
import StackMachine.Proofs.WellFormed

/-!
# Sixty-four bits everywhere

Arithmetic is the only place where a value is reduced to a word. Everything else moves
values around: between the stack and the memory, from one program to the next, and to the
sink. This module shows that nothing out of range can get in, so that every value that a
machine ever holds, prints or returns is a word, as long as the literals of its programs
are.

## Main results

* `State.inRange_step`: an instruction keeps a state in range.
* `Passes.inRange` and `inRange_execute`: so does a program, at each of its steps and in
  what it reports.
* `values_inRange`: **the invariant**, over all histories of a machine, and for every
  program that the compiler or the bytecode reader returns.
-/

namespace StackMachine

/-! ### States -/

/-- The literals of a program are words. -/
def Program.LiteralsInRange (p : Program) : Prop := ∀ v, Instr.lit v ∈ p → Word.InRange v

/-- The literals of a well-formed program are in range. -/
theorem Program.WellFormed.literalsInRange {p : Program} (h : p.WellFormed) :
    p.LiteralsInRange := fun v hv => h (.lit v) hv

/-- Both truth values are in range. -/
theorem inRange_truth (b : Bool) : Word.InRange (truth b) := by
  cases b <;> decide

namespace Memory

/-- The values in the memory are those of its cells. -/
theorem mem_toList_iff {m : Memory} {v : Int} : v ∈ m.toList ↔ ∃ addr, m.cell? addr = some v := by
  constructor
  · intro h
    obtain ⟨i, hi⟩ := List.mem_iff_getElem?.1 h
    refine ⟨i, ?_⟩
    rw [cell?, if_neg (by omega), Int.toNat_natCast, ← Array.getElem?_toList]
    exact hi
  · rintro ⟨addr, haddr⟩
    rw [cell?] at haddr
    split at haddr
    · cases haddr
    · rw [← Array.getElem?_toList] at haddr
      exact List.mem_iff_getElem?.2 ⟨addr.toNat, haddr⟩

/-- What is loaded is in the memory. -/
theorem mem_of_load {m : Memory} {addr v : Int} (h : m.load addr = .ok v) : v ∈ m.toList := by
  rw [load] at h
  split at h
  next v' hcell => exact mem_toList_iff.2 ⟨addr, Except.ok.inj h ▸ hcell⟩
  next => cases h

/-- The cells after a store are the stored value and cells from before. -/
theorem mem_of_store {m m' : Memory} {addr value v : Int} (h : m.store addr value = .ok m')
    (hv : v ∈ m'.toList) : v = value ∨ v ∈ m.toList := by
  obtain ⟨other, hother⟩ := mem_toList_iff.1 hv
  rw [cell?_of_store h] at hother
  split at hother
  · exact .inl (Option.some.inj hother).symm
  · exact .inr (mem_toList_iff.2 ⟨other, hother⟩)

end Memory

namespace State

/-- The cells of the stack and of the memory are words. -/
structure InRange (s : State) : Prop where
  stack : ∀ v ∈ s.stack, Word.InRange v
  memory : ∀ v ∈ s.memory.toList, Word.InRange v

variable {s : State} {a b v : Int} {rest : List Int}

/-- The initial state is in range: it holds no value. -/
theorem inRange_initial : initial.InRange :=
  ⟨List.forall_mem_nil _, List.forall_mem_nil _⟩

/-- Popping a value leaves values in range, itself included. -/
theorem InRange.pop (hs : s.InRange) (h : s.stack = a :: rest) :
    Word.InRange a ∧ ∀ v ∈ rest, Word.InRange v :=
  List.forall_mem_cons.1 (h ▸ hs.stack)

/-- Popping two values leaves values in range, themselves included. -/
theorem InRange.pop₂ (hs : s.InRange) (h : s.stack = a :: b :: rest) :
    Word.InRange a ∧ Word.InRange b ∧ ∀ v ∈ rest, Word.InRange v := by
  obtain ⟨ha, htail⟩ := hs.pop h
  exact ⟨ha, List.forall_mem_cons.1 htail⟩

/-- A state in range stays in range with another stack of values in range. -/
theorem InRange.withStack (hs : s.InRange) (h : ∀ v ∈ rest, Word.InRange v) :
    (s.withStack rest).InRange :=
  ⟨h, hs.memory⟩

/-- A state in range stays in range when a value in range is pushed. -/
theorem InRange.push (hs : s.InRange) (hv : Word.InRange v) (h : ∀ v ∈ rest, Word.InRange v) :
    (s.withStack (v :: rest)).InRange :=
  hs.withStack (List.forall_mem_cons.2 ⟨hv, h⟩)

/-- An operation keeps a state in range. Arithmetic reduces its result, a comparison yields
a truth value, and the rest moves words. -/
theorem InRange.perform (hs : s.InRange) (op : Opcode) : ((op.perform s).after s).InRange := by
  rw [Opcode.perform.eq_def]
  split
  case h_1 hstack | h_2 hstack | h_3 hstack =>
      obtain ⟨-, -, hrest⟩ := hs.pop₂ hstack
      exact hs.push (Word.inRange_wrap _) hrest
  -- a division
  case h_4 hstack =>
      obtain ⟨-, -, hrest⟩ := hs.pop₂ hstack
      split
      · exact hs.withStack hrest
      · exact hs.push (Word.inRange_wrap _) hrest
  -- a load, and behind it a store: what is in one of cells and memory is in the other
  case h_5 hstack =>
      obtain ⟨-, hrest⟩ := hs.pop hstack
      split
      next v hload => exact hs.push (hs.memory v (Memory.mem_of_load hload)) hrest
      next => exact hs.withStack hrest
  case h_6 hstack =>
      obtain ⟨-, hvalue, hrest⟩ := hs.pop₂ hstack
      split
      next memory hstore =>
        refine ⟨hrest, ?_⟩
        intro v hv
        rcases Memory.mem_of_store hstore hv with rfl | hold
        · exact hvalue
        · exact hs.memory v hold
      next => exact hs.withStack hrest
  -- the two jumps
  case h_7 hstack =>
      rw [after_jump]
      exact hs.withStack (hs.pop hstack).2
  case h_8 hstack =>
      obtain ⟨-, -, hrest⟩ := hs.pop₂ hstack
      split
      · exact hs.withStack hrest
      · rw [after_jump]
        exact hs.withStack hrest
  case h_9 hstack => exact hs.withStack (hs.pop hstack).2
  case h_10 hstack =>
      obtain ⟨ha, hrest⟩ := hs.pop hstack
      exact hs.push ha (List.forall_mem_cons.2 ⟨ha, hrest⟩)
  case h_11 hstack =>
      obtain ⟨ha, hb, hrest⟩ := hs.pop₂ hstack
      exact hs.push hb (List.forall_mem_cons.2 ⟨ha, hrest⟩)
  case h_12 hstack | h_13 hstack | h_14 hstack =>
      obtain ⟨-, -, hrest⟩ := hs.pop₂ hstack
      exact hs.push (inRange_truth _) hrest
  case h_15 => exact hs.withStack (List.forall_mem_nil _)

/-- **An instruction keeps a state in range**, if its literal is. -/
theorem InRange.step {ins : Instr} (hs : s.InRange) (hins : ∀ v, ins = .lit v → Word.InRange v) :
    ((StackMachine.step ins s).after s).InRange := by
  cases ins with
  | lit v => exact hs.push (hins v rfl) hs.stack
  | label n => exact hs
  | mislabel x => exact hs
  | bare op => exact hs.perform op
  | unknown name => exact hs

end State

/-! ### Runs -/

/-- The text of a printed value in an event: a line, taken or refused, or the tag of one. -/
def Event.printed? : Event → Option String
  | line text | refused text | tag (.emit _ text) => some text
  | tag _ => none

/-- The value that an event shows as printed is a word. -/
def Event.InRange (e : Event) : Prop :=
  ∀ text, e.printed? = some text → ∃ v : Int, text = toString v ∧ Word.InRange v

/-- An event that prints nothing is in range. -/
theorem Event.inRange_of_none {e : Event} (h : e.printed? = none) : e.InRange := by
  intro text htext
  rw [h] at htext
  cases htext

/-- An event that prints a value in range is in range. -/
theorem Event.inRange_of_some {e : Event} {v : Int} (hv : Word.InRange v)
    (h : e.printed? = some (toString v)) : e.InRange := by
  intro text htext
  rw [h] at htext
  exact ⟨v, (Option.some.inj htext).symm, hv⟩

/-- What a watch makes of a tag in range is in range. -/
theorem inRange_raised {t : Tag} (w : Watch) (h : (Event.tag t).InRange) :
    ∀ e ∈ w.raised t, e.InRange := by
  rw [Watch.raised]
  split
  · exact List.forall_mem_singleton.2 h
  · exact List.forall_mem_nil _

/-- The tag of a diagnostic prints nothing. -/
theorem Diagnostic.printed?_tag (d : Diagnostic) (ip : Nat) :
    (Event.tag (d.tag ip)).printed? = none := by
  rw [Diagnostic.tag]
  split <;> rfl

/-- What a run holds and has shown are words. -/
structure Config.InRange (c : Config) : Prop where
  state : c.state.InRange
  events : ∀ e ∈ c.events, e.InRange

/-- What a run leaves, returns and has shown are words. -/
structure Report.InRange (r : Report) : Prop where
  state : r.state.InRange
  value : ∀ v, r.ending = .finished (some v) → Word.InRange v
  events : ∀ e ∈ r.events, e.InRange

namespace Config

variable {w : Watch} {code : Array Instr} {ins : Instr} {c c' : Config} {r : Report}

/-- Raising a tag in range keeps a configuration in range. -/
theorem InRange.raise {t : Tag} (hc : c.InRange) (w : Watch) (h : (Event.tag t).InRange) :
    (c.raise w t).InRange := by
  rw [raise_eq]
  exact ⟨hc.state, List.forall_mem_append.2 ⟨inRange_raised w h, hc.events⟩⟩

/-- A configuration in range stops in a report in range, if the value it ends with is. -/
theorem InRange.stop {ending : Ending} (hc : c.InRange)
    (h : ∀ v, ending = .finished (some v) → Word.InRange v) : (c.stop ending).InRange :=
  ⟨hc.state, h, fun e he => hc.events e (List.mem_reverse.1 he)⟩

/-- A configuration in range finishes in a report in range. -/
theorem InRange.finish (hc : c.InRange) (w : Watch) : (c.finish w).InRange := by
  have hpopped : Config.InRange { c with state := c.state.withStack c.state.stack.tail } :=
    ⟨hc.state.withStack fun v hv => hc.state.stack v (List.mem_of_mem_tail hv), hc.events⟩
  refine (hpopped.raise w (Event.inRange_of_none rfl)).stop ?_
  intro v hv
  exact hc.state.stack v (List.mem_of_mem_head? (Ending.finished.inj hv))

/-- A configuration in range ends on a refused line in a report in range. -/
theorem InRange.refuse (hc : c.InRange) (w : Watch) (e : Error) : (c.refuse w e).InRange := by
  cases e with
  | diagnosed d =>
      have htag := Event.inRange_of_none (d.printed?_tag c.ip)
      exact (hc.raise w htag).stop nofun
  | defect d => exact hc.stop nofun

/-- **A step keeps a run in range.** -/
theorem InRange.dispatch_inl (hc : c.InRange) (hins : ∀ v, ins = .lit v → Word.InRange v)
    (hd : c.dispatch w ins = .inl c') : c'.InRange := by
  refine ⟨state_of_dispatch_inl hd ▸ hc.state.step hins, ?_⟩
  obtain ⟨s, -, rfl⟩ | ⟨v, s, hs, -, rfl⟩ | ⟨label, target, s, -, rfl⟩ := dispatch_inl_cases hd
  · exact hc.events
  · have hv : Word.InRange v := (hc.state.pop (print_of_step hs).2).1
    refine List.forall_mem_cons.2 ⟨Event.inRange_of_some hv rfl, ?_⟩
    exact List.forall_mem_append.2 ⟨inRange_raised w (Event.inRange_of_some hv rfl), hc.events⟩
  · exact List.forall_mem_append.2 ⟨inRange_raised w (Event.inRange_of_none rfl), hc.events⟩

/-- An instruction that ends a run leaves a report in range. -/
theorem InRange.dispatch_inr (hc : c.InRange) (hins : ∀ v, ins = .lit v → Word.InRange v)
    (hd : c.dispatch w ins = .inr r) : r.InRange := by
  have hstate : r.state.InRange := state_of_dispatch_inr hd ▸ hc.state.step hins
  obtain ⟨v, s, e, hs, -, rfl⟩ | ⟨s, -, rfl⟩ | ⟨cause, s, -, rfl⟩ | ⟨-, rfl⟩ :=
    dispatch_inr_cases hd
  · rw [state_refuse] at hstate
    have hv : Word.InRange v := (hc.state.pop (print_of_step hs).2).1
    refine InRange.refuse ⟨hstate, List.forall_mem_cons.2 ⟨Event.inRange_of_some hv rfl, ?_⟩⟩ w e
    exact List.forall_mem_append.2 ⟨inRange_raised w (Event.inRange_of_some hv rfl), hc.events⟩
  · have htag := inRange_raised w (t := .halt .underflow (.ofNat c.ip) none)
      (Event.inRange_of_none rfl)
    exact InRange.stop (c := ⟨c.ip, s, c.taken, _⟩)
      ⟨hstate, List.forall_mem_append.2 ⟨htag, hc.events⟩⟩ nofun
  · have htag := inRange_raised w (Event.inRange_of_none
      (Diagnostic.printed?_tag (Fault.diagnostic ⟨c.ip, cause⟩) c.ip))
    exact InRange.stop (c := ⟨c.ip, s, c.taken, _⟩)
      ⟨hstate, List.forall_mem_append.2 ⟨htag, hc.events⟩⟩ nofun
  · exact hc.stop nofun

end Config

/-! ### Programs and histories -/

section Programs

variable {w : Watch} {p : Program} {s : State} {c : Config} {ins : Instr}

/-- A literal that a run comes to is in range. -/
theorem Program.LiteralsInRange.of_getElem? {i : Nat} (hp : p.LiteralsInRange)
    (h : p.toArray[i]? = some ins) : ∀ v, ins = .lit v → Word.InRange v := by
  rintro v rfl
  rw [List.getElem?_toArray] at h
  exact hp v (List.mem_of_getElem? h)

/-- A run from a state in range starts in range. -/
theorem inRange_start (hs : s.InRange) (w : Watch) (p : Program) :
    (Config.start w p s).InRange := by
  refine ⟨⟨hs.stack, hs.memory⟩, ?_⟩
  intro e he
  rw [Config.start, List.mem_reverse] at he
  split at he
  · obtain ⟨bound, -, rfl⟩ := List.mem_map.1 he
    exact Event.inRange_of_none rfl
  · cases he

/-- A program keeps a state in range at each of its steps. -/
theorem Passes.inRange (h : Passes w p s c) (hs : s.InRange) (hp : p.LiteralsInRange) :
    c.InRange := by
  obtain ⟨-, hreach⟩ := h
  induction hreach with
  | refl => exact inRange_start hs w p
  | tail _ hstep ih =>
      obtain ⟨ins, hins, hd⟩ := hstep
      exact ih.dispatch_inl (hp.of_getElem? hins) hd

/-- A run that starts in range and ends, ends in a report in range. -/
theorem Config.Ends.inRange {r : Report} (h : c.Ends w p.toArray r) (hc : c.InRange)
    (hp : p.LiteralsInRange) : r.InRange := by
  cases h with
  | finish hend => exact hc.finish w
  | halt hins hd => exact hc.dispatch_inr (hp.of_getElem? hins) hd
  | exhaust hins => exact hc.stop nofun

/-- A program leaves a report in range, however it ends. -/
theorem inRange_execute (hs : s.InRange) (hp : p.LiteralsInRange) (w : Watch) (b : Nat) :
    (execute w b p s).InRange := by
  cases hfault : (s.table.bindAll p).fault with
  | some f =>
      rw [execute_of_fault w b hfault]
      have htag := Event.inRange_of_none (f.diagnostic.printed?_tag 0)
      exact ((inRange_start hs w p).raise w htag).stop nofun
  | none =>
      obtain ⟨c, hpass, hends⟩ := exists_passes_of_execute w b hfault
      exact hends.inRange (hpass.inRange hs hp) hp

/-- **Every state after a history of requests is in range**, if the literals of its programs are. -/
theorem State.inRange_after {history : List Request}
    (h : ∀ w b q, Request.run w b q ∈ history → Program.LiteralsInRange q) :
    (State.after history).InRange := by
  induction history with
  | nil => exact inRange_initial
  | cons request earlier ih =>
      cases request with
      | reset => exact inRange_initial
      | run w b q =>
          have hearlier := ih fun w' b' q' hq => h w' b' q' (List.mem_cons_of_mem _ hq)
          exact (inRange_execute hearlier (h w b q List.mem_cons_self) w b).state

end Programs

/-- **Every value is a word.** Take any history of a machine whose programs have words for
literals, and one more such program. The machine then holds words, the program does so at
each of its steps, and so does what it leaves, returns and prints, whichever way it ends.
Every program that the compiler or the bytecode reader returns is such a program. -/
theorem values_inRange :
    (∀ (history : List Request) (w : Watch) (p : Program),
      (∀ w b q, Request.run w b q ∈ history → Program.LiteralsInRange q) → p.LiteralsInRange →
        (State.after history).InRange ∧
        (∀ c, Passes w p (.after history) c → c.InRange) ∧
        ∀ b, (execute w b p (.after history)).InRange) ∧
    (∀ source p, Source.compile source = .ok p → p.LiteralsInRange) ∧
    (∀ text contents, Bytecode.read text = .ok contents → contents.program.LiteralsInRange) := by
  refine ⟨?_, ?_, ?_⟩
  · intro history w p hhistory hp
    have hs : (State.after history).InRange := State.inRange_after hhistory
    exact ⟨hs, fun c h => h.inRange hs hp, inRange_execute hs hp w⟩
  · intro source p h
    exact (Source.wellFormed_of_compile h).literalsInRange
  · intro text contents h
    exact (Bytecode.wellFormed_of_read h).literalsInRange

/-- The one quotient that leaves the range is reduced, stored and printed by the next
program. -/
theorem values_inRange_quotient :
    let w : Watch := ⟨true, Sink.takeAll⟩
    let dividing : List Request :=
      [.run w 9 [.lit (-1), .lit Word.least, .bare .div, .lit 0, .bare .store]]
    let p : Program := [.lit 0, .bare .load, .bare .dup, .bare .put]
    (State.after dividing).memory.toList = [Word.least] ∧
      (execute w 9 p (.after dividing)).ending = .finished (some Word.least) ∧
      (execute w 9 p (.after dividing)).InRange := by
  intro w dividing p
  refine ⟨rfl, rfl, ((values_inRange.1 dividing w p ?_ ?_).2.2 9)⟩
  · intro w' b q hq
    obtain ⟨rfl, rfl, rfl⟩ := Request.run.inj (List.mem_singleton.1 hq)
    exact Program.WellFormed.literalsInRange (by decide)
  · exact Program.WellFormed.literalsInRange (by decide)

end StackMachine
