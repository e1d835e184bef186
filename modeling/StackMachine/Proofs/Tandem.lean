import Mathlib.Data.List.Forall2
import StackMachine.Proofs.Visits

/-!
# Two runs in tandem

Some changes to a program or to the state of its machine do not show in what the program
does. The laws that say so compare two runs, of which the second keeps up with the first:
whenever the first takes a step, the second takes one or more, and both stay matched. This
module holds what these laws have in common.

A match consists of a function on positions, along which the second program may have its
instructions elsewhere, and of a function on states. Both runs hand the same lines to the
sink, and their tags differ in nothing but the positions.

The second run need not follow the first one everywhere. A law names the endings of the
first run that it leaves out, and these are the only ones where the two may part.

## Main definitions

* `Config.Matches` and `Report.Matches`: matched runs, under way and ended.
* `State.recast`: a state with other cells below its stack and another table.
* `KeepsUp`: what a law has to show of single instructions.
* `Together`: how two runs that stay matched end.

## Main results

* `step_recast`: an instruction does the same on a recast state.
* `Config.Matches.dispatch_inl` and `Config.Matches.dispatch_inr`: what a dispatch makes of it.
* `KeepsUp.exists_execute`: **if one program keeps up with another instruction by
  instruction, it does so for whole runs.**
-/

namespace StackMachine

/-! ### Moved positions -/

/-- The same tag, with the positions of the run moved. An index that the details of an error
of the sink name is not one of the run, and stays. -/
inductive Tag.Moved (g : Nat → Nat) : Tag → Tag → Prop where
  | bind (label : Number) (i : Nat) :
      Tag.Moved g (.bind label (.ofNat i)) (.bind label (.ofNat (g i)))
  | jump (i j : Nat) (label : Number) :
      Tag.Moved g (.jump (.ofNat i) (.ofNat j) label) (.jump (.ofNat (g i)) (.ofNat (g j)) label)
  | emit (i : Nat) (text : String) : Tag.Moved g (.emit (.ofNat i) text) (.emit (.ofNat (g i)) text)
  | halt (reason : Halt) (i : Nat) (value : Option String) :
      Tag.Moved g (.halt reason (.ofNat i) value) (.halt reason (.ofNat (g i)) value)
  | fault (code : Code) (i : Nat) :
      Tag.Moved g (.fault code (.ofNat i)) (.fault code (.ofNat (g i)))
  | named (code : Code) (n : Number) : Tag.Moved g (.fault code n) (.fault code n)

/-- The same event, with the positions of the run moved. -/
inductive Event.Moved (g : Nat → Nat) : Event → Event → Prop where
  | tag {t t' : Tag} (h : t.Moved g t') : Event.Moved g (.tag t) (.tag t')
  | line (text : String) : Event.Moved g (.line text) (.line text)
  | refused (text : String) : Event.Moved g (.refused text) (.refused text)

/-- The same ending, with the index of a fault moved. -/
def Ending.moved (g : Nat → Nat) : Ending → Ending
  | faulted f => faulted ⟨g f.ip, f.cause⟩
  | e => e

/-- An ending with its index moved nowhere is the same. -/
theorem Ending.moved_id (e : Ending) : e.moved id = e := by
  cases e <;> rfl

/-- Moving positions neither makes nor unmakes a spent budget. -/
theorem Ending.moved_eq_exhausted_iff {g : Nat → Nat} {e : Ending} :
    e.moved g = .exhausted ↔ e = .exhausted := by
  cases e <;> simp [moved]

section Moved

variable {g : Nat → Nat} {w : Watch} {es es' : List Event}

/-- The tag of a diagnostic moves with the index that it is raised at. -/
theorem Diagnostic.moved_tag (d : Diagnostic) (i : Nat) : (d.tag i).Moved g (d.tag (g i)) := by
  unfold tag
  split
  · exact .named _ _
  · exact .fault _ _

/-- A fault names its own index. -/
theorem Fault.moved_tag (f : Fault) (i j : Nat) :
    (f.diagnostic.tag i).Moved g ((Fault.diagnostic ⟨g f.ip, f.cause⟩).tag j) :=
  .fault f.cause.code f.ip

/-- Raising tags that correspond keeps events in correspondence. -/
theorem Event.moved_raised {t t' : Tag} (ht : t.Moved g t') (h : es.Forall₂ (Event.Moved g) es') :
    (w.raised t ++ es).Forall₂ (Event.Moved g) (w.raised t' ++ es') := by
  unfold Watch.raised
  split
  · exact .cons (.tag ht) h
  · exact h

/-- Events that are moved nowhere are the same. -/
theorem Event.eq_of_moved (h : es.Forall₂ (Event.Moved id) es') : es' = es := by
  have heq : ∀ e e', Event.Moved id e e' → e = e' := by
    rintro _ _ (⟨ht⟩ | _ | _)
    · cases ht <;> rfl
    · rfl
    · rfl
  have hsame : es.Forall₂ (· = ·) es' := h.imp heq
  rw [List.forall₂_eq_eq_eq] at hsame
  exact hsame.symm

/-- Moving positions changes no line. -/
theorem Event.filterMap_line?_of_moved (h : es.Forall₂ (Event.Moved g) es') :
    es'.filterMap Event.line? = es.filterMap Event.line? := by
  induction h with
  | nil => rfl
  | cons he _ ih => cases he <;> simp [List.filterMap_cons, Event.line?, ih]

end Moved

/-! ### Instructions on recast states -/

/-- The action with its target and its state changed. -/
def Action.map (g : Nat → Nat) (f : State → State) : Action → Action
  | next s => next (f s)
  | print v s => print v (f s)
  | jump label target s => jump label (g target) (f s)
  | underflow s => underflow (f s)
  | fault cause s => fault cause (f s)
  | unknown => unknown

/-- The state with further cells below its stack, and with another table. -/
def State.recast (base : List Int) (τ : JumpTable → JumpTable) (s : State) : State :=
  ⟨s.stack ++ base, s.memory, τ s.table⟩

section Recast

variable {g : Nat → Nat} {base : List Int} {τ : JumpTable → JumpTable} {s : State} {ins : Instr}

/-- A jump that misses its label does not find it in the table. -/
theorem target?_of_undefined {id : Int} {t : State}
    (h : step ins s = .fault (.labelUndefined id) t) : s.table.target? id = none := by
  cases effect_of_step h with
  | undefined _ _ htarget => exact htarget

/-- A jump of the recast state is the jump of the state, recast, if the two tables agree on its
label. -/
theorem State.jump_recast {id : Int}
    (hbound : ∀ i, s.table.target? id = some i → (τ s.table).target? id = some (g i))
    (hfree : s.table.target? id = none → (τ s.table).target? id = none) :
    (s.recast base τ).jump id = (s.jump id).map g (State.recast base τ) := by
  have htable : (s.recast base τ).table = τ s.table := rfl
  rw [jump, jump, htable]
  rcases htarget : s.table.target? id with _ | i
  · rw [hfree htarget]
    rfl
  · rw [hbound i htarget]
    rfl

/-- An instruction that finds too few operands takes those it finds. -/
theorem Opcode.perform_of_few {op : Opcode} (h : s.stack.length < op.arity) :
    op.perform s = .underflow (s.withStack []) := by
  rcases hstack : s.stack with _ | ⟨a, _ | ⟨b, rest⟩⟩
  · cases op <;> simp only [perform, hstack]
  · cases op <;> simp_all [arity, perform]
  · have htwo : op.arity ≤ 2 := by cases op <;> decide
    simp only [hstack, List.length_cons] at h
    omega

/-- An instruction acts on the recast state as on the state, if the tables agree on the labels that
it asks for and it finds its operands. -/
theorem Opcode.perform_recast {op : Opcode}
    (hbound : ∀ id i, s.table.target? id = some i → (τ s.table).target? id = some (g i))
    (hunder : base = [] ∨ ∀ t, op.perform s ≠ .underflow t)
    (hfree : ∀ id t, op.perform s = .fault (.labelUndefined id) t →
      (τ s.table).target? id = none) :
    op.perform (s.recast base τ) = (op.perform s).map g (State.recast base τ) := by
  have hjump : ∀ id rest, op.perform s = (s.withStack rest).jump id →
      ((s.withStack rest).recast base τ).jump id =
        ((s.withStack rest).jump id).map g (State.recast base τ) := by
    intro id rest hperform
    refine State.jump_recast (hbound id) ?_
    intro hnone
    have hundefined :
        (s.withStack rest).jump id = .fault (.labelUndefined id) (s.withStack rest) := by
      rw [State.jump, hnone]
    exact hfree id _ (hperform.trans hundefined)
  have heffect := op.effect_perform s
  revert heffect
  rw [Opcode.perform.eq_def op s]
  split <;> intro heffect
  case h_4 a b rest hstack =>
      simp only [perform, State.recast, hstack, List.cons_append]
      split <;> rfl
  case h_5 addr rest hstack =>
      simp only [perform, State.recast, hstack, List.cons_append]
      cases s.memory.load addr <;> rfl
  case h_6 addr value rest hstack =>
      simp only [perform, State.recast, hstack, List.cons_append]
      cases s.memory.store addr value <;> rfl
  -- The two jumps look a label up in the other table; all else only moves cells.
  case h_7 id rest hstack =>
      simp only [perform, hstack, State.recast, List.cons_append] at hjump ⊢
      exact hjump id rest rfl
  case h_8 id cond rest hstack =>
      simp only [perform, hstack, State.recast, List.cons_append] at hjump ⊢
      split
      next => rfl
      next hcond => exact hjump id rest (if_neg hcond)
  -- Too few cells are too few only if there are none below.
  case h_15 =>
      cases heffect with
      | underflow hins hfew =>
          obtain rfl := Instr.bare.inj hins
          rcases hunder with rfl | hunder
          · have hlength : (s.recast [] τ).stack.length = s.stack.length := by
              rw [State.recast, List.append_nil]
            rw [perform_of_few (hlength ▸ hfew)]
            rfl
          · exact absurd (perform_of_few hfew) (hunder _)
  all_goals
    rename_i hstack
    simp only [perform, State.recast, hstack, List.cons_append]
    rfl

/-- **An instruction does the same on a recast state**, if the table is changed along with the
positions. Cells below the stack show in an underflow only, and other labels show only where a
label is undefined. -/
theorem step_recast
    (hbound : ∀ id i, s.table.target? id = some i → (τ s.table).target? id = some (g i))
    (hunder : base = [] ∨ ∀ t, step ins s ≠ .underflow t)
    (hfree : ∀ id t, step ins s = .fault (.labelUndefined id) t → (τ s.table).target? id = none) :
    step ins (s.recast base τ) = (step ins s).map g (State.recast base τ) := by
  cases ins with
  | bare op => exact Opcode.perform_recast hbound hunder hfree
  | lit v => rfl
  | label n => rfl
  | mislabel x => rfl
  | unknown name => rfl

end Recast

/-! ### The dispatch of an action -/

namespace Config

variable {w : Watch} {ins : Instr} {c : Config} {s : State}

/-- A step that only changes the state goes on at the next index. -/
theorem dispatch_of_next (h : step ins c.state = .next s) :
    c.dispatch w ins = .inl { c with ip := c.ip + 1, state := s } := by
  rw [dispatch, h]

/-- A line that the sink takes is reported, handed over, and the run goes on. -/
theorem dispatch_of_print {v : Int} (h : step ins c.state = .print v s)
    (hsink : w.sink c.taken (toString v) = none) :
    c.dispatch w ins = .inl ⟨c.ip + 1, s, toString v :: c.taken,
      .line (toString v) :: (w.raised (.emit (.ofNat c.ip) (toString v)) ++ c.events)⟩ := by
  simp only [dispatch, h, print, raise_eq, hsink]

/-- A jump is reported, and the run goes on at its target. -/
theorem dispatch_of_jump {label target : Nat} (h : step ins c.state = .jump label target s) :
    c.dispatch w ins = .inl ⟨target, s, c.taken,
      w.raised (.jump (.ofNat c.ip) (.ofNat target) (.ofNat label)) ++ c.events⟩ := by
  simp only [dispatch, h, raise_eq]

/-- A line that the sink refuses is reported, handed over, and ends the run. -/
theorem dispatch_of_refused {v : Int} {e : Error} (h : step ins c.state = .print v s)
    (hsink : w.sink c.taken (toString v) = some e) :
    c.dispatch w ins = .inr (refuse w e ⟨c.ip, s, c.taken,
      .refused (toString v) :: (w.raised (.emit (.ofNat c.ip) (toString v)) ++ c.events)⟩) := by
  simp only [dispatch, h, print, raise_eq, hsink]

/-- A step that finds too few operands ends the run, which reports it at its index. -/
theorem dispatch_of_underflow (h : step ins c.state = .underflow s) :
    c.dispatch w ins = .inr ⟨.underflow, s,
      (w.raised (.halt .underflow (.ofNat c.ip) none) ++ c.events).reverse⟩ := by
  simp only [dispatch, h, raise_eq, stop]

/-- A fault ends the run, which reports it at its index. -/
theorem dispatch_of_fault {cause : Cause} (h : step ins c.state = .fault cause s) :
    c.dispatch w ins = .inr ⟨.faulted ⟨c.ip, cause⟩, s,
      (w.raised (Diagnostic.tag (Fault.diagnostic ⟨c.ip, cause⟩) c.ip) ++
        c.events).reverse⟩ := by
  simp only [dispatch, h, raise_eq, stop]

/-- An instruction that is not known ends the run without a tag. -/
theorem dispatch_of_unknown (h : step ins c.state = .unknown) :
    c.dispatch w ins = .inr (c.stop .unknownOpcode) := by
  rw [dispatch, h]

end Config

/-! ### Matched runs -/

/-- Two runs under way match: the second stands where the first does, along `g`, in the state
that `f` makes of the state of the first, and both have handed over the same. -/
structure Config.Matches (g : Nat → Nat) (f : State → State) (c c' : Config) : Prop where
  ip : c'.ip = g c.ip
  state : c'.state = f c.state
  taken : c'.taken = c.taken
  events : c.events.Forall₂ (Event.Moved g) c'.events

/-- Two runs have ended in the same way, up to the match. -/
structure Report.Matches (g : Nat → Nat) (f : State → State) (r r' : Report) : Prop where
  ending : r'.ending = r.ending.moved g
  state : r'.state = f r.state
  events : r.events.Forall₂ (Event.Moved g) r'.events

/-- Reports that match tell of the same lines. -/
theorem Report.Matches.lines_eq {g : Nat → Nat} {f : State → State} {r r' : Report}
    (h : r.Matches g f r') : r'.lines = r.lines :=
  Event.filterMap_line?_of_moved h.events

namespace Config.Matches

variable {g : Nat → Nat} {f : State → State} {w : Watch} {ins : Instr} {c c' d : Config}
  {r : Report}

/-- A match along no move leaves everything but the state. -/
theorem eq_of_id (h : c.Matches id f c') : c' = { c with state := f c.state } := by
  obtain ⟨ip, state, taken, events⟩ := c'
  obtain ⟨rfl, rfl, rfl, hevents⟩ := h
  obtain rfl := Event.eq_of_moved hevents
  rfl

/-- Raising tags that correspond keeps configurations matched. -/
theorem raise {t t' : Tag} (h : c.Matches g f c') (ht : t.Moved g t') :
    (c.raise w t).Matches g f (c'.raise w t') := by
  rw [raise_eq, raise_eq]
  exact ⟨h.ip, h.state, h.taken, Event.moved_raised ht h.events⟩

/-- Configurations that match stop in reports that match. -/
theorem stop {e e' : Ending} (h : c.Matches g f c') (he : e' = e.moved g) :
    (c.stop e).Matches g f (c'.stop e') :=
  ⟨he, h.state, List.forall₂_reverse_iff.2 h.events⟩

/-- Configurations that match end on a refused line in reports that match. -/
theorem refuse (h : c.Matches g f c') (e : Error) :
    (c.refuse w e).Matches g f (c'.refuse w e) := by
  cases e with
  | diagnosed d =>
      have htag : (d.tag c.ip).Moved g (d.tag c'.ip) := h.ip ▸ d.moved_tag c.ip
      exact (h.raise htag).stop rfl
  | defect d => exact h.stop rfl

/-- A recast state without further cells below its stack ends a program alike. -/
theorem finish {τ : JumpTable → JumpTable} (h : c.Matches g (State.recast [] τ) c') :
    (c.finish w).Matches g (State.recast [] τ) (c'.finish w) := by
  have hstack : c'.state.stack = c.state.stack := by rw [h.state, State.recast, List.append_nil]
  simp only [Config.finish, hstack]
  refine Matches.stop (Matches.raise ⟨h.ip, ?_, h.taken, h.events⟩ ?_) rfl
  · simp only [h.state, State.recast, State.withStack, List.append_nil]
  · rw [h.ip]
    exact .halt _ _ _

/-- A dispatch after which the run goes on keeps the match, if the next positions are next to
each other. -/
theorem dispatch_inl (h : c.Matches g f c')
    (hstep : step ins (f c.state) = (step ins c.state).map g f)
    (hnext : g (c.ip + 1) = g c.ip + 1) (hd : c.dispatch w ins = .inl d) :
    ∃ d', c'.dispatch w ins = .inl d' ∧ d.Matches g f d' := by
  rw [← h.state] at hstep
  rcases dispatch_inl_cases hd with ⟨s, hs, rfl⟩ | ⟨v, s, hs, hsink, rfl⟩ |
    ⟨label, target, s, hs, rfl⟩
  · rw [hs] at hstep
    refine ⟨_, dispatch_of_next hstep, ?_, rfl, h.taken, h.events⟩
    simp only [h.ip, hnext]
  · rw [hs] at hstep
    rw [← h.taken] at hsink
    refine ⟨_, dispatch_of_print hstep hsink, ?_, rfl, ?_, ?_⟩
    · simp only [h.ip, hnext]
    · simp only [h.taken]
    · rw [h.ip]
      exact .cons (.line _) (Event.moved_raised (.emit _ _) h.events)
  · rw [hs] at hstep
    refine ⟨_, dispatch_of_jump hstep, rfl, rfl, h.taken, ?_⟩
    rw [h.ip]
    exact Event.moved_raised (.jump _ _ _) h.events

/-- A dispatch that ends the run ends the other one alike. -/
theorem dispatch_inr (h : c.Matches g f c')
    (hstep : step ins (f c.state) = (step ins c.state).map g f)
    (hd : c.dispatch w ins = .inr r) :
    ∃ r', c'.dispatch w ins = .inr r' ∧ r.Matches g f r' := by
  rw [← h.state] at hstep
  rcases dispatch_inr_cases hd with ⟨v, s, e, hs, hsink, rfl⟩ | ⟨s, hs, rfl⟩ |
    ⟨cause, s, hs, rfl⟩ | ⟨hs, rfl⟩
  · rw [hs] at hstep
    rw [← h.taken] at hsink
    refine ⟨_, dispatch_of_refused hstep hsink, Matches.refuse ?_ e⟩
    refine ⟨h.ip, rfl, h.taken, .cons (.refused _) ?_⟩
    rw [h.ip]
    exact Event.moved_raised (.emit _ _) h.events
  · rw [hs] at hstep
    refine ⟨_, dispatch_of_underflow hstep, rfl, rfl, List.forall₂_reverse_iff.2 ?_⟩
    rw [h.ip]
    exact Event.moved_raised (.halt _ _ _) h.events
  · rw [hs] at hstep
    refine ⟨_, dispatch_of_fault hstep, ?_, rfl, List.forall₂_reverse_iff.2 ?_⟩
    · rw [h.ip]
      rfl
    · rw [h.ip]
      exact Event.moved_raised (Fault.moved_tag ⟨c.ip, cause⟩ _ _) h.events
  · rw [hs] at hstep
    exact ⟨_, dispatch_of_unknown hstep, h.stop rfl⟩

end Config.Matches

/-! ### Whole runs -/

/-- The configuration `d` is reached from `c` by `n` steps. -/
def Config.StepsIn (w : Watch) (code : Array Instr) : Nat → Config → Config → Prop
  | 0, c, d => c = d
  | n + 1, c, d => ∃ m, Config.Steps w code c m ∧ StepsIn w code n m d

namespace Config.StepsIn

variable {w : Watch} {code : Array Instr} {n : Nat} {c d : Config}

/-- A run goes on from where its first steps lead, with the budget they leave. -/
theorem run_eq (h : StepsIn w code n c d) (b : Nat) : c.run w code (b + n) = d.run w code b := by
  induction n generalizing c with
  | zero => rw [show c = d from h, Nat.add_zero]
  | succ n ih =>
      obtain ⟨m, ⟨ins, hins, hdispatch⟩, hrest⟩ := h
      rw [← Nat.add_assoc, run_of_inl hins hdispatch]
      exact ih hrest

/-- What is reached in a number of steps is reached. -/
theorem reaches (h : StepsIn w code n c d) : Reaches w code c d := by
  induction n generalizing c with
  | zero => rw [show c = d from h]
  | succ n ih =>
      obtain ⟨m, hstep, hrest⟩ := h
      exact .head hstep (ih hrest)

end Config.StepsIn

/-- The second program keeps up with the first: it ends where the first one ends, it follows
each of its steps by at most `pace` steps, and it is stopped by what stops the first, endings
in `except` apart. -/
structure KeepsUp (w : Watch) (p q : Program) (g : Nat → Nat) (f : State → State) (pace : Nat)
    (except : Ending → Prop) : Prop where
  pace_pos : 1 ≤ pace
  isNone_iff : ∀ i, q[g i]? = none ↔ p[i]? = none
  go : ∀ {c c' d : Config} {ins : Instr}, c.Matches g f c' → p[c.ip]? = some ins →
    c.dispatch w ins = .inl d →
      ∃ n d', 1 ≤ n ∧ n ≤ pace ∧ Config.StepsIn w q.toArray n c' d' ∧ d.Matches g f d'
  halt : ∀ {c c' : Config} {ins : Instr} {r : Report}, c.Matches g f c' →
    p[c.ip]? = some ins → c.dispatch w ins = .inr r → ¬except r.ending →
      ∃ ins' r', q[c'.ip]? = some ins' ∧ c'.dispatch w ins' = .inr r' ∧ r.Matches g f r'

/-- How two programs end that stay matched: both at their end, from matched configurations, or
both before. -/
inductive Together (w : Watch) (p q : Program) (s s' : State) (g : Nat → Nat)
    (f : State → State) : Report → Report → Prop where
  | finish {c c' : Config} (hc : Passes w p s c) (hc' : Passes w q s' c') (hend : p[c.ip]? = none)
      (hm : c.Matches g f c') : Together w p q s s' g f (c.finish w) (c'.finish w)
  | stop {r r' : Report} (hbefore : ∀ value, r.ending ≠ .finished value) (hm : r.Matches g f r') :
      Together w p q s s' g f r r'

/-- Without further cells below the stack, programs that end together end alike. -/
theorem Together.matches_recast {w : Watch} {p q : Program} {s s' : State} {g : Nat → Nat}
    {τ : JumpTable → JumpTable} {r r' : Report}
    (h : Together w p q s s' g (State.recast [] τ) r r') : r.Matches g (State.recast [] τ) r' := by
  rcases h with ⟨-, -, -, hm⟩ | ⟨-, hm⟩
  · exact hm.finish
  · exact hm

/-- A run that passes a configuration passes all that it reaches. -/
theorem Passes.trans {w : Watch} {p : Program} {s : State} {c d : Config} (h : Passes w p s c)
    (hreach : Config.Reaches w p.toArray c d) : Passes w p s d :=
  ⟨h.binds, h.reaches.trans hreach⟩

/-- An instruction that ends a run does not finish it. -/
theorem Config.ending_ne_finished {w : Watch} {ins : Instr} {c : Config} {r : Report}
    (hd : c.dispatch w ins = .inr r) (value : Option Int) : r.ending ≠ .finished value := by
  rcases dispatch_inr_cases hd with ⟨v, s, e, -, -, rfl⟩ | ⟨s, -, rfl⟩ | ⟨cause, s, -, rfl⟩ |
    ⟨-, rfl⟩
  · rw [ending_refuse]
    nofun
  all_goals nofun

namespace KeepsUp

variable {w : Watch} {p q : Program} {s s' : State} {g : Nat → Nat} {f : State → State}
  {pace : Nat} {except : Ending → Prop} {c c' : Config}

/-- At the end of the first program the second is at its end. -/
theorem together_of_none (h : KeepsUp w p q g f pace except) (hc : Passes w p s c)
    (hc' : Passes w q s' c') (hm : c.Matches g f c') (hend : p[c.ip]? = none) (b b' : Nat) :
    Together w p q s s' g f (c.run w p.toArray b) (c'.run w q.toArray b') := by
  have hend' : q[c'.ip]? = none := hm.ip ▸ (h.isNone_iff c.ip).2 hend
  rw [Config.run_of_none (by rwa [List.getElem?_toArray]),
    Config.run_of_none (by rwa [List.getElem?_toArray])]
  exact .finish hc hc' hend hm

/-- Without a budget neither program goes on. -/
theorem together_of_some (h : KeepsUp w p q g f pace except) (hm : c.Matches g f c')
    {ins : Instr} (hins : p[c.ip]? = some ins) :
    Together w p q s s' g f (c.run w p.toArray 0) (c'.run w q.toArray 0) := by
  have hsome : q[c'.ip]? ≠ none := by
    rw [hm.ip, Ne, h.isNone_iff, hins]
    exact Option.some_ne_none ins
  obtain ⟨ins', hins'⟩ := Option.ne_none_iff_exists'.1 hsome
  simp only [Config.run, List.getElem?_toArray, hins, hins']
  refine .stop ?_ (hm.stop rfl)
  intro value hvalue
  cases hvalue

/-- **A program that keeps up with another ends together with it.** -/
theorem exists_run (h : KeepsUp w p q g f pace except) (hc : Passes w p s c)
    (hc' : Passes w q s' c') (hm : c.Matches g f c') (b : Nat)
    (hends : ¬except (c.run w p.toArray b).ending) :
    ∃ b', b ≤ b' ∧ b' ≤ pace * b ∧
      Together w p q s s' g f (c.run w p.toArray b) (c'.run w q.toArray b') := by
  induction b generalizing c c' with
  | zero =>
      refine ⟨0, Nat.le_refl 0, Nat.zero_le _, ?_⟩
      rcases hins : p[c.ip]? with _ | ins
      · exact h.together_of_none hc hc' hm hins 0 0
      · exact h.together_of_some hm hins
  | succ b ih =>
      have hpace : b + 1 ≤ pace * (b + 1) := Nat.le_mul_of_pos_left _ h.pace_pos
      rcases hins : p[c.ip]? with _ | ins
      · exact ⟨b + 1, Nat.le_refl _, hpace, h.together_of_none hc hc' hm hins _ _⟩
      have hcode : p.toArray[c.ip]? = some ins := by rwa [List.getElem?_toArray]
      rcases hd : c.dispatch w ins with d | r
      · obtain ⟨n, d', hpos, hle, hsteps, hmatch⟩ := h.go hm hins hd
        have hpass : Passes w p s d := hc.trans (.single ⟨ins, hcode, hd⟩)
        rw [Config.run_of_inl hcode hd] at hends ⊢
        obtain ⟨b', hb, hb', htogether⟩ := ih hpass (hc'.trans hsteps.reaches) hmatch hends
        refine ⟨b' + n, by omega, by rw [Nat.mul_succ]; omega, ?_⟩
        rw [hsteps.run_eq]
        exact htogether
      · rw [Config.run_of_inr hcode hd] at hends ⊢
        obtain ⟨ins', r', hins', hd', hmatch⟩ := h.halt hm hins hd hends
        refine ⟨b + 1, Nat.le_refl _, hpace, ?_⟩
        rw [Config.run_of_inr (by rwa [List.getElem?_toArray]) hd']
        exact .stop (Config.ending_ne_finished hd) hmatch

end KeepsUp

/-- A program keeps up with itself, step by step, on states on which its instructions do the
same. -/
theorem KeepsUp.lockstep {w : Watch} {f : State → State} {except : Ending → Prop} (p : Program)
    (hgo : ∀ {c d : Config} {ins : Instr}, c.dispatch w ins = .inl d →
      step ins (f c.state) = (step ins c.state).map id f)
    (hhalt : ∀ {c : Config} {ins : Instr} {r : Report}, c.dispatch w ins = .inr r →
      ¬except r.ending → step ins (f c.state) = (step ins c.state).map id f) :
    KeepsUp w p p id f 1 except where
  pace_pos := Nat.le_refl 1
  isNone_iff _ := Iff.rfl
  go := by
    intro c c' d ins hm hins hd
    obtain ⟨d', hd', hmatch⟩ := hm.dispatch_inl (hgo hd) rfl hd
    have hcode : p.toArray[c'.ip]? = some ins := by rwa [List.getElem?_toArray, hm.ip]
    exact ⟨1, d', Nat.le_refl 1, Nat.le_refl 1, ⟨d', ⟨ins, hcode, hd'⟩, rfl⟩, hmatch⟩
  halt := by
    intro c c' ins r hm hins hd hends
    obtain ⟨r', hd', hmatch⟩ := hm.dispatch_inr (hhalt hd hends) hd
    exact ⟨ins, r', by rwa [hm.ip], hd', hmatch⟩

/-- The outcome of binding labels with positions moved, the tables apart. -/
structure Binding.Moved (g : Nat → Nat) (b b' : Binding) : Prop where
  bound : b'.bound = b.bound.map fun (x, i) => (x, g i)
  fault : b'.fault = b.fault.map fun f => ⟨g f.ip, f.cause⟩

/-- A binding moved nowhere is itself. -/
theorem Binding.Moved.refl (b : Binding) : b.Moved id b :=
  ⟨(List.map_id b.bound).symm, by cases b.fault <;> rfl⟩

section Execute

variable {w : Watch} {p q : Program} {s s' : State} {g : Nat → Nat} {f : State → State}
  {pace : Nat} {except : Ending → Prop}

/-- Runs start in configurations that match, if their bindings and their states do. -/
theorem Config.matches_start (hzero : g 0 = 0)
    (hbind : (s.table.bindAll p).Moved g (s'.table.bindAll q))
    (hstate : { s' with table := (s'.table.bindAll q).table } =
      f { s with table := (s.table.bindAll p).table }) :
    (Config.start w p s).Matches g f (Config.start w q s') := by
  refine ⟨hzero.symm, hstate, rfl, List.forall₂_reverse_iff.2 ?_⟩
  rw [hbind.bound]
  split
  · rw [List.map_map, List.forall₂_map_left_iff, List.forall₂_map_right_iff]
    exact List.forall₂_same.2 fun (label, i) _ => .tag (.bind label i)
  · exact .nil

/-- **A program that keeps up with another ends together with it**, if its labels are bound
alike. -/
theorem KeepsUp.exists_execute (h : KeepsUp w p q g f pace except) (hzero : g 0 = 0)
    (hbind : (s.table.bindAll p).Moved g (s'.table.bindAll q))
    (hstate : { s' with table := (s'.table.bindAll q).table } =
      f { s with table := (s.table.bindAll p).table })
    (b : Nat) (hends : ¬except (execute w b p s).ending) :
    ∃ b', b ≤ b' ∧ b' ≤ pace * b ∧
      Together w p q s s' g f (execute w b p s) (execute w b' q s') := by
  have hstart : (Config.start w p s).Matches g f (Config.start w q s') :=
    Config.matches_start hzero hbind hstate
  rcases hfault : (s.table.bindAll p).fault with _ | fault
  · have hfault' : (s'.table.bindAll q).fault = none := by
      rw [hbind.fault, hfault]
      rfl
    rw [execute_eq, hfault] at hends ⊢
    simp only [execute_eq, hfault']
    exact h.exists_run ⟨hfault, .refl⟩ ⟨hfault', .refl⟩ hstart b hends
  · have hfault' : (s'.table.bindAll q).fault = some ⟨g fault.ip, fault.cause⟩ := by
      rw [hbind.fault, hfault]
      rfl
    refine ⟨b, Nat.le_refl b, Nat.le_mul_of_pos_left b h.pace_pos, ?_⟩
    rw [execute_of_fault w b hfault, execute_of_fault w b hfault']
    exact .stop nofun ((hstart.raise (Fault.moved_tag fault 0 0)).stop rfl)

end Execute

end StackMachine
