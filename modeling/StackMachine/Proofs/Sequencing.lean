import StackMachine.Proofs.Relocation
import StackMachine.Proofs.Residue
import StackMachine.Proofs.Stops

/-!
# One program after another

A machine keeps what a program leaves, so a long program might be run in parts. The parts are not
the same as the whole: each of them pops a value at its end, its labels are bound at positions of
its own, and its faults name indices of its own. This module shows that nothing else differs, if
the first part is *straight*, without labels and jumps.

The run of the whole first follows the run of the first part, whose instructions do not look at
the labels that the whole has bound already. Where the first part has come to its end, the whole
goes on like the second part, at positions that are greater by the length of the first. The two
runs differ in what they have handed over before; only the sink can tell, since it may remember
the lines that it has taken.

## Main definitions

* `Program.Straight`: a program without labels and jumps.
* `Watch.having`, `Config.having`, `Report.having`: lines and events that were handed over before.
* `Copied`: a program whose instructions stand elsewhere in another one.
* `Joined`: what a whole leaves, put together from what its parts leave.

## Main results

* `Config.run_having`: what was handed over before shows in nothing but the sink.
* `Copied.run_cases`: a copied program runs in step with the original, until its end.
* `JumpTable.bindAll_append`: the labels behind a straight program are bound at moved positions.
* `straight_cases`: a straight part runs in the whole as it does alone.
* `split_after_straight`: **a program can be split behind a straight part.**
-/

namespace StackMachine

/-! ### Straight programs -/

/-- A program without labels and jumps. -/
def Program.Straight (p : Program) : Prop := ∀ ins ∈ p, ins.isLabel = false ∧ ins.isJump = false

instance (p : Program) : Decidable p.Straight :=
  inferInstanceAs (Decidable (∀ ins ∈ p, ins.isLabel = false ∧ ins.isJump = false))

/-- An instruction that is no label has no number of one. -/
theorem Instr.labelNumber?_eq_none {ins : Instr} (h : ins.isLabel = false) :
    ins.labelNumber? = none := by
  cases ins with
  | label n => cases h
  | mislabel x => cases h
  | _ => rfl

/-- An instruction that is no jump asks for no label. -/
theorem Instr.jumpsTo?_eq_none {ins : Instr} (h : ins.isJump = false) (stack : List Int) :
    ins.jumpsTo? stack = none := by
  rw [jumpsTo?.eq_def]
  split
  next => cases h
  next => cases h
  next => rfl

/-- An instruction that is no jump looks for no label. -/
theorem step_ne_undefined {ins : Instr} (h : ins.isJump = false) (s : State) (id : Int)
    (t : State) : step ins s ≠ .fault (.labelUndefined id) t := by
  intro hstep
  cases effect_of_step hstep with
  | undefined hins hjump htarget =>
      rw [Instr.jumpsTo?_eq_none h] at hjump
      cases hjump

/-! ### What was handed over before -/

/-- The observers of a run whose sink has taken lines before, the newest first. -/
def Watch.having (before : List String) (w : Watch) : Watch :=
  { w with sink := fun taken => w.sink (taken ++ before) }

/-- A run under way that had handed over lines and events before it began. -/
def Config.having (before : List String) (past : List Event) (c : Config) : Config :=
  { c with taken := c.taken ++ before, events := c.events ++ past }

/-- What a run leaves that had handed over events before it began. -/
def Report.having (past : List Event) (r : Report) : Report :=
  { r with events := past.reverse ++ r.events }

/-- A watch that has seen nothing before is the watch. -/
theorem Watch.having_nil (w : Watch) : w.having [] = w := by
  simp only [having, List.append_nil]

/-- The lines of a report with a past are those of the past and then its own. -/
theorem Report.lines_having (past : List Event) (r : Report) :
    (r.having past).lines = (past.filterMap Event.line?).reverse ++ r.lines := by
  rw [lines, having, List.filterMap_append, List.filterMap_reverse, lines]

namespace Config

variable {before : List String} {past : List Event}

/-- Raising a tag does not turn on what came before. -/
theorem raise_having (w : Watch) (t : Tag) (c : Config) :
    (c.having before past).raise w t = (c.raise (w.having before) t).having before past := by
  rw [raise_eq, raise_eq]
  simp only [having, List.append_assoc]
  rfl

/-- Stopping does not turn on what came before. -/
theorem stop_having (e : Ending) (c : Config) :
    (c.having before past).stop e = (c.stop e).having past := by
  simp only [stop, having, Report.having, List.reverse_append]

/-- Ending a run with a tag. -/
theorem stop_raise_having (w : Watch) (t : Tag) (e : Ending) (c : Config) :
    ((c.having before past).raise w t).stop e =
      ((c.raise (w.having before) t).stop e).having past := by
  rw [raise_having, stop_having]

/-- Finishing does not turn on what came before. -/
theorem finish_having (w : Watch) (c : Config) :
    (c.having before past).finish w = (c.finish (w.having before)).having past :=
  stop_raise_having w _ _ { c with state := c.state.withStack c.state.stack.tail }

/-- Ending on a refused line does not turn on what came before. -/
theorem refuse_having (w : Watch) (e : Error) (c : Config) :
    (c.having before past).refuse w e = (c.refuse (w.having before) e).having past := by
  cases e with
  | diagnosed d => exact stop_raise_having w _ _ c
  | defect d => exact stop_having _ c

/-- Printing does not turn on what came before, if the sink is told of it. -/
theorem print_having (w : Watch) (value : Int) (c : Config) :
    (c.having before past).print w value =
      (c.print (w.having before) value).map (Config.having before past) (Report.having past) := by
  cases hsink : (w.having before).sink c.taken (toString value) with
  | none =>
      have hsink' : w.sink (c.taken ++ before) (toString value) = none := hsink
      simp only [print, raise_eq, hsink, hsink', Sum.map_inl, having, List.cons_append,
        List.append_assoc]
      rfl
  | some e =>
      have hsink' : w.sink (c.taken ++ before) (toString value) = some e := hsink
      let refused : Config := ⟨c.ip, c.state, c.taken,
        .refused (toString value) :: (w.raised (.emit (.ofNat c.ip) (toString value)) ++ c.events)⟩
      have hrefuse : (refused.having before past).refuse w e = _ := refuse_having w e refused
      simp only [print, raise_eq, hsink, hsink', having, ← List.append_assoc]
      exact congrArg Sum.inr hrefuse

/-- A dispatch does not look at what was handed over before. -/
theorem dispatch_having (w : Watch) (ins : Instr) (c : Config) :
    (c.having before past).dispatch w ins =
      (c.dispatch (w.having before) ins).map (Config.having before past) (Report.having past) := by
  have hstate : (c.having before past).state = c.state := rfl
  rw [dispatch, dispatch, hstate]
  cases step ins c.state with
  | next s => rfl
  | print value s => exact print_having w value { c with state := s }
  | jump label target s =>
      simp only [raise_having]
      rfl
  | underflow s => exact congrArg Sum.inr (stop_raise_having w _ _ { c with state := s })
  | fault cause s => exact congrArg Sum.inr (stop_raise_having w _ _ { c with state := s })
  | unknown => exact congrArg Sum.inr (stop_having _ c)

/-- **What was handed over before shows in nothing but the sink.** -/
theorem run_having (w : Watch) (code : Array Instr) (b : Nat) (c : Config) :
    (c.having before past).run w code b = (c.run (w.having before) code b).having past := by
  have hip : (c.having before past).ip = c.ip := rfl
  induction b generalizing c with
  | zero =>
      rw [run, run, hip]
      cases code[c.ip]? with
      | none => exact finish_having w c
      | some ins => exact stop_having _ c
  | succ b ih =>
      rw [run, run, hip]
      cases code[c.ip]? with
      | none => exact finish_having w c
      | some ins =>
          simp only [dispatch_having]
          cases c.dispatch (w.having before) ins with
          | inl next => exact ih next rfl
          | inr r => rfl

/-- A run that begins at an index, with nothing handed over yet. -/
def entry (ip : Nat) (s : State) : Config := ⟨ip, s, [], []⟩

end Config

open Config

/-- A program whose labels are bound runs like one that has handed nothing over. -/
theorem execute_eq_having {p : Program} {s : State} (hbinds : (s.table.bindAll p).fault = none)
    (w : Watch) (b : Nat) :
    execute w b p s = ((entry 0 { s with table := (s.table.bindAll p).table }).run w
      p.toArray b).having (start w p s).events := by
  let c := entry 0 { s with table := (s.table.bindAll p).table }
  have hrun : (c.having [] (start w p s).events).run w p.toArray b = _ :=
    run_having w p.toArray b c
  rw [Watch.having_nil] at hrun
  rw [execute_eq, hbinds]
  exact hrun

/-- The tags of labels are no lines. -/
theorem lines_having_start (w : Watch) (p : Program) (s : State) (r : Report) :
    (r.having (start w p s).events).lines = r.lines := by
  rw [Report.lines_having, lines_start]
  rfl

/-! ### Copied programs -/

/-- The instructions of a program stand elsewhere in another one, in the same order, and do the
same on states that correspond. -/
structure Copied (p q : Program) (g : Nat → Nat) (f : State → State) : Prop where
  getElem?_eq : ∀ {i : Nat} {ins}, p[i]? = some ins → q[g i]? = some ins
  next : ∀ {i : Nat} {ins}, p[i]? = some ins → g (i + 1) = g i + 1
  step_eq : ∀ {i : Nat} {ins}, p[i]? = some ins → ∀ s, step ins (f s) = (step ins s).map g f

/-- **A copied program runs in step with the original**, until the original comes to its end. -/
theorem Copied.run_cases {p q : Program} {g : Nat → Nat} {f : State → State} {w : Watch}
    {c c' : Config} (h : Copied p q g f) (hm : c.Matches g f c') (b : Nat) :
    (∃ n d d', n ≤ b ∧ p[d.ip]? = none ∧ StepsIn w p.toArray n c d ∧
      StepsIn w q.toArray n c' d' ∧ d.Matches g f d' ∧ c.run w p.toArray b = d.finish w) ∨
    (∀ value, (c.run w p.toArray b).ending ≠ .finished value) ∧
      (c.run w p.toArray b).Matches g f (c'.run w q.toArray b) := by
  -- Where the original has no instruction left, the copy may go on, so nothing is said of its run.
  induction b generalizing c c' with
  | zero =>
      rcases hins : p[c.ip]? with _ | ins
      · have hend := run_of_none (w := w) (by rwa [List.getElem?_toArray]) 0
        exact .inl ⟨0, c, c', Nat.le_refl 0, hins, rfl, rfl, hm, hend⟩
      · have hins' : q[c'.ip]? = some ins := hm.ip ▸ h.getElem?_eq hins
        simp only [run, List.getElem?_toArray, hins, hins']
        refine .inr ⟨?_, hm.stop rfl⟩
        intro value hvalue
        cases hvalue
  | succ b ih =>
      rcases hins : p[c.ip]? with _ | ins
      · have hend := run_of_none (w := w) (by rwa [List.getElem?_toArray]) (b + 1)
        exact .inl ⟨0, c, c', Nat.zero_le _, hins, rfl, rfl, hm, hend⟩
      have hcode : p.toArray[c.ip]? = some ins := by rwa [List.getElem?_toArray]
      have hcode' : q.toArray[c'.ip]? = some ins := by
        rw [List.getElem?_toArray, hm.ip]
        exact h.getElem?_eq hins
      rcases hd : c.dispatch w ins with d | r
      · obtain ⟨d', hd', hmatch⟩ := hm.dispatch_inl (h.step_eq hins _) (h.next hins) hd
        rw [run_of_inl hcode hd, run_of_inl hcode' hd']
        rcases ih hmatch with ⟨n, e, e', hle, hend, hsteps, hsteps', hrest⟩ | hstop
        · exact .inl ⟨n + 1, e, e', Nat.succ_le_succ hle, hend, ⟨d, ⟨ins, hcode, hd⟩, hsteps⟩,
            ⟨d', ⟨ins, hcode', hd'⟩, hsteps'⟩, hrest⟩
        · exact .inr hstop
      · obtain ⟨r', hd', hmatch⟩ := hm.dispatch_inr (h.step_eq hins _) hd
        rw [run_of_inr hcode hd, run_of_inr hcode' hd']
        exact .inr ⟨ending_ne_finished hd, hmatch⟩

/-- A straight program is copied into a longer one, whatever labels that has bound. -/
theorem copied_left {p : Program} (hp : p.Straight) (q : Program) (t : JumpTable) :
    Copied p (p ++ q) id (State.recast [] (·.atop t)) where
  getElem?_eq := by
    intro i ins hins
    rwa [id, List.getElem?_append_left (List.getElem?_eq_some_iff.1 hins).1]
  next := fun _ => rfl
  step_eq := by
    intro i ins hins s
    exact step_atop (step_ne_undefined (hp ins (List.mem_of_getElem? hins)).2 s)

/-- The second part of a program is copied with its labels moved. -/
theorem copied_right (p q : Program) :
    Copied q (p ++ q) (· + p.length) (State.relocate (· + p.length)) where
  getElem?_eq := by
    intro i ins hins
    rwa [List.getElem?_append_right (Nat.le_add_left _ _), Nat.add_sub_cancel]
  next := fun _ => Nat.add_right_comm _ _ _
  step_eq := fun _ _ => step_relocate

/-- The second part of a program ends like the copy of it. -/
theorem matches_run_right (p q : Program) (w : Watch) (s : State) (b : Nat) :
    ((entry 0 s).run w q.toArray b).Matches (· + p.length) (State.relocate (· + p.length))
      ((entry p.length (s.relocate (· + p.length))).run w (p ++ q).toArray b) := by
  have hm : (entry 0 s).Matches (· + p.length) (State.relocate (· + p.length))
      (entry p.length (s.relocate (· + p.length))) :=
    ⟨(Nat.zero_add p.length).symm, rfl, rfl, .nil⟩
  rcases (copied_right p q).run_cases (w := w) hm b with
    ⟨n, d, d', hle, hend, -, hsteps, hmatch, hrun⟩ | ⟨-, hmatch⟩
  · have hend' : (p ++ q).toArray[d'.ip]? = none := by
      rw [List.getElem?_toArray, hmatch.ip, List.getElem?_append_right (Nat.le_add_left _ _),
        Nat.add_sub_cancel]
      exact hend
    obtain ⟨b, rfl⟩ : ∃ b', b = b' + n := ⟨b - n, by omega⟩
    rw [hrun, hsteps.run_eq, run_of_none hend']
    exact hmatch.finish
  · exact hmatch

/-! ### Labels behind a straight part -/

/-- A program is spread over the positions behind another one without gaps. -/
theorem spread_offset (n i : Nat) (q : Program) : Spread (· + n) i q q := by
  induction q generalizing i with
  | nil => exact .nil i
  | cons ins rest ih => exact .keep (Nat.add_right_comm i 1 n) (ih (i + 1))

namespace JumpTable

variable {p q : Program} {t : JumpTable}

/-- A pass goes over a straight part without a trace. -/
theorem bindFrom_append (hp : p.Straight) (q : Program) (index : Nat) (t : JumpTable) :
    bindFrom index t (p ++ q) = bindFrom (index + p.length) t q := by
  induction p generalizing index with
  | nil => rfl
  | cons ins rest ih =>
      have hrest : Program.Straight rest := fun i hi => hp i (List.mem_cons_of_mem ins hi)
      have hins := Instr.labelNumber?_eq_none (hp ins List.mem_cons_self).1
      rw [List.cons_append, bindFrom_cons, hins, List.length_cons, Nat.add_comm rest.length 1,
        ← Nat.add_assoc]
      exact ih hrest (index + 1)

/-- A straight program has no labels to bind. -/
theorem bindAll_straight (hp : p.Straight) (t : JumpTable) : t.bindAll p = ⟨t, [], none⟩ := by
  have happend := bindFrom_append hp [] 0 t
  rwa [List.append_nil] at happend

/-- **The labels behind a straight part are bound at moved positions.** -/
theorem bindAll_append (hp : p.Straight) (hq : (empty.bindAll q).fault = none) :
    (empty.bindAll (p ++ q)).fault = none ∧
      (empty.bindAll (p ++ q)).table = (empty.bindAll q).table.relocate (· + p.length) := by
  obtain ⟨htable, -, hfault⟩ := (spread_offset p.length 0 q).bindFrom_eq (t := empty)
  rw [relocate_empty] at htable hfault
  rw [bindAll, bindFrom_append hp]
  refine ⟨hfault.trans ?_, htable⟩
  rw [← bindAll, hq]
  rfl

end JumpTable

/-! ### The run of a straight part -/

section Straight

variable {p q : Program} {w : Watch} {s : State} {d : Config}

/-- A straight program runs from its first instruction with nothing raised before. -/
theorem execute_straight (hp : p.Straight) (w : Watch) (b : Nat) (s : State) :
    execute w b p s = (entry 0 s).run w p.toArray b := by
  have hstart : start w p s = entry 0 s := by
    simp [start, entry, JumpTable.bindAll_straight hp]
  rw [execute_eq, JumpTable.bindAll_straight hp, hstart]

/-- A straight program is not left but at its end. -/
theorem Program.Straight.ip_le_length (hp : p.Straight)
    (hreach : Reaches w p.toArray (entry 0 s) d) : d.ip ≤ p.length := by
  induction hreach with
  | refl => exact Nat.zero_le _
  | @tail c d _ hstep ih =>
      obtain ⟨ins, hins, hd⟩ := hstep
      rw [List.getElem?_toArray] at hins
      have hlt : c.ip < p.length := (List.getElem?_eq_some_iff.1 hins).1
      obtain ⟨s, -, rfl⟩ | ⟨v, s, -, -, rfl⟩ | ⟨label, target, s, hs, rfl⟩ :=
        dispatch_inl_cases hd
      · exact hlt
      · exact hlt
      · obtain ⟨v, hv, -⟩ := target_of_step hs
        rw [Instr.jumpsTo?_eq_none (hp ins (List.mem_of_getElem? hins)).2] at hv
        cases hv

/-- **A straight part runs in the whole as it does alone.** If it comes to its end, the whole
goes on from there, in the same state but for the labels, and with the same lines handed over;
otherwise the whole is stopped as the part is. -/
theorem straight_cases (hp : p.Straight) (q : Program) (w : Watch) (b : Nat) (stack : List Int)
    (memory : Memory) (t : JumpTable) :
    (∃ (n : Nat) (d : Config), execute w b p ⟨stack, memory, .empty⟩ = d.finish w ∧
      d.state.table = .empty ∧ d.events.filterMap Event.line? = d.taken ∧
      ∀ b', (entry 0 ⟨stack, memory, t⟩).run w (p ++ q).toArray (b' + n) =
        ((entry p.length { d.state with table := t }).run (w.having d.taken)
          (p ++ q).toArray b').having d.events) ∨
    (∀ value, (execute w b p ⟨stack, memory, .empty⟩).ending ≠ .finished value) ∧
      (execute w b p ⟨stack, memory, .empty⟩).Matches id (State.recast [] (·.atop t))
        ((entry 0 ⟨stack, memory, t⟩).run w (p ++ q).toArray b) := by
  let s : State := ⟨stack, memory, .empty⟩
  have hrecast : ∀ s : State, s.table = .empty →
      s.recast [] (·.atop t) = { s with table := t } := by
    intro s hs
    simp only [State.recast, hs, JumpTable.atop_empty, List.append_nil]
  have hm : (entry 0 s).Matches id (State.recast [] (·.atop t)) (entry 0 ⟨stack, memory, t⟩) :=
    ⟨rfl, (hrecast s rfl).symm, rfl, .nil⟩
  rw [execute_straight hp]
  rcases (copied_left hp q t).run_cases (w := w) hm b with
    ⟨n, d, d', -, hend, hsteps, hsteps', hmatch, hrun⟩ | hstop
  · have htable : d.state.table = .empty := hsteps.reaches.table_eq
    have hip : d.ip = p.length := by
      have hle : d.ip ≤ p.length := hp.ip_le_length hsteps.reaches
      have hge : p.length ≤ d.ip := List.getElem?_eq_none_iff.1 hend
      omega
    have hd' : d' = (entry p.length { d.state with table := t }).having d.taken d.events := by
      rw [hmatch.eq_of_id, hrecast d.state htable, hip]
      rfl
    refine .inl ⟨n, d, hrun, htable, hsteps.reaches.lines_eq rfl, ?_⟩
    intro b'
    rw [hsteps'.run_eq, hd', run_having]
  · exact .inr hstop

end Straight

/-! ### Splitting a program -/

/-- What a whole program leaves, put together from what its two parts leave that are run one after
the other. The first part has `n` instructions. -/
structure Joined (n : Nat) (first second whole : Report) : Prop where
  ending : whole.ending = second.ending.moved (· + n)
  lines : whole.lines = first.lines ++ second.lines
  stack : whole.state.stack = second.state.stack
  memory : whole.state.memory = second.state.memory
  table : whole.state.table.toList = second.state.table.toList.map (· + n)

section Split

variable {p q : Program} {w : Watch} {b : Nat} {stack : List Int} {memory : Memory}
  {value : Option Int}

/-- Runs that match along an offset are joined, if what the second had handed over before are the
lines of the first part. -/
theorem Report.Matches.joined {n : Nat} {first second whole : Report} {past : List Event}
    (h : second.Matches (· + n) (State.relocate (· + n)) whole)
    (hpast : past.reverse.filterMap Event.line? = first.lines) :
    Joined n first second (whole.having past) where
  ending := h.ending
  lines := by rw [Report.lines_having, ← List.filterMap_reverse, hpast, h.lines_eq]
  stack := by
    rw [Report.having, h.state]
    exact List.append_nil second.state.stack
  memory := by
    rw [Report.having, h.state]
    rfl
  table := by
    rw [Report.having, h.state]
    exact JumpTable.toList_relocate

/-- The tags of the labels do not count. -/
theorem Joined.having_start {n : Nat} {first second whole : Report}
    (h : Joined n first second whole) (p q : Program) (w w' : Watch) (s s' : State) :
    Joined n first (second.having (start w q s).events) (whole.having (start w' p s').events) where
  ending := h.ending
  lines := by rw [lines_having_start, lines_having_start, h.lines]
  stack := h.stack
  memory := h.memory
  table := h.table

/-- **The whole is joined from its parts**, at a budget that exceeds the one of the second part by
the instructions of the first. -/
theorem exists_joined (hp : p.Straight) (hq : (JumpTable.empty.bindAll q).fault = none)
    (h : (execute w b p ⟨stack, memory, .empty⟩).ending = .finished value) :
    let first := execute w b p ⟨stack, memory, .empty⟩
    ∃ n, ∀ b', Joined p.length first
      (execute (w.having first.lines.reverse) b' q
        (first.state.withStack (value.toList ++ first.state.stack)))
      (execute w (b' + n) (p ++ q) ⟨stack, memory, .empty⟩) := by
  intro first
  obtain ⟨hbinds, htable⟩ := JumpTable.bindAll_append hp hq
  rcases straight_cases hp q w b stack memory (JumpTable.empty.bindAll (p ++ q)).table with
    ⟨n, d, hfirst, hempty, hlines, hrun⟩ | ⟨hne, -⟩
  · have hstate : first.state.withStack (value.toList ++ first.state.stack) = d.state := by
      rw [show first = d.finish w from hfirst]
      exact withStack_finish (hfirst ▸ h)
    have hpast : d.events.reverse.filterMap Event.line? = first.lines := by
      rw [show first = d.finish w from hfirst, lines_finish]
    have htaken : first.lines.reverse = d.taken := by
      rw [← hpast, List.filterMap_reverse, hlines, List.reverse_reverse]
    have hbinds' : (d.state.table.bindAll q).fault = none := by rw [hempty, hq]
    refine ⟨n, fun b' => ?_⟩
    -- The second part finds an empty table and binds its labels there; the whole has bound them
    -- at moved positions, before the first part was run.
    have hmatch := matches_run_right p q (w.having d.taken)
      { d.state with table := (JumpTable.empty.bindAll q).table } b'
    rw [State.relocate, State.recast, List.append_nil, ← htable] at hmatch
    rw [hstate, htaken, execute_eq_having hbinds', hempty,
      execute_eq_having (s := ⟨stack, memory, .empty⟩) hbinds, hrun]
    exact (hmatch.joined hpast).having_start ..
  · exact absurd h (hne value)

end Split

/-- **A program can be split behind a straight part.** Take a program in two parts, the first
without labels and jumps, the second with labels that bind in order, on any stack and memory with
an empty table. If the first part comes to its end, run the second on what it left, with the
returned value pushed back and with a sink that has taken its lines. The whole terminates if and
only if the second part does. Then it ends in the same way, with the same value or error; it
prints the lines of the first part and then those of the second, and leaves the same stack and
memory, with the labels and the index of a fault greater by the length of the first part. If the
first part does not come to its end, then the whole is stopped in the same way, at the same index,
with the same lines, stack and memory; what reaches its observers differs in nothing but the tags
of the labels. -/
theorem split_after_straight (w : Watch) (p q : Program) (hp : p.Straight)
    (hq : (JumpTable.empty.bindAll q).fault = none) (b : Nat) (stack : List Int)
    (memory : Memory) :
    let s : State := ⟨stack, memory, .empty⟩
    let first := execute w b p s
    (∀ value, first.ending = .finished value →
      let w' := w.having first.lines.reverse
      let s' := first.state.withStack (value.toList ++ first.state.stack)
      ((∃ b₁, (execute w b₁ (p ++ q) s).ending ≠ .exhausted) ↔
        ∃ b₂, (execute w' b₂ q s').ending ≠ .exhausted) ∧
      ∀ b₁ b₂, (execute w b₁ (p ++ q) s).ending ≠ .exhausted →
        (execute w' b₂ q s').ending ≠ .exhausted →
          Joined p.length first (execute w' b₂ q s') (execute w b₁ (p ++ q) s)) ∧
    ((∀ value, first.ending ≠ .finished value) →
      let whole := execute w b (p ++ q) s
      whole.ending = first.ending ∧ whole.lines = first.lines ∧
      whole.state.stack = first.state.stack ∧ whole.state.memory = first.state.memory ∧
      whole.events = (start w (p ++ q) s).events.reverse ++ first.events) := by
  intro s first
  constructor
  · intro value hvalue w' s'
    obtain ⟨n, hjoined⟩ := exists_joined hp hq hvalue
    have hends : ∀ {b'}, (execute w (b' + n) (p ++ q) s).ending ≠ .exhausted ↔
        (execute w' b' q s').ending ≠ .exhausted := by
      intro b'
      rw [Ne, (hjoined b').ending, Ending.moved_eq_exhausted_iff]
    refine ⟨⟨fun ⟨b₁, h₁⟩ => ⟨b₁, hends.1 ?_⟩, fun ⟨b₂, h₂⟩ => ⟨b₂ + n, hends.2 h₂⟩⟩, ?_⟩
    · rwa [execute_mono (Nat.le_add_right b₁ n) h₁]
    · -- The whole is known at the budget `b₂ + n`, and at `b₁` it is the same.
      intro b₁ b₂ h₁ h₂
      rw [execute_eq_of_ends h₁ (hends.2 h₂)]
      exact hjoined b₂
  · intro hne whole
    obtain ⟨hbinds, -⟩ := JumpTable.bindAll_append hp hq
    rcases straight_cases hp q w b stack memory (JumpTable.empty.bindAll (p ++ q)).table with
      ⟨n, d, hfirst, -⟩ | ⟨-, hmatch⟩
    · exact absurd (congrArg Report.ending hfirst) (hne d.state.stack.head?)
    · have hwhole : whole = _ := execute_eq_having hbinds w b
      rw [hwhole]
      refine ⟨hmatch.ending.trans (Ending.moved_id _), ?_, ?_, ?_, ?_⟩
      · rw [lines_having_start, hmatch.lines_eq]
      · rw [Report.having, hmatch.state]
        exact List.append_nil first.state.stack
      · rw [Report.having, hmatch.state]
        rfl
      · rw [Report.having, Event.eq_of_moved hmatch.events]

/-- A number is printed and counted down; and an addition lacks an operand, in front of the same
loop. -/
theorem split_after_straight_countdown :
    let w : Watch := ⟨true, Sink.takeAll⟩
    let s : State := ⟨[], .empty, .empty⟩
    let p : Program := [.lit 2, .bare .dup, .bare .put]
    let p' : Program := [.lit 2, .bare .dup, .bare .put, .bare .add]
    let q : Program := [.label 0, .lit (-1), .bare .add, .bare .dup, .bare .put, .bare .dup, .lit 0,
      .bare .cjmp]
    Joined 3 (execute w 3 p s) (execute (w.having ["2"]) 16 q ⟨[2], .empty, .empty⟩)
      (execute w 19 (p ++ q) s) ∧
    (execute w 19 (p ++ q) s).ending = .finished (some 0) ∧
    (execute w 19 (p ++ q) s).lines = ["2", "1", "0"] ∧
    (execute w 19 (p ++ q) s).state.table.toList = [3] ∧
    (execute w 19 (p' ++ q) s).ending = .underflow ∧
    (execute w 19 (p' ++ q) s).lines = ["2"] := by
  intro w s p p' q
  have hq : (JumpTable.empty.bindAll q).fault = none := by decide
  have hfinished : (execute w 3 p s).ending = .finished (some 2) := by decide
  have hends : (execute w 19 (p ++ q) s).ending = .finished (some 0) := by decide
  have hends' : (execute (w.having ["2"]) 16 q ⟨[2], .empty, .empty⟩).ending ≠ .exhausted := by
    decide
  have hstopped : ∀ value, (execute w 19 p' s).ending ≠ .finished value := by
    intro value
    rw [show (execute w 19 p' s).ending = .underflow by decide]
    nofun
  obtain ⟨hsplit, -⟩ := split_after_straight w p q (by decide) hq 3 [] .empty
  obtain ⟨-, hstop⟩ := split_after_straight w p' q (by decide) hq 19 [] .empty
  have hjoined : Joined 3 (execute w 3 p s) (execute (w.having ["2"]) 16 q ⟨[2], .empty, .empty⟩)
      (execute w 19 (p ++ q) s) := (hsplit (some 2) hfinished).2 19 16 (by rw [hends]; nofun) hends'
  refine ⟨hjoined, hends, ?_, ?_, ?_, ?_⟩
  · rw [hjoined.lines]
    decide
  · rw [hjoined.table]
    decide
  · rw [(hstop hstopped).1]
    decide
  · rw [(hstop hstopped).2.1]
    decide

end StackMachine
