import StackMachine.Proofs.Labels
import StackMachine.Proofs.Tandem

/-!
# What earlier programs leave behind

A machine keeps its stack and its jump table from one program to the next. A program that
brings along all that it needs does not notice: cells below its own show only in an underflow
and at the very end, and an old label shows only where a program jumps to a label that it does
not have.

Both laws compare the run on what was left behind with the run without it. The first is the
second one step by step, with the old cells below the stack, or with a table that has the
entries of the program in front of the old ones.

## Main definitions

* `State.onto`, `Visit.onto` and `Config.onto`: further cells below the stack.
* `JumpTable.atop`: a table in front of another one.

## Main results

* `stack_frame`: **cells below the stack change nothing in a program that does not
  underflow**, until the last value is popped.
* `JumpTable.bindFrom_atop`: labels that can be bound in a table can be bound in a larger one.
* `stale_labels_harmless`: **labels of earlier programs change nothing in a program that jumps
  to labels of its own.**
-/

namespace StackMachine

/-! ### Cells below the stack -/

/-- The state with its stack put on further cells. -/
def State.onto (base : List Int) (s : State) : State := s.withStack (s.stack ++ base)

/-- The visit with the stack that it finds put on further cells. -/
def Visit.onto (base : List Int) (v : Visit) : Visit := { v with state := v.state.onto base }

/-- The run under way with its stack put on further cells. -/
def Config.onto (base : List Int) (c : Config) : Config := { c with state := c.state.onto base }

section Frame

variable {w : Watch} {p : Program} {s : State} {ins : Instr} {base : List Int} {c : Config}

/-- An instruction that finds its operands does not look below them. -/
theorem step_onto (h : ∀ t, step ins s ≠ .underflow t) :
    step ins (s.onto base) = (step ins s).map id (State.onto base) :=
  step_recast (τ := id) (fun _ _ htarget => htarget) (.inr h) fun _ _ => target?_of_undefined

/-- On a stack with further cells below, a program keeps up with itself, unless it runs out of
operands. -/
theorem keepsUp_onto (w : Watch) (p : Program) (base : List Int) :
    KeepsUp w p p id (State.onto base) 1 (· = .underflow) := by
  refine .lockstep p ?_ ?_
  · intro c d ins hd
    refine step_onto ?_
    intro t hunder
    rw [Config.dispatch_of_underflow hunder] at hd
    cases hd
  · intro c ins r hd hends
    refine step_onto ?_
    intro t hunder
    rw [Config.dispatch_of_underflow hunder] at hd
    obtain rfl := Sum.inr.inj hd
    exact hends rfl

/-- An instruction that finds its operands jumps the same way. -/
theorem Visit.jump?_onto {v : Visit} (h : ∀ t, step v.ins v.state ≠ .underflow t) :
    (v.onto base).jump? = v.jump? := by
  rw [jump?_eq, jump?_eq]
  have hstep : step (v.onto base).ins (v.onto base).state =
      (step v.ins v.state).map id (State.onto base) := step_onto h
  rw [hstep]
  cases step v.ins v.state <;> rfl

/-- A run that does not underflow finds the operands of every instruction that it visits. -/
theorem Config.step_ne_underflow {code : Array Instr} {b : Nat} {v : Visit}
    (hfull : (c.run w code b).ending ≠ .underflow) (hv : v ∈ c.visits w code b) (t : State) :
    step v.ins v.state ≠ .underflow t := by
  intro hunder
  obtain ⟨c', hvisit, -, hends⟩ := exists_of_mem_visits hv
  have hstate : v.state = c'.state := congrArg Visit.state hvisit
  rw [hends _ (dispatch_of_underflow (hstate ▸ hunder))] at hfull
  exact hfull rfl

/-- A run that does not underflow visits the same instructions on further cells. -/
theorem Config.Matches.visits_onto {c' : Config} {code : Array Instr} {b : Nat}
    (hm : c.Matches id (State.onto base) c') (hfull : (c.run w code b).ending ≠ .underflow) :
    c'.visits w code b = (c.visits w code b).map (Visit.onto base) := by
  induction b generalizing c c' with
  | zero => rfl
  | succ b ih =>
      rcases hins : code[c.ip]? with _ | ins
      · rw [visits_of_none hins, visits_of_none (hm.ip ▸ hins)]
        rfl
      have hins' : code[c'.ip]? = some ins := hm.ip ▸ hins
      have hvisit : c'.visit ins = (c.visit ins).onto base := by
        rw [visit, hm.ip, hm.state]
        rfl
      have hhead : c.visit ins ∈ c.visits w code (b + 1) := by
        simp only [visits, hins, List.mem_cons, true_or]
      have hstep : step ins (c.state.onto base) = (step ins c.state).map id (State.onto base) :=
        step_onto (step_ne_underflow hfull hhead)
      rcases hd : c.dispatch w ins with d | r
      · obtain ⟨d', hd', hnext⟩ := hm.dispatch_inl hstep rfl hd
        rw [run_of_inl hins hd] at hfull
        rw [visits_of_inl hins hd, visits_of_inl hins' hd', ih hnext hfull, hvisit]
        rfl
      · obtain ⟨r', hd', -⟩ := hm.dispatch_inr hstep hd
        rw [visits_of_inr hins hd, visits_of_inr hins' hd', hvisit]
        rfl

/-- A program that does not underflow visits the same instructions on further cells, and makes
the same jumps. -/
theorem visits_onto (base : List Int) {b : Nat} (hfull : (execute w b p s).ending ≠ .underflow) :
    visits w b p (s.onto base) = (visits w b p s).map (Visit.onto base) ∧
      (visits w b p (s.onto base)).filterMap Visit.jump? =
        (visits w b p s).filterMap Visit.jump? := by
  have htable : (s.onto base).table = s.table := rfl
  rcases hfault : (s.table.bindAll p).fault with _ | f
  · have hbind : (s.table.bindAll p).Moved id ((s.onto base).table.bindAll p) := .refl _
    have hstart := Config.matches_start (w := w) (f := State.onto base) rfl hbind rfl
    rw [execute_eq, hfault] at hfull
    have hvisits := hstart.visits_onto hfull
    simp only [visits, htable, hfault, hvisits, List.filterMap_map, true_and]
    refine List.filterMap_congr ?_
    intro v hv
    exact Visit.jump?_onto (Config.step_ne_underflow hfull hv)
  · simp only [visits, htable, hfault, List.map_nil, and_self]

/-- A program that does not underflow ends together with itself on further cells. -/
theorem together_onto (base : List Int) {b : Nat} (h : (execute w b p s).ending ≠ .underflow) :
    Together w p p s (s.onto base) id (State.onto base) (execute w b p s)
      (execute w b p (s.onto base)) := by
  have hbind : (s.table.bindAll p).Moved id ((s.onto base).table.bindAll p) := .refl _
  obtain ⟨b', hle, hge, htogether⟩ := (keepsUp_onto w p base).exists_execute rfl hbind rfl b h
  obtain rfl : b' = b := by omega
  exact htogether

/-- Whatever stops a program, apart from an underflow, is an error. -/
theorem Ending.exists_error {e : Ending} (hbefore : ∀ value, e ≠ .finished value)
    (hfull : e ≠ .underflow) : ∃ error, e.result = .error error := by
  cases e with
  | finished value => exact absurd rfl (hbefore value)
  | underflow => exact absurd rfl hfull
  | faulted f => exact ⟨_, rfl⟩
  | refused error => exact ⟨_, rfl⟩
  | unknownOpcode => exact ⟨_, rfl⟩
  | exhausted => exact ⟨_, rfl⟩

/-- The last tag is no line. -/
theorem Config.lines_finish (w : Watch) (c : Config) :
    (c.finish w).lines = c.events.reverse.filterMap Event.line? := by
  rw [finish, raise_eq, Watch.raised]
  split <;> simp [Report.lines, stop, Event.line?]

end Frame

/-- **The frame law of the stack.** Take a program that does not underflow on a state, and put
further cells below the stack. The program visits the same instructions in the same order, each
with these cells below, so it makes the same jumps; it prints the same lines, and leaves the same
memory and table. If it came to its end with a stack, it comes to its end with that stack on the
further cells, and then pops the top of the whole. If it was stopped by an error, it is stopped
by the same error, and leaves what it left on the further cells. -/
theorem stack_frame (w : Watch) (b : Nat) (p : Program) (s : State) (base : List Int)
    (hfull : (execute w b p s).ending ≠ .underflow) :
    let r := execute w b p s
    let r' := execute w b p (s.onto base)
    visits w b p (s.onto base) = (visits w b p s).map (Visit.onto base) ∧
    (visits w b p (s.onto base)).filterMap Visit.jump? = (visits w b p s).filterMap Visit.jump? ∧
    r'.lines = r.lines ∧ r'.state.memory = r.state.memory ∧ r'.state.table = r.state.table ∧
    ((∃ c, Passes w p s c ∧ Passes w p (s.onto base) (c.onto base) ∧ p[c.ip]? = none ∧
        r = c.finish w ∧ r' = (c.onto base).finish w ∧
        r'.ending = .finished (c.state.stack ++ base).head? ∧
        r'.state.stack = (c.state.stack ++ base).tail) ∨
      (∃ e, r.result = .error e ∧ r'.result = .error e ∧
        r'.state.stack = r.state.stack ++ base)) := by
  intro r r'
  obtain ⟨hvisits, hjumps⟩ := visits_onto base hfull
  refine ⟨hvisits, hjumps, ?_⟩
  have htogether : Together w p p s (s.onto base) id (State.onto base) r r' :=
    together_onto base hfull
  have hends : r.ending ≠ .underflow := hfull
  -- Both runs are now told by how they correspond, and no more by what they are runs of.
  clear_value r r'
  cases htogether with
  | @finish c c' hc hc' hend hm =>
      obtain rfl : c' = c.onto base := hm.eq_of_id
      refine ⟨?_, ?_, ?_, .inl ⟨c, hc, hc', hend, rfl, rfl, rfl, ?_⟩⟩
      · rw [Config.lines_finish, Config.lines_finish]
        rfl
      all_goals
        simp only [Config.state_finish]
        rfl
  | stop hbefore hm =>
      obtain ⟨e, he⟩ := Ending.exists_error hbefore hends
      have hending : r'.ending = r.ending := hm.ending.trans r.ending.moved_id
      refine ⟨hm.lines_eq, ?_, ?_, .inr ⟨e, he, ?_, ?_⟩⟩
      · rw [hm.state]
        rfl
      · rw [hm.state]
        rfl
      · rw [Report.result, hending]
        exact he
      · rw [hm.state]
        rfl

/-- A program that prints its only cell and finishes without a value of its own. -/
theorem stack_frame_emptied :
    let w : Watch := ⟨true, Sink.takeAll⟩
    let p : Program := [.bare .put]
    let s : State := ⟨[3], .empty, .empty⟩
    (execute w 9 p s).ending ≠ .underflow ∧ (execute w 9 p (s.onto [8, 9])).lines = ["3"] ∧
      ∃ c, Passes w p s c ∧ c.state.stack = [] ∧ execute w 9 p s = c.finish w ∧
        (execute w 9 p (s.onto [8, 9])).ending = .finished (some 8) := by
  intro w p s
  have hfull : (execute w 9 p s).ending ≠ .underflow := by decide
  obtain ⟨-, -, hlines, -, -, ⟨c, hpass, -, -, hfinish, -, hending, -⟩ | ⟨e, he, -⟩⟩ :=
    stack_frame w 9 p s [8, 9] hfull
  · have hstack : c.state.stack = [] := by
      have hvalue := congrArg Report.ending hfinish
      exact List.head?_eq_none_iff.1 (Ending.finished.inj hvalue).symm
    rw [hstack] at hending
    exact ⟨hfull, hlines, c, hpass, hstack, hfinish, hending⟩
  · cases he

/-! ### Labels of earlier programs -/

/-- What exceeds a number exceeds every smaller one. -/
theorem Number.exceeds_of_le {x : Number} {m n : Nat} (hle : m ≤ n) (h : x.exceeds n = true) :
    x.exceeds m = true := by
  cases x with
  | finite v =>
      simp only [exceeds, decide_eq_true_eq] at h ⊢
      have hmul : (m : Int) * v.den ≤ n * v.den :=
        Int.mul_le_mul_of_nonneg_right (Int.ofNat_le.2 hle) (Int.natCast_nonneg _)
      omega
  | infinite negative => exact h
  | nan => exact h

namespace JumpTable

/-- The table in front of another one: its own entries, and the others behind them. -/
def atop (t old : JumpTable) : JumpTable := ⟨(t.toList ++ old.toList.drop t.size).toArray⟩

variable {t old : JumpTable} {p : Program} {index : Nat}

/-- A label is where the table in front has it, or else where the other has it. -/
theorem target?_atop (id : Int) : (t.atop old).target? id = (t.target? id).or (old.target? id) := by
  unfold target?
  split
  · rfl
  · simp only [atop, toList, size, List.getElem?_toArray, List.getElem?_append,
      Array.getElem?_toList, Array.length_toList, List.getElem?_drop]
    split
    next hlt => rw [Array.getElem?_eq_getElem hlt, Option.some_or]
    next hge =>
      rw [Array.getElem?_eq_none (Nat.le_of_not_lt hge), Option.none_or]
      congr 1
      omega

/-- A table in front of another one has the size of the larger. -/
theorem size_atop : (t.atop old).size = max t.size old.size := by
  simp only [atop, toList, size, List.size_toArray, List.length_append, Array.length_toList,
    List.length_drop]
  omega

/-- The empty table in front of another one is the other one. -/
theorem atop_empty (old : JumpTable) : empty.atop old = old :=
  ext_target? fun n => by rw [target?_atop]; rfl

/-- A table in front of another one leaves room for no fewer labels. -/
theorem size_le_size_atop (t old : JumpTable) : t.size ≤ (t.atop old).size := by
  rw [size_atop]
  omega

/-- A label that can be bound in a table can be bound in front of any other. -/
theorem bind_atop {id : Nat} (h : id ≤ t.size) (i : Nat) :
    (t.atop old).bind id i (Nat.le_trans h (size_le_size_atop t old)) =
      (t.bind id i h).atop old := by
  refine ext_target? ?_
  intro n
  rw [target?_bind, target?_atop, target?_atop, target?_bind]
  split <;> rfl

/-- A larger table has room for more labels. -/
theorem exceeds_atop {x : Number} (h : ¬x.exceeds t.size = true) :
    ¬x.exceeds (t.atop old).size = true :=
  fun hatop => h (Number.exceeds_of_le (size_le_size_atop t old) hatop)

/-- **Labels that can be bound in a table can be bound in front of any other.** -/
theorem bindFrom_atop (h : (bindFrom index t p).fault = none) :
    bindFrom index (t.atop old) p =
      { bindFrom index t p with table := (bindFrom index t p).table.atop old } := by
  induction p generalizing index t with
  | nil => rfl
  | cons ins rest ih =>
      rw [bindFrom_cons] at h ⊢
      rw [bindFrom_cons]
      rcases hins : ins.labelNumber? with _ | x
      · simp only [hins] at h ⊢
        exact ih h
      · simp only [hins] at h ⊢
        by_cases hexceeds : x.exceeds t.size = true
        · rw [if_pos hexceeds] at h
          cases h
        · have hmark : (t.atop old).mark ins index = (t.mark ins index).atop old :=
            mark_comm (τ := (·.atop old)) (size_le_size_atop t old)
              (fun _ hid => bind_atop hid index) hins hexceeds
          rw [if_neg hexceeds] at h ⊢
          rw [if_neg (exceeds_atop hexceeds), hmark]
          simp only [ih h]

end JumpTable

/-- A run ended at a jump to a label that is not bound. -/
def Ending.Undefined (e : Ending) : Prop := ∃ ip id, e = .faulted ⟨ip, .labelUndefined id⟩

section Stale

variable {w : Watch} {p : Program} {s : State} {ins : Instr} {old : JumpTable}

/-- An instruction that does not miss a label does not look behind those of the table. -/
theorem step_atop (h : ∀ id t, step ins s ≠ .fault (.labelUndefined id) t) :
    step ins (s.recast [] (·.atop old)) = (step ins s).map id (State.recast [] (·.atop old)) := by
  refine step_recast ?_ (.inl rfl) ?_
  · intro id i htarget
    rw [JumpTable.target?_atop, htarget]
    rfl
  · intro id t hundefined
    exact absurd hundefined (h id t)

/-- With a table in front of another one, a program keeps up with itself, unless it misses a
label. -/
theorem keepsUp_atop (w : Watch) (p : Program) (old : JumpTable) :
    KeepsUp w p p id (State.recast [] (·.atop old)) 1 Ending.Undefined := by
  refine .lockstep p ?_ ?_
  · intro c d ins hd
    refine step_atop ?_
    intro id t hundefined
    rw [Config.dispatch_of_fault hundefined] at hd
    cases hd
  · intro c ins r hd hends
    refine step_atop ?_
    intro id t hundefined
    rw [Config.dispatch_of_fault hundefined] at hd
    obtain rfl := Sum.inr.inj hd
    exact hends ⟨c.ip, id, rfl⟩

/-- A program whose labels can be bound, and which misses none, ends alike in front of any
other table. -/
theorem matches_atop (old : JumpTable) {b : Nat} (hbinds : (s.table.bindAll p).fault = none)
    (hends : ¬(execute w b p s).ending.Undefined) :
    (execute w b p s).Matches id (State.recast [] (·.atop old))
      (execute w b p (s.recast [] (·.atop old))) := by
  let s' := s.recast [] (·.atop old)
  have hatop : s'.table.bindAll p =
      { s.table.bindAll p with table := (s.table.bindAll p).table.atop old } :=
    JumpTable.bindFrom_atop hbinds
  have hbind : (s.table.bindAll p).Moved id (s'.table.bindAll p) := by
    rw [hatop]
    exact ⟨(Binding.Moved.refl _).bound, (Binding.Moved.refl _).fault⟩
  have hstate : { s' with table := (s'.table.bindAll p).table } =
      State.recast [] (·.atop old) { s with table := (s.table.bindAll p).table } := by
    rw [hatop]
    rfl
  obtain ⟨b', hle, hge, htogether⟩ :=
    (keepsUp_atop w p old).exists_execute rfl hbind hstate b hends
  obtain rfl : b' = b := by omega
  exact htogether.matches_recast

end Stale

/-- **Labels of earlier programs are harmless.** Take a program on a stack and a memory, and
suppose that with an empty table it meets no label out of order and misses none. With any other
table it ends in the same way within the same budget, the same reaches its observers, and it
leaves the same stack and memory. Afterwards both tables have each label of the program at its
last position there, and the other table has kept all other labels. -/
theorem stale_labels_harmless (w : Watch) (b : Nat) (p : Program) (stack : List Int)
    (memory : Memory) (old : JumpTable)
    (hlabels : ∀ f, (execute w b p ⟨stack, memory, .empty⟩).ending = .faulted f →
      f.cause.code ≠ .labelOrder ∧ f.cause.code ≠ .labelUndefined) :
    let r := execute w b p ⟨stack, memory, .empty⟩
    let r' := execute w b p ⟨stack, memory, old⟩
    r'.ending = r.ending ∧ r'.events = r.events ∧ r'.lines = r.lines ∧
    r'.state.stack = r.state.stack ∧ r'.state.memory = r.state.memory ∧
    (∀ n, Instr.label n ∈ p → ∃ i, p.LastAt n i ∧ r.state.table.target? n = some i ∧
      r'.state.table.target? n = some i) ∧
    (∀ n : Nat, Instr.label n ∉ p → r'.state.table.target? n = old.target? n) := by
  intro r r'
  have hbinds : (JumpTable.empty.bindAll p).fault = none := by
    rcases hfault : (JumpTable.empty.bindAll p).fault with _ | f
    · rfl
    · obtain ⟨k, x, -, -, rfl, -⟩ := JumpTable.bindFrom_of_fault hfault
      have hending : r.ending = _ := congrArg Report.ending (execute_of_fault w b hfault)
      exact absurd rfl (hlabels _ hending).1
  have hends : ¬r.ending.Undefined := by
    rintro ⟨ip, id, hending⟩
    exact (hlabels _ hending).2 rfl
  -- With the empty table in front, the other one is as it was given.
  have hm : r.Matches id (State.recast [] (·.atop old)) r' := by
    have hatop := matches_atop (s := ⟨stack, memory, .empty⟩) old hbinds hends
    rwa [State.recast, List.append_nil, JumpTable.atop_empty] at hatop
  have htable : ∀ n : Nat, r.state.table.target? n = p.lastLabel? n := by
    intro n
    rw [table_execute, JumpTable.target?_bindAll, Binding.reached, hbinds]
    exact Option.or_none
  have htable' : ∀ n : Nat, r'.state.table.target? n = (p.lastLabel? n).or (old.target? n) := by
    intro n
    rw [hm.state, ← htable n]
    exact JumpTable.target?_atop n
  refine ⟨hm.ending.trans r.ending.moved_id, Event.eq_of_moved hm.events, hm.lines_eq, ?_, ?_,
    ?_, ?_⟩
  · rw [hm.state]
    exact List.append_nil r.state.stack
  · rw [hm.state]
    rfl
  · intro n hn
    have hsome : p.lastLabel? n ≠ none := fun hnone => Program.lastLabel?_eq_none_iff.1 hnone hn
    obtain ⟨i, hi⟩ := Option.ne_none_iff_exists'.1 hsome
    refine ⟨i, Program.lastLabel?_eq_some_iff.1 hi, (htable n).trans hi, ?_⟩
    rw [htable', hi]
    rfl
  · intro n hn
    rw [htable', Program.lastLabel?_eq_none_iff.2 hn]
    rfl

/-- A countdown through a label that an earlier program bound elsewhere, together with one that
the countdown does not have. -/
theorem stale_labels_harmless_countdown :
    let w : Watch := ⟨true, Sink.takeAll⟩
    let p : Program := [.label 0, .bare .dup, .bare .put, .lit (-1), .bare .add, .bare .dup,
      .lit 0, .bare .cjmp]
    let old : JumpTable := ⟨#[7, 9]⟩
    (∀ f, (execute w 20 p ⟨[2], .empty, .empty⟩).ending = .faulted f →
      f.cause.code ≠ .labelOrder ∧ f.cause.code ≠ .labelUndefined) ∧
    (execute w 20 p ⟨[2], .empty, old⟩).ending = .finished (some 0) ∧
    (execute w 20 p ⟨[2], .empty, old⟩).lines = ["2", "1"] ∧
    (execute w 20 p ⟨[2], .empty, old⟩).state.table.target? 1 = some 9 := by
  intro w p old
  have hending : (execute w 20 p ⟨[2], .empty, .empty⟩).ending = .finished (some 0) := by decide
  have hlabels : ∀ f, (execute w 20 p ⟨[2], .empty, .empty⟩).ending = .faulted f →
      f.cause.code ≠ .labelOrder ∧ f.cause.code ≠ .labelUndefined := by
    intro f hf
    rw [hending] at hf
    cases hf
  obtain ⟨hsame, -, hlines, -, -, -, hkept⟩ :=
    stale_labels_harmless w 20 p [2] .empty old hlabels
  refine ⟨hlabels, hsame.trans hending, hlines.trans ?_, hkept 1 ?_⟩
  · decide
  · decide

end StackMachine
