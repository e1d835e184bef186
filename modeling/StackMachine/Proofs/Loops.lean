import Mathlib.Data.Nat.Factorial.Basic
import StackMachine.Proofs.Blocks

/-!
# Loops that count down

Two sources keep a counter in memory and run a loop until it is zero: one prints the counter, the
other multiplies a second cell by it. Both loops are of one form. A body leads from its head to a
branch that finds the label of the head and the new counter on the stack. So there is one rule,
`Leads.loop`: if the body takes the state of each count to that of the count below, then the loop
takes the state of a positive count to that of zero.

The counter is a word that is not zero before the body, so its decrement is exact. The product is
reduced to a word each time, which makes no difference in the end.

## Main definitions

* `countdownSource` and `factorialSource`: the two sources.

## Main results

* `Leads.loop`: the rule for loops that count down.
* `countdown_loop` and `factorial_loop`: what the two loops do.
* `loops_complete`: **both loops run to completion** from every positive word.
-/

namespace StackMachine

/-! ### The rule -/

/-- **A loop that counts down.** At each positive count the body leads from the head to a branch,
with the label of the head and the next count on the stack. Then the loop leads from a positive
count to zero, through all counts between. -/
theorem Leads.loop {w : Watch} {p : Program} {m n head i : Nat} {f : Nat → State}
    {out : Nat → List Int} {label : Int} (hbranch : p[i]? = some (.bare .cjmp))
    (hlabel : ∀ k, (f k).table.target? label = some head)
    (hbody : ∀ k, k < n → Leads w p m head (f (k + 1)) (out (k + 1)) i
      ((f k).withStack (label :: (k : Int) :: (f k).stack))) {k : Nat} (hk : k < n) :
    Leads w p ((m + 1) * (k + 1)) head (f (k + 1)) ((List.range' 1 (k + 1)).reverse.flatMap out)
      (i + 1) (f 0) := by
  induction k with
  | zero =>
      have hlast : Leads w p (1 + m) head (f 1) (out 1 ++ []) (i + 1) (f 0) :=
        (hbody 0 hk).trans (pass hbranch rfl)
      simpa [Nat.add_comm m 1] using hlast
  | succ k ih =>
      have hcond : ((k + 1 : Nat) : Int) ≠ 0 := by omega
      have hback : Leads w p (1 + m) head (f (k + 2)) (out (k + 2) ++ []) head (f (k + 1)) :=
        (hbody (k + 1) hk).trans (branch hbranch rfl hcond (hlabel (k + 1)))
      have hrest := hback.trans (ih (by omega))
      have hcount : (m + 1) * (k + 2) = (m + 1) * (k + 1) + (1 + m) := by
        rw [Nat.mul_succ (m + 1) (k + 1)]
        omega
      have hcounts : (List.range' 1 (k + 2)).reverse =
          (k + 2) :: (List.range' 1 (k + 1)).reverse := by
        rw [List.range'_1_concat, List.reverse_append, Nat.add_comm 1 (k + 1)]
        rfl
      rw [hcount, hcounts, List.flatMap_cons]
      rwa [List.append_nil] at hrest

/-- The decrement of a positive word is exact. -/
theorem Word.wrap_succ_sub_one {k : Nat} (h : (k : Int) < Word.greatest) :
    Word.wrap (((k + 1 : Nat) : Int) - 1) = k := by
  have hsub : ((k + 1 : Nat) : Int) - 1 = k := by omega
  rw [hsub]
  exact Word.wrap_eq_self ⟨by unfold Word.least; omega, Int.le_of_lt h⟩

/-! ### Counting down -/

/-- The source that counts down from a number and prints on the way. -/
def countdownSource (n : Nat) : String :=
  toString n ++ " 0 store 0: 0 load . 1 0 load - 0 store 0 load 0 cjmp 0"

/-- The body of its loop, up to the branch. -/
def countdownBody : Program :=
  [.label 0, .lit 0, .bare .load, .bare .put, .lit 1, .lit 0, .bare .load, .bare .sub, .lit 0,
    .bare .store, .lit 0, .bare .load, .lit 0]

/-- Its program. -/
def countdownProgram (n : Nat) : Program :=
  [.lit n, .lit 0, .bare .store] ++ countdownBody ++ [.bare .cjmp, .lit 0]

/-- The source of a number and the rest of a program. -/
theorem compile_number_append {n : Nat} (hn : (n : Int) ≤ Word.greatest) {rest : String}
    {p : Program} (hrest : Source.compile rest = .ok p) :
    Source.compile (toString n ++ " " ++ rest) = .ok (.lit n :: p) := by
  have hlit : (Instr.lit n).WellFormed := ⟨by unfold Word.least; omega, hn⟩
  exact Source.compile_append_space (Source.compile_token hlit rfl) hrest

/-- The source of the countdown compiles to its program. -/
theorem compile_countdownSource {n : Nat} (hn : (n : Int) ≤ Word.greatest) :
    Source.compile (countdownSource n) = .ok (countdownProgram n) := by
  have hrest : Source.compile "0 store 0: 0 load . 1 0 load - 0 store 0 load 0 cjmp 0" =
      .ok ([.lit 0, .bare .store] ++ countdownBody ++ [.bare .cjmp, .lit 0]) := by decide +kernel
  have happend := compile_number_append hn hrest
  rwa [String.append_assoc] at happend

/-- One round of the countdown prints the counter and lowers it by one. -/
theorem advance_countdownBody (v : Int) (t : JumpTable) :
    countdownBody.advance ⟨[], ⟨#[v]⟩, t⟩ =
      some (⟨[0, Word.wrap (v - 1)], ⟨#[Word.wrap (v - 1)]⟩, t⟩, [v]) := rfl

/-- The loop prints the counter until it is zero. -/
theorem countdown_loop {w : Watch} (hsink : ∀ taken line, w.sink taken line = none) {n k : Nat}
    (hn : (n : Int) ≤ Word.greatest) (hk : k < n) :
    Leads w (countdownProgram n) (14 * (k + 1)) 3 ⟨[], ⟨#[((k + 1 : Nat) : Int)]⟩, ⟨#[3]⟩⟩
      ((List.range' 1 (k + 1)).reverse.flatMap fun i : Nat => [(i : Int)]) 17
      ⟨[], ⟨#[0]⟩, ⟨#[3]⟩⟩ := by
  let f : Nat → State := fun k => ⟨[], ⟨#[(k : Int)]⟩, ⟨#[3]⟩⟩
  let out : Nat → List Int := fun i => [(i : Int)]
  have hbranch : (countdownProgram n)[16]? = some (.bare .cjmp) := rfl
  have hlabel : ∀ k, (f k).table.target? 0 = some 3 := fun _ => rfl
  have hbody : ∀ k, k < n → Leads w (countdownProgram n) 13 3 (f (k + 1)) (out (k + 1)) 16
      ((f k).withStack (0 :: (k : Int) :: (f k).stack)) := by
    intro k hk
    have hadvance := advance_countdownBody ((k + 1 : Nat) : Int) ⟨#[3]⟩
    rw [Word.wrap_succ_sub_one (by omega)] at hadvance
    exact Leads.block hsink ⟨_, rfl⟩ hadvance
  exact Leads.loop hbranch hlabel hbody hk

/-! ### Multiplying -/

/-- The source that multiplies the numbers from a given one down to `1`. -/
def factorialSource (n : Nat) : String :=
  toString n ++
    " 0 store 1 1 store 0: 0 load 1 load * 1 store 1 0 load - 0 store 0 load 0 cjmp 1 load ."

/-- The body of its loop, up to the branch. -/
def factorialBody : Program :=
  [.label 0, .lit 0, .bare .load, .lit 1, .bare .load, .bare .mul, .lit 1, .bare .store, .lit 1,
    .lit 0, .bare .load, .bare .sub, .lit 0, .bare .store, .lit 0, .bare .load, .lit 0]

/-- Its program. -/
def factorialProgram (n : Nat) : Program :=
  [.lit n, .lit 0, .bare .store, .lit 1, .lit 1, .bare .store] ++ factorialBody ++
    [.bare .cjmp, .lit 1, .bare .load, .bare .put]

/-- The source of the factorial compiles to its program. -/
theorem compile_factorialSource {n : Nat} (hn : (n : Int) ≤ Word.greatest) :
    Source.compile (factorialSource n) = .ok (factorialProgram n) := by
  have hrest : Source.compile
      "0 store 1 1 store 0: 0 load 1 load * 1 store 1 0 load - 0 store 0 load 0 cjmp 1 load ." =
      .ok ([.lit 0, .bare .store, .lit 1, .lit 1, .bare .store] ++ factorialBody ++
        [.bare .cjmp, .lit 1, .bare .load, .bare .put]) := by decide +kernel
  have happend := compile_number_append hn hrest
  rwa [String.append_assoc] at happend

/-- One more factor, reduced to a word. -/
theorem wrap_descFactorial {n k : Nat} (hk : k < n) :
    Word.wrap (Word.wrap (n.descFactorial (n - (k + 1))) * ((k + 1 : Nat) : Int)) =
      Word.wrap (n.descFactorial (n - k)) := by
  have hindex : n - k = n - (k + 1) + 1 := by omega
  have hfactor : n - (n - (k + 1)) = k + 1 := by omega
  rw [hindex, Nat.descFactorial_succ, hfactor, Nat.cast_mul, mul_comm, Word.wrap, Word.wrap,
    Word.wrap, Int.mul_bmod_bmod]

/-- One round of the factorial multiplies the product by the counter and lowers that by one. -/
theorem advance_factorialBody (v product : Int) (t : JumpTable) :
    factorialBody.advance ⟨[], ⟨#[v, product]⟩, t⟩ =
      some (⟨[0, Word.wrap (v - 1)], ⟨#[Word.wrap (v - 1), Word.wrap (product * v)]⟩, t⟩, []) := rfl

/-- The loop multiplies the second cell by the counter until that is zero. -/
theorem factorial_loop {w : Watch} (hsink : ∀ taken line, w.sink taken line = none) {n k : Nat}
    (hn : (n : Int) ≤ Word.greatest) (hk : k < n) :
    Leads w (factorialProgram n) (18 * (k + 1)) 6
      ⟨[], ⟨#[((k + 1 : Nat) : Int), Word.wrap (n.descFactorial (n - (k + 1)))]⟩, ⟨#[6]⟩⟩ [] 24
      ⟨[], ⟨#[0, Word.wrap n.factorial]⟩, ⟨#[6]⟩⟩ := by
  let f : Nat → State := fun k =>
    ⟨[], ⟨#[(k : Int), Word.wrap (n.descFactorial (n - k))]⟩, ⟨#[6]⟩⟩
  let out : Nat → List Int := fun _ => []
  have hbranch : (factorialProgram n)[23]? = some (.bare .cjmp) := rfl
  have hlabel : ∀ k, (f k).table.target? 0 = some 6 := fun _ => rfl
  have hbody : ∀ k, k < n → Leads w (factorialProgram n) 17 6 (f (k + 1)) (out (k + 1)) 23
      ((f k).withStack (0 :: (k : Int) :: (f k).stack)) := by
    intro k hk
    have hadvance := advance_factorialBody ((k + 1 : Nat) : Int)
      (Word.wrap (n.descFactorial (n - (k + 1)))) ⟨#[6]⟩
    rw [Word.wrap_succ_sub_one (by omega), wrap_descFactorial hk] at hadvance
    exact Leads.block hsink ⟨_, rfl⟩ hadvance
  have hloop := Leads.loop hbranch hlabel hbody hk
  have hout : (List.range' 1 (k + 1)).reverse.flatMap out = [] := by simp [out]
  have hend : f 0 = ⟨[], ⟨#[0, Word.wrap n.factorial]⟩, ⟨#[6]⟩⟩ := by
    simp only [f, Nat.sub_zero, Nat.descFactorial_self]
    rfl
  rwa [hout, hend] at hloop

/-! ### Whole runs -/

section Interpret

variable {n : Nat} (hpos : 1 ≤ n) (hn : (n : Int) ≤ Word.greatest)
include hpos hn

/-- The counter is set, the loop runs, and a value is left. -/
theorem countdown_leads {w : Watch} (hsink : ∀ taken line, w.sink taken line = none) :
    Leads w (countdownProgram n) (14 * n + 4) 0 ⟨[], .empty, ⟨#[3]⟩⟩
      ((List.range' 1 n).reverse.flatMap fun i : Nat => [(i : Int)]) 18
      ⟨[0], ⟨#[0]⟩, ⟨#[3]⟩⟩ := by
  obtain ⟨k, rfl⟩ : ∃ k, n = k + 1 := ⟨n - 1, by omega⟩
  have hfirst : Leads w (countdownProgram (k + 1)) 3 0 ⟨[], .empty, ⟨#[3]⟩⟩ [] 3
      ⟨[], ⟨#[((k + 1 : Nat) : Int)]⟩, ⟨#[3]⟩⟩ :=
    Leads.block (b := [.lit ((k + 1 : Nat) : Int), .lit 0, .bare .store]) hsink ⟨_, rfl⟩ rfl
  have hlast : Leads w (countdownProgram (k + 1)) 1 17 ⟨[], ⟨#[0]⟩, ⟨#[3]⟩⟩ [] 18
      ⟨[0], ⟨#[0]⟩, ⟨#[3]⟩⟩ :=
    Leads.next rfl rfl
  have hall := (hfirst.trans (countdown_loop hsink hn (Nat.lt_succ_self k))).trans hlast
  have hcount : 14 * (k + 1) + 4 = 1 + (14 * (k + 1) + 3) := by omega
  rw [hcount]
  rwa [List.append_nil] at hall

/-- The two cells are set, the loop runs, and the product is printed. -/
theorem factorial_leads {w : Watch} (hsink : ∀ taken line, w.sink taken line = none) :
    Leads w (factorialProgram n) (18 * n + 9) 0 ⟨[], .empty, ⟨#[6]⟩⟩ [Word.wrap n.factorial] 27
      ⟨[], ⟨#[0, Word.wrap n.factorial]⟩, ⟨#[6]⟩⟩ := by
  obtain ⟨k, rfl⟩ : ∃ k, n = k + 1 := ⟨n - 1, by omega⟩
  have hfirst : Leads w (factorialProgram (k + 1)) 6 0 ⟨[], .empty, ⟨#[6]⟩⟩ [] 6
      ⟨[], ⟨#[((k + 1 : Nat) : Int), 1]⟩, ⟨#[6]⟩⟩ :=
    Leads.block (b := [.lit ((k + 1 : Nat) : Int), .lit 0, .bare .store, .lit 1, .lit 1,
      .bare .store]) hsink ⟨_, rfl⟩ rfl
  have hlast : ∀ v, Leads w (factorialProgram (k + 1)) 3 24 ⟨[], ⟨#[0, v]⟩, ⟨#[6]⟩⟩ [v] 27
      ⟨[], ⟨#[0, v]⟩, ⟨#[6]⟩⟩ :=
    fun v => Leads.block (b := [.lit 1, .bare .load, .bare .put]) hsink ⟨[], rfl⟩ rfl
  -- Before the first turn the product has no factors.
  have hone : Word.wrap (Nat.descFactorial (k + 1) (k + 1 - (k + 1))) = 1 := by
    rw [Nat.sub_self, Nat.descFactorial_zero]
    rfl
  have hloop := factorial_loop hsink hn (Nat.lt_succ_self k)
  rw [hone] at hloop
  have hall := (hfirst.trans hloop).trans (hlast _)
  have hcount : 18 * (k + 1) + 9 = 3 + (18 * (k + 1) + 6) := by omega
  rw [hcount]
  exact hall

end Interpret

/-- **Both loops run to completion.** Take a positive word. The source that counts down from it
ends with the value `0` and has printed the numbers from it down to `1`. The source that multiplies
ends without a value and has printed one line, the factorial reduced to a word. They take `14` and
`18` instructions for each turn, and `4` and `9` for the rest. -/
theorem loops_complete (n : Nat) (hpos : 1 ≤ n) (hn : (n : Int) ≤ Word.greatest)
    (session : Session) (trace : Option Bool) :
    (∀ b, 14 * n + 4 ≤ b → (session.interpret b (countdownSource n) trace).1 =
      .ok (.ok ⟨some 0, (List.range' 1 n).reverse.map toString⟩)) ∧
    (∀ b, 18 * n + 9 ≤ b → (session.interpret b (factorialSource n) trace).1 =
      .ok (.ok ⟨none, [toString (Word.wrap n.factorial)]⟩)) := by
  constructor
  · intro b hb
    have hleads := countdown_leads hpos hn (w := ⟨false, Sink.takeAll⟩) (fun _ _ => rfl)
    have hlines : ((List.range' 1 n).reverse.flatMap fun i : Nat => [(i : Int)]).map toString =
        (List.range' 1 n).reverse.map toString := by
      rw [← List.map_eq_flatMap, List.map_map]
      rfl
    rw [← hlines]
    exact Leads.interpret_finished (compile_countdownSource hn) rfl hleads rfl hb session trace
  · intro b hb
    have hleads := factorial_leads hpos hn (w := ⟨false, Sink.takeAll⟩) (fun _ _ => rfl)
    exact Leads.interpret_finished (compile_factorialSource hn) rfl hleads rfl hb session trace

/-- The counter of the first source comes through all numbers below it. The product of the second
one leaves the range and is reduced. -/
theorem loops_complete_reduced :
    countdownSource 10 = "10 0 store 0: 0 load . 1 0 load - 0 store 0 load 0 cjmp 0" ∧
    (Session.initial.interpret 144 (countdownSource 10) none).1 =
      .ok (.ok ⟨some 0, ["10", "9", "8", "7", "6", "5", "4", "3", "2", "1"]⟩) ∧
    (Session.initial.interpret 387 (factorialSource 21) none).1 =
      .ok (.ok ⟨none, ["-4249290049419214848"]⟩) := by
  refine ⟨by decide +kernel, ?_, ?_⟩
  · exact (loops_complete 10 (by decide) (by decide) .initial none).1 144 (by decide)
  · have hlines : [toString (Word.wrap (Nat.factorial 21))] = ["-4249290049419214848"] := by
      decide +kernel
    rw [← hlines]
    exact (loops_complete 21 (by decide) (by decide) .initial none).2 387 (by decide)

end StackMachine
