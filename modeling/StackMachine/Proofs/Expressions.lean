import StackMachine.Proofs.Blocks
import StackMachine.Proofs.Lexicon
import StackMachine.Proofs.Sequencing

/-!
# Expressions

Source text is written in the order in which the machine computes: operands first, and the
operator behind them. The operand that is written last is on top of the stack, and the one on top
is the left one. So the source of an expression is the source of its right part, that of its left
part, and the operator, and this module shows that interpreting it computes the expression.

An expression stands for integers, the machine computes with words. For sums, differences and
products it does not matter whether each of them is reduced to a word or only the last result is,
because reduction is a homomorphism of rings. For quotients and comparisons it does.

## Main definitions

* `Expr`: expressions over words, with `Expr.source` and `Expr.program`.
* `Expr.value`: what an expression is worth if every operator reduces its result to a word.
* `Expr.exact`: what it is worth if none does.
* `Expr.divisions`: the divisions in the order in which they are made.

## Main results

* `Expr.compile_source`: the source compiles to the program.
* `Expr.advance_program`: the program pushes the value, if no divisor is zero.
* `Expr.exists_division`: otherwise it comes to the first division by zero.
* `Expr.value_eq_wrap_exact`: a single reduction is enough without quotients and comparisons.
* `expression_interpreted`: **expressions are evaluated from source.**
-/

namespace StackMachine

/-! ### Operators -/

/-- The operators of expressions. -/
inductive Operator where
  | add | sub | mul | div
  | eq | lt | gt
  deriving DecidableEq, Repr

namespace Operator

/-- The operation that an operator stands for. -/
def opcode : Operator → Opcode
  | add => .add
  | sub => .sub
  | mul => .mul
  | div => .div
  | eq => .eq
  | lt => .lt
  | gt => .gt

/-- The result of an operator between integers. A quotient is cut off toward zero, and a comparison
is `1` or `0`. -/
def exact : Operator → Int → Int → Int
  | add, a, b => a + b
  | sub, a, b => a - b
  | mul, a, b => a * b
  | div, a, b => a.tdiv b
  | eq, a, b => if a = b then 1 else 0
  | lt, a, b => if a < b then 1 else 0
  | gt, a, b => if a > b then 1 else 0

/-- Whether an operator is one of those of a ring. -/
def isRing : Operator → Bool
  | add | sub | mul => true
  | _ => false

/-- A comparison is a word already. -/
theorem wrap_truth (c : Prop) [Decidable c] :
    Word.wrap (if c then 1 else 0) = truth (decide c) := by
  by_cases hc : c
  · rw [if_pos hc, decide_eq_true hc]
    rfl
  · rw [if_neg hc, decide_eq_false hc]
    rfl

/-- The machine reduces the result of an operator to a word, unless it divides by zero. -/
theorem step_opcode (op : Operator) {s : State} {a b : Int} {rest : List Int}
    (hstack : s.stack = a :: b :: rest) (hzero : op = .div → b ≠ 0) :
    step (.bare op.opcode) s = .next (s.withStack (Word.wrap (op.exact a b) :: rest)) := by
  cases op with
  | div =>
      have hb : b ≠ 0 := hzero rfl
      simp only [step, opcode, Opcode.perform, hstack, if_neg hb, exact]
  | eq | lt | gt =>
      rw [exact, wrap_truth]
      simp only [step, opcode, Opcode.perform, hstack, beq_eq_decide]
  | add | sub | mul => simp only [step, opcode, Opcode.perform, hstack, exact]

/-- **Reduction is a homomorphism of rings.** -/
theorem wrap_exact_wrap {op : Operator} (h : op.isRing = true) (a b : Int) :
    Word.wrap (op.exact (Word.wrap a) (Word.wrap b)) = Word.wrap (op.exact a b) := by
  cases op with
  | add => simp only [exact, Word.wrap, Int.bmod_add_bmod, Int.add_bmod_bmod]
  | sub => simp only [exact, Word.wrap, Int.bmod_sub_bmod, Int.sub_bmod_bmod]
  | mul => simp only [exact, Word.wrap, Int.bmod_mul_bmod, Int.mul_bmod_bmod]
  | div | eq | lt | gt => cases h

end Operator

/-! ### Expressions -/

/-- An expression over words. -/
inductive Expr where
  /-- A word. -/
  | leaf (v : Int) (h : Word.InRange v)
  /-- An operator between two expressions. -/
  | node (op : Operator) (left right : Expr)

/-- A division of an expression. -/
structure Division where
  /-- How many tokens of the source come before its operator. -/
  index : Nat
  /-- The value that it divides by. -/
  divisor : Int
  deriving DecidableEq

namespace Expr

/-- The source of an expression: the right part, the left part, the operator. -/
def source : Expr → String
  | leaf v _ => toString v
  | node op left right => right.source ++ " " ++ left.source ++ " " ++ op.opcode.token

/-- The program of an expression. -/
def program : Expr → Program
  | leaf v _ => [.lit v]
  | node op left right => right.program ++ left.program ++ [.bare op.opcode]

/-- How many tokens the source of an expression has. -/
def size : Expr → Nat
  | leaf _ _ => 1
  | node _ left right => right.size + left.size + 1

/-- The value of an expression, in which every operator reduces its result to a word. A comparison
is not changed by that. -/
def value : Expr → Int
  | leaf v _ => v
  | node op left right => Word.wrap (op.exact left.value right.value)

/-- The value of an expression, in which no operator reduces its result. -/
def exact : Expr → Int
  | leaf v _ => v
  | node op left right => op.exact left.exact right.exact

/-- Whether all operators of an expression are those of a ring. -/
def isPolynomial : Expr → Bool
  | leaf _ _ => true
  | node op left right => op.isRing && left.isPolynomial && right.isPolynomial

/-- The divisions of an expression in the order in which they are made, the right part before the
left one, if its first token has the given index. A division behind one by zero is never made; it
is listed with the divisor that it would have if the quotient before were zero. -/
def divisions (start : Nat) : Expr → List Division
  | leaf _ _ => []
  | node op left right =>
    right.divisions start ++ left.divisions (start + right.size) ++
      if op = .div then [⟨start + right.size + left.size, right.value⟩] else []

/-- An expression compiles to as many instructions as it has nodes. -/
theorem length_program (e : Expr) : e.program.length = e.size := by
  induction e with
  | leaf v h => rfl
  | node op left right ihl ihr =>
      rw [program, List.length_append, List.length_append, ihl, ihr]
      rfl

/-- **The source compiles to the program.** -/
theorem compile_source (e : Expr) : Source.compile e.source = .ok e.program := by
  induction e with
  | leaf v h =>
      have hlit : (Instr.lit v).WellFormed := h
      exact Source.compile_token hlit rfl
  | node op left right ihl ihr =>
      have hop : Source.compile op.opcode.token = .ok [.bare op.opcode] :=
        Source.compile_token trivial rfl
      exact Source.compile_append_space (Source.compile_append_space ihr ihl) hop

/-! ### A single reduction -/

/-- The value of a polynomial is its exact value, reduced once. -/
theorem value_eq_wrap_exact {e : Expr} (h : e.isPolynomial = true) :
    e.value = Word.wrap e.exact := by
  induction e with
  | leaf v hv => exact (Word.wrap_eq_self hv).symm
  | node op left right ihl ihr =>
      simp only [isPolynomial, Bool.and_eq_true] at h
      obtain ⟨⟨hop, hleft⟩, hright⟩ := h
      rw [value, ihl hleft, ihr hright, Operator.wrap_exact_wrap hop]
      rfl

/-- A polynomial has no division. -/
theorem divisions_eq_nil {e : Expr} (h : e.isPolynomial = true) (start : Nat) :
    e.divisions start = [] := by
  induction e generalizing start with
  | leaf v hv => rfl
  | node op left right ihl ihr =>
      simp only [isPolynomial, Bool.and_eq_true] at h
      obtain ⟨⟨hop, hleft⟩, hright⟩ := h
      have hdiv : op ≠ .div := by
        rintro rfl
        cases hop
      rw [divisions, ihl hleft, ihr hright, if_neg hdiv]
      rfl

/-! ### Evaluation -/

/-- **The program of an expression pushes its value**, if no divisor is zero. -/
theorem advance_program {e : Expr} {start : Nat} (h : ∀ d ∈ e.divisions start, d.divisor ≠ 0)
    (s : State) : e.program.advance s = some (s.withStack (e.value :: s.stack), []) := by
  induction e generalizing start s with
  | leaf v hv => rfl
  | node op left right ihl ihr =>
      simp only [divisions, List.forall_mem_append] at h
      obtain ⟨⟨hright, hleft⟩, hown⟩ := h
      have hzero : op = .div → right.value ≠ 0 := by
        rintro rfl
        exact hown ⟨_, right.value⟩ List.mem_cons_self
      have hstep : step (.bare op.opcode) (s.withStack (left.value :: right.value :: s.stack)) =
          .next (s.withStack (value (.node op left right) :: s.stack)) := op.step_opcode rfl hzero
      have hoperands : Program.advance (right.program ++ left.program) s =
          some (s.withStack (left.value :: right.value :: s.stack), []) :=
        Program.advance_append (ihr hright s) (ihl hleft _)
      refine Program.advance_append hoperands ?_
      simp only [Program.advance, hstep]

/-- Where no first zero divisor is found, no divisor is zero. -/
theorem divisor_ne_zero {e : Expr} {start : Nat}
    (h : (e.divisions start).find? (fun d => d.divisor = 0) = none) :
    ∀ d ∈ e.divisions start, d.divisor ≠ 0 := by
  intro d hd
  simpa using List.find?_eq_none.1 h d hd

/-- **The first division by zero is reached**: the program up to it pushes the dividend and the
zero. -/
theorem exists_division {e : Expr} {start : Nat} {d : Division}
    (h : (e.divisions start).find? (fun d => d.divisor = 0) = some d) (s : State) :
    ∃ (front rest : Program) (a : Int) (more : List Int),
      e.program = front ++ .bare .div :: rest ∧ d.index = start + front.length ∧
      front.advance s = some (s.withStack (a :: 0 :: more), []) := by
  -- The division is one of the right part, or one of the left part, or the expression itself; in
  -- the last two cases the parts before it are evaluated.
  induction e generalizing start s with
  | leaf v hv => cases h
  | node op left right ihl ihr =>
      rw [divisions, List.find?_append, List.find?_append] at h
      cases hright : (right.divisions start).find? fun d => d.divisor = 0 with
      | some d' =>
          rw [hright] at h
          obtain rfl : d' = d := Option.some.inj h
          obtain ⟨front, rest, a, more, hprogram, hindex, hfront⟩ := ihr hright s
          refine ⟨front, rest ++ left.program ++ [.bare op.opcode], a, more, ?_, hindex, hfront⟩
          simp [program, hprogram]
      | none =>
          rw [hright, Option.none_or] at h
          have hvalue := advance_program (divisor_ne_zero hright) s
          cases hleft : (left.divisions (start + right.size)).find? fun d => d.divisor = 0 with
          | some d' =>
              rw [hleft] at h
              obtain rfl : d' = d := Option.some.inj h
              obtain ⟨front, rest, a, more, hprogram, hindex, hfront⟩ :=
                ihl hleft (s.withStack (right.value :: s.stack))
              refine ⟨right.program ++ front, rest ++ [.bare op.opcode], a, more, ?_, ?_,
                Program.advance_append hvalue hfront⟩
              · simp [program, hprogram]
              · rw [hindex, List.length_append, length_program]
                omega
          | none =>
              rw [hleft, Option.none_or] at h
              have hoperands := Program.advance_append hvalue
                (advance_program (divisor_ne_zero hleft) _)
              split at h
              next hdiv =>
                subst hdiv
                obtain ⟨hzero, rfl⟩ : right.value = 0 ∧ _ = d := by simpa using h
                rw [hzero] at hoperands
                refine ⟨right.program ++ left.program, [], left.value, s.stack, rfl, ?_, hoperands⟩
                rw [List.length_append, length_program, length_program]
                exact Nat.add_assoc start right.size left.size
              next => cases h

/-! ### Interpretation -/

/-- The program of an expression has no labels and no jumps. -/
theorem straight_program (e : Expr) : e.program.Straight := by
  induction e with
  | leaf v h =>
      intro ins hins
      rw [List.mem_singleton.1 hins]
      exact ⟨rfl, rfl⟩
  | node op left right ihl ihr =>
      have hop : (Instr.bare op.opcode).isJump = false := by cases op <;> rfl
      intro ins hins
      rw [program, List.mem_append, List.mem_append] at hins
      rcases hins with (hins | hins) | hins
      · exact ihr ins hins
      · exact ihl ins hins
      · rw [List.mem_singleton.1 hins]
        exact ⟨rfl, hop⟩

section Interpret

variable {e : Expr} {b : Nat} (session : Session) (trace : Option Bool)

/-- Without a division by zero, the value is returned. -/
theorem interpret_source (h : ∀ d ∈ e.divisions 0, d.divisor ≠ 0) (hb : e.size ≤ b) :
    (session.interpret b e.source trace).1 = .ok (.ok ⟨some e.value, []⟩) := by
  have hbinds := JumpTable.bindAll_straight e.straight_program .empty
  have hall : e.program.HasAt 0 e.program := List.prefix_refl e.program
  have hleads := Leads.block (w := ⟨false, Sink.takeAll⟩) (fun _ _ => rfl) hall
    (advance_program h ⟨[], .empty, .empty⟩)
  rw [length_program, Nat.zero_add] at hleads
  exact Leads.interpret_finished e.compile_source (by rw [hbinds]) (by rwa [hbinds])
    (List.getElem?_eq_none (by rw [length_program])) hb session trace

/-- The failure of the first division by zero is returned. -/
theorem interpret_source_of_zero {d : Division}
    (h : (e.divisions 0).find? (fun d => d.divisor = 0) = some d) (hb : e.size ≤ b) :
    e.program[d.index]? = some (.bare .div) ∧ ∃ a : Int,
      (session.interpret b e.source trace).1 =
        .ok (.error (Fault.diagnostic ⟨d.index, .divisionByZero a⟩)) := by
  have hbinds := JumpTable.bindAll_straight e.straight_program .empty
  obtain ⟨front, rest, a, more, hprogram, hindex, hfront⟩ :=
    exists_division h ⟨[], .empty, .empty⟩
  have hfront' : e.program.HasAt 0 front := ⟨_, hprogram.symm⟩
  have hleads := Leads.block (w := ⟨false, Sink.takeAll⟩) (fun _ _ => rfl) hfront' hfront
  rw [← hindex] at hleads
  have hins : e.program[d.index]? = some (.bare .div) := by
    rw [hprogram, hindex, Nat.zero_add, List.getElem?_append_right (Nat.le_refl _), Nat.sub_self]
    rfl
  have hlt : front.length < b := by
    have hsize := congrArg List.length hprogram
    rw [length_program, List.length_append, List.length_cons] at hsize
    omega
  exact ⟨hins, a, Leads.interpret_faulted e.compile_source (by rw [hbinds]) (by rwa [hbinds]) hins
    rfl hlt session trace⟩

end Interpret

end Expr

/-- **Expressions are evaluated from source.** Interpret the source of an expression, on any
session and traced or not, with a budget of at least one instruction for each token. If no division
has divisor zero, this returns the value of the expression, and no output. If all operators are
sums, differences and products, that is the exact value, reduced to a word once. Otherwise it
returns the failure of the first division by zero, in the order in which the right part of an
expression is evaluated before the left one: the index in its details is the ordinal of the token
of that division. -/
theorem expression_interpreted (e : Expr) (b : Nat) (hb : e.size ≤ b) (session : Session)
    (trace : Option Bool) :
    let result := (session.interpret b e.source trace).1
    ((∀ d ∈ e.divisions 0, d.divisor ≠ 0) → result = .ok (.ok ⟨some e.value, []⟩)) ∧
    (e.isPolynomial = true → result = .ok (.ok ⟨some (Word.wrap e.exact), []⟩)) ∧
    ∀ d, (e.divisions 0).find? (fun d => d.divisor = 0) = some d →
      (∃ t ∈ Source.tokens e.source, t.index = d.index ∧ t.text = "/") ∧
      ∃ failure : Diagnostic, result = .ok (.error failure) ∧
        failure.code.name = "E_DIV_ZERO" ∧
        failure.details = [("ip", .number (.ofNat d.index))] := by
  intro result
  refine ⟨fun h => Expr.interpret_source session trace h hb, ?_, ?_⟩
  · intro h
    have hnone : ∀ d ∈ e.divisions 0, d.divisor ≠ 0 := by
      rw [Expr.divisions_eq_nil h]
      exact List.forall_mem_nil _
    rw [← Expr.value_eq_wrap_exact h]
    exact Expr.interpret_source session trace hnone hb
  · intro d hd
    obtain ⟨hins, a, hresult⟩ := Expr.interpret_source_of_zero session trace hd hb
    obtain ⟨t, ht, hindex, hstands⟩ := Source.exists_token_of_compile e.compile_source hins
    cases hstands with
    | operation htext => exact ⟨⟨t, ht, hindex, htext⟩, _, hresult, rfl, rfl⟩

/-- The difference of `7` and the quotient of `-9` and `2`; the square of the greatest word; and a
division by zero whose dividend is one as well, and comes first. -/
theorem expression_interpreted_quotients :
    let session := Session.initial
    let e : Expr := .node .sub (.leaf 7 (by decide))
      (.node .div (.leaf (-9) (by decide)) (.leaf 2 (by decide)))
    let square : Expr :=
      .node .mul (.leaf Word.greatest (by decide)) (.leaf Word.greatest (by decide))
    let bad : Expr := .node .div (.node .div (.leaf 1 (by decide)) (.leaf 0 (by decide)))
      (.node .sub (.leaf 2 (by decide)) (.leaf 2 (by decide)))
    (e.source = "2 -9 / 7 -" ∧ (session.interpret 5 e.source none).1 = .ok (.ok ⟨some 11, []⟩)) ∧
    (square.isPolynomial = true ∧
      (session.interpret 3 square.source none).1 = .ok (.ok ⟨some 1, []⟩)) ∧
    (bad.source = "2 2 - 0 1 / /" ∧
      ∃ failure : Diagnostic, (session.interpret 7 bad.source none).1 = .ok (.error failure) ∧
        failure.details = [("ip", .number (.ofNat 5))]) := by
  intro session e square bad
  have hvalue : ∀ d ∈ e.divisions 0, d.divisor ≠ 0 := by decide
  have hfirst : (bad.divisions 0).find? (fun d => d.divisor = 0) = some ⟨5, 0⟩ := by decide
  refine ⟨⟨by decide +kernel, ?_⟩, ⟨rfl, ?_⟩, by decide +kernel, ?_⟩
  · exact (expression_interpreted e 5 (by decide) session none).1 hvalue
  · exact (expression_interpreted square 3 (by decide) session none).2.1 rfl
  · obtain ⟨-, failure, hresult, -, hdetails⟩ :=
      (expression_interpreted bad 7 (by decide) session none).2.2 _ hfirst
    exact ⟨failure, hresult, hdetails⟩

end StackMachine
