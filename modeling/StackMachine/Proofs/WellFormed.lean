import StackMachine.Proofs.Format
import StackMachine.Proofs.Listing

/-!
# Programs that are read are well formed

The compiler and the bytecode reader check every number that they put into an instruction.
A program that either of them returns is therefore well formed: its literals fit into
sixty-four bits, its labels are exact, and its operations exist.

## Main results

* `Source.wellFormed_of_compile` and `Bytecode.wellFormed_of_read`.
-/

namespace StackMachine

/-! ### Source texts -/

/-- A safe natural number is at most the greatest safe one. -/
theorem Number.le_of_safeNat? {x : Number} {n : Nat} (h : x.safeNat? = some n) :
    n ≤ Number.greatestSafe := by
  rw [Number.safeNat?] at h
  split at h
  · split at h
    next hle => exact Option.some.inj h ▸ hle
    next => cases h
  · cases h

/-- A literal that is read is in range. -/
theorem Source.inRange_of_literal? {text : String} {v : Int}
    (h : Source.literal? text = some v) : Word.InRange v := by
  rw [Source.literal?] at h
  split at h
  · split at h
    next hrange => exact Option.some.inj h ▸ hrange
    next => cases h
  · cases h

/-- A label that is read is at most the greatest safe number. -/
theorem Source.le_of_label? {text : String} {n : Nat} (h : Source.label? text = some n) :
    n ≤ Number.greatestSafe := by
  obtain ⟨digits, -, h⟩ := Option.bind_eq_some_iff.1 h
  obtain ⟨m, -, h⟩ := Option.bind_eq_some_iff.1 h
  exact Number.le_of_safeNat? h

/-- A word that stands for an instruction stands for a well-formed one. -/
theorem Instr.wellFormed_of_ofToken? {text : String} {ins : Instr}
    (h : Instr.ofToken? text = some ins) : ins.WellFormed := by
  rw [Instr.ofToken?] at h
  split at h
  next op _ =>
    obtain rfl := Option.some.inj h
    trivial
  next =>
    split at h
    next v hliteral =>
      obtain rfl := Option.some.inj h
      exact Source.inRange_of_literal? hliteral
    next =>
      obtain ⟨n, hlabel, rfl⟩ := Option.map_eq_some_iff.1 h
      exact Source.le_of_label? hlabel

/-- **Compilation returns well-formed programs.** -/
theorem Source.wellFormed_of_compile {source : String} {p : Program}
    (h : Source.compile source = .ok p) : p.WellFormed := by
  replace h := Source.compile_eq_ok_iff.1 h
  generalize Text.words source.toList = words at h
  induction h with
  | nil => exact List.forall_mem_nil _
  | cons hword _ ih => exact List.forall_mem_cons.2 ⟨Instr.wellFormed_of_ofToken? hword, ih⟩

/-! ### Bytecode texts -/

namespace Bytecode

/-- What a record denotes is a well-formed instruction. -/
theorem Denotes.wellFormed {item : Json} {ins : Instr} (h : Denotes item ins) :
    ins.WellFormed := by
  cases h with
  | literal _ _ _ _ hv => exact hv
  | label _ _ _ hn => exact hn
  | operation _ _ => trivial

/-- What is stored is a well-formed program. -/
theorem Stores.wellFormed {v : Json} {p : Program} (h : Stores v p) : p.WellFormed := by
  obtain ⟨-, -, hitems⟩ := h
  induction hitems with
  | nil => exact List.forall_mem_nil _
  | cons hitem _ ih => exact List.forall_mem_cons.2 ⟨hitem.wellFormed, ih⟩

/-- **Bytecode that is read holds a well-formed program.** -/
theorem wellFormed_of_read {text : String} {contents : Contents} (h : read text = .ok contents) :
    contents.program.WellFormed := by
  obtain ⟨-, _, -, hstores⟩ := read_eq_ok_iff.1 h
  exact hstores.wellFormed

end Bytecode

end StackMachine
