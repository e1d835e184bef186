import StackMachine.Proofs.Format

/-!
# Bytecode reads back

The bytecode text of a program is the pretty form of an object with a version and one
record for each instruction. The record of a well-formed instruction is a plain value, so
the text is parsed into exactly the records that were written, and each record denotes the
instruction that it came from.

## Main results

* `Bytecode.denotes_record`: a record denotes its instruction.
* `Bytecode.element_write`: the text of a program spells its stored form.
* `Bytecode.read_write`: **the round trip** of well-formed programs.
-/

namespace StackMachine.Bytecode

/-! ### Records -/

/-- The text of an integer is its decimal string. -/
theorem decimalText_toString (v : Int) : DecimalText (toString v).toList v := by
  rw [Text.toList_toString]
  split
  next hnonneg =>
    have hdigits : Text.Numeral (Nat.toDigits 10 v.toNat) v.toNat :=
      Text.natural?_eq_some_iff.1 (Text.natural?_toDigits v.toNat)
    simpa [Int.toNat_of_nonneg hnonneg] using DecimalText.plain hdigits
  next hneg =>
    have hdigits : Text.Numeral (Nat.toDigits 10 (-v).toNat) (-v).toNat :=
      Text.natural?_eq_some_iff.1 (Text.natural?_toDigits (-v).toNat)
    have hminus := DecimalText.minus hdigits
    have hvalue : -(((-v).toNat : Nat) : Int) = v := by omega
    rwa [hvalue] at hminus

/-- The record of a well-formed instruction is a plain value. -/
theorem plain_record {ins : Instr} (h : ins.WellFormed) : (record ins).Plain := by
  cases ins with
  | lit v =>
      refine .object (Members.arrange_eq_self ["op", "value"] rfl (by decide) (by decide)) ?_
      simp only [List.forall_mem_cons, List.not_mem_nil, false_imp_iff, implies_true, and_true]
      exact ⟨.string "LIT", .string (toString v)⟩
  | label n =>
      refine .object (Members.arrange_eq_self ["op", "id"] rfl (by decide) (by decide)) ?_
      simp only [List.forall_mem_cons, List.not_mem_nil, false_imp_iff, implies_true, and_true]
      exact ⟨.string "LABEL", .number h⟩
  | bare op =>
      refine .object (Members.arrange_eq_self ["op"] rfl (by decide) (by decide)) ?_
      simp only [List.forall_mem_cons, List.not_mem_nil, false_imp_iff, implies_true, and_true]
      exact .string op.name
  | mislabel x => exact absurd h id
  | unknown name => exact absurd h id

/-- **A record denotes the instruction that it came from.** -/
theorem denotes_record {ins : Instr} (h : ins.WellFormed) : Denotes (record ins) ins := by
  cases ins with
  | lit v => exact .literal (fun key => by simp) rfl rfl (decimalText_toString v) h
  | label n => exact .label (fun key => by simp) rfl rfl h
  | bare op => exact .operation (fun key => by simp) rfl
  | mislabel x => exact absurd h id
  | unknown name => exact absurd h id

/-- The stored form of a well-formed program stores that program. -/
theorem stores_ofRecords {p : Program} (h : p.WellFormed) :
    Stores (ofRecords (p.map record)) p := by
  refine .mk rfl rfl (List.forall₂_map_left_iff.2 (List.forall₂_same.2 ?_))
  exact fun ins hins => denotes_record (h ins hins)

/-! ### Texts -/

/-- The stored form of a well-formed program is a plain value. -/
theorem plain_ofRecords {p : Program} (h : p.WellFormed) :
    (ofRecords (p.map record)).Plain := by
  refine .object (Members.arrange_eq_self ["version", "instrs"] rfl (by decide) (by decide)) ?_
  simp only [List.forall_mem_cons, List.not_mem_nil, false_imp_iff, implies_true, and_true]
  refine ⟨.string version, .array ?_⟩
  intro item hitem
  obtain ⟨ins, hins, rfl⟩ := List.mem_map.1 hitem
  exact plain_record (h ins hins)

/-- The bytecode text of a well-formed program spells its stored form. -/
theorem element_write {p : Program} (h : p.WellFormed) :
    Json.Element (write p).toList (ofRecords (p.map record)) :=
  Json.parse?_eq_some_iff.1 (Json.parse?_pretty (plain_ofRecords h))

/-- **Bytecode reads back.** The bytecode text of a well-formed program is accepted, and holds
the version of the form and exactly that program. -/
theorem read_write (p : Program) (h : p.WellFormed) :
    read (write p) = .ok ⟨"0.1", p⟩ :=
  read_eq_ok_iff.2 ⟨rfl, _, element_write h, stores_ofRecords h⟩

/-- The round trip of the empty program and of one at the extremes of both number ranges. -/
theorem read_write_extremes :
    (Program.WellFormed [] ∧ read (write []) = .ok ⟨"0.1", []⟩) ∧
    Program.WellFormed [.lit Word.least, .lit Word.greatest, .label Number.greatestSafe,
      .label 0, .bare .swap] ∧
    read (write [.lit Word.least, .lit Word.greatest, .label Number.greatestSafe, .label 0,
      .bare .swap]) = .ok ⟨"0.1", [.lit Word.least, .lit Word.greatest,
        .label Number.greatestSafe, .label 0, .bare .swap]⟩ :=
  ⟨⟨by decide, read_write _ (by decide)⟩, by decide, read_write _ (by decide)⟩

end StackMachine.Bytecode
