import StackMachine.Bytecode
import StackMachine.Proofs.JsonGrammar
import StackMachine.Proofs.Schema

/-!
# The form of bytecode

What a bytecode text may look like, stated apart from the schema: a value of the interchange
format of which certain members are looked up, and records that denote instructions. The
schema accepts exactly this form, by the laws of the schemas that it is put together from, and
the diagnosis of any other text points at its first offence. The members of an object count by
their keys only, so neither their order nor what else the root holds makes a difference.

## Main definitions

* `Bytecode.Denotes`: a record denotes an instruction.
* `Bytecode.Stores`: a value is the stored form of a program.
* `Bytecode.Blames`: the place of the first offence of a value.
* `Bytecode.Locates`: what the text of that place says about the value.

## Main results

* `Bytecode.instruction_eq_valid_iff`: a record is accepted as the instruction that it denotes.
* `Bytecode.read_eq_ok_iff`: a text is accepted exactly if it spells a stored form.
* `Bytecode.blames_of_program_eq_invalid`: a refused value is blamed at its first offence.
* `Bytecode.read_format`: **the form of bytecode**.
-/

namespace StackMachine

/-- The integer of a number determines it. -/
theorem Number.toInt?_eq_some_iff {x : Number} {v : Int} :
    x.toInt? = some v ↔ x = Number.ofInt v := by
  cases x with
  | finite q =>
      rw [Number.toInt?, Number.ofInt]
      constructor
      · intro h
        split at h
        next hden =>
          obtain rfl := Option.some.inj h
          exact congrArg Number.finite (Rat.ext rfl hden)
        next => cases h
      · intro h
        obtain rfl := Number.finite.inj h
        rfl
  | infinite negative => simp [Number.toInt?, Number.ofInt]
  | nan => simp [Number.toInt?, Number.ofInt]

/-- The name of an operation is looked up in the table. -/
theorem Opcode.ofName?_eq_some_iff {name : String} {op : Opcode} :
    Opcode.ofName? name = some op ↔ name = op.name := by
  constructor
  · intro h
    rw [Opcode.ofName?] at h
    have hname := List.find?_some h
    exact (beq_iff_eq.1 hname).symm
  · rintro rfl
    exact Opcode.ofName?_name op

namespace Bytecode

/-! ### The form -/

/-- The decimal string of an integer: digits after an optional minus sign. -/
inductive DecimalText : List Char → Int → Prop where
  | plain {ds : List Char} {n : Nat} (h : Text.Numeral ds n) : DecimalText ds n
  | minus {ds : List Char} {n : Nat} (h : Text.Numeral ds n) : DecimalText ('-' :: ds) (-n)

/-- The keys of an object are exactly the given ones. -/
def HasKeys (members : List (String × Json)) (keys : List String) : Prop :=
  ∀ key, key ∈ members.map (·.1) ↔ key ∈ keys

/-- A record denotes an instruction: a literal of sixty-four bits by its decimal string, a
label of at most `2 ^ 53 - 1` by its number, or an operation by its name. -/
inductive Denotes : Json → Instr → Prop where
  | literal {members : List (String × Json)} {text : String} {v : Int}
      (hkeys : HasKeys members ["op", "value"])
      (hop : members.lookup "op" = some (.string "LIT"))
      (hvalue : members.lookup "value" = some (.string text))
      (htext : DecimalText text.toList v) (hv : Word.InRange v) :
      Denotes (.object members) (.lit v)
  | label {members : List (String × Json)} {n : Nat} (hkeys : HasKeys members ["op", "id"])
      (hop : members.lookup "op" = some (.string "LABEL"))
      (hid : members.lookup "id" = some (.number (.ofNat n))) (hn : n ≤ Number.greatestSafe) :
      Denotes (.object members) (.label n)
  | operation {members : List (String × Json)} {op : Opcode} (hkeys : HasKeys members ["op"])
      (hop : members.lookup "op" = some (.string op.name)) :
      Denotes (.object members) (.bare op)

/-- A value is the stored form of a program: an object with the version and a list of records
that denote the instructions, one by one. -/
inductive Stores : Json → Program → Prop where
  | mk {members : List (String × Json)} {items : List Json} {program : Program}
      (hversion : members.lookup "version" = some (.string "0.1"))
      (hinstrs : members.lookup "instrs" = some (.array items))
      (hitems : List.Forall₂ Denotes items program) : Stores (.object members) program

/-- The first record of a list that denotes nothing has the given index. -/
def FirstFlaw (items : List Json) (i : Nat) : Prop :=
  (∃ item, items[i]? = some item ∧ ¬∃ ins, Denotes item ins) ∧
    ∀ j < i, ∀ item, items[j]? = some item → ∃ ins, Denotes item ins

/-! ### Records -/

/-- A text is read as a decimal exactly if it is one, with the value that it stands for. -/
theorem decimal?_eq_some_iff {text : String} {v : Int} :
    decimal? text = some v ↔ DecimalText text.toList v := by
  rw [decimal?]
  constructor
  · intro h
    split at h
    next => cases h
    next hplus =>
      have hsigned := Text.integer?_eq_some_iff.1 h
      generalize text.toList = cs at hsigned hplus
      cases hsigned with
      | plain hds => exact .plain hds
      | plus hds => exact absurd rfl (hplus _)
      | minus hds => exact .minus hds
  · intro h
    generalize text.toList = cs at h
    cases h with
    | minus hds => exact Text.integer?_eq_some_iff.2 (.minus hds)
    | plain hds =>
        split
        next => exact absurd (hds.digits.2 '+' List.mem_cons_self) (by decide)
        next => exact Text.integer?_eq_some_iff.2 (.plain hds)

/-- The decimal string of a literal is accepted if it denotes a word. -/
theorem literalText_eq_valid_iff {input : Option Json} {v : Int} :
    literalText.parse input = .valid v ↔
      ∃ text, input = some (.string text) ∧ DecimalText text.toList v ∧ Word.InRange v := by
  simp only [literalText, Schema.transform_eq_valid_iff, Schema.string_eq_valid_iff,
    List.forall_mem_singleton, ← decimal?_eq_some_iff]
  refine exists_congr fun text => ?_
  rw [and_assoc]
  refine and_congr_right fun _ => ?_
  rw [word]
  cases decimal? text with
  | none => simp
  | some w =>
      by_cases hw : Word.InRange w
      · simp only [Option.isSome_some, Option.getD_some, if_pos hw, true_and, Except.ok.injEq,
          Option.some.injEq, iff_self_and]
        rintro rfl
        exact hw
      · simp only [Option.isSome_some, Option.getD_some, if_neg hw, true_and, reduceCtorEq,
          Option.some.injEq, false_iff, not_and]
        rintro rfl
        exact hw

/-- The number of a label is accepted if it is natural and exact. -/
theorem labelNumber_eq_valid_iff {input : Option Json} {x : Number} :
    labelNumber.parse input = .valid x ↔
      ∃ n ≤ Number.greatestSafe, input = some (.number (.ofNat n)) ∧ x = .ofNat n := by
  simp only [labelNumber, Schema.number_eq_valid_iff, List.forall_mem_cons,
    List.not_mem_nil, false_imp_iff, implies_true, and_true, Bool.not_eq_true', ← Bool.not_eq_true]
  constructor
  · rintro ⟨rfl, hint, hsign, hsafe⟩
    obtain ⟨v, hv⟩ := Option.isSome_iff_exists.1 hint
    obtain rfl := Number.toInt?_eq_some_iff.1 hv
    rw [Number.isNegative_ofInt, Int.not_lt] at hsign
    obtain ⟨n, rfl⟩ := Int.eq_ofNat_of_zero_le hsign
    exact ⟨n, Nat.not_lt.1 (mt Number.exceeds_ofNat.2 hsafe), rfl, rfl⟩
  · rintro ⟨n, hn, rfl, rfl⟩
    refine ⟨rfl, ?_, ?_, mt Number.exceeds_ofNat.1 (Nat.not_lt.2 hn)⟩
    · rw [Number.ofNat, Number.toInt?_eq_some_iff.2 rfl]
      rfl
    · exact mt Number.isNegative_ofInt.1 (Int.not_lt.2 (Int.natCast_nonneg n))

/-- Where all that a shape asks for is found, the keys are those of the shape exactly if there
are no others. -/
theorem hasKeys_iff {members : List (String × Json)} {keys : List String}
    (h : ∀ key ∈ keys, ∃ v, members.lookup key = some v) :
    HasKeys members keys ↔ ∀ key ∈ members.map (·.1), key ∈ keys := by
  refine forall_congr' fun key => iff_of_eq (propext ⟨Iff.mp, fun hkey => ⟨hkey, ?_⟩⟩)
  intro hmem
  obtain ⟨v, hv⟩ := h key hmem
  exact (Members.lookup_isSome_iff_mem_keys members key).1 (by rw [hv]; rfl)

/-- A record of a literal denotes it. -/
theorem literalRecord_eq_valid_iff {item : Json} {ins : Instr} :
    literalRecord.parse (some item) = .valid ins ↔
      ∃ members text v, item = .object members ∧ HasKeys members ["op", "value"] ∧
        members.lookup "op" = some (.string "LIT") ∧
        members.lookup "value" = some (.string text) ∧ DecimalText text.toList v ∧
        Word.InRange v ∧ .lit v = ins := by
  simp only [literalRecord, Schema.map_eq_valid_iff, Schema.strict_eq_valid_iff,
    Fields.and_eq_valid_iff, Fields.field_eq_valid_iff, Schema.literal_eq_valid_iff,
    literalText_eq_valid_iff, Option.some.injEq]
  constructor
  · rintro ⟨⟨_, v⟩, ⟨members, rfl, ⟨⟨hop, rfl⟩, text, hvalue, htext, hv⟩, hkeys⟩, rfl⟩
    have hshape : ∀ key ∈ ["op", "value"], ∃ v, members.lookup key = some v := by
      simp [hop, hvalue]
    exact ⟨members, text, v, rfl, (hasKeys_iff hshape).2 hkeys, hop, hvalue, htext, hv, rfl⟩
  · rintro ⟨members, text, v, rfl, hkeys, hop, hvalue, htext, hv, rfl⟩
    exact ⟨⟨"LIT", v⟩, ⟨members, rfl, ⟨⟨hop, rfl⟩, text, hvalue, htext, hv⟩,
      fun key hkey => (hkeys key).1 hkey⟩, rfl⟩

/-- A record of a label denotes it. -/
theorem labelRecord_eq_valid_iff {item : Json} {ins : Instr} :
    labelRecord.parse (some item) = .valid ins ↔
      ∃ members n, item = .object members ∧ HasKeys members ["op", "id"] ∧
        members.lookup "op" = some (.string "LABEL") ∧
        members.lookup "id" = some (.number (.ofNat n)) ∧ n ≤ Number.greatestSafe ∧
        .label n = ins := by
  have hmarking : ∀ n, Instr.marking (.ofNat n) = .label n := fun _ => rfl
  simp only [labelRecord, Schema.map_eq_valid_iff, Schema.strict_eq_valid_iff,
    Fields.and_eq_valid_iff, Fields.field_eq_valid_iff, Schema.literal_eq_valid_iff,
    labelNumber_eq_valid_iff, Option.some.injEq]
  constructor
  · rintro ⟨⟨_, x⟩, ⟨members, rfl, ⟨⟨hop, rfl⟩, n, hn, hid, rfl⟩, hkeys⟩, rfl⟩
    have hshape : ∀ key ∈ ["op", "id"], ∃ v, members.lookup key = some v := by
      simp [hop, hid]
    exact ⟨members, n, rfl, (hasKeys_iff hshape).2 hkeys, hop, hid, hn, rfl⟩
  · rintro ⟨members, n, rfl, hkeys, hop, hid, hn, rfl⟩
    exact ⟨⟨"LABEL", .ofNat n⟩, ⟨members, rfl, ⟨⟨hop, rfl⟩, n, hn, hid, rfl⟩,
      fun key hkey => (hkeys key).1 hkey⟩, rfl⟩

/-- The names of operations are those of the table. -/
theorem mem_names_iff {name : String} :
    name ∈ Opcode.all.map Opcode.name ↔ ∃ op : Opcode, name = op.name := by
  simp only [List.mem_map, eq_comm (a := name)]
  refine exists_congr fun op => and_iff_right ?_
  cases op <;> decide

/-- A record of an operation denotes it. -/
theorem operationRecord_eq_valid_iff {item : Json} {ins : Instr} :
    operationRecord.parse (some item) = .valid ins ↔
      ∃ members op, item = .object members ∧ HasKeys members ["op"] ∧
        members.lookup "op" = some (.string (Opcode.name op)) ∧ .bare op = ins := by
  have hofName : ∀ op : Opcode, Instr.ofName op.name = .bare op := by
    intro op
    rw [Instr.ofName, Opcode.ofName?_name]
  simp only [operationRecord, Schema.map_eq_valid_iff, Schema.strict_eq_valid_iff,
    Fields.field_eq_valid_iff, Schema.enumeration_eq_valid_iff, mem_names_iff, Option.some.injEq]
  constructor
  · rintro ⟨_, ⟨members, rfl, ⟨hop, op, rfl⟩, hkeys⟩, rfl⟩
    have hshape : ∀ key ∈ ["op"], ∃ v, members.lookup key = some v := by
      simp [hop]
    exact ⟨members, op, rfl, (hasKeys_iff hshape).2 hkeys, hop, (hofName op).symm⟩
  · rintro ⟨members, op, rfl, hkeys, hop, rfl⟩
    exact ⟨op.name, ⟨members, rfl, ⟨hop, op, rfl⟩, fun key hkey => (hkeys key).1 hkey⟩, hofName op⟩

/-- What a record is accepted as in one of the three shapes, it denotes. -/
theorem denotes_of_shape {s : Schema Instr} (hs : s ∈ [literalRecord, labelRecord, operationRecord])
    {item : Json} {ins : Instr} (h : s.parse (some item) = .valid ins) : Denotes item ins := by
  simp only [List.mem_cons, List.not_mem_nil, or_false] at hs
  rcases hs with rfl | rfl | rfl
  · obtain ⟨members, text, v, rfl, hkeys, hop, hvalue, htext, hv, rfl⟩ :=
      literalRecord_eq_valid_iff.1 h
    exact .literal hkeys hop hvalue htext hv
  · obtain ⟨members, n, rfl, hkeys, hop, hid, hn, rfl⟩ := labelRecord_eq_valid_iff.1 h
    exact .label hkeys hop hid hn
  · obtain ⟨members, op, rfl, hkeys, hop, rfl⟩ := operationRecord_eq_valid_iff.1 h
    exact .operation hkeys hop

/-- What a record denotes, it is accepted as in one of the three shapes. -/
theorem Denotes.exists_shape {item : Json} {ins : Instr} (h : Denotes item ins) :
    ∃ s ∈ [literalRecord, labelRecord, operationRecord], s.parse (some item) = .valid ins := by
  cases h with
  | literal hkeys hop hvalue htext hv =>
      exact ⟨literalRecord, by simp, literalRecord_eq_valid_iff.2
        ⟨_, _, _, rfl, hkeys, hop, hvalue, htext, hv, rfl⟩⟩
  | label hkeys hop hid hn =>
      exact ⟨labelRecord, by simp, labelRecord_eq_valid_iff.2 ⟨_, _, rfl, hkeys, hop, hid, hn, rfl⟩⟩
  | operation hkeys hop =>
      exact ⟨operationRecord, by simp, operationRecord_eq_valid_iff.2
        ⟨_, _, rfl, hkeys, hop, rfl⟩⟩

/-- A decimal string denotes at most one integer. -/
theorem DecimalText.unique {text : String} {v w : Int} (h : DecimalText text.toList v)
    (h' : DecimalText text.toList w) : v = w :=
  Option.some.inj ((decimal?_eq_some_iff.2 h).symm.trans (decimal?_eq_some_iff.2 h'))

/-- The name of an operation is that of no other operation, and of no other shape. -/
theorem Opcode.name_ne (op : Opcode) :
    op.name ≠ "LIT" ∧ op.name ≠ "LABEL" ∧ ∀ op' : Opcode, op.name = op'.name → op = op' := by
  refine ⟨by cases op <;> decide, by cases op <;> decide, fun op' h => ?_⟩
  exact Option.some.inj ((Opcode.ofName?_name op).symm.trans (Opcode.ofName?_eq_some_iff.2 h))

/-- A record denotes at most one instruction, because the member of the operation tells its
shape. -/
theorem Denotes.unique {item : Json} {ins ins' : Instr} (h : Denotes item ins)
    (h' : Denotes item ins') : ins = ins' := by
  have hname : ∀ {members : List (String × Json)} {key s t : String},
      members.lookup key = some (.string s) → members.lookup key = some (.string t) → s = t :=
    fun hs ht => Json.string.inj (Option.some.inj (hs.symm.trans ht))
  cases h with
  | literal _ hop hvalue htext _ =>
      cases h' with
      | literal _ _ hvalue' htext' _ =>
          obtain rfl := hname hvalue hvalue'
          rw [htext.unique htext']
      | label _ hop' _ _ => exact absurd (hname hop hop') (by decide)
      | operation _ hop' => exact absurd (hname hop' hop) (Opcode.name_ne _).1
  | label _ hop hid _ =>
      cases h' with
      | literal _ hop' _ _ _ => exact absurd (hname hop hop') (by decide)
      | label _ _ hid' _ =>
          cases hid.symm.trans hid'
          rfl
      | operation _ hop' => exact absurd (hname hop' hop) (Opcode.name_ne _).2.1
  | operation _ hop =>
      cases h' with
      | literal _ hop' _ _ _ => exact absurd (hname hop hop') (Opcode.name_ne _).1
      | label _ hop' _ _ => exact absurd (hname hop hop') (Opcode.name_ne _).2.1
      | operation _ hop' => rw [(Opcode.name_ne _).2.2 _ (hname hop hop')]

/-- **A record is accepted as the instruction that it denotes.** -/
theorem instruction_eq_valid_iff {item : Json} {ins : Instr} :
    instruction.parse (some item) = .valid ins ↔ Denotes item ins := by
  constructor
  · intro h
    obtain ⟨s, hs, hvalid⟩ := Schema.exists_of_union_eq_valid h
    exact denotes_of_shape hs hvalid
  · intro h
    obtain ⟨s, hs, hvalid⟩ := h.exists_shape
    exact Schema.union_eq_valid hs hvalid fun t ht ins' ht' => (denotes_of_shape ht ht').unique h

/-- A record with an operand is blamed as a whole, or for the operand: what has the wrong
operation does not come close. -/
theorem path_of_operand {α β : Type} {name key : String} {operand : Schema α} {f : String × α → β}
    (hoperand : ∀ {input fatal issues}, operand.parse input = .invalid fatal issues →
      issues.first.path = []) {input : Option Json} {issues : Issues}
    (h : ((Schema.strict ((Fields.field "op" (.literal name)).and (.field key operand))).map
      f).parse input = .invalid false issues) :
    issues.first.path = [] ∨ issues.first.path = [key] := by
  rw [Schema.map_eq_invalid_iff] at h
  rcases Schema.of_strict_eq_invalid h with ⟨members, inner, -, hfields, hfirst⟩ | hwhole
  · rcases Fields.exists_of_and_eq_invalid hfields with ⟨fatal, _, hop, -, hmild⟩ | hlater
    · obtain ⟨_, hop, -⟩ := Fields.exists_of_field_eq_invalid hop
      have hfatal := (Schema.of_literal_eq_invalid hop).1
      rw [hmild rfl] at hfatal
      cases hfatal
    · obtain ⟨_, -, hvalue⟩ := hlater
      obtain ⟨_, hvalue, hpath⟩ := Fields.exists_of_field_eq_invalid hvalue
      rw [hfirst, hpath, hoperand hvalue]
      exact .inr rfl
  · exact .inl hwhole

/-- A literal is an issue as a whole. -/
theorem path_of_literalText {input : Option Json} {fatal : Bool} {issues : Issues}
    (h : literalText.parse input = .invalid fatal issues) : issues.first.path = [] := by
  rcases Schema.of_transform_eq_invalid h with ⟨_, hstring⟩ | hwhole
  · exact Schema.path_of_string_eq_invalid hstring
  · exact hwhole

/-- A record is blamed as a whole, or for its operand. -/
theorem path_of_instruction_eq_invalid {input : Option Json} {fatal : Bool} {issues : Issues}
    (h : instruction.parse input = .invalid fatal issues) :
    issues.first.path ∈ [[], ["value"], ["id"]] := by
  rcases Schema.of_union_eq_invalid h with ⟨s, hs, hclose⟩ | hwhole
  · simp only [List.mem_cons, List.not_mem_nil, or_false] at hs
    rcases hs with rfl | rfl | rfl
    · rcases path_of_operand path_of_literalText hclose with hpath | hpath <;> simp [hpath]
    · rcases path_of_operand Schema.path_of_number_eq_invalid hclose with hpath | hpath <;>
        simp [hpath]
    · -- a name that is not in the table is fatal, so only stray members are left
      rw [operationRecord, Schema.map_eq_invalid_iff] at hclose
      rcases Schema.of_strict_eq_invalid hclose with ⟨_, _, -, hop, -⟩ | hwhole
      · obtain ⟨_, hop, -⟩ := Fields.exists_of_field_eq_invalid hop
        cases (Schema.of_enumeration_eq_invalid hop).1
      · simp [hwhole]
  · simp [hwhole]

/-! ### Values -/

/-- A value is accepted exactly if it is a stored form. -/
theorem program_eq_valid_iff {v : Json} {contents : Contents} :
    program.parse (some v) = .valid contents ↔
      contents.version = "0.1" ∧ Stores v contents.program := by
  simp only [program, Schema.map_eq_valid_iff, Schema.object_eq_valid_iff, Option.some.injEq,
    Fields.and_eq_valid_iff, Fields.field_eq_valid_iff, Schema.literal_eq_valid_iff,
    Schema.array_eq_valid_iff, instruction_eq_valid_iff]
  constructor
  · rintro ⟨⟨_, p⟩, ⟨members, rfl, ⟨hversion, rfl⟩, items, hinstrs, hitems⟩, rfl⟩
    exact ⟨rfl, .mk hversion hinstrs hitems⟩
  · obtain ⟨_, p⟩ := contents
    rintro ⟨rfl, ⟨hversion, hinstrs, hitems⟩⟩
    exact ⟨⟨"0.1", p⟩, ⟨_, rfl, ⟨hversion, rfl⟩, _, hinstrs, hitems⟩, rfl⟩

/-- The place of the first offence of a value, from the root downwards. -/
inductive Blames : Json → List String → Prop where
  | root {v : Json} (h : ∀ members, v ≠ .object members) : Blames v []
  | version {members : List (String × Json)}
      (h : members.lookup "version" ≠ some (.string "0.1")) :
      Blames (.object members) ["version"]
  | instrs {members : List (String × Json)}
      (hversion : members.lookup "version" = some (.string "0.1"))
      (h : ∀ items, members.lookup "instrs" ≠ some (.array items)) :
      Blames (.object members) ["instrs"]
  /-- Inside a record, at most one of its members is blamed. -/
  | record {members : List (String × Json)} {items : List Json} {i : Nat} {inside : List String}
      (hversion : members.lookup "version" = some (.string "0.1"))
      (hinstrs : members.lookup "instrs" = some (.array items)) (h : FirstFlaw items i)
      (hinside : inside ∈ [[], ["value"], ["id"]]) :
      Blames (.object members) ("instrs" :: toString i :: inside)

/-- **The first record that denotes nothing is blamed**, by its index. -/
theorem exists_of_items_eq_invalid {items : List Json} {fatal : Bool} {issues : Issues}
    (h : instruction.items 0 items = .invalid fatal issues) :
    ∃ i inside, FirstFlaw items i ∧ inside ∈ [[], ["value"], ["id"]] ∧
      issues.first.path = toString i :: inside := by
  obtain ⟨i, item, fatal', inner, hget, hrefused, hpath, hbefore⟩ :=
    Schema.exists_of_items_eq_invalid h
  rw [Nat.zero_add] at hpath
  refine ⟨i, inner.first.path, ⟨⟨item, hget, ?_⟩, ?_⟩, path_of_instruction_eq_invalid hrefused,
    hpath⟩
  · rintro ⟨ins, hins⟩
    rw [instruction_eq_valid_iff.2 hins] at hrefused
    cases hrefused
  · intro j hj item' hget'
    obtain ⟨ins, hins⟩ := hbefore j hj item' hget'
    exact ⟨ins, instruction_eq_valid_iff.1 hins⟩

/-- **A refused value is blamed at its first offence.** -/
theorem blames_of_program_eq_invalid {v : Json} {fatal : Bool} {issues : Issues}
    (h : program.parse (some v) = .invalid fatal issues) : Blames v issues.first.path := by
  rw [program, Schema.map_eq_invalid_iff] at h
  rcases Schema.of_object_eq_invalid h with ⟨members, hv, hfields⟩ | ⟨hroot, hpath⟩
  · obtain rfl := Option.some.inj hv
    rcases Fields.exists_of_and_eq_invalid hfields with ⟨_, _, hversion, hfirst, -⟩ | hinstrs
    · obtain ⟨inner, hrefused, hpath⟩ := Fields.exists_of_field_eq_invalid hversion
      rw [hfirst, hpath, (Schema.of_literal_eq_invalid hrefused).2]
      refine .version fun hlookup => ?_
      have haccepted : (Schema.literal version).parse (members.lookup "version") = .valid version :=
        Schema.literal_eq_valid_iff.2 ⟨hlookup, rfl⟩
      rw [haccepted] at hrefused
      cases hrefused
    · obtain ⟨_, hversion, hinstrs⟩ := hinstrs
      have hversion := (Schema.literal_eq_valid_iff.1 (Fields.field_eq_valid_iff.1 hversion)).1
      obtain ⟨inner, hrefused, hpath⟩ := Fields.exists_of_field_eq_invalid hinstrs
      rcases Schema.of_array_eq_invalid hrefused with ⟨items, hlist, hitems⟩ | ⟨hlist, hwhole⟩
      · obtain ⟨i, inside, hflaw, hinside, hplace⟩ := exists_of_items_eq_invalid hitems
        rw [hpath, hplace]
        exact .record hversion hlist hflaw hinside
      · rw [hpath, hwhole]
        exact .instrs hversion hlist
  · rw [hpath]
    exact .root fun members hv => hroot members (congrArg some hv)

/-! ### The text of a place -/

/-- The components of the text of a place. -/
def components (path : String) : List String := (path.toList.splitOn '.').map String.ofList

/-- The components of a joined text are its parts, if there are any and none holds a point. -/
theorem components_pathText {parts : List String} (hne : parts ≠ [])
    (h : ∀ part ∈ parts, '.' ∉ part.toList) : components (Offence.pathText parts) = parts := by
  have htext : Offence.pathText parts = ".".intercalate parts := by
    cases parts with
    | nil => exact absurd rfl hne
    | cons part parts => rfl
  have hpoint : ".".toList = ['.'] := rfl
  rw [components, htext, String.toList_intercalate, hpoint, List.splitOn_intercalate]
  · simp
  · simpa using h
  · simpa using hne

/-- What the text of a place says about a value: it is that of the root exactly if the root is
no object; else that of the version exactly if the version is another one; else that of the
records exactly if they are missing or no list; and else its first two components lead to the
first record that denotes nothing. -/
structure Locates (path : String) (v : Json) : Prop where
  root : path = "(root)" ↔ ∀ members, v ≠ .object members
  version : ∀ {members}, v = .object members →
    (path = "version" ↔ members.lookup "version" ≠ some (.string "0.1"))
  instrs : ∀ {members}, v = .object members →
    members.lookup "version" = some (.string "0.1") →
      (path = "instrs" ↔ ∀ items, members.lookup "instrs" ≠ some (.array items))
  record : ∀ {members items}, v = .object members →
    members.lookup "version" = some (.string "0.1") →
      members.lookup "instrs" = some (.array items) →
        ∃ i, FirstFlaw items i ∧ (components path).take 2 = ["instrs", toString i]

/-- A record lies two components deep, so its place is mistaken for none above it. -/
theorem components_record {i : Nat} {inside : List String}
    (h : inside ∈ [[], ["value"], ["id"]]) :
    components (Offence.pathText ("instrs" :: toString i :: inside)) =
      "instrs" :: toString i :: inside := by
  refine components_pathText (List.cons_ne_nil _ _) ?_
  have hindex : '.' ∉ (toString i).toList := by
    intro hmem
    rw [Nat.toString_eq_repr, Nat.toList_repr] at hmem
    cases Text.isDigit_of_mem_toDigits hmem
  have hinside : ∀ part ∈ inside, '.' ∉ part.toList := by
    simp only [List.mem_cons, List.not_mem_nil, or_false] at h
    rcases h with rfl | rfl | rfl <;> decide
  exact List.forall_mem_cons.2 ⟨by decide, List.forall_mem_cons.2 ⟨hindex, hinside⟩⟩

/-- What blames a place locates it in the value. -/
theorem Blames.locates {v : Json} {parts : List String} (h : Blames v parts) :
    Locates (Offence.pathText parts) v := by
  cases h with
  | root h =>
      refine ⟨iff_of_true rfl h, ?_, ?_, ?_⟩
      · exact fun heq => absurd heq (h _)
      · exact fun heq => absurd heq (h _)
      · exact fun heq => absurd heq (h _)
  | @version members h =>
      refine ⟨iff_of_false (by decide) fun hroot => hroot members rfl, ?_, ?_, ?_⟩
      · rintro _ ⟨⟩
        exact iff_of_true rfl h
      · rintro _ ⟨⟩ hversion
        exact absurd hversion h
      · rintro _ _ ⟨⟩ hversion
        exact absurd hversion h
  | @instrs members hversion h =>
      refine ⟨iff_of_false (by decide) fun hroot => hroot members rfl, ?_, ?_, ?_⟩
      · rintro _ ⟨⟩
        exact iff_of_false (by decide) fun hwrong => hwrong hversion
      · rintro _ ⟨⟩ _
        exact iff_of_true rfl h
      · rintro _ items ⟨⟩ _ hinstrs
        exact absurd hinstrs (h items)
  -- The place of a record has two components at least, and those above it have one.
  | @record members items i inside hversion hinstrs h hinside =>
      have hparts := components_record (i := i) hinside
      have hne : ∀ text, components text = [text] →
          Offence.pathText ("instrs" :: toString i :: inside) ≠ text := by
        rintro text htext rfl
        rw [hparts] at htext
        exact absurd (congrArg List.length htext) (by simp)
      refine ⟨iff_of_false (hne _ (by decide)) fun hroot => hroot members rfl, ?_, ?_, ?_⟩
      · rintro _ ⟨⟩
        exact iff_of_false (hne _ (by decide)) fun hwrong => hwrong hversion
      · rintro _ ⟨⟩ _
        exact iff_of_false (hne _ (by decide)) fun hmissing => hmissing items hinstrs
      · rintro _ items' ⟨⟩ _ hitems
        cases hinstrs.symm.trans hitems
        exact ⟨i, h, by rw [hparts]; rfl⟩

/-! ### Texts -/

/-- A text is accepted exactly if it spells a stored form. -/
theorem read_eq_ok_iff {text : String} {contents : Contents} :
    read text = .ok contents ↔
      contents.version = "0.1" ∧ ∃ v, Json.Element text.toList v ∧ Stores v contents.program := by
  rw [read]
  constructor
  · intro h
    split at h
    next => cases h
    next v hv =>
      split at h
      next accepted hvalid =>
        obtain rfl := Except.ok.inj h
        obtain ⟨hversion, hstores⟩ := program_eq_valid_iff.1 hvalid
        exact ⟨hversion, v, Json.parse?_eq_some_iff.1 hv, hstores⟩
      next => cases h
  · rintro ⟨hversion, v, hv, hstores⟩
    simp only [Json.parse?_eq_some_iff.2 hv, program_eq_valid_iff.2 ⟨hversion, hstores⟩]

-- neither the order of members nor a repeated key nor a stranger at the root matters
example :
    read ("\x7b\"x\": 1, \"instrs\": [\x7b\"value\": \"-007\", \"op\": \"ADD\", " ++
      "\"op\": \"LIT\"\x7d], \"version\": \"0.1\"\x7d") = .ok ⟨"0.1", [.lit (-7)]⟩ := by
  decide +kernel

/-- A text is malformed exactly if it spells no value. -/
theorem read_eq_malformed_iff {text : String} :
    read text = .error .malformed ↔ ¬∃ v, Json.Element text.toList v := by
  rw [read]
  cases hparse : Json.parse? text with
  | none =>
      refine iff_of_true rfl ?_
      rintro ⟨v, hv⟩
      rw [Json.parse?_eq_some_iff.2 hv] at hparse
      cases hparse
  | some v =>
      refine iff_of_false ?_ (not_not_intro ⟨v, Json.parse?_eq_some_iff.1 hparse⟩)
      intro h
      dsimp only at h
      split at h <;> cases h

/-- A text that spells a value and is refused is located there. -/
theorem exists_locates_of_error {text : String} {v : Json} (hv : Json.Element text.toList v)
    {o : Offence} (h : read text = .error o) :
    ∃ path, (∀ complaint, (o.diagnostic complaint).details = [("path", .text path)]) ∧
      Locates path v := by
  simp only [read, Json.parse?_eq_some_iff.2 hv] at h
  split at h
  next => cases h
  next fatal issues hrefused =>
    obtain rfl := Except.error.inj h
    exact ⟨Offence.pathText issues.first.path, fun _ => rfl,
      (blames_of_program_eq_invalid hrefused).locates⟩

/-- Every offence is diagnosed under the code of bytecode. -/
theorem Offence.code_diagnostic (o : Offence) (complaint : String) :
    (o.diagnostic complaint).code = .bytecode := by
  cases o <;> rfl

/-- **The form of bytecode.** A text is accepted exactly if it spells a stored form, and then
holds its version and the instructions that its records denote, one by one. Every other text
is refused under the code of bytecode: without a place if it spells no value, and otherwise
with the place of the first offence. Of the members of an object only the keys count and the
last value under each of them, wherever it stands. -/
theorem read_format :
    (∀ text contents, read text = .ok contents ↔
      contents.version = "0.1" ∧
        ∃ v, Json.Element text.toList v ∧ Stores v contents.program) ∧
    (∀ text, (∃ o, read text = .error o ∧
        ∀ complaint, (o.diagnostic complaint).code.name = "E_BYTECODE") ↔
      ¬∃ v program, Json.Element text.toList v ∧ Stores v program) ∧
    (∀ text, read text = .error .malformed ↔ ¬∃ v, Json.Element text.toList v) ∧
    (∀ complaint, Offence.malformed.diagnostic complaint =
      ⟨.bytecode, "invalid JSON: " ++ complaint, []⟩) ∧
    (∀ text v o, Json.Element text.toList v → read text = .error o →
      ∃ path, (∀ complaint, (o.diagnostic complaint).details = [("path", .text path)]) ∧
        Locates path v) ∧
    (∀ (pairs : List (String × Json)) key,
      (Members.arrange pairs).lookup key = pairs.reverse.lookup key) ∧
    (∀ (pairs : List (String × Json)) key,
      key ∈ (Members.arrange pairs).map (·.1) ↔ key ∈ pairs.map (·.1)) := by
  refine ⟨fun _ _ => read_eq_ok_iff, ?_, fun _ => read_eq_malformed_iff, fun _ => rfl,
    fun _ _ _ hv h => exists_locates_of_error hv h, Members.lookup_arrange,
    Members.mem_keys_arrange⟩
  intro text
  constructor
  · rintro ⟨o, ho, -⟩ ⟨v, program, hv, hstores⟩
    have hok : read text = .ok ⟨"0.1", program⟩ := read_eq_ok_iff.2 ⟨rfl, v, hv, hstores⟩
    rw [hok] at ho
    cases ho
  · intro hnone
    cases hread : read text with
    | error o => exact ⟨o, rfl, fun complaint => by rw [o.code_diagnostic]; rfl⟩
    | ok contents =>
        obtain ⟨-, v, hv, hstores⟩ := read_eq_ok_iff.1 hread
        exact absurd ⟨v, contents.program, hv, hstores⟩ hnone

/-- The number of a label may be written with a fraction, as long as it is whole: in a list of
the labels `1.0` and `1.5` the second one is located. -/
theorem read_format_fraction :
    let o : Offence := .misfit ⟨["instrs", "1", "id"], "Expected integer, received float"⟩
    ∃ text v, Json.Element text.toList v ∧ read text = .error o ∧
      ∃ path, (∀ complaint, (o.diagnostic complaint).details = [("path", .text path)]) ∧
        Locates path v := by
  intro o
  obtain ⟨text, htext⟩ : ∃ text, text =
      "\x7b\"instrs\": [\x7b\"id\": 1.0, \"op\": \"LABEL\"\x7d, " ++
        "\x7b\"op\": \"LABEL\", \"id\": 1.5\x7d], \"version\": \"0.1\"\x7d" := ⟨_, rfl⟩
  have hsome : (Json.parse? text).isSome = true := by
    rw [htext]
    decide +kernel
  have hread : read text = .error o := by
    rw [htext]
    decide +kernel
  obtain ⟨v, hv⟩ := Option.isSome_iff_exists.1 hsome
  have hspelled : Json.Element text.toList v := Json.parse?_eq_some_iff.1 hv
  exact ⟨text, v, hspelled, hread, read_format.2.2.2.2.1 text v _ hspelled hread⟩

end Bytecode

end StackMachine
