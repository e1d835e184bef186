import StackMachine.Command
import StackMachine.Proofs.Bytecode
import StackMachine.Proofs.Format
import StackMachine.Proofs.Utf8
import StackMachine.Proofs.WellFormed

/-!
# The two stored forms hold the same programs

A program is stored as source text or as bytecode. Each form has a reader that checks what it
reads and a writer, and the two readers are independent of each other. Both accept exactly the
well-formed programs: what is read is well formed, and a well-formed program is read back from
what is written of it. Hence a program can be taken from either form into the other and back.

The commands add a line end to what they write. Neither reader minds blanks at the end of a
text, so the files that hold the output of the compiling command load again.

## Main results

* `Program.exists_listing` and `Bytecode.read_write_append`: what is written of a well-formed
  program reads back, also with blanks behind it.
* `stored_forms_agree`: **the two forms hold the same programs.**
* `Command.stored_forms_faithful`: **a file may be replaced by what the compiling command writes
  of it**, in either form.
-/

namespace StackMachine

/-! ### Blanks at the end of a text -/

/-- Blanks at the end of a text add no word. -/
theorem Text.words_append_blanks (xs : List Char) {blanks : List Char}
    (h : ∀ c ∈ blanks, Text.isBlank c = true) : Text.words (xs ++ blanks) = Text.words xs := by
  by_cases hnil : blanks = []
  · rw [hnil, List.append_nil]
  · simpa using Text.words_append_of_blanks hnil h xs []

/-- **A listing compiles back**, also with blanks behind it. -/
theorem Program.exists_listing {p : Program} (h : p.WellFormed) :
    ∃ text, p.listing = .ok text ∧ ∀ blanks : String,
      (∀ c ∈ blanks.toList, Text.isBlank c = true) → Source.compile (text ++ blanks) = .ok p := by
  -- Each instruction has a text that is a single word and stands for it.
  choose! text htoken hword hstands using fun (ins : Instr) (hins : ins.WellFormed) =>
    Instr.exists_token hins
  refine ⟨_, listing_eq_ok fun ins hins => htoken ins (h ins hins), ?_⟩
  intro blanks hblanks
  rw [Source.compile_eq_ok_iff, String.toList_append, Text.words_append_blanks _ hblanks,
    words_listing fun ins hins => hword ins (h ins hins), List.forall₂_map_left_iff,
    List.forall₂_same]
  intro ins hins
  rw [String.ofList_toList]
  exact hstands ins (h ins hins)

/-- Blanks at the end of a text do not change the value that it spells. -/
theorem Json.Element.append_blanks {cs blanks : List Char} {v : Json} (h : Element cs v)
    (hblanks : Blanks blanks) : Element (cs ++ blanks) v := by
  cases h with
  | @mk before cs after v hbefore hv hafter =>
      rw [List.append_assoc, List.append_assoc]
      refine .mk hbefore hv ?_
      intro c hc
      rcases List.mem_append.1 hc with hc | hc
      · exact hafter c hc
      · exact hblanks c hc

/-- **Bytecode reads back**, also with blanks behind it. -/
theorem Bytecode.read_write_append {p : Program} (h : p.WellFormed) {blanks : String}
    (hblanks : Json.Blanks blanks.toList) : read (write p ++ blanks) = .ok ⟨"0.1", p⟩ := by
  refine read_eq_ok_iff.2 ⟨rfl, _, ?_, stores_ofRecords h⟩
  rw [String.toList_append]
  exact (element_write h).append_blanks hblanks

/-! ### Programs of either form -/

/-- A number that is written as a negative zero, with any exponent, is zero. -/
theorem Number.ofDecimal_negative_zero (e : Int) : Number.ofDecimal true 0 e = .ofNat 0 := by
  rw [Number.ofDecimal, if_pos (.inl rfl)]
  rfl

/-- **The two forms hold the same programs**: a program is compiled from some source text, and
read from some bytecode text, exactly if it is well formed. Hence what is compiled can be
written as bytecode and read, and what is read can be listed and compiled. The negative zero of
a label is read as zero. -/
theorem stored_forms_agree :
    (∀ p : Program, (∃ source, Source.compile source = .ok p) ↔ p.WellFormed) ∧
    (∀ p : Program, (∃ text contents, Bytecode.read text = .ok contents ∧ contents.program = p) ↔
      p.WellFormed) ∧
    (∀ source p, Source.compile source = .ok p →
      Bytecode.read (Bytecode.write p) = .ok ⟨"0.1", p⟩) ∧
    (∀ text contents, Bytecode.read text = .ok contents →
      ∃ listing, contents.program.listing = .ok listing ∧
        Source.compile listing = .ok contents.program) ∧
    (∀ e, Bytecode.instruction.parse (some (.object [("op", .string "LABEL"),
      ("id", .number (Number.ofDecimal true 0 e))])) = .valid (.label 0)) := by
  have hlisting : ∀ p : Program, p.WellFormed →
      ∃ listing, p.listing = .ok listing ∧ Source.compile listing = .ok p := by
    intro p hp
    obtain ⟨listing, hlisting, hcompile⟩ := Program.exists_listing hp
    have hplain := hcompile "" (List.forall_mem_nil _)
    rw [String.append_empty] at hplain
    exact ⟨listing, hlisting, hplain⟩
  have hwrite : ∀ p : Program, p.WellFormed →
      Bytecode.read (Bytecode.write p) = .ok ⟨"0.1", p⟩ := by
    intro p hp
    have hplain : Bytecode.read (Bytecode.write p ++ "") = .ok ⟨"0.1", p⟩ :=
      Bytecode.read_write_append hp (List.forall_mem_nil _)
    rwa [String.append_empty] at hplain
  refine ⟨?_, ?_, ?_, ?_, ?_⟩
  · intro p
    constructor
    · rintro ⟨source, hsource⟩
      exact Source.wellFormed_of_compile hsource
    · intro hp
      obtain ⟨listing, -, hcompile⟩ := hlisting p hp
      exact ⟨listing, hcompile⟩
  · intro p
    constructor
    · rintro ⟨text, contents, htext, rfl⟩
      exact Bytecode.wellFormed_of_read htext
    · intro hp
      exact ⟨_, _, hwrite p hp, rfl⟩
  · intro source p hsource
    exact hwrite p (Source.wellFormed_of_compile hsource)
  · intro text contents htext
    exact hlisting contents.program (Bytecode.wellFormed_of_read htext)
  · intro e
    rw [Number.ofDecimal_negative_zero]
    have hzero : (Instr.label 0).WellFormed := Nat.zero_le _
    exact Bytecode.instruction_eq_valid_iff.2 (Bytecode.denotes_record hzero)

/-- The two forms at other spellings than the written ones: signs and leading zeros in the
source text, and a strange order of members in the bytecode. -/
theorem stored_forms_agree_spellings :
    let p : Program := [.lit 5, .lit 0, .label 7, .bare .cjmp]
    let text := "\x7b\"instrs\": [\x7b\"id\": 1e0, \"op\": \"LABEL\"\x7d], \"version\": \"0.1\"\x7d"
    (Source.compile "+5 -0\t007: cjmp" = .ok p ∧
      Bytecode.read (Bytecode.write p) = .ok ⟨"0.1", p⟩) ∧
    Bytecode.read text = .ok ⟨"0.1", [.label 1]⟩ ∧
      ∃ listing, Program.listing [.label 1] = .ok listing ∧
        Source.compile listing = .ok [.label 1] := by
  intro p text
  have hcompile : Source.compile "+5 -0\t007: cjmp" = .ok p := by decide +kernel
  have hread : Bytecode.read text = .ok ⟨"0.1", [.label 1]⟩ := by decide +kernel
  exact ⟨⟨hcompile, stored_forms_agree.2.2.1 _ p hcompile⟩, hread,
    stored_forms_agree.2.2.2.1 text _ hread⟩

/-! ### Files -/

variable {complaint : String → String}

/-- A file that holds a text is read as that text. -/
theorem loadProgram_encode (complaint : String → String) (path text : String) :
    loadProgram complaint path (.ok (Utf8.encode text)) =
      (parseProgram complaint path text).mapError .diagnosed := by
  rw [loadProgram, Utf8.decode_encode]

/-- A file that holds a text holds a program exactly if the text does. -/
theorem loadProgram_encode_eq_ok_iff {path text : String} {p : Program} :
    loadProgram complaint path (.ok (Utf8.encode text)) = .ok p ↔
      parseProgram complaint path text = .ok p := by
  rw [loadProgram_encode]
  cases parseProgram complaint path text with
  | ok q => simp only [Except.mapError, Except.ok.injEq]
  | error d => simp only [Except.mapError, reduceCtorEq]

/-- A file of source text holds the program that the text compiles to. -/
theorem loadProgram_of_compile {path text : String} {p : Program}
    (hpath : isBytecodePath path = false) (htext : Source.compile text = .ok p) :
    loadProgram complaint path (.ok (Utf8.encode text)) = .ok p := by
  rw [loadProgram_encode_eq_ok_iff, parseProgram, hpath, htext]
  rfl

/-- Texts hold well-formed programs. -/
theorem wellFormed_of_parseProgram {path text : String} {p : Program}
    (h : parseProgram complaint path text = .ok p) : p.WellFormed := by
  rw [parseProgram] at h
  split at h
  · cases hread : Bytecode.read text with
    | ok contents =>
        rw [hread] at h
        obtain rfl := Except.ok.inj h
        exact Bytecode.wellFormed_of_read hread
    | error o =>
        rw [hread] at h
        cases h
  · cases hcompile : Source.compile text with
    | ok q =>
        rw [hcompile] at h
        obtain rfl := Except.ok.inj h
        exact Source.wellFormed_of_compile hcompile
    | error b =>
        rw [hcompile] at h
        cases h

/-- **Files hold well-formed programs.** -/
theorem wellFormed_of_loadProgram {path : String} {contents : Except ReadFailure (List UInt8)}
    {p : Program} (h : loadProgram complaint path contents = .ok p) : p.WellFormed := by
  cases contents with
  | error reason => cases h
  | ok bytes =>
      cases hparse : parseProgram complaint path (Utf8.decode bytes) with
      | ok q =>
          rw [loadProgram, hparse] at h
          obtain rfl := Except.ok.inj h
          exact wellFormed_of_parseProgram hparse
      | error d =>
          rw [loadProgram, hparse] at h
          cases h

namespace Command

/-- A command that runs a file runs the program that the file holds. The environment does not
matter, because the command says itself whether to trace. -/
theorem run_eq {path : String} {contents : Except ReadFailure (List UInt8)} {p : Program}
    (h : loadProgram complaint path contents = .ok p) (options : RunOptions)
    (env env' : Environment) (b : Nat) :
    run complaint path contents options env b = runProgram options env' b p := by
  rw [run, h]
  rfl

/-- What the compiling command writes of a well-formed program, in either form. A file that
holds it loads as that program. -/
theorem exists_stored {p : Program} (h : p.WellFormed) :
    ∃ text : Bool → String,
      (∀ path contents bytecode, loadProgram complaint path contents = .ok p →
        compile complaint path contents bytecode = ⟨[⟨.out, text bytecode⟩], 0⟩) ∧
      ∀ path,
        loadProgram complaint path (.ok (Utf8.encode (text (isBytecodePath path)))) = .ok p := by
  obtain ⟨listing, hlisting, hcompile⟩ := Program.exists_listing h
  refine ⟨fun bytecode => (if bytecode then Bytecode.write p else listing) ++ "\n", ?_, ?_⟩
  · intro path contents bytecode hload
    rw [compile, hload]
    cases bytecode with
    | true => rfl
    | false =>
        simp only [hlisting]
        rfl
  · intro path
    cases hpath : isBytecodePath path with
    | true =>
        have hread : Bytecode.read (Bytecode.write p ++ "\n") = .ok ⟨"0.1", p⟩ :=
          Bytecode.read_write_append h (List.forall_mem_singleton.2 rfl)
        rw [loadProgram_encode_eq_ok_iff, parseProgram, hpath]
        simp only [if_true, hread]
        rfl
    | false => exact loadProgram_of_compile hpath (hcompile "\n" (List.forall_mem_singleton.2 rfl))

/-- **The stored forms are faithful.** Take a file that holds a program. The compiling command
writes one text of it in each form, and nothing else. A file of either form that holds that text
holds the same program; so the compiling command writes the same two texts of it again, and the
running command does on it what it does on the first file, whatever the options, the
environment and the budget. -/
theorem stored_forms_faithful (complaint : String → String) (path : String)
    (contents : Except ReadFailure (List UInt8)) (p : Program)
    (h : loadProgram complaint path contents = .ok p) :
    ∃ text : Bool → String,
      (∀ bytecode, compile complaint path contents bytecode = ⟨[⟨.out, text bytecode⟩], 0⟩) ∧
      ∀ path',
        let stored : Except ReadFailure (List UInt8) :=
          .ok (Utf8.encode (text (isBytecodePath path')))
        loadProgram complaint path' stored = .ok p ∧
        (∀ bytecode, compile complaint path' stored bytecode = ⟨[⟨.out, text bytecode⟩], 0⟩) ∧
        ∀ options env env' b,
          run complaint path' stored options env' b =
            run complaint path contents options env b := by
  obtain ⟨text, hcompile, hload⟩ := exists_stored (wellFormed_of_loadProgram h)
  refine ⟨text, fun bytecode => hcompile path contents bytecode h, ?_⟩
  intro path' stored
  refine ⟨hload path', fun bytecode => hcompile path' _ bytecode (hload path'), ?_⟩
  intro options env env' b
  rw [run_eq (hload path') options env' env b, run_eq h options env env b]

/-- A source file with signs, leading zeros and a tab, and the bytecode file that replaces it. -/
theorem stored_forms_faithful_spelled :
    let complaint : String → String := fun _ => "Unexpected end of JSON input"
    let contents : Except ReadFailure (List UInt8) := .ok (Utf8.encode "+5 -0\t007: cjmp")
    let p : Program := [.lit 5, .lit 0, .label 7, .bare .cjmp]
    loadProgram complaint "loop.sm" contents = .ok p ∧
      ∃ text, compile complaint "loop.sm" contents true = ⟨[⟨.out, text⟩], 0⟩ ∧
        loadProgram complaint "loop.JSON" (.ok (Utf8.encode text)) = .ok p ∧
        compile complaint "loop.JSON" (.ok (Utf8.encode text)) true = ⟨[⟨.out, text⟩], 0⟩ ∧
        ∀ options env env' b, run complaint "loop.JSON" (.ok (Utf8.encode text)) options env' b =
          run complaint "loop.sm" contents options env b := by
  intro complaint contents p
  have hload : loadProgram complaint "loop.sm" contents = .ok p :=
    loadProgram_of_compile (by decide +kernel) (by decide +kernel)
  have hpath : isBytecodePath "loop.JSON" = true := by decide +kernel
  obtain ⟨text, hcompile, hstored⟩ := stored_forms_faithful complaint "loop.sm" contents p hload
  obtain ⟨hloads, hagain, hrun⟩ := hstored "loop.JSON"
  rw [hpath] at hloads hagain hrun
  exact ⟨hload, text true, hcompile true, hloads, hagain true, hrun⟩

end Command

end StackMachine
