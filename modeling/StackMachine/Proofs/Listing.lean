import Mathlib.Data.List.Forall2
import Mathlib.Data.List.SplitBy
import Mathlib.Tactic.Choose
import StackMachine.Proofs.Decimal
import StackMachine.Proofs.Words
import StackMachine.Source.Compile
import StackMachine.Source.Listing

/-!
# Listings compile back

A listing is the source text of a program. Each instruction that a stored form can hold is
listed by a word that stands for exactly that instruction, and the listing separates the
words by single blanks, so the compiler finds the same words and hence the same program.

A listing is built by a loop that opens lines as it goes. What it leaves in the end are the
instructions in groups that share a line, which is the invariant of the loop.

## Main definitions

* `Instr.sharesLine`: two neighbouring instructions are listed on one line.
* `Lines.Holds`: the loop invariant of listings.

## Main results

* `Source.compile_eq_ok_iff`: compilation succeeds with a program exactly if the words of
  the source stand, one by one, for its instructions.
* `Instr.exists_token`: a well-formed instruction has a word, and that word stands for it.
* `Source.compile_append_space`: sources that are joined by a space compile one after the other.
* `Program.listing_eq_ok`: a listing has one line for each group of instructions.
* `Program.words_listing`: the words of a listing are the words of the instructions.
* `Program.compile_listing`: **the round trip**, also with a line end after the listing.
-/

namespace StackMachine

/-! ### Compilation, word by word -/

/-- A sequence of two computations succeeds exactly if both do. -/
theorem bind_eq_ok_iff {ε α β : Type} {x : Except ε α} {f : α → Except ε β} {b : β} :
    x >>= f = .ok b ↔ ∃ a, x = .ok a ∧ f a = .ok b := by
  cases x <;> simp [bind, Except.bind]

/-- A traversal succeeds exactly if it succeeds at every element. -/
theorem mapM_eq_ok_iff {ε α β : Type} {f : α → Except ε β} {l : List α} {l' : List β} :
    l.mapM f = .ok l' ↔ List.Forall₂ (fun a b => f a = .ok b) l l' := by
  induction l generalizing l' with
  | nil =>
      rw [List.mapM_nil, List.forall₂_nil_left_iff]
      exact ⟨fun h => (Except.ok.inj h).symm, fun h => h ▸ rfl⟩
  | cons a l ih =>
      rw [List.mapM_cons, bind_eq_ok_iff, List.forall₂_cons_left_iff]
      constructor
      · rintro ⟨b, hb, h⟩
        obtain ⟨bs, hbs, heq⟩ := bind_eq_ok_iff.1 h
        exact ⟨b, bs, hb, ih.1 hbs, (Except.ok.inj heq).symm⟩
      · rintro ⟨b, bs, hb, hbs, rfl⟩
        exact ⟨b, hb, bind_eq_ok_iff.2 ⟨bs, ih.2 hbs, rfl⟩⟩

/-- A token compiles exactly if its text stands for an instruction. -/
theorem Token.compile_eq_ok_iff {t : Token} {ins : Instr} :
    t.compile = .ok ins ↔ Instr.ofToken? t.text = some ins := by
  rw [Token.compile, Instr.ofTokenOr]
  cases Instr.ofToken? t.text <;> simp

/-- **Compilation, word by word.** -/
theorem Source.compile_eq_ok_iff {source : String} {p : Program} :
    Source.compile source = .ok p ↔
      List.Forall₂ (fun w ins => Instr.ofToken? (String.ofList w) = some ins)
        (Text.words source.toList) p := by
  rw [Source.compile, mapM_eq_ok_iff]
  simp only [Token.compile_eq_ok_iff]
  rw [← List.forall₂_map_left_iff (R := fun s ins => Instr.ofToken? s = some ins),
    Source.map_text_tokens, List.forall₂_map_left_iff]

/-! ### The words of instructions -/

/-- The word of an operation is a word of source text. -/
theorem Opcode.isWord_token (op : Opcode) : Text.IsWord op.token.toList := by
  have hblanks : (op.token.toList.any Text.isBlank) = false := by
    cases op <;> rfl
  refine ⟨by cases op <;> decide, ?_⟩
  intro c hc
  exact Bool.eq_false_iff.2 (List.any_eq_false.1 hblanks c hc)

/-- No word with a digit in it stands for an operation. -/
theorem Opcode.ofToken?_eq_none {s : String} {c : Char} (hc : c ∈ s.toList)
    (hd : c.isDigit = true) : Opcode.ofToken? s = none := by
  refine List.find?_eq_none.2 ?_
  intro op _ htoken
  have hnone : (op.token.toList.any Char.isDigit) = false := by
    cases op <;> rfl
  rw [beq_iff_eq.1 htoken] at hnone
  exact List.any_eq_false.1 hnone c hc hd

/-- A digit is no blank. -/
theorem Text.isBlank_of_isDigit {c : Char} (h : c.isDigit = true) : Text.isBlank c = false := by
  have hcode : 48 ≤ c.toNat ∧ c.toNat ≤ 57 := by
    simpa [Char.isDigit, UInt32.le_iff_toNat_le] using h
  simp only [Text.isBlank, Bool.or_eq_false_iff, Bool.and_eq_false_iff, beq_eq_false_iff_ne,
    decide_eq_false_iff_not]
  omega

/-- The digits of a natural number are no blanks. -/
theorem Text.isBlank_of_mem_toDigits {c : Char} {n : Nat} (h : c ∈ Nat.toDigits 10 n) :
    Text.isBlank c = false :=
  Text.isBlank_of_isDigit (Text.isDigit_of_mem_toDigits h)

/-- The text of an integer is a word. -/
theorem Text.isWord_toString (v : Int) : Text.IsWord (toString v).toList := by
  rw [Text.toList_toString]
  split
  · exact ⟨Nat.toDigits_ne_nil, fun c hc => Text.isBlank_of_mem_toDigits hc⟩
  · refine ⟨List.cons_ne_nil _ _, ?_⟩
    intro c hc
    rcases List.mem_cons.1 hc with rfl | hc
    · rfl
    · exact Text.isBlank_of_mem_toDigits hc

/-- The text of an integer has a digit in it. -/
theorem Text.exists_digit_mem_toString (v : Int) :
    ∃ c ∈ (toString v).toList, c.isDigit = true := by
  rw [Text.toList_toString]
  split
  · obtain ⟨d, ds, hdigits, hd⟩ := Text.exists_toDigits_eq_cons v.toNat
    exact ⟨d, by simp [hdigits], hd⟩
  · obtain ⟨d, ds, hdigits, hd⟩ := Text.exists_toDigits_eq_cons (-v).toNat
    exact ⟨d, by simp [hdigits], hd⟩

/-- A text with a character in it that is neither a digit nor a sign is no integer. -/
theorem Text.integer?_eq_none {cs : List Char} {c : Char} (hc : c ∈ cs)
    (hd : c.isDigit = false) (hminus : c ≠ '-') (hplus : c ≠ '+') :
    Text.integer? cs = none := by
  have hnone : ∀ ds : List Char, c ∈ ds → Text.natural? ds = none := by
    intro ds hds
    refine if_neg ?_
    rintro ⟨-, hall⟩
    rw [List.all_eq_true.1 hall c hds] at hd
    cases hd
  rw [Text.integer?.eq_def]
  split
  · rw [hnone _ (List.mem_of_ne_of_mem hminus hc)]
    rfl
  · rw [hnone _ (List.mem_of_ne_of_mem hplus hc)]
    rfl
  · rw [hnone _ hc]
    rfl

/-- The characters of the word of a label. -/
theorem Instr.toList_label {n : Nat} (h : n ≤ Number.greatestSafe) :
    ((Number.ofNat n).text ++ ":").toList = Nat.toDigits 10 n ++ [':'] := by
  rw [Number.text_ofNat h, String.toList_append, Nat.toString_eq_repr, Nat.toList_repr]
  rfl

/-- The digits of a label stand before its colon. -/
theorem Source.labelDigits?_toDigits (n : Nat) :
    Source.labelDigits? (Nat.toDigits 10 n ++ [':']) = some (Nat.toDigits 10 n) := by
  have hplus : ∀ rest, Nat.toDigits 10 n ++ [':'] ≠ '+' :: rest := by
    intro rest heq
    rcases List.append_eq_cons_iff.1 heq with ⟨hnil, -⟩ | ⟨ds, hdigits, -⟩
    · exact Nat.toDigits_ne_nil hnil
    · exact (Text.toDigits_head_ne_sign n ds).2 hdigits
  rw [Source.labelDigits?.eq_def]
  split
  · rename_i rest heq
    exact absurd heq (hplus rest)
  · simp

/-- The word of a label stands for that label. -/
theorem Source.label?_label {n : Nat} (h : n ≤ Number.greatestSafe) :
    Source.label? ((Number.ofNat n).text ++ ":") = some n := by
  rw [Source.label?, Instr.toList_label h, Source.labelDigits?_toDigits]
  simp [Text.natural?_toDigits, Number.nearest_natural h, Number.safeNat?_ofNat h]

/-- **A well-formed instruction is listed by a word that stands for it.** -/
theorem Instr.exists_token {ins : Instr} (h : ins.WellFormed) :
    ∃ text, ins.token = .ok text ∧ Text.IsWord text.toList ∧
      Instr.ofToken? text = some ins := by
  cases ins with
  | lit v =>
      obtain ⟨c, hc, hd⟩ := Text.exists_digit_mem_toString v
      have hliteral : Source.literal? (toString v) = some v := by
        rw [Source.literal?, Text.integer?_toString]
        exact if_pos h
      refine ⟨toString v, rfl, Text.isWord_toString v, ?_⟩
      rw [Instr.ofToken?, Opcode.ofToken?_eq_none hc hd, hliteral]
  | label n =>
      have hchars := Instr.toList_label h
      have hcolon : ':' ∈ ((Number.ofNat n).text ++ ":").toList := by simp [hchars]
      obtain ⟨d, ds, hdigits, hd⟩ := Text.exists_toDigits_eq_cons n
      refine ⟨(Number.ofNat n).text ++ ":", rfl, ?_, ?_⟩
      · rw [hchars]
        refine ⟨by simp, ?_⟩
        intro c hc
        rcases List.mem_append.1 hc with hc | hc
        · exact Text.isBlank_of_mem_toDigits hc
        · rw [List.mem_singleton.1 hc]
          rfl
      · have hop : Opcode.ofToken? ((Number.ofNat n).text ++ ":") = none :=
          Opcode.ofToken?_eq_none (by simp [hchars, hdigits]) hd
        have hliteral : Source.literal? ((Number.ofNat n).text ++ ":") = none := by
          rw [Source.literal?, Text.integer?_eq_none hcolon rfl (by decide) (by decide)]
        rw [Instr.ofToken?, hop, hliteral, Source.label?_label h]
        rfl
  | bare op =>
      refine ⟨op.token, rfl, op.isWord_token, ?_⟩
      rw [Instr.ofToken?, Opcode.ofToken?_token]
  | mislabel x => exact absurd h id
  | unknown name => exact absurd h id

/-! ### Sources put together -/

namespace Source

/-- The word of a well-formed instruction is the source of that instruction alone. -/
theorem compile_token {ins : Instr} {text : String} (h : ins.WellFormed)
    (htext : ins.token = .ok text) : compile text = .ok [ins] := by
  obtain ⟨text', htoken, hword, hback⟩ := Instr.exists_token h
  obtain rfl : text' = text := Except.ok.inj (htoken.symm.trans htext)
  rw [compile_eq_ok_iff, hword.words_eq]
  refine .cons ?_ .nil
  rwa [String.ofList_toList]

/-- Sources that are joined by a space compile to their programs in turn. -/
theorem compile_append_space {first second : String} {p q : Program}
    (hp : compile first = .ok p) (hq : compile second = .ok q) :
    compile (first ++ " " ++ second) = .ok (p ++ q) := by
  have hspace : (first ++ " " ++ second).toList = first.toList ++ ' ' :: second.toList := by
    simp [String.toList_append]
  rw [compile_eq_ok_iff] at hp hq ⊢
  rw [hspace, Text.words_append_blank rfl]
  exact List.rel_append hp hq

end Source

/-! ### Groups of instructions -/

/-- Whether two neighbouring instructions are listed on one line. -/
def Instr.sharesLine (a b : Instr) : Bool := !a.isJump && !b.isLabel

/-- An element that goes with the last one of a list is added to the last group. -/
theorem splitBy_append_singleton {α : Type} {r : α → α → Bool} {l : List α}
    {groups : List (List α)} {group : List α} {b : α} (h : l.splitBy r = groups ++ [group])
    (hb : ∀ a ∈ group.getLast?, r a b = true) :
    (l ++ [b]).splitBy r = groups ++ [group ++ [b]] := by
  obtain ⟨hflatten, hnil, hchains, hleave⟩ := List.splitBy_eq_iff.1 h
  refine List.splitBy_eq_iff.2 ⟨by simp [hflatten], ?_, ?_, ?_⟩
  · simpa using fun hmem => hnil (List.mem_append_left _ hmem)
  · intro g hg
    rcases List.mem_append.1 hg with hg | hg
    · exact hchains g (List.mem_append_left _ hg)
    · obtain rfl := List.mem_singleton.1 hg
      refine (hchains group (by simp)).append (.singleton b) ?_
      intro a ha c hc
      obtain rfl := Option.some.inj hc
      exact hb a ha
  · obtain ⟨hgroups, -, hlast⟩ := List.isChain_append.1 hleave
    refine hgroups.append (.singleton _) ?_
    intro g hg g' hg'
    obtain rfl := Option.some.inj hg'
    obtain ⟨hne, hne', hbreak⟩ := hlast g hg group rfl
    exact ⟨hne, by simp, by rwa [List.head_append_of_ne_nil hne']⟩

namespace Lines

/-! ### The lines of a listing

A line without words does not count in the end, so opening a line changes nothing by itself:
what matters is whether the next word finds the last line empty. -/

/-- At the start nothing is written. -/
@[simp] theorem written_start : start.written = [] := rfl

/-- A line feed writes nothing. -/
@[simp] theorem written_feed (l : Lines) : l.feed.written = l.written := by
  simp [written, feed, List.filter_cons]

/-- A line feed opens a line with nothing on it. -/
@[simp] theorem last_feed (l : Lines) : l.feed.last = #[] := rfl

/-- Opening a line before an instruction writes nothing. -/
@[simp] theorem written_ready (l : Lines) (ins : Instr) : (l.ready ins).written = l.written := by
  rw [ready]
  split <;> simp

/-- The line for a label is empty, and that for another instruction is the last one. -/
theorem last_ready_eq_empty_iff (l : Lines) (ins : Instr) :
    (l.ready ins).last = #[] ↔ l.last = #[] ∨ ins.isLabel = true := by
  rw [ready]
  cases ins.isLabel <;> by_cases h : l.last = #[] <;> simp [h]

/-- The first word on a line makes it count. -/
theorem written_word_of_eq_empty {l : Lines} (h : l.last = #[]) (w : String) :
    (l.word w).written = l.written ++ [[w]] := by
  simp [written, word, h]

/-- A further word goes to the last of the lines that count. -/
theorem exists_written_word {l : Lines} (h : l.last ≠ #[]) (w : String) :
    ∃ before line, l.written = before ++ [line] ∧ (l.word w).written = before ++ [line ++ [w]] := by
  refine ⟨(l.earlier.toList.map Array.toList).filter fun line => !line.isEmpty, l.last.toList,
    ?_, ?_⟩
  · simp [written, h]
  · simp [written, word]

/-- **The loop invariant** of listings. On the lines are the instructions listed so far, by
groups that share a line, and the last line is empty just at the start and behind a jump. -/
structure Holds (text : Instr → String) (done : Program) (l : Lines) : Prop where
  written : l.written = (done.splitBy Instr.sharesLine).map fun group => group.map text
  last : l.last = #[] ↔ ∀ a ∈ done.getLast?, a.isJump = true

section Invariant

variable {text : Instr → String} {done : Program} {l : Lines}

/-- Nothing is listed at the start. -/
theorem holds_start : Holds text [] start := ⟨rfl, iff_of_true rfl (by simp)⟩

/-- An instruction finds an empty line exactly if it shares none with the one before. -/
theorem Holds.last_ready (h : Holds text done l) (ins : Instr) :
    (l.ready ins).last = #[] ↔ ∀ a ∈ done.getLast?, Instr.sharesLine a ins = false := by
  rw [last_ready_eq_empty_iff, h.last]
  cases done.getLast? with
  | none => simp
  | some a => cases ha : a.isJump <;> simp [Instr.sharesLine, ha]

/-- The word of an instruction starts a group, or is added to the last one. -/
theorem Holds.written_word (h : Holds text done l) (ins : Instr) :
    ((l.ready ins).word (text ins)).written =
      ((done ++ [ins]).splitBy Instr.sharesLine).map fun group => group.map text := by
  -- An empty line starts a group; the word goes to the last group if there is a word on the line.
  by_cases hlast : (l.ready ins).last = #[]
  · rw [written_word_of_eq_empty hlast, written_ready, h.written,
      List.splitBy_append_cons [] ((h.last_ready ins).1 hlast), List.map_append]
    rfl
  · obtain ⟨before, line, hbefore, hafter⟩ := exists_written_word hlast (text ins)
    rw [written_ready, h.written] at hbefore
    obtain ⟨groups, tail, hsplit, rfl, htail⟩ := List.map_eq_append_iff.1 hbefore
    obtain ⟨group, rfl, rfl⟩ := List.map_eq_singleton_iff.1 htail
    -- the last instruction so far is the last one of the last group
    have hgroup : ∀ a ∈ group.getLast?, Instr.sharesLine a ins = true := by
      have hdone : done = groups.flatten ++ group := by
        rw [← List.flatten_splitBy Instr.sharesLine done, hsplit]
        simp
      intro a ha
      have ha' : done.getLast? = some a := by
        rw [hdone, List.getLast?_append, ha]
        rfl
      by_contra hbreak
      rw [h.last_ready, ha'] at hlast
      simp [hbreak] at hlast
    rw [hafter, splitBy_append_singleton hsplit hgroup]
    simp

/-- **One instruction** is put on the lines. -/
theorem Holds.put (h : Holds text done l) (ins : Instr) :
    Holds text (done ++ [ins]) (l.put ins (text ins)) := by
  have hwritten := h.written_word ins
  rw [Lines.put]
  split
  -- Behind a jump the last line is empty, and else it ends with the instruction.
  next hjump => exact ⟨by simpa using hwritten, by simp [hjump]⟩
  next hstays => exact ⟨hwritten, by simp [word, hstays]⟩

/-- **All instructions** of a program are put on the lines, if they have words. -/
theorem Holds.list (h : Holds text done l) {p : Program}
    (hp : ∀ ins ∈ p, ins.token = .ok (text ins)) :
    ∃ l', l.list p = .ok l' ∧ Holds text (done ++ p) l' := by
  induction p generalizing done l with
  | nil => exact ⟨l, rfl, by simpa using h⟩
  | cons ins p ih =>
      obtain ⟨hins, hp⟩ := List.forall_mem_cons.1 hp
      obtain ⟨l', hlist, hholds⟩ := ih (h.put ins) hp
      refine ⟨l', ?_, by simpa using hholds⟩
      rw [Lines.list, hins]
      exact hlist

end Invariant

end Lines

/-! ### Listings -/

namespace Program

/-- **The loop gives the groups.** A program whose instructions have words is listed line by
line, one line for each group of instructions that share one. -/
theorem listing_eq_ok {p : Program} {text : Instr → String}
    (h : ∀ ins ∈ p, ins.token = .ok (text ins)) :
    p.listing = .ok ("\n".intercalate ((p.splitBy Instr.sharesLine).map fun group =>
      " ".intercalate (group.map text))) := by
  obtain ⟨l, hlist, hholds⟩ := Lines.holds_start.list h
  rw [List.nil_append] at hholds
  refine bind_eq_ok_iff.2 ⟨l, hlist, congrArg Except.ok ?_⟩
  rw [Lines.text, hholds.written, List.map_map]
  rfl

/-- The words of a listing are those of the instructions, in order: a blank on a line and a
line end both separate words, and the lines of a program hold its instructions. -/
theorem words_listing {p : Program} {text : Instr → String}
    (h : ∀ ins ∈ p, Text.IsWord (text ins).toList) :
    Text.words ("\n".intercalate ((p.splitBy Instr.sharesLine).map fun group =>
      " ".intercalate (group.map text))).toList = p.map fun ins => (text ins).toList := by
  have hspace : " ".toList = [' '] := rfl
  have hnewline : "\n".toList = ['\n'] := rfl
  have hline : ∀ group : Program, Text.words (" ".intercalate (group.map text)).toList =
      group.flatMap fun ins => Text.words (text ins).toList := by
    intro group
    rw [String.toList_intercalate, hspace, Text.words_intercalate rfl]
    simp [List.flatMap_map]
  calc Text.words ("\n".intercalate ((p.splitBy Instr.sharesLine).map fun group =>
        " ".intercalate (group.map text))).toList
      = (p.splitBy Instr.sharesLine).flatMap fun group =>
          group.flatMap fun ins => Text.words (text ins).toList := by
        rw [String.toList_intercalate, hnewline, Text.words_intercalate rfl]
        simp only [List.flatMap_map, List.map_map, Function.comp_def, hline]
    _ = p.flatMap fun ins => Text.words (text ins).toList := by
        conv_rhs => rw [← List.flatten_splitBy Instr.sharesLine p, ← List.flatMap_id]
        rw [List.flatMap_assoc]
        rfl
    _ = p.flatMap fun ins => [(text ins).toList] :=
        List.flatMap_congr fun ins hins => (h ins hins).words_eq
    _ = p.map fun ins => (text ins).toList := (List.map_eq_flatMap).symm

/-- **Listings compile back.** The listing of a well-formed program compiles to that program,
whether or not a line end follows it. -/
theorem compile_listing (p : Program) (h : p.WellFormed) :
    ∃ text, p.listing = .ok text ∧ Source.compile text = .ok p ∧
      Source.compile (text ++ "\n") = .ok p := by
  choose! text htoken hword hback using fun (ins : Instr) (hins : ins.WellFormed) =>
    Instr.exists_token hins
  have hwords := words_listing fun ins hins => hword ins (h ins hins)
  have hstand : List.Forall₂ (fun w ins => Instr.ofToken? (String.ofList w) = some ins)
      (p.map fun ins => (text ins).toList) p := by
    rw [List.forall₂_map_left_iff, List.forall₂_same]
    intro ins hins
    rw [String.ofList_toList, hback ins (h ins hins)]
  refine ⟨_, listing_eq_ok fun ins hins => htoken ins (h ins hins), ?_, ?_⟩
  · rw [Source.compile_eq_ok_iff, hwords]
    exact hstand
  · rw [Source.compile_eq_ok_iff, String.toList_append]
    have hnewline : "\n".toList = ['\n'] := rfl
    rw [hnewline, Text.words_append_blank rfl, Text.words_nil, List.append_nil, hwords]
    exact hstand

/-- The round trip at the extremes of both number ranges, with a jump between two labels. -/
theorem compile_listing_extremes :
    WellFormed [.lit Word.least, .bare .jmp, .label Number.greatestSafe, .label 0,
      .lit Word.greatest, .bare .cjmp] ∧
    ∃ text, Program.listing [.lit Word.least, .bare .jmp, .label Number.greatestSafe, .label 0,
        .lit Word.greatest, .bare .cjmp] = .ok text ∧
      Source.compile text = .ok [.lit Word.least, .bare .jmp, .label Number.greatestSafe,
        .label 0, .lit Word.greatest, .bare .cjmp] ∧
      Source.compile (text ++ "\n") = .ok [.lit Word.least, .bare .jmp,
        .label Number.greatestSafe, .label 0, .lit Word.greatest, .bare .cjmp] :=
  ⟨by decide, compile_listing _ (by decide)⟩

end Program

end StackMachine
