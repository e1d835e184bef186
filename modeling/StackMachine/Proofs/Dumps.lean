import Mathlib.Data.List.Forall2
import StackMachine.Machine.Dump
import StackMachine.Proofs.NumberText

/-!
# Dumps are read back

The text of a dump is meant to be looked at, not to be read by a program. Yet nothing is lost in
it: this module gives a reader that gets the dump back from its text. So two dumps, and two states
of a machine, with the same text are the same.

The reader finds the lines, then the three sections, and then takes the last word of each row. The
sections are found because no row is a heading, and a section that shows the placeholder is told
from one with a row because no row is the placeholder. Both have the same reason: the last word of
a row is a number, and a heading ends with dashes. Where a row begins with its own number or with
a mark of the top of the stack, nothing depends on it, since the rows stand in order.

## Main definitions

* `Dump.read?`: the reader.
* `Dump.Shows`: a row that shows a value.

## Main results

* `Dump.entries?_body` and `Dump.heading_notMem_body`: what the lines of a section show, and why
  it ends where the next one begins.
* `Dump.read?_text`: a dump is read back from its text.
* `dump_identified`: **the text of a dump identifies it.**
-/

namespace StackMachine

namespace Dump

/-! ### A reader -/

/-- The last word of a line. -/
def lastWord (line : List Char) : List Char := (Text.words line).getLastD []

/-- The number that a word spells. -/
def number? (word : List Char) : Option Number :=
  match Json.number? word with
  | some (x, []) => some x
  | _ => none

/-- The line that begins a section. -/
def heading (title : String) : List Char := ("---- " ++ title ++ " ----").toList

/-- The line of a section that has no rows. -/
def placeholder : List Char := "(empty)".toList

/-- What the lines of a section show, each by its last word. -/
def entries? {α : Type} (read : List Char → Option α) (lines : List (List Char)) :
    Option (List α) :=
  if lines = [placeholder] then some [] else lines.mapM fun line => read (lastWord line)

/-- The dump that a text shows. -/
def read? (text : String) : Option Dump := do
  let lines := text.toList.splitOn '\n'
  let (stack, lines) := lines.tail.span (· ≠ heading "memory")
  let (memory, lines) := lines.tail.span (· ≠ heading "labels")
  return {
    stack := ← entries? Text.integer? stack
    memory := ← entries? Text.integer? memory
    labels := ← entries? number? lines.tail }

/-! ### Rows and sections -/

/-- What stands behind the last space is the last word. -/
theorem lastWord_append (before : List Char) {w : List Char} (hw : Text.IsWord w) :
    lastWord (before ++ ' ' :: w) = w := by
  rw [lastWord, Text.words_append_blank rfl, hw.words_eq, List.getLastD_concat]

/-- The last word of a heading is the rule behind its title. -/
theorem lastWord_heading (title : String) : lastWord (heading title) = "----".toList := by
  have hdashes : Text.IsWord "----".toList := by
    refine ⟨by decide, ?_⟩
    intro c hc
    have hdash : c = '-' := by simpa using hc
    rw [hdash]
    rfl
  rw [← lastWord_append ("---- " ++ title).toList hdashes, heading, String.toList_append]
  rfl

section Sections

variable {α : Type} {read : List Char → Option α} {rows : List String} {as : List α}

/-- A row, on a line of its own, that shows a value. -/
def Shows (read : List Char → Option α) (row : String) (a : α) : Prop :=
  '\n' ∉ row.toList ∧ read (lastWord row.toList) = some a

/-- A row shows what stands behind its last space. -/
theorem shows_append {before w : String} {a : α} (hbefore : '\n' ∉ before.toList)
    (hw : Text.IsWord w.toList) (ha : read w.toList = some a) :
    Shows read (before ++ " " ++ w) a := by
  have hrow : (before ++ " " ++ w).toList = before.toList ++ ' ' :: w.toList := by
    simp [String.toList_append]
  rw [Shows, hrow, lastWord_append _ hw]
  refine ⟨?_, ha⟩
  intro hmem
  rcases List.mem_append.1 hmem with hmem | hmem
  · exact hbefore hmem
  · rcases List.mem_cons.1 hmem with heq | hmem
    · exact absurd heq (by decide)
    · exact absurd (hw.2 '\n' hmem) (by decide)

/-- The reader takes the words that end rows, but neither those that end headings nor the
placeholder. -/
structure Selective (read : List Char → Option α) : Prop where
  dashes : read "----".toList = none
  placeholder : read (lastWord placeholder) = none

/-- The rows of a section, or the placeholder. -/
def body (rows : List String) : List (List Char) :=
  if rows.isEmpty then [placeholder] else rows.map String.toList

/-- A section is its heading and then its body. -/
theorem map_toList_titled (title : String) (rows : List String) :
    (titled title rows).map String.toList = heading title :: body rows := by
  rw [titled, body]
  split <;> rfl

/-- The last words of rows are read back as what the rows show. -/
theorem mapM_of_shows (h : List.Forall₂ (Shows read) rows as) :
    (rows.map String.toList).mapM (fun line => read (lastWord line)) = some as := by
  induction h with
  | nil => rfl
  | cons hrow _ ih =>
      rw [List.map_cons, List.mapM_cons, hrow.2, ih]
      rfl

/-- Rows that show values each show one. -/
theorem exists_shows (h : List.Forall₂ (Shows read) rows as) :
    ∀ row ∈ rows, ∃ a, Shows read row a := by
  induction h with
  | nil => exact List.forall_mem_nil _
  | cons hrow _ ih => exact List.forall_mem_cons.2 ⟨⟨_, hrow⟩, ih⟩

/-- A line whose last word is not taken is no row. -/
theorem notMem_of_shows (h : List.Forall₂ (Shows read) rows as) {line : List Char}
    (hline : read (lastWord line) = none) : line ∉ rows.map String.toList := by
  intro hmem
  obtain ⟨row, hrow, rfl⟩ := List.mem_map.1 hmem
  obtain ⟨a, -, ha⟩ := exists_shows h row hrow
  rw [hline] at ha
  cases ha

/-- **The lines of a section show its values.** -/
theorem entries?_body (hread : Selective read) (h : List.Forall₂ (Shows read) rows as) :
    entries? read (body rows) = some as := by
  rw [body, entries?]
  cases rows with
  | nil =>
      cases h
      rfl
  | cons row rows =>
      have hne : (row :: rows).map String.toList ≠ [placeholder] := by
        intro heq
        exact notMem_of_shows h hread.placeholder (heq ▸ List.mem_singleton_self _)
      rw [List.isEmpty_cons, if_neg Bool.false_ne_true, if_neg hne]
      exact mapM_of_shows h

/-- **No line of a section is a heading.** -/
theorem heading_notMem_body (hread : Selective read) (h : List.Forall₂ (Shows read) rows as)
    (title : String) : heading title ∉ body rows := by
  rw [body]
  split
  · intro hmem
    have hwords := congrArg lastWord (List.mem_singleton.1 hmem)
    rw [lastWord_heading] at hwords
    exact absurd hwords (by decide)
  · refine notMem_of_shows h ?_
    rw [lastWord_heading]
    exact hread.dashes

/-- There is no line end in the body of a section. -/
theorem newline_notMem_body (h : List.Forall₂ (Shows read) rows as) :
    ∀ line ∈ body rows, '\n' ∉ line := by
  rw [body]
  split
  · exact List.forall_mem_singleton.2 (by decide)
  · intro line hline
    obtain ⟨row, hrow, rfl⟩ := List.mem_map.1 hline
    obtain ⟨a, hnewline, -⟩ := exists_shows h row hrow
    exact hnewline

/-- So a section ends where the next heading stands. -/
theorem span_heading {title : String} {lines : List (List Char)} (h : heading title ∉ lines)
    (rest : List (List Char)) :
    (lines ++ heading title :: rest).span (· ≠ heading title) = (lines, heading title :: rest) := by
  have hlines : ∀ line ∈ lines, decide (line ≠ heading title) = true := by
    intro line hline
    rw [decide_eq_true_eq]
    rintro rfl
    exact h hline
  rw [List.span_eq_takeWhile_dropWhile, List.takeWhile_append_of_pos hlines,
    List.dropWhile_append_of_pos hlines]
  simp

end Sections

/-! ### The rows of a dump -/

/-- There is no line end in a numeral. -/
theorem newline_notMem_toString (n : Nat) : '\n' ∉ (toString n).toList := by
  intro hmem
  have htext : (toString n).toList = Nat.toDigits 10 n := Nat.toList_repr
  rw [htext] at hmem
  exact absurd (Text.isDigit_of_mem_toDigits hmem) (by decide)

/-- A row of the stack or of the memory shows its value. -/
theorem shows_value {before : String} (h : '\n' ∉ before.toList) (n : Nat) (v : Int) :
    Shows Text.integer? (before ++ toString n ++ " " ++ toString v) v := by
  refine shows_append ?_ (Text.isWord_toString v) (Text.integer?_toString v)
  rw [String.toList_append]
  intro hmem
  rcases List.mem_append.1 hmem with hmem | hmem
  · exact h hmem
  · exact newline_notMem_toString n hmem

/-- The rows below the top of the stack show its values. -/
theorem shows_lowerRows (vs : List Int) :
    List.Forall₂ (Shows Text.integer?) (lowerRows vs) vs := by
  induction vs with
  | nil => exact .nil
  | cons v vs ih => exact .cons (shows_value (by decide) vs.length v) ih

/-- The rows of the stack show its values. -/
theorem shows_stackRows (vs : List Int) :
    List.Forall₂ (Shows Text.integer?) (stackRows vs) vs := by
  cases vs with
  | nil => exact .nil
  | cons v vs => exact .cons (shows_value (by decide) vs.length v) (shows_lowerRows vs)

/-- Rows that are numbered in turn show the values of a list if each shows its own. -/
theorem forall₂_zipIdx {α : Type} {read : List Char → Option α} {row : α × Nat → String}
    {as : List α} (h : ∀ a ∈ as, ∀ n, Shows read (row (a, n)) a) (start : Nat) :
    List.Forall₂ (Shows read) ((as.zipIdx start).map row) as := by
  induction as generalizing start with
  | nil => exact .nil
  | cons a as ih =>
      obtain ⟨ha, has⟩ := List.forall_mem_cons.1 h
      exact .cons (ha start) (ih has (start + 1))

/-- The rows of the memory show its values. -/
theorem shows_memoryRows (vs : List Int) :
    List.Forall₂ (Shows Text.integer?) (memoryRows vs) vs := by
  refine forall₂_zipIdx ?_ 0
  intro v _ n
  have hrow : Shows Text.integer? ("" ++ toString n ++ " " ++ toString v) v :=
    shows_value (by decide) n v
  rwa [String.empty_append] at hrow

/-- A row of the jump table shows its position, if binary64 holds it. -/
theorem shows_labelRows {xs : List Number} (h : ∀ x ∈ xs, x.IsNatural) :
    List.Forall₂ (Shows number?) (labelRows xs) xs := by
  refine forall₂_zipIdx ?_ 0
  intro x hx n
  obtain ⟨k, hk, rfl⟩ := h x hx
  have hnumeric := hk.numeric_text
  have hread : Json.number? (Number.ofNat k).text.toList = some (.ofNat k, []) := by
    have hdelimits : Json.Delimits [] := nofun
    simpa using Json.number?_append hnumeric hdelimits
  have hbefore : '\n' ∉ (toString n ++ ": ->").toList := by
    rw [String.toList_append]
    intro hmem
    rcases List.mem_append.1 hmem with hmem | hmem
    · exact newline_notMem_toString n hmem
    · exact absurd hmem (by decide)
  have hrow : Shows number? (toString n ++ ": ->" ++ " " ++ (Number.ofNat k).text) (.ofNat k) :=
    shows_append hbefore hnumeric.isWord (by rw [number?, hread])
  have hsplit : toString n ++ ": ->" ++ " " = toString n ++ ": -> " := String.append_assoc
  rwa [hsplit] at hrow

/-- **A dump is read back from its text.** -/
theorem read?_text {d : Dump} (h : ∀ x ∈ d.labels, x.IsNatural) : read? d.text = some d := by
  have hinteger : Selective Text.integer? := ⟨by decide, by decide⟩
  have hnumber : Selective number? := ⟨by decide, by decide⟩
  have hstack := shows_stackRows d.stack
  have hmemory := shows_memoryRows d.memory
  have hlabels := shows_labelRows h
  have hlines : d.text.toList.splitOn '\n' =
      heading "stack" :: (body (stackRows d.stack) ++
        heading "memory" :: (body (memoryRows d.memory) ++
          heading "labels" :: body (labelRows d.labels))) := by
    rw [text, String.toList_intercalate, List.map_append, List.map_append, map_toList_titled,
      map_toList_titled, map_toList_titled, List.append_assoc]
    refine List.splitOn_intercalate '\n' ?_ (by simp)
    simp only [List.cons_append, List.forall_mem_cons, List.forall_mem_append]
    exact ⟨by decide, newline_notMem_body hstack, by decide, newline_notMem_body hmemory,
      by decide, newline_notMem_body hlabels⟩
  simp only [read?, hlines, List.tail_cons, span_heading (heading_notMem_body hinteger hstack _),
    span_heading (heading_notMem_body hinteger hmemory _), entries?_body hinteger hstack,
    entries?_body hinteger hmemory, entries?_body hnumber hlabels]
  rfl

end Dump

/-- A dump leaves nothing out. -/
theorem State.dump_injective : Function.Injective State.dump := by
  rintro ⟨stack, ⟨cells⟩, ⟨entries⟩⟩ ⟨stack', ⟨cells'⟩, ⟨entries'⟩⟩ h
  obtain ⟨hstack, hmemory, hlabels⟩ := Dump.mk.inj h
  have hentries := List.map_injective_iff.2 Number.ofNat_injective hlabels
  obtain rfl : stack = stack' := hstack
  obtain rfl : cells = cells' := Array.toList_inj.1 hmemory
  obtain rfl : entries = entries' := Array.toList_inj.1 hentries
  rfl

/-- **The text of a dump identifies it.** Two dumps with the same text are the same, whatever
integers are on their stacks and in their memories and whatever natural numbers of binary64 are in
their jump tables; and each is read back from its text. So two states with the same text are the
same, too. -/
theorem dump_identified (d d' : Dump) (h : ∀ x ∈ d.labels, x.IsNatural)
    (h' : ∀ x ∈ d'.labels, x.IsNatural) :
    (d.text = d'.text → d = d') ∧ Dump.read? d.text = some d ∧
    ∀ s s' : State, (∀ i ∈ s.table.toList, Number.Representable i) →
      (∀ i ∈ s'.table.toList, Number.Representable i) → s.dump.text = s'.dump.text → s = s' := by
  have hinjective : ∀ {d d' : Dump}, (∀ x ∈ d.labels, x.IsNatural) →
      (∀ x ∈ d'.labels, x.IsNatural) → d.text = d'.text → d = d' := by
    intro d d' h h' htext
    have hread := Dump.read?_text h
    rw [htext, Dump.read?_text h'] at hread
    exact (Option.some.inj hread).symm
  have hnatural : ∀ {s : State}, (∀ i ∈ s.table.toList, Number.Representable i) →
      ∀ x ∈ s.dump.labels, x.IsNatural := by
    intro s hs x hx
    obtain ⟨i, hi, rfl⟩ := List.mem_map.1 hx
    exact ⟨i, hs i hi, rfl⟩
  refine ⟨hinjective h h', Dump.read?_text h, ?_⟩
  intro s s' hs hs' htext
  exact State.dump_injective (hinjective (hnatural hs) (hnatural hs') htext)

/-- A negative value on top of the stack, no memory, and a position that is written with fewer
digits than it has. -/
theorem dump_identified_rounded :
    let d : Dump := ⟨[-5, 12], [], [.ofNat (2 ^ 60), .ofNat 0]⟩
    (∀ x ∈ d.labels, x.IsNatural) ∧
    d.text = "---- stack ----\ntop => 1 -5\n       0 12\n---- memory ----\n(empty)\n" ++
      "---- labels ----\n0: -> 1152921504606847000\n1: -> 0" ∧
    Dump.read? d.text = some d ∧ ∀ d' : Dump, (∀ x ∈ d'.labels, x.IsNatural) →
      d.text = d'.text → d = d' := by
  intro d
  have hlarge : Number.Representable (2 ^ 60) := by
    refine ⟨?_, 1, 60, by decide, by decide⟩
    apply Nat.pow_lt_pow_right <;> decide
  have hzero : Number.Representable 0 := Number.representable_of_le (Nat.zero_le _)
  have hd : ∀ x ∈ d.labels, x.IsNatural :=
    List.forall_mem_cons.2 ⟨⟨_, hlarge, rfl⟩, List.forall_mem_singleton.2 ⟨_, hzero, rfl⟩⟩
  refine ⟨hd, by decide +kernel, (dump_identified d d hd hd).2.1, ?_⟩
  intro d' hd'
  exact (dump_identified d d' hd hd').1

end StackMachine
