import StackMachine.Proofs.Words

/-!
# The positions of tokens

A token carries the line and the column at which it stands. This module says what that means
for the text: the line is one of the pieces between line ends, and the column counts the units
of UTF-16 before the token in that line. Nothing of the text but its blanks is left out, and
nothing is told twice.

A line end is a line feed, with the carriage return before it if there is one. Most blanks are
no line ends, so a line may hold several words far apart. The scan of a line distributes over
its blanks, `Text.lexemes_append_blank`, and everything about columns follows from this one
equation by an induction from blank to blank.

## Main definitions

* `Utf16.encode`: the units of sixteen bits of a text.
* `Text.Ruled`: a text is cut into lines.
* `Text.OccursAt`: a word occurs in a line at an offset, and neither end of it can be extended.

## Main results

* `Text.ruled_iff`: a text is cut into lines in one way, which the model computes.
* `Text.lexemes_append_blank`: the lexemes of a line split at every blank.
* `Text.occursAt_of_mem_lexemes`: a lexeme occurs where its column says.
* `Source.tokens_cover`: **the tokens cover the source and stand where they say**.
-/

namespace StackMachine

/-! ### Units of sixteen bits -/

namespace Utf16

/-- The units of a character: its number, or a pair of surrogates outside the basic plane. -/
def encodeChar (c : Char) : List UInt16 :=
  if c.toNat < 0x10000 then [.ofNat c.toNat]
  else
    [.ofNat (0xD800 + (c.toNat - 0x10000) / 0x400), .ofNat (0xDC00 + (c.toNat - 0x10000) % 0x400)]

/-- The units of a text. -/
def encode (cs : List Char) : List UInt16 := cs.flatMap encodeChar

/-- The empty text has no units. -/
@[simp] theorem encode_nil : encode [] = [] := rfl

/-- The units of a text in two parts are those of the parts. -/
@[simp] theorem encode_append (cs ds : List Char) : encode (cs ++ ds) = encode cs ++ encode ds :=
  List.flatMap_append

/-- The columns that a character takes up are its units. -/
theorem length_encodeChar (c : Char) : (encodeChar c).length = Text.units c := by
  rw [encodeChar, Text.units]
  split <;> rfl

/-- The first character of a text takes up its own columns. -/
@[simp] theorem length_encode_cons (c : Char) (cs : List Char) :
    (encode (c :: cs)).length = Text.units c + (encode cs).length := by
  rw [encode, List.flatMap_cons, List.length_append, length_encodeChar]
  rfl

end Utf16

namespace Text

/-- Every character takes up a column at least. -/
theorem units_pos (c : Char) : 0 < units c := by
  rw [units]
  split <;> omega

/-! ### Lines -/

/-- A text is cut into **lines**: at each line feed, together with a carriage return directly
before it, and nowhere else. -/
inductive Ruled : List Char → List (List Char) → Prop where
  | last (line : List Char) (h : '\n' ∉ line) : Ruled line [line]
  | feed (line : List Char) {rest : List Char} {more : List (List Char)} (h : '\n' ∉ line)
      (hlast : line.getLast? ≠ some '\r') (hrest : Ruled rest more) :
      Ruled (line ++ '\n' :: rest) (line :: more)
  | returnFeed (line : List Char) {rest : List Char} {more : List (List Char)} (h : '\n' ∉ line)
      (hrest : Ruled rest more) : Ruled (line ++ '\r' :: '\n' :: rest) (line :: more)

/-- A character that begins no line end belongs to the first line. -/
theorem lines_cons {c : Char} {rest : List Char} (hc : c ≠ '\n')
    (hreturn : c = '\r' → ∀ tail, rest ≠ '\n' :: tail) :
    lines (c :: rest) = (lines rest).modifyHead (c :: ·) := by
  obtain ⟨line, more, hlines, -⟩ := lines_eq_cons rest
  rw [lines, hlines]
  · rfl
  · exact fun h => hc h
  · exact fun tail h htail => hreturn h tail htail

/-- What stands before the first line end belongs to the first line. -/
theorem lines_append {line : List Char} (hline : '\n' ∉ line) (rest : List Char)
    (hlast : line.getLast? = some '\r' → ∀ tail, rest ≠ '\n' :: tail) :
    lines (line ++ rest) = (lines rest).modifyHead (line ++ ·) := by
  induction line with
  | nil =>
      obtain ⟨first, more, hlines, -⟩ := lines_eq_cons rest
      rw [List.nil_append, hlines]
      rfl
  | cons c line ih =>
      obtain ⟨hc, hline⟩ := not_or.1 (mt List.mem_cons.2 hline)
      have hreturn : c = '\r' → ∀ tail, line ++ rest ≠ '\n' :: tail := by
        rintro rfl tail heq
        rcases line with _ | ⟨d, line⟩
        · exact hlast rfl tail heq
        · exact hline (by simp [(List.cons.inj heq).1])
      have hlater : line.getLast? = some '\r' → ∀ tail, rest ≠ '\n' :: tail := by
        intro h
        refine hlast ?_
        rw [List.getLast?_cons, h]
        rfl
      obtain ⟨first, more, hlines, -⟩ := lines_eq_cons rest
      rw [List.cons_append, lines_cons (Ne.symm hc) hreturn, ih hline hlater, hlines]
      rfl

/-- The lines that the model computes are the lines of the text. -/
theorem ruled_lines (cs : List Char) : Ruled cs (lines cs) := by
  fun_induction lines cs with
  | case1 => exact .last [] List.not_mem_nil
  | case2 rest ih => exact .feed [] List.not_mem_nil (by simp) ih
  | case3 rest ih => exact .returnFeed [] List.not_mem_nil ih
  | case4 c rest _ _ hnil =>
      obtain ⟨line, more, hlines, -⟩ := lines_eq_cons rest
      exact absurd hnil (by simp [hlines])
  | case5 c rest hfeed hreturn line more hlines ih =>
      rw [hlines] at ih
      have hmem : '\n' ∉ line → '\n' ∉ c :: line := by
        intro hline hcons
        rcases List.mem_cons.1 hcons with heq | hline'
        · exact hfeed heq.symm
        · exact hline hline'
      cases ih with
      | last _ hline => exact .last _ (hmem hline)
      | @feed _ rest _ hline hlast hrest =>
          refine .feed _ (hmem hline) ?_ hrest
          -- the carriage return is the last of the line only if it is the first, too
          rcases line with _ | ⟨d, line⟩
          · intro heq
            exact hreturn rest (Option.some.inj heq) rfl
          · rw [List.getLast?_cons_cons]
            exact hlast
      | returnFeed _ hline hrest => exact .returnFeed _ (hmem hline) hrest

/-- **A text is cut into lines in one way.** -/
theorem ruled_iff {cs : List Char} {ls : List (List Char)} : Ruled cs ls ↔ ls = lines cs := by
  constructor
  · intro h
    induction h with
    | last line h => simpa [lines] using (lines_append h [] fun _ => nofun).symm
    | feed line h hlast _ ih =>
        rw [lines_append h _ fun hreturn => absurd hreturn hlast, lines, ← ih]
        simp
    | returnFeed line h _ ih =>
        rw [lines_append h _ fun _ tail => by simp, lines, ← ih]
        simp
  · rintro rfl
    exact ruled_lines cs

/-! ### Lexemes -/

/-- **The lexemes of a line split at every blank.** The columns behind it are those that follow. -/
theorem lexemes_append_blank {c : Char} (hc : isBlank c = true) (column : Nat)
    (xs ys : List Char) :
    lexemes column (xs ++ c :: ys) =
      lexemes column xs ++ lexemes (column + (Utf16.encode (xs ++ [c])).length) ys := by
  induction xs generalizing column with
  | nil => simp [lexemes, hc]
  | cons x xs ih =>
      have hcolumn : column + (Utf16.encode (x :: xs ++ [c])).length =
          column + units x + (Utf16.encode (xs ++ [c])).length := by
        rw [List.cons_append, Utf16.length_encode_cons]
        omega
      rw [hcolumn, List.cons_append, lexemes, lexemes, ih]
      by_cases hx : isBlank x = true
      · simp [hx]
      · rcases lexemes (column + units x) xs with _ | ⟨w, more⟩
        · -- the words behind the blank do not begin in the next column
          rcases hlater : lexemes (column + units x + (Utf16.encode (xs ++ [c])).length) ys with
            _ | ⟨w, more⟩
          · simp [hx]
          · have hmem : w ∈ lexemes (column + units x + (Utf16.encode (xs ++ [c])).length) ys := by
              rw [hlater]
              exact List.mem_cons_self
            have hle := le_column_of_mem_lexemes hmem
            have hpos := units_pos c
            have hne : w.column ≠ column + units x := by
              simp only [Utf16.encode_append, List.length_append, Utf16.length_encode_cons] at hle
              omega
            simp [hx, hne]
        · by_cases hw : w.column = column + units x <;> simp [hx, hw]

/-- **Induction from blank to blank.** -/
theorem blank_induction {motive : List Char → Prop}
    (letters : ∀ cs, (∀ c ∈ cs, isBlank c = false) → motive cs)
    (blank : ∀ xs c ys, (∀ x ∈ xs, isBlank x = false) → isBlank c = true → motive ys →
      motive (xs ++ c :: ys)) (cs : List Char) : motive cs := by
  suffices h : ∀ xs, (∀ x ∈ xs, isBlank x = false) → motive (xs ++ cs) from
    h [] (List.forall_mem_nil _)
  induction cs with
  | nil =>
      intro xs hxs
      rw [List.append_nil]
      exact letters xs hxs
  | cons c cs ih =>
      intro xs hxs
      by_cases hc : isBlank c = true
      · exact blank xs c cs hxs hc (ih [] (List.forall_mem_nil _))
      · -- the letter joins those that are pending
        rw [List.append_cons]
        refine ih (xs ++ [c]) ?_
        intro x hx
        rcases List.mem_append.1 hx with hx | hx
        · exact hxs x hx
        · rw [List.mem_singleton.1 hx]
          simpa using hc

/-- Letters without a blank are one lexeme, if there are any. -/
theorem lexemes_letters {cs : List Char} (h : ∀ c ∈ cs, isBlank c = false) (column : Nat) :
    lexemes column cs = [] ∨ lexemes column cs = [⟨column, cs⟩] := by
  rcases cs with _ | ⟨c, cs⟩
  · exact .inl rfl
  · have hchars := map_chars_lexemes column (c :: cs)
    rw [IsWord.words_eq ⟨List.cons_ne_nil c cs, h⟩] at hchars
    obtain ⟨w, hw, hwchars⟩ := List.map_eq_singleton_iff.1 hchars
    have hhead := head_lexemes_column column (c :: cs)
    have hc : isBlank c = false := h c List.mem_cons_self
    rw [hw] at hhead
    simp only [List.head?_cons, Option.any_some, hc, Bool.not_false, decide_eq_true_eq] at hhead
    rw [hw, ← hhead, ← hwchars]
    exact .inr rfl

/-- A text without blanks holds one word at most, and that is the text. -/
theorem eq_of_mem_lexemes {column : Nat} {cs : List Char} {w : Lexeme}
    (hcs : ∀ c ∈ cs, isBlank c = false) (h : w ∈ lexemes column cs) : w = ⟨column, cs⟩ := by
  rcases lexemes_letters hcs column with hnil | hone
  · rw [hnil] at h
    cases h
  · rw [hone] at h
    exact List.mem_singleton.1 h

/-- A word **occurs** in a line at an offset in units of sixteen bits, and each end of it is an
end of the line or next to a blank. -/
def OccursAt (offset : Nat) (word line : List Char) : Prop :=
  ∃ before after, line = before ++ word ++ after ∧ (Utf16.encode before).length = offset ∧
    (∀ c ∈ before.getLast?, isBlank c = true) ∧ (∀ c ∈ after.head?, isBlank c = true)

/-- **A lexeme occurs where its column says.** -/
theorem occursAt_of_mem_lexemes {column : Nat} {cs : List Char} {w : Lexeme}
    (h : w ∈ lexemes column cs) :
    ∃ offset, w.column = column + offset ∧ OccursAt offset w.chars cs := by
  induction cs using blank_induction generalizing column with
  | letters cs hcs =>
      obtain rfl := eq_of_mem_lexemes hcs h
      exact ⟨0, rfl, [], [], by simp, rfl, nofun, nofun⟩
  | blank xs c ys hxs hc ih =>
      rw [lexemes_append_blank hc] at h
      rcases List.mem_append.1 h with h | h
      · obtain rfl := eq_of_mem_lexemes hxs h
        exact ⟨0, rfl, [], c :: ys, rfl, rfl, nofun, by simpa using hc⟩
      · obtain ⟨offset, hcolumn, before, after, rfl, rfl, hbefore, hafter⟩ := ih h
        refine ⟨_, ?_, xs ++ [c] ++ before, after, by simp, rfl, ?_, hafter⟩
        · rw [hcolumn, Utf16.encode_append (xs ++ [c]), List.length_append]
          omega
        · intro d hd
          rw [List.getLast?_append, List.getLast?_concat] at hd
          rcases hlast : before.getLast? with _ | e
          · rw [hlast] at hd
            obtain rfl : c = d := Option.some.inj hd
            exact hc
          · rw [hlast] at hd
            exact hbefore d (hlast.trans hd)

/-- The columns of the lexemes of a line increase. -/
theorem pairwise_lexemes (column : Nat) (cs : List Char) :
    (lexemes column cs).Pairwise fun v w => v.column < w.column := by
  have hletters : ∀ column xs, (∀ x ∈ xs, isBlank x = false) →
      (lexemes column xs).Pairwise fun v w => v.column < w.column := by
    intro column xs hxs
    rcases lexemes_letters hxs column with h | h <;> simp [h]
  induction cs using blank_induction generalizing column with
  | letters cs hcs => exact hletters column cs hcs
  | blank xs c ys hxs hc ih =>
      rw [lexemes_append_blank hc, List.pairwise_append]
      refine ⟨hletters column xs hxs, ih _, ?_⟩
      intro v hv w hw
      obtain rfl := eq_of_mem_lexemes hxs hv
      have hle := le_column_of_mem_lexemes hw
      have hpos := units_pos c
      simp only [Utf16.encode_append, List.length_append, Utf16.length_encode_cons] at hle
      show column < w.column
      omega

/-- The words of a text are its letters, in order. -/
theorem flatten_words (cs : List Char) : (words cs).flatten = cs.filter fun c => !isBlank c := by
  induction cs with
  | nil => rfl
  | cons c cs ih =>
      by_cases hc : isBlank c = true
      · rw [words_cons_blank hc, ih]
        simp [hc]
      · rw [List.filter_cons_of_pos (by simpa using hc), ← ih,
          words_cons_letter (by simpa using hc)]
        split
        next hletter =>
          obtain ⟨w, more, hwords⟩ := List.exists_cons_of_ne_nil (words_ne_nil hletter)
          rw [hwords]
          rfl
        next => rfl

/-- The words of a text are words. -/
theorem isWord_of_mem_words {cs w : List Char} (h : w ∈ words cs) : IsWord w := by
  refine ⟨by simpa using (List.mem_filter.1 h).2, ?_⟩
  intro c hc
  have hmem : c ∈ cs.filter fun c => !isBlank c := by
    rw [← flatten_words]
    exact List.mem_flatten.2 ⟨w, h, hc⟩
  simpa using (List.mem_filter.1 hmem).2

end Text

/-! ### Tokens -/

namespace Source

/-- The word of a token with its place, as it was found. -/
def place (t : Token) : Nat × Text.Lexeme := (t.line, ⟨t.column, t.text.toList⟩)

/-- Numbering words keeps their places. -/
theorem map_place_enumerate (index : Nat) (ws : List (Nat × Text.Lexeme)) :
    (enumerate index ws).map place = ws := by
  induction ws generalizing index with
  | nil => rfl
  | cons w ws ih => simp [enumerate, ih, place]

/-- The tokens of a source are, in their places, the words of its lines. -/
theorem map_place_tokens (source : String) :
    (tokens source).map place = lexemesFrom 1 (Text.lines source.toList) :=
  map_place_enumerate 0 _

/-- Tokens are counted from zero without a gap. -/
theorem map_index_tokens (source : String) :
    (tokens source).map Token.index = List.range (tokens source).length := by
  refine List.ext_getElem (by simp) ?_
  intro i hi _
  rw [List.getElem_map, List.getElem_range]
  exact index_of_getElem?_tokens (List.getElem?_eq_getElem _)

/-- A word of some lines is a lexeme of its line. -/
theorem exists_line_of_mem_lexemesFrom {line : Nat} {ls : List (List Char)}
    {w : Nat × Text.Lexeme} (h : w ∈ lexemesFrom line ls) :
    ∃ i cs, w.1 = line + i ∧ ls[i]? = some cs ∧ w.2 ∈ Text.lexemes 1 cs := by
  induction ls generalizing line with
  | nil => cases h
  | cons cs ls ih =>
      rcases List.mem_append.1 h with h | h
      · obtain ⟨v, hv, rfl⟩ := List.mem_map.1 h
        exact ⟨0, cs, rfl, rfl, hv⟩
      · obtain ⟨i, cs', hline, hcs', hw⟩ := ih h
        exact ⟨i + 1, cs', by omega, hcs', hw⟩

/-- The words of some lines come in the order of their places. -/
theorem pairwise_lexemesFrom (line : Nat) (ls : List (List Char)) :
    (lexemesFrom line ls).Pairwise fun v w =>
      v.1 < w.1 ∨ v.1 = w.1 ∧ v.2.column < w.2.column := by
  induction ls generalizing line with
  | nil => exact .nil
  | cons cs ls ih =>
      rw [lexemesFrom, List.pairwise_append]
      refine ⟨?_, ih _, ?_⟩
      · rw [List.pairwise_map]
        exact (Text.pairwise_lexemes 1 cs).imp fun h => .inr ⟨rfl, h⟩
      · intro v hv w hw
        obtain ⟨_, -, rfl⟩ := List.mem_map.1 hv
        obtain ⟨i, -, hline, -⟩ := exists_line_of_mem_lexemesFrom hw
        left
        show line < w.1
        omega

/-- **Tokens cover the source and stand where they say.** They are numbered in turn, each is a
word, and together they are the source without its blanks. The source is cut into lines in one
way. Each token occurs in the line of its number, counted from `1`, at the offset of its column,
counted from `1` in units of sixteen bits, and each end of it is an end of the line or next to a
blank. From token to token the place moves on, to a later column or to a later line. -/
theorem tokens_cover (source : String) :
    (tokens source).map Token.index = List.range (tokens source).length ∧
    (∀ t ∈ tokens source, t.text ≠ "" ∧ ∀ c ∈ t.text.toList, Text.isBlank c = false) ∧
    String.join ((tokens source).map Token.text) =
      String.ofList (source.toList.filter fun c => !Text.isBlank c) ∧
    (∀ ls, Text.Ruled source.toList ls ↔ ls = Text.lines source.toList) ∧
    (∀ t ∈ tokens source, 1 ≤ t.line ∧ 1 ≤ t.column ∧
      ∃ line, (Text.lines source.toList)[t.line - 1]? = some line ∧
        Text.OccursAt (t.column - 1) t.text.toList line) ∧
    (tokens source).Pairwise fun t u =>
      t.line < u.line ∨ t.line = u.line ∧ t.column < u.column := by
  refine ⟨map_index_tokens source, ?_, ?_, fun _ => Text.ruled_iff, ?_, ?_⟩
  · intro t ht
    have hmem : t.text ∈ (Text.words source.toList).map String.ofList := by
      rw [← map_text_tokens]
      exact List.mem_map_of_mem ht
    obtain ⟨w, hw, htext⟩ := List.mem_map.1 hmem
    obtain ⟨hne, hletters⟩ := Text.isWord_of_mem_words hw
    rw [← htext, String.toList_ofList]
    exact ⟨by simpa using hne, hletters⟩
  · rw [← String.toList_inj, String.toList_join, map_text_tokens, String.toList_ofList,
      ← Text.flatten_words, List.flatMap_map]
    simp [List.flatMap_def]
  · intro t ht
    have hmem : place t ∈ lexemesFrom 1 (Text.lines source.toList) := by
      rw [← map_place_tokens]
      exact List.mem_map_of_mem ht
    obtain ⟨i, line, hline, hcs, hw⟩ := exists_line_of_mem_lexemesFrom hmem
    obtain ⟨offset, hcolumn, hoccurs⟩ := Text.occursAt_of_mem_lexemes hw
    change t.line = 1 + i at hline
    change t.column = 1 + offset at hcolumn
    refine ⟨by omega, by omega, line, ?_, ?_⟩
    · rw [hline, Nat.add_sub_cancel_left]
      exact hcs
    · rw [hcolumn, Nat.add_sub_cancel_left]
      exact hoccurs
  · have hplaces := pairwise_lexemesFrom 1 (Text.lines source.toList)
    rw [← map_place_tokens, List.pairwise_map] at hplaces
    exact hplaces

-- a lone carriage return and a byte order mark are blanks within their line, and a character
-- outside the basic plane takes up two columns
example : tokens "a\rb\r\n\ufeff😀 c" =
    [⟨"a", 0, 1, 1⟩, ⟨"b", 1, 1, 3⟩, ⟨"😀", 2, 2, 2⟩, ⟨"c", 3, 2, 5⟩] := by
  decide

end Source

end StackMachine
