import Mathlib.Data.List.Basic
import StackMachine.Source.Token

/-!
# The words of a text

A source text is cut into lines first and each line into lexemes afterwards, by a scan from
the right that keeps columns. This module shows that neither the line structure nor the
columns matter for which words there are: the texts of the tokens are the non-empty pieces
between blanks, `Text.words`, of the text as a whole. A line end is a blank, possibly after
another blank, so cutting at it first changes nothing.

## Main results

* `Text.words_append_blank`: words split at every blank. The laws of concatenation follow
  from this one equation.
* `Text.map_chars_lexemes`: the lexemes of a line are its words.
* `Text.flatMap_words_lines`: the words of the lines are the words of the text.
* `Source.map_text_tokens`: the texts of the tokens are the words of the source.
-/

namespace StackMachine

namespace Text

/-- The **words** of a text: the pieces between blanks that are not empty. -/
def words (cs : List Char) : List (List Char) :=
  (cs.splitOnP isBlank).filter (· ≠ [])

/-- A text that is one word. -/
def IsWord (cs : List Char) : Prop := cs ≠ [] ∧ ∀ c ∈ cs, isBlank c = false

/-! ### Equations -/

/-- There is no word in the empty text. -/
@[simp] theorem words_nil : words [] = [] := rfl

/-- Words split at a blank. -/
theorem words_append_blank {c : Char} (hc : isBlank c = true) (xs ys : List Char) :
    words (xs ++ c :: ys) = words xs ++ words ys := by
  rw [words, List.splitOnP_append_cons xs ys hc, List.filter_append]
  rfl

/-- A blank at the front belongs to no word. -/
theorem words_cons_blank {c : Char} (hc : isBlank c = true) (cs : List Char) :
    words (c :: cs) = words cs := by
  simpa using words_append_blank hc [] cs

/-- Blanks between two texts separate their words. -/
theorem words_append_of_blanks {blanks : List Char} (hne : blanks ≠ [])
    (h : ∀ c ∈ blanks, isBlank c = true) (xs ys : List Char) :
    words (xs ++ (blanks ++ ys)) = words xs ++ words ys := by
  induction blanks generalizing xs with
  | nil => exact absurd rfl hne
  | cons c blanks ih =>
      obtain ⟨hc, hblanks⟩ := List.forall_mem_cons.1 h
      rw [List.cons_append, words_append_blank hc]
      rcases blanks with _ | ⟨d, blanks⟩
      · rfl
      · exact congrArg (words xs ++ ·) (ih (List.cons_ne_nil d blanks) hblanks [])

/-- A word has itself as its only word. -/
theorem IsWord.words_eq {cs : List Char} (h : IsWord cs) : words cs = [cs] := by
  obtain ⟨hne, hletters⟩ := h
  simp [words, List.splitOnP_eq_singleton hletters, hne]

/-- Texts joined by a blank keep their words. -/
theorem words_intercalate {c : Char} (hc : isBlank c = true) (pieces : List (List Char)) :
    words ([c].intercalate pieces) = pieces.flatMap words := by
  induction pieces with
  | nil => rfl
  | cons piece pieces ih =>
      cases pieces with
      | nil => simp
      | cons next pieces =>
          rw [List.intercalate_cons_cons, List.append_assoc, List.singleton_append,
            words_append_blank hc, ih]
          rfl

/-- A character that is not blank joins the word that begins right after it, and is a word
of its own if none does. -/
theorem words_cons_letter {c : Char} (hc : isBlank c = false) (cs : List Char) :
    words (c :: cs) =
      if cs.head?.any (fun d => !isBlank d) then (words cs).modifyHead (c :: ·)
      else [c] :: words cs := by
  cases cs with
  | nil => simp [words, List.splitOnP_cons_eq_if_modifyHead, hc]
  | cons d ds =>
      obtain ⟨piece, pieces, hsplit⟩ :=
        List.exists_cons_of_ne_nil (List.splitOnP_ne_nil isBlank ds)
      by_cases hd : isBlank d = true
      · simp [words, List.splitOnP_cons_eq_if_modifyHead, hc, hd]
      · simp [words, List.splitOnP_cons_eq_if_modifyHead, hc, hd, hsplit]

/-- A text that begins with a letter has a word. -/
theorem words_ne_nil {cs : List Char} (h : cs.head?.any (fun d => !isBlank d) = true) :
    words cs ≠ [] := by
  cases cs with
  | nil => simp at h
  | cons c cs =>
      have hc : isBlank c = false := by simpa using h
      rw [words_cons_letter hc]
      split
      · rename_i hrest
        have := words_ne_nil hrest
        cases hw : words cs with
        | nil => exact absurd hw this
        | cons w more => simp
      · simp

/-! ### Lexemes -/

/-- Columns only grow. -/
theorem le_column_of_mem_lexemes {column : Nat} {cs : List Char} {w : Lexeme}
    (h : w ∈ lexemes column cs) : column ≤ w.column := by
  induction cs generalizing column w with
  | nil => simp [lexemes] at h
  | cons c cs ih =>
      simp only [lexemes] at h
      split at h
      · have := ih h
        omega
      · split at h
        · simp only [List.mem_singleton] at h
          simp [h]
        · rename_i first more hlater
          have hmore : ∀ x ∈ first :: more, column ≤ x.column := by
            intro x hx
            have := ih (hlater ▸ hx)
            omega
          split at h
          · rcases List.mem_cons.1 h with rfl | h
            · simp
            · exact hmore w (List.mem_cons_of_mem _ h)
          · rcases List.mem_cons.1 h with rfl | h
            · simp
            · exact hmore w h

/-- A line has a lexeme in its first column exactly if it begins with a letter. -/
theorem head_lexemes_column (column : Nat) (cs : List Char) :
    (lexemes column cs).head?.any (fun w => w.column = column) =
      cs.head?.any (fun d => !isBlank d) := by
  cases cs with
  | nil => simp [lexemes]
  | cons c cs =>
      have hunits : 0 < units c := by
        rw [units]
        split <;> omega
      by_cases hc : isBlank c = true
      · -- every lexeme stands behind the blank
        cases hlater : lexemes (column + units c) cs with
        | nil => simp [lexemes, hc, hlater]
        | cons w more =>
            have hmem : w ∈ lexemes (column + units c) cs := by simp [hlater]
            have hw : column + units c ≤ w.column := le_column_of_mem_lexemes hmem
            have hne : w.column ≠ column := by omega
            simp [lexemes, hc, hlater, hne]
      · cases hlater : lexemes (column + units c) cs with
        | nil => simp [lexemes, hc, hlater]
        | cons w more =>
            by_cases hw : w.column = column + units c <;> simp [lexemes, hc, hlater, hw]

/-- **Lexemes are words.** The scan joins a letter to the lexeme behind it exactly if that
lexeme begins in the next column. -/
theorem map_chars_lexemes (column : Nat) (cs : List Char) :
    (lexemes column cs).map Lexeme.chars = words cs := by
  induction cs generalizing column with
  | nil => rfl
  | cons c cs ih =>
      have hlater := ih (column + units c)
      have hhead := head_lexemes_column (column + units c) cs
      by_cases hc : isBlank c = true
      · rw [words_cons_blank hc, ← hlater]
        simp [lexemes, hc]
      · rw [words_cons_letter (by simpa using hc), ← hlater, ← hhead]
        cases hcs : lexemes (column + units c) cs with
        | nil => simp [lexemes, hc, hcs]
        | cons w more => by_cases hw : w.column = column + units c <;> simp [lexemes, hc, hcs, hw]

/-! ### Lines -/

/-- There is a first line, and it begins as the text does, unless it is empty because the
text begins with a line end or is empty itself. -/
theorem lines_eq_cons (cs : List Char) :
    ∃ line more, lines cs = line :: more ∧
      (line.head? = cs.head? ∨ line = [] ∧ cs.head?.any (fun d => !isBlank d) = false) := by
  fun_cases lines cs with
  | case1 => exact ⟨[], [], rfl, Or.inl rfl⟩
  | case2 rest => exact ⟨[], lines rest, rfl, Or.inr ⟨rfl, rfl⟩⟩
  | case3 rest => exact ⟨[], lines rest, rfl, Or.inr ⟨rfl, rfl⟩⟩
  | case4 c rest => exact ⟨[c], [], rfl, Or.inl rfl⟩
  | case5 c rest _ _ line more => exact ⟨c :: line, more, rfl, Or.inl rfl⟩

/-- **Cutting a text into lines keeps its words.** A letter joins the same word in its line
as in the text, because the line begins as the text does or the letter stands before a
line end. -/
theorem flatMap_words_lines (cs : List Char) : (lines cs).flatMap words = words cs := by
  fun_induction lines cs with
  | case1 => rfl
  | case2 rest ih =>
      rw [List.flatMap_cons, words_nil, List.nil_append, ih]
      exact (words_cons_blank rfl rest).symm
  | case3 rest ih =>
      rw [List.flatMap_cons, words_nil, List.nil_append, ih, words_cons_blank rfl,
        words_cons_blank rfl]
  | case4 c rest _ _ hnil =>
      obtain ⟨line, more, hlines, -⟩ := lines_eq_cons rest
      exact absurd hnil (by simp [hlines])
  | case5 c rest _ _ line more hlines ih =>
      rw [hlines, List.flatMap_cons] at ih
      rw [List.flatMap_cons]
      by_cases hc : isBlank c = true
      · rw [words_cons_blank hc, words_cons_blank hc, ih]
      · obtain ⟨line', more', hlines', hhead⟩ := lines_eq_cons rest
        obtain ⟨rfl, rfl⟩ : line = line' ∧ more = more' := by
          rw [hlines] at hlines'
          exact List.cons.inj hlines'
        have hsame : line.head?.any (fun d => !isBlank d) =
            rest.head?.any (fun d => !isBlank d) := by
          rcases hhead with hhead | ⟨rfl, hrest⟩
          · rw [hhead]
          · rw [hrest]
            rfl
        rw [words_cons_letter (by simpa using hc), words_cons_letter (by simpa using hc), hsame,
          ← ih]
        split
        · rename_i hletter
          obtain ⟨w, ws, hw⟩ := List.exists_cons_of_ne_nil (words_ne_nil (hsame.trans hletter))
          rw [hw]
          rfl
        · rfl

end Text

/-! ### Tokens -/

namespace Source

/-- Numbering words keeps their characters. -/
theorem map_text_enumerate (index : Nat) (ws : List (Nat × Text.Lexeme)) :
    (enumerate index ws).map Token.text = ws.map fun w => String.ofList w.2.chars := by
  induction ws generalizing index with
  | nil => rfl
  | cons w ws ih => simp [enumerate, ih]

/-- Words are numbered in turn. -/
theorem index_of_getElem?_enumerate {index i : Nat} {ws : List (Nat × Text.Lexeme)} {t : Token}
    (h : (enumerate index ws)[i]? = some t) : t.index = index + i := by
  induction ws generalizing index i with
  | nil => cases h
  | cons w ws ih =>
      cases i with
      | zero =>
          obtain rfl := Option.some.inj h
          rfl
      | succ i =>
          have hrest : t.index = index + 1 + i := ih h
          omega

/-- Tokens are numbered from `0`. -/
theorem index_of_getElem?_tokens {source : String} {i : Nat} {t : Token}
    (h : (tokens source)[i]? = some t) : t.index = i := by
  rw [index_of_getElem?_enumerate h, Nat.zero_add]

/-- Numbering lines keeps the characters of their words. -/
theorem map_chars_lexemesFrom (line : Nat) (ls : List (List Char)) :
    (lexemesFrom line ls).map (fun w => w.2.chars) = ls.flatMap Text.words := by
  induction ls generalizing line with
  | nil => rfl
  | cons cs ls ih =>
      rw [lexemesFrom, List.map_append, List.map_map, ih, List.flatMap_cons,
        ← Text.map_chars_lexemes 1 cs]
      rfl

/-- **The texts of the tokens are the words of the source.** -/
theorem map_text_tokens (source : String) :
    (tokens source).map Token.text = (Text.words source.toList).map String.ofList := by
  rw [tokens, map_text_enumerate, ← Text.flatMap_words_lines, ← map_chars_lexemesFrom 1,
    List.map_map]
  rfl

end Source

end StackMachine
