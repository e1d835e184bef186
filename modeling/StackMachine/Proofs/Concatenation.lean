import StackMachine.Proofs.Lexicon
import StackMachine.Proofs.Positions

/-!
# Sources one after the other

Two sources with blanks between them are a source again. Its tokens are those of the first
source, places included, and then those of the second one, numbered on. Where exactly the latter
stand depends on the blanks: behind a line feed they keep their columns, and their lines are
counted on.

The first source may end in a carriage return, which becomes part of a line end if a line feed
follows. So the lines of the whole are not the lines of the parts; but a carriage return is a
blank, and both have the same lexemes. This is why the tokens are compared through the pieces
between line feeds, of which those of the whole are made.

## Main results

* `Source.lexemesFrom_lines`: only line feeds matter for the places of words.
* `Source.exists_tokens_append`: the tokens of two sources with blanks between them.
* `Source.tokens_append_newline`: the same for a line feed, with all places.
* `Source.mapM_compile_cases`: tokens with the same texts compile to the same or fail at the same
  place.
* `Source.compile_concatenation`: **compilation is compositional and ignores layout**.
-/

namespace StackMachine

/-! ### Pieces between line feeds -/

namespace Text

/-- What stands before the first separator belongs to the first piece. -/
theorem splitOn_append_of_notMem {a : Char} {xs : List Char} (h : a ∉ xs) (ys : List Char) :
    (xs ++ ys).splitOn a = (ys.splitOn a).modifyHead (xs ++ ·) := by
  obtain ⟨piece, pieces, hys⟩ := List.exists_cons_of_ne_nil (List.splitOn_ne_nil a ys)
  induction xs with
  | nil => simp [hys]
  | cons x xs ih =>
      obtain ⟨hx, hxs⟩ := not_or.1 (mt List.mem_cons.2 h)
      have hne : (x == a) = false := by simpa using Ne.symm hx
      rw [List.cons_append, List.splitOn_cons_eq_if_modifyHead, hne, ih hxs, hys]
      rfl

/-- A carriage return at the end of a line is in no lexeme. -/
theorem lexemes_append_return (column : Nat) (line : List Char) :
    lexemes column (line ++ ['\r']) = lexemes column line := by
  rw [lexemes_append_blank rfl, lexemes, List.append_nil]

/-- Each line has the lexemes of a piece between line feeds, which it is but for a carriage
return. -/
theorem Ruled.forall₂_splitOn {cs : List Char} {ls : List (List Char)} (h : Ruled cs ls) :
    List.Forall₂ (fun line piece => ∀ column, lexemes column line = lexemes column piece)
      ls (cs.splitOn '\n') := by
  induction h with
  | last line h =>
      rw [List.splitOn_eq_singleton h]
      exact .cons (fun _ => rfl) .nil
  | feed line h _ _ ih =>
      rw [List.splitOn_append_cons_self_of_not_mem h]
      exact .cons (fun _ => rfl) ih
  | returnFeed line h _ ih =>
      have hreturn : '\n' ∉ line ++ ['\r'] := by simpa using h
      rw [List.append_cons, List.splitOn_append_cons_self_of_not_mem hreturn]
      exact .cons (fun column => (lexemes_append_return column line).symm) ih

end Text

namespace Source

/-- **Only line feeds matter for the places of words.** -/
theorem lexemesFrom_lines (line : Nat) (cs : List Char) :
    lexemesFrom line (Text.lines cs) = lexemesFrom line (cs.splitOn '\n') := by
  have h := (Text.ruled_lines cs).forall₂_splitOn
  generalize Text.lines cs = ls, cs.splitOn '\n' = pieces at h
  induction h generalizing line with
  | nil => rfl
  | cons hline _ ih => rw [lexemesFrom, lexemesFrom, hline, ih]

/-- The words of lines in two parts are those of the first, and those of the second further down. -/
theorem lexemesFrom_append (line : Nat) (ls ls' : List (List Char)) :
    lexemesFrom line (ls ++ ls') = lexemesFrom line ls ++ lexemesFrom (line + ls.length) ls' := by
  induction ls generalizing line with
  | nil => rfl
  | cons cs ls ih =>
      rw [List.cons_append, lexemesFrom, lexemesFrom, ih, List.append_assoc, List.length_cons,
        Nat.add_right_comm, Nat.add_assoc]

/-- The lexemes of a line split at the blank behind it, whether or not it is a line feed. -/
theorem exists_lexemesFrom_line {c : Char} (hc : Text.isBlank c = true) (line : Nat)
    {xs : List Char} (hxs : '\n' ∉ xs) (ys : List Char) :
    ∃ more, lexemesFrom line ((xs ++ c :: ys).splitOn '\n') =
      lexemesFrom line (xs.splitOn '\n') ++ more := by
  obtain ⟨piece, pieces, hys⟩ := List.exists_cons_of_ne_nil (List.splitOn_ne_nil '\n' ys)
  rw [Text.splitOn_append_of_notMem hxs, List.splitOn_eq_singleton hxs,
    List.splitOn_cons_eq_if_modifyHead, hys]
  by_cases hfeed : (c == '\n') = true
  · rw [if_pos hfeed]
    exact ⟨lexemesFrom (line + 1) (piece :: pieces), by simp [lexemesFrom]⟩
  · rw [if_neg hfeed]
    simp only [List.modifyHead_cons, lexemesFrom, Text.lexemes_append_blank hc, List.map_append,
      List.append_assoc, List.append_nil, List.append_cancel_left_eq]
    exact ⟨_, rfl⟩

/-- The words before a blank stand where they do without what follows. -/
theorem exists_lexemesFrom_append {c : Char} (hc : Text.isBlank c = true) (line : Nat)
    (xs ys : List Char) :
    ∃ more, lexemesFrom line ((xs ++ c :: ys).splitOn '\n') =
      lexemesFrom line (xs.splitOn '\n') ++ more := by
  by_cases hfeed : '\n' ∈ xs
  · -- all pieces but the last are complete
    obtain ⟨last, earlier, hxs, hlast⟩ := List.eq_append_cons_of_mem (List.mem_reverse.2 hfeed)
    obtain rfl : xs = earlier.reverse ++ '\n' :: last.reverse := by
      rw [← List.reverse_reverse xs, hxs]
      simp
    have hline : '\n' ∉ last.reverse := by simpa using hlast
    obtain ⟨more, hmore⟩ :=
      exists_lexemesFrom_line hc (line + (earlier.reverse.splitOn '\n').length) hline ys
    rw [List.append_assoc, List.cons_append, List.splitOn_append_cons_self,
      List.splitOn_append_cons_self, lexemesFrom_append, lexemesFrom_append, hmore]
    exact ⟨more, (List.append_assoc _ _ _).symm⟩
  · exact exists_lexemesFrom_line hc line hfeed ys

/-! ### Tokens -/

/-- Words in two parts are counted on from the first into the second. -/
theorem enumerate_append (index : Nat) (ws vs : List (Nat × Text.Lexeme)) :
    enumerate index (ws ++ vs) = enumerate index ws ++ enumerate (index + ws.length) vs := by
  induction ws generalizing index with
  | nil => rfl
  | cons w ws ih =>
      obtain ⟨line, w⟩ := w
      rw [List.cons_append, enumerate, enumerate, ih, List.cons_append, List.length_cons,
        Nat.add_right_comm, Nat.add_assoc]

/-- The tokens before a blank do not depend on what follows. -/
theorem exists_tokens_append_blank {c : Char} (hc : Text.isBlank c = true) (s : String)
    (cs : List Char) : ∃ us, tokens (s ++ String.ofList (c :: cs)) = tokens s ++ us := by
  obtain ⟨more, hmore⟩ := exists_lexemesFrom_append hc 1 s.toList cs
  rw [tokens, tokens, String.toList_append, String.toList_ofList, lexemesFrom_lines, hmore,
    ← lexemesFrom_lines, enumerate_append]
  exact ⟨_, rfl⟩

/-- The words of two sources with blanks between them. -/
theorem map_text_tokens_append {w : String} (hw : w ≠ "")
    (hblank : ∀ c ∈ w.toList, Text.isBlank c = true) (s t : String) :
    (tokens (s ++ w ++ t)).map Token.text =
      (tokens s).map Token.text ++ (tokens t).map Token.text := by
  have hne : w.toList ≠ [] := by simpa using hw
  rw [map_text_tokens, map_text_tokens, map_text_tokens, String.append_assoc,
    String.toList_append, String.toList_append, Text.words_append_of_blanks hne hblank,
    List.map_append]

/-- Tokens behind others in a source are numbered on. -/
theorem forall₂_tokens {r t : String} {front us : List Token} (hr : tokens r = front ++ us)
    (htexts : us.map Token.text = (tokens t).map Token.text) :
    List.Forall₂ (fun u u' => u'.text = u.text ∧ u'.index = front.length + u.index)
      (tokens t) us := by
  have hlength : (tokens t).length = us.length := by
    simpa using (congrArg List.length htexts).symm
  refine List.forall₂_iff_get.2 ⟨hlength, ?_⟩
  intro i hi hi'
  constructor
  · have htext := List.getElem_of_eq htexts (i := i) (by simpa using hi')
    simpa using htext
  · have hindex : (tokens t)[i].index = i :=
      index_of_getElem?_tokens (List.getElem?_eq_getElem hi)
    have hget : (tokens r)[front.length + i]? = some us[i] := by
      rw [hr, List.getElem?_append_right (Nat.le_add_right _ _), Nat.add_sub_cancel_left]
      exact List.getElem?_eq_getElem hi'
    rw [List.get_eq_getElem, List.get_eq_getElem, hindex, index_of_getElem?_tokens hget]

/-- A token with some tokens and lines before it. -/
def moved (count lines : Nat) (t : Token) : Token :=
  { t with index := count + t.index, line := lines + t.line }

/-- Words that begin further down have their lines moved. -/
theorem lexemesFrom_add (n line : Nat) (ls : List (List Char)) :
    lexemesFrom (n + line) ls = (lexemesFrom line ls).map fun w => (n + w.1, w.2) := by
  induction ls generalizing line with
  | nil => rfl
  | cons cs ls ih =>
      rw [lexemesFrom, lexemesFrom, Nat.add_assoc, ih, List.map_append, List.map_map]
      rfl

/-- Words further down and counted later are the moved tokens. -/
theorem enumerate_map (count lines index : Nat) (ws : List (Nat × Text.Lexeme)) :
    enumerate (count + index) (ws.map fun w => (lines + w.1, w.2)) =
      (enumerate index ws).map (moved count lines) := by
  induction ws generalizing index with
  | nil => rfl
  | cons w ws ih =>
      rw [List.map_cons, enumerate, Nat.add_assoc, ih]
      rfl

/-- **The tokens of two sources with a line feed between them**: those of the second one keep
their columns, and their lines are counted on. -/
theorem tokens_append_newline (s t : String) :
    tokens (s ++ "\n" ++ t) =
      tokens s ++ (tokens t).map (moved (tokens s).length (Text.lines s.toList).length) := by
  have hlist : (s ++ "\n" ++ t).toList = s.toList ++ '\n' :: t.toList := by
    simp [String.toList_append]
  have hlines : (Text.lines s.toList).length = (s.toList.splitOn '\n').length :=
    (Text.ruled_lines s.toList).forall₂_splitOn.length_eq
  have hcount : (tokens s).length = (lexemesFrom 1 (Text.lines s.toList)).length := by
    rw [← map_place_tokens, List.length_map]
  rw [tokens, hlist, lexemesFrom_lines, List.splitOn_append_cons_self, lexemesFrom_append,
    enumerate_append, ← lexemesFrom_lines, hlines, hcount, Nat.add_comm 0, Nat.add_comm 1,
    lexemesFrom_add, enumerate_map, ← lexemesFrom_lines]
  rfl

/-- A token of a source as it stands behind another source and blanks: it has the tokens of that
source before it, and if a line feed is what is between them, also its lines. -/
def Continues (s w : String) (u u' : Token) : Prop :=
  u'.text = u.text ∧ u'.index = (tokens s).length + u.index ∧
    (w = "\n" → u'.line = (Text.lines s.toList).length + u.line ∧ u'.column = u.column)

/-- **The tokens of two sources with blanks between them**: those of the first source, and then
those of the second one. -/
theorem exists_tokens_append {w : String} (hw : w ≠ "")
    (hblank : ∀ c ∈ w.toList, Text.isBlank c = true) (s t : String) :
    ∃ us, tokens (s ++ w ++ t) = tokens s ++ us ∧
      List.Forall₂ (Continues s w) (tokens t) us := by
  by_cases hfeed : w = "\n"
  · subst hfeed
    refine ⟨_, tokens_append_newline s t, ?_⟩
    rw [List.forall₂_map_right_iff, List.forall₂_same]
    exact fun u _ => ⟨rfl, rfl, fun _ => ⟨rfl, rfl⟩⟩
  · obtain ⟨c, cs, hcs⟩ := List.exists_cons_of_ne_nil (by simpa using hw : w.toList ≠ [])
    have hc : Text.isBlank c = true := hblank c (by simp [hcs])
    have hrest : w ++ t = String.ofList (c :: (cs ++ t.toList)) := by
      rw [← String.toList_inj, String.toList_append, hcs, String.toList_ofList]
      rfl
    obtain ⟨us, hus⟩ := exists_tokens_append_blank hc s (cs ++ t.toList)
    rw [← hrest, ← String.append_assoc] at hus
    have htexts := map_text_tokens_append hw hblank s t
    rw [hus, List.map_append] at htexts
    refine ⟨us, hus, (forall₂_tokens hus (List.append_cancel_left htexts)).imp ?_⟩
    exact fun u u' h => ⟨h.1, h.2, fun heq => absurd heq hfeed⟩

/-! ### Compilation -/

/-- **Tokens with the same texts compile to the same program or fail at the same place.** -/
theorem mapM_compile_cases {R : Token → Token → Prop} (hR : ∀ t u, R t u → u.text = t.text)
    {ts us : List Token} (h : List.Forall₂ R ts us) :
    (∃ p, ts.mapM Token.compile = .ok p ∧ us.mapM Token.compile = .ok p) ∨
      ∃ t ∈ ts, ∃ u ∈ us, R t u ∧ ts.mapM Token.compile = .error t.bad ∧
        us.mapM Token.compile = .error u.bad := by
  induction h with
  | nil => exact .inl ⟨[], rfl, rfl⟩
  | @cons t u ts us htu _ ih =>
      rw [List.mapM_cons, List.mapM_cons, Token.compile, Token.compile, hR t u htu,
        Instr.ofTokenOr, Instr.ofTokenOr]
      rcases Instr.ofToken? t.text with _ | ins
      · exact .inr ⟨t, List.mem_cons_self, u, List.mem_cons_self, htu, rfl, rfl⟩
      · rcases ih with ⟨p, hts, hus⟩ | ⟨t', ht', u', hu', htu', hts, hus⟩
        · rw [hts, hus]
          exact .inl ⟨ins :: p, rfl, rfl⟩
        · rw [hts, hus]
          exact .inr ⟨t', List.mem_cons_of_mem _ ht', u', List.mem_cons_of_mem _ hu', htu', rfl,
            rfl⟩

/-- **Compilation is compositional and ignores layout.** With blanks between them, two sources
have the words of the first and then those of the second one, and they compile to their programs
in turn. If the first one fails, the whole fails with the same report. If only the second one
fails, the whole fails at the same word, which has the tokens of the first source before it; and
behind a line feed it is in the same column, with the lines of the first source before it. So two
sources with the same words compile to the same program or fail at the same word. -/
theorem compile_concatenation (s t w : String) (hw : w ≠ "")
    (hblank : ∀ c ∈ w.toList, Text.isBlank c = true) :
    (tokens (s ++ w ++ t)).map Token.text =
      (tokens s).map Token.text ++ (tokens t).map Token.text ∧
    (∀ p q, compile s = .ok p → compile t = .ok q → compile (s ++ w ++ t) = .ok (p ++ q)) ∧
    (∀ b, compile s = .error b → compile (s ++ w ++ t) = .error b) ∧
    (∀ p b, compile s = .ok p → compile t = .error b →
      ∃ u ∈ tokens t, ∃ u' ∈ tokens (s ++ w ++ t), b = u.bad ∧
        compile (s ++ w ++ t) = .error u'.bad ∧ u'.bad.diagnostic.code.name = "E_TOKEN" ∧
        u'.text = u.text ∧ u'.index = (tokens s).length + u.index ∧
        (w = "\n" → u'.line = (Text.lines s.toList).length + u.line ∧ u'.column = u.column)) ∧
    (∀ s', (tokens s').map Token.text = (tokens s).map Token.text →
      (∃ p, compile s = .ok p ∧ compile s' = .ok p) ∨
      ∃ u ∈ tokens s, ∃ u' ∈ tokens s', compile s = .error u.bad ∧ compile s' = .error u'.bad ∧
        u'.text = u.text ∧ u'.index = u.index) := by
  obtain ⟨us, hus, hafter⟩ := exists_tokens_append hw hblank s t
  have hcompile : compile (s ++ w ++ t) = do
      let p ← compile s
      let q ← us.mapM Token.compile
      return p ++ q := by
    rw [compile, hus, List.mapM_append]
    rfl
  -- The second source is compiled from other tokens than alone: they are further on in the text.
  have hcases := mapM_compile_cases (fun _ _ h => h.1) hafter
  refine ⟨map_text_tokens_append hw hblank s t, ?_, ?_, ?_, ?_⟩
  · intro p q hs ht
    rcases hcases with ⟨p', hts, hus'⟩ | ⟨u, -, u', -, -, hts, -⟩
    · obtain rfl : p' = q := Except.ok.inj (hts.symm.trans ht)
      rw [hcompile, hs, hus']
      rfl
    · cases hts.symm.trans ht
  · intro b hs
    rw [hcompile, hs]
    rfl
  · intro p b hs ht
    rcases hcases with ⟨p', hts, -⟩ | ⟨u, hu, u', hu', ⟨htext, hindex, hplace⟩, hts, hus'⟩
    · cases hts.symm.trans ht
    · refine ⟨u, hu, u', ?_, Except.error.inj (ht.symm.trans hts), ?_, rfl, htext, hindex, hplace⟩
      · rw [hus]
        exact List.mem_append_right _ hu'
      · rw [hcompile, hs, hus']
        rfl
  · intro s' htexts
    have hsame := forall₂_tokens (List.nil_append (tokens s')).symm htexts
    rcases mapM_compile_cases (fun _ _ h => h.1) hsame with
      h | ⟨u, hu, u', hu', ⟨htext, hindex⟩, h, h'⟩
    · exact .inl h
    · refine .inr ⟨u, hu, u', hu', h, h', htext, ?_⟩
      simpa using hindex

/-- The first source ends in a carriage return, which becomes part of the line end. -/
theorem compile_concatenation_return :
    let s := "1 2:\r"
    let t := "  \u3000bogus +"
    (∀ c ∈ "\n".toList, Text.isBlank c = true) ∧ compile s = .ok [.lit 1, .label 2] ∧
    compile t = .error (Token.bad ⟨"bogus", 0, 1, 4⟩) ∧
    compile (s ++ "\n" ++ t) = .error (Token.bad ⟨"bogus", 2, 2, 4⟩) := by
  intro s t
  have hblank : ∀ c ∈ "\n".toList, Text.isBlank c = true :=
    List.forall_mem_singleton.2 (by decide)
  have hs : compile s = .ok [.lit 1, .label 2] := by decide +kernel
  have ht : compile t = .error (Token.bad ⟨"bogus", 0, 1, 4⟩) := by decide +kernel
  have htokens : tokens t = [⟨"bogus", 0, 1, 4⟩, ⟨"+", 1, 1, 10⟩] := by decide +kernel
  have hcounts : (tokens s).length = 2 ∧ (Text.lines s.toList).length = 1 := by decide +kernel
  obtain ⟨-, -, -, hfails, -⟩ := compile_concatenation s t "\n" (by decide) hblank
  obtain ⟨u, hu, u', -, hbad, hcompile, -, htext, hindex, hplace⟩ := hfails _ _ hs ht
  obtain ⟨hline, hcolumn⟩ := hplace rfl
  refine ⟨hblank, hs, ht, ?_⟩
  rw [hcounts.1] at hindex
  rw [hcounts.2] at hline
  rw [htokens] at hu
  rcases List.mem_pair.1 hu with rfl | rfl
  · obtain ⟨text, index, line, column⟩ := u'
    obtain ⟨rfl, rfl, rfl, rfl⟩ : text = "bogus" ∧ index = 2 ∧ line = 2 ∧ column = 4 :=
      ⟨htext, hindex, hline, hcolumn⟩
    exact hcompile
  · exact absurd (congrArg BadToken.text hbad) (by decide)

end Source

end StackMachine
