import StackMachine.Proofs.Listing

/-!
# The words of the source language

A word of source text stands for an operation, a literal or a label. This module states the
three classes as a grammar, apart from the compiler, and shows that the compiler accepts
exactly the words of these classes and reports the first word of a source that is in none.

A label is read through a rounding to binary64, but its number is exact however many digits
it is written with: rounding moves no number across the bound of the exact ones.

## Main definitions

* `Source.LabelWord`: the words of labels.
* `Source.Stands`: a word stands for an instruction.

## Main results

* `Instr.ofToken?_eq_some_iff`: the compiler reads a word as the instruction that it stands
  for.
* `Source.compile_eq_error_iff`: the first word of no class is reported.
* `Source.compile_language`: **the language of the compiler**.
-/

namespace StackMachine

namespace Source

/-! ### The three classes -/

/-- The word of a label: digits after an optional plus sign, and a colon. -/
inductive LabelWord : List Char → Nat → Prop where
  | plain {ds : List Char} {n : Nat} (h : Text.Numeral ds n) : LabelWord (ds ++ [':']) n
  | plus {ds : List Char} {n : Nat} (h : Text.Numeral ds n) : LabelWord ('+' :: (ds ++ [':'])) n

/-- A word stands for an instruction: for an operation by the table, for a literal of
sixty-four bits, or for a label of at most `2 ^ 53 - 1`. -/
inductive Stands (text : String) : Instr → Prop where
  | operation {op : Opcode} (h : text = op.token) : Stands text (.bare op)
  | literal {v : Int} (h : Text.Signed text.toList v) (hv : Word.InRange v) :
      Stands text (.lit v)
  | label {n : Nat} (h : LabelWord text.toList n) (hn : n ≤ Number.greatestSafe) :
      Stands text (.label n)

/-! ### They are disjoint -/

/-- There is a digit in a label. -/
theorem LabelWord.exists_digit {cs : List Char} {n : Nat} (h : LabelWord cs n) :
    ∃ c ∈ cs, c.isDigit = true := by
  cases h with
  | plain hds =>
      obtain ⟨c, hc, hd⟩ := hds.exists_digit
      exact ⟨c, List.mem_append_left _ hc, hd⟩
  | plus hds =>
      obtain ⟨c, hc, hd⟩ := hds.exists_digit
      exact ⟨c, List.mem_cons_of_mem _ (List.mem_append_left _ hc), hd⟩

/-- There is a colon in a label. -/
theorem LabelWord.colon_mem {cs : List Char} {n : Nat} (h : LabelWord cs n) : ':' ∈ cs := by
  cases h <;> simp

/-- A literal is no label, since no integer is written with a colon. -/
theorem not_labelWord_of_signed {cs : List Char} {v : Int} {n : Nat} (h : Text.Signed cs v) :
    ¬LabelWord cs n := by
  intro hlabel
  have hcolon : ∀ {ds : List Char} {m : Nat}, Text.Numeral ds m → ':' ∉ ds := by
    intro ds m hds hmem
    have hdigit := hds.digits.2 ':' hmem
    cases hdigit
  have hmem := hlabel.colon_mem
  cases h with
  | plain hds => exact hcolon hds hmem
  | plus hds | minus hds => exact hcolon hds (List.mem_of_ne_of_mem (by decide) hmem)

/-- The word of an operation has no digit, so it is neither a literal nor a label. -/
theorem not_digit_of_token {op : Opcode} {c : Char} (hc : c ∈ op.token.toList) :
    c.isDigit ≠ true := by
  intro hd
  have hnone := Opcode.ofToken?_eq_none hc hd
  rw [Opcode.ofToken?_token] at hnone
  cases hnone

/-! ### Reading a word -/

/-- A word is a literal exactly if it is a numeral with a sign and its value is in range. -/
theorem literal?_eq_some_iff {text : String} {v : Int} :
    literal? text = some v ↔ Text.Signed text.toList v ∧ Word.InRange v := by
  rw [← Text.integer?_eq_some_iff, literal?]
  cases Text.integer? text.toList with
  | none => simp
  | some u =>
      simp only [Option.ite_none_right_eq_some, Option.some.injEq]
      constructor
      · rintro ⟨hu, rfl⟩
        exact ⟨rfl, hu⟩
      · rintro ⟨rfl, hu⟩
        exact ⟨hu, rfl⟩

/-- The digits of a label stand between an optional plus sign and the final colon. -/
theorem eq_of_labelDigits? {cs ds : List Char} (h : labelDigits? cs = some ds) :
    cs = ds ++ [':'] ∨ cs = '+' :: (ds ++ [':']) := by
  have hbody : ∀ body : List Char,
      (if body.getLast? = some ':' then some body.dropLast else none) = some ds →
        body = ds ++ [':'] := by
    intro body hbody
    split at hbody
    next hlast =>
      obtain rfl := Option.some.inj hbody
      exact (List.dropLast_append_getLast? ':' hlast).symm
    next => cases hbody
  cases cs with
  | nil => cases h
  | cons c rest =>
      by_cases hc : c = '+'
      · subst hc
        exact .inr (congrArg ('+' :: ·) (hbody rest h))
      · refine .inl (hbody (c :: rest) ?_)
        rw [← h, labelDigits?.eq_def]
        simp [hc]

/-- The digits of the word of a label are found. -/
theorem LabelWord.exists_labelDigits? {cs : List Char} {n : Nat} (h : LabelWord cs n) :
    ∃ ds, labelDigits? cs = some ds ∧ Text.Numeral ds n := by
  cases h with
  | @plus ds n hds => exact ⟨ds, by simp [labelDigits?], hds⟩
  | @plain ds n hds =>
      refine ⟨ds, ?_, hds⟩
      rw [labelDigits?.eq_def]
      split
      next rest heq =>
        -- a numeral does not begin with a plus sign
        rcases List.append_eq_cons_iff.1 heq with ⟨hnil, -⟩ | ⟨ds', rfl, -⟩
        · exact absurd hnil hds.digits.1
        · exact absurd (hds.digits.2 '+' List.mem_cons_self) (by decide)
      next => simp

/-- **The label reader accepts exactly the words of safe labels**, and reads their exact
number. -/
theorem label?_eq_some_iff {text : String} {n : Nat} :
    label? text = some n ↔ LabelWord text.toList n ∧ n ≤ Number.greatestSafe := by
  constructor
  · intro h
    obtain ⟨ds, hds, h⟩ := Option.bind_eq_some_iff.1 h
    obtain ⟨m, hm, h⟩ := Option.bind_eq_some_iff.1 h
    rw [Number.safeNat?_nearest] at h
    split at h
    next hle =>
      obtain rfl := Option.some.inj h
      have hnumeral := Text.natural?_eq_some_iff.1 hm
      refine ⟨?_, hle⟩
      rcases eq_of_labelDigits? hds with heq | heq <;> rw [heq]
      · exact .plain hnumeral
      · exact .plus hnumeral
    next => cases h
  · rintro ⟨hword, hle⟩
    obtain ⟨ds, hds, hnumeral⟩ := hword.exists_labelDigits?
    have hvalue := Text.natural?_eq_some_iff.2 hnumeral
    simp [label?, hds, hvalue, Number.safeNat?_nearest, hle]

-- leading zeros do not count, and the two numbers above the bound, of which the second is
-- rounded to the first, are both refused
example : label? "+0009007199254740991:" = some 9007199254740991 ∧
    label? "9007199254740992:" = none ∧ label? "9007199254740993:" = none := by
  decide +kernel

end Source

/-- The word of an operation is looked up in the table. -/
theorem Opcode.ofToken?_eq_some_iff {text : String} {op : Opcode} :
    Opcode.ofToken? text = some op ↔ text = op.token := by
  constructor
  · intro h
    rw [Opcode.ofToken?] at h
    have htoken := List.find?_some h
    exact (beq_iff_eq.1 htoken).symm
  · rintro rfl
    exact Opcode.ofToken?_token op

/-- **A word is read as the instruction that it stands for.** The classes are disjoint, so it
does not matter in which order they are tried. -/
theorem Instr.ofToken?_eq_some_iff {text : String} {ins : Instr} :
    Instr.ofToken? text = some ins ↔ Source.Stands text ins := by
  rw [Instr.ofToken?]
  constructor
  · intro h
    split at h
    next op hop =>
      obtain rfl := Option.some.inj h
      exact .operation (Opcode.ofToken?_eq_some_iff.1 hop)
    next =>
      split at h
      next v hv =>
        obtain rfl := Option.some.inj h
        obtain ⟨hword, hrange⟩ := Source.literal?_eq_some_iff.1 hv
        exact .literal hword hrange
      next =>
        obtain ⟨n, hn, rfl⟩ := Option.map_eq_some_iff.1 h
        obtain ⟨hword, hle⟩ := Source.label?_eq_some_iff.1 hn
        exact .label hword hle
  · intro h
    cases h with
    | operation hop => rw [Opcode.ofToken?_eq_some_iff.2 hop]
    | literal hword hrange =>
        obtain ⟨c, hc, hd⟩ := hword.exists_digit
        rw [Opcode.ofToken?_eq_none hc hd, Source.literal?_eq_some_iff.2 ⟨hword, hrange⟩]
    | label hword hle =>
        obtain ⟨c, hc, hd⟩ := hword.exists_digit
        have hliteral : Source.literal? text = none := by
          refine Option.eq_none_iff_forall_ne_some.2 ?_
          intro v hv
          exact Source.not_labelWord_of_signed (Source.literal?_eq_some_iff.1 hv).1 hword
        rw [Opcode.ofToken?_eq_none hc hd, hliteral, Source.label?_eq_some_iff.2 ⟨hword, hle⟩]
        rfl

/-! ### Reading a source -/

/-- A sequence of two computations fails exactly if one of them is the first to fail. -/
theorem bind_eq_error_iff {ε α β : Type} {x : Except ε α} {f : α → Except ε β} {e : ε} :
    x >>= f = .error e ↔ x = .error e ∨ ∃ a, x = .ok a ∧ f a = .error e := by
  cases x <;> simp [bind, Except.bind]

/-- A traversal fails exactly if it succeeds at some first elements and fails at the next. -/
theorem mapM_eq_error_iff {ε α β : Type} {f : α → Except ε β} {l : List α} {e : ε} :
    l.mapM f = .error e ↔
      ∃ before a after, l = before ++ a :: after ∧ (∀ x ∈ before, ∃ b, f x = .ok b) ∧
        f a = .error e := by
  induction l with
  | nil =>
      refine iff_of_false ?_ ?_
      · rw [List.mapM_nil]
        exact nofun
      · rintro ⟨before, a, after, hl, -⟩
        simp at hl
  | cons a l ih =>
      rw [List.mapM_cons]
      constructor
      · intro h
        rcases bind_eq_error_iff.1 h with ha | ⟨b, hb, h⟩
        · exact ⟨[], a, l, rfl, List.forall_mem_nil _, ha⟩
        · rcases bind_eq_error_iff.1 h with hl | ⟨bs, -, h⟩
          · obtain ⟨before, x, after, rfl, hbefore, hx⟩ := ih.1 hl
            exact ⟨a :: before, x, after, rfl, List.forall_mem_cons.2 ⟨⟨b, hb⟩, hbefore⟩, hx⟩
          · cases h
      · rintro ⟨before, x, after, hl, hbefore, hx⟩
        cases before with
        | nil =>
            obtain ⟨rfl, rfl⟩ := List.cons.inj hl
            exact bind_eq_error_iff.2 (.inl hx)
        | cons y before =>
            obtain ⟨rfl, rfl⟩ := List.cons.inj hl
            obtain ⟨⟨b, hb⟩, hbefore⟩ := List.forall_mem_cons.1 hbefore
            have hrest := ih.2 ⟨before, x, after, rfl, hbefore, hx⟩
            exact bind_eq_error_iff.2 (.inr ⟨b, hb, bind_eq_error_iff.2 (.inl hrest)⟩)

/-- A token is compiled to the instruction that its text stands for. -/
theorem Token.compile_eq_ok_iff_stands {t : Token} {ins : Instr} :
    t.compile = .ok ins ↔ Source.Stands t.text ins := by
  rw [Token.compile_eq_ok_iff, Instr.ofToken?_eq_some_iff]

/-- A token that stands for nothing is reported with its place. -/
theorem Token.compile_eq_error_iff {t : Token} {b : BadToken} :
    t.compile = .error b ↔ (¬∃ ins, Source.Stands t.text ins) ∧ b = t.bad := by
  simp only [← Instr.ofToken?_eq_some_iff, Token.compile, Instr.ofTokenOr]
  cases Instr.ofToken? t.text with
  | none => simp [eq_comm]
  | some ins => simp

namespace Source

/-- A source compiles exactly to the instructions that its tokens stand for. -/
theorem compile_eq_ok_iff_stands {source : String} {p : Program} :
    compile source = .ok p ↔ List.Forall₂ (fun t ins => Stands t.text ins) (tokens source) p := by
  rw [compile, mapM_eq_ok_iff]
  simp only [Token.compile_eq_ok_iff_stands]

/-- An instruction of the program has the token of its index. -/
theorem exists_token_of_compile {source : String} {p : Program} {i : Nat} {ins : Instr}
    (h : compile source = .ok p) (hi : p[i]? = some ins) :
    ∃ t ∈ tokens source, t.index = i ∧ Stands t.text ins := by
  obtain ⟨hlength, hstands⟩ := List.forall₂_iff_get.1 (compile_eq_ok_iff_stands.1 h)
  obtain ⟨hlt, rfl⟩ := List.getElem?_eq_some_iff.1 hi
  have hlt' : i < (tokens source).length := hlength ▸ hlt
  have hindex : (tokens source)[i].index = i :=
    index_of_getElem?_tokens (List.getElem?_eq_getElem hlt')
  exact ⟨(tokens source)[i], List.getElem_mem hlt', hindex, hstands i hlt' hlt⟩

/-- **The first token that stands for nothing is reported.** -/
theorem compile_eq_error_iff {source : String} {b : BadToken} :
    compile source = .error b ↔
      ∃ before t after, tokens source = before ++ t :: after ∧
        (∀ u ∈ before, ∃ ins, Stands u.text ins) ∧ (¬∃ ins, Stands t.text ins) ∧ b = t.bad := by
  rw [compile, mapM_eq_error_iff]
  simp only [Token.compile_eq_ok_iff_stands, Token.compile_eq_error_iff]

/-- A source compiles exactly if each of its tokens stands for an instruction. -/
theorem exists_compile_iff {source : String} :
    (∃ p, compile source = .ok p) ↔ ∀ t ∈ tokens source, ∃ ins, Stands t.text ins := by
  constructor
  · rintro ⟨p, hp⟩ t ht
    rw [compile_eq_ok_iff_stands] at hp
    generalize tokens source = ts at hp ht
    induction hp with
    | nil => cases ht
    | cons hstands _ ih =>
        rcases List.mem_cons.1 ht with rfl | ht
        · exact ⟨_, hstands⟩
        · exact ih ht
  · intro h
    cases hc : compile source with
    | ok p => exact ⟨p, rfl⟩
    | error b =>
        obtain ⟨before, t, after, htokens, -, hbad, -⟩ := compile_eq_error_iff.1 hc
        exact absurd (h t (by simp [htokens])) hbad

/-- **The language of the compiler.** A token is compiled to the instruction that its text
stands for, and reported if it stands for none. The classes of texts are disjoint. A source
compiles exactly if all its tokens stand for instructions, and then to these, one by one;
otherwise the first token that does not is reported, with its text and its place. -/
theorem compile_language :
    (∀ (t : Token) ins, t.compile = .ok ins ↔ Stands t.text ins) ∧
    (∀ (t : Token) b, t.compile = .error b ↔ (¬∃ ins, Stands t.text ins) ∧ b = t.bad) ∧
    (∀ (op : Opcode) v, ¬Text.Signed op.token.toList v) ∧
    (∀ (op : Opcode) n, ¬LabelWord op.token.toList n) ∧
    (∀ cs v n, ¬(Text.Signed cs v ∧ LabelWord cs n)) ∧
    (∀ source, (∃ p, compile source = .ok p) ↔ ∀ t ∈ tokens source, ∃ ins, Stands t.text ins) ∧
    (∀ source p, compile source = .ok p ↔
      List.Forall₂ (fun t ins => Stands t.text ins) (tokens source) p) ∧
    (∀ source b, compile source = .error b ↔
      ∃ before t after, tokens source = before ++ t :: after ∧
        (∀ u ∈ before, ∃ ins, Stands u.text ins) ∧ (¬∃ ins, Stands t.text ins) ∧ b = t.bad) ∧
    (∀ t : Token, t.bad.diagnostic.code.name = "E_TOKEN" ∧
      t.bad.diagnostic.details = [("token", .text t.text), ("index", .number (.ofNat t.index)),
        ("line", .number (.ofNat t.line)), ("column", .number (.ofNat t.column))]) := by
  refine ⟨fun _ _ => Token.compile_eq_ok_iff_stands, fun _ _ => Token.compile_eq_error_iff, ?_, ?_,
    fun _ _ _ h => not_labelWord_of_signed h.1 h.2, fun _ => exists_compile_iff,
    fun _ _ => compile_eq_ok_iff_stands, fun _ _ => compile_eq_error_iff, fun _ => ⟨rfl, rfl⟩⟩
  · intro op v h
    obtain ⟨c, hc, hd⟩ := h.exists_digit
    exact not_digit_of_token hc hd
  · intro op n h
    obtain ⟨c, hc, hd⟩ := h.exists_digit
    exact not_digit_of_token hc hd

end Source

end StackMachine
