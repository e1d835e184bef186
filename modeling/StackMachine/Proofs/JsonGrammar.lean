import StackMachine.Proofs.JsonText

/-!
# The grammar of JSON

The strict grammar of the interchange format, stated apart from the reader: each predicate
below relates a stretch of text to what it spells, and longer stretches are concatenations of
shorter ones. The reader accepts exactly the texts of the grammar, with the values that they
spell.

The reader descends on a budget, and both directions follow it down by induction. What it
accepts within any budget is spelled by the grammar, and what the grammar spells it accepts
within a budget of twice the length, whatever follows; only a number needs a text behind it
that does not prolong it.

## Main definitions

* `Json.StringBody` and `Json.Quoted`: strings, with their escapes.
* `Json.Magnitude` and `Json.Numeric`: numbers.
* `Json.Value` and `Json.Element`: values, and values between blanks.

## Main results

* `Json.soundAt`: what is read is spelled.
* `Json.completeAt`: what is spelled is read.
* `Json.parse?_eq_some_iff`: **the reader accepts exactly the grammar.**
-/

namespace StackMachine.Json

/-! ### The grammar -/

/-- A stretch of blanks. -/
def Blanks (cs : List Char) : Prop := ∀ c ∈ cs, isSpace c = true

/-- The text between the quotes of a string, and the codes that it stands for. -/
inductive StringBody : List Char → List Nat → Prop where
  | nil : StringBody [] []
  /-- A character that stands for itself: no control character, no quote, no backslash. -/
  | plain {c : Char} {cs : List Char} {codes : List Nat} (hcontrol : 0x20 ≤ c.toNat)
      (hquote : c ≠ '"') (hslash : c ≠ '\\') (h : StringBody cs codes) :
      StringBody (c :: cs) (c.toNat :: codes)
  /-- An escape by one letter. -/
  | letter {c : Char} {code : Nat} {cs : List Char} {codes : List Nat}
      (hc : escaped? c = some code) (h : StringBody cs codes) :
      StringBody ('\\' :: c :: cs) (code :: codes)
  /-- An escape by four hexadecimal digits. -/
  | unit {a b c d : Char} {code : Nat} {cs : List Char} {codes : List Nat}
      (hunit : hexUnit? a b c d = some code) (h : StringBody cs codes) :
      StringBody ('\\' :: 'u' :: a :: b :: c :: d :: cs) (code :: codes)

/-- A string in quotes. -/
inductive Quoted : List Char → String → Prop where
  | mk {body : List Char} {codes : List Nat} (h : StringBody body codes) :
      Quoted ('"' :: (body ++ ['"'])) (String.ofList (joinCodes codes))

/-- The whole part of a number: a single zero, or digits of which the first is no zero. -/
inductive Whole : List Char → Prop where
  | zero : Whole ['0']
  | positive {d : Char} {ds : List Char} (hd : d.isDigit = true) (hzero : d ≠ '0')
      (hds : ∀ c ∈ ds, c.isDigit = true) : Whole (d :: ds)

/-- The fraction of a number, and its digits. -/
inductive Fraction : List Char → List Char → Prop where
  | none : Fraction [] []
  | point {ds : List Char} {n : Nat} (h : Text.Numeral ds n) : Fraction ('.' :: ds) ds

/-- The exponent of a number, and its value. -/
inductive Exponent : List Char → Int → Prop where
  | none : Exponent [] 0
  | mark {c : Char} {cs : List Char} {e : Int} (hc : c = 'e' ∨ c = 'E') (h : Text.Signed cs e) :
      Exponent (c :: cs) e

/-- A number without its sign: the digits before and behind the point, read as one numeral,
are scaled by the exponent less the length of the fraction. -/
inductive Magnitude (negative : Bool) : List Char → Number → Prop where
  | mk {whole fraction exponent ds : List Char} {e : Int} {n : Nat} (hwhole : Whole whole)
      (hfraction : Fraction fraction ds) (hexponent : Exponent exponent e)
      (hdigits : Text.Numeral (whole ++ ds) n) :
      Magnitude negative (whole ++ (fraction ++ exponent))
        (Number.ofDecimal negative n (e - ds.length))

/-- A number. -/
inductive Numeric : List Char → Number → Prop where
  | plain {cs : List Char} {x : Number} (h : Magnitude false cs x) : Numeric cs x
  | minus {cs : List Char} {x : Number} (h : Magnitude true cs x) : Numeric ('-' :: cs) x

mutual

/-- A value. -/
inductive Value : List Char → Json → Prop where
  | nullWord : Value ['n', 'u', 'l', 'l'] .null
  | trueWord : Value ['t', 'r', 'u', 'e'] (.bool true)
  | falseWord : Value ['f', 'a', 'l', 's', 'e'] (.bool false)
  | number {cs : List Char} {x : Number} (h : Numeric cs x) : Value cs (.number x)
  | string {cs : List Char} {s : String} (h : Quoted cs s) : Value cs (.string s)
  | emptyArray {ws : List Char} (h : Blanks ws) : Value ('[' :: (ws ++ [']'])) (.array [])
  | array {cs : List Char} {items : List Json} (h : Elements cs items) :
      Value ('[' :: (cs ++ [']'])) (.array items)
  | emptyObject {ws : List Char} (h : Blanks ws) :
      Value ('\x7b' :: (ws ++ ['\x7d'])) (.object [])
  /-- Of the members that are written, a repeated key counts once, with its last value. -/
  | object {cs : List Char} {pairs : List (String × Json)} (h : Entries cs pairs) :
      Value ('\x7b' :: (cs ++ ['\x7d'])) (.object (Members.arrange pairs))

/-- A value between blanks. -/
inductive Element : List Char → Json → Prop where
  | mk {before cs after : List Char} {v : Json} (hbefore : Blanks before) (h : Value cs v)
      (hafter : Blanks after) : Element (before ++ (cs ++ after)) v

/-- One or more values, with commas between them. -/
inductive Elements : List Char → List Json → Prop where
  | one {cs : List Char} {v : Json} (h : Element cs v) : Elements cs [v]
  | cons {cs rest : List Char} {v : Json} {items : List Json} (h : Element cs v)
      (hrest : Elements rest items) : Elements (cs ++ ',' :: rest) (v :: items)

/-- A member: a quoted key, a colon and a value. -/
inductive Entry : List Char → String × Json → Prop where
  | mk {before quoted after cs : List Char} {key : String} {v : Json} (hbefore : Blanks before)
      (hkey : Quoted quoted key) (hafter : Blanks after) (h : Element cs v) :
      Entry (before ++ (quoted ++ (after ++ ':' :: cs))) (key, v)

/-- One or more members, with commas between them. -/
inductive Entries : List Char → List (String × Json) → Prop where
  | one {cs : List Char} {m : String × Json} (h : Entry cs m) : Entries cs [m]
  | cons {cs rest : List Char} {m : String × Json} {pairs : List (String × Json)}
      (h : Entry cs m) (hrest : Entries rest pairs) : Entries (cs ++ ',' :: rest) (m :: pairs)

end

/-- A whole part is made of digits, of at least one. -/
theorem Whole.digits {ds : List Char} (h : Whole ds) :
    ds ≠ [] ∧ ∀ c ∈ ds, c.isDigit = true := by
  cases h with
  | zero => exact ⟨List.cons_ne_nil _ _, List.forall_mem_singleton.2 rfl⟩
  | positive hd _ hds => exact ⟨List.cons_ne_nil _ _, List.forall_mem_cons.2 ⟨hd, hds⟩⟩

/-- The digits of a fraction are digits. -/
theorem Fraction.digits {cs ds : List Char} (h : Fraction cs ds) :
    ∀ c ∈ ds, c.isDigit = true := by
  cases h with
  | none => exact List.forall_mem_nil _
  | point hds => exact hds.digits.2

/-! ### What is read is spelled -/

/-- The blanks that are skipped. -/
theorem exists_blanks (cs : List Char) : ∃ ws, Blanks ws ∧ cs = ws ++ skipSpace cs :=
  ⟨cs.takeWhile isSpace, List.all_eq_true.1 List.all_takeWhile,
    List.takeWhile_append_dropWhile.symm⟩

/-- A string that is read is spelled by the grammar, up to its closing quote. -/
theorem exists_of_stringCodes? {cs rest : List Char} {codes : List Nat}
    (h : stringCodes? cs = some (codes, rest)) :
    ∃ body, StringBody body codes ∧ cs = body ++ '"' :: rest := by
  fun_induction stringCodes? cs generalizing codes rest with
  | case1 => cases h
  | case2 cs =>
      obtain ⟨rfl, rfl⟩ := Prod.mk.inj (Option.some.inj h)
      exact ⟨[], .nil, rfl⟩
  | case3 a b c d cs ih =>
      obtain ⟨code, hunit, h⟩ := Option.bind_eq_some_iff.1 h
      obtain ⟨⟨more, tail⟩, hmore, h⟩ := Option.bind_eq_some_iff.1 h
      obtain ⟨rfl, rfl⟩ := Prod.mk.inj (Option.some.inj h)
      obtain ⟨body, hbody, rfl⟩ := ih hmore
      exact ⟨_, .unit hunit hbody, rfl⟩
  | case4 c cs _ ih =>
      obtain ⟨code, hletter, h⟩ := Option.bind_eq_some_iff.1 h
      obtain ⟨⟨more, tail⟩, hmore, h⟩ := Option.bind_eq_some_iff.1 h
      obtain ⟨rfl, rfl⟩ := Prod.mk.inj (Option.some.inj h)
      obtain ⟨body, hbody, rfl⟩ := ih hmore
      exact ⟨_, .letter hletter hbody, rfl⟩
  | case5 => cases h
  | case6 c cs hquote _ _ hplain ih =>
      obtain ⟨⟨more, tail⟩, hmore, h⟩ := Option.bind_eq_some_iff.1 h
      obtain ⟨rfl, rfl⟩ := Prod.mk.inj (Option.some.inj h)
      obtain ⟨body, hbody, rfl⟩ := ih hmore
      obtain ⟨hcontrol, hslash⟩ := not_or.1 hplain
      exact ⟨_, .plain (Nat.le_of_not_lt hcontrol) hquote hslash hbody, rfl⟩

/-- A string that is read was in quotes. -/
theorem exists_of_string? {cs rest : List Char} {s : String} (h : string? cs = some (s, rest)) :
    ∃ text, Quoted text s ∧ '"' :: cs = text ++ rest := by
  obtain ⟨⟨codes, tail⟩, hcodes, h⟩ := Option.map_eq_some_iff.1 h
  obtain ⟨rfl, rfl⟩ := Prod.mk.inj h
  obtain ⟨body, hbody, rfl⟩ := exists_of_stringCodes? hcodes
  exact ⟨_, .mk hbody, by simp⟩

/-- Digits that are read are a numeral of the number they stand for. -/
theorem exists_of_digits? {cs ds rest : List Char} (h : digits? cs = some (ds, rest)) :
    Text.Numeral ds (Nat.ofDigitChars 10 ds 0) ∧ cs = ds ++ rest := by
  rw [digits?] at h
  split at h
  next => cases h
  next hne =>
    obtain ⟨rfl, rfl⟩ := Prod.mk.inj (Option.some.inj h)
    exact ⟨Text.numeral_of_digits hne (List.all_eq_true.1 List.all_takeWhile),
      List.takeWhile_append_dropWhile.symm⟩

/-- A whole part that is read is one of the grammar. -/
theorem whole_of_wholePart? {cs ds rest : List Char} (h : wholePart? cs = some (ds, rest)) :
    Whole ds ∧ cs = ds ++ rest := by
  obtain ⟨⟨ds', rest'⟩, hdigits, h⟩ := Option.bind_eq_some_iff.1 h
  obtain ⟨hnumeral, hcs⟩ := exists_of_digits? hdigits
  obtain ⟨hne, hall⟩ := hnumeral.digits
  simp only at h
  split at h
  next => cases h
  next hzero =>
    obtain ⟨rfl, rfl⟩ := Prod.mk.inj (Option.some.inj h)
    refine ⟨?_, hcs⟩
    obtain ⟨d, ds, rfl⟩ := List.exists_cons_of_ne_nil hne
    obtain ⟨hd, hds⟩ := List.forall_mem_cons.1 hall
    by_cases hd0 : d = '0'
    · subst hd0
      cases ds with
      | nil => exact .zero
      | cons c cs => exact absurd rfl (hzero c cs)
    · exact .positive hd hd0 hds

/-- A fraction that is read is one of the grammar. -/
theorem fraction_of_fraction? {cs ds rest : List Char} (h : fraction? cs = some (ds, rest)) :
    ∃ text, Fraction text ds ∧ cs = text ++ rest := by
  rw [fraction?.eq_def] at h
  split at h
  next cs =>
    obtain ⟨hnumeral, rfl⟩ := exists_of_digits? h
    exact ⟨_, .point hnumeral, rfl⟩
  next =>
    obtain ⟨rfl, rfl⟩ := Prod.mk.inj (Option.some.inj h)
    exact ⟨[], .none, rfl⟩

/-- An exponent that is read is one of the grammar. -/
theorem exponent_of_exponent? {cs rest : List Char} {e : Int} (h : exponent? cs = some (e, rest)) :
    ∃ text, Exponent text e ∧ cs = text ++ rest := by
  rw [exponent?.eq_def] at h
  split at h
  next c cs =>
    split at h
    next hmark =>
      split at h
      all_goals
        obtain ⟨⟨ds, tail⟩, hds, h⟩ := Option.map_eq_some_iff.1 h
        obtain ⟨rfl, rfl⟩ := Prod.mk.inj h
        obtain ⟨hnumeral, rfl⟩ := exists_of_digits? hds
      · exact ⟨_, .mark hmark (.minus hnumeral), rfl⟩
      · exact ⟨_, .mark hmark (.plus hnumeral), rfl⟩
      · exact ⟨_, .mark hmark (.plain hnumeral), rfl⟩
    next =>
      obtain ⟨rfl, rfl⟩ := Prod.mk.inj (Option.some.inj h)
      exact ⟨[], .none, rfl⟩
  next =>
    obtain ⟨rfl, rfl⟩ := Prod.mk.inj (Option.some.inj h)
    exact ⟨[], .none, rfl⟩

/-- A number that is read without its sign is one of the grammar. -/
theorem magnitude_of_magnitude? {negative : Bool} {cs rest : List Char} {x : Number}
    (h : magnitude? negative cs = some (x, rest)) :
    ∃ text, Magnitude negative text x ∧ cs = text ++ rest := by
  obtain ⟨⟨whole, tail⟩, hwhole?, h⟩ := Option.bind_eq_some_iff.1 h
  obtain ⟨⟨ds, tail⟩, hfraction?, h⟩ := Option.bind_eq_some_iff.1 h
  obtain ⟨⟨e, tail⟩, hexponent?, h⟩ := Option.bind_eq_some_iff.1 h
  obtain ⟨rfl, rfl⟩ := Prod.mk.inj (Option.some.inj h)
  obtain ⟨hwhole, rfl⟩ := whole_of_wholePart? hwhole?
  obtain ⟨fraction, hfraction, rfl⟩ := fraction_of_fraction? hfraction?
  obtain ⟨exponent, hexponent, rfl⟩ := exponent_of_exponent? hexponent?
  have hdigits : Text.Numeral (whole ++ ds) (Nat.ofDigitChars 10 (whole ++ ds) 0) :=
    Text.numeral_of_digits (List.append_ne_nil_of_left_ne_nil hwhole.digits.1 ds)
      (List.forall_mem_append.2 ⟨hwhole.digits.2, hfraction.digits⟩)
  exact ⟨_, .mk hwhole hfraction hexponent hdigits, by simp⟩

/-- A number that is read is one of the grammar. -/
theorem numeric_of_number? {cs rest : List Char} {x : Number} (h : number? cs = some (x, rest)) :
    ∃ text, Numeric text x ∧ cs = text ++ rest := by
  rw [number?.eq_def] at h
  split at h
  next cs =>
    obtain ⟨text, hx, rfl⟩ := magnitude_of_magnitude? h
    exact ⟨_, .minus hx, rfl⟩
  next =>
    obtain ⟨text, hx, rfl⟩ := magnitude_of_magnitude? h
    exact ⟨_, .plain hx, rfl⟩

/-- What the reader accepts within a budget is spelled by the grammar: a value behind blanks,
items up to the closing bracket, members up to the closing brace. -/
structure SoundAt (budget : Nat) : Prop where
  value : ∀ {cs rest v}, value? budget cs = some (v, rest) →
    ∃ before text, Blanks before ∧ Value text v ∧ cs = before ++ (text ++ rest)
  items : ∀ {cs rest items}, items? budget cs = some (items, rest) →
    ∃ text, Elements text items ∧ cs = text ++ ']' :: rest
  members : ∀ {cs rest pairs}, members? budget cs = some (pairs, rest) →
    ∃ text, Entries text pairs ∧ cs = text ++ '\x7d' :: rest

/-- A value that is read is one of the grammar, if what it holds is. -/
theorem SoundAt.value_succ {budget : Nat} (h : SoundAt budget) {cs rest : List Char} {v : Json}
    (hv : value? (budget + 1) cs = some (v, rest)) :
    ∃ before text, Blanks before ∧ Value text v ∧ cs = before ++ (text ++ rest) := by
  obtain ⟨before, hbefore, hcs⟩ := exists_blanks cs
  suffices htext : ∃ text, Value text v ∧ skipSpace cs = text ++ rest by
    obtain ⟨text, htext, hskip⟩ := htext
    exact ⟨before, text, hbefore, htext, by rw [← hskip]; exact hcs⟩
  -- One case for each way in which a value can begin, behind the blanks.
  rw [value?] at hv
  split at hv
  next heq =>
    obtain ⟨rfl, rfl⟩ := Prod.mk.inj (Option.some.inj hv)
    exact ⟨_, .nullWord, heq⟩
  next heq =>
    obtain ⟨rfl, rfl⟩ := Prod.mk.inj (Option.some.inj hv)
    exact ⟨_, .trueWord, heq⟩
  next heq =>
    obtain ⟨rfl, rfl⟩ := Prod.mk.inj (Option.some.inj hv)
    exact ⟨_, .falseWord, heq⟩
  next heq =>
    obtain ⟨⟨s, tail⟩, hs, hv⟩ := Option.map_eq_some_iff.1 hv
    obtain ⟨rfl, rfl⟩ := Prod.mk.inj hv
    obtain ⟨text, hquoted, htext⟩ := exists_of_string? hs
    exact ⟨text, .string hquoted, heq.trans htext⟩
  next opened heq =>
    obtain ⟨ws, hws, hopened⟩ := exists_blanks opened
    split at hv
    next tail hclose =>
      obtain ⟨rfl, rfl⟩ := Prod.mk.inj (Option.some.inj hv)
      refine ⟨_, .emptyArray hws, ?_⟩
      rw [heq, hopened, hclose]
      simp
    next =>
      obtain ⟨⟨items, tail⟩, hitems, hv⟩ := Option.map_eq_some_iff.1 hv
      obtain ⟨rfl, rfl⟩ := Prod.mk.inj hv
      rw [← items?_append hws, ← hopened] at hitems
      obtain ⟨text, helements, htext⟩ := h.items hitems
      refine ⟨_, .array helements, ?_⟩
      rw [heq, htext]
      simp
  next opened heq =>
    obtain ⟨ws, hws, hopened⟩ := exists_blanks opened
    split at hv
    next tail hclose =>
      obtain ⟨rfl, rfl⟩ := Prod.mk.inj (Option.some.inj hv)
      refine ⟨_, .emptyObject hws, ?_⟩
      rw [heq, hopened, hclose]
      simp
    next =>
      obtain ⟨⟨pairs, tail⟩, hpairs, hv⟩ := Option.map_eq_some_iff.1 hv
      obtain ⟨rfl, rfl⟩ := Prod.mk.inj hv
      rw [← members?_append hws, ← hopened] at hpairs
      obtain ⟨text, hentries, htext⟩ := h.members hpairs
      refine ⟨_, .object hentries, ?_⟩
      rw [heq, htext]
      simp
  next =>
    obtain ⟨⟨x, tail⟩, hx, hv⟩ := Option.map_eq_some_iff.1 hv
    obtain ⟨rfl, rfl⟩ := Prod.mk.inj hv
    obtain ⟨text, hnumeric, htext⟩ := numeric_of_number? hx
    exact ⟨text, .number hnumeric, htext⟩

/-- A value that is read, with the blanks around it. -/
theorem SoundAt.element {budget : Nat} (h : SoundAt budget) {cs rest : List Char} {v : Json}
    (hv : value? budget cs = some (v, rest)) :
    ∃ text, Element text v ∧ cs = text ++ skipSpace rest := by
  obtain ⟨before, text, hbefore, htext, hcs⟩ := h.value hv
  obtain ⟨after, hafter, hrest⟩ := exists_blanks rest
  refine ⟨_, .mk hbefore htext hafter, ?_⟩
  rw [hcs]
  nth_rewrite 1 [hrest]
  simp

/-- Items that are read are those of the grammar, if the values in them are. -/
theorem SoundAt.items_succ {budget : Nat} (h : SoundAt budget) {cs rest : List Char}
    {items : List Json} (hitems : items? (budget + 1) cs = some (items, rest)) :
    ∃ text, Elements text items ∧ cs = text ++ ']' :: rest := by
  rw [items?] at hitems
  obtain ⟨⟨v, tail⟩, hv, hitems⟩ := Option.bind_eq_some_iff.1 hitems
  obtain ⟨text, helement, hcs⟩ := h.element hv
  simp only at hitems
  split at hitems
  next more hmore =>
    obtain ⟨⟨items, tail⟩, hrest, hitems⟩ := Option.bind_eq_some_iff.1 hitems
    obtain ⟨rfl, rfl⟩ := Prod.mk.inj (Option.some.inj hitems)
    obtain ⟨text', helements, rfl⟩ := h.items hrest
    refine ⟨_, .cons helement helements, ?_⟩
    rw [hcs, hmore]
    simp
  next more hmore =>
    obtain ⟨rfl, rfl⟩ := Prod.mk.inj (Option.some.inj hitems)
    exact ⟨_, .one helement, by rw [hcs, hmore]⟩
  next => cases hitems

/-- Members that are read are those of the grammar, if the values in them are. -/
theorem SoundAt.members_succ {budget : Nat} (h : SoundAt budget) {cs rest : List Char}
    {pairs : List (String × Json)} (hpairs : members? (budget + 1) cs = some (pairs, rest)) :
    ∃ text, Entries text pairs ∧ cs = text ++ '\x7d' :: rest := by
  obtain ⟨before, hbefore, hcs⟩ := exists_blanks cs
  rw [members?] at hpairs
  split at hpairs
  next opened heq =>
    obtain ⟨⟨key, tail⟩, hkey, hpairs⟩ := Option.bind_eq_some_iff.1 hpairs
    obtain ⟨quoted, hquoted, hkeyText⟩ := exists_of_string? hkey
    obtain ⟨after, hafter, htail⟩ := exists_blanks tail
    simp only at hpairs
    split at hpairs
    next behind hcolon =>
      obtain ⟨⟨v, tail'⟩, hv, hpairs⟩ := Option.bind_eq_some_iff.1 hpairs
      obtain ⟨text, helement, hbehind⟩ := h.element hv
      have hentry : Entry (before ++ (quoted ++ (after ++ ':' :: text))) (key, v) :=
        .mk hbefore hquoted hafter helement
      have hcs' : cs = before ++ (quoted ++ (after ++ ':' :: text)) ++ skipSpace tail' := by
        rw [hcs, heq, hkeyText, htail, hcolon, hbehind]
        simp
      simp only at hpairs
      split at hpairs
      next more hmore =>
        obtain ⟨⟨pairs, tail⟩, hrest, hpairs⟩ := Option.bind_eq_some_iff.1 hpairs
        obtain ⟨rfl, rfl⟩ := Prod.mk.inj (Option.some.inj hpairs)
        obtain ⟨text', hentries, rfl⟩ := h.members hrest
        refine ⟨_, .cons hentry hentries, ?_⟩
        rw [hcs', hmore]
        simp
      next more hmore =>
        obtain ⟨rfl, rfl⟩ := Prod.mk.inj (Option.some.inj hpairs)
        exact ⟨_, .one hentry, by rw [hcs', hmore]⟩
      next => cases hpairs
    next => cases hpairs
  next => cases hpairs

/-- **What is read is spelled.** -/
theorem soundAt (budget : Nat) : SoundAt budget := by
  induction budget with
  | zero =>
      refine ⟨?_, ?_, ?_⟩
      · intro cs rest v h
        rw [value?] at h
        cases h
      · intro cs rest items h
        rw [items?] at h
        cases h
      · intro cs rest pairs h
        rw [members?] at h
        cases h
  | succ budget ih => exact ⟨ih.value_succ, ih.items_succ, ih.members_succ⟩

/-! ### What is spelled is read -/

/-- A string of the grammar is read up to its closing quote. -/
theorem stringCodes?_append {body : List Char} {codes : List Nat} (h : StringBody body codes)
    (rest : List Char) : stringCodes? (body ++ '"' :: rest) = some (codes, rest) := by
  induction h with
  | nil => rfl
  | plain hcontrol hquote hslash _ ih =>
      rw [List.cons_append, stringCodes?.eq_def]
      split <;> simp_all
  | @letter c code cs codes hc _ ih =>
      have hu : c ≠ 'u' := by
        rintro rfl
        cases hc
      rw [List.cons_append, List.cons_append, stringCodes?, hc, ih]
      · rfl
      · intro _ _ _ _ _ hcu
        exact absurd hcu hu
  | unit hunit _ ih =>
      simp only [List.cons_append, stringCodes?, hunit, ih]
      rfl

/-- A string in quotes is read behind its opening quote. -/
theorem Quoted.exists_string? {text : List Char} {s : String} (h : Quoted text s) :
    ∃ cs, text = '"' :: cs ∧ ∀ rest, string? (cs ++ rest) = some (s, rest) := by
  cases h with
  | @mk body codes hbody =>
      refine ⟨_, rfl, ?_⟩
      intro rest
      rw [List.append_assoc, List.singleton_append, string?, stringCodes?_append hbody]
      rfl

/-- A whole part of the grammar is read, if no digit follows. -/
theorem wholePart?_append {ds tail : List Char} (h : Whole ds)
    (htail : ∀ c ∈ tail.head?, c.isDigit = false) :
    wholePart? (ds ++ tail) = some (ds, tail) := by
  rw [wholePart?, digits?_append h.digits.1 h.digits.2 htail]
  cases h with
  | zero => rfl
  | positive hd hzero hds =>
      simp only [Option.bind_eq_bind, Option.bind_some]
      split
      next heq =>
        obtain ⟨rfl, -⟩ := List.cons.inj heq
        exact absurd rfl hzero
      next => rfl

/-- A fraction of the grammar is read, if neither a digit nor a point follows. -/
theorem fraction?_append {text ds tail : List Char} (h : Fraction text ds)
    (htail : ∀ c ∈ tail.head?, c.isDigit = false ∧ c ≠ '.') :
    fraction? (text ++ tail) = some (ds, tail) := by
  cases h with
  | none => exact fraction?_of_head fun c hc => (htail c hc).2
  | point hds => exact digits?_append hds.digits.1 hds.digits.2 fun c hc => (htail c hc).1

/-- An exponent of the grammar is read, if the text behind it delimits it. -/
theorem exponent?_append {text tail : List Char} {e : Int} (h : Exponent text e)
    (htail : Delimits tail) : exponent? (text ++ tail) = some (e, tail) := by
  cases h with
  | none => exact exponent?_of_head fun c hc => (htail c hc).2.2
  | @mark c cs e hc hsigned =>
      have hdigits : ∀ {ds : List Char} {n : Nat}, Text.Numeral ds n →
          digits? (ds ++ tail) = some (ds, tail) := fun hds =>
        digits?_append hds.digits.1 hds.digits.2 fun c hc => (htail c hc).1
      rw [List.cons_append, exponent?.eq_def]
      simp only [if_pos hc]
      cases hsigned with
      | minus hds | plus hds =>
          simp only [List.cons_append, hdigits hds, Option.map_some, hds.value]
      | plain hds =>
          -- a numeral begins with a digit, so neither of the signs is tried
          split
          next heq => exact absurd (hds.head_append heq) (by decide)
          next heq => exact absurd (hds.head_append heq) (by decide)
          next => simp only [hdigits hds, Option.map_some, hds.value]

/-- An exponent does not prolong the digits before it. -/
theorem Exponent.head {text tail : List Char} {e : Int} (h : Exponent text e)
    (htail : Delimits tail) : ∀ c ∈ (text ++ tail).head?, c.isDigit = false ∧ c ≠ '.' := by
  cases h with
  | none => exact fun c hc => ⟨(htail c hc).1, (htail c hc).2.1⟩
  | mark hmark =>
      rintro c ⟨⟩
      rcases hmark with rfl | rfl <;> decide

/-- Nor does a fraction. -/
theorem Fraction.head {text ds tail : List Char} (h : Fraction text ds)
    (htail : ∀ c ∈ tail.head?, c.isDigit = false ∧ c ≠ '.') :
    ∀ c ∈ (text ++ tail).head?, c.isDigit = false := by
  cases h with
  | none => exact fun c hc => (htail c hc).1
  | point hds =>
      rintro c ⟨⟩
      rfl

/-- A number without its sign is read, if the text behind it delimits it. -/
theorem magnitude?_append {negative : Bool} {text tail : List Char} {x : Number}
    (h : Magnitude negative text x) (htail : Delimits tail) :
    magnitude? negative (text ++ tail) = some (x, tail) := by
  cases h with
  | @mk whole fraction exponent ds e n hwhole hfraction hexponent hdigits =>
      have hstop := hexponent.head htail
      simp only [magnitude?, List.append_assoc, wholePart?_append hwhole (hfraction.head hstop),
        fraction?_append hfraction hstop, exponent?_append hexponent htail, Option.bind_eq_bind,
        Option.bind_some, hdigits.value]
      rfl

/-- A number begins with a minus sign or a digit, and only a negative one with the former. -/
theorem Magnitude.exists_head {negative : Bool} {text : List Char} {x : Number}
    (h : Magnitude negative text x) : ∃ d cs, text = d :: cs ∧ d.isDigit = true := by
  cases h with
  | mk hwhole =>
      cases hwhole with
      | zero => exact ⟨_, _, rfl, rfl⟩
      | positive hd => exact ⟨_, _, rfl, hd⟩

/-- A number begins with a digit or a minus sign. -/
theorem Numeric.exists_head {text : List Char} {x : Number} (h : Numeric text x) :
    ∃ c cs, text = c :: cs ∧ (c = '-' ∨ c.isDigit = true) := by
  cases h with
  | plain h =>
      obtain ⟨d, cs, rfl, hd⟩ := h.exists_head
      exact ⟨d, cs, rfl, .inr hd⟩
  | minus h => exact ⟨_, _, rfl, .inl rfl⟩

/-- A number of the grammar is read, if the text behind it delimits it. -/
theorem number?_append {text tail : List Char} {x : Number} (h : Numeric text x)
    (htail : Delimits tail) : number? (text ++ tail) = some (x, tail) := by
  cases h with
  | minus h => exact magnitude?_append h htail
  | plain h =>
      have hmagnitude := magnitude?_append h htail
      obtain ⟨d, cs, rfl, hd⟩ := h.exists_head
      rw [List.cons_append] at hmagnitude ⊢
      rw [number?.eq_def]
      split
      next heq =>
        obtain ⟨rfl, -⟩ := List.cons.inj heq
        cases hd
      next => exact hmagnitude

/-- Blanks in front of a text that delimits a number delimit it too. -/
theorem delimits_blanks {ws tail : List Char} (hws : Blanks ws) (htail : Delimits tail) :
    Delimits (ws ++ tail) := by
  cases ws with
  | nil => exact htail
  | cons c ws =>
      have hc : isSpace c = true := hws c List.mem_cons_self
      simp only [isSpace, Bool.or_eq_true, beq_iff_eq] at hc
      rintro d ⟨⟩
      rcases hc with ((rfl | rfl) | rfl) | rfl <;> decide

/-- A value begins with a character that is neither blank nor the end of a list. -/
theorem Value.exists_head {text : List Char} {v : Json} (h : Value text v) :
    ∃ c cs, text = c :: cs ∧ isSpace c = false ∧ c ≠ ']' := by
  cases h with
  | number hx =>
      obtain ⟨c, cs, rfl, hc⟩ := hx.exists_head
      refine ⟨c, cs, rfl, ?_⟩
      rcases hc with rfl | hc
      · decide
      · refine ⟨isSpace_of_isDigit hc, ?_⟩
        rintro rfl
        cases hc
  | string hs =>
      cases hs
      exact ⟨_, _, rfl, by decide⟩
  | nullWord | trueWord | falseWord | emptyArray _ | array _ | emptyObject _ | object _ =>
      exact ⟨_, _, rfl, by decide⟩

/-- Items begin, behind blanks, with a character other than the bracket that closes them. -/
theorem Elements.exists_head {text : List Char} {items : List Json} (h : Elements text items) :
    ∃ before c cs, Blanks before ∧ text = before ++ c :: cs ∧ isSpace c = false ∧ c ≠ ']' := by
  have helement : ∀ {text v}, Element text v → ∃ before c cs, Blanks before ∧
      text = before ++ c :: cs ∧ isSpace c = false ∧ c ≠ ']' := by
    intro text v h
    cases h with
    | mk hbefore hv =>
        obtain ⟨c, cs, rfl, hc⟩ := hv.exists_head
        exact ⟨_, c, _, hbefore, rfl, hc⟩
  cases h with
  | one h => exact helement h
  | cons h =>
      obtain ⟨before, c, cs, hbefore, rfl, hc⟩ := helement h
      exact ⟨before, c, _, hbefore, List.append_assoc before (c :: cs) _, hc⟩

/-- Members begin, behind blanks, with the quote of the first name. -/
theorem Entries.exists_head {text : List Char} {pairs : List (String × Json)}
    (h : Entries text pairs) : ∃ before cs, Blanks before ∧ text = before ++ '"' :: cs := by
  have hentry : ∀ {text m}, Entry text m → ∃ before cs, Blanks before ∧
      text = before ++ '"' :: cs := by
    intro text m h
    cases h with
    | mk hbefore hkey =>
        obtain ⟨cs, rfl, -⟩ := hkey.exists_string?
        exact ⟨_, _, hbefore, rfl⟩
  cases h with
  | one h => exact hentry h
  | cons h =>
      obtain ⟨before, cs, hbefore, rfl⟩ := hentry h
      exact ⟨before, _, hbefore, List.append_assoc before ('"' :: cs) _⟩

/-- What the grammar spells is read within a budget of twice its length. -/
structure CompleteAt (budget : Nat) : Prop where
  value : ∀ {text tail v}, Value text v → Delimits tail → 2 * text.length ≤ budget →
    value? budget (text ++ tail) = some (v, tail)
  items : ∀ {text tail items}, Elements text items → 2 * text.length + 1 ≤ budget →
    items? budget (text ++ ']' :: tail) = some (items, tail)
  members : ∀ {text tail pairs}, Entries text pairs → 2 * text.length + 1 ≤ budget →
    members? budget (text ++ '\x7d' :: tail) = some (pairs, tail)

/-- A value of the grammar is read within one call more than what it holds. -/
theorem CompleteAt.value_succ {budget : Nat} (h : CompleteAt budget) {text tail : List Char}
    {v : Json} (hv : Value text v) (htail : Delimits tail)
    (hbudget : 2 * text.length ≤ budget + 1) :
    value? (budget + 1) (text ++ tail) = some (v, tail) := by
  cases hv with
  | nullWord | trueWord | falseWord =>
      rw [value?]
      rfl
  | number hx =>
      have hread := number?_append hx htail
      obtain ⟨c, cs, rfl, hc⟩ := hx.exists_head
      rw [List.cons_append] at hread ⊢
      rw [value?_number hc, hread]
      rfl
  | string hs =>
      obtain ⟨cs, rfl, hread⟩ := hs.exists_string?
      rw [value?, List.cons_append, skipSpace_cons (by decide)]
      simp only [hread]
      rfl
  | emptyArray hws =>
      rw [value?, List.cons_append, skipSpace_cons (by decide), List.append_assoc]
      simp only [skipSpace_append hws]
      rfl
  | emptyObject hws =>
      rw [value?, List.cons_append, skipSpace_cons (by decide), List.append_assoc]
      simp only [skipSpace_append hws]
      rfl
  -- The brackets count in the length, so there is budget enough for what they hold.
  | @array text items helements =>
      have hread : items? budget (text ++ ']' :: tail) = some (items, tail) :=
        h.items helements (by simp at hbudget; omega)
      obtain ⟨before, c, cs, hbefore, rfl, hc⟩ := helements.exists_head
      rw [List.append_assoc, items?_append hbefore] at hread
      have hhead : ∃ d ds, c :: cs ++ ']' :: tail = d :: ds ∧ isSpace d = false ∧ d ≠ ']' :=
        ⟨c, _, rfl, hc⟩
      have hvalue := value?_array hhead hbefore budget
      rw [hread] at hvalue
      simpa using hvalue
  | @object text pairs hentries =>
      have hread : members? budget (text ++ '\x7d' :: tail) = some (pairs, tail) :=
        h.members hentries (by simp at hbudget; omega)
      obtain ⟨before, cs, hbefore, rfl⟩ := hentries.exists_head
      rw [List.append_assoc, members?_append hbefore] at hread
      have hhead : ∃ d ds, '"' :: cs ++ '\x7d' :: tail = d :: ds ∧ d = '"' := ⟨'"', _, rfl, rfl⟩
      have hvalue := value?_object hhead hbefore budget
      rw [hread] at hvalue
      simpa using hvalue

/-- A value between blanks is read, and then the blanks behind it are skipped. -/
theorem CompleteAt.element {budget : Nat} (h : CompleteAt budget) {text tail : List Char}
    {v : Json} (hv : Element text v) (htail : Delimits tail) (hbudget : 2 * text.length ≤ budget) :
    ∃ rest, value? budget (text ++ tail) = some (v, rest) ∧ skipSpace rest = skipSpace tail := by
  cases hv with
  | @mk before cs after v hbefore hvalue hafter =>
      refine ⟨after ++ tail, ?_, skipSpace_append hafter tail⟩
      rw [List.append_assoc, List.append_assoc, value?_append hbefore]
      refine h.value hvalue (delimits_blanks hafter htail) ?_
      simp only [List.length_append] at hbudget
      omega

/-- Items of the grammar are read within one call more than the first value and the rest. -/
theorem CompleteAt.items_succ {budget : Nat} (h : CompleteAt budget) {text tail : List Char}
    {items : List Json} (hitems : Elements text items)
    (hbudget : 2 * text.length + 1 ≤ budget + 1) :
    items? (budget + 1) (text ++ ']' :: tail) = some (items, tail) := by
  cases hitems with
  | one helement =>
      have hclose : Delimits (']' :: tail) := by
        rintro c ⟨⟩
        decide
      obtain ⟨rest, hvalue, hskip⟩ := h.element helement hclose (by omega)
      rw [items?, hvalue]
      simp only [Option.bind_eq_bind, Option.bind_some, hskip]
      rfl
  | @cons cs more v items helement helements =>
      simp only [List.length_append, List.length_cons] at hbudget
      have hcomma : Delimits (',' :: (more ++ ']' :: tail)) := by
        rintro c ⟨⟩
        decide
      obtain ⟨rest, hvalue, hskip⟩ := h.element helement hcomma (by omega)
      have hread : items? budget (more ++ ']' :: tail) = some (items, tail) :=
        h.items helements (by omega)
      rw [List.append_assoc, List.cons_append, items?, hvalue]
      simp only [Option.bind_eq_bind, Option.bind_some, hskip]
      rw [skipSpace_cons (by decide)]
      simp only [hread]
      rfl

/-- A member is read up to what ends its value: the closing brace, or a comma and more
members. -/
theorem CompleteAt.entry {budget : Nat} (h : CompleteAt budget) {text tail : List Char}
    {m : String × Json} (hm : Entry text m) (htail : Delimits tail)
    (hbudget : 2 * text.length ≤ budget) :
    (∀ rest, skipSpace tail = '\x7d' :: rest →
      members? (budget + 1) (text ++ tail) = some ([m], rest)) ∧
    (∀ more pairs rest, skipSpace tail = ',' :: more →
      members? budget more = some (pairs, rest) →
        members? (budget + 1) (text ++ tail) = some (m :: pairs, rest)) := by
  cases hm with
  | @mk before quoted after cs key v hbefore hkey hafter helement =>
      obtain ⟨body, rfl, hread⟩ := hkey.exists_string?
      simp only [List.length_append, List.length_cons] at hbudget
      obtain ⟨rest, hvalue, hskip⟩ := h.element helement htail (by omega)
      rw [List.append_assoc, members?_append hbefore, members?]
      simp only [List.append_assoc, List.cons_append]
      rw [skipSpace_cons (by decide)]
      simp only [hread, Option.bind_eq_bind, Option.bind_some, skipSpace_append hafter]
      rw [skipSpace_cons (by decide)]
      simp only [hvalue, Option.bind_some, hskip]
      constructor
      · intro rest hclose
        rw [hclose]
        rfl
      · intro more pairs rest hcomma hmore
        simp only [hcomma, hmore]
        rfl

/-- Members of the grammar are read within one call more than the first value and the rest. -/
theorem CompleteAt.members_succ {budget : Nat} (h : CompleteAt budget) {text tail : List Char}
    {pairs : List (String × Json)} (hpairs : Entries text pairs)
    (hbudget : 2 * text.length + 1 ≤ budget + 1) :
    members? (budget + 1) (text ++ '\x7d' :: tail) = some (pairs, tail) := by
  cases hpairs with
  | one hm =>
      exact (h.entry hm (by rintro c ⟨⟩; decide) (by omega)).1 tail
        (skipSpace_cons (by decide) tail)
  | @cons cs more m pairs hm hentries =>
      simp only [List.length_append, List.length_cons] at hbudget
      rw [List.append_assoc, List.cons_append]
      exact (h.entry hm (by rintro c ⟨⟩; decide) (by omega)).2 _ _ _
        (skipSpace_cons (by decide) _) (h.members hentries (by omega))

/-- **What is spelled is read.** -/
theorem completeAt (budget : Nat) : CompleteAt budget := by
  induction budget with
  | zero =>
      refine ⟨?_, ?_, ?_⟩
      · intro text tail v hv _ hbudget
        obtain ⟨c, cs, rfl, -⟩ := hv.exists_head
        cases hbudget
      · intro text tail items _ hbudget
        cases hbudget
      · intro text tail pairs _ hbudget
        cases hbudget
  | succ budget ih => exact ⟨ih.value_succ, ih.items_succ, ih.members_succ⟩

/-- **The reader accepts exactly the grammar.** -/
theorem parse?_eq_some_iff {text : String} {v : Json} :
    parse? text = some v ↔ Element text.toList v := by
  rw [parse?]
  constructor
  · intro h
    split at h
    next value rest hvalue =>
      split at h
      next hblank =>
        obtain rfl := Option.some.inj h
        obtain ⟨cs, helement, hcs⟩ := (soundAt _).element hvalue
        rw [hblank, List.append_nil] at hcs
        rwa [hcs]
      next => cases h
    next => cases h
  · intro h
    have hend : Delimits [] := by rintro c ⟨⟩
    obtain ⟨rest, hvalue, hskip⟩ :=
      (completeAt (2 * text.toList.length + 1)).element h hend (by omega)
    rw [List.append_nil] at hvalue
    simp only [hvalue, hskip]
    rfl

end StackMachine.Json
