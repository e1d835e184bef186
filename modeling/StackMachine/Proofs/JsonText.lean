import Mathlib.Data.List.Basic
import Mathlib.Tactic.IntervalCases
import StackMachine.Json.Reader
import StackMachine.Json.Writer
import StackMachine.Proofs.Decimal

/-!
# Written JSON reads back

The pretty writer and the strict reader are inverse on every value whose numbers are safe
natural numbers and whose members already stand in the order that the reader gives them.
The reader descends on a budget; twice the length of the text still to be read is enough
for it at every level, since each nested value costs two units and takes up a character.

## Main definitions

* `Json.Plain`: the values for which the round trip is stated.

## Main results

* `Json.string?_escape`: a quoted string reads back, whatever characters it has.
* `Json.number?_toDigits`: a safe natural number reads back.
* `Json.value?_prettyAt`: a written value reads back, at every level of indentation and
  before every text that cannot prolong a number.
* `Json.parse?_pretty`: **the round trip** for a whole text.
-/

namespace StackMachine

namespace Json

/-! ### Strings -/

/-- A hexadecimal digit reads back. -/
theorem hexDigit?_digitChar {n : Nat} (h : n < 16) : hexDigit? (Nat.digitChar n) = some n := by
  interval_cases n <;> decide

/-- A character reads back from its text inside a string. -/
theorem stringCodes?_escape (c : Char) (rest : List Char) :
    stringCodes? ((escape c).toList ++ rest) =
      (stringCodes? rest).map fun r => (c.toNat :: r.1, r.2) := by
  have hbind : ∀ code : Nat, ((stringCodes? rest).bind fun r => some (code :: r.1, r.2)) =
      (stringCodes? rest).map fun r => (code :: r.1, r.2) := by
    intro code
    cases stringCodes? rest <;> rfl
  rw [escape.eq_def]
  split
  · exact hbind 34
  · exact hbind 92
  · exact hbind 10
  · exact hbind 13
  · exact hbind 9
  · rename_i hquote hslash _ _ _
    simp only
    split
    · rename_i hcode
      rw [hcode]
      exact hbind 8
    · split
      · rename_i hcode
        rw [hcode]
        exact hbind 12
      · split
        · -- the other control characters are written by their code
          rename_i hcontrol
          have hhigh := hexDigit?_digitChar (show c.toNat / 16 < 16 by omega)
          have hlow := hexDigit?_digitChar (show c.toNat % 16 < 16 by omega)
          have hunit : hexUnit? '0' '0' (Nat.digitChar (c.toNat / 16))
              (Nat.digitChar (c.toNat % 16)) = some c.toNat := by
            have hzero : hexDigit? '0' = some 0 := by decide
            simp only [hexUnit?, hzero, hhigh, hlow, Option.bind_eq_bind, Option.bind_some,
              Option.pure_def, Option.some.injEq]
            omega
          have htext : ("\\u00" ++ String.ofList [Nat.digitChar (c.toNat / 16),
              Nat.digitChar (c.toNat % 16)]).toList ++ rest =
              '\\' :: 'u' :: '0' :: '0' :: Nat.digitChar (c.toNat / 16) ::
                Nat.digitChar (c.toNat % 16) :: rest := by
            rw [String.toList_append, String.toList_ofList, String.toList_ofList]
            rfl
          rw [htext, stringCodes?, hunit]
          exact hbind _
        · rename_i hplain
          have htext : c.toString.toList ++ rest = c :: rest := by
            simp [Char.toString_eq_singleton]
          rw [htext, stringCodes?.eq_def]
          split <;> simp_all

/-- No character is half of a surrogate pair. -/
theorem isSurrogate_toNat (c : Char) :
    isHighSurrogate c.toNat = false ∧ isLowSurrogate c.toNat = false := by
  have hvalid : c.toNat < 0xD800 ∨ 0xDFFF < c.toNat ∧ c.toNat < 0x110000 := c.valid
  simp only [isHighSurrogate, isLowSurrogate, Bool.and_eq_false_iff, decide_eq_false_iff_not]
  omega

/-- The codes of characters that stand for themselves are those characters. -/
theorem joinCodes_map_toNat (cs : List Char) : joinCodes (cs.map Char.toNat) = cs := by
  have hcode : ∀ c : Char, ofCode c.toNat = c := by
    intro c
    obtain ⟨hhigh, hlow⟩ := isSurrogate_toNat c
    rw [ofCode, hhigh, hlow]
    exact Char.ofNat_toNat c
  induction cs with
  | nil => rfl
  | cons c cs ih =>
      cases cs with
      | nil => simp [joinCodes, hcode]
      | cons d ds =>
          obtain ⟨hhigh, -⟩ := isSurrogate_toNat c
          simp only [List.map_cons] at ih ⊢
          rw [joinCodes, hhigh, hcode, ih]
          rfl

/-- The characters of a quoted string. -/
theorem toList_quote (s : String) :
    (quote s).toList = '"' :: ((s.toList.flatMap fun c => (escape c).toList) ++ ['"']) := by
  rw [quote, String.toList_append, String.toList_append, String.toList_join]
  simp [List.flatMap_map]

/-- **A quoted string reads back**, whatever follows its closing quote. -/
theorem string?_escape (s : String) (rest : List Char) :
    string? ((s.toList.flatMap fun c => (escape c).toList) ++ '"' :: rest) = some (s, rest) := by
  have hcodes : ∀ cs : List Char,
      stringCodes? ((cs.flatMap fun c => (escape c).toList) ++ '"' :: rest) =
        some (cs.map Char.toNat, rest) := by
    intro cs
    induction cs with
    | nil => rfl
    | cons c cs ih =>
        rw [List.flatMap_cons, List.append_assoc, stringCodes?_escape, ih]
        rfl
  rw [string?, hcodes]
  simp only [Option.map_some, joinCodes_map_toNat, String.ofList_toList]

/-! ### Numbers -/

/-- A text that cannot prolong a number before it. -/
def Delimits (tail : List Char) : Prop :=
  ∀ c ∈ tail.head?, c.isDigit = false ∧ c ≠ '.' ∧ c ≠ 'e' ∧ c ≠ 'E'

/-- Digits are read as far as they go. -/
theorem digits?_append {ds tail : List Char} (hne : ds ≠ []) (hds : ∀ c ∈ ds, c.isDigit = true)
    (htail : ∀ c ∈ tail.head?, c.isDigit = false) : digits? (ds ++ tail) = some (ds, tail) := by
  have hstop : tail.takeWhile Char.isDigit = [] ∧ tail.dropWhile Char.isDigit = tail := by
    cases tail with
    | nil => exact ⟨rfl, rfl⟩
    | cons c cs => simp [htail c rfl]
  rw [digits?, List.takeWhile_append_of_pos hds, List.dropWhile_append_of_pos hds,
    hstop.1, hstop.2, List.append_nil]
  exact if_neg hne

/-- There is no fraction without a point. -/
theorem fraction?_of_head {cs : List Char} (h : ∀ c ∈ cs.head?, c ≠ '.') :
    fraction? cs = some ([], cs) := by
  rw [fraction?.eq_def]
  split
  · exact absurd rfl (h '.' rfl)
  · rfl

/-- There is no exponent without its mark. -/
theorem exponent?_of_head {cs : List Char} (h : ∀ c ∈ cs.head?, c ≠ 'e' ∧ c ≠ 'E') :
    exponent? cs = some (0, cs) := by
  cases cs with
  | nil => rfl
  | cons c cs =>
      have hc := h c rfl
      rw [exponent?.eq_def]
      exact if_neg (by simp [hc])

/-- The whole part of a number is its digits: they have no leading zero. -/
theorem wholePart?_toDigits (n : Nat) {tail : List Char} (h : Delimits tail) :
    wholePart? (Nat.toDigits 10 n ++ tail) = some (Nat.toDigits 10 n, tail) := by
  rw [wholePart?, digits?_append Nat.toDigits_ne_nil (fun _ hc => Text.isDigit_of_mem_toDigits hc)
    fun c hc => (h c hc).1]
  simp only [Option.bind_eq_bind, Option.bind_some]
  split
  · rename_i d ds hdigits
    exact absurd hdigits (Text.toDigits_ne_zero_cons n d ds)
  · rfl

/-- **A safe natural number reads back** before a text that cannot prolong it. -/
theorem number?_toDigits {n : Nat} (hn : n ≤ Number.greatestSafe) {tail : List Char}
    (h : Delimits tail) :
    number? (Nat.toDigits 10 n ++ tail) = some (Number.ofNat n, tail) := by
  have hfraction : fraction? tail = some ([], tail) :=
    fraction?_of_head fun c hc => (h c hc).2.1
  have hexponent : exponent? tail = some (0, tail) :=
    exponent?_of_head fun c hc => (h c hc).2.2
  have hmagnitude : magnitude? false (Nat.toDigits 10 n ++ tail) =
      some (Number.ofNat n, tail) := by
    rw [magnitude?, wholePart?_toDigits n h]
    simp only [Option.bind_eq_bind, Option.bind_some, hfraction, hexponent]
    simp [Nat.ofDigitChars_ten_toDigits, Number.ofDecimal_natural hn]
  rw [number?.eq_def]
  split
  · rename_i cs heq
    rcases List.append_eq_cons_iff.1 heq with ⟨hnil, -⟩ | ⟨ds, hdigits, -⟩
    · exact absurd hnil Nat.toDigits_ne_nil
    · exact absurd hdigits (Text.toDigits_head_ne_sign n ds).1
  · exact hmagnitude

/-! ### Blanks -/

/-- Blanks before a text are skipped. -/
theorem skipSpace_append {blanks : List Char} (h : ∀ c ∈ blanks, isSpace c = true)
    (cs : List Char) : skipSpace (blanks ++ cs) = skipSpace cs :=
  List.dropWhile_append_of_pos h

/-- A text that begins with no blank is left as it is. -/
theorem skipSpace_cons {c : Char} (h : isSpace c = false) (cs : List Char) :
    skipSpace (c :: cs) = c :: cs := by
  simp [skipSpace, h]

/-- A digit is no blank. -/
theorem isSpace_of_isDigit {c : Char} (h : c.isDigit = true) : isSpace c = false := by
  by_contra hspace
  simp only [isSpace, Bool.not_eq_false, Bool.or_eq_true, beq_iff_eq] at hspace
  rcases hspace with ((rfl | rfl) | rfl) | rfl <;> cases h

/-- A value is looked for behind blanks. -/
theorem value?_append {blanks : List Char} (h : ∀ c ∈ blanks, isSpace c = true) (budget : Nat)
    (cs : List Char) : value? budget (blanks ++ cs) = value? budget cs := by
  cases budget with
  | zero => rw [value?, value?]
  | succ budget => rw [value?, value?, skipSpace_append h]

/-- Items are looked for behind blanks. -/
theorem items?_append {blanks : List Char} (h : ∀ c ∈ blanks, isSpace c = true) (budget : Nat)
    (cs : List Char) : items? budget (blanks ++ cs) = items? budget cs := by
  cases budget with
  | zero => rw [items?, items?]
  | succ budget => rw [items?, items?, value?_append h]

/-- Members are looked for behind blanks. -/
theorem members?_append {blanks : List Char} (h : ∀ c ∈ blanks, isSpace c = true) (budget : Nat)
    (cs : List Char) : members? budget (blanks ++ cs) = members? budget cs := by
  cases budget with
  | zero => rw [members?, members?]
  | succ budget => rw [members?, members?, skipSpace_append h]

/-- A line break with its indentation. -/
theorem toList_newline (level : Nat) :
    (newline level).toList = '\n' :: List.replicate (2 * level) ' ' := by
  rw [newline, String.toList_append, String.toList_ofList, String.toList_ofList]
  rfl

/-- A line break with its indentation is blank. -/
theorem isSpace_newline {level : Nat} {c : Char} (h : c ∈ (newline level).toList) :
    isSpace c = true := by
  rw [toList_newline] at h
  rcases List.mem_cons.1 h with rfl | h
  · rfl
  · rw [List.eq_of_mem_replicate h]
    rfl

/-- A line break ends a number. -/
theorem delimits_newline (level : Nat) (tail : List Char) :
    Delimits ((newline level).toList ++ tail) := by
  rw [toList_newline]
  rintro c ⟨⟩
  decide

/-! ### Values -/

/-- The values that survive being written: numbers are safe natural numbers, and members
stand in the order in which an object lists them. -/
inductive Plain : Json → Prop
  | null : Plain .null
  | bool (b : Bool) : Plain (.bool b)
  | number {n : Nat} : n ≤ Number.greatestSafe → Plain (.number (.ofNat n))
  | string (s : String) : Plain (.string s)
  | array {items : List Json} : (∀ item ∈ items, Plain item) → Plain (.array items)
  | object {members : List (String × Json)} : Members.arrange members = members →
      (∀ m ∈ members, Plain m.2) → Plain (.object members)

/-- A value that is read back from its text at any level, before any text that ends a
number, within a budget of twice the length of its text. -/
def ReadsBack (v : Json) : Prop :=
  ∀ (level budget : Nat) (tail : List Char), 2 * (prettyAt level v).toList.length ≤ budget →
    Delimits tail → value? budget ((prettyAt level v).toList ++ tail) = some (v, tail)

/-- The text of an item list. -/
theorem prettyItems_eq_map (level : Nat) (items : List Json) :
    prettyItems level items = items.map (prettyAt level) := by
  induction items with
  | nil => rfl
  | cons item items ih => rw [prettyItems, ih, List.map_cons]

/-- The text of a member list. -/
theorem prettyMembers_eq_map (level : Nat) (members : List (String × Json)) :
    prettyMembers level members =
      members.map fun m => quote m.1 ++ ": " ++ prettyAt level m.2 := by
  induction members with
  | nil => rfl
  | cons m members ih => rw [prettyMembers, ih, List.map_cons]

/-- The text of a number. -/
theorem toList_numeral {n : Nat} (h : n ≤ Number.greatestSafe) :
    (numeral (.ofNat n)).toList = Nat.toDigits 10 n := by
  have htext : numeral (.ofNat n) = (Number.ofNat n).text := rfl
  rw [htext, Number.text_ofNat h, Nat.toString_eq_repr, Nat.toList_repr]

/-- The text of a member at a level. -/
def memberText (level : Nat) (m : String × Json) : List Char :=
  (quote m.1 ++ ": " ++ prettyAt level m.2).toList

/-- Texts separated by commas, each on a line of its own. -/
def joined (level : Nat) (texts : List (List Char)) : List Char :=
  (',' :: (newline level).toList).intercalate texts

/-- The text of a block that is not empty. -/
theorem toList_block (opening closing : String) (level : Nat) {elements : List String}
    (h : elements ≠ []) :
    (block opening closing level elements).toList =
      opening.toList ++ ((newline (level + 1)).toList ++
        (joined (level + 1) (elements.map String.toList) ++
          ((newline level).toList ++ closing.toList))) := by
  cases elements with
  | nil => exact absurd rfl h
  | cons e es =>
      have hsep : ("," ++ newline (level + 1)).toList = ',' :: (newline (level + 1)).toList := by
        rw [String.toList_append]
        rfl
      rw [block, String.toList_append, String.toList_append, String.toList_append,
        String.toList_append, String.toList_intercalate, hsep, joined]
      simp only [List.append_assoc]
      simp

/-- A value begins with a character that is neither blank nor the end of a list. -/
theorem exists_head_prettyAt {v : Json} (h : Plain v) (level : Nat) :
    ∃ c cs, (prettyAt level v).toList = c :: cs ∧ isSpace c = false ∧ c ≠ ']' := by
  have hblock : ∀ (opening : Char) (closing : String) (elements : List String),
      ∃ cs, (block (String.singleton opening) closing level elements).toList = opening :: cs := by
    intro opening closing elements
    cases elements with
    | nil => exact ⟨closing.toList, by simp [block]⟩
    | cons e es =>
        rw [toList_block _ _ _ (List.cons_ne_nil e es), String.toList_singleton]
        exact ⟨_, rfl⟩
  cases h with
  | null => exact ⟨'n', ['u', 'l', 'l'], by rw [prettyAt]; rfl, by decide⟩
  | bool b =>
      cases b with
      | false => exact ⟨'f', ['a', 'l', 's', 'e'], by rw [prettyAt]; rfl, by decide⟩
      | true => exact ⟨'t', ['r', 'u', 'e'], by rw [prettyAt]; rfl, by decide⟩
  | @number n hn =>
      obtain ⟨d, ds, hdigits, hd⟩ := Text.exists_toDigits_eq_cons n
      refine ⟨d, ds, by rw [prettyAt, toList_numeral hn, hdigits], isSpace_of_isDigit hd, ?_⟩
      rintro rfl
      cases hd
  | string s => exact ⟨'"', _, by rw [prettyAt, toList_quote], by decide⟩
  | @array items hitems =>
      obtain ⟨cs, hcs⟩ := hblock '[' "]" (prettyItems (level + 1) items)
      exact ⟨'[', cs, by rw [prettyAt]; exact hcs, by decide⟩
  | @object members horder hmembers =>
      obtain ⟨cs, hcs⟩ := hblock '\x7b' "\x7d" (prettyMembers (level + 1) members)
      exact ⟨'\x7b', cs, by rw [prettyAt]; exact hcs, by decide⟩

/-- Items that read back one by one read back as a list, up to its closing bracket. The
induction is on the items; the separator behind an item pays for the descent to the next. -/
theorem items?_joined {items : List Json} (hne : items ≠ [])
    (h : ∀ item ∈ items, ReadsBack item) (level closing : Nat) (tail : List Char) (budget : Nat)
    (hbudget : 2 * (joined level (items.map fun v => (prettyAt level v).toList)).length + 1 ≤
      budget) :
    items? budget (joined level (items.map fun v => (prettyAt level v).toList) ++
      ((newline closing).toList ++ ']' :: tail)) = some (items, tail) := by
  induction items generalizing budget with
  | nil => exact absurd rfl hne
  | cons v items ih =>
      obtain ⟨b, rfl⟩ : ∃ b, budget = b + 1 := ⟨budget - 1, by omega⟩
      cases items with
      | nil =>
          simp only [joined, List.map_cons, List.map_nil, List.intercalate_singleton] at hbudget ⊢
          have hv := h v List.mem_cons_self level b ((newline closing).toList ++ ']' :: tail)
            (by omega) (delimits_newline closing _)
          rw [items?, hv]
          simp only [Option.bind_eq_bind, Option.bind_some,
            skipSpace_append (fun c hc => isSpace_newline hc)]
          rw [skipSpace_cons (by decide)]
          rfl
      | cons w items =>
          simp only [joined, List.map_cons, List.intercalate_cons_cons, List.append_assoc,
            List.length_append, List.length_cons] at hbudget ih ⊢
          have hrest := ih (List.cons_ne_nil w items)
            (fun item hitem => h item (List.mem_cons_of_mem v hitem)) b (by omega)
          rw [items?, h v List.mem_cons_self level b _ (by omega) (by rintro c ⟨⟩; decide)]
          simp only [Option.bind_eq_bind, Option.bind_some, List.cons_append]
          rw [skipSpace_cons (by decide)]
          simp only
          rw [items?_append (fun c hc => isSpace_newline hc), hrest]
          rfl

/-- The text of a member: its quoted key, a colon and a blank, its value. -/
theorem memberText_eq (level : Nat) (m : String × Json) :
    memberText level m =
      '"' :: ((m.1.toList.flatMap fun c => (escape c).toList) ++
        '"' :: ':' :: ' ' :: (prettyAt level m.2).toList) := by
  rw [memberText, String.toList_append, String.toList_append, toList_quote]
  simp

/-- A member whose value reads back is followed by the closing brace or by more members. -/
theorem members?_member {budget level : Nat} {m : String × Json} {cs : List Char}
    (hvalue : value? budget ((prettyAt level m.2).toList ++ cs) = some (m.2, cs)) :
    (∀ tail, skipSpace cs = '\x7d' :: tail →
      members? (budget + 1) (memberText level m ++ cs) =
        some ([m], tail)) ∧
    (∀ more ms tail, skipSpace cs = ',' :: more → members? budget more = some (ms, tail) →
      members? (budget + 1) (memberText level m ++ cs) =
        some (m :: ms, tail)) := by
  have hblank : value? budget ([' '] ++ ((prettyAt level m.2).toList ++ cs)) = some (m.2, cs) := by
    rw [value?_append (List.forall_mem_singleton.2 rfl), hvalue]
  rw [memberText_eq, members?, List.cons_append, skipSpace_cons (by decide)]
  simp only [List.append_assoc, List.cons_append, string?_escape, Option.bind_eq_bind,
    Option.bind_some]
  rw [skipSpace_cons (by decide)]
  simp only
  rw [← List.singleton_append, hblank]
  simp only [Option.bind_some]
  constructor
  · intro tail hskip
    rw [hskip]
    rfl
  · intro more ms tail hskip hmore
    rw [hskip]
    simp only
    rw [hmore]
    rfl

/-- Members whose values read back read back as a list, up to the closing brace. -/
theorem members?_joined {members : List (String × Json)} (hne : members ≠ [])
    (h : ∀ m ∈ members, ReadsBack m.2) (level closing : Nat) (tail : List Char) (budget : Nat)
    (hbudget : 2 * (joined level (members.map (memberText level))).length + 1 ≤ budget) :
    members? budget (joined level (members.map (memberText level)) ++
        ((newline closing).toList ++ '\x7d' :: tail)) = some (members, tail) := by
  induction members generalizing budget with
  | nil => exact absurd rfl hne
  | cons m members ih =>
      obtain ⟨b, rfl⟩ : ∃ b, budget = b + 1 := ⟨budget - 1, by omega⟩
      have hlength := congrArg List.length (memberText_eq level m)
      simp only [List.length_cons, List.length_append] at hlength
      cases members with
      | nil =>
          simp only [joined, List.map_cons, List.map_nil, List.intercalate_singleton] at hbudget ⊢
          have hm := h m List.mem_cons_self level b ((newline closing).toList ++ '\x7d' :: tail)
            (by omega) (delimits_newline closing _)
          refine (members?_member hm).1 tail ?_
          rw [skipSpace_append (fun c hc => isSpace_newline hc), skipSpace_cons (by decide)]
      | cons w members =>
          simp only [joined, List.map_cons, List.intercalate_cons_cons, List.append_assoc,
            List.length_append, List.length_cons] at hbudget ih ⊢
          have hrest := ih (List.cons_ne_nil w members)
            (fun m' hm' => h m' (List.mem_cons_of_mem m hm')) b (by omega)
          refine (members?_member (h m List.mem_cons_self level b _ (by omega) ?_)).2 _ _ _
            (skipSpace_cons (by decide) _) ?_
          · rintro c ⟨⟩
            decide
          · exact (members?_append (fun c hc => isSpace_newline hc) b _).trans hrest

/-- The text of a list that is not empty. -/
theorem toList_prettyAt_array {items : List Json} (hne : items ≠ []) (level : Nat)
    (tail : List Char) :
    (prettyAt level (.array items)).toList ++ tail =
      '[' :: ((newline (level + 1)).toList ++
        (joined (level + 1) (items.map fun v => (prettyAt (level + 1) v).toList) ++
          ((newline level).toList ++ ']' :: tail))) := by
  have htexts : (prettyItems (level + 1) items).map String.toList =
      items.map fun v => (prettyAt (level + 1) v).toList := by
    rw [prettyItems_eq_map, List.map_map]
    rfl
  have hne' : prettyItems (level + 1) items ≠ [] := by
    rw [prettyItems_eq_map]
    simpa using hne
  rw [prettyAt, toList_block _ _ _ hne', htexts]
  simp

/-- The text of an object that is not empty. -/
theorem toList_prettyAt_object {members : List (String × Json)} (hne : members ≠ [])
    (level : Nat) (tail : List Char) :
    (prettyAt level (.object members)).toList ++ tail =
      '\x7b' :: ((newline (level + 1)).toList ++
        (joined (level + 1) (members.map (memberText (level + 1))) ++
            ((newline level).toList ++ '\x7d' :: tail))) := by
  have htexts : (prettyMembers (level + 1) members).map String.toList =
      members.map (memberText (level + 1)) := by
    rw [prettyMembers_eq_map, List.map_map]
    rfl
  have hne' : prettyMembers (level + 1) members ≠ [] := by
    rw [prettyMembers_eq_map]
    simpa using hne
  rw [prettyAt, toList_block _ _ _ hne', htexts]
  simp

/-- Joined texts begin as the first of them does. -/
theorem exists_head_joined {α : Type} {P : Char → Prop} {f : α → List Char} {a : α}
    (h : ∃ c cs, f a = c :: cs ∧ P c) (level : Nat) (l : List α) (tail : List Char) :
    ∃ c cs, joined level ((a :: l).map f) ++ tail = c :: cs ∧ P c := by
  obtain ⟨c, cs, hcs, hc⟩ := h
  cases l with
  | nil =>
      rw [List.map_singleton, joined, List.intercalate_singleton, hcs]
      exact ⟨c, _, rfl, hc⟩
  | cons b l =>
      rw [List.map_cons, List.map_cons, joined, List.intercalate_cons_cons, hcs]
      exact ⟨c, _, rfl, hc⟩

/-- A number is looked for behind a minus sign or a digit. -/
theorem value?_number {c : Char} (hc : c = '-' ∨ c.isDigit = true) (budget : Nat)
    (cs : List Char) :
    value? (budget + 1) (c :: cs) = (number? (c :: cs)).map fun r => (.number r.1, r.2) := by
  have hspace : isSpace c = false := by
    rcases hc with rfl | hc
    · rfl
    · exact isSpace_of_isDigit hc
  rw [value?, skipSpace_cons hspace]
  split
  case h_7 => rfl
  all_goals
    rename_i heq
    cases heq
    simp at hc

/-- The items of a list are read behind its bracket, unless it closes at once. -/
theorem value?_array {text blanks : List Char}
    (htext : ∃ c cs, text = c :: cs ∧ isSpace c = false ∧ c ≠ ']')
    (hblanks : ∀ c ∈ blanks, isSpace c = true) (budget : Nat) :
    value? (budget + 1) ('[' :: (blanks ++ text)) =
      (items? budget text).map fun r => (.array r.1, r.2) := by
  obtain ⟨c, cs, rfl, hspace, hclose⟩ := htext
  rw [value?, skipSpace_cons (by decide)]
  simp only [skipSpace_append hblanks, skipSpace_cons hspace]
  split
  · rename_i heq
    exact absurd (List.cons.inj heq).1 hclose
  · rfl

/-- The members of an object are read behind its brace, unless it closes at once. -/
theorem value?_object {text blanks : List Char} (htext : ∃ c cs, text = c :: cs ∧ c = '"')
    (hblanks : ∀ c ∈ blanks, isSpace c = true) (budget : Nat) :
    value? (budget + 1) ('\x7b' :: (blanks ++ text)) =
      (members? budget text).map fun r => (.object (Members.arrange r.1), r.2) := by
  obtain ⟨c, cs, rfl, rfl⟩ := htext
  rw [value?, skipSpace_cons (by decide)]
  simp only [skipSpace_append hblanks]
  rw [skipSpace_cons (by decide)]
  rfl

/-- A value takes up at least one character, so the budget is never used up at once. -/
theorem ReadsBack.of_succ {v : Json} (h : Plain v)
    (hsucc : ∀ (level b : Nat) (tail : List Char),
      2 * (prettyAt level v).toList.length ≤ b + 1 → Delimits tail →
        value? (b + 1) ((prettyAt level v).toList ++ tail) = some (v, tail)) :
    ReadsBack v := by
  intro level budget tail hbudget htail
  obtain ⟨c, cs, hcs, -⟩ := exists_head_prettyAt h level
  have hlength : (prettyAt level v).toList.length = cs.length + 1 := by rw [hcs]; rfl
  obtain ⟨b, rfl⟩ : ∃ b, budget = b + 1 := ⟨budget - 1, by omega⟩
  exact hsucc level b tail hbudget htail

/-- **A written value reads back**, at every level of indentation and before every text that
cannot prolong a number. -/
theorem Plain.readsBack {v : Json} (h : Plain v) : ReadsBack v := by
  induction h with
  | null =>
      refine .of_succ .null ?_
      intro level b tail _ _
      rw [prettyAt, value?]
      rfl
  | bool value =>
      refine .of_succ (.bool value) ?_
      intro level b tail _ _
      cases value with
      | false =>
          rw [prettyAt, value?]
          rfl
      | true =>
          rw [prettyAt, value?]
          rfl
  | @number n hn =>
      refine .of_succ (.number hn) ?_
      intro level b tail _ htail
      have hnumber := number?_toDigits hn htail
      obtain ⟨d, ds, hdigits, hd⟩ := Text.exists_toDigits_eq_cons n
      rw [prettyAt, toList_numeral hn, hdigits, List.cons_append, value?_number (.inr hd),
        ← List.cons_append, ← hdigits, hnumber]
      rfl
  | string s =>
      refine .of_succ (.string s) ?_
      intro level b tail _ _
      rw [prettyAt, toList_quote, value?, List.cons_append, skipSpace_cons (by decide)]
      simp only [List.append_assoc, List.singleton_append, string?_escape]
      rfl
  | @array items hitems ih =>
      refine .of_succ (.array hitems) ?_
      intro level b tail hbudget _
      cases items with
      | nil =>
          have htext : (block "[" "]" level []).toList = ['[', ']'] := by simp [block]
          rw [prettyAt, prettyItems, htext, value?]
          rfl
      | cons item items =>
          -- An item comes first, so the list is not taken for an empty one.
          have hne : item :: items ≠ [] := List.cons_ne_nil item items
          have hlength := congrArg List.length (toList_prettyAt_array hne level [])
          simp only [List.append_nil, List.length_append, List.length_cons] at hlength
          have hhead := exists_head_joined (f := fun v => (prettyAt (level + 1) v).toList)
            (exists_head_prettyAt (hitems item List.mem_cons_self) (level + 1)) (level + 1) items
            ((newline level).toList ++ ']' :: tail)
          rw [toList_prettyAt_array hne, value?_array hhead (fun c hc => isSpace_newline hc),
            items?_joined hne ih (level + 1) level tail b (by omega)]
          rfl
  | @object members horder hmembers ih =>
      refine .of_succ (.object horder hmembers) ?_
      intro level b tail hbudget _
      cases members with
      | nil =>
          have htext : (block "\x7b" "\x7d" level []).toList = ['\x7b', '\x7d'] := by
            simp [block]
          rw [prettyAt, prettyMembers, htext, value?]
          rfl
      | cons m members =>
          -- A quote comes first, so the object is not taken for an empty one.
          have hne : m :: members ≠ [] := List.cons_ne_nil m members
          have hlength := congrArg List.length (toList_prettyAt_object hne level [])
          simp only [List.append_nil, List.length_append, List.length_cons] at hlength
          have hhead := exists_head_joined (P := (· = '"')) (f := memberText (level + 1))
            ⟨_, _, memberText_eq (level + 1) m, rfl⟩ (level + 1) members
            ((newline level).toList ++ '\x7d' :: tail)
          rw [toList_prettyAt_object hne, value?_object hhead (fun c hc => isSpace_newline hc),
            members?_joined hne ih (level + 1) level tail b (by omega)]
          simp only [Option.map_some, horder]

/-- **Written JSON reads back.** -/
theorem parse?_pretty {v : Json} (h : Plain v) : parse? v.pretty = some v := by
  have hvalue := h.readsBack 0 (2 * (prettyAt 0 v).toList.length + 1) [] (by omega)
    (by rintro c ⟨⟩)
  rw [List.append_nil] at hvalue
  simp only [parse?, pretty, hvalue]
  rfl

end Json

end StackMachine
