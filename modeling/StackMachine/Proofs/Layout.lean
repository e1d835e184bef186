import StackMachine.Proofs.Listing
import StackMachine.Proofs.Positions

/-!
# The layout of listings

A listing comes out in groups: the instructions that share a line, joined by spaces, and
the lines joined by line ends. This module states the layout by its local rule instead: what is
between two neighbours is a line end if the second one is a label or the first one a jump, and a
space otherwise. The two agree because a group is left exactly where the rule says so.

Words hold no blanks, so the lines of a listing are those that were joined, and the only blanks
in them are the spaces between words.

## Main definitions

* `Program.laidOut`: the words of instructions with their separators.
* `Text.Spaced`: a line of words with single spaces between them.

## Main results

* `Program.laidOut_flatten`: the local rule and the groups agree.
* `Text.lines_intercalate`: joining lines is undone by cutting the text into lines.
* `Program.listing_layout`: **the layout of listings**.
-/

namespace StackMachine

namespace Text

/-! ### Lines of words -/

/-- A line of words with single **spaces** between them: it begins and ends with a letter, its
blanks are spaces, and no two of them are next to each other. -/
structure Spaced (line : List Char) : Prop where
  head : ∃ c ∈ line.head?, isBlank c = false
  last : ∃ c ∈ line.getLast?, isBlank c = false
  mem : ∀ c ∈ line, c = ' ' ∨ isBlank c = false
  chain : line.IsChain fun c d => isBlank c = false ∨ isBlank d = false

/-- A word is a line without spaces. -/
theorem IsWord.spaced {w : List Char} (h : IsWord w) : Spaced w := by
  obtain ⟨hne, hletters⟩ := h
  refine ⟨?_, ?_, fun c hc => .inr (hletters c hc), ?_⟩
  · exact ⟨w.head hne, List.head?_eq_some_head hne, hletters _ (List.head_mem hne)⟩
  · exact ⟨w.getLast hne, List.getLast?_eq_some_getLast hne, hletters _ (List.getLast_mem hne)⟩
  · exact (List.pairwise_of_forall_mem_list fun c hc d _ => .inl (hletters c hc)).isChain

/-- A word, a space and a line. -/
theorem Spaced.cons {w line : List Char} (hw : IsWord w) (h : Spaced line) :
    Spaced (w ++ ' ' :: line) := by
  obtain ⟨⟨c, hc, hletter⟩, ⟨d, hd, hlast⟩, hmem, hchain⟩ := hw.spaced
  refine ⟨⟨c, ?_, hletter⟩, ?_, ?_, ?_⟩
  · rw [List.head?_append, hc]
    rfl
  · obtain ⟨d, hd, hlast⟩ := h.last
    refine ⟨d, ?_, hlast⟩
    rw [List.getLast?_append, List.getLast?_cons, hd]
    rfl
  · intro e he
    rcases List.mem_append.1 he with he | he
    · exact hmem e he
    · rcases List.mem_cons.1 he with rfl | he
      · exact .inl rfl
      · exact h.mem e he
  · refine List.isChain_append.2 ⟨hchain, h.chain.cons ?_, ?_⟩
    · -- the line begins with a letter
      obtain ⟨e, he, hhead⟩ := h.head
      intro f hf
      rw [Option.mem_def.1 he] at hf
      exact .inr (Option.some.inj hf ▸ hhead)
    · intro e he _ _
      exact .inl (hw.2 e (List.mem_of_getLast? he))

/-- Words joined by spaces are a line. -/
theorem spaced_intercalate {ws : List (List Char)} (hne : ws ≠ []) (h : ∀ w ∈ ws, IsWord w) :
    Spaced ([' '].intercalate ws) := by
  induction ws with
  | nil => exact absurd rfl hne
  | cons w ws ih =>
      obtain ⟨hw, hws⟩ := List.forall_mem_cons.1 h
      rcases ws with _ | ⟨v, ws⟩
      · simpa using hw.spaced
      · rw [List.intercalate_cons_cons, List.append_assoc]
        exact .cons hw (ih (List.cons_ne_nil v ws) hws)

/-- There is no line end in a spaced line. -/
theorem Spaced.newline_notMem {line : List Char} (h : Spaced line) : '\n' ∉ line := by
  intro hmem
  rcases h.mem '\n' hmem with heq | hletter
  · exact absurd heq (by decide)
  · exact absurd hletter (by decide)

/-- A spaced line does not end with a carriage return. -/
theorem Spaced.last_ne_return {line : List Char} (h : Spaced line) :
    line.getLast? ≠ some '\r' := by
  intro heq
  obtain ⟨c, hc, hletter⟩ := h.last
  obtain rfl : c = '\r' := Option.some.inj ((Option.mem_def.1 hc).symm.trans heq)
  exact absurd hletter (by decide)

/-- **Joining lines is undone by cutting the text into lines.** -/
theorem lines_intercalate {ls : List (List Char)} (hne : ls ≠ []) (h : ∀ l ∈ ls, Spaced l) :
    lines (['\n'].intercalate ls) = ls := by
  refine (ruled_iff.1 ?_).symm
  induction ls with
  | nil => exact absurd rfl hne
  | cons l ls ih =>
      obtain ⟨hl, hls⟩ := List.forall_mem_cons.1 h
      rcases ls with _ | ⟨l', ls⟩
      · simpa using Ruled.last l hl.newline_notMem
      · rw [List.intercalate_cons_cons, List.append_assoc]
        exact .feed l hl.newline_notMem hl.last_ne_return (ih (List.cons_ne_nil l' ls) hls)

end Text

namespace Program

/-! ### The local rule -/

/-- What is between two neighbouring instructions: a line end before a label and behind a jump,
and a space otherwise. -/
def separator (a b : Instr) : String := if b.isLabel || a.isJump then "\n" else " "

/-- The words of instructions, in order, with what is between them. -/
def laidOut (word : Instr → String) : Program → String
  | [] => ""
  | [a] => word a
  | a :: b :: rest => word a ++ separator a b ++ laidOut word (b :: rest)

/-- What separates two instructions is a blank exactly if they share a line. -/
theorem separator_eq (a b : Instr) :
    separator a b = if Instr.sharesLine a b then " " else "\n" := by
  rw [separator, Instr.sharesLine]
  cases b.isLabel <;> cases a.isJump <;> rfl

section Groups

variable {word : Instr → String} {group : Program}

/-- Instructions that share a line are separated by spaces. -/
theorem laidOut_of_isChain (h : group.IsChain fun a b => Instr.sharesLine a b = true) :
    laidOut word group = " ".intercalate (group.map word) := by
  induction group with
  | nil => rfl
  | cons a group ih =>
      rcases group with _ | ⟨b, group⟩
      · rfl
      · obtain ⟨hshares, hrest⟩ := List.isChain_cons_cons.1 h
        rw [laidOut, separator_eq, if_pos hshares, ih hrest]
        exact String.intercalate_cons_cons.symm

/-- Where the line is left, there is a line end. -/
theorem laidOut_append (hne : group ≠ [])
    (h : group.IsChain fun a b => Instr.sharesLine a b = true) {b : Instr}
    (hleave : Instr.sharesLine (group.getLast hne) b = false) (rest : Program) :
    laidOut word (group ++ b :: rest) =
      " ".intercalate (group.map word) ++ "\n" ++ laidOut word (b :: rest) := by
  induction group with
  | nil => exact absurd rfl hne
  | cons a group ih =>
      rcases group with _ | ⟨c, group⟩
      · have hab : Instr.sharesLine a b = false := hleave
        rw [List.singleton_append, laidOut, separator_eq, if_neg (by simp [hab])]
        rfl
      · obtain ⟨hshares, hrest⟩ := List.isChain_cons_cons.1 h
        have hlater := ih (List.cons_ne_nil c group) hrest hleave
        have hjoin : " ".intercalate ((a :: c :: group).map word) =
            word a ++ " " ++ " ".intercalate ((c :: group).map word) :=
          String.intercalate_cons_cons
        rw [List.cons_append, List.cons_append, laidOut, separator_eq, if_pos hshares,
          ← List.cons_append, hlater, hjoin]
        simp only [String.append_assoc]

/-- **The local rule and the groups agree**, if the groups are left where the rule says so. -/
theorem laidOut_flatten {groups : List Program} (hne : [] ∉ groups)
    (hshare : ∀ g ∈ groups, g.IsChain fun a b => Instr.sharesLine a b = true)
    (hleave : groups.IsChain fun g g' => ∃ (hg : g ≠ []) (hg' : g' ≠ []),
      Instr.sharesLine (g.getLast hg) (g'.head hg') = false) :
    laidOut word groups.flatten =
      "\n".intercalate (groups.map fun g => " ".intercalate (g.map word)) := by
  induction groups with
  | nil => rfl
  | cons g groups ih =>
      obtain ⟨hg, hgroups⟩ := List.forall_mem_cons.1 hshare
      rcases groups with _ | ⟨g', groups⟩
      · rw [List.flatten_cons, List.flatten_nil, List.append_nil]
        exact laidOut_of_isChain hg
      · obtain ⟨⟨hnil, hnil', hbreak⟩, hrest⟩ := List.isChain_cons_cons.1 hleave
        have hlater := ih (fun hmem => hne (List.mem_cons_of_mem _ hmem)) hgroups hrest
        rcases g' with _ | ⟨b, g'⟩
        · exact absurd rfl hnil'
        · have hbreak : Instr.sharesLine (g.getLast hnil) b = false := hbreak
          rw [List.flatten_cons, List.flatten_cons, List.cons_append,
            laidOut_append hnil hg hbreak, ← List.cons_append, ← List.flatten_cons, hlater]
          exact String.intercalate_cons_cons.symm

/-- Words on one line have single spaces between them. -/
theorem spaced_line (hne : group ≠ []) (h : ∀ ins ∈ group, Text.IsWord (word ins).toList) :
    Text.Spaced (" ".intercalate (group.map word)).toList := by
  rw [String.toList_intercalate, List.map_map]
  refine Text.spaced_intercalate (by simpa using hne) ?_
  intro w hw
  obtain ⟨ins, hins, rfl⟩ := List.mem_map.1 hw
  exact h ins hins

/-- A label is the first and a jump the last of the instructions that share a line. -/
theorem ends_of_isChain {before after : Program} {ins : Instr}
    (h : (before ++ ins :: after).IsChain fun a b => Instr.sharesLine a b = true) :
    (ins.isLabel = true → before = []) ∧ (ins.isJump = true → after = []) := by
  obtain ⟨-, hchain, hbefore⟩ := List.isChain_append.1 h
  obtain ⟨hafter, -⟩ := List.isChain_cons.1 hchain
  constructor
  · intro hlabel
    refine List.getLast?_eq_none_iff.1 (Option.eq_none_iff_forall_not_mem.2 ?_)
    intro a ha
    have hshares := hbefore a ha ins rfl
    simp [Instr.sharesLine, hlabel] at hshares
  · intro hjump
    refine List.head?_eq_none_iff.1 (Option.eq_none_iff_forall_not_mem.2 ?_)
    intro b hb
    have hshares := hafter b hb
    simp [Instr.sharesLine, hjump] at hshares

end Groups

/-- **The layout of listings.** The listing of a well-formed program consists of the words of its
instructions, in order. Two neighbours are separated by a line end if the second one is a label
or the first one a jump, and by a space otherwise, and there is nothing before the first word and
behind the last one. So the listing is made of lines, none of them empty, each with single spaces
between its words; a label is the first and a jump the last instruction on its line. The listing
of no instructions is the empty text and has no lines. -/
theorem listing_layout (p : Program) (h : p.WellFormed) :
    ∃ (word : Instr → String) (groups : List Program),
      (∀ ins ∈ p, ins.token = .ok (word ins)) ∧ p.listing = .ok (p.laidOut word) ∧
      groups.flatten = p ∧
      p.laidOut word = "\n".intercalate (groups.map fun g => " ".intercalate (g.map word)) ∧
      (p ≠ [] → Text.lines (p.laidOut word).toList =
        groups.map fun g => (" ".intercalate (g.map word)).toList) ∧
      ∀ g ∈ groups, Text.Spaced (" ".intercalate (g.map word)).toList ∧
        ∀ before ins after, g = before ++ ins :: after →
          (ins.isLabel = true → before = []) ∧ (ins.isJump = true → after = []) := by
  choose! word htoken hword _ using fun (ins : Instr) (hins : ins.WellFormed) =>
    Instr.exists_token hins
  have htokens : ∀ ins ∈ p, ins.token = .ok (word ins) := fun ins hins => htoken ins (h ins hins)
  obtain ⟨hflatten, hne, hshare, hleave⟩ :=
    List.splitBy_eq_iff.1 (Eq.refl (p.splitBy Instr.sharesLine))
  -- The loop gives groups, and the groups give the local rule.
  have hlayout : p.laidOut word = "\n".intercalate
      ((p.splitBy Instr.sharesLine).map fun g => " ".intercalate (g.map word)) := by
    conv_lhs => rw [hflatten]
    exact laidOut_flatten hne hshare hleave
  have hspaced : ∀ g ∈ p.splitBy Instr.sharesLine,
      Text.Spaced (" ".intercalate (g.map word)).toList := by
    intro g hg
    refine spaced_line (List.ne_nil_of_mem_splitBy hg) ?_
    intro ins hins
    exact hword ins (h ins (hflatten ▸ List.mem_flatten.2 ⟨g, hg, hins⟩))
  refine ⟨word, p.splitBy Instr.sharesLine, htokens, ?_, hflatten.symm, hlayout, ?_, ?_⟩
  · rw [hlayout]
    exact listing_eq_ok htokens
  · intro hp
    rw [hlayout, String.toList_intercalate, List.map_map]
    refine Text.lines_intercalate (by simpa using hp) ?_
    intro l hl
    obtain ⟨g, hg, rfl⟩ := List.mem_map.1 hl
    exact hspaced g hg
  · intro g hg
    refine ⟨hspaced g hg, ?_⟩
    rintro before ins after rfl
    exact ends_of_isChain (hshare _ hg)

/-- A jump at the start of a program, two labels in turn, and a jump at the end. -/
theorem listing_layout_breaks :
    WellFormed [.bare .jmp, .lit (-5), .label 0, .label 1, .lit 7, .bare .cjmp] ∧
    Program.listing [.bare .jmp, .lit (-5), .label 0, .label 1, .lit 7, .bare .cjmp] =
      .ok "jmp\n-5\n0:\n1: 7 cjmp" := by
  have hwell : WellFormed [.bare .jmp, .lit (-5), .label 0, .label 1, .lit 7, .bare .cjmp] := by
    decide
  obtain ⟨word, -, htokens, hlisting, -⟩ := listing_layout _ hwell
  simp only [List.forall_mem_cons, Instr.token, Except.ok.injEq] at htokens
  obtain ⟨hjmp, hfive, hzero, hone, hseven, hcjmp, -⟩ := htokens
  refine ⟨hwell, hlisting.trans ?_⟩
  rw [laidOut, laidOut, laidOut, laidOut, laidOut, laidOut, ← hjmp, ← hfive, ← hzero, ← hone,
    ← hseven, ← hcjmp]
  decide +kernel

end Program

end StackMachine
