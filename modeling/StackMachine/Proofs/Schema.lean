import Mathlib.Data.List.Forall2
import StackMachine.Proofs.Members
import StackMachine.Schema

/-!
# What schemas accept

One law for each way to put a schema together: what it accepts, and where its first issue lies
when it refuses. A form that is written down as a schema is then characterised by applying the
laws from the outside inwards, without a look at how issues are collected.

Whether a refusal is fatal matters to a choice only, which passes on a refusal that is not. So
the laws on first issues keep track of that.

## Main results

* `Verdict.choose_eq_valid_iff`: a choice takes the first verdict that accepts.
* `Schema.strict_eq_valid_iff`: an object without stray members.
* `Schema.items_eq_valid_iff` and `Schema.exists_of_items_eq_invalid`: lists, and the first item
  that is refused.
* `Schema.union_eq_valid`: a choice between schemas that agree takes any that accepts.
-/

namespace StackMachine

variable {α β : Type}

/-! ### Verdicts -/

namespace Verdict

variable {v : Verdict α} {w : Verdict β} {fatal : Bool} {issues : Issues}

/-- A rewritten verdict accepts if the verdict does. -/
theorem map_eq_valid_iff {f : α → β} {b : β} :
    v.map f = .valid b ↔ ∃ a, v = .valid a ∧ f a = b := by
  cases v <;> simp [map]

/-- A rewritten verdict refuses as the verdict does. -/
theorem map_eq_invalid_iff {f : α → β} :
    v.map f = .invalid fatal issues ↔ v = .invalid fatal issues := by
  cases v <;> simp [map]

/-- A verdict accepts under a key what it accepts. -/
theorem under_eq_valid_iff {key : String} {a : α} : v.under key = .valid a ↔ v = .valid a := by
  cases v <;> simp [under]

/-- A verdict refuses under a key what it refuses, with its issues one level deeper. -/
theorem exists_of_under_eq_invalid {key : String} (h : v.under key = .invalid fatal issues) :
    ∃ inner, v = .invalid fatal inner ∧ issues.first.path = key :: inner.first.path := by
  cases v with
  | valid a => cases h
  | invalid fatal' inner =>
      cases h
      exact ⟨inner, rfl, rfl⟩

/-- Two verdicts accept together exactly if both accept. -/
theorem both_eq_valid_iff {ab : α × β} :
    v.both w = .valid ab ↔ v = .valid ab.1 ∧ w = .valid ab.2 := by
  cases v <;> cases w <;> simp [both, Prod.ext_iff]

/-- The first issue of two verdicts is that of the first one that refuses. If the two together
are not fatal, then neither is. -/
theorem exists_of_both_eq_invalid (h : v.both w = .invalid fatal issues) :
    (∃ fatal' inner, v = .invalid fatal' inner ∧ issues.first = inner.first ∧
      (fatal = false → fatal' = false)) ∨
    ∃ a, v = .valid a ∧ w = .invalid fatal issues := by
  cases v with
  | invalid fatal' inner =>
      refine .inl ⟨fatal', inner, rfl, ?_⟩
      cases w with
      | valid b =>
          cases h
          exact ⟨rfl, id⟩
      | invalid fatal'' inner' =>
          cases h
          exact ⟨rfl, fun hmild => (Bool.or_eq_false_iff.1 hmild).1⟩
  | valid a =>
      refine .inr ⟨a, rfl, ?_⟩
      cases w with
      | valid b => cases h
      | invalid fatal' inner =>
          cases h
          rfl

/-- What an accepted value stands for. -/
def meaning? : Verdict α → Option α
  | valid a => some a
  | invalid _ _ => none

/-- A verdict has a meaning exactly if it accepts. -/
@[simp] theorem meaning?_eq_some_iff {a : α} : v.meaning? = some a ↔ v = .valid a := by
  cases v <;> simp [meaning?]

/-- **A choice takes the first verdict that accepts.** -/
theorem meaning?_choose (near : Option Issues) (vs : List (Verdict α)) :
    (choose near vs).meaning? = vs.findSome? meaning? := by
  induction vs generalizing near with
  | nil => cases near <;> rfl
  | cons v vs ih =>
      cases v with
      | valid a => rfl
      | invalid fatal issues => cases fatal <;> exact ih _

/-- **A choice refuses** with the issues of a verdict that is not fatal, or else as a whole. -/
theorem of_choose_eq_invalid {near : Option Issues} {vs : List (Verdict α)}
    (h : choose near vs = .invalid fatal issues) :
    near = some issues ∨ .invalid false issues ∈ vs ∨ issues.first.path = [] := by
  induction vs generalizing near with
  | nil =>
      cases near with
      | none =>
          cases h
          exact .inr (.inr rfl)
      | some inner =>
          cases h
          exact .inl rfl
  | cons v vs ih =>
      cases v with
      | valid a => cases h
      | invalid fatal' inner =>
          cases fatal' with
          | true => exact (ih h).imp id (.imp (List.mem_cons_of_mem _) id)
          | false =>
              -- Of refusals that are not fatal the first one is kept.
              rcases ih h with hnear | hlater
              · cases near with
                | none =>
                    obtain rfl := Option.some.inj hnear
                    exact .inr (.inl List.mem_cons_self)
                | some first => exact .inl hnear
              · exact .inr (hlater.imp (List.mem_cons_of_mem _) id)

/-- A fatal refusal is no acceptance. -/
theorem fatal_ne_valid {message : String} {a : α} : Verdict.fatal message ≠ .valid a := by
  intro h
  cases h

/-- A fatal refusal concerns the value as a whole. -/
theorem of_fatal_eq_invalid {message : String}
    (h : (Verdict.fatal message : Verdict α) = .invalid fatal issues) :
    fatal = true ∧ issues.first.path = [] := by
  cases h
  exact ⟨rfl, rfl⟩

end Verdict

/-! ### Schemas of single values -/

/-- Checks accept a value that passes all of them. -/
theorem Check.verdict_eq_valid_iff {checks : List (Check α)} {a b : α} :
    Check.verdict checks a = .valid b ↔ a = b ∧ ∀ check ∈ checks, check.holds b = true := by
  rw [Check.verdict]
  split
  next hnone =>
    simp only [Verdict.valid.injEq, iff_self_and]
    rintro rfl
    simpa using List.filter_eq_nil_iff.1 hnone
  next check rest hsome =>
    refine iff_of_false (by simp) ?_
    rintro ⟨rfl, hall⟩
    have hmem : check ∈ checks.filter fun check => !check.holds a := by simp [hsome]
    obtain ⟨hcheck, hfails⟩ := List.mem_filter.1 hmem
    rw [hall check hcheck] at hfails
    cases hfails

/-- Checks refuse a value as a whole. -/
theorem Check.path_of_verdict_eq_invalid {checks : List (Check α)} {a : α} {fatal : Bool}
    {issues : Issues} (h : Check.verdict checks a = .invalid fatal issues) :
    issues.first.path = [] := by
  rw [Check.verdict] at h
  split at h
  next => cases h
  next =>
    cases h
    rfl

namespace Schema

variable {input : Option Json} {fatal : Bool} {issues : Issues}

/-- A mismatch is no acceptance. -/
theorem mismatch_ne_valid {expected : String} {a : α} : mismatch expected input ≠ .valid a := by
  cases input <;> exact Verdict.fatal_ne_valid

/-- A mismatch concerns the value as a whole. -/
theorem of_mismatch_eq_invalid {expected : String}
    (h : (mismatch expected input : Verdict α) = .invalid fatal issues) :
    fatal = true ∧ issues.first.path = [] := by
  cases input <;> exact Verdict.of_fatal_eq_invalid h

/-- A literal accepts its string. -/
theorem literal_eq_valid_iff {text s : String} :
    (literal text).parse input = .valid s ↔ input = some (.string text) ∧ s = text := by
  simp only [literal]
  split
  next t =>
    split
    next heq => simp [heq, eq_comm]
    next hne => exact iff_of_false Verdict.fatal_ne_valid (by simp [hne])
  next hother =>
    refine iff_of_false Verdict.fatal_ne_valid ?_
    rintro ⟨rfl, -⟩
    exact hother _ rfl

/-- A literal refuses anything else fatally, and as a whole. -/
theorem of_literal_eq_invalid {text : String}
    (h : (literal text).parse input = .invalid fatal issues) :
    fatal = true ∧ issues.first.path = [] := by
  simp only [literal] at h
  split at h
  next =>
    split at h
    next => cases h
    next => exact Verdict.of_fatal_eq_invalid h
  next => exact Verdict.of_fatal_eq_invalid h

/-- An enumeration accepts its names. -/
theorem enumeration_eq_valid_iff {names : List String} {s : String} :
    (enumeration names).parse input = .valid s ↔ input = some (.string s) ∧ s ∈ names := by
  simp only [enumeration]
  split
  next t =>
    split
    next hmem =>
      simp only [Verdict.valid.injEq, Option.some.injEq, Json.string.injEq, iff_self_and]
      rintro rfl
      exact hmem
    next hmem =>
      refine iff_of_false Verdict.fatal_ne_valid ?_
      rintro ⟨⟨⟩, hs⟩
      exact hmem hs
  next hother =>
    refine iff_of_false mismatch_ne_valid ?_
    rintro ⟨rfl, -⟩
    exact hother _ rfl

/-- An enumeration refuses anything else fatally, and as a whole. -/
theorem of_enumeration_eq_invalid {names : List String}
    (h : (enumeration names).parse input = .invalid fatal issues) :
    fatal = true ∧ issues.first.path = [] := by
  simp only [enumeration] at h
  split at h
  next =>
    split at h
    next => cases h
    next => exact Verdict.of_fatal_eq_invalid h
  next => exact of_mismatch_eq_invalid h

/-- A string schema accepts the strings that pass its checks. -/
theorem string_eq_valid_iff {checks : List (Check String)} {s : String} :
    (string checks).parse input = .valid s ↔
      input = some (.string s) ∧ ∀ check ∈ checks, check.holds s = true := by
  simp only [string]
  split
  next t => rw [Check.verdict_eq_valid_iff, Option.some.injEq, Json.string.injEq]
  next hother =>
    refine iff_of_false mismatch_ne_valid ?_
    rintro ⟨rfl, -⟩
    exact hother _ rfl

/-- A number schema accepts the numbers that pass its checks. -/
theorem number_eq_valid_iff {checks : List (Check Number)} {x : Number} :
    (number checks).parse input = .valid x ↔
      input = some (.number x) ∧ ∀ check ∈ checks, check.holds x = true := by
  simp only [number]
  split
  next y => rw [Check.verdict_eq_valid_iff, Option.some.injEq, Json.number.injEq]
  next hother =>
    refine iff_of_false mismatch_ne_valid ?_
    rintro ⟨rfl, -⟩
    exact hother _ rfl

/-- A string schema refuses a value as a whole. -/
theorem path_of_string_eq_invalid {checks : List (Check String)}
    (h : (string checks).parse input = .invalid fatal issues) : issues.first.path = [] := by
  simp only [string] at h
  split at h
  next => exact Check.path_of_verdict_eq_invalid h
  next => exact (of_mismatch_eq_invalid h).2

/-- A number schema refuses a value as a whole. -/
theorem path_of_number_eq_invalid {checks : List (Check Number)}
    (h : (number checks).parse input = .invalid fatal issues) : issues.first.path = [] := by
  simp only [number] at h
  split at h
  next => exact Check.path_of_verdict_eq_invalid h
  next => exact (of_mismatch_eq_invalid h).2

/-- A rewritten schema accepts what the schema does. -/
theorem map_eq_valid_iff {f : α → β} {s : Schema α} {b : β} :
    (s.map f).parse input = .valid b ↔ ∃ a, s.parse input = .valid a ∧ f a = b :=
  Verdict.map_eq_valid_iff

/-- A rewritten schema refuses as the schema does. -/
theorem map_eq_invalid_iff {f : α → β} {s : Schema α} :
    (s.map f).parse input = .invalid fatal issues ↔ s.parse input = .invalid fatal issues :=
  Verdict.map_eq_invalid_iff

/-- A transformed schema accepts what can be rewritten. -/
theorem transform_eq_valid_iff {f : α → Except String β} {s : Schema α} {b : β} :
    (s.transform f).parse input = .valid b ↔ ∃ a, s.parse input = .valid a ∧ f a = .ok b := by
  simp only [transform]
  split
  next hinvalid => simp [hinvalid]
  next a hvalid =>
    rw [hvalid]
    split
    next hf => simp [hf]
    next hf => simp [hf]

/-- A transformed schema refuses as the schema does, or a value as a whole. -/
theorem of_transform_eq_invalid {f : α → Except String β} {s : Schema α}
    (h : (s.transform f).parse input = .invalid fatal issues) :
    (∃ fatal', s.parse input = .invalid fatal' issues) ∨ issues.first.path = [] := by
  simp only [transform] at h
  split at h
  next fatal' inner hinvalid =>
    cases h
    exact .inl ⟨fatal', hinvalid⟩
  next =>
    split at h
    next => cases h
    next =>
      cases h
      exact .inr rfl

/-! ### Lists -/

/-- The items of a list are accepted one by one. -/
theorem items_eq_valid_iff {s : Schema α} {index : Nat} {list : List Json} {as : List α} :
    s.items index list = .valid as ↔
      List.Forall₂ (fun item a => s.parse (some item) = .valid a) list as := by
  induction list generalizing index as with
  | nil => simp [items, eq_comm]
  | cons item list ih =>
      rw [items, Verdict.map_eq_valid_iff, List.forall₂_cons_left_iff]
      simp only [Verdict.both_eq_valid_iff, Verdict.under_eq_valid_iff, ih]
      constructor
      · rintro ⟨⟨a, as⟩, ⟨hitem, hlist⟩, rfl⟩
        exact ⟨a, as, hitem, hlist, rfl⟩
      · rintro ⟨a, as, hitem, hlist, rfl⟩
        exact ⟨⟨a, as⟩, ⟨hitem, hlist⟩, rfl⟩

/-- **The first issue of a list** is that of the first item that is refused. -/
theorem exists_of_items_eq_invalid {s : Schema α} {index : Nat} {list : List Json}
    (h : s.items index list = .invalid fatal issues) :
    ∃ i item fatal' inner, list[i]? = some item ∧ s.parse (some item) = .invalid fatal' inner ∧
      issues.first.path = toString (index + i) :: inner.first.path ∧
      ∀ j < i, ∀ item, list[j]? = some item → ∃ a, s.parse (some item) = .valid a := by
  induction list generalizing index with
  | nil => cases h
  | cons item list ih =>
      rw [items, Verdict.map_eq_invalid_iff] at h
      rcases Verdict.exists_of_both_eq_invalid h with ⟨fatal', inner, hitem, hfirst, -⟩ | h
      · obtain ⟨deep, hitem, hpath⟩ := Verdict.exists_of_under_eq_invalid hitem
        exact ⟨0, item, fatal', deep, rfl, hitem, hfirst ▸ hpath, by simp⟩
      · obtain ⟨a, hitem, hlist⟩ := h
        -- The first item is accepted, so the first issue is one of the rest.
        obtain ⟨i, item', fatal', inner, hget, hitem', hpath, hbefore⟩ := ih hlist
        refine ⟨i + 1, item', fatal', inner, hget, hitem', ?_, ?_⟩
        · rw [hpath, Nat.add_assoc, Nat.add_comm 1 i]
        · intro j hj item'' hget''
          cases j with
          | zero =>
              obtain rfl := Option.some.inj hget''
              exact ⟨a, Verdict.under_eq_valid_iff.1 hitem⟩
          | succ j => exact hbefore j (Nat.lt_of_succ_lt_succ hj) item'' hget''

/-- A list schema accepts lists of accepted items. -/
theorem array_eq_valid_iff {s : Schema α} {as : List α} :
    s.array.parse input = .valid as ↔ ∃ list, input = some (.array list) ∧
      List.Forall₂ (fun item a => s.parse (some item) = .valid a) list as := by
  simp only [array]
  split
  next list => simp [items_eq_valid_iff]
  next hother =>
    refine iff_of_false mismatch_ne_valid ?_
    rintro ⟨list, rfl, -⟩
    exact hother list rfl

/-- A list is refused for its items, and what is no list as a whole. -/
theorem of_array_eq_invalid {s : Schema α} (h : s.array.parse input = .invalid fatal issues) :
    (∃ list, input = some (.array list) ∧ s.items 0 list = .invalid fatal issues) ∨
    (∀ list, input ≠ some (.array list)) ∧ issues.first.path = [] := by
  simp only [array] at h
  split at h
  next list => exact .inl ⟨list, rfl, h⟩
  next hother => exact .inr ⟨hother, (of_mismatch_eq_invalid h).2⟩

/-! ### Choices -/

/-- What a choice accepts is accepted by one of its schemas. -/
theorem exists_of_union_eq_valid {options : List (Schema α)} {a : α}
    (h : (union options).parse input = .valid a) : ∃ s ∈ options, s.parse input = .valid a := by
  rw [union, ← Verdict.meaning?_eq_some_iff, Verdict.meaning?_choose] at h
  obtain ⟨v, hv, hmeaning⟩ := List.exists_of_findSome?_eq_some h
  obtain ⟨s, hs, rfl⟩ := List.mem_map.1 hv
  exact ⟨s, hs, Verdict.meaning?_eq_some_iff.1 hmeaning⟩

/-- **A choice between schemas that agree** accepts what any of them accepts. -/
theorem union_eq_valid {options : List (Schema α)} {s : Schema α} {a : α} (hs : s ∈ options)
    (h : s.parse input = .valid a)
    (hagree : ∀ t ∈ options, ∀ b, t.parse input = .valid b → b = a) :
    (union options).parse input = .valid a := by
  rcases hverdict : (union options).parse input with b | ⟨fatal, issues⟩
  · obtain ⟨t, ht, hb⟩ := exists_of_union_eq_valid hverdict
    rw [hagree t ht b hb]
  · have hnone := congrArg Verdict.meaning? hverdict
    rw [union, Verdict.meaning?_choose] at hnone
    have hrefused := List.findSome?_eq_none_iff.1 hnone _ (List.mem_map_of_mem hs)
    rw [h] at hrefused
    cases hrefused

/-- A choice refuses as a schema that comes close does, or a value as a whole. -/
theorem of_union_eq_invalid {options : List (Schema α)}
    (h : (union options).parse input = .invalid fatal issues) :
    (∃ s ∈ options, s.parse input = .invalid false issues) ∨ issues.first.path = [] := by
  rcases Verdict.of_choose_eq_invalid h with hnone | hmem | hroot
  · cases hnone
  · obtain ⟨s, hs, hverdict⟩ := List.mem_map.1 hmem
    exact .inl ⟨s, hs, hverdict⟩
  · exact .inr hroot

end Schema

/-! ### Objects -/

section Objects

variable {a : Fields α} {b : Fields β} {members : List (String × Json)} {input : Option Json}
  {fatal : Bool} {issues : Issues}

namespace Fields

/-- A member is accepted if its value is. -/
theorem field_eq_valid_iff {key : String} {s : Schema α} {x : α} :
    (field key s).parse members = .valid x ↔ s.parse (members.lookup key) = .valid x := by
  rw [field, Verdict.under_eq_valid_iff]

/-- A member is refused if its value is, one level deeper. -/
theorem exists_of_field_eq_invalid {key : String} {s : Schema α}
    (h : (field key s).parse members = .invalid fatal issues) :
    ∃ inner, s.parse (members.lookup key) = .invalid fatal inner ∧
      issues.first.path = key :: inner.first.path :=
  Verdict.exists_of_under_eq_invalid h

/-- Members are accepted together if all are. -/
theorem and_eq_valid_iff {xy : α × β} :
    (a.and b).parse members = .valid xy ↔
      a.parse members = .valid xy.1 ∧ b.parse members = .valid xy.2 :=
  Verdict.both_eq_valid_iff

/-- The first issue with some members is that of the first one that is refused. -/
theorem exists_of_and_eq_invalid (h : (a.and b).parse members = .invalid fatal issues) :
    (∃ fatal' inner, a.parse members = .invalid fatal' inner ∧ issues.first = inner.first ∧
      (fatal = false → fatal' = false)) ∨
    ∃ x, a.parse members = .valid x ∧ b.parse members = .invalid fatal issues :=
  Verdict.exists_of_both_eq_invalid h

/-- There is nothing beyond given keys exactly if all keys are among them. -/
theorem stray_eq_valid_iff {keys : List String} :
    stray keys members = .valid () ↔ ∀ key ∈ members.map (·.1), key ∈ keys := by
  rw [stray]
  split
  next hnone => simpa using List.filter_eq_nil_iff.1 hnone
  next hsome =>
    refine iff_of_false (fun h => by cases h) ?_
    intro hkeys
    refine hsome (List.filter_eq_nil_iff.2 ?_)
    intro key hkey
    simpa using hkeys key hkey

/-- Members beyond given keys are an issue of the object as a whole. -/
theorem path_of_stray_eq_invalid {keys : List String}
    (h : stray keys members = .invalid fatal issues) : issues.first.path = [] := by
  rw [stray] at h
  split at h
  next => cases h
  next =>
    cases h
    rfl

end Fields

namespace Schema

/-- An object is accepted by certain members. -/
theorem object_eq_valid_iff {x : α} :
    (object a).parse input = .valid x ↔
      ∃ members, input = some (.object members) ∧ a.parse members = .valid x := by
  simp only [object]
  split
  next members => simp
  next hother =>
    refine iff_of_false mismatch_ne_valid ?_
    rintro ⟨members, rfl, -⟩
    exact hother members rfl

/-- An object is refused for certain members, and what is no object as a whole. -/
theorem of_object_eq_invalid (h : (object a).parse input = .invalid fatal issues) :
    (∃ members, input = some (.object members) ∧ a.parse members = .invalid fatal issues) ∨
    (∀ members, input ≠ some (.object members)) ∧ issues.first.path = [] := by
  simp only [object] at h
  split at h
  next members => exact .inl ⟨members, rfl, h⟩
  next hother => exact .inr ⟨hother, (of_mismatch_eq_invalid h).2⟩

/-- **An object without stray members** is accepted by certain members. -/
theorem strict_eq_valid_iff {x : α} :
    (strict a).parse input = .valid x ↔
      ∃ members, input = some (.object members) ∧ a.parse members = .valid x ∧
        ∀ key ∈ members.map (·.1), key ∈ a.keys := by
  simp only [strict]
  split
  next members =>
    simp only [Verdict.map_eq_valid_iff, Verdict.both_eq_valid_iff, Option.some.injEq,
      Json.object.injEq, Prod.exists, exists_eq_left']
    constructor
    · rintro ⟨x, ⟨⟩, ⟨hfields, hstray⟩, rfl⟩
      exact ⟨hfields, Fields.stray_eq_valid_iff.1 hstray⟩
    · rintro ⟨hfields, hkeys⟩
      exact ⟨x, (), ⟨hfields, Fields.stray_eq_valid_iff.2 hkeys⟩, rfl⟩
  next hother =>
    refine iff_of_false mismatch_ne_valid ?_
    rintro ⟨members, rfl, -⟩
    exact hother members rfl

/-- An object comes close to a schema without stray members if certain members do, and is
otherwise an issue as a whole. -/
theorem of_strict_eq_invalid (h : (strict a).parse input = .invalid false issues) :
    (∃ members inner, input = some (.object members) ∧
      a.parse members = .invalid false inner ∧ issues.first = inner.first) ∨
    issues.first.path = [] := by
  simp only [strict] at h
  split at h
  next members =>
    rw [Verdict.map_eq_invalid_iff] at h
    rcases Verdict.exists_of_both_eq_invalid h with ⟨fatal, inner, hfields, hfirst, hmild⟩ | h
    · obtain rfl := hmild rfl
      exact .inl ⟨members, inner, rfl, hfields, hfirst⟩
    · obtain ⟨x, -, hstray⟩ := h
      exact .inr (Fields.path_of_stray_eq_invalid hstray)
  next => exact .inr (of_mismatch_eq_invalid h).2

end Schema

end Objects

end StackMachine
