import Mathlib.Data.List.Perm.Basic
import StackMachine.Json

/-!
# The members of an object

An object lists its members in an order of its own, in which a repeated key stands once. For
looking up a key that order does not matter: what is found is the value that was written last
under the key, since merging keeps the keys distinct and everything behind it only permutes.

## Main results

* `Members.arrange_eq_self`: distinct keys that are no array indices keep their order.
* `Members.lookup_arrange`: **the last value that was written under a key is found.**
* `Members.mem_keys_arrange`: the keys are those that were written.
-/

namespace StackMachine.Members

variable {α : Type}

/-! ### Putting -/

/-- A new key goes to the end. -/
theorem put_of_notMem {key : String} {value : α} {members : List (String × α)}
    (h : key ∉ members.map (·.1)) : put key value members = members ++ [(key, value)] := by
  induction members with
  | nil => rfl
  | cons m members ih =>
      simp only [List.map_cons, List.mem_cons, not_or] at h
      rw [put, if_neg (Ne.symm h.1), ih h.2, List.cons_append]

/-- Pairs with new and distinct keys are appended one by one. -/
theorem foldl_put {pairs members : List (String × α)}
    (h : ((members ++ pairs).map (·.1)).Nodup) :
    pairs.foldl (fun members (k, v) => put k v members) members = members ++ pairs := by
  induction pairs generalizing members with
  | nil => simp
  | cons m pairs ih =>
      obtain ⟨key, value⟩ := m
      have hnew : key ∉ members.map (·.1) := by
        intro hmem
        rw [List.map_append, List.map_cons] at h
        exact (List.nodup_append.1 h).2.2 _ hmem _ List.mem_cons_self rfl
      have hput : put key value members = members ++ [(key, value)] := put_of_notMem hnew
      simp only [List.foldl_cons, hput]
      rw [ih (by simpa using h), List.append_assoc, List.singleton_append]

/-- **Distinct keys that are no array indices keep their order.** -/
theorem arrange_eq_self {pairs : List (String × α)} (keys : List String)
    (hpairs : pairs.map (·.1) = keys) (hkeys : keys.Nodup)
    (hnames : ∀ key ∈ keys, index? key = none) : arrange pairs = pairs := by
  subst hpairs
  have hmerged : pairs.foldl (fun members (k, v) => put k v members) [] = pairs :=
    foldl_put (by simpa using hkeys)
  have hindexed : (pairs.filterMap fun (k, v) => (index? k).map fun n => (n, k, v)) = [] := by
    refine List.filterMap_eq_nil_iff.2 ?_
    intro m hm
    simp [hnames m.1 (List.mem_map_of_mem hm)]
  have hnamed : (pairs.filter fun (k, _) => (index? k).isNone) = pairs := by
    refine List.filter_eq_self.2 ?_
    intro m hm
    simp [hnames m.1 (List.mem_map_of_mem hm)]
  simp only [arrange, hmerged, hindexed, hnamed]
  simp

/-! ### Looking up -/

/-- A member in front is found by its name and hides none of another name. -/
theorem lookup_cons_eq_ite (key : String) (value : α) (members : List (String × α)) (k : String) :
    ((key, value) :: members).lookup k = if k = key then some value else members.lookup k := by
  rw [List.lookup_cons]
  by_cases hk : k = key
  · simp [hk]
  · simp [hk, beq_false_of_ne hk]

/-- A key that was put is found, and all others as before. -/
theorem lookup_put (key : String) (value : α) (members : List (String × α)) (k : String) :
    (put key value members).lookup k = if k = key then some value else members.lookup k := by
  induction members with
  | nil => exact lookup_cons_eq_ite key value [] k
  | cons m members ih =>
      obtain ⟨head, old⟩ := m
      rw [put, lookup_cons_eq_ite]
      split
      next hhead =>
        subst hhead
        rw [lookup_cons_eq_ite]
        by_cases hk : k = head <;> simp [hk]
      next hhead =>
        rw [lookup_cons_eq_ite, ih]
        by_cases hk : k = head
        · subst hk
          simp [hhead]
        · simp [hk]

/-- Of several pairs that are put one after the other, the last one with a key is found. -/
theorem lookup_foldl_put (pairs members : List (String × α)) (k : String) :
    (pairs.foldl (fun members (k, v) => put k v members) members).lookup k =
      (pairs.reverse.lookup k).or (members.lookup k) := by
  induction pairs generalizing members with
  | nil => rfl
  | cons m pairs ih =>
      obtain ⟨key, value⟩ := m
      rw [List.foldl_cons, ih, lookup_put, List.reverse_cons, List.lookup_append,
        Option.or_assoc, lookup_cons_eq_ite]
      by_cases hk : k = key <;> simp [hk]

/-- Putting keeps the keys distinct. -/
theorem nodup_put {key : String} {value : α} {members : List (String × α)}
    (h : (members.map (·.1)).Nodup) : ((put key value members).map (·.1)).Nodup := by
  by_cases hkey : key ∈ members.map (·.1)
  · have hkeys : (put key value members).map (·.1) = members.map (·.1) := by
      clear h
      induction members with
      | nil => cases hkey
      | cons m members ih =>
          rw [put]
          split
          next => rfl
          next hne =>
            rw [List.map_cons, List.mem_cons] at hkey
            rw [List.map_cons, List.map_cons, ih (hkey.resolve_left (Ne.symm hne))]
    rw [hkeys]
    exact h
  · rw [put_of_notMem hkey, List.map_append]
    refine List.nodup_append.2 ⟨h, List.pairwise_singleton _ key, ?_⟩
    rintro k hk k' hk' rfl
    obtain rfl := List.mem_singleton.1 hk'
    exact hkey hk

/-- Putting members into an object keeps its names distinct. -/
theorem nodup_foldl_put {pairs members : List (String × α)} (h : (members.map (·.1)).Nodup) :
    ((pairs.foldl (fun members (k, v) => put k v members) members).map (·.1)).Nodup := by
  induction pairs generalizing members with
  | nil => exact h
  | cons m pairs ih => exact ih (nodup_put h)

/-- The order of an object permutes the merged members: those whose key is an index, and
the others behind them. -/
theorem arrange_perm (pairs : List (String × α)) :
    (arrange pairs).Perm (pairs.foldl (fun members (k, v) => put k v members) []) := by
  rw [arrange]
  generalize pairs.foldl (fun members (k, v) => put k v members) [] = merged
  have hindexed : (merged.filterMap fun (k, v) => (index? k).map fun n => (n, k, v)).map (·.2) =
      merged.filter fun (k, _) => (index? k).isSome := by
    induction merged with
    | nil => rfl
    | cons m merged ih =>
        obtain ⟨k, v⟩ := m
        cases hindex : index? k <;> simp [hindex, ih]
  have hsorted := (List.mergeSort_perm
    (merged.filterMap fun (k, v) => (index? k).map fun n => (n, k, v))
    fun a b => a.1 ≤ b.1).map (·.2)
  rw [hindexed] at hsorted
  refine (hsorted.append_right _).trans ?_
  have hsplit := List.filter_append_perm (fun m : String × α => (index? m.1).isSome) merged
  simpa using hsplit

/-- Distinct keys are found by their pairs. -/
theorem lookup_eq_some_iff_mem {members : List (String × α)} (h : (members.map (·.1)).Nodup)
    {k : String} {v : α} : members.lookup k = some v ↔ (k, v) ∈ members := by
  induction members with
  | nil => simp
  | cons m members ih =>
      obtain ⟨key, value⟩ := m
      obtain ⟨hnew, hrest⟩ := List.nodup_cons.1 h
      rw [lookup_cons_eq_ite, List.mem_cons]
      split
      next hk =>
        subst hk
        have hnot : (k, v) ∉ members := fun hmem => hnew (List.mem_map.2 ⟨(k, v), hmem, rfl⟩)
        simp [hnot, eq_comm]
      next hk => simp [ih hrest, hk]

/-- **The last value that was written under a key is found**, wherever it stands. -/
theorem lookup_arrange (pairs : List (String × α)) (k : String) :
    (arrange pairs).lookup k = pairs.reverse.lookup k := by
  have hperm := arrange_perm pairs
  have hmerged : ((pairs.foldl (fun members (k, v) => put k v members) []).map (·.1)).Nodup :=
    nodup_foldl_put List.nodup_nil
  have harranged : ((arrange pairs).map (·.1)).Nodup := (hperm.map _).nodup_iff.2 hmerged
  have hlookup := lookup_foldl_put pairs [] k
  rw [List.lookup_nil, Option.or_none] at hlookup
  rw [← hlookup]
  refine Option.ext ?_
  intro v
  rw [lookup_eq_some_iff_mem harranged, lookup_eq_some_iff_mem hmerged, hperm.mem_iff]

/-- A key that is found is one of the keys, and the other way round. -/
theorem lookup_isSome_iff_mem_keys (members : List (String × α)) (k : String) :
    (members.lookup k).isSome ↔ k ∈ members.map (·.1) := by
  simp [List.lookup_isSome_iff]

/-- The keys are those that were written. -/
theorem mem_keys_arrange (pairs : List (String × α)) (k : String) :
    k ∈ (arrange pairs).map (·.1) ↔ k ∈ pairs.map (·.1) := by
  rw [← lookup_isSome_iff_mem_keys, lookup_arrange, lookup_isSome_iff_mem_keys, List.map_reverse,
    List.mem_reverse]

end StackMachine.Members
