import Mathlib.Data.Finset.Card
import StackMachine.Memory

/-!
# Memory as a map of last writes

A memory keeps an array, but its caller can think of a map: a load finds what the last store put
at the address. This module makes the calls to a memory explicit and shows that the array is that
map, after every sequence of calls. The map is dense as well: the addresses that were stored to
are an interval that starts at `0`, so that their number tells where the next one goes.

One invariant carries all of it, `Memory.Holds`: the cells are the last writes. How a store that
succeeds changes the cells is known from `Memory.cell?_of_store`, so the invariant passes through
each call, and what it says about addresses, sizes and lists follows without another look at the
array.

## Main definitions

* `Memory.Access`, `Memory.Access.serve` and `Memory.after`: calls, and the memory that they lead
  to.
* `Memory.writes`: the stores that succeeded since the memory was last emptied.

## Main results

* `Memory.holds_after`: the cells are the last writes, after every history.
* `memory_last_writes`: **a memory is a dense map of last writes.**
-/

namespace StackMachine

namespace Memory

/-! ### Calls -/

/-- A call to a memory. Those that can fail name the instruction that makes them. -/
inductive Access where
  /-- Puts a value at an address. -/
  | store (addr value : Int) (ip : Number)
  /-- Asks for the value at an address. -/
  | load (addr : Int) (ip : Number)
  /-- Asks for all cells. -/
  | snapshot
  /-- Takes all cells away. -/
  | clear

/-- What a call returns. -/
inductive Returned where
  /-- Nothing. -/
  | nothing
  /-- A value. -/
  | value (v : Int)
  /-- A list of cells. -/
  | cells (vs : List Int)

namespace Access

/-- What a call returns, or why it fails, and the memory that it leaves. -/
def serve : Access → Memory → Except Diagnostic Returned × Memory
  | store addr value ip, m =>
    match m.store addr value with
    | .ok m' => (.ok .nothing, m')
    | .error cause => (.error (cause.diagnostic ip), m)
  | load addr ip, m =>
    match m.load addr with
    | .ok v => (.ok (.value v), m)
    | .error cause => (.error (cause.diagnostic ip), m)
  | snapshot, m => (.ok (.cells m.toList), m)
  | clear, _ => (.ok .nothing, .empty)

/-- The code of the failures of a call. -/
def code? : Access → Option Code
  | store _ _ _ => some .memoryStore
  | load _ _ => some .memoryLoad
  | snapshot | clear => none

/-- The writes after a call that meets a memory, the newest first. -/
def record : Access → Memory → List (Int × Int) → List (Int × Int)
  | store addr value ip, m, writes =>
    if ((store addr value ip).serve m).1.isOk then (addr, value) :: writes else writes
  | load _ _, _, writes | snapshot, _, writes => writes
  | clear, _, _ => []

end Access

/-- A new memory after a history of calls, the newest first. -/
def after : List Access → Memory
  | [] => .empty
  | call :: earlier => (call.serve (after earlier)).2

/-- The stores of a history that succeeded since the last call that took all cells away. Each is
an address and a value, the newest first. -/
def writes : List Access → List (Int × Int)
  | [] => []
  | call :: earlier => call.record (after earlier) (writes earlier)

/-- The addresses of a list of writes. -/
def addresses (writes : List (Int × Int)) : Finset Int := (writes.map Prod.fst).toFinset

/-! ### One call -/

/-- A load succeeds exactly with the value of the cell at the address. -/
theorem load_eq_ok_iff {m : Memory} {addr v : Int} :
    m.load addr = .ok v ↔ m.cell? addr = some v := by
  rw [load]
  cases m.cell? addr with
  | none => exact ⟨nofun, nofun⟩
  | some u => rw [Except.ok.injEq, Option.some.injEq]

/-- A load that fails has the error code of a load. -/
theorem code_of_load {m : Memory} {addr : Int} {cause : Cause} (h : m.load addr = .error cause) :
    cause.code = .memoryLoad := by
  rw [load] at h
  split at h <;> cases h
  rfl

/-- A store that fails has the error code of a store. -/
theorem code_of_store {m : Memory} {addr value : Int} {cause : Cause}
    (h : m.store addr value = .error cause) : cause.code = .memoryStore := by
  rw [store] at h
  split at h
  · split at h <;> cases h
  · cases h
    rfl

/-- A store adds at most one cell and takes none away. -/
theorem size_of_store {m m' : Memory} {addr value : Int} (h : m.store addr value = .ok m') :
    m.size ≤ m'.size ∧ m'.size ≤ m.size + 1 := by
  rw [store] at h
  split at h
  · split at h
    · cases h
      simp only [size, Array.size_push]
      omega
    · cases h
      simp only [size, Array.size_setIfInBounds]
      omega
  · cases h

namespace Access

variable {m : Memory}

/-- **What a call can do.** It stores a value, or takes all cells away, or leaves the memory and
the writes as they are. -/
theorem serve_cases (call : Access) (m : Memory) :
    (∃ addr value ip m', call = store addr value ip ∧ m.store addr value = .ok m' ∧
      call.serve m = (.ok .nothing, m')) ∨
    call = clear ∨
    ((call.serve m).2 = m ∧ ∀ writes, call.record m writes = writes) := by
  cases call with
  | store addr value ip =>
      cases h : m.store addr value with
      | ok m' => exact .inl ⟨addr, value, ip, m', rfl, h, by rw [serve, h]⟩
      | error cause =>
          refine .inr (.inr ⟨by rw [serve, h], fun writes => ?_⟩)
          rw [record, serve, h]
          rfl
  | load addr ip =>
      refine .inr (.inr ⟨?_, fun _ => rfl⟩)
      rw [serve]
      split <;> rfl
  | snapshot => exact .inr (.inr ⟨rfl, fun _ => rfl⟩)
  | clear => exact .inr (.inl rfl)

section

variable {addr value v : Int} {ip : Number}

/-- A store succeeds exactly at the addresses in use and at the first one that is not. -/
theorem isOk_serve_store : ((store addr value ip).serve m).1.isOk ↔ 0 ≤ addr ∧ addr ≤ m.size := by
  have hbounds : 0 ≤ addr ∧ addr ≤ m.size ↔ ∃ m', m.store addr value = .ok m' :=
    exists_store_iff.symm
  rw [hbounds, serve]
  cases m.store addr value with
  | ok m' => exact iff_of_true rfl ⟨m', rfl⟩
  | error cause => exact iff_of_false nofun nofun

/-- A load succeeds exactly at the addresses in use. -/
theorem isOk_serve_load : ((load addr ip).serve m).1.isOk ↔ ∃ v, m.cell? addr = some v := by
  simp only [← load_eq_ok_iff]
  rw [serve]
  cases m.load addr with
  | ok u => exact iff_of_true rfl ⟨u, rfl⟩
  | error cause => exact iff_of_false nofun nofun

/-- It returns the cell at its address. -/
theorem serve_load_eq_ok_iff :
    ((load addr ip).serve m).1 = .ok (.value v) ↔ m.cell? addr = some v := by
  rw [← load_eq_ok_iff, serve]
  cases m.load addr with
  | ok u => rw [Except.ok.injEq, Returned.value.injEq, Except.ok.injEq]
  | error cause => exact iff_of_false nofun nofun

end

/-- The code of a failure tells which call it was. -/
theorem code?_of_serve {call : Access} {d : Diagnostic} (h : (call.serve m).1 = .error d) :
    call.code? = some d.code := by
  cases call with
  | store addr value ip =>
      rw [serve] at h
      split at h
      · cases h
      next cause hstore =>
        obtain rfl : cause.diagnostic ip = d := Except.error.inj h
        exact congrArg some (code_of_store hstore).symm
  | load addr ip =>
      rw [serve] at h
      split at h
      · cases h
      next cause hload =>
        obtain rfl : cause.diagnostic ip = d := Except.error.inj h
        exact congrArg some (code_of_load hload).symm
  | snapshot => cases h
  | clear => cases h

/-- A call that fails changes nothing. -/
theorem serve_of_error {call : Access} {d : Diagnostic} (h : (call.serve m).1 = .error d) :
    (call.serve m).2 = m := by
  obtain ⟨addr, value, ip, m', -, -, hserve⟩ | rfl | ⟨hsame, -⟩ := serve_cases call m
  · rw [hserve] at h
    cases h
  · cases h
  · exact hsame

/-- A call adds at most one cell, and only one takes cells away. -/
theorem size_serve (call : Access) (m : Memory) :
    (call.serve m).2.size ≤ m.size + 1 ∧ (call ≠ clear → m.size ≤ (call.serve m).2.size) := by
  obtain ⟨addr, value, ip, m', -, hstore, hserve⟩ | rfl | ⟨hsame, -⟩ := serve_cases call m
  · obtain ⟨hle, hlt⟩ := size_of_store hstore
    rw [hserve]
    exact ⟨hlt, fun _ => hle⟩
  · exact ⟨Nat.zero_le _, fun hne => absurd rfl hne⟩
  · rw [hsame]
    exact ⟨Nat.le_succ _, fun _ => Nat.le_refl _⟩

end Access

/-! ### The cells are the last writes -/

/-- The cells of a memory are the last of a list of writes to their address. -/
def Holds (m : Memory) (writes : List (Int × Int)) : Prop :=
  ∀ addr, m.cell? addr = writes.lookup addr

/-- The empty memory holds no writes. -/
theorem holds_empty : empty.Holds [] := by
  intro addr
  rw [cell?]
  split <;> rfl

/-- **A call keeps the cells the last writes.** -/
theorem Holds.serve {m : Memory} {writes : List (Int × Int)} (h : m.Holds writes)
    (call : Access) : (call.serve m).2.Holds (call.record m writes) := by
  obtain ⟨addr, value, ip, m', rfl, hstore, hserve⟩ | rfl | ⟨hsame, hwrites⟩ := call.serve_cases m
  · have hrecord : (Access.store addr value ip).record m writes = (addr, value) :: writes := by
      rw [Access.record, hserve]
      rfl
    rw [hserve, hrecord]
    intro other
    rw [cell?_of_store hstore, h other]
    by_cases hother : other = addr
    · rw [if_pos hother, hother, List.lookup_cons_self]
    · rw [if_neg hother, List.lookup_cons, beq_false_of_ne hother]
  · exact holds_empty
  · rw [hsame, hwrites]
    exact h

/-- After every history the cells are the last writes. -/
theorem holds_after (history : List Access) : (after history).Holds (writes history) := by
  induction history with
  | nil => exact holds_empty
  | cons call earlier ih => exact ih.serve call

namespace Holds

variable {m : Memory} {writes : List (Int × Int)}

/-- The addresses that were written are those of the cells. -/
theorem mem_addresses_iff (h : m.Holds writes) {addr : Int} :
    addr ∈ addresses writes ↔ ∃ v, m.cell? addr = some v := by
  rw [h addr, ← Option.isSome_iff_exists, List.lookup_isSome_iff, addresses]
  simp only [List.mem_toFinset, List.mem_map, beq_iff_eq, @eq_comm Int addr]

/-- **The addresses are an interval** that starts at `0`. -/
theorem mem_addresses_iff_lt (h : m.Holds writes) {addr : Int} :
    addr ∈ addresses writes ↔ 0 ≤ addr ∧ addr < m.size := by
  rw [h.mem_addresses_iff, ← Option.isSome_iff_exists, cell?_isSome_iff]

/-- The size is the number of addresses. -/
theorem size_eq (h : m.Holds writes) : m.size = (addresses writes).card := by
  have hrange : addresses writes = (Finset.range m.size).image fun i : Nat => (i : Int) := by
    ext addr
    rw [h.mem_addresses_iff_lt, Finset.mem_image]
    constructor
    · rintro ⟨hnonneg, hlt⟩
      exact ⟨addr.toNat, Finset.mem_range.2 (by omega), Int.toNat_of_nonneg hnonneg⟩
    · rintro ⟨i, hi, rfl⟩
      have hlt : i < m.size := Finset.mem_range.1 hi
      omega
  have hinjective : Function.Injective fun i : Nat => (i : Int) := fun _ _ => Int.ofNat_inj.1
  rw [hrange, Finset.card_image_of_injective _ hinjective, Finset.card_range]

/-- The list of cells goes through the addresses in order. -/
theorem map_toList (h : m.Holds writes) :
    m.toList.map some = (List.range m.size).map fun i : Nat => writes.lookup (i : Int) := by
  have hlength : m.toList.length = m.size := Array.length_toList
  apply List.ext_getElem
  · rw [List.length_map, List.length_map, List.length_range, hlength]
  · intro i hi hi'
    rw [List.length_map] at hi
    rw [List.getElem_map, List.getElem_map, List.getElem_range, ← h i, cell?,
      if_neg (Int.not_lt.2 (Int.natCast_nonneg i)), Int.toNat_natCast, ← Array.getElem?_toList]
    exact (List.getElem?_eq_getElem hi).symm

end Holds

end Memory

/-- **A memory is a dense map of last writes.** Take any history of calls to a new memory, and the
stores of it that succeeded since the last call that took all cells away. A store succeeds exactly
at the addresses up to the size. A load succeeds exactly at the addresses that were stored to, and
returns the value that was stored there last. The size is the number of these addresses, which are
those below it, and a list of the cells has the last value of each, in order. A call adds at most
one cell, and only one kind takes cells away. A call that fails is a store or a load, by its code,
and changes nothing, and neither does a list of the cells. -/
theorem memory_last_writes (history : List Memory.Access) :
    let m := Memory.after history
    let writes := Memory.writes history
    (∀ addr value ip, ((Memory.Access.store addr value ip).serve m).1.isOk ↔
      0 ≤ addr ∧ addr ≤ m.size) ∧
    (∀ addr ip, ((Memory.Access.load addr ip).serve m).1.isOk ↔ addr ∈ Memory.addresses writes) ∧
    (∀ addr ip v, ((Memory.Access.load addr ip).serve m).1 = .ok (.value v) ↔
      writes.lookup addr = some v) ∧
    m.size = (Memory.addresses writes).card ∧
    (∀ addr, addr ∈ Memory.addresses writes ↔ 0 ≤ addr ∧ addr < m.size) ∧
    (∃ vs, (Memory.Access.snapshot.serve m).1 = .ok (.cells vs) ∧
      vs.map some = (List.range m.size).map fun i : Nat => writes.lookup (i : Int)) ∧
    (∀ call, (Memory.after (call :: history)).size ≤ m.size + 1 ∧
      (call ≠ .clear → m.size ≤ (Memory.after (call :: history)).size)) ∧
    (∀ call d, (call.serve m).1 = .error d →
      Memory.after (call :: history) = m ∧ call.code? = some d.code) ∧
    Memory.after (.snapshot :: history) = m := by
  intro m writes
  have hholds : m.Holds writes := Memory.holds_after history
  refine ⟨?_, ?_, ?_, hholds.size_eq, fun addr => hholds.mem_addresses_iff_lt,
    ⟨m.toList, rfl, hholds.map_toList⟩, fun call => call.size_serve m, ?_, rfl⟩
  · intro addr value ip
    exact Memory.Access.isOk_serve_store
  · intro addr ip
    rw [Memory.Access.isOk_serve_load, hholds.mem_addresses_iff]
  · intro addr ip v
    rw [Memory.Access.serve_load_eq_ok_iff, hholds addr]
  · intro call d h
    exact ⟨Memory.Access.serve_of_error h, Memory.Access.code?_of_serve h⟩

/-- A value is overwritten, a store past the end fails, and what was there before the cells were
taken away is forgotten. -/
theorem memory_last_writes_overwritten :
    let ip := Number.ofNat 3
    let history : List Memory.Access := [.store 0 9 ip, .store 3 6 ip, .store 1 8 ip,
      .store 0 7 ip, .clear, .store 0 5 ip]
    let m := Memory.after history
    Memory.writes history = [(0, 9), (1, 8), (0, 7)] ∧
    ((Memory.Access.load 0 ip).serve m).1 = .ok (.value 9) ∧
    (∃ vs, (Memory.Access.snapshot.serve m).1 = .ok (.cells vs) ∧ vs.map some = [some 9, some 8]) ∧
    m.size ≤ (Memory.after (.store 2 4 ip :: history)).size ∧
    Memory.after (.load 2 ip :: history) = m := by
  intro ip history m
  have hwrites : Memory.writes history = [(0, 9), (1, 8), (0, 7)] := rfl
  have hcount : m.size = 2 := rfl
  have hrefused : ((Memory.Access.load 2 ip).serve m).1 =
      .error ((Cause.loadOutside 2 2).diagnostic ip) := rfl
  obtain ⟨-, -, hload, -, -, hcells, hsize, hfails, -⟩ := memory_last_writes history
  rw [hwrites] at hload hcells
  refine ⟨hwrites, (hload 0 ip 9).2 rfl, ?_, (hsize (.store 2 4 ip)).2 nofun, ?_⟩
  · obtain ⟨vs, hserve, hvs⟩ := hcells
    rw [hcount] at hvs
    exact ⟨vs, hserve, hvs⟩
  · exact (hfails (.load 2 ip) _ hrefused).1

end StackMachine
