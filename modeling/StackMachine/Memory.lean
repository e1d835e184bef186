import StackMachine.Fault

/-!
# Memory

A dense store of cells. It grows only by a store at its end, so the addresses in use are
always `0` up to the size.

## Main definitions

* `Memory.load` and `Memory.store`, which refuse addresses outside.
* `Memory.toList`: the cells in the order of their addresses.
-/

namespace StackMachine

/-- A dense store of cells. -/
structure Memory where
  /-- The cells, by address. -/
  cells : Array Int
  deriving DecidableEq, Repr

namespace Memory

/-- The memory without cells. -/
def empty : Memory := ⟨#[]⟩

instance : Inhabited Memory := ⟨empty⟩

/-- The number of cells. -/
def size (m : Memory) : Nat := m.cells.size

/-- The cells in the order of their addresses. -/
def toList (m : Memory) : List Int := m.cells.toList

/-- The cell at an address, if the address is in use. -/
def cell? (m : Memory) (addr : Int) : Option Int :=
  if addr < 0 then none else m.cells[addr.toNat]?

/-- The value at an address. -/
def load (m : Memory) (addr : Int) : Except Cause Int :=
  match m.cell? addr with
  | some v => .ok v
  | none => .error (.loadOutside addr m.size)

/-- Puts a value at an address in use, or at the first one that is not. -/
def store (m : Memory) (addr value : Int) : Except Cause Memory :=
  if 0 ≤ addr ∧ addr ≤ m.size then
    if addr.toNat = m.size then .ok ⟨m.cells.push value⟩
    else .ok ⟨m.cells.setIfInBounds addr.toNat value⟩
  else .error (.storePast addr m.size)

/-! ### Stores seen through cells -/

/-- An address holds a cell exactly if it lies below the size. -/
theorem cell?_isSome_iff {m : Memory} {addr : Int} :
    (m.cell? addr).isSome ↔ 0 ≤ addr ∧ addr < m.size := by
  unfold cell? size
  split
  · simp only [Option.isSome_none, Bool.false_eq_true, false_iff]
    omega
  · simp only [isSome_getElem?]
    omega

/-- A store succeeds exactly at the addresses in use and at the first one that is not. -/
theorem exists_store_iff {m : Memory} {addr value : Int} :
    (∃ m', m.store addr value = .ok m') ↔ 0 ≤ addr ∧ addr ≤ m.size := by
  unfold store
  split
  next inside =>
    refine iff_of_true ?_ inside
    split
    · exact ⟨_, rfl⟩
    · exact ⟨_, rfl⟩
  next outside =>
    refine iff_of_false ?_ outside
    rintro ⟨m', h⟩
    cases h

/-- A store changes the cell at its address and no other. -/
theorem cell?_of_store {m m' : Memory} {addr value : Int} (h : m.store addr value = .ok m')
    (other : Int) : m'.cell? other = if other = addr then some value else m.cell? other := by
  have bounds : 0 ≤ addr ∧ addr ≤ m.size := exists_store_iff.1 ⟨m', h⟩
  simp only [store, bounds, and_self, if_true] at h
  split at h
  next last =>
    cases h
    simp only [cell?, size] at last ⊢
    grind
  next inner =>
    cases h
    simp only [cell?, size] at inner bounds ⊢
    grind

end Memory

end StackMachine
