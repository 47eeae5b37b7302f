import Mathlib.Logic.Function.Basic
import Mathlib.Tactic

/-!
# Arrays without initial values

An array that is allocated by `new T[size]` has no values until they are written. Here an access
outside of the array fails, and so does a read of an element that was not written.

## Main definitions

* `FreshArray`: the number of elements, and the values of those that were written
* `write`, `read`: the accesses
-/

namespace Foundation

universe u

/-- An array of `size` elements. -/
structure FreshArray (α : Type u) where
  size : ℕ
  cells : ℕ → Option α

namespace FreshArray

variable {α : Type u}

/-- `new T[size]`. -/
def allocate (α : Type u) (size : ℕ) : FreshArray α := ⟨size, fun _ => none⟩

/-- `array[i] = x`. -/
def write (a : FreshArray α) (i : ℕ) (x : α) : Option (FreshArray α) :=
  if i < a.size then some { a with cells := Function.update a.cells i (some x) } else none

/-- The value of `array[i]`. -/
def read (a : FreshArray α) (i : ℕ) : Option α := if i < a.size then a.cells i else none

variable {a a' : FreshArray α} {i j : ℕ} {x : α}

/-- A write outside of the array. -/
theorem write_of_ge (h : a.size ≤ i) (x : α) : a.write i x = none := if_neg (Nat.not_lt.mpr h)

theorem write_eq_some_iff : a.write i x = some a' ↔
    i < a.size ∧ a' = { a with cells := Function.update a.cells i (some x) } := by
  unfold write
  split_ifs with h
  · simp [h, eq_comm]
  · simp [h]

theorem size_of_write (h : a.write i x = some a') : a'.size = a.size := by
  obtain ⟨-, rfl⟩ := write_eq_some_iff.mp h
  rfl

theorem cells_of_write (h : a.write i x = some a') (j : ℕ) :
    a'.cells j = if j = i then some x else a.cells j := by
  obtain ⟨-, rfl⟩ := write_eq_some_iff.mp h
  exact Function.update_apply ..

/-- A write inside of the array. -/
theorem exists_write (h : i < a.size) (x : α) : ∃ a', a.write i x = some a' ∧ a'.size = a.size ∧
    ∀ j, a'.cells j = if j = i then some x else a.cells j := by
  have hwrite : a.write i x = some { a with cells := Function.update a.cells i (some x) } :=
    if_pos h
  exact ⟨_, hwrite, size_of_write hwrite, cells_of_write hwrite⟩

/-- An element that was not written is not read. -/
theorem read_eq_none (h : a.cells i = none) : a.read i = none := by
  rw [read, h, ite_self]

theorem read_of_cells (hi : i < a.size) (h : a.cells i = some x) : a.read i = some x := by
  rw [read, if_pos hi, h]

end FreshArray

end Foundation
