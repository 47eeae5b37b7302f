import GfeDriver.Foundation.Bytes
import Mathlib.Algebra.Order.Floor.Div
import Mathlib.Data.Nat.Log

/-!
# Packed arrays of integers

`CByteArray` stores 64-bit integers in a fixed number of bytes each. A value wider than an element
is truncated silently, so the width has to be chosen for the largest value to store.
`compute_bytes_per_elements` takes `⌈⌈log2 value⌉ / 8⌉` bytes, which is one byte short when the
value is a power of `256`: `⌈log2 value⌉` bits hold the values below `value`, not `value` itself.

## Main definitions

* `CByteArray`: a packed array, with the bounds its constructor checks
* `computeBytesPerElements`: the width for a largest value
* `CByteArray.getValueAt`, `CByteArray.setValueAt`: the accesses to an element
* `Suffices`: a width is accepted and holds a value

## Main results

* `getValueAt_setValueAt`: an element keeps a value modulo the width, the others are untouched
* `suffices_iff`: the values for which the computed width suffices
-/

namespace GfeDriver

open Foundation

/-- What a call may end with besides a value: an exception with its text, or behaviour that the
language leaves undefined. -/
inductive Failure where
  | invalidArgument (what : String)
  | undefinedBehaviour
  deriving DecidableEq, Repr

/-- `CByteArray`: the storage of `m_capacity` elements of `m_bytes_per_element` bytes. -/
structure CByteArray where
  bytesPerElement : ℕ
  capacity : ℕ
  array : List UInt8
  pos_bytes : 0 < bytesPerElement
  bytes_le : bytesPerElement ≤ 8
  length_array : array.length = bytesPerElement * capacity

namespace CByteArray

/-- `CByteArray::compute_bytes_per_elements`, with exact logarithms. The logarithm of zero is minus
infinity, whose conversion to an integer is undefined. -/
def computeBytesPerElements (value : ℕ) : Except Failure ℕ :=
  if value = 0 then .error .undefinedBehaviour
  else
    let bits := Nat.clog 2 value
    let bytes := bits ⌈/⌉ 8
    .ok bytes

/-- A new array of a width in range. Its memory holds arbitrary bytes. -/
def allocate (memory : ℕ → UInt8) (bytesPerElement capacity : ℕ)
    (h : 0 < bytesPerElement ∧ bytesPerElement ≤ 8) : CByteArray where
  bytesPerElement := bytesPerElement
  capacity := capacity
  array := (List.range (bytesPerElement * capacity)).map memory
  pos_bytes := h.1
  bytes_le := h.2
  length_array := by simp

/-- `CByteArray::CByteArray(bytes_per_element, capacity)`. -/
def new (memory : ℕ → UInt8) (bytesPerElement capacity : ℕ) : Except Failure CByteArray :=
  if h : bytesPerElement ≤ 0 ∨ bytesPerElement > 8 then
    .error (.invalidArgument
      ("Invalid value for the parameter bytes_per_elements: " ++ toString bytesPerElement))
  else .ok (allocate memory bytesPerElement capacity (by omega))

/-- `CByteArray::get_value_at`: the bytes of the element, copied into a cleared word. -/
def getValueAt (a : CByteArray) (index : ℕ) : ℕ :=
  let base := index * a.bytesPerElement
  leValue (blockCopy 0 (List.replicate 8 0) 0 a.array base a.bytesPerElement)

/-- `CByteArray::set_value_at`: the low bytes of the word, copied into the element. -/
def setValueAt (a : CByteArray) (index value : ℕ) : CByteArray :=
  let base := index * a.bytesPerElement
  { a with
    array := blockCopy 0 a.array base (leBytes 8 value) 0 a.bytesPerElement
    length_array := by rw [length_blockCopy, a.length_array] }

@[simp] theorem bytesPerElement_setValueAt (a : CByteArray) (i v : ℕ) :
    (a.setValueAt i v).bytesPerElement = a.bytesPerElement := rfl

@[simp] theorem capacity_setValueAt (a : CByteArray) (i v : ℕ) :
    (a.setValueAt i v).capacity = a.capacity := rfl

theorem new_eq_allocate (memory : ℕ → UInt8) {bytes : ℕ} (capacity : ℕ)
    (h : 0 < bytes ∧ bytes ≤ 8) :
    new memory bytes capacity = .ok (allocate memory bytes capacity h) :=
  dif_neg (by omega)

/-! ## Elements -/

/-- The bytes of an element. -/
def element (a : CByteArray) (index : ℕ) : List UInt8 :=
  (List.range a.bytesPerElement).map fun k => a.array.getD (index * a.bytesPerElement + k) 0

theorem getValueAt_eq (a : CByteArray) (index : ℕ) :
    a.getValueAt index = leValue (a.element index) := by
  simp only [getValueAt]
  rw [blockCopy_replicate _ _ _ a.bytes_le, leValue_append, leValue_replicate_zero, Nat.mul_zero,
    Nat.add_zero, element]

theorem element_setValueAt_self (a : CByteArray) {index : ℕ} (h : index < a.capacity) (value : ℕ) :
    (a.setValueAt index value).element index = leBytes a.bytesPerElement value := by
  have hroom : (index + 1) * a.bytesPerElement ≤ a.array.length := by
    rw [a.length_array, Nat.mul_comm]
    exact Nat.mul_le_mul_left _ h
  refine List.map_congr_left fun k hk => ?_
  have hk' : k < a.bytesPerElement := List.mem_range.mp hk
  have hk8 : k < 8 := hk'.trans_le a.bytes_le
  rw [Nat.add_mul, Nat.one_mul] at hroom
  simp only [setValueAt]
  rw [getD_blockCopy, if_pos ⟨⟨by omega, by omega⟩, by omega⟩, Nat.add_sub_cancel_left,
    Nat.zero_add, leBytes, List.getD_eq_getElem _ _ (by simpa using hk8), List.getElem_map,
    List.getElem_range]

/-- Elements do not overlap. -/
theorem mul_add_ne {w i j k k' : ℕ} (hij : i ≠ j) (hk : k < w) (hk' : k' < w) :
    i * w + k ≠ j * w + k' := by
  intro heq
  apply hij
  have hdiv : ∀ i k, k < w → (i * w + k) / w = i := by
    intro i k hk
    rw [Nat.add_comm, Nat.add_mul_div_right _ _ (by omega), Nat.div_eq_of_lt hk, Nat.zero_add]
  rw [← hdiv i k hk, heq, hdiv j k' hk']

theorem element_setValueAt_of_ne (a : CByteArray) {index j : ℕ} (h : index ≠ j) (value : ℕ) :
    (a.setValueAt index value).element j = a.element j := by
  refine List.map_congr_left fun k hk => ?_
  have hk' : k < a.bytesPerElement := List.mem_range.mp hk
  simp only [setValueAt]
  rw [getD_blockCopy, if_neg]
  -- a byte of the element `j` in the block would be a byte of the element `index`
  rintro ⟨⟨hlow, hhigh⟩, -⟩
  refine mul_add_ne h (k := j * a.bytesPerElement + k - index * a.bytesPerElement) (by omega) hk' ?_
  omega

/-- **The accesses to an element**: it keeps a value modulo its width, the others are untouched. -/
theorem getValueAt_setValueAt (a : CByteArray) {index : ℕ} (h : index < a.capacity) (value j : ℕ) :
    (a.setValueAt index value).getValueAt j =
      if j = index then value % 256 ^ a.bytesPerElement else a.getValueAt j := by
  rw [getValueAt_eq, getValueAt_eq]
  split_ifs with hj
  · rw [hj, element_setValueAt_self a h, leValue_leBytes]
  · rw [element_setValueAt_of_ne a (Ne.symm hj)]

theorem getValueAt_lt (a : CByteArray) (index : ℕ) :
    a.getValueAt index < 256 ^ a.bytesPerElement := by
  rw [getValueAt_eq]
  simpa [element] using leValue_lt (a.element index)

/-! ## The computed width -/

/-- The constructor accepts the width computed for `m`, and an element of this width holds `m`. -/
def Suffices (m : ℕ) : Prop :=
  ∃ bytes, computeBytesPerElements m = .ok bytes ∧ 1 ≤ bytes ∧ bytes ≤ 8 ∧ m < 256 ^ bytes

theorem pow_256 (k : ℕ) : 256 ^ k = 2 ^ (8 * k) := by
  rw [pow_mul]
  norm_num

/-- The computed width is the least one that holds all the values below `m`. -/
theorem ceilDiv_clog_le_iff (m k : ℕ) : Nat.clog 2 m ⌈/⌉ 8 ≤ k ↔ m ≤ 256 ^ k := by
  rw [ceilDiv_le_iff_le_mul (by norm_num), Nat.clog_le_iff_le_pow (by norm_num), pow_256]

/-- **The computed width suffices** exactly for the identifiers that are neither zero nor a power of
`256`. -/
theorem suffices_iff {m : ℕ} (hm : m < 2 ^ 64) : Suffices m ↔ m ≠ 0 ∧ ∀ k, m ≠ 256 ^ k := by
  set bytes := Nat.clog 2 m ⌈/⌉ 8 with hbytes
  have hle : ∀ k, bytes ≤ k ↔ m ≤ 256 ^ k := ceilDiv_clog_le_iff m
  constructor
  · rintro ⟨b, hb, -, -, hlt⟩
    have hm0 : m ≠ 0 := by
      rintro rfl
      simp [computeBytesPerElements] at hb
    have hb' : bytes = b := by simpa [computeBytesPerElements, hm0] using hb
    refine ⟨hm0, ?_⟩
    -- a power of `256` gets a width that holds only the values below it
    rintro k rfl
    have hbk : b ≤ k := hb' ▸ (hle k).mpr (le_refl _)
    exact absurd hlt (not_lt.mpr (Nat.pow_le_pow_right (by norm_num) hbk))
  · rintro ⟨hm0, hpow⟩
    refine ⟨bytes, by simp [computeBytesPerElements, hm0, hbytes], ?_, ?_, ?_⟩
    · by_contra h0
      have h1 : m ≤ 256 ^ 0 := (hle 0).mp (by omega)
      exact hpow 0 (le_antisymm h1 (by simpa using Nat.one_le_iff_ne_zero.mpr hm0))
    · exact (hle 8).mpr (by norm_num at hm ⊢; omega)
    · exact lt_of_le_of_ne ((hle bytes).mp (le_refl _)) (hpow bytes)

end CByteArray

end GfeDriver
