import Mathlib.Data.Int.ModEq
import Mathlib.Data.List.Basic

/-!
# Ring buffers

A ring of `n` cells holds the items of an unbounded history that were published and not yet
consumed. The item at position `j` of the history is in the cell `j % n`, and the cell
`published.length % n` is free, since fewer than `n` items are unconsumed.

## Main definitions

* `RingBuffer n cells published consumed`: the cells hold the unconsumed items

## Main results

* `RingBuffer.slot_ne`: the free cell holds no unconsumed item
* `RingBuffer.write`, `RingBuffer.publish`, `RingBuffer.consume`: the three operations on a ring
-/

namespace Foundation

universe u

variable {α : Type u} {n : ℕ} {cells : ℕ → α} {published : List α} {consumed : ℕ}

/-- **The ring**: fewer than `n` items are unconsumed, and each is in its cell. -/
structure RingBuffer (n : ℕ) (cells : ℕ → α) (published : List α) (consumed : ℕ) : Prop where
  le : consumed ≤ published.length
  lt : published.length < consumed + n
  stored : ∀ j b, consumed ≤ j → published[j]? = some b → cells (j % n) = b

/-- Positions less than a revolution apart have different cells. -/
theorem mod_ne_mod {j l n : ℕ} (hlt : j < l) (hl : l < j + n) : j % n ≠ l % n := by
  intro heq
  obtain ⟨k, hk⟩ := (Nat.modEq_iff_dvd' hlt.le).mp heq
  rcases Nat.eq_zero_or_pos k with rfl | hpos
  · omega
  · have hle : n * 1 ≤ n * k := Nat.mul_le_mul_left n hpos
    omega

namespace RingBuffer

theorem slot_ne (h : RingBuffer n cells published consumed) {j : ℕ} (hj : consumed ≤ j)
    (hlt : j < published.length) : j % n ≠ published.length % n := by
  have hl := h.lt
  exact mod_ne_mod hlt (by omega)

/-- The free cell may be written. -/
theorem write (h : RingBuffer n cells published consumed) {cells' : ℕ → α}
    (hcells : ∀ i, i ≠ published.length % n → cells' i = cells i) :
    RingBuffer n cells' published consumed where
  le := h.le
  lt := h.lt
  stored j b hj hb := by
    obtain ⟨hlt, -⟩ := List.getElem?_eq_some_iff.mp hb
    rw [hcells _ (h.slot_ne hj hlt)]
    exact h.stored j b hj hb

/-- The contents of the free cell may be published, unless the ring is full. -/
theorem publish (h : RingBuffer n cells published consumed)
    (hroom : published.length + 1 < consumed + n) :
    RingBuffer n cells (published ++ [cells (published.length % n)]) consumed where
  le := by
    rw [List.length_append]
    exact h.le.trans (Nat.le_add_right _ _)
  lt := by simpa using hroom
  stored j b hj hb := by
    -- an old item, or the one in the cell that is published
    rcases Nat.lt_or_ge j published.length with hlt | hge
    · rw [List.getElem?_append_left hlt] at hb
      exact h.stored j b hj hb
    · rw [List.getElem?_append_right hge] at hb
      obtain ⟨hzero, hb⟩ := List.getElem?_eq_some_iff.mp hb
      have hj : j = published.length := by
        simp only [List.length_singleton] at hzero
        omega
      subst hj
      simpa using hb

/-- The oldest item may be consumed. -/
theorem consume (h : RingBuffer n cells published consumed) (hlt : consumed < published.length) :
    RingBuffer n cells published (consumed + 1) where
  le := hlt
  lt := by
    have hl := h.lt
    omega
  stored j b hj hb := h.stored j b ((Nat.le_succ consumed).trans hj) hb

/-- The cell of the oldest item holds it. -/
theorem take_succ (h : RingBuffer n cells published consumed) (hlt : consumed < published.length) :
    published.take (consumed + 1) = published.take consumed ++ [cells (consumed % n)] := by
  have hget : published[consumed]? = some published[consumed] := List.getElem?_eq_getElem hlt
  rw [h.stored consumed _ le_rfl hget, List.take_append_getElem]

end RingBuffer

end Foundation
