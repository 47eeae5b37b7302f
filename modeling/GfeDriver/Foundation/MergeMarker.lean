import Mathlib.Data.List.Pairwise
import Mathlib.Tactic

/-!
# The marker of a merge

A merge finds which elements of an increasing sequence occur in an increasing list. Its position in
the list, the marker, only moves forward: the entries before it are smaller than every element that
is still to come, and the entry under it decides the next one.

## Main definitions

* `Marker l marker toCome`: the position of a merge of the elements `toCome` into `l`

## Main results

* `lt_of_lt_head`: what is below the head is below the list
* `succ_lt_length_of_lt`: an entry below another is not the last
* `Marker.start`, `Marker.next`, `Marker.tail`: the moves of the merge
* `Marker.not_mem`: an element below the entry under the marker does not occur
-/

namespace Foundation

universe u

variable {α : Type u} [LinearOrder α] {l toCome : List α} {marker : ℕ} {x y : α}

/-- **The position of a merge** of the elements `toCome` into `l`: the entries before the marker are
smaller than all of them. -/
structure Marker (l : List α) (marker : ℕ) (toCome : List α) : Prop where
  lt_length : marker < l.length
  behind : ∀ x ∈ l.take marker, ∀ y ∈ toCome, x < y

/-- What is below the head of an increasing list is below all of it. -/
theorem lt_of_lt_head (hl : l.Pairwise (· < ·)) (h : ∀ x ∈ l.head?, y < x) : ∀ x ∈ l, y < x := by
  intro x hx
  cases l with
  | nil => exact absurd hx List.not_mem_nil
  | cons z l =>
    have hz : y < z := by simpa using h
    rcases List.mem_cons.mp hx with rfl | hx
    · exact hz
    · exact lt_trans hz ((List.pairwise_cons.mp hl).1 x hx)

/-- An entry of an increasing list that is below another is not the last. -/
theorem succ_lt_length_of_lt (hl : l.Pairwise (· < ·)) (hx : l[marker]? = some x) (hy : y ∈ l)
    (hxy : x < y) : marker + 1 < l.length := by
  obtain ⟨hm, rfl⟩ := List.getElem?_eq_some_iff.mp hx
  obtain ⟨i, hi, rfl⟩ := List.mem_iff_getElem.mp hy
  have hlt : marker < i := by
    by_contra hle
    rcases Nat.lt_or_eq_of_le (Nat.le_of_not_lt hle) with hlt | rfl
    · exact absurd hxy (List.pairwise_iff_getElem.mp hl i marker hi hm hlt).le.not_gt
    · exact absurd hxy (lt_irrefl _)
  omega

/-- The merge starts at the first entry. -/
theorem Marker.start (hne : l ≠ []) : Marker l 0 toCome where
  lt_length := List.length_pos_of_ne_nil hne
  behind x hx := by simp at hx

/-- An element is done. -/
theorem Marker.tail (h : Marker l marker (y :: toCome)) : Marker l marker toCome where
  lt_length := h.lt_length
  behind x hx z hz := h.behind x hx z (List.mem_cons_of_mem y hz)

/-- **The marker moves on** over an entry below all that is to come. -/
theorem Marker.next (h : Marker l marker toCome) (hx : l[marker]? = some x)
    (hskip : ∀ y ∈ toCome, x < y) (hlast : marker + 1 < l.length) :
    Marker l (marker + 1) toCome where
  lt_length := hlast
  behind z hz y hy := by
    obtain ⟨hm, rfl⟩ := List.getElem?_eq_some_iff.mp hx
    rw [List.take_add_one, List.getElem?_eq_getElem hm, Option.toList_some, List.mem_append,
      List.mem_singleton] at hz
    rcases hz with hz | rfl
    · exact h.behind z hz y hy
    · exact hskip y hy

/-- **An element that the merge passes**: below the entry under the marker, it does not occur. -/
theorem Marker.not_mem (h : Marker l marker (y :: toCome)) (hl : l.Pairwise (· < ·))
    (hx : l[marker]? = some x) (hyx : y < x) : y ∉ l := by
  intro hy
  obtain ⟨hm, rfl⟩ := List.getElem?_eq_some_iff.mp hx
  obtain ⟨i, hi, rfl⟩ := List.mem_iff_getElem.mp hy
  rcases lt_trichotomy i marker with hlt | rfl | hlt
  -- it would be before the marker, where everything is smaller than it
  · have hmem : l[i] ∈ l.take marker :=
      List.mem_take_iff_getElem.mpr ⟨i, lt_min hlt hi, rfl⟩
    exact absurd (h.behind _ hmem _ List.mem_cons_self) (lt_irrefl _)
  · exact absurd hyx (lt_irrefl _)
  · exact absurd hyx (List.pairwise_iff_getElem.mp hl marker i hm hi hlt).le.not_gt

end Foundation
