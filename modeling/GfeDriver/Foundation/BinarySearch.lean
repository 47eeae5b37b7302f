import Mathlib.Data.List.Sort
import Mathlib.Tactic

/-!
# Sorting with a comparator, and searching by halving

A comparator answers with the sign of the order of its arguments. A sort is promised to work on the
lists whose members it compares as some total order does. A search by halving keeps a window of a
sorted list: what lies before the window is too small, and what lies behind it is too large.

## Main definitions

* `AgreesWith cmp lt l`: the comparator orders the members of `l` by `lt`
* `SortsByComparator sort`: what is promised of a sort
* `mergeSortBy`: merge sort with a comparator
* `Window l x first last`: the window of a search for `x`

## Main results

* `sortsByComparator_mergeSortBy`: merge sort keeps the promise
* `SortsByComparator.perm`, `SortsByComparator.sorted`: the output, under a linear order
* `Window.raise`, `Window.lower`: one comparison
* `Window.not_mem`: an empty window
-/

namespace Foundation

universe u

variable {α : Type u}

/-! ## Comparators -/

/-- **The comparator orders** the members of `l` by `lt`. -/
def AgreesWith (cmp : α → α → ℤ) (lt : α → α → Prop) (l : List α) : Prop :=
  ∀ a ∈ l, ∀ b ∈ l, (cmp a b < 0 ↔ lt a b) ∧ (cmp a b = 0 ↔ a = b)

/-- **What is promised of a sort**: on a list that the comparator orders by a total order, it gives
the list in this order. -/
def SortsByComparator (sort : (α → α → ℤ) → List α → List α) : Prop :=
  ∀ cmp lt l, IsStrictTotalOrder α lt → AgreesWith cmp lt l →
    (sort cmp l).Perm l ∧ (sort cmp l).Pairwise fun a b => ¬lt b a

/-- Merge sort with a comparator. -/
def mergeSortBy (cmp : α → α → ℤ) (l : List α) : List α := l.mergeSort fun a b => cmp a b ≤ 0

/-- **Merge sort keeps the promise.** -/
theorem sortsByComparator_mergeSortBy : SortsByComparator (mergeSortBy (α := α)) := by
  classical
  intro cmp lt l hlt h
  -- on the members of the list, the comparator may be replaced by the order
  have hsame : mergeSortBy cmp l = l.mergeSort fun a b => decide ¬lt b a := by
    have hmap := List.map_mergeSort (f := id) (r := fun a b => decide (cmp a b ≤ 0))
      (s := fun a b => decide ¬lt b a) (l := l) fun a ha b hb => by
        refine decide_eq_decide.mpr ?_
        obtain ⟨hneg, hzero⟩ := h a ha b hb
        rw [le_iff_lt_or_eq, hneg, hzero]
        constructor
        · rintro (hab | rfl)
          · exact fun hba => hlt.irrefl a (hlt.trans _ _ _ hab hba)
          · exact hlt.irrefl a
        · exact fun hba => by
            by_contra hne
            obtain ⟨hab, hne⟩ := not_or.mp hne
            exact hne (hlt.trichotomous a b hab hba)
    rw [List.map_id, List.map_id] at hmap
    exact hmap
  rw [hsame]
  refine ⟨List.mergeSort_perm _ _, ?_⟩
  refine (List.pairwise_mergeSort (fun a b c hab hbc => ?_) (fun a b => ?_) l).imp ?_
  · simp only [decide_eq_true_eq] at hab hbc ⊢
    intro hca
    rcases eq_or_ne b c with rfl | hne
    · exact hab hca
    · by_cases hbc' : lt b c
      · exact hab (hlt.trans _ _ _ hbc' hca)
      · exact hne (hlt.trichotomous b c hbc' hbc)
  · by_cases hba : lt b a
    · have hab : ¬lt a b := fun hab => hlt.irrefl a (hlt.trans _ _ _ hab hba)
      simp [hab]
    · simp [hba]
  · exact fun hab => of_decide_eq_true hab

section Linear

variable [LinearOrder α] {sort : (α → α → ℤ) → List α → List α} {cmp : α → α → ℤ} {l : List α}

theorem SortsByComparator.perm (h : SortsByComparator sort) (hcmp : AgreesWith cmp (· < ·) l) :
    (sort cmp l).Perm l := (h cmp (· < ·) l inferInstance hcmp).1

theorem SortsByComparator.sorted (h : SortsByComparator sort) (hcmp : AgreesWith cmp (· < ·) l) :
    (sort cmp l).Pairwise (· ≤ ·) :=
  (h cmp (· < ·) l inferInstance hcmp).2.imp fun hab => not_lt.mp hab

end Linear

/-! ## Windows -/

/-- **The window** of a search for `x` between the indices `first` and `last`, where `last` is one
less than `first` when the window is empty. -/
structure Window [LinearOrder α] (l : List α) (x : α) (first last : ℤ) : Prop where
  nonneg : 0 ≤ first
  lt_length : last < l.length
  le : first ≤ last + 1
  below : ∀ (i : ℕ) v, l[i]? = some v → i < first → v < x
  above : ∀ (i : ℕ) v, l[i]? = some v → last < i → x < v

namespace Window

variable [LinearOrder α] {l : List α} {x v : α} {first last m : ℤ}

/-- The whole list. -/
theorem whole (l : List α) (x : α) : Window l x 0 (l.length - 1) where
  nonneg := le_refl 0
  lt_length := by omega
  le := by omega
  below i v _ hi := by omega
  above i v hv hi := by
    have hlt := (List.getElem?_eq_some_iff.mp hv).1
    omega

/-- An index in the window is one of the list. -/
theorem exists_getElem? (h : Window l x first last) (hfirst : first ≤ m) (hlast : m ≤ last) :
    ∃ v, l[m.toNat]? = some v := by
  have hlt : m.toNat < l.length := by
    have := h.nonneg
    have := h.lt_length
    omega
  exact ⟨_, List.getElem?_eq_getElem hlt⟩

/-- A sorted list at two indices. -/
theorem le_of_getElem? (hl : l.Pairwise (· ≤ ·)) {i j : ℕ} {a b : α} (hij : i ≤ j)
    (ha : l[i]? = some a) (hb : l[j]? = some b) : a ≤ b := by
  obtain ⟨hi, rfl⟩ := List.getElem?_eq_some_iff.mp ha
  obtain ⟨hj, rfl⟩ := List.getElem?_eq_some_iff.mp hb
  rcases hij.lt_or_eq with hij | rfl
  · exact List.pairwise_iff_getElem.mp hl i j hi hj hij
  · exact le_refl _

/-- **What is too small** moves the start of the window. -/
theorem raise (h : Window l x first last) (hl : l.Pairwise (· ≤ ·)) (hfirst : first ≤ m)
    (hlast : m ≤ last) (hget : l[m.toNat]? = some v) (hlt : v < x) :
    Window l x (m + 1) last where
  nonneg := by
    have := h.nonneg
    omega
  lt_length := h.lt_length
  le := by omega
  below i w hw hi := lt_of_le_of_lt (le_of_getElem? hl (by omega) hw hget) hlt
  above := h.above

/-- **What is too large** moves the end of the window. -/
theorem lower (h : Window l x first last) (hl : l.Pairwise (· ≤ ·)) (hfirst : first ≤ m)
    (hlast : m ≤ last) (hget : l[m.toNat]? = some v) (hlt : x < v) :
    Window l x first (m - 1) where
  nonneg := h.nonneg
  lt_length := by
    have := h.lt_length
    omega
  le := by omega
  below := h.below
  above i w hw hi := by
    have := h.nonneg
    exact lt_of_lt_of_le hlt (le_of_getElem? hl (by omega) hget hw)

/-- **An empty window**: the list does not have `x`. -/
theorem not_mem (h : Window l x first last) (hempty : last < first) : x ∉ l := by
  intro hx
  obtain ⟨i, hi⟩ := List.mem_iff_getElem?.mp hx
  by_cases hfirst : (i : ℤ) < first
  · exact lt_irrefl x (h.below i x hi hfirst)
  · exact lt_irrefl x (h.above i x hi (by omega))

end Window

end Foundation
