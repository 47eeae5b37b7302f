import Mathlib.Data.List.GetD
import Mathlib.Tactic

/-!
# Grouped lists and their offsets

A list sorted by a key is the concatenation of its groups, one for each key. An array of the ends of
the groups, computed by counting and a running sum, then gives each group back as a slice of the
list. This is the layout of a sparse matrix by rows.

## Main definitions

* `prefixSums l`: the running sums, in place
* `groupStart group u`: the position of the group `u`

## Main results

* `getD_prefixSums`: the entries of the running sums
* `slice_flatMap`: a group is a slice of the concatenation
* `flatMap_filter_of_sorted`: a sorted list is the concatenation of its groups
-/

namespace Foundation

universe u

/-! ## Running sums -/

/-- The loop `a[i] += a[i - 1]` for `1 ≤ i < a.length`. -/
def prefixSums (a : List ℕ) : List ℕ :=
  (List.range' 1 (a.length - 1)).foldl (fun a i => a.set i (a.getD i 0 + a.getD (i - 1) 0)) a

/-- The entries once the loop has done the positions up to `k`. -/
theorem foldl_prefixSums (a : List ℕ) (k : ℕ) (hk : k < a.length) (i : ℕ) (hi : i < a.length) :
    ((List.range' 1 k).foldl (fun a i => a.set i (a.getD i 0 + a.getD (i - 1) 0)) a).length =
        a.length ∧
      ((List.range' 1 k).foldl (fun a i => a.set i (a.getD i 0 + a.getD (i - 1) 0)) a).getD i 0 =
        if i ≤ k then (a.take (i + 1)).sum else a.getD i 0 := by
  induction k generalizing i with
  | zero =>
    refine ⟨rfl, ?_⟩
    split_ifs with h0
    · obtain rfl := Nat.le_zero.mp h0
      cases a with
      | nil => simp at hi
      | cons x a => simp
    · rfl
  | succ k ih =>
    have hlen := (ih (by omega) i hi).1
    -- the previous entry is already a sum, the next one is still an item
    have hprev := (ih (by omega) k (by omega)).2
    have hsame := (ih (by omega) (k + 1) hk).2
    rw [if_pos (le_refl k)] at hprev
    rw [if_neg (by omega)] at hsame
    simp only [List.range'_1_concat, List.foldl_append, List.foldl_cons, List.foldl_nil]
    rw [Nat.add_comm 1 k, Nat.add_sub_cancel, hprev, hsame]
    refine ⟨by rw [List.length_set, hlen], ?_⟩
    have hsum : (a.take (k + 1 + 1)).sum = a.getD (k + 1) 0 + (a.take (k + 1)).sum := by
      rw [List.take_add_one, List.sum_append, List.getElem?_eq_getElem hk,
        List.getD_eq_getElem _ _ hk, Nat.add_comm]
      simp
    rw [List.getD_eq_getElem?_getD, List.getElem?_set, hlen]
    by_cases hik : k + 1 = i
    · subst hik
      simp only [if_true, hk, Option.getD_some, le_refl]
      exact hsum.symm
    · rw [if_neg hik, ← List.getD_eq_getElem?_getD, (ih (by omega) i hi).2]
      exact if_congr (by omega) rfl rfl

theorem length_prefixSums (a : List ℕ) : (prefixSums a).length = a.length := by
  cases a with
  | nil => rfl
  | cons x a => exact (foldl_prefixSums (x :: a) _ (by simp) 0 (by simp)).1

/-- **The running sums.** -/
theorem getD_prefixSums {a : List ℕ} {i : ℕ} (hi : i < a.length) :
    (prefixSums a).getD i 0 = (a.take (i + 1)).sum := by
  have h := (foldl_prefixSums a (a.length - 1) (by omega) i hi).2
  rwa [if_pos (by omega)] at h

/-! ## Groups -/

section Groups

variable {α : Type u} (group : ℕ → List α)

/-- The position of the group `u` in the concatenation of the groups. -/
def groupStart (u : ℕ) : ℕ := ((List.range u).map fun i => (group i).length).sum

theorem groupStart_succ (u : ℕ) :
    groupStart group (u + 1) = groupStart group u + (group u).length := by
  simp [groupStart, List.range_succ]

theorem groupStart_mono {u v : ℕ} (h : u ≤ v) : groupStart group u ≤ groupStart group v := by
  induction h with
  | refl => exact le_refl _
  | step _ ih => exact ih.trans (groupStart_succ group _ ▸ Nat.le_add_right _ _)

theorem length_flatMap_range (n : ℕ) :
    ((List.range n).flatMap group).length = groupStart group n := by
  simp [groupStart, List.length_flatMap]

/-- The ends of the groups are the running sums of their lengths. -/
theorem getD_prefixSums_lengths {n u : ℕ} (hu : u < n) :
    (prefixSums ((List.range n).map fun i => (group i).length)).getD u 0 =
      groupStart group (u + 1) := by
  rw [getD_prefixSums (by simpa using hu), ← List.map_take, List.take_range, groupStart,
    Nat.min_eq_left hu]

/-- **A group is a slice** of the concatenation. -/
theorem slice_flatMap {n u : ℕ} (hu : u < n) (z : α) :
    ((List.range' (groupStart group u) (group u).length).map fun i =>
      ((List.range n).flatMap group).getD i z) = group u := by
  -- the groups before `u`, the group of `u`, and the groups after it
  have hsplit : (List.range n).flatMap group = (List.range u).flatMap group ++
      (group u ++ (List.range' (u + 1) (n - (u + 1))).flatMap group) := by
    have hrange : List.range n = List.range u ++ u :: List.range' (u + 1) (n - (u + 1)) := by
      rw [← List.range'_succ, List.range_eq_range', List.range_eq_range',
        show n - (u + 1) + 1 = n - u by omega]
      nth_rewrite 2 [← Nat.zero_add u]
      rw [List.range'_append_1, Nat.add_sub_cancel' hu.le]
    rw [hrange, List.flatMap_append, List.flatMap_cons]
  have hlen := length_flatMap_range group u
  apply List.ext_getElem
  · simp
  · intro i hi hi'
    simp only [List.getElem_map, List.getElem_range', hsplit]
    rw [List.getD_eq_getElem?_getD, List.getElem?_append_right (by omega), hlen, Nat.one_mul,
      Nat.add_sub_cancel_left, List.getElem?_append_left hi', List.getElem?_eq_getElem hi',
      Option.getD_some]

end Groups

/-! ## Sorted lists -/

section Sorted

variable {α : Type u} {key : α → ℕ}

theorem filter_append_filter_of_sorted {n : ℕ} {l : List α}
    (hl : l.Pairwise fun x y => key x ≤ key y) (hle : ∀ x ∈ l, key x ≤ n) :
    (l.filter fun x => key x < n) ++ (l.filter fun x => key x = n) = l := by
  induction l with
  | nil => rfl
  | cons x l ih =>
    obtain ⟨hx, hl'⟩ := List.pairwise_cons.mp hl
    have hrest := ih hl' fun y hy => hle y (List.mem_cons_of_mem x hy)
    rcases Nat.lt_or_eq_of_le (hle x List.mem_cons_self) with hlt | heq
    · simp [hlt, hlt.ne, hrest]
    · -- from here on all the keys are the largest one
      have hnone : (l.filter fun y => key y < n) = [] := by
        rw [List.filter_eq_nil_iff]
        intro y hy
        have := hx y hy
        simp only [decide_eq_true_eq]
        omega
      rw [hnone, List.nil_append] at hrest
      simp [heq, hnone, hrest]

/-- **A sorted list** is the concatenation of its groups. -/
theorem flatMap_filter_of_sorted (key : α → ℕ) {n : ℕ} {l : List α}
    (hl : l.Pairwise fun x y => key x ≤ key y)
    (hlt : ∀ x ∈ l, key x < n) :
    ((List.range n).flatMap fun u => l.filter fun x => key x = u) = l := by
  induction n generalizing l with
  | zero =>
    cases l with
    | nil => rfl
    | cons x l => exact absurd (hlt x List.mem_cons_self) (Nat.not_lt_zero _)
  | succ n ih =>
    -- the items with keys below `n`, and then those with the key `n`
    have hbelow := ih (hl.filter fun x => key x < n) fun x hx => by
      simpa using (List.mem_filter.mp hx).2
    have hsame : ∀ u ∈ List.range n, ((l.filter fun x => key x < n).filter fun x => key x = u) =
        l.filter fun x => key x = u := by
      intro u hu
      have hu' := List.mem_range.mp hu
      rw [List.filter_filter]
      refine List.filter_congr fun x _ => ?_
      by_cases hx : key x = u
      · simp [hx, hu']
      · simp [hx]
    rw [List.range_succ, List.flatMap_append, List.flatMap_singleton,
      ← List.flatMap_congr hsame, hbelow]
    exact filter_append_filter_of_sorted hl fun x hx => Nat.lt_succ_iff.mp (hlt x hx)

end Sorted

end Foundation
