import Mathlib.Analysis.Real.Sqrt
import Mathlib.Tactic

/-!
# The mean and the variance of some numbers

The variance of some numbers is the mean of the squares of their distances from the mean. It is also
the mean of the squares without the square of the mean, and it is bounded by the square of the
range. The standard deviation is its square root.

## Main definitions

* `mean xs`, `variance xs`: over the numbers of a list
* `Nearest x n`: the number `n` is nearest to `x`

## Main results

* `variance_eq`: the variance by the mean of the squares
* `variance_le`: the variance and the range
* `nearest_sqrt_iff`: the integer that is nearest to a square root
-/

namespace Foundation

/-! ## Moments -/

section Moments

variable {K : Type*} [Field K] [LinearOrder K] [IsStrictOrderedRing K] {xs : List K} {a b : K}

/-- The mean of some numbers. -/
def mean (xs : List K) : K := xs.sum / xs.length

/-- The sum of the squares of the distances from a number. -/
def deviations (c : K) (xs : List K) : K := (xs.map fun x => (x - c) ^ 2).sum

/-- **The variance** of some numbers, of which these are all. -/
def variance (xs : List K) : K := deviations (mean xs) xs / xs.length

theorem length_pos_cast (h : xs ≠ []) : (0 : K) < xs.length :=
  Nat.cast_pos.mpr (List.length_pos_iff.mpr h)

theorem deviations_eq (c : K) (xs : List K) :
    deviations c xs = (xs.map (· ^ 2)).sum - 2 * c * xs.sum + xs.length * c ^ 2 := by
  induction xs with
  | nil => simp [deviations]
  | cons x xs ih =>
    rw [deviations] at ih ⊢
    rw [List.map_cons, List.sum_cons, ih, List.map_cons, List.sum_cons, List.sum_cons,
      List.length_cons]
    push_cast
    ring

/-- **The variance by the mean of the squares**. -/
theorem variance_eq (h : xs ≠ []) :
    variance xs = (xs.map (· ^ 2)).sum / xs.length - mean xs ^ 2 := by
  have hpos := length_pos_cast h
  rw [variance, deviations_eq, mean]
  field_simp
  ring

theorem deviations_nonneg (c : K) (xs : List K) : 0 ≤ deviations c xs := by
  apply List.sum_nonneg
  intro y hy
  obtain ⟨x, -, rfl⟩ := List.mem_map.mp hy
  exact sq_nonneg (x - c)

theorem variance_nonneg (xs : List K) : 0 ≤ variance xs :=
  div_nonneg (deviations_nonneg _ xs) (Nat.cast_nonneg _)

/-- The mean is in the range of the numbers. -/
theorem mean_mem (h : xs ≠ []) (hxs : ∀ x ∈ xs, a ≤ x ∧ x ≤ b) : a ≤ mean xs ∧ mean xs ≤ b := by
  have hpos := length_pos_cast h
  rw [mean, le_div_iff₀ hpos, div_le_iff₀ hpos]
  constructor
  · have hle := List.card_nsmul_le_sum xs a fun x hx => (hxs x hx).1
    rwa [nsmul_eq_mul, mul_comm] at hle
  · have hle := List.sum_le_card_nsmul xs b fun x hx => (hxs x hx).2
    rwa [nsmul_eq_mul, mul_comm] at hle

/-- **The variance and the range**. -/
theorem variance_le (h : xs ≠ []) (hxs : ∀ x ∈ xs, a ≤ x ∧ x ≤ b) :
    variance xs ≤ (b - a) ^ 2 := by
  obtain ⟨hle, hge⟩ := mean_mem h hxs
  have hsum : deviations (mean xs) xs ≤
      (xs.map fun x => (x - mean xs) ^ 2).length • (b - a) ^ 2 := by
    apply List.sum_le_card_nsmul
    intro y hy
    obtain ⟨x, hx, rfl⟩ := List.mem_map.mp hy
    obtain ⟨hax, hxb⟩ := hxs x hx
    exact sq_le_sq' (by linarith) (by linarith)
  rw [List.length_map, nsmul_eq_mul, mul_comm] at hsum
  rw [variance, div_le_iff₀ (length_pos_cast h)]
  exact hsum

end Moments

/-! ## Rounding -/

/-- **A nearest integer**. -/
def Nearest (x : ℝ) (n : ℕ) : Prop := |x - n| ≤ 1 / 2

theorem nearest_sqrt_iff {v : ℝ} {n : ℕ} :
    Nearest (√v) n ↔ (n = 0 ∨ ((n : ℝ) - 1 / 2) ^ 2 ≤ v) ∧ v ≤ ((n : ℝ) + 1 / 2) ^ 2 := by
  have hn : (0 : ℝ) ≤ n := Nat.cast_nonneg n
  rw [Nearest, abs_le, ← Real.sqrt_le_left (by positivity : (0 : ℝ) ≤ n + 1 / 2)]
  refine and_congr ?_ ⟨fun h => by linarith, fun h => by linarith⟩
  rcases Nat.eq_zero_or_pos n with rfl | hpos
  · refine iff_of_true ?_ (Or.inl rfl)
    have := Real.sqrt_nonneg v
    push_cast
    linarith
  · have hone : (1 : ℝ) ≤ n := by exact_mod_cast hpos
    rw [or_iff_right hpos.ne', ← Real.le_sqrt' (by linarith)]
    exact ⟨fun h => by linarith, fun h => by linarith⟩

/-- The integer that is nearest to the square root of a rational number. -/
theorem nearest_sqrt_ratCast_iff {v : ℚ} {n : ℕ} :
    Nearest (√(v : ℝ)) n ↔
      (n = 0 ∨ ((n : ℚ) - 1 / 2) ^ 2 ≤ v) ∧ v ≤ ((n : ℚ) + 1 / 2) ^ 2 := by
  rw [nearest_sqrt_iff, ← Rat.cast_le (K := ℝ), ← Rat.cast_le (K := ℝ)]
  push_cast
  rfl

/-- A bound by an integer holds of the nearest one. -/
theorem Nearest.le {x : ℝ} {n m : ℕ} (h : Nearest x n) (hm : x ≤ m) : n ≤ m := by
  have hle := (abs_le.mp h).1
  have hlt : (n : ℝ) < m + 1 := by linarith
  exact Nat.lt_succ_iff.mp (by exact_mod_cast hlt)

end Foundation
