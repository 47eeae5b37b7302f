import GfeDriver.Foundation.Moments
import Mathlib.Data.UInt
import Mathlib.Tactic

/-!
# Statistics of latencies and of execution times

The sum of the values and the sum of their squares are computed with 64 bits. The number that is
reported as the standard deviation is the mean of the squares without the square of the mean, where
both means are truncated: it is an approximation of the variance, whose root is not taken.

## Main definitions

* `computeSummary values`: the statistics of some values
* `LatencyStatistics.computeStatistics`, `ExecStatistics.new`: where they are used
* `Exact values s`: the mean and the standard deviation are exact

## Main results

* `computeSummary_mean`, `computeSummary_stddev`: what is computed
* `statistics_exact_iff`: when the statistics are exact
-/

namespace GfeDriver

open Foundation

/-! ## The program -/

/-- The statistics of some values. -/
structure Summary where
  mean : UInt64 := 0
  stddev : UInt64 := 0
  min : UInt64 := 0
  max : UInt64 := 0
  median : UInt64 := 0
  percentile90 : UInt64 := 0
  percentile95 : UInt64 := 0
  percentile97 : UInt64 := 0
  percentile99 : UInt64 := 0

/-- The variables of the loop over the values. -/
structure Sums where
  sum : UInt64 := 0
  sum2 : UInt64 := 0
  vmin : UInt64 := 18446744073709551615
  vmax : UInt64 := 0

/-- The body of the loop over the values. -/
def Sums.add (s : Sums) (value : UInt64) : Sums where
  sum := s.sum + value
  sum2 := s.sum2 + value * value
  vmin := min value s.vmin
  vmax := max value s.vmax

/-- `get_percentile`. -/
def getPercentile (A : List UInt64) (size index : UInt64) : UInt64 :=
  let pos := index * size / 100
  A.getD (if 0 < pos then pos - 1 else 0).toNat 0

/-- The median of the sorted values. -/
def getMedian (A : List UInt64) (size : UInt64) : UInt64 :=
  if size % 2 = 0 then (A.getD (size / 2).toNat 0 + A.getD (size / 2 - 1).toNat 0) / 2
  else A.getD (size / 2).toNat 0

/-- **The statistics of some values**, of which there is at least one. -/
def computeSummary (values : List UInt64) : Summary :=
  let size := UInt64.ofNat values.length
  let s := values.foldl Sums.add {}
  let sorted := values.mergeSort fun a b => a ≤ b
  { mean := s.sum / size
    stddev := s.sum2 / size - s.sum / size * (s.sum / size)
    min := s.vmin
    max := s.vmax
    median := getMedian sorted size
    percentile90 := getPercentile sorted size 90
    percentile95 := getPercentile sorted size 95
    percentile97 := getPercentile sorted size 97
    percentile99 := getPercentile sorted size 99 }

structure LatencyStatistics where
  numOperations : UInt64 := 0
  summary : Summary := {}

/-- `compute_statistics`. -/
def LatencyStatistics.computeStatistics (latencies : List UInt64) : LatencyStatistics :=
  if UInt64.ofNat latencies.length = 0 then {}
  else ⟨UInt64.ofNat latencies.length, computeSummary latencies⟩

structure ExecStatistics where
  numTrials : UInt64
  numTimeouts : UInt64 := 0
  summary : Summary := {}

/-- The values of some trials: those that are not timeouts. -/
def trialValues (trials : List Int64) : List UInt64 :=
  (trials.filter fun t => 0 ≤ t).map Int64.toUInt64

/-- The constructor. -/
def ExecStatistics.new (trials : List Int64) : ExecStatistics where
  numTrials := UInt64.ofNat trials.length
  numTimeouts := UInt64.ofNat (trials.filter fun t => t < 0).length
  summary :=
    if 0 < UInt64.ofNat (trialValues trials).length then computeSummary (trialValues trials) else {}

/-! ## The exact statistics -/

/-- The sum of some values. -/
def total (values : List UInt64) : ℕ := (values.map UInt64.toNat).sum

/-- The sum of the squares of some values. -/
def squares (values : List UInt64) : ℕ := (values.map fun v => v.toNat ^ 2).sum

/-- The variance of some values. -/
def valuesVariance (values : List UInt64) : ℚ := variance (values.map fun v => (v.toNat : ℚ))

/-- The standard deviation of some values. -/
noncomputable def deviation (values : List UInt64) : ℝ := √(valuesVariance values : ℝ)

/-- **The mean and the standard deviation are exact**, but for their rounding: the mean is
truncated, and the standard deviation is a nearest integer. -/
structure Exact (values : List UInt64) (s : Summary) : Prop where
  mean : s.mean.toNat = total values / values.length
  stddev : Nearest (deviation values) s.stddev.toNat
  stddev_le : s.stddev.toNat ≤ s.max.toNat - s.min.toNat

/-! ## What is computed -/

section Sums

variable {values : List UInt64}

@[simp] theorem total_cons (v : UInt64) (values : List UInt64) :
    total (v :: values) = v.toNat + total values := rfl

@[simp] theorem squares_cons (v : UInt64) (values : List UInt64) :
    squares (v :: values) = v.toNat ^ 2 + squares values := rfl

theorem foldl_add_sum (s : Sums) (values : List UInt64) :
    (values.foldl Sums.add s).sum = s.sum + UInt64.ofNat (total values) := by
  induction values generalizing s with
  | nil => simp [total]
  | cons v values ih =>
    rw [List.foldl_cons, ih, total_cons, UInt64.ofNat_add, UInt64.ofNat_toNat, ← add_assoc]
    rfl

theorem foldl_add_sum2 (s : Sums) (values : List UInt64) :
    (values.foldl Sums.add s).sum2 = s.sum2 + UInt64.ofNat (squares values) := by
  induction values generalizing s with
  | nil => simp [squares]
  | cons v values ih =>
    rw [List.foldl_cons, ih, squares_cons, UInt64.ofNat_add, pow_two, UInt64.ofNat_mul,
      UInt64.ofNat_toNat, ← add_assoc]
    rfl

theorem foldl_add_vmin_le (s : Sums) (values : List UInt64) :
    (values.foldl Sums.add s).vmin.toNat ≤ s.vmin.toNat ∧
      ∀ v ∈ values, (values.foldl Sums.add s).vmin.toNat ≤ v.toNat := by
  induction values generalizing s with
  | nil => exact ⟨le_rfl, fun v hv => absurd hv List.not_mem_nil⟩
  | cons v values ih =>
    obtain ⟨hle, hall⟩ := ih (s.add v)
    have hmin : (s.add v).vmin.toNat = min v.toNat s.vmin.toNat := UInt64.toNat_min v s.vmin
    rw [hmin] at hle
    exact ⟨hle.trans (min_le_right _ _),
      List.forall_mem_cons.mpr ⟨hle.trans (min_le_left _ _), hall⟩⟩

theorem le_foldl_add_vmax (s : Sums) (values : List UInt64) :
    s.vmax.toNat ≤ (values.foldl Sums.add s).vmax.toNat ∧
      ∀ v ∈ values, v.toNat ≤ (values.foldl Sums.add s).vmax.toNat := by
  induction values generalizing s with
  | nil => exact ⟨le_rfl, fun v hv => absurd hv List.not_mem_nil⟩
  | cons v values ih =>
    obtain ⟨hle, hall⟩ := ih (s.add v)
    have hmax : (s.add v).vmax.toNat = max v.toNat s.vmax.toNat := UInt64.toNat_max v s.vmax
    rw [hmax] at hle
    exact ⟨le_trans (le_max_right _ _) hle,
      List.forall_mem_cons.mpr ⟨le_trans (le_max_left _ _) hle, hall⟩⟩

/-- The values are between the minimum and the maximum that are computed. -/
theorem computeSummary_bounds {v : UInt64} (hv : v ∈ values) :
    (computeSummary values).min.toNat ≤ v.toNat ∧ v.toNat ≤ (computeSummary values).max.toNat :=
  ⟨(foldl_add_vmin_le {} values).2 v hv, (le_foldl_add_vmax {} values).2 v hv⟩

/-- **The mean that is computed**. -/
theorem computeSummary_mean (hlength : values.length < 2 ^ 64) :
    (computeSummary values).mean.toNat = total values % 2 ^ 64 / values.length := by
  have hsum : (values.foldl Sums.add {}).sum = UInt64.ofNat (total values) := by
    rw [foldl_add_sum]
    exact zero_add _
  show ((values.foldl Sums.add {}).sum / UInt64.ofNat values.length).toNat = _
  rw [hsum, UInt64.toNat_div, UInt64.toNat_ofNat', UInt64.toNat_ofNat_of_lt' hlength]

/-- **The standard deviation that is computed**. -/
theorem computeSummary_stddev (hlength : values.length < 2 ^ 64) :
    (computeSummary values).stddev.toNat =
      (2 ^ 64 - (computeSummary values).mean.toNat ^ 2 % 2 ^ 64 +
        squares values % 2 ^ 64 / values.length) % 2 ^ 64 := by
  have hsum : (values.foldl Sums.add {}).sum2 = UInt64.ofNat (squares values) := by
    rw [foldl_add_sum2]
    exact zero_add _
  show ((values.foldl Sums.add {}).sum2 / UInt64.ofNat values.length -
    (computeSummary values).mean * (computeSummary values).mean).toNat = _
  rw [hsum, UInt64.toNat_sub, UInt64.toNat_mul, UInt64.toNat_div, UInt64.toNat_ofNat',
    UInt64.toNat_ofNat_of_lt' hlength, pow_two]

end Sums

/-! ## When the statistics are exact -/

section Exact

variable {values : List UInt64}

theorem valuesVariance_eq (h : values ≠ []) :
    valuesVariance values =
      (squares values : ℚ) / values.length - ((total values : ℚ) / values.length) ^ 2 := by
  have hne : values.map (fun v => (v.toNat : ℚ)) ≠ [] := fun hnil => h (List.map_eq_nil_iff.mp hnil)
  have htotal : (values.map fun v => (v.toNat : ℚ)).sum = (total values : ℚ) := by
    rw [total, Nat.cast_list_sum, List.map_map]
    rfl
  have hsquares : ((values.map fun v => (v.toNat : ℚ)).map (· ^ 2)).sum = (squares values : ℚ) := by
    rw [squares, Nat.cast_list_sum, List.map_map, List.map_map]
    refine congrArg List.sum (List.map_congr_left fun v _ => ?_)
    exact (Nat.cast_pow v.toNat 2).symm
  rw [valuesVariance, variance_eq hne, mean, htotal, hsquares, List.length_map]

/-- The standard deviation is at most the range of the values. -/
theorem deviation_le (h : values ≠ []) :
    deviation values ≤
      (((computeSummary values).max.toNat - (computeSummary values).min.toNat : ℕ) : ℝ) := by
  obtain ⟨v₀, hv₀⟩ := List.exists_mem_of_ne_nil values h
  have hle : (computeSummary values).min.toNat ≤ (computeSummary values).max.toNat :=
    (computeSummary_bounds hv₀).1.trans (computeSummary_bounds hv₀).2
  have hne : values.map (fun v => (v.toNat : ℚ)) ≠ [] := fun hnil => h (List.map_eq_nil_iff.mp hnil)
  have hvariance : valuesVariance values ≤
      (((computeSummary values).max.toNat : ℚ) - (computeSummary values).min.toNat) ^ 2 := by
    refine variance_le hne fun x hx => ?_
    obtain ⟨v, hv, rfl⟩ := List.mem_map.mp hx
    obtain ⟨hmin, hmax⟩ := computeSummary_bounds hv
    exact ⟨by exact_mod_cast hmin, by exact_mod_cast hmax⟩
  rw [deviation, Real.sqrt_le_left (Nat.cast_nonneg _), Nat.cast_sub hle]
  exact_mod_cast hvariance

/-- How much the mean of the squares exceeds the square of the truncated mean. -/
def excess (values : List UInt64) : ℚ :=
  (squares values : ℚ) / values.length - ((total values / values.length : ℕ) : ℚ) ^ 2

/-- **The values deviate so little** that the excess is rounded to the standard deviation. -/
def Narrow (values : List UInt64) : Prop :=
  (excess values < 1 ∧ valuesVariance values ≤ 1 / 4) ∨
    (1 ≤ excess values ∧ excess values < 2 ∧ 1 / 4 ≤ valuesVariance values) ∨
      (2 ≤ excess values ∧ excess values < 3 ∧ 9 / 4 ≤ valuesVariance values)

/-- **The wrapped sum of the squares** happens to give the standard deviation. -/
def Coincides (values : List UInt64) : Prop :=
  ∃ k : ℕ, Nearest (deviation values) k ∧
    squares values % 2 ^ 64 / values.length ≡ (total values / values.length) ^ 2 + k [MOD 2 ^ 64]

/-- A wrapped sum does not give the mean. -/
theorem mean_eq_iff (h : values ≠ []) (hlength : values.length < 2 ^ 64) :
    total values % 2 ^ 64 / values.length = total values / values.length ↔
      total values < 2 ^ 64 := by
  have hpos : 0 < values.length := List.length_pos_iff.mpr h
  constructor
  · intro heq
    by_contra hge
    have hdiv := Nat.div_add_mod (total values) (2 ^ 64)
    have hone : 1 ≤ total values / 2 ^ 64 := (Nat.one_le_div_iff (by norm_num)).mpr (not_lt.mp hge)
    -- the two sums differ by more than the number of values
    have hle : total values % 2 ^ 64 + values.length ≤ total values := by
      have hmul := Nat.mul_le_mul_left (2 ^ 64) hone
      omega
    have hlt := Nat.div_le_div_right (c := values.length) hle
    rw [Nat.add_div_right _ hpos, heq] at hlt
    omega
  · intro hlt
    rw [Nat.mod_eq_of_lt hlt]

theorem valuesVariance_le_excess (h : values ≠ []) : valuesVariance values ≤ excess values := by
  have hmean : ((total values / values.length : ℕ) : ℚ) ≤ (total values : ℚ) / values.length :=
    Nat.cast_div_le
  have hsq := pow_le_pow_left₀ (Nat.cast_nonneg (total values / values.length)) hmean 2
  rw [valuesVariance_eq h, excess]
  linarith only [hsq]

theorem excess_lt_iff (h : values ≠ []) (k : ℕ) :
    excess values < k ↔
      squares values / values.length < (total values / values.length) ^ 2 + k := by
  have hpos : 0 < values.length := List.length_pos_iff.mpr h
  have hcast : (0 : ℚ) < values.length := Nat.cast_pos.mpr hpos
  rw [excess, sub_lt_iff_lt_add', div_lt_iff₀ hcast, Nat.div_lt_iff_lt_mul hpos]
  norm_cast

/-- The square of the truncated mean is at most the mean of the squares. -/
theorem sq_mean_le (h : values ≠ []) :
    (total values / values.length) ^ 2 ≤ squares values / values.length := by
  have hnonneg : 0 ≤ excess values :=
    le_trans (variance_nonneg _) (valuesVariance_le_excess h)
  have hiff := excess_lt_iff h 0
  rw [Nat.cast_zero, Nat.add_zero] at hiff
  exact not_lt.mp (mt hiff.mpr (not_lt.mpr hnonneg))

/-- **The excess is rounded to the standard deviation** when it is small. -/
theorem nearest_excess_iff (h : values ≠ []) :
    Nearest (deviation values)
      (squares values / values.length - (total values / values.length) ^ 2) ↔ Narrow values := by
  have hle := sq_mean_le h
  obtain ⟨b, hb⟩ : ∃ b, b = squares values / values.length - (total values / values.length) ^ 2 :=
    ⟨_, rfl⟩
  have hlt (k : ℕ) : excess values < k ↔ b < k := by
    rw [excess_lt_iff h]
    omega
  have hone : excess values < 1 ↔ b < 1 := by exact_mod_cast hlt 1
  have htwo : excess values < 2 ↔ b < 2 := by exact_mod_cast hlt 2
  have hthree : excess values < 3 ↔ b < 3 := by exact_mod_cast hlt 3
  have hupper : valuesVariance values < b + 1 :=
    (valuesVariance_le_excess h).trans_lt (by exact_mod_cast (hlt (b + 1)).mpr (Nat.lt_succ_self b))
  have hone' : 1 ≤ excess values ↔ 1 ≤ b := by rw [← not_lt, hone, not_lt]
  have htwo' : 2 ≤ excess values ↔ 2 ≤ b := by rw [← not_lt, htwo, not_lt]
  rw [← hb, deviation, nearest_sqrt_ratCast_iff, Narrow, hone, htwo, hthree, hone', htwo']
  obtain rfl | rfl | rfl | hlarge : b = 0 ∨ b = 1 ∨ b = 2 ∨ 3 ≤ b := by omega
  · norm_num
  · norm_num at hupper ⊢
    intro _
    linarith
  · norm_num at hupper ⊢
    intro _
    linarith
  · -- the square of a number of three or more is too far from it
    have hcast : (3 : ℚ) ≤ b := by exact_mod_cast hlarge
    refine iff_of_false ?_ (by omega)
    rintro ⟨hzero | hlower, -⟩
    · omega
    · nlinarith

/-- A difference in 64 bits. -/
theorem sub_mod_eq_iff {q m k : ℕ} (hk : k < 2 ^ 64) :
    (2 ^ 64 - m % 2 ^ 64 + q) % 2 ^ 64 = k ↔ q ≡ m + k [MOD 2 ^ 64] := by
  rw [Nat.ModEq]
  omega

/-- **The mean and the standard deviation** that are computed. -/
theorem computeSummary_exact_iff (h : values ≠ []) (hlength : values.length < 2 ^ 64) :
    Exact values (computeSummary values) ↔
      total values < 2 ^ 64 ∧
        ((squares values < 2 ^ 64 ∧ Narrow values) ∨
          (2 ^ 64 ≤ squares values ∧ Coincides values)) := by
  have hmean := computeSummary_mean hlength
  have hstddev := computeSummary_stddev hlength
  have hexact : Exact values (computeSummary values) ↔ total values < 2 ^ 64 ∧
      Nearest (deviation values) (computeSummary values).stddev.toNat := by
    rw [← mean_eq_iff h hlength, ← hmean]
    exact ⟨fun hexact => ⟨hexact.mean, hexact.stddev⟩,
      fun ⟨hmean, hnearest⟩ => ⟨hmean, hnearest, hnearest.le (deviation_le h)⟩⟩
  rw [hexact]
  refine and_congr_right fun htotal => ?_
  rw [Nat.mod_eq_of_lt htotal] at hmean
  rw [hmean] at hstddev
  by_cases hsquares : squares values < 2 ^ 64
  · rw [or_iff_left (fun hwrap => absurd hsquares (not_lt.mpr hwrap.1)),
      and_iff_right hsquares, ← nearest_excess_iff h]
    -- nothing wraps
    have hle := sq_mean_le h
    have hlt : squares values / values.length < 2 ^ 64 :=
      (Nat.div_le_self _ _).trans_lt hsquares
    have heq : (computeSummary values).stddev.toNat =
        squares values / values.length - (total values / values.length) ^ 2 := by
      rw [hstddev, Nat.mod_eq_of_lt hsquares, sub_mod_eq_iff (by omega), Nat.add_sub_cancel' hle]
    rw [heq]
  · rw [or_iff_right (fun hfits => hsquares hfits.1), and_iff_right (not_lt.mp hsquares), Coincides]
    constructor
    · intro hnearest
      exact ⟨_, hnearest, (sub_mod_eq_iff (UInt64.toNat_lt _)).mp hstddev.symm⟩
    · rintro ⟨k, hnearest, hmod⟩
      have hk : k < 2 ^ 64 := by
        have hle := hnearest.le (deviation_le h)
        have hmax := (computeSummary values).max.toNat_lt
        omega
      rwa [hstddev, (sub_mod_eq_iff hk).mpr hmod]

/-- The condition under which the statistics of some values are exact. -/
def Representable (values : List UInt64) : Prop :=
  total values < 2 ^ 64 ∧
    ((squares values < 2 ^ 64 ∧ Narrow values) ∨ (2 ^ 64 ≤ squares values ∧ Coincides values))

/-- **When the statistics are exact**, of latencies and of the trials that are not timeouts. -/
theorem statistics_exact_iff (latencies : List UInt64) (trials : List Int64)
    (hlatencies : latencies.length < 2 ^ 64) (htrials : trials.length < 2 ^ 64) :
    (latencies ≠ [] →
      (Exact latencies (LatencyStatistics.computeStatistics latencies).summary ↔
        Representable latencies)) ∧
    (trialValues trials ≠ [] →
      (Exact (trialValues trials) (ExecStatistics.new trials).summary ↔
        Representable (trialValues trials))) := by
  have hsize {values : List UInt64} (h : values ≠ []) (hlength : values.length < 2 ^ 64) :
      0 < UInt64.ofNat values.length := by
    rw [UInt64.lt_iff_toNat_lt, UInt64.toNat_ofNat_of_lt' hlength]
    exact List.length_pos_iff.mpr h
  constructor
  · intro h
    have hne : UInt64.ofNat latencies.length ≠ 0 := (UInt64.ne_of_lt (hsize h hlatencies)).symm
    rw [LatencyStatistics.computeStatistics, if_neg hne]
    exact computeSummary_exact_iff h hlatencies
  · intro h
    have hlength : (trialValues trials).length < 2 ^ 64 := by
      rw [trialValues, List.length_map]
      exact (List.length_filter_le _ _).trans_lt htrials
    rw [ExecStatistics.new, if_pos (hsize h hlength)]
    exact computeSummary_exact_iff h hlength

/-- One latency, and one trial with a timeout. -/
theorem statistics_exact_iff_five :
    (Exact [5] (LatencyStatistics.computeStatistics [5]).summary ↔ Representable [5]) ∧
      (Exact (trialValues [5, -1]) (ExecStatistics.new [5, -1]).summary ↔
        Representable (trialValues [5, -1])) :=
  ⟨(statistics_exact_iff [5] [5, -1] (by norm_num) (by norm_num)).1 (List.cons_ne_nil 5 []),
    (statistics_exact_iff [5] [5, -1] (by norm_num) (by norm_num)).2 (by decide)⟩

/-- The statistics of `0` and `10`: the standard deviation is 5. -/
theorem not_exact_zeroTen :
    ¬Exact [0, 10] (LatencyStatistics.computeStatistics [0, 10]).summary := by
  intro h
  have hle := h.stddev_le
  revert hle
  decide +kernel

end Exact

end GfeDriver
