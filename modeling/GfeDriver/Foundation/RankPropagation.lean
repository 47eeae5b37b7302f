import Mathlib.Algebra.BigOperators.Field
import Mathlib.Algebra.BigOperators.Group.Finset.Basic
import Mathlib.Tactic

/-!
# Rank propagation

Each vertex of a finite multigraph passes its rank on along its outgoing edges, in equal parts. A
vertex without an outgoing edge passes its rank to all the vertices, and a share of the total is
replaced by equal parts for all. The total of the ranks is kept when it is one: the exchange of the
two sums over the edges turns what the vertices receive into what they send.

## Main definitions

* `outDegree s A u`: the number of edges from `u`, where `A u v` is that from `u` to `v`
* `rankStep s A d x`: the ranks after one step, with the damping factor `d`
* `ranks s A d n`: the ranks after `n` steps, from equal ranks
* `lossyRanks s I A d n`: the ranks, if those of the vertices `I` are lost in every step

## Main results

* `sum_rankStep`, `sum_ranks`: conservation of the total
* `sum_map_eq_sum_count`: a sum over a list of vertices
* `ranks_image`: the ranks under a renaming of the vertices
* `sum_lossyRanks_lt`: rank that was lost does not come back
-/

namespace Foundation

universe u

variable {V K : Type u} [Field K]

section Step

variable (s : Finset V) (A : V → V → ℕ) (d : K)

/-- The number of edges from `u`. -/
def outDegree (u : V) : ℕ := ∑ v ∈ s, A u v

/-- What the vertices without an outgoing edge pass on to each vertex. -/
def danglingShare (x : V → K) : K := (∑ u ∈ s with outDegree s A u = 0, x u) / s.card

/-- **One step.** -/
def rankStep (x : V → K) (v : V) : K :=
  (1 - d) / s.card + d * (∑ u ∈ s, A u v * (x u / outDegree s A u) + danglingShare s A x)

/-- The ranks after `n` steps. -/
def ranks (n : ℕ) : V → K := (rankStep s A d)^[n] fun _ => 1 / s.card

variable {s A d}

/-- Only the ranks of the vertices matter. -/
theorem rankStep_congr {x y : V → K} (h : ∀ u ∈ s, x u = y u) (v : V) :
    rankStep s A d x v = rankStep s A d y v := by
  have hsinks : ∑ u ∈ s with outDegree s A u = 0, x u = ∑ u ∈ s with outDegree s A u = 0, y u :=
    Finset.sum_congr rfl fun u hu => h u (Finset.mem_of_mem_filter u hu)
  have hedges : ∑ u ∈ s, (A u v : K) * (x u / outDegree s A u) =
      ∑ u ∈ s, (A u v : K) * (y u / outDegree s A u) :=
    Finset.sum_congr rfl fun u hu => by rw [h u hu]
  rw [rankStep, rankStep, danglingShare, danglingShare, hsinks, hedges]

theorem ranks_succ (n : ℕ) : ranks s A d (n + 1) = rankStep s A d (ranks s A d n) :=
  Function.iterate_succ_apply' _ _ _

variable [CharZero K]

/-- What the vertices send along their edges is the rank of those that have an edge. -/
theorem sum_sent (x : V → K) :
    ∑ v ∈ s, ∑ u ∈ s, (A u v : K) * (x u / outDegree s A u) =
      ∑ u ∈ s with ¬outDegree s A u = 0, x u := by
  rw [Finset.sum_comm, Finset.sum_filter]
  refine Finset.sum_congr rfl fun u _ => ?_
  rw [← Finset.sum_mul, ← Nat.cast_sum]
  change (outDegree s A u : K) * _ = _
  by_cases hu : outDegree s A u = 0
  · simp [hu]
  · rw [if_pos hu, mul_div_cancel₀ _ (Nat.cast_ne_zero.mpr hu)]

/-- **One step** keeps the damped share of the total. -/
theorem sum_rankStep (hs : s.Nonempty) (x : V → K) :
    ∑ v ∈ s, rankStep s A d x v = (1 - d) + d * ∑ v ∈ s, x v := by
  have hcard : (s.card : K) ≠ 0 := Nat.cast_ne_zero.mpr hs.card_ne_zero
  have hbase : ∑ _v ∈ s, (1 - d) / (s.card : K) = 1 - d := by
    rw [Finset.sum_const, nsmul_eq_mul, mul_div_cancel₀ _ hcard]
  have hdangling : ∑ _v ∈ s, danglingShare s A x = ∑ u ∈ s with outDegree s A u = 0, x u := by
    rw [Finset.sum_const, nsmul_eq_mul, danglingShare, mul_div_cancel₀ _ hcard]
  simp only [rankStep]
  rw [Finset.sum_add_distrib, ← Finset.mul_sum, Finset.sum_add_distrib, hbase, sum_sent, hdangling,
    add_comm (∑ u ∈ s with ¬outDegree s A u = 0, x u), Finset.sum_filter_add_sum_filter_not]

/-- **Conservation**: the ranks sum to one after every step. -/
theorem sum_ranks (hs : s.Nonempty) (n : ℕ) : ∑ v ∈ s, ranks s A d n v = 1 := by
  have hcard : (s.card : K) ≠ 0 := Nat.cast_ne_zero.mpr hs.card_ne_zero
  induction n with
  | zero =>
    change ∑ _v ∈ s, (1 : K) / s.card = 1
    rw [Finset.sum_const, nsmul_eq_mul, mul_div_cancel₀ _ hcard]
  | succ n ih =>
    rw [ranks_succ, sum_rankStep hs, ih]
    ring

end Step

/-- The number of edges to the vertices in a list. -/
theorem sum_count_eq_length [DecidableEq V] {s : Finset V} {l : List V} (hl : ∀ u ∈ l, u ∈ s) :
    ∑ u ∈ s, l.count u = l.length := by
  have hsub : l.toFinset ⊆ s := fun u hu => hl u (List.mem_toFinset.mp hu)
  rw [← List.sum_toFinset_count_eq_length, Finset.sum_subset hsub]
  exact fun u _ hu => List.count_eq_zero.mpr fun hmem => hu (List.mem_toFinset.mpr hmem)

/-- A sum over a list of members of a set, by their number of occurrences. -/
theorem sum_map_eq_sum_count [DecidableEq V] {s : Finset V} {l : List V} (hl : ∀ u ∈ l, u ∈ s)
    (f : V → K) : (l.map f).sum = ∑ u ∈ s, (l.count u : K) * f u := by
  have hsub : l.toFinset ⊆ s := fun u hu => hl u (List.mem_toFinset.mp hu)
  rw [Finset.sum_list_map_count, ← Finset.sum_subset hsub fun u _ hu => ?_]
  · exact Finset.sum_congr rfl fun u _ => nsmul_eq_mul _ _
  · rw [List.count_eq_zero.mpr fun hmem => hu (List.mem_toFinset.mpr hmem)]
    simp

section Image

variable {V' : Type u} [DecidableEq V'] {s : Finset V} {A : V → V → ℕ} {A' : V' → V' → ℕ} {d : K}
  {f : V → V'}

theorem outDegree_image (hf : Set.InjOn f s) (hA : ∀ u ∈ s, ∀ v ∈ s, A' (f u) (f v) = A u v) {u : V}
    (hu : u ∈ s) : outDegree (s.image f) A' (f u) = outDegree s A u := by
  rw [outDegree, outDegree, Finset.sum_image hf]
  exact Finset.sum_congr rfl fun v hv => hA u hu v hv

/-- One step under a renaming of the vertices. -/
theorem rankStep_image (hf : Set.InjOn f s) (hA : ∀ u ∈ s, ∀ v ∈ s, A' (f u) (f v) = A u v)
    {x : V → K} {x' : V' → K} (hx : ∀ u ∈ s, x' (f u) = x u) {v : V} (hv : v ∈ s) :
    rankStep (s.image f) A' d x' (f v) = rankStep s A d x v := by
  have hdegree : ∀ u ∈ s, outDegree (s.image f) A' (f u) = outDegree s A u :=
    fun u hu => outDegree_image hf hA hu
  have hedges : ∑ u ∈ s.image f, (A' u (f v) : K) * (x' u / outDegree (s.image f) A' u) =
      ∑ u ∈ s, (A u v : K) * (x u / outDegree s A u) := by
    rw [Finset.sum_image hf]
    exact Finset.sum_congr rfl fun u hu => by rw [hA u hu v hv, hx u hu, hdegree u hu]
  have hsinks : ∑ u ∈ s.image f with outDegree (s.image f) A' u = 0, x' u =
      ∑ u ∈ s with outDegree s A u = 0, x u := by
    rw [Finset.sum_filter, Finset.sum_filter, Finset.sum_image hf]
    exact Finset.sum_congr rfl fun u hu => by rw [hx u hu, hdegree u hu]
  rw [rankStep, rankStep, danglingShare, danglingShare, hedges, hsinks,
    Finset.card_image_of_injOn hf]

/-- **The ranks under a renaming of the vertices.** -/
theorem ranks_image (hf : Set.InjOn f s) (hA : ∀ u ∈ s, ∀ v ∈ s, A' (f u) (f v) = A u v) (n : ℕ) :
    ∀ v ∈ s, ranks (s.image f) A' d n (f v) = ranks s A d n v := by
  induction n with
  | zero =>
    intro v _
    change 1 / ((s.image f).card : K) = 1 / s.card
    rw [Finset.card_image_of_injOn hf]
  | succ n ih =>
    intro v hv
    rw [ranks_succ, ranks_succ]
    exact rankStep_image hf hA ih hv

end Image

/-! ## Vertices that are passed over -/

section PassedOver

variable (s I : Finset V) (A : V → V → ℕ) (d : K)

/-- One step in which the ranks of the vertices in `I`, which have no edge to pass them on, are
lost. -/
def lossyStep (x : V → K) (v : V) : K := rankStep s A d x v - d * ((∑ u ∈ I, x u) / s.card)

/-- The ranks after `n` such steps. -/
def lossyRanks (n : ℕ) : V → K := (lossyStep s I A d)^[n] fun _ => 1 / s.card

variable {s I A d}

theorem lossyStep_congr (hI : I ⊆ s) {x y : V → K} (h : ∀ u ∈ s, x u = y u) (v : V) :
    lossyStep s I A d x v = lossyStep s I A d y v := by
  rw [lossyStep, lossyStep, rankStep_congr h, Finset.sum_congr rfl fun u hu => h u (hI hu)]

theorem lossyRanks_succ (n : ℕ) :
    lossyRanks s I A d (n + 1) = lossyStep s I A d (lossyRanks s I A d n) :=
  Function.iterate_succ_apply' _ _ _

/-- If no vertex is passed over then the steps are the same. -/
theorem lossyRanks_empty (n : ℕ) : lossyRanks s ∅ A d n = ranks s A d n := by
  induction n with
  | zero => rfl
  | succ n ih =>
    rw [lossyRanks_succ, ranks_succ, ih]
    funext v
    simp [lossyStep]

/-- **One step** loses the damped ranks of the vertices that are passed over. -/
theorem sum_lossyStep [CharZero K] (hs : s.Nonempty) (x : V → K) :
    ∑ v ∈ s, lossyStep s I A d x v = (1 - d) + d * (∑ v ∈ s, x v - ∑ u ∈ I, x u) := by
  have hcard : (s.card : K) ≠ 0 := Nat.cast_ne_zero.mpr hs.card_ne_zero
  have hlost : ∑ _v ∈ s, d * ((∑ u ∈ I, x u) / (s.card : K)) = d * ∑ u ∈ I, x u := by
    rw [Finset.sum_const, nsmul_eq_mul, mul_left_comm, mul_div_cancel₀ _ hcard]
  simp only [lossyStep]
  rw [Finset.sum_sub_distrib, sum_rankStep hs, hlost]
  ring

section Ordered

variable [LinearOrder K] [IsStrictOrderedRing K]

/-- Ranks stay above zero. -/
theorem lossyStep_nonneg (hI : ∀ u ∈ I, u ∈ s ∧ outDegree s A u = 0) (hd : 0 ≤ d) (hd1 : d ≤ 1)
    {x : V → K} (hx : ∀ u ∈ s, 0 ≤ x u) (v : V) : 0 ≤ lossyStep s I A d x v := by
  -- the vertices that are passed over are among those without an edge
  have hsub : ∑ u ∈ I, x u ≤ ∑ u ∈ s with outDegree s A u = 0, x u :=
    Finset.sum_le_sum_of_subset_of_nonneg (fun u hu => Finset.mem_filter.mpr (hI u hu))
      fun u hu _ => hx u (Finset.mem_filter.mp hu).1
  have hedges : 0 ≤ ∑ u ∈ s, (A u v : K) * (x u / outDegree s A u) :=
    Finset.sum_nonneg fun u hu =>
      mul_nonneg (Nat.cast_nonneg _) (div_nonneg (hx u hu) (Nat.cast_nonneg _))
  have hshare : (∑ u ∈ I, x u) / s.card ≤ danglingShare s A x :=
    div_le_div_of_nonneg_right hsub (Nat.cast_nonneg _)
  have hbase : 0 ≤ (1 - d) / s.card := div_nonneg (sub_nonneg.mpr hd1) (Nat.cast_nonneg _)
  have hflow : 0 ≤ d * (∑ u ∈ s, (A u v : K) * (x u / outDegree s A u) +
      (danglingShare s A x - (∑ u ∈ I, x u) / s.card)) :=
    mul_nonneg hd (add_nonneg hedges (sub_nonneg.mpr hshare))
  rw [lossyStep, rankStep]
  linarith

theorem lossyRanks_nonneg (hI : ∀ u ∈ I, u ∈ s ∧ outDegree s A u = 0) (hd : 0 ≤ d) (hd1 : d ≤ 1)
    (n : ℕ) (v : V) : 0 ≤ lossyRanks s I A d n v := by
  induction n generalizing v with
  | zero => exact div_nonneg zero_le_one (Nat.cast_nonneg _)
  | succ n ih =>
    rw [lossyRanks_succ]
    exact lossyStep_nonneg hI hd hd1 (fun u _ => ih u) v

/-- **Rank that was lost does not come back**: from the first step on the ranks sum to less than
one. -/
theorem sum_lossyRanks_lt (hI : ∀ u ∈ I, u ∈ s ∧ outDegree s A u = 0) (hne : I.Nonempty)
    (hd : 0 < d) (hd1 : d ≤ 1) (n : ℕ) : ∑ v ∈ s, lossyRanks s I A d (n + 1) v < 1 := by
  have hs : s.Nonempty := hne.mono fun u hu => (hI u hu).1
  have hcard : 0 < (s.card : K) := Nat.cast_pos.mpr hs.card_pos
  induction n with
  | zero =>
    have hlost : 0 < ∑ _u ∈ I, (1 : K) / s.card :=
      Finset.sum_pos (fun _ _ => div_pos one_pos hcard) hne
    have hall : ∑ _v ∈ s, (1 : K) / s.card = 1 := by
      rw [Finset.sum_const, nsmul_eq_mul, mul_div_cancel₀ _ hcard.ne']
    rw [lossyRanks_succ, sum_lossyStep hs]
    change (1 - d) + d * (∑ _v ∈ s, (1 : K) / s.card - ∑ _u ∈ I, (1 : K) / s.card) < 1
    rw [hall]
    linarith [mul_pos hd hlost]
  | succ n ih =>
    have hlost : 0 ≤ ∑ u ∈ I, lossyRanks s I A d (n + 1) u :=
      Finset.sum_nonneg fun u _ => lossyRanks_nonneg hI hd.le hd1 (n + 1) u
    rw [lossyRanks_succ, sum_lossyStep hs]
    linarith [mul_lt_mul_of_pos_left ih hd, mul_nonneg hd.le hlost]

end Ordered

end PassedOver

end Foundation
