import Mathlib.Tactic

/-!
# Hop distance, and level-by-level exploration

`Hops R root k v` is a walk of `k` edges of the relation `R` from `root` to `v`; the hop
distance of `v` is the least such `k`. A level-synchronous search keeps integer labels, the
negative ones standing for "not discovered"; after the level `d` it has `Explored` the vertices
at a distance below `d`. `Explored.advance` is one level of any such search, whatever set it
scans, as long as that set contains the last level and only discovered vertices.

## Main definitions

* `Hops R root k v`, `IsDist R root v k`: walks, and the least number of hops
* `Within R root d v`: a walk of at most `d` edges
* `Explored R root dist d`: the labels are right below the level `d`

## Main results

* `within_succ_iff`, `isDist_succ_iff`: the vertices that one level adds
* `Explored.advance`: one level
* `Explored.complete_of_empty`: an empty last level ends the search
-/

namespace Foundation

universe u

variable {V : Type u}

/-- A walk of `k` edges from `root`. -/
inductive Hops (R : V → V → Prop) (root : V) : ℕ → V → Prop
  | zero : Hops R root 0 root
  | succ {k : ℕ} {u v : V} : Hops R root k u → R u v → Hops R root (k + 1) v

/-- The hop distance of `v` is `k`. -/
def IsDist (R : V → V → Prop) (root v : V) (k : ℕ) : Prop :=
  Hops R root k v ∧ ∀ j, Hops R root j v → k ≤ j

variable {R : V → V → Prop} {root : V}

theorem hops_zero_iff {v : V} : Hops R root 0 v ↔ v = root := by
  constructor
  · intro h
    cases h
    rfl
  · rintro rfl
    exact .zero

theorem hops_succ_iff {k : ℕ} {v : V} :
    Hops R root (k + 1) v ↔ ∃ u, Hops R root k u ∧ R u v := by
  constructor
  · intro h
    cases h with
    | succ hu hv => exact ⟨_, hu, hv⟩
  · rintro ⟨u, hu, hv⟩
    exact .succ hu hv

/-- A walk along an edge-preserving map. -/
theorem Hops.map {V' : Type u} {R' : V' → V' → Prop} {f : V → V'}
    (hf : ∀ u v, R u v → R' (f u) (f v)) {k : ℕ} {v : V} (h : Hops R root k v) :
    Hops R' (f root) k (f v) := by
  induction h with
  | zero => exact .zero
  | succ _ huv ih => exact .succ ih (hf _ _ huv)

theorem exists_isDist {k : ℕ} {v : V} (h : Hops R root k v) : ∃ j ≤ k, IsDist R root v j := by
  classical
  have hex : ∃ j, Hops R root j v := ⟨k, h⟩
  exact ⟨Nat.find hex, Nat.find_min' hex h, Nat.find_spec hex, fun j hj => Nat.find_min' hex hj⟩

/-! ## Levels -/

/-- A walk of at most `d` edges from `root`. -/
def Within (R : V → V → Prop) (root : V) (d : ℕ) (v : V) : Prop := ∃ k ≤ d, Hops R root k v

theorem within_zero_iff {v : V} : Within R root 0 v ↔ v = root := by
  constructor
  · rintro ⟨k, hk, h⟩
    obtain rfl : k = 0 := Nat.le_zero.mp hk
    exact hops_zero_iff.mp h
  · rintro rfl
    exact ⟨0, le_refl 0, .zero⟩

theorem IsDist.le_iff_within {v : V} {k d : ℕ} (h : IsDist R root v k) :
    k ≤ d ↔ Within R root d v := by
  constructor
  · intro hk
    exact ⟨k, hk, h.1⟩
  · rintro ⟨j, hj, hw⟩
    exact (h.2 j hw).trans hj

theorem IsDist.unique {v : V} {k j : ℕ} (hk : IsDist R root v k) (hj : IsDist R root v j) : k = j :=
  le_antisymm (hk.2 j hj.1) (hj.2 k hk.1)

theorem isDist_zero_iff {v : V} : IsDist R root v 0 ↔ v = root := by
  constructor
  · intro h
    exact hops_zero_iff.mp h.1
  · rintro rfl
    exact ⟨.zero, fun j _ => Nat.zero_le j⟩

theorem within_iff_exists_isDist {v : V} {d : ℕ} :
    Within R root d v ↔ ∃ k ≤ d, IsDist R root v k := by
  constructor
  · rintro ⟨k, hk, h⟩
    obtain ⟨j, hj, hdist⟩ := exists_isDist h
    exact ⟨j, hj.trans hk, hdist⟩
  · rintro ⟨k, hk, h⟩
    exact ⟨k, hk, h.1⟩

/-- The vertices that an edge leads to from the level `d` and that are not closer are those of the
next level. -/
theorem isDist_succ_iff {v : V} {d : ℕ} :
    IsDist R root v (d + 1) ↔ ¬Within R root d v ∧ ∃ t, IsDist R root t d ∧ R t v := by
  constructor
  · intro h
    obtain ⟨t, ht, htv⟩ := hops_succ_iff.mp h.1
    refine ⟨fun hw => absurd (h.le_iff_within.mpr hw) (by omega), t, ⟨ht, fun j hj => ?_⟩, htv⟩
    have := h.2 (j + 1) (.succ hj htv)
    omega
  · rintro ⟨hnot, t, ht, htv⟩
    refine ⟨.succ ht.1 htv, fun j hj => ?_⟩
    by_contra hlt
    exact hnot ⟨j, by omega, hj⟩

/-- **One level** adds the ends of the edges from a set that holds the last level and only vertices
that are not further. -/
theorem within_succ_iff {F : V → Prop} {d : ℕ} (hlast : ∀ t, IsDist R root t d → F t)
    (hF : ∀ t, F t → Within R root d t) {v : V} :
    Within R root (d + 1) v ↔ Within R root d v ∨ ∃ t, F t ∧ R t v := by
  constructor
  · intro hv
    by_cases hw : Within R root d v
    · exact .inl hw
    · obtain ⟨k, hk, hdist⟩ := within_iff_exists_isDist.mp hv
      have hkd : k = d + 1 := by
        have : ¬k ≤ d := fun hkd => hw (hdist.le_iff_within.mp hkd)
        omega
      subst hkd
      obtain ⟨-, t, ht, htv⟩ := isDist_succ_iff.mp hdist
      exact .inr ⟨t, hlast t ht, htv⟩
  · rintro (⟨k, hk, h⟩ | ⟨t, ht, htv⟩)
    · exact ⟨k, by omega, h⟩
    · obtain ⟨k, hk, h⟩ := hF t ht
      exact ⟨k + 1, by omega, .succ h htv⟩

/-- The vertices that one level adds are those of the next level. -/
theorem isDist_succ_iff_of_scan {F : V → Prop} {d : ℕ} (hlast : ∀ t, IsDist R root t d → F t)
    (hF : ∀ t, F t → Within R root d t) {v : V} :
    IsDist R root v (d + 1) ↔ ¬Within R root d v ∧ ∃ t, F t ∧ R t v := by
  constructor
  · intro h
    obtain ⟨hnot, t, ht, htv⟩ := isDist_succ_iff.mp h
    exact ⟨hnot, t, hlast t ht, htv⟩
  · rintro ⟨hnot, hex⟩
    obtain ⟨k, hk, hdist⟩ := within_iff_exists_isDist.mp ((within_succ_iff hlast hF).mpr (.inr hex))
    have hkd : k = d + 1 := by
      have : ¬k ≤ d := fun hkd => hnot (hdist.le_iff_within.mp hkd)
      omega
    exact hkd ▸ hdist

/-- Beyond an empty level there is nothing. -/
theorem within_of_level_empty {d : ℕ} (hempty : ∀ v, ¬IsDist R root v (d + 1)) {k : ℕ} {v : V}
    (h : Hops R root k v) : Within R root d v := by
  induction h with
  | zero => exact ⟨0, Nat.zero_le d, .zero⟩
  | @succ k u v _ huv ih =>
    by_contra hnot
    have hw : Within R root (d + 1) v := by
      obtain ⟨j, hj, hu⟩ := ih
      exact ⟨j + 1, by omega, .succ hu huv⟩
    obtain ⟨j, hj, hdist⟩ := within_iff_exists_isDist.mp hw
    have hjd : j = d + 1 := by
      have : ¬j ≤ d := fun hjd => hnot (hdist.le_iff_within.mp hjd)
      omega
    exact hempty v (hjd ▸ hdist)

/-- The labels `dist` give the distance of every vertex closer than `d`, and are negative at the
others. -/
structure Explored (R : V → V → Prop) (root : V) (dist : V → ℤ) (d : ℕ) : Prop where
  sound : ∀ v, 0 ≤ dist v → ∃ k : ℕ, dist v = k ∧ IsDist R root v k ∧ k < d
  complete : ∀ v k, Hops R root k v → k < d → 0 ≤ dist v

namespace Explored

variable {dist dist' : V → ℤ} {d : ℕ}

theorem eq_of_isDist (h : Explored R root dist d) {v : V} {k : ℕ} (hk : IsDist R root v k)
    (hd : k < d) : dist v = k := by
  obtain ⟨j, hj, hdist, -⟩ := h.sound v (h.complete v k hk.1 hd)
  have : j = k := le_antisymm (hdist.2 k hk.1) (hk.2 j hdist.1)
  rw [hj, this]

/-- **One level**: the undiscovered vertices with an edge from the scanned set `F` get the
label `d + 1`. The set may hold old vertices besides the last level: an edge from them leads to
discovered vertices only. -/
theorem advance (h : Explored R root dist (d + 1)) {F : V → Prop}
    (hlast : ∀ v, dist v = d → F v) (hF : ∀ v, F v → 0 ≤ dist v)
    (hold : ∀ v, 0 ≤ dist v → dist' v = dist v)
    (hnew : ∀ v, dist v < 0 → (∃ u, F u ∧ R u v) → dist' v = (d : ℤ) + 1)
    (hrest : ∀ v, dist v < 0 → (¬∃ u, F u ∧ R u v) → dist' v < 0) :
    Explored R root dist' (d + 2) where
  sound := by
    intro v hv
    by_cases hdisc : 0 ≤ dist v
    · obtain ⟨k, hk, hdist, hlt⟩ := h.sound v hdisc
      exact ⟨k, (hold v hdisc).trans hk, hdist, by omega⟩
    · by_cases hex : ∃ u, F u ∧ R u v
      · refine ⟨d + 1, by rw [hnew v (by omega) hex]; push_cast; rfl, ?_, by omega⟩
        -- any shorter walk would have been discovered before
        have hfar : ∀ j, Hops R root j v → d + 1 ≤ j := by
          intro j hj
          by_contra hlt
          exact hdisc (h.complete v j hj (by omega))
        obtain ⟨u, hu, huv⟩ := hex
        obtain ⟨k, -, hdist, hlt⟩ := h.sound u (hF u hu)
        have hwalk : Hops R root (k + 1) v := .succ hdist.1 huv
        have hk : k = d := by
          have := hfar (k + 1) hwalk
          omega
        exact ⟨hk ▸ hwalk, hfar⟩
      · exact absurd hv (not_le.mpr (hrest v (by omega) hex))
  complete := by
    intro v k hk hlt
    by_cases hdisc : 0 ≤ dist v
    · rw [hold v hdisc]
      exact hdisc
    · have hkd : k = d + 1 := by
        by_contra hne
        exact hdisc (h.complete v k hk (by omega))
      subst hkd
      obtain ⟨u, hu, huv⟩ := hops_succ_iff.mp hk
      -- the predecessor lies on the last level exactly, or `v` would be closer
      have hudist : IsDist R root u d := by
        refine ⟨hu, fun j hj => ?_⟩
        by_contra hlt'
        exact hdisc (h.complete v (j + 1) (.succ hj huv) (by omega))
      have hFu : F u := hlast u (h.eq_of_isDist hudist (by omega))
      rw [hnew v (by omega) ⟨u, hFu, huv⟩]
      omega

/-- An empty last level leaves nothing to discover. -/
theorem complete_of_empty (h : Explored R root dist (d + 1)) (hempty : ∀ v, dist v ≠ d) (v : V)
    (k : ℕ) (hk : Hops R root k v) : 0 ≤ dist v := by
  -- no vertex is at the distance `d`, hence none is further
  have hnone : ∀ j v, Hops R root j v → ∃ i < d, Hops R root i v := by
    intro j
    induction j with
    | zero =>
      intro v hv
      refine ⟨0, ?_, hv⟩
      by_contra h0
      have hd : d = 0 := by omega
      subst hd
      exact hempty v (by simpa using h.eq_of_isDist ⟨hv, fun j _ => Nat.zero_le j⟩ (by omega))
    | succ j ih =>
      intro v hv
      obtain ⟨u, hu, huv⟩ := hops_succ_iff.mp hv
      obtain ⟨i, hi, hui⟩ := ih u hu
      obtain ⟨m, hm, hdist⟩ := exists_isDist (Hops.succ hui huv)
      refine ⟨m, ?_, hdist.1⟩
      by_contra hge
      have hmd : m = d := by omega
      exact hempty v (hmd ▸ h.eq_of_isDist hdist (by omega))
  obtain ⟨i, hi, hvi⟩ := hnone k v hk
  exact h.complete v i hvi (by omega)

end Explored

end Foundation
