import Mathlib.Algebra.BigOperators.Ring.Finset
import Mathlib.Order.Lattice
import Mathlib.Tactic

/-!
# Counting triangles

In a simple graph, the ordered pairs of adjacent neighbours of `v` are the triangles through `v`,
each counted twice. An enumeration that meets every triangle once, at its largest corner, and
credits two to each of the three corners, counts the same pairs: for a fixed `v` and a pair
`w < u` of its neighbours, exactly one of the three positions of `v` among them applies.

## Main definitions

* `closedPairs s adj v`: the ordered pairs of adjacent neighbours of `v`
* `linkedPairs s adj`, `linkedScore s adj`: the edges between distinct members of a set, of a
  directed graph, and their share of all pairs
* `triangleEdges s adj a`: the triangles whose largest corner is `a`
* `trianglesAt rows a b l`, `triangleList rows a`: the same triangles, listed from the rows of the
  neighbours of each vertex

## Main results

* `nodup_triangleList`, `mem_triangleList`: the list has every triangle once
* `sum_triangle_corners`: crediting the corners of the triangles counts the closed pairs
* `card_closedPairs`: the closed pairs as common neighbours
* `card_linkedPairs`: the edges of a set, by their source
* `linkedScore_nonneg`, `linkedScore_le_one`: the share is a share
-/

namespace Foundation

universe u

variable {V : Type u} (s : Finset V) (adj : V → V → Prop) [DecidableRel adj]

/-- The ordered pairs of adjacent neighbours of `v`. -/
def closedPairs (v : V) : Finset (V × V) :=
  (s ×ˢ s).filter fun p => adj v p.1 ∧ adj v p.2 ∧ adj p.1 p.2

/-- The closed pairs of `v`, counted at their first component. -/
theorem card_closedPairs (v : V) :
    (closedPairs s adj v).card =
      ∑ u ∈ s.filter (adj v), (s.filter fun w => adj v w ∧ adj u w).card := by
  simp only [closedPairs, Finset.card_filter, Finset.sum_product, Finset.sum_filter]
  refine Finset.sum_congr rfl fun u _ => ?_
  by_cases hu : adj v u
  · simp [hu]
  · simp [hu]

section Linked

/-- The edges between distinct members of `s`. -/
def linkedPairs : Finset (V × V) := s.offDiag.filter fun p => adj p.1 p.2

/-- The share of the ordered pairs of distinct members of `s` that are edges, or `0` when there is
no such pair. -/
def linkedScore : ℚ :=
  if s.card < 2 then 0 else ((linkedPairs s adj).card : ℚ) / (s.card * (s.card - 1) : ℕ)

/-- The edges, counted at their source. -/
theorem card_linkedPairs [DecidableEq V] :
    (linkedPairs s adj).card = ∑ u ∈ s, (s.filter fun w => u ≠ w ∧ adj u w).card := by
  have hprod : linkedPairs s adj = (s ×ˢ s).filter fun p => p.1 ≠ p.2 ∧ adj p.1 p.2 := by
    ext p
    simp only [linkedPairs, Finset.mem_filter, Finset.mem_offDiag, Finset.mem_product]
    tauto
  rw [hprod]
  simp only [Finset.card_filter, Finset.sum_product]

theorem card_linkedPairs_le : (linkedPairs s adj).card ≤ s.card * (s.card - 1) := by
  rw [Nat.mul_sub_one, ← Finset.offDiag_card]
  exact Finset.card_filter_le _ _

/-- The edges of the image of a set under an injection that keeps the edges. -/
theorem linkedScore_image [DecidableEq V] {V' : Type u} [DecidableEq V'] {adj' : V' → V' → Prop}
    [DecidableRel adj'] {f : V → V'} (hinj : Set.InjOn f s)
    (hadj : ∀ u ∈ s, ∀ w ∈ s, adj' (f u) (f w) ↔ adj u w) :
    linkedScore (s.image f) adj' = linkedScore s adj := by
  have hpairs : (linkedPairs (s.image f) adj').card = (linkedPairs s adj).card := by
    rw [card_linkedPairs, card_linkedPairs, Finset.sum_image hinj]
    refine Finset.sum_congr rfl fun u hu => ?_
    rw [Finset.filter_image, Finset.card_image_of_injOn (hinj.mono (Finset.filter_subset _ _))]
    congr 1
    refine Finset.filter_congr fun w hw => ?_
    rw [hadj u hu w hw, hinj.ne_iff hu hw]
  rw [linkedScore, linkedScore, hpairs, Finset.card_image_of_injOn hinj]

theorem linkedScore_nonneg : 0 ≤ linkedScore s adj := by
  unfold linkedScore
  split_ifs
  · exact le_refl 0
  · positivity

theorem linkedScore_le_one : linkedScore s adj ≤ 1 := by
  unfold linkedScore
  split_ifs
  · exact zero_le_one
  · exact div_le_one_of_le₀ (by exact_mod_cast card_linkedPairs_le s adj) (Nat.cast_nonneg _)

end Linked

section Corners

variable [LinearOrder V]

/-- The triangles with the largest corner `a`, as pairs of the middle and the smallest corner. -/
def triangleEdges (a : V) : Finset (V × V) :=
  (s ×ˢ s).filter fun p => p.1 < a ∧ p.2 < p.1 ∧ adj a p.1 ∧ adj a p.2 ∧ adj p.1 p.2

/-- The triangle with the corners `c < b < a`, if there is one. -/
def corner (a b c : V) : ℕ :=
  if b < a ∧ c < b ∧ adj a b ∧ adj a c ∧ adj b c then 1 else 0

/-- The pair `w < u` of adjacent neighbours of `v`, if there is one. -/
def wedge (v u w : V) : ℕ := if w < u ∧ adj v u ∧ adj v w ∧ adj u w then 1 else 0

variable {adj}

/-- The three positions of `v` in a triangle exclude each other. -/
theorem corner_add_corner_add_corner (hsymm : ∀ u v, adj u v → adj v u) (hirr : ∀ u, ¬adj u u)
    (v u w : V) :
    corner adj v u w + corner adj u v w + corner adj u w v = wedge adj v u w := by
  have hne : ∀ {x y}, adj x y → x ≠ y := by
    rintro x y h rfl
    exact hirr x h
  unfold corner wedge
  by_cases h : w < u ∧ adj v u ∧ adj v w ∧ adj u w
  · obtain ⟨hwu, hvu, hvw, huw⟩ := h
    have huv := hsymm v u hvu
    have hwv := hsymm v w hvw
    -- one of the three corners for each place of `v` in the order
    rcases lt_trichotomy v u with hlt | heq | hlt
    · rcases lt_trichotomy v w with hlt' | heq' | hlt'
      · simp [hwu, hvu, hvw, huw, huv, hwv, hlt, hlt', not_lt_of_gt hlt, not_lt_of_gt hlt']
      · exact absurd heq' (hne hvw)
      · simp [hwu, hvu, hvw, huw, huv, hlt, hlt', not_lt_of_gt hlt, not_lt_of_gt hlt']
    · exact absurd heq (hne hvu)
    · have hlt' : w < v := hwu.trans hlt
      simp [hwu, hvu, hvw, huw, hlt, not_lt_of_gt hlt, not_lt_of_gt hlt']
  · have h₁ : ¬(u < v ∧ w < u ∧ adj v u ∧ adj v w ∧ adj u w) := by tauto
    have h₂ : ¬(v < u ∧ w < v ∧ adj u v ∧ adj u w ∧ adj v w) := by
      rintro ⟨hvu, hwv, huv, huw, hvw⟩
      exact h ⟨hwv.trans hvu, hsymm u v huv, hvw, huw⟩
    have h₃ : ¬(w < u ∧ v < w ∧ adj u w ∧ adj u v ∧ adj w v) := by
      rintro ⟨hwu, -, huw, huv, hwv⟩
      exact h ⟨hwu, hsymm u v huv, hsymm w v hwv, huw⟩
    rw [if_neg h₁, if_neg h₂, if_neg h₃, if_neg h]

/-- An unordered pair of adjacent neighbours is two ordered ones. -/
theorem wedge_add_wedge (hsymm : ∀ u v, adj u v → adj v u) (hirr : ∀ u, ¬adj u u) (v u w : V) :
    wedge adj v u w + wedge adj v w u = if adj v u ∧ adj v w ∧ adj u w then 1 else 0 := by
  unfold wedge
  by_cases h : adj v u ∧ adj v w ∧ adj u w
  · obtain ⟨hvu, hvw, huw⟩ := h
    have hwu := hsymm u w huw
    have hne : u ≠ w := by
      rintro rfl
      exact hirr u huw
    -- the two neighbours are in one of the two orders
    rcases lt_or_gt_of_ne hne with hlt | hlt
    · simp [hvu, hvw, huw, hwu, hlt, not_lt_of_gt hlt]
    · simp [hvu, hvw, huw, hwu, hlt, not_lt_of_gt hlt]
  · have h₁ : ¬(w < u ∧ adj v u ∧ adj v w ∧ adj u w) := by tauto
    have h₂ : ¬(u < w ∧ adj v w ∧ adj v u ∧ adj w u) := by
      rintro ⟨-, hvw, hvu, hwu⟩
      exact h ⟨hvu, hvw, hsymm w u hwu⟩
    rw [if_neg h₁, if_neg h₂, if_neg h]

/-- The credits given to `v` for the triangles with the largest corner `a`. -/
theorem sum_triangleEdges (a v : V) :
    ∑ p ∈ triangleEdges s adj a, ((if a = v then 1 else 0) + (if p.1 = v then 1 else 0) +
        if p.2 = v then 1 else 0) =
      ∑ b ∈ s, ∑ c ∈ s, ((if a = v then corner adj a b c else 0) +
        (if b = v then corner adj a b c else 0) + if c = v then corner adj a b c else 0) := by
  rw [triangleEdges, Finset.sum_filter, Finset.sum_product]
  refine Finset.sum_congr rfl fun b _ => Finset.sum_congr rfl fun c _ => ?_
  unfold corner
  split_ifs <;> rfl

/-- **Crediting the corners of every triangle** with two each counts the closed pairs. -/
theorem sum_triangle_corners (hsymm : ∀ u v, adj u v → adj v u) (hirr : ∀ u, ¬adj u u) {v : V}
    (hv : v ∈ s) :
    ∑ a ∈ s, ∑ p ∈ triangleEdges s adj a, 2 * ((if a = v then 1 else 0) +
        (if p.1 = v then 1 else 0) + if p.2 = v then 1 else 0) =
      (closedPairs s adj v).card := by
  -- for each position of `v`, the sum over that corner collapses
  have hlargest : ∑ a ∈ s, ∑ b ∈ s, ∑ c ∈ s, (if a = v then corner adj a b c else 0) =
      ∑ u ∈ s, ∑ w ∈ s, corner adj v u w := by
    rw [Finset.sum_comm]
    refine Finset.sum_congr rfl fun b _ => ?_
    rw [Finset.sum_comm]
    exact Finset.sum_congr rfl fun c _ => by simp [hv]
  have hmiddle : ∑ a ∈ s, ∑ b ∈ s, ∑ c ∈ s, (if b = v then corner adj a b c else 0) =
      ∑ u ∈ s, ∑ w ∈ s, corner adj u v w := by
    refine Finset.sum_congr rfl fun a _ => ?_
    rw [Finset.sum_comm]
    exact Finset.sum_congr rfl fun c _ => by simp [hv]
  have hsmallest : ∑ a ∈ s, ∑ b ∈ s, ∑ c ∈ s, (if c = v then corner adj a b c else 0) =
      ∑ u ∈ s, ∑ w ∈ s, corner adj u w v :=
    Finset.sum_congr rfl fun a _ => Finset.sum_congr rfl fun b _ => by simp [hv]
  have hleft : ∑ a ∈ s, ∑ p ∈ triangleEdges s adj a, ((if a = v then 1 else 0) +
      (if p.1 = v then 1 else 0) + if p.2 = v then 1 else 0) =
      ∑ u ∈ s, ∑ w ∈ s, wedge adj v u w := by
    rw [Finset.sum_congr rfl fun a _ => sum_triangleEdges s a v]
    simp only [← corner_add_corner_add_corner hsymm hirr v, Finset.sum_add_distrib, hlargest,
      hmiddle, hsmallest]
  have hright : (closedPairs s adj v).card = ∑ u ∈ s, ∑ w ∈ s,
      (wedge adj v u w + wedge adj v w u) := by
    simp only [wedge_add_wedge hsymm hirr, closedPairs, Finset.card_filter, Finset.sum_product]
  have hswap : ∑ u ∈ s, ∑ w ∈ s, wedge adj v w u = ∑ u ∈ s, ∑ w ∈ s, wedge adj v u w :=
    Finset.sum_comm
  simp only [← Finset.mul_sum]
  rw [hleft, hright]
  simp only [Finset.sum_add_distrib]
  rw [hswap, two_mul]

end Corners

/-! ## The triangles of rows -/

section Rows

variable [LinearOrder V] (rows : V → List V) (a b : V)

/-- The triangles with the corners `a` and `b` and a smallest corner in `l`. -/
def trianglesAt (l : List V) : List (V × V) :=
  (l.filter fun c => c ≤ b ∧ c ∈ rows a).map fun c => (b, c)

/-- The triangles with the largest corner `a`. -/
def triangleList : List (V × V) :=
  ((rows a).filter fun b => b ≤ a).flatMap fun b => trianglesAt rows a b (rows b)

variable {rows a b} {c : V} {l : List V}

theorem trianglesAt_cons_of_mem (hle : c ≤ b) (hc : c ∈ rows a) :
    trianglesAt rows a b (c :: l) = (b, c) :: trianglesAt rows a b l := by
  rw [trianglesAt, List.filter_cons_of_pos (by simpa using ⟨hle, hc⟩), List.map_cons]
  rfl

theorem trianglesAt_cons_of_not_mem (hc : c ∉ rows a) :
    trianglesAt rows a b (c :: l) = trianglesAt rows a b l := by
  rw [trianglesAt, List.filter_cons_of_neg (by simp [hc])]
  rfl

/-- No triangle has its smallest corner above the middle one. -/
theorem trianglesAt_eq_nil (h : ∀ c ∈ l, b < c) : trianglesAt rows a b l = [] := by
  rw [trianglesAt, List.map_eq_nil_iff, List.filter_eq_nil_iff]
  intro c hc
  simp [not_le_of_gt (h c hc)]

/-- Only the rows of `a` and of its neighbours count. -/
theorem triangleList_congr {rows' : V → List V} (ha : rows a = rows' a)
    (hrows : ∀ b ∈ rows a, rows b = rows' b) : triangleList rows a = triangleList rows' a := by
  unfold triangleList trianglesAt
  rw [← ha]
  refine List.flatMap_congr fun b hb => ?_
  rw [hrows b (List.mem_of_mem_filter hb)]

/-- Each triangle is listed once. -/
theorem nodup_triangleList (ha : (rows a).Nodup) (hrows : ∀ b ∈ rows a, (rows b).Nodup) :
    (triangleList rows a).Nodup := by
  refine List.nodup_flatMap.mpr ⟨fun b hb => ?_, ?_⟩
  · refine ((hrows b (List.mem_of_mem_filter hb)).filter _).map fun c d h => ?_
    exact (Prod.mk.injEq _ _ _ _ ▸ h).2
  · refine (ha.filter _).imp fun {b b'} hne => ?_
    intro p hp hp'
    obtain ⟨c, -, rfl⟩ := List.mem_map.mp hp
    obtain ⟨d, -, heq⟩ := List.mem_map.mp hp'
    exact hne (congrArg Prod.fst heq).symm

/-- Without loops, every triangle is listed. -/
theorem mem_triangleList (ha : a ∉ rows a) (hrows : ∀ b ∈ rows a, b ∉ rows b) :
    (b, c) ∈ triangleList rows a ↔ b < a ∧ c < b ∧ b ∈ rows a ∧ c ∈ rows a ∧ c ∈ rows b := by
  simp only [triangleList, trianglesAt, List.mem_flatMap, List.mem_filter, List.mem_map,
    decide_eq_true_eq]
  constructor
  · rintro ⟨x, ⟨hx, hxa⟩, y, ⟨hy, hyx, hya⟩, heq⟩
    obtain ⟨rfl, rfl⟩ : x = b ∧ y = c := by simpa using heq
    -- there are no loops, so that the comparisons are strict
    refine ⟨lt_of_le_of_ne hxa ?_, lt_of_le_of_ne hyx ?_, hx, hya, hy⟩
    · rintro rfl
      exact ha hx
    · rintro rfl
      exact hrows y hx hy
  · rintro ⟨hba, hcb, hb, hca, hc⟩
    exact ⟨b, ⟨hb, hba.le⟩, c, ⟨hc, hcb.le, hca⟩, rfl⟩

end Rows

end Foundation
