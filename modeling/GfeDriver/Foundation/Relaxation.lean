import GfeDriver.Foundation.Hops
import Mathlib.Data.DFinsupp.WellFounded
import Mathlib.Data.NNRat.Floor
import Mathlib.Tactic

/-!
# Shortest walks and label correction

`Walk E root v c` is a walk from `root` to `v` along the weighted edges `E`, of total weight `c`.
A label-correcting search keeps a label for each vertex, `⊤` when no walk is known yet, and
lowers the label of the target of an edge whenever the label of its source allows it. Whatever
the order of these relaxations, the labels stay weights of walks, and once every labelled vertex
is `Tight`, that is, no edge leaving it can lower a label, they are the least weights.

With exact rational weights no label can be lowered forever: all the labels lie on one grid, the
multiples of a common denominator, so their tuple decreases in a well-founded order.

## Main definitions

* `Walk E root v c`, `IsMinWeight E root v d`: walks, and the least weight of one
* `Labels E root dist`, `Tight E dist u`: correct labels, and a vertex with nothing left to relax
* `OnGrid D c`, `gridRank D n dist`: multiples of `1 / D`, and the rank of a tuple of labels
* `CountOne R`, `IsFewestEdges R root v d`: edges of the weight one, and the least number of them

## Main results

* `IsMinWeight.unique`, `IsMinWeight.map`: the least weight, also under a renaming of the vertices
* `Labels.isMinWeight`: labels that are tight everywhere are the least weights
* `Labels.lower`, `Tight.lower`: one relaxation
* `gridRank_lt`: a relaxation decreases the rank
* `IsMinWeight.isFewestEdges`: the least weight of a walk when every edge counts one
-/

namespace Foundation

universe u

section Labels

variable {V : Type u} {M : Type} [AddCommMonoid M]

/-- A walk from `root` along the edges `E`, with its weight. -/
inductive Walk (E : V → V → M → Prop) (root : V) : V → M → Prop
  | refl : Walk E root root 0
  | step {u v : V} {c w : M} : Walk E root u c → E u v w → Walk E root v (c + w)

section Transfer

variable {V' : Type} {E : V → V → M → Prop} {E' : V' → V' → M → Prop} {f : V → V'} {root : V}

theorem Walk.map (hto : ∀ u v w, E u v w → E' (f u) (f v) w) {v : V} {c : M}
    (h : Walk E root v c) : Walk E' (f root) (f v) c := by
  induction h with
  | refl => exact .refl
  | step _ he ih => exact .step ih (hto _ _ _ he)

theorem Walk.lift {D : V → Prop} (hroot : D root)
    (hfrom : ∀ u y w, D u → E' (f u) y w → ∃ v, D v ∧ f v = y ∧ E u v w) {y : V'} {c : M}
    (h : Walk E' (f root) y c) : ∃ v, D v ∧ f v = y ∧ Walk E root v c := by
  induction h with
  | refl => exact ⟨root, hroot, rfl, .refl⟩
  | step _ he ih =>
    obtain ⟨u, hu, rfl, hwalk⟩ := ih
    obtain ⟨v, hv, rfl, hedge⟩ := hfrom u _ _ hu he
    exact ⟨v, hv, rfl, .step hwalk hedge⟩

variable [LinearOrder M]

/-- The least weight of a walk to `v` is `d`, and `⊤` when there is none. -/
def IsMinWeight (E : V → V → M → Prop) (root v : V) (d : WithTop M) : Prop :=
  (∀ c : M, d = c → Walk E root v c) ∧ ∀ c : M, Walk E root v c → d ≤ c

theorem IsMinWeight.unique {v : V} {d d' : WithTop M}
    (h : IsMinWeight E root v d) (h' : IsMinWeight E root v d') : d = d' := by
  have hle : ∀ {a b : WithTop M}, IsMinWeight E root v a → IsMinWeight E root v b → a ≤ b := by
    intro a b ha hb
    cases b with
    | top => exact le_top
    | coe c => exact ha.2 c (hb.1 c rfl)
  exact le_antisymm (hle h h') (hle h' h)

/-- A renaming of the vertices `D` that carries the edges over in both directions carries the
least weights along. -/
theorem IsMinWeight.map {D : V → Prop} (hroot : D root)
    (hinj : ∀ u v, D u → D v → f u = f v → u = v) (hto : ∀ u v w, E u v w → E' (f u) (f v) w)
    (hfrom : ∀ u y w, D u → E' (f u) y w → ∃ v, D v ∧ f v = y ∧ E u v w) {v : V} (hv : D v)
    {d : WithTop M} (h : IsMinWeight E root v d) : IsMinWeight E' (f root) (f v) d := by
  refine ⟨fun c hc => (h.1 c hc).map hto, fun c hc => h.2 c ?_⟩
  obtain ⟨v', hv', heq, hwalk⟩ := Walk.lift hroot hfrom hc
  exact hinj v' v hv' hv heq ▸ hwalk

end Transfer

variable [LinearOrder M]

/-- The labels are weights of walks, and the root has the label of the empty one. -/
structure Labels (E : V → V → M → Prop) (root : V) (dist : V → WithTop M) : Prop where
  source : dist root = 0
  sound : ∀ v (c : M), dist v = c → Walk E root v c

/-- No edge leaving `u` can lower a label. -/
def Tight (E : V → V → M → Prop) (dist : V → WithTop M) (u : V) : Prop :=
  ∀ v w, E u v w → dist v ≤ dist u + w

variable {E : V → V → M → Prop} {root : V} {dist : V → WithTop M}

/-- **Labels that are tight everywhere** are the least weights. -/
theorem Labels.isMinWeight [IsOrderedAddMonoid M] (h : Labels E root dist)
    (htight : ∀ u, dist u ≠ ⊤ → Tight E dist u) (v : V) : IsMinWeight E root v (dist v) := by
  refine ⟨h.sound v, fun c hc => ?_⟩
  induction hc with
  | refl => exact h.source.le
  | @step u v c w _ he ih =>
    have hfin : dist u ≠ ⊤ := ne_top_of_le_ne_top WithTop.coe_ne_top ih
    calc dist v ≤ dist u + w := htight u hfin v w he
      _ ≤ (c : WithTop M) + w := by gcongr
      _ = ((c + w : M) : WithTop M) := (WithTop.coe_add c w).symm

variable [DecidableEq V] {u v : V} {w : M}

/-- A label that is lowered to the weight of a walk. -/
theorem Labels.improve [CanonicallyOrderedAdd M] (h : Labels E root dist) {d : WithTop M}
    (hwalk : ∀ c : M, d = c → Walk E root v c) (hlt : d < dist v) :
    Labels E root (Function.update dist v d) where
  source := by
    -- the label of the root is zero, which nothing lowers
    have hv : root ≠ v := by
      rintro rfl
      rw [h.source] at hlt
      exact absurd hlt (not_lt.mpr zero_le)
    rw [Function.update_of_ne hv]
    exact h.source
  sound := by
    intro x c hx
    by_cases hxv : x = v
    · subst hxv
      rw [Function.update_self] at hx
      exact hwalk c hx
    · rw [Function.update_of_ne hxv] at hx
      exact h.sound x c hx

omit [DecidableEq V] in
/-- The label of an edge's source and its weight give a walk through the edge. -/
theorem Labels.walk_add [CanonicallyOrderedAdd M] (h : Labels E root dist) (he : E u v w) {c : M}
    (hc : dist u + w = c) : Walk E root v c := by
  have hfin : dist u ≠ ⊤ :=
    ne_top_of_le_ne_top (hc ▸ WithTop.coe_ne_top) (le_self_add : dist u ≤ dist u + w)
  obtain ⟨a, ha⟩ := WithTop.ne_top_iff_exists.mp hfin
  rw [← ha, ← WithTop.coe_add, WithTop.coe_inj] at hc
  exact hc ▸ Walk.step (h.sound u a ha.symm) he

/-- A relaxation keeps the labels correct. -/
theorem Labels.lower [CanonicallyOrderedAdd M] (h : Labels E root dist) (he : E u v w)
    (hlt : dist u + w < dist v) :
    Labels E root (Function.update dist v (dist u + w)) :=
  h.improve (fun _ hc => h.walk_add he hc) hlt

/-- Lowering another label leaves a tight vertex tight. -/
theorem Tight.lower {x : V} {d : WithTop M} (h : Tight E dist x) (hx : x ≠ v) (hd : d ≤ dist v) :
    Tight E (Function.update dist v d) x := by
  intro y w he
  rw [Function.update_of_ne hx]
  by_cases hy : y = v
  · subst hy
    rw [Function.update_self]
    exact hd.trans (h y w he)
  · rw [Function.update_of_ne hy]
    exact h y w he

end Labels

/-! ## Rational labels lie on a grid -/

section Grid

variable {V : Type u}

/-- `c` is a multiple of `1 / D`. -/
def OnGrid (D : ℕ) (c : ℚ≥0) : Prop := ∃ k : ℕ, (D : ℚ≥0) * c = k

theorem OnGrid.add {D : ℕ} {c c' : ℚ≥0} (h : OnGrid D c) (h' : OnGrid D c') :
    OnGrid D (c + c') := by
  obtain ⟨k, hk⟩ := h
  obtain ⟨k', hk'⟩ := h'
  exact ⟨k + k', by rw [mul_add, hk, hk', Nat.cast_add]⟩

theorem OnGrid.mul_left {D : ℕ} {c : ℚ≥0} (h : OnGrid D c) (m : ℕ) : OnGrid (m * D) c := by
  obtain ⟨k, hk⟩ := h
  exact ⟨m * k, by push_cast; rw [mul_assoc, hk]⟩

/-- A finite list of weights has a common denominator. -/
theorem exists_onGrid (l : List ℚ≥0) : ∃ D, 0 < D ∧ ∀ w ∈ l, OnGrid D w := by
  induction l with
  | nil => exact ⟨1, Nat.one_pos, by simp⟩
  | cons w l ih =>
    obtain ⟨D, hD, hl⟩ := ih
    refine ⟨w.den * D, Nat.mul_pos w.den_pos hD, fun x hx => ?_⟩
    rcases List.mem_cons.mp hx with rfl | hx
    · refine ⟨D * x.num, ?_⟩
      have hden := NNRat.den_mul_eq_num x
      push_cast
      rw [mul_comm (x.den : ℚ≥0), mul_assoc, hden]
    · exact (hl x hx).mul_left _

theorem Walk.onGrid {E : V → V → ℚ≥0 → Prop} {root : V} {D : ℕ}
    (hE : ∀ u v w, E u v w → OnGrid D w) {v : V} {c : ℚ≥0} (h : Walk E root v c) :
    OnGrid D c := by
  induction h with
  | refl => exact ⟨0, by simp⟩
  | step _ he ih => exact ih.add (hE _ _ _ he)

/-- The labels of the vertices `0, …, n - 1`, counted in steps of the grid. -/
def gridRank (D n : ℕ) (dist : ℕ → WithTop ℚ≥0) : Fin n → WithTop ℕ :=
  fun v => (dist v).map fun c => ⌊(D : ℚ≥0) * c⌋₊

theorem map_floor_le {D : ℕ} {d d' : WithTop ℚ≥0} (h : d' ≤ d) :
    (d'.map fun c : ℚ≥0 => ⌊(D : ℚ≥0) * c⌋₊) ≤ d.map fun c : ℚ≥0 => ⌊(D : ℚ≥0) * c⌋₊ := by
  cases d with
  | top => exact le_top
  | coe c =>
    obtain ⟨c', rfl⟩ := WithTop.ne_top_iff_exists.mp (ne_top_of_le_ne_top WithTop.coe_ne_top h)
    have hc : c' ≤ c := WithTop.coe_le_coe.mp h
    simp only [WithTop.map_coe, WithTop.coe_le_coe]
    gcongr

theorem map_floor_lt {D : ℕ} (hD : 0 < D) {d d' : WithTop ℚ≥0} (h : d' < d)
    (hgrid : ∀ c : ℚ≥0, d = c ∨ d' = c → OnGrid D c) :
    (d'.map fun c : ℚ≥0 => ⌊(D : ℚ≥0) * c⌋₊) < d.map fun c : ℚ≥0 => ⌊(D : ℚ≥0) * c⌋₊ := by
  obtain ⟨c', rfl⟩ := WithTop.ne_top_iff_exists.mp (ne_top_of_lt h)
  cases d with
  | top => exact WithTop.coe_lt_top _
  | coe c =>
    obtain ⟨k, hk⟩ := hgrid c (Or.inl rfl)
    obtain ⟨k', hk'⟩ := hgrid c' (Or.inr rfl)
    have hc : c' < c := WithTop.coe_lt_coe.mp h
    -- on the grid the labels are multiples, and floors keep their order
    have hlt : (D : ℚ≥0) * c' < D * c := by
      apply mul_lt_mul_of_pos_left hc
      exact_mod_cast hD
    rw [hk, hk', Nat.cast_lt] at hlt
    simpa [hk, hk'] using hlt

/-- **Relaxations decrease the rank**, which is well-founded. -/
theorem gridRank_lt {D n : ℕ} (hD : 0 < D) {dist dist' : ℕ → WithTop ℚ≥0}
    (hgrid : ∀ v (c : ℚ≥0), dist v = c ∨ dist' v = c → OnGrid D c)
    (hle : ∀ v, dist' v ≤ dist v) {v : ℕ} (hv : v < n) (hlt : dist' v < dist v) :
    gridRank D n dist' < gridRank D n dist :=
  Pi.lt_def.mpr ⟨fun x => map_floor_le (hle x), ⟨v, hv⟩, map_floor_lt hD hlt (hgrid v)⟩

end Grid

/-! ## Edges that count one -/

section Count

variable {V : Type u} {R : V → V → Prop} {root v : V}

/-- The edges of a relation, each of the weight one. -/
def CountOne (R : V → V → Prop) (u v : V) (w : ℚ≥0) : Prop := w = 1 ∧ R u v

/-- The least number of edges of a walk to `v` is `d`, and `⊤` when there is none. -/
def IsFewestEdges (R : V → V → Prop) (root v : V) (d : WithTop ℚ≥0) : Prop :=
  (∀ k : ℕ, IsDist R root v k → d = ((k : ℚ≥0) : WithTop ℚ≥0)) ∧ ((∀ k, ¬Hops R root k v) → d = ⊤)

/-- The weight of a walk is the number of its edges. -/
theorem walk_countOne_iff {c : ℚ≥0} :
    Walk (CountOne R) root v c ↔ ∃ k : ℕ, c = k ∧ Hops R root k v := by
  constructor
  · intro h
    induction h with
    | refl => exact ⟨0, Nat.cast_zero.symm, .zero⟩
    | step _ he ih =>
      obtain ⟨k, rfl, hops⟩ := ih
      obtain ⟨rfl, hedge⟩ := he
      exact ⟨k + 1, (Nat.cast_succ k).symm, .succ hops hedge⟩
  · rintro ⟨k, rfl, h⟩
    induction h with
    | zero => exact Nat.cast_zero (R := ℚ≥0) ▸ .refl
    | succ _ hedge ih => exact Nat.cast_succ (R := ℚ≥0) _ ▸ .step ih ⟨rfl, hedge⟩

/-- **The least weight** is the least number of edges. -/
theorem IsMinWeight.isFewestEdges {d : WithTop ℚ≥0} (h : IsMinWeight (CountOne R) root v d) :
    IsFewestEdges R root v d := by
  constructor
  · intro k hk
    have hle : d ≤ ((k : ℚ≥0) : WithTop ℚ≥0) := h.2 k (walk_countOne_iff.mpr ⟨k, rfl, hk.1⟩)
    obtain ⟨c, rfl⟩ := WithTop.ne_top_iff_exists.mp (ne_top_of_le_ne_top WithTop.coe_ne_top hle)
    obtain ⟨j, rfl, hj⟩ := walk_countOne_iff.mp (h.1 c rfl)
    refine le_antisymm hle (WithTop.coe_le_coe.mpr ?_)
    exact_mod_cast hk.2 j hj
  · intro hnone
    by_contra hfin
    obtain ⟨c, hc⟩ := WithTop.ne_top_iff_exists.mp hfin
    obtain ⟨k, -, hk⟩ := walk_countOne_iff.mp (h.1 c hc.symm)
    exact hnone k hk

end Count

end Foundation
