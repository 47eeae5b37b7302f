import Mathlib.Logic.Relation
import Mathlib.Tactic

/-!
# Weakly connected components

The weakly connected components of a relation are the classes of the equivalence it generates.
An algorithm that computes them keeps a label for each vertex, a vertex of the same component, and
stops when no edge joins different labels; the labels then tell the components apart. When a label
is never above its vertex, the common label of a component is its least vertex.

## Main definitions

* `Connected R u v`: `u` and `v` are in the same weakly connected component

## Main results

* `Connected.eq_of_isolated`: a vertex without an edge is a component of its own
* `connected_iff_of_stable`: stable labels tell the components apart
* `isLeast_of_stable`: decreasing stable labels are the least vertices
* `connected_map_iff`: components under a renaming of the vertices
-/

namespace Foundation

universe u

variable {V : Type u} {R : V → V → Prop}

/-- The vertices `u` and `v` are in the same weakly connected component. -/
def Connected (R : V → V → Prop) (u v : V) : Prop := Relation.EqvGen R u v

theorem Connected.refl (u : V) : Connected R u u := Relation.EqvGen.refl u

theorem Connected.symm {u v : V} (h : Connected R u v) : Connected R v u :=
  Relation.EqvGen.symm u v h

theorem Connected.trans {u v w : V} (h : Connected R u v) (h' : Connected R v w) :
    Connected R u w :=
  Relation.EqvGen.trans u v w h h'

theorem Connected.of_rel {u v : V} (h : R u v) : Connected R u v := Relation.EqvGen.rel u v h

/-- A vertex without an edge is a component of its own. -/
theorem Connected.eq_of_isolated {u v : V} (hv : ∀ x, ¬R v x ∧ ¬R x v) (h : Connected R u v) :
    u = v := by
  have hiff : ∀ {x y}, Connected R x y → (x = v ↔ y = v) := by
    intro x y hxy
    induction hxy with
    | rel x y hxy =>
      constructor
      · rintro rfl
        exact absurd hxy (hv y).1
      · rintro rfl
        exact absurd hxy (hv x).2
    | refl x => exact Iff.rfl
    | symm x y _ ih => exact ih.symm
    | trans x y z _ _ ih ih' => exact ih.trans ih'
  exact (hiff h).mpr rfl

section Stable

variable {comp : V → V}

theorem eq_of_connected (hstable : ∀ u v, R u v → comp u = comp v) {u v : V}
    (h : Connected R u v) : comp u = comp v := by
  induction h with
  | rel u v huv => exact hstable u v huv
  | refl u => rfl
  | symm u v _ ih => exact ih.symm
  | trans u v w _ _ ih ih' => exact ih.trans ih'

/-- **Stable labels** of the same component tell the components apart. -/
theorem connected_iff_of_stable (hstable : ∀ u v, R u v → comp u = comp v) {u v : V}
    (hu : Connected R (comp u) u) (hv : Connected R (comp v) v) :
    comp u = comp v ↔ Connected R u v := by
  refine ⟨fun heq => ?_, eq_of_connected hstable⟩
  rw [heq] at hu
  exact hu.symm.trans hv

/-- A stable label that is never above its vertex is the least vertex of the component. -/
theorem isLeast_of_stable [Preorder V] (hstable : ∀ u v, R u v → comp u = comp v) {v : V}
    (hv : Connected R (comp v) v) (hle : ∀ u, Connected R u v → comp u ≤ u) :
    IsLeast { u | Connected R u v } (comp v) := by
  refine ⟨hv, fun u hu => ?_⟩
  rw [← eq_of_connected hstable hu]
  exact hle u hu

end Stable

/-- A renaming of the vertices `D` that carries the edges over in both directions carries the
components over. -/
theorem connected_map_iff {V' : Type u} {R' : V' → V' → Prop} {f : V → V'} {D : V → Prop}
    (hinj : ∀ u v, D u → D v → f u = f v → u = v) (hto : ∀ u v, R u v → R' (f u) (f v))
    (hfrom : ∀ x y, R' x y → ∃ u v, D u ∧ D v ∧ f u = x ∧ f v = y ∧ R u v) {u v : V} (hu : D u)
    (hv : D v) : Connected R' (f u) (f v) ↔ Connected R u v := by
  constructor
  -- a connection of images is lifted step by step; `f` is injective where it is used
  · have hlift : ∀ x y, Connected R' x y →
        x = y ∨ ∃ u v, D u ∧ D v ∧ f u = x ∧ f v = y ∧ Connected R u v := by
      intro x y h
      induction h with
      | rel x y hxy =>
        obtain ⟨u, v, hu, hv, hux, hvy, huv⟩ := hfrom x y hxy
        exact Or.inr ⟨u, v, hu, hv, hux, hvy, .of_rel huv⟩
      | refl x => exact Or.inl rfl
      | symm x y _ ih =>
        rcases ih with rfl | ⟨u, v, hu, hv, hux, hvy, huv⟩
        · exact Or.inl rfl
        · exact Or.inr ⟨v, u, hv, hu, hvy, hux, huv.symm⟩
      | trans x y z _ _ ih ih' =>
        rcases ih with rfl | ⟨u, v, hu, hv, hux, hvy, huv⟩
        · exact ih'
        · rcases ih' with rfl | ⟨v', w, hv', hw, hvy', hwz, hvw⟩
          · exact Or.inr ⟨u, v, hu, hv, hux, hvy, huv⟩
          · obtain rfl : v = v' := hinj v v' hv hv' (hvy.trans hvy'.symm)
            exact Or.inr ⟨u, w, hu, hw, hux, hwz, huv.trans hvw⟩
    intro h
    rcases hlift _ _ h with heq | ⟨u', v', hu', hv', heu, hev, huv⟩
    · exact hinj u v hu hv heq ▸ Connected.refl u
    · obtain rfl := hinj u' u hu' hu heu
      obtain rfl := hinj v' v hv' hv hev
      exact huv
  · intro h
    clear hu hv
    induction h with
    | rel u v huv => exact .of_rel (hto u v huv)
    | refl u => exact .refl _
    | symm u v _ ih => exact ih.symm
    | trans u v w _ _ ih ih' => exact ih.trans ih'

end Foundation
