import Mathlib.Logic.Relator
import Mathlib.Data.List.Basic

/-!
# Matchings

A matching of two sets of labels is a relation that is unique in both directions. It may be built
one pair at a time: a pair whose left label is new must have a new right label, and any other pair
must be one that is there. The pairs of labels that two functions give to the same points are a
matching if and only if the functions have the same classes.

## Main results

* `biUnique_concat_of_fresh`, `biUnique_concat_of_mem`: one more pair
* `biUnique_filterMap_iff`: the pairs of labels of two functions
-/

namespace Foundation

universe u v w

variable {ι : Type w} {α : Type u} {β : Type v} {ps : List (α × β)} {a : α} {b b' : β}

/-- The pairs of a list as a relation. -/
def Paired (ps : List (α × β)) (a : α) (b : β) : Prop :=
  (a, b) ∈ ps

@[simp] theorem paired_concat {x : α} {y : β} :
    Paired (ps ++ [(a, b)]) x y ↔ Paired ps x y ∨ x = a ∧ y = b := by
  simp [Paired]

theorem biUnique_nil : Relator.BiUnique (Paired ([] : List (α × β))) := by
  constructor <;> intro x y z h <;> simp [Paired] at h

theorem biUnique_of_append {qs : List (α × β)} (h : Relator.BiUnique (Paired (ps ++ qs))) :
    Relator.BiUnique (Paired ps) := by
  have hleft : ∀ x y, Paired ps x y → Paired (ps ++ qs) x y :=
    fun x y hxy => List.mem_append_left qs hxy
  constructor
  · intro x y z hx hy
    exact h.1 (hleft _ _ hx) (hleft _ _ hy)
  · intro x y z hy hz
    exact h.2 (hleft _ _ hy) (hleft _ _ hz)

/-- **A pair with a new left label** must have a new right label. -/
theorem biUnique_concat_of_fresh (hfresh : ∀ y, ¬Paired ps a y) :
    Relator.BiUnique (Paired (ps ++ [(a, b)])) ↔
      Relator.BiUnique (Paired ps) ∧ ∀ x, ¬Paired ps x b := by
  constructor
  · intro h
    refine ⟨biUnique_of_append h, ?_⟩
    intro x hx
    -- a second left label of `b` would be `a`, which is new
    have heq : x = a :=
      h.1 (paired_concat.mpr (Or.inl hx)) (paired_concat.mpr (Or.inr ⟨rfl, rfl⟩))
    exact hfresh b (heq ▸ hx)
  · rintro ⟨h, hb⟩
    constructor
    · intro x y z hx hy
      rw [paired_concat] at hx hy
      -- the new pair meets an old one only in a label that is not new
      rcases hx with hx | ⟨rfl, rfl⟩ <;> rcases hy with hy | ⟨rfl, hz⟩
      · exact h.1 hx hy
      · exact absurd (hz ▸ hx) (hb x)
      · exact absurd hy (hb y)
      · rfl
    · intro x y z hy hz
      rw [paired_concat] at hy hz
      rcases hy with hy | ⟨rfl, rfl⟩ <;> rcases hz with hz | ⟨hx, rfl⟩
      · exact h.2 hy hz
      · exact absurd (hx ▸ hy) (hfresh y)
      · exact absurd hz (hfresh z)
      · rfl

/-- **A pair with an old left label** must be there. -/
theorem biUnique_concat_of_mem (hmem : Paired ps a b') :
    Relator.BiUnique (Paired (ps ++ [(a, b)])) ↔ Relator.BiUnique (Paired ps) ∧ b' = b := by
  constructor
  · intro h
    refine ⟨biUnique_of_append h, ?_⟩
    exact h.2 (paired_concat.mpr (Or.inl hmem)) (paired_concat.mpr (Or.inr ⟨rfl, rfl⟩))
  · rintro ⟨h, rfl⟩
    -- the relation does not change
    have hsame : Paired (ps ++ [(a, b')]) = Paired ps := by
      funext x y
      apply propext
      rw [paired_concat, or_iff_left_iff_imp]
      rintro ⟨rfl, rfl⟩
      exact hmem
    rw [hsame]
    exact h

/-- **The pairs of labels of two functions** are a matching when the functions have the same
classes. -/
theorem biUnique_filterMap_iff {l : List ι} {f : ι → α} {g : ι → Option β}
    (hg : ∀ i ∈ l, (g i).isSome) :
    Relator.BiUnique (Paired (l.filterMap fun i => (g i).map (Prod.mk (f i)))) ↔
      ∀ i ∈ l, ∀ j ∈ l, (g i = g j ↔ f i = f j) := by
  have hpaired : ∀ x y, Paired (l.filterMap fun i => (g i).map (Prod.mk (f i))) x y ↔
      ∃ i ∈ l, g i = some y ∧ f i = x := by
    intro x y
    simp [Paired, and_comm, and_assoc]
  constructor
  -- uniqueness on the left for one direction, on the right for the other
  · intro h i hi j hj
    obtain ⟨y, hy⟩ := Option.isSome_iff_exists.mp (hg i hi)
    obtain ⟨z, hz⟩ := Option.isSome_iff_exists.mp (hg j hj)
    rw [hy, hz, Option.some.injEq]
    constructor
    · rintro rfl
      exact h.1 ((hpaired _ _).mpr ⟨i, hi, hy, rfl⟩) ((hpaired _ _).mpr ⟨j, hj, hz, rfl⟩)
    · intro hf
      exact h.2 ((hpaired _ _).mpr ⟨i, hi, hy, rfl⟩) ((hpaired _ _).mpr ⟨j, hj, hz, hf.symm⟩)
  · intro h
    constructor
    · intro x y z hx hy
      obtain ⟨i, hi, hgi, rfl⟩ := (hpaired _ _).mp hx
      obtain ⟨j, hj, hgj, rfl⟩ := (hpaired _ _).mp hy
      exact (h i hi j hj).mp (hgi.trans hgj.symm)
    · intro x y z hy hz
      obtain ⟨i, hi, hgi, rfl⟩ := (hpaired _ _).mp hy
      obtain ⟨j, hj, hgj, hf⟩ := (hpaired _ _).mp hz
      have heq := (h i hi j hj).mpr hf.symm
      rw [hgi, hgj] at heq
      exact Option.some.inj heq

end Foundation
