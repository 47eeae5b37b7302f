import Mathlib.Data.Finmap
import Mathlib.Tactic

/-!
# Weights of stored edges

A store keeps the weight of an undirected edge under both of its directions. What is read after a
write of the edge is what was written, in either direction, and the old weight elsewhere.

## Main results

* `lookup_insert_edge`, `lookup_erase_edge`: the weights after a write of one direction
* `lookup_insert_pair`, `lookup_erase_pair`: the weights after a write of both directions
* `symm_of_write`: a write of both directions keeps the weights symmetric
-/

namespace Foundation

universe u v

variable {V : Type u} [DecidableEq V] {W : Type v}

section Lookup

variable (m : Finmap fun _ : V × V => W) (a b : V) (w : W) (x y : V)

theorem lookup_insert_edge :
    (m.insert (a, b) w).lookup (x, y) = if x = a ∧ y = b then some w else m.lookup (x, y) := by
  by_cases h : x = a ∧ y = b
  · obtain ⟨rfl, rfl⟩ := h
    rw [Finmap.lookup_insert, if_pos ⟨rfl, rfl⟩]
  · have hne : (x, y) ≠ (a, b) := fun heq => h (Prod.mk.inj heq)
    rw [Finmap.lookup_insert_of_ne _ hne, if_neg h]

theorem lookup_erase_edge :
    (m.erase (a, b)).lookup (x, y) = if x = a ∧ y = b then none else m.lookup (x, y) := by
  by_cases h : x = a ∧ y = b
  · obtain ⟨rfl, rfl⟩ := h
    rw [Finmap.lookup_erase, if_pos ⟨rfl, rfl⟩]
  · have hne : (x, y) ≠ (a, b) := fun heq => h (Prod.mk.inj heq)
    rw [Finmap.lookup_erase_ne hne, if_neg h]

/-- A write under two keys, one after the other. -/
theorem ite_ite_edge {α : Type*} (r s : α) :
    (if x = b ∧ y = a then r else if x = a ∧ y = b then r else s) =
      if (x = a ∧ y = b) ∨ (x = b ∧ y = a) then r else s := by
  by_cases hback : x = b ∧ y = a
  · rw [if_pos hback, if_pos (Or.inr hback)]
  · simp only [hback, or_false, if_false]

/-- **The weights after an insertion** of both directions. -/
theorem lookup_insert_pair :
    ((m.insert (a, b) w).insert (b, a) w).lookup (x, y) =
      if (x = a ∧ y = b) ∨ (x = b ∧ y = a) then some w else m.lookup (x, y) := by
  rw [lookup_insert_edge, lookup_insert_edge, ite_ite_edge]

/-- **The weights after a removal** of both directions. -/
theorem lookup_erase_pair :
    ((m.erase (a, b)).erase (b, a)).lookup (x, y) =
      if (x = a ∧ y = b) ∨ (x = b ∧ y = a) then none else m.lookup (x, y) := by
  rw [lookup_erase_edge, lookup_erase_edge, ite_ite_edge]

end Lookup

/-- **A write of both directions** keeps the weights symmetric. -/
theorem symm_of_write {f g : V → V → W} {a b : V} {r : W} (hsymm : ∀ x y, f x y = f y x)
    (hwrite : ∀ x y, g x y = if (x = a ∧ y = b) ∨ (x = b ∧ y = a) then r else f x y) (x y : V) :
    g x y = g y x := by
  have hswap : (x = a ∧ y = b ∨ x = b ∧ y = a) ↔ (y = a ∧ x = b ∨ y = b ∧ x = a) := by tauto
  simp only [hwrite, hswap, hsymm x y]

end Foundation
