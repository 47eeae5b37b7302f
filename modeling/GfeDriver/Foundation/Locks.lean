import Mathlib.Data.Set.Finite.Basic

/-!
# Shared and exclusive locks

Threads hold locks and wait for locks. A thread waits for another one when it wants a lock that the
other one holds, unless both of them share it. A set of threads is deadlocked when each of them
waits for another thread of the set.

## Main results

* `LockTable.Deadlocked.exists_ring`: in a deadlock some threads both wait and are waited for
* `exists_injOn_ring`: one thread for each lock is enough for a deadlock
-/

namespace Foundation

/-- The mode of a lock. -/
inductive LockMode
  | shared
  | exclusive
  deriving DecidableEq

/-- Two threads have one lock together only if they share it. -/
def LockMode.Compatible (m m' : LockMode) : Prop := m = .shared ∧ m' = .shared

/-- The locks that each thread holds, and those that it asks for. -/
structure LockTable (ι ℓ : Type*) where
  held : ι → ℓ → LockMode → Prop
  wanted : ι → ℓ → LockMode → Prop

namespace LockTable

variable {ι ℓ : Type*} (T : LockTable ι ℓ)

/-- The lock is available in a mode. -/
def Grants (l : ℓ) (m : LockMode) : Prop := ∀ u m', T.held u l m' → m.Compatible m'

def WaitsFor (t u : ι) : Prop :=
  t ≠ u ∧ ∃ l m m', T.wanted t l m ∧ T.held u l m' ∧ ¬m.Compatible m'

/-- Some threads wait each for another one of them. -/
def Deadlocked : Prop := ∃ D : Finset ι, D.Nonempty ∧ ∀ t ∈ D, ∃ u ∈ D, T.WaitsFor t u

variable {T}

/-- **The ring of a deadlock**: threads that wait for one of them, and for each of which one
waits. -/
theorem Deadlocked.exists_ring (h : T.Deadlocked) :
    ∃ D : Finset ι, D.Nonempty ∧ ∀ u ∈ D, (∃ t, T.WaitsFor t u) ∧ ∃ u' ∈ D, T.WaitsFor u u' := by
  classical
  obtain ⟨D, ⟨t, ht⟩, hwaits⟩ := h
  refine ⟨D.filter fun u => ∃ t ∈ D, T.WaitsFor t u, ?_, fun u hu => ?_⟩
  · obtain ⟨u, hu, htu⟩ := hwaits t ht
    exact ⟨u, Finset.mem_filter.mpr ⟨hu, t, ht, htu⟩⟩
  · obtain ⟨hu, t, -, htu⟩ := Finset.mem_filter.mp hu
    obtain ⟨u', hu', huu'⟩ := hwaits u hu
    exact ⟨⟨t, htu⟩, u', Finset.mem_filter.mpr ⟨hu', u, hu, huu'⟩, huu'⟩

end LockTable

/-- **One thread for each lock**: a ring of threads, in which the one that holds a lock is replaced
by any other one that holds it. -/
theorem exists_injOn_ring {ι ℓ : Type*} {D : Finset ι} {v : ι → ℓ} {R : ι → ℓ → Prop}
    (hD : D.Nonempty) (h : ∀ t ∈ D, ∃ u ∈ D, R t (v u)) :
    ∃ D' ⊆ D, D'.Nonempty ∧ Set.InjOn v D' ∧ ∀ t ∈ D', ∃ u ∈ D', R t (v u) := by
  classical
  obtain ⟨D', hsub, -, hinj, himage⟩ := ((D : Set ι).surjOn_image v).exists_bijOn_subset
  lift D' to Finset ι using D.finite_toSet.subset hsub
  refine ⟨D', Finset.coe_subset.mp hsub, ?_, hinj, fun t ht => ?_⟩
  · obtain ⟨t, ht⟩ := hD
    obtain ⟨t', ht', -⟩ := himage (Set.mem_image_of_mem v ht)
    exact ⟨t', ht'⟩
  · obtain ⟨u, hu, hR⟩ := h t (hsub ht)
    obtain ⟨u', hu', heq⟩ := himage (Set.mem_image_of_mem v hu)
    exact ⟨u', hu', heq ▸ hR⟩

end Foundation
