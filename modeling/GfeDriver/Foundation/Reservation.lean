import Mathlib.Tactic

/-!
# Reserved slots of a queue

Several workers append their lists to one queue. A worker reserves as many slots as its list is
long, with one atomic addition to the counter of the slots in use, and copies the list there later.
Whatever the order of the reservations and of the copies, the slots of two workers are disjoint, and
when all the copies are made the queue has the lists one after the other.

## Main definitions

* `window q b n`: the `n` slots of `q` from `b` on
* `fill q b l`: the queue after `l` was copied to the slots from `b` on
* `Tiled slot lists k order n`: adjacent slots
* `Reserved`: the invariant of the reservations and of the copies

## Main results

* `Reserved.reserve`, `Reserved.copy`: a reservation and a copy keep the invariant
* `Reserved.disjoint`: the slots of two workers are disjoint
* `Reserved.exists_window`: what the queue has in the end
-/

namespace Foundation

namespace Reservation

universe u

variable {α τ : Type u}

/-! ## Windows -/

section Window

variable {q q' : ℕ → α} {b m n p : ℕ} {l : List α}

/-- The `n` slots from `b` on. -/
def window (q : ℕ → α) (b n : ℕ) : List α := (List.range n).map fun j => q (b + j)

/-- A list is copied to the slots from `b` on. -/
def fill (q : ℕ → α) (b : ℕ) (l : List α) (p : ℕ) : α :=
  if b ≤ p then l.getD (p - b) (q p) else q p

@[simp] theorem length_window : (window q b n).length = n := by simp [window]

theorem window_add : window q b (m + n) = window q b m ++ window q (b + m) n := by
  simp [window, List.range_add, Function.comp_def, Nat.add_assoc]

theorem window_congr (h : ∀ p, b ≤ p → p < b + n → q p = q' p) :
    window q b n = window q' b n := by
  refine List.map_congr_left fun j hj => h _ (Nat.le_add_right b j) ?_
  exact Nat.add_lt_add_left (List.mem_range.mp hj) b

theorem mem_window {u : α} : u ∈ window q b n ↔ ∃ j < n, q (b + j) = u := by
  simp [window]

theorem fill_of_lt (h : p < b) : fill q b l p = q p := by
  rw [fill, if_neg (Nat.not_le.mpr h)]

theorem fill_of_le (h : b + l.length ≤ p) : fill q b l p = q p := by
  rw [fill, if_pos (by omega), List.getD_eq_getElem?_getD, List.getElem?_eq_none (by omega)]
  rfl

theorem window_fill : window (fill q b l) b l.length = l := by
  refine List.ext_getElem length_window fun j hj hj' => ?_
  simp only [window, List.getElem_map, List.getElem_range]
  rw [fill, if_pos (Nat.le_add_right b j), Nat.add_sub_cancel_left, List.getD_eq_getElem?_getD,
    List.getElem?_eq_getElem hj', Option.getD_some]

end Window

/-! ## Adjacent slots -/

/-- The workers in the order of their reservations have adjacent slots from `k` up to `n`, as many
as their lists are long. -/
def Tiled (slot : τ → Option ℕ) (lists : τ → List α) : ℕ → List τ → ℕ → Prop
  | k, [], n => k = n
  | k, w :: order, n => slot w = some k ∧ Tiled slot lists (k + (lists w).length) order n

section Tiled

variable {slot : τ → Option ℕ} {lists : τ → List α} {order : List τ} {k n : ℕ}

theorem Tiled.length (h : Tiled slot lists k order n) : n = k + (order.flatMap lists).length := by
  induction order generalizing k with
  | nil => exact h.symm
  | cons w order ih =>
    rw [ih h.2, List.flatMap_cons, List.length_append, Nat.add_assoc]

theorem Tiled.le (h : Tiled slot lists k order n) : k ≤ n := by
  rw [h.length]
  exact Nat.le_add_right k _

/-- The slots of a worker lie between those of the first and of the last one. -/
theorem Tiled.bounds (h : Tiled slot lists k order n) {w : τ} (hw : w ∈ order) {a : ℕ}
    (ha : slot w = some a) : k ≤ a ∧ a + (lists w).length ≤ n := by
  induction order generalizing k with
  | nil => exact absurd hw List.not_mem_nil
  | cons v order ih =>
    rcases List.mem_cons.mp hw with rfl | hw
    · obtain rfl : k = a := Option.some.inj (h.1.symm.trans ha)
      exact ⟨le_refl k, h.2.le⟩
    · obtain ⟨hk, hn⟩ := ih h.2 hw
      exact ⟨by omega, hn⟩

/-- **The slots of two workers** are disjoint. -/
theorem Tiled.disjoint (h : Tiled slot lists k order n) {w w' : τ} (hne : w ≠ w') (hw : w ∈ order)
    (hw' : w' ∈ order) {a b : ℕ} (ha : slot w = some a) (hb : slot w' = some b) :
    a + (lists w).length ≤ b ∨ b + (lists w').length ≤ a := by
  induction order generalizing k with
  | nil => exact absurd hw List.not_mem_nil
  | cons v order ih =>
    rcases List.mem_cons.mp hw with rfl | hmem
    · obtain rfl : k = a := Option.some.inj (h.1.symm.trans ha)
      have hmem' : w' ∈ order := (List.mem_cons.mp hw').resolve_left hne.symm
      exact .inl (h.2.bounds hmem' hb).1
    · rcases List.mem_cons.mp hw' with rfl | hmem'
      · obtain rfl : k = b := Option.some.inj (h.1.symm.trans hb)
        exact .inr (h.2.bounds hmem ha).1
      · exact ih h.2 hmem hmem'

/-- The tiles depend on the slots and the lists of the workers that have some. -/
theorem Tiled.congr {slot' : τ → Option ℕ} {lists' : τ → List α} (h : Tiled slot lists k order n)
    (heq : ∀ w ∈ order, slot' w = slot w ∧ lists' w = lists w) :
    Tiled slot' lists' k order n := by
  induction order generalizing k with
  | nil => exact h
  | cons w order ih =>
    obtain ⟨hslot, hlist⟩ := heq w List.mem_cons_self
    refine ⟨hslot.trans h.1, ?_⟩
    rw [hlist]
    exact ih h.2 fun v hv => heq v (List.mem_cons_of_mem w hv)

/-- One more reservation. -/
theorem Tiled.snoc (h : Tiled slot lists k order n) {w : τ} (hw : slot w = some n) :
    Tiled slot lists k (order ++ [w]) (n + (lists w).length) := by
  induction order generalizing k with
  | nil =>
    obtain rfl : k = n := h
    exact ⟨hw, rfl⟩
  | cons v order ih => exact ⟨h.1, ih h.2⟩

/-- Adjacent slots hold the lists one after the other. -/
theorem Tiled.window_eq {q : ℕ → α} {b : ℕ} (h : Tiled slot lists k order n)
    (hq : ∀ w ∈ order, ∀ a, slot w = some a →
      window q (b + a) (lists w).length = lists w) :
    window q (b + k) (n - k) = order.flatMap lists := by
  induction order generalizing k with
  | nil =>
    obtain rfl : k = n := h
    rw [Nat.sub_self]
    rfl
  | cons w order ih =>
    have hsplit : n - k = (lists w).length + (n - (k + (lists w).length)) := by
      have := h.2.le
      omega
    rw [hsplit, window_add, List.flatMap_cons, hq w List.mem_cons_self k h.1, Nat.add_assoc,
      ih h.2 fun v hv => hq v (List.mem_cons_of_mem w hv)]

end Tiled

/-! ## Reservations and copies -/

/-- The workers that made their reservations have the slots from `base` on, `count` of them, and
those that made their copies have their lists there. -/
structure Reserved (base : ℕ) (queue : ℕ → α) (count : ℕ) (slot : τ → Option ℕ)
    (lists : τ → List α) (copied : τ → Prop) : Prop where
  tiled : ∃ order : List τ, order.Nodup ∧ (∀ w, w ∈ order ↔ slot w ≠ none) ∧
    Tiled slot lists 0 order count
  copied : ∀ w, copied w → ∀ k, slot w = some k →
    window queue (base + k) (lists w).length = lists w

namespace Reserved

variable {base count : ℕ} {queue : ℕ → α} {slot : τ → Option ℕ} {lists : τ → List α}
  {copied : τ → Prop} {w : τ} {k : ℕ}

theorem start : Reserved base queue 0 (fun _ => none) lists copied :=
  ⟨⟨[], List.nodup_nil, fun w => by simp, rfl⟩, nofun⟩

/-- A step of a worker that neither reserves nor copies. -/
theorem congr {slot' : τ → Option ℕ} {lists' : τ → List α} {copied' : τ → Prop}
    (h : Reserved base queue count slot lists copied) (hslot : ∀ j, slot' j = slot j)
    (hlists : ∀ j, slot j ≠ none → lists' j = lists j) (hcopied : ∀ j, copied' j → copied j) :
    Reserved base queue count slot' lists' copied' := by
  obtain ⟨order, hnodup, hmem, htiled⟩ := h.tiled
  refine ⟨⟨order, hnodup, fun j => ?_, htiled.congr fun j hj => ⟨hslot j, ?_⟩⟩,
    fun j hj a ha => ?_⟩
  · rw [hslot]
    exact hmem j
  · exact hlists j ((hmem j).mp hj)
  · rw [hslot] at ha
    rw [hlists j (by rw [ha]; exact Option.some_ne_none a)]
    exact h.copied j (hcopied j hj) a ha

/-- **A reservation.** -/
theorem reserve (slot' : τ → Option ℕ) (copied' : τ → Prop)
    (h : Reserved base queue count slot lists copied) (hw : slot w = none) (hslot : slot' w = some count)
    (hothers : ∀ j, j ≠ w → slot' j = slot j) (hcopied : ∀ j, j ≠ w → copied' j → copied j)
    (hnil : copied' w → lists w = []) :
    Reserved base queue (count + (lists w).length) slot' lists copied' := by
  obtain ⟨order, hnodup, hmem, htiled⟩ := h.tiled
  have hfresh : w ∉ order := fun hmemw => (hmem w).mp hmemw hw
  have hold : ∀ j ∈ order, j ≠ w := fun j hj hjw => hfresh (hjw ▸ hj)
  refine ⟨⟨order ++ [w], ?_, fun j => ?_, ?_⟩, fun j hj a ha => ?_⟩
  · exact List.nodup_append.mpr ⟨hnodup, List.nodup_singleton w, fun a ha b hb hab =>
      hold a ha (hab.trans (List.mem_singleton.mp hb))⟩
  · by_cases hjw : j = w
    · subst hjw
      simp [hslot]
    · rw [hothers j hjw, ← hmem]
      simp [hjw]
  · exact (htiled.congr fun j hj => ⟨hothers j (hold j hj), rfl⟩).snoc hslot
  · by_cases hjw : j = w
    · subst hjw
      -- an empty list needs no copy
      rw [hnil hj]
      rfl
    · rw [hothers j hjw] at ha
      exact h.copied j (hcopied j hjw hj) a ha

/-- **A copy** leaves the slots of the other workers alone. -/
theorem copy (copied' : τ → Prop) (h : Reserved base queue count slot lists copied)
    (hw : slot w = some k) (hcopied : ∀ j, j ≠ w → copied' j → copied j) :
    Reserved base (fill queue (base + k) (lists w)) count slot lists copied' := by
  obtain ⟨order, hnodup, hmem, htiled⟩ := h.tiled
  refine ⟨⟨order, hnodup, hmem, htiled⟩, fun j hj a ha => ?_⟩
  by_cases hjw : j = w
  · subst hjw
    obtain rfl : k = a := Option.some.inj (hw.symm.trans ha)
    exact window_fill
  · have hdisj := htiled.disjoint hjw ((hmem j).mpr (by simp [ha])) ((hmem w).mpr (by simp [hw]))
      ha hw
    refine Eq.trans (window_congr fun p hp hp' => ?_) (h.copied j (hcopied j hjw hj) a ha)
    rcases hdisj with hdisj | hdisj
    · exact fill_of_lt (by omega)
    · exact fill_of_le (by omega)

/-- **The slots of a worker** are in use, and those of another worker are others. -/
theorem disjoint (h : Reserved base queue count slot lists copied) (hw : slot w = some k) :
    k + (lists w).length ≤ count ∧ ∀ j ≠ w, ∀ a, slot j = some a →
      k + (lists w).length ≤ a ∨ a + (lists j).length ≤ k := by
  obtain ⟨order, -, hmem, htiled⟩ := h.tiled
  have hmemw : w ∈ order := (hmem w).mpr (by simp [hw])
  refine ⟨(htiled.bounds hmemw hw).2, fun j hne a ha => ?_⟩
  exact htiled.disjoint hne.symm hmemw ((hmem j).mpr (by simp [ha])) hw ha

/-- **The slots in use** are as many as the entries of the lists, and when the copies are made the
queue has the lists one after the other. -/
theorem exists_window (h : Reserved base queue count slot lists copied) :
    ∃ order : List τ, order.Nodup ∧ (∀ j, j ∈ order ↔ slot j ≠ none) ∧
      count = (order.flatMap lists).length ∧
      ((∀ j, slot j ≠ none → copied j) → window queue base count = order.flatMap lists) := by
  obtain ⟨order, hnodup, hmem, htiled⟩ := h.tiled
  refine ⟨order, hnodup, hmem, ?_, fun hdone => ?_⟩
  · rw [htiled.length, Nat.zero_add]
  · exact htiled.window_eq fun j hj a ha => h.copied j (hdone j ((hmem j).mp hj)) a ha

end Reserved

end Reservation

end Foundation
