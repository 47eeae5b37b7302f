import Mathlib.Tactic
import GfeDriver.Foundation.Runs

/-!
# Chunks of a shared counter

Workers share the items `0, …, size - 1` through a counter: each of them adds the granularity `g` to
it, atomically, and processes the chunk of `g` items that starts at the value it has read, cut at
`size`. A worker stops when it reads a value that is not below `size`. The counter is a machine
integer modulo `M`.

The values read are distinct multiples of `g` as long as the counter does not wrap, which it does
not when `size + (workers + 1) * g` is below `M`: every worker reads at most one value past the end.

## Main definitions

* `Chunks ι`, `Chunks.step`: the counter, the workers, and one atomic step of a worker
* `Chunks.Coverage`: every item is processed exactly once, under every schedule

## Main results

* `Chunks.Inv.step`, `Chunks.Inv.lt`: what a step keeps, and the measure it lowers
* `Chunks.coverage`: the coverage of the items
-/

namespace Foundation

universe u

/-- What a worker does next: read the counter, go on with a chunk, or nothing. -/
inductive ChunkPhase
  | fetch
  | process (pos stop : ℕ)
  | done
  deriving DecidableEq, Repr

namespace ChunkPhase

/-- The item is one of those that the worker has still to process. -/
def pending (i : ℕ) : ChunkPhase → ℕ
  | process pos stop => if pos ≤ i ∧ i < stop then 1 else 0
  | _ => 0

/-- The worker has stopped. -/
def stopped : ChunkPhase → ℕ
  | done => 1
  | _ => 0

/-- The steps left in a chunk. -/
def left : ChunkPhase → ℕ
  | process pos stop => stop - pos + 1
  | _ => 0

@[simp] theorem pending_fetch (i : ℕ) : fetch.pending i = 0 := rfl

@[simp] theorem pending_process (i pos stop : ℕ) :
    (process pos stop).pending i = if pos ≤ i ∧ i < stop then 1 else 0 := rfl

@[simp] theorem pending_done (i : ℕ) : done.pending i = 0 := rfl

@[simp] theorem stopped_fetch : fetch.stopped = 0 := rfl

@[simp] theorem stopped_process (pos stop : ℕ) : (process pos stop).stopped = 0 := rfl

@[simp] theorem stopped_done : done.stopped = 1 := rfl

@[simp] theorem left_fetch : fetch.left = 0 := rfl

@[simp] theorem left_process (pos stop : ℕ) : (process pos stop).left = stop - pos + 1 := rfl

@[simp] theorem left_done : done.left = 0 := rfl

end ChunkPhase

/-- The counter, the workers, and the items processed so far. -/
structure Chunks (ι : Type u) where
  next : ℕ
  phase : ι → ChunkPhase
  log : List ℕ

namespace Chunks

variable {ι : Type u}

/-- The counter is zero and no worker has started. -/
def init (ι : Type u) : Chunks ι := ⟨0, fun _ => .fetch, []⟩

section Step

variable [DecidableEq ι]

/-- One atomic step of the worker `t`. -/
def step (M g size : ℕ) (s : Chunks ι) (t : ι) : Option (Chunks ι) :=
  match s.phase t with
  | .fetch => some { s with
      next := (s.next + g) % M
      phase := Function.update s.phase t
        (if s.next < size then .process s.next (min ((s.next + g) % M) size) else .done) }
  | .process pos stop =>
    if pos < stop then some { s with
      phase := Function.update s.phase t (.process (pos + 1) stop)
      log := s.log ++ [pos] }
    else some { s with phase := Function.update s.phase t .fetch }
  | .done => none

/-- Some worker makes a step. -/
def Step (M g size : ℕ) (s s' : Chunks ι) : Prop := ∃ t, s.step M g size t = some s'

/-- **Every item is processed exactly once** under every schedule: no item is processed twice and no
other number is, no run is infinite, and when no worker can make a step all of them have stopped and
all the items are processed. -/
structure Coverage (ι : Type u) [DecidableEq ι] (M g size : ℕ) : Prop where
  once : ∀ s : Chunks ι, Relation.ReflTransGen (Step M g size) (init ι) s →
    s.log.Nodup ∧ ∀ i ∈ s.log, i < size
  terminates : ∀ run : ℕ → Chunks ι, run 0 = init ι → ∃ k, ¬Step M g size (run k) (run (k + 1))
  complete : ∀ s : Chunks ι, Relation.ReflTransGen (Step M g size) (init ι) s →
    (∀ s', ¬Step M g size s s') → (∀ t, s.phase t = .done) ∧ s.log.Perm (List.range size)

/-- **What a step does.** -/
theorem step_cases {M g size : ℕ} {s s' : Chunks ι} (h : Step M g size s s') :
    ∃ t, (s.phase t = .fetch ∧ s' = ⟨(s.next + g) % M, Function.update s.phase t
        (if s.next < size then .process s.next (min ((s.next + g) % M) size) else .done), s.log⟩) ∨
      (∃ pos stop, s.phase t = .process pos stop ∧
        (pos < stop ∧ s' = ⟨s.next, Function.update s.phase t (.process (pos + 1) stop),
          s.log ++ [pos]⟩ ∨
        stop ≤ pos ∧ s' = ⟨s.next, Function.update s.phase t .fetch, s.log⟩)) := by
  obtain ⟨t, ht⟩ := h
  refine ⟨t, ?_⟩
  unfold step at ht
  cases hp : s.phase t with
  | fetch =>
    rw [hp] at ht
    exact Or.inl ⟨rfl, (Option.some.inj ht).symm⟩
  | process pos stop =>
    rw [hp] at ht
    simp only at ht
    refine Or.inr ⟨pos, stop, rfl, ?_⟩
    split_ifs at ht with hlt
    · exact Or.inl ⟨hlt, (Option.some.inj ht).symm⟩
    · exact Or.inr ⟨Nat.le_of_not_lt hlt, (Option.some.inj ht).symm⟩
  | done =>
    rw [hp] at ht
    cases ht

/-- A worker that has not stopped can make a step. -/
theorem exists_step {M g size : ℕ} {s : Chunks ι} {t : ι} (h : s.phase t ≠ .done) :
    ∃ s', Step M g size s s' := by
  suffices hsome : (s.step M g size t).isSome by
    obtain ⟨s', hs'⟩ := Option.isSome_iff_exists.mp hsome
    exact ⟨s', t, hs'⟩
  unfold Chunks.step
  cases hp : s.phase t with
  | fetch => rfl
  | process pos stop =>
    simp only
    split_ifs <;> rfl
  | done => exact absurd hp h

end Step

/-! ## The invariant -/

section Invariant

variable [Fintype ι] {M g size : ℕ}

/-- The number of chunks. -/
def numChunks (g size : ℕ) : ℕ := (size + g - 1) / g

theorem numChunks_mul_le (g size : ℕ) : numChunks g size * g ≤ size + g - 1 :=
  Nat.div_mul_le_self _ _

theorem lt_numChunks (hg : 0 < g) {n : ℕ} : n < numChunks g size ↔ n * g < size := by
  rw [numChunks, Nat.lt_iff_add_one_le, Nat.le_div_iff_mul_le hg, Nat.succ_mul]
  omega

/-- **The invariant**: the counter is a multiple of the granularity, it is past the end once for
each worker that has stopped, and the items below it are those processed and those of the chunks
that the workers hold. -/
structure Inv (g size : ℕ) (s : Chunks ι) : Prop where
  next : ∃ n, s.next = n * g ∧ n - numChunks g size = ∑ t, (s.phase t).stopped
  covers : ∀ i, s.log.count i + ∑ t, (s.phase t).pending i =
    if i < s.next ∧ i < size then 1 else 0

/-- A worker that has not stopped is missing in the sum. -/
theorem sum_stopped_lt {phase : ι → ChunkPhase} {t : ι} (h : phase t ≠ .done) :
    ∑ t, (phase t).stopped < Fintype.card ι := by
  have hle : ∀ p : ChunkPhase, p.stopped ≤ 1 := fun p => by cases p <;> simp [ChunkPhase.stopped]
  have hlt : (phase t).stopped < 1 := by
    cases hp : phase t with
    | done => exact absurd hp h
    | fetch => exact Nat.zero_lt_one
    | process => exact Nat.zero_lt_one
  calc ∑ t, (phase t).stopped < ∑ _t : ι, 1 :=
        Finset.sum_lt_sum (fun t' _ => hle _) ⟨t, Finset.mem_univ t, hlt⟩
    _ = Fintype.card ι := by simp

theorem Inv.init (g size : ℕ) : Inv g size (init ι) where
  next := ⟨0, by simp [Chunks.init, ChunkPhase.stopped]⟩
  covers := by simp [Chunks.init, ChunkPhase.pending]

/-- The values that the workers may still read. -/
def total (ι : Type u) [Fintype ι] (g size : ℕ) : ℕ := (numChunks g size + Fintype.card ι) * g

variable {s : Chunks ι}

/-- A worker that reads the counter leaves it below the number of values to read. -/
theorem Inv.next_add_le (h : Inv g size s) {t : ι} (ht : s.phase t ≠ .done) :
    s.next + g ≤ total ι g size := by
  obtain ⟨n, hn, hstopped⟩ := h.next
  have hlt := sum_stopped_lt ht
  have hle : n + 1 ≤ numChunks g size + Fintype.card ι := by omega
  calc s.next + g = (n + 1) * g := by rw [hn, Nat.succ_mul]
    _ ≤ total ι g size := Nat.mul_le_mul_right g hle

theorem total_lt (hM : size + (Fintype.card ι + 1) * g < M) : total ι g size < M := by
  have hle := numChunks_mul_le g size
  rw [total, Nat.add_mul]
  rw [Nat.succ_mul] at hM
  omega

/-- The items once all the workers have stopped. -/
theorem Inv.perm_range [Nonempty ι] (hg : 0 < g) (h : Inv g size s)
    (hdone : ∀ t, s.phase t = .done) : s.log.Perm (List.range size) := by
  obtain ⟨n, hn, hstopped⟩ := h.next
  have hpos : 0 < Fintype.card ι := Fintype.card_pos
  have hall : ∑ t, (s.phase t).stopped = Fintype.card ι := by
    simp [hdone, ChunkPhase.stopped]
  -- the counter is past the end
  have hend : ¬s.next < size := by
    rw [hn, ← lt_numChunks hg]
    omega
  refine List.perm_iff_count.mpr fun i => ?_
  have hcovers := h.covers i
  simp only [hdone, ChunkPhase.pending, Finset.sum_const_zero, Nat.add_zero] at hcovers
  rw [hcovers, List.nodup_range.count]
  simp only [List.mem_range]
  split_ifs <;> omega

end Invariant

/-! ## One step -/

section Preservation

variable [Fintype ι] [DecidableEq ι] {M g size : ℕ} {s s' : Chunks ι}

/-- A sum over the workers after the update of one of them. -/
theorem sum_update (f : ChunkPhase → ℕ) (phase : ι → ChunkPhase) (t : ι) (p : ChunkPhase) :
    (∑ t', f (Function.update phase t p t')) + f (phase t) = (∑ t', f (phase t')) + f p := by
  have hrest : ∑ t' ∈ Finset.univ.erase t, f (Function.update phase t p t') =
      ∑ t' ∈ Finset.univ.erase t, f (phase t') := by
    refine Finset.sum_congr rfl fun t' ht' => ?_
    rw [Function.update_of_ne (Finset.ne_of_mem_erase ht')]
  rw [← Finset.add_sum_erase _ _ (Finset.mem_univ t), hrest, Function.update_self,
    ← Finset.add_sum_erase _ (fun t' => f (phase t')) (Finset.mem_univ t)]
  omega

/-- **One step** keeps the invariant. -/
theorem Inv.step (hg : 0 < g) (hM : size + (Fintype.card ι + 1) * g < M) (h : Inv g size s)
    (hstep : Step M g size s s') : Inv g size s' := by
  obtain ⟨n, hn, hstopped⟩ := h.next
  obtain ⟨t, ⟨hp, rfl⟩ | ⟨pos, stop, hp, ⟨hlt, rfl⟩ | ⟨hge, rfl⟩⟩⟩ := step_cases hstep
  · -- the counter does not wrap
    have hnext := h.next_add_le (t := t) (by rw [hp]; exact nofun)
    have hmod : (s.next + g) % M = s.next + g :=
      Nat.mod_eq_of_lt (hnext.trans_lt (total_lt hM))
    have hchunk : n < numChunks g size ↔ s.next < size := by rw [lt_numChunks hg, hn]
    rw [hmod]
    by_cases hlt : s.next < size
    · rw [if_pos hlt]
      refine ⟨⟨n + 1, by rw [hn, Nat.succ_mul], ?_⟩, fun i => ?_⟩
      · have hsum := sum_update ChunkPhase.stopped s.phase t
          (.process s.next (min (s.next + g) size))
        simp only [hp, ChunkPhase.stopped_fetch, ChunkPhase.stopped_process] at hsum
        have := hchunk.mpr hlt
        simp only
        omega
      · have hsum := sum_update (ChunkPhase.pending i) s.phase t
          (.process s.next (min (s.next + g) size))
        have hcovers := h.covers i
        simp only [hp, ChunkPhase.pending_fetch, ChunkPhase.pending_process] at hsum
        simp only
        split_ifs at hsum hcovers ⊢ <;> omega
    · rw [if_neg hlt]
      refine ⟨⟨n + 1, by rw [hn, Nat.succ_mul], ?_⟩, fun i => ?_⟩
      · have hsum := sum_update ChunkPhase.stopped s.phase t .done
        simp only [hp, ChunkPhase.stopped_fetch, ChunkPhase.stopped_done] at hsum
        have := mt hchunk.mp hlt
        simp only
        omega
      · have hsum := sum_update (ChunkPhase.pending i) s.phase t .done
        have hcovers := h.covers i
        simp only [hp, ChunkPhase.pending_fetch, ChunkPhase.pending_done] at hsum
        simp only
        split_ifs at hcovers ⊢ <;> omega
  · have hsum := sum_update ChunkPhase.stopped s.phase t (.process (pos + 1) stop)
    simp only [hp, ChunkPhase.stopped_process] at hsum
    refine ⟨⟨n, hn, by simp only; omega⟩, fun i => ?_⟩
    have hcount := sum_update (ChunkPhase.pending i) s.phase t (.process (pos + 1) stop)
    have hcovers := h.covers i
    simp only [hp, ChunkPhase.pending_process] at hcount
    simp only [List.count_append, List.count_singleton, beq_iff_eq]
    split_ifs at hcount hcovers ⊢ <;> omega
  · have hsum := sum_update ChunkPhase.stopped s.phase t .fetch
    simp only [hp, ChunkPhase.stopped_fetch, ChunkPhase.stopped_process] at hsum
    refine ⟨⟨n, hn, by simp only; omega⟩, fun i => ?_⟩
    have hcount := sum_update (ChunkPhase.pending i) s.phase t .fetch
    have hcovers := h.covers i
    simp only [hp, ChunkPhase.pending_fetch, ChunkPhase.pending_process] at hcount
    simp only
    split_ifs at hcount hcovers ⊢ <;> omega

/-- The values still to read, and the steps left in the chunks. -/
def work (g size : ℕ) (s : Chunks ι) : ℕ :=
  3 * (total ι g size - s.next) + ∑ t, (s.phase t).left

/-- **One step** lowers the work left. -/
theorem Inv.lt (hg : 0 < g) (hM : size + (Fintype.card ι + 1) * g < M) (h : Inv g size s)
    (hstep : Step M g size s s') : work g size s' < work g size s := by
  unfold work
  obtain ⟨t, ⟨hp, rfl⟩ | ⟨pos, stop, hp, ⟨hlt, rfl⟩ | ⟨hge, rfl⟩⟩⟩ := step_cases hstep
  · have hnext := h.next_add_le (t := t) (by rw [hp]; exact nofun)
    have hmod : (s.next + g) % M = s.next + g :=
      Nat.mod_eq_of_lt (hnext.trans_lt (total_lt hM))
    have hsum := sum_update ChunkPhase.left s.phase t
      (if s.next < size then .process s.next (min ((s.next + g) % M) size) else .done)
    simp only [hp, hmod, ChunkPhase.left_fetch] at hsum ⊢
    -- a chunk has at most `g` items
    split_ifs at hsum ⊢ <;>
      simp only [ChunkPhase.left_process, ChunkPhase.left_done] at hsum <;> omega
  · have hsum := sum_update ChunkPhase.left s.phase t (.process (pos + 1) stop)
    simp only [hp, ChunkPhase.left_process] at hsum ⊢
    omega
  · have hsum := sum_update ChunkPhase.left s.phase t .fetch
    simp only [hp, ChunkPhase.left_fetch, ChunkPhase.left_process] at hsum ⊢
    omega

/-! ## Coverage -/

/-- **Coverage**: every item is processed exactly once, under every schedule of the workers. -/
theorem coverage [Nonempty ι] (hg : 0 < g) (hM : size + (Fintype.card ι + 1) * g < M) :
    Coverage ι M g size := by
  have hreach : ∀ s : Chunks ι, Relation.ReflTransGen (Step M g size) (Chunks.init ι) s →
      Inv g size s :=
    fun s hs => reachable_invariant (Inv.init g size) (fun _ _ h hst => h.step hg hM hst) hs
  refine ⟨fun s hs => ?_, fun run hrun => ?_, fun s hs hfinal => ?_⟩
  · have hcovers := (hreach s hs).covers
    refine ⟨List.nodup_iff_count_le_one.mpr fun i => ?_, fun i hi => ?_⟩
    · have := hcovers i
      split_ifs at this <;> omega
    · have hpos := List.count_pos_iff.mpr hi
      have := hcovers i
      split_ifs at this <;> omega
  · exact runs_finite_of_invariant (I := Inv g size) (work g size)
      (fun _ _ h hst => ⟨h.step hg hM hst, h.lt hg hM hst⟩) run (hrun ▸ Inv.init g size)
  · have hdone : ∀ t, s.phase t = .done := fun t => by
      by_contra ht
      obtain ⟨s', hs'⟩ := exists_step ht
      exact hfinal s' hs'
    exact ⟨hdone, (hreach s hs).perm_range hg hdone⟩

end Preservation

end Chunks

end Foundation
