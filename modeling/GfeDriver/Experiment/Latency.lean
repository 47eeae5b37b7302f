import GfeDriver.Experiment.Aging2Run

/-!
# Latencies of the aging experiment

When latencies are measured, `prepare_latencies` allocates one element for each operation of the log
before the queues of a round are executed, and gives each worker two slices: the insertions of the
workers come first, then their deletions from the offset `m_latencies_num_insertions` on. The sizes
of the slices are the counters of the workers, which count all the rounds so far, and the offset
adds up their sum in every round.

So the slices never overlap, and the insertions stay within bounds. The deletions do so in the only
round of `execute`. In a later round of `execute_synchronized_small_batch` the insertions of the
first round are counted again in the offset, and a deletion may write after the end of the array.

## Main definitions

* `insertionsBy`, `deletionsBy`: the operations of a worker
* `insertionSlots`, `deletionSlots`, `roundSlots`: the elements that a round writes
* `LatencySafe`: all the writes are within bounds and distinct
* `Fits`: the slices that are used end within bounds

## Main results

* `nodup_roundSlots`: the slices do not overlap
* `latencySafe_iff`: when the writes are safe
* `latencySafe_execute`: they are in the only round of `execute`
-/

namespace GfeDriver

namespace Aging2

open Foundation

variable {W : Type} [LinearOrder W] [Zero W]

/-! ## The slices -/

/-- The number of insertions in a list of operations. -/
def insertionsIn (l : List (WeightedEdge W)) : ℕ := l.countP fun op => 0 ≤ op.weight

/-- The number of deletions in a list of operations. -/
def deletionsIn (l : List (WeightedEdge W)) : ℕ := l.countP fun op => ¬0 ≤ op.weight

/-- The number of insertions that the worker `i` owns. -/
def insertionsBy (p : Parameters W) (i : Fin p.numThreads) (l : List (WeightedEdge W)) : ℕ :=
  insertionsIn (l.filter (owns p (BitVec.ofNat 32 i)))

/-- The number of deletions that the worker `i` owns. -/
def deletionsBy (p : Parameters W) (i : Fin p.numThreads) (l : List (WeightedEdge W)) : ℕ :=
  deletionsIn (l.filter (owns p (BitVec.ofNat 32 i)))

/-- The insertions of all the workers in the first rounds, added up over the rounds. -/
def deletionStart (p : Parameters W) (done : List (Round W)) : ℕ :=
  ((List.range done.length).map fun k =>
    ∑ i, insertionsBy p i (logOf (done.take (k + 1)))).sum

/-- The elements for the insertions of the worker `i` in the last of the rounds `done`. -/
def insertionSlots (p : Parameters W) (done : List (Round W)) (batches : Round W)
    (i : Fin p.numThreads) : List ℕ :=
  List.range' (∑ j ∈ Finset.Iio i, insertionsBy p j (logOf done))
    (insertionsBy p i batches.flatten)

/-- The elements for the deletions of the worker `i` in the last of the rounds `done`. -/
def deletionSlots (p : Parameters W) (done : List (Round W)) (batches : Round W)
    (i : Fin p.numThreads) : List ℕ :=
  List.range' (deletionStart p done + ∑ j ∈ Finset.Iio i, deletionsBy p j (logOf done))
    (deletionsBy p i batches.flatten)

/-- The elements that a round writes. -/
def roundSlots (p : Parameters W) (done : List (Round W)) (batches : Round W) : List ℕ :=
  (List.finRange p.numThreads).flatMap fun i =>
    insertionSlots p done batches i ++ deletionSlots p done batches i

/-- **The writes are safe**: in every reachable state, the elements written since the array was
allocated are within its bounds, and no element was written twice. -/
def LatencySafe (p : Parameters W) (random : Fin p.numThreads → Random W)
    (rounds : List (Round W)) (g : Graph W) : Prop :=
  ∀ s, Reachable p random rounds g s →
    (∀ k ∈ s.written, k < (logOf rounds).length) ∧ s.written.Nodup

/-- **The slices that are used end within bounds**, in every round and for every worker. -/
def Fits (p : Parameters W) (rounds : List (Round W)) : Prop :=
  ∀ before batches after, rounds = before ++ batches :: after → ∀ i : Fin p.numThreads,
    (0 < insertionsBy p i batches.flatten →
      ∑ j ∈ Finset.Iio i, insertionsBy p j (logOf (before ++ [batches])) +
        insertionsBy p i batches.flatten ≤ (logOf rounds).length) ∧
    (0 < deletionsBy p i batches.flatten →
      deletionStart p (before ++ [batches]) +
          ∑ j ∈ Finset.Iio i, deletionsBy p j (logOf (before ++ [batches])) +
        deletionsBy p i batches.flatten ≤ (logOf rounds).length)

theorem deletionStart_append (p : Parameters W) (done : List (Round W)) (batches : Round W) :
    deletionStart p (done ++ [batches]) =
      deletionStart p done + ∑ i, insertionsBy p i (logOf (done ++ [batches])) := by
  have hsame : ∀ k ∈ List.range done.length,
      (∑ i, insertionsBy p i (logOf ((done ++ [batches]).take (k + 1)))) =
        ∑ i, insertionsBy p i (logOf (done.take (k + 1))) := by
    intro k hk
    rw [List.take_append_of_le_length (List.mem_range.mp hk)]
  have hlast : (done ++ [batches]).take (done.length + 1) = done ++ [batches] :=
    List.take_of_length_le (by simp)
  rw [deletionStart, List.length_append, List.length_singleton, List.range_succ, List.map_append,
    List.sum_append, List.map_congr_left hsame]
  simp [deletionStart, hlast]

/-- A round counts what its last round has. -/
theorem insertionsBy_append_le (p : Parameters W) (done : List (Round W)) (batches : Round W)
    (i : Fin p.numThreads) :
    insertionsBy p i batches.flatten ≤ insertionsBy p i (logOf (done ++ [batches])) := by
  simp [insertionsBy, insertionsIn, logOf_append]

theorem deletionsBy_append_le (p : Parameters W) (done : List (Round W)) (batches : Round W)
    (i : Fin p.numThreads) :
    deletionsBy p i batches.flatten ≤ deletionsBy p i (logOf (done ++ [batches])) := by
  simp [deletionsBy, deletionsIn, logOf_append]

/-- Slices at running offsets do not overlap. -/
theorem sum_Iio_add_le {n : ℕ} (count : Fin n → ℕ) {i j : Fin n} (h : i < j) :
    ∑ k ∈ Finset.Iio i, count k + count i ≤ ∑ k ∈ Finset.Iio j, count k := by
  have hsub : insert i (Finset.Iio i) ⊆ Finset.Iio j := by
    intro k hk
    rcases Finset.mem_insert.mp hk with rfl | hk
    · exact Finset.mem_Iio.mpr h
    · exact Finset.mem_Iio.mpr ((Finset.mem_Iio.mp hk).trans h)
  have hle := Finset.sum_le_sum_of_subset (f := count) hsub
  rw [Finset.sum_insert (by simp), Nat.add_comm] at hle
  exact hle

theorem sum_Iio_add_le_sum {n : ℕ} (count : Fin n → ℕ) (i : Fin n) :
    ∑ k ∈ Finset.Iio i, count k + count i ≤ ∑ k, count k := by
  have hle := Finset.sum_le_sum_of_subset (f := count)
    (Finset.subset_univ (insert i (Finset.Iio i)))
  rw [Finset.sum_insert (by simp), Nat.add_comm] at hle
  exact hle

/-- **The slices of a round do not overlap.** -/
theorem nodup_roundSlots (p : Parameters W) (done : List (Round W)) (batches : Round W) :
    (roundSlots p (done ++ [batches]) batches).Nodup := by
  set l := logOf (done ++ [batches]) with hl
  -- the insertions end where the deletions start
  have hbelow : ∀ i, ∑ j ∈ Finset.Iio i, insertionsBy p j l + insertionsBy p i l ≤
      deletionStart p (done ++ [batches]) := by
    intro i
    rw [deletionStart_append]
    exact (sum_Iio_add_le_sum _ i).trans (Nat.le_add_left _ _)
  have hins := fun i => insertionsBy_append_le p done batches i
  have hdel := fun i => deletionsBy_append_le p done batches i
  rw [roundSlots, List.nodup_flatMap]
  refine ⟨fun i _ => ?_, ?_⟩
  · refine List.nodup_append'.mpr ⟨List.nodup_range', List.nodup_range', ?_⟩
    intro k hk hk'
    simp only [insertionSlots, deletionSlots, List.mem_range'_1, ← hl] at hk hk'
    have := hbelow i
    have := hins i
    rw [← hl] at this
    omega
  · refine (List.pairwise_lt_finRange p.numThreads).imp fun {i j} hij => ?_
    intro k hk hk'
    simp only [insertionSlots, deletionSlots, List.mem_append, List.mem_range'_1, ← hl] at hk hk'
    have := hbelow i
    have := hbelow j
    have := hins i
    have := hins j
    have := hdel i
    have := sum_Iio_add_le (fun k => insertionsBy p k l) hij
    have := sum_Iio_add_le (fun k => deletionsBy p k l) hij
    rw [← hl] at *
    omega

/-- The elements of a round are within bounds when its slices are. -/
theorem forall_roundSlots_lt_iff (p : Parameters W) (done : List (Round W)) (batches : Round W)
    (n : ℕ) :
    (∀ k ∈ roundSlots p done batches, k < n) ↔ ∀ i : Fin p.numThreads,
      (0 < insertionsBy p i batches.flatten →
        ∑ j ∈ Finset.Iio i, insertionsBy p j (logOf done) + insertionsBy p i batches.flatten ≤ n) ∧
      (0 < deletionsBy p i batches.flatten →
        deletionStart p done + ∑ j ∈ Finset.Iio i, deletionsBy p j (logOf done) +
          deletionsBy p i batches.flatten ≤ n) := by
  -- a slice that is not empty is bounded by its last element
  have hrange : ∀ a c, (∀ k ∈ List.range' a c, k < n) ↔ (0 < c → a + c ≤ n) := by
    intro a c
    constructor
    · intro h hc
      have := h (a + c - 1) (by rw [List.mem_range'_1]; omega)
      omega
    · intro h k hk
      rw [List.mem_range'_1] at hk
      have := h (by omega)
      omega
  simp only [roundSlots, List.mem_flatMap, List.mem_finRange, true_and, List.mem_append]
  constructor
  · intro h i
    exact ⟨(hrange _ _).mp fun k hk => h k ⟨i, Or.inl hk⟩,
      (hrange _ _).mp fun k hk => h k ⟨i, Or.inr hk⟩⟩
  · rintro h k ⟨i, hk | hk⟩
    · exact (hrange _ _).mpr (h i).1 k hk
    · exact (hrange _ _).mpr (h i).2 k hk

/-! ## The counters and the pointers of a worker -/

section Worker

variable {p : Parameters W}

/-- **The counters** after a batch. -/
theorem counters_mainLoadEdges (random : Random W) (worker : Worker W)
    (edges : List (WeightedEdge W)) :
    (mainLoadEdges p random worker edges).numEdgeInsertions = worker.numEdgeInsertions +
        insertionsIn (edges.filter (owns p worker.workerId)) ∧
      (mainLoadEdges p random worker edges).numEdgeDeletions = worker.numEdgeDeletions +
        deletionsIn (edges.filter (owns p worker.workerId)) ∧
      (mainLoadEdges p random worker edges).workerId = worker.workerId := by
  let P : List (WeightedEdge W) → Worker W → Prop := fun done w =>
    w.numEdgeInsertions = worker.numEdgeInsertions +
        insertionsIn (done.filter (owns p worker.workerId)) ∧
      w.numEdgeDeletions = worker.numEdgeDeletions +
        deletionsIn (done.filter (owns p worker.workerId)) ∧ w.workerId = worker.workerId
  have hend : P edges (mainLoadEdges p random worker edges) := by
    -- the counters of the operations loaded so far
    apply foldl_prefix P
    · exact ⟨rfl, rfl, rfl⟩
    · rintro done op rest w - ⟨hins, hdel, hid⟩
      by_cases hown : owns p worker.workerId op = true
      · simp only [P, hid, hown, if_true, pushEdge, hins, hdel, List.filter_append,
          List.filter_cons_of_pos hown, List.filter_nil, insertionsIn, deletionsIn,
          List.countP_append, List.countP_singleton]
        refine ⟨?_, ?_, trivial⟩
        · simp [Nat.add_assoc]
        · by_cases hop : 0 ≤ op.weight
          · simp [hop]
          · simp [hop, Nat.add_assoc]
      · simp only [P, hid, hown, if_false, List.filter_append, List.filter_cons_of_neg hown,
          List.filter_nil, List.append_nil, Bool.false_eq_true]
        exact ⟨hins, hdel, trivial⟩
  exact hend

/-- The counters are those of the log when the queue stands for it. -/
theorem counts_of_stored {log stored : List (WeightedEdge W)} (h : List.Forall₂ Stored log stored) :
    insertionsIn stored = insertionsIn log ∧ deletionsIn stored = deletionsIn log := by
  induction h with
  | nil => exact ⟨rfl, rfl⟩
  | @cons op stored₀ log stored hop _ ih =>
    obtain ⟨hins, hdel⟩ := ih
    simp only [insertionsIn, deletionsIn, List.countP_cons, hop.nonneg] at hins hdel ⊢
    exact ⟨by rw [hins], by rw [hdel]⟩

/-- Executing updates does not change the counters. -/
theorem counters_graphExecuteBatchUpdates (random : Random W) (s : Execution W)
    (l : List (WeightedEdge W)) :
    (graphExecuteBatchUpdates p random s l).worker.numEdgeInsertions = s.worker.numEdgeInsertions ∧
      (graphExecuteBatchUpdates p random s l).worker.numEdgeDeletions =
        s.worker.numEdgeDeletions := by
  let P : List (WeightedEdge W) → Execution W → Prop := fun _ s' =>
    s'.worker.numEdgeInsertions = s.worker.numEdgeInsertions ∧
      s'.worker.numEdgeDeletions = s.worker.numEdgeDeletions
  have hend : P l (graphExecuteBatchUpdates p random s l) := by
    apply foldl_prefix P
    · exact ⟨rfl, rfl⟩
    · intro _ update _ s' _ hs'
      unfold graphExecuteUpdate
      split_ifs <;> exact hs'
  exact hend

/-- **The elements that a worker writes**: those from its two pointers on. -/
theorem slots_graphExecuteBatchUpdates (random : Random W) (s : Execution W)
    (l : List (WeightedEdge W)) {a b : ℕ} (ha : s.worker.latencyInsertions = some a)
    (hb : s.worker.latencyDeletions = some b) :
    ∃ requests, (graphExecuteBatchUpdates p random s l).requests = s.requests ++ requests ∧
      (requests.filterMap Request.slot).Perm
        (List.range' a (insertionsIn l) ++ List.range' b (deletionsIn l)) := by
  induction l generalizing s a b with
  | nil => exact ⟨[], by simp [graphExecuteBatchUpdates], by simp [insertionsIn, deletionsIn]⟩
  | cons update l ih =>
    -- an insertion takes the next slot of the first slice, a deletion of the second
    by_cases hins : 0 ≤ update.weight
    · have hstep : (graphExecuteUpdate p random s update).worker.latencyInsertions = some (a + 1) ∧
          (graphExecuteUpdate p random s update).worker.latencyDeletions = some b ∧
          ∃ call, (graphExecuteUpdate p random s update).requests =
            s.requests ++ [⟨call, some a⟩] := by
        simp only [graphExecuteUpdate, hins, if_true, graphInsertEdge, ha, hb, Option.map_some]
        exact ⟨trivial, trivial, _, rfl⟩
      obtain ⟨ha', hb', call, hrequest⟩ := hstep
      obtain ⟨requests, hrequests, hperm⟩ := ih (graphExecuteUpdate p random s update) ha' hb'
      refine ⟨⟨call, some a⟩ :: requests, ?_, ?_⟩
      · rw [hrequest, List.append_assoc] at hrequests
        exact hrequests
      · have hcounts : insertionsIn (update :: l) = insertionsIn l + 1 ∧
            deletionsIn (update :: l) = deletionsIn l := by
          simp [insertionsIn, deletionsIn, hins]
        rw [hcounts.1, hcounts.2, List.range'_succ]
        exact hperm.cons a
    · have hstep : (graphExecuteUpdate p random s update).worker.latencyInsertions = some a ∧
          (graphExecuteUpdate p random s update).worker.latencyDeletions = some (b + 1) ∧
          ∃ call, (graphExecuteUpdate p random s update).requests =
            s.requests ++ [⟨call, some b⟩] := by
        simp only [graphExecuteUpdate, hins, if_false, graphRemoveEdge, ha, hb, Option.map_some]
        exact ⟨trivial, trivial, _, rfl⟩
      obtain ⟨ha', hb', call, hrequest⟩ := hstep
      obtain ⟨requests, hrequests, hperm⟩ := ih (graphExecuteUpdate p random s update) ha' hb'
      refine ⟨⟨call, some b⟩ :: requests, ?_, ?_⟩
      · rw [hrequest, List.append_assoc] at hrequests
        exact hrequests
      · have hcounts : insertionsIn (update :: l) = insertionsIn l ∧
            deletionsIn (update :: l) = deletionsIn l + 1 := by
          have hneg := not_le.mp hins
          simp [insertionsIn, deletionsIn, hneg]
        rw [hcounts.1, hcounts.2, List.range'_succ]
        exact (hperm.cons b).trans List.perm_middle.symm

/-- **The elements that a worker writes in a round.** -/
theorem slots_mainExecuteUpdates {log : List (WeightedEdge W)} {worker : Worker W}
    (h : Queued p log worker) (random : Random W) {a b : ℕ}
    (ha : worker.latencyInsertions = some a) (hb : worker.latencyDeletions = some b) :
    ((mainExecuteUpdates p random worker).requests.filterMap Request.slot).Perm
        (List.range' a (insertionsIn (log.filter (owns p worker.workerId))) ++
          List.range' b (deletionsIn (log.filter (owns p worker.workerId)))) ∧
      (mainExecuteUpdates p random worker).worker.numEdgeInsertions = worker.numEdgeInsertions ∧
      (mainExecuteUpdates p random worker).worker.numEdgeDeletions = worker.numEdgeDeletions := by
  obtain ⟨hins, hdel⟩ := counts_of_stored h.stored
  obtain ⟨requests, hrequests, hperm⟩ := slots_graphExecuteBatchUpdates (p := p) random
    ⟨worker, []⟩ worker.updates.flatten ha hb
  rw [mainExecuteUpdates_eq random worker h.size]
  refine ⟨?_, counters_graphExecuteBatchUpdates random ⟨worker, []⟩ _⟩
  rw [← hins, ← hdel]
  show ((graphExecuteBatchUpdates p random ⟨worker, []⟩
    worker.updates.flatten).requests.filterMap Request.slot).Perm _
  rw [hrequests]
  exact hperm

end Worker

/-! ## The writes of a run -/

section Runs

variable {p : Parameters W} {random : Fin p.numThreads → Random W} {rounds : List (Round W)}
  {g : Graph W}

/-- The elements that the workers have yet to write. -/
def pendingSlots {n : ℕ} {G : Type} (s : State n G W) : List ℕ :=
  (List.finRange n).flatMap fun i => (s.pending i).filterMap Request.slot

/-- The counters of the workers after the rounds `done`. -/
structure Counted (p : Parameters W) (done : List (Round W))
    (workers : Fin p.numThreads → Worker W) : Prop where
  insertions : ∀ i, (workers i).numEdgeInsertions = insertionsBy p i (logOf done)
  deletions : ∀ i, (workers i).numEdgeDeletions = deletionsBy p i (logOf done)

/-- The elements of the last round, if any. -/
def lastSlots (p : Parameters W) (done : List (Round W)) : List ℕ :=
  match done.getLast? with
  | none => []
  | some batches => roundSlots p done batches

/-- **The invariant of the writes**: those made and those to come are the elements of the round. -/
structure LatencyInv (p : Parameters W) (rounds : List (Round W))
    (s : State p.numThreads (Graph W) W) : Prop where
  idle : ∀ i, (s.workers i).updates = [] ∧ (s.workers i).workerId = BitVec.ofNat 32 i
  slots : ∃ done, rounds = done ++ s.rounds ∧ Counted p done s.workers ∧
    s.latenciesNumInsertions = deletionStart p done ∧
    (s.written ++ pendingSlots s).Perm (lastSlots p done)

theorem latencyInv_initial : LatencyInv p rounds (initial p rounds g) := by
  refine ⟨fun i => ⟨rfl, rfl⟩, [], rfl, ⟨fun i => rfl, fun i => rfl⟩, rfl, ?_⟩
  have hnil : pendingSlots (initial p rounds g) = [] := by simp [pendingSlots, initial]
  rw [hnil]
  exact List.Perm.refl _

/-- The counters after the batches of a round. -/
theorem Counted.loadBatches {done : List (Round W)} {workers : Fin p.numThreads → Worker W}
    (h : Counted p done workers)
    (hid : ∀ i : Fin p.numThreads, (workers i).workerId = BitVec.ofNat 32 i)
    (random : Fin p.numThreads → Random W) (batches : Round W) :
    Counted p (done ++ [batches]) (loadBatches p random batches workers) := by
  have hcount : ∀ i, (Aging2.loadBatches p random batches workers i).numEdgeInsertions =
      (workers i).numEdgeInsertions + insertionsBy p i batches.flatten ∧
      (Aging2.loadBatches p random batches workers i).numEdgeDeletions =
        (workers i).numEdgeDeletions + deletionsBy p i batches.flatten ∧
      (Aging2.loadBatches p random batches workers i).workerId = BitVec.ofNat 32 i := by
    intro i
    let P : Round W → Worker W → Prop := fun done w =>
      w.numEdgeInsertions = (workers i).numEdgeInsertions + insertionsBy p i done.flatten ∧
        w.numEdgeDeletions = (workers i).numEdgeDeletions + deletionsBy p i done.flatten ∧
        w.workerId = BitVec.ofNat 32 i
    -- the batches of a round, one after the other
    apply foldl_prefix P
    · exact ⟨rfl, rfl, hid i⟩
    · rintro before batch rest w - ⟨hins, hdel, hw⟩
      obtain ⟨hins', hdel', hw'⟩ := counters_mainLoadEdges (p := p) (random i) w batch
      simp only [P, hins', hdel', hw', hins, hdel, hw, insertionsBy, deletionsBy, insertionsIn,
        deletionsIn, List.flatten_append, List.filter_append, List.countP_append]
      simp [Nat.add_assoc]
  refine ⟨fun i => ?_, fun i => ?_⟩
  · rw [(hcount i).1, h.insertions, logOf_append]
    simp [insertionsBy, insertionsIn]
  · rw [(hcount i).2.1, h.deletions, logOf_append]
    simp [deletionsBy, deletionsIn]

/-- **What a worker writes in a round**, and its counters after it. -/
theorem startRound_worker (hm : p.measureLatency = true) {s : State p.numThreads (Graph W) W}
    {done : List (Round W)} {batches : Round W} (rest : List (Round W))
    (hidle : ∀ i, (s.workers i).updates = [] ∧ (s.workers i).workerId = BitVec.ofNat 32 i)
    (hcounted : Counted p (done ++ [batches]) (loadBatches p random batches s.workers))
    (hnext : nextNumInsertions (loadBatches p random batches s.workers)
      s.latenciesNumInsertions = deletionStart p (done ++ [batches])) (i : Fin p.numThreads) :
    (((startRound p random s batches rest).pending i).filterMap Request.slot).Perm
        (insertionSlots p (done ++ [batches]) batches i ++
          deletionSlots p (done ++ [batches]) batches i) ∧
      ((startRound p random s batches rest).workers i).numEdgeInsertions =
        (loadBatches p random batches s.workers i).numEdgeInsertions ∧
      ((startRound p random s batches rest).workers i).numEdgeDeletions =
        (loadBatches p random batches s.workers i).numEdgeDeletions := by
  obtain ⟨hqueued, hid⟩ := queued_foldl (p := p) (random i) (s.workers i) (hidle i).1 batches
  have hready : readyWorkers p random s batches = prepareLatencies
      (loadBatches p random batches s.workers)
      (nextNumInsertions (loadBatches p random batches s.workers) s.latenciesNumInsertions) := by
    simp only [readyWorkers, hm, if_true]
  have hqueued' : Queued p batches.flatten (readyWorkers p random s batches i) := by
    rw [hready]
    exact hqueued.congr rfl rfl
  have hid' : (readyWorkers p random s batches i).workerId = BitVec.ofNat 32 i := by
    rw [hready]
    exact hid.trans (hidle i).2
  have hslots := slots_mainExecuteUpdates hqueued' (random i)
    (a := ∑ j ∈ Finset.Iio i, insertionsBy p j (logOf (done ++ [batches])))
    (b := deletionStart p (done ++ [batches]) +
      ∑ j ∈ Finset.Iio i, deletionsBy p j (logOf (done ++ [batches])))
    (by rw [hready]; simp only [prepareLatencies, hcounted.insertions])
    (by rw [hready, hnext]; simp only [prepareLatencies, hcounted.deletions])
  rw [hid'] at hslots
  refine ⟨hslots.1, hslots.2.1.trans ?_, hslots.2.2.trans ?_⟩
  · rw [hready]
    rfl
  · rw [hready]
    rfl

/-- A call takes its element from the pending ones. -/
theorem pendingSlots_call {s s' : State p.numThreads (Graph W) W} {i : Fin p.numThreads}
    {request : Request W} {rest : List (Request W)} (hpending : s.pending i = request :: rest)
    (hs' : s'.pending = Function.update s.pending i rest) :
    (pendingSlots s).Perm (request.slot.toList ++ pendingSlots s') := by
  have hsplit : (s.pending i).filterMap Request.slot =
      request.slot.toList ++ rest.filterMap Request.slot := by
    rw [hpending, List.filterMap_cons]
    cases request.slot <;> rfl
  have hupdate : (fun j => (s'.pending j).filterMap Request.slot) =
      Function.update (fun j => (s.pending j).filterMap Request.slot) i
        (rest.filterMap Request.slot) := by
    funext j
    rw [hs']
    by_cases hij : j = i
    · subst hij
      simp
    · simp [Function.update_of_ne hij]
  simp only [pendingSlots, hupdate]
  exact perm_flatMap_update (List.nodup_finRange p.numThreads) (List.mem_finRange i) hsplit

theorem LatencyInv.step (hm : p.measureLatency = true) {s s' : State p.numThreads (Graph W) W}
    (h : LatencyInv p rounds s) (hstep : Step p random (upsertLibrary p.isDirected) s s') :
    LatencyInv p rounds s' := by
  obtain ⟨done, hdone, hcounted, hstart, hperm⟩ := h.slots
  cases hstep with
  | @round batches rest hrounds hidle =>
    have hround := startRound_spec random batches rest h.idle
    have hcounted' := hcounted.loadBatches (fun i => (h.idle i).2) random batches
    have hnext : nextNumInsertions (loadBatches p random batches s.workers)
        s.latenciesNumInsertions = deletionStart p (done ++ [batches]) := by
      rw [nextNumInsertions, hstart, deletionStart_append]
      simp only [hcounted'.insertions]
    have hworker := startRound_worker hm rest h.idle hcounted' hnext
    refine ⟨fun i => (hround i).2, done ++ [batches], ?_, ⟨fun i => ?_, fun i => ?_⟩, ?_, ?_⟩
    · rw [hdone, hrounds, List.append_assoc]
      rfl
    · rw [(hworker i).2.1, hcounted'.insertions]
    · rw [(hworker i).2.2, hcounted'.deletions]
    · show (if p.measureLatency then _ else _) = _
      rw [if_pos hm, hnext]
    · have hwritten : (startRound p random s batches rest).written = [] := if_pos hm
      rw [hwritten, List.nil_append, lastSlots, List.getLast?_concat]
      exact List.Perm.flatMap_left _ fun i _ => (hworker i).1
  | @call i request rest hpending =>
    refine ⟨h.idle, done, hdone, hcounted, hstart, ?_⟩
    simp only [upsertLibrary_call_snd, if_true]
    refine List.Perm.trans ?_ hperm
    rw [List.append_assoc]
    apply List.Perm.append_left
    -- the element moves from the pending ones to the written ones
    exact (pendingSlots_call hpending rfl).symm

/-- The invariant holds in every reachable state. -/
theorem reachable_latencyInv (hm : p.measureLatency = true)
    {s : State p.numThreads (Graph W) W} (h : Reachable p random rounds g s) :
    LatencyInv p rounds s :=
  reachable_invariant latencyInv_initial (fun _ _ hs hstep => hs.step hm hstep) h

/-- The calls of the workers can go on until all of them are idle. -/
theorem exists_idle {s : State p.numThreads (Graph W) W} (h : Reachable p random rounds g s) :
    ∃ s', Reachable p random rounds g s' ∧ s'.rounds = s.rounds ∧ ∀ i, s'.pending i = [] := by
  let CallStep : State p.numThreads (Graph W) W → State p.numThreads (Graph W) W → Prop :=
    fun s s' => Step p random (upsertLibrary p.isDirected) s s' ∧ s'.rounds = s.rounds
  obtain ⟨s', hreach, hfinal⟩ := exists_final remaining
    (fun s s' (hs : CallStep s s') => remaining_lt hs.1) s
  have hs' : Reachable p random rounds g s' ∧ s'.rounds = s.rounds :=
    reachable_invariant (I := fun s' => Reachable p random rounds g s' ∧ s'.rounds = s.rounds)
      ⟨h, rfl⟩ (fun _ _ hs hcall => ⟨hs.1.tail hcall.1, hcall.2.trans hs.2⟩) hreach
  refine ⟨s', hs'.1, hs'.2, fun i => ?_⟩
  cases hpending : s'.pending i with
  | nil => rfl
  | cons request rest => exact absurd ⟨Step.call i hpending, rfl⟩ (hfinal _)

/-- Every round is completed in some run. -/
theorem exists_round_done (random : Fin p.numThreads → Random W) (g : Graph W)
    (done rest : List (Round W)) :
    ∃ s, Reachable p random (done ++ rest) g s ∧ s.rounds = rest ∧ ∀ i, s.pending i = [] := by
  induction done using List.reverseRecOn generalizing rest with
  | nil => exact ⟨_, Relation.ReflTransGen.refl, rfl, fun _ => rfl⟩
  | append_singleton done batches ih =>
    obtain ⟨s, hreach, hrounds, hidle⟩ := ih (batches :: rest)
    have hnext := Relation.ReflTransGen.tail hreach (Step.round hrounds hidle)
    obtain ⟨s', hreach', hrounds', hidle'⟩ := exists_idle hnext
    refine ⟨s', ?_, hrounds', hidle'⟩
    rw [List.append_assoc]
    exact hreach'

/-- **All the elements of a round are written** in some run. -/
theorem exists_written (hm : p.measureLatency = true) (random : Fin p.numThreads → Random W)
    (g : Graph W) (before : List (Round W)) (batches : Round W) (after : List (Round W)) :
    ∃ s, Reachable p random (before ++ batches :: after) g s ∧
      s.written.Perm (roundSlots p (before ++ [batches]) batches) := by
  obtain ⟨s, hreach, hrounds, hidle⟩ := exists_round_done random g (before ++ [batches]) after
  rw [List.append_assoc, List.singleton_append] at hreach
  refine ⟨s, hreach, ?_⟩
  obtain ⟨done, hdone, -, -, hperm⟩ := (reachable_latencyInv hm hreach).slots
  -- all the rounds up to this one were made
  obtain rfl : done = before ++ [batches] := by
    rw [hrounds, ← List.singleton_append, ← List.append_assoc] at hdone
    exact (List.append_cancel_right hdone).symm
  have hnil : pendingSlots s = [] := by simp [pendingSlots, hidle]
  rw [hnil, List.append_nil, lastSlots, List.getLast?_concat] at hperm
  exact hperm

/-- The writes are safe when the slices that are used end within bounds. -/
theorem latencySafe_of_fits (hm : p.measureLatency = true) (hfits : Fits p rounds) :
    LatencySafe p random rounds g := by
  intro s hreach
  obtain ⟨done, hdone, -, -, hperm⟩ := (reachable_latencyInv hm hreach).slots
  -- before the first round nothing is written
  rcases List.eq_nil_or_concat done with rfl | ⟨before, batches, rfl⟩
  · have hnil : s.written = [] := (List.append_eq_nil_iff.mp (List.perm_nil.mp hperm)).1
    simp [hnil]
  · rw [List.concat_eq_append] at hdone hperm
    rw [lastSlots, List.getLast?_concat] at hperm
    -- afterwards what is written belongs to the slices of the last round
    have hround := hfits before batches s.rounds (by rw [hdone, List.append_assoc]; rfl)
    refine ⟨fun k hk => ?_, ?_⟩
    · exact (forall_roundSlots_lt_iff p _ batches _).mpr hround k
        (hperm.mem_iff.mp (List.mem_append_left _ hk))
    · exact (hperm.nodup_iff.mpr (nodup_roundSlots p before batches)).of_append_left

end Runs

/-! ## One round -/

section OneRound

variable {p : Parameters W}

/-- Up to `2^32` workers divide the operations among them. -/
theorem sum_countP_owns (hn : p.numThreads ≤ 2 ^ 32) (q : WeightedEdge W → Bool)
    (l : List (WeightedEdge W)) :
    ∑ i : Fin p.numThreads, (l.filter (owns p (BitVec.ofNat 32 i))).countP q = l.countP q := by
  induction l with
  | nil => simp
  | cons op l ih =>
    -- an operation has one owner
    have hcons : ∀ i : Fin p.numThreads,
        ((op :: l).filter (owns p (BitVec.ofNat 32 i))).countP q =
          (l.filter (owns p (BitVec.ofNat 32 i))).countP q +
            if ownerWorker p op = i then (if q op then 1 else 0) else 0 := by
      intro i
      by_cases hown : ownerWorker p op = i
      · rw [List.filter_cons_of_pos ((owns_iff hn i op).mpr hown), List.countP_cons, if_pos hown]
      · rw [List.filter_cons_of_neg (fun hc => hown ((owns_iff hn i op).mp hc)), if_neg hown,
          Nat.add_zero]
    simp only [hcons, Finset.sum_add_distrib, ih, Finset.sum_ite_eq, Finset.mem_univ, if_true,
      List.countP_cons]

/-- The latencies of `execute` are safe. -/
theorem latencySafe_execute (hm : p.measureLatency = true) (hn : p.numThreads ≤ 2 ^ 32)
    (random : Fin p.numThreads → Random W) (batches : List (List (WeightedEdge W)))
    (g : Graph W) : LatencySafe p random (execute batches) g := by
  apply latencySafe_of_fits hm
  intro before batches' after hrounds i
  obtain ⟨rfl, rfl, rfl⟩ : before = [] ∧ batches' = batches ∧ after = [] := by
    rcases List.cons_eq_append_iff.mp hrounds with ⟨rfl, hcons⟩ | ⟨_, -, hcons⟩
    · obtain ⟨rfl, rfl⟩ := List.cons.inj hcons
      exact ⟨rfl, rfl, rfl⟩
    · exact absurd hcons.symm (by simp)
  have hlog : logOf ([] ++ [batches']) = batches'.flatten := by simp [logOf]
  have hlength : (logOf (execute batches')).length = insertionsIn batches'.flatten +
      deletionsIn batches'.flatten := by
    have hsplit := List.length_eq_countP_add_countP
      (fun op : WeightedEdge W => decide (0 ≤ op.weight))
      (l := batches'.flatten)
    simpa [execute, logOf, insertionsIn, deletionsIn] using hsplit
  have hins : ∑ i, insertionsBy p i batches'.flatten = insertionsIn batches'.flatten :=
    sum_countP_owns hn _ _
  have hdel : ∑ i, deletionsBy p i batches'.flatten = deletionsIn batches'.flatten :=
    sum_countP_owns hn _ _
  -- with one round, the slices of the deletions start where those of the insertions end
  have hstart : deletionStart p ([] ++ [batches']) = insertionsIn batches'.flatten := by
    rw [deletionStart_append, hlog, hins]
    exact Nat.zero_add _
  rw [hlog, hlength, hstart]
  have hle := sum_Iio_add_le_sum (fun k => insertionsBy p k batches'.flatten) i
  have hle' := sum_Iio_add_le_sum (fun k => deletionsBy p k batches'.flatten) i
  omega

end OneRound

/-! ## When the writes are safe -/

section Exact

variable {p : Parameters W}

/-- **The latencies are written within bounds and to distinct elements** when the slices that are
used end within bounds, and only then. -/
theorem latencySafe_iff (hm : p.measureLatency = true) (random : Fin p.numThreads → Random W)
    (rounds : List (Round W)) (g : Graph W) :
    LatencySafe p random rounds g ↔ Fits p rounds := by
  constructor
  · rintro hsafe before batches after rfl
    obtain ⟨s, hreach, hperm⟩ := exists_written hm random g before batches after
    exact (forall_roundSlots_lt_iff p (before ++ [batches]) batches _).mp fun k hk =>
      (hsafe s hreach).1 k (hperm.mem_iff.mpr hk)
  · exact latencySafe_of_fits hm

/-- One worker that measures latencies. -/
def timedParameters : Parameters ℤ :=
  { sampleParameters 1 le_rfl with measureLatency := true }

theorem latencySafe_edge :
    LatencySafe timedParameters (fun _ => sampleRandom)
        (executeSynchronizedSmallBatch [[⟨1, 2, 5⟩]]) (fun _ => none) ↔
      Fits timedParameters (executeSynchronizedSmallBatch [[⟨1, 2, 5⟩]]) :=
  latencySafe_iff rfl _ _ _

/-- An insertion in the first batch and a deletion in the second one: the deletion writes the third
element of an array of two. -/
theorem not_latencySafe :
    ¬LatencySafe timedParameters (fun _ => sampleRandom)
      (executeSynchronizedSmallBatch [[⟨1, 2, 5⟩], [⟨1, 2, -1⟩]]) (fun _ => none) := by
  intro hsafe
  obtain ⟨s, hreach, hperm⟩ := exists_written (p := timedParameters) rfl (fun _ => sampleRandom)
    (fun _ => none) [[[⟨1, 2, 5⟩]]] [[⟨1, 2, -1⟩]] []
  have hmem : 2 ∈ roundSlots timedParameters [[[⟨1, 2, 5⟩]], [[⟨1, 2, -1⟩]]] [[⟨1, 2, -1⟩]] := by
    decide
  have hlt := (hsafe s hreach).1 2 (hperm.mem_iff.mpr hmem)
  exact absurd hlt (by decide)

end Exact

end Aging2

end GfeDriver
