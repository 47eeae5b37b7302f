import GfeDriver.Foundation.Chunks
import GfeDriver.Graph.Edge

/-!
# Chunked updates

Two experiments share a list of updates between threads through an atomic counter, from which each
thread takes the next chunk: `InsertOnly::execute_round_robin`, which inserts the edges of a stream,
and `Aging2Worker::main_execute_true_updates`, which runs the operations of one batch. The
insertions have their granularity lowered first, when there are too few of them.

The counter is a 64-bit integer, and so is the end of a chunk. Every thread that finds no chunk
moves the counter past the end once more, which is why the number of threads bounds the number of
updates.

## Main definitions

* `InsertOnly W`, `InsertOnly.adjust`, `InsertOnly.Step`: the insertion of a stream
* `TrueUpdates W`, `TrueUpdates.Step`: the updates of a batch
* `InsertOnly.InsertsOnce`, `TrueUpdates.UpdatesOnce`: every update is run once

## Main results

* `InsertOnly.adjust_pos`, `InsertOnly.adjust_le`: the readjusted granularity
* `InsertOnly.insertsOnce`, `TrueUpdates.updatesOnce`: the threads of one of them
* `chunked_updates_once`: every update is passed to the library exactly once
-/

namespace GfeDriver

open Foundation

variable {W : Type}

/-! ## The insertion of a stream -/

/-- `InsertOnly`: the stream, the number of threads, and the granularity of the scheduler. -/
structure InsertOnly (W : Type) where
  stream : List (WeightedEdge W)
  numThreads : ℕ
  schedulerGranularity : ℕ

namespace InsertOnly

/-- `InsertOnly::execute`: the granularity is readjusted if there are too few insertions. -/
def adjust (e : InsertOnly W) : InsertOnly W :=
  if e.stream.length / e.numThreads < e.schedulerGranularity then
    let granularity := e.stream.length / e.numThreads
    { e with schedulerGranularity := if granularity = 0 then 1 else granularity }
  else e

/-- `InsertOnly::execute_round_robin`: one atomic step of a thread. A thread fetches a chunk from
`start_chunk_next`, and inserts its edges one after the other with `run_sequential`. -/
def Step (e : InsertOnly W) : Chunks (Fin e.numThreads) → Chunks (Fin e.numThreads) → Prop :=
  Chunks.Step (2 ^ 64) e.schedulerGranularity e.stream.length

/-- The arguments of `add_edge_v2` so far, `graph->get(pos)` at each position. -/
def insertions (e : InsertOnly W) (s : Chunks (Fin e.numThreads)) :
    List (Option (WeightedEdge W)) :=
  s.log.map fun pos => e.stream[pos]?

variable {e : InsertOnly W}

/-- The readjusted granularity is not zero. -/
theorem adjust_pos (h : 0 < e.schedulerGranularity) : 0 < e.adjust.schedulerGranularity := by
  unfold adjust
  simp only
  split_ifs with hlt hzero
  · exact Nat.zero_lt_one
  · exact Nat.pos_of_ne_zero hzero
  · exact h

/-- The readjustment does not raise the granularity. -/
theorem adjust_le (h : 0 < e.schedulerGranularity) :
    e.adjust.schedulerGranularity ≤ e.schedulerGranularity := by
  unfold adjust
  simp only
  split_ifs with hlt hzero
  · exact h
  · exact hlt.le
  · exact Nat.le_refl _

theorem adjust_stream (e : InsertOnly W) :
    e.adjust.stream = e.stream ∧ e.adjust.numThreads = e.numThreads := by
  unfold adjust
  split_ifs <;> exact ⟨rfl, rfl⟩

end InsertOnly

/-! ## The updates of a batch -/

/-- The task of `main_execute_true_updates`: the array with the sources, the destinations and the
weights of the updates, how a word of it is read as a weight, the workers, and the granularity
`m_update_batch_granularity`. -/
structure TrueUpdates (W : Type) where
  edges : List ℕ
  numEdges : ℕ
  asDouble : ℕ → W
  numWorkers : ℕ
  updateBatchGranularity : ℕ

namespace TrueUpdates

/-- `main_execute_true_updates`: one atomic step of a worker, on the counter `m_workload_index`. -/
def Step (b : TrueUpdates W) : Chunks (Fin b.numWorkers) → Chunks (Fin b.numWorkers) → Prop :=
  Chunks.Step (2 ^ 64) b.updateBatchGranularity b.numEdges

/-- The edge passed to `add_edge_v3` for the update `i`: its weight is raised by one. -/
def operation [Add W] [One W] (b : TrueUpdates W) (i : ℕ) : Option (WeightedEdge W) := do
  let source ← b.edges[i]?
  let destination ← b.edges[b.numEdges + i]?
  let weight ← b.edges[b.numEdges + b.numEdges + i]?
  return ⟨source, destination, b.asDouble weight + 1⟩

/-- The arguments of `add_edge_v3` so far. -/
def operations [Add W] [One W] (b : TrueUpdates W) (s : Chunks (Fin b.numWorkers)) :
    List (Option (WeightedEdge W)) :=
  s.log.map b.operation

end TrueUpdates

/-! ## Coverage -/

/-- The edges inserted are those of the stream, each of them once. -/
theorem insertions_perm {e : InsertOnly W} {s : Chunks (Fin e.numThreads)}
    (h : s.log.Perm (List.range e.stream.length)) :
    (e.insertions s).Perm (e.stream.map some) := by
  have hstream : (List.range e.stream.length).map (fun pos => e.stream[pos]?) =
      e.stream.map some := by
    refine List.ext_getElem (by simp) fun i hi hi' => ?_
    simp only [List.length_map, List.length_range] at hi
    simp [List.getElem?_eq_getElem hi]
  exact hstream ▸ h.map _

/-- Every position of the stream is passed to `add_edge_v2` once, under every schedule, and so is
every edge when the threads have ended. -/
structure InsertOnly.InsertsOnce (e : InsertOnly W) : Prop where
  coverage : Chunks.Coverage (Fin e.numThreads) (2 ^ 64) e.schedulerGranularity e.stream.length
  insertions : ∀ s, Relation.ReflTransGen e.Step (Chunks.init _) s → (∀ s', ¬e.Step s s') →
    (e.insertions s).Perm (e.stream.map some)

/-- Every index of the batch is processed once, under every schedule, and so is every update when
the workers have ended. -/
structure TrueUpdates.UpdatesOnce [Add W] [One W] (b : TrueUpdates W) : Prop where
  coverage : Chunks.Coverage (Fin b.numWorkers) (2 ^ 64) b.updateBatchGranularity b.numEdges
  operations : ∀ s, Relation.ReflTransGen b.Step (Chunks.init _) s → (∀ s', ¬b.Step s s') →
    (b.operations s).Perm ((List.range b.numEdges).map b.operation)

theorem InsertOnly.insertsOnce {e : InsertOnly W} (he : 1 ≤ e.numThreads)
    (hg : 1 ≤ e.schedulerGranularity)
    (hsize : e.stream.length + (e.numThreads + 1) * e.schedulerGranularity < 2 ^ 64) :
    e.InsertsOnce := by
  have : Nonempty (Fin e.numThreads) := ⟨⟨0, he⟩⟩
  have hcoverage := Chunks.coverage (ι := Fin e.numThreads) hg (by rwa [Fintype.card_fin])
  exact ⟨hcoverage, fun s hs hfinal => insertions_perm (hcoverage.complete s hs hfinal).2⟩

theorem TrueUpdates.updatesOnce [Add W] [One W] {b : TrueUpdates W} (hb : 1 ≤ b.numWorkers)
    (hg : 1 ≤ b.updateBatchGranularity)
    (hsize : b.numEdges + (b.numWorkers + 1) * b.updateBatchGranularity < 2 ^ 64) :
    b.UpdatesOnce := by
  have : Nonempty (Fin b.numWorkers) := ⟨⟨0, hb⟩⟩
  have hcoverage := Chunks.coverage (ι := Fin b.numWorkers) hg (by rwa [Fintype.card_fin])
  exact ⟨hcoverage, fun s hs hfinal => (hcoverage.complete s hs hfinal).2.map _⟩

/-- **Chunked updates**: the readjusted granularity is not zero, and under every schedule of the
threads every edge of the stream is inserted exactly once and all the threads end. The same holds of
the updates of a batch. -/
theorem chunked_updates_once [Add W] [One W] (e : InsertOnly W) (he : 1 ≤ e.numThreads)
    (hg : 1 ≤ e.schedulerGranularity)
    (hsize : e.stream.length + (e.numThreads + 1) * e.schedulerGranularity < 2 ^ 64)
    (b : TrueUpdates W) (hb : 1 ≤ b.numWorkers) (hbg : 1 ≤ b.updateBatchGranularity)
    (hbsize : b.numEdges + (b.numWorkers + 1) * b.updateBatchGranularity < 2 ^ 64) :
    e.adjust.schedulerGranularity ≠ 0 ∧ e.adjust.InsertsOnce ∧ b.UpdatesOnce := by
  obtain ⟨hstream, hthreads⟩ := e.adjust_stream
  have hpos := InsertOnly.adjust_pos hg
  refine ⟨hpos.ne', InsertOnly.insertsOnce (hthreads ▸ he) hpos ?_,
    TrueUpdates.updatesOnce hb hbg hbsize⟩
  have hle := Nat.mul_le_mul_left (e.numThreads + 1) (InsertOnly.adjust_le hg)
  rw [hstream, hthreads]
  omega

/-- Three insertions by two threads with the granularity eight, and a batch of one update. -/
theorem chunked_updates_three :
    (⟨[⟨1, 2, 5⟩, ⟨2, 3, 6⟩, ⟨1, 3, 7⟩], 2, 8⟩ : InsertOnly ℕ).adjust.schedulerGranularity ≠ 0 ∧
      (⟨[⟨1, 2, 5⟩, ⟨2, 3, 6⟩, ⟨1, 3, 7⟩], 2, 8⟩ : InsertOnly ℕ).adjust.InsertsOnce ∧
      (⟨[1, 2, 5], 1, id, 2, 16⟩ : TrueUpdates ℕ).UpdatesOnce :=
  chunked_updates_once ⟨[⟨1, 2, 5⟩, ⟨2, 3, 6⟩, ⟨1, 3, 7⟩], 2, 8⟩ (by decide) (by decide)
    (by decide) ⟨[1, 2, 5], 1, id, 2, 16⟩ (by decide) (by decide) (by decide)

end GfeDriver
