import Mathlib.Tactic
import Mathlib.Data.List.Forall2
import GfeDriver.Foundation.Loop
import GfeDriver.Graph.Edge

/-!
# The workers of the aging experiment

The master reads a log of insertions and deletions in batches and shows every batch to every worker.
A worker keeps the operations it owns in a queue of vectors, and later issues them to the library in
chunks. The owner of an operation is decided by a hash of the sum of its endpoints, so it does not
depend on the orientation of the edge.

The sum wraps around at 64 bits, and both the identifier of a worker and the remainder it is
compared with are converted to `int`. A drawn weight is positive, so it does not change what an
operation does. The chunks of a vector cover it once, whatever the granularity.

## Main definitions

* `Parameters`, `Random`: the settings of an experiment, and the draws of a worker
* `Worker`, `mainLoadEdges`: the queue of a worker
* `Call`, `mainExecuteUpdates`: the calls that a worker makes
* `Issues p op c`: the call `c` issues the operation `op` of the log

## Main results

* `mainLoadEdges_spec`: the queue holds the operations that the worker owns
* `executeOperations_eq`: the chunks cover a vector
* `mainExecuteUpdates_eq`, `mainExecuteUpdates_spec`: a worker issues its queue
-/

namespace GfeDriver

open Foundation

/-- `Edge::swap_src_dst`. -/
def Edge.swapSrcDst (e : Edge) : Edge := ⟨e.destination, e.source⟩

/-- `WeightedEdge::swap_src_dst`. -/
def WeightedEdge.swapSrcDst {W : Type} (e : WeightedEdge W) : WeightedEdge W :=
  ⟨e.destination, e.source, e.weight⟩

namespace Aging2

variable {W : Type} [LinearOrder W] [Zero W]

/-! ## The program -/

/-- The settings of an experiment that the updates depend on, as its setters accept them. The
function `hash` is `std::hash<uint64_t>`. -/
structure Parameters (W : Type) [LinearOrder W] [Zero W] where
  numThreads : ℕ
  workerGranularity : ℕ
  releaseDriverMemory : Bool
  measureLatency : Bool
  isDirected : Bool
  maxWeight : W
  hash : ℕ → ℕ
  one_le_numThreads : 1 ≤ numThreads
  one_le_workerGranularity : 1 ≤ workerGranularity
  workerGranularity_lt : workerGranularity < 2 ^ 64
  maxWeight_pos : 0 < maxWeight

/-- The outcomes of the draws of a worker: `rndweight(m_random)`, in `[0, max_weight)`, and
`m_uniform(m_random) < 0.5`. -/
structure Random (W : Type) [LinearOrder W] [Zero W] where
  rndweight : ℕ → W
  noise : ℕ → Bool
  rndweight_nonneg : ∀ k, 0 ≤ rndweight k

/-- `Aging2Worker`: the identifier, the queue `m_updates`, the pointers into `m_latencies` as
offsets, the counters, and the number of draws made so far. -/
structure Worker (W : Type) where
  workerId : BitVec 32
  updates : List (List (WeightedEdge W))
  latencyInsertions : Option ℕ
  numEdgeInsertions : ℕ
  latencyDeletions : Option ℕ
  numEdgeDeletions : ℕ
  numOperations : ℕ
  draws : ℕ

/-- A new worker. -/
def Worker.new (workerId : ℕ) : Worker W :=
  ⟨BitVec.ofNat 32 workerId, [], none, 0, none, 0, 0, 0⟩

/-- The worker whose turn an operation is, as a number below `num_threads`. -/
def owner (p : Parameters W) (edge : WeightedEdge W) : ℕ :=
  p.hash ((edge.source + edge.destination) % 2 ^ 64) % p.numThreads

/-- The test of `main_load_edges`, on integers of type `int`. -/
def owns (p : Parameters W) (workerId : BitVec 32) (edge : WeightedEdge W) : Bool :=
  BitVec.ofNat 32 (owner p edge) = workerId

/-- `last_max_sz`. -/
def lastMaxSz : ℕ := 2 ^ 22

/-- `last->emplace_back`, on the last vector of the queue. -/
def emplaceBack {α : Type} (updates : List (List α)) (x : α) : List (List α) :=
  updates.dropLast ++ [updates.getLastD [] ++ [x]]

/-- The test on the size of `last`: a vector above the limit is followed by a new one. -/
def makeRoom {α : Type} (updates : List (List α)) : List (List α) :=
  if lastMaxSz < (updates.getLastD []).length then updates ++ [[]] else updates

/-- The weight that is stored: zero stands for a random one in `(0, max_weight]`. -/
def storedWeight (p : Parameters W) (random : Random W) (draws : ℕ) (weight : W) : W :=
  if weight = 0 then
    if random.rndweight draws = 0 then p.maxWeight else random.rndweight draws
  else weight

/-- An operation is counted and stored at the end of the queue. -/
def pushEdge (p : Parameters W) (random : Random W) (worker : Worker W) (edge : WeightedEdge W) :
    Worker W :=
  { worker with
    updates := emplaceBack (makeRoom worker.updates)
      ⟨edge.source, edge.destination, storedWeight p random worker.draws edge.weight⟩
    numEdgeInsertions := worker.numEdgeInsertions + if 0 ≤ edge.weight then 1 else 0
    numEdgeDeletions := worker.numEdgeDeletions + if 0 ≤ edge.weight then 0 else 1
    draws := worker.draws + if edge.weight = 0 then 1 else 0 }

/-- The test at the start of a load: an empty queue gets its first vector. -/
def initUpdates {α : Type} (updates : List (List α)) : List (List α) :=
  if updates = [] then [[]] else updates

/-- `Aging2Worker::main_load_edges`. -/
def mainLoadEdges (p : Parameters W) (random : Random W) (worker : Worker W)
    (edges : List (WeightedEdge W)) : Worker W :=
  edges.foldl (fun w edge => if owns p w.workerId edge then pushEdge p random w edge else w)
    { worker with updates := initUpdates worker.updates }

/-- A call to the library: `add_edge_v2` or `remove_edge`. -/
inductive Call (W : Type)
  | addEdgeV2 (edge : WeightedEdge W)
  | removeEdge (edge : Edge)

/-- The edge of a call. -/
def Call.edge : Call W → Edge
  | .addEdgeV2 e => e.edge
  | .removeEdge e => e

/-- A call that a worker repeats until it succeeds, and the element of `m_latencies` that it writes
afterwards. -/
structure Request (W : Type) where
  call : Call W
  slot : Option ℕ

/-- A worker that executes its updates, and the requests that its loops make. -/
structure Execution (W : Type) where
  worker : Worker W
  requests : List (Request W)

/-- The test for the noise: an edge of an undirected graph is swapped at random. -/
def swaps (p : Parameters W) (random : Random W) (draws : ℕ) : Bool :=
  !p.isDirected && random.noise draws

/-- `graph_insert_edge`. -/
def graphInsertEdge (p : Parameters W) (random : Random W) (s : Execution W)
    (edge : WeightedEdge W) : Execution W :=
  let call := .addEdgeV2 (if swaps p random s.worker.draws then edge.swapSrcDst else edge)
  { worker := { s.worker with
      draws := s.worker.draws + if p.isDirected then 0 else 1
      latencyInsertions := s.worker.latencyInsertions.map (· + 1) }
    requests := s.requests ++ [⟨call, s.worker.latencyInsertions⟩] }

/-- `graph_remove_edge`, where `force` is set. -/
def graphRemoveEdge (p : Parameters W) (random : Random W) (s : Execution W) (edge : Edge) :
    Execution W :=
  let call := .removeEdge (if swaps p random s.worker.draws then edge.swapSrcDst else edge)
  { worker := { s.worker with
      draws := s.worker.draws + if p.isDirected then 0 else 1
      latencyDeletions := s.worker.latencyDeletions.map (· + 1) }
    requests := s.requests ++ [⟨call, s.worker.latencyDeletions⟩] }

/-- The body of the loop of `graph_execute_batch_updates0`, when no stop is requested. The version
that measures the latency is taken when the pointers are set. -/
def graphExecuteUpdate (p : Parameters W) (random : Random W) (s : Execution W)
    (update : WeightedEdge W) : Execution W :=
  let s' := if 0 ≤ update.weight then graphInsertEdge p random s update
    else graphRemoveEdge p random s update.edge
  { s' with worker := { s'.worker with numOperations := s'.worker.numOperations + 1 } }

/-- `graph_execute_batch_updates`. -/
def graphExecuteBatchUpdates (p : Parameters W) (random : Random W) (s : Execution W)
    (updates : List (WeightedEdge W)) : Execution W :=
  updates.foldl (graphExecuteUpdate p random) s

/-- The loop over the chunks of a vector. -/
def executeOperations (p : Parameters W) (random : Random W) (operations : List (WeightedEdge W))
    (s : Execution W) : Execution W :=
  let numLoops := operations.length / p.workerGranularity +
    if operations.length % p.workerGranularity ≠ 0 then 1 else 0
  ((List.range numLoops).foldl (fun (acc : ℕ × Execution W) _ =>
    let stop := min ((acc.1 + p.workerGranularity) % 2 ^ 64) operations.length
    (stop, graphExecuteBatchUpdates p random acc.2
      ((operations.drop acc.1).take (stop - acc.1)))) (0, s)).2

/-- The body of the loop of `main_execute_updates` over the queue: when the memory is released, the
vector to execute is always the first one, which is then popped. -/
def executeVector (p : Parameters W) (random : Random W) (s : Execution W) (i : ℕ) : Execution W :=
  let operations := s.worker.updates.getD (if p.releaseDriverMemory then 0 else i) []
  let s' := executeOperations p random operations s
  if p.releaseDriverMemory then
    { s' with worker := { s'.worker with updates := s'.worker.updates.tail } }
  else s'

/-- `Aging2Worker::main_execute_updates`, with the requests it makes. -/
def mainExecuteUpdates (p : Parameters W) (random : Random W) (worker : Worker W) : Execution W :=
  let s := (List.range worker.updates.length).foldl (executeVector p random) ⟨worker, []⟩
  { s with worker := { s.worker with updates := [] } }

/-! ## Operations and calls -/

/-- The same pair of vertices, in either orientation. -/
def SameEdge (e e' : Edge) : Prop := e = e' ∨ e = e'.swapSrcDst

/-- **A call issues an operation of the log**: it inserts or deletes its edge, with its weight if
this is not zero, and with its endpoints swapped only in an undirected graph. -/
def Issues (p : Parameters W) (op : WeightedEdge W) : Call W → Prop
  | .addEdgeV2 e => 0 ≤ op.weight ∧ 0 ≤ e.weight ∧ (op.weight ≠ 0 → e.weight = op.weight) ∧
      (e.edge = op.edge ∨ p.isDirected = false ∧ e.edge = op.edge.swapSrcDst)
  | .removeEdge e => ¬0 ≤ op.weight ∧
      (e = op.edge ∨ p.isDirected = false ∧ e = op.edge.swapSrcDst)

/-- A queued operation stands for an operation of the log. -/
structure Stored (op stored : WeightedEdge W) : Prop where
  edge : stored.edge = op.edge
  nonneg : 0 ≤ stored.weight ↔ 0 ≤ op.weight
  weight : op.weight ≠ 0 → stored.weight = op.weight

omit [LinearOrder W] [Zero W] in
@[simp] theorem edge_swapSrcDst (e : WeightedEdge W) : e.swapSrcDst.edge = e.edge.swapSrcDst := rfl

omit [LinearOrder W] [Zero W] in
@[simp] theorem swapSrcDst_swapSrcDst (e : Edge) : e.swapSrcDst.swapSrcDst = e := rfl

omit [LinearOrder W] [Zero W] in
theorem SameEdge.symm {e e' : Edge} (h : SameEdge e e') : SameEdge e' e := by
  rcases h with rfl | rfl
  · exact Or.inl rfl
  · exact Or.inr rfl

omit [LinearOrder W] [Zero W] in
theorem SameEdge.trans {e e' e'' : Edge} (h : SameEdge e e') (h' : SameEdge e' e'') :
    SameEdge e e'' := by
  rcases h with rfl | rfl <;> rcases h' with rfl | rfl
  · exact Or.inl rfl
  · exact Or.inr rfl
  · exact Or.inr rfl
  · exact Or.inl rfl

omit [LinearOrder W] [Zero W] in
/-- Both orientations of an edge have one owner. -/
theorem add_eq_of_sameEdge {e e' : Edge} (h : SameEdge e e') :
    e.source + e.destination = e'.source + e'.destination := by
  rcases h with rfl | rfl
  · rfl
  · exact Nat.add_comm _ _

theorem owner_eq_of_sameEdge (p : Parameters W) {x y : WeightedEdge W}
    (h : SameEdge x.edge y.edge) : owner p x = owner p y := by
  have hsum : x.source + x.destination = y.source + y.destination := add_eq_of_sameEdge h
  rw [owner, owner, hsum]

theorem owner_lt (p : Parameters W) (edge : WeightedEdge W) : owner p edge < p.numThreads :=
  Nat.mod_lt _ p.one_le_numThreads

/-- A call has the endpoints of its operation. -/
theorem Issues.sameEdge {p : Parameters W} {op : WeightedEdge W} {c : Call W} (h : Issues p op c) :
    SameEdge c.edge op.edge := by
  cases c with
  | addEdgeV2 e => exact h.2.2.2.imp_right fun h => h.2
  | removeEdge e => exact h.2.imp_right fun h => h.2

theorem stored_loadEdge (p : Parameters W) (random : Random W) (draws : ℕ) (op : WeightedEdge W) :
    Stored op ⟨op.source, op.destination, storedWeight p random draws op.weight⟩ := by
  refine ⟨rfl, ?_, fun h => if_neg h⟩
  by_cases hzero : op.weight = 0
  · have hpos : 0 ≤ storedWeight p random draws op.weight := by
      rw [storedWeight, if_pos hzero]
      split_ifs
      · exact p.maxWeight_pos.le
      · exact random.rndweight_nonneg draws
    exact iff_of_true hpos hzero.ge
  · rw [storedWeight, if_neg hzero]

/-- **The request of a queued operation** issues the operation of the log that it stands for. -/
theorem exists_request (p : Parameters W) (random : Random W) (s : Execution W)
    (stored : WeightedEdge W) :
    ∃ request, (graphExecuteUpdate p random s stored).requests = s.requests ++ [request] ∧
      ∀ op, Stored op stored → Issues p op request.call := by
  -- the endpoints are swapped in an undirected graph only
  have hdirected : swaps p random s.worker.draws = true → p.isDirected = false := by
    simp only [swaps, Bool.and_eq_true, Bool.not_eq_true']
    exact fun hc => hc.1
  unfold graphExecuteUpdate
  split_ifs with hins
  · refine ⟨_, rfl, fun op h => ⟨h.nonneg.mp hins, ?_⟩⟩
    split_ifs with hswap
    · exact ⟨hins, h.weight, Or.inr ⟨hdirected hswap, by simp [h.edge]⟩⟩
    · exact ⟨hins, h.weight, Or.inl h.edge⟩
  · refine ⟨_, rfl, fun op h => ⟨fun hop => hins (h.nonneg.mpr hop), ?_⟩⟩
    split_ifs with hswap
    · exact Or.inr ⟨hdirected hswap, by rw [h.edge]⟩
    · exact Or.inl h.edge

/-! ## Loading -/

section Loading

variable {p : Parameters W} {random : Random W}

/-- The queue of a worker that was shown the operations `log` since its queue was empty. -/
structure Queued (p : Parameters W) (log : List (WeightedEdge W)) (worker : Worker W) : Prop where
  stored : List.Forall₂ Stored (log.filter (owns p worker.workerId)) worker.updates.flatten
  size : ∀ operations ∈ worker.updates, operations.length ≤ lastMaxSz + 1

omit [LinearOrder W] [Zero W] in
theorem flatten_emplaceBack {α : Type} {updates : List (List α)} (h : updates ≠ []) (x : α) :
    (emplaceBack updates x).flatten = updates.flatten ++ [x] := by
  conv_rhs => rw [← List.dropLast_append_getLast h]
  rw [emplaceBack, List.getLastD_eq_getLast?, List.getLast?_eq_some_getLast h]
  simp

omit [LinearOrder W] [Zero W] in
theorem mem_emplaceBack {α : Type} {updates : List (List α)} {x : α} {l : List α}
    (h : l ∈ emplaceBack updates x) : l ∈ updates ∨ l = updates.getLastD [] ++ [x] := by
  rcases List.mem_append.mp h with h | h
  · exact Or.inl (List.mem_of_mem_dropLast h)
  · exact Or.inr (List.mem_singleton.mp h)

omit [LinearOrder W] [Zero W] in
theorem flatten_makeRoom {updates : List (List (WeightedEdge W))} (hne : updates ≠ []) :
    makeRoom updates ≠ [] ∧ (makeRoom updates).flatten = updates.flatten := by
  unfold makeRoom
  split_ifs
  · simp
  · exact ⟨hne, rfl⟩

omit [LinearOrder W] [Zero W] in
theorem length_makeRoom {updates : List (List (WeightedEdge W))}
    (hsize : ∀ operations ∈ updates, operations.length ≤ lastMaxSz + 1) :
    ((makeRoom updates).getLastD []).length ≤ lastMaxSz ∧
      ∀ operations ∈ makeRoom updates, operations.length ≤ lastMaxSz + 1 := by
  unfold makeRoom
  split_ifs with hfull
  · refine ⟨by simp, fun operations hmem => ?_⟩
    rcases List.mem_append.mp hmem with hmem | hmem
    · exact hsize operations hmem
    · simp [List.mem_singleton.mp hmem]
  · exact ⟨not_lt.mp hfull, hsize⟩

/-- **One operation** is stored. -/
theorem pushEdge_spec (p : Parameters W) (random : Random W) {worker : Worker W}
    (hne : worker.updates ≠ [])
    (hsize : ∀ operations ∈ worker.updates, operations.length ≤ lastMaxSz + 1)
    (op : WeightedEdge W) :
    (pushEdge p random worker op).updates ≠ [] ∧
      (∃ stored, Stored op stored ∧ (pushEdge p random worker op).updates.flatten =
        worker.updates.flatten ++ [stored]) ∧
      ∀ operations ∈ (pushEdge p random worker op).updates, operations.length ≤ lastMaxSz + 1 := by
  obtain ⟨hne', hflatten⟩ := flatten_makeRoom hne
  obtain ⟨hlast, hroom⟩ := length_makeRoom hsize
  refine ⟨by simp [pushEdge, emplaceBack], ⟨_, stored_loadEdge p random worker.draws op, ?_⟩,
    fun operations hmem => ?_⟩
  · simp only [pushEdge, flatten_emplaceBack hne', hflatten]
  -- only the last vector grows, and it had room
  · rcases mem_emplaceBack hmem with hmem | rfl
    · exact hroom operations hmem
    · simpa using hlast

/-- **A batch**: the queue of a worker gets the operations that it owns. -/
theorem mainLoadEdges_spec {log : List (WeightedEdge W)} {worker : Worker W}
    (h : Queued p log worker) (random : Random W) (edges : List (WeightedEdge W)) :
    Queued p (log ++ edges) (mainLoadEdges p random worker edges) ∧
      (mainLoadEdges p random worker edges).workerId = worker.workerId := by
  set start : Worker W := { worker with updates := initUpdates worker.updates } with hstart
  -- the first vector of the queue changes nothing about what is queued
  have hinit : Queued p log start ∧ start.updates ≠ [] := by
    by_cases hnil : worker.updates = []
    · have hlog := h.stored
      rw [hnil] at hlog
      simp only [hstart, initUpdates, hnil, if_true]
      exact ⟨⟨by simpa using hlog, by simp⟩, by simp⟩
    · simp only [hstart, initUpdates, hnil, if_false]
      exact ⟨⟨h.stored, h.size⟩, hnil⟩
  let P : List (WeightedEdge W) → Worker W → Prop := fun done w =>
    Queued p (log ++ done) w ∧ w.updates ≠ [] ∧ w.workerId = worker.workerId
  have hend : P edges (mainLoadEdges p random worker edges) := by
    -- the invariant on the operations read so far
    apply foldl_prefix P
    · exact ⟨by simpa using hinit.1, hinit.2, rfl⟩
    · rintro done op rest w - ⟨hw, hne, hid⟩
      simp only [P, ← List.append_assoc]
      split_ifs with hown
      · obtain ⟨hne', ⟨stored, hstored, hflatten⟩, hsize⟩ := pushEdge_spec p random hne hw.size op
        refine ⟨⟨?_, hsize⟩, hne', hid⟩
        rw [hflatten, List.filter_append]
        apply List.rel_append hw.stored
        show List.Forall₂ Stored (List.filter (owns p w.workerId) [op]) [stored]
        rw [List.filter_cons_of_pos hown, List.filter_nil]
        exact List.Forall₂.cons hstored List.Forall₂.nil
      · refine ⟨⟨?_, hw.size⟩, hne, hid⟩
        rw [List.filter_append, List.filter_cons_of_neg hown, List.filter_nil, List.append_nil]
        exact hw.stored
  exact ⟨hend.1, hend.2.2⟩

end Loading

/-! ## Execution -/

section Execution

variable {p : Parameters W} {random : Random W}

/-- The queue of the worker is replaced. -/
def Execution.setUpdates (s : Execution W) (updates : List (List (WeightedEdge W))) :
    Execution W :=
  { s with worker := { s.worker with updates := updates } }

/-- The updates are executed without a look at the queue. -/
theorem graphExecuteBatchUpdates_setUpdates (s : Execution W)
    (updates : List (List (WeightedEdge W))) (l : List (WeightedEdge W)) :
    graphExecuteBatchUpdates p random (s.setUpdates updates) l =
      (graphExecuteBatchUpdates p random s l).setUpdates updates := by
  induction l generalizing s with
  | nil => rfl
  | cons update l ih =>
    have hstep : graphExecuteUpdate p random (s.setUpdates updates) update =
        (graphExecuteUpdate p random s update).setUpdates updates := by
      unfold graphExecuteUpdate
      split_ifs <;> rfl
    have hrest := ih (graphExecuteUpdate p random s update)
    rw [← hstep] at hrest
    exact hrest

theorem workerId_graphExecuteBatchUpdates (s : Execution W) (l : List (WeightedEdge W)) :
    (graphExecuteBatchUpdates p random s l).worker.workerId = s.worker.workerId := by
  let P : List (WeightedEdge W) → Execution W → Prop := fun _ s' =>
    s'.worker.workerId = s.worker.workerId
  have hend : P l (graphExecuteBatchUpdates p random s l) := by
    apply foldl_prefix P
    · rfl
    · intro _ update _ s' _ hs'
      unfold graphExecuteUpdate
      split_ifs <;> exact hs'
  exact hend

/-- The number of loops covers the vector. -/
theorem length_le_numLoops (n : ℕ) {g : ℕ} (hg : 1 ≤ g) :
    n ≤ (n / g + if n % g ≠ 0 then 1 else 0) * g := by
  have hdiv := Nat.div_add_mod n g
  have hmod := Nat.mod_lt n hg
  rw [Nat.mul_comm] at hdiv
  split_ifs with h
  · rw [Nat.add_mul, Nat.one_mul]
    omega
  · rw [Nat.add_zero]
    omega

/-- The positions below the last one at which a chunk starts. -/
theorem mul_lt_of_lt_numLoops {n g k : ℕ} (hg : 1 ≤ g)
    (hk : k < n / g + if n % g ≠ 0 then 1 else 0) : k * g < n := by
  have hdiv := Nat.div_add_mod n g
  rw [Nat.mul_comm] at hdiv
  rcases Nat.lt_or_ge k (n / g) with hlt | hge
  · have hle := Nat.mul_le_mul_right g hlt
    rw [Nat.succ_mul] at hle
    omega
  · -- the last chunk is a short one
    split_ifs at hk with hmod
    · obtain rfl : k = n / g := by omega
      omega
    · omega

/-- The end of a chunk: the sum `start + granularity` does not wrap around, since the granularity is
either below the size of the vector or reached by the first chunk. -/
theorem chunk_end (p : Parameters W) {n : ℕ} (hsize : n ≤ lastMaxSz + 1) {k : ℕ}
    (hk : k * p.workerGranularity < n) :
    min ((k * p.workerGranularity + p.workerGranularity) % 2 ^ 64) n =
      min ((k + 1) * p.workerGranularity) n := by
  have hlt := p.workerGranularity_lt
  rw [Nat.succ_mul]
  rcases Nat.lt_or_ge p.workerGranularity n with hgn | hgn
  · rw [Nat.mod_eq_of_lt (by unfold lastMaxSz at hsize; omega)]
  · obtain rfl : k = 0 := by
      by_contra hk0
      have hle := Nat.le_mul_of_pos_left p.workerGranularity (Nat.pos_of_ne_zero hk0)
      omega
    rw [Nat.zero_mul, Nat.zero_add, Nat.mod_eq_of_lt hlt]

/-- **The chunks of a vector** cover it. -/
theorem executeOperations_eq (random : Random W) (s : Execution W)
    {operations : List (WeightedEdge W)} (hsize : operations.length ≤ lastMaxSz + 1) :
    executeOperations p random operations s = graphExecuteBatchUpdates p random s operations := by
  set g := p.workerGranularity with hg
  set n := operations.length with hn
  set numLoops := n / g + if n % g ≠ 0 then 1 else 0 with hloops
  have hg1 : 1 ≤ g := p.one_le_workerGranularity
  -- after `k` chunks, the first `k * g` operations were executed
  have hend : ∀ k ≤ numLoops, (List.range k).foldl (fun (acc : ℕ × Execution W) _ =>
      (min ((acc.1 + g) % 2 ^ 64) n, graphExecuteBatchUpdates p random acc.2
        ((operations.drop acc.1).take (min ((acc.1 + g) % 2 ^ 64) n - acc.1)))) (0, s) =
          (min (k * g) n, graphExecuteBatchUpdates p random s (operations.take (k * g))) := by
    intro k hk
    induction k with
    | zero => simp [graphExecuteBatchUpdates]
    | succ k ih =>
      have hlt : k * g < n := mul_lt_of_lt_numLoops hg1 hk
      -- a chunk is what lies between two multiples of the granularity, or the end
      have hchunk : operations.take ((k + 1) * g) = operations.take (k * g) ++
          (operations.drop (k * g)).take (min ((k + 1) * g) n - k * g) := by
        rw [← List.take_add, Nat.add_sub_cancel' (by rw [Nat.succ_mul]; omega)]
        rw [hn, ← List.take_eq_take_min]
      rw [List.range_succ, List.foldl_append, ih (by omega)]
      simp only [List.foldl_cons, List.foldl_nil]
      rw [Nat.min_eq_left hlt.le, chunk_end p hsize hlt, hchunk]
      simp only [graphExecuteBatchUpdates, List.foldl_append]
      rfl
  have hall : operations.take (numLoops * g) = operations :=
    List.take_of_length_le (length_le_numLoops n hg1)
  have hresult := congrArg Prod.snd (hend numLoops (le_refl _))
  rw [hall] at hresult
  exact hresult

/-- One vector of the queue. -/
theorem executeVector_setUpdates (random : Random W) (s : Execution W)
    (updates : List (List (WeightedEdge W))) {i : ℕ} {operations : List (WeightedEdge W)}
    (hvector : updates.getD (if p.releaseDriverMemory then 0 else i) [] = operations)
    (hsize : operations.length ≤ lastMaxSz + 1) :
    executeVector p random (s.setUpdates updates) i =
      (graphExecuteBatchUpdates p random s operations).setUpdates
        (if p.releaseDriverMemory then updates.tail else updates) := by
  have hread : (s.setUpdates updates).worker.updates = updates := rfl
  simp only [executeVector, hread, hvector, executeOperations_eq random _ hsize,
    graphExecuteBatchUpdates_setUpdates]
  split_ifs
  · rfl
  · rfl

/-- **The vectors of the queue** are executed one after the other, whichever way they are
indexed. -/
theorem mainExecuteUpdates_eq (random : Random W) (worker : Worker W)
    (hsize : ∀ operations ∈ worker.updates, operations.length ≤ lastMaxSz + 1) :
    mainExecuteUpdates p random worker =
      (graphExecuteBatchUpdates p random ⟨worker, []⟩ worker.updates.flatten).setUpdates [] := by
  -- after `k` vectors; they are dropped from the queue if memory is released
  have hrun : ∀ k ≤ worker.updates.length,
      (List.range k).foldl (executeVector p random) ⟨worker, []⟩ =
        (graphExecuteBatchUpdates p random ⟨worker, []⟩ (worker.updates.take k).flatten).setUpdates
          (if p.releaseDriverMemory then worker.updates.drop k else worker.updates) := by
    intro k hk
    induction k with
    | zero =>
      rw [List.drop_zero, ite_self]
      rfl
    | succ k ih =>
      -- the first of what is left, or the one with this index
      have hvector : (if p.releaseDriverMemory then worker.updates.drop k
          else worker.updates).getD (if p.releaseDriverMemory then 0 else k) [] =
          worker.updates[k] := by
        rw [List.getD_eq_getElem?_getD]
        split_ifs
        · rw [List.getElem?_drop, Nat.add_zero, List.getElem?_eq_getElem hk, Option.getD_some]
        · rw [List.getElem?_eq_getElem hk, Option.getD_some]
      have hflatten : (worker.updates.take (k + 1)).flatten =
          (worker.updates.take k).flatten ++ worker.updates[k] := by
        rw [List.take_add_one, List.getElem?_eq_getElem hk, List.flatten_append]
        simp only [Option.toList_some, List.flatten_cons, List.flatten_nil, List.append_nil]
      have hmore : graphExecuteBatchUpdates p random ⟨worker, []⟩
          (worker.updates.take (k + 1)).flatten = graphExecuteBatchUpdates p random
            (graphExecuteBatchUpdates p random ⟨worker, []⟩ (worker.updates.take k).flatten)
            worker.updates[k] := by
        rw [hflatten]
        exact List.foldl_append
      rw [List.range_succ, List.foldl_append, ih (by omega), List.foldl_cons, List.foldl_nil,
        executeVector_setUpdates random _ _ hvector (hsize _ (List.getElem_mem hk)), ← hmore]
      split_ifs
      · rw [List.tail_drop]
      · rfl
  have hend := hrun _ (le_refl _)
  rw [List.take_length] at hend
  simp only [mainExecuteUpdates, hend]
  rfl

/-- The requests of queued operations issue the operations of the log that they stand for. -/
theorem forall₂_requests (random : Random W) (s : Execution W)
    {log stored : List (WeightedEdge W)} (h : List.Forall₂ Stored log stored) :
    ∃ requests, (graphExecuteBatchUpdates p random s stored).requests = s.requests ++ requests ∧
      List.Forall₂ (fun op request => Issues p op request.call) log requests := by
  induction h generalizing s with
  | nil => exact ⟨[], by simp [graphExecuteBatchUpdates], List.Forall₂.nil⟩
  | @cons op stored₀ log stored hop _ ih =>
    obtain ⟨request, hrequest, hissues⟩ := exists_request p random s stored₀
    obtain ⟨requests, hrequests, hall⟩ := ih (graphExecuteUpdate p random s stored₀)
    refine ⟨request :: requests, ?_, List.Forall₂.cons (hissues op hop) hall⟩
    rw [hrequest, List.append_assoc] at hrequests
    exact hrequests

/-- **A worker issues its queue**, and is left with an empty one. -/
theorem mainExecuteUpdates_spec {log : List (WeightedEdge W)} {worker : Worker W}
    (h : Queued p log worker) (random : Random W) :
    List.Forall₂ (fun op request => Issues p op request.call)
        (log.filter (owns p worker.workerId)) (mainExecuteUpdates p random worker).requests ∧
      (mainExecuteUpdates p random worker).worker.updates = [] ∧
      (mainExecuteUpdates p random worker).worker.workerId = worker.workerId := by
  rw [mainExecuteUpdates_eq random worker h.size]
  obtain ⟨requests, hrequests, hall⟩ := forall₂_requests (p := p) random ⟨worker, []⟩ h.stored
  refine ⟨?_, rfl, ?_⟩
  · show List.Forall₂ _ _ (graphExecuteBatchUpdates p random ⟨worker, []⟩
      worker.updates.flatten).requests
    rw [hrequests]
    exact hall
  · exact workerId_graphExecuteBatchUpdates _ _

end Execution

/-! ## A small experiment -/

/-- Settings with the given number of workers. -/
def sampleParameters (numThreads : ℕ) (h : 1 ≤ numThreads) : Parameters ℤ where
  numThreads := numThreads
  workerGranularity := 2
  releaseDriverMemory := true
  measureLatency := false
  isDirected := false
  maxWeight := 1
  hash := id
  one_le_numThreads := h
  one_le_workerGranularity := by norm_num
  workerGranularity_lt := by norm_num
  maxWeight_pos := by norm_num

/-- A worker that swaps every edge. -/
def sampleRandom : Random ℤ := ⟨fun _ => 0, fun _ => true, fun _ => le_refl 0⟩

end Aging2

end GfeDriver
