import Mathlib.Algebra.BigOperators.Fin
import Mathlib.Data.Prod.Lex
import GfeDriver.Foundation.Interleaving
import GfeDriver.Foundation.Runs
import GfeDriver.Experiment.Aging2

/-!
# Runs of the aging experiment

The master alternates between two phases: it loads one or more batches, then lets the workers
execute their queues and waits for all of them. `execute` has one such round with all the batches,
`execute_synchronized_small_batch` one round for each batch. While the queues are executed, the
calls of the workers to the library interleave in any order, each of them atomic.

Every run ends, and it leaves the library with the edges of a sequential replay of the log: each
operation is issued once, and the operations on one edge by one worker in the order of the log. The
identifiers of the workers have 32 bits, so this needs at most `2^32` workers. With one more, the
first and the last worker have the same identifier and both issue the operations of that worker.

## Main definitions

* `Library`, `upsertLibrary`: the library under test, and its abstract behaviour
* `State`, `Step`: the master and its workers
* `Replayed`, `ParallelReplay`: what a run achieves

## Main results

* `reachable_inv`: the requests of each worker, in every reachable state
* `parallelReplay_of_le`: every run replays the log
* `not_parallelReplay`: the number of workers that is too large
-/

namespace GfeDriver

namespace Aging2

open Foundation

variable {W : Type} [LinearOrder W] [Zero W]

/-! ## The library -/

/-- The operations of `UpdateInterface` that the workers call: each returns whether it succeeded. -/
structure Library (G W : Type) where
  addEdgeV2 : G → WeightedEdge W → G × Bool
  removeEdge : G → Edge → G × Bool

/-- One call. -/
def Library.call {G W : Type} (lib : Library G W) (g : G) : Call W → G × Bool
  | .addEdgeV2 e => lib.addEdgeV2 g e
  | .removeEdge e => lib.removeEdge g e

/-- The edges of a graph, with their weights. -/
abbrev Graph (W : Type) := Edge → Option W

/-- An edge as a graph stores it: an undirected graph does not distinguish the orientations. -/
def edgeKey (isDirected : Bool) (e : Edge) : Edge :=
  if isDirected then e else ⟨min e.source e.destination, max e.source e.destination⟩

/-- **The abstract library**: an insertion is an upsert and a deletion erases the edge. -/
def upsertLibrary (isDirected : Bool) : Library (Graph W) W where
  addEdgeV2 g e := (Function.update g (edgeKey isDirected e.edge) (some e.weight), true)
  removeEdge g e := (Function.update g (edgeKey isDirected e) none, true)

/-- **The sequential replay** of a log. -/
def replay (isDirected : Bool) (log : List (WeightedEdge W)) (g : Graph W) : Graph W :=
  log.foldl (fun g op => Function.update g (edgeKey isDirected op.edge)
    (if 0 ≤ op.weight then some op.weight else none)) g

/-! ## The master and its workers -/

/-- The batches of one round: those that are loaded before the queues are executed. -/
abbrev Round (W : Type) := List (List (WeightedEdge W))

/-- The rounds of `Aging2Master::execute`. -/
def execute (batches : List (List (WeightedEdge W))) : List (Round W) := [batches]

/-- The rounds of `Aging2Master::execute_synchronized_small_batch`. -/
def executeSynchronizedSmallBatch (batches : List (List (WeightedEdge W))) : List (Round W) :=
  batches.map fun batch => [batch]

/-- The operations of some rounds. -/
def logOf (rounds : List (Round W)) : List (WeightedEdge W) := rounds.flatten.flatten

/-- The rounds to come, the workers, `m_latencies_num_insertions`, the requests that each worker
still has to make, the library, the calls made so far, and the elements written in `m_latencies`
since it was allocated. -/
structure State (n : ℕ) (G W : Type) where
  rounds : List (Round W)
  workers : Fin n → Worker W
  latenciesNumInsertions : ℕ
  pending : Fin n → List (Request W)
  graph : G
  issued : List (Fin n × Call W)
  written : List ℕ

/-- The workers after `load_edges` for each batch. -/
def loadBatches (p : Parameters W) (random : Fin p.numThreads → Random W) (batches : Round W)
    (workers : Fin p.numThreads → Worker W) : Fin p.numThreads → Worker W :=
  fun i => batches.foldl (mainLoadEdges p (random i)) (workers i)

/-- `Aging2Master::prepare_latencies`: the slices of the workers, where `numInsertions` is the new
value of `m_latencies_num_insertions`. -/
def prepareLatencies {n : ℕ} (workers : Fin n → Worker W) (numInsertions : ℕ) :
    Fin n → Worker W := fun i =>
  { workers i with
    latencyInsertions := some (∑ j ∈ Finset.Iio i, (workers j).numEdgeInsertions)
    latencyDeletions :=
      some (numInsertions + ∑ j ∈ Finset.Iio i, (workers j).numEdgeDeletions) }

/-- The new value of `m_latencies_num_insertions`. -/
def nextNumInsertions {n : ℕ} (workers : Fin n → Worker W) (numInsertions : ℕ) : ℕ :=
  numInsertions + ∑ i, (workers i).numEdgeInsertions

/-- The workers when `execute_updates` is called. -/
def readyWorkers (p : Parameters W) (random : Fin p.numThreads → Random W) {G : Type}
    (s : State p.numThreads G W) (batches : Round W) : Fin p.numThreads → Worker W :=
  let loaded := loadBatches p random batches s.workers
  if p.measureLatency then
    prepareLatencies loaded (nextNumInsertions loaded s.latenciesNumInsertions)
  else loaded

/-- The load of a round and the start of its execution. -/
def startRound (p : Parameters W) (random : Fin p.numThreads → Random W) {G : Type}
    (s : State p.numThreads G W) (batches : Round W) (rest : List (Round W)) :
    State p.numThreads G W :=
  { s with
    rounds := rest
    workers := fun i => (mainExecuteUpdates p (random i) (readyWorkers p random s batches i)).worker
    latenciesNumInsertions :=
      if p.measureLatency then
        nextNumInsertions (loadBatches p random batches s.workers) s.latenciesNumInsertions
      else s.latenciesNumInsertions
    pending := fun i =>
      (mainExecuteUpdates p (random i) (readyWorkers p random s batches i)).requests
    written := if p.measureLatency then [] else s.written }

/-- **A step**: the master starts the next round when all the workers are idle, or a worker calls
the library. The call is repeated if it fails, and its latency is written if it succeeds. -/
inductive Step (p : Parameters W) (random : Fin p.numThreads → Random W) {G : Type}
    (lib : Library G W) : State p.numThreads G W → State p.numThreads G W → Prop
  | round {s : State p.numThreads G W} {batches : Round W} {rest : List (Round W)}
      (hrounds : s.rounds = batches :: rest) (hidle : ∀ i, s.pending i = []) :
      Step p random lib s (startRound p random s batches rest)
  | call {s : State p.numThreads G W} (i : Fin p.numThreads) {request : Request W}
      {rest : List (Request W)} (hpending : s.pending i = request :: rest) :
      Step p random lib s
        { s with
          pending := Function.update s.pending i
            (if (lib.call s.graph request.call).2 then rest else request :: rest)
          graph := (lib.call s.graph request.call).1
          issued := s.issued ++ [(i, request.call)]
          written := if (lib.call s.graph request.call).2 then s.written ++ request.slot.toList
            else s.written }

/-- The state before the first round. -/
def initial (p : Parameters W) {G : Type} (rounds : List (Round W)) (g : G) :
    State p.numThreads G W :=
  ⟨rounds, fun i => Worker.new i, 0, fun _ => [], g, [], []⟩

/-- The states of the runs over the given rounds. -/
def Reachable (p : Parameters W) (random : Fin p.numThreads → Random W) (rounds : List (Round W))
    (g : Graph W) (s : State p.numThreads (Graph W) W) : Prop :=
  Relation.ReflTransGen (Step p random (upsertLibrary p.isDirected)) (initial p rounds g) s

/-- The experiment is over. -/
def Done {n : ℕ} {G : Type} (s : State n G W) : Prop := s.rounds = [] ∧ ∀ i, s.pending i = []

/-- **The log was replayed**: every operation was issued once, the operations on an edge, in either
orientation, by one worker in the order of the log, and the edges are those of the sequential
replay. -/
structure Replayed (p : Parameters W) (log : List (WeightedEdge W)) (g : Graph W)
    (s : State p.numThreads (Graph W) W) : Prop where
  once : ∃ order : List (WeightedEdge W × ℕ), order.Perm log.zipIdx ∧
    List.Forall₂ (fun x c => Issues p x.1 c.2) order s.issued ∧
    order.Pairwise fun x y => SameEdge x.1.edge y.1.edge → x.2 < y.2
  worker : ∀ c ∈ s.issued, ∀ c' ∈ s.issued, SameEdge c.2.edge c'.2.edge → c.1 = c'.1
  edges : ∀ e, (s.graph e).isSome = (replay p.isDirected log g e).isSome

/-- **Parallel replay**: no run gets stuck before the experiment is over or goes on forever, and the
log was replayed when it is over. -/
structure ParallelReplay (p : Parameters W) (random : Fin p.numThreads → Random W)
    (rounds : List (Round W)) (g : Graph W) : Prop where
  progress : ∀ s, Reachable p random rounds g s → ¬Done s →
    ∃ s', Step p random (upsertLibrary p.isDirected) s s'
  finite : ∀ run : ℕ → State p.numThreads (Graph W) W, run 0 = initial p rounds g →
    ∃ k, ¬Step p random (upsertLibrary p.isDirected) (run k) (run (k + 1))
  replayed : ∀ s, Reachable p random rounds g s → Done s → Replayed p (logOf rounds) g s

/-! ## The requests of the workers -/

section Invariant

variable {p : Parameters W} {random : Fin p.numThreads → Random W} {rounds : List (Round W)}
  {g : Graph W}

omit [LinearOrder W] [Zero W] in
theorem logOf_append (done : List (Round W)) (batches : Round W) :
    logOf (done ++ [batches]) = logOf done ++ batches.flatten := by
  simp [logOf]

theorem Queued.congr {log : List (WeightedEdge W)} {worker worker' : Worker W}
    (h : Queued p log worker) (hupdates : worker'.updates = worker.updates)
    (hid : worker'.workerId = worker.workerId) : Queued p log worker' :=
  ⟨by rw [hupdates, hid]; exact h.stored, by rw [hupdates]; exact h.size⟩

/-- The queue of a worker after the batches of a round. -/
theorem queued_foldl (random : Random W) (worker : Worker W) (hempty : worker.updates = [])
    (batches : Round W) :
    Queued p batches.flatten (batches.foldl (mainLoadEdges p random) worker) ∧
      (batches.foldl (mainLoadEdges p random) worker).workerId = worker.workerId := by
  apply foldl_prefix (fun done w => Queued p (List.flatten done) w ∧ w.workerId = worker.workerId)
  · refine ⟨⟨?_, ?_⟩, rfl⟩
    · rw [hempty]
      exact List.Forall₂.nil
    · simp [hempty]
  · rintro done batch rest w - ⟨hw, hid⟩
    obtain ⟨hqueued, hid'⟩ := mainLoadEdges_spec hw random batch
    refine ⟨?_, hid'.trans hid⟩
    rw [List.flatten_append]
    simpa using hqueued

/-- **The requests of a round**: each worker gets the operations of the round that it owns. -/
theorem startRound_spec (random : Fin p.numThreads → Random W) {G : Type}
    {s : State p.numThreads G W} (batches : Round W) (rest : List (Round W))
    (h : ∀ i, (s.workers i).updates = [] ∧ (s.workers i).workerId = BitVec.ofNat 32 i)
    (i : Fin p.numThreads) :
    List.Forall₂ (Issues p) (batches.flatten.filter (owns p (BitVec.ofNat 32 i)))
        (((startRound p random s batches rest).pending i).map Request.call) ∧
      ((startRound p random s batches rest).workers i).updates = [] ∧
      ((startRound p random s batches rest).workers i).workerId = BitVec.ofNat 32 i := by
  obtain ⟨hempty, hid⟩ := h i
  obtain ⟨hqueued, hid'⟩ := queued_foldl (p := p) (random i) (s.workers i) hempty batches
  -- the master hands out the slices of the latencies, which changes no queue
  have hready : Queued p batches.flatten (readyWorkers p random s batches i) ∧
      (readyWorkers p random s batches i).workerId = BitVec.ofNat 32 i := by
    unfold readyWorkers
    split_ifs
    · exact ⟨hqueued.congr rfl rfl, hid'.trans hid⟩
    · exact ⟨hqueued, hid'.trans hid⟩
  obtain ⟨hissues, hdrained, hid''⟩ := mainExecuteUpdates_spec hready.1 (random i)
  refine ⟨?_, hdrained, hid''.trans hready.2⟩
  rw [hready.2] at hissues
  exact List.forall₂_map_right_iff.mpr hissues

/-- **The invariant of a run**: the queues are empty, and the calls that each worker made or still
has to make issue the operations that it owns, among those of the rounds started so far. -/
structure Inv (p : Parameters W) (rounds : List (Round W)) (g : Graph W)
    (s : State p.numThreads (Graph W) W) : Prop where
  idle : ∀ i, (s.workers i).updates = [] ∧ (s.workers i).workerId = BitVec.ofNat 32 i
  issues : ∃ done, rounds = done ++ s.rounds ∧
    ∀ i : Fin p.numThreads,
      List.Forall₂ (Issues p) ((logOf done).filter (owns p (BitVec.ofNat 32 i)))
      (callsBy s.issued i ++ (s.pending i).map Request.call)
  graph : s.graph = s.issued.foldl (fun g c => ((upsertLibrary p.isDirected).call g c.2).1) g

omit [LinearOrder W] [Zero W] in
theorem upsertLibrary_call_snd (isDirected : Bool) (g : Graph W) (c : Call W) :
    ((upsertLibrary isDirected).call g c).2 = true := by
  cases c <;> rfl

theorem inv_initial : Inv p rounds g (initial p rounds g) := by
  refine ⟨fun i => ⟨rfl, rfl⟩, ⟨[], rfl, fun i => ?_⟩, rfl⟩
  exact List.Forall₂.nil

theorem Inv.step {s s' : State p.numThreads (Graph W) W} (h : Inv p rounds g s)
    (hstep : Step p random (upsertLibrary p.isDirected) s s') : Inv p rounds g s' := by
  obtain ⟨done, hdone, hissues⟩ := h.issues
  cases hstep with
  | @round batches rest hrounds hidle =>
    -- a round adds its operations to the log, and each worker has its own of these to make
    have hround := startRound_spec random batches rest h.idle
    refine ⟨fun i => (hround i).2, ⟨done ++ [batches], ?_, fun i => ?_⟩, h.graph⟩
    · rw [hdone, hrounds, List.append_assoc]
      rfl
    · have hbefore := hissues i
      rw [hidle i, List.map_nil, List.append_nil] at hbefore
      rw [logOf_append, List.filter_append]
      exact List.rel_append hbefore (hround i).1
  | @call i request rest hpending =>
    refine ⟨h.idle, ⟨done, hdone, fun j => ?_⟩, ?_⟩
    -- the library accepts the call, which moves from the pending to the issued calls
    · have hbefore := hissues j
      simp only [upsertLibrary_call_snd, if_true, callsBy_append]
      by_cases hij : i = j
      · subst hij
        rw [hpending] at hbefore
        simpa [callsBy_cons_self] using hbefore
      · rw [callsBy_cons_ne hij, callsBy_nil, List.append_nil, Function.update_of_ne (Ne.symm hij)]
        exact hbefore
    · simp only [List.foldl_append, List.foldl_cons, List.foldl_nil, h.graph]

/-- The invariant holds in every reachable state. -/
theorem reachable_inv {s : State p.numThreads (Graph W) W} (h : Reachable p random rounds g s) :
    Inv p rounds g s :=
  reachable_invariant inv_initial (fun _ _ hs hstep => hs.step hstep) h

end Invariant

/-! ## Termination -/

section Termination

variable {p : Parameters W} {random : Fin p.numThreads → Random W}

/-- The rounds to come, then the requests left. -/
def remaining {n : ℕ} {G : Type} (s : State n G W) : ℕ ×ₗ ℕ :=
  toLex (s.rounds.length, ∑ i, (s.pending i).length)

/-- Every step lowers what remains. -/
theorem remaining_lt {s s' : State p.numThreads (Graph W) W}
    (h : Step p random (upsertLibrary p.isDirected) s s') : remaining s' < remaining s := by
  rw [remaining, remaining, Prod.Lex.toLex_lt_toLex]
  cases h with
  | @round batches rest hrounds hidle =>
    -- one round less
    refine Or.inl ?_
    show rest.length < s.rounds.length
    simp [hrounds]
  | @call i request rest hpending =>
    -- one request less, with the same rounds
    refine Or.inr ⟨rfl, ?_⟩
    simp only [upsertLibrary_call_snd, if_true]
    apply Finset.sum_lt_sum
    · intro j _
      by_cases hij : j = i
      · subst hij
        simp [hpending]
      · simp [Function.update_of_ne hij]
    · exact ⟨i, Finset.mem_univ i, by simp [hpending]⟩

/-- A step is possible until the experiment is over. -/
theorem exists_step (random : Fin p.numThreads → Random W)
    {s : State p.numThreads (Graph W) W} (h : ¬Done s) :
    ∃ s', Step p random (upsertLibrary p.isDirected) s s' := by
  by_cases hidle : ∀ i, s.pending i = []
  · cases hrounds : s.rounds with
    | nil => exact absurd ⟨hrounds, hidle⟩ h
    | cons batches rest => exact ⟨_, Step.round hrounds hidle⟩
  · push Not at hidle
    obtain ⟨i, hi⟩ := hidle
    obtain ⟨request, rest, hpending⟩ := List.exists_cons_of_ne_nil hi
    exact ⟨_, Step.call i hpending⟩

/-- Some run completes the experiment. -/
theorem exists_done (random : Fin p.numThreads → Random W) (rounds : List (Round W))
    (g : Graph W) : ∃ s, Reachable p random rounds g s ∧ Done s := by
  have hlt : ∀ s s', Step p random (upsertLibrary p.isDirected) s s' → remaining s' < remaining s :=
    fun _ _ h => remaining_lt h
  obtain ⟨s, hreach, hfinal⟩ := exists_final remaining hlt (initial p rounds g)
  refine ⟨s, hreach, ?_⟩
  by_contra hdone
  obtain ⟨s', hs'⟩ := exists_step random hdone
  exact hfinal s' hs'

end Termination

/-! ## The replay of the log -/

section Replay

variable {p : Parameters W}

/-- The owner of an operation, as a worker. -/
def ownerWorker (p : Parameters W) (op : WeightedEdge W) : Fin p.numThreads :=
  ⟨owner p op, owner_lt p op⟩

/-- Identifiers of 32 bits tell apart up to `2^32` workers. -/
theorem owns_iff (hn : p.numThreads ≤ 2 ^ 32) (i : Fin p.numThreads) (op : WeightedEdge W) :
    owns p (BitVec.ofNat 32 i) op = true ↔ ownerWorker p op = i := by
  have hop := owner_lt p op
  have hi := i.isLt
  rw [owns, decide_eq_true_eq, ← BitVec.toNat_inj, BitVec.toNat_ofNat, BitVec.toNat_ofNat,
    Nat.mod_eq_of_lt (by omega), Nat.mod_eq_of_lt (by omega), ownerWorker, Fin.ext_iff]

omit [LinearOrder W] [Zero W] in
/-- Both orientations of an edge have one key only if they are the same edge. -/
theorem sameEdge_of_edgeKey {isDirected : Bool} {e e' : Edge}
    (h : edgeKey isDirected e = edgeKey isDirected e') : SameEdge e e' := by
  obtain ⟨a, b⟩ := e
  obtain ⟨c, d⟩ := e'
  cases isDirected with
  | true => exact Or.inl h
  | false =>
    simp only [edgeKey, Bool.false_eq_true, if_false, Edge.mk.injEq] at h
    obtain ⟨hmin, hmax⟩ := h
    -- the ends of an undirected edge are compared in their order
    rcases le_total a b with hab | hab <;> rcases le_total c d with hcd | hcd <;>
      simp only [hab, hcd, min_eq_left, min_eq_right, max_eq_left, max_eq_right] at hmin hmax
    · exact Or.inl (by rw [hmin, hmax])
    · exact Or.inr (by rw [hmin, hmax]; rfl)
    · exact Or.inr (by rw [hmin, hmax]; rfl)
    · exact Or.inl (by rw [hmin, hmax])

/-- A call touches the key of its operation. -/
theorem Issues.edgeKey_eq {op : WeightedEdge W} {c : Call W} (h : Issues p op c) :
    edgeKey p.isDirected c.edge = edgeKey p.isDirected op.edge := by
  have hends : c.edge = op.edge ∨ p.isDirected = false ∧ c.edge = op.edge.swapSrcDst := by
    cases c with
    | addEdgeV2 e => exact h.2.2.2
    | removeEdge e => exact h.2
  rcases hends with heq | ⟨hdirected, heq⟩
  · rw [heq]
  · rw [heq, edgeKey, edgeKey, hdirected]
    simp [Edge.swapSrcDst, min_comm, max_comm]

/-- The calls leave the edges that a replay of their operations leaves. -/
theorem isSome_of_issues {order : List (WeightedEdge W × ℕ)}
    {issued : List (Fin p.numThreads × Call W)}
    (h : List.Forall₂ (fun x c => Issues p x.1 c.2) order issued) {g g' : Graph W}
    (hg : ∀ e, (g e).isSome = (g' e).isSome) (e : Edge) :
    (issued.foldl (fun g c => ((upsertLibrary p.isDirected).call g c.2).1) g e).isSome =
      (replay p.isDirected (order.map Prod.fst) g' e).isSome := by
  induction h generalizing g g' with
  | nil => exact hg e
  | @cons x c order issued hxc _ ih =>
    rw [List.foldl_cons, List.map_cons, replay, List.foldl_cons]
    apply ih
    intro e'
    -- the call and the operation are of the same edge, whatever the order of its ends
    have hkey := hxc.edgeKey_eq
    obtain ⟨i, c⟩ := c
    cases c with
    | addEdgeV2 e₁ =>
      have hnonneg : 0 ≤ x.1.weight := hxc.1
      simp only [Library.call, upsertLibrary, hnonneg, if_true]
      rw [show edgeKey p.isDirected e₁.edge = edgeKey p.isDirected x.1.edge from hkey]
      by_cases he : e' = edgeKey p.isDirected x.1.edge
      · subst he
        simp
      · rw [Function.update_of_ne he, Function.update_of_ne he]
        exact hg e'
    | removeEdge e₁ =>
      have hneg : ¬0 ≤ x.1.weight := hxc.1
      simp only [Library.call, upsertLibrary, hneg, if_false]
      rw [show edgeKey p.isDirected e₁ = edgeKey p.isDirected x.1.edge from hkey]
      by_cases he : e' = edgeKey p.isDirected x.1.edge
      · subst he
        simp
      · rw [Function.update_of_ne he, Function.update_of_ne he]
        exact hg e'

/-- The replay is a sequence of updates of one key. -/
theorem replay_eq_foldl (isDirected : Bool) (l : List (WeightedEdge W × ℕ)) (g : Graph W) :
    replay isDirected (l.map Prod.fst) g =
      l.foldl (keyedStep (fun x => edgeKey isDirected x.1.edge)
        (fun x _ => if 0 ≤ x.1.weight then some x.1.weight else none)) g := by
  rw [replay, List.foldl_map]
  rfl

/-- **Interleaved calls replay the log.** -/
theorem replayed_of_interleaves {log : List (WeightedEdge W)} {g : Graph W}
    {s : State p.numThreads (Graph W) W}
    (h : Interleaves (ownerWorker p) (Issues p) log s.issued)
    (hgraph : s.graph =
      s.issued.foldl (fun g c => ((upsertLibrary p.isDirected).call g c.2).1) g) :
    Replayed p log g s := by
  -- the operations are told apart by their positions in the log
  have htagged : Interleaves (fun x : WeightedEdge W × ℕ => ownerWorker p x.1)
      (fun x c => Issues p x.1 c) log.zipIdx s.issued := by
    intro i
    rw [← List.forall₂_map_left_iff (f := Prod.fst)]
    have hmap : (log.zipIdx.filter fun x => ownerWorker p x.1 = i).map Prod.fst =
        log.filter fun x => ownerWorker p x = i := by
      conv_rhs => rw [← List.zipIdx_map_fst 0 log]
      rw [List.filter_map]
      rfl
    rw [hmap]
    exact h i
  obtain ⟨order, hreorder, hcalls⟩ := htagged.exists_reorders
  have hissues : List.Forall₂ (fun x c => Issues p x.1 c.2) order s.issued :=
    hcalls.imp fun x c hxc => hxc.2
  have howner : ∀ x y : WeightedEdge W, SameEdge x.edge y.edge →
      ownerWorker p x = ownerWorker p y := fun x y hxy => Fin.ext (owner_eq_of_sameEdge p hxy)
  refine ⟨⟨order, hreorder.perm, hissues, ?_⟩, ?_, fun e => ?_⟩
  · have hlog : log.zipIdx.Pairwise fun x y => x.2 < y.2 := by
      have hrange : (log.zipIdx.map Prod.snd).Pairwise (· < ·) := by
        rw [List.zipIdx_map_snd]
        exact List.pairwise_lt_range'
      exact List.pairwise_map.mp hrange
    exact (hreorder.pairwise hlog).imp fun {x y} hxy hsame => hxy (howner x.1 y.1 hsame)
  · intro c hc c' hc' hsame
    obtain ⟨x, -, hx, hxc⟩ := exists_of_forall₂_right hcalls hc
    obtain ⟨x', -, hx', hxc'⟩ := exists_of_forall₂_right hcalls hc'
    rw [← hx, ← hx']
    apply howner
    exact hxc.sameEdge.symm.trans (hsame.trans hxc'.sameEdge)
  · rw [hgraph, isSome_of_issues hissues (fun _ => rfl) e, replay_eq_foldl,
      hreorder.foldl_keyedStep_eq _ _ (fun x y hxy => howner x.1 y.1 (sameEdge_of_edgeKey hxy)),
      ← replay_eq_foldl, List.zipIdx_map_fst]

end Replay

/-! ## Parallel replay -/

section Main

variable {p : Parameters W}

/-- What each worker has called when the experiment is over. -/
theorem forall₂_of_done {random : Fin p.numThreads → Random W} {rounds : List (Round W)}
    {g : Graph W} {s : State p.numThreads (Graph W) W} (h : Reachable p random rounds g s)
    (hdone : Done s) (i : Fin p.numThreads) :
    List.Forall₂ (Issues p) ((logOf rounds).filter (owns p (BitVec.ofNat 32 i)))
      (callsBy s.issued i) := by
  obtain ⟨done, hrounds, hissues⟩ := (reachable_inv h).issues
  have hi := hissues i
  rw [hdone.1, List.append_nil] at hrounds
  rw [hdone.2 i, List.map_nil, List.append_nil, ← hrounds] at hi
  exact hi

/-- **Parallel aging equals sequential replay**, for up to `2^32` workers. -/
theorem parallelReplay_of_le (hn : p.numThreads ≤ 2 ^ 32)
    (random : Fin p.numThreads → Random W) (rounds : List (Round W)) (g : Graph W) :
    ParallelReplay p random rounds g where
  progress := fun _ _ hdone => exists_step random hdone
  finite := by
    intro run _
    exact runs_finite remaining (fun _ _ h => remaining_lt h) run
  replayed := by
    intro s hreach hdone
    apply replayed_of_interleaves _ (reachable_inv hreach).graph
    intro i
    -- the queue of a worker is the part of the log that it owns
    have hfilter : ((logOf rounds).filter fun x => ownerWorker p x = i) =
        (logOf rounds).filter (owns p (BitVec.ofNat 32 i)) := by
      refine List.filter_congr fun op _ => ?_
      rw [Bool.eq_iff_iff, decide_eq_true_eq, owns_iff hn]
    rw [hfilter]
    exact forall₂_of_done hreach hdone i

theorem parallelReplay_three :
    ParallelReplay (sampleParameters 3 (Nat.succ_pos 2)) (fun _ => sampleRandom)
      (executeSynchronizedSmallBatch [[⟨1, 2, 5⟩, ⟨2, 3, 0⟩], [⟨2, 1, -1⟩]]) (fun _ => none) :=
  parallelReplay_of_le (by norm_num [sampleParameters]) _ _ _

/-- With `2^32 + 1` workers, two of them issue the insertion of the edge from `1` to `2^32`. -/
theorem not_parallelReplay :
    ¬ParallelReplay (sampleParameters (2 ^ 32 + 1) (Nat.succ_pos _)) (fun _ => sampleRandom)
      (execute [[⟨1, 2 ^ 32, 5⟩]]) (fun _ => none) := by
  intro h
  set p := sampleParameters (2 ^ 32 + 1) (Nat.succ_pos _) with hp
  obtain ⟨s, hreach, hdone⟩ := exists_done (p := p) (fun _ => sampleRandom)
    (execute [[⟨1, 2 ^ 32, 5⟩]]) (fun _ => none)
  -- the operation belongs to the workers whose identifier is zero
  have howns : ∀ i : Fin p.numThreads, BitVec.ofNat 32 (i : ℕ) = 0#32 →
      ∃ c, (i, c) ∈ s.issued := by
    intro i hi
    have hcalls := forall₂_of_done hreach hdone i
    have hown : owns p (BitVec.ofNat 32 (i : ℕ)) ⟨1, 2 ^ 32, 5⟩ = true := by
      rw [owns, decide_eq_true_eq, hi, owner, hp]
      simp [sampleParameters]
    have hlog : logOf (execute [[(⟨1, 2 ^ 32, 5⟩ : WeightedEdge ℤ)]]) = [⟨1, 2 ^ 32, 5⟩] := rfl
    rw [hlog, List.filter_cons_of_pos hown, List.filter_nil] at hcalls
    obtain ⟨c, rest, -, -, hcons⟩ := List.forall₂_cons_left_iff.mp hcalls
    have hmem : c ∈ callsBy s.issued i := by simp [hcons]
    obtain ⟨⟨j, c'⟩, hmem', rfl⟩ := List.mem_map.mp hmem
    obtain ⟨hin, hj⟩ := List.mem_filter.mp hmem'
    obtain rfl : j = i := by simpa using hj
    exact ⟨c', hin⟩
  obtain ⟨c, hc⟩ := howns ⟨0, by norm_num [hp, sampleParameters]⟩ rfl
  obtain ⟨c', hc'⟩ := howns ⟨2 ^ 32, by norm_num [hp, sampleParameters]⟩
    (BitVec.eq_of_toNat_eq (by simp))
  obtain ⟨order, hperm, hissues, -⟩ := (h.replayed s hreach hdone).once
  have hlength : s.issued.length = 1 := by
    rw [← hissues.length_eq, hperm.length_eq]
    rfl
  obtain ⟨x, hx⟩ := List.length_eq_one_iff.mp hlength
  rw [hx, List.mem_singleton] at hc hc'
  have hfst := congrArg (fun c => (c.1 : ℕ)) (hc.trans hc'.symm)
  norm_num at hfst

end Main

end Aging2

end GfeDriver
