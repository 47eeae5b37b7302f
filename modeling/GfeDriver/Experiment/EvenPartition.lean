import Mathlib.Data.List.AList
import GfeDriver.Foundation.Interleaving
import GfeDriver.Experiment.Aging2

/-!
# Even partition of a batch

`execute_synchronized_small_batch_even_partition` hands the operations of a batch to the workers by
itself. The first operation on an edge goes to the next worker that the hand of a clock finds with
its bit clear; the hand clears the bits that it passes. A later operation on the same edge goes to
the same worker, and sets its bit.

Each move of the hand that does not end its loop clears a bit, so the loop ends after at most one
move more than there are workers, whatever bits the earlier operations have set. The map from the
edges to their workers is a hash table with the hash `hash_edge`, which does not affect what it
holds. The accesses with `at` fail when they are out of bounds.

## Main definitions

* `Clock`, `clockMove`: the hand of the clock
* `Partition`, `handEdge`, `evenPartition`: the loop over a batch

## Main results

* `clock_total`: the loop of the hand ends
* `evenPartition_spec`: every operation goes to one worker, and the operations on an edge to the
  same
-/

namespace GfeDriver

namespace Aging2

open Foundation

variable {W : Type} [LinearOrder W] [Zero W]

/-! ## The program -/

/-- `Aging2Worker::load_edge`. -/
def loadEdge (p : Parameters W) (random : Random W) (worker : Worker W) (edge : WeightedEdge W) :
    Worker W :=
  pushEdge p random { worker with updates := initUpdates worker.updates } edge

/-- The variables of the loop of the hand: the bits, the hand, and the worker found. -/
structure Clock where
  bits : List Bool
  offset : ℕ
  found : Option ℕ

/-- The body of the loop of the hand. -/
def clockMove (numWorkers : ℕ) (c : Clock) : Option Clock := do
  let bit ← c.bits[c.offset]?
  return { bits := c.bits.set c.offset !bit
           offset := (c.offset + 1) % numWorkers
           found := if bit then none else some c.offset }

/-- The loop of the hand, `while (continue_clock)`. -/
def moveHand (numWorkers fuel : ℕ) (bits : List Bool) (offset : ℕ) : Option Clock :=
  whileLoop (fun c => c.found.isNone) (clockMove numWorkers) fuel ⟨bits, offset, none⟩

/-- The variables of the loop over a batch, and the calls to `load_edge` made so far. -/
structure Partition (W : Type) where
  workers : List (Worker W)
  offset : ℕ
  edgeToWorkerMap : AList fun _ : Edge => ℕ
  clockEvenDistribution : List Bool
  loads : List (ℕ × WeightedEdge W)

/-- `m_workers.at(i)->load_edge(...)`. -/
def loadAt (p : Parameters W) (random : ℕ → Random W) (s : Partition W) (i : ℕ)
    (edge : WeightedEdge W) : Option (Partition W) := do
  let worker ← s.workers[i]?
  return { s with
    workers := s.workers.set i (loadEdge p (random i) worker edge)
    loads := s.loads ++ [(i, edge)] }

/-- The body of the loop over a batch. -/
def handEdge (p : Parameters W) (random : ℕ → Random W) (fuel : ℕ) (s : Partition W)
    (edge : WeightedEdge W) : Option (Partition W) :=
  match s.edgeToWorkerMap.lookup edge.edge with
  | none => do
    let clock ← moveHand s.workers.length fuel s.clockEvenDistribution s.offset
    let owner ← clock.found
    loadAt p random
      { s with
        offset := clock.offset
        clockEvenDistribution := clock.bits
        edgeToWorkerMap := s.edgeToWorkerMap.insert edge.edge owner } owner edge
  | some owner => do
    let s' ← loadAt p random s owner edge
    let _ ← s'.clockEvenDistribution[owner]?
    return { s' with clockEvenDistribution := s'.clockEvenDistribution.set owner true }

/-- The loop of `execute_synchronized_small_batch_even_partition` over one batch. -/
def evenPartition (p : Parameters W) (random : ℕ → Random W) (fuel : ℕ)
    (workers : List (Worker W)) (batch : List (WeightedEdge W)) : Option (Partition W) :=
  batch.foldlM (handEdge p random fuel)
    ⟨workers, 0, ∅, List.replicate workers.length false, []⟩

/-! ## The hand -/

section Hand

/-- Clearing a set bit. -/
theorem count_set_false {l : List Bool} {i : ℕ} (h : l[i]? = some true) :
    (l.set i false).count true + 1 = l.count true := by
  induction l generalizing i with
  | nil => simp at h
  | cons b l ih =>
    cases i with
    | zero =>
      obtain rfl : b = true := by simpa using h
      simp
    | succ i =>
      have hrest := ih (by simpa using h)
      simp only [List.set_cons_succ, List.count_cons]
      omega

/-- **The loop of the hand ends** after at most `numWorkers + 1` moves, with a worker. -/
theorem clock_total {numWorkers fuel : ℕ} (hfuel : numWorkers + 1 < fuel) {bits : List Bool}
    (hbits : bits.length = numWorkers) {offset : ℕ} (hoffset : offset < numWorkers) :
    ∃ c i, moveHand numWorkers fuel bits offset = some c ∧ c.found = some i ∧ i < numWorkers ∧
      c.bits.length = numWorkers ∧ c.offset < numWorkers := by
  let I : Clock → Prop := fun c => c.bits.length = numWorkers ∧ c.offset < numWorkers ∧
    ∀ i, c.found = some i → i < numWorkers
  let m : Clock → ℕ := fun c => if c.found.isNone then c.bits.count true + 1 else 0
  have hmove : ∀ c, I c → c.found.isNone = true →
      ∃ c', clockMove numWorkers c = some c' ∧ I c' ∧ m c' < m c := by
    rintro c ⟨hlen, hoff, -⟩ hnone
    have hlt : c.offset < c.bits.length := hlen.symm ▸ hoff
    have hget := List.getElem?_eq_getElem hlt
    have hnext : (c.offset + 1) % numWorkers < numWorkers := Nat.mod_lt _ (by omega)
    refine ⟨_, by simp only [clockMove, hget, Option.bind_eq_bind, Option.bind_some]; rfl,
      ⟨by simpa using hlen, hnext, fun i hi => ?_⟩, ?_⟩
    · simp only at hi
      split_ifs at hi
      obtain rfl := Option.some.inj hi
      exact hoff
    · -- a move that does not end the loop clears a bit
      cases hbit : c.bits[c.offset] with
      | true =>
        rw [hbit] at hget
        have hcount := count_set_false hget
        simp only [m, hnone, if_true, Bool.not_true, Option.isNone_none]
        omega
      | false =>
        simp only [m, hnone, if_true]
        simp
  have hinit : m ⟨bits, offset, none⟩ < fuel := by
    have hle : bits.count true ≤ bits.length := List.count_le_length
    show bits.count true + 1 < fuel
    omega
  obtain ⟨c, hrun, ⟨hlen, hoff, hfound⟩, hend⟩ := whileLoop_total I m hmove fuel
    ⟨bits, offset, none⟩ ⟨hbits, hoffset, by simp⟩ hinit
  obtain ⟨i, hi⟩ := Option.isSome_iff_exists.mp (by simpa using hend)
  exact ⟨c, i, hrun, hi, hfound i hi, hlen, hoff⟩

end Hand

/-! ## The partition -/

section Partition

variable {p : Parameters W} {random : ℕ → Random W}

/-- The queue of a worker after `load_edge`. -/
theorem flatten_loadEdge (p : Parameters W) (random : Random W) (worker : Worker W)
    (op : WeightedEdge W) :
    ∃ stored, Stored op stored ∧
      (loadEdge p random worker op).updates.flatten = worker.updates.flatten ++ [stored] := by
  refine ⟨_, stored_loadEdge p random worker.draws op, ?_⟩
  -- the first vector is added when there is none, and it is empty
  have hne : initUpdates worker.updates ≠ [] := by
    unfold initUpdates
    split_ifs with h
    · simp
    · exact h
  have hflatten : (initUpdates worker.updates).flatten = worker.updates.flatten := by
    unfold initUpdates
    split_ifs with h
    · simp [h]
    · rfl
  obtain ⟨hroom, hsame⟩ := flatten_makeRoom hne
  simp only [loadEdge, pushEdge, flatten_emplaceBack hroom, hsame, hflatten]

/-- **The invariant of the loop over a batch**, after the operations `done`. -/
structure Handed (workers : List (Worker W)) (done : List (WeightedEdge W)) (s : Partition W) :
    Prop where
  length : s.workers.length = workers.length
  offset : s.offset < workers.length
  bits : s.clockEvenDistribution.length = workers.length
  loads : s.loads.map Prod.snd = done
  owner : ∀ c ∈ s.loads, c.1 < workers.length ∧ s.edgeToWorkerMap.lookup c.2.edge = some c.1
  lookup : ∀ e i, s.edgeToWorkerMap.lookup e = some i → i < workers.length
  queue : ∀ i worker worker', workers[i]? = some worker → s.workers[i]? = some worker' →
    ∃ stored, worker'.updates.flatten = worker.updates.flatten ++ stored ∧
      List.Forall₂ Stored (callsBy s.loads i) stored

/-- **One call to `load_edge`**, by a worker that the map has for the edge. -/
theorem Handed.loadAt {workers : List (Worker W)} {done : List (WeightedEdge W)} {s : Partition W}
    (h : Handed workers done s) (p : Parameters W) (random : ℕ → Random W) {i : ℕ}
    {op : WeightedEdge W} (hi : s.edgeToWorkerMap.lookup op.edge = some i) :
    ∃ s', loadAt p random s i op = some s' ∧ Handed workers (done ++ [op]) s' := by
  have hlt : i < s.workers.length := h.length.symm ▸ h.lookup _ _ hi
  refine ⟨_, by simp only [Aging2.loadAt, List.getElem?_eq_getElem hlt, Option.bind_eq_bind,
    Option.bind_some]; rfl, ?_⟩
  refine ⟨by simpa using h.length, h.offset, h.bits, by simp [h.loads], fun c hc => ?_, h.lookup,
    fun j worker worker' hj hj' => ?_⟩
  · rcases List.mem_append.mp hc with hc | hc
    · exact h.owner c hc
    · obtain rfl := List.mem_singleton.mp hc
      exact ⟨h.lookup _ _ hi, hi⟩
  · rw [callsBy_append]
    -- the queue of the owner grows by this operation, the others do not change
    by_cases hij : i = j
    · subst hij
      obtain ⟨stored, hflatten, hstored⟩ := h.queue i worker _ hj (List.getElem?_eq_getElem hlt)
      obtain ⟨new, hnew, hflatten'⟩ := flatten_loadEdge p (random i) s.workers[i] op
      obtain rfl : Aging2.loadEdge p (random i) s.workers[i] op = worker' := by
        simpa [List.getElem?_set, hlt] using hj'
      refine ⟨stored ++ [new], by rw [hflatten', hflatten, List.append_assoc], ?_⟩
      rw [callsBy_cons_self]
      exact List.rel_append hstored (List.Forall₂.cons hnew List.Forall₂.nil)
    · obtain ⟨stored, hflatten, hstored⟩ := h.queue j worker worker' hj
        (by simpa [List.getElem?_set, hij] using hj')
      refine ⟨stored, hflatten, ?_⟩
      rw [callsBy_cons_ne hij, callsBy_nil, List.append_nil]
      exact hstored

/-- **One operation** of the batch. -/
theorem Handed.handEdge {workers : List (Worker W)} {done : List (WeightedEdge W)}
    {s : Partition W} (h : Handed workers done s) (p : Parameters W) (random : ℕ → Random W)
    {fuel : ℕ} (hfuel : workers.length + 1 < fuel) (op : WeightedEdge W) :
    ∃ s', handEdge p random fuel s op = some s' ∧ Handed workers (done ++ [op]) s' := by
  unfold Aging2.handEdge
  cases hlookup : s.edgeToWorkerMap.lookup op.edge with
  | none =>
    obtain ⟨c, i, hrun, hfound, hi, hbits, hoffset⟩ := clock_total hfuel h.bits h.offset
    simp only [h.length, hrun, hfound, Option.bind_eq_bind, Option.bind_some]
    -- the new entry of the map is the owner of the edge from now on
    have hnew : Handed workers done
        { s with
          offset := c.offset
          clockEvenDistribution := c.bits
          edgeToWorkerMap := s.edgeToWorkerMap.insert op.edge i } := by
      refine ⟨h.length, hoffset, hbits, h.loads, fun x hx => ?_, fun e j hj => ?_, h.queue⟩
      · obtain ⟨hlt, howner⟩ := h.owner x hx
        have hne : x.2.edge ≠ op.edge := by
          intro heq
          rw [heq, hlookup] at howner
          cases howner
        exact ⟨hlt, by rw [AList.lookup_insert_ne hne]; exact howner⟩
      · by_cases he : e = op.edge
        · subst he
          rw [AList.lookup_insert] at hj
          exact Option.some.inj hj ▸ hi
        · rw [AList.lookup_insert_ne he] at hj
          exact h.lookup e j hj
    exact hnew.loadAt p random (AList.lookup_insert _)
  | some i =>
    obtain ⟨s', hload, hs'⟩ := h.loadAt p random hlookup
    have hi : i < s'.clockEvenDistribution.length := hs'.bits.symm ▸ h.lookup _ _ hlookup
    simp only [hload, Option.bind_eq_bind, Option.bind_some, List.getElem?_eq_getElem hi]
    exact ⟨_, rfl, ⟨hs'.length, hs'.offset, by simpa using hs'.bits, hs'.loads, hs'.owner,
      hs'.lookup, hs'.queue⟩⟩

/-- **Even partition**: every loop of the hand ends within one move more than there are workers, no
access is out of bounds, every operation of the batch is handed to one worker in the order of the
batch, and the operations on an edge to the same worker. -/
theorem evenPartition_spec (p : Parameters W) (random : ℕ → Random W) {workers : List (Worker W)}
    (hne : workers ≠ []) (batch : List (WeightedEdge W)) {fuel : ℕ}
    (hfuel : workers.length + 1 < fuel) :
    ∃ s, evenPartition p random fuel workers batch = some s ∧
      s.loads.map Prod.snd = batch ∧ (∀ c ∈ s.loads, c.1 < workers.length) ∧
      (∀ c ∈ s.loads, ∀ c' ∈ s.loads, c.2.edge = c'.2.edge → c.1 = c'.1) ∧
      s.workers.length = workers.length ∧
      ∀ i worker worker', workers[i]? = some worker → s.workers[i]? = some worker' →
        ∃ stored, worker'.updates.flatten = worker.updates.flatten ++ stored ∧
          List.Forall₂ Stored (callsBy s.loads i) stored := by
  have hpos : 0 < workers.length := List.length_pos_of_ne_nil hne
  obtain ⟨s, hrun, hs⟩ := foldlM_prefix (f := handEdge p random fuel) (Handed workers)
    (l := batch) (s := ⟨workers, 0, ∅, List.replicate workers.length false, []⟩)
    ⟨rfl, hpos, List.length_replicate, rfl, by simp, by simp, fun i worker worker' hi hi' => by
      obtain rfl : worker = worker' := Option.some.inj (hi.symm.trans hi')
      exact ⟨[], by simp, List.Forall₂.nil⟩⟩
    (fun done op _ s _ hs => hs.handEdge p random hfuel op)
  refine ⟨s, hrun, hs.loads, fun c hc => (hs.owner c hc).1, fun c hc c' hc' heq => ?_, hs.length,
    hs.queue⟩
  -- operations of one edge have one entry in the table
  have howner := (hs.owner c hc).2
  rw [heq, (hs.owner c' hc').2] at howner
  exact (Option.some.inj howner).symm

theorem evenPartition_two :
    ∃ s, evenPartition (sampleParameters 2 (Nat.succ_pos 1)) (fun _ => sampleRandom) 4
        [Worker.new 0, Worker.new 1] [⟨1, 2, 5⟩, ⟨2, 3, 4⟩, ⟨1, 2, -1⟩] = some s ∧
      s.loads.map Prod.snd = [⟨1, 2, 5⟩, ⟨2, 3, 4⟩, ⟨1, 2, -1⟩] ∧ ∀ c ∈ s.loads, c.1 < 2 := by
  obtain ⟨s, hrun, hloads, hlt, -⟩ := evenPartition_spec (sampleParameters 2 (Nat.succ_pos 1))
    (fun _ => sampleRandom) (List.cons_ne_nil (Worker.new 0) [Worker.new 1])
    [⟨1, 2, 5⟩, ⟨2, 3, 4⟩, ⟨1, 2, -1⟩] (by decide : 2 + 1 < 4)
  exact ⟨s, hrun, hloads, hlt⟩

end Partition

end Aging2

end GfeDriver
