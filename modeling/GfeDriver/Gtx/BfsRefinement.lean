import GfeDriver.Baseline.CsrLoad
import GfeDriver.Gtx.Bfs

/-!
# The search on a snapshot refines the search on rows

A snapshot has the compressed sparse rows `rows`, where the vertex `i` is the identifier `i + 1`. An
identifier without a vertex is a vertex without edges there. Each step of the search on the snapshot
is the step of the search on the rows: the queue holds identifiers in place of positions, and the
distances are the same up to the missing vertices. The decisions between the directions may differ.
The invariants of the search on the rows give the bounds of all accesses.

## Main results

* `hops_rows`: walks of the snapshot and of its rows
* `Sim.topDown`, `Sim.bottomUp`: the branches of the loop
* `bfs_outputs`: the lines of the results
-/

namespace GfeDriver

namespace Gtx

open Foundation
open CSR (TDState BUState BfsState BUPhase BfsInvariant PhaseInvariant)

namespace Snapshot

/-! ## The rows -/

section Rows

variable (t : Snapshot)

/-- The neighbours of a position, with the weight `0`. -/
def row (i : ℕ) : List (ℕ × ℕ) := (t.edges (i + 1)).map fun v => (v - 1, 0)

/-- The arrays of the rows. -/
def direction : CSR.Direction ℕ :=
  ⟨prefixSums ((List.range t.maxVertexId).map fun i => (t.row i).length),
    ((List.range t.maxVertexId).flatMap t.row).map Prod.fst,
    ((List.range t.maxVertexId).flatMap t.row).map Prod.snd⟩

/-- The snapshot as compressed sparse rows. -/
def rows : CSR ℕ where
  isDirected := false
  numVertices := t.maxVertexId
  numEdges := 0
  ext2log := ∅
  log2ext := []
  outV := t.direction.vertexArray
  outE := t.direction.edgeArray
  outW := t.direction.weightArray
  inV := t.direction.vertexArray
  inE := t.direction.edgeArray
  inW := t.direction.weightArray

variable {t}

theorem grouped_rows : CSR.Grouped t.maxVertexId t.direction t.row := ⟨rfl, rfl, rfl⟩

theorem outNeighbours_rows {i : ℕ} (hi : i < t.maxVertexId) :
    t.rows.outNeighbours i = (t.edges (i + 1)).map fun v => v - 1 := by
  have hslice : t.rows.outEdges i = t.row i := grouped_rows.slice hi
  rw [← CSR.map_fst_outEdges, hslice, row, List.map_map]
  rfl

theorem inNeighbours_rows {i : ℕ} (hi : i < t.maxVertexId) :
    t.rows.inNeighbours i = (t.edges (i + 1)).map fun v => v - 1 :=
  outNeighbours_rows hi

/-- The ends of an edge have positions in the arrays. -/
theorem WellFormed.edge_range (ht : t.WellFormed) {u v : ℕ} (h : v ∈ t.edges u) :
    1 ≤ v ∧ v ≤ t.maxVertexId :=
  ht.vertex_range v (ht.ends u v h).2

theorem mem_neighbours_iff (ht : t.WellFormed) {u j : ℕ} :
    j ∈ (t.edges u).map (fun v => v - 1) ↔ j + 1 ∈ t.edges u := by
  rw [List.mem_map]
  constructor
  · rintro ⟨v, hv, rfl⟩
    rwa [Nat.sub_add_cancel (ht.edge_range hv).1]
  · exact fun h => ⟨j + 1, h, rfl⟩

theorem wellFormed_rows (ht : t.WellFormed) : t.rows.WellFormed := by
  have hlt : ∀ i < t.maxVertexId, ∀ p ∈ t.row i, p.1 < t.maxVertexId := by
    intro i _ p hp
    obtain ⟨v, hv, rfl⟩ := List.mem_map.mp hp
    have := ht.edge_range hv
    show v - 1 < t.maxVertexId
    omega
  exact ⟨grouped_rows.layout hlt, grouped_rows.layout hlt⟩

theorem transposed_rows (ht : t.WellFormed) : t.rows.Transposed := by
  intro u hu v hv
  rw [inNeighbours_rows hv, outNeighbours_rows hu, mem_neighbours_iff ht, mem_neighbours_iff ht]
  exact ⟨ht.symm _ _, ht.symm _ _⟩

theorem arc_rows (ht : t.WellFormed) {i j : ℕ} : t.rows.Arc i j ↔ t.Arc (i + 1) (j + 1) := by
  constructor
  · rintro ⟨hi, hj⟩
    rw [outNeighbours_rows hi] at hj
    exact (mem_neighbours_iff ht).mp hj
  · intro harc
    have hi : i < t.maxVertexId := (ht.vertex_range _ (ht.ends _ _ harc).1).2
    exact ⟨hi, by rw [outNeighbours_rows hi]; exact (mem_neighbours_iff ht).mpr harc⟩

/-- **The walks** of the rows are those of the snapshot. -/
theorem hops_rows (ht : t.WellFormed) {root k i : ℕ} :
    Hops t.rows.Arc root k i ↔ Hops t.Arc (root + 1) k (i + 1) := by
  constructor
  · exact fun h => h.map fun u v huv => (arc_rows ht).mp huv
  · intro h
    have hpred : ∀ u v, t.Arc u v → t.rows.Arc (u - 1) (v - 1) := by
      intro u v huv
      have hu := ht.vertex_range u (ht.ends u v huv).1
      have hv := ht.edge_range huv
      rw [arc_rows ht, Nat.sub_add_cancel hu.1, Nat.sub_add_cancel hv.1]
      exact huv
    exact h.map hpred

theorem isDist_rows (ht : t.WellFormed) {root k i : ℕ} :
    IsDist t.rows.Arc root i k ↔ IsDist t.Arc (root + 1) (i + 1) k :=
  and_congr (hops_rows ht) (forall_congr' fun _ => imp_congr_left (hops_rows ht))

end Rows

/-! ## The state -/

section Simulation

variable {t : Snapshot}

theorem index_succ {i : ℕ} (hi : i < t.maxVertexId) : t.index (i + 1) = some i := by
  rw [index, if_pos ⟨Nat.le_add_left 1 i, hi⟩, Nat.add_sub_cancel]

theorem ids_eq (t : Snapshot) : t.ids = (List.range t.maxVertexId).map (· + 1) := by
  rw [ids, List.range'_eq_map_range]
  exact List.map_congr_left fun i _ => Nat.add_comm 1 i

/-- **The distances** of the vertices are the same, and the others are those of missing vertices. -/
structure Represents (t : Snapshot) (d d' : ℕ → ℤ) : Prop where
  eq : ∀ i < t.maxVertexId, (t.vertex (i + 1)).isSome → d' i = d i
  missing : ∀ i < t.maxVertexId, t.vertex (i + 1) = none → d i = int64Max ∧ d' i < 0

/-- The distance of a vertex is set. -/
theorem Represents.update {d d' : ℕ → ℤ} (h : Represents t d d') {i : ℕ}
    (hi : (t.vertex (i + 1)).isSome) (x : ℤ) :
    Represents t (Function.update d i x) (Function.update d' i x) := by
  refine ⟨fun j hj hex => ?_, fun j hj hnone => ?_⟩
  · by_cases hji : j = i
    · subst hji
      simp only [Function.update_self]
    · simp only [Function.update_of_ne hji]
      exact h.eq j hj hex
  · have hji : j ≠ i := by
      rintro rfl
      simp [hnone] at hi
    simp only [Function.update_of_ne hji]
    exact h.missing j hj hnone

/-- A vertex that is visited exists. -/
theorem Represents.isSome {d d' : ℕ → ℤ} (h : Represents t d d') {i : ℕ} (hi : i < t.maxVertexId)
    (hpos : 0 ≤ d' i) : (t.vertex (i + 1)).isSome := by
  cases hv : t.vertex (i + 1) with
  | none => exact absurd hpos (not_le.mpr (h.missing i hi hv).2)
  | some _ => rfl

/-- A queue of identifiers in place of positions. -/
def toIds (q : SlidingQueue) : SlidingQueue := { q with shared := q.shared.map (· + 1) }

@[simp] theorem window_toIds (q : SlidingQueue) : (toIds q).window = q.window.map (· + 1) := by
  simp only [toIds, SlidingQueue.window, List.map_drop, List.map_take]

@[simp] theorem empty_toIds (q : SlidingQueue) : (toIds q).empty = q.empty := rfl

@[simp] theorem size_toIds (q : SlidingQueue) : (toIds q).size = q.size := rfl

@[simp] theorem slideWindow_toIds (q : SlidingQueue) :
    (toIds q).slideWindow = toIds q.slideWindow := by
  simp only [toIds, SlidingQueue.slideWindow, List.length_map]

theorem pushBack_toIds {q : SlidingQueue} (hlen : q.shared.length < t.maxVertexId) (i : ℕ) :
    t.pushBack (toIds q) (i + 1) = some (toIds (q.pushBack i)) := by
  have hshared : (toIds q).shared.length < t.maxVertexId := by
    simpa only [toIds, List.length_map] using hlen
  rw [Snapshot.pushBack, if_pos hshared]
  simp only [toIds, SlidingQueue.pushBack, List.map_append, List.map_cons, List.map_nil]

/-- **The state of the search** and that of the search on the rows. -/
structure Sim (t : Snapshot) (s c : BfsState) : Prop where
  distances : Represents t s.distances c.distances
  queue : s.queue = toIds c.queue
  front : s.front = c.front
  distance : s.distance = c.distance
  ticks : s.ticks = c.ticks

/-- The orders of the loops over identifiers, as orders of positions. -/
def onRows (sched : Schedule ℕ) : Schedule ℕ :=
  sched.along (· + 1) (fun u => u - 1) fun i => Nat.add_sub_cancel i 1

/-! ## The steps -/

/-- The states of a top-down step. The positions in the queue are those of visited vertices, each
once. -/
structure TDSim (t : Snapshot) (s c : TDState) : Prop where
  distances : Represents t s.distances c.distances
  queue : s.queue = toIds c.queue
  nodup : c.queue.shared.Nodup
  pushed : ∀ i ∈ c.queue.shared, i < t.maxVertexId ∧ 0 ≤ c.distances i

/-- A position that is not in the queue has room there. -/
theorem length_lt_of_notMem {l : List ℕ} {i n : ℕ} (hl : l.Nodup) (hlt : ∀ j ∈ l, j < n)
    (hi : i ∉ l) (hn : i < n) : l.length < n := by
  have hsub : i :: l ⊆ List.range n := by
    intro j hj
    rcases List.mem_cons.mp hj with rfl | hj
    · exact List.mem_range.mpr hn
    · exact List.mem_range.mpr (hlt j hj)
  simpa using ((List.nodup_cons.mpr ⟨hi, hl⟩).subperm hsub).length_le

/-- **A visit**: an identifier that is discovered is not in the queue yet. -/
theorem TDSim.visit (ht : t.WellFormed) {distance : ℤ} (hdist : 0 ≤ distance) {s c : TDState}
    (h : TDSim t s c) {dst : ℕ} (hdst : (t.vertex dst).isSome) :
    ∃ s', t.visit distance s dst = some s' ∧ TDSim t s' (CSR.visit distance c (dst - 1)) := by
  have hrange := ht.vertex_range dst hdst
  obtain ⟨i, rfl⟩ : ∃ i, dst = i + 1 := ⟨dst - 1, by omega⟩
  have hi : i < t.maxVertexId := hrange.2
  have hval := h.distances.eq i hi hdst
  simp only [Snapshot.visit, index_succ hi, Option.bind_eq_bind, Option.bind_some, CSR.visit,
    Nat.add_sub_cancel, hval]
  by_cases hneg : s.distances i < 0
  · have hnot : i ∉ c.queue.shared := fun hmem => by
      have := (h.pushed i hmem).2
      omega
    have hlen := length_lt_of_notMem h.nodup (fun j hj => (h.pushed j hj).1) hnot hi
    rw [if_pos hneg, if_pos hneg, h.queue, pushBack_toIds hlen]
    refine ⟨_, rfl, h.distances.update hdst distance, rfl, ?_, fun j hj => ?_⟩
    · exact h.nodup.append (List.nodup_singleton i) (by simpa using hnot)
    · rcases List.mem_append.mp hj with hj | hj
      · have hne : j ≠ i := fun heq => hnot (heq ▸ hj)
        simpa only [Function.update_of_ne hne] using h.pushed j hj
      · obtain rfl := List.mem_singleton.mp hj
        simpa only [Function.update_self] using ⟨hi, hdist⟩
  · rw [if_neg hneg, if_neg hneg]
    exact ⟨s, rfl, h⟩

/-- **A top-down step** of vertices that exist. -/
theorem TDSim.doBfsTDStep (ht : t.WellFormed) {distance : ℤ} (hdist : 0 ≤ distance)
    {order : List ℕ} (horder : ∀ u ∈ order, (t.vertex u).isSome) {d d' : ℕ → ℤ}
    {q q' : SlidingQueue} (h : TDSim t ⟨d, q, 0⟩ ⟨d', q', 0⟩) :
    ∃ s, t.doBfsTDStep order d distance q = some s ∧
      TDSim t s (t.rows.doBfsTDStep (order.map fun u => u - 1) d' distance q') := by
  refine foldlM_sim (TDSim t) (fun u => u - 1) (fun u hu s c hs => ?_) h
  have hrange := ht.vertex_range u (horder u hu)
  -- the edges of the identifier are the row of its position
  have hrow : t.rows.outNeighbours (u - 1) = (t.edges u).map fun v => v - 1 := by
    rw [outNeighbours_rows (by omega), Nat.sub_add_cancel hrange.1]
  have hinner := foldlM_sim (TDSim t) (fun v => v - 1) (l := t.edges u)
    (fun v hv s c hs => hs.visit ht hdist (ht.ends u v hv).2) hs
  rw [← hrow, CSR.outNeighbours, List.foldl_map] at hinner
  exact hinner

/-- The scan of the edges of a vertex. -/
theorem touchesFront_eq {front : Bitmap} {dsts : List ℕ}
    (h : ∀ v ∈ dsts, 1 ≤ v ∧ v ≤ t.maxVertexId) :
    t.touchesFront front dsts = some ((dsts.map fun v => v - 1).any front) := by
  induction dsts with
  | nil => rfl
  | cons v dsts ih =>
    have hv := h v List.mem_cons_self
    rw [touchesFront, index, if_pos hv, ih fun v' hv' => h v' (List.mem_cons_of_mem v hv')]
    cases hfront : front (v - 1) <;> simp [hfront]

/-- The states of a bottom-up step. -/
structure BUSim (t : Snapshot) (s c : BUState) : Prop where
  distances : Represents t s.distances c.distances
  next : s.next = c.next
  awakeCount : s.awakeCount = c.awakeCount

/-- **An iteration** of a bottom-up step. A missing vertex has no edges. -/
theorem BUSim.awaken (ht : t.WellFormed) {distance : ℤ} {front : Bitmap} {s c : BUState}
    (h : BUSim t s c) {i : ℕ} (hi : i < t.maxVertexId) :
    ∃ s', t.awaken distance front s (i + 1) = some s' ∧
      BUSim t s' (t.rows.awaken distance front c i) := by
  have hrow : ((CSR.indices (t.rows.getInInterval i)).any fun j => front (t.rows.inE.getD j 0)) =
      ((t.edges (i + 1)).map fun v => v - 1).any front := by
    rw [← inNeighbours_rows hi, CSR.inNeighbours, List.any_map]
    rfl
  have htouches : t.touchesFront front (t.edges (i + 1)) =
      some (((t.edges (i + 1)).map fun v => v - 1).any front) :=
    touchesFront_eq fun v hv => ht.edge_range hv
  simp only [Snapshot.awaken, index_succ hi, Option.bind_eq_bind, Option.bind_some, htouches,
    CSR.awaken, hrow]
  cases hv : t.vertex (i + 1) with
  | none =>
    have hedges : t.edges (i + 1) = [] := by
      refine List.eq_nil_iff_forall_not_mem.mpr fun v hmem => ?_
      have := (ht.ends _ v hmem).1
      simp [hv] at this
    rw [if_pos (h.distances.missing i hi hv).1, hedges]
    exact ⟨s, rfl, by simpa using h⟩
  | some payload =>
    have hex : (t.vertex (i + 1)).isSome := by rw [hv]; rfl
    rw [h.distances.eq i hi hex]
    by_cases hmax : s.distances i = int64Max
    · have hneg : ¬s.distances i < 0 := by
        rw [hmax]
        decide
      rw [if_pos hmax, if_neg hneg]
      exact ⟨s, rfl, h⟩
    · rw [if_neg hmax]
      by_cases hneg : s.distances i < 0
      · rw [if_pos hneg, if_pos hneg]
        split_ifs
        · exact ⟨_, rfl, h.distances.update hex distance, by rw [h.next], by rw [h.awakeCount]⟩
        · exact ⟨s, rfl, h⟩
      · rw [if_neg hneg, if_neg hneg]
        exact ⟨s, rfl, h⟩

/-- The states of a bottom-up phase. -/
structure PhaseSim (t : Snapshot) (p q : BUPhase) : Prop where
  state : Sim t p.state q.state
  awakeCount : p.awakeCount = q.awakeCount
  oldAwakeCount : p.oldAwakeCount = q.oldAwakeCount

/-- **A bottom-up step.** -/
theorem PhaseSim.bottomUpBody (ht : t.WellFormed) (sched : Schedule ℕ) {p q q' : BUPhase}
    (h : PhaseSim t p q) (hq : t.rows.bottomUpBody (onRows sched) q = some q') :
    ∃ p', t.bottomUpBody sched p = some p' ∧ PhaseSim t p' q' := by
  obtain rfl := Option.some.inj hq
  have hstart : BUSim t ⟨p.state.distances, Bitmap.reset, 0⟩ ⟨q.state.distances, Bitmap.reset, 0⟩ :=
    ⟨h.state.distances, rfl, rfl⟩
  obtain ⟨r, hr, hsim⟩ := foldlM_sim (BUSim t) (fun u => u - 1)
    (f := t.awaken p.state.distance p.state.front)
    (g := t.rows.awaken p.state.distance p.state.front)
    (l := sched.order p.state.ticks t.ids) (fun u hu s c hs => by
      rw [sched.mem_order, ids_eq] at hu
      obtain ⟨i, hi, rfl⟩ := List.mem_map.mp hu
      exact hs.awaken ht (List.mem_range.mp hi)) hstart
  have horder : (onRows sched).order q.state.ticks (List.range t.rows.numVertices) =
      (sched.order p.state.ticks t.ids).map fun u => u - 1 := by
    rw [ids_eq, h.state.ticks]
    rfl
  refine ⟨_, by simp only [Snapshot.bottomUpBody, Snapshot.doBfsBUStep, hr, Option.bind_eq_bind,
    Option.bind_some]; rfl, ?_⟩
  rw [h.state.front, h.state.distance] at hsim
  simp only [CSR.doBfsBUStep, horder]
  refine ⟨⟨hsim.distances, h.state.queue, hsim.next, ?_, ?_⟩, hsim.awakeCount, h.awakeCount⟩
  · simp only [h.state.distance]
  · simp only [h.state.ticks]

/-- The bits of the window. -/
theorem doBfsQueueToBitmap_toIds {q : SlidingQueue} (hq : ∀ i ∈ q.window, i < t.maxVertexId)
    (bm : Bitmap) :
    t.doBfsQueueToBitmap (toIds q) bm = some (CSR.doBfsQueueToBitmap q bm) := by
  rw [doBfsQueueToBitmap, CSR.doBfsQueueToBitmap, window_toIds]
  generalize q.window = l at hq
  induction l generalizing bm with
  | nil => rfl
  | cons i l ih =>
    rw [List.map_cons, List.foldlM_cons, index_succ (hq i List.mem_cons_self)]
    exact ih _ fun j hj => hq j (List.mem_cons_of_mem i hj)

/-- The identifiers whose bit is set enter the queue, if there is room. -/
theorem foldlM_pushBit {bm : Bitmap} {l : List ℕ} (hl : ∀ i ∈ l, i < t.maxVertexId)
    {q : SlidingQueue} (hlen : q.shared.length + (l.filter bm).length ≤ t.maxVertexId) :
    (l.map (· + 1)).foldlM (t.pushBit bm) (toIds q) =
      some (toIds { q with shared := q.shared ++ l.filter bm }) := by
  induction l generalizing q with
  | nil => simp
  | cons i l ih =>
    have hl' : ∀ j ∈ l, j < t.maxVertexId := fun j hj => hl j (List.mem_cons_of_mem i hj)
    rw [List.map_cons, List.foldlM_cons, pushBit, index_succ (hl i List.mem_cons_self)]
    cases hbit : bm i with
    | false =>
      rw [List.filter_cons_of_neg (by simp [hbit])] at hlen ⊢
      simpa [hbit] using ih hl' hlen
    | true =>
      rw [List.filter_cons_of_pos hbit] at hlen ⊢
      rw [List.length_cons] at hlen
      have hroom : q.shared.length < t.maxVertexId := by omega
      have hlen' : (q.pushBack i).shared.length + (l.filter bm).length ≤ t.maxVertexId := by
        simp only [SlidingQueue.pushBack, List.length_append, List.length_singleton]
        omega
      simpa [hbit, pushBack_toIds hroom, SlidingQueue.pushBack] using ih hl' hlen'

/-! ## The search -/

variable {root : ℕ} {s c : BfsState} {d : ℕ}

/-- The variables before a top-down step. -/
theorem Sim.startTopDown (ht : t.WellFormed) (hroot : root < t.maxVertexId) (h : Sim t s c)
    (hinv : BfsInvariant t.rows root c d) :
    TDSim t ⟨s.distances, s.queue, 0⟩ ⟨c.distances, c.queue, 0⟩ :=
  ⟨h.distances, h.queue, hinv.pushed_nodup, fun i hi => ⟨CSR.Explored.lt (wellFormed_rows ht) hroot
    hinv.explored (hinv.pushed i hi), hinv.pushed i hi⟩⟩

/-- The window holds positions of vertices. -/
theorem Sim.window (ht : t.WellFormed) (hroot : root < t.maxVertexId) (h : Sim t s c)
    (hinv : BfsInvariant t.rows root c d) :
    ∀ i ∈ c.queue.window, i < t.maxVertexId ∧ (t.vertex (i + 1)).isSome := by
  intro i hi
  have hpos : 0 ≤ c.distances i := by
    rw [(hinv.mem_window i).mp hi]
    positivity
  have hlt : i < t.maxVertexId := CSR.Explored.lt (wellFormed_rows ht) hroot hinv.explored hpos
  exact ⟨hlt, h.distances.isSome hlt hpos⟩

/-- **The top-down branch** is that of the search on the rows. -/
theorem Sim.topDown (ht : t.WellFormed) (sched : Schedule ℕ) (hroot : root < t.maxVertexId)
    (h : Sim t s c) (hinv : BfsInvariant t.rows root c d) :
    ∃ s', t.topDown sched s = some s' ∧ Sim t s' (t.rows.topDown (onRows sched) c) := by
  have hdist : 0 ≤ s.distance := by
    rw [h.distance, hinv.distance_eq]
    positivity
  have hwindow : s.queue.window = c.queue.window.map (· + 1) := by rw [h.queue, window_toIds]
  have horder : ∀ u ∈ sched.order s.ticks s.queue.window, (t.vertex u).isSome := by
    intro u hu
    rw [sched.mem_order, hwindow] at hu
    obtain ⟨i, hi, rfl⟩ := List.mem_map.mp hu
    exact (h.window ht hroot hinv i hi).2
  obtain ⟨r, hr, hsim⟩ := (h.startTopDown ht hroot hinv).doBfsTDStep ht hdist horder
  have horder' : (sched.order s.ticks s.queue.window).map (fun u => u - 1) =
      (onRows sched).order c.ticks c.queue.window := by
    rw [hwindow, h.ticks]
    rfl
  rw [horder', h.distance] at hsim
  have hrun : t.topDown sched s = some { s with
      distances := r.distances, queue := r.queue.slideWindow, scoutCount := r.scoutCount,
      edgesToCheck := s.edgesToCheck - s.scoutCount, distance := s.distance + 1,
      ticks := s.ticks + 1 } := by
    simp only [Snapshot.topDown, hr, Option.bind_eq_bind, Option.bind_some]
  refine ⟨_, hrun, ⟨hsim.distances, ?_, h.front, ?_, ?_⟩⟩
  · simp only [CSR.topDown, hsim.queue, slideWindow_toIds]
  · simp only [CSR.topDown, h.distance]
  · simp only [CSR.topDown, h.ticks]

/-- The identifiers of the last level of a phase enter the queue. -/
theorem PhaseSim.endPhase (ht : t.WellFormed) (sched : Schedule ℕ) (hroot : root < t.maxVertexId)
    {p q : BUPhase} (h : PhaseSim t p q) (hq : PhaseInvariant t.rows root q d) :
    ∃ queue, t.doBfsBitmapToQueue (sched.order p.state.ticks t.ids) p.state.front p.state.queue =
        some queue ∧
      Sim t { p.state with queue := queue, scoutCount := 1, ticks := p.state.ticks + 1 }
        (t.rows.endPhase (onRows sched) q.state) := by
  have hend := hq.endPhase (onRows sched) (wellFormed_rows ht) hroot
  set order := (onRows sched).order q.state.ticks (List.range t.maxVertexId) with horder
  have hids : sched.order p.state.ticks t.ids = order.map (· + 1) := by
    have hmem : ∀ u ∈ sched.order p.state.ticks t.ids, u - 1 + 1 = u := by
      intro u hu
      rw [sched.mem_order, ids_eq] at hu
      obtain ⟨i, -, rfl⟩ := List.mem_map.mp hu
      rfl
    have horder' : order = (sched.order p.state.ticks t.ids).map fun u => u - 1 := by
      rw [horder, ids_eq, h.state.ticks]
      rfl
    rw [horder', List.map_map]
    exact ((List.map_congr_left hmem).trans (List.map_id' _)).symm
  have hlt : ∀ i ∈ order, i < t.maxVertexId := by
    intro i hi
    rw [horder, Schedule.mem_order] at hi
    exact List.mem_range.mp hi
  -- the queue has room for all the vertices, as each is in it once
  have hshared : (t.rows.endPhase (onRows sched) q.state).queue.shared =
      q.state.queue.shared ++ order.filter q.state.front := by
    rw [CSR.endPhase, CSR.doBfsBitmapToQueue_eq]
    rfl
  have hlen : q.state.queue.shared.length + (order.filter q.state.front).length ≤
      t.maxVertexId := by
    have := (hend.length_le (wellFormed_rows ht) hroot)
    rwa [hshared, List.length_append] at this
  refine ⟨_, by rw [doBfsBitmapToQueue, hids, h.state.front, h.state.queue,
    foldlM_pushBit hlt hlen, Option.map_some, slideWindow_toIds],
    ⟨h.state.distances, ?_, h.state.front, h.state.distance, ?_⟩⟩
  · simp only [CSR.endPhase, CSR.doBfsBitmapToQueue_eq]
    rfl
  · simp only [CSR.endPhase, h.state.ticks]

/-- **The bottom-up branch** is a run of steps of the search on the rows. -/
theorem Sim.bottomUp (ht : t.WellFormed) (sched : Schedule ℕ) (hroot : root < t.maxVertexId)
    (numVertices : ℕ) {beta : ℤ} (hbeta : 1 ≤ beta) {fuel : ℕ} (hfuel : t.maxVertexId + 1 < fuel)
    (h : Sim t s c) (hinv : BfsInvariant t.rows root c d) (hne : c.queue.empty = false) :
    ∃ s' c' d', t.bottomUp sched numVertices beta fuel s = some s' ∧ Sim t s' c' ∧
      BfsInvariant t.rows root c' d' ∧ t.rows.bfsVariant c' < t.rows.bfsVariant c := by
  have hg := wellFormed_rows ht
  have htr := transposed_rows ht
  have hfront : t.doBfsQueueToBitmap s.queue s.front =
      some (CSR.doBfsQueueToBitmap c.queue c.front) := by
    rw [h.queue, h.front]
    exact doBfsQueueToBitmap_toIds (fun i hi => (h.window ht hroot hinv i hi).1) _
  -- the first step, from the window
  obtain ⟨q₁, hbody, hq₁, hkept₁⟩ := hinv.startPhase (onRows sched) hg htr hne
  have hstart : PhaseSim t ⟨{ s with
      front := CSR.doBfsQueueToBitmap c.queue c.front, queue := s.queue.slideWindow },
      s.queue.size, 0⟩ (CSR.startPhase c) := by
    refine ⟨⟨h.distances, ?_, rfl, h.distance, h.ticks⟩, ?_, rfl⟩
    · rw [h.queue, slideWindow_toIds]
      rfl
    · rw [h.queue, size_toIds]
      rfl
  obtain ⟨p₁, hp₁, hsim₁⟩ := hstart.bottomUpBody ht sched hbody
  -- the later steps, each of which but the last discovers a vertex
  let R : BUPhase → BUPhase → Prop := fun p q => PhaseSim t p q ∧
    ∃ d', PhaseInvariant t.rows root q d' ∧ d < d' ∧
      ∀ v, 0 ≤ c.distances v → q.state.distances v = c.distances v
  have hdiv : 0 ≤ (numVertices : ℤ).tdiv beta := Int.tdiv_nonneg (by omega) (by omega)
  have hstep : ∀ p q, R p q → bottomUpCond numVertices beta p = true →
      ∃ p' q', t.bottomUpBody sched p = some p' ∧ R p' q' ∧
        t.rows.phaseVariant q' < t.rows.phaseVariant q := by
    rintro p q ⟨hsim, d', hq, hlt, hkept⟩ hc
    rw [bottomUpCond, hsim.awakeCount, hsim.oldAwakeCount] at hc
    obtain ⟨q', hbody', hq', -, hkept', hvariant⟩ :=
      hq.step (onRows sched) hg htr hroot (hq.awake_pos_of_cond hdiv hc)
    obtain ⟨p', hp', hsim'⟩ := hsim.bottomUpBody ht sched hbody'
    refine ⟨p', q', hp', ⟨hsim', d' + 1, hq', by omega, fun v hv => ?_⟩, hvariant⟩
    rw [hkept' v (by rw [hkept v hv]; exact hv), hkept v hv]
  obtain ⟨p₂, q₂, hloop, ⟨hsim₂, d₂, hq₂, hlt₂, hkept₂⟩, -⟩ :=
    whileLoop_total_of_sim R t.rows.phaseVariant hstep fuel p₁ q₁
      ⟨hsim₁, d + 1, hq₁, Nat.lt_succ_self d, hkept₁⟩ (t.rows.phaseVariant_lt hfuel q₁)
  obtain ⟨queue, hqueue, hend⟩ := hsim₂.endPhase ht sched hroot hq₂
  have hinv' := hq₂.endPhase (onRows sched) hg hroot
  have hrun : t.bottomUp sched numVertices beta fuel s = some { p₂.state with
      queue := queue, scoutCount := 1, ticks := p₂.state.ticks + 1 } := by
    simp only [Snapshot.bottomUp, hfront, doWhile, Option.bind_eq_bind, Option.bind_some, hp₁,
      hloop, hqueue]
  exact ⟨_, _, d₂, hrun, hend, hinv', hinv.variant_lt hg hroot hinv' hlt₂ hne hkept₂⟩

/-- The initial distance of a position. -/
def initDistance (t : Snapshot) (i : ℕ) : ℤ :=
  if (t.vertex (i + 1)).isNone then int64Max
  else if (t.degree (i + 1) : ℤ) ≠ 0 then -t.degree (i + 1) else -1

/-- The loop over the identifiers sets each element of the array. -/
theorem doBfsInitDistancesInitEdgeNum_spec (t : Snapshot) (memory : ℕ → ℤ) :
    ∃ d edgeNum, t.doBfsInitDistancesInitEdgeNum memory = some (d, edgeNum) ∧
      ∀ i < t.maxVertexId, d i = t.initDistance i := by
  obtain ⟨r, hr, hdist⟩ := foldlM_prefix (f := t.initVertex) (l := t.ids) (s := (memory, 0))
    (fun done r => ∀ i, i + 1 ∈ done → r.1 i = t.initDistance i) (fun i hi => by simp at hi) (by
      intro done n rest r heq hdone
      have hn : n ∈ t.ids := by
        rw [heq]
        exact List.mem_append_right _ List.mem_cons_self
      rw [ids_eq] at hn
      obtain ⟨j, hj, rfl⟩ := List.mem_map.mp hn
      have hset : ∀ x y, x = t.initDistance j → ∀ i, i + 1 ∈ done ++ [j + 1] →
          ((Function.update r.1 j x, y) : (ℕ → ℤ) × ℕ).1 i = t.initDistance i := by
        intro x y hx i hi
        by_cases hij : i = j
        · rw [hij, hx]
          exact Function.update_self ..
        · show Function.update r.1 j x i = _
          rw [Function.update_of_ne hij]
          refine hdone i ?_
          rcases List.mem_append.mp hi with hi | hi
          · exact hi
          · exact absurd (Nat.succ.inj (List.mem_singleton.mp hi)) hij
      rw [initVertex, index_succ (List.mem_range.mp hj)]
      by_cases hnone : (t.vertex (j + 1)).isNone
      · exact ⟨_, if_pos hnone, hset _ _ (by rw [initDistance, if_pos hnone])⟩
      · exact ⟨_, if_neg hnone, hset _ _ (by rw [initDistance, if_neg hnone])⟩)
  refine ⟨r.1, (r.2 / 2 : ℕ), ?_, fun i hi => hdist i ?_⟩
  · simp only [doBfsInitDistancesInitEdgeNum, hr, Option.bind_eq_bind, Option.bind_some]
  · rw [ids_eq]
    exact List.mem_map_of_mem (List.mem_range.mpr hi)

/-- **The start** of the search. -/
theorem sim_init (ht : t.WellFormed) (memory : ℕ → ℤ) (hroot : (t.vertex (root + 1)).isSome) :
    ∃ s, t.bfsInit memory (root + 1) = some s ∧ Sim t s (t.rows.bfsInit root) := by
  have hlt : root < t.maxVertexId := (ht.vertex_range _ hroot).2
  obtain ⟨d, edgeNum, hinit, hdist⟩ := t.doBfsInitDistancesInitEdgeNum_spec memory
  have hempty : SlidingQueue.new.shared.length < t.maxVertexId := Nat.zero_lt_of_lt hlt
  have hpush : t.pushBack SlidingQueue.new (root + 1) =
      some (toIds (SlidingQueue.new.pushBack root)) := pushBack_toIds hempty root
  have hdegree : ∀ i < t.maxVertexId, t.rows.getOutDegree i = t.degree (i + 1) := by
    intro i hi
    rw [← CSR.length_outNeighbours, outNeighbours_rows hi, List.length_map, ht.degree]
  have hrep : Represents t d t.rows.doBfsInitDistances := by
    refine ⟨fun i hi hex => ?_, fun i hi hnone => ⟨?_, ?_⟩⟩
    · have hsome : ¬(t.vertex (i + 1)).isNone := by simpa [Option.isSome_iff_ne_none] using hex
      simp only [hdist i hi, initDistance, if_neg hsome, CSR.doBfsInitDistances, hdegree i hi]
    · rw [hdist i hi, initDistance, if_pos (by rw [hnone]; rfl)]
    · simp only [CSR.doBfsInitDistances]
      split_ifs <;> omega
  refine ⟨_, by simp only [bfsInit, hinit, index_succ hlt, hpush, Option.bind_eq_bind,
    Option.bind_some]; rfl, ?_⟩
  exact ⟨hrep.update hroot 0, slideWindow_toIds _, rfl, rfl, rfl⟩

/-- **The search ends**, in the state of a finished search on the rows. -/
theorem doBfs_spec (ht : t.WellFormed) (sched : Schedule ℕ) (memory : ℕ → ℤ) (numVertices : ℕ)
    (hroot : (t.vertex (root + 1)).isSome) (alpha : ℤ) {beta : ℤ} (hbeta : 1 ≤ beta) {fuel : ℕ}
    (hfuel : t.maxVertexId + 1 < fuel) :
    ∃ s c d, t.doBfs sched memory numVertices (root + 1) alpha beta fuel = some s ∧ Sim t s c ∧
      BfsInvariant t.rows root c d ∧ c.queue.empty = true := by
  have hg := wellFormed_rows ht
  have hlt : root < t.maxVertexId := (ht.vertex_range _ hroot).2
  obtain ⟨s₀, hinit, hsim₀⟩ := sim_init ht memory hroot
  have hvariant : t.rows.bfsVariant (t.rows.bfsInit root) < fuel := by
    have := t.rows.unvisited_le_numVertices (t.rows.bfsInit root).distances
    have hn : t.rows.numVertices = t.maxVertexId := rfl
    simp only [CSR.bfsVariant]
    split_ifs <;> omega
  let R : BfsState → BfsState → Prop := fun s c => Sim t s c ∧ ∃ d, BfsInvariant t.rows root c d
  have hstep : ∀ s c, R s c → (!s.queue.empty) = true →
      ∃ s' c', t.bfsIteration sched numVertices alpha beta fuel s = some s' ∧ R s' c' ∧
        t.rows.bfsVariant c' < t.rows.bfsVariant c := by
    rintro s c ⟨hsim, d, hinv⟩ hc
    have hne : c.queue.empty = false := by
      rw [hsim.queue, empty_toIds] at hc
      simpa using hc
    rw [bfsIteration]
    split_ifs
    · obtain ⟨s', c', d', hrun, hsim', hinv', hlt'⟩ :=
        hsim.bottomUp ht sched hlt numVertices hbeta hfuel hinv hne
      exact ⟨s', c', hrun, ⟨hsim', d', hinv'⟩, hlt'⟩
    · obtain ⟨s', hrun, hsim'⟩ := hsim.topDown ht sched hlt hinv
      obtain ⟨hinv', hlt'⟩ := hinv.topDown (onRows sched) hg hlt hne
      exact ⟨s', _, hrun, ⟨hsim', d + 1, hinv'⟩, hlt'⟩
  obtain ⟨s, c, hrun, ⟨hsim, d, hinv⟩, hend⟩ := whileLoop_total_of_sim R t.rows.bfsVariant hstep
    fuel s₀ (t.rows.bfsInit root) ⟨hsim₀, 0, CSR.bfsInit_invariant _ _⟩ hvariant
  refine ⟨s, c, d, ?_, hsim, hinv, ?_⟩
  · rw [doBfs, hinit]
    exact hrun
  · rw [hsim.queue, empty_toIds] at hend
    simpa using hend

/-! ## The results -/

theorem fst_ne_of_mem_saveResults {pairs : List (ℕ × ℤ)} {line : ℕ × ℤ}
    (h : line ∈ saveResults pairs) : line.1 ≠ uint64Max := by
  obtain ⟨p, -, hp⟩ := List.mem_filterMap.mp h
  by_cases hmax : p.1 = uint64Max
  · rw [saveLine, if_pos hmax] at hp
    cases hp
  · rw [saveLine, if_neg hmax] at hp
    exact Option.some.inj hp ▸ hmax

/-- **What is saved** of the distance of a vertex. -/
theorem Represents.hopValue (ht : t.WellFormed) {x x' : ℕ → ℤ} (h : Represents t x x')
    (hdist : ∀ i < t.maxVertexId, ∀ k : ℕ, x' i = k ↔ IsDist t.rows.Arc root i k)
    (hnone : ∀ i < t.maxVertexId, (∀ k, ¬Hops t.rows.Arc root k i) → x' i < 0) {i : ℕ}
    (hi : i < t.maxVertexId) (hex : (t.vertex (i + 1)).isSome) :
    t.HopValue (root + 1) (i + 1) (if x i < 0 then int64Max else x i) := by
  rw [← h.eq i hi hex]
  refine ⟨fun k hk => ?_, fun hno => ?_⟩
  · have hx : x' i = k := (hdist i hi k).mpr ((isDist_rows ht).mpr hk)
    rw [if_neg (by omega), hx]
  · have hneg : x' i < 0 := hnone i hi fun k hk => hno k ((hops_rows ht).mp hk)
    rw [if_pos hneg]

/-- **The lines of some identifiers.** -/
theorem translate_outputs {x : ℕ → ℤ} (hvalue : ∀ i < t.maxVertexId, (t.vertex (i + 1)).isSome →
      t.HopValue root (i + 1) (if x i < 0 then int64Max else x i)) {l : List ℕ}
    (hl : ∀ i ∈ l, i < t.maxVertexId) :
    ∃ pairs, (l.map (· + 1)).mapM (t.translateVertex x) = some pairs ∧
      t.Outputs root (((l.map (· + 1)).filter fun u => (t.vertex u).isSome).filter fun u =>
        t.vertex u ≠ some uint64Max) (saveResults pairs) := by
  induction l with
  | nil => exact ⟨[], rfl, List.Forall₂.nil⟩
  | cons i l ih =>
    obtain ⟨pairs, hpairs, hlines⟩ := ih fun j hj => hl j (List.mem_cons_of_mem i hj)
    have hi := hl i List.mem_cons_self
    simp only [List.map_cons, List.mapM_cons, hpairs, Option.bind_eq_bind, translateVertex]
    cases hv : t.vertex (i + 1) with
    | none =>
      -- the pair of a missing vertex is skipped
      refine ⟨(uint64Max, int64Max) :: pairs, rfl, ?_⟩
      rw [List.filter_cons_of_neg (by simp [hv])]
      exact hlines
    | some payload =>
      refine ⟨(payload, x i) :: pairs, by rw [index_succ hi]; rfl, ?_⟩
      rw [List.filter_cons_of_pos (by simp [hv])]
      by_cases hmax : payload = uint64Max
      · have hsave : saveLine (payload, x i) = none := if_pos hmax
        rw [List.filter_cons_of_neg (by simp [hv, hmax]), saveResults,
          List.filterMap_cons_none hsave]
        exact hlines
      · have hsave : saveLine (payload, x i) =
            some (payload, if x i < 0 then int64Max else x i) := if_neg hmax
        rw [List.filter_cons_of_pos (by simp [hv, hmax]), saveResults,
          List.filterMap_cons_some hsave]
        exact List.Forall₂.cons ⟨hv, hvalue i hi (by rw [hv]; rfl)⟩ hlines

/-- **The breadth-first search of the GTX driver** ends, accesses its arrays inside of their bounds,
and saves a line with the hop distance for each vertex, except one with the external identifier that
marks a missing vertex. The number of vertices only has an influence on the directions. -/
theorem bfs_outputs (ht : t.WellFormed) (sched : Schedule ℕ) (memory : ℕ → ℤ) (numVertices : ℕ)
    {root : ℕ} (hroot : (t.vertex root).isSome) {alpha beta : ℤ} (_halpha : 1 ≤ alpha)
    (hbeta : 1 ≤ beta) {fuel : ℕ} (hfuel : t.maxVertexId + 1 < fuel) :
    ∃ lines, t.bfs sched memory numVertices root alpha beta fuel = some lines ∧
      t.Outputs root t.listed lines := by
  obtain ⟨r, rfl⟩ : ∃ r, root = r + 1 := ⟨root - 1, by have := ht.vertex_range root hroot; omega⟩
  have hlt : r < t.maxVertexId := (ht.vertex_range _ hroot).2
  obtain ⟨s, c, d, hrun, hsim, hinv, hempty⟩ :=
    doBfs_spec ht sched memory numVertices hroot alpha hbeta hfuel
  obtain ⟨hdist, hnone, -⟩ := hinv.correct (wellFormed_rows ht) hlt hempty
  obtain ⟨pairs, hpairs, hlines⟩ := translate_outputs (l := List.range t.maxVertexId)
    (fun i hi hex => hsim.distances.hopValue ht hdist hnone hi hex) fun i hi => List.mem_range.mp hi
  refine ⟨saveResults pairs, ?_, ?_⟩
  · simp only [bfs, hrun, translate, ids_eq, hpairs, Option.bind_eq_bind, Option.bind_some]
  · rw [listed, existing, ids_eq]
    exact hlines

end Simulation

/-- Three vertices, two of them with an edge, among five identifiers. -/
def holes : Snapshot where
  maxVertexId := 5
  vertex u := if u = 1 then some 10 else if u = 3 then some 30 else if u = 5 then some 50 else none
  edges u := if u = 1 then [5] else if u = 5 then [1] else []
  degree u := if u = 1 ∨ u = 5 then 1 else 0

theorem wellFormed_holes : holes.WellFormed where
  vertex_range u h := by
    simp only [holes] at h ⊢
    split_ifs at h <;> simp_all
  ends u v h := by
    simp only [holes] at h ⊢
    split_ifs at h <;> simp_all
  symm u v h := by
    simp only [holes] at h ⊢
    split_ifs at h <;> simp_all
  nodup u := by
    simp only [holes]
    split_ifs <;> simp
  degree u := by
    simp only [holes]
    split_ifs <;> simp_all

theorem bfs_outputs_holes :
    ∃ lines, holes.bfs Schedule.sequential (fun _ => 0) 3 5 15 18 7 = some lines ∧
      holes.Outputs 5 holes.listed lines :=
  bfs_outputs wellFormed_holes Schedule.sequential (fun _ => 0) 3 rfl (by decide) (by decide)
    (by decide)

/-- One vertex, with the external identifier `2 ^ 64 - 1`. -/
def marked : Snapshot where
  maxVertexId := 1
  vertex u := if u = 1 then some uint64Max else none
  edges _ := []
  degree _ := 0

/-- The vertex has no line. -/
theorem not_outputs_marked :
    ¬∃ fuel lines, marked.bfs Schedule.sequential (fun _ => 0) 1 1 15 18 fuel = some lines ∧
      marked.Outputs 1 marked.existing lines := by
  rintro ⟨fuel, lines, hrun, hlines⟩
  simp only [bfs, Option.bind_eq_bind, Option.bind_eq_some_iff, Option.some.injEq] at hrun
  obtain ⟨s, -, pairs, -, rfl⟩ := hrun
  have hexisting : marked.existing = [1] := rfl
  rw [hexisting, Outputs] at hlines
  obtain ⟨line, hmem, hvertex, -⟩ : ∃ line ∈ saveResults pairs, marked.vertex 1 = some line.1 ∧
      marked.HopValue 1 1 line.2 := by
    cases hline : saveResults pairs with
    | nil => simp [hline] at hlines
    | cons line lines =>
      rw [hline] at hlines
      exact ⟨line, List.mem_cons_self, (List.forall₂_cons.mp hlines).1⟩
  exact fst_ne_of_mem_saveResults hmem (Option.some.inj hvertex).symm

end Snapshot

end Gtx

end GfeDriver
