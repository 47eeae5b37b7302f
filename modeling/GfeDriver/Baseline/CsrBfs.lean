import GfeDriver.Foundation.Hops
import GfeDriver.Foundation.Loop
import GfeDriver.Foundation.Schedule
import GfeDriver.Baseline.Csr

/-!
# Direction-optimizing breadth-first search

`do_bfs` alternates between top-down steps, which scan a window of a queue, and bottom-up steps,
which scan the unvisited vertices against a bitmap of the last level. The distance array encodes
the unvisited vertices by negative numbers. When a bottom-up phase ends, its bitmap `front` is
left as it is, and the next phase adds the bits of its own level to it; the bits left over are
those of visited vertices, whose successors are visited too, so both kinds of steps are one
`Explored.advance`.

The parallel loops of the source process the vertices of one step in an order given by a
schedule. A step processes one vertex at a time, so the `compare_and_swap` on a distance that
was just read succeeds. The thread-local queue buffers only change the order in which a step's
discoveries enter the queue, which the schedule of the next step covers.

## Main definitions

* `SlidingQueue`, `Bitmap`: the containers of the search
* `doBfsTDStep`, `doBfsBUStep`, `doBfsQueueToBitmap`, `doBfsBitmapToQueue`: the steps
* `doBfs`: the search

## Main results

* `doBfsTDStep_spec`, `doBfsBUStep_spec`: what one step does
* `BfsInvariant.topDown`, `BfsInvariant.bottomUp`: the two branches of the loop
* `doBfs_correct`: termination, distances and the bound on the queue
-/

namespace GfeDriver

open Foundation

/-- `gapbs::SlidingQueue`: the elements pushed so far and the window of those being read. The
index `shared_in` is the number of pushed elements. -/
structure SlidingQueue where
  shared : List ℕ
  sharedOutStart : ℕ
  sharedOutEnd : ℕ
  deriving DecidableEq, Repr

namespace SlidingQueue

/-- The constructor: an empty queue. -/
def new : SlidingQueue := ⟨[], 0, 0⟩

def pushBack (q : SlidingQueue) (x : ℕ) : SlidingQueue := { q with shared := q.shared ++ [x] }

def empty (q : SlidingQueue) : Bool := q.sharedOutStart == q.sharedOutEnd

def slideWindow (q : SlidingQueue) : SlidingQueue :=
  { q with sharedOutStart := q.sharedOutEnd, sharedOutEnd := q.shared.length }

/-- The elements from `begin()` to `end()`. -/
def window (q : SlidingQueue) : List ℕ := (q.shared.take q.sharedOutEnd).drop q.sharedOutStart

def size (q : SlidingQueue) : ℕ := q.sharedOutEnd - q.sharedOutStart

end SlidingQueue

/-- `gapbs::Bitmap`, as the function of its bits. -/
abbrev Bitmap := ℕ → Bool

namespace Bitmap

def reset : Bitmap := fun _ => false

def setBit (b : Bitmap) (pos : ℕ) : Bitmap := Function.update b pos true

end Bitmap

namespace CSR

variable {W : Type}

/-! ## The steps of the search -/

/-- `CSR::do_bfs_init_distances`: the negated degree of each vertex, and `-1` for a sink. -/
def doBfsInitDistances (g : CSR W) : ℕ → ℤ := fun n =>
  let outDegree : ℤ := g.getOutDegree n
  if outDegree ≠ 0 then -outDegree else -1

/-- What a top-down step accumulates: distances, queue and `scout_count`. -/
structure TDState where
  distances : ℕ → ℤ
  queue : SlidingQueue
  scoutCount : ℤ

/-- The body of the inner loop of `do_bfs_TDStep`, for an edge to `dst`. -/
def visit (distance : ℤ) (s : TDState) (dst : ℕ) : TDState :=
  let currVal := s.distances dst
  if currVal < 0 then
    ⟨Function.update s.distances dst distance, s.queue.pushBack dst, s.scoutCount + -currVal⟩
  else s

/-- `CSR::do_bfs_TDStep`, for the vertices of the window in the order `order`. -/
def doBfsTDStep (g : CSR W) (order : List ℕ) (distances : ℕ → ℤ) (distance : ℤ)
    (queue : SlidingQueue) : TDState :=
  order.foldl
    (fun s u => (indices (g.getOutInterval u)).foldl
      (fun s i => visit distance s (g.outE.getD i 0)) s)
    ⟨distances, queue, 0⟩

/-- What a bottom-up step accumulates: distances, bitmap of the new level, `awake_count`. -/
structure BUState where
  distances : ℕ → ℤ
  next : Bitmap
  awakeCount : ℤ

/-- The body of the loop of `do_bfs_BUStep`: the scan of the incoming edges stops at the first
vertex of the front. -/
def awaken (g : CSR W) (distance : ℤ) (front : Bitmap) (s : BUState) (u : ℕ) : BUState :=
  if s.distances u < 0 then
    if (indices (g.getInInterval u)).any fun i => front (g.inE.getD i 0) then
      ⟨Function.update s.distances u distance, s.next.setBit u, s.awakeCount + 1⟩
    else s
  else s

/-- `CSR::do_bfs_BUStep`, for the vertices of the graph in the order `order`. -/
def doBfsBUStep (g : CSR W) (order : List ℕ) (distances : ℕ → ℤ) (distance : ℤ)
    (front : Bitmap) : BUState :=
  order.foldl (g.awaken distance front) ⟨distances, Bitmap.reset, 0⟩

/-- `CSR::do_bfs_QueueToBitmap`. -/
def doBfsQueueToBitmap (queue : SlidingQueue) (bm : Bitmap) : Bitmap :=
  queue.window.foldl Bitmap.setBit bm

/-- `CSR::do_bfs_BitmapToQueue`, for the vertices of the graph in the order `order`. -/
def doBfsBitmapToQueue (order : List ℕ) (bm : Bitmap) (queue : SlidingQueue) : SlidingQueue :=
  (order.foldl (fun q n => if bm n then q.pushBack n else q) queue).slideWindow

/-! ## The search -/

/-- The variables of `do_bfs`; `ticks` counts the parallel loops executed. -/
structure BfsState where
  distances : ℕ → ℤ
  queue : SlidingQueue
  front : Bitmap
  curr : Bitmap
  edgesToCheck : ℤ
  scoutCount : ℤ
  distance : ℤ
  ticks : ℕ

/-- The variables of a bottom-up phase. -/
structure BUPhase where
  state : BfsState
  awakeCount : ℤ
  oldAwakeCount : ℤ

/-- The body of the `do`-`while` loop of `do_bfs`. -/
def bottomUpBody (g : CSR W) (sched : Schedule ℕ) (p : BUPhase) : Option BUPhase :=
  let s := p.state
  let r := g.doBfsBUStep (sched.order s.ticks (List.range g.numVertices)) s.distances s.distance
    s.front
  some ⟨{ s with distances := r.distances, front := r.next, curr := s.front,
                 distance := s.distance + 1, ticks := s.ticks + 1 }, r.awakeCount, p.awakeCount⟩

/-- The condition of the `do`-`while` loop of `do_bfs`. -/
def bottomUpCond (g : CSR W) (beta : ℤ) (p : BUPhase) : Bool :=
  decide (p.awakeCount ≥ p.oldAwakeCount) ||
    decide (p.awakeCount > (g.numVertices : ℤ).tdiv beta)

/-- The branch of `do_bfs` that runs bottom-up steps. -/
def bottomUp (g : CSR W) (sched : Schedule ℕ) (beta : ℤ) (fuel : ℕ) (s : BfsState) :
    Option BfsState := do
  let front := doBfsQueueToBitmap s.queue s.front
  let p ← doWhile (g.bottomUpCond beta) (g.bottomUpBody sched) fuel
    ⟨{ s with front := front, queue := s.queue.slideWindow }, s.queue.size, 0⟩
  let s := p.state
  some { s with
    queue := doBfsBitmapToQueue (sched.order s.ticks (List.range g.numVertices)) s.front s.queue
    scoutCount := 1
    ticks := s.ticks + 1 }

/-- The branch of `do_bfs` that runs one top-down step. -/
def topDown (g : CSR W) (sched : Schedule ℕ) (s : BfsState) : BfsState :=
  let r := g.doBfsTDStep (sched.order s.ticks s.queue.window) s.distances s.distance s.queue
  { s with distances := r.distances, queue := r.queue.slideWindow, scoutCount := r.scoutCount,
           edgesToCheck := s.edgesToCheck - s.scoutCount, distance := s.distance + 1,
           ticks := s.ticks + 1 }

/-- The body of the `while` loop of `do_bfs`. -/
def bfsIteration (g : CSR W) (sched : Schedule ℕ) (alpha beta : ℤ) (fuel : ℕ) (s : BfsState) :
    Option BfsState :=
  if s.scoutCount > s.edgesToCheck.tdiv alpha then g.bottomUp sched beta fuel s
  else some (g.topDown sched s)

/-- The variables of `do_bfs` before its loop. -/
def bfsInit (g : CSR W) (root : ℕ) : BfsState where
  distances := Function.update g.doBfsInitDistances root 0
  queue := (SlidingQueue.new.pushBack root).slideWindow
  front := Bitmap.reset
  curr := Bitmap.reset
  edgesToCheck := g.numEdges
  scoutCount := g.getOutDegree root
  distance := 1
  ticks := 0

/-- `CSR::do_bfs`, when no timeout fires. -/
def doBfs (g : CSR W) (sched : Schedule ℕ) (root : ℕ) (alpha beta : ℤ) (fuel : ℕ) :
    Option BfsState :=
  whileLoop (fun s => !s.queue.empty) (g.bfsIteration sched alpha beta fuel) fuel (g.bfsInit root)

/-! ## One step -/

theorem doBfsTDStep_eq (g : CSR W) (order : List ℕ) (distances : ℕ → ℤ) (distance : ℤ)
    (queue : SlidingQueue) :
    g.doBfsTDStep order distances distance queue =
      (order.flatMap g.outNeighbours).foldl (visit distance) ⟨distances, queue, 0⟩ := by
  simp only [doBfsTDStep, outNeighbours, List.foldl_flatMap, List.foldl_map]

theorem foldl_visit (distance : ℤ) (hdist : 0 ≤ distance) (targets : List ℕ) (s : TDState) :
    ∃ pushes : List ℕ, pushes.Nodup ∧ (∀ v, v ∈ pushes ↔ s.distances v < 0 ∧ v ∈ targets) ∧
      (targets.foldl (visit distance) s).queue =
        { s.queue with shared := s.queue.shared ++ pushes } ∧
      ∀ v, (targets.foldl (visit distance) s).distances v =
        if v ∈ pushes then distance else s.distances v := by
  induction targets generalizing s with
  | nil => exact ⟨[], by simp⟩
  | cons t targets ih =>
    obtain ⟨pushes, hnodup, hmem, hqueue, hdists⟩ := ih (visit distance s t)
    simp only [List.foldl_cons]
    by_cases ht : s.distances t < 0
    · have hvisit : visit distance s t = ⟨Function.update s.distances t distance,
          s.queue.pushBack t, s.scoutCount + -s.distances t⟩ := by simp [visit, ht]
      rw [hvisit] at hmem hqueue hdists ⊢
      -- a target that was visited is not visited again
      have hstep : ∀ v, Function.update s.distances t distance v < 0 ↔
          v ≠ t ∧ s.distances v < 0 := by
        intro v
        by_cases hv : v = t
        · subst hv
          simp [not_lt.mpr hdist]
        · simp [hv]
      have htp : t ∉ pushes := by
        rw [hmem, hstep]
        simp
      refine ⟨t :: pushes, List.nodup_cons.mpr ⟨htp, hnodup⟩, fun v => ?_, ?_, fun v => ?_⟩
      · rw [List.mem_cons, hmem, hstep, List.mem_cons]
        by_cases hv : v = t
        · simp [hv, ht]
        · simp [hv]
      · rw [hqueue]
        simp [SlidingQueue.pushBack]
      · rw [hdists]
        by_cases hv : v = t
        · subst hv
          simp [htp]
        · simp [hv]
    · have hvisit : visit distance s t = s := by simp [visit, ht]
      rw [hvisit] at hmem hqueue hdists ⊢
      refine ⟨pushes, hnodup, fun v => ?_, hqueue, hdists⟩
      rw [hmem, List.mem_cons]
      by_cases hv : v = t
      · simp [hv, ht]
      · simp [hv]

/-- **A top-down step** discovers the unvisited successors of the vertices it processes, each
once. -/
theorem doBfsTDStep_spec (g : CSR W) (order : List ℕ) (distances : ℕ → ℤ) {distance : ℤ}
    (hdist : 0 ≤ distance) (queue : SlidingQueue) :
    ∃ pushes : List ℕ, pushes.Nodup ∧
      (∀ v, v ∈ pushes ↔ distances v < 0 ∧ ∃ u ∈ order, v ∈ g.outNeighbours u) ∧
      (g.doBfsTDStep order distances distance queue).queue =
        { queue with shared := queue.shared ++ pushes } ∧
      ∀ v, (g.doBfsTDStep order distances distance queue).distances v =
        if v ∈ pushes then distance else distances v := by
  obtain ⟨pushes, hnodup, hmem, hqueue, hdists⟩ :=
    foldl_visit distance hdist (order.flatMap g.outNeighbours) ⟨distances, queue, 0⟩
  rw [doBfsTDStep_eq]
  exact ⟨pushes, hnodup, fun v => by simpa [List.mem_flatMap] using hmem v, hqueue, hdists⟩

theorem foldl_awaken (g : CSR W) (distance : ℤ) (front : Bitmap) (order : List ℕ)
    (hnodup : order.Nodup) (s : BUState) :
    ∃ l : List ℕ, l.Nodup ∧
      (∀ v, v ∈ l ↔ v ∈ order ∧ s.distances v < 0 ∧ ∃ u ∈ g.inNeighbours v, front u = true) ∧
      (∀ v, (order.foldl (g.awaken distance front) s).distances v =
        if v ∈ l then distance else s.distances v) ∧
      (∀ v, (order.foldl (g.awaken distance front) s).next v = true ↔ v ∈ l ∨ s.next v = true) ∧
      (order.foldl (g.awaken distance front) s).awakeCount = s.awakeCount + l.length := by
  induction order generalizing s with
  | nil => exact ⟨[], by simp⟩
  | cons u order ih =>
    obtain ⟨hu, hnodup'⟩ := List.nodup_cons.mp hnodup
    obtain ⟨l, hl, hmem, hdists, hnext, hcount⟩ := ih hnodup' (g.awaken distance front s u)
    rw [List.foldl_cons]
    have htouch : ((indices (g.getInInterval u)).any fun i => front (g.inE.getD i 0)) = true ↔
        ∃ x ∈ g.inNeighbours u, front x = true := by
      simp [inNeighbours]
    by_cases hw : s.distances u < 0 ∧ ∃ x ∈ g.inNeighbours u, front x = true
    · have hstep : g.awaken distance front s u =
          ⟨Function.update s.distances u distance, s.next.setBit u, s.awakeCount + 1⟩ := by
        simp only [awaken, if_pos hw.1, if_pos (htouch.mpr hw.2)]
      rw [hstep] at hmem hdists hnext hcount ⊢
      -- the vertices of the order differ
      have hul : u ∉ l := fun hc => hu ((hmem u).mp hc).1
      refine ⟨u :: l, List.nodup_cons.mpr ⟨hul, hl⟩, fun v => ?_, fun v => ?_, fun v => ?_, ?_⟩
      · rw [List.mem_cons, hmem]
        by_cases hv : v = u
        · simp [hv, hw]
        · simp [hv]
      · rw [hdists]
        by_cases hv : v = u
        · simp [hv, hul]
        · simp [hv]
      · rw [hnext]
        by_cases hv : v = u
        · simp [hv, Bitmap.setBit]
        · simp [hv, Bitmap.setBit]
      · rw [hcount]
        simp only [List.length_cons]
        push_cast
        ring
    · have hstep : g.awaken distance front s u = s := by
        unfold awaken
        by_cases hneg : s.distances u < 0
        · rw [if_pos hneg, if_neg fun hany => hw ⟨hneg, htouch.mp hany⟩]
        · rw [if_neg hneg]
      rw [hstep] at hmem hdists hnext hcount ⊢
      refine ⟨l, hl, fun v => ?_, hdists, hnext, hcount⟩
      rw [hmem]
      by_cases hv : v = u
      · subst hv
        simp [hu, hw]
      · simp [hv]

/-- **A bottom-up step** discovers the unvisited vertices with a predecessor in the front. -/
theorem doBfsBUStep_spec (g : CSR W) {order : List ℕ}
    (horder : order.Perm (List.range g.numVertices)) (distances : ℕ → ℤ) (distance : ℤ)
    (front : Bitmap) :
    ∃ l : List ℕ, l.Nodup ∧
      (∀ v, v ∈ l ↔ v < g.numVertices ∧ distances v < 0 ∧ ∃ u ∈ g.inNeighbours v, front u = true) ∧
      (∀ v, (g.doBfsBUStep order distances distance front).distances v =
        if v ∈ l then distance else distances v) ∧
      (∀ v, (g.doBfsBUStep order distances distance front).next v = true ↔ v ∈ l) ∧
      (g.doBfsBUStep order distances distance front).awakeCount = l.length := by
  have hnodup : order.Nodup := horder.nodup_iff.mpr List.nodup_range
  obtain ⟨l, hl, hmem, hdists, hnext, hcount⟩ :=
    g.foldl_awaken distance front order hnodup ⟨distances, Bitmap.reset, 0⟩
  refine ⟨l, hl, fun v => ?_, hdists, fun v => ?_, ?_⟩
  · rw [hmem, horder.mem_iff, List.mem_range]
  · unfold doBfsBUStep
    rw [hnext]
    simp [Bitmap.reset]
  · unfold doBfsBUStep
    rw [hcount]
    simp

theorem doBfsQueueToBitmap_iff (queue : SlidingQueue) (bm : Bitmap) (v : ℕ) :
    doBfsQueueToBitmap queue bm v = true ↔ v ∈ queue.window ∨ bm v = true := by
  unfold doBfsQueueToBitmap
  generalize queue.window = l
  induction l generalizing bm with
  | nil => simp
  | cons u l ih =>
    rw [List.foldl_cons, ih, List.mem_cons]
    by_cases hv : v = u
    · simp [hv, Bitmap.setBit]
    · simp [hv, Bitmap.setBit]

theorem doBfsBitmapToQueue_eq (order : List ℕ) (bm : Bitmap) (queue : SlidingQueue) :
    doBfsBitmapToQueue order bm queue =
      ({ queue with shared := queue.shared ++ order.filter bm } : SlidingQueue).slideWindow := by
  unfold doBfsBitmapToQueue
  congr 1
  induction order generalizing queue with
  | nil => simp
  | cons n order ih =>
    rw [List.foldl_cons, ih]
    by_cases hn : bm n = true
    · simp [hn, SlidingQueue.pushBack]
    · simp [hn]

/-! ## The queue -/

/-- Between two steps the window ends where the pushed elements end. -/
structure SlidingQueue.Settled (q : SlidingQueue) : Prop where
  end_eq : q.sharedOutEnd = q.shared.length
  start_le : q.sharedOutStart ≤ q.sharedOutEnd

/-- Pushing `l` and sliding the window leaves `l` in it. -/
theorem SlidingQueue.Settled.push {q : SlidingQueue} (h : SlidingQueue.Settled q) (l : List ℕ) :
    let q' : SlidingQueue := { q with shared := q.shared ++ l }
    SlidingQueue.Settled q'.slideWindow ∧ q'.slideWindow.window = l ∧
      (q'.slideWindow.empty = true ↔ l = []) := by
  refine ⟨⟨rfl, ?_⟩, ?_, ?_⟩
  · simp [SlidingQueue.slideWindow, h.end_eq]
  · have htake : (q.shared ++ l).take (q.shared.length + l.length) = q.shared ++ l :=
      List.take_of_length_le (by simp)
    simp [SlidingQueue.slideWindow, SlidingQueue.window, h.end_eq, htake]
  · simp [SlidingQueue.slideWindow, SlidingQueue.empty, h.end_eq]

theorem SlidingQueue.Settled.empty_iff {q : SlidingQueue} (h : SlidingQueue.Settled q) :
    q.empty = true ↔ q.window = [] := by
  have hlen : q.window.length = q.sharedOutEnd - q.sharedOutStart := by
    simp [SlidingQueue.window, h.end_eq]
  rw [← List.length_eq_zero_iff, hlen]
  have := h.start_le
  simp only [SlidingQueue.empty, beq_iff_eq]
  omega

theorem SlidingQueue.Settled.length_window {q : SlidingQueue} (h : SlidingQueue.Settled q) :
    q.window.length = q.size := by
  simp [SlidingQueue.window, SlidingQueue.size, h.end_eq]

/-! ## One level of the search -/

section Levels

variable {g : CSR W} {root : ℕ}

theorem hops_lt (hg : g.WellFormed) (hroot : root < g.numVertices) {k v : ℕ}
    (h : Hops g.Arc root k v) : v < g.numVertices := by
  cases h with
  | zero => exact hroot
  | succ _ harc => exact hg.arc_lt harc

theorem Explored.lt (hg : g.WellFormed) (hroot : root < g.numVertices) {dist : ℕ → ℤ} {d : ℕ}
    (h : Explored g.Arc root dist d) {v : ℕ} (hv : 0 ≤ dist v) : v < g.numVertices := by
  obtain ⟨k, -, hdist, -⟩ := h.sound v hv
  exact hops_lt hg hroot hdist.1

/-- The number of vertices not visited yet. -/
def unvisited (g : CSR W) (dist : ℕ → ℤ) : ℕ :=
  ((Finset.range g.numVertices).filter fun v => dist v < 0).card

theorem unvisited_le_numVertices (g : CSR W) (dist : ℕ → ℤ) :
    g.unvisited dist ≤ g.numVertices :=
  (Finset.card_filter_le _ _).trans (Finset.card_range _).le

theorem unvisited_le (g : CSR W) {dist dist' : ℕ → ℤ} (h : ∀ v, 0 ≤ dist v → 0 ≤ dist' v) :
    g.unvisited dist' ≤ g.unvisited dist := by
  refine Finset.card_le_card fun v hv => ?_
  simp only [Finset.mem_filter] at hv ⊢
  refine ⟨hv.1, ?_⟩
  by_contra hc
  exact absurd hv.2 (not_lt.mpr (h v (not_lt.mp hc)))

theorem unvisited_lt (g : CSR W) {dist dist' : ℕ → ℤ} (h : ∀ v, 0 ≤ dist v → 0 ≤ dist' v) {v : ℕ}
    (hlt : v < g.numVertices) (hv : dist v < 0) (hv' : 0 ≤ dist' v) :
    g.unvisited dist' < g.unvisited dist := by
  refine Finset.card_lt_card ((Finset.ssubset_iff_of_subset fun x hx => ?_).mpr ⟨v, ?_, ?_⟩)
  · simp only [Finset.mem_filter] at hx ⊢
    refine ⟨hx.1, ?_⟩
    by_contra hc
    exact absurd hx.2 (not_lt.mpr (h x (not_lt.mp hc)))
  · simp [hlt, hv]
  · simp [not_lt.mpr hv']

/-- The labels after a step that discovers the vertices `l` on the level `d + 1`. -/
structure Discovers (g : CSR W) (root : ℕ) (dist dist' : ℕ → ℤ) (d : ℕ) (l : List ℕ) : Prop where
  explored : Explored g.Arc root dist' (d + 2)
  kept : ∀ v, 0 ≤ dist v → dist' v = dist v
  mem_iff : ∀ v, v ∈ l ↔ dist' v = (d : ℤ) + 1
  fresh : ∀ v ∈ l, v < g.numVertices ∧ dist v < 0

/-- Both kinds of steps label the unvisited vertices reached from a set of visited vertices that
contains the last level. -/
theorem discovers_of_scan {dist dist' : ℕ → ℤ} {d : ℕ} {l : List ℕ} {F : ℕ → Prop}
    (hg : g.WellFormed) (h : Explored g.Arc root dist (d + 1)) (hlast : ∀ v, dist v = d → F v)
    (hF : ∀ v, F v → 0 ≤ dist v) (hl : ∀ v, v ∈ l ↔ dist v < 0 ∧ ∃ u, F u ∧ g.Arc u v)
    (hdist' : ∀ v, dist' v = if v ∈ l then (d : ℤ) + 1 else dist v) :
    Discovers g root dist dist' d l where
  explored := by
    refine h.advance hlast hF (fun v hv => ?_) (fun v hv hex => ?_) (fun v hv hex => ?_)
    · rw [hdist', if_neg fun hc => absurd ((hl v).mp hc).1 (not_lt.mpr hv)]
    · rw [hdist', if_pos ((hl v).mpr ⟨hv, hex⟩)]
    · rw [hdist', if_neg fun hc => hex ((hl v).mp hc).2]
      exact hv
  kept := by
    intro v hv
    rw [hdist', if_neg fun hc => absurd ((hl v).mp hc).1 (not_lt.mpr hv)]
  mem_iff := by
    intro v
    by_cases hv : v ∈ l
    · simp [hdist', hv]
    · rw [hdist', if_neg hv]
      -- an old distance is at most that of the last level
      refine ⟨fun hc => absurd hc hv, fun heq => ?_⟩
      obtain ⟨k, hk, -, hlt⟩ := h.sound v (by omega)
      omega
  fresh := by
    intro v hv
    obtain ⟨hneg, u, -, harc⟩ := (hl v).mp hv
    exact ⟨hg.arc_lt harc, hneg⟩

end Levels

/-! ## The invariant of the search -/

/-- The state of the search before a step, when the window holds the level `d`. The front may
have bits of earlier levels. -/
structure BfsInvariant (g : CSR W) (root : ℕ) (s : BfsState) (d : ℕ) : Prop where
  distance_eq : s.distance = (d : ℤ) + 1
  explored : Explored g.Arc root s.distances (d + 1)
  settled : SlidingQueue.Settled s.queue
  mem_window : ∀ v, v ∈ s.queue.window ↔ s.distances v = d
  pushed_nodup : s.queue.shared.Nodup
  pushed : ∀ v ∈ s.queue.shared, 0 ≤ s.distances v
  front : ∀ v, s.front v = true → 0 ≤ s.distances v

/-- The state of a bottom-up phase after a step, when the front holds the level `d` exactly. The
vertices pushed so far are on earlier levels. -/
structure PhaseInvariant (g : CSR W) (root : ℕ) (p : BUPhase) (d : ℕ) : Prop where
  distance_eq : p.state.distance = (d : ℤ) + 1
  explored : Explored g.Arc root p.state.distances (d + 1)
  settled : SlidingQueue.Settled p.state.queue
  front_iff : ∀ v, p.state.front v = true ↔ p.state.distances v = d
  pushed_nodup : p.state.queue.shared.Nodup
  pushed : ∀ v ∈ p.state.queue.shared, 0 ≤ p.state.distances v ∧ p.state.distances v < d
  awake_nonneg : 0 ≤ p.awakeCount
  awake_pos : 1 ≤ p.awakeCount → ∃ v, p.state.distances v = d
  old_pos : 1 ≤ p.oldAwakeCount

section Steps

variable {g : CSR W} {root : ℕ} (sched : Schedule ℕ)

/-- **One bottom-up step**, the first of a phase or a later one. -/
theorem bottomUpBody_step (hg : g.WellFormed) (ht : g.Transposed) {p : BUPhase} {d : ℕ}
    (hdist : p.state.distance = (d : ℤ) + 1)
    (hexp : Explored g.Arc root p.state.distances (d + 1))
    (hsettled : SlidingQueue.Settled p.state.queue)
    (hlast : ∀ v, p.state.distances v = d → p.state.front v = true)
    (hfront : ∀ v, p.state.front v = true → 0 ≤ p.state.distances v)
    (hnodup : p.state.queue.shared.Nodup)
    (hpushed : ∀ v ∈ p.state.queue.shared, 0 ≤ p.state.distances v) (hawake : 1 ≤ p.awakeCount) :
    ∃ p', g.bottomUpBody sched p = some p' ∧ PhaseInvariant g root p' (d + 1) ∧
      p'.state.queue = p.state.queue ∧
      (∀ v, 0 ≤ p.state.distances v → p'.state.distances v = p.state.distances v) := by
  have horder := sched.perm p.state.ticks (List.range g.numVertices)
  obtain ⟨l, -, hlmem, hdists, hnext, hcount⟩ :=
    g.doBfsBUStep_spec horder p.state.distances p.state.distance p.state.front
  -- the in-neighbours of a vertex are the sources of the arcs to it
  have hscan : ∀ v, v ∈ l ↔ p.state.distances v < 0 ∧
      ∃ u, p.state.front u = true ∧ g.Arc u v := by
    intro v
    rw [hlmem]
    constructor
    · rintro ⟨hv, hneg, u, hu, hfu⟩
      have hun := hg.lt_of_mem_inNeighbours hv hu
      exact ⟨hneg, u, hfu, hun, (ht u hun v hv).mp hu⟩
    · rintro ⟨hneg, u, hfu, harc⟩
      have hv := hg.arc_lt harc
      exact ⟨hv, hneg, u, (ht u harc.1 v hv).mpr harc.2, hfu⟩
  set r := g.doBfsBUStep (sched.order p.state.ticks (List.range g.numVertices)) p.state.distances
    p.state.distance p.state.front with hr
  -- the vertices found by the scan are those of the next level
  have hdisc : Discovers g root p.state.distances r.distances d l :=
    discovers_of_scan hg hexp hlast hfront hscan fun v => by rw [hdists v, hdist]
  refine ⟨⟨{ p.state with
      distances := r.distances, front := r.next, curr := p.state.front,
      distance := p.state.distance + 1, ticks := p.state.ticks + 1 }, r.awakeCount,
      p.awakeCount⟩, by rw [bottomUpBody, hr],
    ⟨?_, hdisc.explored, hsettled, fun v => ?_, hnodup, fun v hv => ?_, ?_, fun hpos => ?_, hawake⟩,
    rfl, hdisc.kept⟩
  · push_cast
    rw [hdist]
  · push_cast
    rw [hnext, hdisc.mem_iff]
  · have hv' := hpushed v hv
    obtain ⟨k, hk, -, hlt⟩ := hexp.sound v hv'
    simp only [hdisc.kept v hv', hk]
    omega
  · simp only [hcount]
    positivity
  · simp only [hcount] at hpos
    obtain ⟨v, hv⟩ := List.exists_mem_of_length_pos (l := l) (by omega)
    exact ⟨v, by push_cast; exact (hdisc.mem_iff v).mp hv⟩

/-- A bottom-up phase continues only after a step that discovered something. -/
theorem PhaseInvariant.awake_pos_of_cond {p : BUPhase} {d : ℕ} (h : PhaseInvariant g root p d)
    {threshold : ℤ} (hthreshold : 0 ≤ threshold)
    (hc : (decide (p.awakeCount ≥ p.oldAwakeCount) || decide (p.awakeCount > threshold)) = true) :
    1 ≤ p.awakeCount := by
  have hold := h.old_pos
  simp only [Bool.or_eq_true, decide_eq_true_eq] at hc
  omega

/-- The variant of a bottom-up phase: each step but the last discovers a vertex. -/
def phaseVariant (g : CSR W) (p : BUPhase) : ℕ :=
  g.unvisited p.state.distances + if 1 ≤ p.awakeCount then 1 else 0

theorem phaseVariant_lt (g : CSR W) {fuel : ℕ} (hfuel : g.numVertices + 1 < fuel) (p : BUPhase) :
    g.phaseVariant p < fuel := by
  have := g.unvisited_le_numVertices p.state.distances
  simp only [phaseVariant]
  split_ifs <;> omega

/-- **A later step** of a bottom-up phase. -/
theorem PhaseInvariant.step (hg : g.WellFormed) (ht : g.Transposed) (hroot : root < g.numVertices)
    {p : BUPhase} {d : ℕ} (h : PhaseInvariant g root p d) (hawake : 1 ≤ p.awakeCount) :
    ∃ p', g.bottomUpBody sched p = some p' ∧ PhaseInvariant g root p' (d + 1) ∧
      p'.state.queue = p.state.queue ∧
      (∀ v, 0 ≤ p.state.distances v → p'.state.distances v = p.state.distances v) ∧
      g.phaseVariant p' < g.phaseVariant p := by
  obtain ⟨p', hbody, hp', hqueue, hkept⟩ := bottomUpBody_step sched hg ht
    h.distance_eq h.explored h.settled (fun v hv => (h.front_iff v).mpr hv)
    (fun v hv => by rw [(h.front_iff v).mp hv]; omega) h.pushed_nodup
    (fun v hv => (h.pushed v hv).1) hawake
  have hmono : ∀ v, 0 ≤ p.state.distances v → 0 ≤ p'.state.distances v :=
    fun v hv => by rw [hkept v hv]; exact hv
  refine ⟨p', hbody, hp', hqueue, hkept, ?_⟩
  have hle := g.unvisited_le hmono
  simp only [phaseVariant, if_pos hawake]
  split_ifs with hawake'
  · obtain ⟨v, hv⟩ := hp'.awake_pos hawake'
    have hvlt : v < g.numVertices := Explored.lt hg hroot hp'.explored (by rw [hv]; positivity)
    have hneg : p.state.distances v < 0 := by
      by_contra hc
      obtain ⟨k, hk, -, hlt⟩ := h.explored.sound v (by omega)
      rw [hkept v (by omega), hk] at hv
      push_cast at hv
      omega
    have := g.unvisited_lt hmono hvlt hneg (by rw [hv]; positivity)
    omega
  · omega

/-- **A whole bottom-up phase** ends, on a level beyond the one it started from. -/
theorem bottomUp_phase (hg : g.WellFormed) (ht : g.Transposed) (hroot : root < g.numVertices)
    {beta : ℤ} (hbeta : 1 ≤ beta) {fuel : ℕ} (hfuel : g.numVertices + 1 < fuel) {p : BUPhase}
    {d : ℕ} (hp : PhaseInvariant g root p d) :
    ∃ p' d', whileLoop (g.bottomUpCond beta) (g.bottomUpBody sched) fuel p = some p' ∧
      PhaseInvariant g root p' d' ∧ d ≤ d' ∧ p'.state.queue = p.state.queue ∧
      ∀ v, 0 ≤ p.state.distances v → p'.state.distances v = p.state.distances v := by
  let I : BUPhase → Prop := fun q => ∃ d', PhaseInvariant g root q d' ∧ d ≤ d' ∧
    q.state.queue = p.state.queue ∧
    ∀ v, 0 ≤ p.state.distances v → q.state.distances v = p.state.distances v
  have hdiv : 0 ≤ (g.numVertices : ℤ).tdiv beta := Int.tdiv_nonneg (by omega) (by omega)
  have hstep : ∀ q, I q → g.bottomUpCond beta q = true →
      ∃ q', g.bottomUpBody sched q = some q' ∧ I q' ∧ g.phaseVariant q' < g.phaseVariant q := by
    rintro q ⟨d', hq, hdd', hqueue, hkept⟩ hc
    obtain ⟨q', hbody, hq', hqueue', hkept', hlt⟩ :=
      hq.step sched hg ht hroot (hq.awake_pos_of_cond hdiv hc)
    refine ⟨q', hbody, ⟨d' + 1, hq', by omega, hqueue'.trans hqueue, fun v hv => ?_⟩, hlt⟩
    rw [hkept' v (by rw [hkept v hv]; exact hv), hkept v hv]
  obtain ⟨p', hw, ⟨d', hp', hdd', hq, hkept⟩, -⟩ := whileLoop_total I g.phaseVariant hstep fuel p
    ⟨d, hp, le_refl d, rfl, fun _ _ => rfl⟩ (g.phaseVariant_lt hfuel p)
  exact ⟨p', d', hw, hp', hdd', hq, hkept⟩

/-- The variant of the search. -/
def bfsVariant (g : CSR W) (s : BfsState) : ℕ :=
  g.unvisited s.distances + if s.queue.empty then 0 else 1

/-- A step whose window holds newly visited vertices only decreases the variant. -/
theorem bfsVariant_lt {s s' : BfsState} (hne : s.queue.empty = false)
    (hkept : ∀ v, 0 ≤ s.distances v → s'.distances v = s.distances v)
    (hsettled : SlidingQueue.Settled s'.queue)
    (hnew : ∀ v ∈ s'.queue.window, v < g.numVertices ∧ s.distances v < 0 ∧ 0 ≤ s'.distances v) :
    g.bfsVariant s' < g.bfsVariant s := by
  have hmono : ∀ v, 0 ≤ s.distances v → 0 ≤ s'.distances v :=
    fun v hv => by rw [hkept v hv]; exact hv
  have hle := g.unvisited_le hmono
  simp only [bfsVariant, hne]
  -- the queue becomes empty, or some vertex of its window was not visited before
  cases hempty : s'.queue.empty with
  | true => simpa using hle
  | false =>
    have hw : s'.queue.window ≠ [] := fun hc => by simp [hsettled.empty_iff.mpr hc] at hempty
    obtain ⟨v, hv⟩ := List.exists_mem_of_ne_nil _ hw
    obtain ⟨hlt, hneg, hpos⟩ := hnew v hv
    have := g.unvisited_lt hmono hlt hneg hpos
    simpa using this

/-- **The top-down branch** advances by one level. -/
theorem BfsInvariant.topDown (hg : g.WellFormed) {s : BfsState} {d : ℕ}
    (h : BfsInvariant g root s d) (hroot : root < g.numVertices) (hne : s.queue.empty = false) :
    BfsInvariant g root (g.topDown sched s) (d + 1) ∧
      g.bfsVariant (g.topDown sched s) < g.bfsVariant s := by
  have hnonneg : 0 ≤ s.distance := by rw [h.distance_eq]; positivity
  obtain ⟨pushes, hnodup, hmem, hqueue, hdists⟩ :=
    g.doBfsTDStep_spec (sched.order s.ticks s.queue.window) s.distances hnonneg s.queue
  have hwindow : ∀ v ∈ s.queue.window, 0 ≤ s.distances v := by
    intro v hv
    rw [(h.mem_window v).mp hv]
    positivity
  -- the vertices pushed are the unvisited targets of the window
  have hscan : ∀ v, v ∈ pushes ↔ s.distances v < 0 ∧ ∃ u, u ∈ s.queue.window ∧ g.Arc u v := by
    intro v
    rw [hmem]
    refine and_congr_right fun _ => ⟨?_, ?_⟩
    · rintro ⟨u, hu, hv⟩
      rw [sched.mem_order] at hu
      exact ⟨u, hu, Explored.lt hg hroot h.explored (hwindow u hu), hv⟩
    · rintro ⟨u, hu, -, hv⟩
      exact ⟨u, (sched.mem_order _ _ u).mpr hu, hv⟩
  have hdisc : Discovers g root s.distances (g.topDown sched s).distances d pushes :=
    discovers_of_scan hg h.explored (fun v hv => (h.mem_window v).mpr hv) hwindow hscan
      fun v => (hdists v).trans (by rw [h.distance_eq])
  obtain ⟨hsettled, hwin, -⟩ := h.settled.push pushes
  have hqueue' : (g.topDown sched s).queue =
      ({ s.queue with shared := s.queue.shared ++ pushes } : SlidingQueue).slideWindow := by
    simp only [CSR.topDown, hqueue]
  have hfresh : ∀ v ∈ pushes, 0 ≤ (g.topDown sched s).distances v := by
    intro v hv
    have := (hdisc.mem_iff v).mp hv
    simp only [CSR.topDown] at this ⊢
    omega
  refine ⟨⟨?_, hdisc.explored, hqueue' ▸ hsettled, fun v => ?_, ?_, fun v hv => ?_, fun v hv => ?_⟩,
    ?_⟩
  · simp only [CSR.topDown, h.distance_eq]
    push_cast
    ring
  · rw [hqueue', hwin, hdisc.mem_iff]
    push_cast
    rfl
  · rw [hqueue']
    -- what was pushed before had a distance
    refine h.pushed_nodup.append hnodup fun v hv hv' => ?_
    exact absurd (h.pushed v hv) (not_le.mpr (hdisc.fresh v hv').2)
  · rw [hqueue'] at hv
    rcases List.mem_append.mp hv with hv | hv
    · rw [show (g.topDown sched s).distances v = s.distances v from hdisc.kept v (h.pushed v hv)]
      exact h.pushed v hv
    · exact hfresh v hv
  · rw [show (g.topDown sched s).distances v = s.distances v from hdisc.kept v (h.front v hv)]
    exact h.front v hv
  · refine bfsVariant_lt hne hdisc.kept (hqueue' ▸ hsettled) fun v hv => ?_
    rw [hqueue', hwin] at hv
    exact ⟨(hdisc.fresh v hv).1, (hdisc.fresh v hv).2, hfresh v hv⟩

/-- The variables at the start of a bottom-up phase. -/
def startPhase (s : BfsState) : BUPhase :=
  ⟨{ s with front := doBfsQueueToBitmap s.queue s.front, queue := s.queue.slideWindow },
    s.queue.size, 0⟩

/-- **The first step** of a bottom-up phase starts from the window, with the bits left by an earlier
phase. -/
theorem BfsInvariant.startPhase (hg : g.WellFormed) (ht : g.Transposed) {s : BfsState} {d : ℕ}
    (h : BfsInvariant g root s d) (hne : s.queue.empty = false) :
    ∃ p, g.bottomUpBody sched (CSR.startPhase s) = some p ∧ PhaseInvariant g root p (d + 1) ∧
      ∀ v, 0 ≤ s.distances v → p.state.distances v = s.distances v := by
  have hslide : SlidingQueue.Settled s.queue.slideWindow :=
    ⟨rfl, by simp [SlidingQueue.slideWindow, h.settled.end_eq]⟩
  have hwindow : ∀ v ∈ s.queue.window, 0 ≤ s.distances v := by
    intro v hv
    rw [(h.mem_window v).mp hv]
    positivity
  have hsize : (1 : ℤ) ≤ s.queue.size := by
    rw [← h.settled.length_window]
    have hw : s.queue.window ≠ [] := fun hc => by simp [h.settled.empty_iff.mpr hc] at hne
    have := List.length_pos_of_ne_nil hw
    omega
  obtain ⟨p, hbody, hp, -, hkept⟩ := bottomUpBody_step sched hg ht (p := CSR.startPhase s)
    h.distance_eq h.explored hslide
    (fun v hv => (doBfsQueueToBitmap_iff _ _ v).mpr (Or.inl ((h.mem_window v).mpr hv)))
    (fun v hv => ((doBfsQueueToBitmap_iff _ _ v).mp hv).elim (hwindow v) (h.front v))
    h.pushed_nodup h.pushed hsize
  exact ⟨p, hbody, hp, hkept⟩

/-- The variables at the end of a bottom-up phase. -/
def endPhase (g : CSR W) (sched : Schedule ℕ) (s : BfsState) : BfsState :=
  { s with
    queue := doBfsBitmapToQueue (sched.order s.ticks (List.range g.numVertices)) s.front s.queue
    scoutCount := 1
    ticks := s.ticks + 1 }

/-- The vertices of the last level of a phase enter the queue. -/
theorem PhaseInvariant.endPhase (hg : g.WellFormed) (hroot : root < g.numVertices) {p : BUPhase}
    {d : ℕ} (h : PhaseInvariant g root p d) :
    BfsInvariant g root (g.endPhase sched p.state) d := by
  set order := sched.order p.state.ticks (List.range g.numVertices) with horder
  have hmem : ∀ v, v ∈ order.filter p.state.front ↔ p.state.distances v = d := by
    intro v
    rw [List.mem_filter, horder, sched.mem_order, List.mem_range, h.front_iff]
    refine ⟨And.right, fun hv => ⟨?_, hv⟩⟩
    exact Explored.lt hg hroot h.explored (by rw [hv]; positivity)
  obtain ⟨hsettled, hwin, -⟩ := h.settled.push (order.filter p.state.front)
  have hend : g.endPhase sched p.state = { p.state with
      queue := ({ p.state.queue with
        shared := p.state.queue.shared ++ order.filter p.state.front } : SlidingQueue).slideWindow
      scoutCount := 1
      ticks := p.state.ticks + 1 } := by
    rw [CSR.endPhase, doBfsBitmapToQueue_eq]
  rw [hend]
  refine ⟨h.distance_eq, h.explored, hsettled, fun v => ?_, ?_, fun v hv => ?_, fun v hv => ?_⟩
  · rw [hwin, hmem]
  · refine h.pushed_nodup.append ((sched.nodup_order _ List.nodup_range).filter _) ?_
    intro v hv hv'
    have h₁ := (h.pushed v hv).2
    have h₂ := (hmem v).mp hv'
    omega
  · rcases List.mem_append.mp hv with hv | hv
    · exact (h.pushed v hv).1
    · rw [(hmem v).mp hv]
      positivity
  · rw [(h.front_iff v).mp hv]
    positivity

/-- A phase that has advanced lowers the variant of the search. -/
theorem BfsInvariant.variant_lt (hg : g.WellFormed) (hroot : root < g.numVertices)
    {s s' : BfsState} {d d' : ℕ} (h : BfsInvariant g root s d) (h' : BfsInvariant g root s' d')
    (hlt : d < d') (hne : s.queue.empty = false)
    (hkept : ∀ v, 0 ≤ s.distances v → s'.distances v = s.distances v) :
    g.bfsVariant s' < g.bfsVariant s := by
  refine bfsVariant_lt hne hkept h'.settled fun v hv => ?_
  have hv' := (h'.mem_window v).mp hv
  have hpos : 0 ≤ s'.distances v := by rw [hv']; positivity
  refine ⟨Explored.lt hg hroot h'.explored hpos, ?_, hpos⟩
  -- a vertex visited before the phase is on a level before its last one
  by_contra hc
  obtain ⟨k, hk, -, hlt'⟩ := h.explored.sound v (by omega)
  rw [hkept v (by omega), hk] at hv'
  omega

/-- **The bottom-up branch** ends, and advances by at least one level. -/
theorem BfsInvariant.bottomUp (hg : g.WellFormed) (ht : g.Transposed)
    (hroot : root < g.numVertices) {beta : ℤ} (hbeta : 1 ≤ beta) {fuel : ℕ}
    (hfuel : g.numVertices + 1 < fuel) {s : BfsState} {d : ℕ} (h : BfsInvariant g root s d)
    (hne : s.queue.empty = false) :
    ∃ s' d', g.bottomUp sched beta fuel s = some s' ∧ BfsInvariant g root s' d' ∧
      g.bfsVariant s' < g.bfsVariant s := by
  obtain ⟨p₁, hbody, hp₁, hkept₁⟩ := h.startPhase sched hg ht hne
  obtain ⟨p₂, d', hloop, hp₂, hdd', -, hkept₂⟩ :=
    bottomUp_phase sched hg ht hroot hbeta hfuel hp₁
  have hkept : ∀ v, 0 ≤ s.distances v → p₂.state.distances v = s.distances v := by
    intro v hv
    rw [hkept₂ v (by rw [hkept₁ v hv]; exact hv), hkept₁ v hv]
  have hend := hp₂.endPhase sched hg hroot
  have hrun : g.bottomUp sched beta fuel s = some (g.endPhase sched p₂.state) := by
    rw [CSR.startPhase] at hbody
    simp only [CSR.bottomUp, doWhile, hbody, Option.bind_some, hloop, Option.bind_eq_bind,
      CSR.endPhase]
  exact ⟨_, d', hrun, hend, h.variant_lt hg hroot hend (by omega) hne hkept⟩

end Steps

/-! ## Correctness -/

theorem bfsInit_invariant (g : CSR W) (root : ℕ) : BfsInvariant g root (g.bfsInit root) 0 := by
  -- every other vertex holds the opposite of its degree, or -1
  have hneg : ∀ v, v ≠ root → (g.bfsInit root).distances v < 0 := by
    intro v hv
    simp only [bfsInit, doBfsInitDistances, Function.update_of_ne hv]
    split_ifs <;> omega
  have hzero : (g.bfsInit root).distances root = 0 := by simp [bfsInit]
  have hiff : ∀ v, 0 ≤ (g.bfsInit root).distances v ↔ v = root := by
    intro v
    refine ⟨fun hv => ?_, fun hv => by rw [hv, hzero]⟩
    by_contra hc
    exact absurd hv (not_le.mpr (hneg v hc))
  have hsettled : SlidingQueue.Settled (g.bfsInit root).queue :=
    ⟨rfl, by simp [bfsInit, SlidingQueue.slideWindow, SlidingQueue.pushBack, SlidingQueue.new]⟩
  refine ⟨rfl, ⟨fun v hv => ?_, fun v k hk hlt => ?_⟩, hsettled, fun v => ?_, ?_, fun v hv => ?_,
    fun v hv => ?_⟩
  · obtain rfl := (hiff v).mp hv
    exact ⟨0, by simpa using hzero, ⟨.zero, fun j _ => Nat.zero_le j⟩, by omega⟩
  · obtain rfl : k = 0 := by omega
    rw [hiff]
    exact hops_zero_iff.mp hk
  · have hwin : (g.bfsInit root).queue.window = [root] := rfl
    rw [hwin, List.mem_singleton]
    refine ⟨fun hv => by rw [hv, hzero]; rfl, fun hv => (hiff v).mp (by rw [hv]; exact le_refl _)⟩
  · simp [bfsInit, SlidingQueue.slideWindow, SlidingQueue.pushBack, SlidingQueue.new]
  · have : v = root := by
      simpa [bfsInit, SlidingQueue.slideWindow, SlidingQueue.pushBack, SlidingQueue.new] using hv
    rw [this, hzero]
  · simp [bfsInit, Bitmap.reset] at hv

/-- A vertex is pushed once. -/
theorem BfsInvariant.length_le {g : CSR W} (hg : g.WellFormed) {root : ℕ}
    (hroot : root < g.numVertices) {s : BfsState} {d : ℕ} (hs : BfsInvariant g root s d) :
    s.queue.shared.length ≤ g.numVertices := by
  have hsub : s.queue.shared ⊆ List.range g.numVertices := fun v hv =>
    List.mem_range.mpr (Explored.lt hg hroot hs.explored (hs.pushed v hv))
  simpa using (hs.pushed_nodup.subperm hsub).length_le

/-- The distances at the end of the search. -/
theorem BfsInvariant.correct {g : CSR W} (hg : g.WellFormed) {root : ℕ}
    (hroot : root < g.numVertices) {s : BfsState} {d : ℕ} (hs : BfsInvariant g root s d)
    (hempty : s.queue.empty = true) :
    (∀ v < g.numVertices, ∀ k : ℕ, s.distances v = k ↔ IsDist g.Arc root v k) ∧
      (∀ v < g.numVertices, (∀ k, ¬Hops g.Arc root k v) → s.distances v < 0) ∧
      s.queue.shared.length ≤ g.numVertices := by
  have hwin : s.queue.window = [] := hs.settled.empty_iff.mp hempty
  -- an empty window: no vertex is at the last level, and so all of them were found
  have hlevel : ∀ v, s.distances v ≠ d := by
    intro v hv
    have := (hs.mem_window v).mpr hv
    simp [hwin] at this
  refine ⟨fun v _ k => ⟨fun hk => ?_, fun hk => ?_⟩, fun v _ hnone => ?_, ?_⟩
  · obtain ⟨j, hj, hdist, -⟩ := hs.explored.sound v (by omega)
    have : j = k := by omega
    exact this ▸ hdist
  · obtain ⟨j, hj, hdist, -⟩ := hs.explored.sound v (hs.explored.complete_of_empty hlevel v k hk.1)
    have : j = k := le_antisymm (hdist.2 k hk.1) (hk.2 j hdist.1)
    rw [hj, this]
  · by_contra hc
    obtain ⟨j, -, hdist, -⟩ := hs.explored.sound v (by omega)
    exact hnone j hdist.1
  · exact hs.length_le hg hroot

/-- **Direction-optimizing BFS is correct.** For every schedule the search ends, the distance of
a vertex is the least number of edges from the root, or negative when there is no path, and no
more elements enter the queue than there are vertices. -/
theorem doBfs_correct {g : CSR W} (hg : g.WellFormed) (ht : g.Transposed) (sched : Schedule ℕ)
    {root : ℕ} (hroot : root < g.numVertices) {alpha beta : ℤ} (_halpha : 1 ≤ alpha)
    (hbeta : 1 ≤ beta) {fuel : ℕ} (hfuel : g.numVertices + 1 < fuel) :
    ∃ s, g.doBfs sched root alpha beta fuel = some s ∧
      (∀ v < g.numVertices, ∀ k : ℕ, s.distances v = k ↔ IsDist g.Arc root v k) ∧
      (∀ v < g.numVertices, (∀ k, ¬Hops g.Arc root k v) → s.distances v < 0) ∧
      s.queue.shared.length ≤ g.numVertices := by
  have hstep : ∀ s, (∃ d, BfsInvariant g root s d) → (!s.queue.empty) = true →
      ∃ s', g.bfsIteration sched alpha beta fuel s = some s' ∧ (∃ d, BfsInvariant g root s' d) ∧
        g.bfsVariant s' < g.bfsVariant s := by
    rintro s ⟨d, hs⟩ hc
    have hne : s.queue.empty = false := by simpa using hc
    unfold bfsIteration
    split_ifs
    · obtain ⟨s', d', hrun, hs', hlt⟩ := hs.bottomUp sched hg ht hroot hbeta hfuel hne
      exact ⟨s', hrun, ⟨d', hs'⟩, hlt⟩
    · obtain ⟨hs', hlt⟩ := hs.topDown sched hg hroot hne
      exact ⟨_, rfl, ⟨d + 1, hs'⟩, hlt⟩
  have hvar : g.bfsVariant (g.bfsInit root) < fuel := by
    have := g.unvisited_le_numVertices (g.bfsInit root).distances
    simp only [bfsVariant]
    split_ifs <;> omega
  obtain ⟨s, hrun, ⟨d, hs⟩, hempty⟩ := whileLoop_total (fun s => ∃ d, BfsInvariant g root s d)
    g.bfsVariant hstep fuel (g.bfsInit root) ⟨0, bfsInit_invariant g root⟩ hvar
  exact ⟨s, hrun, hs.correct hg hroot (by simpa using hempty)⟩

theorem doBfs_path :
    ∃ s, (path (1 : ℕ)).doBfs Schedule.sequential 0 15 18 5 = some s ∧
      (∀ v < 3, ∀ k : ℕ, s.distances v = k ↔ IsDist (path (1 : ℕ)).Arc 0 v k) ∧
      (∀ v < 3, (∀ k, ¬Hops (path (1 : ℕ)).Arc 0 k v) → s.distances v < 0) ∧
      s.queue.shared.length ≤ 3 :=
  doBfs_correct (path_wellFormed 1) (path_transposed 1) Schedule.sequential (by decide)
    (by decide) (by decide) (by decide)

end CSR

end GfeDriver
