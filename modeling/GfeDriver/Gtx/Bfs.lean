import GfeDriver.Baseline.CsrBfs

/-!
# Breadth-first search on a snapshot of GTX

The search of the GTX driver is the direction-optimizing one of the compressed sparse row library,
on the identifiers that GTX has handed out, from `1` to `max_vertex_id`. Some of them belong to no
vertex. The arrays, the bitmaps and the queue have `max_vertex_id` elements, and the element of an
identifier `u` is at the position `u - 1`. An access outside of them fails here.

The distance of an identifier without a vertex is `INT64_MAX`. The results are translated to the
external identifiers, which are the payloads of the vertices. The pair of an identifier without a
vertex gets the external identifier `2 ^ 64 - 1`, and pairs with it are not saved.

The array of the distances is not initialised when it is allocated. The parallel loops are as in the
other library.

## Main definitions

* `Snapshot`, `Snapshot.WellFormed`: what the search reads of GTX
* `doBfsTDStep`, `doBfsBUStep`, `doBfs`: the search
* `translate`, `saveResults`, `bfs`: the lines of the results
* `Outputs`: the lines give the hop distances of a list of vertices
-/

namespace GfeDriver

namespace Gtx

open Foundation
open CSR (TDState BUState BfsState BUPhase)

/-- `numeric_limits<int64_t>::max()`. -/
def int64Max : ℤ := 2 ^ 63 - 1

/-- `numeric_limits<uint64_t>::max()`. -/
def uint64Max : ℕ := 2 ^ 64 - 1

/-- A snapshot: the payload of the vertices, what the edge iterator yields for each of them, and
`get_vertex_degree`. -/
structure Snapshot where
  maxVertexId : ℕ
  vertex : ℕ → Option ℕ
  edges : ℕ → List ℕ
  degree : ℕ → ℕ

namespace Snapshot

variable (t : Snapshot)

/-- The identifiers from `1` to `max_vertex_id`. -/
def ids : List ℕ := List.range' 1 t.maxVertexId

/-- The position of an identifier in an array. -/
def index (u : ℕ) : Option ℕ := if 1 ≤ u ∧ u ≤ t.maxVertexId then some (u - 1) else none

/-- `push_back`, on a queue of `max_vertex_id` elements. -/
def pushBack (queue : SlidingQueue) (u : ℕ) : Option SlidingQueue :=
  if queue.shared.length < t.maxVertexId then some (queue.pushBack u) else none

/-! ## The steps of the search -/

/-- An iteration of `do_bfs_init_distances_init_edge_num`, which also adds up the degrees. -/
def initVertex (s : (ℕ → ℤ) × ℕ) (n : ℕ) : Option ((ℕ → ℤ) × ℕ) := do
  let i ← t.index n
  if (t.vertex n).isNone then some (Function.update s.1 i int64Max, s.2)
  else
    let outDegree : ℤ := t.degree n
    some (Function.update s.1 i (if outDegree ≠ 0 then -outDegree else -1), s.2 + t.degree n)

/-- `do_bfs_init_distances_init_edge_num`: the distances and `edge_num`. -/
def doBfsInitDistancesInitEdgeNum (memory : ℕ → ℤ) : Option ((ℕ → ℤ) × ℤ) := do
  let s ← t.ids.foldlM t.initVertex (memory, 0)
  some (s.1, (s.2 / 2 : ℕ))

/-- The body of the inner loop of `do_bfs_TDStep`, for an edge to `dst`. -/
def visit (distance : ℤ) (s : TDState) (dst : ℕ) : Option TDState := do
  let i ← t.index dst
  let currVal := s.distances i
  if currVal < 0 then
    let queue ← t.pushBack s.queue dst
    some ⟨Function.update s.distances i distance, queue, s.scoutCount + -currVal⟩
  else some s

/-- `do_bfs_TDStep`, for the vertices of the window in the order `order`. -/
def doBfsTDStep (order : List ℕ) (distances : ℕ → ℤ) (distance : ℤ) (queue : SlidingQueue) :
    Option TDState :=
  order.foldlM (fun s u => (t.edges u).foldlM (t.visit distance) s) ⟨distances, queue, 0⟩

/-- The `while` loop of `do_bfs_BUStep`: is there an edge to the front? -/
def touchesFront (front : Bitmap) : List ℕ → Option Bool
  | [] => some false
  | dst :: dsts => do
    let i ← t.index dst
    if front i then some true else touchesFront front dsts

/-- The body of the `for` loop of `do_bfs_BUStep`. -/
def awaken (distance : ℤ) (front : Bitmap) (s : BUState) (u : ℕ) : Option BUState := do
  let i ← t.index u
  if s.distances i = int64Max then some s
  else if s.distances i < 0 then
    let touches ← t.touchesFront front (t.edges u)
    if touches then
      some ⟨Function.update s.distances i distance, s.next.setBit i, s.awakeCount + 1⟩
    else some s
  else some s

/-- `do_bfs_BUStep`, for the identifiers in the order `order`. -/
def doBfsBUStep (order : List ℕ) (distances : ℕ → ℤ) (distance : ℤ) (front : Bitmap) :
    Option BUState :=
  order.foldlM (t.awaken distance front) ⟨distances, Bitmap.reset, 0⟩

/-- `do_bfs_QueueToBitmap`. -/
def doBfsQueueToBitmap (queue : SlidingQueue) (bm : Bitmap) : Option Bitmap :=
  queue.window.foldlM (fun bm u => (t.index u).map bm.setBit) bm

/-- The body of the loop of `do_bfs_BitmapToQueue`. -/
def pushBit (bm : Bitmap) (queue : SlidingQueue) (n : ℕ) : Option SlidingQueue := do
  let i ← t.index n
  if bm i then t.pushBack queue n else some queue

/-- `do_bfs_BitmapToQueue`, for the identifiers in the order `order`. -/
def doBfsBitmapToQueue (order : List ℕ) (bm : Bitmap) (queue : SlidingQueue) :
    Option SlidingQueue :=
  (order.foldlM (t.pushBit bm) queue).map SlidingQueue.slideWindow

/-! ## The search -/

/-- The body of the `do`-`while` loop of `do_bfs`. -/
def bottomUpBody (sched : Schedule ℕ) (p : BUPhase) : Option BUPhase := do
  let s := p.state
  let r ← t.doBfsBUStep (sched.order s.ticks t.ids) s.distances s.distance s.front
  some ⟨{ s with distances := r.distances, front := r.next, curr := s.front,
                 distance := s.distance + 1, ticks := s.ticks + 1 }, r.awakeCount, p.awakeCount⟩

/-- The condition of the `do`-`while` loop of `do_bfs`. -/
def bottomUpCond (numVertices : ℕ) (beta : ℤ) (p : BUPhase) : Bool :=
  decide (p.awakeCount ≥ p.oldAwakeCount) || decide (p.awakeCount > (numVertices : ℤ).tdiv beta)

/-- The branch of `do_bfs` that runs bottom-up steps. -/
def bottomUp (sched : Schedule ℕ) (numVertices : ℕ) (beta : ℤ) (fuel : ℕ) (s : BfsState) :
    Option BfsState := do
  let front ← t.doBfsQueueToBitmap s.queue s.front
  let p ← doWhile (bottomUpCond numVertices beta) (t.bottomUpBody sched) fuel
    ⟨{ s with front := front, queue := s.queue.slideWindow }, s.queue.size, 0⟩
  let s := p.state
  let queue ← t.doBfsBitmapToQueue (sched.order s.ticks t.ids) s.front s.queue
  some { s with queue := queue, scoutCount := 1, ticks := s.ticks + 1 }

/-- The branch of `do_bfs` that runs one top-down step. -/
def topDown (sched : Schedule ℕ) (s : BfsState) : Option BfsState := do
  let r ← t.doBfsTDStep (sched.order s.ticks s.queue.window) s.distances s.distance s.queue
  some { s with distances := r.distances, queue := r.queue.slideWindow,
                scoutCount := r.scoutCount, edgesToCheck := s.edgesToCheck - s.scoutCount,
                distance := s.distance + 1, ticks := s.ticks + 1 }

/-- The body of the `while` loop of `do_bfs`. -/
def bfsIteration (sched : Schedule ℕ) (numVertices : ℕ) (alpha beta : ℤ) (fuel : ℕ)
    (s : BfsState) : Option BfsState :=
  if s.scoutCount > s.edgesToCheck.tdiv alpha then t.bottomUp sched numVertices beta fuel s
  else t.topDown sched s

/-- The variables of `do_bfs` before its loop. -/
def bfsInit (memory : ℕ → ℤ) (root : ℕ) : Option BfsState := do
  let init ← t.doBfsInitDistancesInitEdgeNum memory
  let i ← t.index root
  let queue ← t.pushBack SlidingQueue.new root
  some
    { distances := Function.update init.1 i 0
      queue := queue.slideWindow
      front := Bitmap.reset
      curr := Bitmap.reset
      edgesToCheck := init.2
      scoutCount := t.degree root
      distance := 1
      ticks := 0 }

/-- `do_bfs`, when no timeout fires. -/
def doBfs (sched : Schedule ℕ) (memory : ℕ → ℤ) (numVertices root : ℕ) (alpha beta : ℤ)
    (fuel : ℕ) : Option BfsState := do
  let s ← t.bfsInit memory root
  whileLoop (fun s => !s.queue.empty) (t.bfsIteration sched numVertices alpha beta fuel) fuel s

/-! ## The results -/

/-- The body of the loop of `translate`. -/
def translateVertex (data : ℕ → ℤ) (logicalId : ℕ) : Option (ℕ × ℤ) :=
  match t.vertex logicalId with
  | none => some (uint64Max, int64Max)
  | some payload => (t.index logicalId).map fun i => (payload, data i)

/-- `translate`, on an array of `max_vertex_id` elements. -/
def translate (data : ℕ → ℤ) : Option (List (ℕ × ℤ)) := t.ids.mapM (t.translateVertex data)

/-- The line of a pair in `save_results`, unless it is skipped. Negative scores are replaced. -/
def saveLine (p : ℕ × ℤ) : Option (ℕ × ℤ) :=
  if p.1 = uint64Max then none else some (p.1, if p.2 < 0 then int64Max else p.2)

/-- `save_results`: the external identifiers and the numbers in the lines of the file. -/
def saveResults (result : List (ℕ × ℤ)) : List (ℕ × ℤ) := result.filterMap saveLine

/-- `bfs`, from the identifier of the source on. -/
def bfs (sched : Schedule ℕ) (memory : ℕ → ℤ) (numVertices root : ℕ) (alpha beta : ℤ)
    (fuel : ℕ) : Option (List (ℕ × ℤ)) := do
  let s ← t.doBfs sched memory numVertices root alpha beta fuel
  let externalIds ← t.translate s.distances
  some (saveResults externalIds)

/-! ## What the results should be -/

/-- An undirected snapshot: the vertices have identifiers up to `max_vertex_id`, and the edges are
between them. -/
structure WellFormed : Prop where
  vertex_range : ∀ u, (t.vertex u).isSome → 1 ≤ u ∧ u ≤ t.maxVertexId
  ends : ∀ u v, v ∈ t.edges u → (t.vertex u).isSome ∧ (t.vertex v).isSome
  symm : ∀ u v, v ∈ t.edges u → u ∈ t.edges v
  nodup : ∀ u, (t.edges u).Nodup
  degree : ∀ u, t.degree u = (t.edges u).length

def Arc (u v : ℕ) : Prop := v ∈ t.edges u

/-- The identifiers of the vertices. -/
def existing : List ℕ := t.ids.filter fun u => (t.vertex u).isSome

/-- The identifiers of the vertices whose payload is not the one that marks a missing vertex. -/
def listed : List ℕ := t.existing.filter fun u => t.vertex u ≠ some uint64Max

/-- The hop distance of a vertex, or `INT64_MAX` when there is no path to it. -/
def HopValue (root u : ℕ) (x : ℤ) : Prop :=
  (∀ k : ℕ, IsDist t.Arc root u k → x = k) ∧ ((∀ k, ¬Hops t.Arc root k u) → x = int64Max)

/-- **The lines of a list of vertices**, one for each of them. -/
def Outputs (root : ℕ) (vertices : List ℕ) (lines : List (ℕ × ℤ)) : Prop :=
  List.Forall₂ (fun u line => t.vertex u = some line.1 ∧ t.HopValue root u line.2) vertices lines

end Snapshot

end Gtx

end GfeDriver
