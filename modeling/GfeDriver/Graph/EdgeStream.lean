import Mathlib.Data.Prod.Lex
import GfeDriver.Foundation.Loop
import GfeDriver.Foundation.Schedule
import GfeDriver.Graph.CByteArray
import GfeDriver.Graph.Edge

/-!
# Edge streams

A `WeightedEdgeStream` keeps its edges in three arrays: the packed sources, the packed destinations
and the weights. Reordering it computes a permutation of the positions and rewrites the three arrays
through it, into packed arrays whose width is recomputed from the largest identifier, by tasks that
run in parallel. `common::permute` and `common::sort` are not part of the repository: they are
functions that rearrange an array of positions, as `Common` says.

The tasks write disjoint positions, so a run of all of them is a rearrangement of their writes, and
every statement below is about all the rearrangements.

## Main definitions

* `WeightedEdgeStream`: the three arrays
* `WeightedEdgeStream.ofVector`, `ofReader`: the constructors
* `WeightedEdgeStream.doPermuteEdges`, `step`, `run`: the operations that reorder a stream
* `WeightedEdgeStream.vertexList`: the list of the vertices
* `Valid`: the class invariant

## Main results

* `valid_ofVector`, `valid_ofReader`: the constructors establish the invariant
* `doPermuteEdges_spec`: the edges after a permutation of the positions
* `reorder_preserves`: reordering loses nothing
* `packedIds_iff`: when the packed arrays hold all the identifiers
-/

namespace GfeDriver

open Foundation

/-! ## The environment -/

/-- `common::permute` and `common::sort`, with what they promise. -/
structure Common where
  permute : ℕ → List ℕ → List ℕ
  sort : (ℕ → ℕ → Bool) → List ℕ → List ℕ
  permute_perm : ∀ seed l, (permute seed l).Perm l
  sort_perm : ∀ lt l, IsStrictWeakOrder ℕ (fun i j => lt i j = true) → (sort lt l).Perm l
  sort_sorted : ∀ lt l, IsStrictWeakOrder ℕ (fun i j => lt i j = true) →
    (sort lt l).Pairwise fun i j => lt j i = false

/-- What is not below stays so along a strict weak order. -/
theorem not_lt_trans_of_strictWeak {lt : ℕ → ℕ → Bool}
    (h : IsStrictWeakOrder ℕ fun i j => lt i j = true) {i j k : ℕ} (hij : ¬lt j i = true)
    (hjk : ¬lt k j = true) : ¬lt k i = true := by
  intro hki
  have hij' : ¬lt i j = true := fun hc => hjk (h.trans _ _ _ hki hc)
  have hjk' : ¬lt j k = true := fun hc => hij (h.trans _ _ _ hc hki)
  exact (h.incomp_trans i j k ⟨hij', hij⟩ ⟨hjk', hjk⟩).2 hki

/-- The promises are kept by the program order and by merge sort. -/
def Common.mergeSort : Common where
  permute _ l := l
  sort lt l := l.mergeSort fun i j => !lt j i
  permute_perm _ l := List.Perm.refl l
  sort_perm _ l _ := List.mergeSort_perm l _
  sort_sorted lt l h := by
    have htotal : ∀ i j, (!lt j i || !lt i j) = true := by
      intro i j
      cases hij : lt i j with
      | false => simp
      | true =>
        have hji : ¬lt j i = true := fun hc => h.irrefl i (h.trans _ _ _ hij hc)
        simpa using hji
    refine (List.pairwise_mergeSort (fun i j k hij hjk => ?_) htotal l).imp fun hij => ?_
    · simp only [Bool.not_eq_true'] at hij hjk ⊢
      simpa using not_lt_trans_of_strictWeak h (by simpa using hij) (by simpa using hjk)
    · simpa using hij

/-- One assignment of the loop body of a task of `do_permute_edges`. -/
inductive Write where
  | source (i : ℕ)
  | destination (i : ℕ)
  | weight (i : ℕ)
  deriving DecidableEq, Repr

/-- The position that a write assigns. -/
def Write.index : Write → ℕ
  | .source i => i
  | .destination i => i
  | .weight i => i

/-- What the program does not choose: the number of hardware threads, the bytes of fresh memory, the
order of the writes of parallel tasks and the iteration order of a hash table. -/
structure Machine where
  hardwareConcurrency : ℕ
  memory : ℕ → UInt8
  schedule : Schedule Write
  hashOrder : Schedule ℕ

/-- One hardware thread, cleared memory, and the program order. -/
def Machine.single : Machine := ⟨1, fun _ => 0, Schedule.sequential, Schedule.sequential⟩

/-! ## The class -/

/-- `WeightedEdgeStream`, without the largest weight. -/
structure WeightedEdgeStream (W : Type) where
  sources : CByteArray
  destinations : CByteArray
  weights : List W
  numEdges : ℕ
  maxVertexId : ℕ

/-- `VertexList`. -/
structure VertexList where
  vertices : CByteArray

namespace VertexList

def numVertices (l : VertexList) : ℕ := l.vertices.capacity

/-- `VertexList::get`. -/
def get (l : VertexList) (index : ℕ) : Except Failure ℕ :=
  if index ≥ l.numVertices then
    .error (.invalidArgument ("The given index is out of bounds: " ++ toString index ++ " >= " ++
      toString l.numVertices))
  else .ok (l.vertices.getValueAt index)

/-- The vertices, in order. -/
def toList (l : VertexList) : List ℕ := (List.range l.numVertices).map l.vertices.getValueAt

end VertexList

namespace WeightedEdgeStream

variable {W : Type}

/-- The edge at a position. -/
def edge [Zero W] (s : WeightedEdgeStream W) (i : ℕ) : WeightedEdge W :=
  ⟨s.sources.getValueAt i, s.destinations.getValueAt i, s.weights.getD i 0⟩

/-- `WeightedEdgeStream::get`. -/
def get [Zero W] (s : WeightedEdgeStream W) (index : ℕ) : Except Failure (WeightedEdge W) :=
  if index ≥ s.numEdges then
    .error (.invalidArgument ("Index out of bound: " ++ toString index ++ " >= " ++
      toString s.numEdges))
  else .ok (s.edge index)

/-- The edges, in order. -/
def edges [Zero W] (s : WeightedEdgeStream W) : List (WeightedEdge W) :=
  (List.range s.numEdges).map s.edge

/-! ### Constructors -/

/-- Store an edge at the position `i`. -/
def store (s : WeightedEdgeStream W) (i : ℕ) (e : WeightedEdge W) : WeightedEdgeStream W :=
  { s with
    sources := s.sources.setValueAt i e.source
    destinations := s.destinations.setValueAt i e.destination
    weights := s.weights ++ [e.weight]
    maxVertexId := max s.maxVertexId (max e.source e.destination) }

/-- The state of a constructor before its loop: the arrays have elements of 8 bytes. -/
def blank (memory : ℕ → UInt8) (capacity numEdges : ℕ) : WeightedEdgeStream W where
  sources := CByteArray.allocate memory 8 capacity (by decide)
  destinations := CByteArray.allocate memory 8 capacity (by decide)
  weights := []
  numEdges := numEdges
  maxVertexId := 0

/-- `WeightedEdgeStream(const vector<WeightedEdge>&)`. -/
def ofVector (memory : ℕ → UInt8) (vector : List (WeightedEdge W)) : WeightedEdgeStream W :=
  (vector.foldl (fun (acc : WeightedEdgeStream W × ℕ) e => (acc.1.store acc.2 e, acc.2 + 1))
    (blank memory vector.length vector.length, 0)).1

/-- The copy of an array into one with another capacity. -/
def copyInto (memory : ℕ → UInt8) (capacity : ℕ) (old : CByteArray) (oldCapacity : ℕ) :
    CByteArray :=
  (List.range oldCapacity).foldl (fun new i => new.setValueAt i (old.getValueAt i))
    (CByteArray.allocate memory 8 capacity (by decide))

/-- Double the capacity of the arrays when they are full. -/
def grow (memory : ℕ → UInt8) (s : WeightedEdgeStream W) : WeightedEdgeStream W :=
  if s.numEdges ≥ s.sources.capacity then
    let oldCapacity := s.sources.capacity
    { s with
      sources := copyInto memory (oldCapacity * 2) s.sources oldCapacity
      destinations := copyInto memory (oldCapacity * 2) s.destinations oldCapacity }
  else s

/-- An iteration of the loop of the constructor from a file. -/
def readEdge (memory : ℕ → UInt8) (s : WeightedEdgeStream W) (e : WeightedEdge W) :
    WeightedEdgeStream W :=
  let s := s.grow memory
  { s.store s.numEdges e with numEdges := s.numEdges + 1 }

/-- `WeightedEdgeStream(const string&)`, for the edges that the reader yields. -/
def ofReader (memory : ℕ → UInt8) (read : List (WeightedEdge W)) : WeightedEdgeStream W :=
  read.foldl (readEdge memory) (blank memory 8 0)

/-! ### Reordering -/

section Reordering

variable [Zero W]

/-- The arrays `new_sources`, `new_destinations` and `new_weights`. -/
structure Arrays (W : Type) where
  sources : CByteArray
  destinations : CByteArray
  weights : List W

/-- One assignment of the body of the loop of a task. -/
def write (s : WeightedEdgeStream W) (permutation : List ℕ) (r : Arrays W) : Write → Arrays W
  | .source i =>
    { r with sources := r.sources.setValueAt i (s.sources.getValueAt (permutation.getD i 0)) }
  | .destination i =>
    { r with
      destinations :=
        r.destinations.setValueAt i (s.destinations.getValueAt (permutation.getD i 0)) }
  | .weight i => { r with weights := r.weights.set i (s.weights.getD (permutation.getD i 0) 0) }

/-- The writes of the task from `start`. -/
def taskWrites (start length : ℕ) : List Write :=
  (List.range' start length).flatMap fun i => [.source i, .destination i, .weight i]

/-- The number of tasks. The product is one of 32-bit unsigned integers. -/
def numTasks (machine : Machine) (numEdges : ℕ) : ℕ :=
  min numEdges (max 4 (machine.hardwareConcurrency * 8 % 2 ^ 32))

/-- `WeightedEdgeStream::do_permute_edges`, as the `t`-th parallel loop of a run. -/
def doPermuteEdges (machine : Machine) (t : ℕ) (s : WeightedEdgeStream W) (permutation : List ℕ) :
    Except Failure (WeightedEdgeStream W) := do
  let bytesPerVertexId ← CByteArray.computeBytesPerElements s.maxVertexId
  let newSources ← CByteArray.new machine.memory bytesPerVertexId s.numEdges
  let newDestinations ← CByteArray.new machine.memory bytesPerVertexId s.numEdges
  let newWeights := List.replicate s.numEdges 0
  let tasks := taskRanges s.numEdges (numTasks machine s.numEdges)
  let writes := tasks.flatMap fun task => taskWrites task.1 task.2
  let r := (machine.schedule.order t writes).foldl (s.write permutation)
    ⟨newSources, newDestinations, newWeights⟩
  return { s with sources := r.sources, destinations := r.destinations, weights := r.weights }

/-- The comparator of `sort_by_src_dst`. -/
def lessSrcDst (s : WeightedEdgeStream W) (i j : ℕ) : Bool :=
  let sourceI := s.sources.getValueAt i
  let sourceJ := s.sources.getValueAt j
  if sourceI < sourceJ then true
  else if sourceI = sourceJ then
    let destI := s.destinations.getValueAt i
    let destJ := s.destinations.getValueAt j
    destI < destJ
  else false

/-- The comparator of `sort_by_dst_src`. -/
def lessDstSrc (s : WeightedEdgeStream W) (i j : ℕ) : Bool :=
  s.destinations.getValueAt i < s.destinations.getValueAt j ||
    (s.destinations.getValueAt i = s.destinations.getValueAt j &&
      s.sources.getValueAt i < s.sources.getValueAt j)

/-- The operations that reorder a stream. -/
inductive Operation where
  | permute (seed : ℕ)
  | sortBySrcDst
  | sortByDstSrc
  deriving DecidableEq, Repr

/-- The permutation of the positions that an operation computes. -/
def permutation (lib : Common) (s : WeightedEdgeStream W) : Operation → List ℕ
  | .permute seed => lib.permute seed (List.range s.numEdges)
  | .sortBySrcDst => lib.sort s.lessSrcDst (List.range s.numEdges)
  | .sortByDstSrc => lib.sort s.lessDstSrc (List.range s.numEdges)

/-- `permute`, `sort_by_src_dst` and `sort_by_dst_src`. -/
def step (lib : Common) (machine : Machine) (t : ℕ) (s : WeightedEdgeStream W) (op : Operation) :
    Except Failure (WeightedEdgeStream W) :=
  if s.numEdges ≤ 0 then .ok s else s.doPermuteEdges machine t (s.permutation lib op)

/-- A sequence of operations. -/
def run (lib : Common) (machine : Machine) (t : ℕ) (s : WeightedEdgeStream W) :
    List Operation → Except Failure (WeightedEdgeStream W)
  | [] => .ok s
  | op :: ops => (s.step lib machine t op).bind fun s' => s'.run lib machine (t + 1) ops

end Reordering

/-! ### Vertices -/

/-- The keys of `unique_vertices`. -/
def uniqueVertices (s : WeightedEdgeStream W) : List ℕ :=
  (List.range s.numEdges).foldl (fun keys i =>
    (keys.insert (s.sources.getValueAt i)).insert (s.destinations.getValueAt i)) []

/-- The loop that stores the vertices, one at each position. -/
def storeAll (vertices : CByteArray) (l : List ℕ) : CByteArray :=
  (l.foldl (fun (acc : CByteArray × ℕ) v => (acc.1.setValueAt acc.2 v, acc.2 + 1)) (vertices, 0)).1

/-- `WeightedEdgeStream::vertex_list`. -/
def vertexList (machine : Machine) (t : ℕ) (s : WeightedEdgeStream W) :
    Except Failure VertexList := do
  let uniqueVertices := machine.hashOrder.order t s.uniqueVertices
  let bytes ← CByteArray.computeBytesPerElements s.maxVertexId
  let vertices ← CByteArray.new machine.memory bytes uniqueVertices.length
  return ⟨storeAll vertices uniqueVertices⟩

/-! ## The class invariant -/

/-- **The class invariant.** -/
structure Valid (s : WeightedEdgeStream W) : Prop where
  room_sources : s.numEdges ≤ s.sources.capacity
  room_destinations : s.numEdges ≤ s.destinations.capacity
  length_weights : s.weights.length = s.numEdges
  sources_le : ∀ i < s.numEdges, s.sources.getValueAt i ≤ s.maxVertexId
  destinations_le : ∀ i < s.numEdges, s.destinations.getValueAt i ≤ s.maxVertexId
  max_lt : s.maxVertexId < 2 ^ 64

/-! ## Constructors -/

section Constructors

/-- The largest identifier of a list of edges. -/
def maxId (l : List (WeightedEdge W)) : ℕ :=
  l.foldl (fun m e => max m (max e.source e.destination)) 0

/-- The first positions of the arrays hold the edges `done`. -/
structure Holds (s : WeightedEdgeStream W) (done : List (WeightedEdge W)) : Prop where
  entries : ∀ i e, done[i]? = some e →
    s.sources.getValueAt i = e.source ∧ s.destinations.getValueAt i = e.destination
  weights : s.weights = done.map WeightedEdge.weight
  max : s.maxVertexId = maxId done
  bytes_sources : s.sources.bytesPerElement = 8
  bytes_destinations : s.destinations.bytesPerElement = 8

variable {s : WeightedEdgeStream W} {done : List (WeightedEdge W)}

theorem le_maxId {l : List (WeightedEdge W)} {e : WeightedEdge W} (he : e ∈ l) :
    e.source ≤ maxId l ∧ e.destination ≤ maxId l := by
  induction l using List.reverseRecOn with
  | nil => simp at he
  | append_singleton l x ih =>
    have hlast : maxId (l ++ [x]) = max (maxId l) (max x.source x.destination) := by
      simp [maxId, List.foldl_append]
    rw [hlast]
    rcases List.mem_append.mp he with he | he
    · obtain ⟨h₁, h₂⟩ := ih he
      exact ⟨h₁.trans (le_max_left _ _), h₂.trans (le_max_left _ _)⟩
    · obtain rfl := List.mem_singleton.mp he
      exact ⟨(le_max_left _ _).trans (le_max_right _ _),
        (le_max_right _ _).trans (le_max_right _ _)⟩

theorem maxId_lt {l : List (WeightedEdge W)}
    (hids : ∀ e ∈ l, e.source < 2 ^ 64 ∧ e.destination < 2 ^ 64) : maxId l < 2 ^ 64 := by
  induction l using List.reverseRecOn with
  | nil => simp [maxId]
  | append_singleton l x ih =>
    have hlast : maxId (l ++ [x]) = max (maxId l) (max x.source x.destination) := by
      simp [maxId, List.foldl_append]
    obtain ⟨h₁, h₂⟩ := hids x (by simp)
    rw [hlast]
    exact max_lt (ih fun e he => hids e (by simp [he])) (max_lt h₁ h₂)

/-- Storing the next edge. -/
theorem Holds.store (h : Holds s done) {e : WeightedEdge W}
    (hsrc : done.length < s.sources.capacity)
    (hdst : done.length < s.destinations.capacity)
    (hid : e.source < 2 ^ 64 ∧ e.destination < 2 ^ 64) :
    Holds (s.store done.length e) (done ++ [e]) := by
  have hwidth : (2 : ℕ) ^ 64 = 256 ^ 8 := by norm_num
  rw [hwidth] at hid
  refine ⟨fun i x hx => ?_, by simp [WeightedEdgeStream.store, h.weights], ?_, h.bytes_sources,
    h.bytes_destinations⟩
  · simp only [WeightedEdgeStream.store]
    rw [CByteArray.getValueAt_setValueAt _ hsrc, CByteArray.getValueAt_setValueAt _ hdst,
      h.bytes_sources, h.bytes_destinations, Nat.mod_eq_of_lt hid.1, Nat.mod_eq_of_lt hid.2]
    rcases Nat.lt_trichotomy i done.length with hlt | rfl | hgt
    · rw [List.getElem?_append_left hlt] at hx
      rw [if_neg hlt.ne, if_neg hlt.ne]
      exact h.entries i x hx
    · rw [List.getElem?_concat_length, Option.some.injEq] at hx
      rw [if_pos rfl, if_pos rfl, hx]
      exact ⟨rfl, rfl⟩
    · rw [List.getElem?_eq_none (by simpa using hgt)] at hx
      cases hx
  · simp [WeightedEdgeStream.store, h.max, maxId, List.foldl_append]

/-- The arrays hold all the edges: the stream is valid. -/
theorem Holds.valid [Zero W] {l : List (WeightedEdge W)} (h : Holds s l)
    (hn : s.numEdges = l.length)
    (hsrc : l.length ≤ s.sources.capacity) (hdst : l.length ≤ s.destinations.capacity)
    (hids : ∀ e ∈ l, e.source < 2 ^ 64 ∧ e.destination < 2 ^ 64) : s.Valid ∧ s.edges = l := by
  have hentry : ∀ i (hi : i < l.length), s.sources.getValueAt i = l[i].source ∧
      s.destinations.getValueAt i = l[i].destination := fun i hi =>
    h.entries i _ (List.getElem?_eq_getElem hi)
  have hle : ∀ i (hi : i < l.length), l[i].source ≤ maxId l ∧ l[i].destination ≤ maxId l :=
    fun i hi => le_maxId (List.getElem_mem hi)
  refine ⟨⟨hn ▸ hsrc, hn ▸ hdst, by simp [h.weights, hn], fun i hi => ?_, fun i hi => ?_, ?_⟩, ?_⟩
  · rw [(hentry i (hn ▸ hi)).1, h.max]
    exact (hle i (hn ▸ hi)).1
  · rw [(hentry i (hn ▸ hi)).2, h.max]
    exact (hle i (hn ▸ hi)).2
  · rw [h.max]
    exact maxId_lt hids
  · apply List.ext_getElem
    · simp [edges, hn]
    · intro i hi hi'
      simp [edges, edge, hentry i hi', h.weights, hi']

/-- **The constructor from a vector.** -/
theorem valid_ofVector [Zero W] (memory : ℕ → UInt8) (vector : List (WeightedEdge W))
    (hids : ∀ e ∈ vector, e.source < 2 ^ 64 ∧ e.destination < 2 ^ 64) :
    (ofVector memory vector).Valid ∧ (ofVector memory vector).edges = vector ∧
      (ofVector memory vector).maxVertexId = maxId vector := by
  let P : List (WeightedEdge W) → WeightedEdgeStream W × ℕ → Prop := fun done acc =>
    Holds acc.1 done ∧ acc.2 = done.length ∧ acc.1.numEdges = vector.length ∧
      acc.1.sources.capacity = vector.length ∧ acc.1.destinations.capacity = vector.length
  have hend : P vector (vector.foldl (fun (acc : WeightedEdgeStream W × ℕ) e =>
      (acc.1.store acc.2 e, acc.2 + 1)) (blank memory vector.length vector.length, 0)) := by
    apply foldl_prefix P
    · exact ⟨⟨by simp, rfl, rfl, rfl, rfl⟩, rfl, rfl, rfl, rfl⟩
    · rintro done e rest ⟨r, i⟩ heq ⟨hr, hi, hn, hsrc, hdst⟩
      simp only at hr hi hn hsrc hdst
      subst hi
      have hlen : done.length < vector.length := by simp [heq]
      refine ⟨hr.store (hsrc ▸ hlen) (hdst ▸ hlen) (hids e (by simp [heq])), by simp, hn, hsrc,
        hdst⟩
  obtain ⟨hholds, -, hn, hsrc, hdst⟩ := hend
  obtain ⟨hvalid, hedges⟩ := hholds.valid hn hsrc.ge hdst.ge hids
  exact ⟨hvalid, hedges, hholds.max⟩

/-- A copy holds the values of the array. -/
theorem getValueAt_copyInto (memory : ℕ → UInt8) {old : CByteArray}
    (hbytes : old.bytesPerElement = 8) {capacity oldCapacity : ℕ} (hle : oldCapacity ≤ capacity) :
    (copyInto memory capacity old oldCapacity).capacity = capacity ∧
      (copyInto memory capacity old oldCapacity).bytesPerElement = 8 ∧
      ∀ i < oldCapacity, (copyInto memory capacity old oldCapacity).getValueAt i =
        old.getValueAt i := by
  let P : List ℕ → CByteArray → Prop := fun done new =>
    new.capacity = capacity ∧ new.bytesPerElement = 8 ∧
      ∀ i ∈ done, new.getValueAt i = old.getValueAt i
  have hend : P (List.range oldCapacity) (copyInto memory capacity old oldCapacity) := by
    apply foldl_prefix P
    · exact ⟨rfl, rfl, by simp⟩
    · rintro done i rest new heq ⟨hcap, hwidth, hdone⟩
      have hi : i < oldCapacity := by
        rw [← List.mem_range, heq]
        simp
      refine ⟨hcap, hwidth, fun j hj => ?_⟩
      -- both arrays have elements of eight bytes
      have hfit : old.getValueAt i < 256 ^ 8 := hbytes ▸ old.getValueAt_lt i
      rw [CByteArray.getValueAt_setValueAt _ (by omega), hwidth, Nat.mod_eq_of_lt hfit]
      split_ifs with hji
      · rw [hji]
      · rcases List.mem_append.mp hj with hj | hj
        · exact hdone j hj
        · exact absurd (List.mem_singleton.mp hj) hji
  exact ⟨hend.1, hend.2.1, fun i hi => hend.2.2 i (List.mem_range.mpr hi)⟩

/-- The arrays of a stream being read have the same capacity, which is never zero. -/
structure Reading (s : WeightedEdgeStream W) (done : List (WeightedEdge W)) : Prop where
  holds : Holds s done
  numEdges : s.numEdges = done.length
  room : done.length ≤ s.sources.capacity
  capacity : s.destinations.capacity = s.sources.capacity
  pos_capacity : 0 < s.sources.capacity

/-- Growing makes room for one more edge. -/
theorem Reading.grow (h : Reading s done) (memory : ℕ → UInt8) :
    Reading (s.grow memory) done ∧ done.length < (s.grow memory).sources.capacity := by
  have hroom := h.room
  have hpos := h.pos_capacity
  unfold WeightedEdgeStream.grow
  split_ifs with hfull
  -- the arrays are full, and their capacity is doubled
  · have hdouble : s.sources.capacity ≤ s.sources.capacity * 2 := by omega
    obtain ⟨hcap, hbytes, hget⟩ := getValueAt_copyInto memory h.holds.bytes_sources hdouble
    obtain ⟨hcap', hbytes', hget'⟩ :=
      getValueAt_copyInto memory h.holds.bytes_destinations hdouble
    refine ⟨⟨⟨fun i e he => ?_, h.holds.weights, h.holds.max, hbytes, hbytes'⟩, h.numEdges,
      by simp only [hcap]; omega, by simp only [hcap, hcap'], by simp only [hcap]; omega⟩,
      by simp only [hcap]; omega⟩
    have hi : i < done.length := (List.getElem?_eq_some_iff.mp he).1
    simp only
    rw [hget i (by omega), hget' i (by omega)]
    exact h.holds.entries i e he
  · have hn := h.numEdges
    exact ⟨h, by omega⟩

theorem Reading.readEdge (h : Reading s done) (memory : ℕ → UInt8) {e : WeightedEdge W}
    (hid : e.source < 2 ^ 64 ∧ e.destination < 2 ^ 64) :
    Reading (s.readEdge memory e) (done ++ [e]) := by
  obtain ⟨hs, hlt⟩ := h.grow memory
  have hstored := hs.holds.store hlt (hs.capacity ▸ hlt) hid
  have hlen : (done ++ [e]).length = done.length + 1 := by simp
  unfold WeightedEdgeStream.readEdge
  simp only [hs.numEdges]
  refine ⟨⟨hstored.entries, hstored.weights, hstored.max, hstored.bytes_sources,
    hstored.bytes_destinations⟩, hlen.symm, ?_, hs.capacity, hs.pos_capacity⟩
  rw [hlen]
  exact hlt

/-- **The constructor from a file.** -/
theorem valid_ofReader [Zero W] (memory : ℕ → UInt8) (read : List (WeightedEdge W))
    (hids : ∀ e ∈ read, e.source < 2 ^ 64 ∧ e.destination < 2 ^ 64) :
    (ofReader memory read).Valid ∧ (ofReader memory read).edges = read ∧
      (ofReader memory read).maxVertexId = maxId read := by
  have hend : Reading (ofReader memory read) read := by
    apply foldl_prefix (fun done s => Reading s done)
    · exact ⟨⟨by simp, rfl, rfl, rfl, rfl⟩, rfl, Nat.zero_le _, rfl, Nat.succ_pos 7⟩
    · intro done e rest s heq hs
      exact hs.readEdge memory (hids e (by simp [heq]))
  obtain ⟨hvalid, hedges⟩ := hend.holds.valid hend.numEdges hend.room (hend.capacity ▸ hend.room)
    hids
  exact ⟨hvalid, hedges, hend.holds.max⟩

end Constructors

/-! ## The parallel rewrite -/

section Rewrite

variable [Zero W] {s : WeightedEdgeStream W} {permutation : List ℕ} {bytes : ℕ}

/-- The positions assigned by the writes `done` hold the permuted values. -/
structure Written (s : WeightedEdgeStream W) (permutation : List ℕ) (bytes : ℕ) (done : List Write)
    (r : Arrays W) : Prop where
  bytes_sources : r.sources.bytesPerElement = bytes
  bytes_destinations : r.destinations.bytesPerElement = bytes
  capacity_sources : r.sources.capacity = s.numEdges
  capacity_destinations : r.destinations.capacity = s.numEdges
  length_weights : r.weights.length = s.numEdges
  sources : ∀ i, .source i ∈ done →
    r.sources.getValueAt i = s.sources.getValueAt (permutation.getD i 0)
  destinations : ∀ i, .destination i ∈ done →
    r.destinations.getValueAt i = s.destinations.getValueAt (permutation.getD i 0)
  weights : ∀ i, .weight i ∈ done → r.weights.getD i 0 = s.weights.getD (permutation.getD i 0) 0

/-- **One write** of a task. Its value fits an element of the new arrays. -/
theorem Written.write {done : List Write} {r : Arrays W} (h : Written s permutation bytes done r)
    (hs : s.Valid) (hmax : s.maxVertexId < 256 ^ bytes) {w : Write} (hw : w.index < s.numEdges)
    (hperm : permutation.getD w.index 0 < s.numEdges) :
    Written s permutation bytes (done ++ [w]) (s.write permutation r w) := by
  -- a write sets one element of one array, and writes to the same element agree
  have hold : ∀ {w' : Write}, w' ∈ done ++ [w] → w' ≠ w → w' ∈ done := by
    intro w' hw' hne
    rcases List.mem_append.mp hw' with h | h
    · exact h
    · exact absurd (List.mem_singleton.mp h) hne
  cases w with
  | source i =>
    refine ⟨h.bytes_sources, h.bytes_destinations, h.capacity_sources, h.capacity_destinations,
      h.length_weights, fun j hj => ?_, fun j hj => h.destinations j (hold hj (by simp)),
      fun j hj => h.weights j (hold hj (by simp))⟩
    simp only [Write.index] at hw hperm
    have hfit := (hs.sources_le _ hperm).trans_lt hmax
    simp only [WeightedEdgeStream.write]
    rw [CByteArray.getValueAt_setValueAt _ (h.capacity_sources ▸ hw), h.bytes_sources,
      Nat.mod_eq_of_lt hfit]
    split_ifs with hji
    · rw [hji]
    · exact h.sources j (hold hj (by simpa using hji))
  | destination i =>
    refine ⟨h.bytes_sources, h.bytes_destinations, h.capacity_sources, h.capacity_destinations,
      h.length_weights, fun j hj => h.sources j (hold hj (by simp)), fun j hj => ?_,
      fun j hj => h.weights j (hold hj (by simp))⟩
    simp only [Write.index] at hw hperm
    have hfit := (hs.destinations_le _ hperm).trans_lt hmax
    simp only [WeightedEdgeStream.write]
    rw [CByteArray.getValueAt_setValueAt _ (h.capacity_destinations ▸ hw), h.bytes_destinations,
      Nat.mod_eq_of_lt hfit]
    split_ifs with hji
    · rw [hji]
    · exact h.destinations j (hold hj (by simpa using hji))
  | weight i =>
    refine ⟨h.bytes_sources, h.bytes_destinations, h.capacity_sources, h.capacity_destinations,
      by simp [WeightedEdgeStream.write, h.length_weights],
      fun j hj => h.sources j (hold hj (by simp)),
      fun j hj => h.destinations j (hold hj (by simp)), fun j hj => ?_⟩
    simp only [WeightedEdgeStream.write]
    rw [getD_set]
    by_cases hij : i = j
    · subst hij
      rw [if_pos ⟨rfl, h.length_weights ▸ hw⟩]
    · rw [if_neg (fun hc => hij hc.1)]
      exact h.weights j (hold hj (by simpa using Ne.symm hij))

/-- The writes of all the tasks: three for each position. -/
theorem mem_taskWrites {machine : Machine} {n : ℕ} (hn : 0 < n) (w : Write) :
    w ∈ (taskRanges n (numTasks machine n)).flatMap (fun task => taskWrites task.1 task.2) ↔
      w.index < n := by
  have hpos : 0 < numTasks machine n := by
    unfold numTasks
    omega
  -- the tasks cover the range once
  have hall : (taskRanges n (numTasks machine n)).flatMap (fun task => taskWrites task.1 task.2) =
      (List.range n).flatMap fun i => [.source i, .destination i, .weight i] := by
    rw [← flatMap_taskRanges hpos, List.flatMap_assoc]
    rfl
  rw [hall, List.mem_flatMap]
  cases w with
  | source i => simp [Write.index]
  | destination i => simp [Write.index]
  | weight i => simp [Write.index]

/-- **The edges after a permutation of the positions**, for every order of the writes. -/
theorem doPermuteEdges_spec (machine : Machine) (t : ℕ) (hs : s.Valid)
    (hwidth : CByteArray.Suffices s.maxVertexId) (hn : 0 < s.numEdges)
    (hperm : permutation.Perm (List.range s.numEdges)) :
    ∃ s', s.doPermuteEdges machine t permutation = .ok s' ∧ s'.Valid ∧
      s'.numEdges = s.numEdges ∧ s'.maxVertexId = s.maxVertexId ∧
      s'.edges = permutation.map s.edge := by
  obtain ⟨bytes, hbytes, hone, height, hmax⟩ := hwidth
  have hlen : permutation.length = s.numEdges := by simpa using hperm.length_eq
  have hlt : ∀ i < s.numEdges, permutation.getD i 0 < s.numEdges := by
    intro i hi
    rw [List.getD_eq_getElem _ _ (hlen.symm ▸ hi)]
    exact List.mem_range.mp (hperm.mem_iff.mp (List.getElem_mem _))
  set writes := (taskRanges s.numEdges (numTasks machine s.numEdges)).flatMap
    fun task => taskWrites task.1 task.2 with hwrites
  set fresh := CByteArray.allocate machine.memory bytes s.numEdges ⟨hone, height⟩ with hfresh
  set r := (machine.schedule.order t writes).foldl (s.write permutation)
    ⟨fresh, fresh, List.replicate s.numEdges 0⟩ with hr
  -- whatever the order of the writes is
  have hwritten : Written s permutation bytes (machine.schedule.order t writes) r := by
    apply foldl_prefix (Written s permutation bytes)
    · exact ⟨rfl, rfl, rfl, rfl, by simp, by simp, by simp, by simp⟩
    · intro done w rest r heq hr
      have hw : w.index < s.numEdges := by
        rw [← mem_taskWrites hn, ← machine.schedule.mem_order t, ← hwrites, heq]
        simp
      exact hr.write hs hmax hw (hlt _ hw)
  have hmem : ∀ w : Write, w.index < s.numEdges → w ∈ machine.schedule.order t writes := by
    intro w hw
    rw [machine.schedule.mem_order, mem_taskWrites hn]
    exact hw
  -- every element is written
  have hedge : ∀ i < s.numEdges, (⟨r.sources.getValueAt i, r.destinations.getValueAt i,
      r.weights.getD i 0⟩ : WeightedEdge W) = s.edge (permutation.getD i 0) := by
    intro i hi
    rw [hwritten.sources i (hmem _ hi), hwritten.destinations i (hmem _ hi),
      hwritten.weights i (hmem _ hi)]
    rfl
  refine ⟨{ s with sources := r.sources, destinations := r.destinations, weights := r.weights },
    ?_, ⟨hwritten.capacity_sources.ge, hwritten.capacity_destinations.ge, hwritten.length_weights,
      fun i hi => ?_, fun i hi => ?_, hs.max_lt⟩, rfl, rfl, ?_⟩
  · simp only [doPermuteEdges, hbytes, CByteArray.new_eq_allocate _ _ ⟨hone, height⟩, bind,
      Except.bind, pure, Except.pure]
    rfl
  · rw [hwritten.sources i (hmem _ hi)]
    exact hs.sources_le _ (hlt i hi)
  · rw [hwritten.destinations i (hmem _ hi)]
    exact hs.destinations_le _ (hlt i hi)
  · apply List.ext_getElem
    · simp [edges, hlen]
    · intro i hi hi'
      have hi'' : i < s.numEdges := by simpa [edges] using hi
      simp only [edges, List.getElem_map, List.getElem_range]
      rw [← List.getD_eq_getElem _ 0]
      exact hedge i hi''

end Rewrite

/-! ## The operations -/

section Operations

variable [Zero W] {s : WeightedEdgeStream W}

/-- A comparison of keys is what `common::sort` asks of a comparator. -/
theorem isStrictWeakOrder_of_key {κ : Type} [LinearOrder κ] (key : ℕ → κ) {lt : ℕ → ℕ → Bool}
    (h : ∀ i j, lt i j = true ↔ key i < key j) :
    IsStrictWeakOrder ℕ fun i j => lt i j = true where
  irrefl i := by simp [h]
  trans i j k hij hjk := (h i k).mpr (((h i j).mp hij).trans ((h j k).mp hjk))
  incomp_trans i j k hij hjk := by
    simp only [h, not_lt] at hij hjk ⊢
    exact ⟨hjk.1.trans hij.1, hij.2.trans hjk.2⟩

theorem lessSrcDst_iff (s : WeightedEdgeStream W) (i j : ℕ) :
    s.lessSrcDst i j = true ↔ toLex ((s.edge i).source, (s.edge i).destination) <
      toLex ((s.edge j).source, (s.edge j).destination) := by
  rw [Prod.Lex.toLex_lt_toLex]
  simp only [lessSrcDst, edge]
  split_ifs with hlt heq
  · simp [hlt]
  · simp [heq]
  · simp [hlt, heq]

theorem lessDstSrc_iff (s : WeightedEdgeStream W) (i j : ℕ) :
    s.lessDstSrc i j = true ↔ toLex ((s.edge i).destination, (s.edge i).source) <
      toLex ((s.edge j).destination, (s.edge j).source) := by
  rw [Prod.Lex.toLex_lt_toLex]
  simp [lessDstSrc, edge]

/-- The order of the edges that an operation promises. -/
def Operation.Sorted : Operation → List (WeightedEdge W) → Prop
  | .permute _, _ => True
  | .sortBySrcDst, l => l.Pairwise fun e e' =>
    toLex (e.source, e.destination) ≤ toLex (e'.source, e'.destination)
  | .sortByDstSrc, l => l.Pairwise fun e e' =>
    toLex (e.destination, e.source) ≤ toLex (e'.destination, e'.source)

/-- An operation permutes the positions, into the order it promises. -/
theorem permutation_spec (lib : Common) (s : WeightedEdgeStream W) (op : Operation) :
    (s.permutation lib op).Perm (List.range s.numEdges) ∧
      op.Sorted ((s.permutation lib op).map s.edge) := by
  cases op with
  | permute seed => exact ⟨lib.permute_perm seed _, trivial⟩
  | sortBySrcDst =>
    -- the comparison is a strict weak order, as `std::sort` requires
    have hless := isStrictWeakOrder_of_key _ s.lessSrcDst_iff
    refine ⟨lib.sort_perm _ _ hless, List.pairwise_map.mpr ?_⟩
    refine (lib.sort_sorted _ (List.range s.numEdges) hless).imp fun {i j} hij => not_lt.mp ?_
    rw [← lessSrcDst_iff, hij]
    exact Bool.false_ne_true
  | sortByDstSrc =>
    have hless := isStrictWeakOrder_of_key _ s.lessDstSrc_iff
    refine ⟨lib.sort_perm _ _ hless, List.pairwise_map.mpr ?_⟩
    refine (lib.sort_sorted _ (List.range s.numEdges) hless).imp fun {i j} hij => not_lt.mp ?_
    rw [← lessDstSrc_iff, hij]
    exact Bool.false_ne_true

/-- **One operation.** -/
theorem step_spec (lib : Common) (machine : Machine) (t : ℕ) (hs : s.Valid)
    (hwidth : CByteArray.Suffices s.maxVertexId) (op : Operation) :
    ∃ s', s.step lib machine t op = .ok s' ∧ s'.Valid ∧ s'.numEdges = s.numEdges ∧
      s'.maxVertexId = s.maxVertexId ∧ s'.edges.Perm s.edges ∧ op.Sorted s'.edges := by
  unfold step
  split_ifs with hn
  -- a stream without edges is left as it is
  · have hempty : s.edges = [] := by simp [edges, Nat.le_zero.mp hn]
    refine ⟨s, rfl, hs, rfl, rfl, List.Perm.refl _, ?_⟩
    rw [hempty]
    cases op with
    | permute seed => trivial
    | sortBySrcDst => exact List.Pairwise.nil
    | sortByDstSrc => exact List.Pairwise.nil
  · obtain ⟨hperm, hsorted⟩ := s.permutation_spec lib op
    obtain ⟨s', heq, hs', hnum, hmax, hedges⟩ :=
      doPermuteEdges_spec machine t hs hwidth (by omega) hperm
    refine ⟨s', heq, hs', hnum, hmax, ?_, hedges ▸ hsorted⟩
    rw [hedges]
    exact hperm.map s.edge

/-- **A sequence of operations.** -/
theorem run_spec (lib : Common) (machine : Machine) (ops : List Operation) (t : ℕ) (hs : s.Valid)
    (hwidth : CByteArray.Suffices s.maxVertexId) :
    ∃ s', s.run lib machine t ops = .ok s' ∧ s'.Valid ∧ s'.numEdges = s.numEdges ∧
      s'.maxVertexId = s.maxVertexId ∧ s'.edges.Perm s.edges := by
  induction ops generalizing s t with
  | nil => exact ⟨s, rfl, hs, rfl, rfl, List.Perm.refl _⟩
  | cons op ops ih =>
    obtain ⟨s₁, heq, hs₁, hnum, hmax, hperm, -⟩ := step_spec lib machine t hs hwidth op
    obtain ⟨s', heq', hs', hnum', hmax', hperm'⟩ := ih (t + 1) hs₁ (hmax ▸ hwidth)
    refine ⟨s', ?_, hs', hnum'.trans hnum, hmax'.trans hmax, hperm'.trans hperm⟩
    rw [run, heq]
    exact heq'

end Operations

/-! ## The list of vertices -/

section Vertices

variable [Zero W] {s : WeightedEdgeStream W}

/-- The vertices of a list of edges. -/
def IsEndpoint (l : List (WeightedEdge W)) (x : ℕ) : Prop :=
  ∃ e ∈ l, x = e.source ∨ x = e.destination

theorem mem_uniqueVertices (s : WeightedEdgeStream W) :
    s.uniqueVertices.Nodup ∧ ∀ x, x ∈ s.uniqueVertices ↔ IsEndpoint s.edges x := by
  let P : List ℕ → List ℕ → Prop := fun done keys =>
    keys.Nodup ∧ ∀ x, x ∈ keys ↔
      ∃ i ∈ done, x = s.sources.getValueAt i ∨ x = s.destinations.getValueAt i
  have hend : P (List.range s.numEdges) s.uniqueVertices := by
    -- the ends of the edges seen so far
    apply foldl_prefix P
    · exact ⟨List.nodup_nil, by simp⟩
    · rintro done i rest keys - ⟨hnodup, hmem⟩
      refine ⟨(hnodup.insert).insert, fun x => ?_⟩
      simp only [List.mem_insert_iff, hmem, List.mem_append, List.mem_singleton]
      constructor
      · rintro (rfl | rfl | ⟨j, hj, hx⟩)
        · exact ⟨i, Or.inr rfl, Or.inr rfl⟩
        · exact ⟨i, Or.inr rfl, Or.inl rfl⟩
        · exact ⟨j, Or.inl hj, hx⟩
      · rintro ⟨j, hj | rfl, hx⟩
        · exact Or.inr (Or.inr ⟨j, hj, hx⟩)
        · exact hx.elim (fun h => Or.inr (Or.inl h)) Or.inl
  refine ⟨hend.1, fun x => (hend.2 x).trans ?_⟩
  simp [IsEndpoint, edges, edge]

/-- Storing a list of values that fit, from the first position on. -/
theorem toList_storeAll (a : CByteArray) (l : List ℕ) (hcap : a.capacity = l.length)
    (hfit : ∀ v ∈ l, v < 256 ^ a.bytesPerElement) : VertexList.toList ⟨storeAll a l⟩ = l := by
  let P : List ℕ → CByteArray × ℕ → Prop := fun done acc =>
    acc.2 = done.length ∧ acc.1.capacity = l.length ∧
      acc.1.bytesPerElement = a.bytesPerElement ∧
      ∀ i v, done[i]? = some v → acc.1.getValueAt i = v
  have hend : P l (l.foldl (fun (acc : CByteArray × ℕ) v =>
      (acc.1.setValueAt acc.2 v, acc.2 + 1)) (a, 0)) := by
    apply foldl_prefix P
    · exact ⟨rfl, hcap, rfl, by simp⟩
    · rintro done v rest ⟨r, n⟩ heq ⟨hn, hr, hbytes, hget⟩
      simp only at hn hr hbytes hget
      subst hn
      have hlen : done.length < r.capacity := by simp [hr, heq]
      refine ⟨by simp, hr, hbytes, fun i x hx => ?_⟩
      rw [CByteArray.getValueAt_setValueAt _ hlen, hbytes,
        Nat.mod_eq_of_lt (hfit v (by simp [heq]))]
      -- an earlier element, the one that is stored, or none
      rcases Nat.lt_trichotomy i done.length with hlt | rfl | hgt
      · rw [List.getElem?_append_left hlt] at hx
        rw [if_neg hlt.ne]
        exact hget i x hx
      · rw [List.getElem?_concat_length, Option.some.injEq] at hx
        rw [if_pos rfl, hx]
      · rw [List.getElem?_eq_none (by simpa using hgt)] at hx
        cases hx
  obtain ⟨-, hr, -, hget⟩ := hend
  apply List.ext_getElem
  · simp only [VertexList.toList, VertexList.numVertices, List.length_map, List.length_range]
    exact hr
  · intro i hi hi'
    simp only [VertexList.toList, List.getElem_map, List.getElem_range]
    exact hget i _ (List.getElem?_eq_getElem hi')

/-- **The list of vertices** holds the endpoints of the edges once each. -/
theorem vertexList_spec (machine : Machine) (t : ℕ) (hs : s.Valid)
    (hwidth : CByteArray.Suffices s.maxVertexId) :
    ∃ l, s.vertexList machine t = .ok l ∧ l.toList.Nodup ∧
      ∀ x, x ∈ l.toList ↔ IsEndpoint s.edges x := by
  obtain ⟨bytes, hbytes, hone, height, hmax⟩ := hwidth
  obtain ⟨hnodup, hmem⟩ := s.mem_uniqueVertices
  set unique := machine.hashOrder.order t s.uniqueVertices with hunique
  have hperm : unique.Perm s.uniqueVertices := machine.hashOrder.perm t _
  -- an endpoint is at most the largest identifier
  have hfit : ∀ v ∈ unique, v < 256 ^ bytes := by
    intro v hv
    obtain ⟨e, he, hx⟩ := (hmem v).mp (hperm.mem_iff.mp hv)
    obtain ⟨i, hi, rfl⟩ := List.mem_map.mp he
    have hi' := List.mem_range.mp hi
    rcases hx with rfl | rfl
    · exact (hs.sources_le i hi').trans_lt hmax
    · exact (hs.destinations_le i hi').trans_lt hmax
  set fresh := CByteArray.allocate machine.memory bytes unique.length ⟨hone, height⟩ with hfresh
  have hlist := toList_storeAll fresh unique rfl hfit
  refine ⟨⟨storeAll fresh unique⟩, ?_, ?_, ?_⟩
  · simp only [vertexList, hbytes, CByteArray.new_eq_allocate _ _ ⟨hone, height⟩, bind, Except.bind,
      pure, Except.pure]
    rfl
  · rw [hlist]
    exact hperm.nodup_iff.mpr hnodup
  · intro x
    rw [hlist, hperm.mem_iff, hmem]

end Vertices

/-! ## Reordering loses nothing -/

section Claims

variable [Zero W] {s : WeightedEdgeStream W}

/-- **Reordering a stream loses nothing.** When the computed width suffices, each operation is a
rearrangement of the edges into the order it promises, and a sequence of operations keeps the edges,
their number and the list of the vertices. -/
theorem reorder_preserves (lib : Common) (machine : Machine) (hs : s.Valid)
    (hwidth : CByteArray.Suffices s.maxVertexId) :
    (∀ t op, ∃ s', s.step lib machine t op = .ok s' ∧ s'.edges.Perm s.edges ∧
      op.Sorted s'.edges) ∧
    ∀ t ops, ∃ s', s.run lib machine t ops = .ok s' ∧ s'.edges.Perm s.edges ∧
      s'.numEdges = s.numEdges ∧
      ∀ t₁ t₂, ∃ l l', s.vertexList machine t₁ = .ok l ∧ s'.vertexList machine t₂ = .ok l' ∧
        l'.toList.Perm l.toList := by
  refine ⟨fun t op => ?_, fun t ops => ?_⟩
  · obtain ⟨s', heq, -, -, -, hperm, hsorted⟩ := step_spec lib machine t hs hwidth op
    exact ⟨s', heq, hperm, hsorted⟩
  · obtain ⟨s', heq, hs', hnum, hmax, hperm⟩ := run_spec lib machine ops t hs hwidth
    refine ⟨s', heq, hperm, hnum, fun t₁ t₂ => ?_⟩
    obtain ⟨l, hl, hnodup, hmem⟩ := vertexList_spec machine t₁ hs hwidth
    obtain ⟨l', hl', hnodup', hmem'⟩ := vertexList_spec machine t₂ hs' (hmax ▸ hwidth)
    -- both lists have the endpoints of the stream, once each
    refine ⟨l, l', hl, hl', (List.perm_ext_iff_of_nodup hnodup' hnodup).mpr fun x => ?_⟩
    rw [hmem, hmem']
    simp only [IsEndpoint, hperm.mem_iff]

theorem reorder_preserves_edge :
    (∀ t op, ∃ s', (ofVector (fun _ => 0) [⟨5, 3, (7 : ℕ)⟩]).step Common.mergeSort Machine.single t
        op = .ok s' ∧ s'.edges.Perm (ofVector (fun _ => 0) [⟨5, 3, 7⟩]).edges ∧
      op.Sorted s'.edges) ∧
    ∀ t ops, ∃ s', (ofVector (fun _ => 0) [⟨5, 3, (7 : ℕ)⟩]).run Common.mergeSort Machine.single t
        ops = .ok s' ∧ s'.edges.Perm (ofVector (fun _ => 0) [⟨5, 3, 7⟩]).edges ∧
      s'.numEdges = 1 ∧
      ∀ t₁ t₂, ∃ l l', (ofVector (fun _ => 0) [⟨5, 3, (7 : ℕ)⟩]).vertexList Machine.single t₁ =
          .ok l ∧ s'.vertexList Machine.single t₂ = .ok l' ∧ l'.toList.Perm l.toList :=
  reorder_preserves Common.mergeSort Machine.single (valid_ofVector _ _ (by simp)).1
    ⟨1, by decide, by decide⟩

/-! ## The width of the packed arrays -/

/-- The width computed for the largest identifier `m` is accepted by the constructor, and an element
of this width holds every identifier without changing the others. -/
def WidthFaithful (m : ℕ) : Prop :=
  ∃ bytes, CByteArray.computeBytesPerElements m = .ok bytes ∧ 1 ≤ bytes ∧ bytes ≤ 8 ∧
    ∀ a : CByteArray, a.bytesPerElement = bytes → ∀ v ≤ m, ∀ i < a.capacity, ∀ j < a.capacity,
      (a.setValueAt i v).getValueAt j = if j = i then v else a.getValueAt j

/-- **Packed identifiers are kept**: the width is faithful, and no operation alters or rejects an
identifier. -/
def PackedIds (s : WeightedEdgeStream W) : Prop :=
  WidthFaithful s.maxVertexId ∧
  (∀ lib machine t op, ∃ s', s.step lib machine t op = .ok s' ∧ s'.edges.Perm s.edges) ∧
  ∀ machine t, ∃ l, s.vertexList machine t = .ok l ∧ l.toList.Nodup ∧
    ∀ x, x ∈ l.toList ↔ IsEndpoint s.edges x

theorem widthFaithful_iff (m : ℕ) : WidthFaithful m ↔ CByteArray.Suffices m := by
  constructor
  · rintro ⟨bytes, hbytes, hone, height, hkeep⟩
    refine ⟨bytes, hbytes, hone, height, ?_⟩
    -- the largest identifier, in an array of one element
    have h := hkeep (CByteArray.allocate (fun _ => 0) bytes 1 ⟨hone, height⟩) rfl m (le_refl m) 0
      (Nat.one_pos) 0 (Nat.one_pos)
    rw [CByteArray.getValueAt_setValueAt _ Nat.one_pos, if_pos rfl, if_pos rfl] at h
    exact h ▸ Nat.mod_lt m (by positivity)
  · rintro ⟨bytes, hbytes, hone, height, hmax⟩
    refine ⟨bytes, hbytes, hone, height, fun a ha v hv i hi j _ => ?_⟩
    rw [CByteArray.getValueAt_setValueAt a hi, ha, Nat.mod_eq_of_lt (hv.trans_lt hmax)]

/-- **Packed identifiers are kept** exactly when the largest one is neither zero nor a power of
`256`. -/
theorem packedIds_iff (hs : s.Valid) :
    s.PackedIds ↔ s.maxVertexId ≠ 0 ∧ ∀ k, s.maxVertexId ≠ 256 ^ k := by
  rw [← CByteArray.suffices_iff hs.max_lt]
  constructor
  · rintro ⟨hwidth, -, -⟩
    exact (widthFaithful_iff _).mp hwidth
  · intro hwidth
    refine ⟨(widthFaithful_iff _).mpr hwidth, fun lib machine t op => ?_, fun machine t => ?_⟩
    · obtain ⟨s', heq, -, -, -, hperm, -⟩ := step_spec lib machine t hs hwidth op
      exact ⟨s', heq, hperm⟩
    · exact vertexList_spec machine t hs hwidth

theorem packedIds_edge :
    (ofVector (fun _ => 0) [⟨5, 3, (7 : ℕ)⟩]).Valid ∧
      ((ofVector (fun _ => 0) [⟨5, 3, (7 : ℕ)⟩]).PackedIds ↔ 5 ≠ 0 ∧ ∀ k, 5 ≠ 256 ^ k) := by
  have hvalid := (valid_ofVector (fun _ => 0) [⟨5, 3, (7 : ℕ)⟩] (by simp)).1
  exact ⟨hvalid, packedIds_iff hvalid⟩

/-- The identifier `256` does not fit the one byte computed for it. -/
theorem not_packedIds_256 : ¬(ofVector (fun _ => 0) [⟨1, 256, (7 : ℕ)⟩]).PackedIds := by
  rintro ⟨hwidth, -, -⟩
  have hmax : (ofVector (fun _ => 0) [⟨1, 256, (7 : ℕ)⟩]).maxVertexId = 256 := rfl
  rw [hmax, widthFaithful_iff, CByteArray.suffices_iff (by norm_num)] at hwidth
  exact hwidth.2 1 (by norm_num)

end Claims

end WeightedEdgeStream

end GfeDriver
