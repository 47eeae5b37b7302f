import Mathlib.Data.List.Sort
import GfeDriver.Foundation.Grouping
import GfeDriver.Graph.EdgeStream
import GfeDriver.Baseline.Csr

/-!
# Loading a stream into compressed sparse rows

`load_directed` numbers the vertices by increasing identifier, then makes one pass over the stream
sorted by `<source, destination>` for the outgoing arrays and one over the stream sorted by
`<destination, source>` for the incoming ones. Each pass counts the edges of a vertex while it
copies them, and a running sum turns the counts into the ends of the intervals. A pass looks a
vertex up only when it differs from the one of the previous edge, starting from the identifier
`2^64 - 1`, so its first edge must not belong to that vertex. `load_undirected` merges the two
intervals of each vertex.

What a load reads of a stream is the list of its vertices and its edges in the two orders, a
`StreamView`.

## Main definitions

* `StreamView`, `StreamView.Faithful`: what a load reads, and what it is promised
* `CSR.loadDirection`: one pass over the stream
* `CSR.loadDirected`, `CSR.loadUndirected`: the two loads
* `CSR.getWeight`: the weight of an edge
* `Simple`: no edge twice, in either orientation, and no loops

## Main results

* `loadDirection_grouped`: the arrays of a pass hold the edges of each vertex
* `outEdges_loadDirected`, `inEdges_loadDirected`: the intervals of a directed graph
* `outEdges_loadUndirected`: the intervals of an undirected graph
* `load_faithful`: loading is faithful
-/

namespace GfeDriver

open Foundation

/-! ## What a load reads -/

/-- The number of edges of a stream, the result of `vertex_list`, and the edges after each sort. -/
structure StreamView (W : Type) where
  numEdges : ℕ
  vertices : List ℕ
  bySrcDst : List (WeightedEdge W)
  byDstSrc : List (WeightedEdge W)

/-- `vertex_list` and the sorts return what they promise for the stream `edges`. -/
structure StreamView.Faithful {W : Type} (view : StreamView W) (edges : List (WeightedEdge W)) :
    Prop where
  numEdges : view.numEdges = edges.length
  nodup_vertices : view.vertices.Nodup
  mem_vertices : ∀ x, x ∈ view.vertices ↔ WeightedEdgeStream.IsEndpoint edges x
  perm_src : view.bySrcDst.Perm edges
  sorted_src : WeightedEdgeStream.Operation.sortBySrcDst.Sorted view.bySrcDst
  perm_dst : view.byDstSrc.Perm edges
  sorted_dst : WeightedEdgeStream.Operation.sortByDstSrc.Sorted view.byDstSrc

namespace CSR

variable {W : Type}

/-! ## The program -/

/-- `numeric_limits<uint64_t>::max()`, the vertex of the previous edge before the first one. -/
def noVertex : ℕ := 2 ^ 64 - 1

/-- The loop that fills `m_ext2log` and `m_log2ext`. -/
def mapVertices (vertices : List ℕ) : (AList fun _ : ℕ => ℕ) × List ℕ :=
  vertices.foldl (fun acc vertexId => (acc.1.insert vertexId acc.2.length, acc.2 ++ [vertexId]))
    (∅, [])

/-- `m_ext2log[x]`, for a registered vertex. -/
def logical (ext2log : AList fun _ : ℕ => ℕ) (x : ℕ) : ℕ := (ext2log.lookup x).getD 0

/-- The variables of a pass: the vertex of the previous edge and its number, the counts in the
vertex array, the edge array and the weights. -/
structure LoadState (W : Type) where
  externalId : ℕ
  logicalId : ℕ
  counts : List ℕ
  entries : List ℕ
  weights : List W

/-- The body of the loop of a pass, which fills the intervals of the vertices `key` with the
vertices `other`. -/
def loadEdge (ext2log : AList fun _ : ℕ => ℕ) (key other : WeightedEdge W → ℕ) (s : LoadState W)
    (edge : WeightedEdge W) : LoadState W :=
  let externalId := if key edge ≠ s.externalId then key edge else s.externalId
  let logicalId := if key edge ≠ s.externalId then logical ext2log (key edge) else s.logicalId
  { externalId := externalId
    logicalId := logicalId
    counts := s.counts.set logicalId (s.counts.getD logicalId 0 + 1)
    entries := s.entries ++ [logical ext2log (other edge)]
    weights := s.weights ++ [edge.weight] }

/-- The arrays of a direction. -/
structure Direction (W : Type) where
  vertexArray : List ℕ
  edgeArray : List ℕ
  weightArray : List W

/-- One pass over a sorted stream, with the running sum on the vertex array. -/
def loadDirection (ext2log : AList fun _ : ℕ => ℕ) (numVertices : ℕ)
    (key other : WeightedEdge W → ℕ) (edges : List (WeightedEdge W)) : Direction W :=
  let s := edges.foldl (loadEdge ext2log key other)
    ⟨noVertex, 0, List.replicate numVertices 0, [], []⟩
  ⟨prefixSums s.counts, s.entries, s.weights⟩

/-- `CSR::load_directed`, in a library of the given mode. -/
def loadDirected (isDirected : Bool) (view : StreamView W) : CSR W :=
  let vertices := view.vertices.insertionSort (· ≤ ·)
  let numVertices := vertices.length
  let maps := mapVertices vertices
  let out := loadDirection maps.1 numVertices WeightedEdge.source WeightedEdge.destination
    view.bySrcDst
  let inc := loadDirection maps.1 numVertices WeightedEdge.destination WeightedEdge.source
    view.byDstSrc
  { isDirected := isDirected
    numVertices := numVertices
    numEdges := view.numEdges
    ext2log := maps.1
    log2ext := maps.2
    outV := out.vertexArray
    outE := out.edgeArray
    outW := out.weightArray
    inV := inc.vertexArray
    inE := inc.edgeArray
    inW := inc.weightArray }

/-- The three loops that merge the outgoing and the incoming edges of a vertex. -/
def mergeEdges : List (ℕ × W) → List (ℕ × W) → List (ℕ × W)
  | [], inc => inc
  | out, [] => out
  | o :: out, i :: inc =>
    if o.1 < i.1 then o :: mergeEdges out (i :: inc) else i :: mergeEdges (o :: out) inc

/-- The arrays `out_v_undirected`, `out_e_undirected` and `out_w_undirected`. -/
def mergeDirections [Zero W] (g : CSR W) : Direction W :=
  let merged := (List.range g.numVertices).flatMap fun v => mergeEdges (g.outEdges v) (g.inEdges v)
  { vertexArray := prefixSums ((List.range g.numVertices).map fun v =>
      g.getOutDegree v + g.getInDegree v)
    edgeArray := merged.map Prod.fst
    weightArray := merged.map Prod.snd }

/-- `CSR::load_undirected`. -/
def loadUndirected [Zero W] (view : StreamView W) : CSR W :=
  let g := loadDirected false view
  let undirected := mergeDirections g
  { g with
    outV := undirected.vertexArray
    outE := undirected.edgeArray
    outW := undirected.weightArray
    inV := undirected.vertexArray
    inE := undirected.edgeArray
    inW := undirected.weightArray }

/-- `CSR::load`. -/
def loadView [Zero W] (isDirected : Bool) (view : StreamView W) : CSR W :=
  if isDirected then loadDirected true view else loadUndirected view

/-- The loop of `get_weight`, which stops at the first neighbour above the destination. -/
def scanWeight (destination : ℕ) : List (ℕ × W) → Option W
  | [] => none
  | (v, w) :: rest =>
    if v ≤ destination then if v = destination then some w else scanWeight destination rest
    else none

/-- `CSR::get_weight`, where `none` stands for a signaling NaN. -/
def getWeight [Zero W] (g : CSR W) (source destination : ℕ) : Option W := do
  let logicalSourceId ← g.ext2log.lookup source
  let logicalDestinationId ← g.ext2log.lookup destination
  scanWeight logicalDestinationId (g.outEdges logicalSourceId)

/-! ## The numbering of the vertices -/

section Numbering

/-- The map numbers the vertices by their positions in an increasing list. -/
structure Numbering (ext2log : AList fun _ : ℕ => ℕ) (vertices : List ℕ) : Prop where
  lookup_iff : ∀ x i, ext2log.lookup x = some i ↔ vertices[i]? = some x
  sorted : vertices.Pairwise (· < ·)

theorem mapVertices_spec {vertices : List ℕ} (hnodup : vertices.Nodup) :
    (mapVertices vertices).2 = vertices ∧
      ∀ x i, (mapVertices vertices).1.lookup x = some i ↔ vertices[i]? = some x := by
  let P : List ℕ → (AList fun _ : ℕ => ℕ) × List ℕ → Prop := fun done acc =>
    acc.2 = done ∧ ∀ x i, acc.1.lookup x = some i ↔ done[i]? = some x
  apply foldl_prefix P
  · exact ⟨rfl, by simp⟩
  · rintro done v rest ⟨m, l⟩ heq ⟨hl, hm⟩
    simp only at hl hm
    subst hl
    -- the vertices differ, so that no entry is overwritten
    have hnew : v ∉ l := by
      rw [heq] at hnodup
      exact fun hc => (List.nodup_append.mp hnodup).2.2 v hc v List.mem_cons_self rfl
    refine ⟨rfl, fun x i => ?_⟩
    simp only
    by_cases hx : x = v
    · subst hx
      rw [AList.lookup_insert, Option.some.injEq]
      constructor
      · rintro rfl
        exact List.getElem?_concat_length
      · intro hi
        rcases Nat.lt_trichotomy i l.length with hlt | rfl | hgt
        · rw [List.getElem?_append_left hlt] at hi
          exact absurd (List.mem_of_getElem? hi) hnew
        · rfl
        · rw [List.getElem?_eq_none (by simpa using hgt)] at hi
          cases hi
    · rw [AList.lookup_insert_ne hx, hm]
      constructor
      · intro hi
        rwa [List.getElem?_append_left (List.getElem?_eq_some_iff.mp hi).1]
      · intro hi
        rcases Nat.lt_or_ge i l.length with hlt | hge
        · rwa [List.getElem?_append_left hlt] at hi
        · rw [List.getElem?_append_right hge] at hi
          exact absurd (List.mem_singleton.mp (List.mem_of_getElem? hi)) hx

variable {ext2log : AList fun _ : ℕ => ℕ} {vertices : List ℕ}

namespace Numbering

theorem getElem?_logical (h : Numbering ext2log vertices) {x : ℕ} (hx : x ∈ vertices) :
    vertices[logical ext2log x]? = some x := by
  obtain ⟨i, hi⟩ := List.mem_iff_getElem?.mp hx
  have hlookup := (h.lookup_iff x i).mpr hi
  rwa [logical, hlookup, Option.getD_some]

theorem logical_lt (h : Numbering ext2log vertices) {x : ℕ} (hx : x ∈ vertices) :
    logical ext2log x < vertices.length :=
  (List.getElem?_eq_some_iff.mp (h.getElem?_logical hx)).1

theorem logical_of_getElem? (h : Numbering ext2log vertices) {i x : ℕ}
    (hi : vertices[i]? = some x) : logical ext2log x = i := by
  rw [logical, (h.lookup_iff x i).mpr hi, Option.getD_some]

theorem logical_inj (h : Numbering ext2log vertices) {x y : ℕ} (hx : x ∈ vertices)
    (hy : y ∈ vertices) (heq : logical ext2log x = logical ext2log y) : x = y := by
  have hx' := h.getElem?_logical hx
  rw [heq, h.getElem?_logical hy] at hx'
  exact (Option.some.inj hx').symm

/-- The numbers are in the order of the identifiers. -/
theorem logical_le (h : Numbering ext2log vertices) {x y : ℕ} (hx : x ∈ vertices)
    (hy : y ∈ vertices) (hle : x ≤ y) : logical ext2log x ≤ logical ext2log y := by
  obtain ⟨hi, hix⟩ := List.getElem?_eq_some_iff.mp (h.getElem?_logical hx)
  obtain ⟨hj, hjy⟩ := List.getElem?_eq_some_iff.mp (h.getElem?_logical hy)
  by_contra hlt
  have := List.pairwise_iff_getElem.mp h.sorted _ _ hj hi (not_le.mp hlt)
  omega

end Numbering

end Numbering

/-! ## One pass -/

section Pass

variable {ext2log : AList fun _ : ℕ => ℕ} {vertices : List ℕ} {key other : WeightedEdge W → ℕ}
  {edges : List (WeightedEdge W)}

/-- The edges of the vertex `u`, as a pass stores them. -/
def groupOf (ext2log : AList fun _ : ℕ => ℕ) (key other : WeightedEdge W → ℕ)
    (edges : List (WeightedEdge W)) (u : ℕ) : List (ℕ × W) :=
  (edges.filter fun e => logical ext2log (key e) = u).map fun e =>
    (logical ext2log (other e), e.weight)

theorem mem_groupOf {u v : ℕ} {w : W} :
    (v, w) ∈ groupOf ext2log key other edges u ↔
      ∃ e ∈ edges, logical ext2log (key e) = u ∧ logical ext2log (other e) = v ∧ e.weight = w := by
  simp [groupOf, and_assoc]

/-- The state of a pass after the edges `done`. -/
structure Passed (ext2log : AList fun _ : ℕ => ℕ) (n : ℕ) (key other : WeightedEdge W → ℕ)
    (done : List (WeightedEdge W)) (s : LoadState W) : Prop where
  first : done = [] → s.externalId = noVertex
  last : ∀ e, done.getLast? = some e →
    s.externalId = key e ∧ s.logicalId = logical ext2log (key e)
  counts : s.counts = (List.range n).map fun u => (groupOf ext2log key other done u).length
  entries : s.entries = done.map fun e => logical ext2log (other e)
  weights : s.weights = done.map WeightedEdge.weight

/-- **One edge** of a pass: the vertex of the previous edge is remembered with its number. -/
theorem Passed.loadEdge {n : ℕ} {done : List (WeightedEdge W)} {s : LoadState W}
    (h : Passed ext2log n key other done s) {e : WeightedEdge W}
    (hfirst : done = [] → key e ≠ noVertex) :
    Passed ext2log n key other (done ++ [e]) (loadEdge ext2log key other s e) := by
  -- the last vertex looked up is that of the last edge; there is none before the first edge
  have hlogical : (if key e ≠ s.externalId then logical ext2log (key e) else s.logicalId) =
      logical ext2log (key e) := by
    split_ifs with hne
    · rfl
    · rcases List.eq_nil_or_concat done with hnil | ⟨l, x, rfl⟩
      · rw [h.first hnil] at hne
        exact absurd (not_not.mp hne) (hfirst hnil)
      · obtain ⟨hext, hlog⟩ := h.last x (by simp)
        rw [hlog, ← hext, not_not.mp hne]
  have hexternal : (if key e ≠ s.externalId then key e else s.externalId) = key e := by
    split_ifs with hne
    · rfl
    · exact (not_not.mp hne).symm
  unfold CSR.loadEdge
  simp only [hlogical, hexternal]
  refine ⟨by simp, by simp, ?_, by simp [h.entries], by simp [h.weights]⟩
  rw [h.counts]
  apply List.ext_getElem
  · simp
  · intro u hu hu'
    have hun : u < n := by simpa using hu'
    rw [List.getElem_set]
    split_ifs with heq
    · subst heq
      simp [groupOf, List.getD_eq_getElem?_getD, hun]
    · simp [groupOf, heq]

/-- The arrays of a direction hold the groups, one after the other. -/
structure Grouped (n : ℕ) (d : Direction W) (group : ℕ → List (ℕ × W)) : Prop where
  vertices : d.vertexArray = prefixSums ((List.range n).map fun u => (group u).length)
  edges : d.edgeArray = ((List.range n).flatMap group).map Prod.fst
  weights : d.weightArray = ((List.range n).flatMap group).map Prod.snd

/-- **One pass** over a stream sorted by `key` groups its edges by vertex, when the first of them
does not belong to the vertex `2^64 - 1`. -/
theorem loadDirection_grouped (hnum : Numbering ext2log vertices) (key other : WeightedEdge W → ℕ)
    (hmem : ∀ e ∈ edges, key e ∈ vertices)
    (hsorted : edges.Pairwise fun e e' => key e ≤ key e')
    (hfirst : ∀ e, edges.head? = some e → key e ≠ noVertex) :
    Grouped vertices.length (loadDirection ext2log vertices.length key other edges)
      (groupOf ext2log key other edges) := by
  have hend : Passed ext2log vertices.length key other edges
      (edges.foldl (loadEdge ext2log key other)
        ⟨noVertex, 0, List.replicate vertices.length 0, [], []⟩) := by
    apply foldl_prefix (Passed ext2log vertices.length key other)
    · refine ⟨fun _ => rfl, by simp, ?_, rfl, rfl⟩
      simp [groupOf]
    · intro done e rest s heq hs
      refine hs.loadEdge fun hnil => hfirst e ?_
      rw [heq, hnil]
      rfl
  -- the edges are sorted, so that the groups lie one after the other
  have hgroups : (List.range vertices.length).flatMap (groupOf ext2log key other edges) =
      edges.map fun e => (logical ext2log (other e), e.weight) := by
    have hflat := flatMap_filter_of_sorted (fun e => logical ext2log (key e))
      (hsorted.imp_of_mem fun he he' hle => hnum.logical_le (hmem _ he) (hmem _ he') hle)
      (fun e he => hnum.logical_lt (hmem e he))
    nth_rewrite 2 [← hflat]
    rw [List.map_flatMap]
    rfl
  refine ⟨?_, ?_, ?_⟩
  · simp only [loadDirection, hend.counts]
  · simp only [loadDirection, hend.entries, hgroups, List.map_map]
    rfl
  · simp only [loadDirection, hend.weights, hgroups, List.map_map]
    rfl

end Pass

/-! ## The intervals of a direction -/

section Intervals

variable {n : ℕ} {d : Direction W} {group : ℕ → List (ℕ × W)}

namespace Grouped

theorem interval (h : Grouped n d group) {u : ℕ} (hu : u < n) :
    getIntervalImpl d.vertexArray u = (groupStart group u, groupStart group (u + 1)) := by
  rw [h.vertices, getIntervalImpl]
  split_ifs with h0
  · subst h0
    rw [getD_prefixSums_lengths group hu]
    rfl
  · rw [getD_prefixSums_lengths group hu, getD_prefixSums_lengths group (by omega : u - 1 < n),
      Nat.sub_add_cancel (Nat.one_le_iff_ne_zero.mpr h0)]

theorem length_edgeArray (h : Grouped n d group) : d.edgeArray.length = groupStart group n := by
  rw [h.edges, List.length_map, length_flatMap_range]

/-- **The interval of a vertex** holds its group. -/
theorem slice [Zero W] (h : Grouped n d group) {u : ℕ} (hu : u < n) :
    ((indices (getIntervalImpl d.vertexArray u)).map fun i =>
      (d.edgeArray.getD i 0, d.weightArray.getD i 0)) = group u := by
  have hlen : groupStart group (u + 1) - groupStart group u = (group u).length := by
    rw [groupStart_succ, Nat.add_sub_cancel_left]
  rw [h.interval hu, indices, hlen]
  conv_rhs => rw [← slice_flatMap group hu (0, 0)]
  refine List.map_congr_left fun i _ => ?_
  rw [h.edges, h.weights]
  exact Prod.ext (List.getD_map _ ((0 : ℕ), (0 : W)) Prod.fst)
    (List.getD_map _ ((0 : ℕ), (0 : W)) Prod.snd)

/-- The ends of the intervals increase up to the number of entries. -/
theorem layout (h : Grouped n d group) (hlt : ∀ u < n, ∀ p ∈ group u, p.1 < n) :
    Layout n d.vertexArray d.edgeArray d.weightArray where
  length_vertices := by rw [h.vertices, length_prefixSums, List.length_map, List.length_range]
  mono := by
    have hlen : d.vertexArray.length = n := by
      rw [h.vertices, length_prefixSums, List.length_map, List.length_range]
    -- the running sums are the ends of the groups
    have hget : ∀ i (hi : i < d.vertexArray.length),
        d.vertexArray[i] = groupStart group (i + 1) := by
      intro i hi
      rw [← List.getD_eq_getElem _ 0 hi, h.vertices, getD_prefixSums_lengths group (hlen ▸ hi)]
    rw [List.pairwise_iff_getElem]
    intro i j hi hj hij
    rw [hget i hi, hget j hj]
    exact groupStart_mono group (by omega)
  last := by
    rw [h.length_edgeArray, h.vertices, List.getLastD_eq_getLast?, List.getLast?_eq_getElem?,
      ← List.getD_eq_getElem?_getD, length_prefixSums, List.length_map, List.length_range]
    rcases Nat.eq_zero_or_pos n with rfl | hn
    · rfl
    · rw [getD_prefixSums_lengths group (by omega), Nat.sub_add_cancel hn]
  length_weights := by rw [h.edges, h.weights, List.length_map, List.length_map]
  entry_lt := by
    intro x hx
    rw [h.edges] at hx
    obtain ⟨p, hp, rfl⟩ := List.mem_map.mp hx
    obtain ⟨u, hu, hp⟩ := List.mem_flatMap.mp hp
    exact hlt u (List.mem_range.mp hu) p hp

end Grouped

end Intervals

/-! ## Directed graphs -/

/-- No edge from a vertex to itself, and no edge twice. -/
structure Simple (edges : List (WeightedEdge W)) : Prop where
  loopless : ∀ e ∈ edges, e.source ≠ e.destination
  distinct : edges.Pairwise fun e e' => ¬(e.source = e'.source ∧ e.destination = e'.destination)

/-- No edge in both orientations. -/
def Oriented (edges : List (WeightedEdge W)) : Prop :=
  ∀ e ∈ edges, ∀ e' ∈ edges, ¬(e.source = e'.destination ∧ e.destination = e'.source)

/-- The edges that the outgoing arrays hold. -/
def decodeOut [Zero W] (g : CSR W) : List (WeightedEdge W) :=
  (List.range g.numVertices).flatMap fun u => (g.outEdges u).map fun p => ⟨g.ext u, g.ext p.1, p.2⟩

/-- The edges that the incoming arrays hold. -/
def decodeIn [Zero W] (g : CSR W) : List (WeightedEdge W) :=
  (List.range g.numVertices).flatMap fun v => (g.inEdges v).map fun p => ⟨g.ext p.1, g.ext v, p.2⟩

section Directed

variable {view : StreamView W} {edges : List (WeightedEdge W)} {d : Bool}

/-- The sorted vertices of a faithful view are numbered by the load. -/
theorem numbering_loadDirected (h : view.Faithful edges) (d : Bool) :
    Numbering (loadDirected d view).ext2log (loadDirected d view).log2ext ∧
      (loadDirected d view).log2ext.length = (loadDirected d view).numVertices ∧
      ∀ x, x ∈ (loadDirected d view).log2ext ↔ WeightedEdgeStream.IsEndpoint edges x := by
  set vertices := view.vertices.insertionSort (· ≤ ·) with hvertices
  have hperm : vertices.Perm view.vertices := List.perm_insertionSort _ _
  have hnodup : vertices.Nodup := hperm.nodup_iff.mpr h.nodup_vertices
  have hle : vertices.Pairwise (· ≤ ·) := List.pairwise_insertionSort _ _
  -- the vertices are numbered in their order
  obtain ⟨hlist, hlookup⟩ := mapVertices_spec hnodup
  have hlog2ext : (loadDirected d view).log2ext = vertices := hlist
  refine ⟨⟨?_, ?_⟩, by rw [hlog2ext]; rfl, fun x => ?_⟩
  · rw [hlog2ext]
    exact hlookup
  · rw [hlog2ext]
    exact (hle.and hnodup).imp fun h => lt_of_le_of_ne h.1 h.2
  · rw [hlog2ext, hperm.mem_iff, h.mem_vertices]

/-- The ends of the edges are numbered. -/
theorem ends_mem (h : view.Faithful edges) {l : List (WeightedEdge W)} (hl : l.Perm edges) :
    (∀ e ∈ l, e.source ∈ (loadDirected d view).log2ext) ∧
      ∀ e ∈ l, e.destination ∈ (loadDirected d view).log2ext := by
  obtain ⟨-, -, hmem⟩ := numbering_loadDirected h d
  refine ⟨fun e he => ?_, fun e he => ?_⟩
  · exact (hmem _).mpr ⟨e, hl.mem_iff.mp he, Or.inl rfl⟩
  · exact (hmem _).mpr ⟨e, hl.mem_iff.mp he, Or.inr rfl⟩

theorem ext_logical {g : CSR W} (hnum : Numbering g.ext2log g.log2ext) {x : ℕ}
    (hx : x ∈ g.log2ext) : g.ext (logical g.ext2log x) = x := by
  rw [CSR.ext, List.getD_eq_getElem?_getD, hnum.getElem?_logical hx, Option.getD_some]

theorem logical_ext {g : CSR W} (hnum : Numbering g.ext2log g.log2ext) {u : ℕ}
    (hu : u < g.log2ext.length) : logical g.ext2log (g.ext u) = u := by
  apply hnum.logical_of_getElem?
  rw [CSR.ext, List.getD_eq_getElem _ _ hu, List.getElem?_eq_getElem hu]

/-- The first edge of each pass does not belong to the vertex `2^64 - 1`. -/
structure Started (view : StreamView W) : Prop where
  source : ∀ e, view.bySrcDst.head? = some e → e.source ≠ noVertex
  destination : ∀ e, view.byDstSrc.head? = some e → e.destination ≠ noVertex

/-- The order of a sorted stream on its first component. -/
theorem le_of_toLex_le {a b c e : ℕ} (h : toLex (a, b) ≤ toLex (c, e)) : a ≤ c := by
  rw [Prod.Lex.toLex_le_toLex] at h
  exact h.elim le_of_lt fun h => h.1.le

/-- **The arrays of a directed graph** hold the edges of each vertex. -/
theorem grouped_loadDirected (h : view.Faithful edges) (hstart : Started view) :
    Grouped (loadDirected d view).numVertices
        ⟨(loadDirected d view).outV, (loadDirected d view).outE, (loadDirected d view).outW⟩
        (groupOf (loadDirected d view).ext2log WeightedEdge.source WeightedEdge.destination
          view.bySrcDst) ∧
      Grouped (loadDirected d view).numVertices
        ⟨(loadDirected d view).inV, (loadDirected d view).inE, (loadDirected d view).inW⟩
        (groupOf (loadDirected d view).ext2log WeightedEdge.destination WeightedEdge.source
          view.byDstSrc) := by
  obtain ⟨hnum, hlen, -⟩ := numbering_loadDirected h d
  constructor
  · have hpass := loadDirection_grouped hnum WeightedEdge.source WeightedEdge.destination
      (ends_mem h h.perm_src).1
      (h.sorted_src.imp fun hle => le_of_toLex_le hle) hstart.source
    rw [hlen] at hpass
    exact hpass
  · have hpass := loadDirection_grouped hnum WeightedEdge.destination WeightedEdge.source
      (ends_mem h h.perm_dst).2
      (h.sorted_dst.imp fun hle => le_of_toLex_le hle) hstart.destination
    rw [hlen] at hpass
    exact hpass

/-- An edge of a group, in external identifiers. -/
theorem mem_groupOf_iff {g : CSR W} (hnum : Numbering g.ext2log g.log2ext)
    {key other : WeightedEdge W → ℕ} {l : List (WeightedEdge W)}
    (hkey : ∀ e ∈ l, key e ∈ g.log2ext) (hother : ∀ e ∈ l, other e ∈ g.log2ext) {u v : ℕ}
    (hu : u < g.log2ext.length) (hv : v < g.log2ext.length) {w : W} :
    (v, w) ∈ groupOf g.ext2log key other l u ↔
      ∃ e ∈ l, key e = g.ext u ∧ other e = g.ext v ∧ e.weight = w := by
  rw [mem_groupOf]
  refine exists_congr fun e => and_congr_right fun he => ?_
  refine and_congr ⟨fun heq => ?_, fun heq => ?_⟩ (and_congr_left fun _ =>
    ⟨fun heq => ?_, fun heq => ?_⟩)
  · rw [← heq, ext_logical hnum (hkey e he)]
  · rw [heq, logical_ext hnum hu]
  · rw [← heq, ext_logical hnum (hother e he)]
  · rw [heq, logical_ext hnum hv]

/-- Decoding the groups of a sorted stream gives it back. -/
theorem flatMap_groupOf {g : CSR W} (hnum : Numbering g.ext2log g.log2ext)
    (key other : WeightedEdge W → ℕ) {l : List (WeightedEdge W)} {β : Type}
    (hkey : ∀ e ∈ l, key e ∈ g.log2ext) (hother : ∀ e ∈ l, other e ∈ g.log2ext)
    (hsorted : l.Pairwise fun e e' => key e ≤ key e') (f : ℕ → ℕ → W → β) :
    ((List.range g.log2ext.length).flatMap fun u =>
        (groupOf g.ext2log key other l u).map fun p => f (g.ext u) (g.ext p.1) p.2) =
      l.map fun e => f (key e) (other e) e.weight := by
  -- grouping a sorted list does not change it
  have hflat := flatMap_filter_of_sorted (fun e => logical g.ext2log (key e))
    (hsorted.imp_of_mem fun he he' hle => hnum.logical_le (hkey _ he) (hkey _ he') hle)
    (fun e he => hnum.logical_lt (hkey e he))
  nth_rewrite 2 [← hflat]
  rw [List.map_flatMap]
  refine List.flatMap_congr fun u _ => ?_
  rw [groupOf, List.map_map]
  refine List.map_congr_left fun e he => ?_
  obtain ⟨he, hu⟩ := List.mem_filter.mp he
  have hu' : logical g.ext2log (key e) = u := by simpa using hu
  simp only [Function.comp_apply]
  rw [ext_logical hnum (hother e he), ← hu', ext_logical hnum (hkey e he)]

/-- The group of a vertex in a stream sorted by `key` and `other`. -/
theorem sorted_groupOf {ext2log : AList fun _ : ℕ => ℕ} {vertices : List ℕ}
    (hnum : Numbering ext2log vertices) {key other : WeightedEdge W → ℕ}
    {l : List (WeightedEdge W)} (hkey : ∀ e ∈ l, key e ∈ vertices)
    (hother : ∀ e ∈ l, other e ∈ vertices)
    (hsorted : l.Pairwise fun e e' => toLex (key e, other e) ≤ toLex (key e', other e')) (u : ℕ) :
    (groupOf ext2log key other l u).Pairwise fun p q => p.1 ≤ q.1 := by
  rw [groupOf, List.pairwise_map]
  refine (hsorted.filter _).imp_of_mem fun {e e'} he he' hle => ?_
  obtain ⟨he, hu⟩ := List.mem_filter.mp he
  obtain ⟨he', hu'⟩ := List.mem_filter.mp he'
  -- within a group the keys are equal, and the other ends decide
  have heq : key e = key e' := by
    apply hnum.logical_inj (hkey e he) (hkey e' he')
    simp only [decide_eq_true_eq] at hu hu'
    rw [hu, hu']
  rw [Prod.Lex.toLex_le_toLex] at hle
  rcases hle with hlt | ⟨-, hle⟩
  · exact absurd heq hlt.ne
  · exact hnum.logical_le (hother e he) (hother e' he') hle

/-- Without repeated edges, the vertices of a group are distinct. -/
theorem distinct_groupOf {ext2log : AList fun _ : ℕ => ℕ} {vertices : List ℕ}
    (hnum : Numbering ext2log vertices) {key other : WeightedEdge W → ℕ}
    {l : List (WeightedEdge W)} (hkey : ∀ e ∈ l, key e ∈ vertices)
    (hother : ∀ e ∈ l, other e ∈ vertices)
    (hdistinct : l.Pairwise fun e e' => ¬(key e = key e' ∧ other e = other e')) (u : ℕ) :
    (groupOf ext2log key other l u).Pairwise fun p q => p.1 ≠ q.1 := by
  rw [groupOf, List.pairwise_map]
  refine (hdistinct.filter _).imp_of_mem fun {e e'} he he' hne heq => hne ?_
  obtain ⟨he, hu⟩ := List.mem_filter.mp he
  obtain ⟨he', hu'⟩ := List.mem_filter.mp he'
  simp only [decide_eq_true_eq] at hu hu'
  exact ⟨hnum.logical_inj (hkey e he) (hkey e' he') (hu.trans hu'.symm),
    hnum.logical_inj (hother e he) (hother e' he') heq⟩

/-- The neighbours in the arrays of a directed graph are vertices. -/
theorem wellFormed_loadDirected (h : view.Faithful edges) (hstart : Started view) :
    (loadDirected d view).WellFormed := by
  obtain ⟨hnum, hlen, -⟩ := numbering_loadDirected h d
  obtain ⟨hout, hinc⟩ := grouped_loadDirected (d := d) h hstart
  refine ⟨hout.layout fun u _ p hp => ?_, hinc.layout fun u _ p hp => ?_⟩
  · obtain ⟨e, he, -, hp, -⟩ := mem_groupOf.mp hp
    rw [← hp, ← hlen]
    exact hnum.logical_lt ((ends_mem h h.perm_src).2 e he)
  · obtain ⟨e, he, -, hp, -⟩ := mem_groupOf.mp hp
    rw [← hp, ← hlen]
    exact hnum.logical_lt ((ends_mem h h.perm_dst).1 e he)

variable [Zero W]

theorem outEdges_loadDirected (h : view.Faithful edges) (hstart : Started view) {u : ℕ}
    (hu : u < (loadDirected d view).numVertices) :
    (loadDirected d view).outEdges u = groupOf (loadDirected d view).ext2log WeightedEdge.source
      WeightedEdge.destination view.bySrcDst u :=
  (grouped_loadDirected h hstart).1.slice hu

theorem inEdges_loadDirected (h : view.Faithful edges) (hstart : Started view) {u : ℕ}
    (hu : u < (loadDirected d view).numVertices) :
    (loadDirected d view).inEdges u = groupOf (loadDirected d view).ext2log
      WeightedEdge.destination WeightedEdge.source view.byDstSrc u :=
  (grouped_loadDirected h hstart).2.slice hu

/-- **The outgoing edges** of a loaded graph are those of the stream. -/
theorem mem_outEdges_loadDirected (h : view.Faithful edges) (hstart : Started view)
    {u v : ℕ} (hu : u < (loadDirected d view).numVertices)
    (hv : v < (loadDirected d view).numVertices) {w : W} :
    (v, w) ∈ (loadDirected d view).outEdges u ↔
      ⟨(loadDirected d view).ext u, (loadDirected d view).ext v, w⟩ ∈ edges := by
  obtain ⟨hnum, hlen, -⟩ := numbering_loadDirected h d
  rw [outEdges_loadDirected h hstart hu, mem_groupOf_iff hnum
    (ends_mem h h.perm_src).1 (ends_mem h h.perm_src).2
    (hlen.symm ▸ hu) (hlen.symm ▸ hv)]
  simp only [h.perm_src.mem_iff]
  constructor
  · rintro ⟨e, he, hs, ht, hw⟩
    rwa [← hs, ← ht, ← hw]
  · exact fun he => ⟨_, he, rfl, rfl, rfl⟩

/-- **The incoming edges** of a loaded graph are those of the stream. -/
theorem mem_inEdges_loadDirected (h : view.Faithful edges) (hstart : Started view)
    {u v : ℕ} (hu : u < (loadDirected d view).numVertices)
    (hv : v < (loadDirected d view).numVertices) {w : W} :
    (u, w) ∈ (loadDirected d view).inEdges v ↔
      ⟨(loadDirected d view).ext u, (loadDirected d view).ext v, w⟩ ∈ edges := by
  obtain ⟨hnum, hlen, -⟩ := numbering_loadDirected h d
  rw [inEdges_loadDirected h hstart hv, mem_groupOf_iff hnum
    (ends_mem h h.perm_dst).2 (ends_mem h h.perm_dst).1
    (hlen.symm ▸ hv) (hlen.symm ▸ hu)]
  simp only [h.perm_dst.mem_iff]
  constructor
  · rintro ⟨e, he, ht, hs, hw⟩
    rwa [← hs, ← ht, ← hw]
  · exact fun he => ⟨_, he, rfl, rfl, rfl⟩

/-- **Decoding** the arrays gives back the stream, in the two orders. -/
theorem decode_loadDirected (h : view.Faithful edges) (hstart : Started view) :
    (loadDirected d view).decodeOut = view.bySrcDst ∧
      (loadDirected d view).decodeIn = view.byDstSrc := by
  obtain ⟨hnum, hlen, -⟩ := numbering_loadDirected h d
  constructor
  · have hall := flatMap_groupOf hnum WeightedEdge.source WeightedEdge.destination
      (l := view.bySrcDst)
      (ends_mem h h.perm_src).1 (ends_mem h h.perm_src).2
      (h.sorted_src.imp fun hle => le_of_toLex_le hle)
      (fun s t w => (⟨s, t, w⟩ : WeightedEdge W))
    rw [hlen, List.map_id'] at hall
    refine Eq.trans (List.flatMap_congr fun u hu => ?_) hall
    rw [outEdges_loadDirected h hstart (List.mem_range.mp hu)]
  · have hall := flatMap_groupOf hnum WeightedEdge.destination WeightedEdge.source
      (l := view.byDstSrc)
      (ends_mem h h.perm_dst).2 (ends_mem h h.perm_dst).1
      (h.sorted_dst.imp fun hle => le_of_toLex_le hle)
      (fun t s w => (⟨s, t, w⟩ : WeightedEdge W))
    rw [hlen, List.map_id'] at hall
    refine Eq.trans (List.flatMap_congr fun u hu => ?_) hall
    rw [inEdges_loadDirected h hstart (List.mem_range.mp hu)]

/-- The intervals of a directed graph are sorted. -/
theorem sorted_loadDirected (h : view.Faithful edges) (hstart : Started view) {u : ℕ}
    (hu : u < (loadDirected d view).numVertices) :
    ((loadDirected d view).outEdges u).Pairwise (fun p q => p.1 ≤ q.1) ∧
      ((loadDirected d view).inEdges u).Pairwise fun p q => p.1 ≤ q.1 := by
  obtain ⟨hnum, -, -⟩ := numbering_loadDirected h d
  rw [outEdges_loadDirected h hstart hu, inEdges_loadDirected h hstart hu]
  constructor
  · exact sorted_groupOf hnum
      (ends_mem h h.perm_src).1 (ends_mem h h.perm_src).2 h.sorted_src u
  · exact sorted_groupOf hnum
      (ends_mem h h.perm_dst).2 (ends_mem h h.perm_dst).1 h.sorted_dst u

/-- The intervals of a directed graph hold every neighbour once when no edge is repeated. -/
theorem distinct_loadDirected (h : view.Faithful edges) (hstart : Started view)
    (hsimple : Simple edges) {u : ℕ} (hu : u < (loadDirected d view).numVertices) :
    ((loadDirected d view).outEdges u).Pairwise (fun p q => p.1 ≠ q.1) ∧
      ((loadDirected d view).inEdges u).Pairwise fun p q => p.1 ≠ q.1 := by
  obtain ⟨hnum, -, -⟩ := numbering_loadDirected h d
  have hsymm : ∀ {e e' : WeightedEdge W},
      ¬(e.source = e'.source ∧ e.destination = e'.destination) →
      ¬(e'.source = e.source ∧ e'.destination = e.destination) :=
    fun hne heq => hne ⟨heq.1.symm, heq.2.symm⟩
  rw [outEdges_loadDirected h hstart hu, inEdges_loadDirected h hstart hu]
  constructor
  · exact distinct_groupOf hnum
      (ends_mem h h.perm_src).1 (ends_mem h h.perm_src).2
      ((h.perm_src.pairwise_iff hsymm).mpr hsimple.distinct) u
  · refine distinct_groupOf hnum
      (ends_mem h h.perm_dst).2 (ends_mem h h.perm_dst).1 ?_ u
    exact ((h.perm_dst.pairwise_iff hsymm).mpr hsimple.distinct).imp fun hne heq =>
      hne ⟨heq.2, heq.1⟩

end Directed

/-! ## Undirected graphs -/

section Merge

theorem mergeEdges_perm (out inc : List (ℕ × W)) : (mergeEdges out inc).Perm (out ++ inc) := by
  fun_induction mergeEdges out inc with
  | case1 inc => exact List.Perm.refl _
  | case2 out => simp
  | case3 o out i inc hlt ih => exact ih.cons o
  | case4 o out i inc hle ih => exact (ih.cons i).trans List.perm_middle.symm

/-- **The merge** of two increasing intervals without common vertices. -/
theorem mergeEdges_sorted (out inc : List (ℕ × W)) (hout : out.Pairwise fun p q => p.1 < q.1)
    (hinc : inc.Pairwise fun p q => p.1 < q.1) (hne : ∀ o ∈ out, ∀ i ∈ inc, o.1 ≠ i.1) :
    (mergeEdges out inc).Pairwise fun p q => p.1 < q.1 := by
  fun_induction mergeEdges out inc with
  | case1 inc => exact hinc
  | case2 out => exact hout
  | case3 o out i inc hlt ih =>
    obtain ⟨ho, hout'⟩ := List.pairwise_cons.mp hout
    obtain ⟨hi, -⟩ := List.pairwise_cons.mp hinc
    refine List.pairwise_cons.mpr ⟨fun p hp => ?_, ih hout' hinc fun x hx y hy =>
      hne x (List.mem_cons_of_mem o hx) y hy⟩
    -- the smaller head is below everything that is left of both lists
    rcases List.mem_append.mp ((mergeEdges_perm _ _).mem_iff.mp hp) with hp | hp
    · exact ho p hp
    · rcases List.mem_cons.mp hp with rfl | hp
      · exact hlt
      · exact hlt.trans (hi p hp)
  | case4 o out i inc hle ih =>
    obtain ⟨ho, -⟩ := List.pairwise_cons.mp hout
    obtain ⟨hi, hinc'⟩ := List.pairwise_cons.mp hinc
    -- equal heads are excluded
    have hlt : i.1 < o.1 := lt_of_le_of_ne (not_lt.mp hle)
      (hne o List.mem_cons_self i List.mem_cons_self).symm
    refine List.pairwise_cons.mpr ⟨fun p hp => ?_, ih hout hinc' fun x hx y hy =>
      hne x hx y (List.mem_cons_of_mem i hy)⟩
    rcases List.mem_append.mp ((mergeEdges_perm _ _).mem_iff.mp hp) with hp | hp
    · rcases List.mem_cons.mp hp with rfl | hp
      · exact hlt
      · exact hlt.trans (ho p hp)
    · exact hi p hp

theorem length_outEdges [Zero W] (g : CSR W) (v : ℕ) :
    (g.outEdges v).length = g.getOutDegree v := by
  simp [outEdges, length_indices, getOutDegree]

theorem length_inEdges [Zero W] (g : CSR W) (v : ℕ) : (g.inEdges v).length = g.getInDegree v := by
  simp [inEdges, length_indices, getInDegree]

theorem grouped_mergeDirections [Zero W] (g : CSR W) :
    Grouped g.numVertices g.mergeDirections fun v => mergeEdges (g.outEdges v) (g.inEdges v) := by
  refine ⟨?_, rfl, rfl⟩
  have hlen : ∀ v, (mergeEdges (g.outEdges v) (g.inEdges v)).length =
      g.getOutDegree v + g.getInDegree v := by
    intro v
    rw [(mergeEdges_perm _ _).length_eq, List.length_append, length_outEdges, length_inEdges]
  simp only [mergeDirections, hlen]

/-- The scan of `get_weight` finds the destination in an increasing interval. -/
theorem scanWeight_eq_some (destination : ℕ) (l : List (ℕ × W))
    (hl : l.Pairwise fun p q => p.1 < q.1) (w : W) :
    scanWeight destination l = some w ↔ (destination, w) ∈ l := by
  induction l with
  | nil => simp [scanWeight]
  | cons p rest ih =>
    obtain ⟨v, x⟩ := p
    obtain ⟨hv, hrest⟩ := List.pairwise_cons.mp hl
    -- past the destination there is no need to look
    have habove : v ≥ destination → (destination, w) ∉ rest := by
      intro hge hc
      have := hv _ hc
      simp only at this
      omega
    rw [scanWeight]
    split_ifs with hle heq
    · subst heq
      simp [habove (le_refl _), eq_comm]
    · simp [ih hrest, Ne.symm heq]
    · have hne : destination ≠ v := by omega
      simp [hne, habove (by omega)]

end Merge

section Undirected

variable [Zero W] {view : StreamView W} {edges : List (WeightedEdge W)}

theorem outEdges_loadUndirected {v : ℕ} (hv : v < (loadUndirected view).numVertices) :
    (loadUndirected view).outEdges v = mergeEdges ((loadDirected false view).outEdges v)
      ((loadDirected false view).inEdges v) :=
  (grouped_mergeDirections (loadDirected false view)).slice hv

/-- **The edges of an undirected graph** are those of the stream, in either orientation. -/
theorem mem_outEdges_loadUndirected (h : view.Faithful edges) (hstart : Started view) {u v : ℕ}
    (hu : u < (loadUndirected view).numVertices) (hv : v < (loadUndirected view).numVertices)
    {w : W} :
    (v, w) ∈ (loadUndirected view).outEdges u ↔
      ⟨(loadUndirected view).ext u, (loadUndirected view).ext v, w⟩ ∈ edges ∨
        ⟨(loadUndirected view).ext v, (loadUndirected view).ext u, w⟩ ∈ edges := by
  rw [outEdges_loadUndirected hu, (mergeEdges_perm _ _).mem_iff, List.mem_append]
  exact or_congr (mem_outEdges_loadDirected h hstart hu hv)
    (mem_inEdges_loadDirected h hstart hv hu)

theorem wellFormed_loadUndirected (h : view.Faithful edges) (hstart : Started view) :
    (loadUndirected view).WellFormed := by
  have hlayout : Layout (loadUndirected view).numVertices (loadUndirected view).outV
      (loadUndirected view).outE (loadUndirected view).outW := by
    refine (grouped_mergeDirections (loadDirected false view)).layout fun u hu p hp => ?_
    have hwf := wellFormed_loadDirected (d := false) h hstart
    rcases List.mem_append.mp ((mergeEdges_perm _ _).mem_iff.mp hp) with hp | hp
    · exact hwf.lt_of_mem_outNeighbours hu (mem_outNeighbours_iff.mpr ⟨p.2, hp⟩)
    · refine hwf.lt_of_mem_inNeighbours hu ?_
      have hfst : p.1 ∈ ((loadDirected false view).inEdges u).map Prod.fst :=
        List.mem_map_of_mem hp
      simpa [inEdges, inNeighbours] using hfst
  exact ⟨hlayout, hlayout⟩

/-- The intervals of an undirected graph are increasing. -/
theorem sorted_loadUndirected (h : view.Faithful edges) (hstart : Started view)
    (hsimple : Simple edges) (horiented : Oriented edges) {v : ℕ}
    (hv : v < (loadUndirected view).numVertices) :
    ((loadUndirected view).outEdges v).Pairwise fun p q => p.1 < q.1 := by
  obtain ⟨hle, hle'⟩ := sorted_loadDirected (d := false) h hstart hv
  obtain ⟨hne, hne'⟩ := distinct_loadDirected (d := false) h hstart hsimple hv
  have hwf := wellFormed_loadDirected (d := false) h hstart
  rw [outEdges_loadUndirected hv]
  refine mergeEdges_sorted _ _ ((hle.and hne).imp fun h => lt_of_le_of_ne h.1 h.2)
    ((hle'.and hne').imp fun h => lt_of_le_of_ne h.1 h.2) ?_
  -- a common vertex would be an edge in both orientations
  rintro ⟨x, w⟩ hx ⟨y, w'⟩ hy rfl
  have hxn := hwf.lt_of_mem_outNeighbours hv (mem_outNeighbours_iff.mpr ⟨w, hx⟩)
  have hout := (mem_outEdges_loadDirected h hstart hv hxn).mp hx
  have hinc := (mem_inEdges_loadDirected h hstart hxn hv).mp hy
  exact horiented _ hout _ hinc ⟨rfl, rfl⟩

/-- An undirected graph stores every edge twice. -/
theorem length_outE_loadUndirected (h : view.Faithful edges) (hstart : Started view) :
    (loadUndirected view).outE.length = 2 * (loadUndirected view).numEdges := by
  obtain ⟨hout, hinc⟩ := decode_loadDirected (d := false) h hstart
  have hlen : (loadUndirected view).outE.length =
      (loadDirected false view).decodeOut.length + (loadDirected false view).decodeIn.length := by
    change (loadDirected false view).mergeDirections.edgeArray.length = _
    rw [(grouped_mergeDirections (loadDirected false view)).length_edgeArray]
    simp only [groupStart, decodeOut, decodeIn, List.length_flatMap, List.length_map,
      (mergeEdges_perm _ _).length_eq, List.length_append, List.sum_map_add]
  rw [hlen, hout, hinc, h.perm_src.length_eq, h.perm_dst.length_eq]
  change _ = 2 * view.numEdges
  rw [h.numEdges]
  omega

end Undirected

/-! ## Loading is faithful -/

section Faithful

/-- The maps are inverse bijections between the vertices of the stream and their numbers. -/
structure VerticesMapped (g : CSR W) (edges : List (WeightedEdge W)) : Prop where
  length : g.log2ext.length = g.numVertices
  mem : ∀ x, x ∈ g.log2ext ↔ WeightedEdgeStream.IsEndpoint edges x
  inverse : ∀ x i, g.ext2log.lookup x = some i ↔ i < g.numVertices ∧ g.ext i = x

/-- A directed graph holds the edges of the stream and their transpose, in sorted intervals. -/
structure DirectedLoad [Zero W] (g : CSR W) (edges : List (WeightedEdge W)) : Prop where
  numEdges : g.numEdges = edges.length
  out_mono : g.outV.Pairwise (· ≤ ·)
  out_last : g.outV.getLastD 0 = g.numEdges
  out_sorted : ∀ u < g.numVertices, (g.outNeighbours u).Pairwise (· ≤ ·)
  out_edges : g.decodeOut.Perm edges
  in_mono : g.inV.Pairwise (· ≤ ·)
  in_last : g.inV.getLastD 0 = g.numEdges
  in_edges : g.decodeIn.Perm g.decodeOut

/-- An undirected graph holds every edge of the stream in both intervals, with its weight. -/
structure UndirectedLoad [Zero W] (g : CSR W) (edges : List (WeightedEdge W)) : Prop where
  sorted : ∀ v < g.numVertices, (g.outNeighbours v).Pairwise (· < ·)
  last : g.outV.getLastD 0 = 2 * g.numEdges
  entries : g.outE.length = 2 * g.numEdges
  symm : ∀ u < g.numVertices, ∀ v < g.numVertices, ∀ w,
    (v, w) ∈ g.outEdges u ↔ (u, w) ∈ g.outEdges v
  weight : ∀ a b w, g.getWeight a b = some w ↔ ⟨a, b, w⟩ ∈ edges ∨ ⟨b, a, w⟩ ∈ edges

variable {view : StreamView W} {edges : List (WeightedEdge W)}

theorem verticesMapped_loadDirected (h : view.Faithful edges) (d : Bool) :
    VerticesMapped (loadDirected d view) edges := by
  obtain ⟨hnum, hlen, hmem⟩ := numbering_loadDirected h d
  refine ⟨hlen, hmem, fun x i => ?_⟩
  rw [hnum.lookup_iff, ← hlen, CSR.ext]
  constructor
  · intro hi
    have hlt := (List.getElem?_eq_some_iff.mp hi).1
    exact ⟨hlt, by rw [List.getD_eq_getElem?_getD, hi, Option.getD_some]⟩
  · rintro ⟨hlt, rfl⟩
    rw [List.getD_eq_getElem _ _ hlt, List.getElem?_eq_getElem hlt]

variable [Zero W]

theorem directedLoad_loadDirected (h : view.Faithful edges) (hstart : Started view) (d : Bool) :
    DirectedLoad (loadDirected d view) edges := by
  have hwf := wellFormed_loadDirected (d := d) h hstart
  obtain ⟨hout, hinc⟩ := grouped_loadDirected (d := d) h hstart
  obtain ⟨hdecode, hdecode'⟩ := decode_loadDirected (d := d) h hstart
  have hnum : (loadDirected d view).numEdges = edges.length := h.numEdges
  -- there is one entry for each decoded edge
  have hlenOut : (loadDirected d view).outE.length = (loadDirected d view).decodeOut.length := by
    rw [hout.length_edgeArray, decodeOut, List.length_flatMap]
    refine congrArg List.sum (List.map_congr_left fun u hu => ?_)
    rw [List.length_map, outEdges_loadDirected h hstart (List.mem_range.mp hu)]
  have hlenIn : (loadDirected d view).inE.length = (loadDirected d view).decodeIn.length := by
    rw [hinc.length_edgeArray, decodeIn, List.length_flatMap]
    refine congrArg List.sum (List.map_congr_left fun u hu => ?_)
    rw [List.length_map, inEdges_loadDirected h hstart (List.mem_range.mp hu)]
  refine ⟨hnum, hwf.out.mono, ?_, fun u hu => ?_, hdecode ▸ h.perm_src, hwf.inc.mono, ?_, ?_⟩
  · rw [hwf.out.last, hlenOut, hdecode, h.perm_src.length_eq, hnum]
  · rw [← map_fst_outEdges, List.pairwise_map]
    exact (sorted_loadDirected h hstart hu).1
  · rw [hwf.inc.last, hlenIn, hdecode', h.perm_dst.length_eq, hnum]
  · rw [hdecode, hdecode']
    exact h.perm_dst.trans h.perm_src.symm

theorem undirectedLoad_loadUndirected (h : view.Faithful edges) (hstart : Started view)
    (hsimple : Simple edges) (horiented : Oriented edges) :
    UndirectedLoad (loadUndirected view) edges := by
  have hwf := wellFormed_loadUndirected h hstart
  have hlen := length_outE_loadUndirected h hstart
  have hmaps := verticesMapped_loadDirected h false
  refine ⟨fun v hv => ?_, by rw [hwf.out.last, hlen], hlen, fun u hu v hv w => ?_, fun a b w => ?_⟩
  · rw [← map_fst_outEdges, List.pairwise_map]
    exact sorted_loadUndirected h hstart hsimple horiented hv
  · rw [mem_outEdges_loadUndirected h hstart hu hv, mem_outEdges_loadUndirected h hstart hv hu,
      or_comm]
  · have hscan : (loadUndirected view).getWeight a b = some w ↔ ∃ i j,
        (loadDirected false view).ext2log.lookup a = some i ∧
        (loadDirected false view).ext2log.lookup b = some j ∧
        scanWeight j ((loadUndirected view).outEdges i) = some w := by
      simp only [getWeight, Option.bind_eq_bind, Option.bind_eq_some_iff]
      exact ⟨fun ⟨i, hi, j, hj, hw⟩ => ⟨i, j, hi, hj, hw⟩, fun ⟨i, j, hi, hj, hw⟩ =>
        ⟨i, hi, j, hj, hw⟩⟩
    rw [hscan]
    constructor
    · rintro ⟨i, j, hi, hj, hw⟩
      obtain ⟨hin, rfl⟩ := (hmaps.inverse a i).mp hi
      obtain ⟨hjn, rfl⟩ := (hmaps.inverse b j).mp hj
      rw [scanWeight_eq_some j _ (sorted_loadUndirected h hstart hsimple horiented hin)] at hw
      exact (mem_outEdges_loadUndirected h hstart hin hjn).mp hw
    · intro hw
      -- both endpoints are vertices of the stream
      have hvertex : ∀ x, WeightedEdgeStream.IsEndpoint edges x →
          ∃ i, (loadDirected false view).ext2log.lookup x = some i := by
        intro x hx
        obtain ⟨i, hi, hget⟩ := List.mem_iff_getElem.mp ((hmaps.mem x).mpr hx)
        refine ⟨i, (hmaps.inverse x i).mpr ⟨hmaps.length ▸ hi, ?_⟩⟩
        rw [CSR.ext, List.getD_eq_getElem _ _ hi, hget]
      have hends : WeightedEdgeStream.IsEndpoint edges a ∧
          WeightedEdgeStream.IsEndpoint edges b := by
        rcases hw with he | he
        · exact ⟨⟨_, he, Or.inl rfl⟩, ⟨_, he, Or.inr rfl⟩⟩
        · exact ⟨⟨_, he, Or.inr rfl⟩, ⟨_, he, Or.inl rfl⟩⟩
      obtain ⟨i, hi⟩ := hvertex a hends.1
      obtain ⟨j, hj⟩ := hvertex b hends.2
      obtain ⟨hin, rfl⟩ := (hmaps.inverse a i).mp hi
      obtain ⟨hjn, rfl⟩ := (hmaps.inverse b j).mp hj
      refine ⟨i, j, hi, hj, ?_⟩
      rw [scanWeight_eq_some j _ (sorted_loadUndirected h hstart hsimple horiented hin)]
      exact (mem_outEdges_loadUndirected h hstart hin hjn).mpr hw

/-- **Loading is faithful.** When `vertex_list` and the sorts return what they promise and no vertex
is `2^64 - 1`, both loads number the vertices of the stream, the directed one stores its edges and
their transpose, and the undirected one stores the edges of a simple stream in both directions. -/
theorem load_faithful (h : view.Faithful edges)
    (hids : ∀ x, WeightedEdgeStream.IsEndpoint edges x → x ≠ 2 ^ 64 - 1) :
    (∀ d, VerticesMapped (loadView d view) edges) ∧
    (∀ d, DirectedLoad (loadDirected d view) edges) ∧
    (Simple edges → Oriented edges → UndirectedLoad (loadUndirected view) edges) := by
  -- no endpoint is the sentinel, in particular not that of a first edge
  have hstart : Started view := by
    refine ⟨fun e he => hids _ ⟨e, h.perm_src.mem_iff.mp (List.mem_of_head? he), Or.inl rfl⟩,
      fun e he => hids _ ⟨e, h.perm_dst.mem_iff.mp (List.mem_of_head? he), Or.inr rfl⟩⟩
  refine ⟨fun d => ?_, directedLoad_loadDirected h hstart, undirectedLoad_loadUndirected h hstart⟩
  cases d with
  | true => exact verticesMapped_loadDirected h true
  | false =>
    have hmaps := verticesMapped_loadDirected h false
    exact ⟨hmaps.length, hmaps.mem, hmaps.inverse⟩

/-- The view of the stream with the edges from `20` to `10` and from `10` to `30`. -/
def sampleView : StreamView ℕ where
  numEdges := 2
  vertices := [20, 10, 30]
  bySrcDst := [⟨10, 30, 7⟩, ⟨20, 10, 5⟩]
  byDstSrc := [⟨20, 10, 5⟩, ⟨10, 30, 7⟩]

theorem sampleView_faithful : sampleView.Faithful [⟨20, 10, 5⟩, ⟨10, 30, 7⟩] where
  numEdges := rfl
  nodup_vertices := by decide
  mem_vertices := by
    intro x
    simp only [sampleView, WeightedEdgeStream.IsEndpoint, List.mem_cons, List.not_mem_nil, or_false,
      exists_eq_or_imp, exists_eq_left]
    tauto
  perm_src := List.Perm.swap _ _ _
  sorted_src := by simp [WeightedEdgeStream.Operation.Sorted, sampleView, Prod.Lex.toLex_le_toLex]
  perm_dst := List.Perm.refl _
  sorted_dst := by simp [WeightedEdgeStream.Operation.Sorted, sampleView, Prod.Lex.toLex_le_toLex]

theorem load_sampleView :
    (∀ d, VerticesMapped (loadView d sampleView) [⟨20, 10, 5⟩, ⟨10, 30, 7⟩]) ∧
    (∀ d, DirectedLoad (loadDirected d sampleView) [⟨20, 10, 5⟩, ⟨10, 30, 7⟩]) ∧
    (Simple [⟨20, 10, 5⟩, ⟨10, 30, 7⟩] → Oriented [⟨20, 10, 5⟩, ⟨10, 30, 7⟩] →
      UndirectedLoad (loadUndirected sampleView) [⟨20, 10, 5⟩, ⟨10, 30, 7⟩]) := by
  apply load_faithful sampleView_faithful
  rintro x ⟨e, he, hx⟩ rfl
  simp only [List.mem_cons, List.not_mem_nil, or_false] at he
  rcases he with rfl | rfl <;> norm_num at hx

end Faithful

end CSR

end GfeDriver
