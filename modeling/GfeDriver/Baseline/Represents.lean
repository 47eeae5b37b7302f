import GfeDriver.Baseline.AdjacencyListInvariant
import GfeDriver.Baseline.Csr

/-!
# One graph in two libraries

The compressed sparse row library names the vertices `0, …, n - 1` and keeps their external
identifiers in `log2ext`; the adjacency list uses the external identifiers directly. `Represents`
says that both hold the same vertices and the same weighted edges, in each direction. The kernels
of the two libraries are compared under this relation only, through the correspondence of the
vertices that `ext` makes.

## Main definitions

* `Represents g a`: the two libraries hold the same graph

## Main results

* `Represents.exists_ext`, `Represents.ext_inj`: the vertices correspond one to one
* `Represents.exists_of_mem_outgoing`: every edge of the adjacency list is one of the arrays
-/

namespace GfeDriver

/-- **The two libraries hold the same graph.** -/
structure Represents {W : Type} [Zero W] (g : CSR W) (a : AdjacencyList W) : Prop where
  wellFormed : g.WellFormed
  invariant : a.Invariant
  mode : a.isDirected = g.isDirected
  length_ext : g.log2ext.length = g.numVertices
  nodup_ext : g.log2ext.Nodup
  mem_nodes : ∀ x, x ∈ a.nodes ↔ x ∈ g.log2ext
  out : ∀ u < g.numVertices, ∀ v < g.numVertices, ∀ w,
    (v, w) ∈ g.outEdges u ↔ (g.ext v, w) ∈ a.outgoing (g.ext u)
  inc : ∀ u < g.numVertices, ∀ v < g.numVertices, ∀ w,
    (v, w) ∈ g.inEdges u ↔ (g.ext v, w) ∈ a.back (g.ext u)

namespace Represents

variable {W : Type} [Zero W] {g : CSR W} {a : AdjacencyList W}

theorem ext_mem (h : Represents g a) {v : ℕ} (hv : v < g.numVertices) : g.ext v ∈ a.nodes := by
  have hlen : v < g.log2ext.length := h.length_ext ▸ hv
  rw [h.mem_nodes, CSR.ext, List.getD_eq_getElem _ _ hlen]
  exact List.getElem_mem hlen

theorem exists_ext (h : Represents g a) {x : ℕ} (hx : x ∈ a.nodes) :
    ∃ v < g.numVertices, g.ext v = x := by
  obtain ⟨v, hv, rfl⟩ := List.mem_iff_getElem.mp ((h.mem_nodes x).mp hx)
  exact ⟨v, h.length_ext ▸ hv, List.getD_eq_getElem _ _ hv⟩

theorem ext_inj (h : Represents g a) {u v : ℕ} (hu : u < g.numVertices) (hv : v < g.numVertices)
    (heq : g.ext u = g.ext v) : u = v := by
  have hu' : u < g.log2ext.length := h.length_ext ▸ hu
  have hv' : v < g.log2ext.length := h.length_ext ▸ hv
  simp only [CSR.ext, List.getD_eq_getElem _ _ hu', List.getD_eq_getElem _ _ hv'] at heq
  exact (h.nodup_ext.getElem_inj_iff).mp heq

/-- An edge of the adjacency list leads to a vertex of the arrays. -/
theorem exists_of_mem_outgoing (h : Represents g a) {u : ℕ} (hu : u < g.numVertices) {y : ℕ} {w : W}
    (hy : (y, w) ∈ a.outgoing (g.ext u)) :
    ∃ v < g.numVertices, g.ext v = y ∧ (v, w) ∈ g.outEdges u := by
  have hpresent : y ∈ a.nodes :=
    h.invariant.present (g.ext u) y (Or.inl (EdgeList.mem_targets.mpr ⟨w, hy⟩))
  obtain ⟨v, hv, rfl⟩ := h.exists_ext hpresent
  exact ⟨v, hv, rfl, (h.out u hu v hv w).mpr hy⟩

end Represents

end GfeDriver
