import Mathlib.Data.List.AList
import Mathlib.Data.List.GetD
import Mathlib.Tactic
import GfeDriver.Graph.Edge

/-!
# The compressed sparse row library: representation

The vertex array of a direction holds, for each logical vertex, the end of its interval in the
edge array; the interval starts where the previous vertex's ends. The kernels only read these
arrays, through `getOutInterval` and `getInInterval`, so what they see of a graph is the list of
the neighbours of each vertex, in the order of the edge array.

## Main definitions

* `CSR W`: the arrays of a loaded graph
* `CSR.ext`: the external identifier of a logical vertex
* `getOutInterval`, `getInInterval`, `getOutDegree`, `getInDegree`: the intervals
* `outNeighbours`, `inNeighbours`, `outEdges`, `inEdges`: the entries of an interval
* `CSR.Layout`, `CSR.WellFormed`: the arrays describe a graph
* `CSR.Arc`: the edge relation on logical vertices

## Main results

* `length_outNeighbours`: the degree is the number of neighbours
* `WellFormed.lt_of_mem_outNeighbours`: neighbours are vertices
-/

namespace GfeDriver

/-- `CSR`: the fields of the class that hold the graph. In an undirected graph the incoming
arrays are aliases of the outgoing ones. -/
structure CSR (W : Type) where
  isDirected : Bool
  numVertices : ℕ
  numEdges : ℕ
  ext2log : AList fun _ : ℕ => ℕ
  log2ext : List ℕ
  outV : List ℕ
  outE : List ℕ
  outW : List W
  inV : List ℕ
  inE : List ℕ
  inW : List W

namespace CSR

variable {W : Type}

/-- `m_log2ext[v]`: the external identifier of a logical vertex. -/
def ext (g : CSR W) (v : ℕ) : ℕ := g.log2ext.getD v 0

/-- `CSR::get_interval_impl`. -/
def getIntervalImpl (vertexArray : List ℕ) (v : ℕ) : ℕ × ℕ :=
  if v = 0 then (0, vertexArray.getD 0 0)
  else (vertexArray.getD (v - 1) 0, vertexArray.getD v 0)

def getOutInterval (g : CSR W) (v : ℕ) : ℕ × ℕ := getIntervalImpl g.outV v

def getInInterval (g : CSR W) (v : ℕ) : ℕ × ℕ := getIntervalImpl g.inV v

def getOutDegree (g : CSR W) (v : ℕ) : ℕ := (g.getOutInterval v).2 - (g.getOutInterval v).1

def getInDegree (g : CSR W) (v : ℕ) : ℕ := (g.getInInterval v).2 - (g.getInInterval v).1

/-- The iterations of `for (i = interval.first; i < interval.second; i++)`. -/
def indices (interval : ℕ × ℕ) : List ℕ := List.range' interval.1 (interval.2 - interval.1)

/-- The targets of the outgoing edges of `v`, in the order of `m_out_e`. -/
def outNeighbours (g : CSR W) (v : ℕ) : List ℕ :=
  (indices (g.getOutInterval v)).map fun i => g.outE.getD i 0

/-- The sources of the incoming edges of `v`, in the order of `m_in_e`. -/
def inNeighbours (g : CSR W) (v : ℕ) : List ℕ :=
  (indices (g.getInInterval v)).map fun i => g.inE.getD i 0

/-- The outgoing edges of `v`, each with its weight. -/
def outEdges [Zero W] (g : CSR W) (v : ℕ) : List (ℕ × W) :=
  (indices (g.getOutInterval v)).map fun i => (g.outE.getD i 0, g.outW.getD i 0)

/-- The incoming edges of `v`, each with its weight. -/
def inEdges [Zero W] (g : CSR W) (v : ℕ) : List (ℕ × W) :=
  (indices (g.getInInterval v)).map fun i => (g.inE.getD i 0, g.inW.getD i 0)

/-- The arrays of one direction describe a graph with `n` vertices: the ends of the intervals
increase up to the number of entries, and every entry is a vertex. -/
structure Layout (n : ℕ) (vertexArray edgeArray : List ℕ) (weightArray : List W) : Prop where
  length_vertices : vertexArray.length = n
  mono : vertexArray.Pairwise (· ≤ ·)
  last : vertexArray.getLastD 0 = edgeArray.length
  length_weights : weightArray.length = edgeArray.length
  entry_lt : ∀ x ∈ edgeArray, x < n

/-- The arrays of both directions describe a graph. -/
structure WellFormed (g : CSR W) : Prop where
  out : Layout g.numVertices g.outV g.outE g.outW
  inc : Layout g.numVertices g.inV g.inE g.inW

/-- The incoming arrays are the transpose of the outgoing ones. -/
def Transposed (g : CSR W) : Prop :=
  ∀ u < g.numVertices, ∀ v < g.numVertices, u ∈ g.inNeighbours v ↔ v ∈ g.outNeighbours u

/-- An edge from the vertex `u` to `v`. -/
def Arc (g : CSR W) (u v : ℕ) : Prop := u < g.numVertices ∧ v ∈ g.outNeighbours u

instance (g : CSR W) (u v : ℕ) : Decidable (g.Arc u v) :=
  inferInstanceAs (Decidable (_ ∧ _))

/-! ## Intervals -/

theorem length_indices (p : ℕ × ℕ) : (indices p).length = p.2 - p.1 := by
  simp [indices]

theorem length_outNeighbours (g : CSR W) (v : ℕ) :
    (g.outNeighbours v).length = g.getOutDegree v := by
  simp [outNeighbours, length_indices, getOutDegree]

theorem map_fst_outEdges [Zero W] (g : CSR W) (v : ℕ) :
    (g.outEdges v).map Prod.fst = g.outNeighbours v := by
  simp [outEdges, outNeighbours]

theorem mem_outNeighbours_iff [Zero W] {g : CSR W} {u v : ℕ} :
    v ∈ g.outNeighbours u ↔ ∃ w, (v, w) ∈ g.outEdges u := by
  rw [← map_fst_outEdges]
  simp

theorem mem_inNeighbours_iff [Zero W] {g : CSR W} {u v : ℕ} :
    u ∈ g.inNeighbours v ↔ ∃ w, (u, w) ∈ g.inEdges v := by
  have hmap : (g.inEdges v).map Prod.fst = g.inNeighbours v := by simp [inEdges, inNeighbours]
  rw [← hmap]
  simp

namespace Layout

variable {n : ℕ} {vertexArray edgeArray : List ℕ} {weightArray : List W}

/-- The interval of a vertex lies in the edge array. -/
theorem interval_le (h : Layout n vertexArray edgeArray weightArray) {v : ℕ} (hv : v < n) :
    (getIntervalImpl vertexArray v).1 ≤ (getIntervalImpl vertexArray v).2 ∧
      (getIntervalImpl vertexArray v).2 ≤ edgeArray.length := by
  have hlen := h.length_vertices
  have hvlen : v < vertexArray.length := by omega
  -- the ends of the intervals increase, up to the number of edges
  have hmono : ∀ i j (hij : i ≤ j) (hj : j < vertexArray.length),
      vertexArray.getD i 0 ≤ vertexArray.getD j 0 := by
    intro i j hij hj
    rw [List.getD_eq_getElem _ _ (by omega), List.getD_eq_getElem _ _ hj]
    rcases Nat.lt_or_eq_of_le hij with hlt | rfl
    · exact List.pairwise_iff_getElem.mp h.mono i j _ _ hlt
    · exact le_refl _
  have hlast : vertexArray.getD v 0 ≤ edgeArray.length := by
    have hne : vertexArray ≠ [] := List.ne_nil_of_length_pos (by omega)
    rw [← h.last, List.getLastD_eq_getLast?, List.getLast?_eq_getElem?,
      ← List.getD_eq_getElem?_getD]
    exact hmono v _ (by omega) (by omega)
  unfold getIntervalImpl
  split_ifs with hv0
  · subst hv0
    exact ⟨Nat.zero_le _, hlast⟩
  · exact ⟨hmono _ _ (by omega) hvlen, hlast⟩

theorem lt_of_mem (h : Layout n vertexArray edgeArray weightArray) {v : ℕ} (hv : v < n) {x : ℕ}
    (hx : x ∈ (indices (getIntervalImpl vertexArray v)).map fun i => edgeArray.getD i 0) :
    x < n := by
  obtain ⟨i, hi, rfl⟩ := List.mem_map.mp hx
  have hle := h.interval_le hv
  have hi' : i < edgeArray.length := by
    simp only [indices, List.mem_range'_1] at hi
    omega
  simp only [List.getD_eq_getElem _ _ hi']
  exact h.entry_lt _ (List.getElem_mem hi')

end Layout

theorem WellFormed.lt_of_mem_outNeighbours {g : CSR W} (h : g.WellFormed) {u v : ℕ}
    (hu : u < g.numVertices) (hv : v ∈ g.outNeighbours u) : v < g.numVertices :=
  h.out.lt_of_mem hu hv

theorem WellFormed.lt_of_mem_inNeighbours {g : CSR W} (h : g.WellFormed) {u v : ℕ}
    (hu : u < g.numVertices) (hv : v ∈ g.inNeighbours u) : v < g.numVertices :=
  h.inc.lt_of_mem hu hv

theorem WellFormed.arc_lt {g : CSR W} (h : g.WellFormed) {u v : ℕ} (ha : g.Arc u v) :
    v < g.numVertices :=
  h.lt_of_mem_outNeighbours ha.1 ha.2

/-! ## A small graph -/

/-- The path from `0` to `2` through `1`, with the same weight on both edges; the external
identifiers are `10`, `20` and `30`. -/
def path (w : W) : CSR W where
  isDirected := true
  numVertices := 3
  numEdges := 2
  ext2log := [⟨10, 0⟩, ⟨20, 1⟩, ⟨30, 2⟩].toAList
  log2ext := [10, 20, 30]
  outV := [1, 2, 2]
  outE := [1, 2]
  outW := [w, w]
  inV := [0, 1, 2]
  inE := [0, 1]
  inW := [w, w]

theorem path_wellFormed (w : W) : (path w).WellFormed where
  out := ⟨rfl, by simp [path], rfl, rfl, by simp [path]⟩
  inc := ⟨rfl, by simp [path], rfl, rfl, by simp [path]⟩

theorem path_transposed (w : W) : (path w).Transposed := by
  intro u hu v hv
  change u < 3 at hu
  change v < 3 at hv
  interval_cases u <;> interval_cases v <;>
    simp [path, inNeighbours, outNeighbours, indices, getInInterval, getOutInterval,
      getIntervalImpl]

end CSR

end GfeDriver
