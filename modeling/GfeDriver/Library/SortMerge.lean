import Mathlib.Combinatorics.SimpleGraph.Basic
import GfeDriver.Baseline.AdjacencyListLcc
import GfeDriver.Library.ProcessVertex

/-!
# Two workers that merge sorted neighbours

`CSR_LCC` iterates over intervals of its edge array, and the worker of Sortledton over the blocks of
the library with a macro. On a simple undirected graph whose neighbours are visited in order, both
find every triangle once from its largest corner, with the marker always in range.

## Main definitions

* `CSR.iteration`, `CSR.Worker.processVertex`: the worker of `CSR_LCC`
* `Sortledton.TopologyInterface`, `Sortledton.Worker.processVertex`: the worker of Sortledton
* `MergesTriangles`: the marker is in range, and every triangle is credited once

## Main results

* `CSR.Worker.processVertex_eq`, `Sortledton.Worker.processVertex_eq`: the increments are those of
  the merge of lists, so that the two workers agree
* `workers_mergeTriangles`: both workers find every triangle once
-/

namespace GfeDriver

open Foundation ProcessVertex

/-! ## The worker of `CSR_LCC` -/

section Baseline

variable {W : Type}

/-- The iterations over the intervals of `m_out_e`, which a `break` leaves. -/
def CSR.iteration (g : CSR W) : Iteration where
  neighbours := g.outNeighbours
  afterBreak := fun _ => []

/-- `CSR_LCC::Worker::process_vertex`. -/
def CSR.Worker.processVertex (g : CSR W) (n1 fuel : ℕ) : Option (List (ℕ × ℕ)) :=
  ProcessVertex.processVertex g.iteration n1 fuel

theorem CSR.SimpleUndirected.iteration {g : CSR W} (hg : g.SimpleUndirected) :
    g.iteration.Simple g.numVertices where
  lt _ hu _ hv := hg.wellFormed.lt_of_mem_outNeighbours hu hv
  sorted := hg.sorted
  symm u hu v hv := (hg.symm u v ⟨hu, hv⟩).2
  loopless _ hu := hg.self_not_mem hu

theorem CSR.SimpleUndirected.processVertex_eq_credits {g : CSR W} (hg : g.SimpleUndirected)
    {n1 : ℕ} (hn1 : n1 < g.numVertices) :
    g.processVertex n1 = credits n1 (triangleList g.outNeighbours n1) := by
  rw [← CSR.triangleMatches_eq hg hn1]
  rfl

/-- **The machine refines the merge of lists**: it issues the same increments in the same order. -/
theorem CSR.Worker.processVertex_eq {g : CSR W} (hg : g.SimpleUndirected) {n1 : ℕ}
    (hn1 : n1 < g.numVertices) :
    ∃ k, ∀ fuel, k ≤ fuel → CSR.Worker.processVertex g n1 fuel = some (g.processVertex n1) := by
  rw [hg.processVertex_eq_credits hn1]
  exact ProcessVertex.processVertex_eq hg.iteration hn1

end Baseline

/-! ## The worker of Sortledton -/

namespace Sortledton

/-- What the worker reads of a topology: the vertices that `SORTLEDTON_ITERATE_NAMED` visits, and
what a `break` in its body leaves of them. -/
structure TopologyInterface where
  vertexCount : ℕ
  iterate : ℕ → List ℕ
  afterBreak : List ℕ → List ℕ

/-- **The macro visits the neighbours** in the graph `G`, in increasing order. -/
structure TopologyInterface.Visits (ds : TopologyInterface) (G : SimpleGraph ℕ) : Prop where
  lt : ∀ u v, G.Adj u v → v < ds.vertexCount
  mem : ∀ u < ds.vertexCount, ∀ v, v ∈ ds.iterate u ↔ G.Adj u v
  sorted : ∀ u < ds.vertexCount, (ds.iterate u).Pairwise (· < ·)

def TopologyInterface.iteration (ds : TopologyInterface) : Iteration where
  neighbours := ds.iterate
  afterBreak := ds.afterBreak

/-- `GFELCC`'s `Worker::process_vertex`. -/
def Worker.processVertex (ds : TopologyInterface) (n1 fuel : ℕ) : Option (List (ℕ × ℕ)) :=
  ProcessVertex.processVertex ds.iteration n1 fuel

theorem TopologyInterface.Visits.iteration {ds : TopologyInterface} {G : SimpleGraph ℕ}
    (h : ds.Visits G) : ds.iteration.Simple ds.vertexCount where
  lt u hu v hv := h.lt u v ((h.mem u hu v).mp hv)
  sorted := h.sorted
  symm u hu v hv := by
    have hadj := (h.mem u hu v).mp hv
    exact (h.mem v (h.lt u v hadj) u).mpr hadj.symm
  loopless u hu hmem := G.irrefl ((h.mem u hu u).mp hmem)

/-- The neighbours that the macro visits are those of the compressed sparse rows of the graph. -/
theorem TopologyInterface.Visits.iterate_eq {ds : TopologyInterface} {G : SimpleGraph ℕ}
    (h : ds.Visits G) {W : Type} {g : CSR W} (hg : g.SimpleUndirected)
    (hn : ds.vertexCount = g.numVertices) (hsame : ∀ u v, G.Adj u v ↔ g.Arc u v) {u : ℕ}
    (hu : u < g.numVertices) : ds.iterate u = g.outNeighbours u := by
  refine (h.sorted u (hn ▸ hu)).eq_of_mem_iff (hg.sorted u hu) fun v => ?_
  rw [h.mem u (hn ▸ hu), hsame]
  exact ⟨fun harc => harc.2, fun hv => ⟨hu, hv⟩⟩

/-- **The worker of Sortledton issues the increments of the baseline** on the same graph. -/
theorem Worker.processVertex_eq {ds : TopologyInterface} {G : SimpleGraph ℕ} (h : ds.Visits G)
    {W : Type} {g : CSR W} (hg : g.SimpleUndirected) (hn : ds.vertexCount = g.numVertices)
    (hsame : ∀ u v, G.Adj u v ↔ g.Arc u v) {n1 : ℕ} (hn1 : n1 < g.numVertices) :
    ∃ k, ∀ fuel, k ≤ fuel → Worker.processVertex ds n1 fuel = some (g.processVertex n1) := by
  have hlist : triangleList ds.iterate n1 = triangleList g.outNeighbours n1 := by
    refine triangleList_congr (h.iterate_eq hg hn hsame hn1) fun b hb => ?_
    exact h.iterate_eq hg hn hsame (hn ▸ h.lt n1 b ((h.mem n1 (hn ▸ hn1) b).mp hb))
  rw [hg.processVertex_eq_credits hn1, ← hlist]
  exact ProcessVertex.processVertex_eq h.iteration (hn ▸ hn1)

end Sortledton

/-! ## Every triangle once -/

/-- **The merge finds the triangles** with the largest corner `n1`: in every state that the function
goes through the marker is in range, and at its end, which it reaches, it has credited each triple
of adjacent vertices `n1 > n2 > n3` once. -/
structure MergesTriangles (it : Iteration) (adj : ℕ → ℕ → Prop) (n1 : ℕ) : Prop where
  inRange : ∀ s, Reachable it n1 s → MarkerInRange it n1 s
  credited : ∃ found : List (ℕ × ℕ), found.Nodup ∧
    (∀ n2 n3, (n2, n3) ∈ found ↔ n1 > n2 ∧ n2 > n3 ∧ adj n1 n2 ∧ adj n1 n3 ∧ adj n2 n3) ∧
    ∃ k, ∀ fuel, k ≤ fuel → processVertex it n1 fuel = some (credits n1 found)

theorem ProcessVertex.Iteration.Simple.mergesTriangles {it : Iteration} {n : ℕ} (hit : it.Simple n)
    {adj : ℕ → ℕ → Prop} (hadj : ∀ u < n, ∀ v, v ∈ it.neighbours u ↔ adj u v) {n1 : ℕ}
    (hn1 : n1 < n) : MergesTriangles it adj n1 where
  inRange s hs := .of_reachable hit hn1 hs
  credited := by
    have hnodup : ∀ u < n, (it.neighbours u).Nodup := fun u hu =>
      (hit.sorted u hu).imp fun h => h.ne
    refine ⟨triangleList it.neighbours n1, ?_, fun n2 n3 => ?_, processVertex_eq hit hn1⟩
    · exact nodup_triangleList (hnodup n1 hn1) fun n2 hn2 => hnodup n2 (hit.lt n1 hn1 n2 hn2)
    · rw [mem_triangleList (hit.loopless n1 hn1) fun b hb => hit.loopless b (hit.lt n1 hn1 b hb),
        hadj n1 hn1, hadj n1 hn1]
      constructor
      · rintro ⟨h21, h32, h12, h13, h23⟩
        exact ⟨h21, h32, h12, h13, (hadj n2 (h21.trans hn1) n3).mp h23⟩
      · rintro ⟨h21, h32, h12, h13, h23⟩
        exact ⟨h21, h32, h12, h13, (hadj n2 (lt_trans h21 hn1) n3).mpr h23⟩

/-- **Both workers merge every triangle**, on every simple undirected graph whose neighbours they
visit in order. -/
theorem workers_mergeTriangles (W : Type) :
    (∀ g : CSR W, g.SimpleUndirected → ∀ n1 < g.numVertices,
      MergesTriangles g.iteration g.Arc n1) ∧
    ∀ (ds : Sortledton.TopologyInterface) (G : SimpleGraph ℕ), ds.Visits G →
      ∀ n1 < ds.vertexCount, MergesTriangles ds.iteration G.Adj n1 := by
  refine ⟨fun g hg n1 hn1 => ?_, fun ds G h n1 hn1 => ?_⟩
  · refine hg.iteration.mergesTriangles (fun u hu v => ?_) hn1
    exact ⟨fun hv => ⟨hu, hv⟩, fun harc => harc.2⟩
  · exact h.iteration.mergesTriangles h.mem hn1

/-- The complete graph on three vertices, in blocks of two. -/
def Sortledton.triangle : Sortledton.TopologyInterface where
  vertexCount := 3
  iterate u := (List.range 3).filter (· ≠ u)
  afterBreak l := l.drop 1

theorem Sortledton.triangle_visits :
    Sortledton.triangle.Visits (SimpleGraph.fromRel fun u v => u < 3 ∧ v < 3) where
  lt := by
    rintro u v ⟨-, h | h⟩
    · exact h.2
    · exact h.1
  mem u hu v := by
    have hu' : u < 3 := hu
    simp only [Sortledton.triangle, List.mem_filter, List.mem_range, SimpleGraph.fromRel_adj,
      decide_eq_true_eq]
    constructor
    · rintro ⟨hv, hne⟩
      exact ⟨hne.symm, .inl ⟨hu', hv⟩⟩
    · rintro ⟨hne, h | h⟩
      · exact ⟨h.2, hne.symm⟩
      · exact ⟨h.1, hne.symm⟩
  sorted u _ := List.pairwise_lt_range.filter _

theorem workers_mergeTriangles_triangle :
    MergesTriangles CSR.triangle.iteration CSR.triangle.Arc 2 ∧
      MergesTriangles Sortledton.triangle.iteration
        (SimpleGraph.fromRel fun u v => u < 3 ∧ v < 3).Adj 2 :=
  ⟨(workers_mergeTriangles ℕ).1 CSR.triangle CSR.triangle_simple 2 (by decide),
    (workers_mergeTriangles ℕ).2 Sortledton.triangle _ Sortledton.triangle_visits 2 (by decide)⟩

end GfeDriver
