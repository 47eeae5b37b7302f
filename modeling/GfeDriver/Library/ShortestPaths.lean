import GfeDriver.Baseline.AdjacencyListSssp
import GfeDriver.Llama.Sssp
import GfeDriver.Stinger.ShortestPaths

/-!
# Shortest paths in three libraries

LLAMA makes passes over the nodes, Stinger searches with a queue that keeps entries which are out of
date, and the adjacency list settles one vertex after the other. All three end with the least weight
of a path for each vertex, so that they agree on the same graph. Weights are exact, and infinity is
above all of them.

## Main definitions

* `SameGraph`: an adjacency list holds the graph of another library
* `AgreesWith`: distances are those of the adjacency list

## Main results

* `SameGraph.agreesWith`: least weights are the distances of the adjacency list
* `shortestPaths_agree`: LLAMA and Stinger are correct, and agree with the adjacency list
-/

namespace GfeDriver

open Foundation

/-- **An adjacency list holds the same graph** as a library whose vertices are those in `D`, with
the external identifiers `name`, and whose edges are `E`. -/
structure SameGraph (D : ℕ → Prop) (name : ℕ → ℕ) (E : ℕ → ℕ → ℚ≥0 → Prop)
    (a : AdjacencyList ℚ≥0) : Prop where
  consistent : a.Consistent
  name_inj : ∀ u v, D u → D v → name u = name v → u = v
  mem_nodes : ∀ x, x ∈ a.nodes ↔ ∃ v, D v ∧ name v = x
  ends : ∀ u v w, E u v w → D u ∧ D v
  edges : ∀ u v, D u → D v → ∀ w, (name v, w) ∈ a.outgoing (name u) ↔ E u v w

/-- **The distances of the adjacency list**, for every order in which its queue breaks ties. -/
def AgreesWith (D : ℕ → Prop) (name : ℕ → ℕ) (a : AdjacencyList ℚ≥0) (source : ℕ)
    (dist : ℕ → WithTop ℚ≥0) : Prop :=
  ∀ pq : PriorityQueue, ∃ s, (∃ k, ∀ fuel, k ≤ fuel → a.sssp pq (name source) fuel = some s) ∧
    ∀ v, D v → s.distances (name v) = dist v

/-- **Least weights** are the distances of the adjacency list. -/
theorem SameGraph.agreesWith {D : ℕ → Prop} {name : ℕ → ℕ} {E : ℕ → ℕ → ℚ≥0 → Prop}
    {a : AdjacencyList ℚ≥0} (h : SameGraph D name E a) {source : ℕ} (hsource : D source)
    {dist : ℕ → WithTop ℚ≥0} (hmin : ∀ v, D v → IsMinWeight E source v (dist v)) :
    AgreesWith D name a source dist := by
  intro pq
  have hmem : ∀ {v}, D v → name v ∈ a.nodes := fun hv => (h.mem_nodes _).mpr ⟨_, hv, rfl⟩
  obtain ⟨s, hrun, hmin'⟩ := AdjacencyList.sssp_isMinWeight h.consistent (hmem hsource) pq
  refine ⟨s, hrun, fun v hv => (hmin' _ (hmem hv)).unique ?_⟩
  refine (hmin v hv).map (D := D) hsource h.name_inj (fun u x w he => ?_) (fun u y w hu hy => ?_) hv
  · obtain ⟨hu, hx⟩ := h.ends u x w he
    exact (h.edges u x hu hx w).mpr he
  · have hy' : y ∈ a.nodes :=
      h.consistent.present (name u) y (Or.inl (EdgeList.mem_targets.mpr ⟨w, hy⟩))
    obtain ⟨x, hx, rfl⟩ := (h.mem_nodes y).mp hy'
    exact ⟨x, hx, rfl, (h.edges u x hu hx w).mp hy⟩

/-- The registered vertices. -/
def Stinger.Graph.Registered (g : Stinger.Graph) (v : ℕ) : Prop := v < g.nv

/-- **LLAMA and Stinger compute shortest distances.** For every order of the nodes in the passes of
LLAMA, and for every order in which the queue of Stinger breaks ties, every run ends. For each
vertex it gives the least weight of a path, or the least number of edges when the weights are
ignored, and infinity when there is no path. On the same graph the adjacency list computes the same
distances. -/
theorem shortestPaths_agree :
    (∀ (g : Llama.Snapshot) (len : ℕ → ℚ≥0) (isUndirected : Bool), g.WellFormed →
      ∀ root < g.maxNodes, EndsIn (Llama.Pass g len isUndirected)
        (fun s =>
          (∀ v < g.maxNodes, IsMinWeight (g.Travel len isUndirected) root v (s.gDist v)) ∧
          ∀ a, g.nodeExists root → SameGraph g.Node g.name (g.Travel len isUndirected) a →
            AgreesWith g.Node g.name a root s.gDist)
        (Llama.Sssp.init root)) ∧
    ∀ (g : Stinger.Graph) (ignoreWeights : Bool) (NV : ℕ), g.nv ≤ NV → ∀ source < g.nv,
      EndsIn (Stinger.Step g (-1) ignoreWeights)
        (fun c => ∃ costSoFar, c = .returned costSoFar ∧
          (∀ v < NV, if ignoreWeights then IsFewestEdges g.Adj source v (costSoFar.getD v ⊤)
            else IsMinWeight g.Arc source v (costSoFar.getD v ⊤)) ∧
          ∀ a, SameGraph g.Registered g.name (g.Counted ignoreWeights) a →
            AgreesWith g.Registered g.name a source fun v => costSoFar.getD v ⊤)
        (Stinger.start NV source) := by
  constructor
  · intro g len isUndirected hg root hroot
    refine (Llama.llamaExecuteSssp_isMinWeight hg hroot).imp fun s hmin => ?_
    exact ⟨fun v _ => hmin v, fun a hex h => h.agreesWith ⟨hroot, hex⟩ fun v _ => hmin v⟩
  · intro g ignoreWeights NV hNV source hsource
    have hbounds : ∀ u, ∀ e ∈ g.outEdges u, e.1 < NV :=
      fun u e he => (g.ends u e he).2.trans_le hNV
    refine (Stinger.aStar_isMinWeight (hsource.trans_le hNV) hbounds).imp ?_
    rintro c ⟨costSoFar, rfl, -, hmin⟩
    refine ⟨costSoFar, rfl, fun v _ => ?_, fun a h => h.agreesWith hsource fun v _ => hmin v⟩
    cases ignoreWeights with
    | true => exact IsMinWeight.isFewestEdges (hmin v)
    | false => exact hmin v

/-! ## One edge -/

/-- The adjacency list of the edge from `10` to `20`, of the weight `1`. -/
def oneEdgeList : AdjacencyList ℚ≥0 :=
  (((AdjacencyList.empty true).emplace 10).emplace 20).addEdge0 ⟨10, 20, 1⟩

theorem sameGraph_oneEdgeList {D : ℕ → Prop} {name : ℕ → ℕ} {E : ℕ → ℕ → ℚ≥0 → Prop}
    (hD : ∀ v, D v ↔ v = 0 ∨ v = 1) (hname : name 0 = 10 ∧ name 1 = 20)
    (hE : ∀ u v w, E u v w ↔ u = 0 ∧ v = 1 ∧ w = 1) : SameGraph D name E oneEdgeList := by
  set base : AdjacencyList ℚ≥0 := ((AdjacencyList.empty true).emplace 10).emplace 20
  have hbase : base.Invariant := ((AdjacencyList.Invariant.empty true).emplace 10).emplace 20
  have hnone : ∀ x, base.outgoing x = [] := fun x =>
    (AdjacencyList.outgoing_emplace _ 20 x).1.trans (AdjacencyList.outgoing_emplace _ 10 x).1
  have hnodes : ∀ x, x ∈ base.nodes ↔ x = 20 ∨ x = 10 := by
    simp [base, AdjacencyList.empty]
  have hdirected : base.isDirected = true := rfl
  have hout : ∀ x y w, (y, w) ∈ oneEdgeList.outgoing x ↔ x = 10 ∧ y = 20 ∧ w = 1 := by
    intro x y w
    rw [oneEdgeList, AdjacencyList.mem_outgoing_addEdge0 hbase.toConsistent (by decide), hnone]
    simp [AdjacencyList.edgeKey_eq_iff, hdirected, and_assoc]
  have hmem : ∀ x, x ∈ oneEdgeList.nodes ↔ x = 20 ∨ x = 10 := by
    intro x
    rw [oneEdgeList, AdjacencyList.mem_nodes_addEdge0, hnodes]
    tauto
  refine ⟨(hbase.addEdge0 (by decide) ((hnodes 10).mpr (Or.inr rfl))
    ((hnodes 20).mpr (Or.inl rfl))).toConsistent, fun u v hu hv heq => ?_, fun x => ?_,
    fun u v w he => ?_, fun u v hu hv w => ?_⟩
  · rcases (hD u).mp hu with rfl | rfl <;> rcases (hD v).mp hv with rfl | rfl
    · rfl
    · rw [hname.1, hname.2] at heq
      cases heq
    · rw [hname.1, hname.2] at heq
      cases heq
    · rfl
  · rw [hmem]
    simp only [hD, or_and_right, exists_or, exists_eq_left, hname.1, hname.2]
    exact or_comm.trans (or_congr eq_comm eq_comm)
  · obtain ⟨rfl, rfl, -⟩ := (hE u v w).mp he
    exact ⟨(hD 0).mpr (Or.inl rfl), (hD 1).mpr (Or.inr rfl)⟩
  · rw [hout, hE]
    rcases (hD u).mp hu with rfl | rfl <;> rcases (hD v).mp hv with rfl | rfl <;>
      simp [hname.1, hname.2]

/-- In each library the distances are those of the adjacency list. -/
theorem shortestPaths_agree_oneEdge :
    EndsIn (Llama.Pass Llama.oneEdge (fun _ => 1) false)
        (fun s => AgreesWith Llama.oneEdge.Node Llama.oneEdge.name oneEdgeList 0 s.gDist)
        (Llama.Sssp.init 0) ∧
      EndsIn (Stinger.Step (Stinger.oneEdge 2 (by decide)) (-1) false)
        (fun c => ∃ costSoFar, c = .returned costSoFar ∧
          AgreesWith (Stinger.oneEdge 2 (by decide)).Registered
            (Stinger.oneEdge 2 (by decide)).name oneEdgeList 0 fun v => costSoFar.getD v ⊤)
        (Stinger.start 2 0) := by
  constructor
  · refine (shortestPaths_agree.1 Llama.oneEdge (fun _ => 1) false Llama.wellFormed_oneEdge 0
      (by decide)).imp fun s h => ?_
    refine h.2 oneEdgeList rfl (sameGraph_oneEdgeList (fun v => ?_) ⟨rfl, rfl⟩ fun u v w => ?_)
    · have hlt : v < 2 ↔ v = 0 ∨ v = 1 := by omega
      exact (and_iff_left rfl).trans hlt
    · simp only [Llama.Snapshot.Travel, Bool.false_eq_true, false_and, or_false,
        Llama.Snapshot.Stored, Llama.oneEdge, List.mem_ite_nil_right, List.mem_singleton,
        Prod.mk.injEq]
      constructor
      · rintro ⟨e, ⟨rfl, -, rfl⟩, rfl⟩
        exact ⟨rfl, rfl, rfl⟩
      · rintro ⟨rfl, rfl, rfl⟩
        exact ⟨0, ⟨rfl, rfl, rfl⟩, rfl⟩
  · refine (shortestPaths_agree.2 (Stinger.oneEdge 2 (by decide)) false 2 (le_refl 2) 0
      (by decide)).imp ?_
    rintro c ⟨costSoFar, rfl, -, h⟩
    refine ⟨costSoFar, rfl, h oneEdgeList (sameGraph_oneEdgeList (fun v => ?_) ⟨rfl, rfl⟩
      fun u v w => ?_)⟩
    · show v < 2 ↔ _
      omega
    · simp [Stinger.Graph.Counted, Stinger.Graph.Arc, Stinger.oneEdge]

end GfeDriver
