import GfeDriver.Baseline.CsrLcc
import GfeDriver.Baseline.LccDirected
import GfeDriver.Llama.Lcc

/-!
# Clustering coefficients in two libraries

LLAMA searches the common neighbours of two nodes with a pair of iterators, and the baseline looks
them up in a hash set. Both give each vertex the share of the ordered pairs of its neighbours that
are edges, so that they agree on the same graph.

## Main definitions

* `SameEdges`: compressed sparse rows hold the graph of a snapshot

## Main results

* `SameEdges.directedCoefficient_eq`, `SameEdges.clusteringCoefficient_eq`: the coefficients are
  those of the snapshot
* `llamaLcc_agrees`: the iterators of LLAMA enumerate the common neighbours, and its scores are
  those of the baseline
-/

namespace GfeDriver

open Foundation

variable {W : Type} {g : Llama.Snapshot} {c : CSR W} {id : ℕ → ℕ}

/-- **Compressed sparse rows hold the same graph** as a snapshot with the edges `E`: the vertices
are the nodes that exist, in another numbering. -/
structure SameEdges (g : Llama.Snapshot) (E : ℕ → ℕ → Prop) (c : CSR W) (id : ℕ → ℕ) : Prop where
  lt : ∀ u, g.Node u → id u < c.numVertices
  inj : ∀ u v, g.Node u → g.Node v → id u = id v → u = v
  surj : ∀ x < c.numVertices, ∃ u, g.Node u ∧ id u = x
  arc : ∀ u v, g.Node u → g.Node v → (c.Arc (id u) (id v) ↔ E u v)

/-- The scores of a set of nodes. -/
theorem SameEdges.linkedScore_eq {E : ℕ → ℕ → Prop} [DecidableRel E]
    (h : SameEdges g E c id) {s : Finset ℕ} (hs : ∀ u ∈ s, g.Node u) {t : Finset ℕ}
    (ht : ∀ x < c.numVertices, x ∈ t ↔ ∃ u ∈ s, id u = x) (hlt : ∀ x ∈ t, x < c.numVertices) :
    linkedScore t c.Arc = linkedScore s E := by
  have himage : t = s.image id := by
    ext x
    rw [Finset.mem_image]
    constructor
    · exact fun hx => (ht x (hlt x hx)).mp hx
    · rintro ⟨u, hu, rfl⟩
      exact (ht _ (h.lt u (hs u hu))).mpr ⟨u, hu, rfl⟩
  rw [himage]
  exact linkedScore_image s E (fun u hu v hv => h.inj u v (hs u hu) (hs v hv))
    fun u hu v hv => h.arc u v (hs u hu) (hs v hv)

/-- The neighbours of a node exist. -/
theorem Llama.Snapshot.node_of_mem_neighbourhood (hg : g.WellFormed)
    (hexist : ∀ u, ∀ v ∈ g.outNodes u, g.nodeExists u ∧ g.nodeExists v) {u : ℕ} :
    ∀ v ∈ g.neighbourhood u, g.Node v := by
  intro v hv
  have hv' := List.mem_toFinset.mp hv
  refine ⟨hg.lt_of_mem_neighbours hv', ?_⟩
  rcases hg.mem_neighbours.mp hv' with harc | harc
  · exact (hexist u v harc).2
  · exact (hexist v u harc).1

/-- **The coefficients of a directed graph** are those of the snapshot. -/
theorem SameEdges.directedCoefficient_eq (hg : g.SimpleDirected) (h : SameEdges g g.Arc c id)
    {u : ℕ} (hu : g.Node u) :
    c.directedCoefficient (id u) = linkedScore (g.neighbourhood u) g.Arc := by
  have hnode := Llama.Snapshot.node_of_mem_neighbourhood hg.wellFormed hg.exist (u := u)
  refine h.linkedScore_eq hnode (fun x hx => ?_) fun x hx =>
    Finset.mem_range.mp (Finset.mem_filter.mp hx).1
  obtain ⟨v, hv, rfl⟩ := h.surj x hx
  rw [CSR.neighbourhood, Finset.mem_filter, Finset.mem_range, and_iff_right hx, h.arc u v hu hv,
    h.arc v u hv hu]
  constructor
  · exact fun harc => ⟨v, List.mem_toFinset.mpr (hg.wellFormed.mem_neighbours.mpr harc), rfl⟩
  · rintro ⟨w, hw, heq⟩
    obtain rfl := h.inj w v (hnode w hw) hv heq
    exact hg.wellFormed.mem_neighbours.mp (List.mem_toFinset.mp hw)

/-- **The coefficients of an undirected graph** are those of the snapshot. -/
theorem SameEdges.clusteringCoefficient_eq (hg : g.SimpleUndirected) (hc : c.SimpleUndirected)
    (h : SameEdges g g.Adj c id) {u : ℕ} (hu : g.Node u) :
    c.clusteringCoefficient (id u) = linkedScore (g.neighbourhood u) g.Adj := by
  have hnode := Llama.Snapshot.node_of_mem_neighbourhood hg.wellFormed hg.exist (u := u)
  rw [CSR.clusteringCoefficient_eq_linkedScore hc (h.lt u hu)]
  refine h.linkedScore_eq hnode (fun x hx => ?_) fun x hx =>
    Finset.mem_range.mp (Finset.mem_filter.mp hx).1
  obtain ⟨v, hv, rfl⟩ := h.surj x hx
  rw [Finset.mem_filter, Finset.mem_range, and_iff_right hx, h.arc u v hu hv]
  constructor
  · exact fun hadj => ⟨v, List.mem_toFinset.mpr hadj, rfl⟩
  · rintro ⟨w, hw, heq⟩
    obtain rfl := h.inj w v (hnode w hw) hv heq
    exact List.mem_toFinset.mp hw

/-- **LLAMA agrees with the baseline.** In every history of calls the iterators search and enumerate
the common neighbours, and the scores are those of the baseline on the same graph. -/
theorem llamaLcc_agrees :
    (∀ g : Llama.Snapshot, g.SimpleDirected →
      (∀ src dst, g.Arc src dst ∨ g.Arc dst src → ∀ it returned,
        History (Llama.CommonNeighborIterDirected.getNext g src dst)
          (Llama.CommonNeighborIterDirected.Checked g dst) (.begin g src dst) it returned →
        ((it.dstCurNeighbour = none ↔ ∀ t, ¬g.Arc dst t) ∧
          (it.dstCurNeighbour ≠ none → ∀ t, ∃ found it', (found = true ↔ g.Arc dst t) ∧
            ∃ k, ∀ fuel, k ≤ fuel → it.checkCommon g dst fuel t = some (found, it'))) ∧
        ∃ left it', (returned ++ left).Nodup ∧
          (∀ t, t ∈ returned ++ left ↔ (g.Arc src t ∨ g.Arc t src) ∧ g.Arc dst t) ∧
          ∃ k, ∀ fuel, k ≤ fuel → it.getNext g src dst fuel = some (left.head?, it')) ∧
      ∀ sched scores, ∃ scores',
        (∃ k, ∀ fuel, k ≤ fuel →
          Llama.llamaExecuteLccDirected g fuel sched scores = some scores') ∧
        ∀ (W : Type) (c : CSR W) (id : ℕ → ℕ), c.SimpleDirected → SameEdges g g.Arc c id →
          ∀ u, g.Node u → scores' u = c.doLccDirected (id u)) ∧
    ∀ g : Llama.Snapshot, g.SimpleUndirected →
      (∀ src dst, g.Adj src dst → ∀ it returned,
        History (Llama.CommonNeighborIterUndirected.getNext g src dst)
          (Llama.CommonNeighborIterUndirected.Checked g dst) (.begin g src dst) it returned →
        (∀ t, ∃ found it', (found = true ↔ g.Adj dst t) ∧
          ∃ k, ∀ fuel, k ≤ fuel → it.checkCommon g dst fuel t = some (found, it')) ∧
        ∃ left it', (returned ++ left).Nodup ∧
          (∀ t, t ∈ returned ++ left ↔ g.Adj src t ∧ g.Adj dst t) ∧
          ∃ k, ∀ fuel, k ≤ fuel → it.getNext g src dst fuel = some (left.head?, it')) ∧
      ∀ sched scores, ∃ scores',
        (∃ k, ∀ fuel, k ≤ fuel →
          Llama.llamaExecuteLccUndirected g fuel sched scores = some scores') ∧
        ∀ (W : Type) (c : CSR W) (id : ℕ → ℕ), c.SimpleUndirected → SameEdges g g.Adj c id →
          ∀ u, g.Node u → scores' u = c.doLccUndirected (id u) := by
  refine ⟨fun g hg => ⟨fun src dst _ it returned h => ?_, fun sched scores => ?_⟩,
    fun g hg => ⟨fun src dst hadj it returned h => ?_, fun sched scores => ?_⟩⟩
  · exact Llama.CommonNeighborIterDirected.enumerates hg h
  · obtain ⟨scores', hscores, hfuel⟩ := Llama.llamaExecuteLccDirected_eq hg sched scores
    refine ⟨scores', hfuel, fun W c id hc h u hu => ?_⟩
    rw [hscores u hu.1, CSR.doLccDirected_eq hc (h.lt u hu), h.directedCoefficient_eq hg hu]
  · exact Llama.CommonNeighborIterUndirected.enumerates hg (hg.symm hadj) h
  · obtain ⟨scores', hscores, hfuel⟩ := Llama.llamaExecuteLccUndirected_eq hg sched scores
    refine ⟨scores', hfuel, fun W c id hc h u hu => ?_⟩
    rw [hscores u hu.1, CSR.doLccUndirected_eq hc (h.lt u hu), h.clusteringCoefficient_eq hg hc hu]

/-! ## Two graphs -/

namespace Llama

/-- The snapshot with the edges `arcs` between `n` nodes. -/
def Snapshot.ofArcs (n : ℕ) (arcs : List (ℕ × ℕ)) : Snapshot where
  maxNodes := n
  nodeExists := fun _ => true
  name := fun v => v
  outEdges := fun u => (arcs.filter fun a => a.1 = u).map fun a => (Nat.pair a.1 a.2, a.2)
  inEdges := fun v => (arcs.filter fun a => a.2 = v).map fun a => (Nat.pair a.1 a.2, a.1)
  inToOut := fun e => e

variable {n : ℕ} {arcs : List (ℕ × ℕ)}

theorem Snapshot.outNodes_ofArcs (u : ℕ) :
    (Snapshot.ofArcs n arcs).outNodes u = (arcs.filter fun a => a.1 = u).map Prod.snd := by
  simp [Snapshot.outNodes, Snapshot.ofArcs, Function.comp_def]

theorem Snapshot.inNodes_ofArcs (v : ℕ) :
    (Snapshot.ofArcs n arcs).inNodes v = (arcs.filter fun a => a.2 = v).map Prod.fst := by
  simp [Snapshot.inNodes, Snapshot.ofArcs, Function.comp_def]

theorem Snapshot.mem_outNodes_ofArcs {u v : ℕ} :
    v ∈ (Snapshot.ofArcs n arcs).outNodes u ↔ (u, v) ∈ arcs := by
  rw [Snapshot.outNodes_ofArcs]
  simp

theorem Snapshot.wellFormed_ofArcs (h : ∀ a ∈ arcs, a.1 < n ∧ a.2 < n) :
    (Snapshot.ofArcs n arcs).WellFormed where
  out_lt u v e he := h (u, v) (Snapshot.mem_outNodes_ofArcs.mp (mem_outNodes.mpr ⟨e, he⟩))
  transposed u v e := by
    simp only [Snapshot.ofArcs, List.mem_map, List.mem_filter, decide_eq_true_eq, Prod.mk.injEq]
    constructor
    · rintro ⟨⟨x, y⟩, ⟨ha, rfl⟩, rfl, rfl⟩
      exact ⟨_, ⟨(x, y), ⟨ha, rfl⟩, rfl, rfl⟩, rfl⟩
    · rintro ⟨e', ⟨⟨x, y⟩, ⟨ha, rfl⟩, rfl, rfl⟩, rfl⟩
      exact ⟨(x, y), ⟨ha, rfl⟩, rfl, rfl⟩

theorem Snapshot.simpleDirected_ofArcs (h : ∀ a ∈ arcs, a.1 < n ∧ a.2 < n ∧ a.1 ≠ a.2)
    (hnodup : arcs.Nodup) : (Snapshot.ofArcs n arcs).SimpleDirected where
  wellFormed := Snapshot.wellFormed_ofArcs fun a ha => ⟨(h a ha).1, (h a ha).2.1⟩
  out_nodup u := by
    rw [Snapshot.outNodes_ofArcs]
    refine (hnodup.filter _).map_on fun a ha b hb heq => ?_
    rw [List.mem_filter, decide_eq_true_iff] at ha hb
    exact Prod.ext (ha.2.trans hb.2.symm) heq
  in_nodup v := by
    rw [Snapshot.inNodes_ofArcs]
    refine (hnodup.filter _).map_on fun a ha b hb heq => ?_
    rw [List.mem_filter, decide_eq_true_iff] at ha hb
    exact Prod.ext heq (ha.2.trans hb.2.symm)
  loopless v hv := (h _ (Snapshot.mem_outNodes_ofArcs.mp hv)).2.2 rfl
  exist _ _ _ := ⟨rfl, rfl⟩

theorem Snapshot.simpleUndirected_ofArcs (h : ∀ a ∈ arcs, a.1 < n ∧ a.2 < n ∧ a.1 ≠ a.2)
    (hnodup : arcs.Nodup) (hone : ∀ a ∈ arcs, (a.2, a.1) ∉ arcs) :
    (Snapshot.ofArcs n arcs).SimpleUndirected where
  wellFormed := (Snapshot.simpleDirected_ofArcs h hnodup).wellFormed
  nodup v := by
    have hdirected := Snapshot.simpleDirected_ofArcs h hnodup
    refine List.nodup_append.mpr ⟨hdirected.out_nodup v, hdirected.in_nodup v, ?_⟩
    rintro x hx y hy rfl
    have hin := (hdirected.wellFormed.mem_inNodes_iff).mp hy
    exact hone _ (Snapshot.mem_outNodes_ofArcs.mp hx) (Snapshot.mem_outNodes_ofArcs.mp hin)
  loopless := (Snapshot.simpleDirected_ofArcs h hnodup).loopless
  exist _ _ _ := ⟨rfl, rfl⟩

end Llama

/-- In the numbering of the snapshot. -/
theorem sameEdges_ofArcs {n : ℕ} {arcs : List (ℕ × ℕ)} {E : ℕ → ℕ → Prop} {c : CSR W}
    (hn : c.numVertices = n) (harc : ∀ u < n, ∀ v < n, c.Arc u v ↔ E u v) :
    SameEdges (Llama.Snapshot.ofArcs n arcs) E c fun v => v where
  lt _ hu := hn ▸ hu.1
  inj _ _ _ _ h := h
  surj x hx := ⟨x, ⟨hn ▸ hx, rfl⟩, rfl⟩
  arc u v hu hv := harc u hu.1 v hv.1

/-- A directed graph with edges in both directions. -/
def Llama.bothWays : Llama.Snapshot := .ofArcs 3 [(0, 1), (0, 2), (1, 0), (2, 1)]

/-- A triangle. -/
def Llama.triangle : Llama.Snapshot := .ofArcs 3 [(0, 1), (0, 2), (1, 2)]

/-- The scores of the node `0`, and the first common neighbour of `0` and `1`. -/
theorem llamaLcc_agrees_triangle :
    ((∃ (left : List ℕ) (it' : Llama.CommonNeighborIterDirected),
        (∀ t, t ∈ left ↔ (Llama.bothWays.Arc 0 t ∨ Llama.bothWays.Arc t 0) ∧
          Llama.bothWays.Arc 1 t) ∧
        ∃ k, ∀ fuel, k ≤ fuel →
          (Llama.CommonNeighborIterDirected.begin Llama.bothWays 0 1).getNext
            Llama.bothWays 0 1 fuel = some (left.head?, it')) ∧
      ∃ scores', (∃ k, ∀ fuel, k ≤ fuel → Llama.llamaExecuteLccDirected Llama.bothWays fuel
        Schedule.sequential (fun _ => 0) = some scores') ∧
        scores' 0 = CSR.bothWays.doLccDirected 0) ∧
    (∃ (left : List ℕ) (it' : Llama.CommonNeighborIterUndirected),
        (∀ t, t ∈ left ↔ Llama.triangle.Adj 0 t ∧ Llama.triangle.Adj 1 t) ∧
        ∃ k, ∀ fuel, k ≤ fuel →
          (Llama.CommonNeighborIterUndirected.begin Llama.triangle 0 1).getNext
            Llama.triangle 0 1 fuel = some (left.head?, it')) ∧
      ∃ scores', (∃ k, ∀ fuel, k ≤ fuel → Llama.llamaExecuteLccUndirected Llama.triangle fuel
        Schedule.sequential (fun _ => 0) = some scores') ∧
        scores' 0 = CSR.triangle.doLccUndirected 0 := by
  refine ⟨?_, ?_⟩
  · obtain ⟨hiter, hscores⟩ := llamaLcc_agrees.1 Llama.bothWays
      (Llama.Snapshot.simpleDirected_ofArcs (by decide) (by decide))
    obtain ⟨-, left, it', -, hleft, hnext⟩ := hiter 0 1 (Or.inl (by decide)) _ [] .start
    obtain ⟨scores', hfuel, hsame⟩ := hscores Schedule.sequential fun _ => 0
    refine ⟨⟨left, it', hleft, hnext⟩, scores', hfuel, hsame ℕ CSR.bothWays _ CSR.bothWays_simple
      (sameEdges_ofArcs rfl fun u hu v hv => ?_) 0 ⟨by decide, rfl⟩⟩
    interval_cases u <;> interval_cases v <;> decide
  · obtain ⟨hiter, hscores⟩ := llamaLcc_agrees.2 Llama.triangle
      (Llama.Snapshot.simpleUndirected_ofArcs (by decide) (by decide) (by decide))
    obtain ⟨-, left, it', -, hleft, hnext⟩ := hiter 0 1 (by decide) _ [] .start
    obtain ⟨scores', hfuel, hsame⟩ := hscores Schedule.sequential fun _ => 0
    refine ⟨⟨left, it', hleft, hnext⟩, scores', hfuel, hsame ℕ CSR.triangle _ CSR.triangle_simple
      (sameEdges_ofArcs rfl fun u hu v hv => ?_) 0 ⟨by decide, rfl⟩⟩
    interval_cases u <;> interval_cases v <;> decide

end GfeDriver
