import GfeDriver.Foundation.Loop
import GfeDriver.Foundation.RankPropagation
import GfeDriver.Foundation.Schedule
import GfeDriver.Baseline.LccDirected

/-!
# PageRank

`do_pagerank` first computes what each vertex passes on along an edge, and adds up the scores of the
sinks. It then overwrites the scores in place, since the second loop reads only what the first one
wrote. The entry of a sink is never written, and never read either: a vertex with an incoming edge
reads the entries of vertices with an outgoing one. `AdjacencyList::pagerank` keeps two maps and the
set of the sinks, and divides by the degrees at each edge.

Both kernels compute the ranks of one step after the other. Scores and the damping factor are
rationals, and no timeout fires. The iterations of a parallel loop, with the terms of its reduction,
and the order of a hash table are schedules.

## Main definitions

* `CSR.Balanced`: the incoming lists are the transpose of the outgoing ones
* `CSR.doPagerank`, `AdjacencyList.pagerank`: the kernels

## Main results

* `pagerankIteration_scores`: one iteration of `do_pagerank` is one step
* `doPagerank_scores`, `pagerank_rank`: the kernels compute the ranks
* `CSR.pagerank_agree`: conservation of the total, and agreement
-/

namespace GfeDriver

open Foundation

/-! ## The compressed sparse rows -/

namespace CSR

variable {W : Type}

/-- The arrays of `do_pagerank`. -/
structure PagerankState where
  scores : ℕ → ℚ
  outgoingContrib : ℕ → ℚ

/-- The body of the first loop, on `dangling_sum` and `outgoing_contrib`. -/
def contribute (g : CSR W) (scores : ℕ → ℚ) (acc : ℚ × (ℕ → ℚ)) (v : ℕ) : ℚ × (ℕ → ℚ) :=
  let outDegree := g.getOutDegree v
  if outDegree = 0 then (acc.1 + scores v, acc.2)
  else (acc.1, Function.update acc.2 v (scores v / outDegree))

/-- The score that the second loop writes for `v`. -/
def pullScore (g : CSR W) (baseScore dampingFactor danglingSum : ℚ) (outgoingContrib : ℕ → ℚ)
    (v : ℕ) : ℚ :=
  let incomingTotal := (g.inNeighbours v).foldl (fun total u => total + outgoingContrib u) 0
  baseScore + dampingFactor * (incomingTotal + danglingSum)

/-- The body of the loop of `do_pagerank`. -/
def pagerankIteration (g : CSR W) (sched : Schedule ℕ) (dampingFactor : ℚ) (s : PagerankState)
    (iteration : ℕ) : PagerankState :=
  let baseScore := (1 - dampingFactor) / g.numVertices
  let r := (sched.order (2 * iteration) (List.range g.numVertices)).foldl (g.contribute s.scores)
    (0, s.outgoingContrib)
  let danglingSum := r.1 / g.numVertices
  { scores := (sched.order (2 * iteration + 1) (List.range g.numVertices)).foldl
      (fun scores v => Function.update scores v
        (g.pullScore baseScore dampingFactor danglingSum r.2 v)) s.scores
    outgoingContrib := r.2 }

/-- `CSR::do_pagerank`. -/
def doPagerank (g : CSR W) (sched : Schedule ℕ) (numIterations : ℕ) (dampingFactor : ℚ) :
    PagerankState :=
  let initScore : ℚ := 1 / g.numVertices
  let scores := (List.range g.numVertices).foldl
    (fun scores v => Function.update scores v initScore) fun _ => 0
  (List.range numIterations).foldl (g.pagerankIteration sched dampingFactor) ⟨scores, fun _ => 0⟩

/-- The number of edges from `u` to `v`. -/
def multiplicity (g : CSR W) (u v : ℕ) : ℕ := (g.outNeighbours u).count v

/-- The incoming arrays are the transpose of the outgoing ones, with the same multiplicities. -/
def Balanced (g : CSR W) : Prop :=
  ∀ u < g.numVertices, ∀ v < g.numVertices, (g.inNeighbours v).count u = g.multiplicity u v

section Kernel

variable {g : CSR W}

/-- Without parallel edges it is enough that the arrays have the same edges. -/
theorem Transposed.balanced (h : g.Transposed)
    (hnodup : ∀ v < g.numVertices, (g.outNeighbours v).Nodup ∧ (g.inNeighbours v).Nodup) :
    g.Balanced := by
  intro u hu v hv
  rw [multiplicity, (hnodup v hv).2.count, (hnodup u hu).1.count]
  exact if_congr (h u hu v hv) rfl rfl

/-- The degree of a vertex. -/
theorem outDegree_multiplicity (hg : g.WellFormed) {u : ℕ} (hu : u < g.numVertices) :
    outDegree (Finset.range g.numVertices) g.multiplicity u = g.getOutDegree u := by
  rw [← length_outNeighbours]
  exact sum_count_eq_length fun v hv =>
    Finset.mem_range.mpr (hg.lt_of_mem_outNeighbours hu hv)

/-- The first loop: the sum of the scores of the sinks, and the contribution of the others. -/
theorem foldl_contribute (scores : ℕ → ℚ) (l : List ℕ) (acc : ℚ × (ℕ → ℚ)) :
    (l.foldl (g.contribute scores) acc).1 =
        acc.1 + (l.map fun v => if g.getOutDegree v = 0 then scores v else 0).sum ∧
      ∀ v ∈ l, g.getOutDegree v ≠ 0 →
        (l.foldl (g.contribute scores) acc).2 v = scores v / g.getOutDegree v := by
  induction l using List.reverseRecOn with
  | nil => simp
  | append_singleton l u ih =>
    obtain ⟨hsum, hcontrib⟩ := ih
    rw [List.foldl_append, List.foldl_cons, List.foldl_nil, List.map_append, List.sum_append]
    unfold contribute
    by_cases hu : g.getOutDegree u = 0
    · simp only [hu, if_true, List.map_cons, List.map_nil, List.sum_cons, List.sum_nil, add_zero]
      refine ⟨by rw [← add_assoc, ← hsum]; rfl, fun v hv hne => ?_⟩
      rcases List.mem_append.mp hv with hv | hv
      · exact hcontrib v hv hne
      · exact absurd (List.mem_singleton.mp hv ▸ hu) hne
    · simp only [hu, if_false, List.map_cons, List.map_nil, List.sum_cons, List.sum_nil, add_zero]
      refine ⟨hsum, fun v hv hne => ?_⟩
      by_cases hvu : v = u
      · rw [hvu, Function.update_self]
      · rw [Function.update_of_ne hvu]
        exact hcontrib v ((List.mem_append.mp hv).resolve_right (by simpa using hvu)) hne

/-- What a vertex reads in the second loop, when the entries of the vertices with an outgoing edge
are their contributions. -/
theorem sum_contrib (hg : g.WellFormed) (hbalanced : g.Balanced) {scores contrib : ℕ → ℚ}
    (hcontrib : ∀ u < g.numVertices, g.getOutDegree u ≠ 0 →
      contrib u = scores u / g.getOutDegree u) {v : ℕ} (hv : v < g.numVertices) :
    ((g.inNeighbours v).map contrib).sum = ∑ u ∈ Finset.range g.numVertices,
      (g.multiplicity u v : ℚ) *
        (scores u / outDegree (Finset.range g.numVertices) g.multiplicity u) := by
  rw [sum_map_eq_sum_count fun u hu =>
    Finset.mem_range.mpr (hg.lt_of_mem_inNeighbours hv hu)]
  refine Finset.sum_congr rfl fun u hu => ?_
  have hun := Finset.mem_range.mp hu
  rw [hbalanced u hun v hv, outDegree_multiplicity hg hun]
  -- a sink has no edge, so that its entry does not count
  by_cases hsink : g.getOutDegree u = 0
  · have hnil : g.outNeighbours u = [] := by
      rw [← List.length_eq_zero_iff, length_outNeighbours, hsink]
    simp [multiplicity, hnil]
  · rw [hcontrib u hun hsink]

/-- **One iteration** is one step. -/
theorem pagerankIteration_scores (hg : g.WellFormed) (hbalanced : g.Balanced) (sched : Schedule ℕ)
    (d : ℚ) (s : PagerankState) (iteration : ℕ) {v : ℕ} (hv : v < g.numVertices) :
    (g.pagerankIteration sched d s iteration).scores v =
      rankStep (Finset.range g.numVertices) g.multiplicity d s.scores v := by
  set order := sched.order (2 * iteration) (List.range g.numVertices) with horder
  obtain ⟨hsum, hcontrib⟩ := foldl_contribute (g := g) s.scores order (0, s.outgoingContrib)
  have hmem : ∀ u < g.numVertices, u ∈ order := fun u hu => by
    rw [horder, sched.mem_order]
    exact List.mem_range.mpr hu
  -- the order of the reduction does not matter
  have hdangling : (order.foldl (g.contribute s.scores) (0, s.outgoingContrib)).1 =
      ∑ u ∈ Finset.range g.numVertices with
        outDegree (Finset.range g.numVertices) g.multiplicity u = 0, s.scores u := by
    rw [hsum, zero_add, ((sched.perm (2 * iteration) (List.range g.numVertices)).map _).sum_eq,
      Finset.sum_filter]
    change ∑ u ∈ Finset.range g.numVertices, (if g.getOutDegree u = 0 then s.scores u else 0) = _
    refine Finset.sum_congr rfl fun u hu => ?_
    rw [outDegree_multiplicity hg (Finset.mem_range.mp hu)]
  have hwritten : v ∈ sched.order (2 * iteration + 1) (List.range g.numVertices) := by
    rw [sched.mem_order]
    exact List.mem_range.mpr hv
  simp only [pagerankIteration, ← horder]
  rw [foldl_update, if_pos hwritten, pullScore, foldl_add,
    sum_contrib hg hbalanced (fun u hu hne => hcontrib u (hmem u hu) hne) hv, hdangling, rankStep,
    danglingShare, Finset.card_range]

/-- **The kernel** computes the ranks. -/
theorem doPagerank_scores (hg : g.WellFormed) (hbalanced : g.Balanced) (sched : Schedule ℕ)
    (n : ℕ) (d : ℚ) : ∀ v < g.numVertices, (g.doPagerank sched n d).scores v =
      ranks (Finset.range g.numVertices) g.multiplicity d n v := by
  induction n with
  | zero =>
    intro v hv
    simp only [doPagerank, List.range_zero, List.foldl_nil]
    rw [foldl_update, if_pos (List.mem_range.mpr hv)]
    change _ = 1 / ((Finset.range g.numVertices).card : ℚ)
    rw [Finset.card_range]
  | succ n ih =>
    intro v hv
    have hlast : g.doPagerank sched (n + 1) d =
        g.pagerankIteration sched d (g.doPagerank sched n d) n := by
      simp only [doPagerank, List.range_succ, List.foldl_append, List.foldl_cons, List.foldl_nil]
    rw [hlast, pagerankIteration_scores hg hbalanced sched d _ n hv, ranks_succ]
    exact rankStep_congr (fun u hu => ih u (Finset.mem_range.mp hu)) v

end Kernel

end CSR

/-! ## The adjacency list -/

namespace AdjacencyList

variable {W : Type}

/-- The maps `rank` and `rank_next`, whose missing entries read as zero. -/
structure PagerankState where
  rank : ℕ → ℚ
  rankNext : ℕ → ℚ

/-- `sinks`. -/
def sinks (a : AdjacencyList W) : List ℕ := a.nodes.keys.filter fun v => (a.outgoing v).isEmpty

/-- The score that an iteration computes for a vertex, `vertexCount` being `V`. -/
def pagerankScore (a : AdjacencyList W) (vertexCount : ℕ) (dampingFactor danglingSum : ℚ)
    (rank : ℕ → ℚ) (vertexId : ℕ) : ℚ :=
  let score := (a.back vertexId).foldl (fun score e =>
    let nout := (a.outgoing e.1).length
    if nout > 0 then score + rank e.1 / nout else score) 0
  (1 - dampingFactor) / vertexCount + dampingFactor * score +
    (dampingFactor / vertexCount) * danglingSum

/-- The body of the loop of `pagerank`, which ends with the swap of the two maps. -/
def pagerankIteration (a : AdjacencyList W) (hash : Schedule ℕ) (dampingFactor : ℚ)
    (s : PagerankState) (iter : ℕ) : PagerankState :=
  let vertexCount := a.nodes.keys.length
  let danglingSum := (hash.order iter a.sinks).foldl (fun sum v => sum + s.rank v) 0
  { rank := a.nodes.keys.foldl (fun rankNext vertexId => Function.update rankNext vertexId
      (a.pagerankScore vertexCount dampingFactor danglingSum s.rank vertexId)) s.rankNext
    rankNext := s.rank }

/-- `AdjacencyList::pagerank`. -/
def pagerank (a : AdjacencyList W) (hash : Schedule ℕ) (numIterations : ℕ) (dampingFactor : ℚ) :
    PagerankState :=
  let vertexCount := a.nodes.keys.length
  let rank := a.nodes.keys.foldl
    (fun rank vertexId => Function.update rank vertexId (1 / (vertexCount : ℚ))) fun _ => 0
  (List.range numIterations).foldl (a.pagerankIteration hash dampingFactor) ⟨rank, fun _ => 0⟩

/-- The number of edges from `u` to `v`. -/
def multiplicity (a : AdjacencyList W) (u v : ℕ) : ℕ := (a.outgoing u).targets.count v

section Kernel

variable {a : AdjacencyList W}

/-- The vertices. -/
def vertices (a : AdjacencyList W) : Finset ℕ := a.nodes.keys.toFinset

theorem mem_vertices {v : ℕ} : v ∈ a.vertices ↔ v ∈ a.nodes := by
  rw [vertices, List.mem_toFinset, AList.mem_keys]

theorem card_vertices : a.vertices.card = a.nodes.keys.length :=
  List.toFinset_card_of_nodup a.nodes.keys_nodup

theorem outDegree_multiplicity (ha : a.Invariant) (u : ℕ) :
    outDegree a.vertices a.multiplicity u = (a.outgoing u).length := by
  have hlen : (a.outgoing u).targets.length = (a.outgoing u).length := by simp [EdgeList.targets]
  rw [← hlen]
  exact sum_count_eq_length fun v hv => mem_vertices.mpr (ha.present u v (Or.inl hv))

/-- The list that `get_incoming_edges` returns is the transpose of the outgoing ones. -/
theorem count_back (ha : a.Invariant) (u v : ℕ) :
    (a.back v).targets.count u = a.multiplicity u v := by
  have hnodup : (a.back v).targets.Nodup := by
    unfold back
    split_ifs
    · exact (ha.nodup v).2
    · exact (ha.nodup v).1
  rw [multiplicity, hnodup.count, (ha.nodup u).1.count]
  refine if_congr ?_ rfl rfl
  rw [EdgeList.mem_targets, EdgeList.mem_targets]
  exact exists_congr fun w => (ha.mirror u v w).symm

/-- The scores of the neighbours; the test for a sink changes nothing. -/
theorem foldl_incoming (ha : a.Invariant) (rank : ℕ → ℚ) (v : ℕ) :
    (a.back v).foldl (fun score e =>
      if (a.outgoing e.1).length > 0 then score + rank e.1 / (a.outgoing e.1).length else score) 0 =
      ∑ u ∈ a.vertices,
        (a.multiplicity u v : ℚ) * (rank u / outDegree a.vertices a.multiplicity u) := by
  have hterm : ∀ (score : ℚ) (e : ℕ × W),
      (if (a.outgoing e.1).length > 0 then score + rank e.1 / (a.outgoing e.1).length else score) =
        score + rank e.1 / (a.outgoing e.1).length := by
    intro score e
    by_cases h0 : (a.outgoing e.1).length = 0
    · simp [h0]
    · rw [if_pos (Nat.pos_of_ne_zero h0)]
  have hmem : ∀ u ∈ (a.back v).targets, u ∈ a.vertices := by
    intro u hu
    refine mem_vertices.mpr (ha.present v u ?_)
    unfold back at hu
    split_ifs at hu
    · exact Or.inr hu
    · exact Or.inl hu
  simp only [hterm]
  rw [foldl_add]
  change ((a.back v).map ((fun u => rank u / (a.outgoing u).length) ∘ Prod.fst)).sum = _
  rw [← List.map_map]
  change ((a.back v).targets.map _).sum = _
  rw [sum_map_eq_sum_count hmem]
  exact Finset.sum_congr rfl fun u _ => by rw [count_back ha, outDegree_multiplicity ha]

/-- **One iteration** is one step. -/
theorem pagerankIteration_rank (ha : a.Invariant) (hash : Schedule ℕ) (d : ℚ) (s : PagerankState)
    (iter : ℕ) {v : ℕ} (hv : v ∈ a.vertices) :
    (a.pagerankIteration hash d s iter).rank v =
      rankStep a.vertices a.multiplicity d s.rank v := by
  have hkeys : v ∈ a.nodes.keys := List.mem_toFinset.mp hv
  have hdangling : ((hash.order iter a.sinks).map s.rank).sum =
      ∑ u ∈ a.vertices with outDegree a.vertices a.multiplicity u = 0, s.rank u := by
    rw [((hash.perm iter a.sinks).map _).sum_eq, sinks,
      ← List.sum_toFinset _ (a.nodes.keys_nodup.filter _), List.toFinset_filter]
    refine Finset.sum_congr (Finset.filter_congr fun u _ => ?_) fun _ _ => rfl
    rw [outDegree_multiplicity ha, List.isEmpty_iff, List.length_eq_zero_iff]
  simp only [pagerankIteration]
  rw [foldl_update, if_pos hkeys, foldl_add, hdangling]
  simp only [pagerankScore]
  rw [foldl_incoming ha, rankStep, danglingShare, card_vertices]
  ring

/-- **The kernel** computes the ranks. -/
theorem pagerank_rank (ha : a.Invariant) (hash : Schedule ℕ) (n : ℕ) (d : ℚ) :
    ∀ v ∈ a.vertices,
      (a.pagerank hash n d).rank v = ranks a.vertices a.multiplicity d n v := by
  induction n with
  | zero =>
    intro v hv
    simp only [pagerank, List.range_zero, List.foldl_nil]
    rw [foldl_update, if_pos (List.mem_toFinset.mp hv)]
    change _ = 1 / (a.vertices.card : ℚ)
    rw [card_vertices]
  | succ n ih =>
    intro v hv
    have hlast : a.pagerank hash (n + 1) d =
        a.pagerankIteration hash d (a.pagerank hash n d) n := by
      simp only [pagerank, List.range_succ, List.foldl_append, List.foldl_cons, List.foldl_nil]
    rw [hlast, pagerankIteration_rank ha hash d _ n hv, ranks_succ]
    exact rankStep_congr ih v

end Kernel

end AdjacencyList

/-! ## The two libraries -/

namespace Represents

variable {W : Type} [Zero W] {g : CSR W} {a : AdjacencyList W}

theorem vertices_eq (h : Represents g a) :
    a.vertices = (Finset.range g.numVertices).image g.ext := by
  ext x
  rw [AdjacencyList.mem_vertices, Finset.mem_image]
  constructor
  · intro hx
    obtain ⟨v, hv, heq⟩ := h.exists_ext hx
    exact ⟨v, Finset.mem_range.mpr hv, heq⟩
  · rintro ⟨v, hv, rfl⟩
    exact h.ext_mem (Finset.mem_range.mp hv)

theorem multiplicity_eq (h : Represents g a)
    (hnodup : ∀ v < g.numVertices, (g.outNeighbours v).Nodup) {u v : ℕ} (hu : u < g.numVertices)
    (hv : v < g.numVertices) : a.multiplicity (g.ext u) (g.ext v) = g.multiplicity u v := by
  rw [AdjacencyList.multiplicity, CSR.multiplicity, (h.invariant.nodup (g.ext u)).1.count,
    (hnodup u hu).count]
  exact if_congr ((h.linked_iff hu hv).trans (and_iff_right hu)) rfl rfl

/-- **The ranks** of a vertex in the two libraries. -/
theorem ranks_eq (h : Represents g a) (hnodup : ∀ v < g.numVertices, (g.outNeighbours v).Nodup)
    (d : ℚ) (n : ℕ) {v : ℕ} (hv : v < g.numVertices) :
    ranks a.vertices a.multiplicity d n (g.ext v) =
      ranks (Finset.range g.numVertices) g.multiplicity d n v := by
  rw [h.vertices_eq]
  refine ranks_image (fun u hu w hw heq => ?_) (fun u hu w hw => ?_) n v (Finset.mem_range.mpr hv)
  · exact h.ext_inj (by simpa using hu) (by simpa using hw) heq
  · exact h.multiplicity_eq hnodup (Finset.mem_range.mp hu) (Finset.mem_range.mp hw)

end Represents

/-- **A loaded graph is balanced**, and lists every neighbour once. -/
theorem balanced_loadView {W : Type} [Zero W] {edges : List (WeightedEdge W)} {view : StreamView W}
    (h : view.Faithful edges) (hstart : CSR.Started view) (hsimple : CSR.Simple edges) (d : Bool)
    (horiented : d = false → CSR.Oriented edges) :
    (CSR.loadView d view).Balanced ∧
      ∀ v < (CSR.loadView d view).numVertices, ((CSR.loadView d view).outNeighbours v).Nodup := by
  cases d with
  | true =>
    have hdirected := simpleDirected_loadDirected h hstart hsimple
    refine ⟨hdirected.transposed.balanced fun v hv => ⟨hdirected.nodup v hv, ?_⟩, hdirected.nodup⟩
    have hmap : ((CSR.loadDirected true view).inEdges v).map Prod.fst =
        (CSR.loadDirected true view).inNeighbours v := by simp [CSR.inEdges, CSR.inNeighbours]
    rw [← hmap, List.Nodup, List.pairwise_map]
    exact (CSR.distinct_loadDirected h hstart hsimple hv).2
  | false =>
    have hundirected := simpleUndirected_loadUndirected h hstart hsimple (horiented rfl)
    -- the incoming arrays are aliases of the outgoing ones
    refine ⟨CSR.Transposed.balanced (fun u hu v hv => ?_)
      fun v hv => ⟨hundirected.nodup hv, hundirected.nodup hv⟩, fun v hv => hundirected.nodup hv⟩
    exact ⟨fun hmem => (hundirected.symm v u ⟨hv, hmem⟩).2,
      fun hmem => (hundirected.symm u v ⟨hu, hmem⟩).2⟩

namespace CSR

/-- **PageRank conserves the total, and the two implementations agree**: after every number of
iterations and for every damping factor the scores sum to one, and those of the adjacency list that
holds the same graph are the same. -/
theorem pagerank_agree {W : Type} [Zero W] {g : CSR W} (hg : g.WellFormed) (hbalanced : g.Balanced)
    (hvertices : 0 < g.numVertices) (sched : Schedule ℕ) (numIterations : ℕ) (d : ℚ) :
    ∑ v ∈ Finset.range g.numVertices, (g.doPagerank sched numIterations d).scores v = 1 ∧
    ∀ (a : AdjacencyList W) (hash : Schedule ℕ), Represents g a →
      (∀ v < g.numVertices, (g.outNeighbours v).Nodup) → ∀ v < g.numVertices,
        (a.pagerank hash numIterations d).rank (g.ext v) =
          (g.doPagerank sched numIterations d).scores v := by
  have hscores := doPagerank_scores hg hbalanced sched numIterations d
  refine ⟨?_, fun a hash h hnodup v hv => ?_⟩
  · rw [Finset.sum_congr rfl fun v hv => hscores v (Finset.mem_range.mp hv)]
    exact sum_ranks (Finset.nonempty_range_iff.mpr hvertices.ne') numIterations
  · have hmem : g.ext v ∈ a.vertices := AdjacencyList.mem_vertices.mpr (h.ext_mem hv)
    rw [AdjacencyList.pagerank_rank h.invariant hash numIterations d _ hmem,
      h.ranks_eq hnodup d numIterations hv, hscores v hv]

/-- The path with three vertices, whose last one is a sink. -/
theorem pagerank_path :
    ∑ v ∈ Finset.range 3, ((path 1).doPagerank .sequential 20 (17 / 20)).scores v = 1 :=
  (pagerank_agree (path_wellFormed 1)
    ((path_transposed 1).balanced (by decide : ∀ v < 3, _ ∧ _)) (by decide) .sequential 20
    (17 / 20)).1

end CSR

end GfeDriver
