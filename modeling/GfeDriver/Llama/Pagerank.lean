import GfeDriver.Foundation.Loop
import GfeDriver.Foundation.RankPropagation
import GfeDriver.Llama.Snapshot

/-!
# PageRank in LLAMA

`pagerank_impl` passes over the nodes without edges: a snapshot does not tell a vertex that is
isolated from a gap, so it takes both for gaps. It divides by the number of the vertices though,
and the isolated ones are among them. They are sinks, and their ranks should be passed on to all
vertices. Instead these ranks are lost in every iteration.

Scores and the damping factor are rationals, and no timeout fires. The order of the first loop,
with the terms of its reduction, is a schedule.

## Main definitions

* `pagerankImpl`: the kernel
* `arcs`, `isolated`: the edges that the ranks take, and the vertices that are passed over

## Main results

* `pagerankIteration_rank`: one iteration is one step that loses the ranks of the isolated vertices
* `pagerankImpl_rank`: the kernel computes the ranks of these steps
* `pagerank_conserves_iff`: it computes the ranks of the graph exactly if no vertex is isolated
-/

namespace GfeDriver

namespace Llama

namespace Pagerank

open Foundation

/-! ## The program -/

/-- `get_read_store_outdegree`. -/
def readStoreOutdegree (g : Snapshot) (isDirected : Bool) (t : ℕ) : ℕ :=
  if isDirected then g.outDegree t else g.outDegree t + g.inDegree t

/-- The arrays `G_pg_rank` and `G_pg_rank_nxt`. -/
structure State where
  rank : ℕ → ℚ
  rankNxt : ℕ → ℚ

/-- The score of a node: first the incoming edges, then, if the graph is undirected, the outgoing
ones. -/
def score (g : Snapshot) (isDirected : Bool) (rank : ℕ → ℚ) (t : ℕ) : ℚ :=
  let add (score : ℚ) (n : ℕ) : ℚ := score + rank n / readStoreOutdegree g isDirected n
  let score := (g.inNodes t).foldl add 0
  if !isDirected then (g.outNodes t).foldl add score else score

/-- The body of the first loop, on `dsum` and `G_pg_rank_nxt`. -/
def visit (g : Snapshot) (isDirected : Bool) (rank : ℕ → ℚ) (acc : ℚ × (ℕ → ℚ)) (t : ℕ) :
    ℚ × (ℕ → ℚ) :=
  if g.outDegree t + g.inDegree t = 0 then acc
  else
    (if readStoreOutdegree g isDirected t = 0 then acc.1 + rank t else acc.1,
      Function.update acc.2 t (score g isDirected rank t))

/-- The body of the second loop, on the two arrays. -/
def rescale (N d dsum : ℚ) (s : State) (t : ℕ) : State where
  rank := Function.update s.rank t ((1 - d) / N + d * s.rankNxt t + d * dsum / N)
  rankNxt := Function.update s.rankNxt t 0

/-- The body of the loop of `pagerank_impl`. -/
def pagerankIteration (g : Snapshot) (isDirected : Bool) (sched : Schedule ℕ) (numVertices : ℕ)
    (d : ℚ) (s : State) (iteration : ℕ) : State :=
  let r := (sched.order iteration (List.range g.maxNodes)).foldl (visit g isDirected s.rank)
    (0, s.rankNxt)
  (List.range g.maxNodes).foldl (rescale numVertices d r.1) ⟨s.rank, r.2⟩

/-- `LLAMAClass::pagerank_impl`. -/
def pagerankImpl (g : Snapshot) (isDirected : Bool) (sched : Schedule ℕ)
    (numVertices numIterations : ℕ) (d : ℚ) : State :=
  (List.range numIterations).foldl (pagerankIteration g isDirected sched numVertices d)
    ⟨fun _ => 1 / numVertices, fun _ => 0⟩

/-! ## The graph -/

/-- The nodes from which a node takes ranks. -/
def sources (g : Snapshot) (isDirected : Bool) (v : ℕ) : List ℕ :=
  if isDirected then g.inNodes v else g.neighbours v

/-- The number of the edges that ranks take from `u` to `v`. -/
def arcs (g : Snapshot) (isDirected : Bool) (u v : ℕ) : ℕ := (sources g isDirected v).count u

/-- The number of the incoming edges is that of the outgoing ones. -/
def Balanced (g : Snapshot) : Prop := ∀ u v, (g.inNodes v).count u = (g.outNodes u).count v

/-- The vertices without edges. -/
def isolated (g : Snapshot) (V : Finset ℕ) : Finset ℕ := V.filter fun v => g.neighbours v = []

/-- **The vertices** of a snapshot: nodes below `max_nodes`, those with edges among them. -/
structure Vertices (g : Snapshot) (V : Finset ℕ) : Prop where
  lt : ∀ v ∈ V, v < g.maxNodes
  mem : ∀ v, g.neighbours v ≠ [] → v ∈ V

section Graph

variable {g : Snapshot} {isDirected : Bool} {V : Finset ℕ} {u v : ℕ}

/-- Without parallel edges the incoming edges are as many as the outgoing ones. -/
theorem balanced_of_nodup (hg : g.WellFormed) (hout : ∀ v, (g.outNodes v).Nodup)
    (hin : ∀ v, (g.inNodes v).Nodup) : Balanced g := by
  intro u v
  rw [(hin v).count, (hout u).count]
  exact if_congr hg.mem_inNodes_iff rfl rfl

theorem outDegree_add_inDegree_eq_zero_iff :
    g.outDegree v + g.inDegree v = 0 ↔ g.neighbours v = [] := by
  rw [← List.length_eq_zero_iff, Snapshot.length_neighbours, add_comm]

theorem neighbours_ne_nil_of_mem_sources (hu : u ∈ sources g isDirected v) :
    g.neighbours v ≠ [] := by
  unfold sources at hu
  split_ifs at hu
  · exact List.ne_nil_of_mem (List.mem_append_right _ hu)
  · exact List.ne_nil_of_mem hu

/-- A node gives ranks to another one along an edge, so that both have an edge. -/
theorem Vertices.mem_of_mem_sources (hV : Vertices g V) (hg : g.WellFormed)
    (hu : u ∈ sources g isDirected v) : u ∈ V := by
  have hadj : u ∈ g.neighbours v := by
    unfold sources at hu
    split_ifs at hu
    · exact List.mem_append_right _ hu
    · exact hu
  have hback : v ∈ g.neighbours u := by
    rw [hg.mem_neighbours] at hadj ⊢
    exact hadj.symm
  exact hV.mem u (List.ne_nil_of_mem hback)

/-- **The degree** by which a rank is divided. -/
theorem outDegree_arcs (hV : Vertices g V) (hg : g.WellFormed) (hb : Balanced g) (u : ℕ) :
    outDegree V (arcs g isDirected) u = readStoreOutdegree g isDirected u := by
  have hmem : ∀ v ∈ g.outNodes u, v ∈ V := fun v hv =>
    hV.mem v (List.ne_nil_of_mem (hg.mem_neighbours.mpr (.inr hv)))
  have hmem' : ∀ v ∈ g.inNodes u, v ∈ V := fun v hv =>
    hV.mem v (List.ne_nil_of_mem (hg.mem_neighbours.mpr (.inl (hg.mem_inNodes_iff.mp hv))))
  have hout : ∑ v ∈ V, (g.outNodes u).count v = g.outDegree u := by
    rw [sum_count_eq_length hmem, Snapshot.outNodes, List.length_map, Snapshot.outDegree]
  have hin : ∑ v ∈ V, (g.inNodes u).count v = g.inDegree u := by
    rw [sum_count_eq_length hmem', Snapshot.inNodes, List.length_map, Snapshot.inDegree]
  cases isDirected with
  | true =>
    rw [outDegree, readStoreOutdegree, if_pos rfl, ← hout]
    exact Finset.sum_congr rfl fun v _ => hb u v
  | false =>
    rw [outDegree, readStoreOutdegree, if_neg Bool.false_ne_true, ← hout, ← hin,
      ← Finset.sum_add_distrib]
    refine Finset.sum_congr rfl fun v _ => ?_
    change (g.neighbours v).count u = _
    rw [Snapshot.neighbours, List.count_append, ← hb v u, hb u v, add_comm]

/-- **The score** of a node is what it receives along its edges. -/
theorem score_eq (hV : Vertices g V) (hg : g.WellFormed) (hb : Balanced g) (rank : ℕ → ℚ) (v : ℕ) :
    score g isDirected rank v = ∑ u ∈ V, (arcs g isDirected u v : ℚ) *
      (rank u / outDegree V (arcs g isDirected) u) := by
  have hlist : score g isDirected rank v =
      ((sources g isDirected v).map fun n => rank n / readStoreOutdegree g isDirected n).sum := by
    cases isDirected with
    | true =>
      rw [score, sources, if_pos rfl]
      exact foldl_add _ _
    | false =>
      rw [score, sources, if_neg Bool.false_ne_true]
      simp only [Bool.not_false, if_true]
      rw [← List.foldl_append, foldl_add, Snapshot.neighbours]
      exact (List.perm_append_comm.map _).sum_eq
  rw [hlist, sum_map_eq_sum_count fun u hu => hV.mem_of_mem_sources hg hu]
  exact Finset.sum_congr rfl fun u _ => by rw [outDegree_arcs hV hg hb, arcs]

end Graph

/-! ## An iteration -/

section Iteration

variable {g : Snapshot} {isDirected : Bool} {V : Finset ℕ}

/-- The first loop. -/
theorem foldl_visit (g : Snapshot) (isDirected : Bool) (rank : ℕ → ℚ) (l : List ℕ)
    (acc : ℚ × (ℕ → ℚ)) :
    (l.foldl (visit g isDirected rank) acc).1 =
        acc.1 + (l.map fun v => if g.neighbours v ≠ [] ∧ readStoreOutdegree g isDirected v = 0 then
          rank v else 0).sum ∧
      ∀ v, (l.foldl (visit g isDirected rank) acc).2 v =
        if v ∈ l ∧ g.neighbours v ≠ [] then score g isDirected rank v else acc.2 v := by
  induction l generalizing acc with
  | nil => simp
  | cons t l ih =>
    obtain ⟨hsum, hval⟩ := ih (visit g isDirected rank acc t)
    rw [List.foldl_cons, hsum, List.map_cons, List.sum_cons]
    by_cases ht : g.neighbours t = []
    · have hskip : visit g isDirected rank acc t = acc :=
        if_pos (outDegree_add_inDegree_eq_zero_iff.mpr ht)
      refine ⟨?_, fun v => ?_⟩
      · rw [hskip, if_neg fun h => h.1 ht, zero_add]
      · rw [hval, hskip]
        refine if_congr ?_ rfl rfl
        rw [List.mem_cons]
        exact ⟨fun h => ⟨.inr h.1, h.2⟩,
          fun h => ⟨h.1.resolve_left fun hvt => h.2 (hvt ▸ ht), h.2⟩⟩
    · have hvisit : visit g isDirected rank acc t =
          (if readStoreOutdegree g isDirected t = 0 then acc.1 + rank t else acc.1,
            Function.update acc.2 t (score g isDirected rank t)) :=
        if_neg fun h => ht (outDegree_add_inDegree_eq_zero_iff.mp h)
      refine ⟨?_, fun v => ?_⟩
      · rw [hvisit, ← add_assoc]
        congr 1
        by_cases hsink : readStoreOutdegree g isDirected t = 0
        · simp [ht, hsink]
        · simp [hsink]
      · rw [hval, hvisit]
        by_cases hvt : v = t
        · subst hvt
          simp [ht]
        · simp [hvt]

/-- The second loop. -/
theorem foldl_rescale (N d dsum : ℚ) {l : List ℕ} (hl : l.Nodup) (s : State) (v : ℕ) :
    (l.foldl (rescale N d dsum) s).rank v =
        (if v ∈ l then (1 - d) / N + d * s.rankNxt v + d * dsum / N else s.rank v) ∧
      (l.foldl (rescale N d dsum) s).rankNxt v = if v ∈ l then 0 else s.rankNxt v := by
  induction l generalizing s with
  | nil => simp
  | cons t l ih =>
    obtain ⟨ht, hl⟩ := List.nodup_cons.mp hl
    obtain ⟨hrank, hnxt⟩ := ih hl (rescale N d dsum s t)
    rw [List.foldl_cons, hrank, hnxt]
    by_cases hvt : v = t
    · subst hvt
      simp [ht, rescale]
    · simp [hvt, rescale]

/-- A node without edges receives nothing. -/
theorem score_of_nil (rank : ℕ → ℚ) {v : ℕ} (hv : g.neighbours v = []) :
    score g isDirected rank v = 0 := by
  obtain ⟨hout, hin⟩ := List.append_eq_nil_iff.mp hv
  simp [score, hout, hin]

/-- **The sinks that are not passed over.** -/
theorem sum_sinks (hV : Vertices g V) (hg : g.WellFormed) (hb : Balanced g) (rank : ℕ → ℚ)
    {order : List ℕ} (horder : order.Perm (List.range g.maxNodes)) :
    (order.map fun v => if g.neighbours v ≠ [] ∧ readStoreOutdegree g isDirected v = 0 then
        rank v else 0).sum =
      (∑ u ∈ V with outDegree V (arcs g isDirected) u = 0, rank u) -
        ∑ u ∈ isolated g V, rank u := by
  rw [(horder.map _).sum_eq]
  change ∑ v ∈ Finset.range g.maxNodes, (if g.neighbours v ≠ [] ∧ _ then rank v else 0) = _
  have hsub : V ⊆ Finset.range g.maxNodes := fun v hv => Finset.mem_range.mpr (hV.lt v hv)
  rw [← Finset.sum_subset hsub fun v _ hv => if_neg fun h => hv (hV.mem v h.1), isolated,
    Finset.sum_filter, Finset.sum_filter, ← Finset.sum_sub_distrib]
  refine Finset.sum_congr rfl fun v _ => ?_
  rw [outDegree_arcs hV hg hb]
  by_cases hv : g.neighbours v = []
  · have hzero : readStoreOutdegree g isDirected v = 0 := by
      obtain ⟨hout, hin⟩ := Nat.add_eq_zero_iff.mp (outDegree_add_inDegree_eq_zero_iff.mpr hv)
      simp [readStoreOutdegree, hout, hin]
    simp [hv, hzero]
  · simp [hv]

/-- **One iteration** is one step that loses the ranks of the isolated vertices, and clears the
second array. -/
theorem pagerankIteration_rank (isDirected : Bool) (hV : Vertices g V) (hg : g.WellFormed)
    (hb : Balanced g) (sched : Schedule ℕ) (d : ℚ) {s : State}
    (hs : ∀ v < g.maxNodes, s.rankNxt v = 0) (iteration : ℕ) :
    (∀ v ∈ V, (pagerankIteration g isDirected sched V.card d s iteration).rank v =
      lossyStep V (isolated g V) (arcs g isDirected) d s.rank v) ∧
    ∀ v < g.maxNodes,
      (pagerankIteration g isDirected sched V.card d s iteration).rankNxt v = 0 := by
  set r := (sched.order iteration (List.range g.maxNodes)).foldl (visit g isDirected s.rank)
    (0, s.rankNxt) with hr
  obtain ⟨hsum, hval⟩ := foldl_visit g isDirected s.rank
    (sched.order iteration (List.range g.maxNodes)) (0, s.rankNxt)
  rw [← hr] at hsum hval
  have hlast := foldl_rescale (V.card : ℚ) d r.1 (List.nodup_range (n := g.maxNodes)) ⟨s.rank, r.2⟩
  refine ⟨fun v hv => ?_, fun v hv => ?_⟩
  · have hlt : v ∈ List.range g.maxNodes := List.mem_range.mpr (hV.lt v hv)
    have hnxt : r.2 v = score g isDirected s.rank v := by
      rw [hval]
      by_cases hnil : g.neighbours v = []
      · rw [if_neg fun h => h.2 hnil, score_of_nil s.rank hnil]
        exact hs v (hV.lt v hv)
      · exact if_pos ⟨(sched.mem_order ..).mpr hlt, hnil⟩
    refine (hlast v).1.trans ((if_pos hlt).trans ?_)
    change (1 - d) / (V.card : ℚ) + d * r.2 v + d * r.1 / V.card = _
    rw [hnxt, hsum, zero_add, sum_sinks hV hg hb s.rank (sched.perm iteration _),
      score_eq hV hg hb, lossyStep, rankStep, danglingShare]
    ring
  · exact (hlast v).2.trans (if_pos (List.mem_range.mpr hv))

/-- **The kernel** computes the ranks of the steps that lose those of the isolated vertices. -/
theorem pagerankImpl_rank (hV : Vertices g V) (hg : g.WellFormed) (hb : Balanced g)
    (sched : Schedule ℕ) (n : ℕ) (d : ℚ) :
    (∀ v ∈ V, (pagerankImpl g isDirected sched V.card n d).rank v =
      lossyRanks V (isolated g V) (arcs g isDirected) d n v) ∧
    ∀ v < g.maxNodes, (pagerankImpl g isDirected sched V.card n d).rankNxt v = 0 := by
  induction n with
  | zero => exact ⟨fun _ _ => rfl, fun _ _ => rfl⟩
  | succ n ih =>
    have hlast : pagerankImpl g isDirected sched V.card (n + 1) d =
        pagerankIteration g isDirected sched V.card d
          (pagerankImpl g isDirected sched V.card n d) n := by
      simp only [pagerankImpl, List.range_succ, List.foldl_append, List.foldl_cons, List.foldl_nil]
    obtain ⟨hrank, hnxt⟩ := pagerankIteration_rank isDirected hV hg hb sched d ih.2 n
    rw [hlast]
    refine ⟨fun v hv => ?_, hnxt⟩
    rw [hrank v hv, lossyRanks_succ]
    exact lossyStep_congr (Finset.filter_subset _ _) ih.1 v

end Iteration

/-! ## The ranks of the graph -/

/-- **PageRank in LLAMA computes the ranks of the graph, and conserves their total, exactly if no
vertex is isolated**, after every positive number of iterations. Otherwise the total is below
one. -/
theorem pagerank_conserves_iff {g : Snapshot} {isDirected : Bool} {V : Finset ℕ}
    (hV : Vertices g V) (hne : V.Nonempty) (hg : g.WellFormed) (hb : Balanced g)
    (sched : Schedule ℕ) {n : ℕ} (hn : 0 < n) {d : ℚ} (hd : 0 < d) (hd1 : d ≤ 1) :
    let rank := (pagerankImpl g isDirected sched V.card n d).rank
    (∑ v ∈ V, rank v = 1 ↔ ∀ v ∈ V, g.neighbours v ≠ []) ∧
      ((∀ v ∈ V, rank v = ranks V (arcs g isDirected) d n v) ↔ ∀ v ∈ V, g.neighbours v ≠ []) ∧
      ∑ v ∈ V, rank v ≤ 1 := by
  intro rank
  have hrank : ∀ v ∈ V, rank v = lossyRanks V (isolated g V) (arcs g isDirected) d n v :=
    (pagerankImpl_rank hV hg hb sched n d).1
  have hsum : ∑ v ∈ V, rank v = ∑ v ∈ V, lossyRanks V (isolated g V) (arcs g isDirected) d n v :=
    Finset.sum_congr rfl hrank
  -- without isolated vertices nothing is lost
  have hgood : (∀ v ∈ V, g.neighbours v ≠ []) →
      ∀ v ∈ V, rank v = ranks V (arcs g isDirected) d n v := by
    intro hall v hv
    have hnone : isolated g V = ∅ := Finset.filter_eq_empty_iff.mpr fun u hu => hall u hu
    rw [hrank v hv, hnone, lossyRanks_empty]
  have hone : (∀ v ∈ V, rank v = ranks V (arcs g isDirected) d n v) → ∑ v ∈ V, rank v = 1 :=
    fun h => (Finset.sum_congr rfl h).trans (sum_ranks hne n)
  -- with one the total is below one
  have hbad : ¬(∀ v ∈ V, g.neighbours v ≠ []) → ∑ v ∈ V, rank v < 1 := by
    intro hnot
    push Not at hnot
    obtain ⟨v, hv, hnil⟩ := hnot
    have hsinks : ∀ u ∈ isolated g V, u ∈ V ∧ outDegree V (arcs g isDirected) u = 0 := by
      intro u hu
      obtain ⟨huV, hunil⟩ := Finset.mem_filter.mp hu
      obtain ⟨hout, hin⟩ := Nat.add_eq_zero_iff.mp (outDegree_add_inDegree_eq_zero_iff.mpr hunil)
      rw [outDegree_arcs hV hg hb]
      exact ⟨huV, by simp [readStoreOutdegree, hout, hin]⟩
    obtain ⟨m, rfl⟩ := Nat.exists_eq_add_of_lt hn
    rw [hsum, Nat.zero_add]
    exact sum_lossyRanks_lt hsinks ⟨v, Finset.mem_filter.mpr ⟨hv, hnil⟩⟩ hd hd1 m
  refine ⟨⟨fun h => ?_, fun h => hone (hgood h)⟩, ⟨fun h => ?_, hgood⟩, ?_⟩
  · by_contra hnot
    exact (hbad hnot).ne h
  · by_contra hnot
    exact (hbad hnot).ne (hone h)
  · by_cases hall : ∀ v ∈ V, g.neighbours v ≠ []
    · exact (hone (hgood hall)).le
    · exact (hbad hall).le

theorem vertices_oneEdge : Vertices oneEdge {0, 1} where
  lt := by decide
  mem v hv := by
    by_contra hnot
    obtain ⟨h0, h1⟩ : v ≠ 0 ∧ v ≠ 1 := by simpa using hnot
    exact hv (by simp [Snapshot.neighbours, Snapshot.outNodes, Snapshot.inNodes, oneEdge, h0, h1])

theorem balanced_oneEdge : Balanced oneEdge := by
  refine balanced_of_nodup wellFormed_oneEdge (fun v => ?_) fun v => ?_
  · by_cases hv : v = 0
    · simp [Snapshot.outNodes, oneEdge, hv]
    · simp [Snapshot.outNodes, oneEdge, hv]
  · by_cases hv : v = 1
    · simp [Snapshot.inNodes, oneEdge, hv]
    · simp [Snapshot.inNodes, oneEdge, hv]

theorem pagerank_conserves_oneEdge :
    ∑ v ∈ {0, 1}, (pagerankImpl oneEdge true .sequential 2 10 (17 / 20)).rank v = 1 :=
  (pagerank_conserves_iff vertices_oneEdge (by decide) wellFormed_oneEdge balanced_oneEdge
    .sequential (by norm_num) (by norm_num) (by norm_num)).1.mpr (by decide)

end Pagerank

end Llama

end GfeDriver
