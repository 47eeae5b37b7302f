import Mathlib.Data.List.Sort
import GfeDriver.Foundation.Loop
import GfeDriver.Baseline.CsrLccWorkers
import GfeDriver.Baseline.Represents

/-!
# Local clustering coefficients on the adjacency list

`lcc_undirected` visits the vertices by increasing identifier and probes, for each neighbour that is
not below the vertex, the hash set of the neighbours of the vertex. What it finds counts for both
ends of the edge: for the upper one it is remembered in `already_visited`, so when a vertex is
visited half of its count is already there. A vertex with a single neighbour contributes nothing to
it, since its neighbour is not its own neighbour.

## Main definitions

* `AdjacencyList.lccUndirected`: the kernel
* `AdjacencyList.common`: the common neighbours of two vertices

## Main results

* `lccVertex_eq`: what the visit of a vertex adds
* `lccUndirected_eq`: the scores in terms of common neighbours
* `CSR.lcc_agree`: the three implementations compute the clustering coefficients
-/

namespace GfeDriver

open Foundation

namespace AdjacencyList

variable {W : Type}

/-! ## The kernel -/

/-- `AdjacencyList::get_degree`. -/
def getDegree (a : AdjacencyList W) (v : ℕ) : ℕ :=
  if a.isDirected = false then (a.outgoing v).length
  else ((a.outgoing v).targets ++ (a.incoming v).targets).toFinset.card

/-- The maps `already_visited`, whose missing entries read as zero, and `result`. -/
structure LccState where
  alreadyVisited : ℕ → ℕ
  result : ℕ → ℚ

/-- The body of the loop that probes the hash table `H` of `vertex1`, for its neighbour `vertex2`,
with `num_triangles` and `already_visited`. -/
def probeNeighbour (a : AdjacencyList W) (vertex1 : ℕ) (acc : ℕ × (ℕ → ℕ)) (vertex2 : ℕ) :
    ℕ × (ℕ → ℕ) :=
  let H := (a.outgoing vertex1).targets.toFinset
  if vertex2 < vertex1 then acc
  else (a.outgoing vertex2).foldl (fun acc edge =>
    if edge.1 ∈ H then (acc.1 + 1, Function.update acc.2 vertex2 (acc.2 vertex2 + 1)) else acc) acc

/-- The loop that probes the hash table of `vertex1`. -/
def probe (a : AdjacencyList W) (vertex1 : ℕ) (acc : ℕ × (ℕ → ℕ)) : ℕ × (ℕ → ℕ) :=
  (a.outgoing vertex1).targets.foldl (a.probeNeighbour vertex1) acc

/-- The body of the loop over the vertices. -/
def lccVertex (a : AdjacencyList W) (s : LccState) (vertex1 : ℕ) : LccState :=
  let degree := a.getDegree vertex1
  if degree ≥ 2 then
    let r := a.probe vertex1 (s.alreadyVisited vertex1, s.alreadyVisited)
    { alreadyVisited := r.2
      result := Function.update s.result vertex1 ((r.1 : ℚ) / (degree * (degree - 1) : ℕ)) }
  else { s with result := Function.update s.result vertex1 0 }

/-- `AdjacencyList::lcc_undirected`, when no timeout fires. -/
def lccUndirected (a : AdjacencyList W) : LccState :=
  (a.nodes.keys.insertionSort (· ≤ ·)).foldl a.lccVertex ⟨fun _ => 0, fun _ => 0⟩

/-! ## One vertex -/

/-- The neighbours of `v` that are neighbours of `u`. -/
def common (a : AdjacencyList W) (u v : ℕ) : ℕ :=
  (a.outgoing v).targets.countP fun x => x ∈ (a.outgoing u).targets

theorem foldl_probe (l : EdgeList W) (H : Finset ℕ) (v : ℕ) (acc : ℕ × (ℕ → ℕ)) :
    l.foldl (fun acc edge => if edge.1 ∈ H then
        (acc.1 + 1, Function.update acc.2 v (acc.2 v + 1)) else acc) acc =
      (acc.1 + l.targets.countP (fun x => x ∈ H),
        Function.update acc.2 v (acc.2 v + l.targets.countP fun x => x ∈ H)) := by
  induction l generalizing acc with
  | nil => simp [EdgeList.targets]
  | cons e l ih =>
    rw [List.foldl_cons, ih]
    simp only [EdgeList.targets, List.map_cons, List.countP_cons]
    by_cases he : e.1 ∈ H
    · simp only [he, if_true, decide_true, Function.update_self, Function.update_idem]
      rw [Nat.add_right_comm acc.1, Nat.add_right_comm (acc.2 v), Nat.add_assoc acc.1,
        Nat.add_assoc (acc.2 v)]
    · simp [he]

theorem probeNeighbour_eq (a : AdjacencyList W) (vertex1 : ℕ) (acc : ℕ × (ℕ → ℕ)) (vertex2 : ℕ) :
    a.probeNeighbour vertex1 acc vertex2 = if vertex2 < vertex1 then acc
      else (acc.1 + a.common vertex1 vertex2,
        Function.update acc.2 vertex2 (acc.2 vertex2 + a.common vertex1 vertex2)) := by
  unfold probeNeighbour
  split_ifs with hlt
  · rfl
  · rw [foldl_probe]
    simp only [common, List.mem_toFinset]

/-- What probing the neighbours `l` of `vertex1` adds: to the count of `vertex1` and to those of
the neighbours that are not below it. -/
theorem foldl_probeNeighbour (a : AdjacencyList W) (vertex1 : ℕ) (l : List ℕ) (hl : l.Nodup)
    (acc : ℕ × (ℕ → ℕ)) :
    (l.foldl (a.probeNeighbour vertex1) acc).1 =
        acc.1 + ∑ v ∈ l.toFinset.filter (fun v => ¬v < vertex1), a.common vertex1 v ∧
      ∀ x, (l.foldl (a.probeNeighbour vertex1) acc).2 x =
        acc.2 x + if x ∈ l ∧ ¬x < vertex1 then a.common vertex1 x else 0 := by
  induction l generalizing acc with
  | nil => simp
  | cons v l ih =>
    obtain ⟨hv, hl'⟩ := List.nodup_cons.mp hl
    obtain ⟨h₁, h₂⟩ := ih hl' (a.probeNeighbour vertex1 acc v)
    have hstep := a.probeNeighbour_eq vertex1 acc v
    rw [List.foldl_cons, List.toFinset_cons, Finset.filter_insert]
    -- a pair of vertices is looked at from the smaller one
    by_cases hlt : v < vertex1
    · rw [if_pos hlt] at hstep
      rw [hstep] at h₁ h₂ ⊢
      rw [if_neg (not_not.mpr hlt)]
      refine ⟨h₁, fun x => (h₂ x).trans (congrArg _ (if_congr ?_ rfl rfl))⟩
      rw [List.mem_cons]
      refine and_congr_left fun hx => ⟨Or.inr, fun h => h.resolve_left ?_⟩
      rintro rfl
      exact hx hlt
    · rw [if_neg hlt] at hstep
      rw [hstep] at h₁ h₂ ⊢
      rw [if_pos hlt, Finset.sum_insert (by simp [hv])]
      refine ⟨h₁.trans (Nat.add_assoc _ _ _), fun x => (h₂ x).trans ?_⟩
      by_cases hx : x = v
      · subst hx
        simp [hv, hlt]
      · simp [hx]

section Kernel

variable {a : AdjacencyList W}

/-- The neighbours of a vertex of an undirected graph list the vertex too. -/
theorem mem_targets_comm (ha : a.Invariant) (hd : a.isDirected = false) {u v : ℕ} :
    v ∈ (a.outgoing u).targets ↔ u ∈ (a.outgoing v).targets := by
  have hmirror : ∀ {u v}, v ∈ (a.outgoing u).targets → u ∈ (a.outgoing v).targets := by
    intro u v h
    obtain ⟨w, hw⟩ := EdgeList.mem_targets.mp h
    have hback := (ha.mirror u v w).mp hw
    rw [back, hd] at hback
    exact EdgeList.mem_targets.mpr ⟨w, by simpa using hback⟩
  exact ⟨hmirror, hmirror⟩

theorem common_comm (ha : a.Invariant) (u v : ℕ) : a.common u v = a.common v u := by
  have hcard : ∀ u v, a.common u v =
      ((a.outgoing v).targets.toFinset ∩ (a.outgoing u).targets.toFinset).card := by
    intro u v
    rw [common, List.countP_eq_length_filter,
      ← List.toFinset_card_of_nodup ((ha.nodup v).1.filter _)]
    congr 1
    ext x
    simp
  rw [hcard, hcard, Finset.inter_comm]

/-- A vertex with a single neighbour has no neighbour in common with it. -/
theorem common_eq_zero (ha : a.Invariant) {u v : ℕ} (hlen : (a.outgoing u).length < 2)
    (hv : v ∈ (a.outgoing u).targets) : a.common u v = 0 := by
  have hlen' : (a.outgoing u).targets.length < 2 := by simpa [EdgeList.targets] using hlen
  -- a vertex with one neighbour is the corner of no triangle
  have hsingle : (a.outgoing u).targets = [v] := by
    have hpos := List.length_pos_of_mem hv
    obtain ⟨x, hx⟩ := List.length_eq_one_iff.mp (by omega : (a.outgoing u).targets.length = 1)
    rw [hx] at hv ⊢
    rw [List.mem_singleton.mp hv]
  rw [common, List.countP_eq_zero, hsingle]
  intro x hx
  have hne : x ≠ v := by
    rintro rfl
    exact ha.loopless x hx
  simpa using hne

/-- The coefficient of a vertex, in terms of common neighbours. -/
def coefficient (a : AdjacencyList W) (v : ℕ) : ℚ :=
  if (a.outgoing v).length < 2 then 0
  else ((∑ u ∈ (a.outgoing v).targets.toFinset, a.common v u : ℕ) : ℚ) /
    ((a.outgoing v).length * ((a.outgoing v).length - 1) : ℕ)

/-- The state after the visit of the vertices `done`: the counts of the others hold what the edges
from `done` contribute. -/
structure Visited (a : AdjacencyList W) (done : List ℕ) (s : LccState) : Prop where
  counts : ∀ x ∈ a.nodes, x ∉ done → s.alreadyVisited x =
    ∑ v ∈ done.toFinset, if x ∈ (a.outgoing v).targets then a.common v x else 0
  scores : ∀ v ∈ done, s.result v = a.coefficient v

/-- What the edges from the vertices below `v` contribute is the half of its count. -/
theorem sum_done_eq (ha : a.Invariant) (hd : a.isDirected = false) {done : List ℕ} {v : ℕ}
    (hbelow : ∀ x ∈ a.nodes, x ∈ done ↔ x < v) :
    ∑ u ∈ done.toFinset, (if v ∈ (a.outgoing u).targets then a.common u v else 0) =
      ∑ u ∈ (a.outgoing v).targets.toFinset.filter (fun u => u < v), a.common v u := by
  rw [← Finset.sum_filter]
  refine Finset.sum_congr ?_ fun u _ => common_comm ha u v
  -- the vertices visited before are the smaller ones
  ext u
  simp only [Finset.mem_filter, List.mem_toFinset]
  constructor
  · rintro ⟨hu, hv⟩
    have hu' := (mem_targets_comm ha hd).mp hv
    exact ⟨hu', (hbelow u (ha.present v u (Or.inl hu'))).mp hu⟩
  · rintro ⟨hu, hlt⟩
    exact ⟨(hbelow u (ha.present v u (Or.inl hu))).mpr hlt, (mem_targets_comm ha hd).mp hu⟩

/-- **The visit of a vertex** after those below it. -/
theorem Visited.lccVertex (ha : a.Invariant) (hd : a.isDirected = false) {done : List ℕ}
    {s : LccState} (h : Visited a done s) {v : ℕ} (hv : v ∈ a.nodes)
    (hbelow : ∀ x ∈ a.nodes, x ∈ done ↔ x < v) : Visited a (done ++ [v]) (a.lccVertex s v) := by
  have hnew : v ∉ done := fun hc => absurd ((hbelow v hv).mp hc) (lt_irrefl v)
  have hset : (done ++ [v]).toFinset = insert v done.toFinset := by
    ext x
    simp
  have hdegree : a.getDegree v = (a.outgoing v).length := by simp [getDegree, hd]
  have hrest : ∀ (f : ℕ → ℚ) (d : ℚ), (∀ x ∈ done, f x = a.coefficient x) → d = a.coefficient v →
      ∀ x ∈ done ++ [v], Function.update f v d x = a.coefficient x := by
    intro f d hf hdv x hx
    rcases List.mem_append.mp hx with hx | hx
    · rw [Function.update_of_ne (ne_of_mem_of_not_mem hx hnew)]
      exact hf x hx
    · obtain rfl := List.mem_singleton.mp hx
      rw [Function.update_self, hdv]
  unfold AdjacencyList.lccVertex
  simp only [hdegree]
  split_ifs with hdeg
  · obtain ⟨hcount, hmap⟩ := a.foldl_probeNeighbour v (a.outgoing v).targets (ha.nodup v).1
      (s.alreadyVisited v, s.alreadyVisited)
    simp only at hcount hmap
    refine ⟨fun x hx hxd => ?_, hrest s.result _ h.scores ?_⟩
    · rw [List.mem_append, not_or] at hxd
      have hnotlt : ¬x < v := fun hlt => hxd.1 ((hbelow x hx).mpr hlt)
      change (a.probe v (s.alreadyVisited v, s.alreadyVisited)).2 x = _
      rw [hset, Finset.sum_insert (by simpa using hnew), probe, hmap, h.counts x hx hxd.1]
      simp only [hnotlt, not_false_eq_true, and_true]
      exact Nat.add_comm _ _
    · rw [coefficient, if_neg (by omega), probe, hcount, h.counts v hv hnew,
        sum_done_eq ha hd hbelow, Finset.sum_filter_add_sum_filter_not]
  · -- a vertex with fewer than two neighbours contributes to no count
    refine ⟨fun x hx hxd => ?_, hrest s.result _ h.scores ?_⟩
    · rw [List.mem_append, not_or] at hxd
      rw [hset, Finset.sum_insert (by simpa using hnew), h.counts x hx hxd.1]
      by_cases hx' : x ∈ (a.outgoing v).targets
      · rw [common_eq_zero ha (by omega) hx', ite_self, Nat.zero_add]
      · rw [if_neg hx', Nat.zero_add]
    · rw [coefficient, if_pos (by omega)]

/-- **The kernel** computes the coefficients of all the vertices. -/
theorem lccUndirected_eq (ha : a.Invariant) (hd : a.isDirected = false) {v : ℕ}
    (hv : v ∈ a.nodes) : a.lccUndirected.result v = a.coefficient v := by
  set order := a.nodes.keys.insertionSort (· ≤ ·) with horder
  have hperm : order.Perm a.nodes.keys := List.perm_insertionSort _ _
  have hsorted : order.Pairwise (· < ·) := by
    have hle : order.Pairwise (· ≤ ·) := List.pairwise_insertionSort _ _
    have hnodup : order.Nodup := hperm.nodup_iff.mpr a.nodes.keys_nodup
    exact (hle.and hnodup).imp fun h => lt_of_le_of_ne h.1 h.2
  have hend : Visited a order (order.foldl a.lccVertex ⟨fun _ => 0, fun _ => 0⟩) := by
    apply foldl_prefix (Visited a)
    · exact ⟨fun x _ _ => by simp, by simp⟩
    · intro done x rest s heq hs
      have hx : x ∈ a.nodes := AList.mem_keys.mpr (hperm.mem_iff.mp (by simp [heq]))
      refine hs.lccVertex ha hd hx fun y hy => ?_
      -- the order is increasing, so what is left is above `x`
      rw [heq] at hsorted
      obtain ⟨-, hright, hcross⟩ := List.pairwise_append.mp hsorted
      have hy' : y ∈ done ++ x :: rest := heq ▸ hperm.mem_iff.mpr (AList.mem_keys.mp hy)
      refine ⟨fun hyd => hcross y hyd x (by simp), fun hlt => ?_⟩
      rcases List.mem_append.mp hy' with hyd | hyr
      · exact hyd
      · rcases List.mem_cons.mp hyr with rfl | hyr
        · exact absurd hlt (lt_irrefl y)
        · exact absurd ((List.pairwise_cons.mp hright).1 y hyr) (by omega)
  exact hend.scores v (hperm.mem_iff.mpr (AList.mem_keys.mp hv))

end Kernel

end AdjacencyList

/-! ## The two libraries -/

namespace Represents

variable {W : Type} [Zero W] {g : CSR W} {a : AdjacencyList W}

/-- The neighbours of a vertex in the two libraries, in some order. -/
theorem targets_perm (h : Represents g a) (hg : g.SimpleUndirected) {v : ℕ}
    (hv : v < g.numVertices) :
    (a.outgoing (g.ext v)).targets.Perm ((g.outNeighbours v).map g.ext) := by
  have hlt : ∀ u ∈ g.outNeighbours v, u < g.numVertices := fun u hu =>
    hg.wellFormed.lt_of_mem_outNeighbours hv hu
  have hnodup : ((g.outNeighbours v).map g.ext).Nodup :=
    (hg.nodup hv).map_on fun x hx y hy => h.ext_inj (hlt x hx) (hlt y hy)
  -- neither list has duplicates, so that it is enough to compare their members
  rw [List.perm_ext_iff_of_nodup (h.invariant.nodup (g.ext v)).1 hnodup]
  intro x
  rw [EdgeList.mem_targets, List.mem_map]
  constructor
  · rintro ⟨w, hw⟩
    obtain ⟨u, -, rfl, hu⟩ := h.exists_of_mem_outgoing hv hw
    exact ⟨u, CSR.mem_outNeighbours_iff.mpr ⟨w, hu⟩, rfl⟩
  · rintro ⟨u, hu, rfl⟩
    obtain ⟨w, hw⟩ := CSR.mem_outNeighbours_iff.mp hu
    exact ⟨w, (h.out v hv u (hlt u hu) w).mp hw⟩

theorem length_outgoing (h : Represents g a) (hg : g.SimpleUndirected) {v : ℕ}
    (hv : v < g.numVertices) : (a.outgoing (g.ext v)).length = g.getOutDegree v := by
  have hlen := (h.targets_perm hg hv).length_eq
  rwa [EdgeList.targets, List.length_map, List.length_map, CSR.length_outNeighbours] at hlen

/-- Two vertices have as many common neighbours in the two libraries. -/
theorem common_eq (h : Represents g a) (hg : g.SimpleUndirected) {u v : ℕ}
    (hu : u < g.numVertices) (hv : v < g.numVertices) :
    a.common (g.ext v) (g.ext u) =
      (g.outNeighbours u).countP fun w => w ∈ (g.outNeighbours v).toFinset := by
  rw [AdjacencyList.common, (h.targets_perm hg hu).countP_eq, List.countP_map]
  refine List.countP_congr fun w hw => ?_
  have hwn := hg.wellFormed.lt_of_mem_outNeighbours hu hw
  simp only [Function.comp_apply, decide_eq_true_eq, (h.targets_perm hg hv).mem_iff, List.mem_map,
    List.mem_toFinset]
  constructor
  · rintro ⟨x, hx, heq⟩
    rwa [← h.ext_inj (hg.wellFormed.lt_of_mem_outNeighbours hv hx) hwn heq]
  · exact fun hw' => ⟨w, hw', rfl⟩

/-- **The coefficient** of a vertex in the two libraries. -/
theorem coefficient_eq (h : Represents g a) (hg : g.SimpleUndirected) {v : ℕ}
    (hv : v < g.numVertices) : a.coefficient (g.ext v) = g.clusteringCoefficient v := by
  have hsum : ∑ u ∈ (a.outgoing (g.ext v)).targets.toFinset, a.common (g.ext v) u =
      g.countTriangles v := by
    rw [List.sum_toFinset _ (h.invariant.nodup (g.ext v)).1,
      ((h.targets_perm hg hv).map _).sum_eq, List.map_map, CSR.countTriangles_eq_sum]
    refine congrArg List.sum (List.map_congr_left fun u hu => ?_)
    exact h.common_eq hg (hg.wellFormed.lt_of_mem_outNeighbours hv hu) hv
  simp only [AdjacencyList.coefficient, CSR.clusteringCoefficient, h.length_outgoing hg hv, hsum,
    CSR.countTriangles_eq hg hv]

end Represents

namespace CSR

/-- **The three implementations agree.** Every run of the workers of `CSR_LCC` ends, and ends with
every vertex processed once; its scores, those of the base class and those of the adjacency list
that holds the same graph are the clustering coefficients. -/
theorem lcc_agree {W : Type} [Zero W] {g : CSR W} (hg : g.SimpleUndirected) {numWorkers : ℕ}
    (hworkers : 0 < numWorkers) :
    (WellFounded fun s' s => LccStep g numWorkers s s') ∧
    (∀ s, Relation.ReflTransGen (LccStep g numWorkers) lccStart s →
      (¬∃ s', LccStep g numWorkers s s') →
      s.processed.Perm (List.range g.numVertices) ∧
        ∀ v < g.numVertices, g.computeScores s v = g.clusteringCoefficient v) ∧
    (∀ v < g.numVertices, g.doLccUndirected v = g.clusteringCoefficient v) ∧
    ∀ a : AdjacencyList W, Represents g a → ∀ v < g.numVertices,
      a.lccUndirected.result (g.ext v) = g.clusteringCoefficient v := by
  refine ⟨?_, fun s hrun hend => ?_, fun v hv => doLccUndirected_eq hg hv, fun a h v hv => ?_⟩
  · exact Subrelation.wf (fun hstep => lccWork_lt hstep) (measure (g.lccWork numWorkers)).wf
  · have hinv := LccInvariant.run hrun
    -- a run ends when every worker is finished
    have hfin : ∀ i < numWorkers, (s.workers i).finished = true := by
      intro i hi
      by_contra hnot
      exact hend (exists_lccStep hi (by simpa using hnot))
    exact ⟨hinv.processed_perm hworkers hfin, fun v hv => hinv.scores hg hworkers hfin hv⟩
  · rw [AdjacencyList.lccUndirected_eq h.invariant (h.mode.trans hg.undirected) (h.ext_mem hv)]
    exact h.coefficient_eq hg hv

/-- The complete graph on three vertices. -/
def triangle : CSR ℕ where
  isDirected := false
  numVertices := 3
  numEdges := 3
  ext2log := [⟨10, 0⟩, ⟨20, 1⟩, ⟨30, 2⟩].toAList
  log2ext := [10, 20, 30]
  outV := [2, 4, 6]
  outE := [1, 2, 0, 2, 0, 1]
  outW := [1, 1, 1, 1, 1, 1]
  inV := [2, 4, 6]
  inE := [1, 2, 0, 2, 0, 1]
  inW := [1, 1, 1, 1, 1, 1]

theorem triangle_simple : triangle.SimpleUndirected where
  wellFormed := by
    constructor <;> exact ⟨rfl, by simp [triangle], rfl, rfl, by simp [triangle]⟩
  undirected := rfl
  sorted := by decide
  symm := by
    rintro u v ⟨hu, hv⟩
    revert v
    change u < 3 at hu
    interval_cases u <;> decide
  loopless := by
    rintro v ⟨hv, hmem⟩
    revert hmem
    change v < 3 at hv
    interval_cases v <;> decide

theorem lcc_triangle :
    (WellFounded fun s' s => LccStep triangle 2 s s') ∧
    (∀ s, Relation.ReflTransGen (LccStep triangle 2) lccStart s →
      (¬∃ s', LccStep triangle 2 s s') →
      s.processed.Perm (List.range 3) ∧
        ∀ v < 3, triangle.computeScores s v = triangle.clusteringCoefficient v) ∧
    (∀ v < 3, triangle.doLccUndirected v = triangle.clusteringCoefficient v) ∧
    ∀ a : AdjacencyList ℕ, Represents triangle a → ∀ v < 3,
      a.lccUndirected.result (triangle.ext v) = triangle.clusteringCoefficient v :=
  lcc_agree triangle_simple (by decide)

end CSR

end GfeDriver
