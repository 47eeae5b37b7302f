import GfeDriver.Foundation.Loop
import GfeDriver.Foundation.MergeMarker
import GfeDriver.Foundation.Triangles
import GfeDriver.Baseline.Csr

/-!
# Local clustering coefficients on undirected graphs

The coefficient of a vertex is the number of ordered pairs of adjacent neighbours it has, over the
number of ordered pairs of neighbours. `do_lcc_undirected` counts these pairs through a hash set.
`CSR_LCC` enumerates each triangle once, from its largest vertex, by merging sorted intervals, and
credits its three corners with atomic increments; its workers take ranges of vertices from a shared
counter. The counters are natural numbers and the scores exact rationals.

## Main definitions

* `CSR.SimpleUndirected`: an undirected graph without loops, in sorted intervals
* `CSR.clusteringCoefficient`: the coefficient of a vertex
* `CSR.doLccUndirected`: the kernel of the base class
* `CSR.processVertex`: the increments issued by `CSR_LCC::Worker::process_vertex`

## Main results

* `doLccUndirected_eq`: the kernel computes the coefficients
* `mergeScan_eq`, `mem_triangleMatches`: the merge finds every triangle once
* `sum_credit_processVertex`: the increments of all vertices add up to the closed pairs
-/

namespace GfeDriver

open Foundation

namespace CSR

variable {W : Type}

/-- An undirected graph without loops or parallel edges. -/
structure SimpleUndirected (g : CSR W) : Prop where
  wellFormed : g.WellFormed
  undirected : g.isDirected = false
  sorted : ∀ v < g.numVertices, (g.outNeighbours v).Pairwise (· < ·)
  symm : ∀ u v, g.Arc u v → g.Arc v u
  loopless : ∀ v, ¬g.Arc v v

/-- **The clustering coefficient** of a vertex. -/
def clusteringCoefficient (g : CSR W) (v : ℕ) : ℚ :=
  if g.getOutDegree v < 2 then 0
  else (closedPairs (Finset.range g.numVertices) g.Arc v).card /
    (g.getOutDegree v * (g.getOutDegree v - 1) : ℕ)

/-! ## The kernel of the base class -/

/-- The triangles that `do_lcc_undirected` finds at `v`: the neighbours of the neighbours of `v`
that are in the hash set of the neighbours of `v`. -/
def countTriangles (g : CSR W) (v : ℕ) : ℕ :=
  let neighbours := (g.outNeighbours v).toFinset
  (g.outNeighbours v).foldl (fun numTriangles u =>
    (g.outNeighbours u).foldl (fun numTriangles w =>
      if w ∈ neighbours then numTriangles + 1 else numTriangles) numTriangles) 0

/-- `CSR::do_lcc_undirected`, when no timeout fires: the entry of `lcc` that the iteration for `v`
writes. -/
def doLccUndirected (g : CSR W) (v : ℕ) : ℚ :=
  let vDegreeOut := g.getOutDegree v
  if vDegreeOut < 2 then 0
  else (g.countTriangles v : ℚ) / (vDegreeOut * (vDegreeOut - 1) : ℕ)

/-! ## The merge of `CSR_LCC` -/

/-- The inner loop of `process_vertex`: the neighbours `n3` of `n2` that are not above `n2` and
occur among the neighbours of `n1`. The position `marker` is the suffix of `m_neighbours` it starts,
and `dropWhile` is the `do`-`while` loop that advances it. -/
def mergeScan (n2 : ℕ) : List ℕ → List ℕ → List ℕ
  | _, [] => []
  | marker, n3 :: rest =>
    if n3 > n2 then []
    else
      match marker.dropWhile (fun x => n3 > x) with
      | [] => []
      | x :: marker' =>
        if n3 = x then n3 :: (if marker' = [] then [] else mergeScan n2 marker' rest)
        else mergeScan n2 (x :: marker') rest

/-- The outer loop of `process_vertex`: the matches `(n2, n3)`, for the neighbours `n2` of `n1` left
to visit when the vector `m_neighbours` holds those visited. -/
def scanVertex (g : CSR W) (n1 : ℕ) : List ℕ → List ℕ → List (ℕ × ℕ)
  | _, [] => []
  | neighbours, n2 :: rest =>
    if n2 > n1 then []
    else ((mergeScan n2 (neighbours ++ [n2]) (g.outNeighbours n2)).map fun n3 => (n2, n3)) ++
      g.scanVertex n1 (neighbours ++ [n2]) rest

/-- The triangles found from their largest corner `n1`. -/
def triangleMatches (g : CSR W) (n1 : ℕ) : List (ℕ × ℕ) := g.scanVertex n1 [] (g.outNeighbours n1)

/-- `CSR_LCC::Worker::process_vertex`: the increments of `num_triangles` it issues, in order. -/
def processVertex (g : CSR W) (n1 : ℕ) : List (ℕ × ℕ) :=
  let found := g.triangleMatches n1
  let numTriangles := 2 * found.length
  (found.flatMap fun p => [(p.1, 2), (p.2, 2)]) ++
    if numTriangles ≠ 0 then [(n1, numTriangles)] else []

/-- What a list of increments adds to the counter of `v`. -/
def credit (increments : List (ℕ × ℕ)) (v : ℕ) : ℕ :=
  (increments.map fun e => if e.1 = v then e.2 else 0).sum

theorem credit_append (l l' : List (ℕ × ℕ)) (v : ℕ) :
    credit (l ++ l') v = credit l v + credit l' v := by
  simp [credit]

/-! ## Neighbours -/

section Neighbours

variable {g : CSR W}

theorem SimpleUndirected.nodup (hg : g.SimpleUndirected) {v : ℕ} (hv : v < g.numVertices) :
    (g.outNeighbours v).Nodup :=
  (hg.sorted v hv).imp fun h => h.ne

theorem toFinset_outNeighbours (hg : g.WellFormed) {v : ℕ} (hv : v < g.numVertices) :
    (g.outNeighbours v).toFinset = (Finset.range g.numVertices).filter (g.Arc v) := by
  ext x
  simp only [List.mem_toFinset, Finset.mem_filter, Finset.mem_range, Arc, hv, true_and]
  exact ⟨fun hx => ⟨hg.lt_of_mem_outNeighbours hv hx, hx⟩, And.right⟩

theorem foldl_count (l : List ℕ) (p : ℕ → Prop) [DecidablePred p] (n : ℕ) :
    l.foldl (fun n w => if p w then n + 1 else n) n = n + l.countP fun w => p w := by
  induction l generalizing n with
  | nil => rfl
  | cons w l ih =>
    rw [List.foldl_cons, ih, List.countP_cons]
    by_cases hw : p w
    · simp only [hw, if_true, decide_true]
      omega
    · simp [hw]

theorem countTriangles_eq_sum (v : ℕ) :
    g.countTriangles v = ((g.outNeighbours v).map fun u =>
      (g.outNeighbours u).countP fun w => w ∈ (g.outNeighbours v).toFinset).sum := by
  unfold countTriangles
  simp only [foldl_count]
  exact foldl_add ..

/-- The kernel counts the closed pairs of a vertex. -/
theorem countTriangles_eq (hg : g.SimpleUndirected) {v : ℕ} (hv : v < g.numVertices) :
    g.countTriangles v = (closedPairs (Finset.range g.numVertices) g.Arc v).card := by
  have hnodup := hg.nodup hv
  rw [countTriangles_eq_sum, card_closedPairs, ← List.sum_toFinset _ hnodup,
    toFinset_outNeighbours hg.wellFormed hv]
  -- for each neighbour, the neighbours that the two have in common
  refine Finset.sum_congr rfl fun u hu => ?_
  have hun : u < g.numVertices := Finset.mem_range.mp (Finset.mem_filter.mp hu).1
  rw [List.countP_eq_length_filter, ← List.toFinset_card_of_nodup ((hg.nodup hun).filter _)]
  congr 1
  ext w
  simp only [List.mem_toFinset, List.mem_filter, Finset.mem_filter, Finset.mem_range,
    decide_eq_true_eq, Arc, hv, hun, true_and]
  constructor
  · rintro ⟨hw, hwn, hvw⟩
    exact ⟨hwn, hvw, hw⟩
  · rintro ⟨hwn, hvw, hw⟩
    exact ⟨hw, hwn, hvw⟩

/-- **The kernel of the base class** computes the clustering coefficients. -/
theorem doLccUndirected_eq (hg : g.SimpleUndirected) {v : ℕ} (hv : v < g.numVertices) :
    g.doLccUndirected v = g.clusteringCoefficient v := by
  simp only [doLccUndirected, clusteringCoefficient, countTriangles_eq hg hv]

/-- The coefficient as the share of the ordered pairs of neighbours that are edges. -/
theorem clusteringCoefficient_eq_linkedScore (hg : g.SimpleUndirected) {v : ℕ}
    (hv : v < g.numVertices) : g.clusteringCoefficient v =
      linkedScore ((Finset.range g.numVertices).filter (g.Arc v)) g.Arc := by
  have hcard : ((Finset.range g.numVertices).filter (g.Arc v)).card = g.getOutDegree v := by
    rw [← toFinset_outNeighbours hg.wellFormed hv, List.toFinset_card_of_nodup (hg.nodup hv),
      length_outNeighbours]
  have hpairs : closedPairs (Finset.range g.numVertices) g.Arc v =
      linkedPairs ((Finset.range g.numVertices).filter (g.Arc v)) g.Arc := by
    ext ⟨x, y⟩
    simp only [closedPairs, linkedPairs, Finset.mem_filter, Finset.mem_product, Finset.mem_offDiag]
    constructor
    · rintro ⟨⟨hx, hy⟩, hvx, hvy, hxy⟩
      exact ⟨⟨⟨hx, hvx⟩, ⟨hy, hvy⟩, fun heq => hg.loopless x (heq ▸ hxy)⟩, hxy⟩
    · rintro ⟨⟨⟨hx, hvx⟩, ⟨hy, hvy⟩, -⟩, hxy⟩
      exact ⟨⟨hx, hy⟩, hvx, hvy, hxy⟩
  rw [clusteringCoefficient, linkedScore, hcard, hpairs]

end Neighbours

/-! ## The merge finds every triangle once -/

/-- What the marker skips in an increasing list is what is too small. -/
theorem dropWhile_eq_filter (n3 : ℕ) (l : List ℕ) (hl : l.Pairwise (· < ·)) :
    (l.dropWhile fun x => n3 > x) = l.filter fun x => n3 ≤ x := by
  induction l with
  | nil => rfl
  | cons x l ih =>
    obtain ⟨hx, hl'⟩ := List.pairwise_cons.mp hl
    by_cases hlt : n3 > x
    · rw [List.dropWhile_cons_of_pos (by simpa using hlt), ih hl',
        List.filter_cons_of_neg (by simpa using hlt)]
    -- the list is sorted, so that nothing after the first larger item is smaller
    · rw [List.dropWhile_cons_of_neg (by simpa using hlt), eq_comm, List.filter_eq_self]
      intro y hy
      rcases List.mem_cons.mp hy with rfl | hy
      · simpa using hlt
      · have := hx y hy
        simp only [decide_eq_true_eq]
        omega

/-- An element that is done does not count for those after it. -/
theorem filter_mem_cons (n2 : ℕ) {n3 : ℕ} {rest marker : List ℕ} (hn3 : ∀ y ∈ rest, n3 < y) :
    (rest.filter fun y => y ≤ n2 ∧ y ∈ n3 :: marker) =
      rest.filter fun y => y ≤ n2 ∧ y ∈ marker := by
  refine List.filter_congr fun y hy => ?_
  have hne : y ≠ n3 := (hn3 y hy).ne'
  simp [hne]

/-- **The merge** of two increasing lists finds their common elements up to `n2`. -/
theorem mergeScan_eq (n2 : ℕ) (l : List ℕ) (hl : l.Pairwise (· < ·)) (marker : List ℕ)
    (hmarker : marker.Pairwise (· < ·)) :
    mergeScan n2 marker l = l.filter fun x => x ≤ n2 ∧ x ∈ marker := by
  induction l generalizing marker with
  | nil => simp [mergeScan]
  | cons n3 rest ih =>
    obtain ⟨hn3, hrest⟩ := List.pairwise_cons.mp hl
    rw [mergeScan, dropWhile_eq_filter n3 marker hmarker]
    split_ifs with hbreak
    · -- the elements left are all above `n2`
      have habove : ∀ x ∈ n3 :: rest, n2 < x := lt_of_lt_head hl (by simpa using hbreak)
      symm
      rw [List.filter_eq_nil_iff]
      intro x hx
      simp [not_le_of_gt (habove x hx)]
    · -- what the marker skips is below all that is left
      have hskip : (n3 :: rest).filter (fun x => x ≤ n2 ∧ x ∈ marker) = (n3 :: rest).filter
          fun x => x ≤ n2 ∧ x ∈ marker.filter fun y => n3 ≤ y := by
        refine List.filter_congr fun x hx => ?_
        have hge : n3 ≤ x := (List.mem_cons.mp hx).elim (fun h => h.ge) fun h => (hn3 x h).le
        simp [List.mem_filter, hge]
      have hsorted : (marker.filter fun y => n3 ≤ y).Pairwise (· < ·) := hmarker.filter _
      have hle : ∀ x ∈ marker.filter (fun y => n3 ≤ y), n3 ≤ x := by
        intro x hx
        simpa using (List.mem_filter.mp hx).2
      rw [hskip]
      cases hm : marker.filter (fun y => n3 ≤ y) with
      | nil => simp
      | cons x marker' =>
        rw [hm] at hsorted hle
        simp only
        split_ifs with hmatch hend
        · subst hmatch hend
          rw [List.filter_cons_of_pos (by simpa using hbreak), filter_mem_cons n2 hn3]
          simp
        · subst hmatch
          rw [List.filter_cons_of_pos (by simpa using hbreak), filter_mem_cons n2 hn3,
            ih hrest marker' (List.pairwise_cons.mp hsorted).2]
        · have hlt : n3 < x := lt_of_le_of_ne (hle x (by simp)) hmatch
          have habove : ∀ y ∈ x :: marker', n3 < y := lt_of_lt_head hsorted (by simpa using hlt)
          have hnot : n3 ∉ x :: marker' := fun hmem => lt_irrefl n3 (habove n3 hmem)
          rw [ih hrest (x :: marker') hsorted, List.filter_cons_of_neg (by simp [hnot])]

section Matches

variable {g : CSR W}

theorem scanVertex_eq (hg : g.SimpleUndirected) {n1 : ℕ} (hn1 : n1 < g.numVertices)
    (neighbours rest : List ℕ) (heq : neighbours ++ rest = g.outNeighbours n1) :
    g.scanVertex n1 neighbours rest = (rest.filter fun n2 => n2 ≤ n1).flatMap fun n2 =>
      ((g.outNeighbours n2).filter fun n3 => n3 ≤ n2 ∧ n3 ∈ g.outNeighbours n1).map
        fun n3 => (n2, n3) := by
  induction rest generalizing neighbours with
  | nil => simp [scanVertex]
  | cons n2 rest ih =>
    have hsorted : (neighbours ++ n2 :: rest).Pairwise (· < ·) := heq ▸ hg.sorted n1 hn1
    obtain ⟨hleft, hright, hcross⟩ := List.pairwise_append.mp hsorted
    obtain ⟨hn2, -⟩ := List.pairwise_cons.mp hright
    rw [scanVertex]
    split_ifs with hbreak
    · symm
      rw [List.flatMap_eq_nil_iff]
      intro y hy
      obtain ⟨hy, hyle⟩ := List.mem_filter.mp hy
      rcases List.mem_cons.mp hy with rfl | hy
      · simp only [decide_eq_true_eq] at hyle
        omega
      · have := hn2 y hy
        simp only [decide_eq_true_eq] at hyle
        omega
    · have hlt : n2 < g.numVertices := by
        apply hg.wellFormed.lt_of_mem_outNeighbours hn1
        rw [← heq]
        simp
      have hprefix : (neighbours ++ [n2]).Pairwise (· < ·) := by
        refine hsorted.sublist ?_
        simp
      rw [List.filter_cons_of_pos (by simpa using hbreak), List.flatMap_cons,
        mergeScan_eq n2 _ (hg.sorted n2 hlt) _ hprefix,
        ih (neighbours ++ [n2]) (by simpa using heq)]
      congr 2
      -- the neighbours of `n1` up to `n2` are those visited so far
      refine List.filter_congr fun x _ => ?_
      rw [← heq]
      by_cases hx : x ≤ n2
      · have hnot : x ∉ rest := fun hc => absurd (hn2 x hc) (by omega)
        simp [hx, hnot]
      · simp [hx]

/-- **The merge lists the triangles** with the largest corner `n1`. -/
theorem triangleMatches_eq (hg : g.SimpleUndirected) {n1 : ℕ} (hn1 : n1 < g.numVertices) :
    g.triangleMatches n1 = triangleList g.outNeighbours n1 :=
  scanVertex_eq hg hn1 [] (g.outNeighbours n1) rfl

theorem SimpleUndirected.self_not_mem (hg : g.SimpleUndirected) {v : ℕ} (hv : v < g.numVertices) :
    v ∉ g.outNeighbours v :=
  fun hmem => hg.loopless v ⟨hv, hmem⟩

/-- **The triangles** with the largest corner `n1`, each found once. -/
theorem mem_triangleMatches (hg : g.SimpleUndirected) {n1 : ℕ} (hn1 : n1 < g.numVertices) :
    (g.triangleMatches n1).Nodup ∧ (g.triangleMatches n1).toFinset =
      triangleEdges (Finset.range g.numVertices) g.Arc n1 := by
  have hlt : ∀ n2 ∈ g.outNeighbours n1, n2 < g.numVertices :=
    fun n2 hn2 => hg.wellFormed.lt_of_mem_outNeighbours hn1 hn2
  rw [triangleMatches_eq hg hn1]
  constructor
  · exact nodup_triangleList (hg.nodup hn1) fun n2 hn2 => hg.nodup (hlt n2 hn2)
  · ext ⟨n2, n3⟩
    have hmem := mem_triangleList (b := n2) (c := n3) (hg.self_not_mem hn1)
      fun n2 hn2 => hg.self_not_mem (hlt n2 hn2)
    simp only [List.mem_toFinset, hmem, triangleEdges, Finset.mem_filter, Finset.mem_product,
      Finset.mem_range]
    constructor
    · rintro ⟨h21, h32, h12, h13, h23⟩
      exact ⟨⟨hlt n2 h12, hlt n3 h13⟩, h21, h32, ⟨hn1, h12⟩, ⟨hn1, h13⟩, hlt n2 h12, h23⟩
    · rintro ⟨-, h21, h32, ⟨-, h12⟩, ⟨-, h13⟩, -, h23⟩
      exact ⟨h21, h32, h12, h13, h23⟩

/-- The increments of one vertex credit the three corners of each triangle with two. -/
theorem credit_processVertex (n1 v : ℕ) :
    credit (g.processVertex n1) v = ((g.triangleMatches n1).map fun p =>
      2 * ((if n1 = v then 1 else 0) + (if p.1 = v then 1 else 0) +
        if p.2 = v then 1 else 0)).sum := by
  -- the increment of `n1` is made once, after the others
  have htail : ∀ n, credit (if n ≠ 0 then [(n1, n)] else []) v = if n1 = v then n else 0 := by
    intro n
    by_cases h0 : n = 0
    · simp [h0, credit]
    · simp [h0, credit]
  simp only [processVertex, credit_append, htail]
  induction g.triangleMatches n1 with
  | nil => simp [credit]
  | cons p found ih =>
    rw [List.flatMap_cons, credit_append, List.map_cons, List.sum_cons, ← ih]
    have hpair : credit [(p.1, 2), (p.2, 2)] v =
        2 * ((if p.1 = v then 1 else 0) + if p.2 = v then 1 else 0) := by
      simp only [credit, List.map_cons, List.map_nil, List.sum_cons, List.sum_nil]
      split_ifs <;> rfl
    rw [hpair, List.length_cons]
    split_ifs <;> omega

/-- **All the increments** to the counter of a vertex add up to its closed pairs. -/
theorem sum_credit_processVertex (hg : g.SimpleUndirected) {v : ℕ} (hv : v < g.numVertices) :
    ∑ n1 ∈ Finset.range g.numVertices, credit (g.processVertex n1) v =
      (closedPairs (Finset.range g.numVertices) g.Arc v).card := by
  rw [← sum_triangle_corners _ hg.symm hg.loopless (Finset.mem_range.mpr hv)]
  refine Finset.sum_congr rfl fun n1 hn1 => ?_
  obtain ⟨hnodup, hset⟩ := mem_triangleMatches hg (Finset.mem_range.mp hn1)
  rw [credit_processVertex, ← hset, List.sum_toFinset _ hnodup]

end Matches

end CSR

end GfeDriver
