import GfeDriver.Foundation.Loop
import GfeDriver.Foundation.Relaxation
import GfeDriver.Foundation.Schedule
import GfeDriver.Baseline.Csr

/-!
# Delta-stepping single-source shortest paths

`do_sssp` relaxes the vertices of one bin at a time. An improved vertex goes to the bin of its new
distance, in the bins of the thread that improved it, and may be in several bins at once: an entry
is stale when the distance of its vertex dropped below the current bin after it was made, and the
test `dist[u] >= delta * curr_bin_index` skips it. The index of the current bin and the number of
entries of the frontier are double-buffered by the parity of the iteration.

Weights, distances and `delta` are exact non-negative rationals, with `⊤` for the distance of an
unreached vertex. The sentinel `kMaxBin` is beyond the size of any vector of bins, and is `⊤` too.
The frontier is a function of the index: the buffer is as large as the run needs. The entries of
a frontier are relaxed one at a time, in any order and by any thread, so the `compare_and_swap` on
a distance that was just read succeeds.

## Main definitions

* `Team`: the threads of the parallel region and the orders in which they act
* `relaxEdge`, `relaxEntry`, `scanBins`, `copyBin`: the steps of one iteration
* `doSssp`: the search

## Main results

* `Relaxing.relaxEdge`, `foldl_relaxEntry`: what the relaxations of one iteration preserve
* `SsspInvariant.iteration`: one iteration keeps the invariant and decreases the variant
* `doSssp_isMinWeight`: termination and distances
-/

namespace GfeDriver

open Foundation

/-- The threads of the parallel region of `do_sssp`: which of them takes an entry of the frontier,
in which order the entries are relaxed, and in which order the threads enter the critical section
and reserve their part of the next frontier. -/
structure Team where
  threads : ℕ
  worker : ℕ → ℕ → ℕ
  worker_lt : ∀ iter i, worker iter i < threads
  entries : Schedule ℕ
  scans : Schedule ℕ
  copies : Schedule ℕ

/-- A single thread. -/
def Team.single : Team :=
  ⟨1, fun _ _ => 0, fun _ _ => Nat.one_pos, .sequential, .sequential, .sequential⟩

namespace CSR

/-! ## The bins of a thread -/

/-- `local_bins[b].push_back(v)`, after `local_bins.resize(b + 1)` when there is no bin `b`. -/
def pushBin (bins : List (List ℕ)) (b v : ℕ) : List (List ℕ) :=
  let resized :=
    if b ≥ bins.length then bins ++ List.replicate (b + 1 - bins.length) [] else bins
  resized.modify b (· ++ [v])

/-- The entries of a bin, none when it was never allocated. -/
def bin (bins : List (List ℕ)) (i : ℕ) : List ℕ := bins.getD i []

/-- The first non-empty bin from `start` on. -/
def firstBin (bins : List (List ℕ)) (start : ℕ) : Option ℕ :=
  (List.range' start (bins.length - start)).find? fun i => !(bin bins i).isEmpty

theorem bin_pushBin (bins : List (List ℕ)) (b v i : ℕ) :
    bin (pushBin bins b v) i = if i = b then bin bins b ++ [v] else bin bins i := by
  -- new bins are empty, which is how missing ones are read
  have hresize : ∀ j, bin (if b ≥ bins.length then
      bins ++ List.replicate (b + 1 - bins.length) [] else bins) j = bin bins j := by
    intro j
    simp only [bin, List.getD_eq_getElem?_getD]
    split_ifs with hb
    · by_cases hj : j < bins.length
      · rw [List.getElem?_append_left hj]
      · rw [List.getElem?_append_right (by omega), List.getElem?_eq_none (l := bins) (by omega)]
        rw [List.getElem?_replicate]
        split_ifs <;> rfl
    · rfl
  have hlen : b < (if b ≥ bins.length then
      bins ++ List.replicate (b + 1 - bins.length) [] else bins).length := by
    split_ifs with hb
    · simp only [List.length_append, List.length_replicate]
      omega
    · omega
  unfold pushBin
  rw [← hresize i, ← hresize b]
  generalize (if b ≥ bins.length then
    bins ++ List.replicate (b + 1 - bins.length) [] else bins) = l at hlen
  simp only [bin, List.getD_eq_getElem?_getD, List.getElem?_modify]
  by_cases hi : i = b
  · subst hi
    simp [List.getElem?_eq_getElem hlen]
  · simp [hi, Ne.symm hi]

theorem bin_set_nil (bins : List (List ℕ)) (k i : ℕ) :
    bin (bins.set k []) i = if i = k then [] else bin bins i := by
  simp only [bin, List.getD_eq_getElem?_getD, List.getElem?_set]
  by_cases hi : i = k
  · subst hi
    simp only [if_true]
    split_ifs <;> simp
  · simp [hi, Ne.symm hi]

theorem lt_length_of_bin_ne_nil {bins : List (List ℕ)} {i : ℕ} (h : bin bins i ≠ []) :
    i < bins.length := by
  by_contra hc
  exact h (List.getD_eq_default _ _ (by omega))

/-- Emptying a bin that has entries leaves fewer entries. -/
theorem length_flatten_set_nil (bins : List (List ℕ)) (k : ℕ) :
    (bins.set k []).flatten.length + (bin bins k).length = bins.flatten.length := by
  induction bins generalizing k with
  | nil => simp [bin]
  | cons b bins ih =>
    cases k with
    | zero => simp [bin, Nat.add_comm]
    | succ k =>
      have := ih k
      simp only [bin, List.set_cons_succ, List.flatten_cons, List.length_append,
        List.getD_cons_succ] at this ⊢
      omega

theorem firstBin_some {bins : List (List ℕ)} {start i : ℕ} (h : firstBin bins start = some i) :
    start ≤ i ∧ bin bins i ≠ [] ∧ ∀ j, start ≤ j → j < i → bin bins j = [] := by
  obtain ⟨hi, as, bs, heq, has⟩ := List.find?_eq_some_iff_append.mp h
  have hmem : i ∈ List.range' start (bins.length - start) := by simp [heq]
  refine ⟨(List.mem_range'_1.mp hmem).1, by simpa using hi, fun j hj hji => ?_⟩
  -- a smaller index stands before `i` in the range
  have hjmem : j ∈ as ++ i :: bs := by
    rw [← heq, List.mem_range'_1]
    have := (List.mem_range'_1.mp hmem).2
    omega
  have hsorted : (as ++ i :: bs).Pairwise (· < ·) := heq ▸ List.pairwise_lt_range'
  rcases List.mem_append.mp hjmem with hja | hjb
  · simpa using has j hja
  · have hib := (List.pairwise_cons.mp (List.pairwise_append.mp hsorted).2.1).1
    rcases List.mem_cons.mp hjb with rfl | hjb
    · exact absurd hji (lt_irrefl _)
    · exact absurd (hib j hjb) (by omega)

theorem firstBin_none {bins : List (List ℕ)} {start : ℕ} (h : firstBin bins start = none) (i : ℕ)
    (hi : start ≤ i) : bin bins i = [] := by
  by_contra hne
  have hlt := lt_length_of_bin_ne_nil hne
  have := List.find?_eq_none.mp h i (List.mem_range'_1.mpr (by omega))
  simp [hne] at this

/-! ## The search -/

/-- The variables of `do_sssp`: the shared ones, and the bins of each thread. `placements` is a
ghost record of the insertions into bins, as pairs of the current bin and the destination. -/
structure SsspState where
  dist : ℕ → WithTop ℚ≥0
  frontier : ℕ → ℕ
  sharedIndexes : ℕ → WithTop ℕ
  frontierTails : ℕ → ℕ
  localBins : ℕ → List (List ℕ)
  iter : ℕ
  placements : List (ℕ × ℕ)

/-- `size_t dest_bin = new_dist / delta`. -/
def destBin (delta : ℚ≥0) (newDist : WithTop ℚ≥0) : ℕ := ⌊newDist.untopD 0 / delta⌋₊

/-- The thread `t` lowers the distance of `v`, and puts `v` into its bin of the new distance. -/
def improve (delta : ℚ≥0) (t currBin : ℕ) (s : SsspState) (v : ℕ) (newDist : WithTop ℚ≥0) :
    SsspState :=
  { s with
    dist := Function.update s.dist v newDist
    localBins :=
      Function.update s.localBins t (pushBin (s.localBins t) (destBin delta newDist) v)
    placements := (currBin, destBin delta newDist) :: s.placements }

/-- The relaxation of the edge `e` of `u` by the thread `t`. -/
def relaxEdge (delta : ℚ≥0) (t currBin u : ℕ) (s : SsspState) (e : ℕ × ℚ≥0) : SsspState :=
  let oldDist := s.dist e.1
  let newDist := s.dist u + e.2
  if newDist < oldDist then improve delta t currBin s e.1 newDist else s

/-- The body of the loop over the frontier, for the entry `i`. -/
def relaxEntry (g : CSR ℚ≥0) (delta : ℚ≥0) (t currBin : ℕ) (s : SsspState) (i : ℕ) : SsspState :=
  let u := s.frontier i
  if s.dist u ≥ ((delta * currBin : ℚ≥0) : WithTop ℚ≥0) then
    (g.outEdges u).foldl (relaxEdge delta t currBin u) s
  else s

/-- The search of the thread `t` for its first non-empty bin, `next` being the slot of the next
iteration. -/
def scanBins (currBin next : ℕ) (s : SsspState) (t : ℕ) : SsspState :=
  match firstBin (s.localBins t) currBin with
  | none => s
  | some i => { s with
      sharedIndexes := Function.update s.sharedIndexes next (min (s.sharedIndexes next) i) }

/-- The thread `t` moves its entries of the next bin to the frontier. -/
def copyBin (next : ℕ) (s : SsspState) (t : ℕ) : SsspState :=
  match s.sharedIndexes next with
  | ⊤ => s
  | (k : ℕ) =>
    if k < (s.localBins t).length then
      let copyStart := s.frontierTails next
      let entries := bin (s.localBins t) k
      { s with
        frontierTails := Function.update s.frontierTails next (copyStart + entries.length)
        frontier := fun i =>
          if copyStart ≤ i ∧ i < copyStart + entries.length then entries.getD (i - copyStart) 0
          else s.frontier i
        localBins := Function.update s.localBins t ((s.localBins t).set k []) }
    else s

/-- `curr_bin_index = kMaxBin; curr_frontier_tail = 0`, by a single thread after the barrier. -/
def resetSlot (curr : ℕ) (s : SsspState) : SsspState :=
  { s with
    sharedIndexes := Function.update s.sharedIndexes curr ⊤
    frontierTails := Function.update s.frontierTails curr 0 }

/-- The body of the `while` loop of `do_sssp`, for all the threads. -/
def ssspIteration (g : CSR ℚ≥0) (team : Team) (delta : ℚ≥0) (s : SsspState) : SsspState :=
  let curr := s.iter % 2
  let next := (s.iter + 1) % 2
  let currBin := (s.sharedIndexes curr).untopD 0
  let relaxed := (team.entries.order s.iter (List.range (s.frontierTails curr))).foldl
    (fun r i => g.relaxEntry delta (team.worker s.iter i) currBin r i) s
  let scanned := (team.scans.order s.iter (List.range team.threads)).foldl
    (scanBins currBin next) relaxed
  let copied := (team.copies.order s.iter (List.range team.threads)).foldl
    (copyBin next) (resetSlot curr scanned)
  { copied with iter := s.iter + 1 }

/-- The state in which an iteration leaves the parallel loop over the frontier. -/
def relaxFrontier (g : CSR ℚ≥0) (team : Team) (delta : ℚ≥0) (s : SsspState) : SsspState :=
  (team.entries.order s.iter (List.range (s.frontierTails (s.iter % 2)))).foldl
    (fun r i => g.relaxEntry delta (team.worker s.iter i)
      ((s.sharedIndexes (s.iter % 2)).untopD 0) r i) s

/-- The state in which the threads of an iteration start to copy their bins. -/
def beforeCopies (g : CSR ℚ≥0) (team : Team) (delta : ℚ≥0) (s : SsspState) : SsspState :=
  resetSlot (s.iter % 2) ((team.scans.order s.iter (List.range team.threads)).foldl
    (scanBins ((s.sharedIndexes (s.iter % 2)).untopD 0) ((s.iter + 1) % 2))
    (g.relaxFrontier team delta s))

theorem ssspIteration_eq (g : CSR ℚ≥0) (team : Team) (delta : ℚ≥0) (s : SsspState) :
    g.ssspIteration team delta s =
      { (team.copies.order s.iter (List.range team.threads)).foldl (copyBin ((s.iter + 1) % 2))
          (g.beforeCopies team delta s) with iter := s.iter + 1 } :=
  rfl

/-- The variables of `do_sssp` before the parallel region. -/
def ssspInit (source : ℕ) : SsspState where
  dist := Function.update (fun _ => ⊤) source 0
  frontier := Function.update (fun _ => 0) 0 source
  sharedIndexes := fun i => if i = 0 then 0 else ⊤
  frontierTails := fun i => if i = 0 then 1 else 0
  localBins := fun _ => []
  iter := 0
  placements := []

/-- `CSR::do_sssp`. -/
def doSssp (g : CSR ℚ≥0) (team : Team) (source : ℕ) (delta : ℚ≥0) (fuel : ℕ) : Option SsspState :=
  whileLoop (fun s => s.sharedIndexes (s.iter % 2) ≠ ⊤)
    (fun s => some (g.ssspIteration team delta s))
    fuel (ssspInit source)

/-! ## What the relaxations preserve -/

/-- An edge from the vertex `u` to `v`, of weight `w`. -/
def WeightedArc (g : CSR ℚ≥0) (u v : ℕ) (w : ℚ≥0) : Prop :=
  u < g.numVertices ∧ (v, w) ∈ g.outEdges u

theorem WeightedArc.arc {g : CSR ℚ≥0} {u v : ℕ} {w : ℚ≥0} (h : g.WeightedArc u v w) : g.Arc u v :=
  ⟨h.1, mem_outNeighbours_iff.mpr ⟨w, h.2⟩⟩

section Relaxation

variable {g : CSR ℚ≥0} {source : ℕ} {delta : ℚ≥0}

/-- A labelled vertex is a vertex. -/
theorem lt_of_labelled (hg : g.WellFormed) (hsource : source < g.numVertices)
    {dist : ℕ → WithTop ℚ≥0} (h : Labels g.WeightedArc source dist) {v : ℕ} (hv : dist v ≠ ⊤) :
    v < g.numVertices := by
  obtain ⟨c, hc⟩ := WithTop.ne_top_iff_exists.mp hv
  cases h.sound v c hc.symm with
  | refl => exact hsource
  | step _ he => exact hg.arc_lt he.arc

/-- The vertex `u` waits in the bin of its current distance. -/
def Queued (delta : ℚ≥0) (s : SsspState) (u : ℕ) : Prop :=
  ∃ t, u ∈ bin (s.localBins t) (destBin delta (s.dist u))

/-- Every edge of a labelled vertex `u` is relaxed, or `u` waits in a bin, or the edge is one of
`todo`, which may look at the label of `u`. -/
def Covered (g : CSR ℚ≥0) (delta : ℚ≥0) (todo : WithTop ℚ≥0 → ℕ → ℕ × ℚ≥0 → Prop)
    (s : SsspState) : Prop :=
  ∀ u v w, g.WeightedArc u v w → s.dist u ≠ ⊤ →
    s.dist v ≤ s.dist u + w ∨ Queued delta s u ∨ todo (s.dist u) u (v, w)

/-- The state while the bin `currBin` is relaxed. -/
structure Relaxing (g : CSR ℚ≥0) (source : ℕ) (delta : ℚ≥0) (threads currBin : ℕ)
    (todo : WithTop ℚ≥0 → ℕ → ℕ × ℚ≥0 → Prop) (s : SsspState) : Prop where
  labels : Labels g.WeightedArc source s.dist
  covered : Covered g delta todo s
  below : ∀ t i, i < currBin → bin (s.localBins t) i = []
  idle : ∀ t, threads ≤ t → s.localBins t = []
  placed : ∀ p ∈ s.placements, p.1 ≤ p.2

/-- What a relaxation may change: labels decrease, and the bins grow only with them. -/
structure Descends (n : ℕ) (s s' : SsspState) : Prop where
  frontier : s'.frontier = s.frontier
  sharedIndexes : s'.sharedIndexes = s.sharedIndexes
  frontierTails : s'.frontierTails = s.frontierTails
  iter : s'.iter = s.iter
  le : ∀ v, s'.dist v ≤ s.dist v
  progress : s'.dist = s.dist ∧ s'.localBins = s.localBins ∨ ∃ v < n, s'.dist v < s.dist v

theorem Descends.refl {n : ℕ} (s : SsspState) : Descends n s s :=
  ⟨rfl, rfl, rfl, rfl, fun _ => le_refl _, Or.inl ⟨rfl, rfl⟩⟩

theorem Descends.trans {n : ℕ} {s₁ s₂ s₃ : SsspState} (h : Descends n s₁ s₂)
    (h' : Descends n s₂ s₃) : Descends n s₁ s₃ where
  frontier := h'.frontier.trans h.frontier
  sharedIndexes := h'.sharedIndexes.trans h.sharedIndexes
  frontierTails := h'.frontierTails.trans h.frontierTails
  iter := h'.iter.trans h.iter
  le := fun v => (h'.le v).trans (h.le v)
  progress := by
    rcases h.progress with ⟨hd, hb⟩ | ⟨v, hv, hlt⟩
    · rcases h'.progress with ⟨hd', hb'⟩ | ⟨v, hv, hlt⟩
      · exact Or.inl ⟨hd'.trans hd, hb'.trans hb⟩
      · exact Or.inr ⟨v, hv, hd ▸ hlt⟩
    · exact Or.inr ⟨v, hv, (h'.le v).trans_lt hlt⟩

theorem Covered.mono {todo todo' : WithTop ℚ≥0 → ℕ → ℕ × ℚ≥0 → Prop} {s : SsspState}
    (h : Covered g delta todo s)
    (hmono : ∀ u v w, g.WeightedArc u v w → todo (s.dist u) u (v, w) →
      todo' (s.dist u) u (v, w)) : Covered g delta todo' s := by
  intro u v w he hu
  rcases h u v w he hu with hle | hq | ht
  · exact Or.inl hle
  · exact Or.inr (Or.inl hq)
  · exact Or.inr (Or.inr (hmono u v w he ht))

/-- A distance from the current bin on belongs to the current bin or a later one. -/
theorem le_destBin (hdelta : 0 < delta) {b : ℕ} {d : WithTop ℚ≥0} (hd : d ≠ ⊤)
    (h : ((delta * b : ℚ≥0) : WithTop ℚ≥0) ≤ d) : b ≤ destBin delta d := by
  obtain ⟨c, rfl⟩ := WithTop.ne_top_iff_exists.mp hd
  have hc : delta * b ≤ c := WithTop.coe_le_coe.mp h
  apply Nat.le_floor
  rw [WithTop.untopD_coe, le_div_iff₀ hdelta, mul_comm]
  exact hc

/-- A vertex whose distance belongs to the current bin passes the test. -/
theorem le_of_destBin_eq (hdelta : 0 < delta) {b : ℕ} {d : WithTop ℚ≥0}
    (h : destBin delta d = b) : ((delta * b : ℚ≥0) : WithTop ℚ≥0) ≤ d := by
  cases d with
  | top => exact le_top
  | coe c =>
    have hb : (b : ℚ≥0) ≤ c / delta := by
      rw [← h]
      exact Nat.floor_le (zero_le)
    rw [le_div_iff₀ hdelta, mul_comm] at hb
    exact WithTop.coe_le_coe.mpr hb

section Improve

variable (delta) (t currBin : ℕ) (s : SsspState) (v : ℕ) (d : WithTop ℚ≥0)

@[simp] theorem improve_dist (x : ℕ) :
    (improve delta t currBin s v d).dist x = if x = v then d else s.dist x := by
  by_cases hx : x = v
  · subst hx
    simp [improve]
  · simp [improve, hx]

theorem bin_improve (t' i : ℕ) : bin ((improve delta t currBin s v d).localBins t') i =
    if t' = t ∧ i = destBin delta d then bin (s.localBins t) i ++ [v]
    else bin (s.localBins t') i := by
  by_cases ht : t' = t
  · subst ht
    simp only [improve, Function.update_self, bin_pushBin, true_and]
    split_ifs with hi
    · rw [hi]
    · rfl
  · simp [improve, ht]

/-- A vertex stays queued when another one is improved. -/
theorem Queued.improve {x : ℕ} (h : Queued delta s x) (hx : x ≠ v) :
    Queued delta (improve delta t currBin s v d) x := by
  obtain ⟨t', hq⟩ := h
  refine ⟨t', ?_⟩
  rw [improve_dist, if_neg hx, bin_improve]
  split_ifs with hi
  · exact List.mem_append_left _ (hi.1 ▸ hq)
  · exact hq

theorem queued_improve : Queued delta (improve delta t currBin s v d) v := by
  refine ⟨t, ?_⟩
  rw [improve_dist, if_pos rfl, bin_improve, if_pos ⟨rfl, rfl⟩]
  exact List.mem_append_right _ (List.mem_singleton_self v)

end Improve

/-- The edges that are not done are those still to do, an improvement or not. -/
theorem Covered.relaxEdge (t currBin : ℕ) {u v : ℕ} {w : ℚ≥0}
    {todo todo' : WithTop ℚ≥0 → ℕ → ℕ × ℚ≥0 → Prop} {s : SsspState} (h : Covered g delta todo s)
    (htodo : ∀ d x y, todo d x y → todo' d x y ∨ x = u ∧ y = (v, w)) :
    Covered g delta todo' (relaxEdge delta t currBin u s (v, w)) := by
  intro x y c hxy
  unfold CSR.relaxEdge
  simp only
  split_ifs with hlt
  · intro hx
    -- the vertex that was improved is in a bin, and so its own edges are covered
    by_cases hxv : x = v
    · exact Or.inr (Or.inl (hxv ▸ queued_improve ..))
    · rw [improve_dist _ _ _ _ _ _ x, if_neg hxv] at hx ⊢
      -- labels only decrease
      have hdrop : (improve delta t currBin s v (s.dist u + w)).dist y ≤ s.dist y := by
        rw [improve_dist]
        split_ifs with hy
        · exact hy ▸ hlt.le
        · exact le_refl _
      rcases h x y c hxy hx with hle | hq | hd
      · exact Or.inl (hdrop.trans hle)
      · exact Or.inr (Or.inl (hq.improve _ _ _ _ _ _ hxv))
      · rcases htodo _ _ _ hd with hd' | ⟨rfl, heq⟩
        · exact Or.inr (Or.inr hd')
        · obtain ⟨rfl, rfl⟩ : y = v ∧ c = w := by simpa using heq
          exact Or.inl (by rw [improve_dist, if_pos rfl])
  · intro hx
    rcases h x y c hxy hx with hle | hq | hd
    · exact Or.inl hle
    · exact Or.inr (Or.inl hq)
    · rcases htodo _ _ _ hd with hd' | ⟨rfl, heq⟩
      · exact Or.inr (Or.inr hd')
      · obtain ⟨rfl, rfl⟩ : y = v ∧ c = w := by simpa using heq
        exact Or.inl (not_lt.mp hlt)

/-- **One relaxation** takes its edge off the edges to do. -/
theorem Relaxing.relaxEdge (hg : g.WellFormed) (hsource : source < g.numVertices)
    (hdelta : 0 < delta) {threads currBin t u : ℕ} (ht : t < threads)
    {todo : WithTop ℚ≥0 → ℕ → ℕ × ℚ≥0 → Prop} (todo' : WithTop ℚ≥0 → ℕ → ℕ × ℚ≥0 → Prop)
    {s : SsspState} {e : ℕ × ℚ≥0} (h : Relaxing g source delta threads currBin todo s)
    (he : e ∈ g.outEdges u)
    (hu : ((delta * currBin : ℚ≥0) : WithTop ℚ≥0) ≤ s.dist u)
    (htodo : ∀ d x y, todo d x y → todo' d x y ∨ x = u ∧ y = e) :
    Relaxing g source delta threads currBin todo' (relaxEdge delta t currBin u s e) ∧
      Descends g.numVertices s (relaxEdge delta t currBin u s e) ∧
      (relaxEdge delta t currBin u s e).dist u = s.dist u := by
  obtain ⟨v, w⟩ := e
  have hcovered := h.covered.relaxEdge t currBin htodo
  unfold CSR.relaxEdge at hcovered ⊢
  simp only at hcovered ⊢
  split_ifs at hcovered ⊢ with hlt
  · -- the label of `v` drops, and `v` enters the bin of its new distance
    have hfin : s.dist u ≠ ⊤ :=
      ne_top_of_le_ne_top (ne_top_of_lt hlt) (le_self_add : s.dist u ≤ s.dist u + w)
    have harc : g.WeightedArc u v w := ⟨lt_of_labelled hg hsource h.labels hfin, he⟩
    have huv : u ≠ v := by
      rintro rfl
      exact absurd hlt (not_lt.mpr le_self_add)
    have hbin : currBin ≤ destBin delta (s.dist u + w) :=
      le_destBin hdelta (ne_top_of_lt hlt) (hu.trans le_self_add)
    refine ⟨⟨h.labels.lower harc hlt, hcovered, fun t' i hi => ?_, fun t' ht' => ?_,
      fun p hp => ?_⟩, ⟨rfl, rfl, rfl, rfl, fun x => ?_, Or.inr ⟨v, hg.arc_lt harc.arc, ?_⟩⟩, ?_⟩
    · rw [bin_improve, if_neg (by omega)]
      exact h.below t' i hi
    · have hne : t' ≠ t := by omega
      simpa [improve, hne] using h.idle t' ht'
    · rcases List.mem_cons.mp hp with rfl | hp
      · exact hbin
      · exact h.placed p hp
    · rw [improve_dist]
      split_ifs with hx
      · exact hx ▸ hlt.le
      · exact le_refl _
    · rw [improve_dist, if_pos rfl]
      exact hlt
    · rw [improve_dist, if_neg huv]
  · exact ⟨⟨h.labels, hcovered, h.below, h.idle, h.placed⟩, Descends.refl s, rfl⟩

/-- The edges of the frontier entries `rest` that are still to do in the bin `currBin`: a vertex
whose distance left the bin meanwhile is queued elsewhere or done. -/
def pendingEntries (delta : ℚ≥0) (currBin : ℕ) (frontier : ℕ → ℕ) (rest : List ℕ)
    (d : WithTop ℚ≥0) (u : ℕ) (_ : ℕ × ℚ≥0) : Prop :=
  destBin delta d = currBin ∧ ∃ i ∈ rest, frontier i = u

/-- The relaxation of the edges `es` of one vertex. -/
theorem foldl_relaxEdge (hg : g.WellFormed) (hsource : source < g.numVertices)
    (hdelta : 0 < delta) {threads currBin t u : ℕ} (ht : t < threads)
    {todo : WithTop ℚ≥0 → ℕ → ℕ × ℚ≥0 → Prop} (es : List (ℕ × ℚ≥0))
    (hes : ∀ e ∈ es, e ∈ g.outEdges u) (s : SsspState)
    (h : Relaxing g source delta threads currBin
      (fun d x y => todo d x y ∨ x = u ∧ y ∈ es) s)
    (hu : ((delta * currBin : ℚ≥0) : WithTop ℚ≥0) ≤ s.dist u) :
    Relaxing g source delta threads currBin todo (es.foldl (relaxEdge delta t currBin u) s) ∧
      Descends g.numVertices s (es.foldl (relaxEdge delta t currBin u) s) := by
  induction es generalizing s with
  | nil =>
    refine ⟨⟨h.labels, h.covered.mono fun x y c _ hd => ?_, h.below, h.idle, h.placed⟩,
      Descends.refl s⟩
    simpa using hd
  | cons e es ih =>
    -- the edge is not to be done any more, and the label of `u` does not change
    obtain ⟨h', hdesc, hkeep⟩ := h.relaxEdge hg hsource hdelta ht
      (fun d x y => todo d x y ∨ x = u ∧ y ∈ es) (hes e (by simp)) hu (by
        rintro d x y (hd | ⟨rfl, hy⟩)
        · exact Or.inl (Or.inl hd)
        · rcases List.mem_cons.mp hy with rfl | hy
          · exact Or.inr ⟨rfl, rfl⟩
          · exact Or.inl (Or.inr ⟨rfl, hy⟩))
    obtain ⟨h'', hdesc'⟩ := ih (fun e he => hes e (List.mem_cons_of_mem _ he)) _ h' (hkeep ▸ hu)
    exact ⟨h'', hdesc.trans hdesc'⟩

/-- **One entry of the frontier**, stale or not. -/
theorem Relaxing.relaxEntry (hg : g.WellFormed) (hsource : source < g.numVertices)
    (hdelta : 0 < delta) {threads currBin t i : ℕ} (ht : t < threads) {rest : List ℕ}
    {s : SsspState} (h : Relaxing g source delta threads currBin
      (pendingEntries delta currBin s.frontier (i :: rest)) s) :
    Relaxing g source delta threads currBin (pendingEntries delta currBin s.frontier rest)
        (g.relaxEntry delta t currBin s i) ∧
      Descends g.numVertices s (g.relaxEntry delta t currBin s i) := by
  unfold CSR.relaxEntry
  simp only
  split_ifs with hu
  · refine foldl_relaxEdge hg hsource hdelta ht (g.outEdges (s.frontier i)) (fun e he => he) s ?_ hu
    refine ⟨h.labels, h.covered.mono fun x y c hxy hd => ?_, h.below, h.idle, h.placed⟩
    obtain ⟨hbin, j, hj, hjx⟩ := hd
    rcases List.mem_cons.mp hj with rfl | hj
    · exact Or.inr ⟨hjx.symm, hjx ▸ hxy.2⟩
    · exact Or.inl ⟨hbin, j, hj, hjx⟩
  · -- a stale entry is not of the current bin
    refine ⟨⟨h.labels, h.covered.mono fun x y c hxy hd => ?_, h.below, h.idle, h.placed⟩,
      Descends.refl s⟩
    obtain ⟨hbin, j, hj, hjx⟩ := hd
    rcases List.mem_cons.mp hj with rfl | hj
    · exact absurd (hjx ▸ le_of_destBin_eq hdelta hbin) hu
    · exact ⟨hbin, j, hj, hjx⟩

/-- **The relaxation of a whole frontier.** -/
theorem Relaxing.foldl_relaxEntry (hg : g.WellFormed) (hsource : source < g.numVertices)
    (hdelta : 0 < delta) {threads currBin : ℕ} {worker : ℕ → ℕ}
    (hworker : ∀ i, worker i < threads) (rest : List ℕ) (s : SsspState)
    (h : Relaxing g source delta threads currBin
      (pendingEntries delta currBin s.frontier rest) s) :
    Relaxing g source delta threads currBin (fun _ _ _ => False)
        (rest.foldl (fun r i => g.relaxEntry delta (worker i) currBin r i) s) ∧
      Descends g.numVertices s
        (rest.foldl (fun r i => g.relaxEntry delta (worker i) currBin r i) s) := by
  induction rest generalizing s with
  | nil =>
    refine ⟨⟨h.labels, h.covered.mono fun x y c _ hd => ?_, h.below, h.idle, h.placed⟩,
      Descends.refl s⟩
    obtain ⟨-, j, hj, -⟩ := hd
    simp at hj
  | cons i rest ih =>
    obtain ⟨h', hdesc⟩ := h.relaxEntry hg hsource hdelta (hworker i)
    obtain ⟨h'', hdesc'⟩ := ih _ (hdesc.frontier ▸ h')
    exact ⟨h'', hdesc.trans hdesc'⟩

end Relaxation

/-! ## The next bin -/

/-- The threads agree on the first bin from the current one on that has an entry. -/
theorem foldl_scanBins (currBin next : ℕ) (order : List ℕ) (s : SsspState) :
    ∃ m, order.foldl (scanBins currBin next) s =
        { s with sharedIndexes := Function.update s.sharedIndexes next m } ∧
      m ≤ s.sharedIndexes next ∧
      (∀ t ∈ order, ∀ i, currBin ≤ i → bin (s.localBins t) i ≠ [] → m ≤ i) ∧
      (m = s.sharedIndexes next ∨ ∃ t ∈ order, ∃ k : ℕ, m = k ∧ currBin ≤ k ∧
        bin (s.localBins t) k ≠ []) := by
  induction order generalizing s with
  | nil => exact ⟨s.sharedIndexes next, by simp, le_refl _, by simp, Or.inl rfl⟩
  | cons t order ih =>
    obtain ⟨m, heq, hle, hmin, hatt⟩ := ih (scanBins currBin next s t)
    rw [List.foldl_cons, heq]
    unfold scanBins at hle hmin hatt ⊢
    cases hf : firstBin (s.localBins t) currBin with
    | none =>
      simp only [hf] at hle hmin hatt ⊢
      refine ⟨m, rfl, hle, fun t' ht' i hi hne => ?_, ?_⟩
      · rcases List.mem_cons.mp ht' with rfl | ht'
        · exact absurd (firstBin_none hf i hi) hne
        · exact hmin t' ht' i hi hne
      · refine hatt.imp id ?_
        rintro ⟨t', ht', hk⟩
        exact ⟨t', List.mem_cons_of_mem _ ht', hk⟩
    | some j =>
      obtain ⟨hj, hjne, hjmin⟩ := firstBin_some hf
      simp only [hf, Function.update_self] at hle hmin hatt ⊢
      refine ⟨m, by simp, hle.trans (min_le_left _ _), fun t' ht' i hi hne => ?_, ?_⟩
      · rcases List.mem_cons.mp ht' with rfl | ht'
        -- the first bin of this thread that is not empty
        · have hji : j ≤ i := by
            by_contra hc
            exact hne (hjmin i hi (by omega))
          exact (hle.trans (min_le_right _ _)).trans (by exact_mod_cast hji)
        · exact hmin t' ht' i hi hne
      · rcases hatt with rfl | ⟨t', ht', hk⟩
        · rcases min_choice (s.sharedIndexes next) (j : WithTop ℕ) with h | h
          · exact Or.inl h
          · exact Or.inr ⟨t, by simp, j, h, hj, hjne⟩
        · exact Or.inr ⟨t', List.mem_cons_of_mem _ ht', hk⟩

/-- What the threads `order` leave after moving their bin `k` to the frontier of the slot
`next`. -/
structure Copied (next k : ℕ) (order : List ℕ) (s s' : SsspState) : Prop where
  dist : s'.dist = s.dist
  sharedIndexes : s'.sharedIndexes = s.sharedIndexes
  placements : s'.placements = s.placements
  tails : ∀ slot, slot ≠ next → s'.frontierTails slot = s.frontierTails slot
  bins : ∀ t, s'.localBins t = if t ∈ order then (s.localBins t).set k [] else s.localBins t
  tail_le : s.frontierTails next ≤ s'.frontierTails next
  kept : ∀ i < s.frontierTails next, s'.frontier i = s.frontier i
  moved : ∀ t ∈ order, ∀ u ∈ bin (s.localBins t) k,
    ∃ i < s'.frontierTails next, s'.frontier i = u

theorem copyBin_copied {next k : ℕ} {s : SsspState} (hk : s.sharedIndexes next = k) (t : ℕ) :
    Copied next k [t] s (copyBin next s t) := by
  unfold copyBin
  rw [hk]
  change Copied next k [t] s (if k < (s.localBins t).length then _ else s)
  -- a thread with too few bins has nothing to copy
  split_ifs with hlen
  · refine ⟨rfl, rfl, rfl, fun slot hslot => by simp [hslot], fun t' => ?_, by simp, fun i hi => ?_,
      fun t' ht' u hu => ?_⟩
    · by_cases ht' : t' = t
      · subst ht'
        simp
      · simp [ht']
    · exact if_neg (by omega)
    · obtain rfl : t' = t := by simpa using ht'
      obtain ⟨i, hi, rfl⟩ := List.mem_iff_getElem.mp hu
      refine ⟨s.frontierTails next + i, by simpa using hi, ?_⟩
      simp [hi]
  · refine ⟨rfl, rfl, rfl, fun _ _ => rfl, fun t' => ?_, le_refl _, fun _ _ => rfl,
      fun t' ht' u hu => ?_⟩
    · split_ifs with ht'
      · obtain rfl : t' = t := by simpa using ht'
        rw [List.set_eq_of_length_le (by omega)]
      · rfl
    · obtain rfl : t' = t := by simpa using ht'
      exact absurd (lt_length_of_bin_ne_nil (List.ne_nil_of_mem hu)) hlen

/-- **The next frontier** holds the entries that all the threads had in the bin. -/
theorem foldl_copyBin {next k : ℕ} (order : List ℕ) (hnodup : order.Nodup) (s : SsspState)
    (hk : s.sharedIndexes next = k) : Copied next k order s (order.foldl (copyBin next) s) := by
  induction order generalizing s with
  | nil =>
    exact ⟨rfl, rfl, rfl, fun _ _ => rfl, by simp, le_refl _, fun _ _ => rfl, by simp⟩
  | cons t order ih =>
    obtain ⟨ht, hnodup'⟩ := List.nodup_cons.mp hnodup
    -- the entries of one thread, then those of the others after them
    have hone := copyBin_copied hk t
    have hrest := ih hnodup' (copyBin next s t) (hone.sharedIndexes ▸ hk)
    rw [List.foldl_cons]
    refine ⟨hrest.dist.trans hone.dist, hrest.sharedIndexes.trans hone.sharedIndexes,
      hrest.placements.trans hone.placements,
      fun slot hslot => (hrest.tails slot hslot).trans (hone.tails slot hslot), fun t' => ?_,
      hone.tail_le.trans hrest.tail_le, fun i hi => ?_, fun t' ht' u hu => ?_⟩
    · rw [hrest.bins, hone.bins]
      by_cases htt : t' = t
      · subst htt
        simp [ht]
      · simp [htt]
    · rw [hrest.kept i (hi.trans_le hone.tail_le), hone.kept i hi]
    · by_cases htt : t' = t
      · subst htt
        obtain ⟨i, hi, hiu⟩ := hone.moved t' (by simp) u hu
        exact ⟨i, hi.trans_le hrest.tail_le, (hrest.kept i hi).trans hiu⟩
      · refine hrest.moved t' (List.mem_of_ne_of_mem htt ht') u ?_
        rw [hone.bins, if_neg (by simpa using htt)]
        exact hu

theorem foldl_copyBin_top {next : ℕ} (order : List ℕ) {s : SsspState}
    (hk : s.sharedIndexes next = ⊤) : order.foldl (copyBin next) s = s := by
  induction order with
  | nil => rfl
  | cons t order ih =>
    have hstep : copyBin next s t = s := by
      unfold copyBin
      rw [hk]
    rw [List.foldl_cons, hstep, ih]

/-! ## The invariant of the search -/

/-- The state between two iterations. The slot of the next iteration is clean, and the bins before
the current one are empty; at the end, when the current one is `⊤`, all of them are. -/
structure SsspInvariant (g : CSR ℚ≥0) (source : ℕ) (delta : ℚ≥0) (threads : ℕ)
    (s : SsspState) : Prop where
  labels : Labels g.WeightedArc source s.dist
  covered : Covered g delta (fun d u _ => (destBin delta d : WithTop ℕ) =
    s.sharedIndexes (s.iter % 2) ∧ ∃ i < s.frontierTails (s.iter % 2), s.frontier i = u) s
  below : ∀ t (i : ℕ), (i : WithTop ℕ) < s.sharedIndexes (s.iter % 2) → bin (s.localBins t) i = []
  idle : ∀ t, threads ≤ t → s.localBins t = []
  placed : ∀ p ∈ s.placements, p.1 ≤ p.2
  next_index : s.sharedIndexes ((s.iter + 1) % 2) = ⊤
  next_tail : s.frontierTails ((s.iter + 1) % 2) = 0

/-- The entries in the bins of all threads, and one more while the loop goes on. -/
def work (threads : ℕ) (s : SsspState) : ℕ :=
  ∑ t ∈ Finset.range threads, (s.localBins t).flatten.length +
    if s.sharedIndexes (s.iter % 2) = ⊤ then 0 else 1

theorem ssspInit_invariant (g : CSR ℚ≥0) (source : ℕ) (delta : ℚ≥0) (threads : ℕ) :
    SsspInvariant g source delta threads (ssspInit source) where
  labels := by
    refine ⟨by simp [ssspInit], fun v c hc => ?_⟩
    by_cases hv : v = source
    · subst hv
      have h0 : (0 : WithTop ℚ≥0) = c := by simpa [ssspInit] using hc
      obtain rfl : 0 = c := by exact_mod_cast h0
      exact .refl
    · simp [ssspInit, hv] at hc
  covered := by
    intro u v w _ hu
    obtain rfl : u = source := by
      by_contra hne
      simp [ssspInit, hne] at hu
    -- the source is the only entry of the first frontier
    refine Or.inr (Or.inr ⟨?_, 0, by simp [ssspInit], by simp [ssspInit]⟩)
    simp [ssspInit, destBin]
  below := by simp [ssspInit, bin]
  idle := by simp [ssspInit]
  placed := by simp [ssspInit]
  next_index := by simp [ssspInit]
  next_tail := by simp [ssspInit]

section Iteration

variable {g : CSR ℚ≥0} {source : ℕ} {delta : ℚ≥0}

/-- What the threads find when they look for the next bin. -/
structure NextBin (threads : ℕ) (r : SsspState) (m : WithTop ℕ) : Prop where
  below : ∀ t (i : ℕ), (i : WithTop ℕ) < m → bin (r.localBins t) i = []
  attained : ∀ k : ℕ, m = k → ∃ t < threads, bin (r.localBins t) k ≠ []

/-- `local_bins[m].resize(0)`, when there is a next bin. -/
def clearBin (m : WithTop ℕ) (bins : List (List ℕ)) : List (List ℕ) :=
  match m with
  | ⊤ => bins
  | (k : ℕ) => bins.set k []

theorem bin_clearBin (m : WithTop ℕ) (bins : List (List ℕ)) (i : ℕ) :
    bin (clearBin m bins) i = if (i : WithTop ℕ) = m then [] else bin bins i := by
  cases m with
  | top => simp [clearBin]
  | coe k =>
    change bin (bins.set k []) i = _
    rw [bin_set_nil]
    exact if_congr Nat.cast_inj.symm rfl rfl

/-- The end `s'` of an iteration that started in `s`, relaxed its frontier to `r` and found the
next bin `m`. -/
structure Advanced (threads : ℕ) (s r : SsspState) (m : WithTop ℕ) (s' : SsspState) : Prop where
  dist : s'.dist = r.dist
  placements : s'.placements = r.placements
  iter : s'.iter = s.iter + 1
  index : s'.sharedIndexes ((s.iter + 1) % 2) = m
  reset_index : s'.sharedIndexes (s.iter % 2) = ⊤
  reset_tail : s'.frontierTails (s.iter % 2) = 0
  bins : ∀ t, s'.localBins t = clearBin m (r.localBins t)
  moved : ∀ t < threads, ∀ k : ℕ, m = k → ∀ u ∈ bin (r.localBins t) k,
    ∃ i < s'.frontierTails ((s.iter + 1) % 2), s'.frontier i = u

/-- The barrier, the reset of the current slot and the copies to the next frontier. -/
theorem advanced_of_scan (team : Team) {s r : SsspState} {m : WithTop ℕ}
    (hidle : ∀ t, team.threads ≤ t → r.localBins t = []) :
    Advanced team.threads s r m
      { (team.copies.order s.iter (List.range team.threads)).foldl (copyBin ((s.iter + 1) % 2))
          (resetSlot (s.iter % 2) { r with
            sharedIndexes := Function.update r.sharedIndexes ((s.iter + 1) % 2) m }) with
        iter := s.iter + 1 } := by
  -- the two slots of the shared variables are used in turn
  have hslots : s.iter % 2 ≠ (s.iter + 1) % 2 := by omega
  set q := resetSlot (s.iter % 2) { r with
    sharedIndexes := Function.update r.sharedIndexes ((s.iter + 1) % 2) m } with hq
  have hm : q.sharedIndexes ((s.iter + 1) % 2) = m := by simp [hq, resetSlot, hslots.symm]
  have hcur : q.sharedIndexes (s.iter % 2) = ⊤ := by simp [hq, resetSlot]
  have htail : q.frontierTails (s.iter % 2) = 0 := by simp [hq, resetSlot]
  cases m with
  | top =>
    rw [foldl_copyBin_top _ hm]
    exact ⟨rfl, rfl, rfl, hm, hcur, htail, fun _ => rfl, fun _ _ k hk => by cases hk⟩
  | coe k =>
    have hnodup := team.copies.nodup_order s.iter (List.nodup_range (n := team.threads))
    have hcopied := foldl_copyBin _ hnodup q hm
    refine ⟨hcopied.dist, hcopied.placements, rfl, ?_, ?_, ?_, fun t => ?_,
      fun t ht k' hk' u hu => ?_⟩
    · exact (congrFun hcopied.sharedIndexes _).trans hm
    · exact (congrFun hcopied.sharedIndexes _).trans hcur
    · exact (hcopied.tails _ hslots).trans htail
    · have hbins := hcopied.bins t
      simp only [Schedule.mem_order, List.mem_range] at hbins
      split_ifs at hbins with ht
      · exact hbins
      · have hnil : r.localBins t = [] := hidle t (by omega)
        have hq' : q.localBins t = [] := hnil
        simp only [hbins, hq', hnil]
        rfl
    · obtain rfl : k = k' := WithTop.coe_inj.mp hk'
      exact hcopied.moved t (by simpa using ht) u hu

/-- **The phases of one iteration.** -/
theorem ssspIteration_spec (hg : g.WellFormed) (hsource : source < g.numVertices)
    (hdelta : 0 < delta) (team : Team) {s : SsspState} {b : ℕ}
    (h : SsspInvariant g source delta team.threads s) (hb : s.sharedIndexes (s.iter % 2) = b) :
    ∃ m, Relaxing g source delta team.threads b (fun _ _ _ => False)
        (g.relaxFrontier team delta s) ∧
      Descends g.numVertices s (g.relaxFrontier team delta s) ∧
      NextBin team.threads (g.relaxFrontier team delta s) m ∧
      g.beforeCopies team delta s = resetSlot (s.iter % 2) { g.relaxFrontier team delta s with
        sharedIndexes := Function.update (g.relaxFrontier team delta s).sharedIndexes
          ((s.iter + 1) % 2) m } ∧
      Advanced team.threads s (g.relaxFrontier team delta s) m (g.ssspIteration team delta s) := by
  -- the edges to be done are those of the entries of the frontier
  have hrelaxing : Relaxing g source delta team.threads b (pendingEntries delta b s.frontier
      (team.entries.order s.iter (List.range (s.frontierTails (s.iter % 2))))) s := by
    refine ⟨h.labels, h.covered.mono fun u v w _ hd => ?_, fun t i hi => h.below t i ?_, h.idle,
      h.placed⟩
    · obtain ⟨hbin, i, hi, hiu⟩ := hd
      rw [hb] at hbin
      exact ⟨by exact_mod_cast hbin, i, by simpa using hi, hiu⟩
    · rw [hb]
      exact_mod_cast hi
  have hcurr : (s.sharedIndexes (s.iter % 2)).untopD 0 = b := by
    rw [hb]
    rfl
  obtain ⟨hr, hdesc⟩ := hrelaxing.foldl_relaxEntry hg hsource hdelta (team.worker_lt s.iter) _ s
  have hrdef : g.relaxFrontier team delta s =
      (team.entries.order s.iter (List.range (s.frontierTails (s.iter % 2)))).foldl
        (fun r i => g.relaxEntry delta (team.worker s.iter i) b r i) s := by
    rw [relaxFrontier, hcurr]
  rw [← hrdef] at hr hdesc
  set r := g.relaxFrontier team delta s
  obtain ⟨m, hscan, -, hmin, hatt⟩ := foldl_scanBins b ((s.iter + 1) % 2)
    (team.scans.order s.iter (List.range team.threads)) r
  have hbefore : g.beforeCopies team delta s = resetSlot (s.iter % 2) { r with
      sharedIndexes := Function.update r.sharedIndexes ((s.iter + 1) % 2) m } := by
    rw [beforeCopies, hcurr, hscan]
  refine ⟨m, hr, hdesc, ⟨fun t i hi => ?_, fun k hk => ?_⟩, hbefore, ?_⟩
  · by_contra hne
    -- only the threads of the team have bins, and only from the current one on
    have ht : t < team.threads := by
      by_contra hc
      rw [hr.idle t (by omega)] at hne
      simp [bin] at hne
    have hib : b ≤ i := by
      by_contra hc
      exact hne (hr.below t i (by omega))
    exact absurd (hmin t (by simpa using ht) i hib hne) (not_le.mpr hi)
  · rcases hatt with htop | ⟨t, ht, k', hk', -, hne⟩
    · rw [hdesc.sharedIndexes, h.next_index, hk] at htop
      exact absurd htop (WithTop.coe_ne_top)
    · obtain rfl : k = k' := by
        rw [hk] at hk'
        exact_mod_cast hk'
      exact ⟨t, by simpa using ht, hne⟩
  · rw [ssspIteration_eq, hbefore]
    exact advanced_of_scan team hr.idle

/-- The work left after an iteration that lowered no label. -/
theorem Advanced.work_lt {threads : ℕ} {s r s' : SsspState} {m : WithTop ℕ}
    (h : Advanced threads s r m s') (hnext : NextBin threads r m)
    (hsame : r.localBins = s.localBins) (hb : s.sharedIndexes (s.iter % 2) ≠ ⊤) :
    work threads s' < work threads s := by
  have hindex : s'.sharedIndexes (s'.iter % 2) = m := h.iter ▸ h.index
  simp only [work, if_neg hb, hindex, h.bins, hsame]
  cases m with
  | top => simp [clearBin]
  | coe k =>
    -- some thread had entries in the bin that was copied
    obtain ⟨t₀, ht₀, hne⟩ := hnext.attained k rfl
    rw [if_neg WithTop.coe_ne_top]
    apply Nat.add_lt_add_right
    change ∑ t ∈ Finset.range threads, ((s.localBins t).set k []).flatten.length < _
    apply Finset.sum_lt_sum
    · intro t _
      have := length_flatten_set_nil (s.localBins t) k
      omega
    · refine ⟨t₀, Finset.mem_range.mpr ht₀, ?_⟩
      have := length_flatten_set_nil (s.localBins t₀) k
      have hpos := List.length_pos_of_ne_nil (hsame ▸ hne)
      omega

/-- **One iteration** keeps the invariant. Either a label drops, or there is less work left. -/
theorem SsspInvariant.iteration (hg : g.WellFormed) (hsource : source < g.numVertices)
    (hdelta : 0 < delta) (team : Team) {s : SsspState}
    (h : SsspInvariant g source delta team.threads s) (hb : s.sharedIndexes (s.iter % 2) ≠ ⊤) :
    SsspInvariant g source delta team.threads (g.ssspIteration team delta s) ∧
      (∀ v, (g.ssspIteration team delta s).dist v ≤ s.dist v) ∧
      ((∃ v < g.numVertices, (g.ssspIteration team delta s).dist v < s.dist v) ∨
        (g.ssspIteration team delta s).dist = s.dist ∧
          work team.threads (g.ssspIteration team delta s) < work team.threads s) := by
  obtain ⟨b, hbb⟩ := WithTop.ne_top_iff_exists.mp hb
  obtain ⟨m, hr, hdesc, hnext, -, hadv⟩ := ssspIteration_spec hg hsource hdelta team h hbb.symm
  set r := g.relaxFrontier team delta s
  set s' := g.ssspIteration team delta s
  have hindex : s'.sharedIndexes (s'.iter % 2) = m := hadv.iter ▸ hadv.index
  have hback : (s'.iter + 1) % 2 = s.iter % 2 := by
    rw [hadv.iter]
    omega
  refine ⟨⟨hadv.dist ▸ hr.labels, fun u v w he hu => ?_, fun t i hi => ?_, fun t ht => ?_,
    hadv.placements ▸ hr.placed, hback ▸ hadv.reset_index, hback ▸ hadv.reset_tail⟩, ?_, ?_⟩
  · rw [hadv.dist] at hu ⊢
    rcases hr.covered u v w he hu with hle | ⟨t, hq⟩ | hf
    · exact Or.inl hle
    · -- the vertex waits in a bin, which may be the next one
      by_cases hk : (destBin delta (r.dist u) : WithTop ℕ) = m
      · have ht : t < team.threads := by
          by_contra hc
          rw [hr.idle t (by omega)] at hq
          simp [bin] at hq
        refine Or.inr (Or.inr ⟨hk.trans hindex.symm, ?_⟩)
        rw [hadv.iter]
        exact hadv.moved t ht _ hk.symm u hq
      · refine Or.inr (Or.inl ⟨t, ?_⟩)
        rw [hadv.dist, hadv.bins, bin_clearBin, if_neg hk]
        exact hq
    · exact hf.elim
  · rw [hindex] at hi
    rw [hadv.bins, bin_clearBin, if_neg hi.ne]
    exact hnext.below t i hi
  · rw [hadv.bins, hr.idle t ht]
    cases m <;> rfl
  · intro v
    rw [hadv.dist]
    exact hdesc.le v
  · rw [hadv.dist]
    exact hdesc.progress.symm.imp id fun hsame => ⟨hsame.1, hadv.work_lt hnext hsame.2 hb⟩

end Iteration

/-! ## Correctness -/

theorem exists_onGrid_weightedArc (g : CSR ℚ≥0) :
    ∃ D, 0 < D ∧ ∀ u v w, g.WeightedArc u v w → OnGrid D w := by
  obtain ⟨D, hD, hW⟩ := exists_onGrid g.outW
  refine ⟨D, hD, fun u v w harc => ?_⟩
  obtain ⟨i, -, hi⟩ := List.mem_map.mp harc.2
  obtain rfl : g.outW.getD i 0 = w := congrArg Prod.snd hi
  by_cases hlen : i < g.outW.length
  · rw [List.getD_eq_getElem _ _ hlen]
    exact hW _ (List.getElem_mem hlen)
  · rw [List.getD_eq_default _ _ (by omega)]
    exact ⟨0, by simp⟩

/-- The variant of the search: the labels on the grid, then the work left. -/
def ssspRank (g : CSR ℚ≥0) (D threads : ℕ) (s : SsspState) :
    (Fin g.numVertices → WithTop ℕ) ×ₗ ℕ :=
  toLex (gridRank D g.numVertices s.dist, work threads s)

/-- One iteration lowers the variant. -/
theorem SsspInvariant.rank_lt {g : CSR ℚ≥0} (hg : g.WellFormed) {source : ℕ}
    (hsource : source < g.numVertices) {delta : ℚ≥0} (hdelta : 0 < delta) (team : Team) {D : ℕ}
    (hD : 0 < D) (hgrid : ∀ u v w, g.WeightedArc u v w → OnGrid D w) {s : SsspState}
    (h : SsspInvariant g source delta team.threads s) (hb : s.sharedIndexes (s.iter % 2) ≠ ⊤) :
    g.ssspRank D team.threads (g.ssspIteration team delta s) < g.ssspRank D team.threads s := by
  obtain ⟨h', hle, hprog⟩ := h.iteration hg hsource hdelta team hb
  rcases hprog with ⟨v, hv, hlt⟩ | ⟨hd, hw⟩
  · refine Prod.Lex.toLex_lt_toLex.mpr (Or.inl (gridRank_lt hD ?_ hle hv hlt))
    rintro x c (hx | hx)
    · exact (h.labels.sound x c hx).onGrid hgrid
    · exact (h'.labels.sound x c hx).onGrid hgrid
  · exact Prod.Lex.toLex_lt_toLex.mpr (Or.inr ⟨by simp only [hd], hw⟩)

/-- **Delta-stepping is correct.** For every team of threads the search ends, the labels are the
least weights of a path from the source, and no improved vertex was put into a bin below the
current one. -/
theorem doSssp_isMinWeight {g : CSR ℚ≥0} (hg : g.WellFormed) {source : ℕ}
    (hsource : source < g.numVertices) {delta : ℚ≥0} (hdelta : 0 < delta) (team : Team) :
    ∃ s, (∃ k, ∀ fuel, k ≤ fuel → g.doSssp team source delta fuel = some s) ∧
      (∀ v, IsMinWeight g.WeightedArc source v (s.dist v)) ∧
      ∀ p ∈ s.placements, p.1 ≤ p.2 := by
  obtain ⟨D, hD, hgrid⟩ := g.exists_onGrid_weightedArc
  have hstep : ∀ s, SsspInvariant g source delta team.threads s →
      decide (s.sharedIndexes (s.iter % 2) ≠ ⊤) = true →
      ∃ s', some (g.ssspIteration team delta s) = some s' ∧
        SsspInvariant g source delta team.threads s' ∧
        g.ssspRank D team.threads s' < g.ssspRank D team.threads s := by
    intro s hs hc
    have hb : s.sharedIndexes (s.iter % 2) ≠ ⊤ := by simpa using hc
    exact ⟨_, rfl, (hs.iteration hg hsource hdelta team hb).1,
      hs.rank_lt hg hsource hdelta team hD hgrid hb⟩
  obtain ⟨s, hs, hc, hrun⟩ := whileLoop_total_of_wf _
    (InvImage.wf (g.ssspRank D team.threads) wellFounded_lt) hstep
    (ssspInit source) (ssspInit_invariant g source delta team.threads)
  have htop : s.sharedIndexes (s.iter % 2) = ⊤ := by simpa using hc
  refine ⟨s, hrun, hs.labels.isMinWeight fun u hu v w he => ?_, hs.placed⟩
  -- all the bins are empty, so every labelled vertex is tight
  rcases hs.covered u v w he hu with hle | ⟨t, hq⟩ | ⟨hbin, -⟩
  · exact hle
  · rw [hs.below t _ (by rw [htop]; exact WithTop.coe_lt_top _)] at hq
    simp at hq
  · rw [htop] at hbin
    exact absurd hbin WithTop.coe_ne_top

end CSR

end GfeDriver
