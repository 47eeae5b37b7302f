import GfeDriver.Foundation.Loop
import GfeDriver.Foundation.Relaxation
import GfeDriver.Baseline.CsrSssp
import GfeDriver.Baseline.Represents

/-!
# Dijkstra's algorithm on the adjacency list

`AdjacencyList::sssp` keeps the vertices to process in a priority queue and never updates an entry
of it: an improved vertex is pushed again, and the entries left behind are dropped when they
surface, because their vertex was visited before. The queue may give any of its least elements.

The distances computed are the least weights of a path, and so are those of the delta-stepping
search: on the same graph the two libraries agree.

## Main definitions

* `PriorityQueue`: a choice of a least element
* `AdjacencyList.sssp`: the search

## Main results

* `Settling.relax`: one edge
* `DijkstraInvariant.step`: one extraction
* `sssp_isMinWeight`: termination and distances
* `CSR.doSssp_correct`: delta-stepping is correct, and agrees with Dijkstra's algorithm
-/

namespace GfeDriver

open Foundation

/-- `elt`: an entry of the priority queue. -/
structure Elt where
  vertexId : ℕ
  distance : ℚ≥0
  deriving DecidableEq

/-- `std::priority_queue` with the comparator of `sssp`: among several least elements the choice
depends on the heap, and is left open. -/
structure PriorityQueue where
  top : List Elt → Elt
  top_mem : ∀ q, q ≠ [] → top q ∈ q
  top_le : ∀ q, ∀ e ∈ q, (top q).distance ≤ e.distance

/-- The first of the least elements. -/
def PriorityQueue.first : PriorityQueue where
  top := fun q => (q.argmin Elt.distance).getD ⟨0, 0⟩
  top_mem := by
    intro q hq
    cases h : q.argmin Elt.distance with
    | none => exact absurd (List.argmin_eq_none.mp h) hq
    | some e => exact List.argmin_mem (Option.mem_def.mpr h)
  top_le := by
    intro q e he
    cases h : q.argmin Elt.distance with
    | none =>
      rw [List.argmin_eq_none.mp h] at he
      simp at he
    | some e' => exact List.le_of_mem_argmin he (Option.mem_def.mpr h)

namespace AdjacencyList

/-! ## The search -/

/-- The variables of `sssp`. A distance that is not in the map reads as `0.0`, as `operator[]`
gives it. -/
structure SsspState where
  visited : Finset ℕ
  distances : ℕ → WithTop ℚ≥0
  queue : List Elt

/-- The body of the loop over the outgoing edges of the vertex extracted. -/
def relax (elt : Elt) (s : SsspState) (e : ℕ × ℚ≥0) : SsspState :=
  if ((elt.distance + e.2 : ℚ≥0) : WithTop ℚ≥0) < s.distances e.1 then
    { s with
      distances := Function.update s.distances e.1 ((elt.distance + e.2 : ℚ≥0) : WithTop ℚ≥0)
      queue := s.queue ++ [⟨e.1, elt.distance + e.2⟩] }
  else s

/-- The body of the `while` loop of `sssp`. -/
def extract (a : AdjacencyList ℚ≥0) (pq : PriorityQueue) (s : SsspState) : SsspState :=
  let elt := pq.top s.queue
  let s := { s with queue := s.queue.erase elt }
  if elt.vertexId ∈ s.visited then s
  else
    (a.outgoing elt.vertexId).foldl (relax elt)
      { s with visited := insert elt.vertexId s.visited }

/-- The variables of `sssp` before its loop. -/
def ssspInit (a : AdjacencyList ℚ≥0) (source : ℕ) : SsspState where
  visited := ∅
  distances := Function.update (fun v => if v ∈ a.nodes then ⊤ else 0) source 0
  queue := [⟨source, 0⟩]

/-- `AdjacencyList::sssp`, when no timeout fires. -/
def sssp (a : AdjacencyList ℚ≥0) (pq : PriorityQueue) (source : ℕ) (fuel : ℕ) : Option SsspState :=
  whileLoop (fun s => !s.queue.isEmpty) (fun s => some (a.extract pq s)) fuel (a.ssspInit source)

/-! ## The invariant -/

/-- An edge from `u` to `v`, of weight `w`. -/
def WeightedArc (a : AdjacencyList ℚ≥0) (u v : ℕ) (w : ℚ≥0) : Prop := (v, w) ∈ a.outgoing u

/-- The labels of the vertices of the graph. -/
def labelOf (a : AdjacencyList ℚ≥0) (s : SsspState) (v : ℕ) : WithTop ℚ≥0 :=
  if v ∈ a.nodes then s.distances v else ⊤

/-- The state while the edges `es` of the vertex `u` at the distance `d` are left to relax. The
distance `d` separates the visited vertices from the queue. -/
structure Settling (a : AdjacencyList ℚ≥0) (source u : ℕ) (d : ℚ≥0) (es : List (ℕ × ℚ≥0))
    (s : SsspState) : Prop where
  labels : Labels a.WeightedArc source (a.labelOf s)
  label_eq : a.labelOf s u = d
  visited_le : ∀ x ∈ s.visited, a.labelOf s x ≤ d
  floor : ∀ e ∈ s.queue, d ≤ e.distance
  entry : ∀ e ∈ s.queue, a.labelOf s e.vertexId ≤ e.distance
  queued : ∀ v, v ∉ s.visited → ∀ c : ℚ≥0, a.labelOf s v = c → ⟨v, c⟩ ∈ s.queue
  settled : ∀ x ∈ s.visited, ∀ v w, a.WeightedArc x v w →
    a.labelOf s v ≤ a.labelOf s x + w ∨ x = u ∧ (v, w) ∈ es

/-- The state between two extractions. -/
structure DijkstraInvariant (a : AdjacencyList ℚ≥0) (source : ℕ) (s : SsspState) : Prop where
  labels : Labels a.WeightedArc source (a.labelOf s)
  below : ∀ x ∈ s.visited, ∀ e ∈ s.queue, a.labelOf s x ≤ e.distance
  entry : ∀ e ∈ s.queue, a.labelOf s e.vertexId ≤ e.distance
  queued : ∀ v, v ∉ s.visited → ∀ c : ℚ≥0, a.labelOf s v = c → ⟨v, c⟩ ∈ s.queue
  settled : ∀ x ∈ s.visited, Tight a.WeightedArc (a.labelOf s) x

section Search

variable {a : AdjacencyList ℚ≥0} {source : ℕ}

theorem labelOf_update {s : SsspState} {v : ℕ} (hv : v ∈ a.nodes) (d : WithTop ℚ≥0)
    (q : List Elt) :
    a.labelOf { s with distances := Function.update s.distances v d, queue := q } =
      Function.update (a.labelOf s) v d := by
  funext x
  by_cases hx : x = v
  · subst hx
    simp [labelOf, hv]
  · simp [labelOf, hx]

/-- An edge that improves no label is done. -/
theorem Settling.tail {u v : ℕ} {d w : ℚ≥0} {es : List (ℕ × ℚ≥0)} {s : SsspState}
    (h : Settling a source u d ((v, w) :: es) s) (htight : a.labelOf s v ≤ a.labelOf s u + w) :
    Settling a source u d es s := by
  refine { h with settled := fun x hx y c hxy => ?_ }
  rcases h.settled x hx y c hxy with hle | ⟨rfl, hmem⟩
  · exact Or.inl hle
  · rcases List.mem_cons.mp hmem with heq | hmem
    · obtain ⟨rfl, rfl⟩ : y = v ∧ c = w := by simpa using heq
      exact Or.inl htight
    · exact Or.inr ⟨rfl, hmem⟩

/-- **An edge that improves the label** of its target, which was not visited. -/
theorem Settling.lower {u v : ℕ} {d w : ℚ≥0} {es : List (ℕ × ℚ≥0)} {s : SsspState}
    (h : Settling a source u d es s) (he : (v, w) ∈ a.outgoing u) (hv : v ∈ a.nodes)
    (hlt : ((d + w : ℚ≥0) : WithTop ℚ≥0) < a.labelOf s v) :
    Settling a source u d es
      { s with
        distances := Function.update s.distances v ((d + w : ℚ≥0) : WithTop ℚ≥0)
        queue := s.queue ++ [⟨v, d + w⟩] } := by
  have hsum : ((d + w : ℚ≥0) : WithTop ℚ≥0) = a.labelOf s u + w := by
    rw [h.label_eq, WithTop.coe_add]
  -- a visited vertex cannot be improved: its label is at most the distance of `u`
  have hnew : v ∉ s.visited := by
    intro hc
    refine absurd hlt (not_lt.mpr ((h.visited_le v hc).trans ?_))
    rw [WithTop.coe_add]
    exact le_self_add
  have huv : u ≠ v := by
    rintro rfl
    exact absurd hlt (not_lt.mpr (hsum ▸ le_self_add))
  have hle : Function.update (a.labelOf s) v ((d + w : ℚ≥0) : WithTop ℚ≥0) ≤ a.labelOf s :=
    update_le_self_iff.mpr hlt.le
  have hkeep : ∀ x ∈ s.visited,
      Function.update (a.labelOf s) v ((d + w : ℚ≥0) : WithTop ℚ≥0) x = a.labelOf s x := by
    intro x hx
    rw [Function.update_of_ne]
    rintro rfl
    exact hnew hx
  have hl := labelOf_update (s := s) hv ((d + w : ℚ≥0) : WithTop ℚ≥0) (s.queue ++ [⟨v, d + w⟩])
  refine ⟨?_, ?_, fun x hx => ?_, fun e he => ?_, fun e he => ?_, fun x hx c hc => ?_,
    fun x hx y c hxy => ?_⟩
  · rw [hl, hsum]
    exact h.labels.lower he (hsum ▸ hlt)
  · rw [hl, Function.update_of_ne huv]
    exact h.label_eq
  · rw [hl, hkeep x hx]
    exact h.visited_le x hx
  · rcases List.mem_append.mp he with he | he
    · exact h.floor e he
    · obtain rfl := List.mem_singleton.mp he
      exact le_self_add
  · rw [hl]
    rcases List.mem_append.mp he with he | he
    · exact (hle _).trans (h.entry e he)
    · obtain rfl := List.mem_singleton.mp he
      rw [Function.update_self]
  · rw [hl] at hc
    by_cases hxv : x = v
    · subst hxv
      rw [Function.update_self, WithTop.coe_inj] at hc
      exact List.mem_append_right _ (by simp [hc])
    · rw [Function.update_of_ne hxv] at hc
      exact List.mem_append_left _ (h.queued x hx c hc)
  · rw [hl, hkeep x hx]
    exact (h.settled x hx y c hxy).imp_left (hle y).trans

/-- **One edge** of the vertex being settled. -/
theorem Settling.relax (ha : a.Consistent) {u : ℕ} {elt : Elt} {e : ℕ × ℚ≥0}
    {es : List (ℕ × ℚ≥0)} {s : SsspState} (h : Settling a source u elt.distance (e :: es) s)
    (he : e ∈ a.outgoing u) :
    Settling a source u elt.distance es (relax elt s e) ∧
      (relax elt s e).visited = s.visited ∧
      (relax elt s e).queue.length ≤ s.queue.length + 1 := by
  obtain ⟨v, w⟩ := e
  have hv : v ∈ a.nodes := ha.present u v (Or.inl (EdgeList.mem_targets.mpr ⟨w, he⟩))
  have hlabel : s.distances v = a.labelOf s v := by simp [labelOf, hv]
  unfold AdjacencyList.relax
  simp only [hlabel]
  split_ifs with hlt
  · have hlower := h.lower he hv hlt
    -- the edge is tight at its new label
    refine ⟨hlower.tail ?_, rfl, by simp⟩
    rw [hlower.label_eq, labelOf_update hv, Function.update_self, WithTop.coe_add]
  · refine ⟨h.tail ?_, rfl, by omega⟩
    rw [h.label_eq, ← WithTop.coe_add]
    exact not_lt.mp hlt

theorem Settling.foldl_relax (ha : a.Consistent) {u : ℕ} {elt : Elt} (es : List (ℕ × ℚ≥0))
    (hes : ∀ e ∈ es, e ∈ a.outgoing u) {s : SsspState}
    (h : Settling a source u elt.distance es s) :
    Settling a source u elt.distance [] (es.foldl (AdjacencyList.relax elt) s) ∧
      (es.foldl (AdjacencyList.relax elt) s).visited = s.visited ∧
      (es.foldl (AdjacencyList.relax elt) s).queue.length ≤ s.queue.length + es.length := by
  induction es generalizing s with
  | nil => exact ⟨h, rfl, by simp⟩
  | cons e es ih =>
    -- an edge adds at most one element to the queue
    obtain ⟨h₁, hvisited, hlen⟩ := h.relax ha (hes e (by simp))
    obtain ⟨h₂, hvisited', hlen'⟩ := ih (fun e he => hes e (List.mem_cons_of_mem _ he)) h₁
    refine ⟨h₂, hvisited'.trans hvisited, ?_⟩
    simp only [List.foldl_cons, List.length_cons]
    omega

theorem Settling.done {u : ℕ} {d : ℚ≥0} {s : SsspState} (h : Settling a source u d [] s) :
    DijkstraInvariant a source s where
  labels := h.labels
  below := fun x hx e he => (h.visited_le x hx).trans (by exact_mod_cast h.floor e he)
  entry := h.entry
  queued := h.queued
  settled := fun x hx v w hxv => (h.settled x hx v w hxv).resolve_right (by simp)

/-- The outgoing edges of the vertices not visited yet, and the entries of the queue: each
extraction leaves less of them. -/
def remaining (a : AdjacencyList ℚ≥0) (s : SsspState) : ℕ :=
  s.queue.length + ∑ v ∈ a.nodes.keys.toFinset \ s.visited, (a.outgoing v).length

/-- **One extraction** keeps the invariant. -/
theorem DijkstraInvariant.step (ha : a.Consistent) (pq : PriorityQueue) {s : SsspState}
    (h : DijkstraInvariant a source s) (hne : s.queue ≠ []) :
    DijkstraInvariant a source (a.extract pq s) ∧
      a.remaining (a.extract pq s) < a.remaining s := by
  have htop := pq.top_mem s.queue hne
  have hlen := List.length_erase_of_mem htop
  have hpos := List.length_pos_of_ne_nil hne
  unfold extract
  simp only
  split_ifs with hvis
  · -- an entry left behind: its vertex was visited before
    refine ⟨⟨h.labels, fun x hx e he => h.below x hx e (List.mem_of_mem_erase he),
      fun e he => h.entry e (List.mem_of_mem_erase he), fun v hv c hc => ?_, h.settled⟩, ?_⟩
    · refine (List.mem_erase_of_ne ?_).mpr (h.queued v hv c hc)
      intro heq
      exact hv (by rwa [← heq] at hvis)
    · simp only [remaining]
      omega
  · set elt := pq.top s.queue with helt
    have hentry := h.entry elt htop
    -- the label of the vertex is the distance of its entry, the least of the queue
    obtain ⟨c, hc⟩ := WithTop.ne_top_iff_exists.mp (ne_top_of_le_ne_top WithTop.coe_ne_top hentry)
    have hlabel : a.labelOf s elt.vertexId = elt.distance := by
      refine le_antisymm hentry ?_
      have := pq.top_le s.queue _ (h.queued elt.vertexId hvis c hc.symm)
      rw [← hc]
      exact_mod_cast this
    have hnode : elt.vertexId ∈ a.nodes := by
      by_contra hc'
      simp [labelOf, hc'] at hlabel
    have hstart : Settling a source elt.vertexId elt.distance (a.outgoing elt.vertexId)
        { s with queue := s.queue.erase elt, visited := insert elt.vertexId s.visited } := by
      refine ⟨h.labels, hlabel, fun x hx => ?_,
        fun e he => pq.top_le _ e (List.mem_of_mem_erase he),
        fun e he => h.entry e (List.mem_of_mem_erase he), fun v hv c hc => ?_,
        fun x hx v w hxv => ?_⟩
      · rcases Finset.mem_insert.mp hx with rfl | hx
        · exact hentry
        · exact h.below x hx elt htop
      · rw [Finset.mem_insert, not_or] at hv
        refine (List.mem_erase_of_ne ?_).mpr (h.queued v hv.2 c hc)
        intro heq
        exact hv.1 (by rw [← heq])
      · rcases Finset.mem_insert.mp hx with rfl | hx
        · exact Or.inr ⟨rfl, hxv⟩
        · exact Or.inl (h.settled x hx v w hxv)
    obtain ⟨hdone, hvisited, hqueue⟩ := hstart.foldl_relax ha _ (fun e he => he)
    refine ⟨hdone.done, ?_⟩
    have hsum : ∑ v ∈ a.nodes.keys.toFinset \ s.visited, (a.outgoing v).length =
        (a.outgoing elt.vertexId).length +
          ∑ v ∈ a.nodes.keys.toFinset \ insert elt.vertexId s.visited, (a.outgoing v).length := by
      have hmem : elt.vertexId ∈ a.nodes.keys.toFinset \ s.visited := by
        simpa [AList.mem_keys] using ⟨hnode, hvis⟩
      rw [← Finset.add_sum_erase _ _ hmem]
      congr 2
      ext x
      simp only [Finset.mem_erase, Finset.mem_sdiff, Finset.mem_insert, not_or]
      tauto
    simp only [remaining, hvisited, hsum] at hqueue ⊢
    omega

/-! ## Correctness -/

theorem ssspInit_invariant (hsource : source ∈ a.nodes) :
    DijkstraInvariant a source (a.ssspInit source) := by
  have hlabel : ∀ v, a.labelOf (a.ssspInit source) v = if v = source then 0 else ⊤ := by
    intro v
    by_cases hv : v = source
    · subst hv
      simp [labelOf, ssspInit, hsource]
    · simp [labelOf, ssspInit, hv]
  -- the source is the only vertex with a label
  have hfin : ∀ v (c : ℚ≥0), a.labelOf (a.ssspInit source) v = c → v = source ∧ c = 0 := by
    intro v c hc
    rw [hlabel] at hc
    split_ifs at hc with hv
    · exact ⟨hv, by exact_mod_cast hc.symm⟩
    · exact absurd hc.symm WithTop.coe_ne_top
  refine ⟨⟨by simp [hlabel], fun v c hc => ?_⟩, by simp [ssspInit], fun e he => ?_,
    fun v _ c hc => ?_, by simp [ssspInit]⟩
  · obtain ⟨rfl, rfl⟩ := hfin v c hc
    exact .refl
  · obtain rfl : e = ⟨source, 0⟩ := by simpa [ssspInit] using he
    simp [hlabel]
  · obtain ⟨rfl, rfl⟩ := hfin v c hc
    simp [ssspInit]

/-- **Dijkstra's algorithm is correct.** The search ends for every choice among least elements,
and the distances are the least weights of a path. -/
theorem sssp_isMinWeight (ha : a.Consistent) (hsource : source ∈ a.nodes) (pq : PriorityQueue) :
    ∃ s, (∃ k, ∀ fuel, k ≤ fuel → a.sssp pq source fuel = some s) ∧
      ∀ v ∈ a.nodes, IsMinWeight a.WeightedArc source v (s.distances v) := by
  have hstep : ∀ s, DijkstraInvariant a source s → (!s.queue.isEmpty) = true →
      ∃ s', some (a.extract pq s) = some s' ∧ DijkstraInvariant a source s' ∧
        a.remaining s' < a.remaining s := by
    intro s hs hc
    obtain ⟨hs', hlt⟩ := hs.step ha pq (by simpa using hc)
    exact ⟨_, rfl, hs', hlt⟩
  obtain ⟨s, hs, hc, hrun⟩ := whileLoop_total_of_wf _ (measure a.remaining).wf hstep
    (a.ssspInit source) (ssspInit_invariant hsource)
  have hempty : s.queue = [] := by simpa using hc
  refine ⟨s, hrun, fun v hv => ?_⟩
  have hlabel : s.distances v = a.labelOf s v := by simp [labelOf, hv]
  rw [hlabel]
  refine hs.labels.isMinWeight (fun u hu => hs.settled u ?_) v
  -- a labelled vertex that was not visited would be in the queue
  by_contra hnot
  obtain ⟨c, hc⟩ := WithTop.ne_top_iff_exists.mp hu
  have := hs.queued u hnot c hc.symm
  simp [hempty] at this

end Search

end AdjacencyList

namespace CSR

/-- **Delta-stepping is correct, and agrees with Dijkstra's algorithm.** For every team of threads
the search ends, no improved vertex goes to a bin below the current one, and the distances are the
least weights of a path; the adjacency list that holds the same graph computes the same ones. -/
theorem doSssp_correct {g : CSR ℚ≥0} (hg : g.WellFormed) {source : ℕ}
    (hsource : source < g.numVertices) {delta : ℚ≥0} (hdelta : 0 < delta) (team : Team) :
    ∃ s, (∃ k, ∀ fuel, k ≤ fuel → g.doSssp team source delta fuel = some s) ∧
      (∀ p ∈ s.placements, p.1 ≤ p.2) ∧
      (∀ v < g.numVertices, IsMinWeight g.WeightedArc source v (s.dist v)) ∧
      ∀ (a : AdjacencyList ℚ≥0) (pq : PriorityQueue), Represents g a →
        ∃ r, (∃ k, ∀ fuel, k ≤ fuel → a.sssp pq (g.ext source) fuel = some r) ∧
          ∀ v < g.numVertices, r.distances (g.ext v) = s.dist v := by
  obtain ⟨s, hrun, hmin, hplaced⟩ := doSssp_isMinWeight hg hsource hdelta team
  refine ⟨s, hrun, hplaced, fun v _ => hmin v, fun a pq h => ?_⟩
  obtain ⟨r, hrun', hmin'⟩ :=
    AdjacencyList.sssp_isMinWeight h.invariant.toConsistent (h.ext_mem hsource) pq
  refine ⟨r, hrun', fun v hv => (hmin' _ (h.ext_mem hv)).unique ?_⟩
  -- walks are transported along the external identifiers
  refine (hmin v).map (D := fun u => u < g.numVertices) hsource
    (fun u v hu hv => h.ext_inj hu hv) (fun u v w he => ?_) (fun u y w hu hy => ?_) hv
  · exact (h.out u he.1 v (hg.arc_lt he.arc) w).mp he.2
  · obtain ⟨v, hv, hvy, hmem⟩ := h.exists_of_mem_outgoing hu hy
    exact ⟨v, hv, hvy, hu, hmem⟩

theorem doSssp_path :
    ∃ s, (∃ k, ∀ fuel, k ≤ fuel → (path 1).doSssp Team.single 0 2 fuel = some s) ∧
      (∀ p ∈ s.placements, p.1 ≤ p.2) ∧
      (∀ v < 3, IsMinWeight (path 1).WeightedArc 0 v (s.dist v)) ∧
      ∀ (a : AdjacencyList ℚ≥0) (pq : PriorityQueue), Represents (path 1) a →
        ∃ r, (∃ k, ∀ fuel, k ≤ fuel → a.sssp pq ((path (1 : ℚ≥0)).ext 0) fuel = some r) ∧
          ∀ v < 3, r.distances ((path (1 : ℚ≥0)).ext v) = s.dist v :=
  doSssp_correct (path_wellFormed 1) (by decide) (by norm_num) Team.single

end CSR

end GfeDriver
