import GfeDriver.Foundation.Triangles
import GfeDriver.Llama.LccIterator

/-!
# The clustering coefficients of LLAMA

`llama_execute_lcc_directed` visits each neighbour of a node once, first along the incoming edges
and then along the outgoing ones, and counts the common neighbours of the two. On undirected graphs
each edge is stored in one orientation, so that no neighbour is met twice.

## Main definitions

* `countTrianglesDirected`, `llamaExecuteLccDirected`: the kernel on directed graphs
* `countTrianglesUndirected`, `llamaExecuteLccUndirected`: the kernel on undirected graphs

## Main results

* `CommonNeighborIterDirected.enumerates`, `CommonNeighborIterUndirected.enumerates`: the iterators
  in every history
* `llamaExecuteLccDirected_eq`, `llamaExecuteLccUndirected_eq`: the scores are shares of the ordered
  pairs of neighbours
-/

namespace GfeDriver

namespace Llama

open Foundation

/-! ## The program -/

section Program

variable (g : Snapshot) (fuel : ℕ)

/-- The variables of `count_triangles_directed`. -/
structure TriangleCount where
  numTriangles : ℕ
  neighboursAlreadyVisited : Finset ℕ
  degree : ℕ

/-- The loop over the incoming edges. -/
def visitIncoming (u : ℕ) (s : TriangleCount) (v : ℕ) : Option TriangleCount :=
  (countAll (CommonNeighborIterDirected.getNext g u v) fuel s.numTriangles (.begin g u v)).map
    fun numTriangles =>
      ⟨numTriangles, insert v s.neighboursAlreadyVisited, s.degree + 1⟩

/-- The loop over the outgoing edges. -/
def visitOutgoing (u : ℕ) (s : TriangleCount) (v : ℕ) : Option TriangleCount :=
  if v ∈ s.neighboursAlreadyVisited then some s
  else
    (countAll (CommonNeighborIterDirected.getNext g u v) fuel s.numTriangles (.begin g u v)).map
      fun numTriangles => ⟨numTriangles, s.neighboursAlreadyVisited, s.degree + 1⟩

/-- `count_triangles_directed`. -/
def countTrianglesDirected (u : ℕ) : Option (ℕ × ℕ) := do
  let s ← (g.inNodes u).foldlM (visitIncoming g fuel u) ⟨0, ∅, 0⟩
  let s ← (g.outNodes u).foldlM (visitOutgoing g fuel u) s
  some (s.numTriangles, s.degree)

/-- The score of a node in `llama_execute_lcc_directed`. -/
def scoreDirected (u : ℕ) : Option ℚ :=
  if g.inDegree u + g.outDegree u ≤ 1 then some 0
  else (countTrianglesDirected g fuel u).map fun result =>
    let numTriangles := result.1
    let degreeNoDups := result.2
    if degreeNoDups = 1 then 0
    else (numTriangles : ℚ) / (degreeNoDups * (degreeNoDups - 1) : ℕ)

/-- `llama_execute_lcc_directed`, when no timeout fires. -/
def llamaExecuteLccDirected (sched : Schedule ℕ) (scores : ℕ → ℚ) : Option (ℕ → ℚ) :=
  (sched.order 0 (List.range g.maxNodes)).foldlM
    (fun scores u => (scoreDirected g fuel u).map (Function.update scores u)) scores

/-- The loops of `count_triangles_undirected` over the incoming and over the outgoing edges. -/
def visitNeighbour (u : ℕ) (result : ℕ) (v : ℕ) : Option ℕ :=
  countAll (CommonNeighborIterUndirected.getNext g u v) fuel result (.begin g u v)

/-- `count_triangles_undirected`. -/
def countTrianglesUndirected (u : ℕ) : Option ℕ := do
  let result ← (g.inNodes u).foldlM (visitNeighbour g fuel u) 0
  (g.outNodes u).foldlM (visitNeighbour g fuel u) result

/-- The score of a node in `llama_execute_lcc_undirected`. -/
def scoreUndirected (u : ℕ) : Option ℚ :=
  let degree := g.inDegree u + g.outDegree u
  if degree ≤ 1 then some 0
  else (countTrianglesUndirected g fuel u).map fun (numTriangles : ℕ) =>
    (numTriangles : ℚ) / (degree * (degree - 1) : ℕ)

/-- `llama_execute_lcc_undirected`, when no timeout fires. -/
def llamaExecuteLccUndirected (sched : Schedule ℕ) (scores : ℕ → ℚ) : Option (ℕ → ℚ) :=
  (sched.order 0 (List.range g.maxNodes)).foldlM
    (fun scores u => (scoreUndirected g fuel u).map (Function.update scores u)) scores

end Program

variable {g : Snapshot} {src dst u : ℕ}

/-! ## The iterators -/

/-- **The iterator on directed graphs**, in every history of calls: `check_common`, which is made if
`dst` is not a sink, finds the ends of the outgoing edges of `dst`, and `get_next` enumerates the
common neighbours that it has not given. -/
theorem CommonNeighborIterDirected.enumerates (hg : g.SimpleDirected)
    {it : CommonNeighborIterDirected} {returned : List ℕ}
    (h : History (getNext g src dst) (Checked g dst) (begin g src dst) it returned) :
    ((it.dstCurNeighbour = none ↔ ∀ t, ¬g.Arc dst t) ∧
      (it.dstCurNeighbour ≠ none → ∀ t, ∃ found it', (found = true ↔ g.Arc dst t) ∧
        ∃ k, ∀ fuel, k ≤ fuel → checkCommon g dst fuel it t = some (found, it'))) ∧
    ∃ left it', (returned ++ left).Nodup ∧
      (∀ t, t ∈ returned ++ left ↔ (g.Arc src t ∨ g.Arc t src) ∧ g.Arc dst t) ∧
      ∃ k, ∀ fuel, k ≤ fuel → getNext g src dst fuel it = some (left.head?, it') := by
  have hdst := hg.out_nodup dst
  obtain ⟨left, hleft, hall⟩ := h.exists_left (Left g src dst) (fun _ _ hl => hl.getNext hdst)
    (fun _ _ _ hl hchecked => hl.checked hdst hchecked) left_begin
  obtain ⟨it', -, hnext⟩ := hleft.getNext hdst
  refine ⟨⟨⟨fun hcur t ht => ?_, fun hnone => ?_⟩, fun hcur t => ?_⟩,
    left, it', ?_, fun t => ?_, hnext⟩
  · obtain ⟨cur, -, hcur', -⟩ | hsink := hleft.2
    · rw [hcur] at hcur'
      cases hcur'
    · rw [Snapshot.Arc, hsink.1] at ht
      exact absurd ht List.not_mem_nil
  · obtain ⟨cur, _, -, haround⟩ | hsink := hleft.2
    · exact absurd haround.mem (hnone cur)
    · exact hsink.2
  · obtain ⟨dstIter, cur, -, hfuel⟩ := checkCommon_spec hdst (hleft.searching hcur) t
    exact ⟨_, _, decide_eq_true_iff, hfuel⟩
  · rw [hall]
    exact nodup_remaining_begin (hg.out_nodup src) (hg.in_nodup src)
  · rw [hall, mem_remaining_begin, hg.wellFormed.mem_inNodes_iff]
    rfl

/-- **The iterator on undirected graphs**, between neighbours. -/
theorem CommonNeighborIterUndirected.enumerates (hg : g.SimpleUndirected) (hadj : g.Adj dst src)
    {it : CommonNeighborIterUndirected} {returned : List ℕ}
    (h : History (getNext g src dst) (Checked g dst) (begin g src dst) it returned) :
    (∀ t, ∃ found it', (found = true ↔ g.Adj dst t) ∧
      ∃ k, ∀ fuel, k ≤ fuel → checkCommon g dst fuel it t = some (found, it')) ∧
    ∃ left it', (returned ++ left).Nodup ∧
      (∀ t, t ∈ returned ++ left ↔ g.Adj src t ∧ g.Adj dst t) ∧
      ∃ k, ∀ fuel, k ≤ fuel → getNext g src dst fuel it = some (left.head?, it') := by
  have hdst := hg.nodup dst
  obtain ⟨left, hleft, hall⟩ := h.exists_left (Left g src dst) (fun _ _ hl => hl.getNext hdst)
    (fun _ _ _ hl hchecked => hl.checked hdst hchecked)
    ⟨rfl, searching_begin (List.ne_nil_of_mem hadj)⟩
  obtain ⟨it', -, hnext⟩ := hleft.getNext hdst
  refine ⟨fun t => ?_, left, it', ?_, fun t => ?_, hnext⟩
  · obtain ⟨dstIter, cur, reverse, -, hfuel⟩ := checkCommon_spec hdst hleft.2 t
    exact ⟨_, _, decide_eq_true_iff, hfuel⟩
  · rw [hall, remaining_begin]
    exact (hg.nodup src).filter _
  · rw [hall, remaining_begin, List.mem_filter, decide_eq_true_iff]
    rfl

/-! ## The counts -/

section Directed

/-- The neighbours of a node, each once. -/
def Snapshot.neighbourhood (g : Snapshot) (u : ℕ) : Finset ℕ := (g.neighbours u).toFinset

/-- The common neighbours that the iterator between `u` and `v` enumerates. -/
theorem countAll_directed (hg : g.SimpleDirected) (u v n : ℕ) :
    ∃ k, ∀ fuel, k ≤ fuel →
      countAll (CommonNeighborIterDirected.getNext g u v) fuel n (.begin g u v) =
        some (n + ((g.neighbourhood u).filter fun w => v ≠ w ∧ g.Arc v w).card) := by
  obtain ⟨k, hk⟩ := countAll_eq (CommonNeighborIterDirected.Left g u v)
    (fun _ _ hl => hl.getNext (hg.out_nodup v)) CommonNeighborIterDirected.left_begin n
  refine ⟨k, fun fuel hfuel => ?_⟩
  rw [hk fuel hfuel, ← List.toFinset_card_of_nodup
    (CommonNeighborIterDirected.nodup_remaining_begin (hg.out_nodup u) (hg.in_nodup u))]
  congr 3
  ext w
  rw [List.mem_toFinset, CommonNeighborIterDirected.mem_remaining_begin, Finset.mem_filter,
    Snapshot.neighbourhood, List.mem_toFinset, Snapshot.neighbours, List.mem_append]
  refine and_congr_right fun _ => ⟨fun hw => ⟨fun hvw => hg.loopless v ?_, hw⟩, And.right⟩
  rw [hvw]
  rwa [hvw] at hw

/-- The counters after the neighbours in `s`. -/
structure Counted (g : Snapshot) (u : ℕ) (s : Finset ℕ) (c : TriangleCount) : Prop where
  numTriangles : c.numTriangles =
    ∑ v ∈ s, ((g.neighbourhood u).filter fun w => v ≠ w ∧ g.Arc v w).card
  degree : c.degree = s.card

/-- **Another neighbour.** -/
theorem Counted.insert {s : Finset ℕ} {c : TriangleCount} (h : Counted g u s c) {v : ℕ}
    (hv : v ∉ s) (visited : Finset ℕ) :
    Counted g u (insert v s)
      ⟨c.numTriangles + ((g.neighbourhood u).filter fun w => v ≠ w ∧ g.Arc v w).card, visited,
        c.degree + 1⟩ where
  numTriangles := by
    rw [Finset.sum_insert hv, ← h.numTriangles, Nat.add_comm]
  degree := by
    rw [Finset.card_insert_of_notMem hv, ← h.degree]

/-- The loop over the incoming edges. -/
theorem foldlM_visitIncoming (hg : g.SimpleDirected) (u : ℕ) :
    ∃ c, (Counted g u (g.inNodes u).toFinset c ∧
        c.neighboursAlreadyVisited = (g.inNodes u).toFinset) ∧
      ∃ k, ∀ fuel, k ≤ fuel → (g.inNodes u).foldlM (visitIncoming g fuel u) ⟨0, ∅, 0⟩ = some c := by
  refine foldlM_prefix_fuel
    (fun done c => Counted g u done.toFinset c ∧ c.neighboursAlreadyVisited = done.toFinset)
    ⟨⟨rfl, rfl⟩, rfl⟩ ?_
  rintro done v rest c hl ⟨hc, hvisited⟩
  have hnew : v ∉ done.toFinset := by
    have hnodup := hl ▸ hg.in_nodup u
    rw [List.mem_toFinset]
    exact fun hv => (List.nodup_append.mp hnodup).2.2 v hv v List.mem_cons_self rfl
  obtain ⟨k, hk⟩ := countAll_directed hg u v c.numTriangles
  have hset : (done ++ [v]).toFinset = Insert.insert v done.toFinset := by
    ext w
    simp
  rw [hset]
  refine ⟨_, ⟨hc.insert hnew _, congrArg (Insert.insert v) hvisited⟩, k, fun fuel hfuel => ?_⟩
  rw [visitIncoming, hk fuel hfuel, Option.map_some]

/-- The loop over the outgoing edges, which skips the neighbours that were visited. -/
theorem foldlM_visitOutgoing (hg : g.SimpleDirected) (u : ℕ) {s : TriangleCount}
    (hs : Counted g u (g.inNodes u).toFinset s)
    (hvisited : s.neighboursAlreadyVisited = (g.inNodes u).toFinset) :
    ∃ c, (Counted g u ((g.inNodes u).toFinset ∪ (g.outNodes u).toFinset) c ∧
        c.neighboursAlreadyVisited = (g.inNodes u).toFinset) ∧
      ∃ k, ∀ fuel, k ≤ fuel → (g.outNodes u).foldlM (visitOutgoing g fuel u) s = some c := by
  refine foldlM_prefix_fuel (fun done c =>
    Counted g u ((g.inNodes u).toFinset ∪ done.toFinset) c ∧
      c.neighboursAlreadyVisited = (g.inNodes u).toFinset) ⟨by simpa using hs, hvisited⟩ ?_
  rintro done v rest c hl ⟨hc, hvisited⟩
  have hset : (g.inNodes u).toFinset ∪ (done ++ [v]).toFinset =
      Insert.insert v ((g.inNodes u).toFinset ∪ done.toFinset) := by
    ext w
    simp only [Finset.mem_union, List.mem_toFinset, List.mem_append, List.mem_singleton,
      Finset.mem_insert]
    tauto
  rw [hset]
  by_cases hv : v ∈ (g.inNodes u).toFinset
  · refine ⟨c, ⟨?_, hvisited⟩, 0, fun fuel _ => ?_⟩
    · rw [Finset.insert_eq_of_mem (Finset.mem_union_left _ hv)]
      exact hc
    · rw [visitOutgoing, if_pos (hvisited ▸ hv)]
  · have hnew : v ∉ (g.inNodes u).toFinset ∪ done.toFinset := by
      have hnodup := hl ▸ hg.out_nodup u
      rw [Finset.mem_union, not_or, List.mem_toFinset (l := done)]
      exact ⟨hv, fun hv' => (List.nodup_append.mp hnodup).2.2 v hv' v List.mem_cons_self rfl⟩
    obtain ⟨k, hk⟩ := countAll_directed hg u v c.numTriangles
    refine ⟨_, ⟨hc.insert hnew _, hvisited⟩, k, fun fuel hfuel => ?_⟩
    rw [visitOutgoing, if_neg (hvisited ▸ hv), hk fuel hfuel, Option.map_some]

/-- **The loops** visit each neighbour once. -/
theorem countTrianglesDirected_eq (hg : g.SimpleDirected) (u : ℕ) :
    ∃ k, ∀ fuel, k ≤ fuel → countTrianglesDirected g fuel u =
      some ((linkedPairs (g.neighbourhood u) g.Arc).card, (g.neighbourhood u).card) := by
  obtain ⟨s, ⟨hs, hvisited⟩, k, hk⟩ := foldlM_visitIncoming hg u
  obtain ⟨s', ⟨hs', -⟩, k', hk'⟩ := foldlM_visitOutgoing hg u hs hvisited
  have hall : (g.inNodes u).toFinset ∪ (g.outNodes u).toFinset = g.neighbourhood u := by
    rw [Snapshot.neighbourhood, Snapshot.neighbours, List.toFinset_append, Finset.union_comm]
  rw [hall] at hs'
  refine ⟨max k k', fun fuel hfuel => ?_⟩
  rw [countTrianglesDirected, hk fuel (le_of_max_le_left hfuel), Option.bind_eq_bind,
    Option.bind_some, hk' fuel (le_of_max_le_right hfuel), Option.bind_some, hs'.numTriangles,
    hs'.degree, card_linkedPairs]

/-- **The score** of a node is the share of the ordered pairs of its neighbours that are edges. -/
theorem scoreDirected_eq (hg : g.SimpleDirected) (u : ℕ) :
    ∃ k, ∀ fuel, k ≤ fuel → scoreDirected g fuel u =
      some (linkedScore (g.neighbourhood u) g.Arc) := by
  obtain ⟨k, hk⟩ := countTrianglesDirected_eq hg u
  refine ⟨k, fun fuel hfuel => ?_⟩
  have hle : (g.neighbourhood u).card ≤ g.inDegree u + g.outDegree u :=
    (List.toFinset_card_le _).trans (g.length_neighbours u).le
  rw [scoreDirected, hk fuel hfuel, linkedScore]
  by_cases hfew : g.inDegree u + g.outDegree u ≤ 1
  · rw [if_pos hfew, if_pos (by omega)]
  · have hpos : 0 < (g.neighbourhood u).card := by
      refine Finset.card_pos.mpr (List.toFinset_nonempty_iff _ |>.mpr fun hnil => hfew ?_)
      rw [← g.length_neighbours u, hnil]
      exact Nat.zero_le 1
    rw [if_neg hfew, Option.map_some]
    by_cases hone : (g.neighbourhood u).card = 1
    · simp only [if_pos hone, if_pos (show (g.neighbourhood u).card < 2 by omega)]
    · simp only [if_neg hone, if_neg (show ¬(g.neighbourhood u).card < 2 by omega)]

/-- **The kernel on directed graphs**, for every order of the nodes. -/
theorem llamaExecuteLccDirected_eq (hg : g.SimpleDirected) (sched : Schedule ℕ)
    (scores : ℕ → ℚ) :
    ∃ scores', (∀ u < g.maxNodes, scores' u = linkedScore (g.neighbourhood u) g.Arc) ∧
      ∃ k, ∀ fuel, k ≤ fuel → llamaExecuteLccDirected g fuel sched scores = some scores' := by
  refine ⟨_, fun u hu => ?_, foldlM_update_fuel (fun u _ => scoreDirected_eq hg u) scores⟩
  exact if_pos ((sched.perm 0 _).mem_iff.mpr (List.mem_range.mpr hu))

end Directed

section Undirected

theorem Snapshot.SimpleUndirected.not_adj (hg : g.SimpleUndirected) (u : ℕ) : ¬g.Adj u u := by
  intro h
  rcases hg.wellFormed.mem_neighbours.mp h with h | h
  · exact hg.loopless u h
  · exact hg.loopless u h

theorem Snapshot.SimpleUndirected.symm (hg : g.SimpleUndirected) {u v : ℕ} (h : g.Adj u v) :
    g.Adj v u := hg.wellFormed.mem_neighbours.mpr (hg.wellFormed.mem_neighbours.mp h).symm

/-- The common neighbours that the iterator between `u` and `v` enumerates. -/
theorem countAll_undirected (hg : g.SimpleUndirected) {u v : ℕ} (hadj : g.Adj u v) (n : ℕ) :
    ∃ k, ∀ fuel, k ≤ fuel → visitNeighbour g fuel u n v =
      some (n + ((g.neighbourhood u).filter fun w => v ≠ w ∧ g.Adj v w).card) := by
  obtain ⟨k, hk⟩ := countAll_eq (CommonNeighborIterUndirected.Left g u v)
    (fun _ _ hl => hl.getNext (hg.nodup v))
    ⟨rfl, CommonNeighborIterUndirected.searching_begin (List.ne_nil_of_mem (hg.symm hadj))⟩ n
  refine ⟨k, fun fuel hfuel => ?_⟩
  rw [visitNeighbour, hk fuel hfuel, CommonNeighborIterUndirected.remaining_begin,
    ← List.toFinset_card_of_nodup ((hg.nodup u).filter _), List.toFinset_filter]
  congr 3
  ext w
  simp only [Finset.mem_filter, decide_eq_true_eq]
  refine and_congr_right fun _ => ⟨fun hw => ⟨?_, hw⟩, And.right⟩
  rintro rfl
  exact hg.not_adj v hw

/-- A loop over some of the neighbours. -/
theorem foldlM_visitNeighbour (hg : g.SimpleUndirected) {l : List ℕ} (hl : ∀ v ∈ l, g.Adj u v)
    (n : ℕ) :
    ∃ k, ∀ fuel, k ≤ fuel → l.foldlM (visitNeighbour g fuel u) n =
      some (n + (l.map fun v =>
        ((g.neighbourhood u).filter fun w => v ≠ w ∧ g.Adj v w).card).sum) := by
  obtain ⟨n', rfl, hfuel⟩ := foldlM_prefix_fuel
    (fun done n' => n' = n + (done.map fun v =>
      ((g.neighbourhood u).filter fun w => v ≠ w ∧ g.Adj v w).card).sum)
    (l := l) (f := fun fuel => visitNeighbour g fuel u) (s := n) rfl (by
      rintro done v rest n' hsplit rfl
      have hadj := hl v (hsplit ▸ List.mem_append_right _ List.mem_cons_self)
      refine ⟨_, ?_, countAll_undirected hg hadj _⟩
      rw [List.map_append, List.sum_append, List.map_singleton, List.sum_singleton, Nat.add_assoc])
  exact hfuel

/-- **The loops** visit each neighbour once. -/
theorem countTrianglesUndirected_eq (hg : g.SimpleUndirected) (u : ℕ) :
    ∃ k, ∀ fuel, k ≤ fuel → countTrianglesUndirected g fuel u =
      some (linkedPairs (g.neighbourhood u) g.Adj).card := by
  obtain ⟨k, hk⟩ := foldlM_visitNeighbour hg (l := g.inNodes u) (u := u)
    (fun v hv => List.mem_append_right _ hv) 0
  obtain ⟨k', hk'⟩ := foldlM_visitNeighbour hg (l := g.outNodes u) (u := u)
    (fun v hv => List.mem_append_left _ hv) _
  refine ⟨max k k', fun fuel hfuel => ?_⟩
  rw [countTrianglesUndirected, hk fuel (le_of_max_le_left hfuel), Option.bind_eq_bind,
    Option.bind_some, hk' fuel (le_of_max_le_right hfuel), card_linkedPairs,
    Snapshot.neighbourhood, List.sum_toFinset _ (hg.nodup u), Snapshot.neighbours, List.map_append,
    List.sum_append, Nat.zero_add, Nat.add_comm]

/-- **The score** of a node is the share of the ordered pairs of its neighbours that are edges. -/
theorem scoreUndirected_eq (hg : g.SimpleUndirected) (u : ℕ) :
    ∃ k, ∀ fuel, k ≤ fuel → scoreUndirected g fuel u =
      some (linkedScore (g.neighbourhood u) g.Adj) := by
  obtain ⟨k, hk⟩ := countTrianglesUndirected_eq hg u
  refine ⟨k, fun fuel hfuel => ?_⟩
  have hcard : (g.neighbourhood u).card = g.inDegree u + g.outDegree u := by
    rw [Snapshot.neighbourhood, List.toFinset_card_of_nodup (hg.nodup u), g.length_neighbours]
  simp only [scoreUndirected, hk fuel hfuel, linkedScore, hcard]
  by_cases hfew : g.inDegree u + g.outDegree u ≤ 1
  · rw [if_pos hfew, if_pos (by omega)]
  · rw [if_neg hfew, if_neg (by omega), Option.map_some]

/-- **The kernel on undirected graphs**, for every order of the nodes. -/
theorem llamaExecuteLccUndirected_eq (hg : g.SimpleUndirected) (sched : Schedule ℕ)
    (scores : ℕ → ℚ) :
    ∃ scores', (∀ u < g.maxNodes, scores' u = linkedScore (g.neighbourhood u) g.Adj) ∧
      ∃ k, ∀ fuel, k ≤ fuel → llamaExecuteLccUndirected g fuel sched scores = some scores' := by
  refine ⟨_, fun u hu => ?_, foldlM_update_fuel (fun u _ => scoreUndirected_eq hg u) scores⟩
  exact if_pos ((sched.perm 0 _).mem_iff.mpr (List.mem_range.mpr hu))

end Undirected

end Llama

end GfeDriver
