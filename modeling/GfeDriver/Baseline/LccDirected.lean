import GfeDriver.Foundation.Loop
import GfeDriver.Baseline.AdjacencyListLcc
import GfeDriver.Baseline.Load

/-!
# Local clustering coefficients on directed graphs

The neighbourhood of a vertex joins its incoming and its outgoing neighbours, and a vertex that is
both counts once. The coefficient is the share of the ordered pairs of distinct neighbours that are
edges. `do_lcc_directed` builds the neighbourhood in a vector and a hash set, and looks up the ends
of the outgoing edges of each neighbour. `lcc_directed` tests every pair of neighbours. The order in
which the adjacency list iterates over a hash set is a schedule.

## Main definitions

* `CSR.SimpleDirected`: a directed graph without loops or parallel edges
* `CSR.directedCoefficient`: the coefficient of a vertex
* `CSR.doLccDirected`, `AdjacencyList.lccDirected`: the kernels

## Main results

* `buildNeighbours_spec`: the vector and the hash set hold the neighbourhood
* `doLccDirected_eq`, `lccDirected_eq`: the kernels compute shares of pairs
* `CSR.lccDirected_agree`: both compute the coefficients
-/

namespace GfeDriver

open Foundation

/-! ## The compressed sparse rows -/

namespace CSR

variable {W : Type}

/-- A directed graph without loops or parallel edges. -/
structure SimpleDirected (g : CSR W) : Prop where
  wellFormed : g.WellFormed
  directed : g.isDirected = true
  nodup : ∀ v < g.numVertices, (g.outNeighbours v).Nodup
  transposed : g.Transposed
  loopless : ∀ v, ¬g.Arc v v

/-- The vertices with an edge from or to `v`. -/
def neighbourhood (g : CSR W) (v : ℕ) : Finset ℕ :=
  (Finset.range g.numVertices).filter fun u => g.Arc v u ∨ g.Arc u v

/-- **The clustering coefficient** of a vertex of a directed graph. -/
def directedCoefficient (g : CSR W) (v : ℕ) : ℚ := linkedScore (g.neighbourhood v) g.Arc

/-- The body of the loop over the outgoing edges, with the vector `edges` and the set
`neighbours`. -/
def pushOutgoing (acc : List ℕ × Finset ℕ) (u : ℕ) : List ℕ × Finset ℕ :=
  (acc.1 ++ [u], insert u acc.2)

/-- The body of the loop over the incoming edges, which pushes what it could insert. -/
def pushIncoming (acc : List ℕ × Finset ℕ) (u : ℕ) : List ℕ × Finset ℕ :=
  if u ∈ acc.2 then acc else (acc.1 ++ [u], insert u acc.2)

/-- The list of neighbours of `v`, and the set. -/
def buildNeighbours (g : CSR W) (v : ℕ) : List ℕ × Finset ℕ :=
  (g.inNeighbours v).foldl pushIncoming ((g.outNeighbours v).foldl pushOutgoing ([], ∅))

/-- `CSR::do_lcc_directed`, when no timeout fires: the entry of `lcc` that the iteration for `v`
writes. -/
def doLccDirected (g : CSR W) (v : ℕ) : ℚ :=
  let vDegreeOut := g.getOutDegree v
  let vDegreeIn := g.getInDegree v
  let vDegreeUb := vDegreeIn + vDegreeOut
  if vDegreeUb < 2 then 0
  else
    let edges := (g.buildNeighbours v).1
    let neighbours := (g.buildNeighbours v).2
    let vDegree := edges.length
    if vDegree < 2 then 0
    else
      let numTriangles : ℕ := edges.foldl (fun numTriangles u =>
        (g.outNeighbours u).foldl (fun numTriangles w =>
          if w ∈ neighbours then numTriangles + 1 else numTriangles) numTriangles) 0
      (numTriangles : ℚ) / (vDegree * (vDegree - 1) : ℕ)

section Kernel

variable {g : CSR W}

/-- The vector holds the members of the set, once each. -/
structure Listed (members : Finset ℕ) (acc : List ℕ × Finset ℕ) : Prop where
  nodup : acc.1.Nodup
  toFinset : acc.1.toFinset = members
  set_eq : acc.2 = members

theorem Listed.push {members : Finset ℕ} {acc : List ℕ × Finset ℕ} (h : Listed members acc) {u : ℕ}
    (hu : u ∉ members) : Listed (insert u members) (acc.1 ++ [u], insert u acc.2) where
  nodup := by
    have hnot : u ∉ acc.1 := fun hmem => hu (h.toFinset ▸ List.mem_toFinset.mpr hmem)
    rw [← List.concat_eq_append]
    exact h.nodup.concat hnot
  toFinset := by
    ext x
    simp [← h.toFinset]
  set_eq := by rw [h.set_eq]

/-- The outgoing edges, which are all different. -/
theorem Listed.foldl_pushOutgoing {l : List ℕ} (hl : l.Nodup) {members : Finset ℕ}
    {acc : List ℕ × Finset ℕ} (h : Listed members acc) (hnew : ∀ u ∈ l, u ∉ members) :
    Listed (members ∪ l.toFinset) (l.foldl pushOutgoing acc) := by
  induction l generalizing members acc with
  | nil => simpa using h
  | cons u l ih =>
    obtain ⟨hu, hl'⟩ := List.nodup_cons.mp hl
    have hpush := h.push (hnew u List.mem_cons_self)
    rw [List.foldl_cons, List.toFinset_cons, Finset.union_insert, ← Finset.insert_union]
    refine ih hl' hpush fun x hx => ?_
    rw [Finset.mem_insert, not_or]
    exact ⟨fun heq => hu (heq ▸ hx), hnew x (List.mem_cons_of_mem u hx)⟩

/-- The incoming edges, some of which come from an outgoing neighbour. -/
theorem Listed.foldl_pushIncoming (l : List ℕ) {members : Finset ℕ} {acc : List ℕ × Finset ℕ}
    (h : Listed members acc) : Listed (members ∪ l.toFinset) (l.foldl pushIncoming acc) := by
  induction l generalizing members acc with
  | nil => simpa using h
  | cons u l ih =>
    rw [List.foldl_cons, List.toFinset_cons, Finset.union_insert, ← Finset.insert_union]
    unfold pushIncoming
    by_cases hu : u ∈ members
    · rw [if_pos (h.set_eq ▸ hu), Finset.insert_eq_of_mem hu]
      exact ih h
    · rw [if_neg (h.set_eq ▸ hu)]
      exact ih (h.push hu)

/-- **The vector and the hash set** hold the neighbourhood. -/
theorem buildNeighbours_spec (hg : g.SimpleDirected) {v : ℕ} (hv : v < g.numVertices) :
    Listed (g.neighbourhood v) (g.buildNeighbours v) := by
  have hempty : Listed ∅ (([], ∅) : List ℕ × Finset ℕ) := ⟨List.nodup_nil, rfl, rfl⟩
  have hout := hempty.foldl_pushOutgoing (hg.nodup v hv) (by simp)
  have hboth := hout.foldl_pushIncoming (g.inNeighbours v)
  have hset : ∅ ∪ (g.outNeighbours v).toFinset ∪ (g.inNeighbours v).toFinset =
      g.neighbourhood v := by
    ext u
    simp only [Finset.empty_union, Finset.mem_union, List.mem_toFinset, neighbourhood,
      Finset.mem_filter, Finset.mem_range, Arc, hv, true_and]
    constructor
    · rintro (hu | hu)
      · exact ⟨hg.wellFormed.lt_of_mem_outNeighbours hv hu, Or.inl hu⟩
      · have hun := hg.wellFormed.lt_of_mem_inNeighbours hv hu
        exact ⟨hun, Or.inr ⟨hun, (hg.transposed u hun v hv).mp hu⟩⟩
    · rintro ⟨hun, hu | hu⟩
      · exact Or.inl hu
      · exact Or.inr ((hg.transposed u hun v hv).mpr hu.2)
  exact hset ▸ hboth

/-- The upper bound of the degree is one. -/
theorem card_neighbourhood_le (hg : g.SimpleDirected) {v : ℕ} (hv : v < g.numVertices) :
    (g.neighbourhood v).card ≤ g.getInDegree v + g.getOutDegree v := by
  have hset : g.neighbourhood v ⊆ (g.inNeighbours v ++ g.outNeighbours v).toFinset := by
    intro u hu
    obtain ⟨hun, hu⟩ := Finset.mem_filter.mp hu
    have hun' := Finset.mem_range.mp hun
    rw [List.mem_toFinset, List.mem_append]
    exact hu.symm.imp (fun h => (hg.transposed u hun' v hv).mpr h.2) fun h => h.2
  have hlen : (g.inNeighbours v).length = g.getInDegree v := by
    simp [inNeighbours, length_indices, getInDegree]
  calc (g.neighbourhood v).card
      ≤ (g.inNeighbours v ++ g.outNeighbours v).toFinset.card := Finset.card_le_card hset
    _ ≤ (g.inNeighbours v ++ g.outNeighbours v).length := List.toFinset_card_le _
    _ = g.getInDegree v + g.getOutDegree v := by
      rw [List.length_append, hlen, length_outNeighbours]

/-- **The kernel** computes the coefficients. -/
theorem doLccDirected_eq (hg : g.SimpleDirected) {v : ℕ} (hv : v < g.numVertices) :
    g.doLccDirected v = g.directedCoefficient v := by
  have hbuilt := buildNeighbours_spec hg hv
  have hdegree : (g.buildNeighbours v).1.length = (g.neighbourhood v).card := by
    rw [← hbuilt.toFinset, List.toFinset_card_of_nodup hbuilt.nodup]
  have hub := card_neighbourhood_le hg hv
  have hcount : (g.buildNeighbours v).1.foldl (fun numTriangles u =>
      (g.outNeighbours u).foldl (fun numTriangles w =>
        if w ∈ (g.buildNeighbours v).2 then numTriangles + 1 else numTriangles) numTriangles) 0 =
      (linkedPairs (g.neighbourhood v) g.Arc).card := by
    simp only [foldl_count]
    rw [foldl_add, card_linkedPairs, ← List.sum_toFinset _ hbuilt.nodup, hbuilt.toFinset,
      hbuilt.set_eq]
    -- for each neighbour, the neighbours it has an edge to
    refine Finset.sum_congr rfl fun u hu => ?_
    have hun : u < g.numVertices := Finset.mem_range.mp (Finset.mem_filter.mp hu).1
    rw [List.countP_eq_length_filter, ← List.toFinset_card_of_nodup ((hg.nodup u hun).filter _)]
    congr 1
    ext w
    simp only [List.mem_toFinset, List.mem_filter, Finset.mem_filter, decide_eq_true_eq]
    constructor
    · rintro ⟨hw, hwn⟩
      refine ⟨hwn, ?_, hun, hw⟩
      rintro rfl
      exact hg.loopless u ⟨hun, hw⟩
    · rintro ⟨hwn, -, hw⟩
      exact ⟨hw.2, hwn⟩
  unfold doLccDirected directedCoefficient linkedScore
  simp only [hdegree, hcount]
  split_ifs
  all_goals first | rfl | omega

end Kernel

end CSR

/-- **A loaded directed graph is simple.** -/
theorem simpleDirected_loadDirected {W : Type} [Zero W] {edges : List (WeightedEdge W)}
    {view : StreamView W} (h : view.Faithful edges) (hstart : CSR.Started view)
    (hsimple : CSR.Simple edges) : (CSR.loadDirected true view).SimpleDirected := by
  have hwf := CSR.wellFormed_loadDirected (d := true) h hstart
  refine ⟨hwf, rfl, fun v hv => ?_, fun u hu v hv => ?_, fun v harc => ?_⟩
  · rw [← CSR.map_fst_outEdges, List.Nodup, List.pairwise_map]
    exact (CSR.distinct_loadDirected h hstart hsimple hv).1
  · rw [CSR.mem_inNeighbours_iff, CSR.mem_outNeighbours_iff]
    refine exists_congr fun w => ?_
    rw [CSR.mem_inEdges_loadDirected h hstart hu hv, CSR.mem_outEdges_loadDirected h hstart hu hv]
  · obtain ⟨w, hw⟩ := CSR.mem_outNeighbours_iff.mp harc.2
    rw [CSR.mem_outEdges_loadDirected h hstart harc.1 harc.1] at hw
    exact hsimple.loopless _ hw rfl

/-! ## The adjacency list -/

namespace AdjacencyList

variable {W : Type}

/-- `AdjacencyList::for_all_edges`: the vertices that it passes to the function, in order. -/
def forAllEdges (hash : Schedule ℕ) (a : AdjacencyList W) (v : ℕ) : List ℕ :=
  if a.isDirected = false then (a.outgoing v).targets
  else hash.order v ((a.outgoing v).targets ++ (a.incoming v).targets).dedup

/-- `AdjacencyList::check_directed_edge_exists`. -/
def checkDirectedEdgeExists (a : AdjacencyList W) (vertex1 vertex2 : ℕ) : Bool :=
  (a.outgoing vertex1).any fun e => e.1 = vertex2

/-- The score that the loop over the vertices computes for `vertex1`. -/
def lccDirectedVertex (hash : Schedule ℕ) (a : AdjacencyList W) (vertex1 : ℕ) : ℚ :=
  let degree := a.getDegree vertex1
  if degree ≥ 2 then
    let numTriangles : ℕ := (a.forAllEdges hash vertex1).foldl (fun numTriangles vertex2 =>
      (a.forAllEdges hash vertex1).foldl (fun numTriangles vertex3 =>
        if vertex2 ≠ vertex3 then
          numTriangles + (a.checkDirectedEdgeExists vertex2 vertex3).toNat
        else numTriangles) numTriangles) 0
    (numTriangles : ℚ) / (degree * (degree - 1) : ℕ)
  else 0

/-- `AdjacencyList::lcc_directed`, when no timeout fires: the map `result`. -/
def lccDirected (hash : Schedule ℕ) (a : AdjacencyList W) : ℕ → ℚ :=
  a.nodes.keys.foldl
    (fun result vertex1 => Function.update result vertex1 (a.lccDirectedVertex hash vertex1))
    fun _ => 0

/-- The vertices with an edge from or to `v`. -/
def neighbourhood (a : AdjacencyList W) (v : ℕ) : Finset ℕ :=
  ((a.outgoing v).targets ++ (a.incoming v).targets).toFinset

/-- There is an edge from `u` to `w`. -/
abbrev Linked (a : AdjacencyList W) (u w : ℕ) : Prop := w ∈ (a.outgoing u).targets

variable {a : AdjacencyList W}

theorem checkDirectedEdgeExists_iff {u w : ℕ} : a.checkDirectedEdgeExists u w ↔ a.Linked u w := by
  simp [checkDirectedEdgeExists, Linked, EdgeList.targets]

/-- The vertices passed to the function are the neighbourhood, in some order. -/
theorem forAllEdges_spec (hash : Schedule ℕ) (hd : a.isDirected = true) (v : ℕ) :
    (a.forAllEdges hash v).Nodup ∧ (a.forAllEdges hash v).toFinset = a.neighbourhood v := by
  rw [forAllEdges, if_neg (by simp [hd])]
  refine ⟨hash.nodup_order v (List.nodup_dedup _), ?_⟩
  rw [List.toFinset_eq_of_perm _ _ (hash.perm v _)]
  ext x
  simp [neighbourhood]

/-- **The kernel** computes the shares of the pairs that are edges. -/
theorem lccDirected_eq (hash : Schedule ℕ) (hd : a.isDirected = true) {v : ℕ} (hv : v ∈ a.nodes) :
    a.lccDirected hash v = linkedScore (a.neighbourhood v) a.Linked := by
  obtain ⟨hnodup, hset⟩ := forAllEdges_spec hash hd v
  have hdegree : a.getDegree v = (a.neighbourhood v).card := by
    rw [getDegree, if_neg (by simp [hd])]
    rfl
  have htest : ∀ n u w : ℕ,
      (if u ≠ w then n + (a.checkDirectedEdgeExists u w).toNat else n) =
        if u ≠ w ∧ a.Linked u w then n + 1 else n := by
    intro n u w
    by_cases huw : u ≠ w
    · cases hcheck : a.checkDirectedEdgeExists u w with
      | true => simp [huw, checkDirectedEdgeExists_iff.mp hcheck]
      | false =>
        have hnot : ¬a.Linked u w := fun h => by simp [checkDirectedEdgeExists_iff.mpr h] at hcheck
        simp [hnot]
    · simp [huw]
  have hcount : (a.forAllEdges hash v).foldl (fun numTriangles vertex2 =>
      (a.forAllEdges hash v).foldl (fun numTriangles vertex3 =>
        if vertex2 ≠ vertex3 then
          numTriangles + (a.checkDirectedEdgeExists vertex2 vertex3).toNat
        else numTriangles) numTriangles) 0 = (linkedPairs (a.neighbourhood v) a.Linked).card := by
    simp only [htest, CSR.foldl_count]
    rw [foldl_add, card_linkedPairs, ← List.sum_toFinset _ hnodup, hset]
    refine Finset.sum_congr rfl fun u _ => ?_
    rw [List.countP_eq_length_filter, ← List.toFinset_card_of_nodup (hnodup.filter _),
      List.toFinset_filter, hset]
    simp
  rw [lccDirected, foldl_update, if_pos (AList.mem_keys.mp hv)]
  unfold lccDirectedVertex linkedScore
  simp only [hdegree, hcount]
  split_ifs
  all_goals first | rfl | omega

end AdjacencyList

/-! ## The two libraries -/

namespace Represents

variable {W : Type} [Zero W] {g : CSR W} {a : AdjacencyList W}

/-- The edges correspond. -/
theorem linked_iff (h : Represents g a) {u v : ℕ} (hu : u < g.numVertices)
    (hv : v < g.numVertices) : a.Linked (g.ext u) (g.ext v) ↔ g.Arc u v := by
  rw [AdjacencyList.Linked, EdgeList.mem_targets, CSR.Arc, CSR.mem_outNeighbours_iff]
  simp only [hu, true_and]
  exact exists_congr fun w => (h.out u hu v hv w).symm

/-- The neighbourhoods correspond. -/
theorem neighbourhood_eq (h : Represents g a) (hd : g.isDirected = true) {v : ℕ}
    (hv : v < g.numVertices) : a.neighbourhood (g.ext v) = (g.neighbourhood v).image g.ext := by
  have hback : a.back (g.ext v) = a.incoming (g.ext v) := by
    simp [AdjacencyList.back, h.mode, hd]
  -- an incoming edge is an outgoing edge of its source
  have hin : ∀ x, x ∈ (a.incoming (g.ext v)).targets ↔ a.Linked x (g.ext v) := by
    intro x
    rw [← hback, AdjacencyList.Linked, EdgeList.mem_targets, EdgeList.mem_targets]
    exact exists_congr fun w => (h.invariant.mirror x (g.ext v) w).symm
  ext x
  simp only [AdjacencyList.neighbourhood, List.mem_toFinset, List.mem_append, hin,
    Finset.mem_image, CSR.neighbourhood, Finset.mem_filter, Finset.mem_range]
  constructor
  · intro hx
    have hnode : x ∈ a.nodes :=
      h.invariant.present (g.ext v) x (hx.imp id fun hlinked => (hin x).mpr hlinked)
    obtain ⟨u, hu, rfl⟩ := h.exists_ext hnode
    rw [h.linked_iff hu hv] at hx
    exact ⟨u, ⟨hu, hx.imp (h.linked_iff hv hu).mp id⟩, rfl⟩
  · rintro ⟨u, ⟨hu, harc⟩, rfl⟩
    exact harc.imp (h.linked_iff hv hu).mpr (h.linked_iff hu hv).mpr

/-- **The coefficient** of a vertex in the two libraries. -/
theorem linkedScore_eq (h : Represents g a) (hd : g.isDirected = true) {v : ℕ}
    (hv : v < g.numVertices) :
    linkedScore (a.neighbourhood (g.ext v)) a.Linked = g.directedCoefficient v := by
  have hlt : ∀ u ∈ g.neighbourhood v, u < g.numVertices := fun u hu =>
    Finset.mem_range.mp (Finset.mem_filter.mp hu).1
  rw [h.neighbourhood_eq hd hv, CSR.directedCoefficient]
  exact linkedScore_image _ _ (fun u hu w hw heq => h.ext_inj (hlt u hu) (hlt w hw) heq)
    fun u hu w hw => h.linked_iff (hlt u hu) (hlt w hw)

end Represents

namespace CSR

/-- **The two implementations agree** on every simple directed graph, for every order in which the
adjacency list iterates over its hash sets: both compute the clustering coefficients, which are
between `0` and `1`. -/
theorem lccDirected_agree {W : Type} [Zero W] {g : CSR W} (hg : g.SimpleDirected) :
    (∀ v < g.numVertices, g.doLccDirected v = g.directedCoefficient v) ∧
    (∀ (a : AdjacencyList W) (hash : Schedule ℕ), Represents g a → ∀ v < g.numVertices,
      a.lccDirected hash (g.ext v) = g.directedCoefficient v) ∧
    ∀ v, 0 ≤ g.directedCoefficient v ∧ g.directedCoefficient v ≤ 1 := by
  refine ⟨fun v hv => doLccDirected_eq hg hv, fun a hash h v hv => ?_,
    fun v => ⟨linkedScore_nonneg _ _, linkedScore_le_one _ _⟩⟩
  have hd : a.isDirected = true := h.mode.trans hg.directed
  rw [AdjacencyList.lccDirected_eq hash hd (h.ext_mem hv)]
  exact h.linkedScore_eq hg.directed hv

/-- A graph whose vertices `0` and `1` have edges in both directions, and the path from `0` to `1`
through `2`. -/
def bothWays : CSR ℕ where
  isDirected := true
  numVertices := 3
  numEdges := 4
  ext2log := [⟨10, 0⟩, ⟨20, 1⟩, ⟨30, 2⟩].toAList
  log2ext := [10, 20, 30]
  outV := [2, 3, 4]
  outE := [1, 2, 0, 1]
  outW := [1, 1, 1, 1]
  inV := [1, 3, 4]
  inE := [1, 0, 2, 0]
  inW := [1, 1, 1, 1]

theorem bothWays_simple : bothWays.SimpleDirected where
  wellFormed := by
    constructor <;> exact ⟨rfl, by simp [bothWays], rfl, rfl, by simp [bothWays]⟩
  directed := rfl
  nodup := by decide
  transposed := by
    intro u hu v hv
    change u < 3 at hu
    change v < 3 at hv
    interval_cases u <;> interval_cases v <;> decide
  loopless := by
    rintro v ⟨hv, hmem⟩
    revert hmem
    change v < 3 at hv
    interval_cases v <;> decide

/-- The vertex `0` has two neighbours, one of which has an edge to the other. -/
theorem lccDirected_bothWays : bothWays.doLccDirected 0 = 1 / 2 := by
  have hscore : bothWays.directedCoefficient 0 = 1 / 2 := by decide +kernel
  exact ((lccDirected_agree bothWays_simple).1 0 (by decide)).trans hscore

end CSR

end GfeDriver
