import Mathlib.Data.Finmap
import GfeDriver.Baseline.AdjacencyListInvariant
import GfeDriver.Foundation.Calls
import GfeDriver.Foundation.EdgeCount

/-!
# The adjacency list and the contract of the updates

The interface documents what its updates return, in terms of a graph: a set of vertices and the
weights of its edges, which are ordered pairs in a directed graph and unordered ones otherwise. An
insertion returns false when the edge exists already. The adjacency list overwrites the weight of
such an edge and returns true, so it follows the graph of the interface exactly in the runs that
insert no stored edge.

A weight is a double: `none` stands for the NaN, which `get_weight` returns for a missing edge and
by which `has_edge` recognises one. An edge whose weight is the NaN is stored, and not reported.

## Main definitions

* `InterfaceGraph W`, `InterfaceGraph.step`: the graph, and the documented updates
* `Agrees g s`: the queries of the library return the values of the graph
* `Simulates g s ops`: they do at any time, and each call returns what is documented
* `InterfaceGraph.Fresh`: a call inserts no stored edge, and no NaN

## Main results

* `Stores.agrees_iff`, `Stores.step`: the queries, and one call
* `simulates_interface_iff`: the runs that honour the contract
-/

namespace GfeDriver

open AdjacencyList (edgeKey Operation)
open Foundation

/-! ## The graph of the interface -/

/-- A set of vertices and a partial map from pairs of vertices to weights. -/
structure InterfaceGraph (W : Type) where
  isDirected : Bool
  vertices : Finset ℕ
  edges : Finmap fun _ : ℕ × ℕ => Option W

namespace InterfaceGraph

variable {W : Type}

def empty (W : Type) (isDirected : Bool) : InterfaceGraph W := ⟨isDirected, ∅, ∅⟩

/-- The pair of an edge. -/
def key (s : InterfaceGraph W) (u v : ℕ) : ℕ × ℕ := edgeKey s.isDirected u v

/-- The weight of an edge, the NaN when there is none. -/
def weight (s : InterfaceGraph W) (u v : ℕ) : Option W := (s.edges.lookup (s.key u v)).join

/-- `add_vertex`: true if the vertex has been inserted, false when it exists. -/
def addVertex (s : InterfaceGraph W) (v : ℕ) : Bool × InterfaceGraph W :=
  (decide (v ∉ s.vertices), { s with vertices := insert v s.vertices })

/-- The insertion of an edge between two vertices: false when the edge exists. -/
def insertEdge (s : InterfaceGraph W) (e : WeightedEdge (Option W)) : Bool × InterfaceGraph W :=
  if s.key e.source e.destination ∈ s.edges then (false, s)
  else (true, { s with edges := s.edges.insert (s.key e.source e.destination) e.weight })

/-- `add_edge`: false also when one of the vertices does not exist. -/
def addEdge (s : InterfaceGraph W) (e : WeightedEdge (Option W)) : Bool × InterfaceGraph W :=
  if e.source ∈ s.vertices ∧ e.destination ∈ s.vertices then s.insertEdge e else (false, s)

/-- `add_edge_v2`: the vertices are created when they do not exist. -/
def addEdgeV2 (s : InterfaceGraph W) (e : WeightedEdge (Option W)) : Bool × InterfaceGraph W :=
  ((s.addVertex e.source).2.addVertex e.destination).2.insertEdge e

/-- `remove_edge`: false when the edge does not exist. -/
def removeEdge (s : InterfaceGraph W) (e : Edge) : Bool × InterfaceGraph W :=
  if s.key e.source e.destination ∈ s.edges then
    (true, { s with edges := s.edges.erase (s.key e.source e.destination) })
  else (false, s)

/-- A documented call. What the removal of a vertex does is left to the implementation. -/
def step (s : InterfaceGraph W) : Operation (Option W) → Option (Bool × InterfaceGraph W)
  | .addVertex v => some (s.addVertex v)
  | .removeVertex _ => none
  | .addEdge e => some (s.addEdge e)
  | .addEdgeV2 e => some (s.addEdgeV2 e)
  | .removeEdge e => some (s.removeEdge e)

/-- No weight is the NaN. -/
def NoNaN (s : InterfaceGraph W) : Prop := ∀ k, s.edges.lookup k ≠ some none

/-- A call inserts an edge that is not stored, with a weight that is a number. An edge with a
missing vertex is not inserted by `add_edge`. -/
def Fresh (s : InterfaceGraph W) : Operation (Option W) → Prop
  | .addEdge e => e.source ∈ s.vertices → e.destination ∈ s.vertices →
      s.key e.source e.destination ∉ s.edges ∧ e.weight ≠ none
  | .addEdgeV2 e => s.key e.source e.destination ∉ s.edges ∧ e.weight ≠ none
  | _ => True

/-- Every insertion of the sequence is that of a new edge. -/
def FreshInsertions (s : InterfaceGraph W) (ops : List (Operation (Option W))) : Prop :=
  Along step (fun s op _ _ => s.Fresh op) s ops

theorem NoNaN.insert {s : InterfaceGraph W} (h : s.NoNaN) {k : ℕ × ℕ} {w : Option W} :
    ({ s with edges := s.edges.insert k w } : InterfaceGraph W).NoNaN ↔ w ≠ none := by
  constructor
  · rintro hnan rfl
    exact hnan k (Finmap.lookup_insert _)
  · intro hw k'
    by_cases hk : k' = k
    · subst hk
      simpa using hw
    · simpa [Finmap.lookup_insert_of_ne _ hk] using h k'

theorem NoNaN.erase {s : InterfaceGraph W} (h : s.NoNaN) (k : ℕ × ℕ) :
    ({ s with edges := s.edges.erase k } : InterfaceGraph W).NoNaN := by
  intro k'
  by_cases hk : k' = k
  · subst hk
    simp
  · simpa [Finmap.lookup_erase_ne hk] using h k'

end InterfaceGraph

namespace AdjacencyList

variable {W : Type}

/-! ## The queries -/

/-- `AdjacencyList::num_vertices`. -/
def numVertices (g : AdjacencyList W) : ℕ := g.nodes.keys.length

/-- `AdjacencyList::has_vertex`. -/
def hasVertex (g : AdjacencyList W) (v : ℕ) : Bool := v ∈ g.nodes

/-- `AdjacencyList::get_weight`: the NaN when the source or the edge does not exist. -/
def getWeight (g : AdjacencyList (Option W)) (source destination : ℕ) : Option W :=
  match g.nodes.lookup source with
  | none => none
  | some p =>
    match p.outgoing.find destination with
    | none => none
    | some e => e.2

/-- `Interface::has_edge`: the weight is not the NaN. -/
def hasEdge (g : AdjacencyList (Option W)) (source destination : ℕ) : Bool :=
  (g.getWeight source destination).isSome

/-! ## The contract -/

/-- The queries of the library return the values of the graph. -/
structure Agrees (g : AdjacencyList (Option W)) (s : InterfaceGraph W) : Prop where
  hasVertex : ∀ v, g.hasVertex v ↔ v ∈ s.vertices
  getWeight : ∀ u v, g.getWeight u v = s.weight u v
  hasEdge : ∀ u v, g.hasEdge u v ↔ s.key u v ∈ s.edges
  numVertices : g.numVertices = s.vertices.card
  numEdges : g.numEdges = s.edges.keys.card

/-- **The contract** of a sequence of calls: each call returns what is documented, and before and
after each call the queries return the values of the graph. -/
def Simulates : AdjacencyList (Option W) → InterfaceGraph W → List (Operation (Option W)) → Prop
  | g, s, [] => Agrees g s
  | g, s, op :: ops => Agrees g s ∧ ∃ b g' s',
      g.step op = some (.returned b, g') ∧ s.step op = some (b, s') ∧ Simulates g' s' ops

/-- A call that removes no vertex and inserts no edge from a vertex to itself. -/
def Admissible : Operation W → Prop
  | .addVertex _ => True
  | .removeVertex _ => False
  | .addEdge e => e.source ≠ e.destination
  | .addEdgeV2 e => e.source ≠ e.destination
  | .removeEdge _ => True

theorem Simulates.agrees {g : AdjacencyList (Option W)} {s : InterfaceGraph W}
    {ops : List (Operation (Option W))} (h : Simulates g s ops) : Agrees g s := by
  cases ops with
  | nil => exact h
  | cons op ops => exact h.1

/-! ## What the lists hold of the graph -/

/-- The lists hold the graph `s`. -/
structure Stores (g : AdjacencyList (Option W)) (s : InterfaceGraph W) : Prop where
  invariant : Invariant g
  mode : g.isDirected = s.isDirected
  vertices : ∀ v, v ∈ g.nodes ↔ v ∈ s.vertices
  weights : ∀ u v w, (v, w) ∈ g.outgoing u ↔ s.edges.lookup (s.key u v) = some w
  edges : g.edges = s.edges.keys

section Stores

variable {g : AdjacencyList (Option W)} {s : InterfaceGraph W}

theorem Stores.empty (isDirected : Bool) :
    Stores (AdjacencyList.empty isDirected) (InterfaceGraph.empty W isDirected) where
  invariant := Invariant.empty isDirected
  mode := rfl
  vertices := by simp [AdjacencyList.empty, InterfaceGraph.empty]
  weights := by simp [outgoing, node, AdjacencyList.empty, InterfaceGraph.empty]
  edges := by simp [AdjacencyList.edges, AdjacencyList.empty, InterfaceGraph.empty]

theorem Stores.mem_targets (h : Stores g s) {u v : ℕ} :
    v ∈ (g.outgoing u).targets ↔ s.key u v ∈ s.edges := by
  rw [EdgeList.mem_targets, Finmap.mem_iff]
  exact exists_congr fun w => h.weights u v w

theorem getWeight_eq (g : AdjacencyList (Option W)) (u v : ℕ) :
    g.getWeight u v = ((g.outgoing u).find v).bind Prod.snd := by
  unfold getWeight outgoing node
  cases hu : g.nodes.lookup u with
  | none => rfl
  | some p =>
    cases hv : p.outgoing.find v with
    | none => simp [hv]
    | some e => simp [hv]

theorem Stores.getWeight (h : Stores g s) (u v : ℕ) : g.getWeight u v = s.weight u v := by
  rw [getWeight_eq, InterfaceGraph.weight]
  cases hf : (g.outgoing u).find v with
  | none =>
    have hmem : s.key u v ∉ s.edges := fun hk =>
      EdgeList.find_eq_none.mp hf (h.mem_targets.mpr hk)
    rw [Finmap.lookup_eq_none.mpr hmem]
    rfl
  | some e =>
    have htarget : e.1 = v := by simpa using List.find?_some hf
    have hlookup := (h.weights u e.1 e.2).mp (List.mem_of_find?_eq_some hf)
    rw [htarget] at hlookup
    rw [hlookup]
    rfl

/-- **The queries** return the values of the graph when no weight is the NaN. -/
theorem Stores.agrees_iff (h : Stores g s) : Agrees g s ↔ s.NoNaN := by
  constructor
  · intro hagrees k hk
    -- a stored pair is an edge, and `has_edge` does not report it
    obtain ⟨u, v, w, -, rfl⟩ := mem_edges.mp
      (h.edges ▸ Finmap.mem_keys.mpr (Finmap.mem_iff.mpr ⟨none, hk⟩) : k ∈ g.edges)
    rw [h.mode] at hk
    have hedge := (hagrees.hasEdge u v).mpr (Finmap.mem_iff.mpr ⟨none, hk⟩)
    simp [AdjacencyList.hasEdge, h.getWeight, InterfaceGraph.weight, InterfaceGraph.key, hk]
      at hedge
  · intro hnan
    refine { hasVertex := fun v => ?_, getWeight := h.getWeight, hasEdge := fun u v => ?_,
             numVertices := ?_, numEdges := ?_ }
    · simpa [AdjacencyList.hasVertex] using h.vertices v
    · rw [AdjacencyList.hasEdge, h.getWeight, InterfaceGraph.weight, Finmap.mem_iff]
      cases hk : s.edges.lookup (s.key u v) with
      | none => simp
      | some w =>
        cases w with
        | none => exact absurd hk (hnan _)
        | some w => simp
    · have hvertices : g.nodes.keys.toFinset = s.vertices := by
        ext v
        rw [List.mem_toFinset, ← h.vertices, AList.mem_keys]
      rw [AdjacencyList.numVertices, ← hvertices,
        List.toFinset_card_of_nodup g.nodes.keys_nodup]
    · rw [h.invariant.count, h.edges]

/-! ## One call -/

theorem Stores.emplace (h : Stores g s) (v : ℕ) : Stores (g.emplace v) (s.addVertex v).2 where
  invariant := h.invariant.emplace v
  mode := by
    rw [← show g.isDirected = (s.addVertex v).2.isDirected from h.mode]
    unfold AdjacencyList.emplace
    split_ifs <;> rfl
  vertices := by
    intro u
    rw [mem_nodes_emplace, h.vertices]
    simp [InterfaceGraph.addVertex]
  weights := by
    intro u x w
    rw [(outgoing_emplace g v u).1]
    exact h.weights u x w
  edges := by
    rw [show (s.addVertex v).2.edges = s.edges from rfl, ← h.edges]
    ext k
    have hmode : (g.emplace v).isDirected = g.isDirected := by
      unfold AdjacencyList.emplace
      split_ifs <;> rfl
    simp only [mem_edges, (outgoing_emplace g v _).1, hmode]

variable {e : WeightedEdge (Option W)}

/-- The insertion of an edge between two vertices. -/
theorem Stores.addEdge0 (h : Stores g s) (hne : e.source ≠ e.destination)
    (hs : e.source ∈ g.nodes) (hd : e.destination ∈ g.nodes) :
    Stores (g.addEdge0 e)
      { s with edges := s.edges.insert (s.key e.source e.destination) e.weight } where
  invariant := h.invariant.addEdge0 hne hs hd
  mode := by rw [isDirected_addEdge0, h.mode]
  vertices := by
    intro v
    rw [mem_nodes_addEdge0, ← h.vertices]
    constructor
    · rintro (rfl | rfl | hv)
      · exact hs
      · exact hd
      · exact hv
    · exact fun hv => Or.inr (Or.inr hv)
  weights := by
    intro u v w
    rw [mem_outgoing_addEdge0 h.invariant.toConsistent hne, h.mode, h.weights]
    change _ ↔ (s.edges.insert (s.key e.source e.destination) e.weight).lookup (s.key u v) = some w
    by_cases hk : s.key u v = s.key e.source e.destination
    · rw [hk, Finmap.lookup_insert]
      simp only [InterfaceGraph.key] at hk
      simp [hk, eq_comm]
    · rw [Finmap.lookup_insert_of_ne _ hk]
      simp only [InterfaceGraph.key] at hk
      simp [hk]
  edges := by
    rw [edges_addEdge0 h.invariant.toConsistent hne, h.edges, h.mode, keys_insert]
    rfl

/-- The removal of a stored edge. -/
theorem Stores.eraseEdge (h : Stores g s) {e : Edge}
    (hmem : e.destination ∈ (g.outgoing e.source).targets) :
    Stores (g.eraseEdge e)
      { s with edges := s.edges.erase (s.key e.source e.destination) } := by
  have hne : e.source ≠ e.destination := fun heq => h.invariant.loopless e.source (heq ▸ hmem)
  refine { invariant := h.invariant.eraseEdge hmem, mode := ?_, vertices := ?_, weights := ?_,
           edges := ?_ }
  · rw [isDirected_eraseEdge, h.mode]
  · intro v
    rw [← h.vertices]
    obtain ⟨w, hw⟩ := EdgeList.mem_targets.mp hmem
    have hs : e.source ∈ g.nodes := mem_nodes_of_outgoing hw
    have hd : e.destination ∈ g.nodes := h.invariant.present _ _ (Or.inl hmem)
    simp only [AdjacencyList.eraseEdge, mem_nodes_setBack, nodes_setNumEdges,
      mem_nodes_setOutgoing]
    constructor
    · rintro (rfl | rfl | hv)
      · exact hd
      · exact hs
      · exact hv
    · exact fun hv => Or.inr (Or.inr hv)
  · intro u v w
    rw [mem_outgoing_eraseEdge h.invariant.toConsistent hne, h.mode, h.weights]
    change _ ↔ (s.edges.erase (s.key e.source e.destination)).lookup (s.key u v) = some w
    by_cases hk : s.key u v = s.key e.source e.destination
    · rw [hk, Finmap.lookup_erase]
      simp only [InterfaceGraph.key] at hk
      simp [hk]
    · rw [Finmap.lookup_erase_ne hk]
      simp only [InterfaceGraph.key] at hk
      simp [hk]
  · rw [edges_eraseEdge h.invariant.toConsistent hne, h.edges, h.mode, Finmap.keys_erase]
    rfl

/-- The library overwrites the weight of a stored edge and returns true: the documented insertion
answers the same when the edge is new. -/
theorem Stores.insertEdge (h : Stores g s) (hnan : s.NoNaN) (hne : e.source ≠ e.destination)
    (hs : e.source ∈ g.nodes) (hd : e.destination ∈ g.nodes) :
    (true = (s.insertEdge e).1 → Stores (g.addEdge0 e) (s.insertEdge e).2) ∧
      (true = (s.insertEdge e).1 ∧ (s.insertEdge e).2.NoNaN ↔
        s.key e.source e.destination ∉ s.edges ∧ e.weight ≠ none) := by
  unfold InterfaceGraph.insertEdge
  by_cases hmem : s.key e.source e.destination ∈ s.edges
  · simp [hmem]
  · simp only [if_neg hmem, true_implies, true_and]
    exact ⟨h.addEdge0 hne hs hd, hnan.insert.trans (by simp [hmem])⟩

/-- **One call**: both sides are defined. They return the same value, and leave no NaN, exactly when
the call inserts no stored edge and no NaN, and the lists hold the graph then. -/
theorem Stores.step (h : Stores g s) (hnan : s.NoNaN) {op : Operation (Option W)}
    (hop : Admissible op) :
    ∃ b g' b' s', g.step op = some (.returned b, g') ∧ s.step op = some (b', s') ∧
      (b = b' → Stores g' s') ∧ (b = b' ∧ s'.NoNaN ↔ s.Fresh op) := by
  cases op with
  | addVertex v =>
    refine ⟨_, _, _, _, rfl, rfl, fun _ => h.emplace v, ?_⟩
    have hvalue : (g.addVertex0 v).1 = (s.addVertex v).1 := by
      simp [AdjacencyList.addVertex0, InterfaceGraph.addVertex, h.vertices]
    exact iff_of_true ⟨hvalue, hnan⟩ trivial
  | removeVertex v => exact hop.elim
  | addEdge e =>
    by_cases hends : e.source ∈ g.nodes ∧ e.destination ∈ g.nodes
    · obtain ⟨hs, hd⟩ := hends
      have hs' := (h.vertices _).mp hs
      have hd' := (h.vertices _).mp hd
      refine ⟨true, g.addEdge0 e, (s.insertEdge e).1, (s.insertEdge e).2, ?_, ?_, ?_⟩
      · simp [AdjacencyList.step, AdjacencyList.addEdge, show e.source ≠ e.destination from hop,
          hs, hd]
      · simp [InterfaceGraph.step, InterfaceGraph.addEdge, hs', hd']
      · obtain ⟨hstores, hiff⟩ := h.insertEdge hnan hop hs hd
        exact ⟨hstores, by rw [hiff]; simp [InterfaceGraph.Fresh, hs', hd']⟩
    · -- neither side inserts an edge when a vertex is missing
      have hends' : ¬(e.source ∈ s.vertices ∧ e.destination ∈ s.vertices) := by
        rwa [← h.vertices, ← h.vertices]
      refine ⟨false, g, false, s, ?_, ?_, fun _ => h, iff_of_true ⟨rfl, hnan⟩ ?_⟩
      · rw [not_and] at hends
        by_cases hs : e.source ∈ g.nodes
        · simp [AdjacencyList.step, AdjacencyList.addEdge, show e.source ≠ e.destination from hop,
            hs, hends hs]
        · simp [AdjacencyList.step, AdjacencyList.addEdge, show e.source ≠ e.destination from hop,
            hs]
      · simp [InterfaceGraph.step, InterfaceGraph.addEdge, hends']
      · exact fun hs hd => absurd ⟨hs, hd⟩ hends'
  | addEdgeV2 e =>
    have hboth := (h.emplace e.source).emplace e.destination
    obtain ⟨hstores, hiff⟩ := hboth.insertEdge (e := e) hnan hop (by simp) (by simp)
    refine ⟨true, _, (s.addEdgeV2 e).1, (s.addEdgeV2 e).2, ?_, rfl, hstores, hiff⟩
    simp [AdjacencyList.step, AdjacencyList.addEdgeV2, show e.source ≠ e.destination from hop]
  | removeEdge e =>
    by_cases hmem : e.destination ∈ (g.outgoing e.source).targets
    · refine ⟨true, g.eraseEdge e, true, _, ?_, ?_, fun _ => h.eraseEdge hmem,
        iff_of_true ⟨rfl, hnan.erase _⟩ trivial⟩
      · simp [AdjacencyList.step, deleteEdge0_eq h.invariant, hmem]
      · simp [InterfaceGraph.step, InterfaceGraph.removeEdge, h.mem_targets.mp hmem]
    · refine ⟨false, g, false, s, ?_, ?_, fun _ => h, iff_of_true ⟨rfl, hnan⟩ trivial⟩
      · simp [AdjacencyList.step, deleteEdge0_eq h.invariant, hmem]
      · simp [InterfaceGraph.step, InterfaceGraph.removeEdge, mt h.mem_targets.mpr hmem]

end Stores

/-! ## Whole runs -/

/-- **The runs that honour the contract**, from any state that holds the graph, are those that
insert no stored edge and no NaN. -/
theorem Stores.simulates_iff {g : AdjacencyList (Option W)} {s : InterfaceGraph W}
    (h : Stores g s) (hnan : s.NoNaN) {ops : List (Operation (Option W))}
    (hops : ∀ op ∈ ops, Admissible op) : Simulates g s ops ↔ s.FreshInsertions ops := by
  induction ops generalizing g s with
  | nil => exact iff_of_true (h.agrees_iff.mpr hnan) trivial
  | cons op ops ih =>
    obtain ⟨b, g', b', s', hg, hs, hstores, hiff⟩ :=
      h.step hnan (hops op List.mem_cons_self)
    have hrest : ∀ op ∈ ops, Admissible op := fun op hop => hops op (List.mem_cons_of_mem _ hop)
    rw [InterfaceGraph.FreshInsertions, along_cons hs, ← hiff]
    constructor
    · rintro ⟨-, b₁, g₁, s₁, hg₁, hs₁, hsim⟩
      obtain ⟨rfl, rfl⟩ : b = b₁ ∧ g' = g₁ := by simpa [hg] using hg₁
      obtain ⟨rfl, rfl⟩ : b' = b ∧ s' = s₁ := by simpa [hs] using hs₁
      have hnan' := (hstores rfl).agrees_iff.mp hsim.agrees
      exact ⟨⟨rfl, hnan'⟩, (ih (hstores rfl) hnan' hrest).mp hsim⟩
    · rintro ⟨⟨rfl, hnan'⟩, hfresh⟩
      exact ⟨h.agrees_iff.mpr hnan, b, g', s', hg, hs,
        (ih (hstores rfl) hnan' hrest).mpr hfresh⟩

/-- **The contract of the updates**: from the empty graph, in both modes, the library is simulated
by the graph of the interface in exactly the runs that insert no stored edge, and no NaN. -/
theorem simulates_interface_iff (isDirected : Bool) {ops : List (Operation (Option W))}
    (hops : ∀ op ∈ ops, Admissible op) :
    Simulates (empty isDirected) (InterfaceGraph.empty W isDirected) ops ↔
      (InterfaceGraph.empty W isDirected).FreshInsertions ops :=
  (Stores.empty isDirected).simulates_iff (by simp [InterfaceGraph.NoNaN, InterfaceGraph.empty])
    hops

/-- A run with an insertion that misses a vertex, one that creates it, and a removal from the other
end of an undirected edge. -/
theorem simulates_insert_remove :
    Simulates (empty false) (InterfaceGraph.empty ℕ false)
      [.addVertex 1, .addEdge ⟨1, 2, some 7⟩, .addEdgeV2 ⟨1, 2, some 7⟩, .removeEdge ⟨2, 1⟩] :=
  (simulates_interface_iff false (by simp [Admissible])).mpr (by
    simp [InterfaceGraph.FreshInsertions, Along, InterfaceGraph.step, InterfaceGraph.Fresh,
      InterfaceGraph.addVertex, InterfaceGraph.addEdge, InterfaceGraph.empty,
      Finmap.notMem_empty])

/-- The second insertion of an edge returns true, where the interface documents false. -/
theorem not_simulates_insert_twice :
    ¬∀ (isDirected : Bool) (ops : List (Operation (Option ℕ))), (∀ op ∈ ops, Admissible op) →
      Simulates (empty isDirected) (InterfaceGraph.empty ℕ isDirected) ops := by
  intro hall
  have hsim := hall true [.addEdgeV2 ⟨1, 2, some 7⟩, .addEdgeV2 ⟨1, 2, some 8⟩]
    (by simp [Admissible])
  obtain ⟨-, b₁, g₁, s₁, -, hs₁, -, b₂, g₂, s₂, hg₂, hs₂, -⟩ := hsim
  have hsecond : b₂ = true := by
    have := congrArg (fun r => r.map Prod.fst) hg₂
    simpa [AdjacencyList.step, AdjacencyList.addEdgeV2, eq_comm] using this
  simp only [InterfaceGraph.step, Option.some.injEq] at hs₁ hs₂
  -- the edge is in the graph after the first call
  have hmem : (1, 2) ∈ s₁.edges ∧ s₁.isDirected = true := by
    rw [← show _ = s₁ from congrArg Prod.snd hs₁]
    simp [InterfaceGraph.addEdgeV2, InterfaceGraph.insertEdge, InterfaceGraph.addVertex,
      InterfaceGraph.empty, InterfaceGraph.key, edgeKey, Finmap.notMem_empty]
  have hfalse : (s₁.addEdgeV2 ⟨1, 2, some 8⟩).1 = false := by
    simp [InterfaceGraph.addEdgeV2, InterfaceGraph.insertEdge, InterfaceGraph.addVertex,
      InterfaceGraph.key, edgeKey, hmem]
  rw [hs₂, hsecond] at hfalse
  cases hfalse

end AdjacencyList

end GfeDriver
