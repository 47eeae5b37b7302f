import GfeDriver.Foundation.Schedule

/-!
# Snapshots of LLAMA

The nodes of a snapshot are the internal ids below `max_nodes`. Some of them are gaps, which do not
exist. An edge iterator enumerates the edges that leave or enter a node, each once and in a fixed
order, and remembers the node at the other end of the last one. The weight is a property of the
outgoing edges only, and `in_to_out` gives the outgoing edge of an incoming one.

## Main definitions

* `Snapshot`: the nodes with their names, and the edges
* `EdgeIterator`: the iterators over the edges of a node
* `translate`, `saveResults`: the lines of the result files
* `Snapshot.WellFormed`: the incoming edges are the outgoing ones, seen from their targets

## Main results

* `translate_eq`: what the parallel loop of `translate` computes
-/

namespace GfeDriver

namespace Llama

open Foundation

/-- A snapshot of `ll_mlcsr_ro_graph`: the edges of a node are pairs of an edge and the node at its
other end. -/
structure Snapshot where
  maxNodes : ℕ
  nodeExists : ℕ → Bool
  name : ℕ → ℕ
  outEdges : ℕ → List (ℕ × ℕ)
  inEdges : ℕ → List (ℕ × ℕ)
  inToOut : ℕ → ℕ

namespace Snapshot

/-- The nodes at the other ends of the outgoing edges. -/
def outNodes (g : Snapshot) (n : ℕ) : List ℕ := (g.outEdges n).map Prod.snd

/-- The nodes at the other ends of the incoming edges. -/
def inNodes (g : Snapshot) (n : ℕ) : List ℕ := (g.inEdges n).map Prod.snd

/-- The nodes that exist. -/
def Node (g : Snapshot) (v : ℕ) : Prop := v < g.maxNodes ∧ g.nodeExists v

/-- `out_degree`. -/
def outDegree (g : Snapshot) (n : ℕ) : ℕ := (g.outEdges n).length

/-- `in_degree`. -/
def inDegree (g : Snapshot) (n : ℕ) : ℕ := (g.inEdges n).length

/-- The neighbours of a node, along the edges in both directions. -/
def neighbours (g : Snapshot) (n : ℕ) : List ℕ := g.outNodes n ++ g.inNodes n

/-- The nodes that exist have distinct names. -/
def DistinctNames (g : Snapshot) : Prop :=
  ∀ u < g.maxNodes, ∀ v < g.maxNodes, g.nodeExists u → g.nodeExists v → g.name u = g.name v → u = v

/-- The ends of the edges are nodes, and **the incoming edges** are the outgoing ones, seen from
their targets. -/
structure WellFormed (g : Snapshot) : Prop where
  out_lt : ∀ u v e, (e, v) ∈ g.outEdges u → u < g.maxNodes ∧ v < g.maxNodes
  transposed : ∀ u v e, (e, v) ∈ g.outEdges u ↔ ∃ e', (e', u) ∈ g.inEdges v ∧ g.inToOut e' = e

/-- **A simple directed graph**, whose edges join nodes that exist. -/
structure SimpleDirected (g : Snapshot) : Prop where
  wellFormed : g.WellFormed
  out_nodup : ∀ v, (g.outNodes v).Nodup
  in_nodup : ∀ v, (g.inNodes v).Nodup
  loopless : ∀ v, v ∉ g.outNodes v
  exist : ∀ u, ∀ v ∈ g.outNodes u, g.nodeExists u ∧ g.nodeExists v

/-- **A simple undirected graph**: each edge is stored in one of its orientations. -/
structure SimpleUndirected (g : Snapshot) : Prop where
  wellFormed : g.WellFormed
  nodup : ∀ v, (g.neighbours v).Nodup
  loopless : ∀ v, v ∉ g.outNodes v
  exist : ∀ u, ∀ v ∈ g.outNodes u, g.nodeExists u ∧ g.nodeExists v

/-- An edge from `u` to `v`. -/
def Arc (g : Snapshot) (u v : ℕ) : Prop := v ∈ g.outNodes u

/-- An edge between `u` and `v`. -/
def Adj (g : Snapshot) (u v : ℕ) : Prop := v ∈ g.neighbours u

instance (g : Snapshot) : DecidableRel g.Arc := fun u v =>
  inferInstanceAs (Decidable (v ∈ g.outNodes u))

instance (g : Snapshot) : DecidableRel g.Adj := fun u v =>
  inferInstanceAs (Decidable (v ∈ g.neighbours u))

variable {g : Snapshot} {u v : ℕ}

theorem length_neighbours (g : Snapshot) (v : ℕ) :
    (g.neighbours v).length = g.inDegree v + g.outDegree v := by
  simp [neighbours, outNodes, inNodes, inDegree, outDegree, Nat.add_comm]

theorem mem_outNodes : v ∈ g.outNodes u ↔ ∃ e, (e, v) ∈ g.outEdges u := by
  simp [outNodes]

theorem mem_inNodes : u ∈ g.inNodes v ↔ ∃ e, (e, u) ∈ g.inEdges v := by
  simp [inNodes]

theorem WellFormed.lt_of_arc (hg : g.WellFormed) (h : g.Arc u v) :
    u < g.maxNodes ∧ v < g.maxNodes := by
  obtain ⟨e, he⟩ := mem_outNodes.mp h
  exact hg.out_lt u v e he

/-- The sources of the incoming edges. -/
theorem WellFormed.mem_inNodes_iff (hg : g.WellFormed) : u ∈ g.inNodes v ↔ g.Arc u v := by
  rw [Arc, mem_outNodes, mem_inNodes]
  constructor
  · rintro ⟨e', he'⟩
    exact ⟨g.inToOut e', (hg.transposed u v _).mpr ⟨e', he', rfl⟩⟩
  · rintro ⟨e, he⟩
    obtain ⟨e', he', -⟩ := (hg.transposed u v e).mp he
    exact ⟨e', he'⟩

/-- The neighbours are the ends of the edges in both directions. -/
theorem WellFormed.mem_neighbours (hg : g.WellFormed) :
    v ∈ g.neighbours u ↔ g.Arc u v ∨ g.Arc v u := by
  rw [neighbours, List.mem_append, hg.mem_inNodes_iff]
  rfl

theorem WellFormed.lt_of_mem_neighbours (hg : g.WellFormed) (hv : v ∈ g.neighbours u) :
    v < g.maxNodes := by
  rcases hg.mem_neighbours.mp hv with hv | hv
  · exact (hg.lt_of_arc hv).2
  · exact (hg.lt_of_arc hv).1

end Snapshot

/-! ## Iterators -/

/-- `ll_edge_iterator`: the node, the nodes at the other ends of the edges that are left, and the
one of the last edge. -/
structure EdgeIterator where
  node : Option ℕ
  left : List ℕ
  lastNode : Option ℕ
  deriving DecidableEq

namespace EdgeIterator

/-- `out_iter_begin`. -/
def outBegin (g : Snapshot) (n : ℕ) : EdgeIterator := ⟨some n, g.outNodes n, none⟩

/-- `in_iter_begin_fast`. -/
def inBegin (g : Snapshot) (n : ℕ) : EdgeIterator := ⟨some n, g.inNodes n, none⟩

/-- `out_iter_has_next` and `in_iter_has_next_fast`. -/
def hasNext (it : EdgeIterator) : Bool := !it.left.isEmpty

/-- `out_iter_next` and `in_iter_next_fast`: the node at the other end of the edge is in
`lastNode`. -/
def next (it : EdgeIterator) : EdgeIterator :=
  match it.left with
  | [] => it
  | v :: left => { it with left := left, lastNode := some v }

end EdgeIterator

/-! ## The result files -/

section Results

variable {T : Type}

/-- An iteration of the loop of `translate`. -/
def translateNode (g : Snapshot) (data : ℕ → T) (output : List (ℕ × T)) (v : ℕ) : List (ℕ × T) :=
  if g.nodeExists v then output.set v (g.name v, data v) else output

/-- `LLAMAClass::translate`: the elements of the vector are zero at first. -/
def translate [Zero T] (sched : Schedule ℕ) (g : Snapshot) (data : ℕ → T) : List (ℕ × T) :=
  (sched.order 0 (List.range g.maxNodes)).foldl (translateNode g data)
    (List.replicate g.maxNodes (0, 0))

/-- The score that `save_results` writes. -/
def savedScore [Zero T] [LT T] [DecidableLT T] (negativeScores : Bool) (max score : T) : T :=
  if !negativeScores ∧ score < 0 then max else score

/-- `LLAMAClass::save_results`: the lines of the file, where `max` is the greatest value of the
type. -/
def saveResults [Zero T] [LT T] [DecidableLT T] (negativeScores : Bool) (max : T)
    (result : List (ℕ × T)) : List (ℕ × T) :=
  result.map fun p => (p.1, savedScore negativeScores max p.2)

/-- The nodes that exist. -/
def Snapshot.existing (g : Snapshot) : List ℕ := (List.range g.maxNodes).filter g.nodeExists

/-- **The parallel loop** leaves the zeros in the gaps. -/
theorem translate_eq [Zero T] (sched : Schedule ℕ) (g : Snapshot) (data : ℕ → T) :
    translate sched g data =
      (List.range g.maxNodes).map fun v => if g.nodeExists v then (g.name v, data v) else (0, 0) :=
  sched.foldl_set_eq_map 0 g.maxNodes g.nodeExists (fun v => (g.name v, data v)) (0, 0)

end Results

/-- The edge from the node `0` to the node `1`. -/
def oneEdge : Snapshot where
  maxNodes := 2
  nodeExists := fun _ => true
  name := fun v => 10 * v + 10
  outEdges := fun u => if u = 0 then [(0, 1)] else []
  inEdges := fun v => if v = 1 then [(0, 0)] else []
  inToOut := id

theorem wellFormed_oneEdge : oneEdge.WellFormed where
  out_lt := by
    intro u v e he
    obtain ⟨rfl, he⟩ : u = 0 ∧ (e, v) ∈ [(0, 1)] := by simpa [oneEdge] using he
    obtain ⟨rfl, rfl⟩ := Prod.mk.inj (List.mem_singleton.mp he)
    decide
  transposed := by
    intro u v e
    simp only [oneEdge, id, exists_eq_right, List.mem_ite_nil_right, List.mem_singleton,
      Prod.mk.injEq]
    tauto

end Llama

end GfeDriver
