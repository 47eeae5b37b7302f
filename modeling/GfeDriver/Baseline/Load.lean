import GfeDriver.Baseline.CsrLoad
import GfeDriver.Baseline.CsrLcc
import GfeDriver.Baseline.Represents

/-!
# Loading one stream into the two libraries

Both libraries load the edges that a reader yields: the compressed sparse rows through a
`WeightedEdgeStream`, its list of vertices and its two sorts, and the adjacency list by one
`add_edge_v2` for each edge. For a simple stream whose identifiers the packed arrays hold, and in
which neither the first source nor the first destination is the vertex `2^64 - 1`, the two libraries
then hold the same graph, so the comparison of their kernels under `Represents` applies.

## Main definitions

* `WeightedEdgeStream.view`, `CSR.load`: the load of the compressed sparse rows
* `AdjacencyList.load`: the load of the adjacency list
* `Loadable`: the streams that the compressed sparse rows hold

## Main results

* `view_faithful`: the calls of a load return what they promise
* `AdjacencyList.load_spec`: the lists of a loaded adjacency list
* `load_represents`: the two libraries hold the same graph
* `simpleUndirected_loadUndirected`: a loaded undirected graph is simple
-/

namespace GfeDriver

open Foundation

/-! ## The compressed sparse rows -/

namespace WeightedEdgeStream

variable {W : Type} [Zero W]

/-- The calls that a load makes on its stream. -/
def view (lib : Common) (machine : Machine) (t : ℕ) (s : WeightedEdgeStream W) :
    Except Failure (StreamView W) := do
  let vertices ← s.vertexList machine t
  let bySrcDst ← s.step lib machine t .sortBySrcDst
  let byDstSrc ← bySrcDst.step lib machine (t + 1) .sortByDstSrc
  return ⟨s.numEdges, vertices.toList, bySrcDst.edges, byDstSrc.edges⟩

/-- **The calls of a load** return what they promise when the packed arrays hold the identifiers. -/
theorem view_faithful (lib : Common) (machine : Machine) (t : ℕ) {s : WeightedEdgeStream W}
    (hs : s.Valid) (hwidth : CByteArray.Suffices s.maxVertexId) :
    ∃ v, s.view lib machine t = .ok v ∧ v.Faithful s.edges := by
  obtain ⟨l, hl, hnodup, hmem⟩ := vertexList_spec machine t hs hwidth
  obtain ⟨s₁, heq₁, hs₁, -, hmax₁, hperm₁, hsorted₁⟩ :=
    step_spec lib machine t hs hwidth .sortBySrcDst
  obtain ⟨s₂, heq₂, -, -, -, hperm₂, hsorted₂⟩ :=
    step_spec lib machine (t + 1) hs₁ (hmax₁ ▸ hwidth) .sortByDstSrc
  refine ⟨⟨s.numEdges, l.toList, s₁.edges, s₂.edges⟩, ?_, ⟨?_, hnodup, hmem, hperm₁, hsorted₁,
    hperm₂.trans hperm₁, hsorted₂⟩⟩
  · simp only [view, hl, heq₁, heq₂, bind, Except.bind, pure, Except.pure]
  · simp [edges]

end WeightedEdgeStream

namespace CSR

variable {W : Type} [Zero W]

/-- `CSR::load`, for the edges that the reader yields. -/
def load (lib : Common) (machine : Machine) (isDirected : Bool) (edges : List (WeightedEdge W)) :
    Except Failure (CSR W) := do
  let view ← (WeightedEdgeStream.ofReader machine.memory edges).view lib machine 0
  return loadView isDirected view

end CSR

/-- **The streams that the compressed sparse rows hold**: the largest identifier is neither zero nor
a power of `256`, and not all the sources, nor all the destinations, are `2^64 - 1`. -/
structure Loadable {W : Type} (edges : List (WeightedEdge W)) : Prop where
  max_ne_zero : WeightedEdgeStream.maxId edges ≠ 0
  max_ne_pow : ∀ k, WeightedEdgeStream.maxId edges ≠ 256 ^ k
  source : ∃ e ∈ edges, e.source ≠ CSR.noVertex
  destination : ∃ e ∈ edges, e.destination ≠ CSR.noVertex

/-- The identifiers are 64-bit integers. -/
def Ids64 {W : Type} (edges : List (WeightedEdge W)) : Prop :=
  ∀ e ∈ edges, e.source < 2 ^ 64 ∧ e.destination < 2 ^ 64

namespace CSR

variable {W : Type} {edges : List (WeightedEdge W)}

/-- The first edge of a sorted stream has the least key. -/
theorem head_key_ne {key : WeightedEdge W → ℕ} {l : List (WeightedEdge W)} (hperm : l.Perm edges)
    (hsorted : l.Pairwise fun e e' => key e ≤ key e') (hbound : ∀ e ∈ edges, key e < 2 ^ 64)
    (hne : ∃ e ∈ edges, key e ≠ noVertex) (e : WeightedEdge W) (he : l.head? = some e) :
    key e ≠ noVertex := by
  obtain ⟨x, hx, hxne⟩ := hne
  have hxl := hperm.mem_iff.mpr hx
  have hxlt := hbound x hx
  cases l with
  | nil => simp at he
  | cons y l =>
    obtain rfl : y = e := by simpa using he
    -- the first key is the least
    have hle : key y ≤ key x := by
      rcases List.mem_cons.mp hxl with rfl | hxl
      · exact le_refl _
      · exact (List.pairwise_cons.mp hsorted).1 x hxl
    unfold noVertex at hxne ⊢
    omega

/-- The passes of a load over a loadable stream start well. -/
theorem started_of_loadable {view : StreamView W} (h : view.Faithful edges) (hids : Ids64 edges)
    (hload : Loadable edges) : Started view where
  source := head_key_ne h.perm_src (h.sorted_src.imp fun hle => le_of_toLex_le hle)
    (fun e he => (hids e he).1) hload.source
  destination := head_key_ne h.perm_dst (h.sorted_dst.imp fun hle => le_of_toLex_le hle)
    (fun e he => (hids e he).2) hload.destination

/-- A stream whose identifiers the packed arrays hold is loaded from a faithful view. -/
theorem exists_faithful_load [Zero W] (lib : Common) (machine : Machine) (isDirected : Bool)
    (hids : Ids64 edges)
    (hwidth : WeightedEdgeStream.maxId edges ≠ 0 ∧ ∀ k, WeightedEdgeStream.maxId edges ≠ 256 ^ k) :
    ∃ view : StreamView W, load lib machine isDirected edges = .ok (loadView isDirected view) ∧
      view.Faithful edges := by
  obtain ⟨hvalid, hedges, hmax⟩ :=
    WeightedEdgeStream.valid_ofReader machine.memory edges hids
  -- the width is computed from the largest identifier of the stream
  have hsuffices : CByteArray.Suffices
      (WeightedEdgeStream.ofReader machine.memory edges).maxVertexId := by
    rw [CByteArray.suffices_iff hvalid.max_lt, hmax]
    exact hwidth
  obtain ⟨view, hview, hfaithful⟩ := WeightedEdgeStream.view_faithful lib machine 0 hvalid hsuffices
  rw [hedges] at hfaithful
  refine ⟨view, ?_, hfaithful⟩
  simp only [load, hview, bind, Except.bind, pure, Except.pure]

/-- **A loadable stream** is loaded from a faithful view, and its passes start well. -/
theorem exists_load [Zero W] (lib : Common) (machine : Machine) (isDirected : Bool)
    (hids : Ids64 edges) (hload : Loadable edges) :
    ∃ view : StreamView W, load lib machine isDirected edges = .ok (loadView isDirected view) ∧
      view.Faithful edges ∧ Started view := by
  obtain ⟨view, hview, hfaithful⟩ := exists_faithful_load lib machine isDirected hids
    ⟨hload.max_ne_zero, hload.max_ne_pow⟩
  exact ⟨view, hview, hfaithful, started_of_loadable hfaithful hids hload⟩

end CSR

/-! ## The adjacency list -/

namespace AdjacencyList

variable {W : Type}

/-- An iteration of the loop of `load`: the exception of a loop edge ends it. -/
def loadEdge (g : AdjacencyList W) (e : WeightedEdge W) : Option (AdjacencyList W) :=
  match g.addEdgeV2 e with
  | (.returned _, g') => some g'
  | (.invalidArgument _, _) => none

/-- `AdjacencyList::load`, for the edges that the reader yields, in a list that does not take the
latch again for each edge. -/
def load (isDirected : Bool) (edges : List (WeightedEdge W)) : Option (AdjacencyList W) :=
  edges.foldlM loadEdge (empty isDirected)

/-- The lists after the edges `done`. -/
structure Loaded (d : Bool) (done : List (WeightedEdge W)) (g : AdjacencyList W) : Prop where
  invariant : g.Invariant
  mode : g.isDirected = d
  mem_nodes : ∀ x, x ∈ g.nodes ↔ WeightedEdgeStream.IsEndpoint done x
  outgoing : ∀ u v w, (v, w) ∈ g.outgoing u ↔
    ⟨u, v, w⟩ ∈ done ∨ d = false ∧ ⟨v, u, w⟩ ∈ done

/-- **One edge** that is not there yet, in either orientation for an undirected graph. -/
theorem Loaded.loadEdge {d : Bool} {done : List (WeightedEdge W)} {g : AdjacencyList W}
    (h : Loaded d done g) {e : WeightedEdge W} (hne : e.source ≠ e.destination)
    (hnew : ∀ x ∈ done, edgeKey d x.source x.destination ≠ edgeKey d e.source e.destination) :
    ∃ g', g.loadEdge e = some g' ∧ Loaded d (done ++ [e]) g' := by
  -- the two ends are inserted first
  set g₁ := (g.emplace e.source).emplace e.destination with hg₁
  have hinv₁ : g₁.Invariant := (h.invariant.emplace e.source).emplace e.destination
  have hmode₁ : g₁.isDirected = d := by
    have hemplace : ∀ (g : AdjacencyList W) x, (g.emplace x).isDirected = g.isDirected := by
      intro g x
      unfold emplace
      split_ifs <;> rfl
    rw [hg₁, hemplace, hemplace, h.mode]
  have hout₁ : ∀ u, g₁.outgoing u = g.outgoing u := by
    intro u
    rw [hg₁, (outgoing_emplace _ _ u).1, (outgoing_emplace _ _ u).1]
  have hnodes₁ : ∀ x, x ∈ g₁.nodes ↔ x = e.destination ∨ x = e.source ∨ x ∈ g.nodes := by
    intro x
    rw [hg₁, mem_nodes_emplace, mem_nodes_emplace]
  refine ⟨g₁.addEdge0 e, ?_, ⟨?_, ?_, fun x => ?_, fun u v w => ?_⟩⟩
  · simp only [AdjacencyList.loadEdge, addEdgeV2, if_neg hne, ← hg₁]
  · exact hinv₁.addEdge0 hne ((hnodes₁ _).mpr (Or.inr (Or.inl rfl))) ((hnodes₁ _).mpr (Or.inl rfl))
  · rw [isDirected_addEdge0, hmode₁]
  · have hnodes : x ∈ (g₁.addEdge0 e).nodes ↔ x ∈ g.nodes ∨ x = e.source ∨ x = e.destination := by
      rw [mem_nodes_addEdge0, hnodes₁]
      tauto
    rw [hnodes, h.mem_nodes]
    simp only [WeightedEdgeStream.IsEndpoint, List.mem_append, List.mem_singleton]
    constructor
    · rintro (⟨y, hy, hx⟩ | hx)
      · exact ⟨y, Or.inl hy, hx⟩
      · exact ⟨e, Or.inr rfl, hx⟩
    · rintro ⟨y, hy | rfl, hx⟩
      · exact Or.inl ⟨y, hy, hx⟩
      · exact Or.inr hx
  · rw [mem_outgoing_addEdge0 hinv₁.toConsistent hne, hmode₁, hout₁, h.outgoing]
    simp only [List.mem_append, List.mem_singleton]
    constructor
    · rintro (⟨hkey, rfl⟩ | ⟨-, hold | ⟨hd, hold⟩⟩)
      · rcases edgeKey_eq_iff.mp hkey with ⟨rfl, rfl⟩ | ⟨hd, rfl, rfl⟩
        · exact Or.inl (Or.inr rfl)
        · exact Or.inr ⟨hd, Or.inr rfl⟩
      · exact Or.inl (Or.inl hold)
      · exact Or.inr ⟨hd, Or.inl hold⟩
    -- no edge of the stream has the same ends, so that none is overwritten
    · have hcomm : d = false → edgeKey d u v = edgeKey d v u := fun hd =>
        edgeKey_eq_iff.mpr (Or.inr ⟨hd, rfl, rfl⟩)
      rintro ((hold | rfl) | ⟨hd, hold | rfl⟩)
      · exact Or.inr ⟨hnew _ hold, Or.inl hold⟩
      · exact Or.inl ⟨rfl, rfl⟩
      · refine Or.inr ⟨?_, Or.inr ⟨hd, hold⟩⟩
        rw [hcomm hd]
        exact hnew _ hold
      · exact Or.inl ⟨hcomm hd, rfl⟩

/-- **The loaded adjacency list** holds the edges of a simple stream. -/
theorem load_spec {d : Bool} {edges : List (WeightedEdge W)} (hsimple : CSR.Simple edges)
    (horiented : d = false → CSR.Oriented edges) :
    ∃ a, load d edges = some a ∧ Loaded d edges a := by
  apply foldlM_prefix (Loaded d)
  · refine ⟨Invariant.empty d, rfl, fun x => ?_, fun u v w => ?_⟩
    · simp [empty, WeightedEdgeStream.IsEndpoint]
    · simp [empty, AdjacencyList.outgoing, node]
  · intro done e rest g heq hg
    have hmem : e ∈ edges := by simp [heq]
    -- an edge with the same key would be repeated, or there in the other direction
    refine hg.loadEdge (hsimple.loopless e hmem) fun x hx hkey => ?_
    have hxmem : x ∈ edges := by simp [heq, hx]
    rcases edgeKey_eq_iff.mp hkey with heq' | ⟨hd, heq'⟩
    · have hdistinct := hsimple.distinct
      rw [heq] at hdistinct
      exact (List.pairwise_append.mp hdistinct).2.2 x hx e List.mem_cons_self heq'
    · exact horiented hd x hxmem e hmem ⟨heq'.1, heq'.2⟩

end AdjacencyList

/-! ## The same graph -/

section Same

variable {W : Type} [Zero W] {edges : List (WeightedEdge W)} {view : StreamView W}

/-- **The two libraries hold the same graph** when they load the same edges. -/
theorem represents_loadView {d : Bool} (h : view.Faithful edges) (hstart : CSR.Started view)
    {a : AdjacencyList W} (ha : a.Loaded d edges) : Represents (CSR.loadView d view) a := by
  obtain ⟨hnum, hlen, hmem⟩ := CSR.numbering_loadDirected h d
  have hnodup : (CSR.loadDirected d view).log2ext.Nodup := hnum.sorted.imp fun hlt => hlt.ne
  have hnodes : ∀ x, x ∈ a.nodes ↔ x ∈ (CSR.loadDirected d view).log2ext := fun x =>
    (ha.mem_nodes x).trans (hmem x).symm
  cases d with
  | true =>
    refine ⟨CSR.wellFormed_loadDirected h hstart, ha.invariant, ha.mode, hlen, hnodup, hnodes,
      fun u hu v hv w => ?_, fun u hu v hv w => ?_⟩
    · refine (CSR.mem_outEdges_loadDirected h hstart hu hv).trans ?_
      rw [ha.outgoing]
      simp only [Bool.true_eq_false, false_and, or_false]
      rfl
    · refine (CSR.mem_inEdges_loadDirected h hstart hv hu).trans ?_
      rw [← ha.invariant.mirror, ha.outgoing]
      simp only [Bool.true_eq_false, false_and, or_false]
      rfl
  | false =>
    have hout : ∀ u < (CSR.loadUndirected view).numVertices,
        ∀ v < (CSR.loadUndirected view).numVertices, ∀ w,
        (v, w) ∈ (CSR.loadUndirected view).outEdges u ↔
          ((CSR.loadUndirected view).ext v, w) ∈ a.outgoing ((CSR.loadUndirected view).ext u) := by
      intro u hu v hv w
      rw [CSR.mem_outEdges_loadUndirected h hstart hu hv, ha.outgoing]
      simp
    refine ⟨CSR.wellFormed_loadUndirected h hstart, ha.invariant, ha.mode, hlen, hnodup, hnodes,
      hout, fun u hu v hv w => ?_⟩
    -- an undirected list is its own mirror
    have hback : a.back ((CSR.loadView false view).ext u) =
        a.outgoing ((CSR.loadView false view).ext u) := by
      simp [AdjacencyList.back, ha.mode]
    rw [hback]
    exact hout u hu v hv w

/-- **Loading one stream** into the two libraries. -/
theorem load_represents (lib : Common) (machine : Machine) (d : Bool) (hids : Ids64 edges)
    (hload : Loadable edges) (hsimple : CSR.Simple edges)
    (horiented : d = false → CSR.Oriented edges) :
    ∃ g a, CSR.load lib machine d edges = .ok g ∧ AdjacencyList.load d edges = some a ∧
      Represents g a := by
  obtain ⟨view, hview, hfaithful, hstart⟩ := CSR.exists_load lib machine d hids hload
  obtain ⟨a, ha, hloaded⟩ := AdjacencyList.load_spec hsimple horiented
  exact ⟨_, a, hview, ha, represents_loadView hfaithful hstart hloaded⟩

/-- **A loaded undirected graph is simple**, as the merge of `CSR_LCC` needs it. -/
theorem simpleUndirected_loadUndirected (h : view.Faithful edges) (hstart : CSR.Started view)
    (hsimple : CSR.Simple edges) (horiented : CSR.Oriented edges) :
    (CSR.loadUndirected view).SimpleUndirected := by
  have hwf := CSR.wellFormed_loadUndirected h hstart
  have hmem := fun {u v : ℕ} => CSR.mem_outEdges_loadUndirected (u := u) (v := v) h hstart
  refine ⟨hwf, rfl, fun v hv => ?_, fun u v harc => ?_, fun v harc => ?_⟩
  · rw [← CSR.map_fst_outEdges, List.pairwise_map]
    exact CSR.sorted_loadUndirected h hstart hsimple horiented hv
  · have hv := hwf.arc_lt harc
    obtain ⟨w, hw⟩ := CSR.mem_outNeighbours_iff.mp harc.2
    refine ⟨hv, CSR.mem_outNeighbours_iff.mpr ⟨w, ?_⟩⟩
    rw [hmem hv harc.1, or_comm]
    exact (hmem harc.1 hv).mp hw
  · obtain ⟨w, hw⟩ := CSR.mem_outNeighbours_iff.mp harc.2
    rcases (hmem harc.1 harc.1).mp hw with he | he
    · exact hsimple.loopless _ he rfl
    · exact hsimple.loopless _ he rfl

end Same

end GfeDriver
