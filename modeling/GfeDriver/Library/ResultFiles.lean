import GfeDriver.Llama.Snapshot
import GfeDriver.Stinger.ShortestPaths

/-!
# The vertices in the result files

A result file should have one line for each vertex. LLAMA and Stinger size the list of the lines by
a bound on their internal ids. LLAMA's bound is the number of nodes, and the gaps are skipped by the
loop that fills the list, but not by the one that writes it. Stinger's bound is the last vertex with
an edge, so that the vertices without edges behind it have no line, and no element in the array of
the costs when the search starts from one of them.

## Main definitions

* `Llama.ListsNodes`: one line for each node of a snapshot
* `Stinger.maxActiveVertex`: the last vertex with an edge
* `Stinger.toExternalIds`, `Stinger.save`: the lines of `compute_shortest_paths`
* `Stinger.ListsVertices`: one line for each registered vertex, with its distance

## Main results

* `Llama.listsNodes_iff`: the snapshots without gaps
* `Stinger.listsVertices_iff`: the graphs whose last vertex has an edge
* `resultFiles_iff`: both
-/

namespace GfeDriver

open Foundation

/-! ## LLAMA -/

namespace Llama

variable {T : Type} [Zero T] [LT T] [DecidableLT T]

/-- **One line for each node** that exists, with its name and its score, and no other line. -/
def ListsNodes (sched : Schedule ℕ) (negativeScores : Bool) (max : T) (g : Snapshot)
    (data : ℕ → T) : Prop :=
  (saveResults negativeScores max (translate sched g data)).Perm
    (g.existing.map fun v => (g.name v, savedScore negativeScores max (data v)))

/-- **A gap has a line** of its own, so that the lines are right when there are no gaps. -/
theorem listsNodes_iff (sched : Schedule ℕ) (negativeScores : Bool) (max : T) (g : Snapshot)
    (data : ℕ → T) :
    ListsNodes sched negativeScores max g data ↔ ∀ v < g.maxNodes, g.nodeExists v := by
  rw [ListsNodes, translate_eq, saveResults, List.map_map]
  constructor
  · intro hperm v hv
    have hlen := hperm.length_eq
    rw [List.length_map, List.length_map, Snapshot.existing] at hlen
    exact (List.length_filter_eq_length_iff.mp hlen.symm) v (List.mem_range.mpr hv)
  · intro hall
    have hexisting : g.existing = List.range g.maxNodes :=
      List.filter_eq_self.mpr fun v hv => hall v (List.mem_range.mp hv)
    rw [hexisting]
    refine List.Perm.of_eq (List.map_congr_left fun v hv => ?_)
    rw [Function.comp_apply, if_pos (hall v (List.mem_range.mp hv))]

end Llama

/-! ## Stinger -/

namespace Stinger

namespace Graph

variable (g : Graph)

/-- A vertex with an edge. -/
def Active (v : ℕ) : Prop := g.outEdges v ≠ [] ∨ ∃ u < g.nv, v ∈ (g.outEdges u).map Prod.fst

instance (v : ℕ) : Decidable (g.Active v) := inferInstanceAs (Decidable (_ ∨ _))

/-- `stinger_max_active_vertex`: the last vertex with an edge, `0` if there is none. -/
def maxActiveVertex : ℕ := ((Finset.range g.nv).filter g.Active).sup id

/-- `get_internal_id`, which does not find the names of vertices that are not registered. -/
def getInternalId (vertexId : ℕ) : Option ℕ := (List.range g.nv).find? fun v => g.name v = vertexId

/-- The vertex is not marked for deletion, and its mapping is found. -/
def mapped (v : ℕ) : Bool := g.vtype v = 0 && v < g.nv

/-- `Stinger::to_external_ids`: the elements of the vector are zero at first. -/
def toExternalIds (sched : Schedule ℕ) (internalIds : List (WithTop ℚ≥0)) :
    List (ℕ × WithTop ℚ≥0) :=
  (sched.order 0 (List.range internalIds.length)).foldl
    (fun externalIds v =>
      if g.mapped v then externalIds.set v (g.name v, internalIds.getD v ⊤) else externalIds)
    (List.replicate internalIds.length (0, 0))

end Graph

/-- What a line has behind the vertex. -/
inductive Field
  | number (cost : ℚ≥0)
  | text (label : String)
  deriving DecidableEq

/-- The field of a cost: the infinite one has a label. -/
def field (weighted : Bool) : WithTop ℚ≥0 → Field
  | ⊤ => .text (if weighted then "infinity" else "18446744073709551615")
  | (cost : ℚ≥0) => .number cost

/-- `save`: the lines of the file. -/
def save (weighted : Bool) (result : List (ℕ × WithTop ℚ≥0)) : List (ℕ × Field) :=
  result.map fun p => (p.1, field weighted p.2)

namespace Graph

variable (g : Graph)

/-- The line of a vertex: its name and its distance from the source. -/
def IsLine (weighted : Bool) (source v : ℕ) (line : ℕ × Field) : Prop :=
  line.1 = g.name v ∧
    ∃ d, IsMinWeight (g.Counted (!weighted)) source v d ∧ line.2 = field weighted d

/-- **One line for each registered vertex**, and no other line: every run of
`compute_shortest_paths` ends without an access outside of `cost_so_far`. -/
def ListsVertices (weighted : Bool) (vertexId : ℕ) : Prop :=
  ∃ source, g.getInternalId vertexId = some source ∧ ∀ sched : Schedule ℕ,
    EndsIn (Step g (-1) (!weighted))
      (fun c => ∃ costSoFar lines, c = .returned costSoFar ∧
        (save weighted (g.toExternalIds sched costSoFar)).Perm lines ∧
        List.Forall₂ (g.IsLine weighted source) (List.range g.nv) lines)
      (start (g.maxActiveVertex + 1) source)

variable {g} {v source : ℕ} {weighted : Bool}

theorem getInternalId_name (hv : v < g.nv) : g.getInternalId (g.name v) = some v := by
  cases hfind : g.getInternalId (g.name v) with
  | none =>
    rw [getInternalId, List.find?_eq_none] at hfind
    exact absurd (decide_eq_true rfl) (hfind v (List.mem_range.mpr hv))
  | some u =>
    rw [getInternalId] at hfind
    have hname : g.name u = g.name v := by simpa using List.find?_some hfind
    have hu : u < g.nv := List.mem_range.mp (List.mem_of_find?_eq_some hfind)
    rw [g.name_inj u hu v hv hname]

/-- The ends of the edges are active. -/
theorem le_maxActiveVertex {u : ℕ} {e : ℕ × ℚ≥0} (h : e ∈ g.outEdges u) :
    e.1 ≤ g.maxActiveVertex := by
  obtain ⟨hu, he⟩ := g.ends u e h
  have hactive : g.Active e.1 := Or.inr ⟨u, hu, List.mem_map_of_mem h⟩
  exact Finset.le_sup (f := id) (Finset.mem_filter.mpr ⟨Finset.mem_range.mpr he, hactive⟩)

theorem toExternalIds_eq (sched : Schedule ℕ) (internalIds : List (WithTop ℚ≥0)) :
    g.toExternalIds sched internalIds = (List.range internalIds.length).map fun v =>
      if g.mapped v then (g.name v, internalIds.getD v ⊤) else (0, 0) :=
  sched.foldl_set_eq_map 0 _ g.mapped (fun v => (g.name v, internalIds.getD v ⊤)) (0, 0)

/-- The search from a source that has an element in the array. -/
theorem endsIn_aStar (weighted : Bool) (hsource : source < g.maxActiveVertex + 1) :
    EndsIn (Step g (-1) (!weighted)) (fun c => ∃ costSoFar, c = .returned costSoFar ∧
      costSoFar.length = g.maxActiveVertex + 1 ∧
      ∀ v, IsMinWeight (g.Counted (!weighted)) source v (costSoFar.getD v ⊤))
      (start (g.maxActiveVertex + 1) source) :=
  aStar_isMinWeight hsource fun _ _ he => Nat.lt_succ_of_le (le_maxActiveVertex he)

/-- The lines when the array has an element for each registered vertex. -/
theorem forall₂_isLine (sched : Schedule ℕ) {costSoFar : List (WithTop ℚ≥0)}
    (hlen : costSoFar.length = g.nv)
    (hmin : ∀ v, IsMinWeight (g.Counted (!weighted)) source v (costSoFar.getD v ⊤)) :
    List.Forall₂ (g.IsLine weighted source) (List.range g.nv)
      (save weighted (g.toExternalIds sched costSoFar)) := by
  rw [toExternalIds_eq, hlen, save, List.map_map, List.forall₂_map_right_iff, List.forall₂_same]
  intro v hv
  have hv := List.mem_range.mp hv
  have hmapped : g.mapped v = true := by simp [mapped, hv, g.active v hv]
  rw [Function.comp_apply, if_pos hmapped]
  exact ⟨rfl, _, hmin v, rfl⟩

/-- A search from a source without an element. -/
theorem not_endsIn_outOfBounds {P : Config → Prop} (hP : ¬P .outOfBounds) {NV : ℕ}
    (hsource : NV ≤ source) (weighted : Bool) :
    ¬EndsIn (Step g (-1) (!weighted)) P (start NV source) := by
  rw [start, if_neg (Nat.not_lt.mpr hsource)]
  rintro ⟨final, -⟩
  refine hP (final fun c hstep => ?_)
  cases hstep

/-- **The array has an element for each vertex** when the last registered vertex has an edge, or is
the only one. -/
theorem listsVertices_iff (weighted : Bool) (hv : v < g.nv) :
    g.ListsVertices weighted (g.name v) ↔ g.maxActiveVertex + 1 = g.nv := by
  constructor
  · rintro ⟨source, -, hends⟩
    have hends := hends Schedule.sequential
    by_cases hsource : source < g.maxActiveVertex + 1
    · obtain ⟨c, ⟨costSoFar, lines, rfl, hperm, hlines⟩, costSoFar', heq, hlen, -⟩ :=
        hends.exists_and (endsIn_aStar weighted hsource)
      obtain rfl := Config.returned.inj heq
      have hlines := hlines.length_eq
      rw [List.length_range, ← hperm.length_eq, save, List.length_map, toExternalIds_eq,
        List.length_map, List.length_range, hlen] at hlines
      exact hlines.symm
    · refine absurd hends (not_endsIn_outOfBounds ?_ (Nat.not_lt.mp hsource) weighted)
      rintro ⟨costSoFar, lines, hc, -⟩
      cases hc
  · intro hlast
    refine ⟨v, getInternalId_name hv, fun sched => ?_⟩
    refine (endsIn_aStar weighted (hlast.symm ▸ hv)).imp ?_
    rintro c ⟨costSoFar, rfl, hlen, hmin⟩
    exact ⟨costSoFar, _, rfl, List.Perm.refl _, forall₂_isLine sched (hlen.trans hlast) hmin⟩

end Graph

end Stinger

/-! ## Both libraries -/

/-- **The result files list exactly the vertices** when no node of the snapshot is a gap, and when
the last registered vertex of Stinger has an edge or is the only one. -/
theorem resultFiles_iff {T : Type} [Zero T] [LT T] [DecidableLT T] :
    (∀ (g : Llama.Snapshot) (sched : Schedule ℕ) (negativeScores : Bool) (max : T) (data : ℕ → T),
      Llama.ListsNodes sched negativeScores max g data ↔ ∀ v < g.maxNodes, g.nodeExists v) ∧
    ∀ (g : Stinger.Graph) (weighted : Bool), ∀ v < g.nv,
      g.ListsVertices weighted (g.name v) ↔ g.maxActiveVertex + 1 = g.nv :=
  ⟨fun g sched negativeScores max data => Llama.listsNodes_iff sched negativeScores max g data,
    fun _ weighted _ hv => Stinger.Graph.listsVertices_iff weighted hv⟩

/-- Two vertices with an edge: both have a line. -/
theorem resultFiles_oneEdge :
    (Stinger.oneEdge 2 (by decide)).ListsVertices true 10 :=
  ((resultFiles_iff (T := ℤ)).2 (Stinger.oneEdge 2 (by decide)) true 0 (by decide)).mpr (by decide)

/-- The node `0` is a gap, and the node `1` exists. -/
def Llama.gap : Llama.Snapshot where
  maxNodes := 2
  nodeExists := fun v => v = 1
  name := fun v => 10 * v + 10
  outEdges := fun _ => []
  inEdges := fun _ => []
  inToOut := id

/-- A gap before a node, and a vertex without edges behind those with edges. -/
theorem not_resultFiles :
    (¬∀ (g : Llama.Snapshot) (sched : Schedule ℕ) (data : ℕ → ℤ), g.DistinctNames →
      Llama.ListsNodes sched true 0 g data) ∧
    ¬∀ (g : Stinger.Graph) (weighted : Bool), ∀ v < g.nv, g.ListsVertices weighted (g.name v) := by
  constructor
  · intro hall
    have hgap := hall Llama.gap Schedule.sequential (fun _ => 5) (by
      intro u _ v _ hu hv _
      exact (of_decide_eq_true hu).trans (of_decide_eq_true hv).symm)
    exact absurd ((Llama.listsNodes_iff ..).mp hgap 0 (by decide)) (by decide)
  · intro hall
    have hlast := hall (Stinger.oneEdge 3 (by decide)) true 0 (by decide)
    exact absurd ((Stinger.Graph.listsVertices_iff true (by decide)).mp hlast) (by decide)

end GfeDriver
