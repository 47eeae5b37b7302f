import GfeDriver.LiveGraph.Driver
import GfeDriver.Sortledton.UpdateEdge
import GfeDriver.Teseo.UpdateEdge

/-!
# Existence queries

The interface tells whether an edge exists by its weight: `has_edge` is true when `get_weight` does
not return a NaN. Each driver answers `get_weight` on paths of its own: LiveGraph and Sortledton
return a NaN when a vertex or the edge is missing, and Teseo returns the greatest double, so that it
reports every edge as existing.

A storage engine holds a graph: vertices, and the weights of ordered pairs of them. A double is
`none` for a NaN.

## Main definitions

* `StoredGraph W`: the graph that an engine holds
* `Driver W`, `Driver.Holds`: the drivers, and the graph in their engine
* `Driver.getWeight`, `Driver.hasEdge`: the queries
* `Driver.AnswersEdge`: the queries agree with the graph

## Main results

* `Driver.getWeight_eq`: what `get_weight` returns
* `answersEdge_iff`: the queries that agree with the graph
-/

namespace GfeDriver

/-- The graph in a storage engine. -/
structure StoredGraph (W : Type) where
  vertices : Finset ℕ
  weights : Finmap fun _ : ℕ × ℕ => W
  ends : ∀ s d, (s, d) ∈ weights → s ∈ vertices ∧ d ∈ vertices

/-- `SortledtonDriver::get_weight`. -/
def SortledtonDriver.getWeight {W : Type} (ds : Sortledton W) (source destination : ℕ) : Option W :=
  if !ds.hasVertex source || !ds.hasVertex destination then none
  else
    match ds.getWeight source destination with
    | some w => some w
    | none => none

/-- The drivers, each with the state of its engine. -/
inductive Driver (W : Type)
  | liveGraph (d : LiveGraph.LiveGraphDriver W)
  | sortledton (ds : Sortledton W)
  | teseo (ds : Teseo.Store W)

namespace Driver

variable {W : Type}

/-- `get_weight` of each driver. The greatest double is `max`. -/
def getWeight (max : W) : Driver W → ℕ → ℕ → Option W
  | liveGraph d, source, destination => d.getWeight source destination
  | sortledton ds, source, destination => SortledtonDriver.getWeight ds source destination
  | teseo ds, source, destination => some (Teseo.TeseoDriver.getWeight max ds source destination)

/-- `Interface::has_edge`, which all drivers inherit. -/
def hasEdge (max : W) (driver : Driver W) (source destination : ℕ) : Bool :=
  (driver.getWeight max source destination).isSome

/-- The engine holds the graph. LiveGraph has its vertices under the identifiers of the dictionary,
and its edges under the label `0`. -/
def Holds : Driver W → StoredGraph W → Prop
  | liveGraph d, g => d.dictionary.keys = g.vertices ∧
      ∀ s d' src dst, d.dictionary.lookup s = some src → d.dictionary.lookup d' = some dst →
        d.store.getEdge src 0 dst = g.weights.lookup (s, d')
  | sortledton ds, g => ds.vertices = g.vertices ∧ ds.edges = g.weights
  | teseo ds, g => ds.vertices = g.vertices ∧ ds.edges = g.weights

/-- The driver answers a missing edge with a NaN. -/
def AnswersNaN : Driver W → Prop
  | liveGraph _ => True
  | sortledton _ => True
  | teseo _ => False

/-- **The queries agree with the graph** on an edge: its weight is a NaN exactly when it is not
stored, and the stored one otherwise, and it exists exactly when it is stored. -/
structure AnswersEdge (max : W) (driver : Driver W) (g : StoredGraph W) (s d : ℕ) : Prop where
  missing : driver.getWeight max s d = none ↔ (s, d) ∉ g.weights
  weight : ∀ w, g.weights.lookup (s, d) = some w → driver.getWeight max s d = some w
  hasEdge : driver.hasEdge max s d ↔ (s, d) ∈ g.weights

variable {driver : Driver W} {g : StoredGraph W}

/-- A missing vertex has no edge. -/
theorem lookup_eq_none (g : StoredGraph W) {s d : ℕ} (h : s ∉ g.vertices ∨ d ∉ g.vertices) :
    g.weights.lookup (s, d) = none := by
  refine Finmap.lookup_eq_none.mpr fun hmem => ?_
  obtain ⟨hs, hd⟩ := g.ends s d hmem
  exact h.elim (· hs) (· hd)

/-- **What `get_weight` returns**: the stored weight, and for a missing edge a NaN, or the greatest
double in the driver of Teseo. -/
theorem getWeight_eq (max : W) (h : driver.Holds g) (s d : ℕ) :
    (driver.AnswersNaN ∧ driver.getWeight max s d = g.weights.lookup (s, d)) ∨
      (¬driver.AnswersNaN ∧
        driver.getWeight max s d = some ((g.weights.lookup (s, d)).getD max)) := by
  cases driver with
  | liveGraph l =>
    obtain ⟨hvertices, hedges⟩ := h
    refine Or.inl ⟨trivial, ?_⟩
    have hmem : ∀ v, l.dictionary.lookup v = none → v ∉ g.vertices := by
      intro v hv
      rw [← hvertices, Finmap.mem_keys]
      exact Finmap.lookup_eq_none.mp hv
    change l.getWeight s d = g.weights.lookup (s, d)
    unfold LiveGraph.LiveGraphDriver.getWeight
    cases hs : l.dictionary.lookup s with
    | none => exact (lookup_eq_none g (Or.inl (hmem s hs))).symm
    | some src =>
      cases hd : l.dictionary.lookup d with
      | none => exact (lookup_eq_none g (Or.inr (hmem d hd))).symm
      | some dst => exact hedges s d src dst hs hd
  | sortledton ds =>
    obtain ⟨hvertices, hedges⟩ := h
    refine Or.inl ⟨trivial, ?_⟩
    simp only [getWeight, SortledtonDriver.getWeight, Sortledton.hasVertex, Sortledton.getWeight,
      hvertices, hedges]
    by_cases hends : s ∈ g.vertices ∧ d ∈ g.vertices
    · cases hw : g.weights.lookup (s, d) <;> simp [hends]
    · rw [not_and_or] at hends
      rw [lookup_eq_none g hends]
      rcases hends with hs | hd
      · simp [hs]
      · simp [hd]
  | teseo ds =>
    obtain ⟨-, hedges⟩ := h
    refine Or.inr ⟨id, ?_⟩
    simp only [getWeight, Teseo.TeseoDriver.getWeight, Teseo.Store.getWeight, hedges]

/-- **Existence queries**: they agree with the graph on the edges that are stored, and on every
edge in the drivers that answer a missing one with a NaN. -/
theorem answersEdge_iff (max : W) (h : driver.Holds g) (s d : ℕ) :
    AnswersEdge max driver g s d ↔ driver.AnswersNaN ∨ (s, d) ∈ g.weights := by
  have hmem : ∀ w, g.weights.lookup (s, d) = some w → (s, d) ∈ g.weights :=
    fun w hw => Finmap.mem_iff.mpr ⟨w, hw⟩
  rcases getWeight_eq max h s d with ⟨hnan, heq⟩ | ⟨hnan, heq⟩
  · refine iff_of_true ⟨?_, fun w hw => heq.trans hw, ?_⟩ (Or.inl hnan)
    · rw [heq, Finmap.lookup_eq_none]
    · rw [hasEdge, heq, Finmap.lookup_isSome]
  · rw [or_iff_right hnan]
    constructor
    · exact fun hanswers => hanswers.hasEdge.mp (by rw [hasEdge, heq]; rfl)
    · intro hstored
      refine ⟨?_, fun w hw => by rw [heq, hw]; rfl, ?_⟩
      · rw [heq]
        exact iff_of_false nofun (not_not.mpr hstored)
      · rw [hasEdge, heq]
        exact iff_of_true rfl hstored

/-- The theorem at a graph with one edge in Sortledton, for the edge and for its reverse. -/
theorem answersEdge_sortledton :
    AnswersEdge 100 (.sortledton ⟨{1, 2}, Finmap.singleton (1, 2) 5⟩)
        ⟨{1, 2}, Finmap.singleton (1, 2) 5, by simp⟩ 1 2 ∧
      AnswersEdge 100 (.sortledton ⟨{1, 2}, Finmap.singleton (1, 2) 5⟩)
        ⟨{1, 2}, Finmap.singleton (1, 2) 5, by simp⟩ 2 1 := by
  have hholds : (Driver.sortledton ⟨{1, 2}, Finmap.singleton (1, 2) 5⟩ : Driver ℕ).Holds
      ⟨{1, 2}, Finmap.singleton (1, 2) 5, by simp⟩ := ⟨rfl, rfl⟩
  exact ⟨(answersEdge_iff 100 hholds 1 2).mpr (Or.inl trivial),
    (answersEdge_iff 100 hholds 2 1).mpr (Or.inl trivial)⟩

/-- The driver of Teseo reports an edge between the vertices of a graph without edges. -/
theorem not_answersEdge_teseo :
    ¬∀ (driver : Driver ℕ) (g : StoredGraph ℕ), driver.Holds g →
      ∀ s d, AnswersEdge 100 driver g s d := by
  intro hall
  have hanswers := hall (.teseo ⟨{1, 2}, ∅⟩) ⟨{1, 2}, ∅, by simp [Finmap.notMem_empty]⟩
    ⟨rfl, rfl⟩ 1 2
  exact Finmap.notMem_empty (hanswers.hasEdge.mp rfl)

end Driver

end GfeDriver
