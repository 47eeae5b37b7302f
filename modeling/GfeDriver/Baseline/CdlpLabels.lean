import GfeDriver.Baseline.AdjacencyListWcc
import GfeDriver.Baseline.Cdlp

/-!
# The labels of the adjacency list's communities

Every label that `cdlp` takes from a histogram is the label of a neighbour, so that by induction
over the iterations it is a vertex of the same weakly connected component. A vertex without an edge
has an empty histogram, and gets the label `0` that the scan starts from. From the first iteration
on this is its label, whether or not there is a vertex `0`.

## Main definitions

* `Operation.Adds`: a call that adds a vertex or an edge
* `Isolated a v`: a vertex without an edge
* `FromGraph a labels`: the label of a vertex is a vertex of its component

## Main results

* `FromGraph.pass`: one iteration
* `cdlp_returns`: termination
* `cdlp_fromGraph_iff`: when the labels come from the graph
-/

namespace GfeDriver

open Foundation

namespace AdjacencyList

variable {W : Type}

/-- A call that adds a vertex or an edge. -/
def Operation.Adds : Operation W → Prop
  | .addVertex _ => True
  | .removeVertex _ => False
  | .addEdge _ => True
  | .addEdgeV2 _ => True
  | .removeEdge _ => False

/-- Calls that only add to the graph keep its invariant. -/
theorem invariant_of_adds {d : Bool} {ops : List (Operation W)} (hops : ∀ op ∈ ops, op.Adds)
    {a : AdjacencyList W} (ha : (empty d).run ops = some a) : a.Invariant := by
  have hisolating : IsolatingRun (empty d) ops := by
    intro pre op hpre g' _
    have hadds := hops op (hpre.subset (List.mem_append_right pre (List.mem_singleton_self op)))
    cases op with
    | removeVertex v => exact hadds.elim
    | addVertex v => trivial
    | addEdge e => trivial
    | addEdgeV2 e => trivial
    | removeEdge e => exact hadds.elim
  obtain ⟨a', ha', hinv⟩ := (Invariant.empty d).run hisolating
  rw [ha] at ha'
  exact Option.some.inj ha' ▸ hinv

/-- A vertex without an edge. -/
def Isolated (a : AdjacencyList W) (v : ℕ) : Prop := a.cdlpNeighbours v = []

/-- **The labels come from the graph**: each is a vertex of the component of its vertex. -/
def FromGraph (a : AdjacencyList W) (labels : ℕ → ℕ) : Prop :=
  ∀ v ∈ a.nodes, labels v ∈ a.nodes ∧ Connected a.Arc (labels v) v

section Labels

variable {a : AdjacencyList W} {labels : ℕ → ℕ} {v : ℕ}

theorem mem_cdlpNeighbours {x : ℕ} : x ∈ a.cdlpNeighbours v ↔ a.Neighbour v x :=
  List.mem_append

/-- The scan of an empty histogram. -/
theorem cdlpLabel_of_isolated (hash : Schedule ℕ) (hv : a.Isolated v) :
    a.cdlpLabel hash labels v = 0 := by
  have hkeys : hash.order v (histogram []).keys = [] := (hash.perm v _).eq_nil
  unfold cdlpLabel
  rw [hv]
  change selectLabel (hash.order v (histogram []).keys) _ = 0
  rw [hkeys]
  rfl

/-- A vertex without an edge is a component of its own. -/
theorem Isolated.eq_of_connected (ha : a.Invariant) (hv : a.Isolated v) {u : ℕ}
    (h : Connected a.Arc u v) : u = v := by
  have hnone : ∀ x, ¬a.Neighbour v x := by
    intro x hx
    have hmem := mem_cdlpNeighbours.mpr hx
    rw [hv] at hmem
    exact List.not_mem_nil hmem
  exact h.eq_of_isolated fun x =>
    ⟨fun harc => hnone x (harc.neighbour ha).1, fun harc => hnone x (harc.neighbour ha).2⟩

/-- The label of a vertex with a neighbour is the label of a neighbour. -/
theorem exists_neighbour_label (hash : Schedule ℕ) (labels : ℕ → ℕ) (hv : ¬a.Isolated v) :
    ∃ x, a.Neighbour v x ∧ a.cdlpLabel hash labels v = labels x := by
  have hne : (a.cdlpNeighbours v).map labels ≠ [] := by
    rw [Ne, List.map_eq_nil_iff]
    exact hv
  obtain ⟨x, hx, heq⟩ := List.mem_map.mp (isLeastMode_leastMode hne).mem
  refine ⟨x, mem_cdlpNeighbours.mp hx, ?_⟩
  rw [cdlpLabel_eq hash labels hv, propagate, heq]

/-- **One iteration** keeps the labels in the graph, unless it resets that of a vertex other than
`0`. -/
theorem FromGraph.pass (ha : a.Invariant) (hzero : ∀ v ∈ a.nodes, a.Isolated v → v = 0)
    (sched : Schedule ℕ) (hash : ℕ → Schedule ℕ) {s : CdlpState} (h : a.FromGraph s.labels) :
    a.FromGraph (a.cdlpPass sched hash s).labels := by
  intro v hv
  rw [(a.cdlpPass_spec sched hash s hv).1]
  by_cases hiso : a.Isolated v
  · rw [cdlpLabel_of_isolated _ hiso, ← hzero v hv hiso]
    exact ⟨hv, Connected.refl v⟩
  · obtain ⟨x, hx, heq⟩ := exists_neighbour_label (hash s.iteration) s.labels hiso
    obtain ⟨hmem, hconn⟩ := h x (ha.present v x hx)
    rw [heq]
    exact ⟨hmem, hconn.trans (hx.connected ha)⟩

end Labels

/-! ## The runs -/

/-- The variables of `cdlp` before its loop. -/
def cdlpStart (a : AdjacencyList W) : CdlpState :=
  ⟨fun v => if v ∈ a.nodes then v else 0, fun _ => 0, true, 1⟩

section Runs

variable {a : AdjacencyList W} {sched : Schedule ℕ} {hash : ℕ → Schedule ℕ}
  {maxIterations fuel : ℕ} {labels : ℕ → ℕ}

/-- The labels that are returned are those that the loop ends with. -/
theorem cdlp_eq_some : a.cdlp sched hash maxIterations fuel = some labels ↔
    ∃ s, whileLoop (fun s => decide (s.iteration ≤ maxIterations) && s.change)
      (fun s => some (a.cdlpPass sched hash s)) fuel a.cdlpStart = some s ∧ s.labels = labels := by
  simp [cdlp, cdlpStart, Option.bind_eq_some_iff]

/-- **The loop ends**, unless its counter wraps around. -/
theorem cdlp_returns (hmax : maxIterations < 2 ^ 64 - 1) (hfuel : maxIterations < fuel) :
    ∃ labels, a.cdlp sched hash maxIterations fuel = some labels := by
  have hstep : ∀ s : CdlpState, (1 ≤ s.iteration ∧ s.iteration ≤ maxIterations + 1) →
      (decide (s.iteration ≤ maxIterations) && s.change) = true →
      ∃ s', some (a.cdlpPass sched hash s) = some s' ∧
        (1 ≤ s'.iteration ∧ s'.iteration ≤ maxIterations + 1) ∧
        maxIterations + 1 - s'.iteration < maxIterations + 1 - s.iteration := by
    rintro s ⟨hone, -⟩ hcond
    rw [Bool.and_eq_true, decide_eq_true_eq] at hcond
    have hcount : (a.cdlpPass sched hash s).iteration = s.iteration + 1 :=
      Nat.mod_eq_of_lt (by omega)
    exact ⟨_, rfl, by omega, by omega⟩
  obtain ⟨s, hs, -⟩ := whileLoop_total _ (fun s : CdlpState => maxIterations + 1 - s.iteration)
    hstep fuel a.cdlpStart ⟨le_refl 1, Nat.le_add_left 1 maxIterations⟩
    ((Nat.add_sub_cancel maxIterations 1).trans_lt hfuel)
  exact ⟨s.labels, cdlp_eq_some.mpr ⟨s, hs, rfl⟩⟩

theorem FromGraph.start : a.FromGraph a.cdlpStart.labels := by
  intro v hv
  have hlabel : a.cdlpStart.labels v = v := if_pos hv
  rw [hlabel]
  exact ⟨hv, Connected.refl v⟩

/-- Once an iteration was made, a vertex without an edge has the label `0`. -/
theorem label_of_isolated (hmax : maxIterations ≠ 0)
    (hrun : a.cdlp sched hash maxIterations fuel = some labels) {v : ℕ} (hv : v ∈ a.nodes)
    (hiso : a.Isolated v) : labels v = 0 := by
  obtain ⟨s, hs, rfl⟩ := cdlp_eq_some.mp hrun
  obtain ⟨hend, hcond⟩ := whileLoop_invariant (fun s => s = a.cdlpStart ∨ s.labels v = 0)
    (fun s s' _ _ hpass => by
      obtain rfl := Option.some.inj hpass
      exact Or.inr ((a.cdlpPass_spec sched hash s hv).1.trans (cdlpLabel_of_isolated _ hiso)))
    fuel a.cdlpStart s (Or.inl rfl) hs
  -- the loop does not stop before its first iteration
  refine hend.resolve_left ?_
  rintro rfl
  rw [Bool.and_eq_false_iff, decide_eq_false_iff_not] at hcond
  rcases hcond with hle | hchange
  · exact hle (Nat.one_le_iff_ne_zero.mpr hmax)
  · cases hchange

/-- Without an iteration the labels are the identifiers. -/
theorem labels_of_zero (hrun : a.cdlp sched hash 0 fuel = some labels) :
    labels = a.cdlpStart.labels := by
  obtain ⟨s, hs, rfl⟩ := cdlp_eq_some.mp hrun
  obtain ⟨rfl, -⟩ := whileLoop_invariant (fun s => s = a.cdlpStart)
    (fun s s' hstart hcond _ => by
      subst hstart
      simp [cdlpStart] at hcond)
    fuel a.cdlpStart s rfl hs
  rfl

end Runs

/-- **The labels come from the graph** exactly when no iteration is made, or only the vertex `0`
may have no edge, for every graph that calls of `add_vertex`, `add_edge` and `add_edge_v2` build and
every order of its hash tables. The kernel returns, unless its counter wraps around. -/
theorem cdlp_fromGraph_iff {d : Bool} {ops : List (Operation W)} (hops : ∀ op ∈ ops, op.Adds)
    {a : AdjacencyList W} (ha : (empty d).run ops = some a) (sched : Schedule ℕ)
    (hash : ℕ → Schedule ℕ) (maxIterations : ℕ) :
    (maxIterations < 2 ^ 64 - 1 → ∀ fuel, maxIterations < fuel →
      ∃ labels, a.cdlp sched hash maxIterations fuel = some labels) ∧
    ∀ fuel labels, a.cdlp sched hash maxIterations fuel = some labels →
      (a.FromGraph labels ↔ maxIterations = 0 ∨ ∀ v ∈ a.nodes, a.Isolated v → v = 0) := by
  have hinv := invariant_of_adds hops ha
  refine ⟨fun hmax fuel hfuel => cdlp_returns hmax hfuel, fun fuel labels hrun => ⟨?_, ?_⟩⟩
  · intro hfrom
    by_contra hnot
    obtain ⟨hmax, hrest⟩ := not_or.mp hnot
    refine hrest fun v hv hiso => ?_
    have hconn := (hfrom v hv).2
    rw [label_of_isolated hmax hrun hv hiso] at hconn
    exact (hiso.eq_of_connected hinv hconn).symm
  · rintro (rfl | hzero)
    · rw [labels_of_zero hrun]
      exact FromGraph.start
    · obtain ⟨s, hs, rfl⟩ := cdlp_eq_some.mp hrun
      exact (whileLoop_invariant (fun s => a.FromGraph s.labels)
        (fun s s' h _ hpass => Option.some.inj hpass ▸ h.pass hinv hzero sched hash)
        fuel a.cdlpStart s FromGraph.start hs).1

/-- An edge between the vertices `1` and `2`. -/
def oneEdge : AdjacencyList ℕ := ((empty false).addEdgeV2 ⟨1, 2, 1⟩).2

/-- In a graph with one edge every vertex has a neighbour. -/
theorem cdlp_fromGraph_oneEdge :
    ∃ labels, oneEdge.cdlp .sequential (fun _ => .sequential) 10 11 = some labels ∧
      oneEdge.FromGraph labels := by
  have hrun : (empty false).run [.addEdgeV2 ⟨1, 2, 1⟩] = some oneEdge := rfl
  obtain ⟨hreturns, hlabels⟩ := cdlp_fromGraph_iff (by simp [Operation.Adds]) hrun .sequential
    (fun _ => .sequential) 10
  obtain ⟨labels, hlabelled⟩ := hreturns (by norm_num) 11 (by norm_num)
  refine ⟨labels, hlabelled, (hlabels 11 labels hlabelled).mpr (Or.inr fun v hv hiso => ?_)⟩
  have hnone : ∀ v ∈ oneEdge.nodes.keys, oneEdge.cdlpNeighbours v ≠ [] := by decide
  exact absurd hiso (hnone v (AList.mem_keys.mp hv))

/-- A single vertex. -/
def oneVertex : AdjacencyList ℕ := (empty false).emplace 10

/-- The label of a single vertex `10` after one iteration is the missing vertex `0`. -/
theorem not_fromGraph_oneVertex :
    (empty false).run [.addVertex 10] = some oneVertex ∧
      ∃ labels, oneVertex.cdlp .sequential (fun _ => .sequential) 1 2 = some labels ∧
        ¬oneVertex.FromGraph labels := by
  obtain ⟨labels, hrun⟩ : ∃ labels,
      oneVertex.cdlp .sequential (fun _ => .sequential) 1 2 = some labels :=
    cdlp_returns (by norm_num) (by norm_num)
  refine ⟨rfl, labels, hrun, fun hfrom => ?_⟩
  have hlabel : labels 10 = 0 := label_of_isolated one_ne_zero hrun (by decide) rfl
  have hmem := (hfrom 10 (by decide)).1
  rw [hlabel] at hmem
  exact absurd hmem (by decide)

end AdjacencyList

end GfeDriver
