import GfeDriver.Foundation.Components
import GfeDriver.Foundation.Loop
import GfeDriver.Foundation.Schedule
import GfeDriver.Baseline.CsrWcc
import GfeDriver.Baseline.Represents

/-!
# Weakly connected components on the adjacency list

`AdjacencyList::wcc` lowers the component of each vertex to the least component among its
neighbours, in both directions, until a whole pass over the vertices changes nothing. The map of
the vertices is visited in an order that the hash table decides. A vertex without neighbours
compares its component with the largest 64-bit signed integer, which is why the identifiers have
to be below it.

## Main definitions

* `AdjacencyList.wcc`: the algorithm

## Main results

* `Settled.wccVertex`, `Settled.wccPass`: one vertex, one pass
* `wcc_spec`: termination and components
* `CSR.doWcc_correct`: the components computed by the two libraries agree
-/

namespace GfeDriver

open Foundation

namespace AdjacencyList

variable {W : Type}

/-! ## The algorithm -/

/-- `numeric_limits<int64_t>::max()`. -/
def int64Max : ℕ := 2 ^ 63 - 1

/-- The variables of `wcc`. -/
structure WccState where
  components : ℕ → ℕ
  converged : Bool
  ticks : ℕ

/-- `min_component` after the loops over the outgoing and the incoming edges of a vertex. -/
def minComponent (a : AdjacencyList W) (components : ℕ → ℕ) (vertexId : ℕ) : ℕ :=
  let afterOut := (a.outgoing vertexId).foldl (fun m e => min m (components e.1)) int64Max
  (a.incoming vertexId).foldl (fun m e => min m (components e.1)) afterOut

/-- The body of the loop over the vertices. -/
def wccVertex (a : AdjacencyList W) (s : WccState) (vertexId : ℕ) : WccState :=
  let least := a.minComponent s.components vertexId
  if s.components vertexId > least then
    { s with components := Function.update s.components vertexId least, converged := false }
  else s

/-- The body of the `do`-`while` loop of `wcc`. -/
def wccPass (a : AdjacencyList W) (sched : Schedule ℕ) (s : WccState) : WccState :=
  { (sched.order s.ticks a.nodes.keys).foldl a.wccVertex { s with converged := true } with
    ticks := s.ticks + 1 }

/-- The variables of `wcc` before its loop; a component that is not in the map reads as `0`. -/
def wccInit (a : AdjacencyList W) : WccState where
  components := fun v => if v ∈ a.nodes then v else 0
  converged := false
  ticks := 0

/-- `AdjacencyList::wcc`, when no timeout fires. -/
def wcc (a : AdjacencyList W) (sched : Schedule ℕ) (fuel : ℕ) : Option WccState :=
  doWhile (fun s => !s.converged) (fun s => some (a.wccPass sched s)) fuel a.wccInit

/-! ## One pass -/

/-- An edge from `u` to `v`. -/
def Arc (a : AdjacencyList W) (u v : ℕ) : Prop := v ∈ (a.outgoing u).targets

/-- A neighbour of `v`, in either direction. -/
def Neighbour (a : AdjacencyList W) (v x : ℕ) : Prop :=
  x ∈ (a.outgoing v).targets ∨ x ∈ (a.incoming v).targets

theorem foldl_min_spec (l : EdgeList W) (f : ℕ → ℕ) (b : ℕ) :
    l.foldl (fun m e => min m (f e.1)) b ≤ b ∧
      (∀ x ∈ l.targets, l.foldl (fun m e => min m (f e.1)) b ≤ f x) ∧
      (l.foldl (fun m e => min m (f e.1)) b = b ∨
        ∃ x ∈ l.targets, l.foldl (fun m e => min m (f e.1)) b = f x) := by
  induction l generalizing b with
  | nil => simp [EdgeList.targets]
  | cons e l ih =>
    obtain ⟨hle, hmin, hatt⟩ := ih (min b (f e.1))
    simp only [List.foldl_cons, EdgeList.targets, List.map_cons, List.mem_cons] at hmin hatt ⊢
    refine ⟨hle.trans (min_le_left _ _), fun x hx => ?_, ?_⟩
    · rcases hx with rfl | hx
      · exact hle.trans (min_le_right _ _)
      · exact hmin x hx
    -- the minimum is attained, by the accumulator or by one of the targets
    · rcases hatt with heq | ⟨x, hx, heq⟩
      · rcases min_choice b (f e.1) with h | h
        · exact Or.inl (heq.trans h)
        · exact Or.inr ⟨e.1, Or.inl rfl, heq.trans h⟩
      · exact Or.inr ⟨x, Or.inr hx, heq⟩

theorem minComponent_spec (a : AdjacencyList W) (components : ℕ → ℕ) (v : ℕ) :
    (∀ x, a.Neighbour v x → a.minComponent components v ≤ components x) ∧
      (a.minComponent components v = int64Max ∨
        ∃ x, a.Neighbour v x ∧ a.minComponent components v = components x) := by
  obtain ⟨-, houtMin, houtAtt⟩ := foldl_min_spec (a.outgoing v) components int64Max
  -- the second loop starts from the minimum of the first
  set afterOut := (a.outgoing v).foldl (fun m e => min m (components e.1)) int64Max
  obtain ⟨hle, hinMin, hinAtt⟩ := foldl_min_spec (a.incoming v) components afterOut
  refine ⟨fun x hx => ?_, ?_⟩
  · rcases hx with hx | hx
    · exact hle.trans (houtMin x hx)
    · exact hinMin x hx
  · rcases hinAtt with heq | ⟨x, hx, heq⟩
    · rcases houtAtt with heq' | ⟨x, hx, heq'⟩
      · exact Or.inl (heq.trans heq')
      · exact Or.inr ⟨x, Or.inl hx, heq.trans heq'⟩
    · exact Or.inr ⟨x, Or.inr hx, heq⟩

section Pass

variable {a : AdjacencyList W}

theorem Neighbour.connected (ha : a.Invariant) {v x : ℕ} (h : a.Neighbour v x) :
    Connected a.Arc x v := by
  rcases h with hx | hx
  · exact (Connected.of_rel hx).symm
  · -- an incoming edge is listed by its source
    cases hd : a.isDirected with
    | true =>
      obtain ⟨w, hw⟩ := EdgeList.mem_targets.mp hx
      have hback : (x, w) ∈ a.back v := by simpa [back, hd] using hw
      exact Connected.of_rel (EdgeList.mem_targets.mpr ⟨w, (ha.mirror x v w).mpr hback⟩)
    | false => simp [ha.incoming_nil hd, EdgeList.targets] at hx

/-- The endpoints of an edge are neighbours of each other. -/
theorem Arc.neighbour (ha : a.Invariant) {u v : ℕ} (h : a.Arc u v) :
    a.Neighbour u v ∧ a.Neighbour v u := by
  refine ⟨Or.inl h, ?_⟩
  obtain ⟨w, hw⟩ := EdgeList.mem_targets.mp h
  have hback := (ha.mirror u v w).mp hw
  unfold back at hback
  split_ifs at hback with hd
  · exact Or.inr (EdgeList.mem_targets.mpr ⟨w, hback⟩)
  · exact Or.inl (EdgeList.mem_targets.mpr ⟨w, hback⟩)

/-- The component of a vertex is a vertex connected to it, and not above it. -/
structure Settled (a : AdjacencyList W) (components : ℕ → ℕ) : Prop where
  le : ∀ v ∈ a.nodes, components v ≤ v
  connected : ∀ v ∈ a.nodes, Connected a.Arc (components v) v

/-- The sum of the components, which every change lowers. -/
def total (a : AdjacencyList W) (components : ℕ → ℕ) : ℕ :=
  ∑ v ∈ a.nodes.keys.toFinset, components v

/-- **One vertex.** Its component is lowered, or it is at most those of its neighbours. -/
theorem Settled.wccVertex (ha : a.Invariant) (hids : ∀ x ∈ a.nodes, x < int64Max) {s : WccState}
    (h : Settled a s.components) {v : ℕ} (hv : v ∈ a.nodes) :
    Settled a (a.wccVertex s v).components ∧
      (a.wccVertex s v = s ∧ (∀ x, a.Neighbour v x → s.components v ≤ s.components x) ∨
        (a.wccVertex s v).converged = false ∧
          a.total (a.wccVertex s v).components < a.total s.components) := by
  obtain ⟨hmin, hatt⟩ := a.minComponent_spec s.components v
  unfold AdjacencyList.wccVertex
  simp only
  split_ifs with hlt
  · have hle := h.le v hv
    have hbound := hids v hv
    -- the component is below the initial minimum, so it is that of a neighbour
    obtain ⟨x, hx, heq⟩ := hatt.resolve_left (by omega)
    have hxnode : x ∈ a.nodes := ha.present v x hx
    refine ⟨⟨fun y hy => ?_, fun y hy => ?_⟩, Or.inr ⟨rfl, ?_⟩⟩
    · by_cases hyv : y = v
      · subst hyv
        simp only [Function.update_self]
        omega
      · simp only [Function.update_of_ne hyv]
        exact h.le y hy
    · by_cases hyv : y = v
      · subst hyv
        simp only [Function.update_self]
        rw [heq]
        exact (h.connected x hxnode).trans (hx.connected ha)
      · simp only [Function.update_of_ne hyv]
        exact h.connected y hy
    · have hmem : v ∈ a.nodes.keys.toFinset := by simpa [AList.mem_keys] using hv
      apply Finset.sum_lt_sum
      · intro y _
        by_cases hyv : y = v
        · subst hyv
          simp only [Function.update_self]
          omega
        · simp only [Function.update_of_ne hyv, le_refl]
      · exact ⟨v, hmem, by simpa using hlt⟩
  · exact ⟨h, Or.inl ⟨rfl, fun x hx => (not_lt.mp hlt).trans (hmin x hx)⟩⟩

/-- **One pass.** It is the last one when every component is at most those of the neighbours. -/
theorem Settled.wccPass (ha : a.Invariant) (hids : ∀ x ∈ a.nodes, x < int64Max)
    (sched : Schedule ℕ) {s : WccState} (h : Settled a s.components) :
    Settled a (a.wccPass sched s).components ∧
      ((a.wccPass sched s).converged = true → ∀ v ∈ a.nodes, ∀ x, a.Neighbour v x →
        (a.wccPass sched s).components v ≤ (a.wccPass sched s).components x) ∧
      a.total (a.wccPass sched s).components ≤ a.total s.components ∧
      ((a.wccPass sched s).converged = false →
        a.total (a.wccPass sched s).components < a.total s.components) := by
  -- a pass either changes nothing so far, or it has lowered the total
  let P : List ℕ → WccState → Prop := fun done r =>
    Settled a r.components ∧
      (r.converged = true → r.components = s.components ∧
        ∀ v ∈ done, ∀ x, a.Neighbour v x → s.components v ≤ s.components x) ∧
      a.total r.components ≤ a.total s.components ∧
      (r.converged = false → a.total r.components < a.total s.components)
  have hstep : ∀ done x rest r, sched.order s.ticks a.nodes.keys = done ++ x :: rest → P done r →
      P (done ++ [x]) (a.wccVertex r x) := by
    rintro done x rest r horder ⟨hr, hsame, hle, hlt⟩
    have hx : x ∈ a.nodes := by
      apply AList.mem_keys.mpr
      rw [← sched.mem_order s.ticks, horder]
      simp
    obtain ⟨hr', hcases⟩ := hr.wccVertex ha hids hx
    rcases hcases with ⟨heq, hlocal⟩ | ⟨hconv, htotal⟩
    · rw [heq]
      refine ⟨hr, fun hc => ⟨(hsame hc).1, fun v hv y hy => ?_⟩, hle, hlt⟩
      rcases List.mem_append.mp hv with hv | hv
      · exact (hsame hc).2 v hv y hy
      · obtain rfl := List.mem_singleton.mp hv
        rw [← (hsame hc).1]
        exact hlocal y hy
    · exact ⟨hr', fun hc => by simp [hconv] at hc, by omega, fun _ => by omega⟩
  have hend : P (sched.order s.ticks a.nodes.keys)
      ((sched.order s.ticks a.nodes.keys).foldl a.wccVertex { s with converged := true }) := by
    apply foldl_prefix P
    · exact ⟨h, fun _ => ⟨rfl, by simp⟩, le_refl _, fun hc => by simp at hc⟩
    · exact hstep
  obtain ⟨hr, hsame, hle, hlt⟩ := hend
  refine ⟨hr, fun hc v hv x hx => ?_, hle, hlt⟩
  obtain ⟨heq, hlocal⟩ := hsame hc
  simp only [AdjacencyList.wccPass, heq]
  exact hlocal v (by simpa [AList.mem_keys] using hv) x hx

end Pass

/-! ## Correctness -/

/-- **Weakly connected components.** The loop ends for every order of the vertices, and two
vertices have the same component exactly when they are connected. -/
theorem wcc_spec {a : AdjacencyList W} (ha : a.Invariant) (hids : ∀ x ∈ a.nodes, x < int64Max)
    (sched : Schedule ℕ) :
    ∃ s, (∃ k, ∀ fuel, k ≤ fuel → a.wcc sched fuel = some s) ∧
      ∀ u ∈ a.nodes, ∀ v ∈ a.nodes, s.components u = s.components v ↔ Connected a.Arc u v := by
  let I : WccState → Prop := fun s => Settled a s.components ∧
    (s.converged = true → ∀ v ∈ a.nodes, ∀ x, a.Neighbour v x → s.components v ≤ s.components x)
  let m : WccState → ℕ := fun s => a.total s.components + if s.converged then 0 else 1
  have hinit : Settled a a.wccInit.components := by
    refine ⟨fun v hv => ?_, fun v hv => ?_⟩
    · simp [wccInit, hv]
    · simpa [wccInit, hv] using Connected.refl v
  have hstep : ∀ s, I s → (!s.converged) = true →
      ∃ s', some (a.wccPass sched s) = some s' ∧ I s' ∧ m s' < m s := by
    rintro s ⟨hs, -⟩ hc
    obtain ⟨hs', hlocal, hle, hlt⟩ := hs.wccPass ha hids sched
    have hconv : s.converged = false := by simpa using hc
    refine ⟨_, rfl, ⟨hs', hlocal⟩, ?_⟩
    simp only [m, hconv]
    cases hc' : (a.wccPass sched s).converged with
    | true => simpa using Nat.lt_succ_of_le hle
    | false => simpa using hlt hc'
  obtain ⟨hfirst, hlocal, -, -⟩ := hinit.wccPass ha hids sched
  obtain ⟨s, ⟨hs, hlast⟩, hc, hrun⟩ := whileLoop_total_of_wf I (measure m).wf hstep
    (a.wccPass sched a.wccInit) ⟨hfirst, hlocal⟩
  refine ⟨s, hrun, fun u hu v hv => ?_⟩
  -- each endpoint of an edge is a neighbour of the other one, so their components are equal
  have hle := hlast (by simpa using hc)
  have hstable : ∀ u v, a.Arc u v → s.components u = s.components v := by
    intro u v harc
    obtain ⟨huv, hvu⟩ := Arc.neighbour ha harc
    exact le_antisymm (hle u (ha.present v u hvu) v huv) (hle v (ha.present u v huv) u hvu)
  exact connected_iff_of_stable hstable (hs.connected u hu) (hs.connected v hv)

end AdjacencyList

namespace CSR

/-- **The components of the two libraries.** For every schedule both loops of `do_wcc` end, two
vertices get the same component exactly when they are connected, and the component is the least
vertex connected to them; the adjacency list that holds the same graph finds the same partition. -/
theorem doWcc_correct {W : Type} [Zero W] {g : CSR W} (hg : g.WellFormed) (sched : Schedule ℕ)
    {fuel : ℕ} (hfuel : g.numVertices + 1 < fuel) :
    ∃ s, g.doWcc sched fuel = some s ∧
      (∀ u < g.numVertices, ∀ v < g.numVertices,
        s.comp u = s.comp v ↔ Connected g.Arc u v) ∧
      (∀ v < g.numVertices, IsLeast { u | Connected g.Arc u v } (s.comp v)) ∧
      ∀ (a : AdjacencyList W) (sched' : Schedule ℕ), Represents g a →
        (∀ x ∈ a.nodes, x < AdjacencyList.int64Max) →
        ∃ r, (∃ k, ∀ fuel, k ≤ fuel → a.wcc sched' fuel = some r) ∧
          ∀ u < g.numVertices, ∀ v < g.numVertices,
            r.components (g.ext u) = r.components (g.ext v) ↔ s.comp u = s.comp v := by
  obtain ⟨s, hrun, hconn, hleast⟩ := doWcc_spec hg sched hfuel
  refine ⟨s, hrun, fun u _ v _ => hconn u v, fun v _ => hleast v, fun a sched' h hids => ?_⟩
  obtain ⟨r, hrun', hconn'⟩ := AdjacencyList.wcc_spec h.invariant hids sched'
  refine ⟨r, hrun', fun u hu v hv => ?_⟩
  rw [hconn' _ (h.ext_mem hu) _ (h.ext_mem hv), hconn]
  -- connections are transported along the external identifiers
  refine connected_map_iff (D := fun u => u < g.numVertices) (fun u v hu hv => h.ext_inj hu hv)
    (fun u v harc => ?_) (fun x y hxy => ?_) hu hv
  · obtain ⟨w, hw⟩ := mem_outNeighbours_iff.mp harc.2
    exact EdgeList.mem_targets.mpr ⟨w, (h.out u harc.1 v (hg.arc_lt harc) w).mp hw⟩
  · obtain ⟨w, hw⟩ := EdgeList.mem_targets.mp hxy
    obtain ⟨u, hu, rfl⟩ := h.exists_ext (AdjacencyList.mem_nodes_of_outgoing hw)
    obtain ⟨v, hv, hvy, hmem⟩ := h.exists_of_mem_outgoing hu hw
    exact ⟨u, v, hu, hv, rfl, hvy, hu, mem_outNeighbours_iff.mpr ⟨w, hmem⟩⟩

theorem doWcc_path :
    ∃ s, (path (1 : ℕ)).doWcc Schedule.sequential 5 = some s ∧
      (∀ u < 3, ∀ v < 3, s.comp u = s.comp v ↔ Connected (path (1 : ℕ)).Arc u v) ∧
      (∀ v < 3, IsLeast { u | Connected (path (1 : ℕ)).Arc u v } (s.comp v)) ∧
      ∀ (a : AdjacencyList ℕ) (sched' : Schedule ℕ), Represents (path 1) a →
        (∀ x ∈ a.nodes, x < AdjacencyList.int64Max) →
        ∃ r, (∃ k, ∀ fuel, k ≤ fuel → a.wcc sched' fuel = some r) ∧
          ∀ u < 3, ∀ v < 3, r.components ((path (1 : ℕ)).ext u) =
            r.components ((path (1 : ℕ)).ext v) ↔ s.comp u = s.comp v :=
  doWcc_correct (path_wellFormed 1) Schedule.sequential (by decide)

end CSR

end GfeDriver
