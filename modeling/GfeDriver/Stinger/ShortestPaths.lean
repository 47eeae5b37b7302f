import GfeDriver.Foundation.Relaxation
import GfeDriver.Foundation.Runs
import Mathlib.Data.List.GetD

/-!
# The shortest paths of Stinger

`a_star` keeps the least cost found so far of each vertex, and a priority queue of vertices that are
entered again whenever their cost is lowered. An entry that is out of date is visited all the same,
with the newest cost of its vertex, and no set of settled vertices is kept. The queue may give any
of its least entries.

Whatever entry is taken, every vertex with a cost is in the queue or has edges that lower no cost.
So the costs are the least weights of a path once the queue is empty. No cost is lowered for ever,
as all costs lie on one grid.

## Main definitions

* `Graph`: what the analytics read of a graph
* `relax`, `visit`: an edge, and an entry of the queue
* `Step`, `start`: the runs of `a_star`, for any order of the entries with the same cost

## Main results

* `Searching.relax`, `Searching.visit`: what an edge and an entry keep
* `aStar_isMinWeight`: every run ends within the bounds of the array, with the least weights
-/

namespace GfeDriver

namespace Stinger

open Foundation

/-! ## The search -/

/-- What the analytics read of a graph: the registered vertices are `0, …, nv - 1`, with their
external names, types and outgoing edges. No operation of the driver marks a vertex for deletion by
another type than `0`. -/
structure Graph where
  nv : ℕ
  name : ℕ → ℕ
  vtype : ℕ → ℕ
  outEdges : ℕ → List (ℕ × ℚ≥0)
  ends : ∀ u, ∀ e ∈ outEdges u, u < nv ∧ e.1 < nv
  name_inj : ∀ u < nv, ∀ v < nv, name u = name v → u = v
  active : ∀ v < nv, vtype v = 0

/-- `weighted_vertex_t`. -/
structure WeightedVertex where
  vertex : ℕ
  cost : WithTop ℚ≥0
  deriving DecidableEq

/-- The variables of `a_star`. -/
structure AStar where
  costSoFar : List (WithTop ℚ≥0)
  frontier : List WeightedVertex

/-- The body of the loop over the edges of `current`. An access outside of the array fails. -/
def relax (ignoreWeights : Bool) (current : ℕ) (s : AStar) (e : ℕ × ℚ≥0) : Option AStar := do
  let cost ← s.costSoFar[current]?
  let newCost := if ignoreWeights then cost + 1 else cost + e.2
  let old ← s.costSoFar[e.1]?
  if newCost < old ∨ old = ⊤ then
    some ⟨s.costSoFar.set e.1 newCost, s.frontier ++ [⟨e.1, newCost⟩]⟩
  else some s

/-- The entry `current` is taken from the queue and its edges are visited. -/
def visit (g : Graph) (ignoreWeights : Bool) (current : WeightedVertex) (s : AStar) :
    Option AStar :=
  (g.outEdges current.vertex).foldlM (relax ignoreWeights current.vertex)
    { s with frontier := s.frontier.erase current }

/-- An entry that `top` may give. -/
def IsTop (frontier : List WeightedVertex) (current : WeightedVertex) : Prop :=
  current ∈ frontier ∧ ∀ e ∈ frontier, current.cost ≤ e.cost

/-- `a_star` before an iteration of its loop, when it has returned, and after an access outside of
the array. -/
inductive Config
  | running (s : AStar)
  | returned (costSoFar : List (WithTop ℚ≥0))
  | outOfBounds

/-- `a_star` before its loop. -/
def start (NV source : ℕ) : Config :=
  if source < NV then .running ⟨(List.replicate NV ⊤).set source 0, [⟨source, 0⟩]⟩
  else .outOfBounds

/-- **An iteration** of the loop of `a_star`, when no timeout fires. -/
inductive Step (g : Graph) (dest : ℤ) (ignoreWeights : Bool) : Config → Config → Prop
  | empty {s : AStar} (h : s.frontier = []) :
    Step g dest ignoreWeights (.running s) (.returned s.costSoFar)
  | goal {s : AStar} {current : WeightedVertex} (top : IsTop s.frontier current)
      (h : (current.vertex : ℤ) = dest) :
    Step g dest ignoreWeights (.running s) (.returned s.costSoFar)
  | visit {s s' : AStar} {current : WeightedVertex} (top : IsTop s.frontier current)
      (hne : (current.vertex : ℤ) ≠ dest) (h : visit g ignoreWeights current s = some s') :
    Step g dest ignoreWeights (.running s) (.running s')
  | outside {s : AStar} {current : WeightedVertex} (top : IsTop s.frontier current)
      (hne : (current.vertex : ℤ) ≠ dest) (h : visit g ignoreWeights current s = none) :
    Step g dest ignoreWeights (.running s) .outOfBounds

/-- An edge from `u` to `v`, of the weight `w`. -/
def Graph.Arc (g : Graph) (u v : ℕ) (w : ℚ≥0) : Prop := (v, w) ∈ g.outEdges u

/-- An edge from `u` to `v`. -/
def Graph.Adj (g : Graph) (u v : ℕ) : Prop := ∃ w, g.Arc u v w

/-- The edges, with their weights or as one each. -/
def Graph.Counted (g : Graph) (ignoreWeights : Bool) (u v : ℕ) (w : ℚ≥0) : Prop :=
  if ignoreWeights then CountOne g.Adj u v w else g.Arc u v w

/-! ## The invariant -/

/-- The weight of an edge. -/
def weightOf (ignoreWeights : Bool) (w : ℚ≥0) : ℚ≥0 := if ignoreWeights then 1 else w

theorem counted_of_mem {g : Graph} {ignoreWeights : Bool} {u v : ℕ} {w : ℚ≥0}
    (h : (v, w) ∈ g.outEdges u) : g.Counted ignoreWeights u v (weightOf ignoreWeights w) := by
  cases ignoreWeights with
  | true => exact ⟨rfl, w, h⟩
  | false => exact h

theorem exists_mem_of_counted {g : Graph} {ignoreWeights : Bool} {u v : ℕ} {c : ℚ≥0}
    (h : g.Counted ignoreWeights u v c) :
    ∃ w, (v, w) ∈ g.outEdges u ∧ c = weightOf ignoreWeights w := by
  cases ignoreWeights with
  | true =>
    obtain ⟨rfl, w, hw⟩ := h
    exact ⟨w, hw, rfl⟩
  | false => exact ⟨c, h, rfl⟩

/-- The cost of a vertex, `⊤` outside of the array. -/
def AStar.costOf (s : AStar) (v : ℕ) : WithTop ℚ≥0 := s.costSoFar.getD v ⊤

/-- **The invariant** of the search: a vertex with a cost is in the queue, or its edges lower no
cost, except for the edges that are left to visit. -/
structure Searching (g : Graph) (ignoreWeights : Bool) (source NV : ℕ)
    (left : ℕ → ℕ × ℚ≥0 → Prop) (s : AStar) : Prop where
  length : s.costSoFar.length = NV
  labels : Labels (g.Counted ignoreWeights) source s.costOf
  known : ∀ e ∈ s.frontier, s.costOf e.vertex ≠ ⊤
  pending : ∀ u, s.costOf u ≠ ⊤ → (∃ e ∈ s.frontier, e.vertex = u) ∨ ∀ v w, (v, w) ∈ g.outEdges u →
    s.costOf v ≤ s.costOf u + weightOf ignoreWeights w ∨ left u (v, w)

section Search

variable {g : Graph} {ignoreWeights : Bool} {source NV : ℕ} {s s' : AStar}

theorem AStar.lt_of_costOf {v : ℕ} (h : s.costOf v ≠ ⊤) : v < s.costSoFar.length := by
  by_contra hge
  exact h (List.getD_eq_default _ _ (Nat.not_lt.mp hge))

theorem AStar.getElem?_eq_costOf {v : ℕ} (h : v < s.costSoFar.length) :
    s.costSoFar[v]? = some (s.costOf v) := by
  rw [costOf, List.getElem?_eq_getElem h, List.getD_eq_getElem _ _ h]

/-- The costs after one is lowered. -/
theorem costOf_set {v : ℕ} (h : v < s.costSoFar.length) (d : WithTop ℚ≥0)
    (frontier : List WeightedVertex) :
    AStar.costOf ⟨s.costSoFar.set v d, frontier⟩ = Function.update s.costOf v d := by
  funext x
  by_cases hx : x = v
  · subst hx
    simp [AStar.costOf, h]
  · have hvx : v ≠ x := Ne.symm hx
    simp [AStar.costOf, hx, hvx]

/-- A search after which the costs are lower, or nothing has changed. -/
def Lowers (s s' : AStar) : Prop :=
  (∀ x, s'.costOf x ≤ s.costOf x) ∧ (s' = s ∨ ∃ x < s.costSoFar.length, s'.costOf x < s.costOf x)

theorem Lowers.refl (s : AStar) : Lowers s s := ⟨fun _ => le_refl _, Or.inl rfl⟩

theorem Lowers.trans {s'' : AStar} (hlen : s'.costSoFar.length = s.costSoFar.length)
    (h : Lowers s s') (h' : Lowers s' s'') : Lowers s s'' := by
  refine ⟨fun x => (h'.1 x).trans (h.1 x), ?_⟩
  rcases h.2 with rfl | ⟨x, hx, hlt⟩
  · exact h'.2
  · exact Or.inr ⟨x, hx, (h'.1 x).trans_lt hlt⟩

/-- An edge that lowers no cost is done. -/
theorem Searching.tail {u v : ℕ} {w : ℚ≥0} {es : List (ℕ × ℚ≥0)}
    (h : Searching g ignoreWeights source NV (fun x e => x = u ∧ e ∈ (v, w) :: es) s)
    (htight : s.costOf v ≤ s.costOf u + weightOf ignoreWeights w) :
    Searching g ignoreWeights source NV (fun x e => x = u ∧ e ∈ es) s := by
  refine { h with pending := fun x hx => (h.pending x hx).imp_right fun hedges y c hy => ?_ }
  rcases hedges y c hy with hle | ⟨rfl, hmem⟩
  · exact Or.inl hle
  · rcases List.mem_cons.mp hmem with heq | hmem
    · obtain ⟨rfl, rfl⟩ := Prod.mk.inj heq
      exact Or.inl htight
    · exact Or.inr ⟨rfl, hmem⟩

/-- **An edge that lowers the cost** of its target. -/
theorem Searching.lower {left : ℕ → ℕ × ℚ≥0 → Prop} {u v : ℕ} {w : ℚ≥0}
    (h : Searching g ignoreWeights source NV left s) (he : (v, w) ∈ g.outEdges u) (hv : v < NV)
    {d : WithTop ℚ≥0} (hd : d = s.costOf u + weightOf ignoreWeights w) (hlt : d < s.costOf v) :
    Searching g ignoreWeights source NV left
      ⟨s.costSoFar.set v d, s.frontier ++ [⟨v, d⟩]⟩ := by
  have hcost := costOf_set (s := s) (h.length ▸ hv) d (s.frontier ++ [⟨v, d⟩])
  have hle : Function.update s.costOf v d ≤ s.costOf := update_le_self_iff.mpr hlt.le
  refine ⟨(List.length_set ..).trans h.length, ?_, fun e he' => ?_, fun x hx => ?_⟩
  · subst hd
    exact hcost ▸ h.labels.lower (counted_of_mem he) hlt
  · rw [hcost]
    rcases List.mem_append.mp he' with he' | he'
    · exact ne_top_of_le_ne_top (h.known e he') (hle _)
    · rw [List.mem_singleton.mp he', Function.update_self]
      exact ne_top_of_lt hlt
  · rw [hcost] at hx ⊢
    by_cases hxv : x = v
    · subst hxv
      exact Or.inl ⟨_, List.mem_append_right _ (List.mem_singleton_self _), rfl⟩
    · rw [Function.update_of_ne hxv] at hx ⊢
      refine (h.pending x hx).imp ?_ fun hedges y c hy => (hedges y c hy).imp_left (hle y).trans
      rintro ⟨e, he', rfl⟩
      exact ⟨e, List.mem_append_left _ he', rfl⟩

/-- **One edge** of the vertex that is visited. -/
theorem Searching.relax {u v : ℕ} {w : ℚ≥0} {es : List (ℕ × ℚ≥0)}
    (h : Searching g ignoreWeights source NV (fun x e => x = u ∧ e ∈ (v, w) :: es) s)
    (hu : s.costOf u ≠ ⊤) (he : (v, w) ∈ g.outEdges u) (hv : v < NV) :
    ∃ s', Stinger.relax ignoreWeights u s (v, w) = some s' ∧ s'.costOf u ≠ ⊤ ∧ Lowers s s' ∧
      Searching g ignoreWeights source NV (fun x e => x = u ∧ e ∈ es) s' := by
  have hvlen : v < s.costSoFar.length := h.length ▸ hv
  have hnew : (if ignoreWeights then s.costOf u + 1 else s.costOf u + (w : WithTop ℚ≥0)) =
      s.costOf u + (weightOf ignoreWeights w : ℚ≥0) := by
    cases ignoreWeights <;> rfl
  simp only [Stinger.relax, AStar.getElem?_eq_costOf (AStar.lt_of_costOf hu),
    AStar.getElem?_eq_costOf hvlen, Option.bind_eq_bind, Option.bind_some, hnew]
  by_cases hlt : s.costOf u + (weightOf ignoreWeights w : ℚ≥0) < s.costOf v
  · rw [if_pos (Or.inl hlt)]
    have hcost := costOf_set (s := s) hvlen (s.costOf u + (weightOf ignoreWeights w : ℚ≥0))
      (s.frontier ++ [⟨v, s.costOf u + (weightOf ignoreWeights w : ℚ≥0)⟩])
    -- a loop does not lower the cost of its vertex
    have huv : u ≠ v := by
      rintro rfl
      exact absurd hlt (not_lt.mpr le_self_add)
    refine ⟨_, rfl, ?_, ⟨fun x => hcost ▸ update_le_self_iff.mpr hlt.le x, Or.inr ⟨v, hvlen, ?_⟩⟩,
      (h.lower he hv rfl hlt).tail ?_⟩
    · rwa [hcost, Function.update_of_ne huv]
    · rwa [hcost, Function.update_self]
    · rw [hcost, Function.update_self, Function.update_of_ne huv]
  · -- the target has a cost, which the edge does not lower
    have hfin : s.costOf u + (weightOf ignoreWeights w : ℚ≥0) ≠ ⊤ :=
      WithTop.add_ne_top.mpr ⟨hu, WithTop.coe_ne_top⟩
    have hvfin : s.costOf v ≠ ⊤ := ne_top_of_le_ne_top hfin (not_lt.mp hlt)
    rw [if_neg (not_or.mpr ⟨hlt, hvfin⟩)]
    exact ⟨s, rfl, hu, Lowers.refl s, h.tail (not_lt.mp hlt)⟩

/-- **The edges** of the vertex that is visited. -/
theorem Searching.foldlM_relax {u : ℕ} (es : List (ℕ × ℚ≥0)) (hes : ∀ e ∈ es, e ∈ g.outEdges u)
    (hbounds : ∀ e ∈ es, e.1 < NV)
    (h : Searching g ignoreWeights source NV (fun x e => x = u ∧ e ∈ es) s)
    (hu : s.costOf u ≠ ⊤) :
    ∃ s', es.foldlM (Stinger.relax ignoreWeights u) s = some s' ∧ Lowers s s' ∧
      Searching g ignoreWeights source NV (fun _ _ => False) s' := by
  induction es generalizing s with
  | nil =>
    refine ⟨s, rfl, Lowers.refl s, h.length, h.labels, h.known, fun x hx => ?_⟩
    refine (h.pending x hx).imp_right fun htight y c hy => ?_
    exact Or.inl ((htight y c hy).resolve_right fun hleft => List.not_mem_nil hleft.2)
  | cons e es ih =>
    obtain ⟨s₁, hrelax, hu₁, hlower, h₁⟩ :=
      h.relax hu (hes e List.mem_cons_self) (hbounds e List.mem_cons_self)
    obtain ⟨s', hfold, hlower', h'⟩ := ih (fun e he => hes e (List.mem_cons_of_mem _ he))
      (fun e he => hbounds e (List.mem_cons_of_mem _ he)) h₁ hu₁
    refine ⟨s', ?_, hlower.trans (h₁.length.trans h.length.symm) hlower', h'⟩
    rw [List.foldlM_cons, hrelax]
    exact hfold

/-- **One entry** of the queue. -/
theorem Searching.visit (hbounds : ∀ u, ∀ e ∈ g.outEdges u, e.1 < NV) {current : WeightedVertex}
    (h : Searching g ignoreWeights source NV (fun _ _ => False) s)
    (hcurrent : current ∈ s.frontier) :
    ∃ s', Stinger.visit g ignoreWeights current s = some s' ∧
      Lowers { s with frontier := s.frontier.erase current } s' ∧
      Searching g ignoreWeights source NV (fun _ _ => False) s' := by
  refine Searching.foldlM_relax _ (fun e he => he) (hbounds current.vertex) ⟨h.length, h.labels,
    fun e he => h.known e (List.mem_of_mem_erase he), fun x hx => ?_⟩ (h.known current hcurrent)
  by_cases hxc : x = current.vertex
  · subst hxc
    exact Or.inr fun v w hvw => Or.inr ⟨rfl, hvw⟩
  · refine (h.pending x hx).imp ?_ fun htight v w hvw =>
      Or.inl ((htight v w hvw).resolve_right id)
    rintro ⟨e, he, rfl⟩
    have hne : e ≠ current := fun heq => hxc (by rw [heq])
    exact ⟨e, (List.mem_erase_of_ne hne).mpr he, rfl⟩

/-- A search with an empty queue has the least weights. -/
theorem Searching.isMinWeight (h : Searching g ignoreWeights source NV (fun _ _ => False) s)
    (hempty : s.frontier = []) (v : ℕ) :
    IsMinWeight (g.Counted ignoreWeights) source v (s.costOf v) := by
  refine h.labels.isMinWeight (fun u hu y c he => ?_) v
  obtain ⟨w, hw, rfl⟩ := exists_mem_of_counted he
  rcases h.pending u hu with ⟨e, he', -⟩ | htight
  · rw [hempty] at he'
    exact absurd he' List.not_mem_nil
  · exact (htight y w hw).resolve_right id

/-- The search before its first iteration. -/
theorem searching_start (hsource : source < NV) :
    Searching g ignoreWeights source NV (fun _ _ => False)
      ⟨(List.replicate NV ⊤).set source 0, [⟨source, 0⟩]⟩ := by
  have hcost : ∀ v, AStar.costOf ⟨(List.replicate NV ⊤).set source 0, [⟨source, 0⟩]⟩ v =
      if v = source then 0 else ⊤ := by
    intro v
    have hset := costOf_set (s := ⟨List.replicate NV ⊤, []⟩) (v := source) (by simpa using hsource)
      0 [⟨source, 0⟩]
    rw [congrFun hset v, Function.update_apply]
    by_cases hv : v < NV
    · simp [AStar.costOf, hv]
    · simp [AStar.costOf, hv]
  have hfin : ∀ v, AStar.costOf ⟨(List.replicate NV ⊤).set source 0, [⟨source, 0⟩]⟩ v ≠ ⊤ →
      v = source := by
    intro v hv
    by_contra hne
    rw [hcost, if_neg hne] at hv
    exact hv rfl
  refine ⟨by simp, ⟨by rw [hcost, if_pos rfl], fun v c hc => ?_⟩, fun e he => ?_, fun v hv => ?_⟩
  · obtain rfl := hfin v (hc ▸ WithTop.coe_ne_top)
    rw [hcost, if_pos rfl] at hc
    obtain rfl : (0 : ℚ≥0) = c := WithTop.coe_injective hc
    exact .refl
  · rw [List.mem_singleton.mp he, hcost, if_pos rfl]
    exact WithTop.zero_ne_top
  · exact Or.inl ⟨⟨source, 0⟩, List.mem_singleton_self _, (hfin v hv).symm⟩

end Search

/-! ## The runs -/

section Runs

variable {g : Graph} {ignoreWeights : Bool} {source NV : ℕ}

/-- The weights of a graph lie on one grid. -/
theorem exists_onGrid_counted (g : Graph) (ignoreWeights : Bool) :
    ∃ D, 0 < D ∧ ∀ u v w, g.Counted ignoreWeights u v w → OnGrid D w := by
  obtain ⟨D, hD, hgrid⟩ := exists_onGrid
    (((List.range g.nv).flatMap g.outEdges).map fun e => weightOf ignoreWeights e.2)
  refine ⟨D, hD, fun u v c he => ?_⟩
  obtain ⟨w, hw, rfl⟩ := exists_mem_of_counted he
  refine hgrid _ (List.mem_map.mpr ⟨(v, w), List.mem_flatMap.mpr ⟨u, ?_, hw⟩, rfl⟩)
  exact List.mem_range.mpr (g.ends u _ hw).1

/-- The variant of the search: the costs on the grid, then the entries of the queue. -/
def rank (D NV : ℕ) : Config → WithBot ((Fin NV → WithTop ℕ) ×ₗ ℕ)
  | .running s => (toLex (gridRank D NV s.costOf, s.frontier.length) : (Fin NV → WithTop ℕ) ×ₗ ℕ)
  | .returned _ | .outOfBounds => ⊥

/-- What holds of `a_star` at every time. -/
def Holds (g : Graph) (ignoreWeights : Bool) (source NV : ℕ) : Config → Prop
  | .running s => Searching g ignoreWeights source NV (fun _ _ => False) s
  | .returned costSoFar => costSoFar.length = NV ∧
    ∀ v, IsMinWeight (g.Counted ignoreWeights) source v (costSoFar.getD v ⊤)
  | .outOfBounds => False

/-- An entry that is visited lowers the variant. -/
theorem rank_visit {D : ℕ} (hD : 0 < D)
    (hgrid : ∀ u v w, g.Counted ignoreWeights u v w → OnGrid D w)
    {s s' : AStar} {current : WeightedVertex} (hcurrent : current ∈ s.frontier)
    (h : Searching g ignoreWeights source NV (fun _ _ => False) s)
    (h' : Searching g ignoreWeights source NV (fun _ _ => False) s')
    (hlower : Lowers { s with frontier := s.frontier.erase current } s') :
    rank D NV (.running s') < rank D NV (.running s) := by
  refine WithBot.coe_lt_coe.mpr (Prod.Lex.toLex_lt_toLex.mpr ?_)
  rcases hlower with ⟨hle, rfl | ⟨x, hx, hlt⟩⟩
  · refine Or.inr ⟨rfl, ?_⟩
    rw [List.length_erase_of_mem hcurrent]
    exact Nat.sub_lt (List.length_pos_of_mem hcurrent) Nat.one_pos
  · refine Or.inl (gridRank_lt hD ?_ hle (h.length ▸ hx) hlt)
    rintro v c (hc | hc)
    · exact (h.labels.sound v c hc).onGrid hgrid
    · exact (h'.labels.sound v c hc).onGrid hgrid

/-- **One iteration**, when no vertex is the destination. -/
theorem Holds.step (hbounds : ∀ u, ∀ e ∈ g.outEdges u, e.1 < NV) {D : ℕ} (hD : 0 < D)
    (hgrid : ∀ u v w, g.Counted ignoreWeights u v w → OnGrid D w) {c c' : Config}
    (h : Holds g ignoreWeights source NV c) (hstep : Step g (-1) ignoreWeights c c') :
    Holds g ignoreWeights source NV c' ∧ rank D NV c' < rank D NV c := by
  cases hstep with
  | empty hempty => exact ⟨⟨h.length, h.isMinWeight hempty⟩, WithBot.bot_lt_coe _⟩
  | goal _ hgoal => exact absurd hgoal (by omega)
  | visit top _ hvisit =>
    obtain ⟨s', hvisit', hlower, h'⟩ := h.visit hbounds top.1
    obtain rfl := Option.some.inj (hvisit.symm.trans hvisit')
    exact ⟨h', rank_visit hD hgrid top.1 h h' hlower⟩
  | outside top _ hvisit =>
    obtain ⟨s', hvisit', -⟩ := h.visit hbounds top.1
    rw [hvisit] at hvisit'
    cases hvisit'

/-- A queue that is not empty has a least entry. -/
theorem exists_isTop {frontier : List WeightedVertex} (h : frontier ≠ []) :
    ∃ current, IsTop frontier current := by
  have hne : frontier.toFinset.Nonempty := List.toFinset_nonempty_iff frontier |>.mpr h
  obtain ⟨current, hmem, hle⟩ := frontier.toFinset.exists_min_image WeightedVertex.cost hne
  exact ⟨current, List.mem_toFinset.mp hmem, fun e he => hle e (List.mem_toFinset.mpr he)⟩

/-- The loop goes on until it returns. -/
theorem exists_step (g : Graph) (ignoreWeights : Bool) (s : AStar) :
    ∃ c, Step g (-1) ignoreWeights (.running s) c := by
  by_cases hempty : s.frontier = []
  · exact ⟨_, .empty hempty⟩
  · obtain ⟨current, top⟩ := exists_isTop hempty
    have hne : (current.vertex : ℤ) ≠ -1 := by omega
    cases hvisit : visit g ignoreWeights current s with
    | none => exact ⟨_, .outside top hne hvisit⟩
    | some s' => exact ⟨_, .visit top hne hvisit⟩

/-- **`a_star` is correct** when all the vertices are below the length of the array: for every order
of the entries with the same cost it returns the least weights of a path, and all accesses are
within the array. -/
theorem aStar_isMinWeight (hsource : source < NV)
    (hbounds : ∀ u, ∀ e ∈ g.outEdges u, e.1 < NV) :
    EndsIn (Step g (-1) ignoreWeights) (fun c => ∃ costSoFar, c = .returned costSoFar ∧
      costSoFar.length = NV ∧
      ∀ v, IsMinWeight (g.Counted ignoreWeights) source v (costSoFar.getD v ⊤))
      (start NV source) := by
  obtain ⟨D, hD, hgrid⟩ := exists_onGrid_counted g ignoreWeights
  refine endsIn_of_invariant (I := Holds g ignoreWeights source NV) (rank D NV)
    (fun c c' h hstep => h.step hbounds hD hgrid hstep) (fun c h hfinal => ?_) ?_
  · cases c with
    | running s =>
      obtain ⟨c', hstep⟩ := exists_step g ignoreWeights s
      exact absurd hstep (hfinal c')
    | returned costSoFar => exact ⟨costSoFar, rfl, h⟩
    | outOfBounds => exact h.elim
  · rw [start, if_pos hsource]
    exact searching_start hsource

end Runs

/-- The edge from the vertex `0` to the vertex `1`, with `nv` registered vertices. -/
def oneEdge (nv : ℕ) (hnv : 1 < nv) : Graph where
  nv := nv
  name := fun v => 10 * v + 10
  vtype := fun _ => 0
  outEdges := fun u => if u = 0 then [(1, 1)] else []
  ends := by
    intro u e he
    split_ifs at he with hu
    · obtain rfl := List.mem_singleton.mp he
      exact ⟨hu ▸ Nat.zero_lt_of_lt hnv, hnv⟩
    · exact absurd he List.not_mem_nil
  name_inj := fun u _ v _ h => by omega
  active := fun _ _ => rfl

end Stinger

end GfeDriver
