import GfeDriver.Foundation.Relaxation
import GfeDriver.Foundation.Runs
import GfeDriver.Llama.Snapshot

/-!
# The shortest paths of LLAMA

`llama_execute_sssp` makes passes over the nodes, in any order. A pass visits the edges of the nodes
whose distance was lowered by the pass before it. It reads their distances from `G_dist`, writes
lower distances of their neighbours to `G_dist_nxt`, and flags these neighbours in `G_updated_nxt`.
A sweep then copies both arrays and resets the flags, and the loop ends when it finds no flag. The
flag of the root is set in both arrays at first, so that a second pass is made in any case.

The arrays are functions of which the values below `max_nodes` are read.

## Main definitions

* `Snapshot.Stored`, `Snapshot.Travel`: the weighted edges, and those that are visited
* `visitNode`, `sweep`: an iteration over the nodes, and the sweep
* `Pass`: a pass, for any order of the nodes

## Main results

* `BellmanFord.keep`, `BellmanFord.rank_lt`: what a pass keeps and lowers
* `llamaExecuteSssp_isMinWeight`: every run ends with the least weights
-/

namespace GfeDriver

namespace Llama

open Foundation

/-! ## The passes -/

section Program

variable (g : Snapshot) (len : ℕ → ℚ≥0) (isUndirected : Bool)

/-- An edge from `u` to `v`, of the weight `w`. -/
def Snapshot.Stored (u v : ℕ) (w : ℚ≥0) : Prop := ∃ e, (e, v) ∈ g.outEdges u ∧ len e = w

/-- An edge that is visited from `u` to `v`: an undirected graph has its edges in one direction. -/
def Snapshot.Travel (u v : ℕ) (w : ℚ≥0) : Prop :=
  g.Stored len u v w ∨ isUndirected ∧ g.Stored len v u w

/-- The variables of `llama_execute_sssp`. -/
structure Sssp where
  gDist : ℕ → WithTop ℚ≥0
  gDistNxt : ℕ → WithTop ℚ≥0
  gUpdated : ℕ → Bool
  gUpdatedNxt : ℕ → Bool
  fin : Bool

/-- The initialisation. -/
def Sssp.init (root : ℕ) : Sssp where
  gDist := fun t => if t = root then 0 else ⊤
  gDistNxt := fun t => if t = root then 0 else ⊤
  gUpdated := fun t => t = root
  gUpdatedNxt := fun t => t = root
  fin := false

/-- The test-and-set for an edge from `n` to `t`, of the weight `w`. -/
def argmin (n : ℕ) (s : Sssp) (t : ℕ) (w : ℚ≥0) : Sssp :=
  let new := s.gDist n + w
  if s.gDistNxt t > new then
    { s with
      gDistNxt := Function.update s.gDistNxt t new
      gUpdatedNxt := Function.update s.gUpdatedNxt t true }
  else s

/-- The body of the loop over the nodes. -/
def visitNode (s : Sssp) (n : ℕ) : Sssp :=
  if s.gUpdated n then
    let s := (g.outEdges n).foldl (fun s e => argmin n s e.2 (len e.1)) s
    if isUndirected then (g.inEdges n).foldl (fun s e => argmin n s e.2 (len (g.inToOut e.1))) s
    else s
  else s

/-- The second loop over the nodes, and the test for the end. -/
def sweep (s : Sssp) : Sssp where
  gDist := s.gDistNxt
  gDistNxt := s.gDistNxt
  gUpdated := s.gUpdatedNxt
  gUpdatedNxt := fun _ => false
  fin := !(List.range g.maxNodes).any s.gUpdatedNxt

/-- **An iteration** of the `while` loop, when no timeout fires. -/
inductive Pass : Sssp → Sssp → Prop
  | pass {s : Sssp} {order : List ℕ} (hfin : s.fin = false)
      (horder : order.Perm (List.range g.maxNodes)) :
    Pass s (sweep g (order.foldl (visitNode g len isUndirected) s))

end Program

/-! ## The edges of a node -/

section Links

variable {g : Snapshot} {len : ℕ → ℚ≥0} {isUndirected : Bool} {n t : ℕ} {w : ℚ≥0}

/-- The edges that are visited from a node, with their weights. -/
def links (g : Snapshot) (len : ℕ → ℚ≥0) (isUndirected : Bool) (n : ℕ) : List (ℕ × ℚ≥0) :=
  (g.outEdges n).map (fun e => (e.2, len e.1)) ++
    if isUndirected then (g.inEdges n).map fun e => (e.2, len (g.inToOut e.1)) else []

theorem visitNode_eq (s : Sssp) : visitNode g len isUndirected s n =
    if s.gUpdated n then (links g len isUndirected n).foldl (fun s e => argmin n s e.1 e.2) s
    else s := by
  rw [visitNode, links, List.foldl_append, List.foldl_map]
  cases isUndirected with
  | true => simp only [if_true, List.foldl_map]
  | false => rfl

/-- **The edges of a node** are those that a path may take. -/
theorem mem_links (hg : g.WellFormed) :
    (t, w) ∈ links g len isUndirected n ↔ g.Travel len isUndirected n t w := by
  have hout : (t, w) ∈ (g.outEdges n).map (fun e => (e.2, len e.1)) ↔ g.Stored len n t w := by
    rw [List.mem_map]
    constructor
    · rintro ⟨⟨e, v⟩, he, heq⟩
      obtain ⟨rfl, rfl⟩ := Prod.mk.inj heq
      exact ⟨e, he, rfl⟩
    · rintro ⟨e, he, rfl⟩
      exact ⟨(e, t), he, rfl⟩
  have hin : (t, w) ∈ (g.inEdges n).map (fun e => (e.2, len (g.inToOut e.1))) ↔
      g.Stored len t n w := by
    rw [List.mem_map]
    constructor
    · rintro ⟨⟨e, v⟩, he, heq⟩
      obtain ⟨rfl, rfl⟩ := Prod.mk.inj heq
      exact ⟨g.inToOut e, (hg.transposed _ _ _).mpr ⟨e, he, rfl⟩, rfl⟩
    · rintro ⟨e, he, rfl⟩
      obtain ⟨e', he', rfl⟩ := (hg.transposed _ _ _).mp he
      exact ⟨(e', t), he', rfl⟩
  rw [links, List.mem_append, hout, Snapshot.Travel]
  cases isUndirected with
  | true => rw [if_pos rfl, hin, eq_self_iff_true, true_and]
  | false => simp

/-- The ends of the edges are nodes. -/
theorem lt_of_travel (hg : g.WellFormed) (h : g.Travel len isUndirected n t w) :
    t < g.maxNodes := by
  rcases h with ⟨e, he, -⟩ | ⟨-, e, he, -⟩
  · exact (hg.out_lt _ _ _ he).2
  · exact (hg.out_lt _ _ _ he).1

theorem lt_of_walk (hg : g.WellFormed) {root v : ℕ} (hroot : root < g.maxNodes) {c : ℚ≥0}
    (h : Walk (g.Travel len isUndirected) root v c) : v < g.maxNodes := by
  cases h with
  | refl => exact hroot
  | step _ he => exact lt_of_travel hg he

end Links

/-! ## A pass -/

section Invariant

variable {g : Snapshot} {len : ℕ → ℚ≥0} {isUndirected : Bool} {root : ℕ} {s s₀ : Sssp}

/-- **The invariant** before a pass: a node with a distance is flagged, or its edges lower no
distance. -/
structure BellmanFord (g : Snapshot) (len : ℕ → ℚ≥0) (isUndirected : Bool) (root : ℕ)
    (s : Sssp) : Prop where
  labels : Labels (g.Travel len isUndirected) root s.gDist
  same : s.gDistNxt = s.gDist
  flagged : ∀ u, s.gDist u ≠ ⊤ → s.gUpdated u ∨ Tight (g.Travel len isUndirected) s.gDist u
  fin : s.fin → ∀ u < g.maxNodes, s.gUpdated u = false

/-- The state within a pass that started from `s₀`, after the edges in `visited`. -/
structure InPass (g : Snapshot) (len : ℕ → ℚ≥0) (isUndirected : Bool) (root : ℕ) (s₀ : Sssp)
    (visited : ℕ → ℕ × ℚ≥0 → Prop) (s : Sssp) : Prop where
  gDist : s.gDist = s₀.gDist
  gUpdated : s.gUpdated = s₀.gUpdated
  labels : Labels (g.Travel len isUndirected) root s.gDistNxt
  le : ∀ x, s.gDistNxt x ≤ s₀.gDist x
  flagged : ∀ x, s.gDistNxt x < s₀.gDist x → s.gUpdatedNxt x
  flags : ∀ x, s.gUpdatedNxt x → s₀.gUpdatedNxt x ∨ s.gDistNxt x < s₀.gDist x
  relaxed : ∀ n e, visited n e → s.gDistNxt e.1 ≤ s₀.gDist n + e.2

/-- **One edge** of the node `n`. -/
theorem InPass.argmin {visited : ℕ → ℕ × ℚ≥0 → Prop} {n t : ℕ} {w : ℚ≥0}
    (hlabels : Labels (g.Travel len isUndirected) root s₀.gDist)
    (h : InPass g len isUndirected root s₀ visited s) (he : g.Travel len isUndirected n t w) :
    InPass g len isUndirected root s₀ (fun x e => visited x e ∨ x = n ∧ e = (t, w))
      (Llama.argmin n s t w) := by
  unfold Llama.argmin
  simp only [h.gDist]
  by_cases hlt : s.gDistNxt t > s₀.gDist n + w
  · rw [if_pos hlt]
    have hle : Function.update s.gDistNxt t (s₀.gDist n + w) ≤ s.gDistNxt :=
      update_le_self_iff.mpr hlt.le
    refine ⟨rfl, h.gUpdated, h.labels.improve (fun c hc => hlabels.walk_add he hc) hlt,
      fun x => (hle x).trans (h.le x), fun x hx => ?_, fun x hx => ?_, fun x e hxe => ?_⟩
    · dsimp only at hx ⊢
      by_cases hxt : x = t
      · rw [hxt, Function.update_self]
      · rw [Function.update_of_ne hxt] at hx
        rw [Function.update_of_ne hxt]
        exact h.flagged x hx
    · dsimp only at hx ⊢
      by_cases hxt : x = t
      · rw [hxt, Function.update_self]
        exact Or.inr (hlt.trans_le (h.le t))
      · rw [Function.update_of_ne hxt] at hx
        rw [Function.update_of_ne hxt]
        exact h.flags x hx
    · rcases hxe with hxe | ⟨rfl, rfl⟩
      · exact (hle e.1).trans (h.relaxed x e hxe)
      · exact (Function.update_self ..).le
  · rw [if_neg hlt]
    refine ⟨h.gDist, h.gUpdated, h.labels, h.le, h.flagged, h.flags, fun x e hxe => ?_⟩
    rcases hxe with hxe | ⟨rfl, rfl⟩
    · exact h.relaxed x e hxe
    · exact not_lt.mp hlt

/-- **The edges** of the node `n`. -/
theorem InPass.foldl_argmin {visited : ℕ → ℕ × ℚ≥0 → Prop} {n : ℕ} (es : List (ℕ × ℚ≥0))
    (hes : ∀ e ∈ es, g.Travel len isUndirected n e.1 e.2)
    (hlabels : Labels (g.Travel len isUndirected) root s₀.gDist)
    (h : InPass g len isUndirected root s₀ visited s) :
    InPass g len isUndirected root s₀ (fun x e => visited x e ∨ x = n ∧ e ∈ es)
      (es.foldl (fun s e => Llama.argmin n s e.1 e.2) s) := by
  induction es generalizing visited s with
  | nil => exact { h with relaxed := fun x e hxe => h.relaxed x e (hxe.resolve_right (by simp)) }
  | cons e es ih =>
    have hrest := ih (fun e he => hes e (List.mem_cons_of_mem _ he))
      (h.argmin hlabels (hes e List.mem_cons_self))
    refine { hrest with relaxed := fun x e' hxe => hrest.relaxed x e' ?_ }
    rcases hxe with hxe | ⟨rfl, hmem⟩
    · exact Or.inl (Or.inl hxe)
    · rcases List.mem_cons.mp hmem with rfl | hmem
      · exact Or.inl (Or.inr ⟨rfl, rfl⟩)
      · exact Or.inr ⟨rfl, hmem⟩

/-- **The nodes** of a pass: the edges of those that are flagged are visited. -/
theorem InPass.foldl_visitNode (hg : g.WellFormed) {visited : ℕ → ℕ × ℚ≥0 → Prop} (order : List ℕ)
    (hlabels : Labels (g.Travel len isUndirected) root s₀.gDist)
    (h : InPass g len isUndirected root s₀ visited s) :
    InPass g len isUndirected root s₀ (fun x e => visited x e ∨
        x ∈ order ∧ s₀.gUpdated x ∧ e ∈ links g len isUndirected x)
      (order.foldl (visitNode g len isUndirected) s) := by
  induction order generalizing visited s with
  | nil => exact { h with relaxed := fun x e hxe => h.relaxed x e (hxe.resolve_right (by simp)) }
  | cons n order ih =>
    rw [List.foldl_cons, visitNode_eq, h.gUpdated]
    by_cases hn : s₀.gUpdated n
    · rw [if_pos hn]
      have hrest := ih (h.foldl_argmin (links g len isUndirected n)
        (fun e he => (mem_links hg).mp he) hlabels)
      refine { hrest with relaxed := fun x e hxe => hrest.relaxed x e ?_ }
      rcases hxe with hxe | ⟨hmem, hx, he⟩
      · exact Or.inl (Or.inl hxe)
      · rcases List.mem_cons.mp hmem with rfl | hmem
        · exact Or.inl (Or.inr ⟨rfl, he⟩)
        · exact Or.inr ⟨hmem, hx, he⟩
    · rw [if_neg hn]
      have hrest := ih h
      refine { hrest with relaxed := fun x e hxe => hrest.relaxed x e (hxe.imp_right ?_) }
      rintro ⟨hmem, hx, he⟩
      refine ⟨(List.mem_cons.mp hmem).resolve_left ?_, hx, he⟩
      rintro rfl
      exact hn hx

/-- The state before the first node of a pass. -/
theorem BellmanFord.inPass (h : BellmanFord g len isUndirected root s) :
    InPass g len isUndirected root s (fun _ _ => False) s :=
  ⟨rfl, rfl, h.same.symm ▸ h.labels, fun x => (congrFun h.same x).le,
    fun x hx => absurd hx (by rw [h.same]; exact lt_irrefl _), fun _ hx => Or.inl hx,
    fun _ _ hxe => hxe.elim⟩

/-- The rank of the passes that are left when no distance is lowered any more. -/
def passesLeft (g : Snapshot) (s : Sssp) : ℕ :=
  if s.fin then 0 else if (List.range g.maxNodes).any s.gUpdatedNxt then 2 else 1

/-- The variant: the distances on the grid, then the passes left. -/
def Sssp.rank (g : Snapshot) (D : ℕ) (s : Sssp) : (Fin g.maxNodes → WithTop ℕ) ×ₗ ℕ :=
  toLex (gridRank D g.maxNodes s.gDist, passesLeft g s)

/-- A pass that raises no new flag leaves fewer of them. -/
theorem passesLeft_sweep_lt {s₁ : Sssp} (hfin : s.fin = false)
    (hflags : (List.range g.maxNodes).any s₁.gUpdatedNxt = true →
      (List.range g.maxNodes).any s.gUpdatedNxt = true) :
    passesLeft g (sweep g s₁) < passesLeft g s := by
  have hreset : (List.range g.maxNodes).any (sweep g s₁).gUpdatedNxt = false := by
    simp [sweep]
  rw [passesLeft, passesLeft, hreset, hfin, if_neg Bool.false_ne_true, if_neg Bool.false_ne_true]
  cases hany : (List.range g.maxNodes).any s₁.gUpdatedNxt with
  | true =>
    rw [if_pos (hflags hany)]
    split_ifs
    · exact Nat.two_pos
    · exact Nat.one_lt_two
  | false =>
    have hend : (sweep g s₁).fin = true := by simp [sweep, hany]
    rw [if_pos hend]
    split_ifs
    · exact Nat.two_pos
    · exact Nat.one_pos

/-- **One pass** keeps the invariant. -/
theorem BellmanFord.keep (hg : g.WellFormed) (hroot : root < g.maxNodes) {s' : Sssp}
    (h : BellmanFord g len isUndirected root s) (hpass : Pass g len isUndirected s s') :
    BellmanFord g len isUndirected root s' := by
  obtain ⟨-, horder⟩ := hpass
  rename_i order
  have hin := h.inPass.foldl_visitNode hg order h.labels
  set s₁ := order.foldl (visitNode g len isUndirected) s
  refine ⟨hin.labels, rfl, fun u hu => ?_, fun hfin' u hu => ?_⟩
  · by_cases hflag : s₁.gUpdatedNxt u
    · exact Or.inl hflag
    · -- the distance of the node is the one before the pass
      have heq : s₁.gDistNxt u = s.gDist u :=
        le_antisymm (hin.le u) (not_lt.mp fun hlt => hflag (hin.flagged u hlt))
      have hu' : s.gDist u ≠ ⊤ := heq ▸ hu
      refine Or.inr fun v w he => ?_
      show s₁.gDistNxt v ≤ s₁.gDistNxt u + w
      rw [heq]
      rcases h.flagged u hu' with hflag' | htight
      · obtain ⟨c, hc⟩ := WithTop.ne_top_iff_exists.mp hu'
        have hlt := lt_of_walk hg hroot (h.labels.sound u c hc.symm)
        have hmem : u ∈ order := horder.mem_iff.mpr (List.mem_range.mpr hlt)
        exact hin.relaxed u (v, w) (Or.inr ⟨hmem, hflag', (mem_links hg).mpr he⟩)
      · exact (hin.le v).trans (htight v w he)
  · have hnone : (List.range g.maxNodes).any s₁.gUpdatedNxt = false := by
      simpa [sweep] using hfin'
    exact Bool.eq_false_of_not_eq_true
      (List.any_eq_false.mp hnone u (List.mem_range.mpr hu))

/-- **One pass** lowers the variant. -/
theorem BellmanFord.rank_lt (hg : g.WellFormed) (hroot : root < g.maxNodes) {D : ℕ} (hD : 0 < D)
    (hgrid : ∀ u v w, g.Travel len isUndirected u v w → OnGrid D w) {s' : Sssp}
    (h : BellmanFord g len isUndirected root s) (hpass : Pass g len isUndirected s s') :
    s'.rank g D < s.rank g D := by
  obtain ⟨hfin, -⟩ := hpass
  rename_i order
  have hin := h.inPass.foldl_visitNode hg order h.labels
  set s₁ := order.foldl (visitNode g len isUndirected) s
  by_cases hlower : ∃ x, s₁.gDistNxt x < s.gDist x
  · obtain ⟨x, hlt⟩ := hlower
    obtain ⟨c, hc⟩ := WithTop.ne_top_iff_exists.mp (ne_top_of_lt hlt)
    have hx := lt_of_walk hg hroot (hin.labels.sound x c hc.symm)
    refine Prod.Lex.toLex_lt_toLex.mpr (Or.inl (gridRank_lt hD ?_ hin.le hx hlt))
    rintro v c (hc | hc)
    · exact (h.labels.sound v c hc).onGrid hgrid
    · exact (hin.labels.sound v c hc).onGrid hgrid
  · -- the flags that are set now were set before the pass
    have hsame : s₁.gDistNxt = s.gDist :=
      funext fun x => le_antisymm (hin.le x) (not_lt.mp fun hlt => hlower ⟨x, hlt⟩)
    have hflags : (List.range g.maxNodes).any s₁.gUpdatedNxt = true →
        (List.range g.maxNodes).any s.gUpdatedNxt = true := by
      intro hany
      obtain ⟨x, hx, hflag⟩ := List.any_eq_true.mp hany
      exact List.any_eq_true.mpr
        ⟨x, hx, (hin.flags x hflag).resolve_right fun hlt => hlower ⟨x, hlt⟩⟩
    exact Prod.Lex.toLex_lt_toLex.mpr
      (Or.inr ⟨congrArg (gridRank D g.maxNodes) hsame, passesLeft_sweep_lt hfin hflags⟩)

end Invariant

/-! ## Correctness -/

section Correctness

variable {g : Snapshot} {len : ℕ → ℚ≥0} {isUndirected : Bool} {root : ℕ}

theorem exists_onGrid_travel (hg : g.WellFormed) (len : ℕ → ℚ≥0) (isUndirected : Bool) :
    ∃ D, 0 < D ∧ ∀ u v w, g.Travel len isUndirected u v w → OnGrid D w := by
  obtain ⟨D, hD, hgrid⟩ := exists_onGrid
    (((List.range g.maxNodes).flatMap g.outEdges).map fun e => len e.1)
  have hstored : ∀ u v w, g.Stored len u v w → OnGrid D w := by
    rintro u v w ⟨e, he, rfl⟩
    refine hgrid _ (List.mem_map.mpr ⟨(e, v), List.mem_flatMap.mpr ⟨u, ?_, he⟩, rfl⟩)
    exact List.mem_range.mpr (hg.out_lt u v e he).1
  refine ⟨D, hD, fun u v w he => ?_⟩
  rcases he with he | ⟨-, he⟩
  · exact hstored u v w he
  · exact hstored v u w he

theorem bellmanFord_init (root : ℕ) : BellmanFord g len isUndirected root (Sssp.init root) := by
  refine ⟨⟨if_pos rfl, fun v c hc => ?_⟩, rfl, fun u hu => ?_, fun h => ?_⟩
  · by_cases hv : v = root
    · subst hv
      obtain rfl : (0 : ℚ≥0) = c := WithTop.coe_injective ((if_pos rfl).symm.trans hc)
      exact .refl
    · exact absurd ((if_neg hv).symm.trans hc) WithTop.top_ne_coe
  · refine Or.inl (decide_eq_true ?_)
    by_contra hne
    exact hu (if_neg hne)
  · cases h

/-- **The passes are correct**: for every order of the nodes in each of them they end, with the
least weights of a path. -/
theorem llamaExecuteSssp_isMinWeight (hg : g.WellFormed) (hroot : root < g.maxNodes) :
    EndsIn (Pass g len isUndirected)
      (fun s => ∀ v, IsMinWeight (g.Travel len isUndirected) root v (s.gDist v))
      (Sssp.init root) := by
  obtain ⟨D, hD, hgrid⟩ := exists_onGrid_travel hg len isUndirected
  refine endsIn_of_invariant (Sssp.rank g D) (fun s s' h hpass =>
    ⟨h.keep hg hroot hpass, h.rank_lt hg hroot hD hgrid hpass⟩)
    (fun s h hfinal v => ?_) (bellmanFord_init root)
  have hfin : s.fin = true := by
    by_contra hgo
    exact hfinal _ (.pass (Bool.eq_false_of_not_eq_true hgo) (List.Perm.refl _))
  refine h.labels.isMinWeight (fun u hu => (h.flagged u hu).resolve_left ?_) v
  obtain ⟨c, hc⟩ := WithTop.ne_top_iff_exists.mp hu
  rw [h.fin hfin u (lt_of_walk hg hroot (h.labels.sound u c hc.symm))]
  exact Bool.false_ne_true

end Correctness

end Llama

end GfeDriver
