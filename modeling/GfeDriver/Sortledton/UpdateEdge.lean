import GfeDriver.Foundation.Register
import GfeDriver.Foundation.EdgeMap
import GfeDriver.Graph.Edge

/-!
# Updates of an edge in Sortledton

`update_edge_v1` of the Sortledton driver reads the weight of an edge in one transaction, adds its
own weight, and writes the sum in both directions in another one. The transactions are atomic, those
of different calls interleave, and an edge is stored in both directions. The sums of the weights are
exact here.

The edge is a register that the calls read and write back, so that its weight at the end is the sum
of the weights in the chain of writes that it is built on.

## Main definitions

* `Sortledton W`, `readTransaction`, `writeTransaction`: the store and the two transactions
* `Updates`, `System`, `System.run`: calls on one edge, and their interleavings
* `UpdatesKept`, `lost`: all the weights are added; the calls whose weight is not

## Main results

* `Refines.step`: the edge is a register
* `lost_eq_empty_iff`: no call is lost exactly when the calls do not overlap
* `updatesKept_iff`: no weight is missing exactly when those of the lost calls are zero together
-/

namespace GfeDriver

open Foundation

/-- The store: its vertices, and the weights of its edges in each direction. -/
structure Sortledton (W : Type) where
  vertices : Finset ℕ
  edges : Finmap fun _ : ℕ × ℕ => W

namespace Sortledton

section Store

variable {W : Type}

def empty (W : Type) : Sortledton W := ⟨∅, ∅⟩

def hasVertex (ds : Sortledton W) (v : ℕ) : Bool := v ∈ ds.vertices

/-- `get_weight`, which returns false if there is no such edge. -/
def getWeight (ds : Sortledton W) (src dst : ℕ) : Option W := ds.edges.lookup (src, dst)

def insertVertex (ds : Sortledton W) (v : ℕ) : Sortledton W :=
  { ds with vertices := insert v ds.vertices }

def insertOrUpdateEdge (ds : Sortledton W) (src dst : ℕ) (w : W) : Sortledton W :=
  { ds with edges := ds.edges.insert (src, dst) w }

/-- The first transaction of `update_edge_v1`: the edge with the weight that it is given. -/
def readTransaction [Add W] (ds : Sortledton W) (e : WeightedEdge W) : WeightedEdge W :=
  if ds.hasVertex e.source && ds.hasVertex e.destination then
    match ds.getWeight e.source e.destination with
    | some w => { e with weight := e.weight + w }
    | none => e
  else e

/-- The second transaction of `update_edge_v1`. -/
def writeTransaction (ds : Sortledton W) (e : WeightedEdge W) : Sortledton W :=
  (((ds.insertVertex e.source).insertVertex e.destination).insertOrUpdateEdge e.destination
    e.source e.weight).insertOrUpdateEdge e.source e.destination e.weight

/-- The weight of an edge, `0` when it is absent. -/
def weight [Zero W] (ds : Sortledton W) (a b : ℕ) : W := (ds.getWeight a b).getD 0

/-- An edge is stored in both directions, and between vertices. -/
structure Undirected (ds : Sortledton W) : Prop where
  symm : ∀ a b, ds.getWeight a b = ds.getWeight b a
  ends : ∀ a b w, ds.getWeight a b = some w → a ∈ ds.vertices ∧ b ∈ ds.vertices

theorem undirected_empty : (empty W).Undirected :=
  ⟨fun _ _ => rfl, fun _ _ _ h => by simp [empty, getWeight] at h⟩

theorem getWeight_writeTransaction (ds : Sortledton W) (e : WeightedEdge W) (a b : ℕ) :
    (ds.writeTransaction e).getWeight a b =
      if (a = e.source ∧ b = e.destination) ∨ (a = e.destination ∧ b = e.source) then
        some e.weight
      else ds.getWeight a b :=
  (lookup_insert_pair ds.edges e.destination e.source e.weight a b).trans
    (if_congr or_comm rfl rfl)

theorem mem_vertices_writeTransaction (ds : Sortledton W) (e : WeightedEdge W) (v : ℕ) :
    v ∈ (ds.writeTransaction e).vertices ↔
      v = e.destination ∨ v = e.source ∨ v ∈ ds.vertices := by
  simp only [writeTransaction, insertOrUpdateEdge, insertVertex, Finset.mem_insert]

/-- **The write** keeps both directions equal. -/
theorem Undirected.writeTransaction {ds : Sortledton W} (h : ds.Undirected) (e : WeightedEdge W) :
    (ds.writeTransaction e).Undirected := by
  refine ⟨symm_of_write h.symm (ds.getWeight_writeTransaction e), fun a b w hw => ?_⟩
  · rw [getWeight_writeTransaction] at hw
    rw [mem_vertices_writeTransaction, mem_vertices_writeTransaction]
    split at hw
    · tauto
    · have := h.ends a b w hw
      tauto

/-- **The read** adds the weight that the store has. -/
theorem Undirected.readTransaction [AddZeroClass W] {ds : Sortledton W} (h : ds.Undirected)
    (e : WeightedEdge W) :
    ds.readTransaction e =
      { e with weight := e.weight + ds.weight e.source e.destination } := by
  cases hw : ds.getWeight e.source e.destination with
  | none =>
    simp only [Sortledton.readTransaction, weight, hw, Option.getD_none, add_zero, ite_self]
  | some w =>
    obtain ⟨hsrc, hdst⟩ := h.ends _ _ w hw
    simp only [Sortledton.readTransaction, hasVertex, hsrc, hdst, decide_true, Bool.and_self,
      if_true, weight, hw, Option.getD_some]

end Store

/-! ## Calls -/

/-- The calls of `update_edge_v1` on the edge between two vertices, in one or the other
direction. -/
structure Updates (ι W : Type) where
  a : ℕ
  b : ℕ
  reversed : ι → Bool
  weight : ι → W

/-- The argument of a call. -/
def Updates.edge {ι W : Type} (u : Updates ι W) (t : ι) : WeightedEdge W :=
  if u.reversed t then ⟨u.b, u.a, u.weight t⟩ else ⟨u.a, u.b, u.weight t⟩

theorem Updates.weight_edge {ι W : Type} (u : Updates ι W) (t : ι) :
    (u.edge t).weight = u.weight t := by
  cases h : u.reversed t <;> simp [edge, h]

theorem Updates.ends_edge {ι W : Type} (u : Updates ι W) (t : ι) :
    ((u.edge t).source = u.a ∧ (u.edge t).destination = u.b) ∨
      ((u.edge t).source = u.b ∧ (u.edge t).destination = u.a) := by
  cases h : u.reversed t <;> simp [edge, h]

/-- The store, and what each call has done: after its first transaction it has an edge to write. -/
structure System (ι W : Type) where
  ds : Sortledton W
  stage : ι → Stage (WeightedEdge W)

namespace System

variable {ι W : Type} [DecidableEq ι]

/-- The store before the calls. -/
def init (ι : Type) (ds : Sortledton W) : System ι W := ⟨ds, fun _ => .start⟩

/-- The next transaction of a call. -/
def step [Add W] (u : Updates ι W) (s : System ι W) (t : ι) : System ι W :=
  match s.stage t with
  | .start =>
    { s with stage := Function.update s.stage t (.read (s.ds.readTransaction (u.edge t))) }
  | .read e => ⟨s.ds.writeTransaction e, Function.update s.stage t .returned⟩
  | .returned => s

/-- The transactions in an order. -/
def run [Add W] (u : Updates ι W) (s : System ι W) (order : List ι) : System ι W :=
  order.foldl (step u) s

end System

/-! ## The edge is a register -/

section Refines

variable {ι W : Type}

theorem Undirected.weight_comm [Zero W] {ds : Sortledton W} (h : ds.Undirected) (a b : ℕ) :
    ds.weight a b = ds.weight b a := congrArg (Option.getD · 0) (h.symm a b)

theorem Undirected.weight_edge [Zero W] {ds : Sortledton W} (h : ds.Undirected)
    (u : Updates ι W) (t : ι) :
    ds.weight (u.edge t).source (u.edge t).destination = ds.weight u.a u.b := by
  rcases u.ends_edge t with ⟨hsrc, hdst⟩ | ⟨hsrc, hdst⟩
  · rw [hsrc, hdst]
  · rw [hsrc, hdst, h.weight_comm]

/-- The argument of a call with what it has read. -/
def Updates.sum [Add W] (u : Updates ι W) (t : ι) (w : W) : WeightedEdge W :=
  { u.edge t with weight := u.weight t + w }

/-- **The system as a register**: its value is the weight of the edge, and a call that has read a
weight is about to write the sum of this weight and its own. -/
structure Refines [Add W] [Zero W] (u : Updates ι W) (s : System ι W) (r : Register ι W) :
    Prop where
  undirected : s.ds.Undirected
  weight : s.ds.weight u.a u.b = r.value
  stage : ∀ t, s.stage t = (r.stage t).map (u.sum t)

/-- The register's update of a call. -/
def Updates.add [Add W] (u : Updates ι W) (t : ι) (w : W) : W := u.weight t + w

theorem weight_writeTransaction_sum [AddZeroClass W] (ds : Sortledton W) (u : Updates ι W) (t : ι)
    (w : W) : (ds.writeTransaction (u.sum t w)).weight u.a u.b = u.add t w := by
  have hends : (u.a = (u.sum t w).source ∧ u.b = (u.sum t w).destination) ∨
      (u.a = (u.sum t w).destination ∧ u.b = (u.sum t w).source) := by
    rcases u.ends_edge t with ⟨hsrc, hdst⟩ | ⟨hsrc, hdst⟩
    · exact Or.inl ⟨hsrc.symm, hdst.symm⟩
    · exact Or.inr ⟨hdst.symm, hsrc.symm⟩
  rw [Sortledton.weight, getWeight_writeTransaction, if_pos hends]
  rfl

theorem Undirected.refines_init [AddZeroClass W] {ds : Sortledton W} (h : ds.Undirected)
    (u : Updates ι W) : Refines u (System.init ι ds) (Register.init ι (ds.weight u.a u.b)) :=
  ⟨h, rfl, fun _ => rfl⟩

variable [DecidableEq ι]

/-- **One transaction** is one step of the register. -/
theorem Refines.step [AddZeroClass W] {u : Updates ι W} {s : System ι W} {r : Register ι W}
    (h : Refines u s r) (t : ι) : Refines u (s.step u t) (r.step u.add t) := by
  have hstage := h.stage t
  cases hr : r.stage t with
  | start =>
    rw [hr] at hstage
    have hread : s.ds.readTransaction (u.edge t) = u.sum t r.value := by
      rw [h.undirected.readTransaction, h.undirected.weight_edge u t, u.weight_edge, h.weight]
      rfl
    simp only [System.step, hstage, Stage.map, Register.step, hr]
    refine ⟨h.undirected, h.weight, fun t' => ?_⟩
    by_cases ht : t' = t
    · subst ht
      simp only [Function.update_self, hread, Stage.map]
    · simp only [Function.update_of_ne ht, h.stage]
  | read w =>
    rw [hr] at hstage
    simp only [System.step, hstage, Stage.map, Register.step, hr]
    refine ⟨h.undirected.writeTransaction _, weight_writeTransaction_sum s.ds u t w, fun t' => ?_⟩
    by_cases ht : t' = t
    · subst ht
      simp only [Function.update_self, Stage.map]
    · simp only [Function.update_of_ne ht, h.stage]
  | returned =>
    rw [hr] at hstage
    simp only [System.step, hstage, Stage.map, Register.step, hr]
    exact h

theorem Refines.run [AddZeroClass W] {u : Updates ι W} {s : System ι W} {r : Register ι W}
    (h : Refines u s r) (order : List ι) : Refines u (s.run u order) (r.run u.add order) := by
  induction order generalizing s r with
  | nil => exact h
  | cons t order ih => exact ih (h.step t)

end Refines

/-- An order of the transactions of all calls: each call has two. -/
structure Interleaving (ι : Type) [DecidableEq ι] where
  order : List ι
  twice : ∀ t, order.count t = 2

section Property

variable {ι W : Type} [DecidableEq ι] [Fintype ι]

/-- **The updates are kept**: all calls have returned, and the weight of the edge in both directions
is the old one and those of all calls. -/
def UpdatesKept [AddCommMonoid W] (u : Updates ι W) (ds : Sortledton W) (order : Interleaving ι) :
    Prop :=
  let s := (System.init ι ds).run u order.order
  (∀ t, s.stage t = .returned) ∧ s.ds.weight u.a u.b = ds.weight u.a u.b + ∑ t, u.weight t ∧
    s.ds.weight u.b u.a = ds.weight u.b u.a + ∑ t, u.weight t

/-- **The lost calls**: their write is not in the chain that the last write is built on. -/
def lost (order : Interleaving ι) : Finset ι := Finset.univ.filter (· ∉ chain order.order)

end Property

/-! ## What the edge has in the end -/

section Final

variable {ι W : Type} [DecidableEq ι] [Fintype ι] {ds : Sortledton W}

omit [Fintype ι] in
theorem returned_run [AddZeroClass W] (hds : ds.Undirected) (u : Updates ι W)
    (order : Interleaving ι) (t : ι) :
    ((System.init ι ds).run u order.order).stage t = .returned := by
  have hsteps := Register.steps_run u.add (Register.init ι (ds.weight u.a u.b)) order.order t
  rw [order.twice t] at hsteps
  rw [((hds.refines_init u).run order.order).stage t, Stage.eq_returned hsteps]
  rfl

omit [Fintype ι] in
theorem foldr_add [AddCommMonoid W] (u : Updates ι W) (w : W) {calls : List ι}
    (h : calls.Nodup) : calls.foldr u.add w = w + ∑ t ∈ calls.toFinset, u.weight t := by
  induction calls with
  | nil => simp
  | cons t calls ih =>
    obtain ⟨ht, hcalls⟩ := List.nodup_cons.mp h
    rw [List.foldr_cons, ih hcalls, List.toFinset_cons,
      Finset.sum_insert (fun hmem => ht (List.mem_toFinset.mp hmem)), Updates.add, add_left_comm]

/-- **The weight in the end** misses the weights of the lost calls. -/
theorem weight_run_add [AddCommMonoid W] (hds : ds.Undirected) (u : Updates ι W)
    (order : Interleaving ι) :
    ((System.init ι ds).run u order.order).ds.weight u.a u.b + ∑ t ∈ lost order, u.weight t =
      ds.weight u.a u.b + ∑ t, u.weight t := by
  have hkept : (chain order.order).toFinset = Finset.univ.filter (· ∈ chain order.order) := by
    ext t
    simp only [List.mem_toFinset, Finset.mem_filter, Finset.mem_univ, true_and]
  rw [((hds.refines_init u).run order.order).weight, run_value, foldr_add u _ (nodup_chain _),
    add_assoc, hkept, lost, Finset.sum_filter_add_sum_filter_not]

/-- **No call is lost** exactly when the calls do not overlap: each commits its write before the
next one reads. -/
theorem lost_eq_empty_iff (order : Interleaving ι) :
    lost order = ∅ ↔ ∃ calls : List ι, order.order = calls.flatMap fun t => [t, t] := by
  rw [lost, Finset.filter_eq_empty_iff]
  simp only [Finset.mem_univ, forall_const, not_not]
  refine ⟨fun hmem => exists_serial order.twice @hmem, fun ⟨calls, horder⟩ t => ?_⟩
  have hcount : ∀ t, calls.count t = 1 := by
    intro t
    have htwice := order.twice t
    rw [horder, count_flatMap_pair] at htwice
    omega
  have hnodup : calls.Nodup := List.nodup_iff_count_le_one.mpr fun t => (hcount t).le
  rw [horder, chain_serial hnodup, List.mem_reverse, ← List.count_pos_iff, hcount t]
  exact Nat.one_pos

/-- **The updates are kept** exactly when the weights of the lost calls are zero together. -/
theorem updatesKept_iff [AddCancelCommMonoid W] (hds : ds.Undirected) (u : Updates ι W)
    (order : Interleaving ι) : UpdatesKept u ds order ↔ ∑ t ∈ lost order, u.weight t = 0 := by
  have hsum := weight_run_add hds u order
  have hundirected := ((hds.refines_init u).run order.order).undirected
  have hkept : ((System.init ι ds).run u order.order).ds.weight u.a u.b =
      ds.weight u.a u.b + ∑ t, u.weight t ↔ ∑ t ∈ lost order, u.weight t = 0 := by
    rw [← hsum]
    exact left_eq_add
  simp only [UpdatesKept, hundirected.weight_comm u.b u.a, hds.weight_comm u.b u.a, and_self,
    hkept]
  exact and_iff_right fun t => returned_run hds u order t

/-- The theorem at two calls that do not overlap. -/
theorem updatesKept_serial :
    UpdatesKept ⟨0, 1, id, fun t => if t then 5 else 7⟩ (empty ℤ)
      ⟨[true, true, false, false], by decide⟩ :=
  (updatesKept_iff undirected_empty _ _).mpr (by decide)

/-- Two calls that both read before the other one writes: the weight of one of them is missing. -/
theorem not_updatesKept_overlap :
    ¬ UpdatesKept ⟨0, 1, id, fun t => if t then 5 else 7⟩ (empty ℤ)
      ⟨[true, false, true, false], by decide⟩ :=
  fun h => absurd h.2.1 (by decide)

end Final

end Sortledton

end GfeDriver
