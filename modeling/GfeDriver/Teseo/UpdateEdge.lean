import GfeDriver.Foundation.Cell
import GfeDriver.Foundation.EdgeMap
import GfeDriver.Sortledton.UpdateEdge

/-!
# Updates of an edge in Teseo

`update_edge_v1` of the Teseo driver reads the weight of an edge, removes the edge when it has one,
and inserts it again with the sum of the weights, each in a transaction of its own. When a
transaction fails, the call starts again from the read. So the weight that it has removed is lost
when its insertion fails, also for a single client whose insertion hits a conflict, and so is a
weight that another call has inserted after the read.

The transactions are atomic, those of different calls interleave, and a transaction may hit a
conflict, which leaves the store as it was. `get_weight` answers the greatest double for a missing
edge. Only undirected graphs are supported: an edge is stored in both directions.

## Main definitions

* `Store W`, `insertVertex`, `insertEdge`, `removeEdge`: the store, which fails with a logical error
* `TeseoDriver.getWeight`: the driver's query
* `System`, `System.step`, `System.run`: the calls on one edge, and their interleavings
* `attempts`: the steps of a schedule that concern the edge
* `UpdatesKept`: all the weights are added

## Main results

* `Refines.step`: the edge is an entry that is removed and inserted again
* `updatesKept_iff_lostWeight`: no weight is missing exactly when the weight that is lost is zero
* `nothing_lost_iff_clean`: nothing is lost exactly when every removal takes away what the call has
  read and is followed by its insertion
-/

namespace GfeDriver

namespace Teseo

open Foundation
open Sortledton (Updates)

/-! ## The store -/

/-- The store: its vertices, and the weights of its edges in each direction. -/
structure Store (W : Type) where
  vertices : Finset ℕ
  edges : Finmap fun _ : ℕ × ℕ => W

namespace Store

variable {W : Type}

/-- `insert_vertex`, which fails when the vertex exists. -/
def insertVertex (s : Store W) (v : ℕ) : Option (Store W) :=
  if v ∈ s.vertices then none else some { s with vertices := insert v s.vertices }

/-- `get_weight`, which fails when the edge does not exist. -/
def getWeight (s : Store W) (source destination : ℕ) : Option W :=
  s.edges.lookup (source, destination)

/-- `insert_edge`, which fails when a vertex does not exist, and when the edge does. -/
def insertEdge (s : Store W) (source destination : ℕ) (w : W) : Option (Store W) :=
  if source ∉ s.vertices ∨ destination ∉ s.vertices ∨ (source, destination) ∈ s.edges then none
  else some { s with
    edges := (s.edges.insert (source, destination) w).insert (destination, source) w }

/-- `remove_edge`, which fails when the edge does not exist. -/
def removeEdge (s : Store W) (source destination : ℕ) : Option (Store W) :=
  if (source, destination) ∈ s.edges then
    some { s with edges := (s.edges.erase (source, destination)).erase (destination, source) }
  else none

/-- An edge is stored in both directions. -/
def Symmetric (s : Store W) : Prop := ∀ a b, s.getWeight a b = s.getWeight b a

/-- The weight of an edge, `0` when it is absent. -/
def weight [Zero W] (s : Store W) (a b : ℕ) : W := (s.getWeight a b).getD 0

end Store

/-- `TeseoDriver::get_weight`: the greatest double `max` when the edge does not exist. -/
def TeseoDriver.getWeight {W : Type} (max : W) (s : Store W) (source destination : ℕ) : W :=
  (s.getWeight source destination).getD max

/-! ## Calls -/

/-- What a call of `update_edge_v1` does next: enter a vertex in the map of the known ones, or add
it to the store; read the weight; remove the edge, or insert it with its new weight; or nothing. -/
inductive UpdateStage (W : Type)
  | source
  | addSource
  | destination
  | addDestination
  | read
  | remove (weight : W)
  | insert (weight : W)
  | returned
  deriving DecidableEq

/-- The store, the map of the known vertices, which all calls share, and the calls. -/
structure System (ι W : Type) where
  ds : Store W
  known : Finset ℕ
  stage : ι → UpdateStage W

namespace System

variable {ι W : Type} [DecidableEq ι]

/-- The calls before their first step. -/
def init (ι : Type) (ds : Store W) (known : Finset ℕ) : System ι W := ⟨ds, known, fun _ => .source⟩

/-- The call `t` goes on to `p`. -/
def goto (s : System ι W) (t : ι) (p : UpdateStage W) : System ι W :=
  { s with stage := Function.update s.stage t p }

/-- `add_vertex`, whose failure is not noticed. -/
def addVertex (ds : Store W) (v : ℕ) (conflict : Bool) : Store W :=
  if conflict then ds else (ds.insertVertex v).getD ds

/-- The next step of a call. Its transaction hits a conflict when the flag is set, and a call whose
transaction fails starts again from the read. -/
def step [Add W] [DecidableEq W] (max : W) (u : Updates ι W) (s : System ι W) (t : ι × Bool) :
    System ι W :=
  let e := u.edge t.1
  match s.stage t.1 with
  | .source =>
    if e.source ∈ s.known then s.goto t.1 .destination
    else { s with known := insert e.source s.known }.goto t.1 .addSource
  | .addSource => { s with ds := addVertex s.ds e.source t.2 }.goto t.1 .destination
  | .destination =>
    if e.destination ∈ s.known then s.goto t.1 .read
    else { s with known := insert e.destination s.known }.goto t.1 .addDestination
  | .addDestination => { s with ds := addVertex s.ds e.destination t.2 }.goto t.1 .read
  | .read =>
    let current := TeseoDriver.getWeight max s.ds e.source e.destination
    if current ≠ max then s.goto t.1 (.remove (e.weight + current))
    else s.goto t.1 (.insert e.weight)
  | .remove weight =>
    match if t.2 then none else s.ds.removeEdge e.source e.destination with
    | some ds => { s with ds := ds }.goto t.1 (.insert weight)
    | none => s.goto t.1 .read
  | .insert weight =>
    match if t.2 then none else s.ds.insertEdge e.source e.destination weight with
    | some ds => { s with ds := ds }.goto t.1 .returned
    | none => s.goto t.1 .read
  | .returned => s

/-- The steps of a schedule. -/
def run [Add W] [DecidableEq W] (max : W) (u : Updates ι W) (s : System ι W)
    (schedule : List (ι × Bool)) : System ι W :=
  schedule.foldl (step max u) s

/-- The step of a schedule as a step of the edge: the vertices do not concern it, and an insertion
without them fails as for a conflict. -/
def attempt (u : Updates ι W) (s : System ι W) (t : ι × Bool) : Option (ι × Bool) :=
  match s.stage t.1 with
  | .source | .addSource | .destination | .addDestination => none
  | .insert _ =>
    some (t.1, t.2 || decide ((u.edge t.1).source ∉ s.ds.vertices ∨
      (u.edge t.1).destination ∉ s.ds.vertices))
  | .read | .remove _ | .returned => some t

/-- The steps of a schedule that concern the edge. -/
def attempts [Add W] [DecidableEq W] (max : W) (u : Updates ι W) :
    System ι W → List (ι × Bool) → List (ι × Bool)
  | _, [] => []
  | s, t :: schedule => (s.attempt u t).toList ++ attempts max u (s.step max u t) schedule

end System

/-! ## The edge is an entry -/

namespace Store

variable {W : Type} {ds ds' : Store W} {src dst : ℕ}

theorem getWeight_insertEdge {w : W} (h : ds.insertEdge src dst w = some ds') (a b : ℕ) :
    ds'.getWeight a b =
      if (a = src ∧ b = dst) ∨ (a = dst ∧ b = src) then some w else ds.getWeight a b := by
  unfold insertEdge at h
  split_ifs at h
  obtain rfl := Option.some.inj h
  exact lookup_insert_pair ds.edges src dst w a b

theorem getWeight_removeEdge (h : ds.removeEdge src dst = some ds') (a b : ℕ) :
    ds'.getWeight a b =
      if (a = src ∧ b = dst) ∨ (a = dst ∧ b = src) then none else ds.getWeight a b := by
  unfold removeEdge at h
  split_ifs at h
  obtain rfl := Option.some.inj h
  exact lookup_erase_pair ds.edges src dst a b

/-- The writes are symmetric. -/
theorem Symmetric.of_write {r : Option W} (h : ds.Symmetric)
    (hwrite : ∀ a b, ds'.getWeight a b =
      if (a = src ∧ b = dst) ∨ (a = dst ∧ b = src) then r else ds.getWeight a b) :
    ds'.Symmetric :=
  symm_of_write h hwrite

/-- A store with one edge. -/
def single (a b : ℕ) (w : W) : Store W :=
  ⟨{a, b}, ((∅ : Finmap fun _ : ℕ × ℕ => W).insert (a, b) w).insert (b, a) w⟩

theorem symmetric_single (a b : ℕ) (w : W) : (single a b w).Symmetric := by
  have hinsert : (⟨{a, b}, ∅⟩ : Store W).insertEdge a b w = some (single a b w) := by
    simp [insertEdge, single, Finmap.notMem_empty]
  have hempty : (⟨{a, b}, ∅⟩ : Store W).Symmetric := fun _ _ => rfl
  exact hempty.of_write (getWeight_insertEdge hinsert)

/-- A missing edge and a stored one. -/
theorem removeEdge_eq_none : ds.removeEdge src dst = none ↔ ds.getWeight src dst = none := by
  rw [removeEdge, getWeight, Finmap.lookup_eq_none]
  split_ifs with h <;> simp [h]

theorem insertEdge_eq_none {w : W} : ds.insertEdge src dst w = none ↔
    (src ∉ ds.vertices ∨ dst ∉ ds.vertices) ∨ (ds.getWeight src dst).isSome := by
  rw [insertEdge, getWeight, Finmap.lookup_isSome, or_assoc]
  split_ifs with h <;> simp [h]

end Store

namespace System

variable {ι W : Type} [DecidableEq ι]

theorem getWeight_addVertex (ds : Store W) (v : ℕ) (conflict : Bool) (a b : ℕ) :
    (addVertex ds v conflict).getWeight a b = ds.getWeight a b := by
  unfold addVertex Store.insertVertex
  split_ifs <;> rfl

end System

section Refines

variable {ι W : Type} [AddCommMonoid W]

/-- A stage of a call and a stage of a client: what the call is about to insert is its weight and
what it has read. -/
def Matches (w : W) : UpdateStage W → CellStage W → Prop
  | .remove weight, .remove value => weight = w + value
  | .insert weight, .insert value => weight = w + value.getD 0
  | .returned, .returned => True
  | .source, .get | .addSource, .get | .destination, .get | .addDestination, .get | .read, .get =>
    True
  | _, _ => False

/-- **The edge as an entry** of the store. -/
structure Refines (u : Updates ι W) (s : System ι W) (c : Cell ι W) : Prop where
  symmetric : s.ds.Symmetric
  entry : s.ds.getWeight u.a u.b = c.entry
  stage : ∀ t, Matches (u.weight t) (s.stage t) (c.stage t)

omit [AddCommMonoid W] in
/-- The weight of the edge, read in the direction of a call. -/
theorem getWeight_edge {ds : Store W} (h : ds.Symmetric) (u : Updates ι W) (t : ι) :
    ds.getWeight (u.edge t).source (u.edge t).destination = ds.getWeight u.a u.b := by
  rcases u.ends_edge t with ⟨hsrc, hdst⟩ | ⟨hsrc, hdst⟩
  · rw [hsrc, hdst]
  · rw [hsrc, hdst, h u.b u.a]

omit [AddCommMonoid W] in
/-- The ends of the edge of a call. -/
theorem ends_of_edge (u : Updates ι W) (t : ι) :
    (u.a = (u.edge t).source ∧ u.b = (u.edge t).destination) ∨
      (u.a = (u.edge t).destination ∧ u.b = (u.edge t).source) := by
  rcases u.ends_edge t with ⟨hsrc, hdst⟩ | ⟨hsrc, hdst⟩
  · exact Or.inl ⟨hsrc.symm, hdst.symm⟩
  · exact Or.inr ⟨hdst.symm, hsrc.symm⟩

variable [DecidableEq ι] {u : Updates ι W} {s : System ι W} {c : Cell ι W} {t : ι}

/-- A call and its client go on. -/
theorem Refines.goto (h : Refines u s c) {s' : System ι W} {entry : Option W}
    {p : UpdateStage W} {q : CellStage W} (hsymm : s'.ds.Symmetric)
    (hentry : s'.ds.getWeight u.a u.b = entry) (hstage : s'.stage = s.stage)
    (hp : Matches (u.weight t) p q) :
    Refines u (s'.goto t p) ⟨entry, Function.update c.stage t q⟩ := by
  refine ⟨hsymm, hentry, fun t' => ?_⟩
  simp only [System.goto, hstage]
  by_cases ht : t' = t
  · subst ht
    simpa using hp
  · simpa [Function.update_of_ne ht] using h.stage t'

/-- A call goes on, and its client is about to read. -/
theorem Refines.wait (h : Refines u s c) {s' : System ι W} {p : UpdateStage W}
    (hds : ∀ a b, s'.ds.getWeight a b = s.ds.getWeight a b) (hstage : s'.stage = s.stage)
    (hget : c.stage t = .get) (hp : Matches (u.weight t) p .get) : Refines u (s'.goto t p) c := by
  have hgoto : Refines u (s'.goto t p) ⟨c.entry, Function.update c.stage t .get⟩ :=
    h.goto (fun a b => by rw [hds, hds, h.symmetric a b]) ((hds _ _).trans h.entry) hstage hp
  rwa [← hget, Function.update_eq_self] at hgoto

/-- The entry that a client sees is the weight that is not the greatest double. -/
abbrev seen [DecidableEq W] (max : W) (w : W) : Bool := decide (w ≠ max)

/-- The client of a call that is before its read. -/
theorem Matches.get {w : W} {q : CellStage W} {p : UpdateStage W} (h : Matches w p q)
    (hp : Matches w p .get) : q = .get := by
  cases p <;> cases q <;> first | rfl | exact h.elim | exact hp.elim

theorem Matches.of_remove {w weight : W} {q : CellStage W} (h : Matches w (.remove weight) q) :
    ∃ value, q = .remove value ∧ weight = w + value := by
  cases q <;> first | exact ⟨_, rfl, h⟩ | exact h.elim

theorem Matches.of_insert {w weight : W} {q : CellStage W} (h : Matches w (.insert weight) q) :
    ∃ value, q = .insert value ∧ weight = w + value.getD 0 := by
  cases q <;> first | exact ⟨_, rfl, h⟩ | exact h.elim

theorem Matches.of_returned {w : W} {q : CellStage W} (h : Matches w .returned q) :
    q = .returned := by
  cases q <;> first | rfl | exact h.elim

section Step

variable [DecidableEq W] (max : W) {t : ι × Bool} {weight : W}

/-- The reads of a call and of its client. -/
theorem Refines.step_read (h : Refines u s c) (hstage : s.stage t.1 = .read) :
    Refines u (s.step max u t) (c.step (Cell.addUpd u.weight) (seen max) t) := by
  have hedge := getWeight_edge h.symmetric u t.1
  have hmatch := h.stage t.1
  rw [hstage] at hmatch
  have hget := hmatch.get trivial
  simp only [System.step, hstage, Cell.step, hget, TeseoDriver.getWeight, hedge, h.entry]
  cases hentry : c.entry with
  | none =>
    simp only [Option.getD_none, ne_eq, not_true_eq_false, if_false, Option.filter_none]
    exact h.goto h.symmetric (h.entry.trans hentry) rfl (by simp [Matches, u.weight_edge])
  | some w =>
    by_cases hw : w = max
    · simp only [Option.getD_some, hw, ne_eq, not_true_eq_false, if_false, Option.filter_some,
        seen, decide_false, Bool.false_eq_true]
      exact h.goto h.symmetric (h.entry.trans (hentry.trans (hw ▸ rfl))) rfl
        (by simp [Matches, u.weight_edge])
    · simp only [Option.getD_some, hw, ne_eq, not_false_eq_true, if_true, Option.filter_some,
        seen, decide_true]
      exact h.goto h.symmetric (h.entry.trans hentry) rfl (by simp [Matches, u.weight_edge])

/-- The removals. They fail together: on a conflict, and when the edge is not stored. -/
theorem Refines.step_remove (h : Refines u s c) (hstage : s.stage t.1 = .remove weight) :
    Refines u (s.step max u t) (c.step (Cell.addUpd u.weight) (seen max) t) := by
  have hedge := getWeight_edge h.symmetric u t.1
  have hmatch := h.stage t.1
  rw [hstage] at hmatch
  obtain ⟨w, hremove, hweight⟩ := hmatch.of_remove
  simp only [System.step, hstage, Cell.step, hremove]
  cases hds : (if t.2 then none
      else s.ds.removeEdge (u.edge t.1).source (u.edge t.1).destination) with
  | none =>
    have hfail : (t.2 || c.entry.isNone) = true := by
      cases hconflict : t.2 with
      | true => rfl
      | false =>
        rw [hconflict, if_neg Bool.false_ne_true, Store.removeEdge_eq_none, hedge, h.entry] at hds
        simp [hds]
    rw [if_pos hfail]
    exact h.goto h.symmetric h.entry rfl trivial
  | some ds =>
    obtain ⟨hconflict, hds⟩ := Option.ite_none_left_eq_some.mp hds
    have hsome : c.entry.isNone = false := by
      rw [← h.entry, ← hedge, Option.isNone_eq_false_iff, ← Option.ne_none_iff_isSome]
      rw [Ne, ← Store.removeEdge_eq_none, hds]
      exact Option.some_ne_none _
    have hwrite := Store.getWeight_removeEdge hds
    rw [Bool.eq_false_of_not_eq_true hconflict, hsome, Bool.or_false, if_neg Bool.false_ne_true]
    refine h.goto (h.symmetric.of_write hwrite) ?_ rfl hweight
    rw [hwrite, if_pos (ends_of_edge u t.1)]

/-- The insertions. They fail together: on a conflict, when an end of the edge is no vertex, which
the client sees as a conflict, and when the edge is stored. -/
theorem Refines.step_insert (h : Refines u s c) (hstage : s.stage t.1 = .insert weight) :
    Refines u (s.step max u t)
      (c.step (Cell.addUpd u.weight) (seen max) (t.1, t.2 || decide
        ((u.edge t.1).source ∉ s.ds.vertices ∨ (u.edge t.1).destination ∉ s.ds.vertices))) := by
  have hedge := getWeight_edge h.symmetric u t.1
  have hmatch := h.stage t.1
  rw [hstage] at hmatch
  obtain ⟨r, hinsert, hweight⟩ := hmatch.of_insert
  simp only [System.step, hstage, Cell.step, hinsert]
  cases hds : (if t.2 then none
      else s.ds.insertEdge (u.edge t.1).source (u.edge t.1).destination weight) with
  | none =>
    have hfail : ((t.2 || decide ((u.edge t.1).source ∉ s.ds.vertices ∨
        (u.edge t.1).destination ∉ s.ds.vertices)) || c.entry.isSome) = true := by
      cases hconflict : t.2 with
      | true => rfl
      | false =>
        rw [hconflict, if_neg Bool.false_ne_true, Store.insertEdge_eq_none, hedge, h.entry] at hds
        simpa using hds
    rw [if_pos hfail]
    exact h.goto h.symmetric h.entry rfl trivial
  | some ds =>
    obtain ⟨hconflict, hds⟩ := Option.ite_none_left_eq_some.mp hds
    have hfree : ¬(((u.edge t.1).source ∉ s.ds.vertices ∨
        (u.edge t.1).destination ∉ s.ds.vertices) ∨ c.entry.isSome) := by
      rw [← h.entry, ← hedge, ← Store.insertEdge_eq_none, hds]
      exact Option.some_ne_none _
    have hwrite := Store.getWeight_insertEdge hds
    rw [Bool.eq_false_of_not_eq_true hconflict, if_neg (by simpa using hfree)]
    refine h.goto (h.symmetric.of_write hwrite) ?_ rfl trivial
    rw [hwrite, if_pos (ends_of_edge u t.1), hweight]
    rfl

/-- **One step of a call** is a step of its client, or concerns the vertices only. -/
theorem Refines.step (h : Refines u s c) (t : ι × Bool) :
    Refines u (s.step max u t)
      (c.run (Cell.addUpd u.weight) (seen max) (s.attempt u t).toList) := by
  have hmatch := h.stage t.1
  cases hstage : s.stage t.1 with
  | source | destination =>
    rw [hstage] at hmatch
    have hget := hmatch.get trivial
    simp only [System.step, System.attempt, hstage, Option.toList_none, Cell.run, List.foldl_nil]
    split_ifs
    · exact h.wait (fun _ _ => rfl) rfl hget trivial
    · exact h.wait (fun _ _ => rfl) rfl hget trivial
  | addSource | addDestination =>
    rw [hstage] at hmatch
    have hget := hmatch.get trivial
    simp only [System.step, System.attempt, hstage, Option.toList_none, Cell.run, List.foldl_nil]
    exact h.wait (System.getWeight_addVertex _ _ _) rfl hget trivial
  | read =>
    rw [System.attempt, hstage]
    exact h.step_read max hstage
  | remove weight =>
    rw [System.attempt, hstage]
    exact h.step_remove max hstage
  | insert weight =>
    rw [System.attempt, hstage]
    exact h.step_insert max hstage
  | returned =>
    rw [hstage] at hmatch
    simp only [System.step, System.attempt, hstage, Option.toList_some, Cell.run, List.foldl_cons,
      List.foldl_nil, Cell.step, hmatch.of_returned]
    exact h

end Step

theorem Refines.run [DecidableEq W] (max : W) (h : Refines u s c) (schedule : List (ι × Bool)) :
    Refines u (s.run max u schedule)
      (c.run (Cell.addUpd u.weight) (seen max) (s.attempts max u schedule)) := by
  induction schedule generalizing s c with
  | nil => exact h
  | cons t schedule ih =>
    have hrest := ih (h.step max t)
    rw [System.attempts, Cell.run, List.foldl_append]
    exact hrest

end Refines

/-! ## What the edge has in the end -/

section Final

variable {ι W : Type} [DecidableEq ι] [DecidableEq W]

omit [DecidableEq ι] [DecidableEq W] in
theorem refines_init [AddCommMonoid W] {ds : Store W} (hds : ds.Symmetric) (u : Updates ι W)
    (known : Finset ℕ) :
    Refines u (System.init ι ds known) (Cell.init ι (ds.getWeight u.a u.b)) :=
  ⟨hds, rfl, fun _ => trivial⟩

/-- A schedule after which all calls have returned. -/
def Returned [Add W] (max : W) (u : Updates ι W) (ds : Store W) (known : Finset ℕ)
    (schedule : List (ι × Bool)) : Prop :=
  ∀ t, ((System.init ι ds known).run max u schedule).stage t = .returned

/-- **The updates are kept**: the weight of the edge in both directions is the old one and those of
all calls. -/
def UpdatesKept [Fintype ι] [AddCommMonoid W] (max : W) (u : Updates ι W) (ds : Store W)
    (known : Finset ℕ) (schedule : List (ι × Bool)) : Prop :=
  let s := (System.init ι ds known).run max u schedule
  s.ds.weight u.a u.b = ds.weight u.a u.b + ∑ t, u.weight t ∧
    s.ds.weight u.b u.a = ds.weight u.b u.a + ∑ t, u.weight t

/-- **The weight that is lost** along a schedule. -/
def lostWeight [Fintype ι] [AddCommMonoid W] (max : W) (u : Updates ι W) (ds : Store W)
    (known : Finset ℕ) (schedule : List (ι × Bool)) : W :=
  Cell.lostWeight u.weight (seen max) (ds.getWeight u.a u.b)
    ((System.init ι ds known).attempts max u schedule)

/-- **No weight is missing** exactly when the weight that is lost is zero: that of the calls whose
insertion the edge is not built on, and the first one when the edge is not built on it. -/
theorem updatesKept_iff_lostWeight [Fintype ι] [AddCancelCommMonoid W] (max : W) (u : Updates ι W)
    {ds : Store W} (hds : ds.Symmetric) (known : Finset ℕ) (schedule : List (ι × Bool)) :
    UpdatesKept max u ds known schedule ↔ lostWeight max u ds known schedule = 0 := by
  have hrefines := (refines_init hds u known).run max schedule
  have hsum := Cell.entry_add_lostWeight u.weight (seen max) (ds.getWeight u.a u.b)
    ((System.init ι ds known).attempts max u schedule)
  have hback : ∀ {ds : Store W}, ds.Symmetric → ds.weight u.b u.a = ds.weight u.a u.b :=
    fun h => congrArg (Option.getD · 0) (h u.b u.a)
  have hweight : ((System.init ι ds known).run max u schedule).ds.weight u.a u.b +
      lostWeight max u ds known schedule = ds.weight u.a u.b + ∑ t, u.weight t := by
    rw [Store.weight, hrefines.entry]
    exact hsum
  simp only [UpdatesKept, hback hds, hback hrefines.symmetric, and_self, ← hweight]
  exact left_eq_add

/-- **Nothing is lost**, whatever the weights are, exactly when every removal takes away what the
call has read, the insertion after it succeeds, and no other call inserts in between. -/
theorem nothing_lost_iff_clean [Fintype ι] [AddCommMonoid W] {max : W} {u : Updates ι W}
    {ds : Store W} (hds : ds.Symmetric) {known : Finset ℕ} {schedule : List (ι × Bool)}
    (hreturned : Returned max u ds known schedule) :
    (Cell.lostCalls (Cell.addUpd u.weight) (seen max) (ds.getWeight u.a u.b)
        ((System.init ι ds known).attempts max u schedule) = ∅ ∧
      ((ds.getWeight u.a u.b).isSome → Cell.keepsBase (Cell.addUpd u.weight) (seen max)
        (ds.getWeight u.a u.b) ((System.init ι ds known).attempts max u schedule))) ↔
      Cell.CleanRun (Cell.addUpd u.weight) (seen max) (Cell.tracedInit ι (ds.getWeight u.a u.b))
        ((System.init ι ds known).attempts max u schedule) := by
  refine Cell.nothing_lost_iff _ _ _ fun t => ?_
  have hmatch := ((refines_init hds u known).run max schedule).stage t
  rw [hreturned t, ← Cell.traced_map, Cell.map] at hmatch
  simp only at hmatch
  generalize (Cell.traced (Cell.addUpd u.weight) (seen max) (ds.getWeight u.a u.b)
    ((System.init ι ds known).attempts max u schedule)).stage t = p at hmatch
  cases p <;> first | rfl | exact hmatch.elim

/-- A run in which every removal takes away what the call has read, the insertion after it succeeds,
and no other call inserts in between. -/
def Undisturbed [AddCommMonoid W] (max : W) (u : Updates ι W) (ds : Store W) (known : Finset ℕ)
    (schedule : List (ι × Bool)) : Prop :=
  Cell.CleanRun (Cell.addUpd u.weight) (seen max) (Cell.tracedInit ι (ds.getWeight u.a u.b))
    ((System.init ι ds known).attempts max u schedule)

/-- **The updates are kept**, once all calls have returned, exactly when no call is disturbed
between its read and its insertion, or the weights that are lost are zero together. -/
theorem updatesKept_iff_undisturbed [Fintype ι] [AddCancelCommMonoid W] {max : W}
    {u : Updates ι W} {ds : Store W} (hds : ds.Symmetric) {known : Finset ℕ}
    {schedule : List (ι × Bool)} (hreturned : Returned max u ds known schedule) :
    UpdatesKept max u ds known schedule ↔
      Undisturbed max u ds known schedule ∨ lostWeight max u ds known schedule = 0 := by
  rw [updatesKept_iff_lostWeight max u hds, or_iff_right_of_imp]
  intro hclean
  obtain ⟨hcalls, hbase⟩ := (nothing_lost_iff_clean hds hreturned).mpr hclean
  rw [lostWeight, Cell.lostWeight, hcalls, Finset.sum_empty, zero_add]
  split_ifs with hkeeps
  · rfl
  · cases hentry : ds.getWeight u.a u.b with
    | none => rfl
    | some w => exact absurd (hbase (by rw [hentry]; rfl)) hkeeps

/-- Two calls on an edge of the weight `5` between known vertices. The second one hits a conflict
when it removes the edge, and starts again. -/
theorem updatesKept_retry :
    UpdatesKept 100 ⟨0, 1, id, fun t => if t then 3 else 4⟩ (Store.single 0 1 (5 : ℤ)) {0, 1}
      [(true, false), (true, false), (true, false), (false, false), (true, false), (true, false),
        (false, false), (false, false), (false, true), (false, false), (false, false),
        (false, false)] :=
  (updatesKept_iff_undisturbed (Store.symmetric_single 0 1 5) (by unfold Returned; decide)).mpr
    (Or.inr (by decide))

/-- A single call on an edge of the weight `5`, whose insertion hits a conflict after its removal:
the next read finds no edge, and the weight `5` is missing in the end. -/
theorem not_updatesKept_conflict :
    ¬∀ (ds : Store ℤ) (known : Finset ℕ) (u : Updates Unit ℤ) (schedule : List (Unit × Bool)),
      ds.Symmetric → Returned 100 u ds known schedule → UpdatesKept 100 u ds known schedule := by
  intro hall
  have hkept := hall (Store.single 0 1 5) {0, 1} ⟨0, 1, fun _ => false, fun _ => 7⟩
    [((), false), ((), false), ((), false), ((), false), ((), true), ((), false), ((), false)]
    (Store.symmetric_single 0 1 5) (by unfold Returned; decide)
  exact absurd hkept.1 (by decide)

end Final

end Teseo

end GfeDriver
