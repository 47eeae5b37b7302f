import GfeDriver.Foundation.Calls
import GfeDriver.Graph.Edge
import GfeDriver.Teseo.UpdateEdge

/-!
# Insertions of an edge in Teseo

`add_edge_v2` and `add_edge_v3` of the Teseo driver create the vertices of the edge, and repeat
`add_edge` until it answers true. The vertices to create are those that are not in a static table:
each of the two functions has one, which all the drivers of the process share, and no other
operation changes it. An insertion that fails because an end is missing, or because the edge is
stored, is repeated for ever.

The calls come one after the other, and no transaction hits a conflict. The store of each driver is
empty at first. What the store does when a vertex is removed is a parameter.

## Main definitions

* `Process ι W`: the stores of the drivers, and the two static tables
* `TeseoDriver.addEdgeV2`, `TeseoDriver.addEdgeV3`: the insertions, up to a number of attempts
* `LeavesLoop`: the insertion ends with the edge stored
* `Admits`: the edge is missing, and its ends are vertices or are not in the table

## Main results

* `retry_addEdge_iff`: one insertion
* `progresses_teseo_iff`: the insertions of any sequence of calls end exactly when the edge of each
  is missing and its ends are vertices or not in the table
* `eachCall_leavesLoop_iff_missing`: for a single driver that removes no vertex, they end exactly
  when the edge of each is missing
-/

namespace GfeDriver

namespace Teseo

open Foundation

/-! ## The program -/

/-- The exceptions that the driver raises. -/
inductive Exn
  | invalidArgument
  deriving DecidableEq, Repr

/-- The functions with a static table of vertices. -/
inductive Inserter
  | addEdgeV2
  | addEdgeV3
  deriving DecidableEq, Repr

/-- The process: the stores of its drivers, and the table of each function. -/
structure Process (ι W : Type) where
  ds : ι → Store W
  known : Inserter → Finset ℕ

/-- A call of a driver. -/
inductive Call (ι W : Type)
  | addVertex (driver : ι) (v : ℕ)
  | removeVertex (driver : ι) (v : ℕ)
  | addEdge (driver : ι) (e : WeightedEdge W)
  | insert (f : Inserter) (driver : ι) (e : WeightedEdge W)
  | removeEdge (driver : ι) (e : Edge)

section Program

variable {ι W : Type} [DecidableEq ι]

/-- The process before the first call. -/
def Process.init (ι W : Type) : Process ι W := ⟨fun _ => ⟨∅, ∅⟩, fun _ => ∅⟩

/-- What a call answers or raises, and the process after it. -/
abbrev Outcome (ι W : Type) := Except Exn Bool × Process ι W

/-- A transaction of a driver: a logical error is answered by false. -/
def Process.transact (p : Process ι W) (i : ι) (tx : Option (Store W)) : Outcome ι W :=
  match tx with
  | some ds => (.ok true, { p with ds := Function.update p.ds i ds })
  | none => (.ok false, p)

/-- `remove_vertex` of a store that keeps the vertices with attached edges. -/
def Store.removeVertex (s : Store W) (v : ℕ) : Option (Store W) :=
  if v ∈ s.vertices ∧ ∀ k ∈ s.edges.keys, k.1 ≠ v then
    some { s with vertices := s.vertices.erase v }
  else none

namespace TeseoDriver

/-- `TeseoDriver::add_vertex`. -/
def addVertex (i : ι) (v : ℕ) (p : Process ι W) : Outcome ι W :=
  p.transact i ((p.ds i).insertVertex v)

/-- `TeseoDriver::remove_vertex`. -/
def removeVertex (removal : Store W → ℕ → Option (Store W)) (i : ι) (v : ℕ) (p : Process ι W) :
    Outcome ι W :=
  p.transact i (removal (p.ds i) v)

/-- `TeseoDriver::add_edge`. -/
def addEdge (i : ι) (e : WeightedEdge W) (p : Process ι W) : Outcome ι W :=
  if e.source = e.destination then (.error .invalidArgument, p)
  else p.transact i ((p.ds i).insertEdge e.source e.destination e.weight)

/-- `TeseoDriver::remove_edge`. -/
def removeEdge (i : ι) (e : Edge) (p : Process ι W) : Outcome ι W :=
  p.transact i ((p.ds i).removeEdge e.source e.destination)

/-- `if (vertices.insert(v, true)) { add_vertex(v); }`, whose failure is not noticed. -/
def insertVertex (f : Inserter) (i : ι) (v : ℕ) (p : Process ι W) : Process ι W :=
  if v ∈ p.known f then p
  else (addVertex i v { p with known := Function.update p.known f (insert v (p.known f)) }).2

/-- The insertion of the two ends of an edge. -/
def insertEnds (f : Inserter) (i : ι) (e : WeightedEdge W) (p : Process ι W) : Process ι W :=
  insertVertex f i e.destination (insertVertex f i e.source p)

/-- `TeseoDriver::add_edge_v2`, up to a number of attempts. -/
def addEdgeV2 (attempts : ℕ) (i : ι) (e : WeightedEdge W) (p : Process ι W) :
    Option (Outcome ι W) :=
  if e.source = e.destination then some (.error .invalidArgument, p)
  else retry (addEdge i e) attempts (insertEnds .addEdgeV2 i e p)

/-- `TeseoDriver::add_edge_v3`, up to a number of attempts: a self-loop is noticed by `add_edge`. -/
def addEdgeV3 (attempts : ℕ) (i : ι) (e : WeightedEdge W) (p : Process ι W) :
    Option (Outcome ι W) :=
  retry (addEdge i e) attempts (insertEnds .addEdgeV3 i e p)

end TeseoDriver

open TeseoDriver

/-- A call, up to a number of attempts. -/
def Process.call (removal : Store W → ℕ → Option (Store W)) (attempts : ℕ) (p : Process ι W) :
    Call ι W → Option (Outcome ι W)
  | .addVertex i v => some (addVertex i v p)
  | .removeVertex i v => some (removeVertex removal i v p)
  | .addEdge i e => some (addEdge i e p)
  | .insert .addEdgeV2 i e => addEdgeV2 attempts i e p
  | .insert .addEdgeV3 i e => addEdgeV3 attempts i e p
  | .removeEdge i e => some (removeEdge i e p)

/-- A call returns, after some number of attempts. -/
def Returns (removal : Store W → ℕ → Option (Store W)) (p : Process ι W) (c : Call ι W)
    (r : Except Exn Bool) (p' : Process ι W) : Prop :=
  ∃ attempts, p.call removal attempts c = some (r, p')

/-- The edge is stored, with its weight, in both directions. -/
def Store.Stores (s : Store W) (e : WeightedEdge W) : Prop :=
  s.getWeight e.source e.destination = some e.weight ∧
    s.getWeight e.destination e.source = some e.weight

/-- **The insertion of an edge ends** with the edge stored, when its ends are distinct. -/
def LeavesLoop (removal : Store W → ℕ → Option (Store W)) (p : Process ι W) : Call ι W → Prop
  | .insert f i e => e.source ≠ e.destination →
    ∃ p', Returns removal p (.insert f i e) (.ok true) p' ∧ (p'.ds i).Stores e
  | _ => True

/-- The vertex is in the store, or the function is going to insert it. -/
def Process.Creates (p : Process ι W) (f : Inserter) (i : ι) (v : ℕ) : Prop :=
  v ∈ (p.ds i).vertices ∨ v ∉ p.known f

/-- **The edge can be inserted**: it is missing, and each of its ends is in the store or not in the
table. -/
def Admits (p : Process ι W) : Call ι W → Prop
  | .insert f i e => e.source ≠ e.destination →
    (p.ds i).getWeight e.source e.destination = none ∧
      p.Creates f i e.source ∧ p.Creates f i e.destination
  | _ => True

end Program

/-! ## The ends of an edge -/

section Ends

variable {ι W : Type} [DecidableEq ι] {f : Inserter} {i : ι} {e : WeightedEdge W} {v x : ℕ}

open TeseoDriver

theorem mem_vertices_insertVertex (p : Process ι W) :
    x ∈ ((insertVertex f i v p).ds i).vertices ↔
      x ∈ (p.ds i).vertices ∨ (x = v ∧ v ∉ p.known f) := by
  unfold insertVertex addVertex Process.transact Store.insertVertex
  by_cases hknown : v ∈ p.known f
  · simp [hknown]
  · by_cases hv : v ∈ (p.ds i).vertices
    · simp only [hknown, if_false, hv, if_true, not_false_eq_true, and_true]
      exact ⟨Or.inl, fun h => h.elim id fun hx => hx ▸ hv⟩
    · simp [hknown, hv, or_comm]

theorem getWeight_insertVertex (p : Process ι W) (a b : ℕ) :
    ((insertVertex f i v p).ds i).getWeight a b = (p.ds i).getWeight a b := by
  unfold insertVertex addVertex Process.transact Store.insertVertex
  split_ifs <;> simp [Store.getWeight]

@[simp] theorem known_transact (p : Process ι W) (tx : Option (Store W)) :
    (p.transact i tx).2.known = p.known := by
  cases tx <;> rfl

theorem known_insertVertex (p : Process ι W) (g : Inserter) :
    (insertVertex f i v p).known g = if g = f then insert v (p.known f) else p.known g := by
  by_cases hknown : v ∈ p.known f
  · rw [insertVertex, if_pos hknown, Finset.insert_eq_of_mem hknown]
    split_ifs with hg
    · rw [hg]
    · rfl
  · rw [insertVertex, if_neg hknown, addVertex, known_transact]
    exact Function.update_apply p.known f _ g

/-- **The vertices after the insertion of the ends** of an edge. -/
theorem mem_vertices_insertEnds (p : Process ι W) (hne : e.source ≠ e.destination) :
    x ∈ ((insertEnds f i e p).ds i).vertices ↔ x ∈ (p.ds i).vertices ∨
      ((x = e.source ∨ x = e.destination) ∧ x ∉ p.known f) := by
  rw [insertEnds, mem_vertices_insertVertex, mem_vertices_insertVertex, known_insertVertex,
    if_pos rfl, Finset.mem_insert, or_iff_right hne.symm, or_assoc]
  refine or_congr_right ?_
  constructor
  · rintro (⟨rfl, hx⟩ | ⟨rfl, hx⟩)
    · exact ⟨Or.inl rfl, hx⟩
    · exact ⟨Or.inr rfl, hx⟩
  · rintro ⟨rfl | rfl, hx⟩
    · exact Or.inl ⟨rfl, hx⟩
    · exact Or.inr ⟨rfl, hx⟩

theorem getWeight_insertEnds (p : Process ι W) (a b : ℕ) :
    ((insertEnds f i e p).ds i).getWeight a b = (p.ds i).getWeight a b := by
  rw [insertEnds, getWeight_insertVertex, getWeight_insertVertex]

theorem source_mem_insertEnds (p : Process ι W) (hne : e.source ≠ e.destination) :
    e.source ∈ ((insertEnds f i e p).ds i).vertices ↔ p.Creates f i e.source := by
  rw [mem_vertices_insertEnds p hne, and_iff_right (Or.inl rfl)]
  rfl

theorem destination_mem_insertEnds (p : Process ι W) (hne : e.source ≠ e.destination) :
    e.destination ∈ ((insertEnds f i e p).ds i).vertices ↔ p.Creates f i e.destination := by
  rw [mem_vertices_insertEnds p hne, and_iff_right (Or.inr rfl)]
  rfl

end Ends

/-! ## One insertion -/

section Insertion

variable {ι W : Type} [DecidableEq ι] {removal : Store W → ℕ → Option (Store W)} {f : Inserter}
  {i : ι} {e : WeightedEdge W} {p p' : Process ι W}

open TeseoDriver

/-- The two functions do the same with distinct ends. -/
theorem call_insert (hne : e.source ≠ e.destination) (attempts : ℕ) :
    p.call removal attempts (.insert f i e) =
      retry (addEdge i e) attempts (insertEnds f i e p) := by
  cases f with
  | addEdgeV2 => rw [Process.call, addEdgeV2, if_neg hne]
  | addEdgeV3 => rw [Process.call, addEdgeV3]

theorem stores_of_insertEdge {ds ds' : Store W}
    (h : ds.insertEdge e.source e.destination e.weight = some ds') : ds'.Stores e :=
  ⟨by rw [Store.getWeight_insertEdge h, if_pos (Or.inl ⟨rfl, rfl⟩)],
    by rw [Store.getWeight_insertEdge h, if_pos (Or.inr ⟨rfl, rfl⟩)]⟩

/-- **The loop over `add_edge`** ends, with the edge stored, exactly when the edge is missing and
its ends are vertices. Otherwise `add_edge` changes nothing, and is repeated for ever. -/
theorem retry_addEdge_iff (hne : e.source ≠ e.destination) :
    (∃ p' attempts, retry (addEdge i e) attempts p = some (.ok true, p') ∧ (p'.ds i).Stores e) ↔
      (p.ds i).getWeight e.source e.destination = none ∧
        e.source ∈ (p.ds i).vertices ∧ e.destination ∈ (p.ds i).vertices := by
  have hnone : (p.ds i).insertEdge e.source e.destination e.weight = none ↔
      (e.source ∉ (p.ds i).vertices ∨ e.destination ∉ (p.ds i).vertices) ∨
        ((p.ds i).getWeight e.source e.destination).isSome := Store.insertEdge_eq_none
  cases hds : (p.ds i).insertEdge e.source e.destination e.weight with
  | none =>
    have hfail : addEdge i e p = (.ok false, p) := by
      rw [addEdge, if_neg hne, hds]
      rfl
    refine iff_of_false ?_ ?_
    · rintro ⟨p', attempts, hretry, -⟩
      rw [retry_eq_none hfail] at hretry
      cases hretry
    · rintro ⟨hedge, hsrc, hdst⟩
      obtain (h | h) | h := hnone.mp hds
      · exact h hsrc
      · exact h hdst
      · rw [hedge] at h
        cases h
  | some ds =>
    have hok : addEdge i e p = (.ok true, { p with ds := Function.update p.ds i ds }) := by
      rw [addEdge, if_neg hne, hds]
      rfl
    refine iff_of_true ⟨_, 1, retry_of_ok hok 0, ?_⟩ ?_
    · simpa using stores_of_insertEdge hds
    · rw [hds, iff_false_left (Option.some_ne_none ds), not_or, not_or, not_not, not_not,
        Option.not_isSome_iff_eq_none] at hnone
      exact ⟨hnone.2, hnone.1⟩

/-- **One call**, in any state of the process. -/
theorem leavesLoop_iff_admits (c : Call ι W) : LeavesLoop removal p c ↔ Admits p c := by
  cases c with
  | insert f i e =>
    refine imp_congr_right fun hne => ?_
    simp only [Returns, call_insert hne, ← exists_and_right]
    rw [retry_addEdge_iff hne, getWeight_insertEnds, source_mem_insertEnds p hne,
      destination_mem_insertEnds p hne]
  | addVertex | removeVertex | addEdge | removeEdge => exact Iff.rfl

end Insertion

/-! ## The calls of a process -/

section Calls

variable {ι W : Type} [DecidableEq ι]

/-- The ends of an edge that was inserted are vertices, as long as none is removed. -/
def Synced (i : ι) (p : Process ι W) : Prop := ∀ f, p.known f ⊆ (p.ds i).vertices

/-- A call of the driver `i` that removes no vertex. -/
def KeepsVertices (i : ι) : Call ι W → Prop
  | .removeVertex _ _ => False
  | .addVertex j _ | .addEdge j _ | .insert _ j _ | .removeEdge j _ => j = i

/-- The edge to insert is missing. -/
def Missing (p : Process ι W) : Call ι W → Prop
  | .insert _ i e => e.source ≠ e.destination →
    (p.ds i).getWeight e.source e.destination = none
  | _ => True

section Single

variable {removal : Store W → ℕ → Option (Store W)} {i : ι} {p p' : Process ι W} {c : Call ι W}

open TeseoDriver

/-- A transaction that removes no vertex. -/
theorem Synced.transact {tx : Option (Store W)} (h : Synced i p)
    (htx : ∀ ds, tx = some ds → (p.ds i).vertices ⊆ ds.vertices) :
    Synced i (p.transact i tx).2 := by
  intro f
  rw [known_transact]
  cases htx' : tx with
  | none => exact h f
  | some ds => simpa [Process.transact] using (h f).trans (htx ds htx')

theorem vertices_insertVertex_le {ds ds' : Store W} {v : ℕ} (h : ds.insertVertex v = some ds') :
    ds.vertices ⊆ ds'.vertices := by
  unfold Store.insertVertex at h
  split_ifs at h
  obtain rfl := Option.some.inj h
  exact Finset.subset_insert v ds.vertices

theorem vertices_insertEdge {ds ds' : Store W} {a b : ℕ} {w : W}
    (h : ds.insertEdge a b w = some ds') : ds'.vertices = ds.vertices := by
  unfold Store.insertEdge at h
  split_ifs at h
  obtain rfl := Option.some.inj h
  rfl

theorem vertices_removeEdge {ds ds' : Store W} {a b : ℕ} (h : ds.removeEdge a b = some ds') :
    ds'.vertices = ds.vertices := by
  unfold Store.removeEdge at h
  split_ifs at h
  obtain rfl := Option.some.inj h
  rfl

theorem Synced.addEdge (h : Synced i p) (e : WeightedEdge W) :
    Synced i (addEdge i e p).2 := by
  unfold TeseoDriver.addEdge
  split_ifs
  · exact h
  · exact h.transact fun ds hds => (vertices_insertEdge hds).ge

theorem Synced.insertVertex (h : Synced i p) (f : Inserter) (v : ℕ) :
    Synced i (insertVertex f i v p) := by
  intro g x hx
  rw [known_insertVertex] at hx
  rw [mem_vertices_insertVertex]
  split_ifs at hx with hg
  · rcases Finset.mem_insert.mp hx with rfl | hx
    · by_cases hknown : x ∈ p.known f
      · exact Or.inl (h f hknown)
      · exact Or.inr ⟨rfl, hknown⟩
    · exact Or.inl (h f hx)
  · exact Or.inl (h g hx)

theorem Synced.insertEnds (h : Synced i p) (f : Inserter) (e : WeightedEdge W) :
    Synced i (insertEnds f i e p) :=
  (h.insertVertex f e.source).insertVertex f e.destination

/-- **A call that removes no vertex** keeps the ends of the edges that were inserted. -/
theorem Synced.call {r : Except Exn Bool} (h : Synced i p) (hc : KeepsVertices i c)
    (hreturns : Returns removal p c r p') : Synced i p' := by
  obtain ⟨attempts, hcall⟩ := hreturns
  cases c with
  | addVertex j v =>
    obtain rfl : j = i := hc
    obtain rfl := congrArg Prod.snd (Option.some.inj hcall)
    exact h.transact fun ds hds => vertices_insertVertex_le hds
  | removeVertex j v => exact hc.elim
  | addEdge j e =>
    obtain rfl : j = i := hc
    obtain rfl := congrArg Prod.snd (Option.some.inj hcall)
    exact h.addEdge e
  | insert f j e =>
    obtain rfl : j = i := hc
    by_cases hne : e.source = e.destination
    · cases f with
      | addEdgeV2 =>
        rw [Process.call, addEdgeV2, if_pos hne] at hcall
        obtain rfl := congrArg Prod.snd (Option.some.inj hcall)
        exact h
      | addEdgeV3 => exact retry_invariant (fun _ hs => hs.addEdge e) (h.insertEnds _ e) hcall
    · rw [call_insert hne] at hcall
      exact retry_invariant (fun _ hs => hs.addEdge e) (h.insertEnds f e) hcall
  | removeEdge j e =>
    obtain rfl : j = i := hc
    obtain rfl := congrArg Prod.snd (Option.some.inj hcall)
    exact h.transact fun ds hds => (vertices_removeEdge hds).ge

omit [DecidableEq ι] in
/-- The ends of an edge are vertices or going to be. -/
theorem Synced.creates (h : Synced i p) (f : Inserter) (v : ℕ) : p.Creates f i v := by
  by_cases hknown : v ∈ p.known f
  · exact Or.inl (h f hknown)
  · exact Or.inr hknown

/-- **A single driver that removes no vertex**: its insertions end exactly when the edge of each is
missing. -/
theorem eachCall_leavesLoop_iff_missing {calls : List (Call ι W)}
    (hcalls : ∀ c ∈ calls, KeepsVertices i c) :
    EachCall (Returns removal) (LeavesLoop removal) (Process.init ι W) calls ↔
      EachCall (Returns removal) Missing (Process.init ι W) calls := by
  refine eachCall_congr (I := Synced i) ?_ (fun p c r p' h hc hreturns => h.call hc hreturns)
    (fun f => Finset.empty_subset _) hcalls
  intro p c h hc
  rw [leavesLoop_iff_admits]
  cases c with
  | insert f j e =>
    obtain rfl : j = i := hc
    refine imp_congr_right fun hne => ?_
    rw [and_iff_left ⟨h.creates f _, h.creates f _⟩]
  | addVertex | removeVertex | addEdge | removeEdge => exact Iff.rfl

end Single

/-- **The insertions of a process end** with their edges stored, whatever the calls of its drivers
are, exactly when the edge of each is missing, and each end is in the store or not in the static
table of the function. -/
theorem progresses_teseo_iff (removal : Store W → ℕ → Option (Store W)) (calls : List (Call ι W)) :
    EachCall (Returns removal) (LeavesLoop removal) (Process.init ι W) calls ↔
      EachCall (Returns removal) Admits (Process.init ι W) calls :=
  eachCall_congr (I := fun _ => True) (G := fun _ => True)
    (fun _ c _ _ => leavesLoop_iff_admits c) (fun _ _ _ _ _ _ _ => trivial) trivial
    fun _ _ => trivial

/-- An edge that is inserted twice: the second call is repeated for ever. -/
theorem not_leavesLoop_twice :
    ¬∀ calls : List (Call Unit ℚ), EachCall (Returns Store.removeVertex)
      (LeavesLoop Store.removeVertex) (Process.init Unit ℚ) calls := by
  intro hall
  let e : WeightedEdge ℚ := ⟨1, 2, 3⟩
  obtain ⟨hfirst, hrest⟩ := hall [.insert .addEdgeV2 () e, .insert .addEdgeV2 () e]
  obtain ⟨p', hreturns, hstored, -⟩ := hfirst (by decide)
  have hadmits := (leavesLoop_iff_admits _).mp (hrest _ p' hreturns).1 (by decide)
  rw [hadmits.1] at hstored
  cases hstored

end Calls

end Teseo

end GfeDriver
