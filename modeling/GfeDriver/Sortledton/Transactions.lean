import Mathlib
import GfeDriver.Foundation.Calls
import GfeDriver.Graph.Edge

/-!
# The transactions of the Sortledton driver

Each operation of the driver obtains a transaction from the transaction manager, works with it and
passes it to `transactionCompleted`. A transaction that is not completed keeps the versions that it
can see. The updates keep their last transaction in a `thread_local` variable, which the manager
starts again for the next call of the thread, and work with a copy of it.

What the library answers is arbitrary, and so are its exceptions. Nothing is said of a call that
raises one.

## Main definitions

* `Library`, `Driver`: what the driver relies on, and its state
* `numEdges`, …, `removeEdge`: the operations
* `Balanced`: the transactions of a call were completed once each
* `Misses`: a call of `get_weight` for a vertex that does not exist

## Main results

* `Inv.balanced`, `Balanced.trans`: a transaction is obtained and completed; calls in sequence
* `perform_spec`: each call but those of `get_weight` that miss is balanced
* `balanced_iff`: the sequences of calls whose calls are balanced
-/

open Std.Do

set_option mvcgen.warning false

namespace GfeDriver

namespace SortledtonTransactions

open Foundation

/-! ## The library -/

/-- The exceptions of the library that the driver tells apart. -/
inductive Exn
  | vertexDoesNotExists
  | edgeExists
  | other

/-- A precondition of a transaction. -/
inductive Precondition
  | vertexExists (v : ℕ)
  | edgeDoesNotExists (e : ℕ × ℕ)

/-- A transaction, with the operations that it collects. A copy is the same transaction. -/
structure SnapshotTransaction (B : Type) where
  id : ℕ
  content : B

/-- **The library**: the graph `G`, what a transaction collects `B`, and the operations. The content
of a transaction that is started again may depend on the previous one. -/
structure Library (G B W : Type) where
  toDst : ℕ → ℕ
  start : G → Bool → B
  restart : G → Bool → B → B
  edgeCount : G → B → Except Exn ℕ
  vertexCount : G → B → Except Exn ℕ
  hasVertex : G → B → ℕ → Except Exn Bool
  getWeight : G → B → ℕ × ℕ → Except Exn (Option W)
  registerPrecondition : Precondition → B → B
  useVertexDoesNotExistsSemantics : B → B
  insertVertex : ℕ → B → Except Exn B
  insertEdge : ℕ × ℕ → W → B → Except Exn B
  insertOrUpdateEdge : ℕ × ℕ → W → B → Except Exn B
  deleteEdge : ℕ × ℕ → B → Except Exn B
  execute : G → B → Except Exn Bool × G

/-- The functions with a `thread_local` transaction. -/
inductive Function
  | addEdge
  | addEdgeV2
  | addEdgeV3
  | updateEdgeV1
  | removeEdge
  deriving DecidableEq

/-- **The transaction manager**: the number of transactions obtained so far, those that are active,
and those that were completed. -/
structure TransactionManager where
  obtained : ℕ
  active : Finset ℕ
  completed : List ℕ

namespace TransactionManager

/-- The next transaction is obtained. -/
def obtain (tm : TransactionManager) : TransactionManager :=
  { tm with obtained := tm.obtained + 1, active := insert tm.obtained tm.active }

/-- A transaction is completed. -/
def complete (tm : TransactionManager) (id : ℕ) : TransactionManager :=
  { tm with active := tm.active.erase id, completed := tm.completed ++ [id] }

end TransactionManager

/-- **The driver**: the graph, the transaction manager, and the `thread_local` variables. -/
structure Driver (G B : Type) where
  ds : G
  tm : TransactionManager
  reuse : ℕ × Function → Option (SnapshotTransaction B)

/-- Programs of the driver. The state stays when an exception is raised. -/
abbrev DriverM (G B : Type) := ExceptT Exn (StateM (Driver G B))

section Operations

variable {G B W : Type} (lib : Library G B W)

/-- `getSnapshotTransaction`. -/
def getSnapshotTransaction (write : Bool) : DriverM G B (SnapshotTransaction B) := do
  let s ← get
  set { s with tm := s.tm.obtain }
  return ⟨s.tm.obtained, lib.start s.ds write⟩

/-- `getSnapshotTransaction`, on a transaction that is started again. -/
def restartSnapshotTransaction (write : Bool) (tx : SnapshotTransaction B) :
    DriverM G B (SnapshotTransaction B) := do
  let s ← get
  set { s with tm := s.tm.obtain }
  return ⟨s.tm.obtained, lib.restart s.ds write tx.content⟩

/-- `transactionCompleted`. -/
def transactionCompleted (tx : SnapshotTransaction B) : DriverM G B Unit :=
  modify fun s => { s with tm := s.tm.complete tx.id }

/-- The transaction of an update: the one in the variable of the function, started again. -/
def reuseTransaction (thread : ℕ) (f : Function) : DriverM G B (SnapshotTransaction B) := do
  let tx ← match (← get).reuse (thread, f) with
    | some tx => restartSnapshotTransaction lib true tx
    | none => getSnapshotTransaction lib true
  modify fun s => { s with reuse := Function.update s.reuse (thread, f) (some tx) }
  return tx

/-- An operation of the library that reads the graph. -/
def query {α : Type} (op : G → B → Except Exn α) (tx : SnapshotTransaction B) :
    DriverM G B α := do
  match op (← get).ds tx.content with
  | .ok a => return a
  | .error e => throw e

/-- An operation of the library that a transaction collects. -/
def collect (op : B → Except Exn B) (tx : SnapshotTransaction B) :
    DriverM G B (SnapshotTransaction B) := do
  match op tx.content with
  | .ok content => return { tx with content }
  | .error e => throw e

/-- `execute`. -/
def execute (tx : SnapshotTransaction B) : DriverM G B Bool := do
  let s ← get
  let (result, ds) := lib.execute s.ds tx.content
  set { s with ds }
  match result with
  | .ok b => return b
  | .error e => throw e

/-! ## The driver -/

/-- `num_edges`. -/
def numEdges : DriverM G B ℕ := do
  let tx ← getSnapshotTransaction lib false
  let edgeCount ← query lib.edgeCount tx
  transactionCompleted tx
  return edgeCount / 2

/-- `num_vertices`. -/
def numVertices : DriverM G B ℕ := do
  let tx ← getSnapshotTransaction lib false
  let numVertices ← query lib.vertexCount tx
  transactionCompleted tx
  return numVertices

/-- `has_vertex`. -/
def hasVertex (v : ℕ) : DriverM G B Bool := do
  let tx ← getSnapshotTransaction lib false
  let hasVertex ← query (lib.hasVertex · · v) tx
  transactionCompleted tx
  return hasVertex

/-- The test for both vertices, of which the second one is not looked for without the first. -/
def hasVertices (tx : SnapshotTransaction B) (source destination : ℕ) : DriverM G B Bool := do
  if ← query (lib.hasVertex · · source) tx then query (lib.hasVertex · · destination) tx
  else return false

/-- The edge between the vertices of the driver. -/
def internalEdge (source destination : ℕ) : ℕ × ℕ := (lib.toDst source, lib.toDst destination)

/-- `get_weight`, where `none` is NaN. -/
def getWeight (source destination : ℕ) : DriverM G B (Option W) := do
  let tx ← getSnapshotTransaction lib false
  if ← hasVertices lib tx source destination then
    let w ← query (lib.getWeight · · (internalEdge lib source destination)) tx
    transactionCompleted tx
    return w
  else
    return none

/-- `add_vertex`. -/
def addVertex (v : ℕ) : DriverM G B Bool := do
  let tx ← getSnapshotTransaction lib true
  let inserted ←
    tryCatch (do
      let tx ← collect (lib.insertVertex v) tx
      let _ ← execute lib tx
      return true) fun _ => return false
  transactionCompleted tx
  return inserted

/-- `add_edge`. -/
def addEdge (thread : ℕ) (e : WeightedEdge W) : DriverM G B Bool := do
  let (src, dst) := internalEdge lib e.source e.destination
  let tx ← reuseTransaction lib thread .addEdge
  let content := lib.registerPrecondition (.vertexExists src) tx.content
  let content := lib.registerPrecondition (.vertexExists dst) content
  let content := lib.registerPrecondition (.edgeDoesNotExists (src, dst)) content
  let tx := { tx with content }
  let inserted ←
    tryCatch (do
      let tx ← collect (lib.insertEdge (src, dst) e.weight) tx
      let tx ← collect (lib.insertEdge (dst, src) e.weight) tx
      execute lib tx) fun
      | .vertexDoesNotExists => return false
      | .edgeExists => return false
      | .other => throw .other
  transactionCompleted tx
  return inserted

/-- What `add_edge_v2`, `add_edge_v3` and `update_edge_v1` share, which write an edge in both
directions: the two writes are `first` and `second`. -/
def writeEdge (thread : ℕ) (f : Function) (src dst : ℕ) (first second : B → Except Exn B) :
    DriverM G B Bool := do
  let tx ← reuseTransaction lib thread f
  let tx := { tx with content := lib.useVertexDoesNotExistsSemantics tx.content }
  let tx ← collect (lib.insertVertex src) tx
  let tx ← collect (lib.insertVertex dst) tx
  let tx ← collect first tx
  let tx ← collect second tx
  let _ ← execute lib tx
  transactionCompleted tx
  return true

/-- `add_edge_v2`. -/
def addEdgeV2 (thread : ℕ) (e : WeightedEdge W) : DriverM G B Bool :=
  let (src, dst) := internalEdge lib e.source e.destination
  writeEdge lib thread .addEdgeV2 src dst (lib.insertEdge (src, dst) e.weight)
    (lib.insertEdge (dst, src) e.weight)

/-- `add_edge_v3`. -/
def addEdgeV3 (thread : ℕ) (e : WeightedEdge W) : DriverM G B Bool :=
  let (src, dst) := internalEdge lib e.source e.destination
  writeEdge lib thread .addEdgeV3 src dst (lib.insertOrUpdateEdge (src, dst) e.weight)
    (lib.insertOrUpdateEdge (dst, src) e.weight)

/-- The weight that `update_edge_v1` writes. -/
def readWeight [Add W] (e : WeightedEdge W) : DriverM G B W := do
  let tx ← getSnapshotTransaction lib false
  let weight ←
    if ← hasVertices lib tx e.source e.destination then
      match ← query (lib.getWeight · · (internalEdge lib e.source e.destination)) tx with
      | some w => pure (e.weight + w)
      | none => pure e.weight
    else pure e.weight
  transactionCompleted tx
  return weight

/-- `update_edge_v1`. -/
def updateEdgeV1 [Add W] (thread : ℕ) (e : WeightedEdge W) : DriverM G B Bool := do
  let weight ← readWeight lib e
  let (src, dst) := internalEdge lib e.source e.destination
  writeEdge lib thread .updateEdgeV1 src dst (lib.insertOrUpdateEdge (dst, src) weight)
    (lib.insertOrUpdateEdge (src, dst) weight)

/-- `remove_edge`. -/
def removeEdge (thread : ℕ) (e : Edge) : DriverM G B Bool := do
  let tx ← reuseTransaction lib thread .removeEdge
  let (src, dst) := internalEdge lib e.source e.destination
  let tx ← collect (lib.deleteEdge (src, dst)) tx
  let tx ← collect (lib.deleteEdge (dst, src)) tx
  let removed ← execute lib tx
  transactionCompleted tx
  return removed

end Operations

/-! ## The transactions of a call -/

namespace TransactionManager

/-- Active transactions were obtained before. -/
def Inv (tm : TransactionManager) : Prop := ∀ id ∈ tm.active, id < tm.obtained

/-- **A call is balanced**: the transactions obtained in the call, and no others, were completed
once each, and the active transactions are those before it. -/
structure Balanced (tm tm' : TransactionManager) : Prop where
  le : tm.obtained ≤ tm'.obtained
  once : ∃ ids, tm'.completed = tm.completed ++ ids ∧
    ids.Perm (List.range' tm.obtained (tm'.obtained - tm.obtained))
  active : tm'.active = tm.active

theorem Inv.obtain {tm : TransactionManager} (h : tm.Inv) : tm.obtain.Inv := by
  intro id hid
  rcases Finset.mem_insert.mp hid with rfl | hid
  · exact Nat.lt_succ_self _
  · exact (h id hid).trans (Nat.lt_succ_self _)

theorem Inv.complete {tm : TransactionManager} (h : tm.Inv) (id : ℕ) : (tm.complete id).Inv :=
  fun id' hid => h id' (Finset.mem_of_mem_erase hid)

/-- A transaction is obtained and completed. -/
theorem Inv.balanced {tm : TransactionManager} (h : tm.Inv) :
    tm.Balanced (tm.obtain.complete tm.obtained) where
  le := Nat.le_succ _
  once := ⟨[tm.obtained], rfl, by simp [TransactionManager.obtain, TransactionManager.complete]⟩
  active := Finset.erase_insert fun hmem => Nat.lt_irrefl _ (h _ hmem)

theorem Balanced.trans {tm tm' tm'' : TransactionManager} (h : tm.Balanced tm')
    (h' : tm'.Balanced tm'') : tm.Balanced tm'' := by
  obtain ⟨ids, hids, hperm⟩ := h.once
  obtain ⟨ids', hids', hperm'⟩ := h'.once
  refine ⟨h.le.trans h'.le, ⟨ids ++ ids', by rw [hids', hids, List.append_assoc], ?_⟩,
    h'.active.trans h.active⟩
  have hlength : tm''.obtained - tm.obtained =
      (tm'.obtained - tm.obtained) + (tm''.obtained - tm'.obtained) := by
    have := h.le
    have := h'.le
    omega
  rw [hlength, ← List.range'_append_1, Nat.add_sub_cancel' h.le]
  exact hperm.append hperm'

/-- Transactions that are active after a balanced call were active before it. -/
theorem Balanced.inv {tm tm' : TransactionManager} (h : tm.Balanced tm') (htm : tm.Inv) :
    tm'.Inv := by
  intro id hid
  rw [h.active] at hid
  exact (htm id hid).trans_le h.le

/-- A transaction that is obtained and not completed. -/
theorem not_balanced_obtain (tm : TransactionManager) : ¬tm.Balanced tm.obtain := by
  intro h
  obtain ⟨ids, hids, hperm⟩ := h.once
  have hlength := hperm.length_eq
  have hnil : ids = [] := List.self_eq_append_right.mp hids
  simp [hnil, TransactionManager.obtain] at hlength

end TransactionManager

/-! ## The operations of the library -/

section Specs

variable {G B W : Type} (lib : Library G B W)

@[spec] theorem getSnapshotTransaction_spec (write : Bool) (s₀ : Driver G B) :
    ⦃fun s => ⌜s = s₀⌝⦄ getSnapshotTransaction lib write
    ⦃post⟨fun tx s => ⌜s = { s₀ with tm := s₀.tm.obtain } ∧
      tx = ⟨s₀.tm.obtained, lib.start s₀.ds write⟩⌝, fun _ _ => ⌜False⌝⟩⦄ := by
  mvcgen [getSnapshotTransaction] with simp_all

@[spec] theorem transactionCompleted_spec (tx : SnapshotTransaction B) (s₀ : Driver G B) :
    ⦃fun s => ⌜s = s₀⌝⦄ (transactionCompleted tx : DriverM G B Unit)
    ⦃post⟨fun _ s => ⌜s = { s₀ with tm := s₀.tm.complete tx.id }⌝, fun _ _ => ⌜False⌝⟩⦄ := by
  mvcgen [transactionCompleted] with simp_all +zetaDelta

@[spec] theorem query_spec {α : Type} (op : G → B → Except Exn α) (tx : SnapshotTransaction B)
    (s₀ : Driver G B) :
    ⦃fun s => ⌜s = s₀⌝⦄ query op tx
    ⦃post⟨fun a s => ⌜s = s₀ ∧ op s₀.ds tx.content = .ok a⌝,
      fun e s => ⌜s = s₀ ∧ op s₀.ds tx.content = .error e⌝⟩⦄ := by
  mvcgen [query] with simp_all

@[spec] theorem collect_spec (op : B → Except Exn B) (tx : SnapshotTransaction B)
    (s₀ : Driver G B) :
    ⦃fun s => ⌜s = s₀⌝⦄ collect op tx
    ⦃post⟨fun tx' s => ⌜s = s₀ ∧ tx'.id = tx.id⌝, fun _ s => ⌜s = s₀⌝⟩⦄ := by
  mvcgen [collect]

@[spec] theorem execute_spec (tx : SnapshotTransaction B) (tm : TransactionManager) :
    ⦃fun s => ⌜s.tm = tm⌝⦄ execute lib tx
    ⦃post⟨fun _ s => ⌜s.tm = tm⌝, fun _ s => ⌜s.tm = tm⌝⟩⦄ := by
  mvcgen [execute]

@[spec] theorem restartSnapshotTransaction_spec (write : Bool) (tx : SnapshotTransaction B)
    (s₀ : Driver G B) :
    ⦃fun s => ⌜s = s₀⌝⦄ restartSnapshotTransaction lib write tx
    ⦃post⟨fun tx s => ⌜s.tm = s₀.tm.obtain ∧ tx.id = s₀.tm.obtained⌝, fun _ _ => ⌜False⌝⟩⦄ := by
  mvcgen [restartSnapshotTransaction] with simp_all

@[spec] theorem reuseTransaction_spec (thread : ℕ) (f : Function) (s₀ : Driver G B) :
    ⦃fun s => ⌜s = s₀⌝⦄ reuseTransaction lib thread f
    ⦃post⟨fun tx s => ⌜s.tm = s₀.tm.obtain ∧ tx.id = s₀.tm.obtained⌝, fun _ _ => ⌜False⌝⟩⦄ := by
  mvcgen [reuseTransaction] with simp_all +zetaDelta

/-- A vertex is missing in the graph that a transaction sees. -/
def Missing (ds : G) (content : B) (a b : ℕ) : Prop :=
  lib.hasVertex ds content a = .ok false ∨
    (lib.hasVertex ds content a = .ok true ∧ lib.hasVertex ds content b = .ok false)

@[spec] theorem hasVertices_spec (tx : SnapshotTransaction B) (a b : ℕ) (s₀ : Driver G B) :
    ⦃fun s => ⌜s = s₀⌝⦄ hasVertices lib tx a b
    ⦃post⟨fun r s => ⌜s = s₀ ∧ (r = false ↔ Missing lib s₀.ds tx.content a b)⌝,
      fun _ s => ⌜s = s₀ ∧ ¬Missing lib s₀.ds tx.content a b⌝⟩⦄ := by
  mvcgen [hasVertices] with simp_all [Missing]

/-! ## The operations of the driver -/

open TransactionManager

variable (tm : TransactionManager)

theorem numEdges_spec :
    ⦃fun s => ⌜s.tm = tm ∧ tm.Inv⌝⦄ numEdges lib
    ⦃post⟨fun _ s => ⌜tm.Balanced s.tm⌝, fun _ s => ⌜s.tm.Inv⌝⟩⦄ := by
  mvcgen [numEdges] with simp_all [Inv.balanced, Inv.obtain]

theorem numVertices_spec :
    ⦃fun s => ⌜s.tm = tm ∧ tm.Inv⌝⦄ numVertices lib
    ⦃post⟨fun _ s => ⌜tm.Balanced s.tm⌝, fun _ s => ⌜s.tm.Inv⌝⟩⦄ := by
  mvcgen [numVertices] with simp_all [Inv.balanced, Inv.obtain]

theorem hasVertex_spec (v : ℕ) :
    ⦃fun s => ⌜s.tm = tm ∧ tm.Inv⌝⦄ hasVertex lib v
    ⦃post⟨fun _ s => ⌜tm.Balanced s.tm⌝, fun _ s => ⌜s.tm.Inv⌝⟩⦄ := by
  mvcgen [hasVertex] with simp_all [Inv.balanced, Inv.obtain]

/-- **A call of `get_weight`** that misses a vertex keeps its transaction. -/
theorem getWeight_spec (a b : ℕ) (s₀ : Driver G B) :
    ⦃fun s => ⌜s = s₀ ∧ s₀.tm.Inv⌝⦄ getWeight lib a b
    ⦃post⟨fun _ s => ⌜(Missing lib s₀.ds (lib.start s₀.ds false) a b ∧ s.tm = s₀.tm.obtain) ∨
      (¬Missing lib s₀.ds (lib.start s₀.ds false) a b ∧ s₀.tm.Balanced s.tm)⌝,
      fun _ s => ⌜¬Missing lib s₀.ds (lib.start s₀.ds false) a b ∧ s.tm.Inv⌝⟩⦄ := by
  mvcgen [getWeight] with simp_all [Inv.balanced, Inv.obtain]

theorem addVertex_spec (v : ℕ) :
    ⦃fun s => ⌜s.tm = tm ∧ tm.Inv⌝⦄ addVertex lib v
    ⦃post⟨fun _ s => ⌜tm.Balanced s.tm⌝, fun _ s => ⌜s.tm.Inv⌝⟩⦄ := by
  mvcgen [addVertex] with simp_all [Inv.balanced]

theorem addEdge_spec (thread : ℕ) (e : WeightedEdge W) :
    ⦃fun s => ⌜s.tm = tm ∧ tm.Inv⌝⦄ addEdge lib thread e
    ⦃post⟨fun _ s => ⌜tm.Balanced s.tm⌝, fun _ s => ⌜s.tm.Inv⌝⟩⦄ := by
  mvcgen [addEdge] with simp_all +zetaDelta [Inv.balanced, Inv.obtain]

@[spec] theorem writeEdge_spec (thread : ℕ) (f : Function) (src dst : ℕ)
    (first second : B → Except Exn B) :
    ⦃fun s => ⌜s.tm = tm ∧ tm.Inv⌝⦄ writeEdge lib thread f src dst first second
    ⦃post⟨fun _ s => ⌜tm.Balanced s.tm⌝, fun _ s => ⌜s.tm.Inv⌝⟩⦄ := by
  mvcgen [writeEdge] with simp_all +zetaDelta [Inv.balanced, Inv.obtain]

theorem addEdgeV2_spec (thread : ℕ) (e : WeightedEdge W) :
    ⦃fun s => ⌜s.tm = tm ∧ tm.Inv⌝⦄ addEdgeV2 lib thread e
    ⦃post⟨fun _ s => ⌜tm.Balanced s.tm⌝, fun _ s => ⌜s.tm.Inv⌝⟩⦄ :=
  writeEdge_spec lib tm thread .addEdgeV2 _ _ _ _

theorem addEdgeV3_spec (thread : ℕ) (e : WeightedEdge W) :
    ⦃fun s => ⌜s.tm = tm ∧ tm.Inv⌝⦄ addEdgeV3 lib thread e
    ⦃post⟨fun _ s => ⌜tm.Balanced s.tm⌝, fun _ s => ⌜s.tm.Inv⌝⟩⦄ :=
  writeEdge_spec lib tm thread .addEdgeV3 _ _ _ _

@[spec] theorem readWeight_spec [Add W] (e : WeightedEdge W) :
    ⦃fun s => ⌜s.tm = tm ∧ tm.Inv⌝⦄ readWeight lib e
    ⦃post⟨fun _ s => ⌜tm.Balanced s.tm⌝, fun _ s => ⌜s.tm.Inv⌝⟩⦄ := by
  mvcgen [readWeight] with simp_all +zetaDelta [Inv.balanced, Inv.obtain]

/-- Two transactions, one after the other. -/
theorem updateEdgeV1_spec [Add W] (thread : ℕ) (e : WeightedEdge W) :
    ⦃fun s => ⌜s.tm = tm ∧ tm.Inv⌝⦄ updateEdgeV1 lib thread e
    ⦃post⟨fun _ s => ⌜∃ tm', tm.Balanced tm' ∧ tm'.Balanced s.tm⌝, fun _ s => ⌜s.tm.Inv⌝⟩⦄ := by
  mvcgen [updateEdgeV1]
  case vc1.pre hs => exact ⟨trivial, hs.1 ▸ hs.2⟩
  case vc2.post.success.pre hs _ _ hread => exact ⟨trivial, hread.inv (hs.1 ▸ hs.2)⟩
  case vc3.post.success.post.success hs _ _ hread _ _ =>
    exact fun hwrite => ⟨_, hs.1 ▸ hread, hwrite⟩

theorem removeEdge_spec (thread : ℕ) (e : Edge) :
    ⦃fun s => ⌜s.tm = tm ∧ tm.Inv⌝⦄ removeEdge lib thread e
    ⦃post⟨fun _ s => ⌜tm.Balanced s.tm⌝, fun _ s => ⌜s.tm.Inv⌝⟩⦄ := by
  mvcgen [removeEdge] with simp_all +zetaDelta [Inv.balanced, Inv.obtain]

end Specs

/-! ## Sequences of calls -/

section Calls

variable {G B W : Type} [Add W] (lib : Library G B W)

/-- A call of a thread. -/
inductive Call (W : Type)
  | numEdges
  | numVertices
  | hasVertex (v : ℕ)
  | getWeight (a b : ℕ)
  | addVertex (v : ℕ)
  | addEdge (thread : ℕ) (e : WeightedEdge W)
  | addEdgeV2 (thread : ℕ) (e : WeightedEdge W)
  | addEdgeV3 (thread : ℕ) (e : WeightedEdge W)
  | updateEdgeV1 (thread : ℕ) (e : WeightedEdge W)
  | removeEdge (thread : ℕ) (e : Edge)

/-- What a call returns. -/
inductive Answer (W : Type)
  | number (n : ℕ)
  | boolean (b : Bool)
  | weight (w : Option W)

/-- The operation that is called. -/
def perform : Call W → DriverM G B (Answer W)
  | .numEdges => .number <$> numEdges lib
  | .numVertices => .number <$> numVertices lib
  | .hasVertex v => .boolean <$> hasVertex lib v
  | .getWeight a b => .weight <$> getWeight lib a b
  | .addVertex v => .boolean <$> addVertex lib v
  | .addEdge thread e => .boolean <$> addEdge lib thread e
  | .addEdgeV2 thread e => .boolean <$> addEdgeV2 lib thread e
  | .addEdgeV3 thread e => .boolean <$> addEdgeV3 lib thread e
  | .updateEdgeV1 thread e => .boolean <$> updateEdgeV1 lib thread e
  | .removeEdge thread e => .boolean <$> removeEdge lib thread e

/-- A call, which returns or raises an exception, and the driver after it. -/
def step (s : Driver G B) (c : Call W) : Option (Except Exn (Answer W) × Driver G B) :=
  some ((perform lib c).run.run s)

/-- A call of `get_weight` for a vertex that does not exist. -/
def Misses (s : Driver G B) : Call W → Prop
  | .getWeight a b => Missing lib s.ds (lib.start s.ds false) a b
  | _ => False

/-- What a program does from a state. -/
theorem run_of_triple {α : Type} {m : DriverM G B α} {s₀ : Driver G B} {pre : Prop}
    {P : α → Driver G B → Prop} {E : Driver G B → Prop}
    (h : ⦃fun s => ⌜s = s₀ ∧ pre⌝⦄ m ⦃post⟨fun a s => ⌜P a s⌝, fun _ s => ⌜E s⌝⟩⦄) (hpre : pre) :
    match m.run.run s₀ with
    | (.ok a, s) => P a s
    | (.error _, s) => E s := by
  have hwp := h s₀ ⟨rfl, hpre⟩
  cases hrun : m.run.run s₀ with
  | mk r s =>
    cases r with
    | ok a =>
      simp only [wp, PredTrans.apply_pushExcept, PredTrans.apply_pushArg, hrun,
        PredTrans.apply_Pure_pure] at hwp
      exact hwp
    | error e =>
      simp only [wp, PredTrans.apply_pushExcept, PredTrans.apply_pushArg, hrun,
        PredTrans.apply_Pure_pure] at hwp
      exact hwp

omit [Add W] in
/-- The answer of an operation that is balanced. -/
theorem answer_spec {α : Type} (f : α → Answer W) {m : DriverM G B α}
    (hm : ∀ tm : TransactionManager, ⦃fun s => ⌜s.tm = tm ∧ tm.Inv⌝⦄ m
      ⦃post⟨fun _ s => ⌜tm.Balanced s.tm⌝, fun _ s => ⌜s.tm.Inv⌝⟩⦄)
    {c : Call W} {s₀ : Driver G B} (hc : ¬Misses lib s₀ c) :
    ⦃fun s => ⌜s = s₀ ∧ s₀.tm.Inv⌝⦄ (f <$> m)
    ⦃post⟨fun _ s => ⌜(Misses lib s₀ c ∧ s.tm = s₀.tm.obtain) ∨
      (¬Misses lib s₀ c ∧ s₀.tm.Balanced s.tm)⌝,
      fun _ s => ⌜¬Misses lib s₀ c ∧ s.tm.Inv⌝⟩⦄ := by
  have hspec := hm s₀.tm
  mvcgen [hspec]
  case vc1.pre hs => exact ⟨hs.1 ▸ rfl, hs.2⟩
  case vc2.post.success => exact fun hbalanced => Or.inr ⟨hc, hbalanced⟩
  case vc3.post.except.handle => exact fun hinv => ⟨hc, hinv⟩

/-- **The specification of a call**: it is balanced unless it misses a vertex. -/
theorem perform_spec (c : Call W) (s₀ : Driver G B) :
    ⦃fun s => ⌜s = s₀ ∧ s₀.tm.Inv⌝⦄ perform lib c
    ⦃post⟨fun _ s => ⌜(Misses lib s₀ c ∧ s.tm = s₀.tm.obtain) ∨
      (¬Misses lib s₀ c ∧ s₀.tm.Balanced s.tm)⌝,
      fun _ s => ⌜¬Misses lib s₀ c ∧ s.tm.Inv⌝⟩⦄ := by
  cases c with
  | numEdges => exact answer_spec lib _ (numEdges_spec lib) id
  | numVertices => exact answer_spec lib _ (numVertices_spec lib) id
  | hasVertex v => exact answer_spec lib _ (fun tm => hasVertex_spec lib tm v) id
  | getWeight a b =>
    have hspec := getWeight_spec lib a b s₀
    mvcgen [perform, hspec]
  | addVertex v => exact answer_spec lib _ (fun tm => addVertex_spec lib tm v) id
  | addEdge thread e => exact answer_spec lib _ (fun tm => addEdge_spec lib tm thread e) id
  | addEdgeV2 thread e => exact answer_spec lib _ (fun tm => addEdgeV2_spec lib tm thread e) id
  | addEdgeV3 thread e => exact answer_spec lib _ (fun tm => addEdgeV3_spec lib tm thread e) id
  | updateEdgeV1 thread e =>
    refine answer_spec lib _ (fun tm => ?_) id
    have hspec := updateEdgeV1_spec lib tm thread e
    mvcgen [hspec]
    case vc2.updateEdgeV1.post.success =>
      rintro ⟨tm', h, h'⟩
      exact h.trans h'
  | removeEdge thread e => exact answer_spec lib _ (fun tm => removeEdge_spec lib tm thread e) id

/-- A call that returns is balanced. -/
def BalancedCall (s : Driver G B) (_ : Call W) (r : Except Exn (Answer W)) (s' : Driver G B) :
    Prop :=
  ∀ answer, r = .ok answer → s.tm.Balanced s'.tm

/-- A call does not miss a vertex. -/
def FindsCall (s : Driver G B) (c : Call W) (_ : Except Exn (Answer W)) (_ : Driver G B) : Prop :=
  ¬Misses lib s c

/-- **A call is balanced** exactly when it does not miss a vertex, and keeps the invariant. -/
theorem balancedCall_iff {s s' : Driver G B} {c : Call W} {r : Except Exn (Answer W)}
    (h : s.tm.Inv) (hstep : step lib s c = some (r, s')) :
    (BalancedCall s c r s' ↔ FindsCall lib s c r s') ∧ s'.tm.Inv := by
  have hrun := run_of_triple (perform_spec lib c s) h
  rw [Option.some.inj hstep] at hrun
  cases r with
  | error e => exact ⟨iff_of_true (fun _ h => nomatch h) hrun.1, hrun.2⟩
  | ok answer =>
    rcases hrun with ⟨hmiss, hobtain⟩ | ⟨hfind, hbalanced⟩
    · rw [BalancedCall, FindsCall, hobtain]
      refine ⟨iff_of_false (fun hall => ?_) (fun hfind => hfind hmiss), h.obtain⟩
      exact TransactionManager.not_balanced_obtain _ (hall answer rfl)
    · exact ⟨iff_of_true (fun _ _ => hbalanced) hfind, hbalanced.inv h⟩

/-- The driver before the first call. -/
def Driver.new (ds : G) : Driver G B := ⟨ds, ⟨0, ∅, []⟩, fun _ => none⟩

/-- **Along every sequence of calls**, the calls that return are balanced exactly when no call of
`get_weight` misses a vertex. -/
theorem balanced_iff (ds : G) (calls : List (Call W)) :
    Along (step lib) BalancedCall (Driver.new ds) calls ↔
      Along (step lib) (FindsCall lib) (Driver.new ds) calls := by
  apply along_congr (I := fun s => s.tm.Inv)
  · intro s c r s' h hstep
    obtain ⟨hiff, hinv⟩ := balancedCall_iff lib h hstep
    exact ⟨hiff, fun _ => hinv⟩
  · exact fun id hid => absurd hid (Finset.notMem_empty id)

end Calls

/-- A library whose graph has no vertices and to which no updates are made. -/
def emptyLibrary : Library Unit Unit ℕ where
  toDst := id
  start _ _ := ()
  restart _ _ _ := ()
  edgeCount _ _ := .ok 0
  vertexCount _ _ := .ok 0
  hasVertex _ _ _ := .ok false
  getWeight _ _ _ := .ok none
  registerPrecondition _ := id
  useVertexDoesNotExistsSemantics := id
  insertVertex _ := .ok
  insertEdge _ _ := .ok
  insertOrUpdateEdge _ _ := .ok
  deleteEdge _ := .ok
  execute _ _ := (.ok true, ())

/-- The weight of an edge between vertices that do not exist. -/
theorem not_balanced_getWeight :
    ¬Along (step emptyLibrary) BalancedCall (Driver.new ()) [.getWeight 1 2] := by
  intro h
  obtain ⟨hcall, -⟩ := h (.ok (.weight none)) _ rfl
  exact TransactionManager.not_balanced_obtain _ (hcall _ rfl)

end SortledtonTransactions

end GfeDriver
