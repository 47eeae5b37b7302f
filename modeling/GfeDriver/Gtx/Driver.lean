import GfeDriver.Foundation.Calls
import GfeDriver.Foundation.EdgeCount

/-!
# The updates of the GTX driver

GTX is a transactional store of vertices with a payload and of labelled edges. The driver translates
external vertices to the identifiers of GTX with a dictionary, and keeps the external identifier as
the payload of the vertex. An update runs its transaction again until it commits. In an undirected
graph an edge is written in both directions, the second one only when the first one was new.

A transaction that rolls back, or whose commit fails, leaves the vertices and the edges as they
were. The identifiers it has drawn are not drawn again. Edges have the label `1`, which is left out.
An update never returns when its transaction never commits, and when it inserts a loop at a new
vertex: it waits then for the entry that it has locked itself.

## Main definitions

* `Store W`, `Store.checkedPutEdge`, `Store.checkedDeleteEdge`: what the driver relies on of GTX
* `Attempt`, `transact`: the attempts of an update, and its loop
* `GTXDriver W`, `addVertex`, `addEdgeV2`, `addEdgeV3`, `updateEdgeV1`, `removeEdge`: the driver
* `Call`, `GTXDriver.step`: a call of the driver

## Main results

* `transact_eq_some`: the result of a loop is that of its last attempt
* `putEdge_spec`, `removeEdge_spec`, `addVertex_spec`: what the updates do
-/

namespace GfeDriver

namespace Gtx

open Foundation

/-! ## The store -/

/-- The committed state of GTX: the payload of the vertices, the weights of the edges, and the
number of identifiers drawn so far. -/
structure Store (W : Type) where
  vertices : Finmap fun _ : ℕ => ℕ
  edges : Finmap fun _ : ℕ × ℕ => W
  allocated : ℕ

namespace Store

variable {W : Type}

/-- `new_vertex`: the identifiers are those of the sequence `ids`. -/
def newVertex (ids : ℕ → ℕ) (s : Store W) : ℕ × Store W :=
  (ids s.allocated, { s with allocated := s.allocated + 1 })

def putVertex (s : Store W) (id payload : ℕ) : Store W :=
  { s with vertices := s.vertices.insert id payload }

/-- `checked_put_edge`: insert or overwrite the edge, and tell whether it is new. -/
def checkedPutEdge (s : Store W) (src dst : ℕ) (weight : W) : Bool × Store W :=
  ((src, dst) ∉ s.edges, { s with edges := s.edges.insert (src, dst) weight })

/-- `checked_delete_edge`: remove the edge, and tell whether it was there. -/
def checkedDeleteEdge (s : Store W) (src dst : ℕ) : Bool × Store W :=
  ((src, dst) ∈ s.edges, { s with edges := s.edges.erase (src, dst) })

def getEdge (s : Store W) (src dst : ℕ) : Option W := s.edges.lookup (src, dst)

/-- The store after a transaction that had no effect. -/
def discard (s s' : Store W) : Store W := { s with allocated := s'.allocated }

end Store

/-! ## Attempts -/

/-- An attempt of a transaction: it rolls back after it has drawn some identifiers, or it commits
and `commit` returns `ok`. -/
inductive Attempt
  | rollback (drawn : ℕ)
  | commit (ok : Bool)

section Transact

variable {W α : Type}

/-- The loop of an update: the transaction runs again until it has committed. -/
def transact (body : Store W → α × Store W) : List Attempt → Store W → Option (α × Store W)
  | [], _ => none
  | .rollback drawn :: attempts, s =>
    transact body attempts { s with allocated := s.allocated + drawn }
  | .commit false :: attempts, s => transact body attempts (s.discard (body s).2)
  | .commit true :: _, s => some (body s)

/-- **The result of a loop** is that of its last attempt, when identifiers were drawn before. -/
theorem transact_eq_some {body : Store W → α × Store W}
    (hbody : ∀ s, s.allocated ≤ (body s).2.allocated) {attempts : List Attempt} {s : Store W}
    {r : α × Store W} (h : transact body attempts s = some r) :
    ∃ n, s.allocated ≤ n ∧ r = body { s with allocated := n } := by
  induction attempts generalizing s with
  | nil => cases h
  | cons attempt attempts ih =>
    cases attempt with
    | rollback drawn =>
      obtain ⟨n, hn, hr⟩ := ih h
      exact ⟨n, (Nat.le_add_right _ _).trans hn, hr⟩
    | commit ok =>
      cases ok with
      | false =>
        obtain ⟨n, hn, hr⟩ := ih h
        exact ⟨n, (hbody s).trans hn, hr⟩
      | true => exact ⟨s.allocated, Nat.le_refl _, (Option.some.inj h).symm⟩

end Transact

/-! ## The driver -/

/-- `GTXDriver`: the dictionary, the store and the counters. -/
structure GTXDriver (W : Type) where
  isDirected : Bool
  dictionary : Finmap fun _ : ℕ => ℕ
  store : Store W
  numVertices : UInt64
  numEdges : UInt64

namespace GTXDriver

variable {W : Type}

/-- The constructor. -/
def new (W : Type) (isDirected : Bool) : GTXDriver W := ⟨isDirected, ∅, ⟨∅, ∅, 0⟩, 0, 0⟩

/-- `has_vertex`. -/
def hasVertex (d : GTXDriver W) (v : ℕ) : Bool := v ∈ d.dictionary

/-- `ext2int`, which fails for a vertex that is not in the dictionary. -/
def ext2int (d : GTXDriver W) (v : ℕ) : Option ℕ := d.dictionary.lookup v

/-- `int2ext`: the payload of the vertex, or the greatest number when it does not exist. -/
def int2ext (d : GTXDriver W) (id : ℕ) : ℕ := (d.store.vertices.lookup id).getD (2 ^ 64 - 1)

/-- `get_weight`, where `none` is the signalling NaN. -/
def getWeight (d : GTXDriver W) (source destination : ℕ) : Option W :=
  match d.dictionary.lookup source, d.dictionary.lookup destination with
  | some src, some dst => d.store.getEdge src dst
  | _, _ => none

/-- The loop of `add_vertex`, which ends with a commit whatever it returns. -/
def addVertexLoop (ids : ℕ → ℕ) (v : ℕ) : List Attempt → Store W → Option (ℕ × Store W)
  | [], _ => none
  | .rollback drawn :: attempts, s =>
    addVertexLoop ids v attempts { s with allocated := s.allocated + drawn }
  | .commit ok :: _, s =>
    let (id, s') := s.newVertex ids
    let s' := s'.putVertex id v
    some (id, if ok then s' else s.discard s')

/-- `add_vertex`. -/
def addVertex (ids : ℕ → ℕ) (attempts : List Attempt) (d : GTXDriver W) (v : ℕ) :
    Option (Bool × GTXDriver W) :=
  if d.hasVertex v then some (false, d)
  else
    (addVertexLoop ids v attempts d.store).map fun (id, store) =>
      (true, { d with
        store := store
        dictionary := d.dictionary.insert v id
        numVertices := d.numVertices + 1 })

/-- `remove_vertex`. -/
def removeVertex (d : GTXDriver W) : Bool × GTXDriver W :=
  (true, { d with numVertices := d.numVertices - 1 })

/-- The identifier of a vertex in a transaction, which creates the vertex if it has none. -/
def createVertex (ids : ℕ → ℕ) (s : Store W) (v : ℕ) (id : Option ℕ) : ℕ × Store W :=
  match id with
  | some id => (id, s)
  | none =>
    let (id, s) := s.newVertex ids
    (id, s.putVertex id v)

/-- The transaction of `add_edge_v2`, `add_edge_v3` and `update_edge_v1`. -/
def putEdgeBody (ids : ℕ → ℕ) (isDirected : Bool) (a b : ℕ) (source destination : Option ℕ)
    (weight : Store W → ℕ → ℕ → W) (s : Store W) : (Bool × ℕ × ℕ) × Store W :=
  let (src, s) := createVertex ids s a source
  let (dst, s) := createVertex ids s b destination
  let w := weight s src dst
  let (result, s) := s.checkedPutEdge src dst w
  if !isDirected && result then
    let (result, s) := s.checkedPutEdge dst src w
    ((result, src, dst), s)
  else ((result, src, dst), s)

/-- The identifier of a vertex is entered in the dictionary, if it had none. -/
def enterVertex (dictionary : Finmap fun _ : ℕ => ℕ) (v id : ℕ) (known : Option ℕ) :
    Finmap fun _ : ℕ => ℕ :=
  if known = none then dictionary.insert v id else dictionary

/-- What `add_edge_v2`, `add_edge_v3` and `update_edge_v1` share: they differ in the weight that
they write. -/
def putEdge (ids : ℕ → ℕ) (attempts : List Attempt) (d : GTXDriver W) (a b : ℕ)
    (weight : Store W → ℕ → ℕ → W) : Option (Bool × GTXDriver W) :=
  let source := d.dictionary.lookup a
  let destination := d.dictionary.lookup b
  if a = b ∧ source = none then none
  else
    (transact (putEdgeBody ids d.isDirected a b source destination weight) attempts d.store).map
      fun ((result, src, dst), store) =>
        (result, { d with
          store := store
          dictionary := enterVertex (enterVertex d.dictionary a src source) b dst destination
          numVertices := d.numVertices + (if source = none then 1 else 0) +
            (if destination = none then 1 else 0)
          numEdges := d.numEdges + (if result then 1 else 0) })

/-- `add_edge_v2`. -/
def addEdgeV2 (ids : ℕ → ℕ) (attempts : List Attempt) (d : GTXDriver W) (a b : ℕ) (w : W) :
    Option (Bool × GTXDriver W) :=
  putEdge ids attempts d a b fun _ _ _ => w

/-- `add_edge_v3`. -/
def addEdgeV3 (ids : ℕ → ℕ) (attempts : List Attempt) (d : GTXDriver W) (a b : ℕ) (w : W) :
    Option (Bool × GTXDriver W) :=
  (putEdge ids attempts d a b fun _ _ _ => w).map fun (_, d) => (true, d)

/-- `update_edge_v1`. The weight is read when both vertices existed. -/
def updateEdgeV1 [Add W] (ids : ℕ → ℕ) (attempts : List Attempt) (d : GTXDriver W) (a b : ℕ)
    (w : W) : Option (Bool × GTXDriver W) :=
  let needCheck := d.hasVertex a && d.hasVertex b
  (putEdge ids attempts d a b fun s src dst =>
    match s.getEdge src dst with
    | some read => if needCheck then w + read else w
    | none => w).map fun (_, d) => (true, d)

/-- The transaction of `remove_edge`. -/
def removeEdgeBody (isDirected : Bool) (src dst : ℕ) (s : Store W) : Bool × Store W :=
  let (removed, s) := s.checkedDeleteEdge src dst
  if removed && !isDirected then s.checkedDeleteEdge dst src else (removed, s)

/-- `remove_edge`. -/
def removeEdge (attempts : List Attempt) (d : GTXDriver W) (a b : ℕ) :
    Option (Bool × GTXDriver W) :=
  match d.dictionary.lookup a, d.dictionary.lookup b with
  | some src, some dst =>
    (transact (removeEdgeBody d.isDirected src dst) attempts d.store).map fun (removed, store) =>
      (removed, { d with
        store := store
        numEdges := d.numEdges - (if removed then 1 else 0) })
  | _, _ => some (false, d)

end GTXDriver

/-! ## Calls -/

/-- A call of the driver, with the attempts of its transactions. -/
inductive Call (W : Type)
  | addVertex (v : ℕ) (attempts : List Attempt)
  | removeVertex (v : ℕ)
  | addEdgeV2 (a b : ℕ) (w : W) (attempts : List Attempt)
  | addEdgeV3 (a b : ℕ) (w : W) (attempts : List Attempt)
  | updateEdgeV1 (a b : ℕ) (w : W) (attempts : List Attempt)
  | removeEdge (a b : ℕ) (attempts : List Attempt)

/-- A call: its answer and the driver after it. -/
def GTXDriver.step {W : Type} [Add W] (ids : ℕ → ℕ) (d : GTXDriver W) :
    Call W → Option (Bool × GTXDriver W)
  | .addVertex v attempts => d.addVertex ids attempts v
  | .removeVertex _ => some d.removeVertex
  | .addEdgeV2 a b w attempts => d.addEdgeV2 ids attempts a b w
  | .addEdgeV3 a b w attempts => d.addEdgeV3 ids attempts a b w
  | .updateEdgeV1 a b w attempts => d.updateEdgeV1 ids attempts a b w
  | .removeEdge a b attempts => d.removeEdge attempts a b

/-! ## What the updates do -/

section Spec

variable {W : Type} {ids : ℕ → ℕ} {d d' : GTXDriver W} {attempts : List Attempt}
  {a b src dst v id : ℕ} {result : Bool}

/-- **The identifiers of the dictionary** were drawn, each for one vertex, and the edges are between
identifiers that were drawn. -/
structure GTXDriver.WellFormed (ids : ℕ → ℕ) (d : GTXDriver W) : Prop where
  drawn : ∀ v id, d.dictionary.lookup v = some id → Drawn ids d.store.allocated id
  injective : ∀ v v' id, d.dictionary.lookup v = some id → d.dictionary.lookup v' = some id → v = v'
  endpoints : ∀ src dst, (src, dst) ∈ d.store.edges →
    Drawn ids d.store.allocated src ∧ Drawn ids d.store.allocated dst

theorem GTXDriver.wellFormed_new (isDirected : Bool) :
    (GTXDriver.new W isDirected).WellFormed ids :=
  ⟨fun _ _ h => by simp [GTXDriver.new] at h, fun _ _ _ h => by simp [GTXDriver.new] at h,
    fun _ _ h => absurd h Finmap.notMem_empty⟩

/-- The identifier of a vertex after a call: the one it had, or one that the call has drawn. -/
def Enters (ids : ℕ → ℕ) (d d' : GTXDriver W) (v id : ℕ) : Prop :=
  d.dictionary.lookup v = some id ∨ (d.dictionary.lookup v = none ∧
    d'.store.vertices.lookup id = some v ∧
      ∃ k, d.store.allocated ≤ k ∧ k < d'.store.allocated ∧ ids k = id)

/-- The edges after `checked_put_edge` for an edge, and for the opposite one if the graph is
undirected and the edge was new. -/
def putEdges (isDirected : Bool) (edges : Finmap fun _ : ℕ × ℕ => W) (src dst : ℕ) (w : W) :
    Finmap fun _ : ℕ × ℕ => W :=
  if !isDirected && (src, dst) ∉ edges then (edges.insert (src, dst) w).insert (dst, src) w
  else edges.insert (src, dst) w

/-- Whether the edge was new, and then the opposite one if the graph is undirected. -/
def putResult (isDirected : Bool) (edges : Finmap fun _ : ℕ × ℕ => W) (src dst : ℕ) (w : W) :
    Bool :=
  (src, dst) ∉ edges ∧ (isDirected = true ∨ (dst, src) ∉ edges.insert (src, dst) w)

/-- **What an update of an edge does.** -/
structure PutSpec (ids : ℕ → ℕ) (d : GTXDriver W) (a b src dst : ℕ) (w : W) (result : Bool)
    (d' : GTXDriver W) : Prop where
  isDirected : d'.isDirected = d.isDirected
  allocated : d.store.allocated ≤ d'.store.allocated
  source : Enters ids d d' a src
  destination : Enters ids d d' b dst
  /-- A loop is put at a vertex that exists. -/
  loop : a = b → d.dictionary.lookup a = some src ∧ src = dst
  dictionary : ∀ v, d'.dictionary.lookup v =
    if v = a then some src else if v = b then some dst else d.dictionary.lookup v
  vertices : ∀ id, Drawn ids d.store.allocated id →
    d'.store.vertices.lookup id = d.store.vertices.lookup id
  other_vertices : ∀ id, id ≠ src → id ≠ dst →
    d'.store.vertices.lookup id = d.store.vertices.lookup id
  numVertices : d'.numVertices = d.numVertices + (if d.dictionary.lookup a = none then 1 else 0) +
    (if d.dictionary.lookup b = none then 1 else 0)
  edges : d'.store.edges = putEdges d.isDirected d.store.edges src dst w
  result_eq : result = putResult d.isDirected d.store.edges src dst w
  numEdges : d'.numEdges = d.numEdges + (if result then 1 else 0)

open GTXDriver

/-- The transaction of an update, from the vertices that it creates. -/
theorem putEdgeBody_eq {isDirected : Bool} {source destination : Option ℕ}
    {weight : Store W → ℕ → ℕ → W} {s s₁ s₂ : Store W}
    (hsource : createVertex ids s a source = (src, s₁))
    (hdestination : createVertex ids s₁ b destination = (dst, s₂)) :
    putEdgeBody ids isDirected a b source destination weight s =
      ((putResult isDirected s₂.edges src dst (weight s₂ src dst), src, dst),
        { s₂ with edges := putEdges isDirected s₂.edges src dst (weight s₂ src dst) }) := by
  rw [putEdgeBody, hsource]
  simp only [hdestination, Store.checkedPutEdge, putResult, putEdges]
  by_cases hnew : (src, dst) ∈ s₂.edges
  · simp [hnew]
  · cases isDirected <;> simp [hnew]

/-- What the creation of a vertex does. -/
theorem createVertex_spec {s s' : Store W} {known : Option ℕ}
    (h : createVertex ids s v known = (id, s')) :
    s'.edges = s.edges ∧ s.allocated ≤ s'.allocated ∧
      (∀ id', id' ≠ id → s'.vertices.lookup id' = s.vertices.lookup id') ∧
      ((known = some id ∧ s' = s) ∨ (known = none ∧ id = ids s.allocated ∧
        s'.allocated = s.allocated + 1 ∧ s'.vertices.lookup id = some v)) := by
  cases known with
  | some known =>
    obtain ⟨rfl, rfl⟩ := Prod.mk.inj h
    exact ⟨rfl, Nat.le_refl _, fun _ _ => rfl, Or.inl ⟨rfl, rfl⟩⟩
  | none =>
    obtain ⟨rfl, rfl⟩ := Prod.mk.inj h
    refine ⟨rfl, Nat.le_succ _, fun id' hne => ?_, Or.inr ⟨rfl, rfl, rfl, ?_⟩⟩
    · exact Finmap.lookup_insert_of_ne _ hne
    · exact Finmap.lookup_insert _

/-- An identifier that is not the one of a new vertex keeps its vertex. -/
theorem lookup_createVertex {s s' : Store W} {known : Option ℕ} {id' : ℕ}
    (h : createVertex ids s v known = (id, s')) (hne : known = none → id' ≠ id) :
    s'.vertices.lookup id' = s.vertices.lookup id' := by
  obtain ⟨-, -, hsame, ⟨-, rfl⟩ | ⟨hnone, -⟩⟩ := createVertex_spec h
  · rfl
  · exact hsame id' (hne hnone)

/-- The identifier of a new vertex is the next one. -/
theorem createVertex_new {s s' : Store W} {known : Option ℕ}
    (h : createVertex ids s v known = (id, s')) (hnone : known = none) : id = ids s.allocated := by
  subst hnone
  exact (Prod.mk.inj h).1.symm

theorem allocated_le_putEdgeBody (isDirected : Bool) (source destination : Option ℕ)
    (weight : Store W → ℕ → ℕ → W) (s : Store W) :
    s.allocated ≤ (putEdgeBody ids isDirected a b source destination weight s).2.allocated := by
  obtain ⟨-, hle, -⟩ := createVertex_spec (rfl : createVertex ids s a source = _)
  obtain ⟨-, hle', -⟩ := createVertex_spec
    (rfl : createVertex ids (createVertex ids s a source).2 b destination = _)
  rw [putEdgeBody_eq rfl rfl]
  exact hle.trans hle'

/-- A vertex with its identifier entered. -/
theorem lookup_enterVertex {dictionary : Finmap fun _ : ℕ => ℕ} {known : Option ℕ}
    (hknown : dictionary.lookup v = known) (hid : known = some id ∨ known = none) (v' : ℕ) :
    (enterVertex dictionary v id known).lookup v' =
      if v' = v then some id else dictionary.lookup v' := by
  rw [enterVertex]
  by_cases hv : v' = v
  · subst hv
    rcases hid with rfl | rfl
    · simpa using hknown
    · simp
  · rw [if_neg hv]
    split_ifs
    · exact Finmap.lookup_insert_of_ne _ hv
    · rfl

/-- The ends of an edge, entered one after the other. -/
theorem lookup_enterVertex_twice {dictionary : Finmap fun _ : ℕ => ℕ}
    (hsrc : dictionary.lookup a = some src ∨ dictionary.lookup a = none)
    (hdst : dictionary.lookup b = some dst ∨ dictionary.lookup b = none)
    (hloop : a = b → dictionary.lookup a = some src ∧ src = dst) (v : ℕ) :
    (enterVertex (enterVertex dictionary a src (dictionary.lookup a)) b dst
      (dictionary.lookup b)).lookup v =
        if v = a then some src else if v = b then some dst else dictionary.lookup v := by
  have hfirst := lookup_enterVertex (rfl : dictionary.lookup a = _) hsrc
  by_cases hab : a = b
  · subst hab
    obtain ⟨hknown, rfl⟩ := hloop rfl
    simp only [hknown, enterVertex, reduceCtorEq, if_false]
    split_ifs with hv
    · rw [hv, hknown]
    · rfl
  · have hknown : (enterVertex dictionary a src (dictionary.lookup a)).lookup b =
        dictionary.lookup b := by
      rw [hfirst, if_neg (Ne.symm hab)]
    rw [lookup_enterVertex hknown hdst, hfirst]
    by_cases hv : v = b
    · rw [if_pos hv, if_neg (by rw [hv]; exact Ne.symm hab), if_pos hv]
    · rw [if_neg hv, if_neg hv]

/-- **An update of an edge.** -/
theorem putEdge_spec (hids : Function.Injective ids) {weight : Store W → ℕ → ℕ → W}
    (h : putEdge ids attempts d a b weight = some (result, d')) :
    ∃ src dst s, s.edges = d.store.edges ∧
      PutSpec ids d a b src dst (weight s src dst) result d' := by
  by_cases hloop : a = b ∧ d.dictionary.lookup a = none
  · simp [putEdge, hloop] at h
  simp only [putEdge, if_neg hloop] at h
  obtain ⟨⟨⟨result', src, dst⟩, store⟩, htransact, hret⟩ := Option.map_eq_some_iff.mp h
  obtain ⟨n, hn, hbody⟩ := transact_eq_some
    (fun s => allocated_le_putEdgeBody _ _ _ _ s) htransact
  obtain ⟨src', s₁, hsource⟩ : ∃ src' s₁, createVertex ids { d.store with allocated := n } a
    (d.dictionary.lookup a) = (src', s₁) := ⟨_, _, rfl⟩
  obtain ⟨dst', s₂, hdestination⟩ : ∃ dst' s₂, createVertex ids s₁ b
    (d.dictionary.lookup b) = (dst', s₂) := ⟨_, _, rfl⟩
  rw [putEdgeBody_eq hsource hdestination] at hbody
  simp only [Prod.mk.injEq] at hbody hret
  obtain ⟨⟨rfl, rfl, rfl⟩, rfl⟩ := hbody
  obtain ⟨rfl, rfl⟩ := hret
  obtain ⟨hedges₁, hle₁, hsame₁, hsrc⟩ := createVertex_spec hsource
  obtain ⟨hedges₂, hle₂, hsame₂, hdst⟩ := createVertex_spec hdestination
  have hedges : s₂.edges = d.store.edges := hedges₂.trans hedges₁
  simp only at hle₁ hsrc hsame₁
  -- identifiers that were drawn before the call are none of the new ones
  have hold : ∀ {m}, n ≤ m → ¬Drawn ids d.store.allocated (ids m) := by
    rintro m hm ⟨k, hk, heq⟩
    have := hids heq
    omega
  have hloop' : a = b → d.dictionary.lookup a = some src ∧ src = dst := by
    rintro rfl
    have hknown : d.dictionary.lookup a ≠ none := fun hnone => hloop ⟨rfl, hnone⟩
    have hsrc' := (hsrc.resolve_right fun hnew => hknown hnew.1).1
    have hdst' := (hdst.resolve_right fun hnew => hknown hnew.1).1
    exact ⟨hsrc', Option.some.inj (hsrc'.symm.trans hdst')⟩
  refine ⟨src, dst, s₂, hedges, rfl, hn.trans (hle₁.trans hle₂), ?_, ?_, hloop', ?_, ?_, ?_, rfl,
    ?_, ?_, rfl⟩
  · rcases hsrc with ⟨hknown, -⟩ | ⟨hnone, rfl, hnext, hpayload⟩
    · exact Or.inl hknown
    · refine Or.inr ⟨hnone, ?_, n, hn, ?_, rfl⟩
      · -- the vertex that is created next is another one
        rcases hdst with ⟨-, rfl⟩ | ⟨-, rfl, -, -⟩
        · exact hpayload
        · refine (hsame₂ _ fun heq => ?_).trans hpayload
          have := hids heq
          omega
      · simp only
        omega
  · rcases hdst with ⟨hknown, -⟩ | ⟨hnone, rfl, hnext, hpayload⟩
    · exact Or.inl hknown
    · refine Or.inr ⟨hnone, hpayload, s₁.allocated, ?_, ?_, rfl⟩
      · omega
      · simp only
        omega
  · exact lookup_enterVertex_twice (hsrc.imp And.left And.left) (hdst.imp And.left And.left) hloop'
  · intro id hid
    have hne₁ : d.dictionary.lookup a = none → id ≠ src := by
      rintro hnone rfl
      exact hold (Nat.le_refl n) (createVertex_new hsource hnone ▸ hid)
    have hne₂ : d.dictionary.lookup b = none → id ≠ dst := by
      rintro hnone rfl
      exact hold hle₁ (createVertex_new hdestination hnone ▸ hid)
    have hfirst := lookup_createVertex hsource hne₁
    exact (lookup_createVertex hdestination hne₂).trans hfirst
  · exact fun id hne hne' => (hsame₂ id hne').trans (hsame₁ id hne)
  · simp only [hedges]
  · rw [hedges]

theorem Enters.drawn (h : Enters ids d d' v id) (hd : d.WellFormed ids)
    (hle : d.store.allocated ≤ d'.store.allocated) : Drawn ids d'.store.allocated id := by
  rcases h with hknown | ⟨-, -, k, -, hk, rfl⟩
  · exact (hd.drawn v id hknown).mono hle
  · exact ⟨k, hk, rfl⟩

/-- A vertex has the identifier of no other vertex. -/
theorem Enters.ne (h : Enters ids d d' v id) (hids : Function.Injective ids) (hd : d.WellFormed ids)
    {v' id' : ℕ} (hother : d.dictionary.lookup v' = some id') (hne : v' ≠ v) : id' ≠ id := by
  rintro rfl
  rcases h with hknown | ⟨-, -, k, hk, -, rfl⟩
  · exact hne (hd.injective v' v _ hother hknown)
  · obtain ⟨k', hk', heq⟩ := hd.drawn v' _ hother
    have := hids heq
    omega

namespace PutSpec

variable {w : W}

/-- Two vertices have two identifiers. -/
theorem src_ne_dst (h : PutSpec ids d a b src dst w result d') (hids : Function.Injective ids)
    (hd : d.WellFormed ids) (hab : a ≠ b) : src ≠ dst := by
  rcases h.destination with hknown | ⟨hnone, hpayload, k, hk, -, hdst⟩
  · exact fun heq => h.source.ne hids hd hknown (Ne.symm hab) heq.symm
  · rcases h.source with hknown | ⟨-, hpayload', -⟩
    · exact fun heq => h.destination.ne hids hd hknown hab heq
    · rintro rfl
      exact hab (Option.some.inj (hpayload'.symm.trans hpayload))

theorem lookup_source (h : PutSpec ids d a b src dst w result d') :
    d'.dictionary.lookup a = some src := by
  rw [h.dictionary, if_pos rfl]

theorem lookup_destination (h : PutSpec ids d a b src dst w result d') :
    d'.dictionary.lookup b = some dst := by
  rw [h.dictionary]
  by_cases hba : b = a
  · rw [if_pos hba, (h.loop hba.symm).2]
  · rw [if_neg hba, if_pos rfl]

/-- The edges before the call, by the vertices. -/
theorem getWeight_before (h : PutSpec ids d a b src dst w result d')
    (hids : Function.Injective ids) (hd : d.WellFormed ids) :
    d.getWeight a b = d.store.edges.lookup (src, dst) := by
  have hnot : (src, dst) ∉ d.store.edges → d.store.edges.lookup (src, dst) = none :=
    Finmap.lookup_eq_none.mpr
  rcases h.source with hsrc | ⟨hsrc, -, hfresh⟩
  · rcases h.destination with hdst | ⟨hdst, -, hfresh⟩
    · rw [getWeight, hsrc, hdst]
      rfl
    · rw [getWeight, hsrc, hdst, hnot fun hmem => not_drawn hids hfresh (hd.endpoints _ _ hmem).2]
  · rw [getWeight, hsrc, hnot fun hmem => not_drawn hids hfresh (hd.endpoints _ _ hmem).1]

/-- The edges after the call, by the vertices. -/
theorem getWeight_after (h : PutSpec ids d a b src dst w result d') :
    d'.getWeight a b = d'.store.edges.lookup (src, dst) ∧
      d'.getWeight b a = d'.store.edges.lookup (dst, src) := by
  rw [getWeight, getWeight, h.lookup_source, h.lookup_destination]
  exact ⟨rfl, rfl⟩

theorem mem_putEdges {isDirected : Bool} {edges : Finmap fun _ : ℕ × ℕ => W} {x y : ℕ}
    (h : (x, y) ∈ putEdges isDirected edges src dst w) :
    (x = src ∧ y = dst) ∨ (x = dst ∧ y = src) ∨ (x, y) ∈ edges := by
  rw [putEdges] at h
  split_ifs at h <;> simp only [Finmap.mem_insert, Prod.mk.injEq] at h <;> tauto

theorem wellFormed (h : PutSpec ids d a b src dst w result d') (hids : Function.Injective ids)
    (hd : d.WellFormed ids) : d'.WellFormed ids := by
  have hsrc := h.source.drawn hd h.allocated
  have hdst := h.destination.drawn hd h.allocated
  refine ⟨fun v id hv => ?_, fun v v' id hv hv' => ?_, fun x y hxy => ?_⟩
  · rw [h.dictionary] at hv
    split_ifs at hv
    · exact Option.some.inj hv ▸ hsrc
    · exact Option.some.inj hv ▸ hdst
    · exact (hd.drawn v id hv).mono h.allocated
  · rw [h.dictionary] at hv hv'
    split_ifs at hv hv' with h₁ h₂ h₃ h₄ h₅ h₆ h₇ h₈
    · exact h₁.trans h₂.symm
    · exact absurd (Option.some.inj (hv.trans hv'.symm))
        (h.src_ne_dst hids hd fun hab => h₂ (h₃.trans hab.symm))
    · exact absurd (Option.some.inj hv).symm (h.source.ne hids hd hv' h₂)
    · exact absurd (Option.some.inj (hv'.trans hv.symm))
        (h.src_ne_dst hids hd fun hab => h₁ (h₄.trans hab.symm))
    · exact h₄.trans h₆.symm
    · exact absurd (Option.some.inj hv).symm (h.destination.ne hids hd hv' h₆)
    · exact absurd (Option.some.inj hv').symm (h.source.ne hids hd hv h₁)
    · exact absurd (Option.some.inj hv').symm (h.destination.ne hids hd hv h₄)
    · exact hd.injective v v' id hv hv'
  · rw [h.edges] at hxy
    rcases mem_putEdges hxy with ⟨rfl, rfl⟩ | ⟨rfl, rfl⟩ | hold
    · exact ⟨hsrc, hdst⟩
    · exact ⟨hdst, hsrc⟩
    · exact (hd.endpoints x y hold).imp (fun h' => h'.mono h.allocated) fun h' =>
        h'.mono h.allocated

end PutSpec

/-! ### The other updates -/

/-- What `checked_delete_edge` leaves of the edges, for an edge and for the opposite one if the
graph is undirected and the edge was there. -/
def deleteEdges (isDirected : Bool) (edges : Finmap fun _ : ℕ × ℕ => W) (src dst : ℕ) :
    Finmap fun _ : ℕ × ℕ => W :=
  if (src, dst) ∈ edges ∧ isDirected = false then (edges.erase (src, dst)).erase (dst, src)
  else edges.erase (src, dst)

/-- Whether the edge was there, and then the opposite one if the graph is undirected. -/
def deleteResult (isDirected : Bool) (edges : Finmap fun _ : ℕ × ℕ => W) (src dst : ℕ) : Bool :=
  (src, dst) ∈ edges ∧ (isDirected = true ∨ (dst, src) ∈ edges.erase (src, dst))

theorem removeEdgeBody_eq (isDirected : Bool) (s : Store W) :
    removeEdgeBody isDirected src dst s = (deleteResult isDirected s.edges src dst,
      { s with edges := deleteEdges isDirected s.edges src dst }) := by
  rw [removeEdgeBody]
  simp only [Store.checkedDeleteEdge, deleteResult, deleteEdges]
  by_cases hmem : (src, dst) ∈ s.edges
  · cases isDirected <;> simp [hmem]
  · simp [hmem]

/-- **A removal of an edge** between vertices that exist. -/
theorem removeEdge_spec (hsrc : d.dictionary.lookup a = some src)
    (hdst : d.dictionary.lookup b = some dst)
    (h : removeEdge attempts d a b = some (result, d')) :
    ∃ n, d.store.allocated ≤ n ∧ result = deleteResult d.isDirected d.store.edges src dst ∧
      d' = { d with
        store := ⟨d.store.vertices, deleteEdges d.isDirected d.store.edges src dst, n⟩
        numEdges := d.numEdges - (if result then 1 else 0) } := by
  rw [removeEdge, hsrc, hdst] at h
  obtain ⟨⟨removed, store⟩, htransact, hret⟩ := Option.map_eq_some_iff.mp h
  obtain ⟨n, hn, hbody⟩ := transact_eq_some (fun s => by rw [removeEdgeBody_eq]) htransact
  rw [removeEdgeBody_eq] at hbody
  simp only [Prod.mk.injEq] at hbody hret
  obtain ⟨rfl, rfl⟩ := hbody
  obtain ⟨rfl, rfl⟩ := hret
  exact ⟨n, hn, rfl, rfl⟩

theorem GTXDriver.WellFormed.deleteEdges (h : d.WellFormed ids) {n : ℕ}
    (hn : d.store.allocated ≤ n) {isDirected : Bool} {numEdges : UInt64} :
    GTXDriver.WellFormed ids { d with
      store := ⟨d.store.vertices, Gtx.deleteEdges isDirected d.store.edges src dst, n⟩
      numEdges := numEdges } := by
  refine ⟨fun v id hv => (h.drawn v id hv).mono hn, h.injective, fun x y hxy => ?_⟩
  have hold : (x, y) ∈ d.store.edges := by
    simp only [Gtx.deleteEdges] at hxy
    split_ifs at hxy <;> simp only [Finmap.mem_erase] at hxy <;> tauto
  exact (h.endpoints x y hold).imp (fun h' => h'.mono hn) fun h' => h'.mono hn

theorem hasVertex_of_getWeight {w : W} (h : d.getWeight a b = some w) :
    d.hasVertex a = true ∧ d.hasVertex b = true := by
  rw [getWeight] at h
  cases ha : d.dictionary.lookup a with
  | none => simp [ha] at h
  | some src =>
    cases hb : d.dictionary.lookup b with
    | none => simp [ha, hb] at h
    | some dst =>
      exact ⟨decide_eq_true (Finmap.mem_of_lookup_eq_some ha),
        decide_eq_true (Finmap.mem_of_lookup_eq_some hb)⟩

theorem removeEdge_of_none (hnone : d.dictionary.lookup a = none ∨ d.dictionary.lookup b = none) :
    removeEdge attempts d a b = some (false, d) := by
  rw [removeEdge]
  rcases hnone with hnone | hnone
  · rw [hnone]
  · rw [hnone]
    cases d.dictionary.lookup a <;> rfl

/-- What the first commit of the attempts returns. -/
def firstCommit : List Attempt → Option Bool
  | [] => none
  | .rollback _ :: attempts => firstCommit attempts
  | .commit ok :: _ => some ok

/-- **An insertion of a vertex.** Its payload is stored only if the transaction commits. -/
structure AddSpec (ids : ℕ → ℕ) (d : GTXDriver W) (v id : ℕ) (committed : Bool)
    (d' : GTXDriver W) : Prop where
  isDirected : d'.isDirected = d.isDirected
  drawn : ∃ k, d.store.allocated ≤ k ∧ k < d'.store.allocated ∧ ids k = id
  dictionary : d'.dictionary = d.dictionary.insert v id
  vertices : d'.store.vertices =
    if committed then d.store.vertices.insert id v else d.store.vertices
  edges : d'.store.edges = d.store.edges
  numVertices : d'.numVertices = d.numVertices + 1
  numEdges : d'.numEdges = d.numEdges

theorem addVertexLoop_spec {s s' : Store W} (h : addVertexLoop ids v attempts s = some (id, s')) :
    ∃ committed, firstCommit attempts = some committed ∧
      (∃ k, s.allocated ≤ k ∧ k < s'.allocated ∧ ids k = id) ∧
      s'.vertices = (if committed then s.vertices.insert id v else s.vertices) ∧
      s'.edges = s.edges := by
  induction attempts generalizing s with
  | nil => cases h
  | cons attempt attempts ih =>
    cases attempt with
    | rollback drawn =>
      obtain ⟨committed, hfirst, ⟨k, hk, hk', hid⟩, hrest⟩ := ih h
      exact ⟨committed, hfirst, ⟨k, (Nat.le_add_right _ _).trans hk, hk', hid⟩, hrest⟩
    | commit ok =>
      simp only [addVertexLoop, Store.newVertex, Option.some.injEq, Prod.mk.injEq] at h
      obtain ⟨rfl, rfl⟩ := h
      refine ⟨ok, rfl, ⟨s.allocated, Nat.le_refl _, ?_, rfl⟩, ?_, ?_⟩
      · cases ok <;> exact Nat.lt_succ_self _
      · cases ok <;> rfl
      · cases ok <;> rfl

theorem addVertex_spec (h : addVertex ids attempts d v = some (result, d')) :
    (d.dictionary.lookup v ≠ none ∧ d' = d) ∨ (d.dictionary.lookup v = none ∧
      ∃ id committed, firstCommit attempts = some committed ∧ AddSpec ids d v id committed d') := by
  rw [addVertex] at h
  cases hv : d.hasVertex v with
  | true =>
    rw [hv, if_pos rfl] at h
    refine Or.inl ⟨?_, (Prod.mk.inj (Option.some.inj h)).2.symm⟩
    rw [Ne, Finmap.lookup_eq_none, not_not]
    simpa [hasVertex] using hv
  | false =>
    rw [hv, if_neg Bool.false_ne_true] at h
    obtain ⟨⟨id, store⟩, hloop, hret⟩ := Option.map_eq_some_iff.mp h
    obtain ⟨committed, hfirst, hdrawn, hvertices, hedges⟩ := addVertexLoop_spec hloop
    obtain ⟨-, rfl⟩ := Prod.mk.inj hret
    refine Or.inr ⟨?_, id, committed, hfirst, rfl, hdrawn, rfl, hvertices, hedges, rfl, rfl⟩
    rw [Finmap.lookup_eq_none]
    simpa [hasVertex] using hv

theorem AddSpec.wellFormed {committed : Bool} (h : AddSpec ids d v id committed d')
    (hids : Function.Injective ids) (hd : d.WellFormed ids) : d'.WellFormed ids := by
  have hfresh := not_drawn hids h.drawn
  obtain ⟨k, hk, hk', rfl⟩ := h.drawn
  have hle : d.store.allocated ≤ d'.store.allocated := hk.trans hk'.le
  refine ⟨fun x id' hx => ?_, fun x x' id' hx hx' => ?_, fun x y hxy => ?_⟩
  · rw [h.dictionary] at hx
    by_cases hxv : x = v
    · rw [hxv, Finmap.lookup_insert] at hx
      exact ⟨k, hk', Option.some.inj hx⟩
    · rw [Finmap.lookup_insert_of_ne _ hxv] at hx
      exact (hd.drawn x id' hx).mono hle
  · rw [h.dictionary] at hx hx'
    by_cases hxv : x = v <;> by_cases hxv' : x' = v
    · rw [hxv, hxv']
    · rw [hxv, Finmap.lookup_insert] at hx
      rw [Finmap.lookup_insert_of_ne _ hxv', ← hx] at hx'
      exact absurd (hd.drawn x' _ hx') hfresh
    · rw [hxv', Finmap.lookup_insert] at hx'
      rw [Finmap.lookup_insert_of_ne _ hxv, ← hx'] at hx
      exact absurd (hd.drawn x _ hx) hfresh
    · rw [Finmap.lookup_insert_of_ne _ hxv] at hx
      rw [Finmap.lookup_insert_of_ne _ hxv'] at hx'
      exact hd.injective x x' id' hx hx'
  · rw [h.edges] at hxy
    exact (hd.endpoints x y hxy).imp (fun h' => h'.mono hle) fun h' => h'.mono hle

end Spec

end Gtx

end GfeDriver
