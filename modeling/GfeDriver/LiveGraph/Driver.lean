import GfeDriver.Foundation.Calls
import GfeDriver.Foundation.EdgeCount

/-!
# The updates of the LiveGraph driver

LiveGraph is a transactional store of vertices with a payload and of directed edges with a label.
The driver translates external vertices to the identifiers of LiveGraph with a dictionary, and
counts the vertices and the edges itself. An edge has the label `0`. In an undirected graph it is
written in both directions; in a directed one `add_edge_v2` writes the opposite edge with the label
`1`, which is how the incoming edges of a vertex are found, and `add_edge` and `remove_edge` leave
it alone.

A transaction that rolls back has no effect, but the identifiers it has drawn are not drawn again.
An update runs it again until it commits. Whether `del_vertex` also removes the edges of the vertex
is a parameter.

## Main definitions

* `Store W`: what the driver relies on of LiveGraph
* `LiveGraphDriver W`, `addVertex`, `removeVertex`, `addEdge`, `addEdgeV2`, `removeEdge`: the driver
* `Call`, `LiveGraphDriver.step`: a call of the driver
* `Store.layer s label`: the edges with a label

## Main results

* `Store.layer_putEdge`, `Store.layer_delEdge`, `Store.layer_delVertex`: what the store does to a
  layer
* `addEdgeBody_of_notMem`, `addEdgeV2Body_spec`, `removeEdgeBody_of_mem`: what the transactions do
  to the layers
-/

namespace GfeDriver

namespace LiveGraph

open Foundation

/-! ## The store -/

/-- The committed state of LiveGraph: the payload of the vertices, the weights of the edges by
source, label and destination, and the number of identifiers drawn so far. -/
structure Store (W : Type) where
  vertices : Finmap fun _ : ℕ => ℕ
  edges : Finmap fun _ : ℕ × ℕ × ℕ => W
  allocated : ℕ

namespace Store

variable {W : Type}

/-- `new_vertex`: the identifiers are those of the sequence `ids`. -/
def newVertex (ids : ℕ → ℕ) (s : Store W) : ℕ × Store W :=
  (ids s.allocated, { s with allocated := s.allocated + 1 })

def putVertex (s : Store W) (id payload : ℕ) : Store W :=
  { s with vertices := s.vertices.insert id payload }

/-- The edges that do not have the vertex as an end. -/
def edgesWithout (s : Store W) (id : ℕ) : Finmap fun _ : ℕ × ℕ × ℕ => W where
  entries := s.edges.entries.filter fun e => e.1.1 ≠ id ∧ e.1.2.2 ≠ id
  nodupKeys := Multiset.nodup_keys.mp <|
    Multiset.nodup_of_le (Multiset.map_le_map (Multiset.filter_le ..)) <|
      Multiset.nodup_keys.mpr s.edges.nodupKeys

/-- `del_vertex`, which removes the edges of the vertex too if `cascade` is set. -/
def delVertex (cascade : Bool) (s : Store W) (id : ℕ) : Store W :=
  { s with
    vertices := s.vertices.erase id
    edges := if cascade then s.edgesWithout id else s.edges }

def getEdge (s : Store W) (src label dst : ℕ) : Option W := s.edges.lookup (src, label, dst)

/-- `put_edge`: insert or overwrite the edge. -/
def putEdge (s : Store W) (src label dst : ℕ) (weight : W) : Store W :=
  { s with edges := s.edges.insert (src, label, dst) weight }

/-- `del_edge`: remove the edge, and tell whether it was there. -/
def delEdge (s : Store W) (src label dst : ℕ) : Bool × Store W :=
  ((src, label, dst) ∈ s.edges, { s with edges := s.edges.erase (src, label, dst) })

/-- The store after a transaction that was rolled back, and had drawn `n` identifiers. -/
def rolledBack (s : Store W) (n : ℕ) : Store W := { s with allocated := s.allocated + n }

/-- The vertex is an end of some edge. -/
def hasEdges (s : Store W) (id : ℕ) : Bool := ∃ e ∈ s.edges.keys, e.1 = id ∨ e.2.2 = id

end Store

/-- The loop of an update: the transaction runs again after every rollback. -/
def transact {W α : Type} (body : Store W → α × Store W) : List ℕ → Store W → α × Store W
  | [], s => body s
  | drawn :: rollbacks, s => transact body rollbacks (s.rolledBack drawn)

/-! ## The driver -/

/-- `LiveGraphDriver`: the dictionary, the store and the counters. -/
structure LiveGraphDriver (W : Type) where
  isDirected : Bool
  dictionary : Finmap fun _ : ℕ => ℕ
  store : Store W
  numVertices : UInt64
  numEdges : UInt64

namespace LiveGraphDriver

variable {W : Type}

/-- The constructor. -/
def new (W : Type) (isDirected : Bool) : LiveGraphDriver W := ⟨isDirected, ∅, ⟨∅, ∅, 0⟩, 0, 0⟩

/-- `has_vertex`. -/
def hasVertex (d : LiveGraphDriver W) (v : ℕ) : Bool := v ∈ d.dictionary

/-- `get_weight`, where `none` is the signalling NaN. -/
def getWeight (d : LiveGraphDriver W) (source destination : ℕ) : Option W :=
  match d.dictionary.lookup source, d.dictionary.lookup destination with
  | some src, some dst => d.store.getEdge src 0 dst
  | _, _ => none

/-- The identifier of a vertex in a transaction, which creates the vertex if it has none. -/
def createVertex (ids : ℕ → ℕ) (s : Store W) (v : ℕ) (id : Option ℕ) : ℕ × Store W :=
  match id with
  | some id => (id, s)
  | none =>
    let (id, s) := s.newVertex ids
    (id, s.putVertex id v)

/-- `add_vertex`. -/
def addVertex (ids : ℕ → ℕ) (rollbacks : List ℕ) (d : LiveGraphDriver W) (v : ℕ) :
    Bool × LiveGraphDriver W :=
  if d.hasVertex v then (false, d)
  else
    let (id, store) := transact (fun s =>
      let (id, s) := s.newVertex ids
      (id, s.putVertex id v)) rollbacks d.store
    (true, { d with
      store := store
      dictionary := d.dictionary.insert v id
      numVertices := d.numVertices + 1 })

/-- `remove_vertex`, which counts down also when there is no such vertex. -/
def removeVertex (cascade : Bool) (rollbacks : List ℕ) (d : LiveGraphDriver W) (v : ℕ) :
    Bool × LiveGraphDriver W :=
  match d.dictionary.lookup v with
  | some id =>
    let ((), store) := transact (fun s => ((), s.delVertex cascade id)) rollbacks d.store
    (true, { d with
      store := store
      dictionary := d.dictionary.erase v
      numVertices := d.numVertices - 1 })
  | none => (false, { d with numVertices := d.numVertices - 1 })

/-- The transaction of `add_edge`, which is aborted when the edge is there. -/
def addEdgeBody (isDirected : Bool) (src dst : ℕ) (w : W) (s : Store W) : Bool × Store W :=
  match s.getEdge src 0 dst with
  | some _ => (false, s)
  | none =>
    let s := s.putEdge src 0 dst w
    (true, if !isDirected then s.putEdge dst 0 src w else s)

/-- `add_edge`. -/
def addEdge (rollbacks : List ℕ) (d : LiveGraphDriver W) (a b : ℕ) (w : W) :
    Bool × LiveGraphDriver W :=
  match d.dictionary.lookup a, d.dictionary.lookup b with
  | some src, some dst =>
    let (inserted, store) := transact (addEdgeBody d.isDirected src dst w) rollbacks d.store
    (inserted, { d with
      store := store
      numEdges := d.numEdges + (if inserted then 1 else 0) })
  | _, _ => (false, d)

/-- The transaction of `add_edge_v2`. -/
def addEdgeV2Body (ids : ℕ → ℕ) (isDirected : Bool) (a b : ℕ) (source destination : Option ℕ)
    (w : W) (s : Store W) : (ℕ × ℕ) × Store W :=
  let (src, s) := createVertex ids s a source
  let (dst, s) := createVertex ids s b destination
  let label := if isDirected then 1 else 0
  ((src, dst), (s.putEdge src 0 dst w).putEdge dst label src w)

/-- The identifier of a vertex is entered in the dictionary, if it had none. -/
def enterVertex (dictionary : Finmap fun _ : ℕ => ℕ) (v id : ℕ) (known : Option ℕ) :
    Finmap fun _ : ℕ => ℕ :=
  if known = none then dictionary.insert v id else dictionary

/-- `add_edge_v2`. It never returns for a loop at a new vertex: it waits then for the entry that it
has locked itself. -/
def addEdgeV2 (ids : ℕ → ℕ) (rollbacks : List ℕ) (d : LiveGraphDriver W) (a b : ℕ) (w : W) :
    Option (Bool × LiveGraphDriver W) :=
  let source := d.dictionary.lookup a
  let destination := d.dictionary.lookup b
  if a = b ∧ source = none then none
  else
    let ((src, dst), store) :=
      transact (addEdgeV2Body ids d.isDirected a b source destination w) rollbacks d.store
    some (true, { d with
      store := store
      dictionary := enterVertex (enterVertex d.dictionary a src source) b dst destination
      numVertices := d.numVertices + (if source = none then 1 else 0) +
        (if destination = none then 1 else 0)
      numEdges := d.numEdges + 1 })

/-- The transaction of `remove_edge`. -/
def removeEdgeBody (isDirected : Bool) (src dst : ℕ) (s : Store W) : Bool × Store W :=
  let (removed, s) := s.delEdge src 0 dst
  (removed, if removed && !isDirected then (s.delEdge dst 0 src).2 else s)

/-- `remove_edge`. -/
def removeEdge (rollbacks : List ℕ) (d : LiveGraphDriver W) (a b : ℕ) :
    Bool × LiveGraphDriver W :=
  match d.dictionary.lookup a, d.dictionary.lookup b with
  | some src, some dst =>
    let (removed, store) := transact (removeEdgeBody d.isDirected src dst) rollbacks d.store
    (removed, { d with
      store := store
      numEdges := d.numEdges - (if removed then 1 else 0) })
  | _, _ => (false, d)

end LiveGraphDriver

/-- A call of the driver, with the identifiers drawn by the attempts that are rolled back. -/
inductive Call (W : Type)
  | addVertex (v : ℕ) (rollbacks : List ℕ)
  | removeVertex (v : ℕ) (rollbacks : List ℕ)
  | addEdge (a b : ℕ) (w : W) (rollbacks : List ℕ)
  | addEdgeV2 (a b : ℕ) (w : W) (rollbacks : List ℕ)
  | removeEdge (a b : ℕ) (rollbacks : List ℕ)

/-- A call and its answer. -/
def LiveGraphDriver.step {W : Type} (ids : ℕ → ℕ) (cascade : Bool) (d : LiveGraphDriver W) :
    Call W → Option (Bool × LiveGraphDriver W)
  | .addVertex v rollbacks => some (d.addVertex ids rollbacks v)
  | .removeVertex v rollbacks => some (d.removeVertex cascade rollbacks v)
  | .addEdge a b w rollbacks => some (d.addEdge rollbacks a b w)
  | .addEdgeV2 a b w rollbacks => d.addEdgeV2 ids rollbacks a b w
  | .removeEdge a b rollbacks => some (d.removeEdge rollbacks a b)

/-! ## What the updates do -/

section Spec

variable {W : Type} {ids : ℕ → ℕ} {s : Store W} {a b src dst id label : ℕ} {w : W}

/-- **The loop of an update** is its transaction, when identifiers were drawn before. -/
theorem transact_eq {α : Type} (body : Store W → α × Store W) (rollbacks : List ℕ) (s : Store W) :
    transact body rollbacks s = body (s.rolledBack rollbacks.sum) := by
  induction rollbacks generalizing s with
  | nil => rfl
  | cons drawn rollbacks ih =>
    rw [transact, ih, List.sum_cons, Store.rolledBack, Store.rolledBack, Store.rolledBack,
      Nat.add_assoc]

/-- **A layer**: the edges with a label, by their ends. -/
def Store.layer (s : Store W) (label : ℕ) : Finset (ℕ × ℕ) :=
  (s.edges.keys.filter (·.2.1 = label)).image fun e => (e.1, e.2.2)

namespace Store

theorem layer_rolledBack (s : Store W) (n label : ℕ) :
    (s.rolledBack n).layer label = s.layer label := rfl

theorem allocated_le_rolledBack (s : Store W) (n : ℕ) :
    s.allocated ≤ (s.rolledBack n).allocated := Nat.le_add_right _ _

theorem mem_layer : (a, b) ∈ s.layer label ↔ (a, label, b) ∈ s.edges := by
  simp only [layer, Finset.mem_image, Finset.mem_filter, Finmap.mem_keys, Prod.mk.injEq]
  constructor
  · rintro ⟨⟨a', label', b'⟩, ⟨hmem, rfl⟩, rfl, rfl⟩
    exact hmem
  · exact fun hmem => ⟨(a, label, b), ⟨hmem, rfl⟩, rfl, rfl⟩

theorem layer_putEdge (s : Store W) (src label dst : ℕ) (w : W) (label' : ℕ) :
    (s.putEdge src label dst w).layer label' =
      if label' = label then insert (src, dst) (s.layer label') else s.layer label' := by
  ext ⟨a, b⟩
  have hmem : (a, b) ∈ (s.putEdge src label dst w).layer label' ↔
      (a = src ∧ label' = label ∧ b = dst) ∨ (a, b) ∈ s.layer label' := by
    rw [mem_layer, mem_layer, putEdge, Finmap.mem_insert, Prod.mk.injEq, Prod.mk.injEq]
  rw [hmem]
  split_ifs with hlabel
  · simp only [hlabel, true_and, Finset.mem_insert, Prod.mk.injEq]
  · simp only [hlabel, false_and, and_false, false_or]

theorem layer_delEdge (s : Store W) (src label dst label' : ℕ) :
    (s.delEdge src label dst).2.layer label' =
      if label' = label then (s.layer label').erase (src, dst) else s.layer label' := by
  ext ⟨a, b⟩
  have hmem : (a, b) ∈ (s.delEdge src label dst).2.layer label' ↔
      ¬(a = src ∧ label' = label ∧ b = dst) ∧ (a, b) ∈ s.layer label' := by
    rw [mem_layer, mem_layer, delEdge, Finmap.mem_erase, ne_eq, Prod.mk.injEq, Prod.mk.injEq]
  rw [hmem]
  split_ifs with hlabel
  · simp only [hlabel, true_and, Finset.mem_erase, ne_eq, Prod.mk.injEq]
  · simp only [hlabel, false_and, and_false, not_false_eq_true, true_and]

theorem mem_edgesWithout (s : Store W) (id : ℕ) (e : ℕ × ℕ × ℕ) :
    e ∈ s.edgesWithout id ↔ e ∈ s.edges ∧ e.1 ≠ id ∧ e.2.2 ≠ id := by
  simp only [Finmap.mem_def, edgesWithout, Multiset.keys, Multiset.mem_map, Multiset.mem_filter]
  constructor
  · rintro ⟨⟨e', w⟩, ⟨hmem, hends⟩, rfl⟩
    exact ⟨⟨⟨e', w⟩, hmem, rfl⟩, hends⟩
  · rintro ⟨⟨⟨e', w⟩, hmem, rfl⟩, hends⟩
    exact ⟨⟨e', w⟩, ⟨hmem, hends⟩, rfl⟩

/-- The edges that are left with a vertex removed, when its edges are removed too or not. -/
theorem mem_layer_delVertex (cascade : Bool) (s : Store W) (id : ℕ) :
    (a, b) ∈ (s.delVertex cascade id).layer label ↔
      (a, b) ∈ s.layer label ∧ (cascade = true → a ≠ id ∧ b ≠ id) := by
  rw [mem_layer, mem_layer, delVertex]
  cases cascade with
  | true => simp only [if_true, mem_edgesWithout, forall_const]
  | false => simp

/-- **A vertex without edges** is removed. -/
theorem layer_delVertex {cascade : Bool} (h : s.hasEdges id = false) (label : ℕ) :
    (s.delVertex cascade id).layer label = s.layer label := by
  ext ⟨a, b⟩
  rw [mem_layer_delVertex, and_iff_left_iff_imp, mem_layer]
  intro hmem _
  rw [hasEdges, decide_eq_false_iff_not] at h
  constructor
  · exact fun heq => h ⟨_, Finmap.mem_keys.mpr hmem, Or.inl heq⟩
  · exact fun heq => h ⟨_, Finmap.mem_keys.mpr hmem, Or.inr heq⟩

theorem getEdge_eq_none : s.getEdge a label b = none ↔ (a, b) ∉ s.layer label := by
  rw [getEdge, Finmap.lookup_eq_none, mem_layer]

end Store

namespace LiveGraphDriver

/-- What the creation of a vertex does: the identifier is the one that is known, or a new one. -/
theorem createVertex_spec {s' : Store W} {v : ℕ} {known : Option ℕ}
    (h : createVertex ids s v known = (id, s')) :
    s'.edges = s.edges ∧ s.allocated ≤ s'.allocated ∧ (known = some id ∨
      (known = none ∧ ∃ k, s.allocated ≤ k ∧ k < s'.allocated ∧ ids k = id)) := by
  cases known with
  | some known =>
    obtain ⟨rfl, rfl⟩ := Prod.mk.inj h
    exact ⟨rfl, Nat.le_refl _, Or.inl rfl⟩
  | none =>
    obtain ⟨rfl, rfl⟩ := Prod.mk.inj h
    exact ⟨rfl, Nat.le_succ _, Or.inr ⟨rfl, s.allocated, Nat.le_refl _, Nat.lt_succ_self _, rfl⟩⟩

/-- **`add_edge`** leaves an edge that is there as it is. -/
theorem addEdgeBody_of_mem {isDirected : Bool} (h : (src, dst) ∈ s.layer 0) :
    addEdgeBody isDirected src dst w s = (false, s) := by
  obtain ⟨w', hw'⟩ := Option.ne_none_iff_exists'.mp fun hnone => Store.getEdge_eq_none.mp hnone h
  rw [addEdgeBody, hw']

/-- **`add_edge`** inserts an edge that is not there, and leaves the other layers as they are. -/
theorem addEdgeBody_of_notMem (isDirected : Bool) (w : W) (h : (src, dst) ∉ s.layer 0) :
    ∃ s' : Store W, addEdgeBody isDirected src dst w s = (true, s') ∧ s'.allocated = s.allocated ∧
      s'.layer 0 = insertEdge isDirected (s.layer 0) src dst ∧
        ∀ label, label ≠ 0 → s'.layer label = s.layer label := by
  rw [addEdgeBody, Store.getEdge_eq_none.mpr h]
  cases isDirected with
  | true =>
    refine ⟨s.putEdge src 0 dst w, rfl, rfl, ?_, fun label hlabel => ?_⟩
    · rw [Store.layer_putEdge, if_pos rfl]
      rfl
    · rw [Store.layer_putEdge, if_neg hlabel]
  | false =>
    refine ⟨(s.putEdge src 0 dst w).putEdge dst 0 src w, rfl, rfl, ?_, fun label hlabel => ?_⟩
    · rw [Store.layer_putEdge, if_pos rfl, Store.layer_putEdge, if_pos rfl]
      rfl
    · rw [Store.layer_putEdge, if_neg hlabel, Store.layer_putEdge, if_neg hlabel]

/-- **`add_edge_v2`** writes the edge, whether it is there or not, and in a directed graph the
opposite edge with the label `1`. -/
theorem addEdgeV2Body_spec (ids : ℕ → ℕ) (isDirected : Bool) (a b : ℕ)
    (source destination : Option ℕ) (w : W) (s : Store W) :
    ∃ src dst s', addEdgeV2Body ids isDirected a b source destination w s = ((src, dst), s') ∧
      s.allocated ≤ s'.allocated ∧
      (source = some src ∨
        (source = none ∧ ∃ k, s.allocated ≤ k ∧ k < s'.allocated ∧ ids k = src)) ∧
      (destination = some dst ∨
        (destination = none ∧ ∃ k, s.allocated ≤ k ∧ k < s'.allocated ∧ ids k = dst)) ∧
      s'.layer 0 = insertEdge isDirected (s.layer 0) src dst ∧
      ∀ label, label ≠ 0 → s'.layer label =
        if isDirected = true ∧ label = 1 then insert (dst, src) (s.layer label)
        else s.layer label := by
  obtain ⟨src, s₁, hsource⟩ : ∃ src s₁, createVertex ids s a source = (src, s₁) := ⟨_, _, rfl⟩
  obtain ⟨dst, s₂, hdestination⟩ : ∃ dst s₂, createVertex ids s₁ b destination = (dst, s₂) :=
    ⟨_, _, rfl⟩
  obtain ⟨hedges₁, hle₁, hsrc⟩ := createVertex_spec hsource
  obtain ⟨hedges₂, hle₂, hdst⟩ := createVertex_spec hdestination
  have hlayer : ∀ label, s₂.layer label = s.layer label := fun label => by
    rw [Store.layer, hedges₂, hedges₁]
    rfl
  have hbody : addEdgeV2Body ids isDirected a b source destination w s = ((src, dst),
      (s₂.putEdge src 0 dst w).putEdge dst (if isDirected then 1 else 0) src w) := by
    rw [addEdgeV2Body, hsource]
    simp only [hdestination]
  refine ⟨src, dst, _, hbody, hle₁.trans hle₂, hsrc.imp_right fun ⟨hnone, k, hk, hk', hid⟩ =>
    ⟨hnone, k, hk, hk'.trans_le hle₂, hid⟩, hdst.imp_right fun ⟨hnone, k, hk, hk', hid⟩ =>
    ⟨hnone, k, hle₁.trans hk, hk', hid⟩, ?_, fun label hlabel => ?_⟩
  · cases isDirected with
    | true =>
      rw [if_pos rfl, Store.layer_putEdge, if_neg Nat.zero_ne_one, Store.layer_putEdge, if_pos rfl,
        hlayer]
      rfl
    | false =>
      rw [if_neg Bool.false_ne_true, Store.layer_putEdge, if_pos rfl, Store.layer_putEdge,
        if_pos rfl, hlayer]
      rfl
  · cases isDirected with
    | true =>
      simp only [if_true, Store.layer_putEdge, hlabel, if_false, hlayer, true_and]
    | false =>
      simp only [Bool.false_eq_true, if_false, Store.layer_putEdge, hlabel, hlayer, false_and]

/-- **`remove_edge`** removes an edge that is there, and leaves the other layers as they are. -/
theorem removeEdgeBody_of_mem (isDirected : Bool) (h : (src, dst) ∈ s.layer 0) :
    ∃ s' : Store W, removeEdgeBody isDirected src dst s = (true, s') ∧ s'.allocated = s.allocated ∧
      s'.layer 0 = eraseEdge isDirected (s.layer 0) src dst ∧
        ∀ label, label ≠ 0 → s'.layer label = s.layer label := by
  have hmem : (s.delEdge src 0 dst).1 = true := decide_eq_true (Store.mem_layer.mp h)
  cases isDirected with
  | true =>
    refine ⟨(s.delEdge src 0 dst).2, ?_, rfl, ?_, fun label hlabel => ?_⟩
    · simp [removeEdgeBody, hmem]
    · rw [Store.layer_delEdge, if_pos rfl]
      rfl
    · rw [Store.layer_delEdge, if_neg hlabel]
  | false =>
    refine ⟨((s.delEdge src 0 dst).2.delEdge dst 0 src).2, ?_, rfl, ?_, fun label hlabel => ?_⟩
    · simp [removeEdgeBody, hmem]
    · rw [Store.layer_delEdge, if_pos rfl, Store.layer_delEdge, if_pos rfl]
      rfl
    · rw [Store.layer_delEdge, if_neg hlabel, Store.layer_delEdge, if_neg hlabel]

/-- **`remove_edge`** leaves everything as it is when the edge is not there. -/
theorem removeEdgeBody_of_notMem (isDirected : Bool) (h : (src, dst) ∉ s.layer 0) :
    ∃ s' : Store W, removeEdgeBody isDirected src dst s = (false, s') ∧
      s'.allocated = s.allocated ∧ ∀ label, s'.layer label = s.layer label := by
  have hmem : (s.delEdge src 0 dst).1 = false :=
    decide_eq_false fun hmem => h (Store.mem_layer.mpr hmem)
  refine ⟨(s.delEdge src 0 dst).2, ?_, rfl, fun label => ?_⟩
  · simp [removeEdgeBody, hmem]
  · rw [Store.layer_delEdge]
    split_ifs with hlabel
    · rw [hlabel, Finset.erase_eq_of_notMem h]
    · rfl

end LiveGraphDriver

end Spec

end LiveGraph

end GfeDriver
