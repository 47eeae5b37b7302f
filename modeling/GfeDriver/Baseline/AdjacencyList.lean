import Mathlib.Data.List.AList
import Mathlib.Tactic
import GfeDriver.Graph.Edge

/-!
# The adjacency list: representation and updates

The sequential reference library keeps, for each vertex, the list of its outgoing and the list
of its incoming edges, and a counter of the edges. In an undirected graph each edge is stored
twice, in the outgoing lists of both endpoints, and the incoming lists are not used.

The assertions of the source are compiled out in a release build, so an operation that would
dereference or erase at `end()` has no defined result: the model answers `none` there.

## Main definitions

* `AdjacencyList W`: the state of the library
* `addVertex0`, `deleteVertex0`, `addEdge`, `addEdgeV2`, `deleteEdge0`: the updates
* `Operation`, `step`, `run`: sequences of calls
* `AdjacencyList.edges`: the distinct edges stored

## Main results

* `mem_upsert`, `mem_eraseFirst`: what one list holds after an update of it
* `mem_outgoing_addEdge0`, `mem_back_addEdge0`: what the lists hold after an insertion
* `mem_outgoing_deleteEdge0`, `mem_back_deleteEdge0`: what they hold after a removal
-/

namespace GfeDriver

/-- `EdgeList`: the edges attached to a vertex, as pairs of a neighbour and a weight. -/
abbrev EdgeList (W : Type) := List (ℕ × W)

/-- `EdgePair`: the outgoing and the incoming edges of a vertex. -/
structure EdgePair (W : Type) where
  outgoing : EdgeList W
  incoming : EdgeList W
  deriving DecidableEq, Repr

/-- `AdjacencyList`: the map of the vertices, the edge counter and the mode. The map is an
`unordered_map`, so the position of an entry carries no meaning. -/
structure AdjacencyList (W : Type) where
  nodes : AList fun _ : ℕ => EdgePair W
  numEdges : ℕ
  isDirected : Bool

/-! ## One edge list -/

namespace EdgeList

variable {W : Type}

/-- `find_if` on the neighbour: the first edge towards `v`. -/
def find (l : EdgeList W) (v : ℕ) : Option (ℕ × W) := l.find? fun e => e.1 = v

/-- `it->second = w` at the first edge towards `v`. -/
def assign : EdgeList W → ℕ → W → EdgeList W
  | [], _, _ => []
  | e :: l, v, w => if e.1 = v then (e.1, w) :: l else e :: assign l v w

/-- Overwrite the edge towards `v` when the list has one, append it otherwise. -/
def upsert (l : EdgeList W) (v : ℕ) (w : W) : EdgeList W :=
  match find l v with
  | none => l ++ [(v, w)]
  | some _ => assign l v w

/-- `erase(it)` at the first edge towards `v`. -/
def eraseFirst (l : EdgeList W) (v : ℕ) : EdgeList W := l.eraseP fun e => e.1 = v

/-- The neighbours listed. -/
def targets (l : EdgeList W) : List ℕ := l.map Prod.fst

theorem find_isSome {l : EdgeList W} {v : ℕ} : (find l v).isSome ↔ v ∈ targets l := by
  rw [find, List.find?_isSome, targets, List.mem_map]
  simp only [decide_eq_true_eq]

theorem find_eq_none {l : EdgeList W} {v : ℕ} : find l v = none ↔ v ∉ targets l := by
  rw [← find_isSome, Bool.not_eq_true, Option.isSome_eq_false_iff, Option.isNone_iff_eq_none]

theorem mem_targets {l : EdgeList W} {v : ℕ} : v ∈ targets l ↔ ∃ w, (v, w) ∈ l := by
  simp [targets]

theorem targets_assign (l : EdgeList W) (v : ℕ) (w : W) :
    targets (assign l v w) = targets l := by
  induction l with
  | nil => rfl
  | cons e l ih =>
    by_cases h : e.1 = v
    · simp [assign, h, targets]
    · simpa [assign, h, targets] using ih

theorem mem_assign {l : EdgeList W} (hl : (targets l).Nodup) {v : ℕ} (hv : v ∈ targets l)
    (w : W) (x : ℕ) (w' : W) :
    (x, w') ∈ assign l v w ↔ x = v ∧ w' = w ∨ x ≠ v ∧ (x, w') ∈ l := by
  induction l with
  | nil => simp [targets] at hv
  | cons e l ih =>
    obtain ⟨y, z⟩ := e
    simp only [targets, List.map_cons, List.nodup_cons, List.mem_cons] at hl hv
    by_cases h : y = v
    · subst h
      -- the first edge to this target is the only one
      have hne : ∀ w'', (y, w'') ∉ l := fun w'' hm => hl.1 (List.mem_map_of_mem hm)
      by_cases hx : x = y
      · subst hx
        simp [assign, hne]
      · simp [assign, hx]
    · rw [assign, if_neg h, List.mem_cons, ih hl.2 (hv.resolve_left (Ne.symm h)), List.mem_cons]
      by_cases hx : x = v
      · subst hx
        simp [Ne.symm h]
      · simp [hx]

/-- **Insertion or overwriting**: the list holds the new pair, and its other pairs. -/
theorem mem_upsert {l : EdgeList W} (hl : (targets l).Nodup) (v : ℕ) (w : W)
    (x : ℕ) (w' : W) :
    (x, w') ∈ upsert l v w ↔ x = v ∧ w' = w ∨ x ≠ v ∧ (x, w') ∈ l := by
  unfold upsert
  cases hf : find l v with
  | none =>
    -- a new target is appended
    have hv : v ∉ targets l := find_eq_none.mp hf
    have hne : (x, w') ∈ l → x ≠ v := by
      rintro hm rfl
      exact hv (mem_targets.mpr ⟨w', hm⟩)
    simp only [List.mem_append, List.mem_singleton, Prod.mk.injEq]
    tauto
  | some e =>
    have hv : v ∈ targets l := find_isSome.mp (by simp [hf])
    simpa using mem_assign hl hv w x w'

theorem nodup_upsert {l : EdgeList W} (hl : (targets l).Nodup) (v : ℕ) (w : W) :
    (targets (upsert l v w)).Nodup := by
  unfold upsert
  cases hf : find l v with
  | none =>
    have hv : v ∉ targets l := find_eq_none.mp hf
    have heq : targets (l ++ [(v, w)]) = targets l ++ [v] := by simp [targets]
    rw [heq]
    exact hl.append (List.nodup_singleton v) (List.disjoint_singleton.mpr hv)
  | some e => simpa [targets_assign] using hl

/-- **Removal**: the list holds its pairs towards the other vertices. -/
theorem mem_eraseFirst {l : EdgeList W} (hl : (targets l).Nodup) (v : ℕ) (x : ℕ)
    (w : W) : (x, w) ∈ eraseFirst l v ↔ x ≠ v ∧ (x, w) ∈ l := by
  induction l with
  | nil => simp [eraseFirst]
  | cons e l ih =>
    obtain ⟨y, z⟩ := e
    simp only [targets, List.map_cons, List.nodup_cons] at hl
    by_cases h : y = v
    · subst h
      -- the first edge to this target is the only one
      have hne : ∀ w'', (y, w'') ∉ l := fun w'' hm => hl.1 (List.mem_map_of_mem hm)
      by_cases hx : x = y
      · subst hx
        simp [eraseFirst, hne]
      · simp [eraseFirst, hx]
    · have ih' := ih hl.2
      unfold eraseFirst at ih' ⊢
      rw [List.eraseP_cons_of_neg (by simpa using h), List.mem_cons, ih', List.mem_cons]
      by_cases hx : x = v
      · subst hx
        simp [Ne.symm h]
      · simp [hx]

theorem nodup_eraseFirst {l : EdgeList W} (hl : (targets l).Nodup) (v : ℕ) :
    (targets (eraseFirst l v)).Nodup :=
  hl.sublist ((List.eraseP_sublist).map _)

end EdgeList

namespace AdjacencyList

variable {W : Type}

/-- `AdjacencyList::AdjacencyList`: the empty graph. -/
def empty (isDirected : Bool) : AdjacencyList W := ⟨∅, 0, isDirected⟩

/-! ## The lists of a vertex -/

/-- The two lists of a vertex, empty when the vertex does not exist. -/
def node (g : AdjacencyList W) (u : ℕ) : EdgePair W := (g.nodes.lookup u).getD ⟨[], []⟩

def outgoing (g : AdjacencyList W) (u : ℕ) : EdgeList W := (g.node u).outgoing

def incoming (g : AdjacencyList W) (u : ℕ) : EdgeList W := (g.node u).incoming

/-- The list in which an edge towards `v` is mirrored: `list_in` of the updates, and
`get_incoming_edges` of the kernels. -/
def back (g : AdjacencyList W) (v : ℕ) : EdgeList W :=
  if g.isDirected then g.incoming v else g.outgoing v

def setOutgoing (g : AdjacencyList W) (u : ℕ) (l : EdgeList W) : AdjacencyList W :=
  { g with nodes := g.nodes.insert u { g.node u with outgoing := l } }

def setIncoming (g : AdjacencyList W) (u : ℕ) (l : EdgeList W) : AdjacencyList W :=
  { g with nodes := g.nodes.insert u { g.node u with incoming := l } }

def setBack (g : AdjacencyList W) (v : ℕ) (l : EdgeList W) : AdjacencyList W :=
  if g.isDirected then g.setIncoming v l else g.setOutgoing v l

def setNumEdges (g : AdjacencyList W) (n : ℕ) : AdjacencyList W := { g with numEdges := n }

theorem node_of_not_mem {g : AdjacencyList W} {u : ℕ} (h : u ∉ g.nodes) :
    g.node u = ⟨[], []⟩ := by
  simp [node, AList.lookup_eq_none.mpr h]

theorem mem_nodes_of_outgoing {g : AdjacencyList W} {u : ℕ} {e : ℕ × W}
    (h : e ∈ g.outgoing u) : u ∈ g.nodes := by
  by_contra hu
  simp [outgoing, node_of_not_mem hu] at h

theorem node_insert (nodes : AList fun _ : ℕ => EdgePair W) (n : ℕ) (d : Bool)
    (u v : ℕ) (p : EdgePair W) :
    node ⟨nodes.insert u p, n, d⟩ v = if v = u then p else node ⟨nodes, n, d⟩ v := by
  by_cases h : v = u
  · subst h
    simp [node]
  · simp [node, AList.lookup_insert_ne h, h]

@[simp] theorem outgoing_setOutgoing (g : AdjacencyList W) (u v : ℕ) (l : EdgeList W) :
    (g.setOutgoing u l).outgoing v = if v = u then l else g.outgoing v := by
  simp only [outgoing, setOutgoing, node_insert]
  split_ifs <;> rfl

@[simp] theorem incoming_setOutgoing (g : AdjacencyList W) (u v : ℕ) (l : EdgeList W) :
    (g.setOutgoing u l).incoming v = g.incoming v := by
  simp only [incoming, setOutgoing, node_insert]
  split_ifs with h
  · rw [h]
  · rfl

@[simp] theorem outgoing_setIncoming (g : AdjacencyList W) (u v : ℕ) (l : EdgeList W) :
    (g.setIncoming u l).outgoing v = g.outgoing v := by
  simp only [outgoing, setIncoming, node_insert]
  split_ifs with h
  · rw [h]
  · rfl

@[simp] theorem incoming_setIncoming (g : AdjacencyList W) (u v : ℕ) (l : EdgeList W) :
    (g.setIncoming u l).incoming v = if v = u then l else g.incoming v := by
  simp only [incoming, setIncoming, node_insert]
  split_ifs <;> rfl

@[simp] theorem outgoing_setNumEdges (g : AdjacencyList W) (n v : ℕ) :
    (g.setNumEdges n).outgoing v = g.outgoing v := rfl

@[simp] theorem incoming_setNumEdges (g : AdjacencyList W) (n v : ℕ) :
    (g.setNumEdges n).incoming v = g.incoming v := rfl

@[simp] theorem back_setNumEdges (g : AdjacencyList W) (n v : ℕ) :
    (g.setNumEdges n).back v = g.back v := rfl

@[simp] theorem isDirected_setNumEdges (g : AdjacencyList W) (n : ℕ) :
    (g.setNumEdges n).isDirected = g.isDirected := rfl

@[simp] theorem numEdges_setNumEdges (g : AdjacencyList W) (n : ℕ) :
    (g.setNumEdges n).numEdges = n := rfl

@[simp] theorem nodes_setNumEdges (g : AdjacencyList W) (n : ℕ) :
    (g.setNumEdges n).nodes = g.nodes := rfl

@[simp] theorem isDirected_setOutgoing (g : AdjacencyList W) (u : ℕ) (l : EdgeList W) :
    (g.setOutgoing u l).isDirected = g.isDirected := rfl

@[simp] theorem isDirected_setBack (g : AdjacencyList W) (u : ℕ) (l : EdgeList W) :
    (g.setBack u l).isDirected = g.isDirected := by
  unfold setBack
  split_ifs <;> rfl

@[simp] theorem numEdges_setBack (g : AdjacencyList W) (u : ℕ) (l : EdgeList W) :
    (g.setBack u l).numEdges = g.numEdges := by
  unfold setBack
  split_ifs <;> rfl

@[simp] theorem mem_nodes_setOutgoing (g : AdjacencyList W) (u v : ℕ) (l : EdgeList W) :
    v ∈ (g.setOutgoing u l).nodes ↔ v = u ∨ v ∈ g.nodes := by
  simp [setOutgoing]

@[simp] theorem mem_nodes_setBack (g : AdjacencyList W) (u v : ℕ) (l : EdgeList W) :
    v ∈ (g.setBack u l).nodes ↔ v = u ∨ v ∈ g.nodes := by
  unfold setBack
  split_ifs <;> simp [setIncoming, setOutgoing]

@[simp] theorem back_setBack (g : AdjacencyList W) (u v : ℕ) (l : EdgeList W) :
    (g.setBack u l).back v = if v = u then l else g.back v := by
  unfold back
  rw [isDirected_setBack]
  unfold setBack
  cases g.isDirected <;> simp

@[simp] theorem outgoing_setBack (g : AdjacencyList W) (u v : ℕ) (l : EdgeList W) :
    (g.setBack u l).outgoing v =
      if g.isDirected = false ∧ v = u then l else g.outgoing v := by
  unfold setBack
  cases g.isDirected <;> simp

@[simp] theorem incoming_setBack (g : AdjacencyList W) (u v : ℕ) (l : EdgeList W) :
    (g.setBack u l).incoming v =
      if g.isDirected = true ∧ v = u then l else g.incoming v := by
  unfold setBack
  cases g.isDirected <;> simp

@[simp] theorem back_setOutgoing (g : AdjacencyList W) (u v : ℕ) (l : EdgeList W) :
    (g.setOutgoing u l).back v =
      if g.isDirected = false ∧ v = u then l else g.back v := by
  unfold back
  rw [isDirected_setOutgoing]
  cases g.isDirected <;> simp

/-! ## The updates -/

/-- How a call ends: with a value, or with the exception of an edge from a vertex to itself. -/
inductive Outcome (W : Type)
  | returned (value : Bool)
  | invalidArgument (e : WeightedEdge W)
  deriving DecidableEq, Repr

/-- `emplace(vertex_id, EdgePair{})`: nothing happens when the vertex exists. -/
def emplace (g : AdjacencyList W) (v : ℕ) : AdjacencyList W :=
  if v ∈ g.nodes then g else { g with nodes := g.nodes.insert v ⟨[], []⟩ }

/-- `AdjacencyList::add_vertex0`. -/
def addVertex0 (g : AdjacencyList W) (v : ℕ) : Bool × AdjacencyList W :=
  (decide (v ∉ g.nodes), g.emplace v)

/-- One iteration of the loops of `delete_vertex0`: the edge back to `v` is looked up in the
list `side` of the neighbour and erased. The source writes `auto lst = ...`, so what it erases
from is a copy of the list, dropped at the end of the iteration; only the undefined cases (no
such neighbour, no edge back) are left. -/
def eraseFromCopy (g : AdjacencyList W) (side : EdgePair W → EdgeList W) (v : ℕ)
    (e : ℕ × W) : Option Unit := do
  let neighbour ← g.nodes.lookup e.1
  let copy := side neighbour
  let _ ← copy.find v
  let _ := copy.eraseFirst v
  pure ()

/-- `AdjacencyList::delete_vertex0`. -/
def deleteVertex0 (g : AdjacencyList W) (v : ℕ) : Option (Bool × AdjacencyList W) :=
  match g.nodes.lookup v with
  | none => some (false, g)
  | some p => do
    p.outgoing.forM
      (g.eraseFromCopy (fun q => if g.isDirected then q.incoming else q.outgoing) v)
    if g.isDirected then p.incoming.forM (g.eraseFromCopy EdgePair.outgoing v)
    some (true, { g with nodes := g.nodes.erase v })

/-- `AdjacencyList::add_edge0`, both endpoints present: the outgoing list of the source first,
then the mirroring list of the destination. -/
def addEdge0 (g : AdjacencyList W) (e : WeightedEdge W) : AdjacencyList W :=
  let listOut := g.outgoing e.source
  let g₁ := (g.setOutgoing e.source (listOut.upsert e.destination e.weight)).setNumEdges
    (if (listOut.find e.destination).isNone then g.numEdges + 1 else g.numEdges)
  let listIn := g₁.back e.destination
  g₁.setBack e.destination (listIn.upsert e.source e.weight)

/-- `AdjacencyList::add_edge`, with `add_edge_impl`. -/
def addEdge (g : AdjacencyList W) (e : WeightedEdge W) : Outcome W × AdjacencyList W :=
  if e.source = e.destination then (.invalidArgument e, g)
  else if e.source ∉ g.nodes then (.returned false, g)
  else if e.destination ∉ g.nodes then (.returned false, g)
  else (.returned true, g.addEdge0 e)

/-- `AdjacencyList::add_edge_v2`, with `add_edge_v2_impl`. -/
def addEdgeV2 (g : AdjacencyList W) (e : WeightedEdge W) : Outcome W × AdjacencyList W :=
  if e.source = e.destination then (.invalidArgument e, g)
  else (.returned true, ((g.emplace e.source).emplace e.destination).addEdge0 e)

/-- `AdjacencyList::delete_edge0`. -/
def deleteEdge0 (g : AdjacencyList W) (e : Edge) : Option (Bool × AdjacencyList W) :=
  if e.source ∉ g.nodes then some (false, g)
  else if e.destination ∉ g.nodes then some (false, g)
  else
    let listOut := g.outgoing e.source
    if (listOut.find e.destination).isNone then some (false, g)
    else do
      let g₁ := (g.setOutgoing e.source (listOut.eraseFirst e.destination)).setNumEdges
        (g.numEdges - 1)
      let listIn := g₁.back e.destination
      let _ ← listIn.find e.source
      some (true, g₁.setBack e.destination (listIn.eraseFirst e.source))

/-! ## Sequences of calls -/

/-- The update calls of the interface. -/
inductive Operation (W : Type)
  | addVertex (v : ℕ)
  | removeVertex (v : ℕ)
  | addEdge (e : WeightedEdge W)
  | addEdgeV2 (e : WeightedEdge W)
  | removeEdge (e : Edge)
  deriving DecidableEq, Repr

/-- One call, its outcome and the state it leaves. -/
def step (g : AdjacencyList W) : Operation W → Option (Outcome W × AdjacencyList W)
  | .addVertex v => let r := g.addVertex0 v; some (.returned r.1, r.2)
  | .removeVertex v => (g.deleteVertex0 v).map fun r => (.returned r.1, r.2)
  | .addEdge e => some (g.addEdge e)
  | .addEdgeV2 e => some (g.addEdgeV2 e)
  | .removeEdge e => (g.deleteEdge0 e).map fun r => (.returned r.1, r.2)

/-- The state after a sequence of calls, when all of them are defined. -/
def run (g : AdjacencyList W) : List (Operation W) → Option (AdjacencyList W)
  | [] => some g
  | op :: ops => (g.step op).bind fun r => r.2.run ops

theorem run_append (g : AdjacencyList W) (ops ops' : List (Operation W)) :
    g.run (ops ++ ops') = (g.run ops).bind fun g' => g'.run ops' := by
  induction ops generalizing g with
  | nil => rfl
  | cons op ops ih =>
    simp only [List.cons_append, run, Option.bind_assoc]
    exact congrArg _ (funext fun r => ih r.2)

/-- The identity of an edge: its endpoints in order, and in either order when the graph is
undirected. -/
def edgeKey (isDirected : Bool) (u v : ℕ) : ℕ × ℕ :=
  if isDirected then (u, v) else (min u v, max u v)

/-- The distinct edges stored in the outgoing lists. -/
def edges (g : AdjacencyList W) : Finset (ℕ × ℕ) :=
  (g.nodes.keys.flatMap fun u => (g.outgoing u).map fun e => edgeKey g.isDirected u e.1).toFinset

theorem mem_edges {g : AdjacencyList W} {k : ℕ × ℕ} :
    k ∈ g.edges ↔ ∃ u v w, (v, w) ∈ g.outgoing u ∧ k = edgeKey g.isDirected u v := by
  simp only [edges, List.mem_toFinset, List.mem_flatMap, List.mem_map]
  constructor
  · rintro ⟨u, -, ⟨v, w⟩, he, rfl⟩
    exact ⟨u, v, w, he, rfl⟩
  · rintro ⟨u, v, w, he, rfl⟩
    exact ⟨u, AList.mem_keys.mpr (mem_nodes_of_outgoing he), (v, w), he, rfl⟩

theorem edgeKey_directed {u v u' v' : ℕ} :
    edgeKey true u v = edgeKey true u' v' ↔ u = u' ∧ v = v' := by
  simp [edgeKey]

theorem edgeKey_undirected {u v u' v' : ℕ} :
    edgeKey false u v = edgeKey false u' v' ↔ u = u' ∧ v = v' ∨ u = v' ∧ v = u' := by
  have h : edgeKey false u v = edgeKey false u' v' ↔ min u v = min u' v' ∧ max u v = max u' v' :=
    Prod.mk.injEq _ _ _ _ ▸ Iff.rfl
  rw [h]
  omega

end AdjacencyList

end GfeDriver
