import GfeDriver.Baseline.AdjacencyList

/-!
# The adjacency list: the representation invariant

The lists of the vertices mirror each other, hold no neighbour twice and mention existing
vertices only, and the counter is the number of edges stored. Insertions and removals of edges
keep this, in both modes, because each of them acts on the two lists of one edge: what they do
is said once, through the identity `edgeKey` of that edge, by the membership lemmas below.

The removal of a vertex does not: it erases the mirrored edges from copies of the lists, so a
vertex with an edge leaves that edge dangling in the list of its neighbour. A run keeps the
invariant exactly when it removes no such vertex.

## Main definitions

* `AdjacencyList.Consistent`: the representation invariant
* `AdjacencyList.Invariant`: the same with the two facts its induction needs
* `AdjacencyList.Isolating`: a call does not remove a vertex that has an edge

## Main results

* `Invariant.addEdge0`, `Invariant.deleteEdge0`, `Invariant.deleteVertex0`: the updates
* `Invariant.step`, `not_consistent_step`: one call
* `consistent_run_iff`: whole runs
-/

namespace GfeDriver

namespace AdjacencyList

variable {W : Type}

/-- **The representation invariant**: neighbours exist, every edge is mirrored with its weight,
no list holds a neighbour twice, and the counter counts the edges. -/
structure Consistent (g : AdjacencyList W) : Prop where
  present : ∀ u v, v ∈ (g.outgoing u).targets ∨ v ∈ (g.incoming u).targets → v ∈ g.nodes
  mirror : ∀ u v w, (v, w) ∈ g.outgoing u ↔ (u, w) ∈ g.back v
  nodup : ∀ u, (g.outgoing u).targets.Nodup ∧ (g.incoming u).targets.Nodup
  count : g.numEdges = g.edges.card

/-- The invariant with what carries it through a run: no edge joins a vertex to itself, and an
undirected graph leaves the incoming lists empty. -/
structure Invariant (g : AdjacencyList W) : Prop extends Consistent g where
  loopless : ∀ u, u ∉ (g.outgoing u).targets
  incoming_nil : g.isDirected = false → ∀ u, g.incoming u = []

/-! ## The identity of an edge -/

theorem edgeKey_eq_iff {d : Bool} {u v s t : ℕ} :
    edgeKey d u v = edgeKey d s t ↔ u = s ∧ v = t ∨ d = false ∧ u = t ∧ v = s := by
  cases d with
  | true => simp [edgeKey_directed]
  | false => simp [edgeKey_undirected]

/-- The edges of a vertex that is no end of `s` and `t`, or their second end in a directed graph. -/
theorem not_sameKey {d : Bool} {u v s t : ℕ} (hu : u ≠ s) (hd : ¬(d = false ∧ u = t)) :
    ¬(u = s ∧ v = t ∨ d = false ∧ u = t ∧ v = s) := by
  rintro (⟨hs, -⟩ | ⟨hundirected, ht, -⟩)
  · exact hu hs
  · exact hd ⟨hundirected, ht⟩

/-- An edge is stored exactly when its source lists its destination. -/
theorem edgeKey_mem_edges {g : AdjacencyList W} (h : Consistent g) (u v : ℕ) :
    edgeKey g.isDirected u v ∈ g.edges ↔ v ∈ (g.outgoing u).targets := by
  rw [mem_edges, EdgeList.mem_targets]
  constructor
  · rintro ⟨u', v', w, hm, hk⟩
    rcases edgeKey_eq_iff.mp hk with ⟨rfl, rfl⟩ | ⟨hd, rfl, rfl⟩
    · exact ⟨w, hm⟩
    · have hback := (h.mirror v u w).mp hm
      rw [back, hd] at hback
      exact ⟨w, by simpa using hback⟩
  · rintro ⟨w, hm⟩
    exact ⟨u, v, w, hm, rfl⟩

/-! ## Insertion of an edge -/

section AddEdge

variable {g : AdjacencyList W} {e : WeightedEdge W}

@[simp] theorem isDirected_addEdge0 (g : AdjacencyList W) (e : WeightedEdge W) :
    (g.addEdge0 e).isDirected = g.isDirected := by
  simp [addEdge0]

@[simp] theorem numEdges_addEdge0 (g : AdjacencyList W) (e : WeightedEdge W) :
    (g.addEdge0 e).numEdges =
      if ((g.outgoing e.source).find e.destination).isNone then g.numEdges + 1 else g.numEdges := by
  simp [addEdge0]

@[simp] theorem mem_nodes_addEdge0 (g : AdjacencyList W) (e : WeightedEdge W) (v : ℕ) :
    v ∈ (g.addEdge0 e).nodes ↔ v = e.source ∨ v = e.destination ∨ v ∈ g.nodes := by
  simp only [addEdge0, mem_nodes_setBack, nodes_setNumEdges, mem_nodes_setOutgoing]
  tauto

theorem outgoing_addEdge0 (hne : e.source ≠ e.destination) (u : ℕ) :
    (g.addEdge0 e).outgoing u =
      if u = e.source then (g.outgoing e.source).upsert e.destination e.weight
      else if g.isDirected = false ∧ u = e.destination then
        (g.outgoing e.destination).upsert e.source e.weight
      else g.outgoing u := by
  cases hd : g.isDirected with
  | true => simp [addEdge0, hd]
  | false =>
    by_cases hu : u = e.destination
    · subst hu
      simp [addEdge0, hd, Ne.symm hne, back]
    · simp [addEdge0, hd, hu]

theorem incoming_addEdge0 (u : ℕ) :
    (g.addEdge0 e).incoming u =
      if g.isDirected = true ∧ u = e.destination then
        (g.incoming e.destination).upsert e.source e.weight
      else g.incoming u := by
  cases hd : g.isDirected with
  | true => simp [addEdge0, hd, back]
  | false => simp [addEdge0, hd]

/-- **What an insertion stores**: the two lists of the edge hold its weight, the others are as
they were. -/
theorem mem_outgoing_addEdge0 (h : Consistent g) (hne : e.source ≠ e.destination) (u v : ℕ)
    (w : W) :
    (v, w) ∈ (g.addEdge0 e).outgoing u ↔
      edgeKey g.isDirected u v = edgeKey g.isDirected e.source e.destination ∧ w = e.weight ∨
      edgeKey g.isDirected u v ≠ edgeKey g.isDirected e.source e.destination ∧
        (v, w) ∈ g.outgoing u := by
  rw [outgoing_addEdge0 hne, Ne, edgeKey_eq_iff]
  -- the lists of the two ends change, in a directed graph only that of the source
  split_ifs with hu hd
  · subst hu
    rw [EdgeList.mem_upsert (h.nodup _).1]
    simp only [true_and, hne, false_and, and_false, or_false]
  · obtain ⟨hd, rfl⟩ := hd
    rw [EdgeList.mem_upsert (h.nodup _).1]
    simp [hd, Ne.symm hne]
  · simp [not_sameKey hu hd]

/-- The same, read in the mirroring lists. -/
theorem mem_back_addEdge0 (h : Consistent g) (hne : e.source ≠ e.destination) (u v : ℕ) (w : W) :
    (u, w) ∈ (g.addEdge0 e).back v ↔
      edgeKey g.isDirected u v = edgeKey g.isDirected e.source e.destination ∧ w = e.weight ∨
      edgeKey g.isDirected u v ≠ edgeKey g.isDirected e.source e.destination ∧
        (u, w) ∈ g.back v := by
  cases hd : g.isDirected with
  | true =>
    simp only [back, isDirected_addEdge0, hd, if_true, incoming_addEdge0, true_and]
    rw [Ne, edgeKey_eq_iff]
    split_ifs with hv
    · subst hv
      rw [EdgeList.mem_upsert (h.nodup _).2]
      simp
    · simp [hv]
  | false =>
    -- the lists of an undirected graph are their own mirror
    have hout := mem_outgoing_addEdge0 h hne v u w
    have hkey : edgeKey false v u = edgeKey false u v := by simp [edgeKey_undirected]
    simpa only [back, isDirected_addEdge0, hd, Bool.false_eq_true, if_false, hkey] using hout

theorem edges_addEdge0 (h : Consistent g) (hne : e.source ≠ e.destination) :
    (g.addEdge0 e).edges = insert (edgeKey g.isDirected e.source e.destination) g.edges := by
  ext k
  simp only [mem_edges, Finset.mem_insert, isDirected_addEdge0, mem_outgoing_addEdge0 h hne]
  constructor
  · rintro ⟨u, v, w, ⟨hk, -⟩ | ⟨-, hm⟩, rfl⟩
    · exact Or.inl hk
    · exact Or.inr ⟨u, v, w, hm, rfl⟩
  · rintro (rfl | ⟨u, v, w, hm, rfl⟩)
    · exact ⟨e.source, e.destination, e.weight, Or.inl ⟨rfl, rfl⟩, rfl⟩
    · by_cases hk : edgeKey g.isDirected u v = edgeKey g.isDirected e.source e.destination
      · exact ⟨u, v, e.weight, Or.inl ⟨hk, rfl⟩, rfl⟩
      · exact ⟨u, v, w, Or.inr ⟨hk, hm⟩, rfl⟩

theorem Invariant.addEdge0 (h : Invariant g) (hne : e.source ≠ e.destination)
    (hs : e.source ∈ g.nodes) (hd : e.destination ∈ g.nodes) : Invariant (g.addEdge0 e) where
  present := by
    intro u v hv
    rw [mem_nodes_addEdge0]
    refine Or.inr (Or.inr ?_)
    rcases hv with hv | hv
    · obtain ⟨w, hm⟩ := EdgeList.mem_targets.mp hv
      rcases (mem_outgoing_addEdge0 h.toConsistent hne u v w).mp hm with ⟨hk, -⟩ | ⟨-, hm⟩
      · rcases edgeKey_eq_iff.mp hk with ⟨-, rfl⟩ | ⟨-, -, rfl⟩
        · exact hd
        · exact hs
      · exact h.present u v (Or.inl (EdgeList.mem_targets.mpr ⟨w, hm⟩))
    · obtain ⟨w, hm⟩ := EdgeList.mem_targets.mp hv
      rw [incoming_addEdge0] at hm
      split_ifs at hm with hu
      · rw [EdgeList.mem_upsert (h.nodup _).2] at hm
        rcases hm with ⟨rfl, -⟩ | ⟨-, hm⟩
        · exact hs
        · exact h.present _ v (Or.inr (EdgeList.mem_targets.mpr ⟨w, hm⟩))
      · exact h.present u v (Or.inr (EdgeList.mem_targets.mpr ⟨w, hm⟩))
  mirror := by
    intro u v w
    rw [mem_outgoing_addEdge0 h.toConsistent hne, mem_back_addEdge0 h.toConsistent hne,
      h.mirror u v w]
  nodup := by
    intro u
    constructor
    · rw [outgoing_addEdge0 hne]
      split_ifs
      · exact EdgeList.nodup_upsert (h.nodup _).1 _ _
      · exact EdgeList.nodup_upsert (h.nodup _).1 _ _
      · exact (h.nodup u).1
    · rw [incoming_addEdge0]
      split_ifs
      · exact EdgeList.nodup_upsert (h.nodup _).2 _ _
      · exact (h.nodup u).2
  count := by
    rw [numEdges_addEdge0, edges_addEdge0 h.toConsistent hne, h.count]
    have hmem := edgeKey_mem_edges h.toConsistent e.source e.destination
    -- `add_edge` counts an edge that it did not find
    split_ifs with hf
    · rw [Option.isNone_iff_eq_none, EdgeList.find_eq_none, ← hmem] at hf
      rw [Finset.card_insert_of_notMem hf]
    · rw [Option.isNone_iff_eq_none, EdgeList.find_eq_none, not_not, ← hmem] at hf
      rw [Finset.insert_eq_of_mem hf]
  loopless := by
    intro u hu
    obtain ⟨w, hm⟩ := EdgeList.mem_targets.mp hu
    rcases (mem_outgoing_addEdge0 h.toConsistent hne u u w).mp hm with ⟨hk, -⟩ | ⟨-, hm⟩
    · rcases edgeKey_eq_iff.mp hk with ⟨h₁, h₂⟩ | ⟨-, h₁, h₂⟩
      · exact hne (h₁.symm.trans h₂)
      · exact hne (h₂.symm.trans h₁)
    · exact h.loopless u (EdgeList.mem_targets.mpr ⟨w, hm⟩)
  incoming_nil := by
    intro hdir u
    rw [isDirected_addEdge0] at hdir
    simp [incoming_addEdge0, hdir, h.incoming_nil hdir u]

end AddEdge

/-! ## Removal of an edge -/

section DeleteEdge

variable {g : AdjacencyList W} {e : Edge}

/-- The state after the removal of a stored edge between two vertices. -/
def eraseEdge (g : AdjacencyList W) (e : Edge) : AdjacencyList W :=
  ((g.setOutgoing e.source ((g.outgoing e.source).eraseFirst e.destination)).setNumEdges
    (g.numEdges - 1)).setBack e.destination ((g.back e.destination).eraseFirst e.source)

theorem deleteEdge0_eq (h : Invariant g) (e : Edge) :
    g.deleteEdge0 e =
      if e.destination ∈ (g.outgoing e.source).targets then some (true, g.eraseEdge e)
      else some (false, g) := by
  by_cases hm : e.destination ∈ (g.outgoing e.source).targets
  · have hne : e.source ≠ e.destination := fun heq => h.loopless e.source (heq ▸ hm)
    obtain ⟨w, hw⟩ := EdgeList.mem_targets.mp hm
    have hs : e.source ∈ g.nodes := mem_nodes_of_outgoing hw
    have hd : e.destination ∈ g.nodes := h.present _ _ (Or.inl hm)
    -- the mirror has the edge, so that the second search succeeds
    have hfind : ((g.back e.destination).find e.source).isSome :=
      EdgeList.find_isSome.mpr (EdgeList.mem_targets.mpr ⟨w, (h.mirror _ _ _).mp hw⟩)
    obtain ⟨x, hx⟩ := Option.isSome_iff_exists.mp hfind
    have hout : ((g.outgoing e.source).find e.destination).isNone = false := by
      simpa using EdgeList.find_isSome.mpr hm
    simp [deleteEdge0, hs, hd, hout, hm, eraseEdge, Ne.symm hne, hx]
  · have hout : ((g.outgoing e.source).find e.destination).isNone = true := by
      simpa using EdgeList.find_eq_none.mpr hm
    simp [deleteEdge0, hout, hm]

@[simp] theorem isDirected_eraseEdge (g : AdjacencyList W) (e : Edge) :
    (g.eraseEdge e).isDirected = g.isDirected := by
  simp [eraseEdge]

theorem outgoing_eraseEdge (hne : e.source ≠ e.destination) (u : ℕ) :
    (g.eraseEdge e).outgoing u =
      if u = e.source then (g.outgoing e.source).eraseFirst e.destination
      else if g.isDirected = false ∧ u = e.destination then
        (g.outgoing e.destination).eraseFirst e.source
      else g.outgoing u := by
  cases hd : g.isDirected with
  | true => simp [eraseEdge, hd]
  | false =>
    by_cases hu : u = e.destination
    · subst hu
      simp [eraseEdge, hd, Ne.symm hne, back]
    · simp [eraseEdge, hd, hu]

theorem incoming_eraseEdge (u : ℕ) :
    (g.eraseEdge e).incoming u =
      if g.isDirected = true ∧ u = e.destination then
        (g.incoming e.destination).eraseFirst e.source
      else g.incoming u := by
  cases hd : g.isDirected with
  | true => simp [eraseEdge, hd, back]
  | false => simp [eraseEdge, hd]

/-- **What a removal leaves**: the two lists of the edge no longer hold it, the others are as
they were. -/
theorem mem_outgoing_eraseEdge (h : Consistent g) (hne : e.source ≠ e.destination) (u v : ℕ)
    (w : W) :
    (v, w) ∈ (g.eraseEdge e).outgoing u ↔
      edgeKey g.isDirected u v ≠ edgeKey g.isDirected e.source e.destination ∧
        (v, w) ∈ g.outgoing u := by
  rw [outgoing_eraseEdge hne, Ne, edgeKey_eq_iff]
  split_ifs with hu hd
  · subst hu
    rw [EdgeList.mem_eraseFirst (h.nodup _).1]
    simp only [true_and, hne, false_and, and_false, or_false, ne_eq]
  · obtain ⟨hd, rfl⟩ := hd
    rw [EdgeList.mem_eraseFirst (h.nodup _).1]
    simp [hd, Ne.symm hne]
  · simp [not_sameKey hu hd]

/-- The same, read in the mirroring lists. -/
theorem mem_back_eraseEdge (h : Consistent g) (hne : e.source ≠ e.destination) (u v : ℕ) (w : W) :
    (u, w) ∈ (g.eraseEdge e).back v ↔
      edgeKey g.isDirected u v ≠ edgeKey g.isDirected e.source e.destination ∧
        (u, w) ∈ g.back v := by
  cases hd : g.isDirected with
  | true =>
    simp only [back, isDirected_eraseEdge, hd, if_true, incoming_eraseEdge, true_and]
    rw [Ne, edgeKey_eq_iff]
    split_ifs with hv
    · subst hv
      rw [EdgeList.mem_eraseFirst (h.nodup _).2]
      simp
    · simp [hv]
  | false =>
    have hout := mem_outgoing_eraseEdge h hne v u w
    have hkey : edgeKey false v u = edgeKey false u v := by simp [edgeKey_undirected]
    simpa only [back, isDirected_eraseEdge, hd, Bool.false_eq_true, if_false, hkey] using hout

theorem edges_eraseEdge (h : Consistent g) (hne : e.source ≠ e.destination) :
    (g.eraseEdge e).edges = g.edges.erase (edgeKey g.isDirected e.source e.destination) := by
  ext k
  simp only [mem_edges, Finset.mem_erase, isDirected_eraseEdge, mem_outgoing_eraseEdge h hne]
  constructor
  · rintro ⟨u, v, w, ⟨hk, hm⟩, rfl⟩
    exact ⟨hk, u, v, w, hm, rfl⟩
  · rintro ⟨hk, u, v, w, hm, rfl⟩
    exact ⟨u, v, w, ⟨hk, hm⟩, rfl⟩

theorem Invariant.eraseEdge (h : Invariant g)
    (hm : e.destination ∈ (g.outgoing e.source).targets) : Invariant (g.eraseEdge e) := by
  have hne : e.source ≠ e.destination := fun heq => h.loopless e.source (heq ▸ hm)
  have hkeep : ∀ v, v ∈ g.nodes → v ∈ (g.eraseEdge e).nodes := by
    intro v hv
    simp [AdjacencyList.eraseEdge, hv]
  -- no list grows
  have hout : ∀ u v, v ∈ ((g.eraseEdge e).outgoing u).targets → v ∈ (g.outgoing u).targets := by
    intro u v hv
    obtain ⟨w, hw⟩ := EdgeList.mem_targets.mp hv
    exact EdgeList.mem_targets.mpr ⟨w, ((mem_outgoing_eraseEdge h.toConsistent hne u v w).mp hw).2⟩
  refine { present := ?_, mirror := ?_, nodup := ?_, count := ?_, loopless := ?_,
           incoming_nil := ?_ }
  · intro u v hv
    refine hkeep v ?_
    rcases hv with hv | hv
    · exact h.present u v (Or.inl (hout u v hv))
    · refine h.present u v (Or.inr ?_)
      rw [incoming_eraseEdge] at hv
      split_ifs at hv with hu
      · obtain ⟨w, hw⟩ := EdgeList.mem_targets.mp hv
        rw [EdgeList.mem_eraseFirst (h.nodup _).2] at hw
        exact EdgeList.mem_targets.mpr ⟨w, hu.2 ▸ hw.2⟩
      · exact hv
  · intro u v w
    rw [mem_outgoing_eraseEdge h.toConsistent hne, mem_back_eraseEdge h.toConsistent hne,
      h.mirror u v w]
  · intro u
    constructor
    · rw [outgoing_eraseEdge hne]
      split_ifs
      · exact EdgeList.nodup_eraseFirst (h.nodup _).1 _
      · exact EdgeList.nodup_eraseFirst (h.nodup _).1 _
      · exact (h.nodup u).1
    · rw [incoming_eraseEdge]
      split_ifs
      · exact EdgeList.nodup_eraseFirst (h.nodup _).2 _
      · exact (h.nodup u).2
  · have hkey := (edgeKey_mem_edges h.toConsistent e.source e.destination).mpr hm
    have hnum : (g.eraseEdge e).numEdges = g.numEdges - 1 := by simp [AdjacencyList.eraseEdge]
    rw [hnum, edges_eraseEdge h.toConsistent hne, Finset.card_erase_of_mem hkey, h.count]
  · intro u hu
    exact h.loopless u (hout u u hu)
  · intro hdir u
    rw [isDirected_eraseEdge] at hdir
    simp [incoming_eraseEdge, hdir, h.incoming_nil hdir u]

end DeleteEdge

/-! ## The vertices -/

section Vertices

variable {g : AdjacencyList W}

theorem outgoing_emplace (g : AdjacencyList W) (v u : ℕ) :
    (g.emplace v).outgoing u = g.outgoing u ∧ (g.emplace v).incoming u = g.incoming u := by
  unfold emplace
  split_ifs with hv
  · exact ⟨rfl, rfl⟩
  · simp only [outgoing, incoming, node_insert]
    split_ifs with hu
    · subst hu
      simp [node_of_not_mem hv]
    · exact ⟨rfl, rfl⟩

@[simp] theorem mem_nodes_emplace (g : AdjacencyList W) (v u : ℕ) :
    u ∈ (g.emplace v).nodes ↔ u = v ∨ u ∈ g.nodes := by
  unfold emplace
  split_ifs with hv
  · constructor
    · exact Or.inr
    · rintro (rfl | hu)
      · exact hv
      · exact hu
  · simp

/-- The invariant only depends on the lists, the counter and the mode, and on which vertices
exist. -/
theorem Invariant.of_lists_eq {g g' : AdjacencyList W} (h : Invariant g)
    (hout : ∀ u, g'.outgoing u = g.outgoing u) (hin : ∀ u, g'.incoming u = g.incoming u)
    (hnum : g'.numEdges = g.numEdges) (hdir : g'.isDirected = g.isDirected)
    (hpres : ∀ u v, v ∈ (g.outgoing u).targets ∨ v ∈ (g.incoming u).targets → v ∈ g'.nodes) :
    Invariant g' where
  present := by
    intro u v hv
    rw [hout, hin] at hv
    exact hpres u v hv
  mirror := by
    intro u v w
    simpa only [back, hout, hin, hdir] using h.mirror u v w
  nodup := by
    intro u
    rw [hout, hin]
    exact h.nodup u
  count := by
    have hedges : g'.edges = g.edges := by
      ext k
      simp only [mem_edges, hout, hdir]
    rw [hnum, hedges, h.count]
  loopless := by
    intro u
    rw [hout]
    exact h.loopless u
  incoming_nil := by
    intro hd u
    rw [hin]
    exact h.incoming_nil (hdir ▸ hd) u

theorem Invariant.emplace (h : Invariant g) (v : ℕ) : Invariant (g.emplace v) := by
  refine h.of_lists_eq (fun u => (outgoing_emplace g v u).1) (fun u => (outgoing_emplace g v u).2)
    ?_ ?_ fun u x hx => ?_
  · unfold AdjacencyList.emplace
    split_ifs <;> rfl
  · unfold AdjacencyList.emplace
    split_ifs <;> rfl
  · rw [mem_nodes_emplace]
    exact Or.inr (h.present u x hx)

/-- The copies of the lists from which `delete_vertex0` erases always have the edge it looks
for, so its loops are defined. -/
theorem forM_eraseFromCopy {side : EdgePair W → EdgeList W} {v : ℕ} {l : EdgeList W}
    (hl : ∀ e ∈ l, e.1 ∈ g.nodes ∧ v ∈ (side (g.node e.1)).targets) :
    l.forM (g.eraseFromCopy side v) = some () := by
  induction l with
  | nil => rfl
  | cons e l ih =>
    obtain ⟨hmem, hv⟩ := hl e (by simp)
    obtain ⟨p, hp⟩ := Option.isSome_iff_exists.mp (AList.lookup_isSome.mpr hmem)
    have hnode : g.node e.1 = p := by simp [node, hp]
    obtain ⟨x, hx⟩ := Option.isSome_iff_exists.mp (EdgeList.find_isSome.mpr (hnode ▸ hv))
    have hhead : g.eraseFromCopy side v e = some () := by simp [eraseFromCopy, hp, hx]
    rw [List.forM_eq_forM, List.forM_cons, hhead]
    exact ih fun e' he' => hl e' (by simp [he'])

/-- **The removal of a vertex**: the vertex goes, no list of another vertex changes. -/
theorem deleteVertex0_eq (h : Invariant g) {v : ℕ} (hv : v ∈ g.nodes) :
    g.deleteVertex0 v = some (true, { g with nodes := g.nodes.erase v }) := by
  obtain ⟨p, hp⟩ := Option.isSome_iff_exists.mp (AList.lookup_isSome.mpr hv)
  have hnode : g.node v = p := by simp [node, hp]
  have hout : p.outgoing = g.outgoing v := by simp [outgoing, hnode]
  have hin : p.incoming = g.incoming v := by simp [incoming, hnode]
  -- each neighbour lists the vertex, so that no search in the copies fails
  have hfwd : p.outgoing.forM (g.eraseFromCopy
      (fun q => if g.isDirected then q.incoming else q.outgoing) v) = some () := by
    refine forM_eraseFromCopy fun e he => ?_
    rw [hout] at he
    refine ⟨h.present v e.1 (Or.inl (EdgeList.mem_targets.mpr ⟨e.2, he⟩)), ?_⟩
    exact EdgeList.mem_targets.mpr ⟨e.2, (h.mirror v e.1 e.2).mp he⟩
  have hbwd : g.isDirected = true →
      p.incoming.forM (g.eraseFromCopy EdgePair.outgoing v) = some () := by
    intro hd
    refine forM_eraseFromCopy fun e he => ?_
    rw [hin] at he
    refine ⟨h.present v e.1 (Or.inr (EdgeList.mem_targets.mpr ⟨e.2, he⟩)), ?_⟩
    refine EdgeList.mem_targets.mpr ⟨e.2, (h.mirror e.1 v e.2).mpr ?_⟩
    simpa [back, hd] using he
  simp only [deleteVertex0, hp]
  rw [hfwd]
  cases hd : g.isDirected with
  | true => simp [hbwd hd]
  | false => simp

theorem outgoing_erase (g : AdjacencyList W) (v u : ℕ) :
    outgoing { g with nodes := g.nodes.erase v } u = (if u = v then [] else g.outgoing u) ∧
      incoming { g with nodes := g.nodes.erase v } u = (if u = v then [] else g.incoming u) := by
  by_cases hu : u = v
  · subst hu
    simp [outgoing, incoming, node]
  · simp [outgoing, incoming, node, hu, AList.lookup_erase_ne hu]

/-- The removal of a vertex without edges keeps the invariant. -/
theorem Invariant.erase (h : Invariant g) {v : ℕ} (hout : g.outgoing v = [])
    (hin : g.incoming v = []) : Invariant { g with nodes := g.nodes.erase v } := by
  refine h.of_lists_eq (fun u => ?_) (fun u => ?_) rfl rfl fun u x hx => ?_
  · rw [(outgoing_erase g v u).1]
    split_ifs with hu
    · rw [hu, hout]
    · rfl
  · rw [(outgoing_erase g v u).2]
    split_ifs with hu
    · rw [hu, hin]
    · rfl
  · -- a list that mentions `v` would be mirrored in a list of `v`
    have hback : g.back v = [] := by
      unfold back
      split_ifs
      · exact hin
      · exact hout
    have hxv : x ≠ v := by
      rintro rfl
      rcases hx with hx | hx
      · obtain ⟨w, hw⟩ := EdgeList.mem_targets.mp hx
        have := (h.mirror u x w).mp hw
        simp [hback] at this
      · obtain ⟨w, hw⟩ := EdgeList.mem_targets.mp hx
        cases hd : g.isDirected with
        | true =>
          have := (h.mirror x u w).mpr (by simpa [back, hd] using hw)
          simp [hout] at this
        | false => simp [h.incoming_nil hd u] at hw
    exact AList.mem_erase.mpr ⟨hxv, h.present u x hx⟩

/-- The removal of a vertex with an edge leaves its neighbour a list that mentions it. -/
theorem not_consistent_erase (h : Invariant g) {v : ℕ}
    (hv : ¬(g.outgoing v = [] ∧ g.incoming v = [])) :
    ¬Consistent { g with nodes := g.nodes.erase v } := by
  -- some other vertex `u` lists `v`, in its outgoing or in its incoming list
  obtain ⟨u, hu, hlist⟩ : ∃ u, u ≠ v ∧
      (v ∈ (g.outgoing u).targets ∨ v ∈ (g.incoming u).targets) := by
    rw [not_and_or] at hv
    rcases hv with hv | hv
    · obtain ⟨⟨u, w⟩, hw⟩ := List.exists_mem_of_ne_nil _ hv
      have hback := (h.mirror v u w).mp hw
      refine ⟨u, fun heq => h.loopless v (EdgeList.mem_targets.mpr ⟨w, heq ▸ hw⟩), ?_⟩
      unfold back at hback
      split_ifs at hback
      · exact Or.inr (EdgeList.mem_targets.mpr ⟨w, hback⟩)
      · exact Or.inl (EdgeList.mem_targets.mpr ⟨w, hback⟩)
    · obtain ⟨⟨u, w⟩, hw⟩ := List.exists_mem_of_ne_nil _ hv
      cases hd : g.isDirected with
      | true =>
        have hout := (h.mirror u v w).mpr (by simpa [back, hd] using hw)
        have htar := EdgeList.mem_targets.mpr ⟨w, hout⟩
        exact ⟨u, fun heq => h.loopless v (heq ▸ htar), Or.inl htar⟩
      | false => simp [h.incoming_nil hd v] at hw
  intro hc
  have := hc.present u v (by simpa [outgoing_erase, hu] using hlist)
  simp [AList.mem_erase] at this

end Vertices

/-! ## Runs -/

/-- A call does not remove a vertex that still has an edge. -/
def Isolating (g : AdjacencyList W) : Operation W → Prop
  | .removeVertex v => g.outgoing v = [] ∧ g.incoming v = []
  | _ => True

/-- **One call** that removes no vertex with an edge is defined and keeps the invariant. -/
theorem Invariant.step {g : AdjacencyList W} (h : Invariant g) {op : Operation W}
    (hop : Isolating g op) : ∃ r, g.step op = some r ∧ Invariant r.2 := by
  cases op with
  | addVertex v => exact ⟨_, rfl, h.emplace v⟩
  | removeVertex v =>
    -- `delete_vertex` erases from copies of the lists, and only the vertex itself is removed
    by_cases hv : v ∈ g.nodes
    · refine ⟨(.returned true, { g with nodes := g.nodes.erase v }), ?_, h.erase hop.1 hop.2⟩
      simp [AdjacencyList.step, deleteVertex0_eq h hv]
    · refine ⟨(.returned false, g), ?_, h⟩
      simp [AdjacencyList.step, deleteVertex0, AList.lookup_eq_none.mpr hv]
  | addEdge e =>
    refine ⟨_, rfl, ?_⟩
    unfold AdjacencyList.addEdge
    by_cases hne : e.source = e.destination
    · simpa [hne] using h
    by_cases hs : e.source ∈ g.nodes
    · by_cases hd : e.destination ∈ g.nodes
      · simpa [hne, hs, hd] using h.addEdge0 hne hs hd
      · simpa [hne, hs, hd] using h
    · simpa [hne, hs] using h
  | addEdgeV2 e =>
    refine ⟨_, rfl, ?_⟩
    unfold AdjacencyList.addEdgeV2
    split_ifs with hne
    · exact h
    · exact ((h.emplace _).emplace _).addEdge0 hne (by simp) (by simp)
  | removeEdge e =>
    simp only [AdjacencyList.step, deleteEdge0_eq h]
    split_ifs with hm
    · exact ⟨_, rfl, h.eraseEdge hm⟩
    · exact ⟨_, rfl, h⟩

/-- One call that removes a vertex with an edge breaks the representation. -/
theorem not_consistent_step {g : AdjacencyList W} (h : Invariant g) {op : Operation W}
    (hop : ¬Isolating g op) : ∃ r, g.step op = some r ∧ ¬Consistent r.2 := by
  cases op with
  | removeVertex v =>
    have hv : v ∈ g.nodes := by
      by_contra hv
      exact hop (by simp [Isolating, outgoing, incoming, node_of_not_mem hv])
    refine ⟨(.returned true, { g with nodes := g.nodes.erase v }), ?_, not_consistent_erase h hop⟩
    simp [AdjacencyList.step, deleteVertex0_eq h hv]
  | addVertex | addEdge | addEdgeV2 | removeEdge => exact absurd trivial hop

theorem Invariant.empty (isDirected : Bool) : Invariant (empty isDirected : AdjacencyList W) where
  present := by simp [outgoing, incoming, node, AdjacencyList.empty, EdgeList.targets]
  mirror := by cases isDirected <;> simp [outgoing, incoming, node, AdjacencyList.empty, back]
  nodup := by simp [outgoing, incoming, node, AdjacencyList.empty, EdgeList.targets]
  count := by simp [AdjacencyList.empty, edges]
  loopless := by simp [outgoing, node, AdjacencyList.empty, EdgeList.targets]
  incoming_nil := by simp [incoming, node, AdjacencyList.empty]

/-- No call of the sequence removes a vertex that has an edge when the call is made. -/
def IsolatingRun (g : AdjacencyList W) (ops : List (Operation W)) : Prop :=
  ∀ pre op, pre ++ [op] <+: ops → ∀ g', g.run pre = some g' → Isolating g' op

theorem IsolatingRun.of_append {g : AdjacencyList W} {ops ops' : List (Operation W)}
    (h : IsolatingRun g (ops ++ ops')) : IsolatingRun g ops :=
  fun pre op hpre => h pre op (hpre.trans (List.prefix_append _ _))

/-- **A run that removes no vertex with an edge** keeps the invariant. -/
theorem Invariant.run {g : AdjacencyList W} (h : Invariant g) {ops : List (Operation W)}
    (hops : IsolatingRun g ops) : ∃ g', g.run ops = some g' ∧ Invariant g' := by
  induction ops using List.reverseRecOn with
  | nil => exact ⟨g, rfl, h⟩
  | append_singleton ops op ih =>
    obtain ⟨g₁, hrun, h₁⟩ := ih hops.of_append
    obtain ⟨r, hstep, hr⟩ := h₁.step (hops ops op (List.prefix_refl _) g₁ hrun)
    exact ⟨r.2, by simp [run_append, hrun, AdjacencyList.run, hstep], hr⟩

/-- **Representation invariant of whole runs**: from the empty graph, in both modes, every call
of the sequence leaves a consistent representation exactly when none of them removes a vertex
that still has an edge. -/
theorem consistent_run_iff (isDirected : Bool) (ops : List (Operation W)) :
    (∀ pre, pre <+: ops → ∃ g, (empty isDirected).run pre = some g ∧ Consistent g) ↔
      IsolatingRun (empty isDirected) ops := by
  constructor
  · intro hall
    induction ops using List.reverseRecOn with
    | nil =>
      intro pre op hpre
      simp at hpre
    | append_singleton ops op ih =>
      have hops : IsolatingRun (empty isDirected) ops :=
        ih fun pre hpre => hall pre (hpre.trans (List.prefix_append _ _))
      obtain ⟨g₁, hrun, h₁⟩ := (Invariant.empty isDirected).run hops
      intro pre op' hpre g' hg'
      rcases List.prefix_concat_iff.mp hpre with heq | hpre'
      · obtain ⟨rfl, rfl⟩ : pre = ops ∧ op' = op := by simpa using heq
        rw [hrun, Option.some.injEq] at hg'
        subst hg'
        -- a step that removed a vertex with an edge would contradict the last prefix
        by_contra hnot
        obtain ⟨r, hstep, hbad⟩ := not_consistent_step h₁ hnot
        obtain ⟨g₂, hrun₂, hg₂⟩ := hall (pre ++ [op']) (List.prefix_refl _)
        simp only [run_append, hrun, AdjacencyList.run, hstep, Option.bind_some,
          Option.some.injEq] at hrun₂
        exact hbad (hrun₂ ▸ hg₂)
      · exact hops pre op' hpre' g' hg'
  · intro hops pre hpre
    obtain ⟨post, rfl⟩ := hpre
    obtain ⟨g, hrun, hg⟩ := (Invariant.empty isDirected).run hops.of_append
    exact ⟨g, hrun, hg.toConsistent⟩

/-- The sequence that inserts an edge and removes one of its endpoints is not consistent at its
end: the other endpoint still lists the removed vertex. -/
theorem not_consistent_run_removeVertex :
    ¬∃ g, (empty false : AdjacencyList ℕ).run
      [.addVertex 1, .addVertex 2, .addEdge ⟨1, 2, 7⟩, .removeVertex 1] = some g ∧
        Consistent g := by
  rintro ⟨g, hrun, hg⟩
  have hlist : ∀ g', (empty false : AdjacencyList ℕ).run
      [.addVertex 1, .addVertex 2, .addEdge ⟨1, 2, 7⟩, .removeVertex 1] = some g' →
      1 ∈ (g'.outgoing 2).targets ∧ 1 ∉ g'.nodes := by decide
  exact (hlist g hrun).2 (hg.present 2 1 (Or.inl (hlist g hrun).1))

end AdjacencyList

end GfeDriver
