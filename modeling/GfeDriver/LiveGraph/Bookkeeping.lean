import GfeDriver.LiveGraph.Driver

/-!
# The bookkeeping of the LiveGraph driver

The driver counts vertices and edges beside the store, and in a directed graph it keeps two edges
with different labels for one. These agree as long as every call changes all of them together:
`remove_vertex` counts a vertex that is not there, `add_edge_v2` counts an edge that it overwrites,
and in a directed graph `add_edge` and `remove_edge` change the edge with the label `0` alone.

## Main definitions

* `Books`: the counters and the labels agree with the dictionary and the store
* `History`, `History.step`: a driver that remembers whether a vertex with edges was removed
* `Keeps`: the calls that keep the books

## Main results

* `BooksInv.step_iff`: a call keeps the books exactly when it is one of those
* `books_iff`: the sequences of calls along which the books are kept
-/

namespace GfeDriver

namespace LiveGraph

open Foundation LiveGraphDriver

section Books

variable {W : Type} {ids : ℕ → ℕ} {d : LiveGraphDriver W} {intact : Bool}
  {a b src dst v : ℕ} {w : W}

/-- **The books**: the number of vertices is that of the entries of the dictionary; the number of
edges is that of the distinct edges in the store, as long as no vertex with edges was removed; and
in a directed graph there is an opposite edge with the label `1` for each edge and for no other. -/
structure Books (d : LiveGraphDriver W) (intact : Bool) : Prop where
  numVertices : d.numVertices = UInt64.ofNat d.dictionary.keys.card
  numEdges : intact = true → d.numEdges = UInt64.ofNat (edgeCount d.isDirected (d.store.layer 0))
  incoming : d.isDirected = true → ∀ a b, (b, 1, a) ∈ d.store.edges ↔ (a, 0, b) ∈ d.store.edges

/-- **The invariant of the books.** -/
structure BooksInv (ids : ℕ → ℕ) (d : LiveGraphDriver W) (intact : Bool) : Prop where
  drawn : ∀ v id, d.dictionary.lookup v = some id → Drawn ids d.store.allocated id
  ends : ∀ label a b, (a, b) ∈ d.store.layer label →
    Drawn ids d.store.allocated a ∧ Drawn ids d.store.allocated b
  symm : d.isDirected = false → ∀ a b, (a, b) ∈ d.store.layer 0 → (b, a) ∈ d.store.layer 0
  books : Books d intact

theorem booksInv_new (isDirected : Bool) :
    BooksInv ids (LiveGraphDriver.new W isDirected) true := by
  have hempty : ∀ label, (LiveGraphDriver.new W isDirected).store.layer label = ∅ := fun _ => rfl
  refine ⟨fun v id hv => ?_, fun label a b hab => ?_, fun _ a b hab => ?_,
    ⟨rfl, fun _ => ?_, fun _ a b => ?_⟩⟩
  · simp [LiveGraphDriver.new] at hv
  · simp [hempty] at hab
  · simp [hempty] at hab
  · cases isDirected <;> rfl
  · exact iff_of_false Finmap.notMem_empty Finmap.notMem_empty

/-- The incoming edges, by the layers. -/
theorem Books.incoming_layer (h : Books d intact) (hdirected : d.isDirected = true) (a b : ℕ) :
    (b, a) ∈ d.store.layer 1 ↔ (a, b) ∈ d.store.layer 0 := by
  rw [Store.mem_layer, Store.mem_layer, h.incoming hdirected]

/-! ## The calls -/

theorem BooksInv.addVertex (h : BooksInv ids d intact) (rollbacks : List ℕ) (v : ℕ) :
    BooksInv ids (d.addVertex ids rollbacks v).2 intact := by
  by_cases hv : d.hasVertex v = true
  · rw [LiveGraphDriver.addVertex, if_pos hv]
    exact h
  · rw [LiveGraphDriver.addVertex, if_neg hv, transact_eq]
    have hle : d.store.allocated ≤ d.store.allocated + rollbacks.sum + 1 :=
      (d.store.allocated_le_rolledBack rollbacks.sum).trans (Nat.le_succ _)
    refine ⟨fun x id hx => ?_, fun label a b hab => ?_, h.symm, ⟨?_, h.books.numEdges,
      h.books.incoming⟩⟩
    · by_cases hxv : x = v
      · subst hxv
        rw [Finmap.lookup_insert] at hx
        exact ⟨_, Nat.lt_succ_self _, Option.some.inj hx⟩
      · rw [Finmap.lookup_insert_of_ne _ hxv] at hx
        exact (h.drawn x id hx).mono hle
    · exact (h.ends label a b hab).imp (Drawn.mono · hle) (Drawn.mono · hle)
    · have hnew : v ∉ d.dictionary.keys := by
        rw [Finmap.mem_keys]
        simpa [hasVertex] using hv
      simp only [keys_insert, Finset.card_insert_of_notMem hnew, h.books.numVertices,
        UInt64.ofNat_add]
      rfl

/-- **A vertex that is there** is removed, with its edges or without. -/
theorem BooksInv.removeVertex (h : BooksInv ids d intact) {cascade : Bool} {rollbacks : List ℕ}
    {id : ℕ} (hv : d.dictionary.lookup v = some id) :
    BooksInv ids (d.removeVertex cascade rollbacks v).2 (intact && !d.store.hasEdges id) := by
  simp only [LiveGraphDriver.removeVertex, hv, transact_eq]
  have hle := d.store.allocated_le_rolledBack rollbacks.sum
  have hmem : ∀ {label a b},
      (a, b) ∈ ((d.store.rolledBack rollbacks.sum).delVertex cascade id).layer label ↔
        (a, b) ∈ d.store.layer label ∧ (cascade = true → a ≠ id ∧ b ≠ id) :=
    Store.mem_layer_delVertex cascade _ id
  refine ⟨fun x id' hx => ?_, fun label a b hab => ?_, fun hdirected a b hab => ?_,
    ⟨?_, fun hintact => ?_, fun hdirected a b => ?_⟩⟩
  · by_cases hxv : x = v
    · rw [hxv, Finmap.lookup_erase] at hx
      cases hx
    · rw [Finmap.lookup_erase_ne hxv] at hx
      exact (h.drawn x id' hx).mono hle
  · exact (h.ends label a b (hmem.mp hab).1).imp (Drawn.mono · hle) (Drawn.mono · hle)
  · obtain ⟨hold, hne⟩ := hmem.mp hab
    exact hmem.mpr ⟨h.symm hdirected a b hold, fun hcascade => (hne hcascade).symm⟩
  · have hkey : v ∈ d.dictionary.keys := Finmap.mem_keys.mpr (Finmap.mem_of_lookup_eq_some hv)
    simp only [Finmap.keys_erase, h.books.numVertices]
    rw [← Finset.card_erase_add_one hkey, UInt64.ofNat_add]
    simp
  · obtain ⟨hbefore, hedges⟩ := (Bool.and_eq_true ..).mp hintact
    have hnone : (d.store.rolledBack rollbacks.sum).hasEdges id = false :=
      (Bool.not_eq_true' (d.store.hasEdges id)).mp hedges
    simp only [Store.layer_delVertex hnone]
    exact h.books.numEdges hbefore
  · rw [← Store.mem_layer, ← Store.mem_layer, hmem, hmem]
    exact and_congr (h.books.incoming_layer hdirected a b) (imp_congr_right fun _ => And.comm)

/-- **A vertex that is not there** is counted all the same. -/
theorem BooksInv.not_books_removeVertex (h : BooksInv ids d intact) {cascade : Bool}
    {rollbacks : List ℕ} {intact' : Bool} (hv : d.dictionary.lookup v = none) :
    ¬Books (d.removeVertex cascade rollbacks v).2 intact' := by
  intro hbooks
  have hafter := hbooks.numVertices
  simp only [LiveGraphDriver.removeVertex, hv, ← h.books.numVertices] at hafter
  grind

/-- An edge between two vertices is there. -/
theorem getWeight_eq_none (hsrc : d.dictionary.lookup a = some src)
    (hdst : d.dictionary.lookup b = some dst) :
    d.getWeight a b = none ↔ (src, dst) ∉ d.store.layer 0 := by
  rw [getWeight, hsrc, hdst]
  exact Store.getEdge_eq_none

/-- **What the insertion of an edge does**: identifiers of its ends that were known or are new, the
edge, and in a directed graph the opposite edge with the label `1`. -/
structure PutSpec (ids : ℕ → ℕ) (d : LiveGraphDriver W) (a b src dst : ℕ)
    (d' : LiveGraphDriver W) : Prop where
  isDirected : d'.isDirected = d.isDirected
  allocated : d.store.allocated ≤ d'.store.allocated
  source : d.dictionary.lookup a = some src ∨ (d.dictionary.lookup a = none ∧
    ∃ k, d.store.allocated ≤ k ∧ k < d'.store.allocated ∧ ids k = src)
  destination : d.dictionary.lookup b = some dst ∨ (d.dictionary.lookup b = none ∧
    ∃ k, d.store.allocated ≤ k ∧ k < d'.store.allocated ∧ ids k = dst)
  dictionary : ∀ v id, d'.dictionary.lookup v = some id →
    id = src ∨ id = dst ∨ d.dictionary.lookup v = some id
  numVertices : ∃ n, d'.dictionary.keys.card = d.dictionary.keys.card + n ∧
    d'.numVertices = d.numVertices + UInt64.ofNat n
  layer : d'.store.layer 0 = insertEdge d.isDirected (d.store.layer 0) src dst
  layers : ∀ label, label ≠ 0 → d'.store.layer label =
    if d.isDirected = true ∧ label = 1 then insert (dst, src) (d.store.layer label)
    else d.store.layer label
  numEdges : d'.numEdges = d.numEdges + 1

namespace PutSpec

variable {d' : LiveGraphDriver W}

theorem drawn_source (h : PutSpec ids d a b src dst d') (hd : BooksInv ids d intact) :
    Drawn ids d'.store.allocated src := by
  rcases h.source with hknown | ⟨-, k, -, hk, hid⟩
  · exact (hd.drawn a src hknown).mono h.allocated
  · exact ⟨k, hk, hid⟩

theorem drawn_destination (h : PutSpec ids d a b src dst d') (hd : BooksInv ids d intact) :
    Drawn ids d'.store.allocated dst := by
  rcases h.destination with hknown | ⟨-, k, -, hk, hid⟩
  · exact (hd.drawn b dst hknown).mono h.allocated
  · exact ⟨k, hk, hid⟩

/-- The edge was there before when `get_weight` finds it. -/
theorem getWeight_eq_none (h : PutSpec ids d a b src dst d') (hids : Function.Injective ids)
    (hd : BooksInv ids d intact) : d.getWeight a b = none ↔ (src, dst) ∉ d.store.layer 0 := by
  rcases h.source with hsrc | ⟨hsrc, hfresh⟩
  · rcases h.destination with hdst | ⟨hdst, hfresh⟩
    · exact LiveGraph.getWeight_eq_none hsrc hdst
    · rw [getWeight, hsrc, hdst]
      exact iff_of_true rfl fun hmem => not_drawn hids hfresh (hd.ends 0 src dst hmem).2
  · rw [getWeight, hsrc]
    exact iff_of_true rfl fun hmem => not_drawn hids hfresh (hd.ends 0 src dst hmem).1

/-- **An insertion keeps the books** when the edge is new, or the edges are not counted any more. -/
theorem booksInv (h : PutSpec ids d a b src dst d') (hd : BooksInv ids d intact)
    (hnew : intact = true → (src, dst) ∉ d.store.layer 0) : BooksInv ids d' intact := by
  have hsrc := h.drawn_source hd
  have hdst := h.drawn_destination hd
  have hold : ∀ label x y, (x, y) ∈ d.store.layer label →
      Drawn ids d'.store.allocated x ∧ Drawn ids d'.store.allocated y := fun label x y hxy =>
    (hd.ends label x y hxy).imp (Drawn.mono · h.allocated) (Drawn.mono · h.allocated)
  refine ⟨fun v id hv => ?_, fun label x y hxy => ?_, fun hundirected x y hxy => ?_,
    ⟨?_, fun hintact => ?_, fun hdirected x y => ?_⟩⟩
  · rcases h.dictionary v id hv with rfl | rfl | hv
    · exact hsrc
    · exact hdst
    · exact (hd.drawn v id hv).mono h.allocated
  · by_cases hlabel : label = 0
    · subst hlabel
      rw [h.layer, mem_insertEdge] at hxy
      rcases hxy with ⟨rfl, rfl⟩ | ⟨-, rfl, rfl⟩ | hxy
      · exact ⟨hsrc, hdst⟩
      · exact ⟨hdst, hsrc⟩
      · exact hold 0 x y hxy
    · rw [h.layers label hlabel] at hxy
      split_ifs at hxy
      · rcases Finset.mem_insert.mp hxy with heq | hxy
        · obtain ⟨rfl, rfl⟩ := Prod.mk.inj heq
          exact ⟨hdst, hsrc⟩
        · exact hold label x y hxy
      · exact hold label x y hxy
  · rw [h.isDirected] at hundirected
    rw [h.layer, hundirected] at hxy ⊢
    exact symm_insertEdge (hd.symm hundirected) hxy
  · obtain ⟨n, hcard, hcount⟩ := h.numVertices
    rw [hcard, hcount, hd.books.numVertices, UInt64.ofNat_add]
  · rw [h.numEdges, h.isDirected, h.layer, edgeCount_insertEdge hd.symm (hnew hintact),
      hd.books.numEdges hintact, UInt64.ofNat_add]
    rfl
  · rw [h.isDirected] at hdirected
    have hincoming := hd.books.incoming_layer hdirected x y
    rw [← Store.mem_layer, ← Store.mem_layer, h.layer, h.layers 1 Nat.one_ne_zero,
      if_pos ⟨hdirected, rfl⟩, mem_insertEdge, Finset.mem_insert, Prod.mk.injEq, hincoming]
    simp only [hdirected, Bool.true_eq_false, false_and, false_or]
    exact or_congr_left And.comm

/-- **An edge that is there** is counted once more. -/
theorem not_books (h : PutSpec ids d a b src dst d') (hd : BooksInv ids d intact)
    (hintact : intact = true) (hmem : (src, dst) ∈ d.store.layer 0) : ¬Books d' intact := by
  intro hbooks
  have hafter := hbooks.numEdges hintact
  rw [h.numEdges, h.isDirected, h.layer, insertEdge_of_mem hd.symm hmem,
    ← hd.books.numEdges hintact] at hafter
  grind

end PutSpec

/-! ### The updates of edges -/

theorem lookup_enterVertex {dictionary : Finmap fun _ : ℕ => ℕ} {known : Option ℕ} {id id' x : ℕ}
    (h : (enterVertex dictionary v id known).lookup x = some id') :
    id' = id ∨ dictionary.lookup x = some id' := by
  rw [enterVertex] at h
  split_ifs at h
  · by_cases hx : x = v
    · rw [hx, Finmap.lookup_insert] at h
      exact Or.inl (Option.some.inj h).symm
    · rw [Finmap.lookup_insert_of_ne _ hx] at h
      exact Or.inr h
  · exact Or.inr h

theorem card_enterVertex {dictionary : Finmap fun _ : ℕ => ℕ} {known : Option ℕ} {id : ℕ}
    (h : dictionary.lookup v = known) :
    (enterVertex dictionary v id known).keys.card =
      dictionary.keys.card + if known = none then 1 else 0 := by
  rw [enterVertex]
  split_ifs with hnone
  · have hnew : v ∉ dictionary.keys := by
      rw [Finmap.mem_keys, ← Finmap.lookup_eq_none, h, hnone]
    rw [keys_insert, Finset.card_insert_of_notMem hnew]
  · rfl

/-- **`add_edge_v2`** inserts the edge. -/
theorem addEdgeV2_spec {rollbacks : List ℕ} {result : Bool} {d' : LiveGraphDriver W}
    (h : d.addEdgeV2 ids rollbacks a b w = some (result, d')) :
    ∃ src dst, PutSpec ids d a b src dst d' := by
  by_cases hloop : a = b ∧ d.dictionary.lookup a = none
  · simp [addEdgeV2, hloop] at h
  simp only [addEdgeV2, if_neg hloop, transact_eq] at h
  obtain ⟨src, dst, s', hbody, hle, hsrc, hdst, hlayer, hlayers⟩ :=
    addEdgeV2Body_spec ids d.isDirected a b (d.dictionary.lookup a) (d.dictionary.lookup b) w
      (d.store.rolledBack rollbacks.sum)
  rw [hbody] at h
  obtain ⟨-, rfl⟩ := Prod.mk.inj (Option.some.inj h)
  have hrollbacks := d.store.allocated_le_rolledBack rollbacks.sum
  refine ⟨src, dst, rfl, hrollbacks.trans hle,
    hsrc.imp_right fun ⟨hnone, k, hk, hk'⟩ => ⟨hnone, k, hrollbacks.trans hk, hk'⟩,
    hdst.imp_right fun ⟨hnone, k, hk, hk'⟩ => ⟨hnone, k, hrollbacks.trans hk, hk'⟩,
    fun v id hv => ?_, ?_, hlayer, hlayers, rfl⟩
  · rcases lookup_enterVertex hv with rfl | hv
    · exact Or.inr (Or.inl rfl)
    · rcases lookup_enterVertex hv with rfl | hv
      · exact Or.inl rfl
      · exact Or.inr (Or.inr hv)
  · -- the entry of the source is not one for the destination
    have hother : (enterVertex d.dictionary a src (d.dictionary.lookup a)).lookup b =
        d.dictionary.lookup b := by
      rw [enterVertex]
      split_ifs with hnone
      · exact Finmap.lookup_insert_of_ne _ fun heq => hloop ⟨heq.symm, hnone⟩
      · rfl
    refine ⟨(if d.dictionary.lookup a = none then 1 else 0) +
      (if d.dictionary.lookup b = none then 1 else 0), ?_, ?_⟩
    · simp only
      rw [card_enterVertex hother, card_enterVertex rfl, Nat.add_assoc]
    · simp only
      rw [UInt64.ofNat_add, UInt64.add_assoc]
      split_ifs <;> rfl

/-- **`add_edge`** leaves everything as it is when a vertex is not there. -/
theorem addEdge_of_none {rollbacks : List ℕ}
    (h : d.dictionary.lookup a = none ∨ d.dictionary.lookup b = none) :
    d.addEdge rollbacks a b w = (false, d) := by
  rcases h with h | h
  · rw [addEdge, h]
  · cases ha : d.dictionary.lookup a <;> rw [addEdge, ha, h]

theorem removeEdge_of_none {rollbacks : List ℕ}
    (h : d.dictionary.lookup a = none ∨ d.dictionary.lookup b = none) :
    d.removeEdge rollbacks a b = (false, d) := by
  rcases h with h | h
  · rw [removeEdge, h]
  · cases ha : d.dictionary.lookup a <;> rw [removeEdge, ha, h]

/-- **The same edges** keep the books, whatever identifiers were drawn. -/
theorem BooksInv.congr (h : BooksInv ids d intact) {store : Store W}
    (hle : d.store.allocated ≤ store.allocated)
    (hlayer : ∀ label, store.layer label = d.store.layer label) :
    BooksInv ids { d with store := store } intact := by
  refine ⟨fun v id hv => (h.drawn v id hv).mono hle, fun label a b hab => ?_,
    fun hundirected a b hab => ?_,
    ⟨h.books.numVertices, fun hintact => ?_, fun hdirected a b => ?_⟩⟩
  · rw [hlayer] at hab
    exact (h.ends label a b hab).imp (Drawn.mono · hle) (Drawn.mono · hle)
  · rw [hlayer] at hab ⊢
    exact h.symm hundirected a b hab
  · rw [hlayer]
    exact h.books.numEdges hintact
  · rw [← Store.mem_layer, ← Store.mem_layer, hlayer, hlayer]
    exact h.books.incoming_layer hdirected a b

section Known

variable {rollbacks : List ℕ} (hsrc : d.dictionary.lookup a = some src)
  (hdst : d.dictionary.lookup b = some dst)

include hsrc hdst

theorem BooksInv.addEdge_of_mem (h : BooksInv ids d intact)
    (hmem : (src, dst) ∈ d.store.layer 0) :
    BooksInv ids (d.addEdge rollbacks a b w).2 intact := by
  have hbody : addEdgeBody d.isDirected src dst w (d.store.rolledBack rollbacks.sum) =
      (false, d.store.rolledBack rollbacks.sum) := addEdgeBody_of_mem hmem
  have hcongr := h.congr (d.store.allocated_le_rolledBack rollbacks.sum) fun _ => rfl
  simpa [addEdge, hsrc, hdst, transact_eq, hbody] using hcongr

/-- **A new edge** of `add_edge` keeps the books in an undirected graph only. -/
theorem BooksInv.addEdge_of_notMem (h : BooksInv ids d intact)
    (hmem : (src, dst) ∉ d.store.layer 0) :
    (d.isDirected = false → BooksInv ids (d.addEdge rollbacks a b w).2 intact) ∧
      (d.isDirected = true → ¬Books (d.addEdge rollbacks a b w).2 intact) := by
  obtain ⟨s', hbody, hallocated, hlayer, hlayers⟩ := addEdgeBody_of_notMem
    (s := d.store.rolledBack rollbacks.sum) d.isDirected w hmem
  simp only [addEdge, hsrc, hdst, transact_eq, hbody]
  constructor
  · intro hundirected
    have hspec : PutSpec ids d a b src dst
        { d with store := s', numEdges := d.numEdges + 1 } := by
      refine ⟨rfl, ?_, Or.inl hsrc, Or.inl hdst, fun _ _ hv => Or.inr (Or.inr hv),
        ⟨0, rfl, (UInt64.add_zero _).symm⟩, hlayer, fun label hlabel => ?_, rfl⟩
      · rw [hallocated]
        exact d.store.allocated_le_rolledBack _
      · rw [if_neg fun h => Bool.false_ne_true (hundirected.symm.trans h.1)]
        exact hlayers label hlabel
    exact hspec.booksInv h fun _ => hmem
  · intro hdirected hbooks
    -- the opposite edge is missing
    have hincoming := hbooks.incoming_layer hdirected src dst
    rw [hlayer, hlayers 1 Nat.one_ne_zero, mem_insertEdge] at hincoming
    exact hmem ((h.books.incoming_layer hdirected src dst).mp
      (hincoming.mpr (Or.inl ⟨rfl, rfl⟩)))

theorem BooksInv.removeEdge_of_notMem (h : BooksInv ids d intact)
    (hmem : (src, dst) ∉ d.store.layer 0) :
    BooksInv ids (d.removeEdge rollbacks a b).2 intact := by
  obtain ⟨s', hbody, hallocated, hlayer⟩ := removeEdgeBody_of_notMem
    (s := d.store.rolledBack rollbacks.sum) d.isDirected hmem
  have hcongr := h.congr (hallocated ▸ d.store.allocated_le_rolledBack _) hlayer
  simpa [removeEdge, hsrc, hdst, transact_eq, hbody] using hcongr

/-- **A removal of an edge** keeps the books in an undirected graph only. -/
theorem BooksInv.removeEdge_of_mem (h : BooksInv ids d intact)
    (hmem : (src, dst) ∈ d.store.layer 0) :
    (d.isDirected = false → BooksInv ids (d.removeEdge rollbacks a b).2 intact) ∧
      (d.isDirected = true → ¬Books (d.removeEdge rollbacks a b).2 intact) := by
  obtain ⟨s', hbody, hallocated, hlayer, hlayers⟩ := removeEdgeBody_of_mem
    (s := d.store.rolledBack rollbacks.sum) d.isDirected hmem
  rw [Store.layer_rolledBack] at hlayer
  simp only [removeEdge, hsrc, hdst, transact_eq, hbody]
  constructor
  · intro hundirected
    have hle : d.store.allocated ≤ s'.allocated :=
      hallocated ▸ d.store.allocated_le_rolledBack _
    refine ⟨fun v id hv => (h.drawn v id hv).mono hle, fun label x y hxy => ?_, fun _ x y hxy => ?_,
      ⟨h.books.numVertices, fun hintact => ?_, fun hdirected => ?_⟩⟩
    · have hold : (x, y) ∈ d.store.layer label := by
        by_cases hlabel : label = 0
        · rw [hlabel, hlayer, mem_eraseEdge] at hxy
          exact hlabel ▸ hxy.2.2
        · rwa [hlayers label hlabel] at hxy
      exact (h.ends label x y hold).imp (Drawn.mono · hle) (Drawn.mono · hle)
    · rw [hlayer, hundirected] at hxy ⊢
      exact symm_eraseEdge (h.symm hundirected) hxy
    · have hcount := edgeCount_eraseEdge h.symm hmem
      simp only [if_true, hlayer]
      rw [h.books.numEdges hintact, ← hcount, UInt64.ofNat_add]
      simp
    · exact absurd (hundirected.symm.trans hdirected) Bool.false_ne_true
  · intro hdirected hbooks
    -- the opposite edge is left
    have hincoming := hbooks.incoming_layer hdirected src dst
    rw [hlayer, hlayers 1 Nat.one_ne_zero, mem_eraseEdge] at hincoming
    exact (hincoming.mp ((h.books.incoming_layer hdirected src dst).mpr hmem)).1 ⟨rfl, rfl⟩

end Known

/-! ## Sequences of calls -/

/-- The call removes a vertex that has edges. -/
def LiveGraphDriver.removesEdges (d : LiveGraphDriver W) : Call W → Bool
  | .removeVertex v _ => (d.dictionary.lookup v).any d.store.hasEdges
  | .addVertex _ _ | .addEdge _ _ _ _ | .addEdgeV2 _ _ _ _ | .removeEdge _ _ _ => false

/-! ### Which calls keep the books -/

/-- The books are right exactly under a condition, and then the invariant holds. -/
def KeptIff (ids : ℕ → ℕ) (d : LiveGraphDriver W) (intact : Bool) (p : Prop) : Prop :=
  (Books d intact ↔ p) ∧ (Books d intact → BooksInv ids d intact)

theorem KeptIff.of_inv {p : Prop} (h : BooksInv ids d intact) (hp : p) : KeptIff ids d intact p :=
  ⟨iff_of_true h.books hp, fun _ => h⟩

theorem KeptIff.of_not {p : Prop} (h : ¬Books d intact) (hp : ¬p) : KeptIff ids d intact p :=
  ⟨iff_of_false h hp, fun hbooks => absurd hbooks h⟩

theorem hasVertex_iff {v : ℕ} : d.hasVertex v = true ↔ d.dictionary.lookup v ≠ none := by
  rw [hasVertex, decide_eq_true_iff, ne_eq, Finmap.lookup_eq_none, not_not]

/-- The vertices of an edge are there, or the edge is not. -/
theorem lookup_cases (d : LiveGraphDriver W) (a b : ℕ) :
    (∃ src dst, d.dictionary.lookup a = some src ∧ d.dictionary.lookup b = some dst) ∨
      (d.dictionary.lookup a = none ∨ d.dictionary.lookup b = none) ∧ d.getWeight a b = none := by
  cases ha : d.dictionary.lookup a with
  | none => exact Or.inr ⟨Or.inl rfl, by rw [getWeight, ha]⟩
  | some src =>
    cases hb : d.dictionary.lookup b with
    | none => exact Or.inr ⟨Or.inr rfl, by rw [getWeight, ha, hb]⟩
    | some dst => exact Or.inl ⟨src, dst, rfl, rfl⟩

variable {cascade : Bool} {rollbacks : List ℕ}

theorem BooksInv.removeVertex_iff (h : BooksInv ids d intact) :
    KeptIff ids (d.removeVertex cascade rollbacks v).2
      (intact && !d.removesEdges (.removeVertex v rollbacks)) (d.hasVertex v = true) := by
  cases hv : d.dictionary.lookup v with
  | none =>
    refine KeptIff.of_not (h.not_books_removeVertex hv) ?_
    rw [hasVertex_iff, hv, ne_eq, not_not]
  | some id =>
    have hremoves : d.removesEdges (.removeVertex v rollbacks) = d.store.hasEdges id := by
      simp only [removesEdges, hv, Option.any_some]
    rw [hremoves]
    refine KeptIff.of_inv (h.removeVertex hv) ?_
    rw [hasVertex_iff, hv]
    exact Option.some_ne_none id

theorem BooksInv.addEdge_iff (h : BooksInv ids d intact) :
    KeptIff ids (d.addEdge rollbacks a b w).2 intact
      (d.isDirected = true → d.hasVertex a = true → d.hasVertex b = true →
        d.getWeight a b ≠ none) := by
  rcases lookup_cases d a b with ⟨src, dst, hsrc, hdst⟩ | ⟨hnone, -⟩
  · have hfound : d.hasVertex a = true ∧ d.hasVertex b = true := by
      rw [hasVertex_iff, hasVertex_iff, hsrc, hdst]
      exact ⟨Option.some_ne_none src, Option.some_ne_none dst⟩
    have hweight := getWeight_eq_none hsrc hdst
    by_cases hmem : (src, dst) ∈ d.store.layer 0
    · exact KeptIff.of_inv (h.addEdge_of_mem hsrc hdst hmem)
        fun _ _ _ hnone => hweight.mp hnone hmem
    · obtain ⟨hundirected, hdirected⟩ := h.addEdge_of_notMem hsrc hdst hmem
      cases hd : d.isDirected with
      | true =>
        exact KeptIff.of_not (hdirected hd) fun hall =>
          hall rfl hfound.1 hfound.2 (hweight.mpr hmem)
      | false => exact KeptIff.of_inv (hundirected hd) fun h => absurd h Bool.false_ne_true
  · rw [addEdge_of_none hnone]
    refine KeptIff.of_inv h fun _ ha hb => ?_
    rw [hasVertex_iff] at ha hb
    exact absurd hnone (not_or.mpr ⟨ha, hb⟩)

theorem BooksInv.addEdgeV2_iff (h : BooksInv ids d intact) (hids : Function.Injective ids)
    {result : Bool} {d' : LiveGraphDriver W}
    (hadd : d.addEdgeV2 ids rollbacks a b w = some (result, d')) :
    KeptIff ids d' intact (intact = true → d.getWeight a b = none) := by
  obtain ⟨src, dst, hspec⟩ := addEdgeV2_spec hadd
  have hweight := hspec.getWeight_eq_none hids h
  by_cases hbroken : intact = true ∧ (src, dst) ∈ d.store.layer 0
  · exact KeptIff.of_not (hspec.not_books h hbroken.1 hbroken.2) fun hall =>
      hweight.mp (hall hbroken.1) hbroken.2
  · have hnew : intact = true → (src, dst) ∉ d.store.layer 0 := fun hintact hmem =>
      hbroken ⟨hintact, hmem⟩
    exact KeptIff.of_inv (hspec.booksInv h hnew) fun hintact => hweight.mpr (hnew hintact)

theorem BooksInv.removeEdge_iff (h : BooksInv ids d intact) :
    KeptIff ids (d.removeEdge rollbacks a b).2 intact
      (d.isDirected = true → d.getWeight a b = none) := by
  rcases lookup_cases d a b with ⟨src, dst, hsrc, hdst⟩ | ⟨hnone, hweight⟩
  · have hweight := getWeight_eq_none hsrc hdst
    by_cases hmem : (src, dst) ∈ d.store.layer 0
    · obtain ⟨hundirected, hdirected⟩ := h.removeEdge_of_mem hsrc hdst hmem
      cases hd : d.isDirected with
      | true => exact KeptIff.of_not (hdirected hd) fun hall => hweight.mp (hall rfl) hmem
      | false => exact KeptIff.of_inv (hundirected hd) fun h => absurd h Bool.false_ne_true
    · exact KeptIff.of_inv (h.removeEdge_of_notMem hsrc hdst hmem) fun _ => hweight.mpr hmem
  · rw [removeEdge_of_none hnone]
    exact KeptIff.of_inv h fun _ => hweight

end Books

/-- A driver, and whether no vertex with edges has been removed so far. -/
structure History (W : Type) where
  driver : LiveGraphDriver W
  intact : Bool

namespace History

variable {W : Type}

/-- The driver before the first call. -/
def new (W : Type) (isDirected : Bool) : History W := ⟨LiveGraphDriver.new W isDirected, true⟩

/-- A call and its answer. -/
def step (ids : ℕ → ℕ) (cascade : Bool) (h : History W) (c : Call W) :
    Option (Bool × History W) :=
  (h.driver.step ids cascade c).map fun (result, d) =>
    (result, ⟨d, h.intact && !h.driver.removesEdges c⟩)

/-- **A call that keeps the books**: `remove_vertex` of a vertex that is there; `add_edge_v2` of an
edge that is not, as long as the edges are counted; and in a directed graph no `add_edge` that
inserts an edge and no `remove_edge` that removes one. -/
def Keeps (h : History W) : Call W → Prop
  | .addVertex _ _ => True
  | .removeVertex v _ => h.driver.hasVertex v = true
  | .addEdge a b _ _ => h.driver.isDirected = true → h.driver.hasVertex a = true →
      h.driver.hasVertex b = true → h.driver.getWeight a b ≠ none
  | .addEdgeV2 a b _ _ => h.intact = true → h.driver.getWeight a b = none
  | .removeEdge a b _ => h.driver.isDirected = true → h.driver.getWeight a b = none

/-- The books of the driver. -/
def Booked (h : History W) : Prop := Books h.driver h.intact

variable {ids : ℕ → ℕ} {cascade : Bool} {h h' : History W} {result : Bool}

/-- **A call keeps the books** exactly when it is one of those. -/
theorem step_iff (hids : Function.Injective ids) (hinv : BooksInv ids h.driver h.intact)
    {c : Call W} (hc : h.step ids cascade c = some (result, h')) :
    KeptIff ids h'.driver h'.intact (h.Keeps c) := by
  obtain ⟨⟨result', d'⟩, hstep, hret⟩ := Option.map_eq_some_iff.mp hc
  obtain ⟨rfl, rfl⟩ := Prod.mk.inj hret
  cases c with
  | addVertex v rollbacks =>
    obtain rfl : _ = d' := (Prod.mk.inj (Option.some.inj hstep)).2
    simp only [removesEdges, Bool.not_false, Bool.and_true]
    exact KeptIff.of_inv (hinv.addVertex rollbacks v) trivial
  | removeVertex v rollbacks =>
    obtain rfl : _ = d' := (Prod.mk.inj (Option.some.inj hstep)).2
    exact hinv.removeVertex_iff
  | addEdge a b w rollbacks =>
    obtain rfl : _ = d' := (Prod.mk.inj (Option.some.inj hstep)).2
    simp only [removesEdges, Bool.not_false, Bool.and_true]
    exact hinv.addEdge_iff
  | addEdgeV2 a b w rollbacks =>
    simp only [removesEdges, Bool.not_false, Bool.and_true]
    exact hinv.addEdgeV2_iff hids hstep
  | removeEdge a b rollbacks =>
    obtain rfl : _ = d' := (Prod.mk.inj (Option.some.inj hstep)).2
    simp only [removesEdges, Bool.not_false, Bool.and_true]
    exact hinv.removeEdge_iff

/-- **The sequences of calls** along which the books are kept: those of calls that keep them, each
in the state that it is made in. -/
theorem books_iff (hids : Function.Injective ids) (cascade isDirected : Bool)
    (calls : List (Call W)) :
    Along (step ids cascade) (fun _ _ _ h' => h'.Booked) (new W isDirected) calls ↔
      Along (step ids cascade) (fun h c _ _ => h.Keeps c) (new W isDirected) calls := by
  refine along_congr (I := fun h => BooksInv ids h.driver h.intact) ?_
    (booksInv_new isDirected) calls
  intro h c result h' hinv hc
  exact step_iff hids hinv hc

/-- The theorem at calls that keep the books of an undirected graph, some of them rolled back. -/
theorem books_undirected :
    Along (step id false) (fun _ _ _ h' => h'.Booked) (new ℤ false)
      [.addVertex 10 [1], .addEdgeV2 10 20 7 [2, 1], .addEdge 20 10 5 [0], .removeEdge 20 10 [],
        .removeVertex 20 [0]] := by
  refine (books_iff Function.injective_id false false _).mpr ?_
  refine (along_cons rfl).mpr ⟨trivial, (along_cons rfl).mpr ⟨fun _ => rfl, ?_⟩⟩
  refine (along_cons rfl).mpr ⟨nofun, (along_cons rfl).mpr ⟨nofun, ?_⟩⟩
  exact (along_cons rfl).mpr ⟨rfl, trivial⟩

/-- A vertex that is not there is removed, an edge is added again, and in a directed graph an edge
is added or removed with the label `0` alone. -/
theorem not_booked :
    (¬Along (step id false) (fun _ _ _ h' => h'.Booked) (new ℤ false) [.removeVertex 10 []]) ∧
      (¬Along (step id false) (fun _ _ _ h' => h'.Booked) (new ℤ false)
        [.addEdgeV2 10 20 7 [], .addEdgeV2 10 20 5 []]) ∧
      (¬Along (step id false) (fun _ _ _ h' => h'.Booked) (new ℤ true)
        [.addVertex 10 [], .addVertex 20 [], .addEdge 10 20 7 []]) ∧
      ¬Along (step id false) (fun _ _ _ h' => h'.Booked) (new ℤ true)
        [.addEdgeV2 10 20 7 [], .removeEdge 10 20 []] := by
  refine ⟨fun h => ?_, fun h => ?_, fun h => ?_, fun h => ?_⟩
  · have hbooks := ((along_cons rfl).mp h).1
    exact absurd hbooks.numVertices (by decide)
  · have hbooks := ((along_cons rfl).mp ((along_cons rfl).mp h).2).1
    exact absurd (hbooks.numEdges rfl) (by decide)
  · have hbooks := ((along_cons rfl).mp ((along_cons rfl).mp ((along_cons rfl).mp h).2).2).1
    exact absurd ((hbooks.incoming rfl 0 1).mpr (by decide)) (by decide)
  · have hbooks := ((along_cons rfl).mp ((along_cons rfl).mp h).2).1
    exact absurd ((hbooks.incoming rfl 0 1).mp (by decide)) (by decide)

end History

end LiveGraph

end GfeDriver
