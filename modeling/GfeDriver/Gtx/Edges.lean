import GfeDriver.Gtx.Driver
import GfeDriver.Foundation.EdgeMap

/-!
# The edges of the GTX driver

In an undirected graph the two directions of an edge are present together, and the counter of the
edges is the number of unordered pairs. Their weights need not agree: an update of an edge that is
already stored overwrites the weight of the direction it names, and leaves the opposite one as it
was.

## Main definitions

* `KeepsEdges`: the edges after a call, and what the calls of `add_edge_v2` and `remove_edge` return
* `SymmetricWeights`: the weights of the two directions after a call
* `WritesSame`: a call that leaves the weight of a stored edge as it is

## Main results

* `keepsEdges`: the edges along every sequence of calls without loops
* `symmetricWeights_iff`: the sequences of calls that keep the weights symmetric
-/

namespace GfeDriver

namespace Gtx

open Foundation GTXDriver

section Edges

variable {W : Type} {ids : ℕ → ℕ} {d d' : GTXDriver W} {attempts : List Attempt}
  {a b src dst : ℕ} {result : Bool} {w : W} {edges : Finmap fun _ : ℕ × ℕ => W}

/-! ## The set of the edges -/

/-- The two directions of an edge are present together. -/
def Symmetric (edges : Finmap fun _ : ℕ × ℕ => W) : Prop := ∀ x y, (x, y) ∈ edges ↔ (y, x) ∈ edges

theorem putResult_eq {isDirected : Bool} (hsymm : isDirected = false → Symmetric edges)
    (hne : src ≠ dst) : putResult isDirected edges src dst w = decide ((src, dst) ∉ edges) := by
  have hopposite : (dst, src) ≠ (src, dst) := fun heq => hne (Prod.mk.inj heq).2
  rw [putResult, decide_eq_decide]
  refine ⟨And.left, fun hnew => ⟨hnew, ?_⟩⟩
  cases hd : isDirected with
  | true => exact Or.inl rfl
  | false =>
    rw [Finmap.mem_insert, not_or]
    exact Or.inr ⟨hopposite, fun hmem => hnew ((hsymm hd _ _).mp hmem)⟩

theorem Symmetric.keys (hsymm : Symmetric edges) (x y : ℕ) (h : (x, y) ∈ edges.keys) :
    (y, x) ∈ edges.keys := by
  rw [Finmap.mem_keys] at h ⊢
  exact (hsymm x y).mp h

theorem symmetric_of_keys (h : ∀ x y, (x, y) ∈ edges.keys → (y, x) ∈ edges.keys) :
    Symmetric edges := by
  intro x y
  rw [← Finmap.mem_keys, ← Finmap.mem_keys]
  exact ⟨h x y, h y x⟩

/-- **The edges after an update.** The opposite one is written only when the edge was new, and it is
there when it was not. -/
theorem keys_putEdges {isDirected : Bool} (hsymm : isDirected = false → Symmetric edges) :
    (putEdges isDirected edges src dst w).keys = insertEdge isDirected edges.keys src dst := by
  rw [putEdges]
  by_cases hmem : (src, dst) ∈ edges
  · rw [if_neg (by simp [hmem]), keys_insert,
      Finset.insert_eq_of_mem (Finmap.mem_keys.mpr hmem),
      insertEdge_of_mem (fun hd => (hsymm hd).keys) (Finmap.mem_keys.mpr hmem)]
  · cases isDirected with
    | true =>
      rw [if_neg (by simp), keys_insert]
      rfl
    | false =>
      rw [if_pos (by simp [hmem]), keys_insert, keys_insert]
      rfl

theorem symmetric_putEdges (hsymm : Symmetric edges) :
    Symmetric (putEdges false edges src dst w) := by
  apply symmetric_of_keys
  intro x y h
  rw [keys_putEdges fun _ => hsymm] at h ⊢
  exact symm_insertEdge hsymm.keys h

/-- **The number of edges** after an update. -/
theorem edgeCount_putEdges {isDirected : Bool} (hsymm : isDirected = false → Symmetric edges) :
    edgeCount isDirected (putEdges isDirected edges src dst w).keys =
      edgeCount isDirected edges.keys + (if (src, dst) ∈ edges then 0 else 1) := by
  rw [keys_putEdges hsymm]
  by_cases hmem : (src, dst) ∈ edges
  · rw [if_pos hmem, Nat.add_zero,
      insertEdge_of_mem (fun hd => (hsymm hd).keys) (Finmap.mem_keys.mpr hmem)]
  · rw [if_neg hmem]
    apply edgeCount_insertEdge fun hd => (hsymm hd).keys
    rwa [Finmap.mem_keys]

theorem deleteResult_eq {isDirected : Bool} (hsymm : isDirected = false → Symmetric edges)
    (hne : src ≠ dst) : deleteResult isDirected edges src dst = decide ((src, dst) ∈ edges) := by
  have hopposite : (dst, src) ≠ (src, dst) := fun heq => hne (Prod.mk.inj heq).2
  rw [deleteResult, decide_eq_decide]
  refine ⟨And.left, fun hmem => ⟨hmem, ?_⟩⟩
  cases hd : isDirected with
  | true => exact Or.inl rfl
  | false =>
    rw [Finmap.mem_erase]
    exact Or.inr ⟨hopposite, (hsymm hd _ _).mp hmem⟩

/-- **The edges after a removal.** -/
theorem keys_deleteEdges {isDirected : Bool} (hsymm : isDirected = false → Symmetric edges) :
    (deleteEdges isDirected edges src dst).keys = eraseEdge isDirected edges.keys src dst := by
  rw [deleteEdges]
  cases isDirected with
  | true =>
    rw [if_neg (by simp), Finmap.keys_erase]
    rfl
  | false =>
    by_cases hmem : (src, dst) ∈ edges
    · rw [if_pos ⟨hmem, rfl⟩, Finmap.keys_erase, Finmap.keys_erase]
      rfl
    · -- neither direction was there
      have hopposite : (dst, src) ∉ edges.keys.erase (src, dst) := by
        intro h
        rw [Finset.mem_erase, Finmap.mem_keys] at h
        exact hmem ((hsymm rfl _ _).mp h.2)
      rw [if_neg (by simp [hmem]), Finmap.keys_erase]
      exact (Finset.erase_eq_of_notMem hopposite).symm

theorem symmetric_deleteEdges (hsymm : Symmetric edges) :
    Symmetric (deleteEdges false edges src dst) := by
  apply symmetric_of_keys
  intro x y h
  rw [keys_deleteEdges fun _ => hsymm] at h ⊢
  exact symm_eraseEdge hsymm.keys h

/-- **The number of edges** after a removal. -/
theorem edgeCount_deleteEdges {isDirected : Bool} (hsymm : isDirected = false → Symmetric edges)
    (src dst : ℕ) :
    edgeCount isDirected (deleteEdges isDirected edges src dst).keys +
      (if (src, dst) ∈ edges then 1 else 0) = edgeCount isDirected edges.keys := by
  by_cases hmem : (src, dst) ∈ edges
  · rw [if_pos hmem, keys_deleteEdges hsymm]
    exact edgeCount_eraseEdge (fun hd => (hsymm hd).keys) (Finmap.mem_keys.mpr hmem)
  · rw [if_neg hmem, deleteEdges, if_neg (by simp [hmem]), Finmap.keys_erase,
      Finset.erase_eq_of_notMem (by rwa [Finmap.mem_keys]), Nat.add_zero]

/-! ## The edges along a sequence of calls -/

/-- **The invariant**: the dictionary and the identifiers match, and the directions of an undirected
edge are stored together. -/
structure DirectionsInv (ids : ℕ → ℕ) (d : GTXDriver W) : Prop where
  wellFormed : d.WellFormed ids
  symmetric : d.isDirected = false → Symmetric d.store.edges

theorem directionsInv_new (isDirected : Bool) : DirectionsInv ids (GTXDriver.new W isDirected) := by
  refine ⟨wellFormed_new isDirected, fun _ x y => ?_⟩
  simp [GTXDriver.new, Finmap.notMem_empty]

theorem DirectionsInv.putEdge (h : DirectionsInv ids d) (hids : Function.Injective ids)
    {weight : Store W → ℕ → ℕ → W}
    (hput : putEdge ids attempts d a b weight = some (result, d')) :
    DirectionsInv ids d' := by
  obtain ⟨src, dst, s, -, hspec⟩ := putEdge_spec hids hput
  refine ⟨hspec.wellFormed hids h.wellFormed, fun hd => ?_⟩
  rw [hspec.isDirected] at hd
  rw [hspec.edges, hd]
  exact symmetric_putEdges (h.symmetric hd)

theorem DirectionsInv.removeEdge (h : DirectionsInv ids d)
    (hremove : removeEdge attempts d a b = some (result, d')) : DirectionsInv ids d' := by
  by_cases hnone : d.dictionary.lookup a = none ∨ d.dictionary.lookup b = none
  · rw [removeEdge_of_none hnone] at hremove
    obtain ⟨-, rfl⟩ := Prod.mk.inj (Option.some.inj hremove)
    exact h
  · obtain ⟨hsrc, hdst⟩ := not_or.mp hnone
    obtain ⟨src, hsrc⟩ := Option.ne_none_iff_exists'.mp hsrc
    obtain ⟨dst, hdst⟩ := Option.ne_none_iff_exists'.mp hdst
    obtain ⟨n, hn, -, rfl⟩ := removeEdge_spec hsrc hdst hremove
    refine ⟨h.wellFormed.deleteEdges hn, fun hd => ?_⟩
    have hd : d.isDirected = false := hd
    simp only [hd]
    exact symmetric_deleteEdges (h.symmetric hd)

theorem DirectionsInv.addVertex {v : ℕ} (h : DirectionsInv ids d) (hids : Function.Injective ids)
    (hadd : addVertex ids attempts d v = some (result, d')) : DirectionsInv ids d' := by
  rcases addVertex_spec hadd with ⟨-, rfl⟩ | ⟨-, id, committed, -, hspec⟩
  · exact h
  · refine ⟨hspec.wellFormed hids h.wellFormed, fun hd => ?_⟩
    rw [hspec.edges]
    exact h.symmetric (hspec.isDirected ▸ hd)

/-- **A call** keeps the directions together. -/
theorem DirectionsInv.step [Add W] (h : DirectionsInv ids d) (hids : Function.Injective ids)
    {c : Call W} (hc : d.step ids c = some (result, d')) : DirectionsInv ids d' := by
  cases c with
  | addVertex v attempts => exact h.addVertex hids hc
  | removeVertex v =>
    obtain ⟨-, rfl⟩ := Prod.mk.inj (Option.some.inj hc)
    exact ⟨⟨h.wellFormed.drawn, h.wellFormed.injective, h.wellFormed.endpoints⟩, h.symmetric⟩
  | addEdgeV2 a b w attempts => exact h.putEdge hids hc
  | addEdgeV3 a b w attempts =>
    obtain ⟨⟨r, d''⟩, hput, hret⟩ := Option.map_eq_some_iff.mp hc
    obtain ⟨-, rfl⟩ := Prod.mk.inj hret
    exact h.putEdge hids hput
  | updateEdgeV1 a b w attempts =>
    obtain ⟨⟨r, d''⟩, hput, hret⟩ := Option.map_eq_some_iff.mp hc
    obtain ⟨-, rfl⟩ := Prod.mk.inj hret
    exact h.putEdge hids hput
  | removeEdge a b attempts => exact h.removeEdge hc

/-- **The invariant of the edges.** -/
structure EdgesInv (ids : ℕ → ℕ) (d : GTXDriver W) : Prop where
  wellFormed : d.WellFormed ids
  symmetric : d.isDirected = false → Symmetric d.store.edges
  numEdges : d.numEdges = UInt64.ofNat (edgeCount d.isDirected d.store.edges.keys)

theorem edgesInv_new (isDirected : Bool) : EdgesInv ids (GTXDriver.new W isDirected) := by
  have hnew : DirectionsInv ids (GTXDriver.new W isDirected) := directionsInv_new isDirected
  refine ⟨hnew.wellFormed, hnew.symmetric, ?_⟩
  cases isDirected <;> rfl

theorem EdgesInv.directions (h : EdgesInv ids d) : DirectionsInv ids d :=
  ⟨h.wellFormed, h.symmetric⟩

/-- An edge is stored in both directions, seen from the vertices. -/
theorem isSome_getWeight_comm (hsymm : Symmetric d.store.edges) (x y : ℕ) :
    (d.getWeight x y).isSome ↔ (d.getWeight y x).isSome := by
  rw [getWeight, getWeight]
  cases d.dictionary.lookup x with
  | none => cases d.dictionary.lookup y <;> exact Iff.rfl
  | some src =>
    cases d.dictionary.lookup y with
    | none => exact Iff.rfl
    | some dst =>
      simp only [Store.getEdge, Finmap.lookup_isSome]
      exact hsymm src dst

/-- **An update of an edge** keeps the invariant, and tells whether the edge was absent. -/
theorem EdgesInv.putEdge (h : EdgesInv ids d) (hids : Function.Injective ids) (hab : a ≠ b)
    {weight : Store W → ℕ → ℕ → W} (hput : putEdge ids attempts d a b weight = some (result, d')) :
    EdgesInv ids d' ∧ (result = true ↔ d.getWeight a b = none) := by
  have hkeep := h.directions.putEdge hids hput
  obtain ⟨src, dst, s, -, hspec⟩ := putEdge_spec hids hput
  have hresult := hspec.result_eq
  rw [putResult_eq h.symmetric (hspec.src_ne_dst hids h.wellFormed hab)] at hresult
  refine ⟨⟨hkeep.wellFormed, hkeep.symmetric, ?_⟩, ?_⟩
  · rw [hspec.numEdges, hspec.isDirected, hspec.edges, edgeCount_putEdges h.symmetric, h.numEdges,
      hresult]
    by_cases hmem : (src, dst) ∈ d.store.edges
    · simp [hmem]
    · simp [hmem, UInt64.ofNat_add]
  · rw [hresult, hspec.getWeight_before hids h.wellFormed, decide_eq_true_iff,
      Finmap.lookup_eq_none]

/-- **A removal of an edge** keeps the invariant, and tells whether the edge was present. -/
theorem EdgesInv.removeEdge (h : EdgesInv ids d) (hab : a ≠ b)
    (hremove : removeEdge attempts d a b = some (result, d')) :
    EdgesInv ids d' ∧ (result = true ↔ d.getWeight a b ≠ none) := by
  have hkeep := h.directions.removeEdge hremove
  by_cases hnone : d.dictionary.lookup a = none ∨ d.dictionary.lookup b = none
  · rw [removeEdge_of_none hnone] at hremove
    obtain ⟨rfl, rfl⟩ := Prod.mk.inj (Option.some.inj hremove)
    refine ⟨h, ?_⟩
    rw [getWeight]
    rcases hnone with hnone | hnone
    · simp [hnone]
    · cases d.dictionary.lookup a <;> simp [hnone]
  · obtain ⟨hsrc, hdst⟩ := not_or.mp hnone
    obtain ⟨src, hsrc⟩ := Option.ne_none_iff_exists'.mp hsrc
    obtain ⟨dst, hdst⟩ := Option.ne_none_iff_exists'.mp hdst
    obtain ⟨n, -, hresult, rfl⟩ := removeEdge_spec hsrc hdst hremove
    have hne : src ≠ dst := fun heq =>
      hab (h.wellFormed.injective a b src hsrc (heq ▸ hdst))
    rw [deleteResult_eq h.symmetric hne] at hresult
    refine ⟨⟨hkeep.wellFormed, hkeep.symmetric, ?_⟩, ?_⟩
    · have hcount := edgeCount_deleteEdges h.symmetric src dst
      simp only [h.numEdges, ← hcount, hresult]
      by_cases hmem : (src, dst) ∈ d.store.edges
      · simp [hmem, UInt64.ofNat_add]
      · simp [hmem]
    · rw [hresult, getWeight, hsrc, hdst, decide_eq_true_iff]
      simp only [Store.getEdge, ne_eq, Finmap.lookup_eq_none, not_not]

/-- A vertex that is added has no edges. -/
theorem EdgesInv.addVertex {v : ℕ} (h : EdgesInv ids d) (hids : Function.Injective ids)
    (hadd : addVertex ids attempts d v = some (result, d')) : EdgesInv ids d' := by
  have hkeep := h.directions.addVertex hids hadd
  rcases addVertex_spec hadd with ⟨-, rfl⟩ | ⟨-, id, committed, -, hspec⟩
  · exact h
  · refine ⟨hkeep.wellFormed, hkeep.symmetric, ?_⟩
    rw [hspec.numEdges, hspec.isDirected, hspec.edges, h.numEdges]

/-- A call whose edge is not a loop. -/
def Call.LoopFree : Call W → Prop
  | .addVertex _ _ | .removeVertex _ => True
  | .addEdgeV2 a b _ _ | .addEdgeV3 a b _ _ | .updateEdgeV1 a b _ _ | .removeEdge a b _ => a ≠ b

/-- `add_edge_v2` tells whether the edge was absent, and `remove_edge` whether it was present. -/
def Answers (d : GTXDriver W) (result : Bool) : Call W → Prop
  | .addEdgeV2 a b _ _ => result = true ↔ d.getWeight a b = none
  | .removeEdge a b _ => result = true ↔ d.getWeight a b ≠ none
  | .addVertex _ _ | .removeVertex _ | .addEdgeV3 _ _ _ _ | .updateEdgeV1 _ _ _ _ => True

/-- **The edges after a call**: the directions of an undirected edge are stored together, the
counter is the number of stored edges, and the answer is right. -/
def KeepsEdges (d : GTXDriver W) (c : Call W) (result : Bool) (d' : GTXDriver W) : Prop :=
  (d'.isDirected = false → ∀ x y, (d'.getWeight x y).isSome ↔ (d'.getWeight y x).isSome) ∧
  d'.numEdges = UInt64.ofNat (edgeCount d'.isDirected d'.store.edges.keys) ∧ Answers d result c

section Calls

variable [Add W]

/-- A call keeps the invariant. -/
theorem EdgesInv.step (h : EdgesInv ids d) (hids : Function.Injective ids) {c : Call W}
    (hloop : c.LoopFree) (hc : d.step ids c = some (result, d')) :
    EdgesInv ids d' ∧ Answers d result c := by
  cases c with
  | addVertex v attempts => exact ⟨h.addVertex hids hc, trivial⟩
  | removeVertex v =>
    obtain ⟨-, rfl⟩ := Prod.mk.inj (Option.some.inj hc)
    exact ⟨⟨⟨h.wellFormed.drawn, h.wellFormed.injective, h.wellFormed.endpoints⟩, h.symmetric,
      h.numEdges⟩, trivial⟩
  | addEdgeV2 a b w attempts => exact h.putEdge hids hloop hc
  | addEdgeV3 a b w attempts =>
    obtain ⟨⟨r, d''⟩, hput, hret⟩ := Option.map_eq_some_iff.mp hc
    obtain ⟨-, rfl⟩ := Prod.mk.inj hret
    exact ⟨(h.putEdge hids hloop hput).1, trivial⟩
  | updateEdgeV1 a b w attempts =>
    obtain ⟨⟨r, d''⟩, hput, hret⟩ := Option.map_eq_some_iff.mp hc
    obtain ⟨-, rfl⟩ := Prod.mk.inj hret
    exact ⟨(h.putEdge hids hloop hput).1, trivial⟩
  | removeEdge a b attempts => exact h.removeEdge hloop hc

end Calls

/-! ## The weights along a sequence of calls -/

/-- The two directions of an edge have one weight. -/
def SymmetricMap (edges : Finmap fun _ : ℕ × ℕ => W) : Prop :=
  ∀ x y, edges.lookup (x, y) = edges.lookup (y, x)

/-- The weight of an edge after an update of it. -/
theorem lookup_putEdges_self : (putEdges false edges src dst w).lookup (src, dst) = some w := by
  rw [putEdges]
  split_ifs
  · by_cases hne : src = dst
    · rw [hne, Finmap.lookup_insert]
    · rw [Finmap.lookup_insert_of_ne _ fun heq => hne (Prod.mk.inj heq).1, Finmap.lookup_insert]
  · exact Finmap.lookup_insert _

/-- The weight of the opposite direction: it is written when the edge was new. -/
theorem lookup_putEdges_opposite (hne : src ≠ dst) :
    (putEdges false edges src dst w).lookup (dst, src) =
      if (src, dst) ∈ edges then edges.lookup (dst, src) else some w := by
  have hopposite : (dst, src) ≠ (src, dst) := fun heq => hne (Prod.mk.inj heq).2
  rw [putEdges]
  by_cases hmem : (src, dst) ∈ edges
  · rw [if_neg (by simp [hmem]), if_pos hmem, Finmap.lookup_insert_of_ne _ hopposite]
  · rw [if_pos (by simp [hmem]), if_neg hmem, Finmap.lookup_insert]

/-- **The weights after an update** of an undirected edge that keeps the weight of a stored one. -/
theorem SymmetricMap.lookup_putEdges (h : SymmetricMap edges)
    (hsame : src ≠ dst → ∀ w₀, edges.lookup (src, dst) = some w₀ → w = w₀) (x y : ℕ) :
    (putEdges false edges src dst w).lookup (x, y) =
      if (x = src ∧ y = dst) ∨ (x = dst ∧ y = src) then some w else edges.lookup (x, y) := by
  rw [putEdges]
  by_cases hmem : (src, dst) ∈ edges
  · rw [if_neg (by simp [hmem]), lookup_insert_edge]
    by_cases hforth : x = src ∧ y = dst
    · rw [if_pos hforth, if_pos (Or.inl hforth)]
    rw [if_neg hforth]
    by_cases hback : x = dst ∧ y = src
    · -- the opposite direction has the same weight already
      obtain ⟨rfl, rfl⟩ := hback
      have hne : y ≠ x := fun heq => hforth ⟨heq.symm, heq⟩
      obtain ⟨w₀, hw₀⟩ := Finmap.mem_iff.mp hmem
      rw [if_pos (Or.inr ⟨rfl, rfl⟩), h, hw₀, hsame hne w₀ hw₀]
    · rw [if_neg (not_or.mpr ⟨hforth, hback⟩)]
  · rw [if_pos (by simp [hmem])]
    exact lookup_insert_pair edges src dst w x y

theorem SymmetricMap.lookup_deleteEdges (h : SymmetricMap edges) (x y : ℕ) :
    (deleteEdges false edges src dst).lookup (x, y) =
      if (x = src ∧ y = dst) ∨ (x = dst ∧ y = src) then none else edges.lookup (x, y) := by
  rw [deleteEdges]
  by_cases hmem : (src, dst) ∈ edges
  · rw [if_pos ⟨hmem, rfl⟩]
    exact lookup_erase_pair edges src dst x y
  · rw [if_neg (by simp [hmem]), lookup_erase_edge]
    by_cases hforth : x = src ∧ y = dst
    · rw [if_pos hforth, if_pos (Or.inl hforth)]
    rw [if_neg hforth]
    by_cases hback : x = dst ∧ y = src
    · obtain ⟨rfl, rfl⟩ := hback
      rw [if_pos (Or.inr ⟨rfl, rfl⟩), h, Finmap.lookup_eq_none]
      exact hmem
    · rw [if_neg (not_or.mpr ⟨hforth, hback⟩)]

/-- **The weights stay symmetric** when a stored edge keeps its weight. -/
theorem SymmetricMap.putEdges (h : SymmetricMap edges)
    (hsame : src ≠ dst → ∀ w₀, edges.lookup (src, dst) = some w₀ → w = w₀) :
    SymmetricMap (putEdges false edges src dst w) :=
  symm_of_write h (h.lookup_putEdges hsame)

theorem SymmetricMap.deleteEdges (h : SymmetricMap edges) :
    SymmetricMap (deleteEdges false edges src dst) :=
  symm_of_write h h.lookup_deleteEdges

/-- The weights of an undirected graph, seen from the vertices. -/
theorem getWeight_comm (h : SymmetricMap d.store.edges) (x y : ℕ) :
    d.getWeight x y = d.getWeight y x := by
  rw [getWeight, getWeight]
  cases d.dictionary.lookup x with
  | none => cases d.dictionary.lookup y <;> rfl
  | some src =>
    cases d.dictionary.lookup y with
    | none => rfl
    | some dst => exact h src dst

/-- **The invariant of the weights** of an undirected graph. -/
structure WeightsInv (ids : ℕ → ℕ) (d : GTXDriver W) : Prop where
  wellFormed : d.WellFormed ids
  undirected : d.isDirected = false
  symmetric : SymmetricMap d.store.edges

/-- **An update keeps the weights symmetric** exactly when it writes the weight that a stored edge
has. -/
theorem WeightsInv.putEdge_iff (h : WeightsInv ids d) (hids : Function.Injective ids)
    {weight : Store W → ℕ → ℕ → W} (written : W)
    (hwritten : ∀ src dst s, s.edges = d.store.edges →
      d.getWeight a b = d.store.edges.lookup (src, dst) → weight s src dst = written)
    (hput : putEdge ids attempts d a b weight = some (result, d')) :
    ((∀ x y, d'.getWeight x y = d'.getWeight y x) ↔
      (a ≠ b → ∀ w₀, d.getWeight a b = some w₀ → written = w₀)) ∧
    ((∀ x y, d'.getWeight x y = d'.getWeight y x) →
      WeightsInv ids d' ∧ d'.getWeight a b = some written ∧ d'.getWeight b a = some written) := by
  obtain ⟨src, dst, s, hs, hspec⟩ := putEdge_spec hids hput
  have hbefore := hspec.getWeight_before hids h.wellFormed
  rw [hwritten src dst s hs hbefore] at hspec
  obtain ⟨hafter, hafter'⟩ := hspec.getWeight_after
  have hself : d'.getWeight a b = some written := by
    rw [hafter, hspec.edges, h.undirected, lookup_putEdges_self]
  have hforward : (∀ x y, d'.getWeight x y = d'.getWeight y x) →
      (a ≠ b → ∀ w₀, d.getWeight a b = some w₀ → written = w₀) := by
    intro hsymm hab w₀ hw₀
    have hopposite := hsymm a b
    rw [hself, hafter', hspec.edges, h.undirected,
      lookup_putEdges_opposite (hspec.src_ne_dst hids h.wellFormed hab)] at hopposite
    rw [hbefore] at hw₀
    rw [if_pos (Finmap.mem_of_lookup_eq_some hw₀), ← h.symmetric, hw₀] at hopposite
    exact Option.some.inj hopposite
  have hbackward : (a ≠ b → ∀ w₀, d.getWeight a b = some w₀ → written = w₀) →
      SymmetricMap d'.store.edges := by
    intro hsame
    rw [hspec.edges, h.undirected]
    refine h.symmetric.putEdges fun hne w₀ hw₀ => hsame (fun hab => ?_) w₀ (hbefore.trans hw₀)
    exact hne (hspec.loop hab).2
  refine ⟨⟨hforward, fun hsame => getWeight_comm (hbackward hsame)⟩, fun hsymm => ⟨⟨?_, ?_, ?_⟩,
    hself, (hsymm b a).trans hself⟩⟩
  · exact hspec.wellFormed hids h.wellFormed
  · rw [hspec.isDirected, h.undirected]
  · exact hbackward (hforward hsymm)

theorem WeightsInv.removeEdge (h : WeightsInv ids d)
    (hremove : removeEdge attempts d a b = some (result, d')) : WeightsInv ids d' := by
  by_cases hnone : d.dictionary.lookup a = none ∨ d.dictionary.lookup b = none
  · rw [removeEdge_of_none hnone] at hremove
    obtain ⟨-, rfl⟩ := Prod.mk.inj (Option.some.inj hremove)
    exact h
  · obtain ⟨hsrc, hdst⟩ := not_or.mp hnone
    obtain ⟨src, hsrc⟩ := Option.ne_none_iff_exists'.mp hsrc
    obtain ⟨dst, hdst⟩ := Option.ne_none_iff_exists'.mp hdst
    obtain ⟨n, hn, -, rfl⟩ := removeEdge_spec hsrc hdst hremove
    refine ⟨?_, h.undirected, ?_⟩
    · exact h.wellFormed.deleteEdges hn
    · simp only [h.undirected]
      exact h.symmetric.deleteEdges

theorem WeightsInv.addVertex {v : ℕ} (h : WeightsInv ids d) (hids : Function.Injective ids)
    (hadd : addVertex ids attempts d v = some (result, d')) : WeightsInv ids d' := by
  rcases addVertex_spec hadd with ⟨-, rfl⟩ | ⟨-, id, committed, -, hspec⟩
  · exact h
  · refine ⟨hspec.wellFormed hids h.wellFormed, hspec.isDirected.trans h.undirected, ?_⟩
    rw [hspec.edges]
    exact h.symmetric

/-- `add_edge_v3` leaves the weight that it was given. -/
def Written (d' : GTXDriver W) : Call W → Prop
  | .addEdgeV3 a b w _ => d'.getWeight a b = some w ∧ d'.getWeight b a = some w
  | .addVertex _ _ | .removeVertex _ | .addEdgeV2 _ _ _ _ | .updateEdgeV1 _ _ _ _
  | .removeEdge _ _ _ => True

/-- **The weights after a call** are symmetric, and `add_edge_v3` has left the one it was given. -/
def SymmetricWeights (_ : GTXDriver W) (c : Call W) (_ : Bool) (d' : GTXDriver W) : Prop :=
  (∀ x y, d'.getWeight x y = d'.getWeight y x) ∧ Written d' c

section Weights

variable [Add W]

/-- A call that writes to a stored edge writes the weight that the edge has. -/
def WritesSame (d : GTXDriver W) : Call W → Prop
  | .addEdgeV2 a b w _ | .addEdgeV3 a b w _ => a ≠ b → ∀ w₀, d.getWeight a b = some w₀ → w = w₀
  | .updateEdgeV1 a b w _ => a ≠ b → ∀ w₀, d.getWeight a b = some w₀ → w + w₀ = w₀
  | .addVertex _ _ | .removeVertex _ | .removeEdge _ _ _ => True

/-- **A call keeps the weights symmetric** exactly when it writes the weight that a stored edge
has. -/
theorem WeightsInv.step_iff (h : WeightsInv ids d) (hids : Function.Injective ids) {c : Call W}
    (hc : d.step ids c = some (result, d')) :
    (SymmetricWeights d c result d' ↔ WritesSame d c) ∧
      (SymmetricWeights d c result d' → WeightsInv ids d') := by
  have hkept : WeightsInv ids d' → (∀ x y, d'.getWeight x y = d'.getWeight y x) :=
    fun h' => getWeight_comm h'.symmetric
  cases c with
  | addVertex v attempts =>
    have h' := h.addVertex hids hc
    exact ⟨⟨fun _ => trivial, fun _ => ⟨hkept h', trivial⟩⟩, fun _ => h'⟩
  | removeVertex v =>
    obtain ⟨-, rfl⟩ := Prod.mk.inj (Option.some.inj hc)
    have h' : WeightsInv ids d.removeVertex.2 :=
      ⟨⟨h.wellFormed.drawn, h.wellFormed.injective, h.wellFormed.endpoints⟩, h.undirected,
        h.symmetric⟩
    exact ⟨⟨fun _ => trivial, fun _ => ⟨hkept h', trivial⟩⟩, fun _ => h'⟩
  | addEdgeV2 a b w attempts =>
    obtain ⟨hiff, hkeep⟩ := h.putEdge_iff hids w (fun _ _ _ _ _ => rfl) hc
    exact ⟨⟨fun hp => hiff.mp hp.1, fun hq => ⟨hiff.mpr hq, trivial⟩⟩, fun hp => (hkeep hp.1).1⟩
  | addEdgeV3 a b w attempts =>
    obtain ⟨⟨r, d''⟩, hput, hret⟩ := Option.map_eq_some_iff.mp hc
    obtain ⟨-, rfl⟩ := Prod.mk.inj hret
    obtain ⟨hiff, hkeep⟩ := h.putEdge_iff hids w (fun _ _ _ _ _ => rfl) hput
    exact ⟨⟨fun hp => hiff.mp hp.1, fun hq => ⟨hiff.mpr hq, (hkeep (hiff.mpr hq)).2⟩⟩,
      fun hp => (hkeep hp.1).1⟩
  | updateEdgeV1 a b w attempts =>
    obtain ⟨⟨r, d''⟩, hput, hret⟩ := Option.map_eq_some_iff.mp hc
    obtain ⟨-, rfl⟩ := Prod.mk.inj hret
    -- the weight is read when both vertices exist, and there is none otherwise
    obtain ⟨hiff, hkeep⟩ := h.putEdge_iff hids ((d.getWeight a b).elim w (w + ·))
      (by
        intro src dst s hs hbefore
        rw [Store.getEdge, hs, ← hbefore]
        cases hread : d.getWeight a b with
        | none => rfl
        | some w₀ =>
          obtain ⟨ha, hb⟩ := hasVertex_of_getWeight hread
          simp [ha, hb])
      hput
    have hsame : WritesSame d (.updateEdgeV1 a b w attempts) ↔
        (a ≠ b → ∀ w₀, d.getWeight a b = some w₀ → (d.getWeight a b).elim w (w + ·) = w₀) := by
      refine forall_congr' fun _ => forall_congr' fun w₀ => imp_congr_right fun hw₀ => ?_
      rw [hw₀]
      rfl
    rw [hsame]
    exact ⟨⟨fun hp => hiff.mp hp.1, fun hq => ⟨hiff.mpr hq, trivial⟩⟩, fun hp => (hkeep hp.1).1⟩
  | removeEdge a b attempts =>
    have h' := h.removeEdge hc
    exact ⟨⟨fun _ => trivial, fun _ => ⟨hkept h', trivial⟩⟩, fun _ => h'⟩

/-- **The sequences of calls** along which the weights of an undirected graph are symmetric: those
in which no call changes the weight of a stored edge. -/
theorem symmetricWeights_iff (hids : Function.Injective ids) (calls : List (Call W)) :
    Along (GTXDriver.step ids) SymmetricWeights (GTXDriver.new W false) calls ↔
      Along (GTXDriver.step ids) (fun (d : GTXDriver W) c _ _ => WritesSame d c)
        (GTXDriver.new W false) calls := by
  refine along_congr (I := WeightsInv ids) ?_ ?_ calls
  · intro d c result d' h hc
    exact h.step_iff hids hc
  · refine ⟨wellFormed_new false, rfl, fun x y => ?_⟩
    simp [GTXDriver.new]

end Weights

/-- An edge is written again in the other orientation, with the same weight. -/
theorem symmetricWeights_twice :
    Along (GTXDriver.step id) SymmetricWeights (GTXDriver.new ℤ false)
      [.addEdgeV3 10 20 7 [.commit true], .addEdgeV3 20 10 7 [.commit true]] := by
  refine (symmetricWeights_iff Function.injective_id _).mpr ?_
  obtain ⟨d₁, h₁⟩ : ∃ d₁, GTXDriver.step id (GTXDriver.new ℤ false)
    (.addEdgeV3 10 20 7 [.commit true]) = some (true, d₁) := ⟨_, rfl⟩
  have hweight : d₁.getWeight 20 10 = some 7 := by
    obtain rfl := (Prod.mk.inj (Option.some.inj h₁)).2
    decide
  refine (along_cons h₁).mpr ⟨fun _ w₀ hw₀ => ?_, fun r d₂ h₂ => ⟨fun _ w₀ hw₀ => ?_, trivial⟩⟩
  · simp [getWeight, GTXDriver.new] at hw₀
  · exact Option.some.inj (hweight.symm.trans hw₀)

/-- The second write changes the weight of one direction only. -/
theorem not_symmetricWeights_rewrite :
    ¬Along (GTXDriver.step id) SymmetricWeights (GTXDriver.new ℤ false)
      [.addEdgeV3 10 20 1 [.commit true], .addEdgeV3 10 20 2 [.commit true]] := by
  intro h
  obtain ⟨d₁, h₁⟩ : ∃ d₁, GTXDriver.step id (GTXDriver.new ℤ false)
    (.addEdgeV3 10 20 1 [.commit true]) = some (true, d₁) := ⟨_, rfl⟩
  obtain ⟨d₂, h₂⟩ : ∃ d₂, GTXDriver.step id d₁ (.addEdgeV3 10 20 2 [.commit true]) =
    some (true, d₂) := ⟨_, rfl⟩
  obtain ⟨-, hrest⟩ := (along_cons h₁).mp h
  obtain ⟨⟨hsymm, -⟩, -⟩ := (along_cons h₂).mp hrest
  have hone : d₂.getWeight 20 10 = some 1 := by
    obtain rfl := (Prod.mk.inj (Option.some.inj h₁)).2
    obtain rfl := (Prod.mk.inj (Option.some.inj h₂)).2
    decide
  have htwo : d₂.getWeight 10 20 = some 2 := by
    obtain rfl := (Prod.mk.inj (Option.some.inj h₁)).2
    obtain rfl := (Prod.mk.inj (Option.some.inj h₂)).2
    decide
  have hopposite := hsymm 10 20
  rw [hone, htwo] at hopposite
  cases hopposite

end Edges

end Gtx

end GfeDriver
