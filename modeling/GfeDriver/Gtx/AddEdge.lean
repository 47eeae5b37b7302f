import GfeDriver.Gtx.Edges

/-!
# The two insertions of an edge in GTX

`add_edge` looks for the edge with `get_edge`, and writes both directions of an undirected edge when
it does not find it. `add_edge_v2` relies on the answer of `checked_put_edge`. Between two vertices
that exist they should return the same.

The arguments of `get_edge` are the source, the destination and the label, as `update_edge_v1`
passes them. `add_edge` passes the label `1` in the place of the destination and the identifier of
the destination in the place of the label: it looks for an edge to the identifier `1` whose label is
the identifier of the destination. All the edges of the driver have the label `1`.

## Main definitions

* `Store.getLabelledEdge`: `get_edge` with its three arguments
* `addEdge`: the insertion
* `Reachable`: the drivers after calls that return
* `AddEdgeAgrees`: the two insertions do the same

## Main results

* `addEdge_spec`: what `add_edge` does
* `Reachable.inv`: the two directions of an edge are stored together, whatever was called
* `addEdgeAgrees_iff`: the states and the edges with which the insertions agree
-/

namespace GfeDriver

namespace Gtx

open Foundation

/-! ## The program -/

section Program

variable {W : Type}

/-- `get_edge`, with the label: the edges have the label `1`. -/
def Store.getLabelledEdge (s : Store W) (src dst label : ℕ) : Option W :=
  if label = 1 then s.getEdge src dst else none

/-- `put_edge`: insert or overwrite the edge. -/
def Store.putEdge (s : Store W) (src dst : ℕ) (weight : W) : Store W :=
  { s with edges := s.edges.insert (src, dst) weight }

namespace GTXDriver

/-- The writes of `add_edge`. -/
def addEdgeBody (isDirected : Bool) (src dst : ℕ) (weight : W) (s : Store W) : Store W :=
  let s := s.putEdge src dst weight
  if !isDirected then s.putEdge dst src weight else s

/-- The loop of `add_edge`, where `toLabel` is the conversion of an identifier to a label. No
identifier is drawn, and an attempt that finds the edge returns without a commit. -/
def addEdgeLoop (toLabel : ℕ → ℕ) (isDirected : Bool) (src dst : ℕ) (weight : W) :
    List Attempt → Store W → Option (Bool × Store W)
  | [], _ => none
  | .rollback _ :: attempts, s => addEdgeLoop toLabel isDirected src dst weight attempts s
  | .commit ok :: attempts, s =>
    if (s.getLabelledEdge src 1 (toLabel dst)).isSome then some (false, s)
    else if ok then some (true, addEdgeBody isDirected src dst weight s)
    else addEdgeLoop toLabel isDirected src dst weight attempts s

/-- `add_edge`. -/
def addEdge (toLabel : ℕ → ℕ) (attempts : List Attempt) (d : GTXDriver W) (a b : ℕ) (w : W) :
    Option (Bool × GTXDriver W) :=
  match d.dictionary.lookup a, d.dictionary.lookup b with
  | some src, some dst =>
    (addEdgeLoop toLabel d.isDirected src dst w attempts d.store).map fun (result, store) =>
      (result, { d with
        store := store
        numEdges := d.numEdges + (if result then 1 else 0) })
  | _, _ => some (false, d)

end GTXDriver

/-- **The drivers after calls that return**, from a new one. -/
inductive Reachable [Add W] (ids : ℕ → ℕ) (toLabel : ℕ → ℕ) : GTXDriver W → Prop
  | new (isDirected : Bool) : Reachable ids toLabel (GTXDriver.new W isDirected)
  | step {d d' : GTXDriver W} {c : Call W} {result : Bool} (hd : Reachable ids toLabel d)
      (h : d.step ids c = some (result, d')) : Reachable ids toLabel d'
  | addEdge {d d' : GTXDriver W} {a b : ℕ} {w : W} {attempts : List Attempt} {result : Bool}
      (hd : Reachable ids toLabel d)
      (h : d.addEdge toLabel attempts a b w = some (result, d')) : Reachable ids toLabel d'

/-- **The two insertions do the same**, whatever attempts fail: they return the same and change the
number of edges alike, and `add_edge` returns whether the edge was absent and leaves the edges when
it was not. -/
def AddEdgeAgrees (ids toLabel : ℕ → ℕ) (d : GTXDriver W) (a b : ℕ) (w : W) : Prop :=
  ∀ attempts attempts' result result' d₁ d₂,
    d.addEdge toLabel attempts a b w = some (result, d₁) →
    d.addEdgeV2 ids attempts' a b w = some (result', d₂) →
    result = result' ∧ d₁.numEdges = d₂.numEdges ∧ (d.getWeight a b = none → result = true) ∧
      (d.getWeight a b ≠ none →
        result = false ∧ d₁.numEdges = d.numEdges ∧ d₁.store.edges = d.store.edges)

end Program

/-! ## What `add_edge` does -/

section Spec

variable {W : Type} {ids toLabel : ℕ → ℕ} {d d' : GTXDriver W} {attempts : List Attempt}
  {a b src dst : ℕ} {result : Bool} {w : W}

open GTXDriver

/-- The edges after the writes of `add_edge`. -/
theorem keys_addEdgeBody (isDirected : Bool) (s : Store W) :
    (addEdgeBody isDirected src dst w s).edges.keys =
      insertEdge isDirected s.edges.keys src dst := by
  cases isDirected with
  | true => exact keys_insert ..
  | false =>
    show ((s.edges.insert (src, dst) w).insert (dst, src) w).keys = _
    rw [keys_insert, keys_insert]
    rfl

theorem allocated_addEdgeBody (isDirected : Bool) (s : Store W) :
    (addEdgeBody isDirected src dst w s).allocated = s.allocated := by
  cases isDirected <;> rfl

/-- Does `add_edge` take an edge to be there? -/
def finds (toLabel : ℕ → ℕ) (s : Store W) (src dst : ℕ) : Prop :=
  toLabel dst = 1 ∧ (src, 1) ∈ s.edges

theorem isSome_getLabelledEdge_iff (s : Store W) :
    (s.getLabelledEdge src 1 (toLabel dst)).isSome ↔ finds toLabel s src dst := by
  rw [Store.getLabelledEdge, finds, ← Finmap.lookup_isSome]
  split_ifs with hlabel
  · simp [hlabel, Store.getEdge]
  · simp [hlabel]

/-- An edge that is found ends the loop. -/
theorem addEdgeLoop_of_finds {isDirected : Bool} {s : Store W} (hfinds : finds toLabel s src dst)
    {r : Bool × Store W} (h : addEdgeLoop toLabel isDirected src dst w attempts s = some r) :
    r = (false, s) := by
  induction attempts with
  | nil => cases h
  | cons attempt attempts ih =>
    cases attempt with
    | rollback drawn => exact ih h
    | commit ok =>
      rw [addEdgeLoop, if_pos ((isSome_getLabelledEdge_iff s).mpr hfinds)] at h
      exact (Option.some.inj h).symm

/-- An edge that is not found is written. -/
theorem addEdgeLoop_of_not_finds {isDirected : Bool} {s : Store W}
    (hfinds : ¬finds toLabel s src dst) {r : Bool × Store W}
    (h : addEdgeLoop toLabel isDirected src dst w attempts s = some r) :
    r = (true, addEdgeBody isDirected src dst w s) := by
  induction attempts with
  | nil => cases h
  | cons attempt attempts ih =>
    cases attempt with
    | rollback drawn => exact ih h
    | commit ok =>
      rw [addEdgeLoop, if_neg fun hsome => hfinds ((isSome_getLabelledEdge_iff s).mp hsome)] at h
      cases ok with
      | false => exact ih h
      | true => exact (Option.some.inj h).symm

/-- **What `add_edge` does** between vertices that exist. -/
theorem addEdge_spec (hsrc : d.dictionary.lookup a = some src)
    (hdst : d.dictionary.lookup b = some dst)
    (h : d.addEdge toLabel attempts a b w = some (result, d')) :
    (finds toLabel d.store src dst ∧ result = false ∧ d' = d) ∨
      (¬finds toLabel d.store src dst ∧ result = true ∧
        d' = { d with
          store := addEdgeBody d.isDirected src dst w d.store
          numEdges := d.numEdges + 1 }) := by
  rw [addEdge, hsrc, hdst] at h
  obtain ⟨⟨result', store⟩, hloop, hret⟩ := Option.map_eq_some_iff.mp h
  obtain ⟨rfl, rfl⟩ := Prod.mk.inj hret
  by_cases hfinds : finds toLabel d.store src dst
  · obtain ⟨rfl, rfl⟩ := Prod.mk.inj (addEdgeLoop_of_finds hfinds hloop)
    exact Or.inl ⟨hfinds, rfl, by simp⟩
  · obtain ⟨rfl, rfl⟩ := Prod.mk.inj (addEdgeLoop_of_not_finds hfinds hloop)
    exact Or.inr ⟨hfinds, rfl, by simp⟩

/-- `add_edge` returns without a vertex. -/
theorem addEdge_of_none (hnone : d.dictionary.lookup a = none ∨ d.dictionary.lookup b = none) :
    d.addEdge toLabel attempts a b w = some (false, d) := by
  rw [addEdge]
  rcases hnone with hnone | hnone
  · rw [hnone]
  · rw [hnone]
    cases d.dictionary.lookup a <;> rfl

/-! ## The reachable drivers -/

/-- **An insertion of an edge** keeps the invariant. -/
theorem DirectionsInv.addEdge (h : DirectionsInv ids d)
    (hadd : d.addEdge toLabel attempts a b w = some (result, d')) : DirectionsInv ids d' := by
  by_cases hnone : d.dictionary.lookup a = none ∨ d.dictionary.lookup b = none
  · rw [addEdge_of_none hnone] at hadd
    obtain ⟨-, rfl⟩ := Prod.mk.inj (Option.some.inj hadd)
    exact h
  · obtain ⟨hsrc, hdst⟩ := not_or.mp hnone
    obtain ⟨src, hsrc⟩ := Option.ne_none_iff_exists'.mp hsrc
    obtain ⟨dst, hdst⟩ := Option.ne_none_iff_exists'.mp hdst
    rcases addEdge_spec hsrc hdst hadd with ⟨-, -, rfl⟩ | ⟨-, -, rfl⟩
    · exact h
    · have hkeys : (addEdgeBody d.isDirected src dst w d.store).edges.keys =
          insertEdge d.isDirected d.store.edges.keys src dst := keys_addEdgeBody ..
      have hdrawn := And.intro (h.wellFormed.drawn a src hsrc) (h.wellFormed.drawn b dst hdst)
      refine ⟨⟨fun v id hv => ?_, h.wellFormed.injective, fun x y hxy => ?_⟩, fun hd => ?_⟩
      · show Drawn ids (addEdgeBody d.isDirected src dst w d.store).allocated id
        rw [allocated_addEdgeBody]
        exact h.wellFormed.drawn v id hv
      · show Drawn ids (addEdgeBody d.isDirected src dst w d.store).allocated x ∧
          Drawn ids (addEdgeBody d.isDirected src dst w d.store).allocated y
        rw [allocated_addEdgeBody]
        rw [← Finmap.mem_keys, hkeys, mem_insertEdge] at hxy
        rcases hxy with ⟨rfl, rfl⟩ | ⟨-, rfl, rfl⟩ | hold
        · exact hdrawn
        · exact hdrawn.symm
        · exact h.wellFormed.endpoints x y (Finmap.mem_keys.mp hold)
      · have hd : d.isDirected = false := hd
        apply symmetric_of_keys
        rw [hd] at hkeys
        intro x y hxy
        simp only [hd, hkeys] at hxy ⊢
        exact symm_insertEdge (h.symmetric hd).keys hxy

/-- The invariant holds in every reachable driver. -/
theorem Reachable.inv [Add W] (hids : Function.Injective ids) (hd : Reachable ids toLabel d) :
    DirectionsInv ids d := by
  induction hd with
  | new isDirected => exact directionsInv_new isDirected
  | addEdge _ h ih => exact ih.addEdge h
  | step _ h ih => exact ih.step hids h

/-! ## The agreement -/

/-- **What `add_edge_v2` does** between two vertices that exist. -/
theorem DirectionsInv.addEdgeV2 (h : DirectionsInv ids d) (hids : Function.Injective ids)
    (hsrc : d.dictionary.lookup a = some src) (hdst : d.dictionary.lookup b = some dst)
    (hab : a ≠ b) (hadd : d.addEdgeV2 ids attempts a b w = some (result, d')) :
    result = decide ((src, dst) ∉ d.store.edges) ∧
      d'.numEdges = d.numEdges + (if result then 1 else 0) := by
  obtain ⟨src', dst', s, -, hspec⟩ := putEdge_spec hids hadd
  have hknown : ∀ {v id id'}, d.dictionary.lookup v = some id → Enters ids d d' v id' →
      id' = id := by
    rintro v id id' hv (hid | ⟨hnone, -⟩)
    · exact Option.some.inj (hid.symm.trans hv)
    · simp [hnone] at hv
  obtain rfl := hknown hsrc hspec.source
  obtain rfl := hknown hdst hspec.destination
  have hne := hspec.src_ne_dst hids h.wellFormed hab
  exact ⟨hspec.result_eq.trans (putResult_eq h.symmetric hne), hspec.numEdges⟩

/-- A transaction that commits ends the loops. -/
theorem exists_addEdgeV2 (ids : ℕ → ℕ) (d : GTXDriver W) (hab : a ≠ b) (w : W) :
    ∃ r, d.addEdgeV2 ids [.commit true] a b w = some r := by
  rw [GTXDriver.addEdgeV2, GTXDriver.putEdge, if_neg fun h => hab h.1]
  exact ⟨_, rfl⟩

theorem exists_addEdge (toLabel : ℕ → ℕ) (hsrc : d.dictionary.lookup a = some src)
    (hdst : d.dictionary.lookup b = some dst) (w : W) :
    ∃ r, d.addEdge toLabel [.commit true] a b w = some r := by
  rw [GTXDriver.addEdge, hsrc, hdst]
  simp only [addEdgeLoop, if_true]
  split_ifs <;> exact ⟨_, rfl⟩

/-- The stored edges decide the weight between two vertices that exist. -/
theorem getWeight_eq_none_iff (hsrc : d.dictionary.lookup a = some src)
    (hdst : d.dictionary.lookup b = some dst) :
    d.getWeight a b = none ↔ (src, dst) ∉ d.store.edges := by
  rw [getWeight, hsrc, hdst]
  exact Finmap.lookup_eq_none

/-- **The two insertions agree** between two vertices that exist exactly when `add_edge` finds the
edge if it is there: it looks for an edge to the identifier `1`, and the identifier of the
destination has to be the label `1`. -/
theorem addEdgeAgrees_iff [Add W] (hids : Function.Injective ids) (hd : Reachable ids toLabel d)
    (hsrc : d.dictionary.lookup a = some src) (hdst : d.dictionary.lookup b = some dst)
    (hab : a ≠ b) (w : W) :
    AddEdgeAgrees ids toLabel d a b w ↔
      ((src, dst) ∈ d.store.edges ↔ toLabel dst = 1 ∧ (src, 1) ∈ d.store.edges) := by
  have hinv := hd.inv hids
  constructor
  · intro hagrees
    obtain ⟨⟨result, d₁⟩, h₁⟩ := exists_addEdge toLabel hsrc hdst w
    obtain ⟨⟨result', d₂⟩, h₂⟩ := exists_addEdgeV2 ids d hab w
    obtain ⟨hresult, -⟩ := hagrees _ _ _ _ _ _ h₁ h₂
    rw [(hinv.addEdgeV2 hids hsrc hdst hab h₂).1] at hresult
    rcases addEdge_spec hsrc hdst h₁ with ⟨hfinds, rfl, -⟩ | ⟨hfinds, rfl, -⟩
    · exact iff_of_true (by simpa using hresult.symm) hfinds
    · exact iff_of_false (by simpa using hresult.symm) hfinds
  · intro hiff attempts attempts' result result' d₁ d₂ h₁ h₂
    obtain ⟨hresult', hnum⟩ := hinv.addEdgeV2 hids hsrc hdst hab h₂
    rw [ne_eq, getWeight_eq_none_iff hsrc hdst, not_not]
    rcases addEdge_spec hsrc hdst h₁ with ⟨hfinds, rfl, rfl⟩ | ⟨hfinds, rfl, rfl⟩
    · have hmem := hiff.mpr hfinds
      rw [decide_eq_false fun hnot => hnot hmem] at hresult'
      subst hresult'
      exact ⟨rfl, by simp [hnum], fun hnot => absurd hmem hnot, fun _ => ⟨rfl, rfl, rfl⟩⟩
    · have hnot : (src, dst) ∉ d.store.edges := fun hmem => hfinds (hiff.mp hmem)
      rw [decide_eq_true hnot] at hresult'
      subst hresult'
      exact ⟨rfl, by simp [hnum], fun _ => rfl, fun hmem => absurd hmem hnot⟩

end Spec

/-! ## An edge between the identifiers `1` and `2` -/

/-- The driver of a directed graph after `add_edge_v2` from `10` to `20`. -/
def oneEdge : GTXDriver ℤ where
  isDirected := true
  dictionary := ((∅ : Finmap fun _ : ℕ => ℕ).insert 10 1).insert 20 2
  store :=
    { vertices := ((∅ : Finmap fun _ : ℕ => ℕ).insert 1 10).insert 2 20
      edges := (∅ : Finmap fun _ : ℕ × ℕ => ℤ).insert (1, 2) 7
      allocated := 2 }
  numVertices := 2
  numEdges := 1

theorem reachable_oneEdge : Reachable (· + 1) id oneEdge := by
  have hcall : (GTXDriver.new ℤ true).step (· + 1) (.addEdgeV2 10 20 7 [.commit true]) =
      some (true, oneEdge) := rfl
  exact (Reachable.new true).step hcall

/-- The edge from `20` to `10`, which is absent. -/
theorem addEdgeAgrees_oneEdge : AddEdgeAgrees (· + 1) id oneEdge 20 10 5 := by
  apply (addEdgeAgrees_iff (add_left_injective 1) reachable_oneEdge rfl rfl (by decide) 5).mpr
  exact (and_iff_right rfl).symm

/-- `add_edge` inserts the edge from `10` to `20` again. -/
theorem not_addEdgeAgrees_oneEdge :
    Reachable (· + 1) id oneEdge ∧ ¬AddEdgeAgrees (· + 1) id oneEdge 10 20 5 := by
  refine ⟨reachable_oneEdge, fun hagrees => ?_⟩
  obtain ⟨d₁, h₁⟩ : ∃ d₁, oneEdge.addEdge id [.commit true] 10 20 5 = some (true, d₁) := ⟨_, rfl⟩
  obtain ⟨d₂, h₂⟩ : ∃ d₂, oneEdge.addEdgeV2 (· + 1) [.commit true] 10 20 5 = some (false, d₂) :=
    ⟨_, rfl⟩
  obtain ⟨hresult, -⟩ := hagrees _ _ _ _ _ _ h₁ h₂
  exact Bool.noConfusion hresult

end Gtx

end GfeDriver
