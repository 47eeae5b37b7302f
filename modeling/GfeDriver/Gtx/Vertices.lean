import GfeDriver.Gtx.Driver

/-!
# The vertices of the GTX driver

The dictionary, the payloads of the vertices and the counter of the vertices agree along the updates
of edges, whatever attempts fail. They cease to agree with `remove_vertex`, which lowers the counter
and leaves the vertex where it is, and with `add_vertex`, which enters a vertex in the dictionary
even when its transaction did not commit.

## Main definitions

* `Aligned`: the counter, the dictionary and the payloads agree
* `Aligns`: the calls that keep them so

## Main results

* `aligned_iff`: the sequences of calls along which they agree
-/

namespace GfeDriver

namespace Gtx

open Foundation GTXDriver

section Vertices

variable {W : Type} {ids : ℕ → ℕ} {d d' : GTXDriver W} {attempts : List Attempt}
  {a b src dst v id : ℕ} {result : Bool} {w : W}

/-- **The vertices are aligned**: the counter is the number of vertices for which `has_vertex` is
true, and the identifier of a vertex has the vertex as its committed payload. -/
def Aligned (d : GTXDriver W) : Prop :=
  (∃ S : Finset ℕ, (∀ v, v ∈ S ↔ d.hasVertex v = true) ∧ d.numVertices = UInt64.ofNat S.card) ∧
    ∀ v id, d.ext2int v = some id → d.store.vertices.lookup id = some v

/-- `int2ext` is the inverse of `ext2int` on the vertices that exist. -/
theorem Aligned.int2ext_ext2int (h : Aligned d) (hv : d.ext2int v = some id) :
    d.int2ext id = v := by
  rw [int2ext, h.2 v id hv]
  rfl

theorem mem_keys_iff_hasVertex (v : ℕ) : v ∈ d.dictionary.keys ↔ d.hasVertex v = true := by
  rw [Finmap.mem_keys, hasVertex, decide_eq_true_iff]

theorem aligned_iff_card : Aligned d ↔
    d.numVertices = UInt64.ofNat d.dictionary.keys.card ∧
      ∀ v id, d.dictionary.lookup v = some id → d.store.vertices.lookup id = some v := by
  constructor
  · rintro ⟨⟨S, hS, hcount⟩, hpayload⟩
    have hkeys : S = d.dictionary.keys := by
      ext v
      rw [hS, mem_keys_iff_hasVertex]
    exact ⟨hkeys ▸ hcount, hpayload⟩
  · rintro ⟨hcount, hpayload⟩
    exact ⟨⟨_, mem_keys_iff_hasVertex, hcount⟩, hpayload⟩

/-- **The invariant of the vertices.** -/
structure VerticesInv (ids : ℕ → ℕ) (d : GTXDriver W) : Prop where
  wellFormed : d.WellFormed ids
  payloads : ∀ id, d.store.vertices.lookup id ≠ none → Drawn ids d.store.allocated id
  aligned : Aligned d

theorem verticesInv_new (isDirected : Bool) : VerticesInv ids (GTXDriver.new W isDirected) := by
  refine ⟨wellFormed_new isDirected, fun id h => absurd (Finmap.lookup_empty id) h, ?_⟩
  exact aligned_iff_card.mpr ⟨rfl, fun v id hv => by simp [GTXDriver.new] at hv⟩

/-- The vertices after an update of an edge. -/
theorem PutSpec.keys (h : PutSpec ids d a b src dst w result d') :
    d'.dictionary.keys = insert b (insert a d.dictionary.keys) := by
  ext v
  simp only [Finset.mem_insert, Finmap.mem_keys]
  rw [← Finmap.lookup_isSome, h.dictionary, ← Finmap.lookup_isSome]
  split_ifs with hva hvb
  · simp [hva]
  · simp [hvb]
  · simp [hva, hvb]

/-- **An update of an edge** keeps the vertices aligned. -/
theorem VerticesInv.putEdge (h : VerticesInv ids d) (hids : Function.Injective ids)
    {weight : Store W → ℕ → ℕ → W} (hput : putEdge ids attempts d a b weight = some (result, d')) :
    VerticesInv ids d' := by
  obtain ⟨src, dst, s, -, hspec⟩ := putEdge_spec hids hput
  obtain ⟨hcount, hpayload⟩ := aligned_iff_card.mp h.aligned
  have henters : ∀ {v id}, Enters ids d d' v id → d'.store.vertices.lookup id = some v := by
    rintro v id (hknown | ⟨-, hnew, -⟩)
    · rw [hspec.vertices id (h.wellFormed.drawn v id hknown), hpayload v id hknown]
    · exact hnew
  refine ⟨hspec.wellFormed hids h.wellFormed, fun id hid => ?_, aligned_iff_card.mpr ⟨?_, ?_⟩⟩
  · by_cases hsrc : id = src
    · exact hsrc ▸ hspec.source.drawn h.wellFormed hspec.allocated
    by_cases hdst : id = dst
    · exact hdst ▸ hspec.destination.drawn h.wellFormed hspec.allocated
    rw [hspec.other_vertices id hsrc hdst] at hid
    exact (h.payloads id hid).mono hspec.allocated
  · -- a vertex is counted when it is new, and two new vertices are different
    have hmem : ∀ v, d.dictionary.lookup v = none ↔ v ∉ d.dictionary.keys := fun v => by
      rw [Finmap.lookup_eq_none, Finmap.mem_keys]
    rw [hspec.numVertices, hspec.keys, hcount]
    simp only [hmem]
    by_cases ha : a ∈ d.dictionary.keys
    · rw [Finset.insert_eq_of_mem ha, if_neg (not_not.mpr ha)]
      by_cases hb : b ∈ d.dictionary.keys
      · rw [Finset.insert_eq_of_mem hb, if_neg (not_not.mpr hb)]
        simp
      · rw [Finset.card_insert_of_notMem hb, if_pos hb, UInt64.ofNat_add]
        simp
    · have hab : b ≠ a := by
        rintro rfl
        have hknown := (hspec.loop rfl).1
        rw [(hmem b).mpr ha] at hknown
        cases hknown
      rw [if_pos ha]
      by_cases hb : b ∈ d.dictionary.keys
      · rw [Finset.insert_eq_of_mem (Finset.mem_insert_of_mem hb), if_neg (not_not.mpr hb),
          Finset.card_insert_of_notMem ha, UInt64.ofNat_add]
        simp
      · rw [Finset.card_insert_of_notMem (by simp [hab, hb]), Finset.card_insert_of_notMem ha,
          if_pos hb, UInt64.ofNat_add, UInt64.ofNat_add]
        rfl
  · intro v id hv
    rw [hspec.dictionary] at hv
    split_ifs at hv with hva hvb
    · rw [hva, ← Option.some.inj hv]
      exact henters hspec.source
    · rw [hvb, ← Option.some.inj hv]
      exact henters hspec.destination
    · rw [hspec.vertices id (h.wellFormed.drawn v id hv), hpayload v id hv]

theorem VerticesInv.removeEdge (h : VerticesInv ids d)
    (hremove : removeEdge attempts d a b = some (result, d')) : VerticesInv ids d' := by
  by_cases hnone : d.dictionary.lookup a = none ∨ d.dictionary.lookup b = none
  · rw [removeEdge_of_none hnone] at hremove
    obtain ⟨-, rfl⟩ := Prod.mk.inj (Option.some.inj hremove)
    exact h
  · obtain ⟨hsrc, hdst⟩ := not_or.mp hnone
    obtain ⟨src, hsrc⟩ := Option.ne_none_iff_exists'.mp hsrc
    obtain ⟨dst, hdst⟩ := Option.ne_none_iff_exists'.mp hdst
    obtain ⟨n, hn, -, rfl⟩ := removeEdge_spec hsrc hdst hremove
    exact ⟨h.wellFormed.deleteEdges hn, fun id hid => (h.payloads id hid).mono hn, h.aligned⟩

/-- **A new vertex** leaves the vertices aligned exactly when its transaction commits. -/
theorem VerticesInv.addVertex_iff (h : VerticesInv ids d) (hids : Function.Injective ids)
    {committed : Bool} (hv : d.dictionary.lookup v = none)
    (hspec : AddSpec ids d v id committed d') :
    (Aligned d' ↔ committed = true) ∧ (Aligned d' → VerticesInv ids d') := by
  obtain ⟨hcount, hpayload⟩ := aligned_iff_card.mp h.aligned
  have hfresh := not_drawn hids hspec.drawn
  have hlookup : d'.dictionary.lookup v = some id := by
    rw [hspec.dictionary, Finmap.lookup_insert]
  have hiff : Aligned d' ↔ committed = true := by
    rw [aligned_iff_card]
    constructor
    · rintro ⟨-, hpayload'⟩
      by_contra hfailed
      -- the identifier is not one of a vertex in the store
      have hnone := hpayload' v id hlookup
      rw [hspec.vertices, if_neg hfailed] at hnone
      exact hfresh (h.payloads id (by simp [hnone]))
    · intro hcommitted
      refine ⟨?_, fun x id' hx => ?_⟩
      · have hkeys : d'.dictionary.keys = insert v d.dictionary.keys := by
          rw [hspec.dictionary, keys_insert]
        have hnot : v ∉ d.dictionary.keys := by
          rw [Finmap.mem_keys, ← Finmap.lookup_eq_none]
          exact hv
        rw [hspec.numVertices, hkeys, Finset.card_insert_of_notMem hnot, hcount, UInt64.ofNat_add]
        rfl
      · rw [hspec.vertices, if_pos hcommitted]
        rw [hspec.dictionary] at hx
        by_cases hxv : x = v
        · rw [hxv, Finmap.lookup_insert] at hx
          rw [hxv, ← Option.some.inj hx, Finmap.lookup_insert]
        · rw [Finmap.lookup_insert_of_ne _ hxv] at hx
          have hne : id' ≠ id := by
            rintro rfl
            exact hfresh (h.wellFormed.drawn x id' hx)
          rw [Finmap.lookup_insert_of_ne _ hne, hpayload x id' hx]
  refine ⟨hiff, fun haligned => ⟨hspec.wellFormed hids h.wellFormed, fun id' hid' => ?_, haligned⟩⟩
  obtain ⟨k, hk, hk', hid⟩ := hspec.drawn
  by_cases hne : id' = id
  · exact ⟨k, hk', by rw [hid, hne]⟩
  · rw [hspec.vertices, if_pos (hiff.mp haligned), Finmap.lookup_insert_of_ne _ hne] at hid'
    exact (h.payloads id' hid').mono (hk.trans hk'.le)

section Calls

variable [Add W]

/-- A call that keeps the vertices aligned: not one of `remove_vertex`, and one of `add_vertex` for
a new vertex only if the transaction commits. -/
def Aligns (d : GTXDriver W) : Call W → Prop
  | .addVertex v attempts => d.hasVertex v = false → firstCommit attempts = some true
  | .removeVertex _ => False
  | .addEdgeV2 _ _ _ _ | .addEdgeV3 _ _ _ _ | .updateEdgeV1 _ _ _ _ | .removeEdge _ _ _ => True

/-- **A call keeps the vertices aligned** exactly when it is one of those. -/
theorem VerticesInv.step_iff (h : VerticesInv ids d) (hids : Function.Injective ids) {c : Call W}
    (hc : d.step ids c = some (result, d')) :
    (Aligned d' ↔ Aligns d c) ∧ (Aligned d' → VerticesInv ids d') := by
  have hkept : VerticesInv ids d' → ∀ {p : Prop}, p →
      (Aligned d' ↔ p) ∧ (Aligned d' → VerticesInv ids d') :=
    fun h' _ hp => ⟨⟨fun _ => hp, fun _ => h'.aligned⟩, fun _ => h'⟩
  cases c with
  | addVertex v attempts =>
    rcases addVertex_spec hc with ⟨hsome, rfl⟩ | ⟨hnone, id, committed, hfirst, hspec⟩
    · refine hkept h fun hv => absurd ?_ hsome
      rw [Finmap.lookup_eq_none]
      simpa [hasVertex] using hv
    · have hv : d.hasVertex v = false := by
        rw [Finmap.lookup_eq_none] at hnone
        simpa [hasVertex] using hnone
      obtain ⟨hiff, hkeep⟩ := h.addVertex_iff hids hnone hspec
      refine ⟨hiff.trans ?_, hkeep⟩
      rw [Aligns, hfirst]
      exact ⟨fun hcommitted _ => by rw [hcommitted], fun hall => Option.some.inj (hall hv)⟩
  | removeVertex v =>
    obtain ⟨-, rfl⟩ := Prod.mk.inj (Option.some.inj hc)
    have hnot : ¬Aligned d.removeVertex.2 := by
      intro haligned
      -- the counter has changed, and the number of vertices has not
      have hafter := (aligned_iff_card.mp haligned).1
      have hbefore := (aligned_iff_card.mp h.aligned).1
      simp only [removeVertex] at hafter
      rw [← hbefore] at hafter
      grind
    exact ⟨⟨fun haligned => hnot haligned, False.elim⟩, fun haligned => absurd haligned hnot⟩
  | addEdgeV2 a b w attempts => exact hkept (h.putEdge hids hc) trivial
  | addEdgeV3 a b w attempts =>
    obtain ⟨⟨r, d''⟩, hput, hret⟩ := Option.map_eq_some_iff.mp hc
    obtain ⟨-, rfl⟩ := Prod.mk.inj hret
    exact hkept (h.putEdge hids hput) trivial
  | updateEdgeV1 a b w attempts =>
    obtain ⟨⟨r, d''⟩, hput, hret⟩ := Option.map_eq_some_iff.mp hc
    obtain ⟨-, rfl⟩ := Prod.mk.inj hret
    exact hkept (h.putEdge hids hput) trivial
  | removeEdge a b attempts => exact hkept (h.removeEdge hc) trivial

/-- **The sequences of calls** along which the vertices are aligned: those without `remove_vertex`
in which every new vertex that is added is committed. -/
theorem aligned_iff (hids : Function.Injective ids) (isDirected : Bool) (calls : List (Call W)) :
    Along (GTXDriver.step ids) (fun _ _ _ d' => Aligned d') (GTXDriver.new W isDirected) calls ↔
      Along (GTXDriver.step ids) (fun (d : GTXDriver W) c _ _ => Aligns d c)
        (GTXDriver.new W isDirected) calls := by
  refine along_congr (I := VerticesInv ids) ?_ (verticesInv_new isDirected) calls
  intro d c result d' h hc
  exact h.step_iff hids hc

end Calls

end Vertices

/-- A vertex and an edge are added, with attempts that fail. -/
theorem aligned_addEdge :
    Along (GTXDriver.step id) (fun _ _ _ d' => Aligned d') (GTXDriver.new ℤ false)
      [.addVertex 10 [.rollback 1, .commit true],
        .addEdgeV2 10 20 7 [.commit false, .commit true]] := by
  refine (aligned_iff Function.injective_id false _).mpr ?_
  intro r d₁ h₁
  exact ⟨fun _ => rfl, fun r d₂ h₂ => ⟨trivial, trivial⟩⟩

/-- A vertex is removed, and one is added in a transaction that does not commit. -/
theorem not_aligned_remove :
    ¬Along (GTXDriver.step id) (fun _ _ _ d' => Aligned d') (GTXDriver.new ℤ false)
        [.addVertex 10 [.commit true], .removeVertex 10] ∧
      ¬Along (GTXDriver.step id) (fun _ _ _ d' => Aligned d') (GTXDriver.new ℤ false)
        [.addVertex 10 [.commit false]] := by
  constructor
  · intro h
    obtain ⟨d₁, h₁⟩ : ∃ d₁, GTXDriver.step id (GTXDriver.new ℤ false)
      (.addVertex 10 [.commit true]) = some (true, d₁) := ⟨_, rfl⟩
    obtain ⟨haligned, hrest⟩ := (along_cons h₁).mp h
    have hinv := ((verticesInv_new false).step_iff Function.injective_id h₁).2 haligned
    have h₂ : d₁.step id (.removeVertex 10) = some d₁.removeVertex := rfl
    obtain ⟨haligned', -⟩ := (along_cons h₂).mp hrest
    exact (hinv.step_iff Function.injective_id h₂).1.mp haligned'
  · intro h
    obtain ⟨d₁, h₁⟩ : ∃ d₁, GTXDriver.step id (GTXDriver.new ℤ false)
      (.addVertex 10 [.commit false]) = some (true, d₁) := ⟨_, rfl⟩
    obtain ⟨haligned, -⟩ := (along_cons h₁).mp h
    have hcommit := ((verticesInv_new false).step_iff Function.injective_id h₁).1.mp haligned rfl
    cases hcommit

end Gtx

end GfeDriver
