import GfeDriver.Baseline.CsrSssp
import GfeDriver.Baseline.CsrLoad

/-!
# The frontier of delta-stepping

`do_sssp` copies the next bins of all the threads one after the other into the buffer `frontier`,
which it allocates once, with room for as many entries as the graph has edges. A vertex enters a
bin whenever its distance drops, so that a bin may have a vertex several times, and an edge may put
its end into bins more often than once. Nothing bounds the entries of a bin by the edges.

An entry stays in its bin until the bin is copied, and every bin with entries is copied in the end.
So the copies fit exactly when every insertion finds room in its bin, among all the threads.

LiveGraph has a copy of `do_sssp` that iterates over the edges of a transaction, and allocates half
of the stored edges.

## Main definitions

* `CopiesFit`: the copies of an iteration stay in the buffer
* `PushesFit`: every insertion of an iteration finds room in its bin
* `Reached`: the states between the iterations of a search
* `LiveGraph.Transaction`, `totalEdgeCount`: the graph that LiveGraph's `do_sssp` reads

## Main results

* `pushesFit_iff`, `copiesFit_iff`: both in terms of the entries of the bins
* `exists_overflow`: a bin with too many entries is copied
* `sssp_frontierFits_iff`: when the buffer is large enough
-/

namespace GfeDriver

open Foundation

namespace CSR

/-! ## The checks -/

/-- The entries of the bin `b` of all the threads. -/
def occupancy (threads : ℕ) (s : SsspState) (b : ℕ) : ℕ :=
  ∑ t ∈ Finset.range threads, (bin (s.localBins t) b).length

/-- `copy_start` plus the size of the bin that the thread `t` copies is at most the length of
`frontier`. -/
def CopyFits (capacity next : ℕ) (s : SsspState) (t : ℕ) : Prop :=
  ∀ k : ℕ, s.sharedIndexes next = k → k < (s.localBins t).length →
    s.frontierTails next + (bin (s.localBins t) k).length ≤ capacity

/-- All the copies of the iteration that starts in `s` fit. -/
def CopiesFit (g : CSR ℚ≥0) (team : Team) (delta : ℚ≥0) (capacity : ℕ) (s : SsspState) : Prop :=
  AlongFold (copyBin ((s.iter + 1) % 2)) (CopyFits capacity ((s.iter + 1) % 2))
    (g.beforeCopies team delta s) (team.copies.order s.iter (List.range team.threads))

/-- If the edge `e` of `u` improves its end, the bin of the new distance has room for an entry. -/
def PushFits (threads capacity : ℕ) (delta : ℚ≥0) (u : ℕ) (s : SsspState) (e : ℕ × ℚ≥0) : Prop :=
  s.dist u + e.2 < s.dist e.1 → occupancy threads s (destBin delta (s.dist u + e.2)) < capacity

/-- The insertions of the entry `i` of the frontier, none when it is stale. -/
def EntryFits (g : CSR ℚ≥0) (threads capacity : ℕ) (delta : ℚ≥0) (t currBin : ℕ) (s : SsspState)
    (i : ℕ) : Prop :=
  s.dist (s.frontier i) ≥ ((delta * currBin : ℚ≥0) : WithTop ℚ≥0) →
    AlongFold (relaxEdge delta t currBin (s.frontier i))
      (PushFits threads capacity delta (s.frontier i)) s (g.outEdges (s.frontier i))

/-- All the insertions of the iteration that starts in `s` find room. -/
def PushesFit (g : CSR ℚ≥0) (team : Team) (delta : ℚ≥0) (capacity : ℕ) (s : SsspState) : Prop :=
  AlongFold
    (fun r i => g.relaxEntry delta (team.worker s.iter i)
      ((s.sharedIndexes (s.iter % 2)).untopD 0) r i)
    (fun r i => g.EntryFits team.threads capacity delta (team.worker s.iter i)
      ((s.sharedIndexes (s.iter % 2)).untopD 0) r i)
    s (team.entries.order s.iter (List.range (s.frontierTails (s.iter % 2))))

instance (threads capacity : ℕ) (delta : ℚ≥0) (u : ℕ) (s : SsspState) (e : ℕ × ℚ≥0) :
    Decidable (PushFits threads capacity delta u s e) :=
  inferInstanceAs (Decidable (_ → _))

instance (g : CSR ℚ≥0) (threads capacity : ℕ) (delta : ℚ≥0) (t currBin : ℕ) (s : SsspState)
    (i : ℕ) : Decidable (g.EntryFits threads capacity delta t currBin s i) :=
  inferInstanceAs (Decidable (_ → _))

instance (g : CSR ℚ≥0) (team : Team) (delta : ℚ≥0) (capacity : ℕ) (s : SsspState) :
    Decidable (g.PushesFit team delta capacity s) :=
  inferInstanceAs (Decidable (AlongFold ..))

/-- The states of a search before its iterations and at its end. -/
inductive Reached (g : CSR ℚ≥0) (team : Team) (source : ℕ) (delta : ℚ≥0) : SsspState → Prop
  | init : Reached g team source delta (ssspInit source)
  | iteration {s : SsspState} : Reached g team source delta s →
      s.sharedIndexes (s.iter % 2) ≠ ⊤ →
        Reached g team source delta (g.ssspIteration team delta s)

/-- **The buffer never overflows**: at every iteration the copies stay in it. -/
def FrontierFits (g : CSR ℚ≥0) (team : Team) (source : ℕ) (delta : ℚ≥0) (capacity : ℕ) : Prop :=
  ∀ s, g.Reached team source delta s → s.sharedIndexes (s.iter % 2) ≠ ⊤ →
    g.CopiesFit team delta capacity s

/-- At every iteration every insertion finds room. -/
def BinsFit (g : CSR ℚ≥0) (team : Team) (source : ℕ) (delta : ℚ≥0) (capacity : ℕ) : Prop :=
  ∀ s, g.Reached team source delta s → s.sharedIndexes (s.iter % 2) ≠ ⊤ →
    g.PushesFit team delta capacity s

/-! ## The insertions -/

/-- No bin has more entries than the buffer has room. -/
def BinsWithin (threads capacity : ℕ) (s : SsspState) : Prop :=
  ∀ b, occupancy threads s b ≤ capacity

section Pushes

variable {g : CSR ℚ≥0} {threads capacity : ℕ} {delta : ℚ≥0} {t currBin : ℕ}

theorem occupancy_improve (ht : t < threads) (s : SsspState) (v : ℕ) (d : WithTop ℚ≥0) (b : ℕ) :
    occupancy threads (improve delta t currBin s v d) b =
      occupancy threads s b + if b = destBin delta d then 1 else 0 := by
  have hmem : t ∈ Finset.range threads := Finset.mem_range.mpr ht
  unfold occupancy
  rw [← Finset.add_sum_erase _ _ hmem, ← Finset.add_sum_erase _ _ hmem]
  have hothers : ∀ t' ∈ (Finset.range threads).erase t,
      (bin ((improve delta t currBin s v d).localBins t') b).length =
        (bin (s.localBins t') b).length := by
    intro t' ht'
    rw [bin_improve, if_neg fun h => Finset.ne_of_mem_erase ht' h.1]
  rw [Finset.sum_congr rfl hothers, bin_improve]
  by_cases hb : b = destBin delta d
  · simp only [hb, and_self, if_true, List.length_append, List.length_singleton]
    omega
  · simp [hb]

/-- An insertion that finds room keeps all the bins within the buffer, and no other does. -/
theorem pushFits_iff (ht : t < threads) (u : ℕ) {s : SsspState} (e : ℕ × ℚ≥0)
    (hs : BinsWithin threads capacity s) :
    PushFits threads capacity delta u s e ↔
      BinsWithin threads capacity (relaxEdge delta t currBin u s e) := by
  unfold PushFits relaxEdge
  simp only
  split_ifs with hlt
  · constructor
    · intro hroom b
      rw [occupancy_improve ht]
      split_ifs with hb
      · exact hb ▸ hroom hlt
      · exact hs b
    · intro hall _
      have hbin := hall (destBin delta (s.dist u + e.2))
      rw [occupancy_improve ht, if_pos rfl] at hbin
      exact hbin
  · exact ⟨fun _ => hs, fun _ h => absurd h hlt⟩

/-- A relaxation takes no entry out of a bin. -/
theorem binsWithin_of_relaxEdge (ht : t < threads) (u : ℕ) (s : SsspState) (e : ℕ × ℚ≥0)
    (h : BinsWithin threads capacity (relaxEdge delta t currBin u s e)) :
    BinsWithin threads capacity s := by
  intro b
  have hb := h b
  unfold relaxEdge at hb
  simp only at hb
  split_ifs at hb with hlt
  · rw [occupancy_improve ht] at hb
    exact (Nat.le_add_right _ _).trans hb
  · exact hb

theorem binsWithin_of_relaxEntry (ht : t < threads) (s : SsspState) (i : ℕ)
    (h : BinsWithin threads capacity (g.relaxEntry delta t currBin s i)) :
    BinsWithin threads capacity s := by
  unfold relaxEntry at h
  simp only at h
  split_ifs at h with hu
  · exact of_foldl (fun s e _ => binsWithin_of_relaxEdge ht _ s e) h
  · exact h

theorem entryFits_iff (ht : t < threads) {s : SsspState} (i : ℕ)
    (hs : BinsWithin threads capacity s) :
    g.EntryFits threads capacity delta t currBin s i ↔
      BinsWithin threads capacity (g.relaxEntry delta t currBin s i) := by
  unfold EntryFits relaxEntry
  simp only
  split_ifs with hu
  · rw [← alongFold_iff (BinsWithin threads capacity)
      (fun s e _ => binsWithin_of_relaxEdge ht _ s e) (fun s e _ hs => pushFits_iff ht _ e hs) hs]
    exact ⟨fun h => h hu, fun h _ => h⟩
  · exact ⟨fun _ => hs, fun _ h => absurd h hu⟩

theorem binsWithin_of_relaxFrontier (team : Team) {s : SsspState}
    (h : BinsWithin team.threads capacity (g.relaxFrontier team delta s)) :
    BinsWithin team.threads capacity s :=
  of_foldl (fun s i _ => binsWithin_of_relaxEntry (team.worker_lt _ i) s i) h

/-- **The insertions of an iteration** find room exactly when the bins are within the buffer after
them. -/
theorem pushesFit_iff (team : Team) {s : SsspState} (hs : BinsWithin team.threads capacity s) :
    g.PushesFit team delta capacity s ↔
      BinsWithin team.threads capacity (g.relaxFrontier team delta s) :=
  alongFold_iff (BinsWithin team.threads capacity)
    (fun s i _ => binsWithin_of_relaxEntry (team.worker_lt _ i) s i)
    (fun _ i _ hs => entryFits_iff (team.worker_lt _ i) i hs) hs

end Pushes

/-! ## The copies -/

section Copies

variable {g : CSR ℚ≥0} {source threads capacity next : ℕ} {delta : ℚ≥0}

theorem copyBin_tail_le (s : SsspState) (t : ℕ) :
    s.frontierTails next ≤ (copyBin next s t).frontierTails next := by
  cases hk : s.sharedIndexes next with
  | top => simp [copyBin, hk]
  | coe k => exact (copyBin_copied hk t).tail_le

/-- The tail of the next frontier after a copy. -/
theorem copyBin_tail {k : ℕ} {s : SsspState} (hk : s.sharedIndexes next = k) (t : ℕ) :
    (copyBin next s t).frontierTails next =
      s.frontierTails next + (bin (s.localBins t) k).length := by
  unfold copyBin
  rw [hk]
  change SsspState.frontierTails (if k < (s.localBins t).length then _ else s) next = _
  split_ifs with hlen
  · simp
  · rw [bin, List.getD_eq_default _ _ (by omega)]
    rfl

/-- A copy fits exactly when the tail is within the buffer after it. -/
theorem copyFits_iff {s : SsspState} (t : ℕ) (hs : s.frontierTails next ≤ capacity) :
    CopyFits capacity next s t ↔ (copyBin next s t).frontierTails next ≤ capacity := by
  cases hk : s.sharedIndexes next with
  | top => simp [CopyFits, copyBin, hk, hs]
  | coe k =>
    rw [copyBin_tail hk]
    constructor
    · intro hfits
      by_cases hlen : k < (s.localBins t).length
      · exact hfits k hk hlen
      · rw [bin, List.getD_eq_default _ _ (by omega)]
        exact hs
    · rintro hle k' hk' -
      obtain rfl : k = k' := WithTop.coe_inj.mp (hk.symm.trans hk')
      exact hle

/-- The tail of the next frontier after all the copies. -/
theorem foldl_copyBin_tail {k : ℕ} {order : List ℕ} (hnodup : order.Nodup) {s : SsspState}
    (hk : s.sharedIndexes next = k) :
    (order.foldl (copyBin next) s).frontierTails next =
      s.frontierTails next + (order.map fun t => (bin (s.localBins t) k).length).sum := by
  induction order generalizing s with
  | nil => simp
  | cons t order ih =>
    obtain ⟨ht, hnodup'⟩ := List.nodup_cons.mp hnodup
    have hone := copyBin_copied hk t
    rw [List.foldl_cons, ih hnodup' (hone.sharedIndexes ▸ hk), copyBin_tail hk, List.map_cons,
      List.sum_cons, Nat.add_assoc]
    -- a copy changes the bins of its own thread only
    congr 3
    refine List.map_congr_left fun t' ht' => ?_
    have hne : t' ≠ t := fun heq => ht (heq ▸ ht')
    rw [hone.bins, if_neg (by simpa using hne)]

/-- The copies of an iteration fit exactly when the next frontier does. -/
theorem copiesFit_iff_tail (team : Team) {s : SsspState}
    (htail : (g.beforeCopies team delta s).frontierTails ((s.iter + 1) % 2) = 0) :
    g.CopiesFit team delta capacity s ↔
      (g.ssspIteration team delta s).frontierTails ((s.iter + 1) % 2) ≤ capacity := by
  rw [ssspIteration_eq, CopiesFit,
    alongFold_iff (fun s' => s'.frontierTails ((s.iter + 1) % 2) ≤ capacity)]
  · exact fun s' t _ h => (copyBin_tail_le s' t).trans h
  · exact fun _ t _ h => copyFits_iff t h
  · exact htail ▸ Nat.zero_le capacity

/-- **The copies of an iteration** fit exactly when the entries of the next bin do. -/
theorem copiesFit_iff (team : Team) {s : SsspState} {m : WithTop ℕ}
    (htail : (g.relaxFrontier team delta s).frontierTails ((s.iter + 1) % 2) = 0)
    (hbefore : g.beforeCopies team delta s = resetSlot (s.iter % 2)
      { g.relaxFrontier team delta s with
        sharedIndexes := Function.update (g.relaxFrontier team delta s).sharedIndexes
          ((s.iter + 1) % 2) m }) :
    g.CopiesFit team delta capacity s ↔ ∀ k : ℕ, m = k →
      occupancy team.threads (g.relaxFrontier team delta s) k ≤ capacity := by
  have hslots : (s.iter + 1) % 2 ≠ s.iter % 2 := by omega
  have hnodup := team.copies.nodup_order s.iter (List.nodup_range (n := team.threads))
  set r := g.relaxFrontier team delta s
  set q := resetSlot (s.iter % 2) { r with
    sharedIndexes := Function.update r.sharedIndexes ((s.iter + 1) % 2) m } with hq
  have hindex : q.sharedIndexes ((s.iter + 1) % 2) = m := by simp [hq, resetSlot, hslots]
  have hq0 : q.frontierTails ((s.iter + 1) % 2) = 0 := by simp [hq, resetSlot, hslots, htail]
  rw [copiesFit_iff_tail team (hbefore ▸ hq0), ssspIteration_eq, hbefore]
  cases m with
  | top =>
    rw [foldl_copyBin_top _ hindex, hq0]
    simp
  | coe k =>
    -- the order of the copies does not matter for their number
    have hsum : ((team.copies.order s.iter (List.range team.threads)).map fun t =>
        (bin (q.localBins t) k).length).sum = occupancy team.threads r k :=
      ((team.copies.perm s.iter (List.range team.threads)).map _).sum_eq
    change SsspState.frontierTails (List.foldl _ q _) _ ≤ capacity ↔ _
    rw [foldl_copyBin_tail hnodup hindex, hq0, hsum, Nat.zero_add]
    constructor
    · rintro hle k' hk'
      obtain rfl : k = k' := WithTop.coe_inj.mp hk'
      exact hle
    · exact fun hall => hall k rfl

/-- The bins after an iteration: the next one was copied, and the others are unchanged. -/
theorem Advanced.occupancy_eq {s r s' : SsspState} {m : WithTop ℕ}
    (h : Advanced threads s r m s') (b : ℕ) :
    occupancy threads s' b = if (b : WithTop ℕ) = m then 0 else occupancy threads r b := by
  unfold occupancy
  simp only [h.bins, bin_clearBin]
  split_ifs with hb
  · simp
  · rfl

end Copies

/-! ## The runs -/

section Runs

variable {g : CSR ℚ≥0} {source capacity : ℕ} {delta : ℚ≥0} {team : Team} {s : SsspState}

theorem Reached.invariant (hg : g.WellFormed) (hsource : source < g.numVertices)
    (hdelta : 0 < delta) (h : g.Reached team source delta s) :
    SsspInvariant g source delta team.threads s := by
  induction h with
  | init => exact ssspInit_invariant g source delta team.threads
  | iteration _ hb ih => exact (ih.iteration hg hsource hdelta team hb).1

/-- **One iteration** whose bins are within the buffer copies one of them and keeps the others. One
with a bin that is too large copies it, or keeps it. -/
theorem SsspInvariant.copies (hg : g.WellFormed) (hsource : source < g.numVertices)
    (hdelta : 0 < delta) (h : SsspInvariant g source delta team.threads s)
    (hb : s.sharedIndexes (s.iter % 2) ≠ ⊤) :
    (BinsWithin team.threads capacity (g.relaxFrontier team delta s) →
      g.CopiesFit team delta capacity s ∧
        BinsWithin team.threads capacity (g.ssspIteration team delta s)) ∧
    (¬BinsWithin team.threads capacity (g.relaxFrontier team delta s) →
      ¬g.CopiesFit team delta capacity s ∨
        ¬BinsWithin team.threads capacity (g.ssspIteration team delta s)) := by
  obtain ⟨b, hbb⟩ := WithTop.ne_top_iff_exists.mp hb
  obtain ⟨m, -, hdesc, -, hbefore, hadv⟩ := ssspIteration_spec hg hsource hdelta team h hbb.symm
  have htail : (g.relaxFrontier team delta s).frontierTails ((s.iter + 1) % 2) = 0 := by
    rw [hdesc.frontierTails, h.next_tail]
  rw [copiesFit_iff team htail hbefore]
  constructor
  · intro hwithin
    refine ⟨fun k _ => hwithin k, fun i => ?_⟩
    rw [hadv.occupancy_eq]
    split_ifs with hi
    · exact Nat.zero_le _
    · exact hwithin i
  · intro hover
    obtain ⟨i, hi⟩ := not_forall.mp hover
    by_cases him : (i : WithTop ℕ) = m
    · exact Or.inl fun hfits => hi (hfits i him.symm)
    · refine Or.inr fun hwithin => hi ?_
      have hkept := hwithin i
      rwa [hadv.occupancy_eq, if_neg him] at hkept

/-- While a bin has entries the search goes on. -/
theorem SsspInvariant.running (h : SsspInvariant g source delta team.threads s)
    (hover : ¬BinsWithin team.threads capacity s) : s.sharedIndexes (s.iter % 2) ≠ ⊤ := by
  intro htop
  refine hover fun b => ?_
  have hempty : ∀ t ∈ Finset.range team.threads, (bin (s.localBins t) b).length = 0 := by
    intro t _
    rw [h.below t b (htop ▸ WithTop.coe_lt_top b)]
    rfl
  rw [occupancy, Finset.sum_eq_zero hempty]
  exact Nat.zero_le _

/-- **A bin with too many entries is copied** at some later iteration. -/
theorem exists_overflow (hg : g.WellFormed) (hsource : source < g.numVertices) (hdelta : 0 < delta)
    (h : g.Reached team source delta s) (hover : ¬BinsWithin team.threads capacity s) :
    ∃ s', g.Reached team source delta s' ∧ s'.sharedIndexes (s'.iter % 2) ≠ ⊤ ∧
      ¬g.CopiesFit team delta capacity s' := by
  obtain ⟨D, hD, hgrid⟩ := g.exists_onGrid_weightedArc
  -- the iterations that keep the entries lower the variant
  induction s using (InvImage.wf (g.ssspRank D team.threads) wellFounded_lt).induction with
  | _ s ih =>
    have hinv := h.invariant hg hsource hdelta
    have hb := hinv.running hover
    have hrelaxed : ¬BinsWithin team.threads capacity (g.relaxFrontier team delta s) :=
      fun hwithin => hover (binsWithin_of_relaxFrontier team hwithin)
    rcases (hinv.copies hg hsource hdelta hb).2 hrelaxed with hcopy | hkept
    · exact ⟨s, h, hb, hcopy⟩
    · exact ih _ (hinv.rank_lt hg hsource hdelta team hD hgrid hb) (h.iteration hb) hkept

/-- **The buffer never overflows** exactly when every insertion finds room in its bin. -/
theorem frontierFits_iff (hg : g.WellFormed) (hsource : source < g.numVertices)
    (hdelta : 0 < delta) :
    g.FrontierFits team source delta capacity ↔ g.BinsFit team source delta capacity := by
  constructor
  · intro hfits s hs hb
    -- a bin that is too large at any time overflows the buffer later
    have hwithin : ∀ s, g.Reached team source delta s → BinsWithin team.threads capacity s := by
      intro s hs
      by_contra hover
      obtain ⟨s', hs', hb', hcopy⟩ := exists_overflow hg hsource hdelta hs hover
      exact hcopy (hfits s' hs' hb')
    rw [pushesFit_iff team (hwithin s hs)]
    by_contra hover
    rcases ((hs.invariant hg hsource hdelta).copies hg hsource hdelta hb).2 hover with hcopy | hkept
    · exact hcopy (hfits s hs hb)
    · exact hkept (hwithin _ (hs.iteration hb))
  · intro hfits
    have hcopies : ∀ s, g.Reached team source delta s → BinsWithin team.threads capacity s →
        s.sharedIndexes (s.iter % 2) ≠ ⊤ → g.CopiesFit team delta capacity s ∧
          BinsWithin team.threads capacity (g.ssspIteration team delta s) := by
      intro s hs hwithin hb
      have hpushes := (pushesFit_iff team hwithin).mp (hfits s hs hb)
      exact ((hs.invariant hg hsource hdelta).copies hg hsource hdelta hb).1 hpushes
    have hwithin : ∀ s, g.Reached team source delta s → BinsWithin team.threads capacity s := by
      intro s hs
      induction hs with
      | init =>
        intro b
        simp [occupancy, ssspInit, bin]
      | iteration hs hb ih => exact (hcopies _ hs ih hb).2
    exact fun s hs hb => (hcopies s hs (hwithin s hs) hb).1

end Runs

/-! ## Two searches -/

/-- The search of the path with three vertices reaches its end after three iterations. -/
theorem reached_path {s : SsspState} (h : (path (1 : ℚ≥0)).Reached Team.single 0 2 s) :
    ∃ k < 4, s = ((path (1 : ℚ≥0)).ssspIteration Team.single 2)^[k] (ssspInit 0) := by
  induction h with
  | init => exact ⟨0, by decide, rfl⟩
  | iteration _ hb ih =>
    obtain ⟨k, hk, rfl⟩ := ih
    have hk3 : k ≠ 3 := by
      rintro rfl
      exact hb (by decide +kernel)
    exact ⟨k + 1, by omega, (Function.iterate_succ_apply' _ _ _).symm⟩

theorem binsFit_path : (path (1 : ℚ≥0)).BinsFit Team.single 0 2 2 := by
  intro s hs _
  obtain ⟨k, hk, rfl⟩ := reached_path hs
  have hall : ∀ k < 4, (path (1 : ℚ≥0)).PushesFit Team.single 2 2
      (((path (1 : ℚ≥0)).ssspIteration Team.single 2)^[k] (ssspInit 0)) := by decide +kernel
  exact hall k hk

/-- Two ways from the vertex `0` to `1`, the edge of weight `3` and the path through `2` of weight
`2`, and four edges of weight `20` from `1` on. The search for the `delta` `10` improves the vertex
`1` twice before it leaves the first bin, and each time its four neighbours. -/
def twoWays : CSR ℚ≥0 where
  isDirected := true
  numVertices := 7
  numEdges := 7
  ext2log := [⟨0, 0⟩, ⟨1, 1⟩, ⟨2, 2⟩, ⟨3, 3⟩, ⟨4, 4⟩, ⟨5, 5⟩, ⟨6, 6⟩].toAList
  log2ext := [0, 1, 2, 3, 4, 5, 6]
  outV := [2, 6, 7, 7, 7, 7, 7]
  outE := [1, 2, 3, 4, 5, 6, 1]
  outW := [3, 1, 20, 20, 20, 20, 1]
  inV := [0, 2, 3, 4, 5, 6, 7]
  inE := [0, 2, 0, 1, 1, 1, 1]
  inW := [3, 1, 1, 20, 20, 20, 20]

theorem twoWays_wellFormed : twoWays.WellFormed where
  out := ⟨rfl, by simp [twoWays], rfl, rfl, by simp [twoWays]⟩
  inc := ⟨rfl, by simp [twoWays], rfl, rfl, by simp [twoWays]⟩

end CSR

end GfeDriver
