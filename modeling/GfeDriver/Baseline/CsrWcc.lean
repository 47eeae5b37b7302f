import GfeDriver.Foundation.Components
import GfeDriver.Foundation.Loop
import GfeDriver.Foundation.Schedule
import GfeDriver.Baseline.Csr

/-!
# Weakly connected components by hooking and pointer jumping

`do_wcc` keeps a forest in the table `comp`: a vertex that is its own component is a root. A pass
hooks, for each edge between two components, the root with the larger identifier under the smaller
component, and then makes every vertex point to the root of its tree. Both halves read the table
they are writing to, so what they find depends on the order of the vertices; the forest is all that
carries over, and a pass that hooks nothing has seen the table of the previous one.

## Main definitions

* `hook`, `hookPass`: the first half of a pass
* `shortcut`, `compress`: the second half
* `doWcc`: the algorithm

## Main results

* `Forest.hookPass`: what a hooking pass does, and what it means when it changes nothing
* `Forest.compress`: every vertex ends up next to its root
* `doWcc_spec`: termination and components
-/

namespace GfeDriver

open Foundation

namespace CSR

variable {W : Type}

/-! ## The algorithm -/

/-- The table and the flag of the hooking loop. -/
structure WccState where
  comp : ℕ → ℕ
  change : Bool
  ticks : ℕ

/-- The body of the hooking loop, for the edge from `u` to `v`. -/
def hook (u : ℕ) (s : WccState) (v : ℕ) : WccState :=
  let compU := s.comp u
  let compV := s.comp v
  if compU = compV then s
  else
    let highComp := max compU compV
    let lowComp := min compU compV
    if highComp = s.comp highComp then
      { s with comp := Function.update s.comp highComp lowComp, change := true }
    else s

/-- The hooking loop, for the vertices in the order `order`. -/
def hookPass (g : CSR W) (order : List ℕ) (s : WccState) : WccState :=
  order.foldl (fun s u => (indices (g.getOutInterval u)).foldl
    (fun s i => hook u s (g.outE.getD i 0)) s) s

/-- `while (comp[n] != comp[comp[n]]) comp[n] = comp[comp[n]]`. -/
def shortcut (fuel : ℕ) (comp : ℕ → ℕ) (n : ℕ) : Option (ℕ → ℕ) :=
  whileLoop (fun comp => comp n ≠ comp (comp n))
    (fun comp => some (Function.update comp n (comp (comp n)))) fuel comp

/-- The pointer-jumping loop, for the vertices in the order `order`. -/
def compress (fuel : ℕ) (order : List ℕ) (comp : ℕ → ℕ) : Option (ℕ → ℕ) :=
  order.foldlM (shortcut fuel) comp

/-- The body of the `while` loop of `do_wcc`. -/
def wccPass (g : CSR W) (sched : Schedule ℕ) (fuel : ℕ) (s : WccState) : Option WccState := do
  let hooked := g.hookPass (sched.order s.ticks (List.range g.numVertices))
    { s with change := false }
  let comp ← compress fuel (sched.order (s.ticks + 1) (List.range g.numVertices)) hooked.comp
  some { hooked with comp := comp, ticks := s.ticks + 2 }

/-- `CSR::do_wcc`, when no timeout fires. -/
def doWcc (g : CSR W) (sched : Schedule ℕ) (fuel : ℕ) : Option WccState :=
  whileLoop WccState.change (g.wccPass sched fuel) fuel ⟨fun n => n, true, 0⟩

/-! ## The forest -/

/-- The table is a forest inside the components: parents are never above their children. -/
structure Forest (g : CSR W) (comp : ℕ → ℕ) : Prop where
  le : ∀ n, comp n ≤ n
  connected : ∀ n, Connected g.Arc (comp n) n

/-- Every vertex points to a root. -/
def Star (g : CSR W) (comp : ℕ → ℕ) : Prop := ∀ n < g.numVertices, comp (comp n) = comp n

/-- The number of roots among the vertices. -/
def roots (g : CSR W) (comp : ℕ → ℕ) : ℕ :=
  ((Finset.range g.numVertices).filter fun n => comp n = n).card

section Hooking

variable {g : CSR W}

theorem roots_le {comp comp' : ℕ → ℕ} (h : ∀ n, comp' n = n → comp n = n) :
    g.roots comp' ≤ g.roots comp := by
  refine Finset.card_le_card fun n hn => ?_
  simp only [Finset.mem_filter] at hn ⊢
  exact ⟨hn.1, h n hn.2⟩

theorem roots_lt {comp comp' : ℕ → ℕ} (h : ∀ n, comp' n = n → comp n = n) {r : ℕ}
    (hr : r < g.numVertices) (hroot : comp r = r) (hnot : comp' r ≠ r) :
    g.roots comp' < g.roots comp := by
  refine Finset.card_lt_card ((Finset.ssubset_iff_of_subset fun n hn => ?_).mpr ⟨r, ?_, ?_⟩)
  · simp only [Finset.mem_filter] at hn ⊢
    exact ⟨hn.1, h n hn.2⟩
  · simp [hr, hroot]
  · simp [hnot]

/-- What a part of a hooking pass that started in `s` has done when it reaches `s'`: it changed
nothing, or it took a root away and raised the flag. -/
structure Hooked (g : CSR W) (s s' : WccState) : Prop where
  forest : Forest g s'.comp
  roots : ∀ n, s'.comp n = n → s.comp n = n
  ticks : s'.ticks = s.ticks
  cases : s' = s ∨ s'.change = true ∧ ∃ r < g.numVertices, s.comp r = r ∧ s'.comp r ≠ r

theorem Hooked.trans {s₁ s₂ s₃ : WccState} (h : Hooked g s₁ s₂) (h' : Hooked g s₂ s₃) :
    Hooked g s₁ s₃ := by
  refine ⟨h'.forest, fun n hn => h.roots n (h'.roots n hn), h'.ticks.trans h.ticks, ?_⟩
  rcases h'.cases with rfl | ⟨hchange', r, hr, hroot, hnot⟩
  · exact h.cases
  · exact Or.inr ⟨hchange', r, hr, h.roots r hroot, hnot⟩

/-- **One edge.** When nothing changes, its endpoints have the same component, or the larger of
the two components is not a root. -/
theorem hook_spec (hg : g.WellFormed) {s : WccState} (h : Forest g s.comp) {u v : ℕ}
    (harc : g.Arc u v) :
    Hooked g s (hook u s v) ∧ (hook u s v = s → s.comp u = s.comp v ∨
      s.comp (max (s.comp u) (s.comp v)) ≠ max (s.comp u) (s.comp v)) := by
  unfold hook
  simp only
  split_ifs with heq hroot
  · exact ⟨⟨h, fun _ hn => hn, rfl, Or.inl rfl⟩, fun _ => Or.inl heq⟩
  · -- the larger component is a root, and loses this status
    have hlt : min (s.comp u) (s.comp v) < max (s.comp u) (s.comp v) :=
      min_lt_max.mpr heq
    have hjoin : Connected g.Arc (s.comp u) (s.comp v) :=
      ((h.connected u).trans (.of_rel harc)).trans (h.connected v).symm
    have hmax : max (s.comp u) (s.comp v) < g.numVertices := by
      have := h.le u
      have := h.le v
      have := harc.1
      have := hg.arc_lt harc
      omega
    refine ⟨⟨⟨fun n => ?_, fun n => ?_⟩, fun n hn => ?_, rfl,
      Or.inr ⟨rfl, _, hmax, hroot.symm, ?_⟩⟩, fun hsame => ?_⟩
    · by_cases hn : n = max (s.comp u) (s.comp v)
      · simp only [hn, Function.update_self]
        exact hlt.le
      · simp only [Function.update_of_ne hn]
        exact h.le n
    · by_cases hn : n = max (s.comp u) (s.comp v)
      · simp only [hn, Function.update_self]
        rcases le_total (s.comp u) (s.comp v) with hle | hle
        · rw [min_eq_left hle, max_eq_right hle]
          exact hjoin
        · rw [min_eq_right hle, max_eq_left hle]
          exact hjoin.symm
      · simp only [Function.update_of_ne hn]
        exact h.connected n
    · by_cases hn' : n = max (s.comp u) (s.comp v)
      · simp only [hn', Function.update_self] at hn
        exact absurd hn hlt.ne
      · simpa only [Function.update_of_ne hn'] using hn
    · simp only [Function.update_self]
      exact hlt.ne
    · have hcomp := congrFun (congrArg WccState.comp hsame) (max (s.comp u) (s.comp v))
      simp only [Function.update_self, ← hroot] at hcomp
      exact absurd hcomp hlt.ne
  · exact ⟨⟨h, fun _ hn => hn, rfl, Or.inl rfl⟩, fun _ => Or.inr (Ne.symm hroot)⟩

/-- The edges that a hooking pass visits, in this order. -/
def passEdges (g : CSR W) (order : List ℕ) : List (ℕ × ℕ) :=
  order.flatMap fun u => (g.outNeighbours u).map fun v => (u, v)

theorem hookPass_eq (order : List ℕ) (s : WccState) :
    g.hookPass order s = (g.passEdges order).foldl (fun s e => hook e.1 s e.2) s := by
  simp only [hookPass, passEdges, outNeighbours, List.foldl_flatMap, List.foldl_map]

theorem mem_passEdges {order : List ℕ} (horder : order.Perm (List.range g.numVertices)) {u v : ℕ} :
    (u, v) ∈ g.passEdges order ↔ g.Arc u v := by
  simp only [passEdges, List.mem_flatMap, List.mem_map, Prod.mk.injEq, horder.mem_iff,
    List.mem_range, Arc]
  constructor
  · rintro ⟨u', hu', v', hv', rfl, rfl⟩
    exact ⟨hu', hv'⟩
  · rintro ⟨hu, hv⟩
    exact ⟨u, hu, v, hv, rfl, rfl⟩

theorem foldl_hook (hg : g.WellFormed) (es : List (ℕ × ℕ)) (hes : ∀ e ∈ es, g.Arc e.1 e.2)
    {s : WccState} (h : Forest g s.comp) :
    Hooked g s (es.foldl (fun s e => hook e.1 s e.2) s) ∧
      (es.foldl (fun s e => hook e.1 s e.2) s = s → ∀ e ∈ es, s.comp e.1 = s.comp e.2 ∨
        s.comp (max (s.comp e.1) (s.comp e.2)) ≠ max (s.comp e.1) (s.comp e.2)) := by
  induction es generalizing s with
  | nil => exact ⟨⟨h, fun _ hn => hn, rfl, Or.inl rfl⟩, fun _ => by simp⟩
  | cons e es ih =>
    obtain ⟨hone, hsame⟩ := hook_spec hg h (hes e (by simp))
    obtain ⟨hrest, hsame'⟩ := ih (fun e he => hes e (List.mem_cons_of_mem _ he)) hone.forest
    rw [List.foldl_cons]
    refine ⟨hone.trans hrest, fun heq e' he' => ?_⟩
    -- a root taken away by the first edge does not come back
    have hfirst : hook e.1 s e.2 = s := by
      rcases hone.cases with hfirst | ⟨-, r, -, hroot, hnot⟩
      · exact hfirst
      · refine absurd (hrest.roots r ?_) hnot
        rw [heq]
        exact hroot
    rcases List.mem_cons.mp he' with rfl | he'
    · exact hsame hfirst
    · rw [hfirst] at hsame' heq
      exact hsame' heq e' he'

/-- **A hooking pass** over a star keeps the forest; when it changes nothing, no edge joins two
components. -/
theorem Forest.hookPass (hg : g.WellFormed) {s : WccState} (h : Forest g s.comp)
    (hstar : Star g s.comp) {order : List ℕ} (horder : order.Perm (List.range g.numVertices)) :
    Hooked g s (g.hookPass order s) ∧
      (g.hookPass order s = s → ∀ u v, g.Arc u v → s.comp u = s.comp v) := by
  have hmem : ∀ e ∈ g.passEdges order, g.Arc e.1 e.2 := fun e he => (mem_passEdges horder).mp he
  obtain ⟨hhooked, hsame⟩ := foldl_hook hg (g.passEdges order) hmem h
  rw [hookPass_eq]
  refine ⟨hhooked, fun heq u v harc => ?_⟩
  rcases hsame heq (u, v) ((mem_passEdges horder).mpr harc) with hcomp | hnot
  · exact hcomp
  · -- both components are roots, so is the larger one
    refine absurd ?_ hnot
    rcases le_total (s.comp u) (s.comp v) with hle | hle
    · simp only [max_eq_right hle]
      exact hstar v (hg.arc_lt harc)
    · simp only [max_eq_left hle]
      exact hstar u harc.1

end Hooking

/-! ## Pointer jumping -/

section Jumping

variable {g : CSR W}

/-- **Pointer jumping at one vertex** ends, and moves the vertex to its root. -/
theorem Forest.shortcut {comp : ℕ → ℕ} (h : Forest g comp) (n : ℕ) {fuel : ℕ} (hfuel : n < fuel) :
    ∃ comp', CSR.shortcut fuel comp n = some comp' ∧ Forest g comp' ∧
      (∀ m, m ≠ n → comp' m = comp m) ∧ (comp' n = n ↔ comp n = n) ∧
      comp' (comp' n) = comp' n := by
  -- the parent of `n` decreases, and no other does; `n` stays a root if it was one
  let I : (ℕ → ℕ) → Prop := fun c =>
    Forest g c ∧ (∀ m, m ≠ n → c m = comp m) ∧ (c n = n ↔ comp n = n)
  have hstep : ∀ c, I c → decide (c n ≠ c (c n)) = true →
      ∃ c', some (Function.update c n (c (c n))) = some c' ∧ I c' ∧ c' n < c n := by
    rintro c ⟨hc, hother, hroot⟩ hcond
    have hne : c n ≠ c (c n) := by simpa using hcond
    have hlt : c (c n) < c n := lt_of_le_of_ne (hc.le (c n)) hne.symm
    have hle : c n ≤ n := hc.le n
    have hnot : c n ≠ n := fun heq => hne (by rw [heq, heq])
    refine ⟨_, rfl, ⟨⟨fun m => ?_, fun m => ?_⟩, fun m hm => ?_, ?_⟩, by simpa using hlt⟩
    · by_cases hm : m = n
      · subst hm
        rw [Function.update_self]
        omega
      · rw [Function.update_of_ne hm]
        exact hc.le m
    · by_cases hm : m = n
      · subst hm
        rw [Function.update_self]
        exact (hc.connected (c m)).trans (hc.connected m)
      · rw [Function.update_of_ne hm]
        exact hc.connected m
    · rw [Function.update_of_ne hm]
      exact hother m hm
    · rw [Function.update_self, ← hroot]
      omega
  have hle := h.le n
  obtain ⟨c, hrun, ⟨hc, hother, hroot⟩, hcond⟩ := whileLoop_total I (fun c => c n) hstep fuel comp
    ⟨h, fun _ _ => rfl, Iff.rfl⟩ (by omega)
  have heq : c n = c (c n) := by simpa using hcond
  exact ⟨c, hrun, hc, hother, hroot, heq.symm⟩

/-- **Pointer jumping** ends with a star that has the same roots. -/
theorem Forest.compress {comp : ℕ → ℕ} (h : Forest g comp) {order : List ℕ}
    (horder : order.Perm (List.range g.numVertices)) {fuel : ℕ} (hfuel : g.numVertices < fuel) :
    ∃ comp', CSR.compress fuel order comp = some comp' ∧ Forest g comp' ∧ Star g comp' ∧
      ∀ n, comp' n = n ↔ comp n = n := by
  let P : List ℕ → (ℕ → ℕ) → Prop := fun done c =>
    Forest g c ∧ (∀ n, c n = n ↔ comp n = n) ∧ ∀ n ∈ done, c (c n) = c n
  have hstep : ∀ done x rest c, order = done ++ x :: rest → P done c →
      ∃ c', CSR.shortcut fuel c x = some c' ∧ P (done ++ [x]) c' := by
    rintro done x rest c horder' ⟨hc, hroots, hdone⟩
    have hx : x < g.numVertices := by
      rw [← List.mem_range, ← horder.mem_iff, horder']
      simp
    obtain ⟨c', hrun, hc', hother, hroot, hstar⟩ := hc.shortcut x (by omega : x < fuel)
    have hroots' : ∀ n, c' n = n ↔ c n = n := by
      intro n
      by_cases hn : n = x
      · rw [hn]
        exact hroot
      · rw [hother n hn]
    refine ⟨c', hrun, hc', fun n => (hroots' n).trans (hroots n), fun n hn => ?_⟩
    by_cases hnx : n = x
    · rw [hnx]
      exact hstar
    · -- a vertex done before points to a root, which is still one
      rcases List.mem_append.mp hn with hn | hn
      · rw [hother n hnx]
        exact (hroots' _).mpr (hdone n hn)
      · exact absurd (List.mem_singleton.mp hn) hnx
  obtain ⟨c, hrun, hc, hroots, hdone⟩ := foldlM_prefix P ⟨h, fun _ => Iff.rfl, by simp⟩ hstep
  exact ⟨c, hrun, hc, fun n hn => hdone n (horder.mem_iff.mpr (List.mem_range.mpr hn)), hroots⟩

/-- Pointer jumping leaves a star as it is. -/
theorem compress_of_star {comp : ℕ → ℕ} (hstar : Star g comp) {fuel : ℕ} (hfuel : 0 < fuel)
    (order : List ℕ) (horder : ∀ n ∈ order, n < g.numVertices) :
    CSR.compress fuel order comp = some comp := by
  obtain ⟨fuel, rfl⟩ : ∃ k, fuel = k + 1 := ⟨fuel - 1, by omega⟩
  induction order with
  | nil => rfl
  | cons n order ih =>
    have hn : CSR.shortcut (fuel + 1) comp n = some comp :=
      whileLoop_of_not (by simp [hstar n (horder n (by simp))]) fuel
    have hrest := ih fun m hm => horder m (List.mem_cons_of_mem _ hm)
    simp only [CSR.compress] at hrest ⊢
    rw [List.foldlM_cons, hn]
    exact hrest

end Jumping

/-! ## Correctness -/

/-- The table between two passes. Once the flag is down, no edge joins two components. -/
structure WccInvariant (g : CSR W) (s : WccState) : Prop where
  forest : Forest g s.comp
  star : Star g s.comp
  stable : s.change = false → ∀ u v, g.Arc u v → s.comp u = s.comp v

/-- The number of passes left at most. -/
def wccVariant (g : CSR W) (s : WccState) : ℕ := g.roots s.comp + if s.change then 1 else 0

/-- **One pass** takes a root away, or is the last one. -/
theorem WccInvariant.pass {g : CSR W} (hg : g.WellFormed) (sched : Schedule ℕ) {fuel : ℕ}
    (hfuel : g.numVertices < fuel) {s : WccState} (h : WccInvariant g s)
    (hchange : s.change = true) :
    ∃ s', g.wccPass sched fuel s = some s' ∧ WccInvariant g s' ∧
      g.wccVariant s' < g.wccVariant s := by
  obtain ⟨hhooked, hsame⟩ := h.forest.hookPass (s := { s with change := false }) hg h.star
    (sched.perm s.ticks (List.range g.numVertices))
  set r := g.hookPass (sched.order s.ticks (List.range g.numVertices)) { s with change := false }
  obtain ⟨comp, hcompress, hforest, hstar, hroots⟩ :=
    hhooked.forest.compress (sched.perm (s.ticks + 1) (List.range g.numVertices)) hfuel
  refine ⟨{ r with comp := comp, ticks := s.ticks + 2 }, by simp [wccPass, r, hcompress],
    ⟨hforest, hstar, fun hdown u v harc => ?_⟩, ?_⟩
  · -- nothing was hooked, so the table is the one of the previous pass
    have hr : r = { s with change := false } := by
      rcases hhooked.cases with heq | ⟨hup, -⟩
      · exact heq
      · exact absurd hdown (by simp [hup])
    have hcomp : comp = s.comp := by
      rw [hr, compress_of_star h.star (by omega) _ fun n hn => by simpa using hn] at hcompress
      exact (Option.some.inj hcompress).symm
    rw [hcomp]
    exact hsame hr u v harc
  · simp only [wccVariant, hchange, if_true]
    rcases hhooked.cases with heq | ⟨hup, root, hroot, hwas, hnot⟩
    · have hdown : r.change = false := by rw [heq]
      have hle : g.roots comp ≤ g.roots s.comp :=
        roots_le fun n hn => hhooked.roots n ((hroots n).mp hn)
      simp only [hdown, Bool.false_eq_true, if_false]
      omega
    · have hlt : g.roots comp < g.roots s.comp :=
        roots_lt (fun n hn => hhooked.roots n ((hroots n).mp hn)) hroot hwas
          (fun hc => hnot ((hroots root).mp hc))
      simp only [hup, if_true]
      omega

/-- **Weakly connected components.** For every schedule both loops end; two vertices have the same
component exactly when they are connected, and a component is named after its least vertex. -/
theorem doWcc_spec {g : CSR W} (hg : g.WellFormed) (sched : Schedule ℕ) {fuel : ℕ}
    (hfuel : g.numVertices + 1 < fuel) :
    ∃ s, g.doWcc sched fuel = some s ∧
      (∀ u v, s.comp u = s.comp v ↔ Connected g.Arc u v) ∧
      ∀ v, IsLeast { u | Connected g.Arc u v } (s.comp v) := by
  have hinit : WccInvariant g ⟨fun n => n, true, 0⟩ :=
    ⟨⟨fun n => le_refl n, fun n => .refl n⟩, fun _ _ => rfl, fun hc => by simp at hc⟩
  have hvar : g.wccVariant ⟨fun n => n, true, 0⟩ < fuel := by
    have hroots : g.roots (fun n => n) ≤ g.numVertices :=
      (Finset.card_filter_le _ _).trans (Finset.card_range _).le
    simp only [wccVariant, if_true]
    omega
  have hstep : ∀ s, WccInvariant g s → s.change = true →
      ∃ s', g.wccPass sched fuel s = some s' ∧ WccInvariant g s' ∧
        g.wccVariant s' < g.wccVariant s :=
    fun s hs hc => hs.pass hg sched (by omega) hc
  obtain ⟨s, hrun, hs, hdown⟩ :=
    whileLoop_total (WccInvariant g) g.wccVariant hstep fuel _ hinit hvar
  -- without a change every arc has equal ends
  have hstable := hs.stable hdown
  exact ⟨s, hrun,
    fun u v => connected_iff_of_stable hstable (hs.forest.connected u) (hs.forest.connected v),
    fun v => isLeast_of_stable hstable (hs.forest.connected v) fun u _ => hs.forest.le u⟩

end CSR

end GfeDriver
