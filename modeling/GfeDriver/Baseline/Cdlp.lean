import GfeDriver.Foundation.LabelPropagation
import GfeDriver.Baseline.Load

/-!
# Community detection by label propagation

Both kernels repeat: build a histogram of the labels of the neighbours of each vertex, select its
most frequent label, the least one among equals, and stop after `max_iterations` or when no label
changed. They scan a hash table, whose order they do not choose, with differently written tests.
`do_cdlp` alternates between two buffers and returns the one its pointer ends on.

Both loops compute the iterates of the synchronous step on the neighbours that their library holds,
and these are the neighbours of a vertex in the stream.

The flag `change` is updated as if each iteration of the parallel loop were atomic. The counter of
the adjacency list wraps around, so its loop does not end by itself for `max_iterations = 2^64 - 1`.

## Main definitions

* `CSR.doCdlp`, `AdjacencyList.cdlp`: the two kernels
* `neighbours`, `cdlpSpec`: the specification on a stream

## Main results

* `CSR.cdlpLabel_eq`, `AdjacencyList.cdlpLabel_eq`: the scans select the same label
* `CSR.doCdlp_of_label`, `AdjacencyList.cdlp_spec`: the loops of the two kernels
* `CSR.cdlpNeighbours_perm`, `AdjacencyList.cdlpNeighbours_perm`: the neighbours of a vertex
-/

namespace GfeDriver

open Foundation

/-! ## Histograms -/

/-- `histogram[label]++`. -/
def addLabel (histogram : AList fun _ : ℕ => ℕ) (label : ℕ) : AList fun _ : ℕ => ℕ :=
  histogram.insert label ((histogram.lookup label).getD 0 + 1)

/-- The histogram of a list of labels. -/
def histogram (labels : List ℕ) : AList fun _ : ℕ => ℕ := labels.foldl addLabel ∅

theorem lookup_histogram (labels : List ℕ) (x : ℕ) :
    (histogram labels).lookup x = if x ∈ labels then some (labels.count x) else none := by
  let P : List ℕ → (AList fun _ : ℕ => ℕ) → Prop := fun done h =>
    ∀ x, h.lookup x = if x ∈ done then some (done.count x) else none
  have hend : P labels (histogram labels) := by
    apply foldl_prefix P
    · intro x
      simp
    · intro done y rest h _ hh x
      -- `operator[]` starts from zero
      by_cases hxy : x = y
      · subst hxy
        have hmem : x ∈ done ++ [x] := by simp
        rw [addLabel, AList.lookup_insert, hh x, if_pos hmem, List.count_append]
        by_cases hx : x ∈ done
        · simp [hx]
        · simp [hx, List.count_eq_zero_of_not_mem hx]
      · rw [addLabel, AList.lookup_insert_ne hxy, hh x, List.count_append]
        simp [hxy, Ne.symm hxy]
  exact hend x

theorem mem_keys_histogram (labels : List ℕ) (x : ℕ) :
    x ∈ (histogram labels).keys ↔ x ∈ labels := by
  rw [← AList.mem_keys, ← AList.lookup_isSome, lookup_histogram]
  split_ifs with hx
  · simp [hx]
  · simp [hx]

/-- **A scan of a histogram** that compares entries like `selectBest`, in any order. -/
theorem foldl_keys_eq_leastMode {l : List ℕ} (hl : l ≠ []) (hash : Schedule ℕ) (t : ℕ)
    {step : ℕ × ℕ → ℕ → ℕ × ℕ} {init : ℕ × ℕ}
    (hstep : ∀ best, ∀ x ∈ l, step best x = selectBest best (x, l.count x))
    (hinit : init.2 = 0) :
    ((hash.order t (histogram l).keys).foldl step init).1 = leastMode l := by
  have hkeys : ∀ x, x ∈ hash.order t (histogram l).keys ↔ x ∈ l := by
    intro x
    rw [hash.mem_order, mem_keys_histogram]
  -- the keys are the labels that occur, whatever their order in the hash table
  have hscan : (hash.order t (histogram l).keys).foldl step init =
      (hash.order t (histogram l).keys).foldl (fun best x => selectBest best (x, l.count x)) init :=
    List.foldl_ext _ _ init fun best x hx => hstep best x ((hkeys x).mp hx)
  rw [hscan]
  exact (isLeastMode_foldl_selectBest hl hkeys hinit).unique (isLeastMode_leastMode hl)

/-! ## The kernel of the compressed sparse rows -/

namespace CSR

variable {W : Type}

/-- The scan of the histogram. -/
def selectLabel (keys : List ℕ) (histogram : AList fun _ : ℕ => ℕ) : ℕ :=
  (keys.foldl (fun (best : ℕ × ℕ) label =>
    let count := (histogram.lookup label).getD 0
    if count > best.2 ∨ (count = best.2 ∧ label < best.1) then (label, count) else best)
    (2 ^ 63 - 1, 0)).1

/-- The neighbours whose labels are counted. -/
def cdlpNeighbours (g : CSR W) (v : ℕ) : List ℕ :=
  g.outNeighbours v ++ if g.isDirected then g.inNeighbours v else []

/-- The new label of `v`, for an iteration order of its hash table. -/
def cdlpLabel (g : CSR W) (hash : Schedule ℕ) (labels0 : ℕ → ℕ) (v : ℕ) : ℕ :=
  let histogram := histogram ((g.cdlpNeighbours v).map labels0)
  selectLabel (hash.order v histogram.keys) histogram

/-- The body of the parallel loop, on `labels1` and `change`. -/
def cdlpVertex (g : CSR W) (hash : Schedule ℕ) (labels0 : ℕ → ℕ) (acc : (ℕ → ℕ) × Bool) (v : ℕ) :
    (ℕ → ℕ) × Bool :=
  let labels1 := Function.update acc.1 v (g.cdlpLabel hash labels0 v)
  (labels1, acc.2 || labels0 v != labels1 v)

/-- The two buffers, whether `labels0` points to the second one, the flag and the counter. -/
structure CdlpState where
  buffer0 : ℕ → ℕ
  buffer1 : ℕ → ℕ
  swapped : Bool
  change : Bool
  currentIteration : ℕ

/-- `labels0`. -/
def CdlpState.labels0 (s : CdlpState) : ℕ → ℕ := if s.swapped then s.buffer1 else s.buffer0

/-- `labels1`. -/
def CdlpState.labels1 (s : CdlpState) : ℕ → ℕ := if s.swapped then s.buffer0 else s.buffer1

/-- The body of the loop of `do_cdlp`: `labels1` is filled, then the pointers are swapped. -/
def cdlpPass (g : CSR W) (sched : Schedule ℕ) (hash : ℕ → Schedule ℕ) (s : CdlpState) : CdlpState :=
  let r := (sched.order s.currentIteration (List.range g.numVertices)).foldl
    (g.cdlpVertex (hash s.currentIteration) s.labels0) (s.labels1, false)
  { buffer0 := if s.swapped then r.1 else s.buffer0
    buffer1 := if s.swapped then s.buffer1 else r.1
    swapped := !s.swapped
    change := r.2
    currentIteration := s.currentIteration + 1 }

/-- `CSR::do_cdlp`, when no timeout fires. The second buffer starts with arbitrary contents. -/
def doCdlp (g : CSR W) (sched : Schedule ℕ) (hash : ℕ → Schedule ℕ) (fresh : ℕ → ℕ)
    (maxIterations fuel : ℕ) : Option (ℕ → ℕ) := do
  let s ← whileLoop (fun s => s.currentIteration < maxIterations && s.change)
    (fun s => some (g.cdlpPass sched hash s)) fuel ⟨g.ext, fresh, false, true, 0⟩
  return if s.swapped then s.buffer1 else s.buffer0

end CSR

/-! ## The kernel of the adjacency list -/

namespace AdjacencyList

variable {W : Type}

/-- The scan of the histogram. -/
def selectLabel (keys : List ℕ) (histogram : AList fun _ : ℕ => ℕ) : ℕ :=
  (keys.foldl (fun (best : ℕ × ℕ) label =>
    let count := (histogram.lookup label).getD 0
    if count > best.2 then (label, count)
    else if count = best.2 ∧ label < best.1 then (label, best.2)
    else best) (0, 0)).1

/-- The neighbours whose labels are counted. -/
def cdlpNeighbours (a : AdjacencyList W) (v : ℕ) : List ℕ :=
  (a.outgoing v).targets ++ (a.incoming v).targets

/-- The new label of `v`, for an iteration order of its hash table. -/
def cdlpLabel (a : AdjacencyList W) (hash : Schedule ℕ) (labels : ℕ → ℕ) (v : ℕ) : ℕ :=
  let histogram := histogram ((a.cdlpNeighbours v).map labels)
  selectLabel (hash.order v histogram.keys) histogram

/-- The body of the loop over the vertices, on `labels_next` and `change`. -/
def cdlpVertex (a : AdjacencyList W) (hash : Schedule ℕ) (labels : ℕ → ℕ) (acc : (ℕ → ℕ) × Bool)
    (v : ℕ) : (ℕ → ℕ) × Bool :=
  let labelsNext := Function.update acc.1 v (a.cdlpLabel hash labels v)
  (labelsNext, acc.2 || labels v != labelsNext v)

/-- The maps `labels` and `labels_next`, whose missing entries read as zero, the flag and the
counter, a 64-bit integer. -/
structure CdlpState where
  labels : ℕ → ℕ
  labelsNext : ℕ → ℕ
  change : Bool
  iteration : ℕ

/-- The body of the loop of `cdlp`. -/
def cdlpPass (a : AdjacencyList W) (sched : Schedule ℕ) (hash : ℕ → Schedule ℕ) (s : CdlpState) :
    CdlpState :=
  let r := (sched.order s.iteration a.nodes.keys).foldl
    (a.cdlpVertex (hash s.iteration) s.labels) (s.labelsNext, false)
  { labels := r.1
    labelsNext := s.labels
    change := r.2
    iteration := (s.iteration + 1) % 2 ^ 64 }

/-- `AdjacencyList::cdlp`, when no timeout fires. -/
def cdlp (a : AdjacencyList W) (sched : Schedule ℕ) (hash : ℕ → Schedule ℕ)
    (maxIterations fuel : ℕ) : Option (ℕ → ℕ) := do
  let s ← whileLoop (fun s => s.iteration ≤ maxIterations && s.change)
    (fun s => some (a.cdlpPass sched hash s)) fuel
    ⟨fun v => if v ∈ a.nodes then v else 0, fun _ => 0, true, 1⟩
  return s.labels

end AdjacencyList

/-! ## The specification -/

section Specification

variable {W : Type}

/-- The neighbours of `x` in a stream: over the edges that leave it, and over those that reach
it. -/
def neighbours (edges : List (WeightedEdge W)) (x : ℕ) : List ℕ :=
  ((edges.filter fun e => e.source = x).map WeightedEdge.destination) ++
    (edges.filter fun e => e.destination = x).map WeightedEdge.source

/-- **The specification**: `k` synchronous steps, from the identifiers as labels. -/
def cdlpSpec (edges : List (WeightedEdge W)) (k : ℕ) : ℕ → ℕ :=
  (propagate (neighbours edges))^[k] id

/-- The neighbours of a vertex are vertices. -/
theorem isEndpoint_of_mem_neighbours {edges : List (WeightedEdge W)} {x y : ℕ}
    (hy : y ∈ neighbours edges x) : WeightedEdgeStream.IsEndpoint edges y := by
  rcases List.mem_append.mp hy with hy | hy
  · obtain ⟨e, he, rfl⟩ := List.mem_map.mp hy
    exact ⟨e, List.mem_of_mem_filter he, Or.inr rfl⟩
  · obtain ⟨e, he, rfl⟩ := List.mem_map.mp hy
    exact ⟨e, List.mem_of_mem_filter he, Or.inl rfl⟩

/-- Every vertex of a stream has a neighbour. -/
theorem neighbours_ne_nil {edges : List (WeightedEdge W)} {x : ℕ}
    (hx : WeightedEdgeStream.IsEndpoint edges x) : neighbours edges x ≠ [] := by
  obtain ⟨e, he, rfl | rfl⟩ := hx
  · exact List.ne_nil_of_mem (List.mem_append_left _ (List.mem_map_of_mem
      (List.mem_filter.mpr ⟨he, by simp⟩)))
  · exact List.ne_nil_of_mem (List.mem_append_right _ (List.mem_map_of_mem
      (List.mem_filter.mpr ⟨he, by simp⟩)))

end Specification

/-! ## The loops -/

/-- A pass that computes the labels `f`. -/
theorem foldl_pass (step : (ℕ → ℕ) × Bool → ℕ → (ℕ → ℕ) × Bool) (cur f : ℕ → ℕ)
    (hstep : ∀ acc v, step acc v = (Function.update acc.1 v (f v), acc.2 || cur v != f v))
    (next : ℕ → ℕ) (order : List ℕ) :
    (∀ v ∈ order, (order.foldl step (next, false)).1 v = f v) ∧
      ((order.foldl step (next, false)).2 = false → ∀ v ∈ order,
        (order.foldl step (next, false)).1 v = cur v) := by
  have hsame : step = fun acc v => (Function.update acc.1 v (f v), acc.2 || cur v != f v) :=
    funext fun acc => funext fun v => hstep acc v
  obtain ⟨hval, hflag⟩ := foldl_sync cur f next order
  rw [← hsame] at hval hflag
  refine ⟨fun v hv => by rw [hval, if_pos hv], fun hc v hv => ?_⟩
  rw [hval, if_pos hv, hflag.mp hc v hv]

namespace CSR

variable {W : Type} {g : CSR W}

/-- **The scan** selects the least of the most frequent labels. -/
theorem cdlpLabel_eq (hash : Schedule ℕ) (labels : ℕ → ℕ) {v : ℕ} (hne : g.cdlpNeighbours v ≠ []) :
    g.cdlpLabel hash labels v = propagate g.cdlpNeighbours labels v := by
  apply foldl_keys_eq_leastMode (by simpa using hne)
  · intro best x hx
    simp only [selectBest, lookup_histogram, hx, if_true, Option.getD_some]
  · rfl

/-- **The loop of `do_cdlp`**, on vertices whose new labels are given by `f`. -/
theorem doCdlp_of_label (sched : Schedule ℕ) (hash : ℕ → Schedule ℕ) (fresh : ℕ → ℕ)
    {D : ℕ → Prop} (hD : ∀ v, D v → v < g.numVertices) {f : (ℕ → ℕ) → ℕ → ℕ}
    (hlocal : ∀ L L', (∀ v, D v → L v = L' v) → ∀ v, D v → f L v = f L' v)
    (hlabel : ∀ i L v, D v → g.cdlpLabel (hash i) L v = f L v) {maxIterations fuel : ℕ}
    (hfuel : maxIterations < fuel) :
    ∃ labels, g.doCdlp sched hash fresh maxIterations fuel = some labels ∧
      ∀ v, D v → labels v = f^[maxIterations] g.ext v := by
  have hbody : ∀ s : CdlpState, True → s.currentIteration < maxIterations →
      ∃ s', some (g.cdlpPass sched hash s) = some s' ∧ True ∧
        s'.currentIteration = s.currentIteration + 1 ∧
        (∀ v, D v → s'.labels0 v = f s.labels0 v) ∧
        (s'.change = false → ∀ v, D v → s'.labels0 v = s.labels0 v) := by
    intro s _ _
    set order := sched.order s.currentIteration (List.range g.numVertices) with horder
    obtain ⟨hval, hsame⟩ := foldl_pass (g.cdlpVertex (hash s.currentIteration) s.labels0) s.labels0
      (g.cdlpLabel (hash s.currentIteration) s.labels0)
      (fun acc v => by simp [cdlpVertex]) s.labels1 order
    have hmem : ∀ v, D v → v ∈ order := by
      intro v hv
      rw [horder, sched.mem_order]
      exact List.mem_range.mpr (hD v hv)
    -- the swap makes the buffer just written the current one
    have hnew : (g.cdlpPass sched hash s).labels0 = (order.foldl
        (g.cdlpVertex (hash s.currentIteration) s.labels0) (s.labels1, false)).1 := by
      cases hs : s.swapped with
      | true => simp [cdlpPass, CdlpState.labels0, hs, horder]
      | false => simp [cdlpPass, CdlpState.labels0, hs, horder]
    refine ⟨_, rfl, trivial, rfl, fun v hv => ?_, fun hc v hv => ?_⟩
    · rw [hnew, hval v (hmem v hv), hlabel _ _ v hv]
    · rw [hnew]
      exact hsame hc v (hmem v hv)
  have hcond : ∀ s : CdlpState, True →
      ((decide (s.currentIteration < maxIterations) && s.change) = true ↔
        s.currentIteration < maxIterations ∧ s.change = true) := by
    intro s _
    rw [Bool.and_eq_true, decide_eq_true_eq]
  obtain ⟨s, hrun, hlabels⟩ := whileLoop_sync (fun _ => True) CdlpState.labels0
    CdlpState.currentIteration CdlpState.change hlocal hcond hbody ⟨g.ext, fresh, false, true, 0⟩
    trivial rfl rfl hfuel
  refine ⟨s.labels0, ?_, hlabels⟩
  simp only [doCdlp, hrun, Option.bind_eq_bind, Option.bind_some]
  rfl

end CSR

namespace AdjacencyList

variable {W : Type} {a : AdjacencyList W}

/-- **The scan** selects the least of the most frequent labels. -/
theorem cdlpLabel_eq (hash : Schedule ℕ) (labels : ℕ → ℕ) {v : ℕ} (hne : a.cdlpNeighbours v ≠ []) :
    a.cdlpLabel hash labels v = propagate a.cdlpNeighbours labels v := by
  apply foldl_keys_eq_leastMode (by simpa using hne)
  · intro best x hx
    simp only [selectBest, lookup_histogram, hx, if_true, Option.getD_some]
    -- the second branch keeps the count, which is the same
    by_cases hgt : ((a.cdlpNeighbours v).map labels).count x > best.2
    · simp [hgt]
    · by_cases heq : ((a.cdlpNeighbours v).map labels).count x = best.2 ∧ x < best.1
      · simp [heq]
      · simp [hgt, heq]
  · rfl

/-- **One pass** gives every vertex its new label. -/
theorem cdlpPass_spec (sched : Schedule ℕ) (hash : ℕ → Schedule ℕ) (s : CdlpState) {v : ℕ}
    (hv : v ∈ a.nodes) :
    (a.cdlpPass sched hash s).labels v = a.cdlpLabel (hash s.iteration) s.labels v ∧
      ((a.cdlpPass sched hash s).change = false →
        (a.cdlpPass sched hash s).labels v = s.labels v) := by
  obtain ⟨hval, hsame⟩ := foldl_pass (a.cdlpVertex (hash s.iteration) s.labels) s.labels
    (a.cdlpLabel (hash s.iteration) s.labels) (fun acc v => by simp [cdlpVertex]) s.labelsNext
    (sched.order s.iteration a.nodes.keys)
  have hmem : v ∈ sched.order s.iteration a.nodes.keys := by
    rw [sched.mem_order]
    exact AList.mem_keys.mp hv
  exact ⟨hval v hmem, fun hc => hsame hc v hmem⟩

/-- **The loop of `cdlp`** computes the iterates of the synchronous step. -/
theorem cdlp_spec (sched : Schedule ℕ) (hash : ℕ → Schedule ℕ)
    (hclosed : ∀ v ∈ a.nodes, ∀ x ∈ a.cdlpNeighbours v, x ∈ a.nodes)
    (hne : ∀ v ∈ a.nodes, a.cdlpNeighbours v ≠ []) {maxIterations fuel : ℕ}
    (hmax : maxIterations < 2 ^ 64 - 1) (hfuel : maxIterations < fuel) :
    ∃ labels, a.cdlp sched hash maxIterations fuel = some labels ∧
      ∀ v ∈ a.nodes, labels v = (propagate a.cdlpNeighbours)^[maxIterations] id v := by
  let I : CdlpState → Prop := fun s => 1 ≤ s.iteration ∧ s.iteration ≤ maxIterations + 1
  have hbody : ∀ s : CdlpState, I s → s.iteration - 1 < maxIterations →
      ∃ s', some (a.cdlpPass sched hash s) = some s' ∧ I s' ∧
        s'.iteration - 1 = s.iteration - 1 + 1 ∧
        (∀ v, v ∈ a.nodes → s'.labels v = propagate a.cdlpNeighbours s.labels v) ∧
        (s'.change = false → ∀ v, v ∈ a.nodes → s'.labels v = s.labels v) := by
    rintro s ⟨hone, hle⟩ hlt
    -- the counter does not wrap around below the bound
    have hcount : (a.cdlpPass sched hash s).iteration = s.iteration + 1 :=
      Nat.mod_eq_of_lt (by omega)
    refine ⟨_, rfl, ⟨by omega, by omega⟩, by omega, fun v hv => ?_, fun hc v hv => ?_⟩
    · rw [← cdlpLabel_eq (hash s.iteration) s.labels (hne v hv)]
      exact (a.cdlpPass_spec sched hash s hv).1
    · exact (a.cdlpPass_spec sched hash s hv).2 hc
  have hcond : ∀ s : CdlpState, I s →
      ((decide (s.iteration ≤ maxIterations) && s.change) = true ↔
        s.iteration - 1 < maxIterations ∧ s.change = true) := by
    rintro s ⟨hone, -⟩
    rw [Bool.and_eq_true, decide_eq_true_eq]
    exact and_congr_left fun _ => by omega
  obtain ⟨s, hrun, hlabels⟩ := whileLoop_sync I CdlpState.labels (fun s => s.iteration - 1)
    CdlpState.change (fun L L' h v hv => propagate_congr hclosed h v hv) hcond hbody
    ⟨fun v => if v ∈ a.nodes then v else 0, fun _ => 0, true, 1⟩ ⟨le_refl 1, by simp⟩ rfl rfl hfuel
  refine ⟨s.labels, ?_, fun v hv => ?_⟩
  · simp only [cdlp, hrun, Option.bind_eq_bind, Option.bind_some]
    rfl
  · rw [hlabels v hv]
    -- the initial labels are the identifiers on the vertices
    have hstart : ∀ n, ∀ v, v ∈ a.nodes →
        (propagate a.cdlpNeighbours)^[n] (fun v => if v ∈ a.nodes then v else 0) v =
          (propagate a.cdlpNeighbours)^[n] id v := by
      intro n
      induction n with
      | zero =>
        intro v hv
        simp [hv]
      | succ n ih =>
        intro v hv
        rw [Function.iterate_succ_apply', Function.iterate_succ_apply']
        exact propagate_congr hclosed ih v hv
    exact hstart maxIterations v hv

end AdjacencyList

/-! ## Neighbours in the two libraries -/

section Neighbours

variable {W : Type} {edges : List (WeightedEdge W)}

/-- The group of a vertex, in external identifiers. -/
theorem CSR.map_ext_groupOf {g : CSR W} (hnum : CSR.Numbering g.ext2log g.log2ext)
    (key other : WeightedEdge W → ℕ) {l : List (WeightedEdge W)}
    (hkey : ∀ e ∈ l, key e ∈ g.log2ext) (hother : ∀ e ∈ l, other e ∈ g.log2ext) {u : ℕ}
    (hu : u < g.log2ext.length) :
    ((CSR.groupOf g.ext2log key other l u).map fun p => g.ext p.1) =
      (l.filter fun e => key e = g.ext u).map other := by
  have hfilter : (l.filter fun e => CSR.logical g.ext2log (key e) = u) =
      l.filter fun e => key e = g.ext u := by
    refine List.filter_congr fun e he => decide_eq_decide.mpr ⟨fun heq => ?_, fun heq => ?_⟩
    · rw [← heq, CSR.ext_logical hnum (hkey e he)]
    · rw [heq, CSR.logical_ext hnum hu]
  rw [CSR.groupOf, hfilter, List.map_map]
  exact List.map_congr_left fun e he => CSR.ext_logical hnum (hother e (List.mem_of_mem_filter he))

/-- **The neighbours in the compressed sparse rows** are those of the stream. -/
theorem CSR.cdlpNeighbours_perm [Zero W] {view : StreamView W} (h : view.Faithful edges)
    (hstart : CSR.Started view) (d : Bool) {v : ℕ} (hv : v < (CSR.loadView d view).numVertices) :
    (((CSR.loadView d view).cdlpNeighbours v).map (CSR.loadView d view).ext).Perm
      (neighbours edges ((CSR.loadView d view).ext v)) := by
  obtain ⟨hnum, hlen, -⟩ := CSR.numbering_loadDirected h d
  have hv' : v < (CSR.loadDirected d view).numVertices := by
    cases d with
    | true => exact hv
    | false => exact hv
  -- the edges of a vertex are the edges of the stream that leave it
  have hout : (((CSR.loadDirected d view).outEdges v).map fun p =>
      (CSR.loadDirected d view).ext p.1).Perm ((edges.filter fun e =>
        e.source = (CSR.loadDirected d view).ext v).map WeightedEdge.destination) := by
    rw [CSR.outEdges_loadDirected h hstart hv', CSR.map_ext_groupOf hnum _ _
      (CSR.ends_mem h h.perm_src).1 (CSR.ends_mem h h.perm_src).2 (hlen.symm ▸ hv')]
    exact (h.perm_src.filter _).map _
  have hinc : (((CSR.loadDirected d view).inEdges v).map fun p =>
      (CSR.loadDirected d view).ext p.1).Perm ((edges.filter fun e =>
        e.destination = (CSR.loadDirected d view).ext v).map WeightedEdge.source) := by
    rw [CSR.inEdges_loadDirected h hstart hv', CSR.map_ext_groupOf hnum _ _
      (CSR.ends_mem h h.perm_dst).2 (CSR.ends_mem h h.perm_dst).1 (hlen.symm ▸ hv')]
    exact (h.perm_dst.filter _).map _
  cases d with
  | true =>
    have hall : ((CSR.loadDirected true view).cdlpNeighbours v).map
        (CSR.loadDirected true view).ext = (((CSR.loadDirected true view).outEdges v).map fun p =>
          (CSR.loadDirected true view).ext p.1) ++ ((CSR.loadDirected true view).inEdges v).map
            fun p => (CSR.loadDirected true view).ext p.1 := by
      have hmode : (CSR.loadDirected true view).isDirected = true := rfl
      simp [CSR.cdlpNeighbours, hmode, CSR.outNeighbours, CSR.inNeighbours, CSR.outEdges,
        CSR.inEdges, Function.comp_def]
    rw [show CSR.loadView true view = CSR.loadDirected true view from rfl, hall]
    exact hout.append hinc
  | false =>
    have hall : ((CSR.loadUndirected view).cdlpNeighbours v).map (CSR.loadUndirected view).ext =
        ((CSR.loadUndirected view).outEdges v).map fun p => (CSR.loadUndirected view).ext p.1 := by
      have hmode : (CSR.loadUndirected view).isDirected = false := rfl
      simp [CSR.cdlpNeighbours, hmode, CSR.outNeighbours, CSR.outEdges, Function.comp_def]
    rw [show CSR.loadView false view = CSR.loadUndirected view from rfl, hall,
      CSR.outEdges_loadUndirected hv]
    -- an undirected load merges the two directions into one list
    refine ((CSR.mergeEdges_perm _ _).map _).trans ?_
    rw [List.map_append]
    exact hout.append hinc

/-- The edges of a vertex in a simple stream lead to distinct vertices. -/
theorem nodup_ends (hsimple : CSR.Simple edges) (x : ℕ) :
    ((edges.filter fun e => e.source = x).map WeightedEdge.destination).Nodup ∧
      ((edges.filter fun e => e.destination = x).map WeightedEdge.source).Nodup := by
  constructor
  -- two edges with one source and one destination would be the same
  · rw [List.Nodup, List.pairwise_map]
    refine (hsimple.distinct.filter _).imp_of_mem fun {e e'} he he' hne heq => hne ⟨?_, heq⟩
    have hs := (List.mem_filter.mp he).2
    have hs' := (List.mem_filter.mp he').2
    simp only [decide_eq_true_eq] at hs hs'
    rw [hs, hs']
  · rw [List.Nodup, List.pairwise_map]
    refine (hsimple.distinct.filter _).imp_of_mem fun {e e'} he he' hne heq => hne ⟨heq, ?_⟩
    have ht := (List.mem_filter.mp he).2
    have ht' := (List.mem_filter.mp he').2
    simp only [decide_eq_true_eq] at ht ht'
    rw [ht, ht']

theorem mem_destinations {x y : ℕ} :
    y ∈ (edges.filter fun e => e.source = x).map WeightedEdge.destination ↔
      ∃ w, ⟨x, y, w⟩ ∈ edges := by
  simp only [List.mem_map, List.mem_filter, decide_eq_true_eq]
  constructor
  · rintro ⟨e, ⟨he, rfl⟩, rfl⟩
    exact ⟨e.weight, he⟩
  · rintro ⟨w, he⟩
    exact ⟨_, ⟨he, rfl⟩, rfl⟩

theorem mem_sources {x y : ℕ} :
    y ∈ (edges.filter fun e => e.destination = x).map WeightedEdge.source ↔
      ∃ w, ⟨y, x, w⟩ ∈ edges := by
  simp only [List.mem_map, List.mem_filter, decide_eq_true_eq]
  constructor
  · rintro ⟨e, ⟨he, rfl⟩, rfl⟩
    exact ⟨e.weight, he⟩
  · rintro ⟨w, he⟩
    exact ⟨_, ⟨he, rfl⟩, rfl⟩

/-- **The neighbours in the adjacency list** are those of the stream. -/
theorem AdjacencyList.cdlpNeighbours_perm {d : Bool} {a : AdjacencyList W} (ha : a.Loaded d edges)
    (hsimple : CSR.Simple edges) (horiented : d = false → CSR.Oriented edges) (x : ℕ) :
    (a.cdlpNeighbours x).Perm (neighbours edges x) := by
  obtain ⟨hdst, hsrc⟩ := nodup_ends hsimple x
  cases d with
  | true =>
    refine List.Perm.append ?_ ?_
    · rw [List.perm_ext_iff_of_nodup (ha.invariant.nodup x).1 hdst]
      intro y
      rw [EdgeList.mem_targets, mem_destinations]
      refine exists_congr fun w => ?_
      rw [ha.outgoing]
      simp
    · rw [List.perm_ext_iff_of_nodup (ha.invariant.nodup x).2 hsrc]
      intro y
      have hback : a.incoming x = a.back x := by simp [AdjacencyList.back, ha.mode]
      rw [EdgeList.mem_targets, mem_sources, hback]
      refine exists_congr fun w => ?_
      rw [← ha.invariant.mirror, ha.outgoing]
      simp
  | false =>
    -- an undirected stream does not have an edge in both directions
    have hnodup : (neighbours edges x).Nodup := by
      refine List.nodup_append.mpr ⟨hdst, hsrc, ?_⟩
      rintro y hy z hz rfl
      obtain ⟨w, hw⟩ := mem_destinations.mp hy
      obtain ⟨w', hw'⟩ := mem_sources.mp hz
      exact horiented rfl _ hw _ hw' ⟨rfl, rfl⟩
    rw [AdjacencyList.cdlpNeighbours, ha.invariant.incoming_nil ha.mode x,
      show (EdgeList.targets ([] : EdgeList W)) = [] from rfl, List.append_nil,
      List.perm_ext_iff_of_nodup (ha.invariant.nodup x).1 hnodup]
    intro y
    rw [EdgeList.mem_targets, neighbours, List.mem_append, mem_destinations, mem_sources,
      ← exists_or]
    refine exists_congr fun w => ?_
    rw [ha.outgoing]
    simp

end Neighbours

end GfeDriver
