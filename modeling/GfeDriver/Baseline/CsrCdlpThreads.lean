import GfeDriver.Baseline.CdlpAgreement
import GfeDriver.Foundation.SharedFlag

/-!
# Label propagation, with the threads of OpenMP

The threads of `do_cdlp` take chunks of 64 vertices. They write the labels of the next iteration to
entries of their own, but share the flag `change`, which `change |= ...` loads and stores without
synchronisation. A thread that loaded the flag before a label changed, and stores it afterwards,
takes it down again, and the loop may stop although labels change.

Hence the result is that of the specification after some number of iterations, not always the one
that was asked for. A graph of one chunk is safe, since one thread has all its vertices.

## Main definitions

* `CdlpLabels`, `CdlpStep`: `do_cdlp` with its threads
* `cdlpNext`: the synchronous step, on a graph

## Main results

* `computes_cdlpNext`: the passes compute the step
* `iterate_cdlpNext_load`: the steps on a loaded graph are those of the specification
* `threads_cdlp`: every run ends with the labels of the specification after some iteration
* `exists_lostChange`: the loop may stop after an iteration that keeps the labels of the first chunk
-/

namespace GfeDriver

open Foundation Foundation.SharedFlag

namespace CSR

variable {W : Type} {τ : Type}

/-! ## The algorithm -/

/-- The labels that a pass may compute: the hash tables are scanned in any order. -/
def CdlpLabels (g : CSR W) (labels0 f : ℕ → ℕ) : Prop :=
  ∃ hash : Schedule ℕ, f = g.cdlpLabel hash labels0

/-- **The steps** of `do_cdlp`: the labels are those of `labels0`, and each pass is a loop with
`schedule(dynamic, 64)`. -/
def CdlpStep [DecidableEq τ] (g : CSR W) (maxIterations : ℕ) : Config τ ℕ ℕ → Config τ ℕ ℕ → Prop :=
  LoopStep g.CdlpLabels (SharedChunks 64 g.numVertices) maxIterations

/-- Before the loop: the labels are the external identifiers, and the second buffer has arbitrary
contents. -/
def cdlpHead (g : CSR W) (fresh : ℕ → ℕ) : Config τ ℕ ℕ := .head g.ext fresh true 0

/-- **The synchronous step**: a vertex without neighbours gets the greatest value of `int64_t`. -/
def cdlpNext (g : CSR W) (labels : ℕ → ℕ) (v : ℕ) : ℕ :=
  if g.cdlpNeighbours v = [] then 2 ^ 63 - 1 else propagate g.cdlpNeighbours labels v

section Graph

variable {g : CSR W} {v : ℕ}

theorem cdlpNext_of_ne_nil (labels : ℕ → ℕ) (hv : g.cdlpNeighbours v ≠ []) :
    g.cdlpNext labels v = propagate g.cdlpNeighbours labels v :=
  if_neg hv

/-- The scan, for every order of the hash table. -/
theorem cdlpLabel_eq_cdlpNext (hash : Schedule ℕ) (labels : ℕ → ℕ) (v : ℕ) :
    g.cdlpLabel hash labels v = g.cdlpNext labels v := by
  by_cases hv : g.cdlpNeighbours v = []
  · have hkeys : hash.order v (histogram []).keys = [] := (hash.perm v _).eq_nil
    rw [cdlpNext, if_pos hv, cdlpLabel, hv]
    change selectLabel (hash.order v (histogram []).keys) _ = _
    rw [hkeys]
    rfl
  · rw [cdlpNext_of_ne_nil labels hv, cdlpLabel_eq hash labels hv]

theorem WellFormed.lt_of_mem_cdlpNeighbours (hg : g.WellFormed) (hv : v < g.numVertices) {u : ℕ}
    (hu : u ∈ g.cdlpNeighbours v) : u < g.numVertices := by
  rcases List.mem_append.mp hu with hu | hu
  · exact hg.lt_of_mem_outNeighbours hv hu
  · split_ifs at hu
    · exact hg.lt_of_mem_inNeighbours hv hu
    · exact absurd hu List.not_mem_nil

/-- **The passes compute the synchronous step.** -/
theorem computes_cdlpNext (hg : g.WellFormed) :
    Computes g.CdlpLabels (SharedChunks (τ := τ) 64 g.numVertices) (· < g.numVertices)
      g.cdlpNext where
  label := by
    rintro labels f ⟨hash, rfl⟩ v -
    exact cdlpLabel_eq_cdlpNext hash labels v
  congr L L' h v hv := by
    by_cases hnil : g.cdlpNeighbours v = []
    · rw [cdlpNext, cdlpNext, if_pos hnil, if_pos hnil]
    · rw [cdlpNext_of_ne_nil L hnil, cdlpNext_of_ne_nil L' hnil]
      exact propagate_congr (fun v hv u hu => hg.lt_of_mem_cdlpNeighbours hv hu) h v hv
  cover shares h v hv := (h.mem (by norm_num) v).mpr hv

end Graph

/-! ## Loaded graphs -/

section Loaded

variable [Zero W] {edges : List (WeightedEdge W)} {d : Bool} {view : StreamView W}

theorem wellFormed_loadView (h : view.Faithful edges) (hstart : Started view) :
    (loadView d view).WellFormed := by
  cases d with
  | true => exact wellFormed_loadDirected h hstart
  | false => exact wellFormed_loadUndirected h hstart

/-- A logical vertex has the identifier of an end of an edge. -/
theorem isEndpoint_ext (h : view.Faithful edges) {v : ℕ} (hv : v < (loadView d view).numVertices) :
    WeightedEdgeStream.IsEndpoint edges ((loadView d view).ext v) := by
  have hext : ∀ {g : CSR W}, g.log2ext.length = g.numVertices → v < g.numVertices →
      g.ext v ∈ g.log2ext := by
    intro g hlen hv
    rw [ext, List.getD_eq_getElem _ _ (hlen ▸ hv)]
    exact List.getElem_mem _
  obtain ⟨-, hlen, hmem⟩ := numbering_loadDirected h d
  cases d with
  | true => exact (hmem _).mp (hext hlen hv)
  | false => exact (hmem _).mp (hext hlen hv)

/-- **The steps on a loaded graph** are those of the specification. -/
theorem iterate_cdlpNext_load (h : view.Faithful edges) (hstart : Started view) (k : ℕ) :
    ∀ v < (loadView d view).numVertices,
      (loadView d view).cdlpNext^[k] (loadView d view).ext v =
        cdlpSpec edges k ((loadView d view).ext v) := by
  set g := loadView d view with hg
  have hperm : ∀ v < g.numVertices, ((g.cdlpNeighbours v).map g.ext).Perm
      (neighbours edges (g.ext v)) := fun v hv => cdlpNeighbours_perm h hstart d hv
  have hclosed : ∀ v < g.numVertices, ∀ u ∈ g.cdlpNeighbours v, u < g.numVertices :=
    fun v hv u hu => (wellFormed_loadView h hstart).lt_of_mem_cdlpNeighbours hv hu
  -- an end of an edge has a neighbour
  have hne : ∀ v < g.numVertices, g.cdlpNeighbours v ≠ [] := by
    intro v hv hnil
    have hnil' := hperm v hv
    rw [hnil, List.map_nil] at hnil'
    exact neighbours_ne_nil (isEndpoint_ext h hv) (List.nil_perm.mp hnil')
  have hsame : ∀ k, ∀ v < g.numVertices,
      g.cdlpNext^[k] g.ext v = (propagate g.cdlpNeighbours)^[k] g.ext v := by
    intro k
    induction k with
    | zero => exact fun _ _ => rfl
    | succ k ih =>
      intro v hv
      rw [Function.iterate_succ_apply', Function.iterate_succ_apply',
        cdlpNext_of_ne_nil _ (hne v hv)]
      exact propagate_congr hclosed ih v hv
  intro v hv
  rw [hsame k v hv]
  exact iterate_propagate_map (D := fun v => v < g.numVertices) g.ext hclosed hperm id k v hv

end Loaded

/-! ## Every run -/

section Runs

variable [Zero W] [DecidableEq τ] [Fintype τ] [Nonempty τ] {edges : List (WeightedEdge W)}
  {d : Bool} {g : CSR W}

/-- **Every run of `do_cdlp` on a loaded graph ends**, with the labels of the specification after
some iteration, whatever the interleaving of the loads and stores of its threads. This is the last
iteration if the graph has one chunk, or no store takes the flag down. -/
theorem threads_cdlp (hids : Ids64 edges) (hload : Loadable edges) {lib : Common}
    {machine : Machine} (hg : CSR.load lib machine d edges = .ok g) (fresh : ℕ → ℕ)
    (maxIterations : ℕ) :
    EndsIn (g.CdlpStep maxIterations)
        (End fun labels => ∃ k ≤ maxIterations, (0 < maxIterations → 0 < k) ∧
          (g.numVertices ≤ 64 → k = maxIterations) ∧
          ∀ v < g.numVertices, labels v = cdlpSpec edges k (g.ext v))
        (g.cdlpHead (τ := τ) fresh) ∧
      ∀ labels, Relation.ReflTransGen
          (fun x y => g.CdlpStep maxIterations x y ∧ ¬Config.Lowers x y)
          (g.cdlpHead (τ := τ) fresh) (.finished labels) →
        ∀ v < g.numVertices, labels v = cdlpSpec edges maxIterations (g.ext v) := by
  obtain ⟨view, hview, hfaithful, hstart⟩ := exists_load lib machine d hids hload
  obtain rfl : loadView d view = g := Except.ok.inj (hview.symm.trans hg)
  have hF := computes_cdlpNext (τ := τ) (wellFormed_loadView (d := d) hfaithful hstart)
  have hspec := fun k => iterate_cdlpNext_load (d := d) hfaithful hstart k
  refine ⟨?_, fun labels hrun v hv => ?_⟩
  · by_cases hsmall : (loadView d view).numVertices ≤ 64
    · refine (endsIn_of_alone hF (fun shares hs => hs.alone (by norm_num) hsmall) fresh).imp
        fun x hx => hx.imp_right ?_
      rintro ⟨labels, rfl, hval⟩
      exact ⟨labels, rfl, maxIterations, le_rfl, id, fun _ => rfl,
        fun v hv => (hval v hv).trans (hspec _ v hv)⟩
    · refine (endsIn_iterate hF fresh).imp fun x hx => hx.imp_right ?_
      rintro ⟨labels, rfl, k, hk, hpos, hval⟩
      exact ⟨labels, rfl, k, hk, hpos, fun hc => absurd hc hsmall,
        fun v hv => (hval v hv).trans (hspec _ v hv)⟩
  · rw [iterate_of_kept hF hrun v hv]
    exact hspec _ v hv

end Runs

theorem threads_cdlp_edge : ∃ g : CSR ℕ,
    CSR.load Common.mergeSort Machine.single true [⟨5, 3, 7⟩] = .ok g ∧
      EndsIn (g.CdlpStep 10) (End fun labels => ∃ k ≤ 10, (0 < 10 → 0 < k) ∧
          (g.numVertices ≤ 64 → k = 10) ∧
          ∀ v < g.numVertices, labels v = cdlpSpec [(⟨5, 3, 7⟩ : WeightedEdge ℕ)] k (g.ext v))
        (g.cdlpHead (τ := Fin 2) id) := by
  have hids : Ids64 [(⟨5, 3, 7⟩ : WeightedEdge ℕ)] := ids64_singleton (by norm_num)
  have hload : Loadable [(⟨5, 3, 7⟩ : WeightedEdge ℕ)] :=
    ⟨by decide, odd_ne_pow (by decide) (by decide), ⟨_, List.mem_singleton_self _, by decide⟩,
      ⟨_, List.mem_singleton_self _, by decide⟩⟩
  obtain ⟨view, hg, -, -⟩ := exists_load Common.mergeSort Machine.single true hids hload
  exact ⟨_, hg, (threads_cdlp hids hload hg id 10).1⟩

/-! ## A lost change -/

/-- **The loop may stop after an iteration that keeps the labels of the first chunk**, although it
changes others: the thread of this chunk loads the flag before the others raise it. -/
theorem exists_lostChange [DecidableEq τ] {g : CSR W} (hg : g.WellFormed)
    (hlarge : 64 < g.numVertices) {w₀ w₁ : τ} (hne : w₀ ≠ w₁) {k maxIterations : ℕ}
    (hk : k < maxIterations)
    (hsame : ∀ v < 64, g.cdlpNext^[k + 1] g.ext v = g.cdlpNext^[k] g.ext v) (fresh : ℕ → ℕ) :
    ∃ labels, Relation.ReflTransGen (g.CdlpStep maxIterations) (g.cdlpHead (τ := τ) fresh)
      (.finished labels) ∧ ∀ v < g.numVertices, labels v = g.cdlpNext^[k + 1] g.ext v := by
  obtain ⟨shares, hshares, hfirst, hothers⟩ := exists_sharedChunks (by norm_num) hlarge hne
  refine exists_earlyStop (computes_cdlpNext hg) (fun _ => ⟨_, Schedule.sequential, rfl⟩) hshares
    hne hothers ?_ (fun v hv => ((hfirst v).mp hv).trans hlarge) hk
    (fun v hv => hsame v ((hfirst v).mp hv)) fresh
  exact List.ne_nil_of_mem ((hfirst 0).mpr (by norm_num))

/-- Twenty triangles, a clique of four vertices, and an edge between the last two vertices. -/
def cliques : CSR ℕ :=
  let nbr v := if v < 60 then (List.range' (v / 3 * 3) 3).erase v
    else if v < 64 then (List.range' 60 4).erase v else (List.range' 64 2).erase v
  let ends := (List.range 66).map fun v => ((List.range (v + 1)).map fun u => (nbr u).length).sum
  let entries := (List.range 66).flatMap nbr
  { isDirected := false
    numVertices := 66
    numEdges := 67
    ext2log := ((List.range 66).map fun v => (⟨v, v⟩ : Sigma fun _ : ℕ => ℕ)).toAList
    log2ext := List.range 66
    outV := ends
    outE := entries
    outW := entries.map fun _ => 1
    inV := ends
    inE := entries
    inW := entries.map fun _ => 1 }

theorem wellFormed_cliques : cliques.WellFormed := by
  have h : Layout 66 cliques.outV cliques.outE cliques.outW :=
    ⟨by decide +kernel, by decide +kernel, by decide +kernel, by decide +kernel, by decide +kernel⟩
  exact ⟨h, h⟩

/-- The loop may stop after the third of ten iterations, although the last two vertices exchange
their labels in each of them. -/
theorem exists_lostChange_cliques : ∃ labels,
    Relation.ReflTransGen (cliques.CdlpStep 10) (cliques.cdlpHead (τ := Fin 2) id)
      (.finished labels) ∧ labels 64 ≠ cliques.cdlpNext^[10] cliques.ext 64 := by
  obtain ⟨labels, hrun, hval⟩ := exists_lostChange (k := 2) wellFormed_cliques (by decide)
    (by decide : (0 : Fin 2) ≠ 1) (by decide : 2 < 10) (by decide +kernel) id
  refine ⟨labels, hrun, ?_⟩
  rw [hval 64 (by decide)]
  decide +kernel

end CSR

end GfeDriver
