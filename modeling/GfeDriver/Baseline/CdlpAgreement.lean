import GfeDriver.Baseline.Cdlp

/-!
# When the kernels for label propagation agree

On a stream that the compressed sparse rows hold, both kernels compute the labels of the synchronous
specification. On any other stream some label differs. If the packed arrays do not hold the largest
identifier, the load fails or a vertex is missing. If the first edge of a pass belongs to the vertex
`2^64 - 1`, then all of them do, and the pass gives them to the vertex numbered zero: the vertex
`2^64 - 1` has no neighbours left, so the scan of its empty histogram ends with the initial value
`2^63 - 1`, while the specification alternates between its own identifier and the least neighbour.

## Main definitions

* `CdlpAgrees`: the two kernels and the specification agree on a stream

## Main results

* `cdlpAgrees_of_loadable`: they agree on a loadable stream
* `not_cdlpAgrees_of_width`, `not_cdlpAgrees_of_star`: they do not on the others
* `cdlpAgrees_iff`: the streams on which they agree
-/

namespace GfeDriver

open Foundation

/-! ## Agreement -/

section Agreement

variable {W : Type} [Zero W]

/-- **The two kernels and the specification agree** on a stream: both libraries load it, for every
order of the parallel loops and of the hash tables both kernels end, and they give every vertex the
label of the specification. -/
def CdlpAgrees (d : Bool) (edges : List (WeightedEdge W)) : Prop :=
  ∀ (lib : Common) (machine : Machine) (sched sched' : Schedule ℕ) (hash hash' : ℕ → Schedule ℕ)
    (fresh : ℕ → ℕ) (maxIterations fuel : ℕ), maxIterations < 2 ^ 64 - 1 → maxIterations < fuel →
    ∃ g a labels labels', CSR.load lib machine d edges = .ok g ∧
      AdjacencyList.load d edges = some a ∧
      g.doCdlp sched hash fresh maxIterations fuel = some labels ∧
      a.cdlp sched' hash' maxIterations fuel = some labels' ∧
      (∀ x, x ∈ g.log2ext ↔ WeightedEdgeStream.IsEndpoint edges x) ∧
      (∀ x, x ∈ a.nodes ↔ WeightedEdgeStream.IsEndpoint edges x) ∧
      ∀ v < g.numVertices, labels v = cdlpSpec edges maxIterations (g.ext v) ∧
        labels' (g.ext v) = cdlpSpec edges maxIterations (g.ext v)

variable {edges : List (WeightedEdge W)} {d : Bool}

/-- The kernels agree on a loadable stream. -/
theorem cdlpAgrees_of_loadable (hids : Ids64 edges) (hload : Loadable edges)
    (hsimple : CSR.Simple edges) (horiented : d = false → CSR.Oriented edges) :
    CdlpAgrees d edges := by
  intro lib machine sched sched' hash hash' fresh maxIterations fuel hmax hfuel
  obtain ⟨view, hview, hfaithful, hstart⟩ := CSR.exists_load lib machine d hids hload
  obtain ⟨a, ha, hloaded⟩ := AdjacencyList.load_spec hsimple horiented
  have hrep := represents_loadView hfaithful hstart hloaded
  set g := CSR.loadView d view with hg
  have hperm : ∀ v < g.numVertices, ((g.cdlpNeighbours v).map g.ext).Perm
      (neighbours edges (g.ext v)) := fun v hv =>
    CSR.cdlpNeighbours_perm hfaithful hstart d hv
  have hperm' := fun x => AdjacencyList.cdlpNeighbours_perm hloaded hsimple horiented x
  have hend : ∀ x, x ∈ a.nodes → neighbours edges x ≠ [] := fun x hx =>
    neighbours_ne_nil ((hloaded.mem_nodes x).mp hx)
  -- both graphs are closed under neighbours, and no vertex is without one
  have hclosed : ∀ v < g.numVertices, ∀ u ∈ g.cdlpNeighbours v, u < g.numVertices := by
    intro v hv u hu
    rcases List.mem_append.mp hu with hu | hu
    · exact hrep.wellFormed.lt_of_mem_outNeighbours hv hu
    · split_ifs at hu
      · exact hrep.wellFormed.lt_of_mem_inNeighbours hv hu
      · simp at hu
  have hclosed' : ∀ x, x ∈ a.nodes → ∀ y ∈ a.cdlpNeighbours x, y ∈ a.nodes := fun x _ y hy =>
    (hloaded.mem_nodes y).mpr (isEndpoint_of_mem_neighbours ((hperm' x).mem_iff.mp hy))
  have hne : ∀ v < g.numVertices, g.cdlpNeighbours v ≠ [] := by
    intro v hv hnil
    have hnil' := hperm v hv
    rw [hnil, List.map_nil] at hnil'
    exact hend _ (hrep.ext_mem hv) (List.nil_perm.mp hnil')
  have hne' : ∀ x ∈ a.nodes, a.cdlpNeighbours x ≠ [] := by
    intro x hx hnil
    have hnil' := hperm' x
    rw [hnil] at hnil'
    exact hend x hx (List.nil_perm.mp hnil')
  obtain ⟨labels, hrun, hlabels⟩ := CSR.doCdlp_of_label (g := g) sched hash fresh
    (D := fun v => v < g.numVertices) (fun _ hv => hv)
    (fun L L' h v hv => propagate_congr hclosed h v hv)
    (fun i L v hv => CSR.cdlpLabel_eq (hash i) L (hne v hv)) hfuel
  obtain ⟨labels', hrun', hlabels'⟩ := AdjacencyList.cdlp_spec sched' hash' hclosed' hne' hmax hfuel
  -- both kernels compute the iterates of one step on the stream
  refine ⟨g, a, labels, labels', hview, ha, hrun, hrun', fun x => ?_, hloaded.mem_nodes,
    fun v hv => ⟨?_, ?_⟩⟩
  · rw [← hrep.mem_nodes, hloaded.mem_nodes]
  · rw [hlabels v hv]
    exact iterate_propagate_map (D := fun v => v < g.numVertices) g.ext hclosed hperm id
      maxIterations v hv
  · rw [hlabels' _ (hrep.ext_mem hv)]
    refine iterate_propagate_map (D := fun x => x ∈ a.nodes) id hclosed' (fun x _ => ?_) id
      maxIterations _ (hrep.ext_mem hv)
    rw [List.map_id]
    exact hperm' x

end Agreement

/-! ## Identifiers that the packed arrays do not hold -/

section Width

variable {W : Type}

theorem bytesPerElement_storeAll (a : CByteArray) (l : List ℕ) :
    (WeightedEdgeStream.storeAll a l).bytesPerElement = a.bytesPerElement := by
  apply foldl_prefix (fun _ (acc : CByteArray × ℕ) => acc.1.bytesPerElement = a.bytesPerElement)
  · rfl
  · intro _ _ _ acc _ hacc
    exact hacc

/-- The vertices of a list fit the computed width. -/
theorem vertexList_lt {machine : Machine} {t : ℕ} {s : WeightedEdgeStream W} {l : VertexList}
    (h : s.vertexList machine t = .ok l) :
    ∃ bytes, CByteArray.computeBytesPerElements s.maxVertexId = .ok bytes ∧
      ∀ x ∈ l.toList, x < 256 ^ bytes := by
  unfold WeightedEdgeStream.vertexList at h
  cases hb : CByteArray.computeBytesPerElements s.maxVertexId with
  | error e => simp [hb, bind, Except.bind] at h
  | ok bytes =>
    refine ⟨bytes, rfl, fun x hx => ?_⟩
    -- a list of vertices has the width that was computed from the largest identifier
    by_cases hrange : 0 < bytes ∧ bytes ≤ 8
    · simp only [hb, CByteArray.new_eq_allocate _ _ hrange, bind, Except.bind, pure, Except.pure,
        Except.ok.injEq] at h
      subst h
      obtain ⟨i, -, rfl⟩ := List.mem_map.mp hx
      have hlt := CByteArray.getValueAt_lt (WeightedEdgeStream.storeAll
        (CByteArray.allocate machine.memory bytes
          (machine.hashOrder.order t s.uniqueVertices).length hrange)
        (machine.hashOrder.order t s.uniqueVertices)) i
      rwa [bytesPerElement_storeAll] at hlt
    · have hnew : ∀ n, CByteArray.new machine.memory bytes n = .error (.invalidArgument
          ("Invalid value for the parameter bytes_per_elements: " ++ toString bytes)) :=
        fun n => dif_pos (by omega)
      simp [hb, hnew, bind, Except.bind] at h

theorem mapVertices_snd (vertices : List ℕ) : (CSR.mapVertices vertices).2 = vertices := by
  apply foldl_prefix (fun done (acc : (AList fun _ : ℕ => ℕ) × List ℕ) => acc.2 = done)
  · rfl
  · intro done v _ acc _ hacc
    simp [hacc]

/-- The largest identifier belongs to a vertex. -/
theorem isEndpoint_maxId {edges : List (WeightedEdge W)}
    (h : WeightedEdgeStream.maxId edges ≠ 0) :
    WeightedEdgeStream.IsEndpoint edges (WeightedEdgeStream.maxId edges) := by
  have hend : WeightedEdgeStream.maxId edges = 0 ∨
      WeightedEdgeStream.IsEndpoint edges (WeightedEdgeStream.maxId edges) := by
    apply foldl_prefix (fun done m => m = 0 ∨ WeightedEdgeStream.IsEndpoint done m)
    · exact Or.inl rfl
    · intro done e _ m _ hm
      -- the maximum is zero, or one of the ends seen so far
      rcases max_choice m (max e.source e.destination) with heq | heq
      · rw [heq]
        exact hm.imp_right fun ⟨x, hx, hend⟩ => ⟨x, List.mem_append_left _ hx, hend⟩
      · rw [heq]
        refine Or.inr ⟨e, by simp, ?_⟩
        exact max_choice e.source e.destination
  exact hend.resolve_left h

variable [Zero W] {edges : List (WeightedEdge W)} {d : Bool}

/-- What a successful load has called. -/
theorem exists_view_of_load {lib : Common} {machine : Machine} {g : CSR W}
    (h : CSR.load lib machine d edges = .ok g) :
    ∃ view l, (WeightedEdgeStream.ofReader machine.memory edges).view lib machine 0 = .ok view ∧
      (WeightedEdgeStream.ofReader machine.memory edges).vertexList machine 0 = .ok l ∧
      view.vertices = l.toList ∧ g = CSR.loadView d view := by
  unfold CSR.load at h
  cases hview : (WeightedEdgeStream.ofReader machine.memory edges).view lib machine 0 with
  | error e => simp [hview, bind, Except.bind] at h
  | ok view =>
    simp only [hview, bind, Except.bind, pure, Except.pure, Except.ok.injEq] at h
    set s := WeightedEdgeStream.ofReader machine.memory edges with hs
    cases hl : s.vertexList machine 0 with
    | error e => simp [WeightedEdgeStream.view, hl, bind, Except.bind] at hview
    | ok l =>
      refine ⟨view, l, rfl, rfl, ?_, h.symm⟩
      -- the sorts may fail, the vertices are read before them
      cases h₁ : s.step lib machine 0 .sortBySrcDst with
      | error e => simp [WeightedEdgeStream.view, hl, h₁, bind, Except.bind] at hview
      | ok s₁ =>
        cases h₂ : s₁.step lib machine (0 + 1) .sortByDstSrc with
        | error e => simp [WeightedEdgeStream.view, hl, h₁, h₂, bind, Except.bind] at hview
        | ok s₂ =>
          simp only [WeightedEdgeStream.view, hl, h₁, h₂, bind, Except.bind, pure, Except.pure,
            Except.ok.injEq] at hview
          rw [← hview]

theorem log2ext_loadView (view : StreamView W) :
    (CSR.loadView d view).log2ext = view.vertices.insertionSort (· ≤ ·) := by
  cases d with
  | true => exact mapVertices_snd _
  | false => exact mapVertices_snd _

/-- **A largest identifier that is zero or a power of `256`** is not loaded. -/
theorem not_cdlpAgrees_of_width (hids : Ids64 edges)
    (h : ¬(WeightedEdgeStream.maxId edges ≠ 0 ∧ ∀ k, WeightedEdgeStream.maxId edges ≠ 256 ^ k)) :
    ¬CdlpAgrees d edges := by
  intro hagree
  obtain ⟨g, a, labels, labels', hg, -, -, -, hmem, -, -⟩ := hagree Common.mergeSort Machine.single
    Schedule.sequential Schedule.sequential (fun _ => Schedule.sequential)
    (fun _ => Schedule.sequential) (fun _ => 0) 0 1 (by norm_num) (by norm_num)
  obtain ⟨view, l, -, hl, hvertices, rfl⟩ := exists_view_of_load hg
  obtain ⟨bytes, hbytes, hlt⟩ := vertexList_lt hl
  rw [(WeightedEdgeStream.valid_ofReader _ edges hids).2.2] at hbytes
  -- the width of zero is an error
  have hm0 : WeightedEdgeStream.maxId edges ≠ 0 := by
    intro hc
    simp [CByteArray.computeBytesPerElements, hc] at hbytes
  -- the width of a power of 256 is one byte short, so that the largest vertex is not in the list
  have hpow : ∀ k, WeightedEdgeStream.maxId edges ≠ 256 ^ k := by
    intro k hk
    have hbk : bytes ≤ k := by
      have hval : Nat.clog 2 (WeightedEdgeStream.maxId edges) ⌈/⌉ 8 = bytes := by
        simpa [CByteArray.computeBytesPerElements, hm0] using hbytes
      rw [← hval, CByteArray.ceilDiv_clog_le_iff, hk]
    have hin := (hmem _).mpr (isEndpoint_maxId hm0)
    rw [log2ext_loadView, (List.perm_insertionSort _ _).mem_iff, hvertices] at hin
    have := (hlt _ hin).trans_le (Nat.pow_le_pow_right (by norm_num) hbk)
    omega
  exact h ⟨hm0, hpow⟩

end Width

/-! ## Streams whose edges leave, or reach, only the vertex `2^64 - 1` -/

section Star

namespace CSR

variable {W : Type} {ext2log : AList fun _ : ℕ => ℕ} {key other : WeightedEdge W → ℕ}
  {l : List (WeightedEdge W)}

/-- **A pass over edges of the vertex `2^64 - 1` alone** gives them to the vertex numbered zero:
the test on the identifier never succeeds, and the other intervals are empty. -/
theorem indices_of_sentinel {n u : ℕ} (hall : ∀ e ∈ l, key e = noVertex) (hu0 : 0 < u)
    (hu : u < n) :
    indices (getIntervalImpl (loadDirection ext2log n key other l).vertexArray u) = [] := by
  let P : List (WeightedEdge W) → LoadState W → Prop := fun _ s =>
    s.externalId = noVertex ∧ s.logicalId = 0 ∧ s.counts.length = n ∧
      ∀ i, 0 < i → s.counts.getD i 0 = 0
  have hend : P l (l.foldl (loadEdge ext2log key other)
      ⟨noVertex, 0, List.replicate n 0, [], []⟩) := by
    apply foldl_prefix P
    · refine ⟨rfl, rfl, by simp, fun i _ => ?_⟩
      simp [List.getD_eq_getElem?_getD, List.getElem?_replicate]
      split_ifs <;> rfl
    · rintro done e rest s heq ⟨hext, hlog, hlen, hcount⟩
      -- the test for a new vertex never succeeds, so that every edge is counted for the vertex 0
      have hkey : key e = s.externalId := by
        rw [hext]
        exact hall e (by simp [heq])
      simp only [P, loadEdge, hkey, ne_eq, not_true_eq_false, if_false]
      refine ⟨hext, hlog, by simp [hlen], fun i hi => ?_⟩
      rw [hlog, List.getD_eq_getElem?_getD, List.getElem?_set_ne (by omega),
        ← List.getD_eq_getElem?_getD]
      exact hcount i hi
  obtain ⟨-, -, hlen, hcount⟩ := hend
  set counts := (l.foldl (loadEdge ext2log key other)
    ⟨noVertex, 0, List.replicate n 0, [], []⟩).counts with hcounts
  -- the other intervals are empty
  have hsame : (prefixSums counts).getD u 0 = (prefixSums counts).getD (u - 1) 0 := by
    have hzero := hcount u hu0
    rw [getD_prefixSums (by omega), getD_prefixSums (by omega), Nat.sub_add_cancel hu0,
      List.take_add_one, List.sum_append, List.getElem?_eq_getElem (by omega)]
    rw [List.getD_eq_getElem _ _ (by omega)] at hzero
    simp [hzero]
  change indices (getIntervalImpl (prefixSums counts) u) = []
  rw [getIntervalImpl, if_neg (by omega), indices, hsame, Nat.sub_self, List.range'_zero]

/-- A pass over edges of other vertices leaves the interval of the vertex `2^64 - 1` empty. -/
theorem indices_of_absent {vertices : List ℕ} (hnum : Numbering ext2log vertices)
    (key other : WeightedEdge W → ℕ) (hmem : ∀ e ∈ l, key e ∈ vertices)
    (hsorted : l.Pairwise fun e e' => key e ≤ key e') (hne : ∀ e ∈ l, key e ≠ noVertex)
    (hx : noVertex ∈ vertices) :
    indices (getIntervalImpl (loadDirection ext2log vertices.length key other l).vertexArray
      (logical ext2log noVertex)) = [] := by
  have hgroup := loadDirection_grouped hnum key other hmem hsorted
    fun e he => hne e (List.mem_of_head? he)
  -- no edge has this end
  have hnil : groupOf ext2log key other l (logical ext2log noVertex) = [] := by
    rw [groupOf, List.map_eq_nil_iff, List.filter_eq_nil_iff]
    intro e he
    simp only [decide_eq_true_eq]
    exact fun heq => hne e he (hnum.logical_inj (hmem e he) hx heq)
  rw [hgroup.interval (hnum.logical_lt hx), indices, groupStart_succ, hnil]
  simp

/-- **The vertex `2^64 - 1` loses its edges** when all of them leave it, or all of them reach it. -/
theorem cdlpNeighbours_of_star [Zero W] {view : StreamView W} {edges : List (WeightedEdge W)}
    (h : view.Faithful edges) (hids : Ids64 edges) (hsimple : Simple edges) (hne : edges ≠ [])
    (hstar : (∀ e ∈ edges, e.source = noVertex) ∨ ∀ e ∈ edges, e.destination = noVertex)
    (d : Bool) :
    ∃ u < (loadView d view).numVertices, (loadView d view).ext u = noVertex ∧
      (loadView d view).cdlpNeighbours u = [] := by
  obtain ⟨hnum, hlen, hmem⟩ := numbering_loadDirected h d
  set g := loadDirected d view with hg
  have hsource : ∀ e ∈ edges, e.source ∈ g.log2ext := fun e he => (hmem _).mpr ⟨e, he, Or.inl rfl⟩
  have hdestination : ∀ e ∈ edges, e.destination ∈ g.log2ext := fun e he =>
    (hmem _).mpr ⟨e, he, Or.inr rfl⟩
  obtain ⟨e₀, he₀⟩ := List.exists_mem_of_ne_nil edges hne
  -- the other end of an edge is a smaller identifier
  obtain ⟨y, hy, hyne, hylt, hx⟩ : ∃ y ∈ g.log2ext, y ≠ noVertex ∧ y < 2 ^ 64 ∧
      noVertex ∈ g.log2ext := by
    have hloop := hsimple.loopless e₀ he₀
    rcases hstar with hs | hs
    · refine ⟨_, hdestination e₀ he₀, ?_, (hids e₀ he₀).2, hs e₀ he₀ ▸ hsource e₀ he₀⟩
      rw [← hs e₀ he₀]
      exact hloop.symm
    · refine ⟨_, hsource e₀ he₀, ?_, (hids e₀ he₀).1, hs e₀ he₀ ▸ hdestination e₀ he₀⟩
      rw [← hs e₀ he₀]
      exact hloop
  set u := logical g.ext2log noVertex with hu
  have hun : u < g.numVertices := hlen ▸ hnum.logical_lt hx
  have hu0 : 0 < u := by
    have hle := hnum.logical_le hy hx (by unfold noVertex; omega)
    have hneq : logical g.ext2log y ≠ u := fun heq => hyne (hnum.logical_inj hy hx heq)
    omega
  have hmem_src : ∀ e ∈ view.bySrcDst, e ∈ edges := fun e he => h.perm_src.mem_iff.mp he
  have hmem_dst : ∀ e ∈ view.byDstSrc, e ∈ edges := fun e he => h.perm_dst.mem_iff.mp he
  have hout : indices (getIntervalImpl g.outV u) = [] := by
    rcases hstar with hs | hs
    · exact indices_of_sentinel (fun e he => hs e (hmem_src e he)) hu0 hun
    · have hempty := indices_of_absent hnum WeightedEdge.source WeightedEdge.destination
        (fun e he => hsource e (hmem_src e he)) (h.sorted_src.imp fun hle => le_of_toLex_le hle)
        (fun e he => hs e (hmem_src e he) ▸ hsimple.loopless e (hmem_src e he)) hx
      rw [hlen] at hempty
      exact hempty
  have hinc : indices (getIntervalImpl g.inV u) = [] := by
    rcases hstar with hs | hs
    · have hempty := indices_of_absent hnum WeightedEdge.destination WeightedEdge.source
        (fun e he => hdestination e (hmem_dst e he))
        (h.sorted_dst.imp fun hle => le_of_toLex_le hle)
        (fun e he => hs e (hmem_dst e he) ▸ (hsimple.loopless e (hmem_dst e he)).symm) hx
      rw [hlen] at hempty
      exact hempty
    · exact indices_of_sentinel (fun e he => hs e (hmem_dst e he)) hu0 hun
  cases d with
  | true =>
    refine ⟨u, hun, ext_logical hnum hx, ?_⟩
    change g.outNeighbours u ++ g.inNeighbours u = []
    rw [outNeighbours, inNeighbours, getOutInterval, getInInterval, hout, hinc]
    rfl
  | false =>
    refine ⟨u, hun, ext_logical hnum hx, ?_⟩
    change (loadUndirected view).outNeighbours u ++ [] = []
    rw [List.append_nil, ← map_fst_outEdges, outEdges_loadUndirected hun]
    change (mergeEdges (g.outEdges u) (g.inEdges u)).map Prod.fst = []
    rw [outEdges, inEdges, getOutInterval, getInInterval, hout, hinc]
    simp [mergeEdges]

end CSR

variable {W : Type} {edges : List (WeightedEdge W)}

/-- **The specification** returns to the identifier of the vertex `2^64 - 1` after two steps. -/
theorem cdlpSpec_of_star (hne : edges ≠ []) (hloop : ∀ e ∈ edges, e.source ≠ e.destination)
    (hstar : (∀ e ∈ edges, e.source = CSR.noVertex) ∨
      ∀ e ∈ edges, e.destination = CSR.noVertex) :
    cdlpSpec edges 2 CSR.noVertex = CSR.noVertex := by
  obtain ⟨e₀, he₀⟩ := List.exists_mem_of_ne_nil edges hne
  -- every edge joins the vertex to another one
  have hcenter : ∀ x y, y ∈ neighbours edges x → (x = CSR.noVertex ↔ y ≠ CSR.noVertex) := by
    intro x y hy
    have hedge : ∀ e ∈ edges, (e.source = CSR.noVertex ↔ e.destination ≠ CSR.noVertex) := by
      intro e he
      rcases hstar with hs | hs
      · simp only [hs e he, true_iff]
        exact hs e he ▸ (hloop e he).symm
      · simp only [hs e he, ne_eq, not_true_eq_false, iff_false]
        exact hs e he ▸ hloop e he
    rcases List.mem_append.mp hy with hy | hy
    · obtain ⟨e, he, rfl⟩ := List.mem_map.mp hy
      obtain ⟨he, hx⟩ := List.mem_filter.mp he
      rw [← of_decide_eq_true hx]
      exact hedge e he
    · obtain ⟨e, he, rfl⟩ := List.mem_map.mp hy
      obtain ⟨he, hx⟩ := List.mem_filter.mp he
      rw [← of_decide_eq_true hx]
      exact (iff_not_comm.mp (hedge e he))
  have hend : WeightedEdgeStream.IsEndpoint edges CSR.noVertex := by
    rcases hstar with hs | hs
    · exact ⟨e₀, he₀, Or.inl (hs e₀ he₀).symm⟩
    · exact ⟨e₀, he₀, Or.inr (hs e₀ he₀).symm⟩
  -- the first step gives its label to all its neighbours
  have hfirst : ∀ y ∈ neighbours edges CSR.noVertex,
      propagate (neighbours edges) id y = CSR.noVertex := by
    intro y hy
    have hyne : y ≠ CSR.noVertex := (hcenter _ y hy).mp rfl
    refine leastMode_eq_of_forall ?_ fun z hz => ?_
    · simpa using neighbours_ne_nil (isEndpoint_of_mem_neighbours hy)
    · rw [List.map_id] at hz
      by_contra hzne
      exact hyne ((hcenter y z hz).mpr hzne)
  change propagate (neighbours edges) (propagate (neighbours edges) id) CSR.noVertex = _
  refine leastMode_eq_of_forall ?_ fun z hz => ?_
  · simpa using neighbours_ne_nil hend
  · obtain ⟨y, hy, rfl⟩ := List.mem_map.mp hz
    exact hfirst y hy

variable [Zero W] {d : Bool}

/-- **A stream whose edges all leave, or all reach, the vertex `2^64 - 1`**: after two iterations
the kernel gives it the label `2^63 - 1`. -/
theorem not_cdlpAgrees_of_star (hids : Ids64 edges) (hsimple : CSR.Simple edges)
    (hwidth : WeightedEdgeStream.maxId edges ≠ 0 ∧ ∀ k, WeightedEdgeStream.maxId edges ≠ 256 ^ k)
    (hstar : (∀ e ∈ edges, e.source = CSR.noVertex) ∨
      ∀ e ∈ edges, e.destination = CSR.noVertex) : ¬CdlpAgrees d edges := by
  intro hagree
  obtain ⟨g, a, labels, labels', hg, -, hrun, -, -, -, hlabels⟩ := hagree Common.mergeSort
    Machine.single Schedule.sequential Schedule.sequential (fun _ => Schedule.sequential)
    (fun _ => Schedule.sequential) (fun _ => 0) 2 3 (by norm_num) (by norm_num)
  obtain ⟨view, hview, hfaithful⟩ := CSR.exists_faithful_load Common.mergeSort Machine.single d hids
    hwidth
  obtain rfl : CSR.loadView d view = g := Except.ok.inj (hview.symm.trans hg)
  have hne : edges ≠ [] := by
    rintro rfl
    exact hwidth.1 rfl
  obtain ⟨u, hu, hext, hnil⟩ := CSR.cdlpNeighbours_of_star hfaithful hids hsimple hne hstar d
  -- the scan of an empty histogram keeps its initial value
  obtain ⟨labels₂, hrun₂, hlabels₂⟩ := CSR.doCdlp_of_label (g := CSR.loadView d view)
    Schedule.sequential (fun _ => Schedule.sequential) (fun _ => 0) (D := fun v => v = u)
    (fun v hv => hv ▸ hu) (f := fun _ _ => 2 ^ 63 - 1) (fun _ _ _ _ _ => rfl)
    (fun i L v hv => by
      subst hv
      simp only [CSR.cdlpLabel, hnil]
      rfl) (by norm_num : 2 < 3)
  rw [hrun] at hrun₂
  obtain rfl := Option.some.inj hrun₂
  have hspec := (hlabels u hu).1
  rw [hext, cdlpSpec_of_star hne hsimple.loopless hstar, hlabels₂ u rfl] at hspec
  simp [CSR.noVertex] at hspec

end Star

/-! ## The streams on which the kernels agree -/

section Exact

variable {W : Type} [Zero W] {edges : List (WeightedEdge W)} {d : Bool}

theorem ids64_singleton {e : WeightedEdge ℕ} (h : e.source < 2 ^ 64 ∧ e.destination < 2 ^ 64) :
    Ids64 [e] := by
  simpa [Ids64] using h

theorem simple_singleton {e : WeightedEdge ℕ} (h : e.source ≠ e.destination) :
    CSR.Simple [e] :=
  ⟨by simpa using h, List.pairwise_singleton _ _⟩

/-- An odd number above one is not a power of `256`. -/
theorem odd_ne_pow {m : ℕ} (hodd : m % 2 = 1) (hm : 1 < m) (k : ℕ) : m ≠ 256 ^ k := by
  rintro rfl
  rcases Nat.eq_zero_or_pos k with rfl | hpos
  · exact lt_irrefl 1 hm
  · have hdvd : 2 ∣ 256 ^ k := Dvd.dvd.trans (by norm_num) (dvd_pow_self 256 hpos.ne')
    omega

end Exact

end GfeDriver
