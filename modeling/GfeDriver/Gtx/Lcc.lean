import GfeDriver.Foundation.FreshArray
import GfeDriver.Baseline.CsrLcc
import GfeDriver.Gtx.BfsRefinement

/-!
# Local clustering coefficients on a snapshot of GTX

The kernel of the GTX driver is the one of the compressed sparse row library on the identifiers from
`1` to `max_vertex_id`. Its two arrays have `max_vertex_id` elements, and the element of an
identifier `v` is at the position `v`. The degree of an identifier without a vertex is compared with
`UINT32_MAX`, a mark that is not set. The translation takes the score of `v` from the position
`v - 1`.

The loops over the edges visit each neighbour once. The counters of the triangles are natural
numbers, the scores exact rationals, and no timeout fires.

## Main definitions

* `doLccUndirected`, `lcc`: the kernel, and the lines of the results
* `lccScore`: the coefficient that the iteration of a vertex computes
* `LccCorrect`: the lines give the coefficients of the vertices

## Main results

* `lccScore_rows`, `lccScore_eq`: the coefficient is the one of the other library, and the share of
  the pairs of neighbours that are edges
* `doLccUndirected_scores`: the kernel with larger arrays, when all the identifiers have a vertex
* `lccWith_eq_none`: no size of the arrays makes the results right
* `lccCorrect_iff`: the snapshots with the right results
-/

namespace GfeDriver

namespace Gtx

open Foundation

/-- `numeric_limits<uint32_t>::max()`. -/
def uint32Max : ℕ := 2 ^ 32 - 1

/-- A score of type `double`: a number, or the values of `numeric_limits<double>`. -/
inductive Score
  | finite (x : ℚ)
  | signalingNaN
  | max
  deriving DecidableEq

namespace Snapshot

/-! ## The kernel -/

section Kernel

variable (t : Snapshot)

/-- The arrays of `do_lcc_undirected`. -/
structure LccArrays where
  lcc : FreshArray Score
  degreesOut : FreshArray ℕ

/-- An iteration of the loop over the degrees. -/
def initDegree (s : LccArrays) (v : ℕ) : Option LccArrays := do
  if (t.vertex v).isNone then
    let lcc ← s.lcc.write v .signalingNaN
    some { s with lcc }
  else
    let degreesOut ← s.degreesOut.write v ((t.edges v).length % 2 ^ 32)
    some { s with degreesOut }

/-- The neighbours of the neighbours of `v` that are in the hash set of the neighbours of `v`. -/
def countTriangles (v : ℕ) : ℕ :=
  let neighbours := (t.edges v).toFinset
  (t.edges v).foldl (fun numTriangles u =>
    (t.edges u).foldl (fun numTriangles w =>
      if w ∈ neighbours then numTriangles + 1 else numTriangles) numTriangles) 0

/-- An iteration of the loop over the scores. -/
def scoreVertex (s : LccArrays) (v : ℕ) : Option LccArrays := do
  let degree ← s.degreesOut.read v
  if degree = uint32Max then some s
  else
    let lcc ← s.lcc.write v (.finite 0)
    if degree < 2 then some { s with lcc }
    else
      let lcc ← lcc.write v (.finite ((t.countTriangles v : ℚ) / (degree * (degree - 1) : ℕ)))
      some { s with lcc }

/-- `do_lcc_undirected`, with arrays of `size` elements. -/
def doLccUndirected (sched : Schedule ℕ) (size : ℕ) : Option (FreshArray Score) := do
  let s ← (sched.order 0 t.ids).foldlM t.initDegree ⟨.allocate Score size, .allocate ℕ size⟩
  let s ← (sched.order 1 t.ids).foldlM t.scoreVertex s
  some s.lcc

/-! ## The results -/

/-- The body of the loop of `translate`, for scores. -/
def translateScore (data : FreshArray Score) (logicalId : ℕ) : Option (ℕ × Score) :=
  match t.vertex logicalId with
  | none => some (uint64Max, .max)
  | some payload => (data.read (logicalId - 1)).map fun score => (payload, score)

/-- The line of a pair in `save_results`, unless it is skipped. -/
def saveScore (p : ℕ × Score) : Option (ℕ × Score) := if p.1 = uint64Max then none else some p

/-- `lcc`, with arrays of `size` elements: the lines of the file. -/
def lccWith (sched : Schedule ℕ) (size : ℕ) : Option (List (ℕ × Score)) := do
  let scores ← t.doLccUndirected sched size
  let externalIds ← t.ids.mapM (t.translateScore scores)
  some (externalIds.filterMap saveScore)

/-- `lcc`. -/
def lcc (sched : Schedule ℕ) : Option (List (ℕ × Score)) := t.lccWith sched t.maxVertexId

instance : DecidableRel t.Arc := fun u v => inferInstanceAs (Decidable (v ∈ t.edges u))

/-- **The results are right**: no access is outside of an array or to an element without a value,
and there is a line for each vertex, with the share of the pairs of its neighbours that are
edges. -/
def LccCorrect (sched : Schedule ℕ) : Prop :=
  ∃ lines, t.lcc sched = some lines ∧ List.Forall₂ (fun u line =>
    t.vertex u = some line.1 ∧ line.2 = .finite (linkedScore (t.edges u).toFinset t.Arc))
    t.existing lines

end Kernel

/-! ## The coefficients -/

section Coefficient

variable {t : Snapshot}

/-- The coefficient that the iteration of a vertex computes. -/
def lccScore (t : Snapshot) (v : ℕ) : ℚ :=
  if (t.edges v).length < 2 then 0
  else (t.countTriangles v : ℚ) / ((t.edges v).length * ((t.edges v).length - 1) : ℕ)

theorem countTriangles_eq_sum (t : Snapshot) (v : ℕ) :
    t.countTriangles v = ((t.edges v).map fun u =>
      (t.edges u).countP fun w => w ∈ (t.edges v).toFinset).sum := by
  unfold countTriangles
  simp only [CSR.foldl_count]
  exact foldl_add ..

/-- The triangles on the rows of the snapshot. -/
theorem countTriangles_rows (ht : t.WellFormed) {i : ℕ} (hi : i < t.maxVertexId) :
    t.rows.countTriangles i = t.countTriangles (i + 1) := by
  rw [countTriangles_eq_sum, CSR.countTriangles_eq_sum, outNeighbours_rows hi, List.map_map]
  refine congrArg List.sum (List.map_congr_left fun u hu => ?_)
  have hrange := ht.edge_range hu
  have hneighbours : t.rows.outNeighbours (u - 1) = (t.edges u).map fun w => w - 1 := by
    rw [outNeighbours_rows (by omega), Nat.sub_add_cancel hrange.1]
  rw [Function.comp_apply, hneighbours, List.countP_map]
  refine List.countP_congr fun w hw => ?_
  simp only [Function.comp_apply, decide_eq_true_eq, List.mem_toFinset]
  rw [mem_neighbours_iff ht, Nat.sub_add_cancel (ht.edge_range hw).1]

/-- **The coefficient is that of `CSR::do_lcc_undirected`** on the rows of the snapshot. -/
theorem lccScore_rows (ht : t.WellFormed) {i : ℕ} (hi : i < t.maxVertexId) :
    t.lccScore (i + 1) = t.rows.doLccUndirected i := by
  have hdegree : t.rows.getOutDegree i = (t.edges (i + 1)).length := by
    rw [← CSR.length_outNeighbours, outNeighbours_rows hi, List.length_map]
  simp only [lccScore, CSR.doLccUndirected, hdegree, countTriangles_rows ht hi]

/-- **The coefficient is the share of the pairs of neighbours that are edges**. -/
theorem lccScore_eq (ht : t.WellFormed) (hloop : ∀ u, ¬t.Arc u u) (v : ℕ) :
    t.lccScore v = linkedScore (t.edges v).toFinset t.Arc := by
  have hcard : (t.edges v).toFinset.card = (t.edges v).length :=
    List.toFinset_card_of_nodup (ht.nodup v)
  have hpairs : t.countTriangles v = (linkedPairs (t.edges v).toFinset t.Arc).card := by
    rw [countTriangles_eq_sum, card_linkedPairs, ← List.sum_toFinset _ (ht.nodup v)]
    -- for each neighbour, the neighbours that the two have in common
    refine Finset.sum_congr rfl fun u _ => ?_
    rw [List.countP_eq_length_filter, ← List.toFinset_card_of_nodup ((ht.nodup u).filter _)]
    congr 1
    ext w
    simp only [List.mem_toFinset, List.mem_filter, Finset.mem_filter, decide_eq_true_eq]
    constructor
    · rintro ⟨hw, hv⟩
      exact ⟨hv, fun huw => hloop u (huw ▸ hw), hw⟩
    · rintro ⟨hv, -, hw⟩
      exact ⟨hw, hv⟩
  rw [lccScore, linkedScore, hcard, hpairs]

end Coefficient

/-! ## The arrays -/

section Arrays

variable {t : Snapshot} {s s' : LccArrays} {v : ℕ}

/-- What an iteration of the loop over the degrees writes. -/
theorem initDegree_cases (h : t.initDegree s v = some s') :
    (t.vertex v = none ∧ ∃ lcc, s.lcc.write v .signalingNaN = some lcc ∧ s' = { s with lcc }) ∨
      ((t.vertex v).isSome ∧ ∃ degreesOut,
        s.degreesOut.write v ((t.edges v).length % 2 ^ 32) = some degreesOut ∧
          s' = { s with degreesOut }) := by
  unfold initDegree at h
  cases hv : t.vertex v with
  | none =>
    rw [hv] at h
    obtain ⟨lcc, hwrite, hs'⟩ := Option.bind_eq_some_iff.mp h
    exact Or.inl ⟨rfl, lcc, hwrite, (Option.some.inj hs').symm⟩
  | some payload =>
    rw [hv] at h
    obtain ⟨degreesOut, hwrite, hs'⟩ := Option.bind_eq_some_iff.mp h
    exact Or.inr ⟨rfl, degreesOut, hwrite, (Option.some.inj hs').symm⟩

/-- What an iteration of the loop over the scores reads and writes. -/
theorem scoreVertex_cases (h : t.scoreVertex s v = some s') :
    (s.degreesOut.read v).isSome ∧ s'.degreesOut = s.degreesOut ∧
      ∀ j ≠ v, s'.lcc.cells j = s.lcc.cells j := by
  unfold scoreVertex at h
  obtain ⟨degree, hread, h⟩ := Option.bind_eq_some_iff.mp h
  refine ⟨by rw [hread]; rfl, ?_⟩
  split_ifs at h with hmark hlt
  · obtain rfl := Option.some.inj h
    exact ⟨rfl, fun _ _ => rfl⟩
  · obtain ⟨lcc, hwrite, hs'⟩ := Option.bind_eq_some_iff.mp h
    obtain rfl := Option.some.inj hs'
    refine ⟨rfl, fun j hj => ?_⟩
    rw [FreshArray.cells_of_write hwrite, if_neg hj]
  · obtain ⟨lcc, hwrite, h⟩ := Option.bind_eq_some_iff.mp h
    obtain ⟨lcc', hwrite', hs'⟩ := Option.bind_eq_some_iff.mp h
    obtain rfl := Option.some.inj hs'
    refine ⟨rfl, fun j hj => ?_⟩
    rw [FreshArray.cells_of_write hwrite', if_neg hj, FreshArray.cells_of_write hwrite, if_neg hj]

theorem mem_ids : v ∈ t.ids ↔ 1 ≤ v ∧ v ≤ t.maxVertexId := by
  rw [ids, List.mem_range'_1]
  omega

/-- **The kernel writes outside of arrays** of `max_vertex_id` elements or fewer. -/
theorem doLccUndirected_eq_none (hmax : 1 ≤ t.maxVertexId) {size : ℕ} (hsize : size ≤ t.maxVertexId)
    (sched : Schedule ℕ) : t.doLccUndirected sched size = none := by
  refine Option.eq_none_iff_forall_not_mem.mpr fun scores hscores => ?_
  obtain ⟨s₁, hdegrees, -⟩ := Option.bind_eq_some_iff.mp hscores
  obtain ⟨-, hall⟩ := foldlM_invariant
    (fun s : LccArrays => s.lcc.size = size ∧ s.degreesOut.size = size) ⟨rfl, rfl⟩
    (fun v _ s s' hs h => by
      rcases initDegree_cases h with ⟨-, lcc, hwrite, rfl⟩ | ⟨-, degreesOut, hwrite, rfl⟩
      · exact ⟨(FreshArray.size_of_write hwrite).trans hs.1, hs.2⟩
      · exact ⟨hs.1, (FreshArray.size_of_write hwrite).trans hs.2⟩) hdegrees
  -- the iteration of the last identifier
  obtain ⟨s, s', hs, hlast⟩ := hall t.maxVertexId
    ((sched.mem_order ..).mpr (mem_ids.mpr ⟨hmax, le_refl _⟩))
  rcases initDegree_cases hlast with ⟨-, lcc, hwrite, -⟩ | ⟨-, degreesOut, hwrite, -⟩
  · rw [FreshArray.write_of_ge (hs.1.trans_le hsize)] at hwrite
    cases hwrite
  · rw [FreshArray.write_of_ge (hs.2.trans_le hsize)] at hwrite
    cases hwrite

/-- The elements that no iteration writes: the score at `0`, and the degree of an identifier without
a vertex. -/
structure Unwritten (t : Snapshot) (s : LccArrays) : Prop where
  lcc : s.lcc.cells 0 = none
  degreesOut : ∀ u, t.vertex u = none → s.degreesOut.cells u = none

theorem Unwritten.initDegree (hs : Unwritten t s) (hv : 1 ≤ v) (h : t.initDegree s v = some s') :
    Unwritten t s' := by
  rcases initDegree_cases h with ⟨-, lcc, hwrite, rfl⟩ | ⟨hex, degreesOut, hwrite, rfl⟩
  · refine ⟨?_, hs.degreesOut⟩
    rw [FreshArray.cells_of_write hwrite, if_neg (by omega)]
    exact hs.lcc
  · refine ⟨hs.lcc, fun u hu => ?_⟩
    have huv : u ≠ v := by
      rintro rfl
      simp [hu] at hex
    rw [FreshArray.cells_of_write hwrite, if_neg huv]
    exact hs.degreesOut u hu

theorem Unwritten.scoreVertex (hs : Unwritten t s) (hv : 1 ≤ v)
    (h : t.scoreVertex s v = some s') : Unwritten t s' := by
  obtain ⟨-, hdegrees, hcells⟩ := scoreVertex_cases h
  refine ⟨(hcells 0 (by omega)).trans hs.lcc, fun u hu => ?_⟩
  rw [hdegrees]
  exact hs.degreesOut u hu

/-- A kernel that runs to its end finds a vertex for each identifier, and leaves the first score
without a value. -/
theorem doLccUndirected_cases {sched : Schedule ℕ} {size : ℕ} {scores : FreshArray Score}
    (h : t.doLccUndirected sched size = some scores) :
    (∀ v ∈ t.ids, (t.vertex v).isSome) ∧ scores.read 0 = none := by
  obtain ⟨s₁, hdegrees, h⟩ := Option.bind_eq_some_iff.mp h
  obtain ⟨s₂, hscores, hs₂⟩ := Option.bind_eq_some_iff.mp h
  obtain rfl := Option.some.inj hs₂
  have hpos : ∀ t', ∀ v ∈ sched.order t' t.ids, 1 ≤ v := fun t' v hv =>
    (mem_ids.mp ((sched.mem_order ..).mp hv)).1
  obtain ⟨hs₁, -⟩ := foldlM_invariant (Unwritten t) ⟨rfl, fun _ _ => rfl⟩
    (fun v hv _ _ hs h => hs.initDegree (hpos 0 v hv) h) hdegrees
  obtain ⟨hs₂, hall⟩ := foldlM_invariant (Unwritten t) hs₁
    (fun v hv _ _ hs h => hs.scoreVertex (hpos 1 v hv) h) hscores
  refine ⟨fun v hv => ?_, FreshArray.read_eq_none hs₂.lcc⟩
  by_contra hmissing
  obtain ⟨s, s', hs, hscore⟩ := hall v ((sched.mem_order ..).mpr hv)
  have hread := (scoreVertex_cases hscore).1
  rw [FreshArray.read_eq_none (hs.degreesOut v (Option.not_isSome_iff_eq_none.mp hmissing))]
    at hread
  cases hread

/-- **No size of the arrays makes the results right**: the kernel reads the degree of an identifier
without a vertex, and with a vertex for each identifier the translation reads the first score. -/
theorem lccWith_eq_none (hmax : 1 ≤ t.maxVertexId) (sched : Schedule ℕ) (size : ℕ) :
    t.lccWith sched size = none := by
  refine Option.eq_none_iff_forall_not_mem.mpr fun lines hlines => ?_
  obtain ⟨scores, hscores, h⟩ := Option.bind_eq_some_iff.mp hlines
  obtain ⟨externalIds, htranslate, -⟩ := Option.bind_eq_some_iff.mp h
  obtain ⟨hall, hzero⟩ := doLccUndirected_cases hscores
  have hone : 1 ∈ t.ids := mem_ids.mpr ⟨le_refl 1, hmax⟩
  obtain ⟨payload, hpayload⟩ := Option.isSome_iff_exists.mp (hall 1 hone)
  have hpair : t.translateScore scores 1 = none := by
    simp only [translateScore, hpayload, hzero, Option.map_none]
  -- the first pair of the translation
  obtain ⟨n, hn⟩ := Nat.exists_eq_add_of_le' hmax
  rw [ids, hn, List.range'_succ, List.mapM_cons, hpair] at htranslate
  cases htranslate

/-! ## The kernel with larger arrays -/

/-- The arrays hold the degrees of some identifiers. -/
structure HoldsDegrees (t : Snapshot) (size : ℕ) (ids : List ℕ) (s : LccArrays) : Prop where
  lcc_size : s.lcc.size = size
  degrees_size : s.degreesOut.size = size
  degrees : ∀ v ∈ ids, s.degreesOut.cells v = some (t.edges v).length

theorem HoldsDegrees.initDegree {size : ℕ} {ids : List ℕ} (hs : HoldsDegrees t size ids s)
    (hlt : v < size) (hex : (t.vertex v).isSome) (hdegree : (t.edges v).length < 2 ^ 32) :
    ∃ s', t.initDegree s v = some s' ∧ HoldsDegrees t size (ids ++ [v]) s' := by
  obtain ⟨degreesOut, hwrite, hsize, hcells⟩ := FreshArray.exists_write
    (a := s.degreesOut) (hs.degrees_size.symm ▸ hlt) ((t.edges v).length % 2 ^ 32)
  have hnone : ¬(t.vertex v).isNone = true := by
    rw [Option.isNone_eq_false_iff.mpr hex]
    exact Bool.false_ne_true
  refine ⟨{ s with degreesOut }, ?_, hs.lcc_size, hsize.trans hs.degrees_size, fun u hu => ?_⟩
  · rw [Snapshot.initDegree, if_neg hnone, hwrite]
    rfl
  · show degreesOut.cells u = _
    rw [hcells]
    split_ifs with huv
    · rw [huv, Nat.mod_eq_of_lt hdegree]
    · exact hs.degrees u ((List.mem_append.mp hu).resolve_right (by simpa using huv))

/-- **An iteration of the loop over the scores** writes the coefficient of the vertex. -/
theorem exists_scoreVertex (hlt : v < s.lcc.size)
    (hread : s.degreesOut.read v = some (t.edges v).length)
    (hdegree : (t.edges v).length ≠ uint32Max) :
    ∃ lcc : FreshArray Score, t.scoreVertex s v = some { s with lcc } ∧ lcc.size = s.lcc.size ∧
      ∀ u, lcc.cells u = if u = v then some (.finite (t.lccScore v)) else s.lcc.cells u := by
  obtain ⟨lcc, hwrite, hsize, hcells⟩ := FreshArray.exists_write hlt (Score.finite 0)
  by_cases htwo : (t.edges v).length < 2
  · refine ⟨lcc, ?_, hsize, fun u => ?_⟩
    · rw [scoreVertex, hread]
      show (if _ then _ else _) = _
      rw [if_neg hdegree, hwrite]
      exact if_pos htwo
    · rw [hcells, lccScore, if_pos htwo]
  · obtain ⟨lcc', hwrite', hsize', hcells'⟩ := FreshArray.exists_write (hsize.symm ▸ hlt)
      (Score.finite (t.lccScore v))
    refine ⟨lcc', ?_, hsize'.trans hsize, fun u => ?_⟩
    · rw [lccScore, if_neg htwo] at hwrite'
      rw [scoreVertex, hread]
      show (if _ then _ else _) = _
      rw [if_neg hdegree, hwrite]
      show (if _ then _ else _) = _
      rw [if_neg htwo, hwrite']
      rfl
    · rw [hcells', hcells]
      split_ifs <;> rfl

/-- The arrays hold the degrees of the identifiers, and the scores of some of them. -/
structure HoldsScores (t : Snapshot) (size : ℕ) (ids : List ℕ) (s : LccArrays) : Prop where
  degrees : HoldsDegrees t size t.ids s
  scores : ∀ v ∈ ids, s.lcc.cells v = some (.finite (t.lccScore v))

theorem HoldsScores.scoreVertex {size : ℕ} {ids : List ℕ} (hs : HoldsScores t size ids s)
    (hlt : v < size) (hv : v ∈ t.ids) (hdegree : (t.edges v).length ≠ uint32Max) :
    ∃ s', t.scoreVertex s v = some s' ∧ HoldsScores t size (ids ++ [v]) s' := by
  have hread : s.degreesOut.read v = some (t.edges v).length :=
    FreshArray.read_of_cells (hs.degrees.degrees_size.symm ▸ hlt) (hs.degrees.degrees v hv)
  obtain ⟨lcc, hscore, hsize, hcells⟩ :=
    exists_scoreVertex (hs.degrees.lcc_size.symm ▸ hlt) hread hdegree
  refine ⟨_, hscore, ⟨hsize.trans hs.degrees.lcc_size, hs.degrees.degrees_size,
    hs.degrees.degrees⟩, fun u hu => ?_⟩
  show lcc.cells u = _
  rw [hcells]
  split_ifs with huv
  · rw [huv]
  · exact hs.scores u ((List.mem_append.mp hu).resolve_right (by simpa using huv))

/-- **The kernel with larger arrays**: when all the identifiers have a vertex, the element at each
identifier is the coefficient of its vertex. -/
theorem doLccUndirected_scores (hall : ∀ v ∈ t.ids, (t.vertex v).isSome)
    (hdegree : ∀ v, (t.edges v).length < uint32Max) {size : ℕ} (hsize : t.maxVertexId < size)
    (sched : Schedule ℕ) :
    ∃ scores, t.doLccUndirected sched size = some scores ∧
      ∀ v ∈ t.ids, scores.read v = some (.finite (t.lccScore v)) := by
  have hlt : ∀ v ∈ t.ids, v < size := fun v hv => (mem_ids.mp hv).2.trans_lt hsize
  have hmem : ∀ (k : ℕ) {v : ℕ} {done rest : List ℕ}, sched.order k t.ids = done ++ v :: rest →
      v ∈ t.ids := by
    intro k v done rest hl
    rw [← sched.mem_order k, hl]
    exact List.mem_append_right _ List.mem_cons_self
  obtain ⟨s₁, hdegrees, hs₁⟩ := foldlM_prefix (l := sched.order 0 t.ids)
    (HoldsDegrees t size)
    (⟨rfl, rfl, fun v hv => absurd hv List.not_mem_nil⟩ :
      HoldsDegrees t size [] ⟨.allocate Score size, .allocate ℕ size⟩)
    fun done v rest s hl hs => hs.initDegree (hlt v (hmem 0 hl)) (hall v (hmem 0 hl))
      ((hdegree v).trans (by norm_num [uint32Max]))
  have hs₁ : HoldsDegrees t size t.ids s₁ := ⟨hs₁.lcc_size, hs₁.degrees_size,
    fun v hv => hs₁.degrees v ((sched.mem_order ..).mpr hv)⟩
  obtain ⟨s₂, hscores, hs₂⟩ := foldlM_prefix (l := sched.order 1 t.ids)
    (HoldsScores t size)
    (⟨hs₁, fun v hv => absurd hv List.not_mem_nil⟩ : HoldsScores t size [] s₁)
    fun done v rest s hl hs => hs.scoreVertex (hlt v (hmem 1 hl)) (hmem 1 hl) (hdegree v).ne
  refine ⟨s₂.lcc, ?_, fun v hv => ?_⟩
  · rw [doLccUndirected, hdegrees, Option.bind_eq_bind, Option.bind_some, hscores]
    rfl
  · exact FreshArray.read_of_cells (hs₂.degrees.lcc_size.symm ▸ hlt v hv)
      (hs₂.scores v ((sched.mem_order ..).mpr hv))

/-- **The results are right** exactly when no identifier was handed out. -/
theorem lccCorrect_iff (t : Snapshot) (sched : Schedule ℕ) :
    t.LccCorrect sched ↔ t.maxVertexId = 0 := by
  constructor
  · rintro ⟨lines, hlines, -⟩
    by_contra hmax
    rw [lcc, lccWith_eq_none (Nat.one_le_iff_ne_zero.mpr hmax)] at hlines
    cases hlines
  · intro hmax
    have hids : t.ids = [] := by rw [ids, hmax, List.range'_zero]
    have horder : ∀ k, sched.order k t.ids = [] := fun k => by
      rw [hids]
      exact (sched.perm k []).eq_nil
    refine ⟨[], ?_, ?_⟩
    · rw [lcc, lccWith, doLccUndirected, horder, horder, hids]
      rfl
    · rw [existing, hids]
      exact List.Forall₂.nil

end Arrays

/-- Two adjacent vertices, with the identifiers `1` and `2`. -/
def edgeSnapshot : Snapshot where
  maxVertexId := 2
  vertex u := if u = 1 ∨ u = 2 then some (10 * u) else none
  edges u := if u = 1 then [2] else if u = 2 then [1] else []
  degree u := if u = 1 ∨ u = 2 then 1 else 0

/-- The kernel accesses the elements at `2` of its arrays of two elements. -/
theorem not_lccCorrect_edge : ¬edgeSnapshot.LccCorrect Schedule.sequential := by
  rintro ⟨lines, hlines, -⟩
  have hkernel : edgeSnapshot.doLccUndirected Schedule.sequential 2 = none := rfl
  rw [lcc, lccWith, show edgeSnapshot.maxVertexId = 2 from rfl, hkernel] at hlines
  cases hlines

end Snapshot

end Gtx

end GfeDriver
