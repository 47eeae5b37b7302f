import GfeDriver.Foundation.BinarySearch
import GfeDriver.Foundation.Loop
import GfeDriver.Foundation.Triangles

/-!
# The clustering coefficients of Stinger

`lcc_count_triangles` gathers the neighbours of a vertex, sorts them with `qsort`, and searches them
by halving for the neighbours of each. The comparator `compare` takes the difference of two internal
ids and returns it as an `int`. The internal ids are below `2 ^ 32`, and the difference of two of
them changes its sign on the way to an `int` when it is `2 ^ 31` or more. Then the list is sorted in
another order than the one of the search.

## Main definitions

* `compare`, `binsearch`: the comparator and the search
* `LccGraph`: what the kernel reads of a graph
* `lccCountIntersections`, `lccCountTriangles`: the kernel
* `SearchesAll`, `CountsTriangles`: what the kernel is for

## Main results

* `agreesWith_compare_iff`: when the comparator is consistent with the order of the ids
* `binsearch_eq`: the search of a sorted list
* `searchesAll_iff`, `countsTriangles`, `lccCoefficient_eq`: neighbours whose ids are closer than
  `2 ^ 31`
* `lccFindsAll_iff`: no others are searched right
-/

namespace GfeDriver

namespace Stinger

open Foundation

/-! ## The program -/

/-- `compare`: the 64-bit difference is returned as a 32-bit `int`. -/
def compare (a b : ℤ) : ℤ := ((a - b).bmod (2 ^ 64)).bmod (2 ^ 32)

/-- An element of an array. An access outside of it fails. -/
def readAt (vs : List ℤ) (i : ℤ) : Option ℤ := if 0 ≤ i then vs[i.toNat]? else none

/-- The loop of `binsearch`. -/
def binsearchLoop (vs : List ℤ) (vertex3 : ℤ) : ℕ → ℤ → ℤ → ℤ → Option Bool
  | 0, _, _, _ => none
  | fuel + 1, first, last, middle =>
    if first ≤ last then
      (readAt vs middle).bind fun v =>
        if v < vertex3 then
          binsearchLoop vs vertex3 fuel (middle + 1) last ((middle + 1 + last).tdiv 2)
        else if v = vertex3 then some true
        else binsearchLoop vs vertex3 fuel first (middle - 1) ((first + (middle - 1)).tdiv 2)
    else some false

/-- `binsearch`. -/
def binsearch (fuel : ℕ) (vs : List ℤ) (vertex3 : ℤ) : Option Bool :=
  binsearchLoop vs vertex3 fuel 0 (vs.length - 1) ((0 + ((vs.length : ℤ) - 1)).tdiv 2)

/-- What the kernel reads of a graph: the types of the vertices, their degrees, and the vertices at
the other ends of all their edges and of the outgoing ones. -/
structure LccGraph where
  vtype : ℤ → ℕ
  degree : ℤ → ℕ
  edges : ℤ → List ℤ
  outEdges : ℤ → List ℤ

/-- `lcc_count_intersections`. An assertion that does not hold fails. -/
def lccCountIntersections (g : LccGraph) (fuel : ℕ) (vertex1 vertex2 : ℤ) (vs : List ℤ) :
    Option ℕ :=
  if vs.length = 0 then none
  else (g.outEdges vertex2).foldlM (fun out dest =>
    if dest ≠ vertex1 then (binsearch fuel vs dest).map fun found => out + found.toNat
    else some out) 0

/-- `Stinger::lcc_count_triangles`. An assertion that does not hold fails. -/
def lccCountTriangles (qsort : (ℤ → ℤ → ℤ) → List ℤ → List ℤ) (g : LccGraph) (fuel : ℕ)
    (vertexId : ℤ) : Option ℕ :=
  let gathered := (g.edges vertexId).take (g.degree vertexId)
  if g.vtype vertexId ≠ 0 ∨ gathered.length ≠ g.degree vertexId then none
  else
    let neighbours := qsort compare gathered
    (g.edges vertexId).foldlM (fun out dest =>
      if dest ≠ vertexId then
        (lccCountIntersections g fuel vertexId dest neighbours).map (out + ·)
      else some out) 0

/-- The coefficient of a vertex in `Stinger::lcc`: it is not computed when the vertex is marked for
deletion. -/
def lccCoefficient (qsort : (ℤ → ℤ → ℤ) → List ℤ → List ℤ) (g : LccGraph) (fuel : ℕ) (v : ℤ) :
    Option ℚ :=
  if g.vtype v = 1 then some 0
  else
    let degree := g.degree v
    if 2 ≤ degree then
      (lccCountTriangles qsort g fuel v).map fun (numTriangles : ℕ) =>
        (numTriangles : ℚ) / (degree * (degree - 1) : ℕ)
    else some 0

/-! ## The specification -/

/-- **A simple undirected graph**: each edge is stored at both of its ends, and no vertex is marked
for deletion. The internal ids are below the capacity of the constructor. -/
structure LccGraph.SimpleUndirected (g : LccGraph) : Prop where
  active : ∀ v, g.vtype v = 0
  degree_eq : ∀ v, g.degree v = (g.edges v).length
  nodup : ∀ v, (g.edges v).Nodup
  out_perm : ∀ v, (g.outEdges v).Perm (g.edges v)
  symm : ∀ u v, v ∈ g.edges u → u ∈ g.edges v
  loopless : ∀ v, v ∉ g.edges v
  range : ∀ u, ∀ v ∈ g.edges u, 0 ≤ v ∧ v < 2 ^ 32

/-- **The search after the sort**: the comparator is consistent with the order of the ids, and the
search finds what is in the list, within its bounds. -/
def SearchesAll (qsort : (ℤ → ℤ → ℤ) → List ℤ → List ℤ) (l : List ℤ) : Prop :=
  AgreesWith compare (· < ·) l ∧
    ∀ x, ∃ k, ∀ fuel, k ≤ fuel → binsearch fuel (qsort compare l) x = some (decide (x ∈ l))

/-- **The count**: the ordered pairs of adjacent neighbours. -/
def CountsTriangles (qsort : (ℤ → ℤ → ℤ) → List ℤ → List ℤ) (g : LccGraph) (v : ℤ) : Prop :=
  ∃ k, ∀ fuel, k ≤ fuel → lccCountTriangles qsort g fuel v =
    some (linkedPairs (g.edges v).toFinset fun u w => w ∈ g.edges u).card

/-- The ids are closer than `2 ^ 31`. -/
def Close (l : List ℤ) : Prop := ∀ a ∈ l, ∀ b ∈ l, a - b < 2 ^ 31

/-! ## The comparator -/

/-- **The comparator** on ids below the capacity. -/
theorem compare_eq {a b : ℤ} (ha : 0 ≤ a ∧ a < 2 ^ 32) (hb : 0 ≤ b ∧ b < 2 ^ 32) :
    compare a b = if 2 ^ 31 ≤ a - b then a - b - 2 ^ 32
      else if a - b < -2 ^ 31 then a - b + 2 ^ 32 else a - b := by
  have hwide : (a - b).bmod (2 ^ 64) = a - b := by
    apply Int.bmod_eq_of_le <;> omega
  rw [compare, hwide, Int.bmod_def]
  split_ifs <;> omega

/-- **The comparator is consistent** with the order of the ids exactly when they are close. -/
theorem agreesWith_compare_iff {l : List ℤ} (hl : ∀ a ∈ l, 0 ≤ a ∧ a < 2 ^ 32) :
    AgreesWith compare (· < ·) l ↔ Close l := by
  constructor
  · intro h a ha b hb
    by_contra hfar
    have hlt : compare a b < 0 := by
      rw [compare_eq (hl a ha) (hl b hb), if_pos (not_lt.mp hfar)]
      have := (hl a ha).2
      have := (hl b hb).1
      omega
    have := (h a ha b hb).1.mp hlt
    omega
  · intro h a ha b hb
    have hab := h a ha b hb
    have hba := h b hb a ha
    rw [compare_eq (hl a ha) (hl b hb), if_neg (by omega), if_neg (by omega)]
    exact ⟨by omega, by omega⟩

/-! ## The search -/

theorem readAt_of_nonneg (vs : List ℤ) {i : ℤ} (hi : 0 ≤ i) : readAt vs i = vs[i.toNat]? :=
  if_pos hi

/-- The loop from a window. -/
theorem binsearchLoop_eq {vs : List ℤ} (hvs : vs.Pairwise (· ≤ ·)) {x : ℤ} (fuel : ℕ)
    {first last : ℤ} (h : Window vs x first last) (hfuel : last + 1 - first < fuel) :
    binsearchLoop vs x fuel first last ((first + last).tdiv 2) = some (decide (x ∈ vs)) := by
  induction fuel generalizing first last with
  | zero =>
    have := h.le
    omega
  | succ fuel ih =>
    rw [binsearchLoop]
    by_cases hle : first ≤ last
    · have hnonneg := h.nonneg
      have hmiddle : (first + last).tdiv 2 = (first + last) / 2 :=
        Int.tdiv_eq_ediv_of_nonneg (by omega)
      have hfirst : first ≤ (first + last).tdiv 2 := by omega
      have hlast : (first + last).tdiv 2 ≤ last := by omega
      obtain ⟨v, hv⟩ := h.exists_getElem? hfirst hlast
      rw [if_pos hle, readAt_of_nonneg vs (by omega), hv, Option.bind_some]
      rcases lt_trichotomy v x with hlt | rfl | hgt
      · rw [if_pos hlt]
        exact ih (h.raise hvs hfirst hlast hv hlt) (by push_cast at hfuel; omega)
      · rw [if_neg (lt_irrefl v), if_pos rfl, decide_eq_true (List.mem_of_getElem? hv)]
      · rw [if_neg hgt.asymm, if_neg hgt.ne']
        exact ih (h.lower hvs hfirst hlast hv hgt) (by push_cast at hfuel; omega)
    · rw [if_neg hle, decide_eq_false (h.not_mem (not_le.mp hle))]

/-- **The search** of a sorted list terminates within bounds and finds what is in the list. -/
theorem binsearch_eq {vs : List ℤ} (hvs : vs.Pairwise (· ≤ ·)) {fuel : ℕ}
    (hfuel : vs.length < fuel) (x : ℤ) : binsearch fuel vs x = some (decide (x ∈ vs)) :=
  binsearchLoop_eq hvs fuel (Window.whole vs x) (by omega)

variable {qsort : (ℤ → ℤ → ℤ) → List ℤ → List ℤ}

/-- The search after the sort, when the comparator is consistent. -/
theorem binsearch_qsort (hqsort : SortsByComparator qsort) {l : List ℤ}
    (hl : AgreesWith compare (· < ·) l) {fuel : ℕ} (hfuel : l.length < fuel) (x : ℤ) :
    binsearch fuel (qsort compare l) x = some (decide (x ∈ l)) := by
  have hperm := hqsort.perm hl
  rw [binsearch_eq (hqsort.sorted hl) (by rwa [hperm.length_eq])]
  exact congrArg some (decide_eq_decide.mpr hperm.mem_iff)

/-- **Sorting and searching** work exactly when the ids are close. -/
theorem searchesAll_iff (hqsort : SortsByComparator qsort) {l : List ℤ}
    (hl : ∀ a ∈ l, 0 ≤ a ∧ a < 2 ^ 32) : SearchesAll qsort l ↔ Close l := by
  rw [SearchesAll, agreesWith_compare_iff hl]
  refine ⟨And.left, fun hclose => ⟨hclose, fun x => ⟨l.length + 1, fun fuel hfuel => ?_⟩⟩⟩
  exact binsearch_qsort hqsort ((agreesWith_compare_iff hl).mpr hclose) hfuel x

/-! ## The count -/

section Count

variable {g : LccGraph}

/-- **The neighbours of a neighbour** that are neighbours themselves. -/
theorem lccCountIntersections_eq (hqsort : SortsByComparator qsort) (hg : g.SimpleUndirected)
    {u v : ℤ} (hu : u ∈ g.edges v) (hclose : Close (g.edges v)) {fuel : ℕ}
    (hfuel : (g.edges v).length < fuel) :
    lccCountIntersections g fuel v u (qsort compare (g.edges v)) =
      some ((g.edges v).toFinset.filter fun w => u ≠ w ∧ w ∈ g.edges u).card := by
  have hagrees := (agreesWith_compare_iff (hg.range v)).mpr hclose
  have hlength : (qsort compare (g.edges v)).length ≠ 0 := by
    rw [(hqsort.perm hagrees).length_eq]
    exact (List.length_pos_of_mem hu).ne'
  have hnodup := (hg.out_perm u).nodup_iff.mpr (hg.nodup u)
  rw [lccCountIntersections, if_neg hlength,
    foldlM_add (g := fun w => if w ∈ g.edges v then 1 else 0) (fun w _ out => ?_), zero_add,
    ← List.sum_toFinset _ hnodup, ← Finset.card_filter]
  · congr 2
    ext w
    simp only [Finset.mem_filter, List.mem_toFinset, (hg.out_perm u).mem_iff]
    constructor
    · rintro ⟨hw, hwv⟩
      exact ⟨hwv, fun huw => hg.loopless u (huw ▸ hw), hw⟩
    · rintro ⟨hwv, -, hw⟩
      exact ⟨hw, hwv⟩
  · -- the vertex itself is no neighbour, so leaving it out changes nothing
    by_cases hw : w = v
    · rw [if_neg (not_not.mpr hw), if_neg (hw ▸ hg.loopless v), add_zero]
    · rw [if_pos hw, binsearch_qsort hqsort hagrees hfuel]
      by_cases hwv : w ∈ g.edges v
      · simp [hwv]
      · simp [hwv]

/-- **The count** of a vertex whose neighbours have close ids. -/
theorem countsTriangles (hqsort : SortsByComparator qsort) (hg : g.SimpleUndirected) {v : ℤ}
    (hclose : Close (g.edges v)) : CountsTriangles qsort g v := by
  refine ⟨(g.edges v).length + 1, fun fuel hfuel => ?_⟩
  have hgathered : (g.edges v).take (g.degree v) = g.edges v := by
    rw [hg.degree_eq, List.take_length]
  have hassert : ¬(g.vtype v ≠ 0 ∨ (g.edges v).length ≠ g.degree v) := by
    rw [hg.active, hg.degree_eq]
    simp
  simp only [lccCountTriangles, hgathered]
  rw [if_neg hassert, card_linkedPairs, List.sum_toFinset _ (hg.nodup v),
    foldlM_add (g := fun u => ((g.edges v).toFinset.filter fun w => u ≠ w ∧ w ∈ g.edges u).card)
      (fun u hu out => ?_), zero_add]
  rw [if_pos (show u ≠ v from fun huv => hg.loopless v (huv ▸ hu)),
    lccCountIntersections_eq hqsort hg hu hclose hfuel]
  rfl

/-- **The coefficient** of a vertex whose neighbours have close ids. -/
theorem lccCoefficient_eq (hqsort : SortsByComparator qsort) (hg : g.SimpleUndirected) {v : ℤ}
    (hclose : Close (g.edges v)) :
    ∃ k, ∀ fuel, k ≤ fuel → lccCoefficient qsort g fuel v =
      some (linkedScore (g.edges v).toFinset fun u w => w ∈ g.edges u) := by
  obtain ⟨k, hk⟩ := countsTriangles hqsort hg hclose
  refine ⟨k, fun fuel hfuel => ?_⟩
  have hcard : (g.edges v).toFinset.card = g.degree v := by
    rw [List.toFinset_card_of_nodup (hg.nodup v), hg.degree_eq]
  have hactive : g.vtype v ≠ 1 := by
    rw [hg.active]
    exact Nat.zero_ne_one
  simp only [lccCoefficient, if_neg hactive, hk fuel hfuel, linkedScore, hcard]
  by_cases hdegree : g.degree v < 2
  · rw [if_pos hdegree, if_neg (not_le.mpr hdegree)]
  · rw [if_neg hdegree, if_pos (not_lt.mp hdegree)]
    rfl

end Count

/-- **The kernel is right** exactly when the ids of the neighbours are closer than `2 ^ 31`. -/
theorem lccFindsAll_iff (hqsort : SortsByComparator qsort) :
    (∀ l : List ℤ, l.Nodup → (∀ a ∈ l, 0 ≤ a ∧ a < 2 ^ 32) → (SearchesAll qsort l ↔ Close l)) ∧
    ∀ g : LccGraph, g.SimpleUndirected → ∀ v,
      (SearchesAll qsort (g.edges v) ∧ CountsTriangles qsort g v ↔ Close (g.edges v)) := by
  refine ⟨fun l _ hl => searchesAll_iff hqsort hl, fun g hg v => ?_⟩
  have hsearch := searchesAll_iff hqsort (hg.range v)
  exact ⟨fun h => hsearch.mp h.1, fun h => ⟨hsearch.mpr h, countsTriangles hqsort hg h⟩⟩

/-- The triangle with the corners `a`, `b` and `c`. -/
def triangle (a b c : ℤ) : LccGraph where
  vtype := fun _ => 0
  degree := fun v => if v = a ∨ v = b ∨ v = c then 2 else 0
  edges := fun v => if v = a then [b, c] else if v = b then [a, c] else if v = c then [a, b] else []
  outEdges := fun v =>
    if v = a then [b, c] else if v = b then [a, c] else if v = c then [a, b] else []

theorem simpleUndirected_triangle {a b c : ℤ} (ha : 0 ≤ a) (hab : a < b) (hbc : b < c)
    (hc : c < 2 ^ 32) : (triangle a b c).SimpleUndirected where
  active _ := rfl
  degree_eq v := by
    simp only [triangle]
    split_ifs <;> first | rfl | omega
  nodup v := by
    simp only [triangle]
    split_ifs <;> simp <;> omega
  out_perm _ := List.Perm.refl _
  symm u v h := by
    simp only [triangle] at h ⊢
    split_ifs at h <;> simp at h <;> split_ifs <;> simp <;> omega
  loopless v := by
    simp only [triangle]
    split_ifs <;> simp <;> omega
  range u v h := by
    simp only [triangle] at h
    split_ifs at h <;> simp at h <;> omega

theorem lccFindsAll_triangle : SearchesAll mergeSortBy [0, 2] ∧
    SearchesAll mergeSortBy ((triangle 0 1 2).edges 1) ∧
      CountsTriangles mergeSortBy (triangle 0 1 2) 1 :=
  ⟨((lccFindsAll_iff sortsByComparator_mergeSortBy).1 [0, 2] (by decide) (by decide)).mpr
      (by unfold Close; decide),
    ((lccFindsAll_iff sortsByComparator_mergeSortBy).2 _
      (simpleUndirected_triangle (by decide) (by decide) (by decide) (by decide)) 1).mpr
      (by unfold Close; decide)⟩

/-- The corners `0` and `2 ^ 31 + 1` are sorted in the other order. -/
theorem mergeSortBy_far : mergeSortBy compare [0, 2 ^ 31 + 1] = [2 ^ 31 + 1, 0] := by
  have hlt : 0 < compare 0 2147483649 := by decide
  rw [mergeSortBy, List.mergeSort]
  simp [hlt]

/-- **The search misses** the vertex `0`, and one of the two pairs is not counted. -/
theorem not_lccFindsAll :
    (triangle 0 1 (2 ^ 31 + 1)).SimpleUndirected ∧
      binsearch 3 (mergeSortBy compare [0, 2 ^ 31 + 1]) 0 = some false ∧
      ¬SearchesAll mergeSortBy [0, 2 ^ 31 + 1] ∧
      ¬CountsTriangles mergeSortBy (triangle 0 1 (2 ^ 31 + 1)) 1 := by
  refine ⟨simpleUndirected_triangle (by decide) (by decide) (by decide) (by decide), ?_, ?_, ?_⟩
  · rw [mergeSortBy_far]
    rfl
  · rintro ⟨-, hsearch⟩
    obtain ⟨k, hk⟩ := hsearch 0
    have hfound := hk (k + 3) (by omega)
    rw [mergeSortBy_far] at hfound
    cases hfound
  · rintro ⟨k, hk⟩
    have hone : lccCountTriangles mergeSortBy (triangle 0 1 (2 ^ 31 + 1)) (k + 3) 1 = some 1 := by
      have hgathered : ((triangle 0 1 (2 ^ 31 + 1)).edges 1).take
          ((triangle 0 1 (2 ^ 31 + 1)).degree 1) = [0, 2 ^ 31 + 1] := rfl
      simp only [lccCountTriangles, hgathered, mergeSortBy_far]
      rfl
    rw [hk (k + 3) (by omega)] at hone
    exact absurd (Option.some.inj hone) (by decide)

end Stinger

end GfeDriver
