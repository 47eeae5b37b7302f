import Mathlib.Data.Prod.Lex
import GfeDriver.Foundation.Loop
import GfeDriver.Foundation.MergeMarker
import GfeDriver.Foundation.Runs
import GfeDriver.Foundation.Triangles

/-!
# The worker that merges sorted neighbours, statement by statement

The workers of `CSR_LCC` and of Sortledton's kernel for the clustering coefficient share the body of
`process_vertex`: two nested iterations over sorted neighbours, and a marker into the vector of the
neighbours of `n1` visited so far. The marker restarts for each `n2` while the vector grows, and
three statements leave the inner iteration. The function is a machine whose points are these places
of its body. The iterations are a parameter, since one of them is a macro of a library.

Two of the exits are for a marker behind the end of the vector. They are never taken: the last entry
of the vector is `n2`, which is above every `n3` that is looked for, so that the marker stays before
it.

## Main definitions

* `Iteration`, `Iteration.Simple`: what the iterations visit, in a simple undirected graph
* `Point`, `State`, `step`: the machine
* `processVertex`: the increments that the function issues
* `Invariant`: what holds at each point
* `MarkerInRange`: the marker is in range and no exit skips a common neighbour

## Main results

* `Invariant.goesOn`: a step does not fail, keeps the invariant and lowers the measure
* `MarkerInRange.of_reachable`: the marker is in range in every reachable state
* `processVertex_eq`: the function ends, and credits every triangle once
-/

namespace GfeDriver

open Foundation

namespace ProcessVertex

/-! ## The machine -/

/-- **What an iteration visits.** A `break` inside of a macro may end less than the whole iteration;
`afterBreak` is what it leaves of the neighbours that are still to come. -/
structure Iteration where
  neighbours : ℕ → List ℕ
  afterBreak : List ℕ → List ℕ

/-- The iterations visit the neighbours in increasing order, in a simple undirected graph with the
vertices below `n`. -/
structure Iteration.Simple (it : Iteration) (n : ℕ) : Prop where
  lt : ∀ u < n, ∀ v ∈ it.neighbours u, v < n
  sorted : ∀ u < n, (it.neighbours u).Pairwise (· < ·)
  symm : ∀ u < n, ∀ v ∈ it.neighbours u, u ∈ it.neighbours v
  loopless : ∀ u < n, u ∉ it.neighbours u

/-- The points of the body of `process_vertex`: the heads of the two iterations, the comparison
with the entry under the marker, the loop that advances the marker, the test for a match, the two
exits for a marker behind the end, and the end of the function. -/
inductive Point
  | outer | inner | merge | advance | check | nothingLeft | exhausted | finished
  deriving DecidableEq, Repr

/-- The local variables, the vector `m_neighbours`, the neighbours that each iteration has left, and
the increments of `num_triangles` that were issued. -/
structure State where
  point : Point
  neighbours : List ℕ
  row1 : List ℕ
  n2 : ℕ
  row2 : List ℕ
  n3 : ℕ
  marker : ℕ
  numTriangles : ℕ
  increments : List (ℕ × ℕ)
  deriving DecidableEq, Repr

/-- The start of the function. -/
def start (it : Iteration) (n1 : ℕ) : State where
  point := .outer
  neighbours := []
  row1 := it.neighbours n1
  n2 := 0
  row2 := []
  n3 := 0
  marker := 0
  numTriangles := 0
  increments := []

/-- The end of the function: the increment of `n1`. -/
def State.finish (n1 : ℕ) (s : State) : State :=
  { s with
    point := .finished
    increments := s.increments ++ if s.numTriangles ≠ 0 then [(n1, s.numTriangles)] else [] }

/-- The next neighbour of `n1`, from which a merge starts. -/
def State.visit (it : Iteration) (n2 : ℕ) (row1 : List ℕ) (s : State) : State :=
  { s with
    point := .inner
    neighbours := s.neighbours ++ [n2]
    row1 := row1
    n2 := n2
    row2 := it.neighbours n2
    marker := 0 }

/-- The comparison of `n3` with the entry `x` under the marker. -/
def State.compare (s : State) (marker x : ℕ) : State :=
  { s with point := if s.n3 > x then .advance else .check, marker := marker }

/-- A match, which moves the marker on. -/
def State.found (s : State) : State :=
  { s with
    point := if s.marker + 1 ≥ s.neighbours.length then .exhausted else .inner
    numTriangles := s.numTriangles + 2
    increments := s.increments ++ [(s.n2, 2), (s.n3, 2)]
    marker := s.marker + 1 }

/-- **A step of `process_vertex`**: the statements from one point to the next. There is none after
the end of the function, nor when the assertion fails or `m_neighbours[marker]` is out of range. -/
def step (it : Iteration) (n1 : ℕ) (s : State) : Option State :=
  match s.point with
  | .outer =>
    match s.row1 with
    | [] => some (s.finish n1)
    | n2 :: row1 =>
      if n2 > n1 then some (s.finish n1) -- we're done with n1
      else some (s.visit it n2 row1)
  | .inner =>
    match s.row2 with
    | [] => some { s with point := .outer }
    | n3 :: row2 =>
      if n3 > s.n2 then some { s with point := .outer } -- we're done with n2
      else if n1 > s.n2 ∧ s.n2 > n3 then some { s with point := .merge, row2 := row2, n3 := n3 }
      else none
  | .merge => s.neighbours[s.marker]?.map fun x => s.compare s.marker x
  -- the body of the loop, and its condition, whose first half guards the read
  | .advance =>
    match s.neighbours[s.marker + 1]? with
    | none => some { s with point := .nothingLeft, marker := s.marker + 1 }
    | some x => some (s.compare (s.marker + 1) x)
  | .check => s.neighbours[s.marker]?.map fun x =>
    if s.n3 = x then s.found else { s with point := .inner }
  | .nothingLeft => some { s with point := .inner, row2 := it.afterBreak s.row2 }
  | .exhausted => some { s with point := .outer }
  | .finished => none

/-- **`process_vertex`**: the increments it issues, in order. -/
def processVertex (it : Iteration) (n1 fuel : ℕ) : Option (List (ℕ × ℕ)) :=
  (whileLoop (fun s => s.point ≠ .finished) (step it n1) fuel (start it n1)).map State.increments

/-- The states that the function goes through. -/
def Reachable (it : Iteration) (n1 : ℕ) : State → Prop :=
  Relation.ReflTransGen (fun s t => step it n1 s = some t) (start it n1)

/-! ## What is credited -/

/-- The elements of the inner iteration that are still to come, with the current one. -/
def State.toCome (s : State) : List ℕ :=
  match s.point with
  | .inner => s.row2
  | .merge => s.n3 :: s.row2
  | .advance => s.n3 :: s.row2
  | .check => s.n3 :: s.row2
  | _ => []

/-- The increments for the corners `n2` and `n3` of each triangle. -/
def lowerCredits (found : List (ℕ × ℕ)) : List (ℕ × ℕ) :=
  found.flatMap fun p => [(p.1, 2), (p.2, 2)]

/-- The increments for the three corners of each triangle, those of `n1` made at the end. -/
def credits (n1 : ℕ) (found : List (ℕ × ℕ)) : List (ℕ × ℕ) :=
  lowerCredits found ++ if 2 * found.length ≠ 0 then [(n1, 2 * found.length)] else []

@[simp] theorem lowerCredits_append (l l' : List (ℕ × ℕ)) :
    lowerCredits (l ++ l') = lowerCredits l ++ lowerCredits l' :=
  List.flatMap_append

/-! ## The invariant -/

section Invariant

variable (it : Iteration) (n1 : ℕ)

/-- **What holds before the end**, when the triangles `pending` are still to be found of those whose
middle corner was visited. -/
structure Scanning (s : State) (pending : List (ℕ × ℕ)) : Prop where
  split : s.neighbours ++ s.row1 = it.neighbours n1
  below : ∀ x ∈ s.neighbours, x < n1
  found : ∃ found, s.increments = lowerCredits found ∧ s.numTriangles = 2 * found.length ∧
    found ++ pending = s.neighbours.flatMap fun n2 =>
      trianglesAt it.neighbours n1 n2 (it.neighbours n2)

/-- **What holds in the inner iteration**, when the elements `toCome` are still to come. -/
structure Merging (s : State) (toCome : List ℕ) : Prop extends
    Scanning it n1 s (trianglesAt it.neighbours n1 s.n2 toCome) where
  last : s.neighbours.getLast? = some s.n2
  suffix : toCome <:+ it.neighbours s.n2
  marker : Marker s.neighbours s.marker toCome

/-- **The invariant**, at each point. The two exits for a marker behind the end are no points of
it. -/
inductive Invariant (s : State) : Prop
  | outer (point : s.point = .outer) (scanning : Scanning it n1 s [])
  | inner (point : s.point = .inner) (merging : Merging it n1 s s.row2)
  | merge (point : s.point = .merge) (merging : Merging it n1 s (s.n3 :: s.row2))
      (lt : s.n3 < s.n2)
  | advance (point : s.point = .advance) (merging : Merging it n1 s (s.n3 :: s.row2))
      (lt : s.n3 < s.n2) (skip : ∃ x, s.neighbours[s.marker]? = some x ∧ x < s.n3)
  | check (point : s.point = .check) (merging : Merging it n1 s (s.n3 :: s.row2))
      (lt : s.n3 < s.n2) (ge : ∃ x, s.neighbours[s.marker]? = some x ∧ s.n3 ≤ x)
  | finished (point : s.point = .finished) (sorted : s.neighbours <+: it.neighbours n1)
      (done : s.increments = credits n1 (triangleList it.neighbours n1))

variable {it n1} {n : ℕ} {s : State} {toCome : List ℕ} {pending : List (ℕ × ℕ)}

theorem Invariant.start : Invariant it n1 (start it n1) :=
  .outer rfl
    { split := rfl
      below := fun _ hx => absurd hx List.not_mem_nil
      found := ⟨[], rfl, rfl, rfl⟩ }

/-- The vector is increasing. -/
theorem Scanning.increasing (h : Scanning it n1 s pending) (hit : it.Simple n) (hn1 : n1 < n) :
    s.neighbours.Pairwise (· < ·) :=
  (h.split ▸ hit.sorted n1 hn1).sublist (List.sublist_append_left _ _)

/-- The neighbours of `n1` up to a visited one are in the vector. -/
theorem Scanning.mem_of_le (h : Scanning it n1 s pending) (hit : it.Simple n) (hn1 : n1 < n)
    {x y : ℕ} (hx : x ∈ it.neighbours n1) (hy : y ∈ s.neighbours) (hxy : x ≤ y) :
    x ∈ s.neighbours := by
  have hsorted : (s.neighbours ++ s.row1).Pairwise (· < ·) := h.split ▸ hit.sorted n1 hn1
  rcases List.mem_append.mp (h.split ▸ hx) with hx | hx
  · exact hx
  · exact absurd ((List.pairwise_append.mp hsorted).2.2 y hy x hx) (by omega)

theorem Merging.n2_mem (h : Merging it n1 s toCome) : s.n2 ∈ s.neighbours :=
  List.mem_of_getLast? h.last

theorem Merging.n2_lt (h : Merging it n1 s toCome) : s.n2 < n1 := h.below s.n2 h.n2_mem

/-- What is still to come increases. -/
theorem Merging.sorted (h : Merging it n1 s toCome) (hit : it.Simple n) (hn1 : n1 < n) :
    toCome.Pairwise (· < ·) :=
  (hit.sorted s.n2 (h.n2_lt.trans hn1)).sublist h.suffix.sublist

/-- An entry below an element that is looked for is not the last. -/
theorem Merging.succ_lt_length (h : Merging it n1 s toCome) (hit : it.Simple n) (hn1 : n1 < n)
    {x : ℕ} (hx : s.neighbours[s.marker]? = some x) (hlt : x < s.n2) :
    s.marker + 1 < s.neighbours.length :=
  succ_lt_length_of_lt (h.increasing hit hn1) hx h.n2_mem hlt

end Invariant

/-! ## A step -/

/-- The iterations of the inner loop that are left. -/
def State.rowLeft (s : State) : ℕ :=
  match s.point with
  | .outer => 0
  | .finished => 0
  | _ => s.row2.length + 1

/-- The points that are left of an iteration. -/
def State.bodyLeft (s : State) : ℕ :=
  match s.point with
  | .outer => 1
  | .merge => s.neighbours.length + 3
  | .advance => s.neighbours.length - s.marker + 2
  | .check => 1
  | _ => 0

/-- The measure of a run: the iterations that are left of each loop. -/
def State.measure (s : State) : ℕ ×ₗ ℕ ×ₗ ℕ :=
  toLex (s.row1.length, toLex (s.rowLeft, s.bodyLeft))

section Step

variable {it : Iteration} {n1 n : ℕ} {s t : State}

theorem State.measure_lt_of_row1 (h : t.row1.length < s.row1.length) : t.measure < s.measure :=
  Prod.Lex.toLex_lt_toLex.mpr (.inl h)

theorem State.measure_lt_of_row2 (h1 : t.row1 = s.row1) (h : t.rowLeft < s.rowLeft) :
    t.measure < s.measure :=
  Prod.Lex.toLex_lt_toLex.mpr (.inr ⟨congrArg List.length h1,
    Prod.Lex.toLex_lt_toLex.mpr (.inl h)⟩)

theorem State.measure_lt_of_body (h1 : t.row1 = s.row1) (h2 : t.rowLeft = s.rowLeft)
    (h : t.bodyLeft < s.bodyLeft) : t.measure < s.measure :=
  Prod.Lex.toLex_lt_toLex.mpr (.inr ⟨congrArg List.length h1,
    Prod.Lex.toLex_lt_toLex.mpr (.inr ⟨h2, h⟩)⟩)

/-- **A step goes on**: it does not fail, and it keeps the invariant and lowers the measure. -/
def GoesOn (it : Iteration) (n1 : ℕ) (s : State) : Prop :=
  ∃ t, step it n1 s = some t ∧ Invariant it n1 t ∧ t.measure < s.measure

/-- The end of the function, when the neighbours that are left are above `n1`. -/
theorem Scanning.finish (h : Scanning it n1 s []) (hpoint : s.point = .outer)
    (habove : ∀ x ∈ s.row1, n1 < x) (hstep : step it n1 s = some (s.finish n1)) :
    GoesOn it n1 s := by
  obtain ⟨found, hinc, hnum, hall⟩ := h.found
  have hvisited : (it.neighbours n1).filter (fun n2 => n2 ≤ n1) = s.neighbours := by
    have hbelow : s.neighbours.filter (fun n2 => n2 ≤ n1) = s.neighbours :=
      List.filter_eq_self.mpr fun x hx => by simpa using (h.below x hx).le
    have hrest : s.row1.filter (fun n2 => n2 ≤ n1) = [] :=
      List.filter_eq_nil_iff.mpr fun x hx => by simpa using habove x hx
    rw [← h.split, List.filter_append, hbelow, hrest, List.append_nil]
  have hfound : found = triangleList it.neighbours n1 := by
    rw [triangleList, hvisited, ← hall, List.append_nil]
  refine ⟨s.finish n1, hstep, .finished rfl ⟨s.row1, h.split⟩ ?_, ?_⟩
  · rw [credits, ← hfound, ← hnum, ← hinc]
    rfl
  · refine State.measure_lt_of_body rfl ?_ ?_
    · simp [State.rowLeft, State.finish, hpoint]
    · simp [State.bodyLeft, State.finish, hpoint]

/-- A merge starts, with the triangles of its middle corner to be found. -/
theorem Scanning.visit (h : Scanning it n1 s []) {n2 : ℕ} {row1 : List ℕ}
    (hrow : s.row1 = n2 :: row1) (hlt : n2 < n1) :
    Merging it n1 (s.visit it n2 row1) (it.neighbours n2) where
  split := by
    rw [← h.split, hrow]
    simp [State.visit]
  below x hx := by
    rcases List.mem_append.mp hx with hx | hx
    · exact h.below x hx
    · rw [List.mem_singleton.mp hx]
      exact hlt
  found := by
    obtain ⟨found, hinc, hnum, hall⟩ := h.found
    refine ⟨found, hinc, hnum, ?_⟩
    rw [List.append_nil] at hall
    simp [State.visit, hall]
  last := by simp [State.visit]
  suffix := List.suffix_refl _
  marker := Marker.start (by simp [State.visit])

/-- The head of the outer iteration. -/
theorem Invariant.step_outer (hit : it.Simple n) (hn1 : n1 < n) (hpoint : s.point = .outer)
    (h : Scanning it n1 s []) : GoesOn it n1 s := by
  have hsorted : (s.neighbours ++ s.row1).Pairwise (· < ·) := h.split ▸ hit.sorted n1 hn1
  cases hrow : s.row1 with
  | nil =>
    exact h.finish hpoint (by simp [hrow]) (by simp [step, hpoint, hrow])
  | cons n2 row1 =>
    by_cases hgt : n2 > n1
    · have habove : ∀ x ∈ s.row1, n1 < x :=
        lt_of_lt_head (List.pairwise_append.mp hsorted).2.1 (by simpa [hrow] using hgt)
      exact h.finish hpoint habove (by simp [step, hpoint, hrow, hgt])
    · have hmem : n2 ∈ it.neighbours n1 := by
        rw [← h.split, hrow]
        simp
      -- `n1` is not its own neighbour
      have hne : n2 ≠ n1 := by
        rintro rfl
        exact hit.loopless n2 hn1 hmem
      have hlt : n2 < n1 := by omega
      have hstep : step it n1 s = some (s.visit it n2 row1) := by simp [step, hpoint, hrow, hgt]
      refine ⟨_, hstep, .inner rfl (h.visit hrow hlt), ?_⟩
      exact State.measure_lt_of_row1 (by simp [State.visit, hrow])

/-- The inner iteration is left when nothing below `n2` is still to come. -/
theorem Merging.leave (h : Merging it n1 s s.row2) (hpoint : s.point = .inner)
    (habove : ∀ x ∈ s.row2, s.n2 < x) (hstep : step it n1 s = some { s with point := .outer }) :
    GoesOn it n1 s := by
  obtain ⟨found, hinc, hnum, hall⟩ := h.found
  rw [trianglesAt_eq_nil habove] at hall
  refine ⟨_, hstep, .outer rfl { split := h.split, below := h.below, found := ?_ }, ?_⟩
  · exact ⟨found, hinc, hnum, hall⟩
  · exact State.measure_lt_of_row2 rfl (by simp [State.rowLeft, hpoint])

/-- The head of the inner iteration. -/
theorem Invariant.step_inner (hit : it.Simple n) (hn1 : n1 < n) (hpoint : s.point = .inner)
    (h : Merging it n1 s s.row2) : GoesOn it n1 s := by
  have hsorted := h.sorted hit hn1
  cases hrow : s.row2 with
  | nil =>
    exact h.leave hpoint (by simp [hrow]) (by simp [step, hpoint, hrow])
  | cons n3 row2 =>
    by_cases hgt : n3 > s.n2
    · have habove : ∀ x ∈ s.row2, s.n2 < x := lt_of_lt_head hsorted (by simpa [hrow] using hgt)
      exact h.leave hpoint habove (by simp [step, hpoint, hrow, hgt])
    · have hmem : n3 ∈ it.neighbours s.n2 :=
        h.suffix.subset (hrow ▸ List.mem_cons_self)
      -- `n2` is not its own neighbour
      have hne : n3 ≠ s.n2 := by
        rintro rfl
        exact hit.loopless s.n2 (h.n2_lt.trans hn1) hmem
      have hlt : n3 < s.n2 := by omega
      have hassert : n1 > s.n2 ∧ s.n2 > n3 := ⟨h.n2_lt, hlt⟩
      have hstep : step it n1 s = some { s with point := .merge, row2 := row2, n3 := n3 } := by
        simp [step, hpoint, hrow, hgt, hassert]
      refine ⟨_, hstep, .merge rfl ?_ hlt, ?_⟩
      · exact { h with
          found := hrow ▸ h.found
          suffix := hrow ▸ h.suffix
          marker := hrow ▸ h.marker }
      · exact State.measure_lt_of_row2 rfl (by simp [State.rowLeft, hpoint, hrow])

/-- What the comparison establishes. -/
theorem Invariant.compare {m x : ℕ} (h : Merging it n1 s (s.n3 :: s.row2)) (hlt : s.n3 < s.n2)
    (hm : Marker s.neighbours m (s.n3 :: s.row2)) (hx : s.neighbours[m]? = some x) :
    Invariant it n1 (s.compare m x) := by
  have hmerging : Merging it n1 (s.compare m x) (s.n3 :: s.row2) := { h with marker := hm }
  by_cases hgt : s.n3 > x
  · exact .advance (by simp [State.compare, hgt]) hmerging hlt ⟨x, hx, hgt⟩
  · exact .check (by simp [State.compare, hgt]) hmerging hlt ⟨x, hx, Nat.le_of_not_lt hgt⟩

theorem State.compare_point_ne (s : State) (m x : ℕ) : (s.compare m x).point ≠ .outer := by
  unfold State.compare
  split_ifs <;> simp

theorem State.found_point_ne (s : State) : s.found.point ≠ .outer := by
  unfold State.found
  split_ifs <;> simp

/-- A comparison with the entry under the marker `m` lowers the measure. -/
theorem State.measure_compare_lt {m x : ℕ} (hrow : s.rowLeft = s.row2.length + 1)
    (hbody : s.neighbours.length - m + 2 < s.bodyLeft) : (s.compare m x).measure < s.measure := by
  have hrow' : (s.compare m x).rowLeft = s.row2.length + 1 := by
    unfold State.compare
    split_ifs <;> rfl
  have hbody' : (s.compare m x).bodyLeft ≤ s.neighbours.length - m + 2 := by
    unfold State.compare
    split_ifs
    · exact le_refl _
    · simp only [State.bodyLeft]
      omega
  exact State.measure_lt_of_body rfl (hrow'.trans hrow.symm) (lt_of_le_of_lt hbody' hbody)

/-- The comparison with the entry under the marker. -/
theorem Invariant.step_merge (hpoint : s.point = .merge)
    (h : Merging it n1 s (s.n3 :: s.row2)) (hlt : s.n3 < s.n2) : GoesOn it n1 s := by
  obtain ⟨x, hx⟩ : ∃ x, s.neighbours[s.marker]? = some x :=
    ⟨_, List.getElem?_eq_getElem h.marker.lt_length⟩
  have hstep : step it n1 s = some (s.compare s.marker x) := by simp [step, hpoint, hx]
  refine ⟨_, hstep, .compare h hlt h.marker hx, ?_⟩
  refine State.measure_compare_lt ?_ ?_
  · simp only [State.rowLeft, hpoint]
  · simp only [State.bodyLeft, hpoint]
    omega

/-- **The marker advances** and stays in the vector, because `n2` is above `n3`. -/
theorem Invariant.step_advance (hit : it.Simple n) (hn1 : n1 < n) (hpoint : s.point = .advance)
    (h : Merging it n1 s (s.n3 :: s.row2)) (hlt : s.n3 < s.n2)
    (hskip : ∃ x, s.neighbours[s.marker]? = some x ∧ x < s.n3) : GoesOn it n1 s := by
  obtain ⟨x, hx, hxlt⟩ := hskip
  have hlast := h.succ_lt_length hit hn1 hx (hxlt.trans hlt)
  have hskip : ∀ y ∈ s.n3 :: s.row2, x < y :=
    lt_of_lt_head (h.sorted hit hn1) (by simpa using hxlt)
  have hmarker := h.marker.next hx hskip hlast
  obtain ⟨y, hy⟩ : ∃ y, s.neighbours[s.marker + 1]? = some y :=
    ⟨_, List.getElem?_eq_getElem hlast⟩
  have hstep : step it n1 s = some (s.compare (s.marker + 1) y) := by simp [step, hpoint, hy]
  refine ⟨_, hstep, .compare h hlt hmarker hy, ?_⟩
  refine State.measure_compare_lt ?_ ?_
  · simp only [State.rowLeft, hpoint]
  · simp only [State.bodyLeft, hpoint]
    omega

/-- A match is found, and the marker stays in the vector. -/
theorem Merging.matched (hit : it.Simple n) (hn1 : n1 < n)
    (h : Merging it n1 s (s.n3 :: s.row2)) (hlt : s.n3 < s.n2)
    (hx : s.neighbours[s.marker]? = some s.n3) :
    s.found.point = .inner ∧ Merging it n1 s.found s.row2 := by
  have hlast := h.succ_lt_length hit hn1 hx hlt
  have hmem : s.n3 ∈ it.neighbours n1 := by
    rw [← h.split]
    exact List.mem_append_left _ (List.mem_of_getElem? hx)
  obtain ⟨found, hinc, hnum, hall⟩ := h.found
  refine ⟨if_neg (by omega), { h with found := ⟨found ++ [(s.n2, s.n3)], ?_, ?_, ?_⟩
                                      suffix := (List.suffix_cons _ _).trans h.suffix
                                      marker := ?_ }⟩
  · rw [lowerCredits_append, ← hinc]
    rfl
  · rw [List.length_append, List.length_singleton]
    show s.numTriangles + 2 = _
    omega
  · rw [trianglesAt_cons_of_mem hlt.le hmem] at hall
    rw [List.append_assoc]
    exact hall
  · exact h.marker.tail.next hx (List.pairwise_cons.mp (h.sorted hit hn1)).1 hlast

/-- An element that is passed is no neighbour of `n1`. -/
theorem Merging.passed (hit : it.Simple n) (hn1 : n1 < n)
    (h : Merging it n1 s (s.n3 :: s.row2)) (hlt : s.n3 < s.n2) {x : ℕ}
    (hx : s.neighbours[s.marker]? = some x) (hxlt : s.n3 < x) : Merging it n1 s s.row2 := by
  have hnot : s.n3 ∉ it.neighbours n1 := fun hmem =>
    h.marker.not_mem (h.increasing hit hn1) hx hxlt (h.mem_of_le hit hn1 hmem h.n2_mem hlt.le)
  exact { h with
    found := trianglesAt_cons_of_not_mem hnot ▸ h.found
    suffix := (List.suffix_cons _ _).trans h.suffix
    marker := h.marker.tail }

/-- The test for a match. -/
theorem Invariant.step_check (hit : it.Simple n) (hn1 : n1 < n) (hpoint : s.point = .check)
    (h : Merging it n1 s (s.n3 :: s.row2)) (hlt : s.n3 < s.n2)
    (hge : ∃ x, s.neighbours[s.marker]? = some x ∧ s.n3 ≤ x) : GoesOn it n1 s := by
  obtain ⟨x, hx, hxge⟩ := hge
  rcases hxge.eq_or_lt with rfl | hxlt
  · obtain ⟨hinner, hmerging⟩ := h.matched hit hn1 hlt hx
    have hstep : step it n1 s = some s.found := by simp [step, hpoint, hx]
    refine ⟨_, hstep, .inner hinner hmerging, ?_⟩
    refine State.measure_lt_of_body rfl ?_ ?_
    · simp only [State.rowLeft, hinner, hpoint]
      rfl
    · simp only [State.bodyLeft, hinner, hpoint]
      exact Nat.one_pos
  · have hstep : step it n1 s = some { s with point := .inner } := by
      simp [step, hpoint, hx, hxlt.ne]
    have hmerging := h.passed hit hn1 hlt hx hxlt
    refine ⟨_, hstep, .inner rfl { hmerging with }, ?_⟩
    refine State.measure_lt_of_body rfl ?_ ?_
    · simp [State.rowLeft, hpoint]
    · simp [State.bodyLeft, hpoint]

/-- **Every step before the end goes on**: no access is out of range, the assertion holds, and the
exits for a marker behind the end are not taken. -/
theorem Invariant.goesOn (hit : it.Simple n) (hn1 : n1 < n) (h : Invariant it n1 s)
    (hpoint : s.point ≠ .finished) : GoesOn it n1 s := by
  cases h with
  | outer point scanning => exact step_outer hit hn1 point scanning
  | inner point merging => exact step_inner hit hn1 point merging
  | merge point merging lt => exact step_merge point merging lt
  | advance point merging lt skip => exact step_advance hit hn1 point merging lt skip
  | check point merging lt ge => exact step_check hit hn1 point merging lt ge
  | finished point => exact absurd point hpoint

/-- The statements that lead back to the outer iteration. -/
theorem step_to_outer (hstep : step it n1 s = some t) (hout : t.point = .outer) :
    s.point = .exhausted ∨ s.point = .inner ∧ ∀ n3 ∈ s.row2.head?, s.n2 < n3 := by
  cases hpoint : s.point with
  | outer =>
    cases hrow : s.row1 with
    | nil =>
      simp only [step, hpoint, hrow, Option.some.injEq] at hstep
      subst hstep
      cases hout
    | cons n2 row1 =>
      simp only [step, hpoint, hrow] at hstep
      split_ifs at hstep <;> obtain rfl := Option.some.inj hstep <;> cases hout
  | inner =>
    refine .inr ⟨rfl, ?_⟩
    cases hrow : s.row2 with
    | nil => simp
    | cons n3 row2 =>
      simp only [step, hpoint, hrow] at hstep
      split_ifs at hstep with hgt
      · simpa using hgt
      · obtain rfl := Option.some.inj hstep
        cases hout
  | merge =>
    simp only [step, hpoint, Option.map_eq_some_iff] at hstep
    obtain ⟨x, -, rfl⟩ := hstep
    exact absurd hout (s.compare_point_ne s.marker x)
  | advance =>
    simp only [step, hpoint] at hstep
    split at hstep <;> obtain rfl := Option.some.inj hstep
    · cases hout
    · exact absurd hout (s.compare_point_ne _ _)
  | check =>
    simp only [step, hpoint, Option.map_eq_some_iff] at hstep
    obtain ⟨x, -, rfl⟩ := hstep
    split_ifs at hout with hmatch
    exact absurd hout s.found_point_ne
  | nothingLeft =>
    simp only [step, hpoint, Option.some.injEq] at hstep
    subst hstep
    cases hout
  | exhausted => exact .inl rfl
  | finished =>
    simp only [step, hpoint] at hstep
    cases hstep

end Step

/-! ## Every state of the function -/

section Reachable

variable {it : Iteration} {n1 n : ℕ} {s t : State}

/-- The exits for a marker behind the end are not reached. -/
theorem Invariant.point_ne (h : Invariant it n1 s) :
    s.point ≠ .nothingLeft ∧ s.point ≠ .exhausted := by
  cases h with
  | outer point => simp [point]
  | inner point => simp [point]
  | merge point => simp [point]
  | advance point => simp [point]
  | check point => simp [point]
  | finished point => simp [point]

/-- What holds inside of the inner iteration. -/
theorem Invariant.merging (h : Invariant it n1 s) (houter : s.point ≠ .outer)
    (hfin : s.point ≠ .finished) : Merging it n1 s s.toCome := by
  cases h with
  | outer point => exact absurd point houter
  | inner point merging => simpa only [State.toCome, point] using merging
  | merge point merging => simpa only [State.toCome, point] using merging
  | advance point merging => simpa only [State.toCome, point] using merging
  | check point merging => simpa only [State.toCome, point] using merging
  | finished point => exact absurd point hfin

theorem Invariant.isPrefix (h : Invariant it n1 s) : s.neighbours <+: it.neighbours n1 := by
  cases h with
  | outer point scanning => exact ⟨s.row1, scanning.split⟩
  | inner point merging => exact ⟨s.row1, merging.split⟩
  | merge point merging => exact ⟨s.row1, merging.split⟩
  | advance point merging => exact ⟨s.row1, merging.split⟩
  | check point merging => exact ⟨s.row1, merging.split⟩
  | finished point sorted => exact sorted

/-- **The inner iteration is left** when all that is still to come is above `n2`. -/
theorem Invariant.above_of_leaves (hit : it.Simple n) (hn1 : n1 < n) (h : Invariant it n1 s)
    (hstep : step it n1 s = some t) (hout : t.point = .outer) : ∀ n3 ∈ s.row2, s.n2 < n3 := by
  rcases step_to_outer hstep hout with hpoint | ⟨hpoint, hhead⟩
  · exact absurd hpoint h.point_ne.2
  · have hmerging := h.merging (by simp [hpoint]) (by simp [hpoint])
    have hsorted : s.row2.Pairwise (· < ·) := by
      simpa only [State.toCome, hpoint] using hmerging.sorted hit hn1
    exact lt_of_lt_head hsorted hhead

/-- **The marker is in range.** The vector is increasing and ends with `n2`, the marker is an index
of it, and the entries before the marker are smaller than every `n3` that is still to come. The
function goes on, never through the exits for a marker behind the end, and when it leaves the inner
iteration it skips no common neighbour. -/
structure MarkerInRange (it : Iteration) (n1 : ℕ) (s : State) : Prop where
  increasing : s.neighbours.Pairwise (· < ·)
  last : s.point ≠ .outer → s.point ≠ .finished → s.neighbours.getLast? = some s.n2
  inRange : s.point ≠ .outer → s.point ≠ .finished → s.marker < s.neighbours.length
  behind : ∀ x ∈ s.neighbours.take s.marker, ∀ n3 ∈ s.toCome, x < n3
  reached : s.point ≠ .nothingLeft ∧ s.point ≠ .exhausted
  goesOn : s.point ≠ .finished → ∃ t, step it n1 s = some t
  leaves : ∀ t, step it n1 s = some t → t.point = .outer →
    ∀ n3 ∈ s.row2, ¬(n3 < s.n2 ∧ n3 ∈ it.neighbours n1)

theorem Invariant.markerInRange (hit : it.Simple n) (hn1 : n1 < n) (h : Invariant it n1 s) :
    MarkerInRange it n1 s where
  increasing := (hit.sorted n1 hn1).sublist h.isPrefix.sublist
  last houter hfin := (h.merging houter hfin).last
  inRange houter hfin := (h.merging houter hfin).marker.lt_length
  behind := by
    by_cases houter : s.point = .outer
    · simp [State.toCome, houter]
    by_cases hfin : s.point = .finished
    · simp [State.toCome, hfin]
    · exact (h.merging houter hfin).marker.behind
  reached := h.point_ne
  goesOn hfin := by
    obtain ⟨t, hstep, -⟩ := h.goesOn hit hn1 hfin
    exact ⟨t, hstep⟩
  leaves t hstep hout n3 hn3 hlt :=
    absurd hlt.1 (h.above_of_leaves hit hn1 hstep hout n3 hn3).le.not_gt

/-- **The invariant holds in every state** that the function goes through. -/
theorem Invariant.of_reachable (hit : it.Simple n) (hn1 : n1 < n) (h : Reachable it n1 s) :
    Invariant it n1 s := by
  refine reachable_invariant .start (fun s t hs hstep => ?_) h
  have hfin : s.point ≠ .finished := by
    intro hpoint
    simp [step, hpoint] at hstep
  obtain ⟨t', hstep', hinv, -⟩ := hs.goesOn hit hn1 hfin
  exact Option.some.inj (hstep.symm.trans hstep') ▸ hinv

theorem MarkerInRange.of_reachable (hit : it.Simple n) (hn1 : n1 < n) (h : Reachable it n1 s) :
    MarkerInRange it n1 s :=
  (Invariant.of_reachable hit hn1 h).markerInRange hit hn1

/-- **The function ends**, and has credited every triangle once. -/
theorem processVertex_eq (hit : it.Simple n) (hn1 : n1 < n) :
    ∃ k, ∀ fuel, k ≤ fuel →
      processVertex it n1 fuel = some (credits n1 (triangleList it.neighbours n1)) := by
  have hwf : WellFounded fun t s : State => t.measure < s.measure :=
    InvImage.wf State.measure wellFounded_lt
  -- the loop ends in a state that meets the invariant
  obtain ⟨s, hinv, hend, k, hk⟩ : ∃ s, Invariant it n1 s ∧ decide (s.point ≠ .finished) = false ∧
      ∃ k, ∀ fuel, k ≤ fuel →
        whileLoop (fun s => s.point ≠ .finished) (step it n1) fuel (start it n1) = some s :=
    whileLoop_total_of_wf (Invariant it n1) hwf
      (fun s hs hpoint => hs.goesOn hit hn1 (by simpa using hpoint)) (start it n1) .start
  refine ⟨k, fun fuel hfuel => ?_⟩
  rw [processVertex, hk fuel hfuel, Option.map_some]
  have hfin : s.point = .finished := by simpa using hend
  cases hinv with
  | finished point sorted done => rw [done]
  | outer point => exact absurd (point.symm.trans hfin) (by decide)
  | inner point => exact absurd (point.symm.trans hfin) (by decide)
  | merge point => exact absurd (point.symm.trans hfin) (by decide)
  | advance point => exact absurd (point.symm.trans hfin) (by decide)
  | check point => exact absurd (point.symm.trans hfin) (by decide)

end Reachable

end ProcessVertex

end GfeDriver
