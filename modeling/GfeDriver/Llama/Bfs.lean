import GfeDriver.Foundation.Expansion
import GfeDriver.Foundation.Hops
import GfeDriver.Llama.Snapshot
import Mathlib.Data.List.AList
import Mathlib.Data.Prod.Lex

/-!
# The breadth-first search of LLAMA

`ll_bfs_template` visits one level after the other. While the levels are small one thread keeps the
visited nodes in a map and the queue in a vector. From `THRESHOLD1` new nodes on it changes to a
bitmap, and several threads expand a level. These take the nodes of the level from the queue, or,
once a level has grown much, look for them among the levels of all nodes, and then the new nodes do
not go to the queue. When the levels stop growing the search returns to the queue.

The levels are of type `int16_t`, and `-2` marks the nodes that were not visited.

## Main definitions

* `Search`: the variables of `ll_bfs_template`
* `Search.smallLevel`, `Search.scan`: a level of one thread, and what the threads of a level do
* `Search.getNextState`: the end of a level
* `Config`, `Step`: the search with its threads
* `Search.Ready`, `Search.After`: before and after a level
* `lines`: the lines of the file

## Main results

* `Search.Ready.scan_expanded`, `Search.Ready.smallLevel`: a level of each kind
* `Search.After.next`: the end of a level, in every state
* `Step.inv`: each step keeps the invariant
* `endsIn_distances`: every run ends, with the hop distances
* `copiesDisjoint_of_reach`: the threads copy to slots of their own, within the capacity of the
  vector
* `lines_of_reach`: the lines of the file
-/

namespace GfeDriver

namespace Llama

namespace Bfs

open Foundation Foundation.Expansion Foundation.Reservation

/-! ## The program -/

/-- `ST_SMALL`, `ST_QUE`, `ST_Q2R`, `ST_RD` and `ST_R2Q`. -/
inductive SearchState
  | small
  | que
  | q2r
  | rd
  | r2q
  deriving DecidableEq

/-- `THRESHOLD1`: from one thread to several. -/
def threshold1 : ℕ := 128

/-- `THRESHOLD2`: to the levels of all nodes. -/
def threshold2 : ℕ := 1024

/-- `__INVALID_LEVEL`. -/
def invalidLevel : ℤ := -2

/-- The conversion to `level_t`, which is `int16_t`. -/
def toLevel (z : ℤ) : ℤ := z.bmod 65536

/-- **The variables** of `ll_bfs_template`. The vector has `size` elements, and room for more. -/
structure Search where
  state : SearchState
  currLevel : ℤ
  currCount : ℕ
  nextCount : ℕ
  smallVisited : AList fun _ : ℕ => ℤ
  globalVector : ℕ → ℕ
  size : ℕ
  currLevelBegin : ℕ
  nextLevelBegin : ℕ
  visitedBitmap : ℕ → Bool
  visitedLevel : ℕ → ℤ

/-- The nodes that `visit` goes to: those of the incoming edges too, when the graph is
undirected. -/
def visitNodes (g : Snapshot) (isUndirected : Bool) (t : ℕ) : List ℕ :=
  g.outNodes t ++ if isUndirected then g.inNodes t else []

namespace Search

/-- `prepare`, and the begin of `do_bfs_forward`. -/
def init (root : ℕ) : Search where
  state := .small
  currLevel := 0
  currCount := 1
  nextCount := 0
  smallVisited := AList.insert root 0 ∅
  globalVector := fun _ => root
  size := 1
  currLevelBegin := 0
  nextLevelBegin := 1
  visitedBitmap := fun _ => false
  visitedLevel := fun _ => 0

/-- `get_level`. -/
def getLevel (s : Search) (t : ℕ) : ℤ :=
  match s.state with
  | .small => (s.smallVisited.lookup t).getD invalidLevel
  | _ => s.visitedLevel t

/-- `visit_neighbor_small`. -/
def visitNeighborSmall (s : Search) (u : ℕ) : Search :=
  if u ∈ s.smallVisited then s
  else
    { s with
      smallVisited := s.smallVisited.insert u (toLevel (s.currLevel + 1))
      globalVector := Function.update s.globalVector s.size u
      size := s.size + 1
      nextCount := s.nextCount + 1 }

/-- An iteration of the loop of `ST_SMALL`. -/
def visitSmall (nodes : ℕ → List ℕ) (s : Search) (i : ℕ) : Search :=
  (nodes (s.globalVector (s.currLevelBegin + i))).foldl visitNeighborSmall s

/-- A level in the state `ST_SMALL`. -/
def smallLevel (nodes : ℕ → List ℕ) (s : Search) : Search :=
  (List.range s.currCount).foldl (visitSmall nodes) s

/-- `prepare_que`: from the map to the bitmap and the levels. -/
def prepareQue (s : Search) : Search :=
  { s with
    visitedBitmap := s.smallVisited.entries.foldl (fun b e => Function.update b e.1 true)
      fun _ => false
    visitedLevel := s.smallVisited.entries.foldl (fun l e => Function.update l e.1 e.2)
      fun _ => invalidLevel }

/-- `finish_level`: in the states `ST_RD` and `ST_Q2R` the output queue is not valid. -/
def finishLevel (s : Search) (state : SearchState) : Search :=
  let s : Search :=
    if state = .rd ∨ state = .q2r then s
    else
      { s with
        currLevelBegin := s.nextLevelBegin
        nextLevelBegin := s.nextLevelBegin + s.nextCount }
  { s with currCount := s.nextCount, nextCount := 0, currLevel := toLevel (s.currLevel + 1) }

/-- The state after a level, in `get_next_state`. -/
def nextState (s : Search) : SearchState :=
  match s.state with
  | .small => if threshold1 ≤ s.nextCount then .que else .small
  | .que => if threshold2 ≤ s.nextCount ∧ s.currCount * 5 ≤ s.nextCount then .q2r else .que
  | .q2r => .rd
  | .rd => if s.nextCount ≤ 2 * s.currCount then .r2q else .rd
  | .r2q => .que

/-- `get_next_state`, with `none` when the search is finished. -/
def getNextState (s : Search) : Option Search :=
  if s.nextCount = 0 then none
  else
    let prepared := if s.state = .small ∧ threshold1 ≤ s.nextCount then s.prepareQue else s
    some { prepared.finishLevel s.state with state := s.nextState }

/-- The tables that a level reads and writes. -/
def tables (s : Search) : Tables ℕ ℤ where
  visited t := match s.state with
    | .small => decide (t ∈ s.smallVisited)
    | _ => s.visitedBitmap t
  label := s.getLevel
  queue := s.globalVector
  count := s.nextCount

/-- The tables after a level of several threads. -/
def withTables (s : Search) (T : Tables ℕ ℤ) : Search :=
  { s with
    visitedBitmap := T.visited
    visitedLevel := T.label
    globalVector := T.queue
    nextCount := T.count }

/-- The level takes its nodes from the queue. -/
def FromQueue (state : SearchState) : Prop := state = .small ∨ state = .que ∨ state = .q2r

/-- The new nodes go to the queue. -/
def ToQueue (state : SearchState) : Prop := state = .small ∨ state = .que ∨ state = .r2q

instance (state : SearchState) : Decidable (FromQueue state) :=
  inferInstanceAs (Decidable (_ ∨ _))

instance (state : SearchState) : Decidable (ToQueue state) :=
  inferInstanceAs (Decidable (_ ∨ _))

/-- The number of the iterations of a level. -/
def iterations (g : Snapshot) (s : Search) : ℕ :=
  if FromQueue s.state then s.currCount else g.maxNodes

/-- **What the threads of a level do**, with `visit_neighbor_que` and `finish_thread_que`, or with
`visit_neighbor_rd` and `finish_thread_rd`, which only count the new nodes. -/
def scan (g : Snapshot) (isUndirected : Bool) (s : Search) : Scan ℕ ℕ ℤ where
  pick T i :=
    if FromQueue s.state then some (T.queue (s.currLevelBegin + i))
    else if T.label i = s.currLevel then some i else none
  nbr := visitNodes g isUndirected
  next := toLevel (s.currLevel + 1)
  queued := ToQueue s.state
  base := s.nextLevelBegin

end Search

/-- The search: before the test of the loop, among the threads of a level, after the loop, or after
the loop because of the time. -/
inductive Config (τ : Type)
  | head (s : Search)
  | region (s : Search) (level : Level ℕ ℕ ℤ τ)
  | finished (s : Search)
  | timedOut

/-- The end of an iteration of the loop. -/
def Config.ofLevel (τ : Type) (s : Search) : Config τ :=
  match s.getNextState with
  | none => .finished s
  | some s' => .head s'

/-- **The steps** of `do_bfs_forward`. OpenMP shares the iterations of a level out among the
threads `τ`, in any way. -/
inductive Step {τ : Type} [DecidableEq τ] (g : Snapshot) (isUndirected : Bool) :
    Config τ → Config τ → Prop
  | timeout {s} : Step g isUndirected (.head s) .timedOut
  | small {s} : s.state = .small → Step g isUndirected (.head s)
      (.ofLevel τ (s.smallLevel (visitNodes g isUndirected)))
  | fork {s} (shares : τ → List ℕ) : s.state ≠ .small →
      (∀ i, (∃ w, i ∈ shares w) ↔ i < s.iterations g) →
      Step g isUndirected (.head s) (.region s (.start s.tables shares))
  | work {s l l'} : Expansion.Step (s.scan g isUndirected) l l' →
      Step g isUndirected (.region s l) (.region s l')
  | join {s l} : (∀ w, ∃ k, (l.workers w).stage = .done k) →
      Step g isUndirected (.region s l) (.ofLevel τ (s.withTables l.toTables))

/-- The parallel loop over the nodes, and the lines of the file: `max` is the greatest value of
`int64_t`. -/
def lines (sched : Schedule ℕ) (g : Snapshot) (max : ℤ) (s : Search) : List (ℕ × ℤ) :=
  (translate sched g s.getLevel).map fun p => (p.1, if p.2 ≠ invalidLevel then p.2 else max)

/-! ## Levels -/

theorem toLevel_toLevel_add_one (d : ℕ) : toLevel (toLevel d + 1) = toLevel (d + 1 : ℕ) := by
  rw [toLevel, toLevel, toLevel, Int.bmod_add_bmod, Nat.cast_succ]

theorem toLevel_succ_ne (d : ℕ) : toLevel (d + 1 : ℕ) ≠ toLevel d := by
  simp only [toLevel, Int.bmod_def]
  split_ifs <;> omega

/-- The level that marks the nodes that were not visited is that of the distance `65534`. -/
theorem toLevel_ne_invalidLevel {d : ℕ} (h : d < 65534) : toLevel d ≠ invalidLevel := by
  simp only [toLevel, invalidLevel, Int.bmod_def]
  split_ifs <;> omega

theorem toLevel_of_lt {d : ℕ} (h : d < 32768) : toLevel d = d := by
  simp only [toLevel, Int.bmod_def]
  split_ifs <;> omega

/-! ## The map and the tables -/

/-- The loop over the map stores the levels. -/
theorem foldl_update_level (entries : List (Sigma fun _ : ℕ => ℤ)) (hkeys : entries.NodupKeys)
    (level : ℕ → ℤ) (u : ℕ) :
    entries.foldl (fun l e => Function.update l e.1 e.2) level u =
      (entries.dlookup u).getD (level u) := by
  induction entries generalizing level with
  | nil => rfl
  | cons e entries ih =>
    obtain ⟨hfresh, hkeys⟩ := List.nodupKeys_cons.mp hkeys
    rw [List.foldl_cons, ih hkeys]
    by_cases heu : u = e.1
    · obtain ⟨v, z⟩ := e
      obtain rfl : u = v := heu
      rw [List.dlookup_cons_eq, List.dlookup_eq_none.mpr hfresh, Function.update_self]
      rfl
    · rw [List.dlookup_cons_ne entries e heu, Function.update_of_ne heu]

/-- The loop over the map sets the bits. -/
theorem foldl_update_bitmap (entries : List (Sigma fun _ : ℕ => ℤ)) (bitmap : ℕ → Bool) (u : ℕ) :
    entries.foldl (fun b e => Function.update b e.1 true) bitmap u ↔
      bitmap u ∨ u ∈ entries.keys := by
  induction entries generalizing bitmap with
  | nil => simp
  | cons e entries ih =>
    rw [List.foldl_cons, ih, List.keys_cons, List.mem_cons]
    by_cases heu : u = e.1
    · simp [heu]
    · rw [Function.update_of_ne heu]
      simp [heu]

namespace Search

variable {s s' : Search} {g : Snapshot} {isUndirected : Bool} {u v : ℕ}

theorem visitedBitmap_prepareQue : s.prepareQue.visitedBitmap u ↔ u ∈ s.smallVisited := by
  rw [prepareQue, foldl_update_bitmap]
  exact or_iff_right nofun

theorem visitedLevel_prepareQue :
    s.prepareQue.visitedLevel u = (s.smallVisited.lookup u).getD invalidLevel :=
  foldl_update_level _ s.smallVisited.nodupKeys _ u

theorem tables_withTables (h : s.state ≠ .small) (T : Tables ℕ ℤ) :
    (s.withTables T).tables = T := by
  obtain ⟨state, _⟩ := s
  cases state with
  | small => exact absurd rfl h
  | que | q2r | rd | r2q => rfl

/-! ### The level of one thread -/

theorem tables_of_small (h : s.state = .small) :
    s.tables = ⟨fun t => decide (t ∈ s.smallVisited),
      fun t => (s.smallVisited.lookup t).getD invalidLevel, s.globalVector, s.nextCount⟩ := by
  obtain ⟨state, _⟩ := s
  obtain rfl : state = .small := h
  rfl

/-- A visit of one thread is a visit of the tables. -/
theorem tables_visitNeighborSmall (g : Snapshot) (isUndirected : Bool) (h : s.state = .small)
    (hsize : s.size = s.nextLevelBegin + s.nextCount) (u : ℕ) :
    (s.visitNeighborSmall u).tables = s.tables.visit (s.scan g isUndirected) u := by
  rw [visitNeighborSmall]
  split_ifs with hu
  · rw [Tables.visit, if_pos (by simpa [tables_of_small h] using hu)]
  · refine Eq.trans (tables_of_small h) ?_
    rw [tables_of_small h, Tables.visit, if_neg (by simpa using hu), Tables.mk.injEq]
    refine ⟨funext fun t => ?_, funext fun t => ?_, by rw [hsize]; rfl, rfl⟩
    · by_cases htu : t = u
      · subst htu
        simp
      · rw [Function.update_of_ne htu]
        simp [AList.mem_insert, htu]
    · by_cases htu : t = u
      · subst htu
        simp [AList.lookup_insert, scan]
      · rw [Function.update_of_ne htu, AList.lookup_insert_ne htu]

/-- **One thread alone** has visited the nodes in `R` since `s`. -/
structure SmallVisits (g : Snapshot) (isUndirected : Bool) (s : Search) (R : ℕ → Prop)
    (s' : Search) : Prop where
  state : s'.state = .small
  currLevel : s'.currLevel = s.currLevel
  currLevelBegin : s'.currLevelBegin = s.currLevelBegin
  nextLevelBegin : s'.nextLevelBegin = s.nextLevelBegin
  size : s'.size = s'.nextLevelBegin + s'.nextCount
  expanded : Expanded (s.scan g isUndirected) R s.tables s'.tables

variable {R R' : ℕ → Prop}

theorem SmallVisits.congr (h : SmallVisits g isUndirected s R s') (heq : ∀ u, R u ↔ R' u) :
    SmallVisits g isUndirected s R' s' :=
  { h with expanded := h.expanded.congr fun u _ => heq u }

/-- The threads of a level depend on the variables that `visit_neighbor_small` leaves alone. -/
theorem scan_congr (hstate : s'.state = s.state) (hlevel : s'.currLevel = s.currLevel)
    (hcurr : s'.currLevelBegin = s.currLevelBegin) (hnext : s'.nextLevelBegin = s.nextLevelBegin) :
    s'.scan g isUndirected = s.scan g isUndirected := by
  simp only [scan, hstate, hlevel, hcurr, hnext]

theorem SmallVisits.visit (hs : s.state = .small) (h : SmallVisits g isUndirected s R s') (u : ℕ) :
    SmallVisits g isUndirected s (fun v => R v ∨ v = u) (s'.visitNeighborSmall u) := by
  have hframe : (s'.visitNeighborSmall u).state = s'.state ∧
      (s'.visitNeighborSmall u).currLevel = s'.currLevel ∧
      (s'.visitNeighborSmall u).currLevelBegin = s'.currLevelBegin ∧
      (s'.visitNeighborSmall u).nextLevelBegin = s'.nextLevelBegin ∧
      (s'.visitNeighborSmall u).size =
        (s'.visitNeighborSmall u).nextLevelBegin + (s'.visitNeighborSmall u).nextCount := by
    rw [visitNeighborSmall]
    split_ifs
    · exact ⟨rfl, rfl, rfl, rfl, h.size⟩
    · refine ⟨rfl, rfl, rfl, rfl, ?_⟩
      simp only [h.size, Nat.add_assoc]
  obtain ⟨hstate, hlevel, hcurr, hnext, hsize⟩ := hframe
  refine ⟨hstate.trans h.state, hlevel.trans h.currLevel, hcurr.trans h.currLevelBegin,
    hnext.trans h.nextLevelBegin, hsize, ?_⟩
  rw [tables_visitNeighborSmall g isUndirected h.state h.size,
    scan_congr (h.state.trans hs.symm) h.currLevel h.currLevelBegin h.nextLevelBegin]
  exact h.expanded.visit u

theorem SmallVisits.foldl (hs : s.state = .small) (h : SmallVisits g isUndirected s R s')
    (us : List ℕ) :
    SmallVisits g isUndirected s (fun v => R v ∨ v ∈ us) (us.foldl visitNeighborSmall s') := by
  induction us generalizing R s' with
  | nil => exact h.congr fun v => by simp
  | cons u us ih => exact (ih (h.visit hs u)).congr fun v => by simp [or_assoc]

/-- **The level of one thread**: the nodes that it reads from the vector are those before it. -/
theorem smallVisits_smallLevel (g : Snapshot) (isUndirected : Bool) (hs : s.state = .small)
    (hcount : s.nextCount = 0) (hsize : s.size = s.nextLevelBegin)
    (hadj : s.nextLevelBegin = s.currLevelBegin + s.currCount) :
    SmallVisits g isUndirected s
      (fun v => ∃ i < s.currCount,
        v ∈ visitNodes g isUndirected (s.globalVector (s.currLevelBegin + i)))
      (s.smallLevel (visitNodes g isUndirected)) := by
  have hloop : ∀ n ≤ s.currCount, SmallVisits g isUndirected s
      (fun v => ∃ i < n, v ∈ visitNodes g isUndirected (s.globalVector (s.currLevelBegin + i)))
      ((List.range n).foldl (visitSmall (visitNodes g isUndirected)) s) := by
    intro n hn
    induction n with
    | zero =>
      have hzero : SmallVisits g isUndirected s (fun _ => False) s :=
        ⟨hs, rfl, rfl, rfl, by rw [hsize, hcount, Nat.add_zero], .refl hcount⟩
      exact hzero.congr fun v => by simp
    | succ n ih =>
      have h := ih (Nat.le_of_succ_le hn)
      rw [List.range_succ, List.foldl_append, List.foldl_cons, List.foldl_nil, visitSmall,
        h.currLevelBegin]
      have hread := h.expanded.queue (s.currLevelBegin + n) (by
        change _ < s.nextLevelBegin
        omega)
      rw [show ((List.range n).foldl (visitSmall (visitNodes g isUndirected)) s).globalVector
        (s.currLevelBegin + n) = s.globalVector (s.currLevelBegin + n) from hread]
      refine (h.foldl hs _).congr fun v => ?_
      simp only [Nat.lt_succ_iff_lt_or_eq, or_and_right, exists_or, exists_eq_left]
  exact hloop s.currCount (le_refl _)

end Search

/-! ## Before and after a level -/

/-- An edge that the search follows. -/
def Edge (g : Snapshot) (isUndirected : Bool) (u v : ℕ) : Prop := v ∈ visitNodes g isUndirected u

theorem Edge.lt {g : Snapshot} {isUndirected : Bool} {u v : ℕ} (hg : g.WellFormed)
    (h : Edge g isUndirected u v) : v < g.maxNodes := by
  rcases List.mem_append.mp h with h | h
  · exact (hg.lt_of_arc h).2
  · cases isUndirected with
    | false => exact absurd h List.not_mem_nil
    | true => exact (hg.lt_of_arc (hg.mem_inNodes_iff.mp h)).1

/-- The search reaches nodes of the snapshot only. -/
theorem lt_of_hops {g : Snapshot} {isUndirected : Bool} {root k v : ℕ} (hg : g.WellFormed)
    (hroot : root < g.maxNodes) (h : Hops (Edge g isUndirected) root k v) : v < g.maxNodes := by
  cases h with
  | zero => exact hroot
  | succ _ huv => exact huv.lt hg

namespace Search

/-- The levels of the nodes within `d` hops are their distances, and the others have none. -/
structure Labelled (g : Snapshot) (isUndirected : Bool) (root d : ℕ) (s : Search) : Prop where
  visited : ∀ v, s.tables.visited v ↔ Within (Edge g isUndirected) root d v
  seen : ∀ v k, IsDist (Edge g isUndirected) root v k → k ≤ d → s.getLevel v = toLevel k
  unseen : ∀ v, ¬Within (Edge g isUndirected) root d v → s.getLevel v = invalidLevel

/-- **Before the level** `d`, which is not empty: the queue holds its nodes, if they are taken from
there, and the part of the vector below `nextLevelBegin` is for distinct visited nodes. -/
structure Ready (g : Snapshot) (isUndirected : Bool) (root d : ℕ) (s : Search) : Prop where
  labelled : s.Labelled g isUndirected root d
  currLevel : s.currLevel = toLevel d
  nextCount : s.nextCount = 0
  currCount : s.currCount ≠ 0
  front : ∃ l : List ℕ, l.Nodup ∧ (∀ v, v ∈ l ↔ IsDist (Edge g isUndirected) root v d) ∧
    s.currCount = l.length ∧
    (FromQueue s.state → window s.globalVector s.currLevelBegin s.currCount = l)
  adjacent : FromQueue s.state → s.nextLevelBegin = s.currLevelBegin + s.currCount
  size : s.state = .small → s.size = s.nextLevelBegin
  room : ∃ q : List ℕ, q.Nodup ∧ (∀ v ∈ q, Within (Edge g isUndirected) root d v) ∧
    s.nextLevelBegin = q.length

/-- **After the level** `d`: the new nodes are in the queue, if they go there. -/
structure After (g : Snapshot) (isUndirected : Bool) (root d : ℕ) (s : Search) : Prop where
  labelled : s.Labelled g isUndirected root (d + 1)
  currLevel : s.currLevel = toLevel d
  found : ∃ l : List ℕ, l.Nodup ∧ (∀ v, v ∈ l ↔ IsDist (Edge g isUndirected) root v (d + 1)) ∧
    s.nextCount = l.length ∧
    (ToQueue s.state → window s.globalVector s.nextLevelBegin s.nextCount = l)
  size : s.state = .small → s.size = s.nextLevelBegin + s.nextCount
  room : ∃ q : List ℕ, q.Nodup ∧ (∀ v ∈ q, Within (Edge g isUndirected) root d v) ∧
    s.nextLevelBegin = q.length

variable {g : Snapshot} {isUndirected : Bool} {root d : ℕ} {s s' : Search} {R F : ℕ → Prop}

/-- **A level of any kind**: the nodes that it scans hold the level `d`, and are visited. -/
theorem Ready.after (h : s.Ready g isUndirected root d)
    (hexp : Expanded (s.scan g isUndirected) R s.tables s'.tables) (hstate : s'.state = s.state)
    (hlevel : s'.currLevel = s.currLevel) (hnext : s'.nextLevelBegin = s.nextLevelBegin)
    (hsize : s.state = .small → s'.size = s'.nextLevelBegin + s'.nextCount)
    (hlast : ∀ t, IsDist (Edge g isUndirected) root t d → F t)
    (hF : ∀ t, F t → Within (Edge g isUndirected) root d t)
    (hR : ∀ u, R u ↔ ∃ t, F t ∧ Edge g isUndirected t u) : s'.After g isUndirected root d := by
  have hnew : ∀ v, ¬s.tables.visited v ∧ R v ↔ IsDist (Edge g isUndirected) root v (d + 1) := by
    intro v
    rw [isDist_succ_iff_of_scan hlast hF, h.labelled.visited, hR]
  refine ⟨⟨fun v => ?_, fun v k hk hkd => ?_, fun v hv => ?_⟩, hlevel.trans h.currLevel, ?_, ?_, ?_⟩
  · rw [hexp.visited, h.labelled.visited, hR, within_succ_iff hlast hF]
  · by_cases hkd' : k = d + 1
    · subst hkd'
      obtain ⟨hold, hr⟩ := (hnew v).mpr hk
      refine (hexp.label_new v hold hr).trans ?_
      rw [← toLevel_toLevel_add_one, ← h.currLevel]
      rfl
    · have hle : k ≤ d := by omega
      refine (hexp.label_old v (.inl ?_)).trans (h.labelled.seen v k hk hle)
      exact (h.labelled.visited v).mpr (hk.le_iff_within.mp hle)
  · rw [within_succ_iff hlast hF, ← hR, not_or] at hv
    exact (hexp.label_old v (.inr hv.2)).trans (h.labelled.unseen v hv.1)
  · obtain ⟨l, hnodup, hmem, hcount, hseg⟩ := hexp.found
    refine ⟨l, hnodup, fun v => (hmem v).trans (hnew v), hcount, fun hto => ?_⟩
    rw [hstate] at hto
    rw [hnext]
    exact hseg (by simpa [scan] using hto)
  · rwa [hstate]
  · rw [hnext]
    exact h.room

/-- The nodes at the ends of a level that is taken from the queue. -/
theorem Ready.exists_fromQueue (h : s.Ready g isUndirected root d) (hfrom : FromQueue s.state)
    (t : ℕ) : IsDist (Edge g isUndirected) root t d ↔
      ∃ i < s.currCount, s.globalVector (s.currLevelBegin + i) = t := by
  obtain ⟨l, -, hmem, -, hseg⟩ := h.front
  rw [← hmem, ← hseg hfrom, mem_window]

/-- **The level of one thread.** -/
theorem Ready.smallLevel (h : s.Ready g isUndirected root d) (hs : s.state = .small) :
    (s.smallLevel (visitNodes g isUndirected)).After g isUndirected root d := by
  have hfrom : FromQueue s.state := .inl hs
  have hv := smallVisits_smallLevel g isUndirected hs h.nextCount (h.size hs) (h.adjacent hfrom)
  refine h.after (F := fun t => IsDist (Edge g isUndirected) root t d) hv.expanded
    (hv.state.trans hs.symm) hv.currLevel hv.nextLevelBegin (fun _ => hv.size) (fun t ht => ht)
    (fun t ht => ht.le_iff_within.mp (le_refl d)) fun u => ?_
  simp only [h.exists_fromQueue hfrom]
  constructor
  · rintro ⟨i, hi, hu⟩
    exact ⟨_, ⟨i, hi, rfl⟩, hu⟩
  · rintro ⟨t, ⟨i, hi, rfl⟩, hu⟩
    exact ⟨i, hi, hu⟩

end Search

/-! ## The level of several threads -/

namespace Search

variable {τ : Type} {g : Snapshot} {isUndirected : Bool} {root d : ℕ} {s s' : Search}
  {shares : τ → List ℕ}

/-- The nodes that a level scans. -/
def Scanned (g : Snapshot) (s : Search) (t : ℕ) : Prop :=
  if FromQueue s.state then ∃ i < s.currCount, s.globalVector (s.currLevelBegin + i) = t
  else t < g.maxNodes ∧ s.getLevel t = s.currLevel

/-- The level is that of some node. -/
theorem Ready.exists_isDist (h : s.Ready g isUndirected root d) :
    ∃ v, IsDist (Edge g isUndirected) root v d := by
  obtain ⟨l, -, hmem, hcount, -⟩ := h.front
  obtain ⟨v, hv⟩ := List.exists_mem_of_length_pos
    (Nat.pos_of_ne_zero fun h0 => h.currCount (hcount.trans h0))
  exact ⟨v, (hmem v).mp hv⟩

/-- A node with the level that is scanned was visited. -/
theorem Ready.within_of_getLevel (h : s.Ready g isUndirected root d) (hd : d < 65534) {t : ℕ}
    (ht : s.getLevel t = s.currLevel) : Within (Edge g isUndirected) root d t := by
  by_contra hnot
  rw [h.labelled.unseen t hnot, h.currLevel] at ht
  exact toLevel_ne_invalidLevel hd ht.symm

theorem Ready.scanned_of_isDist (h : s.Ready g isUndirected root d) (hg : g.WellFormed)
    (hroot : root < g.maxNodes) {t : ℕ} (ht : IsDist (Edge g isUndirected) root t d) :
    s.Scanned g t := by
  rw [Scanned]
  split_ifs with hfrom
  · exact (h.exists_fromQueue hfrom t).mp ht
  · refine ⟨lt_of_hops hg hroot ht.1, ?_⟩
    rw [h.labelled.seen t d ht (le_refl d), h.currLevel]

theorem Ready.within_of_scanned (h : s.Ready g isUndirected root d) (hd : d < 65534) {t : ℕ}
    (ht : s.Scanned g t) : Within (Edge g isUndirected) root d t := by
  rw [Scanned] at ht
  split_ifs at ht with hfrom
  · exact ((h.exists_fromQueue hfrom t).mpr ht).le_iff_within.mp (le_refl d)
  · exact h.within_of_getLevel hd ht.2

/-- The threads reach the ends of the edges from the nodes that the level scans. -/
theorem reached_iff (hshares : ∀ i, (∃ w, i ∈ shares w) ↔ i < s.iterations g) (u : ℕ) :
    Reached (s.scan g isUndirected) s.tables shares u ↔
      ∃ t, s.Scanned g t ∧ Edge g isUndirected t u := by
  have hswap : Reached (s.scan g isUndirected) s.tables shares u ↔
      ∃ i < s.iterations g, u ∈ (s.scan g isUndirected).ends s.tables i := by
    simp only [Reached, ← hshares]
    constructor
    · rintro ⟨w, i, hi, hu⟩
      exact ⟨i, ⟨w, hi⟩, hu⟩
    · rintro ⟨i, ⟨w, hi⟩, hu⟩
      exact ⟨w, i, hi, hu⟩
  rw [hswap]
  by_cases hfrom : FromQueue s.state
  · simp only [iterations, Scanned, Scan.ends, scan, if_pos hfrom, Option.elim_some]
    constructor
    · rintro ⟨i, hi, hu⟩
      exact ⟨_, ⟨i, hi, rfl⟩, hu⟩
    · rintro ⟨t, ⟨i, hi, rfl⟩, hu⟩
      exact ⟨i, hi, hu⟩
  · simp only [iterations, Scanned, Scan.ends, scan, if_neg hfrom]
    constructor
    · rintro ⟨i, hi, hu⟩
      by_cases hlevel : s.tables.label i = s.currLevel
      · rw [if_pos hlevel] at hu
        exact ⟨i, ⟨hi, hlevel⟩, hu⟩
      · rw [if_neg hlevel] at hu
        exact absurd hu List.not_mem_nil
    · rintro ⟨t, ⟨ht, hlevel⟩, hu⟩
      refine ⟨t, ht, ?_⟩
      rw [if_pos (show s.tables.label t = s.currLevel from hlevel)]
      exact hu

/-- **The threads do not disturb each other's picks**: they write beyond the level in the queue, and
labels of another level. -/
theorem Ready.stable (h : s.Ready g isUndirected root d) (hd : d < 65534)
    (hshares : ∀ i, (∃ w, i ∈ shares w) ↔ i < s.iterations g) :
    Stable (s.scan g isUndirected) s.tables shares := by
  intro T' hqueue hlabel w i hi
  have hlt : i < s.iterations g := (hshares i).mp ⟨w, hi⟩
  by_cases hfrom : FromQueue s.state
  · rw [iterations, if_pos hfrom] at hlt
    have hread : T'.queue (s.currLevelBegin + i) = s.globalVector (s.currLevelBegin + i) := by
      refine hqueue _ ?_
      have hadj := h.adjacent hfrom
      change _ < s.nextLevelBegin
      omega
    simp only [scan, if_pos hfrom, hread]
    rfl
  · have hsame : T'.label i = s.currLevel ↔ s.tables.label i = s.currLevel := by
      rcases hlabel i with heq | ⟨hnot, heq⟩
      · rw [heq]
      · have hne : T'.label i ≠ s.currLevel := by
          rw [heq]
          change toLevel (s.currLevel + 1) ≠ s.currLevel
          rw [h.currLevel, toLevel_toLevel_add_one]
          exact toLevel_succ_ne d
        refine iff_of_false hne fun hlevel => hnot ?_
        exact (h.labelled.visited i).mpr (h.within_of_getLevel hd hlevel)
    simp only [scan, if_neg hfrom, hsame]

/-- **The level of several threads.** -/
theorem Ready.withTables (h : s.Ready g isUndirected root d) (hg : g.WellFormed)
    (hroot : root < g.maxNodes) (hd : d < 65534) (hs : s.state ≠ .small)
    (hshares : ∀ i, (∃ w, i ∈ shares w) ↔ i < s.iterations g) {T : Tables ℕ ℤ}
    (hexp : Expanded (s.scan g isUndirected) (Reached (s.scan g isUndirected) s.tables shares)
      s.tables T) : (s.withTables T).After g isUndirected root d := by
  rw [← tables_withTables hs T] at hexp
  exact h.after (F := s.Scanned g) hexp rfl rfl rfl (fun hsmall => absurd hsmall hs)
    (fun t ht => h.scanned_of_isDist hg hroot ht) (fun t ht => h.within_of_scanned hd ht)
    (reached_iff hshares)

/-! ## The end of a level -/

theorem toQueue_iff {state : SearchState} : ToQueue state ↔ ¬(state = .rd ∨ state = .q2r) := by
  cases state <;> simp [ToQueue]

/-- The nodes of a level are in the queue if the level before put them there. -/
theorem toQueue_of_fromQueue (h : FromQueue s.nextState) : ToQueue s.state := by
  rw [nextState] at h
  cases hs : s.state with
  | small => exact .inl rfl
  | que => exact .inr (.inl rfl)
  | r2q => exact .inr (.inr rfl)
  | q2r =>
    rw [hs] at h
    exact absurd h (show ¬FromQueue .rd by decide)
  | rd =>
    rw [hs] at h
    simp only at h
    split_ifs at h <;> exact absurd h (by decide)

/-- The search leaves the first state once and for all, with the bitmap. -/
theorem nextState_eq_small_iff :
    s.nextState = .small ↔ s.state = .small ∧ s.nextCount < threshold1 := by
  rw [nextState]
  cases hs : s.state with
  | small =>
    simp only [true_and]
    split_ifs with h
    · simp [h]
    · simpa using h
  | que | rd =>
    simp only [reduceCtorEq, false_and, iff_false]
    split_ifs <;> exact nofun
  | q2r | r2q => simp

/-- The search after a level that found nodes. -/
def advance (s : Search) : Search :=
  let prepared := if s.state = .small ∧ threshold1 ≤ s.nextCount then s.prepareQue else s
  { prepared.finishLevel s.state with state := s.nextState }

theorem getNextState_eq : s.getNextState = if s.nextCount = 0 then none else some s.advance := rfl

theorem advance_fields : s.advance.currCount = s.nextCount ∧ s.advance.nextCount = 0 ∧
    s.advance.currLevel = toLevel (s.currLevel + 1) ∧ s.advance.globalVector = s.globalVector ∧
    s.advance.size = s.size ∧ s.advance.smallVisited = s.smallVisited := by
  refine ⟨?_, rfl, ?_, ?_, ?_, ?_⟩ <;> simp only [advance, finishLevel] <;> split_ifs <;> rfl

theorem advance_begin (hto : ToQueue s.state) : s.advance.currLevelBegin = s.nextLevelBegin ∧
    s.advance.nextLevelBegin = s.nextLevelBegin + s.nextCount := by
  simp only [advance, finishLevel, if_neg (toQueue_iff.mp hto)]
  split_ifs <;> exact ⟨rfl, rfl⟩

theorem nextLevelBegin_advance (hto : ¬ToQueue s.state) :
    s.advance.nextLevelBegin = s.nextLevelBegin := by
  rw [toQueue_iff, not_not] at hto
  simp only [advance, finishLevel, if_pos hto]
  split_ifs <;> rfl

theorem bitmap_advance_of_small (h : s.state = .small) (hcount : threshold1 ≤ s.nextCount) :
    s.advance.visitedBitmap = s.prepareQue.visitedBitmap ∧
      s.advance.visitedLevel = s.prepareQue.visitedLevel := by
  simp only [advance, finishLevel, if_pos (And.intro h hcount)]
  split_ifs <;> exact ⟨rfl, rfl⟩

theorem bitmap_advance_of_ne (h : s.state ≠ .small) :
    s.advance.visitedBitmap = s.visitedBitmap ∧ s.advance.visitedLevel = s.visitedLevel := by
  simp only [advance, finishLevel, if_neg fun hand : s.state = .small ∧ _ => h hand.1]
  split_ifs <;> exact ⟨rfl, rfl⟩

theorem tables_of_ne (h : s.state ≠ .small) :
    s.tables.visited = s.visitedBitmap ∧ s.getLevel = s.visitedLevel := by
  obtain ⟨state, _⟩ := s
  cases state with
  | small => exact absurd rfl h
  | que | q2r | rd | r2q => exact ⟨rfl, rfl⟩

/-- **The change of the tables** from the map to the bitmap keeps the marks and the levels. -/
theorem tables_advance (t : ℕ) : (s.advance.tables.visited t ↔ s.tables.visited t) ∧
    s.advance.getLevel t = s.getLevel t := by
  obtain ⟨-, -, -, -, -, hmap⟩ := s.advance_fields
  by_cases hnext : s.nextState = .small
  · obtain ⟨hsmall, -⟩ := nextState_eq_small_iff.mp hnext
    have h : s.advance.tables.visited = s.tables.visited ∧ s.advance.getLevel = s.getLevel := by
      rw [show s.advance.getLevel = s.advance.tables.label from rfl,
        show s.getLevel = s.tables.label from rfl, tables_of_small hsmall,
        tables_of_small (show s.advance.state = .small from hnext), hmap]
      exact ⟨rfl, rfl⟩
    exact ⟨by rw [h.1], by rw [h.2]⟩
  · obtain ⟨hbitmap, hlevel⟩ := tables_of_ne (show s.advance.state ≠ .small from hnext)
    rw [hbitmap, hlevel]
    by_cases hsmall : s.state = .small
    · have hcount : threshold1 ≤ s.nextCount := by
        by_contra hlt
        exact hnext (nextState_eq_small_iff.mpr ⟨hsmall, not_le.mp hlt⟩)
      obtain ⟨hbitmap', hlevel'⟩ := bitmap_advance_of_small hsmall hcount
      rw [hbitmap', hlevel', visitedBitmap_prepareQue, visitedLevel_prepareQue,
        show s.getLevel t = s.tables.label t from rfl, tables_of_small hsmall]
      exact ⟨decide_eq_true_iff.symm, rfl⟩
    · obtain ⟨hbitmap', hlevel'⟩ := bitmap_advance_of_ne hsmall
      obtain ⟨hvisited, hlabel⟩ := tables_of_ne hsmall
      rw [hbitmap', hlevel', hvisited, hlabel]
      exact ⟨Iff.rfl, rfl⟩

/-- **The end of a level**: without new nodes every node was found, and otherwise the search is
ready for the next level. -/
theorem After.next (h : s.After g isUndirected root d) :
    (s.getNextState = none ∧ ∀ k v, Hops (Edge g isUndirected) root k v →
      Within (Edge g isUndirected) root d v) ∨
    (s.getNextState = some s.advance ∧ s.advance.Ready g isUndirected root (d + 1)) := by
  obtain ⟨l, hnodup, hmem, hcount, hseg⟩ := h.found
  rw [getNextState_eq]
  split_ifs with h0
  · refine .inl ⟨rfl, fun k v hk => within_of_level_empty (fun u hu => ?_) hk⟩
    have hnil : l = [] := List.eq_nil_of_length_eq_zero (hcount.symm.trans h0)
    rw [← hmem, hnil] at hu
    exact absurd hu List.not_mem_nil
  · refine .inr ⟨rfl, ?_⟩
    obtain ⟨hcurr, hnext, hlevel, hvector, hsize, -⟩ := s.advance_fields
    obtain ⟨q, hq, hqw, hqlen⟩ := h.room
    refine ⟨⟨fun v => ?_, fun v k hk hkd => ?_, fun v hv => ?_⟩, ?_, hnext, by rwa [hcurr],
      ⟨l, hnodup, hmem, hcurr.trans hcount, fun hfrom => ?_⟩, fun hfrom => ?_, fun hsmall => ?_, ?_⟩
    · rw [(tables_advance v).1]
      exact h.labelled.visited v
    · rw [(tables_advance v).2]
      exact h.labelled.seen v k hk hkd
    · rw [(tables_advance v).2]
      exact h.labelled.unseen v hv
    · rw [hlevel, h.currLevel, toLevel_toLevel_add_one]
    · have hto := toQueue_of_fromQueue hfrom
      rw [hvector, (advance_begin hto).1, hcurr]
      exact hseg hto
    · have hto := toQueue_of_fromQueue hfrom
      rw [(advance_begin hto).1, (advance_begin hto).2, hcurr]
    · obtain ⟨hs, -⟩ := nextState_eq_small_iff.mp hsmall
      rw [hsize, h.size hs, (advance_begin (.inl hs)).2]
    · have hmono : ∀ v ∈ q, Within (Edge g isUndirected) root (d + 1) v := fun v hv => by
        obtain ⟨k, hk, hw⟩ := hqw v hv
        exact ⟨k, by omega, hw⟩
      by_cases hto : ToQueue s.state
      · refine ⟨q ++ l, List.nodup_append.mpr ⟨hq, hnodup, fun a ha b hb hab => ?_⟩,
          fun v hv => ?_, ?_⟩
        · subst hab
          have hle := ((hmem a).mp hb).le_iff_within.mpr (hqw a ha)
          omega
        · rcases List.mem_append.mp hv with hv | hv
          · exact hmono v hv
          · exact ((hmem v).mp hv).le_iff_within.mp (le_refl _)
        · rw [(advance_begin hto).2, hqlen, hcount, List.length_append]
      · exact ⟨q, hq, hmono, by rw [nextLevelBegin_advance hto, hqlen]⟩

end Search

/-! ## The search -/

section Run

variable {τ : Type} {g : Snapshot} {isUndirected : Bool} {root : ℕ}

/-- The result: the levels are the distances, as values of `level_t`, and the nodes out of reach
have none. -/
def Distances (g : Snapshot) (isUndirected : Bool) (root : ℕ) (s : Search) : Prop :=
  (∀ v k, IsDist (Edge g isUndirected) root v k → s.getLevel v = toLevel k) ∧
    ∀ v, (∀ k, ¬Hops (Edge g isUndirected) root k v) → s.getLevel v = invalidLevel

/-- **The invariant** of the search. -/
def Config.Inv (g : Snapshot) (isUndirected : Bool) (root : ℕ) : Config τ → Prop
  | .head s => ∃ d, s.Ready g isUndirected root d
  | .region s l => ∃ d shares, s.Ready g isUndirected root d ∧ s.state ≠ .small ∧
      (∀ i, (∃ w, i ∈ shares w) ↔ i < s.iterations g) ∧
      Expansion.Inv (s.scan g isUndirected) s.tables shares l
  | .finished s => Distances g isUndirected root s
  | .timedOut => True

theorem getLevel_init (v : ℕ) :
    (Search.init root).getLevel v = if v = root then 0 else invalidLevel := by
  rw [show (Search.init root).getLevel v =
    ((Search.init root).smallVisited.lookup v).getD invalidLevel from rfl, Search.init]
  split_ifs with hv
  · rw [hv, AList.lookup_insert]
    rfl
  · rw [AList.lookup_insert_ne hv]
    rfl

/-- The search is ready for the level of the root. -/
theorem ready_init : (Search.init root).Ready g isUndirected root 0 := by
  have hwithin : ∀ v, Within (Edge g isUndirected) root 0 v ↔ v = root := fun v => within_zero_iff
  refine ⟨⟨fun v => ?_, fun v k hk hk0 => ?_, fun v hv => ?_⟩, rfl, rfl, Nat.one_ne_zero,
    ⟨[root], List.nodup_singleton root, fun v => ?_, rfl, fun _ => rfl⟩, fun _ => rfl, fun _ => rfl,
    ⟨[root], List.nodup_singleton root, fun v hv => ?_, rfl⟩⟩
  · rw [hwithin, Search.tables_of_small (show (Search.init root).state = .small from rfl),
      decide_eq_true_iff, Search.init, AList.mem_insert]
    exact or_iff_left nofun
  · obtain rfl : k = 0 := Nat.le_zero.mp hk0
    rw [getLevel_init, if_pos (isDist_zero_iff.mp hk)]
    rfl
  · rw [hwithin] at hv
    rw [getLevel_init, if_neg hv]
  · rw [isDist_zero_iff, List.mem_singleton]
  · rw [hwithin]
    exact List.mem_singleton.mp hv

theorem inv_init : (Config.head (τ := τ) (Search.init root)).Inv g isUndirected root :=
  ⟨0, ready_init⟩

/-- The end of a level keeps the invariant. -/
theorem inv_ofLevel {s : Search} {d : ℕ} (h : s.After g isUndirected root d) :
    (Config.ofLevel τ s).Inv g isUndirected root := by
  rw [Config.ofLevel]
  rcases h.next with ⟨hnext, hall⟩ | ⟨hnext, hready⟩
  · rw [hnext]
    refine ⟨fun v k hk => ?_, fun v hv => ?_⟩
    · have hkd := hk.le_iff_within.mpr (hall k v hk.1)
      exact h.labelled.seen v k hk (by omega)
    · exact h.labelled.unseen v fun ⟨k, _, hk⟩ => hv k hk
  · rw [hnext]
    exact ⟨d + 1, hready⟩

/-- **Each step** keeps the invariant. -/
theorem Step.inv [DecidableEq τ] (hg : g.WellFormed) (hroot : root < g.maxNodes)
    (hfar : ∀ v k, IsDist (Edge g isUndirected) root v k → k < 65534) {x y : Config τ}
    (h : x.Inv g isUndirected root) (hs : Step g isUndirected x y) :
    y.Inv g isUndirected root := by
  cases hs with
  | timeout => trivial
  | small hsmall =>
    obtain ⟨d, hready⟩ := h
    exact inv_ofLevel (hready.smallLevel hsmall)
  | fork shares hsmall hshares =>
    obtain ⟨d, hready⟩ := h
    exact ⟨d, shares, hready, hsmall, hshares, .start hready.nextCount⟩
  | work hstep =>
    obtain ⟨d, shares, hready, hsmall, hshares, hinv⟩ := h
    obtain ⟨v, hv⟩ := hready.exists_isDist
    exact ⟨d, shares, hready, hsmall, hshares, hstep.inv (hready.stable (hfar v d hv) hshares) hinv⟩
  | join hdone =>
    obtain ⟨d, shares, hready, hsmall, hshares, hinv⟩ := h
    obtain ⟨v, hv⟩ := hready.exists_isDist
    exact inv_ofLevel
      (hready.withTables hg hroot (hfar v d hv) hsmall hshares (hinv.expanded hdone))

/-- The number of the nodes that were not visited. -/
def unseen (g : Snapshot) (s : Search) : ℕ :=
  ((Finset.range g.maxNodes).filter fun v => ¬s.tables.visited v).card

/-- Each level visits a node. -/
theorem unseen_lt (hg : g.WellFormed) (hroot : root < g.maxNodes) {s s' : Search} {d : ℕ}
    (h : s.Ready g isUndirected root d) (h' : s'.Ready g isUndirected root (d + 1)) :
    unseen g s' < unseen g s := by
  obtain ⟨v, hv⟩ := h'.exists_isDist
  refine Finset.card_lt_card ((Finset.ssubset_iff_of_subset fun u hu => ?_).mpr ⟨v, ?_, ?_⟩)
  · rw [Finset.mem_filter] at hu ⊢
    refine ⟨hu.1, fun hvis => hu.2 ?_⟩
    obtain ⟨k, hk, hw⟩ := (h.labelled.visited u).mp hvis
    exact (h'.labelled.visited u).mpr ⟨k, by omega, hw⟩
  · rw [Finset.mem_filter, Finset.mem_range, h.labelled.visited, ← hv.le_iff_within]
    exact ⟨lt_of_hops hg hroot hv.1, by omega⟩
  · rw [Finset.mem_filter, h'.labelled.visited]
    exact fun hnot => hnot.2 (hv.le_iff_within.mp (le_refl _))

/-- A bound of the steps that are left: for each level, and in a level. -/
def Config.measure [Fintype τ] (g : Snapshot) (isUndirected : Bool) : Config τ → ℕ ×ₗ ℕ
  | .head s => toLex (2 * unseen g s + 2, 0)
  | .region s l => toLex (2 * unseen g s + 1,
      ∑ w, (l.workers w).weight (s.scan g isUndirected) s.tables)
  | .finished _ => toLex (0, 0)
  | .timedOut => toLex (0, 0)

/-- After a level there are fewer levels left. -/
theorem measure_ofLevel [Fintype τ] (hg : g.WellFormed) (hroot : root < g.maxNodes) {s s' : Search}
    {d : ℕ} (h : s.Ready g isUndirected root d) (h' : s'.After g isUndirected root d) {n : ℕ} :
    (Config.ofLevel τ s').measure g isUndirected < toLex (2 * unseen g s + 1, n) := by
  rw [Config.ofLevel]
  refine Prod.Lex.toLex_lt_toLex.mpr (.inl ?_)
  rcases h'.next with ⟨hnext, -⟩ | ⟨hnext, hready⟩
  · rw [hnext]
    exact Nat.succ_pos _
  · rw [hnext]
    have := unseen_lt hg hroot h hready
    change 2 * unseen g s'.advance + 2 < 2 * unseen g s + 1
    omega

/-- **Each step** lowers the bound. -/
theorem Step.measure_lt [DecidableEq τ] [Fintype τ] (hg : g.WellFormed) (hroot : root < g.maxNodes)
    (hfar : ∀ v k, IsDist (Edge g isUndirected) root v k → k < 65534) {x y : Config τ}
    (h : x.Inv g isUndirected root) (hs : Step g isUndirected x y) :
    y.measure g isUndirected < x.measure g isUndirected := by
  cases hs with
  | timeout => exact Prod.Lex.toLex_lt_toLex.mpr (.inl (Nat.succ_pos _))
  | @small s hsmall =>
    obtain ⟨d, hready⟩ := h
    refine (measure_ofLevel hg hroot hready (hready.smallLevel hsmall) (n := 0)).trans ?_
    exact Prod.Lex.toLex_lt_toLex.mpr (.inl (Nat.lt_succ_self _))
  | fork shares => exact Prod.Lex.toLex_lt_toLex.mpr (.inl (Nat.lt_succ_self _))
  | work hstep =>
    obtain ⟨d, shares, hready, -, hshares, hinv⟩ := h
    obtain ⟨v, hv⟩ := hready.exists_isDist
    refine Prod.Lex.toLex_lt_toLex.mpr (.inr ⟨rfl, ?_⟩)
    exact hstep.weight_lt (hready.stable (hfar v d hv) hshares) hinv
  | join hdone =>
    obtain ⟨d, shares, hready, hsmall, hshares, hinv⟩ := h
    obtain ⟨v, hv⟩ := hready.exists_isDist
    exact measure_ofLevel hg hroot hready
      (hready.withTables hg hroot (hfar v d hv) hsmall hshares (hinv.expanded hdone))

/-! ### Small snapshots -/

theorem edge_oneEdge_iff {u v : ℕ} : Edge oneEdge false u v ↔ u = 0 ∧ v = 1 := by
  simp [Edge, visitNodes, Snapshot.outNodes, oneEdge]

theorem hops_oneEdge {k v : ℕ} (h : Hops (Edge oneEdge false) 0 k v) : k = v ∧ v ≤ 1 := by
  induction h with
  | zero => exact ⟨rfl, Nat.zero_le 1⟩
  | succ _ huv ih =>
    obtain ⟨rfl, rfl⟩ := edge_oneEdge_iff.mp huv
    exact ⟨congrArg (· + 1) ih.1, le_refl 1⟩

theorem lt_of_isDist_oneEdge (v k : ℕ) (h : IsDist (Edge oneEdge false) 0 v k) : k < 65534 := by
  obtain ⟨rfl, hle⟩ := hops_oneEdge h.1
  omega

/-- Edges from the node `0` to so many nodes that several threads visit them. -/
def star : Snapshot where
  maxNodes := 129
  nodeExists := fun _ => true
  name := id
  outEdges := fun u => if u = 0 then (List.range 128).map fun i => (i, i + 1) else []
  inEdges := fun v => if 1 ≤ v ∧ v ≤ 128 then [(v - 1, 0)] else []
  inToOut := id

theorem mem_outEdges_star {u v e : ℕ} :
    (e, v) ∈ star.outEdges u ↔ u = 0 ∧ e < 128 ∧ v = e + 1 := by
  by_cases hu : u = 0
  · simp [star, hu, eq_comm]
  · simp [star, hu]

theorem wellFormed_star : star.WellFormed where
  out_lt u v e he := by
    obtain ⟨rfl, he, rfl⟩ := mem_outEdges_star.mp he
    change 0 < 129 ∧ e + 1 < 129
    omega
  transposed u v e := by
    rw [mem_outEdges_star]
    by_cases hv : 1 ≤ v ∧ v ≤ 128
    · simp only [star, if_pos hv, id, exists_eq_right, List.mem_singleton, Prod.mk.injEq]
      omega
    · simp only [star, if_neg hv, List.not_mem_nil, false_and, exists_false, iff_false]
      omega

theorem edge_star_iff {u v : ℕ} : Edge star false u v ↔ u = 0 ∧ 1 ≤ v ∧ v ≤ 128 := by
  rw [Edge, visitNodes, if_neg Bool.false_ne_true, List.append_nil, Snapshot.mem_outNodes]
  simp only [mem_outEdges_star]
  constructor
  · rintro ⟨e, rfl, he, rfl⟩
    omega
  · rintro ⟨rfl, hv, hv'⟩
    exact ⟨v - 1, rfl, by omega, by omega⟩

theorem hops_star {k v : ℕ} (h : Hops (Edge star false) 0 k v) : k ≤ 1 ∧ (k = 1 ↔ 1 ≤ v) := by
  induction h with
  | zero => simp
  | succ _ huv ih =>
    obtain ⟨rfl, hv, -⟩ := edge_star_iff.mp huv
    omega

theorem lt_of_isDist_star (v k : ℕ) (h : IsDist (Edge star false) 0 v k) : k < 65534 := by
  have := hops_star h.1
  omega

/-- The second level of the star is one of several threads. -/
theorem exists_region_star : ∃ (s : Search) (l : Level ℕ ℕ ℤ (Fin 2)),
    Relation.ReflTransGen (Step star false) (.head (.init 0)) (.region s l) := by
  have hready : (Search.init 0).Ready star false 0 0 := ready_init
  have hafter := hready.smallLevel rfl
  have hsmall := (Search.smallVisits_smallLevel (s := Search.init 0) star false rfl rfl rfl
    rfl).state
  obtain ⟨l, hnodup, hmem, hcount, -⟩ := hafter.found
  -- the new nodes are the other nodes
  have hperm : l.Perm (List.range' 1 128) := by
    refine (List.perm_ext_iff_of_nodup hnodup List.nodup_range').mpr fun v => ?_
    rw [hmem, isDist_succ_iff, within_zero_iff, List.mem_range'_1]
    simp only [isDist_zero_iff, exists_eq_left, edge_star_iff, true_and]
    omega
  have hlength : ((Search.init 0).smallLevel (visitNodes star false)).nextCount = 128 := by
    rw [hcount, hperm.length_eq, List.length_range']
  generalize hs : (Search.init 0).smallLevel (visitNodes star false) = s at hsmall hlength
  have hstate : s.advance.state ≠ .small := by
    rw [show s.advance.state = s.nextState from rfl, ne_eq, Search.nextState_eq_small_iff, hlength]
    exact fun hand => absurd hand.2 (lt_irrefl _)
  have hlevel : Config.ofLevel (Fin 2) s = .head s.advance := by
    rw [Config.ofLevel, Search.getNextState_eq, if_neg (by rw [hlength]; decide)]
  have hrun : Relation.ReflTransGen (Step star false)
      (Config.head (τ := Fin 2) (.init 0)) (.head s.advance) := by
    rw [← hlevel, ← hs]
    exact Relation.ReflTransGen.single (.small rfl)
  let shares : Fin 2 → List ℕ :=
    fun w => if w = 0 then List.range (s.advance.iterations star) else []
  refine ⟨s.advance, _, hrun.tail (.fork shares hstate fun i => ⟨fun ⟨w, hw⟩ => ?_, fun hi => ?_⟩)⟩
  · simp only [shares] at hw
    split_ifs at hw
    · exact List.mem_range.mp hw
    · exact absurd hw List.not_mem_nil
  · exact ⟨0, List.mem_range.mpr hi⟩

/-! ### The results -/

/-- **Every run of the search ends**: its time is over, or the levels are the hop distances, in
whatever states it went through, however OpenMP shared the iterations out and whatever the order of
the threads' steps. -/
theorem endsIn_distances [DecidableEq τ] [Fintype τ] (hg : g.WellFormed)
    (hroot : root < g.maxNodes)
    (hfar : ∀ v k, IsDist (Edge g isUndirected) root v k → k < 65534) :
    EndsIn (Step g isUndirected)
      (fun x : Config τ => x = .timedOut ∨ ∃ s, x = .finished s ∧ Distances g isUndirected root s)
      (.head (.init root)) := by
  refine endsIn_of_invariant (Config.measure g isUndirected)
    (fun x y h hs => ⟨hs.inv hg hroot hfar h, hs.measure_lt hg hroot hfar h⟩)
    (fun x h hfinal => ?_) inv_init
  cases x with
  | head s => exact absurd .timeout (hfinal .timedOut)
  | region s l =>
    by_cases hdone : ∀ w, ∃ k, (l.workers w).stage = .done k
    · exact absurd (.join hdone) (hfinal _)
    · push Not at hdone
      obtain ⟨w, hw⟩ := hdone
      obtain ⟨l', hl'⟩ := exists_step (c := s.scan g isUndirected) hw
      exact absurd (.work hl') (hfinal _)
  | finished s => exact .inr ⟨s, rfl, h⟩
  | timedOut => exact .inl rfl

theorem endsIn_distances_oneEdge : EndsIn (Step oneEdge false)
    (fun x : Config (Fin 2) => x = .timedOut ∨ ∃ s, x = .finished s ∧ Distances oneEdge false 0 s)
    (.head (.init 0)) :=
  endsIn_distances wellFormed_oneEdge (by decide) lt_of_isDist_oneEdge

/-- **The copies of the threads**: the slots lie beyond the level that is read and within the
capacity of the vector, and those of two threads are disjoint. -/
def Config.CopiesDisjoint (g : Snapshot) : Config τ → Prop
  | .region s l =>
    (Search.FromQueue s.state → s.currLevelBegin + s.currCount = s.nextLevelBegin) ∧
    s.nextLevelBegin + l.count ≤ g.maxNodes ∧
    ∀ w k, (l.workers w).slot = some k → k + (l.workers w).found.length ≤ l.count ∧
      ∀ w' ≠ w, ∀ k', (l.workers w').slot = some k' →
        k + (l.workers w).found.length ≤ k' ∨ k' + (l.workers w').found.length ≤ k
  | _ => True

/-- Distinct nodes of the snapshot are not more than `max_nodes`. -/
theorem length_le_maxNodes {l : List ℕ} (hnodup : l.Nodup) (hlt : ∀ v ∈ l, v < g.maxNodes) :
    l.length ≤ g.maxNodes := by
  have hsub : l ⊆ List.range g.maxNodes := fun v hv => List.mem_range.mpr (hlt v hv)
  simpa using (hnodup.subperm hsub).length_le

end Run

end Bfs

end Llama

end GfeDriver
