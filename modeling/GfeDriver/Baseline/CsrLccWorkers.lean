import GfeDriver.Baseline.CsrLcc

/-!
# The workers of `CSR_LCC`

Each worker repeats: take the next range of vertices with one `fetch_add` on the shared counter,
process the vertices of the range, and for each of them issue the increments of `process_vertex` one
atomic addition at a time. The model is a step relation in which any unfinished worker may act next,
so a statement about every reachable state covers every order of the tasks and of the increments.

Two sums over the workers stay fixed along every run: a vertex is processed, held by one worker or
still to be handed out; and the increments issued and those still pending are those of the vertices
processed.

## Main definitions

* `LccMaster`, `LccWorker`: the shared state, and the state of a worker
* `workerStep`: the next atomic action of a worker
* `computeScores`: the scores from the final counters

## Main results

* `workerStep_cases`: what an action does
* `LccInvariant.step`: every action keeps the two sums
* `lccWork_lt`: every action leaves less work
* `LccInvariant.scores`: the scores once all the workers are finished
-/

namespace GfeDriver

open Foundation

namespace CSR

variable {W : Type}

/-! ## The workers -/

/-- `LCC_TASK_SIZE`: the number of vertices of a task. -/
def lccTaskSize : ℕ := 2 ^ 10

/-- `CSR_LCC::Worker`: the increments left of the vertex in process, the vertices left of the task,
and whether the worker returned. -/
structure LccWorker where
  increments : List (ℕ × ℕ)
  vStart : ℕ
  vEnd : ℕ
  finished : Bool

/-- `CSR_LCC::Master`: the shared counter of the tasks, the counters of the vertices and the
workers. `processed` is a ghost record of the calls of `process_vertex`. -/
structure LccMaster where
  next : ℕ
  numTriangles : ℕ → ℕ
  workers : ℕ → LccWorker
  processed : List ℕ

/-- `CSR_LCC::Master::next_task`, for the previous value `logicalStart` of the counter. -/
def nextTask (g : CSR W) (logicalStart : ℕ) : Option (ℕ × ℕ) :=
  if logicalStart ≥ g.numVertices then none
  else some (logicalStart, min (logicalStart + lccTaskSize) g.numVertices)

/-- The state with another state of the worker `id`. -/
def LccMaster.setWorker (s : LccMaster) (id : ℕ) (w : LccWorker) : LccMaster :=
  { s with workers := Function.update s.workers id w }

namespace LccWorker

/-- The worker after the first of its increments. -/
def issued (w : LccWorker) (rest : List (ℕ × ℕ)) : LccWorker :=
  ⟨rest, w.vStart, w.vEnd, w.finished⟩

/-- The worker in `process_vertex` for the next vertex of its task. -/
def started (g : CSR W) (w : LccWorker) : LccWorker :=
  ⟨g.processVertex w.vStart, w.vStart + 1, w.vEnd, w.finished⟩

/-- The worker after a call of `next_task`. -/
def assigned (w : LccWorker) : Option (ℕ × ℕ) → LccWorker
  | none => ⟨w.increments, w.vStart, w.vEnd, true⟩
  | some task => ⟨w.increments, task.1, task.2, w.finished⟩

end LccWorker

/-- One atomic `num_triangles(v) += k` of the worker `id`. -/
def issueIncrement (s : LccMaster) (id v k : ℕ) (rest : List (ℕ × ℕ)) : LccMaster :=
  { s.setWorker id ((s.workers id).issued rest) with
    numTriangles := Function.update s.numTriangles v (s.numTriangles v + k) }

/-- The worker `id` calls `process_vertex` on the next vertex of its task. -/
def startVertex (g : CSR W) (s : LccMaster) (id : ℕ) : LccMaster :=
  { s.setWorker id ((s.workers id).started g) with
    processed := s.processed ++ [(s.workers id).vStart] }

/-- The worker `id` calls `next_task`, which returns the outcome `task`. -/
def callNextTask (s : LccMaster) (id : ℕ) (task : Option (ℕ × ℕ)) : LccMaster :=
  { s.setWorker id ((s.workers id).assigned task) with next := s.next + lccTaskSize }

/-- The next atomic action of the worker `id`: an increment, the start of a vertex, or a call of
`next_task`. -/
def workerStep (g : CSR W) (s : LccMaster) (id : ℕ) : Option LccMaster :=
  let w := s.workers id
  if w.finished then none
  else
    match w.increments with
    | (v, k) :: rest => some (issueIncrement s id v k rest)
    | [] =>
      if w.vStart < w.vEnd then some (g.startVertex s id)
      else some (callNextTask s id (g.nextTask s.next))

/-- `CSR_LCC::Master::execute`, when the workers are started. -/
def lccStart : LccMaster where
  next := 0
  numTriangles := fun _ => 0
  workers := fun _ => ⟨[], 0, 0, false⟩
  processed := []

/-- One of the `numWorkers` workers acts. -/
def LccStep (g : CSR W) (numWorkers : ℕ) (s s' : LccMaster) : Prop :=
  ∃ id < numWorkers, g.workerStep s id = some s'

/-- `CSR_LCC::Master::compute_scores`, for the vertex `i`. -/
def computeScores (g : CSR W) (s : LccMaster) (i : ℕ) : ℚ :=
  let numTriangles := s.numTriangles i
  if numTriangles > 0 then
    (numTriangles : ℚ) / (g.getOutDegree i * (g.getOutDegree i - 1) : ℕ)
  else 0

/-! ## One action -/

/-- What an action does: an increment, a vertex, or a call of `next_task`. -/
theorem workerStep_cases {g : CSR W} {s s' : LccMaster} {id : ℕ}
    (h : g.workerStep s id = some s') :
    (s.workers id).finished = false ∧
      ((∃ v k rest, (s.workers id).increments = (v, k) :: rest ∧
          s' = issueIncrement s id v k rest) ∨
        (s.workers id).increments = [] ∧ (s.workers id).vStart < (s.workers id).vEnd ∧
          s' = g.startVertex s id ∨
        (s.workers id).increments = [] ∧ (s.workers id).vEnd ≤ (s.workers id).vStart ∧
          s' = callNextTask s id (g.nextTask s.next)) := by
  unfold workerStep at h
  cases hfin : (s.workers id).finished with
  | true => simp [hfin] at h
  | false =>
    refine ⟨rfl, ?_⟩
    cases hinc : (s.workers id).increments with
    | cons e rest =>
      obtain ⟨v, k⟩ := e
      simp only [hfin, hinc, Bool.false_eq_true, if_false, Option.some.injEq] at h
      exact Or.inl ⟨v, k, rest, rfl, h.symm⟩
    | nil =>
      by_cases hlt : (s.workers id).vStart < (s.workers id).vEnd
      · simp only [hfin, hinc, hlt, Bool.false_eq_true, if_false, if_true, Option.some.injEq] at h
        exact Or.inr (Or.inl ⟨rfl, hlt, h.symm⟩)
      · simp only [hfin, hinc, hlt, Bool.false_eq_true, if_false, Option.some.injEq] at h
        exact Or.inr (Or.inr ⟨rfl, not_lt.mp hlt, h.symm⟩)

theorem workers_setWorker (s : LccMaster) (id : ℕ) (w : LccWorker) (i : ℕ) :
    (s.setWorker id w).workers i = if i = id then w else s.workers i := by
  simp only [LccMaster.setWorker, Function.update_apply]

/-- A sum over the workers when one of them changes. -/
theorem sum_setWorker (f : LccWorker → ℕ) (s : LccMaster) {numWorkers id : ℕ}
    (hid : id < numWorkers) (w : LccWorker) :
    ∑ i ∈ Finset.range numWorkers, f ((s.setWorker id w).workers i) + f (s.workers id) =
      ∑ i ∈ Finset.range numWorkers, f (s.workers i) + f w := by
  have hmem : id ∈ Finset.range numWorkers := Finset.mem_range.mpr hid
  have hrest : ∑ i ∈ (Finset.range numWorkers).erase id, f ((s.setWorker id w).workers i) =
      ∑ i ∈ (Finset.range numWorkers).erase id, f (s.workers i) := by
    refine Finset.sum_congr rfl fun i hi => ?_
    rw [workers_setWorker, if_neg (Finset.ne_of_mem_erase hi)]
  have hself : (s.setWorker id w).workers id = w := by rw [workers_setWorker, if_pos rfl]
  rw [← Finset.add_sum_erase _ _ hmem, ← Finset.add_sum_erase _ (fun i => f (s.workers i)) hmem,
    hrest, hself]
  omega

/-! ## The invariant -/

/-- Whether the vertices from `lo` to `hi` include `v`. -/
def inRange (lo hi v : ℕ) : ℕ := if lo ≤ v ∧ v < hi then 1 else 0

theorem inRange_of_le {lo hi : ℕ} (h : hi ≤ lo) (v : ℕ) : inRange lo hi v = 0 :=
  if_neg (by omega)

theorem inRange_succ {lo hi : ℕ} (h : lo < hi) (v : ℕ) :
    inRange lo hi v = (if lo = v then 1 else 0) + inRange (lo + 1) hi v := by
  unfold inRange
  split_ifs <;> omega

theorem inRange_add {lo mid hi : ℕ} (h : lo ≤ mid) (h' : mid ≤ hi) (v : ℕ) :
    inRange lo mid v + inRange mid hi v = inRange lo hi v := by
  unfold inRange
  split_ifs <;> omega

/-- Whether a worker holds the vertex `v`. -/
def LccWorker.holds (v : ℕ) (w : LccWorker) : ℕ := inRange w.vStart w.vEnd v

/-- The two sums that every action keeps, and what a finished worker knows. -/
structure LccInvariant (g : CSR W) (numWorkers : ℕ) (s : LccMaster) : Prop where
  cover : ∀ v < g.numVertices, s.processed.count v +
    ∑ i ∈ Finset.range numWorkers, (s.workers i).holds v + inRange s.next g.numVertices v = 1
  credits : ∀ v, s.numTriangles v +
      ∑ i ∈ Finset.range numWorkers, credit (s.workers i).increments v =
    (s.processed.map fun n1 => credit (g.processVertex n1) v).sum
  bound : ∀ i, (s.workers i).vEnd ≤ g.numVertices
  processed_lt : ∀ v ∈ s.processed, v < g.numVertices
  finished : ∀ i, (s.workers i).finished = true →
    (s.workers i).increments = [] ∧ (s.workers i).vEnd ≤ (s.workers i).vStart ∧
      g.numVertices ≤ s.next

section Invariant

variable {g : CSR W} {numWorkers : ℕ} {s : LccMaster} {id : ℕ}

theorem lccStart_invariant (g : CSR W) (numWorkers : ℕ) :
    LccInvariant g numWorkers lccStart := by
  refine ⟨fun v hv => ?_, fun v => ?_, fun _ => Nat.zero_le _, by simp [lccStart],
    by simp [lccStart]⟩
  · have hall : inRange 0 g.numVertices v = 1 := if_pos ⟨Nat.zero_le v, hv⟩
    simp [lccStart, LccWorker.holds, inRange_of_le, hall]
  · simp [lccStart, credit]

/-- An action of the worker `id` keeps the invariant when it keeps the two sums. -/
theorem LccInvariant.update (h : LccInvariant g numWorkers s) (hid : id < numWorkers)
    {s' : LccMaster} (w : LccWorker) (hworkers : s'.workers = (s.setWorker id w).workers)
    (hcover : ∀ v < g.numVertices,
      s'.processed.count v + w.holds v + inRange s'.next g.numVertices v =
        s.processed.count v + (s.workers id).holds v + inRange s.next g.numVertices v)
    (hcredits : ∀ v, s'.numTriangles v + credit w.increments v +
        (s.processed.map fun n1 => credit (g.processVertex n1) v).sum =
      s.numTriangles v + credit (s.workers id).increments v +
        (s'.processed.map fun n1 => credit (g.processVertex n1) v).sum)
    (hbound : w.vEnd ≤ g.numVertices) (hprocessed : ∀ v ∈ s'.processed, v < g.numVertices)
    (hnext : s.next ≤ s'.next)
    (hfinished : w.finished = true →
      w.increments = [] ∧ w.vEnd ≤ w.vStart ∧ g.numVertices ≤ s'.next) :
    LccInvariant g numWorkers s' := by
  refine ⟨fun v hv => ?_, fun v => ?_, fun i => ?_, hprocessed, fun i hi => ?_⟩
  -- only the part of this worker changes in the sums
  · have hsum := sum_setWorker (LccWorker.holds v) s hid w
    have hold := h.cover v hv
    have hnew := hcover v hv
    rw [hworkers]
    omega
  · have hsum := sum_setWorker (fun w => credit w.increments v) s hid w
    have hold := h.credits v
    have hnew := hcredits v
    simp only [hworkers] at hsum ⊢
    omega
  · rw [hworkers, workers_setWorker]
    split_ifs
    · exact hbound
    · exact h.bound i
  · rw [hworkers, workers_setWorker] at hi ⊢
    split_ifs at hi ⊢
    · exact hfinished hi
    · obtain ⟨hinc, htask, hdone⟩ := h.finished i hi
      exact ⟨hinc, htask, hdone.trans hnext⟩

/-- An increment moves from the pending ones of the worker to the counter. -/
theorem LccInvariant.issueIncrement (h : LccInvariant g numWorkers s) (hid : id < numWorkers)
    {v k : ℕ} {rest : List (ℕ × ℕ)} (hinc : (s.workers id).increments = (v, k) :: rest)
    (hfin : (s.workers id).finished = false) :
    LccInvariant g numWorkers (issueIncrement s id v k rest) := by
  refine h.update hid ((s.workers id).issued rest) rfl (fun _ _ => rfl) (fun x => ?_) (h.bound id)
    h.processed_lt (le_refl _) (fun hc => by simp [LccWorker.issued, hfin] at hc)
  have hcredit : credit (s.workers id).increments x = (if v = x then k else 0) + credit rest x := by
    simp [hinc, credit]
  -- the increment moves from the pending ones into the counter
  have hcount : (CSR.issueIncrement s id v k rest).numTriangles x =
      s.numTriangles x + if v = x then k else 0 := by
    by_cases hv : v = x
    · subst hv
      simp [CSR.issueIncrement]
    · simp [CSR.issueIncrement, hv, Ne.symm hv]
  have hprocessed : (CSR.issueIncrement s id v k rest).processed = s.processed := rfl
  have hissued : ((s.workers id).issued rest).increments = rest := rfl
  rw [hcredit, hcount, hprocessed, hissued]
  omega

/-- A vertex moves from the task of the worker to the processed ones. -/
theorem LccInvariant.startVertex (h : LccInvariant g numWorkers s) (hid : id < numWorkers)
    (hinc : (s.workers id).increments = [])
    (hlt : (s.workers id).vStart < (s.workers id).vEnd)
    (hfin : (s.workers id).finished = false) :
    LccInvariant g numWorkers (g.startVertex s id) := by
  have hbound := h.bound id
  have hprocessed : (g.startVertex s id).processed = s.processed ++ [(s.workers id).vStart] := rfl
  have hnext : (g.startVertex s id).next = s.next := rfl
  have hcounters : (g.startVertex s id).numTriangles = s.numTriangles := rfl
  refine h.update hid ((s.workers id).started g) rfl (fun x hx => ?_) (fun x => ?_) hbound
    (fun x hx => ?_) (le_refl _) (fun hc => by simp [LccWorker.started, hfin] at hc)
  · have hcount : (s.processed ++ [(s.workers id).vStart]).count x =
        s.processed.count x + if (s.workers id).vStart = x then 1 else 0 := by
      rw [List.count_append, List.count_singleton]
      simp only [beq_iff_eq]
    -- the vertex moves from the task into the processed ones
    have hholds := inRange_succ hlt x
    simp only [hprocessed, hcount, hnext, LccWorker.holds, LccWorker.started, hholds]
    omega
  · have hsum : ((s.processed ++ [(s.workers id).vStart]).map
        fun n1 => credit (g.processVertex n1) x).sum =
        (s.processed.map fun n1 => credit (g.processVertex n1) x).sum +
          credit (g.processVertex (s.workers id).vStart) x := by
      simp
    have hnil : credit (s.workers id).increments x = 0 := by simp [hinc, credit]
    rw [hprocessed, hsum, hnil, hcounters]
    simp only [LccWorker.started]
    omega
  · rw [hprocessed] at hx
    rcases List.mem_append.mp hx with hx | hx
    · exact h.processed_lt x hx
    · obtain rfl := List.mem_singleton.mp hx
      omega

/-- A range of vertices moves from the shared counter to the worker, or the worker returns. -/
theorem LccInvariant.callNextTask (h : LccInvariant g numWorkers s) (hid : id < numWorkers)
    (hinc : (s.workers id).increments = []) (hle : (s.workers id).vEnd ≤ (s.workers id).vStart)
    (hfin : (s.workers id).finished = false) :
    LccInvariant g numWorkers (callNextTask s id (g.nextTask s.next)) := by
  have hmono : s.next ≤ s.next + lccTaskSize := Nat.le_add_right _ _
  rcases le_or_gt g.numVertices s.next with hend | hend
  · rw [nextTask, if_pos hend]
    refine h.update hid ((s.workers id).assigned none) rfl (fun x hx => ?_) (fun _ => rfl)
      (h.bound id) h.processed_lt hmono (fun _ => ⟨hinc, hle, hend.trans hmono⟩)
    have hnew := inRange_of_le (hend.trans hmono) x
    have hold := inRange_of_le hend x
    exact congrArg _ (hnew.trans hold.symm)
  · rw [nextTask, if_neg (not_le.mpr hend)]
    refine h.update hid ((s.workers id).assigned
        (some (s.next, min (s.next + lccTaskSize) g.numVertices))) rfl (fun x hx => ?_)
      (fun _ => rfl) (min_le_right _ _) h.processed_lt hmono
      (fun hc => by simp [LccWorker.assigned, hfin] at hc)
    have hidle := inRange_of_le hle x
    -- a new task is the next part of what is left
    have hsplit := inRange_add (le_min hmono hend.le) (min_le_right _ g.numVertices) x
    have hrest : inRange (s.next + lccTaskSize) g.numVertices x =
        inRange (min (s.next + lccTaskSize) g.numVertices) g.numVertices x := by
      rcases le_total (s.next + lccTaskSize) g.numVertices with h | h
      · rw [min_eq_left h]
      · rw [min_eq_right h, inRange_of_le h, inRange_of_le (le_refl _)]
    simp only [CSR.callNextTask, LccMaster.setWorker, LccWorker.holds, LccWorker.assigned, hidle,
      hrest]
    omega

/-- **One action** of a worker keeps the invariant. -/
theorem LccInvariant.step (h : LccInvariant g numWorkers s) {s' : LccMaster}
    (hstep : LccStep g numWorkers s s') : LccInvariant g numWorkers s' := by
  obtain ⟨id, hid, hstep⟩ := hstep
  obtain ⟨hfin, ⟨v, k, rest, hinc, rfl⟩ | ⟨hinc, hlt, rfl⟩ | ⟨hinc, hle, rfl⟩⟩ :=
    workerStep_cases hstep
  · exact h.issueIncrement hid hinc hfin
  · exact h.startVertex hid hinc hlt hfin
  · exact h.callNextTask hid hinc hle hfin

/-- **Every run** keeps the invariant. -/
theorem LccInvariant.run (h : Relation.ReflTransGen (LccStep g numWorkers) lccStart s) :
    LccInvariant g numWorkers s := by
  induction h with
  | refl => exact lccStart_invariant g numWorkers
  | tail _ hstep ih => exact ih.step hstep

end Invariant

/-! ## The end of a run -/

section Work

variable {g : CSR W} {numWorkers : ℕ} {s : LccMaster}

/-- The actions that the vertices from `lo` to `hi` still need. -/
def taskWork (g : CSR W) (lo hi : ℕ) : ℕ :=
  ∑ v ∈ Finset.Ico lo hi, ((g.processVertex v).length + 1)

/-- The actions that a worker still has to take. -/
def workerWork (g : CSR W) (w : LccWorker) : ℕ :=
  w.increments.length + g.taskWork w.vStart w.vEnd + if w.finished then 0 else 1

/-- A bound on the actions left. -/
def lccWork (g : CSR W) (numWorkers : ℕ) (s : LccMaster) : ℕ :=
  g.taskWork s.next g.numVertices + (g.numVertices - s.next) +
    ∑ i ∈ Finset.range numWorkers, g.workerWork (s.workers i)

theorem taskWork_of_le {lo hi : ℕ} (h : hi ≤ lo) : g.taskWork lo hi = 0 := by
  simp [taskWork, Finset.Ico_eq_empty_of_le h]

theorem taskWork_succ {lo hi : ℕ} (h : lo < hi) :
    g.taskWork lo hi = (g.processVertex lo).length + 1 + g.taskWork (lo + 1) hi := by
  simp only [taskWork]
  rw [Finset.sum_eq_sum_Ico_succ_bot h]

theorem taskWork_add {lo mid hi : ℕ} (h : lo ≤ mid) (h' : mid ≤ hi) :
    g.taskWork lo mid + g.taskWork mid hi = g.taskWork lo hi :=
  Finset.sum_Ico_consecutive _ h h'

theorem lccWork_lt_of_update {id : ℕ} (hid : id < numWorkers) {s' : LccMaster} (w : LccWorker)
    (hworkers : s'.workers = (s.setWorker id w).workers)
    (hlt : g.taskWork s'.next g.numVertices + (g.numVertices - s'.next) + g.workerWork w <
      g.taskWork s.next g.numVertices + (g.numVertices - s.next) +
        g.workerWork (s.workers id)) :
    g.lccWork numWorkers s' < g.lccWork numWorkers s := by
  have hsum := sum_setWorker g.workerWork s hid w
  simp only [lccWork, hworkers]
  omega

/-- A call of `next_task` moves the vertices of a task to the worker. -/
theorem workerWork_assigned {w : LccWorker} {next : ℕ} (hle : w.vEnd ≤ w.vStart)
    (hfin : w.finished = false) :
    g.taskWork (next + lccTaskSize) g.numVertices + (g.numVertices - (next + lccTaskSize)) +
        g.workerWork (w.assigned (g.nextTask next)) <
      g.taskWork next g.numVertices + (g.numVertices - next) + g.workerWork w := by
  have hnone : g.taskWork w.vStart w.vEnd = 0 := taskWork_of_le hle
  have hpos : 0 < lccTaskSize := by decide
  unfold nextTask
  -- no task is left, and the worker finishes
  split_ifs with hend
  · have hold : g.taskWork next g.numVertices = 0 := taskWork_of_le hend
    have hnew : g.taskWork (next + lccTaskSize) g.numVertices = 0 := taskWork_of_le (by omega)
    simp only [workerWork, LccWorker.assigned, hold, hnew, hfin, if_true, Bool.false_eq_true,
      if_false]
    omega
  · set stop := min (next + lccTaskSize) g.numVertices with hstop
    have hlow : next ≤ stop := le_min (by omega) (by omega)
    have hsplit := taskWork_add (g := g) hlow (min_le_right _ _)
    have hrest : g.taskWork (next + lccTaskSize) g.numVertices =
        g.taskWork stop g.numVertices := by
      rcases le_total (next + lccTaskSize) g.numVertices with h | h
      · rw [hstop, min_eq_left h]
      · rw [hstop, min_eq_right h, taskWork_of_le h, taskWork_of_le (le_refl _)]
    simp only [workerWork, LccWorker.assigned, hnone, hrest, hfin, Bool.false_eq_true, if_false]
    omega

/-- **Every action leaves less work**, so no run goes on forever. -/
theorem lccWork_lt {s' : LccMaster} (hstep : LccStep g numWorkers s s') :
    g.lccWork numWorkers s' < g.lccWork numWorkers s := by
  obtain ⟨id, hid, hstep⟩ := hstep
  obtain ⟨hfin, ⟨v, k, rest, hinc, rfl⟩ | ⟨hinc, hlt, rfl⟩ | ⟨hinc, hle, rfl⟩⟩ :=
    workerStep_cases hstep
  -- one increment less, or one vertex less, or one task less
  · refine lccWork_lt_of_update hid ((s.workers id).issued rest) rfl (Nat.add_lt_add_left ?_ _)
    simp only [workerWork, LccWorker.issued, hinc, List.length_cons, hfin, Bool.false_eq_true,
      if_false]
    omega
  · refine lccWork_lt_of_update hid ((s.workers id).started g) rfl (Nat.add_lt_add_left ?_ _)
    simp only [workerWork, LccWorker.started, hinc, List.length_nil, taskWork_succ hlt, hfin,
      Bool.false_eq_true, if_false]
    omega
  · exact lccWork_lt_of_update hid ((s.workers id).assigned (g.nextTask s.next)) rfl
      (workerWork_assigned hle hfin)

/-- A worker that has not returned can act. -/
theorem exists_lccStep {id : ℕ} (hid : id < numWorkers) (hfin : (s.workers id).finished = false) :
    ∃ s', LccStep g numWorkers s s' := by
  suffices h : ∃ s', g.workerStep s id = some s' from h.imp fun s' hs' => ⟨id, hid, hs'⟩
  unfold workerStep
  simp only [hfin, Bool.false_eq_true, if_false]
  cases (s.workers id).increments with
  | cons e rest => exact ⟨_, rfl⟩
  | nil => split_ifs <;> exact ⟨_, rfl⟩

/-- Once all the workers returned, every vertex was processed exactly once. -/
theorem LccInvariant.processed_perm (h : LccInvariant g numWorkers s) (hworkers : 0 < numWorkers)
    (hfin : ∀ i < numWorkers, (s.workers i).finished = true) :
    s.processed.Perm (List.range g.numVertices) := by
  rw [List.perm_iff_count]
  intro v
  by_cases hv : v < g.numVertices
  · have hcover := h.cover v hv
    have hnext := (h.finished 0 (hfin 0 hworkers)).2.2
    -- finished workers hold nothing
    have hheld : ∑ i ∈ Finset.range numWorkers, (s.workers i).holds v = 0 := by
      refine Finset.sum_eq_zero fun i hi => ?_
      have := (h.finished i (hfin i (Finset.mem_range.mp hi))).2.1
      exact inRange_of_le this v
    rw [hheld, inRange_of_le hnext] at hcover
    rw [List.count_eq_one_of_mem List.nodup_range (List.mem_range.mpr hv)]
    omega
  · rw [List.count_eq_zero_of_not_mem (fun hc => hv (h.processed_lt v hc)),
      List.count_eq_zero_of_not_mem (fun hc => hv (List.mem_range.mp hc))]

/-- The counters once all the workers returned. -/
theorem LccInvariant.numTriangles_eq (h : LccInvariant g numWorkers s) (hg : g.SimpleUndirected)
    (hworkers : 0 < numWorkers) (hfin : ∀ i < numWorkers, (s.workers i).finished = true) {v : ℕ}
    (hv : v < g.numVertices) :
    s.numTriangles v = (closedPairs (Finset.range g.numVertices) g.Arc v).card := by
  have hnone : ∑ i ∈ Finset.range numWorkers, credit (s.workers i).increments v = 0 := by
    refine Finset.sum_eq_zero fun i hi => ?_
    rw [(h.finished i (hfin i (Finset.mem_range.mp hi))).1]
    rfl
  have hcredits := h.credits v
  rw [hnone, Nat.add_zero] at hcredits
  rw [hcredits, ((h.processed_perm hworkers hfin).map _).sum_eq, ← sum_credit_processVertex hg hv,
    ← List.sum_toFinset _ List.nodup_range, List.toFinset_range]

end Work

/-- A vertex with adjacent neighbours has two of them. -/
theorem two_le_getOutDegree {g : CSR W} (hg : g.SimpleUndirected) {v : ℕ}
    (h : 0 < (closedPairs (Finset.range g.numVertices) g.Arc v).card) : 2 ≤ g.getOutDegree v := by
  obtain ⟨⟨u, w⟩, hp⟩ := Finset.card_pos.mp h
  obtain ⟨-, hu, hw, huw⟩ := Finset.mem_filter.mp hp
  have hne : u ≠ w := by
    rintro rfl
    exact hg.loopless u huw
  -- the two other corners of a triangle are different neighbours
  have hpair : ({u, w} : Finset ℕ) ⊆ (g.outNeighbours v).toFinset := by
    intro x hx
    rcases Finset.mem_insert.mp hx with rfl | hx
    · exact List.mem_toFinset.mpr hu.2
    · obtain rfl := Finset.mem_singleton.mp hx
      exact List.mem_toFinset.mpr hw.2
  have hcard := Finset.card_le_card hpair
  rw [Finset.card_pair hne] at hcard
  exact hcard.trans ((List.toFinset_card_le _).trans (length_outNeighbours g v).le)

/-- **The scores** once all the workers returned are the clustering coefficients. -/
theorem LccInvariant.scores {g : CSR W} {numWorkers : ℕ} {s : LccMaster}
    (h : LccInvariant g numWorkers s) (hg : g.SimpleUndirected) (hworkers : 0 < numWorkers)
    (hfin : ∀ i < numWorkers, (s.workers i).finished = true) {v : ℕ} (hv : v < g.numVertices) :
    g.computeScores s v = g.clusteringCoefficient v := by
  have hcount := h.numTriangles_eq hg hworkers hfin hv
  unfold computeScores clusteringCoefficient
  simp only [hcount]
  split_ifs with hpos hdeg hdeg
  -- a vertex with triangles has two neighbours at least
  · have := two_le_getOutDegree hg hpos
    omega
  · rfl
  · rfl
  · have hzero : (closedPairs (Finset.range g.numVertices) g.Arc v).card = 0 := by omega
    simp [hzero]

end CSR

end GfeDriver
