import GfeDriver.Foundation.Locks
import GfeDriver.Foundation.Runs
import Mathlib.Tactic

/-!
# The locks of the vertex dictionary

The vertex dictionary of the GTX and LiveGraph drivers is a `tbb::concurrent_hash_map`, whose
accessors lock an entry: `const_accessor` shares it, `accessor` has it alone. An insertion of an
edge looks for the entry of the source with `find`, and when there is none it calls `insert`, which
creates the entry or, if another thread was faster, locks the one that is there now. It does the
same for the destination, while it keeps the entry of the source. The accessors are released when
the call returns.

The threads are any type, and each runs a list of calls. `find` and `insert` are atomic, and wait
until the entry is available. What a call does in the store, and how often it tries, does not matter
for the locks.

## Main definitions

* `Call`, `Stage`, `State`, `Step`: the threads and the dictionary
* `Ring`: threads that may call on vertices not in the dictionary, each to that of another

## Main results

* `inv_step`: who locks or wants an entry alone
* `deadlockFree_iff`: the threads never deadlock unless there is a ring
-/

namespace GfeDriver

namespace VertexDictionary

open Foundation

/-! ## The program -/

/-- The updates that lock two entries. `add_edge_v2` is that of either driver. -/
inductive Update
  | addEdgeV2
  | addEdgeV3
  | updateEdgeV1
  deriving DecidableEq

/-- A call on an edge that is not a loop. -/
structure Call where
  update : Update
  source : ℕ
  destination : ℕ
  ne : source ≠ destination

/-- The vertex that a call looks for: the source, or the destination when the entry of the source is
locked. -/
def Call.vertex (call : Call) : Option LockMode → ℕ
  | none => call.source
  | some _ => call.destination

/-- Where a call is: before a `find`, before an `insert`, or with both entries in its transaction.
The entry of the source is locked or not yet. -/
inductive Stage
  | find (source : Option LockMode)
  | insert (source : Option LockMode)
  | transaction (source destination : LockMode)
  deriving DecidableEq

/-- The stage after the entry of a vertex was locked. -/
def Stage.locked : Option LockMode → LockMode → Stage
  | none, m => .find (some m)
  | some m, m' => .transaction m m'

/-- The accessors of a call. -/
def Stage.held (call : Call) : Stage → List (ℕ × LockMode)
  | .find source | .insert source => source.toList.map fun m => (call.source, m)
  | .transaction m m' => [(call.source, m), (call.destination, m')]

/-- What a call asks for next. -/
def Stage.wanted (call : Call) : Stage → Option (ℕ × LockMode)
  | .find source => some (call.vertex source, .shared)
  | .insert source => some (call.vertex source, .exclusive)
  | .transaction _ _ => none

/-- The entries of the dictionary, and for each thread the calls that it has not returned from, with
the stage of the first one. -/
structure State (ι : Type) where
  dictionary : Finset ℕ
  calls : ι → List Call
  stage : ι → Stage

section Program

variable {ι : Type} [DecidableEq ι]

/-- The locks of the entries. -/
def State.locks (s : State ι) : LockTable ι ℕ where
  held t v m := ∃ call ∈ (s.calls t).head?, (v, m) ∈ (s.stage t).held call
  wanted t v m := ∃ call ∈ (s.calls t).head?, (s.stage t).wanted call = some (v, m)

def State.moveTo (s : State ι) (t : ι) (stage : Stage) : State ι :=
  { s with stage := Function.update s.stage t stage }

/-- The call of a thread returns. -/
def State.returns (s : State ι) (t : ι) : State ι :=
  { s with
    calls := Function.update s.calls t (s.calls t).tail
    stage := Function.update s.stage t (.find none) }

/-- **The steps** of the threads. -/
inductive Step : State ι → State ι → Prop
  /-- `find` locks the entry. -/
  | find {s : State ι} {t : ι} {call : Call} {source : Option LockMode}
      (hcall : call ∈ (s.calls t).head?) (hstage : s.stage t = .find source)
      (hmem : call.vertex source ∈ s.dictionary)
      (hgrants : s.locks.Grants (call.vertex source) .shared) :
      Step s (s.moveTo t (.locked source .shared))
  /-- `find` returns false. -/
  | findAbsent {s : State ι} {t : ι} {call : Call} {source : Option LockMode}
      (hcall : call ∈ (s.calls t).head?) (hstage : s.stage t = .find source)
      (hmem : call.vertex source ∉ s.dictionary) :
      Step s (s.moveTo t (.insert source))
  /-- `insert` creates the entry. -/
  | insert {s : State ι} {t : ι} {call : Call} {source : Option LockMode}
      (hcall : call ∈ (s.calls t).head?) (hstage : s.stage t = .insert source)
      (hmem : call.vertex source ∉ s.dictionary) :
      Step s ({ s with dictionary := Insert.insert (call.vertex source) s.dictionary }.moveTo t
        (.locked source .exclusive))
  /-- `insert` locks an entry that it has not created. -/
  | insertPresent {s : State ι} {t : ι} {call : Call} {source : Option LockMode}
      (hcall : call ∈ (s.calls t).head?) (hstage : s.stage t = .insert source)
      (hmem : call.vertex source ∈ s.dictionary)
      (hgrants : s.locks.Grants (call.vertex source) .exclusive) :
      Step s (s.moveTo t (.locked source .exclusive))
  | returns {s : State ι} {t : ι} {m m' : LockMode} (hstage : s.stage t = .transaction m m') :
      Step s (s.returns t)

/-- The threads before their first call. -/
def initial (dictionary : Finset ℕ) (calls : ι → List Call) : State ι :=
  ⟨dictionary, calls, fun _ => .find none⟩

/-- **No run ends in a deadlock.** -/
def DeadlockFree (dictionary : Finset ℕ) (calls : ι → List Call) : Prop :=
  ∀ s, Relation.ReflTransGen Step (initial dictionary calls) s → ¬s.locks.Deadlocked

end Program

/-- Threads with different vertices that are not in the dictionary, each of which may insert an edge
from its vertex to that of another one. -/
def Ring {ι : Type} (dictionary : Finset ℕ) (allowed : ι → Set Call) : Prop :=
  ∃ (D : Finset ι) (v : ι → ℕ), D.Nonempty ∧ Set.InjOn v D ∧ ∀ t ∈ D, v t ∉ dictionary ∧
    ∃ u ∈ D, ∃ call ∈ allowed t, call.source = v t ∧ call.destination = v u

/-! ## The entries that a thread has alone -/

section Invariant

variable {ι : Type} [DecidableEq ι] {dictionary : Finset ℕ} {allowed : ι → Set Call}
  {s s' : State ι} {t u : ι} {call : Call} {source : Option LockMode} {m : LockMode} {v : ℕ}
  {stage : Stage}

/-- A call has or wants alone only entries that were not in the dictionary at the start. -/
def Stage.Fresh (dictionary : Finset ℕ) (call : Call) (stage : Stage) : Prop :=
  ∀ v, (v, LockMode.exclusive) ∈ stage.held call ∨ stage.wanted call = some (v, .exclusive) →
    v ∉ dictionary

/-- The call keeps the entry that it has, and has locked one more. -/
theorem fresh_locked
    (hheld : ∀ v, (v, LockMode.exclusive) ∈ (Stage.find source).held call → v ∉ dictionary)
    (hvertex : m = .exclusive → call.vertex source ∉ dictionary) :
    (Stage.locked source m).Fresh dictionary call := by
  rintro v (hv | hv)
  · cases source with
    | none =>
      simp only [Stage.locked, Stage.held, Option.toList_some, List.map_cons, List.map_nil,
        List.mem_singleton, Prod.mk.injEq] at hv
      rw [hv.1]
      exact hvertex hv.2.symm
    | some m' =>
      simp only [Stage.locked, Stage.held, List.mem_cons, List.not_mem_nil, or_false] at hv
      rcases hv with hv | hv
      · exact hheld v (List.mem_singleton.mpr hv)
      · obtain ⟨rfl, hm⟩ := Prod.mk.inj hv
        exact hvertex hm.symm
  · cases source <;> simp [Stage.locked, Stage.wanted] at hv

/-- **The invariant** of the runs. -/
structure Inv (dictionary : Finset ℕ) (allowed : ι → Set Call) (s : State ι) : Prop where
  present : dictionary ⊆ s.dictionary
  allowed : ∀ t, ∀ call ∈ s.calls t, call ∈ allowed t
  fresh : ∀ t, ∀ call ∈ (s.calls t).head?, (s.stage t).Fresh dictionary call

omit [DecidableEq ι] in
theorem inv_initial {calls : ι → List Call} (h : ∀ t, ∀ call ∈ calls t, call ∈ allowed t) :
    Inv dictionary allowed (initial dictionary calls) :=
  ⟨Finset.Subset.refl _, h, fun _ call _ v hv => by
    rcases hv with hv | hv <;> simp [initial, Stage.held, Stage.wanted] at hv⟩

theorem Inv.moveTo (h : Inv dictionary allowed s) (hcall : call ∈ (s.calls t).head?)
    (hstage : stage.Fresh dictionary call) : Inv dictionary allowed (s.moveTo t stage) := by
  refine ⟨h.present, h.allowed, fun u call' hcall' => ?_⟩
  by_cases hut : u = t
  · subst hut
    obtain rfl : call' = call := Option.some.inj ((Option.mem_def.mp hcall').symm.trans hcall)
    simpa [State.moveTo] using hstage
  · simpa [State.moveTo, Function.update_of_ne hut] using h.fresh u call' hcall'

omit [DecidableEq ι] in
theorem Inv.enter (h : Inv dictionary allowed s) :
    Inv dictionary allowed { s with dictionary := Insert.insert v s.dictionary } :=
  ⟨h.present.trans (Finset.subset_insert _ _), h.allowed, h.fresh⟩

theorem Inv.returns (h : Inv dictionary allowed s) : Inv dictionary allowed (s.returns t) := by
  refine ⟨h.present, fun u call hcall => ?_, fun u call hcall => ?_⟩
  · by_cases hut : u = t
    · subst hut
      simp only [State.returns, Function.update_self] at hcall
      exact h.allowed u call (List.mem_of_mem_tail hcall)
    · simp only [State.returns, Function.update_of_ne hut] at hcall
      exact h.allowed u call hcall
  · by_cases hut : u = t
    · subst hut
      rintro v (hv | hv) <;> simp [State.returns, Stage.held, Stage.wanted] at hv
    · simp only [State.returns, Function.update_of_ne hut] at hcall ⊢
      exact h.fresh u call hcall

/-- **A step** keeps the invariant: a call wants an entry alone only when the entry was absent. -/
theorem inv_step (h : Inv dictionary allowed s) (hstep : Step s s') :
    Inv dictionary allowed s' := by
  cases hstep with
  | find hcall hstage hmem hgrants =>
    have hfresh := h.fresh _ _ hcall
    rw [hstage] at hfresh
    exact h.moveTo hcall (fresh_locked (fun v hv => hfresh v (Or.inl hv)) nofun)
  | findAbsent hcall hstage hmem =>
    have hfresh := h.fresh _ _ hcall
    rw [hstage] at hfresh
    refine h.moveTo hcall fun v hv => ?_
    rcases hv with hv | hv
    · exact hfresh v (Or.inl hv)
    · obtain ⟨rfl, -⟩ := Prod.mk.inj (Option.some.inj hv)
      exact fun hv => hmem (h.present hv)
  | insert hcall hstage hmem =>
    have hfresh := h.fresh _ _ hcall
    rw [hstage] at hfresh
    exact h.enter.moveTo hcall
      (fresh_locked (fun v hv => hfresh v (Or.inl hv)) fun _ => hfresh _ (Or.inr rfl))
  | insertPresent hcall hstage hmem hgrants =>
    have hfresh := h.fresh _ _ hcall
    rw [hstage] at hfresh
    exact h.moveTo hcall
      (fresh_locked (fun v hv => hfresh v (Or.inl hv)) fun _ => hfresh _ (Or.inr rfl))
  | returns hstage => exact h.returns

/-! ## Deadlocks -/

/-- The source of the call of a thread. -/
def State.currentSource (s : State ι) (t : ι) : ℕ := ((s.calls t).head?.map Call.source).getD 0

omit [DecidableEq ι] in
/-- **A thread that waits and is waited for** has the entry of its source and wants that of its
destination. -/
theorem Inv.waits (h : Inv dictionary allowed s) (htu : s.locks.WaitsFor t u)
    (hwanted : s.locks.wanted u v m) : ∃ call ∈ allowed u, call.source = s.currentSource u ∧
      s.currentSource u ∉ dictionary ∧ call.destination = v ∧
        ∀ v' m', s.locks.held u v' m' → v' = s.currentSource u := by
  obtain ⟨call, hcall, hwants⟩ := hwanted
  obtain ⟨-, v', m₁, m₂, ⟨call₁, hcall₁, hwants₁⟩, ⟨call₂, hcall₂, hheld⟩, hconflict⟩ := htu
  obtain rfl : call₂ = call := Option.some.inj ((Option.mem_def.mp hcall₂).symm.trans hcall)
  have hsource : s.currentSource u = call₂.source := by rw [State.currentSource, hcall]; rfl
  -- the thread wants an entry, so that it has at most the one of its source
  have hstage : ∃ m', (s.stage u).held call₂ = [(call₂.source, m')] ∧
      call₂.vertex (some m') = v := by
    cases hu : s.stage u with
    | find source =>
      rw [hu] at hheld hwants
      cases source with
      | none => simp [Stage.held] at hheld
      | some m' => exact ⟨m', rfl, (Prod.mk.inj (Option.some.inj hwants)).1⟩
    | insert source =>
      rw [hu] at hheld hwants
      cases source with
      | none => simp [Stage.held] at hheld
      | some m' => exact ⟨m', rfl, (Prod.mk.inj (Option.some.inj hwants)).1⟩
    | transaction m₁ m₂ => simp [hu, Stage.wanted] at hwants
  obtain ⟨m', hheld', hvertex⟩ := hstage
  rw [hheld', List.mem_singleton, Prod.mk.injEq] at hheld
  obtain ⟨rfl, rfl⟩ := hheld
  rw [hsource]
  refine ⟨call₂, h.allowed u _ (List.mem_of_mem_head? hcall), rfl, ?_, hvertex, ?_⟩
  · -- one of the two threads wants or has the entry alone
    cases m₂ with
    | exclusive =>
      refine h.fresh u _ hcall _ (Or.inl ?_)
      rw [hheld']
      exact List.mem_singleton_self _
    | shared =>
      cases m₁ with
      | exclusive => exact h.fresh t _ hcall₁ _ (Or.inr hwants₁)
      | shared => exact absurd ⟨rfl, rfl⟩ hconflict
  · rintro v' m' ⟨call', hcall', hmem⟩
    obtain rfl : call' = call₂ := Option.some.inj ((Option.mem_def.mp hcall').symm.trans hcall)
    rw [hheld', List.mem_singleton, Prod.mk.injEq] at hmem
    exact hmem.1

omit [DecidableEq ι] in
/-- **A deadlock comes from a ring** of calls. -/
theorem Inv.exists_ring (h : Inv dictionary allowed s) (hdead : s.locks.Deadlocked) :
    Ring dictionary allowed := by
  obtain ⟨D, hD, hwaits⟩ := hdead.exists_ring
  have hring : ∀ u ∈ D, ∃ u' ∈ D, s.currentSource u ∉ dictionary ∧
      ∃ call ∈ allowed u, call.source = s.currentSource u ∧
        call.destination = s.currentSource u' := by
    intro u hu
    obtain ⟨⟨t, htu⟩, u', hu', huu'⟩ := hwaits u hu
    have hwaits' := huu'
    obtain ⟨-, v, m, m', hwanted, hheld, -⟩ := huu'
    obtain ⟨call, hallowed, hsource, hfresh, hdestination, -⟩ := h.waits htu hwanted
    -- the entry that the thread wants is that of the source of the other one
    obtain ⟨-, u'', -, -, v'', m'', -, hwanted', -⟩ := hwaits u' hu'
    obtain ⟨-, -, -, -, -, hheld'⟩ := h.waits hwaits' hwanted'
    exact ⟨u', hu', hfresh, call, hallowed, hsource, hdestination.trans (hheld' v m' hheld)⟩
  obtain ⟨D', -, hD', hinj, hring'⟩ := exists_injOn_ring
    (R := fun u v => s.currentSource u ∉ dictionary ∧
      ∃ call ∈ allowed u, call.source = s.currentSource u ∧ call.destination = v) hD hring
  refine ⟨D', s.currentSource, hD', hinj, fun t ht => ?_⟩
  obtain ⟨u, hu, hfresh, hcall⟩ := hring' t ht
  exact ⟨hfresh, u, hu, hcall⟩

end Invariant

/-! ## The run into a deadlock -/

section Ring

variable {ι : Type} [DecidableEq ι] {dictionary : Finset ℕ} {calls : ι → List Call} {v : ι → ℕ}

/-- The threads of a set have each created the entry of their source, and look for the
destination. -/
def partway (dictionary : Finset ℕ) (calls : ι → List Call) (v : ι → ℕ) (F : Finset ι) :
    State ι where
  dictionary := dictionary ∪ F.image v
  calls := calls
  stage t := if t ∈ F then .find (some .exclusive) else .find none

/-- One more thread creates the entry of its source. -/
theorem partway_insert {F : Finset ι} {t : ι} {call : Call} (ht : t ∉ F)
    (hcall : call ∈ (calls t).head?) (hsource : call.source = v t)
    (hfresh : v t ∉ dictionary ∪ F.image v) :
    Relation.ReflTransGen Step (partway dictionary calls v F)
      (partway dictionary calls v (insert t F)) := by
  let s₁ := (partway dictionary calls v F).moveTo t (.insert none)
  have hfind : Step (partway dictionary calls v F) s₁ :=
    Step.findAbsent hcall (if_neg ht) (by rw [Call.vertex, hsource]; exact hfresh)
  have hinsert : Step s₁ ({ s₁ with dictionary := insert (v t) s₁.dictionary }.moveTo t
      (.find (some .exclusive))) := by
    have hstage : s₁.stage t = .insert none := Function.update_self ..
    have hstep := Step.insert hcall hstage (by rw [Call.vertex, hsource]; exact hfresh)
    rwa [Call.vertex, hsource] at hstep
  refine Relation.ReflTransGen.head hfind (Relation.ReflTransGen.single ?_)
  convert hinsert using 1
  simp only [partway, s₁, State.moveTo, Function.update_idem, State.mk.injEq, true_and]
  refine ⟨?_, ?_⟩
  · rw [Finset.image_insert, Finset.union_insert]
  · funext u
    by_cases hut : u = t
    · simp [hut]
    · simp [hut]

/-- **A ring deadlocks** when all of its threads create the entry of their source before one of them
looks for its destination. -/
theorem exists_deadlocked {D : Finset ι} (call : ι → Call) (hD : D.Nonempty)
    (hinj : Set.InjOn v D) (hcalls : ∀ t ∈ D, calls t = [call t]) (hring : ∀ t ∈ D,
      v t ∉ dictionary ∧ (call t).source = v t ∧ ∃ u ∈ D, (call t).destination = v u) :
    ¬DeadlockFree dictionary calls := by
  have hcall : ∀ t ∈ D, call t ∈ (calls t).head? := fun t ht => by rw [hcalls t ht]; rfl
  have hreach : ∀ F ⊆ D, Relation.ReflTransGen Step (initial dictionary calls)
      (partway dictionary calls v F) := by
    intro F
    induction F using Finset.induction with
    | empty =>
      intro _
      have : partway dictionary calls v ∅ = initial dictionary calls := by
        simp [partway, initial]
      rw [this]
    | insert t F ht ih =>
      intro hsub
      have htD := hsub (Finset.mem_insert_self t F)
      have hF : F ⊆ D := (Finset.subset_insert t F).trans hsub
      refine (ih hF).trans (partway_insert ht (hcall t htD) (hring t htD).2.1 fun hmem => ?_)
      rcases Finset.mem_union.mp hmem with hmem | hmem
      · exact (hring t htD).1 hmem
      · obtain ⟨u, hu, heq⟩ := Finset.mem_image.mp hmem
        exact ht (hinj (hF hu) htD heq ▸ hu)
  intro hfree
  refine hfree _ (hreach D (Finset.Subset.refl D)) ⟨D, hD, fun t ht => ?_⟩
  obtain ⟨hfresh, hsource, u, hu, hdestination⟩ := hring t ht
  refine ⟨u, hu, ?_, v u, .shared, .exclusive, ⟨call t, hcall t ht, ?_⟩, ⟨call u, hcall u hu, ?_⟩,
    nofun⟩
  · rintro rfl
    exact (call t).ne (hsource.trans hdestination.symm)
  · simp [partway, ht, Stage.wanted, Call.vertex, hdestination]
  · simp [partway, hu, Stage.held, (hring u hu).2.1]

/-- **Insertions of edges deadlock** exactly when there is a ring of calls on vertices that are not
in the dictionary at the start. -/
theorem deadlockFree_iff (dictionary : Finset ℕ) (allowed : ι → Set Call) :
    (∀ calls : ι → List Call, (∀ t, ∀ call ∈ calls t, call ∈ allowed t) →
      DeadlockFree dictionary calls) ↔ ¬Ring dictionary allowed := by
  constructor
  · rintro hfree ⟨D, v, hD, hinj, hring⟩
    have hcall : ∀ t, ∃ call : List Call, (∀ c ∈ call, c ∈ allowed t) ∧ (t ∈ D →
        ∃ c, call = [c] ∧ v t ∉ dictionary ∧ c.source = v t ∧ ∃ u ∈ D, c.destination = v u) := by
      intro t
      by_cases ht : t ∈ D
      · obtain ⟨hfresh, u, hu, call, hallowed, hsource, hdestination⟩ := hring t ht
        exact ⟨[call], by simpa using hallowed,
          fun _ => ⟨call, rfl, hfresh, hsource, u, hu, hdestination⟩⟩
      · exact ⟨[], by simp, fun h => absurd h ht⟩
    choose calls hallowed hcalls using hcall
    have : Nonempty Call := ⟨⟨.addEdgeV2, 0, 1, by decide⟩⟩
    choose! call hcall hring' using hcalls
    exact exists_deadlocked call hD hinj hcall hring' (hfree calls hallowed)
  · intro hring calls hcalls s hreach hdead
    have hinv : Inv dictionary allowed s :=
      reachable_invariant (inv_initial hcalls) (fun _ _ h hstep => inv_step h hstep) hreach
    exact hring (hinv.exists_ring hdead)

end Ring

/-- Two threads insert an edge each, in the two directions. -/
def bothDirections (t : Bool) : Call :=
  if t then ⟨.addEdgeV2, 1, 2, by decide⟩ else ⟨.addEdgeV2, 2, 1, by decide⟩

/-- Each thread has created the entry of its source, and waits for that of the other one. -/
theorem not_deadlockFree_bothDirections : ¬DeadlockFree ∅ fun t => [bothDirections t] := by
  have hinj : Set.InjOn (fun t => (bothDirections t).source) (Finset.univ : Finset Bool) := by
    intro t _ u _
    cases t <;> cases u <;> simp [bothDirections]
  refine exists_deadlocked bothDirections ⟨true, Finset.mem_univ _⟩ hinj (fun _ _ => rfl)
    fun t _ => ⟨Finset.notMem_empty _, rfl, !t, Finset.mem_univ _, ?_⟩
  cases t <;> rfl

end VertexDictionary

end GfeDriver
