import Mathlib.Tactic

/-!
# An entry that is removed and inserted again

Clients update an entry in three atomic steps: a client reads the entry, removes it when it is
there, and inserts what it makes of the value that it has read. A removal fails when there is no
entry, an insertion fails when there is one, and both may fail for a conflict; the client starts
again then. A client may not see an entry, and takes it for absent.

What the entry holds is built on a trace of insertions: the last one, that of the value that this
client has read, and so on. The value is lost with a client that has removed it and whose insertion
fails, and when a client removes another value than the one it has read.

## Main definitions

* `Cell`, `Cell.step`, `Cell.run`: the entry and its clients along a schedule
* `Trace`, `traced`: the entry with the trace of each value
* `Lost`: the clients that are not in the trace of the entry, and whether the first value is not
* `CleanRun`: no value is lost by one of the two failures

## Main results

* `Cell.move_step`: what a step does
* `run_map`: runs under a map of the values
-/

namespace Foundation

universe u v w

/-- What a client does next: read the entry, remove it, insert a new one, or nothing. -/
inductive CellStage (V : Type v)
  | get
  | remove (value : V)
  | insert (value : Option V)
  | returned
  deriving DecidableEq

/-- The values under a map. -/
def CellStage.map {U : Type v} {V : Type w} (h : U → V) : CellStage U → CellStage V
  | .get => .get
  | .remove value => .remove (h value)
  | .insert value => .insert (value.map h)
  | .returned => .returned

/-- An entry and its clients. -/
structure Cell (ι : Type u) (V : Type v) where
  entry : Option V
  stage : ι → CellStage V

namespace Cell

variable {ι : Type u} {V : Type v}

/-- The entry before the first step. -/
def init (ι : Type u) (entry : Option V) : Cell ι V := ⟨entry, fun _ => .get⟩

section Step

variable [DecidableEq ι]

/-- The next step of a client, which fails for a conflict when the flag is set. -/
def step (upd : ι → Option V → V) (visible : V → Bool) (c : Cell ι V) (t : ι × Bool) : Cell ι V :=
  match c.stage t.1 with
  | .get =>
    match c.entry.filter visible with
    | some value => { c with stage := Function.update c.stage t.1 (.remove value) }
    | none => { c with stage := Function.update c.stage t.1 (.insert none) }
  | .remove value =>
    if t.2 || c.entry.isNone then { c with stage := Function.update c.stage t.1 .get }
    else ⟨none, Function.update c.stage t.1 (.insert (some value))⟩
  | .insert value =>
    if t.2 || c.entry.isSome then { c with stage := Function.update c.stage t.1 .get }
    else ⟨some (upd t.1 value), Function.update c.stage t.1 .returned⟩
  | .returned => c

/-- The steps of a schedule. -/
def run (upd : ι → Option V → V) (visible : V → Bool) (c : Cell ι V) (schedule : List (ι × Bool)) :
    Cell ι V :=
  schedule.foldl (step upd visible) c

/-- **What a step of a client does.** -/
inductive Move (upd : ι → Option V → V) (c : Cell ι V) (t : ι) : Cell ι V → Prop
  | idle (h : c.stage t = .returned) : Move upd c t c
  | retry (h : c.stage t ≠ .returned) :
      Move upd c t { c with stage := Function.update c.stage t .get }
  | miss (h : c.stage t = .get) :
      Move upd c t { c with stage := Function.update c.stage t (.insert none) }
  | read (value : V) (h : c.stage t = .get) (hentry : c.entry = some value) :
      Move upd c t { c with stage := Function.update c.stage t (.remove value) }
  | remove (value found : V) (h : c.stage t = .remove value) (hentry : c.entry = some found) :
      Move upd c t ⟨none, Function.update c.stage t (.insert (some value))⟩
  | insert (value : Option V) (h : c.stage t = .insert value) (hentry : c.entry = none) :
      Move upd c t ⟨some (upd t value), Function.update c.stage t .returned⟩

theorem move_step (upd : ι → Option V → V) (visible : V → Bool) (c : Cell ι V) (t : ι × Bool) :
    Move upd c t.1 (c.step upd visible t) := by
  unfold step
  cases hstage : c.stage t.1 with
  | get =>
    cases hentry : c.entry.filter visible with
    | some value => exact .read value hstage (Option.filter_eq_some_iff.mp hentry).1
    | none => exact .miss hstage
  | remove value =>
    simp only
    split_ifs with hfail
    · exact .retry (by rw [hstage]; exact nofun)
    · simp only [Bool.or_eq_true, not_or, Option.isNone_iff_eq_none] at hfail
      obtain ⟨found, hfound⟩ := Option.ne_none_iff_exists'.mp hfail.2
      exact .remove value found hstage hfound
  | insert value =>
    simp only
    split_ifs with hfail
    · exact .retry (by rw [hstage]; exact nofun)
    · simp only [Bool.or_eq_true, not_or, Bool.not_eq_true, Option.isSome_eq_false_iff,
        Option.isNone_iff_eq_none] at hfail
      exact .insert value hstage hfail.2
  | returned => exact .idle hstage

end Step

/-! ## Runs under a map -/

section Map

variable [DecidableEq ι] {U : Type w} {updU : ι → Option U → U} {updV : ι → Option V → V}
  {visibleU : U → Bool} {visibleV : V → Bool} {h : U → V}

def map (h : U → V) (c : Cell ι U) : Cell ι V := ⟨c.entry.map h, fun t => (c.stage t).map h⟩

theorem map_update (h : U → V) (entry : Option U) (stage : ι → CellStage U) (t : ι)
    (p : CellStage U) :
    map h ⟨entry, Function.update stage t p⟩ =
      ⟨entry.map h, Function.update (fun t' => (stage t').map h) t (p.map h)⟩ := by
  refine congrArg (Cell.mk (entry.map h)) (funext fun t' => ?_)
  by_cases ht : t' = t
  · subst ht
    simp only [Function.update_self]
  · simp only [Function.update_of_ne ht]

theorem step_map (hupd : ∀ t r, h (updU t r) = updV t (r.map h))
    (hvisible : ∀ x, visibleV (h x) = visibleU x) (c : Cell ι U) (t : ι × Bool) :
    (c.step updU visibleU t).map h = (c.map h).step updV visibleV t := by
  have hfilter : (c.entry.map h).filter visibleV = (c.entry.filter visibleU).map h := by
    cases c.entry with
    | none => rfl
    | some x => cases hx : visibleU x <;> simp [Option.filter, hvisible, hx]
  unfold step
  cases hstage : c.stage t.1 with
  | get =>
    have hs : (c.map h).stage t.1 = .get := congrArg (CellStage.map h) hstage
    simp only [hs, show (c.map h).entry = c.entry.map h from rfl, hfilter]
    cases c.entry.filter visibleU with
    | none => exact map_update h c.entry c.stage t.1 _
    | some x => exact map_update h c.entry c.stage t.1 _
  | remove value =>
    have hs : (c.map h).stage t.1 = .remove (h value) := congrArg (CellStage.map h) hstage
    have hnone : (c.map h).entry.isNone = c.entry.isNone := by
      cases hentry : c.entry <;> simp [map, hentry]
    simp only [hs, hnone]
    split_ifs
    · exact map_update h c.entry c.stage t.1 _
    · exact map_update h none c.stage t.1 _
  | insert value =>
    have hs : (c.map h).stage t.1 = .insert (value.map h) := congrArg (CellStage.map h) hstage
    have hsome : (c.map h).entry.isSome = c.entry.isSome := by
      cases hentry : c.entry <;> simp [map, hentry]
    simp only [hs, hsome, ← hupd]
    split_ifs
    · exact map_update h c.entry c.stage t.1 _
    · exact map_update h (some (updU t.1 value)) c.stage t.1 _
  | returned =>
    have hs : (c.map h).stage t.1 = .returned := congrArg (CellStage.map h) hstage
    simp only [hs]

/-- **Runs under a map** that respects the updates and what is seen of the entry. -/
theorem run_map (updU : ι → Option U → U) (updV : ι → Option V → V) (visibleU : U → Bool)
    (visibleV : V → Bool) (h : U → V) (hupd : ∀ t r, h (updU t r) = updV t (r.map h))
    (hvisible : ∀ x, visibleV (h x) = visibleU x) (c : Cell ι U) (schedule : List (ι × Bool)) :
    (c.run updU visibleU schedule).map h = (c.map h).run updV visibleV schedule := by
  induction schedule generalizing c with
  | nil => rfl
  | cons t schedule ih =>
    rw [run, List.foldl_cons, ← run, ih, step_map hupd hvisible]
    rfl

end Map

/-! ## Live values -/

/-- A value is live when it is in the entry, or a client may still build on it. -/
def Live (c : Cell ι V) (x : V) : Prop :=
  c.entry = some x ∨ ∃ t, c.stage t = .remove x ∨ c.stage t = .insert (some x)

section Live

variable [DecidableEq ι] {upd : ι → Option V → V} {c c' : Cell ι V} {t : ι}

/-- The stages of the other clients stay. -/
theorem stage_update {stage : ι → CellStage V} {p q : CellStage V} {t' : ι}
    (h : Function.update stage t p t' = q) : t' = t ∧ p = q ∨ t' ≠ t ∧ stage t' = q := by
  by_cases ht : t' = t
  · subst ht
    exact Or.inl ⟨rfl, by simpa using h⟩
  · exact Or.inr ⟨ht, by simpa [Function.update_of_ne ht] using h⟩

/-- A client that has returned stays so. -/
theorem Move.returned (h : Move upd c t c') {t' : ι} (ht' : c.stage t' = .returned) :
    c'.stage t' = .returned := by
  by_cases ht : t' = t
  · subst ht
    cases h with
    | idle => exact ht'
    | retry h => exact absurd ht' h
    | miss h => simp [ht'] at h
    | read value h => simp [ht'] at h
    | remove value found h => simp [ht'] at h
    | insert value h => simp [ht'] at h
  · cases h with
    | idle => exact ht'
    | _ => exact (Function.update_of_ne ht ..).trans ht'

/-- **A live value** was live before the step, or it has just been inserted. -/
theorem Move.live (h : Move upd c t c') {x : V} (hx : Live c' x) :
    Live c x ∨ ∃ r, c.stage t = .insert r ∧ x = upd t r ∧ c'.stage t = .returned := by
  have hstage : ∀ p, (∀ y, p = CellStage.remove y ∨ p = .insert (some y) → Live c y) →
      (∃ t', Function.update c.stage t p t' = .remove x ∨
        Function.update c.stage t p t' = .insert (some x)) → Live c x := by
    rintro p hp ⟨t', ht' | ht'⟩
    · rcases stage_update ht' with ⟨-, heq⟩ | ⟨-, hold⟩
      · exact hp x (Or.inl heq)
      · exact Or.inr ⟨t', Or.inl hold⟩
    · rcases stage_update ht' with ⟨-, heq⟩ | ⟨-, hold⟩
      · exact hp x (Or.inr heq)
      · exact Or.inr ⟨t', Or.inr hold⟩
  cases h with
  | idle => exact Or.inl hx
  | retry h => exact Or.inl (hx.elim Or.inl (hstage _ (by simp)))
  | miss h => exact Or.inl (hx.elim Or.inl (hstage _ (by simp)))
  | read value h hentry =>
    refine Or.inl (hx.elim Or.inl (hstage _ fun y hy => Or.inl ?_))
    rcases hy with hy | hy
    · exact CellStage.remove.inj hy ▸ hentry
    · cases hy
  | remove value found h hentry =>
    refine Or.inl (hx.elim nofun (hstage _ fun y hy => Or.inr ⟨t, Or.inl ?_⟩))
    rcases hy with hy | hy
    · cases hy
    · exact Option.some.inj (CellStage.insert.inj hy) ▸ h
  | insert value h hentry =>
    rcases hx with hx | hx
    · exact Or.inr ⟨value, h, (Option.some.inj hx).symm, Function.update_self ..⟩
    · exact Or.inl (hstage _ (by simp) hx)

end Live

/-! ## Traces -/

end Cell

/-- The insertions that a value is built on, the last one first, and whether the first of them has
read the value that the entry had before the clients. -/
structure Trace (ι : Type u) where
  calls : List ι
  base : Bool

/-- The trace of an insertion. -/
def Trace.push {ι : Type u} (t : ι) : Option (Trace ι) → Trace ι
  | some trace => ⟨t :: trace.calls, trace.base⟩
  | none => ⟨[t], false⟩

namespace Cell

variable {ι : Type u} {V : Type v}

/-- The updates of values with their traces. -/
def tracedUpd (upd : ι → Option V → V) (t : ι) (r : Option (V × Trace ι)) : V × Trace ι :=
  (upd t (r.map Prod.fst), Trace.push t (r.map Prod.snd))

/-- The entry with the trace of its value, before the first step. -/
def tracedInit (ι : Type u) (entry : Option V) : Cell ι (V × Trace ι) :=
  init ι (entry.map fun value => (value, ⟨[], true⟩))

section Traced

variable [DecidableEq ι]

/-- The run with the trace of each value. -/
def traced (upd : ι → Option V → V) (visible : V → Bool) (entry : Option V)
    (schedule : List (ι × Bool)) : Cell ι (V × Trace ι) :=
  (tracedInit ι entry).run (tracedUpd upd) (fun x => visible x.1) schedule

/-- The values of the run with traces are those of the run. -/
theorem traced_map (upd : ι → Option V → V) (visible : V → Bool) (entry : Option V)
    (schedule : List (ι × Bool)) :
    (traced upd visible entry schedule).map Prod.fst =
      (init ι entry).run upd visible schedule := by
  have hinit : (tracedInit ι entry).map Prod.fst = init ι entry := by
    cases entry <;> rfl
  rw [traced, ← hinit]
  exact run_map (tracedUpd upd) upd _ visible Prod.fst (fun _ _ => rfl) (fun _ => rfl) _ schedule

/-- **What holds of the traces**: a client is in a trace at most once, and only after its insertion;
a trace starts with an insertion or the first value; a client that is about to remove the entry has
read it, or misses an insertion that it is built on. -/
structure TraceInv (entry : Option V) (c : Cell ι (V × Trace ι)) : Prop where
  nodup : ∀ x, Live c x → x.2.calls.Nodup
  written : ∀ x, Live c x → ∀ t ∈ x.2.calls, c.stage t = .returned
  source : ∀ x, Live c x → x.2.calls ≠ [] ∨ entry.isSome
  base : ∀ x, Live c x → x.2.base → entry.isSome
  fresh : ∀ x t y, c.entry = some x → c.stage t = .remove y →
    y = x ∨ ∃ t' ∈ x.2.calls, t' ∉ y.2.calls

variable {upd : ι → Option V → V} {visible : V → Bool} {entry : Option V}
  {c c' : Cell ι (V × Trace ι)} {t : ι}

omit [DecidableEq ι] in
theorem TraceInv.init (entry : Option V) : TraceInv entry (tracedInit ι entry) := by
  have hlive : ∀ x, Live (tracedInit ι entry) x → x.2 = ⟨[], true⟩ ∧ entry.isSome := by
    rintro x (hx | ⟨t, hx | hx⟩)
    · obtain ⟨value, hvalue, rfl⟩ := Option.map_eq_some_iff.mp hx
      exact ⟨rfl, by simp [hvalue]⟩
    · cases hx
    · cases hx
  refine ⟨fun x hx => ?_, fun x hx => ?_, fun x hx => Or.inr (hlive x hx).2,
    fun x hx _ => (hlive x hx).2, nofun⟩
  · rw [(hlive x hx).1]
    exact List.nodup_nil
  · rw [(hlive x hx).1]
    exact nofun

omit [DecidableEq ι] in
/-- A client that has read a value is in no trace. -/
theorem TraceInv.not_mem (h : TraceInv entry c) {r : Option (V × Trace ι)}
    (ht : c.stage t = .insert r) {x : V × Trace ι} (hx : Live c x) : t ∉ x.2.calls := by
  intro hmem
  have := h.written x hx t hmem
  simp [ht] at this

theorem TraceInv.move (h : TraceInv entry c) (hmove : Move (tracedUpd upd) c t c') :
    TraceInv entry c' := by
  refine ⟨fun x hx => ?_, fun x hx t' ht' => ?_, fun x hx => ?_, fun x hx hbase => ?_,
    fun x t' y hx hy => ?_⟩
  · rcases hmove.live hx with hx | ⟨r, hr, rfl, -⟩
    · exact h.nodup x hx
    · cases r with
      | none => exact List.nodup_singleton t
      | some y =>
        have hy : Live c y := Or.inr ⟨t, Or.inr hr⟩
        exact List.nodup_cons.mpr ⟨h.not_mem hr hy, h.nodup y hy⟩
  · rcases hmove.live hx with hx | ⟨r, hr, rfl, hreturned⟩
    · exact hmove.returned (h.written x hx t' ht')
    · cases r with
      | none => exact List.mem_singleton.mp ht' ▸ hreturned
      | some y =>
        rcases List.mem_cons.mp ht' with rfl | ht'
        · exact hreturned
        · exact hmove.returned (h.written y (Or.inr ⟨t, Or.inr hr⟩) t' ht')
  · rcases hmove.live hx with hx | ⟨r, hr, rfl, -⟩
    · exact h.source x hx
    · cases r <;> exact Or.inl (List.cons_ne_nil _ _)
  · rcases hmove.live hx with hx | ⟨r, hr, rfl, -⟩
    · exact h.base x hx hbase
    · cases r with
      | none => cases hbase
      | some y => exact h.base y (Or.inr ⟨t, Or.inr hr⟩) hbase
  · cases hmove with
    | idle => exact h.fresh x t' y hx hy
    | retry | miss =>
      rcases stage_update hy with ⟨-, heq⟩ | ⟨-, hy⟩
      · cases heq
      · exact h.fresh x t' y hx hy
    | read value hget hentry =>
      rcases stage_update hy with ⟨-, heq⟩ | ⟨-, hy⟩
      · exact Or.inl (Option.some.inj (CellStage.remove.inj heq ▸ hentry.symm.trans hx))
      · exact h.fresh x t' y hx hy
    | remove => cases hx
    | insert r hr hentry =>
      -- the client that inserts is in no trace that another one has read
      rcases stage_update hy with ⟨-, heq⟩ | ⟨-, hy⟩
      · cases heq
      · refine Or.inr ⟨t, ?_, h.not_mem hr (Or.inr ⟨t', Or.inl hy⟩)⟩
        rw [← Option.some.inj hx]
        cases r <;> exact List.mem_cons_self

theorem traceInv_run (upd : ι → Option V → V) (visible : V → Bool) (entry : Option V)
    (schedule : List (ι × Bool)) : TraceInv entry (traced upd visible entry schedule) := by
  have hinit := TraceInv.init (ι := ι) entry
  rw [traced, run]
  generalize tracedInit ι entry = c at hinit
  induction schedule generalizing c with
  | nil => exact hinit
  | cons t schedule ih => exact ih _ (hinit.move (move_step _ _ _ _))

/-- A property of the first value, and of what is built on values that have it, holds of every live
value. -/
theorem live_run {P : V × Trace ι → Prop} (hinit : ∀ value, entry = some value →
    P (value, ⟨[], true⟩)) (hupd : ∀ t r, (∀ x, r = some x → P x) → P (tracedUpd upd t r))
    (schedule : List (ι × Bool)) (x : V × Trace ι)
    (hx : Live (traced upd visible entry schedule) x) : P x := by
  have hstart : ∀ x, Live (tracedInit ι entry) x → P x := by
    rintro x (hx | ⟨t, hx | hx⟩)
    · obtain ⟨value, hvalue, rfl⟩ := Option.map_eq_some_iff.mp hx
      exact hinit value hvalue
    · cases hx
    · cases hx
  rw [traced, run] at hx
  generalize tracedInit ι entry = c at hstart hx
  induction schedule generalizing c with
  | nil => exact hstart x hx
  | cons t schedule ih =>
    refine ih _ (fun y hy => ?_) hx
    rcases (move_step _ _ _ _).live hy with hy | ⟨r, hr, rfl, -⟩
    · exact hstart y hy
    · exact hupd _ r fun z hz => hstart z (Or.inr ⟨t.1, Or.inr (hz ▸ hr)⟩)

/-! ## What is lost -/

/-- The trace of a value that has been read, and of none. -/
def traceOf (r : Option (V × Trace ι)) : Trace ι := (r.map Prod.snd).getD ⟨[], false⟩

omit [DecidableEq ι] in
theorem push_traceOf (t : ι) (r : Option (V × Trace ι)) :
    Trace.push t (r.map Prod.snd) = ⟨t :: (traceOf r).calls, (traceOf r).base⟩ := by
  cases r <;> rfl

/-- **The clients that are lost**: their insertion is not in the trace of the entry. -/
def lostCalls [Fintype ι] (upd : ι → Option V → V) (visible : V → Bool) (entry : Option V)
    (schedule : List (ι × Bool)) : Finset ι :=
  Finset.univ.filter (· ∉ (traceOf (traced upd visible entry schedule).entry).calls)

/-- The entry is built on the value that it had before the clients. -/
def keepsBase (upd : ι → Option V → V) (visible : V → Bool) (entry : Option V)
    (schedule : List (ι × Bool)) : Bool :=
  (traceOf (traced upd visible entry schedule).entry).base

end Traced

/-! ## Losing a value -/

section Clean

variable [DecidableEq ι] {upd : ι → Option V → V} {visible : V → Bool} {entry : Option V}
  {c c' : Cell ι (V × Trace ι)} {t : ι}

/-- **A step of a client that loses nothing**: a removal takes away the value that the client has
read, the insertion after it succeeds, and no client inserts between the removal and the insertion
of another one. -/
structure Clean (c : Cell ι (V × Trace ι)) (t : ι) (c' : Cell ι (V × Trace ι)) : Prop where
  removal : ∀ x y, c.stage t = .remove x → c.entry = some y → c'.entry = none → x = y
  insertion : ∀ x, c.stage t = .insert (some x) → c'.stage t = .returned
  exclusive : ∀ t' x, t' ≠ t → c.stage t' = .insert (some x) → c.entry = none → c'.entry = none

/-- Every step of the run loses nothing. -/
def CleanRun (upd : ι → Option V → V) (visible : V → Bool) :
    Cell ι (V × Trace ι) → List (ι × Bool) → Prop
  | _, [] => True
  | c, t :: schedule =>
    Clean c t.1 (c.step (tracedUpd upd) (fun x => visible x.1) t) ∧
      CleanRun upd visible (c.step (tracedUpd upd) (fun x => visible x.1) t) schedule

/-- The trace has all the clients that have returned, and the first value. -/
structure Full (entry : Option V) (c : Cell ι (V × Trace ι)) (trace : Trace ι) : Prop where
  calls : ∀ t, c.stage t = .returned → t ∈ trace.calls
  base : entry.isSome → trace.base

theorem Full.of_move {trace : Trace ι} (h : Full entry c' trace)
    (hmove : Move (tracedUpd upd) c t c') : Full entry c trace :=
  ⟨fun t' ht' => h.calls t' (hmove.returned ht'), h.base⟩

/-- **Nothing is lost so far**: the entry is built on everything, or one client has removed it and
what it holds is, or there has been nothing. -/
structure Sound (entry : Option V) (c : Cell ι (V × Trace ι)) : Prop where
  full : ∀ x, c.entry = some x → Full entry c x.2
  alone : ∀ x, c.entry = some x → ∀ t y, c.stage t ≠ .insert (some y)
  held : ∀ t y, c.stage t = .insert (some y) → Full entry c y.2
  unique : ∀ t y t' y', c.stage t = .insert (some y) → c.stage t' = .insert (some y') → t' = t
  absent : c.entry = none → (∃ t y, c.stage t = .insert (some y)) ∨ Full entry c ⟨[], false⟩

/-- **Something is lost**: neither the entry nor what a client is about to insert is built on
everything. -/
structure Lossy (entry : Option V) (c : Cell ι (V × Trace ι)) : Prop where
  stale : ∀ x, c.entry = some x → ¬Full entry c x.2
  held : ∀ t y, c.stage t = .insert (some y) → ¬Full entry c y.2
  nonempty : ¬Full entry c ⟨[], false⟩

omit [DecidableEq ι] in
/-- A value that is built on something is more than nothing. -/
theorem TraceInv.nonempty (h : TraceInv entry c) {x : V × Trace ι} (hx : Live c x) :
    ¬Full entry c ⟨[], false⟩ := by
  intro hfull
  rcases h.source x hx with hcalls | hbase
  · obtain ⟨t, ht⟩ := List.exists_mem_of_ne_nil _ hcalls
    exact List.not_mem_nil (hfull.calls t (h.written x hx t ht))
  · exact Bool.false_ne_true (hfull.base hbase)

omit [DecidableEq ι] in
/-- A client that has read another value than the one in the entry has read an older one. -/
theorem TraceInv.stale (h : TraceInv entry c) {x y : V × Trace ι} (hx : c.entry = some x)
    (hy : c.stage t = .remove y) (hne : y ≠ x) : ¬Full entry c y.2 := by
  intro hfull
  obtain ⟨t', ht', hmem⟩ := (h.fresh x t y hx hy).resolve_left hne
  exact hmem (hfull.calls t' (h.written x (Or.inl hx) t' ht'))

omit [DecidableEq ι] in
/-- What a client inserts has all that the value has that it has read. -/
theorem Full.of_push {r : Option (V × Trace ι)}
    (h : Full entry c' (Trace.push t (r.map Prod.snd))) (ht : c.stage t ≠ .returned)
    (hreturned : ∀ t', c.stage t' = .returned → c'.stage t' = .returned) :
    Full entry c (traceOf r) := by
  rw [push_traceOf] at h
  refine ⟨fun t' ht' => ?_, h.base⟩
  have hne : t' ≠ t := fun heq => ht (heq ▸ ht')
  exact (List.mem_cons.mp (h.calls t' (hreturned t' ht'))).resolve_left hne

/-- **A loss stays**: whatever a client does, some insertion or the first value is missing. -/
theorem Lossy.move (h : Lossy entry c) (hinv : TraceInv entry c)
    (hmove : Move (tracedUpd upd) c t c') : Lossy entry c' := by
  have hfull : ∀ trace, Full entry c' trace → Full entry c trace :=
    fun trace htrace => htrace.of_move hmove
  have hreturned : ∀ t', c.stage t' = .returned → c'.stage t' = .returned :=
    fun t' => hmove.returned
  refine ⟨fun x hx hx' => ?_, fun t' y hy hy' => ?_, fun hnone => h.nonempty (hfull _ hnone)⟩
  · cases hmove with
    | idle | retry | miss | read => exact h.stale x hx (hfull _ hx')
    | remove => cases hx
    | insert r hr hentry =>
      -- the value that the client has read is not built on everything
      rw [← Option.some.inj hx] at hx'
      have hread := hx'.of_push (by rw [hr]; exact nofun) hreturned
      cases r with
      | none => exact h.nonempty hread
      | some y => exact h.held t y hr hread
  · cases hmove with
    | idle => exact h.held t' y hy (hfull _ hy')
    | retry | miss | read | insert =>
      rcases stage_update hy with ⟨-, heq⟩ | ⟨-, hold⟩
      · cases heq
      · exact h.held t' y hold (hfull _ hy')
    | remove x found hx hentry =>
      rcases stage_update hy with ⟨-, heq⟩ | ⟨-, hold⟩
      · obtain rfl : x = y := Option.some.inj (CellStage.insert.inj heq)
        by_cases hne : x = found
        · exact h.stale found hentry (hne ▸ hfull _ hy')
        · exact hinv.stale hentry hx hne (hfull _ hy')
      · exact h.held t' y hold (hfull _ hy')

/-- The clients that have returned after a step, when no insertion has succeeded in it. -/
theorem Full.move {trace : Trace ι} (h : Full entry c trace) {p : CellStage (V × Trace ι)}
    (hp : p ≠ .returned) {e : Option (V × Trace ι)} :
    Full entry ⟨e, Function.update c.stage t p⟩ trace := by
  refine ⟨fun t' ht' => ?_, h.base⟩
  rcases stage_update ht' with ⟨-, heq⟩ | ⟨-, hold⟩
  · exact absurd heq hp
  · exact h.calls t' hold

/-- What a client inserts has all that the value has that it has read, and the client. -/
theorem Full.push {r : Option (V × Trace ι)} (h : Full entry c (traceOf r))
    {e : Option (V × Trace ι)} :
    Full entry ⟨e, Function.update c.stage t .returned⟩ (Trace.push t (r.map Prod.snd)) := by
  rw [push_traceOf]
  refine ⟨fun t' ht' => ?_, h.base⟩
  rcases stage_update ht' with ⟨rfl, -⟩ | ⟨-, hold⟩
  · exact List.mem_cons_self
  · exact List.mem_cons_of_mem t (h.calls t' hold)

/-- A step to a stage that is no insertion of a value, with the entry as it was. -/
theorem Sound.update (h : Sound entry c) {p : CellStage (V × Trace ι)} (hp : p ≠ .returned)
    (hinsert : ∀ y, p ≠ .insert (some y)) (ht : ∀ y, c.stage t ≠ .insert (some y)) :
    Sound entry ⟨c.entry, Function.update c.stage t p⟩ := by
  have hold : ∀ t' y, Function.update c.stage t p t' = .insert (some y) →
      c.stage t' = .insert (some y) := fun t' y hy => by
    rcases stage_update hy with ⟨-, heq⟩ | ⟨-, hold⟩
    · exact absurd heq (hinsert y)
    · exact hold
  refine ⟨fun x hx => (h.full x hx).move hp, fun x hx t' y hy => h.alone x hx t' y (hold t' y hy),
    fun t' y hy => (h.held t' y (hold t' y hy)).move hp,
    fun t₁ y₁ t₂ y₂ h₁ h₂ => h.unique t₁ y₁ t₂ y₂ (hold t₁ y₁ h₁) (hold t₂ y₂ h₂),
    fun hnone => ?_⟩
  rcases h.absent hnone with ⟨t', y, hy⟩ | hfull
  · refine Or.inl ⟨t', y, ?_⟩
    have hne : t' ≠ t := fun heq => ht y (heq ▸ hy)
    exact (Function.update_of_ne hne ..).trans hy
  · exact Or.inr (hfull.move hp)

/-- **A clean step** loses nothing. -/
theorem Sound.move (h : Sound entry c) (hmove : Move (tracedUpd upd) c t c')
    (hclean : Clean c t c') : Sound entry c' := by
  cases hmove with
  | idle => exact h
  | retry hstage =>
    refine h.update nofun nofun fun y hy => ?_
    have := hclean.insertion y hy
    simp at this
  | miss hstage => exact h.update nofun (by simp) (by simp [hstage])
  | read x hstage hentry => exact h.update nofun nofun (by simp [hstage])
  | remove x found hstage hentry =>
    obtain rfl : x = found := hclean.removal x found hstage hentry rfl
    -- the client holds the value of the entry, and no other client holds one
    have hother : ∀ t' y, Function.update c.stage t (.insert (some x)) t' = .insert (some y) →
        t' = t ∧ x = y := fun t' y hy => by
      rcases stage_update hy with ⟨rfl, heq⟩ | ⟨-, hold⟩
      · exact ⟨rfl, Option.some.inj (CellStage.insert.inj heq)⟩
      · exact absurd hold (h.alone x hentry t' y)
    refine ⟨nofun, nofun, fun t' y hy => ?_, fun t₁ y₁ t₂ y₂ h₁ h₂ => ?_,
      fun _ => Or.inl ⟨t, x, Function.update_self ..⟩⟩
    · obtain ⟨-, rfl⟩ := hother t' y hy
      exact (h.full x hentry).move (p := .insert (some x)) nofun
    · rw [(hother t₁ y₁ h₁).1, (hother t₂ y₂ h₂).1]
  | insert r hstage hentry =>
    -- what the client has read is built on everything, and no other client holds a value
    have hother : ∀ t' y, t' ≠ t → c.stage t' ≠ .insert (some y) := fun t' y hne hy =>
      Option.some_ne_none _ (hclean.exclusive t' y hne hy hentry)
    have hread : Full entry c (traceOf r) := by
      cases r with
      | some y => exact h.held t y hstage
      | none =>
        refine (h.absent hentry).resolve_left fun ⟨t', y, hy⟩ => ?_
        by_cases hne : t' = t
        · simp [hne, hstage] at hy
        · exact hother t' y hne hy
    have hnone : ∀ t' y, Function.update c.stage t .returned t' ≠ .insert (some y) :=
      fun t' y hy => by
        rcases stage_update hy with ⟨-, heq⟩ | ⟨hne, hold⟩
        · cases heq
        · exact hother t' y hne hold
    refine ⟨fun x hx => ?_, fun _ _ => hnone, fun t' y hy => absurd hy (hnone t' y),
      fun t₁ y₁ _ _ h₁ => absurd h₁ (hnone t₁ y₁), nofun⟩
    rw [← Option.some.inj hx]
    exact hread.push

/-- **A step that is not clean** loses something. -/
theorem Sound.lossy (h : Sound entry c) (hinv : TraceInv entry c)
    (hmove : Move (tracedUpd upd) c t c') (hclean : ¬Clean c t c') : Lossy entry c' := by
  have hback : ∀ trace, Full entry c' trace → Full entry c trace :=
    fun trace htrace => htrace.of_move hmove
  have hreturned : ∀ t', c.stage t' = .returned → c'.stage t' = .returned :=
    fun t' => hmove.returned
  cases hmove with
  | idle hstage =>
    exact absurd ⟨by simp [hstage], by simp [hstage], fun _ _ _ _ hnone => hnone⟩ hclean
  | miss hstage =>
    exact absurd ⟨by simp [hstage], by simp [hstage], fun _ _ _ _ hnone => hnone⟩ hclean
  | read x hstage =>
    exact absurd ⟨by simp [hstage], by simp [hstage], fun _ _ _ _ hnone => hnone⟩ hclean
  | retry hstage =>
    -- an insertion after a removal has failed
    obtain ⟨x, hx⟩ : ∃ x, c.stage t = .insert (some x) := by
      by_contra hnone
      refine hclean ⟨fun x y _ hy hnone => ?_, fun x hx => absurd ⟨x, hx⟩ hnone,
        fun _ _ _ _ hnone => hnone⟩
      exact absurd (hy.symm.trans hnone) (Option.some_ne_none y)
    refine ⟨fun y hy => absurd hx (h.alone y hy t x), fun t' y hy => ?_, fun hfull => ?_⟩
    · rcases stage_update hy with ⟨-, heq⟩ | ⟨hne, hold⟩
      · cases heq
      · exact absurd (h.unique t x t' y hx hold) hne
    · exact hinv.nonempty (Or.inr ⟨t, Or.inr hx⟩) (hback _ hfull)
  | remove x found hstage hentry =>
    -- the client has removed another value than the one it has read
    have hne : x ≠ found := by
      rintro rfl
      refine hclean ⟨fun y z hy hz _ => ?_, by simp [hstage], fun _ _ _ _ _ => rfl⟩
      rw [← CellStage.remove.inj (hstage.symm.trans hy)]
      exact Option.some.inj (hentry.symm.trans hz)
    refine ⟨nofun, fun t' y hy hfull => ?_, fun hfull => ?_⟩
    · rcases stage_update hy with ⟨-, heq⟩ | ⟨-, hold⟩
      · obtain rfl : x = y := Option.some.inj (CellStage.insert.inj heq)
        exact hinv.stale hentry hstage hne (hback _ hfull)
      · exact h.alone found hentry t' y hold
    · exact hinv.nonempty (Or.inl hentry) (hback _ hfull)
  | insert r hstage hentry =>
    -- another client is between its removal and its insertion
    obtain ⟨t', x, hne, hx⟩ : ∃ t' x, t' ≠ t ∧ c.stage t' = .insert (some x) := by
      by_contra hnone
      exact hclean ⟨by simp [hstage], fun _ _ => Function.update_self ..,
        fun t' x hne hx _ => absurd ⟨t', x, hne, hx⟩ hnone⟩
    have hlive : Live c x := Or.inr ⟨t', Or.inr hx⟩
    obtain rfl : r = none := by
      cases r with
      | none => rfl
      | some y => exact absurd (h.unique t y t' x hstage hx) hne
    refine ⟨fun y hy hfull => ?_, fun t₁ y hy hfull => ?_, fun hfull => ?_⟩
    · rw [← Option.some.inj hy] at hfull
      have hunreturned : c.stage t ≠ .returned := by simp [hstage]
      exact hinv.nonempty hlive (hfull.of_push (r := none) hunreturned hreturned)
    · rcases stage_update hy with ⟨-, heq⟩ | ⟨-, hold⟩
      · cases heq
      · exact hinv.not_mem hstage (Or.inr ⟨t₁, Or.inr hold⟩)
          (hfull.calls t (Function.update_self ..))
    · exact hinv.nonempty hlive (hback _ hfull)

theorem Lossy.run (h : Lossy entry c) (hinv : TraceInv entry c) (schedule : List (ι × Bool)) :
    Lossy entry (c.run (tracedUpd upd) (fun x => visible x.1) schedule) := by
  induction schedule generalizing c with
  | nil => exact h
  | cons t schedule ih =>
    have hmove := move_step (tracedUpd upd) (fun x => visible x.1) c t
    exact ih (h.move hinv hmove) (hinv.move hmove)

/-- A clean run loses nothing, and any other run loses something. -/
theorem Sound.run (h : Sound entry c) (hinv : TraceInv entry c) (schedule : List (ι × Bool)) :
    (CleanRun upd visible c schedule →
      Sound entry (c.run (tracedUpd upd) (fun x => visible x.1) schedule)) ∧
    (¬CleanRun upd visible c schedule →
      Lossy entry (c.run (tracedUpd upd) (fun x => visible x.1) schedule)) := by
  induction schedule generalizing c with
  | nil => exact ⟨fun _ => h, fun hnot => absurd trivial hnot⟩
  | cons t schedule ih =>
    have hmove := move_step (tracedUpd upd) (fun x => visible x.1) c t
    by_cases hclean : Clean c t.1 (c.step (tracedUpd upd) (fun x => visible x.1) t)
    · obtain ⟨hsound, hlossy⟩ := ih (h.move hmove hclean) (hinv.move hmove)
      exact ⟨fun hrun => hsound hrun.2, fun hnot => hlossy fun hrest => hnot ⟨hclean, hrest⟩⟩
    · exact ⟨fun hrun => absurd hrun.1 hclean,
        fun _ => (h.lossy hinv hmove hclean).run (hinv.move hmove) schedule⟩

omit [DecidableEq ι] in
theorem Sound.init (entry : Option V) : Sound entry (tracedInit ι entry) := by
  refine ⟨fun x hx => ?_, fun _ _ _ _ => nofun, nofun, nofun, fun hnone => Or.inr ⟨nofun, ?_⟩⟩
  · obtain ⟨value, hvalue, rfl⟩ := Option.map_eq_some_iff.mp hx
    exact ⟨nofun, fun _ => rfl⟩
  · rw [Option.map_eq_none_iff.mp hnone]
    exact nofun

/-- **Nothing is lost** exactly in the clean runs: when all clients have returned, every insertion
and the first value are in the trace of the entry. -/
theorem nothing_lost_iff [Fintype ι] (upd : ι → Option V → V) (visible : V → Bool)
    (entry : Option V) {schedule : List (ι × Bool)}
    (hreturned : ∀ t, (traced upd visible entry schedule).stage t = .returned) :
    (lostCalls upd visible entry schedule = ∅ ∧
      (entry.isSome → keepsBase upd visible entry schedule)) ↔
      CleanRun upd visible (tracedInit ι entry) schedule := by
  have hfull : (lostCalls upd visible entry schedule = ∅ ∧
      (entry.isSome → keepsBase upd visible entry schedule)) ↔
      Full entry (traced upd visible entry schedule)
        (traceOf (traced upd visible entry schedule).entry) := by
    rw [lostCalls, Finset.filter_eq_empty_iff]
    simp only [Finset.mem_univ, forall_const, not_not]
    exact ⟨fun h => ⟨fun t _ => @h.1 t, h.2⟩, fun h => ⟨fun t => h.calls t (hreturned t), h.base⟩⟩
  obtain ⟨hsound, hlossy⟩ := (Sound.init (ι := ι) entry).run (TraceInv.init entry) schedule
  rw [hfull]
  constructor
  · intro h
    by_contra hnot
    have hlost : Lossy entry (traced upd visible entry schedule) := hlossy hnot
    cases hentry : (traced upd visible entry schedule).entry with
    | none =>
      rw [hentry] at h
      exact hlost.nonempty h
    | some x =>
      rw [hentry] at h
      exact hlost.stale x hentry h
  · intro hrun
    have hkept : Sound entry (traced upd visible entry schedule) := hsound hrun
    cases hentry : (traced upd visible entry schedule).entry with
    | none =>
      refine (hkept.absent hentry).resolve_left fun ⟨t, y, hy⟩ => ?_
      rw [hreturned t] at hy
      cases hy
    | some x => exact hkept.full x hentry

end Clean

/-! ## Sums -/

section Sums

variable [DecidableEq ι] [Fintype ι] {W : Type v} [AddCommMonoid W]

/-- A client adds its weight to what it has read. -/
def addUpd (weight : ι → W) (t : ι) (r : Option W) : W := weight t + r.getD 0

/-- **The weight that is lost**: those of the lost clients, and the first value with them. -/
def lostWeight (weight : ι → W) (visible : W → Bool) (entry : Option W)
    (schedule : List (ι × Bool)) : W :=
  ∑ t ∈ lostCalls (addUpd weight) visible entry schedule, weight t +
    if keepsBase (addUpd weight) visible entry schedule then 0 else entry.getD 0

omit [Fintype ι] in
/-- A live value is the sum of the weights of its trace. -/
theorem sum_live (weight : ι → W) (visible : W → Bool) (entry : Option W)
    (schedule : List (ι × Bool)) (x : W × Trace ι)
    (hx : Live (traced (addUpd weight) visible entry schedule) x) :
    x.1 = (if x.2.base then entry.getD 0 else 0) + (x.2.calls.map weight).sum := by
  refine live_run (P := fun x => x.1 = (if x.2.base then entry.getD 0 else 0) +
    (x.2.calls.map weight).sum) (fun value hvalue => ?_) (fun t r hr => ?_) schedule x hx
  · simp [hvalue]
  · cases r with
    | none => simp [tracedUpd, addUpd, Trace.push]
    | some y =>
      have hy := hr y rfl
      simp only [tracedUpd, addUpd, Trace.push, Option.map_some, Option.getD_some, hy,
        List.map_cons, List.sum_cons]
      exact add_left_comm _ _ _

/-- The sum of a trace, and what is missing in it. -/
theorem sum_trace_add (weight : ι → W) (value : W) (trace : Trace ι) (h : trace.calls.Nodup) :
    (if trace.base then value else 0) + (trace.calls.map weight).sum +
        (∑ t ∈ Finset.univ.filter (· ∉ trace.calls), weight t +
          if trace.base then 0 else value) = value + ∑ t, weight t := by
  have hkept : (trace.calls.map weight).sum =
      ∑ t ∈ Finset.univ.filter (· ∈ trace.calls), weight t := by
    rw [← List.sum_toFinset weight h]
    refine Finset.sum_congr (Finset.ext fun t => ?_) fun _ _ => rfl
    simp
  rw [hkept, ← Finset.sum_filter_add_sum_filter_not Finset.univ (· ∈ trace.calls) weight]
  cases trace.base with
  | true => simp only [if_true, add_zero, add_assoc]
  | false => simp only [Bool.false_eq_true, if_false, zero_add, ← add_assoc, add_comm value]

/-- **The entry in the end** misses the weight that is lost. -/
theorem entry_add_lostWeight (weight : ι → W) (visible : W → Bool) (entry : Option W)
    (schedule : List (ι × Bool)) :
    ((init ι entry).run (addUpd weight) visible schedule).entry.getD 0 +
      lostWeight weight visible entry schedule = entry.getD 0 + ∑ t, weight t := by
  rw [← traced_map, lostWeight, lostCalls, keepsBase]
  cases hentry : (traced (addUpd weight) visible entry schedule).entry with
  | none =>
    have hnone := sum_trace_add weight (entry.getD 0) ⟨[], false⟩ List.nodup_nil
    simpa [map, hentry, traceOf] using hnone
  | some x =>
    have hlive : Live (traced (addUpd weight) visible entry schedule) x := Or.inl hentry
    have hnodup := (traceInv_run (addUpd weight) visible entry schedule).nodup x hlive
    rw [← sum_trace_add weight (entry.getD 0) x.2 hnodup,
      ← sum_live weight visible entry schedule x hlive]
    simp only [map, hentry]
    rfl

end Sums

end Cell

end Foundation
