import Mathlib.Data.List.Nodup
import Mathlib.Tactic

/-!
# A register that is read and written back

Clients update a register in two atomic steps: a client reads the value, and later it writes back
what it makes of the value that it has read. A schedule is a list of clients, and an occurrence of a
client is its next step. What the register holds at the end depends on the chain of writes that its
value is built on: the last write, the write that this client has read, and so on. An update that is
not in the chain is lost.

## Main definitions

* `Register`, `Register.run`: the register and its clients along a schedule
* `chain`: the clients whose updates the value is built on, the last one first

## Main results

* `Register.steps_run`: a client has taken as many steps as it occurs, and at most two
* `run_map`: runs under a map of the values
* `run_value`: the value is that of the updates of the chain
* `nodup_chain`: a client is in the chain at most once
* `chain_serial`, `exists_serial`: no update is lost exactly when the clients do not overlap
-/

namespace Foundation

universe u v w

/-- What a client has done: nothing, its read, or its write. -/
inductive Stage (V : Type v)
  | start
  | read (value : V)
  | returned
  deriving DecidableEq

/-- A register and its clients. -/
structure Register (ι : Type u) (V : Type v) where
  value : V
  stage : ι → Stage V

/-- The steps that a client has taken. -/
def Stage.steps {V : Type v} : Stage V → ℕ
  | .start => 0
  | .read _ => 1
  | .returned => 2

theorem Stage.steps_le {V : Type v} (s : Stage V) : s.steps ≤ 2 := by
  cases s <;> simp [steps]

theorem Stage.eq_returned {V : Type v} {s : Stage V} (h : s.steps = 2) : s = .returned := by
  cases s with
  | start => simp [steps] at h
  | read value => simp [steps] at h
  | returned => rfl

namespace Register

variable {ι : Type u} [DecidableEq ι] {V : Type w}

/-- A register before the first step. -/
def init (ι : Type u) (value : V) : Register ι V := ⟨value, fun _ => .start⟩

/-- The next step of a client, whose update is `upd t`. -/
def step (upd : ι → V → V) (r : Register ι V) (t : ι) : Register ι V :=
  match r.stage t with
  | .start => { r with stage := Function.update r.stage t (.read r.value) }
  | .read value => ⟨upd t value, Function.update r.stage t .returned⟩
  | .returned => r

/-- The steps of a schedule. -/
def run (upd : ι → V → V) (r : Register ι V) (schedule : List ι) : Register ι V :=
  schedule.foldl (step upd) r

theorem step_of_start {upd : ι → V → V} {r : Register ι V} {t : ι} (h : r.stage t = .start) :
    r.step upd t = { r with stage := Function.update r.stage t (.read r.value) } := by
  simp only [step, h]

theorem step_of_read {upd : ι → V → V} {r : Register ι V} {t : ι} {value : V}
    (h : r.stage t = .read value) :
    r.step upd t = ⟨upd t value, Function.update r.stage t .returned⟩ := by
  simp only [step, h]

theorem step_of_returned {upd : ι → V → V} {r : Register ι V} {t : ι} (h : r.stage t = .returned) :
    r.step upd t = r := by
  simp only [step, h]

theorem stage_step_of_start {upd : ι → V → V} {r : Register ι V} {t : ι}
    (h : r.stage t = .start) : (r.step upd t).stage t = .read r.value := by
  rw [step_of_start h]
  exact Function.update_self ..

theorem stage_step_of_read {upd : ι → V → V} {r : Register ι V} {t : ι} {value : V}
    (h : r.stage t = .read value) : (r.step upd t).stage t = .returned := by
  rw [step_of_read h]
  exact Function.update_self ..

/-- The other clients are where they were. -/
theorem stage_step_of_ne (upd : ι → V → V) (r : Register ι V) {t t' : ι} (h : t' ≠ t) :
    (r.step upd t).stage t' = r.stage t' := by
  cases hstage : r.stage t with
  | start =>
    rw [step_of_start hstage]
    exact Function.update_of_ne h ..
  | read value =>
    rw [step_of_read hstage]
    exact Function.update_of_ne h ..
  | returned => rw [step_of_returned hstage]

theorem returned_step (upd : ι → V → V) {r : Register ι V} {t' : ι} (h : r.stage t' = .returned)
    (t : ι) : (r.step upd t).stage t' = .returned := by
  by_cases ht : t' = t
  · subst ht
    rw [step_of_returned h, h]
  · rw [stage_step_of_ne upd r ht, h]

/-- A client that has read has read before the step, or it reads the value in the step. -/
theorem read_of_step {upd : ι → V → V} {r : Register ι V} {t t' : ι} {value : V}
    (h : (r.step upd t).stage t' = .read value) : r.stage t' = .read value ∨ value = r.value := by
  by_cases ht : t' = t
  · subst ht
    cases hstage : r.stage t' with
    | start =>
      rw [stage_step_of_start hstage] at h
      exact Or.inr (Stage.read.inj h).symm
    | read l => simp [stage_step_of_read hstage] at h
    | returned => simp [step_of_returned hstage, hstage] at h
  · exact Or.inl (by rwa [stage_step_of_ne upd r ht] at h)

theorem steps_step (upd : ι → V → V) (r : Register ι V) (t t' : ι) :
    ((r.step upd t).stage t').steps = min 2 ((r.stage t').steps + if t = t' then 1 else 0) := by
  by_cases ht : t = t'
  · subst ht
    cases hstage : r.stage t <;> simp [step, hstage, Stage.steps]
  · have hkeep : (r.step upd t).stage t' = r.stage t' := by
      cases hstage : r.stage t <;> simp [step, hstage, Function.update_of_ne (Ne.symm ht)]
    rw [hkeep, if_neg ht, add_zero, Nat.min_eq_right (r.stage t').steps_le]

/-- **The steps of a client** are its occurrences in the schedule, and at most two. -/
theorem steps_run (upd : ι → V → V) (r : Register ι V) (schedule : List ι) (t : ι) :
    ((r.run upd schedule).stage t).steps = min 2 ((r.stage t).steps + schedule.count t) := by
  induction schedule generalizing r with
  | nil => exact (Nat.min_eq_right (r.stage t).steps_le).symm
  | cons t' schedule ih =>
    rw [run, List.foldl_cons, ← run, ih, steps_step, List.count_cons]
    simp only [beq_iff_eq]
    omega

/-- A step that the schedule has counted. -/
theorem steps_step_add_count {upd : ι → V → V} {r : Register ι V} {t : ι} {schedule : List ι}
    (h : ∀ t', (r.stage t').steps + (t :: schedule).count t' = 2) (t' : ι) :
    ((r.step upd t).stage t').steps + schedule.count t' = 2 := by
  have := h t'
  rw [List.count_cons] at this
  simp only [beq_iff_eq] at this
  rw [steps_step]
  omega

/-- A client that is not between its two steps, and has yet to take some, is at its start. -/
theorem stage_of_mem {r : Register ι V} {t : ι} {schedule : List ι}
    (hread : ∀ value, r.stage t ≠ .read value) (h : (r.stage t).steps + schedule.count t = 2)
    (ht : t ∈ schedule) : r.stage t = .start := by
  have hpos := List.count_pos_iff.mpr ht
  cases hstage : r.stage t with
  | start => rfl
  | read value => exact absurd hstage (hread value)
  | returned =>
    rw [hstage, Stage.steps] at h
    omega

end Register

/-- The values under a map. -/
def Stage.map {U : Type v} {V : Type w} (h : U → V) : Stage U → Stage V
  | .start => .start
  | .read value => .read (h value)
  | .returned => .returned

namespace Register

variable {ι : Type u} [DecidableEq ι] {U : Type v} {V : Type w}

def map (h : U → V) (r : Register ι U) : Register ι V := ⟨h r.value, fun t => (r.stage t).map h⟩

theorem map_update (h : U → V) (stage : ι → Stage U) (t : ι) (s : Stage U) :
    (fun t' => (Function.update stage t s t').map h) =
      Function.update (fun t' => (stage t').map h) t (s.map h) := by
  funext t'
  by_cases ht : t' = t
  · subst ht
    simp only [Function.update_self]
  · simp only [Function.update_of_ne ht]

variable {updU : ι → U → U} {updV : ι → V → V} {h : U → V}

theorem step_map (hupd : ∀ t x, h (updU t x) = updV t (h x)) (r : Register ι U) (t : ι) :
    (r.step updU t).map h = (r.map h).step updV t := by
  cases hstage : r.stage t with
  | start =>
    have hs : (r.map h).stage t = .start := congrArg (Stage.map h) hstage
    simp only [step, hstage, hs]
    exact congrArg (Register.mk _) (map_update h r.stage t (.read r.value))
  | read value =>
    have hs : (r.map h).stage t = .read (h value) := congrArg (Stage.map h) hstage
    simp only [step, hstage, hs, ← hupd]
    exact congrArg (Register.mk _) (map_update h r.stage t .returned)
  | returned =>
    have hs : (r.map h).stage t = .returned := congrArg (Stage.map h) hstage
    simp only [step, hstage, hs]

/-- **Runs under a map** that respects the updates. -/
theorem run_map (updU : ι → U → U) (updV : ι → V → V) (h : U → V)
    (hupd : ∀ t x, h (updU t x) = updV t (h x)) (r : Register ι U) (schedule : List ι) :
    (r.run updU schedule).map h = (r.map h).run updV schedule := by
  induction schedule generalizing r with
  | nil => rfl
  | cons t schedule ih =>
    rw [run, List.foldl_cons, ← run, ih, step_map hupd]
    rfl

end Register

/-! ## The chain -/

section Chain

variable {ι : Type u} [DecidableEq ι] {V : Type v}

/-- The register of the chains: an update puts its client in front of the chain that it has read. -/
def chains (schedule : List ι) : Register ι (List ι) :=
  (Register.init ι []).run List.cons schedule

/-- **The chain** that the value is built on, the last write first. -/
def chain (schedule : List ι) : List ι := (chains schedule).value

/-- **The value** is that of the updates of the chain, one after the other. -/
theorem run_value (upd : ι → V → V) (value : V) (schedule : List ι) :
    ((Register.init ι value).run upd schedule).value = (chain schedule).foldr upd value := by
  have hmap : (chains schedule).map (fun l => l.foldr upd value) =
      (Register.init ι value).run upd schedule :=
    Register.run_map List.cons upd _ (fun _ _ => rfl) (Register.init ι []) schedule
  exact (congrArg Register.value hmap).symm

/-- A client is in a chain at most once, and only after its write. -/
structure ChainInv (r : Register ι (List ι)) : Prop where
  nodup : r.value.Nodup
  written : ∀ t ∈ r.value, r.stage t = .returned
  nodup_read : ∀ t l, r.stage t = .read l → l.Nodup
  written_read : ∀ t l, r.stage t = .read l → ∀ t' ∈ l, r.stage t' = .returned

omit [DecidableEq ι] in
/-- A client that is yet to write is in no chain. -/
theorem ChainInv.not_mem_read {r : Register ι (List ι)} (h : ChainInv r) {t t' : ι}
    {l l' : List ι} (ht : r.stage t = .read l) (ht' : r.stage t' = .read l') : t ∉ l' := by
  intro hmem
  simpa [ht] using h.written_read t' l' ht' t hmem

theorem ChainInv.step {r : Register ι (List ι)} (h : ChainInv r) (t : ι) :
    ChainInv (r.step List.cons t) := by
  have hvalue : (r.step List.cons t).value = r.value ∨
      ∃ l, r.stage t = .read l ∧ (r.step List.cons t).value = t :: l ∧
        (r.step List.cons t).stage t = .returned := by
    cases hstage : r.stage t with
    | start => exact Or.inl (by rw [Register.step_of_start hstage])
    | read l =>
      exact Or.inr ⟨l, rfl, by rw [Register.step_of_read hstage],
        Register.stage_step_of_read hstage⟩
    | returned => exact Or.inl (by rw [Register.step_of_returned hstage])
  refine ⟨?_, fun t' ht' => ?_, fun t' l hl => ?_, fun t' l hl t'' ht'' => ?_⟩
  · rcases hvalue with heq | ⟨l, hl, heq, -⟩
    · exact heq ▸ h.nodup
    · rw [heq]
      exact List.nodup_cons.mpr ⟨h.not_mem_read hl hl, h.nodup_read t l hl⟩
  · rcases hvalue with heq | ⟨l, hl, heq, hreturned⟩
    · exact Register.returned_step _ (h.written t' (heq ▸ ht')) t
    · rw [heq] at ht'
      rcases List.mem_cons.mp ht' with rfl | ht'
      · exact hreturned
      · exact Register.returned_step _ (h.written_read t l hl t' ht') t
  · rcases Register.read_of_step hl with hl | rfl
    · exact h.nodup_read t' l hl
    · exact h.nodup
  · rcases Register.read_of_step hl with hl | rfl
    · exact Register.returned_step _ (h.written_read t' l hl t'' ht'') t
    · exact Register.returned_step _ (h.written t'' ht'') t

theorem ChainInv.init (ι : Type u) : ChainInv (Register.init ι ([] : List ι)) :=
  ⟨List.nodup_nil, nofun, nofun, nofun⟩

theorem chainInv_run (schedule : List ι) : ChainInv (chains schedule) := by
  have hinit := ChainInv.init ι
  rw [chains, Register.run]
  generalize Register.init ι [] = r at hinit
  induction schedule generalizing r with
  | nil => exact hinit
  | cons t schedule ih => exact ih _ (hinit.step t)

/-- **A client is in the chain at most once.** -/
theorem nodup_chain (schedule : List ι) : (chain schedule).Nodup := (chainInv_run schedule).nodup

theorem count_flatMap_pair (order : List ι) (t : ι) :
    (order.flatMap fun t => [t, t]).count t = 2 * order.count t := by
  induction order with
  | nil => rfl
  | cons t' order ih =>
    rw [List.flatMap_cons, List.count_append, ih]
    simp only [List.count_cons, List.count_nil, beq_iff_eq]
    omega

/-- **Clients that do not overlap** lose no update: each reads and writes before the next one. -/
theorem chain_serial {order : List ι} (h : order.Nodup) :
    chain (order.flatMap fun t => [t, t]) = order.reverse := by
  -- the clients that come later are at their start
  suffices hserial : ∀ r : Register ι (List ι), (∀ t ∈ order, r.stage t = .start) →
      (r.run List.cons (order.flatMap fun t => [t, t])).value = order.reverse ++ r.value by
    exact (hserial (Register.init ι []) fun _ _ => rfl).trans (List.append_nil _)
  induction order with
  | nil => exact fun _ _ => rfl
  | cons t order ih =>
    obtain ⟨ht, horder⟩ := List.nodup_cons.mp h
    intro r hr
    have hstep : (r.step List.cons t).step List.cons t =
        ⟨t :: r.value, Function.update r.stage t .returned⟩ := by
      simp only [Register.step, hr t List.mem_cons_self, Function.update_self, Function.update_idem]
    rw [List.flatMap_cons, Register.run, List.foldl_append, List.foldl_cons, List.foldl_cons,
      List.foldl_nil, hstep, ← Register.run, ih horder]
    · rw [List.reverse_cons, List.append_assoc]
      rfl
    · intro t' ht'
      have hne : t' ≠ t := fun heq => ht (heq ▸ ht')
      exact (Function.update_of_ne hne ..).trans (hr t' (List.mem_cons_of_mem t ht'))

/-! ## Clients that overlap -/

/-- A chain without some update that has been written. -/
def Stale (r : Register ι (List ι)) (l : List ι) : Prop := ∃ t, r.stage t = .returned ∧ t ∉ l

/-- **A loss that is bound to happen**: a client has read a stale chain, or the value is stale and
every client that is yet to write has read a stale chain, or two clients are yet to write. -/
def Lossy (r : Register ι (List ι)) : Prop :=
  (∃ t l, r.stage t = .read l ∧ Stale r l) ∨
    (Stale r r.value ∧ ∀ t l, r.stage t = .read l → Stale r l) ∨
    ∃ t₁ t₂ l₁ l₂, t₁ ≠ t₂ ∧ r.stage t₁ = .read l₁ ∧ r.stage t₂ = .read l₂

theorem Stale.step {r : Register ι (List ι)} {l : List ι} (h : Stale r l) (t : ι) :
    Stale (r.step List.cons t) l := by
  obtain ⟨t', ht', hl⟩ := h
  exact ⟨t', Register.returned_step _ ht' t, hl⟩

theorem Lossy.step {r : Register ι (List ι)} (h : Lossy r) (hinv : ChainInv r) (t : ι) :
    Lossy (r.step List.cons t) := by
  have hkeep : ∀ t' l, t' ≠ t → r.stage t' = .read l →
      (r.step List.cons t).stage t' = .read l := by
    intro t' l hne ht'
    rw [Register.stage_step_of_ne _ r hne, ht']
  cases hstage : r.stage t with
  | start =>
    have hne : ∀ t' l, r.stage t' = .read l → t' ≠ t := fun t' l ht' heq => by
      simp [heq, hstage] at ht'
    have hvalue : (r.step List.cons t).value = r.value := by
      rw [Register.step_of_start hstage]
    rcases h with ⟨t', l, ht', hl⟩ | ⟨hstale, hreads⟩ | ⟨t₁, t₂, l₁, l₂, hne', ht₁, ht₂⟩
    · exact Or.inl ⟨t', l, hkeep t' l (hne t' l ht') ht', hl.step t⟩
    · refine Or.inr (Or.inl ⟨hvalue ▸ hstale.step t, fun t' l ht' => ?_⟩)
      rcases Register.read_of_step ht' with ht' | rfl
      · exact (hreads t' l ht').step t
      · exact hstale.step t
    · exact Or.inr (Or.inr ⟨t₁, t₂, l₁, l₂, hne', hkeep t₁ l₁ (hne t₁ l₁ ht₁) ht₁,
        hkeep t₂ l₂ (hne t₂ l₂ ht₂) ht₂⟩)
  | read value =>
    have hreturned : (r.step List.cons t).stage t = .returned :=
      Register.stage_step_of_read hstage
    -- the update of this client is in no chain that another one has read
    have hother : ∀ t' l, r.stage t' = .read l → Stale (r.step List.cons t) l :=
      fun t' l ht' => ⟨t, hreturned, hinv.not_mem_read hstage ht'⟩
    by_cases hwait : ∃ t' l, t' ≠ t ∧ r.stage t' = .read l
    · obtain ⟨t', l, hne, ht'⟩ := hwait
      exact Or.inl ⟨t', l, hkeep t' l hne ht', hother t' l ht'⟩
    · -- this is the only client that is yet to write, so that it has read a stale chain
      have hstale : Stale r value := by
        rcases h with ⟨t', l, ht', hl⟩ | ⟨-, hreads⟩ | ⟨t₁, t₂, l₁, l₂, hne, ht₁, ht₂⟩
        · by_cases ht : t' = t
          · subst ht
            rw [hstage] at ht'
            exact Stage.read.inj ht' ▸ hl
          · exact absurd ⟨t', l, ht, ht'⟩ hwait
        · exact hreads t value hstage
        · by_cases ht : t₁ = t
          · exact absurd ⟨t₂, l₂, ht ▸ hne.symm, ht₂⟩ hwait
          · exact absurd ⟨t₁, l₁, ht, ht₁⟩ hwait
      obtain ⟨t', ht', hmem⟩ := hstale
      have hne : t' ≠ t := fun heq => by simp [heq, hstage] at ht'
      have hvalue : (r.step List.cons t).value = t :: value := by
        rw [Register.step_of_read hstage]
      refine Or.inr (Or.inl ⟨⟨t', Register.returned_step _ ht' t, fun hcons => ?_⟩,
        fun t' l ht' => ?_⟩)
      · exact (List.mem_cons.mp (hvalue ▸ hcons)).elim hne hmem
      · by_cases ht : t' = t
        · simp [ht, hreturned] at ht'
        · rw [Register.stage_step_of_ne _ r ht] at ht'
          exact absurd ⟨t', l, ht, ht'⟩ hwait
  | returned =>
    rw [Register.step_of_returned hstage]
    exact h

theorem Lossy.run {r : Register ι (List ι)} (h : Lossy r) (hinv : ChainInv r) (schedule : List ι) :
    Lossy (r.run List.cons schedule) := by
  induction schedule generalizing r with
  | nil => exact h
  | cons t schedule ih => exact ih (h.step hinv t) (hinv.step t)

/-- From a state where no client is between its two steps, the clients do not overlap, or they lose
an update. -/
theorem exists_serial_or_lossy (n : ℕ) {schedule : List ι} {r : Register ι (List ι)}
    (hlength : schedule.length ≤ n) (hinv : ChainInv r) (hread : ∀ t l, r.stage t ≠ .read l)
    (hcount : ∀ t, (r.stage t).steps + schedule.count t = 2) :
    (∃ order : List ι, schedule = order.flatMap fun t => [t, t]) ∨
      Lossy (r.run List.cons schedule) := by
  induction n generalizing schedule r with
  | zero => exact Or.inl ⟨[], List.eq_nil_of_length_eq_zero (Nat.le_zero.mp hlength)⟩
  | succ n ih =>
    match schedule with
    | [] => exact Or.inl ⟨[], rfl⟩
    | [t] =>
      have hcount := hcount t
      rw [Register.stage_of_mem (hread t) hcount List.mem_cons_self] at hcount
      simp [Stage.steps] at hcount
    | t :: t' :: schedule =>
      have hcount' : ∀ t'', ((r.step List.cons t).stage t'').steps +
          (t' :: schedule).count t'' = 2 := Register.steps_step_add_count hcount
      have ht : (r.step List.cons t).stage t = .read r.value :=
        Register.stage_step_of_start
          (Register.stage_of_mem (hread t) (hcount t) List.mem_cons_self)
      by_cases heq : t' = t
      · -- the client writes what it has just read, and again no client is between its steps
        subst heq
        have hread' : ∀ t l, ((r.step List.cons t').step List.cons t').stage t ≠ .read l := by
          intro t l hl
          by_cases hne : t = t'
          · subst hne
            simp [Register.stage_step_of_read ht] at hl
          · rw [Register.stage_step_of_ne _ _ hne, Register.stage_step_of_ne _ _ hne] at hl
            exact hread t l hl
        have hlength' : schedule.length ≤ n := by
          simp only [List.length_cons] at hlength
          omega
        rcases ih hlength' ((hinv.step t').step t') hread'
          (Register.steps_step_add_count hcount') with ⟨order, horder⟩ | hlossy
        · exact Or.inl ⟨t' :: order, by rw [List.flatMap_cons, ← horder]; rfl⟩
        · exact Or.inr hlossy
      · -- two clients have read, and neither has written
        have ht' : (r.step List.cons t).stage t' = .start := by
          rw [Register.stage_step_of_ne _ r heq]
          exact Register.stage_of_mem (hread t') (hcount t')
            (List.mem_cons_of_mem t List.mem_cons_self)
        have hlossy : Lossy ((r.step List.cons t).step List.cons t') := by
          refine Or.inr (Or.inr ⟨t, t', r.value, (r.step List.cons t).value, Ne.symm heq, ?_,
            Register.stage_step_of_start ht'⟩)
          rw [Register.stage_step_of_ne _ _ (Ne.symm heq)]
          exact ht
        exact Or.inr (hlossy.run ((hinv.step t).step t') schedule)

/-- **Clients that overlap** lose an update: when each client has two steps, and all updates are
in the chain, each client reads and writes before the next one. -/
theorem exists_serial {schedule : List ι} (htwice : ∀ t, schedule.count t = 2)
    (hmem : ∀ t, t ∈ chain schedule) :
    ∃ order : List ι, schedule = order.flatMap fun t => [t, t] := by
  rcases exists_serial_or_lossy schedule.length le_rfl (ChainInv.init ι)
    (fun _ _ => nofun) (fun t => (Nat.zero_add _).trans (htwice t)) with hserial | hlossy
  · exact hserial
  · have hread : ∀ t l, (chains schedule).stage t ≠ .read l := by
      intro t l heq
      have hsteps := Register.steps_run List.cons (Register.init ι []) schedule t
      rw [htwice t] at hsteps
      simp [chains, Stage.eq_returned hsteps] at heq
    rcases hlossy with ⟨t, l, ht, -⟩ | ⟨⟨t, -, ht⟩, -⟩ | ⟨t, -, l, -, -, ht, -⟩
    · exact absurd ht (hread t l)
    · exact absurd (hmem t) ht
    · exact absurd ht (hread t l)

end Chain

end Foundation
