import Mathlib.Tactic

/-!
# Sequences of calls

A component answers calls one after the other: a call takes a state to an answer and the next state,
or it never returns. A property of calls holds along a sequence when it holds of every call of it
that is reached. The identifiers that calls draw are those of a sequence, one after the other.

## Main definitions

* `Along step P s calls`: the property `P` holds of every call of the sequence
* `EachCall Returns P s calls`: it holds of the state before every call, also of one that does not
  return
* `retry attempt`: repeat an attempt that answers false
* `ReturnsAll read R s xs`, `answerAt next k s`: calls that read items one after the other
* `Answers read s xs`: what a reader returns, with the errors it raises
* `Drawn ids n id`: an identifier is one of the first `n` that are drawn

## Main results

* `along_of_invariant`: a property that follows from an invariant
* `along_congr`: two properties that agree under an invariant, which one of them keeps
* `eachCall_congr`: the same for properties of the states before the calls
* `retry_eq_none`: an attempt that fails and changes nothing is repeated for ever
* `returnsAll_cons`, `returnsAll_of_none`: one call of a reader
* `ReturnsAll.unique`, `Answers.unique`: the items are those of one list
* `answerAt_eq`: the answers of a reader, for ever
-/

namespace Foundation

universe u v w

variable {σ : Type u} {κ : Type v} {ρ : Type w} {step : σ → κ → Option (ρ × σ)}

/-- The property `P` of the state before a call, the call, its answer and the state after it holds
of every call of the sequence. -/
def Along (step : σ → κ → Option (ρ × σ)) (P : σ → κ → ρ → σ → Prop) : σ → List κ → Prop
  | _, [] => True
  | s, c :: calls => ∀ r s', step s c = some (r, s') → P s c r s' ∧ Along step P s' calls

/-- A call that returns. -/
theorem along_cons {P : σ → κ → ρ → σ → Prop} {s s' : σ} {c : κ} {r : ρ} {calls : List κ}
    (h : step s c = some (r, s')) :
    Along step P s (c :: calls) ↔ P s c r s' ∧ Along step P s' calls := by
  constructor
  · exact fun hall => hall r s' h
  · intro hall r₁ s₁ h₁
    obtain ⟨rfl, rfl⟩ := Prod.mk.inj (Option.some.inj (h.symm.trans h₁))
    exact hall

/-- **The invariant rule**, for calls that meet the condition `G`. -/
theorem along_of_invariant {I : σ → Prop} {G : κ → Prop} {P : σ → κ → ρ → σ → Prop}
    (hstep : ∀ s c r s', I s → G c → step s c = some (r, s') → P s c r s' ∧ I s') {s : σ}
    (hs : I s) {calls : List κ} (hcalls : ∀ c ∈ calls, G c) : Along step P s calls := by
  induction calls generalizing s with
  | nil => trivial
  | cons c calls ih =>
    intro r s' hc
    obtain ⟨hP, hs'⟩ := hstep s c r s' hs (hcalls c List.mem_cons_self) hc
    exact ⟨hP, ih hs' fun c hc => hcalls c (List.mem_cons_of_mem _ hc)⟩

/-- **Two properties agree along a sequence** when they agree under an invariant that the first one
keeps. -/
theorem along_congr {I : σ → Prop} {P Q : σ → κ → ρ → σ → Prop}
    (hstep : ∀ s c r s', I s → step s c = some (r, s') →
      (P s c r s' ↔ Q s c r s') ∧ (P s c r s' → I s')) {s : σ} (hs : I s) (calls : List κ) :
    Along step P s calls ↔ Along step Q s calls := by
  induction calls generalizing s with
  | nil => exact Iff.rfl
  | cons c calls ih =>
    refine forall_congr' fun r => forall_congr' fun s' => imp_congr_right fun hc => ?_
    obtain ⟨hiff, hkeep⟩ := hstep s c r s' hs hc
    constructor
    · rintro ⟨hP, hrest⟩
      exact ⟨hiff.mp hP, (ih (hkeep hP)).mp hrest⟩
    · rintro ⟨hQ, hrest⟩
      have hP := hiff.mpr hQ
      exact ⟨hP, (ih (hkeep hP)).mpr hrest⟩

/-- The property `P` of the state before a call holds of every call of the sequence that is reached:
those before it have returned. -/
def EachCall (Returns : σ → κ → ρ → σ → Prop) (P : σ → κ → Prop) : σ → List κ → Prop
  | _, [] => True
  | s, c :: calls => P s c ∧ ∀ r s', Returns s c r s' → EachCall Returns P s' calls

/-- **Two properties agree before each call** when they agree under an invariant of the calls that
meet the condition `G`. -/
theorem eachCall_congr {Returns : σ → κ → ρ → σ → Prop} {P Q : σ → κ → Prop} {I : σ → Prop}
    {G : κ → Prop} (hiff : ∀ s c, I s → G c → (P s c ↔ Q s c))
    (hstep : ∀ s c r s', I s → G c → Returns s c r s' → I s') {s : σ} (hs : I s) {calls : List κ}
    (hcalls : ∀ c ∈ calls, G c) : EachCall Returns P s calls ↔ EachCall Returns Q s calls := by
  induction calls generalizing s with
  | nil => exact Iff.rfl
  | cons c calls ih =>
    have hc := hcalls c List.mem_cons_self
    refine and_congr (hiff s c hs hc) (forall_congr' fun r => forall_congr' fun s' => ?_)
    refine imp_congr_right fun hreturns => ?_
    exact ih (hstep s c r s' hs hc hreturns) fun c hc => hcalls c (List.mem_cons_of_mem _ hc)

/-! ## Retries -/

section Retry

variable {ε : Type w}

/-- `while (!attempt()) { }`, given up when the fuel is spent. An attempt may raise an error. -/
def retry (attempt : σ → Except ε Bool × σ) : ℕ → σ → Option (Except ε Bool × σ)
  | 0, _ => none
  | fuel + 1, s =>
    match attempt s with
    | (.ok false, s') => retry attempt fuel s'
    | (.ok true, s') => some (.ok true, s')
    | (.error e, s') => some (.error e, s')

variable {attempt : σ → Except ε Bool × σ} {s s' : σ}

/-- **An attempt that fails and changes nothing** is repeated for ever. -/
theorem retry_eq_none (h : attempt s = (.ok false, s)) (fuel : ℕ) :
    retry attempt fuel s = none := by
  induction fuel with
  | zero => rfl
  | succ fuel ih =>
    rw [retry, h]
    exact ih

theorem retry_of_ok (h : attempt s = (.ok true, s')) (fuel : ℕ) :
    retry attempt (fuel + 1) s = some (.ok true, s') := by
  rw [retry, h]

/-- What a loop of retries keeps. -/
theorem retry_invariant {I : σ → Prop} (hattempt : ∀ s, I s → I (attempt s).2) {fuel : ℕ}
    {r : Except ε Bool} (hs : I s) (h : retry attempt fuel s = some (r, s')) : I s' := by
  induction fuel generalizing s with
  | zero => cases h
  | succ fuel ih =>
    have hnext := hattempt s hs
    rw [retry] at h
    rcases heq : attempt s with ⟨r₁, s₁⟩
    rw [heq] at h hnext
    rcases r₁ with e | _ | _
    · obtain rfl := (Prod.mk.inj (Option.some.inj h)).2
      exact hnext
    · exact ih hnext h
    · obtain rfl := (Prod.mk.inj (Option.some.inj h)).2
      exact hnext

end Retry

/-! ## Readers -/

section Readers

variable {α β ε : Type u}

/-- **A reader returns items**, one for each of a list, and then none. -/
def ReturnsAll (read : σ → Option (Except ε (Option α) × σ)) (R : α → β → Prop) :
    σ → List β → Prop
  | s, [] => ∃ s', read s = some (.ok none, s')
  | s, x :: xs => ∃ a s', read s = some (.ok (some a), s') ∧ R a x ∧ ReturnsAll read R s' xs

/-- A reader that does the same from two states. -/
theorem returnsAll_congr {read : σ → Option (Except ε (Option α) × σ)} {R : α → β → Prop}
    {s s' : σ} {xs : List β} (h : read s = read s') :
    ReturnsAll read R s xs ↔ ReturnsAll read R s' xs := by
  cases xs with
  | nil => rw [ReturnsAll, ReturnsAll, h]
  | cons x xs => rw [ReturnsAll, ReturnsAll, h]

/-- A reader that returns an item. -/
theorem returnsAll_cons {read : σ → Option (Except ε (Option α) × σ)} {R : α → β → Prop}
    {s s' : σ} {a : α} {x : β} {xs : List β} (h : read s = some (.ok (some a), s')) (hR : R a x) :
    ReturnsAll read R s (x :: xs) ↔ ReturnsAll read R s' xs := by
  constructor
  · rintro ⟨a', s₁, h', -, hrest⟩
    obtain ⟨-, rfl⟩ := Prod.mk.inj (Option.some.inj (h.symm.trans h'))
    exact hrest
  · exact fun hrest => ⟨a, s', h, hR, hrest⟩

/-- A reader that returns no item. -/
theorem returnsAll_of_none {read : σ → Option (Except ε (Option α) × σ)} {R : α → β → Prop}
    {s s' : σ} {xs : List β} (h : read s = some (.ok none, s')) :
    ReturnsAll read R s xs ↔ xs = [] := by
  cases xs with
  | nil => exact iff_of_true ⟨s', h⟩ rfl
  | cons x xs =>
    refine iff_of_false ?_ (List.cons_ne_nil x xs)
    rintro ⟨a, s₁, h', -⟩
    rw [h] at h'
    cases h'

/-- A reader that raises an error. -/
theorem not_returnsAll_of_error {read : σ → Option (Except ε (Option α) × σ)} {R : α → β → Prop}
    {s s' : σ} {e : ε} (h : read s = some (.error e, s')) (xs : List β) :
    ¬ReturnsAll read R s xs := by
  cases xs with
  | nil =>
    rintro ⟨s₁, h'⟩
    rw [h] at h'
    cases h'
  | cons x xs =>
    rintro ⟨a, s₁, h', -⟩
    rw [h] at h'
    cases h'

/-- A reader returns the items of one list only. -/
theorem ReturnsAll.unique {read : σ → Option (Except ε (Option α) × σ)} {s : σ} {xs ys : List α}
    (hxs : ReturnsAll read Eq s xs) (hys : ReturnsAll read Eq s ys) : xs = ys := by
  induction xs generalizing s ys with
  | nil =>
    obtain ⟨s', h⟩ := hxs
    exact ((returnsAll_of_none h).mp hys).symm
  | cons x xs ih =>
    obtain ⟨a, s', h, rfl, hrest⟩ := hxs
    cases ys with
    | nil =>
      obtain ⟨s₁, h₁⟩ := hys
      rw [h] at h₁
      cases h₁
    | cons y ys =>
      obtain ⟨b, s₁, h₁, rfl, hrest₁⟩ := hys
      rw [h] at h₁
      obtain ⟨ha, rfl⟩ := Prod.mk.inj (Option.some.inj h₁)
      obtain rfl : a = b := Option.some.inj (Except.ok.inj ha)
      rw [ih hrest hrest₁]

/-- **What a reader returns** up to the first call without an item. A call that raises an error may
be followed by others. -/
inductive Answers (read : σ → Option (Except ε (Option α) × σ)) : σ → List (Except ε α) → Prop
  | last {s s' : σ} (h : read s = some (.ok none, s')) : Answers read s []
  | item {s s' : σ} {a : α} {xs : List (Except ε α)} (h : read s = some (.ok (some a), s'))
      (rest : Answers read s' xs) : Answers read s (.ok a :: xs)
  | error {s s' : σ} {e : ε} {xs : List (Except ε α)} (h : read s = some (.error e, s'))
      (rest : Answers read s' xs) : Answers read s (.error e :: xs)

/-- A reader returns one sequence only. -/
theorem Answers.unique {read : σ → Option (Except ε (Option α) × σ)} {s : σ}
    {xs ys : List (Except ε α)} (hxs : Answers read s xs) (hys : Answers read s ys) : xs = ys := by
  induction hxs generalizing ys with
  | last h =>
    cases hys with
    | last h' => rfl
    | item h' rest => cases h.symm.trans h'
    | error h' rest => cases h.symm.trans h'
  | item h rest ih =>
    cases hys with
    | last h' => cases h.symm.trans h'
    | item h' rest' =>
      cases h.symm.trans h'
      rw [ih rest']
    | error h' rest' => cases h.symm.trans h'
  | error h rest ih =>
    cases hys with
    | last h' => cases h.symm.trans h'
    | item h' rest' => cases h.symm.trans h'
    | error h' rest' =>
      cases h.symm.trans h'
      rw [ih rest']

/-- The answer to a call that comes after `k` others. -/
def answerAt (next : σ → Option (ρ × σ)) : ℕ → σ → Option ρ
  | 0, s => (next s).map Prod.fst
  | k + 1, s => (next s).bind fun r => answerAt next k r.2

/-- **A reader returns the items of a list**, and none behind them, if its states stand in a
relation to what is left of the list. -/
theorem answerAt_eq {read : σ → Option (Except ε (Option α) × σ)} {R : σ → List α → Prop}
    (hcons : ∀ s x xs, R s (x :: xs) → ∃ s', read s = some (.ok (some x), s') ∧ R s' xs)
    (hnil : ∀ s, R s [] → ∃ s', read s = some (.ok none, s') ∧ R s' [])
    {s : σ} {xs : List α} (h : R s xs) (k : ℕ) :
    answerAt read k s = some (.ok xs[k]?) := by
  induction k generalizing s xs with
  | zero =>
    cases xs with
    | nil =>
      obtain ⟨s', hread, -⟩ := hnil s h
      rw [answerAt, hread]
      rfl
    | cons x xs =>
      obtain ⟨s', hread, -⟩ := hcons s x xs h
      rw [answerAt, hread]
      rfl
  | succ k ih =>
    cases xs with
    | nil =>
      obtain ⟨s', hread, hs'⟩ := hnil s h
      rw [answerAt, hread]
      exact ih hs'
    | cons x xs =>
      obtain ⟨s', hread, hs'⟩ := hcons s x xs h
      rw [answerAt, hread]
      exact ih hs'

end Readers

/-! ## Identifiers -/

section Drawn

variable {ids : ℕ → ℕ} {id n n' : ℕ}

/-- An identifier drawn before `n` others. -/
def Drawn (ids : ℕ → ℕ) (n id : ℕ) : Prop := ∃ k < n, ids k = id

theorem Drawn.mono (h : Drawn ids n id) (hle : n ≤ n') : Drawn ids n' id := by
  obtain ⟨k, hk, rfl⟩ := h
  exact ⟨k, hk.trans_le hle, rfl⟩

/-- An identifier drawn later is not one of those drawn before. -/
theorem not_drawn (hids : Function.Injective ids) (h : ∃ k, n ≤ k ∧ k < n' ∧ ids k = id) :
    ¬Drawn ids n id := by
  obtain ⟨k, hk, -, rfl⟩ := h
  rintro ⟨k', hk', heq⟩
  have := hids heq
  omega

end Drawn

end Foundation
