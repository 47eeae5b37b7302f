import Mathlib.Algebra.BigOperators.Group.Finset.Basic
import Mathlib.Algebra.Order.BigOperators.Group.Finset
import Mathlib.Logic.Relation
import Mathlib.Order.WellFounded

/-!
# Runs of a transition system

A concurrent program is a relation between the states before and after one atomic step of one of its
threads. A statement about every reachable state, or about every run, is a statement about every
interleaving of the threads.

## Main definitions

* `EndsIn Step Q s`: every run from `s` ends, in a state with the property `Q`

## Main results

* `reachable_invariant`: an invariant that every step keeps holds in every reachable state
* `exists_run`: a run as a sequence of states
* `runs_finite`, `runs_finite_of_invariant`: no run is infinite when every step lowers a measure
* `exists_final`: a run can be continued up to a state without steps
* `endsIn_of_invariant`: an invariant and a measure give the end of every run
* `EndsIn.embed`: a part of a program whose runs end, and what comes after it
* `sum_update_lt`, `sum_update_eq`: a sum over the threads after a move of one of them
-/

namespace Foundation

universe u v

variable {σ : Type u} {Step : σ → σ → Prop}

/-- The invariant rule, for steps that keep the invariant from a reachable state. -/
theorem reachable_invariant_of_reachable {I : σ → Prop} {init s : σ} (hinit : I init)
    (hstep : ∀ s s', Relation.ReflTransGen Step init s → I s → Step s s' → I s')
    (h : Relation.ReflTransGen Step init s) : I s := by
  induction h with
  | refl => exact hinit
  | tail hreach hs ih => exact hstep _ _ hreach ih hs

/-- **The invariant rule.** -/
theorem reachable_invariant {I : σ → Prop} {init s : σ} (hinit : I init)
    (hstep : ∀ s s', I s → Step s s' → I s') (h : Relation.ReflTransGen Step init s) : I s :=
  reachable_invariant_of_reachable hinit (fun s s' _ => hstep s s') h

/-- **Every run from `s` ends**, in a state without steps that has the property `Q`. -/
inductive EndsIn (Step : σ → σ → Prop) (Q : σ → Prop) : σ → Prop
  | intro {s : σ} (final : (∀ s', ¬Step s s') → Q s) (step : ∀ s', Step s s' → EndsIn Step Q s') :
    EndsIn Step Q s

/-- A weaker property at the end. -/
theorem EndsIn.imp {P Q : σ → Prop} (hPQ : ∀ s, P s → Q s) {s : σ} (h : EndsIn Step P s) :
    EndsIn Step Q s := by
  induction h with
  | intro final _ ih => exact .intro (fun hno => hPQ _ (final hno)) ih

/-- **A part of a program** whose own runs end: the program ends if it does after each end of the
part. -/
theorem EndsIn.embed {ρ : Type v} {Step' : ρ → ρ → Prop} {P : σ → Prop} {Q : ρ → Prop} (f : σ → ρ)
    (hlive : ∀ s, ∃ y, Step' (f s) y)
    (hstep : ∀ s y, Step' (f s) y → (∃ s', Step s s' ∧ y = f s') ∨
      (∀ s', ¬Step s s') ∧ (P s → EndsIn Step' Q y)) {s : σ} (h : EndsIn Step P s) :
    EndsIn Step' Q (f s) := by
  induction h with
  | @intro s final _ ih =>
    refine .intro (fun hno => ?_) fun y hy => ?_
    · obtain ⟨y, hy⟩ := hlive s
      exact absurd hy (hno y)
    · rcases hstep s y hy with ⟨s', hs', rfl⟩ | ⟨hno, hnext⟩
      · exact ih s' hs'
      · exact hnext (final hno)

/-- Two properties of the end of every run hold together of some state. -/
theorem EndsIn.exists_and {P Q : σ → Prop} {s : σ} (h : EndsIn Step P s) (h' : EndsIn Step Q s) :
    ∃ s', P s' ∧ Q s' := by
  induction h with
  | @intro s final step ih =>
    obtain ⟨final', step'⟩ := h'
    by_cases hno : ∀ s', ¬Step s s'
    · exact ⟨s, final hno, final' hno⟩
    · push Not at hno
      obtain ⟨s', hs'⟩ := hno
      exact ih s' hs' (step' s' hs')

/-- A run as a sequence of states. -/
theorem exists_run {s s' : σ} (h : Relation.ReflTransGen Step s s') :
    ∃ (run : ℕ → σ) (n : ℕ), run 0 = s ∧ run n = s' ∧ ∀ k < n, Step (run k) (run (k + 1)) := by
  induction h using Relation.ReflTransGen.head_induction_on with
  | refl => exact ⟨fun _ => s', 0, rfl, rfl, fun k hk => absurd hk (Nat.not_lt_zero k)⟩
  | @head s t hst _ ih =>
    obtain ⟨run, n, hzero, hn, hstep⟩ := ih
    refine ⟨fun k => k.casesOn s run, n + 1, rfl, hn, fun k hk => ?_⟩
    cases k with
    | zero =>
      rw [← hzero] at hst
      exact hst
    | succ k => exact hstep k (Nat.lt_of_succ_lt_succ hk)

section Measure

variable {μ : Type v} [LT μ] [WellFoundedLT μ]

/-- **Every run ends** when every step keeps an invariant and lowers a measure. -/
theorem runs_finite_of_invariant {I : σ → Prop} (measure : σ → μ)
    (hstep : ∀ s s', I s → Step s s' → I s' ∧ measure s' < measure s) (run : ℕ → σ)
    (hinit : I (run 0)) : ∃ k, ¬Step (run k) (run (k + 1)) := by
  by_contra hall
  push Not at hall
  have hinv : ∀ k, I (run k) := fun k => by
    induction k with
    | zero => exact hinit
    | succ k ih => exact (hstep _ _ ih (hall k)).1
  obtain ⟨k, hk⟩ := WellFounded.not_rel_apply_succ (r := (· < ·)) fun k => measure (run k)
  exact hk (hstep _ _ (hinv k) (hall k)).2

/-- Every run ends when every step lowers a measure. -/
theorem runs_finite (measure : σ → μ) (hlt : ∀ s s', Step s s' → measure s' < measure s)
    (run : ℕ → σ) : ∃ k, ¬Step (run k) (run (k + 1)) :=
  runs_finite_of_invariant (I := fun _ => True) measure
    (fun s s' _ hs => ⟨trivial, hlt s s' hs⟩) run trivial

/-- A run can be continued up to a state without steps. -/
theorem exists_final (measure : σ → μ) (hlt : ∀ s s', Step s s' → measure s' < measure s) (s : σ) :
    ∃ s', Relation.ReflTransGen Step s s' ∧ ∀ s'', ¬Step s' s'' := by
  induction hm : measure s using WellFoundedLT.induction generalizing s with
  | ind m ih =>
    subst hm
    by_cases hstep : ∃ s', Step s s'
    · obtain ⟨s₁, hs₁⟩ := hstep
      obtain ⟨s', hreach, hfinal⟩ := ih _ (hlt _ _ hs₁) s₁ rfl
      exact ⟨s', Relation.ReflTransGen.head hs₁ hreach, hfinal⟩
    · exact ⟨s, Relation.ReflTransGen.refl, fun s'' hs => hstep ⟨s'', hs⟩⟩

/-- **Every run ends in a state with the property `Q`** when every step keeps an invariant and
lowers a measure, and the states without steps that meet the invariant have the property. -/
theorem endsIn_of_invariant {I Q : σ → Prop} (measure : σ → μ)
    (hstep : ∀ s s', I s → Step s s' → I s' ∧ measure s' < measure s)
    (hfinal : ∀ s, I s → (∀ s', ¬Step s s') → Q s) {s : σ} (hs : I s) : EndsIn Step Q s := by
  induction hm : measure s using WellFoundedLT.induction generalizing s with
  | ind m ih =>
    subst hm
    refine .intro (hfinal s hs) fun s' hs' => ?_
    obtain ⟨hinv, hlt⟩ := hstep s s' hs hs'
    exact ih _ hlt hinv rfl

end Measure

/-! ## Measures of threads -/

section Threads

variable {ι : Type u} {α : Type v} [Fintype ι] [DecidableEq ι] {f : α → ℕ} {c : ι → α} {i : ι}
  {a : α}

/-- A move of one thread that lowers its own measure lowers the sum. -/
theorem sum_update_lt (h : f a < f (c i)) : ∑ j, f (Function.update c i a j) < ∑ j, f (c j) := by
  refine Finset.sum_lt_sum (fun j _ => ?_) ⟨i, Finset.mem_univ i, by rwa [Function.update_self]⟩
  by_cases hij : j = i
  · subst hij
    rw [Function.update_self]
    exact h.le
  · rw [Function.update_of_ne hij]

/-- A move of one thread that keeps its own measure keeps the sum. -/
theorem sum_update_eq (h : f a = f (c i)) : ∑ j, f (Function.update c i a j) = ∑ j, f (c j) := by
  refine Finset.sum_congr rfl fun j _ => ?_
  by_cases hij : j = i
  · subst hij
    rw [Function.update_self, h]
  · rw [Function.update_of_ne hij]

end Threads

end Foundation
