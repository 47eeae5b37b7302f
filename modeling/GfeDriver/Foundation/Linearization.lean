import Mathlib.Data.List.Nodup
import Mathlib.Data.List.Pairwise
import Mathlib.Data.List.Range
import Mathlib.Logic.Function.Basic
import Mathlib.Tactic

/-!
# Linearization of concurrent calls

Threads call the operations of an object at the same time, and each call takes many atomic steps. A
view maps the states of the implementation to those of an abstract object, whose operations are
instantaneous. The calls linearize when they can be put in one order that is a run of the abstract
object, and in which a call that returned before another one started comes first.

It is enough to find one step of each call, its point, at which the operation on the view gives what
the call returns. The step that changes the view has to be the point of its call, and the answer of
the call is settled there. A call that only reads may settle its answer later than its point.

## Main definitions

* `Legal spec a l b`: a sequential run of the abstract object
* `Linearization`: an order of the calls that take effect in a run
* `Effects`: the points of the calls

## Main results

* `Effects.linearizable`: calls with a point each linearize
-/

namespace Foundation

universe u v w x

variable {σ : Type u} {ι : Type v} {A : Type w} {ρ : Type x}

/-- **A sequential run** of the operations of an abstract object, each with its answer. -/
inductive Legal (spec : ι → A → ρ → A → Prop) (a : A) : List (ι × ρ) → A → Prop
  | nil : Legal spec a [] a
  | snoc {l : List (ι × ρ)} {b c : A} {i : ι} {r : ρ} (hl : Legal spec a l b)
      (hspec : spec i b r c) : Legal spec a (l ++ [(i, r)]) c

/-- **A linearization** of the first `n` steps of a run. -/
structure Linearization (spec : ι → A → ρ → A → Prop) (view : σ → A) (started : σ → ι → Prop)
    (result : σ → ι → Option ρ) (run : ℕ → σ) (n : ℕ) (l : List (ι × ρ)) : Prop where
  /-- It is a run of the abstract object. -/
  legal : Legal spec (view (run 0)) l (view (run n))
  nodup : (l.map Prod.fst).Nodup
  members : ∀ e ∈ l, started (run n) e.1
  /-- Each call that returned is in it, with its answer. -/
  returned : ∀ i r, result (run n) i = some r → (i, r) ∈ l
  /-- A call starts before each later one of the order returns. -/
  order : l.Pairwise fun e e' =>
    ∀ k ≤ n, ∀ r, result (run k) e'.1 = some r → started (run k) e.1

/-- **The points of the calls** in the first `n` steps of a run: `effect` is the answer of a call
once it is settled, and `actor` is the call that takes a step. -/
structure Effects (spec : ι → A → ρ → A → Prop) (view : σ → A) (started : σ → ι → Prop)
    (effect : σ → ι → Option ρ) (actor : ℕ → Option ι) (run : ℕ → σ) (n : ℕ) : Prop where
  initially : ∀ i, effect (run 0) i = none
  starts : ∀ k < n, ∀ i, started (run k) i → started (run (k + 1)) i
  settled : ∀ k < n, ∀ i r, effect (run k) i = some r → effect (run (k + 1)) i = some r
  /-- A step that changes the view settles the answer of its call. -/
  change : ∀ k < n, view (run (k + 1)) ≠ view (run k) →
    ∃ i r, effect (run k) i = none ∧ effect (run (k + 1)) i = some r
  /-- The point is the step that settles the answer, or an earlier one that only reads. -/
  point : ∀ k < n, ∀ i r, effect (run k) i = none → effect (run (k + 1)) i = some r →
    ∃ m ≤ k, actor m = some i ∧ started (run (m + 1)) i ∧
      spec i (view (run m)) r (view (run (m + 1))) ∧
      (m = k ∨ view (run (m + 1)) = view (run m) ∧ view (run (k + 1)) = view (run k))

namespace Effects

variable {spec : ι → A → ρ → A → Prop} {view : σ → A} {started : σ → ι → Prop}
  {effect : σ → ι → Option ρ} {actor : ℕ → Option ι} {run : ℕ → σ} {n : ℕ}

theorem started_of_le (h : Effects spec view started effect actor run n) {i : ι} {k m : ℕ}
    (hk : started (run k) i) (hkm : k ≤ m) (hm : m ≤ n) : started (run m) i := by
  induction m, hkm using Nat.le_induction with
  | base => exact hk
  | succ m _ ih => exact h.starts m hm i (ih (Nat.le_of_succ_le hm))

theorem effect_of_le (h : Effects spec view started effect actor run n) {i : ι} {r : ρ} {k m : ℕ}
    (hk : effect (run k) i = some r) (hkm : k ≤ m) (hm : m ≤ n) : effect (run m) i = some r := by
  induction m, hkm using Nat.le_induction with
  | base => exact hk
  | succ m _ ih => exact h.settled m hm i r (ih (Nat.le_of_succ_le hm))

/-- An answer is settled by one step. -/
theorem exists_settles (h : Effects spec view started effect actor run n) {i : ι} {r : ρ} {m : ℕ}
    (hm : m ≤ n) (hr : effect (run m) i = some r) :
    ∃ k < m, effect (run k) i = none ∧ effect (run (k + 1)) i = some r := by
  induction m with
  | zero => simp [h.initially i] at hr
  | succ m ih =>
    cases he : effect (run m) i with
    | none => exact ⟨m, Nat.lt_succ_self m, he, hr⟩
    | some r' =>
      obtain rfl := Option.some.inj ((h.settled m hm i r' he).symm.trans hr)
      obtain ⟨k, hk, hsettles⟩ := ih (Nat.le_of_succ_le hm) he
      exact ⟨k, hk.trans (Nat.lt_succ_self m), hsettles⟩

/-- That step is the only one. -/
theorem settles_unique (h : Effects spec view started effect actor run n) {i : ι} {r r' : ρ}
    {k m : ℕ} (hk : k < n) (hm : m < n) (hknone : effect (run k) i = none)
    (hkr : effect (run (k + 1)) i = some r) (hmnone : effect (run m) i = none)
    (hmr : effect (run (m + 1)) i = some r') : k = m := by
  rcases Nat.lt_trichotomy k m with hlt | heq | hlt
  · simp [h.effect_of_le hkr hlt hm.le] at hmnone
  · exact heq
  · simp [h.effect_of_le hmr hlt hk.le] at hknone

/-- Every answer has a point. -/
theorem exists_point (h : Effects spec view started effect actor run n) (i : ι) :
    ∃ m, ∀ r, effect (run n) i = some r → ∃ k < n, effect (run k) i = none ∧
      effect (run (k + 1)) i = some r ∧ m ≤ k ∧ actor m = some i ∧ started (run (m + 1)) i ∧
      spec i (view (run m)) r (view (run (m + 1))) ∧
      (m = k ∨ view (run (m + 1)) = view (run m) ∧ view (run (k + 1)) = view (run k)) := by
  cases he : effect (run n) i with
  | none => exact ⟨0, nofun⟩
  | some r =>
    obtain ⟨k, hk, hnone, hsome⟩ := h.exists_settles le_rfl he
    obtain ⟨m, hm, hpoint⟩ := h.point k hk i r hnone hsome
    refine ⟨m, fun r' hr' => ?_⟩
    obtain rfl := Option.some.inj hr'
    exact ⟨k, hk, hnone, hsome, hm, hpoint⟩

open Classical in
/-- The call whose point is the step `m`, if any, with its answer. -/
noncomputable def entry (effect : σ → ι → Option ρ) (run : ℕ → σ) (n : ℕ) (point : ι → ℕ)
    (actor : ℕ → Option ι) (m : ℕ) : Option (ι × ρ) :=
  (actor m).bind fun i => if point i = m then (effect (run n) i).map fun r => (i, r) else none

theorem entry_eq_some {point : ι → ℕ} {m : ℕ} {i : ι} {r : ρ} :
    entry effect run n point actor m = some (i, r) ↔
      actor m = some i ∧ point i = m ∧ effect (run n) i = some r := by
  unfold entry
  cases ha : actor m with
  | none => simp
  | some j =>
    simp only [Option.bind_some, Option.some.injEq]
    split_ifs with hp
    · simp only [Option.map_eq_some_iff, Prod.mk.injEq]
      constructor
      · rintro ⟨r', hr', rfl, rfl⟩
        exact ⟨rfl, hp, hr'⟩
      · rintro ⟨rfl, -, hr⟩
        exact ⟨r, hr, rfl, rfl⟩
    · simp only [false_iff]
      rintro ⟨rfl, hc, -⟩
      exact hp hc

/-- The members of a list that is filtered along a range. -/
theorem pairwise_filterMap_range {α : Type*} {R : α → α → Prop} {f : ℕ → Option α} {n : ℕ}
    (h : ∀ m < n, ∀ k < m, ∀ a b, f k = some a → f m = some b → R a b) :
    ((List.range n).filterMap f).Pairwise R := by
  rw [List.pairwise_filterMap]
  refine List.Pairwise.imp_of_mem (R := (· < ·)) (fun {k m} hk hm hlt a ha b hb => ?_)
    List.pairwise_lt_range
  exact h m (List.mem_range.mp hm) k hlt a b ha hb

/-- **Calls with a point each linearize**, in the order of their points. -/
theorem linearizable {result : σ → ι → Option ρ}
    (h : Effects spec view started effect actor run n)
    (hresult : ∀ k ≤ n, ∀ i r, result (run k) i = some r → effect (run k) i = some r) :
    ∃ l, Linearization spec view started result run n l := by
  obtain ⟨point, hpoint⟩ := Classical.skolem.mp h.exists_point
  have hmem : ∀ i r, (i, r) ∈ (List.range n).filterMap (entry effect run n point actor) ↔
      effect (run n) i = some r := fun i r => by
    rw [List.mem_filterMap]
    constructor
    · rintro ⟨m, -, hm⟩
      exact (entry_eq_some.mp hm).2.2
    · intro hr
      obtain ⟨k, hk, -, -, hm, hactor, -⟩ := hpoint i r hr
      exact ⟨point i, List.mem_range.mpr (hm.trans_lt hk), entry_eq_some.mpr ⟨hactor, rfl, hr⟩⟩
  refine ⟨(List.range n).filterMap (entry effect run n point actor), ?_, ?_, ?_, ?_, ?_⟩
  · -- the steps that are no point leave the view
    have hlegal : ∀ m ≤ n, Legal spec (view (run 0))
        ((List.range m).filterMap (entry effect run n point actor)) (view (run m)) := by
      intro m hm
      induction m with
      | zero => exact Legal.nil
      | succ m ih =>
        have hprev := ih (Nat.le_of_succ_le hm)
        rw [List.range_succ, List.filterMap_append]
        cases he : entry effect run n point actor m with
        | some e =>
          obtain ⟨i, r⟩ := e
          obtain ⟨-, hp, hr⟩ := entry_eq_some.mp he
          obtain ⟨k, -, -, -, -, -, -, hspec, -⟩ := hpoint i r hr
          rw [hp] at hspec
          simpa [he] using hprev.snoc hspec
        | none =>
          have hsame : view (run (m + 1)) = view (run m) := by
            by_contra hne
            obtain ⟨i, r, hnone, hsome⟩ := h.change m hm hne
            have hr := h.effect_of_le hsome hm le_rfl
            obtain ⟨k, hk, hknone, hksome, -, hactor, -, -, hkeep⟩ := hpoint i r hr
            obtain rfl := h.settles_unique hk hm hknone hksome hnone hsome
            rcases hkeep with hp | ⟨-, hkeep⟩
            · rw [entry_eq_some.mpr ⟨hp ▸ hactor, hp, hr⟩] at he
              cases he
            · exact hne hkeep
          rw [hsame]
          simpa [he] using hprev
    exact hlegal n le_rfl
  · -- the points of two calls are steps of two threads
    rw [List.nodup_iff_pairwise_ne, List.pairwise_map]
    refine pairwise_filterMap_range fun m _ k hkm a b ha hb hab => ?_
    obtain ⟨i, r⟩ := a
    obtain ⟨j, r'⟩ := b
    obtain rfl : i = j := hab
    obtain ⟨-, hk, -⟩ := entry_eq_some.mp ha
    obtain ⟨-, hm, -⟩ := entry_eq_some.mp hb
    exact hkm.ne (hk.symm.trans hm)
  · rintro ⟨i, r⟩ he
    obtain ⟨k, hk, -, -, hm, -, hstarted, -⟩ := hpoint i r ((hmem i r).mp he)
    exact h.started_of_le hstarted (by omega) le_rfl
  · exact fun i r hr => (hmem i r).mpr (hresult n le_rfl i r hr)
  · refine pairwise_filterMap_range fun m _ k hkm a b ha hb t ht r hr => ?_
    obtain ⟨i, ri⟩ := a
    obtain ⟨j, rj⟩ := b
    obtain ⟨-, hpi, hri⟩ := entry_eq_some.mp ha
    obtain ⟨-, hpj, hrj⟩ := entry_eq_some.mp hb
    -- the answer of the later call is settled after its point, and so after the earlier one
    obtain ⟨-, -, -, -, -, -, hstarted, -⟩ := hpoint i ri hri
    obtain ⟨s, hs, hnone, hsome, hms, -⟩ := hpoint j rj hrj
    have hst : s < t := by
      by_contra hle
      rw [h.effect_of_le (hresult t ht j r hr) (Nat.not_lt.mp hle) hs.le] at hnone
      cases hnone
    exact h.started_of_le hstarted (by omega) ht

end Effects

end Foundation
