import GfeDriver.Foundation.Components
import GfeDriver.Foundation.Runs
import GfeDriver.Foundation.Schedule
import Mathlib.Algebra.BigOperators.Group.Finset.Basic
import Mathlib.Data.List.Nodup
import Mathlib.Data.Prod.Lex

/-!
# Concurrent hooking and pointer jumping

The parallel algorithm for connected components of Shiloach and Vishkin keeps a forest in a table
`comp` that all workers read and write without any synchronisation. In a hooking loop a worker reads
the components of the two ends of an edge, tests whether the larger one is a root, and if so hooks
it under the smaller one; in a jumping loop it moves a vertex up to the parent of its parent, as
long as the two differ. Each load and each store is a step of its own, so that a worker may act on
values that other workers have overwritten since, and two workers may hook the same root, one over
the other.

The forest survives: what a worker has read of a component stays in the component, and a vertex that
is no longer a root never becomes one again. A hooking loop that raises no flag has written nothing.

## Main definitions

* `Forest R comp`: parents are in the component of their children, and never above them
* `HookWorker`, `HookState`, `HookStep`: the hooking loop
* `JumpWorker`, `JumpState`, `JumpStep`: the jumping loop
* `Hooked`, `Jumped`: the table after a loop

## Main results

* `HookStep.inv`, `JumpStep.inv`: each step keeps the invariant
* `endsIn_hooked`, `endsIn_jumped`: every run of a loop ends, with the table that it promises
-/

namespace Foundation

namespace Hooking

variable {τ : Type} {R : ℕ → ℕ → Prop}

/-- **The table is a forest** inside the components: parents are never above their children. -/
structure Forest (R : ℕ → ℕ → Prop) (comp : ℕ → ℕ) : Prop where
  le : ∀ n, comp n ≤ n
  connected : ∀ n, Connected R (comp n) n

/-- A store of a smaller vertex of the same component. -/
theorem Forest.update {comp : ℕ → ℕ} (h : Forest R comp) {n c : ℕ} (hle : c ≤ n)
    (hc : Connected R c n) : Forest R (Function.update comp n c) where
  le m := by
    by_cases hm : m = n
    · rwa [hm, Function.update_self]
    · rw [Function.update_of_ne hm]
      exact h.le m
  connected m := by
    by_cases hm : m = n
    · rwa [hm, Function.update_self]
    · rw [Function.update_of_ne hm]
      exact h.connected m

/-! ## The hooking loop -/

/-- Where a worker is: at its next edge; with the first component of an edge; with both, before it
tests the larger one; before it raises the flag; before its store. -/
inductive HookStage
  | edge
  | first (u v a : ℕ)
  | test (u v high low : ℕ)
  | raise (high low : ℕ)
  | store (high low : ℕ)
  deriving DecidableEq

/-- A worker with the edges that are left. -/
structure HookWorker where
  stage : HookStage
  edges : List (ℕ × ℕ)

/-- The table, the flag, and the workers. -/
structure HookState (τ : Type) where
  comp : ℕ → ℕ
  change : Bool
  workers : τ → HookWorker

/-- The workers share the edges out, and the flag is down. -/
def HookState.start (comp : ℕ → ℕ) (shares : τ → List (ℕ × ℕ)) : HookState τ :=
  ⟨comp, false, fun w => ⟨.edge, shares w⟩⟩

/-- A worker moves. -/
def HookState.move [DecidableEq τ] (s : HookState τ) (w : τ) (x : HookWorker) : HookState τ :=
  { s with workers := Function.update s.workers w x }

@[simp] theorem HookState.move_workers [DecidableEq τ] (s : HookState τ) (w : τ) (x : HookWorker) :
    (s.move w x).workers = Function.update s.workers w x := rfl

/-- **An atomic step** of the hooking loop: a load, the flag or a store. -/
inductive HookStep [DecidableEq τ] : HookState τ → HookState τ → Prop
  | first {s w u v es} : s.workers w = ⟨.edge, (u, v) :: es⟩ →
      HookStep s (s.move w ⟨.first u v (s.comp u), es⟩)
  | same {s w u v a es} : s.workers w = ⟨.first u v a, es⟩ → a = s.comp v →
      HookStep s (s.move w ⟨.edge, es⟩)
  | second {s w u v a es} : s.workers w = ⟨.first u v a, es⟩ → a ≠ s.comp v →
      HookStep s (s.move w ⟨.test u v (max a (s.comp v)) (min a (s.comp v)), es⟩)
  | root {s w u v high low es} : s.workers w = ⟨.test u v high low, es⟩ → s.comp high = high →
      HookStep s (s.move w ⟨.raise high low, es⟩)
  | inner {s w u v high low es} : s.workers w = ⟨.test u v high low, es⟩ → s.comp high ≠ high →
      HookStep s (s.move w ⟨.edge, es⟩)
  | raise {s w high low es} : s.workers w = ⟨.raise high low, es⟩ →
      HookStep s { s.move w ⟨.store high low, es⟩ with change := true }
  | store {s w high low es} : s.workers w = ⟨.store high low, es⟩ →
      HookStep s { s.move w ⟨.edge, es⟩ with comp := Function.update s.comp high low }

/-- The edge joins no two roots. -/
def Settled (comp : ℕ → ℕ) (e : ℕ × ℕ) : Prop :=
  comp e.1 = comp e.2 ∨ comp (max (comp e.1) (comp e.2)) ≠ max (comp e.1) (comp e.2)

/-- **The table after a hooking loop** over the edges `E` that began with `comp₀`. -/
structure Hooked (R : ℕ → ℕ → Prop) (N : ℕ) (E : ℕ × ℕ → Prop) (comp₀ comp : ℕ → ℕ)
    (change : Bool) : Prop where
  forest : Forest R comp
  roots : ∀ n, comp n = n → comp₀ n = n
  quiet : change = false → comp = comp₀ ∧ ∀ e, E e → Settled comp₀ e
  changed : change = true → ∃ r < N, comp₀ r = r ∧ comp r ≠ r

/-- The edge that a worker has begun and not decided. -/
def HookStage.current : HookStage → Option (ℕ × ℕ)
  | .first u v _ => some (u, v)
  | .test u v _ _ => some (u, v)
  | _ => none

/-- What a worker has read: the values stay in the component of its edge, and as long as the flag is
down they are those of the table. -/
def HookStage.Ok (R : ℕ → ℕ → Prop) (N : ℕ) (comp₀ : ℕ → ℕ) (change : Bool) : HookStage → Prop
  | .edge => True
  | .first u v a => Connected R a v ∧ a < N ∧ v < N ∧ (change = false → a = comp₀ u)
  | .test u v high low => low < high ∧ Connected R low high ∧ high < N ∧
      (change = false → high = max (comp₀ u) (comp₀ v))
  | .raise high low => low < high ∧ Connected R low high ∧ high < N ∧ comp₀ high = high
  | .store high low => low < high ∧ Connected R low high ∧ high < N ∧ comp₀ high = high ∧
      change = true

/-- A worker, with its share of the edges. -/
structure HookOk (R : ℕ → ℕ → Prop) (N : ℕ) (comp₀ : ℕ → ℕ) (change : Bool)
    (share : List (ℕ × ℕ)) (x : HookWorker) : Prop where
  stage : x.stage.Ok R N comp₀ change
  left : ∀ e ∈ x.edges, R e.1 e.2 ∧ e.1 < N ∧ e.2 < N
  decided : change = false → (∀ high low, x.stage ≠ .raise high low) → ∀ e ∈ share,
    e ∈ x.edges ∨ x.stage.current = some e ∨ Settled comp₀ e

/-- **The invariant** of the hooking loop. -/
structure HookInv (R : ℕ → ℕ → Prop) (N : ℕ) (comp₀ : ℕ → ℕ) (shares : τ → List (ℕ × ℕ))
    (s : HookState τ) : Prop where
  forest : Forest R s.comp
  roots : ∀ n, s.comp n = n → comp₀ n = n
  quiet : s.change = false → s.comp = comp₀
  changed : s.change = true → (∃ r < N, comp₀ r = r ∧ s.comp r ≠ r) ∨
    ∃ w high low, (s.workers w).stage = .store high low
  workers : ∀ w, HookOk R N comp₀ s.change (shares w) (s.workers w)

section Hook

variable [DecidableEq τ] {N : ℕ} {comp₀ : ℕ → ℕ} {shares : τ → List (ℕ × ℕ)} {s s' : HookState τ}
  {w : τ} {x : HookWorker} {change : Bool} {share : List (ℕ × ℕ)}

omit [DecidableEq τ] in
theorem HookInv.start (hforest : Forest R comp₀)
    (hshares : ∀ w, ∀ e ∈ shares w, R e.1 e.2 ∧ e.1 < N ∧ e.2 < N) :
    HookInv R N comp₀ shares (.start comp₀ shares) where
  forest := hforest
  roots _ hn := hn
  quiet _ := rfl
  changed h := absurd h Bool.false_ne_true
  workers w := ⟨trivial, hshares w, fun _ _ _ he => .inl he⟩

/-- The flag goes up. -/
theorem HookOk.raise (h : HookOk R N comp₀ change share x) : HookOk R N comp₀ true share x := by
  refine ⟨?_, h.left, fun hdown => absurd hdown nofun⟩
  have hstage := h.stage
  cases hx : x.stage with
  | edge => trivial
  | first u v a =>
    rw [hx] at hstage
    exact ⟨hstage.1, hstage.2.1, hstage.2.2.1, nofun⟩
  | test u v high low =>
    rw [hx] at hstage
    exact ⟨hstage.1, hstage.2.1, hstage.2.2.1, nofun⟩
  | raise high low =>
    rw [hx] at hstage
    exact hstage
  | store high low =>
    rw [hx] at hstage
    exact ⟨hstage.1, hstage.2.1, hstage.2.2.1, hstage.2.2.2.1, rfl⟩

/-- A load, or the test. -/
theorem HookInv.move (h : HookInv R N comp₀ shares s)
    (hx : HookOk R N comp₀ s.change (shares w) x)
    (hw : ∀ high low, (s.workers w).stage ≠ .store high low) :
    HookInv R N comp₀ shares (s.move w x) where
  forest := h.forest
  roots := h.roots
  quiet := h.quiet
  changed hup := by
    refine (h.changed hup).imp_right ?_
    rintro ⟨j, high, low, hj⟩
    have hjw : j ≠ w := by
      rintro rfl
      exact hw high low hj
    exact ⟨j, high, low, by rw [HookState.move_workers, Function.update_of_ne hjw, hj]⟩
  workers := (Function.forall_update_iff _ _).mpr ⟨hx, fun j _ => h.workers j⟩

/-- **Each step of the hooking loop** keeps the invariant. -/
theorem HookStep.inv (h : HookInv R N comp₀ shares s) (hs : HookStep s s') :
    HookInv R N comp₀ shares s' := by
  cases hs with
  | @first w u v es hw =>
    have hok := h.workers w
    rw [hw] at hok
    obtain ⟨harc, hu, hv⟩ := hok.left (u, v) List.mem_cons_self
    have hle := h.forest.le u
    refine h.move ⟨⟨(h.forest.connected u).trans (.of_rel harc), by omega, hv, fun hdown => ?_⟩,
      fun e he => hok.left e (List.mem_cons_of_mem _ he), fun hdown _ e he => ?_⟩
      (by rw [hw]; nofun)
    · rw [h.quiet hdown]
    · rcases hok.decided hdown nofun e he with he | he | he
      · rcases List.mem_cons.mp he with rfl | he
        · exact .inr (.inl rfl)
        · exact .inl he
      · exact absurd he nofun
      · exact .inr (.inr he)
  | @same w u v a es hw heq =>
    have hok := h.workers w
    rw [hw] at hok
    refine h.move ⟨trivial, hok.left, fun hdown _ e he => ?_⟩ (by rw [hw]; nofun)
    rcases hok.decided hdown nofun e he with he | he | he
    · exact .inl he
    · obtain rfl : (u, v) = e := Option.some.inj he
      refine .inr (.inr (.inl ?_))
      rw [← hok.stage.2.2.2 hdown, heq, h.quiet hdown]
    · exact .inr (.inr he)
  | @second w u v a es hw hne =>
    have hok := h.workers w
    rw [hw] at hok
    obtain ⟨hcon, ha, hv, hread⟩ := hok.stage
    have hle := h.forest.le v
    have hjoin : Connected R a (s.comp v) := hcon.trans (h.forest.connected v).symm
    refine h.move ⟨⟨min_lt_max.mpr hne, ?_, max_lt ha (by omega), fun hdown => ?_⟩, hok.left,
      fun hdown _ => hok.decided hdown nofun⟩ (by rw [hw]; nofun)
    · rcases le_total a (s.comp v) with hle | hle
      · rw [min_eq_left hle, max_eq_right hle]
        exact hjoin
      · rw [min_eq_right hle, max_eq_left hle]
        exact hjoin.symm
    · rw [hread hdown, h.quiet hdown]
  | @root w u v high low es hw hroot =>
    have hok := h.workers w
    rw [hw] at hok
    obtain ⟨hlt, hcon, hhigh, -⟩ := hok.stage
    exact h.move ⟨⟨hlt, hcon, hhigh, h.roots high hroot⟩, hok.left,
      fun _ hnot => absurd rfl (hnot high low)⟩ (by rw [hw]; nofun)
  | @inner w u v high low es hw hne =>
    have hok := h.workers w
    rw [hw] at hok
    refine h.move ⟨trivial, hok.left, fun hdown _ e he => ?_⟩ (by rw [hw]; nofun)
    rcases hok.decided hdown nofun e he with he | he | he
    · exact .inl he
    · obtain rfl : (u, v) = e := Option.some.inj he
      refine .inr (.inr (.inr ?_))
      rwa [← hok.stage.2.2.2 hdown, ← h.quiet hdown]
    · exact .inr (.inr he)
  | @raise w high low es hw =>
    have hok := h.workers w
    rw [hw] at hok
    obtain ⟨hlt, hcon, hhigh, hroot⟩ := hok.stage
    exact ⟨h.forest, h.roots, nofun, fun _ => .inr ⟨w, high, low, by simp⟩,
      (Function.forall_update_iff _ _).mpr
        ⟨⟨⟨hlt, hcon, hhigh, hroot, rfl⟩, hok.left, nofun⟩, fun j _ => (h.workers j).raise⟩⟩
  | @store w high low es hw =>
    have hok := h.workers w
    rw [hw] at hok
    obtain ⟨hlt, hcon, hhigh, hroot, hup⟩ := hok.stage
    refine ⟨h.forest.update hlt.le hcon, fun n hn => ?_, fun hdown => ?_, fun _ => .inl ?_,
      (Function.forall_update_iff _ _).mpr
        ⟨⟨trivial, hok.left, fun hdown => absurd (hup.symm.trans hdown) nofun⟩,
          fun j _ => h.workers j⟩⟩
    · by_cases hnh : n = high
      · rwa [hnh]
      · change Function.update s.comp high low n = n at hn
        rw [Function.update_of_ne hnh] at hn
        exact h.roots n hn
    · exact absurd (hup.symm.trans hdown) nofun
    · refine ⟨high, hhigh, hroot, ?_⟩
      change Function.update s.comp high low high ≠ high
      rw [Function.update_self]
      exact hlt.ne

/-- The steps that are left of an edge. -/
def HookStage.weight : HookStage → ℕ
  | .edge => 0
  | .first _ _ _ => 4
  | .test _ _ _ _ => 3
  | .raise _ _ => 2
  | .store _ _ => 1

/-- The steps that are left of a worker. -/
def HookWorker.weight (x : HookWorker) : ℕ := x.stage.weight + 5 * x.edges.length

/-- Each step of the hooking loop lowers the number of steps that are left. -/
theorem HookStep.weight_lt [Fintype τ] (hs : HookStep s s') :
    ∑ w, (s'.workers w).weight < ∑ w, (s.workers w).weight := by
  cases hs with
  | first hw | same hw | second hw | root hw | inner hw | raise hw | store hw =>
    refine sum_update_lt ?_
    rw [hw]
    simp only [HookWorker.weight, HookStage.weight, List.length_cons]
    omega

/-- A worker that is not at the end has a step. -/
theorem exists_hookStep (hw : s.workers w ≠ ⟨.edge, []⟩) : ∃ s', HookStep s s' := by
  rcases hx : s.workers w with ⟨stage, es⟩
  cases stage with
  | edge =>
    cases es with
    | nil => exact absurd hx hw
    | cons e es => exact ⟨_, .first hx⟩
  | first u v a =>
    by_cases heq : a = s.comp v
    · exact ⟨_, .same hx heq⟩
    · exact ⟨_, .second hx heq⟩
  | test u v high low =>
    by_cases hroot : s.comp high = high
    · exact ⟨_, .root hx hroot⟩
    · exact ⟨_, .inner hx hroot⟩
  | raise high low => exact ⟨_, .raise hx⟩
  | store high low => exact ⟨_, .store hx⟩

omit [DecidableEq τ] in
/-- **At the end** of a hooking loop. -/
theorem HookInv.hooked (h : HookInv R N comp₀ shares s) (hdone : ∀ w, s.workers w = ⟨.edge, []⟩) :
    Hooked R N (fun e => ∃ w, e ∈ shares w) comp₀ s.comp s.change where
  forest := h.forest
  roots := h.roots
  quiet hdown := by
    refine ⟨h.quiet hdown, fun e ⟨w, he⟩ => ?_⟩
    have hok := h.workers w
    rw [hdone w] at hok
    rcases hok.decided hdown nofun e he with he | he | he
    · exact absurd he List.not_mem_nil
    · exact absurd he nofun
    · exact he
  changed hup := by
    refine (h.changed hup).resolve_right ?_
    rintro ⟨w, high, low, hw⟩
    rw [hdone w] at hw
    exact absurd hw nofun

/-- **Every run of a hooking loop ends.** -/
theorem endsIn_hooked [Fintype τ] (hforest : Forest R comp₀)
    (hshares : ∀ w, ∀ e ∈ shares w, R e.1 e.2 ∧ e.1 < N ∧ e.2 < N) :
    EndsIn HookStep (fun s => (∀ w, s.workers w = ⟨.edge, []⟩) ∧
      Hooked R N (fun e => ∃ w, e ∈ shares w) comp₀ s.comp s.change) (.start comp₀ shares) := by
  refine endsIn_of_invariant (fun s : HookState τ => ∑ w, (s.workers w).weight)
    (fun s s' h hs => ⟨hs.inv h, hs.weight_lt⟩) (fun s h hfinal => ?_) (.start hforest hshares)
  have hdone : ∀ w, s.workers w = ⟨.edge, []⟩ := by
    intro w
    by_contra hw
    obtain ⟨s', hs'⟩ := exists_hookStep hw
    exact hfinal s' hs'
  exact ⟨hdone, h.hooked hdone⟩

end Hook

/-! ## The jumping loop -/

/-- Where a worker is: at its next vertex; at the test `comp[n] != comp[comp[n]]`, with the values
it loaded so far; at the assignment `comp[n] = comp[comp[n]]`, with those. -/
inductive JumpStage
  | vertex
  | check (n : ℕ)
  | left (n a : ℕ)
  | inner (n a b : ℕ)
  | jump (n : ℕ)
  | target (n b : ℕ)
  | store (n c : ℕ)
  deriving DecidableEq

/-- A worker with the vertices that are left. -/
structure JumpWorker where
  stage : JumpStage
  vertices : List ℕ

/-- The table and the workers. -/
structure JumpState (τ : Type) where
  comp : ℕ → ℕ
  workers : τ → JumpWorker

/-- The workers share the vertices out. -/
def JumpState.start (comp : ℕ → ℕ) (shares : τ → List ℕ) : JumpState τ :=
  ⟨comp, fun w => ⟨.vertex, shares w⟩⟩

/-- A worker moves. -/
def JumpState.move [DecidableEq τ] (s : JumpState τ) (w : τ) (x : JumpWorker) : JumpState τ :=
  { s with workers := Function.update s.workers w x }

/-- **An atomic step** of the jumping loop: a load or a store. -/
inductive JumpStep [DecidableEq τ] : JumpState τ → JumpState τ → Prop
  | vertex {s w n ns} : s.workers w = ⟨.vertex, n :: ns⟩ → JumpStep s (s.move w ⟨.check n, ns⟩)
  | check {s w n ns} : s.workers w = ⟨.check n, ns⟩ →
      JumpStep s (s.move w ⟨.left n (s.comp n), ns⟩)
  | left {s w n a ns} : s.workers w = ⟨.left n a, ns⟩ →
      JumpStep s (s.move w ⟨.inner n a (s.comp n), ns⟩)
  | stop {s w n a b ns} : s.workers w = ⟨.inner n a b, ns⟩ → a = s.comp b →
      JumpStep s (s.move w ⟨.vertex, ns⟩)
  | again {s w n a b ns} : s.workers w = ⟨.inner n a b, ns⟩ → a ≠ s.comp b →
      JumpStep s (s.move w ⟨.jump n, ns⟩)
  | jump {s w n ns} : s.workers w = ⟨.jump n, ns⟩ →
      JumpStep s (s.move w ⟨.target n (s.comp n), ns⟩)
  | target {s w n b ns} : s.workers w = ⟨.target n b, ns⟩ →
      JumpStep s (s.move w ⟨.store n (s.comp b), ns⟩)
  | store {s w n c ns} : s.workers w = ⟨.store n c, ns⟩ →
      JumpStep s { s.move w ⟨.check n, ns⟩ with comp := Function.update s.comp n c }

/-- The vertex that a worker is at. -/
def JumpStage.current : JumpStage → Option ℕ
  | .vertex => none
  | .check n => some n
  | .left n _ => some n
  | .inner n _ _ => some n
  | .jump n => some n
  | .target n _ => some n
  | .store n _ => some n

/-- What a worker has read of its own vertex is what the table holds, and a parent that was no root
is none. -/
def JumpStage.Ok (R : ℕ → ℕ → Prop) (comp₀ comp : ℕ → ℕ) : JumpStage → Prop
  | .vertex => True
  | .check _ => True
  | .left n a => a = comp n
  | .inner n a b => a = comp n ∧ b = comp n
  | .jump n => comp₀ (comp n) ≠ comp n
  | .target n b => b = comp n ∧ comp₀ (comp n) ≠ comp n
  | .store n c => c < comp n ∧ Connected R c n ∧ comp₀ n ≠ n

/-- The vertices that a worker still has to write to. -/
def JumpWorker.owned (x : JumpWorker) : List ℕ := x.stage.current.toList ++ x.vertices

/-- A worker, with its share of the vertices: those that are behind it point to roots. -/
structure JumpOk (R : ℕ → ℕ → Prop) (comp₀ comp : ℕ → ℕ) (share : List ℕ) (x : JumpWorker) :
    Prop where
  stage : x.stage.Ok R comp₀ comp
  nodup : x.owned.Nodup
  subset : ∀ n ∈ x.owned, n ∈ share
  behind : ∀ n ∈ share, n ∈ x.owned ∨ comp (comp n) = comp n

/-- **The invariant** of the jumping loop. -/
structure JumpInv (R : ℕ → ℕ → Prop) (comp₀ : ℕ → ℕ) (shares : τ → List ℕ) (s : JumpState τ) :
    Prop where
  forest : Forest R s.comp
  roots : ∀ n, s.comp n = n ↔ comp₀ n = n
  workers : ∀ w, JumpOk R comp₀ s.comp (shares w) (s.workers w)

/-- **The table after a jumping loop** over the vertices below `N`. -/
structure Jumped (R : ℕ → ℕ → Prop) (N : ℕ) (comp₀ comp : ℕ → ℕ) : Prop where
  forest : Forest R comp
  roots : ∀ n, comp n = n ↔ comp₀ n = n
  star : ∀ n < N, comp (comp n) = comp n

section Jump

variable [DecidableEq τ] {N : ℕ} {comp₀ comp : ℕ → ℕ} {shares : τ → List ℕ} {s s' : JumpState τ}
  {w : τ} {x : JumpWorker} {share ns : List ℕ} {stage stage' : JumpStage}

omit [DecidableEq τ] in
theorem JumpInv.start (hforest : Forest R comp₀) (hshares : Shared N shares) :
    JumpInv R comp₀ shares (.start comp₀ shares) where
  forest := hforest
  roots _ := Iff.rfl
  workers w := ⟨trivial, hshares.nodup w, fun _ hn => hn, fun _ hn => .inl hn⟩

/-- A load of a worker that stays at its vertex. -/
theorem JumpOk.advance (h : JumpOk R comp₀ comp share ⟨stage, ns⟩)
    (hcurrent : stage'.current = stage.current) (hok : stage'.Ok R comp₀ comp) :
    JumpOk R comp₀ comp share ⟨stage', ns⟩ := by
  have howned : (⟨stage', ns⟩ : JumpWorker).owned = (⟨stage, ns⟩ : JumpWorker).owned := by
    rw [JumpWorker.owned, JumpWorker.owned, hcurrent]
  exact ⟨hok, howned ▸ h.nodup, howned ▸ h.subset, howned ▸ h.behind⟩

/-- A load. -/
theorem JumpInv.move (h : JumpInv R comp₀ shares s) (hx : JumpOk R comp₀ s.comp (shares w) x) :
    JumpInv R comp₀ shares (s.move w x) where
  forest := h.forest
  roots := h.roots
  workers := (Function.forall_update_iff _ _).mpr ⟨hx, fun j _ => h.workers j⟩

omit [DecidableEq τ] in
/-- The parent of a vertex that is behind is a root, and no store goes to a root. -/
theorem JumpInv.star_update (h : JumpInv R comp₀ shares s) {n c m : ℕ} (hn : comp₀ n ≠ n)
    (hm : m ≠ n) (hstar : s.comp (s.comp m) = s.comp m) :
    Function.update s.comp n c (Function.update s.comp n c m) = Function.update s.comp n c m := by
  have hne : s.comp m ≠ n := by
    rintro rfl
    exact hn ((h.roots _).mp hstar)
  rw [Function.update_of_ne hm, Function.update_of_ne hne, hstar]

omit [DecidableEq τ] in
/-- The store of another worker. -/
theorem JumpOk.store (h : JumpInv R comp₀ shares s) {j : τ} {n c : ℕ} (hroot : comp₀ n ≠ n)
    (hn : n ∉ shares j) :
    JumpOk R comp₀ (Function.update s.comp n c) (shares j) (s.workers j) := by
  have hok := h.workers j
  have hother : ∀ m, (s.workers j).stage.current = some m →
      Function.update s.comp n c m = s.comp m := by
    intro m hm
    refine Function.update_of_ne ?_ c s.comp
    rintro rfl
    exact hn (hok.subset m (by simp [JumpWorker.owned, hm]))
  refine ⟨?_, hok.nodup, hok.subset, fun m hm => (hok.behind m hm).imp_right fun hstar => ?_⟩
  · have hstage := hok.stage
    cases hx : (s.workers j).stage with
    | vertex => trivial
    | check m => trivial
    | left m a | inner m a b | jump m | target m b | store m d =>
      rw [hx] at hstage
      simp only [JumpStage.Ok, hother m (by rw [hx]; rfl)]
      exact hstage
  · exact h.star_update hroot (fun hmn => hn (hmn ▸ hm)) hstar

/-- **Each step of the jumping loop** keeps the invariant. -/
theorem JumpStep.inv (hshares : Shared N shares) (h : JumpInv R comp₀ shares s)
    (hs : JumpStep s s') : JumpInv R comp₀ shares s' := by
  cases hs with
  | @vertex w n ns hw =>
    have hok := h.workers w
    rw [hw] at hok
    exact h.move ⟨trivial, hok.nodup, hok.subset, hok.behind⟩
  | @check w n ns hw =>
    have hok := h.workers w
    rw [hw] at hok
    exact h.move (hok.advance rfl rfl)
  | @left w n a ns hw =>
    have hok := h.workers w
    rw [hw] at hok
    exact h.move (hok.advance rfl ⟨hok.stage, rfl⟩)
  | @stop w n a b ns hw heq =>
    have hok := h.workers w
    rw [hw] at hok
    obtain ⟨ha, hb⟩ := hok.stage
    refine h.move ⟨trivial, (List.nodup_cons.mp hok.nodup).2,
      fun m hm => hok.subset m (List.mem_cons_of_mem n hm), fun m hm => ?_⟩
    rcases hok.behind m hm with hm | hm
    · rcases List.mem_cons.mp hm with rfl | hm
      · exact .inr (by rw [← hb, ← heq, ha, hb])
      · exact .inl hm
    · exact .inr hm
  | @again w n a b ns hw hne =>
    have hok := h.workers w
    rw [hw] at hok
    obtain ⟨ha, hb⟩ := hok.stage
    refine h.move (hok.advance rfl fun hroot => hne ?_)
    rw [ha, hb, (h.roots _).mpr hroot]
  | @jump w n ns hw =>
    have hok := h.workers w
    rw [hw] at hok
    exact h.move (hok.advance rfl ⟨rfl, hok.stage⟩)
  | @target w n b ns hw =>
    have hok := h.workers w
    rw [hw] at hok
    obtain ⟨rfl, hroot⟩ := hok.stage
    refine h.move (hok.advance rfl ⟨?_, (h.forest.connected _).trans (h.forest.connected n), ?_⟩)
    · exact lt_of_le_of_ne (h.forest.le _) fun heq => hroot ((h.roots _).mp heq)
    · intro heq
      rw [(h.roots n).mpr heq] at hroot
      exact hroot heq
  | @store w n c ns hw =>
    have hok := h.workers w
    rw [hw] at hok
    obtain ⟨hlt, hcon, hroot⟩ := hok.stage
    have hle := h.forest.le n
    have hmem : n ∈ shares w := hok.subset n List.mem_cons_self
    refine ⟨h.forest.update (by omega) hcon, fun m => ?_, (Function.forall_update_iff _ _).mpr
      ⟨⟨trivial, hok.nodup, hok.subset, fun m hm => ?_⟩, fun j hj => .store h hroot ?_⟩⟩
    · by_cases hmn : m = n
      · subst hmn
        refine iff_of_false ?_ hroot
        change Function.update s.comp m c m ≠ m
        rw [Function.update_self]
        omega
      · change Function.update s.comp n c m = m ↔ _
        rw [Function.update_of_ne hmn]
        exact h.roots m
    · by_cases hmn : m = n
      · exact .inl (hmn ▸ List.mem_cons_self)
      · exact (hok.behind m hm).imp_right (h.star_update hroot hmn)
    · exact hshares.disjoint w j (Ne.symm hj) hmem

/-- The steps that are left at a vertex, up to the next store. -/
def JumpStage.weight : JumpStage → ℕ
  | .vertex => 0
  | .check _ => 6
  | .left _ _ => 5
  | .inner _ _ _ => 4
  | .jump _ => 3
  | .target _ _ => 2
  | .store _ _ => 1

/-- The steps that are left of a worker, up to the next store. -/
def JumpWorker.weight (x : JumpWorker) : ℕ := x.stage.weight + 7 * x.vertices.length

/-- A bound of the steps that are left: a store lowers the table. -/
def JumpState.measure [Fintype τ] (N : ℕ) (s : JumpState τ) : ℕ ×ₗ ℕ :=
  toLex (∑ n ∈ Finset.range N, s.comp n, ∑ w, (s.workers w).weight)

/-- Each step of the jumping loop lowers the bound. -/
theorem JumpStep.measure_lt [Fintype τ] (hshares : Shared N shares)
    (h : JumpInv R comp₀ shares s) (hs : JumpStep s s') : s'.measure N < s.measure N := by
  cases hs with
  | vertex hw | check hw | left hw | stop hw | again hw | jump hw | target hw =>
    refine Prod.Lex.toLex_lt_toLex.mpr (.inr ⟨rfl, sum_update_lt ?_⟩)
    rw [hw]
    simp only [JumpWorker.weight, JumpStage.weight, List.length_cons]
    omega
  | @store w n c ns hw =>
    have hok := h.workers w
    rw [hw] at hok
    have hn : n < N := (hshares.mem n).mp ⟨w, hok.subset n List.mem_cons_self⟩
    refine Prod.Lex.toLex_lt_toLex.mpr (.inl ?_)
    change ∑ m ∈ Finset.range N, Function.update s.comp n c m < ∑ m ∈ Finset.range N, s.comp m
    refine Finset.sum_lt_sum (fun m _ => ?_) ⟨n, Finset.mem_range.mpr hn, ?_⟩
    · by_cases hmn : m = n
      · subst hmn
        rw [Function.update_self]
        exact hok.stage.1.le
      · rw [Function.update_of_ne hmn]
    · rw [Function.update_self]
      exact hok.stage.1

omit [DecidableEq τ] in
/-- **At the end** of a jumping loop. -/
theorem JumpInv.jumped (hshares : Shared N shares) (h : JumpInv R comp₀ shares s)
    (hdone : ∀ w, s.workers w = ⟨.vertex, []⟩) : Jumped R N comp₀ s.comp where
  forest := h.forest
  roots := h.roots
  star n hn := by
    obtain ⟨w, hw⟩ := (hshares.mem n).mpr hn
    have hok := h.workers w
    rw [hdone w] at hok
    exact (hok.behind n hw).resolve_left List.not_mem_nil

/-- A worker that is not at the end has a step. -/
theorem exists_jumpStep (hw : s.workers w ≠ ⟨.vertex, []⟩) : ∃ s', JumpStep s s' := by
  rcases hx : s.workers w with ⟨stage, ns⟩
  cases stage with
  | vertex =>
    cases ns with
    | nil => exact absurd hx hw
    | cons n ns => exact ⟨_, .vertex hx⟩
  | check n => exact ⟨_, .check hx⟩
  | left n a => exact ⟨_, .left hx⟩
  | inner n a b =>
    by_cases heq : a = s.comp b
    · exact ⟨_, .stop hx heq⟩
    · exact ⟨_, .again hx heq⟩
  | jump n => exact ⟨_, .jump hx⟩
  | target n b => exact ⟨_, .target hx⟩
  | store n c => exact ⟨_, .store hx⟩

/-- **Every run of a jumping loop ends.** -/
theorem endsIn_jumped [Fintype τ] (hforest : Forest R comp₀) (hshares : Shared N shares) :
    EndsIn JumpStep (fun s => (∀ w, s.workers w = ⟨.vertex, []⟩) ∧ Jumped R N comp₀ s.comp)
      (.start comp₀ shares) := by
  refine endsIn_of_invariant (JumpState.measure N)
    (fun s s' h hs => ⟨hs.inv hshares h, hs.measure_lt hshares h⟩) (fun s h hfinal => ?_)
    (.start hforest hshares)
  have hdone : ∀ w, s.workers w = ⟨.vertex, []⟩ := by
    intro w
    by_contra hw
    obtain ⟨s', hs'⟩ := exists_jumpStep hw
    exact hfinal s' hs'
  exact ⟨hdone, h.jumped hshares hdone⟩

end Jump

end Hooking

end Foundation
