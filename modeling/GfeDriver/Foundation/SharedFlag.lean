import GfeDriver.Foundation.LabelPropagation
import GfeDriver.Foundation.Runs
import Mathlib.Data.Prod.Lex

/-!
# A flag that many workers raise without synchronisation

A program iterates a step on a table of labels, until a flag stays down or the iterations are over.
In a pass the workers write the new labels to a second table, each at the items of its own share,
and after each label `change |= ...` raises the flag if the label is a new one. This is a load and a
store: a worker that loaded the flag before it went up, and has no new label, takes it down again.

The labels are not affected, so that the loop ends with the labels of some number of steps. It ends
with those of the last step if no store takes the flag down, which is the case when one worker has
all the items. Otherwise the loop may stop after any step that keeps the labels of one share.

## Main definitions

* `Step cur f`: a pass from the labels `cur` to the labels `f`
* `LoopStep`: the passes, until the flag stays down
* `Config.Lowers`: a store takes the flag down

## Main results

* `LoopStep.inv`: each step keeps the invariant
* `endsIn_iterate`: every run ends, with the labels of some step
* `iterate_of_kept`, `endsIn_of_alone`: when these are the labels of the last step
* `exists_earlyStop`: when the loop may stop before
-/

namespace Foundation

namespace SharedFlag

variable {τ V Λ : Type}

/-! ## A pass -/

/-- Where a worker is: at its next item; before it loads the flag, and before it stores the flag,
for an item whose label it wrote. -/
inductive Stage (V : Type)
  | item
  | load (x : V)
  | store (x : V) (old : Bool)

/-- The item whose label was written last. -/
def Stage.current : Stage V → Option V
  | .item => none
  | .load x => some x
  | .store x _ => some x

/-- A worker with the items that are left. -/
structure Worker (V : Type) where
  stage : Stage V
  items : List V

/-- A worker at its end. -/
def Worker.done : Worker V := ⟨.item, []⟩

/-- The table that is written, the flag, and the workers. -/
structure State (τ V Λ : Type) where
  next : V → Λ
  change : Bool
  workers : τ → Worker V

/-- The workers have their shares, and the flag is down. -/
def State.start (next : V → Λ) (shares : τ → List V) : State τ V Λ :=
  ⟨next, false, fun w => ⟨.item, shares w⟩⟩

/-- A worker moves. -/
def State.move [DecidableEq τ] (s : State τ V Λ) (w : τ) (x : Worker V) : State τ V Λ :=
  { s with workers := Function.update s.workers w x }

@[simp] theorem State.move_workers [DecidableEq τ] (s : State τ V Λ) (w : τ) (x : Worker V) :
    (s.move w x).workers = Function.update s.workers w x := rfl

@[simp] theorem State.move_change [DecidableEq τ] (s : State τ V Λ) (w : τ) (x : Worker V) :
    (s.move w x).change = s.change := rfl

/-- **An atomic step** of a pass: the store of a label, the load or the store of the flag. -/
inductive Step [DecidableEq τ] [DecidableEq V] [DecidableEq Λ] (cur f : V → Λ) :
    State τ V Λ → State τ V Λ → Prop
  | write {s w x xs} : s.workers w = ⟨.item, x :: xs⟩ →
      Step cur f s { s.move w ⟨.load x, xs⟩ with next := Function.update s.next x (f x) }
  | load {s w x xs} : s.workers w = ⟨.load x, xs⟩ →
      Step cur f s (s.move w ⟨.store x s.change, xs⟩)
  | store {s w x old xs} : s.workers w = ⟨.store x old, xs⟩ →
      Step cur f s { s.move w ⟨.item, xs⟩ with change := old || cur x != s.next x }

/-- What a worker has written. -/
structure WorkerOk (f next : V → Λ) (share : List V) (x : Worker V) : Prop where
  written : ∀ y, x.stage.current = some y → next y = f y
  behind : ∀ y ∈ share, y ∈ x.items ∨ next y = f y

/-- **The invariant** of a pass: the labels that were written are the new ones. -/
def Written (f : V → Λ) (shares : τ → List V) (s : State τ V Λ) : Prop :=
  ∀ w, WorkerOk f s.next (shares w) (s.workers w)

/-- The items with a new label are left, or the last one. -/
def Worker.Pending (cur f : V → Λ) (share : List V) (x : Worker V) : Prop :=
  ∀ y ∈ share, cur y ≠ f y → y ∈ x.items ∨ x.stage.current = some y

/-- **The flag is not lost**: an item with a new label has raised it, or will do so. -/
def Kept (cur f : V → Λ) (shares : τ → List V) (s : State τ V Λ) : Prop :=
  s.change = true ∨ ∀ w, (s.workers w).Pending cur f (shares w)

/-- **One worker** has all the items, and the flag is as this worker loaded it. -/
def Alone (s : State τ V Λ) : Prop :=
  ∃ w, (∀ j ≠ w, s.workers j = .done) ∧
    ∀ x old, (s.workers w).stage = .store x old → old = s.change

section Pass

variable {cur f : V → Λ} {shares : τ → List V} {s s' : State τ V Λ} {w : τ}

theorem Written.start (next : V → Λ) : Written f shares (.start next shares) :=
  fun _ => ⟨nofun, fun _ hy => .inl hy⟩

theorem Kept.start (next : V → Λ) : Kept cur f shares (.start next shares) :=
  .inr fun _ _ hy _ => .inl hy

variable [DecidableEq τ] [DecidableEq V] [DecidableEq Λ]

/-- Each step of a pass writes new labels only. -/
theorem Step.written (h : Written f shares s) (hs : Step cur f s s') : Written f shares s' := by
  cases hs with
  | @write w x xs hw =>
    have hnext : ∀ y, s.next y = f y → Function.update s.next x (f x) y = f y := by
      intro y hy
      by_cases hyx : y = x
      · rw [hyx, Function.update_self]
      · rw [Function.update_of_ne hyx, hy]
    refine (Function.forall_update_iff _ _).mpr ⟨⟨fun y hy => ?_, fun y hy => ?_⟩, fun j _ =>
      ⟨fun y hy => hnext y ((h j).written y hy), fun y hy => ((h j).behind y hy).imp_right
        (hnext y)⟩⟩
    · obtain rfl : x = y := Option.some.inj hy
      exact Function.update_self ..
    · have hold := (h w).behind y hy
      rw [hw] at hold
      rcases hold with hmem | hval
      · rcases List.mem_cons.mp hmem with rfl | hmem
        · exact .inr (Function.update_self ..)
        · exact .inl hmem
      · exact .inr (hnext y hval)
  | @load w x xs hw =>
    have hok := h w
    rw [hw] at hok
    exact (Function.forall_update_iff _ _).mpr ⟨⟨hok.written, hok.behind⟩, fun j _ => h j⟩
  | @store w x old xs hw =>
    have hok := h w
    rw [hw] at hok
    exact (Function.forall_update_iff _ _).mpr ⟨⟨nofun, hok.behind⟩, fun j _ => h j⟩

/-- A step that does not take the flag down does not lose it. -/
theorem Step.kept (hwritten : Written f shares s) (h : Kept cur f shares s)
    (hs : Step cur f s s') (hlow : ¬(s.change = true ∧ s'.change = false)) :
    Kept cur f shares s' := by
  by_cases hup : s'.change = true
  · exact .inl hup
  have hdown : s.change = false := by
    by_contra hc
    exact hlow ⟨by simpa using hc, by simpa using hup⟩
  have hleft := h.resolve_left (by simp [hdown])
  refine .inr ?_
  cases hs with
  | @write w x xs hw =>
    refine (Function.forall_update_iff s.workers fun j y => y.Pending cur f (shares j)).mpr
      ⟨fun y hy hne => ?_, fun j _ => hleft j⟩
    have hold := hleft w y hy hne
    rw [hw] at hold
    rcases hold with hmem | hmem
    · rcases List.mem_cons.mp hmem with rfl | hmem
      · exact .inr rfl
      · exact .inl hmem
    · exact absurd hmem nofun
  | @load w x xs hw =>
    refine (Function.forall_update_iff s.workers fun j y => y.Pending cur f (shares j)).mpr
      ⟨fun y hy hne => ?_, fun j _ => hleft j⟩
    have hold := hleft w y hy hne
    rwa [hw] at hold
  | @store w x old xs hw =>
    refine (Function.forall_update_iff s.workers fun j y => y.Pending cur f (shares j)).mpr
      ⟨fun y hy hne => ?_, fun j _ => hleft j⟩
    have hold := hleft w y hy hne
    rw [hw] at hold
    refine .inl (hold.resolve_right fun hxy => ?_)
    -- the flag would be up
    obtain rfl : x = y := Option.some.inj hxy
    have hval := (hwritten w).written x (by rw [hw]; rfl)
    exact hup (by simp [hval, hne])

/-- **One worker** does not take the flag down. -/
theorem Step.alone (h : Alone s) (hs : Step cur f s s') :
    ¬(s.change = true ∧ s'.change = false) ∧ Alone s' := by
  obtain ⟨w₀, hothers, hflag⟩ := h
  have hw₀ : ∀ {w x}, s.workers w = x → x ≠ .done → w = w₀ := by
    intro w x hw hx
    by_contra hne
    exact hx (hw ▸ hothers w hne)
  have hmove : ∀ y, ∀ j ≠ w₀, Function.update s.workers w₀ y j = .done := by
    intro y j hj
    rw [Function.update_of_ne hj, hothers j hj]
  cases hs with
  | @write w x xs hw =>
    obtain rfl := hw₀ hw nofun
    refine ⟨fun hlow => ?_, w, hmove _, fun y old hy => ?_⟩
    · exact Bool.false_ne_true (hlow.2.symm.trans hlow.1)
    · rw [State.move_workers, Function.update_self] at hy
      exact absurd hy nofun
  | @load w x xs hw =>
    obtain rfl := hw₀ hw nofun
    refine ⟨fun hlow => ?_, w, hmove _, fun y old hy => ?_⟩
    · exact Bool.false_ne_true (hlow.2.symm.trans hlow.1)
    · rw [State.move_workers, Function.update_self] at hy
      cases hy
      rfl
  | @store w x old xs hw =>
    obtain rfl := hw₀ hw nofun
    have hold : old = s.change := hflag x old (by rw [hw])
    refine ⟨fun hlow => ?_, w, hmove _, fun y old hy => ?_⟩
    · simp [hold, hlow.1] at hlow
    · rw [State.move_workers, Function.update_self] at hy
      exact absurd hy nofun

/-- The steps that are left of an item. -/
def Stage.weight : Stage V → ℕ
  | .item => 0
  | .load _ => 2
  | .store _ _ => 1

/-- The steps that are left of a worker. -/
def Worker.weight (x : Worker V) : ℕ := x.stage.weight + 3 * x.items.length

/-- Each step of a pass lowers the number of steps that are left. -/
theorem Step.weight_lt [Fintype τ] (hs : Step cur f s s') :
    ∑ w, (s'.workers w).weight < ∑ w, (s.workers w).weight := by
  cases hs with
  | write hw | load hw | store hw =>
    refine sum_update_lt ?_
    rw [hw]
    simp only [Worker.weight, Stage.weight, List.length_cons]
    omega

/-- A worker that is not at its end has a step. -/
theorem exists_step (cur f : V → Λ) (hw : s.workers w ≠ .done) : ∃ s', Step cur f s s' := by
  rcases hx : s.workers w with ⟨stage, xs⟩
  cases stage with
  | item =>
    cases xs with
    | nil => exact absurd hx hw
    | cons x xs => exact ⟨_, .write hx⟩
  | load x => exact ⟨_, .load hx⟩
  | store x old => exact ⟨_, .store hx⟩

omit [DecidableEq τ] [DecidableEq V] [DecidableEq Λ] in
/-- **At the end** of a pass all labels are written. -/
theorem Written.next_eq (h : Written f shares s) (hdone : ∀ w, s.workers w = .done) {x : V}
    (hx : ∃ w, x ∈ shares w) : s.next x = f x := by
  obtain ⟨w, hw⟩ := hx
  have hok := h w
  rw [hdone w] at hok
  exact (hok.behind x hw).resolve_left List.not_mem_nil

omit [DecidableEq τ] [DecidableEq V] [DecidableEq Λ] in
/-- **At the end** of a pass a flag that was not lost tells whether there is a new label. -/
theorem Kept.eq_of_down (h : Kept cur f shares s) (hdone : ∀ w, s.workers w = .done)
    (hdown : s.change = false) {x : V} (hx : ∃ w, x ∈ shares w) : cur x = f x := by
  obtain ⟨w, hw⟩ := hx
  by_contra hne
  have hleft := h.resolve_left (by simp [hdown]) w x hw hne
  rw [hdone w] at hleft
  rcases hleft with hleft | hleft
  · exact absurd hleft List.not_mem_nil
  · exact absurd hleft nofun

/-! ### Runs of one worker -/

/-- **A worker alone** works some of its items off, and raises the flag if there is a new label. -/
theorem exists_run_worker (cur f : V → Λ) (xs ys : List V) (hw : s.workers w = ⟨.item, xs ++ ys⟩) :
    ∃ s', Relation.ReflTransGen (Step cur f) s s' ∧
      s'.workers = Function.update s.workers w ⟨.item, ys⟩ ∧
      s'.change = (s.change || xs.any fun x => cur x != f x) := by
  induction xs generalizing s with
  | nil =>
    refine ⟨s, .refl, ?_, by simp⟩
    rw [← Function.update_eq_self w s.workers, Function.update_idem, hw]
    rfl
  | cons x xs ih =>
    -- the three steps of the first item
    set s₁ : State τ V Λ :=
      { s.move w ⟨.load x, xs ++ ys⟩ with next := Function.update s.next x (f x) } with hs₁
    have hwrite : Step cur f s s₁ := .write hw
    have hw₁ : s₁.workers w = ⟨.load x, xs ++ ys⟩ := Function.update_self ..
    set s₂ := s₁.move w ⟨.store x s₁.change, xs ++ ys⟩ with hs₂
    have hload : Step cur f s₁ s₂ := .load hw₁
    have hw₂ : s₂.workers w = ⟨.store x s₁.change, xs ++ ys⟩ := Function.update_self ..
    set s₃ : State τ V Λ :=
      { s₂.move w ⟨.item, xs ++ ys⟩ with change := s₁.change || cur x != s₂.next x } with hs₃
    have hstore : Step cur f s₂ s₃ := .store hw₂
    have hw₃ : s₃.workers w = ⟨.item, xs ++ ys⟩ := Function.update_self ..
    obtain ⟨s', hrun, hworkers, hchange⟩ := ih hw₃
    have hval : s₂.next x = f x := Function.update_self ..
    refine ⟨s', .head hwrite (.head hload (.head hstore hrun)), ?_, ?_⟩
    · simp [hworkers, hs₃, hs₂, hs₁]
    · rw [hchange, List.any_cons, ← Bool.or_assoc]
      simp [hs₃, hs₁, hval]

/-- Two workers, one after the other. -/
theorem exists_run_pair (cur f : V → Λ) {w₀ w₁ : τ} (hne : w₀ ≠ w₁)
    (hothers : ∀ j, j ≠ w₀ → j ≠ w₁ → shares j = []) (next : V → Λ) :
    ∃ s', Relation.ReflTransGen (Step cur f) (.start next shares) s' ∧
      (∀ w, s'.workers w = .done) ∧
      s'.change = ((shares w₀).any (fun x => cur x != f x) ||
        (shares w₁).any fun x => cur x != f x) := by
  obtain ⟨s₁, hrun₁, hworkers₁, hchange₁⟩ := exists_run_worker cur f (s := .start next shares)
    (w := w₀) (shares w₀) [] (by simp [State.start])
  obtain ⟨s₂, hrun₂, hworkers₂, hchange₂⟩ := exists_run_worker cur f (s := s₁) (w := w₁)
    (shares w₁) [] (by simp [hworkers₁, Function.update_of_ne hne.symm, State.start])
  refine ⟨s₂, hrun₁.trans hrun₂, fun w => ?_, ?_⟩
  · rw [hworkers₂, hworkers₁]
    by_cases hw₁ : w = w₁
    · subst hw₁
      rw [Function.update_self]
      rfl
    · rw [Function.update_of_ne hw₁]
      by_cases hw₀ : w = w₀
      · subst hw₀
        rw [Function.update_self]
        rfl
      · rw [Function.update_of_ne hw₀]
        simp only [State.start, hothers w hw₀ hw₁]
        rfl
  · rw [hchange₂, hchange₁]
    simp [State.start]

/-- **A lost update**: a worker without new labels loads the flag before the labels of the other
worker, and stores it after them. -/
theorem exists_run_lost (cur f : V → Λ) {w₀ w₁ : τ} (hne : w₀ ≠ w₁)
    (hothers : ∀ j, j ≠ w₀ → j ≠ w₁ → shares j = []) (hitems : shares w₀ ≠ [])
    (hsame : ∀ x ∈ shares w₀, cur x = f x) (next : V → Λ) :
    ∃ s', Relation.ReflTransGen (Step cur f) (.start next shares) s' ∧
      (∀ w, s'.workers w = .done) ∧ s'.change = false := by
  obtain ⟨us, u, hu⟩ := (List.eq_nil_or_concat' (shares w₀)).resolve_left hitems
  have hus : (us.any fun x => cur x != f x) = false := by
    rw [List.any_eq_false]
    intro x hx
    simp [hsame x (hu ▸ List.mem_append_left _ hx)]
  -- all items but the last one leave the flag down
  obtain ⟨s₁, hrun₁, hworkers₁, hchange₁⟩ := exists_run_worker cur f (s := .start next shares)
    (w := w₀) us [u] (by simp [State.start, hu])
  have hdown : s₁.change = false := by
    rw [hchange₁, hus]
    rfl
  have hw₁ : s₁.workers w₀ = ⟨.item, [u]⟩ := by rw [hworkers₁, Function.update_self]
  -- the flag is loaded
  set s₂ : State τ V Λ :=
    { s₁.move w₀ ⟨.load u, []⟩ with next := Function.update s₁.next u (f u) } with hs₂
  have hwrite : Step cur f s₁ s₂ := .write hw₁
  have hw₂ : s₂.workers w₀ = ⟨.load u, []⟩ := Function.update_self ..
  set s₃ := s₂.move w₀ ⟨.store u s₂.change, []⟩ with hs₃
  have hload : Step cur f s₂ s₃ := .load hw₂
  -- the other worker runs
  have hother : s₃.workers w₁ = ⟨.item, shares w₁ ++ []⟩ := by
    simp [hs₃, hs₂, Function.update_of_ne hne.symm, hworkers₁, State.start]
  obtain ⟨s₄, hrun₄, hworkers₄, -⟩ := exists_run_worker cur f _ _ hother
  have hw₄ : s₄.workers w₀ = ⟨.store u s₂.change, []⟩ := by
    rw [hworkers₄, Function.update_of_ne hne]
    exact Function.update_self ..
  have hrun : Relation.ReflTransGen (Step cur f) (.start next shares) s₄ :=
    ((hrun₁.tail hwrite).tail hload).trans hrun₄
  have hval : s₄.next u = f u := by
    have hwritten : Written f shares s₄ :=
      reachable_invariant (Written.start next) (fun _ _ h hs => hs.written h) hrun
    exact (hwritten w₀).written u (by rw [hw₄]; rfl)
  -- the flag is stored
  refine ⟨_, hrun.tail (.store hw₄), fun w => ?_, ?_⟩
  · change Function.update s₄.workers w₀ ⟨.item, []⟩ w = _
    by_cases hw₀ : w = w₀
    · rw [hw₀, Function.update_self]
      rfl
    · rw [Function.update_of_ne hw₀, hworkers₄]
      by_cases hw₁ : w = w₁
      · rw [hw₁, Function.update_self]
        rfl
      · rw [Function.update_of_ne hw₁]
        simp only [hs₃, hs₂, State.move_workers, Function.update_of_ne hw₀, hworkers₁, State.start,
          hothers w hw₀ hw₁]
        rfl
  · change (s₁.change || cur u != s₄.next u) = false
    rw [hdown, hval, hsame u (hu ▸ List.mem_append_right _ List.mem_cons_self)]
    simp

end Pass

/-! ## The loop -/

/-- Before a pass, with the labels, the table for the next ones, the flag and the number of the
iterations; in a pass; after the loop; or stopped because of the time. -/
inductive Config (τ V Λ : Type)
  | head (labels next : V → Λ) (change : Bool) (iteration : ℕ)
  | pass (labels f : V → Λ) (iteration : ℕ) (s : State τ V Λ)
  | finished (labels : V → Λ)
  | timedOut

/-- **The steps of the loop**: a pass computes labels that `Label` allows from the current ones, and
the items are shared out as `Share` allows. After a pass the two tables are exchanged. -/
inductive LoopStep [DecidableEq τ] [DecidableEq V] [DecidableEq Λ]
    (Label : (V → Λ) → (V → Λ) → Prop) (Share : (τ → List V) → Prop) (max : ℕ) :
    Config τ V Λ → Config τ V Λ → Prop
  | finish {labels next change i} : ¬(i < max ∧ change = true) →
      LoopStep Label Share max (.head labels next change i) (.finished labels)
  | timeout {labels next change i} : LoopStep Label Share max (.head labels next change i) .timedOut
  | fork {labels next i} (f : V → Λ) (shares : τ → List V) : i < max → Label labels f →
      Share shares →
      LoopStep Label Share max (.head labels next true i) (.pass labels f i (.start next shares))
  | step {labels f i s s'} : Step labels f s s' →
      LoopStep Label Share max (.pass labels f i s) (.pass labels f i s')
  | join {labels f i s} : (∀ w, s.workers w = .done) →
      LoopStep Label Share max (.pass labels f i s) (.head s.next labels s.change (i + 1))

/-- **The passes compute the step `F`** on the set `D` of the items: what the labels there become
depends on the labels there. -/
structure Computes (Label : (V → Λ) → (V → Λ) → Prop) (Share : (τ → List V) → Prop) (D : V → Prop)
    (F : (V → Λ) → V → Λ) : Prop where
  label : ∀ labels f, Label labels f → ∀ x, D x → f x = F labels x
  congr : ∀ L L', (∀ x, D x → L x = L' x) → ∀ x, D x → F L x = F L' x
  cover : ∀ shares, Share shares → ∀ x, D x → ∃ w, x ∈ shares w

/-- **A store takes the flag down.** -/
def Config.Lowers : Config τ V Λ → Config τ V Λ → Prop
  | .pass _ _ _ s, .pass _ _ _ s' => s.change = true ∧ s'.change = false
  | _, _ => False

/-- **The invariant** of the loop, on the set `D` of the items. If no store has taken the flag down
then a flag that stayed down means that no label changed. -/
def Config.Inv (D : V → Prop) (F : (V → Λ) → V → Λ) (L₀ : V → Λ) (max : ℕ) (kept : Prop) :
    Config τ V Λ → Prop
  | .head labels _ change i => i ≤ max ∧ (∀ x, D x → labels x = F^[i] L₀ x) ∧
      (change = false → 0 < i) ∧ (kept → change = false → ∀ x, D x → F labels x = labels x)
  | .pass labels f i s => i < max ∧ (∀ x, D x → labels x = F^[i] L₀ x) ∧
      (∀ x, D x → f x = F labels x) ∧ ∃ shares : τ → List V,
        (∀ x, D x → ∃ w, x ∈ shares w) ∧ Written f shares s ∧ (kept → Kept labels f shares s)
  | .finished labels => ∃ k ≤ max, (0 < max → 0 < k) ∧ (∀ x, D x → labels x = F^[k] L₀ x) ∧
      (kept → ∀ x, D x → labels x = F^[max] L₀ x)
  | .timedOut => True

/-- In a pass one worker has all the items. -/
def Config.Alone : Config τ V Λ → Prop
  | .pass _ _ _ s => SharedFlag.Alone s
  | _ => True

/-- How a run ends: its time is over, or the labels have the property `Q`. -/
def End (Q : (V → Λ) → Prop) (x : Config τ V Λ) : Prop :=
  x = .timedOut ∨ ∃ labels, x = .finished labels ∧ Q labels

section Loop

variable [DecidableEq τ] [DecidableEq V] [DecidableEq Λ] {Label : (V → Λ) → (V → Λ) → Prop}
  {Share : (τ → List V) → Prop} {max : ℕ} {D : V → Prop} {F : (V → Λ) → V → Λ} {L₀ next : V → Λ}
  {kept : Prop} {x y : Config τ V Λ}

omit [DecidableEq τ] [DecidableEq V] [DecidableEq Λ] in
theorem Config.Inv.head (next : V → Λ) :
    Config.Inv D F L₀ max kept (.head (τ := τ) L₀ next true 0) :=
  ⟨Nat.zero_le _, fun _ _ => rfl, nofun, nofun⟩

omit [DecidableEq τ] [DecidableEq V] [DecidableEq Λ] in
/-- The labels of a fixed point are those of every later step. -/
theorem iterate_eq_of_le (hF : Computes Label Share D F) {L : V → Λ} {k : ℕ}
    (hL : ∀ x, D x → L x = F^[k] L₀ x) (hfix : ∀ x, D x → F L x = L x) {m : ℕ} (hkm : k ≤ m) :
    ∀ x, D x → L x = F^[m] L₀ x := by
  intro x hx
  have hagain := iterate_eq_of_fixed hF.congr hfix (fun x hx => (hL x hx).symm) (m - k) x hx
  rw [← hagain, ← Function.iterate_add_apply, Nat.sub_add_cancel hkm]

/-- **Each step of the loop** keeps the invariant. -/
theorem LoopStep.inv (hF : Computes Label Share D F)
    (h : x.Inv D F L₀ max kept) (hs : LoopStep Label Share max x y) (hlow : kept → ¬x.Lowers y) :
    y.Inv D F L₀ max kept := by
  cases hs with
  | @finish labels next change i hstop =>
    obtain ⟨hle, hval, hpos, hfix⟩ := h
    refine ⟨i, hle, fun hmax => ?_, hval, fun hk x hx => ?_⟩
    · by_cases hi : i < max
      · exact hpos (by simpa using fun hc => hstop ⟨hi, hc⟩)
      · omega
    · by_cases hi : i < max
      · have hdown : change = false := by simpa using fun hc => hstop ⟨hi, hc⟩
        exact iterate_eq_of_le hF hval (hfix hk hdown) hle x hx
      · obtain rfl : i = max := by omega
        exact hval x hx
  | timeout => trivial
  | @fork labels next i f shares hi hf hsh =>
    exact ⟨hi, h.2.1, hF.label labels f hf, shares, hF.cover shares hsh, .start next,
      fun _ => .start next⟩
  | @step labels f i s s' hs =>
    obtain ⟨hi, hval, hf, shares, hcover, hwritten, hkept⟩ := h
    exact ⟨hi, hval, hf, shares, hcover, hs.written hwritten,
      fun hk => hs.kept hwritten (hkept hk) (hlow hk)⟩
  | @join labels f i s hdone =>
    obtain ⟨hi, hval, hf, shares, hcover, hwritten, hkept⟩ := h
    have hnext : ∀ x, D x → s.next x = F labels x := fun x hx =>
      (hwritten.next_eq hdone (hcover x hx)).trans (hf x hx)
    refine ⟨hi, fun x hx => ?_, fun _ => Nat.succ_pos i, fun hk hdown x hx => ?_⟩
    · rw [hnext x hx, Function.iterate_succ_apply']
      exact hF.congr _ _ hval x hx
    · rw [hnext x hx]
      -- no label changed in the pass
      refine hF.congr _ _ (fun z hz => ?_) x hx
      rw [hnext z hz, ← hf z hz, (hkept hk).eq_of_down hdone hdown (hcover z hz)]

/-- **One worker** does not take the flag down. -/
theorem LoopStep.alone (hshare : ∀ shares, Share shares → ∃ w, ∀ j ≠ w, shares j = [])
    (h : x.Alone) (hs : LoopStep Label Share max x y) : ¬x.Lowers y ∧ y.Alone := by
  cases hs with
  | finish _ => exact ⟨id, trivial⟩
  | timeout => exact ⟨id, trivial⟩
  | @fork labels next i f shares _ _ hsh =>
    obtain ⟨w, hw⟩ := hshare shares hsh
    refine ⟨id, w, fun j hj => ?_, nofun⟩
    simp only [State.start, hw j hj]
    rfl
  | step hs => exact hs.alone h
  | join _ => exact ⟨id, trivial⟩

/-- A bound of the steps that are left. -/
def Config.measure [Fintype τ] (max : ℕ) : Config τ V Λ → ℕ ×ₗ ℕ
  | .head _ _ _ i => toLex (2 * (max - i) + 2, 0)
  | .pass _ _ i s => toLex (2 * (max - i) + 1, ∑ w, (s.workers w).weight)
  | .finished _ => toLex (0, 0)
  | .timedOut => toLex (0, 0)

/-- Each step of the loop lowers the bound. -/
theorem LoopStep.measure_lt [Fintype τ] (h : x.Inv D F L₀ max kept)
    (hs : LoopStep Label Share max x y) : y.measure max < x.measure max := by
  cases hs with
  | finish _ => exact Prod.Lex.toLex_lt_toLex.mpr (.inl (Nat.succ_pos _))
  | timeout => exact Prod.Lex.toLex_lt_toLex.mpr (.inl (Nat.succ_pos _))
  | fork f shares _ _ _ => exact Prod.Lex.toLex_lt_toLex.mpr (.inl (Nat.lt_succ_self _))
  | step hs => exact Prod.Lex.toLex_lt_toLex.mpr (.inr ⟨rfl, hs.weight_lt⟩)
  | @join labels f i s _ =>
    have hi : i < max := h.1
    refine Prod.Lex.toLex_lt_toLex.mpr (.inl ?_)
    change 2 * (max - (i + 1)) + 2 < 2 * (max - i) + 1
    omega

/-- The end of a run. -/
theorem Config.Inv.final (h : x.Inv D F L₀ max kept) (hno : ∀ y, ¬LoopStep Label Share max x y) :
    End (fun labels => Config.Inv D F L₀ max kept (.finished (τ := τ) labels)) x := by
  cases x with
  | head labels next change i => exact absurd .timeout (hno _)
  | pass labels f i s =>
    by_cases hdone : ∀ w, s.workers w = .done
    · exact absurd (.join hdone) (hno _)
    · push Not at hdone
      obtain ⟨w, hw⟩ := hdone
      obtain ⟨s', hs'⟩ := exists_step labels f hw
      exact absurd (.step hs') (hno _)
  | finished labels => exact .inr ⟨labels, rfl, h⟩
  | timedOut => exact .inl rfl

/-! ### Every run -/

/-- **Every run of the loop ends**, with the labels of some step. -/
theorem endsIn_iterate [Fintype τ]
    (hF : Computes Label Share D F) (next : V → Λ) :
    EndsIn (LoopStep Label Share max)
      (End fun labels => ∃ k ≤ max, (0 < max → 0 < k) ∧ ∀ x, D x → labels x = F^[k] L₀ x)
      (.head (τ := τ) L₀ next true 0) := by
  have hend : EndsIn (LoopStep Label Share max)
      (End fun labels => Config.Inv D F L₀ max False (.finished (τ := τ) labels))
      (.head (τ := τ) L₀ next true 0) :=
    endsIn_of_invariant (Config.measure max)
      (fun x y h hs => ⟨hs.inv hF h False.elim, hs.measure_lt h⟩)
      (fun x h hno => h.final hno) (.head next)
  refine hend.imp fun x hx => hx.imp_right ?_
  rintro ⟨labels, rfl, k, hk, hpos, hval, -⟩
  exact ⟨labels, rfl, k, hk, hpos, hval⟩

/-- **Runs in which no store takes the flag down** end with the labels of the last step. -/
theorem iterate_of_kept (hF : Computes Label Share D F) {labels : V → Λ}
    (h : Relation.ReflTransGen (fun x y => LoopStep Label Share max x y ∧ ¬x.Lowers y)
      (.head (τ := τ) L₀ next true 0) (.finished labels)) :
    ∀ x, D x → labels x = F^[max] L₀ x := by
  obtain ⟨k, -, -, -, hval⟩ := reachable_invariant (I := Config.Inv D F L₀ max True)
    (.head next) (fun x y hx hs => hs.1.inv hF hx fun _ => hs.2) h
  exact hval trivial

/-- **If one worker has all the items** then every run ends with the labels of the last step. -/
theorem endsIn_of_alone [Fintype τ]
    (hF : Computes Label Share D F)
    (halone : ∀ shares, Share shares → ∃ w, ∀ j ≠ w, shares j = []) (next : V → Λ) :
    EndsIn (LoopStep Label Share max) (End fun labels => ∀ x, D x → labels x = F^[max] L₀ x)
      (.head (τ := τ) L₀ next true 0) := by
  have hend : EndsIn (LoopStep Label Share max)
      (End fun labels => Config.Inv D F L₀ max True (.finished (τ := τ) labels))
      (.head (τ := τ) L₀ next true 0) := by
    refine endsIn_of_invariant (I := fun x => x.Inv D F L₀ max True ∧ x.Alone) (Config.measure max)
      (fun x y h hs => ?_) (fun x h hno => h.1.final hno) ⟨.head next, trivial⟩
    obtain ⟨hlow, hy⟩ := hs.alone halone h.2
    exact ⟨⟨hs.inv hF h.1 fun _ => hlow, hy⟩, hs.measure_lt h.1⟩
  refine hend.imp fun x hx => hx.imp_right ?_
  rintro ⟨labels, rfl, k, -, -, -, hval⟩
  exact ⟨labels, rfl, hval trivial⟩

/-! ### Runs that stop early -/

/-- A run of a pass is a run of the loop. -/
theorem reflTransGen_pass {labels f : V → Λ} {i : ℕ} {s s' : State τ V Λ}
    (h : Relation.ReflTransGen (Step labels f) s s') :
    Relation.ReflTransGen (LoopStep Label Share max) (.pass labels f i s) (.pass labels f i s') :=
  h.lift _ fun _ _ hs => .step hs

/-- A run reaches the head of the iteration `i`. -/
def Reaches (Label : (V → Λ) → (V → Λ) → Prop) (Share : (τ → List V) → Prop) (max : ℕ)
    (D : V → Prop) (F : (V → Λ) → V → Λ) (L₀ next : V → Λ) (i : ℕ) (labels next₀ : V → Λ)
    (change : Bool) : Prop :=
  Relation.ReflTransGen (LoopStep Label Share max) (.head (τ := τ) L₀ next true 0)
    (.head labels next₀ change i) ∧ ∀ x, D x → labels x = F^[i] L₀ x

/-- A run reaches the end. -/
def Finishes (Label : (V → Λ) → (V → Λ) → Prop) (Share : (τ → List V) → Prop) (max : ℕ)
    (D : V → Prop) (F : (V → Λ) → V → Λ) (L₀ next : V → Λ) (k : ℕ) : Prop :=
  ∃ labels, Relation.ReflTransGen (LoopStep Label Share max) (.head (τ := τ) L₀ next true 0)
    (.finished labels) ∧ ∀ x, D x → labels x = F^[k] L₀ x

section EarlyStop

variable {labels next₀ f : V → Λ} {shares : τ → List V} {i k : ℕ} {w₀ w₁ : τ}

/-- A run goes on with a pass. -/
theorem Reaches.pass (hF : Computes Label Share D F)
    (h : Reaches Label Share max D F L₀ next i labels next₀ true) (hi : i < max)
    (hf : Label labels f) (hshares : Share shares) {s : State τ V Λ}
    (hrun : Relation.ReflTransGen (Step labels f) (.start next₀ shares) s)
    (hdone : ∀ w, s.workers w = .done) :
    Reaches Label Share max D F L₀ next (i + 1) s.next labels s.change := by
  obtain ⟨hreach, hval⟩ := h
  have hwritten : Written f shares s :=
    reachable_invariant (Written.start next₀) (fun _ _ h hs => hs.written h) hrun
  refine ⟨((hreach.tail (.fork f shares hi hf hshares)).trans (reflTransGen_pass hrun)).tail
    (.join hdone), fun x hx => ?_⟩
  rw [hwritten.next_eq hdone (hF.cover shares hshares x hx), hF.label labels f hf x hx,
    Function.iterate_succ_apply']
  exact hF.congr _ _ hval x hx

/-- With the flag down the loop stops. -/
theorem Reaches.finishes (h : Reaches (τ := τ) Label Share max D F L₀ next i labels next₀ false) :
    Finishes (τ := τ) Label Share max D F L₀ next i :=
  ⟨labels, h.1.tail (.finish (by simp)), h.2⟩

/-- **A run that loses no update** reaches each iteration, or ends since nothing changes any
more. -/
theorem reaches_or_finishes (L₀ next : V → Λ) (hF : Computes Label Share D F)
    (hexists : ∀ labels, ∃ f, Label labels f) (hshares : Share shares) (hne : w₀ ≠ w₁)
    (hothers : ∀ j, j ≠ w₀ → j ≠ w₁ → shares j = []) (hik : i ≤ k) (hk : k < max) :
    (∃ labels next₀, Reaches (τ := τ) Label Share max D F L₀ next i labels next₀ true) ∨
      Finishes (τ := τ) Label Share max D F L₀ next (k + 1) := by
  induction i with
  | zero => exact .inl ⟨L₀, next, .refl, fun _ _ => rfl⟩
  | succ i ih =>
    rcases ih (by omega) with ⟨labels, next₀, hreach⟩ | hearly
    · obtain ⟨f, hf⟩ := hexists labels
      obtain ⟨s, hrun, hdone, hchange⟩ := exists_run_pair labels f hne hothers next₀
      have hpass := hreach.pass hF (by omega) hf hshares hrun hdone
      cases hflag : s.change with
      | true =>
        rw [hflag] at hpass
        exact .inl ⟨_, _, hpass⟩
      | false =>
        rw [hflag] at hpass hchange
        obtain ⟨h₀, h₁⟩ := Bool.or_eq_false_iff.mp hchange.symm
        -- no item has a new label
        have hfix : ∀ x, D x → labels x = F labels x := by
          intro x hx
          obtain ⟨w, hw⟩ := hF.cover shares hshares x hx
          rw [← hF.label labels f hf x hx]
          by_cases hw₀ : w = w₀
          · simpa using List.any_eq_false.mp h₀ x (hw₀ ▸ hw)
          · by_cases hw₁ : w = w₁
            · simpa using List.any_eq_false.mp h₁ x (hw₁ ▸ hw)
            · rw [hothers w hw₀ hw₁] at hw
              exact absurd hw List.not_mem_nil
        have hagain : ∀ x, D x → s.next x = labels x := by
          intro x hx
          rw [hpass.2 x hx, Function.iterate_succ_apply', hfix x hx]
          exact hF.congr _ _ (fun z hz => (hreach.2 z hz).symm) x hx
        obtain ⟨labels', hrun', hval'⟩ := hpass.finishes
        refine .inr ⟨labels', hrun', fun x hx => ?_⟩
        rw [hval' x hx, ← hpass.2 x hx]
        refine iterate_eq_of_le hF hpass.2 (fun y hy => ?_) (by omega) x hx
        rw [hagain y hy, hfix y hy]
        exact hF.congr _ _ hagain y hy
    · exact .inr hearly

/-- **The loop may stop after a step that keeps the labels of one share**, although it changes
others. -/
theorem exists_earlyStop (hF : Computes Label Share D F) (hexists : ∀ labels, ∃ f, Label labels f)
    (hshares : Share shares) (hne : w₀ ≠ w₁) (hothers : ∀ j, j ≠ w₀ → j ≠ w₁ → shares j = [])
    (hitems : shares w₀ ≠ []) (hD : ∀ x ∈ shares w₀, D x) (hk : k < max)
    (hsame : ∀ x ∈ shares w₀, F^[k + 1] L₀ x = F^[k] L₀ x) (next : V → Λ) :
    Finishes (τ := τ) Label Share max D F L₀ next (k + 1) := by
  rcases reaches_or_finishes L₀ next hF hexists hshares hne hothers le_rfl hk with
    ⟨labels, next₀, hreach⟩ | hearly
  · obtain ⟨f, hf⟩ := hexists labels
    have hkeep : ∀ x ∈ shares w₀, labels x = f x := by
      intro x hx
      rw [hF.label labels f hf x (hD x hx), hF.congr _ _ hreach.2 x (hD x hx),
        ← Function.iterate_succ_apply' F, hsame x hx, hreach.2 x (hD x hx)]
    obtain ⟨s, hrun, hdone, hdown⟩ := exists_run_lost labels f hne hothers hitems
      hkeep next₀
    have hpass := hreach.pass hF hk hf hshares hrun hdone
    rw [hdown] at hpass
    exact hpass.finishes
  · exact hearly

end EarlyStop

end Loop

end SharedFlag

end Foundation
