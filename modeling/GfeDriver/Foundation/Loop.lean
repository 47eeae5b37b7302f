import Mathlib.Tactic

/-!
# Loops with fuel, and folds with a prefix invariant

A `while` loop over an explicit state is a fuelled iteration: it answers `none` when the fuel
is spent before the condition fails, so "the loop terminates" is the statement that some fuel
gives `some` state. The two total-correctness rules below turn an invariant and a variant
into that statement; a `for` loop over a list is a fold, and its invariant speaks of the
prefix already visited.

## Main definitions

* `whileLoop cond body fuel s`: iterate `body` while `cond` holds
* `doWhile cond body fuel s`: the same, with the body executed once before the first test
* `AlongFold f P s l`: a property holds at every item of a fold

## Main results

* `whileLoop_invariant`: the invariant rule
* `whileLoop_total`: invariant and natural-number variant give termination within the variant
* `whileLoop_total_of_sim`: the same with the variant of a program that the loop simulates
* `whileLoop_total_of_wf`: the same for a well-founded variant, with some sufficient fuel
* `foldl_prefix`, `foldlM_prefix`, `foldlM_prefix_fuel`: the invariant rule of a `for` loop
* `foldlM_invariant`: the invariant rule of a `for` loop that ran to its end
* `foldlM_sim`: the simulation rule of a `for` loop
* `foldlM_eq_error_iff`: a loop that raises does so at one item
* `foldlM_decoded_iff`: a loop over encoded items
* `foldl_update`, `foldlM_update_fuel`: loops that store a value under each key
* `foldl_add`, `foldlM_add`: loops that add up
* `alongFold_iff`: every item meets a bound exactly when the final state does
* `alongFold_congr`: properties that agree under an invariant agree along a fold
-/

namespace Foundation

universe u v

variable {σ : Type u} {α : Type v}

/-- `while (cond s) s := body s`, given up when the fuel is spent. A body may fail. -/
def whileLoop (cond : σ → Bool) (body : σ → Option σ) : ℕ → σ → Option σ
  | 0, _ => none
  | fuel + 1, s => if cond s then (body s).bind (whileLoop cond body fuel) else some s

/-- `do s := body s while (cond s)`. -/
def doWhile (cond : σ → Bool) (body : σ → Option σ) (fuel : ℕ) (s : σ) : Option σ :=
  (body s).bind (whileLoop cond body fuel)

variable {cond : σ → Bool} {body : σ → Option σ}

/-- One unit of fuel is for the first step. -/
theorem enough_succ {f : ℕ → Option σ} {r : Option σ}
    (h : ∃ k, ∀ fuel, k ≤ fuel → f (fuel + 1) = r) : ∃ k, ∀ fuel, k ≤ fuel → f fuel = r := by
  obtain ⟨k, hk⟩ := h
  refine ⟨k + 1, fun fuel hfuel => ?_⟩
  obtain ⟨f', rfl⟩ : ∃ f', fuel = f' + 1 := ⟨fuel - 1, by omega⟩
  exact hk f' (by omega)

theorem whileLoop_of_not {s : σ} (h : cond s = false) (fuel : ℕ) :
    whileLoop cond body (fuel + 1) s = some s := by
  simp [whileLoop, h]

theorem whileLoop_of_cond {s s' : σ} (h : cond s = true) (hb : body s = some s') (fuel : ℕ) :
    whileLoop cond body (fuel + 1) s = whileLoop cond body fuel s' := by
  simp [whileLoop, h, hb]

/-- A loop that ends, from its first iteration on. -/
theorem exists_of_whileLoop_eq_some {fuel : ℕ} {s t : σ} (h : whileLoop cond body fuel s = some t)
    (hc : cond s = true) :
    ∃ fuel' s', body s = some s' ∧ whileLoop cond body fuel' s' = some t := by
  cases fuel with
  | zero => cases h
  | succ fuel =>
    cases hb : body s with
    | none => simp [whileLoop, hc, hb] at h
    | some s' => exact ⟨fuel, s', rfl, whileLoop_of_cond hc hb fuel ▸ h⟩

/-- A loop that ends at once. -/
theorem eq_of_whileLoop_eq_some {fuel : ℕ} {s t : σ} (h : whileLoop cond body fuel s = some t)
    (hc : cond s = false) : s = t := by
  cases fuel with
  | zero => cases h
  | succ fuel => exact Option.some.inj ((whileLoop_of_not hc fuel).symm.trans h)

/-- **Partial correctness.** What every iteration keeps holds after the loop. -/
theorem whileLoop_invariant (I : σ → Prop)
    (step : ∀ s s', I s → cond s = true → body s = some s' → I s') :
    ∀ (fuel : ℕ) (s s' : σ), I s → whileLoop cond body fuel s = some s' →
      I s' ∧ cond s' = false := by
  intro fuel
  induction fuel with
  | zero => intro s s' _ h; cases h
  | succ fuel ih =>
    intro s s' hs h
    cases hc : cond s with
    | false =>
      rw [whileLoop_of_not hc] at h
      cases h
      exact ⟨hs, hc⟩
    | true =>
      cases hb : body s with
      | none => simp [whileLoop, hc, hb] at h
      | some s₁ =>
        rw [whileLoop_of_cond hc hb] at h
        exact ih s₁ s' (step s s₁ hs hc hb) h

/-- All fuels that are enough agree on the final state. -/
theorem whileLoop_unique {fuel fuel' : ℕ} {s t t' : σ} (h : whileLoop cond body fuel s = some t)
    (h' : whileLoop cond body fuel' s = some t') : t = t' := by
  induction fuel generalizing fuel' s with
  | zero => cases h
  | succ fuel ih =>
    cases fuel' with
    | zero => cases h'
    | succ fuel' =>
      cases hc : cond s with
      | false =>
        rw [whileLoop_of_not hc] at h h'
        exact Option.some.inj (h.symm.trans h')
      | true =>
        cases hb : body s with
        | none => simp [whileLoop, hc, hb] at h
        | some s₁ =>
          rw [whileLoop_of_cond hc hb] at h h'
          exact ih h h'

/-- **Total correctness with a natural-number variant.** Every fuel above the variant is
enough. -/
theorem whileLoop_total (I : σ → Prop) (m : σ → ℕ)
    (step : ∀ s, I s → cond s = true → ∃ s', body s = some s' ∧ I s' ∧ m s' < m s) :
    ∀ (fuel : ℕ) (s : σ), I s → m s < fuel →
      ∃ s', whileLoop cond body fuel s = some s' ∧ I s' ∧ cond s' = false := by
  intro fuel
  induction fuel with
  | zero => intro s _ h; exact absurd h (Nat.not_lt_zero _)
  | succ fuel ih =>
    intro s hs hm
    cases hc : cond s with
    | false => exact ⟨s, whileLoop_of_not hc fuel, hs, hc⟩
    | true =>
      -- one iteration, which takes one unit of fuel and lowers the measure
      obtain ⟨s₁, hb, hs₁, hlt⟩ := step s hs hc
      obtain ⟨s', hw, hI, hn⟩ := ih s₁ hs₁ (by omega)
      exact ⟨s', by rw [whileLoop_of_cond hc hb, hw], hI, hn⟩

/-- **Total correctness by a simulation**: the loop terminates when its states stand in a relation
to those of another program, whose variant each iteration lowers. -/
theorem whileLoop_total_of_sim {τ : Type v} (R : σ → τ → Prop) (m : τ → ℕ)
    (step : ∀ s t, R s t → cond s = true → ∃ s' t', body s = some s' ∧ R s' t' ∧ m t' < m t) :
    ∀ (fuel : ℕ) (s : σ) (t : τ), R s t → m t < fuel →
      ∃ s' t', whileLoop cond body fuel s = some s' ∧ R s' t' ∧ cond s' = false := by
  intro fuel
  induction fuel with
  | zero => intro s t _ h; exact absurd h (Nat.not_lt_zero _)
  | succ fuel ih =>
    intro s t hs hm
    cases hc : cond s with
    | false => exact ⟨s, t, whileLoop_of_not hc fuel, hs, hc⟩
    | true =>
      obtain ⟨s₁, t₁, hb, hs₁, hlt⟩ := step s t hs hc
      obtain ⟨s', t', hw, hR, hn⟩ := ih s₁ t₁ hs₁ (by omega)
      exact ⟨s', t', by rw [whileLoop_of_cond hc hb, hw], hR, hn⟩

/-- **Total correctness with a well-founded variant.** The variant gives no bound, so the
conclusion is that all large enough fuels agree on one final state. -/
theorem whileLoop_total_of_wf (I : σ → Prop) {r : σ → σ → Prop} (hr : WellFounded r)
    (step : ∀ s, I s → cond s = true → ∃ s', body s = some s' ∧ I s' ∧ r s' s) (s : σ)
    (hs : I s) :
    ∃ s', I s' ∧ cond s' = false ∧
      ∃ k, ∀ fuel, k ≤ fuel → whileLoop cond body fuel s = some s' := by
  induction s using hr.induction with
  | _ s ih =>
    cases hc : cond s with
    | false =>
      refine ⟨s, hs, hc, 1, fun fuel hf => ?_⟩
      obtain ⟨f, rfl⟩ : ∃ f, fuel = f + 1 := ⟨fuel - 1, by omega⟩
      exact whileLoop_of_not hc f
    | true =>
      obtain ⟨s₁, hb, hs₁, hlt⟩ := step s hs hc
      obtain ⟨s', hI, hn, k, hk⟩ := ih s₁ hlt hs₁
      -- one unit of fuel more than the rest of the loop needs
      refine ⟨s', hI, hn, k + 1, fun fuel hf => ?_⟩
      obtain ⟨f, rfl⟩ : ∃ f, fuel = f + 1 := ⟨fuel - 1, by omega⟩
      rw [whileLoop_of_cond hc hb]
      exact hk f (by omega)

/-- **The invariant rule of a `for` loop**: `P done s` holds of the visited prefix `done` and
the state `s` reached after it. -/
theorem foldl_prefix {f : σ → α → σ} (P : List α → σ → Prop) {l : List α} {s : σ}
    (init : P [] s)
    (step : ∀ done x rest s, l = done ++ x :: rest → P done s → P (done ++ [x]) (f s x)) :
    P l (l.foldl f s) := by
  -- the induction is on what is left of the list, with the part that is done generalized
  suffices h : ∀ done rest s, l = done ++ rest → P done s → P l (rest.foldl f s) from
    h [] l s rfl init
  intro done rest
  induction rest generalizing done with
  | nil =>
    intro s hl hs
    rw [List.append_nil] at hl
    exact hl ▸ hs
  | cons x rest ih =>
    intro s hl hs
    exact ih (done ++ [x]) (f s x) (by simp [hl]) (step done x rest s hl hs)

/-- **The same for a loop whose body may fail**: it runs to its end when no iteration fails under
the invariant. -/
theorem foldlM_prefix {f : σ → α → Option σ} (P : List α → σ → Prop) {l : List α} {s : σ}
    (init : P [] s)
    (step : ∀ done x rest s, l = done ++ x :: rest → P done s →
      ∃ s', f s x = some s' ∧ P (done ++ [x]) s') :
    ∃ s', l.foldlM f s = some s' ∧ P l s' := by
  suffices h : ∀ done rest s, l = done ++ rest → P done s →
      ∃ s', rest.foldlM f s = some s' ∧ P l s' from h [] l s rfl init
  intro done rest
  induction rest generalizing done with
  | nil =>
    intro s hl hs
    rw [List.append_nil] at hl
    exact ⟨s, rfl, hl ▸ hs⟩
  | cons x rest ih =>
    intro s hl hs
    obtain ⟨s₁, hf, hs₁⟩ := step done x rest s hl hs
    obtain ⟨s', hrest, hs'⟩ := ih (done ++ [x]) s₁ (by simp [hl]) hs₁
    exact ⟨s', by simp [List.foldlM_cons, hf, hrest], hs'⟩

/-- **The same for a body with loops of its own**: all large enough fuels agree on the final
state. -/
theorem foldlM_prefix_fuel {f : ℕ → σ → α → Option σ} (P : List α → σ → Prop) {l : List α} {s : σ}
    (init : P [] s)
    (step : ∀ done x rest s, l = done ++ x :: rest → P done s →
      ∃ s', P (done ++ [x]) s' ∧ ∃ k, ∀ fuel, k ≤ fuel → f fuel s x = some s') :
    ∃ s', P l s' ∧ ∃ k, ∀ fuel, k ≤ fuel → l.foldlM (f fuel) s = some s' := by
  suffices h : ∀ done rest s, l = done ++ rest → P done s →
      ∃ s', P l s' ∧ ∃ k, ∀ fuel, k ≤ fuel → rest.foldlM (f fuel) s = some s' from h [] l s rfl init
  intro done rest
  induction rest generalizing done with
  | nil =>
    intro s hl hs
    rw [List.append_nil] at hl
    exact ⟨s, hl ▸ hs, 0, fun _ _ => rfl⟩
  | cons x rest ih =>
    intro s hl hs
    obtain ⟨s₁, hs₁, k₁, hk₁⟩ := step done x rest s hl hs
    obtain ⟨s', hs', k, hk⟩ := ih (done ++ [x]) s₁ (by simp [hl]) hs₁
    refine ⟨s', hs', max k₁ k, fun fuel hfuel => ?_⟩
    rw [List.foldlM_cons, hk₁ fuel (le_of_max_le_left hfuel)]
    exact hk fuel (le_of_max_le_right hfuel)

/-- A loop that stores a value under each key, when each value takes a loop of its own. -/
theorem foldlM_update_fuel [DecidableEq α] {β : Type v} {f : ℕ → α → Option β} {value : α → β}
    {l : List α} (h : ∀ x ∈ l, ∃ k, ∀ fuel, k ≤ fuel → f fuel x = some (value x)) (g : α → β) :
    ∃ k, ∀ fuel, k ≤ fuel →
      l.foldlM (fun g x => (f fuel x).map (Function.update g x)) g =
        some fun x => if x ∈ l then value x else g x := by
  obtain ⟨g', hg', hfuel⟩ := foldlM_prefix_fuel
    (fun done g' => g' = fun x => if x ∈ done then value x else g x) (l := l)
    (f := fun fuel g x => (f fuel x).map (Function.update g x)) (s := g) (by simp) (by
      rintro done x rest g' hl rfl
      obtain ⟨k, hk⟩ := h x (hl ▸ List.mem_append_right _ List.mem_cons_self)
      refine ⟨_, ?_, k, fun fuel hfuel => by rw [hk fuel hfuel, Option.map_some]⟩
      funext y
      by_cases hy : y = x
      · subst hy
        simp
      · simp [hy])
  exact hg' ▸ hfuel

/-- **A loop that ran to its end**: the invariant holds behind it, and each iteration went through
under the invariant. -/
theorem foldlM_invariant {f : σ → α → Option σ} (P : σ → Prop) {l : List α} {s s' : σ}
    (init : P s) (step : ∀ x ∈ l, ∀ s s', P s → f s x = some s' → P s')
    (h : l.foldlM f s = some s') : P s' ∧ ∀ x ∈ l, ∃ s₁ s₂, P s₁ ∧ f s₁ x = some s₂ := by
  induction l generalizing s with
  | nil =>
    obtain rfl := Option.some.inj h
    exact ⟨init, fun x hx => absurd hx List.not_mem_nil⟩
  | cons y l ih =>
    rw [List.foldlM_cons] at h
    obtain ⟨s₁, hy, hrest⟩ := Option.bind_eq_some_iff.mp h
    have hs₁ := step y List.mem_cons_self s s₁ init hy
    obtain ⟨hs', hall⟩ := ih hs₁ (fun x hx => step x (List.mem_cons_of_mem y hx)) hrest
    refine ⟨hs', fun x hx => ?_⟩
    rcases List.mem_cons.mp hx with rfl | hx
    · exact ⟨s, s₁, init, hy⟩
    · exact hall x hx

/-- **A loop whose body may fail, against one that cannot**: it runs to its end when each iteration
simulates one of the other loop. -/
theorem foldlM_sim {τ β : Type v} {f : σ → α → Option σ} {g : τ → β → τ} (R : σ → τ → Prop)
    (e : α → β) {l : List α}
    (step : ∀ x ∈ l, ∀ s t, R s t → ∃ s', f s x = some s' ∧ R s' (g t (e x))) {s : σ} {t : τ}
    (h : R s t) : ∃ s', l.foldlM f s = some s' ∧ R s' ((l.map e).foldl g t) := by
  induction l generalizing s t with
  | nil => exact ⟨s, rfl, h⟩
  | cons x l ih =>
    obtain ⟨s₁, hf, hs₁⟩ := step x List.mem_cons_self s t h
    obtain ⟨s', hrest, hs'⟩ := ih (fun y hy => step y (List.mem_cons_of_mem x hy)) hs₁
    exact ⟨s', by simp [List.foldlM_cons, hf, hrest], hs'⟩

/-- A loop that stores a value under each key, in any order. -/
theorem foldl_update [DecidableEq α] {β : Type v} (f : α → β) (l : List α) (g : α → β) (x : α) :
    l.foldl (fun g y => Function.update g y (f y)) g x = if x ∈ l then f x else g x := by
  induction l generalizing g with
  | nil => simp
  | cons y l ih =>
    rw [List.foldl_cons, ih]
    by_cases hxy : x = y
    · subst hxy
      simp
    · simp [hxy]

/-- A loop that adds up. -/
theorem foldl_add {M : Type u} [AddMonoid M] (l : List α) (f : α → M) :
    l.foldl (fun n x => n + f x) 0 = (l.map f).sum := by
  rw [List.sum_eq_foldl, List.foldl_map]

/-- A loop that adds up what may fail. -/
theorem foldlM_add {M : Type u} [AddMonoid M] {f : M → α → Option M} {g : α → M} {l : List α}
    (h : ∀ x ∈ l, ∀ n, f n x = some (n + g x)) (n : M) :
    l.foldlM f n = some (n + (l.map g).sum) := by
  induction l generalizing n with
  | nil => simp
  | cons x l ih =>
    rw [List.foldlM_cons, h x List.mem_cons_self, List.map_cons, List.sum_cons, ← add_assoc]
    exact ih (fun y hy => h y (List.mem_cons_of_mem x hy)) _

/-- **A loop that raises** does so at one of its items, after the items before it. -/
theorem foldlM_eq_error_iff {ε : Type u} {f : σ → α → Except ε σ} {l : List α} {s : σ} {e : ε} :
    l.foldlM f s = .error e ↔
      ∃ pre x post s', l = pre ++ x :: post ∧ pre.foldlM f s = .ok s' ∧ f s' x = .error e := by
  induction l generalizing s with
  | nil =>
    constructor
    · intro h
      cases h
    · rintro ⟨pre, x, post, s', hl, -, -⟩
      simp at hl
  | cons y l ih =>
    rw [List.foldlM_cons]
    cases hy : f s y with
    | error e' =>
      constructor
      · intro h
        exact ⟨[], y, l, s, rfl, rfl, hy.trans h⟩
      · rintro ⟨pre, x, post, s', hl, hpre, hx⟩
        cases pre with
        | nil =>
          obtain ⟨rfl, rfl⟩ := List.cons.inj hl
          obtain rfl := Except.ok.inj hpre
          exact hy.symm.trans hx
        | cons z pre =>
          obtain ⟨rfl, -⟩ := List.cons.inj hl
          rw [List.foldlM_cons, hy] at hpre
          cases hpre
    | ok s₁ =>
      show l.foldlM f s₁ = .error e ↔ _
      rw [ih]
      constructor
      · rintro ⟨pre, x, post, s', rfl, hpre, hx⟩
        refine ⟨y :: pre, x, post, s', rfl, ?_, hx⟩
        rw [List.foldlM_cons, hy]
        exact hpre
      · rintro ⟨pre, x, post, s', hl, hpre, hx⟩
        cases pre with
        | nil =>
          obtain ⟨rfl, rfl⟩ := List.cons.inj hl
          obtain rfl := Except.ok.inj hpre
          rw [hy] at hx
          cases hx
        | cons z pre =>
          obtain ⟨rfl, hrest⟩ := List.cons.inj hl
          rw [List.foldlM_cons, hy] at hpre
          exact ⟨pre, x, post, s', hrest, hpre, hx⟩

/-- **A loop over encoded items** is the loop over the items, when each of its steps decodes one. -/
theorem foldlM_decoded_iff {ε ε' : Type u} {β : Type v} {f : σ → α → Except ε σ}
    {g : σ → β → Except ε' σ} (R : α → β → Prop)
    (hstep : ∀ s x s', f s x = .ok s' ↔ ∃ y, R x y ∧ g s y = .ok s') {l : List α} {s s' : σ} :
    l.foldlM f s = .ok s' ↔ ∃ m, List.Forall₂ R l m ∧ m.foldlM g s = .ok s' := by
  induction l generalizing s with
  | nil =>
    constructor
    · intro h
      exact ⟨[], .nil, congrArg Except.ok (Except.ok.inj h)⟩
    · rintro ⟨m, hm, h⟩
      obtain rfl := List.forall₂_nil_left_iff.mp hm
      exact congrArg Except.ok (Except.ok.inj h)
  | cons x l ih =>
    rw [List.foldlM_cons]
    constructor
    · intro h
      cases hx : f s x with
      | error e =>
        rw [hx] at h
        cases h
      | ok s₁ =>
        rw [hx] at h
        obtain ⟨y, hxy, hy⟩ := (hstep s x s₁).mp hx
        obtain ⟨m, hm, hrest⟩ := ih.mp h
        refine ⟨y :: m, .cons hxy hm, ?_⟩
        rw [List.foldlM_cons, hy]
        exact hrest
    · rintro ⟨m, hm, h⟩
      obtain ⟨y, m', hxy, hm', rfl⟩ := List.forall₂_cons_left_iff.mp hm
      rw [List.foldlM_cons] at h
      cases hy : g s y with
      | error e =>
        rw [hy] at h
        cases h
      | ok s₁ =>
        rw [hy] at h
        rw [(hstep s x s₁).mpr ⟨y, hxy, hy⟩]
        exact ih.mpr ⟨m', hm', h⟩

/-- The property `P` of the state before an item and of the item holds at every item of a fold. -/
def AlongFold (f : σ → α → σ) (P : σ → α → Prop) : σ → List α → Prop
  | _, [] => True
  | s, x :: l => P s x ∧ AlongFold f P (f s x) l

instance AlongFold.decidable (f : σ → α → σ) (P : σ → α → Prop) [∀ s x, Decidable (P s x)] (s : σ)
    (l : List α) : Decidable (AlongFold f P s l) :=
  match l with
  | [] => inferInstanceAs (Decidable True)
  | x :: l =>
    have := AlongFold.decidable f P (f s x) l
    inferInstanceAs (Decidable (P s x ∧ AlongFold f P (f s x) l))

/-- **Two properties that agree under an invariant** agree along a fold that keeps it. -/
theorem alongFold_congr {f : σ → α → σ} {P Q : σ → α → Prop} (Inv : σ → Prop)
    (hiff : ∀ s x, Inv s → (P s x ↔ Q s x)) (hstep : ∀ s x, Inv s → Q s x → Inv (f s x))
    {s : σ} (hs : Inv s) (l : List α) : AlongFold f P s l ↔ AlongFold f Q s l := by
  induction l generalizing s with
  | nil => exact Iff.rfl
  | cons x l ih =>
    constructor
    · rintro ⟨hP, hrest⟩
      have hQ := (hiff s x hs).mp hP
      exact ⟨hQ, (ih (hstep s x hs hQ)).mp hrest⟩
    · rintro ⟨hQ, hrest⟩
      exact ⟨(hiff s x hs).mpr hQ, (ih (hstep s x hs hQ)).mpr hrest⟩

/-- What holds after an item held before it, and so before the whole fold. -/
theorem of_foldl {f : σ → α → σ} {Within : σ → Prop} {l : List α}
    (hback : ∀ s, ∀ x ∈ l, Within (f s x) → Within s) {s : σ} (h : Within (l.foldl f s)) :
    Within s := by
  induction l generalizing s with
  | nil => exact h
  | cons x l ih =>
    exact hback s x List.mem_cons_self (ih (fun s y hy => hback s y (List.mem_cons_of_mem x hy)) h)

/-- **A bound that an item may break** for good: every item of a fold meets it exactly when it
holds after the fold. -/
theorem alongFold_iff {f : σ → α → σ} {P : σ → α → Prop} (Within : σ → Prop) {l : List α}
    (hback : ∀ s, ∀ x ∈ l, Within (f s x) → Within s)
    (hstep : ∀ s, ∀ x ∈ l, Within s → (P s x ↔ Within (f s x))) {s : σ} (hs : Within s) :
    AlongFold f P s l ↔ Within (l.foldl f s) := by
  induction l generalizing s with
  | nil => exact ⟨fun _ => hs, fun _ => trivial⟩
  | cons x l ih =>
    have hback' : ∀ s, ∀ y ∈ l, Within (f s y) → Within s :=
      fun s y hy => hback s y (List.mem_cons_of_mem x hy)
    have hrest := fun {s} => ih (s := s) hback' fun s y hy => hstep s y (List.mem_cons_of_mem x hy)
    have hx := hstep s x List.mem_cons_self hs
    constructor
    · rintro ⟨hP, hall⟩
      exact (hrest (hx.mp hP)).mp hall
    · intro hend
      have hfx : Within (f s x) := of_foldl hback' hend
      exact ⟨hx.mpr hfx, (hrest hfx).mpr hend⟩

end Foundation
