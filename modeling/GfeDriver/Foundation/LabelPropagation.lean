import Mathlib.Data.List.MinMax
import GfeDriver.Foundation.Loop

/-!
# Synchronous label propagation

Every vertex takes the least of the most frequent labels of its neighbours, all at the same time.
A program computes the label of a vertex by a scan of a histogram that keeps the best entry so far,
and stops after a number of steps or when a step changes no label. The scan finds the same label for
every order of the histogram, and stopping early is harmless, since a step that changes nothing has
reached a fixed point.

## Main definitions

* `IsLeastMode l x`: `x` is the least of the most frequent elements of `l`
* `leastMode l`: this element
* `selectBest`: one step of the scan of a histogram
* `propagate nbr labels`: one synchronous step

## Main results

* `isLeastMode_foldl_selectBest`: the scan of a histogram finds the least mode
* `isLeastMode_foldl_rank`: the scan that compares labels by their ranks
* `iterate_propagate_map`: the steps on two graphs that correspond
* `foldl_sync`: one pass of a program over the vertices
* `whileLoop_sync`: the loop with the early exit computes the iterates of the step
-/

namespace Foundation

universe u v w

/-! ## The least of the most frequent elements -/

section Mode

variable {Λ : Type v} [LinearOrder Λ]

/-- The least of the most frequent elements of a list. -/
structure IsLeastMode (l : List Λ) (x : Λ) : Prop where
  mem : x ∈ l
  le_count : ∀ y ∈ l, l.count y ≤ l.count x
  least : ∀ y ∈ l, l.count y = l.count x → x ≤ y

theorem IsLeastMode.unique {l : List Λ} {x y : Λ} (hx : IsLeastMode l x) (hy : IsLeastMode l y) :
    x = y := by
  have hcount : l.count x = l.count y := le_antisymm (hy.le_count x hx.mem) (hx.le_count y hy.mem)
  exact le_antisymm (hx.least y hy.mem hcount.symm) (hy.least x hx.mem hcount)

theorem IsLeastMode.of_perm {l l' : List Λ} (h : l.Perm l') {x : Λ} (hx : IsLeastMode l x) :
    IsLeastMode l' x := by
  refine ⟨h.mem_iff.mp hx.mem, fun y hy => ?_, fun y hy heq => ?_⟩
  · rw [← h.count_eq, ← h.count_eq]
    exact hx.le_count y (h.mem_iff.mpr hy)
  · rw [← h.count_eq, ← h.count_eq] at heq
    exact hx.least y (h.mem_iff.mpr hy) heq

/-- The least of the most frequent elements, or a default for the empty list. -/
def leastMode [Inhabited Λ] (l : List Λ) : Λ :=
  ((l.filter fun x => ∀ y ∈ l, l.count y ≤ l.count x).min?).getD default

theorem isLeastMode_leastMode [Inhabited Λ] {l : List Λ} (hl : l ≠ []) :
    IsLeastMode l (leastMode l) := by
  set modes := l.filter fun x => ∀ y ∈ l, l.count y ≤ l.count x with hmodes
  have hmem : ∀ x, x ∈ modes ↔ x ∈ l ∧ ∀ y ∈ l, l.count y ≤ l.count x := by
    intro x
    simp [hmodes]
  obtain ⟨x, hx, hmax⟩ := Finset.exists_max_image l.toFinset l.count
    (List.toFinset_nonempty_iff l |>.mpr hl)
  -- some label is the most frequent
  have hne : modes ≠ [] := by
    apply List.ne_nil_of_mem
    rw [hmem]
    exact ⟨List.mem_toFinset.mp hx, fun y hy => hmax y (List.mem_toFinset.mpr hy)⟩
  obtain ⟨m, hm⟩ := Option.isSome_iff_exists.mp (List.isSome_min?_of_ne_nil hne)
  obtain ⟨hmin, hle⟩ := List.min?_eq_some_iff.mp hm
  obtain ⟨hml, hmax⟩ := (hmem m).mp hmin
  have hval : leastMode l = m := by
    rw [leastMode, ← hmodes, hm, Option.getD_some]
  rw [hval]
  -- a label as frequent as the least mode is a mode itself
  refine ⟨hml, hmax, fun y hy heq => hle y ((hmem y).mpr ⟨hy, ?_⟩)⟩
  rw [heq]
  exact hmax

theorem leastMode_eq_of_perm [Inhabited Λ] {l l' : List Λ} (h : l.Perm l') :
    leastMode l = leastMode l' := by
  rcases eq_or_ne l [] with rfl | hl
  · rw [List.nil_perm.mp h]
  · have hl' : l' ≠ [] := fun hc => hl (List.perm_nil.mp (hc ▸ h))
    exact ((isLeastMode_leastMode hl).of_perm h).unique (isLeastMode_leastMode hl')

theorem leastMode_eq_of_forall [Inhabited Λ] {l : List Λ} (hl : l ≠ []) {c : Λ}
    (h : ∀ x ∈ l, x = c) : leastMode l = c :=
  h _ (isLeastMode_leastMode hl).mem

/-! ## The scan of a histogram -/

/-- Keep the better of two entries: the larger count, and among equal counts the lesser label. -/
def selectBest (best entry : Λ × ℕ) : Λ × ℕ :=
  if entry.2 > best.2 ∨ entry.2 = best.2 ∧ entry.1 < best.1 then entry else best

/-- **The scan of a histogram**, in any order, finds the least of the most frequent elements. -/
theorem isLeastMode_foldl_selectBest {l : List Λ} (hl : l ≠ []) {keys : List Λ}
    (hkeys : ∀ x, x ∈ keys ↔ x ∈ l) {init : Λ × ℕ} (hinit : init.2 = 0) :
    IsLeastMode l (keys.foldl (fun best x => selectBest best (x, l.count x)) init).1 := by
  -- after the keys `done`, the best entry is one of them and no other is better
  let P : List Λ → Λ × ℕ → Prop := fun done best =>
    (done = [] → best.2 = 0) ∧ (done ≠ [] → best.1 ∈ done) ∧
      (done ≠ [] → best.2 = l.count best.1) ∧
      ∀ y ∈ done, l.count y ≤ best.2 ∧ (l.count y = best.2 → best.1 ≤ y)
  have hend : P keys (keys.foldl (fun best x => selectBest best (x, l.count x)) init) := by
    apply foldl_prefix P
    · exact ⟨fun _ => hinit, by simp, by simp, by simp⟩
    · rintro done x rest best heq ⟨hzero, hmem, hcount, hbest⟩
      have hx : x ∈ l := by
        rw [← hkeys, heq]
        simp
      have hpos : 0 < l.count x := List.count_pos_iff.mpr hx
      simp only [selectBest]
      split_ifs with hbetter
      · refine ⟨by simp, by simp, by simp, fun y hy => ?_⟩
        rcases List.mem_append.mp hy with hy | hy
        · obtain ⟨hle, hmin⟩ := hbest y hy
          rcases hbetter with hgt | ⟨heq', hlt⟩
          · exact ⟨by omega, fun hc => by omega⟩
          · exact ⟨by omega, fun hc => hlt.le.trans (hmin (hc.trans heq'))⟩
        · obtain rfl := List.mem_singleton.mp hy
          exact ⟨le_refl _, fun _ => le_refl _⟩
      · obtain ⟨hnot, hnot'⟩ := not_or.mp hbetter
        have hdone : done ≠ [] := fun hc => hnot (by rw [hzero hc]; exact hpos)
        refine ⟨by simp, fun _ => List.mem_append_left _ (hmem hdone), fun _ => hcount hdone,
          fun y hy => ?_⟩
        rcases List.mem_append.mp hy with hy | hy
        · exact hbest y hy
        · obtain rfl := List.mem_singleton.mp hy
          refine ⟨not_lt.mp hnot, fun hc => not_lt.mp fun hlt => hnot' ⟨hc, hlt⟩⟩
  obtain ⟨-, hmem, hcount, hbest⟩ := hend
  have hne : keys ≠ [] := by
    obtain ⟨x, hx⟩ := List.exists_mem_of_ne_nil l hl
    exact List.ne_nil_of_mem ((hkeys x).mpr hx)
  refine ⟨(hkeys _).mp (hmem hne), fun y hy => ?_, fun y hy heq => ?_⟩
  · rw [← hcount hne]
    exact (hbest y ((hkeys y).mpr hy)).1
  · exact (hbest y ((hkeys y).mpr hy)).2 (heq.trans (hcount hne).symm)

/-! ### Ranks -/

section Rank

variable {K : Type u} {r : K → Λ} {l : List K}

/-- The ranks of labels occur as often as the labels. -/
theorem count_map_of_injOn [DecidableEq K] (hinj : ∀ x ∈ l, ∀ y ∈ l, r x = r y → x = y) {x : K}
    (hx : x ∈ l) : (l.map r).count (r x) = l.count x := by
  rw [List.count, List.countP_map, List.count]
  refine List.countP_congr fun y hy => ?_
  simp only [Function.comp_apply, beq_iff_eq]
  exact ⟨hinj y hy x hx, fun h => h ▸ rfl⟩

/-- **The scan of a histogram** that compares labels by their ranks. -/
theorem isLeastMode_foldl_rank [DecidableEq K] (hinj : ∀ x ∈ l, ∀ y ∈ l, r x = r y → x = y)
    (hl : l ≠ []) {keys : List K} (hkeys : ∀ x, x ∈ keys ↔ x ∈ l) {init : K × ℕ}
    (hinit : init.2 = 0) :
    IsLeastMode (l.map r) (r (keys.foldl (fun best x =>
      if l.count x > best.2 ∨ l.count x = best.2 ∧ r x < r best.1 then (x, l.count x) else best)
      init).1) := by
  -- the ranks are scanned along with the labels
  have hscan : ∀ ks : List K, (∀ x ∈ ks, x ∈ l) → ∀ best : K × ℕ,
      (r (ks.foldl (fun best x => if l.count x > best.2 ∨ l.count x = best.2 ∧ r x < r best.1 then
        (x, l.count x) else best) best).1 : Λ) =
      ((ks.map r).foldl (fun best x => selectBest best (x, (l.map r).count x))
        (r best.1, best.2)).1 := by
    intro ks hks
    induction ks with
    | nil => exact fun _ => rfl
    | cons x ks ih =>
      intro best
      rw [List.foldl_cons, List.map_cons, List.foldl_cons, selectBest,
        count_map_of_injOn hinj (hks x List.mem_cons_self),
        ih (fun y hy => hks y (List.mem_cons_of_mem x hy))]
      split_ifs <;> rfl
  rw [hscan keys fun x hx => (hkeys x).mp hx]
  refine isLeastMode_foldl_selectBest (by simpa using hl) (fun y => ?_) hinit
  simp only [List.mem_map, hkeys]

/-- The least mode of ranks is the rank of the least mode, when the ranks keep the order. -/
theorem leastMode_map [LinearOrder K] [Inhabited K] [Inhabited Λ] (hl : l ≠ [])
    (hmono : ∀ x ∈ l, ∀ y ∈ l, r x ≤ r y ↔ x ≤ y) :
    leastMode (l.map r) = r (leastMode l) := by
  have hinj : ∀ x ∈ l, ∀ y ∈ l, r x = r y → x = y := fun x hx y hy h =>
    le_antisymm ((hmono x hx y hy).mp h.le) ((hmono y hy x hx).mp h.ge)
  obtain ⟨hmem, hle, hleast⟩ := isLeastMode_leastMode hl
  refine (isLeastMode_leastMode (by simpa using hl)).unique ⟨List.mem_map_of_mem hmem, ?_, ?_⟩
  · intro y hy
    obtain ⟨x, hx, rfl⟩ := List.mem_map.mp hy
    rw [count_map_of_injOn hinj hx, count_map_of_injOn hinj hmem]
    exact hle x hx
  · intro y hy hcount
    obtain ⟨x, hx, rfl⟩ := List.mem_map.mp hy
    rw [count_map_of_injOn hinj hx, count_map_of_injOn hinj hmem] at hcount
    exact (hmono _ hmem x hx).mpr (hleast x hx hcount)

end Rank

end Mode

/-! ## Steps -/

section Steps

variable {V : Type u} {Λ : Type v}

/-- **One synchronous step**: every vertex takes the least of the most frequent labels of its
neighbours. -/
def propagate [LinearOrder Λ] [Inhabited Λ] (nbr : V → List V) (labels : V → Λ) (x : V) : Λ :=
  leastMode ((nbr x).map labels)

/-- The labels of a set closed under neighbours only depend on the labels there. -/
theorem propagate_congr [LinearOrder Λ] [Inhabited Λ] {nbr : V → List V} {D : V → Prop}
    (hclosed : ∀ x, D x → ∀ y ∈ nbr x, D y) {labels labels' : V → Λ}
    (h : ∀ x, D x → labels x = labels' x) (x : V) (hx : D x) :
    propagate nbr labels x = propagate nbr labels' x := by
  unfold propagate
  rw [List.map_congr_left fun y hy => h y (hclosed x hx y hy)]

/-- Steps on two graphs whose neighbours correspond, in any order. -/
theorem iterate_propagate_map {U : Type w} [LinearOrder Λ] [Inhabited Λ] {nbr : V → List V}
    {nbr' : U → List U} {D : U → Prop} (φ : U → V) (hclosed : ∀ x, D x → ∀ y ∈ nbr' x, D y)
    (hnbr : ∀ x, D x → ((nbr' x).map φ).Perm (nbr (φ x))) (L : V → Λ) (n : ℕ) :
    ∀ x, D x → (propagate nbr')^[n] (L ∘ φ) x = (propagate nbr)^[n] L (φ x) := by
  induction n with
  | zero => exact fun _ _ => rfl
  | succ n ih =>
    intro x hx
    rw [Function.iterate_succ_apply', Function.iterate_succ_apply', propagate, propagate,
      List.map_congr_left fun y hy => ih y (hclosed x hx y hy)]
    refine leastMode_eq_of_perm ?_
    have hmap := (hnbr x hx).map ((propagate nbr)^[n] L)
    rwa [List.map_map] at hmap

/-- One pass over the vertices in some order, which writes the new labels and records whether one
of them differs from the current one. -/
theorem foldl_sync [DecidableEq V] [DecidableEq Λ] (cur f next : V → Λ) (order : List V) :
    (∀ x, (order.foldl (fun (acc : (V → Λ) × Bool) x =>
        (Function.update acc.1 x (f x), acc.2 || cur x != f x)) (next, false)).1 x =
      if x ∈ order then f x else next x) ∧
    ((order.foldl (fun (acc : (V → Λ) × Bool) x =>
        (Function.update acc.1 x (f x), acc.2 || cur x != f x)) (next, false)).2 = false ↔
      ∀ x ∈ order, cur x = f x) := by
  let P : List V → (V → Λ) × Bool → Prop := fun done acc =>
    (∀ x, acc.1 x = if x ∈ done then f x else next x) ∧
      (acc.2 = false ↔ ∀ x ∈ done, cur x = f x)
  -- the vertices visited so far have their new labels
  apply foldl_prefix P
  · exact ⟨by simp, by simp⟩
  · rintro done y rest acc - ⟨hval, hflag⟩
    refine ⟨fun x => ?_, ?_⟩
    · by_cases hxy : x = y
      · subst hxy
        simp
      · simp [hxy, hval]
    · simp only [Bool.or_eq_false_iff, hflag, bne_eq_false_iff_eq, List.mem_append,
        List.mem_singleton, or_imp, forall_and, forall_eq]

/-- Labels that agree on a set with a fixed point there stay so under the step. -/
theorem iterate_eq_of_fixed {f : (V → Λ) → V → Λ} {D : V → Prop}
    (hlocal : ∀ L L', (∀ x, D x → L x = L' x) → ∀ x, D x → f L x = f L' x) {L L₀ : V → Λ}
    (hfix : ∀ x, D x → f L x = L x) (h₀ : ∀ x, D x → L₀ x = L x) (n : ℕ) :
    ∀ x, D x → f^[n] L₀ x = L x := by
  induction n with
  | zero => exact h₀
  | succ n ih =>
    intro x hx
    rw [Function.iterate_succ_apply', hlocal _ L ih x hx, hfix x hx]

variable {σ : Type w} {cond : σ → Bool} {body : σ → Option σ}

/-- **The loop with the early exit** computes the iterates of the step: it makes `max` steps unless
one of them changes no label. -/
theorem whileLoop_sync (I : σ → Prop) (labels : σ → V → Λ) (steps : σ → ℕ) (change : σ → Bool)
    {f : (V → Λ) → V → Λ} {D : V → Prop} {max : ℕ}
    (hlocal : ∀ L L', (∀ x, D x → L x = L' x) → ∀ x, D x → f L x = f L' x)
    (hcond : ∀ s, I s → (cond s = true ↔ steps s < max ∧ change s = true))
    (hbody : ∀ s, I s → steps s < max → ∃ s', body s = some s' ∧ I s' ∧ steps s' = steps s + 1 ∧
      (∀ x, D x → labels s' x = f (labels s) x) ∧
      (change s' = false → ∀ x, D x → labels s' x = labels s x))
    (s₀ : σ) (hI : I s₀) (hsteps : steps s₀ = 0) (hchange : change s₀ = true) {fuel : ℕ}
    (hfuel : max < fuel) :
    ∃ s, whileLoop cond body fuel s₀ = some s ∧ ∀ x, D x → labels s x = f^[max] (labels s₀) x := by
  let J : σ → Prop := fun s => I s ∧ steps s ≤ max ∧
    (∀ x, D x → labels s x = f^[steps s] (labels s₀) x) ∧
    (change s = false → ∀ x, D x → f (labels s) x = labels s x)
  have hstart : J s₀ := ⟨hI, by omega, fun x _ => by rw [hsteps]; rfl, by simp [hchange]⟩
  have hstep : ∀ s, J s → cond s = true →
      ∃ s', body s = some s' ∧ J s' ∧ max - steps s' < max - steps s := by
    rintro s ⟨hs, hle, hlabels, -⟩ hc
    obtain ⟨hlt, -⟩ := (hcond s hs).mp hc
    obtain ⟨s', hb, hs', hcount, hnext, hsame⟩ := hbody s hs hlt
    refine ⟨s', hb, ⟨hs', by omega, fun x hx => ?_, fun hc' x hx => ?_⟩, by omega⟩
    · rw [hcount, Function.iterate_succ_apply', hnext x hx]
      exact hlocal _ _ hlabels x hx
    · rw [hlocal _ (labels s) (hsame hc') x hx, hnext x hx]
  obtain ⟨s, hrun, ⟨hs, hle, hlabels, hfix⟩, hc⟩ :=
    whileLoop_total J (fun s => max - steps s) hstep fuel s₀ hstart (by omega)
  refine ⟨s, hrun, fun x hx => ?_⟩
  rcases Nat.lt_or_eq_of_le hle with hlt | heq
  · -- the last step changed no label, so the remaining ones would not either
    have hstop : change s = false := by
      by_contra hnot
      have : cond s = true := (hcond s hs).mpr ⟨hlt, by simpa using hnot⟩
      rw [this] at hc
      cases hc
    have hagain := iterate_eq_of_fixed hlocal (hfix hstop) (fun x hx => (hlabels x hx).symm)
      (max - steps s) x hx
    rw [← hagain, ← Function.iterate_add_apply, Nat.sub_add_cancel hle]
  · rw [hlabels x hx, heq]

end Steps

end Foundation
