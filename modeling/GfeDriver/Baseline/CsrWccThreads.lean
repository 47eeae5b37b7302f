import GfeDriver.Baseline.CsrWcc
import GfeDriver.Foundation.Hooking

/-!
# Weakly connected components, with the threads of OpenMP

The loops of `do_wcc` run on several threads, which load and store the entries of `comp` and the
flag without any synchronisation. Here the threads take their steps one load or store at a time, in
any order, and OpenMP shares the vertices of each loop out among them, each once, in any way.

## Main definitions

* `WccConfig`, `WccStep`: `do_wcc` with its threads

## Main results

* `hooked_jumped_stable`: a pass that raised no flag leaves no edge between two components
* `endsIn_components`: every run ends, with the components
-/

namespace GfeDriver

open Foundation Foundation.Hooking

namespace CSR

variable {W : Type}

/-! ## The algorithm -/

/-- `do_wcc`: before the test of the loop, in the hooking loop, in the jumping loop, after the loop,
or after the loop because of the time. -/
inductive WccConfig (τ : Type)
  | head (comp : ℕ → ℕ) (change : Bool)
  | hooking (s : HookState τ)
  | jumping (change : Bool) (s : JumpState τ)
  | finished (comp : ℕ → ℕ)
  | timedOut

/-- **The steps** of `do_wcc`: a thread visits the edges of the vertices in its share in the order
of `m_out_e`. -/
inductive WccStep {τ : Type} [DecidableEq τ] (g : CSR W) : WccConfig τ → WccConfig τ → Prop
  | finish {comp} : WccStep g (.head comp false) (.finished comp)
  | timeout {comp} : WccStep g (.head comp true) .timedOut
  | forkHooking {comp} (shares : τ → List ℕ) : Shared g.numVertices shares →
      WccStep g (.head comp true) (.hooking (.start comp fun w => g.passEdges (shares w)))
  | hook {s s'} : HookStep s s' → WccStep g (.hooking s) (.hooking s')
  | forkJumping {s} (shares : τ → List ℕ) : (∀ w, s.workers w = ⟨.edge, []⟩) →
      Shared g.numVertices shares →
      WccStep g (.hooking s) (.jumping s.change (.start s.comp shares))
  | jump {change s s'} : JumpStep s s' → WccStep g (.jumping change s) (.jumping change s')
  | join {change s} : (∀ w, s.workers w = ⟨.vertex, []⟩) →
      WccStep g (.jumping change s) (.head s.comp change)

/-! ## A pass -/

section Pass

variable {g : CSR W} {comp₀ comp₁ comp₂ : ℕ → ℕ} {E : ℕ × ℕ → Prop}

/-- The edges of a thread. -/
theorem mem_passEdges_iff {order : List ℕ} {e : ℕ × ℕ} :
    e ∈ g.passEdges order ↔ e.1 ∈ order ∧ e.2 ∈ g.outNeighbours e.1 := by
  obtain ⟨u, v⟩ := e
  simp only [passEdges, List.mem_flatMap, List.mem_map, Prod.mk.injEq]
  constructor
  · rintro ⟨u', hu', v', hv', rfl, rfl⟩
    exact ⟨hu', hv'⟩
  · rintro ⟨hu, hv⟩
    exact ⟨u, hu, v, hv, rfl, rfl⟩

/-- **A pass that raised no flag** leaves no edge between two components. -/
theorem hooked_jumped_stable (hg : g.WellFormed) (hstar : g.Star comp₀)
    (hE : ∀ u v, g.Arc u v → E (u, v))
    (hhook : Hooking.Hooked g.Arc g.numVertices E comp₀ comp₁ false)
    (hjump : Jumped g.Arc g.numVertices comp₁ comp₂) (u v : ℕ) (harc : g.Arc u v) :
    comp₂ u = comp₂ v := by
  obtain ⟨rfl, hsettled⟩ := hhook.quiet rfl
  -- all components are roots, so that a settled edge joins equal ones
  have hstable : ∀ u v, g.Arc u v → comp₁ u = comp₁ v := by
    intro u v harc
    refine (hsettled (u, v) (hE u v harc)).resolve_right (not_not.mpr ?_)
    rcases le_total (comp₁ u) (comp₁ v) with hle | hle
    · simp only [max_eq_right hle]
      exact hstar v (hg.arc_lt harc)
    · simp only [max_eq_left hle]
      exact hstar u harc.1
  -- the jumping loop does not move a vertex that points to its root
  have hsame : ∀ n < g.numVertices, comp₂ n = comp₁ n := by
    intro n hn
    have hroot : comp₁ (comp₂ n) = comp₂ n := (hjump.roots _).mp (hjump.star n hn)
    rw [← hroot]
    exact eq_of_connected hstable (hjump.forest.connected n)
  rw [hsame u harc.1, hsame v (hg.arc_lt harc), hstable u v harc]

/-- A pass that raised the flag took a root away. -/
theorem roots_lt_of_hooked (hhook : Hooking.Hooked g.Arc g.numVertices E comp₀ comp₁ true)
    (hjump : Jumped g.Arc g.numVertices comp₁ comp₂) : g.roots comp₂ < g.roots comp₀ := by
  obtain ⟨r, hr, hroot, hnot⟩ := hhook.changed rfl
  exact roots_lt (fun n hn => hhook.roots n ((hjump.roots n).mp hn)) hr hroot
    fun hc => hnot ((hjump.roots r).mp hc)

end Pass

/-! ## Correctness -/

/-- The result: two vertices have the same component exactly when they are connected, and a
component is named after its least vertex. -/
def Components (g : CSR W) (comp : ℕ → ℕ) : Prop :=
  (∀ u v, comp u = comp v ↔ Connected g.Arc u v) ∧
    ∀ v, IsLeast { u | Connected g.Arc u v } (comp v)

/-- How a run ends. -/
def WccEnd {τ : Type} (g : CSR W) (x : WccConfig τ) : Prop :=
  x = .timedOut ∨ ∃ comp, x = .finished comp ∧ g.Components comp

section Run

variable {τ : Type} [DecidableEq τ] {g : CSR W}

theorem endsIn_timedOut : EndsIn (WccStep g) (WccEnd g) (WccConfig.timedOut (τ := τ)) :=
  .intro (fun _ => .inl rfl) nofun

/-- The flag is down, and no edge joins two components. -/
theorem endsIn_finished {comp : ℕ → ℕ} (hforest : Hooking.Forest g.Arc comp)
    (hstable : ∀ u v, g.Arc u v → comp u = comp v) :
    EndsIn (WccStep g) (WccEnd g) (WccConfig.head (τ := τ) comp false) := by
  refine .intro (fun hno => absurd .finish (hno _)) fun y hy => ?_
  cases hy
  refine .intro (fun _ => .inr ⟨comp, rfl, fun u v => ?_, fun v => ?_⟩) nofun
  · exact connected_iff_of_stable hstable (hforest.connected u) (hforest.connected v)
  · exact isLeast_of_stable hstable (hforest.connected v) fun u _ => hforest.le u

variable [Fintype τ]

/-- The jumping loop, and what comes after it. -/
theorem endsIn_jumping {comp₁ : ℕ → ℕ} {change : Bool} (hforest : Hooking.Forest g.Arc comp₁)
    {shares : τ → List ℕ} (hshares : Shared g.numVertices shares)
    (hnext : ∀ comp₂, Jumped g.Arc g.numVertices comp₁ comp₂ →
      EndsIn (WccStep g) (WccEnd g) (WccConfig.head (τ := τ) comp₂ change)) :
    EndsIn (WccStep g) (WccEnd g) (.jumping change (.start comp₁ shares)) := by
  refine (endsIn_jumped hforest hshares).embed (WccConfig.jumping change) (fun s => ?_)
    fun s y hy => ?_
  · by_cases hdone : ∀ w, s.workers w = ⟨.vertex, []⟩
    · exact ⟨_, .join hdone⟩
    · push Not at hdone
      obtain ⟨w, hw⟩ := hdone
      obtain ⟨s', hs'⟩ := exists_jumpStep hw
      exact ⟨_, .jump hs'⟩
  · cases hy with
    | jump hs' => exact .inl ⟨_, hs', rfl⟩
    | join hdone =>
      refine .inr ⟨fun s' hs' => ?_, fun h => hnext _ h.2⟩
      cases hs' with
      | vertex hw | check hw | left hw | stop hw | again hw | jump hw | target hw | store hw =>
        rw [hdone] at hw
        exact absurd hw nofun

variable [Nonempty τ]

/-- The hooking loop, and what comes after it. -/
theorem endsIn_hooking (hg : g.WellFormed) {comp₀ : ℕ → ℕ} (hforest : Hooking.Forest g.Arc comp₀)
    {shares : τ → List ℕ} (hshares : Shared g.numVertices shares)
    (hnext : ∀ comp₁ change, Hooking.Hooked g.Arc g.numVertices
        (fun e => ∃ w, e ∈ g.passEdges (shares w)) comp₀ comp₁ change →
      ∀ shares' : τ → List ℕ, Shared g.numVertices shares' →
        EndsIn (WccStep g) (WccEnd g) (.jumping change (.start comp₁ shares'))) :
    EndsIn (WccStep g) (WccEnd g) (.hooking (.start comp₀ fun w => g.passEdges (shares w))) := by
  have hedges : ∀ w, ∀ e ∈ g.passEdges (shares w),
      g.Arc e.1 e.2 ∧ e.1 < g.numVertices ∧ e.2 < g.numVertices := by
    intro w e he
    obtain ⟨hu, hv⟩ := mem_passEdges_iff.mp he
    have hlt : e.1 < g.numVertices := (hshares.mem e.1).mp ⟨w, hu⟩
    exact ⟨⟨hlt, hv⟩, hlt, hg.arc_lt ⟨hlt, hv⟩⟩
  refine (endsIn_hooked hforest hedges).embed WccConfig.hooking (fun s => ?_) fun s y hy => ?_
  · by_cases hdone : ∀ w, s.workers w = ⟨.edge, []⟩
    · obtain ⟨shares', hshares'⟩ := exists_shared (τ := τ) g.numVertices
      exact ⟨_, .forkJumping shares' hdone hshares'⟩
    · push Not at hdone
      obtain ⟨w, hw⟩ := hdone
      obtain ⟨s', hs'⟩ := exists_hookStep hw
      exact ⟨_, .hook hs'⟩
  · cases hy with
    | hook hs' => exact .inl ⟨_, hs', rfl⟩
    | forkJumping shares' hdone hshares' =>
      refine .inr ⟨fun s' hs' => ?_, fun h => hnext _ _ h.2 shares' hshares'⟩
      cases hs' with
      | first hw | same hw | second hw | root hw | inner hw | raise hw | store hw =>
        rw [hdone] at hw
        exact absurd hw nofun

/-- **The passes from a star** with the flag up. -/
theorem endsIn_head (hg : g.WellFormed) {comp : ℕ → ℕ} (hforest : Hooking.Forest g.Arc comp)
    (hstar : g.Star comp) :
    EndsIn (WccStep g) (WccEnd g) (WccConfig.head (τ := τ) comp true) := by
  -- each pass but the last one takes a root away
  induction hroots : g.roots comp using Nat.strong_induction_on generalizing comp with
  | _ n ih =>
    subst hroots
    refine .intro (fun hno => absurd .timeout (hno _)) fun y hy => ?_
    cases hy with
    | timeout => exact endsIn_timedOut
    | forkHooking shares hshares =>
      refine endsIn_hooking hg hforest hshares fun comp₁ change hhook shares' hshares' =>
        endsIn_jumping hhook.forest hshares' fun comp₂ hjump => ?_
      cases change with
      | true =>
        exact ih (g.roots comp₂) (roots_lt_of_hooked hhook hjump) hjump.forest hjump.star rfl
      | false =>
        refine endsIn_finished hjump.forest (hooked_jumped_stable hg hstar (fun u v harc => ?_)
          hhook hjump)
        obtain ⟨w, hw⟩ := (hshares.mem u).mpr harc.1
        exact ⟨w, mem_passEdges_iff.mpr ⟨hw, harc.2⟩⟩

/-- **Every run of `do_wcc` ends**: its time is over, or the components are found, whatever the
interleaving of the loads and the stores of the threads and however OpenMP shares the vertices
out. -/
theorem endsIn_components (hg : g.WellFormed) :
    EndsIn (WccStep g) (WccEnd g) (WccConfig.head (τ := τ) (fun n => n) true) :=
  endsIn_head hg ⟨fun n => le_refl n, fun n => .refl n⟩ fun _ _ => rfl

end Run

theorem endsIn_components_path :
    EndsIn (WccStep (path (1 : ℕ))) (WccEnd (path 1))
      (WccConfig.head (τ := Fin 2) (fun n => n) true) :=
  endsIn_components (path_wellFormed 1)

end CSR

end GfeDriver
