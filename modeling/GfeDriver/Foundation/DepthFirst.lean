import GfeDriver.Foundation.Components
import Mathlib.Algebra.BigOperators.Group.Finset.Basic

/-!
# Depth-first search

A search keeps the vertices it has visited, in order, and a stack of frames: a vertex, and its
neighbours that are left to look at. A step looks at the next neighbour of the innermost frame,
which opens a frame when it was not visited, or closes the frame when no neighbour is left. The
stack may have more frames below those of the search.

## Main definitions

* `Search V`: the vertices visited and the frames
* `Search.start`, `Search.Step`: the search from a root
* `Search.Exploring`: the invariant
* `Search.work`: the variant

## Main results

* `Exploring.step`, `Step.work_lt`: one step
* `Exploring.mem_visited_iff`: a search without frames has visited what is reachable from the root
* `connected_iff_reflTransGen`: components as what is reachable along the edges in both directions
-/

namespace Foundation

universe u

variable {V : Type u}

/-- A search: the vertices visited, and the frames, the innermost one first. -/
structure Search (V : Type u) where
  visited : List V
  frames : List (V × List V)

namespace Search

variable (N : V → List V)

/-- A vertex is visited: it has a frame with all its neighbours. -/
def enter (s : Search V) (v : V) : Search V := ⟨s.visited ++ [v], (v, N v) :: s.frames⟩

/-- The search from a root. -/
def start (root : V) : Search V := ⟨[root], [(root, N root)]⟩

/-- **A step** of the search. -/
inductive Step : Search V → Search V → Prop
  | skip {visited : List V} {u v : V} {left : List V} {frames : List (V × List V)}
      (h : v ∈ visited) : Step ⟨visited, (u, v :: left) :: frames⟩ ⟨visited, (u, left) :: frames⟩
  | enter {visited : List V} {u v : V} {left : List V} {frames : List (V × List V)}
      (h : v ∉ visited) :
    Step ⟨visited, (u, v :: left) :: frames⟩ (Search.enter N ⟨visited, (u, left) :: frames⟩ v)
  | exit {visited : List V} {u : V} {frames : List (V × List V)} :
    Step ⟨visited, (u, []) :: frames⟩ ⟨visited, frames⟩

/-- **The invariant**: what was visited is reachable, and its neighbours were visited or are left in
a frame. -/
structure Exploring (root : V) (s : Search V) : Prop where
  nodup : s.visited.Nodup
  root_mem : root ∈ s.visited
  reach : ∀ v ∈ s.visited, Relation.ReflTransGen (fun u v => v ∈ N u) root v
  frame : ∀ f ∈ s.frames, f.1 ∈ s.visited ∧ ∀ v ∈ f.2, v ∈ N f.1
  cover : ∀ u ∈ s.visited, ∀ v ∈ N u, v ∈ s.visited ∨ ∃ f ∈ s.frames, f.1 = u ∧ v ∈ f.2

variable {N} {root : V} {s s' : Search V}

theorem exploring_start (root : V) : Exploring N root (start N root) where
  nodup := List.nodup_singleton root
  root_mem := List.mem_singleton_self root
  reach v hv := List.mem_singleton.mp hv ▸ .refl
  frame f hf := by
    obtain rfl := List.mem_singleton.mp hf
    exact ⟨List.mem_singleton_self root, fun _ hv => hv⟩
  cover u hu v hv := by
    obtain rfl := List.mem_singleton.mp hu
    exact Or.inr ⟨(u, N u), List.mem_singleton_self _, rfl, hv⟩

/-- **One step** keeps the invariant. -/
theorem Exploring.step (h : Exploring N root s) (hstep : Step N s s') : Exploring N root s' := by
  cases hstep with
  | @skip visited u v left frames hv =>
    obtain ⟨hu, hleft⟩ := h.frame _ List.mem_cons_self
    refine ⟨h.nodup, h.root_mem, h.reach, fun f hf => ?_, fun x hx y hy => ?_⟩
    · rcases List.mem_cons.mp hf with rfl | hf
      · exact ⟨hu, fun y hy => hleft y (List.mem_cons_of_mem v hy)⟩
      · exact h.frame f (List.mem_cons_of_mem _ hf)
    · rcases h.cover x hx y hy with hvisited | ⟨f, hf, hfx, hfy⟩
      · exact Or.inl hvisited
      · rcases List.mem_cons.mp hf with rfl | hf
        · rcases List.mem_cons.mp hfy with rfl | hfy
          · exact Or.inl hv
          · exact Or.inr ⟨_, List.mem_cons_self, hfx, hfy⟩
        · exact Or.inr ⟨f, List.mem_cons_of_mem _ hf, hfx, hfy⟩
  | @enter visited u v left frames hv =>
    obtain ⟨hu, hleft⟩ := h.frame _ List.mem_cons_self
    have hnew : ∀ {x}, x ∈ visited → x ∈ visited ++ [v] := fun hx => List.mem_append_left _ hx
    refine ⟨?_, hnew h.root_mem, fun x hx => ?_, fun f hf => ?_, fun x hx y hy => ?_⟩
    · exact List.nodup_append.mpr ⟨h.nodup, List.nodup_singleton v, fun x hx y hy => by
        rw [List.mem_singleton.mp hy]
        exact fun heq => hv (heq ▸ hx)⟩
    · rcases List.mem_append.mp hx with hx | hx
      · exact h.reach x hx
      · rw [List.mem_singleton.mp hx]
        exact (h.reach u hu).tail (hleft v List.mem_cons_self)
    · rcases List.mem_cons.mp hf with rfl | hf
      · exact ⟨List.mem_append_right _ (List.mem_singleton_self v), fun _ hy => hy⟩
      · rcases List.mem_cons.mp hf with rfl | hf
        · exact ⟨hnew hu, fun y hy => hleft y (List.mem_cons_of_mem v hy)⟩
        · exact (h.frame f (List.mem_cons_of_mem _ hf)).imp_left hnew
    · rcases List.mem_append.mp hx with hx | hx
      · rcases h.cover x hx y hy with hvisited | ⟨f, hf, hfx, hfy⟩
        · exact Or.inl (hnew hvisited)
        · rcases List.mem_cons.mp hf with rfl | hf
          · rcases List.mem_cons.mp hfy with rfl | hfy
            · exact Or.inl (List.mem_append_right _ (List.mem_singleton_self y))
            · exact Or.inr ⟨_, List.mem_cons_of_mem _ List.mem_cons_self, hfx, hfy⟩
          · exact Or.inr
              ⟨f, List.mem_cons_of_mem _ (List.mem_cons_of_mem _ hf), hfx, hfy⟩
      · obtain rfl := List.mem_singleton.mp hx
        exact Or.inr ⟨_, List.mem_cons_self, rfl, hy⟩
  | @exit visited u frames =>
    refine ⟨h.nodup, h.root_mem, h.reach, fun f hf => h.frame f (List.mem_cons_of_mem _ hf),
      fun x hx y hy => ?_⟩
    refine (h.cover x hx y hy).imp_right ?_
    rintro ⟨f, hf, hfx, hfy⟩
    rcases List.mem_cons.mp hf with rfl | hf
    · exact absurd hfy List.not_mem_nil
    · exact ⟨f, hf, hfx, hfy⟩

/-- **A search without frames** has visited what is reachable from the root. -/
theorem Exploring.mem_visited_iff (h : Exploring N root s) (hdone : s.frames = []) {v : V} :
    v ∈ s.visited ↔ Relation.ReflTransGen (fun u v => v ∈ N u) root v := by
  refine ⟨h.reach v, fun hreach => ?_⟩
  induction hreach with
  | refl => exact h.root_mem
  | @tail u w _ hw ih =>
    rcases h.cover u ih w hw with hvisited | ⟨f, hf, -⟩
    · exact hvisited
    · rw [hdone] at hf
      exact absurd hf List.not_mem_nil

/-! ## The work left -/

variable [DecidableEq V]

/-- The steps that are left, when all the neighbours are in `U`. -/
def work (N : V → List V) (U : Finset V) (s : Search V) : ℕ :=
  ∑ v ∈ U \ s.visited.toFinset, ((N v).length + 2) + (s.frames.map fun f => f.2.length + 1).sum

/-- **One step** leaves less work. -/
theorem Step.work_lt {U : Finset V} (hU : ∀ f ∈ s.frames, ∀ v ∈ f.2, v ∈ U) (h : Step N s s') :
    work N U s' < work N U s := by
  cases h with
  | skip hv =>
    simp only [work, List.map_cons, List.sum_cons, List.length_cons]
    omega
  | @enter visited u v left frames hv =>
    have hmem : v ∈ U \ visited.toFinset :=
      Finset.mem_sdiff.mpr ⟨hU _ List.mem_cons_self v List.mem_cons_self, by simpa using hv⟩
    have hsdiff : U \ (visited ++ [v]).toFinset = (U \ visited.toFinset).erase v := by
      ext x
      simp only [Finset.mem_sdiff, List.mem_toFinset, List.mem_append, List.mem_singleton,
        Finset.mem_erase, not_or]
      tauto
    have hsum := Finset.add_sum_erase _ (fun v => (N v).length + 2) hmem
    simp only [work, Search.enter, hsdiff, List.map_cons, List.sum_cons, List.length_cons] at hsum ⊢
    omega
  | exit =>
    simp only [work, List.map_cons, List.sum_cons, List.length_nil]
    omega

end Search

/-! ## Components -/

/-- **The component of a vertex** is what is reachable along the edges in both directions. -/
theorem connected_iff_reflTransGen {R : V → V → Prop} {E : V → V → Prop}
    (hE : ∀ u v, E u v ↔ R u v ∨ R v u) {u v : V} :
    Connected R u v ↔ Relation.ReflTransGen E u v := by
  have hsymm : Std.Symm E := ⟨fun x y hxy => (hE y x).mpr ((hE x y).mp hxy).symm⟩
  constructor
  · intro h
    induction h with
    | rel x y hxy => exact .single ((hE x y).mpr (Or.inl hxy))
    | refl x => exact .refl
    | symm x y _ ih => exact Std.Symm.symm x y ih
    | trans x y z _ _ ih ih' => exact ih.trans ih'
  · intro h
    induction h with
    | refl => exact .refl u
    | tail _ hxy ih =>
      rcases (hE _ _).mp hxy with hxy | hxy
      · exact ih.trans (.of_rel hxy)
      · exact ih.trans (Connected.of_rel hxy).symm

end Foundation
