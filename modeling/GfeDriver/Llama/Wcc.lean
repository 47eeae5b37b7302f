import GfeDriver.Foundation.DepthFirst
import GfeDriver.Foundation.Loop
import GfeDriver.Llama.Snapshot

/-!
# The weakly connected components of LLAMA

`ll_dfs_template` searches depth first without recursion. A frame of its stack is an iterator with a
flag: the outgoing edges of the node are scanned first, and then the incoming ones. The frame of the
node that is scanned is in the variables, and a frame without a node is below all others. The set of
the visited nodes is a hash set, and from the entry of the node number `THRESHOLD_LARGE` on a
bitmap.

`llama_execute_wcc` starts a search from each node without a label, and labels what it visits by its
root.

## Main definitions

* `Dfs`: the variables of a search
* `Dfs.enterNode`, `Dfs.exitNode`, `Dfs.iterate`: its functions, and the body of its loop
* `doDfs`, `llamaExecuteWcc`: a search, and the kernel

## Main results

* `Refines.iterate`: an iteration is a step of a depth-first search, or turns to the incoming edges
* `doDfs_spec`: a search visits the component of its root, each node once
* `llamaExecuteWcc_isLeast`: the label of a node is the least node of its component
* `llamaExecuteWcc_components`: both, for every threshold
-/

namespace GfeDriver

namespace Llama

open Foundation

/-! ## The program -/

/-- The variables of `ll_dfs_template`, with the labels that `visit_pre` writes and the nodes it was
called on. -/
structure Dfs where
  iter : EdgeIterator
  useReverseEdge : Bool
  stack : List (EdgeIterator × Bool)
  cnt : ℕ
  visitedSmall : Finset ℕ
  visitedBitmap : ℕ → Bool
  isSmall : Bool
  gScc : ℕ → Option ℕ
  entered : List ℕ

namespace Dfs

variable (g : Snapshot) (thresholdLarge root : ℕ)

/-- `prepare`. -/
def prepare (gScc : ℕ → Option ℕ) : Dfs where
  iter := ⟨none, [], none⟩
  useReverseEdge := true
  stack := []
  cnt := 0
  visitedSmall := ∅
  visitedBitmap := fun _ => false
  isSmall := true
  gScc := gScc
  entered := []

/-- `add_visited`. -/
def addVisited (s : Dfs) (n : ℕ) : Dfs :=
  if s.isSmall then { s with visitedSmall := insert n s.visitedSmall }
  else { s with visitedBitmap := Function.update s.visitedBitmap n true }

/-- `has_visited`. -/
def hasVisited (s : Dfs) (n : ℕ) : Bool :=
  if s.isSmall then n ∈ s.visitedSmall else s.visitedBitmap n

/-- `prepare_large`: the bitmap takes over the nodes of the hash set. -/
def prepareLarge (s : Dfs) : Dfs :=
  { s with visitedBitmap := fun u => u ∈ s.visitedSmall, isSmall := false }

/-- `visit_pre` of `WeaklyConnectedComponents`. -/
def visitPre (s : Dfs) (t : ℕ) : Dfs :=
  { s with gScc := Function.update s.gScc t (some root), entered := s.entered ++ [t] }

/-- `enter_node`. -/
def enterNode (s : Dfs) (n : ℕ) : Dfs :=
  let s := { s with stack := (s.iter, s.useReverseEdge) :: s.stack }
  let s := { s with iter := .outBegin g n, useReverseEdge := false }
  let s := s.addVisited n
  let s := { s with cnt := s.cnt + 1 }
  let s := if s.cnt = thresholdLarge then s.prepareLarge else s
  s.visitPre root n

/-- `exit_node`, on a stack that is not empty. -/
def exitNode (s : Dfs) : Option Dfs :=
  match s.stack with
  | [] => none
  | pair :: stack => some { s with iter := pair.1, useReverseEdge := pair.2, stack := stack }

/-- The body of `main_loop`. -/
def iterate (s : Dfs) : Option Dfs :=
  if !s.iter.hasNext then
    if s.useReverseEdge = false then
      s.iter.node.map fun n => { s with iter := .inBegin g n, useReverseEdge := true }
    else s.exitNode
  else
    let s := { s with iter := s.iter.next }
    s.iter.lastNode.map fun z =>
      if s.hasVisited z then s else s.enterNode g thresholdLarge root z

end Dfs

/-- `do_dfs` after `prepare`, when no timeout fires. -/
def doDfs (g : Snapshot) (thresholdLarge fuel root : ℕ) (gScc : ℕ → Option ℕ) : Option Dfs :=
  whileLoop (fun s => s.iter.node.isSome) (Dfs.iterate g thresholdLarge root) fuel
    ((Dfs.prepare gScc).enterNode g thresholdLarge root root)

/-- An iteration of the loop over the nodes. -/
def wccNode (g : Snapshot) (thresholdLarge fuel : ℕ) (gScc : ℕ → Option ℕ) (n : ℕ) :
    Option (ℕ → Option ℕ) :=
  if gScc n = none then (doDfs g thresholdLarge fuel n gScc).map Dfs.gScc else some gScc

/-- `llama_execute_wcc`: the labels are `LL_NIL_NODE` at first. -/
def llamaExecuteWcc (g : Snapshot) (thresholdLarge fuel : ℕ) : Option (ℕ → Option ℕ) :=
  (List.range g.maxNodes).foldlM (wccNode g thresholdLarge fuel) fun _ => none

/-! ## The set of visited nodes -/

namespace Dfs

variable {g : Snapshot} {thresholdLarge root : ℕ} {s : Dfs} {n : ℕ}

theorem hasVisited_addVisited (s : Dfs) (n v : ℕ) :
    (s.addVisited n).hasVisited v = true ↔ v = n ∨ s.hasVisited v = true := by
  unfold addVisited hasVisited
  cases hsmall : s.isSmall with
  | true => simp
  | false =>
    by_cases hv : v = n
    · simp [hv]
    · simp [hv]

/-- The bitmap takes over once: before that it was not in use. -/
theorem hasVisited_prepareLarge (hsmall : s.isSmall = true) (v : ℕ) :
    s.prepareLarge.hasVisited v = s.hasVisited v := by
  simp [prepareLarge, hasVisited, hsmall]

/-- The hash set is in use until the threshold is reached. -/
def SmallUntil (thresholdLarge : ℕ) (s : Dfs) : Prop := s.isSmall = true ∨ thresholdLarge ≤ s.cnt

/-- The state in `enter_node` when the counter is incremented. -/
theorem enterNode_eq (s : Dfs) (n : ℕ) : s.enterNode g thresholdLarge root n =
    let s₁ := { s.addVisited n with
      stack := (s.iter, s.useReverseEdge) :: s.stack
      iter := .outBegin g n
      useReverseEdge := false
      cnt := s.cnt + 1 }
    (if s.cnt + 1 = thresholdLarge then s₁.prepareLarge else s₁).visitPre root n := by
  unfold enterNode addVisited
  cases s.isSmall <;> rfl

/-- **What was visited** after a node is entered, with either representation of the set. -/
theorem hasVisited_enterNode (hsmall : s.SmallUntil thresholdLarge) (n v : ℕ) :
    (s.enterNode g thresholdLarge root n).hasVisited v = true ↔
      v = n ∨ s.hasVisited v = true := by
  rw [enterNode_eq, ← hasVisited_addVisited]
  simp only
  split_ifs with hcnt
  · have hadd : (s.addVisited n).isSmall = true := by
      have h : s.isSmall = true := hsmall.resolve_right (by omega)
      simp [addVisited, h]
    exact Bool.eq_iff_iff.mp (hasVisited_prepareLarge (s := { s.addVisited n with
      stack := (s.iter, s.useReverseEdge) :: s.stack
      iter := .outBegin g n
      useReverseEdge := false
      cnt := s.cnt + 1 }) hadd v)
  · exact Iff.rfl

theorem smallUntil_enterNode (hsmall : s.SmallUntil thresholdLarge) (n : ℕ) :
    (s.enterNode g thresholdLarge root n).SmallUntil thresholdLarge := by
  rw [enterNode_eq]
  simp only
  split_ifs with hcnt
  · exact Or.inr hcnt.ge
  · rcases hsmall with h | h
    · refine Or.inl ?_
      simp [visitPre, addVisited, h]
    · exact Or.inr (h.trans (Nat.le_succ _))

@[simp] theorem iter_enterNode (s : Dfs) (n : ℕ) :
    (s.enterNode g thresholdLarge root n).iter = .outBegin g n := by
  rw [enterNode_eq]
  simp only
  split_ifs <;> rfl

@[simp] theorem useReverseEdge_enterNode (s : Dfs) (n : ℕ) :
    (s.enterNode g thresholdLarge root n).useReverseEdge = false := by
  rw [enterNode_eq]
  simp only
  split_ifs <;> rfl

@[simp] theorem stack_enterNode (s : Dfs) (n : ℕ) :
    (s.enterNode g thresholdLarge root n).stack = (s.iter, s.useReverseEdge) :: s.stack := by
  rw [enterNode_eq]
  simp only
  split_ifs <;> rfl

theorem gScc_addVisited (s : Dfs) (n : ℕ) :
    (s.addVisited n).gScc = s.gScc ∧ (s.addVisited n).entered = s.entered := by
  unfold addVisited
  split_ifs <;> exact ⟨rfl, rfl⟩

@[simp] theorem gScc_enterNode (s : Dfs) (n : ℕ) :
    (s.enterNode g thresholdLarge root n).gScc = Function.update s.gScc n (some root) := by
  rw [enterNode_eq, ← (gScc_addVisited s n).1]
  simp only
  split_ifs <;> rfl

@[simp] theorem entered_enterNode (s : Dfs) (n : ℕ) :
    (s.enterNode g thresholdLarge root n).entered = s.entered ++ [n] := by
  rw [enterNode_eq, ← (gScc_addVisited s n).2]
  simp only
  split_ifs <;> rfl

/-! ## The search -/

variable (g)

/-- The frame of the innermost node and those of the stack. -/
def frames (s : Dfs) : List (EdgeIterator × Bool) := (s.iter, s.useReverseEdge) :: s.stack

/-- The neighbours that a frame with a node has left: the incoming edges come last. -/
def searchFrame (f : EdgeIterator × Bool) : Option (ℕ × List ℕ) :=
  f.1.node.map fun n => (n, if f.2 then f.1.left else f.1.left ++ g.inNodes n)

/-- The depth-first search that the variables stand for. -/
def search (s : Dfs) : Search ℕ := ⟨s.entered, s.frames.filterMap (searchFrame g)⟩

/-- The frames that scan outgoing edges. -/
def outFrames (s : Dfs) : ℕ := s.frames.countP fun f => !f.2

/-- The frame below all others. -/
def bottom : EdgeIterator × Bool := (⟨none, [], none⟩, true)

/-- **The invariant** of `main_loop`: the frames have nodes but for the one below all others, both
representations of the visited set hold what was entered, and so do the labels. -/
structure Refines (thresholdLarge root : ℕ) (gScc : ℕ → Option ℕ) (s : Dfs) : Prop where
  frames : ∃ live, s.frames = live ++ [bottom] ∧ ∀ f ∈ live, f.1.node.isSome
  visited : ∀ v, s.hasVisited v = true ↔ v ∈ s.entered
  small : s.SmallUntil thresholdLarge
  labels : ∀ v, s.gScc v = if v ∈ s.entered then some root else gScc v

variable {g} {gScc : ℕ → Option ℕ} {s' : Dfs}

theorem frames_enterNode (s : Dfs) (n : ℕ) : (s.enterNode g thresholdLarge root n).frames =
    (.outBegin g n, false) :: s.frames := by
  rw [frames, iter_enterNode, useReverseEdge_enterNode, stack_enterNode]
  rfl

/-- Entering a node is the same in the search. -/
theorem search_enterNode (s : Dfs) (n : ℕ) :
    (s.enterNode g thresholdLarge root n).search g = (s.search g).enter g.neighbours n := by
  rw [search, frames_enterNode, entered_enterNode]
  rfl

theorem refines_prepare (thresholdLarge root : ℕ) (gScc : ℕ → Option ℕ) :
    (prepare gScc).Refines thresholdLarge root gScc where
  frames := ⟨[], rfl, fun _ hf => absurd hf List.not_mem_nil⟩
  visited v := by simp [prepare, hasVisited]
  small := Or.inl rfl
  labels v := by simp [prepare]

theorem Refines.enterNode (h : s.Refines thresholdLarge root gScc) (n : ℕ) :
    (s.enterNode g thresholdLarge root n).Refines thresholdLarge root gScc where
  frames := by
    obtain ⟨live, hlive, hnode⟩ := h.frames
    refine ⟨(.outBegin g n, false) :: live, ?_, ?_⟩
    · rw [frames_enterNode, hlive]
      rfl
    · rintro f (_ | ⟨_, hf⟩)
      · rfl
      · exact hnode f hf
  visited v := by
    rw [hasVisited_enterNode h.small, entered_enterNode, h.visited, List.mem_append,
      List.mem_singleton, or_comm]
  small := smallUntil_enterNode h.small n
  labels v := by
    rw [gScc_enterNode, entered_enterNode]
    by_cases hv : v = n
    · subst hv
      simp
    · rw [Function.update_of_ne hv, h.labels]
      simp [hv]

/-- The iterator, the flag and the stack change, with nodes in all frames but the bottom. -/
theorem Refines.of_frames (h : s.Refines thresholdLarge root gScc) {f : EdgeIterator × Bool}
    {stack l : List (EdgeIterator × Bool)} (hlive : f :: stack = l ++ [bottom])
    (hnode : ∀ f ∈ l, f.1.node.isSome) :
    { s with iter := f.1, useReverseEdge := f.2, stack := stack }.Refines thresholdLarge root gScc
    where
  frames := ⟨l, hlive, hnode⟩
  visited := h.visited
  small := h.small
  labels := h.labels

/-- The frames of a search that goes on. -/
theorem Refines.exists_stack (h : s.Refines thresholdLarge root gScc) {u : ℕ}
    (hu : s.iter.node = some u) :
    ∃ live, s.stack = live ++ [bottom] ∧ ∀ f ∈ live, f.1.node.isSome := by
  obtain ⟨live, hlive, hnode⟩ := h.frames
  cases live with
  | nil =>
    have hiter : s.iter = ⟨none, [], none⟩ := congrArg Prod.fst (List.cons.inj hlive).1
    rw [hiter] at hu
    cases hu
  | cons f live =>
    exact ⟨live, (List.cons.inj hlive).2, fun f hf => hnode f (List.mem_cons_of_mem _ hf)⟩

/-- **An iteration** is a step of the search, or turns to the incoming edges of the node. -/
theorem Refines.iterate (h : s.Refines thresholdLarge root gScc) {u : ℕ}
    (hu : s.iter.node = some u) :
    ∃ s', s.iterate g thresholdLarge root = some s' ∧ s'.Refines thresholdLarge root gScc ∧
      (Search.Step g.neighbours (s.search g) (s'.search g) ∧
          s'.outFrames ≤ s.outFrames + 1 ∨
        s'.search g = s.search g ∧ s'.outFrames < s.outFrames) := by
  obtain ⟨live, hlive, hnode⟩ := h.exists_stack hu
  obtain ⟨⟨node, left, lastNode⟩, flag, stack, cnt, small, bitmap, isSmall, scc, entered⟩ := s
  obtain rfl : node = some u := hu
  obtain rfl : stack = live ++ [bottom] := hlive
  cases left with
  | nil =>
    cases flag with
    | false =>
      -- the outgoing edges are done
      refine ⟨_, rfl, h.of_frames (f := (.inBegin g u, true)) (l := (.inBegin g u, true) :: live)
        rfl ?_, Or.inr ⟨rfl, ?_⟩⟩
      · rintro f (_ | ⟨_, hf⟩)
        · rfl
        · exact hnode f hf
      · simp [outFrames, Dfs.frames]
    | true =>
      -- the node is left
      cases live with
      | nil =>
        exact ⟨_, rfl, h.of_frames (f := bottom) (l := []) rfl hnode,
          Or.inl ⟨.exit, Nat.le_succ _⟩⟩
      | cons f live =>
        exact ⟨_, rfl, h.of_frames (f := f) (l := f :: live) rfl hnode,
          Or.inl ⟨.exit, Nat.le_succ _⟩⟩
  | cons z left =>
    -- the state after the iterator moved
    have hnext := h.of_frames (f := (⟨some u, left, some z⟩, flag))
      (l := (⟨some u, left, some z⟩, flag) :: live) rfl (by
        rintro f (_ | ⟨_, hf⟩)
        · rfl
        · exact hnode f hf)
    by_cases hz : z ∈ entered
    · have hvisited := (hnext.visited z).mpr hz
      refine ⟨_, (congrArg some (if_pos hvisited)), hnext, Or.inl ⟨?_, Nat.le_succ _⟩⟩
      cases flag with
      | false => exact .skip hz
      | true => exact .skip hz
    · have hvisited := mt (hnext.visited z).mp hz
      refine ⟨_, (congrArg some (if_neg hvisited)), hnext.enterNode z, Or.inl ⟨?_, ?_⟩⟩
      · rw [search_enterNode]
        cases flag with
        | false => exact .enter hz
        | true => exact .enter hz
      · rw [outFrames, frames_enterNode]
        exact (List.countP_cons_of_pos rfl).le

/-- The steps that are left: a frame that turns to the incoming edges keeps the search. -/
def stepsLeft (g : Snapshot) (s : Dfs) : ℕ :=
  2 * (s.search g).work g.neighbours (Finset.range g.maxNodes) + s.outFrames

/-- **An iteration** leaves fewer steps. -/
theorem Refines.exists_iterate (hg : g.WellFormed)
    (h : s.Refines thresholdLarge root gScc ∧ (s.search g).Exploring g.neighbours root)
    (hnode : s.iter.node.isSome = true) :
    ∃ s', s.iterate g thresholdLarge root = some s' ∧
      (s'.Refines thresholdLarge root gScc ∧ (s'.search g).Exploring g.neighbours root) ∧
      s'.stepsLeft g < s.stepsLeft g := by
  obtain ⟨u, hu⟩ := Option.isSome_iff_exists.mp hnode
  obtain ⟨href, hexpl⟩ := h
  obtain ⟨s', hs', href', hstep⟩ := href.iterate (g := g) hu
  refine ⟨s', hs', ?_⟩
  rcases hstep with ⟨hstep, hout⟩ | ⟨hsame, hout⟩
  · have hU : ∀ f ∈ (s.search g).frames, ∀ v ∈ f.2, v ∈ Finset.range g.maxNodes :=
      fun f hf v hv => Finset.mem_range.mpr (hg.lt_of_mem_neighbours ((hexpl.frame f hf).2 v hv))
    have hwork := hstep.work_lt hU
    exact ⟨⟨href', hexpl.step hstep⟩, by unfold stepsLeft; omega⟩
  · rw [stepsLeft, stepsLeft, hsame]
    exact ⟨⟨href', hexpl⟩, by omega⟩

/-- A search without a node in its iterator has no frames. -/
theorem Refines.frames_eq (h : s.Refines thresholdLarge root gScc)
    (hnode : s.iter.node.isSome = false) : s.frames = [bottom] := by
  obtain ⟨live, hlive, hsome⟩ := h.frames
  cases live with
  | nil => exact hlive
  | cons f live =>
    have hiter : f.1.node.isSome = true := hsome f List.mem_cons_self
    rw [← (List.cons.inj hlive).1] at hiter
    exact absurd hiter (by rw [hnode]; exact Bool.false_ne_true)

/-- Components are what is reachable along the neighbours. -/
theorem connected_iff (hg : g.WellFormed) {u v : ℕ} :
    Connected g.Arc u v ↔ Relation.ReflTransGen (fun u v => v ∈ g.neighbours u) u v :=
  connected_iff_reflTransGen fun _ _ => hg.mem_neighbours

end Dfs

section Kernel

variable {g : Snapshot}

open Dfs

/-- **A search** terminates with an empty stack, has visited the component of its root, each node
once, and labelled what it visited. -/
theorem doDfs_spec (hg : g.WellFormed) (thresholdLarge root : ℕ) (gScc : ℕ → Option ℕ) :
    ∃ s, (s.stack = [] ∧ s.entered.Nodup ∧ (∀ v, v ∈ s.entered ↔ Connected g.Arc root v) ∧
        ∀ v, s.gScc v = if v ∈ s.entered then some root else gScc v) ∧
      ∃ k, ∀ fuel, k ≤ fuel → doDfs g thresholdLarge fuel root gScc = some s := by
  have hprepare := refines_prepare thresholdLarge root gScc
  have hstart : ((prepare gScc).enterNode g thresholdLarge root root).search g =
      Search.start g.neighbours root := by
    rw [search_enterNode]
    rfl
  obtain ⟨s, ⟨href, hexpl⟩, hnode, hfuel⟩ := whileLoop_total_of_wf
    (fun s => s.Refines thresholdLarge root gScc ∧ (s.search g).Exploring g.neighbours root)
    (measure (stepsLeft g)).wf (fun _ hs hnode => Refines.exists_iterate hg hs hnode)
    ((prepare gScc).enterNode g thresholdLarge root root)
    ⟨hprepare.enterNode root, hstart ▸ Search.exploring_start root⟩
  have hframes := href.frames_eq hnode
  have hdone : (s.search g).frames = [] := by
    rw [search, hframes]
    rfl
  refine ⟨s, ⟨(List.cons.inj hframes).2, hexpl.nodup, fun v => ?_, href.labels⟩, hfuel⟩
  exact (hexpl.mem_visited_iff hdone).trans (connected_iff hg).symm

/-- The labels after the searches from the roots that are done. -/
structure Labelled (g : Snapshot) (done : List ℕ) (gScc : ℕ → Option ℕ) : Prop where
  least : ∀ v m, gScc v = some m → IsLeast {u | Connected g.Arc v u} m
  none_iff : ∀ v, gScc v = none ↔ ∀ u ∈ done, ¬Connected g.Arc v u

/-- **One root**: a node without a label is the least of its component. -/
theorem Labelled.wccNode (hg : g.WellFormed) (thresholdLarge : ℕ) {n : ℕ}
    {gScc : ℕ → Option ℕ} (h : Labelled g (List.range n) gScc) :
    ∃ gScc', Labelled g (List.range n ++ [n]) gScc' ∧
      ∃ k, ∀ fuel, k ≤ fuel → wccNode g thresholdLarge fuel gScc n = some gScc' := by
  cases hn : gScc n with
  | some m =>
    refine ⟨gScc, ⟨h.least, fun v => ?_⟩, 0, fun fuel _ => ?_⟩
    · rw [h.none_iff, List.forall_mem_append]
      refine ⟨fun hv => ⟨hv, ?_⟩, And.left⟩
      rw [List.forall_mem_singleton]
      intro hvn
      have hnone := (h.none_iff n).mpr fun u hu hnu => hv u hu (hvn.trans hnu)
      rw [hn] at hnone
      cases hnone
    · rw [Llama.wccNode, hn, if_neg (Option.some_ne_none m)]
  | none =>
    obtain ⟨s, ⟨-, -, hentered, hlabels⟩, k, hk⟩ := doDfs_spec hg thresholdLarge n gScc
    have hfirst : ∀ u, Connected g.Arc n u → n ≤ u := fun u hu => by
      by_contra hlt
      exact (h.none_iff n).mp hn u (List.mem_range.mpr (Nat.lt_of_not_le hlt)) hu
    refine ⟨s.gScc, ⟨fun v m hv => ?_, fun v => ?_⟩, k, fun fuel hfuel => ?_⟩
    · rw [hlabels] at hv
      split_ifs at hv with hmem
      · have hconn := (hentered v).mp hmem
        obtain rfl := Option.some.inj hv
        exact ⟨hconn.symm, fun u hu => hfirst u (hconn.trans hu)⟩
      · exact h.least v m hv
    · rw [hlabels, List.forall_mem_append, List.forall_mem_singleton, ← h.none_iff]
      by_cases hmem : v ∈ s.entered
      · have hconn := (hentered v).mp hmem
        rw [if_pos hmem]
        exact iff_of_false (Option.some_ne_none n) fun hv => hv.2 hconn.symm
      · have hconn := mt (hentered v).mpr hmem
        rw [if_neg hmem]
        exact ⟨fun hv => ⟨hv, fun hvn => hconn hvn.symm⟩, And.left⟩
    · rw [Llama.wccNode, if_pos hn, hk fuel hfuel]
      rfl

/-- **The kernel** terminates, and the label of a node is the least node of its component. -/
theorem llamaExecuteWcc_isLeast (hg : g.WellFormed) (thresholdLarge : ℕ) :
    ∃ gScc, (∀ v < g.maxNodes, ∃ m, gScc v = some m ∧ IsLeast {u | Connected g.Arc v u} m) ∧
      ∃ k, ∀ fuel, k ≤ fuel → llamaExecuteWcc g thresholdLarge fuel = some gScc := by
  obtain ⟨gScc, ⟨-, hlabelled⟩, hfuel⟩ := foldlM_prefix_fuel
    (fun done gScc => done = List.range done.length ∧ Labelled g done gScc)
    (l := List.range g.maxNodes) (f := wccNode g thresholdLarge) (s := fun _ => none)
    ⟨rfl, ⟨fun _ _ hv => (Option.some_ne_none _ hv.symm).elim, fun _ => by simp⟩⟩ (by
      rintro done n rest gScc hl ⟨hdone, hlabelled⟩
      have hn : n = done.length := by
        have hget : (List.range g.maxNodes)[done.length]? = some n := by simp [hl]
        obtain ⟨hlt, hget⟩ := List.getElem?_eq_some_iff.mp hget
        rw [← hget, List.getElem_range]
      rw [hdone, ← hn] at hlabelled ⊢
      obtain ⟨gScc', hlabelled', hfuel⟩ := hlabelled.wccNode hg thresholdLarge
      exact ⟨gScc', ⟨by simp [List.range_succ], hlabelled'⟩, hfuel⟩)
  refine ⟨gScc, fun v hv => ?_, hfuel⟩
  cases hlabel : gScc v with
  | none => exact absurd (.refl v) ((hlabelled.none_iff v).mp hlabel v (List.mem_range.mpr hv))
  | some m => exact ⟨m, rfl, hlabelled.least v m hlabel⟩

/-- **The searches and the kernel**, whatever the threshold at which the set of the visited nodes
becomes a bitmap. -/
theorem llamaExecuteWcc_components (hg : g.WellFormed) (thresholdLarge : ℕ) :
    (∀ root < g.maxNodes, ∀ gScc, ∃ s, (s.stack = [] ∧ s.entered.Nodup ∧
        ∀ v, v ∈ s.entered ↔ Connected g.Arc root v) ∧
      ∃ k, ∀ fuel, k ≤ fuel → doDfs g thresholdLarge fuel root gScc = some s) ∧
    ∃ gScc, (∀ v < g.maxNodes, ∃ m, gScc v = some m ∧ IsLeast {u | Connected g.Arc v u} m) ∧
      ∃ k, ∀ fuel, k ≤ fuel → llamaExecuteWcc g thresholdLarge fuel = some gScc := by
  refine ⟨fun root _ gScc => ?_, llamaExecuteWcc_isLeast hg thresholdLarge⟩
  obtain ⟨s, ⟨hstack, hnodup, hentered, -⟩, hfuel⟩ := doDfs_spec hg thresholdLarge root gScc
  exact ⟨s, ⟨hstack, hnodup, hentered⟩, hfuel⟩

theorem llamaExecuteWcc_components_oneEdge :
    (∀ root < 2, ∀ gScc, ∃ s, (s.stack = [] ∧ s.entered.Nodup ∧
        ∀ v, v ∈ s.entered ↔ Connected oneEdge.Arc root v) ∧
      ∃ k, ∀ fuel, k ≤ fuel → doDfs oneEdge 1 fuel root gScc = some s) ∧
    ∃ gScc, (∀ v < 2, ∃ m, gScc v = some m ∧ IsLeast {u | Connected oneEdge.Arc v u} m) ∧
      ∃ k, ∀ fuel, k ≤ fuel → llamaExecuteWcc oneEdge 1 fuel = some gScc :=
  llamaExecuteWcc_components wellFormed_oneEdge 1

example : (llamaExecuteWcc oneEdge 1 9).map (fun gScc => [gScc 0, gScc 1]) =
    some [some 0, some 0] := by decide

end Kernel

end Llama

end GfeDriver
