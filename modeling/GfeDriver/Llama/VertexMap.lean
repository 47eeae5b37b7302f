import GfeDriver.Foundation.Linearization
import GfeDriver.Foundation.Runs

/-!
# The vertex mapping of LLAMA

Without `LLAMA_HASHMAP_WITH_TBB` the driver keeps three hash maps from the external ids of the
vertices to the nodes of LLAMA: the mapping of the last snapshot, the vertices removed since, and
those added since. An update shares
`m_lock_checkpoint`, which `build` has alone. A look-up keeps the spin lock of the vertex, reads the
map of the additions, then that of the removals, and last the snapshot. An addition that finds
nothing releases the spin lock, creates a node, and inserts it unless another thread was faster; it
deletes its own node then. A removal keeps the spin lock, marks a vertex of the snapshot as removed,
and erases it from the additions. `has_vertex` does not take `m_lock_checkpoint`, so that it runs
along with `build`.

Each access to a map is an atomic step, and so are `add_node` and `delete_node`. A step that
releases the spin lock is not divided from the access before it.

## Main definitions

* `State`, `Step`: the maps, the calls of the threads and `build`
* `State.view`: the vertices of the graph, with their nodes
* `spec`: what each call does to the vertices
* `Stale`, `Torn`: a removal of a vertex removed before, and a look-up that overlaps the end of
  `build`

## Main results

* `CleanStep.inv`: the steps other than these keep the invariant
* `exists_linearization`: without them the calls linearize
* `CleanStep.fated`: each node belongs to one vertex, to one call, or is deleted once
-/

namespace GfeDriver

namespace Llama

namespace VertexMap

open Foundation

/-! ## The program -/

/-- The calls that read or change the mapping. A look-up belongs to an update, which shares the lock
of the checkpoint, or to `has_vertex`. -/
inductive Op
  | addVertex
  | getOrCreateVertexId
  | removeVertex
  | find (update : Bool)
  deriving DecidableEq

/-- The call shares `m_lock_checkpoint`. -/
def Op.Shares (op : Op) : Prop := op ≠ .find false

/-- The call creates a vertex that it does not find. -/
def Op.creates : Op → Bool
  | .addVertex | .getOrCreateVertexId => true
  | _ => false

/-- The answers: whether the mapping has changed, or the node of the vertex. -/
inductive Res
  | changed (answer : Bool)
  | node (node : Option ℕ)
  deriving DecidableEq

/-- The answer of a call that finds the vertex. -/
def Op.found : Op → ℕ → Res
  | .addVertex, _ => .changed false
  | _, n => .node (some n)

/-- The answer of a call that creates the vertex. -/
def Op.inserted : Op → ℕ → Res
  | .addVertex, _ => .changed true
  | _, n => .node (some n)

/-- Where a call is: not made, with the spin lock and before its first access, past the map of the
additions, past that of the removals, about to create a node, about to insert it, about to mark a
vertex of the snapshot, about to erase it from the additions, about to delete its node, or returned.
A look-up remembers what the vertex was at its first access, and a removal whether its mark has
removed the vertex. -/
inductive Stage
  | idle
  | locked
  | missed (seen : Option ℕ)
  | notRemoved (seen : Option ℕ)
  | absent
  | created (node : ℕ)
  | marking (node : ℕ)
  | erasing (node : Option ℕ) (marked : Bool)
  | deleting (node : ℕ)
  | returned (r : Res)
  deriving DecidableEq

/-- The call keeps its spin lock. -/
def Stage.Holds : Stage → Prop
  | .locked | .missed _ | .notRemoved _ | .marking _ | .erasing _ _ => True
  | _ => False

/-- Where `build` is: not running, or about to erase the rest of the removals, to insert the rest of
the additions, or to clear the removals. -/
inductive Build
  | idle
  | erasing (left : List ℕ)
  | inserting (left : List ℕ)
  | clearing
  deriving DecidableEq

/-- The maps of the driver, the nodes of LLAMA with their names, the nodes deleted so far, and the
threads. -/
structure State (ι : Type*) where
  updated : ℕ → Option ℕ
  removed : ℕ → Bool
  readOnly : ℕ → Option ℕ
  nextNode : ℕ
  names : ℕ → ℕ
  deleted : List ℕ
  build : Build
  calls : ι → Stage

/-- An empty graph. -/
def initial (ι : Type*) : State ι :=
  ⟨fun _ => none, fun _ => false, fun _ => none, 0, fun _ => 0, [], .idle, fun _ => .idle⟩

/-- **The vertices of the graph**, with their nodes. At the end of `build`, when the additions are
cleared, the snapshot has all of them. -/
def State.view {ι : Type*} (s : State ι) (v : ℕ) : Option ℕ :=
  match s.build with
  | .clearing => s.readOnly v
  | _ => (s.updated v).orElse fun _ => if s.removed v then none else s.readOnly v

/-- The spin lock of a vertex, in `m_vmap_locks`. -/
def stripe (v : ℕ) : ℕ := v % 4096

variable {ι : Type*} [DecidableEq ι]

/-- The call `i` goes to another place. -/
def State.move (s : State ι) (i : ι) (c : Stage) : State ι :=
  { s with calls := Function.update s.calls i c }

section Steps

variable (op : ι → Op) (vertex : ι → ℕ)

/-- **The steps** of the calls and of `build`. The label is the call that takes the step. -/
inductive Step : Option ι → State ι → State ι → Prop
  /-- The spin lock, and the lock of the checkpoint before it. -/
  | lock {s : State ι} {i : ι} (hi : s.calls i = .idle)
      (hcheckpoint : (op i).Shares → s.build = .idle)
      (hfree : ∀ j, (s.calls j).Holds → stripe (vertex j) ≠ stripe (vertex i)) :
      Step (some i) s (s.move i .locked)
  /-- `vmap_write_store_find`. -/
  | hit {s : State ι} {i : ι} {n : ℕ} (hi : s.calls i = .locked) (hop : op i ≠ .removeVertex)
      (hn : s.updated (vertex i) = some n) :
      Step (some i) s (s.move i (.returned ((op i).found n)))
  | miss {s : State ι} {i : ι} (hi : s.calls i = .locked) (hop : op i ≠ .removeVertex)
      (hn : s.updated (vertex i) = none) :
      Step (some i) s (s.move i (.missed (s.view (vertex i))))
  | removed {s : State ι} {i : ι} {seen : Option ℕ} (hi : s.calls i = .missed seen)
      (hr : s.removed (vertex i) = true) :
      Step (some i) s (s.move i (if (op i).creates then .absent else .returned (.node none)))
  | notRemoved {s : State ι} {i : ι} {seen : Option ℕ} (hi : s.calls i = .missed seen)
      (hr : s.removed (vertex i) = false) : Step (some i) s (s.move i (.notRemoved seen))
  | readHit {s : State ι} {i : ι} {n : ℕ} {seen : Option ℕ} (hi : s.calls i = .notRemoved seen)
      (hn : s.readOnly (vertex i) = some n) :
      Step (some i) s (s.move i (.returned ((op i).found n)))
  | readMiss {s : State ι} {i : ι} {seen : Option ℕ} (hi : s.calls i = .notRemoved seen)
      (hn : s.readOnly (vertex i) = none) :
      Step (some i) s (s.move i (if (op i).creates then .absent else .returned (.node none)))
  /-- `add_node`, and the name of the node. -/
  | addNode {s : State ι} {i : ι} (hi : s.calls i = .absent) :
      Step (some i) s { s.move i (.created s.nextNode) with
        nextNode := s.nextNode + 1
        names := Function.update s.names s.nextNode (vertex i) }
  /-- `upsert`. -/
  | insert {s : State ι} {i : ι} {n : ℕ} (hi : s.calls i = .created n)
      (hnone : s.updated (vertex i) = none) :
      Step (some i) s { s.move i (.returned ((op i).inserted n)) with
        updated := Function.update s.updated (vertex i) (some n) }
  | rollback {s : State ι} {i : ι} {n m : ℕ} (hi : s.calls i = .created n)
      (hsome : s.updated (vertex i) = some m) :
      Step (some i) s { s.move i (.returned ((op i).found m)) with deleted := s.deleted ++ [n] }
  /-- `remove_vertex`. -/
  | snapshotHit {s : State ι} {i : ι} {n : ℕ} (hi : s.calls i = .locked)
      (hop : op i = .removeVertex) (hn : s.readOnly (vertex i) = some n) :
      Step (some i) s (s.move i (.marking n))
  | snapshotMiss {s : State ι} {i : ι} (hi : s.calls i = .locked)
      (hop : op i = .removeVertex) (hn : s.readOnly (vertex i) = none) :
      Step (some i) s (s.move i (.erasing none false))
  | mark {s : State ι} {i : ι} {n : ℕ} (hi : s.calls i = .marking n) :
      Step (some i) s { s.move i (.erasing (some n) !(s.removed (vertex i))) with
        removed := Function.update s.removed (vertex i) true }
  | erase {s : State ι} {i : ι} {first : Option ℕ} {marked : Bool} {n : ℕ}
      (hi : s.calls i = .erasing first marked) (hn : s.updated (vertex i) = some n) :
      Step (some i) s { s.move i (.deleting n) with
        updated := Function.update s.updated (vertex i) none }
  | eraseMiss {s : State ι} {i : ι} {n : ℕ} {marked : Bool}
      (hi : s.calls i = .erasing (some n) marked) (hn : s.updated (vertex i) = none) :
      Step (some i) s (s.move i (.deleting n))
  | notFound {s : State ι} {i : ι} {marked : Bool} (hi : s.calls i = .erasing none marked)
      (hn : s.updated (vertex i) = none) :
      Step (some i) s (s.move i (.returned (.changed false)))
  | delete {s : State ι} {i : ι} {n : ℕ} (hi : s.calls i = .deleting n) :
      Step (some i) s { s.move i (.returned (.changed true)) with deleted := s.deleted ++ [n] }
  /-- `build`, with the entries of a map in any order. -/
  | build {s : State ι} {l : List ℕ} (hb : s.build = .idle)
      (hfree : ∀ j, (op j).Shares → s.calls j = .idle ∨ ∃ r, s.calls j = .returned r)
      (hl : ∀ v, v ∈ l ↔ s.removed v = true) : Step none s { s with build := .erasing l }
  | eraseOne {s : State ι} {v : ℕ} {l : List ℕ} (hb : s.build = .erasing (v :: l)) :
      Step none s { s with
        readOnly := Function.update s.readOnly v none
        build := .erasing l }
  | eraseEnd {s : State ι} {l : List ℕ} (hb : s.build = .erasing [])
      (hl : ∀ v, v ∈ l ↔ s.updated v ≠ none) : Step none s { s with build := .inserting l }
  | insertOne {s : State ι} {v : ℕ} {l : List ℕ} (hb : s.build = .inserting (v :: l)) :
      Step none s { s with
        readOnly := Function.update s.readOnly v ((s.readOnly v).orElse fun _ => s.updated v)
        build := .inserting l }
  | clearUpdated {s : State ι} (hb : s.build = .inserting []) :
      Step none s { s with updated := fun _ => none, build := .clearing }
  | clearRemoved {s : State ι} (hb : s.build = .clearing) :
      Step none s { s with removed := fun _ => false, build := .idle }

/-- **What a call does to the vertices** of the graph. A new vertex has a node that no other vertex
has. -/
def spec (i : ι) (D : ℕ → Option ℕ) (r : Res) (D' : ℕ → Option ℕ) : Prop :=
  match op i with
  | .addVertex | .getOrCreateVertexId =>
    (∃ n, D (vertex i) = some n ∧ r = (op i).found n ∧ D' = D) ∨
      ∃ n, D (vertex i) = none ∧ (∀ w, D w ≠ some n) ∧ r = (op i).inserted n ∧
        D' = Function.update D (vertex i) (some n)
  | .removeVertex => r = .changed (D (vertex i)).isSome ∧ D' = Function.update D (vertex i) none
  | .find _ => r = .node (D (vertex i)) ∧ D' = D

/-- A removal of a vertex that was removed since the last snapshot, and not added again. -/
def Stale (s : State ι) (i : ι) : Prop :=
  ∃ n, s.calls i = .erasing (some n) false ∧ s.updated (vertex i) = none

/-- A look-up that has read the additions when `build` had cleared them, and reads the removals
before they are cleared. -/
def Torn (s : State ι) (i : ι) : Prop :=
  ∃ n, s.calls i = .missed (some n) ∧ s.removed (vertex i) = true

/-- A step that is neither. -/
def CleanStep (a : Option ι) (s s' : State ι) : Prop :=
  Step op vertex a s s' ∧ ∀ i, a = some i → ¬Stale vertex s i ∧ ¬Torn vertex s i

end Steps

/-! ## The invariant -/

section Invariant

/-- The snapshot does not show the vertex. -/
def Hidden (s : State ι) (v : ℕ) : Prop := s.removed v = true ∨ s.readOnly v = none

/-- **The invariant of the maps**, for each place of `build`. -/
def MapInv (s : State ι) : Prop :=
  match s.build with
  | .idle => ∀ v, s.updated v ≠ none → Hidden s v
  | .erasing l => (∀ v, s.updated v ≠ none → Hidden s v) ∧ (∀ v ∈ l, s.removed v = true) ∧
      ∀ v, s.removed v = true → v ∈ l ∨ s.readOnly v = none
  | .inserting l => (∀ v n, s.updated v = some n →
      s.readOnly v = some n ∨ v ∈ l ∧ s.readOnly v = none) ∧
      ∀ v, s.updated v = none → s.removed v = true → s.readOnly v = none
  | .clearing => ∀ v, s.updated v = none

variable (op : ι → Op) (vertex : ι → ℕ)

/-- Some call has found no vertex and is about to create it. -/
def Pending (s : State ι) (v : ℕ) : Prop :=
  ∃ k, vertex k = v ∧ (s.calls k = .absent ∨ ∃ n, s.calls k = .created n)

/-- **The invariant of a call**, for each of its places. -/
def CallInv (s : State ι) (i : ι) : Prop :=
  match s.calls i with
  | .missed seen => op i ≠ .removeVertex ∧ (seen = none ∨ s.readOnly (vertex i) ≠ none ∧
      (s.removed (vertex i) = false ∨ s.build = .clearing))
  | .notRemoved seen => op i ≠ .removeVertex ∧ s.removed (vertex i) = false ∧
      (seen = none ∨ s.readOnly (vertex i) ≠ none)
  | .absent | .created _ => (op i).creates = true ∧ Hidden s (vertex i)
  | .marking n => op i = .removeVertex ∧ s.readOnly (vertex i) = some n
  | .erasing first marked => op i = .removeVertex ∧ s.readOnly (vertex i) = first ∧
      (first ≠ none → s.removed (vertex i) = true) ∧
      (marked = true → first ≠ none ∧ s.updated (vertex i) = none ∧ ¬Pending vertex s (vertex i))
  | .deleting _ => op i = .removeVertex
  | _ => True

/-- **The invariant.** -/
structure Inv (s : State ι) : Prop where
  maps : MapInv s
  call : ∀ i, CallInv op vertex s i
  /-- The spin locks. -/
  exclusive : ∀ i j, (s.calls i).Holds → (s.calls j).Holds →
    stripe (vertex i) = stripe (vertex j) → i = j
  /-- The lock of the checkpoint. -/
  checkpoint : s.build ≠ .idle → ∀ i, (op i).Shares →
    s.calls i = .idle ∨ ∃ r, s.calls i = .returned r

omit [DecidableEq ι] in
theorem inv_initial : Inv op vertex (initial ι) :=
  ⟨fun _ hv => absurd rfl hv, fun _ => trivial, fun _ _ hi => absurd hi id,
    fun hb => absurd rfl hb⟩

variable {op vertex} {s s' : State ι}

section Reads

omit [DecidableEq ι]

theorem view_of_ne_clearing (hb : s.build ≠ .clearing) (v : ℕ) :
    s.view v = (s.updated v).orElse fun _ => if s.removed v then none else s.readOnly v := by
  unfold State.view
  split
  · exact absurd (by assumption) hb
  · rfl

theorem view_of_updated (hb : s.build ≠ .clearing) {v n : ℕ} (h : s.updated v = some n) :
    s.view v = some n := by
  rw [view_of_ne_clearing hb, h]
  rfl

theorem view_of_hidden (hb : s.build ≠ .clearing) {v : ℕ} (h : Hidden s v) :
    s.view v = s.updated v := by
  rw [view_of_ne_clearing hb]
  cases hu : s.updated v with
  | some n => rfl
  | none =>
    rcases h with h | h
    · simp [h]
    · simp [h]

theorem view_of_shown (hb : s.build ≠ .clearing) {v : ℕ} (hu : s.updated v = none)
    (hr : s.removed v = false) : s.view v = s.readOnly v := by
  rw [view_of_ne_clearing hb, hu, hr]
  rfl

/-- The view of a vertex depends on its entries. -/
theorem view_congr (hb : s.build ≠ .clearing) (hb' : s'.build ≠ .clearing) {v : ℕ}
    (hu : s'.updated v = s.updated v) (hr : s'.removed v = s.removed v)
    (hro : s'.readOnly v = s.readOnly v) : s'.view v = s.view v := by
  rw [view_of_ne_clearing hb, view_of_ne_clearing hb', hu, hr, hro]

/-- A call of an update that is under way keeps `build` out. -/
theorem Inv.idle (h : Inv op vertex s) {i : ι} (hop : (op i).Shares) (hi : s.calls i ≠ .idle)
    (hr : ∀ r, s.calls i ≠ .returned r) : s.build = .idle := by
  by_contra hb
  rcases h.checkpoint hb i hop with hc | ⟨r, hc⟩
  · exact hi hc
  · exact hr r hc

end Reads

theorem Op.shares_of_creates {o : Op} (h : o.creates = true) : o.Shares := by
  rintro rfl
  cases h

theorem Op.shares_removeVertex : Op.removeVertex.Shares := nofun

omit [DecidableEq ι] in
/-- The invariant of a call under a step of another one. -/
theorem CallInv.of_other {j : ι} (h : CallInv op vertex s j) (hc : s'.calls j = s.calls j)
    (hbuild : s'.build = s.build) (hro : s'.readOnly = s.readOnly)
    (hremoved : s'.removed (vertex j) = s.removed (vertex j) ∨
      s'.removed (vertex j) = true ∧
        ∀ seen, s.calls j ≠ .missed seen ∧ s.calls j ≠ .notRemoved seen)
    (hmarked : ∀ first, s.calls j = .erasing first true → s.updated (vertex j) = none →
      ¬Pending vertex s (vertex j) →
      s'.updated (vertex j) = none ∧ ¬Pending vertex s' (vertex j)) : CallInv op vertex s' j := by
  have hhidden : Hidden s (vertex j) → Hidden s' (vertex j) := fun hh => by
    rcases hremoved with hr | ⟨hr, -⟩
    · rw [Hidden, hr, hro]
      exact hh
    · exact Or.inl hr
  unfold CallInv at h ⊢
  rw [hc]
  cases hj : s.calls j with
  | missed seen =>
    simp only [hj] at h ⊢
    rcases hremoved with hr | ⟨-, hne⟩
    · rwa [hro, hbuild, hr]
    · exact absurd hj (hne seen).1
  | notRemoved seen =>
    simp only [hj] at h ⊢
    rcases hremoved with hr | ⟨-, hne⟩
    · rwa [hro, hr]
    · exact absurd hj (hne seen).2
  | absent =>
    simp only [hj] at h ⊢
    exact ⟨h.1, hhidden h.2⟩
  | created n =>
    simp only [hj] at h ⊢
    exact ⟨h.1, hhidden h.2⟩
  | marking n =>
    simp only [hj] at h ⊢
    rwa [hro]
  | erasing first marked =>
    simp only [hj] at h ⊢
    obtain ⟨hop, hfirst, hrem, hmark⟩ := h
    refine ⟨hop, by rw [hro]; exact hfirst, fun hne => ?_, fun hm => ?_⟩
    · rcases hremoved with hr | ⟨hr, -⟩
      · rw [hr]
        exact hrem hne
      · exact hr
    · subst hm
      obtain ⟨hne, hu, hp⟩ := hmark rfl
      exact ⟨hne, hmarked first hj hu hp⟩
  | deleting n => simpa only [hj] using h
  | idle | locked | returned => trivial

/-- The places in which a call is about to create a vertex. -/
def Stage.Creating (c : Stage) : Prop := c = .absent ∨ ∃ n, c = .created n

theorem pending_move {i : ι} {c : Stage} (hcalls : s'.calls = Function.update s.calls i c) {v : ℕ}
    (h : Pending vertex s' v) : Pending vertex s v ∨ vertex i = v ∧ c.Creating := by
  obtain ⟨k, hk, hc⟩ := h
  rw [hcalls] at hc
  by_cases hki : k = i
  · subst hki
    rw [Function.update_self] at hc
    exact Or.inr ⟨hk, hc⟩
  · rw [Function.update_of_ne hki] at hc
    exact Or.inl ⟨k, hk, hc⟩

/-- **A step of one call** keeps the invariant, if it keeps that of the maps and its own. -/
theorem Inv.of_move (h : Inv op vertex s) {i : ι} {c : Stage}
    (hcalls : s'.calls = Function.update s.calls i c) (hbuild : s'.build = s.build)
    (hro : s'.readOnly = s.readOnly) (hmaps : MapInv s') (hself : CallInv op vertex s' i)
    (hholds : c.Holds → (s.calls i).Holds ∨
      ∀ j, (s.calls j).Holds → stripe (vertex j) ≠ stripe (vertex i))
    (hshares : (op i).Shares → s.build = .idle)
    (hcreating : c.Creating → (s.calls i).Holds ∨ (s.calls i).Creating)
    (hremoved : ∀ v, s'.removed v = s.removed v ∨
      s'.removed v = true ∧ v = vertex i ∧ (s.calls i).Holds)
    (hupdated : ∀ v, s.updated v = none → s'.updated v = none ∨ Pending vertex s v) :
    Inv op vertex s' := by
  have hother : ∀ j, j ≠ i → s'.calls j = s.calls j := fun j hj => by
    rw [hcalls, Function.update_of_ne hj]
  have hsame : ∀ j, j ≠ i → (s.calls j).Holds → (s.calls i).Holds → vertex j ≠ vertex i :=
    fun j hj hjh hih hv => hj (h.exclusive j i hjh hih (by rw [hv]))
  refine ⟨hmaps, fun j => ?_, fun j k hj hk hjk => ?_, fun hb j hj => ?_⟩
  · by_cases hji : j = i
    · exact hji ▸ hself
    · refine (h.call j).of_other (hother j hji) hbuild hro ?_ fun first hjf hu hp => ?_
      · rcases hremoved (vertex j) with hr | ⟨hr, hv, hih⟩
        · exact Or.inl hr
        · refine Or.inr ⟨hr, fun seen => ⟨fun hc => ?_, fun hc => ?_⟩⟩ <;>
            exact hsame j hji (by rw [hc]; trivial) hih hv
      · refine ⟨(hupdated _ hu).resolve_right hp, fun hp' => ?_⟩
        -- the call `i` cannot be about to create the vertex that `j` removes
        rcases pending_move hcalls hp' with hc | ⟨hv, hc⟩
        · exact hp hc
        · rcases hcreating hc with hih | hcr
          · exact hsame j hji (by rw [hjf]; trivial) hih hv.symm
          · exact hp ⟨i, hv, hcr⟩
  · by_cases hji : j = i <;> by_cases hki : k = i
    · rw [hji, hki]
    · subst hji
      rw [hcalls, Function.update_self] at hj
      rw [hother k hki] at hk
      rcases hholds hj with hjh | hfree
      · exact h.exclusive j k hjh hk hjk
      · exact absurd hjk.symm (hfree k hk)
    · subst hki
      rw [hcalls, Function.update_self] at hk
      rw [hother j hji] at hj
      rcases hholds hk with hkh | hfree
      · exact h.exclusive j k hj hkh hjk
      · exact absurd hjk (hfree j hj)
    · rw [hother j hji] at hj
      rw [hother k hki] at hk
      exact h.exclusive j k hj hk hjk
  · rw [hbuild] at hb
    by_cases hji : j = i
    · subst hji
      exact absurd (hshares hj) hb
    · rw [hother j hji]
      exact h.checkpoint hb j hj

/-- A step of one call that leaves the maps. -/
theorem Inv.move (h : Inv op vertex s) {i : ι} {c : Stage}
    (hself : CallInv op vertex (s.move i c) i)
    (hholds : c.Holds → (s.calls i).Holds ∨
      ∀ j, (s.calls j).Holds → stripe (vertex j) ≠ stripe (vertex i))
    (hshares : (op i).Shares → s.build = .idle)
    (hcreating : c.Creating → (s.calls i).Holds ∨ (s.calls i).Creating) :
    Inv op vertex (s.move i c) :=
  h.of_move rfl rfl rfl h.maps hself hholds hshares hcreating (fun _ => Or.inl rfl)
    fun _ hu => Or.inl hu

omit [DecidableEq ι] in
/-- **A step of `build`** keeps the invariant, if it keeps that of the maps: the calls that run
along with it are those of `has_vertex`. -/
theorem Inv.of_build (h : Inv op vertex s) (hcalls : s'.calls = s.calls) (hmaps : MapInv s')
    (hquiet : ∀ i, (op i).Shares → s.calls i = .idle ∨ ∃ r, s.calls i = .returned r)
    (hmissed : ∀ v, s.readOnly v ≠ none → s.removed v = false ∨ s.build = .clearing →
      s'.readOnly v ≠ none ∧ (s'.removed v = false ∨ s'.build = .clearing))
    (hremoved : ∀ v, s.removed v = false → s'.removed v = false) : Inv op vertex s' := by
  refine ⟨hmaps, fun i => ?_, ?_, fun _ => ?_⟩
  · have hi := h.call i
    unfold CallInv at hi ⊢
    rw [hcalls]
    cases hc : s.calls i with
    | missed seen =>
      simp only [hc] at hi ⊢
      exact ⟨hi.1, hi.2.imp_right fun hs => hmissed _ hs.1 hs.2⟩
    | notRemoved seen =>
      simp only [hc] at hi ⊢
      exact ⟨hi.1, hremoved _ hi.2.1,
        hi.2.2.imp_right fun hro => (hmissed _ hro (Or.inl hi.2.1)).1⟩
    | absent =>
      simp only [hc] at hi
      rcases hquiet i (Op.shares_of_creates hi.1) with hq | ⟨r, hq⟩ <;> cases hc.symm.trans hq
    | created n =>
      simp only [hc] at hi
      rcases hquiet i (Op.shares_of_creates hi.1) with hq | ⟨r, hq⟩ <;> cases hc.symm.trans hq
    | marking n =>
      simp only [hc] at hi
      rcases hquiet i (hi.1 ▸ Op.shares_removeVertex) with hq | ⟨r, hq⟩ <;> cases hc.symm.trans hq
    | erasing first marked =>
      simp only [hc] at hi
      rcases hquiet i (hi.1 ▸ Op.shares_removeVertex) with hq | ⟨r, hq⟩ <;> cases hc.symm.trans hq
    | deleting n => simpa only [hc] using hi
    | idle | locked | returned => trivial
  · rw [hcalls]
    exact h.exclusive
  · rw [hcalls]
    exact hquiet

omit [DecidableEq ι] in
/-- The maps under a change of the additions and the removals that leaves `build` idle. -/
theorem mapInv_of_idle (hb : s.build = .idle) (h : ∀ v, s.updated v ≠ none → Hidden s v) :
    MapInv s := by
  unfold MapInv
  rw [hb]
  exact h

omit [DecidableEq ι] in
theorem Inv.hidden_of_idle (h : Inv op vertex s) (hb : s.build = .idle) {v : ℕ}
    (hv : s.updated v ≠ none) : Hidden s v := by
  have hm := h.maps
  unfold MapInv at hm
  rw [hb] at hm
  exact hm v hv

/-- The look-up has found nothing. -/
theorem callInv_notFound {i : ι} (hhidden : (op i).creates = true → Hidden s (vertex i)) :
    CallInv op vertex
      (s.move i (if (op i).creates then .absent else .returned (.node none))) i := by
  unfold CallInv
  simp only [State.move, Function.update_self]
  by_cases hc : (op i).creates = true
  · simp only [if_pos hc]
    exact ⟨hc, hhidden hc⟩
  · simp only [if_neg hc]

omit [DecidableEq ι] in
/-- A call with its spin lock that is not one of `has_vertex` keeps `build` out. -/
theorem Inv.idle_of_holds (h : Inv op vertex s) {i : ι} (hop : (op i).Shares)
    (hi : (s.calls i).Holds) : s.build = .idle :=
  h.idle hop (fun hc => by rw [hc] at hi; exact hi) fun r hc => by rw [hc] at hi; exact hi

/-- **Each step keeps the invariant.** -/
theorem Step.inv {a : Option ι} (hstep : Step op vertex a s s') (h : Inv op vertex s) :
    Inv op vertex s' := by
  cases hstep with
  | lock hi hcheckpoint hfree =>
    refine h.move ?_ (fun _ => Or.inr hfree) hcheckpoint (by rintro (hc | ⟨n, hc⟩) <;> cases hc)
    simp only [CallInv, State.move, Function.update_self]
  | hit hi hop hn =>
    refine h.move ?_ nofun (fun hs => h.idle_of_holds hs (by rw [hi]; trivial))
      (by rintro (hc | ⟨n, hc⟩) <;> cases hc)
    simp only [CallInv, State.move, Function.update_self]
  | @miss _ i hi hop hn =>
    refine h.move ?_ (fun _ => Or.inl (by rw [hi]; trivial))
      (fun hs => h.idle_of_holds hs (by rw [hi]; trivial)) (by rintro (hc | ⟨n, hc⟩) <;> cases hc)
    simp only [CallInv, State.move, Function.update_self]
    refine ⟨hop, ?_⟩
    by_cases hb : s.build = .clearing
    · by_cases hro : s.readOnly (vertex i) = none
      · exact Or.inl (by simp only [State.view, hb, hro])
      · exact Or.inr ⟨hro, Or.inr hb⟩
    · rw [view_of_ne_clearing hb, hn]
      by_cases hr : s.removed (vertex i) = true
      · exact Or.inl (by simp [hr])
      · by_cases hro : s.readOnly (vertex i) = none
        · exact Or.inl (by simp [hro])
        · exact Or.inr ⟨hro, Or.inl (by simpa using hr)⟩
  | @removed _ i seen hi hr =>
    refine h.move (callInv_notFound fun _ => Or.inl hr) ?_
      (fun hs => h.idle_of_holds hs (by rw [hi]; trivial))
      (fun _ => Or.inl (by rw [hi]; trivial))
    split_ifs <;> exact nofun
  | @notRemoved _ i seen hi hr =>
    have hc := h.call i
    simp only [CallInv, hi] at hc
    refine h.move ?_ (fun _ => Or.inl (by rw [hi]; trivial))
      (fun hs => h.idle_of_holds hs (by rw [hi]; trivial)) (by rintro (hc | ⟨n, hc⟩) <;> cases hc)
    simp only [CallInv, State.move, Function.update_self]
    exact ⟨hc.1, hr, hc.2.imp_right And.left⟩
  | readHit hi hn =>
    refine h.move ?_ nofun (fun hs => h.idle_of_holds hs (by rw [hi]; trivial))
      (by rintro (hc | ⟨n, hc⟩) <;> cases hc)
    simp only [CallInv, State.move, Function.update_self]
  | @readMiss _ i seen hi hn =>
    refine h.move (callInv_notFound fun _ => Or.inr hn) ?_
      (fun hs => h.idle_of_holds hs (by rw [hi]; trivial))
      (fun _ => Or.inl (by rw [hi]; trivial))
    split_ifs <;> exact nofun
  | @addNode _ i hi =>
    have hc := h.call i
    simp only [CallInv, hi] at hc
    refine h.of_move rfl rfl rfl h.maps ?_ nofun
      (fun hs => h.idle hs (by simp [hi]) (by simp [hi])) (fun _ => Or.inr (Or.inl hi))
      (fun _ => Or.inl rfl) fun _ hu => Or.inl hu
    simp only [CallInv, State.move, Function.update_self]
    exact hc
  | @insert _ i n hi hnone =>
    have hc := h.call i
    simp only [CallInv, hi] at hc
    have hb := h.idle (Op.shares_of_creates hc.1) (by simp [hi]) (by simp [hi])
    refine h.of_move rfl rfl rfl (mapInv_of_idle hb fun v hv => ?_) ?_ nofun (fun _ => hb)
      (by rintro (hc | ⟨n, hc⟩) <;> cases hc) (fun _ => Or.inl rfl) fun v hu => ?_
    · by_cases hvi : v = vertex i
      · exact hvi ▸ hc.2
      · exact h.hidden_of_idle hb (by simpa [Function.update_of_ne hvi] using hv)
    · simp only [CallInv, State.move, Function.update_self]
    · by_cases hvi : v = vertex i
      · exact Or.inr ⟨i, hvi.symm, Or.inr ⟨n, hi⟩⟩
      · exact Or.inl (by simpa [Function.update_of_ne hvi] using hu)
  | @rollback _ i n m hi hsome =>
    have hc := h.call i
    simp only [CallInv, hi] at hc
    refine h.of_move rfl rfl rfl h.maps ?_ nofun
      (fun hs => h.idle hs (by simp [hi]) (by simp [hi]))
      (by rintro (hc | ⟨n, hc⟩) <;> cases hc) (fun _ => Or.inl rfl) fun _ hu => Or.inl hu
    simp only [CallInv, State.move, Function.update_self]
  | snapshotHit hi hop hn =>
    refine h.move ?_ (fun _ => Or.inl (by rw [hi]; trivial))
      (fun hs => h.idle_of_holds hs (by rw [hi]; trivial)) (by rintro (hc | ⟨n, hc⟩) <;> cases hc)
    simp only [CallInv, State.move, Function.update_self]
    exact ⟨hop, hn⟩
  | snapshotMiss hi hop hn =>
    refine h.move ?_ (fun _ => Or.inl (by rw [hi]; trivial))
      (fun hs => h.idle_of_holds hs (by rw [hi]; trivial)) (by rintro (hc | ⟨n, hc⟩) <;> cases hc)
    simp only [CallInv, State.move, Function.update_self]
    exact ⟨hop, hn, fun hc => absurd rfl hc, nofun⟩
  | @mark _ i n hi =>
    have hc := h.call i
    simp only [CallInv, hi] at hc
    have hb := h.idle_of_holds (hc.1 ▸ Op.shares_removeVertex) (i := i) (by rw [hi]; trivial)
    refine h.of_move rfl rfl rfl (mapInv_of_idle hb fun v hv => ?_) ?_
      (fun _ => Or.inl (by rw [hi]; trivial)) (fun _ => hb)
      (by rintro (hc | ⟨n, hc⟩) <;> cases hc) (fun v => ?_) fun _ hu => Or.inl hu
    · by_cases hvi : v = vertex i
      · exact Or.inl (by simp [hvi])
      · refine (h.hidden_of_idle hb hv).imp_left fun hr => ?_
        simpa [Function.update_of_ne hvi] using hr
    · -- a vertex that the snapshot shows is not among the additions, and none is about to add it
      simp only [CallInv, State.move, Function.update_self]
      refine ⟨hc.1, hc.2, fun _ => trivial, fun hm => ⟨nofun, ?_, ?_⟩⟩
      · by_contra hu
        rcases h.hidden_of_idle hb hu with hr | hro
        · simp [hr] at hm
        · simp [hc.2] at hro
      · intro hp
        have hp' : Pending vertex s (vertex i) :=
          (pending_move rfl hp).resolve_right fun hcr => by
            rcases hcr.2 with hcr | ⟨n, hcr⟩ <;> cases hcr
        obtain ⟨k, hk, hcreating⟩ := hp'
        have hck := h.call k
        have hhidden : Hidden s (vertex k) := by
          rcases hcreating with hcr | ⟨n, hcr⟩ <;> simp only [CallInv, hcr] at hck <;> exact hck.2
        rw [hk] at hhidden
        rcases hhidden with hr | hro
        · simp [hr] at hm
        · simp [hc.2] at hro
    · by_cases hvi : v = vertex i
      · exact Or.inr ⟨by simp [hvi], hvi, by rw [hi]; trivial⟩
      · exact Or.inl (Function.update_of_ne hvi _ _)
  | @erase _ i first marked n hi hn =>
    have hc := h.call i
    simp only [CallInv, hi] at hc
    have hb := h.idle_of_holds (hc.1 ▸ Op.shares_removeVertex) (i := i) (by rw [hi]; trivial)
    refine h.of_move rfl rfl rfl (mapInv_of_idle hb fun v hv => ?_) ?_ nofun (fun _ => hb)
      (by rintro (hc | ⟨n, hc⟩) <;> cases hc) (fun _ => Or.inl rfl) fun v hu => Or.inl ?_
    · by_cases hvi : v = vertex i
      · exact absurd (by simp [hvi]) hv
      · exact h.hidden_of_idle hb (by simpa [Function.update_of_ne hvi] using hv)
    · simp only [CallInv, State.move, Function.update_self]
      exact hc.1
    · by_cases hvi : v = vertex i
      · simp [hvi]
      · simpa [Function.update_of_ne hvi] using hu
  | @eraseMiss _ i n marked hi hn =>
    have hc := h.call i
    simp only [CallInv, hi] at hc
    refine h.move ?_ nofun (fun hs => h.idle_of_holds hs (by rw [hi]; trivial))
      (by rintro (hc | ⟨n, hc⟩) <;> cases hc)
    simp only [CallInv, State.move, Function.update_self]
    exact hc.1
  | notFound hi hn =>
    refine h.move ?_ nofun (fun hs => h.idle_of_holds hs (by rw [hi]; trivial))
      (by rintro (hc | ⟨n, hc⟩) <;> cases hc)
    simp only [CallInv, State.move, Function.update_self]
  | @delete _ i n hi =>
    refine h.of_move rfl rfl rfl h.maps ?_ nofun
      (fun hs => h.idle hs (by simp [hi]) (by simp [hi]))
      (by rintro (hc | ⟨n, hc⟩) <;> cases hc) (fun _ => Or.inl rfl) fun _ hu => Or.inl hu
    simp only [CallInv, State.move, Function.update_self]
  | build hb hfree hl =>
    refine h.of_build rfl ⟨fun v hv => h.hidden_of_idle hb hv, fun v hv => (hl v).mp hv,
      fun v hv => Or.inl ((hl v).mpr hv)⟩ hfree (fun v hro hr => ⟨hro, ?_⟩) fun _ hr => hr
    rcases hr with hr | hr
    · exact Or.inl hr
    · cases hb.symm.trans hr
  | @eraseOne _ v l hb =>
    obtain ⟨hhidden, hremoved, hleft⟩ : (∀ v, s.updated v ≠ none → Hidden s v) ∧
        (∀ w ∈ v :: l, s.removed w = true) ∧
        ∀ w, s.removed w = true → w ∈ v :: l ∨ s.readOnly w = none := by
      simpa only [MapInv, hb] using h.maps
    refine h.of_build rfl ⟨fun w hw => ?_, fun w hw => hremoved w (List.mem_cons_of_mem v hw),
      fun w hw => ?_⟩ (h.checkpoint (by simp [hb])) (fun w hro hr => ?_) fun _ hr => hr
    · by_cases hwv : w = v
      · exact Or.inr (by simp [hwv])
      · simpa [Hidden, Function.update_of_ne hwv] using hhidden w hw
    · by_cases hwv : w = v
      · exact Or.inr (by simp [hwv])
      · simpa [Function.update_of_ne hwv, hwv] using hleft w hw
    · rcases hr with hr | hr
      · have hwv : w ≠ v := by
          rintro rfl
          simp [hremoved w List.mem_cons_self] at hr
        exact ⟨by simpa [Function.update_of_ne hwv] using hro, Or.inl hr⟩
      · cases hb.symm.trans hr
  | @eraseEnd _ l hb hl =>
    obtain ⟨hhidden, -, hleft⟩ : (∀ v, s.updated v ≠ none → Hidden s v) ∧
        (∀ w ∈ ([] : List ℕ), s.removed w = true) ∧
        ∀ w, s.removed w = true → w ∈ ([] : List ℕ) ∨ s.readOnly w = none := by
      simpa only [MapInv, hb] using h.maps
    have hgone : ∀ w, s.removed w = true → s.readOnly w = none := fun w hw =>
      (hleft w hw).resolve_left List.not_mem_nil
    have hne : ∀ {w n}, s.updated w = some n → s.updated w ≠ none := fun hn => by simp [hn]
    refine h.of_build rfl ⟨fun w n hn => Or.inr ⟨(hl w).mpr (hne hn), ?_⟩,
      fun w _ hw => hgone w hw⟩ (h.checkpoint (by simp [hb])) (fun w hro hr => ⟨hro, ?_⟩)
      fun _ hr => hr
    · rcases hhidden w (hne hn) with hr | hro
      · exact hgone w hr
      · exact hro
    · rcases hr with hr | hr
      · exact Or.inl hr
      · cases hb.symm.trans hr
  | @insertOne _ v l hb =>
    obtain ⟨hadd, hgone⟩ : (∀ w n, s.updated w = some n →
        s.readOnly w = some n ∨ w ∈ v :: l ∧ s.readOnly w = none) ∧
        ∀ w, s.updated w = none → s.removed w = true → s.readOnly w = none := by
      simpa only [MapInv, hb] using h.maps
    refine h.of_build rfl ⟨fun w n hn => ?_, fun w hu hw => ?_⟩ (h.checkpoint (by simp [hb]))
      (fun w hro hr => ?_) fun _ hr => hr
    · replace hn : s.updated w = some n := hn
      by_cases hwv : w = v
      · subst hwv
        rcases hadd w n hn with hro | ⟨-, hro⟩ <;> exact Or.inl (by simp [hro, hn])
      · simpa [Function.update_of_ne hwv, hwv] using hadd w n hn
    · replace hu : s.updated w = none := hu
      by_cases hwv : w = v
      · subst hwv
        simp [hgone w hu hw, hu]
      · simpa [Function.update_of_ne hwv] using hgone w hu hw
    · rcases hr with hr | hr
      · refine ⟨?_, Or.inl hr⟩
        by_cases hwv : w = v
        · subst hwv
          obtain ⟨n, hn⟩ := Option.ne_none_iff_exists'.mp hro
          simp [hn]
        · simpa [Function.update_of_ne hwv] using hro
      · cases hb.symm.trans hr
  | clearUpdated hb =>
    exact h.of_build rfl (fun _ => rfl) (h.checkpoint (by simp [hb]))
      (fun _ hro _ => ⟨hro, Or.inr rfl⟩) fun _ hr => hr
  | clearRemoved hb =>
    have hu : ∀ v, s.updated v = none := by simpa only [MapInv, hb] using h.maps
    exact h.of_build rfl (fun v hv => absurd (hu v) hv) (h.checkpoint (by simp [hb]))
      (fun _ hro _ => ⟨hro, Or.inl rfl⟩) fun _ _ => rfl

end Invariant

/-! ## The view -/

section View

variable {op : ι → Op} {vertex : ι → ℕ} {s s' : State ι} {i : ι}

omit [DecidableEq ι] in
/-- A change of the entries of one vertex. -/
theorem view_eq_update (hb : s.build ≠ .clearing) (hb' : s'.build = s.build) {v : ℕ}
    (hu : ∀ w, w ≠ v → s'.updated w = s.updated w) (hr : ∀ w, w ≠ v → s'.removed w = s.removed w)
    (hro : s'.readOnly = s.readOnly) : s'.view = Function.update s.view v (s'.view v) := by
  funext w
  by_cases hw : w = v
  · rw [hw, Function.update_self]
  · rw [Function.update_of_ne hw]
    exact view_congr hb (hb' ▸ hb) (hu w hw) (hr w hw) (by rw [hro])

omit [DecidableEq ι] in
/-- A vertex that a call is about to insert, and that no other one has inserted, is not there. -/
theorem Inv.view_created (h : Inv op vertex s) {n : ℕ} (hi : s.calls i = .created n) :
    s.build = .idle ∧ s.view (vertex i) = s.updated (vertex i) := by
  have hc := h.call i
  simp only [CallInv, hi] at hc
  have hb := h.idle (Op.shares_of_creates hc.1) (by simp [hi]) (by simp [hi])
  exact ⟨hb, view_of_hidden (by simp [hb]) hc.2⟩

omit [DecidableEq ι] in
/-- The insertion of a vertex. -/
theorem Inv.view_insert (h : Inv op vertex s) {n : ℕ} (hi : s.calls i = .created n)
    (hbuild : s'.build = s.build) (hu : s'.updated = Function.update s.updated (vertex i) (some n))
    (hr : s'.removed = s.removed) (hro : s'.readOnly = s.readOnly) :
    s'.view = Function.update s.view (vertex i) (some n) := by
  have hb : s.build ≠ .clearing := by simp [(h.view_created hi).1]
  rw [view_eq_update (v := vertex i) hb hbuild (fun w hw => by rw [hu, Function.update_of_ne hw])
    (fun w _ => by rw [hr]) hro,
    view_of_updated (hbuild ▸ hb) (by rw [hu, Function.update_self])]

omit [DecidableEq ι] in
/-- What a removal is about to erase from the additions was not removed by its mark. -/
theorem Inv.view_erasing (h : Inv op vertex s) {first : Option ℕ} {marked : Bool}
    (hi : s.calls i = .erasing first marked) :
    s.build = .idle ∧ (∀ n, s.updated (vertex i) = some n → marked = false) ∧
      s.view (vertex i) = s.updated (vertex i) := by
  have hc := h.call i
  simp only [CallInv, hi] at hc
  obtain ⟨hop, hfirst, hrem, hmark⟩ := hc
  have hidle := h.idle_of_holds (hop ▸ Op.shares_removeVertex) (i := i) (by rw [hi]; trivial)
  refine ⟨hidle, fun n hn => Bool.eq_false_iff.mpr fun hm => by simp [(hmark hm).2.1] at hn,
    view_of_hidden (by simp [hidle]) ?_⟩
  by_cases hne : first = none
  · exact Or.inr (hfirst.trans hne)
  · exact Or.inl (hrem hne)

omit [DecidableEq ι] in
/-- The removal of a vertex from the additions. -/
theorem Inv.view_erase (h : Inv op vertex s) {first : Option ℕ} {marked : Bool} {n : ℕ}
    (hi : s.calls i = .erasing first marked) (hn : s.updated (vertex i) = some n)
    (hbuild : s'.build = s.build) (hu : s'.updated = Function.update s.updated (vertex i) none)
    (hr : s'.removed = s.removed) (hro : s'.readOnly = s.readOnly) :
    s'.view = Function.update s.view (vertex i) none := by
  have hidle := (h.view_erasing hi).1
  have hb : s.build ≠ .clearing := by simp [hidle]
  have hhidden : Hidden s' (vertex i) := by
    rw [Hidden, hr, hro]
    exact h.hidden_of_idle hidle (by simp [hn])
  rw [view_eq_update (v := vertex i) hb hbuild (fun w hw => by rw [hu, Function.update_of_ne hw])
    (fun w _ => by rw [hr]) hro, view_of_hidden (hbuild ▸ hb) hhidden, hu, Function.update_self]

omit [DecidableEq ι] in
/-- A vertex of the snapshot that is about to be marked is there, unless it was removed before. -/
theorem Inv.view_marking (h : Inv op vertex s) {n : ℕ} (hi : s.calls i = .marking n) :
    s.build = .idle ∧ (s.removed (vertex i) = true → s.view (vertex i) = s.updated (vertex i)) ∧
      (s.removed (vertex i) = false →
        s.updated (vertex i) = none ∧ s.view (vertex i) = some n) := by
  have hc := h.call i
  simp only [CallInv, hi] at hc
  obtain ⟨hop, hn⟩ := hc
  have hidle := h.idle_of_holds (hop ▸ Op.shares_removeVertex) (i := i) (by rw [hi]; trivial)
  refine ⟨hidle, fun hrem => view_of_hidden (by simp [hidle]) (Or.inl hrem), fun hrem => ?_⟩
  have hnone : s.updated (vertex i) = none := by
    by_contra hne
    rcases h.hidden_of_idle hidle hne with hc | hc
    · simp [hc] at hrem
    · simp [hc] at hn
  exact ⟨hnone, (view_of_shown (by simp [hidle]) hnone hrem).trans hn⟩

omit [DecidableEq ι] in
/-- The mark of a vertex of the snapshot. -/
theorem Inv.view_mark (h : Inv op vertex s) {n : ℕ} (hi : s.calls i = .marking n)
    (hbuild : s'.build = s.build) (hu : s'.updated = s.updated)
    (hr : s'.removed = Function.update s.removed (vertex i) true)
    (hro : s'.readOnly = s.readOnly) :
    s'.view = Function.update s.view (vertex i) (s.updated (vertex i)) := by
  have hb : s.build ≠ .clearing := by simp [(h.view_marking hi).1]
  rw [view_eq_update (v := vertex i) hb hbuild (fun w _ => by rw [hu])
    (fun w hw => by rw [hr, Function.update_of_ne hw]) hro,
    view_of_hidden (hbuild ▸ hb) (Or.inl (by rw [hr, Function.update_self])), hu]

/-- **`build` leaves the vertices** of the graph. -/
theorem Step.view_build (hstep : Step op vertex none s s') (h : Inv op vertex s) :
    s'.view = s.view := by
  funext v
  cases hstep with
  | build hb hfree hl => exact view_congr (by simp [hb]) (by simp) rfl rfl rfl
  | @eraseOne _ w l hb =>
    obtain ⟨-, hremoved, -⟩ : (∀ v, s.updated v ≠ none → Hidden s v) ∧
        (∀ x ∈ w :: l, s.removed x = true) ∧
        ∀ x, s.removed x = true → x ∈ w :: l ∨ s.readOnly x = none := by
      simpa only [MapInv, hb] using h.maps
    by_cases hv : v = w
    · subst hv
      have hr := hremoved v List.mem_cons_self
      rw [view_of_hidden (by simp [hb]) (Or.inl hr)]
      exact view_of_hidden (by simp) (Or.inl hr)
    · exact view_congr (by simp [hb]) (by simp) rfl rfl (by simp [Function.update_of_ne hv])
  | eraseEnd hb hl => exact view_congr (by simp [hb]) (by simp) rfl rfl rfl
  | @insertOne _ w l hb =>
    by_cases hv : v = w
    · subst hv
      rw [view_of_ne_clearing (s := s) (by simp [hb])]
      refine (view_of_ne_clearing (by simp) v).trans ?_
      cases hu : s.updated v with
      | some n => rfl
      | none => simp
    · exact view_congr (by simp [hb]) (by simp) rfl rfl (by simp [Function.update_of_ne hv])
  | clearUpdated hb =>
    obtain ⟨hadd, hgone⟩ : (∀ x n, s.updated x = some n →
        s.readOnly x = some n ∨ x ∈ ([] : List ℕ) ∧ s.readOnly x = none) ∧
        ∀ x, s.updated x = none → s.removed x = true → s.readOnly x = none := by
      simpa only [MapInv, hb] using h.maps
    rw [view_of_ne_clearing (s := s) (by simp [hb])]
    cases hu : s.updated v with
    | some n => exact (hadd v n hu).resolve_right fun hc => List.not_mem_nil hc.1
    | none =>
      cases hr : s.removed v with
      | true => exact hgone v hu hr
      | false => rfl
  | clearRemoved hb =>
    have hu : ∀ v, s.updated v = none := by simpa only [MapInv, hb] using h.maps
    have hafter := view_of_shown (s := { s with removed := fun _ => false, build := .idle })
      (by simp) (hu v) rfl
    rw [hafter]
    simp only [State.view, hb]

end View

/-! ## The nodes -/

section Nodes

/-- What a node is: not created, created by a call that has still to insert it, the node of a
vertex, to be deleted by a call, or deleted. -/
inductive Fate (ι : Type*)
  | free
  | pending (i : ι)
  | mapped (v : ℕ)
  | doomed (i : ι)
  | deleted
  deriving DecidableEq

/-- The node that a call has to insert (`true`) or to delete (`false`). -/
def Stage.owns : Stage → Option (ℕ × Bool)
  | .created n => some (n, true)
  | .deleting n | .erasing (some n) true => some (n, false)
  | _ => none

/-- The fate of a node, as the state shows it. -/
structure FateOf (vertex : ι → ℕ) (s : State ι) (n : ℕ) (f : Fate ι) : Prop where
  free : f = .free ↔ s.nextNode ≤ n
  pending : ∀ i, f = .pending i ↔ (s.calls i).owns = some (n, true)
  mapped : ∀ v, f = .mapped v ↔ s.view v = some n
  doomed : ∀ i, f = .doomed i ↔ (s.calls i).owns = some (n, false)
  deleted : f = .deleted ↔ n ∈ s.deleted
  mappedName : ∀ v, f = .mapped v → s.names n = v
  pendingName : ∀ i, f = .pending i → s.names n = vertex i

/-- **Each node has one fate**, and is deleted once. -/
structure Fated (vertex : ι → ℕ) (s : State ι) (fate : ℕ → Fate ι) : Prop where
  fateOf : ∀ n, FateOf vertex s n (fate n)
  nodup : s.deleted.Nodup

variable {op : ι → Op} {vertex : ι → ℕ} {s s' : State ι} {fate : ℕ → Fate ι} {i : ι}

omit [DecidableEq ι] in
theorem fated_initial : Fated vertex (initial ι) fun _ => .free :=
  ⟨fun n => ⟨iff_of_true rfl (Nat.zero_le n), fun _ => iff_of_false nofun nofun,
    fun _ => iff_of_false nofun nofun, fun _ => iff_of_false nofun nofun,
    iff_of_false nofun List.not_mem_nil, nofun, nofun⟩, List.nodup_nil⟩

omit [DecidableEq ι] in
/-- The fate of a node that a step does not touch. -/
theorem FateOf.congr {n : ℕ} {f : Fate ι} (h : FateOf vertex s n f)
    (hfree : s'.nextNode ≤ n ↔ s.nextNode ≤ n)
    (howns : ∀ i b, (s'.calls i).owns = some (n, b) ↔ (s.calls i).owns = some (n, b))
    (hview : ∀ v, s'.view v = some n ↔ s.view v = some n)
    (hdeleted : n ∈ s'.deleted ↔ n ∈ s.deleted) (hnames : s'.names n = s.names n) :
    FateOf vertex s' n f :=
  ⟨h.free.trans hfree.symm, fun i => (h.pending i).trans (howns i true).symm,
    fun v => (h.mapped v).trans (hview v).symm, fun i => (h.doomed i).trans (howns i false).symm,
    h.deleted.trans hdeleted.symm, fun v hv => hnames.trans (h.mappedName v hv),
    fun i hi => hnames.trans (h.pendingName i hi)⟩

omit [DecidableEq ι] in
/-- A step that touches no node. -/
theorem Fated.congr (h : Fated vertex s fate) (hnext : s'.nextNode = s.nextNode)
    (howns : ∀ i, (s'.calls i).owns = (s.calls i).owns) (hview : s'.view = s.view)
    (hdeleted : s'.deleted = s.deleted) (hnames : s'.names = s.names) : Fated vertex s' fate :=
  ⟨fun n => (h.fateOf n).congr (by rw [hnext]) (fun i b => by rw [howns]) (fun v => by rw [hview])
    (by rw [hdeleted]) (by rw [hnames]), hdeleted ▸ h.nodup⟩

/-- A move of a call that touches no node. -/
theorem Fated.move (h : Fated vertex s fate) {c : Stage} (hc : c.owns = (s.calls i).owns) :
    Fated vertex (s.move i c) fate := by
  refine h.congr rfl (fun j => ?_) rfl rfl rfl
  by_cases hj : j = i
  · subst hj
    simp only [State.move, Function.update_self, hc]
  · simp only [State.move, Function.update_of_ne hj]

/-- **A step that touches one node**, which the call has or gets. -/
theorem Fated.update (h : Fated vertex s fate) {c : Stage} {n : ℕ} {f : Fate ι}
    (hcalls : s'.calls = Function.update s.calls i c)
    (hold : ∀ m b, (s.calls i).owns = some (m, b) → m = n)
    (hnew : ∀ m b, c.owns = some (m, b) → m = n)
    (hnext : ∀ m, m ≠ n → (s'.nextNode ≤ m ↔ s.nextNode ≤ m))
    (hview : ∀ m, m ≠ n → ∀ v, s'.view v = some m ↔ s.view v = some m)
    (hdeleted : ∀ m, m ≠ n → (m ∈ s'.deleted ↔ m ∈ s.deleted))
    (hnames : ∀ m, m ≠ n → s'.names m = s.names m) (hnodup : s'.deleted.Nodup)
    (hf : FateOf vertex s' n f) : Fated vertex s' (Function.update fate n f) := by
  refine ⟨fun m => ?_, hnodup⟩
  by_cases hm : m = n
  · subst hm
    rwa [Function.update_self]
  · rw [Function.update_of_ne hm]
    refine (h.fateOf m).congr (hnext m hm) (fun j b => ?_) (hview m hm) (hdeleted m hm)
      (hnames m hm)
    by_cases hj : j = i
    · subst hj
      rw [hcalls, Function.update_self]
      exact iff_of_false (fun hc => hm (hnew m b hc)) fun hc => hm (hold m b hc)
    · rw [hcalls, Function.update_of_ne hj]

/-- The owners of a node after a move of the call that has or gets it. -/
theorem owns_update {c : Stage} (hcalls : s'.calls = Function.update s.calls i c) {n : ℕ} {b : Bool}
    (hother : ∀ j, (s.calls j).owns = some (n, b) → j = i) (j : ι) :
    (s'.calls j).owns = some (n, b) ↔ j = i ∧ c.owns = some (n, b) := by
  rw [hcalls]
  by_cases hj : j = i
  · subst hj
    simp
  · rw [Function.update_of_ne hj]
    exact iff_of_false (fun hc => hj (hother j hc)) fun hc => hj hc.1

/-- `add_node`. -/
theorem Fated.addNode (h : Fated vertex s fate) (hi : s.calls i = .absent) :
    Fated vertex { s.move i (.created s.nextNode) with
      nextNode := s.nextNode + 1
      names := Function.update s.names s.nextNode (vertex i) }
      (Function.update fate s.nextNode (.pending i)) := by
  have hn := h.fateOf s.nextNode
  have hfree : fate s.nextNode = .free := hn.free.mpr le_rfl
  rw [hfree] at hn
  have howns : ∀ j b, (s.calls j).owns ≠ some (s.nextNode, b) := fun j b hj => by
    cases b with
    | true => cases (hn.pending j).mpr hj
    | false => cases (hn.doomed j).mpr hj
  refine h.update rfl (fun m b hm => by simp [hi, Stage.owns] at hm)
    (fun m b hm => (Prod.mk.inj (Option.some.inj hm)).1.symm) (fun m hm => ?_)
    (fun _ _ _ => Iff.rfl) (fun _ _ => Iff.rfl) (fun m hm => Function.update_of_ne hm _ _) h.nodup
    ?_
  · simp only
    omega
  · refine ⟨by simp, fun j => ?_, fun v => ?_, fun j => ?_, ?_, nofun, fun j hj => ?_⟩
    · rw [owns_update rfl (fun j hj => absurd hj (howns j true))]
      simp [Stage.owns, eq_comm]
    · exact iff_of_false nofun fun hv => by cases (hn.mapped v).mpr hv
    · rw [owns_update rfl (fun j hj => absurd hj (howns j false))]
      simp [Stage.owns]
    · exact iff_of_false nofun fun hd => by cases hn.deleted.mpr hd
    · obtain rfl : i = j := by simpa using hj
      simp

/-- The insertion of a node for a vertex. -/
theorem Fated.insert (h : Fated vertex s fate) {c : Stage} {n : ℕ}
    (hi : (s.calls i).owns = some (n, true)) (hc : c.owns = none)
    (hcalls : s'.calls = Function.update s.calls i c) (hnone : s.view (vertex i) = none)
    (hview : s'.view = Function.update s.view (vertex i) (some n))
    (hnext : s'.nextNode = s.nextNode) (hdeleted : s'.deleted = s.deleted)
    (hnames : s'.names = s.names) :
    Fated vertex s' (Function.update fate n (.mapped (vertex i))) := by
  have hn := h.fateOf n
  rw [(hn.pending i).mpr hi] at hn
  have hother : ∀ j b, (s.calls j).owns = some (n, b) → j = i := fun j b hj => by
    cases b with
    | true => simpa using ((hn.pending j).mpr hj).symm
    | false => cases (hn.doomed j).mpr hj
  refine h.update hcalls (fun m b hm => (Prod.mk.inj (Option.some.inj (hi.symm.trans hm))).1.symm)
    (fun m b hm => by rw [hc] at hm; cases hm) (fun m _ => by rw [hnext]) (fun m hm v => ?_)
    (fun m _ => by rw [hdeleted]) (fun m _ => by rw [hnames]) (hdeleted ▸ h.nodup) ?_
  · rw [hview]
    by_cases hv : v = vertex i
    · subst hv
      simp [hnone, Ne.symm hm]
    · rw [Function.update_of_ne hv]
  · refine ⟨iff_of_false nofun fun hle => ?_, fun j => ?_, fun v => ?_, fun j => ?_,
      iff_of_false nofun fun hd => ?_, fun v hv => ?_, nofun⟩
    · rw [hnext] at hle
      cases hn.free.mpr hle
    · rw [owns_update hcalls fun j => hother j true, hc]
      exact iff_of_false nofun fun hj => nomatch hj.2
    · rw [hview]
      by_cases hv : v = vertex i
      · simp [hv]
      · rw [Function.update_of_ne hv]
        exact iff_of_false (fun hm => hv (by simpa using hm.symm)) fun hm => by
          cases (hn.mapped v).mpr hm
    · rw [owns_update hcalls fun j => hother j false, hc]
      exact iff_of_false nofun fun hj => nomatch hj.2
    · rw [hdeleted] at hd
      cases hn.deleted.mpr hd
    · obtain rfl : vertex i = v := by simpa using hv
      rw [hnames]
      exact hn.pendingName i rfl

/-- The removal of a vertex, whose node the call has to delete. -/
theorem Fated.doom (h : Fated vertex s fate) {c : Stage} {n v : ℕ}
    (hi : (s.calls i).owns = none) (hc : c.owns = some (n, false))
    (hcalls : s'.calls = Function.update s.calls i c) (hn : s.view v = some n)
    (hview : s'.view = Function.update s.view v none) (hnext : s'.nextNode = s.nextNode)
    (hdeleted : s'.deleted = s.deleted) (hnames : s'.names = s.names) :
    Fated vertex s' (Function.update fate n (.doomed i)) := by
  have hmapped := ((h.fateOf n).mapped v).mpr hn
  have hn := h.fateOf n
  rw [hmapped] at hn
  have hother : ∀ j b, (s.calls j).owns = some (n, b) → j = i := fun j b hj => by
    cases b with
    | true => cases (hn.pending j).mpr hj
    | false => cases (hn.doomed j).mpr hj
  have honly : ∀ w, s.view w = some n → w = v := fun w hw => by
    simpa using ((hn.mapped w).mpr hw).symm
  refine h.update hcalls (fun m b hm => by rw [hi] at hm; cases hm)
    (fun m b hm => (Prod.mk.inj (Option.some.inj (hc.symm.trans hm))).1.symm)
    (fun m _ => by rw [hnext]) (fun m hm w => ?_) (fun m _ => by rw [hdeleted])
    (fun m _ => by rw [hnames]) (hdeleted ▸ h.nodup) ?_
  · rw [hview]
    by_cases hw : w = v
    · subst hw
      rw [(hn.mapped w).mp rfl]
      simp [Ne.symm hm]
    · rw [Function.update_of_ne hw]
  · refine ⟨iff_of_false nofun fun hle => ?_, fun j => ?_, fun w => iff_of_false nofun fun hw => ?_,
      fun j => ?_, iff_of_false nofun fun hd => ?_, nofun, nofun⟩
    · rw [hnext] at hle
      cases hn.free.mpr hle
    · rw [owns_update hcalls fun j => hother j true, hc]
      exact iff_of_false nofun fun hj => by simp at hj
    · rw [hview] at hw
      by_cases hwv : w = v
      · simp [hwv] at hw
      · rw [Function.update_of_ne hwv] at hw
        exact hwv (honly w hw)
    · rw [owns_update hcalls fun j => hother j false, hc]
      simp [eq_comm]
    · rw [hdeleted] at hd
      cases hn.deleted.mpr hd

/-- `delete_node`. -/
theorem Fated.bury (h : Fated vertex s fate) {c : Stage} {n : ℕ} {b : Bool}
    (hi : (s.calls i).owns = some (n, b)) (hc : c.owns = none)
    (hcalls : s'.calls = Function.update s.calls i c) (hview : s'.view = s.view)
    (hnext : s'.nextNode = s.nextNode) (hdeleted : s'.deleted = s.deleted ++ [n])
    (hnames : s'.names = s.names) : Fated vertex s' (Function.update fate n .deleted) := by
  have hn := h.fateOf n
  have hlive : fate n ≠ .free ∧ fate n ≠ .deleted ∧ (∀ v, fate n ≠ .mapped v) ∧
      ∀ j b', (s.calls j).owns = some (n, b') → j = i := by
    cases b with
    | true =>
      have hf := (hn.pending i).mpr hi
      rw [hf] at hn ⊢
      refine ⟨nofun, nofun, nofun, fun j b' hj => ?_⟩
      cases b' with
      | true => simpa using ((hn.pending j).mpr hj).symm
      | false => cases (hn.doomed j).mpr hj
    | false =>
      have hf := (hn.doomed i).mpr hi
      rw [hf] at hn ⊢
      refine ⟨nofun, nofun, nofun, fun j b' hj => ?_⟩
      cases b' with
      | true => cases (hn.pending j).mpr hj
      | false => simpa using ((hn.doomed j).mpr hj).symm
  obtain ⟨hfree, hdel, hmap, hother⟩ := hlive
  have hnot : n ∉ s.deleted := fun hd => hdel (hn.deleted.mpr hd)
  refine h.update hcalls (fun m b' hm => (Prod.mk.inj (Option.some.inj (hi.symm.trans hm))).1.symm)
    (fun m b' hm => by rw [hc] at hm; cases hm) (fun m _ => by rw [hnext])
    (fun m _ v => by rw [hview]) (fun m hm => by simp [hdeleted, hm]) (fun m _ => by rw [hnames])
    ?_ ?_
  · rw [hdeleted]
    exact h.nodup.append (List.nodup_singleton n) (by simpa using hnot)
  · refine ⟨iff_of_false nofun fun hle => hfree (hn.free.mpr (hnext ▸ hle)), fun j => ?_,
      fun v => iff_of_false nofun fun hv => ?_, fun j => ?_, iff_of_true rfl (by simp [hdeleted]),
      nofun, nofun⟩
    · rw [owns_update hcalls fun j => hother j true, hc]
      exact iff_of_false nofun fun hj => nomatch hj.2
    · rw [hview] at hv
      exact hmap v ((hn.mapped v).mpr hv)
    · rw [owns_update hcalls fun j => hother j false, hc]
      exact iff_of_false nofun fun hj => nomatch hj.2

/-- **Each clean step keeps the fates**: a node belongs to one vertex, to one call, or is deleted
once. -/
theorem CleanStep.fated {a : Option ι} (hclean : CleanStep op vertex a s s') (h : Inv op vertex s)
    (hfate : Fated vertex s fate) : ∃ fate', Fated vertex s' fate' := by
  obtain ⟨hstep, hclean⟩ := hclean
  cases a with
  | none =>
    have hview := hstep.view_build h
    refine ⟨fate, ?_⟩
    cases hstep <;> exact hfate.congr rfl (fun _ => rfl) hview rfl rfl
  | some i =>
    cases hstep with
    | lock hi => exact ⟨fate, hfate.move (by rw [hi]; rfl)⟩
    | hit hi => exact ⟨fate, hfate.move (by rw [hi]; rfl)⟩
    | miss hi => exact ⟨fate, hfate.move (by rw [hi]; rfl)⟩
    | removed hi => exact ⟨fate, hfate.move (by rw [hi]; split_ifs <;> rfl)⟩
    | notRemoved hi => exact ⟨fate, hfate.move (by rw [hi]; rfl)⟩
    | readHit hi => exact ⟨fate, hfate.move (by rw [hi]; rfl)⟩
    | readMiss hi => exact ⟨fate, hfate.move (by rw [hi]; split_ifs <;> rfl)⟩
    | addNode hi => exact ⟨_, hfate.addNode hi⟩
    | insert hi hnone =>
      have hv := (h.view_created hi).2.trans hnone
      exact ⟨_, hfate.insert (by rw [hi]; rfl) rfl rfl hv (h.view_insert hi rfl rfl rfl rfl)
        rfl rfl rfl⟩
    | rollback hi => exact ⟨_, hfate.bury (by rw [hi]; rfl) rfl rfl rfl rfl rfl rfl⟩
    | snapshotHit hi => exact ⟨fate, hfate.move (by rw [hi]; rfl)⟩
    | snapshotMiss hi => exact ⟨fate, hfate.move (by rw [hi]; rfl)⟩
    | @mark _ _ n hi =>
      obtain ⟨-, hsame, hchange⟩ := h.view_marking hi
      cases hr : s.removed (vertex i) with
      | true =>
        refine ⟨fate, hfate.congr rfl (fun j => ?_) ?_ rfl rfl⟩
        · by_cases hj : j = i
          · subst hj
            simp [State.move, hi, Stage.owns]
          · simp [State.move, Function.update_of_ne hj]
        · refine Eq.trans (h.view_mark hi rfl rfl rfl rfl) ?_
          rw [← hsame hr, Function.update_eq_self]
      | false =>
        obtain ⟨hnone, hv⟩ := hchange hr
        refine ⟨_, hfate.doom (c := .erasing (some n) true) (by rw [hi]; rfl) rfl rfl hv ?_
          rfl rfl rfl⟩
        rw [← hnone]
        exact h.view_mark hi rfl rfl rfl rfl
    | @erase _ _ first _ _ hi hn =>
      obtain ⟨-, hmarked, hv⟩ := h.view_erasing hi
      exact ⟨_, hfate.doom (by rw [hi, hmarked _ hn]; cases first <;> rfl) rfl rfl (hv.trans hn)
        (h.view_erase hi hn rfl rfl rfl rfl) rfl rfl rfl⟩
    | @eraseMiss _ _ n marked hi hn =>
      cases marked with
      | true => exact ⟨fate, hfate.move (by rw [hi]; rfl)⟩
      | false => exact absurd ⟨n, hi, hn⟩ (hclean i rfl).1
    | notFound hi => exact ⟨fate, hfate.move (by rw [hi]; rfl)⟩
    | delete hi => exact ⟨_, hfate.bury (by rw [hi]; rfl) rfl rfl rfl rfl rfl rfl⟩

/-- **The nodes are accounted for**: each is deleted once, a vertex has a node of its own that is
not deleted and bears its name, and a node that no call has is deleted or belongs to a vertex. -/
structure Accounted (s : State ι) : Prop where
  once : s.deleted.Nodup
  own : ∀ v w n, s.view v = some n → s.view w = some n → v = w
  live : ∀ v n, s.view v = some n → n < s.nextNode ∧ n ∉ s.deleted ∧ s.names n = v
  noLeak : (∀ i, s.calls i = .idle ∨ ∃ r, s.calls i = .returned r) →
    ∀ n < s.nextNode, n ∉ s.deleted → ∃ v, s.view v = some n

theorem inv_of_reach
    (h : Relation.ReflTransGen (fun s s' => ∃ a, CleanStep op vertex a s s') (initial ι) s) :
    Inv op vertex s ∧ ∃ fate, Fated vertex s fate := by
  refine reachable_invariant (I := fun s => Inv op vertex s ∧ ∃ fate, Fated vertex s fate)
    ⟨inv_initial op vertex, _, fated_initial⟩ ?_ h
  rintro s s' ⟨hinv, fate, hfate⟩ ⟨a, hclean⟩
  exact ⟨hclean.1.inv hinv, hclean.fated hinv hfate⟩

/-- **In every run of clean steps the nodes are accounted for**. -/
theorem accounted_of_reach
    (h : Relation.ReflTransGen (fun s s' => ∃ a, CleanStep op vertex a s s') (initial ι) s) :
    Accounted s := by
  obtain ⟨-, fate, hfate, hnodup⟩ := inv_of_reach h
  refine ⟨hnodup, fun v w n hv hw => ?_, fun v n hv => ?_, fun hquiet n hn hnot => ?_⟩
  · have hmapped := ((hfate n).mapped v).mpr hv
    simpa [hmapped] using ((hfate n).mapped w).mpr hw
  · have hmapped := ((hfate n).mapped v).mpr hv
    refine ⟨not_le.mp fun hle => ?_, fun hd => ?_, (hfate n).mappedName v hmapped⟩
    · cases hmapped.symm.trans ((hfate n).free.mpr hle)
    · cases hmapped.symm.trans ((hfate n).deleted.mpr hd)
  · have howns : ∀ i, (s.calls i).owns = none := fun i => by
      rcases hquiet i with hi | ⟨r, hi⟩ <;> rw [hi] <;> rfl
    cases hf : fate n with
    | free => exact absurd ((hfate n).free.mp hf) (not_le.mpr hn)
    | pending i => cases (howns i).symm.trans (((hfate n).pending i).mp hf)
    | mapped v => exact ⟨v, ((hfate n).mapped v).mp hf⟩
    | doomed i => cases (howns i).symm.trans (((hfate n).doomed i).mp hf)
    | deleted => exact absurd ((hfate n).deleted.mp hf) hnot

end Nodes

/-! ## Linearization -/

section Linearization

/-- What a call that returned has answered. -/
def Stage.result : Stage → Option Res
  | .returned r => some r
  | _ => none

/-- What a call is going to answer, once it is settled. -/
def Stage.effect : Stage → Option Res
  | .returned r => some r
  | .deleting _ | .erasing _ true => some (.changed true)
  | _ => none

variable {op : ι → Op} {vertex : ι → ℕ} {s s' : State ι} {i : ι}

theorem Stage.effect_of_result {c : Stage} {r : Res} (h : c.result = some r) :
    c.effect = some r := by
  cases c <;> first | exact h | cases h

theorem Step.calls_other {a : Option ι} (hstep : Step op vertex a s s') {j : ι} (hj : a ≠ some j) :
    s'.calls j = s.calls j := by
  have hmove : ∀ {i : ι} {c : Stage}, some i ≠ some j →
      Function.update s.calls i c j = s.calls j := fun hij =>
    Function.update_of_ne (fun hc => hij (congrArg some hc.symm)) _ _
  cases hstep <;> first | rfl | exact hmove hj

theorem Step.started {a : Option ι} (hstep : Step op vertex a s s') {j : ι}
    (hj : s.calls j ≠ .idle) : s'.calls j ≠ .idle := by
  by_cases ha : a = some j
  · subst ha
    cases hstep with
    | removed | readMiss =>
      simp only [State.move, Function.update_self]
      split_ifs <;> exact nofun
    | _ =>
      simp only [State.move, Function.update_self]
      exact nofun
  · rwa [hstep.calls_other ha]

/-- **A settled answer stays.** -/
theorem Step.settled {a : Option ι} (hstep : Step op vertex a s s') (h : Inv op vertex s) {j : ι}
    {r : Res} (hj : (s.calls j).effect = some r) : (s'.calls j).effect = some r := by
  by_cases ha : a = some j
  · subst ha
    cases hstep with
    | @erase _ _ first marked n hi hn =>
      rw [hi, (h.view_erasing hi).2.1 n hn] at hj
      cases first <;> cases hj
    | @eraseMiss _ _ n marked hi hn =>
      rw [hi] at hj
      cases marked with
      | true =>
        simp only [State.move, Function.update_self]
        exact hj
      | false => cases hj
    | delete hi =>
      rw [hi] at hj
      simp only [State.move, Function.update_self]
      exact hj
    | @notFound _ _ marked hi =>
      rw [hi] at hj
      have hc := h.call j
      simp only [CallInv, hi] at hc
      cases marked with
      | true => exact absurd rfl (hc.2.2.2 rfl).1
      | false => cases hj
    | @mark _ _ n hi | @snapshotHit _ _ n hi | @insert _ _ n hi | @rollback _ _ n m hi
    | @hit _ _ n hi | @readHit _ _ n seen hi =>
      rw [hi] at hj
      cases hj
    | lock hi | miss hi | removed hi | notRemoved hi | readMiss hi | addNode hi
    | snapshotMiss hi =>
      rw [hi] at hj
      cases hj
  · rwa [hstep.calls_other ha]

/-- What a look-up remembers is the vertex at its first access. -/
theorem exists_seen {run : ℕ → State ι} {act : ℕ → Option ι} {n : ℕ}
    (hinit : run 0 = initial ι)
    (hstep : ∀ k < n, Step op vertex (act k) (run k) (run (k + 1))) {k : ℕ} (hk : k ≤ n) {j : ι}
    {seen : Option ℕ}
    (hj : (run k).calls j = .missed seen ∨ (run k).calls j = .notRemoved seen) :
    ∃ m < k, act m = some j ∧ (run (m + 1)).calls j ≠ .idle ∧
      (run m).view (vertex j) = seen ∧ (run (m + 1)).view = (run m).view := by
  induction k with
  | zero =>
    rw [hinit] at hj
    rcases hj with hj | hj <;> cases hj
  | succ k ih =>
    have hk' := hstep k hk
    -- the place was entered by this step, or before it
    have hcases : ((run k).calls j = .missed seen ∨ (run k).calls j = .notRemoved seen) ∨
        act k = some j ∧ (run (k + 1)).calls j ≠ .idle ∧
          (run k).view (vertex j) = seen ∧ (run (k + 1)).view = (run k).view := by
      by_cases ha : act k = some j
      · have hne : (run (k + 1)).calls j ≠ .idle := by
          rcases hj with hj | hj <;> rw [hj] <;> exact nofun
        generalize hs : run k = s at hk' ⊢
        generalize hs' : run (k + 1) = s' at hk' hj hne ⊢
        rw [ha] at hk'
        cases hk' with
        | miss hi =>
          simp only [State.move, Function.update_self, Stage.missed.injEq, reduceCtorEq,
            or_false] at hj
          exact Or.inr ⟨ha, hne, hj, rfl⟩
        | @notRemoved _ _ seen' hi =>
          simp only [State.move, Function.update_self, Stage.notRemoved.injEq, reduceCtorEq,
            false_or] at hj
          exact Or.inl (Or.inl (hj ▸ hi))
        | removed | readMiss =>
          simp only [State.move, Function.update_self] at hj
          split_ifs at hj <;> simp at hj
        | _ => simp [State.move] at hj
      · rw [hk'.calls_other ha] at hj
        exact Or.inl hj
    rcases hcases with hprev | hnow
    · obtain ⟨m, hm, hseen⟩ := ih (Nat.le_of_succ_le hk) hprev
      exact ⟨m, hm.trans (Nat.lt_succ_self k), hseen⟩
    · exact ⟨k, Nat.lt_succ_self k, hnow⟩

/-- **The point of a call**: a clean step that settles its answer does what the operation does, or
the call is a look-up that has seen no vertex at its first access. -/
theorem CleanStep.settles (hclean : CleanStep op vertex (some i) s s') (h : Inv op vertex s)
    {fate : ℕ → Fate ι} (hfate : Fated vertex s fate) {r : Res} (hnone : (s.calls i).effect = none)
    (hr : (s'.calls i).effect = some r) :
    spec op vertex i s.view r s'.view ∨
      (s.calls i = .missed none ∨ s.calls i = .notRemoved none) ∧ s'.view = s.view ∧
        ∀ D : ℕ → Option ℕ, D (vertex i) = none → spec op vertex i D r D := by
  have hlookup : (op i).creates = false → op i ≠ .removeVertex → ∀ D : ℕ → Option ℕ,
      D (vertex i) = none → spec op vertex i D (.node none) D := fun hc hop D hD => by
    unfold spec
    cases ho : op i with
    | find update => exact ⟨by rw [hD], rfl⟩
    | removeVertex => exact absurd ho hop
    | addVertex | getOrCreateVertexId => rw [ho] at hc; cases hc
  have hfound : op i ≠ .removeVertex → ∀ n, s.view (vertex i) = some n →
      spec op vertex i s.view ((op i).found n) s.view := fun hop n hn => by
    unfold spec
    cases ho : op i with
    | find update => exact ⟨by rw [hn]; rfl, rfl⟩
    | removeVertex => exact absurd ho hop
    | addVertex | getOrCreateVertexId => exact Or.inl ⟨n, hn, rfl, rfl⟩
  have hremoved : op i = .removeVertex → ∀ {b : Bool} {D' : ℕ → Option ℕ},
      (s.view (vertex i)).isSome = b → D' = Function.update s.view (vertex i) none →
      spec op vertex i s.view (.changed b) D' := fun hop b D' hb hD => by
    unfold spec
    rw [hop]
    exact ⟨by rw [hb], hD⟩
  have hself := h.call i
  obtain ⟨hstep, hclean⟩ := hclean
  obtain ⟨hstale, htorn⟩ := hclean i rfl
  cases hstep with
  | @hit _ _ n hi hop hn =>
    simp only [State.move, Function.update_self, Stage.effect, Option.some.injEq] at hr
    subst hr
    refine Or.inl (hfound hop n ?_)
    by_cases hb : s.build = .clearing
    · have hu : ∀ v, s.updated v = none := by simpa only [MapInv, hb] using h.maps
      simp [hu] at hn
    · exact view_of_updated hb hn
  | @removed _ _ seen hi hrem =>
    simp only [CallInv, hi] at hself
    simp only [State.move, Function.update_self] at hr
    split_ifs at hr with hc
    · cases hr
    · obtain rfl := Option.some.inj hr
      refine Or.inr ⟨?_, rfl, hlookup (by simpa using hc) hself.1⟩
      cases seen with
      | none => exact Or.inl hi
      | some n => exact absurd ⟨n, hi, hrem⟩ htorn
  | @readHit _ _ n seen hi hn =>
    simp only [CallInv, hi] at hself
    simp only [State.move, Function.update_self, Stage.effect, Option.some.injEq] at hr
    subst hr
    refine Or.inl (hfound hself.1 n ?_)
    -- a vertex of the snapshot that was not removed is not among the additions, or with this node
    by_cases hb : s.build = .clearing
    · simp only [State.view, hb, hn]
    · rw [view_of_ne_clearing hb]
      cases hu : s.updated (vertex i) with
      | none => simp [hself.2.1, hn]
      | some m =>
        have hm := h.maps
        unfold MapInv at hm
        split at hm
        · rcases hm (vertex i) (by simp [hu]) with hc | hc
          · simp [hself.2.1] at hc
          · simp [hn] at hc
        · rcases hm.1 (vertex i) (by simp [hu]) with hc | hc
          · simp [hself.2.1] at hc
          · simp [hn] at hc
        · rcases hm.1 (vertex i) m hu with hc | ⟨-, hc⟩
          · exact hc.symm.trans hn
          · simp [hn] at hc
        · simp [hm (vertex i)] at hu
  | @readMiss _ _ seen hi hn =>
    simp only [CallInv, hi] at hself
    simp only [State.move, Function.update_self] at hr
    split_ifs at hr with hc
    · cases hr
    · obtain rfl := Option.some.inj hr
      obtain rfl := hself.2.2.resolve_right fun hne => hne hn
      exact Or.inr ⟨Or.inr hi, rfl, hlookup (by simpa using hc) hself.1⟩
  | @insert _ _ n hi hu =>
    simp only [CallInv, hi] at hself
    simp only [State.move, Function.update_self, Stage.effect, Option.some.injEq] at hr
    subst hr
    let inserted : State ι := { s.move i (.returned ((op i).inserted n)) with
      updated := Function.update s.updated (vertex i) (some n) }
    have hview : inserted.view = _ := h.view_insert hi rfl rfl rfl rfl
    have hpending := ((hfate.fateOf n).pending i).mpr (by rw [hi]; rfl)
    have hfresh : ∀ w, s.view w ≠ some n := fun w hw => by
      cases hpending.symm.trans (((hfate.fateOf n).mapped w).mpr hw)
    have hcreate : ∃ m, s.view (vertex i) = none ∧ (∀ w, s.view w ≠ some m) ∧
        (op i).inserted n = (op i).inserted m ∧
        { s.move i (.returned ((op i).inserted n)) with
          updated := Function.update s.updated (vertex i) (some n) }.view =
            Function.update s.view (vertex i) (some m) :=
      ⟨n, (h.view_created hi).2.trans hu, hfresh, rfl, hview⟩
    refine Or.inl ?_
    unfold spec
    cases ho : op i with
    | addVertex | getOrCreateVertexId =>
      rw [ho] at hcreate
      exact Or.inr hcreate
    | _ => rw [ho] at hself; cases hself.1
  | @rollback _ _ n m hi hu =>
    simp only [CallInv, hi] at hself
    simp only [State.move, Function.update_self, Stage.effect, Option.some.injEq] at hr
    subst hr
    exact Or.inl (hfound (fun hc => by rw [hc] at hself; cases hself.1) m
      ((h.view_created hi).2.trans hu))
  | @mark _ _ n hi =>
    simp only [CallInv, hi] at hself
    simp only [State.move, Function.update_self] at hr
    cases hrem : s.removed (vertex i) with
    | true =>
      rw [hrem] at hr
      cases hr
    | false =>
      rw [hrem] at hr
      obtain rfl := Option.some.inj hr
      obtain ⟨hu, hv⟩ := (h.view_marking hi).2.2 hrem
      refine Or.inl (hremoved hself.1 (by rw [hv]; rfl) ?_)
      rw [← hu]
      exact h.view_mark hi rfl rfl rfl rfl
  | @erase _ _ first marked n hi hn =>
    simp only [CallInv, hi] at hself
    simp only [State.move, Function.update_self, Stage.effect, Option.some.injEq] at hr
    subst hr
    refine Or.inl (hremoved hself.1 ?_ (h.view_erase hi hn rfl rfl rfl rfl))
    rw [(h.view_erasing hi).2.2, hn]
    rfl
  | @eraseMiss _ _ n marked hi hn =>
    cases marked with
    | true =>
      rw [hi] at hnone
      cases hnone
    | false => exact absurd ⟨n, hi, hn⟩ hstale
  | @notFound _ _ marked hi hn =>
    simp only [CallInv, hi] at hself
    simp only [State.move, Function.update_self, Stage.effect, Option.some.injEq] at hr
    subst hr
    have hv : s.view (vertex i) = none := (h.view_erasing hi).2.2.trans hn
    refine Or.inl (hremoved hself.1 (by rw [hv]; rfl) ?_)
    rw [← hv, Function.update_eq_self]
    rfl
  | delete hi =>
    rw [hi] at hnone
    cases hnone
  | _ => simp [State.move, Stage.effect] at hr

/-- **A step that changes the vertices** settles the answer of its call. -/
theorem Step.change {a : Option ι} (hstep : Step op vertex a s s') (h : Inv op vertex s)
    (hne : s'.view ≠ s.view) :
    ∃ i r, (s.calls i).effect = none ∧ (s'.calls i).effect = some r := by
  cases a with
  | none => exact absurd (hstep.view_build h) hne
  | some i =>
    cases hstep with
    | @insert _ _ n hi =>
      exact ⟨i, (op i).inserted n, by rw [hi]; rfl, by simp [State.move, Stage.effect]⟩
    | @mark _ _ n hi =>
      cases hrem : s.removed (vertex i) with
      | true =>
        refine (hne (Eq.trans (h.view_mark hi rfl rfl rfl rfl) ?_)).elim
        rw [← (h.view_marking hi).2.1 hrem, Function.update_eq_self]
      | false => exact ⟨i, .changed true, by rw [hi]; rfl, by simp [State.move, Stage.effect]⟩
    | @erase _ _ first marked n hi hn =>
      refine ⟨i, .changed true, ?_, by simp [State.move, Stage.effect]⟩
      rw [hi, (h.view_erasing hi).2.1 n hn]
      cases first <;> rfl
    | _ => exact absurd rfl hne

/-- **The calls linearize** in every run of clean steps, in an order that respects the order of
their calls and returns. -/
theorem exists_linearization {run : ℕ → State ι} {act : ℕ → Option ι} {n : ℕ}
    (hinit : run 0 = initial ι)
    (hstep : ∀ k < n, CleanStep op vertex (act k) (run k) (run (k + 1))) :
    ∃ l, Linearization (spec op vertex) State.view (fun s i => s.calls i ≠ .idle)
      (fun s i => (s.calls i).result) run n l := by
  have hreach : ∀ k ≤ n, Relation.ReflTransGen (fun s s' => ∃ a, CleanStep op vertex a s s')
      (initial ι) (run k) := fun k hk => by
    induction k with
    | zero => rw [hinit]
    | succ k ih => exact (ih (Nat.le_of_succ_le hk)).tail ⟨_, hstep k hk⟩
  have heffects : Effects (spec op vertex) State.view (fun s i => s.calls i ≠ .idle)
      (fun s i => (s.calls i).effect) act run n := by
    refine ⟨fun i => by rw [hinit]; rfl, fun k hk i hi => (hstep k hk).1.started hi,
      fun k hk i r hr => (hstep k hk).1.settled (inv_of_reach (hreach k hk.le)).1 hr,
      fun k hk hne => (hstep k hk).1.change (inv_of_reach (hreach k hk.le)).1 hne,
      fun k hk i r hnone hr => ?_⟩
    obtain ⟨hinv, fate, hfate⟩ := inv_of_reach (hreach k hk.le)
    have hact : act k = some i := by
      by_contra ha
      rw [(hstep k hk).1.calls_other ha, hnone] at hr
      cases hr
    have hclean := hstep k hk
    rw [hact] at hclean
    have hne : (run (k + 1)).calls i ≠ .idle := fun hc => by rw [hc] at hr; cases hr
    rcases hclean.settles hinv hfate hnone hr with hspec | ⟨hseen, hview, hspec⟩
    · exact ⟨k, le_rfl, hact, hne, hspec, Or.inl rfl⟩
    · -- the point of such a look-up is its first access
      obtain ⟨m, hm, hactm, hnem, hvm, hviewm⟩ :=
        exists_seen hinit (fun k hk => (hstep k hk).1) hk.le hseen
      refine ⟨m, hm.le, hactm, hnem, ?_, Or.inr ⟨hviewm, hview⟩⟩
      rw [hviewm]
      exact hspec _ hvm
  exact heffects.linearizable fun k _ i r hr => Stage.effect_of_result hr

end Linearization

/-! ## The steps that are not clean -/

section Exceptions

variable {op : ι → Op} {vertex : ι → ℕ} {s s' : State ι} {i : ι}

/-- The nodes of the vertices removed from the snapshot, while `build` does not run. -/
def Buried (s : State ι) : Prop :=
  s.build = .idle → ∀ v n, s.removed v = true → s.readOnly v = some n →
    n ∈ s.deleted ∨ ∃ j, (s.calls j).owns = some (n, false)

/-- A node that is to be deleted stays so until it is. -/
theorem Step.doomed {a : Option ι} (hstep : Step op vertex a s s') (h : Inv op vertex s) {n : ℕ}
    (hn : n ∈ s.deleted ∨ ∃ j, (s.calls j).owns = some (n, false)) :
    n ∈ s'.deleted ∨ ∃ j, (s'.calls j).owns = some (n, false) := by
  have hmem : n ∈ s.deleted → n ∈ s'.deleted := fun hn => by
    cases hstep <;> first | exact hn | exact List.mem_append_left _ hn
  rcases hn with hn | ⟨j, hj⟩
  · exact Or.inl (hmem hn)
  · by_cases ha : a = some j
    · subst ha
      cases hstep with
      | @erase _ _ first marked m hi hm =>
        rw [hi, (h.view_erasing hi).2.1 m hm] at hj
        cases first <;> cases hj
      | @eraseMiss _ _ m marked hi hm =>
        rw [hi] at hj
        cases marked with
        | true =>
          refine Or.inr ⟨j, ?_⟩
          simp only [State.move, Function.update_self]
          exact hj
        | false => cases hj
      | delete hi =>
        rw [hi] at hj
        obtain ⟨rfl, -⟩ := Prod.mk.inj (Option.some.inj hj)
        exact Or.inl (by simp)
      | notFound hi | addNode hi | mark hi | insert hi | rollback hi | snapshotHit hi
      | snapshotMiss hi | hit hi | readHit hi | readMiss hi | miss hi | removed hi | notRemoved hi
      | lock hi =>
        rw [hi] at hj
        cases hj
    · exact Or.inr ⟨j, by rw [hstep.calls_other ha]; exact hj⟩

theorem Step.buried {a : Option ι} (hstep : Step op vertex a s s') (h : Inv op vertex s)
    (hburied : Buried s) : Buried s' := by
  intro hb v n hrem hro
  have hdoomed := hstep.doomed h (n := n)
  cases hstep with
  | @mark _ i m hi =>
    have hself := h.call i
    simp only [CallInv, hi] at hself
    by_cases hv : v = vertex i
    · subst hv
      obtain rfl : m = n := Option.some.inj (hself.2.symm.trans hro)
      by_cases hr : s.removed (vertex i) = true
      · exact hdoomed (hburied hb _ _ hr hro)
      · exact Or.inr ⟨i, by simp [State.move, hr, Stage.owns]⟩
    · exact hdoomed (hburied hb v n (by simpa [Function.update_of_ne hv] using hrem) hro)
  | build => cases hb
  | eraseOne => cases hb
  | eraseEnd => cases hb
  | insertOne => cases hb
  | clearUpdated => cases hb
  | clearRemoved => cases hrem
  | _ => exact hdoomed (hburied hb v n hrem hro)

theorem buried_of_reach
    (h : Relation.ReflTransGen (fun s s' => ∃ a, CleanStep op vertex a s s') (initial ι) s) :
    Buried s := by
  refine reachable_invariant_of_reachable (I := Buried) (fun _ v n hv => by cases hv) ?_ h
  rintro s s' hreach hburied ⟨a, hclean⟩
  exact hclean.1.buried (inv_of_reach hreach).1 hburied

/-- **The steps that are not clean answer wrong.** A stale removal reports that it has removed a
vertex that is not there, and is about to delete a node that is deleted already or that another call
is about to delete. A torn look-up reports that a vertex is not there, which was there at its first
access and is there now. -/
theorem wrong_of_not_clean
    (h : Relation.ReflTransGen (fun s s' => ∃ a, CleanStep op vertex a s s') (initial ι) s)
    (hstep : Step op vertex (some i) s s') :
    (Stale vertex s i → s.view (vertex i) = none ∧
      ∃ n, s'.calls i = .deleting n ∧
        (n ∈ s.deleted ∨ ∃ j, j ≠ i ∧ (s.calls j).owns = some (n, false))) ∧
      (Torn vertex s i → s'.calls i = .returned (.node none) ∧ s.view (vertex i) ≠ none ∧
        ∃ n, s.calls i = .missed (some n)) := by
  obtain ⟨hinv, -⟩ := inv_of_reach h
  have hself := hinv.call i
  refine ⟨?_, ?_⟩
  · rintro ⟨n, hi, hu⟩
    obtain ⟨hidle, -, hv⟩ := hinv.view_erasing hi
    simp only [CallInv, hi] at hself
    refine ⟨hv.trans hu, n, ?_, ?_⟩
    · cases hstep <;> simp_all [State.move]
    · rcases buried_of_reach h hidle _ _ (hself.2.2.1 nofun) hself.2.1 with hd | ⟨j, hj⟩
      · exact Or.inl hd
      · refine Or.inr ⟨j, ?_, hj⟩
        rintro rfl
        rw [hi] at hj
        cases hj
  · rintro ⟨n, hi, hrem⟩
    simp only [CallInv, hi] at hself
    obtain ⟨hop, hseen⟩ := hself
    obtain ⟨hro, hclear⟩ := hseen.resolve_left nofun
    have hb : s.build = .clearing := hclear.resolve_left (by simp [hrem])
    have hcreates : (op i).creates = false := by
      by_contra hc
      have := hinv.idle (Op.shares_of_creates (by simpa using hc)) (by simp [hi]) (by simp [hi])
      simp [hb] at this
    refine ⟨?_, by simpa only [State.view, hb] using hro, n, hi⟩
    cases hstep <;> simp_all [State.move]

end Exceptions

/-! ## A run -/

section Run

/-- The calls of the run: a vertex is added, and removed twice. -/
def callOps : Fin 3 → Op := fun i => if i = 0 then .addVertex else .removeVertex

/-- A clean step of one of these calls, or of `build`. -/
abbrev RunStep (s s' : State (Fin 3)) : Prop := ∃ a, CleanStep callOps (fun _ => 7) a s s'

theorem runStep_call {i : Fin 3} {s s' : State (Fin 3)}
    (hstep : Step callOps (fun _ => 7) (some i) s s')
    (herasing : ∀ n, s.calls i ≠ .erasing (some n) false)
    (hmissed : ∀ n, s.calls i ≠ .missed (some n)) : RunStep s s' := by
  refine ⟨some i, hstep, fun j hj => ?_⟩
  obtain rfl := Option.some.inj hj
  exact ⟨fun ⟨n, hc, _⟩ => herasing n hc, fun ⟨n, hc, _⟩ => hmissed n hc⟩

theorem runStep_build {s s' : State (Fin 3)} (hstep : Step callOps (fun _ => 7) none s s') :
    RunStep s s' :=
  ⟨none, hstep, fun _ hj => nomatch hj⟩

/-- The first call adds the vertex, `build` puts it into a snapshot, and the second call removes it.
The third one finds it in the snapshot again. -/
theorem exists_removed : ∃ s : State (Fin 3), Relation.ReflTransGen RunStep (initial (Fin 3)) s ∧
    (s.calls 2 = .erasing (some 0) false ∧ s.updated 7 = none) ∧
      (s.calls 0).result = some (.changed true) ∧ s.deleted = [0] := by
  have h := Relation.ReflTransGen.refl (r := RunStep) (a := initial (Fin 3))
  have h := h.tail (runStep_call (.lock (i := 0) rfl (fun _ => rfl) fun j => nofun) nofun nofun)
  have h := h.tail (runStep_call (.miss (i := 0) rfl nofun rfl) nofun nofun)
  have h := h.tail (runStep_call (.notRemoved (i := 0) rfl rfl) nofun nofun)
  have h := h.tail (runStep_call (.readMiss (i := 0) rfl rfl) nofun nofun)
  have h := h.tail (runStep_call (.addNode (i := 0) rfl) nofun nofun)
  have h := h.tail (runStep_call (.insert (i := 0) rfl rfl) nofun nofun)
  have h := h.tail (runStep_build (.build (l := []) rfl
    (fun j _ => by fin_cases j <;> first | exact Or.inl rfl | exact Or.inr ⟨_, rfl⟩)
    fun v => iff_of_false List.not_mem_nil nofun))
  have h := h.tail (runStep_build (.eraseEnd (l := [7]) rfl fun v => by
    by_cases hv : v = 7 <;> simp [State.move, initial, hv]))
  have h := h.tail (runStep_build (.insertOne rfl))
  have h := h.tail (runStep_build (.clearUpdated rfl))
  have h := h.tail (runStep_build (.clearRemoved rfl))
  have h := h.tail (runStep_call (.lock (i := 1) rfl (fun _ => rfl)
    fun j hj => by fin_cases j <;> exact absurd hj id) nofun nofun)
  have h := h.tail (runStep_call (.snapshotHit (i := 1) (n := 0) rfl rfl rfl) nofun nofun)
  have h := h.tail (runStep_call (.mark (i := 1) rfl) nofun nofun)
  have h := h.tail (runStep_call (.eraseMiss (i := 1) rfl rfl) nofun nofun)
  have h := h.tail (runStep_call (.delete (i := 1) rfl) nofun nofun)
  have h := h.tail (runStep_call (.lock (i := 2) rfl (fun _ => rfl)
    fun j hj => by fin_cases j <;> exact absurd hj id) nofun nofun)
  have h := h.tail (runStep_call (.snapshotHit (i := 2) (n := 0) rfl rfl rfl) nofun nofun)
  have h := h.tail (runStep_call (.mark (i := 2) rfl) nofun nofun)
  exact ⟨_, h, ⟨rfl, rfl⟩, rfl, rfl⟩

/-- The calls of this run linearize up to the third one. -/
theorem exists_linearization_removed : ∃ (run : ℕ → State (Fin 3)) (n : ℕ)
    (l : List (Fin 3 × Res)), run 0 = initial (Fin 3) ∧
      ((run n).calls 0).result = some (.changed true) ∧ (0, .changed true) ∈ l ∧
      Legal (spec callOps fun _ => 7) (run 0).view l (run n).view := by
  obtain ⟨s, hreach, -, hresult, -⟩ := exists_removed
  obtain ⟨run, n, hzero, hn, hstep⟩ := exists_run hreach
  have hlabels : ∀ k, ∃ a, k < n → CleanStep callOps (fun _ => 7) a (run k) (run (k + 1)) :=
    fun k => by
      by_cases hk : k < n
      · obtain ⟨a, ha⟩ := hstep k hk
        exact ⟨a, fun _ => ha⟩
      · exact ⟨none, fun hc => absurd hc hk⟩
  choose act hact using hlabels
  obtain ⟨l, hl⟩ := exists_linearization hzero fun k hk => hact k hk
  rw [← hn] at hresult
  exact ⟨run, n, l, hzero, hresult, hl.returned 0 _ hresult, hl.legal⟩

/-- Its node was deleted once, up to there. -/
theorem accounted_removed : ∃ s : State (Fin 3), s.deleted = [0] ∧ Accounted s := by
  obtain ⟨s, hreach, -, -, hdeleted⟩ := exists_removed
  exact ⟨s, hdeleted, accounted_of_reach hreach⟩

/-- The third call is about to delete it again. -/
theorem wrong_removed : ∃ s s' : State (Fin 3), s.deleted = [0] ∧ s.view 7 = none ∧
    ∃ n, s'.calls 2 = .deleting n ∧
      (n ∈ s.deleted ∨ ∃ j, j ≠ 2 ∧ (s.calls j).owns = some (n, false)) := by
  obtain ⟨s, hreach, ⟨hi, hu⟩, -, hdeleted⟩ := exists_removed
  have hstep : Step callOps (fun _ => 7) (some 2) s (s.move 2 (.deleting 0)) := .eraseMiss hi hu
  exact ⟨s, _, hdeleted, (wrong_of_not_clean hreach hstep).1 ⟨0, hi, hu⟩⟩

end Run

end VertexMap

end Llama

end GfeDriver
