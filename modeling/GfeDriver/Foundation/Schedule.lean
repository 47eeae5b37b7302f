import Mathlib.Tactic

/-!
# Schedules

The iterations of a parallel loop run in an order the program does not choose. A schedule is
an oracle for these orders: at the `t`-th parallel loop of a run, the iterations `l` are
executed in the order `order t l`, a rearrangement of `l`. A statement about every schedule is
a statement about every order of every parallel loop.

A loop over `n` items is often cut into `k` tasks of `n / k` items, the first `n % k` of them with
one item more. `taskRanges` is the program that computes the cut.

## Main definitions

* `Schedule α`: an order for each parallel loop
* `Schedule.sequential`: the program order
* `Schedule.along`: the same orders under other names of the items
* `taskRanges n k`: the start and the length of each task
* `Shared N shares`: the items are shared out among workers

## Main results

* `foldl_set_eq_map`: a parallel loop that fills an array
* `flatMap_taskRanges`: the tasks cover the items once, in order
-/

namespace Foundation

universe u

/-- An order of execution for the `t`-th parallel loop of a run. -/
structure Schedule (α : Type u) where
  order : ℕ → List α → List α
  perm : ∀ t l, (order t l).Perm l

namespace Schedule

variable {α : Type u}

/-- The program order. -/
def sequential : Schedule α := ⟨fun _ l => l, fun _ l => List.Perm.refl l⟩

/-- The orders of the same loops over the items `f x`, where `g` is inverse to `f`. -/
def along {β : Type u} (S : Schedule β) (f : α → β) (g : β → α) (hgf : ∀ x, g (f x) = x) :
    Schedule α where
  order t l := (S.order t (l.map f)).map g
  perm t l := by
    have h := (S.perm t (l.map f)).map g
    rwa [List.map_map, (funext hgf : g ∘ f = id), List.map_id] at h

@[simp] theorem mem_order (S : Schedule α) (t : ℕ) (l : List α) (x : α) :
    x ∈ S.order t l ↔ x ∈ l :=
  (S.perm t l).mem_iff

theorem nodup_order (S : Schedule α) (t : ℕ) {l : List α} (h : l.Nodup) : (S.order t l).Nodup :=
  (S.perm t l).nodup_iff.mpr h

/-- The elements of an array after a loop that writes some of them, each at its own position. -/
theorem getElem?_foldl_set (p : ℕ → Bool) (f : ℕ → α) (l : List ℕ) (a : List α) (i : ℕ) :
    (l.foldl (fun a v => if p v then a.set v (f v) else a) a)[i]? =
      if i ∈ l ∧ p i ∧ i < a.length then some (f i) else a[i]? := by
  induction l generalizing a with
  | nil => simp
  | cons v l ih =>
    rw [List.foldl_cons, ih]
    have hlen : (if p v then a.set v (f v) else a).length = a.length := by
      split_ifs
      · exact List.length_set ..
      · rfl
    by_cases hi : i ∈ l ∧ p i ∧ i < a.length
    · rw [hlen, if_pos hi, if_pos ⟨List.mem_cons_of_mem v hi.1, hi.2⟩]
    · rw [hlen, if_neg hi]
      by_cases hiv : i = v
      · subst hiv
        by_cases hp : p i
        · by_cases hlt : i < a.length
          · rw [if_pos hp, if_pos ⟨List.mem_cons_self, hp, hlt⟩, List.getElem?_set_self hlt]
          · rw [if_pos hp, if_neg fun h => hlt h.2.2, List.set_eq_of_length_le (Nat.not_lt.mp hlt)]
        · rw [if_neg hp, if_neg fun h => hp h.2.1]
      · have hcons : ¬(i ∈ v :: l ∧ p i ∧ i < a.length) := fun h =>
          hi ⟨(List.mem_cons.mp h.1).resolve_left hiv, h.2⟩
        rw [if_neg hcons]
        split_ifs
        · exact List.getElem?_set_ne (Ne.symm hiv)
        · rfl

/-- **A parallel loop that fills an array**: the elements without a value keep the first one. -/
theorem foldl_set_eq_map (S : Schedule ℕ) (t n : ℕ) (p : ℕ → Bool) (f : ℕ → α) (d : α) :
    (S.order t (List.range n)).foldl (fun a v => if p v then a.set v (f v) else a)
        (List.replicate n d) =
      (List.range n).map fun v => if p v then f v else d := by
  apply List.ext_getElem?
  intro i
  rw [getElem?_foldl_set, List.getElem?_map]
  simp only [mem_order, List.mem_range, List.length_replicate]
  by_cases hi : i < n
  · rw [List.getElem?_range hi, Option.map_some, List.getElem?_replicate, if_pos hi]
    by_cases hp : p i
    · rw [if_pos ⟨hi, hp, hi⟩, if_pos hp]
    · rw [if_neg fun h => hp h.2.1, if_neg hp]
  · rw [if_neg fun h => hi h.1, List.getElem?_replicate, if_neg hi,
      List.getElem?_eq_none (by simpa using hi)]
    rfl

end Schedule

/-! ## Tasks -/

/-- The next task, after those that end at `acc.1`. -/
def addTask (itemsPerTask oddTasks : ℕ) (acc : ℕ × List (ℕ × ℕ)) (i : ℕ) : ℕ × List (ℕ × ℕ) :=
  let length := itemsPerTask + if i < oddTasks then 1 else 0
  (acc.1 + length, acc.2 ++ [(acc.1, length)])

/-- The starts and the lengths of `k` tasks over `n` items. -/
def taskRanges (n k : ℕ) : List (ℕ × ℕ) :=
  ((List.range k).foldl (addTask (n / k) (n % k)) (0, [])).2

/-- The start of the next task after `i` of them, and the items covered so far. -/
theorem foldl_addTask (q r i : ℕ) :
    ((List.range i).foldl (addTask q r) (0, [])).1 = i * q + min i r ∧
      ((List.range i).foldl (addTask q r) (0, [])).2.flatMap
          (fun task => List.range' task.1 task.2) =
        List.range ((List.range i).foldl (addTask q r) (0, [])).1 := by
  have hjoin : ∀ a b, List.range a ++ List.range' a b = List.range (a + b) := by
    intro a b
    rw [List.range_eq_range', List.range_eq_range', ← List.range'_append_1, Nat.zero_add]
  induction i with
  | zero => simp
  | succ i ih =>
    rw [List.range_succ, List.foldl_append]
    generalize (List.range i).foldl (addTask q r) (0, []) = acc at ih ⊢
    obtain ⟨hstart, hcover⟩ := ih
    simp only [List.foldl_cons, List.foldl_nil, addTask, List.flatMap_append, List.flatMap_nil,
      List.flatMap_cons, List.append_nil, hcover, hjoin, and_true]
    rw [hstart, Nat.succ_mul]
    -- the first `r` tasks have one item more
    split_ifs with hi
    · rw [min_eq_left (by omega), min_eq_left (by omega)]
      omega
    · rw [min_eq_right (by omega), min_eq_right (by omega)]
      omega

/-- **The tasks cover the items** once, in order. -/
theorem flatMap_taskRanges {n k : ℕ} (hk : 0 < k) :
    (taskRanges n k).flatMap (fun task => List.range' task.1 task.2) = List.range n := by
  obtain ⟨hend, hcover⟩ := foldl_addTask (n / k) (n % k) k
  have hall : k * (n / k) + min k (n % k) = n := by
    rw [min_eq_right (Nat.mod_lt n hk).le]
    exact Nat.div_add_mod n k
  rw [hend, hall] at hcover
  exact hcover

/-! ## Shares -/

section Shares

variable {τ : Type*}

/-- **The items below `N` are shared out**, each once. -/
structure Shared (N : ℕ) (shares : τ → List ℕ) : Prop where
  mem : ∀ n, (∃ w, n ∈ shares w) ↔ n < N
  nodup : ∀ w, (shares w).Nodup
  disjoint : ∀ w w', w ≠ w' → (shares w).Disjoint (shares w')

/-- The items may all go to one thread. -/
theorem exists_shared [Nonempty τ] (N : ℕ) : ∃ shares : τ → List ℕ, Shared N shares := by
  classical
  obtain ⟨w₀⟩ := ‹Nonempty τ›
  refine ⟨fun w => if w = w₀ then List.range N else [], fun n => ⟨?_, fun hn => ?_⟩, fun w => ?_,
    fun w w' hne n hn hn' => ?_⟩
  · rintro ⟨w, hw⟩
    split_ifs at hw
    · exact List.mem_range.mp hw
    · exact absurd hw List.not_mem_nil
  · exact ⟨w₀, by simpa using hn⟩
  · split_ifs
    · exact List.nodup_range
    · exact List.nodup_nil
  · split_ifs at hn hn' with h h'
    · exact hne (h.trans h'.symm)
    · exact absurd hn' List.not_mem_nil
    · exact absurd hn List.not_mem_nil
    · exact absurd hn List.not_mem_nil

/-- The items of a chunk. -/
def chunk (size N c : ℕ) : List ℕ := (List.range N).filter fun n => n / size = c

theorem mem_chunk {size N c n : ℕ} : n ∈ chunk size N c ↔ n < N ∧ n / size = c := by
  simp [chunk]

/-- **The chunks are shared out**, each once, and a worker takes the items of its chunks in order:
`schedule(dynamic, size)`. -/
def SharedChunks (size N : ℕ) (shares : τ → List ℕ) : Prop :=
  ∃ chunks : τ → List ℕ, Shared ((N + size - 1) / size) chunks ∧
    ∀ w, shares w = (chunks w).flatMap (chunk size N)

section Chunks

variable {size N : ℕ}

theorem div_lt_chunks (hsize : 0 < size) {n : ℕ} (hn : n < N) :
    n / size < (N + size - 1) / size := by
  have hmono : (n + size) / size ≤ (N + size - 1) / size := Nat.div_le_div_right (by omega)
  rwa [Nat.add_div_right n hsize] at hmono

/-- The chunks hold the items. -/
theorem SharedChunks.mem {shares : τ → List ℕ} (hsize : 0 < size)
    (h : SharedChunks size N shares) (n : ℕ) : (∃ w, n ∈ shares w) ↔ n < N := by
  obtain ⟨chunks, hchunks, hshares⟩ := h
  constructor
  · rintro ⟨w, hw⟩
    rw [hshares w, List.mem_flatMap] at hw
    obtain ⟨c, -, hc⟩ := hw
    exact (mem_chunk.mp hc).1
  · intro hn
    obtain ⟨w, hw⟩ := (hchunks.mem (n / size)).mpr (div_lt_chunks hsize hn)
    refine ⟨w, ?_⟩
    rw [hshares w, List.mem_flatMap]
    exact ⟨n / size, hw, mem_chunk.mpr ⟨hn, rfl⟩⟩

/-- At most `size` items are one chunk, and go to one worker. -/
theorem SharedChunks.alone [Nonempty τ] {shares : τ → List ℕ} (hsize : 0 < size)
    (h : SharedChunks size N shares) (hN : N ≤ size) : ∃ w, ∀ j ≠ w, shares j = [] := by
  obtain ⟨chunks, hchunks, hshares⟩ := h
  have hone : ∀ w, ∀ c ∈ chunks w, c = 0 := by
    intro w c hc
    have hlt := (hchunks.mem c).mp ⟨w, hc⟩
    have hle : (N + size - 1) / size < 2 := Nat.div_lt_of_lt_mul (by omega)
    omega
  by_cases hfirst : ∃ w, 0 ∈ chunks w
  · obtain ⟨w, hw⟩ := hfirst
    refine ⟨w, fun j hj => ?_⟩
    -- no other worker has a chunk
    have hnil : chunks j = [] := List.eq_nil_iff_forall_not_mem.mpr fun c hc => by
      rw [hone j c hc] at hc
      exact hchunks.disjoint j w hj hc hw
    rw [hshares j, hnil]
    rfl
  · obtain ⟨w₀⟩ := ‹Nonempty τ›
    refine ⟨w₀, fun j _ => ?_⟩
    have hnil : chunks j = [] := List.eq_nil_iff_forall_not_mem.mpr fun c hc =>
      hfirst ⟨j, hone j c hc ▸ hc⟩
    rw [hshares j, hnil]
    rfl

/-- **The first chunk** may go to one worker, and the others to another one. -/
theorem exists_sharedChunks [DecidableEq τ] (hsize : 0 < size) (hN : size < N) {w₀ w₁ : τ}
    (hne : w₀ ≠ w₁) :
    ∃ shares : τ → List ℕ, SharedChunks size N shares ∧ (∀ n, n ∈ shares w₀ ↔ n < size) ∧
      ∀ j, j ≠ w₀ → j ≠ w₁ → shares j = [] := by
  set m := (N + size - 1) / size with hm
  have hpos : 0 < m := Nat.div_pos (by omega) hsize
  let chunks : τ → List ℕ := fun w =>
    if w = w₀ then [0] else if w = w₁ then List.range' 1 (m - 1) else []
  have hfirst : chunks w₀ = [0] := if_pos rfl
  have hrest : chunks w₁ = List.range' 1 (m - 1) := (if_neg hne.symm).trans (if_pos rfl)
  have hnone : ∀ j, j ≠ w₀ → j ≠ w₁ → chunks j = [] := fun j hj hj' =>
    (if_neg hj).trans (if_neg hj')
  have hcases : ∀ {P : τ → Prop}, P w₀ → P w₁ → (∀ j, j ≠ w₀ → j ≠ w₁ → P j) → ∀ j, P j := by
    intro P h₀ h₁ hothers j
    by_cases hj : j = w₀
    · rwa [hj]
    · by_cases hj' : j = w₁
      · rwa [hj']
      · exact hothers j hj hj'
  have hshared : Shared m chunks := by
    refine ⟨fun c => ⟨?_, fun hc => ?_⟩, ?_, ?_⟩
    · rintro ⟨w, hw⟩
      revert w
      refine hcases ?_ ?_ fun j hj hj' hw => ?_
      · rw [hfirst, List.mem_singleton]
        omega
      · rw [hrest, List.mem_range'_1]
        omega
      · rw [hnone j hj hj'] at hw
        exact absurd hw List.not_mem_nil
    · rcases Nat.eq_zero_or_pos c with rfl | hcpos
      · exact ⟨w₀, by simp [hfirst]⟩
      · refine ⟨w₁, ?_⟩
        rw [hrest, List.mem_range'_1]
        omega
    · refine hcases ?_ ?_ fun j hj hj' => ?_
      · rw [hfirst]
        exact List.nodup_singleton 0
      · rw [hrest]
        exact List.nodup_range'
      · rw [hnone j hj hj']
        exact List.nodup_nil
    · intro w w' hww'
      rw [List.disjoint_left]
      intro c hc hc'
      -- a chunk has one owner
      have howner : ∀ j, c ∈ chunks j → j = if c = 0 then w₀ else w₁ := by
        refine hcases (fun h => ?_) (fun h => ?_) fun j hj hj' h => ?_
        · rw [hfirst, List.mem_singleton] at h
          rw [if_pos h]
        · rw [hrest, List.mem_range'_1] at h
          rw [if_neg (by omega)]
        · rw [hnone j hj hj'] at h
          exact absurd h List.not_mem_nil
      exact hww' ((howner w hc).trans (howner w' hc').symm)
  refine ⟨fun w => (chunks w).flatMap (chunk size N), ⟨chunks, hshared, fun _ => rfl⟩,
    fun n => ?_, fun j hj hj' => ?_⟩
  · simp only [hfirst, List.flatMap_cons, List.flatMap_nil, List.append_nil, mem_chunk,
      Nat.div_eq_zero_iff]
    omega
  · simp only [hnone j hj hj', List.flatMap_nil]

end Chunks

end Shares

end Foundation
