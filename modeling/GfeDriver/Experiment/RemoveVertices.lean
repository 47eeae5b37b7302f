import GfeDriver.Experiment.Aging2Run
import GfeDriver.Reader.GraphlogVertices

/-!
# The removal of the temporary vertices

When the updates are over, the master loads the section of the temporary vertices in an array, with
one call of the loader, and hands the array to the workers. Each worker goes through the whole array
and removes the vertices whose remainder modulo the number of workers is its identifier.

The loader may return fewer vertices than the array has room for, and its result is not used: the
workers go on with what the memory holds behind the vertices that were loaded.

## Main definitions

* `Loaded`: the array after a call of the loader
* `RemovalState`, `RemovalStep`: the workers, and the calls they have to make
* `RemovesSection`: what a run achieves

## Main results

* `exists_loaded`: the loader of the file leaves such an array
* `removesSection_iff`: the arrays and the numbers of workers with which the section is removed
* `not_removesSection`: a call that loads the first of two vertices
-/

namespace GfeDriver

namespace Aging2

open Foundation

variable {W : Type} [LinearOrder W] [Zero W]

/-! ## The program -/

/-- **What `loader.load(vertices, num_vertices)` leaves**, for the vertices `vs` of the section: the
number it returns, and an array whose elements up to this number are the first vertices. The array
is allocated without an initial value, so that the elements behind may be any. -/
structure Loaded (vs : List UInt64) where
  num : ℕ
  vertices : List UInt64
  one_le_num : 1 ≤ num
  num_le : num ≤ vs.length
  length_vertices : vertices.length = vs.length
  filled : vertices.take num = vs.take num

/-- The test of `main_remove_vertices`, on integers of type `int`. -/
def removes (p : Parameters W) (workerId : BitVec 32) (vertex : UInt64) : Bool :=
  BitVec.ofNat 32 (vertex.toNat % p.numThreads) = workerId

/-- `Aging2Worker::main_remove_vertices`: the vertices that are passed to `remove_vertex`. -/
def mainRemoveVertices (p : Parameters W) (workerId : BitVec 32) (vertices : List UInt64) :
    List UInt64 :=
  vertices.filter (removes p workerId)

/-- The calls that each worker still has to make, the library, and the vertices removed so far. -/
structure RemovalState (n : ℕ) (G : Type) where
  pending : Fin n → List UInt64
  graph : G
  removed : List UInt64

/-- **A step**: a worker calls the library. The result of the call is not used. -/
inductive RemovalStep {n : ℕ} {G : Type} (removeVertex : G → UInt64 → G × Bool) :
    RemovalState n G → RemovalState n G → Prop
  | call {s : RemovalState n G} (i : Fin n) {vertex : UInt64} {rest : List UInt64}
      (hpending : s.pending i = vertex :: rest) :
      RemovalStep removeVertex s
        { pending := Function.update s.pending i rest
          graph := (removeVertex s.graph vertex).1
          removed := s.removed ++ [vertex] }

/-- `Aging2Master::remove_vertices`, once the array was handed to all the workers. -/
def removeVertices (p : Parameters W) {G : Type} (vertices : List UInt64) (g : G) :
    RemovalState p.numThreads G where
  pending i := mainRemoveVertices p (Worker.new i : Worker W).workerId vertices
  graph := g
  removed := []

/-- The workers have returned. -/
def RemovalState.Done {n : ℕ} {G : Type} (s : RemovalState n G) : Prop := ∀ i, s.pending i = []

/-- **The section is removed**: no run gets stuck before the workers have returned or goes on
forever, and each vertex of the section, and no other, was removed once when they have. -/
structure RemovesSection (p : Parameters W) {G : Type} (removeVertex : G → UInt64 → G × Bool)
    (g : G) (vs vertices : List UInt64) : Prop where
  progress : ∀ s, Relation.ReflTransGen (RemovalStep removeVertex) (removeVertices p vertices g) s →
    ¬s.Done → ∃ s', RemovalStep removeVertex s s'
  finite : ∀ run : ℕ → RemovalState p.numThreads G, run 0 = removeVertices p vertices g →
    ∃ k, ¬RemovalStep removeVertex (run k) (run (k + 1))
  removed : ∀ s, Relation.ReflTransGen (RemovalStep removeVertex) (removeVertices p vertices g) s →
    s.Done → s.removed.Perm vs

/-- No other worker has the identifier of the worker whose turn a vertex is. -/
def SolelyOwned (p : Parameters W) (vertex : UInt64) : Prop :=
  ∀ i < p.numThreads, removes p (BitVec.ofNat 32 i) vertex = true →
    i = vertex.toNat % p.numThreads

/-- The identifiers of up to `2^32` workers differ. -/
theorem solelyOwned_of_le {p : Parameters W} (hn : p.numThreads ≤ 2 ^ 32) (vertex : UInt64) :
    SolelyOwned p vertex := by
  intro i hi hremoves
  have hlt : vertex.toNat % p.numThreads < p.numThreads := Nat.mod_lt _ p.one_le_numThreads
  have heq : BitVec.ofNat 32 (vertex.toNat % p.numThreads) = BitVec.ofNat 32 i := by
    simpa [removes] using hremoves
  have hmod := congrArg BitVec.toNat heq
  rw [BitVec.toNat_ofNat, BitVec.toNat_ofNat, Nat.mod_eq_of_lt (hlt.trans_le hn),
    Nat.mod_eq_of_lt (hi.trans_le hn)] at hmod
  exact hmod.symm

/-! ## The array -/

/-- **The loader leaves such an array**: the first call of `VertexLoader::load` on the section, for
as many vertices as the section has. -/
theorem exists_loaded {I : Inflater} {file stream : List UInt8} {start : ℕ} {vs : List UInt64}
    (hI : I.Decodes stream (Buffer.wordBytes vs)) (hfile : stream <+: file.drop start)
    (hstream : stream ≠ []) (hvs : vs ≠ [])
    (hlong : start + Graphlog.inputStreamSz * Graphlog.numChunks stream vs ≤ file.length)
    (hlt : vs.length < 2 ^ 29) (inputStream array : Buffer) :
    ∃ fuel array' l' , ∃ loaded : Loaded vs,
      (Graphlog.VertexLoader.new I (FileStream.openAt file start) inputStream).load fuel array
        vs.length = some (loaded.num, array', l') ∧
      loaded.vertices = array'.words 0 vs.length := by
  have hstart : start ≤ file.length := by omega
  obtain ⟨fuel, num, array', l', hload, hwords, hnext, hzero⟩ :=
    (Graphlog.between_new (I := I) vs hstart hstream inputStream).load hI hfile hlong vs.length
      (List.length_pos_iff.mpr hvs) (fun _ => Or.inl hlt) array
  rw [List.drop_zero] at hwords
  have hnum : num ≤ vs.length := by
    simpa using hwords.length_le
  have hpos : 1 ≤ num := by
    by_contra hne
    obtain rfl : num = 0 := by omega
    -- a call without vertices ends the stream, which has some
    have hall := hnext.2.2
    rw [hzero rfl] at hall
    exact hvs (List.eq_nil_of_length_eq_zero hall.symm)
  refine ⟨fuel, array', l', ⟨num, array'.words 0 vs.length, hpos, hnum, ?_, ?_⟩, hload, rfl⟩
  · exact Buffer.length_words array' 0 vs.length
  · rw [Buffer.take_words array' 0 hnum, List.prefix_iff_eq_take.mp hwords, Buffer.length_words]

/-- The array has the vertices of the section exactly when the elements that were not loaded are the
remaining ones. -/
theorem Loaded.perm_iff {vs : List UInt64} (loaded : Loaded vs) :
    loaded.vertices.Perm vs ↔
      (loaded.vertices.drop loaded.num).Perm (vs.drop loaded.num) := by
  have hvs := List.take_append_drop loaded.num vs
  have hvertices := List.take_append_drop loaded.num loaded.vertices
  rw [loaded.filled] at hvertices
  calc loaded.vertices.Perm vs
    _ ↔ (vs.take loaded.num ++ loaded.vertices.drop loaded.num).Perm
        (vs.take loaded.num ++ vs.drop loaded.num) := by rw [hvertices, hvs]
    _ ↔ (loaded.vertices.drop loaded.num).Perm (vs.drop loaded.num) := List.perm_append_left_iff _

/-! ## The calls of the workers -/

section Removal

variable {p : Parameters W} {G : Type} {removeVertex : G → UInt64 → G × Bool} {g : G}
  {vs vertices : List UInt64}

/-- The number of workers that remove a vertex. -/
def numRemovers (p : Parameters W) (vertex : UInt64) : ℕ :=
  (Finset.univ.filter fun i : Fin p.numThreads =>
    removes p (BitVec.ofNat 32 i) vertex = true).card

/-- The worker whose turn a vertex is removes it. -/
theorem numRemovers_pos (p : Parameters W) (vertex : UInt64) : 1 ≤ numRemovers p vertex := by
  have hlt : vertex.toNat % p.numThreads < p.numThreads := Nat.mod_lt _ p.one_le_numThreads
  apply Finset.card_pos.mpr
  refine ⟨⟨vertex.toNat % p.numThreads, hlt⟩, Finset.mem_filter.mpr ⟨Finset.mem_univ _, ?_⟩⟩
  simp [removes]

theorem numRemovers_eq_one_iff (p : Parameters W) (vertex : UInt64) :
    numRemovers p vertex = 1 ↔ SolelyOwned p vertex := by
  have hlt : vertex.toNat % p.numThreads < p.numThreads := Nat.mod_lt _ p.one_le_numThreads
  have hmem : (⟨vertex.toNat % p.numThreads, hlt⟩ : Fin p.numThreads) ∈
      Finset.univ.filter fun i : Fin p.numThreads =>
        removes p (BitVec.ofNat 32 i) vertex = true := by
    simp [removes]
  constructor
  · intro hone i hi hremoves
    obtain ⟨j, hj⟩ := Finset.card_eq_one.mp hone
    have hturn := hj ▸ hmem
    have hother : (⟨i, hi⟩ : Fin p.numThreads) ∈ ({j} : Finset (Fin p.numThreads)) :=
      hj ▸ Finset.mem_filter.mpr ⟨Finset.mem_univ _, hremoves⟩
    rw [Finset.mem_singleton] at hturn hother
    exact congrArg Fin.val (hother.trans hturn.symm)
  · intro hsole
    refine Finset.card_eq_one.mpr ⟨_, Finset.eq_singleton_iff_unique_mem.mpr ⟨hmem, ?_⟩⟩
    intro i hi
    exact Fin.ext (hsole i i.isLt (Finset.mem_filter.mp hi).2)

/-- Each occurrence of a vertex in the array gives a call of each of its workers. -/
theorem sum_count_mainRemoveVertices (p : Parameters W) (vertices : List UInt64) (v : UInt64) :
    (∑ i : Fin p.numThreads, (mainRemoveVertices p (BitVec.ofNat 32 i) vertices).count v) =
      numRemovers p v * vertices.count v := by
  have hcount : ∀ i : Fin p.numThreads,
      (mainRemoveVertices p (BitVec.ofNat 32 i) vertices).count v =
        if removes p (BitVec.ofNat 32 i) v = true then vertices.count v else 0 := by
    intro i
    split_ifs with hremoves
    · exact List.count_filter hremoves
    · refine List.count_eq_zero_of_not_mem fun hmem => hremoves ?_
      exact (List.mem_filter.mp hmem).2
  rw [Finset.sum_congr rfl fun i _ => hcount i, ← Finset.sum_filter, Finset.sum_const,
    smul_eq_mul, numRemovers]

/-- **The calls**: the vertices removed so far, and those that the workers have to remove. -/
def RemovalInv (p : Parameters W) {G : Type} (vertices : List UInt64)
    (s : RemovalState p.numThreads G) : Prop :=
  ∀ v, s.removed.count v + (∑ i, (s.pending i).count v) = numRemovers p v * vertices.count v

theorem removalInv_initial : RemovalInv p vertices (removeVertices p vertices g) := by
  intro v
  rw [← sum_count_mainRemoveVertices]
  simp [removeVertices, Worker.new]

theorem RemovalInv.step {s s' : RemovalState p.numThreads G} (h : RemovalInv p vertices s)
    (hstep : RemovalStep removeVertex s s') : RemovalInv p vertices s' := by
  cases hstep with
  | @call i vertex rest hpending =>
    intro v
    have hothers : ∀ j ∈ Finset.univ.erase i,
        (Function.update s.pending i rest j).count v = (s.pending j).count v := fun j hj => by
      rw [Function.update_of_ne (Finset.ne_of_mem_erase hj)]
    have hv := h v
    rw [← Finset.add_sum_erase _ _ (Finset.mem_univ i), hpending, List.count_cons] at hv
    rw [← hv, ← Finset.add_sum_erase _ _ (Finset.mem_univ i), Finset.sum_congr rfl hothers]
    simp only [Function.update_self, List.count_append, List.count_cons, List.count_nil]
    omega

/-- The number of calls to come. -/
def RemovalState.remaining {n : ℕ} (s : RemovalState n G) : ℕ := ∑ i, (s.pending i).length

theorem RemovalStep.remaining_lt {n : ℕ} {s s' : RemovalState n G}
    (hstep : RemovalStep removeVertex s s') : s'.remaining < s.remaining := by
  obtain ⟨i, hpending⟩ := hstep
  refine Finset.sum_lt_sum (fun j _ => ?_) ⟨i, Finset.mem_univ i, ?_⟩
  · by_cases hj : j = i
    · subst hj
      simp [hpending]
    · simp [Function.update_of_ne hj]
  · simp [hpending]

/-- **A run** calls `remove_vertex` on the elements of the array, once for each of its workers. -/
theorem removesSection_iff_count :
    RemovesSection p removeVertex g vs vertices ↔
      ∀ v, numRemovers p v * vertices.count v = vs.count v := by
  have hinv : ∀ s, Relation.ReflTransGen (RemovalStep removeVertex)
      (removeVertices p vertices g) s → RemovalInv p vertices s := fun s hs =>
    reachable_invariant removalInv_initial (fun _ _ h hstep => h.step hstep) hs
  constructor
  · intro h v
    -- a run up to its end
    have hlt : ∀ s s' : RemovalState p.numThreads G, RemovalStep removeVertex s s' →
        s'.remaining < s.remaining := fun _ _ hstep => hstep.remaining_lt
    obtain ⟨s, hs, hfinal⟩ :=
      exists_final RemovalState.remaining hlt (removeVertices p vertices g)
    have hdone : s.Done := by
      by_contra hrunning
      obtain ⟨s', hstep⟩ := h.progress s hs hrunning
      exact hfinal s' hstep
    have hcount := hinv s hs v
    simp only [hdone _, List.count_nil, Finset.sum_const_zero, Nat.add_zero] at hcount
    rw [← hcount]
    exact (h.removed s hs hdone).count_eq v
  · intro hcount
    constructor
    case progress =>
      intro s _ hrunning
      obtain ⟨i, hi⟩ := not_forall.mp hrunning
      obtain ⟨v, rest, hpending⟩ := List.exists_cons_of_ne_nil hi
      exact ⟨_, RemovalStep.call i hpending⟩
    case finite =>
      intro run _
      exact runs_finite RemovalState.remaining (fun _ _ hstep => hstep.remaining_lt) run
    case removed =>
      intro s hs hdone
      refine List.perm_iff_count.mpr fun v => ?_
      have hv := hinv s hs v
      simp only [hdone _, List.count_nil, Finset.sum_const_zero, Nat.add_zero] at hv
      rw [hv, hcount v]

/-- An array as long as the section gives the calls that remove it exactly when its elements are the
vertices of the section, and each of them has one worker. -/
theorem forall_count_iff (hlength : vertices.length = vs.length) :
    (∀ v, numRemovers p v * vertices.count v = vs.count v) ↔
      vertices.Perm vs ∧ ∀ v ∈ vs, SolelyOwned p v := by
  constructor
  · intro hcount
    have hperm : vertices.Perm vs := by
      refine List.Subperm.perm_of_length_le (List.subperm_iff_count.mpr fun v => ?_) hlength.ge
      rw [← hcount v]
      exact Nat.le_mul_of_pos_left _ (numRemovers_pos p v)
    refine ⟨hperm, fun v hv => (numRemovers_eq_one_iff p v).mp ?_⟩
    have hpos : 0 < vs.count v := List.count_pos_iff.mpr hv
    have hv := hcount v
    rw [hperm.count_eq] at hv
    exact Nat.eq_of_mul_eq_mul_right hpos (hv.trans (Nat.one_mul _).symm)
  · rintro ⟨hperm, hsole⟩ v
    rw [hperm.count_eq]
    by_cases hv : v ∈ vs
    · rw [(numRemovers_eq_one_iff p v).mpr (hsole v hv), Nat.one_mul]
    · rw [List.count_eq_zero_of_not_mem hv, Nat.mul_zero]

/-- **The section is removed** exactly when each of its vertices has one worker and the elements of
the array that were not loaded happen to be the remaining vertices, as when there are none. -/
theorem removesSection_iff (p : Parameters W) {G : Type} (removeVertex : G → UInt64 → G × Bool)
    (g : G) (vs : List UInt64) (loaded : Loaded vs) :
    RemovesSection p removeVertex g vs loaded.vertices ↔
      (loaded.vertices.drop loaded.num).Perm (vs.drop loaded.num) ∧
        ∀ v ∈ vs, SolelyOwned p v := by
  rw [removesSection_iff_count, forall_count_iff loaded.length_vertices, loaded.perm_iff]

end Removal

/-- A worker removes the vertex `0`, and does not remove the vertex `2`: the loader returned the
first of two vertices, and there is a zero behind it. -/
theorem not_removesSection :
    ∃ load : Loaded [1, 2], ¬RemovesSection (sampleParameters 1 (le_refl 1))
      (fun (g : Unit) _ => (g, true)) () [1, 2] load.vertices := by
  refine ⟨⟨1, [1, 0], le_rfl, Nat.le_succ 1, rfl, rfl⟩, fun h => ?_⟩
  have hcount := removesSection_iff_count.mp h 2
  have hzero : ([1, 0] : List UInt64).count 2 = 0 := rfl
  have hone : ([1, 2] : List UInt64).count 2 = 1 := rfl
  rw [hzero, hone, Nat.mul_zero] at hcount
  exact Nat.zero_ne_one hcount

end Aging2

end GfeDriver
