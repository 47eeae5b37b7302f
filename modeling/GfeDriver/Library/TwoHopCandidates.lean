import GfeDriver.Foundation.Runs
import Mathlib.Data.UInt
import Mathlib.Tactic

/-!
# The candidates for two-hop neighbours

A driver draws the vertices whose two-hop neighbours are computed at random, without repetition. A
vertex that was drawn before is drawn again: the index of the loop goes back by one, and forth. When
there are fewer vertices than are to be drawn, all of them are drawn at some point, and the loop
goes on forever.

## Main definitions

* `CandidateLoop`, `CandidateLoop.next`: the loop
* `CandidateDriver`: where the drivers differ
* `Progresses d n`: the loop may always advance, and its result consists of different vertices

## Main results

* `Inv.next`: an iteration of the loop keeps its invariant
* `exists_advance`: a vertex that was not drawn before
* `progresses_iff`: when the loop may always advance
-/

namespace GfeDriver

open Foundation

/-! ## The program -/

/-- `RAND_MAX`. -/
def randMax : ℕ := 2147483647

/-- `two_hop_neighbor_size`. -/
def twoHopNeighborSize : UInt64 := 2000

/-- The variables of the loop. -/
structure CandidateLoop where
  i : UInt64
  vertices : List UInt64
  uniqueVertices : List UInt64

namespace CandidateLoop

/-- `vertices.resize(n)`. -/
def resize (n : ℕ) (vertices : List UInt64) : List UInt64 :=
  vertices.take n ++ List.replicate (n - vertices.length) 0

/-- Before the loop. -/
def start (vertices : List UInt64) : CandidateLoop :=
  ⟨0, resize twoHopNeighborSize.toNat vertices, []⟩

/-- The body of the loop, for the vertex that was drawn. -/
def body (s : CandidateLoop) (vid : UInt64) : CandidateLoop :=
  if vid ∈ s.uniqueVertices then { s with i := s.i - 1 }
  else
    { s with
      vertices := s.vertices.set s.i.toNat vid
      uniqueVertices := vid :: s.uniqueVertices }

/-- An iteration of the loop. -/
def next (s : CandidateLoop) (vid : UInt64) : CandidateLoop :=
  { s.body vid with i := (s.body vid).i + 1 }

/-- One step of the loop, for some value of `rand()`. -/
def Step (draw : ℕ → UInt64) (s s' : CandidateLoop) : Prop :=
  s.i < twoHopNeighborSize ∧ ∃ r ≤ randMax, s' = s.next (draw r)

end CandidateLoop

/-- **Where the drivers differ**, for a number of vertices: the vertex for a value of `rand()`, what
is done behind the loop, and the identifiers of the vertices. -/
structure CandidateDriver where
  draw : UInt64 → ℕ → UInt64
  finish : List UInt64 → List UInt64
  valid : UInt64 → UInt64 → Bool

/-- `GTXDriver::generate_two_hops_neighbor_candidates`. -/
def GTXDriver : CandidateDriver where
  draw maxVertexId r := UInt64.ofNat r % maxVertexId + 1
  finish vertices := vertices
  valid maxVertexId vid := 1 ≤ vid && vid ≤ maxVertexId

/-- `LiveGraphDriver::generate_two_hops_neighbor_candidates`. -/
def LiveGraphDriver : CandidateDriver where
  draw maxVertexId r := UInt64.ofNat r % maxVertexId
  finish vertices := vertices
  valid maxVertexId vid := vid < maxVertexId

/-- `SortledtonDriver::generate_two_hops_neighbor_candidates`. -/
def SortledtonDriver : CandidateDriver where
  draw maxPhysicalVertices r := UInt64.ofNat r % maxPhysicalVertices
  finish vertices := vertices.mergeSort fun a b => a ≤ b
  valid maxPhysicalVertices vid := vid < maxPhysicalVertices

/-- **The loop may always advance**, and when it has ended, its result consists of different
vertices that exist. -/
structure Progresses (d : CandidateDriver) (n : UInt64) : Prop where
  advances : ∀ vertices s,
    Relation.ReflTransGen (CandidateLoop.Step (d.draw n)) (.start vertices) s →
      s.i < twoHopNeighborSize → ∃ r ≤ randMax, (s.next (d.draw n r)).i = s.i + 1
  result : ∀ vertices s,
    Relation.ReflTransGen (CandidateLoop.Step (d.draw n)) (.start vertices) s →
      ¬s.i < twoHopNeighborSize →
        (d.finish s.vertices).length = twoHopNeighborSize.toNat ∧ (d.finish s.vertices).Nodup ∧
          ∀ vid ∈ d.finish s.vertices, d.valid n vid = true

/-! ## The loop -/

namespace CandidateLoop

/-- **The invariant**: the vertices drawn so far are different, and in front of the index. -/
structure Inv (draw : ℕ → UInt64) (s : CandidateLoop) : Prop where
  index : s.i.toNat = s.uniqueVertices.length
  index_le : s.i.toNat ≤ twoHopNeighborSize.toNat
  length : s.vertices.length = twoHopNeighborSize.toNat
  drawn : s.vertices.take s.i.toNat = s.uniqueVertices.reverse
  nodup : s.uniqueVertices.Nodup
  of_draw : ∀ vid ∈ s.uniqueVertices, ∃ r ≤ randMax, draw r = vid

variable {draw : ℕ → UInt64} {s : CandidateLoop} {vid : UInt64}

theorem next_of_mem (h : vid ∈ s.uniqueVertices) : s.next vid = s := by
  have hbody : s.body vid = { s with i := s.i - 1 } := if_pos h
  rw [next, hbody]
  exact congrArg (fun i => { s with i }) (UInt64.sub_add_cancel s.i 1)

theorem next_of_notMem (h : vid ∉ s.uniqueVertices) :
    s.next vid =
      ⟨s.i + 1, s.vertices.set s.i.toNat vid, vid :: s.uniqueVertices⟩ := by
  have hbody : s.body vid = { s with
      vertices := s.vertices.set s.i.toNat vid
      uniqueVertices := vid :: s.uniqueVertices } := if_neg h
  rw [next, hbody]

/-- The index advances for a vertex that was not drawn before, and only then. -/
theorem next_index_iff : (s.next vid).i = s.i + 1 ↔ vid ∉ s.uniqueVertices := by
  by_cases h : vid ∈ s.uniqueVertices
  · rw [next_of_mem h]
    refine iff_of_false (fun heq => ?_) (not_not.mpr h)
    have hnat := congrArg UInt64.toNat heq
    rw [UInt64.toNat_add] at hnat
    have hlt := s.i.toNat_lt
    have hone : (1 : UInt64).toNat = 1 := rfl
    omega
  · rw [next_of_notMem h]
    exact iff_of_true rfl h

theorem inv_start (vertices : List UInt64) : Inv draw (start vertices) where
  index := rfl
  index_le := Nat.zero_le _
  length := by
    simp only [start, resize, List.length_append, List.length_take, List.length_replicate]
    omega
  drawn := rfl
  nodup := List.nodup_nil
  of_draw _ h := absurd h List.not_mem_nil

/-- **An iteration keeps the invariant**. -/
theorem Inv.next (h : Inv draw s) (hi : s.i < twoHopNeighborSize) {r : ℕ} (hr : r ≤ randMax) :
    Inv draw (s.next (draw r)) := by
  by_cases hmem : draw r ∈ s.uniqueVertices
  · rwa [next_of_mem hmem]
  · have hlt : s.i.toNat < twoHopNeighborSize.toNat := UInt64.lt_iff_toNat_lt.mp hi
    have hsize : twoHopNeighborSize.toNat = 2000 := rfl
    have hone : (1 : UInt64).toNat = 1 := rfl
    have hindex : (s.i + 1).toNat = s.i.toNat + 1 := by
      rw [UInt64.toNat_add]
      omega
    rw [next_of_notMem hmem]
    exact
      { index := by rw [hindex, h.index, List.length_cons]
        index_le := by
          rw [hindex]
          omega
        length := by rw [List.length_set, h.length]
        drawn := by
          have hbound : s.i.toNat < (s.vertices.set s.i.toNat (draw r)).length := by
            rw [List.length_set, h.length]
            exact hlt
          rw [hindex, List.take_succ_eq_append_getElem hbound, List.getElem_set_self,
            List.take_set_of_le le_rfl, h.drawn, List.reverse_cons]
        nodup := List.nodup_cons.mpr ⟨hmem, h.nodup⟩
        of_draw := List.forall_mem_cons.mpr ⟨⟨r, hr, rfl⟩, h.of_draw⟩ }

theorem inv_of_reachable {vertices : List UInt64}
    (h : Relation.ReflTransGen (Step draw) (start vertices) s) : Inv draw s := by
  refine reachable_invariant (inv_start vertices) ?_ h
  rintro s s' hs ⟨hi, r, hr, rfl⟩
  exact hs.next hi hr

/-! ## The identifiers that are drawn -/

/-- A vertex is drawn with a value of `rand()`, and the first identifier is `base`. -/
def Draws (n base : ℕ) (draw : ℕ → UInt64) : Prop :=
  ∀ r ≤ randMax, (draw r).toNat = r % n + base

variable {n base : ℕ}

/-- Values below the number of vertices give different vertices. -/
theorem Draws.injOn (h : Draws n base draw) {m : ℕ} (hn : m ≤ n) (hm : m ≤ randMax) :
    Set.InjOn draw (Finset.range m) := by
  intro r hr r' hr' heq
  have hlt := Finset.mem_range.mp hr
  have hlt' := Finset.mem_range.mp hr'
  have hnat := congrArg UInt64.toNat heq
  rw [h r (by omega), h r' (by omega), Nat.mod_eq_of_lt (by omega),
    Nat.mod_eq_of_lt (by omega)] at hnat
  omega

/-- **A vertex that was not drawn before** exists while fewer than all were drawn. -/
theorem Draws.exists_advance (h : Draws n base draw) (hn : twoHopNeighborSize.toNat ≤ n)
    (hinv : Inv draw s) (hi : s.i < twoHopNeighborSize) :
    ∃ r ≤ randMax, draw r ∉ s.uniqueVertices := by
  have hm : twoHopNeighborSize.toNat ≤ randMax := by decide
  have hlt : s.uniqueVertices.length < twoHopNeighborSize.toNat := by
    rw [← hinv.index]
    exact UInt64.lt_iff_toNat_lt.mp hi
  -- there are more vertices to draw than were drawn
  by_contra hall
  push Not at hall
  have hsub : (Finset.range twoHopNeighborSize.toNat).image draw ⊆ s.uniqueVertices.toFinset := by
    intro vid hvid
    obtain ⟨r, hr, rfl⟩ := Finset.mem_image.mp hvid
    have hr := Finset.mem_range.mp hr
    exact List.mem_toFinset.mpr (hall r (by omega))
  have hcard := Finset.card_le_card hsub
  rw [Finset.card_image_of_injOn (h.injOn hn hm), Finset.card_range] at hcard
  have hle := List.toFinset_card_le s.uniqueVertices
  omega

/-- As many vertices can be drawn as there are, if the loop has not ended. -/
theorem Draws.exists_reachable (h : Draws n base draw) (hn : n < twoHopNeighborSize.toNat)
    (vertices : List UInt64) {k : ℕ} (hk : k ≤ n) :
    ∃ s, Relation.ReflTransGen (Step draw) (start vertices) s ∧ s.i.toNat = k ∧
      s.uniqueVertices = ((List.range k).map draw).reverse := by
  have hsize : twoHopNeighborSize.toNat ≤ randMax := by decide
  induction k with
  | zero => exact ⟨start vertices, .refl, rfl, rfl⟩
  | succ k ih =>
    obtain ⟨s, hreach, hi, hunique⟩ := ih (by omega)
    have hnew : draw k ∉ s.uniqueVertices := by
      rw [hunique, List.mem_reverse, List.mem_map]
      rintro ⟨r, hr, heq⟩
      have hlt := List.mem_range.mp hr
      have hkr := h.injOn (m := k + 1) (by omega) (by omega) (by simp; omega) (by simp) heq
      omega
    have hlt : s.i < twoHopNeighborSize := UInt64.lt_iff_toNat_lt.mpr (by omega)
    refine ⟨s.next (draw k), hreach.tail ⟨hlt, k, by omega, rfl⟩, ?_, ?_⟩
    · rw [next_of_notMem hnew]
      show (s.i + 1).toNat = k + 1
      have hone : (1 : UInt64).toNat = 1 := rfl
      rw [UInt64.toNat_add, hi, hone]
      have hbound := s.i.toNat_lt
      have hsz : twoHopNeighborSize.toNat = 2000 := rfl
      omega
    · rw [next_of_notMem hnew, List.range_succ, List.map_append, List.reverse_append, hunique]
      rfl

/-- **The loop does not advance** when all vertices were drawn. -/
theorem Draws.not_advance (h : Draws n base draw) (hpos : 0 < n)
    (hn : n < twoHopNeighborSize.toNat) (vertices : List UInt64) :
    ∃ s, Relation.ReflTransGen (Step draw) (start vertices) s ∧ s.i < twoHopNeighborSize ∧
      ∀ r ≤ randMax, draw r ∈ s.uniqueVertices := by
  obtain ⟨s, hreach, hi, hunique⟩ := h.exists_reachable hn vertices le_rfl
  refine ⟨s, hreach, UInt64.lt_iff_toNat_lt.mpr (by omega), fun r hr => ?_⟩
  have hmod : r % n < n := Nat.mod_lt r hpos
  have hle : r % n ≤ r := Nat.mod_le r n
  have heq : draw (r % n) = draw r := by
    rw [← UInt64.toNat_inj, h _ (hle.trans hr), h r hr, Nat.mod_mod]
  rw [hunique, List.mem_reverse, ← heq]
  exact List.mem_map_of_mem (List.mem_range.mpr hmod)

end CandidateLoop

/-! ## The drivers -/

open CandidateLoop

/-- **When the loop of a driver may always advance**: there are as many vertices as are drawn. -/
theorem progresses_iff_of_draws {d : CandidateDriver} {n : UInt64} {base : ℕ} (hpos : 0 < n.toNat)
    (hdraw : Draws n.toNat base (d.draw n))
    (hvalid : ∀ vid, base ≤ vid.toNat → vid.toNat < n.toNat + base → d.valid n vid = true)
    (hfinish : ∀ vertices, (d.finish vertices).Perm vertices) :
    Progresses d n ↔ twoHopNeighborSize ≤ n := by
  rw [UInt64.le_iff_toNat_le]
  constructor
  · intro h
    by_contra hlt
    obtain ⟨s, hreach, hi, hall⟩ := hdraw.not_advance hpos (not_le.mp hlt) []
    obtain ⟨r, hr, hadvance⟩ := h.advances [] s hreach hi
    exact next_index_iff.mp hadvance (hall r hr)
  · intro hn
    refine ⟨fun vertices s hreach hi => ?_, fun vertices s hreach hi => ?_⟩
    · obtain ⟨r, hr, hnew⟩ := hdraw.exists_advance hn (inv_of_reachable hreach) hi
      exact ⟨r, hr, next_index_iff.mpr hnew⟩
    · have hinv := inv_of_reachable hreach
      have hge : twoHopNeighborSize.toNat ≤ s.i.toNat :=
        not_lt.mp fun hlt => hi (UInt64.lt_iff_toNat_lt.mpr hlt)
      have hvertices : s.vertices = s.uniqueVertices.reverse := by
        rw [← hinv.drawn, List.take_of_length_le (by rw [hinv.length]; exact hge)]
      have hperm := hfinish s.vertices
      refine ⟨hperm.length_eq.trans hinv.length, ?_, fun vid hvid => ?_⟩
      · rw [hperm.nodup_iff, hvertices, List.nodup_reverse]
        exact hinv.nodup
      · rw [hperm.mem_iff, hvertices, List.mem_reverse] at hvid
        obtain ⟨r, hr, rfl⟩ := hinv.of_draw vid hvid
        have hmod := Nat.mod_lt r hpos
        exact hvalid _ (by rw [hdraw r hr]; omega) (by rw [hdraw r hr]; omega)

theorem toNat_rand {r : ℕ} (hr : r ≤ randMax) : (UInt64.ofNat r).toNat = r := by
  have hmax : randMax < 2 ^ 64 := by decide
  exact UInt64.toNat_ofNat_of_lt' (hr.trans_lt hmax)

/-- **When the loop may always advance**, in each of the drivers: there are 2000 vertices. -/
theorem progresses_iff {n : UInt64} (hn : 1 ≤ n) :
    (Progresses GTXDriver n ↔ twoHopNeighborSize ≤ n) ∧
      (Progresses LiveGraphDriver n ↔ twoHopNeighborSize ≤ n) ∧
        (Progresses SortledtonDriver n ↔ twoHopNeighborSize ≤ n) := by
  have hpos : 0 < n.toNat := UInt64.le_iff_toNat_le.mp hn
  have hlt (vid : UInt64) (h : vid.toNat < n.toNat + 0) : decide (vid < n) = true :=
    decide_eq_true (UInt64.lt_iff_toNat_lt.mpr h)
  have hmod : Draws n.toNat 0 fun r => UInt64.ofNat r % n := by
    intro r hr
    rw [UInt64.toNat_mod, toNat_rand hr, Nat.add_zero]
  refine ⟨?_, ?_, ?_⟩
  · have hsucc : Draws n.toNat 1 (GTXDriver.draw n) := by
      intro r hr
      have hle : r % n.toNat ≤ randMax := (Nat.mod_le r _).trans hr
      have hmax : randMax + 1 < 2 ^ 64 := by decide
      have hone : (1 : UInt64).toNat = 1 := rfl
      show (UInt64.ofNat r % n + 1).toNat = _
      rw [UInt64.toNat_add, UInt64.toNat_mod, toNat_rand hr, hone]
      omega
    refine progresses_iff_of_draws hpos hsucc (fun vid hge hlt => ?_) fun _ => List.Perm.refl _
    have hge' : 1 ≤ vid := UInt64.le_iff_toNat_le.mpr hge
    have hle : vid ≤ n := UInt64.le_iff_toNat_le.mpr (by omega)
    simp [GTXDriver, hge', hle]
  · exact progresses_iff_of_draws hpos hmod (fun vid _ => hlt vid) fun _ => List.Perm.refl _
  · exact progresses_iff_of_draws hpos hmod (fun vid _ => hlt vid) fun _ => List.mergeSort_perm _ _

theorem progresses_iff_one :
    (Progresses GTXDriver 1 ↔ twoHopNeighborSize ≤ 1) ∧
      (Progresses LiveGraphDriver 1 ↔ twoHopNeighborSize ≤ 1) ∧
        (Progresses SortledtonDriver 1 ↔ twoHopNeighborSize ≤ 1) :=
  progresses_iff (UInt64.le_refl 1)

/-- **With one vertex** the second one is never drawn. -/
theorem not_progresses_one : ¬Progresses GTXDriver 1 := by
  intro h
  have hdraw : Draws (1 : UInt64).toNat 1 (GTXDriver.draw 1) := by
    intro r hr
    have hone : (1 : UInt64).toNat = 1 := rfl
    show (UInt64.ofNat r % 1 + 1).toNat = _
    rw [UInt64.toNat_add, UInt64.toNat_mod, toNat_rand hr, hone, Nat.mod_one]
  obtain ⟨s, hreach, hi, hall⟩ := hdraw.not_advance one_pos (by decide) []
  obtain ⟨r, hr, hadvance⟩ := h.advances [] s hreach hi
  exact next_index_iff.mp hadvance (hall r hr)

end GfeDriver
