import GfeDriver.Foundation.Reservation
import GfeDriver.Foundation.Runs

/-!
# Concurrent expansion of a level

Several workers expand one level of a breadth-first search. They share the iterations out, in any
way. An iteration picks a node, or none, and the worker visits the ends of its edges: an end without
a mark is claimed by an atomic test-and-set on its mark, and the worker whose test-and-set comes
first puts it in its own list and labels it. A worker that is out of iterations reserves as many
slots of the queue as its list is long, with one atomic addition to the counter, and copies its list
there.

A worker reads a mark before the test-and-set, and the pick may read the labels while the other
workers write them. Still every interleaving gives the same marks, labels and counter, and a queue
with the same nodes.

## Main definitions

* `Tables`, `Worker`, `Level`: the shared tables, and the workers
* `Step`: an atomic step of a worker
* `Expanded`: the tables after the level
* `Inv`: the invariant

## Main results

* `Step.inv`: each step keeps the invariant
* `Inv.disjoint`, `Inv.exists_queued`: the slots of two workers are disjoint, and hold new nodes
* `endsIn_expanded`: every run ends, and has expanded the level
-/

namespace Foundation

namespace Expansion

open Reservation

universe u

variable {α ι β τ : Type u}

/-! ## The workers -/

/-- Where a worker is: at an edge or an iteration, before the test-and-set on a mark, after one that
came first, about to copy its list to the slots from `k` on, or at the end. -/
inductive Stage (α : Type u)
  | scan
  | claim (u : α)
  | won (u : α)
  | copy (k : ℕ)
  | done (k : ℕ)
  deriving DecidableEq

/-- A worker, with its iterations and the ends of the edges that are left, and the list of the nodes
that it labelled. -/
structure Worker (α ι : Type u) where
  stage : Stage α
  iterations : List ι
  targets : List α
  found : List α

/-- The marks, the labels, the queue, and the counter of the slots that are in use. -/
structure Tables (α β : Type u) where
  visited : α → Bool
  label : α → β
  queue : ℕ → α
  count : ℕ

/-- The tables, and the workers. -/
structure Level (α ι β τ : Type u) extends Tables α β where
  workers : τ → Worker α ι

/-- What the workers do: the node of an iteration, the ends of the edges of a node, the label of the
new nodes, whether they go to the queue, and where the slots begin. -/
structure Scan (α ι β : Type u) where
  pick : Tables α β → ι → Option α
  nbr : α → List α
  next : β
  queued : Bool
  base : ℕ

/-- The ends that an iteration visits. -/
def Scan.ends (c : Scan α ι β) (T : Tables α β) (i : ι) : List α := (c.pick T i).elim [] c.nbr

/-- The workers share the iterations out. -/
def Level.start (T : Tables α β) (shares : τ → List ι) : Level α ι β τ :=
  { T with workers := fun w => ⟨.scan, shares w, [], []⟩ }

/-- The stage after the reservation of the slots from `k` on. -/
def Scan.reserved (c : Scan α ι β) (k : ℕ) (found : List α) : Stage α :=
  if c.queued ∧ found ≠ [] then .copy k else .done k

section Step

variable [DecidableEq α] [DecidableEq τ]

/-- A worker moves. -/
def Level.move (s : Level α ι β τ) (w : τ) (x : Worker α ι) : Level α ι β τ :=
  { s with workers := Function.update s.workers w x }

/-- **An atomic step** of a worker. -/
inductive Step (c : Scan α ι β) : Level α ι β τ → Level α ι β τ → Prop
  /-- The next iteration. -/
  | pick {s w i is l} : s.workers w = ⟨.scan, i :: is, [], l⟩ →
      Step c s (s.move w ⟨.scan, is, c.ends s.toTables i, l⟩)
  /-- The next end has a mark. -/
  | skip {s w is u us l} : s.workers w = ⟨.scan, is, u :: us, l⟩ → s.visited u →
      Step c s (s.move w ⟨.scan, is, us, l⟩)
  /-- The next end has no mark. -/
  | test {s w is u us l} : s.workers w = ⟨.scan, is, u :: us, l⟩ → ¬s.visited u →
      Step c s (s.move w ⟨.claim u, is, us, l⟩)
  /-- The test-and-set finds a mark. -/
  | lose {s w is u us l} : s.workers w = ⟨.claim u, is, us, l⟩ → s.visited u →
      Step c s (s.move w ⟨.scan, is, us, l⟩)
  /-- The test-and-set comes first. -/
  | win {s w is u us l} : s.workers w = ⟨.claim u, is, us, l⟩ → ¬s.visited u →
      Step c s { s.move w ⟨.won u, is, us, l⟩ with visited := Function.update s.visited u true }
  /-- The node gets its label. -/
  | push {s w is u us l} : s.workers w = ⟨.won u, is, us, l⟩ →
      Step c s { s.move w ⟨.scan, is, us, l ++ [u]⟩ with
        label := Function.update s.label u c.next }
  /-- The atomic addition. -/
  | reserve {s w l} : s.workers w = ⟨.scan, [], [], l⟩ →
      Step c s { s.move w ⟨c.reserved s.count l, [], [], l⟩ with count := s.count + l.length }
  /-- The copy of the list. -/
  | copy {s w k is us l} : s.workers w = ⟨.copy k, is, us, l⟩ →
      Step c s { s.move w ⟨.done k, is, us, l⟩ with queue := fill s.queue (c.base + k) l }

end Step

/-! ## The invariant -/

namespace Worker

/-- The nodes whose marks the worker set. -/
def claimed (x : Worker α ι) : List α :=
  match x.stage with
  | .won u => x.found ++ [u]
  | _ => x.found

/-- The first of the slots that the worker reserved. -/
def slot (x : Worker α ι) : Option ℕ :=
  match x.stage with
  | .copy k => some k
  | .done k => some k
  | _ => none

/-- The worker has still to look at the mark of `u`. -/
def Pending (x : Worker α ι) (u : α) : Prop := u ∈ x.targets ∨ x.stage = .claim u

/-- The iterations of the worker's share are to come or visited. -/
structure Ok (c : Scan α ι β) (T : Tables α β) (visited : α → Bool) (share : List ι)
    (x : Worker α ι) : Prop where
  left : ∀ i ∈ x.iterations, i ∈ share
  pending : ∀ u, x.Pending u → ∃ i ∈ share, u ∈ c.ends T i
  covered : ∀ i ∈ share, i ∈ x.iterations ∨ ∀ u ∈ c.ends T i, visited u ∨ x.Pending u
  finished : x.slot ≠ none → x.iterations = [] ∧ x.targets = []

end Worker

/-- The nodes at the ends of the edges that the level visits. -/
def Reached (c : Scan α ι β) (T : Tables α β) (shares : τ → List ι) (u : α) : Prop :=
  ∃ w, ∃ i ∈ shares w, u ∈ c.ends T i

/-- **What an iteration picks** does not depend on the labels of the nodes that the level marks, nor
on the slots of the queue that it writes. -/
def Stable (c : Scan α ι β) (T : Tables α β) (shares : τ → List ι) : Prop :=
  ∀ T' : Tables α β, (∀ p < c.base, T'.queue p = T.queue p) →
    (∀ u, T'.label u = T.label u ∨ ¬T.visited u ∧ T'.label u = c.next) →
    ∀ w, ∀ i ∈ shares w, c.pick T' i = c.pick T i

/-- The marks that the workers set are those of distinct new nodes. -/
structure Claims (c : Scan α ι β) (T : Tables α β) (shares : τ → List ι) (visited : α → Bool)
    (workers : τ → Worker α ι) : Prop where
  ok : ∀ w, (workers w).Ok c T visited (shares w)
  visited : ∀ u, visited u ↔ T.visited u ∨ ∃ w, u ∈ (workers w).claimed
  new : ∀ w, ∀ u ∈ (workers w).claimed, ¬T.visited u ∧ Reached c T shares u
  nodup : ∀ w, (workers w).claimed.Nodup
  disjoint : ∀ w w', w ≠ w' → (workers w).claimed.Disjoint (workers w').claimed

/-- The nodes in the lists of the workers have the new label, the others their old one. -/
structure Labels (c : Scan α ι β) (T : Tables α β) (label : α → β) (workers : τ → Worker α ι) :
    Prop where
  new : ∀ w, ∀ u ∈ (workers w).found, label u = c.next
  old : ∀ u, (∀ w, u ∉ (workers w).found) → label u = T.label u

/-- The workers reserve slots from `base` on, and copy their lists there. -/
structure Slots (c : Scan α ι β) (T : Tables α β) (queue : ℕ → α) (count : ℕ)
    (workers : τ → Worker α ι) : Prop where
  old : ∀ p < c.base, queue p = T.queue p
  reserved : Reserved c.base queue count (fun w => (workers w).slot) (fun w => (workers w).found)
    fun w => c.queued ∧ ∃ k, (workers w).stage = .done k

/-- **The invariant** of a level that began with the tables `T`. -/
structure Inv (c : Scan α ι β) (T : Tables α β) (shares : τ → List ι) (s : Level α ι β τ) :
    Prop where
  claims : Claims c T shares s.visited s.workers
  labels : Labels c T s.label s.workers
  slots : Slots c T s.queue s.count s.workers

/-- **The tables after the level**, whose edges end in the nodes `R`: they are marked, and those
that were not get the label and the slots of the queue. -/
structure Expanded (c : Scan α ι β) (R : α → Prop) (T T' : Tables α β) : Prop where
  visited : ∀ u, T'.visited u ↔ T.visited u ∨ R u
  label_new : ∀ u, ¬T.visited u → R u → T'.label u = c.next
  label_old : ∀ u, (T.visited u ∨ ¬R u) → T'.label u = T.label u
  queue : ∀ p < c.base, T'.queue p = T.queue p
  found : ∃ l : List α, l.Nodup ∧ (∀ u, u ∈ l ↔ ¬T.visited u ∧ R u) ∧ T'.count = l.length ∧
    (c.queued → window T'.queue c.base T'.count = l)

/-! ## The share of a worker -/

section Share

variable {c : Scan α ι β} {T : Tables α β} {visited : α → Bool} {share is : List ι}
  {x : Worker α ι} {i : ι} {us l : List α} {u : α} {k : ℕ}

theorem Scan.reserved_eq (c : Scan α ι β) (k : ℕ) (l : List α) :
    c.reserved k l = .copy k ∨ c.reserved k l = .done k := by
  rw [Scan.reserved]
  split_ifs
  · exact .inl rfl
  · exact .inr rfl

theorem Scan.slot_reserved : (⟨c.reserved k l, is, us, l⟩ : Worker α ι).slot = some k := by
  rcases c.reserved_eq k l with h | h <;> rw [h] <;> rfl

theorem Scan.claimed_reserved : (⟨c.reserved k l, is, us, l⟩ : Worker α ι).claimed = l := by
  rcases c.reserved_eq k l with h | h <;> rw [h] <;> rfl

theorem Worker.mem_claimed_of_found (h : u ∈ x.found) : u ∈ x.claimed := by
  rw [Worker.claimed]
  split
  · exact List.mem_append_left _ h
  · exact h

namespace Worker.Ok

/-- The other workers set marks. -/
theorem mono {visited' : α → Bool} (h : x.Ok c T visited share)
    (hle : ∀ u, visited u → visited' u) : x.Ok c T visited' share where
  left := h.left
  pending := h.pending
  covered i hi := (h.covered i hi).imp_right fun hends u hu => (hends u hu).imp_left (hle u)
  finished := h.finished

theorem pick (h : Ok c T visited share ⟨.scan, i :: is, [], l⟩) :
    Ok c T visited share ⟨.scan, is, c.ends T i, l⟩ := by
  refine ⟨fun j hj => h.left j (List.mem_cons_of_mem i hj), fun u hu => ?_, fun j hj => ?_, nofun⟩
  · rcases hu with hu | hu
    · exact ⟨i, h.left i List.mem_cons_self, hu⟩
    · exact absurd hu nofun
  · rcases h.covered j hj with hj | hends
    · rcases List.mem_cons.mp hj with rfl | hj
      · exact .inr fun u hu => .inr (.inl hu)
      · exact .inl hj
    · refine .inr fun u hu => (hends u hu).imp_right fun hp => ?_
      rcases hp with hp | hp
      · exact absurd hp List.not_mem_nil
      · exact absurd hp nofun

theorem skip (h : Ok c T visited share ⟨.scan, is, u :: us, l⟩) (hu : visited u) :
    Ok c T visited share ⟨.scan, is, us, l⟩ := by
  refine ⟨h.left, fun v hv => ?_, fun i hi => ?_, nofun⟩
  · exact h.pending v (hv.imp_left (List.mem_cons_of_mem u))
  · refine (h.covered i hi).imp_right fun hends v hv => ?_
    rcases hends v hv with hv | hv | hv
    · exact .inl hv
    · rcases List.mem_cons.mp hv with rfl | hv
      · exact .inl hu
      · exact .inr (.inl hv)
    · exact absurd hv nofun

theorem test (h : Ok c T visited share ⟨.scan, is, u :: us, l⟩) :
    Ok c T visited share ⟨.claim u, is, us, l⟩ := by
  refine ⟨h.left, fun v hv => ?_, fun i hi => ?_, nofun⟩
  · rcases hv with hv | hv
    · exact h.pending v (.inl (List.mem_cons_of_mem u hv))
    · obtain rfl : u = v := Stage.claim.inj hv
      exact h.pending u (.inl List.mem_cons_self)
  · refine (h.covered i hi).imp_right fun hends v hv => (hends v hv).imp_right fun hp => ?_
    rcases hp with hp | hp
    · rcases List.mem_cons.mp hp with rfl | hp
      · exact .inr rfl
      · exact .inl hp
    · exact absurd hp nofun

/-- The mark is set, by another worker or by this one. -/
theorem claimed {stage : Stage α} (h : Ok c T visited share ⟨.claim u, is, us, l⟩)
    (hu : visited u) (hstage : stage = .scan ∨ stage = .won u) :
    Ok c T visited share ⟨stage, is, us, l⟩ := by
  have hclaim : ∀ v, stage ≠ .claim v := by
    rcases hstage with rfl | rfl <;> exact nofun
  refine ⟨h.left, fun v hv => ?_, fun i hi => ?_, fun hslot => ?_⟩
  · exact h.pending v (hv.imp_right fun hv => absurd hv (hclaim v))
  · refine (h.covered i hi).imp_right fun hends v hv => ?_
    rcases hends v hv with hv | hv | hv
    · exact .inl hv
    · exact .inr (.inl hv)
    · obtain rfl : u = v := Stage.claim.inj hv
      exact .inl hu
  · rcases hstage with rfl | rfl <;> exact absurd rfl hslot

/-- A step after which the worker has no more ends to claim than before. -/
theorem advance {stage : Stage α} {l' : List α} (h : x.Ok c T visited share)
    (hclaim : ∀ v, x.stage ≠ .claim v) (hclaim' : ∀ v, stage ≠ .claim v)
    (hfinished : (⟨stage, x.iterations, x.targets, l'⟩ : Worker α ι).slot ≠ none →
      x.iterations = [] ∧ x.targets = []) :
    Ok c T visited share ⟨stage, x.iterations, x.targets, l'⟩ := by
  refine ⟨h.left, fun v hv => ?_, fun i hi => ?_, hfinished⟩
  · exact h.pending v (hv.imp_right fun hv => absurd hv (hclaim' v))
  · exact (h.covered i hi).imp_right fun hends v hv =>
      (hends v hv).imp_right fun hp => hp.imp_right fun hv => absurd hv (hclaim v)

end Worker.Ok

end Share

/-! ## Preservation -/

section Preservation

variable [DecidableEq τ] {c : Scan α ι β} {T : Tables α β} {shares : τ → List ι}
  {s s' : Level α ι β τ} {workers : τ → Worker α ι} {visited : α → Bool} {label : α → β}
  {queue : ℕ → α} {count : ℕ} {w : τ} {x : Worker α ι}

/-- What a move of one worker keeps, it keeps of all. -/
theorem update_eq {γ : Type*} (f : Worker α ι → γ) (h : f x = f (workers w)) (j : τ) :
    f (Function.update workers w x j) = f (workers j) := by
  by_cases hj : j = w
  · subst hj
    rw [Function.update_self, h]
  · rw [Function.update_of_ne hj]

/-- A move that sets no mark. -/
theorem Claims.move (h : Claims c T shares visited workers) (hx : x.Ok c T visited (shares w))
    (hclaimed : x.claimed = (workers w).claimed) :
    Claims c T shares visited (Function.update workers w x) := by
  have heq : ∀ j, (Function.update workers w x j).claimed = (workers j).claimed :=
    update_eq Worker.claimed hclaimed
  refine ⟨?_, ?_, ?_, ?_, ?_⟩
  · rw [Function.forall_update_iff workers fun j y => y.Ok c T visited (shares j)]
    exact ⟨hx, fun j _ => h.ok j⟩
  · intro u
    simp only [heq]
    exact h.visited u
  · intro j
    rw [heq]
    exact h.new j
  · intro j
    rw [heq]
    exact h.nodup j
  · intro j k hjk
    rw [heq, heq]
    exact h.disjoint j k hjk

/-- A move that labels no node. -/
theorem Labels.move (h : Labels c T label workers) (hfound : x.found = (workers w).found) :
    Labels c T label (Function.update workers w x) := by
  have heq : ∀ j, (Function.update workers w x j).found = (workers j).found :=
    update_eq Worker.found hfound
  constructor
  · intro j
    rw [heq]
    exact h.new j
  · intro u hu
    simp only [heq] at hu
    exact h.old u hu

/-- The workers that are at the end after a move to another stage were there before. -/
theorem done_of_update (hstage : ∀ k, x.stage ≠ .done k) (j : τ)
    (hj : c.queued ∧ ∃ k, (Function.update workers w x j).stage = .done k) :
    c.queued ∧ ∃ k, (workers j).stage = .done k := by
  obtain ⟨hc, k, hk⟩ := hj
  by_cases hjw : j = w
  · subst hjw
    rw [Function.update_self] at hk
    exact absurd hk (hstage k)
  · rw [Function.update_of_ne hjw] at hk
    exact ⟨hc, k, hk⟩

/-- A move that is neither a reservation nor a copy. -/
theorem Slots.move (h : Slots c T queue count workers) (hslot : x.slot = (workers w).slot)
    (hfound : (workers w).slot ≠ none → x.found = (workers w).found)
    (hstage : ∀ k, x.stage ≠ .done k) : Slots c T queue count (Function.update workers w x) := by
  refine ⟨h.old, h.reserved.congr (update_eq Worker.slot hslot) (fun j hj => ?_)
    (done_of_update hstage)⟩
  by_cases hjw : j = w
  · subst hjw
    rw [Function.update_self]
    exact hfound hj
  · rw [Function.update_of_ne hjw]

/-- A reservation. -/
theorem Slots.reserve {l : List α} (h : Slots c T queue count workers)
    (hw : workers w = ⟨.scan, [], [], l⟩) :
    Slots c T queue (count + l.length)
      (Function.update workers w ⟨c.reserved count l, [], [], l⟩) := by
  have hfound : ∀ j,
      (Function.update workers w ⟨c.reserved count l, [], [], l⟩ j).found = (workers j).found :=
    update_eq Worker.found (by rw [hw])
  refine ⟨h.old, ?_⟩
  simp only [hfound]
  have hnil : (c.queued ∧ ∃ k,
      (Function.update workers w ⟨c.reserved count l, [], [], l⟩ w).stage = .done k) →
      (workers w).found = [] := by
    rintro ⟨hc, k, hk⟩
    rw [Function.update_self] at hk
    rw [hw]
    -- without a list there is nothing to copy
    by_contra hl
    simp [Scan.reserved, hc, hl] at hk
  have hres := h.reserved.reserve
    (fun j => (Function.update workers w ⟨c.reserved count l, [], [], l⟩ j).slot)
    (fun j => c.queued ∧
      ∃ k, (Function.update workers w ⟨c.reserved count l, [], [], l⟩ j).stage = .done k)
    (by rw [hw]; rfl) (by rw [Function.update_self]; exact Scan.slot_reserved)
    (fun j hj => by rw [Function.update_of_ne hj])
    (fun j hj => by rw [Function.update_of_ne hj]; exact id) hnil
  rwa [hw] at hres

/-- The copy of a list leaves the slots of the other workers alone. -/
theorem Slots.copy {is : List ι} {us l : List α} {k : ℕ} (h : Slots c T queue count workers)
    (hw : workers w = ⟨.copy k, is, us, l⟩) :
    Slots c T (fill queue (c.base + k) l) count
      (Function.update workers w ⟨.done k, is, us, l⟩) := by
  have hslot : ∀ j, (Function.update workers w ⟨.done k, is, us, l⟩ j).slot = (workers j).slot :=
    update_eq Worker.slot (by rw [hw]; rfl)
  have hfound : ∀ j,
      (Function.update workers w ⟨.done k, is, us, l⟩ j).found = (workers j).found :=
    update_eq Worker.found (by rw [hw])
  refine ⟨fun p hp => ?_, ?_⟩
  · rw [fill_of_lt (by omega)]
    exact h.old p hp
  · simp only [hslot, hfound]
    have hcopy := h.reserved.copy (w := w) (k := k)
      (fun j => c.queued ∧
        ∃ a, (Function.update workers w ⟨.done k, is, us, l⟩ j).stage = .done a)
      (by rw [hw]; rfl) fun j hj => by rw [Function.update_of_ne hj]; exact id
    rwa [hw] at hcopy

omit [DecidableEq τ] in
/-- The tables agree with those before the level as far as the picks go. -/
theorem Inv.ends_eq (h : Inv c T shares s) (hstable : Stable c T shares) {i : ι}
    (hi : i ∈ shares w) : c.ends s.toTables i = c.ends T i := by
  rw [Scan.ends, Scan.ends, hstable s.toTables h.slots.old (fun u => ?_) w i hi]
  by_cases hu : ∃ j, u ∈ (s.workers j).found
  · obtain ⟨j, hj⟩ := hu
    have hclaimed : u ∈ (s.workers j).claimed := Worker.mem_claimed_of_found hj
    exact .inr ⟨(h.claims.new j u hclaimed).1, h.labels.new j u hj⟩
  · push Not at hu
    exact .inl (h.labels.old u hu)

variable [DecidableEq α]

/-- The test-and-set that comes first. -/
theorem Claims.win {is : List ι} {us l : List α} {u : α} (h : Claims c T shares visited workers)
    (hw : workers w = ⟨.claim u, is, us, l⟩) (hu : ¬visited u) :
    Claims c T shares (Function.update visited u true)
      (Function.update workers w ⟨.won u, is, us, l⟩) := by
  have hle : ∀ v, visited v → Function.update visited u true v := by
    intro v hv
    by_cases hvu : v = u
    · subst hvu
      rw [Function.update_self]
    · rwa [Function.update_of_ne hvu]
  have hok := h.ok w
  have hfresh : ∀ j, u ∉ (workers j).claimed := fun j hj => hu ((h.visited u).mpr (.inr ⟨j, hj⟩))
  have hmem : ∀ j v, v ∈ (Function.update workers w ⟨.won u, is, us, l⟩ j).claimed ↔
      v ∈ (workers j).claimed ∨ j = w ∧ v = u := by
    intro j v
    by_cases hjw : j = w
    · subst hjw
      rw [Function.update_self, hw]
      simp [Worker.claimed]
    · rw [Function.update_of_ne hjw]
      simp [hjw]
  rw [hw] at hok
  have hreached : ¬T.visited u ∧ Reached c T shares u := by
    refine ⟨fun hT => hu ((h.visited u).mpr (.inl hT)), ?_⟩
    obtain ⟨i, hi, hends⟩ := hok.pending u (.inr rfl)
    exact ⟨w, i, hi, hends⟩
  refine ⟨?_, ?_, ?_, ?_, ?_⟩
  · rw [Function.forall_update_iff workers fun j y =>
      y.Ok c T (Function.update visited u true) (shares j)]
    exact ⟨(hok.mono hle).claimed (by rw [Function.update_self]) (.inr rfl),
      fun j _ => (h.ok j).mono hle⟩
  · intro v
    simp only [hmem]
    by_cases hvu : v = u
    · subst hvu
      simp
    · rw [Function.update_of_ne hvu, h.visited v]
      simp [hvu]
  · intro j v hv
    rcases (hmem j v).mp hv with hv | ⟨-, rfl⟩
    · exact h.new j v hv
    · exact hreached
  · intro j
    by_cases hjw : j = w
    · subst hjw
      have hnodup := h.nodup j
      have hu' := hfresh j
      rw [hw] at hnodup hu'
      rw [Function.update_self]
      exact List.nodup_append.mpr ⟨hnodup, List.nodup_singleton u, fun a ha b hb hab => by
        rw [hab, List.mem_singleton.mp hb] at ha
        exact hu' ha⟩
    · rw [Function.update_of_ne hjw]
      exact h.nodup j
  · intro j k hjk v hj hk
    rcases (hmem j v).mp hj with hvj | ⟨hjw, hvu⟩ <;>
      rcases (hmem k v).mp hk with hvk | ⟨hkw, hvu'⟩
    · exact h.disjoint j k hjk hvj hvk
    · exact hfresh j (hvu' ▸ hvj)
    · exact hfresh k (hvu ▸ hvk)
    · exact hjk (hjw.trans hkw.symm)

/-- The label of a new node. -/
theorem Labels.push {is : List ι} {us l : List α} {u : α} (h : Labels c T label workers)
    (hw : workers w = ⟨.won u, is, us, l⟩) :
    Labels c T (Function.update label u c.next)
      (Function.update workers w ⟨.scan, is, us, l ++ [u]⟩) := by
  have hmem : ∀ j v, v ∈ (Function.update workers w ⟨.scan, is, us, l ++ [u]⟩ j).found ↔
      v ∈ (workers j).found ∨ j = w ∧ v = u := by
    intro j v
    by_cases hjw : j = w
    · subst hjw
      rw [Function.update_self, hw]
      simp
    · rw [Function.update_of_ne hjw]
      simp [hjw]
  constructor
  · intro j v hv
    by_cases hvu : v = u
    · rw [hvu, Function.update_self]
    · rw [Function.update_of_ne hvu]
      exact h.new j v (((hmem j v).mp hv).resolve_right fun hv => hvu hv.2)
  · intro v hv
    have hvu : v ≠ u := fun hvu => hv w ((hmem w v).mpr (.inr ⟨rfl, hvu⟩))
    rw [Function.update_of_ne hvu]
    exact h.old v fun j hj => hv j ((hmem j v).mpr (.inl hj))

/-- **Each step** keeps the invariant. -/
theorem Step.inv (hstable : Stable c T shares) (h : Inv c T shares s) (hs : Step c s s') :
    Inv c T shares s' := by
  cases hs with
  | @pick w i is l hw =>
    have hok := h.claims.ok w
    rw [hw] at hok
    have hends : c.ends s.toTables i = c.ends T i :=
      h.ends_eq hstable (hok.left i List.mem_cons_self)
    refine ⟨h.claims.move ?_ (by rw [hw]; rfl), h.labels.move (by rw [hw]),
      h.slots.move (by rw [hw]; rfl) (by rw [hw]; simp) nofun⟩
    rw [hends]
    exact hok.pick
  | @skip w is u us l hw hu =>
    have hok := h.claims.ok w
    rw [hw] at hok
    exact ⟨h.claims.move (hok.skip hu) (by rw [hw]; rfl), h.labels.move (by rw [hw]),
      h.slots.move (by rw [hw]; rfl) (by rw [hw]; simp) nofun⟩
  | @test w is u us l hw hu =>
    have hok := h.claims.ok w
    rw [hw] at hok
    exact ⟨h.claims.move hok.test (by rw [hw]; rfl), h.labels.move (by rw [hw]),
      h.slots.move (by rw [hw]; rfl) (by rw [hw]; simp) nofun⟩
  | @lose w is u us l hw hu =>
    have hok := h.claims.ok w
    rw [hw] at hok
    exact ⟨h.claims.move (hok.claimed hu (.inl rfl)) (by rw [hw]; rfl), h.labels.move (by rw [hw]),
      h.slots.move (by rw [hw]; rfl) (by rw [hw]; simp) nofun⟩
  | @win w is u us l hw hu =>
    exact ⟨h.claims.win hw hu, h.labels.move (by rw [hw]),
      h.slots.move (by rw [hw]; rfl) (by rw [hw]; simp) nofun⟩
  | @push w is u us l hw =>
    have hok := h.claims.ok w
    rw [hw] at hok
    exact ⟨h.claims.move (hok.advance nofun nofun (absurd rfl)) (by rw [hw]; rfl), h.labels.push hw,
      h.slots.move (by rw [hw]; rfl) (by rw [hw]; exact absurd rfl) nofun⟩
  | @reserve w l hw =>
    have hok := h.claims.ok w
    rw [hw] at hok
    have hclaim : ∀ v, c.reserved s.count l ≠ .claim v := by
      rcases c.reserved_eq s.count l with h | h <;> rw [h] <;> exact nofun
    exact ⟨h.claims.move (hok.advance nofun hclaim fun _ => ⟨rfl, rfl⟩)
      (by rw [hw]; exact Scan.claimed_reserved), h.labels.move (by rw [hw]), h.slots.reserve hw⟩
  | @copy w k is us l hw =>
    have hok := h.claims.ok w
    rw [hw] at hok
    exact ⟨h.claims.move (hok.advance nofun nofun fun _ => hok.finished nofun) (by rw [hw]; rfl),
      h.labels.move (by rw [hw]), h.slots.copy hw⟩

end Preservation

/-! ## Runs -/

section Runs

variable {c : Scan α ι β} {T : Tables α β} {shares : τ → List ι} {s s' : Level α ι β τ} {w w' : τ}
  {x : Worker α ι}

theorem Inv.start (hcount : T.count = 0) : Inv c T shares (Level.start T shares) where
  claims := by
    refine ⟨fun w => ⟨fun i hi => hi, fun u hu => ?_, fun i hi => .inl hi, absurd rfl⟩, fun u => ?_,
      nofun, fun w => List.nodup_nil, fun w w' _ u hu => absurd hu List.not_mem_nil⟩
    · rcases hu with hu | hu
      · exact absurd hu List.not_mem_nil
      · exact absurd hu nofun
    · exact ⟨.inl, fun h => h.resolve_right fun ⟨w, hw⟩ => absurd hw List.not_mem_nil⟩
  labels := ⟨nofun, fun u _ => rfl⟩
  slots := by
    refine ⟨fun p _ => rfl, ?_⟩
    change Reserved c.base T.queue T.count _ _ _
    rw [hcount]
    exact .start

/-- The slots of a worker are in use, and those of another worker are others. -/
theorem Inv.disjoint (h : Inv c T shares s) {a : ℕ} (ha : (s.workers w).slot = some a) :
    a + (s.workers w).found.length ≤ s.count ∧ ∀ w' ≠ w, ∀ b, (s.workers w').slot = some b →
      a + (s.workers w).found.length ≤ b ∨ b + (s.workers w').found.length ≤ a :=
  h.slots.reserved.disjoint ha

/-- The lists of the workers in `order` have distinct nodes. -/
theorem Claims.nodup_flatMap {visited : α → Bool} {workers : τ → Worker α ι}
    (h : Claims c T shares visited workers) {order : List τ} (horder : order.Nodup) :
    (order.flatMap fun w => (workers w).found).Nodup := by
  refine List.nodup_flatMap.mpr ⟨fun w _ => ?_, horder.imp fun {w w'} hne u hu hu' => ?_⟩
  · have hnodup := h.nodup w
    rw [Worker.claimed] at hnodup
    split at hnodup
    · exact hnodup.of_append_left
    · exact hnodup
  · exact h.disjoint w w' hne (Worker.mem_claimed_of_found hu) (Worker.mem_claimed_of_found hu')

/-- **The counter** is the number of distinct new nodes in the lists of the workers that made their
reservations. -/
theorem Inv.exists_queued (h : Inv c T shares s) :
    ∃ l : List α, l.Nodup ∧ (∀ u ∈ l, ¬T.visited u ∧ Reached c T shares u) ∧
      s.count = l.length := by
  obtain ⟨order, hnodup, -, hcount, -⟩ := h.slots.reserved.exists_window
  refine ⟨order.flatMap fun w => (s.workers w).found, h.claims.nodup_flatMap hnodup, ?_, hcount⟩
  intro u hu
  obtain ⟨w, -, hw⟩ := List.mem_flatMap.mp hu
  exact h.claims.new w u (Worker.mem_claimed_of_found hw)

/-- **At the end** the level is expanded. -/
theorem Inv.expanded (h : Inv c T shares s) (hdone : ∀ w, ∃ k, (s.workers w).stage = .done k) :
    Expanded c (Reached c T shares) T s.toTables := by
  have hslot : ∀ w, (s.workers w).slot ≠ none := fun w => by
    obtain ⟨k, hk⟩ := hdone w
    simp [Worker.slot, hk]
  have hclaimed : ∀ w, (s.workers w).claimed = (s.workers w).found := fun w => by
    obtain ⟨k, hk⟩ := hdone w
    rw [Worker.claimed, hk]
  have hreached : ∀ u, Reached c T shares u → s.visited u := by
    rintro u ⟨w, i, hi, hu⟩
    obtain ⟨hleft, htargets⟩ := (h.claims.ok w).finished (hslot w)
    obtain ⟨k, hk⟩ := hdone w
    rcases (h.claims.ok w).covered i hi with hmem | hends
    · rw [hleft] at hmem
      exact absurd hmem List.not_mem_nil
    · refine (hends u hu).resolve_right fun hp => ?_
      rw [Worker.Pending, htargets, hk] at hp
      rcases hp with hp | hp
      · exact absurd hp List.not_mem_nil
      · exact absurd hp nofun
  -- the new nodes are those in the lists
  have hnew : ∀ u, (∃ w, u ∈ (s.workers w).found) ↔ ¬T.visited u ∧ Reached c T shares u := by
    intro u
    constructor
    · rintro ⟨w, hw⟩
      exact h.claims.new w u (by rwa [hclaimed])
    · rintro ⟨hold, hu⟩
      obtain ⟨w, hw⟩ := ((h.claims.visited u).mp (hreached u hu)).resolve_left hold
      exact ⟨w, by rwa [hclaimed] at hw⟩
  obtain ⟨order, hnodup, hmem, hcount, hwindow⟩ := h.slots.reserved.exists_window
  have hall : ∀ w, w ∈ order := fun w => (hmem w).mpr (hslot w)
  refine ⟨fun u => ⟨fun hu => ?_, fun hu => ?_⟩, fun u hold hu => ?_, fun u hu => ?_, h.slots.old,
    order.flatMap fun w => (s.workers w).found, h.claims.nodup_flatMap hnodup, fun u => ?_, hcount,
    fun hqueued => hwindow fun w _ => ⟨hqueued, hdone w⟩⟩
  · rcases (h.claims.visited u).mp hu with hold | ⟨w, hw⟩
    · exact .inl hold
    · exact .inr (h.claims.new w u hw).2
  · rcases hu with hold | hu
    · exact (h.claims.visited u).mpr (.inl hold)
    · exact hreached u hu
  · obtain ⟨w, hw⟩ := (hnew u).mpr ⟨hold, hu⟩
    exact h.labels.new w u hw
  · refine h.labels.old u fun w hw => ?_
    obtain ⟨hold, hr⟩ := (hnew u).mp ⟨w, hw⟩
    exact hu.elim hold fun hnot => hnot hr
  · rw [← hnew u, List.mem_flatMap]
    exact exists_congr fun w => and_iff_right (hall w)

/-- The steps that are left at a stage of an edge, or after the edges. -/
def Stage.weight : Stage α → ℕ
  | .scan => 2
  | .claim _ => 4
  | .won _ => 3
  | .copy _ => 1
  | .done _ => 0

/-- A bound of the steps of a worker. -/
def Worker.weight (c : Scan α ι β) (T : Tables α β) (x : Worker α ι) : ℕ :=
  (x.iterations.map fun i => 1 + 3 * (c.ends T i).length).sum + 3 * x.targets.length +
    x.stage.weight

variable [DecidableEq α] [DecidableEq τ]

/-- A worker that is not at the end has a step. -/
theorem exists_step (hw : ∀ k, (s.workers w).stage ≠ .done k) : ∃ s', Step c s s' := by
  rcases hx : s.workers w with ⟨stage, is, us, l⟩
  rw [hx] at hw
  cases stage with
  | scan =>
    cases us with
    | nil =>
      cases is with
      | nil => exact ⟨_, .reserve hx⟩
      | cons i is => exact ⟨_, .pick hx⟩
    | cons u us =>
      by_cases hu : s.visited u
      · exact ⟨_, .skip hx hu⟩
      · exact ⟨_, .test hx hu⟩
  | claim u =>
    by_cases hu : s.visited u
    · exact ⟨_, .lose hx hu⟩
    · exact ⟨_, .win hx hu⟩
  | won u => exact ⟨_, .push hx⟩
  | copy k => exact ⟨_, .copy hx⟩
  | done k => exact absurd rfl (hw k)

variable [Fintype τ]

/-- Each step lowers the bound. -/
theorem Step.weight_lt (hstable : Stable c T shares) (h : Inv c T shares s) (hs : Step c s s') :
    ∑ w, (s'.workers w).weight c T < ∑ w, (s.workers w).weight c T := by
  cases hs with
  | @pick w i is l hw =>
    have hok := h.claims.ok w
    rw [hw] at hok
    refine sum_update_lt ?_
    rw [hw, h.ends_eq hstable (hok.left i List.mem_cons_self)]
    simp only [Worker.weight, Stage.weight, List.map_cons, List.sum_cons, List.length_nil]
    omega
  | @skip w is u us l hw =>
    refine sum_update_lt ?_
    rw [hw]
    simp only [Worker.weight, Stage.weight, List.length_cons]
    omega
  | @test w is u us l hw =>
    refine sum_update_lt ?_
    rw [hw]
    simp only [Worker.weight, Stage.weight, List.length_cons]
    omega
  | @reserve w l hw =>
    refine sum_update_lt ?_
    rw [hw]
    rcases c.reserved_eq s.count l with h | h <;> simp [Worker.weight, Stage.weight, h]
  | lose hw | win hw | push hw | copy hw =>
    refine sum_update_lt ?_
    rw [hw]
    simp [Worker.weight, Stage.weight]

/-- **Every run of the workers ends**, and has expanded the level, whatever the order of their steps
and however they share the iterations out. -/
theorem endsIn_expanded (hstable : Stable c T shares) (hcount : T.count = 0) :
    EndsIn (Step c) (fun s => Inv c T shares s ∧ Expanded c (Reached c T shares) T s.toTables)
      (Level.start T shares) := by
  refine endsIn_of_invariant (fun s : Level α ι β τ => ∑ w, (s.workers w).weight c T)
    (fun s s' h hs => ⟨hs.inv hstable h, hs.weight_lt hstable h⟩) (fun s h hfinal => ⟨h, ?_⟩)
    (Inv.start hcount)
  refine h.expanded fun w => ?_
  by_contra hw
  push Not at hw
  obtain ⟨s', hs'⟩ := exists_step (c := c) hw
  exact hfinal s' hs'

end Runs

/-! ## One visit after the other -/

section Sequential

variable [DecidableEq α] {c : Scan α ι β} {R R' : α → Prop} {T T' : Tables α β} {u : α}

/-- A visit of one worker alone, which appends a new node to the queue at once. -/
def Tables.visit (c : Scan α ι β) (T : Tables α β) (u : α) : Tables α β :=
  if T.visited u then T
  else
    ⟨Function.update T.visited u true, Function.update T.label u c.next,
      Function.update T.queue (c.base + T.count) u, T.count + 1⟩

omit [DecidableEq α] in
theorem Expanded.refl (hcount : T.count = 0) : Expanded c (fun _ => False) T T where
  visited u := (or_iff_left id).symm
  label_new _ _ h := h.elim
  label_old _ _ := rfl
  queue _ _ := rfl
  found := ⟨[], List.nodup_nil, fun u => by simp, hcount, fun _ => by rw [hcount]; rfl⟩

omit [DecidableEq α] in
/-- Only the nodes without a mark count. -/
theorem Expanded.congr (h : Expanded c R T T') (heq : ∀ u, ¬T.visited u → (R u ↔ R' u)) :
    Expanded c R' T T' := by
  obtain ⟨l, hnodup, hmem, hcount, hseg⟩ := h.found
  refine ⟨fun u => ?_, fun u hu hr => h.label_new u hu ((heq u hu).mpr hr), fun u hu => ?_, h.queue,
    l, hnodup, fun u => ?_, hcount, hseg⟩
  · rw [h.visited]
    by_cases hu : T.visited u
    · simp [hu]
    · rw [heq u hu]
  · refine h.label_old u ?_
    by_cases hv : T.visited u
    · exact .inl hv
    · exact hu.imp_right fun hr hR => hr ((heq u hv).mp hR)
  · rw [hmem]
    exact and_congr_right (heq u)

/-- **One more visit**. -/
theorem Expanded.visit (h : Expanded c R T T') (u : α) :
    Expanded c (fun v => R v ∨ v = u) T (T'.visit c u) := by
  rw [Tables.visit]
  split_ifs with hu
  · refine h.congr fun v hv => (or_iff_left_of_imp ?_).symm
    rintro rfl
    exact ((h.visited v).mp hu).resolve_left hv
  · obtain ⟨l, hnodup, hmem, hcount, hseg⟩ := h.found
    have hnot : ¬T.visited u ∧ ¬R u := not_or.mp fun hor => hu ((h.visited u).mpr hor)
    have hul : u ∉ l := fun hul => hnot.2 ((hmem u).mp hul).2
    refine ⟨fun v => ?_, fun v hv hr => ?_, fun v hv => ?_, fun p hp => ?_, l ++ [u], ?_,
      fun v => ?_, ?_, fun hc => ?_⟩
    · by_cases hvu : v = u
      · subst hvu
        simp
      · simp only [Function.update_of_ne hvu, hvu, or_false]
        exact h.visited v
    · by_cases hvu : v = u
      · simp only [hvu, Function.update_self]
      · simp only [Function.update_of_ne hvu]
        exact h.label_new v hv (hr.resolve_right hvu)
    · have hvu : v ≠ u := by
        rintro rfl
        exact hv.elim hnot.1 fun hnr => hnr (.inr rfl)
      simp only [Function.update_of_ne hvu]
      exact h.label_old v (hv.imp_right fun hnr hr => hnr (.inl hr))
    · have hne : p ≠ c.base + T'.count := by omega
      simp only [Function.update_of_ne hne]
      exact h.queue p hp
    · exact List.nodup_append.mpr ⟨hnodup, List.nodup_singleton u, fun a ha b hb hab =>
        hul (List.mem_singleton.mp hb ▸ hab ▸ ha)⟩
    · rw [List.mem_append, hmem, List.mem_singleton]
      constructor
      · rintro (⟨hv, hr⟩ | rfl)
        · exact ⟨hv, .inl hr⟩
        · exact ⟨hnot.1, .inr rfl⟩
      · rintro ⟨hv, hr | rfl⟩
        · exact .inl ⟨hv, hr⟩
        · exact .inr rfl
    · simp [hcount]
    · have hold : window (Function.update T'.queue (c.base + T'.count) u) c.base T'.count = l := by
        rw [← hseg hc]
        refine window_congr fun p _ hp => Function.update_of_ne (by omega) _ _
      rw [window_add, hold]
      simp [window]

/-- One visit after the other. -/
theorem Expanded.foldl (h : Expanded c R T T') (us : List α) :
    Expanded c (fun v => R v ∨ v ∈ us) T (us.foldl (Tables.visit c) T') := by
  induction us generalizing R T' with
  | nil => exact h.congr fun v _ => by simp
  | cons u us ih => exact (ih (h.visit u)).congr fun v _ => by simp [or_assoc]

end Sequential

end Expansion

end Foundation
