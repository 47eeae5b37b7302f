import GfeDriver.Foundation.Relaxation
import GfeDriver.Foundation.Runs
import Mathlib.Data.Prod.Lex

/-!
# Relaxations with compare-and-swap

Several workers share the entries of a frontier out and relax the edges of their vertices. A worker
reads the label of the end of an edge, then that of its source, and if the sum is less than what it
read, it tries to store the sum with a compare-and-swap. When the label is not the one it read, the
worker reads it again, and gives up if the sum is not less any more. A worker that lowered a label
puts the vertex into its own store. A worker without entries merges its store into a total.

An entry is taken if the label of its vertex passes a test, which the labels that are stored pass
too. The labels are read while others lower them. Still they stay weights of walks, and an edge that
may lower a label is always that of a vertex in a store, or in the hands of a worker. Every run of
the workers ends.

## Main definitions

* `Scan`, `Worker`, `Pass`, `Step`: the workers and their steps
* `Spec`, `Lawful`: what the stores have to provide
* `Inv`: the invariant
* `Relaxed`: the labels and the stores at the end

## Main results

* `Step.inv`: each step keeps the invariant
* `Inv.le_of_walk`: the labels that the test rejects are final
* `endsIn_relaxed`: every run ends, with the edges relaxed
-/

namespace Foundation

namespace CasRelaxation

variable {V M ι σ α τ : Type}

/-! ## The workers -/

/-- An edge, with its source. -/
structure Arc (V M : Type) where
  source : V
  target : V
  weight : M

/-- Where a worker is: at an edge or an entry, after it read the label of the end, before the
compare-and-swap, after one that failed, after one that succeeded, or at the end. -/
inductive Stage (V M : Type)
  | scan
  | load (e : Arc V M) (old : WithTop M)
  | swap (e : Arc V M) (old new : WithTop M)
  | reload (e : Arc V M) (new : WithTop M)
  | push (v : V) (new : WithTop M)
  | done

/-- A worker, with the entries and the edges that are left, and its store. -/
structure Worker (ι V M σ : Type) where
  stage : Stage V M
  entries : List ι
  arcs : List (Arc V M)
  store : σ

/-- The labels, the total, and the workers. -/
structure Pass (ι V M σ α τ : Type) where
  dist : V → WithTop M
  total : α
  workers : τ → Worker ι V M σ

/-- What the workers do: the vertices of the entries, their edges, the test of an entry, how a
vertex is put into a store, and how a store is merged into the total. -/
structure Scan (ι V M σ α : Type) where
  vertex : ι → V
  edges : V → List (V × M)
  takes : WithTop M → Bool
  put : σ → V → WithTop M → σ
  merge : α → σ → α

/-- The edges of an entry, none if the label of its vertex fails the test. -/
def Scan.arcs (c : Scan ι V M σ α) (dist : V → WithTop M) (i : ι) : List (Arc V M) :=
  if c.takes (dist (c.vertex i)) then
    (c.edges (c.vertex i)).map fun e => ⟨c.vertex i, e.1, e.2⟩
  else []

/-- The workers share the entries out. -/
def Pass.start (dist : V → WithTop M) (total : α) (stores : τ → σ) (shares : τ → List ι) :
    Pass ι V M σ α τ :=
  ⟨dist, total, fun w => ⟨.scan, shares w, [], stores w⟩⟩

/-- A worker moves. -/
def Pass.move [DecidableEq τ] (s : Pass ι V M σ α τ) (w : τ) (x : Worker ι V M σ) :
    Pass ι V M σ α τ :=
  { s with workers := Function.update s.workers w x }

/-- **An atomic step** of a worker. -/
inductive Step [DecidableEq V] [DecidableEq τ] [Add M] [LinearOrder M] (c : Scan ι V M σ α) :
    Pass ι V M σ α τ → Pass ι V M σ α τ → Prop
  /-- The next entry: the test reads the label of its vertex. -/
  | pick {s w i is b} : s.workers w = ⟨.scan, i :: is, [], b⟩ →
      Step c s (s.move w ⟨.scan, is, c.arcs s.dist i, b⟩)
  /-- The next edge: the label of its end. -/
  | load {s w is e es b} : s.workers w = ⟨.scan, is, e :: es, b⟩ →
      Step c s (s.move w ⟨.load e (s.dist e.target), is, es, b⟩)
  /-- The label of its source, and the sum is less. -/
  | less {s w is e es b old} : s.workers w = ⟨.load e old, is, es, b⟩ →
      s.dist e.source + (e.weight : WithTop M) < old →
      Step c s (s.move w ⟨.swap e old (s.dist e.source + (e.weight : WithTop M)), is, es, b⟩)
  /-- The label of its source, and the sum is not less. -/
  | skip {s w is e es b old} : s.workers w = ⟨.load e old, is, es, b⟩ →
      ¬s.dist e.source + (e.weight : WithTop M) < old → Step c s (s.move w ⟨.scan, is, es, b⟩)
  /-- The compare-and-swap succeeds. -/
  | win {s w is e es b new} : s.workers w = ⟨.swap e (s.dist e.target) new, is, es, b⟩ →
      Step c s { s.move w ⟨.push e.target new, is, es, b⟩ with
        dist := Function.update s.dist e.target new }
  /-- The compare-and-swap fails. -/
  | fail {s w is e es b old new} : s.workers w = ⟨.swap e old new, is, es, b⟩ →
      s.dist e.target ≠ old → Step c s (s.move w ⟨.reload e new, is, es, b⟩)
  /-- The label is read again, and the sum is not less any more. -/
  | giveUp {s w is e es b new} : s.workers w = ⟨.reload e new, is, es, b⟩ →
      s.dist e.target ≤ new → Step c s (s.move w ⟨.scan, is, es, b⟩)
  /-- The label is read again, and the sum is still less. -/
  | retry {s w is e es b new} : s.workers w = ⟨.reload e new, is, es, b⟩ →
      ¬s.dist e.target ≤ new →
      Step c s (s.move w ⟨.swap e (s.dist e.target) new, is, es, b⟩)
  /-- The vertex is put into the store. -/
  | push {s w is es b v new} : s.workers w = ⟨.push v new, is, es, b⟩ →
      Step c s (s.move w ⟨.scan, is, es, c.put b v new⟩)
  /-- The store is merged into the total. -/
  | finish {s w b} : s.workers w = ⟨.scan, [], [], b⟩ →
      Step c s { s.move w ⟨.done, [], [], b⟩ with total := c.merge s.total b }

/-! ## The specification -/

/-- The root and the vertices of the walks, when a store has a vertex under a label, what is
required of a store, and the labels whose vertices are among the entries. -/
structure Spec (V M σ : Type) where
  root : V
  vertex : V → Prop
  queued : σ → V → WithTop M → Prop
  keeps : σ → Prop
  live : WithTop M → Prop

/-- The edges of the vertices. -/
def Scan.Edge (c : Scan ι V M σ α) (S : Spec V M σ) (u v : V) (w : M) : Prop :=
  S.vertex u ∧ (v, w) ∈ c.edges u

/-- **The requirements** on the test and on the stores. -/
structure Lawful [LE M] (c : Scan ι V M σ α) (S : Spec V M σ) : Prop where
  root : S.vertex S.root
  closed : ∀ u, S.vertex u → ∀ e ∈ c.edges u, S.vertex e.1
  takes_mono : ∀ d d', c.takes d → d ≤ d' → c.takes d'
  takes_of_live : ∀ d, S.live d → c.takes d
  takes_of_queued : ∀ b u d, S.keeps b → S.queued b u d → c.takes d
  queued_put : ∀ b v d, S.queued (c.put b v d) v d
  queued_mono : ∀ b v d u d', S.queued b u d' → S.queued (c.put b v d) u d'
  keeps_put : ∀ b v d, S.keeps b → c.takes d → d ≠ ⊤ → S.keeps (c.put b v d)

/-! ## The invariant -/

section Invariant

variable [AddCommMonoid M] [LinearOrder M] (c : Scan ι V M σ α) (S : Spec V M σ)
  (dist : V → WithTop M)

/-- The edge `e` cannot lower the label of its end. -/
def Arc.Relaxed (dist : V → WithTop M) (e : Arc V M) : Prop :=
  dist e.target ≤ dist e.source + e.weight

/-- An edge that a worker took: its source passed the test. -/
def Scan.Taken (e : Arc V M) : Prop :=
  (e.target, e.weight) ∈ c.edges e.source ∧ c.takes (dist e.source)

/-- What a worker knows between its reads and writes. -/
def Stage.Ok : Stage V M → Prop
  | .scan => True
  | .load e old => c.Taken dist e ∧ dist e.target ≤ old
  | .swap e old new => c.Taken dist e ∧ c.takes new ∧ new < old ∧ dist e.target ≤ old ∧
      ∀ a : M, new = a → Walk (c.Edge S) S.root e.target a
  | .reload e new => c.Taken dist e ∧ c.takes new ∧ new ≠ ⊤ ∧
      ∀ a : M, new = a → Walk (c.Edge S) S.root e.target a
  | .push _ new => c.takes new ∧ new ≠ ⊤
  | .done => True

/-- The state of a worker is consistent with the labels. -/
structure Worker.Ok (x : Worker ι V M σ) : Prop where
  stage : x.stage.Ok c S dist
  arcs : ∀ e ∈ x.arcs, c.Taken dist e
  keeps : S.keeps x.store
  finished : x.stage = .done → x.entries = [] ∧ x.arcs = []

/-- The worker is about to relax the edge `e`, or to put its source into the store. -/
def Stage.Covers (e : Arc V M) : Stage V M → Prop
  | .scan => False
  | .load e' _ => e' = e
  | .swap e' _ new => e' = e ∧ new ≤ dist e.source + e.weight
  | .reload e' new => e' = e ∧ new ≤ dist e.source + e.weight
  | .push v new => v = e.source ∧ new = dist e.source
  | .done => False

/-- The worker will relax the edge `e`, or has its source in the store. -/
def Worker.Covers (x : Worker ι V M σ) (e : Arc V M) : Prop :=
  S.queued x.store e.source (dist e.source) ∨
    (S.live (dist e.source) ∧ ∃ i ∈ x.entries, c.vertex i = e.source) ∨ e ∈ x.arcs ∨
      x.stage.Covers dist e

/-- An edge of a labelled vertex. -/
def Scan.Open (e : Arc V M) : Prop :=
  c.Edge S e.source e.target e.weight ∧ dist e.source ≠ ⊤

/-- **The invariant** of a pass that began with the labels `first`, the stores `stores` and the
total `total`. -/
structure Inv (first : V → WithTop M) (stores : τ → σ) (total : α) (s : Pass ι V M σ α τ) :
    Prop where
  labels : Labels (c.Edge S) S.root s.dist
  le : ∀ v, s.dist v ≤ first v
  ok : ∀ w, (s.workers w).Ok c S s.dist
  covered : ∀ e, c.Open S s.dist e → e.Relaxed s.dist ∨ ∃ w, (s.workers w).Covers c S s.dist e
  merged : ∃ order : List τ, order.Nodup ∧ (∀ w, w ∈ order ↔ (s.workers w).stage = .done) ∧
    s.total = order.foldl (fun a w => c.merge a (s.workers w).store) total
  progress : (s.dist = first ∧ ∀ w, (s.workers w).store = stores w ∧
    ∀ v d, (s.workers w).stage ≠ .push v d) ∨ ∃ v, S.vertex v ∧ s.dist v < first v

/-- **The end of a pass**: the edges of the labelled vertices are relaxed, apart from those of the
vertices in the stores. -/
structure Relaxed (first : V → WithTop M) (stores : τ → σ) (total : α) (s : Pass ι V M σ α τ) :
    Prop where
  labels : Labels (c.Edge S) S.root s.dist
  le : ∀ v, s.dist v ≤ first v
  keeps : ∀ w, S.keeps (s.workers w).store
  covered : ∀ e, c.Open S s.dist e →
    e.Relaxed s.dist ∨ ∃ w, S.queued (s.workers w).store e.source (s.dist e.source)
  merged : ∃ order : List τ, order.Nodup ∧ (∀ w, w ∈ order) ∧
    s.total = order.foldl (fun a w => c.merge a (s.workers w).store) total
  progress : (s.dist = first ∧ ∀ w, (s.workers w).store = stores w) ∨
    ∃ v, S.vertex v ∧ s.dist v < first v

end Invariant

/-! ## The edges of an entry -/

section Taken

variable {c : Scan ι V M σ α} {dist : V → WithTop M} {e : Arc V M} {i : ι}

theorem Scan.taken_of_mem_arcs (he : e ∈ c.arcs dist i) : c.Taken dist e := by
  rw [Scan.arcs] at he
  split_ifs at he with htakes
  · obtain ⟨y, hy, rfl⟩ := List.mem_map.mp he
    exact ⟨hy, htakes⟩
  · exact absurd he List.not_mem_nil

theorem Scan.Taken.mem_arcs (h : c.Taken dist e) (hi : c.vertex i = e.source) :
    e ∈ c.arcs dist i := by
  rw [Scan.arcs, hi, if_pos h.2]
  exact List.mem_map.mpr ⟨_, h.1, rfl⟩

/-- A source that passed the test passes it after a label was lowered to one that does. -/
theorem Scan.Taken.lower [DecidableEq V] {v : V} {d : WithTop M} (h : c.Taken dist e)
    (hd : c.takes d) : c.Taken (Function.update dist v d) e := by
  refine ⟨h.1, ?_⟩
  by_cases hu : e.source = v
  · rw [hu, Function.update_self]
    exact hd
  · rw [Function.update_of_ne hu]
    exact h.2

end Taken

/-! ## A label is lowered -/

section Lower

variable [LinearOrder M] [DecidableEq V] {c : Scan ι V M σ α} {S : Spec V M σ}
  {dist : V → WithTop M} {x : Worker ι V M σ} {e : Arc V M} {v : V} {d : WithTop M}

theorem update_le (hd : d ≤ dist v) (u : V) : Function.update dist v d u ≤ dist u := by
  by_cases hu : u = v
  · subst hu
    rwa [Function.update_self]
  · rw [Function.update_of_ne hu]

variable [AddCommMonoid M]

theorem Stage.Ok.lower {stage : Stage V M} (h : stage.Ok c S dist) (htakes : c.takes d)
    (hd : d ≤ dist v) : stage.Ok c S (Function.update dist v d) := by
  cases stage with
  | scan => trivial
  | load e old => exact ⟨h.1.lower htakes, (update_le hd _).trans h.2⟩
  | swap e old new =>
    obtain ⟨htaken, hnew, hlt, hold, hwalk⟩ := h
    exact ⟨htaken.lower htakes, hnew, hlt, (update_le hd _).trans hold, hwalk⟩
  | reload e new => exact ⟨h.1.lower htakes, h.2⟩
  | push v new => exact h
  | done => trivial

/-- The other workers stay consistent. -/
theorem Worker.Ok.lower (h : x.Ok c S dist) (htakes : c.takes d) (hd : d ≤ dist v) :
    x.Ok c S (Function.update dist v d) :=
  ⟨h.stage.lower htakes hd, fun e he => (h.arcs e he).lower htakes, h.keeps, h.finished⟩

/-- What a worker covers depends on the label of the source only. -/
theorem Worker.Covers.lower (h : x.Covers c S dist e) (he : e.source ≠ v) :
    x.Covers c S (Function.update dist v d) e := by
  have hsource : Function.update dist v d e.source = dist e.source := Function.update_of_ne he _ _
  rw [Worker.Covers, hsource]
  refine h.imp_right (Or.imp_right (Or.imp_right fun hstage => ?_))
  cases hst : x.stage with
  | scan => rwa [hst] at hstage
  | done => rwa [hst] at hstage
  | load e' old => rwa [hst] at hstage
  | swap e' old new =>
    rw [hst] at hstage
    rwa [Stage.Covers, hsource]
  | reload e' new =>
    rw [hst] at hstage
    rwa [Stage.Covers, hsource]
  | push v' new =>
    rw [hst] at hstage
    rwa [Stage.Covers, hsource]

theorem Arc.Relaxed.lower (h : e.Relaxed dist) (he : e.source ≠ v) (hd : d ≤ dist v) :
    e.Relaxed (Function.update dist v d) := by
  rw [Arc.Relaxed, Function.update_of_ne he]
  exact (update_le hd _).trans h

end Lower

/-! ## The labels that the test rejects -/

section Final

variable [AddCommMonoid M] [LinearOrder M] {c : Scan ι V M σ α} {S : Spec V M σ}
  {dist first : V → WithTop M} {stores : τ → σ} {total : α} {s : Pass ι V M σ α τ}
  {x : Worker ι V M σ} {e : Arc V M} {v : V} {a : M}

/-- The ends of walks are vertices. -/
theorem Lawful.vertex_of_walk (hc : Lawful c S) (h : Walk (c.Edge S) S.root v a) :
    S.vertex v := by
  cases h with
  | refl => exact hc.root
  | step _ he => exact hc.closed _ he.1 _ he.2

theorem Lawful.vertex_of_labels (hc : Lawful c S) (h : Labels (c.Edge S) S.root dist)
    (hv : dist v ≠ ⊤) : S.vertex v := by
  obtain ⟨a, ha⟩ := WithTop.ne_top_iff_exists.mp hv
  exact hc.vertex_of_walk (h.sound v a ha.symm)

/-- **The source of an edge in the hands of a worker**, or in its store, passes the test. -/
theorem Worker.Covers.takes (hc : Lawful c S) (hx : x.Ok c S dist) (h : x.Covers c S dist e) :
    c.takes (dist e.source) := by
  rcases h with hq | ⟨hlive, -⟩ | harc | hstage
  · exact hc.takes_of_queued _ _ _ hx.keeps hq
  · exact hc.takes_of_live _ hlive
  · exact (hx.arcs e harc).2
  · have hok := hx.stage
    cases hst : x.stage with
    | scan =>
      rw [hst] at hstage
      exact hstage.elim
    | done =>
      rw [hst] at hstage
      exact hstage.elim
    | load e' old =>
      rw [hst] at hstage hok
      obtain rfl : e' = e := hstage
      exact hok.1.2
    | swap e' old new =>
      rw [hst] at hstage hok
      obtain ⟨rfl, -⟩ := hstage
      exact hok.1.2
    | reload e' new =>
      rw [hst] at hstage hok
      obtain ⟨rfl, -⟩ := hstage
      exact hok.1.2
    | push v new =>
      rw [hst] at hstage hok
      obtain ⟨-, rfl⟩ := hstage
      exact hok.1

/-- **The labels that the test rejects** are final, if the sources of the edges that are not relaxed
pass it. -/
theorem le_of_walk [CanonicallyOrderedAdd M] [IsOrderedAddMonoid M]
    (hmono : ∀ d d', c.takes d → d ≤ d' → c.takes d') (hroot : dist S.root = 0)
    (hopen : ∀ e, c.Open S dist e → e.Relaxed dist ∨ c.takes (dist e.source))
    (h : Walk (c.Edge S) S.root v a) (ha : ¬c.takes a) : dist v ≤ a := by
  induction h with
  | refl => exact hroot.le
  | @step u v a w _ he ih =>
    have hlow : ¬c.takes a := fun htakes =>
      ha (hmono _ _ htakes (WithTop.coe_le_coe.mpr le_self_add))
    have hu : dist u ≤ a := ih hlow
    have hfin : dist u ≠ ⊤ := ne_top_of_le_ne_top WithTop.coe_ne_top hu
    have hrelaxed : dist v ≤ dist u + w :=
      (hopen ⟨u, v, w⟩ ⟨he, hfin⟩).resolve_right fun htakes => hlow (hmono _ _ htakes hu)
    calc dist v ≤ dist u + w := hrelaxed
      _ ≤ (a : WithTop M) + w := by gcongr
      _ = ((a + w : M) : WithTop M) := (WithTop.coe_add a w).symm

theorem Inv.le_of_walk [CanonicallyOrderedAdd M] [IsOrderedAddMonoid M] (hc : Lawful c S)
    (hs : Inv c S first stores total s) (h : Walk (c.Edge S) S.root v a) (ha : ¬c.takes a) :
    s.dist v ≤ a := by
  refine CasRelaxation.le_of_walk hc.takes_mono hs.labels.source (fun e he => ?_) h ha
  exact (hs.covered e he).imp_right fun ⟨w, hw⟩ => hw.takes hc (hs.ok w)

end Final

/-! ## Preservation -/

section Preservation

variable [AddCommMonoid M] [LinearOrder M] {c : Scan ι V M σ α} {S : Spec V M σ}
  {dist first : V → WithTop M} {stores : τ → σ} {total : α} {s s' : Pass ι V M σ α τ}
  {stage stage' : Stage V M} {is : List ι} {es : List (Arc V M)} {b : σ} {e : Arc V M} {w : τ}
  {x : Worker ι V M σ}

/-- A step that changes the stage only. -/
theorem Worker.Ok.stage_eq (h : Worker.Ok c S dist ⟨stage, is, es, b⟩)
    (hstage : stage'.Ok c S dist) (hdone : stage' = .done → is = [] ∧ es = []) :
    Worker.Ok c S dist ⟨stage', is, es, b⟩ :=
  ⟨hstage, h.arcs, h.keeps, hdone⟩

theorem Worker.Covers.stage_eq (h : Worker.Covers c S dist ⟨stage, is, es, b⟩ e)
    (hstage : stage.Covers dist e → e.Relaxed dist ∨ stage'.Covers dist e) :
    e.Relaxed dist ∨ Worker.Covers c S dist ⟨stage', is, es, b⟩ e := by
  rcases h with hq | hentry | harc | hcovers
  · exact .inr (.inl hq)
  · exact .inr (.inr (.inl hentry))
  · exact .inr (.inr (.inr (.inl harc)))
  · exact (hstage hcovers).imp_right fun h => .inr (.inr (.inr h))

variable [DecidableEq τ]

/-- The workers that are at the end, when one that is not makes a step. -/
theorem merged_update {workers : τ → Worker ι V M σ} {m : α} (hw : (workers w).stage ≠ .done)
    (hx : x.stage ≠ .done)
    (h : ∃ order : List τ, order.Nodup ∧ (∀ j, j ∈ order ↔ (workers j).stage = .done) ∧
      m = order.foldl (fun a j => c.merge a (workers j).store) total) :
    ∃ order : List τ, order.Nodup ∧
      (∀ j, j ∈ order ↔ (Function.update workers w x j).stage = .done) ∧
      m = order.foldl (fun a j => c.merge a (Function.update workers w x j).store) total := by
  obtain ⟨order, hnodup, hmem, htotal⟩ := h
  have hne : ∀ j ∈ order, j ≠ w := by
    rintro j hj rfl
    exact hw ((hmem j).mp hj)
  refine ⟨order, hnodup, fun j => ?_, ?_⟩
  · by_cases hj : j = w
    · subst hj
      rw [Function.update_self]
      exact iff_of_false (fun hmemj => hne j hmemj rfl) hx
    · rw [Function.update_of_ne hj]
      exact hmem j
  · rw [htotal]
    refine List.foldl_ext _ _ _ fun a j hj => ?_
    rw [Function.update_of_ne (hne j hj)]

/-- **A step that changes no label**, before the worker is at the end. -/
theorem Inv.move (h : Inv c S first stores total s) (hw : (s.workers w).stage ≠ .done)
    (hdone : x.stage ≠ .done) (hok : x.Ok c S s.dist)
    (hcovers : ∀ e, c.Open S s.dist e → (s.workers w).Covers c S s.dist e →
      e.Relaxed s.dist ∨ x.Covers c S s.dist e)
    (hsame : (∀ v d, (s.workers w).stage ≠ .push v d) →
      x.store = (s.workers w).store ∧ ∀ v d, x.stage ≠ .push v d) :
    Inv c S first stores total (s.move w x) where
  labels := h.labels
  le := h.le
  ok := by
    change ∀ j, (Function.update s.workers w x j).Ok c S s.dist
    rw [Function.forall_update_iff s.workers fun _ y => y.Ok c S s.dist]
    exact ⟨hok, fun j _ => h.ok j⟩
  covered e he := by
    rcases h.covered e he with hrelaxed | ⟨j, hj⟩
    · exact .inl hrelaxed
    · by_cases hjw : j = w
      · subst hjw
        refine (hcovers e he hj).imp_right fun hx => ⟨j, ?_⟩
        change (Function.update s.workers j x j).Covers c S s.dist e
        rwa [Function.update_self]
      · refine .inr ⟨j, ?_⟩
        change (Function.update s.workers w x j).Covers c S s.dist e
        rwa [Function.update_of_ne hjw]
  merged := merged_update hw hdone h.merged
  progress := by
    refine h.progress.imp_left fun ⟨hdist, hstores⟩ => ⟨hdist, ?_⟩
    change ∀ j, (Function.update s.workers w x j).store = stores j ∧
      ∀ v d, (Function.update s.workers w x j).stage ≠ .push v d
    rw [Function.forall_update_iff s.workers fun j y =>
      y.store = stores j ∧ ∀ v d, y.stage ≠ .push v d]
    obtain ⟨hstore, hpush⟩ := hsame (hstores w).2
    exact ⟨⟨hstore.trans (hstores w).1, hpush⟩, fun j _ => hstores j⟩

/-- **A worker comes to the end.** -/
theorem Inv.finish (h : Inv c S first stores total s) (hw : s.workers w = ⟨.scan, [], [], b⟩) :
    Inv c S first stores total
      { s.move w ⟨.done, [], [], b⟩ with total := c.merge s.total b } where
  labels := h.labels
  le := h.le
  ok := by
    have hok := h.ok w
    rw [hw] at hok
    change ∀ j, (Function.update s.workers w _ j).Ok c S s.dist
    rw [Function.forall_update_iff s.workers fun _ y => y.Ok c S s.dist]
    exact ⟨hok.stage_eq trivial fun _ => ⟨rfl, rfl⟩, fun j _ => h.ok j⟩
  covered e he := by
    refine (h.covered e he).imp_right fun ⟨j, hj⟩ => ⟨j, ?_⟩
    change (Function.update s.workers w _ j).Covers c S s.dist e
    by_cases hjw : j = w
    · subst hjw
      rw [Function.update_self]
      rw [hw] at hj
      exact hj
    · rwa [Function.update_of_ne hjw]
  merged := by
    obtain ⟨order, hnodup, hmem, htotal⟩ := h.merged
    have hfresh : w ∉ order := by
      rw [hmem, hw]
      exact nofun
    have hne : ∀ j ∈ order, j ≠ w := fun j hj hjw => hfresh (hjw ▸ hj)
    refine ⟨order ++ [w], ?_, fun j => ?_, ?_⟩
    · exact List.nodup_append.mpr ⟨hnodup, List.nodup_singleton w, fun a ha b hb hab =>
        hne a ha (hab.trans (List.mem_singleton.mp hb))⟩
    · change j ∈ order ++ [w] ↔ (Function.update s.workers w _ j).stage = .done
      by_cases hjw : j = w
      · subst hjw
        simp
      · rw [Function.update_of_ne hjw, ← hmem]
        simp [hjw]
    · change c.merge s.total b = (order ++ [w]).foldl
        (fun a j => c.merge a (Function.update s.workers w _ j).store) total
      rw [List.foldl_append, List.foldl_cons, List.foldl_nil, Function.update_self, htotal]
      refine congrArg (c.merge · b) (List.foldl_ext _ _ _ fun a j hj => ?_)
      rw [Function.update_of_ne (hne j hj)]
  progress := by
    refine h.progress.imp_left fun ⟨hdist, hstores⟩ => ⟨hdist, ?_⟩
    have hstore := (hstores w).1
    rw [hw] at hstore
    change ∀ j, (Function.update s.workers w _ j).store = stores j ∧
      ∀ v d, (Function.update s.workers w _ j).stage ≠ .push v d
    rw [Function.forall_update_iff s.workers fun j y =>
      y.store = stores j ∧ ∀ v d, y.stage ≠ .push v d]
    exact ⟨⟨hstore, nofun⟩, fun j _ => hstores j⟩

variable [DecidableEq V] [CanonicallyOrderedAdd M]

/-- **A compare-and-swap that succeeds** lowers the label to the weight of a walk. The edges of the
vertex are covered, since the vertex is about to enter the store. -/
theorem Inv.win (hc : Lawful c S) (h : Inv c S first stores total s) {new : WithTop M}
    (hw : s.workers w = ⟨.swap e (s.dist e.target) new, is, es, b⟩) :
    Inv c S first stores total { s.move w ⟨.push e.target new, is, es, b⟩ with
      dist := Function.update s.dist e.target new } := by
  have hok := h.ok w
  rw [hw] at hok
  obtain ⟨-, htakes, hlt, -, hwalk⟩ := hok.stage
  refine ⟨h.labels.improve hwalk hlt, fun v => (update_le hlt.le v).trans (h.le v), ?_,
    fun e' he' => ?_, merged_update (by rw [hw]; exact nofun) nofun h.merged, .inr ?_⟩
  · change ∀ j, (Function.update s.workers w _ j).Ok c S (Function.update s.dist e.target new)
    rw [Function.forall_update_iff s.workers fun _ y =>
      y.Ok c S (Function.update s.dist e.target new)]
    refine ⟨?_, fun j _ => (h.ok j).lower htakes hlt.le⟩
    exact (hok.lower htakes hlt.le).stage_eq ⟨htakes, ne_top_of_lt hlt⟩ nofun
  · change e'.Relaxed (Function.update s.dist e.target new) ∨ ∃ j,
      (Function.update s.workers w _ j).Covers c S (Function.update s.dist e.target new) e'
    by_cases hsource : e'.source = e.target
    · refine .inr ⟨w, ?_⟩
      rw [Function.update_self]
      refine .inr (.inr (.inr ⟨hsource.symm, ?_⟩))
      rw [hsource, Function.update_self]
    · have hopen : c.Open S s.dist e' := by
        refine ⟨he'.1, ?_⟩
        have hfin := he'.2
        change Function.update s.dist e.target new e'.source ≠ ⊤ at hfin
        rwa [Function.update_of_ne hsource] at hfin
      rcases h.covered e' hopen with hrelaxed | ⟨j, hj⟩
      · exact .inl (hrelaxed.lower hsource hlt.le)
      · by_cases hjw : j = w
        · subst hjw
          rw [hw] at hj
          -- the edge that was relaxed, or one that is still covered
          have hcovers : e'.Relaxed (Function.update s.dist e.target new) ∨ Worker.Covers c S
              (Function.update s.dist e.target new) ⟨.push e.target new, is, es, b⟩ e' := by
            refine (hj.lower hsource).stage_eq fun hstage => .inl ?_
            obtain ⟨rfl, hle⟩ := hstage
            rwa [Arc.Relaxed, Function.update_self]
          refine hcovers.imp_right fun hx => ⟨j, ?_⟩
          rwa [Function.update_self]
        · refine .inr ⟨j, ?_⟩
          rw [Function.update_of_ne hjw]
          exact hj.lower hsource
  · obtain ⟨a, ha⟩ := WithTop.ne_top_iff_exists.mp (ne_top_of_lt hlt)
    refine ⟨e.target, hc.vertex_of_walk (hwalk a ha.symm), ?_⟩
    change Function.update s.dist e.target new e.target < first e.target
    rw [Function.update_self]
    exact hlt.trans_le (h.le _)

end Preservation

end CasRelaxation

end Foundation
