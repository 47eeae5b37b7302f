import Mathlib.Data.Finmap
import Mathlib.Data.Sym.Sym2
import Mathlib.Tactic

/-!
# Counting stored edges

A store keeps an undirected edge as two directed ones. The edges of the store are counted as
directed edges, or as unordered pairs.

## Main definitions

* `edgeCount directed E`: the number of edges in a set of directed edges
* `insertEdge directed E a b`, `eraseEdge directed E a b`: an edge is inserted or removed

## Main results

* `edgeCount_insert_pair`, `edgeCount_erase_pair`: an undirected edge is inserted or removed
* `edgeCount_insertEdge`, `edgeCount_eraseEdge`: the number of edges after it
-/

namespace Foundation

universe u

variable {V : Type u} [DecidableEq V]

/-- The number of edges: of directed edges, or of unordered pairs. -/
def edgeCount (directed : Bool) (E : Finset (V × V)) : ℕ :=
  if directed then E.card else (E.image fun e => s(e.1, e.2)).card

variable {E : Finset (V × V)} {a b : V}

/-- The pairs of a symmetric set. -/
theorem mem_image_pairs (hsymm : ∀ x y, (x, y) ∈ E → (y, x) ∈ E) :
    s(a, b) ∈ (E.image fun e => s(e.1, e.2)) ↔ (a, b) ∈ E := by
  rw [Finset.mem_image]
  constructor
  · rintro ⟨⟨x, y⟩, hmem, heq⟩
    rcases Sym2.eq_iff.mp heq with ⟨rfl, rfl⟩ | ⟨rfl, rfl⟩
    · exact hmem
    · exact hsymm _ _ hmem
  · exact fun h => ⟨(a, b), h, rfl⟩

/-- **An undirected edge is inserted.** -/
theorem edgeCount_insert_pair (hsymm : ∀ x y, (x, y) ∈ E → (y, x) ∈ E) (hnew : (a, b) ∉ E) :
    edgeCount false (insert (b, a) (insert (a, b) E)) = edgeCount false E + 1 := by
  have himage : ((insert (b, a) (insert (a, b) E)).image fun e => s(e.1, e.2)) =
      insert s(a, b) (E.image fun e => s(e.1, e.2)) := by
    rw [Finset.image_insert, Finset.image_insert, Sym2.eq_swap, Finset.insert_idem]
  simp only [edgeCount, Bool.false_eq_true, if_false]
  rw [himage, Finset.card_insert_of_notMem (by rwa [mem_image_pairs hsymm])]

/-- **An undirected edge is removed.** -/
theorem edgeCount_erase_pair (hsymm : ∀ x y, (x, y) ∈ E → (y, x) ∈ E) (hmem : (a, b) ∈ E) :
    edgeCount false ((E.erase (a, b)).erase (b, a)) + 1 = edgeCount false E := by
  have himage : (((E.erase (a, b)).erase (b, a)).image fun e => s(e.1, e.2)) =
      (E.image fun e => s(e.1, e.2)).erase s(a, b) := by
    ext p
    induction p using Sym2.ind with
    | _ x y =>
      simp only [Finset.mem_image, Finset.mem_erase, Prod.mk.injEq, ne_eq, Prod.exists]
      constructor
      · rintro ⟨x', y', ⟨hba, hab, hE⟩, heq⟩
        refine ⟨fun h => ?_, x', y', hE, heq⟩
        rcases Sym2.eq_iff.mp (heq.trans h) with ⟨rfl, rfl⟩ | ⟨rfl, rfl⟩
        · exact hab ⟨rfl, rfl⟩
        · exact hba ⟨rfl, rfl⟩
      · rintro ⟨hne, x', y', hE, heq⟩
        refine ⟨x', y', ⟨?_, ?_, hE⟩, heq⟩
        · rintro ⟨rfl, rfl⟩
          exact hne (heq ▸ Sym2.eq_swap)
        · rintro ⟨rfl, rfl⟩
          exact hne heq.symm
  simp only [edgeCount, Bool.false_eq_true, if_false]
  rw [himage, Finset.card_erase_of_mem (by rwa [mem_image_pairs hsymm])]
  have hpos : 0 < (E.image fun e => s(e.1, e.2)).card :=
    Finset.card_pos.mpr ⟨_, (mem_image_pairs hsymm).mpr hmem⟩
  omega

/-- The keys of a finite map after an insertion. -/
theorem keys_insert {α : Type u} {β : α → Type*} [DecidableEq α] (m : Finmap β) (a : α) (b : β a) :
    (m.insert a b).keys = insert a m.keys := by
  ext a'
  rw [Finmap.mem_keys, Finmap.mem_insert, Finset.mem_insert, Finmap.mem_keys]

/-! ## Either kind of graph -/

/-- An edge is inserted, in both directions if the graph is undirected. -/
def insertEdge (directed : Bool) (E : Finset (V × V)) (a b : V) : Finset (V × V) :=
  if directed then insert (a, b) E else insert (b, a) (insert (a, b) E)

/-- An edge is removed, in both directions if the graph is undirected. -/
def eraseEdge (directed : Bool) (E : Finset (V × V)) (a b : V) : Finset (V × V) :=
  if directed then E.erase (a, b) else (E.erase (a, b)).erase (b, a)

variable {directed : Bool}

theorem mem_insertEdge {x y : V} : (x, y) ∈ insertEdge directed E a b ↔
    (x = a ∧ y = b) ∨ (directed = false ∧ x = b ∧ y = a) ∨ (x, y) ∈ E := by
  cases directed with
  | true => simp [insertEdge]
  | false =>
    simp only [insertEdge, Bool.false_eq_true, if_false, Finset.mem_insert, Prod.mk.injEq]
    tauto

theorem mem_eraseEdge {x y : V} : (x, y) ∈ eraseEdge directed E a b ↔
    ¬(x = a ∧ y = b) ∧ ¬(directed = false ∧ x = b ∧ y = a) ∧ (x, y) ∈ E := by
  cases directed with
  | true => simp [eraseEdge]
  | false =>
    simp only [eraseEdge, Bool.false_eq_true, if_false, Finset.mem_erase, ne_eq, Prod.mk.injEq]
    tauto

theorem insertEdge_of_mem (hsymm : directed = false → ∀ x y, (x, y) ∈ E → (y, x) ∈ E)
    (hmem : (a, b) ∈ E) : insertEdge directed E a b = E := by
  ext ⟨x, y⟩
  rw [mem_insertEdge]
  constructor
  · rintro (⟨rfl, rfl⟩ | ⟨hdirected, rfl, rfl⟩ | h)
    · exact hmem
    · exact hsymm hdirected _ _ hmem
    · exact h
  · exact fun h => Or.inr (Or.inr h)

theorem symm_insertEdge (hsymm : ∀ x y, (x, y) ∈ E → (y, x) ∈ E) {x y : V}
    (h : (x, y) ∈ insertEdge false E a b) : (y, x) ∈ insertEdge false E a b := by
  have := hsymm x y
  rw [mem_insertEdge] at h ⊢
  tauto

theorem symm_eraseEdge (hsymm : ∀ x y, (x, y) ∈ E → (y, x) ∈ E) {x y : V}
    (h : (x, y) ∈ eraseEdge false E a b) : (y, x) ∈ eraseEdge false E a b := by
  have := hsymm x y
  rw [mem_eraseEdge] at h ⊢
  tauto

/-- **The number of edges** with a new one. -/
theorem edgeCount_insertEdge (hsymm : directed = false → ∀ x y, (x, y) ∈ E → (y, x) ∈ E)
    (hnew : (a, b) ∉ E) :
    edgeCount directed (insertEdge directed E a b) = edgeCount directed E + 1 := by
  cases directed with
  | true => exact Finset.card_insert_of_notMem hnew
  | false => exact edgeCount_insert_pair (hsymm rfl) hnew

/-- **The number of edges** without one of them. -/
theorem edgeCount_eraseEdge (hsymm : directed = false → ∀ x y, (x, y) ∈ E → (y, x) ∈ E)
    (hmem : (a, b) ∈ E) :
    edgeCount directed (eraseEdge directed E a b) + 1 = edgeCount directed E := by
  cases directed with
  | true => exact Finset.card_erase_add_one hmem
  | false => exact edgeCount_erase_pair (hsymm rfl) hmem

end Foundation
