import Mathlib.Data.List.Basic
import Mathlib.Data.List.Forall2
import Mathlib.Logic.Function.Basic
import Mathlib.Tactic

/-!
# Interleavings of a partitioned log

The entries of a log are divided among parties, and each party issues one call for each entry it
owns, in the order of the log. Nothing is known of the order of the calls of different parties: a
trace interleaves the log when its calls by each party match the entries that this party owns.

Such a trace issues every entry once, and the entries of one party in the order of the log. If the
entries that touch one key of a store have one owner, then a replay of the entries in the order in
which they were issued leaves the store as a replay of the log does.

## Main definitions

* `callsBy trace i`: the calls of the party `i`
* `Interleaves owner R log trace`: the trace interleaves the log
* `Reorders owner log order`: a rearrangement that keeps the order of the entries of each party
* `keyedStep key upd`: an update of one key of a store

## Main results

* `Interleaves.exists_reorders`: a trace issues a rearrangement of the log
* `foldl_keyedStep`: the value of a key after a replay
* `Reorders.foldl_keyedStep_eq`: a rearrangement leaves the store as the log does
-/

namespace Foundation

universe u v w

variable {ι : Type u} {α : Type v} {β : Type w} [DecidableEq ι]

/-- An element of the second list has a partner in the first one. -/
theorem exists_of_forall₂_right {α β : Type*} {R : α → β → Prop} {l : List α} {l' : List β}
    (h : List.Forall₂ R l l') {b : β} (hb : b ∈ l') : ∃ a ∈ l, R a b := by
  induction h with
  | nil => simp at hb
  | @cons x y l l' hxy _ ih =>
    rcases List.mem_cons.mp hb with rfl | hb
    · exact ⟨x, List.mem_cons_self, hxy⟩
    · obtain ⟨a, ha, hab⟩ := ih hb
      exact ⟨a, List.mem_cons_of_mem x ha, hab⟩

/-! ## Traces -/

/-- The calls of the party `i` in a trace. -/
def callsBy (trace : List (ι × β)) (i : ι) : List β :=
  (trace.filter fun c => c.1 = i).map Prod.snd

@[simp] theorem callsBy_nil (i : ι) : callsBy ([] : List (ι × β)) i = [] := rfl

theorem callsBy_cons_self (i : ι) (c : β) (trace : List (ι × β)) :
    callsBy ((i, c) :: trace) i = c :: callsBy trace i := by
  simp [callsBy]

theorem callsBy_cons_ne {i j : ι} (h : i ≠ j) (c : β) (trace : List (ι × β)) :
    callsBy ((i, c) :: trace) j = callsBy trace j := by
  simp [callsBy, h]

theorem callsBy_append (trace trace' : List (ι × β)) (i : ι) :
    callsBy (trace ++ trace') i = callsBy trace i ++ callsBy trace' i := by
  simp [callsBy]

/-- **A trace interleaves a log** when the calls of each party match the entries it owns. -/
def Interleaves (owner : α → ι) (R : α → β → Prop) (log : List α) (trace : List (ι × β)) : Prop :=
  ∀ i, List.Forall₂ R (log.filter fun x => owner x = i) (callsBy trace i)

/-- **A rearrangement of a log** that keeps the order of the entries of each party. -/
structure Reorders (owner : α → ι) (log order : List α) : Prop where
  perm : order.Perm log
  filter : ∀ i, (order.filter fun x => owner x = i) = log.filter fun x => owner x = i

namespace Reorders

variable {owner : α → ι} {log order : List α}

/-- Entries of one party stay in the order of the log. -/
theorem pairwise (h : Reorders owner log order) {r : α → α → Prop} (hlog : log.Pairwise r) :
    order.Pairwise fun x y => owner x = owner y → r x y := by
  -- the items of one party are in the order of the log
  have hparty : ∀ i, (order.filter fun x => owner x = i).Pairwise r := fun i => by
    rw [h.filter i]
    exact hlog.filter _
  clear h hlog
  induction order with
  | nil => exact List.Pairwise.nil
  | cons x order ih =>
    refine List.pairwise_cons.mpr ⟨fun y hy hxy => ?_, ih fun i => ?_⟩
    · have hx := hparty (owner x)
      rw [List.filter_cons_of_pos (by simp)] at hx
      exact (List.pairwise_cons.mp hx).1 y (List.mem_filter.mpr ⟨hy, by simp [hxy]⟩)
    · exact (hparty i).sublist ((List.sublist_cons_self x order).filter _)

/-- The entries of a key that has one owner stay in the order of the log. -/
theorem filter_key (h : Reorders owner log order) {κ : Type*} [DecidableEq κ] (key : α → κ)
    (hkey : ∀ x y, key x = key y → owner x = owner y) (k : κ) :
    (order.filter fun x => key x = k) = log.filter fun x => key x = k := by
  -- either no entry has the key, or all of them have the owner of one
  have hsplit : ∀ x, key x = k → ∀ l : List α,
      (l.filter fun y => key y = k) =
        (l.filter fun y => owner y = owner x).filter fun y => key y = k := by
    intro x hx l
    rw [List.filter_filter]
    refine List.filter_congr fun y _ => ?_
    by_cases hy : key y = k
    · simp [hy, hkey y x (hy.trans hx.symm)]
    · simp [hy]
  by_cases hex : ∃ x, key x = k
  · obtain ⟨x, hx⟩ := hex
    rw [hsplit x hx order, hsplit x hx log, h.filter]
  · push Not at hex
    rw [List.filter_eq_nil_iff.mpr (by simpa using fun x _ => hex x),
      List.filter_eq_nil_iff.mpr (by simpa using fun x _ => hex x)]

end Reorders

/-- **A trace that interleaves a log issues a rearrangement of it.** -/
theorem Interleaves.exists_reorders {owner : α → ι} {R : α → β → Prop} {log : List α}
    {trace : List (ι × β)} (h : Interleaves owner R log trace) :
    ∃ order, Reorders owner log order ∧
      List.Forall₂ (fun x c => owner x = c.1 ∧ R x c.2) order trace := by
  -- the first call is the first entry that its party owns: it is moved to the front
  induction trace generalizing log with
  | nil =>
    have hnil : log = [] := by
      refine List.eq_nil_iff_forall_not_mem.mpr fun x hx => ?_
      have hempty := List.forall₂_nil_right_iff.mp (h (owner x))
      exact List.filter_eq_nil_iff.mp hempty x hx (by simp)
    subst hnil
    exact ⟨[], ⟨List.Perm.nil, fun _ => rfl⟩, List.Forall₂.nil⟩
  | cons c trace ih =>
    obtain ⟨i, c⟩ := c
    have hi := h i
    rw [callsBy_cons_self] at hi
    obtain ⟨x, rest, hx, hrest, hfilter⟩ := List.forall₂_cons_right_iff.mp hi
    obtain ⟨l₁, l₂, rfl, hl₁, hown, hl₂⟩ := List.filter_eq_cons_iff.mp hfilter
    have hown' : owner x = i := by simpa using hown
    have hl₁' : (l₁.filter fun y => owner y = i) = [] := List.filter_eq_nil_iff.mpr hl₁
    have hih : Interleaves owner R (l₁ ++ l₂) trace := by
      intro j
      by_cases hij : i = j
      · subst hij
        rw [List.filter_append, hl₁', List.nil_append, hl₂]
        exact hrest
      · have hj := h j
        rw [callsBy_cons_ne hij, List.filter_append, List.filter_cons_of_neg
          (by simpa [hown'] using hij), ← List.filter_append] at hj
        exact hj
    obtain ⟨order, hreorder, hcalls⟩ := ih hih
    refine ⟨x :: order, ⟨?_, fun j => ?_⟩, List.Forall₂.cons ⟨hown', hx⟩ hcalls⟩
    · exact (hreorder.perm.cons x).trans List.perm_middle.symm
    · by_cases hij : owner x = j
      · subst hij
        subst hown'
        rw [List.filter_cons_of_pos (by simp), hreorder.filter, List.filter_append, hl₁',
          List.filter_append, hl₁', List.filter_cons_of_pos (by simp)]
        rfl
      · rw [List.filter_cons_of_neg (by simpa using hij), hreorder.filter, List.filter_append,
          List.filter_append, List.filter_cons_of_neg (by simpa using hij)]

/-- What one party has done is taken from what the parties have to do. -/
theorem perm_flatMap_update {f : ι → List β} {l : List ι} (hl : l.Nodup) {i : ι} (hi : i ∈ l)
    {done rest : List β} (h : f i = done ++ rest) :
    (l.flatMap f).Perm (done ++ l.flatMap (Function.update f i rest)) := by
  obtain ⟨l₁, l₂, rfl⟩ := List.append_of_mem hi
  -- `i` is in the list once, so the other lists do not change
  have hnot : i ∉ l₁ ∧ i ∉ l₂ := by
    obtain ⟨-, hl₂, hdisjoint⟩ := List.nodup_append.mp hl
    exact ⟨fun hc => hdisjoint i hc i List.mem_cons_self rfl, (List.nodup_cons.mp hl₂).1⟩
  have hsame : ∀ l' : List ι, i ∉ l' → l'.flatMap (Function.update f i rest) = l'.flatMap f := by
    intro l' hl'
    refine List.flatMap_congr fun j hj => ?_
    have hne : j ≠ i := by
      rintro rfl
      exact hl' hj
    rw [Function.update_of_ne hne]
  simp only [List.flatMap_append, List.flatMap_cons, hsame l₁ hnot.1, hsame l₂ hnot.2, h,
    Function.update_self, List.append_assoc]
  exact List.perm_append_comm_assoc _ _ _

/-! ## Stores -/

section Store

variable {κ σ : Type*} [DecidableEq κ] (key : α → κ) (upd : α → σ → σ)

/-- An update of one key of a store. -/
def keyedStep (store : κ → σ) (x : α) : κ → σ :=
  Function.update store (key x) (upd x (store (key x)))

/-- **The value of a key** after a replay depends on the updates of this key only. -/
theorem foldl_keyedStep (l : List α) (store : κ → σ) (k : κ) :
    l.foldl (keyedStep key upd) store k =
      (l.filter fun x => key x = k).foldl (fun v x => upd x v) (store k) := by
  induction l generalizing store with
  | nil => rfl
  | cons x l ih =>
    rw [List.foldl_cons, ih]
    by_cases hx : key x = k
    · subst hx
      simp [keyedStep]
    · rw [List.filter_cons_of_neg (by simpa using hx), keyedStep,
        Function.update_of_ne (Ne.symm hx)]

/-- **A rearrangement leaves the store as the log does** when every key has one owner. -/
theorem Reorders.foldl_keyedStep_eq {owner : α → ι} {log order : List α}
    (h : Reorders owner log order) (hkey : ∀ x y, key x = key y → owner x = owner y)
    (store : κ → σ) :
    order.foldl (keyedStep key upd) store = log.foldl (keyedStep key upd) store := by
  funext k
  rw [foldl_keyedStep, foldl_keyedStep, h.filter_key key hkey]

end Store

end Foundation
