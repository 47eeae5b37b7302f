import GfeDriver.Foundation.Loop
import Mathlib.Data.List.Perm.Basic

/-!
# Cursors and circular searches

A cursor has a position, and each of its moves gives an element or none. A search on a list that is
read over and over resumes from the last element it found, and gives up when it meets this element
again. Wherever the list starts, the search sees all of it.

An enumerator is asked for one element after the other, until it answers that there is none.

## Main definitions

* `Gives move p w q`: from the position `p` the cursor gives the elements `w`, and is at `q` then
* `Around move p cur l`: the cursor has just given `cur`, and gives all of `l` before it is back
* `seek move t cur`: the search for `t` that gives up at `cur`
* `countAll next`: the number of elements of an enumerator
* `History next other s₀ s returned`: the elements that an enumerator has given

## Main results

* `Around.seek`: the search ends, finds what is in the list, and is around the list again
* `countAll_eq`: the count, from what one question does
* `History.exists_left`: what was given and what is left, in every history
-/

namespace Foundation

universe u v w

/-! ## Cursors -/

section Cursor

variable {P : Type u} {α : Type v} (move : P → Option α × P)

/-- **The cursor gives the elements** of a list, and is behind the last of them. -/
inductive Gives : P → List α → P → Prop
  | nil (p : P) : Gives p [] p
  | silent {p p' q : P} {x : α} {l : List α} (h : move p = (none, p'))
      (hrest : Gives p' (x :: l) q) : Gives p (x :: l) q
  | give {p p' q : P} {x : α} {l : List α} (h : move p = (some x, p')) (hrest : Gives p' l q) :
    Gives p (x :: l) q

/-- **The cursor is around a list**: it has given `cur`, and before it is at the same position
again, it gives each element of the list, and `cur` last. -/
def Around (p : P) (cur : α) (l : List α) : Prop :=
  ∃ others, Gives move p (others ++ [cur]) p ∧ (others ++ [cur]).Perm l

/-- **The search for `t`**, which gives up when it meets `cur`. -/
def seek [DecidableEq α] (t cur : α) : ℕ → P → Option (Bool × P)
  | 0, _ => none
  | fuel + 1, p =>
    match move p with
    | (none, p') => seek t cur fuel p'
    | (some x, p') =>
      if x = t then some (true, p') else if x = cur then some (false, p') else seek t cur fuel p'

variable {move} {p q r : P} {l l' : List α}

theorem Gives.append (h : Gives move p l q) (h' : Gives move q l' r) :
    Gives move p (l ++ l') r := by
  induction h with
  | nil p => exact h'
  | silent hmove _ ih => exact .silent hmove (ih h')
  | give hmove _ ih => exact .give hmove (ih h')

/-- The position between two parts. -/
theorem Gives.split (h : Gives move p (l ++ l') q) :
    ∃ r, Gives move p l r ∧ Gives move r l' q := by
  generalize hall : l ++ l' = all at h
  induction h generalizing l with
  | nil p =>
    obtain ⟨rfl, rfl⟩ := List.append_eq_nil_iff.mp hall
    exact ⟨p, .nil p, .nil p⟩
  | @silent p p' q x all hmove hrest ih =>
    cases l with
    | nil => exact ⟨p, .nil p, by rw [List.nil_append] at hall; exact hall ▸ .silent hmove hrest⟩
    | cons y l =>
      obtain ⟨r, hl, hl'⟩ := ih hall
      obtain ⟨rfl, -⟩ := List.cons.inj hall
      exact ⟨r, .silent hmove hl, hl'⟩
  | @give p p' q x all hmove hrest ih =>
    cases l with
    | nil => exact ⟨p, .nil p, by rw [List.nil_append] at hall; exact hall ▸ .give hmove hrest⟩
    | cons y l =>
      obtain ⟨rfl, htail⟩ := List.cons.inj hall
      obtain ⟨r, hl, hl'⟩ := ih htail
      exact ⟨r, .give hmove hl, hl'⟩

variable {t cur x : α}

theorem Around.mem (h : Around move p cur l) : cur ∈ l := by
  obtain ⟨others, -, hperm⟩ := h
  exact hperm.subset (List.mem_append_right _ (List.mem_singleton_self cur))

variable [DecidableEq α]

/-- **The search ends** at the first element that is `t` or `cur`. -/
theorem Gives.seek (h : Gives move p (l ++ [x]) q) (ht : t ∉ l) (hcur : cur ∉ l)
    (hx : x = t ∨ x = cur) :
    ∃ k, ∀ fuel, k ≤ fuel → seek move t cur fuel p = some (decide (x = t), q) := by
  generalize hall : l ++ [x] = all at h
  induction h generalizing l with
  | nil p => exact absurd hall (by simp)
  | @silent p p' q y all hmove _ ih =>
    refine enough_succ ?_
    simpa only [Foundation.seek, hmove] using ih ht hcur hall
  | @give p p' q y all hmove hrest ih =>
    cases l with
    | nil =>
      obtain ⟨rfl, rfl⟩ := List.cons.inj hall
      cases hrest
      refine enough_succ ⟨0, fun fuel _ => ?_⟩
      simp only [Foundation.seek, hmove]
      by_cases hxt : x = t
      · rw [if_pos hxt, decide_eq_true hxt]
      · rw [if_neg hxt, if_pos (hx.resolve_left hxt), decide_eq_false hxt]
    | cons z l =>
      obtain ⟨rfl, htail⟩ := List.cons.inj hall
      obtain ⟨htz, ht⟩ := not_or.mp (mt List.mem_cons.mpr ht)
      obtain ⟨hcurz, hcur⟩ := not_or.mp (mt List.mem_cons.mpr hcur)
      refine enough_succ ?_
      simpa only [Foundation.seek, hmove, if_neg (Ne.symm htz), if_neg (Ne.symm hcurz)] using
        ih ht hcur htail

/-- **The circular search** ends, finds what is in the list, and is around the list again, from what
it found. If it found nothing, it is back where it was. -/
theorem Around.seek (h : Around move p cur l) (hl : l.Nodup) (hne : t ≠ cur) :
    ∃ q, Around move q (if t ∈ l then t else cur) l ∧ (t ∉ l → q = p) ∧
      ∃ k, ∀ fuel, k ≤ fuel → seek move t cur fuel p = some (decide (t ∈ l), q) := by
  obtain ⟨others, hgives, hperm⟩ := h
  have hnodup := hperm.nodup_iff.mpr hl
  have hcur : cur ∉ others := fun hmem =>
    (List.nodup_append.mp hnodup).2.2 cur hmem cur (List.mem_singleton_self cur) rfl
  have hmem : t ∈ l ↔ t ∈ others := by
    rw [← hperm.mem_iff, List.mem_append, List.mem_singleton]
    exact or_iff_left hne
  by_cases ht : t ∈ l
  · -- the cursor goes on from `t`, over what was behind it, `cur`, and what was before it
    obtain ⟨before, behind, rfl⟩ := List.append_of_mem (hmem.mp ht)
    have hbefore : t ∉ before ∧ cur ∉ before := by
      have hdisjoint := (List.nodup_append.mp (List.nodup_append.mp hnodup).1).2.2
      exact ⟨fun hx => hdisjoint t hx t List.mem_cons_self rfl,
        fun hx => hcur (List.mem_append_left _ hx)⟩
    have hall : before ++ t :: behind ++ [cur] = (before ++ [t]) ++ (behind ++ [cur]) := by simp
    rw [hall] at hgives hperm
    obtain ⟨q, hto, hfrom⟩ := hgives.split
    have hseek := hto.seek hbefore.1 hbefore.2 (Or.inl rfl)
    rw [if_pos ht, decide_eq_true ht]
    refine ⟨q, ⟨behind ++ [cur] ++ before, ?_, ?_⟩, absurd ht, by simpa using hseek⟩
    · rw [List.append_assoc (behind ++ [cur])]
      exact hfrom.append hto
    · rw [List.append_assoc (behind ++ [cur])]
      exact List.perm_append_comm.trans hperm
  · have hseek := hgives.seek (fun hx => ht (hmem.mpr hx)) hcur (Or.inr rfl)
    rw [if_neg ht, decide_eq_false ht]
    exact ⟨p, ⟨others, hgives, hperm⟩, fun _ => rfl, by simpa [hne.symm] using hseek⟩

end Cursor

/-! ## Enumerators -/

section Enumerator

variable {σ : Type u} {α : Type v}

/-- What is left of an enumeration, when its next element is given. -/
theorem head?_eq_and_tail_eq {x : Option α} {l l' : List α} (h : l = x.toList ++ l')
    (hend : x = none → l' = []) : l.head? = x ∧ l.tail = l' := by
  cases x with
  | none =>
    obtain rfl := hend rfl
    subst h
    exact ⟨rfl, rfl⟩
  | some y =>
    subst h
    exact ⟨rfl, rfl⟩

/-- The number of elements that an enumerator gives before it answers that there is none. -/
def countAll (next : ℕ → σ → Option (Option α × σ)) : ℕ → ℕ → σ → Option ℕ
  | 0, _, _ => none
  | fuel + 1, n, s => (next fuel s).bind fun r =>
    match r.1 with
    | none => some n
    | some _ => countAll next fuel (n + 1) r.2

/-- **The count**, when each question gives the head of what is left. -/
theorem countAll_eq {next : ℕ → σ → Option (Option α × σ)} (R : σ → List α → Prop)
    (hnext : ∀ s l, R s l →
      ∃ s', R s' l.tail ∧ ∃ k, ∀ fuel, k ≤ fuel → next fuel s = some (l.head?, s'))
    {s : σ} {l : List α} (h : R s l) (n : ℕ) :
    ∃ k, ∀ fuel, k ≤ fuel → countAll next fuel n s = some (n + l.length) := by
  induction l generalizing s n with
  | nil =>
    obtain ⟨s', -, k, hk⟩ := hnext s [] h
    refine enough_succ ⟨k, fun fuel hfuel => ?_⟩
    rw [countAll, hk fuel hfuel]
    rfl
  | cons x l ih =>
    obtain ⟨s', hs', k, hk⟩ := hnext s (x :: l) h
    obtain ⟨k', hk'⟩ := ih hs' (n + 1)
    refine enough_succ ⟨max k k', fun fuel hfuel => ?_⟩
    rw [countAll, hk fuel (le_of_max_le_left hfuel), List.length_cons, Nat.add_comm l.length,
      ← Nat.add_assoc]
    exact hk' fuel (le_of_max_le_right hfuel)

/-- **The histories** of an enumerator, with the elements it has given: it was asked, or another
operation changed its state. -/
inductive History (next : ℕ → σ → Option (Option α × σ)) (other : σ → σ → Prop) (s₀ : σ) :
    σ → List α → Prop
  | start : History next other s₀ s₀ []
  | next {s s' : σ} {returned : List α} {x : Option α} (h : History next other s₀ s returned)
      (hnext : ∃ k, ∀ fuel, k ≤ fuel → next fuel s = some (x, s')) :
    History next other s₀ s' (returned ++ x.toList)
  | other {s s' : σ} {returned : List α} (h : History next other s₀ s returned)
      (hother : other s s') : History next other s₀ s' returned

/-- All large enough fuels give one answer. -/
theorem eq_of_enough {f : ℕ → Option σ} {a b : σ} (ha : ∃ k, ∀ fuel, k ≤ fuel → f fuel = some a)
    (hb : ∃ k, ∀ fuel, k ≤ fuel → f fuel = some b) : a = b := by
  obtain ⟨k, hk⟩ := ha
  obtain ⟨k', hk'⟩ := hb
  exact Option.some.inj ((hk _ (le_max_left k k')).symm.trans (hk' _ (le_max_right k k')))

/-- **What was given and what is left** are the elements of the start, in every history. -/
theorem History.exists_left {next : ℕ → σ → Option (Option α × σ)} {other : σ → σ → Prop}
    (R : σ → List α → Prop)
    (hnext : ∀ s l, R s l →
      ∃ s', R s' l.tail ∧ ∃ k, ∀ fuel, k ≤ fuel → next fuel s = some (l.head?, s'))
    (hother : ∀ s s' l, R s l → other s s' → R s' l) {s₀ s : σ} {l₀ returned : List α}
    (h₀ : R s₀ l₀) (h : History next other s₀ s returned) : ∃ l, R s l ∧ returned ++ l = l₀ := by
  induction h with
  | start => exact ⟨l₀, h₀, rfl⟩
  | next _ hasked ih =>
    obtain ⟨l, hl, happend⟩ := ih
    obtain ⟨s', hs', hanswer⟩ := hnext _ l hl
    obtain ⟨rfl, rfl⟩ := Prod.mk.inj (eq_of_enough hasked hanswer)
    refine ⟨l.tail, hs', ?_⟩
    cases l with
    | nil => simpa using happend
    | cons x l => rw [← happend, List.append_assoc]; rfl
  | other _ hchanged ih =>
    obtain ⟨l, hl, happend⟩ := ih
    exact ⟨l, hother _ _ l hl hchanged, happend⟩

end Enumerator

end Foundation
