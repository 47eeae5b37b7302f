import Mathlib.Data.Nat.Digits.Defs
import Mathlib.Data.List.GetD
import Mathlib.Tactic

/-!
# Little-endian bytes and block copies

A machine word is the list of its bytes, least significant first. Copying the `n` low bytes of a
word into an array, and reading them back into a cleared word, keeps the word modulo `256 ^ n`. The
copies are loops that assign one cell at a time.

## Main definitions

* `leBytes n v`: the `n` low bytes of `v`
* `leValue l`: the number with the bytes `l`
* `blockCopy dst dstPos src srcPos n`: copy `n` cells

## Main results

* `leValue_leBytes`: the `n` low bytes keep a number modulo `256 ^ n`
* `getD_blockCopy`: the cells after a copy
-/

namespace Foundation

universe u

/-! ## Words -/

/-- The `n` low bytes of `v`, least significant first. -/
def leBytes (n v : ℕ) : List UInt8 := (List.range n).map fun i => UInt8.ofNat (v / 256 ^ i)

/-- The number with the bytes `l`, least significant first. -/
def leValue (l : List UInt8) : ℕ := Nat.ofDigits 256 (l.map UInt8.toNat)

@[simp] theorem length_leBytes (n v : ℕ) : (leBytes n v).length = n := by
  simp [leBytes]

theorem leValue_append (l l' : List UInt8) :
    leValue (l ++ l') = leValue l + 256 ^ l.length * leValue l' := by
  simp [leValue, Nat.ofDigits_append]

theorem leValue_replicate_zero (n : ℕ) : leValue (List.replicate n 0) = 0 := by
  induction n with
  | zero => rfl
  | succ n ih =>
    rw [List.replicate_succ', leValue_append, ih]
    simp [leValue]

/-- **The low bytes** of a number keep it modulo a power of `256`. -/
theorem leValue_leBytes (n v : ℕ) : leValue (leBytes n v) = v % 256 ^ n := by
  induction n with
  | zero => simp [leBytes, leValue, Nat.mod_one]
  | succ n ih =>
    have hlast : leBytes (n + 1) v = leBytes n v ++ [UInt8.ofNat (v / 256 ^ n)] := by
      simp [leBytes, List.range_succ]
    have hbyte : leValue [UInt8.ofNat (v / 256 ^ n)] = v / 256 ^ n % 256 := by
      simp [leValue]
    rw [hlast, leValue_append, ih, length_leBytes, hbyte, pow_succ, Nat.mod_mul]

theorem leValue_lt (l : List UInt8) : leValue l < 256 ^ l.length := by
  have h := Nat.ofDigits_lt_base_pow_length (b := 256) (l := l.map UInt8.toNat) (by norm_num)
    (fun x hx => by
      obtain ⟨b, -, rfl⟩ := List.mem_map.mp hx
      exact b.toNat_lt)
  simpa [leValue] using h

/-- **The bytes of a number** are read off again. -/
theorem leBytes_leValue (l : List UInt8) : leBytes l.length (leValue l) = l := by
  induction l with
  | nil => rfl
  | cons b l ih =>
    have hvalue : leValue (b :: l) = b.toNat + 256 * leValue l := by
      simp [leValue, Nat.ofDigits_cons]
    have hb : b.toNat < 256 := b.toNat_lt
    -- the first byte is the remainder, and the others are those of the quotient
    have hfirst : UInt8.ofNat (leValue (b :: l)) = b := by
      apply UInt8.toNat_inj.mp
      rw [UInt8.toNat_ofNat', hvalue]
      omega
    have hrest : leValue (b :: l) / 256 = leValue l := by
      rw [hvalue]
      omega
    rw [leBytes, List.length_cons, List.range_succ_eq_map, List.map_cons, List.map_map, pow_zero,
      Nat.div_one, hfirst]
    congr 1
    conv_rhs => rw [← ih, leBytes]
    refine List.map_congr_left fun i _ => ?_
    rw [Function.comp_apply, Nat.succ_eq_add_one, pow_succ', ← Nat.div_div_eq_div_mul, hrest]

theorem leValue_inj {l l' : List UInt8} (hlength : l.length = l'.length) :
    leValue l = leValue l' ↔ l = l' := by
  constructor
  · intro h
    rw [← leBytes_leValue l, h, hlength, leBytes_leValue]
  · exact congrArg leValue

/-! ## Copies -/

section Copy

variable {α : Type u} (z : α)

/-- The loop `dst[dstPos + i] = src[srcPos + i]` for `i < n`; `z` is read outside the source. -/
def blockCopy (dst : List α) (dstPos : ℕ) (src : List α) (srcPos n : ℕ) : List α :=
  (List.range n).foldl (fun dst i => dst.set (dstPos + i) (src.getD (srcPos + i) z)) dst

variable (dst src : List α) (dstPos srcPos : ℕ)

theorem blockCopy_succ (n : ℕ) :
    blockCopy z dst dstPos src srcPos (n + 1) =
      (blockCopy z dst dstPos src srcPos n).set (dstPos + n) (src.getD (srcPos + n) z) := by
  simp [blockCopy, List.range_succ]

@[simp] theorem length_blockCopy (n : ℕ) :
    (blockCopy z dst dstPos src srcPos n).length = dst.length := by
  induction n with
  | zero => rfl
  | succ n ih => rw [blockCopy_succ, List.length_set, ih]

theorem getD_set (l : List α) (i j : ℕ) (x : α) :
    (l.set i x).getD j z = if i = j ∧ j < l.length then x else l.getD j z := by
  simp only [List.getD_eq_getElem?_getD, List.getElem?_set]
  by_cases hij : i = j
  · by_cases hlt : j < l.length
    · simp [hij, hlt]
    · simp [hij, hlt]
  · simp [hij]

/-- **The cells after a copy.** -/
theorem getD_blockCopy (n k : ℕ) :
    (blockCopy z dst dstPos src srcPos n).getD k z =
      if (dstPos ≤ k ∧ k < dstPos + n) ∧ k < dst.length then src.getD (srcPos + (k - dstPos)) z
      else dst.getD k z := by
  induction n with
  | zero => rw [if_neg (by omega)]; rfl
  | succ n ih =>
    rw [blockCopy_succ, getD_set, length_blockCopy, ih]
    -- the last byte is copied after the others
    by_cases hk : dstPos + n = k
    · subst hk
      by_cases hlt : dstPos + n < dst.length
      · rw [if_pos ⟨rfl, hlt⟩, if_pos (by omega), Nat.add_sub_cancel_left]
      · rw [if_neg (by omega), if_neg (by omega), if_neg (by omega)]
    · rw [if_neg (by omega)]
      exact if_congr (by omega) rfl rfl

/-- Reading a block into the start of a cleared word. -/
theorem blockCopy_replicate {m n : ℕ} (h : n ≤ m) :
    blockCopy z (List.replicate m z) 0 src srcPos n =
      ((List.range n).map fun k => src.getD (srcPos + k) z) ++ List.replicate (m - n) z := by
  induction n with
  | zero => simp [blockCopy]
  | succ n ih =>
    have hlen : ((List.range n).map fun k => src.getD (srcPos + k) z).length = n := by simp
    obtain ⟨j, hj⟩ : ∃ j, m - n = j + 1 := ⟨m - n - 1, by omega⟩
    have hj' : m - (n + 1) = j := by omega
    rw [blockCopy_succ, ih (by omega), hj, hj', Nat.zero_add, List.set_append_right n _ hlen.le,
      hlen, Nat.sub_self, List.replicate_succ, List.set_cons_zero, List.range_succ, List.map_append,
      List.append_assoc]
    rfl

end Copy

end Foundation
