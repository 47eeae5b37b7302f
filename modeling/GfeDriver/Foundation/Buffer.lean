import GfeDriver.Foundation.Bytes

/-!
# Byte buffers

A buffer is a memory of bytes. A write changes the bytes it covers, and a read is the list of the
bytes it covers, so that reading a word back returns it unless a later write overlaps it.

## Main definitions

* `Buffer.write`, `Buffer.read`: a block of bytes
* `Buffer.storeWord`, `Buffer.loadWord`: a 64-bit word, least significant byte first
* `Buffer.StaysWithin`: what is written is within a capacity
* `Buffer.wordBytes`, `Buffer.words`: the bytes of an array of words, and the words of a memory

## Main results

* `Buffer.read_write`, `Buffer.read_write_of_disjoint`: reading after a write
* `Buffer.loadWord_storeWord`, `Buffer.loadWord_write_wordBytes`: words are read back
-/

namespace Foundation

/-- A memory of bytes. -/
def Buffer := ℕ → UInt8

namespace Buffer

/-- A cleared buffer. -/
def zero : Buffer := fun _ => 0

/-- The bytes `l` are written at `offset`. -/
def write (b : Buffer) (offset : ℕ) (l : List UInt8) : Buffer := fun i =>
  if offset ≤ i ∧ i < offset + l.length then l.getD (i - offset) 0 else b i

/-- The `n` bytes at `offset`. -/
def read (b : Buffer) (offset n : ℕ) : List UInt8 := (List.range n).map fun i => b (offset + i)

def storeWord (b : Buffer) (offset : ℕ) (v : UInt64) : Buffer := b.write offset (leBytes 8 v.toNat)

def loadWord (b : Buffer) (offset : ℕ) : UInt64 := UInt64.ofNat (leValue (b.read offset 8))

variable {b b' : Buffer} {offset offset' n : ℕ} {l : List UInt8}

@[simp] theorem length_read (b : Buffer) (offset n : ℕ) : (b.read offset n).length = n := by
  simp [read]

theorem write_of_lt {i : ℕ} (h : i < offset) : b.write offset l i = b i :=
  if_neg fun hc => absurd h (Nat.not_lt.mpr hc.1)

theorem write_of_ge {i : ℕ} (h : offset + l.length ≤ i) : b.write offset l i = b i :=
  if_neg fun hc => absurd hc.2 (Nat.not_lt.mpr h)

/-- A byte that is written does not depend on the memory before. -/
theorem write_congr {i : ℕ} (hge : offset ≤ i) (hlt : i < offset + l.length) :
    b.write offset l i = b'.write offset l i :=
  (if_pos ⟨hge, hlt⟩).trans (if_pos ⟨hge, hlt⟩).symm

/-- Equal bytes are read alike. -/
theorem read_congr (h : ∀ i, offset ≤ i → i < offset + n → b i = b' i) :
    b.read offset n = b'.read offset n := by
  apply List.map_congr_left
  intro i hi
  have hlt := List.mem_range.mp hi
  exact h (offset + i) (by omega) (by omega)

theorem loadWord_congr (h : ∀ i, offset ≤ i → i < offset + 8 → b i = b' i) :
    b.loadWord offset = b'.loadWord offset := by
  rw [loadWord, loadWord, read_congr h]

theorem read_append (b : Buffer) (offset m n : ℕ) :
    b.read offset (m + n) = b.read offset m ++ b.read (offset + m) n := by
  simp [read, List.range_add, Function.comp_def, Nat.add_assoc]

theorem drop_read (b : Buffer) (offset m n : ℕ) :
    (b.read offset n).drop m = b.read (offset + m) (n - m) := by
  rcases le_total m n with h | h
  · obtain ⟨k, rfl⟩ := Nat.exists_eq_add_of_le h
    rw [read_append, List.drop_left' (length_read b offset m), Nat.add_sub_cancel_left]
  · rw [List.drop_eq_nil_of_le (by simpa using h), Nat.sub_eq_zero_of_le h]
    rfl

/-- What was written is read back. -/
@[simp] theorem read_write (b : Buffer) (offset : ℕ) (l : List UInt8) :
    (b.write offset l).read offset l.length = l := by
  apply List.ext_getElem
  · simp
  · intro i hi hl
    simp [read, write, hl]

theorem read_write_of_disjoint (h : offset' + n ≤ offset ∨ offset + l.length ≤ offset') :
    (b.write offset l).read offset' n = b.read offset' n := by
  apply read_congr
  intro i hge hlt
  rcases h with h | h
  · exact write_of_lt (by omega)
  · exact write_of_ge (by omega)

@[simp] theorem loadWord_storeWord (b : Buffer) (offset : ℕ) (v : UInt64) :
    (b.storeWord offset v).loadWord offset = v := by
  have hread := read_write b offset (leBytes 8 v.toNat)
  rw [length_leBytes] at hread
  have hlt : v.toNat < 256 ^ 8 := v.toNat_lt
  rw [loadWord, storeWord, hread, leValue_leBytes, Nat.mod_eq_of_lt hlt, UInt64.ofNat_toNat]

/-- A block is written as its parts, one after the other. -/
theorem write_append (b : Buffer) (offset : ℕ) (l l' : List UInt8) :
    b.write offset (l ++ l') = (b.write offset l).write (offset + l.length) l' := by
  funext i
  simp only [write, List.length_append]
  by_cases hlow : i < offset
  · rw [if_neg (by omega), if_neg (by omega), if_neg (by omega)]
  by_cases hleft : i < offset + l.length
  · rw [if_pos (by omega), if_neg (by omega), if_pos (by omega),
      List.getD_append _ _ _ _ (by omega)]
  by_cases hright : i < offset + l.length + l'.length
  · rw [if_pos (by omega), if_pos (by omega), List.getD_append_right _ _ _ _ (by omega),
      Nat.sub_sub]
  · rw [if_neg (by omega), if_neg (by omega), if_neg (by omega)]

theorem storeWord_of_lt {i : ℕ} {v : UInt64} (h : i < offset) : b.storeWord offset v i = b i :=
  write_of_lt h

/-! ## Writing within a capacity -/

/-- No byte from `capacity` on is written: it is as it was, whatever it was. -/
def StaysWithin (capacity : ℕ) (f : Buffer → Buffer) : Prop :=
  ∀ (b : Buffer) (i : ℕ), capacity ≤ i → f b i = b i

/-- A byte that is written, with the same value in every memory, is below the capacity. -/
theorem StaysWithin.lt {capacity i : ℕ} {f : Buffer → Buffer} (h : StaysWithin capacity f)
    (hi : ∀ b b', f b i = f b' i) : i < capacity := by
  by_contra hge
  have hzero := h (fun _ => 0) i (Nat.le_of_not_lt hge)
  have hone := h (fun _ => 1) i (Nat.le_of_not_lt hge)
  rw [hi (fun _ => 0) (fun _ => 1), hone] at hzero
  exact absurd hzero (by decide)

theorem StaysWithin.write {capacity : ℕ} {f : Buffer → Buffer} (h : StaysWithin capacity f)
    (hend : offset + l.length ≤ capacity) :
    StaysWithin capacity fun b => (f b).write offset l := by
  intro b i hi
  exact (write_of_ge (hend.trans hi)).trans (h b i hi)

theorem staysWithin_id (capacity : ℕ) : StaysWithin capacity id := fun _ _ _ => rfl

/-! ## Arrays of words -/

/-- The bytes of an array of words. -/
def wordBytes (ws : List UInt64) : List UInt8 := ws.flatMap fun v => leBytes 8 v.toNat

@[simp] theorem length_wordBytes (ws : List UInt64) : (wordBytes ws).length = 8 * ws.length := by
  induction ws with
  | nil => rfl
  | cons v ws ih =>
    have hcons : wordBytes (v :: ws) = leBytes 8 v.toNat ++ wordBytes ws := rfl
    rw [hcons, List.length_append, ih, length_leBytes, List.length_cons]
    ring

theorem wordBytes_drop (ws : List UInt64) (n : ℕ) :
    wordBytes (ws.drop n) = (wordBytes ws).drop (8 * n) := by
  induction n generalizing ws with
  | zero => rfl
  | succ n ih =>
    cases ws with
    | nil => simp [wordBytes]
    | cons w ws =>
      have hcons : wordBytes (w :: ws) = leBytes 8 w.toNat ++ wordBytes ws := rfl
      rw [List.drop_succ_cons, ih, hcons, show 8 * (n + 1) = 8 + 8 * n by ring, ← List.drop_drop,
        List.drop_left' (length_leBytes 8 w.toNat)]

/-- The `n` words at `offset`. -/
def words (b : Buffer) (offset n : ℕ) : List UInt64 :=
  (List.range n).map fun i => b.loadWord (offset + 8 * i)

@[simp] theorem length_words (b : Buffer) (offset n : ℕ) : (b.words offset n).length = n := by
  simp [words]

theorem getElem?_words (b : Buffer) (offset : ℕ) {i : ℕ} (h : i < n) :
    (b.words offset n)[i]? = some (b.loadWord (offset + 8 * i)) := by
  simp [words, h]

theorem words_succ (b : Buffer) (offset n : ℕ) :
    b.words offset (n + 1) = b.loadWord offset :: b.words (offset + 8) n := by
  rw [words, List.range_succ_eq_map, List.map_cons, List.map_map, Nat.mul_zero, Nat.add_zero]
  refine congrArg _ (List.map_congr_left fun i _ => ?_)
  rw [Function.comp_apply, Nat.succ_eq_add_one, Nat.mul_add, Nat.add_comm (8 * i), Nat.mul_one,
    ← Nat.add_assoc]

theorem leBytes_loadWord (b : Buffer) (offset : ℕ) :
    leBytes 8 (b.loadWord offset).toNat = b.read offset 8 := by
  have hlt := leValue_lt (b.read offset 8)
  have hbytes := leBytes_leValue (b.read offset 8)
  rw [length_read, show (256 : ℕ) ^ 8 = 2 ^ 64 by norm_num] at hlt
  rw [length_read] at hbytes
  rw [loadWord, UInt64.toNat_ofNat', Nat.mod_eq_of_lt hlt, hbytes]

/-- **The words of a memory** that holds the bytes of an array. -/
theorem words_isPrefix {ws : List UInt64} (h : b.read offset (8 * n) <+: wordBytes ws) :
    b.words offset n <+: ws := by
  induction n generalizing ws offset with
  | zero => exact List.nil_prefix
  | succ n ih =>
    rw [show 8 * (n + 1) = 8 + 8 * n by ring, read_append] at h
    cases ws with
    | nil =>
      have hlen := h.length_le
      simp [wordBytes] at hlen
    | cons w ws =>
      obtain ⟨t, ht⟩ := h
      have hcons : wordBytes (w :: ws) = leBytes 8 w.toNat ++ wordBytes ws := rfl
      rw [hcons, List.append_assoc] at ht
      obtain ⟨hfirst, hrest⟩ := List.append_inj ht (by simp)
      have hword : b.loadWord offset = w := by
        have hlt : w.toNat < 256 ^ 8 := w.toNat_lt
        rw [loadWord, hfirst, leValue_leBytes, Nat.mod_eq_of_lt hlt, UInt64.ofNat_toNat]
      rw [words_succ, hword, List.cons_prefix_cons]
      exact ⟨rfl, ih ⟨t, hrest⟩⟩

theorem take_read {m : ℕ} (h : m ≤ n) : (b.read offset n).take m = b.read offset m := by
  obtain ⟨k, rfl⟩ := Nat.exists_eq_add_of_le h
  rw [read_append, List.take_left' (length_read b offset m)]

theorem take_words (b : Buffer) (offset : ℕ) {m : ℕ} (h : m ≤ n) :
    (b.words offset n).take m = b.words offset m := by
  rw [words, words, ← List.map_take, List.take_range, Nat.min_eq_left h]

/-- **The words of an array** are read back. -/
theorem loadWord_write_wordBytes (b : Buffer) (offset : ℕ) (ws : List UInt64) {i : ℕ} {v : UInt64}
    (hi : ws[i]? = some v) : (b.write offset (wordBytes ws)).loadWord (offset + 8 * i) = v := by
  induction ws generalizing b offset i with
  | nil => simp at hi
  | cons w ws ih =>
    -- the first word, and then the others after it
    have hcons : b.write offset (wordBytes (w :: ws)) =
        (b.storeWord offset w).write (offset + 8) (wordBytes ws) := by
      have happend := write_append b offset (leBytes 8 w.toNat) (wordBytes ws)
      rwa [length_leBytes] at happend
    rw [hcons]
    cases i with
    | zero =>
      obtain rfl : w = v := by simpa using hi
      have hfirst : ((b.storeWord offset w).write (offset + 8) (wordBytes ws)).loadWord offset =
          (b.storeWord offset w).loadWord offset :=
        loadWord_congr fun j _ hj => write_of_lt hj
      exact hfirst.trans (loadWord_storeWord b offset w)
    | succ i =>
      rw [show offset + 8 * (i + 1) = offset + 8 + 8 * i by ring]
      exact ih _ _ (by simpa using hi)

end Buffer

end Foundation
