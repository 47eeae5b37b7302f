import GfeDriver.Foundation.Buffer
import GfeDriver.Foundation.Loop

/-!
# Reading a byte stream in pieces

A call that reads from a stream returns a part of what it is asked for: at least one byte as long
as there is one, and none once the stream has ended. Where the stream is cut is not up to the
caller. A loop that calls again until it has enough bytes has received the next bytes of the
stream, wherever it was cut. If the stream ends before, a loop that does not look for the end goes
on for ever.

## Main definitions

* `ByteStream`, `Reception`: what is left of a stream, and the bytes received in a buffer
* `Reception.granted`, `Reception.read`: one call
* `Reception.Holds`: the first bytes of a stream were received
* `readUntil`: the loop

## Main results

* `Reception.Holds.advance`: what a call receives
* `Reception.Holds.readUntil`, `Reception.Holds.exists_readUntil`: the loop ends exactly when the
  stream has enough bytes, and then it has received them
-/

namespace Foundation

/-- A stream, from the side of its reader: the bytes that were not returned yet, and the number of
those that were. The stream ends after the last byte. -/
structure ByteStream where
  pending : List UInt8
  returned : ℕ

/-- The bytes received from a stream, at the start of a buffer. -/
structure Reception where
  buffer : Buffer
  stream : ByteStream
  numBytesRead : ℕ

/-- The stream after its next `n` bytes. -/
def ByteStream.advance (s : ByteStream) (n : ℕ) : ByteStream := ⟨s.pending.drop n, s.returned + n⟩

namespace Reception

/-- The next `n` bytes of the stream are received. -/
def advance (r : Reception) (n : ℕ) : Reception where
  buffer := r.buffer.write r.numBytesRead (r.stream.pending.take n)
  stream := r.stream.advance n
  numBytesRead := r.numBytesRead + n

/-- How many bytes a call returns that asks for `requested` ones: at each position of the stream,
`cut` says where it is cut. -/
def granted (cut : ℕ → ℕ) (requested : ℕ) (r : Reception) : ℕ :=
  min (max 1 (cut r.stream.returned)) (min requested r.stream.pending.length)

/-- One call. -/
def read (cut : ℕ → ℕ) (requested : ℕ) (r : Reception) : Reception :=
  r.advance (r.granted cut requested)

/-- The first `k` bytes of the stream `s` were received. -/
structure Holds (s : ByteStream) (k : ℕ) (r : Reception) : Prop where
  le_length : k ≤ s.pending.length
  stream_eq : r.stream = s.advance k
  numBytesRead_eq : r.numBytesRead = k
  read_eq : r.buffer.read 0 k = s.pending.take k

theorem granted_le_length (cut : ℕ → ℕ) (requested : ℕ) (r : Reception) :
    r.granted cut requested ≤ r.stream.pending.length :=
  (min_le_right _ _).trans (min_le_right _ _)

theorem granted_le (cut : ℕ → ℕ) (requested : ℕ) (r : Reception) :
    r.granted cut requested ≤ requested :=
  (min_le_right _ _).trans (min_le_left _ _)

theorem holds_zero (b : Buffer) (s : ByteStream) : Holds s 0 ⟨b, s, 0⟩ :=
  ⟨Nat.zero_le _, rfl, rfl, rfl⟩

variable {s : ByteStream} {k : ℕ} {r : Reception}

/-- Other memory may hold the bytes that were received. -/
theorem Holds.of_read_eq (h : Holds s k r) {b : Buffer} (hb : b.read 0 k = r.buffer.read 0 k) :
    Holds s k ⟨b, r.stream, r.numBytesRead⟩ :=
  ⟨h.le_length, h.stream_eq, h.numBytesRead_eq, hb.trans h.read_eq⟩

theorem Holds.length_pending (h : Holds s k r) :
    r.stream.pending.length = s.pending.length - k := by
  rw [h.stream_eq]
  exact List.length_drop

/-- **What is received next** stands behind what was received before. -/
theorem Holds.advance (h : Holds s k r) {n : ℕ} (hn : n ≤ r.stream.pending.length) :
    Holds s (k + n) (r.advance n) := by
  have hle := h.le_length
  have hlength := h.length_pending
  have hnext : r.stream.pending.take n = (s.pending.drop k).take n := by
    rw [h.stream_eq]
    rfl
  constructor
  · omega
  · show r.stream.advance n = _
    rw [h.stream_eq, ByteStream.advance, ByteStream.advance, List.drop_drop, Nat.add_assoc]
    rfl
  · show r.numBytesRead + n = k + n
    rw [h.numBytesRead_eq]
  · have hbefore : (r.advance n).buffer.read 0 k = r.buffer.read 0 k :=
      Buffer.read_write_of_disjoint (Or.inl (by rw [h.numBytesRead_eq]; omega))
    have hwritten := Buffer.read_write r.buffer k (r.stream.pending.take n)
    rw [List.length_take, min_eq_left hn] at hwritten
    have hafter : (r.advance n).buffer.read (0 + k) n = r.stream.pending.take n := by
      rw [Nat.zero_add]
      conv_lhs => rw [Reception.advance, h.numBytesRead_eq]
      exact hwritten
    rw [Buffer.read_append, hbefore, hafter, h.read_eq, hnext, List.take_add]

end Reception

/-- `while (numBytesRead < size) read(.., size - numBytesRead)`: the end of the stream is not
looked for. -/
def readUntil (cut : ℕ → ℕ) (size fuel : ℕ) (r : Reception) : Option Reception :=
  whileLoop (fun r => decide (r.numBytesRead < size))
    (fun r => some (r.read cut (size - r.numBytesRead))) fuel r

section ReadUntil

variable {cut : ℕ → ℕ} {size : ℕ} {s : ByteStream} {k : ℕ} {r : Reception}

theorem readUntil_of_le {fuel : ℕ} (h : size ≤ r.numBytesRead) :
    readUntil cut size (fuel + 1) r = some r := by
  apply whileLoop_of_not
  exact decide_eq_false (Nat.not_lt.mpr h)

theorem readUntil_of_lt (fuel : ℕ) (h : r.numBytesRead < size) :
    readUntil cut size (fuel + 1) r =
      readUntil cut size fuel (r.read cut (size - r.numBytesRead)) := by
  apply whileLoop_of_cond
  · exact decide_eq_true h
  · rfl

/-- **The loop ends** when the stream has enough bytes. -/
theorem Reception.Holds.exists_readUntil (cut : ℕ → ℕ) (h : r.Holds s k) {fuel : ℕ}
    (hsize : size ≤ s.pending.length) (hfuel : size - k < fuel) :
    ∃ r', readUntil cut size fuel r = some r' := by
  induction fuel generalizing k r with
  | zero => exact absurd hfuel (Nat.not_lt_zero _)
  | succ fuel ih =>
    have hcount := h.numBytesRead_eq
    rcases lt_or_ge k size with hlt | hge
    · -- one byte at least is returned, as there is one
      have hpos : 0 < r.granted cut (size - r.numBytesRead) := by
        have hlength := h.length_pending
        rw [Reception.granted]
        omega
      rw [readUntil_of_lt fuel (hcount ▸ hlt)]
      exact ih (h.advance (r.granted_le_length cut _)) (by omega)
    · exact ⟨r, readUntil_of_le (hcount ▸ hge)⟩

/-- **The loop ends only** when the stream has enough bytes, and then it has received them. -/
theorem Reception.Holds.readUntil (h : r.Holds s k) {fuel : ℕ} {r' : Reception}
    (hr : readUntil cut size fuel r = some r') : r'.Holds s (max k size) := by
  induction fuel generalizing k r with
  | zero => cases hr
  | succ fuel ih =>
    have hcount := h.numBytesRead_eq
    rcases lt_or_ge k size with hlt | hge
    · rw [readUntil_of_lt fuel (hcount ▸ hlt)] at hr
      have hle := r.granted_le cut (size - r.numBytesRead)
      have hrest := ih (h.advance (r.granted_le_length cut _)) hr
      rwa [max_eq_right (by omega), ← max_eq_right hlt.le] at hrest
    · rw [readUntil_of_le (hcount ▸ hge)] at hr
      obtain rfl := Option.some.inj hr
      rwa [max_eq_left hge]

end ReadUntil

end Foundation
