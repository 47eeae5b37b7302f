import GfeDriver.Foundation.FileStream
import GfeDriver.Foundation.Inflate

/-!
# Compressed Graphalytics files

`GraphalyticsZlibDecompressInput` reads the fixed-size records of a compressed file. When its output
buffer is used up, `read` calls `inflate` once: it refills the input from the file if nothing is
left of it, moves the incomplete record of the last call to the front, decompresses behind it, and
takes the first record. It does not look whether the call has completed a record. If it has not,
`read` returns whatever the buffer holds, and the record follows later. This happens after the last
record too, when the end of the stream is still to be consumed, or when the file ends exactly where
a read of it ends, so that the end of the file was not noticed yet.

The assertions are compiled out. A record is the list of its bytes, and the buffer has room for
`2^15` records.

## Main definitions

* `DecompressInput`, `DecompressInput.read`: the reader
* `Delivers`: the calls return the records, each after it was decompressed, and then false
* `Progress`, `Smooth`: the calls of `inflate` on the chunks of a file, and when they suit the
  reader

## Main results

* `Tracks.read_buffered`, `Tracks.read_exhausted`, `Tracks.read_refill`: what a call of `read` does
* `delivers_iff`: the reader returns the records exactly when the calls of `inflate` are smooth
-/

namespace GfeDriver

namespace GraphalyticsZlib

open Foundation

/-! ## The reader -/

/-- `GraphalyticsZlibDecompressInput<T>`. -/
structure DecompressInput (I : Inflater) where
  handle : FileStream
  stream : ZStream I
  inputBuffer : Buffer
  outputBuffer : Buffer
  outputPos : ℕ
  outputSz : ℕ
  outputLeftoverSz : ℕ

/-- `m_buffer_capacity`, where `size` is `sizeof(T)`. -/
def bufferCapacity (size : ℕ) : ℕ := 2 ^ 15 * size

namespace DecompressInput

variable {I : Inflater}

/-- The constructor, for an existing file. The buffers are not initialised. -/
def new (I : Inflater) (file : List UInt8) (inputBuffer outputBuffer : Buffer) :
    DecompressInput I :=
  ⟨FileStream.openAt file 0, ZStream.init I, inputBuffer, outputBuffer, 0, 0, 0⟩

/-- The first part of `read`: the input is refilled, unless the file is depleted. -/
def fillInput (size : ℕ) (r : DecompressInput I) : Option (DecompressInput I) :=
  if r.stream.availIn = 0 then
    if !r.handle.good then none
    else
      let bytes := r.handle.nextBytes (bufferCapacity size)
      some { r with
        handle := r.handle.read (bufferCapacity size)
        inputBuffer := r.inputBuffer.write 0 bytes
        stream := { r.stream with nextIn := 0, availIn := bytes.length } }
  else some r

/-- The second part of `read`: the leftover is moved to the front, and the input is
decompressed. -/
def decompress (size : ℕ) (r : DecompressInput I) : Except InflateCode (DecompressInput I) :=
  let outputBuffer := r.outputBuffer.write 0 (r.outputBuffer.read r.outputSz r.outputLeftoverSz)
  let outputBufferSz := bufferCapacity size - r.outputLeftoverSz
  let rc := r.stream.call r.inputBuffer outputBufferSz
  if rc.code ≠ .ok ∧ rc.code ≠ .streamEnd then .error rc.code
  else
    let dataProcessed := r.outputLeftoverSz + rc.output.length
    .ok { r with
      stream := r.stream.after rc
      outputBuffer := outputBuffer.write r.outputLeftoverSz rc.output
      outputPos := 0
      outputSz := dataProcessed / size * size
      outputLeftoverSz := dataProcessed % size }

/-- The last part of `read`. -/
def assign (size : ℕ) (r : DecompressInput I) : Option (List UInt8) × DecompressInput I :=
  (some (r.outputBuffer.read r.outputPos size), { r with outputPos := r.outputPos + size })

/-- `read`, which fails with the answer of `inflate`. -/
def read (size : ℕ) (r : DecompressInput I) :
    Except InflateCode (Option (List UInt8) × DecompressInput I) :=
  if r.outputPos ≥ r.outputSz then
    match r.fillInput size with
    | none => .ok (none, r)
    | some r =>
      match r.decompress size with
      | .error e => .error e
      | .ok r => .ok (r.assign size)
  else .ok (r.assign size)

end DecompressInput

/-- The calls of `read` return the records, each after it was decompressed, and then false; `count`
records were returned before. -/
def Delivers {I : Inflater} (size : ℕ) : ℕ → List (List UInt8) → DecompressInput I → Prop
  | _, [], r => r.read size = .ok (none, r)
  | count, record :: records, r =>
    ∃ r', r.read size = .ok (some record, r') ∧ (count + 1) * size ≤ r'.stream.totalOut ∧
      Delivers size (count + 1) records r'

/-! ## The calls of inflate -/

/-- The end of the chunk in which a position of the file lies. -/
def chunkEnd (capacity pos : ℕ) : ℕ := capacity * (pos / capacity + 1)

/-- A decompressor that is fed with a file, chunk by chunk: its state, the bytes consumed and
produced, and whether a chunk came short. -/
structure Progress (I : Inflater) where
  state : I.State
  consumed : ℕ
  produced : ℕ
  short : Bool

namespace Progress

variable {I : Inflater} (size : ℕ) (file : List UInt8)

/-- Before the first call. -/
def start (I : Inflater) : Progress I := ⟨I.init, 0, 0, false⟩

/-- The next call: it is offered the rest of the chunk, and the space that an incomplete record
leaves. -/
def call (p : Progress I) : Inflated I.State :=
  I.inflate p.state
    ((file.drop p.consumed).take (chunkEnd (bufferCapacity size) p.consumed - p.consumed))
    (bufferCapacity size - p.produced % size)

/-- After the next call. -/
def next (p : Progress I) : Progress I :=
  ⟨(p.call size file).state, p.consumed + (p.call size file).consumed,
    p.produced + (p.call size file).output.length,
    file.length < chunkEnd (bufferCapacity size) p.consumed⟩

/-- The file is used up, and its end was noticed. -/
def Exhausted (p : Progress I) : Prop := p.consumed = file.length ∧ p.short = true

end Progress

/-- **The calls suit the reader.** Each call that is needed completes a record, and after the last
record the file is exhausted. -/
inductive Smooth {I : Inflater} (size : ℕ) (file content : List UInt8) : Progress I → Prop
  | done {p : Progress I} (hall : p.produced = content.length) (hend : p.Exhausted file) :
      Smooth size file content p
  | more {p : Progress I} (hleft : p.produced < content.length) (hend : ¬p.Exhausted file)
      (hrecord : (p.produced / size + 1) * size ≤ (p.next size file).produced)
      (hnext : Smooth size file content (p.next size file)) : Smooth size file content p

/-! ## Chunks -/

section Chunks

variable {capacity pos : ℕ}

theorem lt_chunkEnd (pos : ℕ) (h : 0 < capacity) : pos < chunkEnd capacity pos :=
  Nat.lt_mul_div_succ pos h

theorem dvd_chunkEnd : capacity ∣ chunkEnd capacity pos := Dvd.intro _ rfl

theorem chunkEnd_of_dvd (h : capacity ∣ pos) : chunkEnd capacity pos = pos + capacity := by
  rw [chunkEnd, Nat.mul_add, Nat.mul_div_cancel' h, Nat.mul_one]

/-- A position further in the same chunk. -/
theorem chunkEnd_eq {pos' : ℕ} (hle : pos ≤ pos') (hlt : pos' < chunkEnd capacity pos) :
    chunkEnd capacity pos' = chunkEnd capacity pos := by
  have hdiv : pos' / capacity = pos / capacity :=
    Nat.le_antisymm (Nat.lt_succ_iff.mp (Nat.div_lt_of_lt_mul hlt)) (Nat.div_le_div_right hle)
  rw [chunkEnd, chunkEnd, hdiv]

end Chunks

/-! ## The reader along the calls -/

section Tracks

variable {I : Inflater} {size : ℕ} {file content : List UInt8}

/-- The input of the reader is the rest of a chunk of the file. -/
structure Fed (size : ℕ) (file : List UInt8) (r : DecompressInput I) (p : Progress I) : Prop where
  content : r.handle.content = file
  pos : r.handle.pos = p.consumed + r.stream.availIn
  bytes : r.inputBuffer.read r.stream.nextIn r.stream.availIn =
    (file.drop p.consumed).take r.stream.availIn
  good : r.handle.good = !p.short
  /-- While there is input, it goes to the end of the chunk or of the file. -/
  of_pos : 0 < r.stream.availIn →
    r.handle.pos = min (chunkEnd (bufferCapacity size) p.consumed) file.length ∧
      (p.short = true ↔ file.length < chunkEnd (bufferCapacity size) p.consumed)
  /-- Without input, the next chunk starts here, or the file has ended. -/
  of_zero : r.stream.availIn = 0 →
    (p.short = false → bufferCapacity size ∣ p.consumed) ∧
      (p.short = true → p.consumed = file.length)
  within : p.consumed ≤ file.length

/-- The output buffer of the reader holds `buffered` records, and a part of the next one. -/
structure Buffered (size : ℕ) (r : DecompressInput I) (records : List (List UInt8))
    (buffered : ℕ) : Prop where
  outputSz : r.outputSz = r.outputPos + buffered * size
  leftover : r.outputLeftoverSz < size
  bytes : r.outputBuffer.read r.outputPos (buffered * size + r.outputLeftoverSz) <+: records.flatten

/-- **The reader follows the calls**: `count` records were returned, and `records` are still to
come. -/
structure Tracks (size : ℕ) (file content : List UInt8) (r : DecompressInput I) (p : Progress I)
    (count : ℕ) (records : List (List UInt8)) (buffered : ℕ) : Prop where
  state : r.stream.state = p.state
  at_state : I.At file p.state p.consumed p.produced
  totalOut : r.stream.totalOut = p.produced
  fed : Fed size file r p
  out : Buffered size r records buffered
  produced : p.produced = (count + buffered) * size + r.outputLeftoverSz
  rest : content.drop (count * size) = records.flatten
  sizes : ∀ record ∈ records, record.length = size

variable {r : DecompressInput I} {p : Progress I} {count : ℕ} {records : List (List UInt8)}
  {buffered : ℕ}

theorem tracks_new (hsizes : ∀ record ∈ records, record.length = size) (hsize : 0 < size)
    (inputBuffer outputBuffer : Buffer) :
    Tracks size file records.flatten (DecompressInput.new I file inputBuffer outputBuffer)
      (Progress.start I) 0 records 0 := by
  refine ⟨rfl, .init, rfl, ⟨rfl, rfl, ?_, rfl, fun h => absurd h (Nat.lt_irrefl 0), fun _ => ?_,
    Nat.zero_le _⟩, ⟨?_, hsize, ?_⟩, ?_, ?_, hsizes⟩
  · rfl
  · exact ⟨fun _ => Dvd.intro 0 rfl, fun h => by simp [Progress.start] at h⟩
  · simp [DecompressInput.new]
  · simp [DecompressInput.new, Buffer.read]
  · simp [DecompressInput.new, Progress.start]
  · simp

/-- The remaining records are the rest of the content. -/
theorem Tracks.length_flatten (h : Tracks size file content r p count records buffered) :
    records.flatten.length = records.length * size := by
  have hsizes := h.sizes
  clear h
  induction records with
  | nil => simp
  | cons record records ih =>
    rw [List.flatten_cons, List.length_append, hsizes record List.mem_cons_self,
      ih fun x hx => hsizes x (List.mem_cons_of_mem _ hx), List.length_cons]
    ring

/-- With an empty buffer, only the leftover was produced since the last record. -/
theorem Tracks.produced_eq (h : Tracks size file content r p count records 0) :
    p.produced = count * size + r.outputLeftoverSz := h.produced

theorem read_of_lt (h : r.outputPos < r.outputSz) : r.read size = .ok (r.assign size) :=
  if_neg (not_le.mpr h)

/-- **A buffered record** is returned without a call. -/
theorem Tracks.read_buffered (h : Tracks size file content r p count records (buffered + 1))
    (hsize : 0 < size) :
    ∃ record rest, records = record :: rest ∧
      r.read size = .ok (some record, { r with outputPos := r.outputPos + size }) ∧
      Tracks size file content { r with outputPos := r.outputPos + size } p (count + 1) rest
        buffered := by
  have hbytes := h.out.bytes
  rw [show (buffered + 1) * size + r.outputLeftoverSz =
    size + (buffered * size + r.outputLeftoverSz) by ring, Buffer.read_append] at hbytes
  cases records with
  | nil =>
    have hlen := hbytes.length_le
    simp only [List.length_append, Buffer.length_read, List.flatten_nil, List.length_nil] at hlen
    omega
  | cons record rest =>
    -- the first record is at the position of the buffer
    obtain ⟨t, ht⟩ := hbytes
    have hlen : (r.outputBuffer.read r.outputPos size).length = record.length := by
      rw [Buffer.length_read, h.sizes record List.mem_cons_self]
    rw [List.flatten_cons, List.append_assoc] at ht
    obtain ⟨hrecord, hrest⟩ := List.append_inj ht hlen
    refine ⟨record, rest, rfl, ?_, ⟨h.state, h.at_state, h.totalOut, ?_, ⟨?_, h.out.leftover, ?_⟩,
      ?_, ?_, fun x hx => h.sizes x (List.mem_cons_of_mem _ hx)⟩⟩
    · have hlt : r.outputPos < r.outputSz := by
        rw [h.out.outputSz]
        have : 0 < (buffered + 1) * size := Nat.mul_pos (Nat.succ_pos buffered) hsize
        omega
      rw [read_of_lt hlt, DecompressInput.assign, hrecord]
    · exact ⟨h.fed.content, h.fed.pos, h.fed.bytes, h.fed.good, h.fed.of_pos, h.fed.of_zero,
        h.fed.within⟩
    · rw [h.out.outputSz]
      ring
    · exact ⟨t, hrest⟩
    · rw [h.produced]
      ring
    · rw [Nat.add_mul, Nat.one_mul, ← List.drop_drop, h.rest, List.flatten_cons,
        List.drop_left' (h.sizes record List.mem_cons_self)]

/-- **Without input and at the end of the file**, the reader returns false. -/
theorem Tracks.read_exhausted (h : Tracks size file content r p count records 0)
    (hend : p.Exhausted file) : r.read size = .ok (none, r) := by
  obtain ⟨hall, hshort⟩ := hend
  have havail : r.stream.availIn = 0 := by
    by_contra hne
    have hpos := (h.fed.of_pos (Nat.pos_of_ne_zero hne)).1
    rw [h.fed.pos, hall] at hpos
    omega
  have hge : r.outputPos ≥ r.outputSz := by
    rw [h.out.outputSz]
    omega
  have hgood : r.handle.good = false := by rw [h.fed.good, hshort, Bool.not_true]
  rw [DecompressInput.read, if_pos hge, DecompressInput.fillInput, if_pos havail, hgood]
  rfl

/-- The reader with its input refilled. -/
structure Filled (size : ℕ) (file : List UInt8) (r r' : DecompressInput I) (p : Progress I) :
    Prop where
  fill : r.fillInput size = some r'
  same : r' = { r with
    handle := r'.handle
    inputBuffer := r'.inputBuffer
    stream := { r.stream with nextIn := r'.stream.nextIn, availIn := r'.stream.availIn } }
  content : r'.handle.content = file
  pos : r'.handle.pos = p.consumed + r'.stream.availIn
  pos_eq : r'.handle.pos = min (chunkEnd (bufferCapacity size) p.consumed) file.length
  bytes : r'.inputBuffer.read r'.stream.nextIn r'.stream.availIn =
    (file.drop p.consumed).take (chunkEnd (bufferCapacity size) p.consumed - p.consumed)
  good : r'.handle.good = !decide (file.length < chunkEnd (bufferCapacity size) p.consumed)

/-- Unless the file is exhausted, the reader has the rest of a chunk as its input. -/
theorem Fed.filled (h : Fed size file r p) (hsize : 0 < size) (hend : ¬p.Exhausted file) :
    ∃ r', Filled size file r r' p := by
  have hcap : 0 < bufferCapacity size := Nat.mul_pos (by norm_num) hsize
  by_cases havail : r.stream.availIn = 0
  · obtain ⟨hdvd, hfile⟩ := h.of_zero havail
    have hshort : p.short = false := by
      by_contra hc
      have hc := Bool.eq_true_of_not_eq_false hc
      exact hend ⟨hfile hc, hc⟩
    have hgood : r.handle.good = true := by rw [h.good, hshort, Bool.not_false]
    have hpos : r.handle.pos = p.consumed := by rw [h.pos, havail, Nat.add_zero]
    -- a new chunk starts where the last one has ended
    have hchunk := chunkEnd_of_dvd (hdvd hshort)
    have hbytes : r.handle.nextBytes (bufferCapacity size) =
        (file.drop p.consumed).take (bufferCapacity size) := by
      rw [FileStream.nextBytes_of_good hgood, h.content, hpos]
    have hlen : (r.handle.nextBytes (bufferCapacity size)).length =
        min (bufferCapacity size) (file.length - p.consumed) := by
      rw [hbytes, List.length_take, List.length_drop]
    have hwithin := h.within
    refine ⟨{ r with
        handle := r.handle.read (bufferCapacity size)
        inputBuffer := r.inputBuffer.write 0 (r.handle.nextBytes (bufferCapacity size))
        stream := { r.stream with
          nextIn := 0, availIn := (r.handle.nextBytes (bufferCapacity size)).length } },
      ⟨?_, rfl, ?_, ?_, ?_, ?_, ?_⟩⟩
    · rw [DecompressInput.fillInput, if_pos havail, hgood]
      rfl
    · rw [FileStream.content_read, h.content]
    · rw [FileStream.read_of_good hgood, hpos]
    · rw [FileStream.read_of_good hgood, hchunk]
      simp only [hpos, hlen]
      omega
    · rw [Buffer.read_write, hbytes, hchunk, Nat.add_sub_cancel_left]
    · rw [Bool.eq_iff_iff, FileStream.good_read_iff hgood, hlen, hchunk]
      simp only [Bool.not_eq_true', decide_eq_false_iff_not]
      omega
  · have hpos := h.of_pos (Nat.pos_of_ne_zero havail)
    have hlt := lt_chunkEnd p.consumed hcap
    refine ⟨r, ⟨if_neg havail, rfl, h.content, h.pos, hpos.1, ?_, ?_⟩⟩
    · -- the input goes to the end of the chunk, or of the file
      have heq := h.pos.symm.trans hpos.1
      rw [h.bytes, List.take_eq_take_iff, List.length_drop]
      omega
    · rw [h.good]
      congr 1
      rw [Bool.eq_iff_iff, hpos.2, decide_eq_true_iff]

/-- The position after a call, in the same chunk or at its end. -/
theorem Filled.fed {r' : DecompressInput I} (h : Filled size file r r' p) (hsize : 0 < size)
    {q : DecompressInput I} {n : ℕ} (hn : n ≤ r'.stream.availIn) (hhandle : q.handle = r'.handle)
    (hinput : q.inputBuffer = r'.inputBuffer) (hnext : q.stream.nextIn = r'.stream.nextIn + n)
    (havail : q.stream.availIn = r'.stream.availIn - n) {p' : Progress I}
    (hconsumed : p'.consumed = p.consumed + n)
    (hshort : p'.short = decide (file.length < chunkEnd (bufferCapacity size) p.consumed)) :
    Fed size file q p' := by
  have hcap : 0 < bufferCapacity size := Nat.mul_pos (by norm_num) hsize
  have hpos := h.pos
  have heq := h.pos_eq
  have hlt := lt_chunkEnd p.consumed hcap
  refine ⟨?_, ?_, ?_, ?_, fun hin => ?_, fun hzero => ⟨fun hs => ?_, fun hs => ?_⟩, ?_⟩
  · rw [hhandle, h.content]
  · rw [hhandle, hconsumed, havail]
    omega
  · rw [hinput, hnext, havail, ← Buffer.drop_read, h.bytes, hconsumed, List.drop_take,
      List.drop_drop, List.take_eq_take_iff, List.length_drop]
    omega
  · rw [hhandle, h.good, hshort]
  · -- input is left: the chunk is the same
    have hsame := chunkEnd_eq (Nat.le.intro hconsumed.symm)
      (by omega : p'.consumed < chunkEnd (bufferCapacity size) p.consumed)
    rw [hsame, hhandle, hshort]
    exact ⟨heq, decide_eq_true_iff⟩
  · rw [hshort] at hs
    have hle := of_decide_eq_false hs
    rw [show p'.consumed = chunkEnd (bufferCapacity size) p.consumed by omega]
    exact dvd_chunkEnd
  · rw [hshort] at hs
    have hlt' := of_decide_eq_true hs
    omega
  · omega

/-- The leftover of the last call and the output of this one. -/
theorem Tracks.leftover_append (h : Tracks size file content r p count records 0)
    {output : List UInt8} (hout : output <+: content.drop p.produced) :
    r.outputBuffer.read r.outputSz r.outputLeftoverSz ++ output <+: records.flatten := by
  have hbytes := h.out.bytes
  rw [Nat.zero_mul, Nat.zero_add] at hbytes
  have hpos : r.outputSz = r.outputPos := by rw [h.out.outputSz, Nat.zero_mul, Nat.add_zero]
  obtain ⟨t, ht⟩ := hbytes
  have hdrop : content.drop p.produced = t := by
    rw [h.produced_eq, ← List.drop_drop, h.rest, ← ht,
      List.drop_left' (Buffer.length_read _ _ _)]
  rw [hpos, ← ht, List.prefix_append_right_inj, ← hdrop]
  exact hout

/-- **A call of inflate**: the reader fails, or holds the complete records and takes the first
one. -/
theorem Tracks.read_refill (h : Tracks size file content r p count records 0)
    (hI : I.Decodes file content) (hsize : 0 < size) (hend : ¬p.Exhausted file) :
    (∃ e, r.read size = .error e ∧ (p.next size file).produced = p.produced) ∨
      ∃ r' buffered, r.read size = .ok (r'.assign size) ∧
        Tracks size file content r' (p.next size file) count records buffered := by
  obtain ⟨r₁, hf⟩ := h.fed.filled hsize hend
  -- the call of the reader is the next one in the sequence
  have hleft : p.produced % size = r.outputLeftoverSz := by
    rw [h.produced_eq, Nat.mul_add_mod', Nat.mod_eq_of_lt h.out.leftover]
  have hstate : r₁.stream.state = p.state := by rw [hf.same, ← h.state]
  have hleftover : r₁.outputLeftoverSz = r.outputLeftoverSz := by rw [hf.same]
  have hcall : r₁.stream.call r₁.inputBuffer (bufferCapacity size - r₁.outputLeftoverSz) =
      p.call size file := by
    rw [ZStream.call, hf.bytes, hstate, hleftover, ← hleft]
    rfl
  have hagrees : Agrees file p.consumed
      ((file.drop p.consumed).take (chunkEnd (bufferCapacity size) p.consumed - p.consumed)) := by
    have hfile : file <+: file.drop 0 := List.prefix_refl file
    simpa using agrees_take hfile
      (chunkEnd (bufferCapacity size) p.consumed - p.consumed)
  have hstep : InflateStep file content p.consumed p.produced _ _ (p.call size file) :=
    hI h.at_state hagrees (bufferCapacity size - p.produced % size)
  have hread : r.read size = match r₁.decompress size with
      | .error e => .error e
      | .ok r => .ok (r.assign size) := by
    rw [DecompressInput.read, if_pos (by rw [h.out.outputSz]; omega), hf.fill]
  by_cases hcode : (p.call size file).code ≠ .ok ∧ (p.call size file).code ≠ .streamEnd
  · -- no progress
    refine Or.inl ⟨(p.call size file).code, ?_, ?_⟩
    · rw [hread, DecompressInput.decompress, hcall, if_pos hcode]
    · have hstuck : (p.call size file).code = .bufError := by
        cases hc : (p.call size file).code <;> simp_all
      rw [Progress.next, (hstep.bufError_iff.mp hstuck).2.2, List.length_nil, Nat.add_zero]
  · set rc := p.call size file with hrc
    set processed := r.outputLeftoverSz + rc.output.length with hprocessed
    refine Or.inr ⟨{ r₁ with
      stream := r₁.stream.after rc
      outputBuffer := (r₁.outputBuffer.write 0
        (r₁.outputBuffer.read r₁.outputSz r₁.outputLeftoverSz)).write r₁.outputLeftoverSz rc.output
      outputPos := 0
      outputSz := processed / size * size
      outputLeftoverSz := processed % size }, processed / size, ?_,
      ⟨rfl, h.at_state.step hagrees _, ?_, ?_, ⟨by simp, Nat.mod_lt _ hsize, ?_⟩, ?_, h.rest,
        h.sizes⟩⟩
    · rw [hread, DecompressInput.decompress, hcall, if_neg hcode, hprocessed, hleftover]
    · simp only [ZStream.after, Progress.next, ← hrc]
      rw [hf.same]
      simp only [h.totalOut]
    · have hle : rc.consumed ≤ r₁.stream.availIn := by
        have hlen := congrArg List.length hf.bytes
        rw [Buffer.length_read] at hlen
        exact hlen ▸ hstep.consumed_le
      refine hf.fed hsize hle ?_ ?_ ?_ ?_ ?_ ?_ <;> rfl
    · -- the buffer starts with the leftover, and the output follows
      have hbuffer : r₁.outputBuffer = r.outputBuffer := by rw [hf.same]
      have hsz : r₁.outputSz = r.outputSz := by rw [hf.same]
      have happend := Buffer.write_append r.outputBuffer 0
        (r.outputBuffer.read r.outputSz r.outputLeftoverSz) rc.output
      rw [Buffer.length_read, Nat.zero_add] at happend
      have hlen : (r.outputBuffer.read r.outputSz r.outputLeftoverSz ++ rc.output).length =
          processed := by
        rw [List.length_append, Buffer.length_read]
      rw [Nat.div_add_mod', hbuffer, hsz, hleftover, ← happend, ← hlen, Buffer.read_write]
      exact h.leftover_append hstep.isPrefix
    · have hmod := Nat.div_add_mod' processed size
      simp only [Progress.next, ← hrc]
      rw [h.produced_eq, Nat.add_mul]
      omega

/-- The calls from one that is needed on. -/
theorem smooth_iff_next (hleft : p.produced < content.length) (hend : ¬p.Exhausted file) :
    Smooth size file content p ↔
      (p.produced / size + 1) * size ≤ (p.next size file).produced ∧
        Smooth size file content (p.next size file) := by
  constructor
  · intro hs
    cases hs with
    | done hall => omega
    | more _ _ hrecord hnext => exact ⟨hrecord, hnext⟩
  · rintro ⟨hrecord, hnext⟩
    exact .more hleft hend hrecord hnext

/-- **After the last record** the reader returns false when the file is exhausted. -/
theorem Tracks.delivers_nil_iff (hI : I.Decodes file content) (hsize : 0 < size)
    (h : Tracks size file content r p count [] 0) :
    Delivers size count [] r ↔ Smooth size file content p := by
  have hall : content.length ≤ p.produced := by
    have hrest := congrArg List.length h.rest
    rw [List.length_drop, List.flatten_nil, List.length_nil] at hrest
    have hproduced := h.produced_eq
    omega
  constructor
  · intro hread
    by_cases hend : p.Exhausted file
    · exact .done (Nat.le_antisymm (h.at_state.le hI).2 hall) hend
    · -- the reader would not return false
      rcases h.read_refill hI hsize hend with ⟨e, he, -⟩ | ⟨r', b, hr', -⟩
      · exact absurd (hread.symm.trans he) (by simp)
      · exact absurd (hread.symm.trans hr') (by simp [DecompressInput.assign])
  · intro hs
    cases hs with
    | done _ hend => exact h.read_exhausted hend
    | more hleft => omega

/-- **A buffered record** is delivered, and the others after it. -/
theorem Tracks.delivers_buffered_iff {record : List UInt8} (hsize : 0 < size)
    (h : Tracks size file content r p count (record :: records) (buffered + 1)) :
    Delivers size count (record :: records) r ↔
      Delivers size (count + 1) records { r with outputPos := r.outputPos + size } := by
  obtain ⟨_, _, hcons, hread, hnext⟩ := h.read_buffered hsize
  obtain ⟨rfl, rfl⟩ := List.cons.inj hcons
  rw [Delivers]
  constructor
  · rintro ⟨r', hr', -, hrest⟩
    obtain rfl : _ = r' := by simpa using hread.symm.trans hr'
    exact hrest
  · intro hrest
    refine ⟨_, hread, ?_, hrest⟩
    have hle := Nat.mul_le_mul_right size (show count + 1 ≤ count + (buffered + 1) by omega)
    have hproduced := h.produced
    have htotal := h.totalOut
    simp only
    omega

/-- A record is still to come. -/
theorem Tracks.produced_lt {record : List UInt8} (h : Tracks size file content r p count
    (record :: records) 0) : p.produced < content.length := by
  have hrest := congrArg List.length h.rest
  rw [List.length_drop, h.length_flatten, List.length_cons, Nat.add_mul] at hrest
  have hproduced := h.produced_eq
  have hleftover := h.out.leftover
  omega

/-- With an empty buffer, the next record is the one after those that were returned. -/
theorem Tracks.produced_div (hsize : 0 < size)
    (h : Tracks size file content r p count records 0) : p.produced / size = count := by
  rw [h.produced_eq, Nat.mul_comm, Nat.mul_add_div hsize, Nat.div_eq_of_lt h.out.leftover,
    Nat.add_zero]

/-- **A call that completes no record**: the reader returns one nevertheless. -/
theorem Tracks.not_delivers_of_zero {record : List UInt8} {r' : DecompressInput I}
    {p' : Progress I} (hread : r.read size = .ok (r'.assign size))
    (h : Tracks size file content r' p' count (record :: records) 0) :
    ¬Delivers size count (record :: records) r := by
  rintro ⟨q, hq, hdecoded, -⟩
  obtain ⟨-, rfl⟩ : _ ∧ { r' with outputPos := r'.outputPos + size } = q := by
    simpa [DecompressInput.assign] using hread.symm.trans hq
  have hproduced := h.produced_eq
  have hleftover := h.out.leftover
  have htotal := h.totalOut
  rw [Nat.add_mul] at hdecoded
  simp only at hdecoded
  omega

/-- **A call that completes records**: the reader returns the first one. -/
theorem Tracks.delivers_of_succ {record : List UInt8} {r' : DecompressInput I} {p' : Progress I}
    (hsize : 0 < size) (hread : r.read size = .ok (r'.assign size))
    (h : Tracks size file content r' p' count (record :: records) (buffered + 1)) :
    Delivers size count (record :: records) r ↔
      Delivers size (count + 1) records { r' with outputPos := r'.outputPos + size } := by
  have hlt : r'.outputPos < r'.outputSz := by
    have hpos : 0 < (buffered + 1) * size := Nat.mul_pos (Nat.succ_pos buffered) hsize
    rw [h.out.outputSz]
    omega
  rw [← h.delivers_buffered_iff hsize, Delivers, Delivers, hread, read_of_lt hlt]

/-- **The reader delivers the remaining records** exactly when the calls are smooth from here. -/
theorem Tracks.delivers_iff_smooth (hI : I.Decodes file content) (hsize : 0 < size)
    (h : Tracks size file content r p count records buffered) :
    Delivers size count records r ↔ Smooth size file content p := by
  -- the induction is on the records to come; a call of the decompressor belongs to the first one
  induction records generalizing r p count buffered with
  | nil =>
    cases buffered with
    | zero => exact h.delivers_nil_iff hI hsize
    | succ buffered =>
      obtain ⟨_, _, hc, -⟩ := h.read_buffered hsize
      cases hc
  | cons record records ih =>
    cases buffered with
    | succ buffered =>
      obtain ⟨_, _, hcons, -, hnext⟩ := h.read_buffered hsize
      obtain ⟨rfl, rfl⟩ := List.cons.inj hcons
      rw [← ih hnext, h.delivers_buffered_iff hsize]
    | zero =>
      have hcount := h.produced_div hsize
      have hleftover := h.out.leftover
      by_cases hend : p.Exhausted file
      · -- the reader returns false, with a record still to come
        have hleft := h.produced_lt
        constructor
        · rintro ⟨r', hr', -⟩
          exact absurd ((h.read_exhausted hend).symm.trans hr') (by simp)
        · intro hs
          cases hs with
          | done hall => omega
          | more _ hne => exact absurd hend hne
      rw [smooth_iff_next h.produced_lt hend, hcount]
      rcases h.read_refill hI hsize hend with ⟨e, he, hsame⟩ | ⟨r', b, hr', hnext⟩
      · -- the reader fails
        constructor
        · rintro ⟨r', hr', -⟩
          exact absurd (he.symm.trans hr') (by simp)
        · rintro ⟨hrecord, -⟩
          rw [hsame, h.produced_eq, Nat.add_mul] at hrecord
          omega
      cases b with
      | zero =>
        constructor
        · exact fun hdelivers => absurd hdelivers (hnext.not_delivers_of_zero hr')
        · rintro ⟨hrecord, -⟩
          have hproduced := hnext.produced_eq
          have hleftover' := hnext.out.leftover
          rw [Nat.add_mul] at hrecord
          omega
      | succ b =>
        obtain ⟨_, _, hcons, -, hrest⟩ := hnext.read_buffered hsize
        obtain ⟨rfl, rfl⟩ := List.cons.inj hcons
        have hfirst : (count + 1) * size ≤ (p.next size file).produced := by
          have hle := Nat.mul_le_mul_right size (show count + 1 ≤ count + (b + 1) by omega)
          have hproduced := hnext.produced
          omega
        rw [hnext.delivers_of_succ hsize hr', ih hrest]
        exact ⟨fun hs => ⟨hfirst, hs⟩, And.right⟩

end Tracks

/-! ## The records of a file -/

/-- **The reader returns the records** of a file exactly when the calls of `inflate` are smooth. -/
theorem delivers_iff {I : Inflater} {size : ℕ} (hsize : 0 < size) {records : List (List UInt8)}
    (hsizes : ∀ record ∈ records, record.length = size) {file : List UInt8}
    (hI : I.Decodes file records.flatten) (inputBuffer outputBuffer : Buffer) :
    Delivers size 0 records (DecompressInput.new I file inputBuffer outputBuffer) ↔
      Smooth size file records.flatten (Progress.start I) :=
  (tracks_new hsizes hsize inputBuffer outputBuffer).delivers_iff_smooth hI hsize

/-- A decompressor that produces the content in the call that consumes the end of the stream. -/
def atOnce (stream content : List UInt8) : Inflater :=
  .gated stream content fun _ consumed => consumed == stream.length

theorem atOnce_decodes (stream content : List UInt8) :
    (atOnce stream content).Decodes stream content := Inflater.gated_decodes (by simp)

/-- The records of one vertex, with the identifier `1`. -/
def oneRecord : List (List UInt8) := [[1, 0, 0, 0, 0, 0, 0, 0]]

/-- The compressed file of these records. -/
def oneVertex : List UInt8 := [120, 156, 99, 100, 128, 0, 0, 0, 16, 0, 2]

theorem delivers_oneVertex :
    Delivers 8 0 oneRecord
      (DecompressInput.new (atOnce oneVertex oneRecord.flatten) oneVertex Buffer.zero
        Buffer.zero) := by
  refine (delivers_iff (by norm_num) (by simp [oneRecord]) (atOnce_decodes _ _) _ _).mpr ?_
  -- one call consumes the file and produces the record
  have hnext : (Progress.start (atOnce oneVertex oneRecord.flatten)).next 8 oneVertex =
      ⟨(11, 8), 11, 8, true⟩ := by
    simp [Progress.next, Progress.call, Progress.start, atOnce, Inflater.gated, chunkEnd,
      bufferCapacity, oneVertex, oneRecord]
  refine .more ?_ ?_ ?_ ?_
  · simp [Progress.start, oneRecord]
  · rintro ⟨-, hshort⟩
    cases hshort
  · rw [hnext]
    simp [Progress.start]
  · rw [hnext]
    exact .done rfl ⟨rfl, rfl⟩

/-- The compressed file without vertices. -/
def noVertices : List UInt8 := [120, 156, 3, 0, 0, 0, 0, 1]

/-- The first call of `inflate` ends the stream without a record, and the reader returns one. -/
theorem not_delivers_noVertices :
    (atOnce noVertices []).Decodes noVertices [] ∧
      ¬Delivers 8 0 []
        (DecompressInput.new (atOnce noVertices []) noVertices Buffer.zero Buffer.zero) := by
  refine ⟨atOnce_decodes _ _, fun h => ?_⟩
  have hnew : Tracks 8 noVertices [] (DecompressInput.new (atOnce noVertices []) noVertices
      Buffer.zero Buffer.zero) (Progress.start _) 0 [] 0 :=
    tracks_new (fun record hrecord => absurd hrecord List.not_mem_nil) (by norm_num) _ _
  cases (hnew.delivers_iff_smooth (atOnce_decodes _ _) (by norm_num)).mp h with
  | done _ hend => cases hend.1
  | more hleft => exact absurd hleft (Nat.not_lt_zero 0)

end GraphalyticsZlib

end GfeDriver
