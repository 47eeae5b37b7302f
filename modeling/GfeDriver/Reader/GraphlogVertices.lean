import GfeDriver.Foundation.FileStream
import GfeDriver.Foundation.Inflate
import GfeDriver.Foundation.Loop

/-!
# The vertices of a graphlog file

`VertexLoader` decompresses a section of vertices into the arrays that its caller passes. A call of
`load` repeats `inflate` until a word is complete or the stream has ended. The bytes of an
incomplete word are kept in `m_output_leftover`, and start the array of the next call.

The input is refilled from the file, `2^20` bytes at a time. When such a read comes short, the
number of bytes read is computed from `tellg`, which answers `-1` then: `inflate` is offered
`2^32 - 1 - 2^20` bytes, most of which are behind the buffer. The section ends in the bytes that
were read, so its content is right, but the number of bytes offered is not. The space for output is
truncated to 32 bits too: with an array of `2^29` words or more, words are counted that were not
decompressed.

## Main definitions

* `VertexLoader`, `VertexLoader.load`, `VertexReader`, `VertexReader.readVertex`: the loader and the
  reader on top of it
* `Loads`, `Enumerates`, `LoadsSection`: the calls return the vertices of the section

## Main results

* `Clean.body`: an iteration of `load`, while no read comes short
* `loadsSection_iff`: the sections that are loaded as they should
-/

namespace GfeDriver

namespace Graphlog

open Foundation

/-! ## The loader -/

/-- `m_input_stream_sz`. -/
def inputStreamSz : ℕ := 2 ^ 20

/-- A refill of the input: the bytes read from the file, and those offered to `inflate`. -/
structure Refill where
  read : ℕ
  offered : ℕ

/-- `VertexLoader`, with a record of its refills and of the number of bytes decompressed. -/
structure VertexLoader (I : Inflater) where
  handle : FileStream
  inputStream : Buffer
  inputStreamPos : ℤ
  zstream : Option (ZStream I)
  outputLeftover : UInt64
  outputLeftoverSz : ℕ
  refills : List Refill
  produced : ℕ

namespace VertexLoader

variable {I : Inflater}

/-- The constructor. The input buffer is not initialised. -/
def new (I : Inflater) (handle : FileStream) (inputStream : Buffer) : VertexLoader I :=
  ⟨handle, inputStream, handle.tellg, some (ZStream.init I), 0, 0, [], 0⟩

/-- The first part of an iteration of `load`, when no input is left. The numbers are `uint64_t`,
`avail_in` has 32 bits and the position of the file is signed. -/
def refill (l : VertexLoader I) (z : ZStream I) : VertexLoader I × ZStream I :=
  let handle := l.handle.seekp l.inputStreamPos
  let bytes := handle.nextBytes inputStreamSz
  let handle := handle.read inputStreamSz
  let dataRead : ℕ :=
    if handle.eof then ((handle.tellg - inputStreamSz) % 2 ^ 64).toNat else inputStreamSz
  ({ l with
      handle := handle
      inputStream := l.inputStream.write 0 bytes
      inputStreamPos := l.inputStreamPos + (dataRead : ℤ).bmod (2 ^ 64)
      refills := l.refills ++ [⟨bytes.length, dataRead % 2 ^ 32⟩] },
    { z with nextIn := 0, availIn := dataRead % 2 ^ 32 })

/-- The variables of `load`. -/
structure LoadState (I : Inflater) where
  loader : VertexLoader I
  stream : ZStream I
  array : Buffer
  numElementsLoaded : ℕ
  depleted : Bool

/-- The second part of an iteration of `load`. A failure of `inflate` raises an error. -/
def decompress (arraySz : ℕ) (l : VertexLoader I) (z : ZStream I) (array : Buffer) :
    Option (LoadState I) :=
  let array := array.storeWord 0 l.outputLeftover
  let outputBufferSz := arraySz * 8 - l.outputLeftoverSz
  let availOut := outputBufferSz % 2 ^ 32
  let rc := z.call l.inputStream availOut
  if rc.code ≠ .ok ∧ rc.code ≠ .streamEnd then none
  else
    let array := array.write l.outputLeftoverSz rc.output
    let dataProcessed := l.outputLeftoverSz + (outputBufferSz - (availOut - rc.output.length))
    let numElementsLoaded := dataProcessed / 8
    let leftoverSz := dataProcessed % 8
    some {
      loader := { l with
        outputLeftoverSz := leftoverSz
        outputLeftover :=
          if leftoverSz > 0 then array.loadWord (8 * numElementsLoaded) else l.outputLeftover
        produced := l.produced + rc.output.length }
      stream := z.after rc
      array := array
      numElementsLoaded := numElementsLoaded
      depleted := rc.code = .streamEnd }

/-- The input is refilled when nothing is left of it. -/
def fill (l : VertexLoader I) (z : ZStream I) : VertexLoader I × ZStream I :=
  if z.availIn = 0 then l.refill z else (l, z)

/-- An iteration of `load`. -/
def loadBody (arraySz : ℕ) (s : LoadState I) : Option (LoadState I) :=
  decompress arraySz (s.loader.fill s.stream).1 (s.loader.fill s.stream).2 s.array

/-- The condition of the loop of `load`. -/
def loadCond (s : LoadState I) : Bool := s.numElementsLoaded == 0 && !s.depleted

/-- `load`, for an array with the content `array`: the number of elements, the array after the call
and the loader. -/
def load (fuel : ℕ) (l : VertexLoader I) (array : Buffer) (arraySz : ℕ) :
    Option (ℕ × Buffer × VertexLoader I) :=
  match l.zstream with
  | none => some (0, array, l)
  | some z =>
    if arraySz = 0 then some (0, array, l)
    else do
      let s ← doWhile loadCond (loadBody arraySz) fuel ⟨l, z, array, 0, false⟩
      some (s.numElementsLoaded, s.array,
        { s.loader with zstream := if s.depleted then none else some s.stream })

end VertexLoader

/-- `VertexReader`. -/
structure VertexReader (I : Inflater) where
  loader : VertexLoader I
  bufferSize : ℕ
  buffer : Buffer
  position : ℕ

namespace VertexReader

variable {I : Inflater}

/-- `m_buffer_capacity`. -/
def bufferCapacity : ℕ := 2 ^ 20

/-- The constructor. The buffer is not initialised. -/
def new (loader : VertexLoader I) (buffer : Buffer) : VertexReader I := ⟨loader, 0, buffer, 0⟩

/-- The last part of `read_vertex`. -/
def take (r : VertexReader I) : Option UInt64 × VertexReader I :=
  (some (r.buffer.loadWord (8 * r.position)), { r with position := r.position + 1 })

/-- `read_vertex`. -/
def readVertex (fuel : ℕ) (r : VertexReader I) : Option (Option UInt64 × VertexReader I) :=
  if r.position ≥ r.bufferSize then
    (r.loader.load fuel r.buffer bufferCapacity).bind fun (num, buffer, loader) =>
      let r : VertexReader I := ⟨loader, num, buffer, 0⟩
      if num = 0 then some (none, r) else some r.take
  else some r.take

end VertexReader

/-! ## The vertices of a section -/

section Section

variable {I : Inflater}

/-- The refills offer to `inflate` the bytes that were read. -/
def VertexLoader.Honest (l : VertexLoader I) : Prop := ∀ r ∈ l.refills, r.offered = r.read

/-- The calls of `load` with arrays of these sizes return the vertices `vs`, each after it was
decompressed, and zero only after the last one; `count` vertices were loaded before. -/
def Loads : List ℕ → ℕ → List UInt64 → VertexLoader I → Prop
  | [], _, _, _ => True
  | arraySz :: sizes, count, vs, l => ∀ array : Buffer, ∃ fuel num array' l',
    l.load fuel array arraySz = some (num, array', l') ∧ array'.words 0 num <+: vs ∧
      (num = 0 → vs = []) ∧ 8 * (count + num) ≤ l'.produced ∧ l'.Honest ∧
      Loads sizes (count + num) (vs.drop num) l'

/-- The calls of `read_vertex` return the vertices `vs`, and then false. -/
def Enumerates : List UInt64 → VertexReader I → Prop
  | [], r => ∃ fuel r', r.readVertex fuel = some (none, r') ∧ r'.loader.Honest
  | v :: vs, r => ∃ fuel r', r.readVertex fuel = some (some v, r') ∧ r'.loader.Honest ∧
    Enumerates vs r'

/-- **A section is loaded**: whatever the decompressor does, the calls of `load` with arrays of
these sizes return its vertices, and so do the calls of `read_vertex`. -/
def LoadsSection (file : List UInt8) (start : ℕ) (stream : List UInt8) (vs : List UInt64)
    (sizes : List ℕ) : Prop :=
  ∀ I : Inflater, I.Decodes stream (Buffer.wordBytes vs) → ∀ inputStream : Buffer,
    Loads sizes 0 vs (VertexLoader.new I (FileStream.openAt file start) inputStream) ∧
      ∀ buffer : Buffer, Enumerates vs
        (.new (VertexLoader.new I (FileStream.openAt file start) inputStream) buffer)

/-- The number of reads that a section takes at most: one for each started chunk, and one more when
the last byte of the stream ends a chunk while there is output to come. -/
def numChunks (stream : List UInt8) (vs : List UInt64) : ℕ :=
  (stream.length - if vs = [] then 1 else 0) / inputStreamSz + 1

end Section

/-! ## An iteration -/

section Iteration

variable {I : Inflater} {file : List UInt8} {start : ℕ} {stream : List UInt8} {vs : List UInt64}

/-- **No read came short so far**: `consumed` and `produced` are the bytes of the stream and of its
content, and `count` vertices are complete. -/
structure Clean (file : List UInt8) (start : ℕ) (stream : List UInt8) (vs : List UInt64)
    (l : VertexLoader I) (z : ZStream I) (consumed produced count : ℕ) : Prop where
  reads : z.Reads l.inputStream stream consumed produced
  content : l.handle.content = file
  good : l.handle.good = true
  pos : l.inputStreamPos = ((start + consumed + z.availIn : ℕ) : ℤ)
  chunks : consumed + z.availIn = inputStreamSz * l.refills.length
  within : start + inputStreamSz * l.refills.length ≤ file.length
  honest : l.Honest
  produced_eq : l.produced = produced
  leftover_lt : l.outputLeftoverSz < 8
  leftoverSz : produced = 8 * count + l.outputLeftoverSz
  leftover : (leBytes 8 l.outputLeftover.toNat).take l.outputLeftoverSz <+:
    Buffer.wordBytes (vs.drop count)

variable {l : VertexLoader I} {z : ZStream I} {consumed produced count : ℕ}

theorem clean_new (stream : List UInt8) (vs : List UInt64) (hstart : start ≤ file.length)
    (inputStream : Buffer) :
    Clean file start stream vs (VertexLoader.new I (FileStream.openAt file start) inputStream)
      (ZStream.init I) 0 0 0 := by
  refine ⟨ZStream.reads_init I inputStream stream, rfl, rfl, ?_, rfl, ?_, ?_, rfl, ?_, rfl, ?_⟩
  · simp [VertexLoader.new, FileStream.tellg, FileStream.openAt, ZStream.init]
  · simpa [VertexLoader.new] using hstart
  · simp [VertexLoader.Honest, VertexLoader.new]
  · simp [VertexLoader.new]
  · simp [VertexLoader.new]

/-- Bytes that a refill stores at the front of the input agree with the stream. -/
theorem Clean.agrees_write (hfile : stream <+: file.drop start) (consumed : ℕ) (input : Buffer) :
    Agrees stream consumed
      ((input.write 0 ((file.drop (start + consumed)).take inputStreamSz)).read 0
        ((file.drop (start + consumed)).take inputStreamSz).length) := by
  rw [Buffer.read_write]
  exact agrees_take hfile inputStreamSz

/-- A refill that reads a whole chunk, and one that comes short. -/
theorem Clean.refill (h : Clean file start stream vs l z consumed produced count)
    (hfile : stream <+: file.drop start) (havail : z.availIn = 0) :
    (start + inputStreamSz * (l.refills.length + 1) ≤ file.length ∧
      Clean file start stream vs (l.refill z).1 (l.refill z).2 consumed produced count ∧
      0 < (l.refill z).2.availIn) ∨
    (file.length < start + inputStreamSz * (l.refills.length + 1) ∧ ¬(l.refill z).1.Honest) := by
  obtain ⟨heofbit, hfail⟩ := FileStream.good_iff.mp h.good
  have hchunks : consumed = inputStreamSz * l.refills.length := by
    have := h.chunks
    omega
  have hrefills : inputStreamSz * (l.refills.length + 1) = consumed + inputStreamSz := by
    rw [hchunks, Nat.mul_add, Nat.mul_one]
  -- the position is where the stream goes on
  obtain ⟨f, hf⟩ : ∃ f, f = FileStream.openAt file (start + consumed) := ⟨_, rfl⟩
  have hseek : l.handle.seekp l.inputStreamPos = f := by
    rw [FileStream.seekp, hfail, h.pos, havail, Nat.add_zero, if_neg (by simp),
      if_neg (by omega), Int.toNat_natCast, h.content, heofbit, hf, FileStream.openAt]
  have hgood : f.good = true := by rw [hf]; rfl
  have hbytes : f.nextBytes inputStreamSz = (file.drop (start + consumed)).take inputStreamSz := by
    rw [FileStream.nextBytes_of_good hgood, hf]
    rfl
  have hlen : (f.nextBytes inputStreamSz).length =
      min inputStreamSz (file.length - (start + consumed)) := by
    rw [hbytes, List.length_take, List.length_drop]
  obtain ⟨heof, hfailed⟩ := FileStream.flags_read (n := inputStreamSz) hgood
  by_cases hle : start + inputStreamSz * (l.refills.length + 1) ≤ file.length
  · refine Or.inl ⟨hle, ?_⟩
    have hfull : (f.nextBytes inputStreamSz).length = inputStreamSz := by omega
    have hnot : (f.read inputStreamSz).eof = false := by
      rw [FileStream.eof, heof, hfull]
      exact decide_eq_false (Nat.lt_irrefl _)
    have hrefill : l.refill z = (
        { l with
          handle := f.read inputStreamSz
          inputStream := l.inputStream.write 0 (f.nextBytes inputStreamSz)
          inputStreamPos := l.inputStreamPos + inputStreamSz
          refills := l.refills ++ [⟨inputStreamSz, inputStreamSz⟩] },
        { z with nextIn := 0, availIn := inputStreamSz }) := by
      simp only [VertexLoader.refill, hseek, hnot, Bool.false_eq_true, if_false, hfull]
      rfl
    rw [hrefill]
    refine ⟨⟨⟨h.reads.at_state, ?_, h.reads.totalOut⟩, ?_, ?_, ?_, ?_, ?_, ?_, h.produced_eq,
      h.leftover_lt, h.leftoverSz, h.leftover⟩, by norm_num [inputStreamSz]⟩
    · -- the buffer holds the next chunk of the file
      have hagrees := Clean.agrees_write hfile consumed l.inputStream
      rwa [← hbytes, hfull] at hagrees
    · rw [FileStream.content_read, hf]
      rfl
    · exact (FileStream.good_read_iff hgood).mpr hfull
    · rw [h.pos, havail]
      push_cast
      ring
    · rw [List.length_append, List.length_singleton, hrefills]
    · rwa [List.length_append, List.length_singleton]
    · intro r hr
      rcases List.mem_append.mp hr with hr | hr
      · exact h.honest r hr
      · rw [List.mem_singleton.mp hr]
  · refine Or.inr ⟨by omega, ?_⟩
    have hshort : (f.nextBytes inputStreamSz).length < inputStreamSz := by
      have : 0 < inputStreamSz := by norm_num [inputStreamSz]
      omega
    have hyes : (f.read inputStreamSz).eof = true := by
      rw [FileStream.eof, heof]
      exact decide_eq_true hshort
    have htell : (f.read inputStreamSz).tellg = -1 := by
      rw [FileStream.tellg, hfailed, if_pos (decide_eq_true hshort)]
    simp only [VertexLoader.refill, hseek, hyes, if_true, htell]
    intro hhonest
    have := hhonest _ (List.mem_append_right _ List.mem_cons_self)
    norm_num [inputStreamSz] at this hshort
    omega

/-- With its input filled, a loader has read whole chunks only, or has offered bytes that it did
not read. -/
theorem Clean.fill (h : Clean file start stream vs l z consumed produced count)
    (hfile : stream <+: file.drop start) :
    (Clean file start stream vs (l.fill z).1 (l.fill z).2 consumed produced count ∧
      0 < (l.fill z).2.availIn) ∨
    (consumed = inputStreamSz * l.refills.length ∧
      file.length < start + inputStreamSz * (l.refills.length + 1) ∧ ¬(l.fill z).1.Honest) := by
  by_cases havail : z.availIn = 0
  · rw [VertexLoader.fill, if_pos havail]
    rcases h.refill hfile havail with ⟨-, hclean⟩ | hshort
    · exact Or.inl hclean
    · exact Or.inr ⟨by rw [← h.chunks, havail, Nat.add_zero], hshort⟩
  · rw [VertexLoader.fill, if_neg havail]
    exact Or.inl ⟨h, Nat.pos_of_ne_zero havail⟩

/-- The leftover and the output of a call are the next bytes of the vertices. -/
theorem Clean.leftover_append (h : Clean file start stream vs l z consumed produced count)
    {output : List UInt8} (hout : output <+: (Buffer.wordBytes vs).drop produced) :
    (leBytes 8 l.outputLeftover.toNat).take l.outputLeftoverSz ++ output <+:
      Buffer.wordBytes (vs.drop count) := by
  obtain ⟨t, ht⟩ := h.leftover
  have hlen : ((leBytes 8 l.outputLeftover.toNat).take l.outputLeftoverSz).length =
      l.outputLeftoverSz := by
    have := h.leftover_lt
    rw [List.length_take, length_leBytes]
    omega
  have hdrop : (Buffer.wordBytes vs).drop produced = t := by
    rw [h.leftoverSz, ← List.drop_drop, ← Buffer.wordBytes_drop, ← ht, List.drop_left' hlen]
  rw [← ht, List.prefix_append_right_inj, ← hdrop]
  exact hout

/-- The bytes at the front of the array after a call. -/
theorem Clean.read_array (h : Clean file start stream vs l z consumed produced count)
    (array : Buffer) {output : List UInt8}
    (hout : output <+: (Buffer.wordBytes vs).drop produced) :
    ((array.storeWord 0 l.outputLeftover).write l.outputLeftoverSz output).read 0
      (l.outputLeftoverSz + output.length) <+: Buffer.wordBytes (vs.drop count) := by
  have hfirst : ((array.storeWord 0 l.outputLeftover).write l.outputLeftoverSz output).read 0
      l.outputLeftoverSz = (leBytes 8 l.outputLeftover.toNat).take l.outputLeftoverSz := by
    have hread := Buffer.read_write array 0 (leBytes 8 l.outputLeftover.toNat)
    rw [length_leBytes] at hread
    rw [Buffer.read_write_of_disjoint (Or.inl (by omega)), Buffer.storeWord, ← hread,
      Buffer.take_read h.leftover_lt.le, hread]
  rw [Buffer.read_append, hfirst, Nat.zero_add, Buffer.read_write]
  exact h.leftover_append hout

/-- **An iteration decompresses** the next vertices, when the space for output fits in 32 bits. -/
theorem Clean.decompress (h : Clean file start stream vs l z consumed produced count)
    (hI : I.Decodes stream (Buffer.wordBytes vs)) {arraySz : ℕ} (hpos : 0 < arraySz)
    (hlt : arraySz < 2 ^ 29) (havail : 0 < z.availIn) (array : Buffer) {rc : Inflated I.State}
    (hrc : rc = z.call l.inputStream (arraySz * 8 - l.outputLeftoverSz)) :
    ∃ s, VertexLoader.decompress arraySz l z array = some s ∧
      Clean file start stream vs s.loader s.stream (consumed + rc.consumed)
        (produced + rc.output.length) (count + s.numElementsLoaded) ∧
      s.array.words 0 s.numElementsLoaded <+: vs.drop count ∧
      s.loader.refills = l.refills ∧
      (s.depleted = true ↔ consumed + rc.consumed = stream.length ∧
        produced + rc.output.length = 8 * vs.length) ∧
      (s.depleted = false → 0 < rc.consumed + rc.output.length) := by
  have hspace : arraySz * 8 - l.outputLeftoverSz < 2 ^ 32 := by omega
  have hroom : 0 < arraySz * 8 - l.outputLeftoverSz := by
    have := h.leftover_lt
    omega
  obtain ⟨hstep, hreads⟩ := h.reads.inflate hI (arraySz * 8 - l.outputLeftoverSz)
  rw [← hrc] at hstep hreads
  have hcode : rc.code ≠ .bufError := hstep.progress hroom (Or.inl havail)
  have hgoes : ¬(rc.code ≠ .ok ∧ rc.code ≠ .streamEnd) := by
    rintro ⟨hok, hend⟩
    cases hc : rc.code <;> simp_all
  have hread := h.read_array array hstep.isPrefix
  -- the bytes at the front of the array are the complete words and the next leftover
  have hprocessed : l.outputLeftoverSz + (arraySz * 8 - l.outputLeftoverSz -
      (arraySz * 8 - l.outputLeftoverSz - rc.output.length)) =
        l.outputLeftoverSz + rc.output.length := by
    have := hstep.output_le
    omega
  set n := l.outputLeftoverSz + rc.output.length with hn
  have hsplit : n = 8 * (n / 8) + n % 8 := (Nat.div_add_mod n 8).symm
  set array' := (array.storeWord 0 l.outputLeftover).write l.outputLeftoverSz rc.output
  rw [hsplit, Buffer.read_append, Nat.zero_add] at hread
  have hdec : VertexLoader.decompress arraySz l z array = some {
      loader := { l with
        outputLeftoverSz := n % 8
        outputLeftover := if n % 8 > 0 then array'.loadWord (8 * (n / 8)) else l.outputLeftover
        produced := l.produced + rc.output.length }
      stream := z.after rc
      array := array'
      numElementsLoaded := n / 8
      depleted := rc.code = .streamEnd } := by
    rw [VertexLoader.decompress]
    simp only [Nat.mod_eq_of_lt hspace, ← hrc, if_neg hgoes, hprocessed]
    rfl
  refine ⟨_, hdec, ⟨hreads, h.content, h.good, ?_, ?_, h.within, h.honest, ?_,
    Nat.mod_lt _ (by omega),
    ?_, ?_⟩, ?_, rfl, ?_, ?_⟩
  · have := hstep.consumed_le
    simp only [h.pos, ZStream.after]
    congr 1
    omega
  · have := hstep.consumed_le
    have := h.chunks
    simp only [ZStream.after]
    omega
  · simp only [h.produced_eq]
  · have := h.leftoverSz
    simp only
    omega
  · -- the next leftover was stored behind the complete words
    obtain ⟨t, ht⟩ := hread
    have hrest : Buffer.wordBytes (vs.drop (count + n / 8)) =
        array'.read (8 * (n / 8)) (n % 8) ++ t := by
      rw [← List.drop_drop, Buffer.wordBytes_drop, ← ht, List.append_assoc,
        List.drop_left' (Buffer.length_read _ _ _)]
    have hmod : n % 8 < 8 := Nat.mod_lt _ (by omega)
    simp only [hrest]
    by_cases hzero : n % 8 > 0
    · rw [if_pos hzero, Buffer.leBytes_loadWord, Buffer.take_read hmod.le]
      exact List.prefix_append _ _
    · rw [Nat.eq_zero_of_not_pos hzero, List.take_zero]
      exact List.nil_prefix
  · exact Buffer.words_isPrefix ((List.prefix_append _ _).trans hread)
  · rw [decide_eq_true_iff, hstep.streamEnd_iff, Buffer.length_wordBytes]
  · intro hmore
    by_contra hstuck
    have hnone : rc.output = [] := List.eq_nil_of_length_eq_zero (by omega)
    exact hcode (hstep.bufError_iff.mpr ⟨of_decide_eq_false hmore, by omega, hnone⟩)

end Iteration

/-! ## The calls, when no read comes short -/

section Long

variable {I : Inflater} {file : List UInt8} {start : ℕ} {stream : List UInt8} {vs : List UInt64}
  {l : VertexLoader I} {z : ZStream I} {consumed produced count : ℕ}

/-- The stream is consumed and its vertices are produced. -/
def Ended (stream : List UInt8) (vs : List UInt64) (consumed produced : ℕ) : Prop :=
  consumed = stream.length ∧ produced = 8 * vs.length

/-- Until the stream has ended, no read of a long enough file comes short. -/
theorem Clean.refills_lt (h : Clean file start stream vs l z consumed produced count)
    (hI : I.Decodes stream (Buffer.wordBytes vs)) (hend : ¬Ended stream vs consumed produced)
    (hchunk : consumed = inputStreamSz * l.refills.length) :
    l.refills.length < numChunks stream vs := by
  have hsz : 0 < inputStreamSz := by norm_num [inputStreamSz]
  obtain ⟨hconsumed, hproduced⟩ := h.reads.at_state.le hI
  rw [Buffer.length_wordBytes] at hproduced
  rw [numChunks, Nat.lt_succ_iff, Nat.le_div_iff_mul_le hsz, Nat.mul_comm, ← hchunk]
  split_ifs with hvs
  · -- without vertices, the stream ends with its last byte
    subst hvs
    have hne : consumed ≠ stream.length := fun hc => hend ⟨hc, Nat.le_antisymm hproduced (by simp)⟩
    omega
  · exact hconsumed

/-- **Between two calls**: the stream has ended with the last vertex, or the next call goes on
with it. -/
def Between (file : List UInt8) (start : ℕ) (stream : List UInt8) (vs : List UInt64)
    (l : VertexLoader I) (count : ℕ) : Prop :=
  l.Honest ∧ 8 * count ≤ l.produced ∧ match l.zstream with
    | none => count = vs.length
    | some z => ∃ consumed produced, Clean file start stream vs l z consumed produced count ∧
      ¬Ended stream vs consumed produced

/-- The state of `load` after an iteration. -/
structure Loading (file : List UInt8) (start : ℕ) (stream : List UInt8) (vs : List UInt64)
    (count : ℕ) (s : VertexLoader.LoadState I) (consumed produced : ℕ) : Prop where
  clean : Clean file start stream vs s.loader s.stream consumed produced
    (count + s.numElementsLoaded)
  words : s.array.words 0 s.numElementsLoaded <+: vs.drop count
  depleted_iff : s.depleted = true ↔ Ended stream vs consumed produced

/-- What is still to be consumed and to be produced. -/
def remaining (stream : List UInt8) (vs : List UInt64) (s : VertexLoader.LoadState I) : ℕ :=
  (stream.length - (inputStreamSz * s.loader.refills.length - s.stream.availIn)) +
    (8 * vs.length - s.loader.produced)

theorem Loading.remaining_eq {s : VertexLoader.LoadState I}
    (h : Loading file start stream vs count s consumed produced) :
    remaining stream vs s = (stream.length - consumed) + (8 * vs.length - produced) := by
  rw [remaining, ← h.clean.chunks, h.clean.produced_eq, Nat.add_sub_cancel]

/-- **An iteration**, until the stream has ended or a vertex is complete. -/
theorem Loading.body {s : VertexLoader.LoadState I}
    (h : Loading file start stream vs count s consumed produced)
    (hI : I.Decodes stream (Buffer.wordBytes vs)) (hfile : stream <+: file.drop start)
    (hlong : start + inputStreamSz * numChunks stream vs ≤ file.length) {arraySz : ℕ}
    (hpos : 0 < arraySz) (hlt : arraySz < 2 ^ 29) (hcond : VertexLoader.loadCond s = true) :
    ∃ s' consumed' produced', VertexLoader.loadBody arraySz s = some s' ∧
      Loading file start stream vs count s' consumed' produced' ∧
      remaining stream vs s' < remaining stream vs s := by
  obtain ⟨hnum, hmore⟩ : s.numElementsLoaded = 0 ∧ s.depleted = false := by
    simpa [VertexLoader.loadCond] using hcond
  have hclean := h.clean
  rw [hnum, Nat.add_zero] at hclean
  have hend : ¬Ended stream vs consumed produced := by
    rw [← h.depleted_iff, hmore]
    exact Bool.false_ne_true
  -- the read does not come short, so there is input
  rcases hclean.fill hfile with ⟨hfilled, havail⟩ | ⟨hchunk, hshort, -⟩
  · obtain ⟨s', hs', hclean', hwords, -, hdepleted, hprogress⟩ :=
      hfilled.decompress hI hpos hlt havail s.array rfl
    have h' : Loading file start stream vs count s' _ _ := ⟨hclean', hwords, hdepleted⟩
    refine ⟨s', _, _, hs', h', ?_⟩
    rw [h.remaining_eq, h'.remaining_eq]
    obtain ⟨hle, hle'⟩ := hclean'.reads.at_state.le hI
    rw [Buffer.length_wordBytes] at hle'
    cases hd : s'.depleted with
    | false =>
      have := hprogress hd
      omega
    | true =>
      obtain ⟨hall, hall'⟩ := hdepleted.mp hd
      have : ¬(consumed = stream.length ∧ produced = 8 * vs.length) := hend
      omega
  · have hcount := hclean.refills_lt hI hend hchunk
    have := Nat.mul_le_mul_left inputStreamSz (Nat.succ_le_of_lt hcount)
    simp only [Nat.succ_eq_add_one] at this
    omega

/-- The handle of the decompressor is no part of the state of the stream. -/
theorem Clean.setZstream (h : Clean file start stream vs l z consumed produced count)
    (o : Option (ZStream I)) :
    Clean file start stream vs { l with zstream := o } z consumed produced count :=
  ⟨h.reads, h.content, h.good, h.pos, h.chunks, h.within, h.honest, h.produced_eq, h.leftover_lt,
    h.leftoverSz, h.leftover⟩

theorem between_new (vs : List UInt64) (hstart : start ≤ file.length) (hstream : stream ≠ [])
    (inputStream : Buffer) :
    Between file start stream vs (VertexLoader.new I (FileStream.openAt file start) inputStream)
      0 := by
  have hnew := clean_new (I := I) stream vs hstart inputStream
  refine ⟨hnew.honest, Nat.zero_le _, 0, 0, hnew, fun hend => hstream ?_⟩
  exact List.eq_nil_of_length_eq_zero hend.1.symm

/-- The loader after the loop of `load`. -/
theorem Loading.between {s : VertexLoader.LoadState I}
    (h : Loading file start stream vs count s consumed produced) :
    Between file start stream vs
      { s.loader with zstream := if s.depleted then none else some s.stream }
      (count + s.numElementsLoaded) := by
  have hproduced := h.clean.leftoverSz
  refine ⟨h.clean.honest, ?_, ?_⟩
  · simp only [h.clean.produced_eq]
    omega
  · cases hd : s.depleted with
    | true =>
      obtain ⟨-, hall⟩ := h.depleted_iff.mp hd
      have := h.clean.leftover_lt
      simp only [if_true]
      omega
    | false =>
      refine ⟨consumed, produced, h.clean.setZstream _, ?_⟩
      rw [← h.depleted_iff, hd]
      exact Bool.false_ne_true

/-- **A call of load** returns the next vertices, and zero only when the stream has ended. -/
theorem Between.load (h : Between file start stream vs l count)
    (hI : I.Decodes stream (Buffer.wordBytes vs)) (hfile : stream <+: file.drop start)
    (hlong : start + inputStreamSz * numChunks stream vs ≤ file.length) (arraySz : ℕ)
    (hpos : 0 < arraySz) (hlt : count ≤ vs.length → arraySz < 2 ^ 29 ∨ l.zstream = none)
    (array : Buffer) :
    ∃ fuel num array' l', l.load fuel array arraySz = some (num, array', l') ∧
      array'.words 0 num <+: vs.drop count ∧ Between file start stream vs l' (count + num) ∧
      (num = 0 → l'.zstream = none) := by
  cases hz : l.zstream with
  | none =>
    refine ⟨0, 0, array, l, ?_, List.nil_prefix, h, fun _ => hz⟩
    rw [VertexLoader.load, hz]
  | some z =>
    obtain ⟨-, -, hgoes⟩ := h
    rw [hz] at hgoes
    obtain ⟨consumed, produced, hclean, hend⟩ := hgoes
    have hproduced := (hclean.reads.at_state.le hI).2
    rw [Buffer.length_wordBytes, hclean.leftoverSz] at hproduced
    have hlt : arraySz < 2 ^ 29 := (hlt (by omega)).resolve_right (by simp [hz])
    -- the first iteration, and the loop after it
    have hinit : Loading file start stream vs count ⟨l, z, array, 0, false⟩ consumed produced :=
      ⟨hclean, List.nil_prefix, ⟨fun hc => Bool.noConfusion hc, fun hc => absurd hc hend⟩⟩
    obtain ⟨s₁, c₁, p₁, hs₁, h₁, -⟩ := hinit.body hI hfile hlong hpos hlt rfl
    obtain ⟨s, hs, ⟨c, p, hload⟩, hcond⟩ := whileLoop_total
      (fun s => ∃ c p, Loading file start stream vs count s c p) (remaining stream vs)
      (fun s ⟨c, p, hs⟩ hc => by
        obtain ⟨s', c', p', hbody, hs', hm⟩ := hs.body hI hfile hlong hpos hlt hc
        exact ⟨s', hbody, ⟨c', p', hs'⟩, hm⟩)
      (remaining stream vs s₁ + 1) s₁ ⟨c₁, p₁, h₁⟩ (Nat.lt_succ_self _)
    refine ⟨remaining stream vs s₁ + 1, _, _, _, ?_, hload.words, hload.between, fun hnum => ?_⟩
    · rw [VertexLoader.load, hz]
      simp only [if_neg (Nat.pos_iff_ne_zero.mp hpos), doWhile, hs₁, Option.bind_some, hs,
        Option.bind_eq_bind]
    · have hd : s.depleted = true := by simpa [VertexLoader.loadCond, hnum] using hcond
      simp [hd]

/-- **The calls of load** return the vertices in order. -/
theorem Between.loads (hI : I.Decodes stream (Buffer.wordBytes vs))
    (hfile : stream <+: file.drop start)
    (hlong : start + inputStreamSz * numChunks stream vs ≤ file.length) {sizes : List ℕ}
    (hpos : ∀ n ∈ sizes, 0 < n) (h : Between file start stream vs l count)
    (hlt : l.zstream = none ∨
      ∀ j n, sizes[j]? = some n → count + j ≤ vs.length → n < 2 ^ 29) :
    Loads sizes count (vs.drop count) l := by
  induction sizes generalizing l count with
  | nil => trivial
  | cons n sizes ih =>
    intro array
    have hn : count ≤ vs.length → n < 2 ^ 29 ∨ l.zstream = none := fun hle =>
      hlt.elim Or.inr fun hsmall => Or.inl (hsmall 0 n rfl hle)
    obtain ⟨fuel, num, array', l', hload, hwords, hnext, hzero⟩ :=
      h.load hI hfile hlong n (hpos n List.mem_cons_self) hn array
    refine ⟨fuel, num, array', l', hload, hwords, fun hnum => ?_, hnext.2.1, hnext.1, ?_⟩
    · -- the stream has ended, with the last vertex
      obtain ⟨-, -, hall⟩ := hnext
      rw [hzero hnum] at hall
      simp only [hnum, Nat.add_zero] at hall
      rw [hall, List.drop_length]
    · rw [List.drop_drop]
      refine ih (fun m hm => hpos m (List.mem_cons_of_mem _ hm)) hnext ?_
      rcases Nat.eq_zero_or_pos num with hnum | hnum
      · exact Or.inl (hzero hnum)
      · rcases hlt with hnone | hsmall
        · have hsame : l.load fuel array n = some (0, array, l) := by
            rw [VertexLoader.load, hnone]
          rw [hsame] at hload
          cases hload
          exact absurd hnum (Nat.lt_irrefl 0)
        · exact Or.inr fun j m hj hle => hsmall (j + 1) m hj (by omega)

/-- The reader holds the next vertices in its buffer. -/
structure Holds (file : List UInt8) (start : ℕ) (stream : List UInt8) (vs : List UInt64)
    (r : VertexReader I) (count buffered : ℕ) : Prop where
  loader : Between file start stream vs r.loader (count + buffered)
  size : r.bufferSize = r.position + buffered
  words : r.buffer.words (8 * r.position) buffered <+: vs.drop count

theorem VertexReader.readVertex_of_lt {r : VertexReader I} (fuel : ℕ)
    (h : r.position < r.bufferSize) : r.readVertex fuel = some r.take :=
  if_neg (Nat.not_le.mpr h)

/-- Without a buffered vertex, the loader is called. -/
theorem VertexReader.load_of_readVertex {r r' : VertexReader I} {fuel : ℕ} {o : Option UInt64}
    (h : r.bufferSize ≤ r.position) (hread : r.readVertex fuel = some (o, r')) :
    ∃ num buffer, r.loader.load fuel r.buffer bufferCapacity = some (num, buffer, r'.loader) ∧
      (o = none ↔ num = 0) := by
  rw [readVertex, if_pos h] at hread
  obtain ⟨⟨num, buffer, l'⟩, hload, hret⟩ := Option.bind_eq_some_iff.mp hread
  dsimp only at hret
  split_ifs at hret with hnum
  · obtain ⟨rfl, rfl⟩ := Prod.mk.inj (Option.some.inj hret)
    exact ⟨num, buffer, hload, by simp [hnum]⟩
  · obtain ⟨rfl, rfl⟩ := Prod.mk.inj (Option.some.inj hret)
    exact ⟨num, buffer, hload, by simp [hnum]⟩

/-- A buffered vertex is returned. -/
theorem Holds.take {r : VertexReader I} {buffered : ℕ}
    (h : Holds file start stream vs r count (buffered + 1)) :
    ∃ v rest, vs.drop count = v :: rest ∧ vs.drop (count + 1) = rest ∧ r.take.1 = some v ∧
      r.take.2.loader = r.loader ∧ Holds file start stream vs r.take.2 (count + 1) buffered := by
  obtain ⟨t, ht⟩ := h.words
  rw [Buffer.words_succ, List.cons_append] at ht
  have hrest : vs.drop (count + 1) = r.buffer.words (8 * r.position + 8) buffered ++ t := by
    rw [← List.drop_drop, ← ht]
    rfl
  refine ⟨_, _, ht.symm, hrest, rfl, rfl, ⟨?_, ?_, ?_⟩⟩
  · rw [Nat.add_assoc, Nat.add_comm 1]
    exact h.loader
  · have := h.size
    simp only [VertexReader.take]
    omega
  · simp only [VertexReader.take, Nat.mul_add, Nat.mul_one]
    rw [hrest]
    exact List.prefix_append _ _

/-- **The calls of read_vertex** return the vertices in order, and then false. -/
theorem Holds.enumerates (hI : I.Decodes stream (Buffer.wordBytes vs))
    (hfile : stream <+: file.drop start)
    (hlong : start + inputStreamSz * numChunks stream vs ≤ file.length) {r : VertexReader I}
    {buffered : ℕ} {rest : List UInt64} (hrest : vs.drop count = rest)
    (h : Holds file start stream vs r count buffered) : Enumerates rest r := by
  induction rest generalizing r count buffered with
  | nil =>
    cases buffered with
    | succ buffered =>
      obtain ⟨v, rest, hv, -⟩ := h.take
      rw [hv] at hrest
      cases hrest
    | zero =>
      have hge : r.position ≥ r.bufferSize := h.size.le
      obtain ⟨fuel, num, buffer, l', hload, hwords, hnext, -⟩ :=
        h.loader.load hI hfile hlong VertexReader.bufferCapacity (by decide)
          (fun _ => Or.inl (by decide)) r.buffer
      have hnum : num = 0 := by
        have hlen := hwords.length_le
        simp only [Buffer.length_words, Nat.add_zero, hrest, List.length_nil] at hlen
        omega
      refine ⟨fuel, ⟨l', num, buffer, 0⟩, ?_, hnext.1⟩
      rw [VertexReader.readVertex, if_pos hge, hload]
      simp only [Option.bind_some, if_pos hnum]
  | cons v rest ih =>
    cases buffered with
    | succ buffered =>
      obtain ⟨v', rest', hv, hdrop, htake, hloader, hnext⟩ := h.take
      rw [hv] at hrest
      cases hrest
      have hlt : r.position < r.bufferSize := by
        have := h.size
        omega
      refine ⟨0, r.take.2, ?_, ?_, ih hdrop hnext⟩
      · rw [VertexReader.readVertex_of_lt 0 hlt, ← htake]
      · rw [hloader]
        exact h.loader.1
    | zero =>
      have hge : r.position ≥ r.bufferSize := h.size.le
      obtain ⟨fuel, num, buffer, l', hload, hwords, hnext, hzero⟩ :=
        h.loader.load hI hfile hlong VertexReader.bufferCapacity (by decide)
          (fun _ => Or.inl (by decide)) r.buffer
      rw [Nat.add_zero] at hnext hwords
      cases num with
      | zero =>
        -- the stream cannot have ended, since a vertex is still to come
        obtain ⟨-, -, hall⟩ := hnext
        rw [hzero rfl] at hall
        simp only [Nat.add_zero] at hall
        rw [hall, List.drop_length] at hrest
        cases hrest
      | succ num =>
        have hholds : Holds file start stream vs
            (⟨l', num + 1, buffer, 0⟩ : VertexReader I) count (num + 1) :=
          ⟨hnext, by simp, hwords⟩
        obtain ⟨v', rest', hv, hdrop, htake, hloader, hnext'⟩ := hholds.take
        rw [hv] at hrest
        cases hrest
        refine ⟨fuel, _, ?_, ?_, ih hdrop hnext'⟩
        · rw [VertexReader.readVertex, if_pos hge, hload]
          simp only [Option.bind_some, if_neg (Nat.succ_ne_zero num), ← htake]
        · rw [hloader]
          exact hnext.1

end Long

/-! ## Reads that come short, and large arrays -/

section Honest

variable {I : Inflater} {file : List UInt8} {start : ℕ} {stream : List UInt8} {vs : List UInt64}
  {l : VertexLoader I} {z : ZStream I} {consumed produced count : ℕ}

namespace VertexLoader

variable {arraySz : ℕ} {array : Buffer} {s s' : LoadState I}

/-- What an iteration counts, when it does not fail. -/
theorem decompress_eq (h : decompress arraySz l z array = some s) {availOut : ℕ}
    (havail : availOut = (arraySz * 8 - l.outputLeftoverSz) % 2 ^ 32) {rc : Inflated I.State}
    (hrc : rc = z.call l.inputStream availOut) :
    s.loader.refills = l.refills ∧ s.loader.produced = l.produced + rc.output.length ∧
      s.numElementsLoaded = (l.outputLeftoverSz +
        (arraySz * 8 - l.outputLeftoverSz - (availOut - rc.output.length))) / 8 := by
  rw [decompress] at h
  simp only [← havail, ← hrc] at h
  split_ifs at h <;> cases h
  · exact ⟨rfl, rfl, rfl⟩
  · exact ⟨rfl, rfl, rfl⟩

/-- The refills are kept in the record. -/
theorem refills_fill (l : VertexLoader I) (z : ZStream I) : l.refills <+: (l.fill z).1.refills := by
  unfold fill
  split_ifs
  · exact List.prefix_append _ _
  · exact List.prefix_rfl

theorem refills_body (h : loadBody arraySz s = some s') :
    s.loader.refills <+: s'.loader.refills := by
  rw [(decompress_eq h rfl rfl).1]
  exact refills_fill s.loader s.stream

theorem Honest.of_isPrefix {l l' : VertexLoader I} (h : l'.Honest)
    (hle : l.refills <+: l'.refills) : l.Honest := fun r hr => h r (hle.subset hr)

end VertexLoader

/-- **What holds after a call of load**, by an invariant of the bytes consumed and produced and of
the number of refills, when only bytes that were read have been offered. -/
theorem Clean.load_invariant {Q : ℕ → ℕ → ℕ → Prop} {arraySz fuel num : ℕ} {array array' : Buffer}
    {l' : VertexLoader I} (h : Clean file start stream vs l z consumed produced count)
    (hI : I.Decodes stream (Buffer.wordBytes vs)) (hfile : stream <+: file.drop start)
    (hz : l.zstream = some z) (hend : ¬Ended stream vs consumed produced) (hpos : 0 < arraySz)
    (hlt : arraySz < 2 ^ 29) (hload : l.load fuel array arraySz = some (num, array', l'))
    (hhonest : l'.Honest) (hQ : Q consumed produced l.refills.length)
    (hmono : ∀ {c p k k'}, Q c p k → k ≤ k' → Q c p k')
    (hstep : ∀ {l : VertexLoader I} {z : ZStream I} {c p : ℕ},
      Clean file start stream vs l z c p count → 0 < z.availIn → Q c p l.refills.length →
      Q (c + (z.call l.inputStream (arraySz * 8 - l.outputLeftoverSz)).consumed)
        (p + (z.call l.inputStream (arraySz * 8 - l.outputLeftoverSz)).output.length)
        l.refills.length) :
    ∃ s c p, Loading file start stream vs count s c p ∧ Q c p s.loader.refills.length ∧
      VertexLoader.loadCond s = false ∧ num = s.numElementsLoaded ∧
      l' = { s.loader with zstream := if s.depleted then none else some s.stream } := by
  -- an iteration keeps the invariant
  have hbody : ∀ {s s' : VertexLoader.LoadState I},
      (s.loader.Honest → ∃ c p, Loading file start stream vs count s c p ∧
        Q c p s.loader.refills.length) → VertexLoader.loadCond s = true →
      VertexLoader.loadBody arraySz s = some s' →
      (s'.loader.Honest → ∃ c p, Loading file start stream vs count s' c p ∧
        Q c p s'.loader.refills.length) := by
    intro s s' hs hcond hbody hhonest
    obtain ⟨c, p, hs, hQ⟩ := hs (hhonest.of_isPrefix (VertexLoader.refills_body hbody))
    obtain ⟨hnum, -⟩ : s.numElementsLoaded = 0 ∧ s.depleted = false := by
      simpa [VertexLoader.loadCond] using hcond
    have hclean := hs.clean
    rw [hnum, Nat.add_zero] at hclean
    have hsame := (VertexLoader.decompress_eq hbody rfl rfl).1
    rcases hclean.fill hfile with ⟨hfilled, havail⟩ | ⟨-, -, hshort⟩
    · obtain ⟨s'', hs'', hclean', hwords, -, hdepleted, -⟩ :=
        hfilled.decompress hI hpos hlt havail s.array rfl
      obtain rfl : s'' = s' := Option.some.inj (hs''.symm.trans hbody)
      refine ⟨_, _, ⟨hclean', hwords, hdepleted⟩, ?_⟩
      rw [hsame]
      exact hstep hfilled havail
        (hmono hQ (VertexLoader.refills_fill s.loader s.stream).length_le)
    · exact absurd (hhonest.of_isPrefix (by rw [hsame])) hshort
  rw [VertexLoader.load, hz] at hload
  simp only [if_neg (Nat.pos_iff_ne_zero.mp hpos), doWhile, Option.bind_eq_bind] at hload
  obtain ⟨s, hs, hret⟩ := Option.bind_eq_some_iff.mp hload
  obtain ⟨s₁, hs₁, hloop⟩ := Option.bind_eq_some_iff.mp hs
  have hinit : Loading file start stream vs count ⟨l, z, array, 0, false⟩ consumed produced :=
    ⟨h, List.nil_prefix, ⟨fun hc => Bool.noConfusion hc, fun hc => absurd hc hend⟩⟩
  obtain ⟨hinv, hcond⟩ := whileLoop_invariant _ (fun _ _ => hbody) fuel s₁ s
    (hbody (fun _ => ⟨_, _, hinit, hQ⟩) rfl hs₁) hloop
  cases hret
  obtain ⟨c, p, hs, hQ⟩ := hinv hhonest
  exact ⟨s, c, p, hs, hQ, hcond, rfl, rfl⟩

/-- **The file is long enough**, when a decompressor that waits for the whole stream is offered
only bytes that were read. -/
theorem Clean.long_of_load {fuel num : ℕ} {array array' : Buffer}
    {l l' : VertexLoader (.gated stream (Buffer.wordBytes vs) fun c _ => c == stream.length)}
    {z : ZStream (.gated stream (Buffer.wordBytes vs) fun c _ => c == stream.length)}
    (h : Clean file start stream vs l z 0 0 0) (hfile : stream <+: file.drop start)
    (hstream : 0 < stream.length) (hz : l.zstream = some z)
    (hload : l.load fuel array VertexReader.bufferCapacity = some (num, array', l'))
    (hhonest : l'.Honest) (hnum : vs ≠ [] → num ≠ 0) :
    start + inputStreamSz * numChunks stream vs ≤ file.length := by
  have hI : (Inflater.gated stream (Buffer.wordBytes vs) fun c _ => c == stream.length).Decodes
      stream (Buffer.wordBytes vs) := Inflater.gated_decodes (by simp)
  obtain ⟨s, c, p, hs, hQ, hcond, rfl, -⟩ := h.load_invariant
    (Q := fun _ p k => 0 < p → stream.length < inputStreamSz * k) hI hfile hz
    (fun hend => absurd hend.1 hstream.ne) (by decide) (by decide) hload hhonest
    (fun hc => absurd hc (Nat.lt_irrefl 0))
    (fun hQ hle hp => (hQ hp).trans_le (Nat.mul_le_mul_left _ hle))
    (by
      intro l z c p hclean havail hQ hp
      by_cases hprod : 0 < p
      · exact hQ hprod
      · -- the output comes in a call that starts behind the stream
        have hstate := (Inflater.gated_at hclean.reads.at_state).1
        have hchunks := hclean.chunks
        have hall : c = stream.length := by
          by_contra hne
          have hnone : (z.call l.inputStream (VertexReader.bufferCapacity * 8 -
              l.outputLeftoverSz)).output = [] := by
            simp only [ZStream.call, hstate, Inflater.gated]
            exact if_neg (by simpa using hne)
          rw [hnone, List.length_nil] at hp
          omega
        omega)
  have hwithin := hs.clean.within
  refine le_trans (Nat.add_le_add_left (Nat.mul_le_mul_left _ ?_) _) hwithin
  have hsz : 0 < inputStreamSz := by norm_num [inputStreamSz]
  rw [numChunks, Nat.succ_le_iff, Nat.div_lt_iff_lt_mul hsz, Nat.mul_comm]
  split_ifs with hvs
  · -- without vertices, the loop ends with the stream
    subst hvs
    have hlen := hs.words.length_le
    simp only [Buffer.length_words, List.drop_nil, List.length_nil, Nat.le_zero] at hlen
    have hd : s.depleted = true := by simpa [VertexLoader.loadCond, hlen] using hcond
    have hall := (hs.depleted_iff.mp hd).1
    have := hs.clean.chunks
    omega
  · have hproduced := hs.clean.leftoverSz
    have := hnum hvs
    exact hQ (by omega)

/-- **An array of at least `2^29` words** counts words that were not decompressed. -/
theorem Clean.not_load_of_ge {arraySz fuel num : ℕ} {array array' : Buffer} {l' : VertexLoader I}
    (h : Clean file start stream vs l z consumed (8 * count) count)
    (hI : I.Decodes stream (Buffer.wordBytes vs)) (hfile : stream <+: file.drop start)
    (hz : l.zstream = some z) (hge : 2 ^ 29 ≤ arraySz)
    (hload : l.load fuel array arraySz = some (num, array', l')) (hhonest : l'.Honest) :
    l'.produced < 8 * (count + num) := by
  have hpos : arraySz ≠ 0 := by
    have : 0 < 2 ^ 29 := by norm_num
    omega
  rw [VertexLoader.load, hz] at hload
  simp only [if_neg hpos, doWhile, Option.bind_eq_bind] at hload
  obtain ⟨s, hs, hret⟩ := Option.bind_eq_some_iff.mp hload
  obtain ⟨s₁, hs₁, hloop⟩ := Option.bind_eq_some_iff.mp hs
  obtain ⟨hrefills, hproduced, hcount⟩ := VertexLoader.decompress_eq hs₁ rfl rfl
  -- the refills of the first iteration are still in the record at the end
  have hkept : ∀ {s s' : VertexLoader.LoadState I}, s₁.loader.refills <+: s.loader.refills →
      VertexLoader.loadCond s = true → VertexLoader.loadBody arraySz s = some s' →
      s₁.loader.refills <+: s'.loader.refills :=
    fun hle _ hb => hle.trans (VertexLoader.refills_body hb)
  have hle := (whileLoop_invariant _ (fun _ _ => hkept) fuel s₁ s List.prefix_rfl hloop).1
  cases hret
  have hfirst : ((l.fill z).1).Honest := by
    refine VertexLoader.Honest.of_isPrefix hhonest ?_
    rw [← hrefills]
    exact hle
  rcases h.fill hfile with ⟨hfilled, -⟩ | ⟨-, -, hshort⟩
  · have hleftover : (l.fill z).1.outputLeftoverSz = 0 := by
      have := hfilled.leftoverSz
      omega
    have hout := (hfilled.reads.inflate hI ((arraySz * 8 - 0) % 2 ^ 32)).1.output_le
    simp only [hleftover, hfilled.produced_eq] at hproduced hcount
    have hlt : (arraySz * 8 - 0) % 2 ^ 32 < 2 ^ 32 := Nat.mod_lt _ (by norm_num)
    have hstop : VertexLoader.loadCond s₁ = false := by
      have : s₁.numElementsLoaded ≠ 0 := by omega
      simp [VertexLoader.loadCond, this]
    cases fuel with
    | zero => cases hloop
    | succ fuel =>
      rw [whileLoop_of_not hstop] at hloop
      cases hloop
      simp only
      omega
  · exact absurd hfirst hshort

/-- A decompressor that produces a word in a call, and ends the stream after the last one. -/
def wordwise (stream : List UInt8) (vs : List UInt64) : Inflater :=
  .paced stream (Buffer.wordBytes vs) 8

theorem wordwise_decodes (hstream : 0 < stream.length) (vs : List UInt64) :
    (wordwise stream vs).Decodes stream (Buffer.wordBytes vs) :=
  Inflater.paced_decodes hstream (by norm_num)

/-- **A call with word by word** loads one vertex, and does not end the stream with it. -/
theorem Clean.load_wordwise {arraySz fuel num : ℕ} {array array' : Buffer}
    {l l' : VertexLoader (wordwise stream vs)} {z : ZStream (wordwise stream vs)}
    (h : Clean file start stream vs l z consumed (8 * count) count)
    (hstream : 0 < stream.length) (hfile : stream <+: file.drop start)
    (hz : l.zstream = some z) (hleft : count < vs.length) (hpos : 0 < arraySz)
    (hlt : arraySz < 2 ^ 29) (hload : l.load fuel array arraySz = some (num, array', l'))
    (hhonest : l'.Honest) :
    num = 1 ∧ ∃ z' consumed', l'.zstream = some z' ∧ consumed' < stream.length ∧
      Clean file start stream vs l' z' consumed' (8 * (count + 1)) (count + 1) := by
  have hI : (wordwise stream vs).Decodes stream (Buffer.wordBytes vs) :=
    wordwise_decodes hstream vs
  obtain ⟨s, c, p, hs, hQ, hcond, rfl, rfl⟩ := h.load_invariant
    (Q := fun c p _ => p = 8 * count ∨ (p = 8 * (count + 1) ∧ c < stream.length)) hI hfile hz
    (fun hend => by have := hend.2; omega) hpos hlt hload hhonest (Or.inl rfl)
    (fun hQ _ => hQ)
    (by
      intro l z c p hclean havail hQ
      obtain ⟨hstate, -, hc⟩ := Inflater.paced_at hstream hclean.reads.at_state
      have hleftover := hclean.leftoverSz
      have hlt8 := hclean.leftover_lt
      have hp : p = 8 * count := by omega
      have hmore : p < (Buffer.wordBytes vs).length := by
        rw [Buffer.length_wordBytes]
        omega
      rw [if_pos hmore] at hc
      simp only [ZStream.call, hstate, wordwise, Inflater.paced, if_pos hmore]
      split_ifs with hlast
      · -- all but the last byte of the stream is taken, and there is output
        simp only [List.length_take, List.length_drop, Buffer.length_wordBytes]
        omega
      · simp only [List.length_nil]
        omega)
  have hproduced := hs.clean.leftoverSz
  have hlt8 := hs.clean.leftover_lt
  have hone : s.numElementsLoaded = 1 ∧ p = 8 * (count + 1) ∧ c < stream.length := by
    rcases hQ with hp | ⟨hp, hc⟩
    · -- without a word, the loop would go on
      have hnum : s.numElementsLoaded = 0 := by omega
      have hd : s.depleted = true := by simpa [VertexLoader.loadCond, hnum] using hcond
      have := (hs.depleted_iff.mp hd).2
      omega
    · omega
  obtain ⟨hnum, hp, hc⟩ := hone
  have hd : s.depleted = false := by
    by_contra hne
    have := (hs.depleted_iff.mp (Bool.eq_true_of_not_eq_false hne)).1
    omega
  have hclean := hs.clean
  rw [hnum, hp] at hclean
  exact ⟨hnum, s.stream, c, by simp [hd], hc, hclean.setZstream _⟩

/-- **A large array makes a call wrong** that comes before the end of the stream. -/
theorem Clean.not_loads_of_ge {l : VertexLoader (wordwise stream vs)}
    {z : ZStream (wordwise stream vs)} {sizes : List ℕ} {j n : ℕ}
    (h : Clean file start stream vs l z consumed (8 * count) count)
    (hstream : 0 < stream.length) (hfile : stream <+: file.drop start)
    (hz : l.zstream = some z) (hc : consumed < stream.length) (hpos : ∀ n ∈ sizes, 0 < n)
    (hj : sizes[j]? = some n) (hle : count + j ≤ vs.length) (hge : 2 ^ 29 ≤ n) :
    ¬Loads sizes count (vs.drop count) l := by
  -- the induction is on the calls, each of which loads one vertex
  induction sizes generalizing l z consumed count j with
  | nil => simp at hj
  | cons m sizes ih =>
    intro hloads
    obtain ⟨fuel, num, array', l', hload, -, -, hproduced, hhonest, hrest⟩ := hloads Buffer.zero
    by_cases hm : 2 ^ 29 ≤ m
    · have := h.not_load_of_ge (wordwise_decodes hstream vs) hfile hz hm hload hhonest
      omega
    · cases j with
      | zero =>
        obtain rfl : m = n := by simpa using hj
        exact hm hge
      | succ j =>
        obtain ⟨rfl, z', c', hz', hc', hnext⟩ := h.load_wordwise hstream hfile hz (by omega)
          (hpos m List.mem_cons_self) (by omega) hload hhonest
        rw [List.drop_drop] at hrest
        exact ih hnext hz' hc' (fun k hk => hpos k (List.mem_cons_of_mem _ hk))
          (by simpa using hj) (by omega) hrest

end Honest

/-! ## The sections that are loaded -/

section Main

variable {file : List UInt8} {start : ℕ} {stream : List UInt8} {vs : List UInt64}

/-- The reads of a section that is loaded do not come short. -/
theorem LoadsSection.long {sizes : List ℕ} (hfile : stream <+: file.drop start)
    (hstream : stream ≠ []) (h : LoadsSection file start stream vs sizes) :
    start + inputStreamSz * numChunks stream vs ≤ file.length := by
  have hlen : 0 < stream.length := List.length_pos_iff.mpr hstream
  have hstart : start ≤ file.length := by
    have := hfile.length_le
    rw [List.length_drop] at this
    omega
  have henum := (h (.gated stream (Buffer.wordBytes vs) fun c _ => c == stream.length)
    (Inflater.gated_decodes (by simp)) Buffer.zero).2 Buffer.zero
  have hnew := clean_new (I := .gated stream (Buffer.wordBytes vs) fun c _ => c == stream.length)
    stream vs hstart Buffer.zero
  -- the first call of the reader calls the loader
  cases vs with
  | nil =>
    obtain ⟨fuel, r', hread, hhonest⟩ := henum
    obtain ⟨num, buffer, hload, -⟩ := VertexReader.load_of_readVertex (Nat.le_refl 0) hread
    exact hnew.long_of_load hfile hlen rfl hload hhonest (fun hne => absurd rfl hne)
  | cons v vs =>
    obtain ⟨fuel, r', hread, hhonest, -⟩ := henum
    obtain ⟨num, buffer, hload, hnum⟩ := VertexReader.load_of_readVertex (Nat.le_refl 0) hread
    refine hnew.long_of_load hfile hlen rfl hload hhonest fun _ hzero => ?_
    cases hnum.mpr hzero

/-- **A section is loaded** as it should exactly when no read of it comes short, and no array of
`2^29` words or more is passed before the stream can have ended. -/
theorem loadsSection_iff (hfile : stream <+: file.drop start) (hstream : stream ≠ [])
    {sizes : List ℕ} (hpos : ∀ n ∈ sizes, 0 < n) :
    LoadsSection file start stream vs sizes ↔
      (∀ j n, sizes[j]? = some n → j ≤ vs.length → n < 2 ^ 29) ∧
        start + inputStreamSz * numChunks stream vs ≤ file.length := by
  have hlen : 0 < stream.length := List.length_pos_iff.mpr hstream
  have hstart : start ≤ file.length := by
    have := hfile.length_le
    rw [List.length_drop] at this
    omega
  constructor
  · intro h
    refine ⟨fun j n hj hle => ?_, h.long hfile hstream⟩
    by_contra hge
    exact (clean_new stream vs hstart Buffer.zero).not_loads_of_ge hlen hfile
      rfl hlen hpos hj (by omega) (Nat.not_lt.mp hge)
      (h (wordwise stream vs) (wordwise_decodes hlen vs) Buffer.zero).1
  · rintro ⟨hsmall, hlong⟩ I hI inputStream
    have hnew := between_new (I := I) vs hstart hstream inputStream
    refine ⟨hnew.loads hI hfile hlong hpos (Or.inr fun j n hj hle => ?_), fun buffer => ?_⟩
    · exact hsmall j n hj (by omega)
    · have hholds : Holds file start stream vs (VertexReader.new (VertexLoader.new I
          (FileStream.openAt file start) inputStream) buffer) 0 0 := ⟨hnew, rfl, List.nil_prefix⟩
      exact Holds.enumerates hI hfile hlong rfl hholds

/-- The compressed section of the vertex `7`: a stored block. -/
def oneVertex : List UInt8 := [1, 8, 0, 247, 255, 7, 0, 0, 0, 0, 0, 0, 0]

/-- A file in which the section is followed by a megabyte. -/
theorem loadsSection_oneVertex :
    LoadsSection (oneVertex ++ List.replicate (2 ^ 20) 0) 0 oneVertex [7] [1, 1] := by
  refine (loadsSection_iff (List.prefix_append _ _) (by decide) (by decide)).mpr ⟨?_, ?_⟩
  · intro j n hj _
    have hn := List.mem_of_getElem? hj
    simp only [List.mem_cons, List.not_mem_nil, or_false, or_self] at hn
    rw [hn]
    norm_num
  · rw [List.length_append, List.length_replicate]
    norm_num [numChunks, inputStreamSz, oneVertex]

/-- When the file ends with the section, `inflate` is offered more bytes than were read. -/
theorem not_loadsSection_oneVertex : ¬LoadsSection oneVertex 0 oneVertex [7] [1, 1] := by
  intro h
  have hlong := h.long List.prefix_rfl (by decide)
  norm_num [numChunks, inputStreamSz, oneVertex] at hlong

end Main

end Graphlog

end GfeDriver
