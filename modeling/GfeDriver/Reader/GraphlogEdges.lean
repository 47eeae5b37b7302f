import GfeDriver.Foundation.FileStream
import GfeDriver.Foundation.Inflate
import GfeDriver.Foundation.Loop
import GfeDriver.Graph.Edge

/-!
# The edges of a graphlog file

The edges are stored in blocks, each a compressed stream of its own: the sources of its edges, then
their destinations, then their weights. `EdgeLoader::load` decompresses the next block into an array
with room for `num_edges` edges. It reads the file in chunks of `2^20` bytes, and moves back to the
end of the block when `inflate` reports it.

When the array is full and the end of the stream was not reported yet, `load` concludes that the
block does not fit: it moves back to the start of the block and returns zero. But a block of exactly
`num_edges` edges fills the array before its end is seen, if the end lies in the next chunk.

## Main definitions

* `EdgeLoader.load`, `EdgeBlockLoader.load`, `EdgeReader.readEdge`: the loaders and the reader
* `LoadsEdges`, `EnumeratesEdges`, `LoadsBlocks`: the calls return the blocks and their edges
* `EndsOnTime`, `Fits`: the call that fills the array also ends the block

## Main results

* `AtChunk.body`: an iteration of `load`
* `loadsBlocks_iff`: the sections that are loaded as they should
-/

namespace GfeDriver

namespace Graphlog

open Foundation

/-! ## The loaders -/

/-- `EdgeLoader`. -/
structure EdgeLoader where
  handle : FileStream
  inputStream : Buffer

namespace EdgeLoader

/-- `m_input_stream_sz`. -/
def inputStreamSz : ℕ := 2 ^ 20

/-- The first part of an iteration of `load`: the next chunk of the file, and its size. -/
def readInput (l : EdgeLoader) : EdgeLoader × ℕ :=
  let handlePosLast := l.handle.tellg
  let inputStream := l.inputStream.write 0 (l.handle.nextBytes inputStreamSz)
  let handle := l.handle.read inputStreamSz
  if handle.eof then
    let handle := handle.clear.seekEnd
    (⟨handle, inputStream⟩, ((handle.tellg - handlePosLast) % 2 ^ 64).toNat)
  else (⟨handle, inputStream⟩, inputStreamSz)

/-- The variables of `load`. -/
structure LoadState (I : Inflater) where
  loader : EdgeLoader
  stream : ZStream I
  availOut : ℕ
  array : Buffer
  nextOut : ℕ
  numEdgesLoaded : ℕ
  done : Bool

variable {I : Inflater}

/-- An iteration of `load`. A failure of `inflate` raises an error. -/
def loadBody (handlePosStart : ℤ) (outputBufferSz : ℕ) (s : LoadState I) : Option (LoadState I) :=
  let handlePosLast := s.loader.handle.tellg
  let (loader, inputStreamSz) := s.loader.readInput
  -- at the end of the file the loop is left
  if inputStreamSz = 0 then some { s with loader := loader, done := true }
  else
    let z : ZStream I := { s.stream with nextIn := 0, availIn := inputStreamSz % 2 ^ 32 }
    let rc := z.call loader.inputStream s.availOut
    let stream := z.after rc
    if rc.code ≠ .ok ∧ rc.code ≠ .streamEnd then none
    else
      let availOut := s.availOut - rc.output.length
      some {
        loader := { loader with
          handle :=
            if availOut = 0 ∧ rc.code ≠ .streamEnd then loader.handle.seekg handlePosStart.toNat
            else if rc.code = .streamEnd then
              loader.handle.seekg (handlePosLast + (inputStreamSz - stream.availIn)).toNat
            else loader.handle }
        stream := stream
        availOut := availOut
        array := s.array.write s.nextOut rc.output
        nextOut := s.nextOut + rc.output.length
        numEdgesLoaded :=
          if rc.code = .streamEnd then (outputBufferSz - availOut) / 24 else s.numEdgesLoaded
        done := availOut = 0 ∨ rc.code = .streamEnd }

/-- The condition of the loop of `load`. -/
def loadCond (s : LoadState I) : Bool := !s.done

/-- `load`, for an array with the content `array`: the number of edges, the array after the call and
the loader. The number of bytes available for output has 32 bits. -/
def load (I : Inflater) (fuel : ℕ) (l : EdgeLoader) (array : Buffer) (numEdges : ℕ) :
    Option (ℕ × Buffer × EdgeLoader) :=
  if !l.handle.good then some (0, array, l)
  else do
    let outputBufferSz := numEdges * 24
    let s : LoadState I := ⟨l, ZStream.init I, outputBufferSz % 2 ^ 32, array, 0, 0, false⟩
    let s ← doWhile loadCond (loadBody l.handle.tellg outputBufferSz) fuel s
    some (s.numEdgesLoaded, s.array, s.loader)

end EdgeLoader

/-- `EdgeBlockReader`. The block is the buffer of the loader, which it shares. -/
structure EdgeBlockReader where
  position : ℕ
  numEdges : ℕ

namespace EdgeBlockReader

/-- `read_edge`. -/
def readEdge (block : Buffer) (r : EdgeBlockReader) :
    Option (WeightedEdge UInt64) × EdgeBlockReader :=
  if r.position ≥ r.numEdges then (none, r)
  else
    (some {
      source := (block.loadWord (8 * r.position)).toNat
      destination := (block.loadWord (8 * (r.numEdges + r.position))).toNat
      weight := block.loadWord (8 * (r.numEdges + r.numEdges + r.position)) },
      { r with position := r.position + 1 })

/-- `has_next`. -/
def hasNext (r : EdgeBlockReader) : Bool := r.position < r.numEdges

end EdgeBlockReader

/-- `EdgeBlockLoader`. -/
structure EdgeBlockLoader where
  loader : EdgeLoader
  maxNumEdges : ℕ
  buffer : Buffer

namespace EdgeBlockLoader

/-- The constructor. The buffers are not initialised. -/
def new (loader : EdgeLoader) (blockSizeBytes : ℕ) (buffer : Buffer) : Option EdgeBlockLoader :=
  if blockSizeBytes % 24 ≠ 0 then none else some ⟨loader, blockSizeBytes / 24, buffer⟩

/-- `load`. -/
def load (I : Inflater) (fuel : ℕ) (l : EdgeBlockLoader) :
    Option (EdgeBlockReader × EdgeBlockLoader) := do
  let (numEdges, buffer, loader) ← l.loader.load I fuel l.buffer l.maxNumEdges
  some (⟨0, numEdges⟩, { l with loader := loader, buffer := buffer })

end EdgeBlockLoader

/-- `EdgeReader`. -/
structure EdgeReader where
  loader : EdgeBlockLoader
  reader : EdgeBlockReader

namespace EdgeReader

/-- The constructor, with the file positioned at the section. -/
def new (I : Inflater) (fuel : ℕ) (loader : EdgeLoader) (blockSizeBytes : ℕ) (buffer : Buffer) :
    Option EdgeReader := do
  let loader ← EdgeBlockLoader.new loader blockSizeBytes buffer
  let (reader, loader) ← loader.load I fuel
  some ⟨loader, reader⟩

/-- The last part of `read_edge`. -/
def take (r : EdgeReader) : Option (WeightedEdge UInt64) × EdgeReader :=
  let (edge, reader) := r.reader.readEdge r.loader.buffer
  (edge, { r with reader := reader })

/-- `read_edge`. -/
def readEdge (I : Inflater) (fuel : ℕ) (r : EdgeReader) :
    Option (Option (WeightedEdge UInt64) × EdgeReader) :=
  if !r.reader.hasNext then do
    let (reader, loader) ← r.loader.load I fuel
    some (take ⟨loader, reader⟩)
  else some r.take

end EdgeReader

/-! ## The blocks of a section -/

/-- A compressed block of edges. -/
structure Block where
  stream : List UInt8
  edges : List (WeightedEdge UInt64)
  stream_ne : stream ≠ []
  source_lt : ∀ e ∈ edges, e.source < 2 ^ 64
  destination_lt : ∀ e ∈ edges, e.destination < 2 ^ 64

/-- The words of a block. -/
def Block.words (b : Block) : List UInt64 :=
  b.edges.map (fun e => UInt64.ofNat e.source) ++
    b.edges.map (fun e => UInt64.ofNat e.destination) ++ b.edges.map (fun e => e.weight)

/-- The uncompressed content of a block. -/
def Block.content (b : Block) : List UInt8 := Buffer.wordBytes b.words

@[simp] theorem Block.length_words (b : Block) : b.words.length = 3 * b.edges.length := by
  simp only [Block.words, List.length_append, List.length_map]
  omega

@[simp] theorem Block.length_content (b : Block) : b.content.length = 24 * b.edges.length := by
  rw [Block.content, Buffer.length_wordBytes, b.length_words]
  omega

/-- The next calls of `load` return zero. -/
def LoadsZero (I : Inflater) (numEdges : ℕ) : ℕ → EdgeLoader → Prop
  | 0, _ => True
  | calls + 1, l => ∀ array : Buffer, ∃ fuel array' l',
    l.load I fuel array numEdges = some (0, array', l') ∧ LoadsZero I numEdges calls l'

/-- The calls of `load` return the blocks, each with the number of its edges, and from then on
zero. -/
def LoadsEdges (I : Inflater) (numEdges : ℕ) : List Block → EdgeLoader → Prop
  | [], l => ∀ calls, LoadsZero I numEdges calls l
  | b :: bs, l => ∀ array : Buffer, ∃ fuel array' l',
    l.load I fuel array numEdges = some (b.edges.length, array', l') ∧ b.edges.length ≠ 0 ∧
      array'.words 0 (3 * b.edges.length) = b.words ∧ LoadsEdges I numEdges bs l'

/-- The calls of `read_edge` return the edges, and then false. -/
def EnumeratesEdges (I : Inflater) : List (WeightedEdge UInt64) → EdgeReader → Prop
  | [], r => ∃ fuel r', r.readEdge I fuel = some (none, r')
  | e :: es, r => ∃ fuel r', r.readEdge I fuel = some (some e, r') ∧ EnumeratesEdges I es r'

/-- **A section is loaded**: the calls of `load` with arrays of `num_edges` edges return the blocks,
and the calls of `read_edge` return their edges. -/
def LoadsBlocks (I : Inflater) (file : List UInt8) (start : ℕ) (blocks : List Block)
    (numEdges : ℕ) : Prop :=
  ∀ inputStream : Buffer, LoadsEdges I numEdges blocks ⟨FileStream.openAt file start, inputStream⟩ ∧
    ∀ buffer : Buffer, ∃ fuel r,
      EdgeReader.new I fuel ⟨FileStream.openAt file start, inputStream⟩ (24 * numEdges) buffer =
        some r ∧ EnumeratesEdges I (blocks.flatMap Block.edges) r

/-! ## The calls of inflate -/

section Calls

variable (I : Inflater) (file : List UInt8) (start space : ℕ)

/-- The chunk `k` of the file from `start` on. -/
def chunk (k : ℕ) : List UInt8 :=
  (file.drop (start + EdgeLoader.inputStreamSz * k)).take EdgeLoader.inputStreamSz

/-- The state of the decompressor after `k` chunks, and the number of bytes produced. -/
def afterChunks : ℕ → I.State × ℕ
  | 0 => (I.init, 0)
  | k + 1 =>
    let r := I.inflate (afterChunks k).1 (chunk file start k) (space - (afterChunks k).2)
    (r.state, (afterChunks k).2 + r.output.length)

/-- The call of `inflate` with the chunk `k`. -/
def chunkCall (k : ℕ) : Inflated I.State :=
  I.inflate (afterChunks I file start space k).1 (chunk file start k)
    (space - (afterChunks I file start space k).2)

/-- **The call that fills the array** also ends the stream. -/
def EndsOnTime : Prop :=
  ∀ k, (afterChunks I file start space k).2 < space →
    (afterChunks I file start space (k + 1)).2 = space →
      (chunkCall I file start space k).code = .streamEnd

/-- The blocks have edges, and those that fill the array end on time. -/
def Fits (numEdges : ℕ) : ℕ → List Block → Prop
  | _, [] => True
  | start, b :: bs => b.edges ≠ [] ∧
    (b.edges.length = numEdges → EndsOnTime I file start (24 * numEdges)) ∧
      Fits numEdges (start + b.stream.length) bs

end Calls

/-! ## An iteration -/

section Iteration

variable {I : Inflater} {file : List UInt8} {start space : ℕ} {stream content : List UInt8}

/-- The next chunk is read, and the handle moves behind it. -/
theorem EdgeLoader.readInput_openAt {l : EdgeLoader} {pos : ℕ}
    (hhandle : l.handle = FileStream.openAt file pos) (hpos : pos ≤ file.length)
    (bytes : List UInt8) (hbytes : bytes = (file.drop pos).take inputStreamSz) :
    l.readInput = (⟨FileStream.openAt file (pos + bytes.length), l.inputStream.write 0 bytes⟩,
      bytes.length) := by
  obtain ⟨f, hf⟩ : ∃ f, f = FileStream.openAt file pos := ⟨_, rfl⟩
  have hgood : f.good = true := by rw [hf]; rfl
  have hnext : f.nextBytes inputStreamSz = bytes := by
    rw [FileStream.nextBytes_of_good hgood, hf, hbytes]
    rfl
  have hlen : bytes.length = min inputStreamSz (file.length - pos) := by
    rw [hbytes, List.length_take, List.length_drop]
  have hread := FileStream.read_of_good (n := inputStreamSz) hgood
  rw [hnext] at hread
  have htell : f.tellg = (pos : ℤ) := by
    rw [hf]
    rfl
  rw [readInput, hhandle, ← hf, hnext, hread]
  by_cases hshort : bytes.length < inputStreamSz
  · -- the size of the chunk is computed from the length of the file
    have hend : pos + bytes.length = file.length := by omega
    have hsz : inputStreamSz = 2 ^ 20 := rfl
    simp only [FileStream.eof, hshort, decide_true, if_true, htell]
    simp only [hf, FileStream.openAt, FileStream.clear, FileStream.seekEnd, FileStream.seekg,
      FileStream.tellg, Bool.false_eq_true, if_false, hend, Prod.mk.injEq, true_and]
    omega
  · have hfull : bytes.length = inputStreamSz := by omega
    simp only [FileStream.eof, hfull, Nat.lt_irrefl, decide_false, Bool.false_eq_true, if_false, hf,
      FileStream.openAt]

/-- **The loop of load** before the chunk `k`. -/
structure AtChunk (I : Inflater) (file : List UInt8) (start space : ℕ)
    (stream content : List UInt8) (k : ℕ) (s : EdgeLoader.LoadState I) : Prop where
  handle : s.loader.handle = FileStream.openAt file (start + EdgeLoader.inputStreamSz * k)
  state : s.stream.state = (afterChunks I file start space k).1
  at_state : I.At stream (afterChunks I file start space k).1 (EdgeLoader.inputStreamSz * k)
    (afterChunks I file start space k).2
  availOut : s.availOut = space - (afterChunks I file start space k).2
  produced_le : (afterChunks I file start space k).2 ≤ space
  nextOut : s.nextOut = (afterChunks I file start space k).2
  array : s.array.read 0 (afterChunks I file start space k).2 =
    content.take (afterChunks I file start space k).2
  within : EdgeLoader.inputStreamSz * k < stream.length
  numEdgesLoaded : s.numEdgesLoaded = 0
  done : s.done = false

/-- The stream has ended: the array holds the content, and the handle is behind the stream. -/
structure AtEnd (file : List UInt8) (start space outputBufferSz : ℕ) (stream content : List UInt8)
    (s : EdgeLoader.LoadState I) : Prop where
  handle : s.loader.handle = FileStream.openAt file (start + stream.length)
  array : s.array.read 0 content.length = content
  numEdgesLoaded : s.numEdgesLoaded = (outputBufferSz - (space - content.length)) / 24
  done : s.done = true

/-- The state of `load` before its loop. -/
def EdgeLoader.initState (I : Inflater) (l : EdgeLoader) (array : Buffer) (numEdges : ℕ) :
    EdgeLoader.LoadState I :=
  ⟨l, ZStream.init I, numEdges * 24 % 2 ^ 32, array, 0, 0, false⟩

theorem atChunk_init {l : EdgeLoader} (hhandle : l.handle = FileStream.openAt file start)
    (content : List UInt8) (hstream : stream ≠ []) (array : Buffer) (numEdges : ℕ) :
    AtChunk I file start (numEdges * 24 % 2 ^ 32) stream content 0
      (l.initState I array numEdges) := by
  refine ⟨hhandle, rfl, .init, rfl, Nat.zero_le _, rfl, rfl, ?_, rfl, rfl⟩
  rw [Nat.mul_zero]
  exact List.length_pos_iff.mpr hstream

variable {k outputBufferSz : ℕ} {s : EdgeLoader.LoadState I}

/-- The state after an iteration in which the call of `inflate` has answered `rc`. -/
def AtChunk.next (file : List UInt8) (start outputBufferSz k : ℕ) (s : EdgeLoader.LoadState I)
    (rc : Inflated I.State) : EdgeLoader.LoadState I :=
  let pos := start + EdgeLoader.inputStreamSz * k
  let bytes := chunk file start k
  { loader := {
      handle := FileStream.openAt file
        (if s.availOut - rc.output.length = 0 ∧ rc.code ≠ .streamEnd then start
          else if rc.code = .streamEnd then pos + rc.consumed else pos + bytes.length)
      inputStream := s.loader.inputStream.write 0 bytes }
    stream := ({ s.stream with nextIn := 0, availIn := bytes.length } : ZStream I).after rc
    availOut := s.availOut - rc.output.length
    array := s.array.write s.nextOut rc.output
    nextOut := s.nextOut + rc.output.length
    numEdgesLoaded :=
      if rc.code = .streamEnd then (outputBufferSz - (s.availOut - rc.output.length)) / 24
      else s.numEdgesLoaded
    done := s.availOut - rc.output.length = 0 ∨ rc.code = .streamEnd }

/-- What the body of the loop computes. -/
theorem AtChunk.loadBody_eq (h : AtChunk I file start space stream content k s)
    (outputBufferSz : ℕ)    (hfile : stream <+: file.drop start) {rc : Inflated I.State}
    (hrc : rc = chunkCall I file start space k)
    (hconsumed : rc.consumed ≤ (chunk file start k).length) :
    EdgeLoader.loadBody start outputBufferSz s =
      if rc.code ≠ .ok ∧ rc.code ≠ .streamEnd then none
      else some (AtChunk.next file start outputBufferSz k s rc) := by
  obtain ⟨bytes, hbytes⟩ : ∃ bytes, bytes = chunk file start k := ⟨_, rfl⟩
  have hlen : bytes.length = min EdgeLoader.inputStreamSz
      (file.length - (start + EdgeLoader.inputStreamSz * k)) := by
    rw [hbytes, chunk, List.length_take, List.length_drop]
  have hle := hfile.length_le
  rw [List.length_drop] at hle
  have hwithin := h.within
  have hsz : EdgeLoader.inputStreamSz = 2 ^ 20 := rfl
  rw [← hbytes] at hconsumed
  have hread := EdgeLoader.readInput_openAt h.handle (by omega) bytes (by
    rw [hbytes, chunk])
  have hz : ({ s.stream with nextIn := 0, availIn := bytes.length } : ZStream I).call
      (s.loader.inputStream.write 0 bytes) s.availOut = rc := by
    rw [ZStream.call, Buffer.read_write, h.state, h.availOut, hrc, chunkCall, hbytes]
  have htell : s.loader.handle.tellg = ((start + EdgeLoader.inputStreamSz * k : ℕ) : ℤ) := by
    rw [h.handle]
    rfl
  -- the position after the bytes that were consumed
  have hseek : (((start + EdgeLoader.inputStreamSz * k : ℕ) : ℤ) +
      ((bytes.length : ℤ) - ((bytes.length - rc.consumed : ℕ) : ℤ))).toNat =
      start + EdgeLoader.inputStreamSz * k + rc.consumed := by
    omega
  rw [EdgeLoader.loadBody, hread]
  simp only [if_neg (show bytes.length ≠ 0 by omega),
    Nat.mod_eq_of_lt (show bytes.length < 2 ^ 32 by omega), hz, htell, AtChunk.next, ← hbytes]
  split_ifs <;>
    simp_all [FileStream.openAt, FileStream.seekg, ZStream.after]

theorem length_chunk (file : List UInt8) (start k : ℕ) :
    (chunk file start k).length = min EdgeLoader.inputStreamSz
      (file.length - (start + EdgeLoader.inputStreamSz * k)) := by
  rw [chunk, List.length_take, List.length_drop]

theorem produced_succ (I : Inflater) (file : List UInt8) (start space k : ℕ) :
    (afterChunks I file start space (k + 1)).2 =
      (afterChunks I file start space k).2 + (chunkCall I file start space k).output.length := by
  rw [afterChunks, chunkCall]

/-- The contract of the call of an iteration. -/
theorem AtChunk.inflateStep (h : AtChunk I file start space stream content k s)
    (hI : I.Decodes stream content) (hfile : stream <+: file.drop start) :
    InflateStep stream content (EdgeLoader.inputStreamSz * k) (afterChunks I file start space k).2
      (chunk file start k).length (space - (afterChunks I file start space k).2)
      (chunkCall I file start space k) :=
  hI h.at_state (agrees_take hfile _) _

/-- The array holds the content produced so far. -/
theorem AtChunk.array_write (h : AtChunk I file start space stream content k s)
    (hI : I.Decodes stream content) (hfile : stream <+: file.drop start) :
    (s.array.write s.nextOut (chunkCall I file start space k).output).read 0
        (afterChunks I file start space (k + 1)).2 =
      content.take (afterChunks I file start space (k + 1)).2 := by
  rw [produced_succ, Buffer.read_append,
    Buffer.read_write_of_disjoint (Or.inl (by rw [h.nextOut]; omega)), h.array, Nat.zero_add,
    h.nextOut, Buffer.read_write, List.take_add, ← (h.inflateStep hI hfile).output_eq]

/-- **The call that ends the stream** leaves the content in the array. -/
theorem AtChunk.atEnd (h : AtChunk I file start space stream content k s) (outputBufferSz : ℕ)
    (hI : I.Decodes stream content) (hfile : stream <+: file.drop start)
    (hcode : (chunkCall I file start space k).code = .streamEnd) :
    (afterChunks I file start space (k + 1)).2 = content.length ∧ content.length ≤ space ∧
      AtEnd file start space outputBufferSz stream content
        (AtChunk.next file start outputBufferSz k s (chunkCall I file start space k)) := by
  have hstep := h.inflateStep hI hfile
  have hproduced := produced_succ I file start space k
  have harray := h.array_write hI hfile
  obtain ⟨hconsumed, hall⟩ := hstep.streamEnd_iff.mp hcode
  have hout := hstep.output_le
  have hple := h.produced_le
  have havail := h.availOut
  rw [← hproduced] at hall
  refine ⟨hall, by omega, ?_, ?_, ?_, ?_⟩
  · simp only [AtChunk.next, hcode, ne_eq, not_true, and_false, if_false, if_true]
    rw [Nat.add_assoc, hconsumed]
  · rw [hall, List.take_length] at harray
    exact harray
  · simp only [AtChunk.next, hcode, if_true]
    congr 2
    omega
  · simp [AtChunk.next, hcode]

/-- **The call that uses up the chunk**, with space left in the array, leads to the next one. -/
theorem AtChunk.succ (h : AtChunk I file start space stream content k s) (outputBufferSz : ℕ)
    (hI : I.Decodes stream content) (hgreedy : I.Greedy stream)
    (hfile : stream <+: file.drop start) (hcode : (chunkCall I file start space k).code = .ok)
    (hspace : (afterChunks I file start space (k + 1)).2 < space) :
    AtChunk I file start space stream content (k + 1)
      (AtChunk.next file start outputBufferSz k s (chunkCall I file start space k)) := by
  have hagrees : Agrees stream (EdgeLoader.inputStreamSz * k) (chunk file start k) :=
    agrees_take hfile _
  have hproduced := produced_succ I file start space k
  have havail := h.availOut
  have hlen := length_chunk file start k
  have hle := hfile.length_le
  rw [List.length_drop] at hle
  have hwithin := h.within
  -- there is room for output, so the call has used up its input and the stream goes on
  obtain ⟨hused, hgoes⟩ : (chunkCall I file start space k).consumed = (chunk file start k).length ∧
      EdgeLoader.inputStreamSz * k + (chunkCall I file start space k).consumed < stream.length :=
    (hgreedy h.at_state hagrees _ hcode).resolve_left fun hroom => by
      rw [← chunkCall] at hroom
      omega
  have hchunk : (chunk file start k).length = EdgeLoader.inputStreamSz := by omega
  have hk : EdgeLoader.inputStreamSz * (k + 1) =
      EdgeLoader.inputStreamSz * k + (chunkCall I file start space k).consumed := by
    rw [hused, hchunk, Nat.mul_add, Nat.mul_one]
  have hmore : s.availOut - (chunkCall I file start space k).output.length ≠ 0 := by omega
  have hne : ¬(InflateCode.ok = .streamEnd) := nofun
  exact
    { handle := by
        simp only [AtChunk.next, hcode, hmore, false_and, if_false, if_neg hne]
        rw [hk, hused, Nat.add_assoc]
      state := rfl
      at_state := by
        rw [hproduced, hk]
        exact h.at_state.step hagrees _
      availOut := by
        simp only [AtChunk.next]
        omega
      produced_le := hspace.le
      nextOut := by simp only [AtChunk.next, h.nextOut, hproduced]
      array := h.array_write hI hfile
      within := by omega
      numEdgesLoaded := by simp only [AtChunk.next, hcode, if_neg hne, h.numEdgesLoaded]
      done := by simp [AtChunk.next, hmore, hcode] }

/-- **An iteration** fails only without space for output. Otherwise it ends the stream, or it stops
with a full array, or it uses up the chunk. -/
theorem AtChunk.body (h : AtChunk I file start space stream content k s) (outputBufferSz : ℕ)
    (hI : I.Decodes stream content) (hgreedy : I.Greedy stream)
    (hfile : stream <+: file.drop start) :
    (EdgeLoader.loadBody start outputBufferSz s = none ∧
      (afterChunks I file start space k).2 = space) ∨
    ∃ s', EdgeLoader.loadBody start outputBufferSz s = some s' ∧
      (((chunkCall I file start space k).code = .streamEnd ∧
          (afterChunks I file start space (k + 1)).2 = content.length ∧ content.length ≤ space ∧
          AtEnd file start space outputBufferSz stream content s') ∨
        ((chunkCall I file start space k).code ≠ .streamEnd ∧
          (afterChunks I file start space (k + 1)).2 = space ∧ space ≤ content.length ∧
          s'.numEdgesLoaded = 0 ∧ s'.done = true) ∨
        ((chunkCall I file start space k).code ≠ .streamEnd ∧
          (afterChunks I file start space (k + 1)).2 < space ∧
          AtChunk I file start space stream content (k + 1) s')) := by
  have hstep := h.inflateStep hI hfile
  have hproduced := produced_succ I file start space k
  have hbody := h.loadBody_eq outputBufferSz hfile rfl hstep.consumed_le
  have hple := h.produced_le
  have hout := hstep.output_le
  cases hcode : (chunkCall I file start space k).code with
  | bufError =>
    refine Or.inl ⟨by rw [hbody, if_pos (by simp [hcode])], ?_⟩
    by_contra hne
    have hlen := length_chunk file start k
    have hle := hfile.length_le
    rw [List.length_drop] at hle
    have hwithin := h.within
    have hsz : EdgeLoader.inputStreamSz = 2 ^ 20 := rfl
    exact hstep.progress (by omega) (Or.inl (by omega)) hcode
  | streamEnd =>
    exact Or.inr ⟨_, by rw [hbody, if_neg (by simp [hcode])],
      Or.inl ⟨rfl, h.atEnd outputBufferSz hI hfile hcode⟩⟩
  | ok =>
    have hne : InflateCode.ok ≠ .streamEnd := nofun
    refine Or.inr ⟨_, by rw [hbody, if_neg (by simp [hcode])], Or.inr ?_⟩
    by_cases hfull : (afterChunks I file start space (k + 1)).2 = space
    · have hcontent := hstep.produced_le (h.at_state.le hI).2
      have hzero : s.availOut - (chunkCall I file start space k).output.length = 0 := by
        rw [h.availOut]
        omega
      refine Or.inl ⟨hne, hfull, by omega, ?_, ?_⟩
      · simp only [AtChunk.next, hcode, if_neg hne, h.numEdgesLoaded]
      · simp [AtChunk.next, hzero]
    · have hlt : (afterChunks I file start space (k + 1)).2 < space := by omega
      exact Or.inr ⟨hne, hlt, h.succ outputBufferSz hI hgreedy hfile hcode hlt⟩

end Iteration

/-! ## The call for a block -/

section Call

variable {I : Inflater} {file : List UInt8} {start space : ℕ} {stream content : List UInt8}
  {k outputBufferSz : ℕ} {s : EdgeLoader.LoadState I}

/-- **The loop of load** runs up to a chunk `last`, in which it ends the stream or fills the
array. -/
theorem AtChunk.run (h : AtChunk I file start space stream content k s) (outputBufferSz : ℕ)
    (hI : I.Decodes stream content) (hgreedy : I.Greedy stream)
    (hfile : stream <+: file.drop start) (hroom : (afterChunks I file start space k).2 < space) :
    ∃ last fuel s',
      whileLoop EdgeLoader.loadCond (EdgeLoader.loadBody start outputBufferSz) fuel s = some s' ∧
      (afterChunks I file start space last).2 < space ∧
      (∀ j, k ≤ j → j < last → (afterChunks I file start space (j + 1)).2 < space) ∧
      (((chunkCall I file start space last).code = .streamEnd ∧
          (afterChunks I file start space (last + 1)).2 = content.length ∧ content.length ≤ space ∧
          AtEnd file start space outputBufferSz stream content s') ∨
        ((chunkCall I file start space last).code ≠ .streamEnd ∧
          (afterChunks I file start space (last + 1)).2 = space ∧ space ≤ content.length ∧
          s'.numEdgesLoaded = 0)) := by
  -- the induction is on what is left of the stream
  induction hm : stream.length - EdgeLoader.inputStreamSz * k using Nat.strong_induction_on
    generalizing k s with
  | _ m ih =>
    subst hm
    have hcond : EdgeLoader.loadCond s = true := by simp [EdgeLoader.loadCond, h.done]
    rcases h.body outputBufferSz hI hgreedy hfile with ⟨-, hfull⟩ |
      ⟨s', hbody, hcases⟩
    · omega
    · rcases hcases with ⟨hend, hall, hle, hs'⟩ | ⟨hend, hall, hle, hnum, hdone⟩ | ⟨-, hmore, hs'⟩
      · refine ⟨k, 2, s', ?_, hroom, fun j hj hlt => by omega, Or.inl ⟨hend, hall, hle, hs'⟩⟩
        rw [whileLoop_of_cond hcond hbody,
          whileLoop_of_not (by simp [EdgeLoader.loadCond, hs'.done])]
      · refine ⟨k, 2, s', ?_, hroom, fun j hj hlt => by omega, Or.inr ⟨hend, hall, hle, hnum⟩⟩
        rw [whileLoop_of_cond hcond hbody, whileLoop_of_not (by simp [EdgeLoader.loadCond, hdone])]
      · have hlt := hs'.within
        have hsz : 0 < EdgeLoader.inputStreamSz := by norm_num [EdgeLoader.inputStreamSz]
        have hk : EdgeLoader.inputStreamSz * (k + 1) =
            EdgeLoader.inputStreamSz * k + EdgeLoader.inputStreamSz := by
          rw [Nat.mul_add, Nat.mul_one]
        obtain ⟨last, fuel, t, hrun, hlast, hbefore, hresult⟩ := ih _ (by omega) hs' hmore rfl
        refine ⟨last, fuel + 1, t, ?_, hlast, fun j hj hjlt => ?_, hresult⟩
        · rw [whileLoop_of_cond hcond hbody, hrun]
        · rcases Nat.eq_or_lt_of_le hj with rfl | hj
          · exact hmore
          · exact hbefore j hj hjlt

theorem afterChunks_mono (I : Inflater) (file : List UInt8) (start space : ℕ) {j j' : ℕ}
    (h : j ≤ j') :
    (afterChunks I file start space j).2 ≤ (afterChunks I file start space j').2 := by
  induction h with
  | refl => exact Nat.le_refl _
  | step _ ih => exact ih.trans (Nat.le_add_right _ _)

/-- **The result of load** is that of its loop. -/
theorem EdgeLoader.load_eq_some_iff {l : EdgeLoader}
    (hhandle : l.handle = FileStream.openAt file start) {array : Buffer} {numEdges fuel : ℕ}
    {r : ℕ × Buffer × EdgeLoader} :
    l.load I fuel array numEdges = some r ↔
      ∃ s', whileLoop EdgeLoader.loadCond (EdgeLoader.loadBody start (numEdges * 24)) (fuel + 1)
          (l.initState I array numEdges) = some s' ∧
        (s'.numEdgesLoaded, s'.array, s'.loader) = r := by
  have hgood : l.handle.good = true := by rw [hhandle]; rfl
  have htell : l.handle.tellg = (start : ℤ) := by rw [hhandle]; rfl
  have hcond : EdgeLoader.loadCond (l.initState I array numEdges) = true := rfl
  rw [EdgeLoader.load, hgood, htell, whileLoop, hcond]
  simp only [Bool.not_true, Bool.false_eq_true, if_false, if_true, doWhile, Option.bind_eq_bind,
    Option.bind_eq_some_iff, Option.some.injEq, EdgeLoader.initState]

/-- All fuels that are enough give the same result. -/
theorem EdgeLoader.load_unique {l : EdgeLoader} (hhandle : l.handle = FileStream.openAt file start)
    {array : Buffer} {numEdges fuel fuel' : ℕ} {r r' : ℕ × Buffer × EdgeLoader}
    (h : l.load I fuel array numEdges = some r) (h' : l.load I fuel' array numEdges = some r') :
    r = r' := by
  obtain ⟨s, hs, rfl⟩ := (EdgeLoader.load_eq_some_iff hhandle).mp h
  obtain ⟨s', hs', rfl⟩ := (EdgeLoader.load_eq_some_iff hhandle).mp h'
  rw [whileLoop_unique hs hs']

theorem EdgeLoader.load_of_loop {l : EdgeLoader}
    (hhandle : l.handle = FileStream.openAt file start) {array : Buffer} {numEdges : ℕ} (fuel : ℕ)
    {s' : EdgeLoader.LoadState I}
    (hloop : whileLoop EdgeLoader.loadCond (EdgeLoader.loadBody start (numEdges * 24)) fuel
      (l.initState I array numEdges) = some s') :
    ∃ fuel, l.load I fuel array numEdges = some (s'.numEdgesLoaded, s'.array, s'.loader) := by
  cases fuel with
  | zero => cases hloop
  | succ fuel => exact ⟨fuel, (EdgeLoader.load_eq_some_iff hhandle).mpr ⟨s', hloop, rfl⟩⟩

/-- **At the end of the file**, zero is returned. -/
theorem EdgeLoader.load_end {l : EdgeLoader}
    (hhandle : l.handle = FileStream.openAt file file.length) (array : Buffer) (numEdges : ℕ) :
    ∃ fuel array' l', l.load I fuel array numEdges = some (0, array', l') ∧
      l'.handle = FileStream.openAt file file.length := by
  have hread := l.readInput_openAt hhandle (Nat.le_refl _) [] (by simp)
  have hcond : EdgeLoader.loadCond (l.initState I array numEdges) = true := rfl
  have hbody : EdgeLoader.loadBody file.length (numEdges * 24) (l.initState I array numEdges) =
      some { l.initState I array numEdges with loader := l.readInput.1, done := true } := by
    rw [EdgeLoader.loadBody]
    simp only [EdgeLoader.initState, hread, List.length_nil, if_true]
  obtain ⟨fuel, hload⟩ := EdgeLoader.load_of_loop hhandle 2 (by
    rw [whileLoop_of_cond hcond hbody, whileLoop_of_not rfl])
  exact ⟨fuel, _, _, hload, by simp [hread]⟩

theorem EdgeLoader.loadsZero {l : EdgeLoader}
    (hhandle : l.handle = FileStream.openAt file file.length) (numEdges calls : ℕ) :
    LoadsZero I numEdges calls l := by
  induction calls generalizing l with
  | zero => trivial
  | succ calls ih =>
    intro array
    obtain ⟨fuel, array', l', hload, hhandle'⟩ :=
      EdgeLoader.load_end (I := I) hhandle array numEdges
    exact ⟨fuel, array', l', hload, ih hhandle'⟩

/-- **With an array of 4 GiB or more**, the number of edges is wrong. -/
theorem EdgeLoader.not_load_of_ge {l : EdgeLoader}
    (hhandle : l.handle = FileStream.openAt file start)
    (b : Block) (hI : I.Decodes b.stream b.content) (hgreedy : I.Greedy b.stream)
    (hfile : b.stream <+: file.drop start) {numEdges fuel : ℕ} (hge : 2 ^ 32 ≤ 24 * numEdges)
    {array array' : Buffer} {l' : EdgeLoader} (hne : b.edges.length ≠ 0) :
    l.load I fuel array numEdges ≠ some (b.edges.length, array', l') := by
  intro hload
  obtain ⟨s', hrun, hs'⟩ := (EdgeLoader.load_eq_some_iff hhandle).mp hload
  have hnum : s'.numEdgesLoaded = b.edges.length := congrArg Prod.fst hs'
  have hinit := atChunk_init (I := I) hhandle b.content b.stream_ne array numEdges
  have hcond : EdgeLoader.loadCond (l.initState I array numEdges) = true := rfl
  by_cases hroom : 0 < numEdges * 24 % 2 ^ 32
  · obtain ⟨last, fuel', s'', hrun', -, -, hresult⟩ :=
      hinit.run (numEdges * 24) hI hgreedy hfile (by simpa [afterChunks] using hroom)
    obtain rfl := whileLoop_unique hrun hrun'
    rcases hresult with ⟨-, -, hle, hend⟩ | ⟨-, -, -, hzero⟩
    · rw [b.length_content] at hle
      have := hend.numEdgesLoaded
      rw [b.length_content, hnum] at this
      omega
    · omega
  · -- without space, the only iteration produces nothing
    rcases hinit.body (numEdges * 24) hI hgreedy hfile with ⟨hnone, -⟩ |
      ⟨s₁, hbody, hcases⟩
    · rw [whileLoop, hcond, if_pos rfl, hnone] at hrun
      cases hrun
    · rw [whileLoop_of_cond hcond hbody] at hrun
      rcases hcases with ⟨-, -, hle, hend⟩ | ⟨-, -, -, hzero, hdone⟩ | ⟨-, hlt, -⟩
      · rw [b.length_content, Nat.eq_zero_of_not_pos hroom] at hle
        exact hne (by simpa using hle)
      · have hnot : EdgeLoader.loadCond s₁ = false := by simp [EdgeLoader.loadCond, hdone]
        have hsame : s' = s₁ := whileLoop_unique hrun (whileLoop_of_not hnot 0)
        rw [hsame, hzero] at hnum
        exact hne hnum.symm
      · exact absurd hlt (fun hlt => hroom (Nat.zero_lt_of_lt hlt))

/-- **A block is loaded**, or it fills the array before its end and zero is returned. -/
theorem EdgeLoader.load_block {l : EdgeLoader} (hhandle : l.handle = FileStream.openAt file start)
    (b : Block) (hI : I.Decodes b.stream b.content) (hgreedy : I.Greedy b.stream)
    (hfile : b.stream <+: file.drop start) {numEdges : ℕ} (hpos : 0 < numEdges)
    (hlt : 24 * numEdges < 2 ^ 32) (hle : b.edges.length ≤ numEdges) (array : Buffer) :
    ∃ fuel num array' l', l.load I fuel array numEdges = some (num, array', l') ∧
      ((num = b.edges.length ∧ array'.words 0 (3 * b.edges.length) = b.words ∧
          l'.handle = FileStream.openAt file (start + b.stream.length) ∧
          (b.edges.length = numEdges → EndsOnTime I file start (24 * numEdges))) ∨
        (num = 0 ∧ b.edges.length = numEdges ∧ ¬EndsOnTime I file start (24 * numEdges))) := by
  have hspace : numEdges * 24 % 2 ^ 32 = 24 * numEdges := by omega
  have hinit := atChunk_init (I := I) hhandle b.content b.stream_ne array numEdges
  obtain ⟨last, fuel, s', hrun, hlast, hbefore, hresult⟩ :=
    hinit.run (numEdges * 24) hI hgreedy hfile (by simp only [afterChunks]; omega)
  obtain ⟨fuel, hload⟩ := EdgeLoader.load_of_loop hhandle _ hrun
  refine ⟨fuel, _, _, _, hload, ?_⟩
  rw [hspace] at hlast hbefore hresult
  rcases hresult with ⟨hend, hall, -, hs'⟩ | ⟨hend, hall, hcontent, hnum⟩
  · refine Or.inl ⟨?_, ?_, hs'.handle, fun hfull k hk hk' => ?_⟩
    · rw [hs'.numEdgesLoaded, b.length_content]
      omega
    · have harray := hs'.array
      rw [b.length_content, show 24 * b.edges.length = 8 * (3 * b.edges.length) by ring] at harray
      have hread : s'.array.read 0 (8 * (3 * b.edges.length)) <+: Buffer.wordBytes b.words := by
        rw [harray]
        exact List.prefix_rfl
      have hwords := Buffer.words_isPrefix hread
      exact hwords.eq_of_length (by simp)
    · -- the array is filled in the chunk in which the stream ends
      rcases Nat.lt_trichotomy k last with hlt' | rfl | hgt
      · exact absurd hk' (hbefore k (Nat.zero_le k) hlt').ne
      · exact hend
      · have hmono := afterChunks_mono I file start (24 * numEdges) hgt
        rw [hall, b.length_content, hfull] at hmono
        omega
  · have hfull : b.edges.length = numEdges := by
      rw [b.length_content] at hcontent
      omega
    exact Or.inr ⟨hnum, hfull, fun hon => hend (hon last hlast hall)⟩

end Call

/-! ## The blocks of a section are loaded -/

section Main

variable {I : Inflater} {file : List UInt8} {start numEdges : ℕ} {blocks : List Block}

/-- **The calls of load** return the blocks of the rest of the file. -/
theorem loads_iff
    (hI : ∀ b ∈ blocks, I.Decodes b.stream b.content ∧ I.Greedy b.stream)
    (hfile : file.drop start = (blocks.map Block.stream).flatten) (hstart : start ≤ file.length)
    (hle : ∀ b ∈ blocks, b.edges.length ≤ numEdges) {l : EdgeLoader}
    (hhandle : l.handle = FileStream.openAt file start) :
    LoadsEdges I numEdges blocks l ↔
      blocks = [] ∨ (24 * numEdges < 2 ^ 32 ∧ Fits I file numEdges start blocks) := by
  induction blocks generalizing l start with
  | nil =>
    have hend : file.length - start = 0 := by
      simpa using congrArg List.length hfile
    obtain rfl : start = file.length := by omega
    exact ⟨fun _ => Or.inl rfl, fun _ => EdgeLoader.loadsZero hhandle numEdges⟩
  | cons b bs ih =>
    obtain ⟨hdecodes, hgreedy⟩ := hI b List.mem_cons_self
    rw [List.map_cons, List.flatten_cons] at hfile
    have hblock : b.stream <+: file.drop start := ⟨_, hfile.symm⟩
    have hrest : file.drop (start + b.stream.length) = (bs.map Block.stream).flatten := by
      rw [← List.drop_drop, hfile, List.drop_left]
    have hlen := hblock.length_le
    rw [List.length_drop] at hlen
    have hbs := fun {l : EdgeLoader} => ih (l := l)
      (fun b hb => hI b (List.mem_cons_of_mem _ hb)) hrest (by omega)
      (fun b hb => hle b (List.mem_cons_of_mem _ hb))
    constructor
    · intro hloads
      obtain ⟨fuel, array', l', hload, hne, -, hnext⟩ := hloads Buffer.zero
      have hlt : 24 * numEdges < 2 ^ 32 := by
        by_contra hge
        exact EdgeLoader.not_load_of_ge hhandle b hdecodes hgreedy hblock (Nat.not_lt.mp hge) hne
          hload
      have hpos := hle b List.mem_cons_self
      obtain ⟨fuel', num, array'', l'', hload', hcases⟩ := EdgeLoader.load_block hhandle b hdecodes
        hgreedy hblock (by omega) hlt hpos Buffer.zero
      obtain ⟨rfl, -, rfl⟩ : b.edges.length = num ∧ array' = array'' ∧ l' = l'' := by
        simpa using EdgeLoader.load_unique hhandle hload hload'
      rcases hcases with ⟨-, -, hhandle', hends⟩ | ⟨hzero, -⟩
      · refine Or.inr ⟨hlt, fun hnil => hne (by simp [hnil]), hends, ?_⟩
        rcases (hbs hhandle').mp hnext with rfl | ⟨-, hfits⟩
        · trivial
        · exact hfits
      · exact absurd hzero hne
    · rintro (hnil | ⟨hlt, hne, hends, hfits⟩)
      · cases hnil
      · intro array
        have hlen : b.edges.length ≠ 0 := fun hzero => hne (List.eq_nil_of_length_eq_zero hzero)
        have hpos := hle b List.mem_cons_self
        obtain ⟨fuel, num, array', l', hload, hcases⟩ := EdgeLoader.load_block hhandle b hdecodes
          hgreedy hblock (by omega) hlt hpos array
        rcases hcases with ⟨rfl, hwords, hhandle', -⟩ | ⟨-, hfull, hlate⟩
        · exact ⟨fuel, array', l', hload, hlen, hwords, (hbs hhandle').mpr (Or.inr ⟨hlt, hfits⟩)⟩
        · exact absurd (hends hfull) hlate

/-- The words of a block, by the position of an edge. -/
theorem Block.loadWord {b : Block} {buffer : Buffer}
    (hwords : buffer.words 0 (3 * b.edges.length) = b.words) {i : ℕ} {e : WeightedEdge UInt64}
    (he : b.edges[i]? = some e) :
    (buffer.loadWord (8 * i)).toNat = e.source ∧
      (buffer.loadWord (8 * (b.edges.length + i))).toNat = e.destination ∧
      buffer.loadWord (8 * (b.edges.length + b.edges.length + i)) = e.weight := by
  have hmem := List.mem_of_getElem? he
  obtain ⟨hi, -⟩ := List.getElem?_eq_some_iff.mp he
  have hword : ∀ j < 3 * b.edges.length, b.words[j]? = some (buffer.loadWord (8 * j)) := by
    intro j hj
    rw [← hwords, Buffer.getElem?_words _ _ hj, Nat.zero_add]
  have hsource := hword i (by omega)
  have hdestination := hword (b.edges.length + i) (by omega)
  have hweight := hword (b.edges.length + b.edges.length + i) (by omega)
  rw [Block.words, List.append_assoc, List.getElem?_append_left (by simpa using hi),
    List.getElem?_map, he] at hsource
  rw [Block.words, List.append_assoc, List.getElem?_append_right (by simp), List.length_map,
    Nat.add_sub_cancel_left, List.getElem?_append_left (by simpa using hi), List.getElem?_map,
    he] at hdestination
  rw [Block.words, List.getElem?_append_right (by simp), List.length_append, List.length_map,
    List.length_map, Nat.add_sub_cancel_left, List.getElem?_map, he] at hweight
  simp only [Option.map_some, Option.some.injEq] at hsource hdestination hweight
  refine ⟨?_, ?_, hweight.symm⟩
  · rw [← hsource, UInt64.toNat_ofNat', Nat.mod_eq_of_lt (b.source_lt e hmem)]
  · rw [← hdestination, UInt64.toNat_ofNat', Nat.mod_eq_of_lt (b.destination_lt e hmem)]

/-- The reader holds the edges `es` of its block, and its loader returns the blocks `bs`. -/
structure HoldsEdges (I : Inflater) (numEdges : ℕ) (r : EdgeReader)
    (es : List (WeightedEdge UInt64)) (bs : List Block) : Prop where
  position : r.reader.numEdges = r.reader.position + es.length
  edges : ∀ i e, es[i]? = some e →
    (EdgeBlockReader.readEdge r.loader.buffer
      ⟨r.reader.position + i, r.reader.numEdges⟩).1 = some e
  maxNumEdges : r.loader.maxNumEdges = numEdges
  loads : LoadsEdges I numEdges bs r.loader.loader

variable {r : EdgeReader} {e : WeightedEdge UInt64} {es : List (WeightedEdge UInt64)}
  {bs : List Block}

/-- An edge of the block is returned. -/
theorem HoldsEdges.take (h : HoldsEdges I numEdges r (e :: es) bs) :
    r.take.1 = some e ∧ HoldsEdges I numEdges r.take.2 es bs := by
  have hposition := h.position
  rw [List.length_cons] at hposition
  have hlt : ¬r.reader.position ≥ r.reader.numEdges := by omega
  refine ⟨h.edges 0 e rfl, ?_, ?_, h.maxNumEdges, h.loads⟩
  · simp only [EdgeReader.take, EdgeBlockReader.readEdge, if_neg hlt]
    omega
  · intro i e' he'
    have hnext := h.edges (i + 1) e' (by simpa using he')
    simp only [EdgeReader.take]
    rw [show (r.reader.readEdge r.loader.buffer).2 =
      ⟨r.reader.position + 1, r.reader.numEdges⟩ by
        rw [EdgeBlockReader.readEdge, if_neg hlt]]
    rwa [Nat.add_assoc, Nat.add_comm 1]

/-- **A call of EdgeBlockLoader::load** gives a reader with the next block. -/
theorem EdgeBlockLoader.load_block {l : EdgeBlockLoader} {b : Block}
    (hmax : l.maxNumEdges = numEdges) (hloads : LoadsEdges I numEdges (b :: bs) l.loader) :
    ∃ fuel reader l', l.load I fuel = some (reader, l') ∧
      HoldsEdges I numEdges ⟨l', reader⟩ b.edges bs := by
  obtain ⟨fuel, array', l', hload, -, hwords, hnext⟩ := hloads l.buffer
  refine ⟨fuel, ⟨0, b.edges.length⟩, ⟨l', l.maxNumEdges, array'⟩, ?_, ?_, ?_, hmax, hnext⟩
  · rw [EdgeBlockLoader.load, hmax, hload]
    rfl
  · exact (Nat.zero_add _).symm
  · intro i e he
    obtain ⟨hi, -⟩ := List.getElem?_eq_some_iff.mp he
    obtain ⟨hsource, hdestination, hweight⟩ := Block.loadWord hwords he
    simp only [Nat.zero_add, EdgeBlockReader.readEdge, if_neg (Nat.not_le.mpr hi), hsource,
      hdestination, hweight]

theorem EdgeBlockLoader.load_end {l : EdgeBlockLoader} (hmax : l.maxNumEdges = numEdges)
    (hloads : LoadsEdges I numEdges [] l.loader) :
    ∃ fuel l', l.load I fuel = some (⟨0, 0⟩, l') := by
  obtain ⟨fuel, array', l', hload, -⟩ := hloads 1 l.buffer
  refine ⟨fuel, ⟨l', l.maxNumEdges, array'⟩, ?_⟩
  rw [EdgeBlockLoader.load, hmax, hload]
  rfl

/-- **The calls of read_edge** return the edges of the block and of those after it. -/
theorem HoldsEdges.enumerates (hne : ∀ b ∈ bs, b.edges ≠ [])
    (h : HoldsEdges I numEdges r es bs) :
    EnumeratesEdges I (es ++ bs.flatMap Block.edges) r := by
  -- the outer induction is on the blocks to come, the inner one on the edges of this block
  induction bs generalizing r es with
  | nil =>
    rw [List.flatMap_nil, List.append_nil]
    induction es generalizing r with
    | nil =>
      obtain ⟨fuel, l', hload⟩ := EdgeBlockLoader.load_end h.maxNumEdges h.loads
      have hnext : r.reader.hasNext = false := by simp [EdgeBlockReader.hasNext, h.position]
      refine ⟨fuel, ⟨l', ⟨0, 0⟩⟩, ?_⟩
      rw [EdgeReader.readEdge, hnext, hload]
      rfl
    | cons e es ih =>
      obtain ⟨htake, hrest⟩ := h.take
      have hnext : r.reader.hasNext = true := by simp [EdgeBlockReader.hasNext, h.position]
      refine ⟨0, r.take.2, ?_, ih hrest⟩
      rw [EdgeReader.readEdge, hnext, ← htake]
      rfl
  | cons b bs ihb =>
    induction es generalizing r with
    | nil =>
      obtain ⟨fuel, reader, l', hload, hholds⟩ :=
        EdgeBlockLoader.load_block h.maxNumEdges h.loads
      have hnext : r.reader.hasNext = false := by simp [EdgeBlockReader.hasNext, h.position]
      cases hb : b.edges with
      | nil => exact absurd hb (hne b List.mem_cons_self)
      | cons e es =>
        rw [hb] at hholds
        obtain ⟨htake, hrest⟩ := hholds.take
        rw [List.nil_append, List.flatMap_cons, hb]
        refine ⟨fuel, _, ?_, ihb (fun b hb => hne b (List.mem_cons_of_mem _ hb)) hrest⟩
        rw [EdgeReader.readEdge, hnext, hload, ← htake]
        rfl
    | cons e es ih =>
      obtain ⟨htake, hrest⟩ := h.take
      have hnext : r.reader.hasNext = true := by simp [EdgeBlockReader.hasNext, h.position]
      refine ⟨0, r.take.2, ?_, ih hrest⟩
      rw [EdgeReader.readEdge, hnext, ← htake]
      rfl

theorem Fits.edges_ne (h : Fits I file numEdges start blocks) : ∀ b ∈ blocks, b.edges ≠ [] := by
  induction blocks generalizing start with
  | nil => intro b hb; cases hb
  | cons b bs ih =>
    intro b' hb'
    rcases List.mem_cons.mp hb' with rfl | hb'
    · exact h.1
    · exact ih h.2.2 b' hb'

/-- **The sections that are loaded** as they should: every block has an edge, and a block that fills
the array ends in the call that fills it. -/
theorem loadsBlocks_iff
    (hI : ∀ b ∈ blocks, I.Decodes b.stream b.content ∧ I.Greedy b.stream)
    (hfile : file.drop start = (blocks.map Block.stream).flatten) (hstart : start ≤ file.length)
    (hle : ∀ b ∈ blocks, b.edges.length ≤ numEdges) :
    LoadsBlocks I file start blocks numEdges ↔
      blocks = [] ∨ (24 * numEdges < 2 ^ 32 ∧ Fits I file numEdges start blocks) := by
  have hloads := fun inputStream : Buffer => loads_iff hI hfile hstart hle
    (l := ⟨FileStream.openAt file start, inputStream⟩) rfl
  constructor
  · intro h
    exact (hloads Buffer.zero).mp (h Buffer.zero).1
  · intro h inputStream
    refine ⟨(hloads inputStream).mpr h, fun buffer => ?_⟩
    have hall := (hloads inputStream).mpr h
    have hnew : EdgeBlockLoader.new ⟨FileStream.openAt file start, inputStream⟩ (24 * numEdges)
        buffer = some ⟨⟨FileStream.openAt file start, inputStream⟩, numEdges, buffer⟩ := by
      rw [EdgeBlockLoader.new, if_neg (by simp), Nat.mul_div_cancel_left _ (by norm_num)]
    cases blocks with
    | nil =>
      -- the first call returns zero, and so does the next one
      have hend : file.length - start = 0 := by
        simpa using congrArg List.length hfile
      obtain rfl : start = file.length := by omega
      obtain ⟨fuel, array', l', hload, hhandle'⟩ := EdgeLoader.load_end (I := I)
        (l := ⟨FileStream.openAt file file.length, inputStream⟩) rfl buffer numEdges
      have hholds : HoldsEdges I numEdges ⟨⟨l', numEdges, array'⟩, ⟨0, 0⟩⟩ [] [] :=
        ⟨rfl, fun i e he => by simp at he, rfl, EdgeLoader.loadsZero hhandle' numEdges⟩
      refine ⟨fuel, _, ?_, hholds.enumerates fun b hb => by cases hb⟩
      rw [EdgeReader.new, hnew, Option.bind_eq_bind, Option.bind_some, EdgeBlockLoader.load, hload]
      rfl
    | cons b bs =>
      obtain ⟨fuel, reader, l', hload, hholds⟩ := EdgeBlockLoader.load_block
        (l := ⟨⟨FileStream.openAt file start, inputStream⟩, numEdges, buffer⟩) rfl hall
      have hfits := (h.resolve_left (List.cons_ne_nil b bs)).2
      refine ⟨fuel, ⟨l', reader⟩, ?_, ?_⟩
      · rw [EdgeReader.new, hnew, Option.bind_eq_bind, Option.bind_some, hload]
        rfl
      · exact hholds.enumerates fun b' hb' => hfits.edges_ne b' (List.mem_cons_of_mem _ hb')

/-- The header of a stored block of 24 bytes, the last one or not, and the edge `1 → 2` of weight
`1.0`. -/
def storedEdge (final : UInt8) : List UInt8 :=
  [final, 24, 0, 231, 255, 1, 0, 0, 0, 0, 0, 0, 0, 2, 0, 0, 0, 0, 0, 0, 0,
    0, 0, 0, 0, 0, 0, 240, 63]

/-- The edge as a block with this stream. -/
def oneEdge (stream : List UInt8) (hstream : stream ≠ []) : Block where
  stream := stream
  edges := [⟨1, 2, 0x3FF0000000000000⟩]
  stream_ne := hstream
  source_lt := by simp
  destination_lt := by simp

/-- A decompressor that produces the content with the byte `pos` of the stream. -/
def fromByte (b : Block) (pos : ℕ) : Inflater :=
  .gated b.stream b.content fun _ consumed => decide (pos ≤ consumed)

theorem fromByte_correct (b : Block) {pos : ℕ} (hpos : pos ≤ b.stream.length) :
    (fromByte b pos).Decodes b.stream b.content ∧ (fromByte b pos).Greedy b.stream :=
  ⟨Inflater.gated_decodes (decide_eq_true hpos), Inflater.gated_greedy fun _ => decide_eq_true hpos⟩

theorem loadsBlocks_oneEdge :
    LoadsBlocks (fromByte (oneEdge (storedEdge 1) (by decide)) 29) (storedEdge 1) 0
      [oneEdge (storedEdge 1) (by decide)] 1 := by
  refine (loadsBlocks_iff ?_ rfl (Nat.zero_le _) ?_).mpr (Or.inr ⟨by norm_num, ?_, ?_, trivial⟩)
  · intro b hb
    obtain rfl := List.mem_singleton.mp hb
    exact fromByte_correct _ (by decide)
  · intro b hb
    obtain rfl := List.mem_singleton.mp hb
    decide
  · exact List.cons_ne_nil _ _
  · intro _ k hk hk'
    -- the first chunk is the whole file
    have hchunk : chunk (storedEdge 1) 0 0 = storedEdge 1 :=
      List.take_of_length_le (by norm_num [storedEdge, EdgeLoader.inputStreamSz])
    cases k with
    | zero =>
      rw [chunkCall, afterChunks, hchunk]
      decide
    | succ k =>
      have hfirst : (afterChunks (fromByte (oneEdge (storedEdge 1) (by decide)) 29) (storedEdge 1) 0
          24 1).2 = 24 := by
        rw [afterChunks, afterChunks, hchunk]
        decide
      have hmono := afterChunks_mono (fromByte (oneEdge (storedEdge 1) (by decide)) 29)
        (storedEdge 1) 0 24 (Nat.le_add_left 1 k)
      rw [hfirst] at hmono
      exact absurd hk (Nat.not_lt.mpr hmono)

/-- The edge in a stream with `n` empty stored blocks behind it. -/
def lateEnd (n : ℕ) : List UInt8 :=
  storedEdge 0 ++ (List.replicate n [0, 0, 0, 255, 255]).flatten ++ [1, 0, 0, 255, 255]

theorem length_lateEnd (n : ℕ) : (lateEnd n).length = 5 * n + 34 := by
  rw [lateEnd, List.length_append, List.length_append, List.length_flatten, List.map_replicate,
    List.sum_replicate]
  simp [storedEdge]
  omega

theorem lateEnd_ne (n : ℕ) : lateEnd n ≠ [] := by
  intro h
  have hlen := length_lateEnd n
  rw [h, List.length_nil] at hlen
  omega

/-- The block of this stream. -/
def lateBlock (n : ℕ) : Block := oneEdge (lateEnd n) (lateEnd_ne n)

/-- An edge fills the array in the first chunk, and its stream ends in a later one. -/
theorem not_loadsBlocks_of_le {n : ℕ} (hn : 2 ^ 20 < 5 * n + 34) :
    ¬LoadsBlocks (fromByte (lateBlock n) 29) (lateEnd n) 0 [lateBlock n] 1 := by
  intro h
  have hlen : (lateBlock n).stream.length = 5 * n + 34 := length_lateEnd n
  have hcontent : (lateBlock n).content.length = 24 := by
    rw [Block.length_content]
    rfl
  have hloads := (h Buffer.zero).1
  rw [loads_iff (fun b hb => by
      rw [List.mem_singleton.mp hb]
      exact fromByte_correct _ (by omega))
    (by simp [lateBlock, oneEdge]) (Nat.zero_le _)
    (fun b hb => by rw [List.mem_singleton.mp hb]; rfl) rfl] at hloads
  obtain ⟨-, -, hends, -⟩ := hloads.resolve_left (List.cons_ne_nil _ _)
  have hchunk : (chunk (lateEnd n) 0 0).length = 2 ^ 20 := by
    rw [chunk, List.length_take, List.length_drop, length_lateEnd, EdgeLoader.inputStreamSz]
    omega
  have hmin : min (2 ^ 20) (5 * n + 34 - 0) = 2 ^ 20 := by omega
  have hend := hends rfl 0 (by norm_num [afterChunks, fromByte, Inflater.gated]) (by
    simp only [afterChunks, fromByte, Inflater.gated, hchunk, hlen, hmin]
    norm_num [hcontent])
  simp only [chunkCall, afterChunks, fromByte, Inflater.gated, hchunk, hlen, hmin,
    InflateCode.of_eq_streamEnd, decide_eq_true_iff] at hend
  omega

theorem not_loadsBlocks_lateEnd :
    ((fromByte (lateBlock (2 ^ 18)) 29).Decodes (lateEnd (2 ^ 18)) (lateBlock (2 ^ 18)).content ∧
      (fromByte (lateBlock (2 ^ 18)) 29).Greedy (lateEnd (2 ^ 18))) ∧
    ¬LoadsBlocks (fromByte (lateBlock (2 ^ 18)) 29) (lateEnd (2 ^ 18)) 0
      [lateBlock (2 ^ 18)] 1 := by
  have hlen : (lateBlock (2 ^ 18)).stream.length = 5 * 2 ^ 18 + 34 := length_lateEnd (2 ^ 18)
  exact ⟨fromByte_correct (lateBlock (2 ^ 18)) (by omega), not_loadsBlocks_of_le (by norm_num)⟩

end Main

end Graphlog

end GfeDriver
