import GfeDriver.Network.Message
import GfeDriver.Foundation.ShortReads
import Mathlib.Data.Nat.Log

/-!
# How messages are read from a connection

The server and the client read a message in the same way. A first call asks for the four bytes of
its size; the buffer grows if the message does not fit; and a loop reads the rest. The assertions
are compiled out. Then nothing looks at how many bytes the first call returned: when there are less
than four, the size is that of the bytes in the buffer, some of which an earlier message left there.
And only the first call of the server looks for the end of the connection.

Where the connection is cut is a function of the position, as in `Reception.granted`. What the
server does with a message is a function of the message: whether it sets `m_terminate`.

## Main definitions

* `ReadBuffer`, `growServer`, `growClient`: the read buffers, and how they grow
* `readMessage`: a message, from the first call on
* `ConnectionHandler`, `execute`: the loop of the server
* `waitResponse`: the client
* `WireMessage`, `Sent`: the messages that the other end of a connection sent

## Main results

* `frameLength_eq_iff`: when as many bytes are read as the message has
* `executeBody_eq_some`, `exists_executeBody`: an iteration of the server
* `execute_handled_iff`, `waitResponse_message_iff`: when the messages that are read are those sent
* `exists_waitResponse_iff`: when the loop of the client ends
-/

namespace GfeDriver

namespace Network

open Foundation

/-! ## The read buffers -/

/-- A read buffer, with its capacity. -/
structure ReadBuffer where
  sz : ℕ
  bytes : Buffer

/-- `m_buffer_read_sz`, at the start. -/
def bufferDefaultSz : ℕ := 4096

/-- `realloc`: the bytes of the old block are kept, the others are those of `fresh`. -/
def ReadBuffer.realloc (fresh : Buffer) (sz : ℕ) (b : ReadBuffer) : ReadBuffer where
  sz := sz
  bytes i := if i < b.sz then b.bytes i else fresh i

/-- The server reallocates its buffer to the next power of 2. -/
def growServer (fresh : Buffer) (messageSz : ℕ) (b : ReadBuffer) : ReadBuffer :=
  if b.sz < messageSz then b.realloc fresh (2 ^ Nat.clog 2 messageSz) else b

/-- The client frees its buffer and allocates another one, in which it writes the size again. -/
def growClient (fresh : Buffer) (messageSz : ℕ) (b : ReadBuffer) : ReadBuffer :=
  if b.sz < messageSz then ⟨messageSz, fresh.write 0 (leBytes 4 messageSz)⟩ else b

/-! ## A message -/

/-- `recv(.., sizeof(uint32_t), ..)` at the start of the buffer. -/
def firstCall (cut : ℕ → ℕ) (b : Buffer) (stream : ByteStream) : Reception :=
  Reception.read cut 4 ⟨b, stream, 0⟩

/-- A message that was read: the buffer and the connection after it, and the bytes read for it. -/
structure Received where
  bufferRead : ReadBuffer
  stream : ByteStream
  message : List UInt8

/-- The message, from its size on. -/
def readMessage (cut : ℕ → ℕ) (grow : ℕ → ReadBuffer → ReadBuffer) (fuel sz : ℕ) (r : Reception) :
    Option Received :=
  let messageSz := leValue (r.buffer.read 0 4)
  let grown := grow messageSz ⟨sz, r.buffer⟩
  (readUntil cut messageSz fuel ⟨grown.bytes, r.stream, r.numBytesRead⟩).map fun r =>
    ⟨⟨grown.sz, r.buffer⟩, r.stream, r.buffer.read 0 r.numBytesRead⟩

/-! ## The server and the client -/

/-- `ConnectionHandler`, with the messages given to `handle_request` so far. -/
structure ConnectionHandler where
  bufferRead : ReadBuffer
  stream : ByteStream
  terminate : Bool
  handled : List (List UInt8)

/-- A handler at the start, on memory that is not cleared. -/
def ConnectionHandler.start (bytes : Buffer) (stream : ByteStream) : ConnectionHandler :=
  ⟨⟨bufferDefaultSz, bytes⟩, stream, false, []⟩

/-- `!m_terminate` -/
def ConnectionHandler.running (h : ConnectionHandler) : Bool := !h.terminate

/-- An iteration of the loop of `execute`. `fresh` is what memory holds that is allocated after so
many bytes of the connection, and `terminates` tells the messages on which `handle_request` sets
`m_terminate`. -/
def executeBody (cut : ℕ → ℕ) (fresh : ℕ → Buffer) (terminates : List UInt8 → Bool) (fuel : ℕ)
    (h : ConnectionHandler) : Option ConnectionHandler :=
  let r := firstCall cut h.bufferRead.bytes h.stream
  if r.numBytesRead = 0 then
    some { h with bufferRead.bytes := r.buffer, stream := r.stream, terminate := true }
  else
    (readMessage cut (growServer (fresh r.stream.returned)) fuel h.bufferRead.sz r).map fun m =>
      ⟨m.bufferRead, m.stream, terminates m.message, h.handled ++ [m.message]⟩

/-- `ConnectionHandler::execute`. -/
def execute (cut : ℕ → ℕ) (fresh : ℕ → Buffer) (terminates : List UInt8 → Bool) (fuel : ℕ)
    (h : ConnectionHandler) : Option ConnectionHandler :=
  whileLoop ConnectionHandler.running (executeBody cut fresh terminates fuel) fuel h

/-- `Client::wait_response`. -/
def waitResponse (cut : ℕ → ℕ) (fresh : ℕ → Buffer) (fuel : ℕ) (b : ReadBuffer)
    (stream : ByteStream) : Option Received :=
  let r := firstCall cut b.bytes stream
  readMessage cut (growClient (fresh r.stream.returned)) fuel b.sz r

/-! ## What is sent -/

/-- The bytes of a message: the first four are its size. -/
def WellFramed (m : List UInt8) : Prop := headerSz ≤ m.length ∧ leValue (m.take 4) = m.length

instance (m : List UInt8) : Decidable (WellFramed m) :=
  inferInstanceAs (Decidable (_ ∧ _))

/-- A message as it is sent. -/
abbrev WireMessage := { m : List UInt8 // WellFramed m }

/-- What one end of a connection sends before it closes the connection: messages, and the part of
another one. -/
structure Sent where
  messages : List WireMessage
  tail : List UInt8
  incomplete : ∃ m : WireMessage, tail <+: m.val ∧ tail.length < m.val.length

/-- The connection before anything is read. -/
def Sent.stream (s : Sent) : ByteStream := ⟨(s.messages.map Subtype.val).flatten ++ s.tail, 0⟩

/-- The messages of the constructor are well framed. -/
theorem wellFramed_message (b : Buffer) (code : ℕ) (args : List Arg)
    (hsize : headerSz + argsSize args < 256 ^ 4) :
    WellFramed ((message b code args).read 0 (headerSz + argsSize args)) := by
  constructor
  · rw [Buffer.length_read]
    exact Nat.le_add_right _ _
  · have hle : 4 ≤ headerSz + argsSize args := le_trans (by decide) (Nat.le_add_right headerSz _)
    rw [Buffer.length_read, Buffer.take_read hle]
    exact messageSize_message b code args hsize

/-! ## The length of a frame -/

section Frame

variable {cut : ℕ → ℕ} {b : Buffer} {stream : ByteStream} {header : List UInt8}

/-- How many bytes the first call returns. -/
def firstCount (cut : ℕ → ℕ) (stream : ByteStream) : ℕ :=
  min (max 1 (cut stream.returned)) (min 4 stream.pending.length)

/-- The bytes taken for a size, when the buffer starts with `header`. -/
def seenHeader (cut : ℕ → ℕ) (header : List UInt8) (stream : ByteStream) : List UInt8 :=
  stream.pending.take (firstCount cut stream) ++ header.drop (firstCount cut stream)

/-- How many bytes are read for a message. -/
def frameLength (cut : ℕ → ℕ) (header : List UInt8) (stream : ByteStream) : ℕ :=
  max (firstCount cut stream) (leValue (seenHeader cut header stream))

/-- The bytes of the size of `m` that the first call does not return, at this offset of the
connection, are in the buffer already. -/
def HeaderSeen (cut : ℕ → ℕ) (header : List UInt8) (offset : ℕ) (m : List UInt8) : Prop :=
  header.drop (min (max 1 (cut offset)) 4) = (m.take 4).drop (min (max 1 (cut offset)) 4)

instance (offset : ℕ) (m : List UInt8) : Decidable (HeaderSeen cut header offset m) :=
  inferInstanceAs (Decidable (_ = _))

theorem firstCount_le_four : firstCount cut stream ≤ 4 :=
  (min_le_right _ _).trans (min_le_left _ _)

/-- What the first call returned is at the start of the buffer. -/
theorem firstCall_holds : (firstCall cut b stream).Holds stream (firstCount cut stream) := by
  have h := (Reception.holds_zero b stream).advance
    (Reception.granted_le_length cut 4 ⟨b, stream, 0⟩)
  rwa [Nat.zero_add] at h

/-- The size that is looked at: what the first call returned, and the old bytes behind it. -/
theorem read_four_firstCall :
    (firstCall cut b stream).buffer.read 0 4 = seenHeader cut (b.read 0 4) stream := by
  have hle : firstCount cut stream ≤ 4 := firstCount_le_four
  obtain ⟨k, hk⟩ := Nat.exists_eq_add_of_le hle
  have hold : (firstCall cut b stream).buffer.read (0 + firstCount cut stream) k =
      b.read (0 + firstCount cut stream) k := by
    apply Buffer.read_write_of_disjoint
    refine Or.inr (Nat.add_le_add_left ?_ 0)
    rw [List.length_take]
    exact min_le_left _ _
  rw [seenHeader, Buffer.drop_read, hk, Buffer.read_append, firstCall_holds.read_eq, hold,
    Nat.add_sub_cancel_left]

theorem firstCount_pos (cut : ℕ → ℕ) (h : stream.pending ≠ []) : 0 < firstCount cut stream := by
  have hlength := List.length_pos_iff.mpr h
  rw [firstCount]
  omega

/-- **As many bytes are read as the message has** if and only if its size is seen. -/
theorem frameLength_eq_iff {m rest : List UInt8} (hm : WellFramed m) (hheader : header.length = 4)
    (hpending : stream.pending = m ++ rest) :
    frameLength cut header stream = m.length ↔ HeaderSeen cut header stream.returned m := by
  obtain ⟨hlength, hsize⟩ := hm
  rw [headerSz] at hlength
  have hcount : firstCount cut stream = min (max 1 (cut stream.returned)) 4 := by
    rw [firstCount, hpending, List.length_append]
    omega
  have hle : firstCount cut stream ≤ 4 := firstCount_le_four
  have htake : stream.pending.take (firstCount cut stream) =
      (m.take 4).take (firstCount cut stream) := by
    rw [hpending, List.take_append_of_le_length (by omega), List.take_take, min_eq_left hle]
  -- the size that is seen is that of the message, when the old bytes agree with it
  have hseen : seenHeader cut header stream = m.take 4 ↔
      HeaderSeen cut header stream.returned m := by
    rw [HeaderSeen, ← hcount, seenHeader, htake]
    conv_lhs => rhs; rw [← List.take_append_drop (firstCount cut stream) (m.take 4)]
    exact List.append_right_inj _
  rw [← hseen, frameLength]
  constructor
  · intro hframe
    have hvalue : leValue (seenHeader cut header stream) = leValue (m.take 4) := by
      rw [hsize]
      omega
    have hfour : (seenHeader cut header stream).length = 4 := by
      rw [seenHeader, htake, List.length_append, List.length_take, List.length_take,
        List.length_drop, hheader]
      omega
    have hfour' : (m.take 4).length = 4 := by
      rw [List.length_take]
      omega
    exact (leValue_inj (hfour.trans hfour'.symm)).mp hvalue
  · intro heq
    rw [heq, hsize]
    omega

end Frame

/-! ## Reading a message -/

section ReadMessage

variable {cut : ℕ → ℕ} {b : Buffer} {stream : ByteStream} {grow : ℕ → ReadBuffer → ReadBuffer}
  {fuel sz : ℕ}

/-- The size that was read is still there when the buffer has grown. -/
def KeepsHeader (grow : ℕ → ReadBuffer → ReadBuffer) (sz : ℕ) : Prop :=
  ∀ bytes : Buffer,
    (grow (leValue (bytes.read 0 4)) ⟨sz, bytes⟩).bytes.read 0 4 = bytes.read 0 4

theorem growServer_keepsHeader (fresh : Buffer) (h : 4 ≤ sz) :
    KeepsHeader (growServer fresh) sz := by
  intro bytes
  rw [growServer]
  split
  · apply Buffer.read_congr
    intro i _ hi
    exact if_pos (hi.trans_le (by simpa using h))
  · rfl

theorem le_growServer_sz (fresh : Buffer) (messageSz : ℕ) (b : ReadBuffer) :
    b.sz ≤ (growServer fresh messageSz b).sz := by
  rw [growServer]
  split
  · exact (Nat.le_of_lt ‹_›).trans (Nat.le_pow_clog (by norm_num) messageSz)
  · exact le_rfl

theorem growClient_keepsHeader (fresh : Buffer) (sz : ℕ) : KeepsHeader (growClient fresh) sz := by
  intro bytes
  rw [growClient]
  split
  · have hread := Buffer.read_write fresh 0 (leBytes 4 (leValue (bytes.read 0 4)))
    have hbytes := leBytes_leValue (bytes.read 0 4)
    rw [length_leBytes] at hread
    rw [Buffer.length_read] at hbytes
    exact hread.trans hbytes
  · rfl

/-- The start of the loop, in the buffer that has grown. -/
theorem grown_holds (hkeep : KeepsHeader grow sz) :
    Reception.Holds stream (firstCount cut stream)
      ⟨(grow (leValue ((firstCall cut b stream).buffer.read 0 4))
        ⟨sz, (firstCall cut b stream).buffer⟩).bytes, (firstCall cut b stream).stream,
        (firstCall cut b stream).numBytesRead⟩ := by
  apply firstCall_holds.of_read_eq
  rw [← Buffer.take_read firstCount_le_four, hkeep, Buffer.take_read firstCount_le_four]

/-- **A message that was read** is the next bytes of the connection. -/
theorem readMessage_eq_some {v : Received} (hkeep : KeepsHeader grow sz)
    (h : readMessage cut grow fuel sz (firstCall cut b stream) = some v) :
    frameLength cut (b.read 0 4) stream ≤ stream.pending.length ∧
      v.stream = stream.advance (frameLength cut (b.read 0 4) stream) ∧
      v.message = stream.pending.take (frameLength cut (b.read 0 4) stream) ∧
      v.message = v.bufferRead.bytes.read 0 (frameLength cut (b.read 0 4) stream) ∧
      v.bufferRead.sz = (grow (leValue ((firstCall cut b stream).buffer.read 0 4))
        ⟨sz, (firstCall cut b stream).buffer⟩).sz := by
  obtain ⟨r', hr', rfl⟩ := Option.map_eq_some_iff.mp h
  have hholds := (grown_holds hkeep).readUntil hr'
  have hframe : frameLength cut (b.read 0 4) stream =
      max (firstCount cut stream) (leValue ((firstCall cut b stream).buffer.read 0 4)) := by
    rw [read_four_firstCall, frameLength]
  rw [← hframe] at hholds
  refine ⟨hholds.le_length, hholds.stream_eq, ?_, ?_, ?_⟩
  · show r'.buffer.read 0 r'.numBytesRead = _
    rw [hholds.numBytesRead_eq, hholds.read_eq]
  · show r'.buffer.read 0 r'.numBytesRead = _
    rw [hholds.numBytesRead_eq]
  · rfl

/-- It is read when the connection has enough bytes. -/
theorem exists_readMessage (hkeep : KeepsHeader grow sz)
    (hpending : frameLength cut (b.read 0 4) stream ≤ stream.pending.length)
    (hfuel : frameLength cut (b.read 0 4) stream < fuel) :
    ∃ v, readMessage cut grow fuel sz (firstCall cut b stream) = some v := by
  rw [frameLength, ← read_four_firstCall (b := b)] at hpending hfuel
  have hfuel' : leValue ((firstCall cut b stream).buffer.read 0 4) - firstCount cut stream < fuel :=
    (Nat.sub_le _ _).trans_lt ((le_max_right _ _).trans_lt hfuel)
  obtain ⟨r', hr'⟩ := (grown_holds hkeep).exists_readUntil cut
    ((le_max_right _ _).trans hpending) hfuel'
  exact ⟨_, congrArg (Option.map _) hr'⟩

end ReadMessage

/-! ## The loop of the server -/

section Execute

variable {cut : ℕ → ℕ} {fresh : ℕ → Buffer} {terminates : List UInt8 → Bool} {fuel : ℕ}
  {h h' : ConnectionHandler}

/-- The handler after a message of `n` bytes. -/
structure Serves (terminates : List UInt8 → Bool) (h h' : ConnectionHandler) (n : ℕ) : Prop where
  le_length : n ≤ h.stream.pending.length
  stream_eq : h'.stream = h.stream.advance n
  terminate_eq : h'.terminate = terminates (h.stream.pending.take n)
  handled_eq : h'.handled = h.handled ++ [h.stream.pending.take n]
  sz_le : h.bufferRead.sz ≤ h'.bufferRead.sz
  read_eq : h'.bufferRead.bytes.read 0 n = h.stream.pending.take n

/-- The length of the next message of a handler. -/
def ConnectionHandler.nextLength (cut : ℕ → ℕ) (h : ConnectionHandler) : ℕ :=
  frameLength cut (h.bufferRead.bytes.read 0 4) h.stream

/-- **At the end of the connection** the loop stops. -/
theorem executeBody_of_nil (cut : ℕ → ℕ) (fresh : ℕ → Buffer) (terminates : List UInt8 → Bool)
    (fuel : ℕ) (hpending : h.stream.pending = []) :
    ∃ h', executeBody cut fresh terminates fuel h = some h' ∧ h'.terminate = true ∧
      h'.handled = h.handled := by
  have hcount : (firstCall cut h.bufferRead.bytes h.stream).numBytesRead = 0 := by
    rw [firstCall_holds.numBytesRead_eq, firstCount, hpending]
    simp
  exact ⟨_, if_pos hcount, rfl, rfl⟩

theorem executeBody_of_ne_nil (hpending : h.stream.pending ≠ []) :
    executeBody cut fresh terminates fuel h =
      (readMessage cut
        (growServer (fresh (firstCall cut h.bufferRead.bytes h.stream).stream.returned)) fuel
        h.bufferRead.sz (firstCall cut h.bufferRead.bytes h.stream)).map fun m =>
        ⟨m.bufferRead, m.stream, terminates m.message, h.handled ++ [m.message]⟩ := by
  have hpos := firstCount_pos cut hpending
  apply if_neg
  rw [firstCall_holds.numBytesRead_eq]
  exact hpos.ne'

/-- **An iteration** that ends has given a message to `handle_request`. -/
theorem executeBody_eq_some (hpending : h.stream.pending ≠ []) (hsz : 4 ≤ h.bufferRead.sz)
    (hbody : executeBody cut fresh terminates fuel h = some h') :
    Serves terminates h h' (h.nextLength cut) := by
  rw [executeBody_of_ne_nil hpending] at hbody
  obtain ⟨m, hm, rfl⟩ := Option.map_eq_some_iff.mp hbody
  obtain ⟨hle, hstream, hmessage, hread, hcapacity⟩ :=
    readMessage_eq_some (growServer_keepsHeader _ hsz) hm
  refine ⟨hle, hstream, congrArg terminates hmessage, ?_, ?_, hread.symm.trans hmessage⟩
  · show h.handled ++ [m.message] = _
    rw [hmessage]
    rfl
  · show h.bufferRead.sz ≤ m.bufferRead.sz
    rw [hcapacity]
    exact le_growServer_sz _ _
      ⟨h.bufferRead.sz, (firstCall cut h.bufferRead.bytes h.stream).buffer⟩

/-- An iteration ends when the connection has enough bytes. -/
theorem exists_executeBody (fresh : ℕ → Buffer) (terminates : List UInt8 → Bool)
    (hpending : h.stream.pending ≠ []) (hsz : 4 ≤ h.bufferRead.sz)
    (hle : h.nextLength cut ≤ h.stream.pending.length) (hfuel : h.nextLength cut < fuel) :
    ∃ h', executeBody cut fresh terminates fuel h = some h' := by
  obtain ⟨m, hm⟩ := exists_readMessage (growServer_keepsHeader
    (fresh (firstCall cut h.bufferRead.bytes h.stream).stream.returned) hsz) hle hfuel
  rw [executeBody_of_ne_nil hpending, hm]
  exact ⟨_, rfl⟩

theorem executeBody_handled (hbody : executeBody cut fresh terminates fuel h = some h') :
    h.handled <+: h'.handled := by
  rw [executeBody] at hbody
  split at hbody
  · obtain rfl := Option.some.inj hbody
    exact List.prefix_rfl
  · obtain ⟨m, -, rfl⟩ := Option.map_eq_some_iff.mp hbody
    exact List.prefix_append _ _

/-- What was given to `handle_request` is not taken back. -/
theorem whileLoop_handled {rounds : ℕ}
    (hloop : whileLoop ConnectionHandler.running (executeBody cut fresh terminates fuel) rounds h =
      some h') : h.handled <+: h'.handled :=
  (whileLoop_invariant (fun g => h.handled <+: g.handled)
    (fun _ _ hg _ hbody => hg.trans (executeBody_handled hbody)) rounds h h' List.prefix_rfl
    hloop).1

/-- The size of each message is seen. The buffer starts with `header`, and later with the size of
the message before. -/
def HeadersSeen (cut : ℕ → ℕ) : List UInt8 → ℕ → List WireMessage → Prop
  | _, _, [] => True
  | header, offset, m :: ms =>
    HeaderSeen cut header offset m.val ∧
      HeadersSeen cut (m.val.take 4) (offset + m.val.length) ms

/-- No message but the last one terminates the handler, and only behind such a message the
connection is closed in the middle of another one. -/
def EndsWell (terminates : List UInt8 → Bool) (tail : List UInt8) (ms : List WireMessage) : Prop :=
  (∀ m ∈ ms.dropLast, terminates m.val = false) ∧
    (tail = [] ∨ ∃ m ∈ ms.getLast?, terminates m.val = true)

variable {tail : List UInt8} {m : WireMessage} {ms : List WireMessage}

theorem endsWell_nil : EndsWell terminates tail [] ↔ tail = [] := by
  simp [EndsWell]

theorem endsWell_cons :
    EndsWell terminates tail (m :: ms) ↔
      if terminates m.val then ms = [] else EndsWell terminates tail ms := by
  cases ms with
  | nil => cases hm : terminates m.val <;> simp [EndsWell, hm]
  | cons m' ms => cases hm : terminates m.val <;> simp [EndsWell, hm]

/-- A message whose size is seen, and the others behind it. -/
theorem Serves.of_append {rest : List UInt8} (hserves : Serves terminates h h' m.val.length)
    (hpending : h.stream.pending = m.val ++ rest) :
    h'.stream = ⟨rest, h.stream.returned + m.val.length⟩ ∧ h'.terminate = terminates m.val ∧
      h'.handled = h.handled ++ [m.val] ∧ h'.bufferRead.bytes.read 0 4 = m.val.take 4 := by
  obtain ⟨-, hstream, hterminate, hhandled, -, hread⟩ := hserves
  have htake : h.stream.pending.take m.val.length = m.val := by
    rw [hpending]
    exact List.take_left' rfl
  rw [htake] at hterminate hhandled hread
  refine ⟨?_, hterminate, hhandled, ?_⟩
  · rw [hstream, ByteStream.advance, hpending, List.drop_left' rfl]
  · have hfour : 4 ≤ m.val.length := le_trans (by decide) m.prop.1
    rw [← Buffer.take_read hfour, hread]

theorem WireMessage.ne_nil (m : WireMessage) : m.val ≠ [] := by
  intro hm
  have hlength := m.prop.1
  rw [hm] at hlength
  exact absurd hlength (by decide)

theorem pending_ne_nil {rest : List UInt8} (hpending : h.stream.pending = m.val ++ rest) :
    h.stream.pending ≠ [] := by
  rw [hpending]
  exact List.append_ne_nil_of_left_ne_nil m.ne_nil _

theorem running_of_eq_false (h : ConnectionHandler) (hterminate : h.terminate = false) :
    h.running = true := by
  rw [ConnectionHandler.running, hterminate, Bool.not_false]

theorem not_running_of_eq_true (h : ConnectionHandler) (hterminate : h.terminate = true) :
    h.running = false := by
  rw [ConnectionHandler.running, hterminate, Bool.not_true]

theorem nextLength_eq_iff {rest : List UInt8} (hpending : h.stream.pending = m.val ++ rest) :
    h.nextLength cut = m.val.length ↔
      HeaderSeen cut (h.bufferRead.bytes.read 0 4) h.stream.returned m.val :=
  frameLength_eq_iff m.prop (Buffer.length_read _ _ _) hpending

/-- **The messages sent are handled**, when their sizes are seen and the connection ends well. -/
theorem exists_execute (fresh : ℕ → Buffer) (rounds : ℕ) (hterminate : h.terminate = false)
    (hsz : 4 ≤ h.bufferRead.sz)
    (hpending : h.stream.pending = (ms.map Subtype.val).flatten ++ tail)
    (hseen : HeadersSeen cut (h.bufferRead.bytes.read 0 4) h.stream.returned ms)
    (hends : EndsWell terminates tail ms) (hfuel : ∀ m ∈ ms, m.val.length < fuel)
    (hrounds : ms.length + 1 < rounds) :
    ∃ h', whileLoop ConnectionHandler.running (executeBody cut fresh terminates fuel) rounds h =
      some h' ∧ h'.handled = h.handled ++ ms.map Subtype.val := by
  induction ms generalizing h rounds with
  | nil =>
    rw [endsWell_nil] at hends
    subst hends
    obtain ⟨rounds, rfl⟩ : ∃ n, rounds = n + 2 := ⟨rounds - 2, by simp at hrounds; omega⟩
    obtain ⟨h₁, hbody, hstop, hhandled⟩ := executeBody_of_nil cut fresh terminates fuel
      hpending
    refine ⟨h₁, ?_, by simpa using hhandled⟩
    rw [whileLoop_of_cond (running_of_eq_false h hterminate) hbody,
      whileLoop_of_not (not_running_of_eq_true h₁ hstop)]
  | cons m ms ih =>
    obtain ⟨hfirst, hothers⟩ := hseen
    rw [List.map_cons, List.flatten_cons, List.append_assoc] at hpending
    obtain ⟨rounds, rfl⟩ : ∃ n, rounds = n + 2 := ⟨rounds - 2, by simp at hrounds; omega⟩
    have hne := pending_ne_nil hpending
    have hlength := (nextLength_eq_iff hpending).mpr hfirst
    have hle : h.nextLength cut ≤ h.stream.pending.length := by
      rw [hlength, hpending, List.length_append]
      exact Nat.le_add_right _ _
    obtain ⟨h₁, hbody⟩ := exists_executeBody fresh terminates hne hsz hle
      (hlength ▸ hfuel m List.mem_cons_self)
    have hserves := executeBody_eq_some hne hsz hbody
    rw [hlength] at hserves
    obtain ⟨hstream, hstop, hhandled, hheader⟩ := hserves.of_append hpending
    rw [whileLoop_of_cond (running_of_eq_false h hterminate) hbody]
    rw [endsWell_cons] at hends
    cases hm : terminates m.val with
    | true =>
      -- the last message
      rw [if_pos hm] at hends
      subst hends
      exact ⟨h₁, whileLoop_of_not (not_running_of_eq_true h₁ (hstop.trans hm)) _, hhandled⟩
    | false =>
      rw [hm, if_neg Bool.false_ne_true] at hends
      have hrest : h₁.stream.pending = (ms.map Subtype.val).flatten ++ tail := by rw [hstream]
      obtain ⟨h', hloop, hend⟩ := ih (rounds + 1) (hstop.trans hm) (hsz.trans hserves.sz_le)
        hrest (by rw [hheader, hstream]; exact hothers) hends
        (fun m' hm' => hfuel m' (List.mem_cons_of_mem m hm')) (by simp at hrounds; omega)
      refine ⟨h', hloop, ?_⟩
      rw [hend, hhandled, List.append_assoc]
      rfl

/-- **Only then**: a handler that handled the messages sent has seen their sizes. -/
theorem execute_of_handled {rounds : ℕ} (hterminate : h.terminate = false)
    (hsz : 4 ≤ h.bufferRead.sz)
    (hpending : h.stream.pending = (ms.map Subtype.val).flatten ++ tail)
    (hloop : whileLoop ConnectionHandler.running (executeBody cut fresh terminates fuel) rounds h =
      some h')
    (hhandled : h'.handled = h.handled ++ ms.map Subtype.val) :
    HeadersSeen cut (h.bufferRead.bytes.read 0 4) h.stream.returned ms ∧
      EndsWell terminates tail ms := by
  induction ms generalizing h rounds with
  | nil =>
    rw [endsWell_nil]
    refine ⟨trivial, ?_⟩
    by_contra htail
    -- something is handled that was not sent
    obtain ⟨rounds', h₁, hbody, hrest⟩ :=
      exists_of_whileLoop_eq_some hloop (running_of_eq_false h hterminate)
    have hserves := executeBody_eq_some (hpending ▸ htail) hsz hbody
    have hmore := (whileLoop_handled hrest).length_le
    rw [hserves.handled_eq, hhandled] at hmore
    simp at hmore
  | cons m ms ih =>
    rw [List.map_cons, List.flatten_cons, List.append_assoc] at hpending
    have hne := pending_ne_nil hpending
    obtain ⟨rounds', h₁, hbody, hrest⟩ :=
      exists_of_whileLoop_eq_some hloop (running_of_eq_false h hterminate)
    have hserves := executeBody_eq_some hne hsz hbody
    -- what was handled first is the first message, so it has the length of this message
    have hfirst : h.stream.pending.take (h.nextLength cut) = m.val := by
      have hprefix := whileLoop_handled hrest
      rw [hserves.handled_eq, hhandled, List.prefix_append_right_inj, List.map_cons,
        List.cons_prefix_cons] at hprefix
      exact hprefix.1
    have hlength : h.nextLength cut = m.val.length := by
      rw [← hfirst, List.length_take, min_eq_left hserves.le_length]
    rw [hlength] at hserves
    obtain ⟨hstream, hstop, hhandled₁, hheader⟩ := hserves.of_append hpending
    have hrestPending : h₁.stream.pending = (ms.map Subtype.val).flatten ++ tail := by rw [hstream]
    rw [endsWell_cons]
    refine (and_assoc).mpr ⟨(nextLength_eq_iff hpending).mp hlength, ?_⟩
    cases hm : terminates m.val with
    | true =>
      -- the handler stops, so that the first message is all that was sent
      obtain rfl := eq_of_whileLoop_eq_some hrest (not_running_of_eq_true h₁ (hstop.trans hm))
      rw [hhandled₁, List.map_cons, List.append_cancel_left_eq, List.cons.injEq] at hhandled
      obtain rfl : ms = [] := List.map_eq_nil_iff.mp hhandled.2.symm
      exact ⟨trivial, (if_pos rfl).mpr rfl⟩
    | false =>
      rw [if_neg Bool.false_ne_true]
      have hothers := ih (hstop.trans hm) (hsz.trans hserves.sz_le) hrestPending hrest
        (by rw [hhandled, hhandled₁, List.append_assoc]; rfl)
      rwa [hheader, hstream] at hothers

/-- **The server handles the messages sent** if and only if their sizes are seen and the connection
ends well. -/
theorem execute_handled_iff (cut : ℕ → ℕ) (fresh : ℕ → Buffer) (terminates : List UInt8 → Bool)
    (bytes : Buffer) (s : Sent) :
    (∃ fuel h, execute cut fresh terminates fuel (ConnectionHandler.start bytes s.stream) =
        some h ∧ h.handled = s.messages.map Subtype.val) ↔
      HeadersSeen cut (bytes.read 0 4) 0 s.messages ∧
        EndsWell terminates s.tail s.messages := by
  have hsz : 4 ≤ (ConnectionHandler.start bytes s.stream).bufferRead.sz := by
    show 4 ≤ bufferDefaultSz
    decide
  constructor
  · rintro ⟨fuel, h, hloop, hhandled⟩
    exact execute_of_handled rfl hsz rfl hloop hhandled
  · rintro ⟨hseen, hends⟩
    -- more iterations than messages, and in each more than the message has bytes
    set bound := (s.messages.map fun m => m.val.length).sum + s.messages.length + 2 with hbound
    have hfuel : ∀ m ∈ s.messages, m.val.length < bound := by
      intro m hm
      have hle := List.le_sum_of_mem (List.mem_map_of_mem (f := fun m => m.val.length) hm)
      omega
    obtain ⟨h, hloop, hhandled⟩ := exists_execute fresh bound
      (h := ConnectionHandler.start bytes s.stream) rfl hsz rfl hseen hends hfuel (by omega)
    exact ⟨bound, h, hloop, hhandled⟩

end Execute

/-! ## The client -/

theorem waitResponse_eq (cut : ℕ → ℕ) (fresh : ℕ → Buffer) (fuel : ℕ) (b : ReadBuffer)
    (stream : ByteStream) :
    waitResponse cut fresh fuel b stream =
      readMessage cut (growClient (fresh (firstCall cut b.bytes stream).stream.returned)) fuel b.sz
        (firstCall cut b.bytes stream) := rfl

/-- **The client delivers the response sent** if and only if it is complete and its size is seen. -/
theorem waitResponse_message_iff (cut : ℕ → ℕ) (fresh : ℕ → Buffer) (b : ReadBuffer) (s : Sent) :
    (∃ fuel v, waitResponse cut fresh fuel b s.stream = some v ∧
        s.messages.head?.map Subtype.val = some v.message) ↔
      ∃ m ∈ s.messages.head?, HeaderSeen cut (b.bytes.read 0 4) 0 m.val := by
  have hkeep := growClient_keepsHeader (fresh (firstCall cut b.bytes s.stream).stream.returned) b.sz
  cases hmessages : s.messages with
  | nil => simp
  | cons m ms =>
    have hpending : s.stream.pending =
        m.val ++ ((ms.map Subtype.val).flatten ++ s.tail) := by
      rw [Sent.stream, hmessages, List.map_cons, List.flatten_cons, List.append_assoc]
    have hlength : frameLength cut (b.bytes.read 0 4) s.stream = m.val.length ↔
        HeaderSeen cut (b.bytes.read 0 4) 0 m.val :=
      frameLength_eq_iff m.prop (Buffer.length_read _ _ _) hpending
    have htake : s.stream.pending.take m.val.length = m.val := by
      rw [hpending]
      exact List.take_left' rfl
    constructor
    · rintro ⟨fuel, v, hv, hmessage⟩
      rw [waitResponse_eq] at hv
      obtain ⟨hle, -, htaken, -⟩ := readMessage_eq_some hkeep hv
      have hm : m.val = v.message := Option.some.inj hmessage
      refine ⟨m, rfl, hlength.mp ?_⟩
      rw [hm, htaken, List.length_take, min_eq_left hle]
    · rintro ⟨m', hm', hseen⟩
      obtain rfl : m = m' := Option.some.inj hm'
      have hframe := hlength.mpr hseen
      have hle : frameLength cut (b.bytes.read 0 4) s.stream ≤ s.stream.pending.length := by
        rw [hframe, hpending, List.length_append]
        exact Nat.le_add_right _ _
      obtain ⟨v, hv⟩ := exists_readMessage hkeep hle (Nat.lt_succ_self _)
      obtain ⟨-, -, htaken, -⟩ := readMessage_eq_some hkeep hv
      rw [← waitResponse_eq] at hv
      refine ⟨_, v, hv, ?_⟩
      rw [htaken, hframe, htake]
      rfl

/-- **The loop of the client ends** if and only if the connection has as many bytes as the size says
that is looked at. -/
theorem exists_waitResponse_iff (cut : ℕ → ℕ) (fresh : ℕ → Buffer) (b : ReadBuffer)
    (stream : ByteStream) :
    (∃ fuel v, waitResponse cut fresh fuel b stream = some v) ↔
      frameLength cut (b.bytes.read 0 4) stream ≤ stream.pending.length := by
  have hkeep := growClient_keepsHeader (fresh (firstCall cut b.bytes stream).stream.returned) b.sz
  constructor
  · rintro ⟨fuel, v, hv⟩
    rw [waitResponse_eq] at hv
    exact (readMessage_eq_some hkeep hv).1
  · intro hle
    obtain ⟨v, hv⟩ := exists_readMessage hkeep hle (Nat.lt_succ_self _)
    rw [← waitResponse_eq] at hv
    exact ⟨_, v, hv⟩

/-- **Messages are framed** if and only if the size of each is in the buffer when it is looked at,
and the connection is closed behind a message. -/
theorem framing_iff (cut : ℕ → ℕ) (fresh : ℕ → Buffer) (terminates : List UInt8 → Bool)
    (bytes : Buffer) (b : ReadBuffer) (s : Sent) :
    ((∃ fuel h, execute cut fresh terminates fuel (ConnectionHandler.start bytes s.stream) =
          some h ∧ h.handled = s.messages.map Subtype.val) ↔
        HeadersSeen cut (bytes.read 0 4) 0 s.messages ∧
          EndsWell terminates s.tail s.messages) ∧
      ((∃ fuel v, waitResponse cut fresh fuel b s.stream = some v ∧
          s.messages.head?.map Subtype.val = some v.message) ↔
        ∃ m ∈ s.messages.head?, HeaderSeen cut (b.bytes.read 0 4) 0 m.val) :=
  ⟨execute_handled_iff cut fresh terminates bytes s, waitResponse_message_iff cut fresh b s⟩

/-- The connection is closed behind the size of a message of eight bytes: the loop of the server
never ends, although each call returned what it asked for. -/
theorem execute_close_in_message :
    ∃ s : Sent, s.messages = [] ∧ s.tail = [8, 0, 0, 0] ∧
      ¬ ∃ fuel h, execute (fun _ => 4) (fun _ => Buffer.zero) (fun _ => false) fuel
        (ConnectionHandler.start Buffer.zero s.stream) = some h := by
  have hframed : WellFramed [8, 0, 0, 0, 0, 0, 0, 0] := by decide
  have hprefix : ([8, 0, 0, 0] : List UInt8) <+: [8, 0, 0, 0, 0, 0, 0, 0] := by decide
  have hlt : ([8, 0, 0, 0] : List UInt8).length < 8 := by decide
  refine ⟨⟨[], [8, 0, 0, 0], ⟨_, hframed⟩, hprefix, hlt⟩, rfl, rfl, ?_⟩
  rintro ⟨fuel, h, hloop⟩
  obtain ⟨fuel', h₁, hbody, -⟩ := exists_of_whileLoop_eq_some hloop rfl
  -- eight bytes are missing four
  have hne : ([8, 0, 0, 0] : List UInt8) ≠ [] := by decide
  have hsz : 4 ≤ bufferDefaultSz := by decide
  have hle := (executeBody_eq_some hne hsz hbody).le_length
  have hmissing : ¬ frameLength (fun _ => 4) (Buffer.zero.read 0 4) ⟨[8, 0, 0, 0], 0⟩ ≤ 4 := by
    decide
  exact hmissing hle

end Network

end GfeDriver
