import GfeDriver.Foundation.Loop
import GfeDriver.Network.Remote
import GfeDriver.Network.Encoding

/-!
# What is written into a send buffer

The client has a write buffer for each connection, of 4096 bytes. A batch replaces it by a larger
one when its message does not fit; no other request does, although a path can be of any length. The
server has a write buffer of 4096 bytes for each connection, which never grows, and compares the
size of a response with it after the response is written, in an assertion.

The size of a batch is computed in 32 bits, from a number of updates in 64 bits, and so is the new
capacity, a power of two. The bytes of the updates are copied in 64 bits. From a message of more
than `2 ^ 31` bytes on, the capacity is not one of 32 bits any more, and from `2 ^ 32` bytes on the
size of the message is not either. The conversion of `2 ^ 32` from a double keeps its low 32 bits,
as it does on the machines that this runs on: the language leaves the value undefined.

## Main definitions

* `Arg.span`, `argsEnd`: where the last byte of the arguments is
* `Sending`, `Sending.reserve`: what a client sends, and the capacity it is written in
* `batchMessage`: the message of a batch
* `Sending.Safe`, `ResponseSafe`: a message stays in its buffer, and is one that its reader decodes
* `Sending.InBounds`, `ResponseInBounds`: a message that is short enough

## Main results

* `staysWithin_message_iff`: the bytes of a message are within a capacity
* `Sending.safe_iff`: the messages of a client that are safe
* `buffers_safe_iff`: the runs of a connection whose messages are all safe
-/

namespace GfeDriver

namespace Network

open Foundation

/-! ## The bytes of the arguments -/

/-- The bytes that storing an argument writes: a string is written with its terminator. -/
def Arg.span : Arg → ℕ
  | .string (some str) => 8 + str.val.length + 1
  | _ => 8

/-- The end of the last byte that storing the arguments writes. -/
def argsEnd : List Arg → ℕ
  | [] => 0
  | [arg] => arg.span
  | arg :: rest => argsSize [arg] + argsEnd rest

section Args

theorem argsEnd_cons (arg : Arg) {rest : List Arg} (h : rest ≠ []) :
    argsEnd (arg :: rest) = argsSize [arg] + argsEnd rest := by
  cases rest with
  | nil => exact absurd rfl h
  | cons a rest => rfl

theorem storeSingleArg_snd (b : Buffer) (offset : ℕ) (arg : Arg) :
    (storeSingleArg b offset arg).2 = argsSize [arg] := by
  rcases arg with v | v | v | (_ | str) <;> rfl

/-- The terminator of a string is within its slots or within the next one. -/
theorem Arg.span_le (arg : Arg) : arg.span ≤ argsSize [arg] + 8 := by
  rcases arg with v | v | v | (_ | str)
  case string.some =>
    show 8 + str.val.length + 1 ≤ 8 + 8 * (str.val.length ⌈/⌉ 8) + 0 + 8
    rw [Nat.ceilDiv_eq_add_pred_div]
    omega
  all_goals exact (by decide : 8 ≤ 8 + 0 + 8)

/-- The slots of an argument end less than one slot behind its last byte. -/
theorem argsSize_singleton_le (arg : Arg) : argsSize [arg] ≤ arg.span + 7 := by
  rcases arg with v | v | v | (_ | str)
  case string.some =>
    show 8 + 8 * (str.val.length ⌈/⌉ 8) + 0 ≤ 8 + str.val.length + 1 + 7
    rw [Nat.ceilDiv_eq_add_pred_div]
    omega
  all_goals exact (by decide : 8 + 0 ≤ 8 + 7)

theorem argsSize_le_argsEnd (args : List Arg) : argsSize args ≤ argsEnd args + 7 := by
  induction args with
  | nil => exact Nat.zero_le _
  | cons arg rest ih =>
    by_cases hrest : rest = []
    · subst hrest
      exact argsSize_singleton_le arg
    · rw [argsSize_cons, argsEnd_cons arg hrest]
      omega

theorem eight_le_argsEnd {args : List Arg} (h : args ≠ []) : 8 ≤ argsEnd args := by
  induction args with
  | nil => exact absurd rfl h
  | cons arg rest ih =>
    by_cases hrest : rest = []
    · subst hrest
      rcases arg with v | v | v | (_ | str)
      case string.some =>
        show 8 ≤ 8 + str.val.length + 1
        omega
      all_goals exact le_rfl
    · have hle := ih hrest
      rw [argsEnd_cons arg hrest]
      omega

/-- An argument is written before the end of its span. -/
theorem storeSingleArg_of_ge (b : Buffer) {offset i : ℕ} (arg : Arg) (h : offset + arg.span ≤ i) :
    (storeSingleArg b offset arg).1 i = b i := by
  have hword : ∀ v, offset + 8 ≤ i → b.storeWord offset v i = b i := by
    intro v hi
    apply Buffer.write_of_ge
    rwa [length_leBytes]
  rcases arg with v | v | v | (_ | str)
  case string.some =>
    have hend : offset + (8 + str.val.length + 1) ≤ i := h
    show (b.storeWord offset _).write (offset + 8) (str.val ++ [0]) i = b i
    rw [Buffer.write_of_ge, hword _ (by omega)]
    rw [List.length_append, List.length_singleton]
    omega
  all_goals exact hword _ h

/-- **The arguments are written before their end.** -/
theorem storeArgs_of_ge (b : Buffer) {offset i : ℕ} (args : List Arg)
    (h : offset + argsEnd args ≤ i) : (storeArgs b offset args).1 i = b i := by
  induction args generalizing b offset with
  | nil => rfl
  | cons arg rest ih =>
    by_cases hrest : rest = []
    · subst hrest
      exact storeSingleArg_of_ge b arg h
    · rw [argsEnd_cons arg hrest] at h
      have hspan := arg.span_le
      have hend := eight_le_argsEnd hrest
      have hfirst : (storeSingleArg b offset arg).1 i = b i :=
        storeSingleArg_of_ge b arg (by omega)
      refine (ih (storeSingleArg b offset arg).1 ?_).trans hfirst
      rw [storeSingleArg_snd]
      omega

/-- The last byte of an argument is the same in every memory. -/
theorem storeSingleArg_last (b b' : Buffer) (offset : ℕ) (arg : Arg) :
    (storeSingleArg b offset arg).1 (offset + arg.span - 1) =
      (storeSingleArg b' offset arg).1 (offset + arg.span - 1) := by
  have hword : ∀ v,
      b.storeWord offset v (offset + 8 - 1) = b'.storeWord offset v (offset + 8 - 1) := by
    intro v
    apply Buffer.write_congr
    · omega
    · rw [length_leBytes]
      omega
  rcases arg with v | v | v | (_ | str)
  case string.some =>
    apply Buffer.write_congr
    · show offset + 8 ≤ offset + (8 + str.val.length + 1) - 1
      omega
    · show offset + (8 + str.val.length + 1) - 1 < offset + 8 + (str.val ++ [0]).length
      rw [List.length_append, List.length_singleton]
      omega
  all_goals exact hword _

/-- **The last byte of the arguments** is the same in every memory. -/
theorem storeArgs_last (b b' : Buffer) (offset : ℕ) {args : List Arg} (h : args ≠ []) :
    (storeArgs b offset args).1 (offset + argsEnd args - 1) =
      (storeArgs b' offset args).1 (offset + argsEnd args - 1) := by
  induction args generalizing b b' offset with
  | nil => exact absurd rfl h
  | cons arg rest ih =>
    by_cases hrest : rest = []
    · subst hrest
      exact storeSingleArg_last b b' offset arg
    · have hlast := ih (storeSingleArg b offset arg).1 (storeSingleArg b' offset arg).1
        (offset + argsSize [arg]) hrest
      rw [Nat.add_assoc, ← argsEnd_cons arg hrest] at hlast
      show (storeArgs _ (offset + (storeSingleArg b offset arg).2) rest).1 _ =
        (storeArgs _ (offset + (storeSingleArg b' offset arg).2) rest).1 _
      rw [storeSingleArg_snd, storeSingleArg_snd]
      exact hlast

end Args

/-! ## The bytes of a message -/

section Message

variable (code : ℕ) (args : List Arg)

theorem message_of_argsEnd_le (b : Buffer) {i : ℕ} (h : headerSz + argsEnd args ≤ i) :
    message b code args i = b i := by
  have hheader : headerSz ≤ i := (Nat.le_add_right _ _).trans h
  have htype : b.write 4 (leBytes 4 code) i = b i := by
    apply Buffer.write_of_ge
    rwa [length_leBytes]
  rw [message_of_ge b code args hheader, storeArgs_of_ge _ args h, htype]

/-- The last byte of a message is the same in every memory. -/
theorem message_last (b b' : Buffer) :
    message b code args (headerSz + argsEnd args - 1) =
      message b' code args (headerSz + argsEnd args - 1) := by
  by_cases hargs : args = []
  · subst hargs
    -- the last byte of the type
    have hseven : ∀ b, message b code [] 7 = b.write 4 (leBytes 4 code) 7 := by
      intro b
      apply Buffer.write_of_ge
      rw [length_leBytes]
      decide
    show message b code [] 7 = message b' code [] 7
    rw [hseven, hseven]
    exact Buffer.write_congr (by decide) (by rw [length_leBytes]; decide)
  · have hend := eight_le_argsEnd hargs
    have hge : headerSz ≤ headerSz + argsEnd args - 1 := by omega
    rw [message_of_ge b code args hge, message_of_ge b' code args hge]
    exact storeArgs_last _ _ headerSz hargs

/-- **The bytes of a message** are within a capacity exactly when the last one is. -/
theorem staysWithin_message_iff (capacity : ℕ) :
    Buffer.StaysWithin capacity (fun b => message b code args) ↔
      headerSz + argsEnd args ≤ capacity := by
  constructor
  · intro h
    have hlt := h.lt (message_last code args)
    have hheader : 0 < headerSz := by decide
    omega
  · intro h b i hi
    exact message_of_argsEnd_le code args b (h.trans hi)

/-- **A message within a capacity of 32 bits** is written there, with its size. -/
theorem message_safe_iff {capacity : ℕ} (hcapacity : capacity ≤ 2 ^ 31) :
    (Buffer.StaysWithin capacity (fun b => message b code args) ∧
        ∀ b, messageSize (message b code args) = headerSz + argsSize args) ↔
      headerSz + argsEnd args ≤ capacity := by
  rw [staysWithin_message_iff]
  refine and_iff_left_of_imp fun h b => ?_
  have hle := argsSize_le_argsEnd args
  apply messageSize_message
  omega

end Message

/-! ## What a client sends -/

/-- The updates of a batch, whose number is one of 64 bits. -/
abbrev Batch := { updates : List SingleUpdate // updates.length < 2 ^ 64 }

/-- `message_sz` of `batch`. -/
def batchMessageSz (updates : Batch) : UInt32 :=
  8 + (24 * UInt64.ofNat updates.val.length).toUInt32

/-- `pow(2, ceil(log2(message_sz)))`, in 32 bits. -/
def nextPower (messageSz : UInt32) : UInt32 := UInt32.ofNat (2 ^ Nat.clog 2 messageSz.toNat)

/-- The message of `batch`: the copy takes the number of bytes of the updates, in 64 bits. -/
def batchMessage (out : Buffer) (updates : Batch) (force : Bool) : Buffer :=
  let header := (out.write 0 (leBytes 4 (batchMessageSz updates).toNat)).write 4
    (leBytes 4 (Call.batch updates.val force).type.code)
  header.write headerSz
    ((Buffer.wordBytes (batchWords updates.val)).take
      (UInt64.ofNat updates.val.length * 24).toNat)

/-- A message of a client: with `request`, or with `batch`. -/
inductive Sending
  | request (type : RequestType) (args : List Arg)
  | batch (updates : Batch) (force : Bool)

/-- `m_buffer_write_sz` when the message is written: only a batch looks at it. -/
def Sending.reserve (capacity : UInt32) : Sending → UInt32
  | .request _ _ => capacity
  | .batch updates _ =>
    if updates.val = [] then capacity
    else if capacity < batchMessageSz updates then nextPower (batchMessageSz updates)
    else capacity

/-- **A message is safe** in a buffer with a capacity: its bytes are written in the buffer, its size
is the number of its bytes, and the server decodes the updates of a batch from it. Nothing is
written for an empty batch. -/
def Sending.Safe (capacity : UInt32) : Sending → Prop
  | .request type args =>
    Buffer.StaysWithin capacity.toNat (fun b => message b type.code args) ∧
      ∀ b, messageSize (message b type.code args) = headerSz + argsSize args
  | .batch updates force =>
    updates.val ≠ [] →
      Buffer.StaysWithin (Sending.reserve capacity (.batch updates force)).toNat
          (fun b => batchMessage b updates force) ∧
        (∀ b, messageSize (batchMessage b updates force) =
          headerSz + 24 * updates.val.length) ∧
        ∀ b r, requestBatch (transmit (batchMessage b updates force) r) = updates.val

/-- A request ends in the buffer as it is, and a batch has at most two gibibytes. -/
def Sending.InBounds (capacity : UInt32) : Sending → Prop
  | .request _ args => headerSz + argsEnd args ≤ capacity.toNat
  | .batch updates _ => headerSz + 24 * updates.val.length ≤ 2 ^ 31

/-! ## The message of a batch -/

section Batch

variable {updates : Batch} (force : Bool)

theorem toNat_batchMessageSz (updates : Batch) :
    (batchMessageSz updates).toNat = (headerSz + 24 * updates.val.length) % 2 ^ 32 := by
  have hlength : (UInt64.ofNat updates.val.length).toNat = updates.val.length := by
    rw [UInt64.toNat_ofNat', Nat.mod_eq_of_lt updates.property]
  rw [batchMessageSz, UInt32.toNat_add, UInt64.toNat_toUInt32, UInt64.toNat_mul, hlength]
  show (8 + 24 * updates.val.length % 2 ^ 64 % 2 ^ 32) % 2 ^ 32 = (8 + _) % 2 ^ 32
  omega

/-- Without an overflow, the message is the updates behind their header. -/
theorem batchMessage_eq (out : Buffer) (h : headerSz + 24 * updates.val.length < 2 ^ 32) :
    batchMessage out updates force = batchRequest out updates.val force := by
  have hlength : (UInt64.ofNat updates.val.length * 24).toNat = 24 * updates.val.length := by
    rw [UInt64.toNat_mul, UInt64.toNat_ofNat', Nat.mod_eq_of_lt updates.property]
    show updates.val.length * 24 % 2 ^ 64 = _
    omega
  have hbytes : (Buffer.wordBytes (batchWords updates.val)).length = 24 * updates.val.length := by
    rw [Buffer.length_wordBytes, length_batchWords]
    ring
  rw [batchMessage, batchRequest, toNat_batchMessageSz, Nat.mod_eq_of_lt h, hlength,
    List.take_of_length_le hbytes.le]

/-- The capacity that the client makes for a message of at most two gibibytes holds it. -/
theorem le_reserve_of_le {capacity : UInt32} (hne : updates.val ≠ [])
    (h : headerSz + 24 * updates.val.length ≤ 2 ^ 31) :
    headerSz + 24 * updates.val.length ≤
      (Sending.reserve capacity (.batch updates force)).toNat := by
  have hsz : (batchMessageSz updates).toNat = headerSz + 24 * updates.val.length := by
    rw [toNat_batchMessageSz, Nat.mod_eq_of_lt (by omega)]
  rw [Sending.reserve, if_neg hne]
  split_ifs with hlt
  · have hclog : Nat.clog 2 (batchMessageSz updates).toNat ≤ 31 := by
      rw [hsz]
      exact Nat.clog_le_of_le_pow h
    have hpow : 2 ^ Nat.clog 2 (batchMessageSz updates).toNat ≤ 2 ^ 31 :=
      Nat.pow_le_pow_right two_pos hclog
    rw [nextPower, UInt32.toNat_ofNat', Nat.mod_eq_of_lt (by omega), ← hsz]
    exact Nat.le_pow_clog one_lt_two _
  · rw [← hsz]
    exact Nat.le_of_not_lt hlt

/-- The capacity stays one of two gibibytes at most. -/
theorem reserve_le {capacity : UInt32} (hcapacity : capacity.toNat ≤ 2 ^ 31) (s : Sending)
    (h : s.InBounds capacity) : (s.reserve capacity).toNat ≤ 2 ^ 31 := by
  cases s with
  | request type args => exact hcapacity
  | batch updates force =>
    have hle : headerSz + 24 * updates.val.length ≤ 2 ^ 31 := h
    rw [Sending.reserve]
    split_ifs
    · exact hcapacity
    · have hclog : Nat.clog 2 (batchMessageSz updates).toNat ≤ 31 := by
        rw [toNat_batchMessageSz, Nat.mod_eq_of_lt (by omega)]
        exact Nat.clog_le_of_le_pow h
      rw [nextPower, UInt32.toNat_ofNat']
      exact (Nat.mod_le _ _).trans (Nat.pow_le_pow_right two_pos hclog)
    · exact hcapacity

/-- The capacity of a message of more than two gibibytes does not fit in 32 bits. -/
theorem reserve_eq_zero {capacity : UInt32} (hcapacity : capacity.toNat ≤ 2 ^ 31)
    (hgt : 2 ^ 31 < headerSz + 24 * updates.val.length)
    (hlt : headerSz + 24 * updates.val.length < 2 ^ 32) (hne : updates.val ≠ []) :
    Sending.reserve capacity (.batch updates force) = 0 := by
  have hsz : (batchMessageSz updates).toNat = headerSz + 24 * updates.val.length := by
    rw [toNat_batchMessageSz, Nat.mod_eq_of_lt hlt]
  have hgrow : capacity < batchMessageSz updates := by
    rw [UInt32.lt_iff_toNat_lt, hsz]
    omega
  have hclog : Nat.clog 2 (batchMessageSz updates).toNat = 32 := by
    apply le_antisymm
    · apply Nat.clog_le_of_le_pow
      omega
    · apply (Nat.lt_clog_iff_pow_lt one_lt_two).mpr
      rw [hsz]
      exact hgt
  rw [Sending.reserve, if_neg hne, if_pos hgrow, nextPower, hclog]
  rfl

/-- A server decodes less than `2 ^ 32 / 24` updates. -/
theorem length_requestBatch_lt (request : Buffer) :
    headerSz + 24 * (requestBatch request).length < 2 ^ 32 := by
  have hsize : messageSize request < 256 ^ 4 := by
    have hlt := leValue_lt (request.read 0 4)
    rwa [Buffer.length_read] at hlt
  rw [requestBatch, List.length_map, List.length_range]
  show 8 + 24 * ((messageSize request - 8) / 24) < 2 ^ 32
  omega

/-- The first byte of the message of a batch is the same in every memory. -/
theorem batchMessage_zero (b b' : Buffer) :
    batchMessage b updates force 0 = batchMessage b' updates force 0 := by
  have hsize : ∀ b, batchMessage b updates force 0 =
      b.write 0 (leBytes 4 (batchMessageSz updates).toNat) 0 := by
    intro b
    rw [batchMessage, Buffer.write_of_lt (by decide), Buffer.write_of_lt (by decide)]
  rw [hsize, hsize]
  exact Buffer.write_congr le_rfl (by rw [length_leBytes]; decide)

/-- The message of a batch of at most four gibibytes is written in as many bytes. -/
theorem staysWithin_batchMessage {capacity : ℕ}
    (h : headerSz + 24 * updates.val.length ≤ capacity)
    (hlt : headerSz + 24 * updates.val.length < 2 ^ 32) :
    Buffer.StaysWithin capacity fun b => batchMessage b updates force := by
  have hheader : headerSz ≤ capacity := (Nat.le_add_right _ _).trans h
  have hbytes : (Buffer.wordBytes (batchWords updates.val)).length = 24 * updates.val.length := by
    rw [Buffer.length_wordBytes, length_batchWords]
    ring
  rw [show (fun b => batchMessage b updates force) = fun b => batchRequest b updates.val force from
    funext fun b => batchMessage_eq force b hlt]
  refine Buffer.StaysWithin.write ?_ (hbytes ▸ h)
  apply Buffer.StaysWithin.write
  · apply Buffer.StaysWithin.write (Buffer.staysWithin_id capacity)
    rw [length_leBytes]
    exact (by decide : 0 + 4 ≤ headerSz).trans hheader
  · rw [length_leBytes]
    exact hheader

/-- **The batches that are safe** are those of at most two gibibytes. -/
theorem safe_batch_iff {capacity : UInt32} (hcapacity : capacity.toNat ≤ 2 ^ 31) :
    Sending.Safe capacity (.batch updates force) ↔
      Sending.InBounds capacity (.batch updates force) := by
  constructor
  · intro hsafe
    by_contra hbounds
    have hgt : 2 ^ 31 < headerSz + 24 * updates.val.length := Nat.lt_of_not_le hbounds
    have hne : updates.val ≠ [] := by
      intro hnil
      rw [hnil] at hgt
      exact absurd hgt (by decide)
    obtain ⟨hwithin, -, hupdates⟩ := hsafe hne
    rcases Nat.lt_or_ge (headerSz + 24 * updates.val.length) (2 ^ 32) with hlt | hge
    · -- the new buffer is empty
      rw [reserve_eq_zero force hcapacity hgt hlt hne] at hwithin
      exact absurd (hwithin.lt (batchMessage_zero force)) (Nat.lt_irrefl 0)
    · -- the server decodes fewer updates than there are
      have hlength := length_requestBatch_lt
        (transmit (batchMessage Buffer.zero updates force) Buffer.zero)
      rw [hupdates] at hlength
      omega
  · intro hbounds hne
    have hle : headerSz + 24 * updates.val.length ≤ 2 ^ 31 := hbounds
    have hlt : headerSz + 24 * updates.val.length < 2 ^ 32 := by omega
    refine ⟨staysWithin_batchMessage force (le_reserve_of_le force hne hle) hlt, ?_, ?_⟩
    · intro b
      rw [batchMessage_eq force b hlt]
      exact messageSize_batchRequest b force hlt
    · intro b r
      rw [batchMessage_eq force b hlt]
      exact requestBatch_batchRequest b r force hlt

end Batch

/-! ## A connection -/

/-- **The messages of a client that are safe.** -/
theorem Sending.safe_iff {capacity : UInt32} (hcapacity : capacity.toNat ≤ 2 ^ 31) (s : Sending) :
    s.Safe capacity ↔ s.InBounds capacity := by
  cases s with
  | request type args => exact message_safe_iff type.code args hcapacity
  | batch updates force => exact safe_batch_iff force hcapacity

/-- A response is safe in the write buffer of the server, which is never replaced. -/
def ResponseSafe (type : ResponseType) (args : List Arg) : Prop :=
  Buffer.StaysWithin bufferSz (fun b => respond b type args) ∧
    ∀ b, messageSize (respond b type args) = headerSz + argsSize args

/-- A response ends in the write buffer of the server. -/
def ResponseInBounds (args : List Arg) : Prop := headerSz + argsEnd args ≤ bufferSz

/-- **The runs of a connection whose messages are all safe**: from the buffers that a connection
starts with, those whose requests and responses end in the buffers and whose batches have at most
two gibibytes. -/
theorem buffers_safe_iff (sendings : List Sending) (responses : List (ResponseType × List Arg)) :
    (AlongFold Sending.reserve Sending.Safe (UInt32.ofNat bufferSz) sendings ∧
        ∀ response ∈ responses, ResponseSafe response.1 response.2) ↔
      AlongFold Sending.reserve Sending.InBounds (UInt32.ofNat bufferSz) sendings ∧
        ∀ response ∈ responses, ResponseInBounds response.2 := by
  apply and_congr
  · exact alongFold_congr (fun capacity => capacity.toNat ≤ 2 ^ 31)
      (fun _ s hcapacity => s.safe_iff hcapacity)
      (fun _ s hcapacity hbounds => reserve_le hcapacity s hbounds) (by decide) sendings
  · apply forall_congr'
    intro response
    apply imp_congr_right
    intro _
    exact message_safe_iff response.1.code response.2 (by decide)

theorem argsEnd_letters (n : ℕ) : argsEnd [.string (some (letters n))] = 8 + n + 1 := by
  have hlength : (letters n).val.length = n := List.length_replicate
  show 8 + (letters n).val.length + 1 = 8 + n + 1
  rw [hlength]

/-- The terminator of a path of 4080 characters is behind the buffer, and the message is not. -/
theorem load_not_safe :
    ¬ AlongFold Sending.reserve Sending.Safe (UInt32.ofNat bufferSz)
      [.request .load [.string (some (letters 4080))]] := by
  rintro ⟨hsafe, -⟩
  have hbounds : headerSz + argsEnd [.string (some (letters 4080))] ≤ (4096 : UInt32).toNat :=
    (Sending.safe_iff (by decide) _).mp hsafe
  rw [argsEnd_letters] at hbounds
  exact absurd hbounds (by decide)

end Network

end GfeDriver
