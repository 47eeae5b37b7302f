import GfeDriver.Foundation.Buffer
import Mathlib.Algebra.Order.Floor.Div
import Mathlib.Data.List.TakeWhile

/-!
# The messages between a client and the server

A message is a header of eight bytes, with its size and its type, and the arguments, in slots of
eight bytes. An integer or a double takes one slot. A string takes one slot for its length and the
slots for its characters. The message is built in place, in a buffer that is used again and again:
what is not written keeps its old bytes.

Doubles are their 64 bits, and strings are lists of bytes. The number of slots of a string is
computed in doubles, which hold every length below `2 ^ 53`. The buffers are not bounded here:
`Fits` says which operations stay in a buffer.

## Main definitions

* `RequestType`, `ResponseType`: the types of a message
* `Arg`, `storeSingleArg`, `storeArgs`: the arguments of a message
* `message`: a message with its arguments
* `get`, `getString`: the arguments of a message received
* `transmit`: a message goes through a connection

## Main results

* `storeArgs_of_lt`: the arguments are written behind each other
* `get_message`, `getString_message`: the arguments received are those sent
-/

namespace GfeDriver

namespace Network

open Foundation

/-- `RequestType`, the type of a message from a client to the server. -/
inductive RequestType
  | terminateServer
  | terminateWorker
  | terminateOnLastConnection
  | libraryName
  | setTimeout
  | onMainInit
  | onThreadInit
  | onThreadDestroy
  | onMainDestroy
  | numEdges
  | numVertices
  | isDirected
  | hasVertex
  | hasEdge
  | getWeight
  | load
  | addVertex
  | removeVertex
  | addEdge
  | removeEdge
  | batchPlainForceNo
  | batchPlainForceYes
  | build
  | dumpClient
  | dumpStdout
  | dumpFile
  | bfs
  | pagerank
  | wcc
  | cdlp
  | lcc
  | sssp
  deriving DecidableEq

/-- The request types, in the order of their codes. -/
def RequestType.all : List RequestType :=
  [.terminateServer, .terminateWorker, .terminateOnLastConnection, .libraryName, .setTimeout,
    .onMainInit, .onThreadInit, .onThreadDestroy, .onMainDestroy, .numEdges, .numVertices,
    .isDirected, .hasVertex, .hasEdge, .getWeight, .load, .addVertex, .removeVertex, .addEdge,
    .removeEdge, .batchPlainForceNo, .batchPlainForceYes, .build, .dumpClient, .dumpStdout,
    .dumpFile, .bfs, .pagerank, .wcc, .cdlp, .lcc, .sssp]

/-- `ResponseType`, the type of a message from the server to a client. -/
inductive ResponseType
  | ok
  | notSupported
  | error
  | timeout
  deriving DecidableEq

/-- The response types, in the order of their codes. -/
def ResponseType.all : List ResponseType := [.ok, .notSupported, .error, .timeout]

def RequestType.code (t : RequestType) : ℕ := RequestType.all.idxOf t

def ResponseType.code (t : ResponseType) : ℕ := ResponseType.all.idxOf t

theorem RequestType.getElem?_code (t : RequestType) : RequestType.all[t.code]? = some t := by
  cases t <;> rfl

theorem ResponseType.getElem?_code (t : ResponseType) : ResponseType.all[t.code]? = some t := by
  cases t <;> rfl

theorem RequestType.code_lt (t : RequestType) : t.code < 256 ^ 4 := by
  cases t <;> decide

theorem ResponseType.code_lt (t : ResponseType) : t.code < 256 ^ 4 := by
  cases t <;> decide

/-- A double, by its bits. -/
structure Double where
  bits : UInt64
  deriving DecidableEq

/-- A C string: bytes, none of which is the terminator. -/
abbrev CString := { l : List UInt8 // (0 : UInt8) ∉ l }

/-- `string::c_str`: a reader of the result stops at the first terminator. -/
def cStr (s : List UInt8) : CString :=
  ⟨s.takeWhile (· ≠ 0), fun h => by simpa using List.mem_takeWhile_imp h⟩

/-- An argument of a message, by the overload of `store_single_arg` that stores it. -/
inductive Arg
  | signed (v : Int64)
  | unsigned (v : UInt64)
  | double (v : Double)
  | string (str : Option CString)

/-- `store_single_arg`, and the size of the argument. -/
def storeSingleArg (b : Buffer) (offset : ℕ) : Arg → Buffer × ℕ
  | .signed v => (b.storeWord offset v.toUInt64, 8)
  | .unsigned v => (b.storeWord offset v, 8)
  | .double v => (b.storeWord offset v.bits, 8)
  | .string none => (b.storeWord offset 0, 8)
  | .string (some str) =>
    ((b.storeWord offset (UInt64.ofNat str.val.length)).write (offset + 8) (str.val ++ [0]),
      8 + 8 * (str.val.length ⌈/⌉ 8))

/-- `store_args`, and the size of the arguments. -/
def storeArgs (b : Buffer) (offset : ℕ) : List Arg → Buffer × ℕ
  | [] => (b, 0)
  | arg :: rest =>
    let stored := storeSingleArg b offset arg
    let storedRest := storeArgs stored.1 (offset + stored.2) rest
    (storedRest.1, stored.2 + storedRest.2)

/-- `sizeof(Message<Type>)`. -/
def headerSz : ℕ := 8

/-- The constructor of a message with the type `code`, in the memory `b`. The size is a 32-bit
integer. -/
def message (b : Buffer) (code : ℕ) (args : List Arg) : Buffer :=
  let stored := storeArgs (b.write 4 (leBytes 4 code)) headerSz args
  stored.1.write 0 (leBytes 4 (headerSz + stored.2))

/-- `message_size`. -/
def messageSize (b : Buffer) : ℕ := leValue (b.read 0 4)

/-- `m_type`. -/
def typeCode (b : Buffer) : ℕ := leValue (b.read 4 4)

/-- `get<uint64_t>`. -/
def get (b : Buffer) (index : ℕ) : UInt64 := b.loadWord (headerSz + 8 * index)

/-- `get<int>`. -/
def getInt (b : Buffer) (index : ℕ) : Int32 := (get b index).toInt64.toInt32

/-- `get<bool>`. -/
def getBool (b : Buffer) (index : ℕ) : Bool := get b index ≠ 0

/-- `get<double>`. -/
def getDouble (b : Buffer) (index : ℕ) : Double := ⟨get b index⟩

def getString (b : Buffer) (index : ℕ) : List UInt8 :=
  b.read (headerSz + 8 * (index + 1)) (get b index).toNat

/-- A message is sent and received in the memory `received`: as many bytes as its size says. -/
def transmit (sent received : Buffer) : Buffer := fun i =>
  if i < messageSize sent then sent i else received i

/-! ## The arguments -/

section Args

/-- The first slot of an argument. -/
def Arg.word : Arg → UInt64
  | .signed v => v.toUInt64
  | .unsigned v => v
  | .double v => v.bits
  | .string none => 0
  | .string (some str) => UInt64.ofNat str.val.length

/-- The argument takes one slot. -/
def Arg.Scalar : Arg → Prop
  | .string _ => False
  | _ => True

/-- The size of the arguments, in bytes. -/
def argsSize : List Arg → ℕ
  | [] => 0
  | .string (some str) :: rest => 8 + 8 * (str.val.length ⌈/⌉ 8) + argsSize rest
  | _ :: rest => 8 + argsSize rest

theorem storeArgs_snd (b : Buffer) (offset : ℕ) (args : List Arg) :
    (storeArgs b offset args).2 = argsSize args := by
  induction args generalizing b offset with
  | nil => rfl
  | cons arg rest ih =>
    have hcons : (storeArgs b offset (arg :: rest)).2 =
        (storeSingleArg b offset arg).2 + argsSize rest := by
      rw [← ih (storeSingleArg b offset arg).1 (offset + (storeSingleArg b offset arg).2)]
      rfl
    rw [hcons]
    rcases arg with v | v | v | (_ | str) <;> rfl

/-- An argument is written from its offset on. -/
theorem storeSingleArg_of_lt (b : Buffer) {offset i : ℕ} (arg : Arg) (h : i < offset) :
    (storeSingleArg b offset arg).1 i = b i := by
  rcases arg with v | v | v | (_ | str)
  case string.some =>
    show (b.storeWord offset _).write (offset + 8) _ i = b i
    rw [Buffer.write_of_lt (by omega), Buffer.storeWord_of_lt h]
  all_goals exact Buffer.storeWord_of_lt h

/-- **The arguments are written behind each other.** -/
theorem storeArgs_of_lt (b : Buffer) {offset i : ℕ} (args : List Arg) (h : i < offset) :
    (storeArgs b offset args).1 i = b i := by
  induction args generalizing b offset with
  | nil => rfl
  | cons arg rest ih =>
    have hlt : i < offset + (storeSingleArg b offset arg).2 := h.trans_le (Nat.le_add_right _ _)
    exact (ih (storeSingleArg b offset arg).1 hlt).trans (storeSingleArg_of_lt b arg h)

theorem le_storeSingleArg_snd (b : Buffer) (offset : ℕ) (arg : Arg) :
    8 ≤ (storeSingleArg b offset arg).2 := by
  rcases arg with v | v | v | (_ | str)
  case string.some => exact Nat.le_add_right _ _
  all_goals exact le_rfl

theorem loadWord_storeSingleArg (b : Buffer) (offset : ℕ) (arg : Arg) :
    (storeSingleArg b offset arg).1.loadWord offset = arg.word := by
  rcases arg with v | v | v | (_ | str)
  case string.some =>
    have hfirst : ∀ i, offset ≤ i → i < offset + 8 →
        (storeSingleArg b offset (.string (some str))).1 i =
          b.storeWord offset (UInt64.ofNat str.val.length) i :=
      fun i _ hi => Buffer.write_of_lt hi
    rw [Buffer.loadWord_congr hfirst, Buffer.loadWord_storeWord]
    rfl
  all_goals exact Buffer.loadWord_storeWord b offset _

/-- The first slot of the first argument. -/
theorem loadWord_storeArgs_cons (b : Buffer) (offset : ℕ) (arg : Arg) (rest : List Arg) :
    (storeArgs b offset (arg :: rest)).1.loadWord offset = arg.word := by
  have hsize := le_storeSingleArg_snd b offset arg
  rw [← loadWord_storeSingleArg b offset arg]
  apply Buffer.loadWord_congr
  intro i _ hi
  exact storeArgs_of_lt _ rest (by omega)

theorem argsSize_cons (arg : Arg) (rest : List Arg) :
    argsSize (arg :: rest) = argsSize [arg] + argsSize rest := by
  rcases arg with v | v | v | (_ | str) <;> rfl

theorem argsSize_append (init rest : List Arg) :
    argsSize (init ++ rest) = argsSize init + argsSize rest := by
  induction init with
  | nil => exact (Nat.zero_add _).symm
  | cons arg init ih =>
    rw [List.cons_append, argsSize_cons, ih, argsSize_cons arg init, Nat.add_assoc]

theorem argsSize_of_scalar {init : List Arg} (hinit : ∀ arg ∈ init, arg.Scalar) :
    argsSize init = 8 * init.length := by
  induction init with
  | nil => rfl
  | cons arg init ih =>
    have hone : argsSize [arg] = 8 := by
      cases arg with
      | string str => exact absurd (hinit _ List.mem_cons_self) id
      | _ => rfl
    rw [argsSize_cons, hone, ih fun a ha => hinit a (List.mem_cons_of_mem _ ha), List.length_cons]
    ring

/-- The arguments behind some others. -/
theorem storeArgs_append (b : Buffer) (offset : ℕ) (init args : List Arg) :
    ∃ b', (storeArgs b offset (init ++ args)).1 =
      (storeArgs b' (offset + argsSize init) args).1 := by
  induction init generalizing b offset with
  | nil => exact ⟨b, rfl⟩
  | cons arg init ih =>
    obtain ⟨b', hb'⟩ := ih (storeSingleArg b offset arg).1
      (offset + (storeSingleArg b offset arg).2)
    have hfirst : (storeSingleArg b offset arg).2 = argsSize [arg] := by
      rw [← storeArgs_snd b offset [arg]]
      rfl
    refine ⟨b', ?_⟩
    show (storeArgs _ (offset + (storeSingleArg b offset arg).2) (init ++ args)).1 = _
    rw [hb', hfirst, argsSize_cons arg init, Nat.add_assoc]

/-- The first slot of an argument. -/
theorem loadWord_storeArgs (b : Buffer) (offset : ℕ) (init rest : List Arg) (arg : Arg) :
    (storeArgs b offset (init ++ arg :: rest)).1.loadWord (offset + argsSize init) =
      arg.word := by
  obtain ⟨b', hb'⟩ := storeArgs_append b offset init (arg :: rest)
  rw [hb', loadWord_storeArgs_cons]

/-- **The characters of a string.** The terminator behind them is overwritten when there is no room
for it, by the first byte of the next argument. -/
theorem read_storeArgs (b : Buffer) (offset : ℕ) (init rest : List Arg) (str : CString) :
    (storeArgs b offset (init ++ .string (some str) :: rest)).1.read (offset + argsSize init + 8)
      str.val.length = str.val := by
  obtain ⟨b', hb'⟩ := storeArgs_append b offset init (.string (some str) :: rest)
  have hceil : str.val.length ≤ 8 * (str.val.length ⌈/⌉ 8) := by
    rw [Nat.ceilDiv_eq_add_pred_div]
    omega
  have hrest : (storeArgs b' (offset + argsSize init) (.string (some str) :: rest)).1.read
      (offset + argsSize init + 8) str.val.length =
      (storeSingleArg b' (offset + argsSize init) (.string (some str))).1.read
        (offset + argsSize init + 8) str.val.length := by
    apply Buffer.read_congr
    intro i _ hi
    have hlt : i < offset + argsSize init + (8 + 8 * (str.val.length ⌈/⌉ 8)) := by omega
    exact storeArgs_of_lt _ rest hlt
  rw [hb', hrest]
  show ((b'.storeWord _ _).write (offset + argsSize init + 8) (str.val ++ [0])).read _ _ = _
  rw [Buffer.write_append, Buffer.read_write_of_disjoint (Or.inl le_rfl), Buffer.read_write]

end Args

/-! ## The messages received -/

section Message

variable (b r : Buffer) (code : ℕ) (args : List Arg)

theorem message_of_ge {i : ℕ} (h : headerSz ≤ i) :
    message b code args i = (storeArgs (b.write 4 (leBytes 4 code)) headerSz args).1 i := by
  apply Buffer.write_of_ge
  rw [length_leBytes]
  exact le_trans (by decide) h

/-- The size of a message is a 32-bit integer. -/
theorem messageSize_message_mod :
    messageSize (message b code args) = (headerSz + argsSize args) % 256 ^ 4 := by
  have hread := Buffer.read_write (storeArgs (b.write 4 (leBytes 4 code)) headerSz args).1 0
    (leBytes 4 (headerSz + argsSize args))
  rw [length_leBytes] at hread
  rw [messageSize, message, storeArgs_snd, hread, leValue_leBytes]

theorem messageSize_message (hsize : headerSz + argsSize args < 256 ^ 4) :
    messageSize (message b code args) = headerSz + argsSize args := by
  rw [messageSize_message_mod, Nat.mod_eq_of_lt hsize]

theorem typeCode_message (hcode : code < 256 ^ 4) : typeCode (message b code args) = code := by
  have hread : (message b code args).read 4 4 = (b.write 4 (leBytes 4 code)).read 4 4 := by
    apply Buffer.read_congr
    intro i hge hlt
    have hsize : message b code args i =
        (storeArgs (b.write 4 (leBytes 4 code)) headerSz args).1 i := by
      apply Buffer.write_of_ge
      rwa [length_leBytes]
    exact hsize.trans (storeArgs_of_lt _ args hlt)
  have hwritten := Buffer.read_write b 4 (leBytes 4 code)
  rw [length_leBytes] at hwritten
  rw [typeCode, hread, hwritten, leValue_leBytes, Nat.mod_eq_of_lt hcode]

variable {args}

theorem transmit_of_lt {sent : Buffer} {i : ℕ} (h : i < messageSize sent) :
    transmit sent r i = sent i := if_pos h

theorem typeCode_transmit (hcode : code < 256 ^ 4) (hsize : headerSz + argsSize args < 256 ^ 4) :
    typeCode (transmit (message b code args) r) = code := by
  have hread : (transmit (message b code args) r).read 4 4 = (message b code args).read 4 4 := by
    apply Buffer.read_congr
    intro i _ hlt
    apply transmit_of_lt
    rw [messageSize_message b code args hsize]
    exact hlt.trans_le (Nat.le_add_right 8 _)
  rw [typeCode, hread]
  exact typeCode_message b code args hcode

theorem le_argsSize_cons (arg : Arg) (rest : List Arg) : 8 ≤ argsSize (arg :: rest) := by
  rcases arg with v | v | v | (_ | str)
  case string.some =>
    show 8 ≤ 8 + 8 * (str.val.length ⌈/⌉ 8) + argsSize rest
    omega
  all_goals exact Nat.le_add_right _ _

/-- **An argument received** is the one sent. -/
theorem get_message (init rest : List Arg) (arg : Arg) (hinit : ∀ a ∈ init, a.Scalar)
    (hsize : headerSz + argsSize (init ++ arg :: rest) < 256 ^ 4) :
    get (transmit (message b code (init ++ arg :: rest)) r) init.length = arg.word := by
  have hle := le_argsSize_cons arg rest
  have hload := loadWord_storeArgs (b.write 4 (leBytes 4 code)) headerSz init rest arg
  rw [argsSize_of_scalar hinit] at hload
  rw [get, ← hload]
  apply Buffer.loadWord_congr
  intro i hge hlt
  rw [transmit_of_lt, message_of_ge b code _ (le_trans (Nat.le_add_right _ _) hge)]
  rw [messageSize_message b code _ hsize, argsSize_append, argsSize_of_scalar hinit]
  omega

/-- **A string received** in the last argument is the one sent; a null string is empty. -/
theorem getString_message (init : List Arg) (str : Option CString)
    (hinit : ∀ a ∈ init, a.Scalar)
    (hsize : headerSz + argsSize (init ++ [.string str]) < 256 ^ 4) :
    getString (transmit (message b code (init ++ [.string str])) r) init.length =
      (str.map Subtype.val).getD [] := by
  have hlength := get_message b r code init [] (.string str) hinit hsize
  rw [getString, hlength]
  cases str with
  | none => rfl
  | some str =>
    have hargs : argsSize [.string (some str)] = 8 + 8 * (str.val.length ⌈/⌉ 8) := rfl
    have hceil : str.val.length ≤ 8 * (str.val.length ⌈/⌉ 8) := by
      rw [Nat.ceilDiv_eq_add_pred_div]
      omega
    have hmsg := messageSize_message b code _ hsize
    rw [argsSize_append, argsSize_of_scalar hinit, hargs] at hmsg hsize
    -- the length of the text is less than the size of the message, so it fits in its word
    have hnat : (Arg.word (.string (some str))).toNat = str.val.length := by
      show (UInt64.ofNat str.val.length).toNat = _
      rw [UInt64.toNat_ofNat']
      apply Nat.mod_eq_of_lt
      omega
    have hread := read_storeArgs (b.write 4 (leBytes 4 code)) headerSz init [] str
    rw [argsSize_of_scalar hinit, Nat.add_assoc] at hread
    rw [hnat]
    refine Eq.trans ?_ hread
    -- the text is within the bytes that are transmitted
    apply Buffer.read_congr
    intro i hge hlt
    rw [transmit_of_lt, message_of_ge b code _ (le_trans (Nat.le_add_right _ _) hge)]
    rw [hmsg]
    omega

end Message

end Network

end GfeDriver
