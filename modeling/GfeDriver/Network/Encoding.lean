import GfeDriver.Network.Message

/-!
# Reading the arguments of a message back

An argument takes a number of words: one for an integer or a double, and for a string one for the
length and as many as its characters fill. The words of the arguments before it say where it is
read. `strcpy` writes a terminator behind the characters of a string, which is outside of the words
of the string when they are filled; the next argument is laid over it, and behind the last one it
is outside of the message.

The size of a message is a 32-bit integer, and `num_arguments` converts it to a signed one. So the
sizes from `2 ^ 32` on are not seen in the message, and the number of words only below `2 ^ 31`.

## Main definitions

* `Arg.words`, `wordOffset`: the words of an argument, and of those before one
* `numArguments`: the number of words in a message
* `ReadsBack`: an argument is what `get` or `get_string` returns

## Main results

* `readsBack_message`: each argument is read back, whatever the arguments around it
* `message_roundTrip`: the arguments, the size and the number of words of a message
-/

namespace GfeDriver

namespace Network

open Foundation

/-! ## Words -/

/-- The number of words that an argument takes. -/
def Arg.words : Arg → ℕ
  | .string (some str) => 1 + str.val.length ⌈/⌉ 8
  | _ => 1

/-- The number of words of the arguments: where the next one is. -/
def wordOffset (args : List Arg) : ℕ := (args.map Arg.words).sum

/-- A boolean is an unsigned integer, `0` or `1`. -/
def Arg.bool (v : Bool) : Arg := .unsigned v.toUInt64

/-- `num_arguments`: the size is converted to an `int`, and the difference to the header is taken in
`size_t`. -/
def numArguments (b : Buffer) : Int32 :=
  (((Int32.ofNat (messageSize b)).toInt64.toUInt64 - UInt64.ofNat headerSz) / 8).toInt64.toInt32

/-- `get<int64_t>`. -/
def getSigned (b : Buffer) (index : ℕ) : Int64 := (get b index).toInt64

/-- The argument is what is read at the word `index` with its type. A null string is read as an
empty one. -/
def ReadsBack (b : Buffer) (index : ℕ) : Arg → Prop
  | .signed v => getSigned b index = v
  | .unsigned v => get b index = v ∧ ∀ c : Bool, .unsigned v = Arg.bool c → getBool b index = c
  | .double v => getDouble b index = v
  | .string str => getString b index = (str.map Subtype.val).getD []

theorem argsSize_eq (args : List Arg) : argsSize args = 8 * wordOffset args := by
  induction args with
  | nil => rfl
  | cons arg rest ih =>
    have hfirst : argsSize [arg] = 8 * arg.words := by
      rcases arg with v | v | v | (_ | str)
      case string.some =>
        show 8 + 8 * (str.val.length ⌈/⌉ 8) + 0 = 8 * (1 + str.val.length ⌈/⌉ 8)
        ring
      all_goals rfl
    rw [argsSize_cons, ih, hfirst, wordOffset, wordOffset, List.map_cons, List.sum_cons]
    ring

/-! ## The arguments -/

section Message

variable (b : Buffer) (code : ℕ) (init rest : List Arg)

/-- **The first word of an argument** in a message. -/
theorem get_message_append (arg : Arg) :
    get (message b code (init ++ arg :: rest)) (wordOffset init) = arg.word := by
  have hload := loadWord_storeArgs (b.write 4 (leBytes 4 code)) headerSz init rest arg
  rw [argsSize_eq] at hload
  rw [get, ← hload]
  apply Buffer.loadWord_congr
  intro i hge _
  exact message_of_ge b code _ (le_trans (Nat.le_add_right _ _) hge)

/-- **The characters of a string** in a message. -/
theorem getString_message_append (str : Option CString)
    (hlength : ∀ s, str = some s → s.val.length < 2 ^ 64) :
    getString (message b code (init ++ .string str :: rest)) (wordOffset init) =
      (str.map Subtype.val).getD [] := by
  rw [getString, get_message_append]
  cases str with
  | none => rfl
  | some str =>
    have hread := read_storeArgs (b.write 4 (leBytes 4 code)) headerSz init rest str
    have hword : (Arg.word (.string (some str))).toNat = str.val.length := by
      show (UInt64.ofNat str.val.length).toNat = _
      rw [UInt64.toNat_ofNat', Nat.mod_eq_of_lt (hlength str rfl)]
    have hoffset : headerSz + 8 * (wordOffset init + 1) = headerSz + argsSize init + 8 := by
      rw [argsSize_eq]
      ring
    rw [hword, hoffset]
    refine Eq.trans ?_ hread
    apply Buffer.read_congr
    intro i hge _
    apply message_of_ge
    omega

/-- **An argument is read back**, whatever the arguments around it are. -/
theorem readsBack_message (arg : Arg)
    (hlength : ∀ s, arg = .string (some s) → s.val.length < 2 ^ 64) :
    ReadsBack (message b code (init ++ arg :: rest)) (wordOffset init) arg := by
  have hget := get_message_append b code init rest arg
  cases arg with
  | signed v =>
    show (get _ _).toInt64 = v
    rw [hget]
    exact v.toInt64_toUInt64
  | unsigned v =>
    refine ⟨hget, fun c hc => ?_⟩
    obtain rfl : v = c.toUInt64 := Arg.unsigned.inj hc
    rw [getBool, hget]
    cases c <;> rfl
  | double v =>
    show (⟨get _ _⟩ : Double) = v
    rw [hget]
    rfl
  | string str =>
    apply getString_message_append
    rintro s rfl
    exact hlength s rfl

end Message

/-! ## The size of a message -/

/-- A string takes the words of its characters. -/
theorem length_le_of_mem {args : List Arg} {str : CString} (h : .string (some str) ∈ args) :
    str.val.length ≤ 8 * wordOffset args := by
  have hle : Arg.words (.string (some str)) ≤ wordOffset args :=
    List.le_sum_of_mem (List.mem_map_of_mem h)
  have hwords : Arg.words (.string (some str)) = 1 + str.val.length ⌈/⌉ 8 := rfl
  rw [hwords, Nat.ceilDiv_eq_add_pred_div] at hle
  omega

theorem messageSize_message_mod_words (b : Buffer) (code : ℕ) (args : List Arg) :
    messageSize (message b code args) = (headerSz + 8 * wordOffset args) % 2 ^ 32 := by
  rw [messageSize_message_mod, argsSize_eq, show (256 : ℕ) ^ 4 = 2 ^ 32 by norm_num]

/-- **The number of words** of a message whose size is in the range of `int`. -/
theorem numArguments_of_lt {b : Buffer} {n : ℕ} (hsize : messageSize b = headerSz + 8 * n)
    (hlt : headerSz + 8 * n < 2 ^ 31) : (numArguments b).toInt = n := by
  have hint : (Int32.ofNat (headerSz + 8 * n)).toInt64 = Int64.ofNat (headerSz + 8 * n) := by
    apply Int64.toInt_inj.mp
    rw [Int32.toInt_toInt64, Int32.toInt_ofNat_of_lt hlt, Int64.toInt_ofNat_of_lt (by omega)]
  have hwords : (UInt64.ofNat (headerSz + 8 * n) - UInt64.ofNat headerSz) / 8 = UInt64.ofNat n := by
    have hsub : UInt64.ofNat (headerSz + 8 * n) - UInt64.ofNat headerSz = UInt64.ofNat (8 * n) := by
      rw [← UInt64.ofNat_sub (Nat.le_add_right _ _), Nat.add_sub_cancel_left]
    rw [hsub]
    apply UInt64.toNat_inj.mp
    rw [UInt64.toNat_div, UInt64.toNat_ofNat', UInt64.toNat_ofNat', Nat.mod_eq_of_lt (by omega),
      Nat.mod_eq_of_lt (by omega)]
    exact Nat.mul_div_cancel_left n (by norm_num)
  rw [numArguments, hsize, hint, Int64.toUInt64_ofNat', hwords, UInt64.toInt64_ofNat',
    Int64.toInt32_ofNat', Int32.toInt_ofNat_of_lt (by omega)]

/-- **A message keeps its arguments**: each one is read back at its word, and the message has its
size and its number of words. -/
theorem message_roundTrip (b : Buffer) (code : ℕ) (args : List Arg)
    (hsize : headerSz + 8 * wordOffset args < 2 ^ 32) :
    (∀ k arg, args[k]? = some arg →
        ReadsBack (message b code args) (wordOffset (args.take k)) arg) ∧
      messageSize (message b code args) = headerSz + 8 * wordOffset args ∧
      (headerSz + 8 * wordOffset args < 2 ^ 31 →
        (numArguments (message b code args)).toInt = wordOffset args) := by
  have hmessage : messageSize (message b code args) = headerSz + 8 * wordOffset args := by
    rw [messageSize_message_mod_words, Nat.mod_eq_of_lt hsize]
  refine ⟨?_, hmessage, numArguments_of_lt hmessage⟩
  intro k arg hk
  obtain ⟨hlt, harg⟩ := List.getElem?_eq_some_iff.mp hk
  -- the arguments before it, and those behind it
  have hsplit : args = args.take k ++ arg :: args.drop (k + 1) := by
    rw [← harg, ← List.drop_eq_getElem_cons hlt, List.take_append_drop]
  have hlength : ∀ s, arg = .string (some s) → s.val.length < 2 ^ 64 := by
    rintro s rfl
    have hle := length_le_of_mem (harg ▸ List.getElem_mem hlt)
    omega
  have hread := readsBack_message b code (args.take k) (args.drop (k + 1)) arg hlength
  rwa [← hsplit] at hread

/-- A string of eight letters, whose terminator is under the integer behind it. -/
theorem message_roundTrip_letters :
    getString (message Buffer.zero 0 [.string (some ⟨List.replicate 8 97, by decide⟩),
        .signed (-1), Arg.bool true, .string none]) 0 = List.replicate 8 97 ∧
      getSigned (message Buffer.zero 0 [.string (some ⟨List.replicate 8 97, by decide⟩),
        .signed (-1), Arg.bool true, .string none]) 2 = -1 := by
  obtain ⟨hread, -, -⟩ := message_roundTrip Buffer.zero 0
    [.string (some ⟨List.replicate 8 97, by decide⟩), .signed (-1), Arg.bool true, .string none]
    (by decide)
  exact ⟨hread 0 _ rfl, hread 1 _ rfl⟩

/-! ## Messages that are too long -/

/-- A string of `n` letters. -/
def letters (n : ℕ) : CString :=
  ⟨List.replicate n 97, fun h => absurd (List.eq_of_mem_replicate h) (by decide)⟩

theorem wordOffset_letters (n : ℕ) : wordOffset [.string (some (letters (8 * n)))] = 1 + n := by
  have hlength : (letters (8 * n)).val.length = 8 * n := List.length_replicate
  show 1 + (letters (8 * n)).val.length ⌈/⌉ 8 + 0 = 1 + n
  rw [hlength, Nat.ceilDiv_eq_add_pred_div]
  omega

/-- A message of four gibibytes has the size zero, and one of two gibibytes has a negative number
of words. -/
theorem message_not_roundTrip :
    messageSize (message Buffer.zero 0 [.string (some (letters (8 * (2 ^ 29 - 2))))]) ≠
        headerSz + 8 * wordOffset [.string (some (letters (8 * (2 ^ 29 - 2))))] ∧
      (numArguments (message Buffer.zero 0 [.string (some (letters (8 * (2 ^ 28 - 2))))])).toInt ≠
        wordOffset [.string (some (letters (8 * (2 ^ 28 - 2))))] := by
  rw [messageSize_message_mod_words, numArguments, messageSize_message_mod_words,
    wordOffset_letters, wordOffset_letters]
  constructor
  · decide
  · decide

end Network

end GfeDriver
