import GfeDriver.Network.Client

/-!
# Remote calls

A method of a client and the server behind it, put together: the request is encoded, transmitted,
decoded, performed and answered, and the answer is transmitted and decoded. For most calls this is
the same as the call on the interface itself. It is not for `get_weight`, since the server converts
the weight to an integer and the client reads the bits of the integer as a double; nor for `dump` to
a file, since the server does not know the type of its request; nor for a path with an embedded
terminator.

## Main definitions

* `remote`: a call of a client, up to its result
* `direct`: the call on the interface, where an empty path stands for null
* `Fits`: the arguments of the call fit in a message
* `Transparent S c`: the remote call is the direct call

## Main results

* `exchange_of_sound`: a remote call performs the call and returns its result
* `transparent_iff`: the calls that are transparent, for every interface
* `remote_addVertex_error`: an error of the library is reported as a success of `add_vertex`
-/

namespace GfeDriver

namespace Network

open Foundation

/-! ## A remote call -/

/-- The buffers of the two ends, before a call. -/
structure Buffers where
  clientWrite : Buffer
  serverRead : Buffer
  serverWrite : Buffer
  clientRead : Buffer

section Remote

variable {σ : Type} (S : Service σ) (m : Buffers) (h : Handler σ)

/-- The request of a call as the server receives it. -/
def received (c : Call) : Buffer := transmit (clientRequest m.clientWrite c) m.serverRead

/-- A request and its answer. There is none when the server is terminated. -/
def exchange (c : Call) : Option (Except ClientError c.Result) × Handler σ :=
  let answer := handleRequest S (received m c) m.serverWrite h
  (answer.1.map fun response => finish (transmit response m.clientRead) c, answer.2)

/-- **A call of a client**: what it returns or raises, and the server after it. -/
def remote (c : Call) : Option (Except ClientError c.Result) × Handler σ :=
  match c with
  | .batch [] _ => (some (.ok true), h)
  | c => exchange S m h c

/-- The call on the interface; an empty output path stands for null. -/
def direct (s : σ) : (c : Call) → Except Raised c.Result × σ
  | .bfs v dump2file => S.exec (.bfs v (orNull dump2file)) s
  | .pagerank n d dump2file => S.exec (.pagerank n d (orNull dump2file)) s
  | .wcc dump2file => S.exec (.wcc (orNull dump2file)) s
  | .cdlp n dump2file => S.exec (.cdlp n (orNull dump2file)) s
  | .lcc dump2file => S.exec (.lcc (orNull dump2file)) s
  | .sssp v dump2file => S.exec (.sssp v (orNull dump2file)) s
  | c => S.exec c s

/-- The call that the server performs: an empty output path stands for null. -/
def Call.normal : Call → Call
  | .bfs v dump2file => .bfs v (orNull dump2file)
  | .pagerank n d dump2file => .pagerank n d (orNull dump2file)
  | .wcc dump2file => .wcc (orNull dump2file)
  | .cdlp n dump2file => .cdlp n (orNull dump2file)
  | .lcc dump2file => .lcc (orNull dump2file)
  | .sssp v dump2file => .sssp v (orNull dump2file)
  | c => c

/-- **The remote call is the direct call**, whenever the interface has the call and the call
completes without an exception. -/
def Transparent (c : Call) : Prop :=
  ∀ (m : Buffers) (h : Handler σ) (r : c.Result) (s' : σ), S.Supports c →
    direct S h.interface c = (.ok r, s') →
    remote S m h c = (some (.ok r), { h with interface := s' })

end Remote

/-- The capacity of the buffers of a connection, in bytes. -/
def bufferSz : ℕ := 4096

/-- The bytes that storing the arguments writes: a string is written with its terminator. -/
def argsSpan : List Arg → ℕ
  | [] => 0
  | .string (some str) :: rest =>
    max (8 + str.val.length + 1) (8 + 8 * (str.val.length ⌈/⌉ 8) + argsSpan rest)
  | _ :: rest => 8 + argsSpan rest

/-- The arguments of the call fit in a message. The buffer grows for a batch, to a power of two that
is a 32-bit integer. -/
def Fits : Call → Prop
  | .batch updates _ => headerSz + 24 * updates.length ≤ 2 ^ 31
  | c => headerSz + argsSpan c.args ≤ bufferSz

/-- The calls that go through as they are. -/
def Sound : Call → Prop
  | .getWeight _ _ => False
  | .dump _ => False
  | .load path => (0 : UInt8) ∉ path
  | _ => True

/-! ## The request -/

section Request

theorem argsSize_le_argsSpan (args : List Arg) : argsSize args ≤ argsSpan args := by
  induction args with
  | nil => exact le_rfl
  | cons arg rest ih =>
    rcases arg with v | v | v | (_ | str)
    case string.some =>
      exact (Nat.add_le_add_left ih _).trans (le_max_right _ _)
    all_goals exact Nat.add_le_add_left ih 8

/-- A message that fits has a size of 32 bits. -/
theorem size_lt_of_span {args : List Arg} (h : headerSz + argsSpan args ≤ bufferSz) :
    headerSz + argsSize args < 256 ^ 4 := by
  have hle := argsSize_le_argsSpan args
  have hsz : bufferSz < 256 ^ 4 := by decide
  omega

theorem cStr_of_notMem {l : List UInt8} (hl : (0 : UInt8) ∉ l) : (cStr l).val = l := by
  apply List.takeWhile_eq_self_iff.mpr
  intro x hx
  have hne : x ≠ 0 := fun hc => hl (hc ▸ hx)
  simpa using hne

/-- The server reads a null path and an empty path alike, as null. -/
theorem cPath_getD (str : Option CString) :
    cPath ((str.map Subtype.val).getD []) = orNull str := by
  rcases str with _ | ⟨l, hl⟩
  · rfl
  · rcases l with _ | ⟨x, l⟩
    · rfl
    · have hstr : cStr (x :: l) = ⟨x :: l, hl⟩ := Subtype.ext (cStr_of_notMem hl)
      simp [cPath, orNull, hstr]

theorem orNull_orNull (str : Option CString) : orNull (orNull str) = orNull str := by
  unfold orNull
  split_ifs <;> simp_all

end Request

/-! ## The answer -/

section Answer

variable {out r : Buffer} {args : List Arg}

theorem responseType_respond {t : ResponseType} (hsize : headerSz + argsSize args < 256 ^ 4) :
    responseType (transmit (respond out t args) r) = some t := by
  rw [responseType, respond, typeCode_transmit _ _ _ t.code_lt hsize, t.getElem?_code]

theorem get_respond {t : ResponseType} {a : Arg} (hsize : headerSz + argsSize [a] < 256 ^ 4) :
    get (transmit (respond out t [a]) r) 0 = a.word :=
  get_message out r t.code [] [] a (by simp) hsize

theorem size_of_scalar {a : Arg} (ha : a.Scalar) : headerSz + argsSize [a] < 256 ^ 4 := by
  cases a with
  | string str => exact absurd ha id
  | _ => exact (by decide : 8 + (8 + 0) < 256 ^ 4)

theorem size_reply (c : Call) (v : c.Result) : headerSz + argsSize (c.reply v) < 256 ^ 4 := by
  cases c
  case numEdges | numVertices | isDirected | hasVertex | hasEdge | getWeight | addVertex
    | removeVertex | addEdge | removeEdge | batch => exact size_of_scalar trivial
  all_goals exact (by decide : 8 + 0 < 256 ^ 4)

/-- A truth value is decoded from the integer it was stored as. -/
theorem getBool_respond (t : ResponseType) (v : Bool) :
    getBool (transmit (respond out t [.unsigned v.toUInt64]) r) 0 = v := by
  have hget : get (transmit (respond out t [.unsigned v.toUInt64]) r) 0 = v.toUInt64 :=
    get_respond (size_of_scalar trivial)
  rw [getBool, hget]
  cases v <;> rfl

/-- **The result of a call** is decoded from its answer, unless it is a weight. -/
theorem finish_reply (c : Call) (v : c.Result)
    (hc : ∀ source destination, c ≠ .getWeight source destination) :
    finish (transmit (respond out .ok (c.reply v)) r) c = .ok v := by
  have htype : responseType (transmit (respond out .ok (c.reply v)) r) = some .ok :=
    responseType_respond (size_reply c v)
  cases c
  case getWeight source destination => exact absurd rfl (hc source destination)
  case numEdges | numVertices => exact congrArg Except.ok (get_respond (size_of_scalar trivial))
  case isDirected | hasVertex | hasEdge => exact congrArg Except.ok (getBool_respond .ok v)
  case addVertex | removeVertex | addEdge | removeEdge | batch =>
    simp only [finish, testUpdate, htype, Option.some.injEq, reduceCtorEq, if_false]
    exact congrArg Except.ok (getBool_respond .ok v)
  all_goals simp [finish, testUpdate, testTimeout, testAll, htype]

end Answer

/-! ## The server's side -/

section Handle

variable {σ : Type} (S : Service σ) (m : Buffers) (h : Handler σ)

/-- The request of a call as the server receives it, when its arguments are stored one by one. -/
def sent (c : Call) : Buffer :=
  transmit (message m.clientWrite c.type.code c.args) m.serverRead

/-- The request of a call is dispatched by the type of the call. -/
theorem handleRequest_sent {c : Call}
    (hrequest : clientRequest m.clientWrite c = message m.clientWrite c.type.code c.args)
    (hsize : headerSz + argsSize c.args < 256 ^ 4) :
    handleRequest S (received m c) m.serverWrite h =
      handle S (sent m c) m.serverWrite h c.type := by
  rw [received, hrequest]
  apply handleRequest_of_typeCode
  exact typeCode_transmit _ _ _ c.type.code_lt hsize

theorem get_sent {c : Call} (hsize : headerSz + argsSize c.args < 256 ^ 4) (init rest : List Arg)
    (arg : Arg) (hargs : c.args = init ++ arg :: rest) (hinit : ∀ a ∈ init, a.Scalar) :
    get (sent m c) init.length = arg.word := by
  rw [hargs] at hsize
  rw [sent, hargs]
  exact get_message _ _ _ init rest arg hinit hsize

/-- The first argument, when it is a number. -/
theorem get_sent_zero {c : Call} {value : UInt64} {rest : List Arg}
    (hsize : headerSz + argsSize c.args < 256 ^ 4) (hargs : c.args = .unsigned value :: rest) :
    get (sent m c) 0 = value :=
  get_sent m hsize [] rest (.unsigned value) hargs (by simp)

/-- The second argument, behind a number. -/
theorem get_sent_one {c : Call} {first value : UInt64} {rest : List Arg}
    (hsize : headerSz + argsSize c.args < 256 ^ 4)
    (hargs : c.args = .unsigned first :: .unsigned value :: rest) : get (sent m c) 1 = value :=
  get_sent m hsize [.unsigned first] rest (.unsigned value) hargs (by simp [Arg.Scalar])

theorem getString_sent {c : Call} (hsize : headerSz + argsSize c.args < 256 ^ 4)
    (init : List Arg) (str : Option CString) (hargs : c.args = init ++ [.string str])
    (hinit : ∀ a ∈ init, a.Scalar) :
    getString (sent m c) init.length = (str.map Subtype.val).getD [] := by
  rw [hargs] at hsize
  rw [sent, hargs]
  exact getString_message _ _ _ init str hinit hsize

theorem cPath_sent {c : Call} (hsize : headerSz + argsSize c.args < 256 ^ 4) (init : List Arg)
    (str : Option CString) (hargs : c.args = init ++ [.string str])
    (hinit : ∀ a ∈ init, a.Scalar) :
    cPath (getString (sent m c) init.length) = orNull str := by
  rw [getString_sent m hsize init str hargs hinit, cPath_getD]

variable {S m h}

/-- The end of an exchange in which the server performs a call. -/
theorem exchange_of_performCall {c c' : Call} {v : c'.Result} {s' : σ}
    (hhandle : handleRequest S (received m c) m.serverWrite h =
      performCall S m.serverWrite h c')
    (hexec : S.exec c' h.interface = (.ok v, s')) :
    exchange S m h c =
      (some (finish (transmit (respond m.serverWrite .ok (c'.reply v)) m.clientRead) c),
        { h with interface := s' }) := by
  rw [exchange, hhandle, performCall_of_ok hexec]
  rfl

/-- **What the server performs**: the call of the client, with null for an empty output path. -/
theorem handleRequest_of_sound {c : Call} (hsize : headerSz + argsSize c.args < 256 ^ 4)
    (hsound : Sound c) (hbatch : ∀ updates force, c ≠ .batch updates force)
    (hsupports : S.Supports c) :
    handleRequest S (received m c) m.serverWrite h = performCall S m.serverWrite h c.normal := by
  cases c
  case batch updates force => exact absurd rfl (hbatch updates force)
  -- neither of these is sound
  case getWeight source destination => exact absurd hsound id
  case dump path => exact absurd hsound id
  case numEdges | numVertices | isDirected => exact handleRequest_sent S m h rfl hsize
  -- the server reads each argument from the slot where the client stored it
  case hasVertex vertexId =>
    have h₀ : get (sent m (.hasVertex vertexId)) 0 = vertexId := get_sent_zero m hsize rfl
    rw [handleRequest_sent S m h rfl hsize]
    simp only [Call.type, handle, h₀, Call.normal]
  case hasEdge source destination =>
    have h₀ : get (sent m (.hasEdge source destination)) 0 = source := get_sent_zero m hsize rfl
    have h₁ : get (sent m (.hasEdge source destination)) 1 = destination := get_sent_one m hsize rfl
    rw [handleRequest_sent S m h rfl hsize]
    simp only [Call.type, handle, h₀, h₁, Call.normal]
  case load path =>
    -- a path without a null character is the text that the client sends
    have hpath : getString (sent m (.load path)) 0 = path :=
      (getString_sent m hsize [] (some (cStr path)) rfl (by simp)).trans (cStr_of_notMem hsound)
    rw [handleRequest_sent S m h rfl hsize]
    simp only [Call.type, handle, hpath, performOn_of_supports (hsupports _ rfl), Call.normal]
  case addVertex vertexId =>
    have h₀ : get (sent m (.addVertex vertexId)) 0 = vertexId := get_sent_zero m hsize rfl
    rw [handleRequest_sent S m h rfl hsize]
    simp only [Call.type, handle, h₀, performOn_of_supports (hsupports _ rfl), Call.normal]
  case removeVertex vertexId =>
    have h₀ : get (sent m (.removeVertex vertexId)) 0 = vertexId := get_sent_zero m hsize rfl
    rw [handleRequest_sent S m h rfl hsize]
    simp only [Call.type, handle, h₀, performOn_of_supports (hsupports _ rfl), Call.normal]
  case addEdge source destination weight =>
    have h₀ : get (sent m (.addEdge source destination weight)) 0 = source :=
      get_sent_zero m hsize rfl
    have h₁ : get (sent m (.addEdge source destination weight)) 1 = destination :=
      get_sent_one m hsize rfl
    have h₂ : get (sent m (.addEdge source destination weight)) 2 = weight.bits :=
      get_sent m hsize [.unsigned source, .unsigned destination] _ (.double weight) rfl
        (by simp [Arg.Scalar])
    rw [handleRequest_sent S m h rfl hsize]
    simp only [Call.type, handle, h₀, h₁, getDouble, h₂, performOn_of_supports (hsupports _ rfl),
      Call.normal]
  case removeEdge source destination =>
    have h₀ : get (sent m (.removeEdge source destination)) 0 = source := get_sent_zero m hsize rfl
    have h₁ : get (sent m (.removeEdge source destination)) 1 = destination :=
      get_sent_one m hsize rfl
    rw [handleRequest_sent S m h rfl hsize]
    simp only [Call.type, handle, h₀, h₁, performOn_of_supports (hsupports _ rfl), Call.normal]
  case build =>
    rw [handleRequest_sent S m h rfl hsize]
    simp only [Call.type, handle, performOn_of_supports (hsupports _ rfl), Call.normal]
  case setTimeout seconds =>
    have h₀ : get (sent m (.setTimeout seconds)) 0 = seconds := get_sent_zero m hsize rfl
    rw [handleRequest_sent S m h rfl hsize]
    simp only [Call.type, handle, h₀, Call.normal]
  case bfs sourceVertexId dump2file =>
    have h₀ : get (sent m (.bfs sourceVertexId dump2file)) 0 = sourceVertexId :=
      get_sent_zero m hsize rfl
    -- the server takes an empty path for a null pointer, and the client sends none for both
    have hpath : cPath (getString (sent m (.bfs sourceVertexId dump2file)) 1) = orNull dump2file :=
      (cPath_sent m hsize [.unsigned sourceVertexId] (orNull dump2file) rfl
        (by simp [Arg.Scalar])).trans (orNull_orNull dump2file)
    rw [handleRequest_sent S m h rfl hsize]
    simp only [Call.type, handle, h₀, hpath, performOn_of_supports (hsupports _ rfl), Call.normal]
  case pagerank numIterations dampingFactor dump2file =>
    have h₀ : get (sent m (.pagerank numIterations dampingFactor dump2file)) 0 = numIterations :=
      get_sent_zero m hsize rfl
    have h₁ : get (sent m (.pagerank numIterations dampingFactor dump2file)) 1 =
        dampingFactor.bits :=
      get_sent m hsize [.unsigned numIterations] _ (.double dampingFactor) rfl
        (by simp [Arg.Scalar])
    have hpath : cPath (getString (sent m (.pagerank numIterations dampingFactor dump2file)) 2) =
        orNull dump2file :=
      cPath_sent m hsize [.unsigned numIterations, .double dampingFactor] dump2file rfl
        (by simp [Arg.Scalar])
    rw [handleRequest_sent S m h rfl hsize]
    simp only [Call.type, handle, h₀, getDouble, h₁, hpath, performOn_of_supports (hsupports _ rfl),
      Call.normal]
  case wcc dump2file =>
    have hpath : cPath (getString (sent m (.wcc dump2file)) 0) = orNull dump2file :=
      cPath_sent m hsize [] dump2file rfl (by simp)
    rw [handleRequest_sent S m h rfl hsize]
    simp only [Call.type, handle, hpath, performOn_of_supports (hsupports _ rfl), Call.normal]
  case cdlp maxIterations dump2file =>
    have h₀ : get (sent m (.cdlp maxIterations dump2file)) 0 = maxIterations :=
      get_sent_zero m hsize rfl
    have hpath : cPath (getString (sent m (.cdlp maxIterations dump2file)) 1) = orNull dump2file :=
      cPath_sent m hsize [.unsigned maxIterations] dump2file rfl (by simp [Arg.Scalar])
    rw [handleRequest_sent S m h rfl hsize]
    simp only [Call.type, handle, h₀, hpath, performOn_of_supports (hsupports _ rfl), Call.normal]
  case lcc dump2file =>
    have hpath : cPath (getString (sent m (.lcc dump2file)) 0) = orNull dump2file :=
      cPath_sent m hsize [] dump2file rfl (by simp)
    rw [handleRequest_sent S m h rfl hsize]
    simp only [Call.type, handle, hpath, performOn_of_supports (hsupports _ rfl), Call.normal]
  case sssp sourceVertexId dump2file =>
    have h₀ : get (sent m (.sssp sourceVertexId dump2file)) 0 = sourceVertexId :=
      get_sent_zero m hsize rfl
    have hpath : cPath (getString (sent m (.sssp sourceVertexId dump2file)) 1) = orNull dump2file :=
      cPath_sent m hsize [.unsigned sourceVertexId] dump2file rfl (by simp [Arg.Scalar])
    rw [handleRequest_sent S m h rfl hsize]
    simp only [Call.type, handle, h₀, hpath, performOn_of_supports (hsupports _ rfl), Call.normal]

/-- **A remote call** performs the call and returns its result. -/
theorem exchange_of_sound {c : Call} (hsize : headerSz + argsSize c.args < 256 ^ 4)
    (hsound : Sound c) (hbatch : ∀ updates force, c ≠ .batch updates force)
    (hsupports : S.Supports c) {v : c.Result} {s' : σ}
    (hdirect : direct S h.interface c = (.ok v, s')) :
    exchange S m h c = (some (.ok v), { h with interface := s' }) := by
  have hhandle := handleRequest_of_sound (m := m) (h := h) hsize hsound hbatch hsupports
  cases c
  case batch updates force => exact absurd rfl (hbatch updates force)
  case getWeight source destination => exact absurd hsound id
  case dump path => exact absurd hsound id
  all_goals
    rw [exchange_of_performCall hhandle hdirect]
    exact Prod.ext (congrArg some (finish_reply _ v (by simp))) rfl

end Handle

/-! ## Batches -/

section Batch

variable (out r : Buffer) (updates : List SingleUpdate) (force : Bool)

theorem length_batchWords : (batchWords updates).length = 3 * updates.length := by
  induction updates with
  | nil => rfl
  | cons u updates ih =>
    show (batchWords updates).length + 3 = _
    rw [ih, List.length_cons]
    ring

/-- The three words of an update. -/
theorem getElem?_batchWords {i : ℕ} {u : SingleUpdate} (hi : updates[i]? = some u) :
    (batchWords updates)[3 * i]? = some u.source ∧
      (batchWords updates)[3 * i + 1]? = some u.destination ∧
      (batchWords updates)[3 * i + 2]? = some u.weight.bits := by
  induction updates generalizing i with
  | nil => simp at hi
  | cons u' updates ih =>
    cases i with
    | zero =>
      obtain rfl : u' = u := by simpa using hi
      exact ⟨rfl, rfl, rfl⟩
    | succ i => exact ih (by simpa using hi)

variable {updates}

theorem messageSize_batchRequest (hsize : headerSz + 24 * updates.length < 256 ^ 4) :
    messageSize (batchRequest out updates force) = headerSz + 24 * updates.length := by
  have hread : (batchRequest out updates force).read 0 4 =
      (out.write 0 (leBytes 4 (headerSz + 24 * updates.length))).read 0 4 := by
    rw [batchRequest, Buffer.read_write_of_disjoint (Or.inl (by decide)),
      Buffer.read_write_of_disjoint (Or.inl (by decide))]
  have hwritten := Buffer.read_write out 0 (leBytes 4 (headerSz + 24 * updates.length))
  rw [length_leBytes] at hwritten
  rw [messageSize, hread, hwritten, leValue_leBytes, Nat.mod_eq_of_lt hsize]

theorem typeCode_batchRequest :
    typeCode (batchRequest out updates force) = (Call.batch updates force).type.code := by
  have hwritten := Buffer.read_write (out.write 0 (leBytes 4 (headerSz + 24 * updates.length))) 4
    (leBytes 4 (Call.batch updates force).type.code)
  rw [length_leBytes] at hwritten
  rw [typeCode, batchRequest, Buffer.read_write_of_disjoint (Or.inl (by decide)), hwritten,
    leValue_leBytes, Nat.mod_eq_of_lt (Call.batch updates force).type.code_lt]

/-- The header of a batch is received. -/
theorem read_transmit_batchRequest (hsize : headerSz + 24 * updates.length < 256 ^ 4)
    {offset n : ℕ} (hend : offset + n ≤ headerSz + 24 * updates.length) :
    (transmit (batchRequest out updates force) r).read offset n =
      (batchRequest out updates force).read offset n := by
  apply Buffer.read_congr
  intro i _ hlt
  apply transmit_of_lt
  rw [messageSize_batchRequest out force hsize]
  omega

/-- A word of a batch is received. -/
theorem get_batchRequest (hsize : headerSz + 24 * updates.length < 256 ^ 4) {j : ℕ} {v : UInt64}
    (hj : (batchWords updates)[j]? = some v) :
    get (transmit (batchRequest out updates force) r) j = v := by
  obtain ⟨hlt, -⟩ := List.getElem?_eq_some_iff.mp hj
  rw [length_batchWords] at hlt
  rw [get, Buffer.loadWord, read_transmit_batchRequest out r force hsize (by omega)]
  exact Buffer.loadWord_write_wordBytes _ headerSz _ hj

/-- **A batch received** is the one sent. -/
theorem requestBatch_batchRequest (hsize : headerSz + 24 * updates.length < 256 ^ 4) :
    requestBatch (transmit (batchRequest out updates force) r) = updates := by
  have hmsg : messageSize (transmit (batchRequest out updates force) r) =
      headerSz + 24 * updates.length := by
    rw [messageSize, read_transmit_batchRequest out r force hsize
      ((by decide : 0 + 4 ≤ headerSz).trans (Nat.le_add_right _ _))]
    exact messageSize_batchRequest out force hsize
  -- the server divides the length of the body by the size of an update
  have hlen : (headerSz + 24 * updates.length - headerSz) / 24 = updates.length := by omega
  rw [requestBatch, hmsg, hlen]
  apply List.ext_getElem
  · simp
  -- three words of an update
  · intro i _ hi
    obtain ⟨hsource, hdestination, hweight⟩ :=
      getElem?_batchWords updates (List.getElem?_eq_getElem hi)
    rw [List.getElem_map, List.getElem_range, getDouble,
      get_batchRequest out r force hsize hsource, get_batchRequest out r force hsize hdestination,
      get_batchRequest out r force hsize hweight]

variable {σ : Type} {S : Service σ} {m : Buffers} {h : Handler σ}

theorem exchange_batch (hsize : headerSz + 24 * updates.length < 256 ^ 4)
    (hsupports : S.Supports (.batch updates force)) {v : Bool} {s' : σ}
    (hexec : S.exec (.batch updates force) h.interface = (.ok v, s')) :
    exchange S m h (.batch updates force) = (some (.ok v), { h with interface := s' }) := by
  -- the type of the request holds the flag `force`
  have htype : typeCode (received m (.batch updates force)) =
      (Call.batch updates force).type.code := by
    rw [received, typeCode]
    show leValue ((transmit (batchRequest _ updates force) _).read 4 4) = _
    rw [read_transmit_batchRequest _ _ force hsize
      ((by decide : 4 + 4 ≤ headerSz).trans (Nat.le_add_right _ _))]
    exact typeCode_batchRequest _ force
  have hbatch : requestBatch (received m (.batch updates force)) = updates :=
    requestBatch_batchRequest _ _ force hsize
  have hhandle : handleRequest S (received m (.batch updates force)) m.serverWrite h =
      performCall S m.serverWrite h (.batch updates force) := by
    rw [handleRequest_of_typeCode S _ _ h htype]
    cases force <;>
      simp [Call.type, handle, hbatch, performOn_of_supports (hsupports _ rfl)]
  rw [exchange_of_performCall hhandle hexec]
  exact Prod.ext (congrArg some (finish_reply (.batch updates force) v (by simp))) rfl

end Batch

/-! ## Transparency -/

section Transparency

/-- A remote call that goes through is transparent. -/
theorem transparent_of_sound {σ : Type} (S : Service σ) {c : Call} (hfits : Fits c)
    (hsound : Sound c) : Transparent S c := by
  intro m h v s' hsupports hdirect
  by_cases hbatch : ∃ updates force, c = .batch updates force
  · obtain ⟨updates, force, rfl⟩ := hbatch
    cases updates with
    | nil =>
      -- the client does not ask the server, and the batch does nothing there
      have hnil : S.exec (.batch [] force) h.interface = (.ok v, s') := hdirect
      rw [S.batch_nil, Prod.mk.injEq, Except.ok.injEq] at hnil
      obtain ⟨rfl, rfl⟩ := hnil
      rfl
    | cons u updates =>
      have hsize : headerSz + 24 * (u :: updates).length < 256 ^ 4 :=
        lt_of_le_of_lt hfits (by decide)
      exact exchange_batch force hsize hsupports hdirect
  · have hne : ∀ updates force, c ≠ .batch updates force :=
      fun updates force hc => hbatch ⟨updates, force, hc⟩
    have hremote : remote S m h c = exchange S m h c := by
      cases c with
      | batch updates force => exact absurd rfl (hne updates force)
      | _ => rfl
    have hsize : headerSz + argsSize c.args < 256 ^ 4 := by
      cases c with
      | batch updates force => exact absurd rfl (hne updates force)
      | _ => exact size_lt_of_span hfits
    rw [hremote]
    exact exchange_of_sound hsize hsound hne hsupports hdirect

variable {σ : Type} {S : Service σ} {m : Buffers} {h : Handler σ}

/-- The weight of an edge comes back as the double with the bits of its integral part. -/
theorem exchange_getWeight {source destination : UInt64}
    (hsize : headerSz + argsSize (Call.getWeight source destination).args < 256 ^ 4) {w : Double}
    {s' : σ} (hexec : S.exec (.getWeight source destination) h.interface = (.ok w, s')) :
    exchange S m h (.getWeight source destination) =
      (some (.ok ⟨w.toInt64.toUInt64⟩), { h with interface := s' }) := by
  have hhandle := handleRequest_sent S m h rfl hsize
  have h₀ : get (sent m (.getWeight source destination)) 0 = source := get_sent_zero m hsize rfl
  have h₁ : get (sent m (.getWeight source destination)) 1 = destination :=
    get_sent_one m hsize rfl
  simp only [Call.type, handle, h₀, h₁] at hhandle
  -- the server converts the weight to an integer, and the client reads its bits as a weight
  have hget : get (transmit (respond m.serverWrite .ok [.signed w.toInt64]) m.clientRead) 0 =
      w.toInt64.toUInt64 := get_respond (size_of_scalar trivial)
  rw [exchange_of_performCall hhandle hexec, ← hget]
  rfl

/-- The server does not know the request of `dump` to a file, and the client does not notice. -/
theorem exchange_dump {path : List UInt8}
    (hsize : headerSz + argsSize (Call.dump path).args < 256 ^ 4) :
    exchange S m h (.dump path) = (some (.ok ()), h) := by
  rw [exchange, handleRequest_sent S m h rfl hsize]
  rfl

/-- The path of `load` is cut at its first terminator. -/
theorem exchange_load {path : List UInt8}
    (hsize : headerSz + argsSize (Call.load path).args < 256 ^ 4)
    (hsupports : S.supports .loader = true) {s' : σ}
    (hexec : S.exec (.load (cStr path).val) h.interface = (.ok (), s')) :
    exchange S m h (.load path) = (some (.ok ()), { h with interface := s' }) := by
  have hhandle := handleRequest_sent S m h rfl hsize
  have hpath : getString (sent m (.load path)) 0 = (cStr path).val :=
    getString_sent m hsize [] (some (cStr path)) rfl (by simp)
  simp only [Call.type, handle, hpath, performOn_of_supports hsupports] at hhandle
  rw [exchange_of_performCall hhandle hexec]
  exact Prod.ext (congrArg some (finish_reply (.load path) () (by simp))) rfl

/-- A result of each call; every weight is one. -/
def sampleResult : (c : Call) → c.Result
  | .numEdges => 0
  | .numVertices => 0
  | .isDirected => true
  | .hasVertex _ => true
  | .hasEdge _ _ => true
  | .getWeight _ _ => ⟨0x3FF0000000000000⟩
  | .addVertex _ => true
  | .removeVertex _ => true
  | .addEdge _ _ _ => true
  | .removeEdge _ _ => true
  | .batch _ _ => true
  | .load _ => ()
  | .build => ()
  | .setTimeout _ => ()
  | .dump _ => ()
  | .bfs _ _ => ()
  | .pagerank _ _ _ => ()
  | .wcc _ => ()
  | .cdlp _ _ => ()
  | .lcc _ => ()
  | .sssp _ _ => ()

/-- A call is recorded, unless it is an empty batch. -/
def record : Call → List Call → List Call
  | .batch [] _, log => log
  | c, log => log ++ [c]

/-- An interface that records the calls. -/
def recorder : Service (List Call) where
  supports _ := true
  exec c log := (.ok (sampleResult c), record c log)
  dumpOstream log := (.ok [], log)
  callback _ log := (.ok (), log)
  libraryName := []
  invalidRequest _ := []
  batch_nil _ _ := rfl

/-- Cleared buffers. -/
def sampleBuffers : Buffers := ⟨Buffer.zero, Buffer.zero, Buffer.zero, Buffer.zero⟩

/-- A new connection to the recorder. -/
def sampleHandler : Handler (List Call) := ⟨[], false, false, false⟩

theorem not_transparent_getWeight (source destination : UInt64)
    (hfits : Fits (.getWeight source destination)) :
    ¬Transparent recorder (.getWeight source destination) := by
  intro htransparent
  have hremote := htransparent sampleBuffers sampleHandler _ _ (fun _ _ => rfl) rfl
  have hweight := exchange_getWeight (S := recorder) (m := sampleBuffers) (h := sampleHandler)
    (size_lt_of_span hfits) rfl
  have hresult := congrArg Prod.fst (hweight.symm.trans hremote)
  rw [Option.some.injEq, Except.ok.injEq] at hresult
  have hone : (⟨(Double.toInt64 ⟨0x3FF0000000000000⟩).toUInt64⟩ : Double) =
      ⟨0x3FF0000000000000⟩ := hresult
  exact absurd hone (by decide)

theorem not_transparent_dump (path : List UInt8) (hfits : Fits (.dump path)) :
    ¬Transparent recorder (.dump path) := by
  intro htransparent
  have hremote := htransparent sampleBuffers sampleHandler _ _ (fun _ _ => rfl) rfl
  have hdump := exchange_dump (S := recorder) (m := sampleBuffers) (h := sampleHandler)
    (size_lt_of_span hfits)
  have hlog := congrArg (fun x => x.2.interface) (hdump.symm.trans hremote)
  exact absurd hlog (List.cons_ne_nil _ _).symm

theorem not_transparent_load (path : List UInt8) (hpath : (0 : UInt8) ∈ path)
    (hfits : Fits (.load path)) : ¬Transparent recorder (.load path) := by
  intro htransparent
  have hremote := htransparent sampleBuffers sampleHandler _ _ (fun _ _ => rfl) rfl
  have hload := exchange_load (S := recorder) (m := sampleBuffers) (h := sampleHandler)
    (size_lt_of_span hfits) rfl rfl
  have hlog := congrArg (fun x => x.2.interface) (hload.symm.trans hremote)
  have heq : (cStr path).val = path := by
    have hcall : ([.load (cStr path).val] : List Call) = [.load path] := hlog
    simpa using hcall
  have hnot := (cStr path).property
  rw [heq] at hnot
  exact hnot hpath

/-- **The transparent calls**: all but `get_weight`, `dump` to a file, and `load` of a path with an
embedded terminator. -/
theorem transparent_iff (c : Call) (hfits : Fits c) :
    (∀ (σ : Type) (S : Service σ), Transparent S c) ↔ Sound c := by
  constructor
  · intro h
    cases c with
    | getWeight source destination =>
      exact not_transparent_getWeight source destination hfits (h _ recorder)
    | dump path => exact not_transparent_dump path hfits (h _ recorder)
    | load path => exact fun hpath => not_transparent_load path hpath hfits (h _ recorder)
    | _ => trivial
  · intro hsound σ S
    exact transparent_of_sound S hfits hsound

theorem transparent_iff_addEdge :
    Fits (.addEdge 1 2 ⟨0x3FF0000000000000⟩) ∧
      ((∀ (σ : Type) (S : Service σ), Transparent S (.addEdge 1 2 ⟨0x3FF0000000000000⟩)) ↔
        Sound (.addEdge 1 2 ⟨0x3FF0000000000000⟩)) := by
  have hfits : Fits (.addEdge 1 2 ⟨0x3FF0000000000000⟩) :=
    (by decide : headerSz + (8 + (8 + (8 + 0))) ≤ bufferSz)
  exact ⟨hfits, transparent_iff _ hfits⟩

/-- The weight `1` comes back as the double whose bits are those of the integer `1`. -/
theorem not_transparent :
    ¬∀ c : Call, Fits c → ∀ (σ : Type) (S : Service σ), Transparent S c := by
  intro h
  have hfits : Fits (.getWeight 1 2) := (by decide : headerSz + (8 + (8 + 0)) ≤ bufferSz)
  exact not_transparent_getWeight 1 2 hfits (h _ hfits _ recorder)

/-- The server answers `add_vertex` with an error, and the client returns `true`: it reads the
length of the text of the error. -/
theorem remote_addVertex_error {σ : Type} {S : Service σ} {m : Buffers} {h : Handler σ}
    {vertexId : UInt64} {text : List UInt8} {s' : σ} (hsupports : S.supports .update = true)
    (hexec : S.exec (.addVertex vertexId) h.interface = (.error (.error text), s'))
    (htext : (cStr text).val ≠ [])
    (hsize : headerSz + argsSize [.string (some (cStr text))] < 256 ^ 4) :
    remote S m h (.addVertex vertexId) = (some (.ok true), { h with interface := s' }) := by
  have hrequest : headerSz + argsSize (Call.addVertex vertexId).args < 256 ^ 4 :=
    size_of_scalar trivial
  have hhandle := handleRequest_sent S m h rfl hrequest
  have h₀ : get (sent m (.addVertex vertexId)) 0 = vertexId := get_sent_zero m hrequest rfl
  simp only [Call.type, handle, h₀, performOn_of_supports hsupports, performCall, hexec,
    perform] at hhandle
  -- the first slot of the answer is the length of the text
  have hget : get (transmit (respond m.serverWrite .error [.string (some (cStr text))])
      m.clientRead) 0 = UInt64.ofNat (cStr text).val.length := get_respond hsize
  have hlength : UInt64.ofNat (cStr text).val.length ≠ 0 := by
    have hargs : argsSize [.string (some (cStr text))] =
        8 + 8 * ((cStr text).val.length ⌈/⌉ 8) := rfl
    rw [hargs, Nat.ceilDiv_eq_add_pred_div] at hsize
    have hpos := List.length_pos_iff.mpr htext
    intro hzero
    have hnat := congrArg UInt64.toNat hzero
    rw [UInt64.toNat_ofNat', Nat.mod_eq_of_lt (by omega), UInt64.toNat_zero] at hnat
    exact absurd hnat hpos.ne'
  have hfinish : finish (transmit (respond m.serverWrite .error [.string (some (cStr text))])
      m.clientRead) (.addVertex vertexId) = .ok true := by
    simp only [finish, testUpdate, responseType_respond hsize, getBool, hget, Option.some.injEq,
      reduceCtorEq, if_false, hlength, ne_eq, not_false_eq_true, decide_true]
  show exchange S m h (.addVertex vertexId) = _
  rw [exchange, hhandle]
  exact Prod.ext (congrArg some hfinish) rfl

end Transparency

end Network

end GfeDriver
