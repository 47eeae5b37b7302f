import GfeDriver.Network.Message

/-!
# The server

The server performs the requests of a client on a library, the served interface. Each request is
decoded, performed and answered in `handle_request`; an exception of the library is caught there and
becomes an answer of its own. The interface is a parameter: a state, and for each call the result or
the exception it ends with. Only `batch` has a law, since no library overrides it: an empty batch
does nothing.

## Main definitions

* `Call`, `Call.Result`: the calls on an interface that a client forwards, and what they return
* `Service σ`: a served interface
* `Double.toInt64`: the conversion of a double to a 64-bit integer
* `handleRequest`: the server

## Main results

* `handleRequest_of_typeCode`: a request is dispatched by its type
-/

namespace GfeDriver

namespace Network

open Foundation

/-! ## The served interface -/

/-- `UpdateInterface::SingleUpdate`. -/
structure SingleUpdate where
  source : UInt64
  destination : UInt64
  weight : Double
  deriving DecidableEq

/-- The calls on a library interface that a client forwards. A path is a string, or a C string that
may be null. -/
inductive Call
  | numEdges
  | numVertices
  | isDirected
  | hasVertex (vertexId : UInt64)
  | hasEdge (source destination : UInt64)
  | getWeight (source destination : UInt64)
  | load (path : List UInt8)
  | addVertex (vertexId : UInt64)
  | removeVertex (vertexId : UInt64)
  | addEdge (source destination : UInt64) (weight : Double)
  | removeEdge (source destination : UInt64)
  | build
  | batch (updates : List SingleUpdate) (force : Bool)
  | setTimeout (seconds : UInt64)
  | dump (path : List UInt8)
  | bfs (sourceVertexId : UInt64) (dump2file : Option CString)
  | pagerank (numIterations : UInt64) (dampingFactor : Double) (dump2file : Option CString)
  | wcc (dump2file : Option CString)
  | cdlp (maxIterations : UInt64) (dump2file : Option CString)
  | lcc (dump2file : Option CString)
  | sssp (sourceVertexId : UInt64) (dump2file : Option CString)
  deriving DecidableEq

/-- What a call returns. -/
abbrev Call.Result : Call → Type
  | .numEdges | .numVertices => UInt64
  | .isDirected | .hasVertex _ | .hasEdge _ _ | .addVertex _ | .removeVertex _ | .addEdge _ _ _
  | .removeEdge _ _ | .batch _ _ => Bool
  | .getWeight _ _ => Double
  | .load _ | .build | .setTimeout _ | .dump _ | .bfs _ _ | .pagerank _ _ _ | .wcc _ | .cdlp _ _
  | .lcc _ | .sssp _ _ => Unit

/-- The interfaces that a library may implement besides the base one. -/
inductive Capability
  | loader
  | update
  | graphalytics
  deriving DecidableEq

/-- The interface that a call belongs to. -/
def Call.capability : Call → Option Capability
  | .load _ => some .loader
  | .addVertex _ | .removeVertex _ | .addEdge _ _ _ | .removeEdge _ _ | .build | .batch _ _ =>
    some .update
  | .bfs _ _ | .pagerank _ _ _ | .wcc _ | .cdlp _ _ | .lcc _ | .sssp _ _ => some .graphalytics
  | _ => none

/-- The exceptions of a library: a `TimeoutError`, another `common::Error` with its text, or an
exception of another kind. -/
inductive Raised
  | timeout
  | error (text : List UInt8)
  | other

/-- The callbacks of a library. -/
inductive Callback
  | onMainInit (numThreads : Int32)
  | onThreadInit (threadId : Int32)
  | onThreadDestroy (threadId : Int32)
  | onMainDestroy

/-- **A served interface** with states `σ`, the configured name of the library, and the text of the
error for a request with an invalid type. -/
structure Service (σ : Type) where
  supports : Capability → Bool
  exec : (c : Call) → σ → Except Raised c.Result × σ
  dumpOstream : σ → Except Raised (List UInt8) × σ
  callback : Callback → σ → Except Raised Unit × σ
  libraryName : List UInt8
  invalidRequest : ℕ → List UInt8
  /-- `UpdateInterface::batch`, which libraries do not override. -/
  batch_nil : ∀ force s, exec (.batch [] force) s = (.ok true, s)

/-- `dynamic_cast` to the interface of a call succeeds. -/
def Service.Supports {σ : Type} (S : Service σ) (c : Call) : Prop :=
  ∀ capability, c.capability = some capability → S.supports capability = true

/-- The state of a connection and of the server behind it. -/
structure Handler (σ : Type) where
  interface : σ
  terminate : Bool
  serverStop : Bool
  terminateOnLastConnection : Bool

/-! ## The handler -/

/-- The conversion of a double to `int64_t`: its integral part. Values out of range, and values that
are not numbers, give the integer with the highest bit only, as the instruction for it does. -/
def Double.toInt64 (d : Double) : Int64 :=
  let bits := d.bits.toNat
  let exponent := bits / 2 ^ 52 % 2 ^ 11
  let significand := 2 ^ 52 + bits % 2 ^ 52
  let magnitude : ℕ :=
    if exponent < 1023 then 0
    else if exponent < 1075 then significand / 2 ^ (1075 - exponent)
    else significand * 2 ^ (exponent - 1075)
  if 1086 ≤ exponent then Int64.ofInt (-2 ^ 63)
  else if bits < 2 ^ 63 then Int64.ofInt magnitude
  else Int64.ofInt (-magnitude)

/-- The arguments of the answer to a call. -/
def Call.reply : (c : Call) → c.Result → List Arg
  | .numEdges, r => [.unsigned r]
  | .numVertices, r => [.unsigned r]
  | .isDirected, r => [.unsigned r.toUInt64]
  | .hasVertex _, r => [.unsigned r.toUInt64]
  | .hasEdge _ _, r => [.unsigned r.toUInt64]
  -- the weight goes through a variable of type int64_t
  | .getWeight _ _, r => [.signed r.toInt64]
  | .addVertex _, r => [.unsigned r.toUInt64]
  | .removeVertex _, r => [.unsigned r.toUInt64]
  | .addEdge _ _ _, r => [.unsigned r.toUInt64]
  | .removeEdge _ _, r => [.unsigned r.toUInt64]
  | .batch _ _, r => [.unsigned r.toUInt64]
  | .load _, _ => []
  | .build, _ => []
  | .setTimeout _, _ => []
  | .dump _, _ => []
  | .bfs _ _, _ => []
  | .pagerank _ _ _, _ => []
  | .wcc _, _ => []
  | .cdlp _ _, _ => []
  | .lcc _, _ => []
  | .sssp _ _, _ => []

/-- `path.empty() ? nullptr : path.c_str()`. -/
def cPath (path : List UInt8) : Option CString := if path = [] then none else some (cStr path)

section Handle

variable {σ : Type} (S : Service σ) (request out : Buffer) (h : Handler σ)

/-- `response`, in the write buffer `out`. -/
def respond (type : ResponseType) (args : List Arg) : Buffer := message out type.code args

/-- The end of a request that was performed: its answer, or the answer of one of the two handlers of
`handle_request`. An exception of another kind terminates the server. -/
def perform {α : Type} (result : Except Raised α × σ) (answer : α → Buffer) :
    Option Buffer × Handler σ :=
  let h' := { h with interface := result.2 }
  match result.1 with
  | .ok r => (some (answer r), h')
  | .error .timeout => (some (respond out .timeout []), h')
  | .error (.error text) => (some (respond out .error [.string (some (cStr text))]), h')
  | .error .other => (none, h')

/-- A call on the base interface. -/
def performCall (c : Call) : Option Buffer × Handler σ :=
  perform out h (S.exec c h.interface) fun r => respond out .ok (c.reply r)

/-- A call on an interface that the library may not implement. -/
def performOn (capability : Capability) (c : Call) : Option Buffer × Handler σ :=
  if S.supports capability then performCall S out h c
  else (some (respond out .notSupported []), h)

/-- The answer to `DUMP_CLIENT`, whose body is not rounded to slots. -/
def dumpResponse (text : List UInt8) : Buffer :=
  let body := (cStr text).val
  let header := ((out.write 0 (leBytes 4 (headerSz + 8 + body.length + 1))).write 4
    (leBytes 4 ResponseType.ok.code)).storeWord headerSz (UInt64.ofNat body.length)
  header.write (headerSz + 8) (body ++ [0])

/-- The batch in the body of a request. -/
def requestBatch : List SingleUpdate :=
  (List.range ((messageSize request - headerSz) / 24)).map fun i =>
    ⟨get request (3 * i), get request (3 * i + 1), getDouble request (3 * i + 2)⟩

/-- The `switch` of `handle_request`. -/
def handle : RequestType → Option Buffer × Handler σ
  | .terminateWorker => (some (respond out .ok []), { h with terminate := true })
  | .terminateServer =>
    (some (respond out .ok []), { h with terminate := true, serverStop := true })
  | .terminateOnLastConnection =>
    (some (respond out .ok []), { h with terminateOnLastConnection := true })
  | .libraryName => (some (respond out .ok [.string (some (cStr S.libraryName))]), h)
  | .setTimeout => performCall S out h (.setTimeout (get request 0))
  | .onMainInit =>
    perform out h (S.callback (.onMainInit (getInt request 0)) h.interface) fun _ =>
      respond out .ok []
  | .onThreadInit =>
    perform out h (S.callback (.onThreadInit (getInt request 0)) h.interface) fun _ =>
      respond out .ok []
  | .onThreadDestroy =>
    perform out h (S.callback (.onThreadDestroy (getInt request 0)) h.interface) fun _ =>
      respond out .ok []
  | .onMainDestroy =>
    perform out h (S.callback .onMainDestroy h.interface) fun _ => respond out .ok []
  | .numEdges => performCall S out h .numEdges
  | .numVertices => performCall S out h .numVertices
  | .isDirected => performCall S out h .isDirected
  | .hasVertex => performCall S out h (.hasVertex (get request 0))
  | .hasEdge => performCall S out h (.hasEdge (get request 0) (get request 1))
  | .getWeight => performCall S out h (.getWeight (get request 0) (get request 1))
  | .load => performOn S out h .loader (.load (getString request 0))
  | .addVertex => performOn S out h .update (.addVertex (get request 0))
  | .removeVertex => performOn S out h .update (.removeVertex (get request 0))
  | .addEdge =>
    performOn S out h .update
      (.addEdge (get request 0) (get request 1) (getDouble request 2))
  | .removeEdge => performOn S out h .update (.removeEdge (get request 0) (get request 1))
  | .batchPlainForceNo => performOn S out h .update (.batch (requestBatch request) false)
  | .batchPlainForceYes => performOn S out h .update (.batch (requestBatch request) true)
  | .build => performOn S out h .update .build
  | .dumpClient => perform out h (S.dumpOstream h.interface) (dumpResponse out)
  | .bfs => performOn S out h .graphalytics (.bfs (get request 0) (cPath (getString request 1)))
  | .pagerank =>
    performOn S out h .graphalytics
      (.pagerank (get request 0) (getDouble request 1) (cPath (getString request 2)))
  | .wcc => performOn S out h .graphalytics (.wcc (cPath (getString request 0)))
  | .cdlp => performOn S out h .graphalytics (.cdlp (get request 0) (cPath (getString request 1)))
  | .lcc => performOn S out h .graphalytics (.lcc (cPath (getString request 0)))
  | .sssp => performOn S out h .graphalytics (.sssp (get request 0) (cPath (getString request 1)))
  -- the default branch
  | .dumpStdout | .dumpFile =>
    perform out h
      ((.error (.error (S.invalidRequest (typeCode request))), h.interface) :
        Except Raised Unit × σ) fun _ => respond out .ok []

/-- **`handle_request`**: the answer, unless the server is terminated, and the state behind it. -/
def handleRequest : Option Buffer × Handler σ :=
  match RequestType.all[typeCode request]? with
  | some type => handle S request out h type
  | none =>
    perform out h
      ((.error (.error (S.invalidRequest (typeCode request))), h.interface) :
        Except Raised Unit × σ) fun _ => respond out .ok []

/-- A request is dispatched by its type. -/
theorem handleRequest_of_typeCode {type : RequestType} (htype : typeCode request = type.code) :
    handleRequest S request out h = handle S request out h type := by
  rw [handleRequest, htype, RequestType.getElem?_code]

variable {S out h}

/-- A call that completes. -/
theorem performCall_of_ok {c : Call} {r : c.Result} {s' : σ}
    (hexec : S.exec c h.interface = (.ok r, s')) :
    performCall S out h c =
      (some (respond out .ok (c.reply r)), { h with interface := s' }) := by
  rw [performCall, hexec]
  rfl

theorem performOn_of_supports {capability : Capability} (hsupports : S.supports capability = true)
    (c : Call) : performOn S out h capability c = performCall S out h c := if_pos hsupports

end Handle

end Network

end GfeDriver
