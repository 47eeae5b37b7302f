import GfeDriver.Network.Server

/-!
# The client

`Client` implements the library interface by sending each call to the server. A method encodes its
arguments in a request, waits for the answer, looks at the type of the answer, and decodes the
result. Which types of answer it looks at differs from method to method. The assertions are compiled
out, as in an optimised build: a method does not see a type that it does not test, and decodes the
answer as it is.

## Main definitions

* `Call.type`, `Call.args`, `clientRequest`: the request of a call
* `finish`: the end of a method, from the answer on
* `Operation`: the methods of a client
* `Tests`: the types of answer that a method looks at

## Main results

* `failureReported_iff`: a method raises an exception on a failure if and only if it looks at its
  type
-/

namespace GfeDriver

namespace Network

open Foundation

/-! ## The requests -/

/-- The type of the request of a call. -/
def Call.type : Call → RequestType
  | .numEdges => .numEdges
  | .numVertices => .numVertices
  | .isDirected => .isDirected
  | .hasVertex _ => .hasVertex
  | .hasEdge _ _ => .hasEdge
  | .getWeight _ _ => .getWeight
  | .load _ => .load
  | .addVertex _ => .addVertex
  | .removeVertex _ => .removeVertex
  | .addEdge _ _ _ => .addEdge
  | .removeEdge _ _ => .removeEdge
  | .build => .build
  | .batch _ force => if force then .batchPlainForceYes else .batchPlainForceNo
  | .setTimeout _ => .setTimeout
  | .dump _ => .dumpFile
  | .bfs _ _ => .bfs
  | .pagerank _ _ _ => .pagerank
  | .wcc _ => .wcc
  | .cdlp _ _ => .cdlp
  | .lcc _ => .lcc
  | .sssp _ _ => .sssp

/-- `dump2file != nullptr && dump2file[0] == '\0'`: the path becomes null. -/
def orNull (dump2file : Option CString) : Option CString :=
  if dump2file.map Subtype.val = some [] then none else dump2file

/-- The arguments of the request of a call. -/
def Call.args : Call → List Arg
  | .hasVertex vertexId => [.unsigned vertexId]
  | .hasEdge source destination => [.unsigned source, .unsigned destination]
  | .getWeight source destination => [.unsigned source, .unsigned destination]
  | .load path => [.string (some (cStr path))]
  | .addVertex vertexId => [.unsigned vertexId]
  | .removeVertex vertexId => [.unsigned vertexId]
  | .addEdge source destination weight =>
    [.unsigned source, .unsigned destination, .double weight]
  | .removeEdge source destination => [.unsigned source, .unsigned destination]
  | .setTimeout seconds => [.unsigned seconds]
  | .dump path => [.string (some (cStr path))]
  | .bfs sourceVertexId dump2file => [.unsigned sourceVertexId, .string (orNull dump2file)]
  | .pagerank numIterations dampingFactor dump2file =>
    [.unsigned numIterations, .double dampingFactor, .string dump2file]
  | .wcc dump2file => [.string dump2file]
  | .cdlp maxIterations dump2file => [.unsigned maxIterations, .string dump2file]
  | .lcc dump2file => [.string dump2file]
  | .sssp sourceVertexId dump2file => [.unsigned sourceVertexId, .string dump2file]
  | .numEdges | .numVertices | .isDirected | .build | .batch _ _ => []

/-- The words of the updates of a batch, as they are in memory. -/
def batchWords (updates : List SingleUpdate) : List UInt64 :=
  updates.flatMap fun u => [u.source, u.destination, u.weight.bits]

/-- The request of `batch`: a header, and a copy of the batch. -/
def batchRequest (out : Buffer) (updates : List SingleUpdate) (force : Bool) : Buffer :=
  let header := (out.write 0 (leBytes 4 (headerSz + 24 * updates.length))).write 4
    (leBytes 4 (Call.batch updates force).type.code)
  header.write headerSz (Buffer.wordBytes (batchWords updates))

/-- The request of a call, in the write buffer `out`. -/
def clientRequest (out : Buffer) : Call → Buffer
  | .batch updates force => batchRequest out updates force
  | c => message out c.type.code c.args

/-! ## The answers -/

/-- The exceptions of a client. -/
inductive ClientError
  | notSupported (operation : String)
  | rpcError (message : List UInt8)
  | timeoutError (message : String)
  | invalidResponse

section Finish

variable (response : Buffer)

/-- The type of an answer, if it is valid. -/
def responseType : Option ResponseType := ResponseType.all[typeCode response]?

/-- The test of the updates, and of `build`. -/
def testUpdate {α : Type} (operation : String) (result : α) : Except ClientError α :=
  if responseType response = some .notSupported then .error (.notSupported operation)
  else .ok result

/-- The tests of `pagerank` and `wcc`. -/
def testTimeout (operation : String) : Except ClientError Unit :=
  if responseType response = some .notSupported then .error (.notSupported operation)
  else if responseType response = some .timeout then
    .error (.timeoutError "The operation requested timed out")
  else .ok ()

/-- The `switch` of `cdlp`, `lcc` and `sssp`. -/
def testAll (operation : String) : Except ClientError Unit :=
  match responseType response with
  | some .notSupported => .error (.notSupported operation)
  | some .timeout => .error (.timeoutError "The operation requested timed out")
  | some .error => .error (.rpcError (getString response 0))
  | some .ok => .ok ()
  | none => .error .invalidResponse

/-- **The end of a method**, from the answer on. -/
def finish : (c : Call) → Except ClientError c.Result
  | .numEdges => .ok (get response 0)
  | .numVertices => .ok (get response 0)
  | .isDirected => .ok (getBool response 0)
  | .hasVertex _ => .ok (getBool response 0)
  | .hasEdge _ _ => .ok (getBool response 0)
  | .getWeight _ _ => .ok (getDouble response 0)
  | .load _ =>
    if responseType response = some .notSupported then .error (.notSupported "load")
    else if responseType response = some .error then .error (.rpcError (getString response 0))
    else .ok ()
  -- the value of an answer is read whatever its type is, so a missing test returns it
  | .addVertex _ => testUpdate response "add_vertex" (getBool response 0)
  | .removeVertex _ => testUpdate response "delete_vertex" (getBool response 0)
  | .addEdge _ _ _ => testUpdate response "add_edge" (getBool response 0)
  | .removeEdge _ _ => testUpdate response "delete_edge" (getBool response 0)
  | .build => testUpdate response "build" ()
  | .batch _ _ =>
    if responseType response = some .timeout then .error (.timeoutError "Batch timeout")
    else .ok (getBool response 0)
  | .setTimeout _ => .ok ()
  | .dump _ => .ok ()
  | .bfs _ _ =>
    if responseType response = some .notSupported then .error (.notSupported "bfs")
    else if responseType response = some .error then .error (.rpcError (getString response 0))
    else if responseType response = some .timeout then
      .error (.timeoutError "The operation requested timed out")
    else .ok ()
  | .pagerank _ _ _ => testTimeout response "pagerank"
  | .wcc _ => testTimeout response "wcc"
  | .cdlp _ _ => testAll response "cdlp"
  | .lcc _ => testAll response "lcc"
  | .sssp _ _ => testAll response "sssp"

end Finish

/-! ## Failures -/

section Failures

/-- The methods of a client that are not calls on the interface, or whose call the client does not
forward as it is. They do not look at the type of the answer. -/
inductive Admin
  | terminateServerOnExit
  | onMainInit (numThreads : Int32)
  | onThreadInit (threadId : Int32)
  | onThreadDestroy (threadId : Int32)
  | onMainDestroy
  | getLibraryName
  | dumpStdout

/-- What such a method returns, or prints. -/
abbrev Admin.Result : Admin → Type
  | .getLibraryName | .dumpStdout => List UInt8
  | _ => Unit

/-- The end of such a method, from the answer on. -/
def finishAdmin (response : Buffer) : (a : Admin) → Except ClientError a.Result
  | .terminateServerOnExit => .ok ()
  | .onMainInit _ => .ok ()
  | .onThreadInit _ => .ok ()
  | .onThreadDestroy _ => .ok ()
  | .onMainDestroy => .ok ()
  | .getLibraryName => .ok (getString response 0)
  | .dumpStdout => .ok (getString response 0)

/-- The methods of a client that send a request. -/
inductive Operation
  | call (c : Call)
  | admin (a : Admin)

/-- The method sends a request: `batch` does not, for an empty batch. -/
def Operation.Asks : Operation → Prop
  | .call (.batch [] _) => False
  | _ => True

/-- The method raises an exception on an answer. -/
def Operation.Raises (response : Buffer) : Operation → Prop
  | .call c => ∃ e, finish response c = .error e
  | .admin a => ∃ e, finishAdmin response a = .error e

/-- The types of answer that a method looks at. -/
def Operation.Tests (t : ResponseType) : Operation → Prop
  | .call (.load _) => t = .notSupported ∨ t = .error
  | .call (.addVertex _) | .call (.removeVertex _) | .call (.addEdge _ _ _)
  | .call (.removeEdge _ _) | .call .build => t = .notSupported
  | .call (.batch _ _) => t = .timeout
  | .call (.pagerank _ _ _) | .call (.wcc _) => t = .notSupported ∨ t = .timeout
  | .call (.bfs _ _) | .call (.cdlp _ _) | .call (.lcc _) | .call (.sssp _ _) => t ≠ .ok
  | _ => False

/-- The method raises an exception whenever an answer of the type `t` is a failure. -/
def FailureReported (op : Operation) (t : ResponseType) : Prop :=
  t ≠ .ok → op.Asks → ∀ response, responseType response = some t → op.Raises response

variable {t : ResponseType} {response : Buffer}

theorem raises_testUpdate {α : Type} {operation : String} {result : α}
    (ht : responseType response = some t) :
    (∃ e, testUpdate response operation result = .error e) ↔ t = .notSupported := by
  rw [testUpdate, ht]
  cases t <;> simp

theorem raises_testTimeout {operation : String} (ht : responseType response = some t) :
    (∃ e, testTimeout response operation = .error e) ↔ t = .notSupported ∨ t = .timeout := by
  rw [testTimeout, ht]
  cases t <;> simp

theorem raises_testAll {operation : String} (ht : responseType response = some t) :
    (∃ e, testAll response operation = .error e) ↔ t ≠ .ok := by
  rw [testAll, ht]
  cases t <;> simp

/-- **The answers that raise an exception** are those of the types that the method looks at. -/
theorem raises_iff (op : Operation) (ht : responseType response = some t) :
    op.Raises response ↔ op.Tests t := by
  cases op with
  | admin a => cases a <;> simp [Operation.Raises, Operation.Tests, finishAdmin]
  | call c =>
    cases c with
    -- three methods have their own tests
    | load path =>
      simp only [Operation.Raises, Operation.Tests, finish, ht]
      cases t <;> simp
    | batch updates force =>
      simp only [Operation.Raises, Operation.Tests, finish, ht]
      cases t <;> simp
    | bfs v p =>
      simp only [Operation.Raises, Operation.Tests, finish, ht]
      cases t <;> simp
    -- the updates test for one type, as do the algorithms of each kind
    | addVertex v => exact raises_testUpdate ht
    | removeVertex v => exact raises_testUpdate ht
    | addEdge u v w => exact raises_testUpdate ht
    | removeEdge u v => exact raises_testUpdate ht
    | build => exact raises_testUpdate ht
    | pagerank n d p => exact raises_testTimeout ht
    | wcc p => exact raises_testTimeout ht
    | cdlp n p => exact raises_testAll ht
    | lcc p => exact raises_testAll ht
    | sssp v p => exact raises_testAll ht
    | _ => simp [Operation.Raises, Operation.Tests, finish]

/-- There are answers of every type. -/
theorem exists_response (t : ResponseType) : ∃ response, responseType response = some t := by
  refine ⟨message Buffer.zero t.code [], ?_⟩
  rw [responseType, typeCode_message _ _ _ t.code_lt, t.getElem?_code]

/-- **A failure is reported** if and only if the method looks at its type. -/
theorem failureReported_iff (op : Operation) (t : ResponseType) :
    FailureReported op t ↔ t = .ok ∨ ¬op.Asks ∨ op.Tests t := by
  constructor
  · intro h
    by_cases hok : t = .ok
    · exact Or.inl hok
    · by_cases hasks : op.Asks
      -- an answer of this type exists, and whether it raises depends on its type only
      · obtain ⟨response, ht⟩ := exists_response t
        exact Or.inr (Or.inr ((raises_iff op ht).mp (h hok hasks response ht)))
      · exact Or.inr (Or.inl hasks)
  · rintro (hok | hasks | htests) hne hasks' response ht
    · exact absurd hok hne
    · exact absurd hasks' hasks
    · exact (raises_iff op ht).mpr htests

/-- `add_vertex` looks at one type of answer only, and takes an error for a success. -/
theorem not_failureReported_addVertex : ¬FailureReported (.call (.addVertex 7)) .error := by
  intro h
  obtain ⟨response, ht⟩ := exists_response .error
  have hraises := h (by decide) trivial response ht
  exact absurd ((raises_iff _ ht).mp hraises) (by simp [Operation.Tests])

end Failures

end Network

end GfeDriver
