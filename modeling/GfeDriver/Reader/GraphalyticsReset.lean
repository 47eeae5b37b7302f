import GfeDriver.Reader.EdgeList
import GfeDriver.Reader.GraphalyticsZlib

/-!
# The reset of the reader of Graphalytics

The reader returns the edges of a file that is a text, or compressed. For an undirected graph it may
return each edge in both directions, and keeps the edge that it returned last. `reset` opens the
file again, but the last edge and `m_last_reported` are not changed. So when the second direction of
an edge is still to be returned, it comes in front of the first edge of the file.

## Main definitions

* `Impl`, `Impl.readEdge`: the readers of the three formats
* `Reader`, `Reader.read`, `Reader.reset`: the reader
* `Reader.Pending`: the second direction of the last edge is still to be returned
* `Determined`: what is read from a file does not depend on memory that is not initialised

## Main results

* `Reader.answers_of_impl`, `Reader.impl_of_answers`: the reader returns what its implementation
  reads
* `determined_plain`, `determined_smooth`: files of which the content is determined
* `Reader.pending_iff`: the number of edges returned decides what is pending
* `Reader.restarts_iff`: when `reset` restarts the reader
-/

namespace GfeDriver

namespace Graphalytics

open Foundation GraphalyticsZlib

/-! ## The formats -/

/-- A weight: the number in a text, or the eight bytes of a `double`. -/
inductive Weight
  | text (value : WithTop ℚ)
  | bytes (value : List UInt8)
  deriving DecidableEq

/-- The exceptions: a line that cannot be parsed, and an answer of `inflate`. -/
inductive ReadError
  | line (e : EdgeListError)
  | inflate (code : InflateCode)

/-- The buffers of a decompressor, which are not initialised. -/
structure Memory where
  input : Buffer
  output : Buffer

/-- **The readers of the edge file**: a text, and records of two or three words. -/
inductive Impl (I : Inflater)
  | plain (reader : GraphalyticsPlainReader)
  | zlib2 (edges : DecompressInput I)
  | zlib3 (edges : DecompressInput I)

/-- The word `i` of a record. -/
def word (record : List UInt8) (i : ℕ) : List UInt8 := (record.drop (8 * i)).take 8

def toUInt64 (bytes : List UInt8) : UInt64 := UInt64.ofNat (leValue bytes)

/-- The state in which `read` raises an exception: `inflate` was called. -/
def afterError {I : Inflater} (size : ℕ) (r : DecompressInput I) : DecompressInput I :=
  match r.fillInput size with
  | none => r
  | some r =>
    let outputBuffer := r.outputBuffer.write 0 (r.outputBuffer.read r.outputSz r.outputLeftoverSz)
    let rc := r.stream.call r.inputBuffer (bufferCapacity size - r.outputLeftoverSz)
    { r with
      stream := r.stream.after rc
      outputBuffer := outputBuffer.write r.outputLeftoverSz rc.output }

/-- `read_edge` of a compressed file, whose records consist of `size` bytes. -/
def readRecord {I : Inflater} (size : ℕ) (weight : List UInt8 → Weight)
    (edges : DecompressInput I) :
    Except ReadError (Option (UInt64 × UInt64 × Weight)) × DecompressInput I :=
  match edges.read size with
  | .error code => (.error (.inflate code), afterError size edges)
  | .ok (none, edges) => (.ok none, edges)
  | .ok (some record, edges) =>
    (.ok (some (toUInt64 (word record 0), toUInt64 (word record 1), weight record)), edges)

/-- `read_edge`. -/
def Impl.readEdge {I : Inflater} :
    Impl I → Option (Except ReadError (Option (UInt64 × UInt64 × Weight)) × Impl I)
  | .plain reader => do
    match ← reader.readEdge with
    | (.error e, reader) => return (.error (.line e), .plain reader)
    | (.ok none, reader) => return (.ok none, .plain reader)
    | (.ok (some (source, destination, weight)), reader) =>
      return (.ok (some (source, destination, .text weight)), .plain reader)
  | .zlib2 edges =>
    let (result, edges) := readRecord 16 (fun _ => .text (roundDouble 0)) edges
    some (result, .zlib2 edges)
  | .zlib3 edges =>
    let (result, edges) := readRecord 24 (fun record => .bytes (word record 2)) edges
    some (result, .zlib3 edges)

/-! ## The reader -/

/-- What the property file says, and the content of the edge file. -/
structure Properties where
  directed : Bool
  isWeighted : Bool
  isCompressed : Bool
  edgeFile : List UInt8

/-- The implementation of the reader, for a file that is opened. -/
def Properties.open (I : Inflater) (p : Properties) (memory : Memory) : Impl I :=
  if !p.isCompressed then .plain ⟨.openText p.edgeFile, p.isWeighted⟩
  else if !p.isWeighted then .zlib2 (.new I p.edgeFile memory.input memory.output)
  else .zlib3 (.new I p.edgeFile memory.input memory.output)

/-- **The reader**. The weights of a file without weights are drawn at random. -/
structure Reader (I : Inflater) where
  properties : Properties
  impl : Impl I
  maxWeight : Weight
  random : ℕ → Weight
  emitDirectedEdges : Bool := false
  lastSource : UInt64 := 0
  lastDestination : UInt64 := 0
  lastWeight : Weight := .text (roundDouble 0)
  lastReported : Bool := true

namespace Reader

variable {I : Inflater}

/-- The constructor, which ends with a reset. -/
def new (I : Inflater) (properties : Properties) (maxWeight : Weight) (random : ℕ → Weight)
    (memory : Memory) : Reader I :=
  { properties, impl := properties.open I memory, maxWeight, random }

/-- `reset`. -/
def reset (r : Reader I) (memory : Memory) : Reader I :=
  { r with impl := r.properties.open I memory }

/-- `set_emit_directed_edges`. -/
def setEmitDirectedEdges (r : Reader I) (value : Bool) : Reader I :=
  { r with emitDirectedEdges := value }

/-- The weight that was read is replaced if the file has no weights. -/
def drawWeight (r : Reader I) : Reader I :=
  if r.properties.isWeighted then r
  else
    { r with
      lastWeight := if r.random 0 = .text (roundDouble 0) then r.maxWeight else r.random 0
      random := fun i => r.random (i + 1) }

/-- The edge that was read last. -/
def lastEdge (r : Reader I) : WeightedEdge Weight :=
  ⟨r.lastSource.toNat, r.lastDestination.toNat, r.lastWeight⟩

/-- An edge was read by the implementation. -/
def keep (r : Reader I) (lastSource lastDestination : UInt64) (lastWeight : Weight) : Reader I :=
  { { r with lastSource, lastDestination, lastWeight }.drawWeight with lastReported := false }

/-- What follows a call of the implementation. -/
def report (r : Reader I) : Except ReadError (Option (UInt64 × UInt64 × Weight)) × Impl I →
    Except ReadError (Option (WeightedEdge Weight)) × Reader I
  | (.error e, impl) => (.error e, { r with impl })
  | (.ok none, impl) => (.ok none, { r with impl })
  | (.ok (some (source, destination, weight)), impl) =>
    let r := { r with impl }.keep source destination weight
    (.ok (some r.lastEdge), r)

/-- The last edge is turned around. -/
def swapLast (r : Reader I) : Reader I :=
  { r with
    lastSource := r.lastDestination, lastDestination := r.lastSource, lastReported := true }

/-- `read_edge`. -/
def readEdge (r : Reader I) :
    Option (Except ReadError (Option (WeightedEdge Weight)) × Reader I) :=
  if !r.properties.directed && r.emitDirectedEdges && !r.lastReported then
    some (.ok (some r.swapLast.lastEdge), r.swapLast)
  else r.impl.readEdge.map r.report

/-- `read`. -/
def read (r : Reader I) : Option (Except ReadError (Option (WeightedEdge Weight)) × Reader I) :=
  r.readEdge

end Reader

/-! ## What is returned -/

/-- The source, the destination, and the weight if the file provides it. -/
abbrev Observed := ℕ × ℕ × Option Weight

def Properties.observeWeight (p : Properties) (weight : Weight) : Option Weight :=
  if p.isWeighted then some weight else none

/-- An edge that the implementation read. -/
def Properties.observeItem (p : Properties) (item : UInt64 × UInt64 × Weight) : Observed :=
  (item.1.toNat, item.2.1.toNat, p.observeWeight item.2.2)

/-- An edge that the reader returned. -/
def Properties.observeEdge (p : Properties) (e : WeightedEdge Weight) : Observed :=
  (e.source, e.destination, p.observeWeight e.weight)

/-- An edge in the other direction. -/
def turned (e : Observed) : Observed := (e.2.1, e.1, e.2.2)

/-- What is returned: each edge, and perhaps the one in the other direction behind it. -/
def emitted (both : Bool) : List (Except ReadError Observed) → List (Except ReadError Observed)
  | [] => []
  | .error e :: xs => .error e :: emitted both xs
  | .ok x :: xs => .ok x :: ((if both then [.ok (turned x)] else []) ++ emitted both xs)

namespace Reader

variable {I : Inflater}

/-- Each edge is returned in both directions. -/
def both (r : Reader I) : Bool := !r.properties.directed && r.emitDirectedEdges

/-- **The second direction of the last edge** is still to be returned. -/
def Pending (r : Reader I) : Prop := r.both = true ∧ r.lastReported = false

instance (r : Reader I) : Decidable r.Pending := inferInstanceAs (Decidable (_ ∧ _))

/-- The last edge in the other direction, if it is still to be returned. -/
def due (r : Reader I) : List (Except ReadError Observed) :=
  if r.Pending then [.ok (r.properties.observeEdge r.swapLast.lastEdge)] else []

theorem read_of_pending {r : Reader I} (h : r.Pending) :
    r.read = some (.ok (some r.swapLast.lastEdge), r.swapLast) := by
  obtain ⟨hboth, hreported⟩ := h
  rw [both] at hboth
  rw [read, readEdge, hboth, hreported]
  rfl

theorem read_of_not_pending {r : Reader I} (h : ¬r.Pending) :
    r.read = r.impl.readEdge.map r.report := by
  rw [read, readEdge, if_neg]
  intro hcond
  obtain ⟨hboth, hreported⟩ := Bool.and_eq_true_iff.mp hcond
  exact h ⟨hboth, by simpa using hreported⟩

theorem not_pending_swapLast (r : Reader I) : ¬r.swapLast.Pending :=
  fun h => Bool.noConfusion h.2

theorem due_of_not_pending {r : Reader I} (h : ¬r.Pending) : r.due = [] := if_neg h

section Keep

variable (r : Reader I) (source destination : UInt64) (weight : Weight)

@[simp] theorem properties_keep : (r.keep source destination weight).properties = r.properties := by
  unfold keep drawWeight
  split <;> rfl

@[simp] theorem impl_keep : (r.keep source destination weight).impl = r.impl := by
  unfold keep drawWeight
  split <;> rfl

@[simp] theorem both_keep : (r.keep source destination weight).both = r.both := by
  unfold both keep drawWeight
  split <;> rfl

@[simp] theorem lastReported_keep : (r.keep source destination weight).lastReported = false := rfl

/-- The edge that is kept is the one that was read. -/
theorem observeEdge_keep :
    r.properties.observeEdge (r.keep source destination weight).lastEdge =
      r.properties.observeItem (source, destination, weight) := by
  unfold keep drawWeight Properties.observeEdge Properties.observeItem Properties.observeWeight
  split <;> rfl

/-- What is due behind an edge: the edge in the other direction. -/
theorem due_keep : (r.keep source destination weight).due =
    if r.both then [.ok (turned (r.properties.observeItem (source, destination, weight)))]
    else [] := by
  rw [due, properties_keep]
  have hiff : (r.keep source destination weight).Pending ↔ r.both = true := by
    rw [Pending, both_keep, lastReported_keep]
    exact and_iff_left rfl
  rw [← observeEdge_keep]
  by_cases hboth : r.both = true
  · rw [if_pos (hiff.mpr hboth), if_pos hboth]
    rfl
  · rw [if_neg (mt hiff.mp hboth), if_neg hboth]

end Keep

/-! ### The reader and its implementation -/

/-- The reader returns what the implementation reads, behind what is due. -/
def Follows (r : Reader I) (ds : List (Except ReadError (UInt64 × UInt64 × Weight))) : Prop :=
  ∃ xs, Answers read r xs ∧ xs.map (Except.map r.properties.observeEdge) =
    r.due ++ emitted r.both (ds.map (Except.map r.properties.observeItem))

/-- An edge that is due comes first, and what is behind it is that of a reader without one. -/
theorem follows_of_fresh {ds : List (Except ReadError (UInt64 × UInt64 × Weight))} {impl : Impl I}
    (h : ∀ r : Reader I, r.impl = impl → ¬r.Pending → r.Follows ds) (r : Reader I)
    (himpl : r.impl = impl) : r.Follows ds := by
  by_cases hpending : r.Pending
  · obtain ⟨xs, hxs, hmap⟩ := h r.swapLast himpl (not_pending_swapLast r)
    refine ⟨_, .item (read_of_pending hpending) hxs, ?_⟩
    rw [due_of_not_pending (not_pending_swapLast r)] at hmap
    rw [due, if_pos hpending, List.map_cons, List.singleton_append]
    exact congrArg _ hmap
  · exact h r himpl hpending

/-- **What the implementation reads** is returned by the reader. -/
theorem follows_of_answers {ds : List (Except ReadError (UInt64 × UInt64 × Weight))} {impl : Impl I}
    (h : Answers Impl.readEdge impl ds) (r : Reader I) (himpl : r.impl = impl) : r.Follows ds := by
  induction h generalizing r with
  | last h =>
    apply follows_of_fresh _ r himpl
    rintro r rfl hpending
    refine ⟨[], .last (by rw [read_of_not_pending hpending, h]; rfl), ?_⟩
    rw [due_of_not_pending hpending]
    rfl
  | @error impl impl' e ds h rest ih =>
    apply follows_of_fresh _ r himpl
    rintro r rfl hpending
    obtain ⟨xs, hxs, hmap⟩ := ih { r with impl := impl' } rfl
    have hread : r.read = some (.error e, { r with impl := impl' }) := by
      rw [read_of_not_pending hpending, h]
      rfl
    have hpending' : ¬({ r with impl := impl' } : Reader I).Pending := hpending
    rw [due_of_not_pending hpending'] at hmap
    refine ⟨_, .error hread hxs, ?_⟩
    rw [due_of_not_pending hpending, List.map_cons]
    exact congrArg _ hmap
  | @item impl impl' item ds h rest ih =>
    apply follows_of_fresh _ r himpl
    rintro r rfl hpending
    obtain ⟨source, destination, weight⟩ := item
    obtain ⟨r', hr'⟩ : ∃ r', r' = { r with impl := impl' }.keep source destination weight :=
      ⟨_, rfl⟩
    have hread : r.read = some (.ok (some r'.lastEdge), r') := by
      rw [read_of_not_pending hpending, h, hr']
      rfl
    obtain ⟨xs, hxs, hmap⟩ := ih r' (by rw [hr', impl_keep])
    have hproperties : r'.properties = r.properties := by rw [hr', properties_keep]
    have hboth : r'.both = r.both := by
      rw [hr', both_keep]
      rfl
    have hdue := due_keep { r with impl := impl' } source destination weight
    have hedge := observeEdge_keep { r with impl := impl' } source destination weight
    rw [← hr'] at hdue hedge
    rw [hproperties, hboth, hdue] at hmap
    refine ⟨_, .item hread hxs, ?_⟩
    rw [due_of_not_pending hpending, List.map_cons, hmap]
    exact congrArg (· :: _) (congrArg Except.ok hedge)

/-- A call that is not about the last edge is one of the implementation. -/
theorem readEdge_of_read {r r' : Reader I}
    {result : Except ReadError (Option (WeightedEdge Weight))} (hpending : ¬r.Pending)
    (h : r.read = some (result, r')) :
    ∃ read, r.impl.readEdge = some (read, r'.impl) ∧
      ((∃ e, read = .error e ∧ result = .error e) ∨ (read = .ok none ∧ result = .ok none) ∨
        ∃ item e, read = .ok (some item) ∧ result = .ok (some e)) := by
  rw [read_of_not_pending hpending] at h
  obtain ⟨⟨read, impl⟩, hread, hreport⟩ := Option.map_eq_some_iff.mp h
  rcases read with e | _ | ⟨source, destination, weight⟩
  · obtain ⟨rfl, rfl⟩ := Prod.mk.inj hreport
    exact ⟨_, hread, Or.inl ⟨e, rfl, rfl⟩⟩
  · obtain ⟨rfl, rfl⟩ := Prod.mk.inj hreport
    exact ⟨_, hread, Or.inr (Or.inl ⟨rfl, rfl⟩)⟩
  · obtain ⟨rfl, rfl⟩ := Prod.mk.inj hreport
    refine ⟨.ok (some (source, destination, weight)), ?_, Or.inr (Or.inr ⟨_, _, rfl, rfl⟩)⟩
    rw [impl_keep]
    exact hread

/-- **What the reader returns** was read by the implementation. -/
theorem exists_answers_impl {r : Reader I} {xs : List (Except ReadError (WeightedEdge Weight))}
    (h : Answers read r xs) : ∃ ds, Answers Impl.readEdge r.impl ds := by
  induction h with
  | @last r r' h =>
    have hpending : ¬r.Pending := fun hpending => nomatch (read_of_pending hpending).symm.trans h
    obtain ⟨read, hread, ⟨e, -, he⟩ | ⟨rfl, -⟩ | ⟨item, e, -, he⟩⟩ := readEdge_of_read hpending h
    · cases he
    · exact ⟨[], .last hread⟩
    · cases he
  | @item r r' e xs h rest ih =>
    obtain ⟨ds, hds⟩ := ih
    by_cases hpending : r.Pending
    · obtain ⟨-, rfl⟩ := Prod.mk.inj (Option.some.inj ((read_of_pending hpending).symm.trans h))
      exact ⟨ds, hds⟩
    · obtain ⟨read, hread, ⟨e, -, he⟩ | ⟨-, he⟩ | ⟨item, e, rfl, -⟩⟩ := readEdge_of_read hpending h
      · cases he
      · cases he
      · exact ⟨_, .item hread hds⟩
  | @error r r' e xs h rest ih =>
    obtain ⟨ds, hds⟩ := ih
    have hpending : ¬r.Pending := fun hpending => nomatch (read_of_pending hpending).symm.trans h
    obtain ⟨read, hread, ⟨e, rfl, -⟩ | ⟨-, he⟩ | ⟨item, e, -, he⟩⟩ := readEdge_of_read hpending h
    · exact ⟨_, .error hread hds⟩
    · cases he
    · cases he

theorem exists_follows {r : Reader I} {xs : List (Except ReadError (WeightedEdge Weight))}
    (h : Answers read r xs) : ∃ ds, Answers Impl.readEdge r.impl ds ∧
      xs.map (Except.map r.properties.observeEdge) =
        r.due ++ emitted r.both (ds.map (Except.map r.properties.observeItem)) := by
  obtain ⟨ds, hds⟩ := exists_answers_impl h
  obtain ⟨xs', hxs', hmap⟩ := follows_of_answers hds r rfl
  rw [Answers.unique h hxs']
  exact ⟨ds, hds, hmap⟩

/-! ### The reset -/

/-- **A reset restarts the reader**: what is returned from then on, up to the first call without an
edge, is what a new reader with the same settings returns. The buffers of both may hold anything. -/
def Restarts (r : Reader I) : Prop :=
  ∀ memory memory' random, ∃ xs ys,
    Answers read (r.reset memory) xs ∧
      Answers read ((new I r.properties r.maxWeight random memory').setEmitDirectedEdges
        r.emitDirectedEdges) ys ∧
      xs.map (Except.map r.properties.observeEdge) = ys.map (Except.map r.properties.observeEdge)

end Reader

/-- **What is read from the edge file** is the same for all contents of the buffers, and ends. -/
def Determined (I : Inflater) (p : Properties) : Prop :=
  ∃ xs, ∀ memory, ∃ ds, Answers Impl.readEdge (p.open I memory) ds ∧
    ds.map (Except.map p.observeItem) = xs

section Emitted

variable {both : Bool}

theorem emitted_injective (both : Bool) : Function.Injective (emitted both) := by
  intro xs
  induction xs with
  | nil =>
    rintro (- | ⟨e | x, ys⟩) h
    · rfl
    · cases h
    · cases h
  | cons x xs ih =>
    rintro (- | ⟨y, ys⟩) h
    · rcases x with e | x <;> cases h
    · rcases x with e | x <;> rcases y with e' | y
      · obtain ⟨hhead, htail⟩ := List.cons.inj h
        rw [Except.error.inj hhead, ih htail]
      · cases h
      · cases h
      · obtain ⟨hhead, htail⟩ := List.cons.inj h
        obtain rfl := Except.ok.inj hhead
        rw [ih (List.append_cancel_left htail)]

end Emitted

namespace Reader

variable {I : Inflater}

/-- What is read after a reset, and by a new reader. -/
theorem restarts_iff_impl (r : Reader I) :
    r.Restarts ↔ ∀ memory memory', ∃ ds ds',
      Answers Impl.readEdge (r.properties.open I memory) ds ∧
      Answers Impl.readEdge (r.properties.open I memory') ds' ∧
      r.due ++ emitted r.both (ds.map (Except.map r.properties.observeItem)) =
        emitted r.both (ds'.map (Except.map r.properties.observeItem)) := by
  have hnew (memory random) : ¬((new I r.properties r.maxWeight random memory).setEmitDirectedEdges
      r.emitDirectedEdges).Pending := fun h => nomatch h.2
  constructor
  · intro h memory memory'
    obtain ⟨xs, ys, hxs, hys, heq⟩ := h memory memory' r.random
    obtain ⟨ds, hds, hmap⟩ := exists_follows hxs
    obtain ⟨ds', hds', hmap'⟩ := exists_follows hys
    rw [due_of_not_pending (hnew memory' r.random), List.nil_append] at hmap'
    exact ⟨ds, ds', hds, hds', hmap.symm.trans (heq.trans hmap')⟩
  · intro h memory memory' random
    obtain ⟨ds, ds', hds, hds', heq⟩ := h memory memory'
    obtain ⟨xs, hxs, hmap⟩ := follows_of_answers hds (r.reset memory) rfl
    obtain ⟨ys, hys, hmap'⟩ := follows_of_answers hds'
      ((new I r.properties r.maxWeight random memory').setEmitDirectedEdges r.emitDirectedEdges) rfl
    rw [due_of_not_pending (hnew memory' random), List.nil_append] at hmap'
    exact ⟨xs, ys, hxs, hys, hmap.trans (heq.trans hmap'.symm)⟩

/-- **When a reset restarts the reader**: no second direction of an edge is still to be returned,
and what is read from the file is determined. -/
theorem restarts_iff_determined (r : Reader I) :
    r.Restarts ↔ ¬r.Pending ∧ Determined I r.properties := by
  rw [restarts_iff_impl]
  constructor
  · intro h
    have hpending : ¬r.Pending := by
      intro hpending
      obtain ⟨ds, ds', hds, hds', heq⟩ := h ⟨.zero, .zero⟩ ⟨.zero, .zero⟩
      obtain rfl := Answers.unique hds hds'
      -- there is one edge more after the reset
      have hlength := congrArg List.length heq
      rw [due, if_pos hpending, List.length_append, List.length_singleton] at hlength
      omega
    rw [due_of_not_pending hpending] at h
    refine ⟨hpending, ?_⟩
    obtain ⟨ds, -, hds, -⟩ := h ⟨.zero, .zero⟩ ⟨.zero, .zero⟩
    refine ⟨ds.map (Except.map r.properties.observeItem), fun memory => ?_⟩
    obtain ⟨ds₁, ds₂, hds₁, hds₂, heq⟩ := h memory ⟨.zero, .zero⟩
    obtain rfl := Answers.unique hds hds₂
    exact ⟨ds₁, hds₁, emitted_injective _ heq⟩
  · rintro ⟨hpending, xs, hxs⟩ memory memory'
    obtain ⟨ds, hds, hmap⟩ := hxs memory
    obtain ⟨ds', hds', hmap'⟩ := hxs memory'
    refine ⟨ds, ds', hds, hds', ?_⟩
    rw [due_of_not_pending hpending, hmap, hmap']
    rfl

end Reader

/-! ## Files -/

section Files

variable {I : Inflater}

/-- The lines of a text are read one after the other. -/
theorem exists_answers_plain {handle : TextStream} {kept : List (List UInt8)}
    (h : Kept ignoreLine handle kept) (isWeighted : Bool) :
    ∃ ds, Answers (Impl.readEdge (I := I)) (.plain ⟨handle, isWeighted⟩) ds := by
  induction kept generalizing handle with
  | nil =>
    obtain ⟨handle', hread, -⟩ := GraphalyticsPlainReader.readEdge_end (r := ⟨handle, isWeighted⟩) h
    have hlast : Impl.readEdge (I := I) (.plain ⟨handle, isWeighted⟩) =
        some (.ok none, .plain ⟨handle', isWeighted⟩) := by
      rw [Impl.readEdge, hread]
      rfl
    exact ⟨[], .last hlast⟩
  | cons l kept ih =>
    obtain ⟨handle', hnext, hkept⟩ := nextLine_kept h
    obtain ⟨ds, hds⟩ := ih hkept
    cases hline : GraphalyticsPlainReader.readLine ⟨handle, isWeighted⟩ l with
    | error e =>
      have hread : Impl.readEdge (I := I) (.plain ⟨handle, isWeighted⟩) =
          some (.error (.line e), .plain ⟨handle', isWeighted⟩) := by
        simp only [Impl.readEdge, GraphalyticsPlainReader.readEdge, hnext, Option.bind_eq_bind,
          Option.bind_some, hline]
        rfl
      exact ⟨_, .error hread hds⟩
    | ok edge =>
      have hread : Impl.readEdge (I := I) (.plain ⟨handle, isWeighted⟩) =
          some (.ok (some (edge.1, edge.2.1, .text edge.2.2)), .plain ⟨handle', isWeighted⟩) := by
        simp only [Impl.readEdge, GraphalyticsPlainReader.readEdge, hnext, Option.bind_eq_bind,
          Option.bind_some, hline]
        rfl
      exact ⟨_, .item hread hds⟩

theorem determined_of_answers {p : Properties}
    {ds : List (Except ReadError (UInt64 × UInt64 × Weight))}
    (h : ∀ memory, Answers Impl.readEdge (p.open I memory) ds) : Determined I p :=
  ⟨_, fun memory => ⟨ds, h memory, rfl⟩⟩

/-- **A text** is determined. -/
theorem determined_plain {p : Properties} (h : p.isCompressed = false) : Determined I p := by
  obtain ⟨lines, hne, hnewline, htext⟩ := exists_joinLines p.edgeFile
  have hkept : Kept ignoreLine (TextStream.openText p.edgeFile) _ :=
    ⟨lines, by rw [← htext]; exact remaining_openText hne hnewline, rfl⟩
  obtain ⟨ds, hds⟩ := exists_answers_plain (I := I) hkept p.isWeighted
  apply determined_of_answers
  intro memory
  rw [Properties.open, if_pos (by rw [h]; rfl)]
  exact hds

/-- The edge in a record. -/
def recordEdge (weight : List UInt8 → Weight) (record : List UInt8) : UInt64 × UInt64 × Weight :=
  (toUInt64 (word record 0), toUInt64 (word record 1), weight record)

/-- The records of a compressed file are read one after the other. -/
theorem answers_of_delivers {size count : ℕ} {weight : List UInt8 → Weight}
    {impl : DecompressInput I → Impl I}
    (himpl : ∀ edges, (impl edges).readEdge =
      some ((readRecord size weight edges).1, impl (readRecord size weight edges).2))
    {records : List (List UInt8)} {edges : DecompressInput I}
    (h : Delivers size count records edges) :
    Answers Impl.readEdge (impl edges)
      (records.map fun record => .ok (recordEdge weight record)) := by
  induction records generalizing count edges with
  | nil =>
    have hread : edges.read size = .ok (none, edges) := h
    have hlast : (impl edges).readEdge = some (.ok none, impl edges) := by
      rw [himpl, readRecord, hread]
    exact .last hlast
  | cons record records ih =>
    obtain ⟨edges', hread, -, hrest⟩ := h
    have hitem : (impl edges).readEdge =
        some (.ok (some (recordEdge weight record)), impl edges') := by
      rw [himpl, readRecord, hread]
      rfl
    exact .item hitem (ih hrest)

/-- **A compressed file** is determined if the calls of `inflate` complete its records. -/
theorem determined_of_smooth {p : Properties} (hcompressed : p.isCompressed = true)
    {size : ℕ} (hsize : size = if p.isWeighted then 24 else 16) {records : List (List UInt8)}
    (hsizes : ∀ record ∈ records, record.length = size)
    (hI : I.Decodes p.edgeFile records.flatten)
    (h : Smooth size p.edgeFile records.flatten (Progress.start I)) : Determined I p := by
  have hpos : 0 < size := by
    rw [hsize]
    split <;> norm_num
  have hdelivers (memory : Memory) : Delivers size 0 records
      (DecompressInput.new I p.edgeFile memory.input memory.output) :=
    ((tracks_new hsizes hpos memory.input memory.output).delivers_iff_smooth hI hpos).mpr h
  cases hweighted : p.isWeighted with
  | false =>
    obtain rfl : size = 16 := by rw [hsize, hweighted]; rfl
    apply determined_of_answers
    intro memory
    rw [Properties.open, hcompressed, hweighted]
    exact answers_of_delivers (fun _ => rfl) (hdelivers memory)
  | true =>
    obtain rfl : size = 24 := by rw [hsize, hweighted]; rfl
    apply determined_of_answers
    intro memory
    rw [Properties.open, hcompressed, hweighted]
    exact answers_of_delivers (fun _ => rfl) (hdelivers memory)

end Files

namespace Reader

variable {I : Inflater}

/-! ## The reset of a reader -/

/-- **When a reset restarts the reader**, whatever was done before: no second direction of an edge
is still to be returned, and what is read from a compressed file is determined. -/
theorem restarts_iff (r : Reader I) :
    r.Restarts ↔ ¬(r.both = true ∧ r.lastReported = false) ∧
      (r.properties.isCompressed = true → Determined I r.properties) := by
  rw [restarts_iff_determined]
  refine and_congr_right fun _ => ⟨fun h _ => h, fun h => ?_⟩
  cases hcompressed : r.properties.isCompressed with
  | false => exact determined_plain hcompressed
  | true => exact h hcompressed

/-- A text of one edge, of an undirected graph. -/
def oneEdge : Properties := ⟨false, false, false, [49, 32, 50]⟩

/-- **A reset behind the first direction** of an edge does not restart the reader: the second
direction comes first. -/
theorem not_restarts_oneEdge :
    ∃ e r, ((new (GraphalyticsZlib.atOnce [] []) oneEdge (.text 1) (fun _ => .text 1)
        ⟨.zero, .zero⟩).setEmitDirectedEdges true).read = some (.ok (some e), r) ∧
      (e.source = 1 ∧ e.destination = 2) ∧ ¬r.Restarts := by
  refine ⟨_, _, rfl, ⟨rfl, rfl⟩, ?_⟩
  rw [restarts_iff_determined]
  exact fun h => h.1 ⟨rfl, rfl⟩

/-! ### The number of edges returned -/

/-- `k` calls of `read`, each of which returned an edge. -/
inductive ReadsEdges : ℕ → Reader I → Reader I → Prop
  | zero (r : Reader I) : ReadsEdges 0 r r
  | succ {k : ℕ} {r r' r'' : Reader I} {e : WeightedEdge Weight} (calls : ReadsEdges k r r')
      (h : r'.read = some (.ok (some e), r'')) : ReadsEdges (k + 1) r r''

/-- Each edge that is returned changes what is pending, if both directions are returned. -/
theorem pending_of_read {r r' : Reader I} {e : WeightedEdge Weight}
    (h : r.read = some (.ok (some e), r')) :
    r'.both = r.both ∧ (r'.Pending ↔ r.both = true ∧ ¬r.Pending) := by
  by_cases hpending : r.Pending
  · obtain ⟨-, rfl⟩ := Prod.mk.inj (Option.some.inj ((read_of_pending hpending).symm.trans h))
    exact ⟨rfl, iff_of_false (not_pending_swapLast r) fun h => h.2 hpending⟩
  · rw [read_of_not_pending hpending] at h
    obtain ⟨⟨read, impl⟩, -, hreport⟩ := Option.map_eq_some_iff.mp h
    rcases read with e | _ | ⟨source, destination, weight⟩
    · cases hreport
    · cases hreport
    · obtain ⟨-, rfl⟩ := Prod.mk.inj hreport
      have hboth := both_keep { r with impl } source destination weight
      refine ⟨hboth, ?_⟩
      rw [Pending, hboth, lastReported_keep]
      exact and_congr Iff.rfl (iff_of_true rfl hpending)

theorem pending_of_readsEdges {k : ℕ} {r r' : Reader I} (h : ReadsEdges k r r')
    (hfresh : ¬r.Pending) : r'.both = r.both ∧ (r'.Pending ↔ r.both = true ∧ Odd k) := by
  induction h with
  | zero r => exact ⟨rfl, iff_of_false hfresh fun h => Nat.not_odd_zero h.2⟩
  | succ calls h ih =>
    obtain ⟨hboth, hpending⟩ := ih hfresh
    obtain ⟨hboth', hpending'⟩ := pending_of_read h
    refine ⟨hboth'.trans hboth, ?_⟩
    rw [hpending', hpending, hboth, Nat.odd_add_one]
    tauto

/-- **An odd number of edges** was returned when a second direction is pending. -/
theorem pending_iff {properties : Properties} {maxWeight : Weight} {random : ℕ → Weight}
    {memory : Memory} {emitDirectedEdges : Bool} {k : ℕ} {r : Reader I}
    (h : ReadsEdges k ((new I properties maxWeight random memory).setEmitDirectedEdges
      emitDirectedEdges) r) :
    r.Pending ↔ (!properties.directed && emitDirectedEdges) = true ∧ Odd k :=
  (pending_of_readsEdges h fun hpending => nomatch hpending.2).2

end Reader

end Graphalytics

end GfeDriver
