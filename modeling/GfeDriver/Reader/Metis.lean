import GfeDriver.Foundation.Calls
import GfeDriver.Foundation.TextLines
import GfeDriver.Graph.Edge
import Mathlib.Tactic

/-!
# The reader of METIS files

The first line of a METIS file is its header: the number of vertices and of edges, and perhaps which
weights there are. Each line behind it is the adjacency list of a vertex, with the weights of the
vertex in front of it, in the order of the vertices. Lines that start with `%` are comments.

So an empty line stands for a vertex without neighbours. The reader ends at such a line, and what
is behind it is not read. A line behind the last vertex, even an empty one, is an error.

## Main definitions

* `MetisReader`, `MetisReader.new`, `MetisReader.read`: the reader

## Main results

* `fetchNextLine_kept`, `fetchNextLine_end`: the next line that is not a comment
* `readValue_row`, `skipVertexWeights_row`: the fields of a line are read
-/

namespace GfeDriver

open Foundation

/-! ## The reader -/

/-- The exceptions: those of the reader with what their messages contain, and those of `stoull` and
`stoi`. An overflow, which is undefined, is one as well. -/
inductive MetisError
  | header (line : List UInt8)
  | outOfRange
  | overflow
  | tooManyVertices (lineno : UInt64) (line : List UInt8) (numVertices numRead : UInt64)
  | vertexWeight (lineno vertex : UInt64) (numVertexWeights : ℤ) (i : ℕ)
  | missingWeight (lineno source destination : UInt64) (line : List UInt8)
  | weightTooBig (lineno source destination weight : UInt64) (line : List UInt8)

/-- **The reader**. The weights that are drawn at random are those of a sequence. -/
structure MetisReader where
  handle : TextStream
  currentLine : List UInt8 := []
  readValuePtr : Option (List UInt8) := none
  numVertices : UInt64 := 0
  numVertexWeights : ℤ := 0
  hasEdgeWeight : Bool := false
  isEdgeWeightConstant : Bool := false
  random : ℕ → UInt32
  lineno : UInt64 := 0
  edgeVertex1 : UInt64 := 0
  edgeVertex2 : UInt64 := 0
  edgeWeight : UInt32 := 0

namespace MetisReader

/-- `is_comment`: the pattern is found in the line. -/
def isComment (line : List UInt8) : Bool := (skipSpaces line).head? = some 37

/-- The body of the loop of `fetch_next_line`. -/
def fetchLine (r : MetisReader) : MetisReader :=
  let (line, handle) := r.handle.getline r.currentLine
  { r with handle, currentLine := line, lineno := r.lineno + 1 }

/-- `fetch_next_line`. -/
def fetchNextLine (r : MetisReader) : Option (Bool × MetisReader) :=
  if r.handle.good then do
    let r ← doWhile (skipping isComment handle currentLine) (fun r => some r.fetchLine)
      (lineFuel r.handle.rest) r
    if isComment r.currentLine then return (false, r)
    return (true, { r with readValuePtr := some (skipSpaces r.currentLine) })
  else some (false, r)

/-- `read_value`. -/
def readValue (r : MetisReader) : Option UInt64 × MetisReader :=
  match r.readValuePtr with
  | none => (none, r)
  | some s =>
    if startsWithDigit s then
      (some (strtoull s).1, { r with readValuePtr := some (skipSpaces (strtoull s).2) })
    else (none, r)

/-! ### The header -/

/-- `\d+`. -/
def isNumber (s : List UInt8) : Bool := s ≠ [] && s.all isDigit

/-- `[01]{3}`. -/
def isFormat (s : List UInt8) : Bool := s.length = 3 && s.all fun c => c = 48 || c = 49

/-- The groups of the pattern of the header: the number of vertices, and perhaps the format and the
number of weights. The groups are what is between the white space. -/
def matchHeader (line : List UInt8) :
    Option (List UInt8 × Option (List UInt8 × Option (List UInt8))) :=
  match fieldsOf line with
  | [n, m] => if isNumber n && isNumber m then some (n, none) else none
  | [n, m, format] =>
    if isNumber n && isNumber m && isFormat format then some (n, some (format, none)) else none
  | [n, m, format, ncon] =>
    if isNumber n && isNumber m && isFormat format && isNumber ncon then
      some (n, some (format, some ncon))
    else none
  | _ => none

/-- `stoull`, of some digits. -/
def stoull (s : List UInt8) : Except MetisError UInt64 :=
  if digitsValue s < 2 ^ 64 then .ok (UInt64.ofNat (digitsValue s)) else .error .outOfRange

/-- `stoi`, of some digits. -/
def stoi (s : List UInt8) : Except MetisError ℤ :=
  if digitsValue s < 2 ^ 31 then .ok (digitsValue s) else .error .outOfRange

/-- The sum of two numbers of type `int` that are not negative. -/
def addInt (a b : ℤ) : Except MetisError ℤ :=
  if a + b < 2 ^ 31 then .ok (a + b) else .error .overflow

/-- `format.c_str()[i] == '1'`. -/
def formatDigit (format : List UInt8) (i : ℕ) : Bool := format.getD i 0 = 49

/-- The number of weights in front of an adjacency list. -/
def countWeights (format : List UInt8) (ncon : Option (List UInt8)) : Except MetisError ℤ :=
  match ncon with
  | some ncon => do addInt (formatDigit format 0).toInt (← stoi ncon)
  | none => addInt (formatDigit format 0).toInt (formatDigit format 1).toInt

/-- What the constructor takes from the groups of the header. -/
def parseHeader (r : MetisReader) (n : List UInt8)
    (format : Option (List UInt8 × Option (List UInt8))) : Except MetisError MetisReader := do
  let numVertices ← stoull n
  match format with
  | none =>
    return { r with
      numVertices, numVertexWeights := 0, hasEdgeWeight := false, isEdgeWeightConstant := true,
      edgeWeight := 1, readValuePtr := none }
  | some (format, ncon) =>
    let numVertexWeights ← countWeights format ncon
    return { r with
      numVertices, numVertexWeights, hasEdgeWeight := formatDigit format 2, readValuePtr := none }

/-- The header is in the current line. -/
def readHeader (r : MetisReader) : Except MetisError MetisReader :=
  match matchHeader r.currentLine with
  | none => .error (.header r.currentLine)
  | some (n, format) => parseHeader r n format

/-- The constructor, for a file that was opened. -/
def new (text : List UInt8) (random : ℕ → UInt32) : Option (Except MetisError MetisReader) := do
  let (_, r) ← fetchNextLine { handle := .openText text, random }
  return readHeader r

/-! ### The edges -/

/-- The loop that skips `n` weights of a vertex, from the weight `i` on. -/
def skipVertexWeights : ℕ → ℕ → MetisReader → Except MetisError Unit × MetisReader
  | _, 0, r => (.ok (), r)
  | i, n + 1, r =>
    match r.readValue with
    | (some _, r) => skipVertexWeights (i + 1) n r
    | (none, r) => (.error (.vertexWeight r.lineno r.edgeVertex1 r.numVertexWeights i), r)

/-- The first destination in a line that was fetched: the line is that of the next vertex. -/
def startVertex (r : MetisReader) : Except MetisError (Option UInt64) × MetisReader :=
  let r := { r with edgeVertex1 := r.edgeVertex1 + 1 }
  if r.numVertices < r.edgeVertex1 then
    (.error (.tooManyVertices r.lineno r.currentLine r.numVertices (r.edgeVertex1 - 1)), r)
  else
    match skipVertexWeights 0 r.numVertexWeights.toNat r with
    | (.error e, r) => (.error e, r)
    | (.ok (), r) => (.ok r.readValue.1, r.readValue.2)

/-- The first destination in the next line. -/
def nextVertex (r : MetisReader) :
    Option (Except MetisError (Option UInt64) × MetisReader) := do
  let (fetched, r) ← r.fetchNextLine
  if fetched then return r.startVertex
  else return (.ok none, r)

/-- The next destination. -/
def nextDestination (r : MetisReader) :
    Option (Except MetisError (Option UInt64) × MetisReader) :=
  match r.readValue with
  | (some destination, r) => some (.ok (some destination), r)
  | (none, r) => r.nextVertex

/-- The weight of the edge. -/
def readWeight (r : MetisReader) : Except MetisError Unit × MetisReader :=
  if r.isEdgeWeightConstant then (.ok (), r)
  else if r.hasEdgeWeight then
    match r.readValue with
    | (none, r) =>
      (.error (.missingWeight r.lineno r.edgeVertex1 r.edgeVertex2 r.currentLine), r)
    | (some weight, r) =>
      if 2 ^ 31 - 1 < weight.toNat then
        (.error (.weightTooBig r.lineno r.edgeVertex1 r.edgeVertex2 weight r.currentLine), r)
      else (.ok (), { r with edgeWeight := weight.toUInt32 })
  else (.ok (), { r with edgeWeight := r.random 0, random := fun i => r.random (i + 1) })

/-- The edge to a destination, with its weight. -/
def readEdge (r : MetisReader) (destination : UInt64) :
    Except MetisError (Option (WeightedEdge ℚ)) × MetisReader :=
  match { r with edgeVertex2 := destination }.readWeight with
  | (.error e, r) => (.error e, r)
  | (.ok (), r) =>
    (.ok (some ⟨r.edgeVertex1.toNat, r.edgeVertex2.toNat, r.edgeWeight.toNat⟩), r)

/-- `read`. -/
def read (r : MetisReader) :
    Option (Except MetisError (Option (WeightedEdge ℚ)) × MetisReader) := do
  match ← r.nextDestination with
  | (.error e, r) => return (.error e, r)
  | (.ok none, r) => return (.ok none, r)
  | (.ok (some destination), r) => return r.readEdge destination

/-! ## Lines and fields -/

section Specs

variable {r : MetisReader} {l : List UInt8} {kept fields : List (List UInt8)} {s : List UInt8}

/-- Only the position in the file differs. -/
def SameVertex (r r' : MetisReader) : Prop :=
  ∃ handle currentLine lineno, r' = { r with handle, currentLine, lineno }

theorem SameVertex.fetchLine {r' : MetisReader} (h : SameVertex r r') :
    SameVertex r r'.fetchLine := by
  obtain ⟨handle, currentLine, lineno, rfl⟩ := h
  exact ⟨_, _, _, rfl⟩

theorem currentLine_fetchLine (r : MetisReader) :
    r.fetchLine.currentLine = (r.handle.getline r.currentLine).1 := rfl

theorem handle_fetchLine (r : MetisReader) :
    r.fetchLine.handle = (r.handle.getline r.currentLine).2 := rfl

/-- **A line that is not a comment** is fetched. -/
theorem fetchNextLine_kept (h : Kept isComment r.handle (l :: kept)) :
    ∃ handle lineno,
      fetchNextLine r = some (true,
        { r with handle, currentLine := l, lineno, readValuePtr := some (skipSpaces l) }) ∧
      Kept isComment handle kept := by
  obtain ⟨r', hloop, ⟨handle, currentLine, lineno, rfl⟩, hl, hline, hkept⟩ :=
    Kept.skip (SameVertex r) currentLine_fetchLine handle_fetchLine
      (fun _ => SameVertex.fetchLine) ⟨_, _, _, rfl⟩ h
  obtain rfl : currentLine = l := hline
  refine ⟨handle, lineno, ?_, hkept⟩
  rw [fetchNextLine, if_pos h.good, hloop]
  show (if isComment currentLine then _ else _) = _
  rw [if_neg (by rw [hl]; exact Bool.false_ne_true)]
  rfl

/-- **The comments at the end of a file**. -/
theorem fetchNextLine_end (h : Kept isComment r.handle []) :
    ∃ r', fetchNextLine r = some (false, r') := by
  by_cases hgood : r.handle.good = true
  · obtain ⟨r', hloop, -, hl, -⟩ :=
      Kept.skip_end (fun _ => True) currentLine_fetchLine handle_fetchLine
        (fun _ _ => trivial) trivial h hgood
    refine ⟨r', ?_⟩
    rw [fetchNextLine, if_pos hgood, hloop]
    show (if isComment r'.currentLine then _ else _) = _
    rw [if_pos hl]
    rfl
  · exact ⟨r, if_neg hgood⟩

/-- **A number is read**. -/
theorem readValue_row {n : Numeral} (h : Row (n.text :: fields) (r.readValuePtr.getD [])) :
    ∃ s, r.readValue = (some (UInt64.ofNat (min n.value (2 ^ 64 - 1))),
      { r with readValuePtr := some s }) ∧ Row fields s := by
  obtain ⟨hdigit, hvalue, hrow⟩ := h.strtoull
  cases hptr : r.readValuePtr with
  | none =>
    rw [hptr] at hdigit
    cases hdigit
  | some s =>
    rw [hptr, Option.getD_some] at hdigit hvalue hrow
    refine ⟨_, ?_, hrow⟩
    rw [← hvalue]
    simp only [readValue, hptr]
    rw [if_pos hdigit]

/-- There is no number at the end of a line. -/
theorem readValue_nil (h : Row [] (r.readValuePtr.getD [])) : r.readValue = (none, r) := by
  have hnil := h.eq_nil
  cases hptr : r.readValuePtr with
  | none => simp only [readValue, hptr]
  | some s =>
    rw [hptr] at hnil
    obtain rfl : s = [] := hnil
    simp only [readValue, hptr]
    rfl

/-- **The weights of a vertex are skipped**. -/
theorem skipVertexWeights_row (weights : List Numeral) {i : ℕ} (hptr : r.readValuePtr = some s)
    (h : Row (weights.map Numeral.text ++ fields) s) :
    ∃ s', skipVertexWeights i weights.length r = (.ok (), { r with readValuePtr := some s' }) ∧
      Row fields s' := by
  induction weights generalizing i r s with
  | nil =>
    refine ⟨s, ?_, h⟩
    rw [← hptr]
    rfl
  | cons n weights ih =>
    have hrow : Row (n.text :: (weights.map Numeral.text ++ fields)) (r.readValuePtr.getD []) := by
      rw [hptr]
      exact h
    obtain ⟨s₁, hread, hrow₁⟩ := readValue_row hrow
    obtain ⟨s', hskip, hrow'⟩ := ih (i := i + 1) (r := { r with readValuePtr := some s₁ }) rfl hrow₁
    refine ⟨s', ?_, hrow'⟩
    rw [List.length_cons, skipVertexWeights, hread]
    exact hskip

/-- **A line behind the last vertex** is an error. -/
theorem startVertex_of_lt (h : r.numVertices < r.edgeVertex1 + 1) :
    ∃ e r', r.startVertex = (.error e, r') :=
  ⟨_, _, if_pos h⟩

/-- **The line of a vertex**, whose weights are skipped. -/
theorem startVertex_of_not_lt {r' : MetisReader} (h : ¬r.numVertices < r.edgeVertex1 + 1)
    (hskip : skipVertexWeights 0 r.numVertexWeights.toNat
      { r with edgeVertex1 := r.edgeVertex1 + 1 } = (.ok (), r')) :
    r.startVertex = (.ok r'.readValue.1, r'.readValue.2) := by
  simp only [startVertex, if_neg h, hskip]

end Specs

end MetisReader

end GfeDriver
