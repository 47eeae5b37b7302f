import GfeDriver.Foundation.Calls
import GfeDriver.Foundation.Double
import GfeDriver.Foundation.TextLines
import GfeDriver.Graph.Edge
import Mathlib.Tactic

/-!
# The readers of edge lists

A text file has an edge in each line: the source, the destination, and the weight if there is one.
Blank lines, and those that start with `#`, are skipped. `PlainReader` reads the weight as an
integer, and the reader of Graphalytics as a floating-point number. For an undirected graph, the
latter may return each edge in both directions: the second one is that of the last edge.

## Main definitions

* `PlainReader`, `PlainReader.read`: the reader of edge lists
* `GraphalyticsReader`, `GraphalyticsReader.readEdge`: the reader of Graphalytics
* `EdgeFile row edges`: a file that renders edges

## Main results

* `nextLine_kept`, `nextLine_end`: the next line that is not skipped
* `parseEdge_row`: the vertices of an edge
* `readers_decode`: the readers return the edges of a file, and then none
-/

namespace GfeDriver

open Foundation

/-! ## Lines -/

/-- The exceptions: a line in which a field cannot be read. -/
inductive EdgeListError
  | source (line : List UInt8)
  | destination (line : List UInt8)
  | weight (line : List UInt8)

/-- `ignore_line`: a comment, or an empty line. -/
def ignoreLine (line : List UInt8) : Bool :=
  match skipSpaces line with
  | [] => true
  | c :: _ => c = 35 || c = 0

/-- The next line that is not ignored, and none at the end of the file. -/
def nextLine (handle : TextStream) : Option (Option (List UInt8) × TextStream) :=
  if handle.good then do
    let (line, handle) ← doWhile (skipping ignoreLine Prod.snd Prod.fst)
      (fun s => some (s.2.getline s.1)) (lineFuel handle.rest) ([], handle)
    return (if ignoreLine line then none else some line, handle)
  else some (none, handle)

/-- The source and the destination in a line, and what is behind them. -/
def parseEdge (line : List UInt8) : Except EdgeListError (UInt64 × UInt64 × List UInt8) :=
  let current := skipSpaces line
  if startsWithDigit current then
    let (source, next) := strtoull current
    let current := skipSpaces next
    if startsWithDigit current then
      let (destination, next) := strtoull current
      .ok (source, destination, next)
    else .error (.destination line)
  else .error (.source line)

/-! ## The plain reader -/

/-- **The plain reader**. The weights of a file without weights are drawn at random. -/
structure PlainReader where
  handle : TextStream
  isWeighted : Bool
  maxWeight : UInt32
  random : ℕ → UInt32

namespace PlainReader

/-- The constructor, for a file that was opened. -/
def new (text : List UInt8) (isWeighted : Bool) (maxWeight : UInt32) (random : ℕ → UInt32) :
    PlainReader :=
  ⟨.openText text, isWeighted, maxWeight, random⟩

/-- The weight of an edge, from what is behind its vertices. The numbers of `strtoul` are those of
`strtoull`. -/
def readWeight (r : PlainReader) (line next : List UInt8) :
    Except EdgeListError (WithTop ℚ) × PlainReader :=
  if r.isWeighted then
    let current := skipSpaces next
    if startsWithDigit current then (.ok (roundDouble (strtoull current).1.toNat), r)
    else (.error (.weight line), r)
  else if r.maxWeight = 1 then (.ok (roundDouble 1), r)
  else (.ok (roundDouble (r.random 0).toNat), { r with random := fun i => r.random (i + 1) })

/-- The edge in a line. -/
def readLine (r : PlainReader) (line : List UInt8) :
    Except EdgeListError (Option (WeightedEdge (WithTop ℚ))) × PlainReader :=
  match parseEdge line with
  | .error e => (.error e, r)
  | .ok (source, destination, next) =>
    match r.readWeight line next with
    | (.error e, r) => (.error e, r)
    | (.ok weight, r) => (.ok (some ⟨source.toNat, destination.toNat, weight⟩), r)

/-- `read`. -/
def read (r : PlainReader) :
    Option (Except EdgeListError (Option (WeightedEdge (WithTop ℚ))) × PlainReader) := do
  match ← nextLine r.handle with
  | (none, handle) => return (.ok none, { r with handle })
  | (some line, handle) => return { r with handle }.readLine line

end PlainReader

/-! ## The reader of Graphalytics -/

/-- **The reader of the edge file**, in its text format. -/
structure GraphalyticsPlainReader where
  handle : TextStream
  isWeighted : Bool

/-- The weight of an edge, from what is behind its vertices. -/
def GraphalyticsPlainReader.readWeight (r : GraphalyticsPlainReader) (line next : List UInt8) :
    Except EdgeListError (WithTop ℚ) :=
  if r.isWeighted then
    let current := skipSpaces next
    if startsWithDigit current then .ok (strtod current) else .error (.weight line)
  else .ok (roundDouble 0)

/-- The edge in a line. -/
def GraphalyticsPlainReader.readLine (r : GraphalyticsPlainReader) (line : List UInt8) :
    Except EdgeListError (UInt64 × UInt64 × WithTop ℚ) :=
  match parseEdge line with
  | .error e => .error e
  | .ok (source, destination, next) =>
    match r.readWeight line next with
    | .error e => .error e
    | .ok weight => .ok (source, destination, weight)

/-- `GraphalyticsPlainReader::read_edge`. -/
def GraphalyticsPlainReader.readEdge (r : GraphalyticsPlainReader) :
    Option (Except EdgeListError (Option (UInt64 × UInt64 × WithTop ℚ)) ×
      GraphalyticsPlainReader) := do
  match ← nextLine r.handle with
  | (none, handle) => return (.ok none, { r with handle })
  | (some line, handle) =>
    match r.readLine line with
    | .error e => return (.error e, { r with handle })
    | .ok edge => return (.ok (some edge), { r with handle })

/-- **The reader**. The weights of a file without weights are drawn at random. -/
structure GraphalyticsReader where
  impl : GraphalyticsPlainReader
  directed : Bool
  isWeighted : Bool
  emitDirectedEdges : Bool
  maxWeight : WithTop ℚ
  random : ℕ → WithTop ℚ
  lastSource : UInt64 := 0
  lastDestination : UInt64 := 0
  lastWeight : WithTop ℚ := roundDouble 0
  lastReported : Bool := true

namespace GraphalyticsReader

/-- The constructor, for an edge file in the text format that was opened, and
`set_emit_directed_edges`. -/
def new (text : List UInt8) (directed isWeighted emitDirectedEdges : Bool) (maxWeight : WithTop ℚ)
    (random : ℕ → WithTop ℚ) : GraphalyticsReader :=
  { impl := ⟨.openText text, isWeighted⟩, directed, isWeighted, emitDirectedEdges, maxWeight,
    random }

/-- The weight that was read is replaced if the file has no weights. -/
def drawWeight (r : GraphalyticsReader) : GraphalyticsReader :=
  if r.isWeighted then r
  else
    { r with
      lastWeight := if r.random 0 = roundDouble 0 then r.maxWeight else r.random 0
      random := fun i => r.random (i + 1) }

/-- The edge that was read last. -/
def lastEdge (r : GraphalyticsReader) : WeightedEdge (WithTop ℚ) :=
  ⟨r.lastSource.toNat, r.lastDestination.toNat, r.lastWeight⟩

/-- `read_edge`. -/
def readEdge (r : GraphalyticsReader) :
    Option (Except EdgeListError (Option (WeightedEdge (WithTop ℚ))) × GraphalyticsReader) :=
  if !r.directed && r.emitDirectedEdges && !r.lastReported then
    let r := { r with
      lastSource := r.lastDestination, lastDestination := r.lastSource, lastReported := true }
    some (.ok (some r.lastEdge), r)
  else do
    match ← r.impl.readEdge with
    | (.error e, impl) => return (.error e, { r with impl })
    | (.ok none, impl) => return (.ok none, { r with impl })
    | (.ok (some (lastSource, lastDestination, lastWeight)), impl) =>
      let r := { r with impl, lastSource, lastDestination, lastWeight }.drawWeight
      let r := { r with lastReported := false }
      return (.ok (some r.lastEdge), r)

/-- `read`. -/
def read (r : GraphalyticsReader) :
    Option (Except EdgeListError (Option (WeightedEdge (WithTop ℚ))) × GraphalyticsReader) :=
  r.readEdge

end GraphalyticsReader

/-! ## Files -/

section Files

variable {W : Type}

/-- A line that renders no edge: it is blank or a comment. -/
def Skipped (l : List UInt8) : Prop := Blank l ∨ Comment 35 l

/-- **A line that renders an edge**: the numbers of its vertices, and a text of its weight. -/
def EdgeRow (IsWeight : W → List UInt8 → Prop) (e : WeightedEdge W) (l : List UInt8) : Prop :=
  ∃ (source destination : Numeral) (weight : List UInt8),
    Line [source.text, destination.text, weight] l ∧
      (source.value = e.source ∧ e.source < 2 ^ 64) ∧
      (destination.value = e.destination ∧ e.destination < 2 ^ 64) ∧ IsWeight e.weight weight

/-- The text of an integer below `2 ^ 32`. -/
def IsInteger (w : ℕ) (text : List UInt8) : Prop :=
  ∃ n : Numeral, n.text = text ∧ n.value = w ∧ w < 2 ^ 32

/-- The text of a floating-point number that starts with a digit. -/
def IsFloat (w : WithTop ℚ) (text : List UInt8) : Prop :=
  startsWithDigit text = true ∧ strtod text = w

/-- **A file that renders edges**. -/
structure EdgeFile (IsWeight : W → List UInt8 → Prop) (edges : List (WeightedEdge W)) where
  lines : List (List UInt8)
  lines_ne_nil : lines ≠ []
  newline_notMem : ∀ l ∈ lines, newline ∉ l
  rendered : Rendered Skipped (EdgeRow IsWeight) edges lines

variable {IsWeight : W → List UInt8 → Prop} {edges : List (WeightedEdge W)}

def EdgeFile.text (file : EdgeFile IsWeight edges) : List UInt8 := joinLines file.lines

-- a comment, the line `1 2 3`, and a final newline
example : EdgeFile IsInteger [⟨1, 2, 3⟩] where
  lines := [[35, 120], [49, 32, 50, 32, 51], []]
  lines_ne_nil := List.cons_ne_nil _ _
  newline_notMem := by simp [newline]
  rendered := by
    let one : Numeral := ⟨[49], List.cons_ne_nil 49 [], List.forall_mem_singleton.mpr rfl⟩
    let two : Numeral := ⟨[50], List.cons_ne_nil 50 [], List.forall_mem_singleton.mpr rfl⟩
    let three : Numeral := ⟨[51], List.cons_ne_nil 51 [], List.forall_mem_singleton.mpr rfl⟩
    have hnil : Blank [] := fun c hc => absurd hc List.not_mem_nil
    have hline : Line [one.text, two.text, three.text] [49, 32, 50, 32, 51] :=
      ⟨[], _, hnil, ((Row.numeral three).cons_numeral two).cons_numeral one, rfl⟩
    have hrow : EdgeRow IsInteger ⟨1, 2, 3⟩ [49, 32, 50, 32, 51] :=
      ⟨one, two, _, hline, ⟨rfl, by norm_num⟩, ⟨rfl, by norm_num⟩, three, rfl, rfl, by norm_num⟩
    exact Rendered.skip (Or.inr ⟨[], [120], hnil, rfl⟩)
      (Rendered.row hrow (Rendered.skip (Or.inl hnil) Rendered.nil))

theorem ignoreLine_of_skipped {l : List UInt8} (h : Skipped l) : ignoreLine l = true := by
  rcases h with hblank | hcomment
  · rw [ignoreLine, hblank.skipSpaces]
  · obtain ⟨s, hs⟩ := hcomment.skipSpaces rfl
    rw [ignoreLine, hs]
    rfl

theorem ignoreLine_of_startsWithDigit {l : List UInt8}
    (h : startsWithDigit (skipSpaces l) = true) : ignoreLine l = false := by
  rw [ignoreLine]
  cases hl : skipSpaces l with
  | nil =>
    rw [hl] at h
    cases h
  | cons c s =>
    rw [hl] at h
    have hdigit : isDigit c = true := h
    have hhash : c ≠ 35 := by
      rintro rfl
      cases hdigit
    have hnull : c ≠ 0 := by
      rintro rfl
      cases hdigit
    simp [hhash, hnull]

/-- The lines of a file that are not skipped render its edges. -/
theorem EdgeFile.kept (file : EdgeFile IsWeight edges) :
    ∃ kept, Kept ignoreLine (TextStream.openText file.text) kept ∧
      List.Forall₂ (EdgeRow IsWeight) edges kept := by
  refine ⟨_, ⟨file.lines, remaining_openText file.lines_ne_nil file.newline_notMem, rfl⟩, ?_⟩
  apply file.rendered.kept (fun l => ignoreLine_of_skipped)
  rintro e - l ⟨source, destination, weight, hline, -⟩
  exact ignoreLine_of_startsWithDigit hline.startsWithDigit

end Files

/-! ## One call of a reader -/

section Step

variable {f : TextStream} {l : List UInt8} {kept fields : List (List UInt8)}

/-- **A line that is not skipped** is found. -/
theorem nextLine_kept (h : Kept ignoreLine f (l :: kept)) :
    ∃ f', nextLine f = some (some l, f') ∧ Kept ignoreLine f' kept := by
  have hkept : Kept ignoreLine (Prod.snd (([] : List UInt8), f)) (l :: kept) := h
  obtain ⟨⟨line, f'⟩, hloop, -, hl, hline, hkept'⟩ :=
    Kept.skip (fun _ => True) (fun _ => rfl) (fun _ => rfl) (fun _ _ => trivial) trivial hkept
  obtain rfl : line = l := hline
  refine ⟨f', ?_, hkept'⟩
  rw [nextLine, if_pos h.good, hloop]
  show some (if ignoreLine line then none else some line, f') = _
  rw [if_neg (by rw [hl]; exact Bool.false_ne_true)]

/-- **The end of the file**. -/
theorem nextLine_end (h : Kept ignoreLine f []) :
    ∃ f', nextLine f = some (none, f') ∧ Kept ignoreLine f' [] := by
  by_cases hgood : f.good = true
  · have hkept : Kept ignoreLine (Prod.snd (([] : List UInt8), f)) [] := h
    obtain ⟨⟨line, f'⟩, hloop, -, hl, hend⟩ :=
      Kept.skip_end (fun _ => True) (fun _ => rfl) (fun _ => rfl) (fun _ _ => trivial) trivial
        hkept hgood
    refine ⟨f', ?_, kept_nil_of_not_good hend⟩
    rw [nextLine, if_pos hgood, hloop]
    show some (if ignoreLine line then none else some line, f') = _
    rw [if_pos hl]
  · exact ⟨f, if_neg hgood, h⟩

/-- **The vertices of an edge** are read, and its weight is left. -/
theorem parseEdge_row {W : Type} {IsWeight : W → List UInt8 → Prop} {e : WeightedEdge W}
    (h : EdgeRow IsWeight e l) :
    ∃ weight next,
      parseEdge l = .ok (UInt64.ofNat e.source, UInt64.ofNat e.destination, next) ∧
        Row [weight] (skipSpaces next) ∧ IsWeight e.weight weight := by
  obtain ⟨source, destination, weight, hline, ⟨hsource, hsourceLt⟩, ⟨hdestination, hdestinationLt⟩,
    hweight⟩ := h
  obtain ⟨hdigit, hvalue, hrow⟩ := hline.skipSpaces.strtoull
  obtain ⟨hdigit', hvalue', hrow'⟩ := hrow.strtoull
  rw [hsource, min_eq_left (by omega)] at hvalue
  rw [hdestination, min_eq_left (by omega)] at hvalue'
  refine ⟨weight, _, ?_, hrow', hweight⟩
  simp only [parseEdge, hdigit, hdigit', if_true, hvalue, hvalue']

/-- The numbers of the vertices have 64 bits. -/
theorem EdgeRow.toNat {W : Type} {IsWeight : W → List UInt8 → Prop} {e : WeightedEdge W}
    (h : EdgeRow IsWeight e l) :
    (UInt64.ofNat e.source).toNat = e.source ∧
      (UInt64.ofNat e.destination).toNat = e.destination := by
  obtain ⟨source, destination, weight, -, ⟨-, hsource⟩, ⟨-, hdestination⟩, -⟩ := h
  exact ⟨UInt64.toNat_ofNat_of_lt' hsource, UInt64.toNat_ofNat_of_lt' hdestination⟩

/-- **An edge is read** by the plain reader. -/
theorem PlainReader.read_row {r : PlainReader} {e : WeightedEdge ℕ} (hr : r.isWeighted = true)
    (hkept : Kept ignoreLine r.handle (l :: kept)) (hrow : EdgeRow IsInteger e l) :
    ∃ handle, r.read =
        some (.ok (some ⟨e.source, e.destination, (e.weight : ℚ)⟩), { r with handle }) ∧
      Kept ignoreLine handle kept := by
  obtain ⟨handle, hnext, hkept'⟩ := nextLine_kept hkept
  obtain ⟨hsource, hdestination⟩ := hrow.toNat
  obtain ⟨weight, next, hparse, hfields, n, rfl, hn, hweightLt⟩ := parseEdge_row hrow
  obtain ⟨hdigit, hvalue, -⟩ := hfields.strtoull
  rw [min_eq_left (by omega), hn] at hvalue
  have hweight : roundDouble (strtoull (skipSpaces next)).1.toNat =
      ((e.weight : ℚ) : WithTop ℚ) := by
    have hlt : e.weight < 2 ^ 64 := by omega
    rw [hvalue, UInt64.toNat_ofNat_of_lt' hlt]
    exact roundDouble_natCast (by omega)
  have hread : PlainReader.readWeight { r with handle } l next =
      (.ok ((e.weight : ℚ) : WithTop ℚ), { r with handle }) := by
    rw [readWeight, if_pos hr, ← hweight]
    exact if_pos hdigit
  refine ⟨handle, ?_, hkept'⟩
  rw [PlainReader.read, hnext]
  refine congrArg some ?_
  show PlainReader.readLine _ l = _
  rw [PlainReader.readLine, hparse]
  simp only [hread, hsource, hdestination]

/-- **An edge is read** by the reader of Graphalytics. -/
theorem GraphalyticsPlainReader.readEdge_row {r : GraphalyticsPlainReader}
    {e : WeightedEdge (WithTop ℚ)} (hr : r.isWeighted = true)
    (hkept : Kept ignoreLine r.handle (l :: kept)) (hrow : EdgeRow IsFloat e l) :
    ∃ handle, r.readEdge =
        some (.ok (some (UInt64.ofNat e.source, UInt64.ofNat e.destination, e.weight)),
          { r with handle }) ∧
      Kept ignoreLine handle kept := by
  obtain ⟨handle, hnext, hkept'⟩ := nextLine_kept hkept
  obtain ⟨weight, next, hparse, hfields, hdigit, hstrtod⟩ := parseEdge_row hrow
  have hspace := hfields.not_space
  obtain ⟨rest, hsplit, hrest, -⟩ := hfields.uncons
  have hread : GraphalyticsPlainReader.readWeight { r with handle } l next = .ok e.weight := by
    have hstart : startsWithDigit (weight ++ rest) = true := by
      cases weight with
      | nil => cases hdigit
      | cons c weight => exact hdigit
    have hvalue : strtod (weight ++ rest) = e.weight := by
      rw [strtod_append hspace hrest, hstrtod]
    rw [readWeight, if_pos hr, hsplit, ← hvalue]
    exact if_pos hstart
  have hedge : GraphalyticsPlainReader.readLine { r with handle } l =
      .ok (UInt64.ofNat e.source, UInt64.ofNat e.destination, e.weight) := by
    rw [readLine, hparse]
    simp only [hread]
  refine ⟨handle, ?_, hkept'⟩
  rw [readEdge, hnext]
  show (match GraphalyticsPlainReader.readLine { r with handle } l with
    | .error e => some (Except.error e, ({ r with handle } : GraphalyticsPlainReader))
    | .ok edge => some (.ok (some edge), { r with handle })) = _
  rw [hedge]

/-- **The end of the file** is reached by the reader of Graphalytics. -/
theorem GraphalyticsPlainReader.readEdge_end {r : GraphalyticsPlainReader}
    (hkept : Kept ignoreLine r.handle []) :
    ∃ handle, r.readEdge = some (.ok none, { r with handle }) ∧ Kept ignoreLine handle [] := by
  obtain ⟨handle, hnext, hkept'⟩ := nextLine_end hkept
  refine ⟨handle, ?_, hkept'⟩
  rw [readEdge, hnext]
  rfl

end Step

/-! ## The calls of a reader -/

/-- The position of the plain reader: in front of the given edges. -/
structure PlainAt (r : PlainReader) (xs : List (WeightedEdge (WithTop ℚ))) : Prop where
  isWeighted : r.isWeighted = true
  rest : ∃ edges kept, xs = edges.map (fun e => ⟨e.source, e.destination, (e.weight : ℚ)⟩) ∧
    Kept ignoreLine r.handle kept ∧ List.Forall₂ (EdgeRow IsInteger) edges kept

/-- **The edges of a file** are returned by the plain reader, and none behind them. -/
theorem PlainAt.answerAt {r : PlainReader} {xs : List (WeightedEdge (WithTop ℚ))}
    (h : PlainAt r xs) (k : ℕ) : answerAt PlainReader.read k r = some (.ok xs[k]?) := by
  apply answerAt_eq (R := PlainAt) _ _ h
  · rintro r x xs ⟨hr, edges, kept, hxs, hkept, hrows⟩
    cases hrows with
    | nil => cases hxs
    | @cons e l edges kept hrow hrows =>
      obtain ⟨rfl, rfl⟩ := List.cons.inj hxs
      obtain ⟨handle, hread, hkept'⟩ := PlainReader.read_row hr hkept hrow
      exact ⟨_, hread, hr, edges, kept, rfl, hkept', hrows⟩
  · rintro r ⟨hr, edges, kept, hxs, hkept, hrows⟩
    cases hrows with
    | cons => cases hxs
    | nil =>
      obtain ⟨handle, hnext, hkept'⟩ := nextLine_end hkept
      refine ⟨{ r with handle }, ?_, hr, [], [], rfl, hkept', List.Forall₂.nil⟩
      rw [PlainReader.read, hnext]
      rfl

/-- An edge in the other direction. -/
def reversed (e : WeightedEdge (WithTop ℚ)) : WeightedEdge (WithTop ℚ) :=
  ⟨e.destination, e.source, e.weight⟩

/-- The edges that are returned: each one, and perhaps the one in the other direction behind it. -/
def emitted (both : Bool) (edges : List (WeightedEdge (WithTop ℚ))) :
    List (WeightedEdge (WithTop ℚ)) :=
  if both then edges.flatMap fun e => [e, reversed e] else edges

theorem emitted_nil (both : Bool) : emitted both [] = [] := by
  cases both <;> rfl

theorem emitted_cons (both : Bool) (e : WeightedEdge (WithTop ℚ))
    (edges : List (WeightedEdge (WithTop ℚ))) :
    emitted both (e :: edges) =
      e :: ((if both then [reversed e] else []) ++ emitted both edges) := by
  cases both <;> rfl

/-- The position of the reader of Graphalytics: in front of the given edges, of which the first one
may be the last edge in the other direction. -/
structure GraphalyticsAt (both : Bool) (r : GraphalyticsReader)
    (xs : List (WeightedEdge (WithTop ℚ))) : Prop where
  isWeighted : r.isWeighted = true
  impl : r.impl.isWeighted = true
  emits : (!r.directed && r.emitDirectedEdges) = both
  rest : ∃ edges kept,
    xs = (if both && !r.lastReported then [reversed r.lastEdge] else []) ++ emitted both edges ∧
      Kept ignoreLine r.impl.handle kept ∧ List.Forall₂ (EdgeRow IsFloat) edges kept

/-- **The last edge** is returned in the other direction. -/
theorem GraphalyticsReader.readEdge_pending {r : GraphalyticsReader}
    (h : (!r.directed && r.emitDirectedEdges && !r.lastReported) = true) :
    r.readEdge = some (.ok (some (reversed r.lastEdge)),
      { r with
        lastSource := r.lastDestination, lastDestination := r.lastSource, lastReported := true }) :=
  if_pos h

/-- **An edge is read**, and is the last one. -/
theorem GraphalyticsReader.readEdge_row {r : GraphalyticsReader} {e : WeightedEdge (WithTop ℚ)}
    {l : List UInt8} {kept : List (List UInt8)}
    (h : ¬(!r.directed && r.emitDirectedEdges && !r.lastReported) = true)
    (hr : r.isWeighted = true) (himpl : r.impl.isWeighted = true)
    (hkept : Kept ignoreLine r.impl.handle (l :: kept)) (hrow : EdgeRow IsFloat e l) :
    ∃ r', r.readEdge = some (.ok (some e), r') ∧ r'.lastEdge = e ∧ r'.lastReported = false ∧
      r'.isWeighted = true ∧ r'.impl.isWeighted = true ∧ r'.directed = r.directed ∧
      r'.emitDirectedEdges = r.emitDirectedEdges ∧ Kept ignoreLine r'.impl.handle kept := by
  obtain ⟨handle, hread, hkept'⟩ := GraphalyticsPlainReader.readEdge_row himpl hkept hrow
  obtain ⟨hsource, hdestination⟩ := hrow.toNat
  have hedge : (⟨(UInt64.ofNat e.source).toNat, (UInt64.ofNat e.destination).toNat, e.weight⟩ :
      WeightedEdge (WithTop ℚ)) = e := by
    rw [hsource, hdestination]
  refine ⟨{ r with
    impl := { r.impl with handle }, lastSource := UInt64.ofNat e.source,
    lastDestination := UInt64.ofNat e.destination, lastWeight := e.weight,
    lastReported := false }, ?_, hedge, rfl, hr, himpl, rfl, rfl, hkept'⟩
  rw [readEdge, if_neg h, hread]
  refine congrArg some ?_
  show (Except.ok (some (lastEdge _)), _) = _
  rw [drawWeight, if_pos hr]
  exact congrArg (fun e => (Except.ok (some e), _)) hedge

/-- **The edges of a file** are returned by the reader of Graphalytics, and none behind them. -/
theorem GraphalyticsAt.answerAt {both : Bool} {r : GraphalyticsReader}
    {xs : List (WeightedEdge (WithTop ℚ))} (h : GraphalyticsAt both r xs) (k : ℕ) :
    answerAt GraphalyticsReader.read k r = some (.ok xs[k]?) := by
  apply answerAt_eq (R := GraphalyticsAt both) _ _ h
  · rintro r x xs ⟨hr, himpl, hboth, edges, kept, hxs, hkept, hrows⟩
    by_cases hpending : (both && !r.lastReported) = true
    · rw [if_pos hpending] at hxs
      obtain ⟨rfl, rfl⟩ := List.cons.inj hxs
      rw [← hboth] at hpending
      refine ⟨_, GraphalyticsReader.readEdge_pending hpending, hr, himpl, hboth, edges, kept, ?_,
        hkept, hrows⟩
      rw [Bool.not_true, Bool.and_false]
      rfl
    · rw [if_neg hpending, List.nil_append] at hxs
      rw [← hboth] at hpending
      cases hrows with
      | nil =>
        rw [emitted_nil] at hxs
        cases hxs
      | @cons e l edges kept hrow hrows =>
        rw [emitted_cons] at hxs
        obtain ⟨rfl, rfl⟩ := List.cons.inj hxs
        obtain ⟨r', hread, hlast, hreported, hr', himpl', hdirected, hemit, hkept'⟩ :=
          GraphalyticsReader.readEdge_row hpending hr himpl hkept hrow
        refine ⟨r', hread, hr', himpl', ?_, edges, kept, ?_, hkept', hrows⟩
        · rw [hdirected, hemit, hboth]
        · rw [hlast, hreported, Bool.not_false, Bool.and_true]
  · rintro r ⟨hr, himpl, hboth, edges, kept, hxs, hkept, hrows⟩
    by_cases hpending : (both && !r.lastReported) = true
    · rw [if_pos hpending] at hxs
      cases hxs
    · rw [if_neg hpending, List.nil_append] at hxs
      rw [← hboth] at hpending
      cases hrows with
      | cons =>
        rw [emitted_cons] at hxs
        cases hxs
      | nil =>
        obtain ⟨handle, hread, hkept'⟩ := GraphalyticsPlainReader.readEdge_end hkept
        refine ⟨{ r with impl := { r.impl with handle } }, ?_, hr, himpl, hboth, [], [], ?_, hkept',
          List.Forall₂.nil⟩
        · rw [GraphalyticsReader.read, GraphalyticsReader.readEdge, if_neg hpending, hread]
          rfl
        · rw [← hboth, if_neg hpending, List.nil_append, emitted_nil]

/-- **The readers return the edges of a file**, and none behind them. -/
theorem readers_decode :
    (∀ (edges : List (WeightedEdge ℕ)) (file : EdgeFile IsInteger edges) (maxWeight : UInt32)
        (random : ℕ → UInt32) (k : ℕ),
      answerAt PlainReader.read k (.new file.text true maxWeight random) =
        some (.ok (edges.map fun e => ⟨e.source, e.destination, (e.weight : ℚ)⟩)[k]?)) ∧
    ∀ (edges : List (WeightedEdge (WithTop ℚ))) (file : EdgeFile IsFloat edges)
        (directed emitDirectedEdges : Bool) (maxWeight : WithTop ℚ) (random : ℕ → WithTop ℚ)
        (k : ℕ),
      answerAt GraphalyticsReader.read k
          (.new file.text directed true emitDirectedEdges maxWeight random) =
        some (.ok (emitted (!directed && emitDirectedEdges) edges)[k]?) := by
  constructor
  · intro edges file maxWeight random k
    obtain ⟨kept, hkept, hrows⟩ := file.kept
    have hat : PlainAt (.new file.text true maxWeight random)
        (edges.map fun e => ⟨e.source, e.destination, (e.weight : ℚ)⟩) :=
      ⟨rfl, edges, kept, rfl, hkept, hrows⟩
    exact hat.answerAt k
  · intro edges file directed emitDirectedEdges maxWeight random k
    obtain ⟨kept, hkept, hrows⟩ := file.kept
    have hat : GraphalyticsAt (!directed && emitDirectedEdges)
        (.new file.text directed true emitDirectedEdges maxWeight random)
        (emitted (!directed && emitDirectedEdges) edges) := by
      refine ⟨rfl, rfl, rfl, edges, kept, ?_, hkept, hrows⟩
      rw [GraphalyticsReader.new, Bool.not_true, Bool.and_false]
      rfl
    exact hat.answerAt k

end GfeDriver
