import GfeDriver.Reader.Metis
import Mathlib.Tactic

/-!
# Well-formed METIS files

A file consists of a header, the adjacency lists of the vertices, and perhaps blank lines behind
them, such as the empty one behind a final newline. There are comments anywhere in between, and
white space around the fields of a line.

The reader ends at the first adjacency list that is empty, and what is behind it is not read. When
no list is empty, it goes on behind the last one, and a line that is not a comment is a vertex too
many for it.

## Main definitions

* `Metis.Header`, `Metis.Vertex`: what the lines of a file contain
* `Metis.File`: a well-formed file
* `Metis.ReadsFile`: the reader returns the edges of a file, and then ends
* `Metis.File.Readable`: no list is empty before one that is not, and either one list is empty or
  there are no blank lines behind them

## Main results

* `At.entry`, `At.vertex`, `At.isolated`: one call of `read`
* `At.returnsAll_iff`: the calls of `read` from one position on
* `new_spec`: the header is read
* `readsFile_iff`: the files whose edges are returned
-/

namespace GfeDriver

namespace Metis

open Foundation

/-! ## Files -/

/-- The format: whether there are sizes and weights of the vertices, and weights of the edges. -/
structure Format where
  vertexSizes : Bool
  vertexWeights : Bool
  edgeWeights : Bool

def digit (b : Bool) : UInt8 := if b then 49 else 48

def Format.text (f : Format) : List UInt8 :=
  [digit f.vertexSizes, digit f.vertexWeights, digit f.edgeWeights]

/-- **The header**. The number of weights of a vertex is zero only if there are none. -/
structure Header where
  numVertices : Numeral
  numEdges : Numeral
  format : Option (Format × Option Numeral)
  ncon_eq_zero_iff : ∀ f ncon, format = some (f, some ncon) →
    (ncon.value = 0 ↔ f.vertexWeights = false)

namespace Header

def fields (h : Header) : List (List UInt8) :=
  h.numVertices.text :: h.numEdges.text ::
    match h.format with
    | none => []
    | some (f, ncon) => f.text :: (ncon.map Numeral.text).toList

/-- The number of weights in front of an adjacency list. -/
def numWeights (h : Header) : ℕ :=
  match h.format with
  | none => 0
  | some (f, none) => f.vertexSizes.toNat + f.vertexWeights.toNat
  | some (f, some ncon) => f.vertexSizes.toNat + ncon.value

/-- The edges have weights. -/
def hasWeights (h : Header) : Bool := (h.format.map fun f => f.1.edgeWeights).getD false

end Header

/-- An entry of an adjacency list. -/
structure Entry where
  destination : Numeral
  weight : Option Numeral

def Entry.fields (x : Entry) : List (List UInt8) :=
  x.destination.text :: (x.weight.map Numeral.text).toList

/-- An entry of a graph with `n` vertices. -/
structure Entry.WellFormed (x : Entry) (h : Header) : Prop where
  one_le : 1 ≤ x.destination.value
  le : x.destination.value ≤ h.numVertices.value
  isSome_weight : x.weight.isSome = h.hasWeights
  weight_lt : ∀ w ∈ x.weight, w.value < 2 ^ 31

/-- A vertex: its size and weights, and its adjacency list. -/
structure Vertex where
  weights : List Numeral
  entries : List Entry

def Vertex.fields (v : Vertex) : List (List UInt8) :=
  v.weights.map Numeral.text ++ v.entries.flatMap Entry.fields

/-- A vertex of a graph. -/
structure Vertex.WellFormed (v : Vertex) (h : Header) : Prop where
  length_weights : v.weights.length = h.numWeights
  entries : ∀ x ∈ v.entries, x.WellFormed h

/-- **A well-formed file**: its lines are the header, the vertices, and some blank lines, with
comments in between. The size of a file is less than `2 ^ 63`. -/
structure File where
  header : Header
  vertices : List Vertex
  numBlank : ℕ
  lines : List (List UInt8)
  numVertices_eq : header.numVertices.value = vertices.length
  wellFormed : ∀ v ∈ vertices, v.WellFormed header
  newline_notMem : ∀ l ∈ lines, newline ∉ l
  rendered : Rendered (Comment 37) Line
    (header.fields :: (vertices.map Vertex.fields ++ List.replicate numBlank [])) lines
  size_lt : (joinLines lines).length < 2 ^ 63

def File.text (file : File) : List UInt8 := joinLines file.lines

/-- The entries of the vertices from `v` on, with their vertex. -/
def entriesFrom (v : ℕ) : List Vertex → List (ℕ × Entry)
  | [] => []
  | x :: vertices => x.entries.map (Prod.mk v) ++ entriesFrom (v + 1) vertices

/-- The edges of a file, in its order. -/
def File.edges (file : File) : List (ℕ × Entry) := entriesFrom 1 file.vertices

/-- An edge is that of an entry, with its weight if there is one. -/
structure IsEdge (e : WeightedEdge ℚ) (x : ℕ × Entry) : Prop where
  source : e.source = x.1
  destination : e.destination = x.2.destination.value
  weight : ∀ w ∈ x.2.weight, e.weight = w.value

/-- **The reader reads a file**: it returns the edges of the file in their order, and then
false. -/
def ReadsFile (file : File) (random : ℕ → UInt32) : Prop :=
  ∃ r, MetisReader.new file.text random = some (.ok r) ∧
    ReturnsAll MetisReader.read IsEdge r file.edges

/-- **The files whose edges are returned**: an adjacency list behind an empty one is empty, and
there is an empty list if there are blank lines behind the vertices. The number of weights is one of
type `int`. -/
structure File.Readable (file : File) : Prop where
  numWeights_lt : file.header.numWeights < 2 ^ 31
  pairwise : file.vertices.Pairwise fun v v' => v.entries = [] → v'.entries = []
  numBlank : file.numBlank = 0 ∨ ∃ v ∈ file.vertices, v.entries = []

/-! ### The lines of a file -/

theorem isComment_of_comment {l : List UInt8} (h : Comment 37 l) :
    MetisReader.isComment l = true := by
  obtain ⟨s, hs⟩ := h.skipSpaces rfl
  rw [MetisReader.isComment, hs]
  rfl

theorem isComment_of_nil {l : List UInt8} (h : Line [] l) : MetisReader.isComment l = false := by
  rw [MetisReader.isComment, h.skipSpaces.eq_nil]
  rfl

theorem isComment_of_numeral {n : Numeral} {fields : List (List UInt8)} {l : List UInt8}
    (h : Line (n.text :: fields) l) : MetisReader.isComment l = false := by
  rw [MetisReader.isComment, decide_eq_false_iff_not]
  intro hhead
  have hdigit := h.startsWithDigit
  rw [startsWithDigit, hhead] at hdigit
  cases hdigit

/-- The line of a vertex is empty, or it starts with a number. -/
theorem Vertex.fields_cases (v : Vertex) :
    v.fields = [] ∨ ∃ (n : Numeral) (fields : List (List UInt8)), v.fields = n.text :: fields := by
  rcases v with ⟨_ | ⟨n, weights⟩, _ | ⟨x, entries⟩⟩
  · exact Or.inl rfl
  · exact Or.inr ⟨x.destination, _, rfl⟩
  · exact Or.inr ⟨n, _, rfl⟩
  · exact Or.inr ⟨n, _, rfl⟩

/-- The lines of a file that are no comments. -/
theorem File.forall₂_lines (file : File) :
    List.Forall₂ Line
      (file.header.fields :: (file.vertices.map Vertex.fields ++ List.replicate file.numBlank []))
      (file.lines.filter fun l => !MetisReader.isComment l) := by
  apply file.rendered.kept (fun l => isComment_of_comment)
  intro fields hfields l hline
  rcases List.mem_cons.mp hfields with rfl | hfields
  · exact isComment_of_numeral hline
  rcases List.mem_append.mp hfields with hvertex | hblank
  · obtain ⟨v, -, rfl⟩ := List.mem_map.mp hvertex
    rcases v.fields_cases with hnil | ⟨n, fields, hcons⟩
    · rw [hnil] at hline
      exact isComment_of_nil hline
    · rw [hcons] at hline
      exact isComment_of_numeral hline
  · obtain rfl := List.eq_of_mem_replicate hblank
    exact isComment_of_nil hline

/-! ## One call of the reader -/

section Step

open MetisReader

variable {h : Header} {r : MetisReader} {v numBlank : ℕ} {x : Entry} {entries : List Entry}
  {y : Vertex} {vertices : List Vertex} {fields : List (List UInt8)}

/-- **The position of the reader**: behind the vertex `v`, up to the given entries of its list. -/
structure At (h : Header) (r : MetisReader) (v : ℕ) (entries : List Entry) (vertices : List Vertex)
    (numBlank : ℕ) : Prop where
  numVertices : r.numVertices.toNat = h.numVertices.value
  numVertexWeights : r.numVertexWeights = h.numWeights
  hasEdgeWeight : r.hasEdgeWeight = h.hasWeights
  constant : r.isEdgeWeightConstant = true → h.hasWeights = false
  edgeVertex1 : r.edgeVertex1.toNat = v
  total : v + vertices.length = h.numVertices.value
  numVertices_lt : h.numVertices.value < 2 ^ 64 - 1
  row : Row (entries.flatMap Entry.fields) (r.readValuePtr.getD [])
  lines : ∃ kept, Kept isComment r.handle kept ∧
    List.Forall₂ Line (vertices.map Vertex.fields ++ List.replicate numBlank []) kept

/-- **The weight of an entry** is read, or there is none. -/
theorem readWeight_row (hweight : r.hasEdgeWeight = x.weight.isSome)
    (hconstant : r.isEdgeWeightConstant = true → x.weight.isSome = false)
    (hlt : ∀ w ∈ x.weight, w.value < 2 ^ 31)
    (hrow : Row ((x.weight.map Numeral.text).toList ++ fields) (r.readValuePtr.getD [])) :
    ∃ ptr random weight, r.readWeight =
        (.ok (), { r with readValuePtr := ptr, random, edgeWeight := weight }) ∧
      Row fields (ptr.getD []) ∧ ∀ w ∈ x.weight, weight.toNat = w.value := by
  cases hx : x.weight with
  | none =>
    rw [hx] at hweight hrow
    have hhas : ¬r.hasEdgeWeight = true := by
      rw [hweight]
      exact Bool.false_ne_true
    by_cases hbit : r.isEdgeWeightConstant = true
    · refine ⟨r.readValuePtr, r.random, r.edgeWeight, ?_, hrow, fun w hw => nomatch hw⟩
      rw [readWeight, if_pos hbit]
    · refine ⟨r.readValuePtr, fun i => r.random (i + 1), r.random 0, ?_, hrow,
        fun w hw => nomatch hw⟩
      rw [readWeight, if_neg hbit, if_neg hhas]
  | some w =>
    rw [hx] at hweight hrow
    have hbit : ¬r.isEdgeWeightConstant = true := by
      intro hbit
      have hnone := hconstant hbit
      rw [hx] at hnone
      cases hnone
    have hhas : r.hasEdgeWeight = true := hweight
    have hw := hlt w hx
    have hmin : min w.value (2 ^ 64 - 1) = w.value := min_eq_left (by omega)
    have hlt64 : w.value < 2 ^ 64 := by omega
    have htoNat : (UInt64.ofNat w.value).toNat = w.value := UInt64.toNat_ofNat_of_lt' hlt64
    obtain ⟨s, hread, hrow⟩ := readValue_row hrow
    rw [hmin] at hread
    have hle : ¬2 ^ 31 - 1 < (UInt64.ofNat w.value).toNat := by
      rw [htoNat]
      omega
    refine ⟨some s, r.random, (UInt64.ofNat w.value).toUInt32, ?_, hrow, ?_⟩
    · rw [readWeight, if_neg hbit, if_pos hhas, hread]
      show (if _ then _ else _) = _
      rw [if_neg hle]
    · intro w' hw'
      obtain rfl : w = w' := Option.some.inj hw'
      rw [UInt64.toNat_toUInt32, htoNat]
      exact Nat.mod_eq_of_lt (by omega)

/-- **The next entry** of an adjacency list. -/
theorem At.entry (hat : At h r v (x :: entries) vertices numBlank) (hx : x.WellFormed h) :
    ∃ e r', r.read = some (.ok (some e), r') ∧ IsEdge e (v, x) ∧
      At h r' v entries vertices numBlank := by
  obtain ⟨s, hread, hrow⟩ := readValue_row hat.row
  have hle := hx.le
  have hlt := hat.numVertices_lt
  have hmin : min x.destination.value (2 ^ 64 - 1) = x.destination.value :=
    min_eq_left (by omega)
  rw [hmin] at hread
  have hlt64 : x.destination.value < 2 ^ 64 := by omega
  have htoNat : (UInt64.ofNat x.destination.value).toNat = x.destination.value :=
    UInt64.toNat_ofNat_of_lt' hlt64
  have hnext : r.nextDestination = some (.ok (some (UInt64.ofNat x.destination.value)),
      { r with readValuePtr := some s }) := by
    rw [nextDestination, hread]
  obtain ⟨ptr, random, weight, hweight, hrow', hvalue⟩ :=
    readWeight_row (r := { r with
        readValuePtr := some s, edgeVertex2 := UInt64.ofNat x.destination.value })
      (hat.hasEdgeWeight.trans hx.isSome_weight.symm)
      (fun hbit => hx.isSome_weight.trans (hat.constant hbit)) hx.weight_lt hrow
  refine ⟨⟨r.edgeVertex1.toNat, (UInt64.ofNat x.destination.value).toNat, weight.toNat⟩,
    { r with
      readValuePtr := ptr, random, edgeVertex2 := UInt64.ofNat x.destination.value,
      edgeWeight := weight }, ?_, ⟨hat.edgeVertex1, htoNat, ?_⟩, ?_⟩
  · rw [MetisReader.read, hnext]
    show some (readEdge _ _) = _
    rw [readEdge, hweight]
  · intro w hw
    exact congrArg Nat.cast (hvalue w hw)
  · exact ⟨hat.numVertices, hat.numVertexWeights, hat.hasEdgeWeight, hat.constant,
      hat.edgeVertex1, hat.total, hat.numVertices_lt, hrow', hat.lines⟩

/-- **The next vertex**: its line is fetched, and its weights are skipped. -/
theorem At.next (hat : At h r v [] (y :: vertices) numBlank) (hy : y.WellFormed h) :
    ∃ r', r.nextDestination = some (.ok r'.readValue.1, r'.readValue.2) ∧
      At h r' (v + 1) y.entries vertices numBlank := by
  obtain ⟨kept, hkept, hlines⟩ := hat.lines
  cases hlines with
  | cons hline hlines =>
    rename_i l kept
    obtain ⟨handle, lineno, hfetch, hkept'⟩ := fetchNextLine_kept hkept
    have hrow := hline.skipSpaces
    have htotal := hat.total
    rw [List.length_cons] at htotal
    have hlt := hat.numVertices_lt
    have hsucc : (r.edgeVertex1 + 1).toNat = v + 1 := by
      have hone : (1 : UInt64).toNat = 1 := rfl
      rw [UInt64.toNat_add, hat.edgeVertex1, hone]
      exact Nat.mod_eq_of_lt (by omega)
    have hle : ¬r.numVertices < r.edgeVertex1 + 1 := by
      rw [UInt64.lt_iff_toNat_lt, hsucc, hat.numVertices]
      omega
    let r' : MetisReader := { r with
      handle, currentLine := l, lineno, readValuePtr := some (Foundation.skipSpaces l),
      edgeVertex1 := r.edgeVertex1 + 1 }
    obtain ⟨s, hskip, hrow'⟩ := skipVertexWeights_row (i := 0) (r := r') y.weights rfl hrow
    have hnum : r.numVertexWeights.toNat = y.weights.length := by
      rw [hat.numVertexWeights, hy.length_weights, Int.toNat_natCast]
    rw [← hnum] at hskip
    refine ⟨{ r' with readValuePtr := some s }, ?_, hat.numVertices, hat.numVertexWeights,
      hat.hasEdgeWeight, hat.constant, hsucc, ?_, hlt, hrow', kept, hkept', hlines⟩
    · rw [nextDestination, readValue_nil hat.row]
      show nextVertex r = _
      rw [nextVertex, hfetch]
      exact congrArg some (startVertex_of_not_lt hle hskip)
    · omega

/-- **A vertex with neighbours**: the reader goes on with the first one. -/
theorem At.vertex (hat : At h r v [] (y :: vertices) numBlank) (hy : y.WellFormed h)
    (hne : y.entries ≠ []) :
    ∃ r', r.read = r'.read ∧ At h r' (v + 1) y.entries vertices numBlank := by
  obtain ⟨r', hnext, hat'⟩ := hat.next hy
  refine ⟨r', ?_, hat'⟩
  obtain ⟨x, entries, hentries⟩ := List.exists_cons_of_ne_nil hne
  have hrow := hat'.row
  rw [hentries] at hrow
  obtain ⟨s, hread, -⟩ := readValue_row hrow
  have hnext' : r'.nextDestination = r.nextDestination := by
    rw [hnext, nextDestination, hread]
  rw [MetisReader.read, MetisReader.read, hnext']

/-- **A vertex without neighbours**: the reader ends. -/
theorem At.isolated (hat : At h r v [] (y :: vertices) numBlank) (hy : y.WellFormed h)
    (hnil : y.entries = []) : ∃ r', r.read = some (.ok none, r') := by
  obtain ⟨r', hnext, hat'⟩ := hat.next hy
  have hrow := hat'.row
  rw [hnil] at hrow
  rw [readValue_nil hrow] at hnext
  exact ⟨r', by rw [MetisReader.read, hnext]; rfl⟩

/-- **The end of the file**. -/
theorem At.finished (hat : At h r v [] [] 0) : ∃ r', r.read = some (.ok none, r') := by
  obtain ⟨kept, hkept, hlines⟩ := hat.lines
  cases hlines
  obtain ⟨r', hfetch⟩ := fetchNextLine_end hkept
  have hnext : r.nextDestination = some (.ok none, r') := by
    rw [nextDestination, readValue_nil hat.row]
    show nextVertex r = _
    rw [nextVertex, hfetch]
    rfl
  exact ⟨r', by rw [MetisReader.read, hnext]; rfl⟩

/-- **A blank line** behind the last vertex is an error. -/
theorem At.blank (hat : At h r v [] [] (numBlank + 1)) :
    ∃ e r', r.read = some (.error e, r') := by
  obtain ⟨kept, hkept, hlines⟩ := hat.lines
  cases hlines with
  | cons hline hlines =>
    obtain ⟨handle, lineno, hfetch, -⟩ := fetchNextLine_kept hkept
    have htotal : v = h.numVertices.value := hat.total
    have hlt := hat.numVertices_lt
    have hsucc : r.numVertices < r.edgeVertex1 + 1 := by
      have hone : (1 : UInt64).toNat = 1 := rfl
      rw [UInt64.lt_iff_toNat_lt, UInt64.toNat_add, hat.edgeVertex1, hone, hat.numVertices,
        Nat.mod_eq_of_lt (by omega)]
      omega
    obtain ⟨e, r', hstart⟩ := startVertex_of_lt (r := { r with
      handle, currentLine := _, lineno, readValuePtr := some (Foundation.skipSpaces _) }) hsucc
    have hnext : r.nextDestination = some (.error e, r') := by
      rw [nextDestination, readValue_nil hat.row]
      show nextVertex r = _
      rw [nextVertex, hfetch]
      exact congrArg some hstart
    exact ⟨e, r', by rw [MetisReader.read, hnext]; rfl⟩

/-! ## The calls of the reader -/

theorem entriesFrom_eq_nil_iff (v : ℕ) (vertices : List Vertex) :
    entriesFrom v vertices = [] ↔ ∀ y ∈ vertices, y.entries = [] := by
  induction vertices generalizing v with
  | nil => simp [entriesFrom]
  | cons y vertices ih =>
    rw [entriesFrom, List.append_eq_nil_iff, List.map_eq_nil_iff, ih, List.forall_mem_cons]

/-- The vertices from one without neighbours on. -/
theorem pairwise_of_nil (hnil : y.entries = []) :
    ((y :: vertices).Pairwise fun v v' => v.entries = [] → v'.entries = []) ↔
      ∀ y ∈ vertices, y.entries = [] := by
  rw [List.pairwise_cons]
  constructor
  · rintro ⟨hall, -⟩ y' hy'
    exact hall y' hy' hnil
  · intro hall
    refine ⟨fun y' hy' _ => hall y' hy', List.pairwise_of_forall_mem_list ?_⟩
    exact fun y' _ y'' hy'' _ => hall y'' hy''

/-- The vertices from one with neighbours on. -/
theorem pairwise_of_ne_nil (hne : y.entries ≠ []) :
    ((y :: vertices).Pairwise fun v v' => v.entries = [] → v'.entries = []) ↔
      vertices.Pairwise fun v v' => v.entries = [] → v'.entries = [] := by
  rw [List.pairwise_cons]
  exact and_iff_right fun _ _ hnil => absurd hnil hne

/-- The entries of an adjacency list are returned, one after the other. -/
theorem At.returnsAll_entries (hat : At h r v entries vertices numBlank)
    (hentries : ∀ x ∈ entries, x.WellFormed h) (xs : List (ℕ × Entry)) :
    ∃ r', At h r' v [] vertices numBlank ∧
      (ReturnsAll MetisReader.read IsEdge r (entries.map (Prod.mk v) ++ xs) ↔
        ReturnsAll MetisReader.read IsEdge r' xs) := by
  induction entries generalizing r with
  | nil => exact ⟨r, hat, Iff.rfl⟩
  | cons x entries ih =>
    obtain ⟨hx, hentries⟩ := List.forall_mem_cons.mp hentries
    obtain ⟨e, r₁, hread, hedge, hat₁⟩ := hat.entry hx
    obtain ⟨r', hat', hiff⟩ := ih hat₁ hentries
    refine ⟨r', hat', ?_⟩
    rw [List.map_cons, List.cons_append, returnsAll_cons hread hedge]
    exact hiff

/-- **The calls of `read`** from one position on. -/
theorem At.returnsAll_iff (hat : At h r v entries vertices numBlank)
    (hentries : ∀ x ∈ entries, x.WellFormed h) (hvertices : ∀ y ∈ vertices, y.WellFormed h) :
    ReturnsAll MetisReader.read IsEdge r
        (entries.map (Prod.mk v) ++ entriesFrom (v + 1) vertices) ↔
      (vertices.Pairwise fun v v' => v.entries = [] → v'.entries = []) ∧
        (numBlank = 0 ∨ ∃ y ∈ vertices, y.entries = []) := by
  induction vertices generalizing r v entries with
  | nil =>
    obtain ⟨r', hat', hiff⟩ := hat.returnsAll_entries hentries (entriesFrom (v + 1) [])
    rw [hiff]
    cases numBlank with
    | zero =>
      obtain ⟨r'', hread⟩ := hat'.finished
      rw [returnsAll_of_none hread]
      exact iff_of_true rfl ⟨List.Pairwise.nil, Or.inl rfl⟩
    | succ numBlank =>
      obtain ⟨e, r'', hread⟩ := hat'.blank
      refine iff_of_false (not_returnsAll_of_error hread _) ?_
      rintro ⟨-, hzero | ⟨y, hy, -⟩⟩
      · cases hzero
      · cases hy
  | cons y vertices ih =>
    obtain ⟨hy, hvertices⟩ := List.forall_mem_cons.mp hvertices
    obtain ⟨r', hat', hiff⟩ := hat.returnsAll_entries hentries (entriesFrom (v + 1) (y :: vertices))
    rw [hiff]
    by_cases hnil : y.entries = []
    · -- the reader ends here, so that nothing may be left
      obtain ⟨r'', hread⟩ := hat'.isolated hy hnil
      rw [returnsAll_of_none hread, entriesFrom_eq_nil_iff, pairwise_of_nil hnil,
        List.forall_mem_cons]
      exact ⟨fun hall => ⟨hall.2, Or.inr ⟨y, List.mem_cons_self, hnil⟩⟩,
        fun hall => ⟨hnil, hall.1⟩⟩
    · obtain ⟨r'', hread, hat''⟩ := hat'.vertex hy hnil
      rw [returnsAll_congr hread, entriesFrom, ih hat'' hy.entries hvertices,
        pairwise_of_ne_nil hnil]
      refine and_congr_right fun _ => or_congr_right ?_
      rw [List.exists_mem_cons_iff, or_iff_right hnil]

end Step

/-! ## The header -/

section Constructor

open MetisReader

variable {h : Header} {r : MetisReader}

theorem isNumber_text (n : Numeral) : isNumber n.text = true := by
  rw [isNumber, Bool.and_eq_true, decide_eq_true_eq, List.all_eq_true]
  exact ⟨n.ne_nil, n.digits⟩

theorem isFormat_text (f : Format) : isFormat f.text = true := by
  rcases f with ⟨_ | _, _ | _, _ | _⟩ <;> rfl

theorem formatDigit_zero (f : Format) : formatDigit f.text 0 = f.vertexSizes := by
  rcases f with ⟨_ | _, _, _⟩ <;> rfl

theorem formatDigit_one (f : Format) : formatDigit f.text 1 = f.vertexWeights := by
  rcases f with ⟨_, _ | _, _⟩ <;> rfl

theorem formatDigit_two (f : Format) : formatDigit f.text 2 = f.edgeWeights := by
  rcases f with ⟨_, _, _ | _⟩ <;> rfl

/-- **The header is parsed**. -/
theorem matchHeader_line {l : List UInt8} (hline : Line h.fields l) :
    matchHeader l = some (h.numVertices.text,
      h.format.map fun f => (f.1.text, f.2.map Numeral.text)) := by
  rw [matchHeader, hline.fieldsOf, Header.fields]
  rcases h.format with _ | ⟨f, _ | ncon⟩
  · simp [isNumber_text]
  · simp [isNumber_text, isFormat_text]
  · simp [isNumber_text, isFormat_text]

theorem stoull_text {n : Numeral} (hlt : n.value < 2 ^ 64) :
    stoull n.text = .ok (UInt64.ofNat n.value) :=
  if_pos hlt

theorem countWeights_of_ok {format ncon : List UInt8} {k : ℤ} (hstoi : stoi ncon = .ok k) :
    countWeights format (some ncon) = addInt (formatDigit format 0).toInt k := by
  rw [countWeights, hstoi]
  rfl

theorem countWeights_of_error {format ncon : List UInt8} {e : MetisError}
    (hstoi : stoi ncon = .error e) : countWeights format (some ncon) = .error e := by
  rw [countWeights, hstoi]
  rfl

/-- The number of weights is one of type `int`, or there is an error. -/
theorem countWeights_text {f : Format} {ncon : Option Numeral}
    (hformat : h.format = some (f, ncon)) :
    (h.numWeights < 2 ^ 31 →
      countWeights f.text (ncon.map Numeral.text) = .ok (h.numWeights : ℤ)) ∧
    (2 ^ 31 ≤ h.numWeights →
      ∃ e, countWeights f.text (ncon.map Numeral.text) = .error e) := by
  have hsize : f.vertexSizes.toInt = (f.vertexSizes.toNat : ℤ) := by
    cases f.vertexSizes <;> rfl
  have hweight : f.vertexWeights.toInt = (f.vertexWeights.toNat : ℤ) := by
    cases f.vertexWeights <;> rfl
  cases ncon with
  | none =>
    have hnum : h.numWeights = f.vertexSizes.toNat + f.vertexWeights.toNat := by
      rw [Header.numWeights, hformat]
    have hsum : countWeights f.text none = addInt f.vertexSizes.toNat f.vertexWeights.toNat := by
      rw [countWeights, formatDigit_zero, formatDigit_one, hsize, hweight]
    rw [Option.map_none, hsum, addInt, hnum, Nat.cast_add]
    exact ⟨fun hlt => if_pos (by omega), fun hle => ⟨_, if_neg (by omega)⟩⟩
  | some ncon =>
    have hnum : h.numWeights = f.vertexSizes.toNat + ncon.value := by
      rw [Header.numWeights, hformat]
    by_cases hlt : ncon.value < 2 ^ 31
    · have hsum : countWeights f.text (some ncon.text) =
          addInt f.vertexSizes.toNat ncon.value := by
        rw [countWeights_of_ok (if_pos hlt), formatDigit_zero, hsize]
        rfl
      rw [Option.map_some, hsum, addInt, hnum, Nat.cast_add]
      exact ⟨fun hlt => if_pos (by omega), fun hle => ⟨_, if_neg (by omega)⟩⟩
    · have herror : countWeights f.text (some ncon.text) = .error .outOfRange :=
        countWeights_of_error (if_neg hlt)
      exact ⟨fun hsum => by omega, fun _ => ⟨_, herror⟩⟩

/-- What the constructor takes from the header. -/
theorem parseHeader_of_lt (hn : h.numVertices.value < 2 ^ 64) (hnum : h.numWeights < 2 ^ 31)
    (hconstant : r.isEdgeWeightConstant = false) :
    ∃ constant weight,
      parseHeader r h.numVertices.text (h.format.map fun f => (f.1.text, f.2.map Numeral.text)) =
        .ok { r with
          numVertices := UInt64.ofNat h.numVertices.value, numVertexWeights := h.numWeights,
          hasEdgeWeight := h.hasWeights, isEdgeWeightConstant := constant, edgeWeight := weight,
          readValuePtr := none } ∧
      (constant = true → h.hasWeights = false) := by
  rw [parseHeader, stoull_text hn]
  cases hformat : h.format with
  | none =>
    have hzero : h.numWeights = 0 := by rw [Header.numWeights, hformat]
    have hhas : h.hasWeights = false := by rw [Header.hasWeights, hformat]; rfl
    rw [hzero, hhas]
    exact ⟨true, 1, rfl, fun _ => rfl⟩
  | some f =>
    obtain ⟨f, ncon⟩ := f
    have hhas : h.hasWeights = f.edgeWeights := by rw [Header.hasWeights, hformat]; rfl
    have hcount := (countWeights_text hformat).1 hnum
    refine ⟨r.isEdgeWeightConstant, r.edgeWeight, ?_, fun hbit => ?_⟩
    · rw [hhas, ← formatDigit_two]
      simp only [Option.map_some, hcount]
      rfl
    · rw [hconstant] at hbit
      cases hbit

/-- Too many weights for an `int`. -/
theorem parseHeader_of_le (hn : h.numVertices.value < 2 ^ 64) (hnum : 2 ^ 31 ≤ h.numWeights) :
    ∃ e, parseHeader r h.numVertices.text
      (h.format.map fun f => (f.1.text, f.2.map Numeral.text)) = .error e := by
  rw [parseHeader, stoull_text hn]
  cases hformat : h.format with
  | none =>
    have hzero : h.numWeights = 0 := by rw [Header.numWeights, hformat]
    omega
  | some f =>
    obtain ⟨f, ncon⟩ := f
    obtain ⟨e, hcount⟩ := (countWeights_text hformat).2 hnum
    refine ⟨e, ?_⟩
    simp only [Option.map_some, hcount]
    rfl

/-- A file has fewer than `2 ^ 64 - 1` vertices. -/
theorem File.numVertices_lt (file : File) : file.header.numVertices.value < 2 ^ 64 - 1 := by
  have hrendered := file.forall₂_lines.length_eq
  have hfilter := List.length_filter_le (fun l => !isComment l) file.lines
  have hlines := length_le_length_joinLines file.lines
  have hsize := file.size_lt
  rw [List.length_cons, List.length_append, List.length_map] at hrendered
  rw [file.numVertices_eq]
  omega

/-- **The constructor** reads the header, and is in front of the first vertex. -/
theorem new_spec (file : File) (random : ℕ → UInt32) :
    (file.header.numWeights < 2 ^ 31 →
      ∃ r, MetisReader.new file.text random = some (.ok r) ∧
        At file.header r 0 [] file.vertices file.numBlank) ∧
    (2 ^ 31 ≤ file.header.numWeights →
      ∃ e, MetisReader.new file.text random = some (.error e)) := by
  obtain ⟨kept, hkept⟩ : ∃ kept, file.lines.filter (fun l => !isComment l) = kept := ⟨_, rfl⟩
  have hrendered := file.forall₂_lines
  rw [hkept] at hrendered
  cases hrendered with
  | cons hline hlines =>
    rename_i l kept
    have hne : file.lines ≠ [] := by
      intro hnil
      rw [hnil] at hkept
      cases hkept
    have hopen : Kept isComment (TextStream.openText file.text) (l :: kept) :=
      ⟨file.lines, remaining_openText hne file.newline_notMem, hkept⟩
    have hlt := file.numVertices_lt
    have hn : file.header.numVertices.value < 2 ^ 64 := by omega
    obtain ⟨handle, lineno, hfetch, hkept'⟩ := fetchNextLine_kept
      (r := { handle := TextStream.openText file.text, random }) hopen
    let r : MetisReader := { handle, currentLine := l, lineno, random,
                             readValuePtr := some (Foundation.skipSpaces l) }
    have hnew : MetisReader.new file.text random =
        some (parseHeader r file.header.numVertices.text
          (file.header.format.map fun f => (f.1.text, f.2.map Numeral.text))) := by
      have hheader : readHeader r = parseHeader r file.header.numVertices.text
          (file.header.format.map fun f => (f.1.text, f.2.map Numeral.text)) := by
        rw [readHeader, matchHeader_line hline]
      rw [MetisReader.new, hfetch]
      exact congrArg some hheader
    rw [hnew]
    constructor
    · intro hnum
      obtain ⟨constant, weight, hparse, hconstant⟩ := parseHeader_of_lt (r := r) hn hnum rfl
      have htoNat : (UInt64.ofNat file.header.numVertices.value).toNat =
          file.header.numVertices.value := UInt64.toNat_ofNat_of_lt' hn
      have htotal : 0 + file.vertices.length = file.header.numVertices.value := by
        rw [Nat.zero_add, file.numVertices_eq]
      exact ⟨_, congrArg some hparse, htoNat, rfl, rfl, hconstant, rfl, htotal, hlt, Row.nil, kept,
        hkept', hlines⟩
    · intro hnum
      obtain ⟨e, hparse⟩ := parseHeader_of_le (r := r) hn hnum
      exact ⟨e, congrArg some hparse⟩

/-- A file whose edges are returned. -/
theorem readable_of_readsFile {file : File} {random : ℕ → UInt32} (h : ReadsFile file random) :
    file.Readable := by
  obtain ⟨hread, herror⟩ := new_spec file random
  obtain ⟨r', hnew', hall⟩ := h
  by_cases hnum : file.header.numWeights < 2 ^ 31
  · obtain ⟨r, hnew, hat⟩ := hread hnum
    obtain rfl : r = r' := Except.ok.inj (Option.some.inj (hnew.symm.trans hnew'))
    obtain ⟨hpairwise, hblank⟩ :=
      (hat.returnsAll_iff (fun x hx => nomatch hx) file.wellFormed).mp hall
    exact ⟨hnum, hpairwise, hblank⟩
  · obtain ⟨e, hnew⟩ := herror (not_lt.mp hnum)
    rw [hnew] at hnew'
    cases hnew'

/-- The edges of a readable file are returned. -/
theorem File.Readable.readsFile {file : File} (h : file.Readable) (random : ℕ → UInt32) :
    ReadsFile file random := by
  obtain ⟨r, hnew, hat⟩ := (new_spec file random).1 h.numWeights_lt
  refine ⟨r, hnew, ?_⟩
  apply (hat.returnsAll_iff (fun x hx => nomatch hx) file.wellFormed).mpr
  exact ⟨h.pairwise, h.numBlank⟩

/-- **The files whose edges are returned**. -/
theorem readsFile_iff (file : File) (random : ℕ → UInt32) :
    ReadsFile file random ↔ file.Readable :=
  ⟨readable_of_readsFile, fun h => h.readsFile random⟩

/-- Two vertices with an edge between them, and a final newline. -/
theorem not_readsFile_newline :
    ∃ file : File, file.text = [50, 32, 49, 10, 50, 10, 49, 10] ∧ ¬ReadsFile file fun _ => 1 := by
  let one : Numeral := ⟨[49], List.cons_ne_nil 49 [], List.forall_mem_singleton.mpr rfl⟩
  let two : Numeral := ⟨[50], List.cons_ne_nil 50 [], List.forall_mem_singleton.mpr rfl⟩
  let file : File :=
    { header := ⟨two, one, none, fun _ _ h => nomatch h⟩
      vertices := [⟨[], [⟨two, none⟩]⟩, ⟨[], [⟨one, none⟩]⟩]
      numBlank := 1
      lines := [[50, 32, 49], [50], [49], []]
      numVertices_eq := rfl
      wellFormed := by
        refine List.forall_mem_cons.mpr ⟨⟨rfl, ?_⟩, List.forall_mem_singleton.mpr ⟨rfl, ?_⟩⟩
        · exact List.forall_mem_singleton.mpr ⟨by decide, by decide, rfl, fun _ h => nomatch h⟩
        · exact List.forall_mem_singleton.mpr ⟨by decide, by decide, rfl, fun _ h => nomatch h⟩
      newline_notMem := by simp [newline]
      rendered := by
        have hnil : ∀ c ∈ ([] : List UInt8), isSpace c = true := by simp
        apply Rendered.row ⟨[], _, hnil, (Row.numeral one).cons_numeral two, rfl⟩
        apply Rendered.row ⟨[], _, hnil, Row.numeral two, rfl⟩
        apply Rendered.row ⟨[], _, hnil, Row.numeral one, rfl⟩
        exact Rendered.row ⟨[], _, hnil, Row.nil, rfl⟩ Rendered.nil
      size_lt := by simp [joinLines] }
  refine ⟨file, rfl, fun h => ?_⟩
  rcases (readable_of_readsFile h).numBlank with hzero | ⟨v, hv, hnil⟩
  · exact absurd hzero Nat.one_ne_zero
  · rcases List.mem_cons.mp hv with rfl | hv
    · cases hnil
    · obtain rfl := List.mem_singleton.mp hv
      cases hnil

end Constructor

end Metis

end GfeDriver
