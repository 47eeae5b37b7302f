import GfeDriver.Foundation.TextStream
import GfeDriver.Utility.EpsilonMatch
import GfeDriver.Utility.EquivalenceMatch

/-!
# The validation of text files

The files of a validation are texts. Each of the three comparisons reads the result file line by
line into a table, and then the reference. A line is parsed when it is reached: what cannot be
parsed is fatal. The loops stop when the end of the file was met while a line was read. This is so
for the characters behind the last newline, and these are not looked at.

`strtod` is any function here: which value a text has does not matter to what is proved.

## Main definitions

* `parseValue`: a line
* `Validator`, `Validator.run`: the reading of the two files, for the three comparisons
* `exactMatchText`, `epsilonMatchText`, `equivalenceMatchText`: the comparisons of files
* `TextLine`, `fileText`: well-formed lines, and a file of them
* `SameVerdict`: the last newlines of two files do not matter

## Main results

* `Validator.run_ok_iff`: a comparison of files accepts when each line is well-formed and the lines
  are accepted
* `Validator.run_fileText`: it accepts the lines that are terminated
* `sameVerdict_iff`: when the last newline does not matter
-/

namespace GfeDriver

namespace GraphalyticsValidate

open Foundation
open ErrorBudget (Rejection)

/-! ## Lines -/

/-- `BUFFER_SZ`. -/
def bufferSz : ℕ := 4096

/-- The exceptions of a validation of files that are not counted. -/
inductive TextError
  | resultNotAccessible
  | referenceNotAccessible
  | emptyLine (lineno : ℕ) (bufferName : String)
  | cannotParseVertex (lineno : ℕ) (bufferName : String) (line : List UInt8)
  | noValue (lineno : ℕ) (bufferName : String) (line : List UInt8)
  | cannotParseValue (lineno : ℕ) (bufferName : String) (line : List UInt8)
  | validate (e : ValidateError)

/-- `validate_value_typed<T>` and `parse_value_typed<T>`. -/
structure ValueType (T : Type) where
  validate : List UInt8 → Bool
  parse : List UInt8 → T

/-- The instances for `int64_t`. -/
def int64Type : ValueType Int64 := ⟨startsWithDigit, fun buffer => (strtoll buffer).1⟩

/-- The instances for `double`: a value starts with a digit, a point or the `i` of infinity. -/
def doubleType (strtod : List UInt8 → Value) : ValueType Value :=
  ⟨fun buffer =>
    startsWithDigit buffer || buffer.head? = some 46 || buffer.head? = some 105, strtod⟩

section Parse

variable {T : Type}

/-- `parse_value<T>`. -/
def parseValue (type : ValueType T) (lineno : ℕ) (buffer : List UInt8) (bufferName : String) :
    Except TextError (LineOf T) :=
  let current := skipSpaces (untilNull buffer)
  if current = [] then .error (.emptyLine lineno bufferName)
  else if !startsWithDigit current then .error (.cannotParseVertex lineno bufferName buffer)
  else
    let vertexId := strtoll current
    let current := skipSpaces vertexId.2
    if current = [] then .error (.noValue lineno bufferName buffer)
    else if !type.validate current then .error (.cannotParseValue lineno bufferName buffer)
    else .ok ⟨vertexId.1, type.parse current⟩

/-- What a line is parsed to. -/
def parseLine (type : ValueType T) (buffer : List UInt8) : Option (LineOf T) :=
  (parseValue type 0 buffer "").toOption

theorem parseValue_nil (type : ValueType T) (lineno : ℕ) (bufferName : String) :
    parseValue type lineno [] bufferName = .error (.emptyLine lineno bufferName) := rfl

/-- A line is parsed to the same, whatever its number and its file are. -/
theorem parseValue_ok_iff {type : ValueType T} {lineno : ℕ} {buffer : List UInt8}
    {bufferName : String} {line : LineOf T} :
    parseValue type lineno buffer bufferName = .ok line ↔ parseLine type buffer = some line := by
  unfold parseLine parseValue
  dsimp only
  split_ifs <;> simp [Except.toOption]

/-- A line that cannot be parsed is an error of its own. -/
theorem parseValue_error {type : ValueType T} {lineno : ℕ} {buffer : List UInt8}
    {bufferName : String} {e : TextError}
    (h : parseValue type lineno buffer bufferName = .error e) (e' : ValidateError) :
    e ≠ .validate e' := by
  unfold parseValue at h
  dsimp only at h
  split_ifs at h
  all_goals
    rw [← Except.error.inj h]
    simp

theorem parseLine_eq_none {type : ValueType T} {lineno : ℕ} {buffer : List UInt8}
    {bufferName : String} {e : TextError}
    (h : parseValue type lineno buffer bufferName = .error e) : parseLine type buffer = none := by
  cases hline : parseLine type buffer with
  | none => rfl
  | some line =>
    rw [parseValue_ok_iff.mpr hline] at h
    cases h

end Parse

/-- A line with an integer. -/
def LineOf.toLine (line : LineOf Int64) : Line := ⟨line.vertexId, line.value⟩

/-! ## Reading the files -/

/-- The parts in which the comparisons of two files differ. -/
structure Validator (T H σ M : Type) where
  type : ValueType T
  /-- A line of the result file is put into the table. -/
  insert : ℕ → H → LineOf T → Except ValidateError H
  empty : H
  /-- The name of the reference in the errors of `parse_value`. -/
  referenceName : String
  start : σ
  lineno : σ → ℕ
  /-- A line of the reference is looked up in the table. -/
  step : H → σ → LineOf T → Except ValidateError (σ × Option M)
  last : H → σ → Option M

namespace Validator

variable {T H σ M : Type} (V : Validator T H σ M)

/-- The body of the loop over the result file. -/
def readLine (s : ℕ × H) (buffer : List UInt8) : Except TextError (ℕ × H) :=
  match parseValue V.type s.1 buffer "result" with
  | .error e => .error e
  | .ok line =>
    match V.insert s.1 s.2 line with
    | .error e => .error (.validate e)
    | .ok h => .ok (s.1 + 1, h)

/-- A line of the reference. -/
def textStep (h : H) (s : σ) (buffer : List UInt8) : Except TextError (σ × Option M) :=
  match parseValue V.type (V.lineno s) buffer V.referenceName with
  | .error e => .error e
  | .ok line =>
    match V.step h s line with
    | .error e => .error (.validate e)
    | .ok r => .ok r

/-- The loop over the result file, from the first line on. -/
def readResult (result : List UInt8) : Option (Except TextError (ℕ × H)) :=
  forEachLine bufferSz V.readLine (lineFuel result) (.openText result) (0, V.empty)

/-- The loop over the reference, which counts errors, and what is behind it. -/
def readReference (h : H) (expected : List UInt8) (maxNumErrors : ℕ) :
    Option (Except (Rejection TextError M) Unit) :=
  match forEachLine bufferSz (ErrorBudget.scanLine (V.textStep h) maxNumErrors) (lineFuel expected)
      (.openText expected) (V.start, 0) with
  | none => none
  | some (.error e) => some (.error e)
  | some (.ok s) => some (ErrorBudget.finish (V.last h) maxNumErrors s)

/-- A validation of two files that are open. -/
def run (result expected : List UInt8) (maxNumErrors : ℕ) :
    Option (Except (Rejection TextError M) Unit) :=
  match V.readResult result with
  | none => none
  | some (.error e) => some (.error (.fatal e))
  | some (.ok s) => V.readReference s.2 expected maxNumErrors

end Validator

/-- `exact_match`. The reference is opened first. -/
def exactValidator (vtxMap : Option VertexMap) (relabelValues : Bool) :
    Validator Int64 Results ℕ Mismatch where
  type := int64Type
  insert := fun lineno h line => readResults [line.toLine] lineno h
  empty := ∅
  referenceName := "expected"
  start := 0
  lineno := id
  step := fun h lineno line => exactStep h vtxMap relabelValues lineno line.toLine
  last := fun h lineno => if lineno < h.size then some (.moreResults h.size lineno) else none

/-- `epsilon_match`. -/
def epsilonValidator (strtod : List UInt8 → Value) (epsilon : ℚ) (vertexMap : Option VertexMap) :
    Validator Value (ResultsOf Value) ℕ EpsilonMismatch where
  type := doubleType strtod
  insert := insertResult
  empty := ∅
  referenceName := "expected"
  start := 0
  lineno := id
  step := fun h => epsilonStep h epsilon vertexMap
  last := epsilonLast

/-- `equivalence_match`. -/
def equivalenceValidator (vertexMap : Option VertexMap) :
    Validator Int64 Components Equivalence Mismatch where
  type := int64Type
  insert := fun _ components line => .ok (components.insert line.vertexId line.value)
  empty := ∅
  referenceName := "reference"
  start := .start
  lineno := Equivalence.lineno
  step := fun components s line => equivalenceStep components vertexMap s line.toLine
  last := fun components s =>
    if s.lineno < components.entries.length then
      some (.moreResults components.entries.length s.lineno)
    else none

/-- The files of `exact_match` and of `epsilon_match`: the reference is opened first. A file that
cannot be opened is none. -/
def openReferenceFirst {T H σ M : Type} (V : Validator T H σ M)
    (result expected : Option (List UInt8)) (maxNumErrors : ℕ) :
    Option (Except (Rejection TextError M) Unit) :=
  match expected, result with
  | none, _ => some (.error (.fatal .referenceNotAccessible))
  | some _, none => some (.error (.fatal .resultNotAccessible))
  | some expected, some result => V.run result expected maxNumErrors

/-- `exact_match`. -/
def exactMatchText (result expected : Option (List UInt8)) (maxNumErrors : ℕ)
    (vtxMap : Option VertexMap) (relabelValues : Bool) :
    Option (Except (Rejection TextError Mismatch) Unit) :=
  openReferenceFirst (exactValidator vtxMap relabelValues) result expected maxNumErrors

/-- `epsilon_match`. -/
def epsilonMatchText (strtod : List UInt8 → Value) (result expected : Option (List UInt8))
    (epsilon : ℚ) (maxNumErrors : ℕ) (vertexMap : Option VertexMap) :
    Option (Except (Rejection TextError EpsilonMismatch) Unit) :=
  openReferenceFirst (epsilonValidator strtod epsilon vertexMap) result expected maxNumErrors

/-- `equivalence_match`, which opens the result file first. -/
def equivalenceMatchText (result expected : Option (List UInt8)) (maxNumErrors : ℕ)
    (vertexMap : Option VertexMap) : Option (Except (Rejection TextError Mismatch) Unit) :=
  match result, expected with
  | none, _ => some (.error (.fatal .resultNotAccessible))
  | some _, none => some (.error (.fatal .referenceNotAccessible))
  | some result, some expected =>
    (equivalenceValidator vertexMap).run result expected maxNumErrors

/-! ## The lines of the files -/

namespace Validator

variable {T H σ M : Type} (V : Validator T H σ M)

/-- A line of the result file that was parsed. -/
def insertLine (s : ℕ × H) (line : LineOf T) : Except ValidateError (ℕ × H) :=
  match V.insert s.1 s.2 line with
  | .error e => .error e
  | .ok h => .ok (s.1 + 1, h)

/-- The lines of a reference are accepted, for a table. -/
def AcceptsReference (h : H) (es : List (LineOf T)) : Prop :=
  ∃ s, es.foldlM (ErrorBudget.silentLine (V.step h)) V.start = some s ∧ V.last h s = none

/-- The lines of two files are accepted. -/
def Accepts (rs es : List (LineOf T)) : Prop :=
  ∃ s, rs.foldlM V.insertLine (0, V.empty) = .ok s ∧ V.AcceptsReference s.2 es

/-- These texts are parsed to these lines. -/
def ParseTo (buffers : List (List UInt8)) (lines : List (LineOf T)) : Prop :=
  List.Forall₂ (fun buffer line => parseLine V.type buffer = some line) buffers lines

/-- The lines that the loops see in a text are parsed to these. -/
def Parses (text : List UInt8) (lines : List (LineOf T)) : Prop :=
  V.ParseTo (bufferLines bufferSz text) lines

variable {V}

theorem insertLine_eq (s : ℕ × H) (line : LineOf T) :
    V.insertLine s line = (V.insert s.1 s.2 line).map (Prod.mk (s.1 + 1)) := by
  unfold insertLine
  cases V.insert s.1 s.2 line <;> rfl

/-- A result file that is read in another way, up to the number of its lines. -/
theorem accepts_iff_of_read {rs es : List (LineOf T)} {read : Except ValidateError H}
    {lines : ℕ} (h : rs.foldlM V.insertLine (0, V.empty) = read.map (Prod.mk lines)) :
    V.Accepts rs es ↔ ∃ table, read = .ok table ∧ V.AcceptsReference table es := by
  rw [Accepts, h]
  cases read with
  | error e =>
    constructor
    · rintro ⟨s, hs, -⟩
      cases hs
    · rintro ⟨table, htable, -⟩
      cases htable
  | ok table =>
    constructor
    · rintro ⟨s, hs, haccepts⟩
      obtain rfl := Except.ok.inj hs
      exact ⟨table, rfl, haccepts⟩
    · rintro ⟨table', htable, haccepts⟩
      obtain rfl := Except.ok.inj htable
      exact ⟨_, rfl, haccepts⟩

theorem readLine_ok_iff {s s' : ℕ × H} {buffer : List UInt8} :
    V.readLine s buffer = .ok s' ↔
      ∃ line, parseLine V.type buffer = some line ∧ V.insertLine s line = .ok s' := by
  unfold readLine insertLine
  cases hparse : parseValue V.type s.1 buffer "result" with
  | error e =>
    rw [parseLine_eq_none hparse]
    simp
  | ok line =>
    rw [parseValue_ok_iff.mp hparse]
    cases hinsert : V.insert s.1 s.2 line <;> simp [hinsert]

theorem countLine_textStep_ok_iff {h : H} {s s' : σ × ℕ} {buffer : List UInt8} :
    ErrorBudget.countLine (V.textStep h) s buffer = .ok s' ↔
      ∃ line, parseLine V.type buffer = some line ∧
        ErrorBudget.countLine (V.step h) s line = .ok s' := by
  cases hparse : parseValue V.type (V.lineno s.1) buffer V.referenceName with
  | error e =>
    have htext : V.textStep h s.1 buffer = .error e := by
      rw [textStep, hparse]
    rw [ErrorBudget.countLine_of_error htext, parseLine_eq_none hparse]
    simp
  | ok line =>
    rw [parseValue_ok_iff.mp hparse]
    cases hstep : V.step h s.1 line with
    | error e =>
      have htext : V.textStep h s.1 buffer = .error (.validate e) := by
        rw [textStep, hparse]
        simp only [hstep]
      rw [ErrorBudget.countLine_of_error htext]
      simp [ErrorBudget.countLine_of_error hstep]
    | ok r =>
      obtain ⟨s₁, mismatch⟩ := r
      have htext : V.textStep h s.1 buffer = .ok (s₁, mismatch) := by
        rw [textStep, hparse]
        simp only [hstep]
      rw [ErrorBudget.countLine_of_ok htext]
      simp [ErrorBudget.countLine_of_ok hstep]

theorem foldlM_readLine_ok_iff {buffers : List (List UInt8)} {s s' : ℕ × H} :
    buffers.foldlM V.readLine s = .ok s' ↔
      ∃ rs, V.ParseTo buffers rs ∧ rs.foldlM V.insertLine s = .ok s' :=
  foldlM_decoded_iff _ fun _ _ _ => readLine_ok_iff

theorem foldlM_countLine_textStep_ok_iff {h : H} {buffers : List (List UInt8)} {s s' : σ × ℕ} :
    buffers.foldlM (ErrorBudget.countLine (V.textStep h)) s = .ok s' ↔
      ∃ es, V.ParseTo buffers es ∧ es.foldlM (ErrorBudget.countLine (V.step h)) s = .ok s' :=
  foldlM_decoded_iff _ fun _ _ _ => countLine_textStep_ok_iff

/-- **The result file is read**, as its lines are. -/
theorem readResult_eq (result : List UInt8) :
    V.readResult result = some ((bufferLines bufferSz result).foldlM V.readLine (0, V.empty)) := by
  apply forEachLine_open
  intro s
  exact ⟨_, by rw [readLine, parseValue_nil]⟩

/-- **The reference is gone through**, as its lines are. -/
theorem readReference_eq (h : H) (expected : List UInt8) (maxNumErrors : ℕ) :
    V.readReference h expected maxNumErrors =
      some (ErrorBudget.validate (V.textStep h) (V.last h) maxNumErrors
        (bufferLines bufferSz expected) V.start) := by
  have hempty : ∀ s, ∃ e, ErrorBudget.scanLine (V.textStep h) maxNumErrors s [] = .error e := by
    intro s
    exact ⟨_, by rw [ErrorBudget.scanLine, textStep, parseValue_nil]⟩
  rw [readReference, forEachLine_open hempty, ErrorBudget.validate]
  cases (bufferLines bufferSz expected).foldlM
    (ErrorBudget.scanLine (V.textStep h) maxNumErrors) (V.start, 0) <;> rfl

/-- The lines of a reference that are accepted. -/
theorem validate_textStep_ok_iff {h : H} {expected : List UInt8} {maxNumErrors : ℕ} :
    ErrorBudget.validate (V.textStep h) (V.last h) maxNumErrors (bufferLines bufferSz expected)
        V.start = .ok () ↔
      ∃ es, V.Parses expected es ∧ V.AcceptsReference h es := by
  rw [ErrorBudget.validate_ok_iff]
  constructor
  · rintro ⟨s, hsilent, hlast⟩
    have hcount := (ErrorBudget.foldlM_countLine_same_iff 0).mpr hsilent
    obtain ⟨es, hparses, hes⟩ := foldlM_countLine_textStep_ok_iff.mp hcount
    exact ⟨es, hparses, s, (ErrorBudget.foldlM_countLine_same_iff 0).mp hes, hlast⟩
  · rintro ⟨es, hparses, s, hsilent, hlast⟩
    have hcount := (ErrorBudget.foldlM_countLine_same_iff 0).mpr hsilent
    have htext := foldlM_countLine_textStep_ok_iff.mpr ⟨es, hparses, hcount⟩
    exact ⟨s, (ErrorBudget.foldlM_countLine_same_iff 0).mp htext, hlast⟩

/-- **A comparison of files accepts** when every line is parsed and the lines are accepted. -/
theorem run_ok_iff {result expected : List UInt8} {maxNumErrors : ℕ} :
    V.run result expected maxNumErrors = some (.ok ()) ↔
      ∃ rs es, V.Parses result rs ∧ V.Parses expected es ∧ V.Accepts rs es := by
  rw [run, readResult_eq]
  constructor
  · intro h
    cases hread : (bufferLines bufferSz result).foldlM V.readLine (0, V.empty) with
    | error e =>
      rw [hread] at h
      simp at h
    | ok s =>
      rw [hread] at h
      simp only [readReference_eq, Option.some.injEq] at h
      obtain ⟨es, hes, haccepts⟩ := validate_textStep_ok_iff.mp h
      obtain ⟨rs, hrs, hinsert⟩ := foldlM_readLine_ok_iff.mp hread
      exact ⟨rs, es, hrs, hes, s, hinsert, haccepts⟩
  · rintro ⟨rs, es, hrs, hes, s, hinsert, haccepts⟩
    rw [foldlM_readLine_ok_iff.mpr ⟨rs, hrs, hinsert⟩]
    simp only [readReference_eq, Option.some.injEq]
    exact validate_textStep_ok_iff.mpr ⟨es, hes, haccepts⟩

end Validator

/-! ## Well-formed files -/

/-- A line that is well-formed and shorter than the buffer, and what it is parsed to. -/
structure TextLine {T : Type} (type : ValueType T) where
  text : List UInt8
  line : LineOf T
  notNewline : newline ∉ text
  short : text.length < bufferSz
  parses : parseLine type text = some line

/-- The text of a file with these lines. The last one ends with a newline, or with the file. -/
def fileText (lines : List (List UInt8)) (lastTerminated : Bool) : List UInt8 :=
  if lastTerminated then terminated lines else (terminated lines).dropLast

/-- The lines that the loops look at. -/
def seen {α : Type} (lines : List α) (lastTerminated : Bool) : List α :=
  if lastTerminated then lines else lines.dropLast

/-- **The lines that the loops see** in a well-formed file. -/
theorem bufferLines_fileText {lines : List (List UInt8)}
    (hlines : ∀ l ∈ lines, newline ∉ l ∧ l.length < bufferSz) (lastTerminated : Bool) :
    bufferLines bufferSz (fileText lines lastTerminated) = seen lines lastTerminated := by
  cases lastTerminated with
  | true => exact bufferLines_terminated hlines (by decide)
  | false =>
    show bufferLines bufferSz (terminated lines).dropLast = lines.dropLast
    rcases List.eq_nil_or_concat lines with rfl | ⟨init, last, rfl⟩
    · exact bufferLines_terminated hlines (by decide)
    · rw [List.concat_eq_append] at hlines ⊢
      have htext : (terminated (init ++ [last])).dropLast = terminated init ++ last := by
        have happend : terminated (init ++ [last]) = (terminated init ++ last) ++ [newline] := by
          simp [terminated]
        rw [happend, List.dropLast_concat]
      rw [htext, List.dropLast_concat]
      apply bufferLines_append
      · intro l hl
        exact hlines l (List.mem_append_left _ hl)
      · exact hlines last (List.mem_append_right _ (List.mem_singleton_self last))

section FileText

variable {T H σ M : Type} {V : Validator T H σ M}

/-- A well-formed file is parsed to the lines that are looked at. -/
theorem parses_fileText_iff (lines : List (TextLine V.type)) (lastTerminated : Bool)
    (ls : List (LineOf T)) :
    V.Parses (fileText (lines.map TextLine.text) lastTerminated) ls ↔
      ls = seen (lines.map TextLine.line) lastTerminated := by
  have hlines : ∀ l ∈ lines.map TextLine.text, newline ∉ l ∧ l.length < bufferSz := by
    intro l hl
    obtain ⟨line, -, rfl⟩ := List.mem_map.mp hl
    exact ⟨line.notNewline, line.short⟩
  have hseen : ∀ {α : Type} (f : TextLine V.type → α),
      seen (lines.map f) lastTerminated = (seen lines lastTerminated).map f := by
    intro α f
    cases lastTerminated with
    | true => rfl
    | false => exact (List.map_dropLast ..).symm
  rw [Validator.Parses, bufferLines_fileText hlines, hseen, hseen, Validator.ParseTo]
  generalize seen lines lastTerminated = looked
  induction looked generalizing ls with
  | nil =>
    rw [List.map_nil, List.map_nil, List.forall₂_nil_left_iff]
  | cons line looked ih =>
    rw [List.map_cons, List.map_cons, List.forall₂_cons_left_iff]
    constructor
    · rintro ⟨b, u, hb, hu, rfl⟩
      rw [line.parses] at hb
      rw [Option.some.inj hb, (ih u).mp hu]
    · rintro rfl
      exact ⟨_, _, line.parses, (ih _).mpr rfl, rfl⟩

/-- **A comparison of well-formed files** accepts when the lines that are looked at are accepted. -/
theorem Validator.run_fileText (rs es : List (TextLine V.type)) (tr te : Bool)
    (maxNumErrors : ℕ) :
    V.run (fileText (rs.map TextLine.text) tr) (fileText (es.map TextLine.text) te) maxNumErrors =
        some (.ok ()) ↔
      V.Accepts (seen (rs.map TextLine.line) tr) (seen (es.map TextLine.line) te) := by
  rw [Validator.run_ok_iff]
  constructor
  · rintro ⟨ls, ls', hls, hls', haccepts⟩
    rw [parses_fileText_iff] at hls hls'
    rwa [hls, hls'] at haccepts
  · intro haccepts
    exact ⟨_, _, (parses_fileText_iff rs tr _).mpr rfl, (parses_fileText_iff es te _).mpr rfl,
      haccepts⟩

end FileText

/-! ## The three comparisons -/

section Comparisons

variable {vtxMap vertexMap : Option VertexMap} {relabelValues : Bool}
  {strtod : List UInt8 → Value} {epsilon : ℚ}

/-- The lines of the exact match: the result file has no duplicate, as many lines as the reference,
and every line of the reference after the relabelling. -/
def MatchExactly (vtxMap : Option VertexMap) (relabelValues : Bool) (rs es : List (LineOf Int64)) :
    Prop :=
  ((rs.map LineOf.toLine).map Line.vertexId).Nodup ∧ es.length = rs.length ∧
    ∀ e ∈ es, ∃ t, relabelled vtxMap relabelValues e.toLine = some t ∧ t ∈ rs.map LineOf.toLine

/-- The lines of the epsilon match, with values that are not too far in place of equal ones. -/
def MatchWithin (epsilon : ℚ) (vertexMap : Option VertexMap) (rs es : List (LineOf Value)) :
    Prop :=
  (rs.map LineOf.vertexId).Nodup ∧ es.length = rs.length ∧
    ∀ e ∈ es, GraphalyticsValidate.Accepts rs epsilon vertexMap e

/-- The lines of the equivalence match: the result file has a component for every line of the
reference, no more vertices than the reference has lines, and the components are paired. -/
def MatchEquivalent (vertexMap : Option VertexMap) (rs es : List (LineOf Int64)) : Prop :=
  (readComponents (rs.map LineOf.toLine) ∅).entries.length ≤ es.length ∧
    (∀ e ∈ es, (componentPair (readComponents (rs.map LineOf.toLine) ∅) vertexMap
      e.toLine).isSome) ∧
    Relator.BiUnique (Paired ((es.map LineOf.toLine).filterMap
      (componentPair (readComponents (rs.map LineOf.toLine) ∅) vertexMap)))

/-- A loop without errors, over lines with integers. -/
theorem foldlM_silentLine_toLine {σ : Type}
    (step : σ → Line → Except ValidateError (σ × Option Mismatch)) (es : List (LineOf Int64))
    (s : σ) :
    es.foldlM (ErrorBudget.silentLine fun s line => step s line.toLine) s =
      clean step (es.map LineOf.toLine) s := by
  induction es generalizing s with
  | nil => rfl
  | cons e es ih =>
    rw [List.foldlM_cons, List.map_cons, clean, ErrorBudget.silentLine]
    rcases hstep : step s e.toLine with f | ⟨s', _ | mismatch⟩
    · rfl
    · exact ih s'
    · rfl

/-- The result file of the exact match. -/
theorem foldlM_insertLine_exact (rs : List (LineOf Int64)) (lineno : ℕ) (h : Results) :
    rs.foldlM (exactValidator vtxMap relabelValues).insertLine (lineno, h) =
      (readResults (rs.map LineOf.toLine) lineno h).map (Prod.mk (lineno + rs.length)) := by
  induction rs generalizing lineno h with
  | nil => rfl
  | cons r rs ih =>
    rw [List.foldlM_cons, List.map_cons, readResults]
    cases hlookup : h.lookup r.toLine.vertexId with
    | some t =>
      have hline : (exactValidator vtxMap relabelValues).insertLine (lineno, h) r =
          .error (.duplicate lineno r.toLine.vertexId t.lineno) := by
        simp only [Validator.insertLine, exactValidator, readResults, hlookup]
      rw [hline]
      rfl
    | none =>
      have hline : (exactValidator vtxMap relabelValues).insertLine (lineno, h) r =
          .ok (lineno + 1,
            h.insert r.toLine.vertexId ⟨r.toLine.vertexId, r.toLine.value, lineno⟩) := by
        simp only [Validator.insertLine, exactValidator, readResults, hlookup]
      have hlength : lineno + (rs.length + 1) = lineno + 1 + rs.length := by omega
      rw [hline, List.length_cons, hlength]
      exact ih (lineno + 1) _

/-- **The exact match of files** is that of their lines. -/
theorem exactValidator_accepts_iff {rs es : List (LineOf Int64)} :
    (exactValidator vtxMap relabelValues).Accepts rs es ↔
      MatchExactly vtxMap relabelValues rs es := by
  have hmatch : exactMatch (rs.map LineOf.toLine) (es.map LineOf.toLine) 0 vtxMap relabelValues =
      .ok () ↔ _ := exactMatch_ok_iff_mem
  rw [List.length_map, List.length_map, List.forall_mem_map] at hmatch
  rw [MatchExactly, ← hmatch, exactMatch,
    Validator.accepts_iff_of_read (foldlM_insertLine_exact rs 0 ∅)]
  cases readResults (rs.map LineOf.toLine) 0 ∅ with
  | error e => simp
  | ok h =>
    simp only [Except.ok.injEq, exists_eq_left', conclude_ok_iff, Validator.AcceptsReference]
    exact exists_congr fun s => and_congr_left fun _ => by
      rw [← foldlM_silentLine_toLine]
      rfl

/-- The result file of the epsilon match. -/
theorem foldlM_insertLine_epsilon (rs : List (LineOf Value)) (lineno : ℕ) (h : ResultsOf Value) :
    rs.foldlM (epsilonValidator strtod epsilon vertexMap).insertLine (lineno, h) =
      (readResultsOf rs lineno h).map (Prod.mk (lineno + rs.length)) := by
  induction rs generalizing lineno h with
  | nil => rfl
  | cons r rs ih =>
    rw [List.foldlM_cons, readResultsOf]
    have hline : (epsilonValidator strtod epsilon vertexMap).insertLine (lineno, h) r =
        (insertResult lineno h r).map (Prod.mk (lineno + 1)) := Validator.insertLine_eq _ r
    rw [hline]
    cases insertResult lineno h r with
    | error e => rfl
    | ok h' =>
      have hlength : lineno + (rs.length + 1) = lineno + 1 + rs.length := by omega
      rw [List.length_cons, hlength]
      exact ih (lineno + 1) h'

/-- **The epsilon match of files** is that of their lines. -/
theorem epsilonValidator_accepts_iff {rs es : List (LineOf Value)} :
    (epsilonValidator strtod epsilon vertexMap).Accepts rs es ↔
      MatchWithin epsilon vertexMap rs es := by
  have hmatch : epsilonMatch rs es epsilon 0 vertexMap = .ok () ↔ _ := epsilonMatch_ok_iff_mem
  rw [MatchWithin, ← hmatch, epsilonMatch,
    Validator.accepts_iff_of_read (foldlM_insertLine_epsilon rs 0 ∅)]
  cases readResultsOf rs 0 ∅ with
  | error e => simp
  | ok h =>
    simp only [Except.ok.injEq, exists_eq_left', ErrorBudget.validate_ok_iff,
      Validator.AcceptsReference]
    rfl

/-- The result file of the equivalence match. -/
theorem foldlM_insertLine_equivalence (rs : List (LineOf Int64)) (lineno : ℕ)
    (components : Components) :
    rs.foldlM (equivalenceValidator vertexMap).insertLine (lineno, components) =
      (Except.ok (readComponents (rs.map LineOf.toLine) components)).map
        (Prod.mk (lineno + rs.length)) := by
  induction rs generalizing lineno components with
  | nil => rfl
  | cons r rs ih =>
    have hlength : lineno + (rs.length + 1) = lineno + 1 + rs.length := by omega
    rw [List.foldlM_cons, List.length_cons, hlength]
    exact ih (lineno + 1) _

/-- **The equivalence match of files** is that of their lines. -/
theorem equivalenceValidator_accepts_iff {rs es : List (LineOf Int64)} :
    (equivalenceValidator vertexMap).Accepts rs es ↔ MatchEquivalent vertexMap rs es := by
  have hmatch : equivalenceMatch (rs.map LineOf.toLine) (es.map LineOf.toLine) 0 vertexMap =
      .ok () ↔ _ := equivalenceMatch_ok_iff_biUnique
  rw [List.length_map, List.forall_mem_map] at hmatch
  rw [MatchEquivalent, ← hmatch, equivalenceMatch,
    Validator.accepts_iff_of_read (foldlM_insertLine_equivalence rs 0 ∅)]
  simp only [Except.ok.injEq, exists_eq_left', conclude_ok_iff, Validator.AcceptsReference]
  exact exists_congr fun s => and_congr_left fun _ => by
    rw [← foldlM_silentLine_toLine]
    rfl

end Comparisons

/-! ## The last newline -/

/-- The verdict on two files is the same, whether or not their last lines end with a newline. -/
def SameVerdict (accepts : List UInt8 → List UInt8 → Prop) (rs es : List (List UInt8)) : Prop :=
  ∀ tr te tr' te', accepts (fileText rs tr) (fileText es te) ↔
    accepts (fileText rs tr') (fileText es te')

section SameVerdict

variable {accepts : List UInt8 → List UInt8 → Prop} {T : Type} {type : ValueType T}
  {rs es : List (TextLine type)} {P : List (LineOf T) → List (LineOf T) → Prop}

/-- The verdict is always the same, or the files are always accepted, or never. -/
theorem sameVerdict_iff_forall
    (haccepts : ∀ tr te, accepts (fileText (rs.map TextLine.text) tr)
        (fileText (es.map TextLine.text) te) ↔
      P (seen (rs.map TextLine.line) tr) (seen (es.map TextLine.line) te)) :
    SameVerdict accepts (rs.map TextLine.text) (es.map TextLine.text) ↔
      (∀ tr te, P (seen (rs.map TextLine.line) tr) (seen (es.map TextLine.line) te)) ∨
        ∀ tr te, ¬P (seen (rs.map TextLine.line) tr) (seen (es.map TextLine.line) te) := by
  simp only [SameVerdict, haccepts]
  constructor
  · intro hsame
    by_cases hone : P (seen (rs.map TextLine.line) true) (seen (es.map TextLine.line) true)
    · exact Or.inl fun tr te => (hsame true true tr te).mp hone
    · exact Or.inr fun tr te h => hone ((hsame tr te true true).mp h)
  · rintro (hall | hnone) tr te tr' te'
    · exact iff_of_true (hall tr te) (hall tr' te')
    · exact iff_of_false (hnone tr te) (hnone tr' te')

/-- A comparison that accepts files of the same length only: files that are accepted are not
accepted without the last line of one of them. -/
theorem sameVerdict_iff_of_length
    (haccepts : ∀ tr te, accepts (fileText (rs.map TextLine.text) tr)
        (fileText (es.map TextLine.text) te) ↔
      P (seen (rs.map TextLine.line) tr) (seen (es.map TextLine.line) te))
    (hlength : ∀ ls ls', P ls ls' → ls'.length = ls.length) :
    SameVerdict accepts (rs.map TextLine.text) (es.map TextLine.text) ↔
      (rs = [] ∧ es = []) ∨
        ∀ tr te, ¬P (seen (rs.map TextLine.line) tr) (seen (es.map TextLine.line) te) := by
  constructor
  · intro hsame
    rcases (sameVerdict_iff_forall haccepts).mp hsame with hall | hnone
    · left
      have hboth := hlength _ _ (hall true true)
      have hresult := hlength _ _ (hall false true)
      have hreference := hlength _ _ (hall true false)
      simp only [seen, if_true, Bool.false_eq_true, if_false, List.length_dropLast,
        List.length_map] at hboth hresult hreference
      exact ⟨List.length_eq_zero_iff.mp (by omega), List.length_eq_zero_iff.mp (by omega)⟩
    · exact Or.inr hnone
  · rintro (⟨rfl, rfl⟩ | hnone)
    · -- there is no last line
      have hempty : ∀ t, fileText (([] : List (TextLine type)).map TextLine.text) t = [] := by
        intro t
        cases t <;> rfl
      intro tr te tr' te'
      rw [hempty, hempty, hempty, hempty]
    · exact (sameVerdict_iff_forall haccepts).mpr (Or.inr hnone)

end SameVerdict

section Equivalence

variable {vertexMap : Option VertexMap} {rs es : List (LineOf Int64)}

/-- The number of vertices in the result file of the equivalence match. -/
def numVertices (rs : List (LineOf Int64)) : ℕ :=
  (readComponents (rs.map LineOf.toLine) ∅).entries.length

theorem length_insert_components (components : Components) (v x : Int64) :
    0 < (components.insert v x).entries.length ∧
      components.entries.length ≤ (components.insert v x).entries.length := by
  have hkeys : ∀ l : List (Sigma fun _ : Int64 => Int64), l.length = l.keys.length := fun l =>
    (List.length_map _).symm
  rw [AList.entries_insert, List.length_cons, hkeys (List.kerase v components.entries),
    List.keys_kerase]
  have hle := List.le_length_erase (a := v) (l := components.entries.keys)
  rw [← hkeys] at hle
  omega

theorem numVertices_concat (init : List (LineOf Int64)) (last : LineOf Int64) :
    0 < numVertices (init ++ [last]) ∧ numVertices init ≤ numVertices (init ++ [last]) := by
  rw [numVertices, numVertices, List.map_append, readComponents, List.foldl_append,
    ← readComponents]
  exact length_insert_components _ _ _

/-- A reference without its last line is accepted if it is, and it still has a line for each
vertex of the result file. -/
theorem MatchEquivalent.of_concat {last : LineOf Int64}
    (h : MatchEquivalent vertexMap rs (es ++ [last])) (hlength : numVertices rs ≤ es.length) :
    MatchEquivalent vertexMap rs es := by
  obtain ⟨-, hsome, hbi⟩ := h
  rw [List.map_append, List.filterMap_append] at hbi
  exact ⟨hlength, fun e he => hsome e (List.mem_append_left _ he), biUnique_of_append hbi⟩

/-- **Files that are accepted** with and without their last lines: they are both empty, or the
reference has a line to spare and is accepted with and without the last line of the result file. -/
theorem forall_matchEquivalent_iff :
    (∀ tr te, MatchEquivalent vertexMap (seen rs tr) (seen es te)) ↔
      (rs = [] ∧ es = []) ∨ numVertices rs < es.length ∧ MatchEquivalent vertexMap rs es ∧
        MatchEquivalent vertexMap rs.dropLast es := by
  constructor
  · intro hall
    have hreference : MatchEquivalent vertexMap rs es.dropLast := hall true false
    have hle : numVertices rs ≤ es.length - 1 := by
      have hlength := hreference.1
      rwa [List.length_dropLast] at hlength
    rcases List.eq_nil_or_concat es with rfl | ⟨init, last, rfl⟩
    · left
      rcases List.eq_nil_or_concat rs with rfl | ⟨init, last, rfl⟩
      · exact ⟨rfl, rfl⟩
      · have hpos := (numVertices_concat init last).1
        rw [List.concat_eq_append, List.length_nil] at hle
        omega
    · right
      rw [List.concat_eq_append, List.length_append, List.length_singleton,
        Nat.add_sub_cancel] at hle
      refine ⟨?_, hall true true, hall false true⟩
      rw [List.concat_eq_append, List.length_append, List.length_singleton]
      omega
  · rintro (⟨rfl, rfl⟩ | ⟨hlt, hfull, hresult⟩) tr te
    · have hnil : ∀ t, seen ([] : List (LineOf Int64)) t = [] := by
        intro t
        cases t <;> rfl
      rw [hnil, hnil]
      exact ⟨le_rfl, by simp, biUnique_nil⟩
    · have hdrop : numVertices rs.dropLast ≤ numVertices rs := by
        rcases List.eq_nil_or_concat rs with rfl | ⟨init, last, rfl⟩
        · exact le_rfl
        · rw [List.concat_eq_append, List.dropLast_concat]
          exact (numVertices_concat init last).2
      rcases List.eq_nil_or_concat es with rfl | ⟨init, last, rfl⟩
      · exact absurd hlt (Nat.not_lt_zero _)
      · rw [List.concat_eq_append] at hlt hfull hresult ⊢
        rw [List.length_append, List.length_singleton] at hlt
        cases tr <;> cases te
        · show MatchEquivalent vertexMap rs.dropLast (init ++ [last]).dropLast
          rw [List.dropLast_concat]
          exact hresult.of_concat (by omega)
        · exact hresult
        · show MatchEquivalent vertexMap rs (init ++ [last]).dropLast
          rw [List.dropLast_concat]
          exact hfull.of_concat (by omega)
        · exact hfull

end Equivalence

/-- **When the last newline does not matter.** The verdict is the same on files without lines, and
on files that are rejected with all their lines and without the last line of either or both. Files
that are accepted have the same verdict in the equivalence match only, when the reference has more
lines than the result file has vertices, and the last line of the result file is not needed. -/
theorem sameVerdict_iff (strtod : List UInt8 → Value) (maxNumErrors : ℕ)
    (vertexMap : Option VertexMap) (relabelValues : Bool) (epsilon : ℚ)
    (rs es : List (TextLine int64Type)) (rs' es' : List (TextLine (doubleType strtod))) :
    (SameVerdict (fun result expected =>
        exactMatchText (some result) (some expected) maxNumErrors vertexMap relabelValues =
          some (.ok ())) (rs.map TextLine.text) (es.map TextLine.text) ↔
      (rs = [] ∧ es = []) ∨
        ∀ tr te, ¬MatchExactly vertexMap relabelValues (seen (rs.map TextLine.line) tr)
          (seen (es.map TextLine.line) te)) ∧
    (SameVerdict (fun result expected =>
        epsilonMatchText strtod (some result) (some expected) epsilon maxNumErrors vertexMap =
          some (.ok ())) (rs'.map TextLine.text) (es'.map TextLine.text) ↔
      (rs' = [] ∧ es' = []) ∨
        ∀ tr te, ¬MatchWithin epsilon vertexMap (seen (rs'.map TextLine.line) tr)
          (seen (es'.map TextLine.line) te)) ∧
    (SameVerdict (fun result expected =>
        equivalenceMatchText (some result) (some expected) maxNumErrors vertexMap =
          some (.ok ())) (rs.map TextLine.text) (es.map TextLine.text) ↔
      ((rs = [] ∧ es = []) ∨ numVertices (rs.map TextLine.line) < es.length ∧
          MatchEquivalent vertexMap (rs.map TextLine.line) (es.map TextLine.line) ∧
          MatchEquivalent vertexMap (rs.map TextLine.line).dropLast (es.map TextLine.line)) ∨
        ∀ tr te, ¬MatchEquivalent vertexMap (seen (rs.map TextLine.line) tr)
          (seen (es.map TextLine.line) te)) := by
  refine ⟨?_, ?_, ?_⟩
  · refine sameVerdict_iff_of_length (fun tr te => ?_) fun ls ls' h => h.2.1
    rw [← exactValidator_accepts_iff]
    exact Validator.run_fileText (V := exactValidator vertexMap relabelValues) rs es tr te _
  · refine sameVerdict_iff_of_length (fun tr te => ?_) fun ls ls' h => h.2.1
    rw [← epsilonValidator_accepts_iff]
    exact Validator.run_fileText (V := epsilonValidator strtod epsilon vertexMap) rs' es' tr te _
  · have hempty : ∀ {l : List (TextLine int64Type)}, l.map TextLine.line = [] ↔ l = [] :=
      List.map_eq_nil_iff
    have hlength : (es.map TextLine.line).length = es.length := List.length_map _
    rw [← hempty (l := rs), ← hempty (l := es), ← hlength, ← forall_matchEquivalent_iff]
    refine sameVerdict_iff_forall fun tr te => ?_
    rw [← equivalenceValidator_accepts_iff]
    exact Validator.run_fileText (V := equivalenceValidator vertexMap) rs es tr te _

/-- The wrong value of the last line is not seen in files that end without a newline: `1 5` and
`2 9` in the result, `1 5` and `2 6` in the reference. -/
theorem not_sameVerdict :
    ¬SameVerdict (fun result expected =>
      exactMatchText (some result) (some expected) 0 none false = some (.ok ()))
      [[49, 32, 53], [50, 32, 57]] [[49, 32, 53], [50, 32, 54]] := by
  intro hsame
  have haccepted : exactMatchText (some (fileText [[49, 32, 53], [50, 32, 57]] false))
      (some (fileText [[49, 32, 53], [50, 32, 54]] false)) 0 none false = some (.ok ()) := rfl
  have hrejected : exactMatchText (some (fileText [[49, 32, 53], [50, 32, 57]] true))
      (some (fileText [[49, 32, 53], [50, 32, 54]] true)) 0 none false =
        some (.error (.found 1)) := rfl
  have haccepted' := (hsame false false true true).mp haccepted
  cases hrejected.symm.trans haccepted'

end GraphalyticsValidate

end GfeDriver
