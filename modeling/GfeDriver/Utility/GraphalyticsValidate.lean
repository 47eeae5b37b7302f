import Mathlib.Data.List.AList
import Mathlib.Tactic

/-!
# The validation of a result against a reference

`GraphalyticsValidate` compares the output of an algorithm with a reference. The files are lists of
lines, each with a vertex and a value. An error is fatal, or it is counted: `ERROR_COUNT` raises the
first error if at most one is allowed, and otherwise counts errors up to a maximum; `ERROR_EXIT`
raises if there was one. Whatever the maximum is, a validation ends without an exception exactly
when no error was found.

`exact_match` reads the results into a hash table, goes through the reference, and compares the
number of lines with the size of the table, at each line and once more at the end. Line numbers and
error counts do not overflow.

## Main definitions

* `Line`, `VertexMap`: a line of a file, and a map of the vertices of the reference
* `scan`: a loop over the lines of a file that counts errors
* `readResults`, `relabel`, `exactMatch`: the exact match
* `valueAt`: the function from vertices to values in a file

## Main results

* `scan_ok_iff`: a loop ends without errors when none of its steps finds one
* `readResults_ok_iff`: the results are read if and only if no vertex is a duplicate
* `exactMatch_ok_iff`: the exact match accepts equal functions
-/

namespace GfeDriver

namespace GraphalyticsValidate

/-! ## Errors -/

/-- A line of a file: a vertex and its value. -/
structure Line where
  vertexId : Int64
  value : Int64
  deriving DecidableEq

/-- The errors that are counted. -/
inductive Mismatch
  | moreReference (lineno : ℕ)
  | missing (lineno : ℕ) (vertexId : Int64)
  | wrongVertex (linenoResult lineno : ℕ) (retrieved expected : Int64)
  | wrongValue (linenoResult lineno : ℕ) (vertexId retrieved expected : Int64)
  | merged (lineno : ℕ) (vertexId component : Int64)
  | wrongMapping (lineno : ℕ) (vertexId component expected reference : Int64)
  | moreResults (results lineno : ℕ)

/-- `GraphalyticsValidateError`: an error that is not counted, a single one, the maximum number of
them, or the sum of them. -/
inductive ValidateError
  | duplicate (lineno : ℕ) (vertexId : Int64) (previous : ℕ)
  | cannotRemapVertex (lineno : ℕ) (vertexId : Int64)
  | cannotRemapValue (lineno : ℕ) (value : Int64)
  | undefinedBehaviour
  | single (mismatch : Mismatch)
  | reachedMaximum (maxNumErrors : ℕ)
  | found (errorCount : ℕ)

/-- `ERROR_COUNT`. -/
def errorCount (maxNumErrors count : ℕ) (mismatch : Mismatch) : Except ValidateError ℕ :=
  if maxNumErrors = 1 then .error (.single mismatch)
  else if 1 < maxNumErrors ∧ count + 1 = maxNumErrors then .error (.reachedMaximum maxNumErrors)
  else .ok (count + 1)

/-- `ERROR_EXIT`. -/
def errorExit (count : ℕ) : Except ValidateError Unit :=
  if 0 < count then .error (.found count) else .ok ()

/-- The error of a line, if any, is counted. -/
def report (maxNumErrors count : ℕ) : Option Mismatch → Except ValidateError ℕ
  | none => .ok count
  | some mismatch => errorCount maxNumErrors count mismatch

section Scan

variable {σ : Type} (step : σ → Line → Except ValidateError (σ × Option Mismatch))
  (maxNumErrors : ℕ)

/-- A loop over the lines of a file. A step raises, or gives the next state and the error to
count. -/
def scan : List Line → σ → ℕ → Except ValidateError (σ × ℕ)
  | [], s, count => .ok (s, count)
  | line :: rest, s, count =>
    match step s line with
    | .error e => .error e
    | .ok (s', mismatch) =>
      match report maxNumErrors count mismatch with
      | .error e => .error e
      | .ok count' => scan rest s' count'

/-- The end of a validation: one more error to count, and `ERROR_EXIT`. -/
def conclude (last : σ → Option Mismatch) (result : Except ValidateError (σ × ℕ)) :
    Except ValidateError Unit :=
  match result with
  | .error e => .error e
  | .ok (s, count) =>
    match report maxNumErrors count (last s) with
    | .error e => .error e
    | .ok count' => errorExit count'

/-- The state after a loop in which no step finds an error. -/
def clean : List Line → σ → Option σ
  | [], s => some s
  | line :: rest, s =>
    match step s line with
    | .ok (s', none) => clean rest s'
    | _ => none

variable {maxNumErrors}

/-- A counted error is not forgotten. -/
theorem report_pos {count count' : ℕ} {mismatch : Option Mismatch}
    (h : report maxNumErrors count mismatch = .ok count') (hpos : 0 < count ∨ mismatch ≠ none) :
    0 < count' := by
  cases mismatch with
  | none =>
    obtain rfl := Except.ok.inj h
    simpa using hpos
  | some mismatch =>
    simp only [report, errorCount] at h
    split_ifs at h
    obtain rfl := Except.ok.inj h
    exact Nat.succ_pos count

variable {step}

theorem scan_pos {lines : List Line} {s s' : σ} {count count' : ℕ} (hpos : 0 < count)
    (h : scan step maxNumErrors lines s count = .ok (s', count')) : 0 < count' := by
  induction lines generalizing s count with
  | nil =>
    simp only [scan, Except.ok.injEq, Prod.mk.injEq] at h
    exact h.2 ▸ hpos
  | cons line rest ih =>
    simp only [scan] at h
    split at h
    · cases h
    · split at h
      · cases h
      · rename_i hreport
        -- errors are only added
        exact ih (report_pos hreport (Or.inl hpos)) h

/-- **A loop without errors.** -/
theorem scan_ok_iff {lines : List Line} {s s' : σ} :
    scan step maxNumErrors lines s 0 = .ok (s', 0) ↔ clean step lines s = some s' := by
  induction lines generalizing s with
  | nil => simp [scan, clean]
  | cons line rest ih =>
    simp only [scan, clean]
    cases hstep : step s line with
    | error e => simp
    | ok result =>
      obtain ⟨s₁, mismatch⟩ := result
      cases mismatch with
      | none => exact ih
      | some mismatch =>
        -- an error is fatal at once, or it is counted and the count stays positive
        simp only [reduceCtorEq, iff_false]
        intro h
        split at h
        · cases h
        · rename_i hreport
          exact lt_irrefl 0 (scan_pos (report_pos hreport (Or.inr (by simp))) h)

/-- **A validation ends without an exception** exactly when there is no error. -/
theorem conclude_ok_iff {last : σ → Option Mismatch} {lines : List Line} {s : σ} :
    conclude maxNumErrors last (scan step maxNumErrors lines s 0) = .ok () ↔
      ∃ s', clean step lines s = some s' ∧ last s' = none := by
  constructor
  · intro h
    unfold conclude at h
    split at h
    · cases h
    · rename_i s' count hscan
      split at h
      · cases h
      · rename_i count' hreport
        -- `ERROR_EXIT` did not raise, so neither the loop nor the last check found an error
        have hzero : ¬0 < count' := by
          intro hpos
          rw [errorExit, if_pos hpos] at h
          cases h
        have hcount : count = 0 := by
          by_contra hne
          exact hzero (report_pos hreport (Or.inl (Nat.pos_of_ne_zero hne)))
        subst hcount
        refine ⟨s', scan_ok_iff.mp hscan, ?_⟩
        by_contra hne
        exact hzero (report_pos hreport (Or.inr hne))
  · rintro ⟨s', hclean, hlast⟩
    rw [scan_ok_iff.mpr hclean]
    simp [conclude, hlast, report, errorExit]

end Scan

/-! ## Tables -/

section Table

variable {β : Type} (value : β → Int64)

/-- The lines in a hash table from vertices. -/
def toLines (h : AList fun _ : Int64 => β) : List Line :=
  h.entries.map fun e => ⟨e.1, value e.2⟩

/-- The function from vertices to values in a file. -/
def valueAt (lines : List Line) (v : Int64) : Option Int64 :=
  (lines.find? fun line => line.vertexId = v).map Line.value

variable {value}

theorem mem_toLines {h : AList fun _ : Int64 => β} {line : Line} :
    line ∈ toLines value h ↔ ∃ t, h.lookup line.vertexId = some t ∧ value t = line.value := by
  obtain ⟨v, x⟩ := line
  simp only [toLines, List.mem_map, Line.mk.injEq]
  constructor
  · rintro ⟨⟨v', t⟩, hmem, rfl, rfl⟩
    exact ⟨t, AList.mem_lookup_iff.mpr hmem, rfl⟩
  · rintro ⟨t, hlookup, rfl⟩
    exact ⟨⟨v, t⟩, AList.mem_lookup_iff.mp hlookup, rfl, rfl⟩

@[simp] theorem toLines_empty : toLines value ∅ = [] :=
  rfl

@[simp] theorem length_toLines (h : AList fun _ : Int64 => β) :
    (toLines value h).length = h.entries.length := by
  simp [toLines]

/-- A table has one value for a vertex. -/
theorem nodup_toLines (h : AList fun _ : Int64 => β) :
    ((toLines value h).map Line.vertexId).Nodup := by
  have heq : (toLines value h).map Line.vertexId = h.keys := by
    simp [toLines, AList.keys, List.keys, Function.comp_def]
  rw [heq]
  exact h.keys_nodup

theorem toLines_insert {h : AList fun _ : Int64 => β} {v : Int64} (t : β)
    (hfresh : h.lookup v = none) :
    toLines value (h.insert v t) = ⟨v, value t⟩ :: toLines value h := by
  rw [toLines, AList.entries_insert_of_notMem (AList.lookup_eq_none.mp hfresh), List.map_cons]
  rfl

/-- A vertex is not in a table if and only if no line has it. -/
theorem lookup_eq_none_iff {h : AList fun _ : Int64 => β} {v : Int64} :
    h.lookup v = none ↔ v ∉ (toLines value h).map Line.vertexId := by
  rw [AList.lookup_eq_none, AList.mem_keys]
  simp [toLines, AList.keys, List.keys, Function.comp_def]

theorem nodup_of_nodup_vertexId {lines : List Line} (h : (lines.map Line.vertexId).Nodup) :
    lines.Nodup :=
  List.Nodup.of_map Line.vertexId h

theorem valueAt_isSome_iff {lines : List Line} {v : Int64} :
    (valueAt lines v).isSome ↔ v ∈ lines.map Line.vertexId := by
  simp [valueAt]

/-- **The function in a file** without duplicates. -/
theorem valueAt_eq_some_iff {lines : List Line} (h : (lines.map Line.vertexId).Nodup)
    {v x : Int64} : valueAt lines v = some x ↔ ⟨v, x⟩ ∈ lines := by
  induction lines with
  | nil => simp [valueAt]
  | cons line rest ih =>
    rw [List.map_cons, List.nodup_cons] at h
    by_cases hv : line.vertexId = v
    · subst hv
      -- the first line has this vertex, and no other does
      have hnot : (⟨line.vertexId, x⟩ : Line) ∉ rest :=
        fun hmem => h.1 (List.mem_map.mpr ⟨_, hmem, rfl⟩)
      simp only [valueAt, List.find?_cons_of_pos, decide_true, Option.map_some, Option.some.injEq,
        List.mem_cons, hnot, or_false]
      constructor
      · rintro rfl
        rfl
      · rintro heq
        rw [← heq]
    · have hne : (⟨v, x⟩ : Line) ≠ line := by
        rintro rfl
        exact hv rfl
      rw [List.mem_cons, or_iff_right hne, ← ih h.2]
      simp [valueAt, hv]

/-- **Two files have the same function** if and only if one is a permutation of the other. -/
theorem valueAt_eq_iff_perm {lines lines' : List Line} (h : (lines.map Line.vertexId).Nodup)
    (h' : (lines'.map Line.vertexId).Nodup) :
    (∀ v, valueAt lines v = valueAt lines' v) ↔ lines.Perm lines' := by
  rw [List.perm_ext_iff_of_nodup (nodup_of_nodup_vertexId h) (nodup_of_nodup_vertexId h')]
  constructor
  · rintro heq ⟨v, x⟩
    rw [← valueAt_eq_some_iff h, ← valueAt_eq_some_iff h', heq]
  · intro hmem v
    apply Option.ext
    intro x
    rw [valueAt_eq_some_iff h, valueAt_eq_some_iff h', hmem]

end Table

/-! ## The vertex map -/

/-- `vertex_map_t`. -/
abbrev VertexMap := UInt64 → Option UInt64

/-- `vtx_map->find`, with the conversions between signed and unsigned integers. -/
def VertexMap.remap (m : VertexMap) (x : Int64) : Option Int64 :=
  (m x.toUInt64).map UInt64.toInt64

/-- `relabel`: a vertex, and possibly its value. There is nothing to relabel without a map. -/
def relabel (line : Line) (lineno : ℕ) (vtxMap : Option VertexMap) (relabelValue : Bool) :
    Except ValidateError Line :=
  match vtxMap with
  | none => .ok line
  | some m =>
    match m.remap line.vertexId with
    | none => .error (.cannotRemapVertex lineno line.vertexId)
    | some v =>
      if relabelValue then
        match m.remap line.value with
        | none => .error (.cannotRemapValue lineno line.value)
        | some x => .ok ⟨v, x⟩
      else .ok ⟨v, line.value⟩

/-- The image of a vertex of the reference. -/
def vertexOf (vtxMap : Option VertexMap) (v : Int64) : Option Int64 :=
  match vtxMap with
  | none => some v
  | some m => m.remap v

/-- The image of a line of the reference. -/
def relabelled (vtxMap : Option VertexMap) (relabelValue : Bool) (line : Line) : Option Line :=
  (vertexOf vtxMap line.vertexId).bind fun v =>
    (if relabelValue then vertexOf vtxMap line.value else some line.value).map fun x => ⟨v, x⟩

/-- A map relabels a reference: it is injective, and defined on the vertices and, when they are
relabelled, on the values. -/
structure Relabels (vtxMap : Option VertexMap) (relabelValue : Bool) (expected : List Line) :
    Prop where
  injective : ∀ m ∈ vtxMap, ∀ a b c, m a = some c → m b = some c → a = b
  vertices : ∀ line ∈ expected, (vertexOf vtxMap line.vertexId).isSome
  values : relabelValue → ∀ line ∈ expected, (vertexOf vtxMap line.value).isSome

theorem relabel_ok_iff {line : Line} {lineno : ℕ} {vtxMap : Option VertexMap}
    {relabelValue : Bool} {t : Line} :
    relabel line lineno vtxMap relabelValue = .ok t ↔
      relabelled vtxMap relabelValue line = some t := by
  cases vtxMap with
  | none => cases relabelValue <;> simp [relabel, relabelled, vertexOf]
  | some m =>
    simp only [relabel, relabelled, vertexOf]
    cases m.remap line.vertexId with
    | none => simp
    | some v =>
      cases relabelValue with
      | false => simp
      | true => cases m.remap line.value <;> simp

/-- A shift of the vertices relabels every file. -/
theorem relabels_shift (n : UInt64) (expected : List Line) :
    Relabels (some fun x => some (x + n)) false expected := by
  refine ⟨?_, by simp [vertexOf, VertexMap.remap], by simp⟩
  rintro m hm a b c ha hb
  obtain rfl := Option.some.inj hm
  exact (UInt64.add_left_inj n).mp (Option.some.inj (ha.trans hb.symm))

section Relabels

variable {vtxMap : Option VertexMap} {relabelValue : Bool} {expected : List Line}

theorem relabelled_vertexId {line t : Line}
    (h : relabelled vtxMap relabelValue line = some t) :
    vertexOf vtxMap line.vertexId = some t.vertexId := by
  obtain ⟨v, hv, ht⟩ := Option.bind_eq_some_iff.mp h
  obtain ⟨x, -, rfl⟩ := Option.map_eq_some_iff.mp ht
  exact hv

theorem vertexOf_injective (hinj : ∀ m ∈ vtxMap, ∀ a b c, m a = some c → m b = some c → a = b)
    {v v' w : Int64} (h : vertexOf vtxMap v = some w) (h' : vertexOf vtxMap v' = some w) :
    v = v' := by
  cases vtxMap with
  | none => exact (Option.some.inj h).trans (Option.some.inj h').symm
  | some m =>
    obtain ⟨c, hc, hw⟩ := Option.map_eq_some_iff.mp h
    obtain ⟨c', hc', hw'⟩ := Option.map_eq_some_iff.mp h'
    -- the conversions between signed and unsigned integers lose nothing
    have hcc : c = c' := by simpa using congrArg Int64.toUInt64 (hw.trans hw'.symm)
    subst hcc
    simpa using congrArg UInt64.toInt64 (hinj m rfl _ _ _ hc hc')

variable (hmap : Relabels vtxMap relabelValue expected)
include hmap

theorem Relabels.isSome {line : Line} (hline : line ∈ expected) :
    ∃ t, relabelled vtxMap relabelValue line = some t := by
  obtain ⟨v, hv⟩ := Option.isSome_iff_exists.mp (hmap.vertices line hline)
  cases hvalue : relabelValue with
  | false => exact ⟨⟨v, line.value⟩, by simp [relabelled, hv]⟩
  | true =>
    obtain ⟨x, hx⟩ := Option.isSome_iff_exists.mp (hmap.values hvalue line hline)
    exact ⟨⟨v, x⟩, by simp [relabelled, hv, hx]⟩

theorem Relabels.length_filterMap :
    (expected.filterMap (relabelled vtxMap relabelValue)).length = expected.length := by
  rw [List.filterMap_length_eq_length]
  intro line hline
  obtain ⟨t, ht⟩ := hmap.isSome hline
  simp [ht]

/-- An injective map makes no duplicate. -/
theorem Relabels.nodup_filterMap (hnodup : (expected.map Line.vertexId).Nodup) :
    ((expected.filterMap (relabelled vtxMap relabelValue)).map Line.vertexId).Nodup := by
  rw [List.Nodup, List.pairwise_map] at hnodup ⊢
  rw [List.pairwise_filterMap]
  refine hnodup.imp ?_
  intro line line' hne t ht t' ht' heq
  apply hne
  refine vertexOf_injective hmap.injective (relabelled_vertexId ht) ?_
  rw [heq]
  exact relabelled_vertexId ht'

end Relabels

/-! ## Exact match -/

/-- `Tuple`: a line of the result file and its number. -/
structure Tuple where
  vertexId : Int64
  value : Int64
  lineno : ℕ

/-- The hash table of the results. -/
abbrev Results := AList fun _ : Int64 => Tuple

/-- `size()`. -/
abbrev Results.size (h : Results) : ℕ :=
  h.entries.length

/-- `read_results`. -/
def readResults : List Line → ℕ → Results → Except ValidateError Results
  | [], _, h => .ok h
  | line :: rest, lineno, h =>
    match h.lookup line.vertexId with
    | some t => .error (.duplicate lineno line.vertexId t.lineno)
    | none =>
      readResults rest (lineno + 1)
        (h.insert line.vertexId ⟨line.vertexId, line.value, lineno⟩)

/-- The error of a relabelled line of the reference. -/
def exactMismatch (h : Results) (lineno : ℕ) (t : Line) : Option Mismatch :=
  if h.size ≤ lineno then some (.moreReference lineno)
  else
    match h.lookup t.vertexId with
    | none => some (.missing lineno t.vertexId)
    | some r =>
      if r.vertexId ≠ t.vertexId then
        some (.wrongVertex r.lineno lineno r.vertexId t.vertexId)
      else if t.value ≠ r.value then
        some (.wrongValue r.lineno lineno r.vertexId r.value t.value)
      else none

/-- A line of the reference in `exact_match`. -/
def exactStep (h : Results) (vtxMap : Option VertexMap) (relabelValues : Bool) (lineno : ℕ)
    (line : Line) : Except ValidateError (ℕ × Option Mismatch) :=
  match relabel line lineno vtxMap relabelValues with
  | .error e => .error e
  | .ok t => .ok (lineno + 1, exactMismatch h lineno t)

/-- `exact_match`. -/
def exactMatch (result expected : List Line) (maxNumErrors : ℕ) (vtxMap : Option VertexMap)
    (relabelValues : Bool) : Except ValidateError Unit :=
  match readResults result 0 ∅ with
  | .error e => .error e
  | .ok h =>
    conclude maxNumErrors
      (fun lineno => if lineno < h.size then some (.moreResults h.size lineno) else none)
      (scan (exactStep h vtxMap relabelValues) maxNumErrors expected 0 0)

/-- `bfs`. -/
def bfs (result expected : List Line) (maxNumErrors : ℕ) (vtxMap : Option VertexMap) :
    Except ValidateError Unit :=
  exactMatch result expected maxNumErrors vtxMap false

/-- `cdlp`. -/
def cdlp (result expected : List Line) (maxNumErrors : ℕ) (vtxMap : Option VertexMap) :
    Except ValidateError Unit :=
  exactMatch result expected maxNumErrors vtxMap true

/-- The index of the table is the vertex itself. -/
def Indexed (h : Results) : Prop :=
  ∀ v t, h.lookup v = some t → t.vertexId = v

theorem indexed_empty : Indexed ∅ := by
  intro v t h
  simp at h

theorem Indexed.insert {h : Results} (hindex : Indexed h) (line : Line) (lineno : ℕ) :
    Indexed (h.insert line.vertexId ⟨line.vertexId, line.value, lineno⟩) := by
  intro v t hlookup
  by_cases hv : v = line.vertexId
  · subst hv
    rw [AList.lookup_insert] at hlookup
    obtain rfl := Option.some.inj hlookup
    rfl
  · rw [AList.lookup_insert_ne hv] at hlookup
    exact hindex v t hlookup

/-- The table after the file was read. -/
theorem readResults_spec {lines : List Line} {lineno : ℕ} {h h' : Results} (hindex : Indexed h)
    (hread : readResults lines lineno h = .ok h') :
    Indexed h' ∧ toLines Tuple.value h' = lines.reverse ++ toLines Tuple.value h := by
  induction lines generalizing lineno h with
  | nil =>
    obtain rfl := Except.ok.inj hread
    exact ⟨hindex, rfl⟩
  | cons line rest ih =>
    simp only [readResults] at hread
    split at hread
    · cases hread
    · rename_i hfresh
      -- `insert` succeeded, so the vertex was not in the table
      obtain ⟨hindex', hlines⟩ := ih (hindex.insert line lineno) hread
      refine ⟨hindex', ?_⟩
      rw [hlines, toLines_insert _ hfresh]
      simp

/-- A file without duplicates is read. -/
theorem readResults_isOk {lines : List Line} {lineno : ℕ} {h : Results}
    (hnodup : (lines.map Line.vertexId ++ (toLines Tuple.value h).map Line.vertexId).Nodup) :
    ∃ h', readResults lines lineno h = .ok h' := by
  induction lines generalizing lineno h with
  | nil => exact ⟨h, rfl⟩
  | cons line rest ih =>
    rw [List.map_cons, List.cons_append, List.nodup_cons, List.mem_append, not_or] at hnodup
    have hfresh : h.lookup line.vertexId = none := lookup_eq_none_iff.mpr hnodup.1.2
    simp only [readResults, hfresh]
    apply ih
    rw [toLines_insert _ hfresh, List.map_cons, List.nodup_middle, List.nodup_cons,
      List.mem_append, not_or]
    exact hnodup

/-- **The results are read** if and only if no vertex is a duplicate, and then the table has the
lines of the file. -/
theorem readResults_ok_iff {lines : List Line} :
    (∃ h, readResults lines 0 ∅ = .ok h) ↔ (lines.map Line.vertexId).Nodup := by
  constructor
  · rintro ⟨h, hread⟩
    obtain ⟨-, hlines⟩ := readResults_spec indexed_empty hread
    have hnodup : ((toLines Tuple.value h).map Line.vertexId).Nodup := nodup_toLines h
    rw [hlines] at hnodup
    simpa using hnodup
  · intro hnodup
    apply readResults_isOk
    simpa using hnodup

section ExactMatch

variable {h : Results} {vtxMap : Option VertexMap} {relabelValues : Bool}

/-- A line has no error when its number is less than the size of the table and the table has it. -/
theorem exactMismatch_eq_none_iff (hindex : Indexed h) {lineno : ℕ} {t : Line} :
    exactMismatch h lineno t = none ↔ lineno < h.size ∧ t ∈ toLines Tuple.value h := by
  rw [mem_toLines]
  unfold exactMismatch
  by_cases hsize : h.size ≤ lineno
  · simp [hsize, Nat.not_lt.mpr hsize]
  · cases hlookup : h.lookup t.vertexId with
    | none => simp [hsize]
    | some r =>
      have hvertex : r.vertexId = t.vertexId := hindex _ _ hlookup
      simp [hsize, hvertex, Nat.not_le.mp hsize, eq_comm]

/-- **The loop of `exact_match`**: it finds no error when the table has every line of the reference
and these are not more than the lines of the table. -/
theorem clean_exactStep_iff (hindex : Indexed h) {expected : List Line} {lineno n : ℕ}
    (hlineno : lineno ≤ h.size) :
    clean (exactStep h vtxMap relabelValues) expected lineno = some n ↔
      n = lineno + expected.length ∧ n ≤ h.size ∧
        ∀ line ∈ expected, ∃ t, relabelled vtxMap relabelValues line = some t ∧
          t ∈ toLines Tuple.value h := by
  induction expected generalizing lineno with
  | nil =>
    simp only [clean, Option.some.injEq, List.length_nil, Nat.add_zero, List.not_mem_nil,
      IsEmpty.forall_iff, implies_true, and_true]
    omega
  | cons line rest ih =>
    rw [List.forall_mem_cons, List.length_cons]
    simp only [clean, exactStep]
    cases hrelabel : relabel line lineno vtxMap relabelValues with
    | error e =>
      -- a line that cannot be relabelled is fatal, and it has no image
      have hnone : ¬∃ t, relabelled vtxMap relabelValues line = some t ∧
          t ∈ toLines Tuple.value h := by
        rintro ⟨t, ht, -⟩
        rw [relabel_ok_iff.mpr ht] at hrelabel
        cases hrelabel
      simp [hnone]
    | ok t =>
      rw [relabel_ok_iff] at hrelabel
      cases hmismatch : exactMismatch h lineno t with
      | none =>
        -- a line without an error leaves the counter within the size of the table
        obtain ⟨hlt, hmem⟩ := (exactMismatch_eq_none_iff hindex).mp hmismatch
        simp only [hmismatch, ih hlt, hrelabel, Option.some.injEq, exists_eq_left', hmem, true_and]
        rw [Nat.succ_add_eq_add_succ]
      | some mismatch =>
        -- an error: the counter reached the size of the table, or the line is not in it
        have hnot : ¬(lineno < h.size ∧ t ∈ toLines Tuple.value h) := by
          rw [← exactMismatch_eq_none_iff hindex, hmismatch]
          simp
        simp only [hmismatch, reduceCtorEq, hrelabel, Option.some.injEq, exists_eq_left', false_iff]
        rintro ⟨rfl, hle, hmem, -⟩
        exact hnot ⟨by omega, hmem⟩

/-- The exact match as a comparison of lists: the table has every line of the reference, and the
files are of the same length. -/
theorem exactMatch_ok_iff_mem {result expected : List Line} {maxNumErrors : ℕ} :
    exactMatch result expected maxNumErrors vtxMap relabelValues = .ok () ↔
      (result.map Line.vertexId).Nodup ∧ expected.length = result.length ∧
        ∀ line ∈ expected, ∃ t, relabelled vtxMap relabelValues line = some t ∧ t ∈ result := by
  rw [← readResults_ok_iff]
  unfold exactMatch
  cases hread : readResults result 0 ∅ with
  | error e => simp
  | ok h =>
    obtain ⟨hindex, hlines⟩ := readResults_spec indexed_empty hread
    have hmem : ∀ t, t ∈ toLines Tuple.value h ↔ t ∈ result := by
      intro t
      simp [hlines]
    have hsize : h.size = result.length := by
      have hlength := congrArg List.length hlines
      simpa using hlength
    simp only [conclude_ok_iff, clean_exactStep_iff hindex (Nat.zero_le _), hmem, hsize,
      Except.ok.injEq, exists_eq', true_and]
    constructor
    -- the two checks of the counter leave one length
    · rintro ⟨n, ⟨hn, hle, hall⟩, hlast⟩
      refine ⟨?_, hall⟩
      split_ifs at hlast with hlt
      omega
    · rintro ⟨hlength, hall⟩
      refine ⟨result.length, ⟨by omega, le_refl _, hall⟩, by simp⟩

/-- **The exact match accepts equal functions.** If the reference has no duplicate vertex and the
map relabels it, a validation ends without an exception if and only if the result file has no
duplicate vertex and its function is the relabelled function of the reference. -/
theorem exactMatch_ok_iff (result expected : List Line) (maxNumErrors : ℕ)
    (hmap : Relabels vtxMap relabelValues expected)
    (hnodup : (expected.map Line.vertexId).Nodup) :
    exactMatch result expected maxNumErrors vtxMap relabelValues = .ok () ↔
      (result.map Line.vertexId).Nodup ∧
        ∀ v, valueAt result v =
          valueAt (expected.filterMap (relabelled vtxMap relabelValues)) v := by
  rw [exactMatch_ok_iff_mem]
  refine and_congr_right fun hresult => ?_
  have himage := hmap.nodup_filterMap hnodup
  rw [valueAt_eq_iff_perm hresult himage, ← hmap.length_filterMap]
  constructor
  · rintro ⟨hlength, hall⟩
    -- every line of the reference has an image, which the result has
    have hsub : expected.filterMap (relabelled vtxMap relabelValues) ⊆ result := by
      intro t ht
      obtain ⟨line, hline, hrelabel⟩ := List.mem_filterMap.mp ht
      obtain ⟨t', ht', hmem⟩ := hall line hline
      rw [hrelabel] at ht'
      exact Option.some.inj ht' ▸ hmem
    -- the lines of the reference are as many as those of the result, so there is no other line
    have hsubperm := (nodup_of_nodup_vertexId himage).subperm hsub
    exact (hsubperm.perm_of_length_le hlength.ge).symm
  · intro hperm
    refine ⟨hperm.length_eq.symm, ?_⟩
    intro line hline
    obtain ⟨t, ht⟩ := hmap.isSome hline
    exact ⟨t, ht, hperm.mem_iff.mpr (List.mem_filterMap.mpr ⟨line, hline, ht⟩)⟩

/-- Two vertices, in another order and relabelled. -/
theorem exactMatch_ok_iff_twoVertices :
    exactMatch [⟨12, 6⟩, ⟨11, 5⟩] [⟨1, 5⟩, ⟨2, 6⟩] 0 (some fun x => some (x + 10)) false =
      .ok () := by
  refine (exactMatch_ok_iff _ _ 0 (relabels_shift 10 _) (by decide)).mpr ⟨by decide, ?_⟩
  exact (valueAt_eq_iff_perm (by decide) (by decide)).mpr (by decide)

end ExactMatch

end GraphalyticsValidate

end GfeDriver
