import GfeDriver.Utility.ErrorBudget
import GfeDriver.Utility.GraphalyticsValidate
import Mathlib.Algebra.Order.Ring.Rat
import Mathlib.Data.NNRat.Lemmas

/-!
# The epsilon match

`epsilon_match` compares the values of a result with those of a reference up to a relative error.
It is the exact match with another comparison of two values: it divides their distance by the
expected value, and a quotient larger than the tolerance is a mismatch.

Values are those that can be read from a file: nonnegative numbers, here rationals, and infinity. A
quotient may also be `NaN`, which is not larger than the tolerance. It is `NaN` for two zeros and
for two infinite values, which are equal, and also for a finite result where the reference is
infinite: a distance of a vertex that cannot be reached is accepted, whatever it is.

## Main definitions

* `Value`, `Ieee`, `relativeError`: the values, and the arithmetic of the comparison
* `readResultsOf`, `epsilonMatch`: the comparison of two files
* `WithinTolerance`, `Unreached`: the values that should be accepted, and those that are

## Main results

* `tooFar_eq_false_iff`: the comparison of two values
* `epsilonMatch_ok_iff`: the files that the epsilon match accepts
* `epsilonMatch_correct_iff`: when these are the files that match
-/

namespace GfeDriver

namespace GraphalyticsValidate

open ErrorBudget (Rejection validate)

/-! ## Values -/

/-- A value of a file, as `strtod` reads it where no sign is allowed. -/
inductive Value
  | finite (q : ℚ≥0)
  | infinity
  deriving DecidableEq

/-- A double of the comparison. -/
inductive Ieee
  | finite (q : ℚ)
  | posInfinity
  | negInfinity
  | nan
  deriving DecidableEq

/-- `r - e`. -/
def Value.sub : Value → Value → Ieee
  | .finite r, .finite e => .finite ((r : ℚ) - e)
  | .infinity, .finite _ => .posInfinity
  | .finite _, .infinity => .negInfinity
  | .infinity, .infinity => .nan

/-- `abs`. -/
def Ieee.abs : Ieee → Ieee
  | .finite q => .finite |q|
  | .posInfinity | .negInfinity => .posInfinity
  | .nan => .nan

/-- A division by a value, which has no sign. -/
def Ieee.div : Ieee → Value → Ieee
  | .nan, _ => .nan
  | .finite q, .finite e =>
    if e = 0 then (if q = 0 then .nan else if 0 < q then .posInfinity else .negInfinity)
    else .finite (q / e)
  | .finite _, .infinity => .finite 0
  | x, .finite _ => x
  | _, .infinity => .nan

/-- `x > epsilon`. -/
def Ieee.gt (x : Ieee) (epsilon : ℚ) : Bool :=
  match x with
  | .finite q => epsilon < q
  | .posInfinity => true
  | .negInfinity | .nan => false

/-- `abs(value_result - value_expected) / value_expected`. -/
def relativeError (valueResult valueExpected : Value) : Ieee :=
  (valueResult.sub valueExpected).abs.div valueExpected

/-- The relative error is larger than the tolerance. -/
def tooFar (valueResult valueExpected : Value) (epsilon : ℚ) : Bool :=
  (relativeError valueResult valueExpected).gt epsilon

/-- The values match: both are infinite, or both are finite and not too far from each other. -/
def WithinTolerance (r e : Value) (epsilon : ℚ) : Prop :=
  match r, e with
  | .infinity, .infinity => True
  | .finite r, .finite e => |(r : ℚ) - e| ≤ epsilon * e
  | _, _ => False

/-- A finite value where the reference is infinite. -/
def Unreached : Value → Value → Prop
  | .finite _, .infinity => True
  | _, _ => False

theorem tooFar_finite_iff (r e : ℚ≥0) (epsilon : ℚ) :
    tooFar (.finite r) (.finite e) epsilon = false ↔ |(r : ℚ) - e| ≤ epsilon * e := by
  by_cases he : e = 0
  · -- the quotient is `NaN` for two zeros, and infinite otherwise
    subst he
    by_cases hr : r = 0
    · subst hr
      simp [tooFar, relativeError, Value.sub, Ieee.abs, Ieee.div, Ieee.gt]
    · have hpos : 0 < r := pos_iff_ne_zero.mpr hr
      simp [tooFar, relativeError, Value.sub, Ieee.abs, Ieee.div, Ieee.gt, hr, hpos]
  · have hpos : (0 : ℚ) < e := by
      exact_mod_cast pos_iff_ne_zero.mpr he
    have hquotient : tooFar (.finite r) (.finite e) epsilon =
        decide (epsilon < |(r : ℚ) - e| / e) := by
      simp [tooFar, relativeError, Value.sub, Ieee.abs, Ieee.div, Ieee.gt, he]
    rw [hquotient, decide_eq_false_iff_not, not_lt, div_le_iff₀ hpos]

/-- **The comparison of two values** takes those that match, and a finite value for an infinite
one. -/
theorem tooFar_eq_false_iff (r e : Value) (epsilon : ℚ) :
    tooFar r e epsilon = false ↔ WithinTolerance r e epsilon ∨ Unreached r e := by
  rcases r with r | _ <;> rcases e with e | _
  · rw [tooFar_finite_iff]
    exact (or_iff_left id).symm
  · exact iff_of_true rfl (Or.inr trivial)
  · refine iff_of_false ?_ (by simp [WithinTolerance, Unreached])
    simp [tooFar, relativeError, Value.sub, Ieee.abs, Ieee.div, Ieee.gt]
  · exact iff_of_true rfl (Or.inl trivial)

theorem not_withinTolerance_of_unreached {r e : Value} {epsilon : ℚ} (h : Unreached r e) :
    ¬WithinTolerance r e epsilon := by
  rcases r with r | _ <;> rcases e with e | _
  · exact absurd h id
  · exact id
  · exact id
  · exact absurd h id

/-! ## The result file -/

/-- A line of a file: a vertex and its value, of the type that the file is read with. -/
structure LineOf (T : Type) where
  vertexId : Int64
  value : T

/-- `Tuple<T>`. -/
structure TupleOf (T : Type) where
  vertexId : Int64
  value : T
  lineno : ℕ

/-- The hash table of the results. -/
abbrev ResultsOf (T : Type) := AList fun _ : Int64 => TupleOf T

section ReadResults

variable {T : Type}

/-- A line of the result file. -/
def insertResult (lineno : ℕ) (h : ResultsOf T) (line : LineOf T) :
    Except ValidateError (ResultsOf T) :=
  match h.lookup line.vertexId with
  | some t => .error (.duplicate lineno line.vertexId t.lineno)
  | none => .ok (h.insert line.vertexId ⟨line.vertexId, line.value, lineno⟩)

/-- `read_results<T>`. -/
def readResultsOf : List (LineOf T) → ℕ → ResultsOf T → Except ValidateError (ResultsOf T)
  | [], _, h => .ok h
  | line :: rest, lineno, h =>
    match insertResult lineno h line with
    | .error e => .error e
    | .ok h' => readResultsOf rest (lineno + 1) h'

/-- The table holds the lines of a file, under their vertices. -/
structure Tabulates (h : ResultsOf T) (lines : List (LineOf T)) : Prop where
  length : h.entries.length = lines.length
  index : ∀ v t, h.lookup v = some t → t.vertexId = v
  mem : ∀ line, line ∈ lines ↔ ∃ t, h.lookup line.vertexId = some t ∧ t.value = line.value

variable {h : ResultsOf T} {lines : List (LineOf T)} {line : LineOf T}

theorem tabulates_empty : Tabulates (T := T) ∅ [] where
  length := rfl
  index := by simp
  mem := by simp

theorem Tabulates.lookup_eq_none_iff (htable : Tabulates h lines) {v : Int64} :
    h.lookup v = none ↔ v ∉ lines.map LineOf.vertexId := by
  constructor
  · intro hnone hmem
    obtain ⟨line, hline, rfl⟩ := List.mem_map.mp hmem
    obtain ⟨t, ht, -⟩ := (htable.mem line).mp hline
    rw [hnone] at ht
    cases ht
  · intro hnot
    by_contra hsome
    obtain ⟨t, ht⟩ := Option.ne_none_iff_exists'.mp hsome
    have hline : ⟨v, t.value⟩ ∈ lines := (htable.mem ⟨v, t.value⟩).mpr ⟨t, ht, rfl⟩
    exact hnot (List.mem_map.mpr ⟨_, hline, rfl⟩)

/-- A line with a new vertex is inserted. -/
theorem Tabulates.insert (htable : Tabulates h lines) (lineno : ℕ)
    (hfresh : line.vertexId ∉ lines.map LineOf.vertexId) :
    ∃ h', insertResult lineno h line = .ok h' ∧ Tabulates h' (lines ++ [line]) := by
  have hnone := htable.lookup_eq_none_iff.mpr hfresh
  refine ⟨_, by rw [insertResult, hnone], ?_, ?_, ?_⟩
  · rw [AList.entries_insert_of_notMem (AList.lookup_eq_none.mp hnone), List.length_cons,
      htable.length, List.length_append, List.length_singleton]
  · intro v t hlookup
    by_cases hv : v = line.vertexId
    · subst hv
      rw [AList.lookup_insert] at hlookup
      rw [← Option.some.inj hlookup]
    · rw [AList.lookup_insert_ne hv] at hlookup
      exact htable.index v t hlookup
  · intro line'
    rw [List.mem_append, List.mem_singleton]
    by_cases hv : line'.vertexId = line.vertexId
    · -- the line that is inserted is the only one with its vertex
      have hnot : line' ∉ lines := fun hmem => hfresh (hv ▸ List.mem_map_of_mem hmem)
      rw [hv, AList.lookup_insert, or_iff_right hnot]
      constructor
      · rintro rfl
        exact ⟨_, rfl, rfl⟩
      · rintro ⟨t, ht, hvalue⟩
        obtain rfl := Option.some.inj ht
        obtain ⟨v, x⟩ := line'
        obtain rfl := hv
        obtain rfl := hvalue
        rfl
    · have hne : line' ≠ line := fun heq => hv (heq ▸ rfl)
      rw [AList.lookup_insert_ne hv, or_iff_left hne]
      exact htable.mem line'

/-- A line with a vertex that is in the table is fatal. -/
theorem Tabulates.duplicate (htable : Tabulates h lines) (lineno : ℕ)
    (hdup : line.vertexId ∈ lines.map LineOf.vertexId) :
    ∃ e, insertResult lineno h line = .error e := by
  cases hlookup : h.lookup line.vertexId with
  | none => exact absurd hdup (htable.lookup_eq_none_iff.mp hlookup)
  | some t => exact ⟨_, by rw [insertResult, hlookup]⟩

/-- **The results are read** into a table if no vertex is a duplicate. -/
theorem readResultsOf_of_nodup (rest : List (LineOf T)) (htable : Tabulates h lines) (lineno : ℕ)
    (hnodup : ((lines ++ rest).map LineOf.vertexId).Nodup) :
    ∃ h', readResultsOf rest lineno h = .ok h' ∧ Tabulates h' (lines ++ rest) := by
  induction rest generalizing lines lineno h with
  | nil =>
    refine ⟨h, rfl, ?_⟩
    rwa [List.append_nil]
  | cons line rest ih =>
    have hfresh : line.vertexId ∉ lines.map LineOf.vertexId := by
      rw [List.map_append, List.map_cons, List.nodup_middle, List.nodup_cons, List.mem_append,
        not_or] at hnodup
      exact hnodup.1.1
    obtain ⟨h', hinsert, htable'⟩ := htable.insert lineno hfresh
    rw [List.append_cons] at hnodup ⊢
    obtain ⟨h'', hread, htable''⟩ := ih htable' (lineno + 1) hnodup
    refine ⟨h'', ?_, htable''⟩
    rw [readResultsOf, hinsert]
    exact hread

/-- **A duplicate** is fatal. -/
theorem nodup_of_readResultsOf {rest : List (LineOf T)} (htable : Tabulates h lines) {lineno : ℕ}
    {h' : ResultsOf T} (hnodup : (lines.map LineOf.vertexId).Nodup)
    (hread : readResultsOf rest lineno h = .ok h') :
    ((lines ++ rest).map LineOf.vertexId).Nodup := by
  induction rest generalizing lines lineno h with
  | nil => rwa [List.append_nil]
  | cons line rest ih =>
    rw [readResultsOf] at hread
    by_cases hdup : line.vertexId ∈ lines.map LineOf.vertexId
    · obtain ⟨e, he⟩ := htable.duplicate lineno hdup
      rw [he] at hread
      cases hread
    · obtain ⟨h₁, hinsert, htable'⟩ := htable.insert lineno hdup
      rw [hinsert] at hread
      rw [List.append_cons]
      refine ih htable' ?_ hread
      rw [List.map_append, List.map_singleton]
      exact hnodup.append (List.nodup_singleton _) (by simpa using hdup)

end ReadResults

/-! ## The epsilon match -/

/-- The errors that `epsilon_match` counts. -/
inductive EpsilonMismatch
  | moreReference (lineno : ℕ)
  | missing (lineno : ℕ) (vertexId : Int64)
  | wrongVertex (linenoResult lineno : ℕ) (retrieved expected : Int64)
  | wrongValue (linenoResult lineno : ℕ) (vertexId : Int64) (retrieved expected : Value)
      (error : Ieee) (epsilon : ℚ)
  | moreResults (results lineno : ℕ)

/-- The error of a line of the reference, with its vertex in the result file. -/
def epsilonMismatch (h : ResultsOf Value) (epsilon : ℚ) (lineno : ℕ) (v : Int64)
    (valueExpected : Value) : Option EpsilonMismatch :=
  if h.entries.length ≤ lineno then some (.moreReference lineno)
  else
    match h.lookup v with
    | none => some (.missing lineno v)
    | some r =>
      if r.vertexId ≠ v then some (.wrongVertex r.lineno lineno r.vertexId v)
      else if tooFar r.value valueExpected epsilon then
        some (.wrongValue r.lineno lineno r.vertexId r.value valueExpected
          (relativeError r.value valueExpected) epsilon)
      else none

/-- A line of the reference in `epsilon_match`. -/
def epsilonStep (h : ResultsOf Value) (epsilon : ℚ) (vertexMap : Option VertexMap) (lineno : ℕ)
    (line : LineOf Value) : Except ValidateError (ℕ × Option EpsilonMismatch) :=
  match vertexOf vertexMap line.vertexId with
  | none => .error .undefinedBehaviour
  | some v => .ok (lineno + 1, epsilonMismatch h epsilon lineno v line.value)

/-- The check behind the loop of `epsilon_match`. -/
def epsilonLast (h : ResultsOf Value) (lineno : ℕ) : Option EpsilonMismatch :=
  if lineno < h.entries.length then some (.moreResults h.entries.length lineno) else none

/-- `epsilon_match`. -/
def epsilonMatch (result expected : List (LineOf Value)) (epsilon : ℚ) (maxNumErrors : ℕ)
    (vertexMap : Option VertexMap) : Except (Rejection ValidateError EpsilonMismatch) Unit :=
  match readResultsOf result 0 ∅ with
  | .error e => .error (.fatal e)
  | .ok h => validate (epsilonStep h epsilon vertexMap) (epsilonLast h) maxNumErrors expected 0

/-- A line of the reference is accepted: its vertex is in the result file, with a value that is not
too far. -/
def Accepts (result : List (LineOf Value)) (epsilon : ℚ) (vertexMap : Option VertexMap)
    (line : LineOf Value) : Prop :=
  ∃ r ∈ result, vertexOf vertexMap line.vertexId = some r.vertexId ∧
    tooFar r.value line.value epsilon = false

section EpsilonMatch

variable {h : ResultsOf Value} {result expected : List (LineOf Value)} {epsilon : ℚ}
  {vertexMap : Option VertexMap} {maxNumErrors : ℕ}

/-- A line has no error when its number is less than the size of the table, and the table has its
vertex with a value that is not too far. -/
theorem epsilonMismatch_eq_none_iff (htable : Tabulates h result) {lineno : ℕ} {v : Int64}
    {x : Value} :
    epsilonMismatch h epsilon lineno v x = none ↔
      lineno < result.length ∧ ∃ r ∈ result, r.vertexId = v ∧ tooFar r.value x epsilon = false := by
  unfold epsilonMismatch
  rw [htable.length]
  by_cases hsize : result.length ≤ lineno
  · rw [if_pos hsize]
    exact iff_of_false (by simp) fun hc => absurd hc.1 (Nat.not_lt.mpr hsize)
  rw [if_neg hsize, and_iff_right (Nat.lt_of_not_le hsize)]
  cases hlookup : h.lookup v with
  | none =>
    have hnot := htable.lookup_eq_none_iff.mp hlookup
    refine iff_of_false (by simp) ?_
    rintro ⟨r, hr, rfl, -⟩
    exact hnot (List.mem_map_of_mem hr)
  | some t =>
    have hindex := htable.index v t hlookup
    have hmem : (⟨v, t.value⟩ : LineOf Value) ∈ result :=
      (htable.mem _).mpr ⟨t, hlookup, rfl⟩
    simp only [hindex, ne_eq, not_true_eq_false, if_false, ite_eq_right_iff, reduceCtorEq,
      imp_false, Bool.not_eq_true]
    constructor
    · intro hclose
      exact ⟨_, hmem, rfl, hclose⟩
    · rintro ⟨r, hr, rfl, hclose⟩
      -- the table has one value for a vertex
      obtain ⟨t', ht', hvalue⟩ := (htable.mem r).mp hr
      rw [hlookup] at ht'
      rw [Option.some.inj ht', hvalue]
      exact hclose

/-- **The loop of `epsilon_match`**: it finds no error when every line is accepted and the lines are
not more than those of the result file. -/
theorem foldlM_epsilonStep_iff (htable : Tabulates h result) {lineno n : ℕ}
    (hlineno : lineno ≤ result.length) :
    expected.foldlM (ErrorBudget.silentLine (epsilonStep h epsilon vertexMap)) lineno = some n ↔
      n = lineno + expected.length ∧ n ≤ result.length ∧
        ∀ line ∈ expected, Accepts result epsilon vertexMap line := by
  induction expected generalizing lineno with
  | nil =>
    show some lineno = some n ↔ _
    rw [Option.some.injEq, List.length_nil, Nat.add_zero]
    constructor
    · rintro rfl
      exact ⟨rfl, hlineno, by simp⟩
    · rintro ⟨rfl, -⟩
      rfl
  | cons line rest ih =>
    rw [List.foldlM_cons, List.forall_mem_cons, List.length_cons]
    cases hvertex : vertexOf vertexMap line.vertexId with
    | none =>
      have hline : ErrorBudget.silentLine (epsilonStep h epsilon vertexMap) lineno line = none := by
        rw [ErrorBudget.silentLine, epsilonStep, hvertex]
      rw [hline]
      refine iff_of_false (by simp) ?_
      rintro ⟨-, -, ⟨r, -, hr, -⟩, -⟩
      rw [hvertex] at hr
      cases hr
    | some v =>
      have haccepts : Accepts result epsilon vertexMap line ↔
          ∃ r ∈ result, r.vertexId = v ∧ tooFar r.value line.value epsilon = false := by
        rw [Accepts, hvertex]
        simp only [Option.some.injEq, eq_comm]
      cases hmismatch : epsilonMismatch h epsilon lineno v line.value with
      | none =>
        obtain ⟨hlt, hclose⟩ := (epsilonMismatch_eq_none_iff htable).mp hmismatch
        have hline : ErrorBudget.silentLine (epsilonStep h epsilon vertexMap) lineno line =
            some (lineno + 1) := by
          rw [ErrorBudget.silentLine, epsilonStep, hvertex]
          simp only [hmismatch]
        have hlength : lineno + (rest.length + 1) = lineno + 1 + rest.length := by omega
        rw [hline, haccepts, and_iff_right hclose, hlength]
        exact ih hlt
      | some mismatch =>
        have hline :
            ErrorBudget.silentLine (epsilonStep h epsilon vertexMap) lineno line = none := by
          rw [ErrorBudget.silentLine, epsilonStep, hvertex]
          simp only [hmismatch]
        rw [hline, haccepts]
        refine iff_of_false (by simp) ?_
        rintro ⟨rfl, hle, hclose, -⟩
        rw [(epsilonMismatch_eq_none_iff htable).mpr ⟨by omega, hclose⟩] at hmismatch
        cases hmismatch

/-- The files that the epsilon match accepts, line by line. -/
theorem epsilonMatch_ok_iff_mem :
    epsilonMatch result expected epsilon maxNumErrors vertexMap = .ok () ↔
      (result.map LineOf.vertexId).Nodup ∧ expected.length = result.length ∧
        ∀ line ∈ expected, Accepts result epsilon vertexMap line := by
  unfold epsilonMatch
  by_cases hnodup : (result.map LineOf.vertexId).Nodup
  · obtain ⟨h, hread, htable⟩ := readResultsOf_of_nodup result tabulates_empty 0 hnodup
    rw [List.nil_append] at htable
    rw [hread, and_iff_right hnodup]
    show validate _ _ _ _ _ = .ok () ↔ _
    rw [ErrorBudget.validate_ok_iff]
    simp only [foldlM_epsilonStep_iff htable (Nat.zero_le _), epsilonLast, htable.length,
      Nat.zero_add]
    constructor
    -- the two checks of the counter leave one length
    · rintro ⟨n, ⟨rfl, hle, hall⟩, hlast⟩
      refine ⟨?_, hall⟩
      split_ifs at hlast with hlt
      omega
    · rintro ⟨hlength, hall⟩
      exact ⟨_, ⟨rfl, hlength.le, hall⟩, if_neg (by omega)⟩
  · refine iff_of_false ?_ fun hc => hnodup hc.1
    cases hread : readResultsOf result 0 ∅ with
    | error e => simp
    | ok h => exact absurd (nodup_of_readResultsOf tabulates_empty List.nodup_nil hread) hnodup

/-! ## Files that match -/

/-- A map is injective, and defined on some vertices. There is nothing to map without a map. -/
structure MapsVertices (vertexMap : Option VertexMap) (vertices : List Int64) : Prop where
  injective : ∀ m ∈ vertexMap, ∀ a b c, m a = some c → m b = some c → a = b
  defined : ∀ v ∈ vertices, (vertexOf vertexMap v).isSome

/-- The files list the same vertices. -/
def SameVertices (result expected : List (LineOf Value)) (vertexMap : Option VertexMap) : Prop :=
  ∀ v, v ∈ result.map LineOf.vertexId ↔
    v ∈ expected.filterMap fun line => vertexOf vertexMap line.vertexId

/-- A line of the result file and a line of the reference with the same vertex. -/
def SameVertex (vertexMap : Option VertexMap) (r e : LineOf Value) : Prop :=
  vertexOf vertexMap e.vertexId = some r.vertexId

theorem forall_accepts_iff (hmap : MapsVertices vertexMap (expected.map LineOf.vertexId))
    (hresult : (result.map LineOf.vertexId).Nodup)
    (hsame : ∀ v ∈ expected.filterMap fun line => vertexOf vertexMap line.vertexId,
      v ∈ result.map LineOf.vertexId) :
    (∀ line ∈ expected, Accepts result epsilon vertexMap line) ↔
      ∀ r ∈ result, ∀ e ∈ expected, SameVertex vertexMap r e →
        tooFar r.value e.value epsilon = false := by
  constructor
  · intro hall r hr e he hvertex
    obtain ⟨r', hr', hvertex', hclose⟩ := hall e he
    -- no other line of the result file has the vertex
    have heq : r'.vertexId = r.vertexId := Option.some.inj (hvertex'.symm.trans hvertex)
    rwa [List.inj_on_of_nodup_map hresult hr' hr heq] at hclose
  · intro hall e he
    obtain ⟨v, hv⟩ := Option.isSome_iff_exists.mp (hmap.defined _ (List.mem_map_of_mem he))
    obtain ⟨r, hr, rfl⟩ := List.mem_map.mp (hsame v (List.mem_filterMap.mpr ⟨e, he, hv⟩))
    exact ⟨r, hr, hv, hall r hr e he hv⟩

/-- **Two lists without duplicates** have the same members when one is in the other and they are of
the same length. -/
theorem nodup_same_iff {α : Type} [DecidableEq α] {l l' : List α} (h : l.Nodup) (h' : l'.Nodup) :
    (l'.length = l.length ∧ ∀ v ∈ l', v ∈ l) ↔ ∀ v, v ∈ l ↔ v ∈ l' := by
  constructor
  · rintro ⟨hlength, hsub⟩ v
    exact ((h'.subperm hsub).perm_of_length_le hlength.ge).mem_iff.symm
  · intro hmem
    have hperm := (List.perm_ext_iff_of_nodup h h').mpr hmem
    exact ⟨hperm.length_eq.symm, fun v hv => (hmem v).mpr hv⟩

theorem MapsVertices.length_filterMap
    (hmap : MapsVertices vertexMap (expected.map LineOf.vertexId)) :
    (expected.filterMap fun line => vertexOf vertexMap line.vertexId).length = expected.length := by
  rw [List.filterMap_length_eq_length]
  intro line hline
  exact hmap.defined _ (List.mem_map_of_mem hline)

theorem MapsVertices.nodup_filterMap
    (hmap : MapsVertices vertexMap (expected.map LineOf.vertexId))
    (hnodup : (expected.map LineOf.vertexId).Nodup) :
    (expected.filterMap fun line => vertexOf vertexMap line.vertexId).Nodup := by
  rw [List.Nodup, List.pairwise_map] at hnodup
  rw [List.Nodup, List.pairwise_filterMap]
  refine hnodup.imp ?_
  intro line line' hne v hv v' hv' heq
  subst heq
  exact hne (vertexOf_injective hmap.injective hv hv')

/-- **The files that the epsilon match accepts**: they list the same vertices, and the values of
each vertex match, or the reference has infinity for a finite value. -/
theorem epsilonMatch_ok_iff (hmap : MapsVertices vertexMap (expected.map LineOf.vertexId))
    (hresult : (result.map LineOf.vertexId).Nodup)
    (hexpected : (expected.map LineOf.vertexId).Nodup) :
    epsilonMatch result expected epsilon maxNumErrors vertexMap = .ok () ↔
      SameVertices result expected vertexMap ∧
        ∀ r ∈ result, ∀ e ∈ expected, SameVertex vertexMap r e →
          WithinTolerance r.value e.value epsilon ∨ Unreached r.value e.value := by
  have hsame := nodup_same_iff hresult (hmap.nodup_filterMap hexpected)
  rw [hmap.length_filterMap, List.length_map] at hsame
  simp only [← tooFar_eq_false_iff]
  rw [epsilonMatch_ok_iff_mem, and_iff_right hresult, SameVertices, ← hsame]
  constructor
  · rintro ⟨hlength, hall⟩
    have hsub : ∀ v ∈ expected.filterMap fun line => vertexOf vertexMap line.vertexId,
        v ∈ result.map LineOf.vertexId := by
      intro v hv
      obtain ⟨line, hline, hvertex⟩ := List.mem_filterMap.mp hv
      obtain ⟨r, hr, hvertex', -⟩ := hall line hline
      obtain rfl := Option.some.inj (hvertex.symm.trans hvertex')
      exact List.mem_map_of_mem hr
    exact ⟨⟨hlength, hsub⟩, (forall_accepts_iff hmap hresult hsub).mp hall⟩
  · rintro ⟨⟨hlength, hsub⟩, hall⟩
    exact ⟨hlength, (forall_accepts_iff hmap hresult hsub).mpr hall⟩

/-- **When the epsilon match accepts the files that match**: when no vertex has a finite value where
the reference is infinite, or when the files differ in another way, which it detects. -/
theorem epsilonMatch_correct_iff (result expected : List (LineOf Value)) (epsilon : ℚ)
    (maxNumErrors : ℕ) (vertexMap : Option VertexMap)
    (hmap : MapsVertices vertexMap (expected.map LineOf.vertexId))
    (hresult : (result.map LineOf.vertexId).Nodup)
    (hexpected : (expected.map LineOf.vertexId).Nodup) :
    (epsilonMatch result expected epsilon maxNumErrors vertexMap = .ok () ↔
        SameVertices result expected vertexMap ∧
          ∀ r ∈ result, ∀ e ∈ expected, SameVertex vertexMap r e →
            WithinTolerance r.value e.value epsilon) ↔
      (∀ r ∈ result, ∀ e ∈ expected, SameVertex vertexMap r e → ¬Unreached r.value e.value) ∨
        ¬SameVertices result expected vertexMap ∨
          ∃ r ∈ result, ∃ e ∈ expected, SameVertex vertexMap r e ∧
            ¬Unreached r.value e.value ∧ ¬WithinTolerance r.value e.value epsilon := by
  rw [epsilonMatch_ok_iff hmap hresult hexpected]
  constructor
  · intro hcorrect
    by_contra hnot
    push Not at hnot
    obtain ⟨⟨r, hr, e, he, hvertex, hunreached⟩, hsame, hrest⟩ := hnot
    -- the files are accepted, since every other vertex matches
    have hwithin := hcorrect.mp ⟨hsame, fun r hr e he hvertex =>
      (em (Unreached r.value e.value)).elim Or.inr fun h => Or.inl (hrest r hr e he hvertex h)⟩
    exact not_withinTolerance_of_unreached hunreached (hwithin.2 r hr e he hvertex)
  · intro hcondition
    constructor
    · rintro ⟨hsame, hall⟩
      refine ⟨hsame, fun r hr e he hvertex => ?_⟩
      rcases hcondition with hnone | hdiffer | ⟨r', hr', e', he', hvertex', hreached, hfar⟩
      · exact (hall r hr e he hvertex).resolve_right (hnone r hr e he hvertex)
      · exact absurd hsame hdiffer
      · exact absurd (hall r' hr' e' he' hvertex') (not_or.mpr ⟨hfar, hreached⟩)
    · rintro ⟨hsame, hall⟩
      exact ⟨hsame, fun r hr e he hvertex => Or.inl (hall r hr e he hvertex)⟩

end EpsilonMatch

/-- A shift of the vertices is a map of any vertices. -/
theorem mapsVertices_shift (n : UInt64) (vertices : List Int64) :
    MapsVertices (some fun x => some (x + n)) vertices :=
  ⟨(relabels_shift n []).injective, by simp [vertexOf, VertexMap.remap]⟩

/-- Two vertices, one of which cannot be reached, in another order and relabelled. -/
theorem epsilonMatch_correct_iff_twoVertices :
    epsilonMatch [⟨12, .infinity⟩, ⟨11, .finite 5⟩] [⟨1, .finite 5⟩, ⟨2, .infinity⟩]
        (1 / 10000) 0 (some fun x => some (x + 10)) = .ok () ↔
      SameVertices [⟨12, .infinity⟩, ⟨11, .finite 5⟩] [⟨1, .finite 5⟩, ⟨2, .infinity⟩]
          (some fun x => some (x + 10)) ∧
        ∀ r ∈ [⟨12, .infinity⟩, ⟨11, .finite 5⟩], ∀ e ∈ [⟨1, .finite 5⟩, ⟨2, .infinity⟩],
          SameVertex (some fun x => some (x + 10)) r e →
            WithinTolerance r.value e.value (1 / 10000) := by
  apply (epsilonMatch_correct_iff _ _ _ 0 _ (mapsVertices_shift 10 _) (by decide)
    (by decide)).mpr
  left
  simp [SameVertex, vertexOf, VertexMap.remap, Unreached]

/-- A distance of a vertex that cannot be reached is accepted. -/
theorem epsilonMatch_not_correct :
    ¬(epsilonMatch [⟨1, .finite 5⟩] [⟨1, .infinity⟩] (1 / 10000) 0 none = .ok () ↔
      SameVertices [⟨1, .finite 5⟩] [⟨1, .infinity⟩] none ∧
        ∀ r ∈ [⟨1, .finite 5⟩], ∀ e ∈ [⟨1, .infinity⟩], SameVertex none r e →
          WithinTolerance r.value e.value (1 / 10000)) := by
  intro hcorrect
  have haccepted : epsilonMatch [⟨1, .finite 5⟩] [⟨1, .infinity⟩] (1 / 10000) 0 none = .ok () := rfl
  have hwithin := (hcorrect.mp haccepted).2 ⟨1, .finite 5⟩ (by simp) ⟨1, .infinity⟩ (by simp) rfl
  exact hwithin

end GraphalyticsValidate

end GfeDriver
