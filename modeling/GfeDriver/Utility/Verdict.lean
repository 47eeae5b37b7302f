import GfeDriver.Utility.ValidateText

/-!
# The verdict and the error budget

A comparison of two files accepts under one maximum of errors exactly when it does under another.
When it does not accept, it raises an exception, with one exception: `epsilon_match` and
`equivalence_match` look a vertex of the reference up in the vertex map, and go to the end of the
map when it is not there. What happens then is undefined. `exact_match` raises an exception for
such a vertex, before it counts anything for its line.

The end of the map is reached under every maximum, unless a mismatch before it stops the validation.
So the verdict depends on the maximum when a line that is not in the map comes after a mismatch.

## Main definitions

* `Raised`: a comparison of files ends with an exception
* `MissingAfter`: a vertex of the reference is not in the map, and what is before it
* `NoMismatch`, `NoMismatchWithin`, `NoMismatchEquivalent`: lines of a reference without a mismatch

## Main results

* `Validator.raised_run_iff`: when the maximum decides whether a comparison raises
* `verdict_iff`: when it does, for the three comparisons
-/

namespace GfeDriver

namespace GraphalyticsValidate

open Foundation
open ErrorBudget (Rejection)

/-- A comparison of files ends with an exception, and not with undefined behaviour. -/
def Raised {M : Type} (result : Option (Except (Rejection TextError M) Unit)) : Prop :=
  ∃ r, result = some r ∧ ErrorBudget.Raises (· = TextError.validate .undefinedBehaviour) r

theorem raised_some_iff {M : Type} {r : Except (Rejection TextError M) Unit} :
    Raised (some r) ↔ ErrorBudget.Raises (· = TextError.validate .undefinedBehaviour) r := by
  constructor
  · rintro ⟨r', hr, hraises⟩
    obtain rfl := Option.some.inj hr
    exact hraises
  · intro hraises
    exact ⟨r, rfl, hraises⟩

namespace Validator

variable {T H σ M : Type} {V : Validator T H σ M} {vertexMap : Option VertexMap}

/-- The only error of a line of the reference is that its vertex is not in the map, which is
undefined behaviour. -/
def OnlyMissing (V : Validator T H σ M) (vertexMap : Option VertexMap) : Prop :=
  ∀ h s line,
    (vertexOf vertexMap line.vertexId = none ∧ V.step h s line = .error .undefinedBehaviour) ∨
      (vertexOf vertexMap line.vertexId).isSome ∧ ∃ r, V.step h s line = .ok r

/-- A line of the reference has a vertex that is not in the map, and the lines before it are parsed
to `ps`, whose vertices are in the map. -/
def MissingAfter (V : Validator T H σ M) (vertexMap : Option VertexMap) (expected : List UInt8)
    (ps : List (LineOf T)) : Prop :=
  ∃ pre buffer post line, bufferLines bufferSz expected = pre ++ buffer :: post ∧
    V.ParseTo pre ps ∧ parseLine V.type buffer = some line ∧
    (∀ p ∈ ps, (vertexOf vertexMap p.vertexId).isSome) ∧ vertexOf vertexMap line.vertexId = none

/-- No line has a mismatch. -/
def NoMismatch (V : Validator T H σ M) (h : H) (ps : List (LineOf T)) : Prop :=
  ∃ s, ps.foldlM (ErrorBudget.silentLine (V.step h)) V.start = some s

theorem textStep_undefined_iff {h : H} {s : σ} {buffer : List UInt8} :
    V.textStep h s buffer = .error (.validate .undefinedBehaviour) ↔
      ∃ line, parseLine V.type buffer = some line ∧
        V.step h s line = .error .undefinedBehaviour := by
  unfold textStep
  cases hparse : parseValue V.type (V.lineno s) buffer V.referenceName with
  | error e =>
    rw [parseLine_eq_none hparse]
    simpa using parseValue_error hparse .undefinedBehaviour
  | ok line =>
    rw [parseValue_ok_iff.mp hparse]
    cases hstep : V.step h s line <;> simp [hstep]

/-- What a line does is undefined when its vertex is not in the map. -/
theorem OnlyMissing.step_eq_error_iff (honly : V.OnlyMissing vertexMap) {h : H}
    {s : σ} {line : LineOf T} :
    V.step h s line = .error .undefinedBehaviour ↔ vertexOf vertexMap line.vertexId = none := by
  rcases honly h s line with ⟨hnone, herror⟩ | ⟨hsome, r, hr⟩
  · exact iff_of_true herror hnone
  · refine iff_of_false (fun herror => ?_) fun hnone => ?_
    · rw [hr] at herror
      cases herror
    · rw [hnone] at hsome
      cases hsome

/-- Lines whose vertices are in the map can be counted. -/
theorem exists_count (honly : V.OnlyMissing vertexMap) (h : H) {ps : List (LineOf T)}
    (hps : ∀ p ∈ ps, (vertexOf vertexMap p.vertexId).isSome) (s : σ × ℕ) :
    ∃ s', ps.foldlM (ErrorBudget.countLine (V.step h)) s = .ok s' := by
  induction ps generalizing s with
  | nil => exact ⟨s, rfl⟩
  | cons p ps ih =>
    obtain ⟨hp, hrest⟩ := List.forall_mem_cons.mp hps
    rcases honly h s.1 p with ⟨hnone, -⟩ | ⟨-, r, hr⟩
    · rw [hnone] at hp
      cases hp
    · obtain ⟨s', hs'⟩ := ih hrest (r.1, if r.2.isSome then s.2 + 1 else s.2)
      exact ⟨s', ErrorBudget.foldlM_countLine_cons.mpr ⟨r.1, r.2, hr, hs'⟩⟩

/-- Lines that can be counted have their vertices in the map. -/
theorem isSome_of_count (honly : V.OnlyMissing vertexMap) {h : H} {ps : List (LineOf T)}
    {s s' : σ × ℕ} (hcount : ps.foldlM (ErrorBudget.countLine (V.step h)) s = .ok s') :
    ∀ p ∈ ps, (vertexOf vertexMap p.vertexId).isSome := by
  induction ps generalizing s with
  | nil => simp
  | cons p ps ih =>
    obtain ⟨s₁, mismatch, hstep, hrest⟩ := ErrorBudget.foldlM_countLine_cons.mp hcount
    rw [List.forall_mem_cons]
    rcases honly h s.1 p with ⟨-, herror⟩ | ⟨hsome, -⟩
    · rw [herror] at hstep
      cases hstep
    · exact ⟨hsome, ih hrest⟩

/-- **When the maximum decides** whether a comparison of files raises: when the vertex of a line is
not in the map, and there is a mismatch before it. -/
theorem raised_run_iff (honly : V.OnlyMissing vertexMap) (result expected : List UInt8) :
    (∀ n n', Raised (V.run result expected n) ↔ Raised (V.run result expected n')) ↔
      ∀ rs s, V.Parses result rs → rs.foldlM V.insertLine (0, V.empty) = .ok s →
        ∀ ps, V.MissingAfter vertexMap expected ps → V.NoMismatch s.2 ps := by
  cases hread : (bufferLines bufferSz result).foldlM V.readLine (0, V.empty) with
  | error e =>
    -- the result file cannot be read, whatever the maximum is
    have hrun : ∀ n, V.run result expected n = some (.error (.fatal e)) := by
      intro n
      rw [run, readResult_eq, hread]
    refine iff_of_true (fun n n' => by rw [hrun, hrun]) ?_
    intro rs s hparses hinsert
    rw [foldlM_readLine_ok_iff.mpr ⟨rs, hparses, hinsert⟩] at hread
    cases hread
  | ok s =>
    have hrun : ∀ n, V.run result expected n =
        some (ErrorBudget.validate (V.textStep s.2) (V.last s.2) n (bufferLines bufferSz expected)
          V.start) := by
      intro n
      rw [run, readResult_eq, hread]
      exact readReference_eq s.2 expected n
    simp only [hrun, raised_some_iff]
    rw [ErrorBudget.raises_iff]
    constructor
    · rintro hzero rs s' hparses hinsert ps
        ⟨pre, buffer, post, line, htext, hpre, hline, hps, hnone⟩
      obtain rfl : s = s' := by
        rw [foldlM_readLine_ok_iff.mpr ⟨rs, hparses, hinsert⟩] at hread
        exact (Except.ok.inj hread).symm
      obtain ⟨t, ht⟩ := exists_count honly s.2 hps (V.start, 0)
      have hmissing : V.step s.2 t.1 line = .error .undefinedBehaviour :=
        honly.step_eq_error_iff.mpr hnone
      have hcount := hzero pre buffer post t _ htext
        (foldlM_countLine_textStep_ok_iff.mpr ⟨ps, hpre, ht⟩)
        (textStep_undefined_iff.mpr ⟨line, hline, hmissing⟩) rfl
      refine ⟨t.1, (ErrorBudget.foldlM_countLine_same_iff 0).mp ?_⟩
      rw [ht, ← hcount]
    · rintro hsilent pre buffer post t f htext hpre hline rfl
      obtain ⟨rs, hparses, hinsert⟩ := foldlM_readLine_ok_iff.mp hread
      obtain ⟨ps, hps, hcount⟩ := foldlM_countLine_textStep_ok_iff.mp hpre
      obtain ⟨line, hbuffer, hmissing⟩ := textStep_undefined_iff.mp hline
      have hnone := honly.step_eq_error_iff.mp hmissing
      obtain ⟨t', ht'⟩ := hsilent rs s hparses hinsert ps
        ⟨pre, buffer, post, line, htext, hps, hbuffer, isSome_of_count honly hcount, hnone⟩
      have hsame := (ErrorBudget.foldlM_countLine_same_iff 0).mpr ht'
      rw [hcount] at hsame
      rw [Except.ok.inj hsame]

/-- A comparison in which nothing is undefined raises under one maximum when it does under
another. -/
theorem raised_run_of_defined (hdefined : ∀ h s line, V.step h s line ≠ .error .undefinedBehaviour)
    (result expected : List UInt8) (n n' : ℕ) :
    Raised (V.run result expected n) ↔ Raised (V.run result expected n') := by
  cases hread : (bufferLines bufferSz result).foldlM V.readLine (0, V.empty) with
  | error e =>
    have hrun : ∀ n, V.run result expected n = some (.error (.fatal e)) := by
      intro n
      rw [run, readResult_eq, hread]
    rw [hrun, hrun]
  | ok s =>
    have hrun : ∀ n, V.run result expected n =
        some (ErrorBudget.validate (V.textStep s.2) (V.last s.2) n (bufferLines bufferSz expected)
          V.start) := by
      intro n
      rw [run, readResult_eq, hread]
      exact readReference_eq s.2 expected n
    rw [hrun, hrun, raised_some_iff, raised_some_iff]
    refine ErrorBudget.raises_iff.mpr ?_ n n'
    rintro pre buffer post t f - - hline rfl
    obtain ⟨line, -, hmissing⟩ := textStep_undefined_iff.mp hline
    exact absurd hmissing (hdefined s.2 t.1 line)

end Validator

section Comparisons

variable {vertexMap : Option VertexMap} {relabelValues : Bool}
  {strtod : List UInt8 → Value} {epsilon : ℚ}

theorem exactStep_defined (h : Results) (lineno : ℕ) (line : Line) :
    exactStep h vertexMap relabelValues lineno line ≠ .error .undefinedBehaviour := by
  intro hstep
  have hrelabel : relabel line lineno vertexMap relabelValues = .error .undefinedBehaviour := by
    unfold exactStep at hstep
    cases hline : relabel line lineno vertexMap relabelValues with
    | error e =>
      rw [hline] at hstep
      exact congrArg Except.error (Except.error.inj hstep)
    | ok t =>
      rw [hline] at hstep
      cases hstep
  unfold relabel at hrelabel
  cases vertexMap with
  | none => cases hrelabel
  | some m =>
    dsimp only at hrelabel
    split at hrelabel
    · cases hrelabel
    · split_ifs at hrelabel
      split at hrelabel <;> cases hrelabel

theorem onlyMissing_epsilon :
    (epsilonValidator strtod epsilon vertexMap).OnlyMissing vertexMap := by
  intro h s line
  show _ ∧ epsilonStep h epsilon vertexMap s line = _ ∨
    _ ∧ ∃ r, epsilonStep h epsilon vertexMap s line = .ok r
  unfold epsilonStep
  cases vertexOf vertexMap line.vertexId with
  | none => exact Or.inl ⟨rfl, rfl⟩
  | some v => exact Or.inr ⟨rfl, _, rfl⟩

theorem onlyMissing_equivalence : (equivalenceValidator vertexMap).OnlyMissing vertexMap := by
  intro components s line
  show _ ∧ equivalenceStep components vertexMap s line.toLine = _ ∨
    _ ∧ ∃ r, equivalenceStep components vertexMap s line.toLine = .ok r
  unfold equivalenceStep
  have hvertex : line.toLine.vertexId = line.vertexId := rfl
  rw [hvertex]
  cases vertexOf vertexMap line.vertexId with
  | none => exact Or.inl ⟨rfl, rfl⟩
  | some v =>
    refine Or.inr ⟨rfl, ?_⟩
    dsimp only
    split
    · exact ⟨_, rfl⟩
    · split <;> exact ⟨_, rfl⟩

/-- The first lines of a reference have no mismatch in the epsilon match: they are not more than the
lines of the result file, which has their vertices with values that are not too far. -/
def NoMismatchWithin (epsilon : ℚ) (vertexMap : Option VertexMap) (rs ps : List (LineOf Value)) :
    Prop :=
  ps.length ≤ rs.length ∧ ∀ p ∈ ps, GraphalyticsValidate.Accepts rs epsilon vertexMap p

/-- The first lines of a reference have no mismatch in the equivalence match: the result file has
their vertices, and the components are paired. -/
def NoMismatchEquivalent (vertexMap : Option VertexMap) (rs ps : List (LineOf Int64)) : Prop :=
  (∀ p ∈ ps, (componentPair (readComponents (rs.map LineOf.toLine) ∅) vertexMap
      p.toLine).isSome) ∧
    Relator.BiUnique (Paired ((ps.map LineOf.toLine).filterMap
      (componentPair (readComponents (rs.map LineOf.toLine) ∅) vertexMap)))

theorem noMismatch_epsilon_iff (ps : List (LineOf Value)) {rs : List (LineOf Value)}
    {s : ℕ × ResultsOf Value}
    (hinsert : rs.foldlM (epsilonValidator strtod epsilon vertexMap).insertLine (0, ∅) = .ok s) :
    (rs.map LineOf.vertexId).Nodup ∧
      ((epsilonValidator strtod epsilon vertexMap).NoMismatch s.2 ps ↔
        NoMismatchWithin epsilon vertexMap rs ps) := by
  rw [foldlM_insertLine_epsilon] at hinsert
  have hread : readResultsOf rs 0 ∅ = .ok s.2 := by
    cases hresults : readResultsOf rs 0 ∅ with
    | error e =>
      rw [hresults] at hinsert
      cases hinsert
    | ok h =>
      rw [hresults] at hinsert
      rw [← Except.ok.inj hinsert]
  have hnodup : (rs.map LineOf.vertexId).Nodup :=
    nodup_of_readResultsOf tabulates_empty List.nodup_nil hread
  obtain ⟨h, hh, htable⟩ := readResultsOf_of_nodup rs tabulates_empty 0 hnodup
  obtain rfl := Except.ok.inj (hh.symm.trans hread)
  refine ⟨hnodup, ?_⟩
  have hloop : ∀ n,
      ps.foldlM (ErrorBudget.silentLine (epsilonStep s.2 epsilon vertexMap)) 0 = some n ↔ _ :=
    fun n => foldlM_epsilonStep_iff htable (Nat.zero_le _)
  constructor
  · rintro ⟨n, hn⟩
    obtain ⟨rfl, hle, hall⟩ := (hloop n).mp hn
    rw [Nat.zero_add] at hle
    exact ⟨hle, hall⟩
  · rintro ⟨hle, hall⟩
    exact ⟨_, (hloop _).mpr ⟨rfl, by rwa [Nat.zero_add], hall⟩⟩

theorem noMismatch_equivalence_iff {rs ps : List (LineOf Int64)} :
    (equivalenceValidator vertexMap).NoMismatch (readComponents (rs.map LineOf.toLine) ∅) ps ↔
      NoMismatchEquivalent vertexMap rs ps := by
  have hclean : (equivalenceValidator vertexMap).NoMismatch
        (readComponents (rs.map LineOf.toLine) ∅) ps ↔
      ∃ s, clean (equivalenceStep (readComponents (rs.map LineOf.toLine) ∅) vertexMap)
        (ps.map LineOf.toLine) .start = some s := by
    rw [← foldlM_silentLine_toLine]
    rfl
  rw [hclean, NoMismatchEquivalent]
  constructor
  · rintro ⟨s, hs⟩
    obtain ⟨-, hsome, htracks⟩ := clean_tracks tracks_start hs
    rw [List.forall_mem_map] at hsome
    exact ⟨hsome, htracks.biUnique⟩
  · rintro ⟨hsome, hbi⟩
    exact clean_isSome tracks_start (List.forall_mem_map.mpr hsome) hbi

/-- **When the verdict of the epsilon match depends** on the maximum of errors. -/
theorem raised_epsilonMatchText_iff (strtod : List UInt8 → Value)
    (result expected : Option (List UInt8)) (vertexMap : Option VertexMap) (epsilon : ℚ) :
    (∀ n n', Raised (epsilonMatchText strtod result expected epsilon n vertexMap) ↔
        Raised (epsilonMatchText strtod result expected epsilon n' vertexMap)) ↔
      ∀ r ∈ result, ∀ e ∈ expected, ∀ rs ps,
        (epsilonValidator strtod epsilon vertexMap).Parses r rs →
        (rs.map LineOf.vertexId).Nodup →
        (epsilonValidator strtod epsilon vertexMap).MissingAfter vertexMap e ps →
        NoMismatchWithin epsilon vertexMap rs ps := by
  rcases expected with _ | e
  · exact iff_of_true (fun n n' => Iff.rfl) (by simp)
  rcases result with _ | r
  · exact iff_of_true (fun n n' => Iff.rfl) (by simp)
  show (∀ n n', Raised ((epsilonValidator strtod epsilon vertexMap).run r e n) ↔
    Raised ((epsilonValidator strtod epsilon vertexMap).run r e n')) ↔ _
  simp only [Validator.raised_run_iff onlyMissing_epsilon, Option.mem_some_iff, forall_eq']
  constructor
  · intro hall rs ps hparses hnodup hmissing
    -- the result file is read into a table
    obtain ⟨h, hread, -⟩ := readResultsOf_of_nodup rs tabulates_empty 0 hnodup
    have hinsert : rs.foldlM (epsilonValidator strtod epsilon vertexMap).insertLine (0, ∅) =
        .ok (0 + rs.length, h) := by
      rw [foldlM_insertLine_epsilon, hread]
      rfl
    exact (noMismatch_epsilon_iff ps hinsert).2.mp (hall rs _ hparses hinsert ps hmissing)
  · intro hall rs s hparses hinsert ps hmissing
    obtain ⟨hnodup, hiff⟩ := noMismatch_epsilon_iff ps hinsert
    exact hiff.mpr (hall rs ps hparses hnodup hmissing)

/-- **When the verdict of the equivalence match depends** on the maximum of errors. -/
theorem raised_equivalenceMatchText_iff (result expected : Option (List UInt8))
    (vertexMap : Option VertexMap) :
    (∀ n n', Raised (equivalenceMatchText result expected n vertexMap) ↔
        Raised (equivalenceMatchText result expected n' vertexMap)) ↔
      ∀ r ∈ result, ∀ e ∈ expected, ∀ rs ps,
        (equivalenceValidator vertexMap).Parses r rs →
        (equivalenceValidator vertexMap).MissingAfter vertexMap e ps →
        NoMismatchEquivalent vertexMap rs ps := by
  rcases result with _ | r
  · exact iff_of_true (fun n n' => Iff.rfl) (by simp)
  rcases expected with _ | e
  · exact iff_of_true (fun n n' => Iff.rfl) (by simp)
  show (∀ n n', Raised ((equivalenceValidator vertexMap).run r e n) ↔
    Raised ((equivalenceValidator vertexMap).run r e n')) ↔ _
  simp only [Validator.raised_run_iff onlyMissing_equivalence, Option.mem_some_iff, forall_eq']
  have hinsert : ∀ rs : List (LineOf Int64),
      rs.foldlM (equivalenceValidator vertexMap).insertLine (0, ∅) =
        .ok (0 + rs.length, readComponents (rs.map LineOf.toLine) ∅) :=
    fun rs => foldlM_insertLine_equivalence rs 0 ∅
  constructor
  · intro hall rs ps hparses hmissing
    exact noMismatch_equivalence_iff.mp (hall rs _ hparses (hinsert rs) ps hmissing)
  · intro hall rs s hparses hs ps hmissing
    obtain rfl := Except.ok.inj ((hinsert rs).symm.trans hs)
    exact noMismatch_equivalence_iff.mpr (hall rs ps hparses hmissing)

/-- **When the verdict depends on the error budget.** The exact match raises under one maximum of
errors exactly when it raises under another, on every two files. So do the epsilon match and the
equivalence match, unless the reference has a vertex that is not in the map behind lines that can be
read, whose vertices are in the map, and which have a mismatch. -/
theorem verdict_iff (strtod : List UInt8 → Value) (result expected : Option (List UInt8))
    (vertexMap : Option VertexMap) (relabelValues : Bool) (epsilon : ℚ) :
    (∀ n n', Raised (exactMatchText result expected n vertexMap relabelValues) ↔
      Raised (exactMatchText result expected n' vertexMap relabelValues)) ∧
    ((∀ n n', Raised (epsilonMatchText strtod result expected epsilon n vertexMap) ↔
        Raised (epsilonMatchText strtod result expected epsilon n' vertexMap)) ↔
      ∀ r ∈ result, ∀ e ∈ expected, ∀ rs ps,
        (epsilonValidator strtod epsilon vertexMap).Parses r rs →
        (rs.map LineOf.vertexId).Nodup →
        (epsilonValidator strtod epsilon vertexMap).MissingAfter vertexMap e ps →
        NoMismatchWithin epsilon vertexMap rs ps) ∧
    ((∀ n n', Raised (equivalenceMatchText result expected n vertexMap) ↔
        Raised (equivalenceMatchText result expected n' vertexMap)) ↔
      ∀ r ∈ result, ∀ e ∈ expected, ∀ rs ps,
        (equivalenceValidator vertexMap).Parses r rs →
        (equivalenceValidator vertexMap).MissingAfter vertexMap e ps →
        NoMismatchEquivalent vertexMap rs ps) := by
  refine ⟨fun n n' => ?_, raised_epsilonMatchText_iff strtod result expected vertexMap epsilon,
    raised_equivalenceMatchText_iff result expected vertexMap⟩
  rcases expected with _ | e
  · exact Iff.rfl
  rcases result with _ | r
  · exact Iff.rfl
  exact Validator.raised_run_of_defined
    (fun h s line => exactStep_defined h s line.toLine) r e n n'

/-- A vertex that is not in the map is reached behind a mismatch, unless the first mismatch is
raised: `1 5` in the result, `3 5` and `2 5` in the reference, and no vertex `2` in the map. -/
theorem not_verdict :
    ¬∀ n n', Raised (equivalenceMatchText (some (terminated [[49, 32, 53]]))
        (some (terminated [[51, 32, 53], [50, 32, 53]])) n
        (some fun x => if x = 2 then none else some x)) ↔
      Raised (equivalenceMatchText (some (terminated [[49, 32, 53]]))
        (some (terminated [[51, 32, 53], [50, 32, 53]])) n'
        (some fun x => if x = 2 then none else some x)) := by
  intro hall
  have hsingle : equivalenceMatchText (some (terminated [[49, 32, 53]]))
      (some (terminated [[51, 32, 53], [50, 32, 53]])) 1
      (some fun x => if x = 2 then none else some x) =
        some (.error (.single (.missing 0 3))) := rfl
  have hundefined : equivalenceMatchText (some (terminated [[49, 32, 53]]))
      (some (terminated [[51, 32, 53], [50, 32, 53]])) 0
      (some fun x => if x = 2 then none else some x) =
        some (.error (.fatal (.validate .undefinedBehaviour))) := rfl
  have hraised := (hall 1 0).mp (by
    rw [hsingle, raised_some_iff]
    exact ⟨_, rfl, by simp⟩)
  rw [hundefined, raised_some_iff] at hraised
  obtain ⟨e, he, hdefined⟩ := hraised
  exact hdefined _ (Except.error.inj he).symm rfl

end Comparisons

end GraphalyticsValidate

end GfeDriver
