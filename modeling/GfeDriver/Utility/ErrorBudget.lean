import GfeDriver.Foundation.Loop

/-!
# The error budget of a validation

`ERROR_COUNT` and `ERROR_EXIT`, for any kind of mismatch and any kind of line. A validation goes
through the lines of a reference. An error that is not about the values, such as a line that cannot
be parsed, is fatal. A mismatch is counted: it is raised at once if at most one error is allowed,
and otherwise the validation goes on until the maximum is reached. At the end it raises if there
was a mismatch.

So a validation accepts under one maximum when it accepts under another. But a fatal error may be
reached under one maximum, and not under another that stops the validation before. This matters
when the error is no exception, but undefined behaviour.

## Main definitions

* `errorCount`, `errorExit`: the macros
* `validate`: a loop over the lines of a reference
* `countLine`, `silentLine`: a line without a maximum, and a line without a mismatch
* `Raises`: a validation ends with an exception

## Main results

* `validate_ok_iff`: a validation accepts exactly when there is no mismatch
* `raises_iff`: when the maximum decides whether a validation raises
-/

namespace GfeDriver

namespace ErrorBudget

open Foundation

/-- The exceptions of a validation: an error that is not counted, a single mismatch, the maximum
number of them, or the sum of them. -/
inductive Rejection (F M : Type)
  | fatal (f : F)
  | single (mismatch : M)
  | reachedMaximum (maxNumErrors : ℕ)
  | found (errorCount : ℕ)

section Validate

variable {F M σ L : Type}

/-- `ERROR_COUNT`. -/
def errorCount (maxNumErrors count : ℕ) (mismatch : M) : Except (Rejection F M) ℕ :=
  if maxNumErrors = 1 then .error (.single mismatch)
  else if 1 < maxNumErrors ∧ count + 1 = maxNumErrors then .error (.reachedMaximum maxNumErrors)
  else .ok (count + 1)

/-- `ERROR_EXIT`. -/
def errorExit (count : ℕ) : Except (Rejection F M) Unit :=
  if 0 < count then .error (.found count) else .ok ()

/-- The mismatch of a line, if any, is counted. -/
def report (maxNumErrors count : ℕ) : Option M → Except (Rejection F M) ℕ
  | none => .ok count
  | some mismatch => errorCount maxNumErrors count mismatch

/-- A line of the reference. The step raises, or gives the next state and the mismatch to count. -/
def scanLine (step : σ → L → Except F (σ × Option M)) (maxNumErrors : ℕ) (s : σ × ℕ) (line : L) :
    Except (Rejection F M) (σ × ℕ) :=
  match step s.1 line with
  | .error f => .error (.fatal f)
  | .ok (s', mismatch) =>
    match report maxNumErrors s.2 mismatch with
    | .error e => .error e
    | .ok count => .ok (s', count)

/-- The end of a validation: one more mismatch to count, and `ERROR_EXIT`. -/
def finish (last : σ → Option M) (maxNumErrors : ℕ) (s : σ × ℕ) : Except (Rejection F M) Unit :=
  match report maxNumErrors s.2 (last s.1) with
  | .error e => .error e
  | .ok count => errorExit count

/-- A validation of the lines of a reference. -/
def validate (step : σ → L → Except F (σ × Option M)) (last : σ → Option M) (maxNumErrors : ℕ)
    (lines : List L) (s : σ) : Except (Rejection F M) Unit :=
  match lines.foldlM (scanLine step maxNumErrors) (s, 0) with
  | .error e => .error e
  | .ok s' => finish last maxNumErrors s'

/-- A line whose mismatch is counted, whatever the maximum is. -/
def countLine (step : σ → L → Except F (σ × Option M)) (s : σ × ℕ) (line : L) :
    Except F (σ × ℕ) :=
  match step s.1 line with
  | .error f => .error f
  | .ok (s', mismatch) => .ok (s', if mismatch.isSome then s.2 + 1 else s.2)

/-- A line without a mismatch. -/
def silentLine (step : σ → L → Except F (σ × Option M)) (s : σ) (line : L) : Option σ :=
  match step s line with
  | .ok (s', none) => some s'
  | _ => none

/-- The validation ends with an exception. Some of the fatal errors are undefined behaviour, which
is none. -/
def Raises (undefined : F → Prop) (result : Except (Rejection F M) Unit) : Prop :=
  ∃ e, result = .error e ∧ ∀ f, e = .fatal f → ¬undefined f

variable {step : σ → L → Except F (σ × Option M)} {maxNumErrors : ℕ} {lines : List L}
  {s s' : σ × ℕ}

/-! ## Counting -/

/-- **A line that can be read** is counted, or its mismatch is raised, and this is no fatal
error. -/
theorem scanLine_cases {line : L} {s₁ : σ} {mismatch : Option M} (maxNumErrors : ℕ)
    (h : step s.1 line = .ok (s₁, mismatch)) :
    (scanLine step maxNumErrors s line = .ok (s₁, if mismatch.isSome then s.2 + 1 else s.2) ∧
        (maxNumErrors = 1 → mismatch = none)) ∨
      mismatch.isSome ∧ maxNumErrors ≠ 0 ∧
        ∃ e, scanLine step maxNumErrors s line = .error e ∧ ∀ f, e ≠ .fatal f := by
  cases mismatch with
  | none =>
    left
    rw [scanLine, h]
    exact ⟨rfl, fun _ => rfl⟩
  | some mismatch =>
    rw [scanLine, h]
    simp only [report, errorCount, Option.isSome_some, if_true]
    split_ifs with hone hmax
    · exact Or.inr ⟨trivial, by omega, _, rfl, by simp⟩
    · exact Or.inr ⟨trivial, by omega, _, rfl, by simp⟩
    · exact Or.inl ⟨rfl, fun h1 => absurd h1 hone⟩

theorem countLine_of_error {line : L} {f : F} (h : step s.1 line = .error f) :
    countLine step s line = .error f := by
  rw [countLine, h]

theorem countLine_of_ok {line : L} {s₁ : σ} {mismatch : Option M}
    (h : step s.1 line = .ok (s₁, mismatch)) :
    countLine step s line = .ok (s₁, if mismatch.isSome then s.2 + 1 else s.2) := by
  rw [countLine, h]

/-- A count raises at the lines with a fatal error. -/
theorem countLine_eq_error_iff {line : L} {f : F} :
    countLine step s line = .error f ↔ step s.1 line = .error f := by
  refine ⟨fun h => ?_, countLine_of_error⟩
  cases hs : step s.1 line with
  | error f' =>
    rw [countLine_of_error hs] at h
    rw [Except.error.inj h]
  | ok r =>
    obtain ⟨s₁, mismatch⟩ := r
    rw [countLine_of_ok hs] at h
    cases h

/-- The first line of a count. -/
theorem foldlM_countLine_cons {line : L} :
    (line :: lines).foldlM (countLine step) s = .ok s' ↔
      ∃ s₁ mismatch, step s.1 line = .ok (s₁, mismatch) ∧
        lines.foldlM (countLine step) (s₁, if mismatch.isSome then s.2 + 1 else s.2) =
          .ok s' := by
  rw [List.foldlM_cons]
  cases hstep : step s.1 line with
  | error f =>
    rw [countLine_of_error hstep]
    constructor
    · intro h
      cases h
    · rintro ⟨s₁, mismatch, h, -⟩
      cases h
  | ok r =>
    rw [countLine_of_ok hstep]
    constructor
    · intro h
      exact ⟨r.1, r.2, rfl, h⟩
    · rintro ⟨s₁, mismatch, h, hrest⟩
      obtain rfl := Except.ok.inj h
      exact hrest

/-- The count is not decreased. -/
theorem le_of_foldlM_countLine (h : lines.foldlM (countLine step) s = .ok s') : s.2 ≤ s'.2 := by
  induction lines generalizing s with
  | nil =>
    obtain rfl := Except.ok.inj h
    exact le_rfl
  | cons line rest ih =>
    obtain ⟨s₁, mismatch, -, hrest⟩ := foldlM_countLine_cons.mp h
    refine le_trans ?_ (ih hrest)
    show s.2 ≤ if mismatch.isSome then s.2 + 1 else s.2
    split_ifs
    · exact Nat.le_succ _
    · exact le_rfl

/-- **A validation and the count**: where every line can be read, the validation comes to the end
with the count, or the maximum stops it. With a maximum of one, a mismatch does. -/
theorem foldlM_scanLine_of_count (maxNumErrors : ℕ)
    (h : lines.foldlM (countLine step) s = .ok s') :
    (lines.foldlM (scanLine step maxNumErrors) s = .ok s' ∧ (maxNumErrors = 1 → s'.2 = s.2)) ∨
      s.2 < s'.2 ∧ maxNumErrors ≠ 0 ∧
        ∃ e, lines.foldlM (scanLine step maxNumErrors) s = .error e ∧ ∀ f, e ≠ .fatal f := by
  induction lines generalizing s with
  | nil =>
    obtain rfl := Except.ok.inj h
    exact Or.inl ⟨rfl, fun _ => rfl⟩
  | cons line rest ih =>
    obtain ⟨s₁, mismatch, hstep, hrest⟩ := foldlM_countLine_cons.mp h
    have hle := le_of_foldlM_countLine hrest
    rw [List.foldlM_cons]
    rcases scanLine_cases maxNumErrors hstep with ⟨hline, hone⟩ | ⟨hsome, hzero, e, hline, he⟩
    · -- counted, and the validation goes on
      rw [hline]
      rcases ih hrest with ⟨hscan, hsame⟩ | ⟨hlt, hzero, hscan⟩
      · refine Or.inl ⟨hscan, fun h1 => ?_⟩
        obtain rfl := hone h1
        exact hsame h1
      · refine Or.inr ⟨lt_of_le_of_lt ?_ hlt, hzero, hscan⟩
        show s.2 ≤ if mismatch.isSome then s.2 + 1 else s.2
        split_ifs
        · exact Nat.le_succ _
        · exact le_rfl
    · rw [hline]
      refine Or.inr ⟨?_, hzero, e, rfl, he⟩
      rw [hsome] at hle
      exact hle

/-- **A validation that comes to its end** has the count. -/
theorem count_of_foldlM_scanLine (h : lines.foldlM (scanLine step maxNumErrors) s = .ok s') :
    lines.foldlM (countLine step) s = .ok s' := by
  induction lines generalizing s with
  | nil =>
    obtain rfl := Except.ok.inj h
    rfl
  | cons line rest ih =>
    rw [List.foldlM_cons] at h
    rw [foldlM_countLine_cons]
    cases hstep : step s.1 line with
    | error f =>
      rw [scanLine, hstep] at h
      cases h
    | ok r =>
      rcases scanLine_cases maxNumErrors hstep with ⟨hline, -⟩ | ⟨-, -, e, hline, -⟩
      · rw [hline] at h
        exact ⟨r.1, r.2, rfl, ih h⟩
      · rw [hline] at h
        cases h

/-- No mismatch is counted exactly when no line has one. -/
theorem foldlM_countLine_same_iff (count : ℕ) {t t' : σ} :
    lines.foldlM (countLine step) (t, count) = .ok (t', count) ↔
      lines.foldlM (silentLine step) t = some t' := by
  induction lines generalizing t with
  | nil =>
    show Except.ok (t, count) = .ok (t', count) ↔ some t = some t'
    rw [Except.ok.injEq, Prod.mk.injEq, Option.some.injEq, and_iff_left rfl]
  | cons line rest ih =>
    rw [foldlM_countLine_cons, List.foldlM_cons]
    cases hstep : step t line with
    | error f =>
      have hline : silentLine step t line = none := by
        rw [silentLine, hstep]
      rw [hline]
      constructor
      · rintro ⟨s₁, mismatch, h, -⟩
        cases h
      · intro h
        cases h
    | ok r =>
      obtain ⟨t₁, mismatch⟩ := r
      cases mismatch with
      | none =>
        have hline : silentLine step t line = some t₁ := by
          rw [silentLine, hstep]
        rw [hline]
        show _ ↔ rest.foldlM (silentLine step) t₁ = some t'
        rw [← ih]
        constructor
        · rintro ⟨s₁, mismatch, h, hrest⟩
          obtain ⟨rfl, rfl⟩ := Prod.mk.inj (Except.ok.inj h)
          exact hrest
        · intro hrest
          exact ⟨t₁, none, rfl, hrest⟩
      | some mismatch =>
        have hline : silentLine step t line = none := by
          rw [silentLine, hstep]
        rw [hline]
        constructor
        · rintro ⟨s₁, mismatch', h, hrest⟩
          obtain ⟨rfl, rfl⟩ := Prod.mk.inj (Except.ok.inj h)
          -- the count of a mismatch stays
          exact absurd (le_of_foldlM_countLine hrest) (Nat.not_succ_le_self count)
        · intro h
          cases h

/-! ## The verdict -/

variable {last : σ → Option M} {undefined : F → Prop} {t : σ}

theorem finish_ok_iff :
    finish (F := F) last maxNumErrors s = .ok () ↔ s.2 = 0 ∧ last s.1 = none := by
  unfold finish
  cases hlast : last s.1 with
  | none =>
    show errorExit s.2 = .ok () ↔ _
    rw [errorExit, and_iff_left rfl]
    split_ifs with hpos
    · simp [Nat.pos_iff_ne_zero.mp hpos]
    · simp [Nat.eq_zero_of_not_pos hpos]
  | some mismatch =>
    simp only [report, errorCount, reduceCtorEq, and_false, iff_false]
    split_ifs <;> simp [errorExit]

/-- The end of a validation raises no fatal error. -/
theorem finish_not_fatal {e : Rejection F M} (h : finish last maxNumErrors s = .error e) (f : F) :
    e ≠ .fatal f := by
  unfold finish at h
  cases hlast : last s.1 with
  | none =>
    rw [hlast] at h
    simp only [report, errorExit] at h
    split_ifs at h
    rw [← Except.error.inj h]
    simp
  | some mismatch =>
    rw [hlast] at h
    simp only [report, errorCount] at h
    split_ifs at h
    all_goals
      simp only [errorExit, Nat.succ_pos, if_true] at h
      rw [← Except.error.inj h]
      simp

/-- **A validation accepts** exactly when there is no mismatch, whatever the maximum is. -/
theorem validate_ok_iff :
    validate step last maxNumErrors lines t = .ok () ↔
      ∃ t', lines.foldlM (silentLine step) t = some t' ∧ last t' = none := by
  unfold validate
  constructor
  · intro h
    cases hscan : lines.foldlM (scanLine step maxNumErrors) (t, 0) with
    | error e =>
      rw [hscan] at h
      cases h
    | ok s' =>
      rw [hscan] at h
      obtain ⟨hzero, hlast⟩ := finish_ok_iff.mp h
      refine ⟨s'.1, (foldlM_countLine_same_iff 0).mp ?_, hlast⟩
      rw [count_of_foldlM_scanLine hscan, ← hzero]
  · rintro ⟨t', hsilent, hlast⟩
    have hcount : lines.foldlM (countLine step) (t, 0) = .ok (t', 0) :=
      (foldlM_countLine_same_iff 0).mpr hsilent
    rcases foldlM_scanLine_of_count maxNumErrors hcount with ⟨hscan, -⟩ | ⟨hlt, -⟩
    · rw [hscan]
      exact finish_ok_iff.mpr ⟨rfl, hlast⟩
    · exact absurd hlt (lt_irrefl 0)

/-- A validation whose lines can all be read ends with an exception, or it accepts. -/
theorem raises_iff_of_count {s' : σ × ℕ} (h : lines.foldlM (countLine step) (t, 0) = .ok s') :
    Raises undefined (validate step last maxNumErrors lines t) ↔
      validate step last maxNumErrors lines t ≠ .ok () := by
  constructor
  · rintro ⟨e, he, -⟩ hok
    rw [he] at hok
    cases hok
  · intro hne
    unfold validate at hne ⊢
    rcases foldlM_scanLine_of_count maxNumErrors h with ⟨hscan, -⟩ | ⟨-, -, e, hscan, he⟩
    · rw [hscan] at hne ⊢
      cases hfinish : finish (F := F) last maxNumErrors s' with
      | error e => exact ⟨e, hfinish, fun f hf => absurd hf (finish_not_fatal hfinish f)⟩
      | ok u => exact absurd hfinish hne
    · rw [hscan]
      exact ⟨e, rfl, fun f hf => absurd hf (he f)⟩

/-- A validation that meets a line with a fatal error raises it, or the maximum stops it before,
which needs a mismatch before it. -/
theorem validate_of_fatal {pre : List L} {line : L} {f : F} (last : σ → Option M)
    (maxNumErrors : ℕ) (post : List L)
    (hpre : pre.foldlM (countLine step) (t, 0) = .ok s) (hline : step s.1 line = .error f) :
    (validate step last maxNumErrors (pre ++ line :: post) t = .error (.fatal f) ∧
        (maxNumErrors = 1 → s.2 = 0)) ∨
      0 < s.2 ∧ maxNumErrors ≠ 0 ∧
        ∃ e, validate step last maxNumErrors (pre ++ line :: post) t = .error e ∧
          ∀ f, e ≠ .fatal f := by
  have happend : ∀ r, pre.foldlM (scanLine step maxNumErrors) (t, 0) = r →
      (pre ++ line :: post).foldlM (scanLine step maxNumErrors) (t, 0) =
        r.bind fun s => (line :: post).foldlM (scanLine step maxNumErrors) s := by
    rintro r rfl
    rw [List.foldlM_append]
    rfl
  rcases foldlM_scanLine_of_count maxNumErrors hpre with ⟨hscan, hone⟩ | ⟨hlt, hzero, e, hscan, he⟩
  · left
    have hfatal : scanLine step maxNumErrors s line = .error (.fatal f) := by
      rw [scanLine, hline]
    have hfold := happend _ hscan
    rw [Except.bind, List.foldlM_cons, hfatal] at hfold
    refine ⟨?_, hone⟩
    rw [validate, hfold]
    rfl
  · right
    rw [validate, happend _ hscan]
    exact ⟨hlt, hzero, e, rfl, he⟩

/-- A validation that meets a line with a fatal error, and no mismatch before undefined behaviour,
raises unless the behaviour of the line is undefined. -/
theorem raises_iff_of_fatal {pre : List L} {line : L} {f : F} (post : List L)
    (hpre : pre.foldlM (countLine step) (t, 0) = .ok s) (hline : step s.1 line = .error f)
    (hzero : undefined f → s.2 = 0) :
    Raises undefined (validate step last maxNumErrors (pre ++ line :: post) t) ↔ ¬undefined f := by
  rcases validate_of_fatal last maxNumErrors post hpre hline with
    ⟨hfatal, -⟩ | ⟨hpos, -, e, he, hnot⟩
  · constructor
    · rintro ⟨e, he, hdefined⟩
      rw [hfatal] at he
      exact hdefined f (Except.error.inj he).symm
    · intro hdefined
      refine ⟨_, hfatal, fun f' hf' => ?_⟩
      obtain rfl := Rejection.fatal.inj hf'
      exact hdefined
  · constructor
    · intro _ hundefined
      exact absurd (hzero hundefined) hpos.ne'
    · intro _
      exact ⟨e, he, fun f' hf' => absurd hf' (hnot f')⟩

/-- **When the maximum decides** whether a validation raises: when undefined behaviour is behind a
mismatch. Otherwise a validation raises under one maximum exactly when it raises under another. -/
theorem raises_iff :
    (∀ n n', Raises undefined (validate step last n lines t) ↔
        Raises undefined (validate step last n' lines t)) ↔
      ∀ pre line post s f, lines = pre ++ line :: post →
        pre.foldlM (countLine step) (t, 0) = .ok s → step s.1 line = .error f → undefined f →
        s.2 = 0 := by
  constructor
  · rintro hall pre line post s f rfl hpre hline hundefined
    by_contra hpos
    -- without a maximum the line is reached, and with a maximum of one it is not
    have hzero : ¬Raises undefined (validate step last 0 (pre ++ line :: post) t) := by
      rintro ⟨e, he, hdefined⟩
      rcases validate_of_fatal last 0 post hpre hline with
        ⟨hfatal, -⟩ | ⟨-, hne, -⟩
      · rw [hfatal] at he
        exact hdefined f (Except.error.inj he).symm hundefined
      · exact hne rfl
    rcases validate_of_fatal last 1 post hpre hline with
      ⟨-, hone⟩ | ⟨-, -, e, he, hfatal⟩
    · exact hpos (hone rfl)
    · exact hzero ((hall 1 0).mp ⟨e, he, fun f hf => absurd hf (hfatal f)⟩)
  · intro hzero n n'
    cases hcount : lines.foldlM (countLine step) (t, 0) with
    | ok s' =>
      -- every line can be read, and acceptance does not depend on the maximum
      rw [raises_iff_of_count hcount, raises_iff_of_count hcount, ne_eq, ne_eq, validate_ok_iff,
        validate_ok_iff]
    | error f =>
      obtain ⟨pre, line, post, s, rfl, hpre, hline⟩ := foldlM_eq_error_iff.mp hcount
      have hstep := countLine_eq_error_iff.mp hline
      have hundefined := hzero pre line post s f rfl hpre hstep
      rw [raises_iff_of_fatal post hpre hstep hundefined,
        raises_iff_of_fatal post hpre hstep hundefined]

end Validate

end ErrorBudget

end GfeDriver
