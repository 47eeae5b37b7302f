import GfeDriver.Foundation.TextStream
import Mathlib.Tactic

/-!
# The lines of a text, and their fields

A text is its lines, joined by newlines. It ends with a newline when its last line is empty. A
reader that goes through a text line by line skips some of the lines, such as comments, with a
`do … while` loop. What is left for it to read are the lines that it keeps.

A line consists of fields with white space around them. A reader goes through the fields of a line
from the left to the right, each time skipping the white space behind a field.

## Main definitions

* `joinLines`: a text that consists of lines
* `Remaining f ls`, `Kept ignore f ls`: the lines that are left to read, and those to be kept
* `BufferRemaining n f ls`: the lines that are left to read into a buffer
* `Row fields s`, `Line fields l`: a text, and a line, that consist of fields
* `Rendered skip row xs lines`: lines that render items, and others in between

## Main results

* `exists_joinLines`: every text consists of lines
* `Remaining.getline`, `BufferRemaining.getlineBuffer`: the next line is read
* `doWhile_skipping_of`: a loop that skips some of the lines that are read
* `Kept.skip`, `Kept.skip_end`: a loop that skips lines
* `Row.strtoull`: the next field is read as a number
* `Line.fieldsOf`: the fields of a line
* `Rendered.kept`: the lines to be kept are those of the items
-/

namespace Foundation

open TextStream

/-! ## Lines -/

section Lines

/-- Lines, with newlines between them. -/
def joinLines : List (List UInt8) → List UInt8
  | [] => []
  | [l] => l
  | l :: ls => l ++ newline :: joinLines ls

/-- **The lines that are left to read**: none when the stream is at the end of the file. -/
structure Remaining (f : TextStream) (ls : List (List UInt8)) : Prop where
  newline_notMem : ∀ l ∈ ls, newline ∉ l
  eq_openText : ls ≠ [] → f = openText (joinLines ls)
  not_good : ls = [] → f.good = false

variable {f : TextStream} {l : List UInt8} {ls : List (List UInt8)}

theorem remaining_openText (hls : ls ≠ []) (hnewline : ∀ l ∈ ls, newline ∉ l) :
    Remaining (openText (joinLines ls)) ls :=
  ⟨hnewline, fun _ => rfl, fun h => absurd h hls⟩

theorem Remaining.good (h : Remaining f (l :: ls)) : f.good = true := by
  rw [h.eq_openText (List.cons_ne_nil l ls)]
  rfl

/-- **The next line is read**. -/
theorem Remaining.getline (h : Remaining f (l :: ls)) (line : List UInt8) :
    (f.getline line).1 = l ∧ Remaining (f.getline line).2 ls := by
  obtain ⟨hl, hls⟩ := List.forall_mem_cons.mp h.newline_notMem
  rw [h.eq_openText (List.cons_ne_nil l ls)]
  cases ls with
  | nil =>
    rw [joinLines, getline_last hl]
    exact ⟨rfl, hls, fun hne => absurd rfl hne, fun _ => rfl⟩
  | cons l' ls =>
    have hjoin : joinLines (l :: l' :: ls) = l ++ newline :: joinLines (l' :: ls) := rfl
    rw [hjoin, getline_line hl]
    exact ⟨rfl, remaining_openText (List.cons_ne_nil l' ls) hls⟩

/-- **Every text consists of lines**. -/
theorem exists_joinLines (text : List UInt8) :
    ∃ ls, ls ≠ [] ∧ (∀ l ∈ ls, newline ∉ l) ∧ joinLines ls = text := by
  induction text with
  | nil => exact ⟨[[]], List.cons_ne_nil _ _, by simp, rfl⟩
  | cons c text ih =>
    obtain ⟨ls, hne, hnewline, rfl⟩ := ih
    by_cases hc : c = newline
    · refine ⟨[] :: ls, List.cons_ne_nil _ _, ?_, ?_⟩
      · exact List.forall_mem_cons.mpr ⟨List.not_mem_nil, hnewline⟩
      · obtain ⟨l, rest, rfl⟩ := List.exists_cons_of_ne_nil hne
        rw [hc]
        rfl
    · obtain ⟨l, rest, rfl⟩ := List.exists_cons_of_ne_nil hne
      obtain ⟨hl, hrest⟩ := List.forall_mem_cons.mp hnewline
      refine ⟨(c :: l) :: rest, List.cons_ne_nil _ _, ?_, ?_⟩
      · refine List.forall_mem_cons.mpr ⟨fun hmem => ?_, hrest⟩
        rcases List.mem_cons.mp hmem with heq | hmem
        · exact hc heq.symm
        · exact hl hmem
      · cases rest <;> rfl

theorem length_le_length_joinLines (ls : List (List UInt8)) :
    ls.length ≤ (joinLines ls).length + 1 := by
  induction ls with
  | nil => exact Nat.zero_le _
  | cons l ls ih =>
    cases ls with
    | nil => exact Nat.le_add_left 1 _
    | cons l' ls =>
      have hjoin : joinLines (l :: l' :: ls) = l ++ newline :: joinLines (l' :: ls) := rfl
      simp only [hjoin, List.length_append, List.length_cons] at ih ⊢
      omega

/-- A loop over the lines has enough fuel. -/
theorem Remaining.length_lt_lineFuel (h : Remaining f ls) : ls.length < lineFuel f.rest := by
  cases ls with
  | nil => exact Nat.succ_pos _
  | cons l ls =>
    rw [h.eq_openText (List.cons_ne_nil l ls)]
    exact Nat.lt_succ_of_le (length_le_length_joinLines (l :: ls))

/-! ### Lines that are read into a buffer -/

/-- The lines that are read into a buffer: one that does not fit is cut, and is the last one. -/
def cutLines (n : ℕ) : List (List UInt8) → List (List UInt8)
  | [] => []
  | l :: ls => if l.length < n then l :: cutLines n ls else [l.take (n - 1)]

/-- **The lines that are left to read into a buffer**. -/
def BufferRemaining (n : ℕ) (f : TextStream) (ls : List (List UInt8)) : Prop :=
  ∃ all, Remaining f all ∧ cutLines n all = ls

variable {n : ℕ}

theorem length_cutLines_le (n : ℕ) (ls : List (List UInt8)) :
    (cutLines n ls).length ≤ ls.length := by
  induction ls with
  | nil => exact le_rfl
  | cons l ls ih =>
    rw [cutLines]
    split_ifs
    · exact Nat.succ_le_succ ih
    · exact Nat.succ_le_succ (Nat.zero_le _)

theorem cutLines_ne_nil (n : ℕ) (l : List UInt8) (ls : List (List UInt8)) :
    cutLines n (l :: ls) ≠ [] := by
  rw [cutLines]
  split_ifs
  · exact List.cons_ne_nil _ _
  · exact List.cons_ne_nil _ _

/-- The end of the file is reached, or the stream has failed. -/
theorem BufferRemaining.not_good (h : BufferRemaining n f []) : f.good = false := by
  obtain ⟨all, hall, hcut⟩ := h
  cases all with
  | nil => exact hall.not_good rfl
  | cons l all => exact absurd hcut (cutLines_ne_nil n l all)

/-- **The next line is read into the buffer**. -/
theorem BufferRemaining.getlineBuffer (hpos : 0 < n) (h : BufferRemaining n f (l :: ls)) :
    f.good = true ∧ (f.getlineBuffer n).1 = l ∧ BufferRemaining n (f.getlineBuffer n).2 ls := by
  obtain ⟨all, hall, hcut⟩ := h
  cases all with
  | nil => cases hcut
  | cons l' all =>
    refine ⟨hall.good, ?_⟩
    obtain ⟨hnewline, hrest⟩ := List.forall_mem_cons.mp hall.newline_notMem
    have heq := hall.eq_openText (List.cons_ne_nil l' all)
    rw [cutLines] at hcut
    split_ifs at hcut with hlength
    · obtain ⟨rfl, rfl⟩ := List.cons.inj hcut
      cases all with
      | nil =>
        rw [heq, joinLines, getlineBuffer_last hnewline hlength]
        exact ⟨rfl, [], ⟨hrest, fun hne => absurd rfl hne, fun _ => rfl⟩, rfl⟩
      | cons l'' all =>
        have hjoin : joinLines (l' :: l'' :: all) = l' ++ newline :: joinLines (l'' :: all) := rfl
        rw [heq, hjoin, getlineBuffer_line hnewline hlength]
        exact ⟨rfl, _, remaining_openText (List.cons_ne_nil l'' all) hrest, rfl⟩
    · obtain ⟨rfl, rfl⟩ := List.cons.inj hcut
      have htext : joinLines (l' :: all) = l' ∨
          ∃ rest, joinLines (l' :: all) = l' ++ newline :: rest := by
        cases all with
        | nil => exact Or.inl rfl
        | cons l'' all => exact Or.inr ⟨_, rfl⟩
      obtain ⟨hread, hfail⟩ := getlineBuffer_long hnewline hpos (not_lt.mp hlength) htext
      rw [heq]
      exact ⟨hread, [], ⟨fun _ hl => absurd hl List.not_mem_nil, fun hne => absurd rfl hne,
        fun _ => hfail⟩, rfl⟩

theorem BufferRemaining.length_lt_lineFuel (h : BufferRemaining n f ls) :
    ls.length < lineFuel f.rest := by
  obtain ⟨all, hall, rfl⟩ := h
  exact lt_of_le_of_lt (length_cutLines_le n all) hall.length_lt_lineFuel

end Lines

/-! ## Lines that are skipped -/

section Skip

variable {ignore : List UInt8 → Bool} {f : TextStream} {l : List UInt8} {ls : List (List UInt8)}

/-- **The lines that are kept**, of those that are left to read. -/
def Kept (ignore : List UInt8 → Bool) (f : TextStream) (ls : List (List UInt8)) : Prop :=
  ∃ all, Remaining f all ∧ all.filter (fun l => !ignore l) = ls

variable {σ : Type} {stream : σ → TextStream} {line : σ → List UInt8} {body : σ → σ}
  {I : σ → Prop} {s : σ}

/-- The condition of a loop that skips lines. -/
def skipping (ignore : List UInt8 → Bool) (stream : σ → TextStream) (line : σ → List UInt8)
    (s : σ) : Bool :=
  ignore (line s) && (stream s).good

/-- **A loop that skips lines** goes up to a line that is kept, or behind the last line. The lines
that are read are those that a relation gives for each state. -/
theorem doWhile_skipping_of {R : σ → List (List UInt8) → Prop}
    (hcons : ∀ s l ls, R s (l :: ls) →
      (stream s).good = true ∧ line (body s) = l ∧ R (body s) ls)
    (hnil : ∀ s, R s [] → (stream s).good = false) {all : List (List UInt8)}
    (h : R s all) (hall : all ≠ []) {fuel : ℕ} (hfuel : all.length < fuel) :
    ∃ s', doWhile (skipping ignore stream line) (fun s => some (body s)) fuel s = some s' ∧
      ((∃ l rest, all.filter (fun l => !ignore l) = l :: rest.filter (fun l => !ignore l) ∧
          ignore l = false ∧ line s' = l ∧ R s' rest) ∨
        (all.filter (fun l => !ignore l) = [] ∧ ignore (line s') = true ∧ R s' [])) := by
  induction all generalizing s fuel with
  | nil => exact absurd rfl hall
  | cons l rest ih =>
    obtain ⟨-, hread, hrest⟩ := hcons s l rest h
    obtain ⟨fuel, rfl⟩ : ∃ n, fuel = n + 1 := ⟨fuel - 1, by omega⟩
    have hloop : doWhile (skipping ignore stream line) (fun s => some (body s)) (fuel + 1) s =
        whileLoop (skipping ignore stream line) (fun s => some (body s)) (fuel + 1) (body s) := rfl
    rw [hloop]
    cases hl : ignore l with
    | false =>
      have hstop : skipping ignore stream line (body s) = false := by
        rw [skipping, hread, hl, Bool.false_and]
      refine ⟨body s, whileLoop_of_not hstop fuel, Or.inl ⟨l, rest, ?_, hl, hread, hrest⟩⟩
      rw [List.filter_cons_of_pos (by rw [hl]; rfl)]
    | true =>
      rw [List.filter_cons_of_neg (by rw [hl]; simp)]
      cases rest with
      | nil =>
        have hstop : skipping ignore stream line (body s) = false := by
          rw [skipping, hnil _ hrest, Bool.and_false]
        refine ⟨body s, whileLoop_of_not hstop fuel, Or.inr ⟨rfl, ?_, hrest⟩⟩
        rw [hread, hl]
      | cons l' rest =>
        have hgo : skipping ignore stream line (body s) = true := by
          rw [skipping, hread, hl, (hcons _ l' rest hrest).1, Bool.and_self]
        have hstep : (fun s => some (body s)) (body s) = some (body (body s)) := rfl
        rw [whileLoop_of_cond hgo hstep]
        exact ih hrest (List.cons_ne_nil l' rest) (Nat.lt_of_succ_lt_succ hfuel)

/-- **A loop that skips lines** of a text. -/
theorem doWhile_skipping
    (hline : ∀ s, line (body s) = ((stream s).getline (line s)).1)
    (hstream : ∀ s, stream (body s) = ((stream s).getline (line s)).2)
    (hkeep : ∀ s, I s → I (body s)) (hI : I s) {all : List (List UInt8)}
    (h : Remaining (stream s) all) (hall : all ≠ []) {fuel : ℕ} (hfuel : all.length < fuel) :
    ∃ s', doWhile (skipping ignore stream line) (fun s => some (body s)) fuel s = some s' ∧ I s' ∧
      ((∃ l rest, all.filter (fun l => !ignore l) = l :: rest.filter (fun l => !ignore l) ∧
          ignore l = false ∧ line s' = l ∧ Remaining (stream s') rest) ∨
        (all.filter (fun l => !ignore l) = [] ∧ ignore (line s') = true ∧
          Remaining (stream s') [])) := by
  have hcons : ∀ s l ls, I s ∧ Remaining (stream s) (l :: ls) →
      (stream s).good = true ∧ line (body s) = l ∧ I (body s) ∧ Remaining (stream (body s)) ls := by
    rintro s l ls ⟨hI, h⟩
    obtain ⟨hread, hrest⟩ := h.getline (line s)
    rw [← hline] at hread
    rw [← hstream] at hrest
    exact ⟨h.good, hread, hkeep s hI, hrest⟩
  obtain ⟨s', hloop, ⟨l, rest, hfilter, hl, hread, hI', hrest⟩ | ⟨hfilter, hl, hI', hrest⟩⟩ :=
    doWhile_skipping_of (R := fun s ls => I s ∧ Remaining (stream s) ls) hcons
      (fun s h => h.2.not_good rfl) ⟨hI, h⟩ hall hfuel
  · exact ⟨s', hloop, hI', Or.inl ⟨l, rest, hfilter, hl, hread, hrest⟩⟩
  · exact ⟨s', hloop, hI', Or.inr ⟨hfilter, hl, hrest⟩⟩

/-- The end of the file is reached. -/
theorem kept_nil_of_not_good (h : f.good = false) : Kept ignore f [] :=
  ⟨[], ⟨fun _ hl => absurd hl List.not_mem_nil, fun hne => absurd rfl hne, fun _ => h⟩, rfl⟩

theorem Kept.good (h : Kept ignore f (l :: ls)) : f.good = true := by
  obtain ⟨all, hall, hfilter⟩ := h
  cases all with
  | nil => cases hfilter
  | cons l' all => exact hall.good

section Loop

variable (I) (hline : ∀ s, line (body s) = ((stream s).getline (line s)).1)
  (hstream : ∀ s, stream (body s) = ((stream s).getline (line s)).2)
  (hkeep : ∀ s, I s → I (body s)) (hI : I s)
include hline hstream hkeep hI

/-- **A line that is kept** is found. -/
theorem Kept.skip (h : Kept ignore (stream s) (l :: ls)) :
    ∃ s', doWhile (skipping ignore stream line) (fun s => some (body s))
        (lineFuel (stream s).rest) s = some s' ∧ I s' ∧ ignore l = false ∧ line s' = l ∧
      Kept ignore (stream s') ls := by
  obtain ⟨all, hall, hfilter⟩ := h
  have hne : all ≠ [] := by
    rintro rfl
    cases hfilter
  obtain ⟨s', hloop, hI', ⟨l', rest, hfilter', hl', hline', hrest⟩ | ⟨hnil, -⟩⟩ :=
    doWhile_skipping hline hstream hkeep hI hall hne hall.length_lt_lineFuel
  · obtain ⟨rfl, rfl⟩ := List.cons.inj (hfilter.symm.trans hfilter')
    exact ⟨s', hloop, hI', hl', hline', rest, hrest, rfl⟩
  · rw [hfilter] at hnil
    cases hnil

/-- **No line is kept** up to the end of the file. -/
theorem Kept.skip_end (h : Kept ignore (stream s) []) (hgood : (stream s).good = true) :
    ∃ s', doWhile (skipping ignore stream line) (fun s => some (body s))
        (lineFuel (stream s).rest) s = some s' ∧ I s' ∧ ignore (line s') = true ∧
      (stream s').good = false := by
  obtain ⟨all, hall, hfilter⟩ := h
  have hne : all ≠ [] := by
    intro hnil
    rw [hall.not_good hnil] at hgood
    cases hgood
  obtain ⟨s', hloop, hI', ⟨l', rest, hfilter', -⟩ | ⟨-, hl', hrest⟩⟩ :=
    doWhile_skipping hline hstream hkeep hI hall hne hall.length_lt_lineFuel
  · rw [hfilter] at hfilter'
    cases hfilter'
  · exact ⟨s', hloop, hI', hl', hrest.not_good rfl⟩

end Loop

end Skip

/-! ## Fields -/

section Fields

/-- **A text that consists of fields**: it starts with the first one, and there is white space
between them, and perhaps behind the last one. -/
inductive Row : List (List UInt8) → List UInt8 → Prop
  | nil : Row [] []
  | cons {field spaces s : List UInt8} {fields : List (List UInt8)} (ne_nil : field ≠ [])
      (not_space : ∀ c ∈ field, isSpace c = false) (spaces_space : ∀ c ∈ spaces, isSpace c = true)
      (spaces_ne_nil : fields ≠ [] → spaces ≠ []) (row : Row fields s) :
      Row (field :: fields) (field ++ (spaces ++ s))

/-- **A line that consists of fields**, perhaps with white space in front of the first one. -/
def Line (fields : List (List UInt8)) (l : List UInt8) : Prop :=
  ∃ spaces s, (∀ c ∈ spaces, isSpace c = true) ∧ Row fields s ∧ l = spaces ++ s

variable {field s l : List UInt8} {fields : List (List UInt8)}

theorem Row.head_isSpace (h : Row fields s) : ∀ c ∈ s.head?, isSpace c = false := by
  cases h with
  | nil => exact fun c hc => nomatch hc
  | @cons field _ _ _ hne hfield _ _ _ =>
    cases field with
    | nil => exact absurd rfl hne
    | cons d field =>
      rintro c hc
      obtain rfl : d = c := Option.some.inj hc
      exact hfield d List.mem_cons_self

theorem Numeral.not_space (n : Numeral) : ∀ c ∈ n.text, isSpace c = false :=
  fun c hc => isSpace_of_isDigit (n.digits c hc)

/-- A number as the last field. -/
theorem Row.numeral (n : Numeral) : Row [n.text] n.text := by
  have hspaces : ∀ c ∈ ([] : List UInt8), isSpace c = true := fun c hc => absurd hc List.not_mem_nil
  have hrow := Row.cons n.ne_nil n.not_space hspaces (fun hne => absurd rfl hne) Row.nil
  rwa [List.append_nil, List.append_nil] at hrow

/-- A number with a blank behind it. -/
theorem Row.cons_numeral (n : Numeral) (h : Row fields s) :
    Row (n.text :: fields) (n.text ++ ([32] ++ s)) :=
  Row.cons n.ne_nil n.not_space (List.forall_mem_singleton.mpr rfl)
    (fun _ => List.cons_ne_nil 32 []) h

/-- The first field of a line is found. -/
theorem Line.skipSpaces (h : Line fields l) : Row fields (skipSpaces l) := by
  obtain ⟨spaces, s, hspaces, hrow, rfl⟩ := h
  rw [skipSpaces_append hspaces hrow.head_isSpace]
  exact hrow

theorem Row.eq_nil (h : Row [] s) : s = [] := by
  cases h
  rfl

/-- **The first field**, and the fields behind it. -/
theorem Row.uncons (h : Row (field :: fields) s) :
    ∃ rest, s = field ++ rest ∧ (∀ c ∈ rest.head?, isSpace c = true) ∧
      Row fields (Foundation.skipSpaces rest) := by
  cases h with
  | @cons _ spaces s _ hne hfield hspaces hspacesNe hrow =>
    refine ⟨spaces ++ s, rfl, ?_, ?_⟩
    · cases spaces with
      | nil =>
        have hnil : fields = [] := by
          by_contra hfields
          exact hspacesNe hfields rfl
        subst hnil
        rw [hrow.eq_nil]
        exact fun c hc => nomatch hc
      | cons d spaces =>
        rintro c hc
        obtain rfl : d = c := Option.some.inj hc
        exact hspaces d List.mem_cons_self
    · rw [skipSpaces_append hspaces hrow.head_isSpace]
      exact hrow

theorem Row.not_space (h : Row (field :: fields) s) : ∀ c ∈ field, isSpace c = false := by
  cases h
  assumption

/-- **The first field is read** as a number. -/
theorem Row.strtoull {n : Numeral} (h : Row (n.text :: fields) s) :
    startsWithDigit s = true ∧
      (strtoull s).1 = UInt64.ofNat (min n.value (2 ^ 64 - 1)) ∧
      Row fields (Foundation.skipSpaces (Foundation.strtoull s).2) := by
  obtain ⟨rest, rfl, hhead, hrow⟩ := h.uncons
  have hrest : ∀ c ∈ rest.head?, isDigit c = false := by
    intro c hc
    cases hdigit : isDigit c with
    | false => rfl
    | true =>
      have hspace := hhead c hc
      rw [isSpace_of_isDigit hdigit] at hspace
      cases hspace
  rw [Foundation.strtoull, spanDigits_numeral n hrest]
  exact ⟨n.startsWithDigit rest, rfl, hrow⟩

theorem Line.startsWithDigit {n : Numeral} (h : Line (n.text :: fields) l) :
    startsWithDigit (Foundation.skipSpaces l) = true :=
  h.skipSpaces.strtoull.1

/-! ### The fields of a line -/

/-- The fields of a text, of which the first one continues the characters read so far. -/
def fieldsFrom : List UInt8 → List UInt8 → List (List UInt8)
  | acc, [] => if acc = [] then [] else [acc]
  | acc, c :: s =>
    if isSpace c then
      if acc = [] then fieldsFrom [] s else acc :: fieldsFrom [] s
    else fieldsFrom (acc ++ [c]) s

/-- What is between the white space of a line. -/
def fieldsOf (l : List UInt8) : List (List UInt8) := fieldsFrom [] l

theorem fieldsFrom_field (acc rest : List UInt8) (h : ∀ c ∈ field, isSpace c = false) :
    fieldsFrom acc (field ++ rest) = fieldsFrom (acc ++ field) rest := by
  induction field generalizing acc with
  | nil => rw [List.nil_append, List.append_nil]
  | cons c field ih =>
    obtain ⟨hc, hfield⟩ := List.forall_mem_cons.mp h
    rw [List.cons_append, fieldsFrom, hc]
    show fieldsFrom (acc ++ [c]) (field ++ rest) = _
    rw [ih _ hfield, List.append_assoc, List.singleton_append]

theorem fieldsFrom_spaces {spaces : List UInt8} (rest : List UInt8)
    (h : ∀ c ∈ spaces, isSpace c = true) :
    fieldsFrom [] (spaces ++ rest) = fieldsFrom [] rest := by
  induction spaces with
  | nil => rfl
  | cons c spaces ih =>
    obtain ⟨hc, hspaces⟩ := List.forall_mem_cons.mp h
    rw [List.cons_append, fieldsFrom, hc, if_pos rfl, if_pos rfl, ih hspaces]

theorem Row.fieldsOf (h : Row fields s) : fieldsOf s = fields := by
  induction h with
  | nil => rfl
  | @cons field spaces s fields hne hfield hspaces hspacesNe hrow ih =>
    rw [Foundation.fieldsOf, fieldsFrom_field _ _ hfield, List.nil_append]
    cases spaces with
    | nil =>
      have hnil : fields = [] := by
        by_contra hfields
        exact hspacesNe hfields rfl
      subst hnil
      rw [hrow.eq_nil, List.append_nil, fieldsFrom, if_neg hne]
    | cons c spaces =>
      obtain ⟨hc, hspaces⟩ := List.forall_mem_cons.mp hspaces
      rw [List.cons_append, fieldsFrom, hc, if_pos rfl, if_neg hne, fieldsFrom_spaces s hspaces]
      exact congrArg (field :: ·) ih

/-- **The fields of a line**. -/
theorem Line.fieldsOf (h : Line fields l) : fieldsOf l = fields := by
  obtain ⟨spaces, s, hspaces, hrow, rfl⟩ := h
  rw [Foundation.fieldsOf, fieldsFrom_spaces s hspaces]
  exact hrow.fieldsOf

end Fields

/-! ## Rendered lines -/

section Rendered

variable {α : Type} {skip : List UInt8 → Prop} {row : α → List UInt8 → Prop}
  {ignore : List UInt8 → Bool} {xs : List α} {lines : List (List UInt8)}

/-- A line of white space. -/
def Blank (l : List UInt8) : Prop := ∀ c ∈ l, isSpace c = true

/-- A line that starts with a marker, perhaps with white space in front of it. -/
def Comment (marker : UInt8) (l : List UInt8) : Prop :=
  ∃ spaces s, Blank spaces ∧ l = spaces ++ marker :: s

/-- **Lines that render items**, one for each item, with others in between. -/
inductive Rendered (skip : List UInt8 → Prop) (row : α → List UInt8 → Prop) :
    List α → List (List UInt8) → Prop
  | nil : Rendered skip row [] []
  | skip {l : List UInt8} {xs : List α} {lines : List (List UInt8)} (skipped : skip l)
      (rest : Rendered skip row xs lines) : Rendered skip row xs (l :: lines)
  | row {x : α} {l : List UInt8} {xs : List α} {lines : List (List UInt8)} (line : row x l)
      (rest : Rendered skip row xs lines) : Rendered skip row (x :: xs) (l :: lines)

theorem Blank.skipSpaces {l : List UInt8} (h : Blank l) : skipSpaces l = [] :=
  List.dropWhile_eq_nil_iff.mpr h

theorem Comment.skipSpaces {marker : UInt8} {l : List UInt8} (h : Comment marker l)
    (hmarker : isSpace marker = false) : ∃ s, Foundation.skipSpaces l = marker :: s := by
  obtain ⟨spaces, s, hspaces, rfl⟩ := h
  refine ⟨s, skipSpaces_append hspaces fun c hc => ?_⟩
  obtain rfl : marker = c := Option.some.inj hc
  exact hmarker

/-- **The lines to be kept** are those of the items. -/
theorem Rendered.kept (h : Rendered skip row xs lines) (hskip : ∀ l, skip l → ignore l = true)
    (hrow : ∀ x ∈ xs, ∀ l, row x l → ignore l = false) :
    List.Forall₂ row xs (lines.filter fun l => !ignore l) := by
  induction h with
  | nil => exact List.Forall₂.nil
  | @skip l _ _ hl _ ih =>
    rw [List.filter_cons_of_neg (by rw [hskip l hl]; exact Bool.false_ne_true)]
    exact ih hrow
  | @row x l _ _ hl _ ih =>
    rw [List.filter_cons_of_pos (by rw [hrow x List.mem_cons_self l hl]; rfl)]
    exact List.Forall₂.cons hl (ih fun y hy => hrow y (List.mem_cons_of_mem x hy))

end Rendered

end Foundation
