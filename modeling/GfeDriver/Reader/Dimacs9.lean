import GfeDriver.Reader.EdgeList

/-!
# The reader of DIMACS files

Each line of a file starts with a character that says what it is: those that start with `a` are the
arcs of a graph, and all others are skipped. The lines are read into a buffer. After a line that
does not fit, nothing more is read.

So a line of 1024 characters or more ends the graph, even if it is a comment.

## Main definitions

* `Dimacs9Reader`, `Dimacs9Reader.read`: the reader
* `DimacsLine`, `DimacsFile`: the lines of a file

## Main results

* `nextArc_kept`, `nextArc_end`: the next line that is an arc
* `readArc_row`: the fields of an arc are read
* `returnsAll_readable`: the reader returns the arcs in front of a line that does not fit
* `returnsArcs_iff`: when it returns all arcs
-/

namespace GfeDriver

open Foundation

/-! ## The reader -/

/-- **The reader**. -/
structure Dimacs9Reader where
  handle : TextStream

namespace Dimacs9Reader

/-- The constructor, for a file that was opened. -/
def new (text : List UInt8) : Dimacs9Reader := ⟨.openText text⟩

/-- The number of characters that `getline` may store, with the terminator. -/
def bufferSz : ℕ := 1025 - 1

/-- `parse_line`: what is behind the first character, if the line represents an edge. -/
def parseLine (line : List UInt8) : Option (List UInt8) :=
  match line with
  | 97 :: rest => some (skipSpaces rest)
  | _ => none

/-- The line is skipped. -/
def skip (line : List UInt8) : Bool := (parseLine line).isNone

/-- The loop that reads the next line that is not a comment, for a stream that is good. -/
def nextArc (handle : TextStream) : Option (Option (List UInt8) × TextStream) := do
  let (line, handle) ← doWhile (skipping skip Prod.snd Prod.fst)
    (fun s => some (s.2.getlineBuffer bufferSz)) (lineFuel handle.rest) ([], handle)
  return (if skip line then none else some line, handle)

/-- The weight of an arc, from what is behind its destination. The numbers of `strtoul` are those of
`strtoull`. -/
def readWeight (line next : List UInt8) : Except EdgeListError (WithTop ℚ) :=
  let current := skipSpaces next
  if startsWithDigit current then .ok (roundDouble (strtoull current).1.toNat)
  else .error (.weight line)

/-- The arc in a line, of which `current` is behind the first character. -/
def readArc (line current : List UInt8) : Except EdgeListError (WeightedEdge (WithTop ℚ)) :=
  if startsWithDigit current then
    let (source, next) := strtoull current
    let current := skipSpaces next
    if startsWithDigit current then
      let (destination, next) := strtoull current
      match readWeight line next with
      | .error e => .error e
      | .ok weight => .ok ⟨source.toNat, destination.toNat, weight⟩
    else .error (.destination line)
  else .error (.source line)

/-- `read`. -/
def read (r : Dimacs9Reader) :
    Option (Except EdgeListError (Option (WeightedEdge (WithTop ℚ))) × Dimacs9Reader) :=
  if r.handle.good then do
    match ← nextArc r.handle with
    | (none, handle) => return (.ok none, { handle })
    | (some line, handle) =>
      match readArc line ((parseLine line).getD []) with
      | .error e => return (.error e, { handle })
      | .ok edge => return (.ok (some edge), { handle })
  else some (.ok none, r)

end Dimacs9Reader

/-! ## Files -/

/-- **A line of a file**: an arc, or another line, which starts with a different character if it is
not empty. -/
inductive DimacsLine
  | arc (source destination : UInt64) (weight : UInt32)
  | other (text : List UInt8) (newline_notMem : newline ∉ text) (head_ne : text.head? ≠ some 97)

namespace DimacsLine

/-- The numbers of an arc, with blanks between them. -/
def arcFields (source destination : UInt64) (weight : UInt32) : List UInt8 :=
  decimalDigits source.toNat ++ ([32] ++
    (decimalDigits destination.toNat ++ ([32] ++ decimalDigits weight.toNat)))

def text : DimacsLine → List UInt8
  | arc source destination weight => 97 :: 32 :: arcFields source destination weight
  | other text _ _ => text

/-- The arc in a line. -/
def arc? : DimacsLine → Option (WeightedEdge (WithTop ℚ))
  | arc source destination weight =>
    some ⟨source.toNat, destination.toNat, ((weight.toNat : ℚ) : WithTop ℚ)⟩
  | other _ _ _ => none

/-- The line is read into the buffer. -/
def fits (l : DimacsLine) : Bool := l.text.length < Dimacs9Reader.bufferSz

end DimacsLine

/-- **A file**. A file that ends with a newline has an empty line at its end. -/
structure DimacsFile where
  lines : List DimacsLine
  lines_ne_nil : lines ≠ []

def DimacsFile.text (file : DimacsFile) : List UInt8 := joinLines (file.lines.map DimacsLine.text)

/-- The arcs of some lines. -/
def arcsOf (lines : List DimacsLine) : List (WeightedEdge (WithTop ℚ)) :=
  lines.filterMap DimacsLine.arc?

/-- **The reader returns every arc** of a file, in their order, and then none. -/
def ReturnsArcs (file : DimacsFile) : Prop :=
  ReturnsAll Dimacs9Reader.read Eq (.new file.text) (arcsOf file.lines)

/-! ## Lines -/

section Lines

open Dimacs9Reader DimacsLine

variable {f : TextStream} {l : List UInt8} {ls kept : List (List UInt8)}

theorem skip_other {text : List UInt8} (h : text.head? ≠ some 97) : skip text = true := by
  cases text with
  | nil => rfl
  | cons c text =>
    have hc : c ≠ 97 := fun heq => h (congrArg some heq)
    have hparse : parseLine (c :: text) = none := by
      rw [parseLine]
      rintro rest heq
      exact hc (List.cons.inj heq).1
    rw [skip, hparse]
    rfl

/-- An arc fits in the buffer. -/
theorem fits_arc (source destination : UInt64) (weight : UInt32) :
    (arc source destination weight).fits = true := by
  have hsource : (decimalDigits source.toNat).length ≤ 20 :=
    length_decimalDigits_le (by norm_num) (source.toNat_lt.trans_le (by norm_num))
  have hdestination : (decimalDigits destination.toNat).length ≤ 20 :=
    length_decimalDigits_le (by norm_num) (destination.toNat_lt.trans_le (by norm_num))
  have hweight : (decimalDigits weight.toNat).length ≤ 20 :=
    length_decimalDigits_le (by norm_num) (weight.toNat_lt.trans_le (by norm_num))
  rw [fits, decide_eq_true_eq]
  simp only [text, arcFields, bufferSz, List.length_cons, List.length_append, List.length_nil]
  omega

theorem newline_notMem_text (line : DimacsLine) : newline ∉ line.text := by
  cases line with
  | other text newline_notMem head_ne => exact newline_notMem
  | arc source destination weight =>
    have hdigits : ∀ n, newline ∉ decimalDigits n := by
      intro n hmem
      have hdigit := isDigit_of_mem_decimalDigits hmem
      cases hdigit
    have ha : newline ≠ 97 := nofun
    have hblank : newline ≠ 32 := nofun
    simp [text, arcFields, hdigits, ha, hblank]

/-- The loop goes up to an arc, or behind the last line. -/
theorem nextArc_loop (h : BufferRemaining bufferSz f (l :: ls)) :
    ∃ line f', doWhile (skipping skip Prod.snd Prod.fst)
        (fun s => some (s.2.getlineBuffer bufferSz)) (lineFuel f.rest) (([] : List UInt8), f) =
          some (line, f') ∧
      ((∃ rest, (l :: ls).filter (fun l => !skip l) = line :: rest.filter (fun l => !skip l) ∧
          skip line = false ∧ BufferRemaining bufferSz f' rest) ∨
        ((l :: ls).filter (fun l => !skip l) = [] ∧ skip line = true)) := by
  have hpos : 0 < bufferSz := by norm_num [bufferSz]
  obtain ⟨⟨line, f'⟩, hloop, ⟨l', rest, hfilter, hl, hline, hrest⟩ | ⟨hnil, hl, -⟩⟩ :=
    doWhile_skipping_of (R := fun s ls => BufferRemaining bufferSz (Prod.snd s) ls)
      (fun s l ls h => BufferRemaining.getlineBuffer hpos h)
      (fun s h => BufferRemaining.not_good h) (show BufferRemaining bufferSz (([], f) :
        List UInt8 × TextStream).2 (l :: ls) from h) (List.cons_ne_nil l ls) h.length_lt_lineFuel
  · obtain rfl : line = l' := hline
    exact ⟨line, f', hloop, Or.inl ⟨rest, hfilter, hl, hrest⟩⟩
  · exact ⟨line, f', hloop, Or.inr ⟨hnil, hl⟩⟩

/-- **A line that is not skipped** is found. -/
theorem nextArc_kept (h : BufferRemaining bufferSz f ls)
    (hkept : ls.filter (fun l => !skip l) = l :: kept) :
    f.good = true ∧ ∃ f' rest, nextArc f = some (some l, f') ∧ BufferRemaining bufferSz f' rest ∧
      rest.filter (fun l => !skip l) = kept := by
  cases ls with
  | nil => cases hkept
  | cons l₀ ls =>
    refine ⟨(h.getlineBuffer (by norm_num [bufferSz])).1, ?_⟩
    obtain ⟨line, f', hloop, ⟨rest, hfilter, hl, hrest⟩ | ⟨hnil, -⟩⟩ := nextArc_loop h
    · obtain ⟨rfl, rfl⟩ := List.cons.inj (hkept.symm.trans hfilter)
      refine ⟨f', rest, ?_, hrest, rfl⟩
      rw [nextArc, hloop]
      show some (if skip l then none else some l, f') = _
      rw [if_neg (by rw [hl]; exact Bool.false_ne_true)]
    · rw [hkept] at hnil
      cases hnil

/-- **No line is kept** up to the end of the file. -/
theorem nextArc_end (h : BufferRemaining bufferSz f ls)
    (hkept : ls.filter (fun l => !skip l) = []) (hgood : f.good = true) :
    ∃ f', nextArc f = some (none, f') := by
  cases ls with
  | nil =>
    rw [h.not_good] at hgood
    cases hgood
  | cons l₀ ls =>
    obtain ⟨line, f', hloop, ⟨rest, hfilter, -⟩ | ⟨-, hl⟩⟩ := nextArc_loop h
    · rw [hkept] at hfilter
      cases hfilter
    · refine ⟨f', ?_⟩
      rw [nextArc, hloop]
      show some (if skip line then none else some line, f') = _
      rw [if_pos hl]

/-- The numbers of an arc are the fields of its line. -/
theorem row_arcFields (source destination : UInt64) (weight : UInt32) :
    Row [(Numeral.ofNat source.toNat).text, (Numeral.ofNat destination.toNat).text,
      (Numeral.ofNat weight.toNat).text] (arcFields source destination weight) :=
  ((Row.numeral _).cons_numeral _).cons_numeral _

theorem parseLine_arc (source destination : UInt64) (weight : UInt32) :
    parseLine (arc source destination weight).text =
      some (arcFields source destination weight) := by
  have hspaces : ∀ c ∈ ([32] : List UInt8), isSpace c = true := List.forall_mem_singleton.mpr rfl
  have hskip := skipSpaces_append hspaces (row_arcFields source destination weight).head_isSpace
  exact congrArg some hskip

/-- **The fields of an arc** are read. -/
theorem readArc_row (source destination : UInt64) (weight : UInt32) (line : List UInt8) :
    readArc line (arcFields source destination weight) =
      .ok ⟨source.toNat, destination.toNat, ((weight.toNat : ℚ) : WithTop ℚ)⟩ := by
  obtain ⟨hdigit, hsource, hrow⟩ := (row_arcFields source destination weight).strtoull
  obtain ⟨hdigit', hdestination, hrow'⟩ := hrow.strtoull
  obtain ⟨hdigit'', hweight, -⟩ := hrow'.strtoull
  have hlt : weight.toNat < 2 ^ 32 := weight.toNat_lt
  have hlt' := source.toNat_lt
  have hlt'' := destination.toNat_lt
  rw [Numeral.value_ofNat, min_eq_left (by omega)] at hsource hdestination hweight
  have hread : readWeight line (strtoull (skipSpaces
      (strtoull (arcFields source destination weight)).2)).2 =
      .ok ((weight.toNat : ℚ) : WithTop ℚ) := by
    simp only [readWeight, hdigit'', if_true, hweight]
    rw [UInt64.toNat_ofNat_of_lt' (hlt.trans (by norm_num)), roundDouble_natCast (by omega)]
  simp only [readArc, hdigit, hdigit', if_true, hsource, hdestination, hread]
  rw [UInt64.ofNat_toNat, UInt64.ofNat_toNat]

/-! ## The calls of the reader -/

/-- A line of an arc. -/
def ArcText (e : WeightedEdge (WithTop ℚ)) (l : List UInt8) : Prop :=
  ∃ source destination weight, l = (arc source destination weight).text ∧
    (arc source destination weight).arc? = some e

/-- **The arcs that are left** are returned, and none behind them. -/
theorem returnsAll_rest {edges : List (WeightedEdge (WithTop ℚ))}
    (h : BufferRemaining bufferSz f ls)
    (hedges : List.Forall₂ ArcText edges (ls.filter fun l => !skip l)) :
    ReturnsAll Dimacs9Reader.read Eq ⟨f⟩ edges := by
  induction edges generalizing f ls with
  | nil =>
    have hkept := (List.forall₂_nil_left_iff.mp hedges)
    by_cases hgood : f.good = true
    · obtain ⟨f', hnext⟩ := nextArc_end h hkept hgood
      refine ⟨⟨f'⟩, ?_⟩
      rw [Dimacs9Reader.read, if_pos hgood, hnext]
      rfl
    · exact ⟨⟨f⟩, if_neg hgood⟩
  | cons e edges ih =>
    obtain ⟨l, kept, ⟨source, destination, weight, rfl, he⟩, hrest, hkept⟩ :=
      List.forall₂_cons_left_iff.mp hedges
    obtain ⟨hgood, f', rest, hnext, hremaining, hfilter⟩ := nextArc_kept h hkept
    refine ⟨e, ⟨f'⟩, ?_, rfl, ih hremaining (by rw [hfilter]; exact hrest)⟩
    have hparse : (parseLine (arc source destination weight).text).getD [] =
        arcFields source destination weight := by
      rw [parseLine_arc]
      rfl
    obtain rfl := Option.some.inj he
    have hread := readArc_row source destination weight (arc source destination weight).text
    rw [Dimacs9Reader.read, if_pos hgood, hnext]
    simp only [Option.bind_eq_bind, Option.bind_some, hparse, hread]
    rfl

/-- The lines that are not skipped, of those that are read into the buffer, are the arcs in front of
a line that does not fit. -/
theorem arcs_cutLines (lines : List DimacsLine) :
    List.Forall₂ ArcText (arcsOf (lines.takeWhile fits))
      ((cutLines bufferSz (lines.map text)).filter fun l => !skip l) := by
  induction lines with
  | nil => exact List.Forall₂.nil
  | cons l lines ih =>
    cases l with
    | arc source destination weight =>
      have hfits := fits_arc source destination weight
      have hlength : (arc source destination weight).text.length < bufferSz :=
        of_decide_eq_true hfits
      rw [List.takeWhile_cons_of_pos hfits, List.map_cons, cutLines, if_pos hlength,
        List.filter_cons_of_pos (by rw [skip, parseLine_arc]; rfl)]
      exact List.Forall₂.cons ⟨source, destination, weight, rfl, rfl⟩ ih
    | other text newline_notMem head_ne =>
      rw [List.map_cons, cutLines]
      by_cases hlength : (other text newline_notMem head_ne).text.length < bufferSz
      · have hfits : (other text newline_notMem head_ne).fits = true := decide_eq_true hlength
        rw [List.takeWhile_cons_of_pos hfits, if_pos hlength,
          List.filter_cons_of_neg (by rw [DimacsLine.text, skip_other head_ne]; decide)]
        exact ih
      · -- the line is cut, and still starts with a different character
        have hhead : (text.take (bufferSz - 1)).head? ≠ some 97 := by
          rw [List.head?_take, if_neg (by norm_num [bufferSz])]
          exact head_ne
        have hfits : ¬(other text newline_notMem head_ne).fits = true :=
          fun hfits => hlength (of_decide_eq_true hfits)
        rw [List.takeWhile_cons_of_neg hfits, if_neg hlength,
          List.filter_cons_of_neg (by rw [DimacsLine.text, skip_other hhead]; decide)]
        exact List.Forall₂.nil

/-- **The arcs in front of a line that does not fit** are returned. -/
theorem returnsAll_readable (file : DimacsFile) :
    ReturnsAll Dimacs9Reader.read Eq (.new file.text) (arcsOf (file.lines.takeWhile fits)) := by
  have hremaining : Remaining (TextStream.openText file.text) (file.lines.map text) := by
    refine remaining_openText (fun hnil => file.lines_ne_nil (List.map_eq_nil_iff.mp hnil)) ?_
    intro l hl
    obtain ⟨line, -, rfl⟩ := List.mem_map.mp hl
    exact newline_notMem_text line
  exact returnsAll_rest ⟨_, hremaining, rfl⟩ (arcs_cutLines file.lines)

end Lines

/-! ## The arcs of a file -/

section Files

open DimacsLine

variable {file : DimacsFile}

theorem arcsOf_append (pre post : List DimacsLine) :
    arcsOf (pre ++ post) = arcsOf pre ++ arcsOf post :=
  List.filterMap_append

theorem arcsOf_eq_nil_iff {lines : List DimacsLine} :
    arcsOf lines = [] ↔ ∀ source destination weight, arc source destination weight ∉ lines := by
  rw [arcsOf, List.filterMap_eq_nil_iff]
  constructor
  · intro h source destination weight hmem
    cases h _ hmem
  · intro h l hl
    cases l with
    | arc source destination weight => exact absurd hl (h source destination weight)
    | other text newline_notMem head_ne => rfl

/-- **The reader returns every arc** exactly when there is no arc behind a line that does not
fit. -/
theorem returnsArcs_iff (file : DimacsFile) :
    ReturnsArcs file ↔
      ∀ pre l post, file.lines = pre ++ l :: post → 1024 ≤ l.text.length →
        ∀ source destination weight, arc source destination weight ∉ post := by
  have hall := returnsAll_readable file
  have hsplit : arcsOf file.lines =
      arcsOf (file.lines.takeWhile fits) ++ arcsOf (file.lines.dropWhile fits) := by
    rw [← arcsOf_append, List.takeWhile_append_dropWhile]
  have hiff : ReturnsArcs file ↔ arcsOf (file.lines.dropWhile fits) = [] := by
    constructor
    · intro h
      have heq := ReturnsAll.unique h hall
      rw [hsplit] at heq
      exact List.append_right_eq_self.mp heq
    · intro hnil
      rw [ReturnsArcs, hsplit, hnil, List.append_nil]
      exact hall
  rw [hiff, arcsOf_eq_nil_iff]
  constructor
  · intro h pre l post hlines hlength source destination weight hmem
    have hfits : ¬l.fits = true :=
      fun hfits => absurd (of_decide_eq_true hfits) (not_lt.mpr hlength)
    refine h source destination weight ?_
    rw [hlines, List.dropWhile_append]
    split_ifs
    · rw [List.dropWhile_cons_of_neg hfits]
      exact List.mem_cons_of_mem l hmem
    · exact List.mem_append_right _ (List.mem_cons_of_mem l hmem)
  · intro h source destination weight hmem
    cases hdrop : file.lines.dropWhile fits with
    | nil =>
      rw [hdrop] at hmem
      exact absurd hmem List.not_mem_nil
    | cons l post =>
      -- the first line that does not fit is not an arc
      have hfits : ¬l.fits = true := by
        have hne : file.lines.dropWhile fits ≠ [] := by
          rw [hdrop]
          exact List.cons_ne_nil l post
        have hhead := List.head_dropWhile_not fits hne
        simpa [hdrop] using hhead
      have hlength : 1024 ≤ l.text.length := not_lt.mp fun hlt => hfits (decide_eq_true hlt)
      have hlines : file.lines = file.lines.takeWhile fits ++ l :: post := by
        rw [← hdrop, List.takeWhile_append_dropWhile]
      rw [hdrop] at hmem
      rcases List.mem_cons.mp hmem with rfl | hpost
      · exact hfits (fits_arc source destination weight)
      · exact h _ l post hlines hlength source destination weight hpost

theorem newline_notMem_replicate (n : ℕ) : newline ∉ List.replicate n 99 :=
  fun h => absurd (List.eq_of_mem_replicate h) (by decide)

theorem head_replicate_ne (n : ℕ) : (List.replicate n (99 : UInt8)).head? ≠ some 97 :=
  fun h => absurd (List.eq_of_mem_replicate (List.mem_of_head? h)) (by decide)

/-- A comment. -/
def comment (n : ℕ) : DimacsLine :=
  .other (List.replicate n 99) (newline_notMem_replicate n) (head_replicate_ne n)

theorem not_fits_comment {n : ℕ} (h : 1024 ≤ n) : ¬(comment n).fits = true := by
  intro hfits
  have hlt : (List.replicate n (99 : UInt8)).length < 1024 := of_decide_eq_true hfits
  rw [List.length_replicate] at hlt
  omega

/-- A long comment in front of an arc. -/
def longComment (n : ℕ) : DimacsFile := ⟨[comment n, .arc 1 2 3], List.cons_ne_nil _ _⟩

theorem not_returnsArcs_of_le {n : ℕ} (h : 1024 ≤ n) : ¬ReturnsArcs (longComment n) := by
  intro hall
  have hnil : arcsOf ((longComment n).lines.takeWhile fits) = [] :=
    congrArg arcsOf (List.takeWhile_cons_of_neg (not_fits_comment h))
  have heq := ReturnsAll.unique hall (returnsAll_readable (longComment n))
  rw [hnil] at heq
  cases heq

/-- **An arc is lost** behind a comment of 1024 characters. -/
theorem not_returnsArcs_longComment : ¬ReturnsArcs (longComment 1024) :=
  not_returnsArcs_of_le le_rfl

end Files

end GfeDriver
