import GfeDriver.Foundation.Loop
import Mathlib.Data.List.TakeWhile
import Mathlib.Data.Nat.Digits.Defs
import Mathlib.Tactic

/-!
# Text streams

A `std::fstream` opened for reading a text: the characters that were not read yet, and the flags
`eofbit` and `failbit`. There are two ways to read a line, into a string and into a buffer. A line
that ends with the text, and not with a newline, is read as well, and sets `eofbit`. When there is
nothing left to read, or when the line does not fit in the buffer, `failbit` is set, and from then
on every line is empty.

Characters are classified as in the C locale. A number is read from a text that starts with a digit,
and is the largest one of its type when it is too large for it.

## Main definitions

* `isSpace`, `isDigit`, `skipSpaces`: the characters
* `Numeral`, `strtoull`, `strtoll`: the numbers in a text
* `decimalDigits n`: a number in decimal digits
* `TextStream.getline`, `TextStream.getlineBuffer`: the lines of a text
* `forEachLine`: a loop over the lines, up to the end of the file

## Main results

* `spanDigits_numeral`: the digits of a numeral end with it
* `digitsValue_decimalDigits`: the value of the decimal digits
* `forEachLine_open`: the loop is a fold over the lines that are read into the buffer
* `bufferLines_append`: a last line that is not terminated is not read by the loop
-/

namespace Foundation

/-! ## Characters -/

def newline : UInt8 := 10

/-- `isspace`. -/
def isSpace (c : UInt8) : Bool := c = 32 || (9 ≤ c && c ≤ 13)

/-- `isdigit`. -/
def isDigit (c : UInt8) : Bool := 48 ≤ c && c ≤ 57

/-- `while(isspace(s[0])) s++`. -/
def skipSpaces (s : List UInt8) : List UInt8 := s.dropWhile isSpace

/-- The characters of a string up to its terminator. -/
def untilNull (s : List UInt8) : List UInt8 := s.takeWhile (· ≠ 0)

/-- The text starts with a digit. -/
def startsWithDigit (s : List UInt8) : Bool := (s.head?.map isDigit).getD false

theorem isSpace_of_isDigit {c : UInt8} (h : isDigit c = true) : isSpace c = false := by
  simp only [isDigit, Bool.and_eq_true, decide_eq_true_eq, UInt8.le_iff_toNat_le] at h
  simp only [isSpace, Bool.or_eq_false_iff, decide_eq_false_iff_not, Bool.and_eq_false_iff,
    UInt8.le_iff_toNat_le, ← UInt8.toNat_inj]
  have h48 : (48 : UInt8).toNat = 48 := rfl
  have h32 : (32 : UInt8).toNat = 32 := rfl
  have h13 : (13 : UInt8).toNat = 13 := rfl
  omega

theorem skipSpaces_append {spaces rest : List UInt8} (hspaces : ∀ c ∈ spaces, isSpace c = true)
    (hrest : ∀ c ∈ rest.head?, isSpace c = false) : skipSpaces (spaces ++ rest) = rest := by
  rw [skipSpaces, List.dropWhile_append_of_pos hspaces]
  cases rest with
  | nil => rfl
  | cons c rest => exact List.dropWhile_cons_of_neg (by simp [hrest c rfl])

/-! ## Numbers -/

/-- The value of some digits. -/
def digitsValue (s : List UInt8) : ℕ := s.foldl (fun n c => 10 * n + (c.toNat - 48)) 0

/-- A numeral: some digits, and at least one. -/
structure Numeral where
  text : List UInt8
  ne_nil : text ≠ []
  digits : ∀ c ∈ text, isDigit c = true

def Numeral.value (n : Numeral) : ℕ := digitsValue n.text

/-- The digits of a text that starts with a digit, and the text behind them. -/
def spanDigits (s : List UInt8) : List UInt8 × List UInt8 :=
  (s.takeWhile isDigit, s.dropWhile isDigit)

/-- `strtoull(s, &next, 10)`, and `next`. -/
def strtoull (s : List UInt8) : UInt64 × List UInt8 :=
  (UInt64.ofNat (min (digitsValue (spanDigits s).1) (2 ^ 64 - 1)), (spanDigits s).2)

/-- `strtoll(s, &next, 10)`, and `next`. -/
def strtoll (s : List UInt8) : Int64 × List UInt8 :=
  (Int64.ofNat (min (digitsValue (spanDigits s).1) (2 ^ 63 - 1)), (spanDigits s).2)

section Numeral

theorem Numeral.startsWithDigit (n : Numeral) (rest : List UInt8) :
    startsWithDigit (n.text ++ rest) = true := by
  obtain ⟨text, hne, hdigits⟩ := n
  cases text with
  | nil => exact absurd rfl hne
  | cons c text => exact hdigits c List.mem_cons_self

theorem Numeral.head_isSpace (n : Numeral) (rest : List UInt8) :
    ∀ c ∈ (n.text ++ rest).head?, isSpace c = false := by
  obtain ⟨text, hne, hdigits⟩ := n
  cases text with
  | nil => exact absurd rfl hne
  | cons d text =>
    rintro c hc
    obtain rfl : d = c := Option.some.inj hc
    exact isSpace_of_isDigit (hdigits d List.mem_cons_self)

/-- The digits of a numeral end with it. -/
theorem spanDigits_numeral (n : Numeral) {rest : List UInt8}
    (hrest : ∀ c ∈ rest.head?, isDigit c = false) :
    spanDigits (n.text ++ rest) = (n.text, rest) := by
  have htake : rest.takeWhile isDigit = [] := by
    cases rest with
    | nil => rfl
    | cons c rest => exact List.takeWhile_cons_of_neg (by simp [hrest c rfl])
  have hdrop : rest.dropWhile isDigit = rest := by
    cases rest with
    | nil => rfl
    | cons c rest => exact List.dropWhile_cons_of_neg (by simp [hrest c rfl])
  rw [spanDigits, List.takeWhile_append_of_pos n.digits, htake, List.append_nil,
    List.dropWhile_append_of_pos n.digits, hdrop]

/-- The digit of a number below 10. -/
def digitChar (d : ℕ) : UInt8 := UInt8.ofNat (48 + d)

theorem digitChar_toNat {d : ℕ} (h : d < 10) : (digitChar d).toNat = 48 + d :=
  UInt8.toNat_ofNat_of_lt' (by show 48 + d < 256; omega)

theorem isDigit_digitChar {d : ℕ} (h : d < 10) : isDigit (digitChar d) = true := by
  have h48 : (48 : UInt8).toNat = 48 := rfl
  have h57 : (57 : UInt8).toNat = 57 := rfl
  simp only [isDigit, Bool.and_eq_true, decide_eq_true_eq, UInt8.le_iff_toNat_le,
    digitChar_toNat h]
  omega

/-- The decimal digits of a number, without leading zeros. -/
def decimalDigits (n : ℕ) : List UInt8 :=
  if n = 0 then [48] else ((Nat.digits 10 n).map digitChar).reverse

theorem decimalDigits_ne_nil (n : ℕ) : decimalDigits n ≠ [] := by
  rw [decimalDigits]
  split_ifs with h
  · exact List.cons_ne_nil 48 []
  · simp [Nat.digits_eq_nil_iff_eq_zero, h]

theorem isDigit_of_mem_decimalDigits {n : ℕ} {c : UInt8} (hc : c ∈ decimalDigits n) :
    isDigit c = true := by
  rw [decimalDigits] at hc
  split_ifs at hc with h
  · obtain rfl := List.mem_singleton.mp hc
    rfl
  · obtain ⟨d, hd, rfl⟩ := List.mem_map.mp (List.mem_reverse.mp hc)
    exact isDigit_digitChar (Nat.digits_lt_base (by norm_num) hd)

theorem digitsValue_reverse {ds : List ℕ} (hds : ∀ d ∈ ds, d < 10) :
    digitsValue (ds.map digitChar).reverse = Nat.ofDigits 10 ds := by
  rw [digitsValue, List.foldl_reverse]
  induction ds with
  | nil => rfl
  | cons d ds ih =>
    obtain ⟨hd, hds⟩ := List.forall_mem_cons.mp hds
    rw [List.map_cons, List.foldr_cons, ih hds, digitChar_toNat hd, Nat.ofDigits_cons]
    omega

/-- **The value of the digits** is the number. -/
theorem digitsValue_decimalDigits (n : ℕ) : digitsValue (decimalDigits n) = n := by
  rw [decimalDigits]
  split_ifs with h
  · rw [h]
    rfl
  · rw [digitsValue_reverse fun d => Nat.digits_lt_base (by norm_num)]
    exact Nat.ofDigits_digits 10 n

/-- **The number of digits**. -/
theorem length_decimalDigits_le {n k : ℕ} (hk : 0 < k) (h : n < 10 ^ k) :
    (decimalDigits n).length ≤ k := by
  rw [decimalDigits]
  split_ifs with hn
  · exact hk
  · rw [List.length_reverse, List.length_map]
    exact (Nat.digits_length_le_iff (by norm_num) n).mpr h

/-- A number in decimal digits. -/
def Numeral.ofNat (n : ℕ) : Numeral :=
  ⟨decimalDigits n, decimalDigits_ne_nil n, fun _ => isDigit_of_mem_decimalDigits⟩

theorem Numeral.value_ofNat (n : ℕ) : (Numeral.ofNat n).value = n := digitsValue_decimalDigits n

end Numeral

/-! ## Streams -/

/-- A `std::fstream` opened for reading a text. -/
structure TextStream where
  rest : List UInt8
  eofbit : Bool
  failbit : Bool

namespace TextStream

def openText (text : List UInt8) : TextStream := ⟨text, false, false⟩

def good (f : TextStream) : Bool := !f.eofbit && !f.failbit

/-- `getline(stream, line)`. The line is not changed when the stream is not good. -/
def getline (f : TextStream) (line : List UInt8) : List UInt8 × TextStream :=
  if f.good then
    let l := f.rest.takeWhile (· ≠ newline)
    match f.rest.dropWhile (· ≠ newline) with
    | [] => (l, ⟨[], true, l.isEmpty⟩)
    | _ :: rest => (l, ⟨rest, false, false⟩)
  else (line, { f with failbit := true })

/-- `stream.getline(buffer, n)`, which stores at most `n - 1` characters. -/
def getlineBuffer (f : TextStream) (n : ℕ) : List UInt8 × TextStream :=
  if f.good then
    let l := (f.rest.takeWhile (· ≠ newline)).take (n - 1)
    match f.rest.drop l.length with
    | [] => (l, ⟨[], true, l.isEmpty⟩)
    | c :: rest =>
      if c = newline then (l, ⟨rest, false, false⟩) else (l, ⟨c :: rest, false, true⟩)
  else ([], { f with failbit := true })

section Getline

variable {l : List UInt8} (h : newline ∉ l)
include h

theorem takeWhile_line (rest : List UInt8) :
    (l ++ newline :: rest).takeWhile (· ≠ newline) = l := by
  have hl : ∀ c ∈ l, decide (c ≠ newline) = true := by
    intro c hc
    have hne : c ≠ newline := fun heq => h (heq ▸ hc)
    simpa using hne
  rw [List.takeWhile_append_of_pos hl, List.takeWhile_cons_of_neg (by simp), List.append_nil]

theorem takeWhile_last : l.takeWhile (· ≠ newline) = l := by
  apply List.takeWhile_eq_self_iff.mpr
  intro c hc
  have hne : c ≠ newline := fun heq => h (heq ▸ hc)
  simpa using hne

theorem dropWhile_line (rest : List UInt8) :
    (l ++ newline :: rest).dropWhile (· ≠ newline) = newline :: rest := by
  have hl : ∀ c ∈ l, decide (c ≠ newline) = true := by
    intro c hc
    have hne : c ≠ newline := fun heq => h (heq ▸ hc)
    simpa using hne
  rw [List.dropWhile_append_of_pos hl, List.dropWhile_cons_of_neg (by simp)]

theorem dropWhile_last : l.dropWhile (· ≠ newline) = [] := by
  apply List.dropWhile_eq_nil_iff.mpr
  intro c hc
  have hne : c ≠ newline := fun heq => h (heq ▸ hc)
  simpa using hne

/-- **A line is read** up to its newline. -/
theorem getline_line (rest line : List UInt8) :
    (openText (l ++ newline :: rest)).getline line = (l, openText rest) := by
  simp only [getline, good, openText, Bool.not_false, Bool.and_self, if_true, dropWhile_line h,
    takeWhile_line h]

/-- **The last line is read** up to the end of the file. -/
theorem getline_last (line : List UInt8) :
    (openText l).getline line = (l, ⟨[], true, l.isEmpty⟩) := by
  simp only [getline, good, openText, Bool.not_false, Bool.and_self, if_true, dropWhile_last h,
    takeWhile_last h]

theorem getlineBuffer_line {n : ℕ} (hn : l.length < n) (rest : List UInt8) :
    (openText (l ++ newline :: rest)).getlineBuffer n = (l, openText rest) := by
  have htake : l.take (n - 1) = l := List.take_of_length_le (by omega)
  simp only [getlineBuffer, good, openText, Bool.not_false, Bool.and_self, if_true,
    takeWhile_line h, htake, List.drop_left]

theorem getlineBuffer_last {n : ℕ} (hn : l.length < n) :
    (openText l).getlineBuffer n = (l, ⟨[], true, l.isEmpty⟩) := by
  have htake : l.take (n - 1) = l := List.take_of_length_le (by omega)
  simp only [getlineBuffer, good, openText, Bool.not_false, Bool.and_self, if_true,
    takeWhile_last h, htake, List.drop_length]

/-- **A line that does not fit** is cut, and the stream fails. -/
theorem getlineBuffer_long {n : ℕ} (hpos : 0 < n) (hn : n ≤ l.length) {text : List UInt8}
    (htext : text = l ∨ ∃ rest, text = l ++ newline :: rest) :
    ((openText text).getlineBuffer n).1 = l.take (n - 1) ∧
      ((openText text).getlineBuffer n).2.good = false := by
  have htake : text.takeWhile (· ≠ newline) = l := by
    rcases htext with rfl | ⟨rest, rfl⟩
    · exact takeWhile_last h
    · exact takeWhile_line h rest
  obtain ⟨c, rest, hdrop, hc⟩ : ∃ c rest, text.drop (n - 1) = c :: rest ∧ c ∈ l := by
    have hlt : n - 1 < l.length := by omega
    obtain ⟨tail, rfl⟩ : ∃ tail, text = l ++ tail := by
      rcases htext with rfl | ⟨rest, rfl⟩
      · exact ⟨[], (List.append_nil _).symm⟩
      · exact ⟨newline :: rest, rfl⟩
    refine ⟨l[n - 1], l.drop (n - 1 + 1) ++ tail, ?_, List.getElem_mem hlt⟩
    rw [List.drop_append_of_le_length hlt.le, List.drop_eq_getElem_cons hlt, List.cons_append]
  have hne : c ≠ newline := fun heq => h (heq ▸ hc)
  have hlength : (l.take (n - 1)).length = n - 1 := List.length_take_of_le (by omega)
  simp only [getlineBuffer, good, openText, Bool.not_false, Bool.and_self, if_true, htake, hlength,
    hdrop, if_neg hne, Bool.not_true, Bool.and_false, and_self]

end Getline

end TextStream

/-! ## Loops over the lines of a file -/

section ForEachLine

open TextStream

variable {σ : Type} {ε : Type} (n : ℕ)

/-- `while(true) { handle.getline(buffer, n); if(handle.eof()) break; body(buffer) }`, given up when
the fuel is spent. The body may raise an exception. -/
def forEachLine (body : σ → List UInt8 → Except ε σ) : ℕ → TextStream → σ → Option (Except ε σ)
  | 0, _, _ => none
  | fuel + 1, f, s =>
    let read := f.getlineBuffer n
    if read.2.eofbit then some (.ok s)
    else
      match body s read.1 with
      | .error e => some (.error e)
      | .ok s' => forEachLine body fuel read.2 s'

/-- The lines for which the body of the loop runs, as many as there is fuel for. -/
def linesRead : ℕ → TextStream → List (List UInt8)
  | 0, _ => []
  | fuel + 1, f =>
    let read := f.getlineBuffer n
    if read.2.eofbit then [] else read.1 :: linesRead fuel read.2

/-- The rounds that a loop over the lines of a text takes at most. -/
def lineFuel (text : List UInt8) : ℕ := text.length + 2

/-- The lines of a text that are read into a buffer. A line that does not fit is cut, and there is
an empty line behind it. -/
def bufferLines (text : List UInt8) : List (List UInt8) :=
  linesRead n (lineFuel text) (openText text)

variable {n} {body : σ → List UInt8 → Except ε σ}

/-- A line that is read leaves less to read, or the stream fails. -/
theorem getlineBuffer_progress {f : TextStream} (hgood : f.good = true) :
    (f.getlineBuffer n).2.eofbit = true ∨ (f.getlineBuffer n).2.good = false ∨
      (f.getlineBuffer n).2.rest.length < f.rest.length := by
  simp only [getlineBuffer, hgood, if_true]
  split
  · exact Or.inl rfl
  · rename_i c rest hdrop
    split_ifs
    · refine Or.inr (Or.inr ?_)
      have hlength := congrArg List.length hdrop
      rw [List.length_drop, List.length_cons] at hlength
      show rest.length < f.rest.length
      omega
    · exact Or.inr (Or.inl rfl)

/-- **The loop is a fold** over the lines that are read, if its body does not take an empty line. -/
theorem forEachLine_eq (hempty : ∀ s, ∃ e, body s [] = .error e) {fuel : ℕ} {f : TextStream} (s : σ)
    (hfuel : f.good = true → f.rest.length + 1 < fuel) (hpos : 0 < fuel) (heof : f.eofbit = false) :
    forEachLine n body fuel f s = some ((linesRead n fuel f).foldlM body s) := by
  induction fuel generalizing f s with
  | zero => exact absurd hpos (lt_irrefl 0)
  | succ fuel ih =>
    have hread : forEachLine n body (fuel + 1) f s =
        if (f.getlineBuffer n).2.eofbit then some (.ok s)
        else match body s (f.getlineBuffer n).1 with
          | .error e => some (.error e)
          | .ok s' => forEachLine n body fuel (f.getlineBuffer n).2 s' := rfl
    have hlines : linesRead n (fuel + 1) f =
        if (f.getlineBuffer n).2.eofbit then []
        else (f.getlineBuffer n).1 :: linesRead n fuel (f.getlineBuffer n).2 := rfl
    rw [hread, hlines]
    cases hbit : (f.getlineBuffer n).2.eofbit with
    | true => rfl
    | false =>
      simp only [Bool.false_eq_true, if_false, List.foldlM_cons]
      cases hbody : body s (f.getlineBuffer n).1 with
      | error e => rfl
      | ok s' =>
        -- the stream that is left is shorter, or the body raises on the empty line behind it
        by_cases hgood : f.good = true
        · have hlt := hfuel hgood
          refine ih s' ?_ (by omega) hbit
          intro hgood'
          rcases getlineBuffer_progress (n := n) hgood with h | h | h
          · rw [h] at hbit
            cases hbit
          · rw [h] at hgood'
            cases hgood'
          · omega
        · obtain ⟨e, he⟩ := hempty s
          have hline : (f.getlineBuffer n).1 = [] := by
            rw [getlineBuffer, if_neg hgood]
          rw [hline, he] at hbody
          cases hbody

/-- **The loop over a text** is a fold over its lines. -/
theorem forEachLine_open (hempty : ∀ s, ∃ e, body s [] = .error e) (text : List UInt8) (s : σ) :
    forEachLine n body (lineFuel text) (openText text) s =
      some ((bufferLines n text).foldlM body s) :=
  forEachLine_eq hempty s (fun _ => Nat.lt_succ_self _) (Nat.succ_pos _) rfl

/-- Some lines, each with a newline behind it. -/
def terminated (lines : List (List UInt8)) : List UInt8 := lines.flatMap fun l => l ++ [newline]

/-- The lines of a text that fit in the buffer. -/
theorem linesRead_append {lines : List (List UInt8)} {rest : List UInt8}
    (hlines : ∀ l ∈ lines, newline ∉ l ∧ l.length < n) {fuel : ℕ} :
    linesRead n (lines.length + fuel) (openText (terminated lines ++ rest)) =
      lines ++ linesRead n fuel (openText rest) := by
  induction lines with
  | nil => simp [terminated]
  | cons l lines ih =>
    obtain ⟨⟨hnewline, hlength⟩, hrest⟩ := List.forall_mem_cons.mp hlines
    have htext : terminated (l :: lines) ++ rest = l ++ newline :: (terminated lines ++ rest) := by
      simp [terminated]
    have hread := getlineBuffer_line hnewline hlength (terminated lines ++ rest)
    rw [htext, List.length_cons, Nat.succ_add, linesRead, hread]
    show l :: linesRead n _ (openText _) = _
    rw [ih hrest]
    rfl

theorem length_le_length_terminated (lines : List (List UInt8)) :
    lines.length ≤ (terminated lines).length := by
  induction lines with
  | nil => exact le_rfl
  | cons l lines ih =>
    rw [terminated, List.flatMap_cons, ← terminated, List.length_append, List.length_append,
      List.length_cons, List.length_singleton]
    omega

/-- **The last line of a text** is not read when it is not terminated. -/
theorem bufferLines_append {lines : List (List UInt8)} {last : List UInt8}
    (hlines : ∀ l ∈ lines, newline ∉ l ∧ l.length < n) (hlast : newline ∉ last ∧ last.length < n) :
    bufferLines n (terminated lines ++ last) = lines := by
  have hle := length_le_length_terminated lines
  have hfuel : lineFuel (terminated lines ++ last) =
      lines.length + (((terminated lines).length - lines.length + last.length + 1) + 1) := by
    rw [lineFuel, List.length_append]
    omega
  rw [bufferLines, hfuel, linesRead_append hlines, linesRead, getlineBuffer_last hlast.1 hlast.2]
  exact List.append_nil _

/-- **The lines of a text** whose last line is terminated. -/
theorem bufferLines_terminated {lines : List (List UInt8)}
    (hlines : ∀ l ∈ lines, newline ∉ l ∧ l.length < n) (hn : 0 < n) :
    bufferLines n (terminated lines) = lines := by
  have happend : bufferLines n (terminated lines ++ []) = lines :=
    bufferLines_append hlines ⟨by simp, hn⟩
  rwa [List.append_nil] at happend

end ForEachLine

end Foundation
