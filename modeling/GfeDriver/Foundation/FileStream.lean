import Mathlib.Tactic

/-!
# Input files

A `std::fstream` opened for reading: the bytes of the file, the position, and the flags `eofbit` and
`failbit`. A read that comes short sets both flags, and then nothing works until they are cleared:
`read` reads nothing, `seekp` does not move, and `tellg` answers `-1`.

## Main definitions

* `FileStream`: the file and the state of its stream
* `FileStream.read`, `tellg`, `seekg`, `seekp`, `seekEnd`, `clear`: the operations

## Main results

* `FileStream.read_of_good`, `FileStream.good_read_iff`: the stream after a read
-/

namespace Foundation

/-- A `std::fstream` opened for reading. -/
structure FileStream where
  content : List UInt8
  pos : ℕ
  eofbit : Bool
  failbit : Bool

namespace FileStream

/-- A file that was just opened, or positioned at the start of a section. -/
def openAt (content : List UInt8) (pos : ℕ) : FileStream := ⟨content, pos, false, false⟩

def good (f : FileStream) : Bool := !f.eofbit && !f.failbit

def eof (f : FileStream) : Bool := f.eofbit

/-- The bytes that `read` stores. -/
def nextBytes (f : FileStream) (n : ℕ) : List UInt8 :=
  if f.good then (f.content.drop f.pos).take n else []

/-- `read`; its `gcount` is the number of bytes in `nextBytes`. -/
def read (f : FileStream) (n : ℕ) : FileStream :=
  if f.good then
    let short : Bool := (f.nextBytes n).length < n
    { f with pos := f.pos + (f.nextBytes n).length, eofbit := short, failbit := short }
  else { f with failbit := true }

def tellg (f : FileStream) : ℤ := if f.failbit then -1 else f.pos

def clear (f : FileStream) : FileStream := { f with eofbit := false, failbit := false }

/-- `seekg`, which clears `eofbit` first. -/
def seekg (f : FileStream) (pos : ℕ) : FileStream :=
  if f.failbit then { f with eofbit := false } else { f with eofbit := false, pos := pos }

/-- `seekg(0, ios_base::end)`. -/
def seekEnd (f : FileStream) : FileStream := f.seekg f.content.length

/-- `seekp`: the two positions of a file are one. -/
def seekp (f : FileStream) (pos : ℤ) : FileStream :=
  if f.failbit then f
  else if pos < 0 then { f with failbit := true } else { f with pos := pos.toNat }

variable {f : FileStream} {n : ℕ}

theorem good_iff : f.good = true ↔ f.eofbit = false ∧ f.failbit = false := by
  simp [good]

@[simp] theorem content_read (f : FileStream) (n : ℕ) : (f.read n).content = f.content := by
  unfold read
  split_ifs <;> rfl

@[simp] theorem content_seekp (f : FileStream) (pos : ℤ) : (f.seekp pos).content = f.content := by
  unfold seekp
  split_ifs <;> rfl

theorem nextBytes_of_good (h : f.good = true) :
    f.nextBytes n = (f.content.drop f.pos).take n := if_pos h

theorem length_nextBytes_of_good (h : f.good = true) :
    (f.nextBytes n).length = min n (f.content.length - f.pos) := by
  rw [nextBytes_of_good h, List.length_take, List.length_drop]

/-- The stream after a read, when it was good before. -/
theorem read_of_good (h : f.good = true) :
    f.read n = { f with
      pos := f.pos + (f.nextBytes n).length
      eofbit := decide ((f.nextBytes n).length < n)
      failbit := decide ((f.nextBytes n).length < n) } := if_pos h

/-- **A read that does not come short** leaves the stream good. -/
theorem good_read_iff (h : f.good = true) :
    (f.read n).good = true ↔ (f.nextBytes n).length = n := by
  have hlen := length_nextBytes_of_good (n := n) h
  rw [good_iff, read_of_good h]
  simp only [decide_eq_false_iff_not, and_self]
  omega

/-- A read that comes short sets both flags. -/
theorem flags_read (h : f.good = true) :
    (f.read n).eofbit = decide ((f.nextBytes n).length < n) ∧
      (f.read n).failbit = decide ((f.nextBytes n).length < n) := by
  rw [read_of_good h]
  exact ⟨rfl, rfl⟩

end FileStream

end Foundation
