import GfeDriver.Foundation.Buffer

/-!
# Incremental decompressors

A decompressor turns a compressed stream into its content in steps. A call is offered some bytes of
input and some space for output. It consumes a part of the input, produces the next part of the
content, and answers that the stream has ended, that it made no progress, or neither. How much it
consumes and produces is its own choice: it may keep output pending, or produce nothing. The library
that decompresses is not modelled. A decompressor is any state machine that keeps this contract on
the stream, as long as the input offered to it is the stream.

## Main definitions

* `Inflater`: a decompressor, as a state machine
* `Agrees`, `Inflater.At`: the bytes offered are those of the stream, and the states reached with
  such bytes
* `InflateStep`, `Inflater.Decodes`: the contract of a call, and of a decompressor
* `Inflater.Greedy`: a decompressor that does as much as it can
* `ZStream`: the state of a decompressor with what is left of its input
* `Inflater.gated`: a decompressor that decides by the number of bytes consumed when it produces
* `Inflater.paced`: a decompressor that produces a few bytes in a call

## Main results

* `ZStream.Reads.inflate`: a call, from the bytes left by the one before
* `Inflater.gated_decodes`, `Inflater.gated_greedy`: the contract holds for `Inflater.gated`
* `Inflater.paced_decodes`: it holds for `Inflater.paced`
-/

namespace Foundation

/-! ## The contract -/

/-- What `inflate` returns. -/
inductive InflateCode
  | ok
  | streamEnd
  | bufError
  deriving DecidableEq

/-- What a call returns that ended the stream, or made no progress. -/
def InflateCode.of (ended stuck : Bool) : InflateCode :=
  if ended then .streamEnd else if stuck then .bufError else .ok

theorem InflateCode.of_eq_streamEnd {ended stuck : Bool} :
    InflateCode.of ended stuck = .streamEnd ↔ ended = true := by
  cases ended <;> cases stuck <;> simp [InflateCode.of]

theorem InflateCode.of_eq_bufError {ended stuck : Bool} :
    InflateCode.of ended stuck = .bufError ↔
      InflateCode.of ended stuck ≠ .streamEnd ∧ stuck = true := by
  cases ended <;> cases stuck <;> simp [InflateCode.of]

/-- The effects of a call. -/
structure Inflated (σ : Type) where
  state : σ
  consumed : ℕ
  output : List UInt8
  code : InflateCode

/-- A decompressor. A call is given the `avail_in` bytes at `next_in`, and `avail_out`. -/
structure Inflater where
  State : Type
  init : State
  inflate : State → List UInt8 → ℕ → Inflated State

/-- The bytes `input` are those of the stream from `consumed` on, up to its end. -/
def Agrees (stream : List UInt8) (consumed : ℕ) (input : List UInt8) : Prop :=
  ∀ i < input.length, ∀ b, stream[consumed + i]? = some b → input[i]? = some b

/-- The states of a decompressor that was offered bytes of the stream only, with the number of bytes
consumed and produced. -/
inductive Inflater.At (I : Inflater) (stream : List UInt8) : I.State → ℕ → ℕ → Prop
  | init : I.At stream I.init 0 0
  | step {s : I.State} {consumed produced : ℕ} (h : I.At stream s consumed produced)
      {input : List UInt8} (hin : Agrees stream consumed input) (availOut : ℕ) :
      I.At stream (I.inflate s input availOut).state
        (consumed + (I.inflate s input availOut).consumed)
        (produced + (I.inflate s input availOut).output.length)

/-- **The contract of a call** after `consumed` bytes of the stream and `produced` bytes of its
content. -/
structure InflateStep {σ : Type} (stream content : List UInt8)
    (consumed produced availIn availOut : ℕ) (r : Inflated σ) : Prop where
  consumed_le : r.consumed ≤ availIn
  within : consumed + r.consumed ≤ stream.length
  isPrefix : r.output <+: content.drop produced
  output_le : r.output.length ≤ availOut
  streamEnd_iff : r.code = .streamEnd ↔
    consumed + r.consumed = stream.length ∧ produced + r.output.length = content.length
  bufError_iff : r.code = .bufError ↔ r.code ≠ .streamEnd ∧ r.consumed = 0 ∧ r.output = []
  /-- With room for output, a call makes no progress only when it has no input, and the input it
  had before was not the whole stream. -/
  progress : 0 < availOut → 0 < availIn ∨ consumed = stream.length → r.code ≠ .bufError

/-- **The contract of a decompressor.** -/
def Inflater.Decodes (I : Inflater) (stream content : List UInt8) : Prop :=
  ∀ {s : I.State} {consumed produced : ℕ}, I.At stream s consumed produced →
    ∀ {input : List UInt8}, Agrees stream consumed input → ∀ availOut,
      InflateStep stream content consumed produced input.length availOut
        (I.inflate s input availOut)

/-- A decompressor that does as much as it can: it stops before the end of the stream only when the
space for output is full, or when its input is used up and the stream goes on. -/
def Inflater.Greedy (I : Inflater) (stream : List UInt8) : Prop :=
  ∀ {s : I.State} {consumed produced : ℕ}, I.At stream s consumed produced →
    ∀ {input : List UInt8}, Agrees stream consumed input → ∀ availOut,
      (I.inflate s input availOut).code = .ok →
        (I.inflate s input availOut).output.length = availOut ∨
          ((I.inflate s input availOut).consumed = input.length ∧
            consumed + (I.inflate s input availOut).consumed < stream.length)

section Contract

variable {I : Inflater} {stream content : List UInt8} {s : I.State} {consumed produced : ℕ}

/-- The input left by a call agrees with the rest of the stream. -/
theorem Agrees.drop {input : List UInt8} (h : Agrees stream consumed input) (n : ℕ) :
    Agrees stream (consumed + n) (input.drop n) := by
  intro i hi b hb
  rw [List.length_drop] at hi
  rw [List.getElem?_drop]
  exact h (n + i) (by omega) b (by rw [← Nat.add_assoc]; exact hb)

/-- Bytes of a file in which the stream starts at `start` agree with the stream. -/
theorem agrees_take {file : List UInt8} {start : ℕ} (hfile : stream <+: file.drop start) (n : ℕ) :
    Agrees stream consumed ((file.drop (start + consumed)).take n) := by
  intro i hi b hb
  have hlt : consumed + i < stream.length := by
    by_contra hc
    rw [List.getElem?_eq_none (by omega)] at hb
    cases hb
  -- the byte of the stream is a byte of the file
  obtain ⟨rest, hrest⟩ := hfile
  rw [List.getElem?_take_of_lt (by rw [List.length_take] at hi; omega), List.getElem?_drop,
    Nat.add_assoc, ← List.getElem?_drop, ← hrest, List.getElem?_append_left hlt, hb]

theorem InflateStep.produced_le {σ : Type} {availIn availOut : ℕ} {r : Inflated σ}
    (h : InflateStep stream content consumed produced availIn availOut r)
    (hle : produced ≤ content.length) : produced + r.output.length ≤ content.length := by
  have hlen := h.isPrefix.length_le
  rw [List.length_drop] at hlen
  omega

/-- What was produced is a part of the content, and what was consumed a part of the stream. -/
theorem Inflater.At.le (hI : I.Decodes stream content) (h : I.At stream s consumed produced) :
    consumed ≤ stream.length ∧ produced ≤ content.length := by
  induction h with
  | init => exact ⟨Nat.zero_le _, Nat.zero_le _⟩
  | step h hin availOut ih =>
    have hstep := hI h hin availOut
    exact ⟨hstep.within, hstep.produced_le ih.2⟩

/-- The output of a call, as a part of the content. -/
theorem InflateStep.output_eq {σ : Type} {availIn availOut : ℕ} {r : Inflated σ}
    (h : InflateStep stream content consumed produced availIn availOut r) :
    r.output = (content.drop produced).take r.output.length :=
  List.prefix_iff_eq_take.mp h.isPrefix

end Contract

/-! ## The state of a stream -/

/-- `z_stream`: the decompressor, the position and the number of the bytes left in the input buffer,
and the number of bytes produced so far. -/
structure ZStream (I : Inflater) where
  state : I.State
  nextIn : ℕ
  availIn : ℕ
  totalOut : ℕ

/-- `inflateInit`. -/
def ZStream.init (I : Inflater) : ZStream I := ⟨I.init, 0, 0, 0⟩

/-- `inflate`, with the input buffer `input` and `availOut` bytes of space. -/
def ZStream.call {I : Inflater} (z : ZStream I) (input : Buffer) (availOut : ℕ) :
    Inflated I.State :=
  I.inflate z.state (input.read z.nextIn z.availIn) availOut

/-- The stream after a call. -/
def ZStream.after {I : Inflater} (z : ZStream I) (r : Inflated I.State) : ZStream I :=
  ⟨r.state, z.nextIn + r.consumed, z.availIn - r.consumed, z.totalOut + r.output.length⟩

/-- The stream has consumed and produced so much, and what is left of its input agrees with the rest
of the stream. -/
structure ZStream.Reads {I : Inflater} (z : ZStream I) (input : Buffer) (stream : List UInt8)
    (consumed produced : ℕ) : Prop where
  at_state : I.At stream z.state consumed produced
  agrees : Agrees stream consumed (input.read z.nextIn z.availIn)
  totalOut : z.totalOut = produced

section Reads

variable {I : Inflater} {stream content : List UInt8} {z : ZStream I} {input : Buffer}
  {consumed produced : ℕ}

theorem ZStream.reads_init (I : Inflater) (input : Buffer) (stream : List UInt8) :
    (ZStream.init I).Reads input stream 0 0 :=
  ⟨.init, fun i hi => absurd hi (Nat.not_lt_zero i), rfl⟩

/-- **A call** keeps its contract, and leaves the stream ready for the next one. -/
theorem ZStream.Reads.inflate (h : z.Reads input stream consumed produced)
    (hI : I.Decodes stream content) (availOut : ℕ) :
    InflateStep stream content consumed produced z.availIn availOut (z.call input availOut) ∧
      (z.after (z.call input availOut)).Reads input stream
        (consumed + (z.call input availOut).consumed)
        (produced + (z.call input availOut).output.length) := by
  have hstep := hI h.at_state h.agrees availOut
  rw [Buffer.length_read] at hstep
  refine ⟨hstep, h.at_state.step h.agrees availOut, ?_, ?_⟩
  · have hdrop := h.agrees.drop (z.call input availOut).consumed
    rwa [Buffer.drop_read] at hdrop
  · simp only [ZStream.after, h.totalOut]

end Reads

/-! ## A decompressor by the number of bytes -/

section Gated

variable (stream content : List UInt8) (ready : ℕ → ℕ → Bool)

/-- A decompressor that takes all the input of its stream, and produces as much as it can in the
calls that `ready` allows, by the number of bytes consumed before and after the call. -/
def Inflater.gated : Inflater where
  State := ℕ × ℕ
  init := (0, 0)
  inflate := fun s input availOut =>
    let consumed := min input.length (stream.length - s.1)
    let output := if ready s.1 (s.1 + consumed) then (content.drop s.2).take availOut else []
    { state := (s.1 + consumed, s.2 + output.length)
      consumed := consumed
      output := output
      code := .of (s.1 + consumed = stream.length ∧ s.2 + output.length = content.length)
        (consumed = 0 ∧ output = []) }

variable {stream content ready}

/-- The state of the decompressor is the number of bytes. -/
theorem Inflater.gated_at {s : (gated stream content ready).State} {consumed produced : ℕ}
    (h : (gated stream content ready).At stream s consumed produced) :
    s = (consumed, produced) ∧ consumed ≤ stream.length ∧ produced ≤ content.length := by
  induction h with
  | init => exact ⟨rfl, Nat.zero_le _, Nat.zero_le _⟩
  | @step s consumed produced h input hin availOut ih =>
    obtain ⟨rfl, hc, hp⟩ := ih
    refine ⟨rfl, ?_, ?_⟩
    · simp only [gated]
      omega
    · simp only [gated]
      split_ifs
      · rw [List.length_take, List.length_drop]
        omega
      · simpa using hp

theorem Inflater.gated_decodes (hready : ready stream.length stream.length = true) :
    (gated stream content ready).Decodes stream content := by
  intro s consumed produced h input hin availOut
  obtain ⟨rfl, hc, hp⟩ := gated_at h
  refine ⟨?_, ?_, ?_, ?_, ?_, ?_, fun hout hinput => ?_⟩
  · simp only [gated]
    omega
  · simp only [gated]
    omega
  · simp only [gated]
    split_ifs
    · exact List.take_prefix _ _
    · exact List.nil_prefix
  · simp only [gated]
    split_ifs
    · exact List.length_take_le _ _
    · exact Nat.zero_le _
  · exact InflateCode.of_eq_streamEnd.trans decide_eq_true_iff
  · exact InflateCode.of_eq_bufError.trans (and_congr_right fun _ => decide_eq_true_iff)
  · -- no input is taken at the end of the stream only, and then the output is ready
    intro hstuck
    obtain ⟨hend, hnone⟩ := InflateCode.of_eq_bufError.mp hstuck
    obtain ⟨htaken, hnone⟩ := decide_eq_true_iff.mp hnone
    obtain rfl : consumed = stream.length := by omega
    rw [htaken, Nat.add_zero, hready, if_pos rfl] at hnone
    have hlen := congrArg List.length hnone
    simp only [List.length_take, List.length_drop, List.length_nil] at hlen
    refine hend (InflateCode.of_eq_streamEnd.mpr (decide_eq_true_iff.mpr ⟨by omega, ?_⟩))
    rw [htaken, Nat.add_zero, hready, if_pos rfl, hnone, List.length_nil]
    omega

/-- A decompressor that produces the output with the last byte of the stream does as much as it
can. -/
theorem Inflater.gated_greedy (hready : ∀ c, ready c stream.length = true) :
    (gated stream content ready).Greedy stream := by
  intro s consumed produced h input hin availOut hok
  obtain ⟨rfl, hc, hp⟩ := gated_at h
  by_cases hall : consumed + min input.length (stream.length - consumed) = stream.length
  · -- the rest of the stream is taken, and the output fills the space or is the rest of the content
    have hout : ((gated stream content ready).inflate (consumed, produced) input
        availOut).output = (content.drop produced).take availOut := by
      simp only [gated, hall, hready, if_true]
    refine Or.inl ?_
    rw [hout]
    by_contra hfull
    have hend : ((gated stream content ready).inflate (consumed, produced) input
        availOut).code = .streamEnd := by
      refine InflateCode.of_eq_streamEnd.mpr (decide_eq_true_iff.mpr ⟨hall, ?_⟩)
      rw [hall, hready, if_pos rfl, List.length_take, List.length_drop]
      rw [List.length_take, List.length_drop] at hfull
      omega
    rw [hend] at hok
    cases hok
  · refine Or.inr ⟨Nat.min_eq_left ?_, ?_⟩
    · omega
    · simp only [gated]
      omega

end Gated

/-! ## A decompressor that takes its time -/

section Paced

variable (stream content : List UInt8) (chunk : ℕ)

/-- A decompressor that produces at most `chunk` bytes in a call, and only when it waits for the
last byte of the stream. It takes that byte in a call of its own. -/
def Inflater.paced : Inflater where
  State := ℕ × ℕ
  init := (0, 0)
  inflate := fun s input availOut =>
    let last := if s.2 < content.length then 1 else 0
    let consumed := min input.length (stream.length - last - s.1)
    let output :=
      if s.1 + consumed + last = stream.length then (content.drop s.2).take (min chunk availOut)
      else []
    { state := (s.1 + consumed, s.2 + output.length)
      consumed := consumed
      output := output
      code := .of (s.1 + consumed = stream.length ∧ s.2 + output.length = content.length)
        (consumed = 0 ∧ output = []) }

variable {stream content chunk}

/-- The state of the decompressor is the number of bytes, and the last byte comes after the
content. -/
theorem Inflater.paced_at (hstream : 0 < stream.length) {s : (paced stream content chunk).State}
    {consumed produced : ℕ} (h : (paced stream content chunk).At stream s consumed produced) :
    s = (consumed, produced) ∧ produced ≤ content.length ∧
      consumed + (if produced < content.length then 1 else 0) ≤ stream.length := by
  induction h with
  | init =>
    refine ⟨rfl, Nat.zero_le _, ?_⟩
    split_ifs <;> omega
  | @step s consumed produced h input hin availOut ih =>
    obtain ⟨rfl, hp, hc⟩ := ih
    refine ⟨rfl, ?_, ?_⟩
    · simp only [paced]
      split_ifs <;> simp only [List.length_take, List.length_drop, List.length_nil] <;> omega
    · simp only [paced]
      split_ifs at * <;> simp only [List.length_take, List.length_drop, List.length_nil] at * <;>
        omega

theorem Inflater.paced_decodes (hstream : 0 < stream.length) (hchunk : 0 < chunk) :
    (paced stream content chunk).Decodes stream content := by
  intro s consumed produced h input hin availOut
  obtain ⟨rfl, hp, hc⟩ := paced_at hstream h
  refine ⟨?_, ?_, ?_, ?_, ?_, ?_, fun hout hinput => ?_⟩
  · simp only [paced]
    omega
  · simp only [paced]
    omega
  · simp only [paced]
    split_ifs
    all_goals first | exact List.take_prefix _ _ | exact List.nil_prefix
  · simp only [paced]
    split_ifs <;> simp only [List.length_take, List.length_nil] <;> omega
  · exact InflateCode.of_eq_streamEnd.trans decide_eq_true_iff
  · exact InflateCode.of_eq_bufError.trans (and_congr_right fun _ => decide_eq_true_iff)
  · intro hstuck
    obtain ⟨hend, hnone⟩ := InflateCode.of_eq_bufError.mp hstuck
    obtain ⟨htaken, hnone⟩ := decide_eq_true_iff.mp hnone
    by_cases hmore : produced < content.length
    · -- input is taken up to the last byte, and then there is output
      simp only [hmore, if_true] at htaken hnone hc
      rw [htaken, if_pos (by omega)] at hnone
      have hlen := congrArg List.length hnone
      simp only [List.length_take, List.length_drop, List.length_nil] at hlen
      omega
    · simp only [hmore, if_false] at htaken hnone hc
      have hlen := congrArg List.length hnone
      rw [htaken, List.length_nil] at hlen
      refine hend (InflateCode.of_eq_streamEnd.mpr (decide_eq_true_iff.mpr ?_))
      simp only [hmore, if_false, htaken]
      omega

end Paced

end Foundation
