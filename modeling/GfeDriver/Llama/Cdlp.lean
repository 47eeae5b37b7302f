import GfeDriver.Baseline.Cdlp
import GfeDriver.Foundation.SharedFlag
import GfeDriver.Llama.Snapshot

/-!
# Label propagation in LLAMA

`cdlp_impl` counts the labels of the neighbours along the outgoing and the incoming edges. The
labels are unsigned, but the histogram and its scan are signed: among labels that occur equally
often the least one of type `int64_t` wins. A node without edges gets the greatest value of
`int64_t`. The threads take chunks of 64 nodes and share the flag `change` without synchronisation.

## Main definitions

* `toInt64`, `toUInt64`: the conversions between the two types
* `Labels`, `Step`: `cdlp_impl` with its threads
* `spec`: the synchronous steps on signed labels

## Main results

* `label_eq_next`: the scan of a histogram
* `toInt64_iterate_next`, `spec_eq_of_small`: the steps of the program and of the specification
* `threads_lines`: every run ends, with the lines of some iteration
-/

namespace GfeDriver

namespace Llama

namespace Cdlp

open Foundation Foundation.SharedFlag

variable {τ : Type}

/-! ## The program -/

/-- The conversion of `uint64_t` to `int64_t`. -/
def toInt64 (x : ℕ) : ℤ := (x : ℤ).bmod (2 ^ 64)

/-- The conversion of `int64_t` to `uint64_t`. -/
def toUInt64 (z : ℤ) : ℕ := (z % 2 ^ 64).toNat

/-- The scan of the histogram. A label of type `int64_t` stands as its 64 bits. -/
def selectLabel (keys : List ℕ) (histogram : AList fun _ : ℕ => ℕ) : ℕ :=
  (keys.foldl (fun (best : ℕ × ℕ) label =>
    let count := (histogram.lookup label).getD 0
    if count > best.2 ∨ (count = best.2 ∧ toInt64 label < toInt64 best.1) then (label, count)
    else best) (2 ^ 63 - 1, 0)).1

/-- The labels that are counted: those of the outgoing edges, then those of the incoming ones. -/
def counted (g : Snapshot) (labels0 : ℕ → ℕ) (n : ℕ) : List ℕ :=
  (g.neighbours n).map fun u => labels0 u % 2 ^ 64

/-- The new label of a node, for an iteration order of its hash table. -/
def label (g : Snapshot) (hash : Schedule ℕ) (labels0 : ℕ → ℕ) (n : ℕ) : ℕ :=
  let histogram := histogram (counted g labels0 n)
  selectLabel (hash.order n histogram.keys) histogram

/-- The labels that a pass may compute. -/
def Labels (g : Snapshot) (labels0 f : ℕ → ℕ) : Prop :=
  ∃ hash : Schedule ℕ, f = label g hash labels0

/-- **The steps** of `cdlp_impl`: each pass is a loop with `schedule(dynamic, 64)`. -/
def Step [DecidableEq τ] (g : Snapshot) (maxIterations : ℕ) :
    Config τ ℕ ℕ → Config τ ℕ ℕ → Prop :=
  LoopStep (Labels g) (SharedChunks 64 g.maxNodes) maxIterations

/-- Before the loop: the labels are the names, and the second buffer has arbitrary contents. -/
def head (g : Snapshot) (fresh : ℕ → ℕ) : Config τ ℕ ℕ := .head g.name fresh true 0

/-- The lines of the file. -/
def lines (sched : Schedule ℕ) (g : Snapshot) (labels : ℕ → ℕ) : List (ℕ × ℕ) :=
  saveResults true (2 ^ 64 - 1) (translate sched g labels)

/-! ## The specification -/

/-- **The synchronous steps** on signed labels. -/
def spec (g : Snapshot) (k : ℕ) : ℕ → ℤ := (propagate g.neighbours)^[k] (toInt64 ∘ g.name)

/-- The synchronous step of the program. -/
def next (g : Snapshot) (labels : ℕ → ℕ) (n : ℕ) : ℕ :=
  if g.neighbours n = [] then 2 ^ 63 - 1
  else toUInt64 (propagate g.neighbours (toInt64 ∘ labels) n)

/-! ## Conversions -/

theorem toInt64_eq (x : ℕ) :
    toInt64 x = if (x : ℤ) % 2 ^ 64 < 2 ^ 63 then (x : ℤ) % 2 ^ 64
      else (x : ℤ) % 2 ^ 64 - 2 ^ 64 := by
  unfold toInt64
  rw [Int.bmod_def]
  norm_num

theorem toUInt64_toInt64 {x : ℕ} (hx : x < 2 ^ 64) : toUInt64 (toInt64 x) = x := by
  unfold toUInt64
  rw [toInt64_eq]
  split_ifs <;> omega

theorem toInt64_mod (x : ℕ) : toInt64 (x % 2 ^ 64) = toInt64 x := by
  unfold toInt64
  rw [Int.natCast_mod]
  exact Int.emod_bmod _ _

theorem toInt64_of_lt {x : ℕ} (hx : x < 2 ^ 63) : toInt64 x = x := by
  rw [toInt64_eq]
  split_ifs <;> omega

theorem toInt64_inj {x y : ℕ} (hx : x < 2 ^ 64) (hy : y < 2 ^ 64) (h : toInt64 x = toInt64 y) :
    x = y := by
  rw [← toUInt64_toInt64 hx, h, toUInt64_toInt64 hy]

theorem toInt64_toUInt64_toInt64 (x : ℕ) : toInt64 (toUInt64 (toInt64 x)) = toInt64 x := by
  rw [← toInt64_mod x, toUInt64_toInt64 (Nat.mod_lt x (by norm_num))]

/-! ## A pass -/

section Pass

variable {g : Snapshot} {n : ℕ} {labels : ℕ → ℕ}

theorem lt_of_mem_counted {x : ℕ} (hx : x ∈ counted g labels n) : x < 2 ^ 64 := by
  obtain ⟨u, -, rfl⟩ := List.mem_map.mp hx
  exact Nat.mod_lt _ (by norm_num)

theorem map_toInt64_counted :
    (counted g labels n).map toInt64 = (g.neighbours n).map (toInt64 ∘ labels) := by
  rw [counted, List.map_map]
  refine List.map_congr_left fun u _ => ?_
  rw [Function.comp_apply, Function.comp_apply, toInt64_mod]

/-- The selected label is one of the histogram, or the initial value. -/
theorem selectLabel_lt {keys : List ℕ} (hkeys : ∀ x ∈ keys, x < 2 ^ 64)
    (histogram : AList fun _ : ℕ => ℕ) : selectLabel keys histogram < 2 ^ 64 := by
  apply foldl_prefix (fun _ (best : ℕ × ℕ) => best.1 < 2 ^ 64)
  · norm_num
  · intro done x rest best heq hbest
    dsimp only
    split_ifs
    · exact hkeys x (heq ▸ List.mem_append_right _ List.mem_cons_self)
    · exact hbest

/-- **The scan** selects the least of the most frequent signed labels, in every order. -/
theorem toInt64_label (hash : Schedule ℕ) (hn : g.neighbours n ≠ []) :
    toInt64 (label g hash labels n) = propagate g.neighbours (toInt64 ∘ labels) n := by
  have hkeys : ∀ x, x ∈ hash.order n (histogram (counted g labels n)).keys ↔
      x ∈ counted g labels n := fun x => by rw [hash.mem_order, mem_keys_histogram]
  have hmode := isLeastMode_foldl_rank (r := toInt64)
    (fun x hx y hy => toInt64_inj (lt_of_mem_counted hx) (lt_of_mem_counted hy))
    (by simpa [counted] using hn) hkeys (rfl : (2 ^ 63 - 1, 0).2 = 0)
  rw [map_toInt64_counted] at hmode
  -- the histogram has the counts of its keys
  have hscan : label g hash labels n = ((hash.order n (histogram (counted g labels n)).keys).foldl
      (fun best x => if (counted g labels n).count x > best.2 ∨
        (counted g labels n).count x = best.2 ∧ toInt64 x < toInt64 best.1 then
          (x, (counted g labels n).count x) else best) (2 ^ 63 - 1, 0)).1 := by
    refine congrArg Prod.fst (List.foldl_ext _ _ _ fun best x hx => ?_)
    simp only [lookup_histogram, (hkeys x).mp hx, if_true, Option.getD_some]
  rw [hscan]
  exact hmode.unique (isLeastMode_leastMode (by simpa using hn))

/-- **The new label** of a node. -/
theorem label_eq_next (hash : Schedule ℕ) (labels : ℕ → ℕ) (n : ℕ) :
    label g hash labels n = next g labels n := by
  have hkeys : ∀ x ∈ hash.order n (histogram (counted g labels n)).keys, x < 2 ^ 64 := by
    intro x hx
    rw [hash.mem_order, mem_keys_histogram] at hx
    exact lt_of_mem_counted hx
  by_cases hn : g.neighbours n = []
  · have hnil : hash.order n (histogram []).keys = [] := (hash.perm n _).eq_nil
    rw [next, if_pos hn, label, counted, hn]
    change selectLabel (hash.order n (histogram []).keys) _ = _
    rw [hnil]
    rfl
  · rw [next, if_neg hn, ← toInt64_label hash hn, toUInt64_toInt64]
    exact selectLabel_lt hkeys _

/-- **The passes compute the synchronous step.** -/
theorem computes_next (hg : g.WellFormed) :
    Computes (Labels g) (SharedChunks (τ := τ) 64 g.maxNodes) (· < g.maxNodes) (next g) where
  label := by
    rintro labels f ⟨hash, rfl⟩ n -
    exact label_eq_next hash labels n
  congr L L' h n hn := by
    have hsigned : ∀ v, v < g.maxNodes → (toInt64 ∘ L) v = (toInt64 ∘ L') v := by
      intro v hv
      rw [Function.comp_apply, Function.comp_apply, h v hv]
    rw [next, next, propagate_congr (fun v _ u hu => hg.lt_of_mem_neighbours hu) hsigned n hn]
  cover shares h n hn := (h.mem (by norm_num) n).mpr hn

end Pass

/-! ## The steps of the program and of the specification -/

section Steps

variable {g : Snapshot} {n k : ℕ}

/-- What a node reads is the signed value of a label. -/
theorem toInt64_toUInt64_propagate (labels : ℕ → ℕ) (hn : g.neighbours n ≠ []) :
    toInt64 (toUInt64 (propagate g.neighbours (toInt64 ∘ labels) n)) =
      propagate g.neighbours (toInt64 ∘ labels) n := by
  have hmem : propagate g.neighbours (toInt64 ∘ labels) n ∈
      (g.neighbours n).map (toInt64 ∘ labels) :=
    (isLeastMode_leastMode (by simpa using hn)).mem
  obtain ⟨u, -, hu⟩ := List.mem_map.mp hmem
  rw [← hu, Function.comp_apply, toInt64_toUInt64_toInt64]

theorem neighbours_ne_nil (hg : g.WellFormed) {u : ℕ} (hu : u ∈ g.neighbours n) :
    g.neighbours u ≠ [] := by
  have hback : n ∈ g.neighbours u := by
    rw [hg.mem_neighbours] at hu ⊢
    exact hu.symm
  exact List.ne_nil_of_mem hback

theorem spec_succ (g : Snapshot) (k : ℕ) : spec g (k + 1) = propagate g.neighbours (spec g k) := by
  rw [spec, spec, Function.iterate_succ_apply']

/-- **The steps of the program** on a node with edges are those of the specification. -/
theorem toInt64_iterate_next (hg : g.WellFormed) (k : ℕ) :
    ∀ n, g.neighbours n ≠ [] → toInt64 ((next g)^[k] g.name n) = spec g k n := by
  induction k with
  | zero =>
    intro n _
    rw [spec, Function.iterate_zero_apply, Function.iterate_zero_apply, Function.comp_apply]
  | succ k ih =>
    intro n hn
    have hsigned : ∀ n, g.neighbours n ≠ [] → (toInt64 ∘ (next g)^[k] g.name) n = spec g k n := by
      intro n hn
      rw [Function.comp_apply, ih n hn]
    rw [Function.iterate_succ_apply', next, if_neg hn, toInt64_toUInt64_propagate _ hn, spec_succ]
    exact propagate_congr (D := fun n => g.neighbours n ≠ [])
      (fun n _ u hu => neighbours_ne_nil hg hu) hsigned n hn

/-- A node without edges. -/
theorem iterate_next_of_nil (hn : g.neighbours n = []) :
    (next g)^[k] g.name n = if k = 0 then g.name n else 2 ^ 63 - 1 := by
  cases k with
  | zero => rfl
  | succ k => rw [Function.iterate_succ_apply', next, if_pos hn, if_neg (Nat.succ_ne_zero k)]

theorem iterate_next_lt (hn : g.name n < 2 ^ 64) (k : ℕ) :
    (next g)^[k] g.name n < 2 ^ 64 := by
  cases k with
  | zero => exact hn
  | succ k =>
    rw [Function.iterate_succ_apply', next]
    split_ifs
    · norm_num
    · rw [toUInt64]
      omega

/-- **Names below `2^63`**: the signed labels are the unsigned ones. -/
theorem spec_eq_of_small (hg : g.WellFormed) (hsmall : ∀ n < g.maxNodes, g.name n < 2 ^ 63)
    (k : ℕ) : ∀ n, g.neighbours n ≠ [] →
      spec g k n = ((propagate g.neighbours)^[k] g.name n : ℕ) := by
  induction k with
  | zero =>
    intro n hn
    obtain ⟨u, hu⟩ := List.exists_mem_of_ne_nil _ hn
    have hback : n ∈ g.neighbours u := by
      rw [hg.mem_neighbours] at hu ⊢
      exact hu.symm
    rw [spec, Function.iterate_zero_apply, Function.iterate_zero_apply, Function.comp_apply,
      toInt64_of_lt (hsmall n (hg.lt_of_mem_neighbours hback))]
  | succ k ih =>
    intro n hn
    have hstep : propagate g.neighbours (spec g k) n =
        leastMode (((g.neighbours n).map ((propagate g.neighbours)^[k] g.name)).map
          fun x : ℕ => (x : ℤ)) := by
      rw [propagate, List.map_map]
      exact congrArg leastMode
        (List.map_congr_left fun u hu => ih u (neighbours_ne_nil hg hu))
    rw [spec_succ, Function.iterate_succ_apply', hstep,
      leastMode_map (by simpa using hn) fun x _ y _ => Nat.cast_le]
    rfl

end Steps

/-! ## Every run -/

/-- **The lines** after `k` iterations: the label of a node that exists is that of the
specification, or the greatest value of `int64_t` if it has no edge. The lines of the gaps are
zero. -/
def linesAfter (g : Snapshot) (k : ℕ) : List (ℕ × ℕ) :=
  (List.range g.maxNodes).map fun n =>
    if g.nodeExists n then
      (g.name n, if g.neighbours n = [] then if k = 0 then g.name n else 2 ^ 63 - 1
        else toUInt64 (spec g k n))
    else (0, 0)

section Runs

variable {g : Snapshot}

theorem lines_eq_linesAfter (hg : g.WellFormed) (hnames : ∀ n < g.maxNodes, g.name n < 2 ^ 64)
    (sched : Schedule ℕ) {labels : ℕ → ℕ} {k : ℕ}
    (h : ∀ n < g.maxNodes, labels n = (next g)^[k] g.name n) :
    lines sched g labels = linesAfter g k := by
  rw [lines, translate_eq, saveResults, List.map_map, linesAfter]
  refine List.map_congr_left fun n hn => ?_
  rw [List.mem_range] at hn
  have hsaved : ∀ x : ℕ, savedScore true (2 ^ 64 - 1) x = x := fun x => if_neg (by simp)
  rw [Function.comp_apply, hsaved]
  by_cases hexists : g.nodeExists n = true
  · rw [if_pos hexists, if_pos hexists, h n hn]
    by_cases hnil : g.neighbours n = []
    · rw [if_pos hnil, iterate_next_of_nil hnil]
    · rw [if_neg hnil, ← toInt64_iterate_next hg k n hnil,
        toUInt64_toInt64 (iterate_next_lt (hnames n hn) k)]
  · rw [if_neg hexists, if_neg hexists]

variable [DecidableEq τ] [Fintype τ] [Nonempty τ]

/-- **Every run of `cdlp_impl` ends**, with the lines of some iteration, whatever the interleaving
of the loads and stores of its threads. This is the last iteration if the graph has one chunk, or
no store takes the flag down. -/
theorem threads_lines (hg : g.WellFormed) (hnames : ∀ n < g.maxNodes, g.name n < 2 ^ 64)
    (sched : Schedule ℕ) (fresh : ℕ → ℕ) (maxIterations : ℕ) :
    EndsIn (Step g maxIterations)
        (End fun labels => ∃ k ≤ maxIterations, (0 < maxIterations → 0 < k) ∧
          (g.maxNodes ≤ 64 → k = maxIterations) ∧ lines sched g labels = linesAfter g k)
        (head (τ := τ) g fresh) ∧
      ∀ labels, Relation.ReflTransGen (fun x y => Step g maxIterations x y ∧ ¬Config.Lowers x y)
          (head (τ := τ) g fresh) (.finished labels) →
        lines sched g labels = linesAfter g maxIterations := by
  have hF := computes_next (τ := τ) hg
  refine ⟨?_, fun labels hrun =>
    lines_eq_linesAfter hg hnames sched (iterate_of_kept hF hrun)⟩
  by_cases hsmall : g.maxNodes ≤ 64
  · refine (endsIn_of_alone hF (fun shares hs => hs.alone (by norm_num) hsmall) fresh).imp
      fun x hx => hx.imp_right ?_
    rintro ⟨labels, rfl, hval⟩
    exact ⟨labels, rfl, maxIterations, le_rfl, id, fun _ => rfl,
      lines_eq_linesAfter hg hnames sched hval⟩
  · refine (endsIn_iterate hF fresh).imp fun x hx => hx.imp_right ?_
    rintro ⟨labels, rfl, k, hk, hpos, hval⟩
    exact ⟨labels, rfl, k, hk, hpos, fun hc => absurd hc hsmall,
      lines_eq_linesAfter hg hnames sched hval⟩

end Runs

theorem threads_lines_oneEdge : EndsIn (Step oneEdge 10)
    (End fun labels => lines Schedule.sequential oneEdge labels = linesAfter oneEdge 10)
    (head (τ := Fin 2) oneEdge id) := by
  refine (threads_lines wellFormed_oneEdge (by decide) Schedule.sequential id 10).1.imp
    fun x hx => hx.imp_right ?_
  rintro ⟨labels, rfl, k, -, -, hk, hlines⟩
  obtain rfl : k = 10 := hk (by decide)
  exact ⟨labels, rfl, hlines⟩

end Cdlp

end Llama

end GfeDriver
