import Mathlib.Data.Finset.Insert
import GfeDriver.Foundation.Matching
import GfeDriver.Utility.GraphalyticsValidate

/-!
# The equivalence match

`equivalence_match` compares the connected components of a result with those of a reference,
whatever the names of the components are. It reads the components of the result into a hash table,
and goes through the reference with a table from the components of the reference to those of the
result and the set of the components of the result seen so far. The first time that it sees a
component of the reference, that of the result must be new; afterwards it must be that of the table.

The two tables are a matching of components. The pairs of components seen so far are all matched, so
that the check of each line, which looks at the line and the tables only, is a check of all pairs of
vertices.

A vertex of the reference that is not in the map makes the code dereference the end of the map.

## Main definitions

* `equivalenceMatch`: the comparison
* `Tracks`: the tables hold the pairs of components seen so far

## Main results

* `equivalenceStep_tracks`, `equivalenceStep_isOk`: the check of one line
* `equivalenceMatch_ok_iff`: the equivalence match accepts equal partitions
-/

namespace GfeDriver

open Foundation

namespace GraphalyticsValidate

/-- A hash table from vertices or components to components. -/
abbrev Components := AList fun _ : Int64 => Int64

/-- `components_result[t.first] = t.second`, for the lines of the result file. -/
def readComponents (result : List Line) (components : Components) : Components :=
  result.foldl (fun h line => h.insert line.vertexId line.value) components

/-- The variables of the loop over the reference. -/
structure Equivalence where
  lineno : ℕ
  refMapping : Components
  uniqueComponents : Finset Int64

/-- The variables before the loop. -/
def Equivalence.start : Equivalence :=
  ⟨0, ∅, ∅⟩

/-- A line of the reference in `equivalence_match`. -/
def equivalenceStep (components : Components) (vertexMap : Option VertexMap) (s : Equivalence)
    (ref : Line) : Except ValidateError (Equivalence × Option Mismatch) :=
  match vertexOf vertexMap ref.vertexId with
  | none => .error .undefinedBehaviour
  | some v =>
    match components.lookup v with
    | none => .ok ({ s with lineno := s.lineno + 1 }, some (.missing s.lineno v))
    | some c =>
      match s.refMapping.lookup ref.value with
      -- the first time that this component of the reference is seen
      | none =>
        .ok (⟨s.lineno + 1, s.refMapping.insert ref.value c, insert c s.uniqueComponents⟩,
          if c ∈ s.uniqueComponents then some (.merged s.lineno v c) else none)
      | some c' =>
        .ok ({ s with lineno := s.lineno + 1 },
          if c' ≠ c then some (.wrongMapping s.lineno v c c' ref.value) else none)

/-- `equivalence_match`. -/
def equivalenceMatch (result expected : List Line) (maxNumErrors : ℕ)
    (vertexMap : Option VertexMap) : Except ValidateError Unit :=
  let components := readComponents result ∅
  conclude maxNumErrors
    (fun s : Equivalence =>
      if s.lineno < components.entries.length then
        some (.moreResults components.entries.length s.lineno)
      else none)
    (scan (equivalenceStep components vertexMap) maxNumErrors expected .start 0)

/-- `wcc`. -/
def wcc (result expected : List Line) (maxNumErrors : ℕ) (vertexMap : Option VertexMap) :
    Except ValidateError Unit :=
  equivalenceMatch result expected maxNumErrors vertexMap

/-- The table of the result file, if no vertex is a duplicate. -/
theorem toLines_readComponents {result : List Line} {components : Components}
    (hnodup : (result.map Line.vertexId ++ (toLines id components).map Line.vertexId).Nodup) :
    toLines id (readComponents result components) = result.reverse ++ toLines id components := by
  induction result generalizing components with
  | nil => rfl
  | cons line rest ih =>
    rw [List.map_cons, List.cons_append, List.nodup_cons, List.mem_append, not_or] at hnodup
    -- `operator[]` overwrites nothing, since the vertex is not in the table
    have hfresh : components.lookup line.vertexId = none := lookup_eq_none_iff.mpr hnodup.1.2
    have hlines : toLines id (components.insert line.vertexId line.value) =
        line :: toLines id components := toLines_insert line.value hfresh
    rw [readComponents, List.foldl_cons, ← readComponents, ih, hlines]
    · simp
    · rw [hlines, List.map_cons, List.nodup_middle, List.nodup_cons, List.mem_append, not_or]
      exact hnodup

section Run

variable {components : Components} {vertexMap : Option VertexMap}

/-- The component in the result of a line of the reference. -/
def componentOf (components : Components) (vertexMap : Option VertexMap) (ref : Line) :
    Option Int64 :=
  (vertexOf vertexMap ref.vertexId).bind components.lookup

/-- The components of a line, in the reference and in the result. -/
def componentPair (components : Components) (vertexMap : Option VertexMap) (ref : Line) :
    Option (Int64 × Int64) :=
  (componentOf components vertexMap ref).map (Prod.mk ref.value)

/-- **The tables hold the pairs** of components seen so far, and these are a matching. -/
structure Tracks (s : Equivalence) (ps : List (Int64 × Int64)) : Prop where
  refMapping : ∀ a b, s.refMapping.lookup a = some b ↔ Paired ps a b
  uniqueComponents : ∀ b, b ∈ s.uniqueComponents ↔ ∃ a, Paired ps a b
  biUnique : Relator.BiUnique (Paired ps)

theorem tracks_start : Tracks .start [] where
  refMapping := by simp [Equivalence.start, Paired]
  uniqueComponents := by simp [Equivalence.start, Paired]
  biUnique := biUnique_nil

variable {s s' : Equivalence} {ps : List (Int64 × Int64)} {ref : Line}

theorem Tracks.fresh (h : Tracks s ps) {a : Int64} (hlookup : s.refMapping.lookup a = none) :
    ∀ b, ¬Paired ps a b := by
  intro b hb
  rw [← h.refMapping, hlookup] at hb
  cases hb

/-- The first line of a component of the reference, with a component of the result not seen so
far. -/
theorem Tracks.first (h : Tracks s ps) {a c : Int64} (hlookup : s.refMapping.lookup a = none)
    (hnew : c ∉ s.uniqueComponents) (n : ℕ) :
    Tracks ⟨n, s.refMapping.insert a c, insert c s.uniqueComponents⟩ (ps ++ [(a, c)]) := by
  have hfresh := h.fresh hlookup
  refine ⟨?_, ?_, ?_⟩
  · intro x y
    rw [paired_concat]
    by_cases hx : x = a
    · -- the only entry of a new component is the one that is inserted
      subst hx
      simp [AList.lookup_insert, hfresh, eq_comm]
    · rw [AList.lookup_insert_ne hx, h.refMapping]
      simp [hx]
  · intro y
    simp only [Finset.mem_insert, h.uniqueComponents, paired_concat, exists_or, exists_eq_left]
    exact or_comm
  · rw [biUnique_concat_of_fresh hfresh]
    refine ⟨h.biUnique, ?_⟩
    intro x hx
    exact hnew ((h.uniqueComponents c).mpr ⟨x, hx⟩)

/-- Another line of a component of the reference, with the component of the result in the table. -/
theorem Tracks.again (h : Tracks s ps) {a c : Int64} (hlookup : s.refMapping.lookup a = some c)
    (n : ℕ) : Tracks { s with lineno := n } (ps ++ [(a, c)]) := by
  have hmem : Paired ps a c := (h.refMapping _ _).mp hlookup
  -- the pair is one of those seen so far
  have hsame : ∀ x y, Paired (ps ++ [(a, c)]) x y ↔ Paired ps x y := by
    intro x y
    rw [paired_concat, or_iff_left_iff_imp]
    rintro ⟨rfl, rfl⟩
    exact hmem
  refine ⟨?_, ?_, ?_⟩
  · intro x y
    rw [hsame, ← h.refMapping]
  · intro y
    simp only [hsame, ← h.uniqueComponents]
  · rw [biUnique_concat_of_mem hmem]
    exact ⟨h.biUnique, rfl⟩

/-- **The check of one line**: a line without an error adds its pair to the matching. -/
theorem equivalenceStep_tracks (h : Tracks s ps)
    (hstep : equivalenceStep components vertexMap s ref = .ok (s', none)) :
    s'.lineno = s.lineno + 1 ∧ ∃ p, componentPair components vertexMap ref = some p ∧
      Tracks s' (ps ++ [p]) := by
  unfold equivalenceStep at hstep
  split at hstep
  · -- a vertex that is not in the map is no line without an error
    cases hstep
  rename_i v hv
  split at hstep
  · -- nor is a vertex that is not in the result file
    simp at hstep
  rename_i c hc
  have hpair : componentPair components vertexMap ref = some (ref.value, c) := by
    simp [componentPair, componentOf, hv, hc]
  split at hstep
  · rename_i hfirst
    simp only [Except.ok.injEq, Prod.mk.injEq, ite_eq_right_iff, reduceCtorEq, imp_false] at hstep
    obtain ⟨rfl, hnew⟩ := hstep
    exact ⟨rfl, _, hpair, h.first hfirst hnew _⟩
  · rename_i c' hagain
    simp only [Except.ok.injEq, Prod.mk.injEq, ne_eq, ite_not, ite_eq_left_iff, reduceCtorEq,
      imp_false, not_not] at hstep
    obtain ⟨rfl, rfl⟩ := hstep
    exact ⟨rfl, _, hpair, h.again hagain _⟩

/-- A line whose pair may be added to the matching has no error. -/
theorem equivalenceStep_isOk (h : Tracks s ps) {p : Int64 × Int64}
    (hpair : componentPair components vertexMap ref = some p)
    (hbi : Relator.BiUnique (Paired (ps ++ [p]))) :
    ∃ s', equivalenceStep components vertexMap s ref = .ok (s', none) := by
  obtain ⟨c, hcomponent, rfl⟩ := Option.map_eq_some_iff.mp hpair
  obtain ⟨v, hv, hc⟩ := Option.bind_eq_some_iff.mp hcomponent
  simp only [equivalenceStep, hv, hc]
  cases hlookup : s.refMapping.lookup ref.value with
  | none =>
    -- the first time: a right label that was seen would have two left labels
    have hfresh := h.fresh hlookup
    have hnew : c ∉ s.uniqueComponents := by
      rw [h.uniqueComponents]
      rintro ⟨a, ha⟩
      exact ((biUnique_concat_of_fresh hfresh).mp hbi).2 a ha
    simp [hnew]
  | some c' =>
    -- afterwards: the pair in the table has the same left label
    have hmem : Paired ps ref.value c' := (h.refMapping _ _).mp hlookup
    obtain ⟨-, rfl⟩ := (biUnique_concat_of_mem hmem).mp hbi
    simp

/-- **The run over the reference**: without errors, it matches the components of all lines. -/
theorem clean_tracks {expected : List Line} (h : Tracks s ps)
    (hclean : clean (equivalenceStep components vertexMap) expected s = some s') :
    s'.lineno = s.lineno + expected.length ∧
      (∀ ref ∈ expected, (componentPair components vertexMap ref).isSome) ∧
      Tracks s' (ps ++ expected.filterMap (componentPair components vertexMap)) := by
  induction expected generalizing s ps with
  | nil =>
    obtain rfl := Option.some.inj hclean
    exact ⟨rfl, by simp, by simpa using h⟩
  | cons ref rest ih =>
    simp only [clean] at hclean
    split at hclean
    · rename_i s₁ hstep
      -- one line, then the rest from the tables after it
      obtain ⟨hlineno, p, hpair, htracks⟩ := equivalenceStep_tracks h hstep
      obtain ⟨hlineno', hsome, htracks'⟩ := ih htracks hclean
      refine ⟨by rw [hlineno', hlineno, List.length_cons]; omega, ?_, ?_⟩
      · rw [List.forall_mem_cons]
        exact ⟨by simp [hpair], hsome⟩
      · rw [List.append_assoc] at htracks'
        simpa [hpair] using htracks'
    · cases hclean

/-- The run has no error if the components of all lines are a matching. -/
theorem clean_isSome {expected : List Line} (h : Tracks s ps)
    (hsome : ∀ ref ∈ expected, (componentPair components vertexMap ref).isSome)
    (hbi : Relator.BiUnique
      (Paired (ps ++ expected.filterMap (componentPair components vertexMap)))) :
    ∃ s', clean (equivalenceStep components vertexMap) expected s = some s' := by
  induction expected generalizing s ps with
  | nil => exact ⟨s, rfl⟩
  | cons ref rest ih =>
    rw [List.forall_mem_cons] at hsome
    obtain ⟨p, hpair⟩ := Option.isSome_iff_exists.mp hsome.1
    -- the pair of this line is added first, and what remains is still a matching
    have hall : Relator.BiUnique
        (Paired (ps ++ [p] ++ rest.filterMap (componentPair components vertexMap))) := by
      simpa [hpair] using hbi
    obtain ⟨s₁, hstep⟩ := equivalenceStep_isOk h hpair (biUnique_of_append hall)
    obtain ⟨-, q, hq, htracks⟩ := equivalenceStep_tracks h hstep
    obtain rfl : p = q := Option.some.inj (hpair.symm.trans hq)
    simp only [clean, hstep]
    exact ih htracks hsome.2 hall

/-- The equivalence match as a matching of components. -/
theorem equivalenceMatch_ok_iff_biUnique {result expected : List Line} {maxNumErrors : ℕ} :
    equivalenceMatch result expected maxNumErrors vertexMap = .ok () ↔
      (readComponents result ∅).entries.length ≤ expected.length ∧
      (∀ ref ∈ expected, (componentPair (readComponents result ∅) vertexMap ref).isSome) ∧
      Relator.BiUnique
        (Paired (expected.filterMap (componentPair (readComponents result ∅) vertexMap))) := by
  simp only [equivalenceMatch, conclude_ok_iff]
  constructor
  · rintro ⟨s', hclean, hlast⟩
    obtain ⟨hlineno, hsome, htracks⟩ := clean_tracks tracks_start hclean
    refine ⟨?_, hsome, htracks.biUnique⟩
    -- the count after the loop is the only check on the number of lines
    split_ifs at hlast with hlt
    rw [hlineno] at hlt
    simpa [Equivalence.start] using hlt
  · rintro ⟨hlength, hsome, hbi⟩
    obtain ⟨s', hclean⟩ := clean_isSome tracks_start hsome hbi
    obtain ⟨hlineno, -, -⟩ := clean_tracks tracks_start hclean
    refine ⟨s', hclean, if_neg ?_⟩
    rw [hlineno]
    simpa [Equivalence.start] using hlength

end Run

/-! ## Partitions -/

section Partition

variable {result expected : List Line} {vertexMap : Option VertexMap}

theorem toLines_readComponents_empty (hresult : (result.map Line.vertexId).Nodup) :
    toLines id (readComponents result ∅) = result.reverse := by
  rw [toLines_readComponents, toLines_empty, List.append_nil]
  simpa using hresult

theorem lookup_readComponents (hresult : (result.map Line.vertexId).Nodup) (v : Int64) :
    (readComponents result ∅).lookup v = valueAt result v := by
  apply Option.ext
  intro x
  rw [valueAt_eq_some_iff hresult, ← List.mem_reverse, ← toLines_readComponents_empty hresult,
    mem_toLines]
  simp

/-- The components of a line are those of the relabelled line. -/
theorem componentPair_eq (hresult : (result.map Line.vertexId).Nodup) (ref : Line) :
    componentPair (readComponents result ∅) vertexMap ref =
      (relabelled vertexMap false ref).bind fun t =>
        (valueAt result t.vertexId).map (Prod.mk t.value) := by
  unfold componentPair componentOf relabelled
  cases vertexOf vertexMap ref.vertexId with
  | none => rfl
  | some v => simp [lookup_readComponents hresult]

/-- The comparison of the components of the relabelled lines. -/
theorem equivalenceMatch_ok_iff_mem {maxNumErrors : ℕ} (hmap : Relabels vertexMap false expected)
    (hresult : (result.map Line.vertexId).Nodup) :
    equivalenceMatch result expected maxNumErrors vertexMap = .ok () ↔
      (result.length ≤ (expected.filterMap (relabelled vertexMap false)).length ∧
        ∀ t ∈ expected.filterMap (relabelled vertexMap false),
          (valueAt result t.vertexId).isSome) ∧
      ∀ t ∈ expected.filterMap (relabelled vertexMap false),
        ∀ t' ∈ expected.filterMap (relabelled vertexMap false),
          (valueAt result t.vertexId = valueAt result t'.vertexId ↔ t.value = t'.value) := by
  have hlength : (readComponents result ∅).entries.length = result.length := by
    simpa using congrArg List.length (toLines_readComponents_empty hresult)
  have hsome : (∀ ref ∈ expected,
        (componentPair (readComponents result ∅) vertexMap ref).isSome) ↔
      ∀ t ∈ expected.filterMap (relabelled vertexMap false),
        (valueAt result t.vertexId).isSome := by
    constructor
    · intro h t ht
      obtain ⟨ref, href, hrelabel⟩ := List.mem_filterMap.mp ht
      simpa [componentPair_eq hresult, hrelabel] using h ref href
    · intro h ref href
      obtain ⟨t, ht⟩ := hmap.isSome href
      simpa [componentPair_eq hresult, ht] using h t (List.mem_filterMap.mpr ⟨ref, href, ht⟩)
  -- the vertex map acts on the vertices only, so the relabelled lines have the same pairs
  have hpairs : expected.filterMap (componentPair (readComponents result ∅) vertexMap) =
      (expected.filterMap (relabelled vertexMap false)).filterMap fun t =>
        (valueAt result t.vertexId).map (Prod.mk t.value) := by
    rw [List.filterMap_filterMap]
    exact List.filterMap_congr fun ref _ => componentPair_eq hresult ref
  rw [equivalenceMatch_ok_iff_biUnique, hlength, hsome, hpairs, hmap.length_filterMap, ← and_assoc]
  refine and_congr_right fun h => ?_
  exact biUnique_filterMap_iff h.2

/-- **The vertices of two files** are the same when one has those of the other and no more lines. -/
theorem mem_vertexId_iff {lines lines' : List Line} (h : (lines.map Line.vertexId).Nodup)
    (h' : (lines'.map Line.vertexId).Nodup) :
    (lines.length ≤ lines'.length ∧ ∀ t ∈ lines', (valueAt lines t.vertexId).isSome) ↔
      ∀ v, v ∈ lines.map Line.vertexId ↔ v ∈ lines'.map Line.vertexId := by
  simp only [valueAt_isSome_iff]
  constructor
  · rintro ⟨hlength, hsub⟩ v
    -- as many vertices and all of them in the other file, so there is no other vertex
    have hsubperm := h'.subperm (List.forall_mem_map.mpr hsub)
    exact (hsubperm.perm_of_length_le (by simpa using hlength)).mem_iff.symm
  · intro hmem
    have hperm := (List.perm_ext_iff_of_nodup h h').mpr hmem
    refine ⟨?_, fun t ht => (hmem _).mpr (List.mem_map_of_mem ht)⟩
    simpa using hperm.length_eq.le

/-- **The equivalence match accepts equal partitions.** If no file has a duplicate vertex and the
map relabels the vertices of the reference, a validation ends without an exception if and only if
the files have the same vertices and any two vertices are in one component of the result when they
are in one component of the reference. -/
theorem equivalenceMatch_ok_iff (result expected : List Line) (maxNumErrors : ℕ)
    (vertexMap : Option VertexMap) (hmap : Relabels vertexMap false expected)
    (hresult : (result.map Line.vertexId).Nodup)
    (hexpected : (expected.map Line.vertexId).Nodup) :
    equivalenceMatch result expected maxNumErrors vertexMap = .ok () ↔
      (∀ v, v ∈ result.map Line.vertexId ↔
        v ∈ (expected.filterMap (relabelled vertexMap false)).map Line.vertexId) ∧
      ∀ v ∈ result.map Line.vertexId, ∀ w ∈ result.map Line.vertexId,
        (valueAt result v = valueAt result w ↔
          valueAt (expected.filterMap (relabelled vertexMap false)) v =
            valueAt (expected.filterMap (relabelled vertexMap false)) w) := by
  have himage := hmap.nodup_filterMap hexpected
  rw [equivalenceMatch_ok_iff_mem hmap hresult, mem_vertexId_iff hresult himage]
  -- with the same vertices, a statement about the lines is one about the vertices
  refine and_congr_right fun hvertices => ?_
  simp only [hvertices, List.forall_mem_map]
  refine forall₂_congr fun t ht => forall₂_congr fun t' ht' => ?_
  rw [(valueAt_eq_some_iff himage).mpr ht, (valueAt_eq_some_iff himage).mpr ht', Option.some.injEq]

/-- Three vertices in two components, with other names and in another order. -/
theorem equivalenceMatch_ok_iff_threeVertices :
    equivalenceMatch [⟨13, 8⟩, ⟨11, 7⟩, ⟨12, 7⟩] [⟨1, 1⟩, ⟨2, 1⟩, ⟨3, 3⟩] 0
      (some fun x => some (x + 10)) = .ok () := by
  have hmap := relabels_shift 10 [⟨1, 1⟩, ⟨2, 1⟩, ⟨3, 3⟩]
  refine (equivalenceMatch_ok_iff _ _ 0 _ hmap (by decide) (by decide)).mpr ⟨?_, ?_⟩
  · exact (mem_vertexId_iff (by decide) (by decide)).mp (by decide)
  · simp [valueAt, relabelled, vertexOf, VertexMap.remap]

end Partition

end GraphalyticsValidate

end GfeDriver
