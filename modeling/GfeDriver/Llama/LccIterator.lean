import GfeDriver.Foundation.Cursor
import GfeDriver.Llama.Snapshot

/-!
# The common neighbours in LLAMA

An iterator over the common neighbours of `src` and `dst` enumerates the neighbours of `src`, first
along the outgoing edges and then along the incoming ones, and searches each of them among those of
`dst`. The search does not start anew. It resumes from the neighbour of `dst` that was found last,
starts over at the end of the edges, and gives up when it meets this neighbour again. On directed
graphs the neighbours of `dst` are the ends of its outgoing edges. On undirected graphs the search
alternates between the outgoing and the incoming edges.

## Main definitions

* `advance restart`: an iterator over edges that starts over at their end
* `CommonNeighborIterDirected`, `CommonNeighborIterUndirected`: the members of the classes, but for
  the constant ones
* `checkCommon`, `getNext`: their functions
* `Searching`: the invariant of the search
* `remaining`: the common neighbours that are left

## Main results

* `checkCommon_spec`: the search ends and finds the neighbours of `dst`
* `getNext_spec`: the next common neighbour
-/

namespace GfeDriver

namespace Llama

open Foundation

/-! ## Iterators that start over -/

/-- A move of an iterator over edges, with the direction of these edges. At their end it starts
over, which may change the direction. -/
def advance (restart : Bool → EdgeIterator × Bool) (p : EdgeIterator × Bool) :
    Option ℕ × (EdgeIterator × Bool) :=
  if p.1.hasNext then (p.1.next.lastNode, (p.1.next, p.2)) else (none, restart p.2)

section Advance

variable {restart : Bool → EdgeIterator × Bool} {q : EdgeIterator × Bool} {n lastNode : Option ℕ}
  {mode : Bool} {x : ℕ} {left w : List ℕ}

/-- The next edge. -/
theorem gives_head :
    Gives (advance restart) (⟨n, x :: left, lastNode⟩, mode) [x] (⟨n, left, some x⟩, mode) :=
  .give rfl (.nil _)

/-- The edges that are left. -/
theorem gives_left (l : List ℕ)
    (h : ∀ lastNode, Gives (advance restart) (⟨n, [], lastNode⟩, mode) w q) (lastNode : Option ℕ) :
    Gives (advance restart) (⟨n, l, lastNode⟩, mode) (l ++ w) q := by
  induction l generalizing lastNode with
  | nil => exact h lastNode
  | cons y l ih => exact .give rfl (ih (some y))

/-- The start over, before an edge. -/
theorem gives_restart (h : Gives (advance restart) (restart mode) w q) (hw : w ≠ [])
    (lastNode : Option ℕ) : Gives (advance restart) (⟨n, [], lastNode⟩, mode) w q := by
  obtain ⟨x, w, rfl⟩ := List.exists_cons_of_ne_nil hw
  exact .silent rfl h

end Advance

/-! ## Directed graphs -/

/-- The members of `common_neighbor_iter_directed` that change. -/
structure CommonNeighborIterDirected where
  srcIter : EdgeIterator
  srcIterReverseEdge : Bool
  dstIter : EdgeIterator
  dstCurNeighbour : Option ℕ
  alreadyVisited : Finset ℕ

namespace CommonNeighborIterDirected

variable (g : Snapshot) (src dst : ℕ)

/-- The constructor. -/
def begin : CommonNeighborIterDirected where
  srcIter := .outBegin g src
  srcIterReverseEdge := false
  dstIter := (EdgeIterator.outBegin g dst).next
  dstCurNeighbour :=
    if (EdgeIterator.outBegin g dst).hasNext then (EdgeIterator.outBegin g dst).next.lastNode
    else none
  alreadyVisited := ∅

/-- The loop of `check_common`. -/
def checkLoop (t : ℕ) :
    ℕ → CommonNeighborIterDirected → Option (Bool × CommonNeighborIterDirected)
  | 0, _ => none
  | fuel + 1, it =>
    if it.dstIter.hasNext then
      let it := { it with dstIter := it.dstIter.next }
      it.dstIter.lastNode.bind fun candidate =>
        if candidate = t then some (true, { it with dstCurNeighbour := some candidate })
        else if some candidate = it.dstCurNeighbour then some (false, it)
        else checkLoop t fuel it
    else checkLoop t fuel { it with dstIter := .outBegin g dst }

/-- `check_common`. -/
def checkCommon (fuel : ℕ) (it : CommonNeighborIterDirected) (t : ℕ) :
    Option (Bool × CommonNeighborIterDirected) :=
  if some t = it.dstCurNeighbour then some (true, it) else checkLoop g dst t fuel it

/-- The loop of `get_next` over the outgoing edges. -/
def scanOut : ℕ → CommonNeighborIterDirected → Option (Option ℕ × CommonNeighborIterDirected)
  | 0, _ => none
  | fuel + 1, it =>
    if it.srcIter.hasNext then
      let it := { it with srcIter := it.srcIter.next }
      it.srcIter.lastNode.bind fun t =>
        let it := { it with alreadyVisited := insert t it.alreadyVisited }
        (checkCommon g dst fuel it t).bind fun r =>
          if r.1 then some (some t, r.2) else scanOut fuel r.2
    else some (none, it)

/-- The loop of `get_next` over the incoming edges. -/
def scanIn : ℕ → CommonNeighborIterDirected → Option (Option ℕ × CommonNeighborIterDirected)
  | 0, _ => none
  | fuel + 1, it =>
    if it.srcIter.hasNext then
      let it := { it with srcIter := it.srcIter.next }
      it.srcIter.lastNode.bind fun t =>
        if t ∈ it.alreadyVisited then scanIn fuel it
        else (checkCommon g dst fuel it t).bind fun r =>
          if r.1 then some (some t, r.2) else scanIn fuel r.2
    else some (none, it)

/-- `get_next`. -/
def getNext (fuel : ℕ) (it : CommonNeighborIterDirected) :
    Option (Option ℕ × CommonNeighborIterDirected) :=
  if it.dstCurNeighbour = none then some (none, it)
  else if !it.srcIterReverseEdge then
    (scanOut g dst fuel it).bind fun r =>
      match r.1 with
      | some _ => some r
      | none => scanIn g dst fuel { r.2 with srcIter := .inBegin g src, srcIterReverseEdge := true }
  else scanIn g dst fuel it

/-! ### The search -/

/-- The iterator over the edges of `dst` starts over with the outgoing ones. -/
def restart : Bool → EdgeIterator × Bool := fun _ => (.outBegin g dst, false)

/-- **The invariant of the search**: the iterator is around the neighbours of `dst`. -/
def Searching (it : CommonNeighborIterDirected) : Prop :=
  ∃ cur mode, it.dstCurNeighbour = some cur ∧
    Around (advance (restart g dst)) (it.dstIter, mode) cur (g.outNodes dst)

variable {g} {src dst} {it : CommonNeighborIterDirected} {cur t : ℕ}

/-- **The constructor** reads the first outgoing edge of `dst`, if there is one. -/
theorem searching_begin (h : g.outNodes dst ≠ []) : (begin g src dst).Searching g dst := by
  obtain ⟨x, left, hout⟩ := List.exists_cons_of_ne_nil h
  have hbegin : EdgeIterator.outBegin g dst = ⟨some dst, x :: left, none⟩ := by
    rw [EdgeIterator.outBegin, hout]
  refine ⟨x, false, ?_, left, ?_, ?_⟩
  · rw [begin, hbegin]
    rfl
  · rw [begin, hbegin]
    refine gives_left left (gives_restart ?_ (List.cons_ne_nil x [])) _
    rw [restart, hbegin]
    exact gives_head
  · rw [hout]
    exact List.perm_append_singleton x left

theorem begin_dstCurNeighbour_of_nil (h : g.outNodes dst = []) :
    (begin g src dst).dstCurNeighbour = none := by
  simp [begin, EdgeIterator.outBegin, EdgeIterator.hasNext, h]

/-- **The loop** is a circular search. -/
theorem checkLoop_eq (hcur : it.dstCurNeighbour = some cur) (mode : Bool) (fuel : ℕ) :
    checkLoop g dst t fuel it =
      (seek (advance (restart g dst)) t cur fuel (it.dstIter, mode)).map fun r =>
        (r.1, { it with
          dstIter := r.2.1
          dstCurNeighbour := some (if r.1 then t else cur) }) := by
  induction fuel generalizing it mode with
  | zero => rfl
  | succ fuel ih =>
    obtain ⟨srcIter, srcReverse, ⟨n, left, lastNode⟩, dstCur, visited⟩ := it
    obtain rfl : dstCur = some cur := hcur
    cases left with
    | nil => exact ih rfl false
    | cons x left =>
      by_cases hxt : x = t
      · subst hxt
        simp [checkLoop, seek, advance, EdgeIterator.hasNext, EdgeIterator.next]
      · by_cases hxc : x = cur
        · subst hxc
          simp [checkLoop, seek, advance, EdgeIterator.hasNext, EdgeIterator.next, hxt]
        · have hmoved : (⟨srcIter, srcReverse, ⟨n, left, some x⟩, some cur, visited⟩ :
              CommonNeighborIterDirected).dstCurNeighbour = some cur := rfl
          have hstep := ih hmoved mode
          simpa [checkLoop, seek, advance, EdgeIterator.hasNext, EdgeIterator.next, hxt, hxc] using
            hstep

/-- **The search for `t`** ends and finds the neighbours of `dst`. -/
theorem checkCommon_spec (hg : (g.outNodes dst).Nodup) (h : it.Searching g dst) (t : ℕ) :
    ∃ dstIter cur,
      { it with dstIter := dstIter, dstCurNeighbour := cur }.Searching g dst ∧
      ∃ k, ∀ fuel, k ≤ fuel → checkCommon g dst fuel it t =
        some (decide (t ∈ g.outNodes dst),
          { it with dstIter := dstIter, dstCurNeighbour := cur }) := by
  obtain ⟨cur, mode, hcur, haround⟩ := h
  by_cases ht : t = cur
  · subst ht
    refine ⟨it.dstIter, it.dstCurNeighbour, ⟨t, mode, hcur, haround⟩, 0, fun fuel _ => ?_⟩
    rw [checkCommon, if_pos hcur.symm, decide_eq_true haround.mem]
  · obtain ⟨⟨dstIter, mode'⟩, haround', -, k, hk⟩ := haround.seek hg ht
    refine ⟨dstIter, some (if t ∈ g.outNodes dst then t else cur), ⟨_, mode', rfl, haround'⟩, k,
      fun fuel hfuel => ?_⟩
    rw [checkCommon, if_neg (by rw [hcur]; simpa using ht), checkLoop_eq hcur mode, hk fuel hfuel]
    simp

/-! ### The enumeration -/

/-- **The loop over the outgoing edges** ends at the next neighbour of `dst`, or at the end. What it
has read is in the set. -/
theorem scanOut_spec (hg : (g.outNodes dst).Nodup) (h : it.Searching g dst) :
    ∃ r it', it'.Searching g dst ∧ it'.srcIterReverseEdge = it.srcIterReverseEdge ∧
      (∀ t, (t ∈ it'.alreadyVisited ∨ t ∈ it'.srcIter.left) ↔
        t ∈ it.alreadyVisited ∨ t ∈ it.srcIter.left) ∧
      it.srcIter.left.filter (· ∈ g.outNodes dst) =
        r.toList ++ it'.srcIter.left.filter (· ∈ g.outNodes dst) ∧
      (r = none → it'.srcIter.left = []) ∧
      ∃ k, ∀ fuel, k ≤ fuel → scanOut g dst fuel it = some (r, it') := by
  obtain ⟨⟨n, left, lastNode⟩, reverse, dstIter, dstCur, visited⟩ := it
  induction left generalizing lastNode dstIter dstCur visited with
  | nil => exact ⟨none, _, h, rfl, fun _ => Iff.rfl, rfl, fun _ => rfl,
      enough_succ ⟨0, fun _ _ => rfl⟩⟩
  | cons t left ih =>
    -- the iterator moves, and the search does not look at that
    have hmoved : Searching g dst
        ⟨⟨n, left, some t⟩, reverse, dstIter, dstCur, insert t visited⟩ := h
    obtain ⟨dstIter', dstCur', hsearching, k, hk⟩ := checkCommon_spec hg hmoved t
    by_cases ht : t ∈ g.outNodes dst
    · refine ⟨some t, _, hsearching, rfl, fun x => ?_, ?_,
        fun hr => absurd hr (Option.some_ne_none t), ?_⟩
      · simp only [Finset.mem_insert, List.mem_cons]
        tauto
      · simp [ht]
      · refine enough_succ ⟨k, fun fuel hfuel => ?_⟩
        simp [scanOut, EdgeIterator.hasNext, EdgeIterator.next, hk fuel hfuel, ht]
    · obtain ⟨r, it', hsearching', hreverse, hread, hfilter, hend, k', hk'⟩ := ih _ _ _ _ hsearching
      refine ⟨r, it', hsearching', hreverse, fun x => ?_, ?_, hend, ?_⟩
      · rw [hread]
        simp only [Finset.mem_insert, List.mem_cons]
        tauto
      · rw [← hfilter]
        simp [ht]
      · refine enough_succ ⟨max k k', fun fuel hfuel => ?_⟩
        simpa [scanOut, EdgeIterator.hasNext, EdgeIterator.next,
          hk fuel (le_of_max_le_left hfuel), ht] using hk' fuel (le_of_max_le_right hfuel)

/-- **The loop over the incoming edges** does the same, and leaves out what is in the set. -/
theorem scanIn_spec (hg : (g.outNodes dst).Nodup) (h : it.Searching g dst) :
    ∃ r it', it'.Searching g dst ∧ it'.srcIterReverseEdge = it.srcIterReverseEdge ∧
      it'.alreadyVisited = it.alreadyVisited ∧
      it.srcIter.left.filter (fun t => t ∉ it.alreadyVisited ∧ t ∈ g.outNodes dst) =
        r.toList ++
          it'.srcIter.left.filter (fun t => t ∉ it.alreadyVisited ∧ t ∈ g.outNodes dst) ∧
      (r = none → it'.srcIter.left = []) ∧
      ∃ k, ∀ fuel, k ≤ fuel → scanIn g dst fuel it = some (r, it') := by
  obtain ⟨⟨n, left, lastNode⟩, reverse, dstIter, dstCur, visited⟩ := it
  induction left generalizing lastNode dstIter dstCur with
  | nil => exact ⟨none, _, h, rfl, rfl, rfl, fun _ => rfl, enough_succ ⟨0, fun _ _ => rfl⟩⟩
  | cons t left ih =>
    by_cases hvisited : t ∈ visited
    · obtain ⟨r, it', hsearching', hreverse, hsame, hfilter, hend, k', hk'⟩ :=
        ih dstIter dstCur (some t) h
      refine ⟨r, it', hsearching', hreverse, hsame, ?_, hend, ?_⟩
      · rw [← hfilter]
        simp [hvisited]
      · refine enough_succ ⟨k', fun fuel hfuel => ?_⟩
        simpa [scanIn, EdgeIterator.hasNext, EdgeIterator.next, hvisited] using hk' fuel hfuel
    · have hmoved : Searching g dst ⟨⟨n, left, some t⟩, reverse, dstIter, dstCur, visited⟩ := h
      obtain ⟨dstIter', dstCur', hsearching, k, hk⟩ := checkCommon_spec hg hmoved t
      by_cases ht : t ∈ g.outNodes dst
      · refine ⟨some t, _, hsearching, rfl, rfl, ?_,
          fun hr => absurd hr (Option.some_ne_none t), ?_⟩
        · simp [ht, hvisited]
        · refine enough_succ ⟨k, fun fuel hfuel => ?_⟩
          simp [scanIn, EdgeIterator.hasNext, EdgeIterator.next, hk fuel hfuel, ht, hvisited]
      · obtain ⟨r, it', hsearching', hreverse, hsame, hfilter, hend, k', hk'⟩ := ih _ _ _ hsearching
        refine ⟨r, it', hsearching', hreverse, hsame, ?_, hend, ?_⟩
        · rw [← hfilter]
          simp [ht]
        · refine enough_succ ⟨max k k', fun fuel hfuel => ?_⟩
          simpa [scanIn, EdgeIterator.hasNext, EdgeIterator.next,
            hk fuel (le_of_max_le_left hfuel), ht, hvisited] using
            hk' fuel (le_of_max_le_right hfuel)

variable (g src dst) in
/-- **The common neighbours that are left**, in the order in which they are enumerated. -/
def remaining (it : CommonNeighborIterDirected) : List ℕ :=
  if it.srcIterReverseEdge then
    it.srcIter.left.filter fun t => t ∉ it.alreadyVisited ∧ t ∈ g.outNodes dst
  else it.srcIter.left.filter (· ∈ g.outNodes dst) ++
    (g.inNodes src).filter fun t =>
      (t ∉ it.alreadyVisited ∧ t ∉ it.srcIter.left) ∧ t ∈ g.outNodes dst

variable (src) in
/-- The next common neighbour on an incoming edge. -/
theorem scanIn_remaining (hg : (g.outNodes dst).Nodup) (h : it.Searching g dst)
    (hreverse : it.srcIterReverseEdge = true) :
    ∃ it', it'.Searching g dst ∧ it'.remaining g src dst = (it.remaining g src dst).tail ∧
      ∃ k, ∀ fuel, k ≤ fuel →
        scanIn g dst fuel it = some ((it.remaining g src dst).head?, it') := by
  obtain ⟨r, it', hsearching, hreverse', hvisited, hfilter, hend, hfuel⟩ := scanIn_spec hg h
  have hleft : it.remaining g src dst = r.toList ++ it'.remaining g src dst := by
    rw [remaining, remaining, hreverse', if_pos hreverse, if_pos hreverse, hvisited]
    exact hfilter
  have hdone : r = none → it'.remaining g src dst = [] := by
    intro hr
    rw [remaining, hreverse', if_pos hreverse, hend hr, List.filter_nil]
  obtain ⟨hhead, htail⟩ := head?_eq_and_tail_eq hleft hdone
  exact ⟨it', hsearching, htail.symm, by rw [hhead]; exact hfuel⟩

variable (src) in
/-- **The next common neighbour**, of a `dst` with outgoing edges. -/
theorem getNext_spec (hg : (g.outNodes dst).Nodup) (h : it.Searching g dst) :
    ∃ it', it'.Searching g dst ∧ it'.remaining g src dst = (it.remaining g src dst).tail ∧
      ∃ k, ∀ fuel, k ≤ fuel →
        getNext g src dst fuel it = some ((it.remaining g src dst).head?, it') := by
  have hcur : it.dstCurNeighbour ≠ none := by
    obtain ⟨cur, -, hcur, -⟩ := h
    rw [hcur]
    exact Option.some_ne_none cur
  cases hreverse : it.srcIterReverseEdge with
  | true =>
    obtain ⟨it', hsearching, htail, k, hk⟩ := scanIn_remaining src hg h hreverse
    refine ⟨it', hsearching, htail, k, fun fuel hfuel => ?_⟩
    rw [getNext, if_neg hcur, hreverse]
    exact hk fuel hfuel
  | false =>
    obtain ⟨r, it', hsearching, hreverse', hread, hfilter, hend, k, hk⟩ := scanOut_spec hg h
    have hleft : it.remaining g src dst = r.toList ++ it'.remaining g src dst := by
      rw [remaining, remaining, hreverse', hreverse, if_neg Bool.false_ne_true,
        if_neg Bool.false_ne_true, hfilter, List.append_assoc]
      congr 2
      refine List.filter_congr fun t _ => ?_
      have := hread t
      simp only [decide_eq_decide]
      tauto
    cases r with
    | some t =>
      obtain ⟨hhead, htail⟩ := head?_eq_and_tail_eq hleft fun hr => by cases hr
      refine ⟨it', hsearching, htail.symm, k, fun fuel hfuel => ?_⟩
      rw [getNext, if_neg hcur, hreverse, hk fuel hfuel, hhead]
      rfl
    | none =>
      -- the outgoing edges are done, and the incoming ones are scanned in the same call
      have hmoved : Searching g dst
          { it' with srcIter := .inBegin g src, srcIterReverseEdge := true } := hsearching
      obtain ⟨it'', hsearching', htail, k', hk'⟩ := scanIn_remaining src hg hmoved rfl
      have hsame : remaining g src dst
          { it' with srcIter := .inBegin g src, srcIterReverseEdge := true } =
          it.remaining g src dst := by
        rw [hleft, remaining, remaining, hreverse', hreverse, hend rfl]
        simp [EdgeIterator.inBegin]
      rw [hsame] at htail hk'
      refine ⟨it'', hsearching', htail, max k k', fun fuel hfuel => ?_⟩
      rw [getNext, if_neg hcur, hreverse, hk fuel (le_of_max_le_left hfuel)]
      exact hk' fuel (le_of_max_le_right hfuel)

/-! ### The histories -/

variable (g src dst) in
/-- The common neighbours that are left are `l`. A sink `dst` has none, and is not searched. -/
def Left (it : CommonNeighborIterDirected) (l : List ℕ) : Prop :=
  it.remaining g src dst = l ∧
    (it.Searching g dst ∨ g.outNodes dst = [] ∧ it.dstCurNeighbour = none)

variable (g dst) in
/-- A call of `check_common`, which is made only if `dst` is not a sink. -/
def Checked (it it' : CommonNeighborIterDirected) : Prop :=
  it.dstCurNeighbour ≠ none ∧
    ∃ t b, ∃ k, ∀ fuel, k ≤ fuel → checkCommon g dst fuel it t = some (b, it')

theorem left_begin : (begin g src dst).Left g src dst ((begin g src dst).remaining g src dst) := by
  refine ⟨rfl, ?_⟩
  by_cases h : g.outNodes dst = []
  · exact Or.inr ⟨h, begin_dstCurNeighbour_of_nil h⟩
  · exact Or.inl (searching_begin h)

theorem Left.searching {l : List ℕ} (h : it.Left g src dst l) (hcur : it.dstCurNeighbour ≠ none) :
    it.Searching g dst := h.2.resolve_right fun hsink => hcur hsink.2

/-- **A call of `get_next`** gives the head of what is left. -/
theorem Left.getNext (hg : (g.outNodes dst).Nodup) {l : List ℕ} (h : it.Left g src dst l) :
    ∃ it', it'.Left g src dst l.tail ∧
      ∃ k, ∀ fuel, k ≤ fuel → getNext g src dst fuel it = some (l.head?, it') := by
  obtain ⟨rfl, hsearching | hsink⟩ := h
  · obtain ⟨it', hsearching', htail, hfuel⟩ := getNext_spec src hg hsearching
    exact ⟨it', ⟨htail, Or.inl hsearching'⟩, hfuel⟩
  · have hnone : it.remaining g src dst = [] := by
      rw [remaining, hsink.1]
      simp
    refine ⟨it, ⟨by rw [hnone]; rfl, Or.inr hsink⟩, 0, fun fuel _ => ?_⟩
    rw [CommonNeighborIterDirected.getNext, if_pos hsink.2, hnone]
    rfl

/-- **A call of `check_common`** changes nothing about it. -/
theorem Left.checked (hg : (g.outNodes dst).Nodup) {l : List ℕ}
    {it' : CommonNeighborIterDirected} (h : it.Left g src dst l) (hchecked : it.Checked g dst it') :
    it'.Left g src dst l := by
  obtain ⟨hcur, t, b, hreturned⟩ := hchecked
  obtain ⟨dstIter, cur, hsearching', hanswer⟩ := checkCommon_spec hg (h.searching hcur) t
  obtain ⟨-, rfl⟩ := Prod.mk.inj (eq_of_enough hreturned hanswer)
  exact ⟨h.1, Or.inl hsearching'⟩

/-- What is left at the start: the common neighbours. -/
theorem mem_remaining_begin : t ∈ (begin g src dst).remaining g src dst ↔
    (t ∈ g.outNodes src ∨ t ∈ g.inNodes src) ∧ t ∈ g.outNodes dst := by
  simp only [remaining, begin, EdgeIterator.outBegin, Bool.false_eq_true, if_false,
    List.mem_append, List.mem_filter, decide_eq_true_eq, Finset.notMem_empty, not_false_eq_true,
    true_and]
  tauto

theorem nodup_remaining_begin (hout : (g.outNodes src).Nodup) (hin : (g.inNodes src).Nodup) :
    ((begin g src dst).remaining g src dst).Nodup := by
  simp only [remaining, begin, EdgeIterator.outBegin, Bool.false_eq_true, if_false]
  refine List.nodup_append.mpr ⟨hout.filter _, hin.filter _, fun x hx y hy heq => ?_⟩
  subst heq
  rw [List.mem_filter] at hx hy
  exact (of_decide_eq_true hy.2).1.2 hx.1

end CommonNeighborIterDirected

/-! ## Undirected graphs -/

/-- The members of `common_neighbor_iter_undirected` that change. -/
structure CommonNeighborIterUndirected where
  srcIter : EdgeIterator
  srcIterReverseEdge : Bool
  dstIter : EdgeIterator
  dstCurNeighbour : Option ℕ
  dstIterReverseEdge : Bool

namespace CommonNeighborIterUndirected

variable (g : Snapshot) (src dst : ℕ)

/-- The constructor. Its assertion on the result of `in_iter_has_next_fast` always holds. -/
def begin : CommonNeighborIterUndirected :=
  if (EdgeIterator.outBegin g dst).hasNext then
    { srcIter := .outBegin g src
      srcIterReverseEdge := false
      dstIter := (EdgeIterator.outBegin g dst).next
      dstCurNeighbour := (EdgeIterator.outBegin g dst).next.lastNode
      dstIterReverseEdge := false }
  else
    { srcIter := .outBegin g src
      srcIterReverseEdge := false
      dstIter := (EdgeIterator.inBegin g dst).next
      dstCurNeighbour := (EdgeIterator.inBegin g dst).next.lastNode
      dstIterReverseEdge := true }

/-- The loop of `check_common`. -/
def checkLoop (t : ℕ) :
    ℕ → Bool → CommonNeighborIterUndirected → Option (Bool × CommonNeighborIterUndirected)
  | 0, _, _ => none
  | fuel + 1, modeReverseEdge, it =>
    if it.dstIter.hasNext then
      let it := { it with dstIter := it.dstIter.next }
      it.dstIter.lastNode.bind fun candidate =>
        if candidate = t then
          some (true,
            { it with dstIterReverseEdge := modeReverseEdge, dstCurNeighbour := some candidate })
        else if some candidate = it.dstCurNeighbour then some (false, it)
        else checkLoop t fuel modeReverseEdge it
    else if modeReverseEdge = false then
      checkLoop t fuel true { it with dstIter := .inBegin g dst }
    else checkLoop t fuel false { it with dstIter := .outBegin g dst }

/-- `check_common`. -/
def checkCommon (fuel : ℕ) (it : CommonNeighborIterUndirected) (t : ℕ) :
    Option (Bool × CommonNeighborIterUndirected) :=
  if some t = it.dstCurNeighbour then some (true, it)
  else checkLoop g dst t fuel it.dstIterReverseEdge it

/-- The two loops of `get_next`, over the outgoing and over the incoming edges. -/
def scan : ℕ → CommonNeighborIterUndirected → Option (Option ℕ × CommonNeighborIterUndirected)
  | 0, _ => none
  | fuel + 1, it =>
    if it.srcIter.hasNext then
      let it := { it with srcIter := it.srcIter.next }
      it.srcIter.lastNode.bind fun t =>
        (checkCommon g dst fuel it t).bind fun r =>
          if r.1 then some (some t, r.2) else scan fuel r.2
    else some (none, it)

/-- `get_next`. -/
def getNext (fuel : ℕ) (it : CommonNeighborIterUndirected) :
    Option (Option ℕ × CommonNeighborIterUndirected) :=
  if !it.srcIterReverseEdge then
    (scan g dst fuel it).bind fun r =>
      match r.1 with
      | some _ => some r
      | none => scan g dst fuel { r.2 with srcIter := .inBegin g src, srcIterReverseEdge := true }
  else scan g dst fuel it

/-! ### The search -/

/-- The iterator over the edges of `dst` starts over with those in the other direction. -/
def restart (modeReverseEdge : Bool) : EdgeIterator × Bool :=
  if modeReverseEdge = false then (.inBegin g dst, true) else (.outBegin g dst, false)

/-- **The invariant of the search**: the iterator is around the neighbours of `dst`. -/
def Searching (it : CommonNeighborIterUndirected) : Prop :=
  ∃ cur, it.dstCurNeighbour = some cur ∧
    Around (advance (restart g dst)) (it.dstIter, it.dstIterReverseEdge) cur (g.neighbours dst)

variable {g} {src dst} {it : CommonNeighborIterUndirected} {cur t : ℕ}

/-- **The constructor** reads the first edge of `dst`, if there is one. -/
theorem searching_begin (h : g.neighbours dst ≠ []) : (begin g src dst).Searching g dst := by
  cases hout : g.outNodes dst with
  | cons x left =>
    have hbegin : EdgeIterator.outBegin g dst = ⟨some dst, x :: left, none⟩ := by
      rw [EdgeIterator.outBegin, hout]
    have hcur : begin g src dst =
        ⟨.outBegin g src, false, ⟨some dst, left, some x⟩, some x, false⟩ := by
      rw [begin, hbegin]
      rfl
    rw [hcur]
    refine ⟨x, rfl, left ++ g.inNodes dst, ?_, ?_⟩
    · -- what is left of the outgoing edges, the incoming ones, and the first outgoing one
      rw [List.append_assoc]
      refine gives_left left (gives_restart ?_ (by simp)) _
      refine gives_left (g.inNodes dst) (gives_restart ?_ (List.cons_ne_nil x [])) _
      show Gives _ (EdgeIterator.outBegin g dst, false) _ _
      rw [hbegin]
      exact gives_head
    · rw [Snapshot.neighbours, hout]
      exact List.perm_append_singleton x _
  | nil =>
    have hbegin : EdgeIterator.outBegin g dst = ⟨some dst, [], none⟩ := by
      rw [EdgeIterator.outBegin, hout]
    rw [Snapshot.neighbours, hout, List.nil_append] at h
    obtain ⟨x, left, hin⟩ := List.exists_cons_of_ne_nil h
    have hbegin' : EdgeIterator.inBegin g dst = ⟨some dst, x :: left, none⟩ := by
      rw [EdgeIterator.inBegin, hin]
    have hcur : begin g src dst =
        ⟨.outBegin g src, false, ⟨some dst, left, some x⟩, some x, true⟩ := by
      rw [begin, hbegin, hbegin']
      rfl
    rw [hcur]
    refine ⟨x, rfl, left, ?_, ?_⟩
    · -- what is left of the incoming edges, and the first of them
      refine gives_left left (gives_restart ?_ (List.cons_ne_nil x [])) _
      show Gives _ (EdgeIterator.outBegin g dst, false) _ _
      rw [hbegin]
      refine gives_restart ?_ (List.cons_ne_nil x []) _
      show Gives _ (EdgeIterator.inBegin g dst, true) _ _
      rw [hbegin']
      exact gives_head
    · rw [Snapshot.neighbours, hout, hin]
      exact List.perm_append_singleton x left

/-- **The loop** is a circular search. A search that gives up is back at the direction of the last
neighbour that was found. -/
theorem checkLoop_eq (hcur : it.dstCurNeighbour = some cur) (modeReverseEdge : Bool) (fuel : ℕ) :
    checkLoop g dst t fuel modeReverseEdge it =
      (seek (advance (restart g dst)) t cur fuel (it.dstIter, modeReverseEdge)).map fun r =>
        (r.1, { it with
          dstIter := r.2.1
          dstCurNeighbour := some (if r.1 then t else cur)
          dstIterReverseEdge := if r.1 then r.2.2 else it.dstIterReverseEdge }) := by
  induction fuel generalizing it modeReverseEdge with
  | zero => rfl
  | succ fuel ih =>
    obtain ⟨srcIter, srcReverse, ⟨n, left, lastNode⟩, dstCur, dstReverse⟩ := it
    obtain rfl : dstCur = some cur := hcur
    cases left with
    | nil =>
      cases modeReverseEdge with
      | false => exact ih rfl true
      | true => exact ih rfl false
    | cons x left =>
      by_cases hxt : x = t
      · subst hxt
        simp [checkLoop, seek, advance, EdgeIterator.hasNext, EdgeIterator.next]
      · by_cases hxc : x = cur
        · subst hxc
          simp [checkLoop, seek, advance, EdgeIterator.hasNext, EdgeIterator.next, hxt]
        · have hmoved : (⟨srcIter, srcReverse, ⟨n, left, some x⟩, some cur, dstReverse⟩ :
              CommonNeighborIterUndirected).dstCurNeighbour = some cur := rfl
          have hstep := ih hmoved modeReverseEdge
          simpa [checkLoop, seek, advance, EdgeIterator.hasNext, EdgeIterator.next, hxt, hxc] using
            hstep

/-- **The search for `t`** ends and finds the neighbours of `dst`. -/
theorem checkCommon_spec (hg : (g.neighbours dst).Nodup) (h : it.Searching g dst) (t : ℕ) :
    ∃ dstIter cur mode,
      { it with dstIter := dstIter, dstCurNeighbour := cur, dstIterReverseEdge := mode }.Searching
        g dst ∧
      ∃ k, ∀ fuel, k ≤ fuel → checkCommon g dst fuel it t =
        some (decide (t ∈ g.neighbours dst),
          { it with dstIter := dstIter, dstCurNeighbour := cur, dstIterReverseEdge := mode }) := by
  obtain ⟨cur, hcur, haround⟩ := h
  by_cases ht : t = cur
  · subst ht
    refine ⟨it.dstIter, it.dstCurNeighbour, it.dstIterReverseEdge, ⟨t, hcur, haround⟩, 0,
      fun fuel _ => ?_⟩
    rw [checkCommon, if_pos hcur.symm, decide_eq_true haround.mem]
  · obtain ⟨⟨dstIter, mode⟩, haround', hback, k, hk⟩ := haround.seek hg ht
    refine ⟨dstIter, some (if t ∈ g.neighbours dst then t else cur),
      if t ∈ g.neighbours dst then mode else it.dstIterReverseEdge, ⟨_, rfl, ?_⟩, k,
      fun fuel hfuel => ?_⟩
    · by_cases hmem : t ∈ g.neighbours dst
      · simpa [hmem] using haround'
      · obtain ⟨rfl, rfl⟩ := Prod.mk.inj (hback hmem)
        simpa [hmem] using haround'
    · rw [checkCommon, if_neg (by rw [hcur]; simpa using ht), checkLoop_eq hcur, hk fuel hfuel]
      simp

/-! ### The enumeration -/

/-- **A loop over the edges of `src`** ends at the next neighbour of `dst`, or at the end. -/
theorem scan_spec (hg : (g.neighbours dst).Nodup) (h : it.Searching g dst) :
    ∃ r it', it'.Searching g dst ∧ it'.srcIterReverseEdge = it.srcIterReverseEdge ∧
      it.srcIter.left.filter (· ∈ g.neighbours dst) =
        r.toList ++ it'.srcIter.left.filter (· ∈ g.neighbours dst) ∧
      (r = none → it'.srcIter.left = []) ∧
      ∃ k, ∀ fuel, k ≤ fuel → scan g dst fuel it = some (r, it') := by
  obtain ⟨⟨n, left, lastNode⟩, reverse, dstIter, dstCur, dstReverse⟩ := it
  induction left generalizing lastNode dstIter dstCur dstReverse with
  | nil => exact ⟨none, _, h, rfl, rfl, fun _ => rfl, enough_succ ⟨0, fun _ _ => rfl⟩⟩
  | cons t left ih =>
    have hmoved : Searching g dst ⟨⟨n, left, some t⟩, reverse, dstIter, dstCur, dstReverse⟩ := h
    obtain ⟨dstIter', dstCur', dstReverse', hsearching, k, hk⟩ := checkCommon_spec hg hmoved t
    by_cases ht : t ∈ g.neighbours dst
    · refine ⟨some t, _, hsearching, rfl, ?_, fun hr => absurd hr (Option.some_ne_none t), ?_⟩
      · simp [ht]
      · refine enough_succ ⟨k, fun fuel hfuel => ?_⟩
        simp [scan, EdgeIterator.hasNext, EdgeIterator.next, hk fuel hfuel, ht]
    · obtain ⟨r, it', hsearching', hreverse, hfilter, hend, k', hk'⟩ := ih _ _ _ _ hsearching
      refine ⟨r, it', hsearching', hreverse, ?_, hend, ?_⟩
      · rw [← hfilter]
        simp [ht]
      · refine enough_succ ⟨max k k', fun fuel hfuel => ?_⟩
        simpa [scan, EdgeIterator.hasNext, EdgeIterator.next, hk fuel (le_of_max_le_left hfuel),
          ht] using hk' fuel (le_of_max_le_right hfuel)

variable (g src dst) in
/-- **The common neighbours that are left**, in the order in which they are enumerated. -/
def remaining (it : CommonNeighborIterUndirected) : List ℕ :=
  it.srcIter.left.filter (· ∈ g.neighbours dst) ++
    if it.srcIterReverseEdge then [] else (g.inNodes src).filter (· ∈ g.neighbours dst)

variable (src) in
/-- **The next common neighbour.** -/
theorem getNext_spec (hg : (g.neighbours dst).Nodup) (h : it.Searching g dst) :
    ∃ it', it'.Searching g dst ∧ it'.remaining g src dst = (it.remaining g src dst).tail ∧
      ∃ k, ∀ fuel, k ≤ fuel →
        getNext g src dst fuel it = some ((it.remaining g src dst).head?, it') := by
  obtain ⟨r, it', hsearching, hreverse', hfilter, hend, k, hk⟩ := scan_spec hg h
  have hleft : it.remaining g src dst = r.toList ++ it'.remaining g src dst := by
    rw [remaining, remaining, hreverse', hfilter, List.append_assoc]
  cases hreverse : it.srcIterReverseEdge with
  | true =>
    have hdone : r = none → it'.remaining g src dst = [] := by
      intro hr
      rw [remaining, hreverse', hreverse, hend hr]
      rfl
    obtain ⟨hhead, htail⟩ := head?_eq_and_tail_eq hleft hdone
    refine ⟨it', hsearching, htail.symm, k, fun fuel hfuel => ?_⟩
    rw [getNext, hreverse, hk fuel hfuel, hhead]
    rfl
  | false =>
    cases r with
    | some t =>
      obtain ⟨hhead, htail⟩ := head?_eq_and_tail_eq hleft fun hr => by cases hr
      refine ⟨it', hsearching, htail.symm, k, fun fuel hfuel => ?_⟩
      rw [getNext, hreverse, hk fuel hfuel, hhead]
      rfl
    | none =>
      -- the outgoing edges are done, and the incoming ones are scanned in the same call
      have hmoved : Searching g dst
          { it' with srcIter := .inBegin g src, srcIterReverseEdge := true } := hsearching
      obtain ⟨r, it'', hsearching', hreverse'', hfilter', hend', k', hk'⟩ := scan_spec hg hmoved
      have hleft' : it.remaining g src dst = r.toList ++ it''.remaining g src dst := by
        rw [hleft, remaining, remaining, hreverse', hreverse, hreverse'', hend rfl]
        simpa [EdgeIterator.inBegin] using hfilter'
      have hdone : r = none → it''.remaining g src dst = [] := by
        intro hr
        rw [remaining, hreverse'', hend' hr]
        rfl
      obtain ⟨hhead, htail⟩ := head?_eq_and_tail_eq hleft' hdone
      refine ⟨it'', hsearching', htail.symm, max k k', fun fuel hfuel => ?_⟩
      rw [getNext, hreverse, hk fuel (le_of_max_le_left hfuel), hhead]
      exact hk' fuel (le_of_max_le_right hfuel)

/-! ### The histories -/

variable (g src dst) in
/-- The common neighbours that are left are `l`. -/
def Left (it : CommonNeighborIterUndirected) (l : List ℕ) : Prop :=
  it.remaining g src dst = l ∧ it.Searching g dst

variable (g dst) in
/-- A call of `check_common`. -/
def Checked (it it' : CommonNeighborIterUndirected) : Prop :=
  ∃ t b, ∃ k, ∀ fuel, k ≤ fuel → checkCommon g dst fuel it t = some (b, it')

/-- **A call of `get_next`** gives the head of what is left. -/
theorem Left.getNext (hg : (g.neighbours dst).Nodup) {l : List ℕ} (h : it.Left g src dst l) :
    ∃ it', it'.Left g src dst l.tail ∧
      ∃ k, ∀ fuel, k ≤ fuel → getNext g src dst fuel it = some (l.head?, it') := by
  obtain ⟨rfl, hsearching⟩ := h
  obtain ⟨it', hsearching', htail, hfuel⟩ := getNext_spec src hg hsearching
  exact ⟨it', ⟨htail, hsearching'⟩, hfuel⟩

/-- **A call of `check_common`** changes nothing about it. -/
theorem Left.checked (hg : (g.neighbours dst).Nodup) {l : List ℕ}
    {it' : CommonNeighborIterUndirected} (h : it.Left g src dst l)
    (hchecked : it.Checked g dst it') : it'.Left g src dst l := by
  obtain ⟨t, b, hreturned⟩ := hchecked
  obtain ⟨dstIter, cur, reverse, hsearching', hanswer⟩ := checkCommon_spec hg h.2 t
  obtain ⟨-, rfl⟩ := Prod.mk.inj (eq_of_enough hreturned hanswer)
  exact ⟨h.1, hsearching'⟩

/-- What is left at the start: the common neighbours. -/
theorem remaining_begin : (begin g src dst).remaining g src dst =
    (g.neighbours src).filter (· ∈ g.neighbours dst) := by
  have hsrc : (begin g src dst).srcIter = .outBegin g src ∧
      (begin g src dst).srcIterReverseEdge = false := by
    unfold begin
    split_ifs <;> exact ⟨rfl, rfl⟩
  rw [remaining, hsrc.1, hsrc.2, if_neg Bool.false_ne_true, ← List.filter_append]
  rfl

end CommonNeighborIterUndirected

end Llama

end GfeDriver
