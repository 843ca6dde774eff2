/-
SpRtrace.Common.DlistSortLinks — the links under `dlist_sort` of
`src/common/dlist.c`.

The source sorts in place. A segment is a part of the list between two of
its nodes; while it is sorted its outer links are stale and nothing reads
them. `merge_segments` alternates between two inner loops: the first walks
the nodes of segment 1 that come next, the second those of segment 2, and
the change from one to the other splices the rows (`Splicing`). Loops and
recursion are bounded by a number of turns; twice the length of the list
is enough for all of them.
-/
import Mathlib
import SpRtrace.Common.DlistLinks
import SpRtrace.Common.DlistSort

namespace SpRtrace.Common.DlistLinks

open SpRtrace.Lib

variable {ν : Type} [DecidableEq ν]

/-! ## The source -/

structure SegmentT (ν : Type) where
  head : ν
  tail : ν

/-- The loops of `merge_segments`; `inFirst` says which of the two inner
loops runs. -/
def mergeLoop (compare : ν → ν → Int) (segment1 segment2 : SegmentT ν) :
    Nat → Bool → ν → ν → Links ν → Option (Links ν)
  | 0, _, _, _, _ => none
  | fuel + 1, true, node1, node2, m =>
      if compare node1 node2 ≤ 0 then
        if node1 = segment1.head then
          let m := m.setNext node1 (some node2)
          some (m.setPrev node2 (some node1))
        else do
          let node1 ← m.next node1
          mergeLoop compare segment1 segment2 fuel true node1 node2 m
      else do
        let m ← if node1 ≠ segment1.tail then do
            let prev ← m.prev node1
            some (m.setNext prev (some node2))
          else some m
        let m := m.setPrev node2 (m.prev node1)
        mergeLoop compare segment1 segment2 fuel false node1 node2 m
  | fuel + 1, false, node1, node2, m =>
      if compare node2 node1 < 0 then
        if node2 = segment2.head then
          let m := m.setPrev node1 (some node2)
          some (m.setNext node2 (some node1))
        else do
          let node2 ← m.next node2
          mergeLoop compare segment1 segment2 fuel false node1 node2 m
      else do
        let m := m.setPrev node1 (m.prev node2)
        let prev ← m.prev node1
        let m := m.setNext prev (some node1)
        mergeLoop compare segment1 segment2 fuel true node1 node2 m

def mergeSegments (compare : ν → ν → Int) (fuel : Nat) (m : Links ν)
    (segment1 segment2 : SegmentT ν) : Option (Links ν) :=
  let m := m.setNext segment1.head (some segment2.tail)
  let m := m.setPrev segment2.tail (some segment1.head)
  mergeLoop compare segment1 segment2 fuel true segment1.tail segment2.tail m

/-- The loop of `dlist_sort_segment` that finds the middle node. -/
def findMiddle (m : Links ν) (head : ν) : Nat → ν → ν → Option ν
  | 0, _, _ => none
  | fuel + 1, node1, node2 =>
      if node2 = head then some node1
      else do
        let node1 ← m.next node1
        let node2 ← m.next node2
        if node2 = head then some node1
        else do
          let node2 ← m.next node2
          findMiddle m head fuel node1 node2

def dlistSortSegment (compare : ν → ν → Int) :
    Nat → Links ν → SegmentT ν → Option (Links ν × SegmentT ν)
  | 0, _, _ => none
  | fuel + 1, m, segment =>
      if segment.tail = segment.head then some (m, segment)
      else if m.next segment.tail = some segment.head then
        if compare segment.tail segment.head > 0 then do
          let head := segment.tail
          let tail ← m.next head
          let m := m.setNext tail (some head)
          some (m.setPrev head (some tail), { head, tail })
        else some (m, segment)
      else do
        let node1 ← findMiddle m segment.head fuel segment.tail segment.tail
        let head1 ← m.prev node1
        let (m, segment1) ← dlistSortSegment compare fuel m { tail := segment.tail, head := head1 }
        let (m, segment2) ← dlistSortSegment compare fuel m { tail := node1, head := segment.head }
        let tail := if compare segment1.tail segment2.tail ≤ 0 then segment1.tail else segment2.tail
        let head := if compare segment1.head segment2.head > 0 then segment1.head else segment2.head
        let m ← mergeSegments compare fuel m segment1 segment2
        some (m, { head, tail })

def dlistSort (compare : ν → ν → Int) (fuel : Nat) (s : DlistState ν) : Option (DlistState ν) :=
  if s.list.head = s.list.tail then some s
  else do
    let head ← s.list.head
    let tail ← s.list.tail
    let (m, segment) ← dlistSortSegment compare fuel s.links { head, tail }
    let m := m.setNext segment.head none
    let m := m.setPrev segment.tail none
    some ⟨m, { head := some segment.head, tail := some segment.tail }⟩

/-! ## Merging -/

section Merge

variable {compare : ν → ν → Int} {segment1 segment2 : SegmentT ν} {m m' : Links ν}
  {done xs ys nodes : List ν} {x y : ν}

/-- The ends of the segments: both heads are still to come, and the tail of
segment 1 is its current node or done. -/
structure MergeEnds (segment1 segment2 : SegmentT ν) (nodes done : List ν) (x : ν) (xs : List ν)
    (y : ν) (ys : List ν) : Prop where
  head1 : (x :: xs).getLast? = some segment1.head
  head2 : (y :: ys).getLast? = some segment2.head
  tail1 : segment1.tail = x ∨ segment1.tail ∈ done
  inside : ∀ a, a ∈ done ∨ a ∈ x :: xs ∨ a ∈ y :: ys → a ∈ nodes

/-- What the loops leave: the merged row behind what was done. -/
def MergesTo (compare : ν → ν → Int) (m m' : Links ν) (nodes done xs ys : List ν) : Prop :=
  Linked m' (done ++ xs.merge ys (notGreater compare)) ∧ SameOutside nodes m m'

/-- Turns that are enough from here; `goesOn` says that the loop does not
change over at once. -/
def turns (goesOn : Prop) [Decidable goesOn] (xs ys : List ν) : Nat :=
  2 * (xs.length + ys.length) + if goesOn then 1 else 2

omit [DecidableEq ν] in
theorem turns_pos (goesOn : Prop) [Decidable goesOn] (xs ys : List ν) : turns goesOn xs ys ≠ 0 := by
  unfold turns
  split <;> omega

omit [DecidableEq ν] in
theorem turns_le (goesOn : Prop) [Decidable goesOn] (xs ys : List ν) :
    turns goesOn xs ys ≤ 2 * (xs.length + ys.length) + 2 := by
  unfold turns
  split <;> omega

omit [DecidableEq ν] in
theorem MergeEnds.advance1 {x' : ν} (h : MergeEnds segment1 segment2 nodes done x (x' :: xs) y ys) :
    MergeEnds segment1 segment2 nodes (done ++ [x]) x' xs y ys where
  head1 := List.getLast?_cons_cons ▸ h.head1
  head2 := h.head2
  tail1 := by
    rcases h.tail1 with htail | htail <;> simp [htail]
  inside a ha := h.inside a (by simpa [or_assoc] using ha)

omit [DecidableEq ν] in
theorem MergeEnds.advance2 {y' : ν} (h : MergeEnds segment1 segment2 nodes done x xs y (y' :: ys)) :
    MergeEnds segment1 segment2 nodes (done ++ [y]) x xs y' ys where
  head1 := h.head1
  head2 := List.getLast?_cons_cons ▸ h.head2
  tail1 := by
    rcases h.tail1 with htail | htail <;> simp [htail]
  inside a ha := by
    refine h.inside a ?_
    simp only [List.mem_append, List.mem_cons, List.not_mem_nil, or_false] at ha ⊢
    tauto

omit [DecidableEq ν] in
/-- A current node with others behind it is not the head of its segment. -/
theorem ne_head {done row other : List ν} {a b head : ν}
    (h : Splicing m done (a :: b :: row) other) (hhead : (a :: b :: row).getLast? = some head) :
    a ≠ head := by
  intro heq
  rw [List.getLast?_cons_cons] at hhead
  have hnd := (List.nodup_append.mp (List.nodup_append.mp h.nodup).1).2.1
  exact (List.nodup_cons.mp hnd).1 (heq ▸ List.mem_of_getLast? hhead)

mutual

/-- The first inner loop: the nodes of segment 1 go on. -/
theorem mergeLoop_first (hcompare : TotalPreorder compare) :
    ∀ (fuel : Nat) {m : Links ν} {done xs ys : List ν} {x y : ν},
      Splicing m done (x :: xs) (y :: ys) → MergeEnds segment1 segment2 nodes done x xs y ys →
      (done = [] ∨ segment1.tail ∈ done ∨ compare x y ≤ 0) →
      turns (compare x y ≤ 0) xs ys ≤ fuel →
      ∃ m', mergeLoop compare segment1 segment2 fuel true x y m = some m' ∧
        MergesTo compare m m' nodes done (x :: xs) (y :: ys)
  | 0, _, _, xs, ys, _, _, _, _, _, hfuel => absurd (Nat.le_zero.mp hfuel) (turns_pos _ xs ys)
  | fuel + 1, m, done, xs, ys, x, y, h, hends, hplace, hfuel => by
      by_cases hle : compare x y ≤ 0
      · rw [turns, if_pos hle] at hfuel
        unfold MergesTo
        rw [mergeLoop, if_pos hle, List.cons_merge_cons_pos _ _ _ (decide_eq_true hle)]
        cases xs with
        | nil =>
          have hhead : x = segment1.head := Option.some.inj hends.head1
          rw [if_pos hhead, List.nil_merge]
          refine ⟨_, rfl, h.finish, ?_⟩
          exact ((SameOutside.refl nodes m).setNext (hends.inside x (by simp)) _).setPrev
            (hends.inside y (by simp)) _
        | cons x' xs =>
          have hnext : m.next x = some x' := h.linked.next_eq rfl
          have hdone : segment1.tail ∈ done ++ [x] := by
            rcases hends.tail1 with htail | htail <;> simp [htail]
          have hfuel' : turns (compare x' y ≤ 0) xs ys ≤ fuel := by
            have := turns_le (compare x' y ≤ 0) xs ys
            rw [List.length_cons] at hfuel
            omega
          obtain ⟨m', hloop, hlinked, hsame⟩ :=
            mergeLoop_first hcompare fuel h.advance hends.advance1 (.inr (.inl hdone)) hfuel'
          refine ⟨m', ?_, by simpa using hlinked, hsame⟩
          rw [if_neg (ne_head h hends.head1), hnext]
          exact hloop
      · -- segment 2 has the smaller node: change over
        have hlt : compare y x < 0 := (hcompare.le_or_lt x y).resolve_left hle
        have hfuel' : turns (compare y x < 0) xs ys ≤ fuel := by
          rw [turns, if_neg hle] at hfuel
          rw [turns, if_pos hlt]
          omega
        rw [mergeLoop, if_neg hle]
        cases hp : done.getLast? with
        | none =>
          obtain rfl : done = [] := List.getLast?_eq_none_iff.mp hp
          have htail : x = segment1.tail := by simpa [eq_comm] using hends.tail1
          obtain ⟨m', hloop, hlinked, hsame⟩ :=
            mergeLoop_second hcompare fuel (h.change_nil (m.prev x)) hends (fun _ => hlt) hfuel'
          refine ⟨m', ?_, hlinked, SameOutside.trans ?_ hsame⟩
          · rw [if_neg (not_not.mpr htail)]
            exact hloop
          · exact (SameOutside.refl nodes m).setPrev (hends.inside y (by simp)) _
        | some p =>
          have hpmem : p ∈ done := List.mem_of_getLast? hp
          have hdone : segment1.tail ∈ done := by
            rcases hplace with rfl | hdone | hle'
            · cases hp
            · exact hdone
            · exact absurd hle' hle
          have hne : x ≠ segment1.tail := by
            rintro rfl
            have hnd := (List.nodup_append.mp h.nodup).1
            exact (List.nodup_append.mp hnd).2.2 _ hdone _ (by simp) rfl
          have hprev : m.prev x = some p := h.linked.prev_eq hp
          obtain ⟨m', hloop, hlinked, hsame⟩ :=
            mergeLoop_second hcompare fuel (h.change hp) hends (fun _ => hlt) hfuel'
          refine ⟨m', ?_, hlinked, SameOutside.trans ?_ hsame⟩
          · rw [if_pos hne, hprev]
            simp only [Option.bind_eq_bind, Option.bind_some, Links.setNext_prev, hprev]
            exact hloop
          · exact ((SameOutside.refl nodes m).setNext (hends.inside p (.inl hpmem)) _).setPrev
              (hends.inside y (by simp)) _

/-- The second inner loop: the nodes of segment 2 go on. -/
theorem mergeLoop_second (hcompare : TotalPreorder compare) :
    ∀ (fuel : Nat) {m : Links ν} {done xs ys : List ν} {x y : ν},
      Splicing m done (y :: ys) (x :: xs) → MergeEnds segment1 segment2 nodes done x xs y ys →
      (done = [] → compare y x < 0) → turns (compare y x < 0) xs ys ≤ fuel →
      ∃ m', mergeLoop compare segment1 segment2 fuel false x y m = some m' ∧
        MergesTo compare m m' nodes done (x :: xs) (y :: ys)
  | 0, _, _, xs, ys, _, _, _, _, _, hfuel => absurd (Nat.le_zero.mp hfuel) (turns_pos _ xs ys)
  | fuel + 1, m, done, xs, ys, x, y, h, hends, hplace, hfuel => by
      by_cases hlt : compare y x < 0
      · have hle : ¬ compare x y ≤ 0 := by
          have := (hcompare.swap y x).mp hlt
          omega
        rw [turns, if_pos hlt] at hfuel
        unfold MergesTo
        rw [mergeLoop, if_pos hlt,
          List.cons_merge_cons_neg _ _ _ (by simpa [notGreater] using hle)]
        cases ys with
        | nil =>
          have hhead : y = segment2.head := Option.some.inj hends.head2
          rw [if_pos hhead, List.merge_right]
          refine ⟨_, rfl, h.finish, ?_⟩
          exact ((SameOutside.refl nodes m).setNext (hends.inside y (by simp)) _).setPrev
            (hends.inside x (by simp)) _
        | cons y' ys =>
          have hnext : m.next y = some y' := h.linked.next_eq rfl
          have hfuel' : turns (compare y' x < 0) xs ys ≤ fuel := by
            have := turns_le (compare y' x < 0) xs ys
            rw [List.length_cons] at hfuel
            omega
          obtain ⟨m', hloop, hlinked, hsame⟩ :=
            mergeLoop_second hcompare fuel h.advance hends.advance2 (by simp) hfuel'
          refine ⟨m', ?_, by simpa using hlinked, hsame⟩
          rw [if_neg (ne_head h hends.head2), hnext]
          exact hloop
      · -- the node of segment 1 is not greater any more: change back
        have hle : compare x y ≤ 0 := (hcompare.le_or_lt x y).resolve_right hlt
        have hfuel' : turns (compare x y ≤ 0) xs ys ≤ fuel := by
          rw [turns, if_neg hlt] at hfuel
          rw [turns, if_pos hle]
          omega
        obtain ⟨p, hp⟩ : ∃ p, done.getLast? = some p := by
          cases hp : done.getLast? with
          | none => exact absurd (hplace (List.getLast?_eq_none_iff.mp hp)) hlt
          | some p => exact ⟨p, rfl⟩
        have hprev : m.prev y = some p := h.linked.prev_eq hp
        obtain ⟨m', hloop, hlinked, hsame⟩ :=
          mergeLoop_first hcompare fuel (h.change hp) hends (.inr (.inr hle)) hfuel'
        refine ⟨m', ?_, hlinked, SameOutside.trans ?_ hsame⟩
        · rw [mergeLoop, if_neg hlt]
          simp only [hprev, Links.setPrev_prev, if_true, Option.bind_eq_bind, Option.bind_some]
          exact hloop
        · exact ((SameOutside.refl nodes m).setNext
            (hends.inside p (.inl (List.mem_of_getLast? hp))) _).setPrev (hends.inside x (by simp)) _

end

end Merge

/-! ## Segments -/

/-- The nodes of a segment, from its tail to its head; nothing is said
about its outer links. -/
structure IsSegment (m : Links ν) (segment : SegmentT ν) (nodes : List ν) : Prop where
  nodup : nodes.Nodup
  linked : Linked m nodes
  tail : nodes.head? = some segment.tail
  head : nodes.getLast? = some segment.head

section Segments

variable {compare : ν → ν → Int} {m m' : Links ν} {segment segment1 segment2 : SegmentT ν}
  {nodes xs ys : List ν}

omit [DecidableEq ν] in
theorem IsSegment.outside {others : List ν} (h : IsSegment m segment nodes)
    (hsame : SameOutside others m m') (hapart : nodes.Disjoint others) :
    IsSegment m' segment nodes :=
  { h with linked := hsame.linked h.linked hapart }

/-- `merge_segments` merges. -/
theorem mergeSegments_holds (hcompare : TotalPreorder compare) {fuel : Nat}
    (h1 : IsSegment m segment1 xs) (h2 : IsSegment m segment2 ys) (hapart : xs.Disjoint ys)
    (hfuel : 2 * (xs.length + ys.length) ≤ fuel + 2) :
    ∃ m', mergeSegments compare fuel m segment1 segment2 = some m' ∧
      Linked m' (xs.merge ys (notGreater compare)) ∧ SameOutside (xs ++ ys) m m' := by
  obtain ⟨xs, rfl⟩ := List.head?_eq_some_iff.mp h1.tail
  obtain ⟨ys, rfl⟩ := List.head?_eq_some_iff.mp h2.tail
  have hhead1 := List.mem_of_getLast? h1.head
  have hnd : ([] ++ segment1.tail :: xs ++ segment2.tail :: ys).Nodup :=
    List.nodup_append.mpr ⟨h1.nodup, h2.nodup, fun a ha b hb e => hapart ha (e ▸ hb)⟩
  -- the two segments are put one behind the other first
  have hsplicing : Splicing
      ((m.setNext segment1.head (some segment2.tail)).setPrev segment2.tail (some segment1.head))
      [] (segment1.tail :: xs) (segment2.tail :: ys) := by
    refine ⟨hnd, ?_, ?_⟩
    · refine (h1.linked.setNext (fun hmem => ?_) _).setPrev (fun hmem => ?_) _
      · exact ne_getLast_of_mem_dropLast h1.nodup hmem h1.head
      · exact hapart (List.mem_of_mem_tail hmem) (by simp)
    · refine (h2.linked.setNext (fun hmem => ?_) _).setPrev (List.nodup_cons.mp h2.nodup).1 _
      exact hapart hhead1 (List.mem_of_mem_dropLast hmem)
  have hends : MergeEnds segment1 segment2 (segment1.tail :: xs ++ segment2.tail :: ys) []
      segment1.tail xs segment2.tail ys :=
    ⟨h1.head, h2.head, .inl rfl, fun a ha => by simpa [or_assoc] using ha⟩
  have hturns : turns (compare segment1.tail segment2.tail ≤ 0) xs ys ≤ fuel := by
    have := turns_le (compare segment1.tail segment2.tail ≤ 0) xs ys
    simp only [List.length_cons] at hfuel
    omega
  obtain ⟨m', hloop, hlinked, hsame⟩ :=
    mergeLoop_first hcompare fuel hsplicing hends (.inl rfl) hturns
  refine ⟨m', hloop, hlinked, SameOutside.trans ?_ hsame⟩
  exact ((SameOutside.refl _ m).setNext (List.mem_append_left _ hhead1) _).setPrev (by simp) _

omit [DecidableEq ν] in
/-- A node is the head exactly at the last position. -/
theorem eq_head_iff {head a : ν} {i : Nat} (hnd : nodes.Nodup) (hhead : nodes.getLast? = some head)
    (ha : nodes[i]? = some a) : a = head ↔ i + 1 = nodes.length := by
  have hi : i < nodes.length := (List.getElem?_eq_some_iff.mp ha).1
  rw [List.getLast?_eq_getElem?] at hhead
  constructor
  · rintro rfl
    have := (List.getElem?_inj hi hnd).mp (ha.trans hhead.symm)
    omega
  · intro hlast
    have heq : nodes.length - 1 = i := by omega
    rw [heq, ha] at hhead
    exact Option.some.inj hhead

/-- One pointer goes twice as fast as the other. -/
theorem findMiddle_spec {head : ν} (hlinked : Linked m nodes) (hnd : nodes.Nodup)
    (hhead : nodes.getLast? = some head) : ∀ {fuel i : Nat} {node1 node2 : ν},
    nodes[i]? = some node1 → nodes[2 * i]? = some node2 → nodes.length ≤ 2 * i + fuel →
    findMiddle m head fuel node1 node2 = nodes[nodes.length / 2]?
  | 0, i, _, _, _, h2, hfuel => by
      have := (List.getElem?_eq_some_iff.mp h2).1
      omega
  | fuel + 1, i, node1, node2, h1, h2, hfuel => by
      have hi := (List.getElem?_eq_some_iff.mp h2).1
      rw [findMiddle]
      by_cases hend : 2 * i + 1 = nodes.length
      · have hmid : nodes.length / 2 = i := by omega
        rw [if_pos ((eq_head_iff hnd hhead h2).mpr hend), hmid, h1]
      · rw [if_neg (mt (eq_head_iff hnd hhead h2).mp hend)]
        have hone := List.getElem?_eq_getElem (l := nodes) (i := i + 1) (by omega)
        have htwo := List.getElem?_eq_getElem (l := nodes) (i := 2 * i + 1) (by omega)
        rw [(hlinked.getElem? h1 hone).1, (hlinked.getElem? h2 htwo).1]
        simp only [Option.bind_eq_bind, Option.bind_some]
        by_cases hend' : 2 * i + 2 = nodes.length
        · have hmid : nodes.length / 2 = i + 1 := by omega
          rw [if_pos ((eq_head_iff hnd hhead htwo).mpr hend'), hmid, hone]
        · have hthree := List.getElem?_eq_getElem (l := nodes) (i := 2 * (i + 1)) (by omega)
          rw [if_neg (mt (eq_head_iff hnd hhead htwo).mp hend'), (hlinked.getElem? htwo hthree).1]
          exact findMiddle_spec hlinked hnd hhead hone hthree (by omega)

omit [DecidableEq ν] in
/-- On the lists of the nodes `merge_segments` is the merge. -/
theorem mergeSegments_eq_merge (hcompare : TotalPreorder compare) :
    ∀ (fuel : Nat) (inFirst : Bool) {xs ys : List ν} {head1 head2 : ν},
      xs.Pairwise (fun a b => compare a b ≤ 0) → ys.Pairwise (fun a b => compare a b ≤ 0) →
      xs.getLast? = some head1 → ys.getLast? = some head2 → xs.length + ys.length ≤ fuel →
      Common.mergeSegments compare fuel inFirst xs ys
        = some (xs.merge ys (notGreater compare), decide (compare head1 head2 > 0))
  | _, _, [], _, _, _, _, _, h1, _, _ => by cases h1
  | _, _, _ :: _, [], _, _, _, _, _, h2, _ => by cases h2
  | 0, _, _ :: _, _ :: _, _, _, _, _, _, _, hfuel => by simp at hfuel
  | fuel + 1, inFirst, x :: xs, y :: ys, head1, head2, hxs, hys, h1, h2, hfuel => by
      simp only [List.length_cons] at hfuel
      rw [Common.mergeSegments]
      by_cases hle : compare x y ≤ 0
      · have hnot : ¬ compare y x < 0 := by
          have := hcompare.swap y x
          omega
        rw [if_pos ⟨hle, .inr hnot⟩, List.cons_merge_cons_pos _ _ _ (decide_eq_true hle)]
        cases xs with
        | nil =>
          obtain rfl : x = head1 := Option.some.inj h1
          have hlast : compare x head2 ≤ 0 :=
            hcompare.trans _ _ _ hle (le_getLast hcompare hys (by simp) h2)
          rw [if_pos rfl, List.nil_merge, decide_eq_false (by omega)]
        | cons x' xs =>
          rw [List.getLast?_cons_cons] at h1
          rw [if_neg (by simp), mergeSegments_eq_merge hcompare fuel true
            (List.pairwise_cons.mp hxs).2 hys h1 h2 (by simp at hfuel ⊢; omega)]
          rfl
      · have hlt : compare y x < 0 := (hcompare.le_or_lt x y).resolve_left hle
        rw [if_neg fun h => hle h.1, if_pos hlt,
          List.cons_merge_cons_neg _ _ _ (by simpa [notGreater] using hle)]
        cases ys with
        | nil =>
          obtain rfl : y = head2 := Option.some.inj h2
          have hlast := hcompare.lt_of_lt_of_le hlt (le_getLast hcompare hxs (by simp) h1)
          rw [if_pos rfl, List.merge_right, decide_eq_true ((hcompare.swap y head1).mp hlast)]
        | cons y' ys =>
          rw [List.getLast?_cons_cons] at h2
          rw [if_neg (by simp), mergeSegments_eq_merge hcompare fuel false hxs
            (List.pairwise_cons.mp hys).2 h1 h2 (by simp at hfuel ⊢; omega)]
          rfl

/-- What sorting a segment leaves: the segment of the nodes that the sort of
the list of the nodes gives, in a stable order; no other link is touched. -/
def SortsTo (compare : ν → ν → Int) (m m' : Links ν) (segment' : SegmentT ν)
    (nodes nodes' : List ν) : Prop :=
  IsSegment m' segment' nodes' ∧ StablySorted compare nodes nodes' ∧ SameOutside nodes m m' ∧
    ∀ fuel, nodes.length ≤ fuel → Common.dlistSortSegment compare fuel nodes = some nodes'

/-- The two cases of two nodes. -/
theorem sortTwo_holds (hcompare : TotalPreorder compare) {fuel : Nat} {a b : ν}
    (h : IsSegment m segment [a, b]) :
    ∃ m' segment' nodes', dlistSortSegment compare (fuel + 1) m segment = some (m', segment') ∧
      SortsTo compare m m' segment' [a, b] nodes' := by
  have htail : a = segment.tail := Option.some.inj h.tail
  have hhead : b = segment.head := Option.some.inj h.head
  have hne : a ≠ b := fun e => by simpa [e] using h.nodup
  have hlinked : Linked m ([] ++ a :: [b]) := h.linked
  have hnext : m.next a = some b := hlinked.next_eq rfl
  have hsorted := StablySorted.merge hcompare (stablySorted_singleton a) (stablySorted_singleton b)
  rw [dlistSortSegment, ← htail, ← hhead, if_neg hne, if_pos hnext]
  by_cases hgt : compare a b > 0
  · rw [List.cons_merge_cons_neg _ _ _ (by simpa [notGreater] using hgt), List.merge_right] at hsorted
    refine ⟨_, _, [b, a], by rw [if_pos hgt]; simp only [hnext]; rfl,
      ⟨?_, ?_, rfl, rfl⟩, hsorted, ?_, fun fuel _ => ?_⟩
    · simpa using hne.symm
    · refine linked_cons.mpr ⟨fun c hc => ?_, linked_singleton _ a⟩
      obtain rfl : a = c := Option.some.inj hc
      simp [Follows]
    · exact ((SameOutside.refl _ m).setNext (by simp) _).setPrev (by simp) _
    · rw [Common.dlistSortSegment.eq_3, if_pos hgt]
  · rw [List.cons_merge_cons_pos _ _ _ (decide_eq_true (by omega)), List.nil_merge] at hsorted
    refine ⟨m, segment, [a, b], by rw [if_neg hgt], h, hsorted, .refl _ m, fun fuel _ => ?_⟩
    rw [Common.dlistSortSegment.eq_3, if_neg hgt]

omit [DecidableEq ν] in
/-- Three or more nodes are neither of the primitive cases. -/
theorem IsSegment.three (h : IsSegment m segment nodes) (hlen : 3 ≤ nodes.length) :
    segment.tail ≠ segment.head ∧ m.next segment.tail ≠ some segment.head := by
  have hfirst : nodes[0]? = some segment.tail := List.head?_eq_getElem? ▸ h.tail
  have hsecond := List.getElem?_eq_getElem (l := nodes) (i := 1) (by omega)
  constructor
  · rw [Ne, eq_head_iff h.nodup h.head hfirst]
    omega
  · rw [(h.linked.getElem? hfirst hsecond).1]
    intro heq
    have := (eq_head_iff h.nodup h.head hsecond).mp (Option.some.inj heq)
    omega

/-- The middle node starts the second half. -/
theorem IsSegment.halves (h : IsSegment m segment nodes) (hlen : 2 ≤ nodes.length) {fuel : Nat}
    (hfuel : nodes.length ≤ fuel) :
    ∃ node1 head1, findMiddle m segment.head fuel segment.tail segment.tail = some node1 ∧
      m.prev node1 = some head1 ∧
      IsSegment m { tail := segment.tail, head := head1 } (nodes.take (nodes.length / 2)) ∧
      IsSegment m { tail := node1, head := segment.head } (nodes.drop (nodes.length / 2)) := by
  set k := nodes.length / 2 with hk
  have hfirst : nodes[0]? = some segment.tail := List.head?_eq_getElem? ▸ h.tail
  have hmid := List.getElem?_eq_getElem (l := nodes) (i := k) (by omega)
  have hbefore := List.getElem?_eq_getElem (l := nodes) (i := k - 1) (by omega)
  have hk1 : k - 1 + 1 = k := by omega
  have hfind := findMiddle_spec h.linked h.nodup h.head (i := 0) hfirst hfirst (by omega : _ ≤ _ + fuel)
  have hlinked : Linked m (nodes.take k ++ nodes.drop k) := by
    rw [List.take_append_drop]
    exact h.linked
  have hnd : (nodes.take k ++ nodes.drop k).Nodup := by
    rw [List.take_append_drop]
    exact h.nodup
  refine ⟨nodes[k], nodes[k - 1], hfind.trans hmid, ?_, ⟨?_, hlinked.left, ?_, ?_⟩,
    ⟨?_, hlinked.right, ?_, ?_⟩⟩
  · have hmid' : nodes[k - 1 + 1]? = some nodes[k] := hk1.symm ▸ hmid
    exact (h.linked.getElem? hbefore hmid').2
  · exact (List.nodup_append.mp hnd).1
  · rw [List.head?_take, if_neg (by omega), h.tail]
  · rw [List.getLast?_take, if_neg (by omega), hbefore]
    rfl
  · exact (List.nodup_append.mp hnd).2.1
  · rw [List.head?_drop, hmid]
  · rw [List.getLast?_drop, if_neg (by omega), h.head]

omit [DecidableEq ν] in
/-- The new tail is the lesser of the two tails. -/
theorem head_merge (hxs : IsSegment m segment1 xs) (hys : IsSegment m segment2 ys) :
    (xs.merge ys (notGreater compare)).head? = some
      (if compare segment1.tail segment2.tail ≤ 0 then segment1.tail else segment2.tail) := by
  obtain ⟨xs, rfl⟩ := List.head?_eq_some_iff.mp hxs.tail
  obtain ⟨ys, rfl⟩ := List.head?_eq_some_iff.mp hys.tail
  by_cases hle : compare segment1.tail segment2.tail ≤ 0
  · rw [if_pos hle, List.cons_merge_cons_pos _ _ _ (decide_eq_true hle)]
    rfl
  · rw [if_neg hle, List.cons_merge_cons_neg _ _ _ (by simpa [notGreater] using hle)]
    rfl

/-- **Every segment** is sorted in place, and no other link is touched. -/
theorem dlistSortSegment_holds (hcompare : TotalPreorder compare) :
    ∀ (fuel : Nat) {m : Links ν} {segment : SegmentT ν} {nodes : List ν},
      IsSegment m segment nodes → 2 * nodes.length ≤ fuel →
      ∃ m' segment' nodes', dlistSortSegment compare fuel m segment = some (m', segment') ∧
        SortsTo compare m m' segment' nodes nodes'
  | _, _, _, [], h, _ => by cases h.tail
  | 0, _, _, _ :: _, _, hfuel => by simp at hfuel
  | fuel + 1, m, segment, [a], h, _ => by
      have heq : segment.tail = segment.head := Option.some.inj (h.tail.symm.trans h.head)
      refine ⟨m, segment, [a], ?_, h, stablySorted_singleton a, .refl _ m, fun fuel _ => ?_⟩
      · rw [dlistSortSegment, if_pos heq]
      · rw [Common.dlistSortSegment]
  | fuel + 1, m, segment, [a, b], h, _ => sortTwo_holds hcompare h
  | fuel + 1, m, segment, a :: b :: c :: rest, h, hfuel => by
      set nodes := a :: b :: c :: rest with hnodes
      have hlen : 3 ≤ nodes.length := by simp [hnodes]
      obtain ⟨hnot, hnext⟩ := h.three hlen
      obtain ⟨node1, head1, hfind, hprev, h1, h2⟩ :=
        h.halves (by omega) (show nodes.length ≤ fuel by omega)
      set k := nodes.length / 2 with hk
      have hparts : nodes.take k ++ nodes.drop k = nodes := List.take_append_drop k nodes
      have hapart : (nodes.take k).Disjoint (nodes.drop k) :=
        (List.disjoint_take_drop h.nodup le_rfl)
      -- sorting a half leaves the links of the other half alone
      obtain ⟨m₁, s₁, xs, hrun1, hxs, hsorted1, hsame1, hlist1⟩ :=
        dlistSortSegment_holds hcompare fuel h1 (by rw [List.length_take]; omega)
      obtain ⟨m₂, s₂, ys, hrun2, hys, hsorted2, hsame2, hlist2⟩ :=
        dlistSortSegment_holds hcompare fuel (h2.outside hsame1 hapart.symm)
          (by rw [List.length_drop]; omega)
      have hmem1 : ∀ x ∈ xs, x ∈ nodes.take k := fun x => hsorted1.perm.mem_iff.mp
      have hmem2 : ∀ x ∈ ys, x ∈ nodes.drop k := fun x => hsorted2.perm.mem_iff.mp
      have hxs' : IsSegment m₂ s₁ xs := hxs.outside hsame2 fun x hx => hapart (hmem1 x hx)
      have hapart' : xs.Disjoint ys := fun x hx hx' => hapart (hmem1 x hx) (hmem2 x hx')
      have hlength : xs.length + ys.length = nodes.length := by
        rw [hsorted1.perm.length_eq, hsorted2.perm.length_eq, ← List.length_append, hparts]
      obtain ⟨m₃, hmerge, hlinked3, hsame3⟩ :=
        mergeSegments_holds hcompare hxs' hys hapart' (show _ ≤ fuel + 2 by omega)
      have hsorted := StablySorted.merge hcompare hsorted1 hsorted2
      rw [hparts] at hsorted
      have hwithin : ∀ x ∈ xs ++ ys, x ∈ nodes := by
        intro x hx
        rcases List.mem_append.mp hx with hx | hx
        · exact List.mem_of_mem_take (hmem1 x hx)
        · exact List.mem_of_mem_drop (hmem2 x hx)
      let tail := if compare s₁.tail s₂.tail ≤ 0 then s₁.tail else s₂.tail
      let head := if compare s₁.head s₂.head > 0 then s₁.head else s₂.head
      have htail : (xs.merge ys (notGreater compare)).head? = some tail := head_merge hxs' hys
      have hhead : (xs.merge ys (notGreater compare)).getLast? = some head :=
        getLast_merge hcompare hsorted1.ascending hsorted2.ascending hxs.head hys.head
      refine ⟨m₃, { head, tail }, _, ?_, ⟨?_, hlinked3, htail, hhead⟩, hsorted, ?_,
        fun fuel' hfuel' => ?_⟩
      · rw [dlistSortSegment, if_neg hnot, if_neg hnext, hfind]
        simp only [Option.bind_eq_bind, Option.bind_some, hprev, hrun1, hrun2, hmerge]
        rfl
      · exact hsorted.perm.nodup_iff.mpr h.nodup
      · exact ((hsame1.mono fun x => List.mem_of_mem_take).trans
          (hsame2.mono fun x => List.mem_of_mem_drop)).trans (hsame3.mono hwithin)
      · obtain ⟨fuel', rfl⟩ := Nat.exists_eq_succ_of_ne_zero (show fuel' ≠ 0 by omega)
        have hmerged := mergeSegments_eq_merge hcompare nodes.length true hsorted1.ascending
          hsorted2.ascending hxs.head hys.head (by omega)
        rw [hnodes, Common.dlistSortSegment.eq_5 _ _ _ (by simp) (by simp) (by simp), ← hnodes, ← hk,
          hlist1 fuel' (by rw [List.length_take]; omega),
          hlist2 fuel' (by rw [List.length_drop]; omega)]
        simp only [Option.bind_eq_bind, Option.bind_some, hxs.head, hys.head, hmerged, if_true]

/-- A segment becomes a list when its outer links are set to null. -/
theorem IsSegment.close (h : IsSegment m segment nodes) :
    DlistState.Holds ⟨(m.setNext segment.head none).setPrev segment.tail none,
      { head := some segment.head, tail := some segment.tail }⟩ nodes where
  nodup := h.nodup
  linked := by
    refine (h.linked.setNext (fun hmem => ?_) _).setPrev (fun hmem => ?_) _
    · exact ne_getLast_of_mem_dropLast h.nodup hmem h.head
    · exact ne_head_of_mem_tail h.nodup hmem h.tail
  first_eq := h.tail.symm
  last_eq := h.head.symm
  noPrev a ha := by
    obtain rfl : segment.tail = a := Option.some.inj (h.tail.symm.trans ha)
    simp
  noNext a ha := by
    obtain rfl : segment.head = a := Option.some.inj (h.head.symm.trans ha)
    simp

end Segments

/-! ## The list -/

/-- The sort in memory is the sort of the list of the nodes. -/
theorem dlistSort_holds {compare : ν → ν → Int} (hcompare : TotalPreorder compare)
    {s : DlistState ν} {nodes : List ν} (h : s.Holds nodes) {fuel : Nat}
    (hfuel : 2 * nodes.length ≤ fuel) :
    ∃ s' nodes', dlistSort compare fuel s = some s' ∧ s'.Holds nodes' ∧
      StablySorted compare nodes nodes' ∧ Common.dlistSort compare nodes = some nodes' := by
  have htail : s.list.tail = nodes.head? := h.first_eq
  have hhead : s.list.head = nodes.getLast? := h.last_eq
  rcases nodes with _ | ⟨first, _ | ⟨second, rest⟩⟩
  · refine ⟨s, [], by rw [dlistSort, if_pos (hhead.trans htail.symm)], h, stablySorted_nil, ?_⟩
    rw [Common.dlistSort, Common.dlistSortSegment]
  · refine ⟨s, [first], by rw [dlistSort, if_pos (hhead.trans htail.symm)], h,
      stablySorted_singleton first, ?_⟩
    rw [Common.dlistSort, Common.dlistSortSegment]
  · obtain ⟨last, hlast⟩ : ∃ last, (second :: rest).getLast? = some last := ⟨_, List.getLast?_cons⟩
    rw [List.getLast?_cons_cons, hlast] at hhead
    have hne : first ≠ last := fun e =>
      (List.nodup_cons.mp h.nodup).1 (e ▸ List.mem_of_getLast? hlast)
    have hends : s.list.head ≠ s.list.tail := by
      rw [hhead, htail]
      exact fun e => hne (Option.some.inj e).symm
    have hseg : IsSegment s.links { head := last, tail := first } (first :: second :: rest) :=
      ⟨h.nodup, h.linked, rfl, by rw [List.getLast?_cons_cons, hlast]⟩
    obtain ⟨m, segment, nodes', hrun, hseg', hsorted, -, hlist⟩ :=
      dlistSortSegment_holds hcompare fuel hseg hfuel
    refine ⟨_, nodes', ?_, hseg'.close, hsorted, hlist _ le_rfl⟩
    rw [dlistSort, if_neg hends, hhead, htail]
    simp only [List.head?_cons, Option.bind_eq_bind, Option.bind_some, hrun]

/-- **`dlist_sort`** ends, and leaves a well-formed list of the same nodes in
ascending order, equal ones in the order they had. -/
theorem dlistSort_links {compare : ν → ν → Int} (hcompare : TotalPreorder compare)
    {s : DlistState ν} {nodes : List ν} (h : s.Holds nodes) {fuel : Nat}
    (hfuel : 2 * nodes.length ≤ fuel) :
    ∃ s' nodes', dlistSort compare fuel s = some s' ∧ s'.Holds nodes' ∧
      (∀ a ∈ nodes', ∀ b ∈ nodes', s'.links.next a = some b ↔ s'.links.prev b = some a) ∧
      StablySorted compare nodes nodes' := by
  obtain ⟨s', nodes', hrun, h', hsorted, -⟩ := dlistSort_holds hcompare h hfuel
  exact ⟨s', nodes', hrun, h', fun a ha b hb => h'.next_iff_prev ha hb, hsorted⟩

/-- Three pairs sorted by their first component. -/
theorem dlistSort_links_pairs :
    ∃ s' nodes', dlistSort (fun a b : Nat × Nat => (a.1 : Int) - b.1) 6
        (dlistAdd (dlistAdd (dlistAdd (.blank (Nat × Nat)) (2, 0)) (1, 0)) (2, 1)) = some s' ∧
      s'.Holds nodes' ∧
      (∀ a ∈ nodes', ∀ b ∈ nodes', s'.links.next a = some b ↔ s'.links.prev b = some a) ∧
      StablySorted (fun a b : Nat × Nat => (a.1 : Int) - b.1) [(2, 0), (1, 0), (2, 1)] nodes' := by
  have hcompare : TotalPreorder fun a b : Nat × Nat => (a.1 : Int) - b.1 :=
    ⟨fun a b => by omega, fun a b c => by omega⟩
  have hone : (dlistAdd (.blank (Nat × Nat)) (2, 0)).Holds [(2, 0)] :=
    dlistAdd_holds (DlistState.blank_holds _) (by simp)
  have hthree : (dlistAdd (dlistAdd (dlistAdd (.blank (Nat × Nat)) (2, 0)) (1, 0)) (2, 1)).Holds
      [(2, 0), (1, 0), (2, 1)] :=
    dlistAdd_holds (dlistAdd_holds hone (by simp)) (by simp)
  exact dlistSort_links hcompare hthree (by simp)

end SpRtrace.Common.DlistLinks
