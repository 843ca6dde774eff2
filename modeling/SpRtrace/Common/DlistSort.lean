/-
SpRtrace.Common.DlistSort — `dlist_sort` of `src/common/dlist.c`.

The source sorts by merging: a segment of three or more nodes is split in
the middle, both halves are sorted, and `merge_segments` splices the
second half into the first. The lists here are what the `next` links
give. A comparison that contradicts itself makes the source loop for ever
or leave the end of the list in the wrong place:

* neither inner loop of `merge_segments` moves when node1 is greater than
  node2 and node2 is not less than node1;
* the new head is found by a comparison of the two old heads, before the
  merge, and is wrong if the merge then ends in the other segment.

Both are `none`. With a comparison that orders the nodes neither happens
(`dlistSort_sorts`).
-/
import Mathlib
import SpRtrace.Common.Dlist
import SpRtrace.Lib.SideBySide

namespace SpRtrace.Common

open SpRtrace.Lib

variable {ν : Type}

/-! ## The source -/

/-- `merge_segments`; `inFirst` says which of the two inner loops runs.
Returns the merged segment and whether it ends in the first one. The
number bounds the number of turns. -/
def mergeSegments (compare : ν → ν → Int) : Nat → Bool → List ν → List ν → Option (List ν × Bool)
  | fuel + 1, inFirst, x :: xs, y :: ys =>
      if compare x y ≤ 0 ∧ (inFirst = true ∨ ¬ compare y x < 0) then
        if xs = [] then some (x :: y :: ys, false)
        else do
          let (list, inOne) ← mergeSegments compare fuel true xs (y :: ys)
          some (x :: list, inOne)
      else if compare y x < 0 then
        if ys = [] then some (y :: x :: xs, true)
        else do
          let (list, inOne) ← mergeSegments compare fuel false (x :: xs) ys
          some (y :: list, inOne)
      else none
  | _, _, _, _ => none

/-- `dlist_sort_segment`; the number bounds the depth of the recursion. -/
def dlistSortSegment (compare : ν → ν → Int) : Nat → List ν → Option (List ν)
  | _, [] => some []
  | _, [a] => some [a]
  | _, [a, b] => some (if compare a b > 0 then [b, a] else [a, b])
  | 0, _ => none
  | fuel + 1, segment => do
      let segment1 ← dlistSortSegment compare fuel (segment.take (segment.length / 2))
      let segment2 ← dlistSortSegment compare fuel (segment.drop (segment.length / 2))
      let head1 ← segment1.getLast?
      let head2 ← segment2.getLast?
      let (list, inOne) ← mergeSegments compare segment.length true segment1 segment2
      if inOne = decide (compare head1 head2 > 0) then some list else none

def dlistSort (compare : ν → ν → Int) (list : List ν) : Option (List ν) :=
  dlistSortSegment compare list.length list

/-! ## A sort that ends keeps the nodes -/

theorem mergeSegments_perm {compare : ν → ν → Int} :
    ∀ (fuel : Nat) (inFirst : Bool) (seg1 seg2 : List ν) {list : List ν} {inOne : Bool},
      mergeSegments compare fuel inFirst seg1 seg2 = some (list, inOne) → list.Perm (seg1 ++ seg2)
  | 0, _, _, _, _, _, h => by simp [mergeSegments] at h
  | _ + 1, _, [], _, _, _, h => by simp [mergeSegments] at h
  | _ + 1, _, _ :: _, [], _, _, h => by simp [mergeSegments] at h
  | fuel + 1, inFirst, x :: xs, y :: ys, list, inOne, h => by
      rw [mergeSegments] at h
      split at h
      · split at h
        · rename_i hnil
          obtain ⟨rfl, -⟩ := Prod.mk.inj (Option.some.inj h)
          simp [hnil]
        · simp only [Option.bind_eq_bind, Option.bind_eq_some_iff, Prod.exists, Option.some.injEq,
            Prod.mk.injEq] at h
          obtain ⟨list, inOne, heq, rfl, rfl⟩ := h
          exact (mergeSegments_perm fuel true xs (y :: ys) heq).cons x
      · split at h
        · split at h
          · rename_i hnil
            obtain ⟨rfl, -⟩ := Prod.mk.inj (Option.some.inj h)
            subst hnil
            exact (List.perm_append_singleton y (x :: xs)).symm
          · simp only [Option.bind_eq_bind, Option.bind_eq_some_iff, Prod.exists, Option.some.injEq,
              Prod.mk.injEq] at h
            obtain ⟨list, inOne, heq, rfl, rfl⟩ := h
            exact ((mergeSegments_perm fuel false (x :: xs) ys heq).cons y).trans
              List.perm_middle.symm
        · cases h

theorem dlistSortSegment_perm {compare : ν → ν → Int} :
    ∀ (fuel : Nat) (list : List ν) {list' : List ν},
      dlistSortSegment compare fuel list = some list' → list'.Perm list
  | _, [], _, h => by
      simp only [dlistSortSegment, Option.some.injEq] at h
      rw [h]
  | _, [a], _, h => by
      simp only [dlistSortSegment, Option.some.injEq] at h
      rw [h]
  | _, [a, b], list', h => by
      rw [dlistSortSegment.eq_3, Option.some.injEq] at h
      subst h
      split
      · exact List.Perm.swap ..
      · exact .refl _
  | 0, _ :: _ :: _ :: _, _, h => by simp [dlistSortSegment] at h
  | fuel + 1, a :: b :: c :: rest, list', h => by
      rw [dlistSortSegment.eq_5 _ _ _ (by simp) (by simp) (by simp)] at h
      simp only [Option.bind_eq_bind, Option.bind_eq_some_iff, Prod.exists] at h
      obtain ⟨seg1, heq1, seg2, heq2, head1, -, head2, -, merged, inOne, heq, hif⟩ := h
      split at hif
      · obtain rfl := Option.some.inj hif
        have hp1 := dlistSortSegment_perm fuel _ heq1
        have hp2 := dlistSortSegment_perm fuel _ heq2
        refine (mergeSegments_perm _ _ _ _ heq).trans ((hp1.append hp2).trans ?_)
        rw [List.take_append_drop]
      · cases hif

/-- No node is lost and none comes twice. -/
theorem dlistSort_perm {compare : ν → ν → Int} {list list' : List ν}
    (h : dlistSort compare list = some list') : list'.Perm list :=
  dlistSortSegment_perm _ _ h

/-! ## Sorting by something else -/

variable {μ : Type}

theorem mergeSegments_map (compare : ν → ν → Int) (g : μ → ν) :
    ∀ (fuel : Nat) (inFirst : Bool) (seg1 seg2 : List μ),
      mergeSegments compare fuel inFirst (seg1.map g) (seg2.map g)
        = (mergeSegments (fun a b => compare (g a) (g b)) fuel inFirst seg1 seg2).map
          (Prod.map (List.map g) id)
  | 0, _, _, _ => by simp [mergeSegments]
  | _ + 1, _, [], _ => by simp [mergeSegments]
  | _ + 1, _, _ :: _, [] => by simp [mergeSegments]
  | fuel + 1, inFirst, x :: xs, y :: ys => by
      have ih₁ := mergeSegments_map compare g fuel true xs (y :: ys)
      have ih₂ := mergeSegments_map compare g fuel false (x :: xs) ys
      simp only [List.map_cons] at ih₁ ih₂ ⊢
      rw [mergeSegments, mergeSegments]
      split
      · simp only [List.map_eq_nil_iff]
        split
        · rfl
        · rw [ih₁]
          cases mergeSegments (fun a b => compare (g a) (g b)) fuel true xs (y :: ys) <;> rfl
      split
      · simp only [List.map_eq_nil_iff]
        split
        · rfl
        · rw [ih₂]
          cases mergeSegments (fun a b => compare (g a) (g b)) fuel false (x :: xs) ys <;> rfl
      · rfl

theorem dlistSortSegment_map (compare : ν → ν → Int) (g : μ → ν) :
    ∀ (fuel : Nat) (list : List μ), dlistSortSegment compare fuel (list.map g)
      = (dlistSortSegment (fun a b => compare (g a) (g b)) fuel list).map (List.map g)
  | _, [] => by simp [dlistSortSegment]
  | _, [a] => by simp [dlistSortSegment]
  | fuel, [a, b] => by
      rw [List.map_cons, List.map_cons, List.map_nil, dlistSortSegment.eq_3, dlistSortSegment.eq_3]
      split <;> rfl
  | 0, a :: b :: c :: rest => by simp [dlistSortSegment]
  | fuel + 1, a :: b :: c :: rest => by
      set list := a :: b :: c :: rest with hlist
      have hlen : (list.map g).length = list.length := List.length_map _
      rw [dlistSortSegment.eq_5 _ _ _ (by simp [hlist]) (by simp [hlist]) (by simp [hlist]),
        dlistSortSegment.eq_5 _ _ _ (by simp [hlist]) (by simp [hlist]) (by simp [hlist]), hlen,
        ← List.map_take, ← List.map_drop, dlistSortSegment_map compare g fuel,
        dlistSortSegment_map compare g fuel]
      cases dlistSortSegment (fun a b => compare (g a) (g b)) fuel
          (list.take (list.length / 2)) with
      | none => rfl
      | some seg1 =>
        cases dlistSortSegment (fun a b => compare (g a) (g b)) fuel
            (list.drop (list.length / 2)) with
        | none => rfl
        | some seg2 =>
          simp only [Option.map_some, Option.bind_eq_bind, Option.bind_some, List.getLast?_map,
            mergeSegments_map]
          cases seg1.getLast? with
          | none => rfl
          | some head1 =>
            cases seg2.getLast? with
            | none => rfl
            | some head2 =>
              simp only [Option.map_some, Option.bind_some]
              cases mergeSegments (fun a b => compare (g a) (g b)) list.length true seg1 seg2 with
              | none => rfl
              | some r =>
                simp only [Option.map_some, Option.bind_some, Prod.map, id_eq]
                split <;> rfl

/-- To sort by what the nodes hold is to sort what they hold. -/
theorem dlistSort_map (compare : ν → ν → Int) (g : μ → ν) (list : List μ) :
    dlistSort compare (list.map g)
      = (dlistSort (fun a b => compare (g a) (g b)) list).map (List.map g) := by
  rw [dlistSort, List.length_map, dlistSortSegment_map]
  rfl

/-- Lists whose nodes hold the same are sorted alike. -/
theorem dlistSort_forall₂ {compare : ν → ν → Int} {compare' : μ → μ → Int} {R : ν → μ → Prop}
    (hcompare : ∀ a b a' b', R a a' → R b b' → compare a b = compare' a' b')
    {list sorted : List ν} {list' : List μ} (h : List.Forall₂ R list list')
    (hsort : dlistSort compare list = some sorted) :
    ∃ sorted', dlistSort compare' list' = some sorted' ∧ List.Forall₂ R sorted sorted' := by
  obtain ⟨pairs, hfst, hsnd⟩ := forall₂_exists_pairs h
  rw [← hfst, dlistSort_map, Option.map_eq_some_iff] at hsort
  obtain ⟨result, hresult, rfl⟩ := hsort
  have hsame : (fun a b : { p : ν × μ // R p.1 p.2 } => compare a.val.1 b.val.1)
      = fun a b => compare' a.val.2 b.val.2 := by
    funext a b
    exact hcompare _ _ _ _ a.property b.property
  refine ⟨result.map fun p => p.val.2, ?_, ?_⟩
  · rw [← hsnd, dlistSort_map, ← hsame, hresult]
    rfl
  · rw [List.forall₂_map_left_iff, List.forall₂_map_right_iff, List.forall₂_same]
    exact fun p _ => p.property

/-! ## Orders -/

variable {κ : Type} [LinearOrder κ]

/-- On the nodes of the list the comparison orders by the key `f`. -/
def OrdersBy (compare : ν → ν → Int) (f : ν → κ) (list : List ν) : Prop :=
  ∀ a ∈ list, ∀ b ∈ list, (compare a b ≤ 0 ↔ f a ≤ f b) ∧ (compare a b < 0 ↔ f a < f b)

theorem OrdersBy.mono {compare : ν → ν → Int} {f : ν → κ} {list list' : List ν}
    (h : OrdersBy compare f list) (hsub : ∀ a ∈ list', a ∈ list) : OrdersBy compare f list' :=
  fun a ha b hb => h a (hsub a ha) b (hsub b hb)

/-- The list is in the order of the key `f`. -/
def SortedBy (f : ν → κ) (list : List ν) : Prop := list.Pairwise fun a b => f a ≤ f b

variable {compare : ν → ν → Int} {f : ν → κ}

theorem SortedBy.le_getLast {list : List ν} (h : SortedBy f list) {a last : ν}
    (ha : a ∈ list) (hlast : list.getLast? = some last) : f a ≤ f last := by
  obtain ⟨pre, rfl⟩ := List.getLast?_eq_some_iff.mp hlast
  rcases List.mem_append.mp ha with ha | ha
  · exact (List.pairwise_append.mp h).2.2 a ha last (by simp)
  · rw [List.mem_singleton.mp ha]

/-- A node in front of a sorted permutation of nodes not below it. -/
theorem SortedBy.cons_perm {list list' : List ν} {a : ν} (h : SortedBy f list)
    (hp : list.Perm list') (ha : ∀ b ∈ list', f a ≤ f b) : SortedBy f (a :: list) :=
  List.pairwise_cons.mpr ⟨fun b hb => ha b (hp.mem_iff.mp hb), h⟩

/-- The merge of two sorted segments is sorted, and it ends in the segment
with the greater head. -/
theorem mergeSegments_sorts :
    ∀ (fuel : Nat) (inFirst : Bool) (seg1 seg2 : List ν) {head1 head2 : ν},
      OrdersBy compare f (seg1 ++ seg2) → SortedBy f seg1 → SortedBy f seg2 →
      seg1.getLast? = some head1 → seg2.getLast? = some head2 →
      seg1.length + seg2.length ≤ fuel →
      ∃ list, mergeSegments compare fuel inFirst seg1 seg2
          = some (list, decide (f head2 < f head1)) ∧
        list.Perm (seg1 ++ seg2) ∧ SortedBy f list
  | 0, _, [], _, _, _, _, _, _, h1, _, _ => by cases h1
  | 0, _, _ :: _, _, _, _, _, _, _, _, _, hfuel => by simp at hfuel
  | _ + 1, _, [], _, _, _, _, _, _, h1, _, _ => by cases h1
  | _ + 1, _, _ :: _, [], _, _, _, _, _, _, h2, _ => by cases h2
  | fuel + 1, inFirst, x :: xs, y :: ys, head1, head2, hord, hs1, hs2, h1, h2, hfuel => by
      have hxy := hord x (by simp) y (by simp)
      have hyx := hord y (by simp) x (by simp)
      have hx1 : ∀ b ∈ xs, f x ≤ f b := (List.pairwise_cons.mp hs1).1
      have hy2 : ∀ b ∈ ys, f y ≤ f b := (List.pairwise_cons.mp hs2).1
      rw [mergeSegments]
      simp only [List.length_cons] at hfuel
      by_cases hle : f x ≤ f y
      · -- node1 is taken, in either loop
        have hnot : ¬ compare y x < 0 := fun hlt => absurd (hyx.2.mp hlt) (not_lt.mpr hle)
        have hall : ∀ b ∈ xs ++ y :: ys, f x ≤ f b := by
          intro b hb
          rcases List.mem_append.mp hb with hb | hb
          · exact hx1 b hb
          · rcases List.mem_cons.mp hb with rfl | hb
            · exact hle
            · exact hle.trans (hy2 b hb)
        rw [if_pos ⟨hxy.1.mpr hle, .inr hnot⟩]
        cases xs with
        | nil =>
          rw [List.getLast?_singleton, Option.some.injEq] at h1
          subst h1
          have hend : ¬ f head2 < f x := not_lt.mpr (hle.trans (hs2.le_getLast (by simp) h2))
          exact ⟨x :: y :: ys, by simp [hend], List.Perm.refl _,
            hs2.cons_perm (List.Perm.refl _) hall⟩
        | cons x' xs =>
          obtain ⟨list, heq, hp, hs⟩ := mergeSegments_sorts fuel true (x' :: xs) (y :: ys)
            (hord.mono (by simp +contextual)) (List.pairwise_cons.mp hs1).2 hs2
            (by simpa using h1) h2 (by simp at hfuel ⊢; omega)
          refine ⟨x :: list, ?_, hp.cons x, hs.cons_perm hp hall⟩
          rw [if_neg (by simp), heq]
          rfl
      · -- node2 is less
        have hlt : f y < f x := not_le.mp hle
        have hall : ∀ b ∈ x :: xs ++ ys, f y ≤ f b := by
          intro b hb
          rcases List.mem_append.mp hb with hb | hb
          · rcases List.mem_cons.mp hb with rfl | hb
            · exact hlt.le
            · exact hlt.le.trans (hx1 b hb)
          · exact hy2 b hb
        rw [if_neg fun hc => hle (hxy.1.mp hc.1), if_pos (hyx.2.mpr hlt)]
        have hperm : (y :: (x :: xs ++ ys)).Perm (x :: xs ++ y :: ys) := List.perm_middle.symm
        cases ys with
        | nil =>
          rw [List.getLast?_singleton, Option.some.injEq] at h2
          subst h2
          have hend : f y < f head1 := hlt.trans_le (hs1.le_getLast (by simp) h1)
          refine ⟨y :: x :: xs, by simp [hend], by simpa using hperm, ?_⟩
          exact hs1.cons_perm (List.Perm.refl _) (by simpa using hall)
        | cons y' ys =>
          obtain ⟨list, heq, hp, hs⟩ := mergeSegments_sorts fuel false (x :: xs) (y' :: ys)
            (hord.mono (by simp +contextual; tauto)) hs1 (List.pairwise_cons.mp hs2).2 h1
            (by simpa using h2) (by simp at hfuel ⊢; omega)
          refine ⟨y :: list, ?_, (hp.cons y).trans hperm, hs.cons_perm hp hall⟩
          rw [if_neg (by simp), heq]
          rfl

theorem dlistSortSegment_sorts :
    ∀ (fuel : Nat) (list : List ν), list.length ≤ fuel → OrdersBy compare f list →
      ∃ list', dlistSortSegment compare fuel list = some list' ∧ list'.Perm list ∧ SortedBy f list'
  | _, [], _, _ => ⟨[], by simp [dlistSortSegment], .refl _, .nil⟩
  | _, [a], _, _ => ⟨[a], by simp [dlistSortSegment], .refl _, List.pairwise_singleton _ _⟩
  | fuel, [a, b], _, hord => by
      have hab := (hord a (by simp) b (by simp)).1
      rw [dlistSortSegment.eq_3]
      split
      · rename_i hgt
        refine ⟨[b, a], rfl, List.Perm.swap .., ?_⟩
        have : f b ≤ f a := (not_le.mp fun h => absurd (hab.mpr h) (by omega)).le
        simpa [SortedBy] using this
      · rename_i hle
        exact ⟨[a, b], rfl, .refl _, by simpa [SortedBy] using hab.mp (by omega)⟩
  | 0, _ :: _ :: _ :: _, hfuel, _ => by simp at hfuel
  | fuel + 1, a :: b :: c :: rest, hfuel, hord => by
      set list := a :: b :: c :: rest with hlist
      have hlen : 3 ≤ list.length := by simp [hlist]
      obtain ⟨seg1, heq1, hp1, hs1⟩ := dlistSortSegment_sorts fuel (list.take (list.length / 2)) (by simp; omega)
        (hord.mono fun _ => List.mem_of_mem_take)
      obtain ⟨seg2, heq2, hp2, hs2⟩ := dlistSortSegment_sorts fuel (list.drop (list.length / 2)) (by simp; omega)
        (hord.mono fun _ => List.mem_of_mem_drop)
      have hlen1 : seg1.length = list.length / 2 := by
        rw [hp1.length_eq, List.length_take]; omega
      have hlen2 : seg2.length = list.length - list.length / 2 := by
        rw [hp2.length_eq, List.length_drop]
      have hperm : (seg1 ++ seg2).Perm list := by
        simpa using hp1.append hp2
      obtain ⟨head1, h1⟩ : ∃ h, seg1.getLast? = some h :=
        ⟨_, List.getLast?_eq_some_getLast (by intro e; rw [e] at hlen1; simp at hlen1; omega)⟩
      obtain ⟨head2, h2⟩ : ∃ h, seg2.getLast? = some h :=
        ⟨_, List.getLast?_eq_some_getLast (by intro e; rw [e] at hlen2; simp at hlen2; omega)⟩
      have hmem1 : head1 ∈ list := hperm.mem_iff.mp (by simp [List.mem_of_getLast? h1])
      have hmem2 : head2 ∈ list := hperm.mem_iff.mp (by simp [List.mem_of_getLast? h2])
      obtain ⟨list', heq, hp, hs⟩ := mergeSegments_sorts list.length true seg1 seg2
        (hord.mono fun x hx => hperm.mem_iff.mp hx) hs1 hs2 h1 h2 (by omega)
      have hhead : (compare head1 head2 > 0) ↔ f head2 < f head1 := by
        have := (hord head1 hmem1 head2 hmem2).1
        rw [← not_le, ← this]; omega
      refine ⟨list', ?_, hp.trans hperm, hs⟩
      rw [hlist, dlistSortSegment.eq_5 _ _ _ (by simp) (by simp) (by simp), ← hlist]
      simp [heq1, heq2, h1, h2, heq, hhead]

/-- **`dlist_sort` sorts**: with a comparison that orders the nodes it ends
with a sorted permutation of the list. -/
theorem dlistSort_sorts {list : List ν} (h : OrdersBy compare f list) :
    ∃ list', dlistSort compare list = some list' ∧ list'.Perm list ∧ SortedBy f list' :=
  dlistSortSegment_sorts _ _ (le_refl _) h

/-- **The result of a sort** is the one list of the nodes that is in strict
order. -/
theorem dlistSort_strict {list list' : List ν} (h : OrdersBy compare f list)
    (hperm : list.Perm list') (hstrict : list'.Pairwise fun a b => f a < f b) :
    dlistSort compare list = some list' := by
  obtain ⟨sorted, hsorted, hperm', hsort⟩ := dlistSort_sorts h
  have hinj : (list'.map f).Nodup := List.pairwise_map.mpr (hstrict.imp ne_of_lt)
  have heq : sorted = list' := by
    refine (hperm'.trans hperm).eq_of_pairwise (fun a b ha hb hab hba => ?_) hsort
      (hstrict.imp le_of_lt)
    exact List.inj_on_of_nodup_map hinj ((hperm'.trans hperm).mem_iff.mp ha) hb
      (le_antisymm hab hba)
  rw [hsorted, heq]

end SpRtrace.Common
