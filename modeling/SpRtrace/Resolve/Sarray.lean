/-
SpRtrace.Resolve.Sarray — insertion and bisection in a sorted list.

The comparison need not be an order. Bisection finds the item at a place
exactly if it compares equal there and every comparison on the way to the
place points towards it (`bisect_iff`). The way depends on the place and
on the length of the list only (`bisectPath`).

`SortedArray` shows that the array of the source does the same, as long
as its places are in the range of an `int`.
-/
import Mathlib

namespace SpRtrace.Resolve

variable {α : Type*} {compare : α → α → Int} {data : List α} {item x : α}

/-! ## Insertion and bisection -/

/-- Insertion: behind the last item that is not greater. -/
def insertSorted (compare : α → α → Int) (data : List α) (item : α) : List α :=
  let greater := data.reverse.takeWhile fun x => compare item x < 0
  (data.reverse.dropWhile fun x => compare item x < 0).reverse ++ item :: greater.reverse

/-- Bisection between `low` and `high - 1`. -/
def bisectFrom (compare : α → α → Int) (data : List α) (item : α) (low high : Nat) : Option α :=
  if low < high then
    let half := (high - 1 + low) / 2
    match data[half]? with
    | none => none
    | some x =>
        if compare item x = 0 then some x
        else if compare item x < 0 then bisectFrom compare data item low half
        else bisectFrom compare data item (half + 1) high
  else none
termination_by high - low

def bisect (compare : α → α → Int) (data : List α) (item : α) : Option α :=
  bisectFrom compare data item 0 data.length

@[simp] theorem bisect_nil (compare : α → α → Int) (item : α) :
    bisect compare [] item = none := by
  rw [bisect, bisectFrom, if_neg (by simp)]

theorem bisect_single (h : compare item x = 0) :
    bisect compare [x] item = some x := by
  rw [bisect, bisectFrom, if_pos (by simp)]
  simp [h]

theorem mem_insertSorted (h : x ∈ insertSorted compare data item) : x = item ∨ x ∈ data := by
  unfold insertSorted at h
  rcases List.mem_append.mp h with h | h
  · rw [List.mem_reverse] at h
    exact Or.inr (List.mem_reverse.mp ((List.dropWhile_sublist _).subset h))
  · rcases List.mem_cons.mp h with h | h
    · exact Or.inl h
    · rw [List.mem_reverse] at h
      exact Or.inr (List.mem_reverse.mp ((List.takeWhile_sublist _).subset h))

theorem bisectFrom_mem {low high : Nat} (h : bisectFrom compare data item low high = some x) :
    x ∈ data := by
  revert h
  fun_induction bisectFrom compare data item low high with
  | case1 => exact fun h => absurd h (by simp)
  | case2 low high hlt half y hy heq =>
    intro h
    rw [← Option.some.inj h]
    exact List.mem_of_getElem? hy
  | case3 low high hlt half y hy hne hneg ih => exact ih
  | case4 low high hlt half y hy hne hpos ih => exact ih
  | case5 => exact fun h => absurd h (by simp)

/-! ## The way to a place -/

/-- The places that bisection between `low` and `high - 1` looks at on its
way to place `i`, without `i` itself. -/
def bisectPath (low high i : Nat) : List Nat :=
  if low < high then
    let half := (high - 1 + low) / 2
    if i = half then []
    else if i < half then half :: bisectPath low half i
    else half :: bisectPath (half + 1) high i
  else []
termination_by high - low

section Step

variable {low high i : Nat} (hlt : low < high)

include hlt

theorem bisectPath_half : bisectPath low high ((high - 1 + low) / 2) = [] := by
  rw [bisectPath, if_pos hlt]
  exact if_pos rfl

theorem bisectPath_below (hi : i < (high - 1 + low) / 2) :
    bisectPath low high i
      = (high - 1 + low) / 2 :: bisectPath low ((high - 1 + low) / 2) i := by
  rw [bisectPath, if_pos hlt]
  exact (if_neg (Nat.ne_of_lt hi)).trans (if_pos hi)

theorem bisectPath_above (hi : (high - 1 + low) / 2 < i) :
    bisectPath low high i
      = (high - 1 + low) / 2 :: bisectPath ((high - 1 + low) / 2 + 1) high i := by
  rw [bisectPath, if_pos hlt]
  exact (if_neg (Nat.ne_of_gt hi)).trans (if_neg (Nat.lt_asymm hi))

theorem half_mem_bisectPath (hi : i ≠ (high - 1 + low) / 2) :
    (high - 1 + low) / 2 ∈ bisectPath low high i := by
  rcases Nat.lt_or_gt_of_ne hi with hi | hi
  · rw [bisectPath_below hlt hi]
    exact List.mem_cons_self
  · rw [bisectPath_above hlt hi]
    exact List.mem_cons_self

end Step

theorem mem_bisectPath {low high i j : Nat} (h : j ∈ bisectPath low high i) :
    j ≠ i ∧ low ≤ j ∧ j < high := by
  revert h
  fun_induction bisectPath low high i with
  | case1 => simp
  | case2 low high hlt half hne hbelow ih =>
    intro h
    rcases List.mem_cons.mp h with rfl | h
    · exact ⟨Ne.symm hne, by omega, by omega⟩
    · obtain ⟨hj, hlow, hhigh⟩ := ih h
      exact ⟨hj, hlow, by omega⟩
  | case3 low high hlt half hne hbelow ih =>
    intro h
    rcases List.mem_cons.mp h with rfl | h
    · exact ⟨Ne.symm hne, by omega, by omega⟩
    · obtain ⟨hj, hlow, hhigh⟩ := ih h
      exact ⟨hj, by omega, hhigh⟩
  | case4 => simp

/-- Of two places side by side one is on the way to the other. -/
theorem bisectPath_adjacent {low high i : Nat} (hlow : low ≤ i) (hhigh : i + 1 < high) :
    i + 1 ∈ bisectPath low high i ↔ i ∉ bisectPath low high (i + 1) := by
  revert hlow hhigh
  fun_induction bisectPath low high i with
  | case1 low high hlt half hi =>
    intro hlow hhigh
    have hnext : half < i + 1 := by omega
    rw [bisectPath_above hlt hnext, hi]
    simp [half]
  | case2 low high hlt half hne hbelow ih =>
    intro hlow hhigh
    rw [List.mem_cons]
    by_cases hnext : i + 1 = half
    · rw [hnext, bisectPath_half hlt]
      simp
    · have hbelow' : i + 1 < half := by omega
      rw [bisectPath_below hlt hbelow', List.mem_cons, ih hlow hbelow', not_or]
      exact ⟨fun h => ⟨hne, h.resolve_left hnext⟩, fun h => .inr h.2⟩
  | case3 low high hlt half hne hbelow ih =>
    intro hlow hhigh
    have habove : half < i + 1 := by omega
    have hnext : i + 1 ≠ half := by omega
    rw [bisectPath_above hlt habove, List.mem_cons, List.mem_cons, ih (by omega) hhigh, not_or]
    exact ⟨fun h => ⟨hne, h.resolve_left hnext⟩, fun h => .inr h.2⟩
  | case4 low high hge => omega

/-- The comparison with the item at place `j` points to place `i`. -/
def PointsTo (compare : α → α → Int) (data : List α) (item : α) (i j : Nat) : Prop :=
  ∀ y, data[j]? = some y → (i < j → compare item y < 0) ∧ (j < i → 0 < compare item y)

/-- Every comparison on the way to place `i` points there. -/
def Steers (compare : α → α → Int) (data : List α) (item : α) (i : Nat) : Prop :=
  ∀ j ∈ bisectPath 0 data.length i, PointsTo compare data item i j

theorem bisectFrom_iff {low high : Nat} (hhigh : high ≤ data.length) :
    bisectFrom compare data item low high = some x ↔
      ∃ i, low ≤ i ∧ i < high ∧ data[i]? = some x ∧ compare item x = 0 ∧
        ∀ j ∈ bisectPath low high i, PointsTo compare data item i j := by
  fun_induction bisectFrom compare data item low high with
  | case1 low high hlt half hnone =>
    rw [List.getElem?_eq_none_iff] at hnone
    omega
  | case2 low high hlt half y hy heq =>
    constructor
    · intro h
      obtain rfl := Option.some.inj h
      refine ⟨half, by omega, by omega, hy, heq, fun j hj => ?_⟩
      rw [bisectPath_half hlt] at hj
      exact absurd hj List.not_mem_nil
    · intro h
      obtain ⟨i, hlow, hhigh, hx, hzero, hsteer⟩ := h
      by_cases hi : i = half
      · rw [hi] at hx
        exact hy.symm.trans hx
      · -- the way to another place passes here, where the comparison does not point on
        have := hsteer half (half_mem_bisectPath hlt hi) y hy
        omega
  | case3 low high hlt half y hy hne hneg ih =>
    rw [ih (by omega)]
    constructor
    · intro h
      obtain ⟨i, hlow, hhalf, hx, hzero, hsteer⟩ := h
      refine ⟨i, hlow, by omega, hx, hzero, fun j hj => ?_⟩
      rw [bisectPath_below hlt hhalf] at hj
      rcases List.mem_cons.mp hj with rfl | hj
      · intro z hz
        obtain rfl := Option.some.inj (hy.symm.trans hz)
        exact ⟨fun _ => hneg, fun h => by omega⟩
      · exact hsteer j hj
    · intro h
      obtain ⟨i, hlow, hhigh, hx, hzero, hsteer⟩ := h
      have hne : i ≠ half := by
        intro hi
        rw [hi, hy, Option.some.injEq] at hx
        rw [hx] at hneg
        omega
      have hbelow : i < half := by
        by_contra hge
        have := (hsteer half (half_mem_bisectPath hlt hne) y hy).2 (by omega)
        omega
      refine ⟨i, hlow, hbelow, hx, hzero, fun j hj => hsteer j ?_⟩
      rw [bisectPath_below hlt hbelow]
      exact List.mem_cons_of_mem _ hj
  | case4 low high hlt half y hy hne hpos ih =>
    rw [ih hhigh]
    constructor
    · intro h
      obtain ⟨i, hhalf, hhigh, hx, hzero, hsteer⟩ := h
      refine ⟨i, by omega, hhigh, hx, hzero, fun j hj => ?_⟩
      rw [bisectPath_above hlt (by omega)] at hj
      rcases List.mem_cons.mp hj with rfl | hj
      · intro z hz
        obtain rfl := Option.some.inj (hy.symm.trans hz)
        exact ⟨fun h => by omega, fun _ => by omega⟩
      · exact hsteer j hj
    · intro h
      obtain ⟨i, hlow, hhigh, hx, hzero, hsteer⟩ := h
      have hne' : i ≠ half := by
        intro hi
        rw [hi, hy, Option.some.injEq] at hx
        rw [hx] at hne
        exact hne hzero
      have habove : half < i := by
        by_contra hge
        exact hpos ((hsteer half (half_mem_bisectPath hlt hne') y hy).1 (by omega))
      refine ⟨i, by omega, hhigh, hx, hzero, fun j hj => hsteer j ?_⟩
      rw [bisectPath_above hlt habove]
      exact List.mem_cons_of_mem _ hj
  | case5 low high hge =>
    constructor
    · exact fun h => absurd h (by simp)
    · intro h
      obtain ⟨i, hlow, hhigh, -⟩ := h
      omega

/-- **What bisection finds**: an item that compares equal, at a place all
comparisons on the way point to. -/
theorem bisect_iff :
    bisect compare data item = some x ↔
      ∃ i, data[i]? = some x ∧ compare item x = 0 ∧ Steers compare data item i := by
  rw [bisect, bisectFrom_iff le_rfl]
  constructor
  · intro h
    obtain ⟨i, -, -, hx, hzero, hsteer⟩ := h
    exact ⟨i, hx, hzero, hsteer⟩
  · intro h
    obtain ⟨i, hx, hzero, hsteer⟩ := h
    exact ⟨i, Nat.zero_le i, (List.getElem?_eq_some_iff.mp hx).1, hx, hzero, hsteer⟩

/-- Bisection comes to one place that compares equal at most. -/
theorem Steers.unique {i j : Nat} {y : α} (hi : Steers compare data item i)
    (hj : Steers compare data item j) (hx : data[i]? = some x) (hy : data[j]? = some y)
    (hxzero : compare item x = 0) (hyzero : compare item y = 0) : x = y := by
  have hfindx : bisect compare data item = some x := bisect_iff.mpr ⟨i, hx, hxzero, hi⟩
  have hfindy : bisect compare data item = some y := bisect_iff.mpr ⟨j, hy, hyzero, hj⟩
  exact Option.some.inj (hfindx.symm.trans hfindy)

/-! ## Insertion -/

/-- Where an item goes: behind the last one that is not greater. -/
def frontOf (compare : α → α → Int) (item : α) (data : List α) : List α :=
  (data.reverse.dropWhile fun x => compare item x < 0).reverse

def backOf (compare : α → α → Int) (item : α) (data : List α) : List α :=
  (data.reverse.takeWhile fun x => compare item x < 0).reverse

theorem insertSorted_split (compare : α → α → Int) (data : List α) (item : α) :
    insertSorted compare data item = frontOf compare item data ++ item :: backOf compare item data :=
  rfl

theorem frontOf_append_backOf (compare : α → α → Int) (item : α) (data : List α) :
    frontOf compare item data ++ backOf compare item data = data := by
  rw [frontOf, backOf, ← List.reverse_append, List.takeWhile_append_dropWhile,
    List.reverse_reverse]

theorem frontOf_snoc_pos {x : α} (h : compare item x < 0) (data : List α) :
    frontOf compare item (data ++ [x]) = frontOf compare item data ∧
      backOf compare item (data ++ [x]) = backOf compare item data ++ [x] := by
  simp [frontOf, backOf, h]

theorem frontOf_snoc_neg {x : α} (h : ¬ compare item x < 0) (data : List α) :
    frontOf compare item (data ++ [x]) = data ++ [x] ∧ backOf compare item (data ++ [x]) = [] := by
  simp [frontOf, backOf, h]

/-- The last item in front is not greater. -/
theorem frontOf_last (hne : frontOf compare item data ≠ []) :
    ∃ init last, frontOf compare item data = init ++ [last] ∧ ¬ compare item last < 0 := by
  rcases List.eq_nil_or_concat (frontOf compare item data) with hnil | ⟨init, last, hfront⟩
  · exact absurd hnil hne
  · rw [List.concat_eq_append] at hfront
    refine ⟨init, last, hfront, ?_⟩
    have hdrop : data.reverse.dropWhile (fun x => decide (compare item x < 0))
        = last :: init.reverse := by
      rw [← List.reverse_reverse (data.reverse.dropWhile _)]
      exact (congrArg List.reverse hfront).trans (by simp)
    have := List.head_dropWhile_not (fun x => decide (compare item x < 0)) (l := data.reverse)
      (by rw [hdrop]; simp)
    simpa [hdrop] using this

theorem backOf_less {y : α} (h : y ∈ backOf compare item data) : compare item y < 0 := by
  rw [backOf, List.mem_reverse] at h
  exact of_decide_eq_true (List.mem_takeWhile_imp (p := fun x => decide (compare item x < 0)) h)

theorem insertSorted_perm : (insertSorted compare data item).Perm (item :: data) := by
  rw [insertSorted_split]
  refine List.perm_middle.trans (List.Perm.cons item ?_)
  rw [frontOf_append_backOf]

/-- An item goes to its place if the comparison tells the items behind it
from the others. -/
theorem insertSorted_pairwise {R : α → α → Prop} (htrans : ∀ {x y z}, R x y → R y z → R x z)
    (hdata : data.Pairwise R) (hless : ∀ x ∈ data, compare item x < 0 → R item x)
    (hgreater : ∀ x ∈ data, ¬ compare item x < 0 → R x item) :
    (insertSorted compare data item).Pairwise R := by
  have hsplit := frontOf_append_backOf compare item data
  have hbackR : ∀ y ∈ backOf compare item data, R item y := by
    intro y hy
    have hmem : y ∈ data := by
      rw [← hsplit]
      exact List.mem_append_right _ hy
    exact hless y hmem (backOf_less hy)
  rw [← hsplit, List.pairwise_append] at hdata
  -- the last item in front is not greater, and the others are in front of it
  have hfrontR : ∀ y ∈ frontOf compare item data, R y item := by
    intro y hy
    obtain ⟨init, last, hfront, hlast⟩ := frontOf_last (List.ne_nil_of_mem hy)
    have hlastR : R last item := hgreater last (by rw [← hsplit, hfront]; simp) hlast
    rw [hfront, List.mem_append, List.mem_singleton] at hy
    rcases hy with hy | rfl
    · have hfrontSorted := hdata.1
      rw [hfront, List.pairwise_append] at hfrontSorted
      exact htrans (hfrontSorted.2.2 y hy last (List.mem_singleton_self last)) hlastR
    · exact hlastR
  rw [insertSorted_split, List.pairwise_append, List.pairwise_cons]
  refine ⟨hdata.1, ⟨hbackR, hdata.2.1⟩, fun y hy z hz => ?_⟩
  rcases List.mem_cons.mp hz with rfl | hz
  · exact hfrontR y hy
  · exact hdata.2.2 y hy z hz

end SpRtrace.Resolve
