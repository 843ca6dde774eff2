/-
SpRtrace.Lib.StableSort — stable sorting with a three-way comparison.

A comparison returns a number: negative, zero or positive. It is a total
preorder if it says the same from both sides and "not greater" is
transitive. A list is a stable sort of another one if it has the same
items in ascending order, and of every class of equal items the same list
(`StablySorted`). Appending an item and merging two sorted lists are the
two steps that keep this (`StablySorted.insert`, `StablySorted.merge`).
-/
import Mathlib

namespace SpRtrace.Lib

variable {α : Type*} {compare : α → α → Int}

/-- The comparison is a total preorder. -/
structure TotalPreorder (compare : α → α → Int) : Prop where
  swap : ∀ a b, compare a b < 0 ↔ 0 < compare b a
  trans : ∀ a b c, compare a b ≤ 0 → compare b c ≤ 0 → compare a c ≤ 0

namespace TotalPreorder

theorem self (h : TotalPreorder compare) (a : α) : compare a a = 0 := by
  have := h.swap a a
  omega

theorem le_or_lt (h : TotalPreorder compare) (a b : α) : compare a b ≤ 0 ∨ compare b a < 0 := by
  have := h.swap b a
  omega

theorem zero_comm (h : TotalPreorder compare) {a b : α} : compare a b = 0 ↔ compare b a = 0 := by
  have hab := h.swap a b
  have hba := h.swap b a
  omega

theorem zero_trans (h : TotalPreorder compare) {a b c : α} (hab : compare a b = 0)
    (hbc : compare b c = 0) : compare a c = 0 := by
  have hle := h.trans a b c hab.le hbc.le
  have hge := h.trans c b a (h.zero_comm.mp hbc).le (h.zero_comm.mp hab).le
  have := h.swap a c
  omega

theorem lt_of_lt_of_le (h : TotalPreorder compare) {a b c : α} (hab : compare a b < 0)
    (hbc : compare b c ≤ 0) : compare a c < 0 := by
  by_contra hge
  have hca : compare c a ≤ 0 := by
    have := h.swap a c
    have := h.swap c a
    omega
  have hba := h.trans b c a hbc hca
  have := (h.swap a b).mp hab
  omega

/-- Of two equal items both are less than a third one or none. -/
theorem lt_congr (h : TotalPreorder compare) {a b c : α} (hab : compare a b = 0) :
    compare a c < 0 ↔ compare b c < 0 := by
  constructor
  · intro hac
    by_contra hge
    have hcb : compare c b ≤ 0 := by
      have := h.swap b c
      have := h.swap c b
      omega
    have hba := h.lt_of_lt_of_le hac hcb
    omega
  · intro hbc
    by_contra hge
    have hca : compare c a ≤ 0 := by
      have := h.swap a c
      have := h.swap c a
      omega
    have hba := h.lt_of_lt_of_le hbc hca
    have := h.zero_comm.mp hab
    omega

end TotalPreorder

/-- The items of the class of `a`, in the order of the list. -/
def classOf (compare : α → α → Int) (a : α) (list : List α) : List α :=
  list.filter fun b => compare a b = 0

/-- `output` is `input` in ascending order, with equal items in the order
they had. -/
structure StablySorted (compare : α → α → Int) (input output : List α) : Prop where
  perm : output.Perm input
  ascending : output.Pairwise fun a b => compare a b ≤ 0
  stable : ∀ a, classOf compare a output = classOf compare a input

theorem classOf_append (a : α) (xs ys : List α) :
    classOf compare a (xs ++ ys) = classOf compare a xs ++ classOf compare a ys :=
  List.filter_append ..

theorem classOf_cons_pos {a b : α} (h : compare a b = 0) (list : List α) :
    classOf compare a (b :: list) = b :: classOf compare a list :=
  List.filter_cons_of_pos (decide_eq_true h)

theorem classOf_cons_neg {a b : α} (h : compare a b ≠ 0) (list : List α) :
    classOf compare a (b :: list) = classOf compare a list :=
  List.filter_cons_of_neg (by simpa using h)

theorem classOf_eq_nil {a : α} {list : List α} (h : ∀ b ∈ list, compare a b ≠ 0) :
    classOf compare a list = [] := by
  rw [classOf, List.filter_eq_nil_iff]
  intro b hb hzero
  exact h b hb (of_decide_eq_true hzero)

theorem stablySorted_nil : StablySorted compare ([] : List α) [] := ⟨.nil, .nil, fun _ => rfl⟩

theorem stablySorted_singleton (a : α) : StablySorted compare [a] [a] :=
  ⟨.refl _, List.pairwise_singleton .., fun _ => rfl⟩

/-- **A new item** goes behind the items that are not greater. -/
theorem StablySorted.insert (hcompare : TotalPreorder compare) {input front back : List α}
    (h : StablySorted compare input (front ++ back)) {item : α}
    (hfront : ∀ b ∈ front, compare b item ≤ 0) (hback : ∀ b ∈ back, compare item b < 0) :
    StablySorted compare (input ++ [item]) (front ++ item :: back) := by
  have hsorted := List.pairwise_append.mp h.ascending
  refine ⟨?_, ?_, fun a => ?_⟩
  · have hmiddle : (front ++ item :: back).Perm (item :: (front ++ back)) := List.perm_middle
    exact hmiddle.trans ((h.perm.cons item).trans (List.perm_append_singleton item input).symm)
  · refine List.pairwise_append.mpr ⟨hsorted.1, ?_, fun x hx y hy => ?_⟩
    · exact List.pairwise_cons.mpr ⟨fun b hb => (hback b hb).le, hsorted.2.1⟩
    · rcases List.mem_cons.mp hy with rfl | hy
      · exact hfront x hx
      · exact hsorted.2.2 x hx y hy
  · have hold := h.stable a
    rw [classOf_append] at hold
    rw [classOf_append, classOf_append, ← hold]
    by_cases ha : compare a item = 0
    · -- what is behind the item is greater than its class
      have hnone : classOf compare a back = [] := classOf_eq_nil fun b hb hzero => by
        have hlt : compare a b < 0 := (hcompare.lt_congr ha).mpr (hback b hb)
        omega
      rw [classOf_cons_pos ha, hnone, List.append_nil, classOf_cons_pos ha]
      rfl
    · rw [classOf_cons_neg ha, classOf_cons_neg ha]
      exact (List.append_nil _).symm

/-- "Not greater" as a test. -/
def notGreater (compare : α → α → Int) (a b : α) : Bool := compare a b ≤ 0

theorem classOf_merge (hcompare : TotalPreorder compare) (a : α) :
    ∀ {xs ys : List α}, xs.Pairwise (fun a b => compare a b ≤ 0) →
      classOf compare a (xs.merge ys (notGreater compare))
        = classOf compare a xs ++ classOf compare a ys
  | [], ys, _ => by simp [classOf]
  | x :: xs, [], _ => by simp [classOf]
  | x :: xs, y :: ys, hxs => by
      have hx := (List.pairwise_cons.mp hxs).1
      by_cases hle : compare x y ≤ 0
      · have ih : classOf compare a (xs.merge (y :: ys) (notGreater compare)) = _ :=
          classOf_merge hcompare a (List.pairwise_cons.mp hxs).2
        rw [List.cons_merge_cons_pos _ _ _ (decide_eq_true hle)]
        by_cases hax : compare a x = 0
        · rw [classOf_cons_pos hax, classOf_cons_pos hax, ih, List.cons_append]
        · rw [classOf_cons_neg hax, classOf_cons_neg hax, ih]
      · have ih : classOf compare a ((x :: xs).merge ys (notGreater compare)) = _ :=
          classOf_merge hcompare a hxs
        rw [List.cons_merge_cons_neg _ _ _ (by simpa [notGreater] using hle)]
        by_cases hay : compare a y = 0
        · -- the class of `y` has no item in the first list any more
          have hyx : compare y x < 0 := (hcompare.le_or_lt x y).resolve_left hle
          have hnone : classOf compare a (x :: xs) = [] := classOf_eq_nil fun b hb hzero => by
            have hxb : compare x b ≤ 0 := by
              rcases List.mem_cons.mp hb with rfl | hb
              · exact (hcompare.self b).le
              · exact hx b hb
            have hyb := hcompare.lt_of_lt_of_le hyx hxb
            have := hcompare.zero_trans (hcompare.zero_comm.mp hay) hzero
            omega
          rw [hnone] at ih ⊢
          rw [classOf_cons_pos hay, classOf_cons_pos hay, ih]
          rfl
        · rw [classOf_cons_neg hay, classOf_cons_neg hay, ih]

theorem le_getLast (hcompare : TotalPreorder compare) {list : List α}
    (h : list.Pairwise fun a b => compare a b ≤ 0) {a last : α} (ha : a ∈ list)
    (hlast : list.getLast? = some last) : compare a last ≤ 0 := by
  obtain ⟨front, rfl⟩ := List.getLast?_eq_some_iff.mp hlast
  rcases List.mem_append.mp ha with ha | ha
  · exact (List.pairwise_append.mp h).2.2 a ha last (by simp)
  · rw [List.mem_singleton.mp ha]
    exact (hcompare.self last).le

/-- The merge ends in the list whose last item is greater, and in the
second one if they are equal. -/
theorem getLast_merge (hcompare : TotalPreorder compare) :
    ∀ {xs ys : List α} {last₁ last₂ : α}, xs.Pairwise (fun a b => compare a b ≤ 0) →
      ys.Pairwise (fun a b => compare a b ≤ 0) → xs.getLast? = some last₁ →
      ys.getLast? = some last₂ →
      (xs.merge ys (notGreater compare)).getLast?
        = some (if compare last₁ last₂ > 0 then last₁ else last₂)
  | [], _, _, _, _, _, h₁, _ => by cases h₁
  | _ :: _, [], _, _, _, _, _, h₂ => by cases h₂
  | x :: xs, y :: ys, last₁, last₂, hxs, hys, h₁, h₂ => by
      by_cases hle : compare x y ≤ 0
      · rw [List.cons_merge_cons_pos _ _ _ (decide_eq_true hle)]
        cases xs with
        | nil =>
          obtain rfl : x = last₁ := Option.some.inj h₁
          have hlast := hcompare.trans _ _ _ hle (le_getLast hcompare hys (by simp) h₂)
          rw [List.nil_merge, List.getLast?_cons_cons, h₂, if_neg (by omega)]
        | cons x' xs =>
          have ih := getLast_merge hcompare (List.pairwise_cons.mp hxs).2 hys
            (List.getLast?_cons_cons ▸ h₁) h₂
          rw [List.getLast?_cons, ih]
          rfl
      · have hyx : compare y x < 0 := (hcompare.le_or_lt x y).resolve_left hle
        rw [List.cons_merge_cons_neg _ _ _ (by simpa [notGreater] using hle)]
        cases ys with
        | nil =>
          obtain rfl : y = last₂ := Option.some.inj h₂
          have hlast := hcompare.lt_of_lt_of_le hyx (le_getLast hcompare hxs (by simp) h₁)
          have hgt := (hcompare.swap y last₁).mp hlast
          rw [List.merge_right, List.getLast?_cons_cons, h₁, if_pos hgt]
        | cons y' ys =>
          have ih := getLast_merge hcompare hxs (List.pairwise_cons.mp hys).2 h₁
            (List.getLast?_cons_cons ▸ h₂)
          rw [List.getLast?_cons, ih]
          rfl

/-- **The merge of two sorted lists.** -/
theorem StablySorted.merge (hcompare : TotalPreorder compare) {xs ys xs' ys' : List α}
    (hxs : StablySorted compare xs xs') (hys : StablySorted compare ys ys') :
    StablySorted compare (xs ++ ys) (xs'.merge ys' (notGreater compare)) := by
  refine ⟨?_, ?_, fun a => ?_⟩
  · exact (List.merge_perm_append ..).trans (hxs.perm.append hys.perm)
  · have htrans : ∀ a b c, notGreater compare a b → notGreater compare b c →
        notGreater compare a c := by
      intro a b c hab hbc
      exact decide_eq_true
        (hcompare.trans a b c (of_decide_eq_true hab) (of_decide_eq_true hbc))
    have htotal : ∀ a b, notGreater compare a b || notGreater compare b a := by
      intro a b
      have := hcompare.le_or_lt a b
      simp only [notGreater, Bool.or_eq_true, decide_eq_true_eq]
      omega
    have hsorted := List.pairwise_merge htrans htotal xs' ys'
      (hxs.ascending.imp decide_eq_true) (hys.ascending.imp decide_eq_true)
    exact hsorted.imp of_decide_eq_true
  · rw [classOf_merge hcompare a hxs.ascending, hxs.stable, hys.stable, classOf_append]

end SpRtrace.Lib
