/-
SpRtrace.Lib.Strings — `strtok` and `strcmp`.

Text is a list of characters without NUL, and the end of a text compares
like a NUL.
-/
import Mathlib

namespace SpRtrace.Lib

/-! ## Parts -/

/-- What successive calls of `strtok` with one separator return: the parts
that are not empty. -/
def strtok (sep : Char) (text : List Char) : List (List Char) :=
  (text.splitOn sep).filter (· ≠ [])

/-- The parts that were joined come back. -/
theorem strtok_intercalate {sep : Char} {items : List (List Char)}
    (hitems : ∀ item ∈ items, item ≠ [] ∧ sep ∉ item) :
    strtok sep ([sep].intercalate items) = items := by
  unfold strtok
  cases items with
  | nil => rfl
  | cons item items =>
    rw [List.splitOn_intercalate sep (fun t ht => (hitems t ht).2) (List.cons_ne_nil item items),
      List.filter_eq_self]
    exact fun t ht => decide_eq_true (hitems t ht).1

/-! ## Comparison -/

/-- `strcmp`: the difference of the first characters that differ. -/
def strcmp : List Char → List Char → Int
  | [], [] => 0
  | [], d :: _ => -(d.toNat : Int)
  | c :: _, [] => c.toNat
  | c :: s, d :: t => if c = d then strcmp s t else (c.toNat : Int) - d.toNat

theorem strcmp_swap (s t : List Char) : strcmp t s = -strcmp s t := by
  induction s, t using strcmp.induct with
  | case1 => rfl
  | case2 d t => simp [strcmp]
  | case3 c s => simp [strcmp]
  | case4 c s t ih => simp [strcmp, ih]
  | case5 c s d t hne =>
    rw [strcmp, strcmp, if_neg hne, if_neg fun heq => hne heq.symm]
    omega

theorem strcmp_trans {s t u : List Char} (hst : strcmp s t < 0) (htu : strcmp t u < 0) :
    strcmp s u < 0 := by
  induction s, t using strcmp.induct generalizing u with
  | case1 => simp [strcmp] at hst
  | case2 d t =>
    cases u with
    | nil => simp [strcmp] at htu; omega
    | cons e u =>
      simp only [strcmp] at hst htu ⊢
      split at htu
      next heq => rw [← heq]; exact hst
      · omega
  | case3 c s => simp [strcmp] at hst; omega
  | case4 c s t ih =>
    rw [strcmp, if_pos rfl] at hst
    cases u with
    | nil => simp [strcmp] at htu; omega
    | cons e u =>
      simp only [strcmp] at htu ⊢
      split
      next heq =>
        rw [if_pos heq] at htu
        exact ih hst htu
      next hne =>
        rw [if_neg hne] at htu
        exact htu
  | case5 c s d t hne =>
    rw [strcmp, if_neg hne] at hst
    cases u with
    | nil => simp [strcmp] at htu; omega
    | cons e u =>
      simp only [strcmp] at htu ⊢
      split at htu
      next heq =>
        rw [if_neg (heq ▸ hne), ← heq]
        exact hst
      next hne' =>
        rw [if_neg]
        · omega
        · rintro rfl
          omega

theorem strcmp_self (s : List Char) : strcmp s s = 0 := by
  have hswap := strcmp_swap s s
  omega

theorem toNat_ne_zero {c : Char} (hc : c ≠ '\x00') : c.toNat ≠ 0 :=
  fun hzero => hc (Char.toNat_inj.mp hzero)

theorem strcmp_eq_zero {s t : List Char} (hs : '\x00' ∉ s) (ht : '\x00' ∉ t) :
    strcmp s t = 0 ↔ s = t := by
  induction s, t using strcmp.induct with
  | case1 => simp [strcmp]
  | case2 d t =>
    have hd := toNat_ne_zero (List.ne_of_not_mem_cons ht).symm
    simp [strcmp, hd]
  | case3 c s =>
    have hc := toNat_ne_zero (List.ne_of_not_mem_cons hs).symm
    simp [strcmp, hc]
  | case4 c s t ih =>
    rw [strcmp, if_pos rfl, ih (List.not_mem_of_not_mem_cons hs) (List.not_mem_of_not_mem_cons ht)]
    simp
  | case5 c s d t hne =>
    have hvalue : c.toNat ≠ d.toNat := fun heq => hne (Char.toNat_inj.mp heq)
    rw [strcmp, if_neg hne]
    constructor
    · omega
    · intro heq
      exact absurd (List.cons.inj heq).1 hne

end SpRtrace.Lib
