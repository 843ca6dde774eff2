/-
SpRtrace.Lib.Ranges — half-open ranges of numbers.

How much of a window is covered by ranges that do not meet is the sum of
what each of them covers (`covered_eq_sum`).
-/
import Mathlib

namespace SpRtrace.Lib

/-- The numbers from `start` on and below `stop`. -/
structure Range where
  start : Nat
  stop : Nat
deriving DecidableEq

def Range.Has (r : Range) (a : Nat) : Prop := r.start ≤ a ∧ a < r.stop

instance (r : Range) (a : Nat) : Decidable (r.Has a) := inferInstanceAs (Decidable (_ ∧ _))

/-- No number is in both ranges. -/
def Range.Apart (r s : Range) : Prop := ∀ a, ¬ (r.Has a ∧ s.Has a)

/-- How many numbers of a window are in the range. -/
def Range.overlap (r window : Range) : Nat :=
  min r.stop window.stop - max r.start window.start

/-- How many numbers of a window are in one of the ranges. -/
def covered (ranges : List Range) (window : Range) : Nat :=
  ((Finset.Ico window.start window.stop).filter fun a => ∃ r ∈ ranges, r.Has a).card

theorem Range.overlap_eq (r window : Range) :
    r.overlap window = ((Finset.Ico window.start window.stop).filter r.Has).card := by
  have hfilter : (Finset.Ico window.start window.stop).filter r.Has
      = Finset.Ico (max r.start window.start) (min r.stop window.stop) := by
    ext a
    simp only [Finset.mem_filter, Finset.mem_Ico, Range.Has]
    omega
  rw [hfilter, Nat.card_Ico, Range.overlap]

/-- **Covered numbers add up** if no two ranges meet. -/
theorem covered_eq_sum {ranges : List Range} (h : ranges.Pairwise Range.Apart) (window : Range) :
    covered ranges window = (ranges.map fun r => r.overlap window).sum := by
  induction ranges with
  | nil => simp [covered]
  | cons r ranges ih =>
    obtain ⟨hr, hranges⟩ := List.pairwise_cons.mp h
    rw [List.map_cons, List.sum_cons, ← ih hranges, Range.overlap_eq, covered, covered,
      ← Finset.card_union_of_disjoint]
    · rw [← Finset.filter_or]
      simp only [List.exists_mem_cons_iff]
    · refine Finset.disjoint_left.mpr fun a ha ha' => ?_
      obtain ⟨s, hs, hsa⟩ := (Finset.mem_filter.mp ha').2
      exact hr s hs a ⟨(Finset.mem_filter.mp ha).2, hsa⟩

theorem covered_le (ranges : List Range) (window : Range) :
    covered ranges window ≤ window.stop - window.start := by
  rw [← Nat.card_Ico]
  exact Finset.card_filter_le _ _

/-- Ranges that do not meet are one behind the other. -/
theorem Range.Apart.stop_le {r s : Range} (h : r.Apart s) (hs : s.start < s.stop)
    (hle : r.start ≤ s.start) : r.stop ≤ s.start := by
  by_contra hlt
  exact h s.start ⟨⟨hle, by omega⟩, le_refl _, hs⟩

end SpRtrace.Lib
