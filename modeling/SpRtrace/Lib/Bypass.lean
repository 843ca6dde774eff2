/-
SpRtrace.Lib.Bypass — a node of a graph with one way in and one way out.

If the only edge into `n` comes from `p` and the only edge out of it goes to
`c`, the node can be taken out and an edge from `p` to `c` put in its place:
the other nodes reach each other as before.
-/
import Mathlib

namespace SpRtrace.Lib

open Relation

variable {α : Type*} {R : α → α → Prop} {p n c : α}

/-- The edges of `R` that do not touch `n`, and one from `p` to `c`. -/
def Bypass (R : α → α → Prop) (p n c : α) (x y : α) : Prop :=
  (R x y ∧ x ≠ n ∧ y ≠ n) ∨ (x = p ∧ y = c)

/-- The new edge was a path before. -/
theorem Bypass.transGen (hin : R p n) (hout : R n c) {x y : α} (h : Bypass R p n c x y) :
    TransGen R x y := by
  rcases h with ⟨hedge, -, -⟩ | ⟨rfl, rfl⟩
  · exact TransGen.single hedge
  · exact (TransGen.single hin).tail hout

/-- A path from another node stays a path, but for its last edge if that
leads to `n`. -/
theorem bypass_path (hin : ∀ x, R x n → x = p) (hout : ∀ y, R n y → y = c) (hp : p ≠ n)
    (hc : c ≠ n) {x y : α} (hx : x ≠ n) (h : TransGen R x y) :
    (y ≠ n → TransGen (Bypass R p n c) x y) ∧ (y = n → ReflTransGen (Bypass R p n c) x p) := by
  induction h with
  | single hedge =>
    constructor
    · intro hy
      exact TransGen.single (.inl ⟨hedge, hx, hy⟩)
    · rintro rfl
      rw [hin _ hedge]
  | @tail z y _ hedge ih =>
    by_cases hz : z = n
    · subst hz
      have hy : y = c := hout y hedge
      have hnew : TransGen (Bypass R p z c) x y :=
        TransGen.tail' (ih.2 rfl) (.inr ⟨rfl, hy⟩)
      exact ⟨fun _ => hnew, fun hyn => absurd (hy.symm.trans hyn) hc⟩
    · have hpath := ih.1 hz
      constructor
      · intro hy
        exact hpath.tail (.inl ⟨hedge, hz, hy⟩)
      · rintro rfl
        have hlast : z = p := hin z hedge
        exact hlast ▸ hpath.to_reflTransGen

/-- **The other nodes reach each other as before.** -/
theorem transGen_bypass (hin : ∀ x, R x n ↔ x = p) (hout : ∀ y, R n y ↔ y = c) (hp : p ≠ n)
    (hc : c ≠ n) {x y : α} (hx : x ≠ n) (hy : y ≠ n) :
    TransGen (Bypass R p n c) x y ↔ TransGen R x y := by
  constructor
  · intro h
    have hclosed : Bypass R p n c ≤ TransGen R :=
      fun _ _ hedge => Bypass.transGen ((hin p).mpr rfl) ((hout c).mpr rfl) hedge
    exact TransGen.closed hclosed x y h
  · intro h
    exact (bypass_path (fun x => (hin x).mp) (fun y => (hout y).mp) hp hc hx h).1 hy

end SpRtrace.Lib
