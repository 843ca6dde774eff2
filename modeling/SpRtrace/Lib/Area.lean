/-
SpRtrace.Lib.Area — a memory area of fixed size.

An area is the list of its cells. A store outside the area fails. Copying
goes cell by cell from the front, so what is copied may have been copied
before; as long as the target is not behind the source this moves the
source as it was (`copyCells_eq`).
-/
import Mathlib

namespace SpRtrace.Lib

variable {α : Type*}

/-- The `n` cells from `pos` on. -/
def slice (mem : List α) (pos n : Nat) : List α := (mem.drop pos).take n

/-- Stores a cell; `none` is a store outside the area. -/
def storeCell (mem : List α) (pos : Nat) (x : α) : Option (List α) :=
  if pos < mem.length then some (mem.set pos x) else none

def storeCells (mem : List α) (pos : Nat) : List α → Option (List α)
  | [] => some mem
  | x :: xs => do
      let mem ← storeCell mem pos x
      storeCells mem (pos + 1) xs

/-- `while (n--) *dst++ = *src++`. -/
def copyCells (mem : List α) (dst src : Nat) : Nat → Option (List α)
  | 0 => some mem
  | n + 1 => do
      let x ← mem[src]?
      let mem ← storeCell mem dst x
      copyCells mem (dst + 1) (src + 1) n

theorem slice_length {mem : List α} {pos n : Nat} (h : pos + n ≤ mem.length) :
    (slice mem pos n).length = n := by
  rw [slice, List.length_take, List.length_drop]
  omega

/-- The area after some of its cells are replaced. -/
def patch (mem : List α) (pos : Nat) (xs : List α) : List α :=
  mem.take pos ++ xs ++ mem.drop (pos + xs.length)

theorem patch_length {mem : List α} {pos : Nat} {xs : List α} (h : pos + xs.length ≤ mem.length) :
    (patch mem pos xs).length = mem.length := by
  simp only [patch, List.length_append, List.length_take, List.length_drop]
  omega

@[simp] theorem patch_nil (mem : List α) (pos : Nat) : patch mem pos [] = mem := by
  simp [patch]

theorem patch_cons {mem : List α} {pos : Nat} (x : α) (xs : List α) (h : pos < mem.length) :
    patch (mem.set pos x) (pos + 1) xs = patch mem pos (x :: xs) := by
  have htake : (mem.set pos x).take (pos + 1) = mem.take pos ++ [x] := by
    rw [List.take_succ_eq_append_getElem (by rw [List.length_set]; exact h),
      List.getElem_set_self, List.take_set_of_le (Nat.le_refl pos)]
  have hdrop : (mem.set pos x).drop (pos + 1 + xs.length) = mem.drop (pos + 1 + xs.length) :=
    List.drop_set_of_lt (by omega)
  rw [patch, patch, htake, hdrop, List.length_cons, Nat.add_right_comm pos 1, Nat.add_assoc pos]
  simp

/-- Cells in front of a patch stay. -/
theorem slice_patch_left {mem : List α} {pos : Nat} (xs : List α) (h : pos ≤ mem.length) :
    slice (patch mem pos xs) 0 pos = slice mem 0 pos := by
  simp [slice, patch, Nat.min_eq_left h]

/-- The patch itself. -/
theorem slice_patch {mem : List α} {pos : Nat} (xs : List α) (h : pos ≤ mem.length) :
    slice (patch mem pos xs) pos xs.length = xs := by
  simp [slice, patch, Nat.min_eq_left h]

/-- Everything up to the end of a patch. -/
theorem slice_patch_snoc {mem : List α} {pos : Nat} (xs : List α) (h : pos ≤ mem.length) :
    slice (patch mem pos xs) 0 (pos + xs.length) = slice mem 0 pos ++ xs := by
  have hlen : (mem.take pos ++ xs).length = pos + xs.length := by simp [Nat.min_eq_left h]
  rw [slice, patch, List.drop_zero, List.take_left' hlen, slice, List.drop_zero]

/-- Storing inside the area. -/
theorem storeCells_eq {mem : List α} {pos : Nat} {xs : List α} (h : pos + xs.length ≤ mem.length) :
    storeCells mem pos xs = some (patch mem pos xs) := by
  induction xs generalizing mem pos with
  | nil => simp [storeCells]
  | cons x xs ih =>
    rw [List.length_cons] at h
    have hpos : pos < mem.length := by omega
    have hrest : storeCells (mem.set pos x) (pos + 1) xs
        = some (patch (mem.set pos x) (pos + 1) xs) := ih (by rw [List.length_set]; omega)
    rw [storeCells, storeCell, if_pos hpos, Option.bind_eq_bind, Option.bind_some, hrest,
      patch_cons x xs hpos]

/-- Storing succeeds only inside the area. -/
theorem storeCells_bound {mem mem' : List α} {pos : Nat} {xs : List α}
    (h : storeCells mem pos xs = some mem') (hpos : pos ≤ mem.length) :
    pos + xs.length ≤ mem.length := by
  induction xs generalizing mem pos with
  | nil => exact hpos
  | cons x xs ih =>
    rw [storeCells, storeCell] at h
    split at h
    next hlt =>
      have := ih h (by rw [List.length_set]; exact hlt)
      rw [List.length_set] at this
      rw [List.length_cons]
      omega
    next => exact absurd h (by simp)

/-- Storing starts inside the area. -/
theorem storeCells_lt {mem mem' : List α} {pos : Nat} {x : α} {xs : List α}
    (h : storeCells mem pos (x :: xs) = some mem') : pos < mem.length := by
  rw [storeCells, storeCell] at h
  split at h
  next hlt => exact hlt
  next => exact absurd h (by simp)

/-- A target that is not behind the source, or apart from it, gets the
cells the source had. -/
theorem copyCells_patch {mem : List α} {dst src n : Nat} (hle : dst ≤ src ∨ src + n ≤ dst)
    (hsrc : src + n ≤ mem.length) (hdst : dst + n ≤ mem.length) :
    copyCells mem dst src n = some (patch mem dst (slice mem src n)) := by
  induction n generalizing mem dst src with
  | zero => simp [copyCells, slice]
  | succ n ih =>
    have hsrcLt : src < mem.length := by omega
    have hdstLt : dst < mem.length := by omega
    have hslice : slice mem src (n + 1) = mem[src] :: slice mem (src + 1) n := by
      rw [slice, slice, List.drop_eq_getElem_cons hsrcLt, List.take_succ_cons]
    -- the store at `dst` misses what is still to be copied
    have hlater : slice (mem.set dst mem[src]) (src + 1) n = slice mem (src + 1) n := by
      rcases hle with hle | hle
      · rw [slice, slice, List.drop_set_of_lt (by omega)]
      · rw [slice, slice, List.drop_set, if_neg (by omega), List.take_set_of_le (by omega)]
    have hrest : copyCells (mem.set dst mem[src]) (dst + 1) (src + 1) n
        = some (patch (mem.set dst mem[src]) (dst + 1) (slice (mem.set dst mem[src]) (src + 1) n)) :=
      ih (by omega) (by rw [List.length_set]; omega) (by rw [List.length_set]; omega)
    rw [copyCells, List.getElem?_eq_getElem hsrcLt, Option.bind_eq_bind, Option.bind_some, storeCell,
      if_pos hdstLt, Option.bind_eq_bind, Option.bind_some, hrest, hlater, hslice,
      patch_cons _ _ hdstLt]

/-- A target in front of the source gets the cells the source had. -/
theorem copyCells_eq {mem : List α} {dst src n : Nat} (hle : dst ≤ src) (h : src + n ≤ mem.length) :
    copyCells mem dst src n = some (patch mem dst (slice mem src n)) :=
  copyCells_patch (.inl hle) h (by omega)

/-! ## Cells -/

theorem slice_getElem? (mem : List α) (pos n i : Nat) :
    (slice mem pos n)[i]? = if i < n then mem[pos + i]? else none := by
  rw [slice, List.getElem?_take, List.getElem?_drop]

theorem patch_getElem? {mem : List α} {pos : Nat} {xs : List α} (h : pos ≤ mem.length) (i : Nat) :
    (patch mem pos xs)[i]? = if pos ≤ i ∧ i < pos + xs.length then xs[i - pos]? else mem[i]? := by
  have htake : (mem.take pos).length = pos := by rw [List.length_take, Nat.min_eq_left h]
  have hfront : (mem.take pos ++ xs).length = pos + xs.length := by rw [List.length_append, htake]
  rw [patch]
  by_cases hlt : i < pos
  · rw [if_neg (by omega), List.append_assoc, List.getElem?_append_left (by omega),
      List.getElem?_take_of_lt hlt]
  · by_cases hin : i < pos + xs.length
    · rw [if_pos ⟨by omega, hin⟩, List.getElem?_append_left (by omega),
        List.getElem?_append_right (by omega), htake]
    · rw [if_neg (by omega), List.getElem?_append_right (by omega), hfront, List.getElem?_drop]
      congr 1
      omega

/-- Cells beside a patch stay. -/
theorem slice_patch_apart {mem : List α} {pos pos' n : Nat} {xs : List α} (h : pos ≤ mem.length)
    (hapart : pos' + n ≤ pos ∨ pos + xs.length ≤ pos') :
    slice (patch mem pos xs) pos' n = slice mem pos' n := by
  refine List.ext_getElem? fun i => ?_
  rw [slice_getElem?, slice_getElem?]
  split
  · rw [patch_getElem? h, if_neg (by omega)]
  · rfl

/-- Slices that agree do so on shorter ones. -/
theorem slice_take {mem : List α} {pos n k : Nat} (h : k ≤ n) :
    (slice mem pos n).take k = slice mem pos k := by
  rw [slice, slice, List.take_take, Nat.min_eq_left h]

end SpRtrace.Lib
