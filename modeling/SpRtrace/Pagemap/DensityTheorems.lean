/-
SpRtrace.Pagemap.DensityTheorems — when the density map is right.

Before each page the bytes of all events from there on are the overflow
and the bytes of the events that are left (`PagesInv`). So a page gets the
number of its bytes that are covered, unless an event goes beyond the
address space: the sum of its address and its size is then small, it
counts as a whole, and the page gets the mark `*`.

The map is right exactly if there is no such event and the 32-bit counter
reaches the number of pages (`writeMemoryMap_iff`).
-/
import Mathlib
import SpRtrace.Pagemap.Density

namespace SpRtrace.Pagemap

open SpRtrace.Lib SpRtrace.Common

/-! ## Marks -/

/-- The mark says how much of the page is covered, and is not `*`. -/
theorem densityMark_spec {pageSize bytes : Nat} (hle : bytes ≤ pageSize) :
    (densityMark pageSize bytes = ' ' ↔ bytes = 0) ∧
      (0 < pageSize → (densityMark pageSize bytes = '#' ↔ bytes = pageSize)) ∧
      (0 < bytes → bytes < pageSize →
        densityMark pageSize bytes = Char.ofNat (bytes * 10 / pageSize + 48)) ∧
      densityMark pageSize bytes ≠ '*' := by
  have hdigit : ∀ n < 10, Char.ofNat (n + 48) ≠ ' ' ∧ Char.ofNat (n + 48) ≠ '#' ∧
      Char.ofNat (n + 48) ≠ '*' := by decide
  by_cases h0 : bytes = 0
  · subst h0
    simp [densityMark]
    omega
  by_cases hP : bytes = pageSize
  · subst hP
    simp [densityMark, h0]
  · have hlt : bytes * 10 / pageSize < 10 := Nat.div_lt_of_lt_mul (by omega)
    obtain ⟨hblank, hfull, hstar⟩ := hdigit _ hlt
    simp [densityMark, h0, hP, hblank, hfull, hstar]

/-- The mark of the code for a size that fits in the page. -/
theorem pageMark_eq {pageSize size : BitVec 64} (hint : pageSize.toNat < 2 ^ 31)
    (hle : size.toNat ≤ pageSize.toNat) :
    pageMark pageSize size = densityMark pageSize.toNat size.toNat := by
  have hzero : size = 0 ↔ size.toNat = 0 := by
    rw [← BitVec.toNat_inj]
    rfl
  simp only [pageMark, densityMark, hzero, ← BitVec.toNat_inj, BitVec.lt_def]
  split
  · rfl
  split
  · rfl
  · rw [if_pos (by omega)]
    have hlt : size.toNat * 10 / pageSize.toNat < 10 := Nat.div_lt_of_lt_mul (by omega)
    have hnat : (size * 10 / pageSize + 48).toNat = size.toNat * 10 / pageSize.toNat + 48 := by
      have hmul : (size * 10).toNat = size.toNat * 10 := by
        rw [BitVec.toNat_mul]
        exact Nat.mod_eq_of_lt (by simp; omega)
      rw [BitVec.toNat_add, BitVec.toNat_udiv, hmul]
      exact Nat.mod_eq_of_lt (by simp; omega)
    rw [BitVec.toNat_setWidth, hnat, Nat.mod_eq_of_lt (by omega)]

/-- A size beyond the page. -/
theorem pageMark_star {pageSize size : BitVec 64} (hlt : pageSize.toNat < size.toNat) :
    pageMark pageSize size = '*' := by
  rw [pageMark, if_neg, if_neg, if_neg]
  · rw [BitVec.lt_def]
    omega
  · rintro rfl
    omega
  · rintro rfl
    simp at hlt

/-! ## Events side by side -/

/-- What the events cover of a window. -/
def laid (calls : List (FcallData 64)) (window : Range) : Nat :=
  (calls.map fun call => (eventRange call).overlap window).sum

theorem laid_cons (call : FcallData 64) (calls : List (FcallData 64)) (window : Range) :
    laid (call :: calls) window = (eventRange call).overlap window + laid calls window := by
  rw [laid, List.map_cons, List.sum_cons, laid]

/-- Events behind the window cover nothing of it. -/
theorem laid_behind {calls : List (FcallData 64)} {window : Range}
    (h : ∀ call ∈ calls, 0 < call.resSize.toNat → window.stop ≤ call.resId.toNat) :
    laid calls window = 0 := by
  refine List.sum_eq_zero ?_
  rw [List.forall_mem_map]
  intro call hcall
  have := h call hcall
  simp only [Range.overlap, eventRange]
  omega

/-- The second event is not before the first one, and has none of its
bytes. -/
def Behind (call call' : FcallData 64) : Prop :=
  call.resId.toNat ≤ call'.resId.toNat ∧
    (0 < call'.resSize.toNat → (eventRange call).stop ≤ call'.resId.toNat)

instance : Std.Symm fun call call' => Behind call call' ∨ Behind call' call := ⟨fun _ _ => Or.symm⟩

/-- The address space contains the event. -/
def EventFits (call : FcallData 64) : Prop := (eventRange call).stop < 2 ^ 64

theorem signExtend_toNat {size : BitVec 32} (h : size.toNat < 2 ^ 31) :
    (size.signExtend 64).toNat = size.toNat := by
  have hmsb : size.msb = false := by
    rw [BitVec.msb_eq_false_iff_two_mul_lt]
    omega
  rw [BitVec.signExtend_eq_setWidth_of_msb_false hmsb, BitVec.toNat_setWidth]
  exact Nat.mod_eq_of_lt (by omega)

theorem fillPage_inside {pageEnd size : BitVec 64} {call : FcallData 64}
    {calls : List (FcallData 64)} (hbelow : call.resId < pageEnd)
    (hin : ¬ pageEnd < call.resId + call.resSize.signExtend 64) :
    fillPage pageEnd (call :: calls) size
      = fillPage pageEnd calls (size + call.resSize.signExtend 64) := by
  rw [fillPage, if_pos hbelow]
  exact if_neg hin

/-- What the inner loop does with events that fit: the page gets what they
cover of it, and the rest is the overflow and the events that are left. -/
structure Filled (start : Nat) (pageEnd size : BitVec 64) (calls : List (FcallData 64))
    (fill : PageFill) : Prop where
  size : fill.size.toNat = size.toNat + laid calls ⟨start, pageEnd.toNat⟩
  later : ∀ window : Range, pageEnd.toNat ≤ window.start → laid calls window
    = Range.overlap ⟨pageEnd.toNat, pageEnd.toNat + fill.overflow.toNat⟩ window
      + laid fill.calls window
  left : ∀ call ∈ fill.calls, 0 < call.resSize.toNat →
    pageEnd.toNat + fill.overflow.toNat ≤ call.resId.toNat
  overflow : fill.overflow.toNat < 2 ^ 31
  suffix : fill.calls <:+ calls

theorem overlap_empty (n : Nat) (window : Range) : Range.overlap ⟨n, n⟩ window = 0 := by
  simp only [Range.overlap]
  omega

theorem fillPage_filled (start cursor : Nat) {pageEnd : BitVec 64} (size : BitVec 64)
    {calls : List (FcallData 64)} (hstart : start ≤ cursor) (hend : cursor ≤ pageEnd.toNat)
    (hsize : size.toNat + (pageEnd.toNat - cursor) < 2 ^ 64) (hbehind : calls.Pairwise Behind)
    (hsizes : ∀ call ∈ calls, call.resSize.toNat < 2 ^ 31)
    (hfits : ∀ call ∈ calls, call.resId < pageEnd → EventFits call)
    (hcursor : ∀ call ∈ calls, 0 < call.resSize.toNat → cursor ≤ call.resId.toNat) :
    Filled start pageEnd size calls (fillPage pageEnd calls size) := by
  induction calls generalizing size cursor with
  | nil =>
    exact ⟨rfl, fun window _ => by simp [fillPage, laid, overlap_empty], by simp [fillPage],
      by simp [fillPage], List.suffix_refl _⟩
  | cons call calls ih =>
    obtain ⟨hcall, hcalls⟩ := List.pairwise_cons.mp hbehind
    have hsz := hsizes call List.mem_cons_self
    have hat := hcursor call List.mem_cons_self
    unfold fillPage
    split
    · rename_i hbelow
      have hfit : call.resId.toNat + call.resSize.toNat < 2 ^ 64 :=
        hfits call List.mem_cons_self hbelow
      have hid : call.resId.toNat < pageEnd.toNat := hbelow
      have hsum : (call.resId + call.resSize.signExtend 64).toNat
          = call.resId.toNat + call.resSize.toNat := by
        rw [BitVec.toNat_add, signExtend_toNat hsz, Nat.mod_eq_of_lt hfit]
      simp only [BitVec.lt_def, hsum]
      split
      · -- the event goes on behind the page
        rename_i hover
        have hlow := hat (by omega)
        have hrest : (pageEnd - call.resId).toNat = pageEnd.toNat - call.resId.toNat :=
          BitVec.toNat_sub_of_le (BitVec.le_of_lt hbelow)
        have hov : (call.resSize.signExtend 64 - (pageEnd - call.resId)).toNat
            = call.resId.toNat + call.resSize.toNat - pageEnd.toNat := by
          rw [BitVec.toNat_sub_of_le (by rw [BitVec.le_def, hrest, signExtend_toNat hsz]; omega),
            hrest, signExtend_toNat hsz]
          omega
        have hpart : (call.resSize.signExtend 64 -
            (call.resSize.signExtend 64 - (pageEnd - call.resId))).toNat
            = pageEnd.toNat - call.resId.toNat := by
          rw [BitVec.toNat_sub_of_le (by rw [BitVec.le_def, hov, signExtend_toNat hsz]; omega),
            hov, signExtend_toNat hsz]
          omega
        have hbeyond : ∀ call' ∈ calls, 0 < call'.resSize.toNat →
            call.resId.toNat + call.resSize.toNat ≤ call'.resId.toNat := fun call' h hpos =>
          (hcall call' h).2 hpos
        refine ⟨?_, fun window hwindow => ?_, fun call' h hpos => ?_, ?_, List.suffix_cons _ _⟩
        · rw [BitVec.toNat_add, hpart, laid_cons, laid_behind, Nat.mod_eq_of_lt (by omega)]
          · simp only [Range.overlap, eventRange]
            omega
          · exact fun call' h hpos => by have := hbeyond call' h hpos; simp only; omega
        · rw [laid_cons, hov]
          congr 1
          simp only [Range.overlap, eventRange]
          omega
        · have := hbeyond call' h hpos
          simp only [hov]
          omega
        · simp only [hov]
          omega
      · -- the event ends in the page
        rename_i hin
        have hsz' : (size + call.resSize.signExtend 64).toNat
            = size.toNat + call.resSize.toNat := by
          rw [BitVec.toNat_add, signExtend_toNat hsz]
          refine Nat.mod_eq_of_lt ?_
          omega
        have hfill := ih (max cursor (call.resId.toNat + call.resSize.toNat))
          (size + call.resSize.signExtend 64) (by omega) (by omega)
          (by rw [hsz']; omega) hcalls (fun c h => hsizes c (List.mem_cons_of_mem _ h))
          (fun c h => hfits c (List.mem_cons_of_mem _ h))
          (fun c h hpos => max_le (hcursor c (List.mem_cons_of_mem _ h) hpos) ((hcall c h).2 hpos))
        refine ⟨?_, fun window hwindow => ?_, hfill.left, hfill.overflow,
          hfill.suffix.trans (List.suffix_cons _ _)⟩
        · rw [hfill.size, hsz', laid_cons]
          have : (eventRange call).overlap ⟨start, pageEnd.toNat⟩ = call.resSize.toNat := by
            simp only [Range.overlap, eventRange]
            omega
          omega
        · rw [laid_cons, ← hfill.later window hwindow]
          have : (eventRange call).overlap window = 0 := by
            simp only [Range.overlap, eventRange]
            omega
          omega
    · -- this event and the next ones begin behind the page
      rename_i habove
      have hall : ∀ c ∈ call :: calls, pageEnd.toNat ≤ c.resId.toNat := by
        have hid : pageEnd.toNat ≤ call.resId.toNat := Nat.le_of_not_lt habove
        intro c hc
        rcases List.mem_cons.mp hc with rfl | hc
        · exact hid
        · exact hid.trans (hcall c hc).1
      exact ⟨by rw [laid_behind fun c hc _ => hall c hc]; rfl,
        fun window _ => by simp [overlap_empty], fun c hc _ => by simpa using hall c hc, by simp,
        List.suffix_refl _⟩

/-! ## Page by page -/

/-- Before the page at an address: what is covered from there on is the
overflow and the events that are left. -/
structure PagesInv (events : List (FcallData 64)) (pageAddr : Nat) (overflow : BitVec 64)
    (calls : List (FcallData 64)) : Prop where
  behind : calls.Pairwise Behind
  sizes : ∀ call ∈ calls, call.resSize.toNat < 2 ^ 31
  overflow_lt : overflow.toNat < 2 ^ 31
  start : ∀ call ∈ calls, 0 < call.resSize.toNat → pageAddr + overflow.toNat ≤ call.resId.toNat
  laid_eq : ∀ window : Range, pageAddr ≤ window.start → laid events window
    = Range.overlap ⟨pageAddr, pageAddr + overflow.toNat⟩ window + laid calls window

section NextPage

variable {events calls : List (FcallData 64)} {pageSize pageAddr overflow : BitVec 64}
  (h : PagesInv events pageAddr.toNat overflow calls) (hint : pageSize.toNat < 2 ^ 31)
  (htop : pageAddr.toNat + pageSize.toNat < 2 ^ 64)

include h hint htop

/-- One page, if the events that begin before its end fit. -/
theorem nextPage_spec (hfits : ∀ call ∈ calls, call.resId < pageAddr + pageSize → EventFits call) :
    (nextPage pageSize pageAddr overflow calls).size.toNat
      = laid events ⟨pageAddr.toNat, pageAddr.toNat + pageSize.toNat⟩ ∧
    PagesInv events (pageAddr.toNat + pageSize.toNat)
      (nextPage pageSize pageAddr overflow calls).overflow
      (nextPage pageSize pageAddr overflow calls).calls ∧
    (nextPage pageSize pageAddr overflow calls).calls <:+ calls := by
  have hend : (pageAddr + pageSize).toNat = pageAddr.toNat + pageSize.toNat := by
    rw [BitVec.toNat_add, Nat.mod_eq_of_lt htop]
  have hov := h.overflow_lt
  unfold nextPage
  split
  · rename_i hlt
    have hlt : overflow.toNat < pageSize.toNat := hlt
    have hfill := fillPage_filled pageAddr.toNat (pageAddr.toNat + overflow.toNat) overflow
      (Nat.le_add_right _ _)
      (by rw [hend]; omega) (by rw [hend]; omega) h.behind h.sizes hfits h.start
    have hlaid := h.laid_eq ⟨pageAddr.toNat, pageAddr.toNat + pageSize.toNat⟩ le_rfl
    obtain ⟨hsize, hlater, hleft, hoverflow, hsuffix⟩ := hfill
    rw [hend] at hsize hlater hleft
    refine ⟨?_, ⟨h.behind.sublist hsuffix.sublist, fun c hc => h.sizes c (hsuffix.subset hc),
      hoverflow, hleft, fun window hwindow => ?_⟩, hsuffix⟩
    · rw [hsize, hlaid]
      congr 1
      simp only [Range.overlap]
      omega
    · rw [h.laid_eq window (by omega), hlater window hwindow, ← Nat.add_assoc]
      congr 1
      simp only [Range.overlap]
      omega
  · -- the page is covered by the overflow
    rename_i hge
    have hge : pageSize.toNat ≤ overflow.toNat := Nat.le_of_not_lt hge
    have hsub : (overflow - pageSize).toNat = overflow.toNat - pageSize.toNat :=
      BitVec.toNat_sub_of_le hge
    refine ⟨?_, ⟨h.behind, h.sizes, by simp only [hsub]; omega, fun c hc hpos => ?_,
      fun window hwindow => ?_⟩, List.suffix_refl _⟩
    · rw [h.laid_eq _ le_rfl, laid_behind]
      · simp only [Range.overlap]
        omega
      · intro c hc hpos
        have := h.start c hc hpos
        simp only
        omega
    · have := h.start c hc hpos
      simp only [hsub]
      omega
    · rw [h.laid_eq window (by omega)]
      congr 1
      simp only [Range.overlap, hsub]
      omega

end NextPage

/-- The marks of a number of pages. -/
def runMarks (pageSize : BitVec 64) :
    Nat → BitVec 64 → BitVec 64 → List (FcallData 64) → List Char
  | 0, _, _, _ => []
  | n + 1, pageAddr, overflow, calls =>
      let fill := nextPage pageSize pageAddr overflow calls
      pageMark pageSize fill.size ::
        runMarks pageSize n (pageAddr + pageSize) fill.overflow fill.calls

theorem runMarks_length (pageSize : BitVec 64) (n : Nat) (pageAddr overflow : BitVec 64)
    (calls : List (FcallData 64)) : (runMarks pageSize n pageAddr overflow calls).length = n := by
  induction n generalizing pageAddr overflow calls with
  | zero => rfl
  | succ n ih => rw [runMarks, List.length_cons, ih]

/-- The marks of pages by what the events cover of them. -/
def laidMarks (pageSize : Nat) (events : List (FcallData 64)) : Nat → Nat → List Char
  | 0, _ => []
  | n + 1, pageAddr =>
      densityMark pageSize (laid events ⟨pageAddr, pageAddr + pageSize⟩) ::
        laidMarks pageSize events n (pageAddr + pageSize)

/-- Events that fit give every page its mark. -/
theorem runMarks_eq {events calls : List (FcallData 64)} {pageSize pageAddr overflow : BitVec 64}
    {n : Nat} (h : PagesInv events pageAddr.toNat overflow calls) (hint : pageSize.toNat < 2 ^ 31)
    (htop : pageAddr.toNat + n * pageSize.toNat < 2 ^ 64)
    (hle : ∀ window : Range, laid events window ≤ window.stop - window.start)
    (hfits : ∀ call ∈ calls, EventFits call) :
    runMarks pageSize n pageAddr overflow calls
      = laidMarks pageSize.toNat events n pageAddr.toNat := by
  induction n generalizing pageAddr overflow calls with
  | zero => rfl
  | succ n ih =>
    rw [Nat.add_mul, Nat.one_mul] at htop
    have hnext : pageAddr.toNat + pageSize.toNat < 2 ^ 64 := by omega
    have haddr : (pageAddr + pageSize).toNat = pageAddr.toNat + pageSize.toNat := by
      rw [BitVec.toNat_add, Nat.mod_eq_of_lt hnext]
    obtain ⟨hsize, hinv, hsuffix⟩ :=
      nextPage_spec h hint hnext fun call hcall _ => hfits call hcall
    have hbound := hle ⟨pageAddr.toNat, pageAddr.toNat + pageSize.toNat⟩
    rw [Nat.add_sub_cancel_left, ← hsize] at hbound
    rw [← haddr] at hinv
    rw [runMarks, laidMarks, pageMark_eq hint hbound, hsize,
      ih hinv (by rw [haddr]; omega) fun call hcall => hfits call (hsuffix.subset hcall), haddr]

/-! ## Events that go beyond the address space -/

/-- Events without bytes add nothing. -/
theorem fillPage_empty {pageEnd size : BitVec 64} {calls : List (FcallData 64)}
    (h : ∀ call ∈ calls, call.resSize.toNat = 0) : (fillPage pageEnd calls size).size = size := by
  induction calls with
  | nil => rfl
  | cons call calls ih =>
    have hzero : call.resSize.signExtend 64 = 0#64 := by
      have : call.resSize = 0 := BitVec.eq_of_toNat_eq (h call List.mem_cons_self)
      rw [this]
      rfl
    by_cases hbelow : call.resId < pageEnd
    · have hin : ¬ pageEnd < call.resId + call.resSize.signExtend 64 := by
        rw [hzero, BitVec.add_zero]
        exact BitVec.lt_asymm hbelow
      rw [fillPage_inside hbelow hin, hzero, BitVec.add_zero]
      exact ih fun c hc => h c (List.mem_cons_of_mem _ hc)
    · rw [fillPage, if_neg hbelow]

/-- An event that goes beyond the address space counts as a whole. -/
theorem fillPage_beyond (cursor : Nat) {pageEnd : BitVec 64} (size : BitVec 64)
    {calls : List (FcallData 64)}
    {call : FcallData 64} (hend : cursor ≤ pageEnd.toNat)
    (hsize : size.toNat + (pageEnd.toNat - cursor) < 2 ^ 32 + 2 ^ 63)
    (hbehind : calls.Pairwise Behind)
    (hsizes : ∀ c ∈ calls, c.resSize.toNat < 2 ^ 31)
    (hcursor : ∀ c ∈ calls, 0 < c.resSize.toNat → cursor ≤ c.resId.toNat)
    (hcall : call ∈ calls) (hbelow : call.resId < pageEnd) (hbeyond : ¬ EventFits call) :
    2 ^ 64 ≤ call.resId.toNat + (fillPage pageEnd calls size).size.toNat := by
  have hid : call.resId.toNat < pageEnd.toNat := hbelow
  have hstop : 2 ^ 64 ≤ call.resId.toNat + call.resSize.toNat := Nat.le_of_not_lt hbeyond
  have hpageEnd := pageEnd.isLt
  induction calls generalizing size cursor with
  | nil => exact absurd hcall List.not_mem_nil
  | cons first calls ih =>
    obtain ⟨hfirst, hcalls⟩ := List.pairwise_cons.mp hbehind
    have hsz := hsizes first List.mem_cons_self
    have hat := hcursor first List.mem_cons_self
    have hnext : (size + first.resSize.signExtend 64).toNat
        = size.toNat + first.resSize.toNat := by
      rw [BitVec.toNat_add, signExtend_toNat hsz]
      exact Nat.mod_eq_of_lt (by omega)
    rcases List.mem_cons.mp hcall with rfl | hmem
    · -- the sum of address and size is small
      have hsum : (call.resId + call.resSize.signExtend 64).toNat < pageEnd.toNat := by
        rw [BitVec.toNat_add, signExtend_toNat hsz, Nat.mod_eq_sub_mod hstop,
          Nat.mod_eq_of_lt (by omega)]
        omega
      have hempty : ∀ c ∈ calls, c.resSize.toNat = 0 := by
        intro c hc
        by_contra hpos
        have hle : call.resId.toNat + call.resSize.toNat ≤ c.resId.toNat :=
          (hfirst c hc).2 (Nat.pos_of_ne_zero hpos)
        have := c.resId.isLt
        omega
      rw [fillPage_inside hbelow (Nat.not_lt.mpr hsum.le), fillPage_empty hempty, hnext]
      omega
    · -- the events before it end before it
      have hle := (hfirst call hmem).1
      have hbefore : first.resId.toNat + first.resSize.toNat ≤ call.resId.toNat :=
        (hfirst call hmem).2 (by
          have := call.resId.isLt
          omega)
      have hsum : (first.resId + first.resSize.signExtend 64).toNat
          = first.resId.toNat + first.resSize.toNat := by
        rw [BitVec.toNat_add, signExtend_toNat hsz]
        exact Nat.mod_eq_of_lt (by omega)
      have hfirstBelow : first.resId < pageEnd := Nat.lt_of_le_of_lt hle hid
      rw [fillPage_inside hfirstBelow (by rw [BitVec.lt_def, hsum]; omega)]
      exact ih (max cursor (first.resId.toNat + first.resSize.toNat)) _ (by omega)
        (by rw [hnext]; omega) hcalls (fun c h => hsizes c (List.mem_cons_of_mem _ h))
        (fun c h hpos => max_le (hcursor c (List.mem_cons_of_mem _ h) hpos) ((hfirst c h).2 hpos))
        hmem

/-- An event behind the page is left. -/
theorem fillPage_left {pageEnd size : BitVec 64} {calls : List (FcallData 64)}
    {call : FcallData 64} (hcall : call ∈ calls) (hbelow : ¬ call.resId < pageEnd) :
    call ∈ (fillPage pageEnd calls size).calls := by
  induction calls generalizing size with
  | nil => exact absurd hcall List.not_mem_nil
  | cons first calls ih =>
    have hmem : first.resId < pageEnd → call ∈ calls := fun hfirst =>
      (List.mem_cons.mp hcall).resolve_left (by rintro rfl; exact hbelow hfirst)
    rw [fillPage]
    split
    · rename_i hfirst
      simp only
      split
      · exact hmem hfirst
      · exact ih (hmem hfirst)
    · exact hcall

theorem nextPage_left {pageSize pageAddr overflow : BitVec 64} {calls : List (FcallData 64)}
    {call : FcallData 64} (hcall : call ∈ calls) (hbelow : ¬ call.resId < pageAddr + pageSize) :
    call ∈ (nextPage pageSize pageAddr overflow calls).calls := by
  unfold nextPage
  split
  · exact fillPage_left hcall hbelow
  · exact hcall

/-- The page where such an event begins gets the mark `*`. -/
theorem runMarks_beyond {events calls : List (FcallData 64)}
    {pageSize pageAddr overflow : BitVec 64} {n : Nat}
    (h : PagesInv events pageAddr.toNat overflow calls) (hint : pageSize.toNat < 2 ^ 31)
    (htop : pageAddr.toNat + n * pageSize.toNat + pageSize.toNat ≤ 2 ^ 64)
    {call : FcallData 64} (hcall : call ∈ calls) (hbeyond : ¬ EventFits call)
    (hin : call.resId.toNat < pageAddr.toNat + n * pageSize.toNat) :
    '*' ∈ runMarks pageSize n pageAddr overflow calls := by
  have hpos : 0 < call.resSize.toNat := by
    have := call.resId.isLt
    have : 2 ^ 64 ≤ call.resId.toNat + call.resSize.toNat := Nat.le_of_not_lt hbeyond
    omega
  induction n generalizing pageAddr overflow calls with
  | zero =>
    have := h.start call hcall hpos
    omega
  | succ n ih =>
    rw [Nat.add_mul, Nat.one_mul] at htop hin
    have hnext : pageAddr.toNat + pageSize.toNat < 2 ^ 64 := by
      have := h.start call hcall hpos
      omega
    have haddr : (pageAddr + pageSize).toNat = pageAddr.toNat + pageSize.toNat := by
      rw [BitVec.toNat_add, Nat.mod_eq_of_lt hnext]
    rw [runMarks]
    by_cases hbelow : call.resId.toNat < pageAddr.toNat + pageSize.toNat
    · -- it begins in this page
      refine List.mem_cons.mpr (.inl (pageMark_star ?_).symm)
      have hstart := h.start call hcall hpos
      have hlt : overflow < pageSize := by
        rw [BitVec.lt_def]
        omega
      have hov := h.overflow_lt
      have hbelow' : call.resId < pageAddr + pageSize := by
        rw [BitVec.lt_def, haddr]
        exact hbelow
      have hsize := fillPage_beyond (pageAddr.toNat + overflow.toNat) overflow (by rw [haddr]; omega)
        (by rw [haddr]; omega) h.behind h.sizes h.start hcall hbelow' hbeyond
      rw [nextPage, if_pos hlt]
      omega
    · -- it is left for a later page, and the events of this page fit
      refine List.mem_cons_of_mem _ ?_
      have hbehind : calls.Pairwise fun c c' => Behind c c' ∨ Behind c' c := h.behind.imp .inl
      have hfits : ∀ c ∈ calls, c.resId < pageAddr + pageSize → EventFits c := by
        intro c hc hcBelow
        rw [BitVec.lt_def, haddr] at hcBelow
        rcases hbehind.forall hc hcall (by rintro rfl; omega) with hbefore | hbefore
        · exact Nat.lt_of_le_of_lt (hbefore.2 hpos) call.resId.isLt
        · exact absurd hbefore.1 (by omega)
      obtain ⟨-, hinv, -⟩ := nextPage_spec h hint hnext hfits
      rw [← haddr] at hinv
      exact ih hinv (by rw [haddr]; omega)
        (nextPage_left hcall (by rw [BitVec.lt_def, haddr]; exact hbelow)) (by rw [haddr]; omega)

/-! ## The loop -/

/-- The loop ends when its fuel is more than the number of pages, if its
counter reaches it. -/
theorem writePages_eq (pageSize : BitVec 64) {pagesAll : BitVec 64} (fromAddr : BitVec 64)
    (hpages : pagesAll.toNat < 2 ^ 32) (fuel n page : Nat) (hn : page + n = pagesAll.toNat) (overflow : BitVec 64)
    (calls : List (FcallData 64)) :
    writePages pageSize pagesAll fromAddr fuel (BitVec.ofNat 32 page) overflow calls
      = if n < fuel then some (markedPages pageSize.toNat fromAddr.toNat page
          (runMarks pageSize n (BitVec.ofNat 64 (fromAddr.toNat + page * pageSize.toNat)) overflow
            calls))
        else none := by
  induction fuel generalizing n page overflow calls with
  | zero => rfl
  | succ fuel ih =>
    have hpage : ((BitVec.ofNat 32 page).setWidth 64).toNat = page := by
      rw [BitVec.toNat_setWidth, BitVec.toNat_ofNat, Nat.mod_eq_of_lt (by omega),
        Nat.mod_eq_of_lt (by omega)]
    have haddr : (BitVec.ofNat 32 page).setWidth 64 * pageSize + fromAddr
        = BitVec.ofNat 64 (fromAddr.toNat + page * pageSize.toNat) := by
      refine BitVec.eq_of_toNat_eq ?_
      rw [BitVec.toNat_add, BitVec.toNat_mul, hpage, BitVec.toNat_ofNat, Nat.mod_add_mod,
        Nat.add_comm]
    have hnextPage : BitVec.ofNat 32 page + 1 = BitVec.ofNat 32 (page + 1) :=
      (BitVec.ofNat_add page 1).symm
    have hnextAddr : BitVec.ofNat 64 (fromAddr.toNat + page * pageSize.toNat) + pageSize
        = BitVec.ofNat 64 (fromAddr.toNat + (page + 1) * pageSize.toNat) := by
      refine BitVec.eq_of_toNat_eq ?_
      rw [BitVec.toNat_add, BitVec.toNat_ofNat, BitVec.toNat_ofNat, Nat.mod_add_mod, Nat.add_mul,
        Nat.one_mul, Nat.add_assoc]
    rw [writePages]
    cases n with
    | zero =>
      rw [if_neg (by rw [BitVec.lt_def, hpage]; omega), if_pos (Nat.succ_pos fuel)]
      rfl
    | succ n =>
      rw [if_pos (by rw [BitVec.lt_def, hpage]; omega), haddr, hnextPage]
      simp only [Option.bind_eq_bind]
      rw [ih n (page + 1) (by omega)]
      by_cases hfuel : n < fuel
      · rw [if_pos hfuel, if_pos (Nat.succ_lt_succ hfuel), runMarks, hnextAddr]
        rfl
      · rw [if_neg hfuel, if_neg (by omega)]
        rfl

/-- The counter does not reach the number of pages. -/
theorem writePages_stuck {pageSize pagesAll fromAddr : BitVec 64}
    (hpages : 2 ^ 32 ≤ pagesAll.toNat) (fuel : Nat) (page : BitVec 32) (overflow : BitVec 64)
    (calls : List (FcallData 64)) :
    writePages pageSize pagesAll fromAddr fuel page overflow calls = none := by
  induction fuel generalizing page overflow calls with
  | zero => rfl
  | succ fuel ih =>
    have hlt : page.setWidth 64 < pagesAll := by
      rw [BitVec.lt_def, BitVec.toNat_setWidth]
      have := page.isLt
      omega
    rw [writePages, if_pos hlt]
    simp only [Option.bind_eq_bind]
    rw [ih]
    rfl

/-! ## The map -/

/-- A map shows its marks. -/
theorem markedPages_injective {pageSize fromAddr page : Nat} {marks marks' : List Char}
    (hlen : marks.length = marks'.length)
    (h : markedPages pageSize fromAddr page marks = markedPages pageSize fromAddr page marks') :
    marks = marks' := by
  induction marks generalizing page marks' with
  | nil => exact (List.length_eq_zero_iff.mp hlen.symm).symm
  | cons mark marks ih =>
    cases marks' with
    | nil => cases hlen
    | cons mark' marks' =>
      simp only [markedPages, pageText, List.append_assoc] at h
      have hrest := List.append_cancel_left h
      rw [List.singleton_append, List.singleton_append, List.cons.injEq] at hrest
      rw [hrest.1, ih (Nat.succ.inj hlen) hrest.2]

theorem markedMap_injective {pageSize : Nat} {area : MemoryArea} {marks marks' : List Char}
    (hlen : marks.length = marks'.length)
    (h : markedMap pageSize area marks = markedMap pageSize area marks') : marks = marks' := by
  simp only [markedMap, List.append_assoc] at h
  rw [List.append_cancel_left_eq, List.append_cancel_right_eq] at h
  exact markedPages_injective hlen h

theorem laidMarks_eq (pageSize : Nat) (events : List (FcallData 64)) (fromAddr page n : Nat) :
    laidMarks pageSize events n (fromAddr + page * pageSize)
      = (List.range' page n).map fun p =>
          densityMark pageSize (laid events (pageRange pageSize fromAddr p)) := by
  induction n generalizing page with
  | zero => rfl
  | succ n ih =>
    have hnext : fromAddr + page * pageSize + pageSize = fromAddr + (page + 1) * pageSize := by
      rw [Nat.add_mul, Nat.one_mul, Nat.add_assoc]
    rw [laidMarks, List.range'_succ, List.map_cons, ← ih, ← hnext]
    rfl

section Input

variable {pageSize : Nat} {area : MemoryArea} (h : DensityInput pageSize area)

include h

theorem DensityInput.laid_eq (window : Range) :
    laid area.events window = covered (area.events.map eventRange) window := by
  rw [covered_eq_sum h.apart, laid, List.map_map]
  rfl

theorem DensityInput.behind : area.events.Pairwise Behind := by
  refine (h.sorted.and (List.pairwise_map.mp h.apart)).imp fun hboth => ?_
  exact ⟨hboth.1, fun hpos => hboth.2.stop_le (Nat.lt_add_of_pos_right hpos) hboth.1⟩

/-- The invariant before the first page. -/
theorem DensityInput.inv : PagesInv area.events area.fromAddr.toNat 0 area.events where
  behind := h.behind
  sizes := h.sizes
  overflow_lt := by decide
  start call hcall _ := by
    have hin := h.inside call hcall
    simp only [MemoryArea.contains, decide_eq_true_eq, BitVec.le_def] at hin
    simpa using hin.1
  laid_eq window _ := by simp [overlap_empty]

theorem DensityInput.page_int : 0 < pageSize ∧ pageSize < 2 ^ 31 := by
  obtain ⟨k, hk, rfl⟩ := h.page_pow
  exact ⟨Nat.two_pow_pos k, Nat.pow_lt_pow_right (by decide) hk⟩

theorem DensityInput.pages :
    area.toAddr.toNat
      = area.fromAddr.toNat + (area.toAddr.toNat - area.fromAddr.toNat) / pageSize * pageSize := by
  have hle := h.from_le
  rw [Nat.div_mul_cancel (Nat.dvd_sub h.to_page h.from_page)]
  omega

/-- The last page of the address space is not in the area. -/
theorem DensityInput.top : area.toAddr.toNat + pageSize ≤ 2 ^ 64 := by
  obtain ⟨k, hk, hpow⟩ := h.page_pow
  obtain ⟨m, hm⟩ := h.to_page
  have hlt := area.toAddr.isLt
  have hspace : (2 : Nat) ^ 64 = pageSize * 2 ^ (64 - k) := by
    rw [hpow, ← Nat.pow_add]
    congr 1
    omega
  rw [hm, hspace] at hlt ⊢
  have hpages : m < 2 ^ (64 - k) := Nat.lt_of_mul_lt_mul_left hlt
  calc pageSize * m + pageSize = pageSize * (m + 1) := (Nat.mul_succ _ _).symm
    _ ≤ pageSize * 2 ^ (64 - k) := Nat.mul_le_mul_left _ hpages

/-- The marks are right exactly if every event fits. -/
theorem DensityInput.runMarks_iff :
    runMarks (BitVec.ofNat 64 pageSize) ((area.toAddr.toNat - area.fromAddr.toNat) / pageSize)
        area.fromAddr 0 area.events = densityMarks pageSize area ↔
      ∀ call ∈ area.events, EventFits call := by
  obtain ⟨hpos, hint⟩ := h.page_int
  have hsize : (BitVec.ofNat 64 pageSize).toNat = pageSize := by
    rw [BitVec.toNat_ofNat]
    exact Nat.mod_eq_of_lt (by omega)
  have hpages := h.pages
  have htop := h.top
  have hle : ∀ window : Range, laid area.events window ≤ window.stop - window.start := fun window =>
    h.laid_eq window ▸ covered_le _ window
  have hmarks : densityMarks pageSize area = laidMarks pageSize area.events
      ((area.toAddr.toNat - area.fromAddr.toNat) / pageSize) area.fromAddr.toNat := by
    have := laidMarks_eq pageSize area.events area.fromAddr.toNat 0
      ((area.toAddr.toNat - area.fromAddr.toNat) / pageSize)
    rw [Nat.zero_mul, Nat.add_zero] at this
    simp only [this, densityMarks, h.laid_eq, List.range_eq_range']
  rw [hmarks]
  constructor
  · -- the mark of an event that does not fit is not the mark of any number of bytes
    intro heq call hcall
    by_contra hbeyond
    have hin := h.inside call hcall
    simp only [MemoryArea.contains, decide_eq_true_eq, BitVec.lt_def] at hin
    have hstar := runMarks_beyond h.inv (by rw [hsize]; exact hint)
      (by rw [hsize, ← hpages]; exact htop) hcall hbeyond (by rw [hsize, ← hpages]; exact hin.2)
    rw [heq, ← hmarks, densityMarks, List.mem_map] at hstar
    obtain ⟨page, -, hpage⟩ := hstar
    refine (densityMark_spec ?_).2.2.2 hpage
    have := covered_le (area.events.map eventRange) (pageRange pageSize area.fromAddr.toNat page)
    simp only [pageRange] at this ⊢
    omega
  · intro hfits
    have := runMarks_eq (n := (area.toAddr.toNat - area.fromAddr.toNat) / pageSize) h.inv
      (by rw [hsize]; exact hint) (by rw [hsize]; omega) hle hfits
    rw [this, hsize]

/-- **The density map** has for every page the mark of the number of its
bytes that are covered exactly if there are fewer than 2^32 pages and no
event goes beyond the address space. -/
theorem writeMemoryMap_iff :
    (∃ fuel, writeMemoryMap fuel (BitVec.ofNat 64 pageSize) area
      = some (markedMap pageSize area (densityMarks pageSize area))) ↔
    (area.toAddr.toNat - area.fromAddr.toNat) / pageSize < 2 ^ 32 ∧
      ∀ call ∈ area.events, EventFits call := by
  obtain ⟨hpos, hint⟩ := h.page_int
  have hsize : (BitVec.ofNat 64 pageSize).toNat = pageSize := by
    rw [BitVec.toNat_ofNat]
    exact Nat.mod_eq_of_lt (by omega)
  have hpagesAll : ((area.toAddr - area.fromAddr) / BitVec.ofNat 64 pageSize).toNat
      = (area.toAddr.toNat - area.fromAddr.toNat) / pageSize := by
    rw [BitVec.toNat_udiv, BitVec.toNat_sub_of_le h.from_le, hsize]
  by_cases hpages : (area.toAddr.toNat - area.fromAddr.toNat) / pageSize < 2 ^ 32
  · have hrun : ∀ fuel, writeMemoryMap fuel (BitVec.ofNat 64 pageSize) area
        = if (area.toAddr.toNat - area.fromAddr.toNat) / pageSize < fuel then
            some (markedMap pageSize area (runMarks (BitVec.ofNat 64 pageSize)
              ((area.toAddr.toNat - area.fromAddr.toNat) / pageSize) area.fromAddr 0 area.events))
          else none := by
      intro fuel
      have hloop := writePages_eq (BitVec.ofNat 64 pageSize) area.fromAddr (hpagesAll ▸ hpages) fuel
        ((area.toAddr.toNat - area.fromAddr.toNat) / pageSize) 0
        (by rw [hpagesAll, Nat.zero_add]) 0 area.events
      rw [Nat.zero_mul, Nat.add_zero, BitVec.ofNat_toNat, BitVec.setWidth_eq, hsize] at hloop
      simp only [writeMemoryMap, Option.bind_eq_bind]
      rw [show (0 : BitVec 32) = BitVec.ofNat 32 0 from rfl, hloop]
      split <;> rfl
    rw [and_iff_right hpages, ← h.runMarks_iff]
    constructor
    · intro hright
      obtain ⟨fuel, hright⟩ := hright
      rw [hrun] at hright
      split at hright
      · exact markedMap_injective (by simp [runMarks_length, densityMarks])
          (Option.some.inj hright)
      · cases hright
    · intro hmarks
      exact ⟨_, by rw [hrun, if_pos (Nat.lt_succ_self _), hmarks]⟩
  · refine iff_of_false (fun hright => ?_) fun hright => hpages hright.1
    obtain ⟨fuel, hright⟩ := hright
    simp only [writeMemoryMap, Option.bind_eq_bind,
      writePages_stuck (by rw [hpagesAll]; omega), Option.bind_none] at hright
    cases hright

end Input

/-! ## Two areas -/

/-- An allocation of some bytes at an address. -/
def allocation (resId : BitVec 64) (resSize : BitVec 32) : FcallData 64 :=
  { index := 1, type := 1, context := 0, timestamp := 0, name := "malloc".toList, resType := none,
    resId, resSize }

/-- Three pages, with a block that covers the last bytes of the first page
and the second one. -/
def blockArea : MemoryArea where
  fromAddr := 0x1000
  toAddr := 0x4000
  flags := none
  path := []
  events := [allocation 0x1ff0 0x1010]

def bigArea : MemoryArea where
  fromAddr := 0x100000000000
  toAddr := 0x200000000000
  flags := none
  path := []
  events := []

/-- The last but one page of the address space, and a block of three pages
in it. -/
def topArea : MemoryArea where
  fromAddr := 0xffffffffffffe000
  toAddr := 0xfffffffffffff000
  flags := none
  path := []
  events := [allocation 0xffffffffffffe000 0x3000]

theorem densityInput_one {fromAddr toAddr resId : BitVec 64} {resSize : BitVec 32}
    (h : fromAddr.toNat ≤ toAddr.toNat ∧ 4096 ∣ fromAddr.toNat ∧ 4096 ∣ toAddr.toNat ∧
      (fromAddr ≤ resId ∧ resId < toAddr) ∧ resSize.toNat < 2 ^ 31) :
    DensityInput 4096
      { fromAddr, toAddr, flags := none, path := [], events := [allocation resId resSize] } where
  page_pow := ⟨12, by decide, rfl⟩
  from_le := h.1
  from_page := h.2.1
  to_page := h.2.2.1
  inside call hcall := by
    rw [List.mem_singleton.mp hcall]
    exact decide_eq_true h.2.2.2.1
  sizes call hcall := by
    rw [List.mem_singleton.mp hcall]
    exact h.2.2.2.2
  sorted := List.pairwise_singleton _ _
  apart := List.pairwise_singleton _ _

/-- The map of the three pages is right. -/
theorem writeMemoryMap_iff_block :
    ∃ fuel, writeMemoryMap fuel 4096 blockArea
      = some (markedMap 4096 blockArea (densityMarks 4096 blockArea)) :=
  (writeMemoryMap_iff (densityInput_one (by decide))).mpr ⟨by decide, fun call hcall => by
    rw [List.mem_singleton.mp hcall]
    unfold EventFits
    decide⟩

/-- The map of 2^32 pages does not end, and the page of a block that goes
beyond the address space gets the mark `*`. -/
theorem writeMemoryMap_beyond :
    DensityInput 4096 bigArea ∧ (∀ fuel, writeMemoryMap fuel 4096 bigArea = none) ∧
    DensityInput 4096 topArea ∧
      writeMemoryMap 2 4096 topArea = some (markedMap 4096 topArea ['*']) := by
  refine ⟨?_, fun fuel => ?_, densityInput_one (by decide), by decide⟩
  · exact
      { page_pow := ⟨12, by decide, rfl⟩, from_le := by decide, from_page := by decide,
        to_page := by decide, inside := fun call hcall => absurd hcall List.not_mem_nil,
        sizes := fun call hcall => absurd hcall List.not_mem_nil, sorted := .nil, apart := .nil }
  · have hpages : 2 ^ 32 ≤ ((bigArea.toAddr - bigArea.fromAddr) / 4096).toNat := by decide
    simp only [writeMemoryMap, Option.bind_eq_bind, writePages_stuck hpages, Option.bind_none]

end SpRtrace.Pagemap
