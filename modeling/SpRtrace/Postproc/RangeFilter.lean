/-
SpRtrace.Postproc.RangeFilter — the code address range filter,
`filter_call_address_range` of `src/rtrace-postproc/filter.c`.

The first mapping of the target gives the base of the range. The code
keeps what it has found in `filter.start` alone, so a base of zero counts
as not found: the search goes on, and if it finds nothing else the filter
gives up. The end of the range is a sum modulo 2^w; a range up to or
beyond the last address is empty. A call without a backtrace is followed
through a NULL pointer.

`filterCallAddressRange_iff` compares all that with the range of the
option in unbounded integers. The only condition in the usual case is
that every call has a backtrace.
-/
import SpRtrace.Library.Formatter
import SpRtrace.Common.RtraceDataTheorems

namespace SpRtrace.Postproc

open SpRtrace.Common SpRtrace.Library

variable {w : Nat}

/-! ## The filter of the source -/

/-- `postproc_options.filter_range_target`, `_start` and `_size`. -/
structure RangeOptions (w : Nat) where
  target : Str
  start : BitVec w
  size : BitVec w

/-- `call_address_filter_t` without `rd`. -/
structure CallAddressFilter (w : Nat) where
  start : BitVec w
  size : BitVec w

/-- The start address a mapping gives. `isAbsolute` is
`rs_mmap_is_absolute`, `none` is an error; the code tests for zero only. -/
def rangeStart (opts : RangeOptions w) (isAbsolute : Str → Option Bool) (mmap : Mmap w) : BitVec w :=
  opts.start + (if isAbsolute mmap.moduleName = some false then mmap.fromAddr else 0)

def mmapLookupFilterRangeTarget (opts : RangeOptions w) (isAbsolute : Str → Option Bool)
    (mmap : Mmap w) (filter : CallAddressFilter w) : CallAddressFilter w :=
  if strstr mmap.moduleName opts.target then
    { start := rangeStart opts isAbsolute mmap, size := opts.size }
  else filter

/-- `mmap_lookup_filter_range_target_found`: the search goes on. -/
def mmapLookupFilterRangeTargetFound (filter : CallAddressFilter w) : Bool := filter.start = 0

/-- `dlist_foreach2_in` from the first node. -/
def dlistForeach2In {ν σ : Type} (doWhile : σ → Bool) (doWhat : ν → σ → σ) : List ν → σ → σ
  | [], s => s
  | node :: rest, s =>
      if doWhile s then dlistForeach2In doWhile doWhat rest (doWhat node s) else s

/-- `address >= filter->start && address < filter->start + filter->size`. -/
def CallAddressFilter.covers (filter : CallAddressFilter w) (address : BitVec w) : Bool :=
  decide (filter.start ≤ address) && decide (address < filter.start + filter.size)

/-- `fcall_filter_range`. The loop counts in an `unsigned int`: with 2^32
frames or more it does not end unless it finds an address. -/
def fcallFilterRange (filter : CallAddressFilter w) (call : Nat) (rd : Rd w) : Option (Rd w) := do
  let t ← rd.ftrace (← (← rd.fcall call).trace)
  if (t.frames.take (2 ^ 32)).any fun f => filter.covers f.addr then some rd
  else if t.frames.length < 2 ^ 32 then rdFcallRemove rd call
  else none

def filterCallAddressRange (opts : RangeOptions w) (isAbsolute : Str → Option Bool) (rd : Rd w) :
    Option (Rd w) :=
  let filter := dlistForeach2In mmapLookupFilterRangeTargetFound
    (mmapLookupFilterRangeTarget opts isAbsolute) rd.mmaps { start := 0, size := 0 }
  if filter.start = 0 then some rd
  else dlistForeach2 (fun rd : Rd w => rd.calls) (fcallFilterRange filter) rd

/-! ## What the filter is to do -/

/-- The frames of the backtrace of a call. -/
def tracedFrames (rd : Rd w) (call : Nat) : Option (List (Frame w)) :=
  (((rd.fcall call).bind Fcall.trace).bind rd.ftrace).map Ftrace.frames

/-- The address lies in the `size` addresses from `base` on. -/
def inRange (base size : Nat) (address : BitVec w) : Bool :=
  decide (base ≤ address.toNat) && decide (address.toNat < base + size)

/-- The call has a backtrace with an address of the range. -/
def hitsRange (rd : Rd w) (base size : Nat) (call : Nat) : Bool :=
  ((tracedFrames rd call).getD []).any fun f => inRange base size f.addr

/-- The module of the mapping is the target. -/
def targets (opts : RangeOptions w) (mmap : Mmap w) : Bool := strstr mmap.moduleName opts.target

/-- The base of the range: the start, plus the address of the mapping
unless its module is absolute. -/
def rangeBase (opts : RangeOptions w) (absolute : Str → Bool) (mmap : Mmap w) : Nat :=
  opts.start.toNat + if absolute mmap.moduleName then 0 else mmap.fromAddr.toNat

/-- The filter keeps the calls of the range of the first mapping of the
target, and all calls if there is none. -/
def RangeFiltered (opts : RangeOptions w) (isAbsolute : Str → Option Bool) (absolute : Str → Bool)
    (rd : Rd w) : Prop :=
  ∃ rd', filterCallAddressRange opts isAbsolute rd = some rd' ∧
    rd'.calls = match rd.mmaps.find? (targets opts) with
      | none => rd.calls
      | some mmap => rd.calls.filter (hitsRange rd (rangeBase opts absolute mmap) opts.size.toNat)

/-! ## The mapping that is found -/

/-- The first mapping of the target whose start address is not zero. -/
def foundMmap (opts : RangeOptions w) (isAbsolute : Str → Option Bool) (mmaps : List (Mmap w)) :
    Option (Mmap w) :=
  mmaps.find? fun mmap => targets opts mmap && decide (rangeStart opts isAbsolute mmap ≠ 0)

theorem dlistForeach2In_stop {ν σ : Type} {doWhile : σ → Bool} {doWhat : ν → σ → σ} {s : σ}
    (h : doWhile s = false) (list : List ν) : dlistForeach2In doWhile doWhat list s = s := by
  cases list <;> simp [dlistForeach2In, h]

/-- The search ends with the mapping found, or with a start of zero. -/
theorem lookup_eq (opts : RangeOptions w) (isAbsolute : Str → Option Bool) {mmaps : List (Mmap w)}
    {filter : CallAddressFilter w} (h : filter.start = 0) :
    match foundMmap opts isAbsolute mmaps with
    | none => (dlistForeach2In mmapLookupFilterRangeTargetFound
        (mmapLookupFilterRangeTarget opts isAbsolute) mmaps filter).start = 0
    | some mmap => dlistForeach2In mmapLookupFilterRangeTargetFound
        (mmapLookupFilterRangeTarget opts isAbsolute) mmaps filter
          = { start := rangeStart opts isAbsolute mmap, size := opts.size } ∧
        rangeStart opts isAbsolute mmap ≠ 0 := by
  induction mmaps generalizing filter with
  | nil => exact h
  | cons mmap mmaps ih =>
    have hgo : mmapLookupFilterRangeTargetFound filter = true := by
      simp [mmapLookupFilterRangeTargetFound, h]
    rw [dlistForeach2In, if_pos hgo]
    unfold foundMmap at ih ⊢
    by_cases htarget : targets opts mmap = true
    · have hstep : mmapLookupFilterRangeTarget opts isAbsolute mmap filter
          = { start := rangeStart opts isAbsolute mmap, size := opts.size } := if_pos htarget
      by_cases hzero : rangeStart opts isAbsolute mmap = 0
      · rw [List.find?_cons_of_neg (by simp [hzero])]
        exact ih (by rw [hstep]; exact hzero)
      · rw [List.find?_cons_of_pos (by simpa [htarget] using hzero), hstep,
          dlistForeach2In_stop (by simpa [mmapLookupFilterRangeTargetFound] using hzero)]
        exact ⟨rfl, hzero⟩
    · have hstep : mmapLookupFilterRangeTarget opts isAbsolute mmap filter = filter := if_neg htarget
      rw [List.find?_cons_of_neg (by simp [htarget]), hstep]
      exact ih h

/-! ## One call -/

/-- The loop over the frames of the call comes to an end. -/
def Scanned (filter : CallAddressFilter w) (frames : List (Frame w)) : Prop :=
  (frames.take (2 ^ 32)).any (fun f => filter.covers f.addr) = true ∨ frames.length < 2 ^ 32

theorem tracedFrames_eq_some {rd : Rd w} {call : Nat} {frames : List (Frame w)} :
    tracedFrames rd call = some frames ↔ ∃ x t y, rd.fcall call = some x ∧ x.trace = some t ∧
      rd.ftrace t = some y ∧ y.frames = frames := by
  simp only [tracedFrames, Option.map_eq_some_iff, Option.bind_eq_some_iff]
  constructor
  · rintro ⟨y, ⟨t, ⟨x, hx, ht⟩, hy⟩, hf⟩
    exact ⟨x, t, y, hx, ht, hy, hf⟩
  · rintro ⟨x, t, y, hx, ht, hy, hf⟩
    exact ⟨y, ⟨t, ⟨x, hx, ht⟩, hy⟩, hf⟩

/-- A call is left alone when the range covers a frame, and removed
otherwise. -/
theorem fcallFilterRange_scanned {filter : CallAddressFilter w} {rd : Rd w} {call : Nat}
    {frames : List (Frame w)} (hf : tracedFrames rd call = some frames) (hs : Scanned filter frames) :
    fcallFilterRange filter call rd
      = if frames.any fun f => filter.covers f.addr then some rd else rdFcallRemove rd call := by
  obtain ⟨x, t, y, hx, ht, hy, rfl⟩ := tracedFrames_eq_some.mp hf
  simp only [fcallFilterRange, hx, ht, hy, Option.bind_eq_bind, Option.bind_some]
  rcases hs with hany | hlt
  · have hall : y.frames.any (fun f => filter.covers f.addr) = true := by
      obtain ⟨f, hmem, hcov⟩ := List.any_eq_true.mp hany
      exact List.any_eq_true.mpr ⟨f, List.mem_of_mem_take hmem, hcov⟩
    rw [if_pos hany, if_pos hall]
  · rw [List.take_of_length_le (by omega), if_pos hlt]

/-- The other calls make the callback fail: no backtrace, or a loop
without an end. -/
theorem fcallFilterRange_fails {filter : CallAddressFilter w} {rd : Rd w} {call : Nat}
    (h : ¬ ∃ frames, tracedFrames rd call = some frames ∧ Scanned filter frames) :
    fcallFilterRange filter call rd = none := by
  cases hx : rd.fcall call with
  | none => simp [fcallFilterRange, hx]
  | some x =>
    cases ht : x.trace with
    | none => simp [fcallFilterRange, hx, ht]
    | some t =>
      cases hy : rd.ftrace t with
      | none => simp [fcallFilterRange, hx, ht, hy]
      | some y =>
        have hf : tracedFrames rd call = some y.frames :=
          tracedFrames_eq_some.mpr ⟨x, t, y, hx, ht, hy, rfl⟩
        have hs : ¬ Scanned filter y.frames := fun hs => h ⟨_, hf, hs⟩
        rw [Scanned, not_or] at hs
        simp only [fcallFilterRange, hx, ht, hy, Option.bind_eq_bind, Option.bind_some, if_neg hs.1,
          if_neg hs.2]

/-- The frames of the calls that are left are not affected by a removal. -/
theorem tracedFrames_removes {rd rd' : Rd w} {call c : Nat} (hint : rd.Integrity)
    (h : rd.Removes call rd') (hc : c ∈ rd'.calls) : tracedFrames rd' c = tracedFrames rd c := by
  have hfcall := h.fcall_left hint c hc
  obtain ⟨x, hx⟩ := h.integrity.call_live c hc
  cases ht : x.trace with
  | none => simp [tracedFrames, ← hfcall, hx, ht]
  | some t =>
    obtain ⟨hst, r, y, -, hy, -⟩ := h.integrity.call_trace c hc x t hx ht
    obtain ⟨z, hz, hframes, -⟩ := h.frames t y hst hy
    rw [tracedFrames_eq_some.mpr ⟨x, t, y, hx, ht, hy, rfl⟩,
      tracedFrames_eq_some.mpr ⟨x, t, z, hfcall ▸ hx, ht, hz, rfl⟩, hframes]

/-! ## The run over the calls -/

def coveredCall (filter : CallAddressFilter w) (rd : Rd w) (call : Nat) : Bool :=
  ((tracedFrames rd call).getD []).any fun f => filter.covers f.addr

/-- After the calls `calls` have been visited and `rest` has not. -/
structure RangeSim (filter : CallAddressFilter w) (rd : Rd w) (calls rest : List Nat) (rd' : Rd w) :
    Prop where
  integrity : rd'.Integrity
  all : rd.calls = calls ++ rest
  left : rd'.calls = calls.filter (coveredCall filter rd) ++ rest
  frames : ∀ c ∈ rd'.calls, tracedFrames rd' c = tracedFrames rd c
  scanned : ∀ c ∈ calls, ∃ frames, tracedFrames rd c = some frames ∧ Scanned filter frames

theorem RangeSim.nodes {filter : CallAddressFilter w} {rd rd' : Rd w} {calls rest : List Nat}
    (h : RangeSim filter rd calls rest rd') :
    ∃ pre, rd'.calls = pre ++ rest ∧ rd'.calls.Nodup :=
  ⟨_, h.left, h.integrity.calls_nodup⟩

theorem RangeSim.step {filter : CallAddressFilter w} {rd rd' : Rd w} {calls rest : List Nat}
    {call : Nat} (h : RangeSim filter rd calls (call :: rest) rd') {frames : List (Frame w)}
    (hf : tracedFrames rd call = some frames) (hs : Scanned filter frames) :
    ∃ rd'', fcallFilterRange filter call rd' = some rd'' ∧
      RangeSim filter rd (calls ++ [call]) rest rd'' := by
  have hmem : call ∈ rd'.calls := by rw [h.left]; simp
  have hnot : call ∉ calls.filter (coveredCall filter rd) := by
    intro hm
    have hnd := h.integrity.calls_nodup
    rw [h.left, List.nodup_append] at hnd
    exact hnd.2.2 call hm call (by simp) rfl
  have hall : rd.calls = (calls ++ [call]) ++ rest := by rw [h.all, List.append_assoc]; rfl
  have hscanned : ∀ c ∈ calls ++ [call], ∃ frames, tracedFrames rd c = some frames ∧
      Scanned filter frames := by
    intro c hc
    rcases List.mem_append.mp hc with hc | hc
    · exact h.scanned c hc
    · obtain rfl := List.mem_singleton.mp hc
      exact ⟨frames, hf, hs⟩
  have hcov : coveredCall filter rd call = frames.any fun f => filter.covers f.addr := by
    rw [coveredCall, hf, Option.getD_some]
  rw [fcallFilterRange_scanned ((h.frames call hmem).trans hf) hs]
  cases hany : frames.any fun f => filter.covers f.addr with
  | true =>
    refine ⟨rd', if_pos rfl, h.integrity, hall, ?_, h.frames, hscanned⟩
    rw [h.left, List.filter_append, List.filter_cons_of_pos (by rw [hcov, hany]), List.filter_nil,
      List.append_assoc]
    rfl
  | false =>
    obtain ⟨rd'', hrem, hspec⟩ := rdFcallRemove_spec h.integrity hmem
    refine ⟨rd'', by rw [if_neg (by simp)]; exact hrem, hspec.integrity, hall, ?_, ?_, hscanned⟩
    · rw [hspec.calls, h.left, List.erase_append_right _ hnot, List.erase_cons_head,
        List.filter_append, List.filter_cons_of_neg (by rw [hcov, hany]; simp), List.filter_nil,
        List.append_nil]
    · intro c hc
      have hc' : c ∈ rd'.calls := by
        rw [hspec.calls] at hc
        exact List.mem_of_mem_erase hc
      rw [tracedFrames_removes h.integrity hspec hc, h.frames c hc']

/-- **The run over the calls** ends exactly when every call can be
scanned, and keeps the covered calls. -/
theorem foreachRange_iff {filter : CallAddressFilter w} {rd : Rd w} (h : rd.Integrity)
    (kept : List Nat) :
    (∃ rd', dlistForeach2 (fun rd : Rd w => rd.calls) (fcallFilterRange filter) rd = some rd' ∧
      rd'.calls = kept) ↔
    (∀ c ∈ rd.calls, ∃ frames, tracedFrames rd c = some frames ∧ Scanned filter frames) ∧
      rd.calls.filter (coveredCall filter rd) = kept := by
  have hstart : RangeSim filter rd [] rd.calls rd :=
    ⟨h, rfl, rfl, fun _ _ => rfl, fun _ hc => absurd hc (by simp)⟩
  have hend : ∀ {calls : List Nat} {rd' : Rd w}, RangeSim filter rd calls [] rd' →
      (∀ c ∈ rd.calls, ∃ frames, tracedFrames rd c = some frames ∧ Scanned filter frames) ∧
        rd'.calls = rd.calls.filter (coveredCall filter rd) := by
    intro calls rd' hsim
    have hall := hsim.all
    rw [List.append_nil] at hall
    have hleft := hsim.left
    rw [List.append_nil] at hleft
    rw [hall]
    exact ⟨hsim.scanned, hleft⟩
  constructor
  · rintro ⟨rd', hrun, rfl⟩
    obtain ⟨calls, hsim⟩ := dlistForeach2_ends
      (I := fun rest rd' => ∃ calls, RangeSim filter rd calls rest rd')
      (fun rest rd' hI => hI.elim fun _ hsim => hsim.nodes)
      (fun call rest rd₁ rd₂ hI hstep => by
        obtain ⟨calls, hsim⟩ := hI
        by_contra hno
        have hmem : call ∈ rd₁.calls := by rw [hsim.left]; simp
        have hscan : ∃ frames, tracedFrames rd call = some frames ∧ Scanned filter frames := by
          by_contra hnone
          rw [← hsim.frames call hmem] at hnone
          rw [fcallFilterRange_fails hnone] at hstep
          cases hstep
        obtain ⟨frames, hf, hs⟩ := hscan
        obtain ⟨rd'', heq, hsim'⟩ := hsim.step hf hs
        obtain rfl := Option.some.inj (heq.symm.trans hstep)
        exact hno ⟨_, hsim'⟩)
      ⟨[], hstart⟩ hrun
    exact ⟨(hend hsim).1, (hend hsim).2.symm⟩
  · rintro ⟨hscan, rfl⟩
    obtain ⟨rd', hrun, calls, hsim⟩ := dlistForeach2_total
      (I := fun rest rd' => ∃ calls, RangeSim filter rd calls rest rd')
      (fun rest rd' hI => hI.elim fun _ hsim => hsim.nodes)
      (fun call rest rd₁ hI => by
        obtain ⟨calls, hsim⟩ := hI
        obtain ⟨frames, hf, hs⟩ := hscan call (by rw [hsim.all]; simp)
        obtain ⟨rd₂, heq, hsim'⟩ := hsim.step hf hs
        exact ⟨rd₂, heq, _, hsim'⟩)
      (s := rd) ⟨[], hstart⟩
    exact ⟨rd', hrun, (hend hsim).2⟩

/-! ## The range in unbounded integers -/

/-- The number of addresses that are covered from the start on: none, when
the end wraps around. -/
def coveredSize (start size : BitVec w) : Nat :=
  if start.toNat + size.toNat < 2 ^ w then size.toNat else 0

theorem covers_eq (filter : CallAddressFilter w) (address : BitVec w) :
    filter.covers address
      = inRange filter.start.toNat (coveredSize filter.start filter.size) address := by
  have hstart := filter.start.isLt
  have hsize := filter.size.isLt
  rw [Bool.eq_iff_iff]
  simp only [CallAddressFilter.covers, inRange, BitVec.le_def, BitVec.lt_def, BitVec.toNat_add,
    coveredSize, Bool.and_eq_true, decide_eq_true_eq]
  split
  · rw [Nat.mod_eq_of_lt (by assumption), decide_eq_true_eq]
  · -- the end wraps around and lies in front of the start
    have hwrap : (filter.start.toNat + filter.size.toNat) % 2 ^ w
        = filter.start.toNat + filter.size.toNat - 2 ^ w := by
      rw [Nat.mod_eq_sub_mod (by omega), Nat.mod_eq_of_lt (by omega)]
    rw [hwrap, decide_eq_true_eq]
    omega

theorem coveredCall_eq (filter : CallAddressFilter w) (rd : Rd w) (call : Nat) :
    coveredCall filter rd call
      = hitsRange rd filter.start.toNat (coveredSize filter.start filter.size) call := by
  simp only [coveredCall, hitsRange, covers_eq]

theorem filter_eq_filter_iff {α : Type} {p q : α → Bool} {l : List α} :
    l.filter p = l.filter q ↔ ∀ a ∈ l, p a = q a := by
  constructor
  · intro h a ha
    have hmem : (a ∈ l ∧ p a = true) ↔ (a ∈ l ∧ q a = true) := by
      rw [← List.mem_filter, ← List.mem_filter, h]
    rw [Bool.eq_iff_iff]
    simpa [ha] using hmem
  · exact List.filter_congr

/-- When the filter does what it is to do. If the search comes to nothing
all calls are kept, so they must all belong to the range; otherwise every
call must have a backtrace to look at, and no call may tell the range that
is looked at from the right one. -/
def RangeHolds (opts : RangeOptions w) (isAbsolute : Str → Option Bool) (absolute : Str → Bool)
    (rd : Rd w) : Prop :=
  match rd.mmaps.find? (targets opts) with
  | none => True
  | some mmap =>
      match foundMmap opts isAbsolute rd.mmaps with
      | none => ∀ c ∈ rd.calls, hitsRange rd (rangeBase opts absolute mmap) opts.size.toNat c = true
      | some found =>
          let start := rangeStart opts isAbsolute found
          (∀ c ∈ rd.calls, ∃ frames, tracedFrames rd c = some frames ∧
            Scanned { start, size := opts.size } frames) ∧
          ∀ c ∈ rd.calls, hitsRange rd start.toNat (coveredSize start opts.size) c
            = hitsRange rd (rangeBase opts absolute mmap) opts.size.toNat c

/-- The usual case: the module file can be read, and the range neither
begins at address zero nor reaches the last address. -/
structure RangeFits (opts : RangeOptions w) (isAbsolute : Str → Option Bool) (absolute : Str → Bool)
    (mmap : Mmap w) : Prop where
  known : isAbsolute mmap.moduleName = some (absolute mmap.moduleName)
  pos : 0 < rangeBase opts absolute mmap
  top : rangeBase opts absolute mmap + opts.size.toNat < 2 ^ w

theorem RangeFits.start {opts : RangeOptions w} {isAbsolute : Str → Option Bool}
    {absolute : Str → Bool} {mmap : Mmap w} (h : RangeFits opts isAbsolute absolute mmap) :
    (rangeStart opts isAbsolute mmap).toNat = rangeBase opts absolute mmap := by
  have htop := h.top
  have hoff : (if isAbsolute mmap.moduleName = some false then mmap.fromAddr else 0).toNat
      = if absolute mmap.moduleName then 0 else mmap.fromAddr.toNat := by
    rw [h.known]
    cases absolute mmap.moduleName <;> simp
  rw [rangeStart, BitVec.toNat_add, hoff]
  exact Nat.mod_eq_of_lt (Nat.lt_of_le_of_lt (Nat.le_add_right _ _) htop)

/-- A mapping that fits is found by the search. -/
theorem RangeFits.found {opts : RangeOptions w} {isAbsolute : Str → Option Bool}
    {absolute : Str → Bool} {mmap : Mmap w} (h : RangeFits opts isAbsolute absolute mmap)
    {mmaps : List (Mmap w)} (hfirst : mmaps.find? (targets opts) = some mmap) :
    foundMmap opts isAbsolute mmaps = some mmap := by
  have hne : rangeStart opts isAbsolute mmap ≠ 0 := by
    intro hzero
    have hstart := h.start
    rw [hzero] at hstart
    have hpos := h.pos
    rw [← hstart] at hpos
    exact absurd hpos (by simp)
  rw [List.find?_eq_some_iff_append] at hfirst
  obtain ⟨htarget, front, back, rfl, hfront⟩ := hfirst
  rw [foundMmap, List.find?_eq_some_iff_append]
  refine ⟨by simpa [htarget] using hne, front, back, rfl, fun m hm => ?_⟩
  simp [hfront m hm]

theorem filterCallAddressRange_eq (opts : RangeOptions w) (isAbsolute : Str → Option Bool)
    (rd : Rd w) : filterCallAddressRange opts isAbsolute rd
      = match foundMmap opts isAbsolute rd.mmaps with
        | none => some rd
        | some mmap => dlistForeach2 (fun rd : Rd w => rd.calls) (fcallFilterRange
            { start := rangeStart opts isAbsolute mmap, size := opts.size }) rd := by
  have hstart : ({ start := 0, size := 0 } : CallAddressFilter w).start = 0 := rfl
  have hlookup := @lookup_eq w opts isAbsolute rd.mmaps _ hstart
  unfold filterCallAddressRange
  cases hfound : foundMmap opts isAbsolute rd.mmaps with
  | none =>
    rw [hfound] at hlookup
    exact if_pos hlookup
  | some mmap =>
    rw [hfound] at hlookup
    obtain ⟨heq, hne⟩ := hlookup
    rw [heq]
    exact if_neg hne

/-- **The code range filter** is right exactly under `RangeHolds`, and
where the range fits that says no more than that every call has a
backtrace that can be scanned. -/
theorem filterCallAddressRange_iff (opts : RangeOptions w) (isAbsolute : Str → Option Bool)
    (absolute : Str → Bool) (rd : TraceStore w) :
    (RangeFiltered opts isAbsolute absolute rd.val ↔ RangeHolds opts isAbsolute absolute rd.val) ∧
    ∀ mmap, rd.val.mmaps.find? (targets opts) = some mmap →
      RangeFits opts isAbsolute absolute mmap →
      (RangeHolds opts isAbsolute absolute rd.val ↔ ∀ c ∈ rd.val.calls, ∃ frames,
        tracedFrames rd.val c = some frames ∧
          Scanned { start := rangeStart opts isAbsolute mmap, size := opts.size } frames) := by
  constructor
  · have hlookup := filterCallAddressRange_eq opts isAbsolute rd.val
    rw [RangeFiltered, RangeHolds, hlookup]
    cases hfirst : rd.val.mmaps.find? (targets opts) with
    | none =>
      have hnone : foundMmap opts isAbsolute rd.val.mmaps = none := by
        rw [foundMmap, List.find?_eq_none]
        intro mmap hmem
        simp [List.find?_eq_none.mp hfirst mmap hmem]
      simp only [hnone, iff_true]
      exact ⟨rd.val, rfl, rfl⟩
    | some mmap =>
      cases hfound : foundMmap opts isAbsolute rd.val.mmaps with
      | none =>
        simp only [Option.some.injEq, exists_eq_left']
        exact eq_comm.trans List.filter_eq_self
      | some found =>
        simp only [foreachRange_iff rd.property]
        apply and_congr_right
        intro _
        rw [filter_eq_filter_iff]
        simp only [coveredCall_eq]
  · intro mmap hfirst hfits
    have hsize : coveredSize (rangeStart opts isAbsolute mmap) opts.size = opts.size.toNat := by
      rw [coveredSize, hfits.start, if_pos hfits.top]
    simp only [RangeHolds, hfirst, hfits.found hfirst, hfits.start, hsize, implies_true, and_true]

/-- One mapping of the target at 4096, and one call without a backtrace. -/
def rangeSample : Rd 64 :=
  (rdAddFcall { (rdCreate : Rd 64) with
      mmaps := [{ fromAddr := 4096, toAddr := 8192, moduleName := ['a'] }] }
    { index := 1, type := ftypeAlloc, context := 0, timestamp := 0, name := ['f'], resType := none,
      resId := 16, resSize := 8 }).1

/-- A call without a backtrace is no call of the range 0 to 15 of the
module: the code follows its NULL pointer when the module is at 4096, and
keeps it when the module is absolute. -/
theorem filterCallAddressRange_untraced :
    ¬ RangeFiltered { target := ['a'], start := 0, size := 16 } (fun _ => some false)
        (fun _ => false) rangeSample ∧
      ¬ RangeFiltered { target := ['a'], start := 0, size := 16 } (fun _ => some true)
        (fun _ => true) rangeSample := by
  constructor
  · rintro ⟨rd', hrun, -⟩
    have hnone : filterCallAddressRange { target := ['a'], start := 0, size := 16 }
        (fun _ => some false) rangeSample = none := rfl
    rw [hnone] at hrun
    cases hrun
  · rintro ⟨rd', hrun, hcalls⟩
    have hsame : filterCallAddressRange { target := ['a'], start := 0, size := 16 }
        (fun _ => some true) rangeSample = some rangeSample := rfl
    obtain rfl := Option.some.inj (hsame.symm.trans hrun)
    exact absurd hcalls (by decide)

def tracedCall : FcallData 64 where
  index := 1
  type := ftypeAlloc
  context := 0
  timestamp := 0
  name := ['f']
  resType := none
  resId := 16
  resSize := 8

def addTracedCall (rd : Rd 64) (addrs : List (BitVec 64)) : Option (Rd 64) :=
  let (rd, call) := rdAddFcall rd tracedCall
  rdSetNewFtrace rd call (addrs.map fun addr => { addr, name := none })

theorem addTracedCall_setsTrace {rd rd' : Rd 64} (h : rd.Whole) {addrs : List (BitVec 64)}
    (heq : addTracedCall rd addrs = some rd') :
    ∃ frames u, (rdAddFcall rd tracedCall).1.SetsTrace [rd.fresh] frames rd' u := by
  obtain ⟨rd₁, u, heq₁, hset⟩ := rdSetNewFtrace_setsTrace (rdAddFcall_whole h tracedCall)
    (show rd.fresh ∈ dlistAdd rd.calls rd.fresh by simp) (Function.update_self ..) rfl
    (addrs.map fun addr => { addr, name := none })
  obtain rfl := Option.some.inj (heq₁.symm.trans heq)
  exact ⟨_, u, hset⟩

/-- The mapping, a call from it and a call from elsewhere. -/
def rangeTraced : Option (Rd 64) :=
  [[4100], [36864]].foldlM addTracedCall
    { (rdCreate : Rd 64) with mmaps := [{ fromAddr := 4096, toAddr := 8192, moduleName := ['a'] }] }

theorem rangeTraced_integrity {rd : Rd 64} (h : rangeTraced = some rd) : rd.Integrity := by
  have hrun := h
  simp only [rangeTraced, List.foldlM_cons, List.foldlM_nil, Option.bind_eq_bind,
    Option.bind_eq_some_iff, Option.pure_def, Option.some.injEq] at hrun
  obtain ⟨rd₁, hfirst, rd₂, hsecond, rfl⟩ := hrun
  have hcreate : Rd.Whole { (rdCreate : Rd 64) with
      mmaps := [{ fromAddr := 4096, toAddr := 8192, moduleName := ['a'] }] } :=
    whole_rdCreate.of_stores rfl rfl rfl rfl rfl rfl
  obtain ⟨_, _, hset₁⟩ := addTracedCall_setsTrace hcreate hfirst
  obtain ⟨_, _, hset₂⟩ := addTracedCall_setsTrace hset₁.whole hsecond
  have hcalls : rangeTraced.map (fun rd => rd.calls.length) = some 2 := by decide +kernel
  rw [h] at hcalls
  have hlength : rd₂.calls.length = 2 := Option.some.inj hcalls
  exact hset₂.whole.integrity (hset₂.whole.toLinked.counted (by omega))

/-- The call from elsewhere is removed. -/
theorem filterCallAddressRange_iff_traced : ∃ rd : Rd 64, rangeTraced = some rd ∧
    RangeFiltered { target := ['a'], start := 0, size := 16 } (fun _ => some false) (fun _ => false) rd ∧
      rd.calls = [0, 3] ∧ rd.calls.filter (hitsRange rd 4096 16) = [0] := by
  have hlists : rangeTraced.map (fun rd => (rd.calls, rd.mmaps, rd.calls.filter (hitsRange rd 4096 16)))
      = some ([0, 3], [{ fromAddr := 4096, toAddr := 8192, moduleName := ['a'] }], [0]) := by
    decide +kernel
  have hframes : rangeTraced.map (fun rd => (tracedFrames rd 0, tracedFrames rd 3))
      = some (some [{ addr := 4100, name := none }], some [{ addr := 36864, name := none }]) := by
    decide +kernel
  obtain ⟨rd, hrd, hlists⟩ := Option.map_eq_some_iff.mp hlists
  rw [hrd] at hframes
  simp only [Option.map_some, Option.some.injEq, Prod.mk.injEq] at hlists hframes
  obtain ⟨hcalls, hmmaps, hhits⟩ := hlists
  obtain ⟨hiff, hplain⟩ := filterCallAddressRange_iff { target := ['a'], start := 0, size := 16 }
    (fun _ => some false) (fun _ => false) ⟨rd, rangeTraced_integrity hrd⟩
  refine ⟨rd, hrd, hiff.mpr ((hplain { fromAddr := 4096, toAddr := 8192, moduleName := ['a'] } ?_
    ⟨rfl, by decide, by decide⟩).mpr fun c hc => ?_), hcalls, hhits⟩
  · show rd.mmaps.find? _ = _
    rw [hmmaps]
    decide
  · rw [hcalls] at hc
    rcases List.mem_pair.mp hc with rfl | rfl
    · exact ⟨_, hframes.1, .inr (by decide)⟩
    · exact ⟨_, hframes.2, .inr (by decide)⟩

end SpRtrace.Postproc
