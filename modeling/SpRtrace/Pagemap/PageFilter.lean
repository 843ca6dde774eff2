/-
SpRtrace.Pagemap.PageFilter — the page type filter,
`src/rtrace-pagemap/filter.cpp`, `area_filter.h` and `page_types.c`.

`Filter::write` writes the indices of the selected events to a file, which
is then given to the post-processor. The text of this file is what
`filterWrite` returns, `none` is a read outside of the records of an area.
-/
import Mathlib
import SpRtrace.Pagemap.MemoryAreas
import SpRtrace.Lib.SideBySide
import SpRtrace.Lib.Stdio

namespace SpRtrace.Pagemap

open SpRtrace.Lib SpRtrace.Common

/-! ## The code -/

/-- The marks of `page_flag_names`. -/
def pageFlagMarks : List Char :=
  ['L', 'E', 'R', 'U', 'D', 'l', 'A', 'S', 'W', 'I', 'B', 'M', 'a', 's', 'b', 'H', 'T', 'G', 'u',
    'X', 'n', 'x'] ++ List.replicate 10 '\x00' ++ ['r', 'm', 'd', 'P', 'p', 'O', 'h', 'c'] ++
    List.replicate 8 '\x00' ++ ['I', 'P', 'A', 'E'] ++ List.replicate 12 '\x00'

/-- One mark of the page types: the first flag with the mark is added. -/
def addMark (mask : BitVec 64) (mark : Char) : BitVec 64 :=
  match pageFlagMarks.findIdx? (· = mark) with
  | some iflag => mask ||| (1 : BitVec 64) <<< iflag
  | none => mask

/-- The mask of a `PageFilter`. -/
def pageMask (pageTypes : Str) : BitVec 64 := pageTypes.foldl addMark 0

def validateEvent (mask : BitVec 64) (area : MemoryArea) (call : FcallData 64) : Option Bool :=
  if mask = 0 then some true
  else if area.fromAddr < call.resId ∨ call.resId ≤ area.toAddr then some false
  else do
    let pageIndex := (call.resId - area.fromAddr) >>> 12
    let pageData ← (← area.flags)[pageIndex.toNat]?
    some (pageData.kflags &&& mask ≠ 0)

/-- The options that select areas and pages. -/
structure FilterOptions where
  filterName : Str
  filterAddress : BitVec 64
  filterPagetype : Str

/-- `PathFilter`, `AddressFilter` and `AreaFilter`. -/
def validateArea (opts : FilterOptions) (area : MemoryArea) : Bool :=
  if opts.filterName ≠ [] then opts.filterName <:+: area.path
  else if opts.filterAddress ≠ 0 then
    area.fromAddr ≤ opts.filterAddress ∧ opts.filterAddress < area.toAddr
  else true

def indexLine (call : FcallData 64) : Str := printInt call.index ++ ['\n']

def writeArea (mask : BitVec 64) (area : MemoryArea) : Option Str := do
  let lines ← area.events.mapM fun call => do
    let valid ← validateEvent mask area call
    some (if valid then indexLine call else [])
  some lines.flatten

/-- The index file of `Filter::write`. -/
def filterWrite (opts : FilterOptions) (areas : List MemoryArea) : Option Str := do
  let texts ← (areas.filter (validateArea opts)).mapM (writeArea (pageMask opts.filterPagetype))
  some texts.flatten

/-! ## What it is for -/

/-- The page types select the flag: it is the first one with some mark. -/
def SelectsFlag (pageTypes : Str) (iflag : Nat) : Prop :=
  ∃ mark ∈ pageTypes, pageFlagMarks.findIdx? (· = mark) = some iflag

/-- The kernel flags of the page that contains an address. -/
def pageKflags (pageSize : Nat) (area : MemoryArea) (address : BitVec 64) : BitVec 64 :=
  match (area.flags.getD [])[address.toNat / pageSize - area.fromAddr.toNat / pageSize]? with
  | some pageData => pageData.kflags
  | none => 0

/-- The page of the event has one of the flags. -/
def OnSelectedPage (pageSize : Nat) (pageTypes : Str) (area : MemoryArea) (call : FcallData 64) :
    Prop :=
  ∃ iflag, SelectsFlag pageTypes iflag ∧ (pageKflags pageSize area call.resId).getLsbD iflag = true

/-- The page types select no flag at all, or the page of the event has one
of the flags. -/
def Selected (pageSize : Nat) (pageTypes : Str) (area : MemoryArea) (call : FcallData 64) : Prop :=
  (∀ iflag, ¬ SelectsFlag pageTypes iflag) ∨ OnSelectedPage pageSize pageTypes area call

/-! ## The mask -/

theorem pageFlagMarks_lt {mark : Char} {iflag : Nat}
    (h : pageFlagMarks.findIdx? (· = mark) = some iflag) : iflag < 64 := by
  obtain ⟨hlt, -⟩ := List.findIdx?_eq_some_iff_getElem.mp h
  exact hlt

theorem addMark_getLsbD (mask : BitVec 64) (mark : Char) (iflag : Nat) :
    (addMark mask mark).getLsbD iflag = true ↔
      mask.getLsbD iflag = true ∨ pageFlagMarks.findIdx? (· = mark) = some iflag := by
  unfold addMark
  cases h : pageFlagMarks.findIdx? (· = mark) with
  | none => simp
  | some i =>
    have hi := pageFlagMarks_lt h
    have hbit : ((1 : BitVec 64) <<< i).getLsbD iflag = (decide (i < 64) && decide (i = iflag)) :=
      BitVec.getLsbD_twoPow i iflag
    simp only [BitVec.getLsbD_or, hbit, hi, decide_true, Bool.true_and, Bool.or_eq_true,
      decide_eq_true_eq, Option.some.injEq]

/-- The mask has the bits of the selected flags. -/
theorem pageMask_getLsbD (pageTypes : Str) (iflag : Nat) :
    (pageMask pageTypes).getLsbD iflag = true ↔ SelectsFlag pageTypes iflag := by
  have hfold : ∀ mask : BitVec 64, (pageTypes.foldl addMark mask).getLsbD iflag = true ↔
      mask.getLsbD iflag = true ∨ SelectsFlag pageTypes iflag := by
    unfold SelectsFlag
    induction pageTypes with
    | nil => simp
    | cons mark pageTypes ih =>
      intro mask
      rw [List.foldl_cons, ih, addMark_getLsbD, or_assoc, List.exists_mem_cons_iff]
  rw [pageMask, hfold]
  simp

theorem eq_zero_iff_getLsbD (mask : BitVec 64) :
    mask = 0 ↔ ∀ i, ¬ mask.getLsbD i = true := by
  constructor
  · rintro rfl
    simp
  · intro h
    refine BitVec.eq_of_getLsbD_eq fun i _ => ?_
    simpa using h i

theorem pageMask_eq_zero (pageTypes : Str) :
    pageMask pageTypes = 0 ↔ ∀ iflag, ¬ SelectsFlag pageTypes iflag := by
  simp only [eq_zero_iff_getLsbD, pageMask_getLsbD]

theorem onSelectedPage_iff {pageSize : Nat} {pageTypes : Str} {area : MemoryArea}
    {call : FcallData 64} : OnSelectedPage pageSize pageTypes area call ↔
      pageKflags pageSize area call.resId &&& pageMask pageTypes ≠ 0 := by
  rw [ne_eq, eq_zero_iff_getLsbD, not_forall_not]
  simp only [BitVec.getLsbD_and, Bool.and_eq_true, pageMask_getLsbD, OnSelectedPage, and_comm]

instance (pageSize : Nat) (pageTypes : Str) (area : MemoryArea) (call : FcallData 64) :
    Decidable (OnSelectedPage pageSize pageTypes area call) :=
  decidable_of_iff _ onSelectedPage_iff.symm

instance (pageSize : Nat) (pageTypes : Str) (area : MemoryArea) (call : FcallData 64) :
    Decidable (Selected pageSize pageTypes area call) :=
  decidable_of_iff (pageMask pageTypes = 0 ∨ OnSelectedPage pageSize pageTypes area call)
    (or_congr_left (pageMask_eq_zero pageTypes))

/-- The indices of the selected events of the selected areas. -/
def selectedLines (pageSize : Nat) (opts : FilterOptions) (areas : List MemoryArea) : Str :=
  ((areas.filter (validateArea opts)).map fun area =>
    ((area.events.filter fun call =>
      Selected pageSize opts.filterPagetype area call).map indexLine).flatten).flatten

/-! ## No event passes the test of the area -/

theorem validateEvent_zero (area : MemoryArea) (call : FcallData 64) :
    validateEvent 0 area call = some true := if_pos rfl

/-- The bounds test fails for every event of the area. -/
theorem validateEvent_contained {mask : BitVec 64} (hmask : mask ≠ 0) {area : MemoryArea}
    {call : FcallData 64} (hcall : area.contains call.resId = true) :
    validateEvent mask area call = some false := by
  have hin : area.fromAddr ≤ call.resId ∧ call.resId < area.toAddr := by
    simpa [MemoryArea.contains] using hcall
  rw [validateEvent, if_neg hmask, if_pos (.inr (BitVec.le_of_lt hin.2))]

/-- The events of an area: all of them, or none. -/
theorem writeArea_eq {mask : BitVec 64} {area : MemoryArea} (h : area.Holds) :
    writeArea mask area
      = some (if mask = 0 then (area.events.map indexLine).flatten else []) := by
  have hvalid : ∀ call ∈ area.events, validateEvent mask area call = some (decide (mask = 0)) := by
    intro call hcall
    by_cases hmask : mask = 0
    · rw [hmask, validateEvent_zero, decide_eq_true rfl]
    · rw [validateEvent_contained hmask (h call hcall), decide_eq_false hmask]
  have hlines : (area.events.mapM fun call => (validateEvent mask area call).bind fun valid =>
      some (if valid = true then indexLine call else []))
      = some (area.events.map fun call => if mask = 0 then indexLine call else []) := by
    rw [mapM_eq_some_iff, List.forall₂_map_right_iff, List.forall₂_same]
    intro call hcall
    rw [hvalid call hcall, Option.bind_some]
    simp only [decide_eq_true_eq]
  have hrun : writeArea mask area = some
      (area.events.map fun call => if mask = 0 then indexLine call else []).flatten := by
    unfold writeArea
    exact (congrArg (fun lines : Option (List Str) => lines.bind fun l => some l.flatten) hlines)
  rw [hrun]
  by_cases hmask : mask = 0
  · simp only [if_pos hmask]
  · simp only [if_neg hmask]
    simp

theorem flatten_filter_eq_nil {α : Type*} {l : List α} {p : α → Bool} {f : α → Str} :
    ((l.filter p).map f).flatten = [] ↔ ∀ x ∈ l, p x = true → f x = [] := by
  rw [List.flatten_eq_nil_iff, List.forall_mem_map]
  simp only [List.mem_filter, and_imp]

theorem indexLine_ne_nil (call : FcallData 64) : indexLine call ≠ [] := by
  simp [indexLine]

/-- **Page types select nothing**: the index file has the indices of the
selected events exactly if no flag is selected, or no event of a selected
area is on a page with one of the flags. -/
theorem filterWrite_iff (pageSize : Nat) (opts : FilterOptions) {areas : List MemoryArea}
    (hareas : ∀ area ∈ areas, area.Holds) :
    filterWrite opts areas = some (selectedLines pageSize opts areas) ↔
      (∀ iflag, ¬ SelectsFlag opts.filterPagetype iflag) ∨
        ∀ area ∈ areas, validateArea opts area = true → ∀ call ∈ area.events,
          ¬ OnSelectedPage pageSize opts.filterPagetype area call := by
  have hrun : filterWrite opts areas = some ((areas.filter (validateArea opts)).map fun area =>
      if pageMask opts.filterPagetype = 0 then (area.events.map indexLine).flatten
      else []).flatten := by
    have htexts : (areas.filter (validateArea opts)).mapM (writeArea (pageMask opts.filterPagetype))
        = some ((areas.filter (validateArea opts)).map fun area =>
          if pageMask opts.filterPagetype = 0 then (area.events.map indexLine).flatten else []) := by
      rw [mapM_eq_some_iff, List.forall₂_map_right_iff, List.forall₂_same]
      exact fun area harea => writeArea_eq (hareas area (List.mem_of_mem_filter harea))
    unfold filterWrite
    exact (congrArg (fun texts : Option (List Str) => texts.bind fun t => some t.flatten) htexts)
  rw [hrun, Option.some.injEq, selectedLines, ← pageMask_eq_zero]
  by_cases hmask : pageMask opts.filterPagetype = 0
  · -- every event is selected
    have hall : ∀ area call, Selected pageSize opts.filterPagetype area call := fun area call =>
      .inl ((pageMask_eq_zero _).mp hmask)
    refine iff_of_true ?_ (.inl hmask)
    simp only [if_pos hmask, hall, decide_true, List.filter_true]
  · have hnone : ∀ area call, Selected pageSize opts.filterPagetype area call ↔
        OnSelectedPage pageSize opts.filterPagetype area call := fun area call =>
      or_iff_right fun h => hmask ((pageMask_eq_zero _).mpr h)
    have hempty : ((areas.filter (validateArea opts)).map fun area =>
        if pageMask opts.filterPagetype = 0 then (area.events.map indexLine).flatten
        else []).flatten = [] := by
      simp only [if_neg hmask]
      simp
    rw [hempty, or_iff_right hmask, eq_comm, flatten_filter_eq_nil]
    simp only [flatten_filter_eq_nil, indexLine_ne_nil, imp_false, decide_eq_true_eq, hnone]

/-! ## A locked page -/

/-- One page that is locked, and an event on it. -/
def lockedArea : MemoryArea where
  fromAddr := 0x1000
  toAddr := 0x2000
  flags := some [{ info := 2, kflags := 1, kcount := 1 }]
  path := []
  events := [{ index := 1, type := 1, context := 0, timestamp := 0, name := "malloc".toList,
               resType := none, resId := 0x1010, resSize := 8 }]

/-- No area is selected, and the pages that are locked. -/
def lockedOptions : FilterOptions :=
  { filterName := [], filterAddress := 0, filterPagetype := "L".toList }

theorem lockedArea_holds : ∀ area ∈ [lockedArea], area.Holds := by
  intro area harea
  rw [List.mem_singleton.mp harea]
  intro call hcall
  rw [List.mem_singleton.mp hcall]
  decide

/-- Two pages of which the first is locked, and an event on the second. -/
def besideArea : MemoryArea where
  fromAddr := 0x3000
  toAddr := 0x5000
  flags := some [{ info := 2, kflags := 1, kcount := 1 }, { info := 2, kflags := 0, kcount := 1 }]
  path := []
  events := [{ index := 2, type := 1, context := 0, timestamp := 0, name := "malloc".toList,
               resType := none, resId := 0x4010, resSize := 8 }]

/-- The area with the event on a locked page is not selected; the event of
the other one is on no locked page. -/
theorem filterWrite_iff_beside :
    filterWrite { lockedOptions with filterAddress := 0x4000 } [lockedArea, besideArea]
      = some (selectedLines 4096 { lockedOptions with filterAddress := 0x4000 } [lockedArea, besideArea]) := by
  have hholds : ∀ area ∈ [lockedArea, besideArea], area.Holds := by
    intro area harea
    rcases List.mem_pair.mp harea with rfl | rfl
    · exact lockedArea_holds _ (List.mem_singleton_self _)
    · intro call hcall
      rw [List.mem_singleton.mp hcall]
      decide
  refine (filterWrite_iff 4096 _ hholds).mpr (.inr fun area harea hselected call hcall => ?_)
  rcases List.mem_pair.mp harea with rfl | rfl
  · exact absurd hselected (by decide)
  · rw [List.mem_singleton.mp hcall]
    decide

/-- The index of the event on the locked page is not written. -/
theorem filterWrite_lockedArea : (∀ area ∈ [lockedArea], area.Holds) ∧
    filterWrite lockedOptions [lockedArea] = some [] ∧
    selectedLines 4096 lockedOptions [lockedArea] = "1\n".toList := by
  refine ⟨lockedArea_holds, by decide, by decide⟩

end SpRtrace.Pagemap
