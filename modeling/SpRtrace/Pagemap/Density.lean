/-
SpRtrace.Pagemap.Density — the page density map of a memory area,
`src/rtrace-pagemap/density_report.cpp`.

The events of an area are sorted by their addresses. The loop over the
pages carries the bytes of the last event that go beyond the page. Its
counter is an `unsigned int`, the number of pages a `size_t`: the loop is
given a bound on its turns, and `none` is a loop that is still running.
-/
import Mathlib
import SpRtrace.Lib.Ranges
import SpRtrace.Lib.Stdio
import SpRtrace.Pagemap.MemoryAreas

namespace SpRtrace.Pagemap

open SpRtrace.Lib SpRtrace.Common

/-! ## The code -/

def pagesPerLine : Nat := 48

structure PageFill where
  size : BitVec 64
  overflow : BitVec 64
  calls : List (FcallData 64)
deriving DecidableEq

/-- The loop over the events of one page; `pageEnd` is the address behind
the page. -/
def fillPage (pageEnd : BitVec 64) : List (FcallData 64) → BitVec 64 → PageFill
  | [], size => { size, overflow := 0, calls := [] }
  | call :: calls, size =>
      if call.resId < pageEnd then
        let resSize := call.resSize.signExtend 64
        if pageEnd < call.resId + resSize then
          let overflow := resSize - (pageEnd - call.resId)
          { size := size + (resSize - overflow), overflow, calls }
        else fillPage pageEnd calls (size + resSize)
      else { size, overflow := 0, calls := call :: calls }

/-- The size of one page, and what is left for the next one. -/
def nextPage (pageSize pageAddr overflow : BitVec 64) (calls : List (FcallData 64)) : PageFill :=
  if overflow < pageSize then fillPage (pageAddr + pageSize) calls overflow
  else { size := pageSize, overflow := overflow - pageSize, calls }

def pageMark (pageSize size : BitVec 64) : Char :=
  if size = 0 then ' '
  else if size = pageSize then '#'
  else if size < pageSize then Char.ofNat ((size * 10 / pageSize + 48).setWidth 8).toNat
  else '*'

/-- The start of a line, and the mark. -/
def pageText (page : BitVec 32) (pageAddr : BitVec 64) (mark : Char) : Str :=
  (if page.toNat % pagesPerLine = 0 then
    (if page ≠ 0 then "|\n".toList else []) ++
      (List.leftpad 8 '0' (printNat 16 pageAddr.toNat) ++ " |".toList)
  else []) ++ [mark]

def writePages (pageSize pagesAll fromAddr : BitVec 64) :
    Nat → BitVec 32 → BitVec 64 → List (FcallData 64) → Option Str
  | 0, _, _, _ => none
  | fuel + 1, page, overflow, calls =>
      if page.setWidth 64 < pagesAll then do
        let pageAddr := page.setWidth 64 * pageSize + fromAddr
        let fill := nextPage pageSize pageAddr overflow calls
        let rest ← writePages pageSize pagesAll fromAddr fuel (page + 1) fill.overflow fill.calls
        some (pageText page pageAddr (pageMark pageSize fill.size) ++ rest)
      else some []

/-- The line above and below the map. -/
def borderLine : Str := "          ".toList ++ List.replicate pagesPerLine '-' ++ ['\n']

def writeMemoryMap (fuel : Nat) (pageSize : BitVec 64) (area : MemoryArea) : Option Str := do
  let pagesAll := (area.toAddr - area.fromAddr) / pageSize
  let pages ← writePages pageSize pagesAll area.fromAddr fuel 0 0 area.events
  some (borderLine ++ pages ++ "|\n".toList ++ borderLine ++ ['\n'])

/-! ## What it is for -/

def eventRange (call : FcallData 64) : Range :=
  { start := call.resId.toNat, stop := call.resId.toNat + call.resSize.toNat }

/-- The mark of a page of which so many bytes are covered. -/
def densityMark (pageSize bytes : Nat) : Char :=
  if bytes = 0 then ' '
  else if bytes = pageSize then '#'
  else Char.ofNat (bytes * 10 / pageSize + 48)

def pageRange (pageSize fromAddr page : Nat) : Range :=
  { start := fromAddr + page * pageSize, stop := fromAddr + page * pageSize + pageSize }

/-- The marks of the pages of an area, by the bytes of each page that are
covered. -/
def densityMarks (pageSize : Nat) (area : MemoryArea) : List Char :=
  (List.range ((area.toAddr.toNat - area.fromAddr.toNat) / pageSize)).map fun page =>
    densityMark pageSize
      (covered (area.events.map eventRange) (pageRange pageSize area.fromAddr.toNat page))

/-- The map with given marks, from a page on. -/
def markedPages (pageSize fromAddr : Nat) : Nat → List Char → Str
  | _, [] => []
  | page, mark :: marks =>
      pageText (BitVec.ofNat 32 page) (BitVec.ofNat 64 (fromAddr + page * pageSize)) mark ++
        markedPages pageSize fromAddr (page + 1) marks

def markedMap (pageSize : Nat) (area : MemoryArea) (marks : List Char) : Str :=
  borderLine ++ markedPages pageSize area.fromAddr.toNat 0 marks ++ "|\n".toList ++ borderLine ++
    ['\n']

/-- An area of whole pages, and the events in it: in the order of their
addresses, of sizes that are not negative, and without common bytes. -/
structure DensityInput (pageSize : Nat) (area : MemoryArea) : Prop where
  page_pow : ∃ k < 31, pageSize = 2 ^ k
  from_le : area.fromAddr.toNat ≤ area.toAddr.toNat
  from_page : pageSize ∣ area.fromAddr.toNat
  to_page : pageSize ∣ area.toAddr.toNat
  inside : area.Holds
  sizes : ∀ call ∈ area.events, call.resSize.toNat < 2 ^ 31
  sorted : area.events.Pairwise fun call call' => call.resId ≤ call'.resId
  apart : (area.events.map eventRange).Pairwise Range.Apart

end SpRtrace.Pagemap
