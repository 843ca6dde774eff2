/-
SpRtrace.Allocmap.DirtyPages — the page map of the allocation map tool,
`src/rtrace-allocmap/sp_rtrace_allocmap.c`.

A block of the heap marks the pages from that of its header to that of its
end. The pages are computed with the unsigned arithmetic of addresses and
stored in `int`s. `none` is a store outside the map.
-/
import Mathlib

namespace SpRtrace.Allocmap

variable {w : Nat}

def maxMemory : Nat := 64 * 1024 * 1024

def mallocHeaderSize : Nat := 8

/-- The static data of the tool that `map_dirty_address` has to do with. -/
structure AllocMap (w : Nat) where
  heapBase : BitVec w
  pageSize : BitVec 32
  usageMap : List (BitVec 8)
  usageTop : BitVec 32

def mapInit (heapBase : BitVec w) (pageSize : BitVec 32) : AllocMap w :=
  { heapBase, pageSize, usageMap := List.replicate (maxMemory / pageSize.toNat) 0, usageTop := 0 }

/-- The mark of a run, `'#'` for those that have no digit. -/
def runMark (run : BitVec 32) : BitVec 8 :=
  if run.toInt < 48 ∨ 57 < run.toInt then 35 else run.setWidth 8

def storeMark (mark : BitVec 8) (map : List (BitVec 8)) (i : Nat) : Option (List (BitVec 8)) :=
  if i < map.length then some (map.set i mark) else none

/-- The loop from `start` to `end`. -/
def markPages (mark : BitVec 8) (start stop : Int) (map : List (BitVec 8)) :
    Option (List (BitVec 8)) :=
  (List.range' start.toNat (stop + 1 - start).toNat).foldlM (storeMark mark) map

def mapDirtyAddress (m : AllocMap w) (address size : BitVec w) (run : BitVec 32) :
    Option (AllocMap w × BitVec 32) :=
  let address := address - m.heapBase
  let pageSize := m.pageSize.signExtend w
  let start := (((address - BitVec.ofNat w mallocHeaderSize) / pageSize).setWidth 32).toInt
  let stop := (((address + size) / pageSize).setWidth 32).toInt
  if 0 ≤ start ∧ stop < maxMemory / m.pageSize.toInt then do
    let usageMap ← markPages (runMark run) start stop m.usageMap
    let usageTop := if m.usageTop.toInt < stop then BitVec.ofInt 32 stop else m.usageTop
    some ({ m with usageMap, usageTop }, 1)
  else some (m, 0)

end SpRtrace.Allocmap
