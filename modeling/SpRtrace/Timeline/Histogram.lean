/-
SpRtrace.Timeline.Histogram — the histogram reports of the timeline tool,
`src/rtrace-timeline/histogram_generator.cpp`.

The generator counts the allocations and the frees of each size. At the end
it writes a line for each size, and a table with the number, the total size
and the median of what was freed, what was not, and both.

A result `none` of `finalize` is the exception for an empty report, and
`none` of `getMedian` an element behind the end of the vector.
-/
import Mathlib
import SpRtrace.Timeline.Processor

namespace SpRtrace.Timeline

open SpRtrace.Lib SpRtrace.Common SpRtrace.Library

variable {w : Nat}

/-! ## Gathered data -/

structure Alloc where
  total : BitVec 32
  freed : BitVec 32
  deriving DecidableEq, Repr

def Alloc.new : Alloc := { total := 0, freed := 0 }

/-- `HistogramGenerator::ResourceData`. -/
structure HistogramData where
  key : Resource
  allocs : Std.TreeMap (BitVec 32) Alloc

/-- The data of a resource that has none yet. -/
def HistogramData.new (resource : Resource) : HistogramData := { key := resource, allocs := ∅ }

/-- `rd->allocs[size]`, which is made when it is missing. -/
def HistogramData.alloc (rd : HistogramData) (size : BitVec 32) : Alloc :=
  rd.allocs.getD size .new

/-- The data of a size is stored back. -/
def HistogramData.setAlloc (rd : HistogramData) (size : BitVec 32) (alloc : Alloc) :
    HistogramData :=
  { rd with allocs := rd.allocs.insert size alloc }

/-- `HistogramGenerator`; `resource_type` is the first resource that was
reported. -/
structure HistogramGenerator where
  resources : Std.TreeMap (BitVec 32) HistogramData
  resourceType : Option Resource

def HistogramGenerator.new : HistogramGenerator := { resources := ∅, resourceType := none }

/-- `AbstractMap<Resource, ResourceData>::getData`. -/
def HistogramGenerator.getData (g : HistogramGenerator) (resource : Resource) : HistogramData :=
  g.resources.getD resource.typeId (.new resource)

/-- The data of a resource is stored back. -/
def HistogramGenerator.setData (g : HistogramGenerator) (resource : Resource) (rd : HistogramData) :
    HistogramGenerator :=
  { g with resources := g.resources.insert resource.typeId rd }

/-- `HistogramGenerator::reportAlloc`; a second resource type ends the
tool. -/
def HistogramGenerator.reportAlloc (g : HistogramGenerator) (resource : Resource)
    (event : Event w) : Option HistogramGenerator :=
  let rd := g.getData resource
  let size := event.resSize.setWidth 32
  let alloc := rd.alloc size
  let rd := rd.setAlloc size { alloc with total := alloc.total + 1 }
  match g.resourceType with
  | none => some { g.setData resource rd with resourceType := some resource }
  | some type => if type.typeId = resource.typeId then some (g.setData resource rd) else none

def HistogramGenerator.reportFree (g : HistogramGenerator) (resource : Resource)
    (event : Event w) : HistogramGenerator :=
  let rd := g.getData resource
  let size := event.resSize.setWidth 32
  let alloc := rd.alloc size
  g.setData resource (rd.setAlloc size { alloc with freed := alloc.freed + 1 })

/-- A report is handed to the generator; the contexts are ignored. -/
def HistogramGenerator.report (g : HistogramGenerator) : Report w → Option HistogramGenerator
  | .alloc resource event => g.reportAlloc resource event
  | .free resource event _ => some (g.reportFree resource event)
  | _ => some g

def HistogramGenerator.feed (g : HistogramGenerator) (reports : List (Report w)) :
    Option HistogramGenerator :=
  reports.foldlM HistogramGenerator.report g

/-! ## The report -/

structure HistogramStats where
  count : BitVec 32
  total : BitVec 32
  allocs : List (BitVec 32)
  deriving DecidableEq, Repr

def HistogramStats.new : HistogramStats := { count := 0, total := 0, allocs := [] }

def HistogramStats.getMedian (stats : HistogramStats) : Option (BitVec 32) :=
  let nallocs := stats.allocs.length % 2 ^ 32
  if nallocs = 0 then some 0
  else do
    let median ← stats.allocs[nallocs / 2]?
    if nallocs % 2 = 0 then
      let next ← stats.allocs[nallocs / 2 + 1]?
      some ((median + next) / 2)
    else some median

/-- The two generators: sizes or counts. -/
inductive HistogramMode
  | size
  | count
  deriving DecidableEq, Repr

/-- `writeAlloc`: the columns for what was not freed and for what was. -/
def writeAlloc (mode : HistogramMode) (alloc : Alloc) (size : BitVec 32) : BitVec 32 × BitVec 32 :=
  let unfreed := alloc.total - alloc.freed
  match mode with
  | .size => (size * unfreed, size * alloc.freed)
  | .count => (unfreed, alloc.freed)

structure HistogramRow where
  median : Option (BitVec 32)
  count : BitVec 32
  total : BitVec 32
  deriving DecidableEq, Repr

def HistogramStats.row (stats : HistogramStats) : HistogramRow :=
  { median := stats.getMedian, count := stats.count, total := stats.total }

/-- The data file, and the table with its rows. -/
structure HistogramReport where
  lines : List (BitVec 32 × BitVec 32 × BitVec 32)
  freed : HistogramRow
  unfreed : HistogramRow
  both : HistogramRow
  deriving DecidableEq, Repr

/-- The vectors for the medians: each size as often as it occurs. -/
def HistogramData.repeated (rd : HistogramData) (keys : List (BitVec 32)) (occurs : Alloc → BitVec 32) :
    List (BitVec 32) :=
  keys.flatMap fun size => List.replicate (occurs (rd.alloc size)).toNat size

/-- The statistics of the loop that writes the data. -/
def HistogramData.stats (rd : HistogramData) (keys : List (BitVec 32)) (occurs : Alloc → BitVec 32) :
    HistogramStats :=
  keys.foldl (fun stats size =>
      { stats with
        count := stats.count + occurs (rd.alloc size)
        total := stats.total + occurs (rd.alloc size) * size })
    { HistogramStats.new with allocs := rd.repeated keys occurs }

/-- `HistogramGenerator::finalize`. The loop over the data adds to the
statistics of what was freed and what was not, and not to those of both. -/
def HistogramGenerator.finalize (g : HistogramGenerator) (mode : HistogramMode) :
    Option HistogramReport :=
  g.resources.toList.head?.map fun entry =>
    let rd := entry.2
    let keys := rd.allocs.keys.mergeSort fun a b => a ≤ b
    let freed := fun alloc : Alloc => alloc.freed
    let unfreed := fun alloc : Alloc => alloc.total - alloc.freed
    let summ : HistogramStats := { HistogramStats.new with
      allocs := keys.flatMap fun size =>
        List.replicate (freed (rd.alloc size)).toNat size
          ++ List.replicate (unfreed (rd.alloc size)).toNat size }
    { lines := keys.map fun size => (size, writeAlloc mode (rd.alloc size) size)
      freed := (rd.stats keys freed).row
      unfreed := (rd.stats keys unfreed).row
      both := summ.row }

/-- The histogram generator behind the outcomes of a log. -/
def histogram (outcomes : List (Outcome w)) : Option HistogramGenerator :=
  outcomes.foldlM (fun g outcome => g.feed outcome.reports) HistogramGenerator.new

end SpRtrace.Timeline
