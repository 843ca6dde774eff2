/-
SpRtrace.Timeline.Totals — the totals report of the timeline tool,
`src/rtrace-timeline/totals_generator.cpp` with the containers of
`report_data.h`.

The generator keeps statistics for every resource type and a running total
for every context of a resource type. Each total is written to a data file
of its own whenever it changes. All counters are 32 bits wide; the sizes of
the events are not.

The containers are `std::map`s from resource type ids and context ids, a
missing entry is made when it is asked for. The titles, the labels and the
drawing are left out.
-/
import Mathlib
import SpRtrace.Timeline.Processor

namespace SpRtrace.Timeline

open SpRtrace.Lib SpRtrace.Common SpRtrace.Library

variable {w : Nat}

/-! ## Statistics -/

structure StatsData where
  count : BitVec 32
  size : BitVec 32
  deriving DecidableEq, Repr

def StatsData.new : StatsData := { count := 0, size := 0 }

def StatsData.add (data : StatsData) (sizeNew : BitVec 32) : StatsData :=
  { count := data.count + 1, size := data.size + sizeNew }

def StatsData.remove (data : StatsData) (sizeNew : BitVec 32) : StatsData :=
  { count := data.count - 1, size := data.size - sizeNew }

structure Stats where
  endLeaks : StatsData
  peakLeaks : StatsData
  endTotals : StatsData
  peakTotals : StatsData
  peakTimestamp : BitVec 32
  deriving DecidableEq, Repr

def Stats.new : Stats :=
  { endLeaks := .new, peakLeaks := .new, endTotals := .new, peakTotals := .new, peakTimestamp := 0 }

/-- How `reportAlloc` updates the statistics. -/
def Stats.alloc (stats : Stats) (resSize timestamp : BitVec 32) : Stats :=
  let stats := { stats with
    endLeaks := stats.endLeaks.add resSize, endTotals := stats.endTotals.add resSize }
  if stats.endLeaks.size > stats.peakLeaks.size then
    { stats with
      peakLeaks := stats.endLeaks, peakTotals := stats.endTotals, peakTimestamp := timestamp }
  else stats

/-- How `reportFree` updates the statistics. -/
def Stats.free (stats : Stats) (resSize : BitVec 32) : Stats :=
  { stats with endLeaks := stats.endLeaks.remove resSize }

/-! ## Data files -/

/-- `Plotter::DataFile`: its title and the points that are written to it,
as the two `int` arguments of `write`. -/
structure DataFile where
  title : Str
  points : List (BitVec 32 × BitVec 32)
  deriving DecidableEq, Repr

def createFile (title : Str) : DataFile := { title, points := [] }

def DataFile.write (file : DataFile) (x y : BitVec 32) : DataFile :=
  { file with points := file.points ++ [(x, y)] }

/-! ## Containers -/

structure ContextData where
  key : Context
  fileTotals : Option DataFile
  total : BitVec 32

def ContextData.new (context : Context) : ContextData :=
  { key := context, fileTotals := none, total := 0 }

structure ResourceData where
  key : Resource
  contexts : Std.TreeMap (BitVec 32) ContextData
  stats : Stats
  overhead : BitVec 32
  fileOverhead : Option DataFile
  totalAllocs : BitVec 32
  fileTotalAllocs : Option DataFile

def ResourceData.new (resource : Resource) : ResourceData :=
  { key := resource, contexts := ∅, stats := .new, overhead := 0, fileOverhead := none
    totalAllocs := 0, fileTotalAllocs := none }

/-- `AbstractMap<Context, ContextData>::getData`. -/
def ResourceData.getData (rd : ResourceData) (context : Context) : ContextData :=
  rd.contexts.getD context.id (.new context)

/-- The data of a context is stored back. -/
def ResourceData.setData (rd : ResourceData) (context : Context) (cd : ContextData) :
    ResourceData :=
  { rd with contexts := rd.contexts.insert context.id cd }

structure TotalsGenerator where
  resources : Std.TreeMap (BitVec 32) ResourceData
  xrangeMin : BitVec 32
  xrangeMax : BitVec 32
  yrangeMin : BitVec 32
  yrangeMax : BitVec 32
  y2rangeMax : BitVec 32
  allocTimestamps : List (BitVec 32)

def TotalsGenerator.new : TotalsGenerator :=
  { resources := ∅, xrangeMin := -1, xrangeMax := 0, yrangeMin := 0, yrangeMax := 0
    y2rangeMax := 0, allocTimestamps := [] }

/-- `AbstractMap<Resource, ResourceData>::getData`. -/
def TotalsGenerator.getData (g : TotalsGenerator) (resource : Resource) : ResourceData :=
  g.resources.getD resource.typeId (.new resource)

/-- The data of a resource is stored back. -/
def TotalsGenerator.setData (g : TotalsGenerator) (resource : Resource) (rd : ResourceData) :
    TotalsGenerator :=
  { g with resources := g.resources.insert resource.typeId rd }

/-! ## The reports -/

def contextAll : Context := { id := 0xFFFFFFFF, name := "all".toList }

/-- A new total goes to the data file of its context. -/
def ContextData.writeTotal (cd : ContextData) (title : Str) (timestamp total : BitVec 32) :
    ContextData :=
  { cd with total, fileTotals := some ((cd.fileTotals.getD (createFile title)).write timestamp total) }

def TotalsGenerator.reportAllocInContext (g : TotalsGenerator) (resource : Resource)
    (context : Context) (event : Event w) : TotalsGenerator :=
  let rd := g.getData resource
  let cd := rd.getData context
  let total := cd.total + event.resSize.setWidth 32
  let cd := cd.writeTotal resource.name event.timestamp total
  { g.setData resource (rd.setData context cd) with
    xrangeMin := if g.xrangeMin = -1 then event.timestamp else g.xrangeMin
    xrangeMax := if g.xrangeMax < event.timestamp then event.timestamp else g.xrangeMax
    yrangeMax := if total > g.yrangeMax then total else g.yrangeMax }

def TotalsGenerator.reportFreeInContext (g : TotalsGenerator) (resource : Resource)
    (context : Context) (event : Event w) : TotalsGenerator :=
  let rd := g.getData resource
  let cd := rd.getData context
  let total := cd.total - event.resSize.setWidth 32
  let cd := cd.writeTotal resource.name event.timestamp total
  g.setData resource (rd.setData context cd)

/-- The files that `reportAlloc` creates. -/
def ResourceData.createFiles (rd : ResourceData) (resource : Resource) : ResourceData :=
  { rd with
    fileOverhead :=
      if resource.overhead ≠ 0 ∧ rd.fileOverhead = none then
        some (createFile (resource.name ++ " overhead".toList))
      else rd.fileOverhead
    fileTotalAllocs :=
      some (rd.fileTotalAllocs.getD (createFile (resource.name ++ ": total allocs".toList))) }

/-- A new overhead is written, for a resource that has one. -/
def ResourceData.writeOverhead (rd : ResourceData) (resource : Resource)
    (timestamp overhead : BitVec 32) : ResourceData :=
  if resource.overhead ≠ 0 then
    { rd with overhead, fileOverhead := rd.fileOverhead.map fun file => file.write timestamp overhead }
  else rd

/-- The number of allocations is counted and written. -/
def ResourceData.countAlloc (rd : ResourceData) (timestamp : BitVec 32) : ResourceData :=
  { rd with
    totalAllocs := rd.totalAllocs + 1
    fileTotalAllocs := rd.fileTotalAllocs.map fun file => file.write timestamp (rd.totalAllocs + 1) }

/-- `TotalsGenerator::reportAlloc`; `none` is `ABORT`. -/
def TotalsGenerator.reportAlloc (g : TotalsGenerator) (resource : Resource) (event : Event w) :
    Option TotalsGenerator :=
  if event.timestamp = 0 then none
  else
    let g := g.setData resource ((g.getData resource).createFiles resource)
    let g := g.reportAllocInContext resource contextAll event
    let rd := g.getData resource
    let rd := { rd with stats := rd.stats.alloc (event.resSize.setWidth 32) event.timestamp }
    let rd := rd.writeOverhead resource event.timestamp
      (rd.overhead + (event.resSize.setWidth 32 + BitVec.ofNat 32 resource.overhead))
    let rd := rd.countAlloc event.timestamp
    some { g.setData resource rd with
      yrangeMax :=
        if resource.overhead ≠ 0 ∧ rd.overhead > g.yrangeMax then rd.overhead else g.yrangeMax
      y2rangeMax := if rd.totalAllocs > g.y2rangeMax then rd.totalAllocs else g.y2rangeMax
      allocTimestamps := g.allocTimestamps ++ [event.timestamp] }

def TotalsGenerator.reportFree (g : TotalsGenerator) (resource : Resource) (event : Event w) :
    TotalsGenerator :=
  let g := g.reportFreeInContext resource contextAll event
  let rd := g.getData resource
  let rd := { rd with stats := rd.stats.free (event.resSize.setWidth 32) }
  let rd := rd.writeOverhead resource event.timestamp
    (rd.overhead - (event.resSize.setWidth 32 + BitVec.ofNat 32 resource.overhead))
  g.setData resource rd

/-- A report is handed to the generator; `reportUnfreedAlloc` does
nothing. -/
def TotalsGenerator.report (g : TotalsGenerator) : Report w → Option TotalsGenerator
  | .alloc resource event => g.reportAlloc resource event
  | .allocInContext resource context event => some (g.reportAllocInContext resource context event)
  | .free resource event _ => some (g.reportFree resource event)
  | .freeInContext resource context event _ => some (g.reportFreeInContext resource context event)
  | .unfreedAlloc _ _ => some g

/-- The reports of a call. A generator that gives up is removed: it is told
nothing any more. -/
def TotalsGenerator.feed (g : TotalsGenerator) (reports : List (Report w)) :
    Option TotalsGenerator :=
  reports.foldlM TotalsGenerator.report g

/-- The totals generator behind the outcomes of a log. -/
def totals (outcomes : List (Outcome w)) : Option TotalsGenerator :=
  outcomes.foldlM (fun g outcome => g.feed outcome.reports) TotalsGenerator.new

/-! ## What the generator shows -/

def TotalsGenerator.statistics (g : TotalsGenerator) (typeId : BitVec 32) : Stats :=
  match g.resources[typeId]? with
  | none => .new
  | some rd => rd.stats

/-- The data of a context of a resource type. -/
def TotalsGenerator.contextData (g : TotalsGenerator) (typeId context : BitVec 32) :
    Option ContextData :=
  g.resources[typeId]?.bind fun rd => rd.contexts[context]?

def TotalsGenerator.total (g : TotalsGenerator) (typeId context : BitVec 32) : BitVec 32 :=
  match g.contextData typeId context with
  | none => 0
  | some cd => cd.total

/-- What is written to the totals file of a context. -/
def TotalsGenerator.points (g : TotalsGenerator) (typeId context : BitVec 32) :
    List (BitVec 32 × BitVec 32) :=
  match (g.contextData typeId context).bind ContextData.fileTotals with
  | none => []
  | some file => file.points

end SpRtrace.Timeline
