/-
SpRtrace.Timeline.Activity — the activity report of the timeline tool,
`src/rtrace-timeline/activity_generator.cpp`.

For every context of a resource type the generator keeps the events of the
last time slice with their totals, and at every activity step it writes the
totals to three data files. The time of the last step is shared by all
resource types and contexts; an event that is behind the next step makes
the step for the context it is reported in.

The slice is the one that `Plotter::Tic` makes of the option. The peak
markers, the table and the drawing are left out.
-/
import Mathlib
import SpRtrace.Timeline.Totals

namespace SpRtrace.Timeline

open SpRtrace.Lib SpRtrace.Common SpRtrace.Library

variable {w : Nat}

/-! ## One context -/

/-- `total_size`, `total_allocs` and `total_frees`. -/
structure SliceTotals where
  totalSize : BitVec 32
  totalAllocs : BitVec 32
  totalFrees : BitVec 32
  deriving DecidableEq, Repr

def SliceTotals.new : SliceTotals := { totalSize := 0, totalAllocs := 0, totalFrees := 0 }

/-- How `addEvent` updates the totals. -/
def SliceTotals.add (totals : SliceTotals) (event : Event w) : SliceTotals :=
  match event.type with
  | .alloc => { totals with
      totalSize := totals.totalSize + event.resSize.setWidth 32
      totalAllocs := totals.totalAllocs + 1 }
  | .free => { totals with totalFrees := totals.totalFrees + 1 }

/-- How `processSlice` updates the totals for an event that it removes. -/
def SliceTotals.remove (totals : SliceTotals) (event : Event w) : SliceTotals :=
  match event.type with
  | .alloc => { totals with
      totalSize := totals.totalSize - event.resSize.setWidth 32
      totalAllocs := totals.totalAllocs - 1 }
  | .free => { totals with totalFrees := totals.totalFrees - 1 }

/-- `ActivityGenerator::ContextData`. -/
structure ActivityContext (w : Nat) where
  key : Context
  fileRate : Option DataFile
  fileAllocs : Option DataFile
  fileFrees : Option DataFile
  totals : SliceTotals
  events : List (Event w)

def ActivityContext.new (context : Context) : ActivityContext w :=
  { key := context, fileRate := none, fileAllocs := none, fileFrees := none, totals := .new
    events := [] }

def ActivityContext.processSlice (cd : ActivityContext w) (timestamp slice : BitVec 32) :
    ActivityContext w :=
  let removed := cd.events.takeWhile fun event => event.timestamp < timestamp - slice
  let totals := removed.foldl SliceTotals.remove cd.totals
  { cd with
    events := cd.events.drop removed.length
    totals
    fileRate := cd.fileRate.map fun file => file.write timestamp totals.totalSize
    fileAllocs := cd.fileAllocs.map fun file => file.write timestamp totals.totalAllocs
    fileFrees := cd.fileFrees.map fun file => file.write timestamp totals.totalFrees }

def ActivityContext.addEvent (cd : ActivityContext w) (event : Event w) : ActivityContext w :=
  { cd with totals := cd.totals.add event, events := cd.events ++ [event] }

def ActivityContext.createFiles (cd : ActivityContext w) (resource : Resource) (context : Context) :
    ActivityContext w :=
  if cd.fileAllocs.isNone then
    let title := fun kind : String =>
      resource.name ++ (" (" ++ kind ++ ":").toList ++ context.name ++ ")".toList
    { cd with
      fileRate := some (createFile (title "rate"))
      fileAllocs := some (createFile (title "allocs"))
      fileFrees := some (createFile (title "frees")) }
  else cd

/-! ## Peaks -/

structure PeakData where
  count : BitVec 32
  size : BitVec 32
  timestamp : BitVec 32
  deriving DecidableEq, Repr

def PeakData.new : PeakData := { count := 0, size := 0, timestamp := 0 }

structure ActivityStats where
  peakSize : PeakData
  peakAllocs : PeakData
  peakFrees : PeakData
  deriving DecidableEq, Repr

def ActivityStats.update (stats : ActivityStats) (totals : SliceTotals) (timestamp : BitVec 32) :
    ActivityStats :=
  { peakSize :=
      if totals.totalSize > stats.peakSize.size then
        { size := totals.totalSize, count := totals.totalAllocs, timestamp }
      else stats.peakSize
    peakAllocs :=
      if totals.totalAllocs > stats.peakAllocs.count then
        { size := totals.totalSize, count := totals.totalAllocs, timestamp }
      else stats.peakAllocs
    peakFrees :=
      if totals.totalFrees > stats.peakFrees.count then
        { count := totals.totalFrees, size := totals.totalSize, timestamp }
      else stats.peakFrees }

/-! ## Containers -/

/-- `ActivityGenerator::ResourceData`. -/
structure ActivityData (w : Nat) where
  key : Resource
  contexts : Std.TreeMap (BitVec 32) (ActivityContext w)
  stats : ActivityStats

def ActivityData.new (resource : Resource) : ActivityData w :=
  { key := resource, contexts := ∅
    stats := { peakSize := .new, peakAllocs := .new, peakFrees := .new } }

/-- `AbstractMap<Context, ContextData>::getData`. -/
def ActivityData.getData (rd : ActivityData w) (context : Context) : ActivityContext w :=
  rd.contexts.getD context.id (.new context)

/-- The data of a context is stored back. -/
def ActivityData.setData (rd : ActivityData w) (context : Context) (cd : ActivityContext w) :
    ActivityData w :=
  { rd with contexts := rd.contexts.insert context.id cd }

structure ActivityGenerator (w : Nat) where
  resources : Std.TreeMap (BitVec 32) (ActivityData w)
  xrangeMin : BitVec 32
  xrangeMax : BitVec 32
  yrangeMin : BitVec 32
  yrangeMax : BitVec 32
  y2rangeMax : BitVec 32
  activityStep : BitVec 32
  sliceValue : BitVec 32
  sliceStep : BitVec 32

/-- The constructor of `ActivityGenerator` and `initialize`. -/
def ActivityGenerator.new (sliceValue : BitVec 32) : ActivityGenerator w :=
  { resources := ∅, xrangeMin := -1, xrangeMax := 0, yrangeMin := 0, yrangeMax := 0
    y2rangeMax := 0, activityStep := 0, sliceValue
    sliceStep := if sliceValue / 2 = 0 then 1 else sliceValue / 2 }

/-- `AbstractMap<Resource, ResourceData>::getData`. -/
def ActivityGenerator.getData (g : ActivityGenerator w) (resource : Resource) : ActivityData w :=
  g.resources.getD resource.typeId (.new resource)

/-- The data of a resource is stored back. -/
def ActivityGenerator.setData (g : ActivityGenerator w) (resource : Resource)
    (rd : ActivityData w) : ActivityGenerator w :=
  { g with resources := g.resources.insert resource.typeId rd }

def ActivityGenerator.updateRangeX (g : ActivityGenerator w) (timestamp : BitVec 32) :
    ActivityGenerator w :=
  { g with
    xrangeMin := if g.xrangeMin = -1 then timestamp else g.xrangeMin
    xrangeMax := if g.xrangeMax < timestamp then timestamp else g.xrangeMax }

def ActivityGenerator.updateRangeY (g : ActivityGenerator w) (totals : SliceTotals) :
    ActivityGenerator w :=
  let y2rangeMax := if totals.totalAllocs > g.y2rangeMax then totals.totalAllocs else g.y2rangeMax
  { g with
    yrangeMax := if totals.totalSize > g.yrangeMax then totals.totalSize else g.yrangeMax
    y2rangeMax := if totals.totalFrees > y2rangeMax then totals.totalFrees else y2rangeMax }

/-! ## The reports -/

/-- `if (activity_step == 0) activity_step = event->timestamp`. -/
def ActivityGenerator.firstStep (g : ActivityGenerator w) (timestamp : BitVec 32) :
    ActivityGenerator w :=
  if g.activityStep = 0 then { g with activityStep := timestamp } else g

def ActivityGenerator.reportEventInContext (g : ActivityGenerator w) (resource : Resource)
    (context : Context) (event : Event w) : ActivityGenerator w :=
  let rd := g.getData resource
  let cd := (rd.getData context).createFiles resource context
  let g := g.firstStep event.timestamp
  let timestamp := g.activityStep + g.sliceStep
  if timestamp ≤ event.timestamp then
    let cd := cd.processSlice timestamp g.sliceValue
    { ((g.setData resource (rd.setData context (cd.addEvent event))).updateRangeX timestamp).updateRangeY
        cd.totals with activityStep := timestamp }
  else g.setData resource (rd.setData context (cd.addEvent event))

/-- `ActivityGenerator::reportEvent`; `none` is `ABORT`. -/
def ActivityGenerator.reportEvent (g : ActivityGenerator w) (resource : Resource)
    (event : Event w) : Option (ActivityGenerator w) :=
  if event.timestamp = 0 then none
  else
    let oldSliceTimestamp := g.activityStep
    let g := g.reportEventInContext resource contextAll event
    if oldSliceTimestamp ≠ g.activityStep then
      let rd := g.getData resource
      some (g.setData resource { rd with
        stats := rd.stats.update (rd.getData contextAll).totals g.activityStep })
    else some g

/-- A report is handed to the generator; `reportUnfreedAlloc` does
nothing. -/
def ActivityGenerator.report (g : ActivityGenerator w) :
    Report w → Option (ActivityGenerator w)
  | .alloc resource event => g.reportEvent resource event
  | .allocInContext resource context event => some (g.reportEventInContext resource context event)
  | .free resource event _ => g.reportEvent resource event
  | .freeInContext resource context event _ => some (g.reportEventInContext resource context event)
  | .unfreedAlloc _ _ => some g

def ActivityGenerator.feed (g : ActivityGenerator w) (reports : List (Report w)) :
    Option (ActivityGenerator w) :=
  reports.foldlM ActivityGenerator.report g

/-! ## The last slice -/

/-- The last slice of each context of a resource type, and the peaks. -/
def ActivityData.finish (rd : ActivityData w) (timestamp slice : BitVec 32) : ActivityData w :=
  let contexts := rd.contexts.map fun _ cd => cd.processSlice timestamp slice
  let rd := { rd with contexts }
  { rd with stats := rd.stats.update (rd.getData contextAll).totals timestamp }

/-- The loop of `finalize` over the gathered data. -/
def ActivityGenerator.finish (g : ActivityGenerator w) : ActivityGenerator w :=
  let timestamp := g.activityStep + g.sliceStep
  let resources := g.resources.map fun _ rd => rd.finish timestamp g.sliceValue
  let totals := resources.toList.flatMap fun entry => entry.2.contexts.toList.map fun item => item.2.totals
  { totals.foldl (fun g totals => (g.updateRangeX timestamp).updateRangeY totals) g with resources }

/-- `ActivityGenerator::finalize`; `none` is the exception for an empty
report. -/
def ActivityGenerator.finalize (g : ActivityGenerator w) : Option (ActivityGenerator w) :=
  let g := g.finish
  if g.yrangeMax = 0 then none
  else some { g with yrangeMax := g.yrangeMax * 105 / 100, y2rangeMax := g.y2rangeMax * 105 / 100 }

/-! ## What the generator shows -/

/-- The data of a context of a resource type. -/
def ActivityGenerator.contextData (g : ActivityGenerator w) (typeId context : BitVec 32) :
    Option (ActivityContext w) :=
  g.resources[typeId]?.bind fun rd => rd.contexts[context]?

def linesOf (file : Option DataFile) : List (BitVec 32 × BitVec 32) :=
  match file with
  | none => []
  | some file => file.points

end SpRtrace.Timeline
