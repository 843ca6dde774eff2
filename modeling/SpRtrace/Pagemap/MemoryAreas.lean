/-
SpRtrace.Pagemap.MemoryAreas — the memory areas and their events,
`src/rtrace-pagemap/memory_area.cpp` and `trace_data.cpp`.

An allocation event is stored in the first area that contains its
address, and the events of an area are sorted by their addresses when the
report has been read. The flags of an area are the records behind the
pointer that the lookup in the pageflags file gave, `none` is NULL. The
information and the permissions of an area are not used here.
-/
import Mathlib
import SpRtrace.Common.RtraceData
import SpRtrace.Pagemap.Pageflags

namespace SpRtrace.Pagemap

open SpRtrace.Lib SpRtrace.Common

structure MemoryArea where
  fromAddr : BitVec 64
  toAddr : BitVec 64
  flags : Option (List PageflagsData)
  path : Str
  events : List (FcallData 64)
deriving DecidableEq

/-- The test of `TraceData::findMemoryArea`. -/
def MemoryArea.contains (area : MemoryArea) (address : BitVec 64) : Bool :=
  area.fromAddr ≤ address ∧ address < area.toAddr

def MemoryArea.addEvent (area : MemoryArea) (call : FcallData 64) : MemoryArea :=
  { area with events := area.events ++ [call] }

def compareResId (first second : FcallData 64) : Bool := first.resId < second.resId

/-- `MemoryArea::sortEvents`; the sort of a list is stable. -/
def MemoryArea.sortEvents (area : MemoryArea) : MemoryArea :=
  { area with events := area.events.mergeSort fun first second => !compareResId second first }

/-- An allocation event of the report: `TraceData::findMemoryArea` and
`addEvent`. -/
def storeEvent : List MemoryArea → FcallData 64 → List MemoryArea
  | [], _ => []
  | area :: areas, call =>
      if area.contains call.resId then area.addEvent call :: areas
      else area :: storeEvent areas call

def storeEvents (areas : List MemoryArea) (calls : List (FcallData 64)) : List MemoryArea :=
  (calls.foldl storeEvent areas).map MemoryArea.sortEvents

/-- Every event is in the area. -/
def MemoryArea.Holds (area : MemoryArea) : Prop :=
  ∀ call ∈ area.events, area.contains call.resId = true

theorem storeEvent_holds {areas : List MemoryArea} (h : ∀ area ∈ areas, area.Holds)
    (call : FcallData 64) : ∀ area ∈ storeEvent areas call, area.Holds := by
  induction areas with
  | nil => exact h
  | cons area areas ih =>
    obtain ⟨harea, hareas⟩ := List.forall_mem_cons.mp h
    unfold storeEvent
    split
    · rename_i hin
      refine List.forall_mem_cons.mpr ⟨fun c hc => ?_, hareas⟩
      rcases List.mem_append.mp hc with hc | hc
      · exact harea c hc
      · rw [List.mem_singleton.mp hc]
        exact hin
    · exact List.forall_mem_cons.mpr ⟨harea, ih hareas⟩

theorem MemoryArea.Holds.sortEvents {area : MemoryArea} (h : area.Holds) :
    area.sortEvents.Holds := fun call hcall => h call (List.mem_mergeSort.mp hcall)

/-- **Events are in their areas**: this is so when a report has been read,
for areas that had no events before. -/
theorem storeEvents_holds {areas : List MemoryArea} (h : ∀ area ∈ areas, area.events = [])
    (calls : List (FcallData 64)) : ∀ area ∈ storeEvents areas calls, area.Holds := by
  have hfold : ∀ areas : List MemoryArea, (∀ area ∈ areas, area.Holds) →
      ∀ area ∈ calls.foldl storeEvent areas, area.Holds := by
    induction calls with
    | nil => exact fun _ hareas => hareas
    | cons call calls ih => exact fun areas hareas => ih _ (storeEvent_holds hareas call)
  intro area harea
  obtain ⟨area', hmem, rfl⟩ := List.mem_map.mp harea
  refine (hfold areas (fun a ha c hc => ?_) area' hmem).sortEvents
  rw [h a ha] at hc
  exact absurd hc List.not_mem_nil

end SpRtrace.Pagemap
