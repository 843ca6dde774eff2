/-
SpRtrace.Timeline.ActivityTheorems — what one step of the activity report
keeps.

`PairRight` is what holds of the data of one context of a resource type:
its totals are those of the events it still has, these are its events from
some time on, and every line that was written is the one of its window. A
new event keeps it (`pair_add`), and so does a step that is due
(`pair_step`).
-/
import SpRtrace.Timeline.Activity

namespace SpRtrace.Timeline

open SpRtrace.Lib SpRtrace.Common SpRtrace.Library

variable {w : Nat}

/-! ## Totals of events -/

def Event.time (event : Event w) : Nat := event.timestamp.toNat

def allocSize (events : List (Event w)) : Nat :=
  ((events.filter fun e => e.type = .alloc).map fun e => e.resSize.toNat).sum

def allocCount (events : List (Event w)) : Nat := (events.filter fun e => e.type = .alloc).length

def freeCount (events : List (Event w)) : Nat := (events.filter fun e => e.type = .free).length

/-- The totals of some events, as the generator has them. -/
def totalsOf (events : List (Event w)) : SliceTotals :=
  { totalSize := BitVec.ofNat 32 (allocSize events)
    totalAllocs := BitVec.ofNat 32 (allocCount events)
    totalFrees := BitVec.ofNat 32 (freeCount events) }

theorem totalsOf_snoc (events : List (Event w)) (event : Event w) :
    totalsOf (events ++ [event]) = (totalsOf events).add event := by
  cases htype : event.type with
  | alloc =>
    simp [totalsOf, SliceTotals.add, allocSize, allocCount, freeCount, htype, BitVec.ofNat_add,
      BitVec.ofNat_toNat]
  | free =>
    simp [totalsOf, SliceTotals.add, allocSize, allocCount, freeCount, htype, BitVec.ofNat_add]

theorem totalsOf_cons_remove (event : Event w) (events : List (Event w)) :
    (totalsOf (event :: events)).remove event = totalsOf events := by
  cases htype : event.type with
  | alloc =>
    simp [totalsOf, SliceTotals.remove, allocSize, allocCount, freeCount, htype, BitVec.ofNat_add,
      BitVec.ofNat_toNat]
  | free =>
    simp [totalsOf, SliceTotals.remove, allocSize, allocCount, freeCount, htype, BitVec.ofNat_add]

/-- Events are removed from the front. -/
theorem totalsOf_remove (removed events : List (Event w)) :
    removed.foldl SliceTotals.remove (totalsOf (removed ++ events)) = totalsOf events := by
  induction removed with
  | nil => rfl
  | cons event removed ih => rw [List.cons_append, List.foldl_cons, totalsOf_cons_remove, ih]

/-! ## Windows -/

/-- The events with times in `[T - slice, T)`. -/
def inWindow (slice T : Nat) (events : List (Event w)) : List (Event w) :=
  events.filter fun e => T ≤ e.time + slice ∧ e.time < T

/-- Later events do not change a window. -/
theorem inWindow_snoc {slice T : Nat} {event : Event w} (h : T ≤ event.time)
    (events : List (Event w)) : inWindow slice T (events ++ [event]) = inWindow slice T events := by
  have hlate : ¬ (T ≤ event.time + slice ∧ event.time < T) := by omega
  rw [inWindow, List.filter_append, List.filter_cons_of_neg (by simpa using hlate), List.filter_nil,
    List.append_nil]
  rfl

/-- The events that a slice keeps. -/
theorem dropWhile_sorted {events : List (Event w)} (h : events.Pairwise fun a b => a.time ≤ b.time)
    (limit : Nat) :
    events.dropWhile (fun e => e.time < limit) = events.filter fun e => limit ≤ e.time := by
  induction events with
  | nil => rfl
  | cons event events ih =>
    obtain ⟨hfirst, hrest⟩ := List.pairwise_cons.mp h
    by_cases hlt : event.time < limit
    · rw [List.dropWhile_cons_of_pos (by simpa using hlt), ih hrest,
        List.filter_cons_of_neg (by simpa using hlt)]
    · have hall : ∀ e ∈ event :: events, limit ≤ e.time := by
        intro e he
        rcases List.mem_cons.mp he with rfl | he
        · omega
        · exact (Nat.le_of_not_lt hlt).trans (hfirst e he)
      rw [List.dropWhile_cons_of_neg (by simpa using hlt), eq_comm, List.filter_eq_self]
      intro e he
      simpa using hall e he

/-! ## One context -/

/-- The lines of a file as numbers. -/
def naturals (points : List (BitVec 32 × BitVec 32)) : List (Nat × Nat) :=
  points.map fun point => (point.1.toNat, point.2.toNat)

/-- The lines of a file are those of the windows at some times. -/
def WindowLines (file : Option DataFile) (times : List Nat) (total : Nat → Nat) : Prop :=
  ∃ f, file = some f ∧ naturals f.points = times.map fun T => (T, total T)

/-- The steps at `times` follow one another with the one at `next` behind
them, the first one is the first behind the time `start`. -/
structure StepTimes (step start next : Nat) (times : List Nat) : Prop where
  chain : (times ++ [next]).IsChain fun a b => b = a + step
  first : ∀ T ∈ (times ++ [next]).head?, start < T ∧ T ≤ start + step
  past : ∀ T ∈ times, T + step ≤ next

theorem StepTimes.step {step start next : Nat} {times : List Nat}
    (h : StepTimes step start next times) :
    StepTimes step start (next + step) (times ++ [next]) where
  chain := by
    rw [List.isChain_append]
    refine ⟨h.chain, List.isChain_singleton _, ?_⟩
    intro a ha b hb
    simp only [List.getLast?_append, List.getLast?_singleton, Option.some_or, Option.mem_some_iff,
      List.head?_cons] at ha hb
    rw [← ha, ← hb]
  first T hT := by
    have hsame : (times ++ [next] ++ [next + step]).head? = (times ++ [next]).head? := by
      cases times <;> rfl
    exact h.first T (hsame ▸ hT)
  past T hT := by
    rcases List.mem_append.mp hT with hT | hT
    · have := h.past T hT
      omega
    · rw [List.mem_singleton.mp hT]

/-- What holds of the data of a context with the events `E` when the next
step is at `next`. -/
structure PairRight (slice step next : Nat) (E : List (Event w)) (cd : ActivityContext w)
    (times : List Nat) : Prop where
  totals : cd.totals = totalsOf cd.events
  events : ∃ limit, limit + step ≤ next ∧ limit ≤ next - slice ∧
    cd.events = E.filter fun e => limit ≤ e.time
  rate : WindowLines cd.fileRate times fun T => allocSize (inWindow slice T E)
  allocs : WindowLines cd.fileAllocs times fun T => allocCount (inWindow slice T E)
  frees : WindowLines cd.fileFrees times fun T => freeCount (inWindow slice T E)
  steps : ∀ e ∈ E.head?, StepTimes step e.time next times

theorem WindowLines.congr {file : Option DataFile} {times : List Nat} {total total' : Nat → Nat}
    (h : WindowLines file times total) (hsame : ∀ T ∈ times, total' T = total T) :
    WindowLines file times total' := by
  obtain ⟨f, hf, hlines⟩ := h
  refine ⟨f, hf, hlines.trans (List.map_congr_left ?_)⟩
  intro T hT
  rw [hsame T hT]

theorem WindowLines.write {file : Option DataFile} {times : List Nat} {total : Nat → Nat}
    (h : WindowLines file times total) {T value : BitVec 32} (hvalue : value.toNat = total T.toNat) :
    WindowLines (file.map fun f => f.write T value) (times ++ [T.toNat]) total := by
  obtain ⟨f, rfl, hlines⟩ := h
  refine ⟨_, rfl, ?_⟩
  show naturals (f.points ++ [(T, value)]) = _
  rw [naturals, List.map_append, ← naturals, hlines, List.map_append]
  simp [hvalue]

/-- **A new event.** -/
theorem pair_add {slice step next : Nat} {E : List (Event w)} {cd : ActivityContext w}
    {times : List Nat} (h : PairRight slice step next E cd times) (hE : E ≠ []) {event : Event w}
    (hnext : next ≤ event.time + step) :
    PairRight slice step next (E ++ [event]) (cd.addEvent event) times := by
  obtain ⟨first, E', rfl⟩ := List.exists_cons_of_ne_nil hE
  have hstart := h.steps first (by simp)
  have hsame : ∀ T ∈ times, inWindow slice T (first :: E' ++ [event])
      = inWindow slice T (first :: E') := by
    intro T hT
    have := hstart.past T hT
    exact inWindow_snoc (by omega) _
  obtain ⟨limit, hstep, hslice, hevents⟩ := h.events
  refine ⟨?_, ⟨limit, hstep, hslice, ?_⟩, ?_, ?_, ?_, h.steps⟩
  · show cd.totals.add event = totalsOf (cd.events ++ [event])
    rw [h.totals, totalsOf_snoc]
  · show cd.events ++ [event] = _
    have hlate : limit ≤ event.time := by omega
    have hone : [event].filter (fun e => limit ≤ e.time) = [event] := by simp [hlate]
    rw [List.filter_append, hone, hevents]
  · exact h.rate.congr fun T hT => by rw [hsame T hT]
  · exact h.allocs.congr fun T hT => by rw [hsame T hT]
  · exact h.frees.congr fun T hT => by rw [hsame T hT]

/-- The first event of a context. -/
theorem pair_new (slice : Nat) {step next : Nat} (resource : Resource) (context : Context)
    {event : Event w} (hnext : next ≤ event.time + step) (hbefore : event.time < next)
    (hstep : step ≤ next) :
    PairRight slice step next [event]
      (((ActivityContext.new context).createFiles resource context).addEvent event) [] where
  totals := (totalsOf_snoc [] event).symm
  events := ⟨0, by omega, by omega, by simp [ActivityContext.createFiles, ActivityContext.new,
    ActivityContext.addEvent]⟩
  rate := ⟨_, rfl, rfl⟩
  allocs := ⟨_, rfl, rfl⟩
  frees := ⟨_, rfl, rfl⟩
  steps e he := by
    obtain rfl : event = e := by simpa using he
    refine ⟨List.isChain_singleton _, ?_, fun T hT => absurd hT List.not_mem_nil⟩
    intro T hT
    obtain rfl : next = T := by simpa using hT
    exact ⟨hbefore, hnext⟩

/-- The totals of a window fit into the counters. -/
structure Fits (events : List (Event w)) : Prop where
  size : allocSize events < 2 ^ 32
  allocs : allocCount events < 2 ^ 32
  frees : freeCount events < 2 ^ 32

/-- **A step that is due.** -/
theorem pair_step {slice step next : Nat} {E : List (Event w)} {cd : ActivityContext w}
    {times : List Nat} (h : PairRight slice step next E cd times)
    (hsorted : E.Pairwise fun a b => a.time ≤ b.time) (hbefore : ∀ e ∈ E, e.time < next)
    {timestamp sliceValue : BitVec 32} (htimestamp : timestamp.toNat = next)
    (hvalue : sliceValue.toNat = slice) (hslice : slice ≤ next)
    (hfits : Fits (inWindow slice next E)) :
    PairRight slice step (next + step) E (cd.processSlice timestamp sliceValue)
      (times ++ [next]) := by
  obtain ⟨limit, hstep, hlimit, hevents⟩ := h.events
  have hsub : (timestamp - sliceValue).toNat = next - slice := by
    rw [BitVec.toNat_sub_of_le (by rw [BitVec.le_def]; omega), htimestamp, hvalue]
  have hcut : (fun event : Event w => decide (event.timestamp < timestamp - sliceValue))
      = fun event => decide (event.time < next - slice) := by
    funext event
    exact decide_eq_decide.mpr (by rw [BitVec.lt_def, hsub]; rfl)
  have hkept : cd.events.dropWhile (fun event => decide (event.time < next - slice))
      = inWindow slice next E := by
    have hsortedKept : cd.events.Pairwise fun a b => a.time ≤ b.time := by
      rw [hevents]
      exact hsorted.filter _
    rw [dropWhile_sorted hsortedKept, hevents, List.filter_filter, inWindow]
    refine List.filter_congr fun e he => ?_
    have := hbefore e he
    simp only [← Bool.decide_and, decide_eq_decide]
    omega
  generalize hremoved : cd.events.takeWhile (fun event => decide (event.time < next - slice))
    = removed at *
  have hsplit : cd.events = removed ++ inWindow slice next E := by
    rw [← hremoved, ← hkept, List.takeWhile_append_dropWhile]
  have htotals : removed.foldl SliceTotals.remove cd.totals = totalsOf (inWindow slice next E) := by
    rw [h.totals, hsplit, totalsOf_remove]
  have hprocess : cd.processSlice timestamp sliceValue =
      { cd with
        events := inWindow slice next E
        totals := totalsOf (inWindow slice next E)
        fileRate := cd.fileRate.map fun file =>
          file.write timestamp (totalsOf (inWindow slice next E)).totalSize
        fileAllocs := cd.fileAllocs.map fun file =>
          file.write timestamp (totalsOf (inWindow slice next E)).totalAllocs
        fileFrees := cd.fileFrees.map fun file =>
          file.write timestamp (totalsOf (inWindow slice next E)).totalFrees } := by
    have hdrop : cd.events.drop removed.length = inWindow slice next E := by
      rw [hsplit, List.drop_left]
    rw [ActivityContext.processSlice, hcut, hremoved]
    simp only [hdrop, htotals]
  rw [hprocess]
  refine ⟨rfl, ⟨next - slice, ?_, ?_, ?_⟩, ?_, ?_, ?_, ?_⟩
  · omega
  · omega
  · refine List.filter_congr fun e he => ?_
    have := hbefore e he
    exact decide_eq_decide.mpr (by omega)
  · exact htimestamp ▸ h.rate.write (by
      rw [htimestamp]
      exact Nat.mod_eq_of_lt hfits.size)
  · exact htimestamp ▸ h.allocs.write (by
      rw [htimestamp]
      exact Nat.mod_eq_of_lt hfits.allocs)
  · exact htimestamp ▸ h.frees.write (by
      rw [htimestamp]
      exact Nat.mod_eq_of_lt hfits.frees)
  · exact fun e he => (h.steps e he).step

/-- The files of a context are made once. -/
theorem PairRight.createFiles {slice step next : Nat} {E : List (Event w)} {cd : ActivityContext w}
    {times : List Nat} (h : PairRight slice step next E cd times) (resource : Resource)
    (context : Context) : cd.createFiles resource context = cd := by
  obtain ⟨file, hfile, -⟩ := h.allocs
  rw [ActivityContext.createFiles, if_neg (by simp [hfile])]

/-! ## The generator -/

theorem activityData_setData (g : ActivityGenerator w) (resource : Resource) (rd : ActivityData w)
    (t k : BitVec 32) : (g.setData resource rd).contextData t k
      = if t = resource.typeId then rd.contexts[k]? else g.contextData t k := by
  unfold ActivityGenerator.contextData ActivityGenerator.setData
  rw [Std.TreeMap.getElem?_insert]
  by_cases ht : t = resource.typeId
  · rw [if_pos (Std.LawfulEqCmp.compare_eq_iff_eq.mpr ht.symm), if_pos ht, Option.bind_some]
  · rw [if_neg (fun heq => ht (Std.LawfulEqCmp.compare_eq_iff_eq.mp heq).symm), if_neg ht]

theorem activityData_contexts (g : ActivityGenerator w) (resource : Resource) (k : BitVec 32) :
    (g.getData resource).contexts[k]? = g.contextData resource.typeId k := by
  unfold ActivityGenerator.getData ActivityGenerator.contextData
  rw [Std.TreeMap.getD_eq_getD_getElem?]
  cases g.resources[resource.typeId]? with
  | none => exact Std.TreeMap.getElem?_emptyc
  | some rd => rfl

/-- The data of a context, new if there is none. -/
def ActivityGenerator.dataOf (g : ActivityGenerator w) (resource : Resource) (context : Context) :
    ActivityContext w :=
  ((g.contextData resource.typeId context.id).getD (.new context)).createFiles resource context

theorem getData_dataOf (g : ActivityGenerator w) (resource : Resource) (context : Context) :
    ((g.getData resource).getData context).createFiles resource context
      = g.dataOf resource context := by
  rw [ActivityData.getData, Std.TreeMap.getD_eq_getD_getElem?, activityData_contexts]
  rfl

theorem activityData_set (g : ActivityGenerator w) (resource : Resource) (context : Context)
    (cd : ActivityContext w) (t k : BitVec 32) :
    (g.setData resource ((g.getData resource).setData context cd)).contextData t k
      = if t = resource.typeId ∧ k = context.id then some cd else g.contextData t k := by
  rw [activityData_setData]
  by_cases ht : t = resource.typeId
  · rw [if_pos ht, ActivityData.setData]
    dsimp only
    rw [Std.TreeMap.getElem?_insert, activityData_contexts, ht]
    by_cases hk : k = context.id
    · rw [if_pos (Std.LawfulEqCmp.compare_eq_iff_eq.mpr hk.symm), if_pos ⟨rfl, hk⟩]
    · rw [if_neg (fun heq => hk (Std.LawfulEqCmp.compare_eq_iff_eq.mp heq).symm),
        if_neg fun hboth => hk hboth.2]
  · rw [if_neg ht, if_neg fun hboth => ht hboth.1]

/-- What a report does to the clock and to the data of the contexts. -/
structure Reported (g g' : ActivityGenerator w) (activityStep : BitVec 32)
    (data : BitVec 32 → BitVec 32 → Option (ActivityContext w)) : Prop where
  activityStep : g'.activityStep = activityStep
  sliceValue : g'.sliceValue = g.sliceValue
  sliceStep : g'.sliceStep = g.sliceStep
  data : ∀ t k, g'.contextData t k = data t k

/-- An event in front of the next step. -/
theorem reportEventInContext_adds (g : ActivityGenerator w) (resource : Resource)
    (context : Context) {event : Event w}
    (hdue : ¬ (g.firstStep event.timestamp).activityStep + g.sliceStep ≤ event.timestamp) :
    Reported g (g.reportEventInContext resource context event)
      (g.firstStep event.timestamp).activityStep fun t k =>
        if t = resource.typeId ∧ k = context.id then
          some ((g.dataOf resource context).addEvent event)
        else g.contextData t k := by
  have hstep : (g.firstStep event.timestamp).sliceStep = g.sliceStep := by
    unfold ActivityGenerator.firstStep
    split <;> rfl
  have hvalue : (g.firstStep event.timestamp).sliceValue = g.sliceValue := by
    unfold ActivityGenerator.firstStep
    split <;> rfl
  have hresources : (g.firstStep event.timestamp).resources = g.resources := by
    unfold ActivityGenerator.firstStep
    split <;> rfl
  have hreport : g.reportEventInContext resource context event
      = (g.firstStep event.timestamp).setData resource ((g.getData resource).setData context
        ((g.dataOf resource context).addEvent event)) := by
    unfold ActivityGenerator.reportEventInContext
    simp only [hstep, if_neg hdue, getData_dataOf]
  rw [hreport]
  refine ⟨rfl, hvalue, hstep, fun t k => ?_⟩
  rw [← activityData_set, ActivityGenerator.contextData, ActivityGenerator.setData]
  dsimp only
  rw [hresources]
  rfl

/-- An event behind the next step. -/
theorem reportEventInContext_steps (g : ActivityGenerator w) (resource : Resource)
    (context : Context) {event : Event w} (hstarted : g.activityStep ≠ 0)
    (hdue : g.activityStep + g.sliceStep ≤ event.timestamp) :
    Reported g (g.reportEventInContext resource context event) (g.activityStep + g.sliceStep)
      fun t k =>
        if t = resource.typeId ∧ k = context.id then
          some (((g.dataOf resource context).processSlice (g.activityStep + g.sliceStep)
            g.sliceValue).addEvent event)
        else g.contextData t k := by
  have hfirst : g.firstStep event.timestamp = g := if_neg hstarted
  unfold ActivityGenerator.reportEventInContext
  simp only [hfirst, if_pos hdue, getData_dataOf]
  refine ⟨rfl, rfl, rfl, fun t k => ?_⟩
  rw [← activityData_set]
  rfl

theorem reportEvent_reports (g : ActivityGenerator w) (resource : Resource) {event : Event w}
    (htime : event.timestamp ≠ 0) :
    ∃ g', g.reportEvent resource event = some g' ∧
      Reported (g.reportEventInContext resource contextAll event) g'
        (g.reportEventInContext resource contextAll event).activityStep
        (g.reportEventInContext resource contextAll event).contextData := by
  unfold ActivityGenerator.reportEvent
  simp only [if_neg htime]
  split
  · refine ⟨_, rfl, rfl, rfl, rfl, fun t k => ?_⟩
    rw [activityData_setData]
    split
    next ht => rw [activityData_contexts, ht]
    · rfl
  · exact ⟨_, rfl, rfl, rfl, rfl, fun _ _ => rfl⟩

end SpRtrace.Timeline
