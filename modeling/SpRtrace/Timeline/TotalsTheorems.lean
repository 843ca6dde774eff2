/-
SpRtrace.Timeline.TotalsTheorems — the statistics of the totals report
against the leak filter.

The generator adds and subtracts with 32 bits. Behind some calls its
statistics are the tallies of the calls that are kept and of all
allocations, modulo 2^32 (`Follows`), and the peak is the first prefix
whose kept calls are largest (`FirstPeak`). What is kept stays small by
assumption; what was ever allocated need not, and `totalsRight_iff` says
when the report shows it.
-/
import SpRtrace.Timeline.Reports

namespace SpRtrace.Timeline

open SpRtrace.Lib SpRtrace.Common SpRtrace.Library SpRtrace.Postproc

/-! ## The first maximum of a run -/

section FirstPeak

variable {α : Type} [LinearOrder α]

/-- `i` is the first of the moments up to `n` at which `f` is largest. -/
structure FirstPeak (f : Nat → α) (n i : Nat) : Prop where
  reached : i ≤ n
  largest : ∀ j ≤ n, f j ≤ f i
  first : ∀ j < i, f j < f i

theorem FirstPeak.start (f : Nat → α) : FirstPeak f 0 0 :=
  ⟨Nat.le_refl 0, fun j hj => by rw [Nat.le_zero.mp hj], fun j hj => absurd hj (Nat.not_lt_zero j)⟩

/-- A new value that is larger is the new peak. -/
theorem FirstPeak.rise {f : Nat → α} {n i : Nat} (h : FirstPeak f n i) (hlt : f i < f (n + 1)) :
    FirstPeak f (n + 1) (n + 1) := by
  have hbelow : ∀ j ≤ n, f j < f (n + 1) := fun j hj => (h.largest j hj).trans_lt hlt
  refine ⟨Nat.le_refl _, fun j hj => ?_, fun j hj => hbelow j (Nat.lt_succ_iff.mp hj)⟩
  rcases Nat.lt_or_eq_of_le hj with hj | rfl
  · exact (hbelow j (Nat.lt_succ_iff.mp hj)).le
  · exact le_refl _

/-- A new value that is not larger leaves the peak where it is. -/
theorem FirstPeak.stay {f : Nat → α} {n i : Nat} (h : FirstPeak f n i) (hle : f (n + 1) ≤ f i) :
    FirstPeak f (n + 1) i := by
  refine ⟨Nat.le_succ_of_le h.reached, fun j hj => ?_, h.first⟩
  rcases Nat.lt_or_eq_of_le hj with hj | rfl
  · exact h.largest j (Nat.lt_succ_iff.mp hj)
  · exact hle

/-- Only the moments up to the last one count. -/
theorem FirstPeak.congr {f f' : Nat → α} {n i : Nat} (h : FirstPeak f n i)
    (heq : ∀ j ≤ n, f j = f' j) : FirstPeak f' n i := by
  refine ⟨h.reached, fun j hj => ?_, fun j hj => ?_⟩
  · rw [← heq j hj, ← heq i h.reached]
    exact h.largest j hj
  · rw [← heq j (hj.le.trans h.reached), ← heq i h.reached]
    exact h.first j hj

end FirstPeak

variable {w : Nat}

/-! ## What the reports do to the statistics -/

theorem statistics_setData (g : TotalsGenerator) (resource : Resource) (rd : ResourceData)
    (t : BitVec 32) :
    (g.setData resource rd).statistics t
      = if t = resource.typeId then rd.stats else g.statistics t := by
  unfold TotalsGenerator.statistics TotalsGenerator.setData
  rw [Std.TreeMap.getElem?_insert]
  by_cases ht : t = resource.typeId
  · rw [if_pos (Std.LawfulEqCmp.compare_eq_iff_eq.mpr ht.symm), if_pos ht]
  · rw [if_neg (fun heq => ht (Std.LawfulEqCmp.compare_eq_iff_eq.mp heq).symm), if_neg ht]

theorem getData_stats (g : TotalsGenerator) (resource : Resource) :
    (g.getData resource).stats = g.statistics resource.typeId := by
  unfold TotalsGenerator.getData TotalsGenerator.statistics
  rw [Std.TreeMap.getD_eq_getD_getElem?]
  cases g.resources[resource.typeId]? <;> rfl

/-- The totals of a context are not among the statistics. -/
theorem statistics_setContext (g : TotalsGenerator) (resource : Resource) (context : Context)
    (cd : ContextData) (t : BitVec 32) :
    (g.setData resource ((g.getData resource).setData context cd)).statistics t
      = g.statistics t := by
  rw [statistics_setData]
  split
  next ht => rw [ht, ← getData_stats]; rfl
  · rfl

theorem statistics_allocInContext (g : TotalsGenerator) (resource : Resource) (context : Context)
    (event : Event w) (t : BitVec 32) :
    (g.reportAllocInContext resource context event).statistics t = g.statistics t :=
  statistics_setContext g resource context _ t

theorem statistics_freeInContext (g : TotalsGenerator) (resource : Resource) (context : Context)
    (event : Event w) (t : BitVec 32) :
    (g.reportFreeInContext resource context event).statistics t = g.statistics t :=
  statistics_setContext g resource context _ t

theorem writeOverhead_stats (rd : ResourceData) (resource : Resource) (timestamp overhead : BitVec 32) :
    (rd.writeOverhead resource timestamp overhead).stats = rd.stats := by
  unfold ResourceData.writeOverhead
  split <;> rfl

/-- An event with a timestamp is counted in the statistics of its resource
type. -/
theorem statistics_alloc (g : TotalsGenerator) (resource : Resource) {event : Event w}
    (hstamp : event.timestamp ≠ 0) :
    ∃ g', g.reportAlloc resource event = some g' ∧ ∀ t, g'.statistics t =
      if t = resource.typeId then
        (g.statistics t).alloc (event.resSize.setWidth 32) event.timestamp
      else g.statistics t := by
  rw [TotalsGenerator.reportAlloc, if_neg hstamp]
  refine ⟨_, rfl, fun t => ?_⟩
  show (TotalsGenerator.setData _ resource _).statistics t = _
  have hfiles : ∀ t, (g.setData resource ((g.getData resource).createFiles resource)).statistics t
      = g.statistics t := by
    intro t
    rw [statistics_setData]
    split
    next ht => rw [ht, ← getData_stats]; rfl
    · rfl
  rw [statistics_setData]
  split
  next ht =>
    show (ResourceData.writeOverhead _ resource _ _).stats = _
    rw [writeOverhead_stats, getData_stats, statistics_allocInContext, hfiles, ht]
  · rw [statistics_allocInContext, hfiles]

/-- A free takes its size off the statistics of its resource type. -/
theorem statistics_free (g : TotalsGenerator) (resource : Resource) (event : Event w)
    (t : BitVec 32) :
    (g.reportFree resource event).statistics t =
      if t = resource.typeId then (g.statistics t).free (event.resSize.setWidth 32)
      else g.statistics t := by
  rw [TotalsGenerator.reportFree, statistics_setData]
  split
  next ht => rw [writeOverhead_stats, getData_stats, statistics_freeInContext, ht]
  · rw [statistics_freeInContext]

/-- The reports in the contexts are all taken, and they leave the
statistics alone. -/
theorem feed_contexts {reportIn : Context → Report w}
    {step : TotalsGenerator → Context → TotalsGenerator}
    (hreport : ∀ g ctx, TotalsGenerator.report g (reportIn ctx) = some (step g ctx))
    (contexts : List Context) (g : TotalsGenerator) :
    g.feed (contexts.map reportIn) = some (contexts.foldl step g) := by
  induction contexts generalizing g with
  | nil => rfl
  | cons ctx contexts ih =>
    rw [List.map_cons, TotalsGenerator.feed, List.foldlM_cons, hreport]
    exact ih (step g ctx)

/-- What each report in a context leaves alone, all of them do. -/
theorem foldl_keeps {β : Type} (view : TotalsGenerator → β)
    {step : TotalsGenerator → Context → TotalsGenerator}
    (hstep : ∀ g ctx, view (step g ctx) = view g) (contexts : List Context)
    (g : TotalsGenerator) : view (contexts.foldl step g) = view g := by
  induction contexts generalizing g with
  | nil => rfl
  | cons ctx contexts ih => rw [List.foldl_cons, ih, hstep]

theorem feed_allocReports (g : TotalsGenerator) (resource : Resource) (contexts : List Context)
    (event : Event w) :
    g.feed (allocReports resource contexts event) = (g.reportAlloc resource event).map fun g =>
      contexts.foldl (fun g ctx => g.reportAllocInContext resource ctx event) g := by
  rw [allocReports, TotalsGenerator.feed, List.foldlM_cons]
  show (g.reportAlloc resource event).bind (fun g => g.feed _) = _
  cases g.reportAlloc resource event with
  | none => rfl
  | some g => exact feed_contexts (fun _ _ => rfl) contexts g

theorem feed_freeReports (g : TotalsGenerator) (resource : Resource) (contexts : List Context)
    (event allocEvent : Event w) :
    g.feed (freeReports resource contexts event allocEvent) =
      some (contexts.foldl (fun g ctx =>
          g.reportFreeInContext resource ctx { event with resSize := allocEvent.resSize })
        (g.reportFree resource { event with resSize := allocEvent.resSize })) := by
  rw [freeReports, TotalsGenerator.feed, List.foldlM_cons]
  exact feed_contexts (fun _ _ => rfl) contexts _

/-! ## Tallies -/

/-- The number of some allocations and their total size. -/
structure Tally where
  count : Nat
  size : Nat
  deriving DecidableEq, Repr

/-- The size that the timeline has for a call. -/
def callSize (rd : Rd w) (c : Nat) : Nat :=
  match rd.fcall c with
  | none => 0
  | some x => (fcallEvent x).resSize.toNat

def tallyOf (rd : Rd w) (calls : List Nat) : Tally :=
  { count := calls.length, size := (calls.map (callSize rd)).sum }

def allocations (rd : Rd w) (calls : List Nat) : List Nat :=
  calls.filter fun c => callKind rd c = .alloc

def StatsData.Shows (data : StatsData) (tally : Tally) : Prop :=
  data.count.toNat = tally.count ∧ data.size.toNat = tally.size

/-- A tally with 32 bits. -/
def Tally.wrapped (tally : Tally) : StatsData :=
  { count := BitVec.ofNat 32 tally.count, size := BitVec.ofNat 32 tally.size }

theorem Tally.wrapped_shows (tally : Tally) :
    tally.wrapped.Shows tally ↔ tally.count < 2 ^ 32 ∧ tally.size < 2 ^ 32 := by
  unfold StatsData.Shows Tally.wrapped
  rw [BitVec.toNat_ofNat, BitVec.toNat_ofNat, Nat.mod_eq_iff_lt (by decide),
    Nat.mod_eq_iff_lt (by decide)]

theorem tallyOf_perm {rd : Rd w} {calls calls' : List Nat} (h : calls.Perm calls') :
    tallyOf rd calls = tallyOf rd calls' := by
  rw [tallyOf, tallyOf, h.length_eq, (h.map (callSize rd)).sum_eq]

theorem wrapped_snoc (rd : Rd w) (calls : List Nat) {c : Nat} {x : Fcall w}
    (hx : rd.fcall c = some x) :
    (tallyOf rd (calls ++ [c])).wrapped
      = (tallyOf rd calls).wrapped.add ((fcallEvent x).resSize.setWidth 32) := by
  have hsize : callSize rd c = (fcallEvent x).resSize.toNat := by rw [callSize, hx]
  simp [tallyOf, Tally.wrapped, StatsData.add, hsize, BitVec.ofNat_add]

theorem wrapped_cons (rd : Rd w) (calls : List Nat) {c : Nat} {x : Fcall w}
    (hx : rd.fcall c = some x) :
    (tallyOf rd calls).wrapped
      = (tallyOf rd (c :: calls)).wrapped.remove ((fcallEvent x).resSize.setWidth 32) := by
  have hsize : callSize rd c = (fcallEvent x).resSize.toNat := by rw [callSize, hx]
  simp [tallyOf, Tally.wrapped, StatsData.remove, hsize, BitVec.ofNat_add]

/-! ## What is kept -/

variable {rd : Rd w}

/-- An allocation is kept, and nothing goes. -/
theorem plainKept_alloc {calls : List Nat} {c : Nat} (hnd : (calls ++ [c]).Nodup)
    (hkind : callKind rd c = .alloc) : plainKept rd (calls ++ [c]) = plainKept rd calls ++ [c] := by
  rw [plainKept, keptCalls_snoc hnd, stepDrops, hkind]
  simp

/-- A free that cancels nothing changes nothing. -/
theorem plainKept_unmatched {calls : List Nat} {c : Nat} (hnd : (calls ++ [c]).Nodup)
    (hkind : callKind rd c = .free) (hcancel : cancels rd calls c = none) :
    plainKept rd (calls ++ [c]) = plainKept rd calls := by
  have hlive : (plainHistory rd calls (callKey rd c)).live = [] := List.head?_eq_none_iff.mp hcancel
  rw [plainHistory] at hlive
  have hc : c ∉ calls := fun hm => (List.nodup_append.mp hnd).2.2 c hm c (by simp) rfl
  rw [plainKept, keptCalls_snoc hnd, stepDrops, hkind]
  simp only [hlive, List.filter_append, List.mem_singleton]
  rw [List.filter_eq_self.mpr fun x hx => ?_, List.filter_eq_nil_iff.mpr (by simp), List.append_nil]
  rw [decide_eq_true_eq]
  rintro rfl
  exact hc (List.mem_filter.mp hx).1

/-- A free takes the allocation that it cancels away. -/
theorem plainKept_matched {calls : List Nat} {c a : Nat} (hnd : (calls ++ [c]).Nodup)
    (hkind : callKind rd c = .free) (hcancel : cancels rd calls c = some a) :
    (plainKept rd calls).Perm (a :: plainKept rd (calls ++ [c])) := by
  have hnd' := (List.nodup_append.mp hnd).1
  have hc : c ∉ calls := fun hm => (List.nodup_append.mp hnd).2.2 c hm c (by simp) rfl
  obtain ⟨hmem, -⟩ := head_of_mem hnd' hcancel
  obtain ⟨rest, hlive⟩ := List.head?_eq_some_iff.mp hcancel
  have hkeptnd : (plainKept rd calls).Nodup := hnd'.filter _
  have hkept : plainKept rd (calls ++ [c]) = (plainKept rd calls).erase a := by
    rw [plainHistory] at hlive
    rw [hkeptnd.erase_eq_filter, plainKept, keptCalls_snoc hnd, stepDrops, hkind]
    simp only [hlive, List.filter_append, Bool.not_false, Bool.true_or, if_true, List.mem_cons,
      List.not_mem_nil, or_false, not_or]
    have hself : [c].filter (fun x => decide (¬x = c ∧ ¬x = a)) = [] :=
      List.filter_eq_nil_iff.mpr (by simp)
    rw [hself, List.append_nil]
    refine List.filter_congr fun x hx => ?_
    have hxc : x ≠ c := by
      rintro rfl
      exact hc (List.mem_filter.mp hx).1
    rw [Bool.eq_iff_iff]
    simp [hxc]
  rw [hkept]
  exact List.perm_cons_erase hmem

/-- Every other call is an allocation or is not counted. -/
theorem allocations_snoc (calls : List Nat) (c : Nat) :
    allocations rd (calls ++ [c])
      = if callKind rd c = .alloc then allocations rd calls ++ [c] else allocations rd calls := by
  rw [allocations, List.filter_append]
  split
  next h => simp [allocations, h]
  next h => simp [allocations, h]

/-! ## The statistics of one resource -/

/-- The tally of what is kept of some calls. -/
def keptTally (rd : Rd w) (calls : List Nat) : Tally := tallyOf rd (plainKept rd calls)

/-- The tally of all allocations among some calls. -/
def allocTally (rd : Rd w) (calls : List Nat) : Tally := tallyOf rd (allocations rd calls)

/-- The timestamp of the last of some calls, zero when there is none. -/
def lastStamp (rd : Rd w) (calls : List Nat) : BitVec 32 :=
  match calls.getLast?.bind rd.fcall with
  | none => 0
  | some x => x.data.timestamp

/-- The statistics follow some calls: the tallies of what is kept and of
all allocations, now and at the first peak of what is kept. -/
structure Follows (rd : Rd w) (calls : List Nat) (stats : Stats) : Prop where
  leaks : stats.endLeaks = (keptTally rd calls).wrapped
  totals : stats.endTotals = (allocTally rd calls).wrapped
  peak : ∃ i, FirstPeak (fun j => (keptTally rd (calls.take j)).size) calls.length i ∧
    stats.peakLeaks = (keptTally rd (calls.take i)).wrapped ∧
    stats.peakTotals = (allocTally rd (calls.take i)).wrapped ∧
    stats.peakTimestamp = lastStamp rd (calls.take i)

theorem Follows.start (rd : Rd w) : Follows rd [] .new :=
  ⟨rfl, rfl, 0, FirstPeak.start _, rfl, rfl, rfl⟩

/-- The peak of more calls up to the old end. -/
theorem firstPeak_snoc {calls : List Nat} {c i : Nat}
    (h : FirstPeak (fun j => (keptTally rd (calls.take j)).size) calls.length i) :
    FirstPeak (fun j => (keptTally rd ((calls ++ [c]).take j)).size) calls.length i :=
  h.congr fun j hj => by rw [List.take_append_of_le_length hj]

/-- An allocation is counted, and it is the new peak when what is kept is
larger than ever. -/
theorem Follows.alloc {calls : List Nat} {c : Nat} {x : Fcall w} {stats : Stats}
    (h : Follows rd calls stats) (hnd : (calls ++ [c]).Nodup) (hkind : callKind rd c = .alloc)
    (hx : rd.fcall c = some x)
    (hsmall : ∀ j, (keptTally rd ((calls ++ [c]).take j)).size < 2 ^ 32) :
    Follows rd (calls ++ [c])
      (stats.alloc ((fcallEvent x).resSize.setWidth 32) x.data.timestamp) := by
  obtain ⟨i, hpeak, hleaks, htotals, hstamp⟩ := h.peak
  have hnew : stats.endLeaks.add ((fcallEvent x).resSize.setWidth 32)
      = (keptTally rd (calls ++ [c])).wrapped := by
    rw [h.leaks, keptTally, keptTally, plainKept_alloc hnd hkind, wrapped_snoc rd _ hx]
  have hall : stats.endTotals.add ((fcallEvent x).resSize.setWidth 32)
      = (allocTally rd (calls ++ [c])).wrapped := by
    rw [h.totals, allocTally, allocTally, allocations_snoc, if_pos hkind, wrapped_snoc rd _ hx]
  have hlen : (calls ++ [c]).length = calls.length + 1 := by simp
  have hwhole : (calls ++ [c]).take (calls.length + 1) = calls ++ [c] :=
    List.take_of_length_le (Nat.le_of_eq hlen)
  have htake : (calls ++ [c]).take i = calls.take i := List.take_append_of_le_length hpeak.reached
  have hlarger : (keptTally rd (calls ++ [c])).wrapped.size > (keptTally rd (calls.take i)).wrapped.size
      ↔ (keptTally rd (calls.take i)).size < (keptTally rd (calls ++ [c])).size := by
    have hi := hsmall i
    have hend := hsmall (calls.length + 1)
    rw [htake] at hi
    rw [hwhole] at hend
    rw [gt_iff_lt, BitVec.lt_def, Tally.wrapped, Tally.wrapped, BitVec.toNat_ofNat,
      BitVec.toNat_ofNat, Nat.mod_eq_of_lt hi, Nat.mod_eq_of_lt hend]
  unfold Stats.alloc
  simp only [hnew, hall, hleaks]
  by_cases hgt : (keptTally rd (calls ++ [c])).wrapped.size > (keptTally rd (calls.take i)).wrapped.size
  · rw [if_pos hgt]
    refine ⟨rfl, rfl, calls.length + 1, ?_, ?_, ?_, ?_⟩
    · rw [hlen]
      refine (firstPeak_snoc hpeak).rise ?_
      rw [htake, hwhole]
      exact hlarger.mp hgt
    · rw [hwhole]
    · rw [hwhole]
    · rw [hwhole, lastStamp, List.getLast?_append, List.getLast?_singleton, Option.some_or,
        Option.bind_some, hx]
  · rw [if_neg hgt]
    refine ⟨rfl, rfl, i, ?_, ?_, ?_, ?_⟩
    · rw [hlen]
      refine (firstPeak_snoc hpeak).stay ?_
      rw [htake, hwhole]
      exact Nat.le_of_not_lt fun hlt => hgt (hlarger.mpr hlt)
    · rw [htake]
    · rw [htake]; exact htotals
    · rw [htake]; exact hstamp

/-- A call that leaves less, and adds no allocation, keeps the peak. -/
theorem Follows.less {calls : List Nat} {c : Nat} {stats stats' : Stats}
    (h : Follows rd calls stats) (hkind : callKind rd c ≠ .alloc)
    (hle : (keptTally rd (calls ++ [c])).size ≤ (keptTally rd calls).size)
    (hleaks : stats'.endLeaks = (keptTally rd (calls ++ [c])).wrapped)
    (hrest : { stats' with endLeaks := stats.endLeaks } = stats) :
    Follows rd (calls ++ [c]) stats' := by
  obtain ⟨i, hpeak, hpleaks, hptotals, hpstamp⟩ := h.peak
  have hlen : (calls ++ [c]).length = calls.length + 1 := by simp
  have hwhole : (calls ++ [c]).take (calls.length + 1) = calls ++ [c] :=
    List.take_of_length_le (Nat.le_of_eq hlen)
  have htake : (calls ++ [c]).take i = calls.take i := List.take_append_of_le_length hpeak.reached
  have hlast := hpeak.largest calls.length (Nat.le_refl _)
  rw [List.take_length] at hlast
  rw [← hrest] at hpleaks hptotals hpstamp
  refine ⟨hleaks, ?_, i, ?_, ?_, ?_, ?_⟩
  · rw [allocTally, allocations_snoc, if_neg hkind, ← allocTally, ← h.totals, ← hrest]
  · rw [hlen]
    refine (firstPeak_snoc hpeak).stay ?_
    rw [htake, hwhole]
    exact hle.trans hlast
  · rw [htake]; exact hpleaks
  · rw [htake]; exact hptotals
  · rw [htake]; exact hpstamp

/-- All calls of the log are of one resource, and they have timestamps. -/
structure Single (rd : Rd w) (type : Nat) (res : Common.Resource w) : Prop where
  resource : rd.resource type = some res
  calls : ∀ c ∈ rd.calls, ∃ x, rd.fcall c = some x ∧ x.data.resType = some type ∧
    x.data.timestamp ≠ 0
  small : ∀ j, (keptTally rd (rd.calls.take j)).size < 2 ^ 32

/-- **One call**: the statistics follow it. -/
theorem follows_step (h : Logged rd) (hnd : rd.calls.Nodup) {type : Nat} {res : Common.Resource w}
    (hone : Single rd type res) {pre post : List Nat} {c : Nat} (heq : rd.calls = pre ++ c :: post)
    {g : TotalsGenerator} (hg : Follows rd pre (g.statistics (timelineResource res).typeId)) :
    ∃ g', g.feed (callReports rd pre c) = some g' ∧
      Follows rd (pre ++ [c]) (g'.statistics (timelineResource res).typeId) := by
  have hc : c ∈ rd.calls := by rw [heq]; simp
  have hsplit : rd.calls = (pre ++ [c]) ++ post := by rw [heq]; simp
  have hnd' : (pre ++ [c]).Nodup := by
    rw [hsplit] at hnd
    exact (List.nodup_append.mp hnd).1
  obtain ⟨x, hx, hxtype, hstamp⟩ := hone.calls c hc
  have hbind : x.data.resType.bind rd.resource = some res := by
    rw [hxtype, Option.bind_some, hone.resource]
  rcases h.kinds c hc x hx with halloc | hfree
  · have hkind : callKind rd c = .alloc := by rw [callKind, hx]; simp [halloc]
    have hreports : callReports rd pre c = allocReports (timelineResource res)
        (logContexts rd x.data.context) (fcallEvent x) := by
      rw [callReports, hx]
      simp only [hbind, halloc, if_true]
    have hevent : (fcallEvent x).timestamp ≠ 0 := hstamp
    obtain ⟨g₁, hg₁, hstats⟩ := statistics_alloc g (timelineResource res) hevent
    have hsmall : ∀ j, (keptTally rd ((pre ++ [c]).take j)).size < 2 ^ 32 := by
      intro j
      have hmin := hone.small (min j (pre ++ [c]).length)
      rwa [hsplit, List.take_append_of_le_length (Nat.min_le_right _ _), ← List.take_take,
        List.take_length] at hmin
    rw [hreports, feed_allocReports, hg₁]
    refine ⟨_, rfl, ?_⟩
    rw [foldl_keeps (fun g => g.statistics (timelineResource res).typeId)
      fun g ctx => statistics_allocInContext g _ ctx _ _, hstats, if_pos rfl]
    exact hg.alloc hnd' hkind hx hsmall
  · have hne : x.data.type ≠ ftypeAlloc := by rw [hfree]; decide
    have hkind : callKind rd c = .free := by rw [callKind, hx]; simp [hfree, ftypeAlloc, ftypeFree]
    have hnotAlloc : callKind rd c ≠ .alloc := by rw [hkind]; decide
    have hreports : callReports rd pre c = (((cancels rd pre c).bind rd.fcall).map fun a =>
        freeReports (timelineResource res) (logContexts rd x.data.context) (fcallFree x)
          (fcallEvent a)).getD [] := by
      rw [callReports, hx]
      simp only [hbind, if_neg hne]
    cases hcancel : cancels rd pre c with
    | none =>
      have hkept := plainKept_unmatched hnd' hkind hcancel
      rw [hcancel] at hreports
      rw [hreports]
      refine ⟨g, rfl, hg.less hnotAlloc ?_ ?_ rfl⟩
      · rw [keptTally, hkept, keptTally]
      · rw [keptTally, hkept, hg.leaks, keptTally]
    | some a =>
      obtain ⟨y, hy, -⟩ := live_call (List.nodup_append.mp hnd').1 hcancel
      have hkept := plainKept_matched hnd' hkind hcancel
      have htally : keptTally rd pre = tallyOf rd (a :: plainKept rd (pre ++ [c])) :=
        tallyOf_perm hkept
      rw [hcancel, Option.bind_some, hy, Option.map_some, Option.getD_some] at hreports
      rw [hreports, feed_freeReports]
      refine ⟨_, rfl, ?_⟩
      rw [foldl_keeps (fun g => g.statistics (timelineResource res).typeId)
        fun g ctx => statistics_freeInContext g _ ctx _ _, statistics_free, if_pos rfl]
      refine hg.less hnotAlloc ?_ ?_ rfl
      · rw [htally, keptTally, tallyOf, tallyOf, List.map_cons, List.sum_cons]
        exact Nat.le_add_left _ _
      · show (StatsData.remove _ ((fcallEvent y).resSize.setWidth 32)) = _
        rw [hg.leaks, htally, keptTally, ← wrapped_cons rd _ hy]

/-- **The statistics of the report**, modulo 2^32, behind every prefix. -/
theorem follows_run (h : Logged rd) (hnd : rd.calls.Nodup) {type : Nat} {res : Common.Resource w}
    (hone : Single rd type res) {pre : List Nat} : ∀ post, rd.calls = pre ++ post →
      ∃ g, totalsReport rd pre = some g ∧
        Follows rd pre (g.statistics (timelineResource res).typeId) := by
  induction pre using List.reverseRecOn with
  | nil =>
    intro _ _
    exact ⟨.new, totalsReport_nil h, Follows.start rd⟩
  | append_singleton pre c ih =>
    intro post heq
    have hsplit : rd.calls = pre ++ c :: post := by rw [heq]; simp
    obtain ⟨g, hrun, hg⟩ := ih (c :: post) hsplit
    obtain ⟨g', hfeed, hg'⟩ := follows_step h hnd hone hsplit hg
    refine ⟨g', ?_, hg'⟩
    rw [totalsReport_snoc h hnd hsplit, hrun, Option.bind_some, hfeed]

end SpRtrace.Timeline
