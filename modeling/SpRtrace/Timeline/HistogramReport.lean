/-
SpRtrace.Timeline.HistogramReport — the table of the histogram reports.

The vectors of `finalize` are the sorted sizes, and the rows of what was
freed and of what was not have the right number and total size
(`histogram_rows`). The row of both has no number at all, so no table is
right (`histogram_never`). The median of an even number is taken one
element too far, and of two behind the end (`getMedian_isSome`).
-/
import SpRtrace.Timeline.HistogramTheorems
import SpRtrace.Timeline.TotalsReport

namespace SpRtrace.Timeline

open SpRtrace.Lib SpRtrace.Common SpRtrace.Library SpRtrace.Postproc

variable {w : Nat}

/-! ## Medians -/

/-- The median of some numbers: the middle one, or the mean of the two
middle ones. -/
def medianOf (l : List (BitVec 32)) : Nat :=
  let sorted := (l.mergeSort fun a b => a ≤ b).map BitVec.toNat
  let middle := sorted.getD (l.length / 2) 0
  if l.length = 0 then 0
  else if l.length % 2 = 0 then (sorted.getD (l.length / 2 - 1) 0 + middle) / 2
  else middle

/-- `getMedian` leaves the vector when it has two elements. -/
theorem getMedian_isSome (stats : HistogramStats) (hlen : stats.allocs.length < 2 ^ 32) :
    stats.getMedian.isSome ↔ stats.allocs.length ≠ 2 := by
  unfold HistogramStats.getMedian
  rw [Nat.mod_eq_of_lt hlen]
  by_cases hzero : stats.allocs.length = 0
  · simp [hzero]
  · have hmiddle : stats.allocs.length / 2 < stats.allocs.length := by omega
    simp only [if_neg hzero, List.getElem?_eq_getElem hmiddle, Option.bind_eq_bind, Option.bind_some]
    by_cases heven : stats.allocs.length % 2 = 0
    · rw [if_pos heven]
      rcases Nat.lt_or_ge (stats.allocs.length / 2 + 1) stats.allocs.length with hlt | hge
      · rw [List.getElem?_eq_getElem hlt]
        simp only [Option.bind_some, Option.isSome_some, true_iff]
        omega
      · rw [List.getElem?_eq_none hge]
        simp only [Option.bind_none, Option.isSome_none, Bool.false_eq_true, false_iff]
        omega
    · rw [if_neg heven]
      simp only [Option.isSome_some, true_iff]
      omega

/-- The median of an odd number of sorted elements is right. -/
theorem getMedian_odd (stats : HistogramStats) (hlen : stats.allocs.length < 2 ^ 32)
    (hsorted : stats.allocs.Pairwise (· ≤ ·)) (hodd : stats.allocs.length % 2 = 1) :
    stats.getMedian.map BitVec.toNat = some (medianOf stats.allocs) := by
  have hsame : (stats.allocs.mergeSort fun a b => a ≤ b) = stats.allocs :=
    List.mergeSort_eq_self _ hsorted
  have hzero : stats.allocs.length ≠ 0 := by omega
  have hmiddle : stats.allocs.length / 2 < stats.allocs.length := by omega
  have hne : stats.allocs.length % 2 ≠ 0 := by omega
  unfold HistogramStats.getMedian medianOf
  rw [Nat.mod_eq_of_lt hlen, hsame]
  simp [hzero, hne, hmiddle]

/-! ## Vectors -/

section Vectors

variable {α : Type} [DecidableEq α]

/-- Each key as often as it is in a list. -/
def runsOf (keys l : List α) : List α := keys.flatMap fun k => List.replicate (l.count k) k

theorem count_runsOf (keys l : List α) (a : α) :
    (runsOf keys l).count a = keys.count a * l.count a := by
  induction keys with
  | nil => simp [runsOf]
  | cons k keys ih =>
    rw [runsOf] at ih ⊢
    rw [List.flatMap_cons, List.count_append, ih, List.count_replicate, List.count_cons, Nat.add_mul,
      Nat.add_comm]
    by_cases hk : k = a
    · simp [hk]
    · simp [hk]

theorem runsOf_perm {keys l : List α} (hnd : keys.Nodup) (hkeys : ∀ k ∈ l, k ∈ keys) :
    (runsOf keys l).Perm l := by
  refine List.perm_iff_count.mpr fun a => ?_
  rw [count_runsOf]
  by_cases ha : a ∈ keys
  · rw [List.count_eq_one_of_mem hnd ha, Nat.one_mul]
  · rw [List.count_eq_zero_of_not_mem ha, List.count_eq_zero_of_not_mem fun hl => ha (hkeys a hl),
      Nat.mul_zero]

theorem runsOf_pairwise {r : α → α → Prop} (hrefl : ∀ a, r a a) {keys : List α}
    (hsorted : keys.Pairwise r) (l : List α) : (runsOf keys l).Pairwise r := by
  refine List.pairwise_flatMap.mpr ⟨fun k _ => ?_, hsorted.imp fun hr a ha b hb => ?_⟩
  · exact List.pairwise_replicate.mpr (Or.inr (hrefl k))
  · rw [List.eq_of_mem_replicate ha, List.eq_of_mem_replicate hb]
    exact hr

end Vectors

theorem length_runsOf (keys l : List (BitVec 32)) :
    (runsOf keys l).length = (keys.map fun k => l.count k).sum := by
  simp [runsOf, List.length_flatMap]

theorem sum_runsOf (keys l : List (BitVec 32)) :
    ((runsOf keys l).map BitVec.toNat).sum = (keys.map fun k => l.count k * k.toNat).sum := by
  induction keys with
  | nil => rfl
  | cons k keys ih =>
    rw [runsOf] at ih ⊢
    simp [ih]

/-! ## The rows -/

/-- The loop adds up the numbers and the sizes. -/
theorem stats_loop (data : HistogramData) (occurs : Alloc → BitVec 32) {l : List (BitVec 32)}
    (hoccurs : ∀ k, occurs (data.alloc k) = BitVec.ofNat 32 (l.count k)) (keys : List (BitVec 32)) :
    data.stats keys occurs
      = { count := BitVec.ofNat 32 (keys.map fun k => l.count k).sum
          total := BitVec.ofNat 32 (keys.map fun k => l.count k * k.toNat).sum
          allocs := data.repeated keys occurs } := by
  unfold HistogramData.stats
  generalize data.repeated keys occurs = vector
  induction keys using List.reverseRecOn with
  | nil => rfl
  | append_singleton keys k ih =>
    rw [List.foldl_append, ih, List.foldl_cons, List.foldl_nil, hoccurs]
    simp [BitVec.ofNat_add, BitVec.ofNat_mul]

theorem sizes_sorted (l : List (BitVec 32)) :
    (l.mergeSort fun a b => a ≤ b).Pairwise (· ≤ ·) := by
  have hsorted := @List.pairwise_mergeSort (BitVec 32) (fun a b => decide (a ≤ b))
    (fun a b c hab hbc => decide_eq_true (BitVec.le_trans (of_decide_eq_true hab) (of_decide_eq_true hbc)))
    (fun a b => by simpa using BitVec.le_total a b) l
  exact hsorted.imp fun hab => of_decide_eq_true hab

/-- The vector of the medians is sorted. -/
theorem repeated_sorted (data : HistogramData) (occurs : Alloc → BitVec 32) {l : List (BitVec 32)}
    (hoccurs : ∀ k, occurs (data.alloc k) = BitVec.ofNat 32 (l.count k)) (hlen : l.length < 2 ^ 32)
    {keys : List (BitVec 32)} (hnd : keys.Nodup) (hkeys : ∀ k ∈ l, k ∈ keys)
    (hsorted : keys.Pairwise (· ≤ ·)) :
    data.repeated keys occurs = l.mergeSort (fun a b => a ≤ b) := by
  have hruns : data.repeated keys occurs = runsOf keys l := by
    rw [HistogramData.repeated, runsOf]
    refine List.flatMap_congr fun k _ => ?_
    rw [hoccurs, BitVec.toNat_ofNat, Nat.mod_eq_of_lt (List.count_le_length.trans_lt hlen)]
  rw [hruns]
  refine List.Perm.eq_of_pairwise ?_ (runsOf_pairwise BitVec.le_refl hsorted l) (sizes_sorted l)
    ((runsOf_perm hnd hkeys).trans (List.mergeSort_perm l _).symm)
  exact fun a b _ _ hab hba => BitVec.le_antisymm hab hba

/-- A row has the number and the total size of some calls. -/
def HistogramRow.Counted (row : HistogramRow) (rd : Rd w) (calls : List Nat) : Prop :=
  row.count.toNat = calls.length ∧ row.total.toNat = ((sizes rd calls).map BitVec.toNat).sum

/-- A row shows the median of the sizes of some calls. -/
def HistogramRow.MedianOf (row : HistogramRow) (rd : Rd w) (calls : List Nat) : Prop :=
  row.median.map BitVec.toNat = some (medianOf (sizes rd calls))

variable {rd : Rd w}

/-- The row of some calls is counted, and its median is right when their
number is odd. -/
theorem stats_row (data : HistogramData) (occurs : Alloc → BitVec 32) {calls : List Nat}
    (hoccurs : ∀ k, occurs (data.alloc k) = BitVec.ofNat 32 ((sizes rd calls).count k))
    (hlen : calls.length < 2 ^ 32) (hsum : ((sizes rd calls).map BitVec.toNat).sum < 2 ^ 32)
    {keys : List (BitVec 32)} (hnd : keys.Nodup) (hkeys : ∀ k ∈ sizes rd calls, k ∈ keys)
    (hsorted : keys.Pairwise (· ≤ ·)) :
    (data.stats keys occurs).row.Counted rd calls ∧
      (calls.length % 2 = 1 → (data.stats keys occurs).row.MedianOf rd calls) := by
  have hsizes : (sizes rd calls).length = calls.length := List.length_map _
  have hperm := runsOf_perm hnd hkeys
  have hnumber : (keys.map fun k => (sizes rd calls).count k).sum = calls.length := by
    rw [← length_runsOf, hperm.length_eq, hsizes]
  have htotal : (keys.map fun k => (sizes rd calls).count k * k.toNat).sum
      = ((sizes rd calls).map BitVec.toNat).sum := by
    rw [← sum_runsOf, (hperm.map _).sum_eq]
  have hvector := repeated_sorted data occurs hoccurs (hsizes.trans_lt hlen) hnd hkeys hsorted
  rw [stats_loop data occurs hoccurs, hnumber, htotal, hvector]
  refine ⟨⟨?_, ?_⟩, fun hodd => ?_⟩
  · exact (BitVec.toNat_ofNat ..).trans (Nat.mod_eq_of_lt hlen)
  · exact (BitVec.toNat_ofNat ..).trans (Nat.mod_eq_of_lt hsum)
  · have hveclen : ((sizes rd calls).mergeSort fun a b => a ≤ b).length = calls.length := by
      rw [List.length_mergeSort, hsizes]
    have hmedian := getMedian_odd
      { count := BitVec.ofNat 32 calls.length
        total := BitVec.ofNat 32 ((sizes rd calls).map BitVec.toNat).sum
        allocs := (sizes rd calls).mergeSort fun a b => a ≤ b }
      (hveclen.trans_lt hlen) (sizes_sorted _) (by rw [hveclen]; exact hodd)
    have hidem : (((sizes rd calls).mergeSort fun a b => a ≤ b).mergeSort fun a b => a ≤ b)
        = (sizes rd calls).mergeSort fun a b => a ≤ b :=
      List.mergeSort_eq_self _ (sizes_sorted _)
    rw [HistogramRow.MedianOf, HistogramStats.row, hmedian, medianOf, medianOf, hidem,
      List.length_mergeSort]

/-- The data that `finalize` takes is that of the resource. -/
theorem Counts.first {calls : List Nat} {resource : Resource} {g : HistogramGenerator}
    (hg : Counts rd calls resource g) (halloc : allocations rd calls ≠ []) :
    g.resources.toList.head? = some (resource.typeId, g.getData resource) := by
  obtain ⟨data, hdata⟩ := Option.isSome_iff_exists.mp (hg.present.mpr halloc)
  have hfirst : g.getData resource = data := by
    rw [HistogramGenerator.getData, Std.TreeMap.getD_eq_getD_getElem?, hdata, Option.getD_some]
  have hmem : (resource.typeId, data) ∈ g.resources.toList :=
    Std.TreeMap.mem_toList_iff_getElem?_eq_some.mpr hdata
  rw [hfirst]
  cases hlist : g.resources.toList with
  | nil => rw [hlist] at hmem; exact absurd hmem List.not_mem_nil
  | cons entry rest =>
    have hentry : (entry.1, entry.2) ∈ g.resources.toList := by
      rw [hlist]
      exact List.mem_cons_self ..
    have hget := Std.TreeMap.mem_toList_iff_getElem?_eq_some.mp hentry
    have htype := hg.only _ _ hget
    rw [htype, hdata] at hget
    rw [List.head?_cons, ← htype, Option.some.inj hget]

/-- Without an allocation there is no table. -/
theorem Counts.no_table {calls : List Nat} {resource : Resource} {g : HistogramGenerator}
    (hg : Counts rd calls resource g) (halloc : allocations rd calls = []) (mode : HistogramMode) :
    g.finalize mode = none := by
  have hnone : g.resources.toList.head? = none := by
    cases hfirst : g.resources.toList.head? with
    | none => rfl
    | some entry =>
      have hget := Std.TreeMap.mem_toList_iff_getElem?_eq_some.mp (List.mem_of_head? hfirst)
      have htype := hg.only _ _ hget
      rw [htype] at hget
      exact absurd halloc (hg.present.mp (by rw [hget]; rfl))
  rw [HistogramGenerator.finalize, hnone, Option.map_none]

/-- What is not freed is kept. -/
theorem Counts.unfreed {calls : List Nat} {resource : Resource} {g : HistogramGenerator}
    (hg : Counts rd calls resource g) (hnd : calls.Nodup)
    (hkinds : ∀ c ∈ calls, callKind rd c = .alloc ∨ callKind rd c = .free) (k : BitVec 32) :
    ((g.getData resource).alloc k).total - ((g.getData resource).alloc k).freed
      = BitVec.ofNat 32 ((sizes rd (plainKept rd calls)).count k) := by
  have hcount := ((freedCalls_kept hnd hkinds).map fun c => BitVec.ofNat 32 (callSize rd c)).count_eq k
  rw [List.map_append, List.count_append] at hcount
  rw [hg.counts, sizes, hcount, BitVec.ofNat_add, BitVec.add_comm]
  exact BitVec.add_sub_cancel ..

/-- **The rows of what was freed and of what was not**: their numbers and
total sizes, and the medians of odd numbers. -/
theorem histogram_rows (h : Logged rd) (hnd : rd.calls.Nodup) {type : Nat} {res : Common.Resource w}
    (hone : OneResource rd type res) (hcount : (allocations rd rd.calls).length < 2 ^ 32)
    (hsum : ((sizes rd (allocations rd rd.calls)).map BitVec.toNat).sum < 2 ^ 32)
    (halloc : allocations rd rd.calls ≠ []) (mode : HistogramMode) :
    ∃ g report, histogramReport rd rd.calls = some g ∧ g.finalize mode = some report ∧
      report.freed.Counted rd (freedCalls rd rd.calls) ∧
      report.unfreed.Counted rd (plainKept rd rd.calls) ∧
      ((freedCalls rd rd.calls).length % 2 = 1 →
        report.freed.MedianOf rd (freedCalls rd rd.calls)) ∧
      ((plainKept rd rd.calls).length % 2 = 1 →
        report.unfreed.MedianOf rd (plainKept rd rd.calls)) := by
  obtain ⟨g, hrun, hg⟩ := counts_run h hnd hone [] (List.append_nil _).symm
  have hperm := freedCalls_kept hnd (hone.kinds h)
  have hsizes := hperm.map fun c => BitVec.ofNat 32 (callSize rd c)
  have hsumEq := (hsizes.map BitVec.toNat).sum_eq
  rw [List.map_append, List.map_append, List.sum_append] at hsumEq
  have hlenEq := hperm.length_eq
  rw [List.length_append] at hlenEq
  have hkeysnd : ((g.getData (timelineResource res)).allocs.keys.mergeSort fun a b => a ≤ b).Nodup :=
    (List.mergeSort_perm _ _).nodup_iff.mpr Std.TreeMap.nodup_keys
  have hkeys : ∀ calls ⊆ allocations rd rd.calls, ∀ k ∈ sizes rd calls,
      k ∈ ((g.getData (timelineResource res)).allocs.keys.mergeSort fun a b => a ≤ b) := by
    intro calls hcalls k hk
    rw [List.mem_mergeSort, Std.TreeMap.mem_keys, hg.keys]
    exact List.map_subset _ hcalls hk
  have hfreedCount : ∀ k, ((g.getData (timelineResource res)).alloc k).freed
      = BitVec.ofNat 32 ((sizes rd (freedCalls rd rd.calls)).count k) := fun k => by rw [hg.counts]
  obtain ⟨hfreed, hfreedOdd⟩ := stats_row (g.getData (timelineResource res))
    (fun alloc => alloc.freed) hfreedCount (by omega) (by rw [sizes] at hsum ⊢; omega) hkeysnd
    (hkeys _ (List.filter_subset_self _)) (sizes_sorted _)
  obtain ⟨hunfreed, hunfreedOdd⟩ := stats_row (g.getData (timelineResource res))
    (fun alloc => alloc.total - alloc.freed)
    (hg.unfreed hnd (hone.kinds h)) (by omega)
    (by rw [sizes] at hsum ⊢; omega) hkeysnd (hkeys _ (plainKept_mem_alloc hnd (hone.kinds h)))
    (sizes_sorted _)
  have hfirst := hg.first halloc
  refine ⟨g, _, hrun, by rw [HistogramGenerator.finalize, hfirst, Option.map_some], hfreed, hunfreed,
    hfreedOdd, hunfreedOdd⟩

/-- The table shows what was freed, what was not, and both. -/
structure HistogramReport.Right (report : HistogramReport) (rd : Rd w) : Prop where
  freed : report.freed.Counted rd (freedCalls rd rd.calls) ∧
    report.freed.MedianOf rd (freedCalls rd rd.calls)
  unfreed : report.unfreed.Counted rd (plainKept rd rd.calls) ∧
    report.unfreed.MedianOf rd (plainKept rd rd.calls)
  both : report.both.Counted rd (allocations rd rd.calls) ∧
    report.both.MedianOf rd (allocations rd rd.calls)

/-- The report of a log shows the right table. -/
def HistogramRight (rd : Rd w) (mode : HistogramMode) : Prop :=
  ∃ g report, histogramReport rd rd.calls = some g ∧ g.finalize mode = some report ∧
    report.Right rd

/-- The loop over the data never counts what is in the row of both. -/
theorem finalize_both {g : HistogramGenerator} {mode : HistogramMode} {report : HistogramReport}
    (h : g.finalize mode = some report) : report.both.count = 0 ∧ report.both.total = 0 := by
  obtain ⟨entry, -, rfl⟩ := Option.map_eq_some_iff.mp h
  exact ⟨rfl, rfl⟩

/-- **The histogram is never right**: without an allocation there is no
table, and with one the row of both shows the number zero. -/
theorem histogram_never (rd : TraceStore w) (h : Logged rd.val) {type : Nat}
    {res : Common.Resource w} (hone : OneResource rd.val type res) (mode : HistogramMode) :
    ¬ HistogramRight rd.val mode := by
  intro hright
  obtain ⟨g, report, hrun, hfinal, htable⟩ := hright
  obtain ⟨g', hrun', hg⟩ := counts_run h rd.property.calls_nodup hone [] (List.append_nil _).symm
  obtain rfl := Option.some.inj (hrun.symm.trans hrun')
  have hcount := htable.both.1.1
  rw [(finalize_both hfinal).1] at hcount
  have hnone : allocations rd.val rd.val.calls = [] := List.length_eq_zero_iff.mp hcount.symm
  rw [hg.no_table hnone mode] at hfinal
  exact absurd hfinal (by simp)

theorem ResourceLog.oneResource {rd : Rd w} {type : Nat} {res : Common.Resource w}
    {events : List (FcallData w)} (h : ResourceLog rd type res events) :
    OneResource (callLog rd events) type res := by
  refine ⟨?_, fun c hc => ?_⟩
  · rw [(callLog_extends rd events).resource]
    exact h.resource
  · obtain ⟨i, event, -, hevent, hfcall⟩ := h.call hc
    exact ⟨_, hfcall, h.carries event (List.mem_of_getElem? hevent)⟩

/-- The histogram of an allocation, its free and a second one. -/
theorem histogram_never_reuse : ¬ HistogramRight (callLog memoryLog reuseEvents) .size :=
  histogram_never ⟨callLog memoryLog reuseEvents, callLog_integrity memoryLog_integrity _⟩
    reuseEvents_log.logged reuseEvents_log.oneResource .size

def pairEvents : List (FcallData 64) :=
  [memoryEvent ftypeAlloc 5 100, { memoryEvent ftypeAlloc 6 100 with resId := 32 }]

/-- The table of two allocations: the median of two is behind the end of
the vector, and the row of both has neither number nor size. -/
theorem histogram_pair :
    (histogramReport (callLog memoryLog pairEvents) (callLog memoryLog pairEvents).calls).bind
        (fun g => g.finalize .count)
      = some { lines := [(100, 2, 0)]
               freed := { median := some 0, count := 0, total := 0 }
               unfreed := { median := none, count := 2, total := 200 }
               both := { median := none, count := 0, total := 0 } } ∧
    ¬ HistogramRight (callLog memoryLog pairEvents) .count := by
  have htable : (histogramReport (callLog memoryLog pairEvents)
        (callLog memoryLog pairEvents).calls).bind (fun g => g.finalize .count)
      = some { lines := [(100, 2, 0)]
               freed := { median := some 0, count := 0, total := 0 }
               unfreed := { median := none, count := 2, total := 200 }
               both := { median := none, count := 0, total := 0 } } := by
    decide +kernel
  refine ⟨htable, fun hright => ?_⟩
  obtain ⟨g, report, hrun, hfinal, hshown⟩ := hright
  rw [hrun, Option.bind_some, hfinal] at htable
  obtain rfl := Option.some.inj htable
  exact absurd hshown.both.1.1 (by decide +kernel)

end SpRtrace.Timeline
