/-
SpRtrace.Timeline.HistogramTheorems — the table of the histogram reports.

Behind a log of one resource the generator has, for each size, how often it
was allocated and freed (`Counts`). Every call that the generator is told
of keeps that (`counts_step`, `counts_run`).
-/
import SpRtrace.Timeline.TotalsTheorems
import SpRtrace.Timeline.Histogram

namespace SpRtrace.Timeline

open SpRtrace.Lib SpRtrace.Common SpRtrace.Library SpRtrace.Postproc

variable {w : Nat}

/-! ## Data of a size -/

theorem HistogramData.alloc_setAlloc (rd : HistogramData) (size : BitVec 32) (alloc : Alloc)
    (k : BitVec 32) : (rd.setAlloc size alloc).alloc k = if k = size then alloc else rd.alloc k := by
  unfold HistogramData.alloc HistogramData.setAlloc
  rw [Std.TreeMap.getD_insert]
  by_cases hk : k = size
  · rw [if_pos (Std.LawfulEqCmp.compare_eq_iff_eq.mpr hk.symm), if_pos hk]
  · rw [if_neg (fun heq => hk (Std.LawfulEqCmp.compare_eq_iff_eq.mp heq).symm), if_neg hk]

theorem HistogramData.mem_setAlloc (rd : HistogramData) (size : BitVec 32) (alloc : Alloc)
    (k : BitVec 32) : k ∈ (rd.setAlloc size alloc).allocs ↔ k = size ∨ k ∈ rd.allocs := by
  unfold HistogramData.setAlloc
  rw [Std.TreeMap.mem_insert, Std.LawfulEqCmp.compare_eq_iff_eq, eq_comm]

theorem HistogramGenerator.resources_setData (g : HistogramGenerator) (resource : Resource)
    (rd : HistogramData) (t : BitVec 32) : (g.setData resource rd).resources[t]?
      = if t = resource.typeId then some rd else g.resources[t]? := by
  rw [HistogramGenerator.setData]
  dsimp only
  rw [Std.TreeMap.getElem?_insert]
  by_cases ht : t = resource.typeId
  · rw [if_pos (Std.LawfulEqCmp.compare_eq_iff_eq.mpr ht.symm), if_pos ht]
  · rw [if_neg (fun heq => ht (Std.LawfulEqCmp.compare_eq_iff_eq.mp heq).symm), if_neg ht]

theorem HistogramGenerator.getData_setData (g : HistogramGenerator) (resource : Resource)
    (rd : HistogramData) : (g.setData resource rd).getData resource = rd := by
  rw [HistogramGenerator.getData, Std.TreeMap.getD_eq_getD_getElem?,
    HistogramGenerator.resources_setData, if_pos rfl, Option.getD_some]

/-- The reports in the contexts are ignored. -/
theorem HistogramGenerator.feed_ignored (reports : List (Report w))
    (hignored : ∀ report ∈ reports, ∀ g : HistogramGenerator, g.report report = some g)
    (g : HistogramGenerator) : g.feed reports = some g := by
  induction reports with
  | nil => rfl
  | cons report reports ih =>
    rw [HistogramGenerator.feed, List.foldlM_cons, hignored report (List.mem_cons_self ..)]
    exact ih fun report hreport => hignored report (List.mem_cons_of_mem _ hreport)

theorem HistogramGenerator.feed_allocReports (g : HistogramGenerator) (resource : Resource)
    (contexts : List Context) (event : Event w) :
    g.feed (allocReports resource contexts event) = g.reportAlloc resource event := by
  rw [allocReports, HistogramGenerator.feed, List.foldlM_cons]
  show (g.reportAlloc resource event).bind (fun g => g.feed _) = _
  cases g.reportAlloc resource event with
  | none => rfl
  | some g =>
    refine HistogramGenerator.feed_ignored _ (fun report hreport g => ?_) g
    obtain ⟨ctx, -, rfl⟩ := List.mem_map.mp hreport
    rfl

theorem HistogramGenerator.feed_freeReports (g : HistogramGenerator) (resource : Resource)
    (contexts : List Context) (event allocEvent : Event w) :
    g.feed (freeReports resource contexts event allocEvent)
      = some (g.reportFree resource { event with resSize := allocEvent.resSize }) := by
  rw [freeReports, HistogramGenerator.feed, List.foldlM_cons]
  refine HistogramGenerator.feed_ignored _ (fun report hreport g => ?_) _
  obtain ⟨ctx, -, rfl⟩ := List.mem_map.mp hreport
  rfl

/-! ## Counts of sizes -/

/-- The sizes of some calls, as the generator has them. -/
def sizes (rd : Rd w) (calls : List Nat) : List (BitVec 32) :=
  calls.map fun c => BitVec.ofNat 32 (callSize rd c)

def freedCalls (rd : Rd w) (calls : List Nat) : List Nat :=
  (allocations rd calls).filter fun c => c ∉ plainKept rd calls

/-- The data of a resource counts the allocations and the frees of each
size, and no other resource has data. -/
structure Counts (rd : Rd w) (calls : List Nat) (resource : Resource) (g : HistogramGenerator) :
    Prop where
  type : ∀ found, g.resourceType = some found → found.typeId = resource.typeId
  only : ∀ t data, g.resources[t]? = some data → t = resource.typeId
  present : (g.resources[resource.typeId]?).isSome ↔ allocations rd calls ≠ []
  counts : ∀ k, (g.getData resource).alloc k =
    { total := BitVec.ofNat 32 ((sizes rd (allocations rd calls)).count k)
      freed := BitVec.ofNat 32 ((sizes rd (freedCalls rd calls)).count k) }
  keys : ∀ k, k ∈ (g.getData resource).allocs ↔ k ∈ sizes rd (allocations rd calls)

variable {rd : Rd w}

theorem plainKept_mem_alloc {calls : List Nat} (hnd : calls.Nodup)
    (hkinds : ∀ c ∈ calls, callKind rd c = .alloc ∨ callKind rd c = .free) :
    ∀ c ∈ plainKept rd calls, c ∈ allocations rd calls := by
  induction calls using List.reverseRecOn with
  | nil => exact fun c hc => absurd hc List.not_mem_nil
  | append_singleton calls c ih =>
    have hnd' := (List.nodup_append.mp hnd).1
    have hsub := ih hnd' fun d hd => hkinds d (List.mem_append_left _ hd)
    intro d hd
    rcases hkinds c (by simp) with halloc | hfree
    · rw [plainKept_alloc hnd halloc] at hd
      rw [allocations_snoc, if_pos halloc]
      rcases List.mem_append.mp hd with hd | hd
      · exact List.mem_append_left _ (hsub d hd)
      · exact List.mem_append_right _ hd
    · have hne : callKind rd c ≠ .alloc := by rw [hfree]; decide
      rw [allocations_snoc, if_neg hne]
      cases hcancel : cancels rd calls c with
      | none =>
        rw [plainKept_unmatched hnd hfree hcancel] at hd
        exact hsub d hd
      | some a =>
        exact hsub d ((plainKept_matched hnd hfree hcancel).mem_iff.mpr (List.mem_cons_of_mem _ hd))

theorem freedCalls_alloc {calls : List Nat} {c : Nat} (hnd : (calls ++ [c]).Nodup)
    (hkind : callKind rd c = .alloc) : freedCalls rd (calls ++ [c]) = freedCalls rd calls := by
  have hc : c ∉ calls := fun hm => (List.nodup_append.mp hnd).2.2 c hm c (by simp) rfl
  rw [freedCalls, plainKept_alloc hnd hkind, allocations_snoc, if_pos hkind, List.filter_append]
  have hlast : [c].filter (fun d => decide (d ∉ plainKept rd calls ++ [c])) = [] :=
    List.filter_eq_nil_iff.mpr (by simp)
  rw [hlast, List.append_nil]
  refine List.filter_congr fun d hd => ?_
  have hdc : d ≠ c := by
    rintro rfl
    exact hc (List.mem_filter.mp hd).1
  simp [hdc]

theorem freedCalls_unmatched {calls : List Nat} {c : Nat} (hnd : (calls ++ [c]).Nodup)
    (hkind : callKind rd c = .free) (hcancel : cancels rd calls c = none) :
    freedCalls rd (calls ++ [c]) = freedCalls rd calls := by
  have hne : callKind rd c ≠ .alloc := by rw [hkind]; decide
  rw [freedCalls, plainKept_unmatched hnd hkind hcancel, allocations_snoc, if_neg hne, freedCalls]

/-- A free adds the allocation that it cancels. -/
theorem freedCalls_matched {calls : List Nat} {c a : Nat} (hnd : (calls ++ [c]).Nodup)
    (hkinds : ∀ c ∈ calls, callKind rd c = .alloc ∨ callKind rd c = .free)
    (hkind : callKind rd c = .free) (hcancel : cancels rd calls c = some a) :
    (freedCalls rd (calls ++ [c])).Perm (a :: freedCalls rd calls) := by
  have hnd' := (List.nodup_append.mp hnd).1
  have hne : callKind rd c ≠ .alloc := by rw [hkind]; decide
  have hperm := plainKept_matched hnd hkind hcancel
  have hkeptnd : (a :: plainKept rd (calls ++ [c])).Nodup :=
    hperm.nodup_iff.mp (hnd'.filter _)
  have halloc : a ∈ allocations rd calls :=
    plainKept_mem_alloc hnd' hkinds a (hperm.mem_iff.mpr (List.mem_cons_self ..))
  have hfreednd : (freedCalls rd (calls ++ [c])).Nodup := (hnd.filter _).filter _
  have hnew : a ∉ freedCalls rd calls := by
    intro hmem
    exact of_decide_eq_true (List.mem_filter.mp hmem).2 (hperm.mem_iff.mpr (List.mem_cons_self ..))
  have hconsnd : (a :: freedCalls rd calls).Nodup :=
    List.nodup_cons.mpr ⟨hnew, (hnd'.filter _).filter _⟩
  refine (List.perm_ext_iff_of_nodup hfreednd hconsnd).mpr fun d => ?_
  rw [freedCalls, allocations_snoc, if_neg hne, List.mem_filter, List.mem_cons, freedCalls,
    List.mem_filter, decide_eq_true_eq, decide_eq_true_eq, hperm.mem_iff, List.mem_cons, not_or]
  constructor
  · intro hd
    by_cases hda : d = a
    · exact Or.inl hda
    · exact Or.inr ⟨hd.1, hda, hd.2⟩
  · rintro (rfl | hd)
    · exact ⟨halloc, (List.nodup_cons.mp hkeptnd).1⟩
    · exact ⟨hd.1, hd.2.2⟩

/-- The allocations are those that were freed and those that are kept. -/
theorem freedCalls_kept {calls : List Nat} (hnd : calls.Nodup)
    (hkinds : ∀ c ∈ calls, callKind rd c = .alloc ∨ callKind rd c = .free) :
    (allocations rd calls).Perm (freedCalls rd calls ++ plainKept rd calls) := by
  have hkeptnd : (plainKept rd calls).Nodup := hnd.filter _
  have hallocnd : (allocations rd calls).Nodup := hnd.filter _
  have happend : (freedCalls rd calls ++ plainKept rd calls).Nodup := by
    refine List.nodup_append.mpr ⟨hallocnd.filter _, hkeptnd, fun a ha b hb => ?_⟩
    rintro rfl
    exact of_decide_eq_true (List.mem_filter.mp ha).2 hb
  refine (List.perm_ext_iff_of_nodup hallocnd happend).mpr fun a => ?_
  rw [List.mem_append, freedCalls, List.mem_filter, decide_eq_true_eq]
  constructor
  · intro ha
    by_cases hkept : a ∈ plainKept rd calls
    · exact Or.inr hkept
    · exact Or.inl ⟨ha, hkept⟩
  · rintro (ha | ha)
    · exact ha.1
    · exact plainKept_mem_alloc hnd hkinds a ha

theorem sizes_snoc (calls : List Nat) {c : Nat} {x : Fcall w} (hx : rd.fcall c = some x) :
    sizes rd (calls ++ [c]) = sizes rd calls ++ [(fcallEvent x).resSize.setWidth 32] := by
  have hsize : callSize rd c = (fcallEvent x).resSize.toNat := by rw [callSize, hx]
  simp [sizes, hsize]

theorem sizes_cons (calls : List Nat) {c : Nat} {x : Fcall w} (hx : rd.fcall c = some x) :
    sizes rd (c :: calls) = (fcallEvent x).resSize.setWidth 32 :: sizes rd calls := by
  have hsize : callSize rd c = (fcallEvent x).resSize.toNat := by rw [callSize, hx]
  simp [sizes, hsize]

theorem Counts.start (rd : Rd w) (resource : Resource) : Counts rd [] resource .new where
  type := fun _ h => nomatch h
  only := fun t data h => by simp [HistogramGenerator.new] at h
  present := by simp [HistogramGenerator.new, allocations]
  counts := fun k => by
    simp [HistogramGenerator.getData, HistogramGenerator.new, HistogramData.new,
      HistogramData.alloc, Alloc.new, sizes, allocations, freedCalls]
  keys := fun k => by
    simp [HistogramGenerator.getData, HistogramGenerator.new, HistogramData.new, sizes, allocations]

theorem reportAlloc_counts {calls : List Nat} {c : Nat} {x : Fcall w} (hnd : (calls ++ [c]).Nodup)
    (hkind : callKind rd c = .alloc) (hx : rd.fcall c = some x) {resource : Resource}
    {g : HistogramGenerator} (hg : Counts rd calls resource g) :
    ∃ g', g.reportAlloc resource (fcallEvent x) = some g' ∧ Counts rd (calls ++ [c]) resource g' := by
  generalize hsize : (fcallEvent x).resSize.setWidth 32 = size
  let rd' := (g.getData resource).setAlloc size
    { (g.getData resource).alloc size with total := ((g.getData resource).alloc size).total + 1 }
  have hallocs : sizes rd (allocations rd (calls ++ [c])) = sizes rd (allocations rd calls) ++ [size] := by
    rw [allocations_snoc, if_pos hkind, sizes_snoc _ hx, hsize]
  have hnew : ∀ g' : HistogramGenerator, g'.resources = (g.setData resource rd').resources →
      (∀ found, g'.resourceType = some found → found.typeId = resource.typeId) →
      Counts rd (calls ++ [c]) resource g' := by
    intro g' hresources htype
    have hdata : g'.getData resource = rd' := by
      rw [HistogramGenerator.getData, hresources]
      exact g.getData_setData resource rd'
    refine ⟨htype, fun t data hdata => ?_, ?_, fun k => ?_, fun k => ?_⟩
    · rw [hresources, HistogramGenerator.resources_setData] at hdata
      split at hdata
      next ht => exact ht
      · exact hg.only t data hdata
    · rw [hresources, HistogramGenerator.resources_setData, if_pos rfl, allocations_snoc,
        if_pos hkind]
      simp
    · rw [hdata, HistogramData.alloc_setAlloc, hg.counts, hg.counts, hallocs, freedCalls_alloc hnd hkind,
        List.count_append, List.count_singleton]
      by_cases hk : k = size
      · subst hk
        simp [BitVec.ofNat_add]
      · have hne : (size == k) = false := beq_eq_false_iff_ne.mpr fun heq => hk heq.symm
        rw [if_neg hk, hne]
        simp
    · rw [hdata, HistogramData.mem_setAlloc, hg.keys, hallocs, List.mem_append, List.mem_singleton,
        or_comm]
  rw [HistogramGenerator.reportAlloc, hsize]
  cases htype : g.resourceType with
  | none => exact ⟨_, rfl, hnew _ rfl fun found hfound => by obtain rfl := Option.some.inj hfound; rfl⟩
  | some found =>
    refine ⟨_, if_pos (hg.type found htype), hnew _ rfl ?_⟩
    exact fun found' hfound' => hg.type found' hfound'

theorem reportFree_counts {calls : List Nat} {c a : Nat} {x : Fcall w} (hnd : (calls ++ [c]).Nodup)
    (hkinds : ∀ c ∈ calls, callKind rd c = .alloc ∨ callKind rd c = .free)
    (hkind : callKind rd c = .free) (hcancel : cancels rd calls c = some a)
    (hx : rd.fcall a = some x) {event : Event w} (hsize : event.resSize = (fcallEvent x).resSize)
    {resource : Resource} {g : HistogramGenerator} (hg : Counts rd calls resource g) :
    Counts rd (calls ++ [c]) resource (g.reportFree resource event) := by
  have hnd' := (List.nodup_append.mp hnd).1
  have hne : callKind rd c ≠ .alloc := by rw [hkind]; decide
  have hallocs : allocations rd (calls ++ [c]) = allocations rd calls := by
    rw [allocations_snoc, if_neg hne]
  have halloc : a ∈ allocations rd calls :=
    plainKept_mem_alloc hnd' hkinds a
      ((plainKept_matched hnd hkind hcancel).mem_iff.mpr (List.mem_cons_self ..))
  have hmem : (fcallEvent x).resSize.setWidth 32 ∈ sizes rd (allocations rd calls) := by
    refine List.mem_map.mpr ⟨a, halloc, ?_⟩
    rw [callSize, hx]
    simp
  have hfreed : ∀ k, (sizes rd (freedCalls rd (calls ++ [c]))).count k
      = ((fcallEvent x).resSize.setWidth 32 :: sizes rd (freedCalls rd calls)).count k := by
    intro k
    rw [← sizes_cons _ hx]
    exact ((freedCalls_matched hnd hkinds hkind hcancel).map _).count_eq k
  rw [HistogramGenerator.reportFree, hsize]
  generalize (fcallEvent x).resSize.setWidth 32 = size at hmem hfreed
  refine ⟨hg.type, fun t data hdata => ?_, ?_, fun k => ?_, fun k => ?_⟩
  · rw [HistogramGenerator.resources_setData] at hdata
    split at hdata
    next ht => exact ht
    · exact hg.only t data hdata
  · rw [HistogramGenerator.resources_setData, if_pos rfl, hallocs]
    exact ⟨fun _ => List.ne_nil_of_mem halloc, fun _ => rfl⟩
  · rw [HistogramGenerator.getData_setData, HistogramData.alloc_setAlloc, hg.counts, hg.counts, hallocs,
      hfreed, List.count_cons]
    by_cases hk : k = size
    · subst hk
      simp [BitVec.ofNat_add]
    · have hne : (size == k) = false := beq_eq_false_iff_ne.mpr fun heq => hk heq.symm
      rw [if_neg hk, hne]
      simp
  · rw [HistogramGenerator.getData_setData, HistogramData.mem_setAlloc, hg.keys, hallocs]
    exact or_iff_right_of_imp fun hk => hk ▸ hmem

/-- The histogram generator behind some calls of a log. -/
def histogramReport (rd : Rd w) (calls : List Nat) : Option HistogramGenerator :=
  generatorReport HistogramGenerator.feed .new rd calls

/-- All calls of the log are of one resource. -/
structure OneResource (rd : Rd w) (type : Nat) (res : Common.Resource w) : Prop where
  resource : rd.resource type = some res
  calls : ∀ c ∈ rd.calls, ∃ x, rd.fcall c = some x ∧ x.data.resType = some type

theorem OneResource.kinds {type : Nat} {res : Common.Resource w} (hone : OneResource rd type res)
    (h : Logged rd) : ∀ c ∈ rd.calls, callKind rd c = .alloc ∨ callKind rd c = .free := by
  intro c hc
  obtain ⟨x, hx, -⟩ := hone.calls c hc
  rw [callKind, hx]
  rcases h.kinds c hc x hx with halloc | hfree
  · exact Or.inl (by simp [halloc])
  · exact Or.inr (by simp [hfree, ftypeAlloc, ftypeFree])

/-- **One call**: the counts follow it. -/
theorem counts_step (h : Logged rd) (hnd : rd.calls.Nodup) {type : Nat} {res : Common.Resource w}
    (hone : OneResource rd type res) {pre post : List Nat} {c : Nat} (heq : rd.calls = pre ++ c :: post)
    {g : HistogramGenerator} (hg : Counts rd pre (timelineResource res) g) :
    ∃ g', g.feed (callReports rd pre c) = some g' ∧
      Counts rd (pre ++ [c]) (timelineResource res) g' := by
  have hc : c ∈ rd.calls := by rw [heq]; simp
  have hkinds : ∀ c ∈ pre, callKind rd c = .alloc ∨ callKind rd c = .free :=
    fun d hd => hone.kinds h d (by rw [heq]; exact List.mem_append_left _ hd)
  have hnd' : (pre ++ [c]).Nodup := by
    rw [heq, List.append_cons] at hnd
    exact (List.nodup_append.mp hnd).1
  obtain ⟨x, hx, hxtype⟩ := hone.calls c hc
  have hbind : x.data.resType.bind rd.resource = some res := by
    rw [hxtype, Option.bind_some, hone.resource]
  rcases h.kinds c hc x hx with halloc | hfree
  · have hkind : callKind rd c = .alloc := by rw [callKind, hx]; simp [halloc]
    have hreports : callReports rd pre c = allocReports (timelineResource res)
        (logContexts rd x.data.context) (fcallEvent x) := by
      rw [callReports, hx]
      simp only [hbind, halloc, if_true]
    rw [hreports, HistogramGenerator.feed_allocReports]
    exact reportAlloc_counts hnd' hkind hx hg
  · have hne : x.data.type ≠ ftypeAlloc := by rw [hfree]; decide
    have hkind : callKind rd c = .free := by rw [callKind, hx]; simp [hfree, ftypeAlloc, ftypeFree]
    have hnotAlloc : callKind rd c ≠ .alloc := by rw [hkind]; decide
    have hreports : callReports rd pre c = (((cancels rd pre c).bind rd.fcall).map fun a =>
        freeReports (timelineResource res) (logContexts rd x.data.context) (fcallFree x)
          (fcallEvent a)).getD [] := by
      rw [callReports, hx]
      simp only [hbind, if_neg hne]
    cases hcancel : cancels rd pre c with
    | none =>
      have hallocs : allocations rd (pre ++ [c]) = allocations rd pre := by
        rw [allocations_snoc, if_neg hnotAlloc]
      have hfreed := freedCalls_unmatched hnd' hkind hcancel
      rw [hcancel] at hreports
      rw [hreports]
      refine ⟨g, rfl, hg.type, hg.only, ?_, fun k => ?_, fun k => ?_⟩
      · rw [hallocs]
        exact hg.present
      · rw [hallocs, hfreed]
        exact hg.counts k
      · rw [hallocs]
        exact hg.keys k
    | some a =>
      obtain ⟨y, hy, -⟩ := live_call (List.nodup_append.mp hnd').1 hcancel
      rw [hcancel, Option.bind_some, hy, Option.map_some, Option.getD_some] at hreports
      rw [hreports, HistogramGenerator.feed_freeReports]
      exact ⟨_, rfl, reportFree_counts hnd' hkinds hkind hcancel hy rfl hg⟩

/-- **The counts of the report** behind every prefix of the log. -/
theorem counts_run (h : Logged rd) (hnd : rd.calls.Nodup) {type : Nat} {res : Common.Resource w}
    (hone : OneResource rd type res) {pre : List Nat} : ∀ post, rd.calls = pre ++ post →
      ∃ g, histogramReport rd pre = some g ∧ Counts rd pre (timelineResource res) g := by
  induction pre using List.reverseRecOn with
  | nil =>
    intro _ _
    exact ⟨.new, generatorReport_nil h, Counts.start rd _⟩
  | append_singleton pre c ih =>
    intro post heq
    have hsplit : rd.calls = pre ++ c :: post := by rw [heq]; simp
    obtain ⟨g, hrun, hg⟩ := ih (c :: post) hsplit
    obtain ⟨g', hfeed, hg'⟩ := counts_step h hnd hone hsplit hg
    refine ⟨g', ?_, hg'⟩
    rw [histogramReport] at hrun ⊢
    rw [generatorReport_snoc h hnd hsplit, hrun, Option.bind_some, hfeed]

end SpRtrace.Timeline
