/-
SpRtrace.Timeline.TotalsReport — the summary table of the totals report.

A log grows call by call (`callLog`), and behind every prefix the leak
filter says what is left of it (`leakTally`). The statistics of the totals
report are compared with the prefixes: what is left now, what was allocated
in all, and both at the first moment at which most was left.
-/
import SpRtrace.Timeline.TotalsTheorems

namespace SpRtrace.Timeline

open SpRtrace.Lib SpRtrace.Common SpRtrace.Library SpRtrace.Postproc

variable {w : Nat}

/-! ## Logs -/

def callLog (rd : Rd w) (events : List (FcallData w)) : Rd w :=
  events.foldl (fun rd event => (rdAddFcall rd event).1) rd

theorem callLog_snoc (rd : Rd w) (events : List (FcallData w)) (event : FcallData w) :
    callLog rd (events ++ [event]) = (rdAddFcall (callLog rd events) event).1 := by
  rw [callLog, List.foldl_append]
  rfl

theorem callLog_integrity {rd : Rd w} (h : rd.Integrity) (events : List (FcallData w)) :
    (callLog rd events).Integrity :=
  List.foldlRecOn _ _ h fun _ h _ _ => rdAddFcall_integrity h _

/-- What a longer log holds: the new calls in their order, and everything
else as it was. -/
structure Extends (rd : Rd w) (events : List (FcallData w)) (rd' : Rd w) : Prop where
  fresh : rd'.fresh = rd.fresh + events.length
  calls : rd'.calls = rd.calls ++ List.range' rd.fresh events.length
  fcall : ∀ i, rd'.fcall (rd.fresh + i)
    = (events[i]?.map fun data => ({ data, trace := none, ref := none, args := none } : Fcall w)).or
      (rd.fcall (rd.fresh + i))
  resource : rd'.resource = rd.resource
  resources : rd'.resources = rd.resources
  contexts : rd'.contexts = rd.contexts

theorem callLog_extends (rd : Rd w) (events : List (FcallData w)) :
    Extends rd events (callLog rd events) := by
  induction events using List.reverseRecOn with
  | nil => exact ⟨rfl, (List.append_nil _).symm, fun _ => rfl, rfl, rfl, rfl⟩
  | append_singleton events event ih =>
    rw [callLog_snoc]
    refine ⟨?_, ?_, fun i => ?_, ih.resource, ih.resources, ih.contexts⟩
    · show (callLog rd events).fresh + 1 = _
      rw [ih.fresh, List.length_append, List.length_singleton, Nat.add_assoc]
    · show (callLog rd events).calls ++ [(callLog rd events).fresh] = _
      rw [ih.calls, ih.fresh, List.length_append, List.length_singleton, List.range'_1_concat,
        List.append_assoc]
    · show Function.update (callLog rd events).fcall (callLog rd events).fresh _ _ = _
      rw [ih.fresh]
      by_cases hi : i = events.length
      · subst hi
        simp
      · rw [Function.update_of_ne (by omega), ih.fcall i]
        by_cases hlt : i < events.length
        · rw [List.getElem?_append_left hlt]
        · rw [List.getElem?_eq_none (by omega), List.getElem?_eq_none (by simp; omega)]

/-- The log of a resource: the environment is that of a text log without
calls, and the calls are allocations and frees of the resource, with
timestamps. -/
structure ResourceLog (rd : Rd w) (type : Nat) (res : Common.Resource w)
    (events : List (FcallData w)) : Prop where
  environment : Logged rd
  empty : rd.calls = []
  registered : type ∈ rd.resources
  resource : rd.resource type = some res
  plain : res.refcounted = false
  carries : ∀ event ∈ events, event.resType = some type
  kinds : ∀ event ∈ events, event.type = ftypeAlloc ∨ event.type = ftypeFree
  stamps : ∀ event ∈ events, event.timestamp ≠ 0

theorem ResourceLog.take {rd : Rd w} {type : Nat} {res : Common.Resource w}
    {events : List (FcallData w)} (h : ResourceLog rd type res events) (n : Nat) :
    ResourceLog rd type res (events.take n) :=
  { h with
    carries := fun event hevent => h.carries event (List.mem_of_mem_take hevent)
    kinds := fun event hevent => h.kinds event (List.mem_of_mem_take hevent)
    stamps := fun event hevent => h.stamps event (List.mem_of_mem_take hevent) }

/-- A call of the log is one of the events. -/
theorem ResourceLog.call {rd : Rd w} {type : Nat} {res : Common.Resource w}
    {events : List (FcallData w)} (h : ResourceLog rd type res events) {c : Nat}
    (hc : c ∈ (callLog rd events).calls) :
    ∃ i event, c = rd.fresh + i ∧ events[i]? = some event ∧ (callLog rd events).fcall c
      = some { data := event, trace := none, ref := none, args := none } := by
  have hext := callLog_extends rd events
  rw [hext.calls, h.empty, List.nil_append, List.mem_range'] at hc
  obtain ⟨i, hi, rfl⟩ := hc
  rw [Nat.one_mul]
  refine ⟨i, events[i], rfl, List.getElem?_eq_getElem hi, ?_⟩
  rw [hext.fcall, List.getElem?_eq_getElem hi]
  rfl

theorem ResourceLog.logged {rd : Rd w} {type : Nat} {res : Common.Resource w}
    {events : List (FcallData w)} (h : ResourceLog rd type res events) :
    Logged (callLog rd events) := by
  have hext := callLog_extends rd events
  have henv := h.environment
  constructor
  · rw [hext.resources, hext.resource]
    exact henv.live
  · rw [hext.resources, hext.resource]
    exact henv.types
  · rw [hext.resources, hext.resource]
    exact henv.ids
  · rw [hext.resources, hext.resource]
    exact henv.hidden
  · intro c hc
    obtain ⟨i, event, -, hevent, hfcall⟩ := h.call hc
    refine ⟨_, type, hfcall, h.carries event (List.mem_of_getElem? hevent), ?_⟩
    rw [hext.resources]
    exact h.registered
  · intro c hc x hx
    obtain ⟨i, event, -, hevent, hfcall⟩ := h.call hc
    obtain rfl := Option.some.inj (hx.symm.trans hfcall)
    exact h.kinds event (List.mem_of_getElem? hevent)

/-! ## What the leak filter leaves -/

/-- The number and the total size of the calls that `filter_leaks` leaves
of a log. -/
def leakTally (rd : Rd w) : Tally :=
  match filterLeaks rd with
  | none => { count := 0, size := 0 }
  | some rd' => tallyOf rd' rd'.calls

theorem tallyOf_congr {rd rd' : Rd w} {calls : List Nat}
    (h : ∀ c ∈ calls, rd.fcall c = rd'.fcall c) : tallyOf rd calls = tallyOf rd' calls := by
  rw [tallyOf, tallyOf, List.map_congr_left fun c hc => ?_]
  rw [callSize, callSize, h c hc]

/-- Without reference counting the filter leaves what is kept, seen from
any log with the same calls. -/
theorem leakTally_kept {rd rd' : Rd w} (hint : rd'.Integrity) (hlogged : Logged rd')
    (hplain : ∀ c ∈ rd'.calls, keyCounted rd' (callKey rd' c) = false)
    (hsame : ∀ c ∈ rd'.calls, rd.fcall c = rd'.fcall c) :
    leakTally rd' = keptTally rd rd'.calls := by
  obtain ⟨left, hleft, hcalls, -, hfcalls⟩ :=
    filterLeaksWith_keptCalls resHash hint hlogged.resourced
      (.of_uncounted fun c hc _ => hplain c hc)
  have hkind : ∀ c ∈ rd'.calls, callKind rd c = callKind rd' c := by
    intro c hc
    rw [callKind, callKind, hsame c hc]
  have hkey : ∀ c ∈ rd'.calls, callKey rd c = callKey rd' c := by
    intro c hc
    rw [callKey, callKey, hsame c hc]
  have hrename : Renames (callKind rd') (callKey rd') (keyCounted rd') (callKind rd) (callKey rd)
      (fun _ => false) id rd'.calls := by
    refine ⟨fun _ _ _ _ heq => heq, hkind, fun c hc d hd => ?_, fun c hc => (hplain c hc).symm⟩
    rw [id, id, hkey c hc, hkey d hd]
  have hkept : keptCalls (callKind rd') (callKey rd') (keyCounted rd') rd'.calls
      = plainKept rd rd'.calls := by
    have hmap := keptCalls_map hint.calls_nodup hrename
    rwa [List.map_id, List.map_id] at hmap
  rw [leakTally, show filterLeaks rd' = some left from hleft]
  show tallyOf left left.calls = _
  rw [tallyOf_congr hfcalls, hcalls, hkept, keptTally]
  refine tallyOf_congr fun c hc => ?_
  exact (hsame c (List.mem_filter.mp hc).1).symm

variable {rd : Rd w} {type : Nat} {res : Common.Resource w} {events : List (FcallData w)}

/-- The calls of a prefix of the log. -/
theorem ResourceLog.calls_take (h : ResourceLog rd type res events) (n : Nat) :
    (callLog rd events).calls.take n = (callLog rd (events.take n)).calls := by
  rw [(callLog_extends rd events).calls, (callLog_extends rd (events.take n)).calls, h.empty,
    List.nil_append, List.nil_append, List.length_take]
  rcases Nat.le_total n events.length with hle | hge
  · rw [List.take_range'_of_length_ge hle, Nat.min_eq_left hle]
  · rw [List.take_range'_of_length_le hge, Nat.min_eq_right hge]

theorem ResourceLog.fcall_take (h : ResourceLog rd type res events) (n : Nat) {c : Nat}
    (hc : c ∈ (callLog rd (events.take n)).calls) :
    (callLog rd events).fcall c = (callLog rd (events.take n)).fcall c := by
  obtain ⟨i, event, rfl, hevent, hfcall⟩ := (h.take n).call hc
  have hlt : i < n := by
    have hlen := (List.getElem?_eq_some_iff.mp hevent).1
    rw [List.length_take] at hlen
    omega
  rw [List.getElem?_take_of_lt hlt] at hevent
  rw [hfcall, (callLog_extends rd events).fcall, hevent]
  rfl

theorem ResourceLog.uncounted (h : ResourceLog rd type res events) {c : Nat}
    (hc : c ∈ (callLog rd events).calls) :
    keyCounted (callLog rd events) (callKey (callLog rd events) c) = false := by
  obtain ⟨i, event, rfl, hevent, hfcall⟩ := h.call hc
  have hcarries := h.carries event (List.mem_of_getElem? hevent)
  rw [callKey, hfcall, keyCounted]
  simp only [hcarries, Option.bind_some, (callLog_extends rd events).resource, h.resource, h.plain]

/-- What the filter leaves of a prefix is what is kept of it. -/
theorem ResourceLog.leakTally_take (h : ResourceLog rd type res events) (hint : rd.Integrity)
    (n : Nat) : leakTally (callLog rd (events.take n))
      = keptTally (callLog rd events) ((callLog rd events).calls.take n) := by
  rw [h.calls_take n]
  exact leakTally_kept (callLog_integrity hint _) (h.take n).logged (fun c hc => (h.take n).uncounted hc)
    fun c hc => h.fcall_take n hc

/-- The number and the total size of all allocations of a log. -/
def logAllocs (rd : Rd w) : Tally := allocTally rd rd.calls

theorem ResourceLog.logAllocs_take (h : ResourceLog rd type res events) (n : Nat) :
    logAllocs (callLog rd (events.take n))
      = allocTally (callLog rd events) ((callLog rd events).calls.take n) := by
  have hallocs : allocations (callLog rd events) (callLog rd (events.take n)).calls
      = allocations (callLog rd (events.take n)) (callLog rd (events.take n)).calls := by
    refine List.filter_congr fun c hc => ?_
    rw [callKind, callKind, h.fcall_take n hc]
  rw [h.calls_take n, logAllocs, allocTally, allocTally, hallocs]
  exact tallyOf_congr fun c hc => (h.fcall_take n (List.mem_filter.mp hc).1).symm

/-- The timestamp behind some events, zero when there is none. -/
def stampBehind (events : List (FcallData w)) : BitVec 32 :=
  match events.getLast? with
  | none => 0
  | some event => event.timestamp

theorem ResourceLog.stamp_take (h : ResourceLog rd type res events) {n : Nat}
    (hn : n ≤ events.length) :
    lastStamp (callLog rd events) ((callLog rd events).calls.take n)
      = stampBehind (events.take n) := by
  cases n with
  | zero => rfl
  | succ n =>
    have hlt : n < events.length := hn
    rw [h.calls_take, (callLog_extends rd (events.take (n + 1))).calls, h.empty, List.nil_append,
      List.length_take, Nat.min_eq_left hn, List.range'_1_concat, lastStamp, List.getLast?_append,
      List.getLast?_singleton, Option.some_or, Option.bind_some, (callLog_extends rd events).fcall,
      List.getElem?_eq_getElem hlt, stampBehind, List.getLast?_take]
    simp [hlt]

/-! ## The summary -/

/-- What the summary should say of a log: what the filter leaves, all
allocations, and both at the first moment at which the size of what is left
was largest. -/
structure SummaryRight (rd : Rd w) (events : List (FcallData w)) (stats : Stats) : Prop where
  endLeaks : stats.endLeaks.Shows (leakTally (callLog rd events))
  endTotals : stats.endTotals.Shows (logAllocs (callLog rd events))
  peak : ∃ i, FirstPeak (fun j => (leakTally (callLog rd (events.take j))).size) events.length i ∧
    stats.peakLeaks.Shows (leakTally (callLog rd (events.take i))) ∧
    stats.peakTotals.Shows (logAllocs (callLog rd (events.take i))) ∧
    stats.peakTimestamp = stampBehind (events.take i)

/-- The summary of a resource behind a log is right. -/
def TotalsRight (rd : Rd w) (res : Common.Resource w) (events : List (FcallData w)) : Prop :=
  ∃ g, totalsReport (callLog rd events) (callLog rd events).calls = some g ∧
    SummaryRight rd events (g.statistics (timelineResource res).typeId)

/-- What was ever allocated only grows. -/
theorem allocTally_take_le (rd : Rd w) (calls : List Nat) (n : Nat) :
    (allocTally rd (calls.take n)).count ≤ (allocTally rd calls).count ∧
      (allocTally rd (calls.take n)).size ≤ (allocTally rd calls).size := by
  have hsub : (allocations rd (calls.take n)).Sublist (allocations rd calls) :=
    (List.take_sublist n calls).filter _
  exact ⟨hsub.length_le, (hsub.map (callSize rd)).sum_le_sum fun _ _ => Nat.zero_le _⟩

/-- What is kept is allocated. -/
theorem keptTally_count_le {calls : List Nat} (hnd : calls.Nodup)
    (hkinds : ∀ c ∈ calls, callKind rd c = .alloc ∨ callKind rd c = .free) :
    (keptTally rd calls).count ≤ (allocTally rd calls).count := by
  induction calls using List.reverseRecOn with
  | nil => exact Nat.le_refl 0
  | append_singleton calls c ih =>
    have hnd' := (List.nodup_append.mp hnd).1
    have hle := ih hnd' fun d hd => hkinds d (List.mem_append_left _ hd)
    rcases hkinds c (by simp) with halloc | hfree
    · rw [keptTally, allocTally, plainKept_alloc hnd halloc, allocations_snoc, if_pos halloc]
      simpa [tallyOf, keptTally, allocTally] using hle
    · have hne : callKind rd c ≠ .alloc := by rw [hfree]; decide
      rw [keptTally, allocTally, allocations_snoc, if_neg hne]
      cases hcancel : cancels rd calls c with
      | none =>
        rw [plainKept_unmatched hnd hfree hcancel]
        exact hle
      | some a =>
        have hlen := (plainKept_matched hnd hfree hcancel).length_eq
        rw [List.length_cons] at hlen
        refine le_trans ?_ hle
        show (plainKept rd (calls ++ [c])).length ≤ (plainKept rd calls).length
        omega

theorem ResourceLog.single (h : ResourceLog rd type res events) (hint : rd.Integrity)
    (hsmall : ∀ n, (leakTally (callLog rd (events.take n))).size < 2 ^ 32) :
    Single (callLog rd events) type res := by
  refine ⟨?_, fun c hc => ?_, fun j => ?_⟩
  · rw [(callLog_extends rd events).resource]
    exact h.resource
  · obtain ⟨i, event, -, hevent, hfcall⟩ := h.call hc
    have hmem := List.mem_of_getElem? hevent
    exact ⟨_, hfcall, h.carries event hmem, h.stamps event hmem⟩
  · rw [← h.leakTally_take hint j]
    exact hsmall j

/-- The summary is right for a log whose allocations fit into 32 bits. -/
theorem ResourceLog.totalsRight (h : ResourceLog rd type res events) (hint : rd.Integrity)
    (hsmall : ∀ n, (leakTally (callLog rd (events.take n))).size < 2 ^ 32)
    (hcount : (logAllocs (callLog rd events)).count < 2 ^ 32)
    (hsize : (logAllocs (callLog rd events)).size < 2 ^ 32) : TotalsRight rd res events := by
  have hnd := (callLog_integrity hint events).calls_nodup
  have hlen : (callLog rd events).calls.length = events.length := by
    rw [(callLog_extends rd events).calls, h.empty, List.nil_append, List.length_range']
  have hwhole : events.take events.length = events := List.take_length
  obtain ⟨g, hrun, hleaks, htotals, i, hpeak, hpleaks, hptotals, hstamp⟩ :=
    follows_run h.logged hnd (h.single hint hsmall) [] (List.append_nil _).symm
  have hall : ∀ n, (logAllocs (callLog rd (events.take n))).count < 2 ^ 32 ∧
      (logAllocs (callLog rd (events.take n))).size < 2 ^ 32 := by
    intro n
    obtain ⟨hc, hs⟩ := allocTally_take_le (callLog rd events) (callLog rd events).calls n
    rw [h.logAllocs_take n]
    exact ⟨hc.trans_lt hcount, hs.trans_lt hsize⟩
  have hleft : ∀ n, (leakTally (callLog rd (events.take n))).count < 2 ^ 32 := by
    intro n
    rw [h.leakTally_take hint n, h.calls_take n]
    refine (keptTally_count_le (callLog_integrity hint _).calls_nodup fun c hc => ?_).trans_lt ?_
    · obtain ⟨k, event, rfl, hevent, hfcall⟩ := (h.take n).call hc
      rw [callKind, h.fcall_take n hc, hfcall]
      rcases (h.take n).kinds event (List.mem_of_getElem? hevent) with halloc | hfree
      · exact Or.inl (by simp [halloc])
      · exact Or.inr (by simp [hfree, ftypeAlloc, ftypeFree])
    · rw [← h.calls_take n, ← h.logAllocs_take n]
      exact (hall n).1
  have hshows : ∀ n, (keptTally (callLog rd events) ((callLog rd events).calls.take n)).wrapped.Shows
      (leakTally (callLog rd (events.take n))) := by
    intro n
    rw [← h.leakTally_take hint n]
    exact (Tally.wrapped_shows _).mpr ⟨hleft n, hsmall n⟩
  have hshowsAll : ∀ n,
      (allocTally (callLog rd events) ((callLog rd events).calls.take n)).wrapped.Shows
        (logAllocs (callLog rd (events.take n))) := by
    intro n
    rw [← h.logAllocs_take n]
    exact (Tally.wrapped_shows _).mpr (hall n)
  refine ⟨g, hrun, ?_, ?_, i, ?_, ?_, ?_, ?_⟩
  · have hend := hshows events.length
    rwa [hwhole, ← hlen, List.take_length, ← hleaks] at hend
  · have hend := hshowsAll events.length
    rwa [hwhole, ← hlen, List.take_length, ← htotals] at hend
  · rw [hlen] at hpeak
    exact hpeak.congr fun j _ => by rw [← h.leakTally_take hint j]
  · rw [hpleaks]
    exact hshows i
  · rw [hptotals]
    exact hshowsAll i
  · rw [hstamp]
    exact h.stamp_take (hpeak.reached.trans_eq hlen)

/-- **The totals report**: as long as what is left stays below 2^32, its
summary is right behind every prefix of the log if and only if the number
and the total size of all allocations stay below 2^32, too. -/
theorem totalsRight_iff (rd : TraceStore w) (h : ResourceLog rd.val type res events)
    (hsmall : ∀ n, (leakTally (callLog rd.val (events.take n))).size < 2 ^ 32) :
    (∀ n, TotalsRight rd.val res (events.take n)) ↔
      (logAllocs (callLog rd.val events)).count < 2 ^ 32 ∧
        (logAllocs (callLog rd.val events)).size < 2 ^ 32 := by
  constructor
  · intro hright
    obtain ⟨g, -, hsummary⟩ := hright events.length
    rw [List.take_length] at hsummary
    obtain ⟨hcount, hsize⟩ := hsummary.endTotals
    rw [← hcount, ← hsize]
    exact ⟨BitVec.isLt _, BitVec.isLt _⟩
  · intro hfits n
    obtain ⟨hcount, hsize⟩ := hfits
    obtain ⟨hc, hs⟩ := allocTally_take_le (callLog rd.val events) (callLog rd.val events).calls n
    rw [← h.logAllocs_take n] at hc hs
    refine (h.take n).totalsRight rd.property (fun j => ?_) (hc.trans_lt hcount) (hs.trans_lt hsize)
    rw [List.take_take]
    exact hsmall (min j n)

/-! ## Two logs -/

/-- A log without calls, of a resource that is not counted. -/
def memoryLog : Rd 64 := (rdAddResource rdCreate sampleMemory).1

/-- An event of the resource, at one address. -/
def memoryEvent (kind timestamp resSize : BitVec 32) : FcallData 64 :=
  { index := 0, type := kind, context := 0, timestamp, name := [], resType := some 0, resId := 16
    resSize }

theorem memoryLog_integrity : memoryLog.Integrity :=
  rdAddResource_integrity integrity_rdCreate sampleMemory

theorem memoryLog_logged : Logged memoryLog := by
  have honly : ∀ type ∈ memoryLog.resources, type = 0 := fun type htype => List.mem_singleton.mp htype
  refine ⟨fun type htype => ?_, fun type ht type' ht' _ _ _ _ _ => ?_,
    fun type ht type' ht' _ _ _ _ _ => ?_, fun type ht _ _ _ type' ht' => ?_,
    fun c hc => absurd hc List.not_mem_nil, fun c hc => absurd hc List.not_mem_nil⟩
  · exact ⟨sampleMemory, by rw [honly type htype]; rfl⟩
  · rw [honly type ht, honly type' ht']
  · rw [honly type ht, honly type' ht']
  · rw [honly type ht, honly type' ht']

/-- A log of the resource, with any contexts. -/
theorem memoryLog_resource (contexts : List (Common.Context 64)) {events : List (FcallData 64)}
    (hevents : ∀ event ∈ events, event.resType = some 0 ∧
      (event.type = ftypeAlloc ∨ event.type = ftypeFree) ∧ event.timestamp ≠ 0) :
    ResourceLog { memoryLog with contexts } 0 sampleMemory events where
  environment :=
    { live := memoryLog_logged.live
      types := memoryLog_logged.types
      ids := memoryLog_logged.ids
      hidden := memoryLog_logged.hidden
      carries := memoryLog_logged.carries
      kinds := memoryLog_logged.kinds }
  empty := rfl
  registered := List.mem_singleton.mpr rfl
  resource := rfl
  plain := rfl
  carries := fun event hevent => (hevents event hevent).1
  kinds := fun event hevent => (hevents event hevent).2.1
  stamps := fun event hevent => (hevents event hevent).2.2

/-- Only the prefixes up to the whole log count. -/
theorem ResourceLog.small (h : ResourceLog rd type res events) (hint : rd.Integrity)
    (hprefixes : ∀ n ≤ events.length,
      (keptTally (callLog rd events) ((callLog rd events).calls.take n)).size < 2 ^ 32) (n : Nat) :
    (leakTally (callLog rd (events.take n))).size < 2 ^ 32 := by
  have hmin : events.take n = events.take (min n events.length) := by
    rcases Nat.le_total n events.length with hle | hge
    · rw [Nat.min_eq_left hle]
    · rw [Nat.min_eq_right hge, List.take_of_length_le hge, List.take_length]
  rw [hmin, h.leakTally_take hint]
  exact hprefixes _ (Nat.min_le_right _ _)

/-- An allocation, its free and a second allocation. -/
def reuseEvents : List (FcallData 64) :=
  [memoryEvent ftypeAlloc 5 100, memoryEvent ftypeFree 6 0, memoryEvent ftypeAlloc 7 40]

theorem reuseEvents_log : ResourceLog memoryLog 0 sampleMemory reuseEvents :=
  memoryLog_resource [] (by decide)

/-- The summary of the first allocation, its free and the second one. -/
theorem totalsRight_iff_reuse : TotalsRight memoryLog sampleMemory reuseEvents :=
  (totalsRight_iff ⟨memoryLog, memoryLog_integrity⟩ reuseEvents_log
    (reuseEvents_log.small memoryLog_integrity (by decide))).mpr (by decide) 3

/-- Three times the largest block is allocated and freed. -/
def churnEvents : List (FcallData 64) :=
  [memoryEvent ftypeAlloc 1 0x7FFFFFFF, memoryEvent ftypeFree 2 0,
    memoryEvent ftypeAlloc 3 0x7FFFFFFF, memoryEvent ftypeFree 4 0,
    memoryEvent ftypeAlloc 5 0x7FFFFFFF, memoryEvent ftypeFree 6 0]

theorem churnEvents_log : ResourceLog memoryLog 0 sampleMemory churnEvents :=
  memoryLog_resource [] (by decide)

/-- What is left stays small, and the total size of the allocations does
not fit into the statistics. -/
theorem totalsRight_churn : (∀ n, (leakTally (callLog memoryLog (churnEvents.take n))).size < 2 ^ 32) ∧
    ¬ TotalsRight memoryLog sampleMemory churnEvents := by
  refine ⟨churnEvents_log.small memoryLog_integrity (by decide), ?_⟩
  intro hright
  obtain ⟨g, -, hsummary⟩ := hright
  obtain ⟨-, hsize⟩ := hsummary.endTotals
  have hlarge : 2 ^ 32 ≤ (logAllocs (callLog memoryLog churnEvents)).size := by decide
  rw [← hsize] at hlarge
  exact absurd (BitVec.isLt _) (Nat.not_lt.mpr hlarge)

end SpRtrace.Timeline
