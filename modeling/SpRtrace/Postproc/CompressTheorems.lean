/-
SpRtrace.Postproc.CompressTheorems — what the compressed log contains.

The compressed writer goes through the table of backtraces and through
the reference list of each, not through `rd->calls`. In a consistent
store the lists of all backtraces together are the calls that have a
backtrace, each once (`traceCalls_perm`), so a call without one is not
written. `compressed_complete_iff` says exactly when nothing is lost.
-/
import Mathlib
import SpRtrace.Postproc.Session
import SpRtrace.Postproc.WriterTheorems

namespace SpRtrace.Postproc

open SpRtrace.Lib SpRtrace.Common SpRtrace.Library

variable {w : Nat}

/-! ## The calls of a backtrace -/

/-- The calls of a backtrace, in the order of its reference list. -/
def traceCalls (rd : Rd w) (trace : Nat) : List Nat :=
  ((rd.ftrace trace).map fun t => t.calls.filterMap rd.refNode).getD []

def HasTrace (rd : Rd w) (call : Nat) : Prop := ∃ t, (rd.fcall call).bind Fcall.trace = some t

/-- The calls and the backtraces of the table refer to each other: what the
compressed writer reads. -/
structure Referenced (rd : Rd w) : Prop where
  calls_nodup : rd.calls.Nodup
  call_live : ∀ c ∈ rd.calls, ∃ x, rd.fcall c = some x
  nodes : (htableNodes rd.ftraces).Nodup ∧ ∀ t, t ∈ htableNodes rd.ftraces ↔ rd.StoredTrace t
  stored_live : ∀ t, rd.StoredTrace t → ∃ y, rd.ftrace t = some y
  call_trace : ∀ c ∈ rd.calls, ∀ x t, rd.fcall c = some x → x.trace = some t →
    rd.StoredTrace t ∧ ∃ r y, x.ref = some r ∧ rd.ftrace t = some y ∧ r ∈ y.calls ∧
      rd.refNode r = some c
  trace_calls : ∀ t y, rd.StoredTrace t → rd.ftrace t = some y →
    y.calls.Nodup ∧ y.refCount = BitVec.ofNat 32 y.calls.length ∧
    ∀ r ∈ y.calls, ∃ c ∈ rd.calls, ∃ x, rd.refNode r = some c ∧ rd.fcall c = some x ∧
      x.trace = some t ∧ x.ref = some r

theorem Linked.referenced {rd : Rd w} (h : rd.Linked) (hsize : 0 < rd.ftraces.size) :
    Referenced rd where
  calls_nodup := h.calls_nodup
  call_live := h.call_live
  nodes := h.ftraces_nodes hsize
  stored_live := fun t hst => (h.stored_live t hst).imp fun _ hy => hy.1
  call_trace := h.call_trace
  trace_calls := h.trace_calls

theorem traceCalls_refs {rd : Rd w} (h : Referenced rd) {t : Nat} {y : Ftrace w}
    (hst : rd.StoredTrace t) (hy : rd.ftrace t = some y) :
    List.Forall₂ (fun r c => rd.refNode r = some c) y.calls (traceCalls rd t) := by
  obtain ⟨-, -, hrefs⟩ := h.trace_calls t y hst hy
  rw [traceCalls, hy]
  simp only [Option.map_some, Option.getD_some]
  generalize y.calls = rs at hrefs
  induction rs with
  | nil => exact .nil
  | cons r rs ih =>
    obtain ⟨c, -, -, hr, -⟩ := hrefs r (by simp)
    rw [List.filterMap_cons_some hr]
    exact .cons hr (ih fun r' hr' => hrefs r' (by simp [hr']))

/-- A call is in the list of its own backtrace and of no other. -/
theorem mem_traceCalls {rd : Rd w} (h : Referenced rd) {t c : Nat} (hst : rd.StoredTrace t) :
    c ∈ traceCalls rd t ↔ c ∈ rd.calls ∧ (rd.fcall c).bind Fcall.trace = some t := by
  obtain ⟨y, hy⟩ := h.stored_live t hst
  obtain ⟨-, -, hrefs⟩ := h.trace_calls t y hst hy
  have hall := traceCalls_refs h hst hy
  constructor
  · intro hc
    obtain ⟨r, hr, hrc⟩ := forall₂_mem_right hall hc
    obtain ⟨c', hc', x, hrc', hx, htrace, -⟩ := hrefs r hr
    obtain rfl := Option.some.inj (hrc.symm.trans hrc')
    exact ⟨hc', by rw [hx]; exact htrace⟩
  · rintro ⟨hc, htrace⟩
    obtain ⟨x, hx⟩ := h.call_live c hc
    rw [hx] at htrace
    obtain ⟨-, r, y', -, hy', hr, hrc⟩ := h.call_trace c hc x t hx htrace
    obtain rfl := Option.some.inj (hy.symm.trans hy')
    obtain ⟨c', hc', hrc'⟩ := forall₂_mem_left hall hr
    obtain rfl := Option.some.inj (hrc.symm.trans hrc')
    exact hc'

/-- No stored backtrace is without calls. -/
theorem traceCalls_nonempty {rd : Rd w} (h : rd.Integrity) (hsize : 0 < rd.ftraces.size) {t : Nat}
    (hst : rd.StoredTrace t) : ∃ c, c ∈ traceCalls rd t := by
  obtain ⟨y, hy, -⟩ := h.stored_live t hst
  have hlen := (traceCalls_refs (Linked.referenced h.toLinked hsize) hst hy).length_eq
  exact List.exists_mem_of_length_pos (hlen ▸ List.length_pos_of_ne_nil (h.used t y hst hy))

theorem nodup_traceCalls {rd : Rd w} (h : Referenced rd) {t : Nat} (hst : rd.StoredTrace t) :
    (traceCalls rd t).Nodup := by
  obtain ⟨y, hy⟩ := h.stored_live t hst
  obtain ⟨hnd, -, hrefs⟩ := h.trace_calls t y hst hy
  have hall := traceCalls_refs h hst hy
  generalize traceCalls rd t = cs at hall
  generalize y.calls = rs at hnd hrefs hall
  induction hall with
  | nil => exact List.nodup_nil
  | @cons r c rs cs hr hall ih =>
    refine List.nodup_cons.mpr ⟨fun hc => ?_, ih (List.nodup_cons.mp hnd).2
      fun r' hr' => hrefs r' (by simp [hr'])⟩
    -- a second reference to the call would be the same one
    obtain ⟨r', hr', hrc'⟩ := forall₂_mem_right hall hc
    obtain ⟨c₁, -, x₁, hc₁, hx₁, -, href₁⟩ := hrefs r (by simp)
    obtain ⟨c₂, -, x₂, hc₂, hx₂, -, href₂⟩ := hrefs r' (by simp [hr'])
    obtain rfl := Option.some.inj (hr.symm.trans hc₁)
    obtain rfl := Option.some.inj (hrc'.symm.trans hc₂)
    obtain rfl := Option.some.inj (hx₁.symm.trans hx₂)
    obtain rfl := Option.some.inj (href₁.symm.trans href₂)
    exact (List.nodup_cons.mp hnd).1 hr'

/-- The lists of all backtraces together are the calls with a backtrace. -/
theorem traceCalls_perm {rd : Rd w} (h : Referenced rd) {traces : List Nat} (hnd : traces.Nodup)
    (hmem : ∀ t, t ∈ traces ↔ rd.StoredTrace t) :
    (traces.flatMap (traceCalls rd)).Perm
      (rd.calls.filter fun c => ((rd.fcall c).bind Fcall.trace).isSome) := by
  have hnodup : (traces.flatMap (traceCalls rd)).Nodup := by
    rw [List.nodup_flatMap]
    refine ⟨fun t ht => nodup_traceCalls h ((hmem t).mp ht), ?_⟩
    refine hnd.imp_of_mem fun {t u} ht hu hne => ?_
    rw [Function.onFun, List.disjoint_left]
    intro c hct hcu
    have htrace := ((mem_traceCalls h ((hmem t).mp ht)).mp hct).2
    rw [((mem_traceCalls h ((hmem u).mp hu)).mp hcu).2] at htrace
    exact hne (Option.some.inj htrace).symm
  rw [List.perm_ext_iff_of_nodup hnodup (h.calls_nodup.filter _)]
  intro c
  rw [List.mem_flatMap, List.mem_filter, Option.isSome_iff_exists]
  constructor
  · rintro ⟨t, ht, hc⟩
    obtain ⟨hmemc, htrace⟩ := (mem_traceCalls h ((hmem t).mp ht)).mp hc
    exact ⟨hmemc, t, htrace⟩
  · rintro ⟨hc, t, htrace⟩
    obtain ⟨x, hx⟩ := h.call_live c hc
    have hst := (h.call_trace c hc x t hx (by rw [hx] at htrace; exact htrace)).1
    exact ⟨t, (hmem t).mpr hst, (mem_traceCalls h hst).mpr ⟨hc, htrace⟩⟩

/-! ## The totals of a backtrace -/

/-- `res_size` of a call. -/
def callSize (rd : Rd w) (call : Nat) : BitVec 32 := ((rd.fcall call).map (·.data.resSize)).getD 0

/-- The reference to a backtrace with the totals of its calls. -/
def traceTotals (rd : Rd w) (trace : Nat) : FtraceRef where
  ref := trace
  leakCount := BitVec.ofNat 32 (traceCalls rd trace).length
  leakSize := ((traceCalls rd trace).map (callSize rd)).sum

theorem countLeaks_foldlM {rd : Rd w} {rs cs : List Nat}
    (hall : List.Forall₂ (fun r c => rd.refNode r = some c) rs cs)
    (hlive : ∀ c ∈ cs, ∃ x, rd.fcall c = some x) (ref : FtraceRef) :
    rs.foldlM (countLeaks rd) ref = some { ref with
      leakCount := ref.leakCount + BitVec.ofNat 32 cs.length
      leakSize := ref.leakSize + (cs.map (callSize rd)).sum } := by
  induction hall generalizing ref with
  | nil => simp
  | @cons r c rs cs hr _ ih =>
    obtain ⟨x, hx⟩ := hlive c (by simp)
    rw [List.foldlM_cons]
    simp only [countLeaks, hr, hx, Option.bind_eq_bind, Option.bind_some]
    rw [ih fun c' hc' => hlive c' (by simp [hc'])]
    have hsize : callSize rd c = x.data.resSize := by rw [callSize, hx]; rfl
    simp only [List.length_cons, List.map_cons, List.sum_cons, hsize, Option.some.injEq,
      FtraceRef.mk.injEq, true_and]
    constructor
    · rw [BitVec.ofNat_add, BitVec.add_assoc, BitVec.add_comm (BitVec.ofNat 32 cs.length)]
      rfl
    · rw [add_assoc]

theorem sortLeak_eq {rd : Rd w} (h : Referenced rd) {t : Nat} (hst : rd.StoredTrace t) :
    sortLeak rd t = some (traceTotals rd t) := by
  obtain ⟨y, hy⟩ := h.stored_live t hst
  have hlive : ∀ c ∈ traceCalls rd t, ∃ x, rd.fcall c = some x := fun c hc =>
    h.call_live c ((mem_traceCalls h hst).mp hc).1
  simp only [sortLeak, hy, Option.bind_eq_bind, Option.bind_some]
  rw [countLeaks_foldlM (traceCalls_refs h hst hy) hlive]
  simp [traceTotals]

/-- `leaks_sort` gives every backtrace once, with its totals. -/
theorem leaksSort_spec {rd : Rd w} (h : Referenced rd)
    (cmp : LeaksCompare) :
    leaksSort rd cmp = dlistSort cmp.compare ((htableNodes rd.ftraces).map (traceTotals rd)) := by
  have hmap : (htableNodes rd.ftraces).mapM (sortLeak rd)
      = some ((htableNodes rd.ftraces).map (traceTotals rd)) := by
    rw [mapM_eq_some_iff, List.forall₂_map_right_iff, List.forall₂_same]
    intro t ht
    exact sortLeak_eq h ((h.nodes.2 t).mp ht)
  rw [leaksSort, hmap]
  rfl

theorem leaksSort_perm {rd : Rd w} (h : Referenced rd)
    {cmp : LeaksCompare} {refs : List FtraceRef} (heq : leaksSort rd cmp = some refs) :
    ∃ traces : List Nat, traces.Nodup ∧ (∀ t, t ∈ traces ↔ rd.StoredTrace t) ∧
      refs = traces.map (traceTotals rd) := by
  rw [leaksSort_spec h] at heq
  obtain ⟨hnd, hmem⟩ := h.nodes
  have hsorted := dlistSort_perm heq
  have hperm : (refs.map FtraceRef.ref).Perm (htableNodes rd.ftraces) := by
    have := hsorted.map FtraceRef.ref
    rwa [List.map_map, show FtraceRef.ref ∘ traceTotals rd = id from rfl, List.map_id] at this
  refine ⟨refs.map FtraceRef.ref, hperm.nodup_iff.mpr hnd,
    fun t => hperm.mem_iff.trans (hmem t), ?_⟩
  rw [List.map_map]
  refine ((List.map_congr_left fun r hr => ?_).trans (List.map_id refs)).symm
  obtain ⟨t, -, rfl⟩ := List.mem_map.mp (hsorted.mem_iff.mp hr)
  rfl

/-! ## What can be written -/

/-- The line of the call fits its buffer. -/
def CallPrints (rd : Rd w) (clock : Nat → BitVec 32) (call : Nat) : Prop :=
  ∃ c record text, rd.fcall call = some c ∧ fcallRecord rd c.data = some record ∧
    spRtracePrintCall (clock call) record = some text

/-- The lines of the backtrace fit their buffer. -/
def TracePrints (rd : Rd w) (trace : Nat) : Prop :=
  ∃ t text, rd.ftrace trace = some t ∧ spRtracePrintTrace t.frames = some text

/-- The calls, the backtraces and the order of the backtraces are no
problem for the writer. -/
structure Writable (rd : Rd w) (opts : WriterOptions) (clock : Nat → BitVec 32) : Prop where
  calls : ∀ c ∈ rd.calls, (opts.compress = true → HasTrace rd c) → CallPrints rd clock c
  traces : ∀ t, rd.StoredTrace t → TracePrints rd t
  sorts : opts.compress = true → ∃ refs, leaksSort rd opts.compareLeaks = some refs

theorem callBlock_total {rd : Rd w} {clock : Nat → BitVec 32} {call : Nat} :
    (∃ b, callBlock rd clock call = some b) ↔ CallPrints rd clock call := by
  simp only [callBlock, Option.bind_eq_bind, Option.bind_eq_some_iff, Option.some.injEq]
  constructor
  · rintro ⟨b, c, hc, record, hrecord, text, htext, -⟩
    exact ⟨c, record, text, hc, hrecord, htext⟩
  · rintro ⟨c, record, text, hc, hrecord, htext⟩
    exact ⟨_, c, hc, record, hrecord, text, htext, rfl⟩

theorem writeTrace_total {rd : Rd w} {trace : Nat} :
    (∃ p, writeTrace rd trace = some p) ↔ TracePrints rd trace := by
  simp only [writeTrace, Option.bind_eq_bind, Option.bind_eq_some_iff, Option.some.injEq]
  constructor
  · rintro ⟨p, t, ht, text, htext, -⟩
    exact ⟨t, text, ht, htext⟩
  · rintro ⟨t, text, ht, htext⟩
    exact ⟨_, t, ht, text, htext, rfl⟩

/-- The calls of a group, as the writer finds them. -/
theorem groupCalls_mapM {rd : Rd w} (h : Referenced rd) (clock : Nat → BitVec 32) {t : Nat}
    {y : Ftrace w} (hst : rd.StoredTrace t) (hy : rd.ftrace t = some y) :
    (y.calls.mapM fun node => do callBlock rd clock (← rd.refNode node))
      = (traceCalls rd t).mapM (callBlock rd clock) := by
  have hall := traceCalls_refs h hst hy
  generalize traceCalls rd t = cs at hall
  generalize y.calls = rs at hall
  induction hall with
  | nil => rfl
  | cons hr _ ih =>
    rw [List.mapM_cons, List.mapM_cons, ih, hr]
    rfl

theorem groupBlocks_total {rd : Rd w} (h : Referenced rd) {clock : Nat → BitVec 32} {t : Nat}
    (hst : rd.StoredTrace t) :
    (∃ blocks, groupBlocks rd clock (traceTotals rd t) = some blocks) ↔
      (∀ c ∈ traceCalls rd t, CallPrints rd clock c) ∧ TracePrints rd t := by
  obtain ⟨y, hy⟩ := h.stored_live t hst
  unfold groupBlocks
  simp only [show (traceTotals rd t).ref = t from rfl, hy, Option.bind_eq_bind, Option.bind_some]
  rw [show (y.calls.mapM fun node => (rd.refNode node).bind fun call => callBlock rd clock call)
    = (traceCalls rd t).mapM (callBlock rd clock) from groupCalls_mapM h clock hst hy]
  simp only [Option.bind_eq_some_iff, Option.some.injEq]
  constructor
  · rintro ⟨blocks, calls, hcalls, p, hp, -⟩
    refine ⟨fun c hc => ?_, writeTrace_total.mp ⟨p, hp⟩⟩
    obtain ⟨b, -, hb⟩ := forall₂_mem_left (mapM_eq_some_iff.mp hcalls) hc
    exact callBlock_total.mp ⟨b, hb⟩
  · rintro ⟨hcalls, htrace⟩
    obtain ⟨calls, hcalls⟩ := mapM_total fun c hc => callBlock_total.mpr (hcalls c hc)
    obtain ⟨p, hp⟩ := writeTrace_total.mpr htrace
    exact ⟨_, calls, hcalls, p, hp, rfl⟩

/-- A call of `rd->calls` is in the table if it has a backtrace. -/
theorem HasTrace.stored {rd : Rd w} (h : Referenced rd) {c : Nat} (hc : c ∈ rd.calls)
    (htrace : HasTrace rd c) : ∃ t, rd.StoredTrace t ∧ c ∈ traceCalls rd t := by
  obtain ⟨t, ht⟩ := htrace
  obtain ⟨x, hx⟩ := h.call_live c hc
  have hst := (h.call_trace c hc x t hx (by rw [hx] at ht; exact ht)).1
  exact ⟨t, hst, (mem_traceCalls h hst).mpr ⟨hc, ht⟩⟩

theorem callBlocks_compressed_total {rd : Rd w} (h : Referenced rd)
    {opts : WriterOptions} (hcompress : opts.compress = true) {clock : Nat → BitVec 32} :
    (∃ blocks, callBlocks rd opts clock = some blocks) ↔ Writable rd opts clock := by
  unfold callBlocks
  simp only [hcompress, if_true, Option.bind_eq_bind, Option.bind_eq_some_iff, Option.some.injEq]
  constructor
  · rintro ⟨blocks, refs, hrefs, groups, hgroups, -⟩
    obtain ⟨traces, -, hmem, rfl⟩ := leaksSort_perm h hrefs
    have hgroup : ∀ t, rd.StoredTrace t →
        (∀ c ∈ traceCalls rd t, CallPrints rd clock c) ∧ TracePrints rd t := by
      intro t hst
      obtain ⟨b, -, hb⟩ := forall₂_mem_left (mapM_eq_some_iff.mp hgroups)
        (List.mem_map.mpr ⟨t, (hmem t).mpr hst, rfl⟩)
      exact (groupBlocks_total h hst).mp ⟨b, hb⟩
    refine ⟨fun c hc htrace => ?_, fun t hst => (hgroup t hst).2, fun _ => ⟨_, hrefs⟩⟩
    obtain ⟨t, hst, hmemc⟩ := (htrace hcompress).stored h hc
    exact (hgroup t hst).1 c hmemc
  · intro hw
    obtain ⟨refs, hrefs⟩ := hw.sorts hcompress
    obtain ⟨traces, -, hmem, rfl⟩ := leaksSort_perm h hrefs
    have hgroup : ∀ ref ∈ traces.map (traceTotals rd),
        ∃ blocks, groupBlocks rd clock ref = some blocks := by
      intro ref href
      obtain ⟨t, ht, rfl⟩ := List.mem_map.mp href
      have hst := (hmem t).mp ht
      refine (groupBlocks_total h hst).mpr ⟨fun c hc => ?_, hw.traces t hst⟩
      obtain ⟨hmemc, htrace⟩ := (mem_traceCalls h hst).mp hc
      exact hw.calls c hmemc fun _ => ⟨t, htrace⟩
    obtain ⟨groups, hgroups⟩ := mapM_total hgroup
    exact ⟨_, _, hrefs, groups, hgroups, rfl⟩

theorem plainBlocks_total {rd : Rd w} (h : Referenced rd) {clock : Nat → BitVec 32} {c : Nat}
    (hc : c ∈ rd.calls) :
    (∃ blocks, plainBlocks rd clock c = some blocks) ↔ CallPrints rd clock c ∧
      ∀ t, (rd.fcall c).bind Fcall.trace = some t → TracePrints rd t := by
  obtain ⟨x, hx⟩ := h.call_live c hc
  unfold plainBlocks
  simp only [hx, Option.bind_eq_bind, Option.bind_some, Option.bind_eq_some_iff]
  cases htrace : x.trace with
  | none =>
    simp only [Option.some.injEq, reduceCtorEq, false_implies, implies_true, and_true]
    rw [← callBlock_total]
    constructor
    · rintro ⟨blocks, b, hb, -⟩
      exact ⟨b, hb⟩
    · rintro ⟨b, hb⟩
      exact ⟨_, b, hb, rfl⟩
  | some t =>
    simp only [Option.bind_eq_some_iff, Option.some.injEq, forall_eq']
    rw [← callBlock_total, ← writeTrace_total]
    constructor
    · rintro ⟨blocks, b, hb, p, hp, -⟩
      exact ⟨⟨b, hb⟩, p, hp⟩
    · rintro ⟨⟨b, hb⟩, p, hp⟩
      exact ⟨_, b, hb, p, hp, rfl⟩

theorem callBlocks_plain_total {rd : Rd w} (h : rd.Integrity) (hsize : 0 < rd.ftraces.size)
    {opts : WriterOptions} (hplain : ¬ opts.compress = true) {clock : Nat → BitVec 32} :
    (∃ blocks, callBlocks rd opts clock = some blocks) ↔ Writable rd opts clock := by
  have href := Linked.referenced h.toLinked hsize
  rw [callBlocks, if_neg hplain]
  simp only [Option.bind_eq_bind, Option.bind_eq_some_iff, Option.some.injEq]
  constructor
  · rintro ⟨blocks, groups, hgroups, -⟩
    have hcall : ∀ c ∈ rd.calls, CallPrints rd clock c ∧
        ∀ t, (rd.fcall c).bind Fcall.trace = some t → TracePrints rd t := by
      intro c hc
      obtain ⟨b, -, hb⟩ := forall₂_mem_left (mapM_eq_some_iff.mp hgroups) hc
      exact (plainBlocks_total href hc).mp ⟨b, hb⟩
    refine ⟨fun c hc _ => (hcall c hc).1, fun t hst => ?_, fun hc => absurd hc hplain⟩
    obtain ⟨c, hc⟩ := traceCalls_nonempty h hsize hst
    obtain ⟨hmemc, htrace⟩ := (mem_traceCalls href hst).mp hc
    exact (hcall c hmemc).2 t htrace
  · intro hw
    have hcall : ∀ c ∈ rd.calls, ∃ blocks, plainBlocks rd clock c = some blocks := by
      intro c hc
      refine (plainBlocks_total href hc).mpr
        ⟨hw.calls c hc fun hcomp => absurd hcomp hplain, fun t ht => ?_⟩
      obtain ⟨x, hx⟩ := h.call_live c hc
      exact hw.traces t (h.call_trace c hc x t hx (by rw [hx] at ht; exact ht)).1
    obtain ⟨groups, hgroups⟩ := mapM_total hcall
    exact ⟨_, groups, hgroups, rfl⟩

/-- **When the calls can be written.** -/
theorem callBlocks_total {rd : Rd w} (h : rd.Integrity) (hsize : 0 < rd.ftraces.size)
    {opts : WriterOptions} {clock : Nat → BitVec 32} :
    (∃ blocks, callBlocks rd opts clock = some blocks) ↔ Writable rd opts clock := by
  by_cases hc : opts.compress = true
  · exact callBlocks_compressed_total (Linked.referenced h.toLinked hsize) hc
  · exact callBlocks_plain_total h hsize hc

/-! ## What was written -/

/-- The written calls, each group with the backtrace that ends it; `calls`
are those in front that have no backtrace yet. -/
def pieceGroups : List Nat → List Piece → List (List Nat × Nat)
  | _, [] => []
  | calls, .call call _ :: pieces => pieceGroups (calls ++ [call]) pieces
  | calls, .trace trace _ :: pieces => (calls, trace) :: pieceGroups [] pieces
  | calls, _ :: pieces => pieceGroups calls pieces

def writtenCalls (pieces : List Piece) : List Nat :=
  pieces.filterMap fun p => match p with
    | .call call _ => some call
    | _ => none

def summaries (pieces : List Piece) : List (BitVec 32 × BitVec 32) :=
  pieces.filterMap fun p => match p with
    | .summary leakCount leakSize => some (leakCount, leakSize)
    | _ => none

/-- **Nothing is lost**: every call is written once, in the group of its own
backtrace, and the summaries add up to all calls. -/
structure PrintsAll (rd : Rd w) (pieces : List Piece) : Prop where
  calls : (writtenCalls pieces).Perm rd.calls
  grouped : writtenCalls pieces = (pieceGroups [] pieces).flatMap Prod.fst
  own : ∀ g ∈ pieceGroups [] pieces, ∀ c ∈ g.1, (rd.fcall c).bind Fcall.trace = some g.2
  groups : ((pieceGroups [] pieces).map Prod.snd).Nodup
  counts : ((summaries pieces).map fun s => s.1.toInt).sum = rd.calls.length
  sizes : ((summaries pieces).map Prod.snd).sum = (rd.calls.map (callSize rd)).sum

theorem pieceGroups_others (calls : List Nat) (pieces : List Piece) :
    pieceGroups calls (otherPieces pieces) = pieceGroups calls pieces := by
  induction pieces generalizing calls with
  | nil => rfl
  | cons p pieces ih =>
    cases p with
    | comment text => exact ih calls
    | call call text => exact ih (calls ++ [call])
    | args text => exact ih calls
    | summary count size => exact ih calls
    | trace trace text =>
      show (calls, trace) :: pieceGroups [] (otherPieces pieces) = _
      rw [ih]
      rfl

theorem writtenCalls_others (pieces : List Piece) :
    writtenCalls (otherPieces pieces) = writtenCalls pieces := by
  induction pieces with
  | nil => rfl
  | cons p pieces ih =>
    cases p with
    | call call text => exact congrArg (call :: ·) ih
    | _ => exact ih

theorem summaries_others (pieces : List Piece) :
    summaries (otherPieces pieces) = summaries pieces := by
  induction pieces with
  | nil => rfl
  | cons p pieces ih =>
    cases p with
    | summary count size => exact congrArg ((count, size) :: ·) ih
    | _ => exact ih

/-- The pieces of the calls of a group. -/
theorem callBlocks_pieces {rd : Rd w} {clock : Nat → BitVec 32} {cs : List Nat} {calls : List Block}
    (h : cs.mapM (callBlock rd clock) = some calls) (rest : List Piece) (front : List Nat) :
    pieceGroups front (calls.flatMap Block.pieces ++ rest) = pieceGroups (front ++ cs) rest ∧
      writtenCalls (calls.flatMap Block.pieces) = cs ∧
      summaries (calls.flatMap Block.pieces) = [] := by
  rw [mapM_eq_some_iff] at h
  induction h generalizing front with
  | nil => simp [writtenCalls, summaries]
  | @cons c b cs calls hb _ ih =>
    simp only [callBlock, Option.bind_eq_bind, Option.bind_eq_some_iff, Option.some.injEq] at hb
    obtain ⟨x, -, record, -, text, -, rfl⟩ := hb
    obtain ⟨hgroups, hwritten, hsums⟩ := ih (front ++ [c])
    simp only [List.flatMap_cons, List.append_assoc]
    cases x.args with
    | none =>
      refine ⟨?_, congrArg (c :: ·) hwritten, hsums⟩
      rw [List.append_cons front c cs]
      exact hgroups
    | some args =>
      refine ⟨?_, congrArg (c :: ·) hwritten, hsums⟩
      rw [List.append_cons front c cs]
      exact hgroups

/-- The pieces of a group. -/
theorem groupBlocks_pieces {rd : Rd w} (h : Referenced rd) {clock : Nat → BitVec 32} {t : Nat}
    (hst : rd.StoredTrace t) {blocks : List Block}
    (hblocks : groupBlocks rd clock (traceTotals rd t) = some blocks) (rest : List Piece) :
    pieceGroups [] (blocks.flatMap Block.pieces ++ rest)
        = (traceCalls rd t, t) :: pieceGroups [] rest ∧
      writtenCalls (blocks.flatMap Block.pieces) = traceCalls rd t ∧
      summaries (blocks.flatMap Block.pieces)
        = [((traceTotals rd t).leakCount, (traceTotals rd t).leakSize)] := by
  obtain ⟨y, hy⟩ := h.stored_live t hst
  have hmap := groupCalls_mapM h clock hst hy
  simp only [Option.bind_eq_bind] at hmap
  simp only [groupBlocks, show (traceTotals rd t).ref = t from rfl, hy, Option.bind_eq_bind,
    Option.bind_some, hmap, Option.bind_eq_some_iff, Option.some.injEq] at hblocks
  obtain ⟨calls, hcalls, p, hp, rfl⟩ := hblocks
  simp only [writeTrace, Option.bind_eq_bind, Option.bind_eq_some_iff, Option.some.injEq] at hp
  obtain ⟨t', -, text, -, rfl⟩ := hp
  obtain ⟨-, hwritten, hsums⟩ := callBlocks_pieces hcalls [] []
  rw [List.flatMap_append, List.append_assoc]
  refine ⟨?_, ?_, ?_⟩
  · rw [(callBlocks_pieces hcalls _ []).1, List.nil_append]
    rfl
  · show writtenCalls _ = _
    rw [writtenCalls, List.filterMap_append]
    exact (congrArg (· ++ _) hwritten).trans (List.append_nil _)
  · rw [summaries, List.filterMap_append]
    exact congrArg (· ++ _) hsums

/-- The pieces of all groups. -/
theorem groups_pieces {rd : Rd w} (h : Referenced rd) {clock : Nat → BitVec 32} :
    ∀ {traces : List Nat} {groups : List (List Block)}, (∀ t ∈ traces, rd.StoredTrace t) →
      (traces.map (traceTotals rd)).mapM (groupBlocks rd clock) = some groups →
      pieceGroups [] (groups.flatten.flatMap Block.pieces)
          = traces.map (fun t => (traceCalls rd t, t)) ∧
        writtenCalls (groups.flatten.flatMap Block.pieces) = traces.flatMap (traceCalls rd) ∧
        summaries (groups.flatten.flatMap Block.pieces) = traces.map
          (fun t => ((traceTotals rd t).leakCount, (traceTotals rd t).leakSize))
  | [], groups, _, hgroups => by
      obtain rfl := Option.some.inj hgroups
      exact ⟨rfl, rfl, rfl⟩
  | t :: traces, groups, hst, hgroups => by
      rw [List.map_cons, mapM_eq_some_iff, List.forall₂_cons_left_iff] at hgroups
      obtain ⟨blocks, groups, hblocks, hrest, rfl⟩ := hgroups
      obtain ⟨h₁, h₂, h₃⟩ := groups_pieces h (fun t' ht' => hst t' (by simp [ht']))
        (mapM_eq_some_iff.mpr hrest)
      obtain ⟨-, hwritten, hsums⟩ := groupBlocks_pieces h (hst t (by simp)) hblocks []
      rw [List.flatten_cons, List.flatMap_append]
      refine ⟨?_, ?_, ?_⟩
      · rw [(groupBlocks_pieces h (hst t (by simp)) hblocks _).1, h₁]
        rfl
      · rw [writtenCalls, List.filterMap_append, List.flatMap_cons, ← h₂]
        exact congrArg (· ++ _) hwritten
      · rw [summaries, List.filterMap_append, List.map_cons, ← h₃]
        exact congrArg (· ++ _) hsums

/-- What the compressed writer has written. -/
theorem compressed_pieces (hw : 32 ≤ w) {rd : Rd w} (h : Referenced rd)
    {opts : WriterOptions} (hcompress : opts.compress = true) {clock : Nat → BitVec 32}
    {pieces : List Piece} (hwrite : writeTraceCalls rd opts clock = some pieces) :
    ∃ traces : List Nat, traces.Nodup ∧ (∀ t, t ∈ traces ↔ rd.StoredTrace t) ∧
      pieceGroups [] pieces = traces.map (fun t => (traceCalls rd t, t)) ∧
      writtenCalls pieces = traces.flatMap (traceCalls rd) ∧
      summaries pieces = traces.map
        (fun t => ((traceTotals rd t).leakCount, (traceTotals rd t).leakSize)) := by
  obtain ⟨blocks, hblocks, -, hother⟩ := writeTraceCalls_spec hw hwrite
  rw [callBlocks, if_pos hcompress] at hblocks
  simp only [Option.bind_eq_bind, Option.bind_eq_some_iff, Option.some.injEq] at hblocks
  obtain ⟨refs, hrefs, groups, hgroups, rfl⟩ := hblocks
  obtain ⟨traces, hnd, hmem, rfl⟩ := leaksSort_perm h hrefs
  obtain ⟨h₁, h₂, h₃⟩ := groups_pieces h (fun t ht => (hmem t).mp ht) hgroups
  refine ⟨traces, hnd, hmem, ?_, ?_, ?_⟩
  · rw [← pieceGroups_others, hother, h₁]
  · rw [← writtenCalls_others, hother, h₂]
  · rw [← summaries_others, hother, h₃]

/-! ## Completeness -/

/-- An `int` counter tells a number if and only if it did not overflow. -/
theorem sum_toInt_ofNat (ns : List Nat) :
    (ns.map fun n => (BitVec.ofNat 32 n).toInt).sum ≤ (ns.sum : Int) ∧
      ((ns.map fun n => (BitVec.ofNat 32 n).toInt).sum = (ns.sum : Int) ↔ ∀ n ∈ ns, n < 2 ^ 31) := by
  have hone : ∀ n : Nat, (BitVec.ofNat 32 n).toInt ≤ n ∧
      ((BitVec.ofNat 32 n).toInt = n ↔ n < 2 ^ 31) := by
    intro n
    rw [BitVec.toInt_ofNat']
    simp only [Int.bmod_def]
    split <;> omega
  induction ns with
  | nil => simp
  | cons n ns ih =>
    have hn := hone n
    simp only [List.map_cons, List.sum_cons, List.forall_mem_cons, Nat.cast_add]
    refine ⟨by omega, ?_⟩
    rw [← ih.2, ← hn.2]
    constructor
    · intro heq
      constructor <;> omega
    · rintro ⟨h₁, h₂⟩
      omega

theorem sum_flatMap_sizes (traces : List Nat) (f : Nat → List Nat) (g : Nat → BitVec 32) :
    ((traces.flatMap f).map g).sum = (traces.map fun t => ((f t).map g).sum).sum := by
  induction traces with
  | nil => rfl
  | cons t traces ih =>
    rw [List.flatMap_cons, List.map_append, List.sum_append, List.map_cons, List.sum_cons, ih]

/-- When the compressed log is complete: every call has a backtrace, the
lines fit their buffers, the sort of the backtraces ends, no counter
overflows, and the comments are formats without arguments. -/
structure CompressedComplete (rd : Rd w) (opts : WriterOptions) (clock : Nat → BitVec 32) : Prop where
  traced : ∀ c ∈ rd.calls, HasTrace rd c
  writable : Writable rd opts clock
  counts : ∀ t, rd.StoredTrace t → (traceCalls rd t).length < 2 ^ 31
  comments : ∀ c ∈ visibleComments w rd.comments, ∃ text, printFormat c.text = some text

/-- A call that is written has a backtrace. -/
theorem PrintsAll.traced {rd : Rd w} {pieces : List Piece} (h : PrintsAll rd pieces) :
    ∀ c ∈ rd.calls, HasTrace rd c := by
  intro c hc
  have hmem := h.calls.mem_iff.mpr hc
  rw [h.grouped, List.mem_flatMap] at hmem
  obtain ⟨g, hg, hcg⟩ := hmem
  exact ⟨g.2, h.own g hg c hcg⟩

theorem printsAll_iff {rd : Rd w} (h : Referenced rd) {traces : List Nat} {pieces : List Piece}
    (hnd : traces.Nodup) (hmem : ∀ t, t ∈ traces ↔ rd.StoredTrace t)
    (hgroups : pieceGroups [] pieces = traces.map fun t => (traceCalls rd t, t))
    (hwritten : writtenCalls pieces = traces.flatMap (traceCalls rd))
    (hsums : summaries pieces = traces.map
      fun t => ((traceTotals rd t).leakCount, (traceTotals rd t).leakSize)) :
    PrintsAll rd pieces ↔ (∀ c ∈ rd.calls, HasTrace rd c) ∧
      ∀ t, rd.StoredTrace t → (traceCalls rd t).length < 2 ^ 31 := by
  have hperm := traceCalls_perm h hnd hmem
  have hcounts : ((summaries pieces).map fun s => s.1.toInt).sum
      = ((traces.map fun t => (traceCalls rd t).length).map
          fun n => (BitVec.ofNat 32 n).toInt).sum := by
    rw [hsums, List.map_map, List.map_map]
    rfl
  have hfits : (∀ n ∈ traces.map fun t => (traceCalls rd t).length, n < 2 ^ 31) ↔
      ∀ t, rd.StoredTrace t → (traceCalls rd t).length < 2 ^ 31 := by
    simp only [List.forall_mem_map, hmem]
  constructor
  · intro hall
    refine ⟨hall.traced, ?_⟩
    have hlen : (traces.map fun t => (traceCalls rd t).length).sum = rd.calls.length := by
      rw [← List.length_flatMap, ← hwritten, hall.calls.length_eq]
    rw [← hfits, ← (sum_toInt_ofNat _).2, hlen, ← hcounts, hall.counts]
  · rintro ⟨htraced, hlt⟩
    have hfilter : (rd.calls.filter fun c => ((rd.fcall c).bind Fcall.trace).isSome) = rd.calls :=
      List.filter_eq_self.mpr fun c hc => Option.isSome_iff_exists.mpr (htraced c hc)
    rw [hfilter] at hperm
    refine ⟨by rw [hwritten]; exact hperm, ?_, ?_, ?_, ?_, ?_⟩
    · rw [hwritten, hgroups, List.flatMap_map]
    · intro g hg c hc
      rw [hgroups] at hg
      obtain ⟨t, ht, rfl⟩ := List.mem_map.mp hg
      exact ((mem_traceCalls h ((hmem t).mp ht)).mp hc).2
    · rw [hgroups, List.map_map, show Prod.snd ∘ (fun t => (traceCalls rd t, t)) = id from rfl,
        List.map_id]
      exact hnd
    · rw [hcounts, (sum_toInt_ofNat _).2.mpr (hfits.mpr hlt), ← List.length_flatMap,
        hperm.length_eq]
    · rw [hsums, List.map_map, ← (hperm.map (callSize rd)).sum_eq, sum_flatMap_sizes]
      rfl

/-! ### The order of the backtraces -/

def LeaksCompare.key : LeaksCompare → FtraceRef → Int
  | .bySizeAsc, ref => ref.leakSize.toInt
  | .bySizeDesc, ref => -ref.leakSize.toInt
  | .byCountAsc, ref => ref.leakCount.toInt
  | .byCountDesc, ref => -ref.leakCount.toInt

/-- The differences of the totals are `int` values. -/
def TotalsComparable (rd : Rd w) (cmp : LeaksCompare) : Prop :=
  ∀ t u, rd.StoredTrace t → rd.StoredTrace u →
    cmp.key (traceTotals rd t) - cmp.key (traceTotals rd u) < 2 ^ 31

theorem LeaksCompare.compare_eq (cmp : LeaksCompare) {r s : FtraceRef}
    (h₁ : cmp.key r - cmp.key s < 2 ^ 31) (h₂ : cmp.key s - cmp.key r < 2 ^ 31) :
    cmp.compare r s = cmp.key r - cmp.key s := by
  cases cmp <;>
  · simp only [LeaksCompare.key, LeaksCompare.compare, BitVec.toInt_sub] at *
    simp only [Int.bmod_def]
    split <;> omega

/-- If no difference overflows, the sort ends. -/
theorem leaksSort_ends {rd : Rd w} (h : Referenced rd)
    {cmp : LeaksCompare} (hcmp : TotalsComparable rd cmp) : ∃ refs, leaksSort rd cmp = some refs := by
  rw [leaksSort_spec h]
  have hord : OrdersBy cmp.compare cmp.key ((htableNodes rd.ftraces).map (traceTotals rd)) := by
    intro r hr s hs
    obtain ⟨t, ht, rfl⟩ := List.mem_map.mp hr
    obtain ⟨u, hu, rfl⟩ := List.mem_map.mp hs
    have ht' := (h.nodes.2 t).mp ht
    have hu' := (h.nodes.2 u).mp hu
    rw [cmp.compare_eq (hcmp t u ht' hu') (hcmp u t hu' ht')]
    omega
  obtain ⟨refs, heq, -⟩ := dlistSort_sorts hord
  exact ⟨refs, heq⟩

/-- The only backtrace is that of the call. -/
theorem storedTrace_single {rd : Rd w} (h : Processed rd) {call trace : Nat}
    (hcalls : rd.calls = [call]) (htrace : (rd.fcall call).bind Fcall.trace = some trace)
    {t : Nat} (hst : rd.StoredTrace t) : t = trace ∧ traceCalls rd t = [call] := by
  obtain ⟨hint, hsize⟩ := h.consistent
  have hpos : 0 < rd.ftraces.size := by rw [hsize]; decide
  have href := Linked.referenced hint.toLinked hpos
  obtain ⟨c, hc⟩ := traceCalls_nonempty hint hpos hst
  obtain ⟨hmem, ht⟩ := (mem_traceCalls href hst).mp hc
  rw [hcalls, List.mem_singleton] at hmem
  subst hmem
  refine ⟨Option.some.inj (ht.symm.trans htrace), List.perm_singleton.mp ?_⟩
  rw [List.perm_ext_iff_of_nodup (nodup_traceCalls href hst) (by simp)]
  intro d
  rw [mem_traceCalls href hst, hcalls]
  constructor
  · exact fun h => h.1
  · intro h
    rw [List.mem_singleton] at h
    subst h
    exact ⟨by simp, ht⟩

theorem writable_single {rd : Rd w} (h : Processed rd) {opts : WriterOptions}
    {clock : Nat → BitVec 32} {call trace : Nat} (hcalls : rd.calls = [call])
    (htrace : (rd.fcall call).bind Fcall.trace = some trace)
    (hcall : (callBlock rd clock call).isSome) (hframes : (writeTrace rd trace).isSome) :
    Writable rd opts clock := by
  obtain ⟨hint, hsize⟩ := h.consistent
  have hpos : 0 < rd.ftraces.size := by rw [hsize]; decide
  have hcomparable : TotalsComparable rd opts.compareLeaks := by
    intro t u ht hu
    rw [(storedTrace_single h hcalls htrace ht).1, (storedTrace_single h hcalls htrace hu).1]
    omega
  refine ⟨fun c hc _ => ?_, fun t hst => ?_,
    fun _ => leaksSort_ends (Linked.referenced hint.toLinked hpos) hcomparable⟩
  · rw [hcalls, List.mem_singleton] at hc
    subst hc
    exact callBlock_total.mp (Option.isSome_iff_exists.mp hcall)
  · rw [(storedTrace_single h hcalls htrace hst).1]
    exact writeTrace_total.mp (Option.isSome_iff_exists.mp hframes)

/-! ### A stream with and without a backtrace packet -/

/-- The handshake of a 64-bit process behind the identification byte, and
the packet of the call `f(8) = 0x1000`. -/
def callStream : List UInt8 :=
  [6, 2, 0, 1, 120, 0, 8] ++
    [67, 65, 76, 76, 32, 0, 0, 0, 1, 0, 0, 0, 0, 0, 0, 0, 0, 0, 0, 0, 2, 0, 0, 0, 2, 0, 102, 0,
     8, 0, 0, 0, 0, 16, 0, 0, 0, 0, 0, 0]

/-- A backtrace packet with the frame 0x2000. -/
def backtracePacket : List UInt8 :=
  [66, 84, 82, 67, 12, 0, 0, 0, 1, 0, 0, 0, 0, 32, 0, 0, 0, 0, 0, 0]

/-- The store after a stream that comes with one `read()`. -/
def streamStore (stream : List UInt8) : Option (Rd 64) := do
  let (hs, c) ← readBinaryDataStart rdCreate (List.replicate (bufferSize * 2) 0) stream []
  some (← ((binaryLoop [] hs).run 3 c).state).rd

/-- A store of a parser with few enough calls is ready to be written. -/
theorem Parsed.processed {rd : Rd w} (h : Parsed rd) (hcalls : rd.calls.length ≤ 2 ^ 32) :
    Processed rd := ⟨rd, h, h.whole.1.toLinked.counted hcalls, .refl⟩

theorem streamStore_processed {stream : List UInt8} {rd : Rd 64}
    (h : streamStore stream = some rd) (hcalls : rd.calls.length ≤ 2 ^ 32) : Processed rd := by
  simp only [streamStore, Option.bind_eq_bind, Option.bind_eq_some_iff, Prod.exists,
    Option.some.injEq] at h
  obtain ⟨hs, c, hstart, st, hst, rfl⟩ := h
  exact Parsed.processed (.binary hstart (PacketLoop.reach_run _ 3 c) hst) hcalls

/-- By size, largest first. -/
def compressOptions : WriterOptions :=
  { compress := true, filterLeaks := false, compareLeaks := .bySizeDesc }

end SpRtrace.Postproc
