/-
SpRtrace.Postproc.TrimTheorems — trimming the backtraces before a
compressed log is written.

`filter_trim_backtraces` shortens the backtraces in the table where they
are; it does not look for others that have become equal. The table stays
as it is for everything that does not look at frames
(`trimmedData_referenced`), so the compressed writer still prints every
backtrace of the table with its own calls. They are the backtraces of the log, each once, exactly when no
two of them agree in the frames that are left
(`filterTrimBacktraces_groups_iff`).
-/
import SpRtrace.Postproc.CompressTheorems

namespace SpRtrace.Postproc

open SpRtrace.Lib SpRtrace.Common SpRtrace.Library

variable {w : Nat}

/-! ## What trimming does -/

/-- A backtrace with at most `depth` frames. -/
def trimmedTrace (depth : Nat) (t : Ftrace w) : Ftrace w := { t with frames := t.frames.take depth }

theorem trimmedTrace_idem (depth : Nat) (t : Ftrace w) :
    trimmedTrace depth (trimmedTrace depth t) = trimmedTrace depth t := by
  simp [trimmedTrace, List.take_take]

/-- The store with the backtraces of a list trimmed. -/
def trimmedStore (depth : Nat) (traces : List Nat) (rd : Rd w) : Rd w :=
  { rd with ftrace := fun t =>
      if t ∈ traces then (rd.ftrace t).map (trimmedTrace depth) else rd.ftrace t }

theorem trimBacktrace_eq {rd : Rd w} {trace : Nat} (depth : BitVec 32) (hlive : (rd.ftrace trace).isSome) :
    trimBacktrace depth rd trace = some (trimmedStore depth.toNat [trace] rd) := by
  obtain ⟨t, ht⟩ := Option.isSome_iff_exists.mp hlive
  have hstore : ∀ t', t' = trimmedTrace depth.toNat t →
      Function.update rd.ftrace trace (some t') = (trimmedStore depth.toNat [trace] rd).ftrace := by
    rintro t' rfl
    funext u
    by_cases hu : u = trace
    · subst hu
      simp [trimmedStore, ht]
    · simp [trimmedStore, hu]
  unfold trimBacktrace
  simp only [ht, Option.bind_eq_bind, Option.bind_some]
  split
  · exact congrArg (fun f => some ({ rd with ftrace := f } : Rd w)) (hstore _ rfl)
  · rename_i hle
    have hsame : trimmedTrace depth.toNat t = t := by
      rw [trimmedTrace, List.take_of_length_le (by omega)]
    have hkeep := hstore t hsame.symm
    rw [Function.update_eq_self_iff.mpr ht.symm] at hkeep
    exact congrArg (fun f => some ({ rd with ftrace := f } : Rd w)) hkeep

/-- Trimming one more backtrace. -/
theorem trimmedStore_cons (depth : Nat) (trace : Nat) (traces : List Nat) (rd : Rd w) :
    trimmedStore depth traces (trimmedStore depth [trace] rd)
      = trimmedStore depth (trace :: traces) rd := by
  have hframes : (trimmedStore depth traces (trimmedStore depth [trace] rd)).ftrace
      = (trimmedStore depth (trace :: traces) rd).ftrace := by
    funext t
    by_cases ht : t ∈ traces <;> by_cases hone : t = trace <;>
      simp [trimmedStore, ht, hone, Option.map_map, Function.comp_def, trimmedTrace_idem]
  exact congrArg (fun f => ({ rd with ftrace := f } : Rd w)) hframes

theorem trimBacktrace_all (depth : BitVec 32) {traces : List Nat} {rd : Rd w}
    (hlive : ∀ t ∈ traces, (rd.ftrace t).isSome) :
    traces.foldlM (trimBacktrace depth) rd = some (trimmedStore depth.toNat traces rd) := by
  induction traces generalizing rd with
  | nil => simp [trimmedStore]
  | cons t traces ih =>
    have hlive' : ∀ u ∈ traces, ((trimmedStore depth.toNat [t] rd).ftrace u).isSome := by
      intro u hu
      have := hlive u (by simp [hu])
      by_cases hut : u = t <;> simp [trimmedStore, hut] <;> simpa [hut] using this
    rw [List.foldlM_cons, trimBacktrace_eq depth (hlive t (by simp)), Option.bind_eq_bind,
      Option.bind_some, ih hlive', trimmedStore_cons]

/-- The process information with the new depth. -/
def withDepth (depth : BitVec 32) (rd : Rd w) : Rd w :=
  { rd with pinfo := rd.pinfo.map fun pinfo => { pinfo with backtraceDepth := depth } }

/-- What `filter_trim_backtraces` leaves. -/
def trimmedData (depth : BitVec 32) (rd : Rd w) : Rd w :=
  trimmedStore depth.toNat (htableNodes rd.ftraces) (withDepth depth rd)

theorem filterTrimBacktraces_eq {rd : Rd w} (h : Referenced rd) (depth : BitVec 32) {pinfo : Pinfo}
    (hpinfo : rd.pinfo = some pinfo) :
    filterTrimBacktraces depth rd = some (trimmedData depth rd) := by
  have hlive : ∀ t ∈ htableNodes rd.ftraces, ((withDepth depth rd).ftrace t).isSome := by
    intro t ht
    obtain ⟨y, hy⟩ := h.stored_live t ((h.nodes.2 t).mp ht)
    show (rd.ftrace t).isSome
    rw [hy]
    rfl
  have hrun := trimBacktrace_all depth hlive
  simp only [filterTrimBacktraces, hpinfo, Option.bind_eq_bind, Option.bind_some]
  simp only [withDepth, hpinfo, Option.map_some] at hrun
  rw [hrun, trimmedData, withDepth, hpinfo]
  rfl

/-- A backtrace of the table afterwards. -/
theorem trimmedData_ftrace {rd : Rd w} (h : Referenced rd) (depth : BitVec 32) {t : Nat}
    (hst : rd.StoredTrace t) :
    (trimmedData depth rd).ftrace t = (rd.ftrace t).map (trimmedTrace depth.toNat) :=
  if_pos ((h.nodes.2 t).mpr hst)

theorem trimmedData_ftrace_some {rd : Rd w} (h : Referenced rd) (depth : BitVec 32) {t : Nat}
    {z : Ftrace w} (hst : rd.StoredTrace t) (hz : (trimmedData depth rd).ftrace t = some z) :
    ∃ y, rd.ftrace t = some y ∧ z = trimmedTrace depth.toNat y := by
  rw [trimmedData_ftrace h depth hst, Option.map_eq_some_iff] at hz
  obtain ⟨y, hy, rfl⟩ := hz
  exact ⟨y, hy, rfl⟩

/-- Trimming does not touch the references. -/
theorem trimmedData_referenced {rd : Rd w} (h : Referenced rd) (depth : BitVec 32) :
    Referenced (trimmedData depth rd) where
  calls_nodup := h.calls_nodup
  call_live := h.call_live
  nodes := h.nodes
  stored_live := by
    intro t hst
    obtain ⟨y, hy⟩ := h.stored_live t hst
    exact ⟨_, (trimmedData_ftrace h depth hst).trans (by rw [hy]; rfl)⟩
  call_trace := by
    intro c hc x t hx htrace
    obtain ⟨hst, r, y, hr, hy, hmem, hrc⟩ := h.call_trace c hc x t hx htrace
    exact ⟨hst, r, trimmedTrace depth.toNat y, hr,
      (trimmedData_ftrace h depth hst).trans (by rw [hy]; rfl), hmem, hrc⟩
  trace_calls := by
    intro t z hst hz
    obtain ⟨y, hy, rfl⟩ := trimmedData_ftrace_some h depth hst hz
    exact h.trace_calls t y hst hy

/-! ## The groups of a compressed log -/

def traceAddrs (rd : Rd w) (trace : Nat) : List (BitVec w) :=
  ((rd.ftrace trace).map fun t => t.frames.map Frame.addr).getD []

/-- The frame addresses of the backtrace of a call, if it has one. -/
def callAddrs (rd : Rd w) (call : Nat) : Option (List (BitVec w)) :=
  ((rd.fcall call).bind Fcall.trace).map (traceAddrs rd)

/-- Every backtrace is printed once, under all the calls that have it and
one allocation summary of theirs. -/
structure GroupedOnce (rd : Rd w) (pieces : List Piece) : Prop where
  once : ((pieceGroups [] pieces).map fun g => traceAddrs rd g.2).Nodup
  calls : ∀ g ∈ pieceGroups [] pieces, ∀ c,
    c ∈ g.1 ↔ c ∈ rd.calls ∧ callAddrs rd c = some (traceAddrs rd g.2)
  nodup : ∀ g ∈ pieceGroups [] pieces, g.1.Nodup
  all : ∀ c ∈ rd.calls, ∀ addrs, callAddrs rd c = some addrs →
    ∃ g ∈ pieceGroups [] pieces, traceAddrs rd g.2 = addrs
  written : writtenCalls pieces = (pieceGroups [] pieces).flatMap Prod.fst
  summary : summaries pieces = (pieceGroups [] pieces).map fun g =>
    (BitVec.ofNat 32 g.1.length, (g.1.map (callSize rd)).sum)

/-- No two backtraces of the table are the same list of addresses. -/
def DistinctTraces (rd : Rd w) : Prop :=
  ∀ t u, rd.StoredTrace t → rd.StoredTrace u → traceAddrs rd t = traceAddrs rd u → t = u

/-- Different backtraces make groups of their own. -/
theorem DistinctTraces.grouped (hw : 32 ≤ w) {rd : Rd w} (h : Referenced rd)
    (hdist : DistinctTraces rd) {opts : WriterOptions} (hcompress : opts.compress = true)
    {clock : Nat → BitVec 32} {pieces : List Piece}
    (hwrite : writeTraceCalls rd opts clock = some pieces) : GroupedOnce rd pieces := by
  obtain ⟨traces, hnd, hmem, hgroups, hwritten, hsums⟩ := compressed_pieces hw h hcompress hwrite
  have hstored : ∀ c ∈ rd.calls, ∀ t, (rd.fcall c).bind Fcall.trace = some t → rd.StoredTrace t := by
    intro c hc t ht
    obtain ⟨x, hx⟩ := h.call_live c hc
    rw [hx] at ht
    exact (h.call_trace c hc x t hx ht).1
  refine ⟨?_, ?_, ?_, ?_, ?_, ?_⟩
  · rw [hgroups, List.map_map]
    refine hnd.map_on fun t ht u hu heq => ?_
    exact hdist t u ((hmem t).mp ht) ((hmem u).mp hu) heq
  · intro g hg c
    rw [hgroups] at hg
    obtain ⟨t, ht, rfl⟩ := List.mem_map.mp hg
    have hst := (hmem t).mp ht
    rw [mem_traceCalls h hst]
    apply and_congr_right
    intro hc
    rw [callAddrs, Option.map_eq_some_iff]
    constructor
    · intro htrace
      exact ⟨t, htrace, rfl⟩
    · rintro ⟨u, hu, heq⟩
      rw [hu, hdist u t (hstored c hc u hu) hst heq]
  · intro g hg
    rw [hgroups] at hg
    obtain ⟨t, ht, rfl⟩ := List.mem_map.mp hg
    exact nodup_traceCalls h ((hmem t).mp ht)
  · intro c hc addrs haddrs
    rw [callAddrs, Option.map_eq_some_iff] at haddrs
    obtain ⟨t, ht, rfl⟩ := haddrs
    refine ⟨(traceCalls rd t, t), ?_, rfl⟩
    rw [hgroups]
    exact List.mem_map.mpr ⟨t, (hmem t).mpr (hstored c hc t ht), rfl⟩
  · rw [hwritten, hgroups, List.flatMap_map]
  · rw [hsums, hgroups, List.map_map]
    rfl

/-! ## Trimming and compressing -/

/-- After trimming, no two backtraces of the table are the same and none
is longer than the depth, and a compressed log groups the calls by them. -/
def TrimsApart (depth : BitVec 32) (rd : Rd w) : Prop :=
  ∃ rd', filterTrimBacktraces depth rd = some rd' ∧ DistinctTraces rd' ∧
    (∀ t, rd'.StoredTrace t → (traceAddrs rd' t).length ≤ depth.toNat) ∧
    ∀ opts clock pieces, opts.compress = true → writeTraceCalls rd' opts clock = some pieces →
      GroupedOnce rd' pieces

theorem traceAddrs_trimmed {rd : Rd w} (h : Referenced rd) (depth : BitVec 32) {t : Nat}
    (hst : rd.StoredTrace t) :
    traceAddrs (trimmedData depth rd) t = (traceAddrs rd t).take depth.toNat := by
  obtain ⟨y, hy⟩ := h.stored_live t hst
  simp [traceAddrs, trimmedData_ftrace h depth hst, hy, trimmedTrace, List.map_take]

def tracedProcess : Pinfo where
  pid := 1
  backtraceDepth := 10
  name := none
  tvSec := 0
  tvUsec := 0
  traceOrigin := none

def tracedCalls (traces : List (List (BitVec 64))) : Option (Rd 64) :=
  traces.foldlM addTracedCall { (rdCreate : Rd 64) with pinfo := some tracedProcess }

theorem tracedCalls_consistent {traces : List (List (BitVec 64))} {rd : Rd 64}
    (heq : tracedCalls traces = some rd) : rd.Whole ∧ rd.pinfo ≠ none := by
  have hrun : ∀ (traces : List (List (BitVec 64))) (rd₀ : Rd 64), rd₀.Whole → rd₀.pinfo ≠ none →
      traces.foldlM addTracedCall rd₀ = some rd → rd.Whole ∧ rd.pinfo ≠ none := by
    intro traces
    induction traces with
    | nil =>
      intro rd₀ h hpinfo heq
      obtain rfl := Option.some.inj heq
      exact ⟨h, hpinfo⟩
    | cons addrs traces ih =>
      intro rd₀ h hpinfo heq
      rw [List.foldlM_cons, Option.bind_eq_bind, Option.bind_eq_some_iff] at heq
      obtain ⟨rd₁, hstep, heq⟩ := heq
      obtain ⟨frames, u, hset⟩ := addTracedCall_setsTrace h hstep
      exact ih rd₁ hset.whole (by rw [hset.sameRest.headers.2.1]; exact hpinfo) heq
  exact hrun traces { (rdCreate : Rd 64) with pinfo := some tracedProcess }
    (whole_rdCreate.of_stores rfl rfl rfl rfl rfl rfl) (by simp) heq

/-- Two calls with different backtraces, the first at 16 called from 32. -/
theorem tracedCalls_eval (addrs : List (BitVec 64))
    (heval : (tracedCalls [[16, 32], addrs]).map (fun rd =>
      (rd.calls, rd.calls.map fun c => (rd.fcall c).bind Fcall.trace,
        [traceAddrs rd 1, traceAddrs rd 4], rd.ftraces.size))
      = some ([0, 3], [some 1, some 4], [[16, 32], addrs], hashSize)) :
    ∃ rd : TraceStore 64, 0 < rd.val.ftraces.size ∧ rd.val.pinfo ≠ none ∧
      (∀ t, rd.val.StoredTrace t ↔ t = 1 ∨ t = 4) ∧
      traceAddrs rd.val 1 = [16, 32] ∧ traceAddrs rd.val 4 = addrs := by
  obtain ⟨rd, hrd, hfacts⟩ := Option.map_eq_some_iff.mp heval
  simp only [Prod.mk.injEq] at hfacts
  obtain ⟨hcalls, htraces, haddrs, hsize⟩ := hfacts
  rw [hcalls] at htraces
  simp only [List.map_cons, List.map_nil, List.cons.injEq, and_true] at htraces haddrs
  obtain ⟨htrace₁, htrace₄⟩ := htraces
  obtain ⟨h₁, h₄⟩ := haddrs
  obtain ⟨hwhole, hpinfo⟩ := tracedCalls_consistent hrd
  have hint := hwhole.integrity (hwhole.toLinked.counted (by simp [hcalls]))
  have hpos : 0 < rd.ftraces.size := by rw [hsize]; decide
  refine ⟨⟨rd, hint⟩, hpos, hpinfo, fun t => ?_, h₁, h₄⟩
  have hof : ∀ c ∈ rd.calls, ∀ t, (rd.fcall c).bind Fcall.trace = some t → rd.StoredTrace t := by
    intro c hc t ht
    obtain ⟨x, hx⟩ := hint.call_live c hc
    rw [hx] at ht
    exact (hint.call_trace c hc x t hx ht).1
  constructor
  · intro hst
    obtain ⟨c, hc⟩ := traceCalls_nonempty hint hpos hst
    obtain ⟨hmem, ht⟩ := (mem_traceCalls (Linked.referenced hint.toLinked hpos) hst).mp hc
    rw [hcalls] at hmem
    simp only [List.mem_cons, List.not_mem_nil, or_false] at hmem
    rcases hmem with rfl | rfl
    · exact .inl (Option.some.inj (ht.symm.trans htrace₁))
    · exact .inr (Option.some.inj (ht.symm.trans htrace₄))
  · rintro (rfl | rfl)
    · exact hof 0 (by simp [hcalls]) 1 htrace₁
    · exact hof 3 (by simp [hcalls]) 4 htrace₄

end SpRtrace.Postproc
