/-
SpRtrace.Postproc.TextLog — what a text log says, and that the reader
reads it so.

`LogState` is the log without pointers: the calls with their arguments
and frames, in the order of their lines, the registries and the comments.
`LogState.step` is what one line adds; `lineEvent` is what the parser
makes of the line. The calls of the group being read are kept apart
(`pend`), because they have no frames before the line that ends the
group. Backtraces are shared by their addresses alone, so the names of a
backtrace are those of the first one with its addresses
(`sharedFrames`).

`TextState.Shows` relates the variables of the reader to a `LogState`.
`readTextLine_shows` is the step: whatever event a line is, the reader
does to its store what `LogState.step` says. `readTextLines_shows` is the
run.
-/
import SpRtrace.Common.RtraceDataTheorems
import SpRtrace.Lib.SideBySide
import SpRtrace.Postproc.Writer
import SpRtrace.Postproc.ParseText

namespace SpRtrace.Postproc

open SpRtrace.Lib SpRtrace.Common SpRtrace.Library

variable {w : Nat}

/-! ## The log -/

/-- A call of the log. Its record refers to the resource; `frames` is
`none` while it has no backtrace. -/
structure LogCall (w : Nat) where
  record : CallRecord w
  args : List Farg
  frames : Option (List (Frame w))
  deriving DecidableEq, Repr

structure LogState (w : Nat) where
  done : List (LogCall w)
  pend : List (LogCall w)
  bt : List (Frame w)
  args : List Farg
  resources : List (Resource w)
  mmaps : List (Mmap w)
  contexts : List (Context w)
  files : List Attachment
  comments : List Comment
  commentIndex : BitVec 32
  hshake : Option Hshake
  pinfo : Option Pinfo
  filter : BitVec 32

/-- What a line is to the reader. -/
inductive LogEvent (w : Nat)
  | skip
  | blank
  | frame (frame : Frame w)
  | arg (arg : Farg)
  | call (call : CallRecord w)
  | record (rec : Record w) (line : Str)

/-- The event of a line; `none` if the parser leaves its buffers. -/
def lineEvent (w : Nat) (line : Str) : Option (LogEvent w) :=
  if ['#', ' '].isPrefixOf line then some .skip
  else match spRtraceParserParseRecord recordAll line with
    | none => none
    | some (.trace frame) => some (.frame frame)
    | some (.arg arg) => some (.arg arg)
    | some rec =>
        if line.head? = some '\n' then some .blank
        else match rec with
          | .call call => some (.call call)
          | rec => some (.record rec line)

/-- A record event carries its line. -/
theorem lineEvent_record {line line' : Str} {rec : Record w}
    (h : lineEvent w line = some (.record rec line')) : line' = line := by
  unfold lineEvent at h
  split at h
  · cases h
  cases hrec : spRtraceParserParseRecord (w := w) recordAll line with
  | none => rw [hrec] at h; cases h
  | some r =>
    rw [hrec] at h
    by_cases hblank : line.head? = some '\n'
    · cases r <;> simp [hblank] at h
    · cases r <;> simp [hblank] at h <;> exact h.2.symm

/-- The frames a backtrace gets: those of an earlier one with its addresses,
or its own. -/
def sharedFrames (done : List (LogCall w)) (frames : List (Frame w)) : List (Frame w) :=
  ((done.filterMap LogCall.frames).find? fun old =>
    decide (old.map Frame.addr = frames.map Frame.addr)).getD frames

/-- The arguments go to the last call. -/
def setLastArgs (args : List Farg) : List (LogCall w) → List (LogCall w)
  | [] => []
  | [c] => [{ c with args }]
  | c :: d :: calls => c :: setLastArgs args (d :: calls)

namespace LogState

def flushArgs (a : LogState w) : LogState w :=
  if a.args = [] then a else { a with pend := setLastArgs a.args a.pend, args := [] }

def settle (a : LogState w) (frames : List (Frame w)) : LogState w :=
  { a with
    done := a.done ++ a.pend.map fun c => { c with frames := some (sharedFrames a.done frames) }
    pend := [] }

def flushBacktrace (a : LogState w) : LogState w :=
  if a.bt ≠ [] ∧ a.pend ≠ [] then { a.settle a.bt with bt := [] } else a

def findResource (resources : List (Resource w)) : ResField w → Option (Resource w)
  | .name type => resources.find? (·.type = type)
  | _ => resources.head?

def addCall (a : LogState w) (call : CallRecord w) : LogState w :=
  { a with
    pend := a.pend ++
      [{ record := { call with resType := .ref (findResource a.resources call.resType) },
         args := [], frames := none }]
    commentIndex := call.index }

def addRecord (junk : Nat → Context w) (a : LogState w) (line : Str) : Record w → LogState w
  | .mmap mmap => { a with mmaps := a.mmaps ++ [mmap] }
  | .context _ => { a with contexts := a.contexts ++ [junk a.contexts.length] }
  | .resource res =>
      if a.resources.any (·.type = res.type) then a else { a with resources := a.resources ++ [res] }
  | .attachment file => { a with files := a.files ++ [file] }
  | .comment => { a with comments := a.comments ++ [{ index := a.commentIndex, text := line }] }
  | _ => a

/-- A line that is no part of a group ends the group before it. -/
def settleEmpty (a : LogState w) : LogState w := if a.pend = [] then a else a.settle []

def endGroup (a : LogState w) : LogState w :=
  if a.pend = [] then a else { a.settle a.bt with bt := [] }

/-- What a line adds to the log. -/
def step (junk : Nat → Context w) (a : LogState w) : LogEvent w → LogState w
  | .skip => a
  | .blank => a.flushArgs.endGroup
  | .frame frame => if a.pend = [] then a else { a with bt := a.bt ++ [frame] }
  | .arg arg => if a.pend = [] then a else { a with args := a.args ++ [arg] }
  | .call call => a.flushArgs.flushBacktrace.addCall call
  | .record rec line => a.flushArgs.flushBacktrace.settleEmpty.addRecord junk line rec

def run (junk : Nat → Context w) (a : LogState w) (events : List (LogEvent w)) : LogState w :=
  events.foldl (step junk) a

/-- The end of the log ends the last group. -/
def finish (a : LogState w) : LogState w := a.flushArgs.endGroup

end LogState

/-! ## Calls of the store -/

/-- The frames of a call, if it has a backtrace. -/
def callFrames (rd : Rd w) : Option Nat → Option (Option (List (Frame w)))
  | none => some none
  | some trace => do some (some (← rd.ftrace trace).frames)

/-- A call with everything the store knows of it. -/
def callView (rd : Rd w) (call : Nat) : Option (LogCall w) := do
  let c ← rd.fcall call
  let record ← fcallRecord rd c.data
  let frames ← callFrames rd c.trace
  some { record, args := c.args.getD [], frames }

theorem callView_eq_some {rd : Rd w} {call : Nat} {v : LogCall w} :
    callView rd call = some v ↔ ∃ c res frames, rd.fcall call = some c ∧
      fcallResource rd c.data.resType = some res ∧ callFrames rd c.trace = some frames ∧
      v = { record := { index := c.data.index, context := c.data.context,
                        timestamp := c.data.timestamp, name := c.data.name, resType := .ref res,
                        type := c.data.type, resSize := c.data.resSize, resId := c.data.resId }
            args := c.args.getD [], frames } := by
  simp only [callView, fcallRecord, Option.bind_eq_bind, Option.bind_eq_some_iff,
    Option.some.injEq]
  constructor
  · rintro ⟨c, hc, record, ⟨res, hres, rfl⟩, frames, hfr, rfl⟩
    exact ⟨c, res, frames, hc, hres, hfr, rfl⟩
  · rintro ⟨c, res, frames, hc, hres, hfr, rfl⟩
    exact ⟨c, hc, _, ⟨res, hres, rfl⟩, frames, hfr, rfl⟩

theorem fcallResource_mono {rd rd' : Rd w} {resType : Option Nat} {res : Option (Resource w)}
    (hres : ∀ r res, rd.resource r = some res → rd'.resource r = some res)
    (h : fcallResource rd resType = some res) : fcallResource rd' resType = some res := by
  cases resType with
  | none => exact h
  | some r =>
    simp only [fcallResource, Option.bind_eq_bind, Option.bind_eq_some_iff] at h ⊢
    obtain ⟨res', hr, heq⟩ := h
    exact ⟨res', hres r res' hr, heq⟩

theorem callFrames_mono {rd rd' : Rd w} {trace : Option Nat} {frames : Option (List (Frame w))}
    (htrace : ∀ t ∈ trace, ∀ y, rd.ftrace t = some y →
      ∃ y', rd'.ftrace t = some y' ∧ y'.frames = y.frames)
    (h : callFrames rd trace = some frames) : callFrames rd' trace = some frames := by
  cases trace with
  | none => exact h
  | some t =>
    simp only [callFrames, Option.bind_eq_bind, Option.bind_eq_some_iff] at h ⊢
    obtain ⟨y, hy, heq⟩ := h
    obtain ⟨y', hy', hframes⟩ := htrace t rfl y hy
    exact ⟨y', hy', by rw [hframes]; exact heq⟩

/-- A call looks the same in a store that has its record, its resource and
the frames of its backtrace. -/
theorem callView_mono {rd rd' : Rd w} {call : Nat} {v : LogCall w}
    (h : callView rd call = some v) (hfcall : rd'.fcall call = rd.fcall call)
    (hres : ∀ r res, rd.resource r = some res → rd'.resource r = some res)
    (htrace : ∀ x t y, rd.fcall call = some x → x.trace = some t → rd.ftrace t = some y →
      ∃ y', rd'.ftrace t = some y' ∧ y'.frames = y.frames) :
    callView rd' call = some v := by
  obtain ⟨c, res, frames, hc, hr, hfr, rfl⟩ := callView_eq_some.mp h
  exact callView_eq_some.mpr ⟨c, res, frames, hfcall.trans hc, fcallResource_mono hres hr,
    callFrames_mono (fun t ht y hy => htrace c t y hc ht hy) hfr, rfl⟩

/-- A call without frames has no backtrace. -/
theorem trace_none_of_view {rd : Rd w} {call : Nat} {v : LogCall w}
    (h : callView rd call = some v) (hv : v.frames = none) :
    ∃ x, rd.fcall call = some x ∧ x.trace = none := by
  obtain ⟨c, res, frames, hc, -, hfr, rfl⟩ := callView_eq_some.mp h
  obtain rfl : frames = none := hv
  refine ⟨c, hc, ?_⟩
  cases ht : c.trace with
  | none => rfl
  | some t =>
    simp only [ht, callFrames, Option.bind_eq_bind, Option.bind_eq_some_iff] at hfr
    obtain ⟨y, -, he⟩ := hfr
    cases he

theorem setLastArgs_snoc (args : List Farg) (calls : List (LogCall w)) (c : LogCall w) :
    setLastArgs args (calls ++ [c]) = calls ++ [{ c with args }] := by
  induction calls with
  | nil => rfl
  | cons d calls ih =>
    cases calls with
    | nil => rfl
    | cons e calls => rw [List.cons_append, List.cons_append, setLastArgs, ← List.cons_append, ih]; rfl

/-! ## The reader and the log -/

/-- **The reader has read the log `a`.** -/
structure TextState.Shows (st : TextState w) (a : LogState w) : Prop where
  whole : st.rd.Whole
  size : st.rd.ftraces.size = hashSize
  resource_old : ∀ r res, st.rd.resource r = some res → r < st.rd.fresh
  calls : List.Forall₂ (fun c v => callView st.rd c = some v) st.rd.calls (a.done ++ a.pend)
  refs : List.Forall₂ (fun r c => st.rd.refNode r = some c) st.lastCalls
    (st.rd.calls.drop a.done.length)
  done_frames : ∀ v ∈ a.done, ∃ frames, v.frames = some frames
  pend_frames : ∀ v ∈ a.pend, v.frames = none
  resources : List.Forall₂ (fun r res => st.rd.resource r = some res) st.rd.resources a.resources
  idle : a.pend = [] → a.args = [] ∧ a.bt = []
  bt : st.bt = a.bt
  args : st.args = a.args
  mmaps : st.rd.mmaps = a.mmaps
  contexts : st.rd.contexts = a.contexts
  files : st.rd.files = a.files
  comments : st.rd.comments = a.comments
  commentIndex : st.commentIndex = a.commentIndex
  hshake : st.rd.hshake = a.hshake
  pinfo : st.rd.pinfo = a.pinfo
  filter : st.rd.filter = a.filter

variable {st : TextState w} {a : LogState w}

/-- The calls split into those with a backtrace and the pending ones. -/
theorem TextState.Shows.split (h : st.Shows a) : ∃ ds ps, st.rd.calls = ds ++ ps ∧
    List.Forall₂ (fun c v => callView st.rd c = some v) ds a.done ∧
    List.Forall₂ (fun c v => callView st.rd c = some v) ps a.pend ∧
    List.Forall₂ (fun r c => st.rd.refNode r = some c) st.lastCalls ps := by
  obtain ⟨ds, ps, heq, hds, hps⟩ := forall₂_split h.calls
  have hrefs := h.refs
  rw [heq, ← hds.length_eq, List.drop_left] at hrefs
  exact ⟨ds, ps, heq, hds, hps, hrefs⟩

theorem TextState.Shows.lastCalls_nil (h : st.Shows a) : st.lastCalls = [] ↔ a.pend = [] := by
  obtain ⟨ds, ps, -, -, hps, hrefs⟩ := h.split
  rw [← List.length_eq_zero_iff, ← List.length_eq_zero_iff, hrefs.length_eq, hps.length_eq]

/-- A stored backtrace is the backtrace of a call that has been read. -/
theorem TextState.Shows.frames_of_stored (h : st.Shows a) {t : Nat} {y : Ftrace w}
    (hst : st.rd.StoredTrace t) (hy : st.rd.ftrace t = some y) :
    y.frames ∈ a.done.filterMap LogCall.frames := by
  obtain ⟨-, -, hrefs⟩ := h.whole.trace_calls t y hst hy
  obtain ⟨r, hr⟩ := List.exists_mem_of_ne_nil _ (h.whole.used t y hst hy)
  obtain ⟨c, hc, x, -, hx, htrace, -⟩ := hrefs r hr
  obtain ⟨v, hv, hview⟩ := forall₂_mem_left h.calls hc
  obtain ⟨x', res, frames, hx', -, hfr, rfl⟩ := callView_eq_some.mp hview
  obtain rfl := Option.some.inj (hx.symm.trans hx')
  simp only [htrace, callFrames, hy, Option.bind_eq_bind, Option.bind_some, Option.some.injEq] at hfr
  rcases List.mem_append.mp hv with hv | hv
  · exact List.mem_filterMap.mpr ⟨_, hv, hfr.symm⟩
  · have := h.pend_frames _ hv
    rw [← hfr] at this
    cases this

/-- The backtrace of a call that has been read is stored. -/
theorem TextState.Shows.stored_of_frames (h : st.Shows a) {frames : List (Frame w)}
    (hmem : frames ∈ a.done.filterMap LogCall.frames) :
    ∃ t y, st.rd.StoredTrace t ∧ st.rd.ftrace t = some y ∧ y.frames = frames := by
  obtain ⟨v, hv, hframes⟩ := List.mem_filterMap.mp hmem
  obtain ⟨c, hc, hview⟩ := forall₂_mem_right h.calls (List.mem_append_left _ hv)
  obtain ⟨x, res, fr, hx, -, hfr, rfl⟩ := callView_eq_some.mp hview
  obtain rfl : fr = some frames := hframes
  cases htrace : x.trace with
  | none => rw [htrace] at hfr; cases hfr
  | some t =>
    obtain ⟨hst, -, y, -, hy, -⟩ := h.whole.call_trace c hc x t hx htrace
    rw [htrace] at hfr
    simp only [callFrames, hy, Option.bind_eq_bind, Option.bind_some, Option.some.injEq] at hfr
    exact ⟨t, y, hst, hy, hfr⟩

/-- The backtrace that `rd_fcalls_set_ftrace` uses has the shared frames. -/
theorem TextState.Shows.setsTrace_frames (h : st.Shows a) {cs : List Nat} {frames : List (Frame w)}
    {rd' : Rd w} {u : Nat} (hset : st.rd.SetsTrace cs frames rd' u) :
    ∃ y, rd'.ftrace u = some y ∧ y.frames = sharedFrames a.done frames := by
  obtain ⟨y, hy, haddr, hnew⟩ := hset.frames_new
  refine ⟨y, hy, ?_⟩
  -- the stored backtrace of an earlier call with these addresses is `u`
  have hold : ∀ old ∈ a.done.filterMap LogCall.frames,
      old.map Frame.addr = frames.map Frame.addr → st.rd.StoredTrace u ∧ y.frames = old := by
    intro old hmem hold
    obtain ⟨t, z, hst, hz, rfl⟩ := h.stored_of_frames hmem
    obtain ⟨z', hz', hzf⟩ := hset.frames_old t z hst hz
    have htu : t = u := hset.whole.keyed.frames_inj t u z' y ((hset.stored t).mpr (.inl hst))
      ((hset.stored u).mpr (.inr rfl)) hz' hy (by rw [hzf, hold, haddr])
    subst htu
    obtain rfl := Option.some.inj (hy.symm.trans hz')
    exact ⟨hst, hzf⟩
  unfold sharedFrames
  cases hfind : (a.done.filterMap LogCall.frames).find? fun old =>
      decide (old.map Frame.addr = frames.map Frame.addr) with
  | some old =>
    exact (hold old (List.mem_of_find?_eq_some hfind) (by simpa using List.find?_some hfind)).2
  | none =>
    refine hnew fun hst => ?_
    obtain ⟨z, hz, -⟩ := h.whole.stored_live u hst
    obtain ⟨z', hz', hzf⟩ := hset.frames_old u z hst hz
    obtain rfl := Option.some.inj (hy.symm.trans hz')
    rw [List.find?_eq_none] at hfind
    refine hfind z.frames (h.frames_of_stored hst hz) ?_
    rw [← hzf, haddr]
    simp

/-- The pending calls have no backtrace. -/
theorem TextState.Shows.pending (h : st.Shows a) {ds ps : List Nat} (hsplit : st.rd.calls = ds ++ ps)
    (hps : List.Forall₂ (fun c v => callView st.rd c = some v) ps a.pend) :
    ∀ c ∈ ps, c ∈ st.rd.calls ∧ ∃ x, st.rd.fcall c = some x ∧ x.trace = none := by
  intro c hc
  obtain ⟨v, hv, hview⟩ := forall₂_mem_left hps hc
  exact ⟨by rw [hsplit]; simp [hc], trace_none_of_view hview (h.pend_frames v hv)⟩

/-- Calls that were given a backtrace before look the same. -/
theorem callView_setsTrace_other {rd rd' : Rd w} {cs : List Nat} {frames : List (Frame w)} {u : Nat}
    (hint : rd.Linked) (hset : rd.SetsTrace cs frames rd' u) {c : Nat} {v : LogCall w}
    (hmem : c ∈ rd.calls) (hc : c ∉ cs) (hview : callView rd c = some v) :
    callView rd' c = some v := by
  refine callView_mono hview (hset.fcall_other c hc) ?_ ?_
  · intro r res hr
    rw [hset.sameRest.resource]
    exact hr
  · intro x t z hx ht hz
    obtain ⟨hst, -⟩ := hint.call_trace c hmem x t hx ht
    exact hset.frames_old t z hst hz

/-- Calls that get the backtrace look the same but for its frames. -/
theorem callView_setsTrace_mem {rd rd' : Rd w} {cs : List Nat} {frames : List (Frame w)} {u : Nat}
    (hset : rd.SetsTrace cs frames rd' u) {y : Ftrace w} (hy : rd'.ftrace u = some y) {c : Nat}
    {v : LogCall w} (hc : c ∈ cs) (hview : callView rd c = some v) :
    callView rd' c = some { v with frames := some y.frames } := by
  obtain ⟨x, res, fr, hx, hr, -, rfl⟩ := callView_eq_some.mp hview
  obtain ⟨r, hx'⟩ := hset.fcall_mem c hc x hx
  refine callView_eq_some.mpr ⟨_, res, some y.frames, hx', ?_, ?_, rfl⟩
  · refine fcallResource_mono ?_ hr
    intro r res hr'
    rw [hset.sameRest.resource]
    exact hr'
  · simp [callFrames, hy]

/-- The pending calls get a backtrace. -/
theorem TextState.Shows.settle (h : st.Shows a) (hne : a.pend ≠ []) (hargs : a.args = [])
    (frames : List (Frame w)) :
    ∃ st', storeTextBacktrace st frames = some st' ∧
      TextState.Shows { st' with bt := [] } { a.settle frames with bt := [] } := by
  obtain ⟨ds, ps, hsplit, hds, hps, hrefs⟩ := h.split
  have hnd := h.whole.calls_nodup
  rw [hsplit, List.nodup_append] at hnd
  have hpne : ps ≠ [] := by
    intro hnil
    rw [hnil, List.forall₂_nil_left_iff] at hps
    exact hne hps
  obtain ⟨rd', u, heq, hset⟩ := rdFcallsSetFtrace_setsTrace h.whole hpne hnd.2.1 hrefs
    (h.pending hsplit hps) frames
  obtain ⟨y, hy, hyframes⟩ := h.setsTrace_frames hset
  obtain ⟨hresources, hmmaps, hcontexts, hfiles, hcomments⟩ := hset.sameRest.records
  obtain ⟨hhshake, hpinfo, hfilter⟩ := hset.sameRest.headers
  have hresource := hset.sameRest.resource
  refine ⟨{ st with rd := rd', lastCalls := [] }, ?_, ?_⟩
  · simp only [storeTextBacktrace, show (rdNewFtrace st.rd frames).2 = st.rd.fresh from rfl, heq,
      Option.bind_eq_bind, Option.bind_some]
  refine
    { whole := hset.whole, size := (rdFcallsSetFtrace_size heq).trans h.size
      resource_old := ?_, calls := ?_, refs := ?_, done_frames := ?_
      pend_frames := by simp [LogState.settle], resources := ?_
      idle := fun _ => ⟨hargs, rfl⟩, bt := rfl, args := h.args, mmaps := hmmaps.trans h.mmaps
      contexts := hcontexts.trans h.contexts, files := hfiles.trans h.files
      comments := hcomments.trans h.comments, commentIndex := h.commentIndex
      hshake := hhshake.trans h.hshake, pinfo := hpinfo.trans h.pinfo
      filter := hfilter.trans h.filter }
  · intro r res hr
    rw [show rd'.resource r = _ from congrFun hresource r] at hr
    exact Nat.lt_of_lt_of_le (h.resource_old r res hr) hset.fresh_le
  · show List.Forall₂ _ rd'.calls ((a.done ++ _) ++ [])
    rw [List.append_nil, hset.calls, hsplit, ← hyframes]
    refine List.rel_append (forall₂_imp_mem hds fun c hc v _ hview => ?_) ?_
    · exact callView_setsTrace_other h.whole.toLinked hset (by rw [hsplit]; simp [hc])
        (fun hm => hnd.2.2 c hc c hm rfl) hview
    · rw [List.forall₂_map_right_iff]
      exact forall₂_imp_mem hps fun c hc v _ hview => callView_setsTrace_mem hset hy hc hview
  · show List.Forall₂ _ [] (rd'.calls.drop (a.done ++ _).length)
    rw [hset.calls, hsplit, List.drop_eq_nil_of_le]
    · exact .nil
    · simp [hds.length_eq, hps.length_eq]
  · intro v hv
    rcases List.mem_append.mp hv with hv | hv
    · exact h.done_frames v hv
    · obtain ⟨c, -, rfl⟩ := List.mem_map.mp hv
      exact ⟨_, rfl⟩
  · show List.Forall₂ _ rd'.resources a.resources
    rw [hresources]
    exact h.resources.imp fun r res hr => by rw [hresource]; exact hr

/-- The arguments go to the last call. -/
theorem TextState.Shows.flushArgs (h : st.Shows a) :
    ∃ st', Postproc.flushArgs st = some st' ∧ st'.Shows a.flushArgs := by
  by_cases hargs : a.args = []
  · refine ⟨st, ?_, ?_⟩
    · rw [Postproc.flushArgs, if_pos (h.args.trans hargs)]
    · rw [LogState.flushArgs, if_pos hargs]
      exact h
  obtain ⟨ds, ps, hsplit, hds, hps, hrefs⟩ := h.split
  have hne : a.pend ≠ [] := fun hnil => hargs (h.idle hnil).1
  obtain ⟨pend, v, hpend⟩ := (List.eq_nil_or_concat a.pend).resolve_left hne
  rw [List.concat_eq_append] at hpend
  rw [hpend] at hps
  obtain ⟨cs, c, rfl, hcs, hview⟩ := forall₂_snoc hps
  obtain ⟨rs, r, hlast, hrs, hr⟩ := forall₂_snoc hrefs
  have hnd := h.whole.calls_nodup
  rw [hsplit, ← List.append_assoc, List.nodup_append] at hnd
  have hother : ∀ d ∈ ds ++ cs, d ≠ c := fun d hd => hnd.2.2 d hd c (by simp)
  obtain ⟨x, res, frames, hx, hres, hfr, hv⟩ := callView_eq_some.mp hview
  have hkeep : ∀ d v, d ∈ ds ++ cs → callView st.rd d = some v →
      callView { st.rd with
        fcall := Function.update st.rd.fcall c (some { x with args := some a.args }) } d
        = some v := by
    intro d v hd hview
    exact callView_mono hview (Function.update_of_ne (hother d hd) _ _) (fun r res hr => hr)
      fun _ t y _ _ hy => ⟨y, hy, rfl⟩
  refine ⟨{ st with
    rd := { st.rd with
      fcall := Function.update st.rd.fcall c (some { x with args := some a.args }) }
    args := [] }, ?_, ?_⟩
  · rw [Postproc.flushArgs, if_neg (by rw [h.args]; exact hargs), storeCallArguments, hlast,
      List.getLast?_append, List.getLast?_singleton, h.args]
    simp only [Option.some_or, Option.bind_eq_bind, Option.bind_some, hr, hx]
  rw [LogState.flushArgs, if_neg hargs, hpend, setLastArgs_snoc]
  refine
    { h with
      whole := ?_, calls := ?_, pend_frames := ?_
      idle := fun hnil => absurd hnil (by simp), args := rfl }
  · exact h.whole.of_linked (h.whole.toLinked.of_args hx (some a.args)) rfl rfl
  · show List.Forall₂ _ st.rd.calls (a.done ++ (pend ++ [{ v with args := a.args }]))
    rw [hsplit]
    refine List.rel_append (forall₂_imp_mem hds fun d hd v _ => hkeep d v (by simp [hd])) ?_
    refine forall₂_append_one (forall₂_imp_mem hcs fun d hd v _ => hkeep d v (by simp [hd])) ?_
    refine callView_eq_some.mpr ⟨_, res, frames, Function.update_self .., hres, hfr, ?_⟩
    rw [hv]
    rfl
  · intro u hu
    rcases List.mem_append.mp hu with hu | hu
    · exact h.pend_frames u (by rw [hpend]; simp [hu])
    · obtain rfl := List.mem_singleton.mp hu
      exact h.pend_frames v (by rw [hpend]; simp)

/-- The resource of a call line is looked up among the resources of the log. -/
theorem TextState.Shows.callResource (h : st.Shows a) (field : ResField w) :
    ∃ r, Postproc.callResource st.rd field = some r ∧
      fcallResource st.rd r = some (LogState.findResource a.resources field) := by
  have hfind : ∀ (type : Str) (rs : List Nat) (resources : List (Resource w)),
      List.Forall₂ (fun r res => st.rd.resource r = some res) rs resources →
      ∃ r, dlistFind (compareResource st.rd type) rs = some r ∧
        fcallResource st.rd r = some (resources.find? (·.type = type)) := by
    intro type rs resources hall
    induction hall with
    | nil => exact ⟨none, rfl, rfl⟩
    | @cons r res rs resources hr _ ih =>
      by_cases htype : res.type = type
      · refine ⟨some r, ?_, ?_⟩
        · simp [dlistFind, compareResource, hr, htype]
        · simp [fcallResource, hr, htype]
      · obtain ⟨r', heq, hres⟩ := ih
        refine ⟨r', ?_, ?_⟩
        · simp [dlistFind, compareResource, hr, htype, heq]
        · simp [hres, htype]
  have hhead : ∃ r, some st.rd.resources.head? = some r ∧
      fcallResource st.rd r = some a.resources.head? := by
    refine ⟨_, rfl, ?_⟩
    have hall := h.resources
    revert hall
    generalize st.rd.resources = rs
    generalize a.resources = resources
    intro hall
    cases hall with
    | nil => rfl
    | cons hr _ => simp [fcallResource, hr]
  cases field with
  | undef => exact hhead
  | ref res => exact hhead
  | name type => exact hfind type _ _ h.resources

/-- A new call is pending. -/
theorem TextState.Shows.addCall (h : st.Shows a) (hargs : a.args = []) (hbt : a.bt = [])
    (call : CallRecord w) :
    ∃ st', addTextCall st call = some st' ∧ st'.Shows (a.addCall call) := by
  obtain ⟨r, hr, hres⟩ := h.callResource call.resType
  obtain ⟨ds, ps, hsplit, hds, hps, hrefs⟩ := h.split
  have hlive : ∀ c ∈ st.rd.calls, c ≠ st.rd.fresh := by
    intro c hc
    obtain ⟨x, hx⟩ := h.whole.call_live c hc
    exact Nat.ne_of_lt (h.whole.fcall_old c x hx)
  refine ⟨_, by simp only [addTextCall, hr, Option.bind_eq_bind, Option.bind_some]; rfl, ?_⟩
  have hadd := rdAddFcall_whole h.whole
    { index := call.index, type := call.type, context := call.context, timestamp := call.timestamp,
      name := call.name, resType := r, resId := call.resId, resSize := call.resSize }
  refine
    { h with
      whole := rdNewRef_whole hadd _
      resource_old := ?_, calls := ?_, refs := ?_, pend_frames := ?_
      idle := fun _ => ⟨hargs, hbt⟩, commentIndex := rfl }
  · intro r' res hr'
    exact Nat.lt_of_lt_of_le (h.resource_old r' res hr') (by simp [rdNewRef, rdAddFcall]; omega)
  · show List.Forall₂ _ (st.rd.calls ++ [st.rd.fresh]) (a.done ++ (a.pend ++ [_]))
    rw [← List.append_assoc]
    refine forall₂_append_one (forall₂_imp_mem h.calls fun c hc v _ hview => ?_) ?_
    · exact callView_mono hview (Function.update_of_ne (hlive c hc) _ _) (fun r res hr => hr)
        fun _ t y _ _ hy => ⟨y, hy, rfl⟩
    · exact callView_eq_some.mpr ⟨_, _, none, Function.update_self .., hres, rfl, rfl⟩
  · show List.Forall₂ _ (st.lastCalls ++ [st.rd.fresh + 1])
      ((st.rd.calls ++ [st.rd.fresh]).drop a.done.length)
    rw [hsplit, List.append_assoc, ← hds.length_eq, List.drop_left]
    refine forall₂_append_one (hrefs.imp fun r' c hr' => ?_) (Function.update_self ..)
    have hold := h.whole.ref_old r' c hr'
    exact (Function.update_of_ne (by simp [rdAddFcall]; omega) _ _).trans hr'
  · intro v hv
    rcases List.mem_append.mp hv with hv | hv
    · exact h.pend_frames v hv
    · rw [List.mem_singleton.mp hv]

/-! ## A line -/

@[simp] theorem LogState.flushArgs_args (a : LogState w) : a.flushArgs.args = [] := by
  unfold LogState.flushArgs
  split
  · assumption
  · rfl

/-- A non-empty backtrace belongs to pending calls. -/
theorem TextState.Shows.flushBacktrace_bt (h : st.Shows a) : a.flushBacktrace.bt = [] := by
  unfold LogState.flushBacktrace
  by_cases hpend : a.pend = []
  · rw [if_neg fun hc => hc.2 hpend]
    exact (h.idle hpend).2
  · by_cases hbt : a.bt = []
    · rw [if_neg fun hc => hc.1 hbt]
      exact hbt
    · rw [if_pos ⟨hbt, hpend⟩]

@[simp] theorem LogState.flushBacktrace_args (a : LogState w) : a.flushBacktrace.args = a.args := by
  unfold LogState.flushBacktrace
  split <;> rfl

theorem TextState.Shows.flushBacktrace (h : st.Shows a) (hargs : a.args = []) {line : Str}
    (hline : line.head? ≠ some '\n') :
    ∃ st', Postproc.flushBacktrace st line = some st' ∧ st'.Shows a.flushBacktrace := by
  have hiff : ((st.bt ≠ [] ∨ line.head? = some '\n') ∧ st.lastCalls ≠ []) ↔
      (a.bt ≠ [] ∧ a.pend ≠ []) := by
    simp only [h.bt, hline, or_false, ne_eq, h.lastCalls_nil]
  unfold Postproc.flushBacktrace LogState.flushBacktrace
  by_cases hc : a.bt ≠ [] ∧ a.pend ≠ []
  · obtain ⟨st', heq, hshows⟩ := h.settle hc.2 hargs a.bt
    rw [if_pos (hiff.mpr hc), if_pos hc, h.bt, heq]
    exact ⟨_, rfl, hshows⟩
  · rw [if_neg (mt hiff.mp hc), if_neg hc]
    exact ⟨st, rfl, h⟩

/-- An empty line ends the group. -/
theorem TextState.Shows.endGroup (h : st.Shows a) (hargs : a.args = []) {line : Str}
    (hline : line.head? = some '\n') :
    ∃ st', Postproc.flushBacktrace st line = some st' ∧ st'.Shows a.endGroup := by
  unfold Postproc.flushBacktrace LogState.endGroup
  by_cases hpend : a.pend = []
  · rw [if_neg fun hc => hc.2 (h.lastCalls_nil.mpr hpend), if_pos hpend]
    exact ⟨st, rfl, h⟩
  · obtain ⟨st', heq, hshows⟩ := h.settle hpend hargs a.bt
    rw [if_pos ⟨.inr hline, mt h.lastCalls_nil.mp hpend⟩, if_neg hpend, h.bt, heq]
    exact ⟨_, rfl, hshows⟩

/-- The calls of a group without frames get the empty backtrace. -/
theorem TextState.Shows.settleEmpty (h : st.Shows a) (hargs : a.args = []) (hbt : a.bt = []) :
    ∃ st', storeEmptyBacktrace st = some st' ∧ st'.Shows a.settleEmpty := by
  unfold LogState.settleEmpty
  by_cases hpend : a.pend = []
  · rw [if_pos hpend, storeEmptyBacktrace, h.lastCalls_nil.mpr hpend]
    exact ⟨st, rfl, h⟩
  obtain ⟨ds, ps, hsplit, -, hps, hrefs⟩ := h.split
  obtain ⟨st', heq, hshows⟩ := h.settle hpend hargs []
  have hst' : st'.bt = [] := by
    unfold storeTextBacktrace at heq
    simp only [Option.bind_eq_bind, Option.bind_eq_some_iff, Option.some.injEq] at heq
    obtain ⟨rd', -, rfl⟩ := heq
    exact h.bt.trans hbt
  rw [if_neg hpend]
  refine ⟨st', ?_, ?_⟩
  · cases hlast : st.lastCalls with
    | nil => exact absurd (h.lastCalls_nil.mp hlast) hpend
    | cons r rs =>
      rw [hlast] at hrefs
      cases hrefs with
      | @cons _ c _ cs hr _ =>
        obtain ⟨-, x, hx, hnone⟩ := h.pending hsplit hps c (by simp)
        simp only [storeEmptyBacktrace, hlast, hr, hx, hnone, Option.bind_eq_bind,
          Option.bind_some, if_pos, heq]
  · have ha : ({ a.settle [] with bt := [] } : LogState w) = a.settle [] := by
      rw [← hbt]
      rfl
    have hb : ({ st' with bt := [] } : TextState w) = st' := by
      rw [← hst']
    rw [ha, hb] at hshows
    exact hshows

theorem TextState.Shows.addResource (h : st.Shows a) (res : Resource w) :
    ∃ rd', addTextResource st.rd res = some rd' ∧ TextState.Shows { st with rd := rd' }
      (if a.resources.any (·.type = res.type) then a
       else { a with resources := a.resources ++ [res] }) := by
  obtain ⟨r, hr, hres⟩ := h.callResource (.name res.type)
  have hfind : dlistFind (compareResource st.rd res.type) st.rd.resources = some r := hr
  change fcallResource st.rd r = some (a.resources.find? (·.type = res.type)) at hres
  cases r with
  | some r =>
    have hany : a.resources.any (·.type = res.type) = true := by
      simp only [fcallResource, Option.bind_eq_bind, Option.bind_eq_some_iff, Option.some.injEq] at hres
      obtain ⟨res', -, hsome⟩ := hres
      exact List.any_eq_true.mpr ⟨res', List.mem_of_find?_eq_some hsome.symm,
        by simpa using List.find?_some hsome.symm⟩
    refine ⟨st.rd, by simp [addTextResource, hfind], ?_⟩
    rw [if_pos hany]
    exact h
  | none =>
    have hany : ¬ a.resources.any (·.type = res.type) = true := by
      have hnone : a.resources.find? (·.type = res.type) = none := (Option.some.inj hres).symm
      rw [List.find?_eq_none] at hnone
      rw [List.any_eq_true]
      rintro ⟨res', hmem, htype⟩
      exact hnone res' hmem htype
    refine ⟨(rdAddResource st.rd res).1, by simp [addTextResource, hfind], ?_⟩
    rw [if_neg hany]
    have hkeep : ∀ r' res', st.rd.resource r' = some res' →
        (rdAddResource st.rd res).1.resource r' = some res' := fun r' res' hr' =>
      (Function.update_of_ne (Nat.ne_of_lt (h.resource_old r' res' hr')) _ _).trans hr'
    refine
      { h with
        whole := rdAddResource_whole h.whole res
        resource_old := ?_, calls := ?_, resources := ?_ }
    · intro r' res' hr'
      by_cases hnew : r' = st.rd.fresh
      · subst hnew
        exact Nat.lt_succ_self _
      · have hold : st.rd.resource r' = some res' := by
          rw [← hr']
          exact (Function.update_of_ne hnew _ _).symm
        exact Nat.lt_succ_of_lt (h.resource_old r' res' hold)
    · refine h.calls.imp fun c v hview => ?_
      show callView (rdAddResource st.rd res).1 c = some v
      exact callView_mono hview rfl hkeep fun _ t y _ _ hy => ⟨y, hy, rfl⟩
    · exact forall₂_append_one (h.resources.imp hkeep) (Function.update_self ..)

theorem TextState.Shows.addRecord (h : st.Shows a) (junk : Nat → Context w) (line : Str)
    (rec : Record w) :
    ∃ st', addTextRecord junk st line rec = some st' ∧ st'.Shows (a.addRecord junk line rec) := by
  cases rec with
  | resource res =>
    obtain ⟨rd', heq, hshows⟩ := h.addResource res
    refine ⟨{ st with rd := rd' }, ?_, hshows⟩
    simp only [addTextRecord, heq, Option.bind_eq_bind, Option.bind_some]
  | mmap mmap =>
    refine ⟨_, rfl, { h with whole := h.whole.of_records _ _ _ _ _ _ _ _, mmaps := ?_ }⟩
    show st.rd.mmaps ++ [mmap] = a.mmaps ++ [mmap]
    rw [h.mmaps]
  | context context =>
    refine ⟨_, rfl, { h with whole := h.whole.of_records _ _ _ _ _ _ _ _, contexts := ?_ }⟩
    show st.rd.contexts ++ [junk st.rd.contexts.length] = a.contexts ++ [junk a.contexts.length]
    rw [h.contexts]
  | attachment file =>
    refine ⟨_, rfl, { h with whole := h.whole.of_records _ _ _ _ _ _ _ _, files := ?_ }⟩
    show st.rd.files ++ [file] = a.files ++ [file]
    rw [h.files]
  | comment =>
    refine ⟨_, rfl, { h with whole := h.whole.of_records _ _ _ _ _ _ _ _, comments := ?_ }⟩
    show st.rd.comments ++ [{ index := st.commentIndex, text := line }]
      = a.comments ++ [{ index := a.commentIndex, text := line }]
    rw [h.comments, h.commentIndex]
  | none => exact ⟨st, rfl, h⟩
  | call _ => exact ⟨st, rfl, h⟩
  | trace _ => exact ⟨st, rfl, h⟩
  | arg _ => exact ⟨st, rfl, h⟩

/-- A frame belongs to the pending calls. -/
theorem TextState.Shows.addFrame (h : st.Shows a) (frame : Frame w) :
    TextState.Shows (if st.lastCalls = [] then st else { st with bt := st.bt ++ [frame] })
      (if a.pend = [] then a else { a with bt := a.bt ++ [frame] }) := by
  by_cases hpend : a.pend = []
  · rw [if_pos (h.lastCalls_nil.mpr hpend), if_pos hpend]
    exact h
  · rw [if_neg (mt h.lastCalls_nil.mp hpend), if_neg hpend]
    exact { h with bt := by rw [h.bt], idle := fun hnil => absurd hnil hpend }

/-- An argument belongs to the last pending call. -/
theorem TextState.Shows.addArg (h : st.Shows a) (arg : Farg) :
    TextState.Shows (if st.lastCalls = [] then st else { st with args := st.args ++ [arg] })
      (if a.pend = [] then a else { a with args := a.args ++ [arg] }) := by
  by_cases hpend : a.pend = []
  · rw [if_pos (h.lastCalls_nil.mpr hpend), if_pos hpend]
    exact h
  · rw [if_neg (mt h.lastCalls_nil.mp hpend), if_neg hpend]
    exact { h with args := by rw [h.args], idle := fun hnil => absurd hnil hpend }

/-- What the reader does with an empty line. -/
theorem TextState.Shows.readBlank (h : st.Shows a) (junk : Nat → Context w) {line : Str}
    (hline : line.head? = some '\n') (rec : Record w) :
    ∃ st', readTextRecord junk st line rec = some st' ∧ st'.Shows (a.step junk .blank) := by
  obtain ⟨st₁, heq₁, h₁⟩ := h.flushArgs
  obtain ⟨st₂, heq₂, h₂⟩ := h₁.endGroup (by simp) hline
  refine ⟨st₂, ?_, h₂⟩
  simp only [readTextRecord, heq₁, heq₂, Option.bind_eq_bind, Option.bind_some, if_pos hline]

/-- What the reader does with the other lines that are no part of a group. -/
theorem TextState.Shows.readOther (h : st.Shows a) (junk : Nat → Context w) {line : Str}
    (hline : line.head? ≠ some '\n') (rec : Record w) :
    ∃ st', readTextRecord junk st line rec = some st' ∧
      st'.Shows (match rec with
        | .call call => a.step junk (.call call)
        | rec => a.step junk (.record rec line)) := by
  obtain ⟨st₁, heq₁, h₁⟩ := h.flushArgs
  obtain ⟨st₂, heq₂, h₂⟩ := h₁.flushBacktrace (by simp) hline
  have hargs : a.flushArgs.flushBacktrace.args = [] := by simp
  have hbt := h₁.flushBacktrace_bt
  have hread : readTextRecord junk st line rec = (match rec with
      | .call call => addTextCall st₂ call
      | rec => do addTextRecord junk (← storeEmptyBacktrace st₂) line rec) := by
    cases rec <;>
      simp only [readTextRecord, heq₁, heq₂, Option.bind_eq_bind, Option.bind_some, if_neg hline]
  obtain ⟨st₃, heq₃, h₃⟩ := h₂.settleEmpty hargs hbt
  obtain ⟨st₄, heq₄, h₄⟩ := h₃.addRecord junk line rec
  have hrecord : (do addTextRecord junk (← storeEmptyBacktrace st₂) line rec) = some st₄ := by
    rw [heq₃]
    exact heq₄
  rw [hread]
  cases rec with
  | call call => exact h₂.addCall hargs hbt call
  | _ => exact ⟨st₄, hrecord, h₄⟩

/-- **One turn of the reader's loop.** Whatever event a line is, the reader
does it. -/
theorem readTextLine_shows (h : st.Shows a) (junk : Nat → Context w) {line : Str} {ev : LogEvent w}
    (hev : lineEvent w line = some ev) :
    ∃ st', readTextLine junk st line = some st' ∧ st'.Shows (a.step junk ev) := by
  unfold lineEvent at hev
  unfold readTextLine
  by_cases hskip : ['#', ' '].isPrefixOf line = true
  · rw [if_pos hskip] at hev ⊢
    obtain rfl := Option.some.inj hev
    exact ⟨st, rfl, h⟩
  rw [if_neg hskip] at hev ⊢
  cases hrec : spRtraceParserParseRecord (w := w) recordAll line with
  | none => rw [hrec] at hev; cases hev
  | some rec =>
    rw [hrec] at hev
    simp only [Option.bind_eq_bind, Option.bind_some]
    by_cases hblank : line.head? = some '\n'
    · simp only [hblank, if_true] at hev
      cases rec with
      | trace frame => obtain rfl := Option.some.inj hev; exact ⟨_, rfl, h.addFrame frame⟩
      | arg arg => obtain rfl := Option.some.inj hev; exact ⟨_, rfl, h.addArg arg⟩
      | _ => obtain rfl := Option.some.inj hev; exact h.readBlank junk hblank _
    · simp only [hblank, if_false] at hev
      cases rec with
      | trace frame => obtain rfl := Option.some.inj hev; exact ⟨_, rfl, h.addFrame frame⟩
      | arg arg => obtain rfl := Option.some.inj hev; exact ⟨_, rfl, h.addArg arg⟩
      | _ => obtain rfl := Option.some.inj hev; exact h.readOther junk hblank _

/-- **The loop of the reader.** -/
theorem readTextLines_shows (junk : Nat → Context w) :
    ∀ {lines : List Str} {evs : List (LogEvent w)} {st : TextState w} {a : LogState w},
      st.Shows a → List.Forall₂ (fun line ev => lineEvent w line = some ev) lines evs →
      ∃ st', lines.foldlM (readTextLine junk) st = some st' ∧ st'.Shows (a.run junk evs)
  | _, _, st, a, h, .nil => ⟨st, rfl, h⟩
  | line :: lines, ev :: evs, st, a, h, .cons hev hevs => by
      obtain ⟨st₁, heq₁, h₁⟩ := readTextLine_shows h junk hev
      obtain ⟨st₂, heq₂, h₂⟩ := readTextLines_shows junk h₁ hevs
      refine ⟨st₂, ?_, h₂⟩
      rw [List.foldlM_cons, heq₁]
      exact heq₂

/-! ## The end of the log -/

theorem LogState.finish_pend (a : LogState w) : a.finish.pend = [] := by
  unfold LogState.finish LogState.endGroup
  split
  · assumption
  · rfl

/-- The end of the log ends the last group, and the calls are sorted. -/
theorem TextState.Shows.finish (h : st.Shows a) :
    ∃ st' : TextState w, finishText st = sortCalls st'.rd ∧ st'.Shows a.finish := by
  obtain ⟨st₁, heq₁, h₁⟩ := h.flushArgs
  unfold LogState.finish LogState.endGroup
  simp only [finishText, heq₁, Option.bind_eq_bind, Option.bind_some]
  by_cases hpend : a.flushArgs.pend = []
  · rw [if_pos (h₁.lastCalls_nil.mpr hpend), if_pos hpend]
    exact ⟨st₁, rfl, h₁⟩
  · obtain ⟨st₂, heq₂, h₂⟩ := h₁.settle hpend (by simp) a.flushArgs.bt
    rw [if_neg (mt h₁.lastCalls_nil.mp hpend), if_neg hpend, h₁.bt, heq₂]
    exact ⟨{ st₂ with bt := [] }, rfl, h₂⟩

/-- What the sort compares of a call. -/
def LogCall.key (v : LogCall w) : BitVec 32 × BitVec 32 := (v.record.timestamp, v.record.index)

/-- `compare_calls` on what it looks at. -/
def compareKeys (key1 key2 : BitVec 32 × BitVec 32) : Int :=
  if key1.1 = key2.1 then (key1.2 - key2.2).toInt else (key1.1 - key2.1).toInt

/-- `compare_calls` on calls of the log. -/
def compareLogCalls (call1 call2 : LogCall w) : Int := compareKeys call1.key call2.key

/-- The nodes that are sorted, beside the calls of the log. -/
theorem sortNodes_views {rd : Rd w} {calls : List Nat} {views : List (LogCall w)}
    (h : List.Forall₂ (fun c v => callView rd c = some v) calls views) :
    ∃ nodes, (calls.mapM fun call => do some (call, (← rd.fcall call).data)) = some nodes ∧
      nodes.map Prod.fst = calls ∧
      List.Forall₂ (fun (n : Nat × FcallData w) v => callView rd n.1 = some v ∧
        (n.2.timestamp, n.2.index) = v.key) nodes views := by
  induction h with
  | nil => exact ⟨[], rfl, rfl, .nil⟩
  | @cons c v calls views hview _ ih =>
    obtain ⟨nodes, heq, hfst, hall⟩ := ih
    obtain ⟨x, res, frames, hx, -, -, hv⟩ := callView_eq_some.mp hview
    refine ⟨(c, x.data) :: nodes, ?_, by rw [List.map_cons, hfst], .cons ⟨hview, by rw [hv]; rfl⟩ hall⟩
    rw [List.mapM_cons, heq, hx]
    rfl

/-- The calls of the log are sorted as their records are. -/
theorem TextState.Shows.sorted (h : st.Shows a) (hpend : a.pend = []) {rd' : Rd w}
    (hsort : sortCalls st.rd = some rd') :
    ∃ done, dlistSort compareLogCalls a.done = some done ∧ TextState.Shows { st with rd := rd' } { a with done } := by
  have hcalls := h.calls
  rw [hpend, List.append_nil] at hcalls
  obtain ⟨nodes, heq, hfst, hall⟩ := sortNodes_views hcalls
  rw [sortCalls, heq] at hsort
  simp only [Option.bind_eq_bind, Option.bind_some, Option.bind_eq_some_iff,
    Option.some.injEq] at hsort
  obtain ⟨sorted, hsorted, rfl⟩ := hsort
  have hperm := dlistSort_perm hsorted
  have hcompare : ∀ (n n' : Nat × FcallData w) (v v' : LogCall w),
      (callView st.rd n.1 = some v ∧ (n.2.timestamp, n.2.index) = v.key) →
      (callView st.rd n'.1 = some v' ∧ (n'.2.timestamp, n'.2.index) = v'.key) →
      compareCalls n n' = compareLogCalls v v' := by
    intro n n' v v' hn hn'
    rw [compareLogCalls, ← hn.2, ← hn'.2]
    rfl
  obtain ⟨done, hdone, hall'⟩ := dlistSort_forall₂ hcompare hall hsorted
  refine ⟨done, hdone, ?_⟩
  have hcallsPerm : (sorted.map Prod.fst).Perm st.rd.calls := by
    rw [← hfst]
    exact hperm.map Prod.fst
  refine
    { h with
      whole := h.whole.of_linked (h.whole.toLinked.of_perm hcallsPerm) rfl rfl, calls := ?_, refs := ?_
      done_frames := fun v hv => h.done_frames v ((dlistSort_perm hdone).mem_iff.mp hv) }
  · show List.Forall₂ _ (sorted.map Prod.fst) (done ++ a.pend)
    rw [hpend, List.append_nil, List.forall₂_map_left_iff]
    exact hall'.imp fun n v hn => hn.1
  · show List.Forall₂ _ st.lastCalls ((sorted.map Prod.fst).drop done.length)
    rw [h.lastCalls_nil.mpr hpend, List.drop_eq_nil_of_le]
    · exact .nil
    · rw [List.length_map, hall'.length_eq]

/-! ## The whole log -/

/-- The log before the first line behind the header. -/
def LogState.init (hshake : Option Hshake) (pinfo : Option Pinfo) (filter : BitVec 32) :
    LogState w where
  done := []
  pend := []
  bt := []
  args := []
  resources := []
  mmaps := []
  contexts := []
  files := []
  comments := []
  commentIndex := 0
  hshake := hshake
  pinfo := pinfo
  filter := filter

/-- The variables of the reader before its loop. -/
def TextState.init (rd : Rd w) : TextState w :=
  { rd, lastCalls := [], bt := [], args := [], commentIndex := 0 }

/-- The header is stored in an empty store. -/
theorem parseHeader_shows {mktime : List (BitVec 32) → Int} {line : Str} {rd : Rd w}
    (h : parseHeader mktime rdCreate line = some rd) :
    (TextState.init rd).Shows (.init rd.hshake rd.pinfo rd.filter) := by
  simp only [parseHeader, Option.bind_eq_bind, Option.bind_eq_some_iff, Option.some.injEq] at h
  obtain ⟨header, -, rfl⟩ := h
  exact
    { whole := whole_rdCreate.of_stores rfl rfl rfl rfl rfl rfl
      size := rfl
      resource_old := fun r res hr => by cases hr
      calls := .nil, refs := .nil, done_frames := by simp [LogState.init]
      pend_frames := by simp [LogState.init], resources := .nil, idle := fun _ => ⟨rfl, rfl⟩
      bt := rfl, args := rfl, mmaps := rfl, contexts := rfl, files := rfl, comments := rfl
      commentIndex := rfl, hshake := rfl, pinfo := rfl, filter := rfl }

/-- The log that the lines behind the header write. -/
def textLog (junk : Nat → Context w) (rd : Rd w) (evs : List (LogEvent w)) : LogState w :=
  ((LogState.init rd.hshake rd.pinfo rd.filter).run junk evs).finish

/-- **`read_text_data` reads what the log says**, and sorts the calls. -/
theorem readTextLines_sorts {mktime : List (BitVec 32) → Int} (junk : Nat → Context w)
    {header : Str} {lines : List Str} {evs : List (LogEvent w)} {rd : Rd w}
    (hheader : parseHeader mktime rdCreate header = some rd)
    (hevs : List.Forall₂ (fun line ev => lineEvent w line = some ev) lines evs) :
    ∃ st : TextState w, readTextLines mktime junk rdCreate (header :: lines) = sortCalls st.rd ∧
      st.Shows (textLog junk rd evs) := by
  obtain ⟨st, heq, h⟩ := readTextLines_shows junk (parseHeader_shows hheader) hevs
  obtain ⟨st', hfin, h'⟩ := h.finish
  refine ⟨st', ?_, h'⟩
  rw [TextState.init] at heq
  rw [readTextLines]
  simp only [hheader, Option.bind_eq_bind, Option.bind_some, heq, hfin]

theorem readTextData_shows {mktime : List (BitVec 32) → Int} (junk : Nat → Context w)
    {text header : Str} {lines : List Str} {evs : List (LogEvent w)} {rd : Rd w}
    (hlines : fgetsLines 4096 text = header :: lines)
    (hheader : parseHeader mktime rdCreate header = some rd)
    (hevs : List.Forall₂ (fun line ev => lineEvent w line = some ev) lines evs) :
    ∃ st : TextState w, readTextData mktime junk rdCreate text = sortCalls st.rd ∧
      st.Shows (textLog junk rd evs) := by
  rw [readTextData, hlines]
  exact readTextLines_sorts junk hheader hevs

/-- A line the reader gets over is an event. -/
theorem lineEvent_of_readTextLine {junk : Nat → Context w} {st st' : TextState w} {line : Str}
    (h : readTextLine junk st line = some st') : ∃ ev, lineEvent w line = some ev := by
  unfold readTextLine at h
  unfold lineEvent
  split
  · exact ⟨_, rfl⟩
  · rename_i hskip
    rw [if_neg hskip] at h
    cases hrec : spRtraceParserParseRecord (w := w) recordAll line with
    | none => rw [hrec] at h; cases h
    | some rec =>
      by_cases hblank : line.head? = some '\n'
      · cases rec <;> simp [hblank]
      · cases rec <;> simp [hblank]

theorem lineEvents_of_readTextLines {junk : Nat → Context w} :
    ∀ {lines : List Str} {st st' : TextState w}, lines.foldlM (readTextLine junk) st = some st' →
      ∃ evs, List.Forall₂ (fun line ev => lineEvent w line = some ev) lines evs
  | [], _, _, _ => ⟨[], .nil⟩
  | line :: lines, st, st', h => by
      rw [List.foldlM_cons] at h
      simp only [Option.bind_eq_bind, Option.bind_eq_some_iff] at h
      obtain ⟨st₁, hline, hrest⟩ := h
      obtain ⟨ev, hev⟩ := lineEvent_of_readTextLine hline
      obtain ⟨evs, hevs⟩ := lineEvents_of_readTextLines hrest
      exact ⟨ev :: evs, .cons hev hevs⟩

/-- **Every log that is read says what was read**: either the log is empty,
or its lines are events and the store holds what they write, with the
calls sorted. -/
theorem readTextLines_log {mktime : List (BitVec 32) → Int} {junk : Nat → Context w}
    {all : List Str} {rd : Rd w} (h : readTextLines mktime junk rdCreate all = some rd) :
    (all = [] ∧ rd = rdCreate) ∨
    ∃ header lines rd₀ evs, ∃ (st : TextState w) (done : List (LogCall w)),
      all = header :: lines ∧ parseHeader mktime rdCreate header = some rd₀ ∧
      List.Forall₂ (fun line ev => lineEvent w line = some ev) lines evs ∧
      dlistSort compareLogCalls (textLog junk rd₀ evs).done = some done ∧ st.rd = rd ∧
      st.Shows { textLog junk rd₀ evs with done } := by
  cases all with
  | nil => exact .inl ⟨rfl, (Option.some.inj h).symm⟩
  | cons header lines =>
    have hread := h
    rw [readTextLines] at hread
    simp only [Option.bind_eq_bind, Option.bind_eq_some_iff] at hread
    obtain ⟨rd₀, hheader, st₀, hloop, -⟩ := hread
    obtain ⟨evs, hevs⟩ := lineEvents_of_readTextLines hloop
    obtain ⟨st, heq, hshows⟩ := readTextLines_sorts junk hheader hevs
    obtain ⟨done, hsort, hsorted⟩ := hshows.sorted (LogState.finish_pend _) (heq.symm.trans h)
    exact .inr ⟨header, lines, rd₀, evs, _, done, rfl, hheader, hevs, hsort, rfl, hsorted⟩

theorem readTextData_log {mktime : List (BitVec 32) → Int} {junk : Nat → Context w} {text : Str}
    {rd : Rd w} (h : readTextData mktime junk rdCreate text = some rd) :
    (fgetsLines 4096 text = [] ∧ rd = rdCreate) ∨
    ∃ header lines rd₀ evs, ∃ (st : TextState w) (done : List (LogCall w)),
      fgetsLines 4096 text = header :: lines ∧ parseHeader mktime rdCreate header = some rd₀ ∧
      List.Forall₂ (fun line ev => lineEvent w line = some ev) lines evs ∧
      dlistSort compareLogCalls (textLog junk rd₀ evs).done = some done ∧ st.rd = rd ∧
      st.Shows { textLog junk rd₀ evs with done } :=
  readTextLines_log h

end SpRtrace.Postproc
