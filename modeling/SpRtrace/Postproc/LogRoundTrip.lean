/-
SpRtrace.Postproc.LogRoundTrip — the calls of a log that is written and
read.

`readTextData_writes` reads a text whose lines have known events;
`readLog_takes` says it for a text that takes the reader from one place to
another. With `takes_environment` and `takes_calls` this reads the whole
log. The reader sorts the calls, so their order comes back from the keys
(`dlistSort_quiet`), and the frames of a call come back unless a comment
cut the call off from its backtrace. `logRoundTrip_iff` puts this together.
-/
import Mathlib
import SpRtrace.Postproc.CallLog
import SpRtrace.Postproc.CommentPlaces
import SpRtrace.Postproc.Session

namespace SpRtrace.Postproc

open SpRtrace.Lib SpRtrace.Common SpRtrace.Library

variable {w : Nat}

/-! ## Reading a text -/

section Reading

variable {mktime : List (BitVec 32) → Int} {junk : Nat → Context w} {header body : Str}
  {evs : List (LogEvent w)} {fits : Prop} {rd₀ : Rd w}

/-- The sort of the store ends if that of the log does. -/
theorem sortCalls_total {st : TextState w} {a : LogState w} (h : st.Shows a) (hpend : a.pend = [])
    {done : List (LogCall w)} (hsort : dlistSort compareLogCalls a.done = some done) :
    ∃ rd', sortCalls st.rd = some rd' := by
  have hcalls := h.calls
  rw [hpend, List.append_nil] at hcalls
  obtain ⟨nodes, heq, -, hall⟩ := sortNodes_views hcalls
  have hcompare : ∀ (v v' : LogCall w) (n n' : Nat × FcallData w),
      (callView st.rd n.1 = some v ∧ (n.2.timestamp, n.2.index) = v.key) →
      (callView st.rd n'.1 = some v' ∧ (n'.2.timestamp, n'.2.index) = v'.key) →
      compareLogCalls v v' = compareCalls n n' := by
    intro v v' n n' hn hn'
    rw [compareLogCalls, ← hn.2, ← hn'.2]
    rfl
  obtain ⟨sorted, hsorted, -⟩ := dlistSort_forall₂ hcompare hall.flip hsort
  refine ⟨{ st.rd with calls := sorted.map Prod.fst }, ?_⟩
  rw [sortCalls, heq]
  simp only [Option.bind_eq_bind, Option.bind_some, hsorted]

/-- The lines that the reader sees. -/
theorem Writes.fgetsLines (h : Writes w body evs fits) (hheader : IsLine 4095 header)
    (hshort : ShortLines body) :
    ∃ lines, Lib.fgetsLines 4096 (header ++ body) = header :: lines ∧
      List.Forall₂ LineIs lines evs ∧ ((∀ line ∈ lines, (lineEvent w line).isSome) ↔ fits) := by
  obtain ⟨lines, rfl, hall, hfits⟩ := h
  refine ⟨lines, ?_, hall, hfits⟩
  rw [← List.flatten_cons]
  refine fgetsLines_flatten fun line hline => ?_
  rcases List.mem_cons.mp hline with rfl | hline
  · exact hheader
  · obtain ⟨ev, -, hev⟩ := forall₂_mem_left hall hline
    exact (hshort.flatten hline).isLine hev.1

/-- What is read has a header. -/
theorem readTextData_header (hheader : IsLine 4095 header) (hwrites : Writes w body evs fits)
    (hshort : ShortLines body) {rd' : Rd w}
    (hread : readTextData mktime junk rdCreate (header ++ body) = some rd') :
    ∃ rd₀ : Rd w, parseHeader mktime rdCreate header = some rd₀ := by
  obtain ⟨lines, hlines, -⟩ := hwrites.fgetsLines hheader hshort
  rw [readTextData, hlines, readTextLines] at hread
  simp only [Option.bind_eq_bind, Option.bind_eq_some_iff] at hread
  obtain ⟨rd₀, hparse, -⟩ := hread
  exact ⟨rd₀, hparse⟩

/-- **A log whose lines have known events** is read exactly if they all fit
and the sort of the calls ends. -/
theorem readTextData_writes (junk : Nat → Context w) (hheader : IsLine 4095 header)
    (hparse : parseHeader mktime rdCreate header = some rd₀) (hwrites : Writes w body evs fits)
    (hshort : ShortLines body) :
    (∀ rd', readTextData mktime junk rdCreate (header ++ body) = some rd' → fits ∧
      ∃ done, ∃ st : TextState w, dlistSort compareLogCalls (textLog junk rd₀ evs).done = some done ∧
        st.rd = rd' ∧ st.Shows { textLog junk rd₀ evs with done }) ∧
    (fits → ∀ done, dlistSort compareLogCalls (textLog junk rd₀ evs).done = some done →
      ∃ rd', readTextData mktime junk rdCreate (header ++ body) = some rd') := by
  obtain ⟨lines, hlines, hall, hfits⟩ := hwrites.fgetsLines hheader hshort
  constructor
  · intro rd' hread
    rcases readTextData_log hread with ⟨hnil, -⟩ | ⟨header', lines', rd₀', evs', st, done, hlines', hparse',
      hevs', hsort, hrd, hshows⟩
    · rw [hlines] at hnil
      cases hnil
    · obtain ⟨rfl, rfl⟩ := List.cons.inj (hlines.symm.trans hlines')
      obtain rfl := Option.some.inj (hparse.symm.trans hparse')
      have hsame : evs' = evs := by
        clear hsort hshows hlines hlines' hread hshort hfits hwrites
        induction hall generalizing evs' with
        | nil => exact List.forall₂_nil_left_iff.mp hevs'
        | cons hline _ ih =>
          obtain ⟨ev, rest, hev, hrest, rfl⟩ := List.forall₂_cons_left_iff.mp hevs'
          rw [hline.2 ev hev, ih rest hrest]
      subst hsame
      refine ⟨hfits.mp fun line hline => ?_, done, st, hsort, hrd, hshows⟩
      obtain ⟨ev, -, hev⟩ := forall₂_mem_left hevs' hline
      rw [hev]
      rfl
  · intro hfit done hsort
    have hevs : List.Forall₂ (fun line ev => lineEvent w line = some ev) lines evs :=
      forall₂_imp_mem hall fun line hline ev _ hev => by
        obtain ⟨e, he⟩ := Option.isSome_iff_exists.mp (hfits.mpr hfit line hline)
        rw [he, hev.2 e he]
    obtain ⟨st, heq, hshows⟩ := readTextData_shows junk hlines hparse hevs
    rw [heq]
    exact sortCalls_total hshows (LogState.finish_pend _) hsort

/-- At the end of a log no group is open. -/
theorem LogState.At.finish {a : LogState w} {env : LogEnv w} {done : List (LogCall w)}
    (h : a.At env done []) : a.finish.At env done [] := by
  have hfinish : a.finish = a.flushArgs := by rw [LogState.finish, LogState.endGroup, if_pos h.pend]
  rw [hfinish]
  exact .of_args ((LogState.flushArgs_env a).trans h.env) ((LogState.flushArgs_done a).trans h.done)
    (LogState.flushArgs_args a) h.pend ((LogState.flushArgs_bt a).trans h.bt)

end Reading

/-! ## The order of the calls -/

/-- Timestamp and index, in this order. -/
def LogCall.place (v : LogCall w) : ℕ ×ₗ ℤ :=
  toLex (v.record.timestamp.toNat, v.record.index.toInt)

/-- Of calls of one day with positive indices, `compare_calls` sorts by
timestamp and index. -/
theorem compareLogCalls_orders {calls : List (LogCall w)}
    (h : ∀ v ∈ calls, v.record.timestamp.toNat < 86400000 ∧ 0 < v.record.index.toInt) :
    OrdersBy compareLogCalls LogCall.place calls := by
  intro v hv u hu
  obtain ⟨htv, hiv⟩ := h v hv
  obtain ⟨htu, hiu⟩ := h u hu
  have hindex : ∀ i : BitVec 32, 0 < i.toInt → i.toInt = i.toNat ∧ i.toNat < 2 ^ 31 := fun i hi => by
    rw [BitVec.toInt_eq_toNat_cond] at hi ⊢
    split at hi <;> omega
  obtain ⟨hnv, hlv⟩ := hindex _ hiv
  obtain ⟨hnu, hlu⟩ := hindex _ hiu
  simp only [LogCall.place, Prod.Lex.toLex_le_toLex, Prod.Lex.toLex_lt_toLex]
  have hcompare : compareLogCalls v u = if v.record.timestamp = u.record.timestamp
      then (v.record.index - u.record.index).toInt
      else (v.record.timestamp - u.record.timestamp).toInt := rfl
  rw [hcompare]
  by_cases heq : v.record.timestamp = u.record.timestamp
  · rw [if_pos heq, toInt_sub_of_close (by omega) (by omega), heq]
    omega
  · have hne : v.record.timestamp.toNat ≠ u.record.timestamp.toNat :=
      fun h => heq (BitVec.eq_of_toNat_eq h)
    rw [if_neg heq, toInt_sub_of_close (by omega) (by omega)]
    omega

/-! ## The whole log -/

/-- The environment is written, and the parser gets over its lines. -/
def EnvFits (rd : Rd w) (localtime : Int → Tm) (opts : WriterOptions) : Prop :=
  (∃ hshake pinfo header, rd.hshake = some hshake ∧ rd.pinfo = some pinfo ∧
    (printInt pinfo.pid).length ≤ 7 ∧
    spRtracePrintHeader [] (traceHeader rd hshake pinfo (localtime pinfo.tvSec) opts) = some header ∧
    ∃ fields, spRtraceParserParseHeader w header = some fields) ∧
  (∀ res ∈ storedResources rd, ∃ line, spRtracePrintResource res = some line) ∧
  ∀ p ∈ envRecords rd, ParserTakes w p.2

/-- No buffer is too small for the log: not in the writer, not in the
parser; and the comments are formats without arguments. -/
structure LogFits (rd : Rd w) (localtime : Int → Tm) (clock : Nat → BitVec 32) (opts : WriterOptions) :
    Prop where
  env : EnvFits rd localtime opts
  writable : Writable rd opts clock
  comments : ∀ c ∈ visibleComments w rd.comments, ∃ text, printFormat c.text = some text
  calls : ∀ c ∈ rd.calls, ∀ v ∈ callView rd c, CallBuffers v

/-- No comment falls due between two calls of a backtrace that has frames,
with the backtraces in the order of the writer. -/
def Quiet (rd : Rd w) (opts : WriterOptions) : Prop :=
  ∀ written, writerGroups rd opts = some written →
    QuietGroups rd.comments [] (written.map (logGroup rd))

/-- The calls of the store, with everything it knows of them. -/
def storeViews (rd : Rd w) : List (LogCall w) := rd.calls.filterMap (callView rd)

/-- A trace data object that the format can hold: a consistent store, whose
strings stay in their lines. -/
structure LogFormat (rd : Rd w) : Prop where
  integrity : rd.Integrity
  table : 0 < rd.ftraces.size
  lines : EnvLines rd
  calls : PlainCalls rd
  comments : ∀ c ∈ rd.comments, HashLine c.text

/-- One whose calls are in the order of the log. -/
structure PlainLog (rd : Rd w) : Prop extends LogFormat rd where
  order : (storeViews rd).Pairwise fun v u => v.place < u.place

section Log

variable {rd : Rd w} {localtime : Int → Tm} {clock : Nat → BitVec 32} {opts : WriterOptions}

/-- The log is a header and the rest. -/
theorem writeTraceLog_eq_some (hlive : ∀ r ∈ rd.resources, ∃ res, rd.resource r = some res)
    {text : Str} :
    writeTraceLog rd localtime clock opts = some text ↔
      ∃ hshake pinfo header pieces, rd.hshake = some hshake ∧ rd.pinfo = some pinfo ∧
        (printInt pinfo.pid).length ≤ 7 ∧
        spRtracePrintHeader [] (traceHeader rd hshake pinfo (localtime pinfo.tvSec) opts)
          = some header ∧
        (∀ res ∈ storedResources rd, ∃ line, spRtracePrintResource res = some line) ∧
        writeTraceCalls rd opts clock = some pieces ∧
        text = header ++ (((envRecords rd).map Prod.snd).flatten ++ piecesText pieces) := by
  simp only [writeTraceLog, Option.bind_eq_bind, Option.bind_eq_some_iff, Option.some.injEq,
    writeTraceEnvironment_iff hlive]
  constructor
  · intro h
    obtain ⟨_, ⟨hshake, pinfo, header, hhs, hpi, hpid, hheader, hres, rfl⟩, pieces, hpieces, heq⟩ := h
    refine ⟨hshake, pinfo, header, pieces, hhs, hpi, hpid, hheader, hres, hpieces, ?_⟩
    rw [← heq, List.flatten_cons, List.append_assoc, piecesText]
  · intro h
    obtain ⟨hshake, pinfo, header, pieces, hhs, hpi, hpid, hheader, hres, hpieces, heq⟩ := h
    refine ⟨_, ⟨hshake, pinfo, header, hhs, hpi, hpid, hheader, hres, rfl⟩, pieces, hpieces, ?_⟩
    rw [heq, List.flatten_cons, List.append_assoc, piecesText]

/-- A header that is parsed can be stored. -/
theorem parseHeader_total {mktime : List (BitVec 32) → Int} {header : Str} :
    (∃ rd₀ : Rd w, parseHeader mktime rdCreate header = some rd₀) ↔
      ∃ fields, spRtraceParserParseHeader w header = some fields := by
  simp only [parseHeader, Option.bind_eq_bind, Option.bind_eq_some_iff, Option.some.injEq]
  constructor
  · intro h
    obtain ⟨_, fields, hfields, -⟩ := h
    exact ⟨fields, hfields⟩
  · intro h
    obtain ⟨fields, hfields⟩ := h
    exact ⟨_, fields, hfields, rfl⟩

/-- **What is read of a log** whose calls take the reader behind the
environment to `Q`. -/
theorem readLog_takes {mktime : List (BitVec 32) → Int} {junk : Nat → Context w} (hw : 32 ≤ w)
    (hlines : EnvLines rd) {fits : Prop} {Q : LogEnv w → LogState w → Prop}
    (hcalls : ∀ pieces, ∀ env : LogEnv w, writeTraceCalls rd opts clock = some pieces →
      ShortLines (piecesText pieces) → env.resources = (storedResources rd).map shownResource →
      Takes junk (piecesText pieces) fits (AtPlace ⟨env, [], []⟩) (Q env))
    {text : Str} {rd' : Rd w} (hwrite : writeTraceLog rd localtime clock opts = some text)
    (hshort : ShortLines text) (hread : readTextData mktime junk rdCreate text = some rd') :
    EnvFits rd localtime opts ∧ (∃ pieces, writeTraceCalls rd opts clock = some pieces) ∧ fits ∧
      ∃ env : LogEnv w, env.resources = (storedResources rd).map shownResource ∧
        ∃ a sorted, ∃ st : TextState w, Q env a ∧ dlistSort compareLogCalls a.finish.done = some sorted ∧
          st.rd = rd' ∧ st.Shows { a.finish with done := sorted } := by
  obtain ⟨hshake, pinfo, header, pieces, hhs, hpi, hpid, hheader, hprint, hpieces, rfl⟩ :=
    (writeTraceLog_eq_some hlines.resources_live).mp hwrite
  obtain ⟨-, hbody⟩ := hshort.of_append
  have hline := traceHeader_newline hlines hhs hpi hheader
  -- the environment of the reader is known only behind the header
  have htakes : ∀ env : LogEnv w, env.resources = [] →
      ∃ env' : LogEnv w, env'.resources = (storedResources rd).map shownResource ∧
        Takes junk (((envRecords rd).map Prod.snd).flatten ++ piecesText pieces)
          ((∀ p ∈ envRecords rd, ParserTakes w p.2) ∧ fits) (AtPlace ⟨env, [], []⟩) (Q env') := by
    intro env hempty
    obtain ⟨env', henv', henvTakes⟩ := takes_environment junk hw hlines hprint hempty
    exact ⟨env', henv', henvTakes.trans (hcalls pieces env' hpieces hbody.of_append.2 henv')⟩
  obtain ⟨_, -, _, hwrites, -⟩ := htakes (LogState.init none none 0).env rfl
  obtain ⟨rd₀, hparse⟩ := readTextData_header hline hwrites hbody hread
  obtain ⟨env', henv', evs, hwrites, hrun⟩ :=
    htakes (LogState.init rd₀.hshake rd₀.pinfo rd₀.filter).env rfl
  obtain ⟨⟨henv, hfits⟩, sorted, st, hsort, hrd, hshows⟩ :=
    (readTextData_writes junk hline hparse hwrites hbody).1 rd' hread
  exact ⟨⟨⟨hshake, pinfo, header, hhs, hpi, hpid, hheader, parseHeader_total.mp ⟨rd₀, hparse⟩⟩,
    hprint, henv⟩, ⟨pieces, hpieces⟩, hfits, env', henv', _, sorted, st,
    hrun _ (.of_args rfl rfl rfl rfl rfl), hsort, hrd, hshows⟩

/-- Such a log can be written if it fits, and read if its calls can be
sorted. -/
theorem readLog_takes_total {mktime : List (BitVec 32) → Int} {junk : Nat → Context w} (hw : 32 ≤ w)
    (hlines : EnvLines rd) {fits : Prop} {Q : LogEnv w → LogState w → Prop}
    (hcalls : ∀ pieces, ∀ env : LogEnv w, writeTraceCalls rd opts clock = some pieces →
      ShortLines (piecesText pieces) → env.resources = (storedResources rd).map shownResource →
      Takes junk (piecesText pieces) fits (AtPlace ⟨env, [], []⟩) (Q env))
    (hshort : ∀ text, writeTraceLog rd localtime clock opts = some text → ShortLines text)
    (henv : EnvFits rd localtime opts) {pieces : List Piece}
    (hpieces : writeTraceCalls rd opts clock = some pieces) (hfits : fits) :
    ∃ text, writeTraceLog rd localtime clock opts = some text ∧ ∃ env a, Q env a ∧
      ∀ sorted, dlistSort compareLogCalls a.finish.done = some sorted →
        ∃ rd', readTextData mktime junk rdCreate text = some rd' := by
  obtain ⟨⟨hshake, pinfo, header, hhs, hpi, hpid, hheader, hfields⟩, hprint, hrecords⟩ := henv
  have hwrite := (writeTraceLog_eq_some hlines.resources_live).mpr
    ⟨hshake, pinfo, header, pieces, hhs, hpi, hpid, hheader, hprint, hpieces, rfl⟩
  obtain ⟨-, hbody⟩ := (hshort _ hwrite).of_append
  have hline := traceHeader_newline hlines hhs hpi hheader
  obtain ⟨rd₀, hparse⟩ := parseHeader_total.mpr hfields
  obtain ⟨env', henv', henvTakes⟩ := takes_environment junk hw hlines hprint
    (rfl : (LogState.init rd₀.hshake rd₀.pinfo rd₀.filter).env.resources = [])
  obtain ⟨evs, hwrites, hrun⟩ :=
    henvTakes.trans (hcalls pieces env' hpieces hbody.of_append.2 henv')
  obtain ⟨-, htotal⟩ := readTextData_writes junk hline hparse hwrites hbody
  exact ⟨_, hwrite, env', _, hrun _ (.of_args rfl rfl rfl rfl rfl), htotal ⟨hrecords, hfits⟩⟩

end Log

/-! ## The same calls -/

/-- **The same calls in the same order**: index, context, timestamp, name,
type, size, id, resource, arguments, and the frames of the backtrace; and
calls with one backtrace have one again. -/
structure SameCalls (rd rd' : Rd w) : Prop where
  calls : List.Forall₂ (fun c c' => ∃ v, callView rd c = some v ∧
    callView rd' c' = some (shownCall v)) rd.calls rd'.calls
  shared : ∀ p ∈ rd.calls.zip rd'.calls, ∀ q ∈ rd.calls.zip rd'.calls,
    (rd.fcall p.1).bind Fcall.trace = (rd.fcall q.1).bind Fcall.trace →
    (rd'.fcall p.2).bind Fcall.trace = (rd'.fcall q.2).bind Fcall.trace

theorem PlainCalls.views {rd : Rd w} (h : PlainCalls rd) :
    List.Forall₂ (fun c v => callView rd c = some v) rd.calls (storeViews rd) :=
  forall₂_filterMap fun c hc => (h c hc).imp fun _ hv => hv.1

/-- Calls with the same frames have the same backtrace. -/
theorem trace_eq_of_frames {rd : Rd w} (h : rd.Whole) {c d : Nat} {v u : LogCall w}
    (hc : c ∈ rd.calls) (hd : d ∈ rd.calls) (hv : callView rd c = some v)
    (hu : callView rd d = some u) (hframes : v.frames = u.frames) :
    (rd.fcall c).bind Fcall.trace = (rd.fcall d).bind Fcall.trace := by
  obtain ⟨x, res, fr, hx, -, hfr, rfl⟩ := callView_eq_some.mp hv
  obtain ⟨y, res', fr', hy, -, hfr', rfl⟩ := callView_eq_some.mp hu
  obtain rfl : fr = fr' := hframes
  rw [hx, hy]
  show x.trace = y.trace
  cases ht : x.trace with
  | none =>
    rw [ht] at hfr
    obtain rfl := Option.some.inj hfr
    cases hu' : y.trace with
    | none => rfl
    | some u =>
      rw [hu'] at hfr'
      simp only [callFrames, Option.bind_eq_bind, Option.bind_eq_some_iff] at hfr'
      obtain ⟨_, -, heq⟩ := hfr'
      cases heq
  | some t =>
    obtain ⟨z, hz, hzf⟩ := callView_frames hv (Option.bind_eq_some_iff.mpr ⟨x, hx, ht⟩)
    cases hu' : y.trace with
    | none =>
      rw [hu'] at hfr'
      obtain rfl := Option.some.inj hfr'
      cases hzf
    | some u =>
      obtain ⟨z', hz', hzf'⟩ := callView_frames hu (Option.bind_eq_some_iff.mpr ⟨y, hy, hu'⟩)
      have hst := (h.call_trace c hc x t hx ht).1
      have hst' := (h.call_trace d hd y u hy hu').1
      have hsame : z.frames = z'.frames := Option.some.inj (hzf.symm.trans hzf')
      rw [h.keyed.frames_inj t u z z' hst hst' hz hz' (by rw [hsame])]

/-- Calls with the same backtrace have the same frames. -/
theorem frames_eq_of_trace {rd : Rd w} {c d : Nat} {v u : LogCall w} (hv : callView rd c = some v)
    (hu : callView rd d = some u)
    (htrace : (rd.fcall c).bind Fcall.trace = (rd.fcall d).bind Fcall.trace) :
    v.frames = u.frames := by
  obtain ⟨x, res, fr, hx, -, hfr, rfl⟩ := callView_eq_some.mp hv
  obtain ⟨y, res', fr', hy, -, hfr', rfl⟩ := callView_eq_some.mp hu
  rw [hx, hy] at htrace
  have hsame : x.trace = y.trace := htrace
  rw [hsame] at hfr
  exact Option.some.inj (hfr.symm.trans hfr')

/-- The same calls are the calls as the log shows them. -/
theorem sameCalls_iff {rd rd' : Rd w} (h' : rd'.Whole) {views views' : List (LogCall w)}
    (hv : List.Forall₂ (fun c v => callView rd c = some v) rd.calls views)
    (hv' : List.Forall₂ (fun c v => callView rd' c = some v) rd'.calls views') :
    SameCalls rd rd' ↔ views' = views.map shownCall := by
  constructor
  · intro hsame
    have heq : rd.calls.map (fun c => (callView rd c).map shownCall) = rd'.calls.map (callView rd') :=
      forall₂_map_eq hsame.calls fun c c' ⟨v, hview, hview'⟩ => by rw [hview, hview']; rfl
    have hleft : rd.calls.map (fun c => (callView rd c).map shownCall)
        = (views.map shownCall).map some := by
      rw [List.map_map]
      exact forall₂_map_eq hv fun c v hview => by rw [hview]; rfl
    have hright : rd'.calls.map (callView rd') = views'.map some :=
      forall₂_map_eq hv' fun c v hview => hview
    rw [hleft, hright] at heq
    exact (List.map_injective_iff.mpr (Option.some_injective _) heq).symm
  · rintro rfl
    rw [List.forall₂_map_right_iff] at hv'
    have hcalls := forall₂_trans hv hv'.flip
    refine ⟨hcalls, fun p hp q hq htrace => ?_⟩
    obtain ⟨-, hzip⟩ := List.forall₂_iff_zip.mp hcalls
    obtain ⟨v, hview, hview'⟩ := hzip hp
    obtain ⟨u, hother, hother'⟩ := hzip hq
    have hframes : v.frames = u.frames := frames_eq_of_trace hview hother htrace
    exact trace_eq_of_frames h' (List.of_mem_zip hp).2 (List.of_mem_zip hq).2 hview' hother' hframes

section RoundTrip

variable {rd : Rd w} {localtime : Int → Tm} {clock : Nat → BitVec 32} {opts : WriterOptions}
  {mktime : List (BitVec 32) → Int} {junk : Nat → Context w} {written : List (List Nat × Nat)}

/-- The calls of the groups are those of the store. -/
theorem groups_views_perm (h : LogFormat rd) (hwritten : writerGroups rd opts = some written) :
    ((written.map (logGroup rd)).flatMap LogGroup.views).Perm (storeViews rd) := by
  have hperm := (writerGroups_spec h.integrity h.table h.calls.hasTrace hwritten).1
  rw [List.flatMap_map]
  show (written.flatMap fun p => p.1.filterMap (callView rd)).Perm _
  rw [← List.filterMap_flatMap]
  exact hperm.filterMap (callView rd)

theorem groups_framed (h : LogFormat rd) (hwritten : writerGroups rd opts = some written) :
    ∀ g ∈ written.map (logGroup rd), g.Framed := by
  intro g hg
  obtain ⟨p, hp, rfl⟩ := List.mem_map.mp hg
  obtain ⟨hne, hcalls⟩ :=
    (writerGroups_spec h.integrity h.table h.calls.hasTrace hwritten).2 p hp
  exact (logGroup_of h.integrity h.calls hne hcalls).frames

/-- **Quiet groups come back in the order of the calls.** -/
theorem dlistSort_quiet (h : PlainLog rd) (hwritten : writerGroups rd opts = some written)
    (hquiet : QuietGroups rd.comments [] (written.map (logGroup rd))) :
    dlistSort compareLogCalls (readGroups rd.comments [] (written.map (logGroup rd)))
      = some ((storeViews rd).map shownCall) := by
  have hperm := (groups_views_perm h.toLogFormat hwritten).map shownCall
  rw [readGroups_quiet (groups_framed h.toLogFormat hwritten) hquiet]
  refine dlistSort_strict (compareLogCalls_orders fun v hv => ?_) hperm ?_
  · obtain ⟨u, hu, rfl⟩ := List.mem_map.mp (hperm.mem_iff.mp hv)
    obtain ⟨c, hc, hview⟩ := List.mem_filterMap.mp hu
    obtain ⟨u', hu', hcall⟩ := h.calls c hc
    obtain rfl := Option.some.inj (hview.symm.trans hu')
    exact ⟨hcall.time, hcall.index⟩
  · exact List.pairwise_map.mpr h.order

/-- Groups that a comment cuts do not come back. -/
theorem quiet_of_views (h : PlainLog rd) (hwritten : writerGroups rd opts = some written)
    (hperm : ((storeViews rd).map shownCall).Perm
      (readGroups rd.comments [] (written.map (logGroup rd)))) :
    QuietGroups rd.comments [] (written.map (logGroup rd)) := by
  by_contra hloud
  obtain ⟨g, hg, hne, v, hv, hcut⟩ := readGroups_cut hloud
  have hmem : v ∈ storeViews rd := (groups_views_perm h.toLogFormat hwritten).mem_iff.mp
    (List.mem_flatMap.mpr ⟨g, hg, hv⟩)
  obtain ⟨u, hu, heq⟩ := List.mem_map.mp (hperm.mem_iff.mpr hcut)
  -- the call that was cut off is the call itself
  have hplace : u.place = v.place := by
    have := congrArg LogCall.place heq
    exact this
  have hinj : ((storeViews rd).map LogCall.place).Nodup :=
    List.pairwise_map.mpr (h.order.imp ne_of_lt)
  obtain rfl := List.inj_on_of_nodup_map hinj hu hmem hplace
  have hframes : (shownCall u).frames = some [] := congrArg LogCall.frames heq
  change u.frames = some [] at hframes
  rw [groups_framed h.toLogFormat hwritten g hg u hv] at hframes
  exact hne (Option.some.inj hframes)

/-- The calls can be written if they fit. -/
theorem LogFits.writes (hw : 32 ≤ w) (hint : rd.Integrity) (hsize : 0 < rd.ftraces.size)
    (hfits : LogFits rd localtime clock opts) :
    ∃ pieces, writeTraceCalls rd opts clock = some pieces := by
  obtain ⟨blocks, hblocks⟩ := (callBlocks_total hint hsize).mpr hfits.writable
  exact writeTraceCalls_total hw hblocks hfits.comments

/-- What was written fits if its lines do. -/
theorem LogFits.of_pieces (hw : 32 ≤ w) (hint : rd.Integrity) (hsize : 0 < rd.ftraces.size)
    (henv : EnvFits rd localtime opts) {pieces : List Piece}
    (hpieces : writeTraceCalls rd opts clock = some pieces)
    (hcalls : ∀ c ∈ rd.calls, ∀ v ∈ callView rd c, CallBuffers v) :
    LogFits rd localtime clock opts := by
  obtain ⟨blocks, hblocks, htexts, -⟩ := writeTraceCalls_spec hw hpieces
  refine ⟨henv, (callBlocks_total hint hsize).mp ⟨blocks, hblocks⟩, fun c hc => ?_, hcalls⟩
  obtain ⟨text, -, htext⟩ := forall₂_mem_left (mapM_eq_some_iff.mp htexts) hc
  exact ⟨text, htext⟩

/-- The calls take the reader to those of the groups. -/
theorem takes_writtenCalls (junk : Nat → Context w) (hw : 32 ≤ w) (h : LogFormat rd)
    (hnames : NamesAgree rd)
    {pieces : List Piece} {env : LogEnv w} (hpieces : writeTraceCalls rd opts clock = some pieces)
    (hshort : ShortLines (piecesText pieces))
    (henv : env.resources = (storedResources rd).map shownResource) :
    Takes junk (piecesText pieces) (∀ c ∈ rd.calls, ∀ v ∈ callView rd c, CallBuffers v)
      (AtPlace ⟨env, [], []⟩) fun a => ∃ written, writerGroups rd opts = some written ∧
        AtPlace ⟨env, readGroups rd.comments [] (written.map (logGroup rd)), []⟩ a := by
  obtain ⟨written, hwritten, htakes⟩ :=
    takes_calls junk hw h.integrity h.table hnames henv h.lines.types h.calls h.comments hpieces hshort
  exact htakes.mono fun a ha => ⟨written, hwritten, ha⟩

/-- **What is read of a log**: everything has fit, and the calls are those
of the groups, sorted. -/
theorem readLog (hw : 32 ≤ w) (h : LogFormat rd) (hnames : NamesAgree rd) {text : Str} {rd' : Rd w}
    (hwrite : writeTraceLog rd localtime clock opts = some text) (hshort : ShortLines text)
    (hread : readTextData mktime junk rdCreate text = some rd') :
    LogFits rd localtime clock opts ∧ rd'.Whole ∧
      ∃ written sorted, writerGroups rd opts = some written ∧
        dlistSort compareLogCalls (readGroups rd.comments [] (written.map (logGroup rd))) = some sorted ∧
        List.Forall₂ (fun c v => callView rd' c = some v) rd'.calls sorted := by
  obtain ⟨henv, ⟨pieces, hpieces⟩, hcalls, env, -, a, sorted, st, ⟨written, hwritten, hat⟩, hsort, rfl,
    hshows⟩ := readLog_takes hw h.lines
      (fun pieces env hpieces hshort henv => takes_writtenCalls junk hw h hnames hpieces hshort henv)
      hwrite hshort hread
  have hfinish := LogState.At.finish hat
  have hviews := hshows.calls
  rw [show a.finish.pend = [] from LogState.finish_pend a, List.append_nil] at hviews
  rw [hfinish.done] at hsort
  exact ⟨.of_pieces hw h.integrity h.table henv hpieces hcalls, hshows.whole, written, sorted,
    hwritten, hsort, hviews⟩

/-- A log that fits can be written, and read if its calls can be sorted. -/
theorem readLog_total (hw : 32 ≤ w) (h : LogFormat rd) (hnames : NamesAgree rd)
    (hshort : ∀ text, writeTraceLog rd localtime clock opts = some text → ShortLines text)
    (hfits : LogFits rd localtime clock opts) :
    ∃ text written, writeTraceLog rd localtime clock opts = some text ∧
      writerGroups rd opts = some written ∧
      ∀ sorted, dlistSort compareLogCalls (readGroups rd.comments [] (written.map (logGroup rd)))
          = some sorted →
        ∃ rd', readTextData mktime junk rdCreate text = some rd' := by
  obtain ⟨pieces, hpieces⟩ := hfits.writes hw h.integrity h.table
  obtain ⟨text, hwrite, env, a, ⟨written, hwritten, hat⟩, htotal⟩ := readLog_takes_total hw h.lines
    (fun pieces env hpieces hshort henv => takes_writtenCalls junk hw h hnames hpieces hshort henv)
    hshort hfits.env hpieces hfits.calls
  have hfinish := LogState.At.finish hat
  refine ⟨text, written, hwrite, hwritten, fun sorted hsort => htotal sorted ?_⟩
  rw [hfinish.done]
  exact hsort

/-- A call for every backtrace of the table. -/
theorem exists_call_of_stored (h : rd.Integrity) {t : Nat} {y : Ftrace w} (hst : rd.StoredTrace t)
    (hy : rd.ftrace t = some y) : ∃ c ∈ rd.calls, (rd.fcall c).bind Fcall.trace = some t := by
  obtain ⟨r, hr⟩ := List.exists_mem_of_ne_nil _ (h.used t y hst hy)
  obtain ⟨c, hc, x, -, hx, htrace, -⟩ := (h.trace_calls t y hst hy).2.2 r hr
  exact ⟨c, hc, by rw [hx]; exact htrace⟩

/-- If the calls come back, so do the names of their frames: the reader has
one backtrace for a list of addresses. -/
theorem namesAgree_of_sameCalls {rd' : Rd w} (h : rd.Integrity) (h' : rd'.Whole)
    (hsame : SameCalls rd rd') : NamesAgree rd := by
  -- the backtrace that the calls of a stored one have come back with
  have hback : ∀ t y, rd.StoredTrace t → rd.ftrace t = some y →
      ∃ t' y', rd'.StoredTrace t' ∧ rd'.ftrace t' = some y' ∧ y'.frames = y.frames := by
    intro t y hst hy
    obtain ⟨c, hc, htrace⟩ := exists_call_of_stored h hst hy
    obtain ⟨c', hc', v, hv, hv'⟩ := forall₂_mem_left hsame.calls hc
    obtain ⟨z, hz, hframes⟩ := callView_frames hv htrace
    obtain rfl := Option.some.inj (hy.symm.trans hz)
    obtain ⟨t', htrace'⟩ := hasTrace_of_frames hv' hframes
    obtain ⟨x', hx', hxt'⟩ := Option.bind_eq_some_iff.mp htrace'
    obtain ⟨z', hz', hframes'⟩ := callView_frames hv' htrace'
    exact ⟨t', z', (h'.call_trace c' hc' x' t' hx' hxt').1, hz',
      Option.some.inj (hframes'.symm.trans hframes)⟩
  intro t u y z hst hst' hy hz haddr
  obtain ⟨t', y', ht', hy', hyf⟩ := hback t y hst hy
  obtain ⟨u', z', hu', hz', hzf⟩ := hback u z hst' hz
  have hsame' := namesAgree_of_keyed h'.keyed t' u' y' z' ht' hu' hy' hz' (by rw [hyf, hzf, haddr])
  rw [← hyf, ← hzf, hsame']

/-- A log that comes back fits, and no comment cuts it. -/
theorem fits_of_roundTrip (hw : 32 ≤ w) (h : PlainLog rd) {text : Str} {rd' : Rd w}
    (hwrite : writeTraceLog rd localtime clock opts = some text) (hshort : ShortLines text)
    (hread : readTextData mktime junk rdCreate text = some rd') (hsame : SameCalls rd rd') :
    LogFits rd localtime clock opts ∧ NamesAgree rd ∧ Quiet rd opts := by
  have hnames := namesAgree_of_sameCalls h.integrity (readTextLines_whole hread).1 hsame
  obtain ⟨hfits, hwhole, written, sorted, hwritten, hsort, hviews⟩ :=
    readLog hw h.toLogFormat hnames hwrite hshort hread
  refine ⟨hfits, hnames, fun written' hwritten' => ?_⟩
  obtain rfl := Option.some.inj (hwritten.symm.trans hwritten')
  refine quiet_of_views h hwritten ?_
  rw [← (sameCalls_iff hwhole h.calls.views hviews).mp hsame]
  exact dlistSort_perm hsort

/-- A log that fits and that no comment cuts comes back. -/
theorem roundTrip_of_fits (hw : 32 ≤ w) (h : PlainLog rd)
    (hshort : ∀ text, writeTraceLog rd localtime clock opts = some text → ShortLines text)
    (hfits : LogFits rd localtime clock opts) (hnames : NamesAgree rd) (hquiet : Quiet rd opts) :
    ∃ text rd', writeTraceLog rd localtime clock opts = some text ∧
      readTextData mktime junk rdCreate text = some rd' ∧ SameCalls rd rd' := by
  obtain ⟨text, written, hwrite, hwritten, htotal⟩ := readLog_total hw h.toLogFormat hnames hshort hfits
  have hsort := dlistSort_quiet h hwritten (hquiet written hwritten)
  obtain ⟨rd', hread⟩ := htotal _ hsort
  obtain ⟨-, hwhole, written', sorted, hwritten', hsort', hviews⟩ :=
    readLog hw h.toLogFormat hnames hwrite (hshort text hwrite) hread
  obtain rfl := Option.some.inj (hwritten.symm.trans hwritten')
  obtain rfl := Option.some.inj (hsort.symm.trans hsort')
  exact ⟨text, rd', hwrite, hread, (sameCalls_iff hwhole h.calls.views hviews).mpr rfl⟩

/-- **The calls come back** exactly if everything fits, backtraces with the
same addresses have the same names, and no comment cuts a call off from its
backtrace. -/
theorem logRoundTrip_iff (hw : 32 ≤ w) (mktime : List (BitVec 32) → Int) (junk : Nat → Context w)
    (localtime : Int → Tm) (clock : Nat → BitVec 32) (opts : WriterOptions) {rd : Rd w}
    (h : PlainLog rd)
    (hshort : ∀ text, writeTraceLog rd localtime clock opts = some text → ShortLines text) :
    (∃ text rd', writeTraceLog rd localtime clock opts = some text ∧
      readTextData mktime junk rdCreate text = some rd' ∧ SameCalls rd rd') ↔
    LogFits rd localtime clock opts ∧ NamesAgree rd ∧ Quiet rd opts := by
  constructor
  · intro ⟨text, rd', hwrite, hread, hsame⟩
    exact fits_of_roundTrip hw h hwrite (hshort text hwrite) hread hsame
  · intro ⟨hfits, hnames, hquiet⟩
    exact roundTrip_of_fits hw h hshort hfits hnames hquiet

end RoundTrip

/-! ## A comment inside a group -/

/-- Two calls from the same place with a comment between them. -/
def cutLog : Str :=
  ("process=p, pid=1\n<1> : memory (heap)\n1. f<memory>(8) = 0x10\n\t0x1000\n\n" ++
    "## note\n2. f<memory>(8) = 0x20\n\t0x1000\n\n").toList

def cutResource : Resource 64 :=
  { id := 1, type := "memory".toList, desc := "heap".toList, flags := 0, hide := false }

def cutCall (index : BitVec 32) (resId : BitVec 64) : LogCall 64 where
  record := { index, context := 0, timestamp := 0, name := ['f'], resType := .ref (some cutResource),
              type := ftypeAlloc, resSize := 8, resId }
  args := []
  frames := some [{ addr := 0x1000, name := none }]

def cutTime : Tm where
  year := 2012
  month := 1
  day := 1
  hour := 0
  minute := 0
  second := 0
  year_le := by decide
  month_le := by decide
  day_le := by decide
  hour_lt := by decide
  minute_lt := by decide
  second_le := by decide

theorem ShortLines.of_length {text : Str} (h : text.length < 4095) : ShortLines text := by
  intro front body back heq _
  have := congrArg List.length heq
  simp only [List.length_append] at this
  omega

theorem cutCall_plain {index : BitVec 32} (hindex : 0 < index.toInt) (resId : BitVec 64) :
    PlainCall [cutResource] (cutCall index resId) where
  kind := .inl rfl
  time := by
    show (0 : BitVec 32).toNat < 86400000
    decide
  index := hindex
  name := ⟨by simp [cutCall], by simp [cutCall]; decide, by simp [cutCall]⟩
  args := by simp [cutCall]
  frames := ⟨_, rfl, by simp⟩
  resource := ⟨cutResource, by simp, rfl,
    ⟨by decide, List.all_iff_forall_prop.mp (by decide), by decide⟩, by decide⟩

theorem cutCall_buffers (index : BitVec 32) (resId : BitVec 64) :
    CallBuffers (cutCall index resId) where
  name := show ['f'].length < 512 by decide
  type := fun type htype => by
    obtain rfl := Option.some.inj (Option.mem_def.mp htype)
    decide
  args := by simp [cutCall]

def cutStore : Option (Rd 64) := readTextData (fun _ => 0) (fun _ => ⟨0, []⟩) rdCreate cutLog

theorem cutStore_calls : cutStore.map (fun rd =>
    (rd.calls, rd.calls.map (callView rd), rd.comments, rd.resources.map rd.resource))
    = some ([1, 4], [some (cutCall 1 16), some (cutCall 2 32)], [⟨1, "## note\n".toList⟩],
      [some cutResource]) := by
  decide +kernel

/-- The resources and the names of a process `p` without files, modules,
contexts and mappings are in the format. -/
theorem bareStore_lines {rd : Rd 64} {arch origin : Option Str} (harch : ∀ x ∈ arch, '\n' ∉ x)
    (horigin : ∀ x ∈ origin, '\n' ∉ x)
    (hnames : (rd.hshake.bind Hshake.arch, rd.pinfo.bind Pinfo.name, rd.pinfo.bind Pinfo.traceOrigin)
      = (arch, some ['p'], origin))
    (hlists : (rd.files.length, rd.minfo.length, rd.contexts.length, rd.mmaps.length) = (0, 0, 0, 0))
    (hresources : rd.resources.map rd.resource = [some cutResource]) :
    storedResources rd = [cutResource] ∧ EnvLines rd := by
  simp only [Prod.mk.injEq, List.length_eq_zero_iff] at hnames hlists
  obtain ⟨rfl, hname, rfl⟩ := hnames
  obtain ⟨hfiles, hminfo, hcontexts, hmmaps⟩ := hlists
  have hstored : storedResources rd = [cutResource] := by
    have hmap : (rd.resources.map rd.resource).filterMap id = storedResources rd := List.filterMap_map
    rw [← hmap, hresources]
    rfl
  refine ⟨hstored, fun x hx y hy => harch y (Option.mem_bind_iff.mpr ⟨x, hx, hy⟩), fun x hx y hy => ?_,
    fun x hx y hy => horigin y (Option.mem_bind_iff.mpr ⟨x, hx, hy⟩), ?_, ?_, ?_, ?_, ?_, ?_, ?_⟩
  · rw [Option.mem_def.mp hx, Option.bind_some, Option.mem_def.mp hy] at hname
    rw [Option.some.inj hname]
    decide
  · simp [hfiles]
  · simp [hminfo]
  · simp [hcontexts]
  · intro r hr
    have hmem := List.mem_map_of_mem (f := rd.resource) hr
    rw [hresources, List.mem_singleton] at hmem
    exact ⟨_, hmem⟩
  · rw [hstored]
    intro res hres
    obtain rfl := List.mem_singleton.mp hres
    exact ⟨by decide, List.all_iff_forall_prop.mp (by decide), by decide, by decide, by decide,
      by decide, .inl rfl⟩
  · rw [hstored]
    simp
  · simp [hmmaps]

/-- The store has all that the format asks for. -/
theorem cutStore_plain {rd : Rd 64} (h : cutStore = some rd) : PlainLog rd ∧ NamesAgree rd := by
  have hstrings : cutStore.map (fun rd =>
      (rd.hshake.bind Hshake.arch, rd.pinfo.bind Pinfo.name, rd.pinfo.bind Pinfo.traceOrigin))
      = some (none, some ['p'], none) := by
    decide +kernel
  have hlists : cutStore.map (fun rd =>
      (rd.files.length, rd.minfo.length, rd.contexts.length, rd.mmaps.length))
      = some (0, 0, 0, 0) := by
    decide +kernel
  have hcalls := cutStore_calls
  rw [h] at hstrings hlists hcalls
  simp only [Option.map_some, Option.some.injEq] at hstrings hlists hcalls
  simp only [Prod.mk.injEq] at hcalls
  obtain ⟨hcalls, hviews, hcomments, hresources⟩ := hcalls
  obtain ⟨hstored, hlines⟩ := bareStore_lines (by simp) (by simp) hstrings hlists hresources
  have hread : readTextData (fun _ => 0) (fun _ => ⟨0, []⟩) rdCreate cutLog = some rd := h
  obtain ⟨hwhole, hsize⟩ := readTextLines_whole hread
  have hint := hwhole.integrity (hwhole.toLinked.counted (by simp [hcalls]))
  have hstore : storeViews rd = [cutCall 1 16, cutCall 2 32] := by
    have hmap : (rd.calls.map (callView rd)).filterMap id = storeViews rd := List.filterMap_map
    rw [← hmap, hviews]
    rfl
  refine ⟨⟨⟨hint, by rw [hsize]; decide, hlines, ?_, ?_⟩, ?_⟩, namesAgree_of_keyed hwhole.keyed⟩
  · intro c hc
    rw [hstored]
    have hmem := List.mem_map_of_mem (f := callView rd) hc
    rw [hviews] at hmem
    rcases List.mem_pair.mp hmem with heq | heq
    · exact ⟨_, heq, cutCall_plain (by decide) 16⟩
    · exact ⟨_, heq, cutCall_plain (by decide) 32⟩
  · rw [hcomments]
    intro c hc
    obtain rfl := List.mem_singleton.mp hc
    exact ⟨⟨" note\n".toList, rfl⟩, "## note".toList, rfl, by decide⟩
  · rw [hstore]
    decide

/-- A log that is not compressed has no comments inside its groups. -/
theorem quiet_plain {rd : Rd w} {opts : WriterOptions} (hplain : opts.compress = false) :
    Quiet rd opts := by
  intro written hwritten
  rw [writerGroups, hplain, if_neg (by decide), mapM_eq_some_iff] at hwritten
  have hone : ∀ g ∈ written.map (logGroup rd), g.views.length ≤ 1 := by
    intro g hg
    obtain ⟨p, hp, rfl⟩ := List.mem_map.mp hg
    obtain ⟨c, -, hc⟩ := forall₂_mem_right hwritten hp
    simp only [Option.bind_eq_bind, Option.bind_eq_some_iff, Option.some.injEq] at hc
    obtain ⟨_, -, _, -, rfl⟩ := hc
    exact List.length_filterMap_le (callView rd) [c]
  generalize written.map (logGroup rd) = groups at hone
  generalize ([] : List (LogCall w)) = before
  induction groups generalizing before with
  | nil => trivial
  | cons g groups ih =>
    refine ⟨.inr ?_, ih (fun g' hg' => hone g' (List.mem_cons_of_mem g hg')) _⟩
    have hlength := hone g (by simp)
    match hviews : g.views with
    | [] => simp [markCalls]
    | [v] => simp [markCalls]
    | v :: u :: views =>
      rw [hviews] at hlength
      simp at hlength

/-- What the log has to fit into, as it is computed. -/
theorem LogFits.of_checks {rd : Rd w} {tm : Tm} {clock : Nat → BitVec 32} {opts : WriterOptions}
    (hint : rd.Integrity) (hsize : 0 < rd.ftraces.size)
    (hheader : ((do
      let hshake ← rd.hshake
      let pinfo ← rd.pinfo
      let header ← spRtracePrintHeader [] (traceHeader rd hshake pinfo tm opts)
      some ((printInt pinfo.pid).length, (spRtraceParserParseHeader w header).isSome))
        : Option (Nat × Bool)) = some (1, true))
    (hrest : ((storedResources rd).all (fun res => (spRtracePrintResource res).isSome),
      (envRecords rd).all (fun p => (spRtraceParserParseRecord (w := w) recordAll p.2).isSome),
      (callBlocks rd opts clock).isSome) = (true, true, true))
    (hcomments : ∀ c ∈ visibleComments w rd.comments, ∃ text, printFormat c.text = some text)
    (hcalls : ∀ c ∈ rd.calls, ∀ v ∈ callView rd c, CallBuffers v) :
    LogFits rd (fun _ => tm) clock opts := by
  simp only [Prod.mk.injEq, Option.some.injEq, Option.bind_eq_bind, Option.bind_eq_some_iff,
    List.all_eq_true] at hheader hrest
  obtain ⟨hshake, hhs, pinfo, hpi, header, hprint, hpid, hfields⟩ := hheader
  obtain ⟨hresources, hrecords, hblocks⟩ := hrest
  exact ⟨⟨⟨hshake, pinfo, header, hhs, hpi, by omega, hprint, Option.isSome_iff_exists.mp hfields⟩,
    fun res hres => Option.isSome_iff_exists.mp (hresources res hres), hrecords⟩,
    (callBlocks_total hint hsize).mp (Option.isSome_iff_exists.mp hblocks), hcomments, hcalls⟩

/-- In the log everything fits. -/
theorem cutStore_fits {rd : Rd 64} (h : cutStore = some rd) :
    LogFits rd (fun _ => cutTime) (fun _ => 0) plainOptions := by
  have hheader : cutStore.map (fun rd => do
      let hshake ← rd.hshake
      let pinfo ← rd.pinfo
      let header ← spRtracePrintHeader [] (traceHeader rd hshake pinfo cutTime plainOptions)
      some ((printInt pinfo.pid).length, (spRtraceParserParseHeader 64 header).isSome))
      = some (some (1, true)) := by
    decide +kernel
  have hrest : cutStore.map (fun rd =>
      ((storedResources rd).all fun res => (spRtracePrintResource res).isSome,
        (envRecords rd).all fun p => (spRtraceParserParseRecord (w := 64) recordAll p.2).isSome,
        (callBlocks rd plainOptions fun _ => 0).isSome)) = some (true, true, true) := by
    decide +kernel
  have hcalls := cutStore_calls
  obtain ⟨hplain, -⟩ := cutStore_plain h
  rw [h] at hheader hrest hcalls
  simp only [Option.map_some, Option.some.injEq, Prod.mk.injEq] at hcalls
  obtain ⟨-, hviews, hcomments, -⟩ := hcalls
  refine .of_checks hplain.integrity hplain.table (Option.some.inj hheader) (Option.some.inj hrest)
    ?_ ?_
  · rw [hcomments]
    intro c hc
    obtain rfl := List.mem_singleton.mp hc
    exact ⟨"## note\n".toList, by decide⟩
  · intro c hc v hv
    have hmem := List.mem_map_of_mem (f := callView rd) hc
    rw [hviews, Option.mem_def.mp hv] at hmem
    rcases List.mem_pair.mp hmem with heq | heq
    · rw [Option.some.inj heq]
      exact cutCall_buffers 1 16
    · rw [Option.some.inj heq]
      exact cutCall_buffers 2 32

/-- Plain output brings the calls back: the comment is in front of the
second backtrace. -/
theorem logRoundTrip_iff_plain : ∃ rd : Rd 64, cutStore = some rd ∧
    ∃ text rd', writeTraceLog rd (fun _ => cutTime) (fun _ => 0) plainOptions = some text ∧
      readTextData (fun _ => 0) (fun _ => ⟨0, []⟩) rdCreate text = some rd' ∧ SameCalls rd rd' := by
  obtain ⟨rd, hrd, -⟩ := Option.map_eq_some_iff.mp cutStore_calls
  have hlength : cutStore.map (fun rd =>
      (writeTraceLog rd (fun _ => cutTime) (fun _ => 0) plainOptions).map List.length)
      = some (some 153) := by
    decide +kernel
  rw [hrd] at hlength
  refine ⟨rd, hrd, (logRoundTrip_iff (by decide) (fun _ => 0) (fun _ => ⟨0, []⟩) _ _ _
    (cutStore_plain hrd).1 fun text htext => .of_length ?_).mpr
    ⟨cutStore_fits hrd, (cutStore_plain hrd).2, quiet_plain rfl⟩⟩
  rw [Option.map_some, htext] at hlength
  obtain hlength : text.length = 153 := by simpa using hlength
  omega

/-- In compressed output the comment is between the two calls of the
backtrace, and the first one comes back without it. -/
theorem logRoundTrip_cut : ∃ rd : Rd 64, PlainLog rd ∧
    (∀ text, writeTraceLog rd (fun _ => cutTime) (fun _ => 0) compressOptions = some text →
      ShortLines text) ∧
    ¬ ∃ text rd', writeTraceLog rd (fun _ => cutTime) (fun _ => 0) compressOptions = some text ∧
      readTextData (fun _ => 0) (fun _ => ⟨0, []⟩) rdCreate text = some rd' ∧ SameCalls rd rd' := by
  have htrace : cutStore.map (fun rd => (rd.calls.map (fun c => (rd.fcall c).bind Fcall.trace),
      traceTotals rd 3, (traceCalls rd 3).filterMap (callView rd), (rd.ftrace 3).map Ftrace.frames))
      = some ([some 3, some 3], ⟨3, 2, 16⟩, [cutCall 1 16, cutCall 2 32],
        some [{ addr := 0x1000, name := none }]) := by
    decide +kernel
  have hlength : cutStore.map (fun rd =>
      (writeTraceEnvironment rd (fun _ => cutTime) compressOptions).bind fun environment =>
      (writeEach (writeCompressedBacktrace rd fun _ => 0) rd.comments [⟨3, 2, 16⟩]).bind fun each =>
      (writeComments (2 ^ 63 - 1) each.2).bind fun rest =>
      some (environment.flatten ++ ((each.1 ++ rest.1).map Piece.text).flatten).length)
      = some (some 213) := by
    decide +kernel
  have hcalls := cutStore_calls
  obtain ⟨rd, hrd, -⟩ := Option.map_eq_some_iff.mp cutStore_calls
  obtain ⟨hplain, -⟩ := cutStore_plain hrd
  rw [hrd] at htrace hlength hcalls
  simp only [Option.map_some, Option.some.injEq, Prod.mk.injEq] at htrace hcalls
  obtain ⟨htraces, htotals, hviews, hframes⟩ := htrace
  obtain ⟨hcalls, -, hcomments, -⟩ := hcalls
  have hsort : leaksSort rd compressOptions.compareLeaks = some [traceTotals rd 3] := by
    refine leaksSort_one hplain.integrity hplain.table (by simp [hcalls]) (fun c hc => ?_) _
    have hmem := List.mem_map_of_mem (f := fun c => (rd.fcall c).bind Fcall.trace) hc
    rw [htraces] at hmem
    simpa using hmem
  have hshort : ∀ text,
      writeTraceLog rd (fun _ => cutTime) (fun _ => 0) compressOptions = some text →
      ShortLines text := by
    intro text htext
    refine .of_length ?_
    rw [writeTraceLog, writeTraceCalls, if_pos (by decide), hsort, htotals] at htext
    simp only [Option.bind_eq_bind, Option.bind_eq_some_iff, Option.some.injEq, Prod.exists]
      at htext
    obtain ⟨env, henv, _, ⟨_, rfl, pieces, comment, heach, rest, _, hrest, rfl⟩, rfl⟩ := htext
    simp only [Option.map_some, henv, heach, hrest, Option.bind_some, Option.some.injEq] at hlength
    omega
  refine ⟨rd, hplain, hshort, fun hreread => ?_⟩
  obtain ⟨text, rd', hwrite, hread, hsame⟩ := hreread
  obtain ⟨-, -, hquiet⟩ := fits_of_roundTrip (by decide) hplain hwrite (hshort text hwrite) hread hsame
  have hgroups : writerGroups rd compressOptions = some [(traceCalls rd 3, 3)] := by
    rw [writerGroups, if_pos (by decide), hsort]
    rfl
  have hgroup : logGroup rd (traceCalls rd 3, 3)
      = ⟨[cutCall 1 16, cutCall 2 32], [{ addr := 0x1000, name := none }]⟩ := by
    rw [logGroup, hviews, hframes]
    rfl
  have hcut := hquiet _ hgroups
  rw [List.map_cons, List.map_nil, hgroup, hcomments] at hcut
  rcases hcut.1 with hnil | hfalse
  · cases hnil
  · revert hfalse
    decide

end SpRtrace.Postproc
