/-
SpRtrace.Postproc.EnvironmentRoundTrip — the environment of a log that is
written and read, with or without calls behind it.

The lines behind the environment are calls, comments and empty lines, which
leave it alone. So what is read of the environment is what its own lines
say, and that is `readEnvironment`. Only the contexts do not come back: a
record of the registry has no name and no number until the next use of its
memory.
-/
import SpRtrace.Postproc.LogRecords
import SpRtrace.Postproc.LogRoundTrip

namespace SpRtrace.Postproc

open SpRtrace.Lib SpRtrace.Common SpRtrace.Library

variable {w : Nat}

/-! ## The same environment -/

/-- The filters of the calls that are written: those of the object, and that
of this run. -/
def appliedFilters (rd : Rd w) (opts : WriterOptions) : BitVec 32 :=
  if opts.filterLeaks then rd.filter ||| filterMaskLeaks else rd.filter

/-- **The same environment.** The `hide` flag of a resource is not in the
log. -/
structure EnvironmentKept (rd rd' : Rd w) (opts : WriterOptions) : Prop where
  files : rd'.files = rd.files
  contexts : rd'.contexts = rd.contexts
  resources : rd'.resources.map rd'.resource = rd.resources.map fun r => (rd.resource r).map shownResource
  mmaps : rd'.mmaps = rd.mmaps
  arch : rd'.hshake.map Hshake.arch = rd.hshake.map Hshake.arch
  pid : rd'.pinfo.map Pinfo.pid = rd.pinfo.map Pinfo.pid
  name : rd'.pinfo.map Pinfo.name = rd.pinfo.map Pinfo.name
  depth : rd'.pinfo.map Pinfo.backtraceDepth = rd.pinfo.map Pinfo.backtraceDepth
  origin : rd'.pinfo.map Pinfo.traceOrigin = rd.pinfo.map Pinfo.traceOrigin
  filter : permanentFilters rd'.filter = permanentFilters (appliedFilters rd opts)

/-- A text of calls with their arguments and backtraces, comments and empty
lines. -/
def CallText (w : Nat) (tail : Str) : Prop :=
  ∃ lines : List Str, tail = lines.flatten ∧ ∀ line ∈ lines, IsLine 4095 line ∧
    ∃ ev : LogEvent w, lineEvent w line = some ev ∧ ev.OfCalls

/-- The environment can be written and comes back, whatever calls follow. -/
def EnvironmentComesBack (rd : Rd w) (localtime : Int → Tm) (opts : WriterOptions) : Prop :=
  ∃ env, writeTraceEnvironment rd localtime opts = some env ∧
    ∀ (mktime : List (BitVec 32) → Int) (junk : Nat → Context w) (tail : Str), CallText w tail →
      ∃ rd', readTextData mktime junk rdCreate (env.flatten ++ tail) = some rd' ∧
        EnvironmentKept rd rd' opts

/-- The header and the resources can be printed. -/
def EnvPrints (rd : Rd w) (localtime : Int → Tm) (opts : WriterOptions) : Prop :=
  (∃ hshake pinfo header, rd.hshake = some hshake ∧ rd.pinfo = some pinfo ∧
    (printInt pinfo.pid).length ≤ 7 ∧
    spRtracePrintHeader [] (traceHeader rd hshake pinfo (localtime pinfo.tvSec) opts) = some header) ∧
  ∀ res ∈ storedResources rd, ∃ line, spRtracePrintResource res = some line

theorem permanentFilters_applied {rd : Rd w} (h : rd.filter.toNat < 8) (opts : WriterOptions) :
    permanentFilters (headerFilter rd.filter opts) = permanentFilters (appliedFilters rd opts) := by
  unfold appliedFilters
  generalize rd.filter = filter at h
  obtain ⟨k, hk, rfl⟩ : ∃ k < 8, filter = BitVec.ofNat 32 k := ⟨filter.toNat, h, by simp⟩
  unfold headerFilter
  cases opts.compress <;> cases opts.filterLeaks <;> interval_cases k <;> decide

/-- The pointers of the registry lead to its resources. -/
theorem storedResources_map {rd : Rd w} (hlive : ∀ r ∈ rd.resources, ∃ res, rd.resource r = some res) :
    rd.resources.map (fun r => (rd.resource r).map shownResource)
      = ((storedResources rd).map shownResource).map some := by
  unfold storedResources
  generalize rd.resources = pointers at hlive
  induction pointers with
  | nil => rfl
  | cons r pointers ih =>
    obtain ⟨res, hres⟩ := hlive r (by simp)
    rw [List.map_cons, List.filterMap_cons_some hres, hres,
      ih fun r' hr' => hlive r' (List.mem_cons_of_mem r hr')]
    rfl

/-! ## Lines behind the environment -/

/-- The events of a text of calls. -/
theorem CallText.writes {tail : Str} (h : CallText w tail) :
    ∃ evs : List (LogEvent w), Writes w tail evs True ∧ (∀ ev ∈ evs, ev.OfCalls) ∧ ShortLines tail := by
  obtain ⟨lines, rfl, hlines⟩ := h
  have hshort := shortLines_flatten fun l hl => (hlines l hl).1
  suffices hevs : ∃ evs : List (LogEvent w), Writes w lines.flatten evs True ∧
      ∀ ev ∈ evs, ev.OfCalls by
    obtain ⟨evs, hwrites, hall⟩ := hevs
    exact ⟨evs, hwrites, hall, hshort⟩
  clear hshort
  induction lines with
  | nil => exact ⟨[], .nil, by simp⟩
  | cons line lines ih =>
    obtain ⟨⟨body, rfl, hno, hlen⟩, ev, hev, hcalls⟩ := hlines line (by simp)
    obtain ⟨evs, hwrites, hall⟩ := ih fun l hl => hlines l (List.mem_cons_of_mem _ hl)
    have hone : Writes w (body ++ ['\n']) [ev] True := .line_some ⟨body, rfl, hno⟩ hev
    refine ⟨ev :: evs, (hone.append hwrites).congr (by simp), ?_⟩
    intro e he
    rcases List.mem_cons.mp he with rfl | he
    · exact hcalls
    · exact hall e he

/-- What is read of an environment with calls behind it. -/
theorem CallText.read (rd₀ : Rd w) {env evs : List (LogEvent w)} (junk : Nat → Context w)
    (hevs : ∀ ev ∈ evs, ev.OfCalls) (henv : ∀ ev ∈ env, ∃ rec line, ev = .record rec line) :
    (textLog junk rd₀ (env ++ evs)).env
      = ((LogState.init rd₀.hshake rd₀.pinfo rd₀.filter).run junk env).env ∧
    ∃ done, dlistSort compareLogCalls (textLog junk rd₀ (env ++ evs)).done = some done := by
  constructor
  · rw [textLog, LogState.finish_env, LogState.run_append, LogState.run_calls_env hevs]
  · have hplaced : ∀ call ∈ (textLog junk rd₀ (env ++ evs)).records, Placed call := by
      rw [textLog, LogState.finish_records]
      refine LogState.run_placed (fun ev hev => ?_) (by simp [LogState.records, LogState.init])
      rcases List.mem_append.mp hev with hev | hev
      · exact .inr (henv ev hev)
      · exact .inl (hevs ev hev)
    have horders : OrdersBy compareLogCalls LogCall.place (textLog junk rd₀ (env ++ evs)).done :=
      compareLogCalls_orders fun v hv => hplaced v.record
        (List.mem_map_of_mem (List.mem_append_left _ hv))
    obtain ⟨done, hsort, -⟩ := dlistSort_sorts horders
    exact ⟨done, hsort⟩

section Environment

variable {rd : Rd w} {localtime : Int → Tm} {opts : WriterOptions}

/-- **An environment without contexts comes back** if it can be printed and
fits the buffers of the parser. -/
theorem environment_comesBack (hw : 32 ≤ w) (hwords : EnvWords rd) (hnil : rd.contexts = [])
    (hprints : EnvPrints rd localtime opts) (hbuffers : EnvBuffers rd)
    (hshort : ∀ env, writeTraceEnvironment rd localtime opts = some env → ShortLines env.flatten) :
    EnvironmentComesBack rd localtime opts := by
  obtain ⟨⟨hshake, pinfo, header, hhs, hpi, hpid, hheader⟩, hprint⟩ := hprints
  have hwrite := (writeTraceEnvironment_iff hwords.resources_live).mpr
    ⟨hshake, pinfo, header, hhs, hpi, hpid, hheader, hprint, rfl⟩
  refine ⟨_, hwrite, fun mktime junk tail htail => ?_⟩
  obtain ⟨-, hbody⟩ := (hshort _ hwrite).of_append
  have hline := traceHeader_newline hwords.lines hhs hpi hheader
  obtain ⟨rd₀, hparse, hkept⟩ := parseHeader_environment hw mktime hwords hhs hpi hheader
  obtain ⟨evs, hwrites, hevs, htailShort⟩ := htail.writes
  have henv := writes_environment hw hwords hprint hbody
  obtain ⟨hread, htotal⟩ := readTextData_writes junk hline hparse (henv.append hwrites)
    (henv.shortLines_append hwrites hbody htailShort)
  have hrecords : ∀ ev ∈ (envRecords rd).map recordLine,
      ∃ (rec : Record w) (line : Str), ev = .record rec line := by
    intro ev hev
    obtain ⟨p, -, rfl⟩ := List.mem_map.mp hev
    exact ⟨p.1, p.2, rfl⟩
  obtain ⟨hafter, done, hsort⟩ := CallText.read rd₀ junk hevs hrecords
  obtain ⟨rd', hrd'⟩ := htotal ⟨hbuffers, trivial⟩ done hsort
  obtain ⟨-, done', st, -, rfl, hshows⟩ := hread rd' hrd'
  refine ⟨st.rd, by rw [List.flatten_cons, List.append_assoc]; exact hrd', ?_⟩
  -- the reader has the environment of the object
  obtain ⟨contexts, hadd, hcontexts⟩ := readEnvironment junk hwords rd₀
  have hat : ((LogState.init rd₀.hshake rd₀.pinfo rd₀.filter).run junk
      ((envRecords rd).map recordLine)).At _ [] [] :=
    LogState.At.records (.of_args rfl rfl rfl rfl rfl) (envRecords rd)
  have hfinal := hafter.trans (hat.env.trans hadd)
  have hresources : st.rd.resources.map st.rd.resource
      = ((storedResources rd).map shownResource).map some :=
    (forall₂_map_eq hshows.resources fun _ _ h => h).trans
      (congrArg (List.map some) (congrArg LogEnv.resources hfinal))
  have hhshake : st.rd.hshake = rd₀.hshake :=
    hshows.hshake.trans (congrArg LogEnv.hshake hfinal)
  have hpinfo : st.rd.pinfo = rd₀.pinfo := hshows.pinfo.trans (congrArg LogEnv.pinfo hfinal)
  have hfilter : st.rd.filter = rd₀.filter := hshows.filter.trans (congrArg LogEnv.filter hfinal)
  constructor
  · exact hshows.files.trans (congrArg LogEnv.files hfinal)
  · rw [hnil, ← hcontexts hnil]
    exact hshows.contexts.trans (congrArg LogEnv.contexts hfinal)
  · rw [hresources, storedResources_map hwords.resources_live]
  · exact hshows.mmaps.trans (congrArg LogEnv.mmaps hfinal)
  · rw [hhshake, hkept.arch]
  · rw [hpinfo, hkept.pid]
  · rw [hpinfo, hkept.name]
  · rw [hpinfo, hkept.depth]
  · rw [hpinfo, hkept.origin]
  · rw [hfilter, hkept.filter, permanentFilters_applied hwords.filter]

/-- An environment with contexts does not come back: the two runs read what
was in the memory. -/
theorem contexts_nil_of_comesBack (h : EnvironmentComesBack rd localtime opts) :
    rd.contexts = [] := by
  obtain ⟨env, -, hback⟩ := h
  have hempty : CallText w [] := ⟨[], rfl, by simp⟩
  have hall : ∀ (context : Context w), ∀ c ∈ rd.contexts, c = context := by
    intro context c hc
    obtain ⟨rd', hread, hkept⟩ := hback (fun _ => 0) (fun _ => context) [] hempty
    rw [← hkept.contexts] at hc
    rcases readTextData_log hread with ⟨-, rfl⟩ | ⟨_, _, rd₀, evs, st, _, -, -, -, -, rfl, hshows⟩
    · cases hc
    · rw [hshows.contexts] at hc
      have hfinish := congrArg LogEnv.contexts (LogState.finish_env
        ((LogState.init rd₀.hshake rd₀.pinfo rd₀.filter).run (fun _ => context) evs))
      change c ∈ (textLog (fun _ => context) rd₀ evs).env.contexts at hc
      rw [textLog, hfinish] at hc
      rcases LogState.run_contexts _ _ evs c hc with hinit | ⟨_, hc⟩
      · cases hinit
      · exact hc
  cases hcontexts : rd.contexts with
  | nil => rfl
  | cons c contexts =>
    have hmem : c ∈ rd.contexts := by rw [hcontexts]; simp
    have hone := (hall ⟨0, []⟩ c hmem).symm.trans (hall ⟨0, ['m']⟩ c hmem)
    cases hone

theorem prints_of_comesBack (hwords : EnvWords rd) (h : EnvironmentComesBack rd localtime opts) :
    EnvPrints rd localtime opts := by
  obtain ⟨env, hwrite, -⟩ := h
  obtain ⟨hshake, pinfo, header, hhs, hpi, hpid, hheader, hprint, -⟩ :=
    (writeTraceEnvironment_iff hwords.resources_live).mp hwrite
  exact ⟨⟨hshake, pinfo, header, hhs, hpi, hpid, hheader⟩, hprint⟩

/-- What comes back fits the buffers of the parser. -/
theorem buffers_of_comesBack (hw : 32 ≤ w) (hwords : EnvWords rd)
    (h : EnvironmentComesBack rd localtime opts)
    (hshort : ∀ env, writeTraceEnvironment rd localtime opts = some env → ShortLines env.flatten) :
    EnvBuffers rd := by
  obtain ⟨env, hwrite, hback⟩ := h
  obtain ⟨hshake, pinfo, header, hhs, hpi, hpid, hheader, hprint, rfl⟩ :=
    (writeTraceEnvironment_iff hwords.resources_live).mp hwrite
  obtain ⟨rd', hread, -⟩ := hback (fun _ => 0) (fun _ => ⟨0, []⟩) [] ⟨[], rfl, by simp⟩
  rw [List.append_nil, List.flatten_cons] at hread
  obtain ⟨-, hbody⟩ := (hshort _ hwrite).of_append
  obtain ⟨rd₀, hparse, -⟩ := parseHeader_environment hw (fun _ => 0) hwords hhs hpi hheader
  obtain ⟨hfits, -⟩ := (readTextData_writes _ (traceHeader_newline hwords.lines hhs hpi hheader)
    hparse (writes_environment hw hwords hprint hbody) hbody).1 rd' hread
  exact hfits

/-- **The environment comes back** only without contexts, and if it can be
printed; if its lines are short, then exactly if it also fits the buffers of
the parser. -/
theorem environmentRoundTrip_iff (hw : 32 ≤ w) (localtime : Int → Tm) (opts : WriterOptions)
    {rd : Rd w} (hwords : EnvWords rd) :
    (EnvironmentComesBack rd localtime opts → rd.contexts = [] ∧ EnvPrints rd localtime opts) ∧
    ((∀ env, writeTraceEnvironment rd localtime opts = some env → ShortLines env.flatten) →
      (EnvironmentComesBack rd localtime opts ↔
        rd.contexts = [] ∧ EnvPrints rd localtime opts ∧ EnvBuffers rd)) := by
  refine ⟨fun h => ⟨contexts_nil_of_comesBack h, prints_of_comesBack hwords h⟩, fun hshort => ?_⟩
  constructor
  · intro h
    exact ⟨contexts_nil_of_comesBack h, prints_of_comesBack hwords h,
      buffers_of_comesBack hw hwords h hshort⟩
  · intro ⟨hnil, hprints, hbuffers⟩
    exact environment_comesBack hw hwords hnil hprints hbuffers hshort

end Environment

/-! ## An environment with a context -/

def envHshake : Hshake where
  vmajor := 0
  vminor := 0
  arch := some "x86_64".toList
  endianness := 0
  pointerSize := 8

def envPinfo : Pinfo where
  pid := 7
  backtraceDepth := 5
  name := some ['p']
  tvSec := 0
  tvUsec := 0
  traceOrigin := some "tracer".toList

/-- An environment with one record of each kind, and the given contexts. -/
def envStore (contexts : List (Context 64)) : Rd 64 :=
  { rdCreate with
    hshake := some envHshake
    pinfo := some envPinfo
    files := [{ name := "smaps".toList, path := "/tmp/smaps".toList }]
    contexts
    resource := fun r => if r = 0 then some cutResource else none
    resources := [0]
    mmaps := [{ fromAddr := 0x1000, toAddr := 0x2000, moduleName := "/lib/libc.so".toList }]
    filter := filterMaskLeaks }

theorem envWord_of {s : Str} (hne : s ≠ []) (h : s.all fun c => !isSpace c && !(c ∈ [',', '(', ')'])) :
    EnvWord s := by
  refine ⟨hne, fun c hc => ?_⟩
  have := List.all_eq_true.mp h c hc
  simpa using this

theorem envStore_words {contexts : List (Context 64)} (h : ∀ c ∈ contexts, '\n' ∉ c.name) :
    EnvWords (envStore contexts) := by
  have hstored : storedResources (envStore contexts) = [cutResource] := rfl
  refine ⟨?_, ?_, ?_, show filterMaskLeaks.toNat < 8 by decide, ?_,
    by simp [envStore, rdCreate], h, ?_, ?_, ?_, ?_⟩
  · intro hshake hhs arch harch
    obtain rfl := Option.some.inj hhs
    obtain rfl := Option.some.inj harch
    exact envWord_of (by decide) (by decide)
  · intro pinfo hpi name hname
    obtain rfl := Option.some.inj hpi
    obtain rfl := Option.some.inj hname
    exact envWord_of (by decide) (by decide)
  · intro pinfo hpi origin horigin
    obtain rfl := Option.some.inj hpi
    obtain rfl := Option.some.inj horigin
    exact envWord_of (by decide) (by decide)
  · intro file hfile
    obtain rfl := List.mem_singleton.mp hfile
    exact ⟨envWord_of (by decide) (by decide), envWord_of (by decide) (by decide)⟩
  · intro r hr
    obtain rfl := List.mem_singleton.mp hr
    exact ⟨cutResource, rfl⟩
  · rw [hstored]
    intro res hres
    obtain rfl := List.mem_singleton.mp hres
    exact ⟨envWord_of (by decide) (by decide), envWord_of (by decide) (by decide), by decide,
      by decide, .inl rfl⟩
  · rw [hstored]
    decide
  · intro mmap hmmap
    obtain rfl := List.mem_singleton.mp hmmap
    exact envWord_of (by decide) (by decide)

theorem envStore_prints (contexts : List (Context 64)) :
    EnvPrints (envStore contexts) (fun _ => cutTime) plainOptions := by
  have hheader : (spRtracePrintHeader []
      (traceHeader (envStore []) envHshake envPinfo cutTime plainOptions)).isSome = true := by
    decide +kernel
  obtain ⟨header, hprint⟩ := Option.isSome_iff_exists.mp hheader
  have hsame : traceHeader (envStore contexts) envHshake envPinfo cutTime plainOptions
      = traceHeader (envStore []) envHshake envPinfo cutTime plainOptions := rfl
  have hpid : (printInt envPinfo.pid).length ≤ 7 := by decide
  refine ⟨⟨envHshake, envPinfo, header, rfl, rfl, hpid, by rw [hsame]; exact hprint⟩,
    fun res hres => ?_⟩
  change res ∈ [cutResource] at hres
  obtain rfl := List.mem_singleton.mp hres
  exact Option.isSome_iff_exists.mp (by decide +kernel)

theorem envStore_short (contexts : List (Context 64)) {length : Nat} (hlength : length < 4095)
    (heval : (writeTraceEnvironment (envStore contexts) (fun _ => cutTime) plainOptions).map
      (fun env => env.flatten.length) = some length) :
    ∀ env, writeTraceEnvironment (envStore contexts) (fun _ => cutTime) plainOptions = some env →
      ShortLines env.flatten := by
  intro env henv
  refine .of_length ?_
  rw [henv] at heval
  have : env.flatten.length = length := Option.some.inj heval
  omega

/-- Without contexts it comes back. -/
theorem environmentRoundTrip_iff_envStore :
    EnvironmentComesBack (envStore []) (fun _ => cutTime) plainOptions := by
  have hshort := envStore_short [] (by decide : 195 < 4095) (by decide +kernel)
  have hbuffers : EnvBuffers (envStore []) :=
    ⟨by decide +kernel, by decide +kernel, by decide +kernel⟩
  exact ((environmentRoundTrip_iff (by decide) _ _ (envStore_words (by simp))).2 hshort).mpr
    ⟨rfl, envStore_prints [], hbuffers⟩

/-- The context `main` does not come back. -/
theorem environmentRoundTrip_context : ∃ rd : Rd 64, EnvWords rd ∧ EnvBuffers rd ∧
    EnvPrints rd (fun _ => cutTime) plainOptions ∧
    (∀ env, writeTraceEnvironment rd (fun _ => cutTime) plainOptions = some env →
      ShortLines env.flatten) ∧
    ¬ EnvironmentComesBack rd (fun _ => cutTime) plainOptions := by
  have hshort := envStore_short [⟨1, "main".toList⟩] (by decide : 206 < 4095)
    (by decide +kernel)
  refine ⟨envStore [⟨1, "main".toList⟩], envStore_words (by decide),
    ⟨by decide +kernel, by decide +kernel, by decide +kernel⟩, envStore_prints _, hshort, fun hback => ?_⟩
  have hnil := contexts_nil_of_comesBack hback
  cases hnil

end SpRtrace.Postproc
