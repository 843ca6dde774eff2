/-
SpRtrace.Timeline.Separation — one resource of a log with several.

A log is run twice, as it is and without the records of all resources but
one. The registries are apart by the names of the resources, but the data
of the report is keyed by their type ids, and the text of a log goes through
`ffs` twice on its way to them. `Alike` relates the two runs, and
`totalsApart_iff` says when the data of every resource is the same in both.
-/
import SpRtrace.Timeline.ContextTotals

namespace SpRtrace.Timeline

open SpRtrace.Lib SpRtrace.Common SpRtrace.Library SpRtrace.Postproc

variable {w : Nat}

/-! ## The totals generator on a file -/

/-- The totals generator behind the lines of a file. -/
def fileTotals (w : Nat) (lines : List Str) : Option TotalsGenerator :=
  match parseFile (w := w) .none .new lines with
  | .error _ => none
  | .ok result => totals result.2

/-- What one record does to the processor and to the generator. -/
def totalsStep (s : Processor w × TotalsGenerator) (record : Record w) :
    Option (Processor w × TotalsGenerator) :=
  match parseRecord .none s.1 record with
  | .error _ => none
  | .ok (p, none) => some (p, s.2)
  | .ok (p, some outcome) => (s.2.feed outcome.reports).map fun g => (p, g)

theorem totalsStep_foldlM (records : List (Record w)) (p : Processor w) (g : TotalsGenerator) :
    (records.foldlM totalsStep (p, g)).map Prod.snd =
      (parseRecords .none p records).toOption.bind fun result =>
        result.2.foldlM (fun g outcome => g.feed outcome.reports) g := by
  induction records generalizing p g with
  | nil => rfl
  | cons record records ih =>
    rw [List.foldlM_cons, parseRecords, totalsStep]
    cases hrecord : parseRecord .none p record with
    | error e => simp [bind, Except.bind, Except.toOption]
    | ok result =>
      obtain ⟨p', outcome⟩ := result
      cases outcome with
      | none =>
        simp only [Option.bind_some, ih, bind, Except.bind]
        cases parseRecords .none p' records <;> rfl
      | some outcome =>
        cases hfeed : g.feed outcome.reports with
        | none =>
          simp only [hfeed, Option.map_none, bind, Except.bind]
          cases parseRecords .none p' records with
          | error e => rfl
          | ok rest => simp [Except.toOption, hfeed]
        | some g' =>
          simp only [hfeed, Option.map_some, Option.bind_eq_bind, Option.bind_some, ih]
          cases hrest : parseRecords .none p' records with
          | error e => simp [bind, Except.bind, Except.toOption, hrest]
          | ok rest => simp [bind, Except.bind, Except.toOption, hfeed, hrest]

/-- The lines of a file are handled as the records they are read as. -/
theorem fileTotals_records {lines : List Str} {records : List (Record w)}
    (h : lines.map (spRtraceParserParseRecord parserMask) = records.map some) :
    fileTotals w lines = (records.foldlM totalsStep (.new, .new)).map Prod.snd := by
  rw [totalsStep_foldlM, fileTotals, parseFile_records h]
  cases parseRecords .none (.new : Processor w) records <;> rfl

/-! ## Reports touch the data of their own type -/

/-- The type id that a report is about. -/
def Report.typeId : Report w → BitVec 32
  | .alloc resource _ => resource.typeId
  | .allocInContext resource _ _ => resource.typeId
  | .free resource _ _ => resource.typeId
  | .freeInContext resource _ _ _ => resource.typeId
  | .unfreedAlloc resource _ => resource.typeId

theorem resources_setData (g : TotalsGenerator) (resource : Resource) (rd : ResourceData)
    (t : BitVec 32) : (g.setData resource rd).resources[t]?
      = if t = resource.typeId then some rd else g.resources[t]? := by
  rw [TotalsGenerator.setData]
  dsimp only
  rw [Std.TreeMap.getElem?_insert]
  by_cases ht : t = resource.typeId
  · rw [if_pos (Std.LawfulEqCmp.compare_eq_iff_eq.mpr ht.symm), if_pos ht]
  · rw [if_neg (fun heq => ht (Std.LawfulEqCmp.compare_eq_iff_eq.mp heq).symm), if_neg ht]

theorem getData_congr {g k : TotalsGenerator} {resource : Resource}
    (h : g.resources[resource.typeId]? = k.resources[resource.typeId]?) :
    g.getData resource = k.getData resource := by
  unfold TotalsGenerator.getData
  rw [Std.TreeMap.getD_eq_getD_getElem?, Std.TreeMap.getD_eq_getD_getElem?, h]

/-- What a report does with a generator, seen at the type id `t`: another
type is not touched, and its own data depends on nothing else. -/
structure ActsAt (t : BitVec 32) (own : Prop) (g k g' k' : TotalsGenerator) : Prop where
  other : ¬ own → g'.resources[t]? = g.resources[t]?
  same : own → g.resources[t]? = k.resources[t]? → g'.resources[t]? = k'.resources[t]?

theorem ActsAt.trans {t : BitVec 32} {own : Prop} {g k g₁ k₁ g₂ k₂ : TotalsGenerator}
    (h : ActsAt t own g k g₁ k₁) (h' : ActsAt t own g₁ k₁ g₂ k₂) : ActsAt t own g k g₂ k₂ :=
  ⟨fun hown => (h'.other hown).trans (h.other hown), fun hown heq => h'.same hown (h.same hown heq)⟩

/-- Data of a resource that is computed from its data. -/
theorem actsAt_setData (t : BitVec 32) (resource : Resource) (f : ResourceData → ResourceData)
    {g k g' k' : TotalsGenerator}
    (hg : g'.resources = (g.setData resource (f (g.getData resource))).resources)
    (hk : k'.resources = (k.setData resource (f (k.getData resource))).resources) :
    ActsAt t (resource.typeId = t) g k g' k' := by
  refine ⟨fun hown => ?_, fun hown heq => ?_⟩
  · rw [hg, resources_setData, if_neg fun ht => hown ht.symm]
  · rw [hg, hk, resources_setData, resources_setData, if_pos hown.symm, if_pos hown.symm]
    subst hown
    rw [getData_congr heq]

theorem actsAt_allocInContext (t : BitVec 32) (resource : Resource) (context : Context)
    (event : Event w) (g k : TotalsGenerator) :
    ActsAt t (resource.typeId = t) g k (g.reportAllocInContext resource context event)
      (k.reportAllocInContext resource context event) :=
  actsAt_setData t resource (fun rd => rd.setData context ((rd.getData context).writeTotal
    resource.name event.timestamp ((rd.getData context).total + event.resSize.setWidth 32))) rfl rfl

theorem actsAt_freeInContext (t : BitVec 32) (resource : Resource) (context : Context)
    (event : Event w) (g k : TotalsGenerator) :
    ActsAt t (resource.typeId = t) g k (g.reportFreeInContext resource context event)
      (k.reportFreeInContext resource context event) :=
  actsAt_setData t resource (fun rd => rd.setData context ((rd.getData context).writeTotal
    resource.name event.timestamp ((rd.getData context).total - event.resSize.setWidth 32))) rfl rfl

/-- The statistics, the overhead and the count of an allocation. -/
def ResourceData.allocated (rd : ResourceData) (resource : Resource) (event : Event w) :
    ResourceData :=
  (({ rd with stats := rd.stats.alloc (event.resSize.setWidth 32) event.timestamp }).writeOverhead
    resource event.timestamp
    (rd.overhead + (event.resSize.setWidth 32 + BitVec.ofNat 32 resource.overhead))).countAlloc
    event.timestamp

/-- The generator gives up for the event alone. -/
theorem reportAlloc_isSome (g : TotalsGenerator) (resource : Resource) (event : Event w) :
    (g.reportAlloc resource event).isSome = decide (event.timestamp ≠ 0) := by
  rw [TotalsGenerator.reportAlloc]
  split
  next h => rw [decide_eq_false (not_not.mpr h)]; rfl
  next h => rw [decide_eq_true h]; rfl

theorem actsAt_alloc (t : BitVec 32) {resource : Resource} {event : Event w}
    {g k g' k' : TotalsGenerator} (hg : g.reportAlloc resource event = some g')
    (hk : k.reportAlloc resource event = some k') :
    ActsAt t (resource.typeId = t) g k g' k' := by
  have hstamp : event.timestamp ≠ 0 := by
    have hsome := reportAlloc_isSome g resource event
    rw [hg] at hsome
    exact of_decide_eq_true hsome.symm
  rw [TotalsGenerator.reportAlloc, if_neg hstamp] at hg hk
  obtain rfl := Option.some.inj hg
  obtain rfl := Option.some.inj hk
  have hfiles : ActsAt t (resource.typeId = t) g k
      (g.setData resource ((g.getData resource).createFiles resource))
      (k.setData resource ((k.getData resource).createFiles resource)) :=
    actsAt_setData t resource (fun rd => rd.createFiles resource) rfl rfl
  have hcontext := hfiles.trans (actsAt_allocInContext t resource contextAll event _ _)
  exact hcontext.trans (actsAt_setData t resource (fun rd => rd.allocated resource event) rfl rfl)

theorem actsAt_free (t : BitVec 32) (resource : Resource) (event : Event w)
    (g k : TotalsGenerator) :
    ActsAt t (resource.typeId = t) g k (g.reportFree resource event)
      (k.reportFree resource event) :=
  (actsAt_freeInContext t resource contextAll event g k).trans
    (actsAt_setData t resource (fun rd =>
      ({ rd with stats := rd.stats.free (event.resSize.setWidth 32) }).writeOverhead resource
        event.timestamp
        (rd.overhead - (event.resSize.setWidth 32 + BitVec.ofNat 32 resource.overhead))) rfl rfl)

/-- One report, for two generators. -/
theorem report_actsAt (t : BitVec 32) {report : Report w} {g k g' : TotalsGenerator}
    (hg : g.report report = some g') :
    ∃ k', k.report report = some k' ∧ ActsAt t (report.typeId = t) g k g' k' := by
  cases report with
  | alloc resource event =>
    have hsome : (k.reportAlloc resource event).isSome = (g.reportAlloc resource event).isSome := by
      rw [reportAlloc_isSome, reportAlloc_isSome]
    rw [show g.reportAlloc resource event = some g' from hg] at hsome
    obtain ⟨k', hk⟩ := Option.isSome_iff_exists.mp hsome
    exact ⟨k', hk, actsAt_alloc t hg hk⟩
  | allocInContext resource context event =>
    obtain rfl := Option.some.inj hg
    exact ⟨_, rfl, actsAt_allocInContext t resource context event g k⟩
  | free resource event allocEvent =>
    obtain rfl := Option.some.inj hg
    exact ⟨_, rfl, actsAt_free t resource event g k⟩
  | freeInContext resource context event allocEvent =>
    obtain rfl := Option.some.inj hg
    exact ⟨_, rfl, actsAt_freeInContext t resource context event g k⟩
  | unfreedAlloc resource event =>
    obtain rfl := Option.some.inj hg
    exact ⟨k, rfl, fun _ => rfl, fun _ heq => heq⟩

/-- The reports of a call, which are all about one type. -/
theorem feed_actsAt (t : BitVec 32) {own : Prop} {reports : List (Report w)}
    (hown : ∀ report ∈ reports, report.typeId = t ↔ own) {g k g' : TotalsGenerator}
    (hg : g.feed reports = some g') :
    ∃ k', k.feed reports = some k' ∧ ActsAt t own g k g' k' := by
  induction reports generalizing g k with
  | nil =>
    obtain rfl := Option.some.inj hg
    exact ⟨k, rfl, fun _ => rfl, fun _ heq => heq⟩
  | cons report reports ih =>
    rw [TotalsGenerator.feed, List.foldlM_cons] at hg
    obtain ⟨g₁, hfirst, hrest⟩ := Option.bind_eq_some_iff.mp hg
    obtain ⟨k₁, hk₁, hacts⟩ := report_actsAt t (k := k) hfirst
    obtain ⟨k', hk', hacts'⟩ :=
      ih (fun report hreport => hown report (List.mem_cons_of_mem _ hreport)) hrest (k := k₁)
    refine ⟨k', ?_, ?_⟩
    · rw [TotalsGenerator.feed, List.foldlM_cons, hk₁]
      exact hk'
    · have hiff := hown report (List.mem_cons_self ..)
      exact (⟨fun hnot => hacts.other fun h => hnot (hiff.mp h),
        fun h heq => hacts.same (hiff.mpr h) heq⟩ : ActsAt t own g k g₁ k₁).trans hacts'

/-! ## Records of a resource -/

/-- The name of the resource that a record is about. -/
def recordName : Record w → Option Str
  | .call call => resTypeName call.resType
  | .resource res => some res.type
  | _ => none

/-- The record stays when only the records of the resource `name` and those
of no resource stay. -/
def staysFor (name : Str) (record : Record w) : Bool :=
  (recordName record).all fun type => type = name

/-- What a log without duplicates is: each call names its resource, and no
two resources share a name. -/
structure NamedLog (records : List (Record w)) : Prop where
  named : ∀ call, Record.call call ∈ records → ∃ name, resTypeName call.resType = some name
  distinct : ∀ res res', Record.resource res ∈ records → Record.resource res' ∈ records →
    res.type = res'.type → res = res'

/-- The registries hold resources of the log, without counting. -/
def Enrolled (records : List (Record w)) (p : Processor w) : Prop :=
  ∀ (name : Str) (reg : ResourceRegistry w), p.resourceRegistry[name]? = some reg →
    reg.resource.refCounted = false ∧
      ∃ res, Record.resource res ∈ records ∧ res.type = name ∧ reg.resource = timelineResource res

/-- The registry of a resource behind a call. -/
def callRegistry (reg : ResourceRegistry w) (call : CallRecord w) : ResourceRegistry w :=
  if call.type = ftypeAlloc then
    (reg.registerAlloc (eventAlloc call.index call.context call.timestamp call.resId
      (call.resSize.signExtend w))).1
  else
    (reg.registerFree (eventFree call.index call.context call.timestamp call.resId 0)).1

def registryReports (reg : ResourceRegistry w) (contexts : List Context) (call : CallRecord w) :
    List (Report w) :=
  if call.type = ftypeAlloc then
    allocReports reg.resource contexts (eventAlloc call.index call.context call.timestamp call.resId
      (call.resSize.signExtend w))
  else
    ((reg.events[call.resId]?).map (freeReports reg.resource contexts
      (eventFree call.index call.context call.timestamp call.resId 0))).getD []

theorem callRegistry_resource {reg : ResourceRegistry w} (hcounted : reg.resource.refCounted = false)
    (call : CallRecord w) : (callRegistry reg call).resource = reg.resource := by
  unfold callRegistry
  split
  · rw [registerAlloc_events hcounted]
  · exact registerFree_resource reg _

theorem registryReports_typeId (reg : ResourceRegistry w) (contexts : List Context)
    (call : CallRecord w) :
    ∀ report ∈ registryReports reg contexts call, report.typeId = reg.resource.typeId := by
  intro report hreport
  unfold registryReports at hreport
  split at hreport
  · rcases List.mem_cons.mp hreport with rfl | hreport
    · rfl
    · obtain ⟨ctx, -, rfl⟩ := List.mem_map.mp hreport
      rfl
  · cases hevent : reg.events[call.resId]? with
    | none =>
      rw [hevent] at hreport
      exact absurd hreport List.not_mem_nil
    | some found =>
      rw [hevent] at hreport
      rcases List.mem_cons.mp hreport with rfl | hreport
      · rfl
      · obtain ⟨ctx, -, rfl⟩ := List.mem_map.mp hreport
        rfl

/-- **A call** that names its resource goes to the registry of the name. -/
theorem totalsStep_call {p : Processor w} {g : TotalsGenerator} {call : CallRecord w} {name : Str}
    (hname : resTypeName call.resType = some name) {reg : ResourceRegistry w}
    (hreg : p.resourceRegistry[name]? = some reg) (hcounted : reg.resource.refCounted = false) :
    totalsStep (p, g) (.call call) =
      (g.feed (registryReports reg (p.inContexts call.context) call)).map fun g =>
        ({ p with resourceRegistry := p.resourceRegistry.insert name (callRegistry reg call) }, g) := by
  have hfind : p.findRegistry (resTypeName call.resType) = some (name, reg) := by
    rw [hname, Processor.findRegistry, hreg]
    rfl
  rw [totalsStep, parseRecord]
  by_cases halloc : call.type = ftypeAlloc
  · have hevent : eventAlloc call.index call.context call.timestamp call.resId
        (call.resSize.signExtend w) = _ := rfl
    obtain ⟨outcome, hrun, -, -⟩ := registerAlloc_found hfind hevent
    obtain ⟨hreports, -⟩ := registerAlloc_reports hfind hcounted hrun
    rw [if_pos halloc, hrun, registryReports, if_pos halloc, callRegistry, if_pos halloc, ← hreports]
  · have hevent : eventFree call.index call.context call.timestamp call.resId (0 : BitVec w) = _ := rfl
    obtain ⟨outcome, hrun, -⟩ := registerFree_found hfind hcounted hevent
    obtain ⟨hreports, -⟩ := registerFree_reports hfind hcounted hrun
    rw [if_neg halloc, hrun, registryReports, if_neg halloc, callRegistry, if_neg halloc, ← hreports]

/-- A call of a resource that is not registered ends the tool. -/
theorem totalsStep_unknown {p : Processor w} {g : TotalsGenerator} {call : CallRecord w} {name : Str}
    (hname : resTypeName call.resType = some name) (hreg : p.resourceRegistry[name]? = none) :
    totalsStep (p, g) (.call call) = none := by
  have hfind : p.findRegistry (resTypeName call.resType) = none := by
    rw [hname, Processor.findRegistry, hreg]
    rfl
  rw [totalsStep, parseRecord, Processor.registerAlloc, Processor.registerFree, hfind]
  split
  next h => rfl
  next p' heq =>
    split at heq
    · exact absurd heq (by simp)
    · exact absurd heq (by simp)
  next p' outcome heq =>
    split at heq
    · exact absurd heq (by simp)
    · exact absurd heq (by simp)

theorem enrolled_new (records : List (Record w)) : Enrolled records (.new : Processor w) := by
  intro name reg hreg
  rw [Processor.new, Std.TreeMap.getElem?_emptyc] at hreg
  exact absurd hreg (by simp)

theorem Enrolled.insert {records : List (Record w)} {p : Processor w} (h : Enrolled records p)
    {name : Str} {reg reg' : ResourceRegistry w} (hreg : p.resourceRegistry[name]? = some reg)
    (hresource : reg'.resource = reg.resource) :
    Enrolled records { p with resourceRegistry := p.resourceRegistry.insert name reg' } := by
  intro found freg hfound
  rw [Std.TreeMap.getElem?_insert] at hfound
  split at hfound
  next heq =>
    obtain rfl := Option.some.inj hfound
    obtain rfl := Std.LawfulEqCmp.compare_eq_iff_eq.mp heq
    rw [hresource]
    exact h _ reg hreg
  · exact h found freg hfound

/-! ## The two runs -/

/-- The run of the whole log and the run without the other resources, seen
from the resource `name` with the type id `t`. A resource of another name
and the same type id has no event in its registry. -/
structure Alike (records : List (Record w)) (name : Str) (t : BitVec 32)
    (s k : Processor w × TotalsGenerator) : Prop where
  contexts : k.1.contextRegistry = s.1.contextRegistry
  registry : k.1.resourceRegistry[name]? = s.1.resourceRegistry[name]?
  data : s.2.resources[t]? = k.2.resources[t]?
  enrolled : Enrolled records s.1
  quiet : ∀ (other : Str) (reg : ResourceRegistry w), other ≠ name →
    s.1.resourceRegistry[other]? = some reg → reg.resource.typeId = t →
    ∀ id : BitVec w, reg.events[id]? = none

/-- No other resource with the type id of `name` is allocated. -/
def Unshared (records : List (Record w)) (name : Str) : Prop :=
  ∀ res res', Record.resource res ∈ records → Record.resource res' ∈ records → res.type = name →
    res'.type ≠ name → (timelineResource res').typeId = (timelineResource res).typeId →
    ∀ call, Record.call call ∈ records → resTypeName call.resType = some res'.type →
      call.type ≠ ftypeAlloc

/-- The contexts of an event are the same in both runs. -/
theorem inContexts_congr {p q : Processor w} (h : q.contextRegistry = p.contextRegistry)
    (context : BitVec 32) : q.inContexts context = p.inContexts context := by
  unfold Processor.inContexts
  rw [h]

/-- A registered name is that of one resource of the log. -/
theorem NamedLog.resource {records : List (Record w)} (h : NamedLog records)
    {res : Common.Resource w} (hres : Record.resource res ∈ records) {p : Processor w}
    (hp : Enrolled records p) {reg : ResourceRegistry w}
    (hreg : p.resourceRegistry[res.type]? = some reg) : reg.resource = timelineResource res := by
  obtain ⟨-, res', hres', hname, hresource⟩ := hp res.type reg hreg
  rw [hresource, h.distinct res' res hres' hres hname]

/-- A call keeps the two runs alike: that of the resource itself is taken
in both, that of another only in the first. -/
theorem alike_call {records : List (Record w)} (hlog : NamedLog records) {res : Common.Resource w}
    (hres : Record.resource res ∈ records) (hunshared : Unshared records res.type)
    {s s' k : Processor w × TotalsGenerator}
    (h : Alike records res.type (timelineResource res).typeId s k) {call : CallRecord w}
    (hcall : Record.call call ∈ records) (hstep : totalsStep s (.call call) = some s') :
    if staysFor res.type (.call call) then
      ∃ k', totalsStep k (.call call) = some k' ∧
        Alike records res.type (timelineResource res).typeId s' k'
    else Alike records res.type (timelineResource res).typeId s' k := by
  obtain ⟨p, g⟩ := s
  obtain ⟨q, f⟩ := k
  obtain ⟨name, hname⟩ := hlog.named call hcall
  have hstays : staysFor res.type (.call call) = decide (name = res.type) := by
    rw [staysFor, recordName, hname]
    rfl
  cases hreg : p.resourceRegistry[name]? with
  | none =>
    rw [totalsStep_unknown hname hreg] at hstep
    exact absurd hstep (by simp)
  | some reg =>
    obtain ⟨hcounted, res', hres', hname', hresource⟩ := h.enrolled name reg hreg
    have hreg' := callRegistry_resource hcounted call
    rw [totalsStep_call hname hreg hcounted] at hstep
    obtain ⟨g', hfeed, rfl⟩ := Option.map_eq_some_iff.mp hstep
    have hown : ∀ report ∈ registryReports reg (p.inContexts call.context) call,
        report.typeId = (timelineResource res).typeId
          ↔ reg.resource.typeId = (timelineResource res).typeId := by
      intro report hreport
      rw [registryReports_typeId reg _ call report hreport]
    obtain ⟨f', hfeed', hacts⟩ := feed_actsAt _ hown hfeed (k := f)
    have henrolled := h.enrolled.insert hreg hreg'
    have hothers : ∀ other, other ≠ name →
        (p.resourceRegistry.insert name (callRegistry reg call))[other]?
          = p.resourceRegistry[other]? := by
      intro other hne
      rw [Std.TreeMap.getElem?_insert, if_neg]
      exact fun heq => hne (Std.LawfulEqCmp.compare_eq_iff_eq.mp heq).symm
    rw [hstays]
    by_cases hsame : name = res.type
    · rw [decide_eq_true hsame, if_pos rfl]
      subst hsame
      have hself := hlog.resource hres h.enrolled hreg
      have hqreg : q.resourceRegistry[res.type]? = some reg := h.registry.trans hreg
      refine ⟨({ q with
          resourceRegistry := q.resourceRegistry.insert res.type (callRegistry reg call) }, f'), ?_, ?_⟩
      · rw [totalsStep_call hname hqreg hcounted, inContexts_congr h.contexts, hfeed']
        rfl
      · refine ⟨h.contexts, ?_, hacts.same (by rw [hself]) h.data, henrolled, ?_⟩
        · rw [Std.TreeMap.getElem?_insert_self, Std.TreeMap.getElem?_insert_self]
        · intro other oreg hne hother
          rw [hothers other hne] at hother
          exact h.quiet other oreg hne hother
    · rw [decide_eq_false hsame, if_neg (by simp)]
      subst hname'
      refine ⟨h.contexts, ?_, ?_, henrolled, ?_⟩
      · rw [hothers res.type (Ne.symm hsame)]
        exact h.registry
      · by_cases htype : reg.resource.typeId = (timelineResource res).typeId
        · -- nothing is reported of a resource that shares the type id
          have hnone := h.quiet _ reg hsame hreg htype call.resId
          have hfree : call.type ≠ ftypeAlloc :=
            hunshared res res' hres hres' rfl hsame (by rw [← hresource, htype]) call hcall hname
          rw [registryReports, if_neg hfree, hnone] at hfeed
          obtain rfl := Option.some.inj hfeed
          exact h.data
        · rw [hacts.other htype]
          exact h.data
      · intro other oreg hne hother htype
        by_cases hself : other = res'.type
        · subst hself
          rw [Std.TreeMap.getElem?_insert_self] at hother
          obtain rfl := Option.some.inj hother
          rw [hreg'] at htype
          have hnone := h.quiet _ reg hne hreg htype
          have hfree : call.type ≠ ftypeAlloc :=
            hunshared res res' hres hres' rfl hne (by rw [← hresource, htype]) call hcall hname
          intro id
          rw [callRegistry, if_neg hfree, registerFree_events hcounted, hnone id, ite_self]
        · rw [hothers other hself] at hother
          exact h.quiet other oreg hne hother htype

theorem getElem?_insertIfNew_name (registries : Std.TreeMap Str (ResourceRegistry w)) (name : Str)
    (reg : ResourceRegistry w) :
    (registries.insertIfNew name reg)[name]? = some ((registries[name]?).getD reg) := by
  rw [Std.TreeMap.getElem?_insertIfNew]
  by_cases hmem : name ∈ registries
  · rw [if_neg fun h => h.2 hmem]
    obtain ⟨found, hfound⟩ := Option.isSome_iff_exists.mp (Std.TreeMap.mem_iff_isSome_getElem?.mp hmem)
    rw [hfound]
    rfl
  · rw [if_pos ⟨Std.LawfulEqCmp.compare_eq_iff_eq.mpr rfl, hmem⟩,
      Std.TreeMap.getElem?_eq_none hmem]
    rfl

/-- What is registered behind the record of a resource: what was, or the
resource. -/
theorem registerResource_found {p : Processor w} {typeId : BitVec 32} {new name : Str}
    {reg : ResourceRegistry w}
    (hreg : (p.registerResource typeId new false).resourceRegistry[name]? = some reg) :
    p.resourceRegistry[name]? = some reg ∨ name = new ∧ reg = .new typeId new false := by
  rw [Processor.registerResource] at hreg
  dsimp only at hreg
  rw [Std.TreeMap.getElem?_insertIfNew] at hreg
  split at hreg
  next heq =>
    exact Or.inr ⟨(Std.LawfulEqCmp.compare_eq_iff_eq.mp heq.1).symm, (Option.some.inj hreg).symm⟩
  · exact Or.inl hreg

theorem Enrolled.register {records : List (Record w)} {p : Processor w} (h : Enrolled records p)
    {new : Common.Resource w} (hnew : Record.resource new ∈ records) :
    Enrolled records (p.registerResource (timelineResource new).typeId new.type false) := by
  intro name reg hreg
  rcases registerResource_found hreg with hreg | ⟨rfl, rfl⟩
  · exact h name reg hreg
  · exact ⟨rfl, new, hnew, rfl, rfl⟩

/-- The record of a resource registers it, in the runs that have it. -/
theorem alike_resource {records : List (Record w)} {res new : Common.Resource w}
    (hnew : Record.resource new ∈ records) {p q : Processor w} {g f : TotalsGenerator}
    (h : Alike records res.type (timelineResource res).typeId (p, g) (q, f)) :
    Alike records res.type (timelineResource res).typeId
      (p.registerResource (timelineResource new).typeId new.type false, g)
      (if new.type = res.type then
        (q.registerResource (timelineResource new).typeId new.type false, f) else (q, f)) := by
  refine ⟨?_, ?_, ?_, ?_, ?_⟩
  · split
    · exact h.contexts
    · exact h.contexts
  · split
    next hsame =>
      rw [Processor.registerResource, Processor.registerResource]
      dsimp only
      rw [hsame, getElem?_insertIfNew_name, getElem?_insertIfNew_name,
        show q.resourceRegistry[res.type]? = p.resourceRegistry[res.type]? from h.registry]
    next hne =>
      rw [Processor.registerResource]
      dsimp only
      rw [Std.TreeMap.getElem?_insertIfNew, if_neg]
      · exact h.registry
      · exact fun heq => hne (Std.LawfulEqCmp.compare_eq_iff_eq.mp heq.1)
  · split
    · exact h.data
    · exact h.data
  · intro name reg hreg
    exact h.enrolled.register hnew name reg hreg
  · intro other reg hne hreg htype
    rcases registerResource_found hreg with hreg | ⟨rfl, rfl⟩
    · exact h.quiet other reg hne hreg htype
    · intro id
      exact Std.TreeMap.getElem?_emptyc

/-- **One record** keeps the two runs alike. -/
theorem alike_step {records : List (Record w)} (hlog : NamedLog records) {res : Common.Resource w}
    (hres : Record.resource res ∈ records) (hunshared : Unshared records res.type)
    {s s' k : Processor w × TotalsGenerator}
    (h : Alike records res.type (timelineResource res).typeId s k) {record : Record w}
    (hrecord : record ∈ records) (hstep : totalsStep s record = some s') :
    if staysFor res.type record then
      ∃ k', totalsStep k record = some k' ∧
        Alike records res.type (timelineResource res).typeId s' k'
    else Alike records res.type (timelineResource res).typeId s' k := by
  obtain ⟨p, g⟩ := s
  obtain ⟨q, f⟩ := k
  cases record with
  | call call => exact alike_call hlog hres hunshared h hrecord hstep
  | resource new =>
    have halike := alike_resource hrecord h
    obtain rfl := Option.some.inj hstep
    have hstays : staysFor res.type (.resource new : Record w) = decide (new.type = res.type) := rfl
    rw [hstays]
    by_cases hsame : new.type = res.type
    · rw [if_pos hsame] at halike
      rw [if_pos (decide_eq_true hsame)]
      exact ⟨_, rfl, halike⟩
    · rw [if_neg hsame] at halike
      rw [if_neg (by rw [decide_eq_false hsame]; simp)]
      exact halike
  | context ctx =>
    obtain rfl := Option.some.inj hstep
    simp only [staysFor, recordName, Option.all_none, if_true]
    refine ⟨_, rfl, ?_, h.registry, h.data, h.enrolled, h.quiet⟩
    show q.contextRegistry.insertIfNew _ _ = p.contextRegistry.insertIfNew _ _
    rw [show q.contextRegistry = p.contextRegistry from h.contexts]
  | _ =>
    obtain rfl := Option.some.inj hstep
    simp only [staysFor, recordName, Option.all_none, if_true]
    exact ⟨_, rfl, h⟩

theorem alike_run {records : List (Record w)} (hlog : NamedLog records) {res : Common.Resource w}
    (hres : Record.resource res ∈ records) (hunshared : Unshared records res.type)
    {todo : List (Record w)} (htodo : ∀ record ∈ todo, record ∈ records)
    {s s' k : Processor w × TotalsGenerator}
    (h : Alike records res.type (timelineResource res).typeId s k)
    (hrun : todo.foldlM totalsStep s = some s') :
    ∃ k', (todo.filter (staysFor res.type)).foldlM totalsStep k = some k' ∧
      Alike records res.type (timelineResource res).typeId s' k' := by
  induction todo generalizing s k with
  | nil =>
    obtain rfl := Option.some.inj hrun
    exact ⟨k, rfl, h⟩
  | cons record todo ih =>
    rw [List.foldlM_cons] at hrun
    obtain ⟨s₁, hstep, hrest⟩ := Option.bind_eq_some_iff.mp hrun
    have hnext := alike_step hlog hres hunshared h (htodo record (List.mem_cons_self ..)) hstep
    have htodo' : ∀ record ∈ todo, record ∈ records :=
      fun r hr => htodo r (List.mem_cons_of_mem _ hr)
    rw [List.filter_cons]
    split at hnext
    next hstays =>
      obtain ⟨k₁, hk₁, halike⟩ := hnext
      obtain ⟨k', hk', halike'⟩ := ih htodo' halike hrest
      refine ⟨k', ?_, halike'⟩
      rw [if_pos hstays, List.foldlM_cons, hk₁]
      exact hk'
    next hstays =>
      rw [if_neg hstays]
      exact ih htodo' hnext hrest

/-! ## How often a type was allocated -/

/-- The file of the total allocations of a type. -/
def allocFile (g : TotalsGenerator) (t : BitVec 32) : Option DataFile :=
  (g.resources[t]?).bind ResourceData.fileTotalAllocs

def allocPoints (g : TotalsGenerator) (t : BitVec 32) : Nat :=
  ((allocFile g t).map fun file => file.points.length).getD 0

theorem allocFile_setData (g : TotalsGenerator) (resource : Resource) (rd : ResourceData)
    (t : BitVec 32) : allocFile (g.setData resource rd) t
      = if t = resource.typeId then rd.fileTotalAllocs else allocFile g t := by
  rw [allocFile, resources_setData]
  split <;> rfl

theorem getData_allocFile (g : TotalsGenerator) (resource : Resource) :
    (g.getData resource).fileTotalAllocs = allocFile g resource.typeId := by
  unfold TotalsGenerator.getData allocFile
  rw [Std.TreeMap.getD_eq_getD_getElem?]
  cases g.resources[resource.typeId]? <;> rfl

/-- Data with the same file keeps its lines. -/
theorem allocFile_setSame (g : TotalsGenerator) (resource : Resource) {rd : ResourceData}
    (h : rd.fileTotalAllocs = (g.getData resource).fileTotalAllocs) (t : BitVec 32) :
    allocFile (g.setData resource rd) t = allocFile g t := by
  rw [allocFile_setData]
  split
  next ht => rw [h, getData_allocFile, ht]
  · rfl

theorem writeOverhead_fileTotalAllocs (rd : ResourceData) (resource : Resource)
    (timestamp overhead : BitVec 32) :
    (rd.writeOverhead resource timestamp overhead).fileTotalAllocs = rd.fileTotalAllocs := by
  unfold ResourceData.writeOverhead
  split <;> rfl

theorem allocFile_allocInContext (g : TotalsGenerator) (resource : Resource) (context : Context)
    (event : Event w) (t : BitVec 32) :
    allocFile (g.reportAllocInContext resource context event) t = allocFile g t := by
  show allocFile (g.setData resource ((g.getData resource).setData context _)) t = _
  refine allocFile_setSame g resource ?_ t
  rfl

theorem allocFile_freeInContext (g : TotalsGenerator) (resource : Resource) (context : Context)
    (event : Event w) (t : BitVec 32) :
    allocFile (g.reportFreeInContext resource context event) t = allocFile g t := by
  show allocFile (g.setData resource ((g.getData resource).setData context _)) t = _
  refine allocFile_setSame g resource ?_ t
  rfl

theorem allocFile_free (g : TotalsGenerator) (resource : Resource) (event : Event w)
    (t : BitVec 32) : allocFile (g.reportFree resource event) t = allocFile g t := by
  rw [TotalsGenerator.reportFree, allocFile_setSame, allocFile_freeInContext]
  exact writeOverhead_fileTotalAllocs _ _ _ _

theorem allocPoints_alloc {g g' : TotalsGenerator} {resource : Resource} {event : Event w}
    (h : g.reportAlloc resource event = some g') (t : BitVec 32) :
    allocPoints g' t = allocPoints g t + if t = resource.typeId then 1 else 0 := by
  rw [TotalsGenerator.reportAlloc] at h
  split at h
  · exact absurd h (by simp)
  · obtain rfl := Option.some.inj h
    have hfile : allocFile ((g.setData resource ((g.getData resource).createFiles
        resource)).reportAllocInContext resource contextAll event) resource.typeId
        = some ((allocFile g resource.typeId).getD
          (createFile (resource.name ++ ": total allocs".toList))) := by
      rw [allocFile_allocInContext, allocFile_setData, if_pos rfl, ← getData_allocFile]
      rfl
    show (((allocFile (TotalsGenerator.setData _ resource _) t).map _).getD 0) = _
    rw [allocFile_setData]
    split
    next ht =>
      show ((((ResourceData.writeOverhead _ resource _ _).fileTotalAllocs.map _).map _).getD 0) = _
      rw [writeOverhead_fileTotalAllocs]
      show ((((TotalsGenerator.getData _ resource).fileTotalAllocs.map _).map _).getD 0) = _
      rw [getData_allocFile, hfile, ht, allocPoints]
      cases allocFile g resource.typeId with
      | none => rfl
      | some file => simp [DataFile.write]
    next ht =>
      rw [allocFile_allocInContext, allocFile_setData, if_neg ht, Nat.add_zero, allocPoints]

/-- The reports of an allocation make one line more, for its type. -/
theorem allocPoints_allocReports {g g' : TotalsGenerator} {resource : Resource}
    {contexts : List Context} {event : Event w}
    (h : g.feed (allocReports resource contexts event) = some g') (t : BitVec 32) :
    allocPoints g' t = allocPoints g t + if t = resource.typeId then 1 else 0 := by
  rw [feed_allocReports] at h
  obtain ⟨g₁, hg₁, rfl⟩ := Option.map_eq_some_iff.mp h
  rw [← allocPoints_alloc hg₁, allocPoints, allocPoints, foldl_keeps (fun g => allocFile g t)]
  exact fun g ctx => allocFile_allocInContext g resource ctx event t

theorem allocPoints_freeReports {g g' : TotalsGenerator} {resource : Resource}
    {contexts : List Context} {event allocEvent : Event w}
    (h : g.feed (freeReports resource contexts event allocEvent) = some g') (t : BitVec 32) :
    allocPoints g' t = allocPoints g t := by
  rw [feed_freeReports] at h
  obtain rfl := Option.some.inj h
  rw [allocPoints, allocPoints, foldl_keeps (fun g => allocFile g t), allocFile_free]
  exact fun g ctx =>
    allocFile_freeInContext g resource ctx { event with resSize := allocEvent.resSize } t

/-- The type id that a record gives a name. -/
def recordTypeId (name : Str) : Record w → Option (BitVec 32)
  | .resource res => if res.type = name then some (timelineResource res).typeId else none
  | _ => none

/-- The record is an allocation of a type id of the log. -/
def allocates (records : List (Record w)) (t : BitVec 32) : Record w → Bool
  | .call call => call.type = ftypeAlloc ∧
      ((resTypeName call.resType).bind fun name => records.findSome? (recordTypeId name)) = some t
  | _ => false

theorem NamedLog.typeId {records : List (Record w)} (h : NamedLog records)
    {res : Common.Resource w} (hres : Record.resource res ∈ records) :
    records.findSome? (recordTypeId res.type) = some (timelineResource res).typeId := by
  have hfound : ∀ record ∈ records, ∀ t, recordTypeId res.type record = some t →
      t = (timelineResource res).typeId := by
    intro record hrecord t ht
    cases record with
    | resource found =>
      rw [recordTypeId] at ht
      split at ht
      next hname =>
        rw [← Option.some.inj ht, h.distinct found res hrecord hres hname]
      · exact absurd ht (by simp)
    | _ => exact absurd ht (by simp [recordTypeId])
  cases hfind : records.findSome? (recordTypeId res.type) with
  | none =>
    have hnone := List.findSome?_eq_none_iff.mp hfind _ hres
    rw [recordTypeId, if_pos rfl] at hnone
    exact absurd hnone (by simp)
  | some t =>
    obtain ⟨record, hrecord, ht⟩ := List.exists_of_findSome?_eq_some hfind
    rw [hfound record hrecord t ht]

/-- An allocation makes one line more, for its own type. -/
theorem allocPoints_step {records : List (Record w)} (hlog : NamedLog records)
    {s s' : Processor w × TotalsGenerator} (hs : Enrolled records s.1) {record : Record w}
    (hrecord : record ∈ records) (hstep : totalsStep s record = some s') (t : BitVec 32) :
    Enrolled records s'.1 ∧
      allocPoints s'.2 t = allocPoints s.2 t + if allocates records t record then 1 else 0 := by
  obtain ⟨p, g⟩ := s
  cases record with
  | call call =>
    obtain ⟨name, hname⟩ := hlog.named call hrecord
    cases hreg : p.resourceRegistry[name]? with
    | none =>
      rw [totalsStep_unknown hname hreg] at hstep
      exact absurd hstep (by simp)
    | some reg =>
      obtain ⟨hcounted, res, hres, rfl, hresource⟩ := hs name reg hreg
      rw [totalsStep_call hname hreg hcounted] at hstep
      obtain ⟨g', hfeed, rfl⟩ := Option.map_eq_some_iff.mp hstep
      refine ⟨hs.insert hreg (callRegistry_resource hcounted call), ?_⟩
      rw [registryReports] at hfeed
      split at hfeed
      next halloc =>
        show allocPoints g' t = _
        rw [allocPoints_allocReports hfeed, allocates, hname, Option.bind_some, hlog.typeId hres,
          hresource]
        simp [halloc, eq_comm]
      next hfree =>
        have hquiet : allocates records t (.call call) = false := by simp [allocates, hfree]
        rw [hquiet]
        cases hevent : reg.events[call.resId]? with
        | none =>
          rw [hevent] at hfeed
          rw [← Option.some.inj hfeed]
          rfl
        | some found =>
          rw [hevent] at hfeed
          exact allocPoints_freeReports hfeed t
  | resource new =>
    obtain rfl := Option.some.inj hstep
    exact ⟨hs.register hrecord, rfl⟩
  | _ =>
    obtain rfl := Option.some.inj hstep
    exact ⟨hs, rfl⟩

theorem allocPoints_run {records : List (Record w)} (hlog : NamedLog records)
    {todo : List (Record w)} (htodo : ∀ record ∈ todo, record ∈ records)
    {s s' : Processor w × TotalsGenerator} (hs : Enrolled records s.1)
    (hrun : todo.foldlM totalsStep s = some s') (t : BitVec 32) :
    allocPoints s'.2 t = allocPoints s.2 t + (todo.filter (allocates records t)).length := by
  induction todo generalizing s with
  | nil =>
    obtain rfl := Option.some.inj hrun
    rfl
  | cons record todo ih =>
    rw [List.foldlM_cons] at hrun
    obtain ⟨s₁, hstep, hrest⟩ := Option.bind_eq_some_iff.mp hrun
    obtain ⟨hs₁, hpoints⟩ := allocPoints_step hlog hs (htodo record (List.mem_cons_self ..)) hstep t
    rw [ih (fun r hr => htodo r (List.mem_cons_of_mem _ hr)) hs₁ hrest, hpoints, List.filter_cons]
    split
    · rw [List.length_cons]
      omega
    · rfl

/-! ## Logs that the generator gets through -/

/-- The tool gets over a record behind others: a call has its resource
registered, and an allocation has a timestamp. -/
def Fed (before : List (Record w)) : Record w → Prop
  | .call call => (∃ res, Record.resource res ∈ before ∧ resTypeName call.resType = some res.type) ∧
      (call.type = ftypeAlloc → call.timestamp ≠ 0)
  | _ => True

/-- The tool gets over all of them, with the generator still there. -/
def Usable (records : List (Record w)) : Prop :=
  ∀ pre record post, records = pre ++ record :: post → Fed pre record

theorem usable_nil : Usable ([] : List (Record w)) := by
  intro pre record post heq
  exact absurd heq (by simp)

theorem usable_snoc {records : List (Record w)} {record : Record w} :
    Usable (records ++ [record]) ↔ Usable records ∧ Fed records record := by
  constructor
  · intro h
    refine ⟨fun pre r post heq => h pre r (post ++ [record]) (by rw [heq]; simp), h records record [] rfl⟩
  · rintro ⟨h, hlast⟩ pre r post heq
    rcases List.eq_nil_or_concat post with rfl | ⟨post', r', rfl⟩
    · obtain ⟨rfl, hr⟩ := List.append_inj' heq rfl
      obtain rfl : record = r := by simpa using hr
      exact hlast
    · rw [← List.concat_cons, List.concat_eq_append, ← List.append_assoc] at heq
      obtain ⟨rfl, -⟩ := List.append_inj' heq rfl
      exact h pre r post' rfl

/-- The names of the registries are those of the resources so far. -/
def Announced (before : List (Record w)) (p : Processor w) : Prop :=
  ∀ name : Str, (p.resourceRegistry[name]?).isSome = true ↔
    ∃ res, Record.resource res ∈ before ∧ res.type = name

theorem announced_new : Announced [] (.new : Processor w) := by
  intro name
  rw [Processor.new, Std.TreeMap.getElem?_emptyc]
  simp

/-- A record that is no resource registers nothing. -/
theorem Announced.other {before : List (Record w)} {p p' : Processor w} {record : Record w}
    (h : Announced before p) (hrecord : ∀ res, record ≠ .resource res)
    (hsame : ∀ name : Str, (p'.resourceRegistry[name]?).isSome = (p.resourceRegistry[name]?).isSome) :
    Announced (before ++ [record]) p' := by
  intro name
  rw [hsame name, h name]
  constructor
  · rintro ⟨res, hres, hname⟩
    exact ⟨res, List.mem_append_left _ hres, hname⟩
  · rintro ⟨res, hres, hname⟩
    rcases List.mem_append.mp hres with hres | hres
    · exact ⟨res, hres, hname⟩
    · exact absurd (List.mem_singleton.mp hres).symm (hrecord res)

theorem Announced.resource {before : List (Record w)} {p : Processor w} (h : Announced before p)
    (new : Common.Resource w) : Announced (before ++ [.resource new])
      (p.registerResource (timelineResource new).typeId new.type false) := by
  intro name
  have hmem : (∃ res, Record.resource res ∈ before ++ [Record.resource new] ∧ res.type = name) ↔
      (∃ res, Record.resource res ∈ before ∧ res.type = name) ∨ new.type = name := by
    constructor
    · rintro ⟨res, hres, hname⟩
      rcases List.mem_append.mp hres with hres | hres
      · exact .inl ⟨res, hres, hname⟩
      · obtain rfl : res = new := by simpa using hres
        exact .inr hname
    · rintro (⟨res, hres, hname⟩ | hname)
      · exact ⟨res, List.mem_append_left _ hres, hname⟩
      · exact ⟨new, by simp, hname⟩
  rw [hmem, ← h name, Processor.registerResource]
  dsimp only
  by_cases hname : new.type = name
  · subst hname
    rw [getElem?_insertIfNew_name]
    simp
  · rw [Std.TreeMap.getElem?_insertIfNew,
      if_neg fun heq => hname (Std.LawfulEqCmp.compare_eq_iff_eq.mp heq.1)]
    simp [hname]

/-- The reports of a call are taken unless they begin with an allocation
without a timestamp. -/
theorem feed_registryReports (g : TotalsGenerator) (reg : ResourceRegistry w)
    (contexts : List Context) (call : CallRecord w) :
    (g.feed (registryReports reg contexts call)).isSome = true ↔
      (call.type = ftypeAlloc → call.timestamp ≠ 0) := by
  unfold registryReports
  by_cases halloc : call.type = ftypeAlloc
  · rw [if_pos halloc, feed_allocReports, Option.isSome_map, reportAlloc_isSome, decide_eq_true_eq]
    exact ⟨fun h _ => h, fun h => h halloc⟩
  · rw [if_neg halloc]
    refine iff_of_true ?_ fun h => absurd h halloc
    cases reg.events[call.resId]? with
    | none => rfl
    | some found => exact congrArg Option.isSome (feed_freeReports ..)

/-- **One record** is got over if and only if it can be fed. -/
theorem totalsStep_fed {records before : List (Record w)} (hlog : NamedLog records)
    {s : Processor w × TotalsGenerator} (henrolled : Enrolled records s.1)
    (hannounced : Announced before s.1) {record : Record w} (hrecord : record ∈ records) :
    ((totalsStep s record).isSome = true ↔ Fed before record) ∧
      ∀ s', totalsStep s record = some s' →
        Enrolled records s'.1 ∧ Announced (before ++ [record]) s'.1 := by
  obtain ⟨p, g⟩ := s
  cases record with
  | call call =>
    obtain ⟨name, hname⟩ := hlog.named call hrecord
    have hother : ∀ res, Record.call call ≠ Record.resource res := fun res h => by cases h
    cases hreg : p.resourceRegistry[name]? with
    | none =>
      rw [totalsStep_unknown hname hreg]
      refine ⟨iff_of_false (by simp) ?_, fun s' h => by cases h⟩
      rintro ⟨⟨res, hres, hcall⟩, -⟩
      have hsome := (hannounced res.type).mpr ⟨res, hres, rfl⟩
      rw [hname] at hcall
      rw [← Option.some.inj hcall, show p.resourceRegistry[name]? = none from hreg] at hsome
      cases hsome
    | some reg =>
      obtain ⟨hcounted, -⟩ := henrolled name reg hreg
      obtain ⟨res, hres, hresName⟩ := (hannounced name).mp
        (Option.isSome_iff_exists.mpr ⟨reg, hreg⟩)
      rw [totalsStep_call hname hreg hcounted, Option.isSome_map, feed_registryReports]
      refine ⟨⟨fun h => ⟨⟨res, hres, by rw [hname, hresName]⟩, h⟩, fun h => h.2⟩, fun s' h => ?_⟩
      obtain ⟨g', -, rfl⟩ := Option.map_eq_some_iff.mp h
      refine ⟨henrolled.insert hreg (callRegistry_resource hcounted call),
        hannounced.other hother fun found => ?_⟩
      dsimp only
      rw [Std.TreeMap.getElem?_insert]
      split
      next heq =>
        obtain rfl := Std.LawfulEqCmp.compare_eq_iff_eq.mp heq
        rw [hreg]
        rfl
      · rfl
  | resource new =>
    refine ⟨iff_of_true rfl trivial, fun s' h => ?_⟩
    obtain rfl := Option.some.inj h
    exact ⟨henrolled.register hrecord, hannounced.resource new⟩
  | context ctx =>
    refine ⟨iff_of_true rfl trivial, fun s' h => ?_⟩
    obtain rfl := Option.some.inj h
    exact ⟨henrolled, hannounced.other (fun res h => by cases h) fun _ => rfl⟩
  | _ =>
    refine ⟨iff_of_true rfl trivial, fun s' h => ?_⟩
    obtain rfl := Option.some.inj h
    exact ⟨henrolled, hannounced.other (fun res h => by cases h) fun _ => rfl⟩

/-- **The tool gets through a log** if and only if it can be used. -/
theorem totalsRun_usable {records : List (Record w)} (hlog : NamedLog records)
    {todo : List (Record w)} (htodo : ∀ record ∈ todo, record ∈ records) :
    ((todo.foldlM totalsStep ((.new, .new) : Processor w × TotalsGenerator)).isSome = true ↔
        Usable todo) ∧
      ∀ s', todo.foldlM totalsStep ((.new, .new) : Processor w × TotalsGenerator) = some s' →
        Enrolled records s'.1 ∧ Announced todo s'.1 := by
  induction todo using List.reverseRecOn with
  | nil =>
    refine ⟨iff_of_true rfl usable_nil, fun s' h => ?_⟩
    obtain rfl := Option.some.inj h
    exact ⟨enrolled_new records, announced_new⟩
  | append_singleton todo record ih =>
    obtain ⟨hsome, hstate⟩ := ih fun r hr => htodo r (List.mem_append_left _ hr)
    rw [List.foldlM_append, usable_snoc, ← hsome]
    cases hrun : todo.foldlM totalsStep ((.new, .new) : Processor w × TotalsGenerator) with
    | none => simp
    | some s =>
      obtain ⟨henrolled, hannounced⟩ := hstate s hrun
      obtain ⟨hfed, hnext⟩ := totalsStep_fed hlog henrolled hannounced (htodo record (by simp))
      simp only [Option.bind_eq_bind, Option.bind_some, List.foldlM_cons, List.foldlM_nil,
        Option.pure_def, Option.bind_fun_some, Option.isSome_some, true_and]
      exact ⟨hfed, hnext⟩

theorem NamedLog.staysFor {records : List (Record w)} (h : NamedLog records) (name : Str) :
    NamedLog (records.filter (staysFor name)) :=
  ⟨fun call hcall => h.named call (List.mem_filter.mp hcall).1,
    fun res res' hres hres' =>
      h.distinct res res' (List.mem_filter.mp hres).1 (List.mem_filter.mp hres').1⟩

/-! ## The two files -/

/-- The line stays when only the records of one resource stay. -/
def lineStaysFor (w : Nat) (name line : Str) : Bool :=
  match (spRtraceParserParseRecord parserMask line : Option (Record w)) with
  | none => true
  | some record => staysFor name record

theorem lines_stay {lines : List Str} {records : List (Record w)}
    (h : lines.map (spRtraceParserParseRecord parserMask) = records.map some) (name : Str) :
    (lines.filter (lineStaysFor w name)).map (spRtraceParserParseRecord parserMask)
      = (records.filter (staysFor name)).map some := by
  induction lines generalizing records with
  | nil =>
    obtain rfl := List.map_eq_nil_iff.mp h.symm
    rfl
  | cons line lines ih =>
    obtain ⟨record, records, rfl, hrecord, hrecords⟩ := List.map_eq_cons_iff.mp h.symm
    have hstays : lineStaysFor w name line = staysFor name record := by
      rw [lineStaysFor, ← hrecord]
    rw [List.filter_cons, List.filter_cons, hstays]
    split
    · rw [List.map_cons, List.map_cons, ih hrecords.symm, hrecord]
    · exact ih hrecords.symm

/-- The data of a resource behind a file, if the generator gets through it. -/
def ownData (w : Nat) (lines : List Str) (res : Common.Resource w) : Option (Option ResourceData) :=
  (fileTotals w lines).map fun g => g.resources[(timelineResource res).typeId]?

/-- The data of a resource behind the whole file is the data behind the
file without the lines of the other resources. -/
def TotalsApart (w : Nat) (lines : List Str) (res : Common.Resource w) : Prop :=
  ownData w lines res = ownData w (lines.filter (lineStaysFor w res.type)) res

/-- There is data exactly of a log that can be used. -/
theorem ownData_isSome {lines : List Str} {records : List (Record w)}
    (hparse : lines.map (spRtraceParserParseRecord parserMask) = records.map some)
    (hlog : NamedLog records) (res : Common.Resource w) :
    (ownData w lines res).isSome = true ↔ Usable records := by
  rw [ownData, Option.isSome_map, fileTotals_records hparse, Option.isSome_map]
  exact (totalsRun_usable hlog fun _ hr => hr).1

/-- In a log that can be used, data that is not shared stays the same. -/
theorem totalsApart_of_unshared {lines : List Str} {records : List (Record w)}
    (hparse : lines.map (spRtraceParserParseRecord parserMask) = records.map some)
    (hlog : NamedLog records) {s : Processor w × TotalsGenerator}
    (hs : records.foldlM totalsStep (.new, .new) = some s) {res : Common.Resource w}
    (hres : Record.resource res ∈ records) (hunshared : Unshared records res.type) :
    TotalsApart w lines res := by
  have halike : Alike records res.type (timelineResource res).typeId
      ((.new, .new) : Processor w × TotalsGenerator) (.new, .new) := by
    refine ⟨rfl, rfl, rfl, enrolled_new records, fun other reg _ hreg => ?_⟩
    rw [Processor.new, Std.TreeMap.getElem?_emptyc] at hreg
    exact absurd hreg (by simp)
  obtain ⟨k, hk, halike'⟩ := alike_run hlog hres hunshared (fun _ hr => hr) halike hs
  rw [TotalsApart, ownData, ownData, fileTotals_records hparse,
    fileTotals_records (lines_stay hparse res.type), hs, hk]
  exact congrArg some halike'.data

/-- Data of a resource that another one is counted in does not. -/
theorem unshared_of_totalsApart {lines : List Str} {records : List (Record w)}
    (hparse : lines.map (spRtraceParserParseRecord parserMask) = records.map some)
    (hlog : NamedLog records) {s : Processor w × TotalsGenerator}
    (hs : records.foldlM totalsStep (.new, .new) = some s) {res : Common.Resource w}
    (hres : Record.resource res ∈ records) (hapart : TotalsApart w lines res) :
    Unshared records res.type := by
  intro res₁ res₂ hres₁ hres₂ hname hne htype call hcall hcallName halloc
  obtain rfl := hlog.distinct res res₁ hres hres₁ hname.symm
  rw [TotalsApart, ownData, ownData, fileTotals_records hparse,
    fileTotals_records (lines_stay hparse res.type), hs, Option.map_map, Option.map_map] at hapart
  obtain ⟨k, hk, hdata⟩ := Option.map_eq_some_iff.mp hapart.symm
  have hsub : ∀ record ∈ records.filter (staysFor res.type), record ∈ records :=
    fun record hrecord => (List.mem_filter.mp hrecord).1
  have hfull := allocPoints_run hlog (fun _ hr => hr) (enrolled_new records) hs
    (timelineResource res).typeId
  have hpart := allocPoints_run hlog hsub (enrolled_new records) hk (timelineResource res).typeId
  have hsame : allocPoints s.2 (timelineResource res).typeId
      = allocPoints k.2 (timelineResource res).typeId := by
    have hdata : k.2.resources[(timelineResource res).typeId]?
        = s.2.resources[(timelineResource res).typeId]? := hdata
    rw [allocPoints, allocPoints, allocFile, allocFile, hdata]
  -- the allocation of the other resource is counted in the whole log only
  have hcounts : allocates records (timelineResource res).typeId (.call call) = true := by
    simp only [allocates, hcallName, Option.bind_some, hlog.typeId hres₂, htype, halloc, and_self,
      decide_true]
  have hgoes : staysFor res.type (.call call) = false := by
    rw [staysFor, recordName, hcallName]
    exact decide_eq_false hne
  have hless : ((records.filter (allocates records (timelineResource res).typeId)).filter
      (staysFor res.type)).length
      < (records.filter (allocates records (timelineResource res).typeId)).length := by
    refine List.length_filter_lt_length_iff_exists.mpr ⟨.call call, ?_, ?_⟩
    · exact List.mem_filter.mpr ⟨hcall, hcounts⟩
    · rw [hgoes]
      simp
  rw [List.filter_filter, List.filter_congr fun record _ => Bool.and_comm _ _,
    ← List.filter_filter] at hpart
  dsimp only at hfull hpart
  omega

/-- **Resources in one log**: if the tool gets through the log with the
totals generator, each resource has the data that it has alone if and only
if no resource shares its type id with another that is allocated;
otherwise, if and only if it does not get through the records of any
resource alone. -/
theorem totalsApart_iff {lines : List Str} {records : List (Record w)}
    (hparse : lines.map (spRtraceParserParseRecord parserMask) = records.map some)
    (hlog : NamedLog records) :
    (∀ res, Record.resource res ∈ records → TotalsApart w lines res) ↔
      ∀ res, Record.resource res ∈ records →
        (Usable records ∧ Unshared records res.type) ∨
        (¬ Usable records ∧ ¬ Usable (records.filter (staysFor res.type))) := by
  refine forall_congr' fun res => forall_congr' fun hres => ?_
  by_cases husable : Usable records
  · have hrun := (totalsRun_usable hlog fun _ hr => hr).1.mpr husable
    obtain ⟨s, hs⟩ := Option.isSome_iff_exists.mp hrun
    simp only [husable, true_and, not_true_eq_false, false_and, or_false]
    exact ⟨unshared_of_totalsApart hparse hlog hs hres, totalsApart_of_unshared hparse hlog hs hres⟩
  · have hwhole : ownData w lines res = none :=
      Option.not_isSome_iff_eq_none.mp fun h => husable ((ownData_isSome hparse hlog res).mp h)
    have hown := ownData_isSome (lines_stay hparse res.type) (hlog.staysFor res.type) res
    simp only [husable, false_and, not_false_eq_true, true_and, false_or, ← hown]
    rw [TotalsApart, hwhole, Option.not_isSome_iff_eq_none, eq_comm]

/-! ## Two files -/

/-- The lines of a file with two resources and a call of each. -/
def twoResources (id : String) : List Str :=
  ["<1> : memory (memory in bytes)".toList, ("<" ++ id ++ "> : file (file descriptors)").toList,
    "1. [0:0:0.5] malloc<memory>(100) = 0x10".toList, "2. [0:0:0.6] open<file>(1) = 0x10".toList]

/-- The resources as the parser reads them. -/
def memoryResource : Common.Resource 64 :=
  { id := 1, type := "memory".toList, desc := "memory in bytes".toList, flags := 0, hide := false }

def fileResource (id : BitVec 64) : Common.Resource 64 :=
  { id, type := "file".toList, desc := "file descriptors".toList, flags := 0, hide := false }

def twoRecords (id : BitVec 64) : List (Record 64) :=
  [.resource memoryResource, .resource (fileResource id),
    .call { index := 1, context := 0, timestamp := 5, name := "malloc".toList,
            resType := .name "memory".toList, type := ftypeAlloc, resSize := 100, resId := 16 },
    .call { index := 2, context := 0, timestamp := 6, name := "open".toList,
            resType := .name "file".toList, type := ftypeAlloc, resSize := 1, resId := 16 }]

theorem twoRecords_resource {id : BitVec 64} {res : Common.Resource 64}
    (h : Record.resource res ∈ twoRecords id) : res = memoryResource ∨ res = fileResource id := by
  simpa [twoRecords] using h

theorem twoRecords_named (id : BitVec 64) : NamedLog (twoRecords id) := by
  constructor
  · intro call hcall
    simp only [twoRecords, List.mem_cons, reduceCtorEq, Record.call.injEq, List.not_mem_nil, false_or,
      or_false] at hcall
    rcases hcall with rfl | rfl
    · exact ⟨_, rfl⟩
    · exact ⟨_, rfl⟩
  · intro res res' hres hres' heq
    rcases twoRecords_resource hres with rfl | rfl
    · rcases twoRecords_resource hres' with rfl | rfl
      · rfl
      · exact absurd heq (by simp [memoryResource, fileResource])
    · rcases twoRecords_resource hres' with rfl | rfl
      · exact absurd heq (by simp [memoryResource, fileResource])
      · rfl

/-- Memory with the first bit and files with the second have data of their
own. -/
theorem totalsApart_iff_two : TotalsApart 64 (twoResources "2") memoryResource ∧
    TotalsApart 64 (twoResources "2") (fileResource 2) := by
  have hparse : (twoResources "2").map (spRtraceParserParseRecord parserMask)
      = (twoRecords 2).map some := by decide +kernel
  have husable : Usable (twoRecords 2) := by
    refine (totalsRun_usable (twoRecords_named 2) fun _ hr => hr).1.mp ?_
    decide +kernel
  have hall := (totalsApart_iff hparse (twoRecords_named 2)).mpr fun res hres => by
    refine .inl ⟨husable, fun res₁ res₂ hres₁ hres₂ hname hne htype => ?_⟩
    rcases twoRecords_resource hres₁ with rfl | rfl
    · rcases twoRecords_resource hres₂ with rfl | rfl
      · exact absurd hname hne
      · exact absurd htype (by decide)
    · rcases twoRecords_resource hres₂ with rfl | rfl
      · exact absurd htype (by decide)
      · exact absurd hname hne
  exact ⟨hall _ (by simp [twoRecords]), hall _ (by simp [twoRecords])⟩

/-- Memory with the first bit and files with the third share one. -/
theorem totalsApart_shared : (fileTotals 64 (twoResources "4")).isSome = true ∧
    ¬ TotalsApart 64 (twoResources "4") memoryResource := by
  refine ⟨by decide +kernel, fun hapart => ?_⟩
  have hcount := congrArg (Option.map fun rd => ((rd.bind ResourceData.fileTotalAllocs).map
    fun file => file.points.length).getD 0) hapart
  rw [ownData, ownData, Option.map_map, Option.map_map] at hcount
  have hwhole : (fileTotals 64 (twoResources "4")).map (fun g => allocPoints g 1) = some 2 := by
    decide +kernel
  have halone : (fileTotals 64 ((twoResources "4").filter (lineStaysFor 64 memoryResource.type))).map
      (fun g => allocPoints g 1) = some 1 := by decide +kernel
  have hsame := (hwhole.symm.trans hcount).trans halone
  exact absurd hsame (by decide)

end SpRtrace.Timeline
