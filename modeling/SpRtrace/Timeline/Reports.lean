/-
SpRtrace.Timeline.Reports — what the generators are told, read off the log.

The registries decide which calls are reported: every allocation is, a free
only when it cancels an allocation (`TimelineTheorems`). Here the reports
of a call are a function of the log and of the calls in front of it
(`callReports`, `timeline_call`), and a generator is fed with them call by
call (`generatorReport_snoc`).
-/
import SpRtrace.Timeline.TimelineTheorems
import SpRtrace.Timeline.Totals

namespace SpRtrace.Timeline

open SpRtrace.Lib SpRtrace.Common SpRtrace.Library SpRtrace.Postproc

variable {w : Nat}

/-! ## The environment of a log -/

/-- A registered resource, as the timeline has it. -/
def timelineResource (res : Common.Resource w) : Resource :=
  { typeId := BitVec.ofNat 32 (ffs (res.id.setWidth 32)), name := res.type, refCounted := false
    overhead := getResourceOverhead res.type }

/-- The registered contexts, as the timeline has them. -/
def contextsOf (contexts : List (Common.Context w)) : Std.TreeMap (BitVec 32) Context :=
  contexts.foldl (fun registry ctx =>
    registry.insertIfNew (ctx.id.setWidth 32) { id := ctx.id.setWidth 32, name := ctx.name }) ∅

/-- The contexts that an event of the log is reported in. -/
def logContexts (rd : Rd w) (context : BitVec 32) : List Context :=
  ({ resourceRegistry := ∅, contextRegistry := contextsOf rd.contexts } : Processor w).inContexts
    context

/-- The registries hold the resources and the contexts of the log. -/
structure Environment (rd : Rd w) (p : Processor w) : Prop where
  contexts : p.contextRegistry = contextsOf rd.contexts
  resources : ∀ name reg, p.resourceRegistry[name]? = some reg →
    ∃ type ∈ rd.resources, ∃ res, rd.resource type = some res ∧ res.type = name ∧
      reg.resource = timelineResource res

theorem Environment.inContexts {rd : Rd w} {p : Processor w} (h : Environment rd p)
    (context : BitVec 32) : p.inContexts context = logContexts rd context := by
  unfold logContexts Processor.inContexts
  rw [h.contexts]

/-- Another registry for a resource keeps the environment. -/
theorem Environment.insert {rd : Rd w} {p : Processor w} (h : Environment rd p) {name : Str}
    {reg reg' : ResourceRegistry w} (hreg : p.resourceRegistry[name]? = some reg)
    (hresource : reg'.resource = reg.resource) :
    Environment rd { p with resourceRegistry := p.resourceRegistry.insert name reg' } := by
  refine ⟨h.contexts, fun found freg hfound => ?_⟩
  rw [Std.TreeMap.getElem?_insert] at hfound
  split at hfound
  next heq =>
    obtain rfl := Option.some.inj hfound
    obtain rfl := Std.LawfulEqCmp.compare_eq_iff_eq.mp heq
    rw [hresource]
    exact h.resources _ reg hreg
  · exact h.resources found freg hfound

/-- The registry of a type is the one of its resource. -/
theorem Environment.registry {rd : Rd w} {p : Processor w} (h : Environment rd p)
    (hlogged : Logged rd) {type : Nat} (htype : type ∈ rd.resources) {res : Common.Resource w}
    (hres : rd.resource type = some res) {reg : ResourceRegistry w}
    (hreg : p.resourceRegistry[res.type]? = some reg) : reg.resource = timelineResource res := by
  obtain ⟨type', htype', res', hres', hname, hresource⟩ := h.resources res.type reg hreg
  obtain rfl := hlogged.types type' htype' type htype res' res hres' hres hname
  rw [hresource, Option.some.inj (hres'.symm.trans hres)]

theorem parseRecords_contextRegistry (contexts : List (Common.Context w)) (p : Processor w) :
    parseRecords .none p (contexts.map Record.context) = .ok ({ p with
      contextRegistry := contexts.foldl (fun registry ctx =>
        registry.insertIfNew (ctx.id.setWidth 32) { id := ctx.id.setWidth 32, name := ctx.name })
        p.contextRegistry }, []) := by
  induction contexts generalizing p with
  | nil => rfl
  | cons ctx contexts ih =>
    have hrecord : parseRecord .none p (Record.context ctx)
        = .ok (p.registerContext (ctx.id.setWidth 32) ctx.name, Option.none) := rfl
    exact parseRecords_append (parseRecords_single hrecord) (ih _)

theorem parseRecords_environment {rd : Rd w} {todo : List Nat} {p : Processor w}
    (h : Environment rd p) (htodo : ∀ type ∈ todo, type ∈ rd.resources)
    (hlive : ∀ type ∈ todo, ∃ res, rd.resource type = some res) :
    ∃ p', parseRecords .none p (todo.map (resourceRecord rd)) = .ok (p', []) ∧
      Environment rd p' := by
  induction todo generalizing p with
  | nil => exact ⟨p, rfl, h⟩
  | cons type todo ih =>
    obtain ⟨res, hres⟩ := hlive type (List.mem_cons_self ..)
    have hstep : Environment rd
        (p.registerResource (BitVec.ofNat 32 (ffs (res.id.setWidth 32))) res.type false) := by
      refine ⟨h.contexts, fun name reg hreg => ?_⟩
      rw [Processor.registerResource, Std.TreeMap.getElem?_insertIfNew] at hreg
      split at hreg
      next hnew =>
        obtain rfl := Option.some.inj hreg
        exact ⟨type, htodo type (List.mem_cons_self ..), res, hres,
          Std.LawfulEqCmp.compare_eq_iff_eq.mp hnew.1, rfl⟩
      · exact h.resources name reg hreg
    have hrecord : parseRecord .none p (resourceRecord rd type)
        = .ok (p.registerResource (BitVec.ofNat 32 (ffs (res.id.setWidth 32))) res.type false,
          Option.none) := by
      rw [resourceRecord, hres]
      rfl
    obtain ⟨p', hrun, hp'⟩ := ih hstep (fun t ht => htodo t (List.mem_cons_of_mem _ ht))
      fun t ht => hlive t (List.mem_cons_of_mem _ ht)
    exact ⟨p', parseRecords_append (parseRecords_single hrecord) hrun, hp'⟩

/-- Behind the environment records the registries hold the environment. -/
theorem timeline_nil_environment {rd : Rd w} (h : Logged rd) {p : Processor w}
    {outcomes : List (Outcome w)} (hrun : timeline rd [] = .ok (p, outcomes)) :
    Environment rd p := by
  have hstart : Environment rd
      { (Processor.new : Processor w) with contextRegistry := contextsOf rd.contexts } := by
    refine ⟨rfl, fun name reg hreg => ?_⟩
    have hnone : (∅ : Std.TreeMap Str (ResourceRegistry w))[name]? = none :=
      Std.TreeMap.getElem?_emptyc
    exact absurd (hreg.symm.trans hnone) (by simp)
  obtain ⟨p', hresources, hp'⟩ := parseRecords_environment hstart (fun _ ht => ht) h.live
  have hwhole := parseRecords_append
    (parseRecords_contextRegistry rd.contexts (Processor.new : Processor w)) hresources
  rw [timeline, List.map_nil, List.append_nil, environmentRecords, hwhole] at hrun
  obtain ⟨rfl, -⟩ := Prod.mk.inj (Except.ok.inj hrun)
  exact hp'

/-! ## The reports of a call -/

def allocReports (resource : Resource) (contexts : List Context) (event : Event w) :
    List (Report w) :=
  .alloc resource event :: contexts.map fun ctx => .allocInContext resource ctx event

/-- What is reported for a free that cancels an allocation: its event has
the size of the allocation. -/
def freeReports (resource : Resource) (contexts : List Context) (event allocEvent : Event w) :
    List (Report w) :=
  .free resource { event with resSize := allocEvent.resSize } allocEvent :: contexts.map fun ctx =>
    .freeInContext resource ctx { event with resSize := allocEvent.resSize } allocEvent

/-- The allocation that a call cancels when it is a free. -/
def cancels (rd : Rd w) (calls : List Nat) (c : Nat) : Option Nat :=
  (plainHistory rd calls (callKey rd c)).live.head?

/-- The event of a free, before the size is known. -/
def fcallFree (x : Fcall w) : Event w :=
  eventFree x.data.index x.data.context x.data.timestamp x.data.resId 0

/-- The reports of a call behind some others. -/
def callReports (rd : Rd w) (calls : List Nat) (c : Nat) : List (Report w) :=
  match rd.fcall c with
  | none => []
  | some x =>
      match x.data.resType.bind rd.resource with
      | none => []
      | some res =>
          if x.data.type = ftypeAlloc then
            allocReports (timelineResource res) (logContexts rd x.data.context) (fcallEvent x)
          else
            (((cancels rd calls c).bind rd.fcall).map fun a =>
              freeReports (timelineResource res) (logContexts rd x.data.context) (fcallFree x)
                (fcallEvent a)).getD []

/-- An allocation is always reported. -/
theorem registerAlloc_reports {p p' : Processor w} {resType : Option Str} {name : Str}
    {reg : ResourceRegistry w} (hfind : p.findRegistry resType = some (name, reg))
    (hcounted : reg.resource.refCounted = false) {index context timestamp : BitVec 32}
    {resId resSize : BitVec w} {outcome : Outcome w}
    (h : p.registerAlloc .none index context timestamp resType resId resSize
      = .ok (p', some outcome)) :
    outcome.reports = allocReports reg.resource (p.inContexts context)
        (eventAlloc index context timestamp resId resSize) ∧
      ∃ reg', reg'.resource = reg.resource ∧
        p' = { p with resourceRegistry := p.resourceRegistry.insert name reg' } := by
  have hcode := registerAlloc_code hcounted (eventAlloc index context timestamp resId resSize)
  have hevents := registerAlloc_events hcounted (eventAlloc index context timestamp resId resSize)
  rw [Processor.registerAlloc, hfind] at h
  simp only [Options.none, Options.validate, ne_eq, not_true_eq_false, false_and, if_false,
    List.all_nil, Except.ok.injEq, Prod.mk.injEq, Option.some.injEq] at h
  obtain ⟨rfl, rfl⟩ := h
  have hreports : (reg.registerAlloc
      (eventAlloc index context timestamp resId resSize)).2.1.reports = true := by
    rw [hcode]
    split <;> rfl
  refine ⟨?_, _, ?_, rfl⟩
  · rw [if_pos hreports]
    rfl
  · rw [hevents]

/-- A free is reported if its id has an event. -/
theorem registerFree_reports {p p' : Processor w} {resType : Option Str} {name : Str}
    {reg : ResourceRegistry w} (hfind : p.findRegistry resType = some (name, reg))
    (hcounted : reg.resource.refCounted = false) {index context timestamp : BitVec 32}
    {resId : BitVec w} {outcome : Outcome w}
    (h : p.registerFree .none index context timestamp resType resId = .ok (p', some outcome)) :
    outcome.reports = ((reg.events[resId]?).map (freeReports reg.resource (p.inContexts context)
        (eventFree index context timestamp resId 0))).getD [] ∧
      ∃ reg', reg'.resource = reg.resource ∧
        p' = { p with resourceRegistry := p.resourceRegistry.insert name reg' } := by
  have hcode := registerFree_code hcounted (eventFree index context timestamp resId 0)
  have hresource := registerFree_resource reg (eventFree index context timestamp resId 0)
  rw [Processor.registerFree, hfind] at h
  simp only [Options.none, Options.validate, ne_eq, not_true_eq_false, false_and, if_false,
    List.all_nil] at h
  generalize reg.registerFree (eventFree index context timestamp resId 0) = result
    at h hcode hresource
  obtain ⟨reg', rc, supplied⟩ := result
  have hid : (eventFree index context timestamp resId (0 : BitVec w)).resId = resId := rfl
  rw [hid] at hcode
  cases hfound : reg.events[resId]? with
  | none =>
    rw [hfound, if_pos rfl] at hcode
    obtain ⟨rfl, rfl⟩ := Prod.mk.inj hcode
    simp only [if_true, Except.ok.injEq, Prod.mk.injEq, Option.some.injEq] at h
    obtain ⟨rfl, rfl⟩ := h
    exact ⟨rfl, reg', hresource, rfl⟩
  | some found =>
    rw [hfound, if_neg (by simp)] at hcode
    obtain ⟨rfl, rfl⟩ := Prod.mk.inj hcode
    simp only [reduceCtorEq, if_false, Except.ok.injEq, Prod.mk.injEq, Option.some.injEq] at h
    obtain ⟨rfl, rfl⟩ := h
    exact ⟨rfl, reg', hresource, rfl⟩

variable {rd : Rd w}

/-- **One call**: it goes to the registries, and its reports are read off
the log. -/
theorem timeline_call (h : Logged rd) {calls : List Nat} {c : Nat} (hnd : (calls ++ [c]).Nodup)
    (hc : c ∈ rd.calls) {p : Processor w} {outcomes : List (Outcome w)}
    (hp : Registries rd calls p) (ho : Overrides rd calls outcomes) (he : Environment rd p) :
    ∃ p' outcome, parseRecord .none p (callRecord rd c) = .ok (p', some outcome) ∧
      Registries rd (calls ++ [c]) p' ∧ Overrides rd (calls ++ [c]) (outcomes ++ [outcome]) ∧
      Environment rd p' ∧ outcome.reports = callReports rd calls c := by
  obtain ⟨p', outcome, hstep, hp', ho', -⟩ := timeline_step h hnd hc hp ho
  obtain ⟨x, type, hx, hxtype, htype⟩ := h.carries c hc
  obtain ⟨res, hres⟩ := h.live type htype
  obtain ⟨reg, hreg, hcounted, -, hevents⟩ := hp.registry type htype res hres
  have hfind := hp.find h htype hres hreg
  have hresource := he.registry h htype hres hreg
  refine ⟨p', outcome, hstep, hp', ho', ?_⟩
  rw [callRecord, hx] at hstep
  simp only [parseRecord, hxtype] at hstep
  rcases h.kinds c hc x hx with halloc | hfree
  · simp only [halloc, if_true] at hstep
    obtain ⟨hreports, reg', hreg', rfl⟩ := registerAlloc_reports hfind hcounted hstep
    refine ⟨he.insert hreg hreg', ?_⟩
    rw [hreports, callReports, hx]
    simp [hxtype, hres, halloc, hresource, he.inContexts, fcallEvent]
  · have hne : x.data.type ≠ ftypeAlloc := by rw [hfree]; decide
    simp only [hne, if_false] at hstep
    obtain ⟨hreports, reg', hreg', rfl⟩ := registerFree_reports hfind hcounted hstep
    refine ⟨he.insert hreg hreg', ?_⟩
    have hkey : callKey rd c = (some type, x.data.resId) := by rw [callKey, hx]; simp [hxtype]
    rw [hreports, callReports, hx, hevents, cancels, hkey]
    simp only [hxtype, Option.bind_some, hres, hne, if_false, hresource, he.inContexts, fcallFree]
    cases (plainHistory rd calls (some type, x.data.resId)).live.head? with
    | none => rfl
    | some a => rw [Option.bind_some, Option.bind_some, Option.map_map]; rfl

theorem timeline_run_environment (h : Logged rd) (hnd : rd.calls.Nodup) {pre : List Nat} :
    ∀ post, rd.calls = pre ++ post → ∃ p outcomes, timeline rd pre = .ok (p, outcomes) ∧
      Registries rd pre p ∧ Overrides rd pre outcomes ∧ Environment rd p := by
  induction pre using List.reverseRecOn with
  | nil =>
    intro _ _
    obtain ⟨p, hrun, hp, ho⟩ := timeline_environment h
    exact ⟨p, [], hrun, hp, ho, timeline_nil_environment h hrun⟩
  | append_singleton pre c ih =>
    intro post heq
    obtain ⟨p, outcomes, hrun, hp, ho, he⟩ := ih (c :: post) (by rw [heq]; simp)
    have hnd' : (pre ++ [c]).Nodup := by
      rw [heq] at hnd
      exact (List.nodup_append.mp hnd).1
    obtain ⟨p', outcome, hcall, hp', ho', he', -⟩ :=
      timeline_call h hnd' (by rw [heq]; simp) hp ho he
    refine ⟨p', outcomes ++ [outcome], ?_, hp', ho', he'⟩
    rw [timeline, List.map_append, ← List.append_assoc]
    exact parseRecords_append hrun (parseRecords_single hcall)

/-! ## A generator on a log -/

/-- A report generator behind some calls of a log: it starts with `start`
and is told the reports of each call. -/
def generatorReport {σ : Type} (feed : σ → List (Report w) → Option σ) (start : σ) (rd : Rd w)
    (calls : List Nat) : Option σ :=
  match timeline rd calls with
  | .error _ => none
  | .ok result => result.2.foldlM (fun g outcome => feed g outcome.reports) start

section GeneratorReport

variable {σ : Type} {feed : σ → List (Report w) → Option σ} {start : σ}

theorem generatorReport_nil (h : Logged rd) : generatorReport feed start rd [] = some start := by
  obtain ⟨p, hrun, -, -⟩ := timeline_environment h
  rw [generatorReport, hrun]
  rfl

/-- **One more call**: the generator is told its reports. -/
theorem generatorReport_snoc (h : Logged rd) (hnd : rd.calls.Nodup) {pre post : List Nat} {c : Nat}
    (heq : rd.calls = pre ++ c :: post) :
    generatorReport feed start rd (pre ++ [c])
      = (generatorReport feed start rd pre).bind fun g => feed g (callReports rd pre c) := by
  obtain ⟨p, outcomes, hrun, hp, ho, he⟩ := timeline_run_environment h hnd (c :: post) heq
  have hnd' : (pre ++ [c]).Nodup := by
    rw [heq, List.append_cons] at hnd
    exact (List.nodup_append.mp hnd).1
  obtain ⟨p', outcome, hcall, -, -, -, hreports⟩ :=
    timeline_call h hnd' (by rw [heq]; simp) hp ho he
  have hrun' : timeline rd (pre ++ [c]) = .ok (p', outcomes ++ [outcome]) := by
    rw [timeline, List.map_append, ← List.append_assoc]
    exact parseRecords_append hrun (parseRecords_single hcall)
  rw [generatorReport, generatorReport, hrun, hrun']
  simp only [List.foldlM_append, List.foldlM_cons, List.foldlM_nil, hreports, bind_pure]
  rfl

end GeneratorReport

/-- The totals generator behind some calls of a log. -/
def totalsReport (rd : Rd w) (calls : List Nat) : Option TotalsGenerator :=
  generatorReport TotalsGenerator.feed .new rd calls

theorem totalsReport_nil (h : Logged rd) : totalsReport rd [] = some .new := generatorReport_nil h

theorem totalsReport_snoc (h : Logged rd) (hnd : rd.calls.Nodup) {pre post : List Nat} {c : Nat}
    (heq : rd.calls = pre ++ c :: post) :
    totalsReport rd (pre ++ [c])
      = (totalsReport rd pre).bind fun g => g.feed (callReports rd pre c) :=
  generatorReport_snoc h hnd heq

end SpRtrace.Timeline
