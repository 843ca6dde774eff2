/-
SpRtrace.Timeline.TimelineTheorems — the timeline tool against the leak
filter.

The registries of the timeline follow the reference semantics of the leak
filter without reference counting: the event of a resource id is the most
recent allocation that a free would cancel, and an overridden event is a
kept call behind it (`Follows`). One call keeps the relation
(`follows_step`), and `SpRtrace.Postproc.Recount` says when counting makes
no difference.
-/
import SpRtrace.Postproc.LeakTheorems
import SpRtrace.Postproc.Recount
import SpRtrace.Timeline.Processor

namespace SpRtrace.Timeline

open SpRtrace.Lib SpRtrace.Common SpRtrace.Library SpRtrace.Postproc

variable {w : Nat}

/-! ## Records -/

/-- The lines of a file are handled as the records they are read as. -/
theorem parseFile_records {opts : Options w} {lines : List Str} {records : List (Record w)}
    (h : lines.map (spRtraceParserParseRecord parserMask) = records.map some) (p : Processor w) :
    parseFile opts p lines = parseRecords opts p records := by
  induction lines generalizing records p with
  | nil =>
    obtain rfl := List.map_eq_nil_iff.mp h.symm
    rfl
  | cons line lines ih =>
    obtain ⟨record, records, rfl, hrecord, hrecords⟩ := List.map_eq_cons_iff.mp h.symm
    rw [parseFile, ← hrecord, parseRecords]
    simp only [ih hrecords.symm]

theorem parseRecords_append {opts : Options w} {p p' p'' : Processor w}
    {records records' : List (Record w)} {outcomes outcomes' : List (Outcome w)}
    (h : parseRecords opts p records = .ok (p', outcomes))
    (h' : parseRecords opts p' records' = .ok (p'', outcomes')) :
    parseRecords opts p (records ++ records') = .ok (p'', outcomes ++ outcomes') := by
  induction records generalizing p outcomes with
  | nil =>
    obtain ⟨rfl, rfl⟩ := Prod.mk.inj (Except.ok.inj h)
    exact h'
  | cons record records ih =>
    rw [parseRecords] at h
    rw [List.cons_append, parseRecords]
    cases hrecord : parseRecord opts p record with
    | error e =>
      rw [hrecord] at h
      exact absurd h (by simp [bind, Except.bind])
    | ok result =>
      rw [hrecord] at h
      simp only [bind, Except.bind] at h ⊢
      cases hrest : parseRecords opts result.1 records with
      | error e =>
        rw [hrest] at h
        exact absurd h (by simp)
      | ok result' =>
        rw [hrest] at h
        obtain ⟨rfl, rfl⟩ := Prod.mk.inj (Except.ok.inj h)
        rw [ih hrest]
        simp

theorem parseRecords_single {opts : Options w} {p p' : Processor w} {record : Record w}
    {outcome : Option (Outcome w)} (h : parseRecord opts p record = .ok (p', outcome)) :
    parseRecords opts p [record] = .ok (p', outcome.toList) := by
  rw [parseRecords, h]
  simp [bind, Except.bind, parseRecords]

/-- The type of a call in its record: a hidden resource has none. -/
def callTypeField (rd : Rd w) (resType : Option Nat) : ResField w :=
  match resType.bind rd.resource with
  | none => .undef
  | some res => if res.hide then .undef else .name res.type

def callRecord (rd : Rd w) (call : Nat) : Record w :=
  match rd.fcall call with
  | none => .none
  | some x =>
      .call
        { index := x.data.index, context := x.data.context, timestamp := x.data.timestamp
          name := x.data.name, resType := callTypeField rd x.data.resType, type := x.data.type
          resSize := if x.data.type = ftypeAlloc then x.data.resSize else 0
          resId := x.data.resId }

def resourceRecord (rd : Rd w) (type : Nat) : Record w :=
  match rd.resource type with
  | none => .none
  | some res => .resource { res with hide := false }

/-- The records in front of the calls. -/
def environmentRecords (rd : Rd w) : List (Record w) :=
  rd.contexts.map .context ++ rd.resources.map (resourceRecord rd)

/-- The timeline tool on a log with some of the calls, without filters. -/
def timeline (rd : Rd w) (calls : List Nat) : Except Failure (Processor w × List (Outcome w)) :=
  parseRecords .none .new (environmentRecords rd ++ calls.map (callRecord rd))

/-- What a text log can hold: the calls are allocations and frees of
registered resources, the resources have types and ids of their own, and
only a single resource is hidden in its calls. -/
structure Logged (rd : Rd w) : Prop where
  live : ∀ type ∈ rd.resources, ∃ res, rd.resource type = some res
  types : ∀ type ∈ rd.resources, ∀ type' ∈ rd.resources, ∀ res res', rd.resource type = some res →
    rd.resource type' = some res' → res.type = res'.type → type = type'
  ids : ∀ type ∈ rd.resources, ∀ type' ∈ rd.resources, ∀ res res', rd.resource type = some res →
    rd.resource type' = some res' → res.id = res'.id → type = type'
  hidden : ∀ type ∈ rd.resources, ∀ res, rd.resource type = some res → res.hide = true →
    ∀ type' ∈ rd.resources, type' = type
  carries : ∀ c ∈ rd.calls, ∃ x type, rd.fcall c = some x ∧ x.data.resType = some type ∧
    type ∈ rd.resources
  kinds : ∀ c ∈ rd.calls, ∀ x, rd.fcall c = some x →
    x.data.type = ftypeAlloc ∨ x.data.type = ftypeFree

theorem Logged.resourced {rd : Rd w} (h : Logged rd) : Resourced rd := by
  constructor
  · intro c hc
    obtain ⟨x, type, hx, htype, hmem⟩ := h.carries c hc
    obtain ⟨res, hres⟩ := h.live type hmem
    exact ⟨x, type, res, hx, htype, hres⟩
  · intro c hc d hd x y type type' res res' hx hy htype htype' hres hres' hid
    obtain ⟨x', t, hx', ht, hmem⟩ := h.carries c hc
    obtain ⟨y', t', hy', ht', hmem'⟩ := h.carries d hd
    obtain rfl := Option.some.inj (hx.symm.trans hx')
    obtain rfl := Option.some.inj (hy.symm.trans hy')
    obtain rfl := Option.some.inj (htype.symm.trans ht)
    obtain rfl := Option.some.inj (htype'.symm.trans ht')
    exact h.ids _ hmem _ hmem' res res' hres hres' hid

/-! ## The registries -/

def fcallEvent (x : Fcall w) : Event w :=
  eventAlloc x.data.index x.data.context x.data.timestamp x.data.resId
    (x.data.resSize.signExtend w)

/-- The event of a call with the type of its resource. -/
def callEvent (rd : Rd w) (call : Nat) : Option (Str × Event w) := do
  let x ← rd.fcall call
  let res ← rd.resource (← x.data.resType)
  some (res.type, fcallEvent x)

/-- The history of a pair without reference counting. -/
abbrev plainHistory (rd : Rd w) (calls : List Nat) (k : Option Nat × BitVec w) : KeyState Nat :=
  keyRun (callKind rd) (callKey rd) (fun _ => false) calls k

/-- The calls that are kept without reference counting. -/
abbrev plainKept (rd : Rd w) (calls : List Nat) : List Nat :=
  keptCalls (callKind rd) (callKey rd) (fun _ => false) calls

/-- The registries follow the histories of the pairs. -/
structure Registries (rd : Rd w) (calls : List Nat) (p : Processor w) : Prop where
  known : ∀ name reg, p.resourceRegistry[name]? = some reg →
    ∃ type ∈ rd.resources, ∃ res, rd.resource type = some res ∧ res.type = name
  registry : ∀ type ∈ rd.resources, ∀ res, rd.resource type = some res →
    ∃ reg, p.resourceRegistry[res.type]? = some reg ∧ reg.resource.refCounted = false ∧
      reg.resource.name = res.type ∧
      ∀ id, reg.events[id]? =
        (plainHistory rd calls (some type, id)).live.head?.bind fun c => (rd.fcall c).map fcallEvent

/-- The overridden events are those of the overridden calls. -/
def Overrides (rd : Rd w) (calls : List Nat) (outcomes : List (Outcome w)) : Prop :=
  ∃ old : List Nat, old.Nodup ∧ (overridden outcomes).map some = old.map (callEvent rd) ∧
    ∀ c, c ∈ old ↔ Overridden (callKind rd) (callKey rd) calls c

/-! ## The environment -/

structure Registered (rd : Rd w) (types : List Nat) (p : Processor w) : Prop where
  known : ∀ name reg, p.resourceRegistry[name]? = some reg →
    (∃ type ∈ types, ∃ res, rd.resource type = some res ∧ res.type = name) ∧
      reg.resource.refCounted = false ∧ reg.resource.name = name ∧ ∀ id : BitVec w, reg.events[id]? = none
  all : ∀ type ∈ types, ∀ res, rd.resource type = some res → res.type ∈ p.resourceRegistry

theorem registerResource_registered {rd : Rd w} {types : List Nat} {p : Processor w}
    (h : Registered rd types p) {type : Nat} {res : Common.Resource w}
    (hres : rd.resource type = some res) (typeId : BitVec 32) :
    Registered rd (types ++ [type]) (p.registerResource typeId res.type false) := by
  constructor
  · intro name reg hreg
    rw [Processor.registerResource, Std.TreeMap.getElem?_insertIfNew] at hreg
    split at hreg
    next hnew =>
      obtain rfl := Option.some.inj hreg
      have hname : res.type = name := Std.LawfulEqCmp.compare_eq_iff_eq.mp hnew.1
      refine ⟨⟨type, by simp, res, hres, hname⟩, rfl, hname, fun id => ?_⟩
      exact Std.TreeMap.getElem?_emptyc
    · obtain ⟨⟨t, ht, r, hr, hname⟩, hrest⟩ := h.known name reg hreg
      exact ⟨⟨t, by simp [ht], r, hr, hname⟩, hrest⟩
  · intro t ht r hr
    rw [Processor.registerResource, Std.TreeMap.mem_insertIfNew]
    rcases List.mem_append.mp ht with ht | ht
    · exact Or.inr (h.all t ht r hr)
    · obtain rfl := List.mem_singleton.mp ht
      obtain rfl := Option.some.inj (hr.symm.trans hres)
      exact Or.inl (Std.LawfulEqCmp.compare_eq_iff_eq.mpr rfl)

theorem parseRecords_resources {rd : Rd w} {done todo : List Nat} {p : Processor w}
    (h : Registered rd done p) (hlive : ∀ type ∈ todo, ∃ res, rd.resource type = some res) :
    ∃ p', parseRecords .none p (todo.map (resourceRecord rd)) = .ok (p', []) ∧
      Registered rd (done ++ todo) p' := by
  induction todo generalizing done p with
  | nil => exact ⟨p, rfl, by rw [List.append_nil]; exact h⟩
  | cons type todo ih =>
    obtain ⟨res, hres⟩ := hlive type (List.mem_cons_self ..)
    have hstep := registerResource_registered h hres (BitVec.ofNat 32 (ffs (res.id.setWidth 32)))
    obtain ⟨p', hrun, hp'⟩ := ih hstep fun t ht => hlive t (List.mem_cons_of_mem _ ht)
    refine ⟨p', ?_, by rw [List.append_cons]; exact hp'⟩
    have hrecord : parseRecord .none p (resourceRecord rd type)
        = .ok (p.registerResource (BitVec.ofNat 32 (ffs (res.id.setWidth 32))) res.type false,
          Option.none) := by
      rw [resourceRecord, hres]
      rfl
    exact parseRecords_append (parseRecords_single hrecord) hrun

theorem parseRecords_contexts {rd : Rd w} (contexts : List (Common.Context w)) {p : Processor w}
    (h : Registered rd [] p) :
    ∃ p', parseRecords .none p (contexts.map Record.context) = .ok (p', []) ∧
      Registered rd [] p' := by
  induction contexts generalizing p with
  | nil => exact ⟨p, rfl, h⟩
  | cons ctx contexts ih =>
    have hstep : Registered rd [] (p.registerContext (ctx.id.setWidth 32) ctx.name) :=
      ⟨h.known, h.all⟩
    obtain ⟨p', hrun, hp'⟩ := ih hstep
    have hrecord : parseRecord .none p (Record.context ctx)
        = .ok (p.registerContext (ctx.id.setWidth 32) ctx.name, Option.none) := rfl
    exact ⟨p', parseRecords_append (parseRecords_single hrecord) hrun, hp'⟩

theorem registered_new (rd : Rd w) : Registered rd [] (.new : Processor w) := by
  constructor
  · intro name reg hreg
    rw [Processor.new, Std.TreeMap.getElem?_emptyc] at hreg
    exact absurd hreg (by simp)
  · intro type htype
    exact absurd htype (List.not_mem_nil)

/-- Behind the environment nothing has happened to any pair. -/
theorem timeline_environment {rd : Rd w} (h : Logged rd) :
    ∃ p, timeline rd [] = .ok (p, []) ∧ Registries rd [] p ∧ Overrides rd [] [] := by
  obtain ⟨p₁, hcontexts, hp₁⟩ := parseRecords_contexts rd.contexts (registered_new rd)
  obtain ⟨p, hresources, hp⟩ := parseRecords_resources hp₁ h.live
  refine ⟨p, ?_, ⟨?_, ?_⟩, ?_⟩
  · rw [timeline, List.map_nil, List.append_nil, environmentRecords]
    exact parseRecords_append hcontexts hresources
  · exact fun name reg hreg => (hp.known name reg hreg).1
  · intro type htype res hres
    obtain ⟨reg, hreg⟩ : ∃ reg, p.resourceRegistry[res.type]? = some reg :=
      Option.isSome_iff_exists.mp (Std.TreeMap.mem_iff_isSome_getElem?.mp (hp.all type htype res hres))
    obtain ⟨-, hcounted, hname, hevents⟩ := hp.known res.type reg hreg
    exact ⟨reg, hreg, hcounted, hname, hevents⟩
  · exact ⟨[], List.nodup_nil, rfl, fun c => by simp [Overridden, keptCalls]⟩

/-! ## One call -/

variable {rd : Rd w}

/-- The registry of a call is found, by the name of its type or as the
only one. -/
theorem Registries.find {calls : List Nat} {p : Processor w} (hp : Registries rd calls p)
    (h : Logged rd) {type : Nat} (htype : type ∈ rd.resources) {res : Common.Resource w}
    (hres : rd.resource type = some res) {reg : ResourceRegistry w}
    (hreg : p.resourceRegistry[res.type]? = some reg) :
    p.findRegistry (resTypeName (callTypeField rd (some type))) = some (res.type, reg) := by
  rw [callTypeField, Option.bind_some, hres]
  cases hhide : res.hide with
  | false => simp [hhide, resTypeName, Processor.findRegistry, hreg]
  | true =>
    simp only [hhide, if_true, resTypeName, Processor.findRegistry]
    have hmem := Std.TreeMap.mem_toList_iff_getElem?_eq_some.mpr hreg
    cases hlist : p.resourceRegistry.toList with
    | nil =>
      rw [hlist] at hmem
      exact absurd hmem (List.not_mem_nil)
    | cons entry rest =>
      obtain ⟨name, reg'⟩ := entry
      have hfirst : (name, reg') ∈ p.resourceRegistry.toList := by
        rw [hlist]
        exact List.mem_cons_self ..
      have hreg' := Std.TreeMap.mem_toList_iff_getElem?_eq_some.mp hfirst
      obtain ⟨type', htype', res', hres', hname⟩ := hp.known name reg' hreg'
      obtain rfl := h.hidden type htype res hres hhide type' htype'
      obtain rfl := Option.some.inj (hres.symm.trans hres')
      subst hname
      rw [hreg] at hreg'
      rw [Option.some.inj hreg']
      rfl

/-- One more call changes the registry of its resource, at its id. -/
theorem Registries.insert {calls : List Nat} {p : Processor w} (hp : Registries rd calls p)
    (h : Logged rd) {c type : Nat} {id : BitVec w} (hkey : callKey rd c = (some type, id))
    (htype : type ∈ rd.resources) {res : Common.Resource w} (hres : rd.resource type = some res)
    {reg reg' : ResourceRegistry w} (hreg : p.resourceRegistry[res.type]? = some reg)
    (hresource : reg'.resource = reg.resource)
    (hself : reg'.events[id]? = (plainHistory rd (calls ++ [c]) (some type, id)).live.head?.bind
      fun c => (rd.fcall c).map fcallEvent)
    (hother : ∀ id', id' ≠ id → reg'.events[id']? = reg.events[id']?) :
    Registries rd (calls ++ [c])
      { p with resourceRegistry := p.resourceRegistry.insert res.type reg' } := by
  constructor
  · intro name found hfound
    rw [Std.TreeMap.getElem?_insert] at hfound
    split at hfound
    next heq => exact ⟨type, htype, res, hres, Std.LawfulEqCmp.compare_eq_iff_eq.mp heq⟩
    · exact hp.known name found hfound
  · intro type' htype' res' hres'
    obtain ⟨found, hfound, hcounted, hname, hevents⟩ := hp.registry type' htype' res' hres'
    by_cases hsame : type' = type
    · subst hsame
      obtain rfl := Option.some.inj (hres.symm.trans hres')
      obtain rfl := Option.some.inj (hreg.symm.trans hfound)
      refine ⟨reg', Std.TreeMap.getElem?_insert_self, by rw [hresource]; exact hcounted,
        by rw [hresource]; exact hname, fun id' => ?_⟩
      by_cases hid : id' = id
      · rw [hid]
        exact hself
      · rw [hother id' hid, hevents id', plainHistory, plainHistory,
          keyRun_snoc_ne _ _ _ calls (by rw [hkey]; simp [Ne.symm hid])]
    · have hne : ¬ compare res.type res'.type = .eq := fun heq => hsame
        (h.types type' htype' type htype res' res hres' hres
          (Std.LawfulEqCmp.compare_eq_iff_eq.mp heq).symm)
      refine ⟨found, ?_, hcounted, hname, fun id' => ?_⟩
      · rw [Std.TreeMap.getElem?_insert, if_neg hne, hfound]
      · rw [hevents id', plainHistory, plainHistory,
          keyRun_snoc_ne _ _ _ calls (by rw [hkey]; simp [Ne.symm hsame])]

theorem Overrides.same {calls : List Nat} {c : Nat} {outcomes : List (Outcome w)}
    (ho : Overrides rd calls outcomes) {outcome : Outcome w} (hrc : outcome.rc ≠ .reportExists)
    (hsame : ∀ x, Overridden (callKind rd) (callKey rd) (calls ++ [c]) x ↔
      Overridden (callKind rd) (callKey rd) calls x) :
    Overrides rd (calls ++ [c]) (outcomes ++ [outcome]) := by
  obtain ⟨old, hnodup, hevents, hmem⟩ := ho
  refine ⟨old, hnodup, ?_, fun x => (hmem x).trans (hsame x).symm⟩
  rw [overridden, List.filterMap_append, ← overridden, ← hevents]
  simp [hrc]

/-- The allocation that a free of the pair would cancel. -/
theorem live_call {calls : List Nat} (hnd : calls.Nodup) {k : Option Nat × BitVec w} {a : Nat}
    (h : (plainHistory rd calls k).live.head? = some a) :
    ∃ y, rd.fcall a = some y ∧ (y.data.resType, y.data.resId) = k := by
  have hwf : (plainHistory rd calls k).Wf (callKind rd) (callKey rd) (fun _ => false) calls k :=
    keyRun_wf hnd k
  have hmem := List.mem_of_mem_head? h
  have hkind := hwf.live_kind a hmem
  have hkey := (hwf.live_mem a hmem).2
  unfold callKind at hkind
  unfold callKey at hkey
  cases hy : rd.fcall a with
  | none =>
    rw [hy] at hkind
    exact absurd hkind (by simp)
  | some y =>
    rw [hy] at hkey
    exact ⟨y, rfl, hkey⟩

/-- An allocation overrides the event of its id, if there is one. -/
theorem Overrides.alloc {calls : List Nat} {c type : Nat} {id : BitVec w}
    (hnd : (calls ++ [c]).Nodup) (hkind : callKind rd c = .alloc)
    (hkey : callKey rd c = (some type, id)) {res : Common.Resource w}
    (hres : rd.resource type = some res) {found : Option (Event w)}
    (hfound : found = (plainHistory rd calls (some type, id)).live.head?.bind
      fun c => (rd.fcall c).map fcallEvent) {outcome : Outcome w} (hname : outcome.name = res.type)
    (hcode : (outcome.rc, outcome.supplied)
      = (if found = none then .reportOk else .reportExists, found))
    {outcomes : List (Outcome w)} (ho : Overrides rd calls outcomes) :
    Overrides rd (calls ++ [c]) (outcomes ++ [outcome]) := by
  obtain ⟨hrc, hsupplied⟩ := Prod.mk.inj hcode
  have hover : ∀ y, Overridden (callKind rd) (callKey rd) (calls ++ [c]) y ↔
      Overridden (callKind rd) (callKey rd) calls y ∨
        (plainHistory rd calls (some type, id)).live.head? = some y := by
    intro y
    rw [overridden_alloc hnd hkind, hkey]
  cases hhead : (plainHistory rd calls (some type, id)).live.head? with
  | none =>
    rw [hhead, Option.bind_none] at hfound
    rw [hfound, if_pos rfl] at hrc
    refine ho.same (by rw [hrc]; simp) fun y => ?_
    rw [hover y, hhead]
    simp
  | some a =>
    obtain ⟨y, hy, hpair⟩ := live_call (List.nodup_append.mp hnd).1 hhead
    obtain ⟨hytype, hyid⟩ := Prod.mk.inj hpair
    rw [hhead, Option.bind_some, hy, Option.map_some] at hfound
    rw [hfound, if_neg (by simp)] at hrc
    obtain ⟨old, hnodup, hevents, hmem⟩ := ho
    have hnew : a ∉ old := by
      intro hold
      refine ((hmem a).mp hold).2 ?_
      rw [callKey, hy, ← hhead]
      simp only [hytype, hyid]
    refine ⟨old ++ [a], List.nodup_append.mpr ⟨hnodup, List.nodup_singleton a, ?_⟩, ?_, fun x => ?_⟩
    · intro x hx b hb hxb
      rw [hxb, List.mem_singleton.mp hb] at hx
      exact hnew hx
    · rw [overridden, List.filterMap_append, ← overridden, List.map_append, hevents, List.map_append]
      simp [hrc, hsupplied, hfound, hname, callEvent, hy, hytype, hres]
    · rw [List.mem_append, List.mem_singleton, hmem x, hover x, hhead, Option.some.injEq, eq_comm]

theorem registerAlloc_events {reg : ResourceRegistry w} (hcounted : reg.resource.refCounted = false)
    (event : Event w) :
    (reg.registerAlloc event).1 = { reg with events := reg.events.insert event.resId event } := by
  unfold ResourceRegistry.registerAlloc
  cases reg.events[event.resId]? with
  | none => rfl
  | some found => simp [hcounted]

/-- What a registry without counting says about an allocation. -/
theorem registerAlloc_code {reg : ResourceRegistry w} (hcounted : reg.resource.refCounted = false)
    (event : Event w) :
    (reg.registerAlloc event).2 =
      (if reg.events[event.resId]? = none then .reportOk else .reportExists,
        reg.events[event.resId]?) := by
  unfold ResourceRegistry.registerAlloc
  cases reg.events[event.resId]? with
  | none => rfl
  | some found => simp [hcounted]

theorem registerFree_resource (reg : ResourceRegistry w) (event : Event w) :
    (reg.registerFree event).1.resource = reg.resource := by
  unfold ResourceRegistry.registerFree
  cases reg.events[event.resId]? with
  | none => rfl
  | some found =>
    simp only
    split <;> rfl

theorem registerFree_events {reg : ResourceRegistry w} (hcounted : reg.resource.refCounted = false)
    (event : Event w) (id : BitVec w) :
    (reg.registerFree event).1.events[id]? =
      if id = event.resId then none else reg.events[id]? := by
  unfold ResourceRegistry.registerFree
  cases hfound : reg.events[event.resId]? with
  | none =>
    by_cases hid : id = event.resId
    · rw [if_pos hid, hid]
      exact hfound
    · rw [if_neg hid]
  | some found =>
    simp only [hcounted, Bool.false_eq_true, false_and, if_false, Std.TreeMap.getElem?_erase,
      Std.LawfulEqCmp.compare_eq_iff_eq]
    exact if_congr eq_comm rfl rfl

/-- What a registry without counting says about a free. -/
theorem registerFree_code {reg : ResourceRegistry w} (hcounted : reg.resource.refCounted = false)
    (event : Event w) :
    (reg.registerFree event).2 =
      (if reg.events[event.resId]? = none then .blockScope else .reportOk,
        reg.events[event.resId]?) := by
  unfold ResourceRegistry.registerFree
  cases reg.events[event.resId]? with
  | none => rfl
  | some found => simp [hcounted]

/-- Without filters an allocation goes to its registry. -/
theorem registerAlloc_found {p : Processor w} {resType : Option Str} {name : Str}
    {reg : ResourceRegistry w} (hfind : p.findRegistry resType = some (name, reg))
    {index context timestamp : BitVec 32} {resId resSize : BitVec w} {event : Event w}
    (hevent : eventAlloc index context timestamp resId resSize = event) :
    ∃ outcome, p.registerAlloc .none index context timestamp resType resId resSize =
        .ok ({ p with
          resourceRegistry := p.resourceRegistry.insert name (reg.registerAlloc event).1 },
          some outcome) ∧
      outcome.name = name ∧ (outcome.rc, outcome.supplied) = (reg.registerAlloc event).2 := by
  rw [Processor.registerAlloc, hfind, ← hevent]
  exact ⟨_, rfl, rfl, rfl⟩

/-- Without filters, and without counting, a free goes to its registry,
and the event that is used is there. -/
theorem registerFree_found {p : Processor w} {resType : Option Str} {name : Str}
    {reg : ResourceRegistry w} (hfind : p.findRegistry resType = some (name, reg))
    (hcounted : reg.resource.refCounted = false)
    {index context timestamp : BitVec 32} {resId : BitVec w} {event : Event w}
    (hevent : eventFree index context timestamp resId 0 = event) :
    ∃ outcome, p.registerFree .none index context timestamp resType resId =
        .ok ({ p with
          resourceRegistry := p.resourceRegistry.insert name (reg.registerFree event).1 },
          some outcome) ∧
      (outcome.rc, outcome.supplied) = (reg.registerFree event).2 := by
  rw [Processor.registerFree, hfind, hevent]
  have hcode := registerFree_code hcounted event
  dsimp only
  generalize reg.registerFree event = result at hcode ⊢
  obtain ⟨reg', rc, supplied⟩ := result
  cases hfound : reg.events[event.resId]? with
  | none =>
    rw [hfound, if_pos rfl] at hcode
    obtain ⟨rfl, rfl⟩ := Prod.mk.inj hcode
    refine ⟨_, rfl, ?_⟩
    rfl
  | some found =>
    rw [hfound, if_neg (by simp)] at hcode
    obtain ⟨rfl, rfl⟩ := Prod.mk.inj hcode
    refine ⟨_, rfl, ?_⟩
    rfl

/-- What one call does: the relation is kept, and a free is reported if and
only if it cancels an allocation. -/
theorem timeline_step (h : Logged rd) {calls : List Nat} {c : Nat} (hnd : (calls ++ [c]).Nodup)
    (hc : c ∈ rd.calls) {p : Processor w} {outcomes : List (Outcome w)}
    (hp : Registries rd calls p) (ho : Overrides rd calls outcomes) :
    ∃ p' outcome, parseRecord .none p (callRecord rd c) = .ok (p', some outcome) ∧
      Registries rd (calls ++ [c]) p' ∧ Overrides rd (calls ++ [c]) (outcomes ++ [outcome]) ∧
      (callKind rd c = .free →
        (outcome.rc = .reportOk ↔ (plainHistory rd calls (callKey rd c)).live ≠ [])) := by
  obtain ⟨x, type, hx, hxtype, htype⟩ := h.carries c hc
  obtain ⟨res, hres⟩ := h.live type htype
  obtain ⟨reg, hreg, hcounted, hname, hevents⟩ := hp.registry type htype res hres
  have hfind := hp.find h htype hres hreg
  have hkey : callKey rd c = (some type, x.data.resId) := by rw [callKey, hx]; simp [hxtype]
  have hhist : plainHistory rd (calls ++ [c]) (some type, x.data.resId)
      = uncountedStep (callKind rd) (plainHistory rd calls (some type, x.data.resId)) c := by
    rw [plainHistory, ← hkey, keyRun_snoc_self]
    rfl
  rcases h.kinds c hc x hx with halloc | hfree
  · have hkind : callKind rd c = .alloc := by rw [callKind, hx]; simp [halloc]
    obtain ⟨outcome, hrun, honame, hcode⟩ :=
      registerAlloc_found hfind (show _ = fcallEvent x from rfl)
    rw [registerAlloc_code hcounted] at hcode
    refine ⟨{ p with
        resourceRegistry := p.resourceRegistry.insert res.type (reg.registerAlloc (fcallEvent x)).1 },
      outcome, ?_, ?_, ho.alloc hnd hkind hkey hres (hevents x.data.resId) honame hcode,
      fun hk => absurd (hkind.symm.trans hk) (by simp)⟩
    · rw [callRecord, hx]
      simp only [parseRecord, halloc, if_true, hxtype]
      exact hrun
    · rw [registerAlloc_events hcounted]
      refine hp.insert h hkey htype hres hreg rfl ?_ fun id' hid => ?_
      · rw [hhist, uncountedStep, hkind]
        simp only [List.head?_cons, Option.bind_some, hx, Option.map_some]
        exact Std.TreeMap.getElem?_insert_self
      · rw [Std.TreeMap.getElem?_insert, if_neg]
        exact fun heq => hid (Std.LawfulEqCmp.compare_eq_iff_eq.mp heq).symm
  · have hkind : callKind rd c = .free := by
      rw [callKind, hx]
      simp [hfree, ftypeAlloc, ftypeFree]
    obtain ⟨event, hevent⟩ : ∃ event : Event w,
      eventFree x.data.index x.data.context x.data.timestamp x.data.resId 0 = event := ⟨_, rfl⟩
    have hid : event.resId = x.data.resId := by rw [← hevent]; rfl
    obtain ⟨outcome, hrun, hcode⟩ := registerFree_found hfind hcounted hevent
    rw [registerFree_code hcounted, hid] at hcode
    have hrc : outcome.rc = if reg.events[x.data.resId]? = none then .blockScope else .reportOk :=
      congrArg Prod.fst hcode
    refine ⟨{ p with
        resourceRegistry := p.resourceRegistry.insert res.type (reg.registerFree event).1 },
      outcome, ?_, ?_, ho.same ?_ fun y => overridden_free hnd hkind, fun _ => ?_⟩
    · rw [callRecord, hx]
      simp only [parseRecord, hfree, hxtype]
      exact hrun
    · refine hp.insert h hkey htype hres hreg (registerFree_resource _ _) ?_ fun id' hne => ?_
      · rw [registerFree_events hcounted, if_pos hid.symm, hhist, uncountedStep, hkind]
        cases hlive : (plainHistory rd calls (some type, x.data.resId)).live with
        | nil => simp
        | cons a rest => simp
      · rw [registerFree_events hcounted, if_neg (by rw [hid]; exact hne)]
    · rw [hrc]
      split <;> simp
    · rw [hrc, hkey, hevents]
      cases hlive : (plainHistory rd calls (some type, x.data.resId)).live with
      | nil => simp
      | cons a rest =>
        obtain ⟨y, hy, -⟩ := live_call (List.nodup_append.mp hnd).1
          (show (plainHistory rd calls (some type, x.data.resId)).live.head? = some a by
            rw [hlive]; rfl)
        simp [hy]

/-! ## The whole log -/

theorem timeline_run (h : Logged rd) (hnd : rd.calls.Nodup) {pre : List Nat} :
    ∀ post, rd.calls = pre ++ post → ∃ p outcomes, timeline rd pre = .ok (p, outcomes) ∧
      Registries rd pre p ∧ Overrides rd pre outcomes := by
  induction pre using List.reverseRecOn with
  | nil =>
    intro _ _
    obtain ⟨p, hrun, hp, ho⟩ := timeline_environment h
    exact ⟨p, [], hrun, hp, ho⟩
  | append_singleton pre c ih =>
    intro post heq
    obtain ⟨p, outcomes, hrun, hp, ho⟩ := ih (c :: post) (by rw [heq]; simp)
    have hc : c ∈ rd.calls := by rw [heq]; simp
    have hnd' : (pre ++ [c]).Nodup := by
      rw [heq] at hnd
      exact (List.nodup_append.mp hnd).1
    obtain ⟨p', outcome, hstep, hp', ho', -⟩ := timeline_step h hnd' hc hp ho
    refine ⟨p', outcomes ++ [outcome], ?_, hp', ho'⟩
    rw [timeline, List.map_append, ← List.append_assoc]
    exact parseRecords_append hrun (parseRecords_single hstep)

/-- The calls whose events are in the registries. -/
def heldCalls (rd : Rd w) (calls : List Nat) : List Nat :=
  (plainKept rd calls).filter fun c => (plainHistory rd calls (callKey rd c)).live.head? = some c

theorem mem_heldCalls {calls : List Nat} (hnd : calls.Nodup) {c : Nat} {k : Option Nat × BitVec w}
    (hkey : callKey rd c = k) :
    c ∈ heldCalls rd calls ↔ (plainHistory rd calls k).live.head? = some c := by
  rw [heldCalls, List.mem_filter, decide_eq_true_eq, hkey]
  exact ⟨fun hc => hc.2, fun hhead => ⟨(head_of_mem hnd hhead).1, hhead⟩⟩

/-- A call that is held, with its resource and its event. -/
theorem heldCalls_event (h : Logged rd) {calls : List Nat} (hnd : calls.Nodup)
    (hsub : ∀ c ∈ calls, c ∈ rd.calls) {c : Nat} (hc : c ∈ heldCalls rd calls) :
    ∃ y type res, rd.fcall c = some y ∧ type ∈ rd.resources ∧ rd.resource type = some res ∧
      callKey rd c = (some type, y.data.resId) ∧ callEvent rd c = some (res.type, fcallEvent y) ∧
      (plainHistory rd calls (some type, y.data.resId)).live.head? = some c := by
  have hmem := hsub c (List.mem_filter.mp (List.mem_filter.mp hc).1).1
  obtain ⟨y, type, hy, hytype, htype⟩ := h.carries c hmem
  obtain ⟨res, hres⟩ := h.live type htype
  have hkey : callKey rd c = (some type, y.data.resId) := by rw [callKey, hy]; simp [hytype]
  exact ⟨y, type, res, hy, htype, hres, hkey, by simp [callEvent, hy, hytype, hres],
    (mem_heldCalls hnd hkey).mp hc⟩

theorem leftEvents_eq (p : Processor w) :
    p.leftEvents = p.resourceRegistry.toList.flatMap fun entry =>
      entry.2.events.toList.map fun event => (entry.2.resource.name, event.2) := by
  rw [Processor.leftEvents, Processor.flushEventCache, List.filterMap_flatMap]
  congr 1
  funext entry
  rw [List.filterMap_map]
  show entry.2.events.toList.filterMap (some ∘ fun event => (entry.2.resource.name, event.2)) = _
  rw [List.filterMap_eq_map]

/-- What is left in the registries: the events of the calls held. -/
theorem mem_leftEvents (h : Logged rd) {calls : List Nat} (hnd : calls.Nodup)
    (hsub : ∀ c ∈ calls, c ∈ rd.calls) {p : Processor w} (hp : Registries rd calls p)
    (name : Str) (event : Event w) :
    (name, event) ∈ p.leftEvents ↔
      ∃ c ∈ heldCalls rd calls, callEvent rd c = some (name, event) := by
  rw [leftEvents_eq, List.mem_flatMap]
  constructor
  · rintro ⟨⟨key, reg⟩, hreg, hevent⟩
    obtain ⟨⟨id, event'⟩, hmem, heq⟩ := List.mem_map.mp hevent
    obtain ⟨rfl, rfl⟩ := Prod.mk.inj heq
    have hreg := Std.TreeMap.mem_toList_iff_getElem?_eq_some.mp hreg
    have hmem := Std.TreeMap.mem_toList_iff_getElem?_eq_some.mp hmem
    obtain ⟨type, htype, res, hres, rfl⟩ := hp.known key reg hreg
    obtain ⟨reg', hreg', -, hname, hevents⟩ := hp.registry type htype res hres
    obtain rfl := Option.some.inj (hreg.symm.trans hreg')
    rw [hevents id] at hmem
    obtain ⟨c, hhead, hcall⟩ := Option.bind_eq_some_iff.mp hmem
    obtain ⟨y, hy, rfl⟩ := Option.map_eq_some_iff.mp hcall
    have hkey := (head_of_mem hnd hhead).2
    refine ⟨c, (mem_heldCalls hnd hkey).mpr hhead, ?_⟩
    rw [callKey, hy] at hkey
    obtain ⟨hytype, -⟩ := Prod.mk.inj hkey
    simp [callEvent, hy, hytype, hres, hname]
  · rintro ⟨c, hc, hevent⟩
    obtain ⟨y, type, res, hy, htype, hres, -, hcevent, hhead⟩ := heldCalls_event h hnd hsub hc
    obtain ⟨rfl, rfl⟩ := Prod.mk.inj (Option.some.inj (hcevent.symm.trans hevent))
    obtain ⟨reg, hreg, -, hname, hevents⟩ := hp.registry type htype res hres
    refine ⟨(res.type, reg), Std.TreeMap.mem_toList_iff_getElem?_eq_some.mpr hreg,
      List.mem_map.mpr ⟨(y.data.resId, fcallEvent y), ?_, by rw [hname]⟩⟩
    rw [Std.TreeMap.mem_toList_iff_getElem?_eq_some, hevents, hhead, Option.bind_some, hy]
    rfl

theorem leftEvents_nodup {calls : List Nat} (hnd : calls.Nodup) {p : Processor w}
    (hp : Registries rd calls p) : p.leftEvents.Nodup := by
  have hown : ∀ (name : Str) (reg : ResourceRegistry w), p.resourceRegistry[name]? = some reg →
      reg.resource.name = name ∧ ∀ (id : BitVec w) (event : Event w), reg.events[id]? = some event → event.resId = id := by
    intro name reg hreg
    obtain ⟨type, htype, res, hres, rfl⟩ := hp.known name reg hreg
    obtain ⟨reg', hreg', -, hname, hevents⟩ := hp.registry type htype res hres
    obtain rfl := Option.some.inj (hreg.symm.trans hreg')
    refine ⟨hname, fun id event hevent => ?_⟩
    rw [hevents id] at hevent
    obtain ⟨c, hhead, hcall⟩ := Option.bind_eq_some_iff.mp hevent
    obtain ⟨y, hy, rfl⟩ := Option.map_eq_some_iff.mp hcall
    obtain ⟨y', hy', hpair⟩ := live_call hnd hhead
    obtain rfl := Option.some.inj (hy.symm.trans hy')
    exact (Prod.mk.inj hpair).2
  rw [leftEvents_eq, List.Nodup, List.pairwise_flatMap]
  constructor
  · intro entry hentry
    have hreg := hown entry.1 entry.2 (Std.TreeMap.mem_toList_iff_getElem?_eq_some.mp hentry)
    rw [List.pairwise_map]
    refine Std.TreeMap.distinct_keys_toList.imp_of_mem fun {a b} ha hb hne heq => hne ?_
    have ha := hreg.2 a.1 a.2 (Std.TreeMap.mem_toList_iff_getElem?_eq_some.mp ha)
    have hb := hreg.2 b.1 b.2 (Std.TreeMap.mem_toList_iff_getElem?_eq_some.mp hb)
    rw [Std.LawfulEqCmp.compare_eq_iff_eq, ← ha, ← hb, (Prod.mk.inj heq).2]
  · refine Std.TreeMap.distinct_keys_toList.imp_of_mem fun {a b} ha hb hne x hx y hy heq => hne ?_
    obtain ⟨e, -, rfl⟩ := List.mem_map.mp hx
    obtain ⟨e', -, rfl⟩ := List.mem_map.mp hy
    have ha := (hown a.1 a.2 (Std.TreeMap.mem_toList_iff_getElem?_eq_some.mp ha)).1
    have hb := (hown b.1 b.2 (Std.TreeMap.mem_toList_iff_getElem?_eq_some.mp hb)).1
    rw [Std.LawfulEqCmp.compare_eq_iff_eq, ← ha, ← hb, (Prod.mk.inj heq).1]

theorem heldCalls_events_nodup (h : Logged rd) {calls : List Nat} (hnd : calls.Nodup)
    (hsub : ∀ c ∈ calls, c ∈ rd.calls) : ((heldCalls rd calls).map (callEvent rd)).Nodup := by
  refine List.Nodup.map_on (fun c hc d hd heq => ?_) ((hnd.filter _).filter _)
  obtain ⟨y, type, res, hy, htype, hres, hkey, hevent, hhead⟩ := heldCalls_event h hnd hsub hc
  obtain ⟨y', type', res', hy', htype', hres', hkey', hevent', hhead'⟩ :=
    heldCalls_event h hnd hsub hd
  rw [hevent, hevent', Option.some.injEq, Prod.mk.injEq] at heq
  obtain rfl := h.types type htype type' htype' res res' hres hres' heq.1
  have hid : y.data.resId = y'.data.resId := congrArg Event.resId heq.2
  rw [← hid, hhead] at hhead'
  exact Option.some.inj hhead'

/-- **What the timeline tool holds for leaked**: the events left in the
registries and the overridden ones are the calls that are kept without
reference counting. -/
theorem timeline_plainKept (h : Logged rd) {calls : List Nat} (hnd : calls.Nodup)
    (hsub : ∀ c ∈ calls, c ∈ rd.calls) {p : Processor w} {outcomes : List (Outcome w)}
    (hp : Registries rd calls p) (ho : Overrides rd calls outcomes) :
    ((p.leftEvents ++ overridden outcomes).map some).Perm
      ((plainKept rd calls).map (callEvent rd)) := by
  obtain ⟨old, hold, hevents, hmem⟩ := ho
  have hleft : (p.leftEvents.map some).Perm ((heldCalls rd calls).map (callEvent rd)) := by
    refine (List.perm_ext_iff_of_nodup ((leftEvents_nodup hnd hp).map (Option.some_injective _))
      (heldCalls_events_nodup h hnd hsub)).mpr fun entry => ?_
    cases entry with
    | none =>
      refine ⟨fun hnone => ?_, fun hnone => ?_⟩
      · exact absurd (List.mem_map.mp hnone) (by simp)
      · obtain ⟨c, hc, hevent⟩ := List.mem_map.mp hnone
        obtain ⟨y, type, res, -, -, -, -, hevent', -⟩ := heldCalls_event h hnd hsub hc
        exact absurd (hevent.symm.trans hevent') (by simp)
    | some entry =>
      rw [List.mem_map_of_injective (Option.some_injective _), List.mem_map]
      exact mem_leftEvents h hnd hsub hp entry.1 entry.2
  have hheldnd : (heldCalls rd calls).Nodup := (hnd.filter _).filter _
  have hkeptnd : (plainKept rd calls).Nodup := hnd.filter _
  have hkept : (heldCalls rd calls ++ old).Perm (plainKept rd calls) := by
    refine (List.perm_ext_iff_of_nodup (List.nodup_append.mpr
      ⟨hheldnd, hold, fun c hc d hd heq => ?_⟩) hkeptnd).mpr fun c => ?_
    · rw [← heq] at hd
      exact ((hmem c).mp hd).2 (of_decide_eq_true (List.mem_filter.mp hc).2)
    · have hheld : c ∈ heldCalls rd calls ↔ c ∈ plainKept rd calls ∧
          (plainHistory rd calls (callKey rd c)).live.head? = some c := by
        rw [heldCalls, List.mem_filter, decide_eq_true_eq]
      rw [List.mem_append, hmem c, hheld, Overridden, ← and_or_left, and_iff_left_iff_imp]
      exact fun _ => Classical.em _
  rw [List.map_append, hevents]
  exact (hleft.append_right _).trans (by rw [← List.map_append]; exact hkept.map _)

/-! ## The tool and the leak filter -/

/-- The timeline tool and the leak filter agree on a log: the run uses no
event that is not there, the events left over and the overridden ones are
the calls that `filter_leaks` keeps, and a free of a reference counted
resource is reported if and only if it brings the references to zero. -/
structure TimelineAgrees (rd : Rd w) : Prop where
  leaks : ∃ p outcomes rd', timeline rd rd.calls = .ok (p, outcomes) ∧ filterLeaks rd = some rd' ∧
    ((p.leftEvents ++ overridden outcomes).map some).Perm (rd'.calls.map (callEvent rd))
  releases : ∀ pre c post, rd.calls = pre ++ c :: post → keyCounted rd (callKey rd c) = true →
    callKind rd c = .free → ∃ p outcomes p' outcome, timeline rd pre = .ok (p, outcomes) ∧
      parseRecord .none p (callRecord rd c) = .ok (p', some outcome) ∧
      (outcome.rc = .reportOk ↔
        (keyRun (callKind rd) (callKey rd) (keyCounted rd) pre (callKey rd c)).refs = 1)

theorem timeline_releases (h : Logged rd) (hnd : rd.calls.Nodup) {pre post : List Nat} {c : Nat}
    (heq : rd.calls = pre ++ c :: post) (hfree : callKind rd c = .free) :
    ∃ p outcomes p' outcome, timeline rd pre = .ok (p, outcomes) ∧
      parseRecord .none p (callRecord rd c) = .ok (p', some outcome) ∧
      (outcome.rc = .reportOk ↔ (plainHistory rd pre (callKey rd c)).live ≠ []) := by
  obtain ⟨p, outcomes, hrun, hp, ho⟩ := timeline_run h hnd _ heq
  have hnd' : (pre ++ [c]).Nodup := by
    rw [heq, List.append_cons] at hnd
    exact (List.nodup_append.mp hnd).1
  obtain ⟨p', outcome, hstep, -, -, hrc⟩ := timeline_step h hnd' (by rw [heq]; simp) hp ho
  exact ⟨p, outcomes, p', outcome, hrun, hstep, hrc hfree⟩

/-- No release meets more than one reference while the tool agrees on it. -/
theorem countsFit_of_agree (hnd : rd.calls.Nodup)
    (h : AllReleasesAgree (callKind rd) (callKey rd) (keyCounted rd) rd.calls) :
    CountsFit rd (fun _ => true) rd.calls := by
  intro pre c post heq _ hfree hk hone
  have hle : (history rd pre (callKey rd c)).refs ≤ 1 := h.refs_le hnd heq hk hfree
  rwa [Nat.mod_eq_of_lt (by omega)] at hone

/-- **When the timeline tool and the leak filter agree**: if and only if no
reference counted resource is allocated again while it is allocated. -/
theorem timeline_agrees_iff (rd : TraceStore w) (h : Logged rd.val) :
    TimelineAgrees rd.val ↔ ∀ k, keyCounted rd.val k = true →
      Alternates (callKind rd.val) (rd.val.calls.filter fun c => callKey rd.val c = k) := by
  have hnd := rd.property.calls_nodup
  obtain ⟨p, outcomes, hrun, hp, ho⟩ := timeline_run h hnd [] (List.append_nil _).symm
  have hplain := timeline_plainKept h hnd (fun c hc => hc) hp ho
  have hleaks := fun hagree =>
    filterLeaksWith_keptCalls resHash rd.property h.resourced (countsFit_of_agree hnd hagree)
  rw [← recount_iff hnd]
  constructor
  · intro hagrees
    have hagree : AllReleasesAgree (callKind rd.val) (callKey rd.val) (keyCounted rd.val)
        rd.val.calls := by
      intro pre c post heq hk hfree
      obtain ⟨p₁, outs₁, p₂, out₂, hpre, hstep, hrc⟩ := hagrees.releases pre c post heq hk hfree
      obtain ⟨p₃, outs₃, p₄, out₄, hpre', hstep', hrc'⟩ := timeline_releases h hnd heq hfree
      obtain ⟨rfl, rfl⟩ := Prod.mk.inj (Except.ok.inj (hpre.symm.trans hpre'))
      obtain ⟨rfl, hout⟩ := Prod.mk.inj (Except.ok.inj (hstep.symm.trans hstep'))
      obtain rfl := Option.some.inj hout
      exact hrc'.symm.trans hrc
    obtain ⟨rd', hfilter, hkept, -, -⟩ := hleaks hagree
    obtain ⟨p₁, outs₁, rd₁, hrun₁, hfilter₁, hperm⟩ := hagrees.leaks
    obtain ⟨rfl, rfl⟩ := Prod.mk.inj (Except.ok.inj (hrun.symm.trans hrun₁))
    obtain rfl := Option.some.inj (hfilter.symm.trans hfilter₁)
    have hlen := (hperm.symm.trans hplain).length_eq
    rw [List.length_map, List.length_map, hkept] at hlen
    exact ⟨hagree, hlen⟩
  · intro ⟨hagree, hlen⟩
    obtain ⟨rd', hfilter, hkept, -, -⟩ := hleaks hagree
    refine ⟨⟨p, outcomes, rd', hrun, hfilter, ?_⟩, fun pre c post heq hk hfree => ?_⟩
    · rw [hkept]
      have hsame : (keptCalls (callKind rd.val) (callKey rd.val) (keyCounted rd.val)
          rd.val.calls).Nodup := hnd.filter _
      have hperm := (List.subperm_of_subset hsame (keptCalls_subset hnd hagree)).perm_of_length_le
        (Nat.le_of_eq hlen.symm)
      exact hplain.trans (hperm.symm.map _)
    · obtain ⟨p₁, outs₁, p₂, out₂, hpre, hstep, hrc⟩ := timeline_releases h hnd heq hfree
      exact ⟨p₁, outs₁, p₂, out₂, hpre, hstep, hrc.trans (hagree pre c post heq hk hfree)⟩

/-! ## Two logs -/

/-- A plain resource and a counted one. -/
def sampleMemory : Common.Resource 64 :=
  { id := 1, type := "memory".toList, desc := [], flags := 0, hide := false }

def sampleFile : Common.Resource 64 :=
  { id := 2, type := "file".toList, desc := [], flags := resourceRefcount, hide := false }

def sampleLog (calls : List (BitVec 32 × Nat)) : Rd 64 :=
  calls.foldl (fun rd call => (rdAddFcall rd
    { index := 0, type := call.1, context := 0, timestamp := 0, name := [], resType := some call.2,
      resId := 16, resSize := 0 }).1)
    (rdAddResource (rdAddResource rdCreate sampleMemory).1 sampleFile).1

theorem sampleLog_integrity (calls : List (BitVec 32 × Nat)) : (sampleLog calls).Integrity :=
  List.foldlRecOn _ _ (rdAddResource_integrity
    (rdAddResource_integrity (integrity_rdCreate (w := 64)) sampleMemory) sampleFile)
    fun _ h _ _ => rdAddFcall_integrity h _

theorem logged_sample {rd : Rd 64} (hres : rd.resources = [0, 1])
    (hmemory : rd.resource 0 = some sampleMemory) (hfile : rd.resource 1 = some sampleFile)
    (hcarries : ∀ c ∈ rd.calls, ∃ x type, rd.fcall c = some x ∧ x.data.resType = some type ∧
      type ∈ rd.resources)
    (hkinds : ∀ c ∈ rd.calls, ∀ x, rd.fcall c = some x →
      x.data.type = ftypeAlloc ∨ x.data.type = ftypeFree) : Logged rd := by
  have hcases : ∀ type ∈ rd.resources, ∀ res, rd.resource type = some res →
      type = 0 ∧ res = sampleMemory ∨ type = 1 ∧ res = sampleFile := by
    intro type htype res h
    rw [hres] at htype
    rcases List.mem_cons.mp htype with rfl | htype
    · exact Or.inl ⟨rfl, Option.some.inj (h.symm.trans hmemory)⟩
    · obtain rfl := List.mem_singleton.mp htype
      exact Or.inr ⟨rfl, Option.some.inj (h.symm.trans hfile)⟩
  refine ⟨?_, ?_, ?_, ?_, hcarries, hkinds⟩
  · intro type htype
    rw [hres] at htype
    rcases List.mem_cons.mp htype with rfl | htype
    · exact ⟨_, hmemory⟩
    · exact ⟨_, (List.mem_singleton.mp htype) ▸ hfile⟩
  · intro type ht type' ht' res res' h h' heq
    rcases hcases type ht res h with ⟨rfl, rfl⟩ | ⟨rfl, rfl⟩ <;>
      rcases hcases type' ht' res' h' with ⟨rfl, rfl⟩ | ⟨rfl, rfl⟩
    · rfl
    · exact absurd heq (by decide)
    · exact absurd heq (by decide)
    · rfl
  · intro type ht type' ht' res res' h h' heq
    rcases hcases type ht res h with ⟨rfl, rfl⟩ | ⟨rfl, rfl⟩ <;>
      rcases hcases type' ht' res' h' with ⟨rfl, rfl⟩ | ⟨rfl, rfl⟩
    · rfl
    · exact absurd heq (by decide)
    · exact absurd heq (by decide)
    · rfl
  · intro type ht res h hhide
    rcases hcases type ht res h with ⟨rfl, rfl⟩ | ⟨rfl, rfl⟩
    · exact absurd hhide (by decide)
    · exact absurd hhide (by decide)

/-- The plain resource is allocated twice, the counted one again after it
was freed. -/
def reuseLog : Rd 64 :=
  sampleLog [(ftypeAlloc, 0), (ftypeAlloc, 0), (ftypeFree, 0), (ftypeAlloc, 1), (ftypeFree, 1),
    (ftypeAlloc, 1)]

/-- The counted resource is allocated twice. -/
def recountLog : Rd 64 := sampleLog [(ftypeAlloc, 1), (ftypeAlloc, 1)]

theorem reuseLog_logged : Logged reuseLog := by
  have hcalls : reuseLog.calls = [2, 3, 4, 5, 6, 7] := by decide
  refine logged_sample rfl rfl rfl (fun c hc => ?_) (fun c hc x hx => ?_)
  · rw [hcalls] at hc
    simp only [List.mem_cons, List.not_mem_nil, or_false] at hc
    rcases hc with rfl | rfl | rfl | rfl | rfl | rfl <;> exact ⟨_, _, rfl, rfl, by decide⟩
  · rw [hcalls] at hc
    simp only [List.mem_cons, List.not_mem_nil, or_false] at hc
    rcases hc with rfl | rfl | rfl | rfl | rfl | rfl <;>
      (obtain rfl := Option.some.inj hx; decide)

theorem recountLog_logged : Logged recountLog := by
  have hcalls : recountLog.calls = [2, 3] := by decide
  refine logged_sample rfl rfl rfl (fun c hc => ?_) (fun c hc x hx => ?_)
  · rw [hcalls] at hc
    simp only [List.mem_cons, List.not_mem_nil, or_false] at hc
    rcases hc with rfl | rfl <;> exact ⟨_, _, rfl, rfl, by decide⟩
  · rw [hcalls] at hc
    simp only [List.mem_cons, List.not_mem_nil, or_false] at hc
    rcases hc with rfl | rfl <;> (obtain rfl := Option.some.inj hx; decide)

/-- Reuse after a free, and an overridden allocation of the plain resource. -/
theorem timeline_agrees_iff_reuse : TimelineAgrees reuseLog := by
  refine (timeline_agrees_iff ⟨reuseLog, sampleLog_integrity _⟩ reuseLog_logged).mpr fun k hk => ?_
  have hnil : Alternates (callKind reuseLog) [] := fun pre c post heq => absurd heq (by simp)
  have hcalls : reuseLog.calls.filter (fun c => callKey reuseLog c = (some 1, 16)) = [5, 6, 7] := by
    decide
  by_cases hkey : k = (some 1, 16)
  · show Alternates (callKind reuseLog) (reuseLog.calls.filter fun c => callKey reuseLog c = k)
    rw [hkey, hcalls]
    exact ((hnil.snoc fun _ => rfl).snoc fun h => absurd h (by decide)).snoc fun _ => by decide
  · -- no call of another counted pair
    have hempty : reuseLog.calls.filter (fun c => callKey reuseLog c = k) = [] := by
      refine List.filter_eq_nil_iff.mpr fun c hc h => hkey ?_
      have hk' : keyCounted reuseLog (callKey reuseLog c) = true := by
        rw [of_decide_eq_true h]
        exact hk
      rw [← of_decide_eq_true h]
      have hall : ∀ c ∈ reuseLog.calls, keyCounted reuseLog (callKey reuseLog c) = true →
          callKey reuseLog c = (some 1, 16) := by decide
      exact hall c hc hk'
    show Alternates (callKind reuseLog) (reuseLog.calls.filter fun c => callKey reuseLog c = k)
    rw [hempty]
    exact hnil

/-- The second allocation of a counted resource is a leak for the timeline
tool only. -/
theorem timeline_disagrees_recount : ¬ TimelineAgrees recountLog := by
  intro hagrees
  have hint : recountLog.Integrity := sampleLog_integrity _
  have hnd := hint.calls_nodup
  obtain ⟨p, outcomes, hrun, hp, ho⟩ :=
    timeline_run recountLog_logged hnd [] (List.append_nil _).symm
  have hplain := timeline_plainKept recountLog_logged hnd (fun c hc => hc) hp ho
  obtain ⟨rd', hleaks, hkept, -, -⟩ :=
    filterLeaksWith_keptCalls resHash hint recountLog_logged.resourced (.of_length (by decide))
  obtain ⟨p₁, outs₁, rd₁, hrun₁, hleaks₁, hperm⟩ := hagrees.leaks
  obtain ⟨rfl, rfl⟩ := Prod.mk.inj (Except.ok.inj (hrun.symm.trans hrun₁))
  obtain rfl := Option.some.inj (hleaks.symm.trans hleaks₁)
  have hlen := (hperm.symm.trans hplain).length_eq
  rw [List.length_map, List.length_map, hkept] at hlen
  exact absurd hlen (by decide)

end SpRtrace.Timeline
