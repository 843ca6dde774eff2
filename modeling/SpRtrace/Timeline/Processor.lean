/-
SpRtrace.Timeline.Processor — the event processor of the timeline tool,
`src/rtrace-timeline/resource_registry.cpp`, `processor.cpp` and
`parser.cpp`.

The parser hands the records of a text log to the processor. The processor
has a registry for every resource type, which keeps the allocations that
are not freed yet, and it reports allocations and releases to the report
generators. The reports here are what one generator is told that never
gives up.

`std::map` is `Std.TreeMap`. The filters of the filter manager are
predicates on events.
-/
import Mathlib
import SpRtrace.Library.Parser

namespace SpRtrace.Timeline

open SpRtrace.Lib SpRtrace.Common SpRtrace.Library

variable {w : Nat}

/-! ## Events -/

/-- The event type; `NONE` is not used. -/
inductive EventType
  | alloc
  | free
  deriving DecidableEq, Repr

structure Event (w : Nat) where
  index : BitVec 32
  refCount : Int
  context : BitVec 32
  timestamp : BitVec 32
  resSize : BitVec w
  resId : BitVec w
  type : EventType
  deriving DecidableEq, Repr

def eventAlloc (index context timestamp : BitVec 32) (resId resSize : BitVec w) : Event w :=
  { index, refCount := 0, context, timestamp, resSize, resId, type := .alloc }

def eventFree (index context timestamp : BitVec 32) (resId resSize : BitVec w) : Event w :=
  { index, refCount := 0, context, timestamp, resSize, resId, type := .free }

structure Resource where
  typeId : BitVec 32
  name : Str
  refCounted : Bool
  overhead : Nat
  deriving DecidableEq, Repr

structure Context where
  id : BitVec 32
  name : Str
  deriving DecidableEq, Repr

/-! ## Registries -/

structure ResourceRegistry (w : Nat) where
  resource : Resource
  events : Std.TreeMap (BitVec w) (Event w)

def getResourceOverhead (resType : Str) : Nat :=
  if resType = "memory".toList then 8 else 0

def ResourceRegistry.new (typeId : BitVec 32) (name : Str) (refCounted : Bool) :
    ResourceRegistry w :=
  { resource := { typeId, name, refCounted, overhead := getResourceOverhead name }, events := ∅ }

/-- The return codes of a registry. -/
inductive Rc
  | blockScope
  | blockRefcount
  | reportOk
  | reportExists
  deriving DecidableEq, Repr

/-- `rc > 0`. -/
def Rc.reports : Rc → Bool
  | .blockScope => false
  | .blockRefcount => false
  | .reportOk => true
  | .reportExists => true

/-- `ResourceRegistry::registerAlloc`, with the code and `old_event`. -/
def ResourceRegistry.registerAlloc (reg : ResourceRegistry w) (event : Event w) :
    ResourceRegistry w × Rc × Option (Event w) :=
  match reg.events[event.resId]? with
  | none => ({ reg with events := reg.events.insert event.resId event }, .reportOk, none)
  | some found =>
      if reg.resource.refCounted then
        ({ reg with
            events := reg.events.insert event.resId { found with refCount := found.refCount + 1 } },
          .blockRefcount, none)
      else ({ reg with events := reg.events.insert event.resId event }, .reportExists, some found)

/-- `ResourceRegistry::registerFree`, with the code and `alloc_event`. -/
def ResourceRegistry.registerFree (reg : ResourceRegistry w) (event : Event w) :
    ResourceRegistry w × Rc × Option (Event w) :=
  match reg.events[event.resId]? with
  | none => (reg, .blockScope, none)
  | some found =>
      let less : Event w := { found with refCount := found.refCount - 1 }
      if reg.resource.refCounted ∧ less.refCount > 0 then
        ({ reg with events := reg.events.insert event.resId less }, .blockRefcount, none)
      else
        ({ reg with events := reg.events.erase event.resId }, .reportOk,
          some (if reg.resource.refCounted then less else found))

/-! ## The processor -/

/-- What the command line sets: the resource filter, and the filters of
the filter manager. -/
structure Options (w : Nat) where
  resourceFilter : Str
  filters : List (Event w → Bool)

/-- No filter is set. -/
def Options.none : Options w := { resourceFilter := [], filters := [] }

def Options.validate (opts : Options w) (event : Event w) : Bool :=
  opts.filters.all fun filter => filter event

/-- `Processor` without its generators. -/
structure Processor (w : Nat) where
  resourceRegistry : Std.TreeMap Str (ResourceRegistry w)
  contextRegistry : Std.TreeMap (BitVec 32) Context

def Processor.new : Processor w := { resourceRegistry := ∅, contextRegistry := ∅ }

def contextNone : Context := { id := 0, name := "no contexts".toList }

inductive Report (w : Nat)
  | alloc (resource : Resource) (event : Event w)
  | allocInContext (resource : Resource) (context : Context) (event : Event w)
  | free (resource : Resource) (event allocEvent : Event w)
  | freeInContext (resource : Resource) (context : Context) (event allocEvent : Event w)
  | unfreedAlloc (resource : Resource) (event : Event w)
  deriving DecidableEq, Repr

/-- What became of a call: the registry it went to, its code, the event
that the registry supplied and the reports. -/
structure Outcome (w : Nat) where
  name : Str
  rc : Rc
  supplied : Option (Event w)
  reports : List (Report w)
  deriving DecidableEq, Repr

/-- How the tool fails: a scanner leaves its buffer, a resource type is
not known, or an event is used that is not there. -/
inductive Failure
  | parser
  | unknownResource
  | nullEvent
  deriving DecidableEq, Repr

def Processor.registerResource (p : Processor w) (typeId : BitVec 32) (name : Str)
    (refCounted : Bool) : Processor w :=
  { p with
    resourceRegistry := p.resourceRegistry.insertIfNew name (.new typeId name refCounted) }

def Processor.registerContext (p : Processor w) (value : BitVec 32) (name : Str) : Processor w :=
  { p with contextRegistry := p.contextRegistry.insertIfNew value { id := value, name } }

/-- The registry of a resource type, or the first one when the type is
NULL. -/
def Processor.findRegistry (p : Processor w) : Option Str → Option (Str × ResourceRegistry w)
  | some resType => p.resourceRegistry[resType]?.map fun registry => (resType, registry)
  | none => p.resourceRegistry.toList.head?

/-- The registered contexts that an event is reported in. -/
def Processor.inContexts (p : Processor w) (context : BitVec 32) : List Context :=
  if p.contextRegistry.isEmpty then []
  else (p.contextRegistry.toList.map Prod.snd).filter (fun ctx => ctx.id &&& context ≠ 0)
    ++ if context = 0 then [contextNone] else []

/-- `Processor::registerAlloc`; a call that a filter stops has no
outcome. -/
def Processor.registerAlloc (opts : Options w) (p : Processor w)
    (index context timestamp : BitVec 32) (resType : Option Str) (resId resSize : BitVec w) :
    Except Failure (Processor w × Option (Outcome w)) :=
  match p.findRegistry resType with
  | none => .error .unknownResource
  | some (name, registry) =>
      if opts.resourceFilter ≠ [] ∧ opts.resourceFilter ≠ registry.resource.name then .ok (p, none)
      else
        let event := eventAlloc index context timestamp resId resSize
        if ¬ opts.validate event then .ok (p, none)
        else
          let (registry', rc, oldEvent) := registry.registerAlloc event
          let reports := Report.alloc registry.resource event ::
            (p.inContexts context).map fun ctx => .allocInContext registry.resource ctx event
          .ok ({ p with resourceRegistry := p.resourceRegistry.insert name registry' },
            some { name, rc, supplied := oldEvent, reports := if rc.reports then reports else [] })

/-- `Processor::registerFree`. The size of the allocation is read whenever
the registry knows the resource id. -/
def Processor.registerFree (opts : Options w) (p : Processor w)
    (index context timestamp : BitVec 32) (resType : Option Str) (resId : BitVec w) :
    Except Failure (Processor w × Option (Outcome w)) :=
  match p.findRegistry resType with
  | none => .error .unknownResource
  | some (name, registry) =>
      if opts.resourceFilter ≠ [] ∧ opts.resourceFilter ≠ registry.resource.name then .ok (p, none)
      else
        let event := eventFree index context timestamp resId 0
        if ¬ opts.validate event then .ok (p, none)
        else
          let (registry', rc, allocEvent) := registry.registerFree event
          let p' := { p with resourceRegistry := p.resourceRegistry.insert name registry' }
          if rc = .blockScope then
            .ok (p', some { name, rc, supplied := allocEvent, reports := [] })
          else
            match allocEvent with
            | none => .error .nullEvent
            | some alloc =>
                let event := { event with resSize := alloc.resSize }
                let reports := Report.free registry.resource event alloc ::
                  (p.inContexts context).map fun ctx =>
                    .freeInContext registry.resource ctx event alloc
                .ok (p', some { name, rc, supplied := allocEvent,
                                reports := if rc.reports then reports else [] })

def Processor.flushEventCache (p : Processor w) : List (Report w) :=
  p.resourceRegistry.toList.flatMap fun (_, registry) =>
    registry.events.toList.map fun (_, event) => .unfreedAlloc registry.resource event

/-- The event of an unfreed allocation with the name of its resource. -/
def Report.unfreed : Report w → Option (Str × Event w)
  | .unfreedAlloc resource event => some (resource.name, event)
  | _ => none

/-- The allocation events that are left in the registries. -/
def Processor.leftEvents (p : Processor w) : List (Str × Event w) :=
  p.flushEventCache.filterMap Report.unfreed

/-! ## The parser -/

/-- The mask that `Parser::parseFile` sets. -/
def parserMask : BitVec 32 := recordCall ||| recordResource ||| recordContext

/-- `(char*)rec.call.res_type`. -/
def resTypeName : ResField w → Option Str
  | .name type => some type
  | _ => none

/-- What `Parser::parseFile` does with one record. A resource is always
registered as one without reference counting. -/
def parseRecord (opts : Options w) (p : Processor w) :
    Record w → Except Failure (Processor w × Option (Outcome w))
  | .call call =>
      if call.type = ftypeAlloc then
        p.registerAlloc opts call.index call.context call.timestamp (resTypeName call.resType)
          call.resId (call.resSize.signExtend w)
      else
        p.registerFree opts call.index call.context call.timestamp (resTypeName call.resType)
          call.resId
  | .resource res =>
      .ok (p.registerResource (BitVec.ofNat 32 (ffs (res.id.setWidth 32))) res.type false, none)
  | .context ctx => .ok (p.registerContext (ctx.id.setWidth 32) ctx.name, none)
  | _ => .ok (p, none)

/-- The records of a log in their order, and the outcomes of the calls. -/
def parseRecords (opts : Options w) :
    Processor w → List (Record w) → Except Failure (Processor w × List (Outcome w))
  | p, [] => .ok (p, [])
  | p, record :: records => do
      let (p, outcome) ← parseRecord opts p record
      let (p, outcomes) ← parseRecords opts p records
      .ok (p, outcome.toList ++ outcomes)

/-- `Parser::parseFile`, on the lines of the file. -/
def parseFile (opts : Options w) :
    Processor w → List Str → Except Failure (Processor w × List (Outcome w))
  | p, [] => .ok (p, [])
  | p, line :: lines =>
      match spRtraceParserParseRecord parserMask line with
      | none => .error .parser
      | some record => do
          let (p, outcome) ← parseRecord opts p record
          let (p, outcomes) ← parseFile opts p lines
          .ok (p, outcome.toList ++ outcomes)

/-- The events that a second allocation of their id has overridden. -/
def overridden (outcomes : List (Outcome w)) : List (Str × Event w) :=
  outcomes.filterMap fun outcome =>
    if outcome.rc = .reportExists then outcome.supplied.map fun event => (outcome.name, event)
    else none

end SpRtrace.Timeline
