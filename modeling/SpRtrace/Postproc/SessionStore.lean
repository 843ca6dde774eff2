/-
SpRtrace.Postproc.SessionStore — what the post-processor knows after a
session of a traced process.

The calls of the session are `sessionCalls`: those that the modules made
while the pipe was open, each with the resource its id was registered for
until then. `Logged` relates a binary log to a process in the middle of a
session, and `event_logged` is one event. `session_store` puts the way
together: the pipe buffer of the traced process, the pre-processor that
takes out and puts in packets, and the parser.
-/
import SpRtrace.Postproc.SessionStream

namespace SpRtrace.Postproc

open SpRtrace.Lib SpRtrace.Common SpRtrace.Modules SpRtrace.Rtrace

variable {w : Nat} {origin : Str}

/-! ## What a session is about -/

/-- The resource type with an id; ids count from 1. -/
def resourceOf (g : TracerRegistry w) (id : Nat) : Option (ModuleResource w) :=
  if id = 0 then none else g.rtraceResources[id - 1]?

/-- A resource type as it is read. -/
def readResource (r : ModuleResource w) : Resource w :=
  { id := (r.id.setWidth 32).setWidth w, type := r.type.getD [], desc := r.desc.getD [],
    flags := r.flags, hide := false }

/-- The `n`-th call of a session as it is read. -/
def sessionCall (g : TracerRegistry w) (n : Nat) (c : ModuleFcall w) (args : Option (List ModuleFarg))
    (frames : List (BitVec w)) : LogCall w where
  record :=
    { index := BitVec.ofNat 32 n, context := c.context, timestamp := c.timestamp,
      name := c.name.getD [], resType := .ref ((resourceOf g c.resTypeId.toNat).map readResource),
      type := c.type, resSize := c.resSize, resId := c.resId }
  args := (args.getD []).map fun a => { name := a.name, value := a.value.getD [] }
  frames := some (BinaryLog.plainFrames frames)

/-- The calls of an event, behind `n` others. -/
def eventCalls (g : TracerRegistry w) (n : Nat) : SessionEvent w → List (LogCall w)
  | .traced (.functionCall c args frames) => [sessionCall g (n + 1) c args frames]
  | _ => []

/-- **The calls of a session**, behind `n` others. -/
def sessionCalls (g : TracerRegistry w) (n : Nat) : List (SessionEvent w) → List (LogCall w)
  | [] => []
  | event :: events =>
      eventCalls g n event ++
        sessionCalls (event.registry g) (n + (eventCalls g n event).length) events

/-- The contexts of a session: those that are created in it. -/
def sessionContexts (events : List (SessionEvent w)) : List (Context w) :=
  events.flatMap fun
    | .traced (.contextRegistry c) => [{ id := (c.id.setWidth 32).setWidth w, name := c.name.getD [] }]
    | _ => []

def sessionFiles (events : List (SessionEvent w)) : List Attachment :=
  events.flatMap fun
    | .traced (.attachment a) => [{ name := a.name.getD [], path := a.path }]
    | _ => []

/-! ## The log of a session -/

/-- The log of a process with the registries `g`, between two events. -/
structure Logged (a : BinaryLog w) (g : TracerRegistry w) (calls : List (LogCall w))
    (contexts : List (Context w)) (files : List Attachment) : Prop where
  done : a.done = calls
  latest : a.latest = none
  resIndex : ∀ id, a.resIndex id = (resourceOf g id).map readResource
  resources : a.resources = g.rtraceResources.map readResource
  contexts : a.contexts = contexts
  files : a.files = files

variable {a : BinaryLog w} {g : TracerRegistry w} {calls : List (LogCall w)} {contexts : List (Context w)}
  {files : List Attachment}

theorem settle_of_latest (h : a.latest = none) : a.settle = a := by
  obtain ⟨done, latest⟩ := a
  obtain rfl : latest = none := h
  simp [BinaryLog.settle, BinaryLog.calls]

/-- Memory maps say nothing of the calls. -/
theorem Logged.maps (h : Logged a g calls contexts files) (maps : List (Mmap w)) :
    Logged (a.stores (maps.map .memoryMap)) g calls contexts files := by
  induction maps generalizing a with
  | nil => exact h
  | cons m maps ih =>
    rw [List.map_cons, stores_cons]
    refine ih ?_
    rw [BinaryLog.store, settle_of_latest h.latest]
    exact ⟨h.done, h.latest, h.resIndex, h.resources, h.contexts, h.files⟩

theorem resourceOf_append (g : TracerRegistry w) (r : ModuleResource w) (id : Nat) :
    resourceOf { g with rtraceResources := g.rtraceResources ++ [r] } id
      = if id = g.rtraceResources.length + 1 then some r else resourceOf g id := by
  unfold resourceOf
  by_cases hzero : id = 0
  · simp [hzero]
  · simp only [hzero, if_false]
    split
    · rename_i heq
      simp [heq]
    · rename_i hne
      by_cases hlt : id - 1 < g.rtraceResources.length
      · rw [List.getElem?_append_left hlt]
      · rw [List.getElem?_eq_none (by simp; omega), List.getElem?_eq_none (by omega)]

/-- The registry packet of the next resource type. -/
theorem Logged.resource (hw : w = 32 ∨ w = 64) (origin : Str) (h : Logged a g calls contexts files)
    {r : ModuleResource w} (hplace : g.rtraceResources.length < 32)
    (hid : r.id = BitVec.ofNat w (g.rtraceResources.length + 1)) :
    Logged (a.store (packetData origin (.resourceRegistry r)))
      { g with rtraceResources := g.rtraceResources ++ [r] } calls contexts files := by
  have hnat : (readResource r).id.toNat = g.rtraceResources.length + 1 := by
    rw [readResource, toNat_setWidth_small hw, BitVec.toNat_setWidth, hid, BitVec.toNat_ofNat]
    rcases hw with rfl | rfl <;> omega
  have hstore : a.store (packetData origin (.resourceRegistry r)) = { a with
      resources := a.resources ++ [readResource r]
      resIndex := Function.update a.resIndex (readResource r).id.toNat (some (readResource r)) } := by
    show a.store (.resourceRegistry (readResource r)) = _
    rw [BinaryLog.store, settle_of_latest h.latest]
  rw [hstore]
  refine ⟨h.done, h.latest, fun id => ?_, ?_, h.contexts, h.files⟩
  · show Function.update a.resIndex _ _ id = _
    rw [resourceOf_append, hnat, Function.update_apply, h.resIndex id]
    split <;> rfl
  · show a.resources ++ _ = _
    rw [h.resources, List.map_append, List.map_singleton]

/-- The log is about the resource types alone. -/
theorem Logged.of_resources (h : Logged a g calls contexts files) {g' : TracerRegistry w}
    (heq : g'.rtraceResources = g.rtraceResources) : Logged a g' calls contexts files :=
  ⟨h.done, h.latest, fun id => by rw [h.resIndex id, resourceOf, resourceOf, heq],
    by rw [heq]; exact h.resources, h.contexts, h.files⟩

/-- Packets about modules. -/
theorem Logged.modules (origin : Str) (h : Logged a g calls contexts files) (ms : List RtraceModule) :
    Logged (a.stores (ms.map fun m => packetData origin (.moduleInfo m))) g calls contexts files := by
  induction ms generalizing a with
  | nil => exact h
  | cons m ms ih =>
    rw [List.map_cons, stores_cons]
    refine ih ?_
    rw [packetData, BinaryLog.store, settle_of_latest h.latest]
    exact ⟨h.done, h.latest, h.resIndex, h.resources, h.contexts, h.files⟩

/-- The packets of one call. -/
theorem Logged.call (hw : w = 32 ∨ w = 64) (h : Logged a g calls contexts files)
    (c : ModuleFcall w) (args : Option (List ModuleFarg)) (frames : List (BitVec w)) :
    Logged (a.stores ((callPackets c args frames).map (packetData origin))) g
      (calls ++ [sessionCall g (calls.length + 1) c args frames]) contexts files := by
  have hcalls : a.calls = calls := by rw [BinaryLog.calls, h.latest, h.done]; simp
  have hread : ∀ fc : FcPacket w, fc.resType = c.resTypeId.setWidth w → a.readCall fc
      = { record :=
            { index := BitVec.ofNat 32 (calls.length + 1), context := fc.context,
              timestamp := fc.timestamp, name := fc.name,
              resType := .ref ((resourceOf g c.resTypeId.toNat).map readResource), type := fc.type,
              resSize := fc.resSize, resId := fc.resId }
          args := [], frames := none } := by
    intro fc hfc
    rw [BinaryLog.readCall, hcalls, hfc, toNat_setWidth_small hw, h.resIndex]
  have hstored : a.stores ((callPackets c args frames).map (packetData origin)) = { a with
      done := calls ++ [sessionCall g (calls.length + 1) c args frames], latest := none } := by
    have hdone : a.settle = a := settle_of_latest h.latest
    cases args <;>
      simp [callPackets, packetData, BinaryLog.store, hdone, hread, sessionCall, h.done]
  rw [hstored]
  exact ⟨rfl, rfl, h.resIndex, h.resources, h.contexts, h.files⟩

/-- Packets of their own data. -/
theorem delivers_data {ps : List (ModulePacket w)} {pieces : List (List (PacketData w))}
    (hnot : ∀ p ∈ ps, ∀ pid depth name, p ≠ .processInfo pid depth name)
    (h : List.Forall₂ (Delivers origin) (ps.map .packet) pieces) :
    pieces.flatten = ps.map (packetData origin) := by
  induction ps generalizing pieces with
  | nil =>
    cases h
    rfl
  | cons p ps ih =>
    cases h with
    | @cons _ piece _ pieces hp hps =>
      have hpiece : piece = [packetData origin p] := by
        cases p with
        | processInfo pid depth name => exact (hnot _ (by simp) pid depth name rfl).elim
        | _ => exact hp
      rw [List.flatten_cons, hpiece, ih (fun p hmem => hnot p (List.mem_cons_of_mem _ hmem)) hps]
      rfl

/-- **One event**: the log grows by its calls, contexts and attachments, and
knows the resource types it registered. -/
theorem event_logged (hw : w = 32 ∨ w = 64) (h : Logged a g calls contexts files)
    {event : SessionEvent w} {pieces : List (List (PacketData w))}
    (hdata : List.Forall₂ (Delivers origin) (event.packets g) pieces) :
    Logged (a.stores pieces.flatten) (event.registry g) (calls ++ eventCalls g calls.length event)
      (contexts ++ sessionContexts [event]) (files ++ sessionFiles [event]) := by
  have hpackets : ∀ ps : List (ModulePacket w), event.packets g = ps.map .packet →
      (∀ p ∈ ps, ∀ pid depth name, p ≠ .processInfo pid depth name) →
      pieces.flatten = ps.map (packetData origin) := by
    intro ps hps hnot
    rw [hps] at hdata
    exact delivers_data hnot hdata
  have hlibrary : ∀ library, event.packets g = [.newLibrary library] →
      ∃ maps : List (Mmap w), pieces.flatten = maps.map .memoryMap := by
    intro library hps
    rw [hps] at hdata
    cases hdata with
    | cons hmaps hnil =>
      obtain ⟨maps, rfl⟩ := hmaps
      cases hnil
      exact ⟨maps, by simp⟩
  have hsettle := settle_of_latest h.latest
  cases event with
  | registerModule info =>
    rw [hpackets ((g.newModule info).toList.map .moduleInfo)
      (by simp [SessionEvent.packets]) (by simp)]
    simp only [eventCalls, sessionContexts, sessionFiles, List.flatMap_singleton, List.append_nil,
      SessionEvent.registry]
    have hmodule := (h.modules origin (g.newModule info).toList).of_resources
      (show (g.addModule info).rtraceResources = g.rtraceResources from rfl)
    simpa [Function.comp_def] using hmodule
  | registerResource resource =>
    rw [hpackets ((g.newResource resource).toList.map .resourceRegistry)
      (by simp [SessionEvent.packets]) (by simp)]
    simp only [eventCalls, sessionContexts, sessionFiles, List.flatMap_singleton, List.append_nil,
      SessionEvent.registry, TracerRegistry.addResource]
    cases hnew : g.newResource resource with
    | none => simpa using h
    | some r =>
      obtain ⟨hplace, hr⟩ := TracerRegistry.newResource_eq hnew
      exact h.resource hw origin hplace (by rw [hr])
  | traced call =>
    cases call with
    | functionCall c args frames =>
      rw [hpackets (callPackets c args frames) (by simp [SessionEvent.packets, TracerCall.packets])
        (by cases args <;> simp [callPackets])]
      simp only [eventCalls, sessionContexts, sessionFiles, List.flatMap_singleton, List.append_nil]
      exact h.call hw c args frames
    | attachment file =>
      rw [hpackets [.attachment file] rfl (by simp)]
      simp only [List.map_singleton, stores_cons, stores_nil, packetData, BinaryLog.store]
      refine ⟨by simpa [eventCalls] using h.done, h.latest, h.resIndex, h.resources, ?_, ?_⟩
      · simpa [sessionContexts] using h.contexts
      · simp [sessionFiles, h.files]
    | contextRegistry c =>
      rw [hpackets [.contextRegistry c] (by simp [SessionEvent.packets, TracerCall.packets]) (by simp)]
      simp only [List.map_singleton, stores_cons, stores_nil, packetData, BinaryLog.store, hsettle]
      refine ⟨by simpa [eventCalls] using h.done, h.latest, h.resIndex, h.resources, ?_, ?_⟩
      · simp [sessionContexts, h.contexts]
      · simpa [sessionFiles] using h.files
    | newLibrary library =>
      obtain ⟨maps, hmaps⟩ := hlibrary library rfl
      rw [hmaps]
      simpa [eventCalls, sessionContexts, sessionFiles, SessionEvent.registry] using h.maps maps
  | dlopen library =>
    obtain ⟨maps, hmaps⟩ := hlibrary library rfl
    rw [hmaps]
    simpa [eventCalls, sessionContexts, sessionFiles, SessionEvent.registry] using h.maps maps
  | start outcome =>
    cases hdata
    simpa [eventCalls, sessionContexts, sessionFiles, SessionEvent.registry] using h
  | toggle outcome heapInfo =>
    cases hdata
    simpa [eventCalls, sessionContexts, sessionFiles, SessionEvent.registry] using h
  | fini heapInfo =>
    cases hdata
    simpa [eventCalls, sessionContexts, sessionFiles, SessionEvent.registry] using h

/-- **The events of a session.** -/
theorem events_logged (hw : w = 32 ∨ w = 64) {events : List (SessionEvent w)}
    (h : Logged a g calls contexts files) {pieces : List (List (PacketData w))}
    (hdata : List.Forall₂ (Delivers origin) (sessionPackets g events) pieces) :
    Logged (a.stores pieces.flatten) (sessionRegistry g events)
      (calls ++ sessionCalls g calls.length events)
      (contexts ++ sessionContexts events) (files ++ sessionFiles events) := by
  induction events generalizing a g calls contexts files pieces with
  | nil =>
    cases hdata
    simpa [sessionCalls, sessionContexts, sessionFiles, sessionRegistry] using h
  | cons event events ih =>
    obtain ⟨front, rest, rfl, hfront, hrest⟩ := forall₂_split hdata.flip
    have h₁ := event_logged hw h hfront.flip
    have h₂ := ih h₁ hrest.flip
    rw [List.flatten_append, stores_append]
    simpa [sessionCalls, sessionContexts, sessionFiles, sessionRegistry, List.append_assoc] using h₂

/-! ## The beginning -/

theorem empty_logged : Logged (.empty w) { rtraceModules := [], rtraceResources := [] } [] [] [] :=
  ⟨rfl, rfl, fun id => by simp [resourceOf, BinaryLog.empty], rfl, rfl, rfl⟩

/-- Packets about the resource types that are there already. -/
theorem Logged.resourceTypes (hw : w = 32 ∨ w = 64) (origin : Str) {front rest : List (ModuleResource w)}
    (hnum : TracerRegistry.Numbered { g with rtraceResources := front ++ rest })
    (h : Logged a { g with rtraceResources := front } calls contexts files) :
    Logged (a.stores (rest.map fun r => packetData origin (.resourceRegistry r)))
      { g with rtraceResources := front ++ rest } calls contexts files := by
  induction rest generalizing a front with
  | nil => simpa using h
  | cons r rest ih =>
    have hplaces := hnum.places
    simp only [List.length_append, List.length_cons] at hplaces
    have h₁ := h.resource hw origin (show front.length < 32 by omega)
      (hnum.id front.length r (by simp))
    have h₂ := ih (show TracerRegistry.Numbered { g with rtraceResources := (front ++ [r]) ++ rest } by
      simpa using hnum) h₁
    simpa using h₂

/-- **The initial data** tell the post-processor what was registered. -/
theorem initial_logged (hw : w = 32 ∨ w = 64) (s : TracerSettings) (hnum : g.Numbered)
    {pieces : List (List (PacketData w))}
    (hdata : List.Forall₂ (Delivers origin) (initialPackets s g) pieces) :
    Logged (BinaryLog.stores (.empty w) pieces.flatten) g [] [] [] := by
  rw [initialPackets] at hdata
  obtain ⟨front, last, rfl, hdata, hlast⟩ := forall₂_split hdata.flip
  obtain ⟨front, resources, rfl, hdata, hresources⟩ := forall₂_split hdata
  obtain ⟨front, modules, rfl, hfront, hmodules⟩ := forall₂_split hdata
  have hlibrary : ∃ maps : List (Mmap w), last.flatten = maps.map .memoryMap := by
    cases hlast with
    | cons hmaps hnil =>
      obtain ⟨maps, rfl⟩ := hmaps
      cases hnil
      exact ⟨maps, by simp⟩
  have hsettings : ∃ info, front.flatten = [.outputSettings, .processInfo info] := by
    cases hfront with
    | cons hsettings hrest =>
      cases hrest with
      | cons hinfo hnil =>
        obtain ⟨sec, usec, rfl⟩ := hinfo
        cases hnil
        exact ⟨_, by rw [show _ = [PacketData.outputSettings] from hsettings]; rfl⟩
  have hms : modules.flatten
      = (defModule :: g.rtraceModules).map fun m => packetData origin (.moduleInfo m) := by
    have hlist : List.Forall₂ (Delivers origin)
        (((defModule :: g.rtraceModules).map ModulePacket.moduleInfo).map .packet) modules := by
      rw [List.map_map]
      exact hmodules.flip
    rw [delivers_data (by simp) hlist, List.map_map]
    rfl
  have hrs : resources.flatten
      = g.rtraceResources.map fun r => packetData origin (.resourceRegistry r) := by
    have hlist : List.Forall₂ (Delivers origin)
        ((g.rtraceResources.map ModulePacket.resourceRegistry).map .packet) resources := by
      rw [List.map_map]
      exact hresources.flip
    rw [delivers_data (by simp) hlist, List.map_map]
    rfl
  obtain ⟨maps, hmaps⟩ := hlibrary
  obtain ⟨info, hinfo⟩ := hsettings
  have h₀ : Logged (BinaryLog.stores (.empty w) [.outputSettings, .processInfo info])
      { rtraceModules := [], rtraceResources := [] } [] [] [] := by
    have h := empty_logged (w := w)
    exact ⟨rfl, rfl, h.resIndex, rfl, rfl, rfl⟩
  have h₁ := h₀.modules origin (defModule :: g.rtraceModules)
  have h₂ : Logged _ { g with rtraceResources := [] } [] [] [] := h₁.of_resources rfl
  have h₃ := h₂.resourceTypes hw origin
    (show TracerRegistry.Numbered { g with rtraceResources := [] ++ g.rtraceResources } from hnum)
  have h₄ := h₃.maps maps
  rw [List.flatten_append, List.flatten_append, List.flatten_append, hinfo, hms, hrs, hmaps,
    stores_append, stores_append, stores_append]
  simpa using h₄

/-! ## The whole way -/

/-- What the post-processor has of a session: all calls of it, in order,
with their resources, arguments and frames, the resource types, and the
contexts and attachments of the session. -/
structure SessionStored (rd : Rd w) (g : TracerRegistry w) (during : List (SessionEvent w)) : Prop where
  calls : rd.calls.map (callView rd) = (sessionCalls g 0 during).map some
  resources : rd.resources.map rd.resource
    = (sessionRegistry g during).rtraceResources.map fun r => some (readResource r)
  contexts : rd.contexts = sessionContexts during
  files : rd.files = sessionFiles during

/-- The end of a session is about no calls. -/
theorem Logged.closing (h : Logged a g calls contexts files) {heapInfo : HeapInfo w}
    {pieces : List (List (PacketData w))}
    (hdata : List.Forall₂ (Delivers origin) (closingPackets heapInfo) pieces) :
    Logged (a.stores pieces.flatten) g calls contexts files := by
  unfold closingPackets at hdata
  cases hdata with
  | @cons _ piece _ pieces hmaps hrest =>
    obtain ⟨maps, rfl⟩ := hmaps
    have h₁ := h.maps maps
    rw [List.flatten_cons, stores_append]
    split at hrest
    · cases hrest with
      | cons hheap hnil =>
        obtain rfl := hheap
        cases hnil
        have hsettle := settle_of_latest h₁.latest
        simp only [List.flatten_cons, List.flatten_nil, List.append_nil, stores_cons, stores_nil,
          packetData, BinaryLog.store, hsettle]
        exact ⟨h₁.done, h₁.latest, h₁.resIndex, h₁.resources, h₁.contexts, h₁.files⟩
    · cases hrest
      simpa using h₁

/-- The packets of a session as the parser gets them. -/
theorem session_parsed (hw : w = 32 ∨ w = 64) {s : TracerSettings} (hnum : g.Numbered)
    {during : List (SessionEvent w)} {heapInfo : HeapInfo w} {hs : Hshake}
    {ps : List (WirePacket w origin hs)}
    (hdata : DeliversAll origin (wholeSession s g during heapInfo) (ps.map WirePacket.data)) :
    ∃ st, storePackets (some (initialState rdCreate hs)) ps = some st ∧
      SessionStored st.rd g during := by
  have hids : ∀ data ∈ ps.map WirePacket.data, data.IdsInRange := by
    intro data hmem
    obtain ⟨q, -, rfl⟩ := List.mem_map.mp hmem
    exact q.ids
  obtain ⟨st, hst, hshows⟩ := storePackets_show (initialState_shows hs) hids
  refine ⟨st, (storePackets_eq ps _).trans hst, ?_⟩
  obtain ⟨pieces, hpieces, heq⟩ := hdata
  rw [heq] at hshows
  obtain ⟨front, last, rfl, hfront, hlast⟩ := forall₂_split hpieces.flip
  obtain ⟨first, events, rfl, hfirst, hevents⟩ := forall₂_split hfront
  have hlogged :=
    (events_logged hw (initial_logged hw s hnum hfirst.flip) hevents.flip).closing hlast.flip
  rw [List.flatten_append, List.flatten_append, stores_append, stores_append] at hshows
  simp only [List.nil_append, List.length_nil] at hlogged
  refine ⟨?_, ?_, hshows.contexts.trans hlogged.contexts, hshows.files.trans hlogged.files⟩
  · rw [forall₂_map_eq hshows.allCalls fun _ _ h => h, BinaryLog.calls, hlogged.latest, hlogged.done]
    simp
  · rw [forall₂_map_eq hshows.resources fun _ _ h => h, hlogged.resources, List.map_map]
    rfl

/-- However the pre-processor reads `stream`, it hands over `handed`. -/
def HandedOver (env : ListenerEnv) (st : ListenerState w) (stream handed : List UInt8) : Prop :=
  ∃ body rest : List UInt8, stream = handshakeBytes body ++ rest ∧
    ∀ mem : List UInt8, mem.length = Rtrace.bufferSize * 2 →
      ∀ k : Delivery (handshakeBytes body).length (Rtrace.bufferSize - 1) Rtrace.bufferSize
        (handshakeBytes body ++ rest),
      ∃ c, processDataStart st mem k.first k.input = some c ∧
        ((∀ c', (listenerLoop w env).Reach c c' → (listenerLoop w env).Calm c') →
          ∃ st', (listenerLoop w env).Ends c (some st') ∧
            st'.out.flatten = st.out.flatten ++ handed)

/-- However the post-processor reads `handed`, it stores trace data with
`stored`. The first byte was read to tell a binary log. -/
def StoredFrom (origin : Str) (hs : Hshake) (handed : List UInt8) (stored : Rd w → Prop) : Prop :=
  ∃ (h : WireHandshake w hs) (rest : List UInt8), handed = protoHsId :: (h.bytes ++ rest) ∧
    ∀ mem : List UInt8, mem.length = Postproc.bufferSize * 2 →
      ∀ k : Delivery h.bytes.length (Postproc.bufferSize - 1) (Postproc.bufferSize - 1)
        (h.bytes ++ rest), k.Uninterrupted →
      ∃ c st, readBinaryDataStart rdCreate mem k.first k.input = some (hs, c) ∧
        (binaryLoop origin hs).Ends c (some st) ∧ stored st.rd

theorem handedOver_packets {env : ListenerEnv} (hwrites : ∀ k, env.writes k = true)
    (st : ListenerState w) {body : List UInt8} (hbody : body.length < 256) (lps : List ListenerPacket)
    {handed : List UInt8}
    (hout : (lps.foldl (handOver env) (st.started body)).out.flatten = st.out.flatten ++ handed) :
    HandedOver env st (handshakeBytes body ++ lps.flatMap ListenerPacket.bytes) handed := by
  refine ⟨body, _, rfl, fun mem hmem k => ?_⟩
  have hawait : Awaiting env (lps.foldl (handOver env) (st.started body)) (some (st.started body))
      (lps.flatMap ListenerPacket.bytes) := ⟨lps, _, rfl, rfl, rfl⟩
  obtain ⟨c, hstart, hhalt, -, hrun⟩ := processDataStart_running env st hbody hmem k
    (Awaiting env _) hawait
  refine ⟨c, hstart, fun hcalm => ?_⟩
  obtain ⟨st', hends, rfl⟩ := (hrun.holds hhalt).ends
    (fun c' _ => listenerLoop_answers (fun _ _ _ _ _ _ _ => hwrites _) _) hcalm
  exact ⟨_, hends, hout⟩

theorem storedFrom_packets {hs : Hshake} (h : WireHandshake w hs) {ps : List (WirePacket w origin hs)}
    {st : ParseState w} (hst : storePackets (some (initialState rdCreate hs)) ps = some st)
    {stored : Rd w → Prop} (hstored : stored st.rd) :
    StoredFrom origin hs (protoHsId :: (h.bytes ++ ps.flatMap WirePacket.bytes)) stored := by
  refine ⟨h, _, rfl, fun mem hmem k hk => ?_⟩
  have hpending : Pending origin hs (some st.rd) (some (initialState rdCreate hs))
      (ps.flatMap WirePacket.bytes) :=
    ⟨ps, [], by simp, .short (by decide), by rw [hst]; rfl⟩
  obtain ⟨c, hstart, hhalt, hinput, hrun⟩ := readBinaryDataStart_running origin rdCreate h hmem k
    (Pending origin hs _) hpending
  obtain ⟨st', hends, hdone⟩ := (binaryLoop_respects origin hs (some st.rd)).ends (hrun.holds hhalt)
    fun c' hc' => PacketLoop.calm_of_data (hinput ▸ hk) hc'
  obtain ⟨st', rfl, hrd⟩ := Option.map_eq_some_iff.mp hdone
  exact ⟨c, st', hstart, hends, by rw [hrd]; exact hstored⟩

/-- Only the output settings have the handshake in front of them. -/
theorem leadBytes_session {hsBuffer : List UInt8} {events : List (SessionEvent w)} {g : TracerRegistry w}
    {packet : StreamPacket w} (h : packet ∈ sessionPackets g events) : leadBytes hsBuffer packet = [] := by
  induction events generalizing g with
  | nil => cases h
  | cons event events ih =>
    rcases List.mem_append.mp h with hevent | hrest
    · cases event with
      | registerModule info =>
        obtain ⟨m, -, rfl⟩ := List.mem_map.mp hevent
        rfl
      | registerResource resource =>
        obtain ⟨r, -, rfl⟩ := List.mem_map.mp hevent
        rfl
      | traced call =>
        cases call with
        | functionCall c args frames =>
          obtain ⟨p, -, rfl⟩ := List.mem_map.mp (show packet ∈ (callPackets c args frames).map _ from hevent)
          rfl
        | _ =>
          obtain rfl := List.mem_singleton.mp hevent
          rfl
      | dlopen library =>
        obtain rfl := List.mem_singleton.mp hevent
        rfl
      | _ => cases hevent
    · exact ih hrest

theorem leadBytes_closing {hsBuffer : List UInt8} {heapInfo : HeapInfo w} {packet : StreamPacket w}
    (h : packet ∈ closingPackets heapInfo) : leadBytes hsBuffer packet = [] := by
  unfold closingPackets at h
  split at h
  · simp only [List.mem_cons, List.not_mem_nil, or_false] at h
    rcases h with rfl | rfl <;> rfl
  · obtain rfl := List.mem_singleton.mp h
    rfl

theorem wholeSession_settings (s : TracerSettings) (g : TracerRegistry w) (during : List (SessionEvent w))
    (heapInfo : HeapInfo w) : ∃ rest : List (StreamPacket w),
    wholeSession s g during heapInfo = .outputSettings s.outputDir s.postproc :: rest ∧
      ∀ hsBuffer, ∀ packet ∈ rest, leadBytes hsBuffer packet = [] := by
  refine ⟨(initialPackets s g).tail ++ sessionPackets g during ++ closingPackets heapInfo, rfl,
    fun hsBuffer packet hmem => ?_⟩
  rcases List.mem_append.mp hmem with hfront | hclosing
  · rcases List.mem_append.mp hfront with hinitial | hsession
    · simp only [initialPackets, List.cons_append, List.nil_append, List.tail_cons, List.mem_cons,
        List.mem_append, List.mem_map, List.not_mem_nil, or_false] at hinitial
      rcases hinitial with rfl | (⟨m, -, rfl⟩ | ⟨r, -, rfl⟩) | rfl <;> rfl
    · exact leadBytes_session hsession
  · exact leadBytes_closing hclosing

/-- The packets of a session are handed over behind the handshake. -/
theorem wholeSession_handOver (origin : Str) (hw : w = 32 ∨ w = 64) {hs : Hshake}
    (hhs : hsCheckVersion hs 1 3 = true) (hmajor : 2 ≤ hs.vmajor.toNat) {s : TracerSettings} {g : TracerRegistry w}
    {during : List (SessionEvent w)} {heapInfo : HeapInfo w}
    (hsend : ∀ packet ∈ wholeSession s g during heapInfo, Sendable packet) :
    ∃ lps : List ListenerPacket,
      lps.flatMap ListenerPacket.bytes = packetBytes (wholeSession s g during heapInfo) ∧
      ∀ (env : ListenerEnv) (st : ListenerState w), MapsFit w env →
        ∃ ps : List (WirePacket w origin hs),
          DeliversAll origin (wholeSession s g during heapInfo) (ps.map WirePacket.data) ∧
          (lps.foldl (handOver env) st).out.flatten
            = st.out.flatten ++ (st.hsBuffer ++ ps.flatMap WirePacket.bytes) := by
  obtain ⟨rest, heq, hplain⟩ := wholeSession_settings s g during heapInfo
  rw [heq] at hsend ⊢
  obtain ⟨lp, hbytes, hhand⟩ := sendable_handsOver origin hw hhs hmajor (hsend _ List.mem_cons_self)
  obtain ⟨lps, hlps, hall⟩ := packets_handOver origin hw hhs hmajor
    fun packet hmem => hsend packet (List.mem_cons_of_mem _ hmem)
  refine ⟨lp :: lps, by simp [packetBytes, hbytes, hlps], fun env st hmaps => ?_⟩
  obtain ⟨-, ps, hps, hout⟩ := hhand env st hmaps
  obtain ⟨qs, ⟨pieces, hpieces, hqs⟩, hout'⟩ := hall env (handOver env st lp) hmaps
    fun packet hmem => hplain _ packet hmem
  refine ⟨ps ++ qs, ⟨ps.map WirePacket.data :: pieces, .cons hps hpieces, ?_⟩, ?_⟩
  · rw [List.map_append, hqs, List.flatten_cons]
  · rw [List.foldl_cons, hout', hout]
    simp [leadBytes]

/-- **From the traced process to the trace data.** Whatever the process did
before its pipe is opened, and however the pre-processor and the
post-processor read what is sent to them: when the session is closed, the
post-processor has all its calls, with the resources, arguments and
frames they were made with, and its resource types, contexts and
attachments. -/
theorem session_store (hw : w = 32 ∨ w = 64) (origin : Str) {s : TracerSettings}
    {before : List (SessionEvent w × Bool)} {p : TracedProcess w}
    (hbefore : sessionRun s (.initial w) before = some p) (hoff : p.enable = false)
    {during : List (SessionEvent w)} {heapInfo : HeapInfo w}
    (hfits : SessionFits s p.registry during heapInfo) (harch : CStr s.buildArch)
    (hsend : ∀ packet ∈ wholeSession s p.registry during heapInfo, Sendable packet)
    {opening closing : SessionEvent w} (hopens : opening.Opens)
    (hinside : ∀ event ∈ during, event.Inside) (hcloses : closing.Closes heapInfo) :
    ∃ (p' : TracedProcess w) (stream : List UInt8),
      sessionRun s p ((opening :: during ++ [closing]).map fun event => (event, true)) = some p' ∧
      p'.pipes = p.pipes ++ [stream] ∧
      ∀ (env : ListenerEnv) (st : ListenerState w), (∀ k, env.writes k = true) → MapsFit w env →
        ∃ handed : List UInt8, HandedOver env st stream handed ∧
          StoredFrom origin (sessionHshake w s.buildArch) handed fun rd : Rd w =>
            SessionStored rd p.registry during := by
  obtain ⟨p', hrun, hpipes, -⟩ := session_stream hbefore hoff hfits hopens hinside hcloses
  refine ⟨p', _, hrun, hpipes, fun env st hwrites hmaps => ?_⟩
  have hnum : p.registry.Numbered :=
    sessionRun_numbered ⟨Nat.zero_le _, by simp [TracedProcess.initial]⟩ hbefore
  obtain ⟨h, hshake, hfront⟩ := writeHandshake_eq hw harch hfits.arch p.buffer.pipeBuffer
  have hversion : hsCheckVersion (sessionHshake w s.buildArch) 1 3 = true := rfl
  obtain ⟨lps, hbytes, hall⟩ := wholeSession_handOver origin hw hversion (Nat.le_refl 2) hsend
  obtain ⟨ps, hdata, hout⟩ := hall env (st.started h.body) hmaps
  obtain ⟨st', hst, hstored⟩ := session_parsed hw hnum hdata
  refine ⟨protoHsId :: (h.bytes ++ ps.flatMap WirePacket.bytes), ?_, storedFrom_packets h hst hstored⟩
  rw [sessionBytes, hshake, ← hbytes]
  refine handedOver_packets hwrites st h.size lps ?_
  rw [hout]
  show st.out.flatten ++ (handshakeBytes h.body ++ _) = _
  rw [hfront]
  rfl

/-! ## The ids that registrations return -/

theorem findType_some {resource r : ModuleResource w} (h : g.findType resource.type = some r) :
    r ∈ g.rtraceResources ∧ r.type = resource.type :=
  ⟨List.mem_of_find?_eq_some h, by simpa using List.find?_some h⟩

/-- The registries only grow. -/
theorem sessionRun_grows {s : TracerSettings} {p p' : TracedProcess w}
    {events : List (SessionEvent w × Bool)} (h : sessionRun s p events = some p') :
    p.registry.rtraceResources <+: p'.registry.rtraceResources := by
  induction events generalizing p with
  | nil => rw [Option.some.inj h]
  | cons event events ih =>
    rw [sessionRun, List.foldlM_cons, Option.bind_eq_bind, Option.bind_eq_some_iff] at h
    obtain ⟨p₁, hstep, hrest⟩ := h
    refine List.IsPrefix.trans ?_ (ih hrest)
    rcases sessionStep_registry hstep with heq | ⟨info, heq⟩ | ⟨resource, heq⟩ <;> rw [heq]
    · exact List.prefix_rfl
    · exact List.prefix_append _ _

theorem resourceOf_grows {g g' : TracerRegistry w} (h : g.rtraceResources <+: g'.rtraceResources) {id : Nat}
    {r : ModuleResource w} (hr : resourceOf g id = some r) : resourceOf g' id = some r := by
  obtain ⟨more, hmore⟩ := h
  unfold resourceOf at hr ⊢
  split at hr
  · cases hr
  · rename_i hne
    rw [if_neg hne, ← hmore, List.getElem?_append_left (List.getElem?_eq_some_iff.mp hr).1, hr]

theorem toNat_id (hw : w = 32 ∨ w = 64) {n : Nat} (hn : n < 2 ^ 32) : (BitVec.ofNat w n).toNat = n := by
  rw [BitVec.toNat_ofNat, Nat.mod_eq_of_lt]
  rcases hw with rfl | rfl <;> omega

/-- In a numbered registry a resource is found under its id. -/
theorem resourceOf_id (hw : w = 32 ∨ w = 64) (hnum : g.Numbered) {r : ModuleResource w}
    (h : r ∈ g.rtraceResources) : resourceOf g r.id.toNat = some r := by
  obtain ⟨i, hi⟩ := List.mem_iff_getElem?.mp h
  have hplaces := hnum.places
  have hlt := (List.getElem?_eq_some_iff.mp hi).1
  rw [hnum.id i r hi, toNat_id hw (by omega), resourceOf, if_neg (by omega), Nat.add_sub_cancel]
  exact hi

/-- **A registered id keeps its meaning.** The id that
`sp_rtrace_register_resource` returns is, in every state that follows, that
of a resource of the type that was asked for. -/
theorem resourceId_denotes (hw : w = 32 ∨ w = 64) {s : TracerSettings}
    {before after : List (SessionEvent w × Bool)} {p p₁ p₂ : TracedProcess w}
    (hbefore : sessionRun s (.initial w) before = some p) (resource : ModuleResource w) {ok : Bool}
    (hplace : (p.registry.findType resource.type).isSome ∨ p.registry.rtraceResources.length < 32)
    (hstep : sessionStep s p (.registerResource resource, ok) = some p₁)
    (hafter : sessionRun s p₁ after = some p₂) :
    ∃ r, resourceOf p₂.registry (p.registry.resourceId resource).toNat = some r ∧
      r.type = resource.type := by
  have hnum : p.registry.Numbered :=
    sessionRun_numbered ⟨Nat.zero_le _, by simp [TracedProcess.initial]⟩ hbefore
  have hrun : sessionRun s p ((.registerResource resource, ok) :: after) = some p₂ := by
    rw [sessionRun, List.foldlM_cons, hstep]
    exact hafter
  cases hfind : p.registry.findType resource.type with
  | some r =>
    obtain ⟨hmem, htype⟩ := findType_some hfind
    have hid : p.registry.resourceId resource = r.id := by
      simp only [TracerRegistry.resourceId, hfind]
    exact ⟨r, by rw [hid]; exact resourceOf_grows (sessionRun_grows hrun) (resourceOf_id hw hnum hmem),
      htype⟩
  | none =>
    have hroom : p.registry.rtraceResources.length < 32 := by simpa [hfind] using hplace
    obtain ⟨r, hnew⟩ : ∃ r, p.registry.newResource resource = some r := by
      simp [TracerRegistry.newResource, hfind, hroom]
    have hid : p.registry.resourceId resource = r.id := by
      simp only [TracerRegistry.resourceId, hfind, hnew]
    have hregistry : p₁.registry = p.registry.addResource resource := by
      simp only [sessionStep, spRtraceRegisterResource, hnew] at hstep
      exact TracedProcess.putPacket_registry hstep
    have hnum₁ : p₁.registry.Numbered := by
      rw [hregistry]
      exact hnum.addResource resource
    have hmem : r ∈ p₁.registry.rtraceResources := by
      simp [hregistry, TracerRegistry.addResource, hnew]
    refine ⟨r, by rw [hid]; exact resourceOf_grows (sessionRun_grows hafter) (resourceOf_id hw hnum₁ hmem), ?_⟩
    rw [(TracerRegistry.newResource_eq hnew).2]

/-! ## A session with one call -/

def cSettings : TracerSettings where
  outputDir := "/tmp".toList
  postproc := []
  procName := "sh".toList
  pid := 5
  backtraceDepth := 10
  buildArch := "x86_64".toList
  enablePacketBuffering := true

def memoryType : ModuleResource 64 where
  id := 0
  type := some "memory".toList
  desc := none
  flags := 0

/-- The memory type has its id, so the call is of type 1. -/
def mallocCall : ModuleFcall 64 where
  type := 1
  context := 0
  timestamp := 7
  name := some "malloc".toList
  resTypeId := 1
  resId := 4096
  resSize := 16

def noHeap : HeapInfo 64 := ⟨0, 0, 0, 0, 0, 0, 0, 0, 0, 0, 0, 0⟩

def oneCall : List (SessionEvent 64) := [.traced (.functionCall mallocCall none [1024])]

/-- The process once the memory type was registered. -/
def registered : TracedProcess 64 :=
  { TracedProcess.initial 64 with
    registry := { rtraceModules := [], rtraceResources := [{ memoryType with id := 1 }] } }

theorem oneCall_packets : wholeSession cSettings registered.registry oneCall noHeap
    = [.outputSettings cSettings.outputDir cSettings.postproc,
       .packet (.processInfo 5 10 cSettings.procName), .packet (.moduleInfo defModule),
       .packet (.resourceRegistry { memoryType with id := 1 }), .newLibrary (some ['*']),
       .packet (.functionCall mallocCall), .packet (.backtrace [1024]), .newLibrary (some ['*'])] := by
  simp [wholeSession, initialPackets, sessionPackets, closingPackets, oneCall, registered,
    SessionEvent.packets, TracerCall.packets, callPackets, cSettings, noHeap]

theorem oneCall_strings {packet : StreamPacket 64}
    (h : packet ∈ wholeSession cSettings registered.registry oneCall noHeap) : StreamStrings packet := by
  rw [oneCall_packets] at h
  simp only [List.mem_cons, List.not_mem_nil, or_false] at h
  rcases h with rfl | rfl | rfl | rfl | rfl | rfl | rfl | rfl <;>
    simp [StreamStrings, StringsFit, SoundPacket, Fits, CStr, cSettings, defModule, memoryType,
      mallocCall]

theorem oneCall_size {packet : StreamPacket 64}
    (h : packet ∈ wholeSession cSettings registered.registry oneCall noHeap) :
    packet.bytes.length ≤ Modules.bufferSize := by
  rw [oneCall_packets] at h
  simp only [List.mem_cons, List.not_mem_nil, or_false] at h
  rcases h with rfl | rfl | rfl | rfl | rfl | rfl | rfl | rfl <;>
    simp [StreamPacket.bytes, ModulePacket.bytes, ModulePacket.payload,
      Modules.protoPacket_length, writeOutputSettings, writeProcessInfo, Modules.writeModuleInfo,
      writeResourceRegistry, spRtraceWriteNewLibrary, writeFcall, writeBacktrace, cSettings,
      defModule, memoryType, mallocCall, stringSize, padding, Modules.bufferSize]

theorem oneCall_sendable {packet : StreamPacket 64}
    (h : packet ∈ wholeSession cSettings registered.registry oneCall noHeap) : Sendable packet :=
  ⟨oneCall_strings h, oneCall_size h⟩

theorem oneCall_fits : SessionFits cSettings registered.registry oneCall noHeap where
  arch := by decide
  initial := fun _ h => (oneCall_sendable (List.mem_append_left _ (List.mem_append_left _ h))).size
  events := by
    refine ⟨?_, trivial⟩
    rw [show SessionEvent.packets registered.registry (.traced (.functionCall mallocCall none [1024]))
      = [.packet (.functionCall mallocCall), .packet (.backtrace [1024])] from rfl]
    simp only [packetBytes, List.flatMap_cons, List.flatMap_nil, List.length_append, StreamPacket.bytes,
      ModulePacket.bytes, ModulePacket.payload, Modules.protoPacket_length, writeFcall,
      writeBacktrace, writeDword_length, writeString_length]
    decide
  closing := fun _ h => (oneCall_sendable (List.mem_append_right _ h)).size

/-- The memory type is registered, the process is started with tracing, and
one block is allocated before it ends. -/
theorem session_store_oneCall :
    ∃ (p' : TracedProcess 64) (stream : List UInt8),
      sessionRun cSettings registered
        ((SessionEvent.start .opened :: oneCall ++ [SessionEvent.fini noHeap]).map
          fun event => (event, true)) = some p' ∧
      p'.pipes = registered.pipes ++ [stream] ∧
      ∀ (env : ListenerEnv) (st : ListenerState 64), (∀ k, env.writes k = true) → MapsFit 64 env →
        ∃ handed : List UInt8, HandedOver env st stream handed ∧
          StoredFrom [] (sessionHshake 64 cSettings.buildArch) handed fun rd : Rd 64 =>
            SessionStored rd registered.registry oneCall :=
  session_store (.inr rfl) []
    (show sessionRun cSettings (.initial 64) [(.registerResource memoryType, true)] = some registered
      from rfl)
    rfl oneCall_fits (by simp [CStr, cSettings]) (fun _ => oneCall_sendable) trivial
    (by simp [oneCall, SessionEvent.Inside]) rfl

def fileType : ModuleResource 64 where
  id := 0
  type := some "file".toList
  desc := none
  flags := 0

/-- Another module registers the memory type again; then a third one is
registered with its own type. -/
theorem resourceId_denotes_again : ∃ p : TracedProcess 64,
    sessionRun cSettings registered
        [(.registerResource fileType, true), (.registerModule ⟨some "file".toList, 1, 0⟩, true),
          (.registerResource memoryType, false)] = some p ∧
      p.registry.rtraceResources.length = 2 ∧
      ∃ r, resourceOf p.registry (registered.registry.resourceId memoryType).toNat = some r ∧
        r.type = memoryType.type := by
  obtain ⟨p, hafter, hlength⟩ : ∃ p, sessionRun cSettings registered
      [(.registerResource fileType, true), (.registerModule ⟨some "file".toList, 1, 0⟩, true),
        (.registerResource memoryType, false)] = some p ∧ p.registry.rtraceResources.length = 2 :=
    ⟨_, rfl, rfl⟩
  have hbefore : sessionRun cSettings (.initial 64) [(.registerResource memoryType, true)]
      = some registered := rfl
  have hstep : sessionStep cSettings registered (.registerResource memoryType, true) = some registered :=
    rfl
  exact ⟨p, hafter, hlength,
    resourceId_denotes (.inr rfl) hbefore memoryType (.inl (by decide)) hstep hafter⟩

end SpRtrace.Postproc
