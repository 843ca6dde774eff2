/-
SpRtrace.Modules.SessionTheorems — what a session puts into its pipe.

`put_streams` is the step: a group of at most half the buffer goes behind
what was written before, whatever of it is still in the buffer. From it
come the packets of one event (`event_streams`), the events of a session
(`events_stream`) and the session with its beginning and its end,
`session_stream`. The process may have done anything before, sessions
with failed writes included; of that only the buffer (`Valid`) and the
registries matter.
-/
import SpRtrace.Modules.PipeBufferTheorems
import SpRtrace.Modules.Session

namespace SpRtrace.Modules

open SpRtrace.Lib SpRtrace.Common

variable {w : Nat} {s : TracerSettings} {p p' : TracedProcess w}

/-! ## Any run -/

/-- A group that is written leaves a buffer that is ready for the next. -/
theorem putGroup_valid {b b' : PipeBuffer} (hb : b.Valid) {buffering ok : Bool} {bytes : List UInt8}
    (h : putGroup buffering ok bytes b = some b') : b'.Valid := by
  obtain ⟨b₁, hput, hvalid, -⟩ := putGroup_spec hb buffering ok (putGroup_bound hb h)
  obtain rfl := Option.some.inj (hput.symm.trans h)
  exact hvalid

theorem TracedProcess.put_valid (hp : p.buffer.Valid) {ok : Bool} {bytes : List UInt8}
    (h : p.put s ok bytes = some p') : p'.buffer.Valid := by
  simp only [TracedProcess.put, Option.bind_eq_bind, Option.bind_eq_some_iff, Option.some.injEq] at h
  obtain ⟨b, hput, rfl⟩ := h
  have hb := putGroup_valid hp hput
  split <;> exact hb

theorem TracedProcess.putPacket_valid (hp : p.buffer.Valid) {ok : Bool} {packet : StreamPacket w}
    (h : p.putPacket s ok packet = some p') : p'.buffer.Valid := by
  unfold TracedProcess.putPacket at h
  split at h
  · exact Option.some.inj h ▸ hp
  · exact TracedProcess.put_valid hp h

theorem putPackets_valid {ok : Bool} {packets : List (StreamPacket w)} (hp : p.buffer.Valid)
    (h : packets.foldlM (TracedProcess.putPacket s ok) p = some p') : p'.buffer.Valid := by
  induction packets generalizing p with
  | nil => exact Option.some.inj h ▸ hp
  | cons packet packets ih =>
    rw [List.foldlM_cons, Option.bind_eq_bind, Option.bind_eq_some_iff] at h
    obtain ⟨p₁, hput, hrest⟩ := h
    exact ih (TracedProcess.putPacket_valid hp hput) hrest

theorem TracedProcess.flush_valid (hp : p.buffer.Valid) (ok : Bool) : (p.flush ok).buffer.Valid := by
  cases ok <;> exact pipeBufferFlush_valid hp _

theorem writeInitialData_valid (hp : p.buffer.Valid) {ok : Bool}
    (h : writeInitialData s ok p = some p') : p'.buffer.Valid := by
  simp only [writeInitialData, Option.bind_eq_bind, Option.bind_eq_some_iff, Option.some.injEq] at h
  obtain ⟨p₁, hput, p₂, hputs, rfl⟩ := h
  have hreset : (pipeBufferReset p.buffer).Valid := ⟨hp.size, hp.unlocked, Nat.zero_le _⟩
  exact TracedProcess.flush_valid
    (putPackets_valid (TracedProcess.put_valid (by exact hreset) hput) hputs) ok

theorem openPipe_valid (hp : p.buffer.Valid) (outcome : PipeOpen) :
    (openPipe outcome p).buffer.Valid := by
  cases outcome <;> exact ⟨hp.size, hp.unlocked, hp.head⟩

theorem TracedProcess.trace_valid (hp : p.buffer.Valid) {ok : Bool} {call : TracerCall w}
    (h : p.trace s ok call = some p') : p'.buffer.Valid := by
  unfold TracedProcess.trace at h
  split at h
  · exact TracedProcess.put_valid hp h
  · exact Option.some.inj h ▸ hp

/-- An event leaves the buffer ready for the next. -/
theorem sessionStep_valid (hp : p.buffer.Valid) {event : SessionEvent w × Bool}
    (h : sessionStep s p event = some p') : p'.buffer.Valid := by
  have hset : ∀ value, (p.setEnable value).buffer.Valid := fun _ => ⟨hp.size, hp.unlocked, hp.head⟩
  obtain ⟨event, ok⟩ := event
  cases event with
  | start outcome =>
    simp only [sessionStep, spRtraceInitialize, Option.bind_eq_bind, Option.bind_eq_some_iff,
      Option.some.injEq] at h
    obtain ⟨p₁, hinit, rfl⟩ := h
    have hp₁ := writeInitialData_valid (openPipe_valid (hset true) outcome) hinit
    exact hp₁
  | registerModule info =>
    simp only [sessionStep, spRtraceRegisterModule] at h
    split at h
    · exact Option.some.inj h ▸ hp
    · exact TracedProcess.putPacket_valid (by exact hp) h
  | registerResource resource =>
    simp only [sessionStep, spRtraceRegisterResource] at h
    split at h
    · exact Option.some.inj h ▸ hp
    · exact TracedProcess.putPacket_valid (by exact hp) h
  | traced call => exact TracedProcess.trace_valid hp h
  | dlopen library =>
    simp only [sessionStep] at h
    split at h
    · exact TracedProcess.trace_valid hp h
    · exact Option.some.inj h ▸ hp
  | toggle outcome heapInfo =>
    simp only [sessionStep, signalToggleTracing] at h
    split at h
    · split at h
      · simp only [Option.bind_eq_bind, Option.bind_eq_some_iff, Option.some.injEq] at h
        obtain ⟨p₁, hinit, rfl⟩ := h
        have hp₁ := writeInitialData_valid (openPipe_valid (hset _) outcome) hinit
        exact hp₁
      · exact Option.some.inj h ▸ openPipe_valid (hset _) outcome
    · split at h
      · simp only [Option.bind_eq_bind, Option.bind_eq_some_iff, Option.some.injEq] at h
        obtain ⟨p₁, hputs, rfl⟩ := h
        have hp₁ := putPackets_valid (hset _) hputs
        exact TracedProcess.flush_valid (by exact hp₁) ok
      · exact Option.some.inj h ▸ hset _
  | fini heapInfo =>
    simp only [sessionStep, traceMainFini] at h
    split at h
    · simp only [Option.bind_eq_bind, Option.bind_eq_some_iff, Option.some.injEq] at h
      obtain ⟨p₁, hputs, rfl⟩ := h
      have hp₁ : p₁.buffer.Valid := by
        split at hputs
        · exact putPackets_valid hp hputs
        · exact Option.some.inj hputs ▸ hp
      exact TracedProcess.flush_valid (by exact hp₁) ok
    · exact Option.some.inj h ▸ hp

theorem sessionRun_valid {events : List (SessionEvent w × Bool)} (hp : p.buffer.Valid)
    (h : sessionRun s p events = some p') : p'.buffer.Valid := by
  induction events generalizing p with
  | nil => exact Option.some.inj h ▸ hp
  | cons event events ih =>
    rw [sessionRun, List.foldlM_cons, Option.bind_eq_bind, Option.bind_eq_some_iff] at h
    obtain ⟨p₁, hstep, hrest⟩ := h
    exact ih (sessionStep_valid hp hstep) hrest

theorem TracedProcess.initial_valid (w : Nat) : (TracedProcess.initial w).buffer.Valid :=
  ⟨List.length_replicate, rfl, Nat.zero_le _⟩

/-! ## The registries in any run -/

theorem TracedProcess.put_registry {ok : Bool} {bytes : List UInt8}
    (h : p.put s ok bytes = some p') : p'.registry = p.registry := by
  simp only [TracedProcess.put, Option.bind_eq_bind, Option.bind_eq_some_iff, Option.some.injEq] at h
  obtain ⟨b, -, rfl⟩ := h
  split <;> rfl

theorem TracedProcess.putPacket_registry {ok : Bool} {packet : StreamPacket w}
    (h : p.putPacket s ok packet = some p') : p'.registry = p.registry := by
  unfold TracedProcess.putPacket at h
  split at h
  · rw [Option.some.inj h]
  · exact TracedProcess.put_registry h

theorem putPackets_registry {ok : Bool} {packets : List (StreamPacket w)}
    (h : packets.foldlM (TracedProcess.putPacket s ok) p = some p') : p'.registry = p.registry := by
  induction packets generalizing p with
  | nil => rw [Option.some.inj h]
  | cons packet packets ih =>
    rw [List.foldlM_cons, Option.bind_eq_bind, Option.bind_eq_some_iff] at h
    obtain ⟨p₁, hput, hrest⟩ := h
    exact (ih hrest).trans (TracedProcess.putPacket_registry hput)

theorem TracedProcess.flush_registry (ok : Bool) (p : TracedProcess w) :
    (p.flush ok).registry = p.registry := by
  cases ok <;> rfl

theorem writeInitialData_registry {ok : Bool} (h : writeInitialData s ok p = some p') :
    p'.registry = p.registry := by
  simp only [writeInitialData, Option.bind_eq_bind, Option.bind_eq_some_iff, Option.some.injEq] at h
  obtain ⟨p₁, hput, p₂, hputs, rfl⟩ := h
  rw [TracedProcess.flush_registry, putPackets_registry hputs, TracedProcess.put_registry hput]

theorem openPipe_registry (outcome : PipeOpen) (p : TracedProcess w) :
    (openPipe outcome p).registry = p.registry := by
  cases outcome <;> rfl

theorem TracedProcess.trace_registry {ok : Bool} {call : TracerCall w}
    (h : p.trace s ok call = some p') : p'.registry = p.registry := by
  unfold TracedProcess.trace at h
  split at h
  · exact TracedProcess.put_registry h
  · rw [Option.some.inj h]

/-- Only a registration changes the registries. -/
theorem sessionStep_registry {event : SessionEvent w} {ok : Bool}
    (h : sessionStep s p (event, ok) = some p') :
    p'.registry = p.registry ∨ (∃ info, p'.registry = p.registry.addModule info) ∨
      ∃ resource, p'.registry = p.registry.addResource resource := by
  cases event with
  | start outcome =>
    simp only [sessionStep, spRtraceInitialize, Option.bind_eq_bind, Option.bind_eq_some_iff,
      Option.some.injEq] at h
    obtain ⟨p₁, hinit, rfl⟩ := h
    exact .inl ((writeInitialData_registry hinit).trans (openPipe_registry ..))
  | registerModule info =>
    simp only [sessionStep, spRtraceRegisterModule] at h
    split at h
    · exact .inl (by rw [Option.some.inj h])
    · exact .inr (.inl ⟨info, TracedProcess.putPacket_registry h⟩)
  | registerResource resource =>
    simp only [sessionStep, spRtraceRegisterResource] at h
    split at h
    · exact .inl (by rw [Option.some.inj h])
    · exact .inr (.inr ⟨resource, TracedProcess.putPacket_registry h⟩)
  | traced call => exact .inl (TracedProcess.trace_registry h)
  | dlopen library =>
    simp only [sessionStep] at h
    split at h
    · exact .inl (TracedProcess.trace_registry h)
    · exact .inl (by rw [Option.some.inj h])
  | toggle outcome heapInfo =>
    simp only [sessionStep, signalToggleTracing] at h
    split at h
    · split at h
      · simp only [Option.bind_eq_bind, Option.bind_eq_some_iff, Option.some.injEq] at h
        obtain ⟨p₁, hinit, rfl⟩ := h
        exact .inl ((writeInitialData_registry hinit).trans (openPipe_registry ..))
      · exact .inl (by rw [← Option.some.inj h]; exact openPipe_registry ..)
    · split at h
      · simp only [Option.bind_eq_bind, Option.bind_eq_some_iff, Option.some.injEq] at h
        obtain ⟨p₁, hputs, rfl⟩ := h
        have hp₁ : p₁.registry = (p.setEnable (!p.enable)).registry := putPackets_registry hputs
        exact .inl ((TracedProcess.flush_registry ok (enableTracing false p₁)).trans hp₁)
      · exact .inl (by rw [← Option.some.inj h]; rfl)
  | fini heapInfo =>
    simp only [sessionStep, traceMainFini] at h
    split at h
    · simp only [Option.bind_eq_bind, Option.bind_eq_some_iff, Option.some.injEq] at h
      obtain ⟨p₁, hputs, rfl⟩ := h
      have hp₁ : p₁.registry = p.registry := by
        split at hputs
        · exact putPackets_registry hputs
        · rw [Option.some.inj hputs]
      exact .inl ((TracedProcess.flush_registry ok (enableTracing false p₁)).trans hp₁)
    · exact .inl (by rw [Option.some.inj h])

/-- **The resource types are numbered from 1**, and there are 32 places. -/
structure TracerRegistry.Numbered (g : TracerRegistry w) : Prop where
  places : g.rtraceResources.length ≤ 32
  id : ∀ i r, g.rtraceResources[i]? = some r → r.id = BitVec.ofNat w (i + 1)

theorem TracerRegistry.newResource_eq {g : TracerRegistry w} {resource r : ModuleResource w}
    (h : g.newResource resource = some r) :
    g.rtraceResources.length < 32 ∧
      r = { resource with id := BitVec.ofNat w (g.rtraceResources.length + 1) } := by
  unfold TracerRegistry.newResource at h
  split at h
  · cases h
  · split at h
    · cases h
    · exact ⟨by omega, (Option.some.inj h).symm⟩

theorem TracerRegistry.Numbered.addResource {g : TracerRegistry w} (h : g.Numbered) (resource : ModuleResource w) :
    (g.addResource resource).Numbered := by
  cases hnew : g.newResource resource with
  | none => simpa [TracerRegistry.addResource, hnew] using h
  | some r =>
    obtain ⟨hplace, hr⟩ := TracerRegistry.newResource_eq hnew
    simp only [TracerRegistry.addResource, hnew, Option.toList_some]
    refine ⟨by simpa using hplace, fun i r' hi => ?_⟩
    by_cases hlt : i < g.rtraceResources.length
    · exact h.id i r' (by simpa [List.getElem?_append_left hlt] using hi)
    · rw [List.getElem?_append_right (by omega), List.getElem?_singleton] at hi
      split at hi
      · rw [← Option.some.inj hi, hr, show i = g.rtraceResources.length by omega]
      · cases hi

theorem sessionRun_numbered {events : List (SessionEvent w × Bool)} (hp : p.registry.Numbered)
    (h : sessionRun s p events = some p') : p'.registry.Numbered := by
  induction events generalizing p with
  | nil => exact Option.some.inj h ▸ hp
  | cons event events ih =>
    rw [sessionRun, List.foldlM_cons, Option.bind_eq_bind, Option.bind_eq_some_iff] at h
    obtain ⟨p₁, hstep, hrest⟩ := h
    refine ih ?_ hrest
    rcases sessionStep_registry hstep with heq | ⟨info, heq⟩ | ⟨resource, heq⟩ <;> rw [heq]
    · exact hp
    · exact ⟨hp.places, hp.id⟩
    · exact hp.addResource resource

/-! ## An open session -/

/-- The pipe is open, and `stream` was written so far: to the pipe, or into
the buffer. -/
structure Streaming (p : TracedProcess w) (stream : List UInt8) : Prop where
  valid : p.buffer.Valid
  head : p.buffer.head ≤ bufferSize
  bytes : p.buffer.sent ++ p.buffer.content = stream
  fdProc : p.fdProc = true

/-- What writing leaves alone. -/
structure SameProcess (p p' : TracedProcess w) : Prop where
  enable : p'.enable = p.enable
  registry : p'.registry = p.registry
  pipes : p'.pipes = p.pipes

theorem SameProcess.refl (p : TracedProcess w) : SameProcess p p := ⟨rfl, rfl, rfl⟩

theorem SameProcess.trans {p₁ p₂ p₃ : TracedProcess w} (h : SameProcess p₁ p₂)
    (h' : SameProcess p₂ p₃) : SameProcess p₁ p₃ :=
  ⟨h'.enable.trans h.enable, h'.registry.trans h.registry, h'.pipes.trans h.pipes⟩

/-- A complete `write` disables nothing. -/
theorem putGroup_enable {b b' : PipeBuffer} (hb : b.Valid) {buffering : Bool} {bytes : List UInt8}
    (h : putGroup buffering true bytes b = some b') : b'.enable = b.enable := by
  have hfit := putGroup_bound hb h
  by_cases hfull : bufferSize < b.head + bytes.length
  · rw [putGroup_moved hb buffering true hfit hfull] at h
    rw [← Option.some.inj h, Bool.and_true]
  · rw [putGroup_kept hb buffering true (Nat.not_lt.mp hfull)] at h
    rw [← Option.some.inj h]
    cases buffering <;> simp [pipeBufferFlush]

/-- **One group** goes behind the stream. -/
theorem put_streams {stream bytes : List UInt8} (h : Streaming p stream)
    (hfit : bytes.length ≤ bufferSize) :
    ∃ p', p.put s true bytes = some p' ∧ Streaming p' (stream ++ bytes) ∧ SameProcess p p' := by
  have hhead := h.head
  obtain ⟨b, hput, hvalid, hbytes, hhead'⟩ := putGroup_spec h.valid s.enablePacketBuffering true
    (show p.buffer.head + bytes.length ≤ 2 * bufferSize by omega)
  refine ⟨{ p with buffer := b }, by simp [TracedProcess.put, hput], ⟨hvalid, ?_, ?_, h.fdProc⟩,
    ⟨putGroup_enable h.valid hput, rfl, rfl⟩⟩
  · rwa [Nat.max_eq_left hfit] at hhead'
  · show b.sent ++ b.content = stream ++ bytes
    rw [hbytes, h.bytes]

/-- The packets fit, each as a group of its own. -/
def PacketsFit (packets : List (StreamPacket w)) : Prop :=
  ∀ packet ∈ packets, packet.bytes.length ≤ bufferSize

def packetBytes (packets : List (StreamPacket w)) : List UInt8 := packets.flatMap StreamPacket.bytes

@[simp] theorem packetBytes_nil : packetBytes ([] : List (StreamPacket w)) = [] := rfl

@[simp] theorem packetBytes_append (ps qs : List (StreamPacket w)) :
    packetBytes (ps ++ qs) = packetBytes ps ++ packetBytes qs := List.flatMap_append

/-- A packet of the module, while tracing is enabled if it asks. -/
theorem putPacket_streams {stream : List UInt8} {packet : StreamPacket w} (h : Streaming p stream)
    (hasks : packet.asks = true → p.enable = true) (hfit : packet.bytes.length ≤ bufferSize) :
    ∃ p', p.putPacket s true packet = some p' ∧ Streaming p' (stream ++ packet.bytes) ∧
      SameProcess p p' := by
  have hguard : ¬ (packet.asks && !p.enable) = true := by
    cases hcase : packet.asks <;> simp_all
  rw [TracedProcess.putPacket, if_neg hguard]
  exact put_streams h hfit

theorem putPackets_stream {packets : List (StreamPacket w)} {stream : List UInt8}
    (h : Streaming p stream) (hasks : ∀ packet ∈ packets, packet.asks = true → p.enable = true)
    (hfit : PacketsFit packets) :
    ∃ p', packets.foldlM (TracedProcess.putPacket s true) p = some p' ∧
      Streaming p' (stream ++ packetBytes packets) ∧ SameProcess p p' := by
  induction packets generalizing p stream with
  | nil => exact ⟨p, rfl, by simpa using h, .refl p⟩
  | cons packet packets ih =>
    obtain ⟨p₁, hput, h₁, hsame₁⟩ := putPacket_streams h (hasks packet (by simp)) (hfit packet (by simp))
    obtain ⟨p₂, hputs, h₂, hsame₂⟩ := ih h₁
      (fun packet hmem ha => hsame₁.enable.trans (hasks packet (List.mem_cons_of_mem _ hmem) ha))
      (fun packet hmem => hfit packet (List.mem_cons_of_mem _ hmem))
    refine ⟨p₂, ?_, ?_, hsame₁.trans hsame₂⟩
    · rw [List.foldlM_cons, hput]
      exact hputs
    · rwa [List.append_assoc] at h₂

/-! ## Events of a session -/

/-- An event that neither opens nor closes the pipe. -/
def SessionEvent.Inside : SessionEvent w → Prop
  | .start _ | .toggle .. | .fini _ => False
  | _ => True

/-- The packets of an event while tracing is enabled. -/
def SessionEvent.packets (g : TracerRegistry w) : SessionEvent w → List (StreamPacket w)
  | .registerModule info => (g.newModule info).toList.map fun m => .packet (.moduleInfo m)
  | .registerResource resource =>
      (g.newResource resource).toList.map fun r => .packet (.resourceRegistry r)
  | .traced call => call.packets true
  | .dlopen library => [.newLibrary library]
  | _ => []

def SessionEvent.registry (g : TracerRegistry w) : SessionEvent w → TracerRegistry w
  | .registerModule info => g.addModule info
  | .registerResource resource => g.addResource resource
  | _ => g

theorem SessionEvent.numbered {g : TracerRegistry w} (h : g.Numbered) (event : SessionEvent w) :
    (event.registry g).Numbered := by
  cases event with
  | registerModule info => exact ⟨h.places, h.id⟩
  | registerResource resource => exact h.addResource resource
  | _ => exact h

def sessionRegistry (g : TracerRegistry w) (events : List (SessionEvent w)) : TracerRegistry w :=
  events.foldl SessionEvent.registry g

/-- The packets of the events of a session. -/
def sessionPackets (g : TracerRegistry w) : List (SessionEvent w) → List (StreamPacket w)
  | [] => []
  | event :: events => event.packets g ++ sessionPackets (event.registry g) events

/-- What an event writes is one group, and fits into half the buffer. -/
def EventsFit (g : TracerRegistry w) : List (SessionEvent w) → Prop
  | [] => True
  | event :: events =>
      (packetBytes (event.packets g)).length ≤ bufferSize ∧ EventsFit (event.registry g) events

theorem TracerCall.group_enabled (call : TracerCall w) :
    call.group true = some (packetBytes (call.packets true)) := by
  cases call with
  | functionCall c args frames =>
    simp [TracerCall.group, TracerCall.packets, packetBytes, spRtraceWriteFunctionCall_eq,
      List.flatMap_map, StreamPacket.bytes]
  | _ => simp [TracerCall.group, TracerCall.packets, packetBytes, StreamPacket.bytes,
      ModulePacket.bytes, ModulePacket.type, ModulePacket.payload]

theorem trace_streams {stream : List UInt8} {call : TracerCall w} (h : Streaming p stream)
    (henable : p.enable = true) (hfit : (packetBytes (call.packets true)).length ≤ bufferSize) :
    ∃ p', p.trace s true call = some p' ∧
      Streaming p' (stream ++ packetBytes (call.packets true)) ∧ SameProcess p p' := by
  rw [TracedProcess.trace, henable, TracerCall.group_enabled]
  exact put_streams h hfit

/-- **One event** of a session: its packets go behind the stream. -/
theorem event_streams {stream : List UInt8} {event : SessionEvent w} (h : Streaming p stream)
    (henable : p.enable = true) (hinside : event.Inside)
    (hfit : (packetBytes (event.packets p.registry)).length ≤ bufferSize) :
    ∃ p', sessionStep s p (event, true) = some p' ∧
      Streaming p' (stream ++ packetBytes (event.packets p.registry)) ∧ p'.enable = true ∧
      p'.registry = event.registry p.registry ∧ p'.pipes = p.pipes := by
  cases event with
  | start outcome => exact hinside.elim
  | toggle outcome heapInfo => exact hinside.elim
  | fini heapInfo => exact hinside.elim
  | registerModule info =>
    simp only [sessionStep, spRtraceRegisterModule, SessionEvent.packets, SessionEvent.registry] at hfit ⊢
    cases hnew : p.registry.newModule info with
    | none =>
      refine ⟨p, rfl, by simpa using h, henable, ?_, rfl⟩
      simp [TracerRegistry.addModule, hnew]
    | some m =>
      have hp : Streaming
          { p with registry := p.registry.addModule info, tracing := p.tracing ++ [p.enable] }
          stream := ⟨h.valid, h.head, h.bytes, h.fdProc⟩
      obtain ⟨p', hput, h', hsame⟩ := putPacket_streams (s := s) hp (fun _ => henable)
        (show (StreamPacket.packet (.moduleInfo m) : StreamPacket w).bytes.length ≤ bufferSize by
          simpa [hnew, packetBytes] using hfit)
      exact ⟨p', hput, by simpa [packetBytes] using h', hsame.enable.trans henable, hsame.registry,
        hsame.pipes⟩
  | registerResource resource =>
    simp only [sessionStep, spRtraceRegisterResource, SessionEvent.packets, SessionEvent.registry] at hfit ⊢
    cases hnew : p.registry.newResource resource with
    | none =>
      refine ⟨p, rfl, by simpa using h, henable, ?_, rfl⟩
      simp [TracerRegistry.addResource, hnew]
    | some r =>
      have hp : Streaming { p with registry := p.registry.addResource resource } stream :=
        ⟨h.valid, h.head, h.bytes, h.fdProc⟩
      obtain ⟨p', hput, h', hsame⟩ := putPacket_streams (s := s) hp (fun _ => henable)
        (show (StreamPacket.packet (.resourceRegistry r) : StreamPacket w).bytes.length
            ≤ bufferSize by
          simpa [hnew, packetBytes] using hfit)
      exact ⟨p', hput, by simpa [packetBytes] using h', hsame.enable.trans henable, hsame.registry,
        hsame.pipes⟩
  | traced call =>
    obtain ⟨p', htrace, h', hsame⟩ := trace_streams (s := s) h henable hfit
    exact ⟨p', htrace, h', hsame.enable.trans henable, hsame.registry, hsame.pipes⟩
  | dlopen library =>
    have hpackets : (packetBytes ((TracerCall.newLibrary library : TracerCall w).packets true)).length
        ≤ bufferSize := hfit
    obtain ⟨p', htrace, h', hsame⟩ := trace_streams (s := s) h henable hpackets
    refine ⟨p', ?_, h', hsame.enable.trans henable, hsame.registry, hsame.pipes⟩
    simp only [sessionStep, henable, if_true]
    exact htrace

/-- The events of a session, one after the other. -/
theorem events_stream {events : List (SessionEvent w)} {stream : List UInt8} (h : Streaming p stream)
    (henable : p.enable = true) (hinside : ∀ event ∈ events, event.Inside)
    (hfit : EventsFit p.registry events) :
    ∃ p', sessionRun s p (events.map fun event => (event, true)) = some p' ∧
      Streaming p' (stream ++ packetBytes (sessionPackets p.registry events)) ∧ p'.enable = true ∧
      p'.registry = sessionRegistry p.registry events ∧ p'.pipes = p.pipes := by
  induction events generalizing p stream with
  | nil => exact ⟨p, rfl, by simpa [sessionPackets] using h, henable, rfl, rfl⟩
  | cons event events ih =>
    obtain ⟨p₁, hstep, h₁, henable₁, hregistry₁, hpipes₁⟩ :=
      event_streams (s := s) h henable (hinside event (by simp)) hfit.1
    obtain ⟨p₂, hrun, h₂, henable₂, hregistry₂, hpipes₂⟩ := ih h₁ henable₁
      (fun event hmem => hinside event (List.mem_cons_of_mem _ hmem)) (by rw [hregistry₁]; exact hfit.2)
    refine ⟨p₂, ?_, ?_, henable₂, ?_, hpipes₂.trans hpipes₁⟩
    · rw [List.map_cons, sessionRun, List.foldlM_cons, hstep]
      exact hrun
    · rw [hregistry₁] at h₂
      simpa [sessionPackets] using h₂
    · rw [hregistry₂, hregistry₁]
      rfl

/-! ## The beginning and the end -/

/-- A flush changes nothing about the stream. -/
theorem flush_streams {stream : List UInt8} (h : Streaming p stream) :
    Streaming (p.flush true) stream ∧ (p.flush true).buffer.sent = stream ∧
      SameProcess p (p.flush true) := by
  have hsent : (p.flush true).buffer.sent = stream := h.bytes
  refine ⟨⟨pipeBufferFlush_valid h.valid true, Nat.zero_le _, ?_, h.fdProc⟩, hsent,
    ⟨by simp [TracedProcess.enable, TracedProcess.flush, pipeBufferFlush], rfl, rfl⟩⟩
  rw [hsent]
  simp [TracedProcess.flush, pipeBufferFlush_content]

/-- The bytes of a session, behind whatever the buffer `mem` held. -/
def sessionBytes (s : TracerSettings) (mem : List UInt8) (packets : List (StreamPacket w)) :
    List UInt8 :=
  writeHandshake w s.buildArch mem ++ packetBytes packets

theorem writeHandshake_length (w : Nat) (arch : Str) (mem : List UInt8) :
    (writeHandshake w arch mem).length ≤ arch.length + 10 := by
  have hpad : padding (2 + (handshakeFields w arch).length) ≤ 3 := by
    rw [padding]
    omega
  have hfill := List.length_take_le (padding (2 + (handshakeFields w arch).length))
    (mem.drop (2 + (handshakeFields w arch).length))
  have hfields : (handshakeFields w arch).length = arch.length + 5 := by
    simp [handshakeFields]
  simp only [writeHandshake, slice, List.length_append, List.length_cons, List.length_nil]
  omega

/-- `write_initial_data` on a pipe that was just opened. -/
theorem writeInitialData_streams (hp : p.buffer.Valid) (henable : p.enable = true)
    (hfd : p.fdProc = true) (hsent : p.buffer.sent = []) (harch : s.buildArch.length < 240)
    (hfit : PacketsFit (initialPackets s p.registry)) :
    ∃ p', writeInitialData s true p = some p' ∧
      Streaming p' (sessionBytes s p.buffer.pipeBuffer (initialPackets s p.registry)) ∧
      SameProcess p p' := by
  have h₀ : Streaming { p with buffer := pipeBufferReset p.buffer } [] := by
    refine ⟨⟨hp.size, hp.unlocked, Nat.zero_le _⟩, Nat.zero_le _, ?_, hfd⟩
    show p.buffer.sent ++ _ = []
    rw [hsent, PipeBuffer.content_of_head rfl]
    rfl
  have hlength := writeHandshake_length w s.buildArch p.buffer.pipeBuffer
  obtain ⟨p₁, hput, h₁, hsame₁⟩ := put_streams (s := s) h₀
    (show (writeHandshake w s.buildArch p.buffer.pipeBuffer).length ≤ bufferSize by
      rw [bufferSize]
      omega)
  obtain ⟨p₂, hputs, h₂, hsame₂⟩ := putPackets_stream (s := s) h₁
    (fun _ _ _ => hsame₁.enable.trans henable) hfit
  obtain ⟨h₃, -, hsame₃⟩ := flush_streams h₂
  refine ⟨p₂.flush true, ?_, by simpa [sessionBytes] using h₃, ?_⟩
  · have hregistry : p₁.registry = p.registry := hsame₁.registry
    simp only [writeInitialData, Option.bind_eq_bind]
    rw [show (pipeBufferReset p.buffer).pipeBuffer = p.buffer.pipeBuffer from rfl, hput,
      Option.bind_some, hregistry, hputs, Option.bind_some]
  · have hsame := (hsame₁.trans hsame₂).trans hsame₃
    exact ⟨hsame.enable, hsame.registry, hsame.pipes⟩

/-- An event that opens the pipe of a process that is not traced. -/
def SessionEvent.Opens : SessionEvent w → Prop
  | .start .opened => True
  | .toggle .opened _ => True
  | _ => False

/-- An event that closes the pipe of a process that is traced. -/
def SessionEvent.Closes (heapInfo : HeapInfo w) : SessionEvent w → Prop
  | .toggle _ h => h = heapInfo
  | .fini h => h = heapInfo
  | _ => False

theorem opens_streams (hp : p.buffer.Valid) (hoff : p.enable = false)
    (harch : s.buildArch.length < 240) (hfit : PacketsFit (initialPackets s p.registry))
    {event : SessionEvent w} (hopens : event.Opens) :
    ∃ p', sessionStep s p (event, true) = some p' ∧
      Streaming p' (sessionBytes s p.buffer.pipeBuffer (initialPackets s p.registry)) ∧
      p'.enable = true ∧ p'.registry = p.registry ∧ p'.pipes = p.pipes := by
  have hopened : (openPipe .opened (p.setEnable true)).buffer.Valid :=
    ⟨hp.size, hp.unlocked, hp.head⟩
  obtain ⟨p', hinit, h', hsame⟩ := writeInitialData_streams hopened rfl rfl rfl harch hfit
  have hstream : Streaming (enableTracing true p')
      (sessionBytes s p.buffer.pipeBuffer (initialPackets s p.registry)) :=
    ⟨h'.valid, h'.head, h'.bytes, h'.fdProc⟩
  refine ⟨enableTracing true p', ?_, hstream, hsame.enable, hsame.registry, hsame.pipes⟩
  match event, hopens with
  | .start .opened, _ =>
    simp only [sessionStep, spRtraceInitialize, hinit, Option.bind_eq_bind, Option.bind_some]
  | .toggle .opened heapInfo, _ =>
    have hset : (p.setEnable true).enable = true := rfl
    have hopen : (openPipe .opened (p.setEnable true)).fdProc = true := rfl
    simp only [sessionStep, signalToggleTracing, hoff, Bool.not_false, hset, hopen, if_true, hinit,
      Option.bind_eq_bind, Option.bind_some]

theorem closingPackets_ask (heapInfo : HeapInfo w) {packet : StreamPacket w}
    (h : packet ∈ closingPackets heapInfo) : packet.asks = false := by
  unfold closingPackets at h
  split at h
  · simp only [List.mem_cons, List.not_mem_nil, or_false] at h
    rcases h with rfl | rfl <;> rfl
  · obtain rfl := List.mem_singleton.mp h
    rfl

theorem closes_stream {stream : List UInt8} (h : Streaming p stream) (henable : p.enable = true)
    {heapInfo : HeapInfo w} (hfit : PacketsFit (closingPackets heapInfo)) {event : SessionEvent w}
    (hcloses : event.Closes heapInfo) :
    ∃ p', sessionStep s p (event, true) = some p' ∧
      p'.pipes = p.pipes ++ [stream ++ packetBytes (closingPackets heapInfo)] ∧
      p'.registry = p.registry := by
  -- the closing packets do not ask whether tracing is enabled
  have hclosing : ∀ q : TracedProcess w, Streaming q stream →
      ∃ q', (closingPackets heapInfo).foldlM (TracedProcess.putPacket s true) q = some q' ∧
        ((enableTracing false q').flush true).leavePipe.pipes
          = q.pipes ++ [stream ++ packetBytes (closingPackets heapInfo)] ∧
        ((enableTracing false q').flush true).leavePipe.registry = q.registry := by
    intro q hq
    obtain ⟨q', hputs, hq', hsame⟩ := putPackets_stream (s := s) hq
      (fun packet hmem hask => absurd hask (by rw [closingPackets_ask heapInfo hmem]; decide)) hfit
    have hoff : Streaming (enableTracing false q') _ := ⟨hq'.valid, hq'.head, hq'.bytes, hq'.fdProc⟩
    obtain ⟨hflush, hsent, hsame'⟩ := flush_streams hoff
    refine ⟨q', hputs, ?_, hsame'.registry.trans hsame.registry⟩
    rw [TracedProcess.leavePipe]
    simp only [hflush.fdProc, if_true, hsent, hsame'.pipes]
    rw [← hsame.pipes]
    rfl
  match event, hcloses with
  | .toggle outcome _, rfl =>
    have hset : Streaming (p.setEnable false) stream :=
      ⟨⟨h.valid.size, h.valid.unlocked, h.valid.head⟩, h.head, h.bytes, h.fdProc⟩
    obtain ⟨q', hputs, hpipes, hregistry⟩ := hclosing _ hset
    refine ⟨_, ?_, hpipes, hregistry⟩
    have hdisabled : (p.setEnable false).enable = false := rfl
    simp only [sessionStep, signalToggleTracing, henable, Bool.not_true, hdisabled, hset.fdProc,
      Bool.false_eq_true, if_false, if_true, hputs, Option.bind_eq_bind, Option.bind_some]
  | .fini _, rfl =>
    obtain ⟨q', hputs, hpipes, hregistry⟩ := hclosing _ h
    refine ⟨_, ?_, hpipes, hregistry⟩
    simp only [sessionStep, traceMainFini, henable, h.fdProc, if_true, hputs, Option.bind_eq_bind,
      Option.bind_some]

/-- What a session writes behind its handshake: the settings, all that was
registered before, the packets of its events in their order, and the end. -/
def wholeSession (s : TracerSettings) (g : TracerRegistry w) (during : List (SessionEvent w))
    (heapInfo : HeapInfo w) : List (StreamPacket w) :=
  initialPackets s g ++ sessionPackets g during ++ closingPackets heapInfo

/-- The groups of a session fit into half the buffer. -/
structure SessionFits (s : TracerSettings) (g : TracerRegistry w) (during : List (SessionEvent w))
    (heapInfo : HeapInfo w) : Prop where
  arch : s.buildArch.length < 240
  initial : PacketsFit (initialPackets s g)
  events : EventsFit g during
  closing : PacketsFit (closingPackets heapInfo)

/-- **A session reaches its pipe whole.** Whatever the process did before,
with failed writes and other sessions: once the pipe is opened, what was
registered so far, every packet of the session and nothing else is
written into that pipe, in order, until it is closed. -/
theorem session_stream {before : List (SessionEvent w × Bool)}
    (hbefore : sessionRun s (.initial w) before = some p) (hoff : p.enable = false)
    {during : List (SessionEvent w)} {heapInfo : HeapInfo w}
    (hfits : SessionFits s p.registry during heapInfo) {opening closing : SessionEvent w}
    (hopens : opening.Opens) (hinside : ∀ event ∈ during, event.Inside)
    (hcloses : closing.Closes heapInfo) :
    ∃ p', sessionRun s p ((opening :: during ++ [closing]).map fun event => (event, true)) = some p' ∧
      p'.pipes = p.pipes ++
        [sessionBytes s p.buffer.pipeBuffer (wholeSession s p.registry during heapInfo)] ∧
      p'.registry = sessionRegistry p.registry during := by
  have hvalid := sessionRun_valid (TracedProcess.initial_valid w) hbefore
  obtain ⟨p₁, hopen, h₁, henable₁, hregistry₁, hpipes₁⟩ :=
    opens_streams hvalid hoff hfits.arch hfits.initial hopens
  obtain ⟨p₂, hrun, h₂, henable₂, hregistry₂, hpipes₂⟩ :=
    events_stream (s := s) h₁ henable₁ hinside (by rw [hregistry₁]; exact hfits.events)
  obtain ⟨p₃, hclose, hpipes₃, hregistry₃⟩ := closes_stream (s := s) h₂ henable₂ hfits.closing hcloses
  refine ⟨p₃, ?_, ?_, by rw [hregistry₃, hregistry₂, hregistry₁]⟩
  · have hlast : sessionRun s p₂ [(closing, true)] = some p₃ := by
      rw [sessionRun, List.foldlM_cons, hclose]
      rfl
    rw [List.cons_append, List.map_cons, List.map_append, sessionRun, List.foldlM_cons, hopen]
    show (List.foldlM _ p₁ _) = _
    rw [List.foldlM_append]
    show (sessionRun s p₁ (during.map fun event => (event, true))).bind _ = _
    rw [hrun]
    exact hlast
  · rw [hpipes₃, hpipes₂, hpipes₁, hregistry₁]
    simp [sessionBytes, wholeSession]

end SpRtrace.Modules
