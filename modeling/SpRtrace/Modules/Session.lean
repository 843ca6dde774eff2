/-
SpRtrace.Modules.Session — the main tracing module as a whole,
`src/modules/sp_rtrace_main.c`: its registries, the pipe it opens and
closes, and what it writes into it.

The modules register themselves and their resource types at any time,
tracing or not; the toggle signal opens the pipe and closes it. A pipe
that is opened begins with what was registered before, and what is
registered while it is open goes into it at once. Contexts are not kept:
a context is written where it is created, or not at all.

An event runs to its end before the next. The signal comes between two of
them: during one it may find the buffer locked and spin. `ok` is the
outcome of the `write` calls of an event; one that fails ends the session.
-/
import SpRtrace.Modules.PipeBuffer

namespace SpRtrace.Modules

open SpRtrace.Lib SpRtrace.Common

variable {w : Nat}

/-! ## The stream -/

/-- A packet of the stream to the pre-processor: one for the
post-processor, or one of the two that are read on the way. -/
inductive StreamPacket (w : Nat)
  | packet (p : ModulePacket w)
  | outputSettings (outputDir postproc : Str)
  | newLibrary (library : Option Str)

def StreamPacket.bytes : StreamPacket w → List UInt8
  | .packet p => p.bytes
  | .outputSettings outputDir postproc =>
      protoPacket protoOutputSettings (writeOutputSettings (some outputDir) (some postproc))
  | .newLibrary library => protoPacket protoNewLibrary (spRtraceWriteNewLibrary library)

/-- `write_module_info` and `write_resource_registry` ask whether tracing is
enabled. -/
def StreamPacket.asks : StreamPacket w → Bool
  | .packet (.moduleInfo _) => true
  | .packet (.resourceRegistry _) => true
  | _ => false

def TracerCall.packets (enable : Bool) : TracerCall w → List (StreamPacket w)
  | .functionCall c args frames =>
      if enable then (callPackets c args frames).map .packet else []
  | .attachment a => [.packet (.attachment a)]
  | .contextRegistry c => if enable then [.packet (.contextRegistry c)] else []
  | .newLibrary library => [.newLibrary library]

/-! ## The registries -/

/-- `sp_rtrace_module_info_t`, as far as it is kept. -/
structure ModuleInfo where
  name : Option Str
  versionMajor : BitVec 8
  versionMinor : BitVec 8

/-- `rtrace_modules` and `rtrace_resources`. -/
structure TracerRegistry (w : Nat) where
  rtraceModules : List RtraceModule
  rtraceResources : List (ModuleResource w)

/-- The first lines of `sp_rtrace_register_module`: a module gets the next
bit, if one of the 16 places is left. -/
def TracerRegistry.newModule (g : TracerRegistry w) (info : ModuleInfo) : Option RtraceModule :=
  if 16 ≤ g.rtraceModules.length then none
  else some { name := info.name, id := (1 : BitVec 32) <<< g.rtraceModules.length,
              vmajor := info.versionMajor, vminor := info.versionMinor }

/-- The search of `sp_rtrace_register_resource`; the types are C strings. -/
def TracerRegistry.findType (g : TracerRegistry w) (type : Option Str) : Option (ModuleResource w) :=
  g.rtraceResources.find? fun r => r.type = type

/-- The resource that `sp_rtrace_register_resource` adds: one of a type that
is not there, if one of the 32 places is left. -/
def TracerRegistry.newResource (g : TracerRegistry w) (resource : ModuleResource w) :
    Option (ModuleResource w) :=
  match g.findType resource.type with
  | some _ => none
  | none =>
      if 32 ≤ g.rtraceResources.length then none
      else some { resource with id := BitVec.ofNat w (g.rtraceResources.length + 1) }

/-- `resource->id` behind `sp_rtrace_register_resource`. Without a free
place it stays as it was. -/
def TracerRegistry.resourceId (g : TracerRegistry w) (resource : ModuleResource w) : BitVec w :=
  match g.findType resource.type, g.newResource resource with
  | some r, _ => r.id
  | none, some r => r.id
  | none, none => resource.id

def TracerRegistry.addModule (g : TracerRegistry w) (info : ModuleInfo) : TracerRegistry w :=
  { g with rtraceModules := g.rtraceModules ++ (g.newModule info).toList }

def TracerRegistry.addResource (g : TracerRegistry w) (resource : ModuleResource w) : TracerRegistry w :=
  { g with rtraceResources := g.rtraceResources ++ (g.newResource resource).toList }

/-! ## The process -/

/-- What the process and its options say about a session. -/
structure TracerSettings where
  outputDir : Str
  postproc : Str
  procName : Str
  pid : BitVec 32
  backtraceDepth : BitVec 32
  buildArch : Str
  enablePacketBuffering : Bool

/-- The static data of `sp_rtrace_main.c`. `tracing` is what the enable
function of each module was called with last, `fdProc` is `fd_proc > 0`,
and `pipes` are the contents of the pipes that were closed. -/
structure TracedProcess (w : Nat) where
  buffer : PipeBuffer
  fdProc : Bool
  registry : TracerRegistry w
  tracing : List Bool
  pipes : List (List UInt8)

def TracedProcess.enable (p : TracedProcess w) : Bool := p.buffer.enable

def TracedProcess.setEnable (p : TracedProcess w) (value : Bool) : TracedProcess w :=
  { p with buffer := { p.buffer with enable := value } }

def enableTracing (value : Bool) (p : TracedProcess w) : TracedProcess w :=
  { p with tracing := p.tracing.map fun _ => value }

def TracedProcess.leavePipe (p : TracedProcess w) : TracedProcess w :=
  { p with fdProc := false, pipes := if p.fdProc then p.pipes ++ [p.buffer.sent] else p.pipes }

/-- `pipe_buffer_flush`: a `write` that fails disables tracing. -/
def TracedProcess.flush (ok : Bool) (p : TracedProcess w) : TracedProcess w :=
  let p := { p with buffer := pipeBufferFlush ok p.buffer }
  if ok then p else (enableTracing false p).leavePipe

/-- A group of packets between `pipe_buffer_lock` and `pipe_buffer_unlock`. -/
def TracedProcess.put (s : TracerSettings) (ok : Bool) (bytes : List UInt8) (p : TracedProcess w) :
    Option (TracedProcess w) := do
  let flushed := bufferSize < p.buffer.head + bytes.length || !s.enablePacketBuffering
  let buffer ← putGroup s.enablePacketBuffering ok bytes p.buffer
  let p := { p with buffer }
  some (if flushed && !ok then (enableTracing false p).leavePipe else p)

def TracedProcess.putPacket (s : TracerSettings) (ok : Bool) (p : TracedProcess w)
    (packet : StreamPacket w) : Option (TracedProcess w) :=
  if packet.asks && !p.enable then some p else p.put s ok packet.bytes

/-- What `open_pipe` comes to: the pipe, no pipe of that name, or another
failure. Without a pipe of that name tracing is disabled. -/
inductive PipeOpen
  | opened
  | missing
  | failed

def openPipe (outcome : PipeOpen) (p : TracedProcess w) : TracedProcess w :=
  match outcome with
  | .opened => { p with fdProc := true, buffer := { p.buffer with sent := [] } }
  | .missing => { enableTracing false (p.setEnable false) with fdProc := false }
  | .failed => { p with fdProc := false }

/-- SP_RTRACE_PROTO_VERSION_MAJOR and MINOR. -/
def protoVersionMajor : UInt8 := 2
def protoVersionMinor : UInt8 := 0

/-- The fields of `write_handshake`, on a little-endian machine. -/
def handshakeFields (w : Nat) (arch : Str) : List UInt8 :=
  [protoVersionMajor, protoVersionMinor, UInt8.ofNat arch.length] ++ arch.map byteOfChar ++
    [0, UInt8.ofNat (w / 8)]

/-- `write_handshake`: identification and length in front of the fields.
The packet is filled up to whole dwords with what the buffer `mem` has
there. -/
def writeHandshake (w : Nat) (arch : Str) (mem : List UInt8) : List UInt8 :=
  let fields := handshakeFields w arch
  let fill := slice mem (2 + fields.length) (padding (2 + fields.length))
  [protoHsId, UInt8.ofNat (fields.length + fill.length)] ++ fields ++ fill

/-- `def_module` of `write_initial_data`. -/
def defModule : RtraceModule :=
  { name := some "main".toList, id := 0, vmajor := 1, vminor := 0 }

/-- The packets of `write_initial_data` behind the handshake. -/
def initialPackets (s : TracerSettings) (g : TracerRegistry w) : List (StreamPacket w) :=
  [.outputSettings s.outputDir s.postproc,
   .packet (.processInfo s.pid s.backtraceDepth s.procName)] ++
  (defModule :: g.rtraceModules).map (fun m => .packet (.moduleInfo m)) ++
  g.rtraceResources.map (fun r => .packet (.resourceRegistry r)) ++ [.newLibrary (some ['*'])]

def writeInitialData (s : TracerSettings) (ok : Bool) (p : TracedProcess w) :
    Option (TracedProcess w) := do
  let p := { p with buffer := pipeBufferReset p.buffer }
  let p ← p.put s ok (writeHandshake w s.buildArch p.buffer.pipeBuffer)
  let p ← (initialPackets s p.registry).foldlM (TracedProcess.putPacket s ok) p
  some (p.flush ok)

/-- The last packets of a session: the mappings once more, and the heap if
it was looked at. -/
def closingPackets (heapInfo : HeapInfo w) : List (StreamPacket w) :=
  .newLibrary (some ['*']) :: if heapInfo.arena ≠ 0 then [.packet (.heapInfo heapInfo)] else []

/-! ## Events -/

/-- `sp_rtrace_initialize` with the start option. -/
def spRtraceInitialize (s : TracerSettings) (ok : Bool) (outcome : PipeOpen)
    (p : TracedProcess w) : Option (TracedProcess w) := do
  let p ← writeInitialData s ok (openPipe outcome (p.setEnable true))
  some (enableTracing true p)

def signalToggleTracing (s : TracerSettings) (ok : Bool) (outcome : PipeOpen)
    (heapInfo : HeapInfo w) (p : TracedProcess w) : Option (TracedProcess w) := do
  let p := p.setEnable (!p.enable)
  if p.enable then
    let p := openPipe outcome p
    if p.fdProc then
      some (enableTracing true (← writeInitialData s ok p))
    else some p
  else if p.fdProc then
    let p ← (closingPackets heapInfo).foldlM (TracedProcess.putPacket s ok) p
    some ((enableTracing false p).flush ok).leavePipe
  else some p

def traceMainFini (s : TracerSettings) (ok : Bool) (heapInfo : HeapInfo w)
    (p : TracedProcess w) : Option (TracedProcess w) := do
  if p.fdProc then
    let p ← (if p.enable then (closingPackets heapInfo).foldlM (TracedProcess.putPacket s ok) p
      else some p)
    some ((enableTracing false p).flush ok).leavePipe
  else some p

def spRtraceRegisterModule (s : TracerSettings) (ok : Bool) (info : ModuleInfo)
    (p : TracedProcess w) : Option (TracedProcess w) :=
  match p.registry.newModule info with
  | none => some p
  | some m =>
      let p := { p with registry := p.registry.addModule info, tracing := p.tracing ++ [p.enable] }
      p.putPacket s ok (.packet (.moduleInfo m))

def spRtraceRegisterResource (s : TracerSettings) (ok : Bool) (resource : ModuleResource w)
    (p : TracedProcess w) : Option (TracedProcess w) :=
  match p.registry.newResource resource with
  | none => some p
  | some r =>
      let p := { p with registry := p.registry.addResource resource }
      p.putPacket s ok (.packet (.resourceRegistry r))

inductive SessionEvent (w : Nat)
  | start (outcome : PipeOpen)
  | registerModule (info : ModuleInfo)
  | registerResource (resource : ModuleResource w)
  | traced (call : TracerCall w)
  | dlopen (library : Option Str)
  | toggle (outcome : PipeOpen) (heapInfo : HeapInfo w)
  | fini (heapInfo : HeapInfo w)

def TracedProcess.trace (s : TracerSettings) (ok : Bool) (call : TracerCall w)
    (p : TracedProcess w) : Option (TracedProcess w) :=
  match call.group p.enable with
  | some bytes => p.put s ok bytes
  | none => some p

/-- One event, with the outcome of its writes. -/
def sessionStep (s : TracerSettings) (p : TracedProcess w) :
    SessionEvent w × Bool → Option (TracedProcess w)
  | (.start outcome, ok) => spRtraceInitialize s ok outcome p
  | (.registerModule info, ok) => spRtraceRegisterModule s ok info p
  | (.registerResource resource, ok) => spRtraceRegisterResource s ok resource p
  | (.traced call, ok) => p.trace s ok call
  | (.dlopen library, ok) => if p.enable then p.trace s ok (.newLibrary library) else some p
  | (.toggle outcome heapInfo, ok) => signalToggleTracing s ok outcome heapInfo p
  | (.fini heapInfo, ok) => traceMainFini s ok heapInfo p

def sessionRun (s : TracerSettings) (p : TracedProcess w) (events : List (SessionEvent w × Bool)) :
    Option (TracedProcess w) :=
  events.foldlM (sessionStep s) p

/-- The process before `main`. -/
def TracedProcess.initial (w : Nat) : TracedProcess w where
  buffer :=
    { pipeBuffer := List.replicate (2 * bufferSize) 0, head := 0, locked := false, enable := false,
      sent := [] }
  fdProc := false
  registry := { rtraceModules := [], rtraceResources := [] }
  tracing := []
  pipes := []

end SpRtrace.Modules
