/-
SpRtrace.Modules.Main — the packets the tracing module emits,
`src/modules/sp_rtrace_main.c`.

The PACKET_* macros lay out a packet as type, length and payload; the
length is filled in at the end from the write pointer and stored in a
dword. Each encoder is given by its payload and its bytes are
`protoPacket` of that, as the macros expand it. Tracing is enabled: with
`sp_rtrace_options->enable` off nothing is written.
-/
import SpRtrace.Common.Proto

namespace SpRtrace.Modules

open SpRtrace.Common SpRtrace.Lib

variable {w : Nat}

/-- PACKET_START, the writes of the payload and PACKET_END. -/
def protoPacket (type : BitVec 32) (payload : List UInt8) : List UInt8 :=
  writeDword type ++ writeDword (BitVec.ofNat 32 payload.length) ++ payload

/-! ## What is written -/

structure RtraceModule where
  name : Option Str
  id : BitVec 32
  vmajor : BitVec 8
  vminor : BitVec 8

structure ModuleResource (w : Nat) where
  id : BitVec w
  type : Option Str
  desc : Option Str
  flags : BitVec 32

structure ModuleContext (w : Nat) where
  id : BitVec w
  name : Option Str

/-- `module_attachment_t` with its path related to the output directory. -/
structure ModuleAttachment where
  name : Option Str
  path : Str

/-- What `write_heap_info` reads: the heap ends and `mallinfo()`. -/
structure HeapInfo (w : Nat) where
  heapBottom : BitVec w
  heapEnd : BitVec w
  arena : BitVec 32
  ordblks : BitVec 32
  smblks : BitVec 32
  hblks : BitVec 32
  hblkhd : BitVec 32
  usmblks : BitVec 32
  fsmblks : BitVec 32
  uordblks : BitVec 32
  fordblks : BitVec 32
  keepcost : BitVec 32

/-- `module_fcall_t` with the context and the time stamp of the call. -/
structure ModuleFcall (w : Nat) where
  type : BitVec 32
  context : BitVec 32
  timestamp : BitVec 32
  name : Option Str
  resTypeId : BitVec 32
  resId : BitVec w
  resSize : BitVec 32

/-- `module_farg_t`; the list ends at the first NULL name. -/
structure ModuleFarg where
  name : Str
  value : Option Str

/-! ## Encoders -/

def writeModuleInfo (m : RtraceModule) : List UInt8 :=
  writeDword m.id ++ writeDword ((m.vmajor.setWidth 32 <<< 16) ||| m.vminor.setWidth 32) ++
    writeString m.name

def writeResourceRegistry (r : ModuleResource w) : List UInt8 :=
  writeDword (r.id.setWidth 32) ++ writeDword r.flags ++ writeString r.type ++ writeString r.desc

/-- `write_process_info`: the time stamp is left to the pre-processor. -/
def writeProcessInfo (pid backtraceDepth : BitVec 32) (procName : Str) : List UInt8 :=
  writeDword pid ++ writeDword 0 ++ writeDword 0 ++ writeDword backtraceDepth ++
    writeString (some procName)

/-- `write_heap_info`: all twelve fields are written as dwords. -/
def writeHeapInfo (h : HeapInfo w) : List UInt8 :=
  writeDword (h.heapBottom.setWidth 32) ++ writeDword (h.heapEnd.setWidth 32) ++
    writeDword h.arena ++ writeDword h.ordblks ++ writeDword h.smblks ++ writeDword h.hblks ++
    writeDword h.hblkhd ++ writeDword h.usmblks ++ writeDword h.fsmblks ++
    writeDword h.uordblks ++ writeDword h.fordblks ++ writeDword h.keepcost

def spRtraceWriteNewLibrary (library : Option Str) : List UInt8 := writeString library

def writeOutputSettings (outputDir postproc : Option Str) : List UInt8 :=
  writeString outputDir ++ writeString postproc

def spRtraceWriteAttachment (a : ModuleAttachment) : List UInt8 :=
  writeString a.name ++ writeString (some a.path)

def spRtraceWriteContextRegistry (c : ModuleContext w) : List UInt8 :=
  writeDword (c.id.setWidth 32) ++ writeString c.name

/-- The call packet of `sp_rtrace_write_function_call`. -/
def writeFcall (c : ModuleFcall w) : List UInt8 :=
  writeDword c.resTypeId ++ writeDword c.context ++ writeDword c.timestamp ++ writeDword c.type ++
    writeString c.name ++ writeDword c.resSize ++ writePointer c.resId

/-- Its argument packet; the number of arguments is inserted at the front. -/
def writeFargs (args : List ModuleFarg) : List UInt8 :=
  writeDword (BitVec.ofNat 32 args.length) ++
    args.flatMap fun a => writeString (some a.name) ++ writeString a.value

/-- Its backtrace packet; no backtrace is an empty one. -/
def writeBacktrace (frames : List (BitVec w)) : List UInt8 :=
  writeDword (BitVec.ofNat 32 frames.length) ++ frames.flatMap writePointer

def spRtraceWriteFunctionCall (c : ModuleFcall w) (args : Option (List ModuleFarg))
    (frames : List (BitVec w)) : List UInt8 :=
  protoPacket protoFunctionCall (writeFcall c) ++
    (match args with
      | some args => protoPacket protoFunctionArgs (writeFargs args)
      | none => []) ++
    protoPacket protoBacktrace (writeBacktrace frames)

/-! ## Packets -/

inductive ModulePacket (w : Nat)
  | moduleInfo (m : RtraceModule)
  | resourceRegistry (r : ModuleResource w)
  | processInfo (pid backtraceDepth : BitVec 32) (procName : Str)
  | heapInfo (h : HeapInfo w)
  | attachment (a : ModuleAttachment)
  | contextRegistry (c : ModuleContext w)
  | functionCall (c : ModuleFcall w)
  | functionArgs (args : List ModuleFarg)
  | backtrace (frames : List (BitVec w))

def ModulePacket.type : ModulePacket w → BitVec 32
  | .moduleInfo _ => protoModuleInfo
  | .resourceRegistry _ => protoResourceRegistry
  | .processInfo .. => protoProcessInfo
  | .heapInfo _ => protoHeapInfo
  | .attachment _ => protoAttachment
  | .contextRegistry _ => protoContextRegistry
  | .functionCall _ => protoFunctionCall
  | .functionArgs _ => protoFunctionArgs
  | .backtrace _ => protoBacktrace

def ModulePacket.payload : ModulePacket w → List UInt8
  | .moduleInfo m => writeModuleInfo m
  | .resourceRegistry r => writeResourceRegistry r
  | .processInfo pid backtraceDepth procName => writeProcessInfo pid backtraceDepth procName
  | .heapInfo h => writeHeapInfo h
  | .attachment a => spRtraceWriteAttachment a
  | .contextRegistry c => spRtraceWriteContextRegistry c
  | .functionCall c => writeFcall c
  | .functionArgs args => writeFargs args
  | .backtrace frames => writeBacktrace frames

/-- The packet as it is put into the pipe buffer. -/
def ModulePacket.bytes (p : ModulePacket w) : List UInt8 := protoPacket p.type p.payload

/-- The length that PACKET_END stores in the header. -/
def ModulePacket.storedLength (p : ModulePacket w) : Nat :=
  (BitVec.ofNat 32 p.payload.length).toNat

def callPackets (c : ModuleFcall w) (args : Option (List ModuleFarg))
    (frames : List (BitVec w)) : List (ModulePacket w) :=
  .functionCall c :: (args.map ModulePacket.functionArgs).toList ++ [.backtrace frames]

theorem spRtraceWriteFunctionCall_eq (c : ModuleFcall w) (args : Option (List ModuleFarg))
    (frames : List (BitVec w)) :
    spRtraceWriteFunctionCall c args frames
      = (callPackets c args frames).flatMap ModulePacket.bytes := by
  cases args <;>
    simp [spRtraceWriteFunctionCall, callPackets, ModulePacket.bytes, ModulePacket.type,
      ModulePacket.payload]

/-- The time stamp of a call, from CLOCK_MONOTONIC: milliseconds, modulo a
day. -/
def callTimestamp (tvSec tvNsec : Nat) : BitVec 32 :=
  BitVec.ofNat 32 (tvNsec / 1000000 + tvSec % (60 * 60 * 24) * 1000)

end SpRtrace.Modules
