/-
SpRtrace.Postproc.ParseBinary — the binary log parser,
`src/rtrace-postproc/parse_binary.c`.

The `read_packet_*` functions are readers of the payload, and
`processPacket` is the switch of `read_generic_packet` on the packet type.
The static variables of the function (`call_index`, `fcall_prev`,
`res_index`) are in `ParseState` beside the trace data.

The payload readers are not bounded by the packet length: they read from
the packet start to the end of the memory they are given. Reading past
the buffer, or an index past `res_index`, leaves no state (`none`); the
packet loop goes on all the same, as its decisions depend on the packet
headers only.
-/
import SpRtrace.Common.Proto
import SpRtrace.Lib.PacketLoop

namespace SpRtrace.Postproc

open SpRtrace.Common SpRtrace.Lib

variable {w : Nat}

def hsCheckVersion (hs : Hshake) (major minor : Nat) : Bool :=
  hs.vmajor.toNat > major || (hs.vmajor.toNat = major && hs.vminor.toNat ≥ minor)

/-! ## Packet payloads -/

/-- `read_handshake_packet`, behind the length byte. -/
def readHandshakePacket : Reader Hshake := do
  let vmajor ← readByte
  let vminor ← readByte
  let len ← readByte
  let arch ← takeBytes len.toNat
  let endianness ← readByte
  let pointerSize ← readByte
  pure { vmajor, vminor, arch := some (cString arch), endianness, pointerSize }

def readPacketCR : Reader (Context w) := do
  let id ← readDword2long
  let name ← readStringa
  pure { id, name }

def readPacketRR (hs : Hshake) : Reader (Resource w) := do
  let id ← readDword2long
  let flags ← if hsCheckVersion hs 1 3 then readDword else pure 0
  let type ← readStringa
  let desc ← readStringa
  pure { id, type, desc, flags, hide := false }

def readPacketMM : Reader (Mmap w) := do
  let fromAddr ← readPointer
  let toAddr ← readPointer
  let moduleName ← readStringa
  pure { fromAddr, toAddr, moduleName }

/-- `read_packet_PI`. Before version 1.2 the depth is left unset (zero
here). `origin` is PACKAGE_STRING. -/
def readPacketPI (origin : Str) (hs : Hshake) : Reader Pinfo := do
  let pid ← readDword
  let sec ← readDword
  let usec ← readDword
  let backtraceDepth ← if hsCheckVersion hs 1 2 then readDword else pure 0
  let name ← readStringa
  pure { pid, backtraceDepth, name := some name, tvSec := sec.toNat, tvUsec := usec.toNat,
         traceOrigin := some origin }

/-- `read_packet_MI`. The version numbers are cut down to bytes. -/
def readPacketMI : Reader Minfo := do
  let id ← readDword
  let version ← readDword
  let name ← readStringa
  pure { id, vmajor := (version >>> 16).setWidth 8, vminor := (version &&& 0xFFFF).setWidth 8,
         name }

def readPacketFILE : Reader Attachment := do
  let name ← readStringa
  let path ← readStringa
  pure { name, path }

/-- What `read_packet_FC` reads: the resource type id, still a number, and
the other fields of the call, without its index. -/
structure FcPacket (w : Nat) where
  resType : BitVec w
  context : BitVec 32
  timestamp : BitVec 32
  type : BitVec 32
  name : Str
  resSize : BitVec 32
  resId : BitVec w
  deriving DecidableEq

def readPacketFC : Reader (FcPacket w) := do
  let resType ← readDword2long
  let context ← readDword
  let timestamp ← readDword
  let type ← readDword
  let name ← readStringa
  let resSize ← readDword
  let resId ← readPointer
  pure { resType, context, timestamp, type, name, resSize, resId }

/-- `read_packet_BT`: the frame addresses. -/
def readPacketBT : Reader (List (BitVec w)) := do
  let nframes : BitVec w ← readDword2long
  repeatRead readPointer nframes.toNat

/-- One argument of `read_packet_FA`. -/
def readFarg : Reader Farg := do
  let name ← readStringa
  let value ← readStringa
  pure { name, value }

def readPacketFA : Reader (List Farg) := do
  let argc ← readDword
  repeatRead readFarg argc.toNat

/-- `read_packet_HI`: the heap ends are read as pointers. The lowest and
highest blocks are left zero by `calloc_a`. -/
def readPacketHI : Reader (Hinfo w) := do
  let heapBottom ← readPointer
  let heapTop ← readPointer
  let arena ← readDword
  let ordblks ← readDword
  let smblks ← readDword
  let hblks ← readDword
  let hblkhd ← readDword
  let usmblks ← readDword
  let fsmblks ← readDword
  let uordblks ← readDword
  let fordblks ← readDword
  let keepcost ← readDword
  pure { heapBottom, heapTop, lowestBlock := 0, highestBlock := 0, arena, ordblks, smblks, hblks,
         hblkhd, usmblks, fsmblks, uordblks, fordblks, keepcost }

/-! ## One packet -/

/-- The trace data and the static variables of the parser. -/
structure ParseState (w : Nat) where
  rd : Rd w
  callIndex : BitVec 32
  fcallPrev : Option Nat
  resIndex : Nat → Option Nat

/-- A field of the trace data and `fcall_prev` after a packet that is no
call, argument or backtrace packet. -/
def ParseState.withRd (st : ParseState w) (rd : Rd w) : ParseState w :=
  { st with rd, fcallPrev := none }

/-- `SP_RTRACE_PROTO_RESOURCE_REGISTRY`: `res_index` has 33 entries. -/
def storeResource (st : ParseState w) (res : Resource w) : Option (ParseState w) :=
  let (rd, addr) := rdAddResource st.rd res
  if res.id.toNat ≤ 32 then
    some { st with
      rd, fcallPrev := none, resIndex := Function.update st.resIndex res.id.toNat (some addr) }
  else none

/-- `SP_RTRACE_PROTO_FUNCTION_CALL`. -/
def storeFcall (st : ParseState w) (fc : FcPacket w) : Option (ParseState w) :=
  if fc.resType.toNat ≤ 32 then
    let data : FcallData w :=
      { index := st.callIndex, type := fc.type, context := fc.context, timestamp := fc.timestamp,
        name := fc.name, resType := st.resIndex fc.resType.toNat, resId := fc.resId,
        resSize := fc.resSize }
    let (rd, addr) := rdAddFcall st.rd data
    some { st with rd, callIndex := st.callIndex + 1, fcallPrev := some addr }
  else none

/-- `SP_RTRACE_PROTO_BACKTRACE`: without a call before it the backtrace is
left alone. -/
def storeBacktrace (st : ParseState w) (frames : List (BitVec w)) : Option (ParseState w) :=
  match st.fcallPrev with
  | none => some { st with fcallPrev := none }
  | some call => do
      let (rd, trace) := rdNewFtrace st.rd (frames.map fun addr => { addr, name := none })
      some { st with rd := ← rdFcallSetFtrace rd call trace, fcallPrev := none }

/-- `SP_RTRACE_PROTO_FUNCTION_ARGS`. -/
def storeFargs (st : ParseState w) (args : List Farg) : Option (ParseState w) :=
  match st.fcallPrev with
  | none => some st
  | some call => do
      let c ← st.rd.fcall call
      some { st with rd := { st.rd with
        fcall := Function.update st.rd.fcall call (some { c with args := some args }) } }

/-- What the payload of a packet of a known type says. -/
inductive PacketData (w : Nat)
  | memoryMap (m : Mmap w)
  | contextRegistry (c : Context w)
  | resourceRegistry (r : Resource w)
  | functionCall (fc : FcPacket w)
  | backtrace (frames : List (BitVec w))
  | functionArgs (args : List Farg)
  | processInfo (p : Pinfo)
  | moduleInfo (m : Minfo)
  | heapInfo (h : Hinfo w)
  | outputSettings
  | attachment (a : Attachment)
  deriving DecidableEq

/-- The reader of the payload for a packet type; `none` for an unknown type. -/
def packetReader (origin : Str) (hs : Hshake) (type : BitVec 32) :
    Option (Reader (PacketData w)) :=
  if type = protoMemoryMap then some (do pure (.memoryMap (← readPacketMM)))
  else if type = protoContextRegistry then some (do pure (.contextRegistry (← readPacketCR)))
  else if type = protoResourceRegistry then some (do pure (.resourceRegistry (← readPacketRR hs)))
  else if type = protoFunctionCall then some (do pure (.functionCall (← readPacketFC)))
  else if type = protoBacktrace then some (do pure (.backtrace (← readPacketBT)))
  else if type = protoFunctionArgs then some (do pure (.functionArgs (← readPacketFA)))
  else if type = protoProcessInfo then some (do pure (.processInfo (← readPacketPI origin hs)))
  else if type = protoModuleInfo then some (do pure (.moduleInfo (← readPacketMI)))
  else if type = protoHeapInfo then some (do pure (.heapInfo (← readPacketHI)))
  else if type = protoOutputSettings then some (pure .outputSettings)
  else if type = protoAttachment then some (do pure (.attachment (← readPacketFILE)))
  else none

/-- The branch of `read_generic_packet` for what was read. -/
def storePacket (st : ParseState w) : PacketData w → Option (ParseState w)
  | .memoryMap m => some (st.withRd { st.rd with mmaps := dlistAdd st.rd.mmaps m })
  | .contextRegistry c => some (st.withRd { st.rd with contexts := dlistAdd st.rd.contexts c })
  | .resourceRegistry r => storeResource st r
  | .functionCall fc => storeFcall st fc
  | .backtrace frames => storeBacktrace st frames
  | .functionArgs args => storeFargs st args
  | .processInfo p => some (st.withRd { st.rd with pinfo := some p })
  | .moduleInfo m => some (st.withRd { st.rd with minfo := dlistAdd st.rd.minfo m })
  | .heapInfo h => some (st.withRd { st.rd with hinfo := some h })
  | .outputSettings => some st
  | .attachment a => some { st with rd := { st.rd with files := dlistAdd st.rd.files a } }

/-- The switch of `read_generic_packet` on the data behind the header.
Arguments without a call are not read at all; the caller has made sure
that the type is known. -/
def processPacket (origin : Str) (hs : Hshake) (st : ParseState w) (type : BitVec 32)
    (data : List UInt8) : Option (ParseState w) :=
  if type = protoFunctionArgs ∧ st.fcallPrev = none then some st
  else do
    let reader ← packetReader origin hs type
    let (x, _) ← reader data
    storePacket st x

/-! ## The packet loop -/

def packetIncomplete : Int := -1

def packetUnknown : Int := -2

/-- The packet header: the type, and the packet length. Before version 2
the length field came first and did not count itself; since then it counts
the payload only. -/
def readHeader (hs : Hshake) : Reader (BitVec 32 × BitVec 32) :=
  if hs.vmajor.toNat < 2 then do
    let len ← readDword
    let type ← readDword
    pure (type, len + 4)
  else do
    let type ← readDword
    let len ← readDword
    pure (type, len + 8)

/-- A handshake in the middle of the stream; only told from version 2 on. -/
def isHandshake (hs : Hshake) (data : List UInt8) : Prop :=
  2 ≤ hs.vmajor.toNat ∧ data.head? = some protoHsId

instance (hs : Hshake) (data : List UInt8) : Decidable (isHandshake hs data) :=
  inferInstanceAs (Decidable (_ ∧ _))

/-- `read_generic_packet`. The length is compared as an `int`. -/
def readGenericPacket (origin : Str) (hs : Hshake) (st : Option (ParseState w))
    (data : List UInt8) (size : Int) : Handled (Option (ParseState w)) :=
  if size < 8 then { state := st, window := data, size := packetIncomplete }
  else
    match readHeader hs data with
    | none => { state := none, window := data, size := packetUnknown }
    | some ((type, len), payload) =>
        if isHandshake hs data then { state := st, window := data, size := packetUnknown }
        else if size < len.toInt then { state := st, window := data, size := packetIncomplete }
        else if (packetReader (w := w) origin hs type).isSome then
          { state := st.bind fun st => processPacket origin hs st type payload,
            window := data, size := len.toInt }
        else
          { state := st.map fun st => { st with fcallPrev := none }, window := data,
            size := packetUnknown }

def bufferSize : Nat := 4096

/-- The loop of `read_binary_data`. -/
def binaryLoop (origin : Str) (hs : Hshake) : PacketLoop (Option (ParseState w)) where
  capacity := bufferSize * 2
  room := bufferSize - 1
  header := 8
  handle := readGenericPacket origin hs
  stops := fun size => size == packetUnknown
  retries := false

def initialState (rd : Rd w) (hs : Hshake) : ParseState w :=
  { rd := { rd with hshake := some hs }, callIndex := 1, fcallPrev := none,
    resIndex := fun _ => none }

/-- `read_binary_data` up to its loop, for the first chunk that is read. It
goes behind the protocol identification byte, which has been read before;
`mem` is the uninitialised buffer. -/
def readBinaryDataStart (rd : Rd w) (mem chunk : List UInt8) (input : List ReadResult) :
    Option (Hshake × LoopConf (Option (ParseState w))) :=
  let mem := storeAt mem 1 chunk
  let dataLen := (chunk.headD 0).toNat
  if chunk.length ≤ dataLen then none
  else do
    let (hs, _) ← readHandshakePacket (mem.drop 2)
    if hs.endianness = 0 ∧ hs.pointerSize.toNat * 8 = w then
      some (hs, { mem, ptr := 2 + dataLen, n := chunk.length - (dataLen + 1),
                  state := some (initialState rd hs), input, halted := false })
    else none

end SpRtrace.Postproc
