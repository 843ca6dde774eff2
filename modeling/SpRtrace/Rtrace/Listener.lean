/-
SpRtrace.Rtrace.Listener — the pre-processor, `src/rtrace/listener.c`.

`process_data` reads the pipe of the tracing module, replaces some of the
packets and hands the rest to `write_data`. What was handed over is kept
in the state as `out`, buffer by buffer.

The environment answers the k-th question it is asked by the number of
buffers handed over so far: whether `write_data` succeeds, what time it
is, and what the maps file of the process holds. A failed `read()` and a
stop request end the input.
-/
import SpRtrace.Common.Proto
import SpRtrace.Lib.PacketLoop
import SpRtrace.Lib.Stdio
import SpRtrace.Modules.Main

namespace SpRtrace.Rtrace

open SpRtrace.Common SpRtrace.Lib

variable {w : Nat}

/-! ## State -/

def bufferSize : Nat := 4096

structure ListenerEnv where
  writes : Nat → Bool
  timeofday : Nat → BitVec 32 × BitVec 32
  maps : Nat → BitVec 32 → Str

/-- The static data of the listener and the options it updates. -/
structure ListenerState (w : Nat) where
  hsBuffer : List UInt8
  outputDir : Option Str
  postproc : Option Str
  pid : BitVec 32
  mmaps : List (Mmap w)
  out : List (List UInt8)

def writeData (env : ListenerEnv) (st : ListenerState w) (data : List UInt8) :
    ListenerState w × Bool :=
  ({ st with out := st.out ++ [data] }, env.writes st.out.length)

/-! ## Memory maps -/

def rangeCompare (mmap1 mmap2 : Mmap w) : Int :=
  if mmap1.toAddr < mmap2.fromAddr then -1
  else if mmap2.toAddr < mmap1.fromAddr then 1
  else 0

/-- The format of a maps line: from-to rights offset device inode module. -/
def mapsFormat : List Directive :=
  [.conv .hexLong, .lit '-', .conv .hexLong, .space, .conv (.word 8), .space,
   .conv (.except [' '] pathMax), .space, .conv (.except [' '] pathMax), .space,
   .conv (.except [' '] pathMax), .space, .conv (.except [' '] pathMax)]

/-- The mapping of executable code on a maps line. All fields behind the
rights go to one buffer, and the last character, a newline, is cut off. A
line that does not fit the buffers is not one of the kernel's. -/
def mapsLine (line : Str) : Option (Mmap w) := do
  let r ← sscanf w mapsFormat line
  match r.values with
  | [.long fromAddr, .long toAddr, .text rights, _, _, _, .text buffer] =>
      if rights[2]? = some 'x' then
        some { fromAddr, toAddr, moduleName := buffer.dropLast }
      else none
  | _ => none

def mmapPacket (map : Mmap w) : List UInt8 :=
  Modules.protoPacket protoMemoryMap
    (writePointer map.fromAddr ++ writePointer map.toAddr ++ writeString (some map.moduleName))

/-- A mapping that is not registered yet replaces the one it overlaps. -/
def registerMmap (mmaps : List (Mmap w)) (map : Mmap w) : Option (List (Mmap w)) :=
  match dlistFind (fun mmap => some (rangeCompare mmap map)) mmaps with
  | some (some old) =>
      if old.moduleName = map.moduleName ∧ old.fromAddr = map.fromAddr ∧ old.toAddr = map.toAddr then
        none
      else some (dlistAdd (mmaps.erase old) map)
  | _ => some (dlistAdd mmaps map)

/-- The loop of `scan_mmap_data`; a failed write ends it. -/
def scanMmapLines (env : ListenerEnv) : List Str → ListenerState w → ListenerState w
  | [], st => st
  | line :: lines, st =>
      match (mapsLine line).bind fun map => (registerMmap st.mmaps map).map (Prod.mk map) with
      | none => scanMmapLines env lines st
      | some (map, mmaps) =>
          match writeData env { st with mmaps } (mmapPacket map) with
          | (st, true) => scanMmapLines env lines st
          | (st, false) => st

def scanMmapData (env : ListenerEnv) (st : ListenerState w) : ListenerState w :=
  scanMmapLines env (fgetsLines pathMax (env.maps st.out.length st.pid)) st

/-! ## Packets -/

/-- The header: the type, and the length of the whole packet. -/
def readHeader : Reader (BitVec 32 × BitVec 32) := do
  let type ← readDword
  let len ← readDword
  pure (type, len + 8)

/-- An option that a non-empty string replaces. -/
def updateOption (old : Option Str) (value : Str) : Option Str :=
  if value = [] then old else some value

/-- What `process_packet` did: the state, the memory from the packet on,
and whether it got as far as returning the length. -/
structure PacketResult (w : Nat) where
  state : ListenerState w
  window : List UInt8
  accepted : Bool

/-- The last lines of `process_packet`: the packet is handed over. -/
def forwardPacket (env : ListenerEnv) (st : ListenerState w) (window : List UInt8) (len : Nat) :
    PacketResult w :=
  { state := (writeData env st (window.take len)).1, window, accepted := true }

/-- SP_RTRACE_PROTO_OUTPUT_SETTINGS. The cached handshake goes first; if
that fails the packet is not handed over. -/
def processOutputSettings (env : ListenerEnv) (st : ListenerState w) (window : List UInt8)
    (len : Nat) : Option (PacketResult w) := do
  let (dir, rest) ← readString pathMax (window.drop 8)
  let (post, _) ← readString pathMax rest
  let st := { st with
    outputDir := updateOption st.outputDir (← dir), postproc := updateOption st.postproc (← post) }
  match writeData env st st.hsBuffer with
  | (st, true) => some (forwardPacket env st window len)
  | (st, false) => some { state := st, window, accepted := false }

/-- SP_RTRACE_PROTO_PROCESS_INFO. A zero time stamp is replaced in the
receive buffer. -/
def processProcessInfo (env : ListenerEnv) (st : ListenerState w) (window : List UInt8)
    (len : Nat) : Option (PacketResult w) := do
  let (pid, rest) ← readDword (window.drop 8)
  let (secs, rest) ← readDword rest
  let (_, _) ← readDword rest
  let (tvSec, tvUsec) := env.timeofday st.out.length
  let window :=
    if secs = 0 then storeAt window 12 (writeDword tvSec ++ writeDword tvUsec) else window
  some (forwardPacket env { st with pid } window len)

/-- SP_RTRACE_PROTO_NEW_LIBRARY. The packet is not handed over; the path in
it is read and not used. -/
def processNewLibrary (env : ListenerEnv) (st : ListenerState w) (window : List UInt8) :
    Option (PacketResult w) := do
  let _ ← readString pathMax (window.drop 8)
  some { state := scanMmapData env st, window, accepted := true }

/-- SP_RTRACE_PROTO_ATTACHMENT. The file is looked at for a warning only. -/
def processAttachment (env : ListenerEnv) (st : ListenerState w) (window : List UInt8)
    (len : Nat) : Option (PacketResult w) := do
  let (name, rest) ← readString pathMax (window.drop 8)
  let _ ← name
  let _ ← readString pathMax rest
  some (forwardPacket env st window len)

/-- `process_packet` behind the length check. `none` is a read past the
receive buffer or of a string that was not set. -/
def dispatchPacket (env : ListenerEnv) (st : ListenerState w) (type : BitVec 32)
    (window : List UInt8) (len : Nat) : Option (PacketResult w) :=
  if type = protoOutputSettings then processOutputSettings env st window len
  else if type = protoProcessInfo then processProcessInfo env st window len
  else if type = protoNewLibrary then processNewLibrary env st window
  else if type = protoAttachment then processAttachment env st window len
  else some (forwardPacket env st window len)

/-- An `int` passed as a `size_t`. -/
def toSizeT (w : Nat) (n : Int) : Int := if n < 0 then n + 2 ^ w else n

/-- `process_packet`. The length is compared unsigned. -/
def processPacket (env : ListenerEnv) (st : Option (ListenerState w)) (data : List UInt8)
    (n : Int) : Handled (Option (ListenerState w)) :=
  let size := toSizeT w n
  if size < 8 then { state := st, window := data, size := -1 }
  else
    match readHeader data with
    | none => { state := none, window := data, size := -1 }
    | some ((type, len), _) =>
        if size < len.toNat then { state := st, window := data, size := -1 }
        else
          match st.bind fun st => dispatchPacket env st type data len.toNat with
          | none => { state := none, window := data, size := len.toInt }
          | some r =>
              { state := some r.state, window := r.window,
                size := if r.accepted then len.toInt else -1 }

/-! ## The loop -/

/-- The loop of `process_data`. -/
def listenerLoop (w : Nat) (env : ListenerEnv) : PacketLoop (Option (ListenerState w)) where
  capacity := bufferSize * 2
  room := bufferSize
  header := 8
  handle := processPacket env
  stops := fun _ => false
  retries := true

/-- `process_data` up to its loop: `process_handshake` on the first chunk. -/
def processDataStart (st : ListenerState w) (mem chunk : List UInt8) (input : List ReadResult) :
    Option (LoopConf (Option (ListenerState w))) := do
  let mem := storeAt mem 0 chunk
  let len := (← mem[1]?).toNat + 2
  if chunk.length < len then none
  else
    some { mem, ptr := len, n := chunk.length - len,
           state := some { st with hsBuffer := mem.take len, mmaps := [] },
           input, halted := false }

end SpRtrace.Rtrace
