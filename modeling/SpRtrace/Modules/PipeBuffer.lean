/-
SpRtrace.Modules.PipeBuffer — the local buffer of the tracing module in
front of the pre-processor pipe, `src/modules/sp_rtrace_main.c`.

A group of packets is written between `pipe_buffer_lock` and
`pipe_buffer_unlock`, behind what the buffer holds. Unlocking keeps the
group in the buffer, or flushes the old content and copies the group to
the front. The buffer is twice as large as what is sent at once, and
nothing compares a group with the room that is left.

A state keeps all that was passed to `write`. `none` is a step that does
not come to its end: a store outside the buffer, or the spinning on a
lock that is taken.
-/
import SpRtrace.Lib.Area
import SpRtrace.Modules.Main

namespace SpRtrace.Modules

open SpRtrace.Lib SpRtrace.Common

variable {w : Nat}

/-! ## The buffer -/

def bufferSize : Nat := 4096

/-- The static data of the buffer, with `sp_rtrace_options->enable`.
`head` is `pipe_buffer_head - pipe_buffer`. -/
structure PipeBuffer where
  pipeBuffer : List UInt8
  head : Nat
  locked : Bool
  enable : Bool
  sent : List UInt8

def PipeBuffer.content (p : PipeBuffer) : List UInt8 := slice p.pipeBuffer 0 p.head

/-- `pipe_buffer_flush`. Tracing is disabled if `write` fails (`ok` is
false), but the buffer is emptied all the same. -/
def pipeBufferFlush (ok : Bool) (p : PipeBuffer) : PipeBuffer :=
  { p with sent := p.sent ++ p.content, enable := p.enable && ok, head := 0 }

def pipeBufferLock (p : PipeBuffer) : Option (PipeBuffer × Nat) :=
  if p.locked then none else some ({ p with locked := true }, p.head)

def pipeBufferUnlock (buffering ok : Bool) (ptr size : Nat) (p : PipeBuffer) : Option PipeBuffer :=
  if ptr ≠ p.head then some p
  else if bufferSize < ptr + size then do
    let p := pipeBufferFlush ok p
    let mem ← copyCells p.pipeBuffer p.head ptr size
    some { p with pipeBuffer := mem, head := size, locked := false }
  else
    let p := { p with head := p.head + size }
    let p := if buffering then p else pipeBufferFlush ok p
    some { p with locked := false }

def pipeBufferReset (p : PipeBuffer) : PipeBuffer := { p with head := 0 }

/-- The beginning of a group: `pipe_buffer_lock` and the writes of some
bytes. -/
def beginGroup (bytes : List UInt8) (p : PipeBuffer) : Option (PipeBuffer × Nat) := do
  let (p, ptr) ← pipeBufferLock p
  let mem ← storeCells p.pipeBuffer ptr bytes
  some ({ p with pipeBuffer := mem }, ptr)

/-- PACKET_INIT, the writes of a group and PACKET_FINISH. -/
def putGroup (buffering ok : Bool) (bytes : List UInt8) (p : PipeBuffer) : Option PipeBuffer := do
  let (p, ptr) ← beginGroup bytes p
  pipeBufferUnlock buffering ok ptr bytes.length p

inductive PipeOp
  | group (bytes : List UInt8)
  | flush

/-- One operation, with a complete `write`. -/
def PipeOp.step (buffering : Bool) (p : PipeBuffer) : PipeOp → Option PipeBuffer
  | .group bytes => putGroup buffering true bytes p
  | .flush => some (pipeBufferFlush true p)

def pipeRun (buffering : Bool) (p : PipeBuffer) (ops : List PipeOp) : Option PipeBuffer :=
  ops.foldlM (PipeOp.step buffering) p

/-- The groups of a sequence of operations. -/
def PipeOp.bytes : PipeOp → List UInt8
  | .group bytes => bytes
  | .flush => []

/-! ## The writing functions -/

/-- The calls that write into the buffer while the process is traced. -/
inductive TracerCall (w : Nat)
  | functionCall (c : ModuleFcall w) (args : Option (List ModuleFarg)) (frames : List (BitVec w))
  | attachment (a : ModuleAttachment)
  | contextRegistry (c : ModuleContext w)
  | newLibrary (library : Option Str)

/-- The bytes of the packets; nothing is written if tracing is disabled
and the function asks. -/
def TracerCall.group (enable : Bool) : TracerCall w → Option (List UInt8)
  | .functionCall c args frames =>
      if enable then some (spRtraceWriteFunctionCall c args frames) else none
  | .attachment a => some (protoPacket protoAttachment (spRtraceWriteAttachment a))
  | .contextRegistry c =>
      if enable then some (protoPacket protoContextRegistry (spRtraceWriteContextRegistry c))
      else none
  | .newLibrary library => some (protoPacket protoNewLibrary (spRtraceWriteNewLibrary library))

/-- One call; `ok` tells whether a `write` it makes succeeds. -/
def tracerStep (buffering : Bool) (p : PipeBuffer) (call : TracerCall w × Bool) :
    Option PipeBuffer :=
  match call.1.group p.enable with
  | some bytes => putGroup buffering call.2 bytes p
  | none => some p

def tracerRun (buffering : Bool) (p : PipeBuffer) (calls : List (TracerCall w × Bool)) :
    Option PipeBuffer :=
  calls.foldlM (tracerStep buffering) p

def fargSize (a : ModuleFarg) : Nat := stringSize (some a.name) + stringSize a.value

/-- The size of the packets of a call, from the sizes of its strings, its
arguments and its backtrace. -/
def TracerCall.size (enable : Bool) : TracerCall w → Nat
  | .functionCall c args frames =>
      if enable then
        8 + (20 + stringSize c.name + w / 8) +
          (match args with
            | some args => 8 + (4 + (args.map fargSize).sum)
            | none => 0) +
          (8 + (4 + frames.length * (w / 8)))
      else 0
  | .attachment a => 8 + (stringSize a.name + stringSize (some a.path))
  | .contextRegistry c => if enable then 8 + (4 + stringSize c.name) else 0
  | .newLibrary library => 8 + stringSize library

end SpRtrace.Modules
