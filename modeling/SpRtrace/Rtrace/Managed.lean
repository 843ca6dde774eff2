/-
SpRtrace.Rtrace.Managed — `is_process_managed` of `src/rtrace/sp_rtrace.c`.

The environment of a process is a block of strings with a NUL behind each.
It is read in chunks, each of which is what one call of `read` returns. A
`none` is a load or a store outside the buffer.
-/
import SpRtrace.Lib.Area
import SpRtrace.Rtrace.Listener
import SpRtrace.Postproc.ParseText

namespace SpRtrace.Rtrace

open SpRtrace.Lib SpRtrace.Common SpRtrace.Library SpRtrace.Postproc

variable {w : Nat}

/-- `rtrace_env_opt[OPT_MANAGE_PREPROC]`. -/
def manageName : Str := "SP_RTRACE_MANAGE_PREPROC".toList

/-- What is behind the number that `atoi` reads. -/
def behindNumber (text : Str) : Str := (scanSign (skipSpace text)).2.dropWhile (isDigitOf 10)

/-- `atoi` of the buffer from `pos` on; it reads one character more than
the number has. -/
def atoiAt (w : Nat) (buffer : List Char) (pos : Nat) : Option (BitVec 32) :=
  let text := buffer.drop pos
  if behindNumber text = [] then none else some (atoi w text)

/-- How the inner loop ends: `start` is returned as a number, or it points
at `count` bytes that are left over. -/
inductive Scan
  | answer (value : BitVec 32)
  | rest (start count : Nat)
  deriving DecidableEq

/-- The inner loop; every round takes at least one byte off `count`. -/
def scanEnviron (w : Nat) (buffer : List Char) : Nat → Nat → Nat → Option Scan
  | 0, start, count => some (.rest start count)
  | fuel + 1, start, count =>
      if count < manageName.length + 3 then some (.rest start count)
      else if slice buffer start manageName.length = manageName then
        (atoiAt w buffer (start + (manageName.length + 1))).map .answer
      else
        match (slice buffer start count).idxOf? '\x00' with
        | none => some (.rest start count)
        | some i => scanEnviron w buffer fuel (start + (i + 1)) (count - (i + 1))

/-- The outer loop, where `carried` bytes have been moved to the front of
the buffer. Only the bytes that were read are counted. -/
def readEnviron (w : Nat) : List Str → List Char → Nat → Option Bool
  | [], _, _ => some false
  | chunk :: chunks, buffer, carried =>
      if carried = buffer.length then some false
      else do
        let buffer ← storeCells buffer carried chunk
        match ← scanEnviron w buffer chunk.length 0 chunk.length with
        | .answer value => some (value ≠ 0)
        | .rest start count => do
            let buffer ← copyCells buffer 0 start count
            readEnviron w chunks buffer count

/-- `is_process_managed`; the buffer has the path of the file in it, and
`none` is a file that cannot be opened. -/
def isProcessManaged (w : Nat) (buffer : List Char) : Option (List Str) → Option Bool
  | none => some false
  | some chunks => readEnviron w chunks buffer 0

end SpRtrace.Rtrace
