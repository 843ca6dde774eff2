/-
SpRtrace.Postproc.ParseText — the text log reader of
`src/rtrace-postproc/parse_text.c`.

The reader goes through the log line by line. What it has read of the
current group of calls is kept until a later line says that the group is
complete: `lastCalls` are the reference nodes of the calls that have no
backtrace yet, `bt` the frames of the backtrace being read and `args` the
arguments of the last call.

The environment the reader depends on is `mktime` and the content of
freshly allocated memory: a context record is allocated and linked, but
nothing is stored in it. `junk` is what it then contains.
-/
import SpRtrace.Common.DlistSort
import SpRtrace.Library.Parser

namespace SpRtrace.Postproc

open SpRtrace.Lib SpRtrace.Common SpRtrace.Library

variable {w : Nat}

/-! ## The header -/

def atoi (w : Nat) (text : Str) : BitVec 32 :=
  match scanConv (w := w) .dec text with
  | .ok (.int v) _ => v
  | _ => 0

/-- `"%d.%d"` of the version. -/
def parseVersion (w : Nat) (text : Str) : Option (BitVec 8 × BitVec 8) :=
  match (sscanf w [.conv .dec, .lit '.', .conv .dec] text).map ScanResult.values with
  | some [.int vmajor, .int vminor] => some (vmajor.setWidth 8, vminor.setWidth 8)
  | _ => none

/-- `"%d.%d.%d %d:%d:%d"` of the time stamp. -/
def parseTm (w : Nat) (text : Str) : Option (List (BitVec 32)) :=
  match (sscanf w [.conv .dec, .lit '.', .conv .dec, .lit '.', .conv .dec, .space, .conv .dec,
      .lit ':', .conv .dec, .lit ':', .conv .dec] text).map ScanResult.values with
  | some [.int year, .int mon, .int mday, .int hour, .int min, .int sec] =>
      some [year - 1900, mon - 1, mday, hour, min, sec]
  | _ => none

def parseHeader (mktime : List (BitVec 32) → Int) (rd : Rd w) (line : Str) : Option (Rd w) := do
  let header ← spRtraceParserParseHeader w line
  let version := ((header .version).bind (parseVersion w)).getD (0, 0)
  let hshake : Hshake :=
    { vmajor := version.1, vminor := version.2, arch := header .arch, endianness := 0,
      pointerSize := 0 }
  let pinfo : Pinfo :=
    { pid := ((header .pid).map (atoi w)).getD 0
      backtraceDepth := ((header .backtraceDepth).map (atoi w)).getD (BitVec.allOnes 32)
      name := header .process
      tvSec := (((header .timestamp).bind (parseTm w)).map mktime).getD 0
      tvUsec := 0
      traceOrigin := header .origin }
  some { rd with
    hshake := some hshake, pinfo := some pinfo
    filter := if (header .filter).isSome then headerGetFilter header else rd.filter }

/-! ## Groups of calls -/

/-- The variables of `read_text_data`. -/
structure TextState (w : Nat) where
  rd : Rd w
  lastCalls : List Nat
  bt : List (Frame w)
  args : List Farg
  commentIndex : BitVec 32

/-- `store_backtrace`: a new backtrace for the calls of `last_calls`. -/
def storeTextBacktrace (st : TextState w) (bt : List (Frame w)) : Option (TextState w) := do
  let (rd, trace) := rdNewFtrace st.rd bt
  some { st with rd := ← rdFcallsSetFtrace rd st.lastCalls trace, lastCalls := [] }

/-- `store_call_arguments` for the last call of `last_calls`. -/
def storeCallArguments (st : TextState w) : Option (TextState w) := do
  let call ← st.rd.refNode (← st.lastCalls.getLast?)
  let c ← st.rd.fcall call
  some { st with
    rd := { st.rd with
      fcall := Function.update st.rd.fcall call (some { c with args := some st.args }) } }

/-- `if (args_index) …`. -/
def flushArgs (st : TextState w) : Option (TextState w) :=
  if st.args = [] then some st else do some { ← storeCallArguments st with args := [] }

/-- `if ((bt_index || *line == '\n') && dlist_first(&last_calls)) …`. -/
def flushBacktrace (st : TextState w) (line : Str) : Option (TextState w) :=
  if (st.bt ≠ [] ∨ line.head? = some '\n') ∧ st.lastCalls ≠ [] then do
    some { ← storeTextBacktrace st st.bt with bt := [] }
  else some st

/-- `compare_resource` against a type name. -/
def compareResource (rd : Rd w) (type : Str) (res : Nat) : Option Int := do
  some (if (← rd.resource res).type = type then 0 else 1)

/-- The resource record of a call: looked up by the name of its type, or
the first one if the line has no type. -/
def callResource (rd : Rd w) : ResField w → Option (Option Nat)
  | .name type => dlistFind (compareResource rd type) rd.resources
  | _ => some rd.resources.head?

/-- A call record: a new call, and a reference to it in `last_calls`. -/
def addTextCall (st : TextState w) (call : CallRecord w) : Option (TextState w) := do
  let resType ← callResource st.rd call.resType
  let (rd, c) := rdAddFcall st.rd
    { index := call.index, type := call.type, context := call.context, timestamp := call.timestamp,
      name := call.name, resType, resId := call.resId, resSize := call.resSize }
  let (rd, ref) := rdNewRef rd c
  some { st with rd, lastCalls := dlistAdd st.lastCalls ref, commentIndex := call.index }

/-- No backtrace came for the last calls: they get an empty one. -/
def storeEmptyBacktrace (st : TextState w) : Option (TextState w) :=
  match st.lastCalls with
  | [] => some st
  | ref :: _ => do
      let c ← st.rd.fcall (← st.rd.refNode ref)
      if c.trace = none then storeTextBacktrace st [] else some st

/-- A resource record is added unless one of its type is there. -/
def addTextResource (rd : Rd w) (res : Resource w) : Option (Rd w) := do
  match ← dlistFind (compareResource rd res.type) rd.resources with
  | none => some (rdAddResource rd res).1
  | some _ => some rd

/-- The records that are stored in a list of their own. -/
def addTextRecord (junk : Nat → Context w) (st : TextState w) (line : Str) :
    Record w → Option (TextState w)
  | .mmap mmap => some { st with rd := { st.rd with mmaps := dlistAdd st.rd.mmaps mmap } }
  | .context _ =>
      -- `rec.context` is not copied into the new node
      some { st with
        rd := { st.rd with contexts := dlistAdd st.rd.contexts (junk st.rd.contexts.length) } }
  | .resource res => do some { st with rd := ← addTextResource st.rd res }
  | .attachment file => some { st with rd := { st.rd with files := dlistAdd st.rd.files file } }
  | .comment =>
      some { st with
        rd := { st.rd with
          comments := dlistAdd st.rd.comments { index := st.commentIndex, text := line } } }
  | _ => some st

/-! ## Lines -/

/-- The rest of a turn once frames and arguments are dealt with. -/
def readTextRecord (junk : Nat → Context w) (st : TextState w) (line : Str) (rec : Record w) :
    Option (TextState w) := do
  let st ← flushArgs st
  let st ← flushBacktrace st line
  if line.head? = some '\n' then some st
  else match rec with
    | .call call => addTextCall st call
    | rec => do addTextRecord junk (← storeEmptyBacktrace st) line rec

/-- One turn of the loop of `read_text_data`. Frames and arguments without
a call in front of them are dropped. -/
def readTextLine (junk : Nat → Context w) (st : TextState w) (line : Str) :
    Option (TextState w) :=
  if ['#', ' '].isPrefixOf line then some st
  else do
    match ← spRtraceParserParseRecord recordAll line with
    | .trace frame =>
        some (if st.lastCalls = [] then st else { st with bt := st.bt ++ [frame] })
    | .arg arg =>
        some (if st.lastCalls = [] then st else { st with args := st.args ++ [arg] })
    | rec => readTextRecord junk st line rec

/-- `compare_calls`: the differences are cut down to `int`. -/
def compareCalls (call1 call2 : Nat × FcallData w) : Int :=
  if call1.2.timestamp = call2.2.timestamp then (call1.2.index - call2.2.index).toInt
  else (call1.2.timestamp - call2.2.timestamp).toInt

/-- `dlist_sort(&rd->calls, compare_calls)`. -/
def sortCalls (rd : Rd w) : Option (Rd w) := do
  let nodes ← rd.calls.mapM fun call => do some (call, (← rd.fcall call).data)
  let sorted ← dlistSort compareCalls nodes
  some { rd with calls := sorted.map Prod.fst }

/-- The end of `read_text_data`. -/
def finishText (st : TextState w) : Option (Rd w) := do
  let st ← flushArgs st
  let st ← if st.lastCalls = [] then some st else storeTextBacktrace st st.bt
  sortCalls st.rd

/-- `read_text_data`, from the lines as C strings. -/
def readTextLines (mktime : List (BitVec 32) → Int) (junk : Nat → Context w) (rd : Rd w) :
    List Str → Option (Rd w)
  | [] => some rd
  | header :: lines => do
      let rd ← parseHeader mktime rd header
      let st ← lines.foldlM (readTextLine junk)
        { rd, lastCalls := [], bt := [], args := [], commentIndex := 0 }
      finishText st

/-- `read_text_data`, for the text of the whole log. -/
def readTextData (mktime : List (BitVec 32) → Int) (junk : Nat → Context w) (rd : Rd w)
    (text : Str) : Option (Rd w) :=
  readTextLines mktime junk rd (fgetsLines 4096 text)

/-- `read_text_data` for the bytes of any file: a line is a buffer that
`fgets` has filled, and is read as a C string. -/
def readTextFile (mktime : List (BitVec 32) → Int) (junk : Nat → Context w) (rd : Rd w)
    (file : Str) : Option (Rd w) :=
  readTextLines mktime junk rd ((fgetsLines 4096 file).map bufferText)

end SpRtrace.Postproc
