/-
SpRtrace.Postproc.Writer — the text log writer of
`src/rtrace-postproc/writer.c` and the sorting of backtraces of
`src/rtrace-postproc/leaks_sort.c`.

The call part of a log is a list of pieces, one for every call of a
print function, so that it can be said which call or which comment a
piece of text stands for; the log is their text. A comment is printed by
using its text as the format of `fprintf`. `fmt->comment` is the list of
the comments that are not printed yet.

`none` is a dangling pointer, a line that does not fit its buffer, a
format with conversions that have no argument, or a sort that does not
end.
-/
import SpRtrace.Common.DlistSort
import SpRtrace.Library.Formatter

namespace SpRtrace.Postproc

open SpRtrace.Lib SpRtrace.Common SpRtrace.Library

variable {w : Nat}

/-! ## Sorting backtraces -/

/-- The four comparison functions of `leaks_sort.c`. -/
inductive LeaksCompare
  | bySizeAsc
  | bySizeDesc
  | byCountAsc
  | byCountDesc
  deriving DecidableEq, Repr

structure FtraceRef where
  ref : Nat
  leakCount : BitVec 32
  leakSize : BitVec 32
  deriving DecidableEq, Repr

/-- The comparison: a difference of two `int`. -/
def LeaksCompare.compare : LeaksCompare → FtraceRef → FtraceRef → Int
  | .bySizeAsc, tref1, tref2 => (tref1.leakSize - tref2.leakSize).toInt
  | .bySizeDesc, tref1, tref2 => (tref2.leakSize - tref1.leakSize).toInt
  | .byCountAsc, tref1, tref2 => (tref1.leakCount - tref2.leakCount).toInt
  | .byCountDesc, tref1, tref2 => (tref2.leakCount - tref1.leakCount).toInt

/-- `count_leaks` on one reference node. -/
def countLeaks (rd : Rd w) (traceRef : FtraceRef) (callRef : Nat) : Option FtraceRef := do
  let c ← rd.fcall (← rd.refNode callRef)
  some { traceRef with
    leakCount := traceRef.leakCount + 1
    leakSize := traceRef.leakSize + c.data.resSize }

/-- `sort_leak`: the reference to a backtrace, with its totals. -/
def sortLeak (rd : Rd w) (trace : Nat) : Option FtraceRef := do
  let t ← rd.ftrace trace
  t.calls.foldlM (countLeaks rd) { ref := trace, leakCount := 0, leakSize := 0 }

def leaksSort (rd : Rd w) (cmp : LeaksCompare) : Option (List FtraceRef) := do
  let refs ← (htableNodes rd.ftraces).mapM (sortLeak rd)
  dlistSort cmp.compare refs

/-! ## Function calls -/

inductive Piece
  | comment (text : Str)
  | call (call : Nat) (text : Str)
  | args (text : Str)
  | summary (leakCount leakSize : BitVec 32)
  | trace (trace : Nat) (text : Str)
  deriving DecidableEq, Repr

/-- `"# allocation summary: %d block(s) with total size %d\n"`. -/
def printSummary (leakCount leakSize : BitVec 32) : Str :=
  "# allocation summary: ".toList ++ printInt leakCount ++ " block(s) with total size ".toList
    ++ printInt leakSize ++ ['\n']

def Piece.text : Piece → Str
  | .comment text => text
  | .call _ text => text
  | .args text => text
  | .summary leakCount leakSize => printSummary leakCount leakSize
  | .trace _ text => text

/-- `dlist_foreach2_in` with `comment_check_index` and `fcall_write_comment`:
print comments while their index is less than `limit`. -/
def writeComments (limit : Int) : List Comment → Option (List Piece × List Comment)
  | [] => some ([], [])
  | c :: comments =>
      if c.index.toInt < limit then do
        let text ← printFormat c.text
        let (pieces, rest) ← writeComments limit comments
        some (.comment text :: pieces, rest)
      else some ([], c :: comments)

/-- The resource record of a call, if its pointer is set. -/
def fcallResource (rd : Rd w) : Option Nat → Option (Option (Resource w))
  | none => some none
  | some res => do some (some (← rd.resource res))

/-- The call record that `sp_rtrace_print_call` reads. -/
def fcallRecord (rd : Rd w) (d : FcallData w) : Option (CallRecord w) := do
  let res ← fcallResource rd d.resType
  some { index := d.index, context := d.context, timestamp := d.timestamp, name := d.name,
         resType := .ref res, type := d.type, resSize := d.resSize, resId := d.resId }

/-- What `write_function_call` and `write_compressed_function_call` have in
common: the comments in front of the call, the call and its arguments.
`clock` is the time when a call is written. -/
def writeCall (rd : Rd w) (clock : Nat → BitVec 32) (comment : List Comment) (call : Nat) :
    Option (List Piece × List Comment) := do
  let c ← rd.fcall call
  let (pieces, comment) ← writeComments c.data.index.toInt comment
  let text ← spRtracePrintCall (clock call) (← fcallRecord rd c.data)
  let args := match c.args with
    | none => []
    | some args => [Piece.args (spRtracePrintArgs args)]
  some (pieces ++ .call call text :: args, comment)

/-- `sp_rtrace_print_trace` of a stored backtrace. -/
def writeTrace (rd : Rd w) (trace : Nat) : Option Piece := do
  some (.trace trace (← spRtracePrintTrace (← rd.ftrace trace).frames))

def writeFunctionCall (rd : Rd w) (clock : Nat → BitVec 32) (comment : List Comment) (call : Nat) :
    Option (List Piece × List Comment) := do
  let (pieces, comment) ← writeCall rd clock comment call
  match (← rd.fcall call).trace with
  | none => some (pieces, comment)
  | some trace => do some (pieces ++ [← writeTrace rd trace], comment)

def writeCompressedFunctionCall (rd : Rd w) (clock : Nat → BitVec 32) (comment : List Comment)
    (node : Nat) : Option (List Piece × List Comment) := do
  writeCall rd clock comment (← rd.refNode node)

/-- `dlist_foreach2` with a function that writes and leaves the list alone. -/
def writeEach {α : Type} (write : List Comment → α → Option (List Piece × List Comment)) :
    List Comment → List α → Option (List Piece × List Comment)
  | comment, [] => some ([], comment)
  | comment, a :: rest => do
      let (pieces, comment) ← write comment a
      let (others, comment) ← writeEach write comment rest
      some (pieces ++ others, comment)

def writeCompressedBacktrace (rd : Rd w) (clock : Nat → BitVec 32) (comment : List Comment)
    (trace : FtraceRef) : Option (List Piece × List Comment) := do
  let t ← rd.ftrace trace.ref
  let (pieces, comment) ← writeEach (writeCompressedFunctionCall rd clock) comment t.calls
  some (pieces ++ [.summary trace.leakCount trace.leakSize, ← writeTrace rd trace.ref], comment)

/-- The options of the post-processor that the writer uses. -/
structure WriterOptions where
  compress : Bool
  filterLeaks : Bool
  compareLeaks : LeaksCompare

/-- `write_trace_calls`. The last comments are those with an index below
`LONG_MAX`. -/
def writeTraceCalls (rd : Rd w) (opts : WriterOptions) (clock : Nat → BitVec 32) :
    Option (List Piece) := do
  let (pieces, comment) ←
    if opts.compress then do
      writeEach (writeCompressedBacktrace rd clock) rd.comments (← leaksSort rd opts.compareLeaks)
    else writeEach (writeFunctionCall rd clock) rd.comments rd.calls
  let (rest, _) ← writeComments (2 ^ (w - 1) - 1) comment
  some (pieces ++ rest)

/-! ## The environment -/

/-- `struct tm` as `localtime` fills it in, with the year and the month as
they are printed. -/
structure Tm where
  year : Nat
  month : Nat
  day : Nat
  hour : Nat
  minute : Nat
  second : Nat
  year_le : year ≤ 2147485547
  month_le : month ≤ 12
  day_le : day ≤ 31
  hour_lt : hour < 24
  minute_lt : minute < 60
  second_le : second ≤ 60

/-- `"%d.%d.%d %02d:%02d:%02d"`, at most 25 characters. -/
def printTm (tm : Tm) : Str :=
  printNat 10 tm.year ++ '.' :: printNat 10 tm.month ++ '.' :: printNat 10 tm.day ++ ' ' ::
    printPadded 2 tm.hour ++ ':' :: printPadded 2 tm.minute ++ ':' :: printPadded 2 tm.second

def writeModuleInfo (minfo : Minfo) : Str :=
  "## tracing module: [".toList ++ printNat 16 minfo.id.toNat ++ "] ".toList ++ minfo.name
    ++ " (".toList ++ printNat 10 minfo.vmajor.toNat ++ '.' :: printNat 10 minfo.vminor.toNat
    ++ [')', '\n']

def heapLine (label : String) (value : Str) : Str := '#' :: '#' :: label.toList ++ value ++ ['\n']

def writeHeapInformation (hinfo : Hinfo w) : List Str :=
  let addr (v : BitVec w) : Str := '0' :: 'x' :: printNat 16 v.toNat
  [heapLine " heap status information:" [],
   heapLine "   heap bottom " (addr hinfo.heapBottom),
   heapLine "   heap top " (addr hinfo.heapTop),
   heapLine "   lowest block " (addr hinfo.lowestBlock),
   heapLine "   highest block " (addr hinfo.highestBlock),
   heapLine "   non-mapped space allocated from system " (printInt hinfo.arena),
   heapLine "   count of free chunks " (printInt hinfo.ordblks),
   heapLine "   count of freed fastbin blocks " (printInt hinfo.smblks),
   heapLine "   count of mapped regions " (printInt hinfo.hblks),
   heapLine "   space in mapped regions " (printInt hinfo.hblkhd),
   heapLine "   maximum total allocated space " (printInt hinfo.usmblks),
   heapLine "   space available in freed fastbin blocks " (printInt hinfo.fsmblks),
   heapLine "   total allocated space, both normal and mmapped " (printInt hinfo.uordblks),
   heapLine "   total free space " (printInt hinfo.fordblks),
   heapLine "   space ideally releasable via malloc_trim " (printInt hinfo.keepcost)]

/-- The filter mask of the header: the permanent filters and the ones of
this run. -/
def headerFilter (filter : BitVec 32) (opts : WriterOptions) : BitVec 32 :=
  let filter := filter &&& ~~~ filterMaskCompress
  let filter := if opts.compress then filter ||| filterMaskCompress else filter
  if opts.filterLeaks then filter ||| filterMaskLeaks else filter

/-- The header of the log; `spid` and `btdepth` are the printed numbers. -/
def traceHeader (rd : Rd w) (hshake : Hshake) (pinfo : Pinfo) (tm : Tm) (opts : WriterOptions) :
    Header :=
  let header : Header
    | .version => none
    | .arch => hshake.arch
    | .timestamp => some (printTm tm)
    | .process => pinfo.name
    | .pid => some (printInt pinfo.pid)
    | .filter => none
    | .backtraceDepth =>
        if pinfo.backtraceDepth = BitVec.allOnes 32 then none
        else some (printInt pinfo.backtraceDepth)
    | .origin => pinfo.traceOrigin
  headerSetFilter header (headerFilter rd.filter opts)

/-- `write_trace_environment`, line by line. `spid` has room for seven
characters; the other two buffers fit. -/
def writeTraceEnvironment (rd : Rd w) (localtime : Int → Tm) (opts : WriterOptions) :
    Option (List Str) := do
  let pinfo ← rd.pinfo
  let hshake ← rd.hshake
  let _ ← buffered 7 (printInt pinfo.pid)
  let header ← spRtracePrintHeader [] (traceHeader rd hshake pinfo (localtime pinfo.tvSec) opts)
  let hinfo := match rd.hinfo with
    | none => []
    | some hinfo => writeHeapInformation hinfo
  let resources ← rd.resources.mapM fun res => do spRtracePrintResource (← rd.resource res)
  some (header :: rd.files.map spRtracePrintAttachment ++ hinfo ++ rd.minfo.map writeModuleInfo
    ++ rd.contexts.map spRtracePrintContext ++ resources ++ rd.mmaps.map spRtracePrintMmap)

/-- The log that `write_trace_environment` and `write_trace_calls` write. -/
def writeTraceLog (rd : Rd w) (localtime : Int → Tm) (clock : Nat → BitVec 32)
    (opts : WriterOptions) : Option Str := do
  let environment ← writeTraceEnvironment rd localtime opts
  let calls ← writeTraceCalls rd opts clock
  some (environment.flatten ++ (calls.map Piece.text).flatten)

end SpRtrace.Postproc
