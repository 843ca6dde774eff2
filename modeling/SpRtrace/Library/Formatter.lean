/-
SpRtrace.Library.Formatter — the text log records of
`src/library/sp_rtrace_formatter.c`, and the filter field of the header
from `src/common/header.c`.

A record is the text that its function writes to the log. Most functions
put the line together in a buffer on the stack; `none` is a line that
does not fit there. The ones that print straight to the file cannot fail.
-/
import SpRtrace.Lib.Stdio
import SpRtrace.Common.RtraceData

namespace SpRtrace.Library

open SpRtrace.Lib SpRtrace.Common

variable {w : Nat}

/-- A text that has to fit a buffer. -/
def buffered (size : Nat) (text : Str) : Option Str :=
  if text.length ≤ size then some text else none

/-! ## The header -/

/-- `sp_rtrace_header_index_t`. -/
inductive HeaderField
  | version
  | arch
  | timestamp
  | process
  | pid
  | filter
  | backtraceDepth
  | origin
  deriving DecidableEq, Repr

/-- `header_fields`. -/
def HeaderField.name : HeaderField → Str
  | .version => "version".toList
  | .arch => "arch".toList
  | .timestamp => "timestamp".toList
  | .process => "process".toList
  | .pid => "pid".toList
  | .filter => "filter".toList
  | .backtraceDepth => "backtrace depth".toList
  | .origin => "origin".toList

/-- The fields in the order of their numbers. -/
def HeaderField.all : List HeaderField :=
  [.version, .arch, .timestamp, .process, .pid, .filter, .backtraceDepth, .origin]

/-- `sp_rtrace_header_t`; an unset field is NULL. -/
abbrev Header := HeaderField → Option Str

/-- `SP_RTRACE_PROTO_VERSION_MAJOR` and `SP_RTRACE_PROTO_VERSION_MINOR`. -/
def protoVersionText : Str := printNat 10 2 ++ '.' :: printNat 10 0

/-- The value that is printed for a field: the version is always the
library's own, a missing timestamp is the current time. -/
def headerValue (now : Str) (header : Header) : HeaderField → Option Str
  | .version => some protoVersionText
  | .timestamp => some ((header .timestamp).getD now)
  | i => header i

/-- `%s=%s, `. -/
def printHeaderField (i : HeaderField) (value : Str) : Str := i.name ++ '=' :: value ++ [',', ' ']

/-- `sp_rtrace_print_header`. The buffer also takes the final NUL. -/
def spRtracePrintHeader (now : Str) (header : Header) : Option Str :=
  buffered (pathMax - 1)
    (HeaderField.all.flatMap (fun i => ((headerValue now header i).map (printHeaderField i)).getD [])
      ++ ['\n'])

/-- `filter_tags`, with the bit of each. -/
def filterTags : List (Nat × Str) :=
  [(0, "leaks".toList), (1, "compress".toList), (2, "resolve".toList)]

def filterMaskLeaks : BitVec 32 := 1

def filterMaskCompress : BitVec 32 := 2

/-- `header_set_filter`: the tags of the set bits, between bars. -/
def headerSetFilter (header : Header) (filterMask : BitVec 32) : Header :=
  Function.update header .filter
    (if filterMask = 0 then none
     else some (List.intercalate ['|']
      ((filterTags.filter fun tag => filterMask.getLsbD tag.1).map Prod.snd)))

/-- `strstr(text, pattern) != NULL`. -/
def strstr (text pattern : Str) : Bool := text.tails.any (pattern.isPrefixOf ·)

def headerGetFilter (header : Header) : BitVec 32 :=
  match header .filter with
  | none => 0
  | some text => filterTags.foldl
      (fun mask tag => if strstr text tag.2 then mask ||| (1 : BitVec 32) <<< tag.1 else mask) 0

/-! ## Function calls -/

/-- `res_type` with its flag: unset, the record of the resource (or NULL),
or the name of its type. -/
inductive ResField (w : Nat)
  | undef
  | ref (res : Option (Resource w))
  | name (type : Str)
  deriving DecidableEq, Repr

/-- `sp_rtrace_fcall_t` as the formatter and the parser use it. -/
structure CallRecord (w : Nat) where
  index : BitVec 32
  context : BitVec 32
  timestamp : BitVec 32
  name : Str
  resType : ResField w
  type : BitVec 32
  resSize : BitVec 32
  resId : BitVec w
  deriving DecidableEq, Repr

/-- The resource type name to print, if any: a hidden resource has none. -/
def ResField.resName : ResField w → Option Str
  | .undef => none
  | .ref none => none
  | .ref (some res) => if res.hide then none else some res.type
  | .name type => some type

/-- `[%02d:%02d:%02d.%03d] ` of a time in milliseconds. -/
def printTimestamp (timestamp : Nat) : Str :=
  '[' :: printPadded 2 (timestamp / 3600000) ++ ':' :: printPadded 2 (timestamp % 3600000 / 60000)
    ++ ':' :: printPadded 2 (timestamp % 3600000 % 60000 / 1000)
    ++ '.' :: printPadded 3 (timestamp % 3600000 % 60000 % 1000) ++ [']', ' ']

def printContextMask (context : BitVec 32) : Str :=
  if context = 0 then [] else '@' :: printNat 16 context.toNat ++ [' ']

def printCallTime (timestamp : BitVec 32) : Str :=
  if timestamp = 0 then [] else printTimestamp timestamp.toNat

def printResName : Option Str → Str
  | none => []
  | some name => '<' :: name ++ ['>']

/-- The arguments of the call: size and result of an allocation, or what
is released. -/
def printCallValue (type resSize : BitVec 32) (resId : BitVec w) : Str :=
  if type = ftypeAlloc then
    '(' :: printInt resSize ++ [')', ' ', '=', ' ', '0', 'x'] ++ printNat 16 resId.toNat
  else '(' :: '0' :: 'x' :: printNat 16 resId.toNat ++ [')']

/-- `sp_rtrace_print_call`. `now` is the clock, for a call whose timestamp
is all ones. -/
def spRtracePrintCall (now : BitVec 32) (call : CallRecord w) : Option Str :=
  let timestamp := if call.timestamp = BitVec.allOnes 32 then now else call.timestamp
  buffered 2048
    (printInt call.index ++ '.' :: ' ' :: printContextMask call.context ++ printCallTime timestamp
      ++ call.name ++ printResName call.resType.resName
      ++ printCallValue call.type call.resSize call.resId ++ ['\n'])

/-! ## The other records -/

def spRtracePrintMmap (mmap : Mmap w) : Str :=
  ':' :: ' ' :: mmap.moduleName ++ [' ', '=', '>', ' ', '0', 'x'] ++ printNat 16 mmap.fromAddr.toNat
    ++ ['-', '0', 'x'] ++ printNat 16 mmap.toAddr.toNat ++ ['\n']

def printFrame (frame : Frame w) : Str :=
  '\t' :: '0' :: 'x' :: printNat 16 frame.addr.toNat
    ++ (match frame.name with | none => [] | some name => ' ' :: name) ++ ['\n']

/-- `sp_rtrace_print_trace`: the frames and an empty line. -/
def spRtracePrintTrace (frames : List (Frame w)) : Option Str := do
  let lines ← frames.mapM fun frame => buffered pathMax (printFrame frame)
  some (lines.flatten ++ ['\n'])

def spRtracePrintContext (context : Context w) : Str :=
  '@' :: ' ' :: printNat 16 (context.id.setWidth 32).toNat ++ [' ', ':', ' '] ++ context.name ++ ['\n']

/-- `sp_rtrace_resource_flags_text`. -/
def refcountText : Str := "refcount".toList

/-- `sp_rtrace_print_resource`. The shift is defined for the ids 1 to 32.
All known flags are printed when any flag is set; there is one. -/
def spRtracePrintResource (resource : Resource w) : Option Str :=
  let id := (resource.id.setWidth 32).toInt
  if 1 ≤ id ∧ id ≤ 32 then
    buffered (pathMax - 1)
      ('<' :: printNat 16 ((1 : BitVec 32) <<< (id - 1).toNat).toNat ++ ['>', ' ', ':', ' ']
        ++ resource.type ++ [' ', '('] ++ resource.desc ++ [')']
        ++ (if resource.flags = 0 then [] else ' ' :: '[' :: refcountText ++ [']']) ++ ['\n'])
  else none

/-- `sp_rtrace_print_args`. -/
def printArg (arg : Farg) : Str :=
  '\t' :: '$' :: arg.name ++ [' ', '=', ' '] ++ arg.value ++ ['\n']

def spRtracePrintArgs (args : List Farg) : Str := args.flatMap printArg

def spRtracePrintAttachment (file : Attachment) : Str :=
  '&' :: ' ' :: file.name ++ [' ', ':', ' '] ++ file.path ++ ['\n']

end SpRtrace.Library
