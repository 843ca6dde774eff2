/-
SpRtrace.Library.Parser — the text log parser of
`src/library/sp_rtrace_parser.c`.

Every record kind has a scanner of its own, built on `sscanf` and string
searches; `spRtraceParserParseRecord` tries them in the order of the
source. A scanner that writes behind the end of one of its fixed buffers,
or follows a NULL pointer, is a `fault`; the formats put no bound on the
strings they read.
-/
import SpRtrace.Library.Formatter

namespace SpRtrace.Library

open SpRtrace.Lib SpRtrace.Common

variable {w : Nat}

/-! ## Results -/

/-- `PARSE_FAIL`, `PARSE_IGNORE` and `PARSE_OK` with the data, and a
memory error. -/
inductive ParseResult (α : Type)
  | fault
  | fail
  | ignore
  | ok (data : α)
  deriving DecidableEq, Repr

def ParseResult.bind {α β : Type} (r : ParseResult α) (f : α → ParseResult β) : ParseResult β :=
  match r with
  | .fault => .fault
  | .fail => .fail
  | .ignore => .ignore
  | .ok data => f data

instance : Monad ParseResult where
  pure := .ok
  bind := .bind

/-- `sscanf` inside a scanner: the values that were assigned. -/
def scan (w : Nat) (fmt : List Directive) (text : Str) : ParseResult (List (ScanArg w)) :=
  match sscanf w fmt text with
  | none => .fault
  | some r => .ok r.values

/-- A pointer that has to be set for the scanner to go on. -/
def found {α : Type} : Option α → ParseResult α
  | none => .fail
  | some a => .ok a

/-- A pointer that is followed without being checked. -/
def followed {α : Type} : Option α → ParseResult α
  | none => .fault
  | some a => .ok a

/-! ## String searches -/

def strchr (text : Str) (c : Char) : Option Str :=
  match text.dropWhile (· ≠ c) with
  | [] => none
  | rest => some rest

def behindBlank (text : Str) : Option Str := (strchr text ' ').map List.tail

/-- `strrchr`: the text in front of the last `c`, and from there on. -/
def strrchr (text : Str) (c : Char) : Option (Str × Str) :=
  match text.reverse.dropWhile (· ≠ c) with
  | [] => none
  | _ :: before => some (before.reverse, c :: (text.reverse.takeWhile (· ≠ c)).reverse)

/-! ## Record types -/

/-- The bits of `SP_RTRACE_RECORD_…`. -/
def recordMmap : BitVec 32 := 1
def recordComment : BitVec 32 := 2
def recordCall : BitVec 32 := 4
def recordTrace : BitVec 32 := 8
def recordArg : BitVec 32 := 16
def recordContext : BitVec 32 := 32
def recordResource : BitVec 32 := 64
def recordAttachment : BitVec 32 := 128
def recordAll : BitVec 32 := 0xffff

/-- `if (!(parse_record_mask & type)) return PARSE_IGNORE`. -/
def checkMask (mask type : BitVec 32) : ParseResult Unit :=
  if mask &&& type = 0 then .ignore else .ok ()

/-! ## Backtraces -/

/-- `"\t0x%lx %[^\n]"`. -/
def backtraceFormat : List Directive :=
  [.space, .lit '0', .lit 'x', .conv .hexLong, .space, .conv (.except ['\n'] pathMax)]

def parseBacktrace (mask : BitVec 32) (line : Str) : ParseResult (Frame w) :=
  if line.head? ≠ some '\t' then .fail
  else do
    match ← scan w backtraceFormat line with
    | .long addr :: rest =>
        checkMask mask recordTrace
        .ok { addr, name := match rest with | [.text name] => some name | _ => none }
    | _ => .fail

/-! ## Function calls -/

/-- The index, up to the blank behind it. -/
def scanIndex (w : Nat) (line : Str) : ParseResult (BitVec 32 × Str) := do
  match ← scan w [.conv .dec, .conv .char] line with
  | [.int idx, .char delim] =>
      if delim = '.' then do .ok (idx, ← found (behindBlank line)) else .fail
  | _ => .fail

/-- The optional context mask. Where it was read `ptr` starts with the @
that the source looks for first. -/
def scanContextMask (w : Nat) (ptr : Str) : ParseResult (BitVec 32 × Str) := do
  match ← scan w [.lit '@', .conv .hex] ptr with
  | [.int context] => .ok (context, ← found (behindBlank ptr))
  | _ => .ok (0, ptr)

/-- `"[%d:%d:%d.%d]"`. -/
def timestampFormat : List Directive :=
  [.lit '[', .conv .dec, .lit ':', .conv .dec, .lit ':', .conv .dec, .lit '.', .conv .dec, .lit ']']

def scanTimestamp (w : Nat) (ptr : Str) : ParseResult (BitVec 32 × Str) := do
  match ← scan w timestampFormat ptr with
  | [.int hours, .int minutes, .int seconds, .int mseconds] =>
      .ok (hours * 3600000 + minutes * 60000 + seconds * 1000 + mseconds, ← found (behindBlank ptr))
  | _ => .ok (0, ptr)

/-- The function name: up to the last parenthesis, or up to the last angle
bracket if the parenthesis comes behind a closing one. In front of `ptr`
there is a blank. -/
def scanName (ptr : Str) : ParseResult (Str × Str) := do
  let (before, rest) ← found (strrchr ptr '(')
  let (name, rest) ←
    if before.getLast? = some '>' then followed (strrchr ptr '<') else .ok (before, rest)
  if name.length < 512 then .ok (name, rest) else .fault

def scanResType (w : Nat) (ptr : Str) : ParseResult (ResField w × Str) :=
  if ptr.head? = some '<' then do
    match ← scan w [.lit '<', .conv (.except ['>'] 512), .lit '>'] ptr with
    | [.text type] => .ok (.name type, ← found (strchr ptr '('))
    | _ => .fail
  else .ok (.undef, ptr)

/-- `"(%d) = 0x%lx"`. -/
def allocFormat : List Directive :=
  [.lit '(', .conv .dec, .lit ')', .space, .lit '=', .space, .lit '0', .lit 'x', .conv .hexLong]

/-- `"(0x%lx)"`. -/
def freeFormat : List Directive := [.lit '(', .lit '0', .lit 'x', .conv .hexLong, .lit ')']

/-- The kind of the call with its size and its resource id. -/
def scanCallValue (w : Nat) (ptr : Str) : ParseResult (BitVec 32 × BitVec 32 × BitVec w) := do
  match ← scan w allocFormat ptr with
  | [.int resSize, .long resId] => .ok (ftypeAlloc, resSize, resId)
  | _ =>
      match ← scan w freeFormat ptr with
      | [.long resId] => .ok (ftypeFree, 0, resId)
      | _ => .fail

def parseFunctionCall (mask : BitVec 32) (line : Str) : ParseResult (CallRecord w) := do
  let (index, ptr) ← scanIndex w line
  let (context, ptr) ← scanContextMask w ptr
  let (timestamp, ptr) ← scanTimestamp w ptr
  let (name, ptr) ← scanName ptr
  let (resType, ptr) ← scanResType w ptr
  let (type, resSize, resId) ← scanCallValue w ptr
  checkMask mask recordCall
  .ok { index, context, timestamp, name, resType, type, resSize, resId }

/-! ## The other records -/

/-- `"\t$%s = %s"`. -/
def argumentsFormat : List Directive :=
  [.space, .lit '$', .conv (.word 128), .space, .lit '=', .space, .conv (.word pathMax)]

def parseArguments (w : Nat) (mask : BitVec 32) (line : Str) : ParseResult Farg :=
  if line.head? ≠ some '\t' then .fail
  else do
    match ← scan w argumentsFormat line with
    | [.text name, .text value] =>
        checkMask mask recordArg
        .ok { name, value }
    | _ => .fail

/-- `": %s => 0x%lx-0x%lx"`. -/
def mmapFormat : List Directive :=
  [.lit ':', .space, .conv (.word pathMax), .space, .lit '=', .lit '>', .space, .lit '0', .lit 'x',
   .conv .hexLong, .lit '-', .lit '0', .lit 'x', .conv .hexLong]

def parseMemoryMapping (mask : BitVec 32) (line : Str) : ParseResult (Mmap w) := do
  match ← scan w mmapFormat line with
  | [.text moduleName, .long fromAddr, .long toAddr] =>
      checkMask mask recordMmap
      .ok { fromAddr, toAddr, moduleName }
  | _ => .fail

/-- `"@ %x : %[^\n]"`. -/
def contextFormat : List Directive :=
  [.lit '@', .space, .conv .hex, .space, .lit ':', .space, .conv (.except ['\n'] 512)]

def parseContextRegistry (mask : BitVec 32) (line : Str) : ParseResult (Context w) := do
  match ← scan w contextFormat line with
  | [.int id, .text name] =>
      checkMask mask recordContext
      .ok { id := id.setWidth w, name }
  | _ => .fail

def parseResourceFlags (text : Str) : BitVec 32 :=
  if strstr text refcountText then resourceRefcount else 0

/-- `ffs`: the number of the lowest set bit, counted from one. -/
def ffs (v : BitVec 32) : Nat :=
  match (List.range 32).find? fun i => v.getLsbD i with
  | some i => i + 1
  | none => 0

/-- `"<%x> : %[^ ] (%[^)]) [%[^]]]"`. -/
def resourceFormat : List Directive :=
  [.lit '<', .conv .hex, .lit '>', .space, .lit ':', .space, .conv (.except [' '] 512), .space,
   .lit '(', .conv (.except [')'] 512), .lit ')', .space, .lit '[', .conv (.except [']'] 1024),
   .lit ']']

/-- `parse_resource_registry`. It asks for the bit of the contexts. -/
def parseResourceRegistry (mask : BitVec 32) (line : Str) : ParseResult (Resource w) := do
  match ← scan w resourceFormat line with
  | .int id :: .text type :: .text desc :: flags =>
      checkMask mask recordContext
      .ok { id := BitVec.ofNat w (ffs id), type, desc,
            flags := match flags with | [.text text] => parseResourceFlags text | _ => 0,
            hide := false }
  | _ => .fail

/-- `"& %s : %s"`. -/
def attachmentFormat : List Directive :=
  [.lit '&', .space, .conv (.word 512), .space, .lit ':', .space, .conv (.word pathMax)]

def parseFileAttachment (w : Nat) (mask : BitVec 32) (line : Str) : ParseResult Attachment := do
  match ← scan w attachmentFormat line with
  | [.text name, .text path] =>
      checkMask mask recordAttachment
      .ok { name, path }
  | _ => .fail

/-! ## Records -/

/-- `sp_rtrace_record_t` with the record type; `none` is
`SP_RTRACE_RECORD_NONE`. -/
inductive Record (w : Nat)
  | none
  | trace (frame : Frame w)
  | call (call : CallRecord w)
  | arg (arg : Farg)
  | mmap (mmap : Mmap w)
  | context (context : Context w)
  | resource (resource : Resource w)
  | attachment (file : Attachment)
  | comment
  deriving DecidableEq, Repr

/-- What follows a scanner in `sp_rtrace_parser_parse_record`: return its
record, or go on to the next scanner. -/
def ParseResult.orElse {α : Type} (r : ParseResult α) (make : α → Record w)
    (next : Option (Record w)) : Option (Record w) :=
  match r with
  | .fault => Option.none
  | .fail => next
  | .ignore => some .none
  | .ok data => some (make data)

/-- `sp_rtrace_parser_parse_record`; `mask` is `parse_record_mask`. -/
def spRtraceParserParseRecord (mask : BitVec 32) (text : Str) : Option (Record w) :=
  (parseBacktrace mask text).orElse .trace <|
  (parseFunctionCall mask text).orElse .call <|
  (parseArguments w mask text).orElse .arg <|
  (parseMemoryMapping mask text).orElse .mmap <|
  (parseContextRegistry mask text).orElse .context <|
  (parseResourceRegistry mask text).orElse .resource <|
  (parseFileAttachment w mask text).orElse .attachment <|
  some (if mask &&& recordComment = 0 then .none else .comment)

/-! ## The header -/

/-- The loop of `sp_rtrace_parser_parse_header`; every turn passes a comma. -/
def parseHeaderLoop (w : Nat) : Nat → Str → Header → Option Header
  | 0, _, header => some header
  | fuel + 1, ptr, header => do
      let r ← sscanf w [.conv (.except ['='] 256), .lit '=', .conv (.except [','] pathMax)] ptr
      match r.values with
      | [.text key, .text value] =>
          let header := match HeaderField.all.find? fun i => i.name = key with
            | some i => Function.update header i (some value)
            | none => header
          match strchr ptr ',' with
          | none => some header
          | some rest => parseHeaderLoop w fuel (rest.tail.dropWhile (· = ' ')) header
      | _ => some header

def spRtraceParserParseHeader (w : Nat) (text : Str) : Option Header :=
  parseHeaderLoop w (text.length + 1) text fun _ => none

end SpRtrace.Library
