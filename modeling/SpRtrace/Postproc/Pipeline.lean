/-
SpRtrace.Postproc.Pipeline — what the post-processor does to the trace data
between parsing and writing, `main` of
`src/rtrace-postproc/sp_rtrace_postproc.c` with the rest of `filter.c`.

The filters run in a fixed order: the backtraces are trimmed first, then
calls are removed by resource, address range, index file and context, then
the blocks of the heap are looked at, and the leaks are filtered last, so
that a call an earlier filter removed neither allocates nor releases.

The index file is a search tree of the C library, so how it is balanced is
a parameter (`Lib.SearchTree`). A file is given by its text.
-/
import SpRtrace.Lib.SearchTree
import SpRtrace.Lib.Stdio
import SpRtrace.Postproc.Filter
import SpRtrace.Postproc.RangeFilter

namespace SpRtrace.Postproc

open SpRtrace.Lib SpRtrace.Common

variable {w : Nat}

/-! ## Index files -/

/-- The digits of %li: the prefix says what base they have. -/
def scanBase : List Char → Nat × List Char
  | '0' :: x :: s => if x = 'x' ∨ x = 'X' then (16, s) else (8, '0' :: x :: s)
  | '0' :: [] => (8, ['0'])
  | s => (10, s)

def strtol (w : Nat) (neg : Bool) (n : Nat) : BitVec w :=
  BitVec.ofInt w (if neg then max (-(n : Int)) (-2 ^ (w - 1)) else min (n : Int) (2 ^ (w - 1) - 1))

/-- `sscanf(line, "%li", &idx) == 1`. -/
def scanIndex (w : Nat) (line : Str) : Option (BitVec w) :=
  let (neg, s) := scanSign (skipSpace line)
  let (base, s) := scanBase s
  match s.takeWhile (isDigitOf base) with
  | [] => none
  | d :: ds => some (strtol w neg (digitsValue base (d :: ds)))

/-- The indices of the lines that have one, in the order of the file. -/
def fileIndexes (w : Nat) (file : Str) : List (BitVec w) :=
  (fgetsLines 128 file).filterMap (scanIndex w)

def filterLoadIndexData (balance : SearchTree (BitVec w) → SearchTree (BitVec w)) (file : Str) :
    SearchTree (BitVec w) :=
  (fileIndexes w file).foldl (fun root idx => (root.tsearch balance filterCompareEventIndex idx).1)
    .nil

/-- `fcall_filter_index` with the tree: whether the call is removed. -/
def fcallFilterIndexMap (incl : Bool) (indexMap : SearchTree (BitVec w)) (_ : Rd w) (d : FcallData w) :
    Option Bool :=
  let found := (indexMap.tfind filterCompareEventIndex (d.index.signExtend w)).isSome
  some ((found && !incl) || (!found && incl))

/-! ## The heap and the resource types -/

def fcallFindLowhighBlocks (call : FcallData w) (hinfo : Hinfo w) : Hinfo w :=
  if call.type = ftypeAlloc then
    let hinfo := if call.resId < hinfo.lowestBlock then { hinfo with lowestBlock := call.resId } else hinfo
    if hinfo.highestBlock < call.resId then { hinfo with highestBlock := call.resId } else hinfo
  else hinfo

def filterFindLowhighBlocks (rd : Rd w) (hinfo : Hinfo w) : Option (Rd w) := do
  let hinfo ← rd.calls.foldlM (fun hinfo call => do
    some (fcallFindLowhighBlocks (← rd.fcall call).data hinfo))
    { hinfo with lowestBlock := BitVec.allOnes w }
  some { rd with hinfo := some hinfo }

/-- `filter_update_resource_visibility`: a single resource type becomes the
first one, and is not shown. -/
def filterUpdateResourceVisibility (rd : Rd w) : Option (Rd w) :=
  match rd.resources with
  | [res] => do
      let r ← rd.resource res
      some { rd with resource := Function.update rd.resource res (some { r with hide := true, id := 1 }) }
  | _ => some rd

/-! ## The options and `main` -/

/-- The options about calls, as `main` has parsed them: -1 is no depth and no
context mask, 0 no resource mask. -/
structure PostprocOptions (w : Nat) where
  backtraceDepth : BitVec 32
  filterResource : BitVec 32
  filterRange : Option (RangeOptions w)
  includeFile : Option Str
  excludeFile : Option Str
  filterContext : BitVec 32
  filterLeaks : Bool

/-- An option that is not set does nothing. -/
def whenSet {α : Type} (option : Option α) (filter : α → Rd w → Option (Rd w)) (rd : Rd w) :
    Option (Rd w) :=
  match option with
  | none => some rd
  | some value => filter value rd

/-- An option that is off does nothing. -/
def whenOn (on : Prop) [Decidable on] (filter : Rd w → Option (Rd w)) (rd : Rd w) : Option (Rd w) :=
  if on then filter rd else some rd

/-- `main`, from the parser to the writer. -/
def postprocess (balance : SearchTree (BitVec w) → SearchTree (BitVec w))
    (isAbsolute : Str → Option Bool) (opts : PostprocOptions w) (rd : Rd w) : Option (Rd w) := do
  let rd ← whenOn (opts.backtraceDepth ≠ -1) (filterTrimBacktraces opts.backtraceDepth) rd
  let rd ← whenOn (opts.filterResource ≠ 0) (filterResource opts.filterResource) rd
  let rd ← whenSet opts.filterRange (fun range => filterCallAddressRange range isAbsolute) rd
  let rd ← whenSet opts.includeFile
    (fun file => filterCalls (fcallFilterIndexMap true (filterLoadIndexData balance file))) rd
  let rd ← whenSet opts.excludeFile
    (fun file => filterCalls (fcallFilterIndexMap false (filterLoadIndexData balance file))) rd
  let rd ← whenOn (opts.filterContext ≠ -1) (filterContext opts.filterContext) rd
  let rd ← whenSet rd.hinfo (fun hinfo rd => filterFindLowhighBlocks rd hinfo) rd
  let rd ← whenOn (opts.filterLeaks = true) filterLeaks rd
  filterUpdateResourceVisibility rd

end SpRtrace.Postproc
