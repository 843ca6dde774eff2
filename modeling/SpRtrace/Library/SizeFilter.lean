/-
SpRtrace.Library.SizeFilter — the filter for the calls that get a
backtrace, `src/library/sp_rtrace_filter.c`.

The sizes of the option are stored one after another, and the memory for
them is doubled when it is full. Its size is given to `malloc` and
`realloc` in bytes, and the index of a size is compared with the same
number.

A result `none` is a store or a load outside the memory that was allocated,
or of an element that was never stored.
-/
import SpRtrace.Lib.Strings
import SpRtrace.Library.Formatter
import SpRtrace.Modules.Main
import SpRtrace.Postproc.ParseText

namespace SpRtrace.Library

open SpRtrace.Lib SpRtrace.Common SpRtrace.Postproc

/-! ## Memory for sizes -/

/-- Memory for `int`s, some of them not stored yet. -/
abbrev IntBlock : Type := List (Option (BitVec 32))

/-- `malloc_a`. -/
def mallocInts (bytes : Nat) : IntBlock := List.replicate (bytes / 4) none

/-- `realloc_a`. -/
def reallocInts (block : IntBlock) (bytes : Nat) : IntBlock :=
  (block ++ List.replicate (bytes / 4) none).take (bytes / 4)

def storeInt (block : IntBlock) (i : Nat) (value : BitVec 32) : Option IntBlock :=
  if i < block.length then some (block.set i (some value)) else none

/-! ## The filter -/

def initialSizesetSize : Nat := 32

def sizeUndefined : BitVec 32 := -1

def filterTypeNone : BitVec 32 := 0

def filterTypeAlloc : BitVec 32 := 1

def filterTypeFree : BitVec 32 := 2

/-- `sp_rtrace_filter_t`. -/
structure RtraceFilter where
  type : BitVec 32
  sizeSet : Option IntBlock
  deriving DecidableEq, Repr

def spRtraceFilterCreate (type : BitVec 32) : RtraceFilter := { type, sizeSet := none }

/-- The loop over the parts of the option; `size` is the index of the next
element. -/
def storeSizes (w : Nat) (block : IntBlock) (limit size : Nat) :
    List Str → Option (IntBlock × Nat)
  | [] => some (block, size)
  | ptr :: rest => do
      let full := size + 1 = limit
      let limit := if full then limit * 2 else limit
      let block := if full then reallocInts block limit else block
      let block ← storeInt block size (atoi w ptr)
      storeSizes w block limit (size + 1) rest

def spRtraceFilterParseSizeOpt (w : Nat) (filter : RtraceFilter) :
    Option Str → Option RtraceFilter
  | none => some filter
  | some opt =>
      if pathMax ≤ opt.length then none
      else do
        let stored ← storeSizes w (mallocInts initialSizesetSize) initialSizesetSize 0 (strtok ',' opt)
        let block ← storeInt stored.1 stored.2 sizeUndefined
        some { filter with sizeSet := some block }

/-- The function call type mapping to the filter type. -/
def filterTypes : List (BitVec 32) := [filterTypeNone, filterTypeFree, filterTypeAlloc]

/-- The loop over the size list up to its end marker. -/
def scanSizes (resSize : BitVec 32) : IntBlock → Option Bool
  | [] => none
  | none :: _ => none
  | some size :: rest =>
      if size = sizeUndefined then some false
      else if resSize = size then some true
      else scanSizes resSize rest

def spRtraceFilterValidate (filter : RtraceFilter) (type resSize : BitVec 32) : Option Bool := do
  let mask ← filterTypes[type.toNat]?
  if mask &&& filter.type = 0 then some false
  else
    match filter.sizeSet with
    | none => some true
    | some block => scanSizes resSize block

/-- `filter_validate` of the tracing module. -/
def filterValidate {w : Nat} (filter : RtraceFilter) (call : Modules.ModuleFcall w) : Option Bool :=
  spRtraceFilterValidate filter call.type call.resSize

end SpRtrace.Library
