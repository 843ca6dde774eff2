/-
SpRtrace.Postproc.Filter — the record filters of
`src/rtrace-postproc/filter.c`.

Most of them are `dlist_foreach2` over `rd->calls` with a callback that may
call `rd_fcall_remove`; `filter_trim_backtraces` goes through the table of
backtraces. `filter_leaks` also keeps an index of the
allocations that are not released yet: a hash table of `fres_t` records
at addresses of their own, compared by resource and resource id.

A NULL resource pointer that the code dereferences is `none`, as is any
other access to memory that is not there. The hash function is a
parameter of `filterLeaksWith`, so that what depends on it can be stated;
`filterLeaks` is the source's function.
-/
import SpRtrace.Common.RtraceData

namespace SpRtrace.Postproc

open SpRtrace.Common

variable {w : Nat}

/-! ## The resource index -/

structure Fres where
  bucket : Option Nat
  call : Nat
  refCount : BitVec 32
  deriving DecidableEq, Repr

/-- `fres_index_t` and the memory its table leads to. -/
structure FresIndex (w : Nat) where
  rd : Rd w
  table : Htable Nat
  fres : Nat → Option Fres
  fresh : Nat

/-- `res_compare` on the calls of two index records. -/
def resCompare (rd : Rd w) (call1 call2 : Nat) : Option Int := do
  let d1 := (← rd.fcall call1).data
  let d2 := (← rd.fcall call2).data
  if d1.resType = d2.resType then some (d1.resId - d2.resId).toInt
  else match d1.resType, d2.resType with
    | none, _ => some (-1)
    | some _, none => some 1
    | some type1, some type2 => do
        let res1 ← rd.resource type1
        let res2 ← rd.resource type2
        some (res1.id - res2.id).toInt

/-- `res_hash` on what it reads: the resource id of the call and the id of
its resource record, if it has one. -/
def resHash (resId : BitVec w) (typeId : Option (BitVec w)) : Nat :=
  let hash := hashWord w resId.toNat 0
  match typeId with
  | some id => hashWord w id.toNat hash
  | none => hash

def callHash (hash : BitVec w → Option (BitVec w) → Nat) (rd : Rd w) (call : Nat) :
    Option Nat := do
  let d := (← rd.fcall call).data
  match d.resType with
  | none => some (hash d.resId none)
  | some type => do some (hash d.resId (some (← rd.resource type).id))

/-- `res_type->data.flags & SP_RTRACE_RESOURCE_REFCOUNT`. -/
def typeRefcounted (rd : Rd w) (resType : Option Nat) : Option Bool := do
  some (← rd.resource (← resType)).refcounted

/-! ## Leaks -/

/-- `res->ref_count++` and `res->ref_count--`. -/
def FresIndex.countRef (idx : FresIndex w) (res : Nat) (step : BitVec 32 → BitVec 32) :
    Option (FresIndex w) := do
  let f ← idx.fres res
  some { idx with fres := Function.update idx.fres res (some { f with refCount := step f.refCount }) }

/-- `rd_fcall_remove(idx->rd, call)`. -/
def FresIndex.removeCall (idx : FresIndex w) (call : Nat) : Option (FresIndex w) := do
  some { idx with rd := ← rdFcallRemove idx.rd call }

/-- The comparison of `idx->table` against a record for `call`. -/
def FresIndex.compare (idx : FresIndex w) (call : Nat) (n : Nat) : Option Int := do
  resCompare idx.rd (← idx.fres n).call call

/-- `if (old_res) free_fres_rec(old_res)`. -/
def freeFresRec (fres : Nat → Option Fres) : Option Nat → Nat → Option Fres
  | none => fres
  | some old => Function.update fres old none

/-- A new index record for `call`, stored in its bucket `b`; a record it
replaces is freed. -/
def FresIndex.store (idx : FresIndex w) (b call : Nat) : Option (FresIndex w) := do
  let res := idx.fresh
  let f : Fres := { bucket := some b, call, refCount := 1 }
  let idx := { idx with fres := Function.update idx.fres res (some f), fresh := res + 1 }
  let (table, old) ← htableStore idx.table b (idx.compare call) res
  some { idx with table, fres := freeFresRec idx.fres old }

/-- Unlink an index record, remove its call and free the record. -/
def FresIndex.release (idx : FresIndex w) (res : Nat) : Option (FresIndex w) := do
  let f ← idx.fres res
  let table ← htableRemoveNode idx.table (← f.bucket) res
  let idx ← FresIndex.removeCall { idx with table } f.call
  some { idx with fres := Function.update idx.fres res none }

/-- `res->ref_count == 0 || !(res_type->data.flags & …)`: the flags are
read only when the counter is not zero. -/
def FresIndex.lastRef (idx : FresIndex w) (res : Nat) (resType : Option Nat) : Option Bool := do
  let f ← idx.fres res
  if f.refCount = 0 then some true else do some (!(← typeRefcounted idx.rd resType))

def fcallRemoveFreed (hash : BitVec w → Option (BitVec w) → Nat) (call : Nat)
    (idx : FresIndex w) : Option (FresIndex w) := do
  let d := (← idx.rd.fcall call).data
  let b := getBucket idx.table.size none (← callHash hash idx.rd call)
  let res ← htableFind idx.table b (idx.compare call)
  if d.type = ftypeAlloc then
    match res with
    | none => idx.store b call
    | some res =>
        if ← typeRefcounted idx.rd d.resType then
          (← idx.countRef res (· + 1)).removeCall call
        else idx.store b call
  else if d.type = ftypeFree then
    match res with
    | none => idx.removeCall call
    | some res =>
        let idx ← idx.countRef res (· - 1)
        if ← idx.lastRef res d.resType then (← idx.release res).removeCall call
        else idx.removeCall call
  else some idx

/-- `filter_leaks`, for any hash function of the index. -/
def filterLeaksWith (hash : BitVec w → Option (BitVec w) → Nat) (rd : Rd w) : Option (Rd w) := do
  let idx : FresIndex w := { rd, table := htableInit hashSize, fres := fun _ => none, fresh := 0 }
  let idx ← dlistForeach2 (fun idx : FresIndex w => idx.rd.calls) (fcallRemoveFreed hash) idx
  some idx.rd

def filterLeaks (rd : Rd w) : Option (Rd w) := filterLeaksWith resHash rd

/-! ## Masks and index files -/

/-- `dlist_foreach2(&rd->calls, …)` with a callback that removes the call
when `drop` holds of it. -/
def filterCalls (drop : Rd w → FcallData w → Option Bool) (rd : Rd w) : Option (Rd w) :=
  dlistForeach2 (fun rd : Rd w => rd.calls) (fun call rd => do
    let d := (← rd.fcall call).data
    if ← drop rd d then rdFcallRemove rd call else some rd) rd

/-- `fcall_filter_context`: whether the call is removed. -/
def fcallFilterContext (filterContext : BitVec 32) (_ : Rd w) (d : FcallData w) : Option Bool :=
  some ((filterContext ≠ 0 && d.context &&& filterContext = 0) ||
    (filterContext = 0 && d.context ≠ 0))

/-- `(1 << (id - 1)) & filter_resource`. The machine takes the shift count
modulo 32. -/
def resourceMask (id : BitVec w) (filterResource : BitVec 32) : BitVec 32 :=
  ((1 : BitVec 32) <<< ((id - 1).toNat % 32)) &&& filterResource

/-- `fcall_filter_resource`: whether the call is removed. -/
def fcallFilterResource (filterResource : BitVec 32) (rd : Rd w) (d : FcallData w) :
    Option Bool :=
  match d.resType with
  | none => some false
  | some type => do some (resourceMask (← rd.resource type).id filterResource = 0)

/-- `filter_compare_event_index`: the `long` difference cut down to `int`. -/
def filterCompareEventIndex (index1 index2 : BitVec w) : Int :=
  ((index1 - index2).setWidth 32).toInt

/-- `fcall_filter_index`: whether the call is removed. `indexMap` are the
indices in the tree of the index file. -/
def fcallFilterIndex (incl : Bool) (indexMap : List (BitVec w)) (_ : Rd w) (d : FcallData w) :
    Option Bool :=
  let found := indexMap.any fun i => filterCompareEventIndex (d.index.signExtend w) i = 0
  some ((found && !incl) || (!found && incl))

def filterContext (mask : BitVec 32) (rd : Rd w) : Option (Rd w) :=
  filterCalls (fcallFilterContext mask)
    { rd with contexts := rd.contexts.filter fun c => c.id &&& mask.signExtend w ≠ 0 }

/-- `filter_resource`. The records of removed resources are not freed. -/
def filterResource (mask : BitVec 32) (rd : Rd w) : Option (Rd w) := do
  let rd ← dlistForeach2 (fun rd : Rd w => rd.resources) (fun res rd => do
    if resourceMask (← rd.resource res).id mask = 0 then
      some { rd with resources := ← dlistRemove rd.resources res }
    else some rd) rd
  filterCalls (fcallFilterResource mask) rd

/-- `trim_backtrace` with `rd->pinfo->backtrace_depth`: only the number of
frames changes. The backtrace stays where it is in the table. -/
def trimBacktrace (backtraceDepth : BitVec 32) (rd : Rd w) (trace : Nat) : Option (Rd w) := do
  let t ← rd.ftrace trace
  if t.frames.length > backtraceDepth.toNat then
    let t := { t with frames := t.frames.take backtraceDepth.toNat }
    some { rd with ftrace := Function.update rd.ftrace trace (some t) }
  else some rd

/-- `filter_trim_backtraces` with `postproc_options.backtrace_depth`. -/
def filterTrimBacktraces (backtraceDepth : BitVec 32) (rd : Rd w) : Option (Rd w) := do
  let pinfo ← rd.pinfo
  let rd := { rd with pinfo := some { pinfo with backtraceDepth } }
  (htableNodes rd.ftraces).foldlM (trimBacktrace backtraceDepth) rd

def filterInclude (indexMap : List (BitVec w)) (rd : Rd w) : Option (Rd w) :=
  filterCalls (fcallFilterIndex true indexMap) rd

def filterExclude (indexMap : List (BitVec w)) (rd : Rd w) : Option (Rd w) :=
  filterCalls (fcallFilterIndex false indexMap) rd

end SpRtrace.Postproc
