/-
SpRtrace.Common.RtraceData — the resource trace data of
`src/common/rtrace_data.{h,c}` and `src/library/sp_rtrace_defs.h`.

`Rd` is `rd_t` together with the memory its pointers lead into: function
calls, backtraces, reference nodes and resource records live at addresses
(`Nat`), and a freed record is gone from its store, so following a
dangling pointer is `none`. `pointer_t` and `unsigned long` are
`BitVec w` for the word size `w` of the machine (32 or 64), `int` and
`unsigned int` are `BitVec 32`; the reference counters are among them.

The trace part of the store is what `rd_fcall_set_ftrace`,
`rd_fcalls_set_ftrace` and `rd_fcall_remove` keep consistent:

    call->trace --> trace in a bucket of rd->ftraces
    call->ref   --> node of trace->calls, whose ref is the call again

`SpRtrace.Common.RtraceDataTheorems` states that as an invariant and
proves that the three functions keep it.
-/
import Mathlib
import SpRtrace.Common.Htable

namespace SpRtrace.Common

/-- A C string, without its terminating zero. -/
abbrev Str := List Char

/-! ## Records -/

/-- `sp_rtrace_resource_t` and the `hide` flag of `rd_resource_t`. -/
structure Resource (w : Nat) where
  id : BitVec w
  type : Str
  desc : Str
  flags : BitVec 32
  hide : Bool
  deriving DecidableEq, Repr

def resourceRefcount : BitVec 32 := 1

/-- The resource counts references (`flags & SP_RTRACE_RESOURCE_REFCOUNT`). -/
def Resource.refcounted {w : Nat} (res : Resource w) : Bool :=
  decide (res.flags &&& resourceRefcount ≠ 0)

def ftypeFree : BitVec 32 := 1

def ftypeAlloc : BitVec 32 := 2

/-- `sp_rtrace_farg_t`. -/
structure Farg where
  name : Str
  value : Str
  deriving DecidableEq, Repr

/-- `sp_rtrace_fcall_t` as `rd_fcall_t` holds it: `res_type` is the address
of a resource record, or NULL. -/
structure FcallData (w : Nat) where
  index : BitVec 32
  type : BitVec 32
  context : BitVec 32
  timestamp : BitVec 32
  name : Str
  resType : Option Nat
  resId : BitVec w
  resSize : BitVec 32
  deriving DecidableEq, Repr

/-- `rd_fcall_t`. -/
structure Fcall (w : Nat) where
  data : FcallData w
  trace : Option Nat
  ref : Option Nat
  args : Option (List Farg)
  deriving DecidableEq, Repr

/-- One frame of a backtrace: its address and its resolved name, if any. -/
structure Frame (w : Nat) where
  addr : BitVec w
  name : Option Str
  deriving DecidableEq, Repr

/-- `rd_ftrace_t`; `calls` are the addresses of its reference nodes. -/
structure Ftrace (w : Nat) where
  bucket : Option Nat
  refCount : BitVec 32
  frames : List (Frame w)
  calls : List Nat
  deriving DecidableEq, Repr

/-- `sp_rtrace_mmap_t`. -/
structure Mmap (w : Nat) where
  fromAddr : BitVec w
  toAddr : BitVec w
  moduleName : Str
  deriving DecidableEq, Repr

/-- `sp_rtrace_context_t`. -/
structure Context (w : Nat) where
  id : BitVec w
  name : Str
  deriving DecidableEq, Repr

/-- `sp_rtrace_attachment_t`. -/
structure Attachment where
  name : Str
  path : Str
  deriving DecidableEq, Repr

/-- `rd_hshake_t`; a log without an architecture leaves it NULL. -/
structure Hshake where
  vmajor : BitVec 8
  vminor : BitVec 8
  arch : Option Str
  endianness : BitVec 8
  pointerSize : BitVec 8
  deriving DecidableEq, Repr

/-- `rd_pinfo_t`; the flags field is not used by anything modelled. -/
structure Pinfo where
  pid : BitVec 32
  backtraceDepth : BitVec 32
  name : Option Str
  tvSec : Int
  tvUsec : Int
  traceOrigin : Option Str
  deriving DecidableEq, Repr

/-- `rd_minfo_t`. -/
structure Minfo where
  id : BitVec 32
  vmajor : BitVec 8
  vminor : BitVec 8
  name : Str
  deriving DecidableEq, Repr

/-- `rd_hinfo_t`. -/
structure Hinfo (w : Nat) where
  heapBottom : BitVec w
  heapTop : BitVec w
  lowestBlock : BitVec w
  highestBlock : BitVec w
  arena : BitVec 32
  ordblks : BitVec 32
  smblks : BitVec 32
  hblks : BitVec 32
  hblkhd : BitVec 32
  usmblks : BitVec 32
  fsmblks : BitVec 32
  uordblks : BitVec 32
  fordblks : BitVec 32
  keepcost : BitVec 32
  deriving DecidableEq, Repr

/-- `rd_comment_t`. -/
structure Comment where
  index : BitVec 32
  text : Str
  deriving DecidableEq, Repr

/-- `rd_t` and the memory behind its pointers. `fresh` is an address above
every address in use. -/
structure Rd (w : Nat) where
  fcall : Nat → Option (Fcall w)
  ftrace : Nat → Option (Ftrace w)
  refNode : Nat → Option Nat
  resource : Nat → Option (Resource w)
  fresh : Nat
  calls : List Nat
  contexts : List (Context w)
  ftraces : Htable Nat
  mmaps : List (Mmap w)
  hshake : Option Hshake
  pinfo : Option Pinfo
  minfo : List Minfo
  comments : List Comment
  hinfo : Option (Hinfo w)
  resources : List Nat
  filter : BitVec 32
  files : List Attachment

variable {w : Nat}

/-! ## Backtrace indexing -/

/-- `HASH_SIZE` of the backtrace table and of the resource index. -/
def hashSize : Nat := 65536

/-- The loop of `bt_hash` and `res_hash` over one word: sixteen bits at a
time, three bits apart. The first argument bounds the number of turns; a
word of `w` bits is used up after at most `w`. -/
def hashWord : Nat → Nat → Nat → Nat
  | 0, _, hash => hash
  | fuel + 1, value, hash =>
      if value = 0 then hash
      else hashWord fuel (value >>> 3) (hash ^^^ (value &&& 65535))

def btHash (frames : List (Frame w)) : Nat :=
  frames.foldl (fun hash f => hashWord w f.addr.toNat hash) 0

/-- `bt_compare`: only its zero result is used. Backtraces of one length
are compared with `memcmp`, others by their length. -/
def btCompare (bt1 bt2 : List (Frame w)) : Int :=
  if bt1.length = bt2.length then
    if bt1.map Frame.addr = bt2.map Frame.addr then 0 else 1
  else (bt1.length : Int) - bt2.length

/-! ## Building and removing -/

def rdCreate : Rd w where
  fcall := fun _ => none
  ftrace := fun _ => none
  refNode := fun _ => none
  resource := fun _ => none
  fresh := 0
  calls := []
  contexts := []
  ftraces := htableInit hashSize
  mmaps := []
  hshake := none
  pinfo := none
  minfo := []
  comments := []
  hinfo := none
  resources := []
  filter := 0
  files := []

/-- `dlist_create_node` for a call and `dlist_add(&rd->calls, call)`; the
new call has no trace, reference or arguments yet. Returns its address. -/
def rdAddFcall (rd : Rd w) (data : FcallData w) : Rd w × Nat :=
  let call : Fcall w := { data, trace := none, ref := none, args := none }
  ({ rd with
      fcall := Function.update rd.fcall rd.fresh (some call)
      calls := dlistAdd rd.calls rd.fresh
      fresh := rd.fresh + 1 }, rd.fresh)

/-- `dlist_create_node` for a resource and `dlist_add(&rd->resources, res)`. -/
def rdAddResource (rd : Rd w) (res : Resource w) : Rd w × Nat :=
  ({ rd with
      resource := Function.update rd.resource rd.fresh (some res)
      resources := dlistAdd rd.resources rd.fresh
      fresh := rd.fresh + 1 }, rd.fresh)

/-- `htable_create_node` for a backtrace with the given frames, as the
parsers fill it in before it is assigned to a call. -/
def rdNewFtrace (rd : Rd w) (frames : List (Frame w)) : Rd w × Nat :=
  let trace : Ftrace w := { bucket := none, refCount := 0, frames, calls := [] }
  ({ rd with
      ftrace := Function.update rd.ftrace rd.fresh (some trace)
      fresh := rd.fresh + 1 }, rd.fresh)

/-- `rd_ftrace_free`: the record and its reference nodes. -/
def rdFtraceFree (rd : Rd w) (trace : Nat) : Option (Rd w) := do
  let t ← rd.ftrace trace
  some { rd with
    ftrace := Function.update rd.ftrace trace none
    refNode := fun a => if a ∈ t.calls then none else rd.refNode a }

/-- `dlist_create_node` for a reference node that points to a call. -/
def rdNewRef (rd : Rd w) (call : Nat) : Rd w × Nat :=
  ({ rd with
      refNode := Function.update rd.refNode rd.fresh (some call)
      fresh := rd.fresh + 1 }, rd.fresh)

/-- The first half of `rd_fcall_set_ftrace` and `rd_fcalls_set_ftrace`: an
equal backtrace of the table is used and the new one freed, otherwise the
new one is stored. Returns the backtrace to use. -/
def rdShareFtrace (rd : Rd w) (trace : Nat) : Option (Rd w × Nat) := do
  let t ← rd.ftrace trace
  let b := getBucket rd.ftraces.size t.bucket (btHash t.frames)
  -- `get_bucket` caches the bucket in the node
  let rd := { rd with ftrace := Function.update rd.ftrace trace (some { t with bucket := some b }) }
  let compare := fun n => do some (btCompare (← rd.ftrace n).frames t.frames)
  match ← htableFind rd.ftraces b compare with
  | none =>
      let (ftraces, _) ← htableStore rd.ftraces b compare trace
      some ({ rd with ftraces }, trace)
  | some xtrace =>
      let rd ← rdFtraceFree rd trace
      some (rd, xtrace)

/-- The second half of `rd_fcall_set_ftrace`, and `store_fcall_trace`:
count the call and link its reference node. -/
def rdLinkFcall (rd : Rd w) (call ref trace : Nat) : Option (Rd w) := do
  let c ← rd.fcall call
  let t ← rd.ftrace trace
  some { rd with
    fcall := Function.update rd.fcall call (some { c with trace := some trace, ref := some ref })
    ftrace := Function.update rd.ftrace trace
      (some { t with refCount := t.refCount + 1, calls := dlistAdd t.calls ref }) }

def rdFcallSetFtrace (rd : Rd w) (call trace : Nat) : Option (Rd w) := do
  let (rd, trace) ← rdShareFtrace rd trace
  let (rd, ref) := rdNewRef rd call
  rdLinkFcall rd call ref trace

/-- `store_fcall_trace` on one node of a list of call references. -/
def storeFcallTrace (trace : Nat) (rd : Rd w) (ref : Nat) : Option (Rd w) := do
  let call ← rd.refNode ref
  rdLinkFcall rd call ref trace

/-- `rd_fcalls_set_ftrace`. The references of `calls` move to the trace;
the next one is read before `store_fcall_trace` relinks the current one. -/
def rdFcallsSetFtrace (rd : Rd w) (calls : List Nat) (trace : Nat) : Option (Rd w) := do
  let (rd, trace) ← rdShareFtrace rd trace
  calls.foldlM (storeFcallTrace trace) rd

/-- The part of `rd_fcall_remove` that undoes the link to the backtrace. -/
def rdUnlinkFcall (rd : Rd w) (c : Fcall w) : Option (Rd w) :=
  match c.trace with
  | none => some rd
  | some trace => do
      let t ← rd.ftrace trace
      let (rd, t) ← match c.ref with
        | none => some (rd, t)
        | some ref => do
            let calls ← dlistRemove t.calls ref
            some ({ rd with refNode := Function.update rd.refNode ref none }, { t with calls })
      let t := { t with refCount := t.refCount - 1 }
      let rd := { rd with ftrace := Function.update rd.ftrace trace (some t) }
      if t.refCount = 0 then do
        let b ← t.bucket
        let ftraces ← htableRemoveNode rd.ftraces b trace
        rdFtraceFree { rd with ftraces } trace
      else some rd

def rdFcallRemove (rd : Rd w) (call : Nat) : Option (Rd w) := do
  let calls ← dlistRemove rd.calls call
  let c ← rd.fcall call
  let rd ← rdUnlinkFcall { rd with calls } c
  some { rd with fcall := Function.update rd.fcall call none }

/-! ## Comparison and hash -/

/-- `bt_compare` is zero exactly on equal address lists. -/
theorem btCompare_eq_zero (bt1 bt2 : List (Frame w)) :
    btCompare bt1 bt2 = 0 ↔ bt1.map Frame.addr = bt2.map Frame.addr := by
  unfold btCompare
  split
  · split <;> simp_all
  · rename_i hlen
    constructor
    · intro h; omega
    · intro h
      exact absurd (by simpa using congrArg List.length h) hlen

theorem btHash_congr {bt1 bt2 : List (Frame w)} (h : bt1.map Frame.addr = bt2.map Frame.addr) :
    btHash bt1 = btHash bt2 := by
  have hmap : ∀ (l : List (Frame w)) (hash : Nat),
      l.foldl (fun hash f => hashWord w f.addr.toNat hash) hash
        = (l.map Frame.addr).foldl (fun hash a => hashWord w a.toNat hash) hash := by
    intro l hash
    rw [List.foldl_map]
  rw [btHash, btHash, hmap, hmap, h]

end SpRtrace.Common
