/-
SpRtrace.Modules.EmuHeap — the heap of the time before the tracing module
is initialised, `src/modules/sp_rtrace_memory.c`.

`emu_heap` is an array of 4096 bytes at the address `base`. A block has a
size cell of four bytes in front of it, and `emu_heap_tail` is the cell of
the last block. All arithmetic on addresses and sizes wraps as the
pointers and the `size_t` of the code do; `w` is their width.

A run ends when the limit check calls `exit`, or, as `outside`, with an
access outside of the heap, about which the language says nothing.
-/
import Mathlib
import SpRtrace.Common.Proto
import SpRtrace.Lib.Area

namespace SpRtrace.Modules

open SpRtrace.Common SpRtrace.Lib

variable {w : Nat}

/-! ## Memory -/

def emuHeapSize : Nat := 1024 * 4

def emuHeapAlign : Nat := 8

/-- `emu_heap` and `emu_heap_tail`. -/
structure EmuHeap (w : Nat) where
  base : BitVec w
  bytes : List UInt8
  tail : BitVec w
deriving DecidableEq

inductive EmuStop
  | exited
  | outside
deriving DecidableEq

def accessed {α : Type} (access : Option α) : Except EmuStop α := access.elim (.error .outside) .ok

/-- The place of an address in the array. -/
def EmuHeap.offset (heap : EmuHeap w) (addr : BitVec w) : Option Nat :=
  if heap.base ≤ addr then some (addr.toNat - heap.base.toNat) else none

/-- `*(int*) addr`. -/
def EmuHeap.loadInt (heap : EmuHeap w) (addr : BitVec w) : Option (BitVec 32) := do
  let pos ← heap.offset addr
  (readDword (heap.bytes.drop pos)).map Prod.fst

def EmuHeap.storeBytes (heap : EmuHeap w) (addr : BitVec w) (data : List UInt8) :
    Option (EmuHeap w) :=
  if data = [] then some heap
  else do
    let pos ← heap.offset addr
    let bytes ← storeCells heap.bytes pos data
    some { heap with bytes }

/-- `*(int*) addr = value`. -/
def EmuHeap.storeInt (heap : EmuHeap w) (addr : BitVec w) (value : BitVec 32) :
    Option (EmuHeap w) := heap.storeBytes addr (writeDword value)

/-- Copies `n` bytes from the front. -/
def EmuHeap.copyBytes (heap : EmuHeap w) (dst src : BitVec w) (n : Nat) : Option (EmuHeap w) :=
  if n = 0 then some heap
  else do
    let dst ← heap.offset dst
    let src ← heap.offset src
    let bytes ← copyCells heap.bytes dst src n
    some { heap with bytes }

/-! ## The functions -/

def emuAllocMem (heap : EmuHeap w) (size align : BitVec w) :
    Except EmuStop (EmuHeap w × BitVec w) := do
  let chunkSize ← accessed (heap.loadInt heap.tail)
  let newPtr := heap.tail + chunkSize.setWidth w + 4
  let offset := newPtr &&& (align - 1)
  let newPtr := if offset ≠ 0 then newPtr + (align - offset) else newPtr
  if heap.base + BitVec.ofNat w emuHeapSize ≤ newPtr + size then .error .exited
  else
    let tail := newPtr - 4
    let heap ← accessed ({ heap with tail }.storeInt tail ((size + 4).setWidth 32))
    .ok (heap, newPtr)

def emuMalloc (heap : EmuHeap w) (size : BitVec w) : Except EmuStop (EmuHeap w × BitVec w) :=
  emuAllocMem heap size (BitVec.ofNat w emuHeapAlign)

/-- The product of `emu_calloc`, an `int`. -/
def callocSize (nmemb size : BitVec w) : BitVec 32 := (nmemb * size).setWidth 32

def emuCalloc (heap : EmuHeap w) (nmemb size : BitVec w) :
    Except EmuStop (EmuHeap w × BitVec w) := do
  let totalSize := callocSize nmemb size
  let (heap, memptr) ← emuAllocMem heap (totalSize.signExtend w) (BitVec.ofNat w emuHeapAlign)
  let heap ← accessed (heap.storeBytes memptr (List.replicate totalSize.toInt.toNat 0))
  .ok (heap, memptr)

def einval : BitVec 32 := 22

def enomem : BitVec 32 := 12

/-- The alignments that `emu_posix_memalign` refuses; `sizeof(void *)` is
the width in bytes. -/
def alignmentRefused (alignment : BitVec w) : Prop :=
  alignment % BitVec.ofNat w (w / 8) ≠ 0 ∨ (alignment - 1) &&& alignment ≠ 0 ∨ alignment = 0

instance (alignment : BitVec w) : Decidable (alignmentRefused alignment) :=
  inferInstanceAs (Decidable (_ ∨ _))

/-- `emu_posix_memalign`: the heap, the result, and what is in `*memptr`
if it was set. -/
def emuPosixMemalign (heap : EmuHeap w) (alignment size : BitVec w) :
    Except EmuStop (EmuHeap w × BitVec 32 × Option (BitVec w)) := do
  if alignmentRefused alignment then .ok (heap, einval, none)
  else
    let alignment :=
      if alignment < BitVec.ofNat w emuHeapAlign then BitVec.ofNat w emuHeapAlign else alignment
    let (heap, memptr) ← emuAllocMem heap size alignment
    .ok (heap, if memptr ≠ 0 then 0 else enomem, some memptr)

def emuFree (heap : EmuHeap w) (ptr : BitVec w) : Except EmuStop (EmuHeap w) :=
  if heap.tail + 4 = ptr then accessed (heap.storeInt heap.tail 0) else .ok heap

/-- The size in front of the old block, with its cell; nothing for NULL. -/
def releasedSize (heap : EmuHeap w) (ptr : BitVec w) : Except EmuStop (BitVec 32) :=
  if ptr ≠ 0 then accessed (heap.loadInt (ptr - 4)) else .ok 0

/-- `emu_realloc`. The copying goes on while the target is below
`ptr_new + size`. -/
def emuRealloc (heap : EmuHeap w) (ptr size : BitVec w) : Except EmuStop (EmuHeap w × BitVec w) := do
  let chunkSize ← releasedSize heap ptr
  let heap ← emuFree heap ptr
  let (heap, ptrNew) ← emuAllocMem heap size (BitVec.ofNat w emuHeapAlign)
  if ptrNew ≠ 0 ∧ ptrNew ≠ ptr then
    let size := if chunkSize.setWidth w < size then chunkSize.setWidth w else size
    let heap ← accessed (heap.copyBytes ptrNew ptr ((ptrNew + size).toNat - ptrNew.toNat))
    .ok (heap, ptrNew)
  else .ok (heap, ptrNew)

/-! ## Runs -/

/-- A block that was returned and not given back: what was asked for. -/
structure EmuBlock (w : Nat) where
  ptr : BitVec w
  size : Nat
  align : Nat
deriving DecidableEq

structure EmuState (w : Nat) where
  heap : EmuHeap w
  live : List (EmuBlock w)
deriving DecidableEq

/-- A call, or a store of the program to one of its blocks. -/
inductive EmuCall (w : Nat)
  | malloc (size : BitVec w)
  | calloc (nmemb size : BitVec w)
  | realloc (ptr size : BitVec w)
  | posixMemalign (alignment size : BitVec w)
  | free (ptr : BitVec w)
  | write (block : EmuBlock w) (pos : Nat) (data : List UInt8)

/-- The live blocks without the one at an address. -/
def dropBlock (live : List (EmuBlock w)) (ptr : BitVec w) : List (EmuBlock w) :=
  live.filter (·.ptr ≠ ptr)

def emuStep (st : EmuState w) : EmuCall w → Except EmuStop (EmuState w)
  | .malloc size => do
      let (heap, ptr) ← emuMalloc st.heap size
      .ok { heap, live := { ptr, size := size.toNat, align := emuHeapAlign } :: st.live }
  | .calloc nmemb size => do
      let (heap, ptr) ← emuCalloc st.heap nmemb size
      .ok { heap, live :=
        { ptr, size := nmemb.toNat * size.toNat, align := emuHeapAlign } :: st.live }
  | .realloc ptr size => do
      let (heap, ptrNew) ← emuRealloc st.heap ptr size
      .ok { heap, live :=
        { ptr := ptrNew, size := size.toNat, align := emuHeapAlign } :: dropBlock st.live ptr }
  | .posixMemalign alignment size => do
      let (heap, rc, memptr) ← emuPosixMemalign st.heap alignment size
      let blocks := (if rc = 0 then memptr.toList else []).map fun ptr =>
        { ptr, size := size.toNat, align := alignment.toNat }
      .ok { heap, live := blocks ++ st.live }
  | .free ptr => do
      let heap ← emuFree st.heap ptr
      .ok { heap, live := dropBlock st.live ptr }
  | .write block pos data => do
      let heap ← accessed (st.heap.storeBytes (block.ptr + BitVec.ofNat w pos) data)
      .ok { heap, live := st.live }

/-- What the program promises: it gives back NULL or a live block, and
stores inside of its blocks. -/
def EmuCall.Valid (st : EmuState w) : EmuCall w → Prop
  | .realloc ptr _ | .free ptr => ptr = 0 ∨ ∃ b ∈ st.live, b.ptr = ptr
  | .write block pos data => block ∈ st.live ∧ pos + data.length ≤ block.size
  | _ => True

/-! ## The condition -/

/-- The first multiple of `align` that is not below `n`. -/
def alignUp (align n : Nat) : Nat := (n + align - 1) / align * align

/-- The end of the heap. -/
def EmuHeap.limit (heap : EmuHeap w) : Nat := heap.base.toNat + emuHeapSize

def EmuHeap.cell (heap : EmuHeap w) (addr : Nat) : Nat :=
  natLE (slice heap.bytes (addr - heap.base.toNat) 4)

/-- The first address behind the last block and a cell, once the block
`released` is given back. -/
def EmuHeap.top (heap : EmuHeap w) (released : BitVec w) : Nat :=
  heap.tail.toNat + (if heap.tail + 4 = released then 0 else heap.cell heap.tail.toNat) + 4

/-- Whether the limit check is right: if a block of `n` bytes does not end
below the end of the heap, then neither does the sum that the check
computes for the size it was given. -/
def LimitChecked (heap : EmuHeap w) (released : BitVec w) (align n : Nat) (size : BitVec w) : Prop :=
  let start := alignUp align (heap.top released)
  heap.limit ≤ start + n → heap.limit ≤ (BitVec.ofNat w start + size).toNat

/-- The condition on a call. -/
def EmuCall.Checked (st : EmuState w) : EmuCall w → Prop
  | .malloc size => LimitChecked st.heap 0 emuHeapAlign size.toNat size
  | .calloc nmemb size =>
      LimitChecked st.heap 0 emuHeapAlign (nmemb.toNat * size.toNat)
        ((callocSize nmemb size).signExtend w)
  | .realloc ptr size => LimitChecked st.heap ptr emuHeapAlign size.toNat size
  | .posixMemalign alignment size => ¬ alignmentRefused alignment →
      LimitChecked st.heap 0 (max alignment.toNat emuHeapAlign) size.toNat size
  | .free _ | .write _ _ _ => True

/-- The heap in front of the first call. It ends below the last page of
the address space, which is never mapped. -/
structure FreshHeap (heap : EmuHeap w) : Prop where
  wide : 32 ≤ w
  below : heap.base.toNat + 2 * emuHeapSize ≤ 2 ^ w
  bytes : heap.bytes = List.replicate emuHeapSize 0
  tail : heap.tail = heap.base

/-- The states of runs whose calls all meet the condition. -/
inductive EmuRun : EmuState w → Prop
  | start {heap : EmuHeap w} (h : FreshHeap heap) : EmuRun { heap, live := [] }
  | step {st st' : EmuState w} {call : EmuCall w} (h : EmuRun st) (hvalid : call.Valid st)
      (hcheck : call.Checked st) (hstep : emuStep st call = .ok st') : EmuRun st'

/-! ## What is promised -/

/-- The blocks with their size cells are inside of the heap and apart from
each other, and they are aligned. -/
structure EmuLayout (st : EmuState w) : Prop where
  inside : ∀ b ∈ st.live,
    st.heap.base.toNat + 4 ≤ b.ptr.toNat ∧ b.ptr.toNat + b.size ≤ st.heap.limit
  aligned : ∀ b ∈ st.live, emuHeapAlign ∣ b.ptr.toNat ∧ b.align ∣ b.ptr.toNat
  apart : st.live.Pairwise fun b c =>
    b.ptr.toNat + b.size ≤ c.ptr.toNat - 4 ∨ c.ptr.toNat + c.size ≤ b.ptr.toNat - 4

def EmuHeap.contents (heap : EmuHeap w) (b : EmuBlock w) : List UInt8 :=
  slice heap.bytes (b.ptr.toNat - heap.base.toNat) b.size

def EmuCall.subject : EmuCall w → Option (BitVec w)
  | .realloc ptr _ | .free ptr => some ptr
  | .write block _ _ => some block.ptr
  | _ => none

/-- What a call does to the bytes of the blocks: nothing to other blocks;
`calloc` returns zeroes, and `realloc` what was there. -/
structure EmuCall.Effect (call : EmuCall w) (st st' : EmuState w) : Prop where
  others : ∀ b ∈ st.live, call.subject ≠ some b.ptr →
    b ∈ st'.live ∧ st'.heap.contents b = st.heap.contents b
  zeroed : ∀ nmemb size, call = .calloc nmemb size → ∃ b live, st'.live = b :: live ∧
    st'.heap.contents b = List.replicate (nmemb.toNat * size.toNat) 0
  preserved : ∀ ptr size, call = .realloc ptr size → ∃ b live, st'.live = b :: live ∧
    b.size = size.toNat ∧ ∀ old ∈ st.live, old.ptr = ptr →
      (st'.heap.contents b).take (min old.size size.toNat)
        = (st.heap.contents old).take (min old.size size.toNat)

end SpRtrace.Modules
