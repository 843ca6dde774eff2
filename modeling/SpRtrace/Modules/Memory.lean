/-
SpRtrace.Modules.Memory — the memory tracing module,
`src/modules/sp_rtrace_memory.c`.

A traced call runs the real allocator function first and then writes its
events with `sp_rtrace_write_function_call`. The real allocator is not
part of the program: a `MemCall` is a call together with what the real
function returned, `MemCall.heap` is what that did to the live blocks,
and `MemCall.Valid` is the only thing asked of it, that a block it
returns was not live. Releasing an address that is not live does nothing
to the heap here, so runs that free wild pointers are included.

Two kinds of runs are defined over the calls. `memHeap` and `memEvents`
run one thread. `threadStep` runs any number of threads: the real call is
one step, each write of an event is another one (`pipe_buffer_lock` makes
it atomic), and the steps of different threads interleave freely.
-/
import SpRtrace.Common.RtraceData

namespace SpRtrace.Modules

open SpRtrace.Common

variable {w : Nat}

/-! ## Events -/

/-- `module_fcall_t` as the tracing functions fill it in. `res_size` is an
`int`, `res_id` a pointer. -/
structure MemEvent (w : Nat) where
  type : BitVec 32
  name : Str
  resSize : BitVec 32
  resId : BitVec w
  deriving DecidableEq, Repr

def allocEvent (name : String) (size : BitVec 32) (id : BitVec w) : MemEvent w :=
  { type := ftypeAlloc, name := name.toList, resSize := size, resId := id }

def freeEvent (name : String) (id : BitVec w) : MemEvent w :=
  { type := ftypeFree, name := name.toList, resSize := 0, resId := id }

/-- `trace_malloc`, after `malloc(size)` returned `rc`. -/
def traceMalloc (size rc : BitVec w) : List (MemEvent w) :=
  if rc ≠ 0 then [allocEvent "malloc" (size.setWidth 32) rc] else []

/-- `trace_calloc`, after `calloc(nmemb, size)` returned `rc`. -/
def traceCalloc (nmemb size rc : BitVec w) : List (MemEvent w) :=
  if rc ≠ 0 then [allocEvent "calloc" ((nmemb * size).setWidth 32) rc] else []

/-- `trace_realloc`, after `realloc(ptr, size)` returned `rc`. -/
def traceRealloc (ptr size rc : BitVec w) : List (MemEvent w) :=
  (if (rc ≠ 0 ∨ size = 0) ∧ ptr ≠ 0 then [freeEvent "realloc" ptr] else []) ++
  (if rc ≠ 0 then [allocEvent "realloc" (size.setWidth 32) rc] else [])

/-- `trace_posix_memalign`, after `posix_memalign(memptr, alignment, size)`
returned `rc` and left `ptr` in `*memptr`. -/
def tracePosixMemalign (size : BitVec w) (rc : BitVec 32) (ptr : BitVec w) : List (MemEvent w) :=
  if rc = 0 then [allocEvent "posix_memalign" (size.setWidth 32) ptr] else []

def traceFree (ptr : BitVec w) : List (MemEvent w) := [freeEvent "free" ptr]

/-! ## Calls of the traced program -/

/-- A traced call with the result of the real function. -/
inductive MemCall (w : Nat)
  | malloc (size rc : BitVec w)
  | calloc (nmemb size rc : BitVec w)
  | realloc (ptr size rc : BitVec w)
  | posixMemalign (size : BitVec w) (rc : BitVec 32) (ptr : BitVec w)
  | free (ptr : BitVec w)
  deriving DecidableEq, Repr

/-- The events a call writes, in their order. -/
def MemCall.events : MemCall w → List (MemEvent w)
  | .malloc size rc => traceMalloc size rc
  | .calloc nmemb size rc => traceCalloc nmemb size rc
  | .realloc ptr size rc => traceRealloc ptr size rc
  | .posixMemalign size rc ptr => tracePosixMemalign size rc ptr
  | .free ptr => traceFree ptr

/-- A live block: its address and its requested size. -/
structure Block (w : Nat) where
  addr : BitVec w
  size : Nat
  deriving DecidableEq, Repr

/-- The address is that of a live block. -/
def Live (heap : List (Block w)) (addr : BitVec w) : Prop := addr ∈ heap.map Block.addr

instance (heap : List (Block w)) (addr : BitVec w) : Decidable (Live heap addr) :=
  inferInstanceAs (Decidable (addr ∈ heap.map Block.addr))

def releaseBlock (heap : List (Block w)) (addr : BitVec w) : List (Block w) :=
  heap.filter fun b => b.addr ≠ addr

/-- A new block, unless the function returned NULL. -/
def addBlock (heap : List (Block w)) (rc : BitVec w) (size : Nat) : List (Block w) :=
  if rc ≠ 0 then heap ++ [{ addr := rc, size }] else heap

/-- What the real function does to the live blocks. `realloc` leaves the
old block live exactly when it fails with a non-zero size. -/
def MemCall.heap (heap : List (Block w)) : MemCall w → List (Block w)
  | .malloc size rc => addBlock heap rc size.toNat
  | .calloc nmemb size rc => addBlock heap rc (nmemb.toNat * size.toNat)
  | .realloc ptr size rc =>
      if rc ≠ 0 ∨ size = 0 then addBlock (releaseBlock heap ptr) rc size.toNat else heap
  | .posixMemalign size rc ptr => if rc = 0 then addBlock heap ptr size.toNat else heap
  | .free ptr => releaseBlock heap ptr

/-- The real allocator returns NULL or an address that is not live; for
`realloc` the old block is released first. -/
def MemCall.Valid (heap : List (Block w)) : MemCall w → Prop
  | .malloc _ rc => rc ≠ 0 → ¬ Live heap rc
  | .calloc _ _ rc => rc ≠ 0 → ¬ Live heap rc
  | .realloc ptr _ rc => rc ≠ 0 → ¬ Live (releaseBlock heap ptr) rc
  | .posixMemalign _ rc ptr => rc = 0 → ptr ≠ 0 → ¬ Live heap ptr
  | .free _ => True

instance (heap : List (Block w)) : (c : MemCall w) → Decidable (c.Valid heap)
  | .malloc _ rc => inferInstanceAs (Decidable (rc ≠ 0 → ¬ Live heap rc))
  | .calloc _ _ rc => inferInstanceAs (Decidable (rc ≠ 0 → ¬ Live heap rc))
  | .realloc ptr _ rc => inferInstanceAs (Decidable (rc ≠ 0 → ¬ Live (releaseBlock heap ptr) rc))
  | .posixMemalign _ rc ptr => inferInstanceAs (Decidable (rc = 0 → ptr ≠ 0 → ¬ Live heap ptr))
  | .free _ => inferInstanceAs (Decidable True)

/-- A `posix_memalign` that succeeds and stores NULL, which it may do for
the size zero. -/
def MemCall.StoresNull : MemCall w → Prop
  | .posixMemalign _ rc ptr => rc = 0 ∧ ptr = 0
  | _ => False

instance : (c : MemCall w) → Decidable c.StoresNull
  | .posixMemalign _ rc ptr => inferInstanceAs (Decidable (rc = 0 ∧ ptr = 0))
  | .malloc .. => inferInstanceAs (Decidable False)
  | .calloc .. => inferInstanceAs (Decidable False)
  | .realloc .. => inferInstanceAs (Decidable False)
  | .free .. => inferInstanceAs (Decidable False)

/-! ## One thread -/

def memHeap (run : List (MemCall w)) : List (Block w) :=
  run.foldl MemCall.heap []

def memEvents (run : List (MemCall w)) : List (MemEvent w) :=
  run.flatMap MemCall.events

/-- The real allocator behaves in every step of a run from the given heap. -/
def ValidFrom (heap : List (Block w)) : List (MemCall w) → Prop
  | [] => True
  | c :: run => c.Valid heap ∧ ValidFrom (c.heap heap) run

/-- The real allocator behaves in every step of the run. -/
def ValidRun (run : List (MemCall w)) : Prop := ValidFrom [] run

instance decidableValidFrom (heap : List (Block w)) :
    (run : List (MemCall w)) → Decidable (ValidFrom heap run)
  | [] => inferInstanceAs (Decidable True)
  | c :: run =>
      have := decidableValidFrom (c.heap heap) run
      inferInstanceAs (Decidable (c.Valid heap ∧ ValidFrom (c.heap heap) run))

instance (run : List (MemCall w)) : Decidable (ValidRun run) :=
  inferInstanceAs (Decidable (ValidFrom [] run))

/-! ## Threads -/

/-- The shared state: the live blocks, the packet stream, and the events
that threads still have to write, in the order of their real calls. -/
structure ThreadState (τ : Type) (w : Nat) where
  heap : List (Block w)
  stream : List (MemEvent w)
  owed : List (τ × MemEvent w)
  deriving DecidableEq, Repr

def ThreadState.init {τ : Type} : ThreadState τ w := { heap := [], stream := [], owed := [] }

/-- A step of the thread `t`: the real function of a traced call, or the
write of the next event of its last call. -/
inductive ThreadAct (τ : Type) (w : Nat)
  | call (t : τ) (c : MemCall w)
  | write (t : τ)
  deriving DecidableEq, Repr

variable {τ : Type} [DecidableEq τ]

/-- The first event the thread owes, with what is owed before and after it. -/
def nextOwed (t : τ) : List (τ × MemEvent w) →
    Option (List (τ × MemEvent w) × MemEvent w × List (τ × MemEvent w))
  | [] => none
  | p :: owed =>
      if p.1 = t then some ([], p.2, owed)
      else (nextOwed t owed).map fun (pre, e, post) => (p :: pre, e, post)

/-- One step, when the thread can make it: it starts a call only when it
owes nothing. -/
def threadStep (s : ThreadState τ w) : ThreadAct τ w → Option (ThreadState τ w)
  | .call t c =>
      if (nextOwed t s.owed).isNone ∧ c.Valid s.heap then
        some { s with
          heap := c.heap s.heap, owed := s.owed ++ c.events.map fun e => (t, e) }
      else none
  | .write t =>
      (nextOwed t s.owed).map fun (pre, e, post) =>
        { s with stream := s.stream ++ [e], owed := pre ++ post }

/-- An interleaving of the steps of all threads. -/
def threadRun (acts : List (ThreadAct τ w)) : Option (ThreadState τ w) :=
  acts.foldlM threadStep ThreadState.init

end SpRtrace.Modules
