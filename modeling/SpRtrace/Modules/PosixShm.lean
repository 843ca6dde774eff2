/-
SpRtrace.Modules.PosixShm — the module for POSIX shared memory,
`src/modules/sp_rtrace_shmposix.c`.

The module has three registries, each a search tree: the values of the
object names (`SpRtrace.Modules.NameRegistry`), what was opened last under
each descriptor, and the descriptor that was mapped last at each address.
They are not cleaned up (`DO_CLEANUP` is 0): what was closed or unmapped
stays registered until the number is used again.

The type of a mapping is that of its descriptor. `munmap` has only the
address, and looks the type up anew in the registries.

What the real function returned is an argument of the wrapper, and `none`
when it failed; there is memory for new nodes. A result `none` is a loop
over hash values that does not end.
-/
import SpRtrace.Lib.TreeMap
import SpRtrace.Modules.FileCalls
import SpRtrace.Modules.NameRegistry

namespace SpRtrace.Modules

open SpRtrace.Lib SpRtrace.Common

variable {w : Nat}

/-! ## Registries -/

inductive FdregType
  | unknown
  | posix
  | file
  deriving DecidableEq, Repr

structure FdregNode where
  type : FdregType
  name : Str
  fd : Int
  mode : BitVec 32
  deriving DecidableEq, Repr

def fdregCompareFd (node1 node2 : FdregNode) : Int := node1.fd - node2.fd

def fdregProbe (fd : Int) : FdregNode := { type := .unknown, name := [], fd, mode := 0 }

def fdregStoreFd (balance : SearchTree FdregNode → SearchTree FdregNode) (root : SearchTree FdregNode)
    (fd : Int) (name : Str) (type : FdregType) (mode : BitVec 32) : SearchTree FdregNode :=
  root.put balance fdregCompareFd (fdregProbe fd) (fun node => { node with name, type, mode })
    { type, name, fd, mode }

def fdregGetFd (root : SearchTree FdregNode) (fd : Int) : Option FdregNode :=
  root.tfind fdregCompareFd (fdregProbe fd)

structure AddrNode (w : Nat) where
  addr : BitVec w
  fd : Int
  deriving DecidableEq, Repr

def addrCompare (node1 node2 : AddrNode w) : Int :=
  if node1.addr < node2.addr then -1 else if node2.addr < node1.addr then 1 else 0

def addrProbe (addr : BitVec w) : AddrNode w := { addr, fd := 0 }

def addrStore (balance : SearchTree (AddrNode w) → SearchTree (AddrNode w)) (root : SearchTree (AddrNode w))
    (addr : BitVec w) (fd : Int) : SearchTree (AddrNode w) :=
  root.put balance addrCompare (addrProbe addr) (fun node => { node with fd }) { addr, fd }

def addrGet (root : SearchTree (AddrNode w)) (addr : BitVec w) : Option (AddrNode w) :=
  root.tfind addrCompare (addrProbe addr)

/-! ## The module -/

/-- The ids that the resources were registered with. -/
structure PosixTypes where
  pshmmap : BitVec 32
  fshmmap : BitVec 32
  shmmap : BitVec 32
  pshmobj : BitVec 32
  pshmfd : BitVec 32
  deriving DecidableEq, Repr

/-- How the implementation balances the trees. -/
structure Balancing (w : Nat) where
  nreg : SearchTree NregNode → SearchTree NregNode
  fdreg : SearchTree FdregNode → SearchTree FdregNode
  addr : SearchTree (AddrNode w) → SearchTree (AddrNode w)

/-- The data of the module, and the function calls that it has written. -/
structure PosixShm (w : Nat) where
  res : PosixTypes
  nregRoot : SearchTree NregNode
  fdregRoot : SearchTree FdregNode
  addrRoot : SearchTree (AddrNode w)
  calls : List (ModuleFcall w × List ModuleFarg)

def PosixShm.init (res : PosixTypes) : PosixShm w :=
  { res, nregRoot := .nil, fdregRoot := .nil, addrRoot := .nil, calls := [] }

/-- `snprintf` into a buffer of `size` bytes. -/
def snprintf (size : Nat) (text : List Char) : Str := text.take (size - 1)

/-- `"0x%lx"` and `"0x%llx"`. -/
def hexLong {n : Nat} (v : BitVec n) : Str := '0' :: 'x' :: printNat 16 v.toNat

def oCreat : BitVec 32 := 0x40

/-- `O_CREAT|O_WRONLY|O_TRUNC`. -/
def creatFlags : BitVec 32 := 0x241

/-- `MAP_ANONYMOUS | MAP_ANON`. -/
def mapAnonymous : BitVec 32 := 0x20

/-- A function call, without the fields that the main module fills in. -/
def posixCall (type : BitVec 32) (name : String) (resTypeId : BitVec 32) (resId : BitVec w)
    (resSize : BitVec 32) : ModuleFcall w :=
  { type, context := 0, timestamp := 0, name := some name.toList, resTypeId, resId, resSize }

def PosixShm.write (t : PosixShm w) (call : ModuleFcall w) (args : List ModuleFarg) : PosixShm w :=
  { t with calls := t.calls ++ [(call, args)] }

variable (balance : Balancing w)

/-- `nreg_get_hash` on the registry of the module. -/
def PosixShm.getHash (t : PosixShm w) (name : Str) : Option (PosixShm w × BitVec 32) := do
  let found ← nregGetHash balance.nreg true t.nregRoot name
  some ({ t with nregRoot := found.1 }, found.2)

def PosixShm.storeFd (t : PosixShm w) (fd : Nat) (name : Str) (type : FdregType) (mode : BitVec 32) :
    PosixShm w :=
  { t with fdregRoot := fdregStoreFd balance.fdreg t.fdregRoot fd name type mode }

/-- The arguments of `shm_open`. -/
def shmOpenArgs (name : Str) (oflag mode : BitVec 32) : List ModuleFarg :=
  [farg "name" name, farg "oflag" (snprintf 16 (hexText oflag)), farg "mode" (snprintf 16 (hexText mode))]

def traceShmOpen (t : PosixShm w) (name : Str) (oflag mode : BitVec 32) : Option Nat → Option (PosixShm w)
  | none => some t
  | some rc =>
      let t := t.storeFd balance rc name .posix oflag
      let fdCall := posixCall ftypeAlloc "shm_open" t.res.pshmfd (BitVec.ofNat w rc) 1
      if oflag &&& oCreat ≠ 0 then do
        let (t, hash) ← t.getHash balance name
        let t := t.write (posixCall ftypeAlloc "shm_open" t.res.pshmobj (hash.setWidth w) 1)
          (shmOpenArgs name oflag mode)
        some (t.write fdCall (shmOpenArgs name oflag mode))
      else some (t.write fdCall (shmOpenArgs name oflag mode))

/-- `trace_shm_unlink`; the real function has returned `rc`. -/
def traceShmUnlink (t : PosixShm w) (name : Str) (rc : Option Nat) : Option (PosixShm w) :=
  match rc with
  | none => some t
  | some _ => do
      let (t, hash) ← t.getHash balance name
      some (t.write (posixCall ftypeFree "shm_unlink" t.res.pshmobj (hash.setWidth w) 0) [farg "name" name])

/-- `trace_open`. -/
def traceShmFileOpen (t : PosixShm w) (pathname : Str) (flags : BitVec 32) : Option Nat → PosixShm w
  | none => t
  | some rc => t.storeFd balance rc pathname .file flags

/-- `trace_open64`. -/
def traceShmFileOpen64 (t : PosixShm w) (pathname : Str) (flags : BitVec 32) : Option Nat → PosixShm w
  | none => t
  | some rc => t.storeFd balance rc pathname .file flags

/-- `trace_creat`. -/
def traceShmFileCreat (t : PosixShm w) (pathname : Str) : Option Nat → PosixShm w
  | none => t
  | some rc => t.storeFd balance rc pathname .file creatFlags

/-- `(pfd ? (pfd->type == FD_POSIX ? res_pshmmap.id : res_fshmmap.id) : res_shmmap.id)`. -/
def PosixTypes.ofFd (res : PosixTypes) : Option FdregNode → BitVec 32
  | none => res.shmmap
  | some pfd => if pfd.type = .posix then res.pshmmap else res.fshmmap

/-- The arguments of `mmap`: an anonymous mapping has no file. -/
def mmapArgs (pfd : Option FdregNode) (length : BitVec w) (prot flags : BitVec 32) (fd : Int)
    (offset : BitVec 64) : List ModuleFarg :=
  [farg "length" (snprintf 16 (hexLong length)), farg "prot" (snprintf 16 (hexText prot)),
    farg "flags" (snprintf 16 (hexText flags))] ++
  if flags &&& mapAnonymous = 0 then
    [farg "fd" (snprintf 16 (printInt (BitVec.ofInt 32 fd))), farg "offset" (snprintf 16 (hexLong offset))] ++
    match pfd with
    | some pfd => [farg "name" pfd.name, farg "mode" (snprintf 16 (hexText pfd.mode))]
    | none => []
  else []

def traceMmapCommon (t : PosixShm w) (name : String) (rc length : BitVec w) (prot flags : BitVec 32)
    (fd : Int) (offset : BitVec 64) : PosixShm w :=
  let t := { t with addrRoot := addrStore balance.addr t.addrRoot rc fd }
  let pfd := fdregGetFd t.fdregRoot fd
  t.write (posixCall ftypeAlloc name (t.res.ofFd pfd) rc (length.setWidth 32))
    (mmapArgs pfd length prot flags fd offset)

/-- `trace_mmap`; an `off_t` has the size of a pointer. -/
def traceMmap (t : PosixShm w) (length : BitVec w) (prot flags : BitVec 32) (fd : Int)
    (offset : BitVec w) : Option (BitVec w) → PosixShm w
  | none => t
  | some rc => traceMmapCommon balance t "mmap" rc length prot flags fd (offset.signExtend 64)

def traceMmap64 (t : PosixShm w) (length : BitVec w) (prot flags : BitVec 32) (fd : Int)
    (offset : BitVec 64) : Option (BitVec w) → PosixShm w
  | none => t
  | some rc => traceMmapCommon balance t "mmap64" rc length prot flags fd offset

def traceMunmap (t : PosixShm w) (addr length : BitVec w) (rc : Option Nat) : PosixShm w :=
  match rc with
  | none => t
  | some _ =>
      let pfd := (addrGet t.addrRoot addr).bind fun paddr => fdregGetFd t.fdregRoot paddr.fd
      t.write (posixCall ftypeFree "munmap" (t.res.ofFd pfd) addr 0)
        [farg "length" (snprintf 16 (hexLong length))]

/-- `trace_close`: only the close of a shared memory object is written. -/
def traceShmClose (t : PosixShm w) (fd : Nat) (rc : Option Nat) : PosixShm w :=
  match rc with
  | none => t
  | some _ =>
      match fdregGetFd t.fdregRoot fd with
      | none => t
      | some pfd =>
          if pfd.type = .posix then
            t.write (posixCall ftypeFree "close" t.res.pshmfd (BitVec.ofNat w fd) 0) []
          else t

/-! ## Calls of a program -/

/-- A call that succeeded, with what it returned. -/
inductive PosixCall (w : Nat)
  | shmOpen (name : Str) (oflag mode : BitVec 32) (rc : Nat)
  | shmUnlink (name : Str)
  | open_ (pathname : Str) (flags : BitVec 32) (rc : Nat)
  | open64 (pathname : Str) (flags : BitVec 32) (rc : Nat)
  | creat (pathname : Str) (rc : Nat)
  | mmap (length : BitVec w) (prot flags : BitVec 32) (fd : Int) (offset : BitVec w) (rc : BitVec w)
  | mmap64 (length : BitVec w) (prot flags : BitVec 32) (fd : Int) (offset : BitVec 64) (rc : BitVec w)
  | munmap (addr length : BitVec w)
  | close (fd : Nat)
  deriving DecidableEq, Repr

def PosixShm.trace (t : PosixShm w) : PosixCall w → Option (PosixShm w)
  | .shmOpen name oflag mode rc => traceShmOpen balance t name oflag mode (some rc)
  | .shmUnlink name => traceShmUnlink balance t name (some 0)
  | .open_ pathname flags rc => some (traceShmFileOpen balance t pathname flags (some rc))
  | .open64 pathname flags rc => some (traceShmFileOpen64 balance t pathname flags (some rc))
  | .creat pathname rc => some (traceShmFileCreat balance t pathname (some rc))
  | .mmap length prot flags fd offset rc => some (traceMmap balance t length prot flags fd offset (some rc))
  | .mmap64 length prot flags fd offset rc =>
      some (traceMmap64 balance t length prot flags fd offset (some rc))
  | .munmap addr length => some (traceMunmap t addr length (some 0))
  | .close fd => some (traceShmClose t fd (some 0))

def posixShmRun (res : PosixTypes) (calls : List (PosixCall w)) : Option (PosixShm w) :=
  calls.foldlM (PosixShm.trace balance) (.init res)

end SpRtrace.Modules
