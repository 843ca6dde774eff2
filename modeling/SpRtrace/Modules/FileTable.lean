/-
SpRtrace.Modules.FileTable — the descriptor table of the file module,
`src/modules/sp_rtrace_file.c`.

The module keeps the type of each descriptor. Each wrapper calls the real
function, writes a function call and stores a type in the table. What the
real function returned is an argument of the wrapper here, and `none` when
it failed.
-/
import SpRtrace.Lib.Stdio
import SpRtrace.Modules.Main

namespace SpRtrace.Modules

open SpRtrace.Lib SpRtrace.Common

variable {w : Nat}

/-! ## The table -/

inductive RtFd
  | unknown
  | closed
  | file
  | socket
  | inotify
  | eventfd
  | signalfd
  | timerfd
  | epoll
  | pty
  | pipe
  deriving DecidableEq, Repr

def getFdString : RtFd → Str
  | .unknown => "(unknown)".toList
  | .closed => "(closed)".toList
  | .file => "file".toList
  | .socket => "socket".toList
  | .inotify => "inotify".toList
  | .eventfd => "eventfd".toList
  | .signalfd => "signalfd".toList
  | .timerfd => "timerfd".toList
  | .epoll => "epoll".toList
  | .pty => "pty".toList
  | .pipe => "pipe".toList

def maxFdCount : Nat := 1024

/-- The data of the module: the id of its resource, `rt_fds` and the
function calls it wrote. -/
structure FileModule (w : Nat) where
  resFd : BitVec 32
  rtFds : Vector RtFd maxFdCount
  calls : List (ModuleFcall w × List ModuleFarg)

def FileModule.init (resFd : BitVec 32) : FileModule w :=
  { resFd, rtFds := Vector.replicate maxFdCount .unknown, calls := [] }

def FileModule.setFd (m : FileModule w) (fd : Nat) (type : RtFd) : FileModule w :=
  if h : fd < maxFdCount then { m with rtFds := m.rtFds.set fd type h } else m

def FileModule.getFd (m : FileModule w) (fd : Nat) : RtFd :=
  if h : fd < maxFdCount then m.rtFds[fd] else .unknown

/-! ## The wrappers -/

/-- A function call of a descriptor is written. -/
def FileModule.writeCall (m : FileModule w) (type : BitVec 32) (name : String) (resSize : BitVec 32)
    (fd : Nat) (args : List ModuleFarg) : FileModule w :=
  let call : ModuleFcall w :=
    { type, context := 0, timestamp := 0, name := some name.toList, resTypeId := m.resFd
      resId := BitVec.ofNat w fd, resSize }
  { m with calls := m.calls ++ [(call, args)] }

/-- `"0x%x"`. -/
def hexText (v : BitVec 32) : Str := '0' :: 'x' :: printNat 16 v.toNat

def traceCreat (m : FileModule w) (pathname : Str) (mode : BitVec 32) : Option Nat → FileModule w
  | none => m
  | some rc =>
      (m.writeCall ftypeAlloc "creat" 1 rc
        [{ name := "path".toList, value := some pathname },
          { name := "mode".toList, value := some (hexText mode) }]).setFd rc .file

def traceOpenCommon (m : FileModule w) (name : String) (fd : Nat) (path : Str) (flags : BitVec 32) :
    FileModule w :=
  (m.writeCall ftypeAlloc name 1 fd
    [{ name := "path".toList, value := some path },
      { name := "flags".toList, value := some (hexText flags) }]).setFd fd .file

def traceOpen (m : FileModule w) (pathname : Str) (flags : BitVec 32) : Option Nat → FileModule w
  | none => m
  | some rc => traceOpenCommon m "open" rc pathname flags

def traceOpen64 (m : FileModule w) (pathname : Str) (flags : BitVec 32) :
    Option Nat → FileModule w
  | none => m
  | some rc => traceOpenCommon m "open64" rc pathname flags

def traceOpenat (m : FileModule w) (pathname : Str) (flags : BitVec 32) :
    Option Nat → FileModule w
  | none => m
  | some rc => traceOpenCommon m "openat" rc pathname flags

/-- `trace_close`. The entry that is set is the one of the return value. -/
def traceClose (m : FileModule w) (fd : Nat) : Option Nat → FileModule w
  | none => m
  | some rc => (m.writeCall ftypeFree "close" 0 fd []).setFd rc .closed

/-- `trace_dup_common`; `newfd` is `none` where the source passes -1. -/
def traceDupCommon (m : FileModule w) (name : String) (oldfd : Nat) (newfd : Option Nat)
    (retfd : Nat) : FileModule w :=
  let m := if newfd = some retfd then m.writeCall ftypeFree name 0 retfd [] else m
  let fdtype := m.getFd oldfd
  (m.writeCall ftypeAlloc name 1 retfd
    [{ name := "oldfd".toList, value := some (printNat 10 oldfd) },
      { name := "type".toList, value := some (getFdString fdtype) }]).setFd retfd fdtype

def traceDup (m : FileModule w) (oldfd : Nat) : Option Nat → FileModule w
  | none => m
  | some rc => traceDupCommon m "dup" oldfd none rc

def traceDup2 (m : FileModule w) (oldfd newfd : Nat) : Option Nat → FileModule w
  | none => m
  | some rc => if oldfd ≠ newfd then traceDupCommon m "dup2" oldfd (some newfd) rc else m

def traceDup3 (m : FileModule w) (oldfd newfd : Nat) : Option Nat → FileModule w
  | none => m
  | some rc => if oldfd ≠ newfd then traceDupCommon m "dup3" oldfd (some newfd) rc else m

/-! ## Calls of a program -/

/-- A successful call, with the descriptor it returned. -/
inductive FdCall
  | creat (pathname : Str) (mode : BitVec 32) (fd : Nat)
  | open_ (pathname : Str) (flags : BitVec 32) (fd : Nat)
  | open64 (pathname : Str) (flags : BitVec 32) (fd : Nat)
  | openat (pathname : Str) (flags : BitVec 32) (fd : Nat)
  | close (fd : Nat)
  | dup (oldfd fd : Nat)
  | dup2 (oldfd newfd : Nat)
  | dup3 (oldfd newfd : Nat)
  deriving DecidableEq, Repr

/-- The wrapper of a call: `close` returns zero, and `dup2` and `dup3` the
new descriptor. -/
def FileModule.trace (m : FileModule w) : FdCall → FileModule w
  | .creat pathname mode fd => traceCreat m pathname mode (some fd)
  | .open_ pathname flags fd => traceOpen m pathname flags (some fd)
  | .open64 pathname flags fd => traceOpen64 m pathname flags (some fd)
  | .openat pathname flags fd => traceOpenat m pathname flags (some fd)
  | .close fd => traceClose m fd (some 0)
  | .dup oldfd fd => traceDup m oldfd (some fd)
  | .dup2 oldfd newfd => traceDup2 m oldfd newfd (some newfd)
  | .dup3 oldfd newfd => traceDup3 m oldfd newfd (some newfd)

def fileModuleRun (resFd : BitVec 32) (calls : List FdCall) : FileModule w :=
  calls.foldl FileModule.trace (.init resFd)

end SpRtrace.Modules
