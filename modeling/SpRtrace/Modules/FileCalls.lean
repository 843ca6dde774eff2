/-
SpRtrace.Modules.FileCalls — all traced functions of the file module,
`src/modules/sp_rtrace_file.c`.

`SpRtrace.Modules.FileTable` has the descriptor table and the wrappers of
`open`, `close` and `dup`; here are those of sockets, of the descriptors
with a type of their own, and of streams, which are a resource of their
own. A stream that is made of a descriptor takes it over: `fdopen` releases
the descriptor, and `fclose` closes it without another call.

What the real function returned is an argument of the wrapper, and `none`
when it failed. A stream is its address.
-/
import SpRtrace.Modules.FileTable

namespace SpRtrace.Modules

open SpRtrace.Lib SpRtrace.Common

variable {w : Nat}

/-! ## Buffers -/

/-- `sizeof(last_sock_info)`, a `struct sockaddr_un`. -/
def sockInfoSize : Nat := 110

def strncpy (buf src : List Char) (n : Nat) : List Char :=
  src.take n ++ List.replicate (n - src.length) '\x00' ++ buf.drop n

def sprintf (buf text : List Char) : List Char := text ++ '\x00' :: buf.drop (text.length + 1)

/-- `"%2x"`. -/
def byteText (b : UInt8) : Str :=
  let text := printNat 16 b.toNat
  List.replicate (2 - text.length) ' ' ++ text

/-! ## The module -/

/-- The data of the module: `res_fp`, and what it knows of the socket that
was bound last. -/
structure FileTracer (w : Nat) extends FileModule w where
  resFp : BitVec 32
  lastSockInfo : List Char
  lastSockFd : Option Nat

def FileTracer.init (resFd resFp : BitVec 32) : FileTracer w :=
  { toFileModule := .init resFd, resFp, lastSockInfo := List.replicate sockInfoSize '\x00',
    lastSockFd := none }

def FileTracer.fds (t : FileTracer w) (f : FileModule w → FileModule w) : FileTracer w :=
  { t with toFileModule := f t.toFileModule }

/-- A function call of a stream is written. -/
def FileTracer.writeFp (t : FileTracer w) (type : BitVec 32) (name : String) (resSize : BitVec 32)
    (fp : BitVec w) (args : List ModuleFarg) : FileTracer w :=
  let call : ModuleFcall w :=
    { type, context := 0, timestamp := 0, name := some name.toList, resTypeId := t.resFp
      resId := fp, resSize }
  { t with calls := t.calls ++ [(call, args)] }

def farg (name : String) (value : Str) : ModuleFarg := { name := name.toList, value := some value }

/-! ## Descriptors -/

/-- The commands of `fcntl` that make a descriptor, with the lowest one they
may return; the others are passed on. -/
inductive FcntlCmd
  | dupfd (newfd : Nat)
  | dupfdCloexec (newfd : Nat)
  | other
  deriving DecidableEq, Repr

def traceFcntl (t : FileTracer w) (fd : Nat) : FcntlCmd → Option Nat → FileTracer w
  | .dupfd newfd, some rc => t.fds fun m => traceDupCommon m "fcntl" fd (some newfd) rc
  | .dupfdCloexec newfd, some rc => t.fds fun m => traceDupCommon m "fcntl" fd (some newfd) rc
  | _, _ => t

def traceSocketCommon (t : FileTracer w) (name : String) (fd : Nat) (domain type protocol : BitVec 32) :
    FileTracer w :=
  t.fds fun m => (m.writeCall ftypeAlloc name 1 fd
    [farg "domain" (hexText domain), farg "type" (hexText type),
      farg "protocol" (hexText protocol)]).setFd fd .socket

def traceSocket (t : FileTracer w) (domain type protocol : BitVec 32) : Option Nat → FileTracer w
  | none => t
  | some rc => traceSocketCommon t "socket" rc domain type protocol

def traceSocketpair (t : FileTracer w) (domain type protocol : BitVec 32) :
    Option (Nat × Nat) → FileTracer w
  | none => t
  | some (fd0, fd1) =>
      traceSocketCommon (traceSocketCommon t "socketpair" fd0 domain type protocol) "socketpair" fd1
        domain type protocol

/-- What `trace_bind_common` reads of a `struct sockaddr`. -/
inductive SockAddr
  | unix (path : Str)
  | inet (address : Vector UInt8 4) (port : BitVec 16)
  | inet6 (address : Vector UInt8 16) (port : BitVec 16)
  | netlink (pid : BitVec 32)
  | packet (protocol : BitVec 16) (ifindex : BitVec 32)
  | other (family : BitVec 16)
  deriving DecidableEq, Repr

/-- The buffer and the arguments for an address. -/
def SockAddr.info (buf : List Char) (addrlen : Nat) : SockAddr → List Char × List ModuleFarg
  | .unix path =>
      let buf := (strncpy buf path (min addrlen sockInfoSize)).take (sockInfoSize - 1) ++ ['\x00']
      (buf, [farg "family" "AF_UNIX".toList, farg "path" (bufferText buf)])
  | .inet address port =>
      let text := ['.'].intercalate (address.toList.map fun b => printNat 10 b.toNat) ++
        ':' :: printNat 10 port.toNat
      (sprintf buf text, [farg "family" "AF_INET".toList, farg "address:port" text])
  | .inet6 address port =>
      let text := [':'].intercalate (address.toList.map byteText) ++ '/' :: printNat 10 port.toNat
      (sprintf buf text, [farg "family" "AF_INET6".toList, farg "address/port" text])
  | .netlink pid =>
      (sprintf buf (printInt pid),
        [farg "family" "AF_NETLINK".toList, farg "dest-PID/socket" (printInt pid)])
  | .packet protocol ifindex =>
      let text := hexText (protocol.setWidth 32) ++ ':' :: hexText ifindex
      (sprintf buf text, [farg "family" "AF_PACKET".toList, farg "protocol:interface" text])
  | .other family =>
      let text := hexText (family.setWidth 32)
      (sprintf buf text, [farg "family" text])

/-- `trace_bind_common`: the socket is released and made anew. -/
def traceBindCommon (t : FileTracer w) (name : String) (fd : Nat) (addr : SockAddr) (addrlen : Nat) :
    FileTracer w :=
  let t := t.fds fun m => m.writeCall ftypeFree name 0 fd []
  let (lastSockInfo, args) := addr.info ('\x00' :: t.lastSockInfo.drop 1) addrlen
  let t := { t with lastSockInfo, lastSockFd := some fd }
  t.fds fun m => (m.writeCall ftypeAlloc name 0 fd args).setFd fd .socket

def traceBind (t : FileTracer w) (sockfd : Nat) (addr : SockAddr) (addrlen : Nat) (rc : BitVec 32) :
    FileTracer w :=
  if rc = 0 then traceBindCommon t "bind" sockfd addr addrlen else t

def traceConnect (t : FileTracer w) (sockfd : Nat) (addr : SockAddr) (addrlen : Nat) (rc : BitVec 32) :
    FileTracer w :=
  if rc = 0 then traceBindCommon t "connect" sockfd addr addrlen else t

/-- `trace_accept_common`: the path is that of the socket bound last. -/
def traceAcceptCommon (t : FileTracer w) (name : String) (sockfd retfd : Nat) : FileTracer w :=
  let path := if t.getFd sockfd = .socket ∧ t.lastSockFd = some sockfd ∧ bufferText t.lastSockInfo ≠ [] then
    [farg "path" (bufferText t.lastSockInfo)] else []
  t.fds fun m => (m.writeCall ftypeAlloc name 1 retfd
    (farg "sockfd" (printNat 10 sockfd) :: path)).setFd retfd .socket

def traceAccept (t : FileTracer w) (sockfd : Nat) : Option Nat → FileTracer w
  | none => t
  | some rc => traceAcceptCommon t "accept" sockfd rc

def traceAccept4 (t : FileTracer w) (sockfd : Nat) : Option Nat → FileTracer w
  | none => t
  | some rc => traceAcceptCommon t "accept4" sockfd rc

def traceFdCommon (t : FileTracer w) (name : String) (type : RtFd) (fd : Nat) : FileTracer w :=
  t.fds fun m => (m.writeCall ftypeAlloc name 1 fd []).setFd fd type

def traceFdCommonFlags (t : FileTracer w) (name : String) (type : RtFd) (fd : Nat) (flags : BitVec 32) :
    FileTracer w :=
  t.fds fun m => (m.writeCall ftypeAlloc name 1 fd [farg "flags" (hexText flags)]).setFd fd type

def traceInotifyInit (t : FileTracer w) : Option Nat → FileTracer w
  | none => t
  | some rc => traceFdCommon t "inotify_init" .inotify rc

def traceInotifyInit1 (t : FileTracer w) (flags : BitVec 32) : Option Nat → FileTracer w
  | none => t
  | some rc => traceFdCommonFlags t "inotify_init1" .inotify rc flags

def traceEventfd (t : FileTracer w) (flags : BitVec 32) : Option Nat → FileTracer w
  | none => t
  | some rc => traceFdCommonFlags t "eventfd" .eventfd rc flags

/-- `trace_signalfd`; `fd` is `none` where -1 is passed. -/
def traceSignalfd (t : FileTracer w) (fd : Option Nat) (flags : BitVec 32) : Option Nat → FileTracer w
  | none => t
  | some rc => if fd = none then traceFdCommonFlags t "signalfd" .signalfd rc flags else t

def traceTimerfdCreate (t : FileTracer w) (flags : BitVec 32) : Option Nat → FileTracer w
  | none => t
  | some rc => traceFdCommonFlags t "timerfd_create" .timerfd rc flags

def traceEpollCreate (t : FileTracer w) : Option Nat → FileTracer w
  | none => t
  | some rc => traceFdCommon t "epoll_create" .epoll rc

def traceEpollCreate1 (t : FileTracer w) (flags : BitVec 32) : Option Nat → FileTracer w
  | none => t
  | some rc => traceFdCommonFlags t "epoll_create1" .epoll rc flags

def traceGetpt (t : FileTracer w) : Option Nat → FileTracer w
  | none => t
  | some rc => traceFdCommon t "getpt" .pty rc

def tracePosixOpenpt (t : FileTracer w) (flags : BitVec 32) : Option Nat → FileTracer w
  | none => t
  | some rc => traceFdCommonFlags t "posix_openpt" .pty rc flags

def tracePipe (t : FileTracer w) : Option (Nat × Nat) → FileTracer w
  | none => t
  | some (fd0, fd1) => traceFdCommon (traceFdCommon t "pipe" .pipe fd0) "pipe" .pipe fd1

def tracePipe2 (t : FileTracer w) (flags : BitVec 32) : Option (Nat × Nat) → FileTracer w
  | none => t
  | some (fd0, fd1) =>
      traceFdCommonFlags (traceFdCommonFlags t "pipe2" .pipe fd0 flags) "pipe2" .pipe fd1 flags

/-! ## Streams -/

def traceFopenCommon (t : FileTracer w) (name : String) (fp : BitVec w) (path mode : Str) : FileTracer w :=
  t.writeFp ftypeAlloc name 1 fp [farg "path" path, farg "mode" mode]

def traceFcloseCommon (t : FileTracer w) (name : String) (fp : BitVec w) : FileTracer w :=
  t.writeFp ftypeFree name 0 fp []

def traceFopen (t : FileTracer w) (path mode : Str) : Option (BitVec w) → FileTracer w
  | none => t
  | some rc => traceFopenCommon t "fopen" rc path mode

def traceFdopen (t : FileTracer w) (fd : Nat) (mode : Str) : Option (BitVec w) → FileTracer w
  | none => t
  | some rc =>
      let t := t.fds fun m => (m.writeCall ftypeFree "fdopen" 0 fd []).setFd fd .closed
      t.writeFp ftypeAlloc "fdopen" 1 rc [farg "fd" (printNat 10 fd), farg "mode" mode]

def traceFreopen (t : FileTracer w) (path mode : Str) (stream : BitVec w) :
    Option (BitVec w) → FileTracer w
  | none => t
  | some rc => traceFopenCommon (traceFcloseCommon t "freopen" stream) "freopen" rc path mode

def tracePopen (t : FileTracer w) (command type : Str) : Option (BitVec w) → FileTracer w
  | none => t
  | some rc => traceFopenCommon t "popen" rc command type

/-- `trace_pclose`: what it returns is the exit status of the command. -/
def tracePclose (t : FileTracer w) (fp : BitVec w) (rc : BitVec 32) : FileTracer w :=
  if rc = 0 then traceFcloseCommon t "pclose" fp else t

def traceFclose (t : FileTracer w) (fp : BitVec w) (rc : BitVec 32) : FileTracer w :=
  if rc = 0 then traceFcloseCommon t "fclose" fp else t

/-- `trace_fcloseall`: the stream is given as -1. -/
def traceFcloseall (t : FileTracer w) (rc : BitVec 32) : FileTracer w :=
  if rc = 0 then traceFcloseCommon t "fcloseall" (BitVec.allOnes w) else t

/-! ## Calls of a program -/

/-- A call that made or closed something, with what it returned. -/
inductive FileCall (w : Nat)
  | fd (call : FdCall)
  | fcntl (fd : Nat) (cmd : FcntlCmd) (rc : Nat)
  | socket (domain type protocol : BitVec 32) (rc : Nat)
  | socketpair (domain type protocol : BitVec 32) (fd0 fd1 : Nat)
  | bind (sockfd : Nat) (addr : SockAddr) (addrlen : Nat)
  | connect (sockfd : Nat) (addr : SockAddr) (addrlen : Nat)
  | accept (sockfd rc : Nat)
  | accept4 (sockfd rc : Nat)
  | inotifyInit (rc : Nat)
  | inotifyInit1 (flags : BitVec 32) (rc : Nat)
  | eventfd (flags : BitVec 32) (rc : Nat)
  | signalfd (fd : Option Nat) (flags : BitVec 32) (rc : Nat)
  | timerfdCreate (flags : BitVec 32) (rc : Nat)
  | epollCreate (rc : Nat)
  | epollCreate1 (flags : BitVec 32) (rc : Nat)
  | getpt (rc : Nat)
  | posixOpenpt (flags : BitVec 32) (rc : Nat)
  | pipe (fd0 fd1 : Nat)
  | pipe2 (flags : BitVec 32) (fd0 fd1 : Nat)
  | fopen (path mode : Str) (rc : BitVec w)
  | fdopen (fd : Nat) (mode : Str) (rc : BitVec w)
  | freopen (path mode : Str) (stream rc : BitVec w)
  | popen (command type : Str) (rc : BitVec w)
  | pclose (fp : BitVec w) (rc : BitVec 32)
  | fclose (fp : BitVec w) (rc : BitVec 32)
  | fcloseall (rc : BitVec 32)
  deriving DecidableEq, Repr

def FileTracer.trace (t : FileTracer w) : FileCall w → FileTracer w
  | .fd call => t.fds fun m => m.trace call
  | .fcntl fd cmd rc => traceFcntl t fd cmd (some rc)
  | .socket domain type protocol rc => traceSocket t domain type protocol (some rc)
  | .socketpair domain type protocol fd0 fd1 => traceSocketpair t domain type protocol (some (fd0, fd1))
  | .bind sockfd addr addrlen => traceBind t sockfd addr addrlen 0
  | .connect sockfd addr addrlen => traceConnect t sockfd addr addrlen 0
  | .accept sockfd rc => traceAccept t sockfd (some rc)
  | .accept4 sockfd rc => traceAccept4 t sockfd (some rc)
  | .inotifyInit rc => traceInotifyInit t (some rc)
  | .inotifyInit1 flags rc => traceInotifyInit1 t flags (some rc)
  | .eventfd flags rc => traceEventfd t flags (some rc)
  | .signalfd fd flags rc => traceSignalfd t fd flags (some rc)
  | .timerfdCreate flags rc => traceTimerfdCreate t flags (some rc)
  | .epollCreate rc => traceEpollCreate t (some rc)
  | .epollCreate1 flags rc => traceEpollCreate1 t flags (some rc)
  | .getpt rc => traceGetpt t (some rc)
  | .posixOpenpt flags rc => tracePosixOpenpt t flags (some rc)
  | .pipe fd0 fd1 => tracePipe t (some (fd0, fd1))
  | .pipe2 flags fd0 fd1 => tracePipe2 t flags (some (fd0, fd1))
  | .fopen path mode rc => traceFopen t path mode (some rc)
  | .fdopen fd mode rc => traceFdopen t fd mode (some rc)
  | .freopen path mode stream rc => traceFreopen t path mode stream (some rc)
  | .popen command type rc => tracePopen t command type (some rc)
  | .pclose fp rc => tracePclose t fp rc
  | .fclose fp rc => traceFclose t fp rc
  | .fcloseall rc => traceFcloseall t rc

def fileTracerRun (resFd resFp : BitVec 32) (calls : List (FileCall w)) : FileTracer w :=
  calls.foldl FileTracer.trace (.init resFd resFp)

end SpRtrace.Modules
