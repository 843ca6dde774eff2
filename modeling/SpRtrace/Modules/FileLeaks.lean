/-
SpRtrace.Modules.FileLeaks — the leak filter leaves what a program has not
closed.

What a program has to close are the descriptors and the streams that the
traced functions returned to it (`FileCall.handles`); a descriptor that a
stream took over goes with the stream. Each wrapper writes the releases and
allocations of its call (`trace_writes`), and these change the ledger as
the call changes what is open (`call_moves`).

A close that fails is not written, although the stream is gone: `pclose`
returns the exit status of the command. `fcloseall` names no stream. The
runs here are without them (`FileCall.Reported`).
-/
import SpRtrace.Modules.FileCalls
import SpRtrace.Postproc.RecordedCalls

namespace SpRtrace.Modules

open SpRtrace.Lib SpRtrace.Common SpRtrace.Postproc

variable {w : Nat}

/-! ## What a program has open -/

inductive Handle (w : Nat)
  | fd (n : Nat)
  | fp (p : BitVec w)
  deriving DecidableEq, Repr

def Handle.isFd : Handle w → Bool
  | .fd _ => true
  | .fp _ => false

def Handle.key (resFd resFp : BitVec 32) : Handle w → BitVec w × BitVec w
  | .fd n => (resFd.setWidth w, BitVec.ofNat w n)
  | .fp p => (resFp.setWidth w, p)

/-- A descriptor is an `int`. -/
def Handle.Small : Handle w → Prop
  | .fd n => n < 2 ^ 31
  | .fp _ => True

instance : (h : Handle w) → Decidable h.Small
  | .fd n => inferInstanceAs (Decidable (n < 2 ^ 31))
  | .fp _ => inferInstanceAs (Decidable True)

/-- The descriptors behind a call of the descriptor table. -/
def FdCall.handles (o : Finset (Handle w)) : FdCall → Finset (Handle w)
  | .creat _ _ fd => insert (.fd fd) o
  | .open_ _ _ fd => insert (.fd fd) o
  | .open64 _ _ fd => insert (.fd fd) o
  | .openat _ _ fd => insert (.fd fd) o
  | .close fd => o.erase (.fd fd)
  | .dup _ fd => insert (.fd fd) o
  | .dup2 oldfd newfd => if oldfd = newfd then o else insert (.fd newfd) o
  | .dup3 oldfd newfd => if oldfd = newfd then o else insert (.fd newfd) o

/-- **What the program has to close** behind a call. -/
def FileCall.handles (o : Finset (Handle w)) : FileCall w → Finset (Handle w)
  | .fd call => call.handles o
  | .fcntl _ (.dupfd _) rc => insert (.fd rc) o
  | .fcntl _ (.dupfdCloexec _) rc => insert (.fd rc) o
  | .fcntl _ .other _ => o
  | .socket _ _ _ rc => insert (.fd rc) o
  | .socketpair _ _ _ fd0 fd1 => insert (.fd fd1) (insert (.fd fd0) o)
  | .bind .. => o
  | .connect .. => o
  | .accept _ rc => insert (.fd rc) o
  | .accept4 _ rc => insert (.fd rc) o
  | .inotifyInit rc => insert (.fd rc) o
  | .inotifyInit1 _ rc => insert (.fd rc) o
  | .eventfd _ rc => insert (.fd rc) o
  | .signalfd arg _ rc => if arg = none then insert (.fd rc) o else o
  | .timerfdCreate _ rc => insert (.fd rc) o
  | .epollCreate rc => insert (.fd rc) o
  | .epollCreate1 _ rc => insert (.fd rc) o
  | .getpt rc => insert (.fd rc) o
  | .posixOpenpt _ rc => insert (.fd rc) o
  | .pipe fd0 fd1 => insert (.fd fd1) (insert (.fd fd0) o)
  | .pipe2 _ fd0 fd1 => insert (.fd fd1) (insert (.fd fd0) o)
  | .fopen _ _ rc => insert (.fp rc) o
  | .fdopen n _ rc => insert (.fp rc) (o.erase (.fd n))
  | .freopen _ _ stream rc => insert (.fp rc) (o.erase (.fp stream))
  | .popen _ _ rc => insert (.fp rc) o
  | .pclose fp _ => o.erase (.fp fp)
  | .fclose fp _ => o.erase (.fp fp)
  | .fcloseall _ => o.filter fun h => h.isFd

def FileCall.returned : FileCall w → List (Handle w)
  | .fd (.creat _ _ n) => [.fd n]
  | .fd (.open_ _ _ n) => [.fd n]
  | .fd (.open64 _ _ n) => [.fd n]
  | .fd (.openat _ _ n) => [.fd n]
  | .fd (.dup _ n) => [.fd n]
  | .fd _ => []
  | .fcntl _ (.dupfd _) rc => [.fd rc]
  | .fcntl _ (.dupfdCloexec _) rc => [.fd rc]
  | .fcntl _ .other _ => []
  | .socket _ _ _ rc => [.fd rc]
  | .socketpair _ _ _ fd0 fd1 => [.fd fd0, .fd fd1]
  | .accept _ rc => [.fd rc]
  | .accept4 _ rc => [.fd rc]
  | .inotifyInit rc => [.fd rc]
  | .inotifyInit1 _ rc => [.fd rc]
  | .eventfd _ rc => [.fd rc]
  | .signalfd arg _ rc => if arg = none then [.fd rc] else []
  | .timerfdCreate _ rc => [.fd rc]
  | .epollCreate rc => [.fd rc]
  | .epollCreate1 _ rc => [.fd rc]
  | .getpt rc => [.fd rc]
  | .posixOpenpt _ rc => [.fd rc]
  | .pipe fd0 fd1 => [.fd fd0, .fd fd1]
  | .pipe2 _ fd0 fd1 => [.fd fd0, .fd fd1]
  | .fopen _ _ rc => [.fp rc]
  | .fdopen _ _ rc => [.fp rc]
  | .popen _ _ rc => [.fp rc]
  | _ => []

/-- What the C library promises: a handle that is returned is not open, and
`freopen` returns its stream. A descriptor that is asked for is an `int`. -/
def FileCall.Valid (o : Finset (Handle w)) (c : FileCall w) : Prop :=
  c.returned.Nodup ∧ (∀ h ∈ c.returned, h ∉ o ∧ h.Small) ∧
    match c with
    | .fd (.dup2 _ newfd) => newfd < 2 ^ 31
    | .fd (.dup3 _ newfd) => newfd < 2 ^ 31
    | .fd (.close n) => n < 2 ^ 31
    | .fdopen n _ _ => n < 2 ^ 31
    | .freopen _ _ stream rc => rc = stream
    | _ => True

/-- The module sees what the call closes, and only what the program has open
is bound. -/
def FileCall.Reported (o : Finset (Handle w)) : FileCall w → Prop
  | .bind sockfd _ _ => .fd sockfd ∈ o
  | .connect sockfd _ _ => .fd sockfd ∈ o
  | .pclose _ rc => rc = 0
  | .fclose _ rc => rc = 0
  | .fcloseall _ => ∀ h ∈ o, h.isFd
  | _ => True

def ReportedRun (o : Finset (Handle w)) : List (FileCall w) → Prop
  | [] => True
  | c :: calls => c.Valid o ∧ c.Reported o ∧ ReportedRun (c.handles o) calls

/-! ## What the module writes -/

/-- An allocation or a release of a handle. -/
inductive Move (w : Nat)
  | opens (name : String) (size : BitVec 32) (h : Handle w)
  | closes (name : String) (h : Handle w)
  deriving DecidableEq, Repr

def Move.call (resFd resFp : BitVec 32) : Move w → ResourceCall w
  | .opens name resSize h =>
      { type := ftypeAlloc, name := name.toList, resTypeId := (h.key resFd resFp).1,
        resId := (h.key resFd resFp).2, resSize }
  | .closes name h =>
      { type := ftypeFree, name := name.toList, resTypeId := (h.key resFd resFp).1,
        resId := (h.key resFd resFp).2, resSize := 0 }

/-- A duplicate closes the descriptor that was asked for, if it is that one. -/
def dupMoves (name : String) (newfd : Option Nat) (retfd : Nat) : List (Move w) :=
  (if newfd = some retfd then [.closes name (.fd retfd)] else []) ++ [.opens name 1 (.fd retfd)]

/-- The moves of a call of the descriptor table. -/
def FdCall.moves : FdCall → List (Move w)
  | .creat _ _ fd => [.opens "creat" 1 (.fd fd)]
  | .open_ _ _ fd => [.opens "open" 1 (.fd fd)]
  | .open64 _ _ fd => [.opens "open64" 1 (.fd fd)]
  | .openat _ _ fd => [.opens "openat" 1 (.fd fd)]
  | .close fd => [.closes "close" (.fd fd)]
  | .dup _ fd => dupMoves "dup" none fd
  | .dup2 oldfd newfd => if oldfd = newfd then [] else dupMoves "dup2" (some newfd) newfd
  | .dup3 oldfd newfd => if oldfd = newfd then [] else dupMoves "dup3" (some newfd) newfd

def FileCall.moves : FileCall w → List (Move w)
  | .fd call => call.moves
  | .fcntl _ (.dupfd newfd) rc => dupMoves "fcntl" (some newfd) rc
  | .fcntl _ (.dupfdCloexec newfd) rc => dupMoves "fcntl" (some newfd) rc
  | .fcntl _ .other _ => []
  | .socket _ _ _ rc => [.opens "socket" 1 (.fd rc)]
  | .socketpair _ _ _ fd0 fd1 => [.opens "socketpair" 1 (.fd fd0), .opens "socketpair" 1 (.fd fd1)]
  | .bind sockfd _ _ => [.closes "bind" (.fd sockfd), .opens "bind" 0 (.fd sockfd)]
  | .connect sockfd _ _ => [.closes "connect" (.fd sockfd), .opens "connect" 0 (.fd sockfd)]
  | .accept _ rc => [.opens "accept" 1 (.fd rc)]
  | .accept4 _ rc => [.opens "accept4" 1 (.fd rc)]
  | .inotifyInit rc => [.opens "inotify_init" 1 (.fd rc)]
  | .inotifyInit1 _ rc => [.opens "inotify_init1" 1 (.fd rc)]
  | .eventfd _ rc => [.opens "eventfd" 1 (.fd rc)]
  | .signalfd arg _ rc => if arg = none then [.opens "signalfd" 1 (.fd rc)] else []
  | .timerfdCreate _ rc => [.opens "timerfd_create" 1 (.fd rc)]
  | .epollCreate rc => [.opens "epoll_create" 1 (.fd rc)]
  | .epollCreate1 _ rc => [.opens "epoll_create1" 1 (.fd rc)]
  | .getpt rc => [.opens "getpt" 1 (.fd rc)]
  | .posixOpenpt _ rc => [.opens "posix_openpt" 1 (.fd rc)]
  | .pipe fd0 fd1 => [.opens "pipe" 1 (.fd fd0), .opens "pipe" 1 (.fd fd1)]
  | .pipe2 _ fd0 fd1 => [.opens "pipe2" 1 (.fd fd0), .opens "pipe2" 1 (.fd fd1)]
  | .fopen _ _ rc => [.opens "fopen" 1 (.fp rc)]
  | .fdopen n _ rc => [.closes "fdopen" (.fd n), .opens "fdopen" 1 (.fp rc)]
  | .freopen _ _ stream rc => [.closes "freopen" (.fp stream), .opens "freopen" 1 (.fp rc)]
  | .popen _ _ rc => [.opens "popen" 1 (.fp rc)]
  | .pclose fp rc => if rc = 0 then [.closes "pclose" (.fp fp)] else []
  | .fclose fp rc => if rc = 0 then [.closes "fclose" (.fp fp)] else []
  | .fcloseall rc => if rc = 0 then [.closes "fcloseall" (.fp (BitVec.allOnes w))] else []

/-- The function calls that the module wrote. -/
def FileTracer.events (t : FileTracer w) : List (ResourceCall w) := t.calls.map fun c => resourceCall c.1

@[simp] theorem setFd_calls (m : FileModule w) (fd : Nat) (type : RtFd) :
    (m.setFd fd type).calls = m.calls := by
  unfold FileModule.setFd
  split <;> rfl

@[simp] theorem setFd_resFd (m : FileModule w) (fd : Nat) (type : RtFd) :
    (m.setFd fd type).resFd = m.resFd := by
  unfold FileModule.setFd
  split <;> rfl

@[simp] theorem writeCall_calls (m : FileModule w) (type : BitVec 32) (name : String) (resSize : BitVec 32)
    (fd : Nat) (args : List ModuleFarg) : (m.writeCall type name resSize fd args).calls
      = m.calls ++ [({ type, context := 0, timestamp := 0, name := some name.toList, resTypeId := m.resFd
                       resId := BitVec.ofNat w fd, resSize }, args)] := rfl

@[simp] theorem writeCall_resFd (m : FileModule w) (type : BitVec 32) (name : String) (resSize : BitVec 32)
    (fd : Nat) (args : List ModuleFarg) : (m.writeCall type name resSize fd args).resFd = m.resFd := rfl

structure Writes (t t' : FileTracer w) (moves : List (Move w)) : Prop where
  events : t'.events = t.events ++ moves.map (Move.call t.resFd t.resFp)
  resFd : t'.resFd = t.resFd
  resFp : t'.resFp = t.resFp

variable {t t' t'' : FileTracer w} {moves more : List (Move w)}

theorem Writes.refl (t : FileTracer w) : Writes t t [] := ⟨by simp, rfl, rfl⟩

theorem Writes.trans (h : Writes t t' moves) (h' : Writes t' t'' more) : Writes t t'' (moves ++ more) := by
  refine ⟨?_, h'.resFd.trans h.resFd, h'.resFp.trans h.resFp⟩
  rw [h'.events, h.events, h.resFd, h.resFp, List.map_append, List.append_assoc]

theorem Writes.when (p : Prop) [Decidable p] (h : Writes t t' moves) :
    Writes t (if p then t' else t) (if p then moves else []) := by
  split
  · exact h
  · exact .refl t

/-- A descriptor that is opened. -/
theorem writes_fd (t : FileTracer w) (name : String) (resSize : BitVec 32) (fd : Nat)
    (args : List ModuleFarg) (type : RtFd) :
    Writes t (t.fds fun m => (m.writeCall ftypeAlloc name resSize fd args).setFd fd type)
      [.opens name resSize (.fd fd)] :=
  ⟨by simp [FileTracer.events, FileTracer.fds, resourceCall, Move.call, Handle.key], by simp [FileTracer.fds],
    rfl⟩

/-- A descriptor that is closed. -/
theorem writes_closes (t : FileTracer w) (name : String) (fd : Nat) (f : FileModule w → FileModule w)
    (hf : ∀ m, (f m).calls = (m.writeCall ftypeFree name 0 fd []).calls ∧ (f m).resFd = m.resFd) :
    Writes t (t.fds f) [.closes name (.fd fd)] := by
  obtain ⟨hcalls, hres⟩ := hf t.toFileModule
  exact ⟨by simp [FileTracer.events, FileTracer.fds, hcalls, resourceCall, Move.call, Handle.key], hres, rfl⟩

/-- A stream. -/
theorem writes_fopen (t : FileTracer w) (name : String) (resSize : BitVec 32) (fp : BitVec w)
    (args : List ModuleFarg) :
    Writes t (t.writeFp ftypeAlloc name resSize fp args) [.opens name resSize (.fp fp)] :=
  ⟨by simp [FileTracer.events, FileTracer.writeFp, resourceCall, Move.call, Handle.key], rfl, rfl⟩

theorem writes_fclose (t : FileTracer w) (name : String) (fp : BitVec w) :
    Writes t (traceFcloseCommon t name fp) [.closes name (.fp fp)] :=
  ⟨by simp [FileTracer.events, traceFcloseCommon, FileTracer.writeFp, resourceCall, Move.call, Handle.key],
    rfl, rfl⟩

theorem writes_dup (t : FileTracer w) (name : String) (oldfd : Nat) (newfd : Option Nat) (retfd : Nat) :
    Writes t (t.fds fun m => traceDupCommon m name oldfd newfd retfd) (dupMoves name newfd retfd) := by
  unfold traceDupCommon dupMoves
  split
  · exact (writes_closes t name retfd _ fun _ => ⟨rfl, rfl⟩).trans (writes_fd _ name 1 retfd _ _)
  · exact writes_fd t name 1 retfd _ _

theorem writes_bind (t : FileTracer w) (name : String) (fd : Nat) (addr : SockAddr) (addrlen : Nat) :
    Writes t (traceBindCommon t name fd addr addrlen) [.closes name (.fd fd), .opens name 0 (.fd fd)] := by
  have hcloses := writes_closes t name fd (fun m => m.writeCall ftypeFree name 0 fd []) fun _ => ⟨rfl, rfl⟩
  have hinfo : ∀ (t₁ : FileTracer w) info sock, Writes t₁ { t₁ with lastSockInfo := info, lastSockFd := sock } [] :=
    fun t₁ _ _ => ⟨(List.append_nil _).symm, rfl, rfl⟩
  exact (hcloses.trans (hinfo _ _ _)).trans (writes_fd _ name 0 fd _ _)

/-- **One wrapper** writes the moves of its call. -/
theorem trace_writes (t : FileTracer w) (c : FileCall w) : Writes t (t.trace c) c.moves := by
  cases c with
  | fd call =>
    cases call with
    | creat pathname mode fd => exact writes_fd t "creat" 1 fd _ _
    | open_ pathname flags fd => exact writes_fd t "open" 1 fd _ _
    | open64 pathname flags fd => exact writes_fd t "open64" 1 fd _ _
    | openat pathname flags fd => exact writes_fd t "openat" 1 fd _ _
    | close fd =>
      exact writes_closes t "close" fd (fun m => traceClose m fd (some 0)) fun m =>
        ⟨by simp [traceClose], by simp [traceClose]⟩
    | dup oldfd fd => exact writes_dup t "dup" oldfd none fd
    | dup2 oldfd newfd =>
      by_cases heq : oldfd = newfd
      · simpa [FileTracer.trace, FileModule.trace, traceDup2, FileTracer.fds, FileCall.moves, FdCall.moves, heq]
          using Writes.refl t
      · simpa [FileTracer.trace, FileModule.trace, traceDup2, FileCall.moves, FdCall.moves, heq]
          using writes_dup t "dup2" oldfd (some newfd) newfd
    | dup3 oldfd newfd =>
      by_cases heq : oldfd = newfd
      · simpa [FileTracer.trace, FileModule.trace, traceDup3, FileTracer.fds, FileCall.moves, FdCall.moves, heq]
          using Writes.refl t
      · simpa [FileTracer.trace, FileModule.trace, traceDup3, FileCall.moves, FdCall.moves, heq]
          using writes_dup t "dup3" oldfd (some newfd) newfd
  | fcntl fd cmd rc =>
    cases cmd with
    | dupfd newfd => exact writes_dup t "fcntl" fd (some newfd) rc
    | dupfdCloexec newfd => exact writes_dup t "fcntl" fd (some newfd) rc
    | other => exact .refl t
  | socket domain type protocol rc => exact writes_fd t "socket" 1 rc _ _
  | socketpair domain type protocol fd0 fd1 =>
    exact (writes_fd t "socketpair" 1 fd0 _ _).trans (writes_fd _ "socketpair" 1 fd1 _ _)
  | bind sockfd addr addrlen => exact writes_bind t "bind" sockfd addr addrlen
  | connect sockfd addr addrlen => exact writes_bind t "connect" sockfd addr addrlen
  | accept sockfd rc => exact writes_fd t "accept" 1 rc _ _
  | accept4 sockfd rc => exact writes_fd t "accept4" 1 rc _ _
  | inotifyInit rc => exact writes_fd t "inotify_init" 1 rc _ _
  | inotifyInit1 flags rc => exact writes_fd t "inotify_init1" 1 rc _ _
  | eventfd flags rc => exact writes_fd t "eventfd" 1 rc _ _
  | signalfd fd flags rc => exact (writes_fd t "signalfd" 1 rc _ _).when (fd = none)
  | timerfdCreate flags rc => exact writes_fd t "timerfd_create" 1 rc _ _
  | epollCreate rc => exact writes_fd t "epoll_create" 1 rc _ _
  | epollCreate1 flags rc => exact writes_fd t "epoll_create1" 1 rc _ _
  | getpt rc => exact writes_fd t "getpt" 1 rc _ _
  | posixOpenpt flags rc => exact writes_fd t "posix_openpt" 1 rc _ _
  | pipe fd0 fd1 => exact (writes_fd t "pipe" 1 fd0 _ _).trans (writes_fd _ "pipe" 1 fd1 _ _)
  | pipe2 flags fd0 fd1 => exact (writes_fd t "pipe2" 1 fd0 _ _).trans (writes_fd _ "pipe2" 1 fd1 _ _)
  | fopen path mode rc => exact writes_fopen t "fopen" 1 rc _
  | fdopen fd mode rc =>
    exact (writes_closes t "fdopen" fd _ fun m => ⟨by simp, by simp⟩).trans (writes_fopen _ "fdopen" 1 rc _)
  | freopen path mode stream rc => exact (writes_fclose t "freopen" stream).trans (writes_fopen _ "freopen" 1 rc _)
  | popen command type rc => exact writes_fopen t "popen" 1 rc _
  | pclose fp rc => exact (writes_fclose t "pclose" fp).when (rc = 0)
  | fclose fp rc => exact (writes_fclose t "fclose" fp).when (rc = 0)
  | fcloseall rc => exact (writes_fclose t "fcloseall" (BitVec.allOnes w)).when (rc = 0)

/-! ## Moves and handles -/

def Move.handle : Move w → Handle w
  | .opens _ _ h => h
  | .closes _ h => h

def Move.after (o : Finset (Handle w)) : Move w → Finset (Handle w)
  | .opens _ _ h => insert h o
  | .closes _ h => o.erase h

/-- The moves open what is not open, and only descriptors that are small. -/
def MovesNew (o : Finset (Handle w)) : List (Move w) → Prop
  | [] => True
  | m :: moves => (match m with | .opens _ _ h => h ∉ o | .closes .. => True) ∧ m.handle.Small ∧
      MovesNew (m.after o) moves

/-- What one call does to the handles is what its moves do. -/
structure Moves (o : Finset (Handle w)) (moves : List (Move w)) (o' : Finset (Handle w)) : Prop where
  new : MovesNew o moves
  after : moves.foldl Move.after o = o'

theorem moves_opens {o : Finset (Handle w)} (name : String) (size : BitVec 32) {h : Handle w} (hnew : h ∉ o)
    (hsmall : h.Small) : Moves o [.opens name size h] (insert h o) :=
  ⟨⟨hnew, hsmall, trivial⟩, rfl⟩

theorem moves_opens_two {o : Finset (Handle w)} (name : String) {h h' : Handle w} (hnd : [h, h'].Nodup)
    (hnew : ∀ x ∈ [h, h'], x ∉ o ∧ x.Small) :
    Moves o [.opens name 1 h, .opens name 1 h'] (insert h' (insert h o)) := by
  have hne : h' ≠ h := by simpa [eq_comm] using hnd
  have h₁ := hnew h (by simp)
  have h₂ := hnew h' (by simp)
  exact ⟨⟨h₁.1, h₁.2, by simp [Move.after, hne, h₂.1], h₂.2, trivial⟩, rfl⟩

theorem moves_closes {o : Finset (Handle w)} (name : String) {h : Handle w} (hsmall : h.Small) :
    Moves o [.closes name h] (o.erase h) :=
  ⟨⟨trivial, hsmall, trivial⟩, rfl⟩

theorem moves_replace {o : Finset (Handle w)} (name : String) (size : BitVec 32) {h h' : Handle w}
    (hsmall : h.Small) (hnew : h' ∉ o.erase h) (hsmall' : h'.Small) :
    Moves o [.closes name h, .opens name size h'] (insert h' (o.erase h)) :=
  ⟨⟨trivial, hsmall, hnew, hsmall', trivial⟩, rfl⟩

theorem moves_dup {o : Finset (Handle w)} (name : String) (newfd : Option Nat) {retfd : Nat}
    (hnew : newfd = some retfd ∨ .fd retfd ∉ o) (hsmall : retfd < 2 ^ 31) :
    Moves o (dupMoves name newfd retfd) (insert (.fd retfd) o) := by
  unfold dupMoves
  split
  · have hreplace : Moves o [.closes name (.fd retfd), .opens name 1 (.fd retfd)]
        (insert (.fd retfd) (o.erase (.fd retfd))) :=
      moves_replace name 1 hsmall (Finset.notMem_erase _ _) hsmall
    have hsame : insert (.fd retfd) (o.erase (.fd retfd)) = insert (.fd retfd : Handle w) o := by
      ext h
      by_cases hh : h = .fd retfd <;> simp [hh]
    rwa [hsame] at hreplace
  next hne => exact moves_opens name 1 (hnew.resolve_left hne) hsmall

/-- **One call**: its moves open and close what the call does. -/
theorem call_moves {o : Finset (Handle w)} (hsmall : ∀ h ∈ o, h.Small) {c : FileCall w}
    (hvalid : c.Valid o) (hrep : c.Reported o) : Moves o c.moves (c.handles o) := by
  obtain ⟨hnd, hnew, hpromise⟩ := hvalid
  have hone : ∀ name size h, c.returned = [h] → Moves o [.opens name size h] (insert h o) :=
    fun name size h hreturned =>
      have h' := hnew h (by simp [hreturned])
      moves_opens name size h'.1 h'.2
  have htwo : ∀ name h h', c.returned = [h, h'] →
      Moves o [.opens name 1 h, .opens name 1 h'] (insert h' (insert h o)) :=
    fun name h h' hreturned => moves_opens_two name (hreturned ▸ hnd) (hreturned ▸ hnew)
  have hnothing : Moves o [] o := ⟨trivial, rfl⟩
  have hagain : ∀ name sockfd, .fd sockfd ∈ o →
      Moves o [.closes name (.fd sockfd), .opens name 0 (.fd sockfd)] o := fun name sockfd hmem => by
    simpa [hmem] using moves_replace (o := o) name 0 (hsmall _ hmem) (Finset.notMem_erase _ _) (hsmall _ hmem)
  cases c with
  | fd call =>
    cases call with
    | creat pathname mode fd => exact hone _ _ _ rfl
    | open_ pathname flags fd => exact hone _ _ _ rfl
    | open64 pathname flags fd => exact hone _ _ _ rfl
    | openat pathname flags fd => exact hone _ _ _ rfl
    | close fd => exact moves_closes _ hpromise
    | dup oldfd fd =>
      have h' := hnew (.fd fd) (by simp [FileCall.returned])
      exact moves_dup _ _ (.inr h'.1) h'.2
    | dup2 oldfd newfd =>
      by_cases heq : oldfd = newfd
      · simpa [FileCall.moves, FdCall.moves, FileCall.handles, FdCall.handles, heq] using hnothing
      · simpa [FileCall.moves, FdCall.moves, FileCall.handles, FdCall.handles, heq]
          using moves_dup "dup2" (some newfd) (.inl rfl) hpromise
    | dup3 oldfd newfd =>
      by_cases heq : oldfd = newfd
      · simpa [FileCall.moves, FdCall.moves, FileCall.handles, FdCall.handles, heq] using hnothing
      · simpa [FileCall.moves, FdCall.moves, FileCall.handles, FdCall.handles, heq]
          using moves_dup "dup3" (some newfd) (.inl rfl) hpromise
  | fcntl fd cmd rc =>
    cases cmd with
    | dupfd newfd =>
      have h' := hnew (.fd rc) (by simp [FileCall.returned])
      exact moves_dup _ _ (.inr h'.1) h'.2
    | dupfdCloexec newfd =>
      have h' := hnew (.fd rc) (by simp [FileCall.returned])
      exact moves_dup _ _ (.inr h'.1) h'.2
    | other => exact hnothing
  | socket domain type protocol rc => exact hone _ _ _ rfl
  | socketpair domain type protocol fd0 fd1 => exact htwo _ _ _ rfl
  | bind sockfd addr addrlen => exact hagain _ _ hrep
  | connect sockfd addr addrlen => exact hagain _ _ hrep
  | accept sockfd rc => exact hone _ _ _ rfl
  | accept4 sockfd rc => exact hone _ _ _ rfl
  | inotifyInit rc => exact hone _ _ _ rfl
  | inotifyInit1 flags rc => exact hone _ _ _ rfl
  | eventfd flags rc => exact hone _ _ _ rfl
  | signalfd fd flags rc =>
    by_cases heq : fd = none
    · simpa [FileCall.moves, FileCall.handles, heq] using hone "signalfd" 1 (.fd rc) (if_pos heq)
    · simpa [FileCall.moves, FileCall.handles, heq] using hnothing
  | timerfdCreate flags rc => exact hone _ _ _ rfl
  | epollCreate rc => exact hone _ _ _ rfl
  | epollCreate1 flags rc => exact hone _ _ _ rfl
  | getpt rc => exact hone _ _ _ rfl
  | posixOpenpt flags rc => exact hone _ _ _ rfl
  | pipe fd0 fd1 => exact htwo _ _ _ rfl
  | pipe2 flags fd0 fd1 => exact htwo _ _ _ rfl
  | fopen path mode rc => exact hone _ _ _ rfl
  | fdopen fd mode rc =>
    have h' := hnew (.fp rc) (by simp [FileCall.returned])
    exact moves_replace _ _ hpromise (by simp [h'.1]) trivial
  | freopen path mode stream rc =>
    obtain rfl : rc = stream := hpromise
    exact moves_replace _ _ trivial (by simp) trivial
  | popen command type rc => exact hone _ _ _ rfl
  | pclose fp rc =>
    obtain rfl : rc = 0 := hrep
    exact moves_closes _ trivial
  | fclose fp rc =>
    obtain rfl : rc = 0 := hrep
    exact moves_closes _ trivial
  | fcloseall rc =>
    have hnone : Handle.fp (BitVec.allOnes w) ∉ o := fun hmem => by simpa [Handle.isFd] using hrep _ hmem
    have hsame : o.filter (fun h => h.isFd) = o := Finset.filter_true_of_mem hrep
    have hcloses : Moves o [.closes "fcloseall" (.fp (BitVec.allOnes w))] (o.erase (.fp (BitVec.allOnes w))) :=
      moves_closes _ trivial
    rw [Finset.erase_eq_of_notMem hnone] at hcloses
    rw [FileCall.moves, FileCall.handles, hsame]
    split
    · exact hcloses
    · exact hnothing

theorem Moves.small {o o' : Finset (Handle w)} {moves : List (Move w)} (h : Moves o moves o')
    (hsmall : ∀ x ∈ o, x.Small) : ∀ x ∈ o', x.Small := by
  obtain ⟨hnew, rfl⟩ := h
  induction moves generalizing o with
  | nil => exact hsmall
  | cons m moves ih =>
    refine ih (fun x hx => ?_) hnew.2.2
    cases m with
    | opens name size h =>
      rcases Finset.mem_insert.mp hx with rfl | hx
      · exact hnew.2.1
      · exact hsmall x hx
    | closes name h => exact hsmall x (Finset.mem_of_mem_erase hx)

/-! ## Handles and resources -/

/-- Handles have resources of their own. -/
theorem Handle.key_inj (hw : 32 ≤ w) {resFd resFp : BitVec 32} (hne : resFd ≠ resFp) {h h' : Handle w}
    (hs : h.Small) (hs' : h'.Small) (heq : h.key resFd resFp = h'.key resFd resFp) : h = h' := by
  have hids : resFd.setWidth w ≠ resFp.setWidth w := fun hsame => hne (setWidth_inj hw hsame)
  cases h with
  | fd n =>
    cases h' with
    | fd n' => rw [ofNat_inj hw hs hs' (Prod.mk.inj heq).2]
    | fp p => exact absurd (Prod.mk.inj heq).1 hids
  | fp p =>
    cases h' with
    | fd n' => exact absurd (Prod.mk.inj heq).1.symm hids
    | fp p' => rw [show p = p' from (Prod.mk.inj heq).2]

def handleKeys (resFd resFp : BitVec 32) (o : Finset (Handle w)) : Finset (BitVec w × BitVec w) :=
  o.image (Handle.key resFd resFp)

/-- The function call of one move. -/
theorem Move.accounts (hw : 32 ≤ w) {resFd resFp : BitVec 32} (hne : resFd ≠ resFp) {o : Finset (Handle w)}
    {m : Move w} (hnew : MovesNew o [m]) (hsmall : ∀ x ∈ o, x.Small) :
    Accounts ResourceCall.kind ResourceCall.key (Handle.key resFd resFp) o [m.call resFd resFp] (m.after o) := by
  have hinj : ∀ x ∈ o, x.key resFd resFp = m.handle.key resFd resFp → x = m.handle := fun x hx heq =>
    Handle.key_inj hw hne (hsmall x hx) hnew.2.1 heq
  cases m with
  | opens name size h => exact .alloc rfl rfl hnew.1 hinj
  | closes name h => exact .free rfl rfl hinj

/-- **The function calls of the moves** allocate and release the resources. -/
theorem Moves.accounts (hw : 32 ≤ w) {resFd resFp : BitVec 32} (hne : resFd ≠ resFp) {o o' : Finset (Handle w)}
    {moves : List (Move w)} (h : Moves o moves o') (hsmall : ∀ x ∈ o, x.Small) :
    Accounts ResourceCall.kind ResourceCall.key (Handle.key resFd resFp) o (moves.map (Move.call resFd resFp))
      o' := by
  obtain ⟨hnew, rfl⟩ := h
  induction moves generalizing o with
  | nil => exact .nil o
  | cons m moves ih =>
    have hstep : Moves o [m] (m.after o) := ⟨⟨hnew.1, hnew.2.1, trivial⟩, rfl⟩
    exact (Move.accounts hw hne hstep.new hsmall).append (ih (hstep.small hsmall) hnew.2.2)

/-! ## Runs -/

/-- What the program has open behind a run. -/
def openHandles (calls : List (FileCall w)) : Finset (Handle w) := calls.foldl FileCall.handles ∅

theorem fileTracer_owed (hw : 32 ≤ w) {resFd resFp : BitVec 32} (hne : resFd ≠ resFp)
    {calls : List (FileCall w)} {o : Finset (Handle w)} (hsmall : ∀ x ∈ o, x.Small)
    (hrun : ReportedRun o calls) {t : FileTracer w} (hfd : t.resFd = resFd) (hfp : t.resFp = resFp) :
    ∃ events, (calls.foldl FileTracer.trace t).events = t.events ++ events ∧
      (∀ e ∈ events, e.resTypeId = resFd.setWidth w ∨ e.resTypeId = resFp.setWidth w) ∧
      Accounts ResourceCall.kind ResourceCall.key (Handle.key resFd resFp) o events
        (calls.foldl FileCall.handles o) := by
  induction calls generalizing o t with
  | nil => exact ⟨[], by simp, by simp, .nil o⟩
  | cons c calls ih =>
    obtain ⟨hvalid, hrep, hrest⟩ := hrun
    have hmoves := call_moves hsmall hvalid hrep
    have hwrites := trace_writes t c
    obtain ⟨events, hevents, htypes, haccounts⟩ :=
      ih (hmoves.small hsmall) hrest (hwrites.resFd.trans hfd) (hwrites.resFp.trans hfp)
    refine ⟨c.moves.map (Move.call resFd resFp) ++ events, ?_, fun e he => ?_,
      (hmoves.accounts hw hne hsmall).append haccounts⟩
    · rw [List.foldl_cons, hevents, hwrites.events, hfd, hfp, List.append_assoc]
    · rcases List.mem_append.mp he with he | he
      · obtain ⟨m, -, rfl⟩ := List.mem_map.mp he
        rcases m with ⟨name, size, n | p⟩ | ⟨name, n | p⟩
        · exact .inl rfl
        · exact .inr rfl
        · exact .inl rfl
        · exact .inr rfl
      · exact htypes e he

/-- **File tracing is exact**: what the leak filter leaves of a run are the
descriptors and streams that the program has not closed, each once. -/
theorem fileTrace_exact (hw : 32 ≤ w) {resFd resFp : BitVec 32} (hne : resFd ≠ resFp)
    {counted : BitVec w → Bool} (hfd : counted (resFd.setWidth w) = false)
    (hfp : counted (resFp.setWidth w) = false) {calls : List (FileCall w)} (hrun : ReportedRun ∅ calls) :
    LeaksOwed counted (fileTracerRun resFd resFp calls).events
      (handleKeys resFd resFp (openHandles calls)) := by
  obtain ⟨events, hevents, htypes, haccounts⟩ := fileTracer_owed hw hne (by simp) hrun
    (show (FileTracer.init resFd resFp : FileTracer w).resFd = resFd from rfl) rfl
  have hcalls : (fileTracerRun resFd resFp calls).events = events := by
    rw [fileTracerRun, hevents]
    rfl
  rw [hcalls]
  refine haccounts.leaksOwed fun e he => ?_
  rcases htypes e he with heq | heq
  · rw [heq, hfd]
  · rw [heq, hfp]

/-- A file becomes a stream and is closed, one end of a socket pair is bound
and the other one is made a file that is open already. -/
def copyRun : List (FileCall 64) :=
  [.fd (.open_ ['a'] 0 3), .socketpair 1 1 0 4 5, .bind 4 (.unix ['s']) 4, .fdopen 3 ['r'] 4096,
    .fd (.open_ ['b'] 0 3), .fd (.dup2 3 5), .fclose 4096 0, .fopen ['c'] ['r'] 4096, .fd (.close 3)]

/-- `res_fd` and `res_fp`, with the ids they are registered with. -/
def fileTypes (resFd resFp : BitVec 32) : List (Resource w) :=
  [{ id := resFd.setWidth w, type := "fd".toList, desc := "file descriptor".toList, flags := 0, hide := false },
    { id := resFp.setWidth w, type := "fp".toList, desc := "file pointer".toList, flags := 0, hide := false }]

/-- Left are the socket, the duplicate and the last stream. -/
theorem fileTrace_exact_copyRun :
    ∃ (rd' : Rd 64) (kept : List (ResourceCall 64)),
      filterLeaks (callLog (fileTypes 3 4) (fileTracerRun 3 4 copyRun).events) = some rd' ∧
      rd'.calls.map (storedCall rd') = kept.map some ∧
      ∀ k, k ∈ kept.map ResourceCall.key ↔ k ∈ [(3, 4), (3, 5), (4, 4096)] := by
  have hrun : ReportedRun ∅ copyRun := by
    simp [copyRun, ReportedRun, FileCall.Valid, FileCall.Reported, FileCall.returned, FileCall.handles,
      FdCall.handles, Handle.Small]
  have htypes : ∀ e ∈ (fileTracerRun 3 4 copyRun).events,
      ∃ r ∈ (fileTypes 3 4 : List (Resource 64)), r.id = e.resTypeId := by decide
  have hcount : ∀ r ∈ (fileTypes 3 4 : List (Resource 64)), r.refcounted = false := by decide
  have hrec : Recorded (callLog (fileTypes 3 4) (fileTracerRun 3 4 copyRun).events) (fun _ => false) _ :=
    callLog_recorded htypes (by decide) hcount
  obtain ⟨rd', kept, hfilter, hcalls, -, -, -, hkeys⟩ := fileTrace_exact (by decide) (by decide) rfl rfl hrun
    ⟨_, (callLog_spec htypes).1⟩ hrec
  have hopen : handleKeys 3 4 (openHandles copyRun) = {(3, 4), (3, 5), (4, 4096)} := by decide
  exact ⟨rd', kept, hfilter, hcalls, fun k => by rw [hkeys, hopen]; simp⟩

end SpRtrace.Modules
