/-
SpRtrace.Modules.FileTableTheorems — the descriptor table and the kernel.

The kernel's descriptors are a state of their own, and a run of successful
calls steps both (`Descriptors`, `fileModuleRun`). The table shadows the
kernel as long as nothing but the descriptor zero is closed: `trace_close`
marks the entry of its return value (`fdTable_right_iff`).
-/
import SpRtrace.Modules.FileTable

namespace SpRtrace.Modules

open SpRtrace.Lib SpRtrace.Common

variable {w : Nat}

/-! ## Entries -/

theorem FileModule.getFd_setFd (m : FileModule w) (fd : Nat) (type : RtFd) (i : Nat) :
    (m.setFd fd type).getFd i = if i = fd ∧ i < maxFdCount then type else m.getFd i := by
  unfold FileModule.setFd FileModule.getFd
  by_cases hfd : fd < maxFdCount
  · rw [dif_pos hfd]
    by_cases hi : i < maxFdCount
    · rw [dif_pos hi, dif_pos hi, Vector.getElem_set]
      by_cases heq : fd = i
      · rw [if_pos heq, if_pos ⟨heq.symm, hi⟩]
      · rw [if_neg heq, if_neg fun h => heq h.1.symm]
    · rw [dif_neg hi, dif_neg hi, if_neg fun h => hi h.2]
  · rw [dif_neg hfd, if_neg]
    intro h
    rw [h.1] at h
    exact hfd h.2

@[simp] theorem FileModule.getFd_writeCall (m : FileModule w) (type : BitVec 32) (name : String)
    (resSize : BitVec 32) (fd : Nat) (args : List ModuleFarg) (i : Nat) :
    (m.writeCall type name resSize fd args).getFd i = m.getFd i := rfl

theorem getFd_init (resFd : BitVec 32) (i : Nat) :
    (FileModule.init resFd : FileModule w).getFd i = .unknown := by
  unfold FileModule.getFd FileModule.init
  split
  · exact Vector.getElem_replicate _
  · rfl

/-- An entry of the table is set, and no other. -/
theorem FileModule.getFd_setFd_below (m : FileModule w) {fd : Nat} (hfd : fd < maxFdCount)
    (type : RtFd) (i : Nat) : (m.setFd fd type).getFd i = if i = fd then type else m.getFd i := by
  rw [FileModule.getFd_setFd]
  by_cases hi : i = fd
  · rw [if_pos ⟨hi, hi ▸ hfd⟩, if_pos hi]
  · rw [if_neg fun h => hi h.1, if_neg hi]

theorem getFd_traceOpenCommon (m : FileModule w) (name : String) {fd : Nat} (hfd : fd < maxFdCount)
    (path : Str) (flags : BitVec 32) (i : Nat) : (traceOpenCommon m name fd path flags).getFd i
      = if i = fd then .file else m.getFd i := by
  rw [traceOpenCommon, FileModule.getFd_setFd_below _ hfd, FileModule.getFd_writeCall]

theorem getFd_traceDupCommon (m : FileModule w) (name : String) (oldfd : Nat) (newfd : Option Nat)
    {retfd : Nat} (hretfd : retfd < maxFdCount) (i : Nat) :
    (traceDupCommon m name oldfd newfd retfd).getFd i
      = if i = retfd then m.getFd oldfd else m.getFd i := by
  have hsame : ∀ i, (if newfd = some retfd then m.writeCall ftypeFree name 0 retfd [] else m).getFd i
      = m.getFd i := by
    intro i
    split <;> rfl
  rw [traceDupCommon, FileModule.getFd_setFd_below _ hretfd, FileModule.getFd_writeCall, hsame, hsame]

/-! ## The kernel -/

/-- What the traced calls say of a descriptor: nothing yet, what it is open
on, or that it was closed. -/
inductive FdState
  | idle
  | opened (type : RtFd)
  | closed
  deriving DecidableEq, Repr

abbrev Descriptors : Type := Nat → FdState

/-- A new descriptor is one that is not open. -/
def Descriptors.alloc (k : Descriptors) (fd : Nat) (type : RtFd) : Option Descriptors :=
  match k fd with
  | .opened _ => none
  | _ => some (Function.update k fd (.opened type))

/-- A descriptor is opened on what another one is open on. -/
def Descriptors.duplicate (k : Descriptors) (oldfd newfd : Nat) : Option Descriptors :=
  match k oldfd with
  | .opened type => some (if oldfd = newfd then k else Function.update k newfd (.opened type))
  | _ => none

/-- The descriptors behind a call, if it can be successful. -/
def Descriptors.call (k : Descriptors) : FdCall → Option Descriptors
  | .creat _ _ fd => k.alloc fd .file
  | .open_ _ _ fd => k.alloc fd .file
  | .open64 _ _ fd => k.alloc fd .file
  | .openat _ _ fd => k.alloc fd .file
  | .close fd =>
      match k fd with
      | .opened _ => some (Function.update k fd .closed)
      | _ => none
  | .dup oldfd fd =>
      match k oldfd, k fd with
      | .opened _, .opened _ => none
      | _, _ => k.duplicate oldfd fd
  | .dup2 oldfd newfd => k.duplicate oldfd newfd
  | .dup3 oldfd newfd => if oldfd = newfd then none else k.duplicate oldfd newfd

def Descriptors.run (k : Descriptors) (calls : List FdCall) : Option Descriptors :=
  calls.foldlM Descriptors.call k

/-- Before the first traced call nothing is known of the descriptors. -/
def Descriptors.Fresh (k : Descriptors) : Prop := ∀ fd, k fd = .idle ∨ k fd = .opened .unknown

def FdCall.descriptors : FdCall → List Nat
  | .creat _ _ fd => [fd]
  | .open_ _ _ fd => [fd]
  | .open64 _ _ fd => [fd]
  | .openat _ _ fd => [fd]
  | .close fd => [fd]
  | .dup oldfd fd => [oldfd, fd]
  | .dup2 oldfd newfd => [oldfd, newfd]
  | .dup3 oldfd newfd => [oldfd, newfd]

/-- The descriptor that a call opens or closes. -/
def FdCall.target : FdCall → Nat
  | .creat _ _ fd => fd
  | .open_ _ _ fd => fd
  | .open64 _ _ fd => fd
  | .openat _ _ fd => fd
  | .close fd => fd
  | .dup _ fd => fd
  | .dup2 _ newfd => newfd
  | .dup3 _ newfd => newfd

theorem Descriptors.duplicate_spec {k k' : Descriptors} {oldfd newfd : Nat}
    (h : k.duplicate oldfd newfd = some k') : ∃ type, k oldfd = .opened type ∧
      k' = Function.update k newfd (.opened type) := by
  unfold Descriptors.duplicate at h
  split at h
  next type hold =>
    refine ⟨type, hold, ?_⟩
    rw [← Option.some.inj h]
    split
    next heq => rw [← heq, ← hold, Function.update_eq_self]
    · rfl
  · exact absurd h (by simp)

theorem Descriptors.alloc_spec {k k' : Descriptors} {fd : Nat} {type : RtFd}
    (h : k.alloc fd type = some k') : k' = Function.update k fd (.opened type) := by
  unfold Descriptors.alloc at h
  split at h
  · exact absurd h (by simp)
  · exact (Option.some.inj h).symm

/-- What a call did to the kernel's descriptors and to the table: both have
a new type at one place. -/
structure Opens (k k' : Descriptors) (m m' : FileModule w) (fd : Nat) (type : RtFd) : Prop where
  kernel : k' = Function.update k fd (.opened type)
  table : ∀ i, m'.getFd i = if i = fd then type else m.getFd i

/-- The table shadows the open and the closed descriptors. -/
structure Shadows (k : Descriptors) (m : FileModule w) : Prop where
  opened : ∀ fd < maxFdCount, ∀ type, k fd = .opened type → m.getFd fd = type
  closed : ∀ fd < maxFdCount, k fd = .closed → m.getFd fd = .closed

section Calls

variable {k k' : Descriptors} {m : FileModule w}

theorem opens_common {name : String} {path : Str} {flags : BitVec 32} {fd : Nat}
    (hfd : fd < maxFdCount) (h : k.alloc fd .file = some k') :
    Opens k k' m (traceOpenCommon m name fd path flags) fd .file where
  kernel := Descriptors.alloc_spec h
  table := getFd_traceOpenCommon m name hfd path flags

theorem opens_duplicate (hm : Shadows k m) {name : String} {arg : Option Nat} {oldfd newfd : Nat}
    (hold : oldfd < maxFdCount) (hnew : newfd < maxFdCount) (h : k.duplicate oldfd newfd = some k') :
    ∃ type, Opens k k' m (traceDupCommon m name oldfd arg newfd) newfd type := by
  obtain ⟨type, htype, hk⟩ := Descriptors.duplicate_spec h
  refine ⟨type, hk, fun i => ?_⟩
  rw [getFd_traceDupCommon m name oldfd arg hnew, hm.opened oldfd hold type htype]

/-- Duplicating a descriptor to itself leaves everything as it is. -/
theorem opens_same (hm : Shadows k m) {fd : Nat} (hfd : fd < maxFdCount)
    (h : k.duplicate fd fd = some k') : ∃ type, Opens k k' m m fd type := by
  obtain ⟨type, htype, hk⟩ := Descriptors.duplicate_spec h
  refine ⟨type, hk, fun i => ?_⟩
  split
  next hi => rw [hi, hm.opened fd hfd type htype]
  · rfl

/-- **A call that is not a `close`** opens its target in the kernel and in
the table. -/
theorem call_opens {call : FdCall} (hcall : k.call call = some k')
    (hclose : ∀ fd, call ≠ .close fd) (hbelow : ∀ fd ∈ call.descriptors, fd < maxFdCount)
    (hm : Shadows k m) : ∃ type, Opens k k' m (m.trace call) call.target type := by
  cases call with
  | creat pathname mode fd =>
    have hfd : fd < maxFdCount := hbelow fd (List.mem_singleton.mpr rfl)
    exact ⟨.file, Descriptors.alloc_spec hcall, FileModule.getFd_setFd_below _ hfd .file⟩
  | open_ pathname flags fd =>
    exact ⟨.file, opens_common (hbelow fd (List.mem_singleton.mpr rfl)) hcall⟩
  | open64 pathname flags fd =>
    exact ⟨.file, opens_common (hbelow fd (List.mem_singleton.mpr rfl)) hcall⟩
  | openat pathname flags fd =>
    exact ⟨.file, opens_common (hbelow fd (List.mem_singleton.mpr rfl)) hcall⟩
  | close fd => exact absurd rfl (hclose fd)
  | dup oldfd fd =>
    have hduplicate : k.duplicate oldfd fd = some k' := by
      simp only [Descriptors.call] at hcall
      split at hcall
      · exact absurd hcall (by simp)
      · exact hcall
    exact opens_duplicate hm (hbelow oldfd (by simp [FdCall.descriptors]))
      (hbelow fd (by simp [FdCall.descriptors])) hduplicate
  | dup2 oldfd newfd =>
    have hold := hbelow oldfd (by simp [FdCall.descriptors])
    have hnew := hbelow newfd (by simp [FdCall.descriptors])
    by_cases heq : oldfd = newfd
    · subst heq
      have hsame : m.trace (.dup2 oldfd oldfd) = m := if_neg (not_not.mpr rfl)
      rw [hsame]
      exact opens_same hm hold hcall
    · have htrace : m.trace (.dup2 oldfd newfd)
          = traceDupCommon m "dup2" oldfd (some newfd) newfd := if_pos heq
      rw [htrace]
      exact opens_duplicate hm hold hnew hcall
  | dup3 oldfd newfd =>
    have hold := hbelow oldfd (by simp [FdCall.descriptors])
    have hnew := hbelow newfd (by simp [FdCall.descriptors])
    simp only [Descriptors.call] at hcall
    split at hcall
    · exact absurd hcall (by simp)
    next hne =>
      have htrace : m.trace (.dup3 oldfd newfd)
          = traceDupCommon m "dup3" oldfd (some newfd) newfd := if_pos hne
      rw [htrace]
      exact opens_duplicate hm hold hnew hcall

theorem Opens.shadows {m' : FileModule w} {fd : Nat} {type : RtFd} (h : Opens k k' m m' fd type)
    (hm : Shadows k m) : Shadows k' m' := by
  constructor
  · intro i hi found hfound
    rw [h.table]
    rw [h.kernel, Function.update_apply] at hfound
    split at hfound
    next heq =>
      rw [if_pos heq]
      exact FdState.opened.inj hfound
    next hne =>
      rw [if_neg hne]
      exact hm.opened i hi found hfound
  · intro i hi hclosed
    rw [h.table]
    rw [h.kernel, Function.update_apply] at hclosed
    split at hclosed
    · exact absurd hclosed (by simp)
    next hne =>
      rw [if_neg hne]
      exact hm.closed i hi hclosed

theorem Descriptors.close_spec {fd : Nat} (h : k.call (.close fd) = some k') :
    (∃ type, k fd = .opened type) ∧ k' = Function.update k fd .closed := by
  simp only [Descriptors.call] at h
  split at h
  next type htype => exact ⟨⟨type, htype⟩, (Option.some.inj h).symm⟩
  · exact absurd h (by simp)

/-- No object has the type of a closed descriptor. -/
def Descriptors.Proper (k : Descriptors) : Prop := ∀ fd, k fd ≠ .opened .closed

theorem Descriptors.Proper.update (hk : k.Proper) (fd : Nat) {state : FdState}
    (hstate : state ≠ .opened .closed) : Descriptors.Proper (Function.update k fd state) := by
  intro i
  rw [Function.update_apply]
  split
  · exact hstate
  · exact hk i

theorem Descriptors.Proper.duplicate (hk : k.Proper) {oldfd newfd : Nat}
    (h : k.duplicate oldfd newfd = some k') : k'.Proper := by
  obtain ⟨type, htype, rfl⟩ := Descriptors.duplicate_spec h
  exact hk.update newfd (htype ▸ hk oldfd)

theorem Descriptors.Proper.alloc (hk : k.Proper) {fd : Nat} (h : k.alloc fd .file = some k') :
    k'.Proper := by
  rw [Descriptors.alloc_spec h]
  exact hk.update fd (by decide)

theorem Descriptors.Proper.call (hk : k.Proper) {call : FdCall} (h : k.call call = some k') :
    k'.Proper := by
  cases call with
  | creat pathname mode fd => exact hk.alloc h
  | open_ pathname flags fd => exact hk.alloc h
  | open64 pathname flags fd => exact hk.alloc h
  | openat pathname flags fd => exact hk.alloc h
  | close fd =>
    rw [(Descriptors.close_spec h).2]
    exact hk.update fd (by decide)
  | dup oldfd fd =>
    simp only [Descriptors.call] at h
    split at h
    · exact absurd h (by simp)
    · exact hk.duplicate h
  | dup2 oldfd newfd => exact hk.duplicate h
  | dup3 oldfd newfd =>
    simp only [Descriptors.call] at h
    split at h
    · exact absurd h (by simp)
    · exact hk.duplicate h

/-- The entry of the descriptor zero is marked, whatever is closed. -/
theorem getFd_close (m : FileModule w) (fd i : Nat) :
    (m.trace (.close fd)).getFd i = if i = 0 then .closed else m.getFd i :=
  FileModule.getFd_setFd_below _ (by decide) .closed i

theorem close_shadows (h : k.call (.close 0) = some k') (hm : Shadows k m) :
    Shadows k' (m.trace (.close 0)) := by
  have hk := (Descriptors.close_spec h).2
  constructor
  · intro i hi type htype
    rw [getFd_close]
    rw [hk, Function.update_apply] at htype
    split at htype
    · exact absurd htype (by simp)
    next hne =>
      rw [if_neg hne]
      exact hm.opened i hi type htype
  · intro i hi hclosed
    rw [getFd_close]
    split
    · rfl
    next hne =>
      rw [hk, Function.update_of_ne hne] at hclosed
      exact hm.closed i hi hclosed

end Calls

/-! ## Runs -/

variable {k₀ : Descriptors} {resFd : BitVec 32} {calls : List FdCall}

theorem Descriptors.run_snoc (k₀ : Descriptors) (pre : List FdCall) (call : FdCall) :
    k₀.run (pre ++ [call]) = (k₀.run pre).bind fun k => k.call call := by
  rw [Descriptors.run, List.foldlM_append]
  show (k₀.run pre).bind _ = _
  cases k₀.run pre with
  | none => rfl
  | some k => exact bind_pure (k.call call)

theorem fileModuleRun_snoc (resFd : BitVec 32) (pre : List FdCall) (call : FdCall) :
    (fileModuleRun resFd (pre ++ [call]) : FileModule w) = (fileModuleRun resFd pre).trace call := by
  rw [fileModuleRun, List.foldl_append]
  rfl

/-- The calls in front of a successful run are successful. -/
theorem run_prefix {pre post : List FdCall} {k : Descriptors} (h : k₀.run (pre ++ post) = some k) :
    ∃ k', k₀.run pre = some k' := by
  rw [Descriptors.run, List.foldlM_append] at h
  exact (Option.bind_eq_some_iff.mp h).imp fun _ h => h.1

theorem run_prefix_snoc {pre post : List FdCall} {call : FdCall} {k : Descriptors}
    (h : k₀.run (pre ++ call :: post) = some k) : ∃ k', k₀.run (pre ++ [call]) = some k' := by
  have hsplit : k₀.run ((pre ++ [call]) ++ post) = some k := by simpa using h
  exact run_prefix hsplit

/-- The run of some calls: the table shadows the kernel as long as only the
descriptor zero is closed. -/
theorem run_shadows (hfresh : k₀.Fresh) {pre : List FdCall} {k : Descriptors}
    (hrun : k₀.run pre = some k)
    (hbelow : ∀ call ∈ pre, ∀ fd ∈ call.descriptors, fd < maxFdCount)
    (hclose : ∀ fd, .close fd ∈ pre → fd = 0) :
    Shadows k (fileModuleRun resFd pre : FileModule w) := by
  induction pre using List.reverseRecOn generalizing k with
  | nil =>
    obtain rfl := Option.some.inj hrun
    constructor
    · intro fd _ type htype
      rcases hfresh fd with hidle | hopen
      · rw [hidle] at htype
        exact absurd htype (by simp)
      · rw [hopen] at htype
        exact (getFd_init resFd fd).trans (FdState.opened.inj htype)
    · intro fd _ hclosed
      rcases hfresh fd with hidle | hopen
      · rw [hidle] at hclosed
        exact absurd hclosed (by simp)
      · rw [hopen] at hclosed
        exact absurd hclosed (by simp)
  | append_singleton pre call ih =>
    obtain ⟨k₁, hpre⟩ := run_prefix hrun
    rw [Descriptors.run_snoc, hpre, Option.bind_some] at hrun
    have hm := ih hpre (fun c hc => hbelow c (List.mem_append_left _ hc))
      fun fd hfd => hclose fd (List.mem_append_left _ hfd)
    rw [fileModuleRun_snoc]
    by_cases hlast : ∃ fd, call = .close fd
    · obtain ⟨fd, rfl⟩ := hlast
      obtain rfl := hclose fd (by simp)
      exact close_shadows hrun hm
    · obtain ⟨type, hopens⟩ := call_opens hrun (fun fd heq => hlast ⟨fd, heq⟩) (hbelow call (by simp)) hm
      exact hopens.shadows hm

theorem run_proper (hfresh : k₀.Fresh) {pre : List FdCall} {k : Descriptors}
    (hrun : k₀.run pre = some k) : k.Proper := by
  induction pre using List.reverseRecOn generalizing k with
  | nil =>
    obtain rfl := Option.some.inj hrun
    intro fd
    rcases hfresh fd with hidle | hopen
    · rw [hidle]; simp
    · rw [hopen]; simp
  | append_singleton pre call ih =>
    obtain ⟨k₁, hpre⟩ := run_prefix hrun
    rw [Descriptors.run_snoc, hpre, Option.bind_some] at hrun
    exact (ih hpre).call hrun

/-- The table is right in every state of a run: it shadows the kernel, and
a call changes no entry but that of its descriptor. -/
structure TableRight (w : Nat) (k₀ : Descriptors) (resFd : BitVec 32) (calls : List FdCall) :
    Prop where
  shadows : ∀ pre post, calls = pre ++ post → ∀ k, k₀.run pre = some k →
    Shadows k (fileModuleRun resFd pre : FileModule w)
  others : ∀ pre call post, calls = pre ++ call :: post → ∀ fd < maxFdCount, fd ≠ call.target →
    (fileModuleRun resFd (pre ++ [call]) : FileModule w).getFd fd
      = (fileModuleRun resFd pre : FileModule w).getFd fd

/-- **The descriptor table**: it is right in every state of a run of
successful calls if and only if no descriptor but zero is closed. -/
theorem fdTable_right_iff (hfresh : k₀.Fresh) {k : Descriptors} (hrun : k₀.run calls = some k)
    (hbelow : ∀ call ∈ calls, ∀ fd ∈ call.descriptors, fd < maxFdCount) :
    TableRight w k₀ resFd calls ↔ ∀ fd, .close fd ∈ calls → fd = 0 := by
  constructor
  · intro hright fd hfd
    obtain ⟨pre, post, rfl⟩ := List.append_of_mem hfd
    have hlt : fd < maxFdCount := hbelow _ hfd fd (List.mem_singleton.mpr rfl)
    obtain ⟨k₁, hpre⟩ := run_prefix hrun
    obtain ⟨k₂, hnext⟩ := run_prefix_snoc hrun
    have hstep := hnext
    rw [Descriptors.run_snoc, hpre, Option.bind_some] at hstep
    obtain ⟨⟨type, htype⟩, hk₂⟩ := Descriptors.close_spec hstep
    have hbefore := (hright.shadows pre _ rfl k₁ hpre).opened fd hlt type htype
    have hafter := (hright.shadows (pre ++ [.close fd]) post (by simp) k₂ hnext).closed fd hlt
      (by rw [hk₂, Function.update_self])
    by_contra hne
    rw [fileModuleRun_snoc, getFd_close, if_neg hne, hbefore] at hafter
    exact run_proper hfresh hpre fd (hafter ▸ htype)
  · intro hclose
    have hshadows : ∀ pre post, calls = pre ++ post → ∀ k, k₀.run pre = some k →
        Shadows k (fileModuleRun resFd pre : FileModule w) := by
      rintro pre post rfl k hk
      exact run_shadows hfresh hk (fun c hc => hbelow c (List.mem_append_left _ hc))
        fun fd hfd => hclose fd (List.mem_append_left _ hfd)
    refine ⟨hshadows, ?_⟩
    rintro pre call post rfl fd hlt hne
    obtain ⟨k₁, hpre⟩ := run_prefix hrun
    obtain ⟨k₂, hnext⟩ := run_prefix_snoc hrun
    rw [Descriptors.run_snoc, hpre, Option.bind_some] at hnext
    rw [fileModuleRun_snoc]
    by_cases hlast : ∃ fd, call = .close fd
    · obtain ⟨closed, rfl⟩ := hlast
      obtain rfl := hclose closed (by simp)
      have hzero : fd ≠ 0 := hne
      rw [getFd_close, if_neg hzero]
    · obtain ⟨type, hopens⟩ := call_opens hnext (fun fd heq => hlast ⟨fd, heq⟩)
        (hbelow call (by simp)) (hshadows pre _ rfl k₁ hpre)
      rw [hopens.table, if_neg hne]

/-! ## Two runs -/

/-- The descriptors of a process that was started by a shell. -/
def shellDescriptors : Descriptors := fun fd => if fd < 3 then .opened .unknown else .idle

theorem shellDescriptors_fresh : shellDescriptors.Fresh := by
  intro fd
  unfold shellDescriptors
  split
  · exact Or.inr rfl
  · exact Or.inl rfl

/-- A file is opened and duplicated, and the input is closed and opened. -/
def reopenCalls : List FdCall :=
  [.open_ "log".toList 0 3, .dup 3 4, .close 0, .open_ "in".toList 0 0, .dup2 0 5]

theorem fdTable_right_iff_reopen : TableRight 64 shellDescriptors 1 reopenCalls :=
  (fdTable_right_iff (k := (shellDescriptors.run reopenCalls).getD shellDescriptors)
    shellDescriptors_fresh (by rfl) (by decide)).mpr (by simp [reopenCalls])

/-- A file is opened, and closed: its entry stays, and the one of the
descriptor zero changes. -/
theorem fdTable_close :
    let m : FileModule 64 := fileModuleRun 1 [.open_ "log".toList 0 3, .close 3]
    m.getFd 3 = .file ∧ m.getFd 0 = .closed ∧
      ¬ TableRight 64 shellDescriptors 1 [.open_ "log".toList 0 3, .close 3] := by
  have hentry : (fileModuleRun 1 [.open_ "log".toList 0 3, .close 3] : FileModule 64).getFd 3 = .file := by
    decide +kernel
  refine ⟨hentry, by decide +kernel, fun hright => ?_⟩
  have hclosed := (hright.shadows [.open_ "log".toList 0 3, .close 3] [] rfl _ rfl).closed 3 (by decide)
    (by rfl)
  exact absurd (hentry.symm.trans hclosed) (by decide)

end SpRtrace.Modules
