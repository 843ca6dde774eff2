/-
SpRtrace.Modules.PosixShmLeaks — the leak filter leaves the shared memory
that a program has not given back.

A program has the objects that it created, the descriptors of objects and
its mappings (`PosixCall.handles`). What a mapping is of is a part of its
resource, and `munmap` takes that from what is open now. So nothing of
another kind may be opened under the descriptor of a mapping that is still
there (`KeepsKind`): the mapping would be released as something that it is
not, and stay. The module looks at the address of `munmap` only, the kernel
unmaps all pages of the region: a run unmaps one mapping at a time, as a
whole (`Unmaps`).
-/
import SpRtrace.Modules.PosixShmTheorems
import SpRtrace.Postproc.RecordedCalls

namespace SpRtrace.Modules

open SpRtrace.Lib SpRtrace.Common SpRtrace.Postproc

variable {w : Nat}

/-! ## What a program has -/

inductive MapKind
  | posix
  | file
  | other
  deriving DecidableEq, Repr

def mapKind : Option FdregNode → MapKind
  | none => .other
  | some pfd => if pfd.type = .posix then .posix else .file

def PosixTypes.ofKind (res : PosixTypes) : MapKind → BitVec 32
  | .posix => res.pshmmap
  | .file => res.fshmmap
  | .other => res.shmmap

theorem PosixTypes.ofFd_eq (res : PosixTypes) (pfd : Option FdregNode) :
    res.ofFd pfd = res.ofKind (mapKind pfd) := by
  cases pfd with
  | none => rfl
  | some pfd =>
    rw [PosixTypes.ofFd, mapKind]
    split <;> rfl

/-- A shared memory object, a descriptor of one, or a mapping. -/
inductive PosixHandle (w : Nat)
  | object (name : Str)
  | fd (n : Nat)
  | map (kind : MapKind) (addr : BitVec w)
  deriving DecidableEq, Repr

def PosixHandle.key (res : PosixTypes) (value : Str → BitVec 32) : PosixHandle w → BitVec w × BitVec w
  | .object name => (res.pshmobj.setWidth w, (value name).setWidth w)
  | .fd n => (res.pshmfd.setWidth w, BitVec.ofNat w n)
  | .map kind addr => ((res.ofKind kind).setWidth w, addr)

def PosixCall.region : PosixCall w → Option (BitVec w × BitVec w)
  | .mmap length _ _ _ _ rc => some (rc, length)
  | .mmap64 length _ _ _ _ rc => some (rc, length)
  | _ => none

/-- The length of what was mapped last at the address. -/
def mappedLength (before : List (PosixCall w)) (addr : BitVec w) : BitVec w :=
  ((before.filterMap PosixCall.region).reverse.lookup addr).getD 0

/-- The end of a region, which takes whole pages. -/
def regionEnd (page : Nat) (addr length : BitVec w) : Nat :=
  addr.toNat + (length.toNat + page - 1) / page * page

/-- The regions have a page in common. -/
def SharePage (page : Nat) (a n b m : BitVec w) : Prop :=
  a.toNat < regionEnd page b m ∧ b.toNat < regionEnd page a n

instance (page : Nat) (a n b m : BitVec w) : Decidable (SharePage page a n b m) :=
  inferInstanceAs (Decidable (_ ∧ _))

/-- `munmap` of the region takes pages of the handle. -/
def PosixHandle.unmapped (page : Nat) (before : List (PosixCall w)) (addr length : BitVec w) :
    PosixHandle w → Bool
  | .map _ a => SharePage page a (mappedLength before a) addr length
  | _ => false

variable {page : Nat} {before : List (PosixCall w)} {o : Finset (PosixHandle w)}

/-- **What the program has** behind a call. -/
def PosixCall.handles (page : Nat) (before : List (PosixCall w)) (o : Finset (PosixHandle w)) :
    PosixCall w → Finset (PosixHandle w)
  | .shmOpen name oflag _ rc =>
      insert (.fd rc) (if oflag &&& oCreat ≠ 0 then insert (.object name) o else o)
  | .shmUnlink name => o.erase (.object name)
  | .mmap _ _ _ fd _ rc => insert (.map (mapKind (lastOpened before fd)) rc) o
  | .mmap64 _ _ _ fd _ rc => insert (.map (mapKind (lastOpened before fd)) rc) o
  | .munmap addr length => o.filter fun h => h.unmapped page before addr length = false
  | .close fd => o.erase (.fd fd)
  | .open_ .. => o
  | .open64 .. => o
  | .creat .. => o

/-- What the program has behind some calls. -/
def posixHandles (page : Nat) (before : List (PosixCall w)) (o : Finset (PosixHandle w)) :
    List (PosixCall w) → Finset (PosixHandle w)
  | [] => o
  | c :: calls => posixHandles page (before ++ [c]) (c.handles page before o) calls

/-- The mappings of the descriptor are of this kind. -/
def KeepsKind (before : List (PosixCall w)) (o : Finset (PosixHandle w)) (fd : Int) (kind : MapKind) : Prop :=
  ∀ k addr node, .map k addr ∈ o → lastMapped before addr = some node → node.fd = fd → k = kind

/-- Of the mappings the region takes pages of the one at its address only,
and all of them. -/
def Unmaps (page : Nat) (before : List (PosixCall w)) (o : Finset (PosixHandle w)) (addr length : BitVec w) :
    Prop :=
  ∀ kind a, .map kind a ∈ o → (SharePage page a (mappedLength before a) addr length ↔ a = addr) ∧
    (a = addr → regionEnd page a (mappedLength before a) ≤ regionEnd page addr length)

/-- What a call returns is not there already: a descriptor, an object that
is created, a mapping. A descriptor is an `int`. -/
def PosixCall.Valid (page : Nat) (before : List (PosixCall w)) (o : Finset (PosixHandle w)) : PosixCall w → Prop
  | .shmOpen name oflag _ rc => rc < 2 ^ 31 ∧ .fd rc ∉ o ∧ (oflag &&& oCreat ≠ 0 → .object name ∉ o) ∧
      KeepsKind before o rc .posix
  | .open_ _ _ rc => .fd rc ∉ o ∧ KeepsKind before o rc .file
  | .open64 _ _ rc => .fd rc ∉ o ∧ KeepsKind before o rc .file
  | .creat _ rc => .fd rc ∉ o ∧ KeepsKind before o rc .file
  | .mmap _ _ _ _ _ rc => ∀ kind, .map kind rc ∉ o
  | .mmap64 _ _ _ _ _ rc => ∀ kind, .map kind rc ∉ o
  | .close fd => fd < 2 ^ 31
  | .munmap addr length => Unmaps page before o addr length
  | .shmUnlink .. => True

def PosixRun (page : Nat) (before : List (PosixCall w)) (o : Finset (PosixHandle w)) : List (PosixCall w) → Prop
  | [] => True
  | c :: calls => c.Valid page before o ∧ PosixRun page (before ++ [c]) (c.handles page before o) calls

/-! ## Handles and the history -/

/-- What the history says of a handle that the program has. -/
def PosixHandle.Fits (names : List Str) (before : List (PosixCall w)) : PosixHandle w → Prop
  | .object name => name ∈ names
  | .fd n => n < 2 ^ 31 ∧ ∃ node, lastOpened before n = some node ∧ node.type = .posix
  | .map kind addr => ∃ node, lastMapped before addr = some node ∧ kind = mapKind (lastOpened before node.fd)

variable {names : List Str} {c : PosixCall w}

/-- A call that opens something. -/
theorem fits_opened {new : FdregNode} (hopened : c.opened = some new) (hmapped : c.mapped = none)
    (hfd : ∀ n : Nat, .fd n ∈ o → (n : Int) ≠ new.fd) (hkeep : KeepsKind before o new.fd (mapKind (some new)))
    (hfits : ∀ h ∈ o, h.Fits names before) : ∀ h ∈ o, h.Fits names (before ++ [c]) := by
  have hlast : lastOpened (before ++ [c]) = Function.update (lastOpened before) new.fd (some new) := by
    rw [lastOpened_snoc, hopened]
  have hsame : lastMapped (before ++ [c]) = lastMapped before := by rw [lastMapped_snoc, hmapped]
  intro h hh
  have hfit := hfits h hh
  cases h with
  | object name => exact hfit
  | fd n =>
    obtain ⟨hn, node, hnode, htype⟩ := hfit
    exact ⟨hn, node, by rw [hlast, Function.update_of_ne (hfd n hh), hnode], htype⟩
  | map kind addr =>
    obtain ⟨node, hnode, hkind⟩ := hfit
    refine ⟨node, hsame ▸ hnode, ?_⟩
    by_cases heq : node.fd = new.fd
    · rw [hlast, heq, Function.update_self]
      exact hkeep kind addr node hh hnode heq
    · rw [hlast, Function.update_of_ne heq, hkind]

/-- A call that maps something. -/
theorem fits_mapped {new : AddrNode w} (hopened : c.opened = none) (hmapped : c.mapped = some new)
    (hnew : ∀ kind, .map kind new.addr ∉ o) (hfits : ∀ h ∈ o, h.Fits names before) :
    ∀ h ∈ o, h.Fits names (before ++ [c]) := by
  have hsame : lastOpened (before ++ [c]) = lastOpened before := by rw [lastOpened_snoc, hopened]
  have hlast : lastMapped (before ++ [c]) = Function.update (lastMapped before) new.addr (some new) := by
    rw [lastMapped_snoc, hmapped]
  intro h hh
  have hfit := hfits h hh
  cases h with
  | object name => exact hfit
  | fd n => rwa [PosixHandle.Fits, hsame]
  | map kind addr =>
    obtain ⟨node, hnode, hkind⟩ := hfit
    have hne : addr ≠ new.addr := fun heq => hnew kind (heq ▸ hh)
    exact ⟨node, by rw [hlast, Function.update_of_ne hne, hnode], hsame ▸ hkind⟩

/-- A call that opens and maps nothing. -/
theorem fits_still (hopened : c.opened = none) (hmapped : c.mapped = none) {h : PosixHandle w}
    (hfit : h.Fits names before) : h.Fits names (before ++ [c]) := by
  have hsame : lastOpened (before ++ [c]) = lastOpened before := by rw [lastOpened_snoc, hopened]
  have hsame' : lastMapped (before ++ [c]) = lastMapped before := by rw [lastMapped_snoc, hmapped]
  cases h with
  | object name => exact hfit
  | fd n => rwa [PosixHandle.Fits, hsame]
  | map kind addr => rwa [PosixHandle.Fits, hsame', hsame]

/-- **The handles fit the history** behind a call. -/
theorem PosixCall.Valid.fits (hvalid : c.Valid page before o) (hname : ∀ name ∈ c.object, name ∈ names)
    (hfits : ∀ h ∈ o, h.Fits names before) : ∀ h ∈ c.handles page before o, h.Fits names (before ++ [c]) := by
  cases c with
  | shmOpen name oflag mode rc =>
    obtain ⟨hrc, hnew, -, hkeep⟩ := hvalid
    have hold := fits_opened (c := .shmOpen name oflag mode rc) rfl rfl
      (fun n hn heq => hnew (Int.ofNat.inj heq ▸ hn)) hkeep hfits
    intro h hh
    rcases Finset.mem_insert.mp hh with rfl | hh
    · exact ⟨hrc, _, by rw [lastOpened_snoc]; exact Function.update_self .., rfl⟩
    · split at hh
      next hcreat =>
        rcases Finset.mem_insert.mp hh with rfl | hh
        · exact hname name (if_pos hcreat)
        · exact hold h hh
      · exact hold h hh
  | shmUnlink name =>
    exact fun h hh => fits_still rfl rfl (hfits h (Finset.mem_of_mem_erase hh))
  | open_ pathname flags rc =>
    exact fits_opened rfl rfl (fun n hn heq => hvalid.1 (Int.ofNat.inj heq ▸ hn)) hvalid.2 hfits
  | open64 pathname flags rc =>
    exact fits_opened rfl rfl (fun n hn heq => hvalid.1 (Int.ofNat.inj heq ▸ hn)) hvalid.2 hfits
  | creat pathname rc =>
    exact fits_opened rfl rfl (fun n hn heq => hvalid.1 (Int.ofNat.inj heq ▸ hn)) hvalid.2 hfits
  | mmap length prot flags fd offset rc =>
    have hold := fits_mapped (c := .mmap length prot flags fd offset rc) rfl rfl hvalid hfits
    intro h hh
    rcases Finset.mem_insert.mp hh with rfl | hh
    · exact ⟨_, by rw [lastMapped_snoc]; exact Function.update_self .., by rw [lastOpened_snoc]; rfl⟩
    · exact hold h hh
  | mmap64 length prot flags fd offset rc =>
    have hold := fits_mapped (c := .mmap64 length prot flags fd offset rc) rfl rfl hvalid hfits
    intro h hh
    rcases Finset.mem_insert.mp hh with rfl | hh
    · exact ⟨_, by rw [lastMapped_snoc]; exact Function.update_self .., by rw [lastOpened_snoc]; rfl⟩
    · exact hold h hh
  | munmap addr length =>
    exact fun h hh => fits_still rfl rfl (hfits h (Finset.mem_of_mem_filter h hh))
  | close fd =>
    exact fun h hh => fits_still rfl rfl (hfits h (Finset.mem_of_mem_erase hh))

/-! ## Handles and resources -/

def PosixTypes.all (res : PosixTypes) : List (BitVec 32) :=
  [res.pshmmap, res.fshmmap, res.shmmap, res.pshmobj, res.pshmfd]

theorem PosixTypes.ofKind_inj {res : PosixTypes} (hdistinct : res.all.Nodup) {k k' : MapKind}
    (h : res.ofKind k = res.ofKind k') : k = k' := by
  simp only [PosixTypes.all, List.nodup_cons, List.mem_cons, not_or] at hdistinct
  cases k <;> cases k' <;> simp_all [PosixTypes.ofKind]

theorem PosixTypes.ofKind_ne {res : PosixTypes} (hdistinct : res.all.Nodup) (k : MapKind) :
    res.ofKind k ≠ res.pshmobj ∧ res.ofKind k ≠ res.pshmfd ∧ res.pshmobj ≠ res.pshmfd := by
  simp only [PosixTypes.all, List.nodup_cons, List.mem_cons, not_or] at hdistinct
  cases k <;> simp_all [PosixTypes.ofKind]

variable {res : PosixTypes} {value : Str → BitVec 32}

/-- The names of the run, and descriptors that are an `int`. -/
def PosixHandle.Good (names : List Str) : PosixHandle w → Prop
  | .object name => name ∈ names
  | .fd n => n < 2 ^ 31
  | .map _ _ => True

theorem PosixHandle.Fits.good {h : PosixHandle w} (hfit : h.Fits names before) : h.Good names := by
  cases h with
  | object name => exact hfit
  | fd n => exact hfit.1
  | map kind addr => trivial

/-- Handles have resources of their own. -/
theorem PosixHandle.key_inj (hw : 32 ≤ w) (hdistinct : res.all.Nodup)
    (hvalue : ∀ a ∈ names, ∀ b ∈ names, value a = value b → a = b) {h h' : PosixHandle w}
    (hgood : h.Good names) (hgood' : h'.Good names) (heq : h.key res value = h'.key res value) : h = h' := by
  obtain ⟨htype, hid⟩ := Prod.mk.inj heq
  cases h with
  | object name =>
    cases h' with
    | object name' => rw [hvalue name hgood name' hgood' (setWidth_inj hw hid)]
    | fd n => exact absurd (setWidth_inj hw htype) (res.ofKind_ne hdistinct .posix).2.2
    | map kind addr => exact absurd (setWidth_inj hw htype).symm (res.ofKind_ne hdistinct kind).1
  | fd n =>
    cases h' with
    | object name => exact absurd (setWidth_inj hw htype).symm (res.ofKind_ne hdistinct .posix).2.2
    | fd n' => rw [ofNat_inj hw hgood hgood' hid]
    | map kind addr => exact absurd (setWidth_inj hw htype).symm (res.ofKind_ne hdistinct kind).2.1
  | map kind addr =>
    cases h' with
    | object name => exact absurd (setWidth_inj hw htype) (res.ofKind_ne hdistinct kind).1
    | fd n => exact absurd (setWidth_inj hw htype) (res.ofKind_ne hdistinct kind).2.1
    | map kind' addr' => rw [PosixTypes.ofKind_inj hdistinct (setWidth_inj hw htype), show addr = addr' from hid]

/-- The function calls as the leak filter sees them. -/
def posixEvents (log : List (ModuleFcall w × List ModuleFarg)) : List (ResourceCall w) :=
  log.map fun c => resourceCall c.1

/-- A mapping of the program is released as what it is. -/
theorem erase_mapping (hfits : ∀ h ∈ o, h.Fits names before) {addr length : BitVec w}
    (hunmaps : Unmaps page before o addr length) :
    o.erase (.map (mapKind (mappedFile before addr)) addr)
      = o.filter fun h => h.unmapped page before addr length = false := by
  ext h
  rw [Finset.mem_erase, Finset.mem_filter, and_comm, and_congr_right_iff]
  intro hh
  have hfit := hfits h hh
  cases h with
  | object name => simp [PosixHandle.unmapped]
  | fd n => simp [PosixHandle.unmapped]
  | map kind a =>
    obtain ⟨node, hnode, hkind⟩ := hfit
    have htaken : PosixHandle.unmapped page before addr length (.map kind a) = decide (a = addr) :=
      decide_eq_decide.mpr (hunmaps kind a hh).1
    rw [htaken]
    by_cases ha : a = addr
    · subst ha
      simp [mappedFile, hnode, hkind]
    · simp [ha]

/-- **One call**: its function calls allocate and release what the program
gets and gives back. -/
theorem PosixCall.Valid.accounts (hvalid : c.Valid page before o) (hname : ∀ name ∈ c.object, name ∈ names)
    (hfits : ∀ h ∈ o, h.Fits names before)
    (hinj : ∀ h h' : PosixHandle w, h.Good names → h'.Good names → h.key res value = h'.key res value → h = h') :
    Accounts ResourceCall.kind ResourceCall.key (PosixHandle.key res value) o
      (posixEvents (c.records res value before)) (c.handles page before o) := by
  have hgood : ∀ h ∈ o, h.Good names := fun h hh => (hfits h hh).good
  have halloc : ∀ (o' : Finset (PosixHandle w)) (x : PosixHandle w) (call : ResourceCall w),
      (∀ h ∈ o', h.Good names) → call.kind = .alloc → call.key = x.key res value → x.Good names → x ∉ o' →
      Accounts ResourceCall.kind ResourceCall.key (PosixHandle.key res value) o' [call] (insert x o') :=
    fun o' x call ho' hkind hkey hx hnew => .alloc hkind hkey hnew fun y hy => hinj y x (ho' y hy) hx
  have hfree : ∀ (x : PosixHandle w) (call : ResourceCall w), call.kind = .free →
      call.key = x.key res value → x.Good names →
      Accounts ResourceCall.kind ResourceCall.key (PosixHandle.key res value) o [call] (o.erase x) :=
    fun x call hkind hkey hx => .free hkind hkey fun y hy => hinj y x (hgood y hy) hx
  cases c with
  | shmOpen name oflag mode rc =>
    obtain ⟨hrc, hfd, hobject, -⟩ := hvalid
    by_cases hcreat : oflag &&& oCreat ≠ 0
    · have hmem := hname name (if_pos hcreat)
      rw [PosixCall.records, PosixCall.handles, if_pos hcreat, if_pos hcreat]
      refine (halloc o (.object name) _ hgood rfl rfl hmem (hobject hcreat)).append
        (halloc _ (.fd rc) _ (fun h hh => ?_) rfl rfl hrc (by simp [hfd]))
      rcases Finset.mem_insert.mp hh with rfl | hh
      · exact hmem
      · exact hgood h hh
    · rw [PosixCall.records, PosixCall.handles, if_neg hcreat, if_neg hcreat]
      exact halloc o (.fd rc) _ hgood rfl rfl hrc hfd
  | shmUnlink name => exact hfree (.object name) _ rfl rfl (hname name rfl)
  | open_ pathname flags rc => exact .nil o
  | open64 pathname flags rc => exact .nil o
  | creat pathname rc => exact .nil o
  | mmap length prot flags fd offset rc =>
    refine halloc o _ _ hgood rfl ?_ trivial (hvalid _)
    simp [resourceCall, posixCall, ResourceCall.key, PosixHandle.key, PosixTypes.ofFd_eq]
  | mmap64 length prot flags fd offset rc =>
    refine halloc o _ _ hgood rfl ?_ trivial (hvalid _)
    simp [resourceCall, posixCall, ResourceCall.key, PosixHandle.key, PosixTypes.ofFd_eq]
  | munmap addr length =>
    rw [PosixCall.handles, ← erase_mapping hfits hvalid]
    refine hfree _ _ rfl ?_ trivial
    simp [resourceCall, posixCall, ResourceCall.key, PosixHandle.key, PosixTypes.ofFd_eq]
  | close fd =>
    rw [PosixCall.records, PosixCall.handles]
    split
    · exact hfree (.fd fd) _ rfl rfl hvalid
    next hclosed =>
      have hnone : .fd fd ∉ o := fun hmem => by
        obtain ⟨-, node, hnode, htype⟩ := hfits _ hmem
        simp [hnode, htype] at hclosed
      rw [Finset.erase_eq_of_notMem hnone]
      exact .nil o

/-! ## Runs -/

/-- **Some calls.** -/
theorem run_accounts {calls : List (PosixCall w)} (hrun : PosixRun page before o calls)
    (hnames : ∀ name ∈ objectNames calls, name ∈ names) (hfits : ∀ h ∈ o, h.Fits names before)
    (hinj : ∀ h h' : PosixHandle w, h.Good names → h'.Good names → h.key res value = h'.key res value → h = h') :
    Accounts ResourceCall.kind ResourceCall.key (PosixHandle.key res value) o
      (posixEvents (posixLog res value before calls)) (posixHandles page before o calls) := by
  induction calls generalizing before o with
  | nil => exact .nil o
  | cons c calls ih =>
    obtain ⟨hvalid, hrest⟩ := hrun
    have hhead : ∀ name ∈ c.object, name ∈ names := fun name hmem =>
      hnames name (mem_objectNames_cons.mpr (.inl hmem))
    have htail : ∀ name ∈ objectNames calls, name ∈ names := fun name hmem =>
      hnames name (mem_objectNames_cons.mpr (.inr hmem))
    have hone := hvalid.accounts hhead hfits hinj
    rw [posixLog, posixEvents, List.map_append]
    exact hone.append (ih hrest htail (hvalid.fits hhead hfits))

/-- The types of the function calls. -/
theorem posixLog_types (before calls : List (PosixCall w)) :
    ∀ e ∈ posixEvents (posixLog res value before calls), ∃ type ∈ res.all, e.resTypeId = type.setWidth w := by
  induction calls generalizing before with
  | nil => simp [posixLog, posixEvents]
  | cons c calls ih =>
    rw [posixLog, posixEvents, List.map_append]
    intro e he
    rcases List.mem_append.mp he with he | he
    · obtain ⟨r, hr, rfl⟩ := List.mem_map.mp he
      refine ⟨r.1.resTypeId, ?_, rfl⟩
      have hmap : ∀ pfd, res.ofFd pfd ∈ res.all := fun pfd => by
        rw [PosixTypes.ofFd_eq]
        cases mapKind pfd <;> simp [PosixTypes.ofKind, PosixTypes.all]
      cases c with
      | shmOpen name oflag mode rc =>
        rw [PosixCall.records] at hr
        rcases List.mem_append.mp hr with hr | hr
        · split at hr
          · obtain rfl := List.mem_singleton.mp hr
            simp [posixCall, PosixTypes.all]
          · cases hr
        · obtain rfl := List.mem_singleton.mp hr
          simp [posixCall, PosixTypes.all]
      | shmUnlink name =>
        obtain rfl := List.mem_singleton.mp hr
        simp [posixCall, PosixTypes.all]
      | open_ pathname flags rc => cases hr
      | open64 pathname flags rc => cases hr
      | creat pathname rc => cases hr
      | mmap length prot flags fd offset rc =>
        obtain rfl := List.mem_singleton.mp hr
        exact hmap _
      | mmap64 length prot flags fd offset rc =>
        obtain rfl := List.mem_singleton.mp hr
        exact hmap _
      | munmap addr length =>
        obtain rfl := List.mem_singleton.mp hr
        exact hmap _
      | close fd =>
        rw [PosixCall.records] at hr
        split at hr
        · obtain rfl := List.mem_singleton.mp hr
          simp [posixCall, PosixTypes.all]
        · cases hr
    · exact ih (before ++ [c]) e he

/-- **Shared memory tracing is exact**: what the leak filter leaves of a run
are the objects, descriptors and mappings that the program still has, each
once. -/
theorem posixShm_exact (hw : 32 ≤ w) {balance : Balancing w} (hbalance : balance.Sound)
    (hdistinct : res.all.Nodup) {counted : BitVec w → Bool}
    (hcount : ∀ type ∈ res.all, counted (type.setWidth w) = false) {calls : List (PosixCall w)}
    (hnul : ∀ name ∈ objectNames calls, NoNul name) (hcard : (objectNames calls).toFinset.card < 2 ^ 32)
    (hrun : PosixRun page [] ∅ calls) :
    ∃ t value, posixShmRun balance res calls = some t ∧
      (∀ a ∈ objectNames calls, ∀ b ∈ objectNames calls, value a = value b → a = b) ∧
      LeaksOwed counted (posixEvents t.calls) ((posixHandles page [] ∅ calls).image (PosixHandle.key res value)) := by
  obtain ⟨t, htrace, hvalue, hcalls⟩ := run_values hbalance res hnul hcard
  refine ⟨t, nameValue t.nregRoot, htrace, hvalue, ?_⟩
  have haccounts := run_accounts hrun (fun _ hmem => hmem) (by simp)
    fun h h' => PosixHandle.key_inj hw hdistinct hvalue
  rw [hcalls]
  refine haccounts.leaksOwed fun e he => ?_
  obtain ⟨type, htype, heq⟩ := posixLog_types [] calls e he
  rw [heq, hcount type htype]

/-- An object is mapped and unmapped, and a file is mapped under another
descriptor. -/
def keptRun : List (PosixCall 64) :=
  [.shmOpen "/a".toList 0x42 0x180 3, .mmap 4096 3 1 3 0 0x7000, .close 3, .open_ "f".toList 0 4,
    .mmap 4096 1 2 4 0 0x9000, .close 4, .munmap 0x7000 4096]

/-- The resources, with the ids they are registered with. -/
def posixTypes (res : PosixTypes) : List (Resource w) :=
  res.all.map fun id =>
    { id := id.setWidth w, type := "shm".toList, desc := "shared memory".toList, flags := 0, hide := false }

/-- Left are the object and the mapping of the file. -/
theorem posixShm_exact_keptRun :
    ∃ (t : PosixShm 64) (rd' : Rd 64) (kept : List (ResourceCall 64)),
      posixShmRun ⟨id, id, id⟩ ⟨1, 2, 3, 4, 5⟩ keptRun = some t ∧
      filterLeaks (callLog (posixTypes ⟨1, 2, 3, 4, 5⟩) (posixEvents t.calls)) = some rd' ∧
      rd'.calls.map (storedCall rd') = kept.map some ∧
      ∀ type, type ∈ kept.map ResourceCall.resTypeId ↔ type ∈ [4, 2] := by
  have hbalance : Balancing.Sound (⟨id, id, id⟩ : Balancing 64) := ⟨fun _ => rfl, fun _ => rfl, fun _ => rfl⟩
  have hnul : ∀ name ∈ objectNames keptRun, NoNul name := by
    simp [keptRun, objectNames, PosixCall.object, oCreat, NoNul]
  have hrun : PosixRun 4096 [] ∅ keptRun := by
    simp [keptRun, PosixRun, PosixCall.Valid, PosixCall.handles, KeepsKind, oCreat, lastMapped, PosixCall.mapped]
    refine ⟨?_, fun kind a hmem => ?_⟩
    · rintro k addr node - rfl hfind hfd
      have hnode : some ({ addr := 0x7000, fd := 3 } : AddrNode 64) = some node := hfind
      obtain rfl := Option.some.inj hnode
      exact absurd hfd (by decide)
    · -- each mapping takes one page
      have haddr : a = 0x9000 ∨ a = 0x7000 := by
        simp at hmem
        tauto
      rcases haddr with rfl | rfl
      · decide
      · decide
  have hexact : ∃ t value, posixShmRun ⟨id, id, id⟩ ⟨1, 2, 3, 4, 5⟩ keptRun = some t ∧ _ ∧
      LeaksOwed (fun _ => false) (posixEvents t.calls)
        ((posixHandles 4096 [] ∅ keptRun).image (PosixHandle.key ⟨1, 2, 3, 4, 5⟩ value)) :=
    posixShm_exact (by decide) hbalance (by decide) (fun _ _ => rfl) hnul (by decide) hrun
  obtain ⟨t, value, htrace, -, hleaks⟩ := hexact
  have htypes : ∀ e ∈ posixEvents t.calls,
      ∃ r ∈ (posixTypes ⟨1, 2, 3, 4, 5⟩ : List (Resource 64)), r.id = e.resTypeId := by
    obtain ⟨t', htrace', -, hcalls⟩ := run_values hbalance ⟨1, 2, 3, 4, 5⟩ hnul (by decide)
    obtain rfl : t = t' := Option.some.inj (htrace.symm.trans htrace')
    intro e he
    obtain ⟨type, htype, heq⟩ := posixLog_types [] keptRun e (hcalls ▸ he)
    exact ⟨_, List.mem_map_of_mem htype, heq.symm⟩
  have hcount : ∀ r ∈ (posixTypes ⟨1, 2, 3, 4, 5⟩ : List (Resource 64)), r.refcounted = false := by decide
  have hrec : Recorded (callLog (posixTypes ⟨1, 2, 3, 4, 5⟩) (posixEvents t.calls)) (fun _ => false) _ :=
    callLog_recorded htypes (by decide) hcount
  obtain ⟨rd', kept, hfilter, hcalls, -, -, -, hkeys⟩ := hleaks ⟨_, (callLog_spec htypes).1⟩ hrec
  have hhandles : posixHandles 4096 [] ∅ keptRun = {.object "/a".toList, .map .file 0x9000} := by decide
  refine ⟨t, rd', kept, htrace, hfilter, hcalls, fun type => ?_⟩
  have hfst : kept.map ResourceCall.resTypeId = (kept.map ResourceCall.key).map Prod.fst := by
    rw [List.map_map]
    rfl
  rw [hfst, List.mem_map]
  simp only [hkeys, hhandles]
  simp [PosixHandle.key, PosixTypes.ofKind, eq_comm]

end SpRtrace.Modules
