/-
SpRtrace.Modules.PosixShmTheorems — what the module for POSIX shared memory
writes, without its registries.

The log of a run is told by the history of the program alone
(`posixLog`): what was opened last under a descriptor, which descriptor was
mapped last at an address, and a value for each object name. The trees of
the module hold just that (`Shows`), whatever way they are balanced, and no
two names share a value.
-/
import SpRtrace.Modules.NameRegistryTheorems
import SpRtrace.Modules.PosixShm

namespace SpRtrace.Modules

open SpRtrace.Lib SpRtrace.Common

variable {w : Nat}

/-! ## The history of a program -/

def PosixCall.opened : PosixCall w → Option FdregNode
  | .shmOpen name oflag _ rc => some { type := .posix, name, fd := rc, mode := oflag }
  | .open_ pathname flags rc => some { type := .file, name := pathname, fd := rc, mode := flags }
  | .open64 pathname flags rc => some { type := .file, name := pathname, fd := rc, mode := flags }
  | .creat pathname rc => some { type := .file, name := pathname, fd := rc, mode := creatFlags }
  | _ => none

def PosixCall.mapped : PosixCall w → Option (AddrNode w)
  | .mmap _ _ _ fd _ rc => some { addr := rc, fd }
  | .mmap64 _ _ _ fd _ rc => some { addr := rc, fd }
  | _ => none

/-- What was opened last under a descriptor. -/
def lastOpened (before : List (PosixCall w)) (fd : Int) : Option FdregNode :=
  (before.filterMap PosixCall.opened).reverse.find? fun node => node.fd = fd

/-- What was mapped last at an address. -/
def lastMapped (before : List (PosixCall w)) (addr : BitVec w) : Option (AddrNode w) :=
  (before.filterMap PosixCall.mapped).reverse.find? fun node => node.addr = addr

/-- What is open now under the descriptor that was mapped last at an address. -/
def mappedFile (before : List (PosixCall w)) (addr : BitVec w) : Option FdregNode :=
  (lastMapped before addr).bind fun node => lastOpened before node.fd

/-- The name that a call looks up. -/
def PosixCall.object : PosixCall w → Option Str
  | .shmOpen name oflag _ _ => if oflag &&& oCreat ≠ 0 then some name else none
  | .shmUnlink name => some name
  | _ => none

def objectNames (calls : List (PosixCall w)) : List Str := calls.filterMap PosixCall.object

theorem mem_objectNames_cons {c : PosixCall w} {calls : List (PosixCall w)} {name : Str} :
    name ∈ objectNames (c :: calls) ↔ c.object = some name ∨ name ∈ objectNames calls := by
  simp [objectNames]

def PosixCall.records (res : PosixTypes) (value : Str → BitVec 32) (before : List (PosixCall w)) :
    PosixCall w → List (ModuleFcall w × List ModuleFarg)
  | .shmOpen name oflag mode rc =>
      (if oflag &&& oCreat ≠ 0 then
        [(posixCall ftypeAlloc "shm_open" res.pshmobj ((value name).setWidth w) 1, shmOpenArgs name oflag mode)]
      else []) ++
      [(posixCall ftypeAlloc "shm_open" res.pshmfd (BitVec.ofNat w rc) 1, shmOpenArgs name oflag mode)]
  | .shmUnlink name =>
      [(posixCall ftypeFree "shm_unlink" res.pshmobj ((value name).setWidth w) 0, [farg "name" name])]
  | .mmap length prot flags fd offset rc =>
      [(posixCall ftypeAlloc "mmap" (res.ofFd (lastOpened before fd)) rc (length.setWidth 32),
        mmapArgs (lastOpened before fd) length prot flags fd (offset.signExtend 64))]
  | .mmap64 length prot flags fd offset rc =>
      [(posixCall ftypeAlloc "mmap64" (res.ofFd (lastOpened before fd)) rc (length.setWidth 32),
        mmapArgs (lastOpened before fd) length prot flags fd offset)]
  | .munmap addr length =>
      [(posixCall ftypeFree "munmap" (res.ofFd (mappedFile before addr)) addr 0,
        [farg "length" (snprintf 16 (hexLong length))])]
  | .close fd =>
      if (lastOpened before fd).any fun node => node.type = .posix then
        [(posixCall ftypeFree "close" res.pshmfd (BitVec.ofNat w fd) 0, [])]
      else []
  | _ => []

/-- The function calls for some calls that come after `before`. -/
def posixLog (res : PosixTypes) (value : Str → BitVec 32) (before : List (PosixCall w)) :
    List (PosixCall w) → List (ModuleFcall w × List ModuleFarg)
  | [] => []
  | c :: calls => c.records res value before ++ posixLog res value (before ++ [c]) calls

/-! ## The registries -/

theorem fdregCompareFd_compares :
    SearchTree.Compares fdregCompareFd FdregNode.fd fun a b => a - b where
  strict :=
    { swap := fun x y => by
        unfold fdregCompareFd
        omega
      trans := fun x y z => by
        unfold fdregCompareFd
        omega }
  keys := fun _ _ => rfl
  zero := fun a b => by omega

theorem addrCompare_compares :
    SearchTree.Compares (addrCompare (w := w)) AddrNode.addr
      fun a b => if a < b then -1 else if b < a then 1 else 0 where
  strict :=
    { swap := fun x y => by
        unfold addrCompare
        split <;> split <;> bv_omega
      trans := fun x y z => by
        unfold addrCompare
        intro hxy hyz
        split at hxy <;> split at hyz <;> bv_omega }
  keys := fun _ _ => rfl
  zero := fun a b => by
    rw [← BitVec.toNat_inj]
    simp only [BitVec.lt_def]
    split
    · omega
    · split <;> omega

/-- The trees may be balanced in any way. -/
structure Balancing.Sound (balance : Balancing w) : Prop where
  nreg : SearchTree.Balances balance.nreg
  fdreg : SearchTree.Balances balance.fdreg
  addr : SearchTree.Balances balance.addr

theorem lastOpened_snoc (before : List (PosixCall w)) (c : PosixCall w) : lastOpened (before ++ [c])
    = match c.opened with
      | some node => Function.update (lastOpened before) node.fd (some node)
      | none => lastOpened before := by
  funext fd
  cases hc : c.opened with
  | none => simp [lastOpened, hc]
  | some node =>
    by_cases hfd : node.fd = fd
    · subst hfd
      simp [lastOpened, hc]
    · simp [lastOpened, hc, hfd, Ne.symm hfd]

theorem lastMapped_snoc (before : List (PosixCall w)) (c : PosixCall w) : lastMapped (before ++ [c])
    = match c.mapped with
      | some node => Function.update (lastMapped before) node.addr (some node)
      | none => lastMapped before := by
  funext addr
  cases hc : c.mapped with
  | none => simp [lastMapped, hc]
  | some node =>
    by_cases haddr : node.addr = addr
    · subst haddr
      simp [lastMapped, hc]
    · simp [lastMapped, hc, haddr, Ne.symm haddr]

/-- The registries of the module hold the history. -/
structure Shows (t : PosixShm w) (before : List (PosixCall w)) : Prop where
  names : Registry t.nregRoot
  opened : SearchTree.Keeps fdregCompareFd FdregNode.fd t.fdregRoot (lastOpened before)
  mapped : SearchTree.Keeps addrCompare AddrNode.addr t.addrRoot (lastMapped before)

theorem Shows.start (res : PosixTypes) : Shows (PosixShm.init res : PosixShm w) [] :=
  ⟨.start, .nil, .nil⟩

variable {t : PosixShm w} {before : List (PosixCall w)}

/-- **A lookup of a descriptor.** -/
theorem Shows.fdregGetFd (h : Shows t before) (fd : Int) : fdregGetFd t.fdregRoot fd = lastOpened before fd :=
  h.opened.tfind fdregCompareFd_compares _

/-- **A lookup of an address.** -/
theorem Shows.addrGet (h : Shows t before) (addr : BitVec w) : addrGet t.addrRoot addr = lastMapped before addr :=
  h.mapped.tfind addrCompare_compares _

variable {balance : Balancing w}

/-- A descriptor is registered. -/
theorem Shows.storeFd (h : Shows t before) (hbalance : balance.Sound) {c : PosixCall w} {fd : Nat} {name : Str}
    {type : FdregType} {mode : BitVec 32} (hopened : c.opened = some { type, name, fd, mode })
    (hmapped : c.mapped = none) : Shows (t.storeFd balance fd name type mode) (before ++ [c]) := by
  refine ⟨h.names, ?_, ?_⟩
  · rw [lastOpened_snoc, hopened]
    exact h.opened.put fdregCompareFd_compares hbalance.fdreg rfl fun item hkey => by
      obtain ⟨_, _, fd', _⟩ := item
      obtain rfl : fd' = (fd : Int) := hkey
      rfl
  · rw [lastMapped_snoc, hmapped]
    exact h.mapped

/-- An address is registered. -/
theorem Shows.addrStore (h : Shows t before) (hbalance : balance.Sound) {c : PosixCall w} {addr : BitVec w}
    {fd : Int} (hopened : c.opened = none) (hmapped : c.mapped = some { addr, fd }) :
    Shows { t with addrRoot := addrStore balance.addr t.addrRoot addr fd } (before ++ [c]) := by
  refine ⟨h.names, ?_, ?_⟩
  · rw [lastOpened_snoc, hopened]
    exact h.opened
  · rw [lastMapped_snoc, hmapped]
    exact h.mapped.put addrCompare_compares hbalance.addr rfl fun item hkey => by
      obtain ⟨addr', _⟩ := item
      obtain rfl : addr' = addr := hkey
      rfl

/-- A call that opens and maps nothing. -/
theorem Shows.still (h : Shows t before) {c : PosixCall w} (hopened : c.opened = none) (hmapped : c.mapped = none) :
    Shows t (before ++ [c]) := by
  refine ⟨h.names, ?_, ?_⟩
  · rw [lastOpened_snoc, hopened]
    exact h.opened
  · rw [lastMapped_snoc, hmapped]
    exact h.mapped

theorem Shows.write (h : Shows t before) (call : ModuleFcall w) (args : List ModuleFarg) :
    Shows (t.write call args) before :=
  ⟨h.names, h.opened, h.mapped⟩

/-! ## Names -/

/-- A lookup of a name, which is one of `used`. -/
theorem Shows.getHash (h : Shows t before) (hbalance : balance.Sound) {used : Finset Str}
    (hcard : used.card < 2 ^ 32) (hused : ∀ node ∈ t.nregRoot.items, node.name ∈ used) {name : Str}
    (hnul : NoNul name) (hname : name ∈ used) :
    ∃ root hash, t.getHash balance name = some ({ t with nregRoot := root }, hash) ∧ Registry root ∧
      { name, hash } ∈ root.items ∧ t.nregRoot.items ⊆ root.items ∧ ∀ node ∈ root.items, node.name ∈ used := by
  obtain ⟨root, hash, hget, hroot, hnode, hsub, hnodes⟩ := nregGetHash_spec hbalance.nreg h.names
    ((h.names.length_le hused).trans_lt hcard) hnul
  refine ⟨root, hash, by simp [PosixShm.getHash, hget], hroot, hnode, hsub, fun node hmem => ?_⟩
  rcases hnodes node hmem with hold | rfl
  · exact hused node hold
  · exact hname

/-- The values are those of the nodes. -/
def Values (value : Str → BitVec 32) (root : SearchTree NregNode) : Prop :=
  ∀ node ∈ root.items, value node.name = node.hash

/-- What one call, or some calls, make of the module: the log is that of the
history with the values of the registry. -/
structure Logs (t t' : PosixShm w) (after : List (PosixCall w)) (used : Finset Str) (objects : List Str)
    (log : (Str → BitVec 32) → List (ModuleFcall w × List ModuleFarg)) : Prop where
  shows : Shows t' after
  res : t'.res = t.res
  names : t.nregRoot.items ⊆ t'.nregRoot.items
  used : ∀ node ∈ t'.nregRoot.items, node.name ∈ used
  objects : ∀ name ∈ objects, ∃ node ∈ t'.nregRoot.items, node.name = name
  calls : ∀ value, Values value t'.nregRoot → t'.calls = t.calls ++ log value

/-- **One call** of the program. -/
theorem trace_logs (hbalance : balance.Sound) (h : Shows t before) {used : Finset Str}
    (hcard : used.card < 2 ^ 32) (hused : ∀ node ∈ t.nregRoot.items, node.name ∈ used) (c : PosixCall w)
    (hname : ∀ name ∈ c.object, NoNul name ∧ name ∈ used) :
    ∃ t', t.trace balance c = some t' ∧
      Logs t t' (before ++ [c]) used (objectNames [c]) fun value => c.records t.res value before := by
  have hself : t.nregRoot.items ⊆ t.nregRoot.items := List.Subset.refl _
  have hnone : ∀ d : PosixCall w, d.object = none →
      ∀ name ∈ objectNames [d], ∃ node ∈ t.nregRoot.items, node.name = name := fun d hd => by
    simp [objectNames, hd]
  cases c with
  | shmOpen name oflag mode rc =>
    have hstore := h.storeFd hbalance (c := .shmOpen name oflag mode rc) rfl rfl
    by_cases hcreat : oflag &&& oCreat ≠ 0
    · obtain ⟨hnul, hmem⟩ := hname name (if_pos hcreat)
      obtain ⟨root, hash, hget, hroot, hnode, hsub, hroots⟩ :=
        hstore.getHash hbalance hcard hused hnul hmem
      have htrace : t.trace balance (.shmOpen name oflag mode rc) = some
          ((({ t.storeFd balance rc name .posix oflag with nregRoot := root } : PosixShm w).write
            (posixCall ftypeAlloc "shm_open" t.res.pshmobj (hash.setWidth w) 1) (shmOpenArgs name oflag mode)).write
            (posixCall ftypeAlloc "shm_open" t.res.pshmfd (BitVec.ofNat w rc) 1) (shmOpenArgs name oflag mode)) := by
        simp only [PosixShm.trace, traceShmOpen]
        rw [if_pos hcreat, hget]
        rfl
      refine ⟨_, htrace, ⟨⟨hroot, hstore.opened, hstore.mapped⟩, rfl, hsub, hroots, fun object hmem => ?_,
        fun value hvalue => ?_⟩⟩
      · have hobject : (PosixCall.shmOpen name oflag mode rc : PosixCall w).object = some name := if_pos hcreat
        obtain rfl : object = name := by simpa [objectNames, hobject] using hmem
        exact ⟨_, hnode, rfl⟩
      have hhash : value name = hash := hvalue _ hnode
      rw [PosixCall.records, if_pos hcreat, hhash]
      simp [PosixShm.write, PosixShm.storeFd]
    · have htrace : t.trace balance (.shmOpen name oflag mode rc) = some
          ((t.storeFd balance rc name .posix oflag).write
            (posixCall ftypeAlloc "shm_open" t.res.pshmfd (BitVec.ofNat w rc) 1) (shmOpenArgs name oflag mode)) := by
        simp only [PosixShm.trace, traceShmOpen]
        rw [if_neg hcreat]
        rfl
      refine ⟨_, htrace, ⟨hstore.write _ _, rfl, hself, hused, hnone _ (if_neg hcreat), fun value _ => ?_⟩⟩
      rw [PosixCall.records, if_neg hcreat]
      rfl
  | shmUnlink name =>
    obtain ⟨hnul, hmem⟩ := hname name rfl
    have hstill := h.still (c := .shmUnlink name) rfl rfl
    obtain ⟨root, hash, hget, hroot, hnode, hsub, hroots⟩ := hstill.getHash hbalance hcard hused hnul hmem
    have htrace : t.trace balance (.shmUnlink name) = some
        (({ t with nregRoot := root } : PosixShm w).write
          (posixCall ftypeFree "shm_unlink" t.res.pshmobj (hash.setWidth w) 0) [farg "name" name]) := by
      simp only [PosixShm.trace, traceShmUnlink]
      rw [hget]
      rfl
    refine ⟨_, htrace, ⟨⟨hroot, hstill.opened, hstill.mapped⟩, rfl, hsub, hroots, fun object hmem => ?_,
      fun value hvalue => ?_⟩⟩
    · obtain rfl : object = name := List.mem_singleton.mp hmem
      exact ⟨_, hnode, rfl⟩
    have hhash : value name = hash := hvalue _ hnode
    rw [PosixCall.records, hhash]
    rfl
  | open_ pathname flags rc =>
    exact ⟨_, rfl, ⟨h.storeFd hbalance rfl rfl, rfl, hself, hused, hnone _ rfl, fun _ _ => (List.append_nil _).symm⟩⟩
  | open64 pathname flags rc =>
    exact ⟨_, rfl, ⟨h.storeFd hbalance rfl rfl, rfl, hself, hused, hnone _ rfl, fun _ _ => (List.append_nil _).symm⟩⟩
  | creat pathname rc =>
    exact ⟨_, rfl, ⟨h.storeFd hbalance rfl rfl, rfl, hself, hused, hnone _ rfl, fun _ _ => (List.append_nil _).symm⟩⟩
  | mmap length prot flags fd offset rc =>
    have hstore := h.addrStore hbalance (c := .mmap length prot flags fd offset rc) rfl rfl
    refine ⟨_, rfl, ⟨hstore.write _ _, rfl, hself, hused, hnone _ rfl, fun value _ => ?_⟩⟩
    simp [traceMmap, traceMmapCommon, PosixShm.write, PosixCall.records, h.fdregGetFd]
  | mmap64 length prot flags fd offset rc =>
    have hstore := h.addrStore hbalance (c := .mmap64 length prot flags fd offset rc) rfl rfl
    refine ⟨_, rfl, ⟨hstore.write _ _, rfl, hself, hused, hnone _ rfl, fun value _ => ?_⟩⟩
    simp [traceMmap64, traceMmapCommon, PosixShm.write, PosixCall.records, h.fdregGetFd]
  | munmap addr length =>
    have hstill := h.still (c := .munmap addr length) rfl rfl
    refine ⟨_, rfl, ⟨hstill.write _ _, rfl, hself, hused, hnone _ rfl, fun value _ => ?_⟩⟩
    simp [traceMunmap, PosixShm.write, PosixCall.records, h.fdregGetFd, h.addrGet, mappedFile]
  | close fd =>
    have hstill := h.still (c := .close fd) rfl rfl
    cases hlast : lastOpened before fd with
    | none =>
      have htrace : t.trace balance (.close fd) = some t := by
        simp [PosixShm.trace, traceShmClose, h.fdregGetFd, hlast]
      exact ⟨t, htrace, ⟨hstill, rfl, hself, hused, hnone _ rfl, fun value _ => by simp [PosixCall.records, hlast]⟩⟩
    | some pfd =>
      by_cases hposix : pfd.type = .posix
      · have htrace : t.trace balance (.close fd)
            = some (t.write (posixCall ftypeFree "close" t.res.pshmfd (BitVec.ofNat w fd) 0) []) := by
          simp [PosixShm.trace, traceShmClose, h.fdregGetFd, hlast, hposix]
        exact ⟨_, htrace, ⟨hstill.write _ _, rfl, hself, hused, hnone _ rfl, fun value _ => by
          simp [PosixShm.write, PosixCall.records, hlast, hposix]⟩⟩
      · have htrace : t.trace balance (.close fd) = some t := by
          simp [PosixShm.trace, traceShmClose, h.fdregGetFd, hlast, hposix]
        exact ⟨t, htrace, ⟨hstill, rfl, hself, hused, hnone _ rfl, fun value _ => by
          simp [PosixCall.records, hlast, hposix]⟩⟩

/-! ## Runs -/

/-- **Some calls** of the program. -/
theorem run_logs (hbalance : balance.Sound) {used : Finset Str} (hcard : used.card < 2 ^ 32)
    {calls : List (PosixCall w)} (hnames : ∀ name ∈ objectNames calls, NoNul name ∧ name ∈ used)
    (h : Shows t before) (hused : ∀ node ∈ t.nregRoot.items, node.name ∈ used) :
    ∃ t', calls.foldlM (PosixShm.trace balance) t = some t' ∧
      Logs t t' (before ++ calls) used (objectNames calls) fun value => posixLog t.res value before calls := by
  induction calls generalizing t before with
  | nil =>
    exact ⟨t, rfl, ⟨by simpa using h, rfl, List.Subset.refl _, hused, by simp [objectNames],
      fun _ _ => (List.append_nil _).symm⟩⟩
  | cons c calls ih =>
    have hhead : ∀ name ∈ c.object, NoNul name ∧ name ∈ used := fun name hmem =>
      hnames name (mem_objectNames_cons.mpr (.inl hmem))
    have htail : ∀ name ∈ objectNames calls, NoNul name ∧ name ∈ used := fun name hmem =>
      hnames name (mem_objectNames_cons.mpr (.inr hmem))
    obtain ⟨t₁, htrace, hone⟩ := trace_logs hbalance h hcard hused c hhead
    obtain ⟨t', hrun, hrest⟩ := ih htail hone.shows hone.used
    refine ⟨t', by simp [List.foldlM_cons, htrace, hrun], ⟨by simpa using hrest.shows, hrest.res.trans hone.res,
      fun node hmem => hrest.names (hone.names hmem), hrest.used, fun name hmem => ?_, fun value hvalue => ?_⟩⟩
    · rcases mem_objectNames_cons.mp hmem with hmem | hmem
      · obtain ⟨node, hnode, hname⟩ := hone.objects name (mem_objectNames_cons.mpr (.inl hmem))
        exact ⟨node, hrest.names hnode, hname⟩
      · exact hrest.objects name hmem
    have hcalls := hone.calls value fun node hmem => hvalue node (hrest.names hmem)
    rw [hrest.calls value hvalue, hcalls, hone.res, List.append_assoc]
    rfl

/-- The value of a name in a registry. -/
def nameValue (root : SearchTree NregNode) (name : Str) : BitVec 32 :=
  ((root.items.find? fun node => node.name = name).map NregNode.hash).getD 0

theorem nameValue_values {root : SearchTree NregNode} (h : Registry root) : Values (nameValue root) root := by
  intro node hmem
  have hfound : root.items.find? (fun n => n.name = node.name) = some node := by
    cases hfind : root.items.find? (fun n => n.name = node.name) with
    | none =>
      have := List.find?_eq_none.mp hfind node hmem
      simp at this
    | some found =>
      have hname : found.name = node.name := by simpa using List.find?_some hfind
      rw [List.inj_on_of_nodup_map h.names_nodup (List.mem_of_find?_eq_some hfind) hmem hname]
  simp [nameValue, hfound]

/-- The values of a run, from the registry that it leaves. -/
theorem run_values (hbalance : balance.Sound) (res : PosixTypes) {calls : List (PosixCall w)}
    (hnul : ∀ name ∈ objectNames calls, NoNul name) (hcard : (objectNames calls).toFinset.card < 2 ^ 32) :
    ∃ t, posixShmRun balance res calls = some t ∧
      (∀ a ∈ objectNames calls, ∀ b ∈ objectNames calls,
        nameValue t.nregRoot a = nameValue t.nregRoot b → a = b) ∧
      t.calls = posixLog res (nameValue t.nregRoot) [] calls := by
  obtain ⟨t, hrun, hlogs⟩ := run_logs hbalance hcard
    (fun name hmem => ⟨hnul name hmem, List.mem_toFinset.mpr hmem⟩) (Shows.start res)
    fun node hmem => absurd hmem List.not_mem_nil
  have hvalues := nameValue_values hlogs.shows.names
  refine ⟨t, hrun, fun a ha b hb hsame => ?_, hlogs.calls _ hvalues⟩
  obtain ⟨x, hx, rfl⟩ := hlogs.objects a ha
  obtain ⟨y, hy, rfl⟩ := hlogs.objects b hb
  rw [hvalues x hx, hvalues y hy] at hsame
  exact (hlogs.shows.names.unique hx hy).mpr hsame

/-- **The log of a run** is told by its history: every run of the module comes
to its end, and there are values for the object names, different for
different names, with which each function call is that of the calls before. -/
theorem posixShm_log (hbalance : balance.Sound) (res : PosixTypes) {calls : List (PosixCall w)}
    (hnul : ∀ name ∈ objectNames calls, NoNul name) (hcard : (objectNames calls).toFinset.card < 2 ^ 32) :
    ∃ t value, posixShmRun balance res calls = some t ∧
      (∀ a ∈ objectNames calls, ∀ b ∈ objectNames calls, value a = value b → a = b) ∧
      t.calls = posixLog res value [] calls := by
  obtain ⟨t, hrun, hvalue, hcalls⟩ := run_values hbalance res hnul hcard
  exact ⟨t, nameValue t.nregRoot, hrun, hvalue, hcalls⟩

/-- An object is mapped and its descriptor closed; a file gets the same
descriptor before the mapping goes. -/
def remapRun : List (PosixCall 64) :=
  [.shmOpen "/a".toList 0x42 0x180 3, .mmap 4096 3 1 3 0 0x7000, .close 3, .open_ "f".toList 0 3,
    .munmap 0x7000 4096, .shmUnlink "/a".toList]

/-- The mapping is released as one of a file. -/
theorem posixShm_log_remapRun :
    ∃ t, posixShmRun ⟨id, id, id⟩ ⟨1, 2, 3, 4, 5⟩ remapRun = some t ∧
      (t.calls.map fun c => (c.1.type, c.1.resTypeId))
        = [(ftypeAlloc, 4), (ftypeAlloc, 5), (ftypeAlloc, 1), (ftypeFree, 5), (ftypeFree, 2), (ftypeFree, 4)] := by
  have hbalance : Balancing.Sound (⟨id, id, id⟩ : Balancing 64) := ⟨fun _ => rfl, fun _ => rfl, fun _ => rfl⟩
  have hnul : ∀ name ∈ objectNames remapRun, NoNul name := by
    simp [remapRun, objectNames, PosixCall.object, oCreat, NoNul]
  obtain ⟨t, value, hrun, -, hcalls⟩ := posixShm_log hbalance ⟨1, 2, 3, 4, 5⟩ hnul (by decide)
  exact ⟨t, hrun, by rw [hcalls]; rfl⟩

end SpRtrace.Modules
