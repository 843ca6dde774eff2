/-
SpRtrace.Resolve.NameCacheTheorems — when the name cache shows in the
output.

The cache is compared with the lines that used it (`Use`): a slot holds
the name that the last address in it resolved to (`Mirrors`). A line that
finds its address there gets the name of that time, with the mappings of
that time. Address 0 finds a record that was never written as long as one
of the first five slots is unused. `doResolve_cache_iff` is the exact
condition on a log under which neither can be seen.
-/
import SpRtrace.Resolve.Resolver

namespace SpRtrace.Resolve

open SpRtrace.Lib SpRtrace.Common SpRtrace.Library

variable {w : Nat} {opts : ResolveOptions} {sym : Symbols w}

/-! ## Uses of the cache -/

/-- A line that was resolved with the cache: its address and the mappings
then known. -/
structure Use (w : Nat) where
  addr : BitVec w
  mmaps : SmallArray (RsMmap w)

/-- The last line that used a slot; the newest use is the first. -/
def lastUse (uses : List (Use w)) (slot : Nat) : Option (Use w) :=
  uses.find? fun u => calcHash u.addr = slot

/-- All the slots of address 0 are used. -/
def Filled (uses : List (Use w)) : Prop :=
  ∀ i < cacheSlotCount, (lastUse uses i).isSome

instance (uses : List (Use w)) : Decidable (Filled uses) :=
  inferInstanceAs (Decidable (∀ i < cacheSlotCount, _))

theorem lastUse_hash {uses : List (Use w)} {slot : Nat} {u : Use w}
    (h : lastUse uses slot = some u) : calcHash u.addr = slot := by
  simpa using List.find?_some h

theorem lastUse_cons (u : Use w) (uses : List (Use w)) (slot : Nat) :
    lastUse (u :: uses) slot = if slot = calcHash u.addr then some u else lastUse uses slot := by
  rw [lastUse, List.find?_cons]
  by_cases h : slot = calcHash u.addr
  · simp [h]
  · simp [h, Ne.symm h, lastUse]

theorem Filled.cons {uses : List (Use w)} (h : Filled uses) (u : Use w) : Filled (u :: uses) := by
  intro i hi
  rw [lastUse_cons]
  split
  · rfl
  · exact h i hi

/-- The cache holds what the last uses of its slots resolved to. -/
structure Mirrors (opts : ResolveOptions) (sym : Symbols w) (cache : NameCache w)
    (uses : List (Use w)) : Prop where
  noHits : cache.NoHits
  unused : ∀ i, lastUse uses i = none → (cache i).addr = 0 ∧ (cache i).name = none
  used : ∀ i u, lastUse uses i = some u →
    (cache i).addr = u.addr ∧ (cache i).name = some (resolveName opts sym u.mmaps u.addr)
  zero : ∀ u ∈ uses, u.addr = 0 → Filled uses

theorem mirrors_alloc : Mirrors opts sym namecacheAlloc [] :=
  ⟨namecacheAlloc_noHits, fun _ _ => ⟨rfl, rfl⟩, fun _ _ h => absurd h (by simp [lastUse]),
    fun _ h => absurd h (by simp)⟩

variable {cache : NameCache w} {uses : List (Use w)}

/-- While a slot is unused, address 0 finds a record without a name. -/
theorem Mirrors.get_zero (h : Mirrors opts sym cache uses) (hfilled : ¬ Filled uses) :
    ∃ nc, namecacheGetData cache 0 = some nc ∧ nc.name = none := by
  -- before all slots are used nothing was stored for address 0
  have hunnamed : ∀ i, (cache i).addr = 0 → (cache i).name = none := by
    intro i hi
    cases hlast : lastUse uses i with
    | none => exact (h.unused i hlast).2
    | some u =>
      refine absurd (h.zero u (List.mem_of_find?_eq_some hlast) ?_) hfilled
      rw [← (h.used i u hlast).1, hi]
  obtain ⟨i, hi⟩ : ∃ i, i < cacheSlotCount ∧ lastUse uses i = none := by
    by_contra hall
    refine hfilled fun i hi => ?_
    rw [Option.isSome_iff_ne_none]
    exact fun hnone => hall ⟨i, hi, hnone⟩
  cases hget : namecacheGetData cache (0 : BitVec w) with
  | none =>
    have hmiss := List.find?_eq_none.mp hget (cache (calcHash (0 : BitVec w) + i))
      (List.mem_map_of_mem (List.mem_range.mpr hi.1))
    rw [calcHash_zero, Nat.zero_add] at hmiss
    exact absurd (h.unused i hi.2).1 (by simpa using hmiss)
  | some nc =>
    obtain ⟨j, -, rfl⟩ := List.mem_map.mp (List.mem_of_find?_eq_some hget)
    exact ⟨_, rfl, hunnamed _ (by simpa using List.find?_some hget)⟩

/-- Any other lookup finds the last use of the slot, if it is of the same
address. -/
theorem Mirrors.get (h : Mirrors opts sym cache uses) {addr : BitVec w}
    (haddr : addr = 0 → Filled uses) :
    namecacheGetData cache addr =
      if (lastUse uses (calcHash addr)).any (·.addr = addr) then some (cache (calcHash addr))
      else none := by
  have hother : ∀ i, 0 < i → i < cacheSlotCount → (cache (calcHash addr + i)).addr ≠ addr := by
    intro i hpos hi hsame
    cases hlast : lastUse uses (calcHash addr + i) with
    | none =>
      have hzero : addr = 0 := hsame.symm.trans (h.unused _ hlast).1
      have hfilled := haddr hzero i hi
      rw [hzero, calcHash_zero, Nat.zero_add] at hlast
      rw [hlast] at hfilled
      exact absurd hfilled (by simp)
    | some u =>
      have hhash := lastUse_hash hlast
      rw [← (h.used _ u hlast).1, hsame] at hhash
      omega
  rw [namecacheGetData_first hother]
  cases hlast : lastUse uses (calcHash addr) with
  | some u => simp [(h.used _ u hlast).1]
  | none =>
    have hne : (cache (calcHash addr)).addr ≠ addr := by
      intro hsame
      have hzero : addr = 0 := hsame.symm.trans (h.unused _ hlast).1
      have hfilled := haddr hzero 0 (by decide)
      rw [hzero, calcHash_zero] at hlast
      rw [hlast] at hfilled
      exact absurd hfilled (by simp)
    simp [hne]

/-- A name that is stored. -/
theorem Mirrors.add (h : Mirrors opts sym cache uses) {addr : BitVec w}
    (haddr : addr = 0 → Filled uses) (mmaps : SmallArray (RsMmap w)) :
    Mirrors opts sym (namecacheAdd cache addr (resolveName opts sym mmaps addr))
      (⟨addr, mmaps⟩ :: uses) := by
  have hslot : ∀ i, namecacheAdd cache addr (resolveName opts sym mmaps addr) i =
      if i = calcHash addr then
        { addr, name := some (resolveName opts sym mmaps addr), hits := 0, stamp := accessCounter }
      else cache i := by
    intro i
    rw [namecacheAdd, NameCache.freeSlot_eq h.noHits, Function.update_apply]
  refine ⟨namecacheAdd_noHits h.noHits _ _, ?_, ?_, ?_⟩
  · intro i hlast
    rw [lastUse_cons] at hlast
    by_cases hi : i = calcHash addr
    · simp [hi] at hlast
    · rw [if_neg hi] at hlast
      rw [hslot, if_neg hi]
      exact h.unused i hlast
  · intro i u hlast
    rw [lastUse_cons] at hlast
    by_cases hi : i = calcHash addr
    · obtain rfl : (⟨addr, mmaps⟩ : Use w) = u := by simpa [hi] using hlast
      rw [hslot, if_pos hi]
      exact ⟨rfl, rfl⟩
    · rw [if_neg hi] at hlast
      rw [hslot, if_neg hi]
      exact h.used i u hlast
  · intro u hu hzero
    rcases List.mem_cons.mp hu with rfl | hu
    · exact (haddr hzero).cons _
    · exact (h.zero u hu hzero).cons _

/-- A line that finds its address is a use of the slot too, if the address
still resolves to the same name. -/
theorem Mirrors.hit (h : Mirrors opts sym cache uses) {addr : BitVec w}
    (haddr : addr = 0 → Filled uses) {u : Use w} (hlast : lastUse uses (calcHash addr) = some u)
    (hu : u.addr = addr) {mmaps : SmallArray (RsMmap w)}
    (hsame : resolveName opts sym u.mmaps addr = resolveName opts sym mmaps addr) :
    Mirrors opts sym cache (⟨addr, mmaps⟩ :: uses) := by
  refine ⟨h.noHits, ?_, ?_, ?_⟩
  · intro i hnone
    rw [lastUse_cons] at hnone
    by_cases hi : i = calcHash addr
    · simp [hi] at hnone
    · rw [if_neg hi] at hnone
      exact h.unused i hnone
  · intro i v hv
    rw [lastUse_cons] at hv
    by_cases hi : i = calcHash addr
    · obtain rfl : (⟨addr, mmaps⟩ : Use w) = v := by simpa [hi] using hv
      obtain ⟨haddr', hname⟩ := h.used _ u hlast
      rw [hi, haddr', hname, hu, hsame]
      exact ⟨rfl, rfl⟩
    · rw [if_neg hi] at hv
      exact h.used i v hv
  · intro v hv hzero
    rcases List.mem_cons.mp hv with rfl | hv
    · exact (haddr hzero).cons _
    · exact (h.zero v hv hzero).cons _

/-! ## Lines -/

/-- The mappings after a memory mapping record, if the program goes on. -/
def RsMaps.add (opts : ResolveOptions) (sym : Symbols w) (maps : RsMaps w)
    (record : Str × BitVec w × BitVec w) : Option (RsMaps w) :=
  match rsMmapAddModule sym maps (rsHostPath opts record.1) record.2.1 record.2.2 with
  | .error _ => none
  | .ok added => some (added.getD maps)

theorem resolveLine_mmap {line : Str} {record : Str × BitVec w × BitVec w}
    (h : scanMmapRecord w line = some record) (st : ResolveState w) :
    resolveLine opts sym st line
      = (st.maps.add opts sym record).map fun maps => (line, { st with maps }) := by
  obtain ⟨module, fromAddr, toAddr⟩ := record
  rw [resolveLine, h, RsMaps.add]
  simp only
  cases rsMmapAddModule sym st.maps (rsHostPath opts module) fromAddr toAddr with
  | error stop => rfl
  | ok added => cases added <;> rfl

theorem resolveLine_other {line : Str} (h : scanMmapRecord w line = none)
    (h' : scanBacktraceRecord w line = none) (st : ResolveState w) :
    resolveLine opts sym st line = some (line, st) := by
  rw [resolveLine, h, h']

theorem resolveLine_kept {line name : Str} {addr : BitVec w} (h : scanMmapRecord w line = none)
    (h' : scanBacktraceRecord w line = some (addr, name)) (hkept : name ≠ [] ∧ opts.keepResolved)
    (st : ResolveState w) :
    resolveLine opts sym st line = (keepName opts addr name).map fun text => (text, st) := by
  rw [resolveLine, h, h']
  simp only [rsResolveAddress, if_pos hkept]
  cases keepName opts addr name <;> rfl

/-- Without the cache the address is resolved. -/
theorem resolveLine_uncached {line name : Str} {addr : BitVec w} (h : scanMmapRecord w line = none)
    (h' : scanBacktraceRecord w line = some (addr, name))
    (hkept : ¬ (name ≠ [] ∧ opts.keepResolved)) (maps : RsMaps w) :
    resolveLine opts sym { maps, cache := none } line
      = some (resolveName opts sym maps.mmaps addr, { maps, cache := none }) := by
  rw [resolveLine, h, h']
  simp only [rsResolveAddress, if_neg hkept]
  rfl

/-- With the cache it is looked up first; a record without a name leaves
the line as it is. -/
theorem resolveLine_cached {line name : Str} {addr : BitVec w} (h : scanMmapRecord w line = none)
    (h' : scanBacktraceRecord w line = some (addr, name))
    (hkept : ¬ (name ≠ [] ∧ opts.keepResolved)) (maps : RsMaps w) (cache : NameCache w) :
    resolveLine opts sym { maps, cache := some cache } line =
      match namecacheGetData cache addr with
      | some nc => some (nc.name.getD line, { maps, cache := some cache })
      | none => some (resolveName opts sym maps.mmaps addr,
          { maps,
            cache := some (namecacheAdd cache addr (resolveName opts sym maps.mmaps addr)) }) := by
  rw [resolveLine, h, h']
  simp only [rsResolveAddress, if_neg hkept, Option.bind_some]
  cases hget : namecacheGetData cache addr with
  | none => rfl
  | some nc =>
    cases hname : nc.name <;> simp [hname]

/-! ## Runs -/

/-- The condition on a log, from a line on, with the mappings and the uses
of the cache up to there; it ends where the program does. Where address 0 finds the record without a name,
the line has to be what the address resolves to; where an address finds
the name of an earlier line, it has to resolve the same now. -/
def CacheQuiet (opts : ResolveOptions) (sym : Symbols w) :
    RsMaps w → List (Use w) → List Str → Prop
  | _, _, [] => True
  | maps, uses, line :: lines =>
      match scanMmapRecord w line, scanBacktraceRecord w line with
      | some record, _ =>
          match maps.add opts sym record with
          | none => True
          | some maps => CacheQuiet opts sym maps uses lines
      | none, none => CacheQuiet opts sym maps uses lines
      | none, some (addr, name) =>
          if name ≠ [] ∧ opts.keepResolved then
            keepName opts addr name = none ∨ CacheQuiet opts sym maps uses lines
          else if addr = 0 ∧ ¬ Filled uses then
            line = resolveName opts sym maps.mmaps addr ∧ CacheQuiet opts sym maps uses lines
          else
            (∀ u, lastUse uses (calcHash addr) = some u → u.addr = addr →
              resolveName opts sym u.mmaps addr = resolveName opts sym maps.mmaps addr) ∧
            CacheQuiet opts sym maps (⟨addr, maps.mmaps⟩ :: uses) lines

theorem written_cons {out out' : Str} {rest rest' : Written} :
    ({ rest with puts := out :: rest.puts } : Written)
        = { rest' with puts := out' :: rest'.puts } ↔ out = out' ∧ rest = rest' := by
  cases rest
  cases rest'
  simp [and_assoc]

theorem resolveLines_some {st st' : ResolveState w} {line out : Str} (lines : List Str)
    (h : resolveLine opts sym st line = some (out, st')) :
    resolveLines opts sym st (line :: lines)
      = { resolveLines opts sym st' lines with
          puts := out :: (resolveLines opts sym st' lines).puts } := by
  rw [resolveLines, h]

/-- **One line at a time**: the outputs agree from a line on exactly if the
condition holds from there on. -/
theorem resolveLines_cache_iff {lines : List Str} {maps : RsMaps w} {uses : List (Use w)}
    {cache : NameCache w} (hm : Mirrors opts sym cache uses) :
    resolveLines opts sym { maps, cache := some cache } lines
        = resolveLines opts sym { maps, cache := none } lines ↔
      CacheQuiet opts sym maps uses lines := by
  induction lines generalizing maps uses cache with
  | nil => simp [resolveLines, CacheQuiet]
  | cons line lines ih =>
    unfold CacheQuiet
    cases hmmap : scanMmapRecord w line with
    | some record =>
      have hline : ∀ cache : Option (NameCache w), resolveLine opts sym { maps, cache } line
          = (maps.add opts sym record).map fun maps => (line, { maps, cache }) :=
        fun cache => resolveLine_mmap hmmap _
      cases hadd : maps.add opts sym record with
      | none => simp [resolveLines, hline, hadd]
      | some maps' =>
        rw [hadd] at hline
        rw [resolveLines_some lines (hline _), resolveLines_some lines (hline _), written_cons,
          ih hm]
        simp [hadd]
    | none =>
      cases hback : scanBacktraceRecord w line with
      | none =>
        rw [resolveLines_some lines (resolveLine_other hmmap hback _),
          resolveLines_some lines (resolveLine_other hmmap hback _), written_cons, ih hm]
        simp
      | some entry =>
        obtain ⟨addr, name⟩ := entry
        by_cases hkept : name ≠ [] ∧ opts.keepResolved
        · simp only [if_pos hkept]
          cases hkeep : keepName opts addr name with
          | none => simp [resolveLines, resolveLine_kept hmmap hback hkept, hkeep]
          | some text =>
            have hline : ∀ st : ResolveState w, resolveLine opts sym st line = some (text, st) := by
              intro st
              rw [resolveLine_kept hmmap hback hkept, hkeep]
              rfl
            rw [resolveLines_some lines (hline _), resolveLines_some lines (hline _), written_cons,
              ih hm]
            simp
        · simp only [if_neg hkept]
          have huncached : resolveLine opts sym { maps, cache := none } line = _ :=
            resolveLine_uncached hmmap hback hkept maps
          have hcached : resolveLine opts sym { maps, cache := some cache } line = _ :=
            resolveLine_cached hmmap hback hkept maps cache
          by_cases hzero : addr = 0 ∧ ¬ Filled uses
          · obtain ⟨nc, hget, hname⟩ := hm.get_zero hzero.2
            rw [if_pos hzero]
            rw [hzero.1, hget] at hcached
            simp only [hname, Option.getD_none] at hcached
            rw [resolveLines_some lines hcached, resolveLines_some lines huncached, written_cons,
              ih hm, hzero.1]
          · have haddr : addr = 0 → Filled uses := fun h =>
              Classical.not_not.mp fun hnot => hzero ⟨h, hnot⟩
            rw [if_neg hzero]
            rw [hm.get haddr] at hcached
            cases hlast : lastUse uses (calcHash addr) with
            | none =>
              rw [hlast] at hcached
              rw [resolveLines_some lines hcached, resolveLines_some lines huncached, written_cons,
                ih (hm.add haddr maps.mmaps)]
              simp
            | some u =>
              by_cases hu : u.addr = addr
              · -- the cached name is that of the last use
                rw [hlast, Option.any_some, decide_eq_true hu, if_pos rfl] at hcached
                simp only [(hm.used _ u hlast).2, hu, Option.getD_some] at hcached
                rw [resolveLines_some lines hcached, resolveLines_some lines huncached,
                  written_cons]
                refine ⟨fun h => ⟨?_, (ih (hm.hit haddr hlast hu h.1)).mp h.2⟩,
                  fun h => ⟨?_, (ih (hm.hit haddr hlast hu ?_)).mpr h.2⟩⟩
                · intro v hv _
                  obtain rfl := Option.some.inj hv
                  exact h.1
                · exact h.1 u rfl hu
                · exact h.1 u rfl hu
              · rw [hlast, Option.any_some, decide_eq_false hu, if_neg (by simp)] at hcached
                rw [resolveLines_some lines hcached, resolveLines_some lines huncached,
                  written_cons, ih (hm.add haddr maps.mmaps)]
                refine and_congr_left fun _ => ⟨fun _ v hv hv' => ?_, fun _ => rfl⟩
                obtain rfl := Option.some.inj hv
                exact absurd hv' hu

/-- **When the name cache is transparent.** With the cache allocated the
output for a log is the one without it if and only if the condition holds
from the first line on. -/
theorem doResolve_cache_iff (opts : ResolveOptions) (sym : Symbols w) (text : Str) :
    doResolve opts sym (some namecacheAlloc) text = doResolve opts sym none text ↔
      CacheQuiet opts sym .init [] (fgetsLines 4096 text) :=
  resolveLines_cache_iff mirrors_alloc

/-! ## Two logs that show the cache -/

def plainResolve : ResolveOptions := { fullPath := false, keepResolved := false, rootPath := none }

/-- Every module has a function at every address. -/
def sampleSymbols : Symbols 64 :=
  { isAbsolute := fun _ => some true, loads := fun _ => true,
    addressInfo := fun _ addr => some (printAddress addr "main() from app\n".toList) }

/-- A log of one backtrace line with address 0: the line is not resolved. -/
theorem doResolve_cache_zero :
    doResolve plainResolve sampleSymbols (some namecacheAlloc) "\t0x0\n".toList
      ≠ doResolve plainResolve sampleSymbols none "\t0x0\n".toList := by
  intro h
  have hquiet := (resolveLines_cache_iff mirrors_alloc).mp h
  have hlines : fgetsLines 4096 "\t0x0\n".toList = ["\t0x0\n".toList] := by decide
  have hmmap : scanMmapRecord 64 "\t0x0\n".toList = none := by decide
  have hback : scanBacktraceRecord 64 "\t0x0\n".toList = some (0, []) := by decide
  rw [hlines] at hquiet
  unfold CacheQuiet at hquiet
  simp only [hmmap, hback] at hquiet
  have hunused : ¬ Filled ([] : List (Use 64)) := fun hf => absurd (hf 0 (by decide)) (by decide)
  rw [if_neg (by decide), if_pos ⟨trivial, hunused⟩] at hquiet
  have hname : resolveName plainResolve sampleSymbols (RsMaps.init : RsMaps 64).mmaps 0
      = "\t0x0 in ??\n".toList := by
    rw [resolveName, rsMmapFindModule_init]
    decide
  rw [hname] at hquiet
  exact absurd hquiet.1 (by decide)

end SpRtrace.Resolve
