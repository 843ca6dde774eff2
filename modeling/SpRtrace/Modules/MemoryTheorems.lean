/-
SpRtrace.Modules.MemoryTheorems — what the leak filter makes of the events
of the memory module.

The two programs meet in `Carries`: a trace data object whose calls are
the events, all with the one resource `memory`. What `filter_leaks` keeps
of them depends only on the events of each address (`carries_kept`): when
no allocation of an address follows a live one, the kept calls are the
last live allocations.

One thread: every call of the traced program changes heap and events in
step (`MemCall.traced`), so the kept calls are the live blocks, unless a
`posix_memalign` reports NULL as a new block (`memTrace_exact_iff`).

Several threads: a thread may write the event of a release after another
thread has got the same address again and written its event, and then
the filter is led astray (`threadRun_leak`). When the events of each
address are written in the order of the real calls, the stream agrees with
a run of one thread on every address (`Serialised.run`) and nothing is
lost (`threadRun_exact`).
-/
import Mathlib
import SpRtrace.Modules.Memory
import SpRtrace.Postproc.LeakTheorems

namespace SpRtrace.Modules

open SpRtrace.Common SpRtrace.Postproc

variable {w : Nat}

/-! ## Events per address -/

/-- What an event does to its address. -/
def eventKind (e : MemEvent w) : CallKind :=
  if e.type = ftypeAlloc then .alloc else if e.type = ftypeFree then .free else .other

def eventsOf (events : List (MemEvent w)) (addr : BitVec w) : List (MemEvent w) :=
  events.filter fun e => e.resId = addr

/-- The size of the last live allocation of an address. -/
def liveSize (events : List (MemEvent w)) (addr : BitVec w) : Option (BitVec 32) :=
  (lastLive eventKind (eventsOf events addr)).map MemEvent.resSize

/-- The requested size of a live block, as the events carry it. -/
def heapSize (heap : List (Block w)) (addr : BitVec w) : Option (BitVec 32) :=
  (heap.find? fun b => b.addr = addr).map fun b => BitVec.ofNat 32 b.size

/-- The address and the size of an event. -/
def MemEvent.block (e : MemEvent w) : BitVec w × BitVec 32 := (e.resId, e.resSize)

/-- A live block as the events carry it. -/
def Block.entry (b : Block w) : BitVec w × BitVec 32 := (b.addr, BitVec.ofNat 32 b.size)

theorem mem_entries {heap : List (Block w)} (hnd : (heap.map Block.addr).Nodup) (a : BitVec w)
    (s : BitVec 32) : (a, s) ∈ heap.map Block.entry ↔ heapSize heap a = some s := by
  simp only [heapSize, List.mem_map, Option.map_eq_some_iff, Block.entry, Prod.mk.injEq]
  constructor
  · rintro ⟨b, hb, rfl, rfl⟩
    refine ⟨b, ?_, rfl⟩
    obtain ⟨b', hb'⟩ : ∃ b', heap.find? (fun c => c.addr = b.addr) = some b' := by
      rw [← Option.isSome_iff_exists, List.find?_isSome]
      exact ⟨b, hb, by simp⟩
    have haddr : b'.addr = b.addr := by simpa using List.find?_some hb'
    rw [hb', List.inj_on_of_nodup_map hnd (List.mem_of_find?_eq_some hb') hb haddr]
  · rintro ⟨b, hb, hs⟩
    exact ⟨b, List.mem_of_find?_eq_some hb, by simpa using List.find?_some hb, hs⟩

/-! ## The filter on a log of events -/

/-- The event a call of the log carries. -/
def callEvent (rd : Rd w) (c : Nat) : Option (MemEvent w) :=
  (rd.fcall c).map fun x =>
    { type := x.data.type, name := x.data.name, resSize := x.data.resSize, resId := x.data.resId }

/-- The calls of the trace data are the events, all of one resource that
does not count references. -/
structure Carries (rd : Rd w) (events : List (MemEvent w)) : Prop where
  events : rd.calls.map (callEvent rd) = events.map some
  resource : ∃ type res, rd.resource type = some res ∧ res.refcounted = false ∧
    ∀ c ∈ rd.calls, ∀ x, rd.fcall c = some x → x.data.resType = some type

/-- **The property of the memory module**: on every log of the events the
leak filter keeps allocations only, and they are the blocks of the heap,
each once, with address and requested size. -/
def LeaksAre (events : List (MemEvent w)) (heap : List (Block w)) : Prop :=
  ∀ rd : TraceStore w, Carries rd.val events →
    ∃ (rd' : Rd w) (kept : List (MemEvent w)), filterLeaks rd.val = some rd' ∧
      rd'.calls.map (callEvent rd') = kept.map some ∧
      (∀ e ∈ kept, e.type = ftypeAlloc) ∧
      (kept.map MemEvent.block).Perm (heap.map Block.entry)

def callEventD (rd : Rd w) (c : Nat) : MemEvent w :=
  (callEvent rd c).getD { type := 0, name := [], resSize := 0, resId := 0 }

theorem callKind_eq (rd : Rd w) : callKind rd = eventKind ∘ callEventD rd := by
  funext c
  cases hx : rd.fcall c with
  | none => simp [callKind, callEventD, callEvent, eventKind, hx, ftypeAlloc, ftypeFree]
  | some x => simp [callKind, callEventD, callEvent, eventKind, hx]

theorem Carries.eq_map {rd : Rd w} {events : List (MemEvent w)} (h : Carries rd events) :
    events = rd.calls.map (callEventD rd) := by
  have hmap := congrArg (List.map fun o : Option (MemEvent w) =>
    o.getD { type := 0, name := [], resSize := 0, resId := 0 }) h.events
  rw [List.map_map, List.map_map] at hmap
  exact (hmap.trans (List.map_id _)).symm

theorem Carries.live {rd : Rd w} {events : List (MemEvent w)} (h : Carries rd events) {c : Nat}
    (hc : c ∈ rd.calls) : ∃ x, rd.fcall c = some x := by
  have hmem : callEvent rd c ∈ rd.calls.map (callEvent rd) := List.mem_map_of_mem hc
  rw [h.events, List.mem_map] at hmem
  obtain ⟨e, -, he⟩ := hmem
  cases hx : rd.fcall c with
  | none => simp [callEvent, hx] at he
  | some x => exact ⟨x, rfl⟩

theorem Carries.resourced {rd : Rd w} {events : List (MemEvent w)} (h : Carries rd events) :
    Resourced rd := by
  obtain ⟨type, res, hres, -, hall⟩ := h.resource
  constructor
  · intro c hc
    obtain ⟨x, hx⟩ := h.live hc
    exact ⟨x, type, res, hx, hall c hc x hx, hres⟩
  · intro c hc d hd x y t t' r r' hx hy ht ht' _ _ _
    rw [hall c hc x hx] at ht
    rw [hall d hd y hy] at ht'
    exact Option.some.inj (ht.symm.trans ht')

/-- The resource counts no references, so there are none to miscount. -/
theorem Carries.countsFit {rd : Rd w} {events : List (MemEvent w)} (h : Carries rd events) :
    CountsFit rd (fun _ => true) rd.calls := by
  obtain ⟨type, res, hres, hcount, hall⟩ := h.resource
  refine .of_uncounted fun c hc _ => ?_
  obtain ⟨x, hx⟩ := h.live hc
  simp [keyCounted, callKey, hx, hall c hc x hx, hres, hcount]

/-- The pair of a call is the resource of the log and its address. -/
theorem Carries.key {rd : Rd w} {events : List (MemEvent w)} (h : Carries rd events) :
    ∃ type, ∀ c ∈ rd.calls, callKey rd c = (some type, (callEventD rd c).resId) ∧
      keyCounted rd (callKey rd c) = false := by
  obtain ⟨type, res, hres, hcount, hall⟩ := h.resource
  refine ⟨type, fun c hc => ?_⟩
  obtain ⟨x, hx⟩ := h.live hc
  have hkey : callKey rd c = (some type, (callEventD rd c).resId) := by
    simp [callKey, callEventD, callEvent, hx, hall c hc x hx]
  exact ⟨hkey, by simp [keyCounted, hkey, hres, hcount]⟩

/-- The events of an address are the calls of its pair. -/
theorem Carries.eventsOf_eq {rd : Rd w} {events : List (MemEvent w)} (h : Carries rd events)
    {type : Nat} (hkey : ∀ c ∈ rd.calls, callKey rd c = (some type, (callEventD rd c).resId))
    (a : BitVec w) :
    eventsOf events a = (rd.calls.filter fun c => callKey rd c = (some type, a)).map
      (callEventD rd) := by
  have hfilter : rd.calls.filter (fun c => callKey rd c = (some type, a))
      = rd.calls.filter (fun c => (callEventD rd c).resId = a) := by
    refine List.filter_congr fun c hc => ?_
    simp [hkey c hc]
  rw [hfilter, eventsOf, h.eq_map, List.filter_map]
  rfl

theorem Carries.alternates {rd : Rd w} {events : List (MemEvent w)} (h : Carries rd events)
    {type : Nat} (hkey : ∀ c ∈ rd.calls, callKey rd c = (some type, (callEventD rd c).resId))
    (halt : ∀ a, Alternates eventKind (eventsOf events a)) (k : Option Nat × BitVec w) :
    Alternates (callKind rd) (rd.calls.filter fun c => callKey rd c = k) := by
  by_cases hk : k.1 = some type
  · have hk' : k = (some type, k.2) := Prod.ext hk rfl
    rw [hk', callKind_eq]
    exact alternates_map eventKind (callEventD rd) (h.eventsOf_eq hkey k.2 ▸ halt k.2)
  · have hnil : rd.calls.filter (fun c => callKey rd c = k) = [] := by
      rw [List.filter_eq_nil_iff]
      intro c hc hck
      rw [decide_eq_true_eq, hkey c hc] at hck
      exact hk (by rw [← hck])
    rw [hnil]
    intro pre c post hnil' _
    simp at hnil'

/-- What the filter keeps of a log of events that alternate at every
address: the last live allocation of each. -/
theorem carries_kept {events : List (MemEvent w)}
    (halt : ∀ a, Alternates eventKind (eventsOf events a))
    (hkind : ∀ e ∈ events, eventKind e ≠ .other) {rd : Rd w} (hint : rd.Integrity)
    (hcar : Carries rd events) :
    ∃ (rd' : Rd w) (kept : List (MemEvent w)), filterLeaks rd = some rd' ∧
      rd'.calls.map (callEvent rd') = kept.map some ∧
      (∀ e ∈ kept, e.type = ftypeAlloc) ∧ (kept.map MemEvent.block).Nodup ∧
      ∀ a s, (a, s) ∈ kept.map MemEvent.block ↔ liveSize events a = some s := by
  obtain ⟨rd', heq, hcalls, -, hfcall⟩ :=
    filterLeaksWith_keptCalls resHash hint hcar.resourced hcar.countsFit
  obtain ⟨type, hpair⟩ := hcar.key
  have hkey := fun c hc => (hpair c hc).1
  have hkind' : ∀ c ∈ rd.calls, callKind rd c ≠ .other := by
    intro c hc
    rw [callKind_eq]
    exact hkind _ (by rw [hcar.eq_map]; exact List.mem_map_of_mem hc)
  have hkept : ∀ c, c ∈ rd'.calls ↔ c ∈ rd.calls ∧
      lastLive (callKind rd) (rd.calls.filter fun d => callKey rd d = callKey rd c) = some c := by
    intro c
    rw [hcalls]
    exact mem_keptCalls_of_alternates hint.calls_nodup (fun c hc => (hpair c hc).2)
      (hcar.alternates hkey halt) hkind' c
  have hlive : ∀ a, (lastLive (callKind rd)
      (rd.calls.filter fun d => callKey rd d = (some type, a))).map (callEventD rd)
      = lastLive eventKind (eventsOf events a) := by
    intro a
    rw [hcar.eventsOf_eq hkey, lastLive_map, callKind_eq]
  have hblock : ∀ c ∈ rd'.calls, ∀ d ∈ rd'.calls,
      (callEventD rd c).resId = (callEventD rd d).resId → c = d := by
    intro c hc d hd hid
    obtain ⟨hc, hlc⟩ := (hkept c).mp hc
    obtain ⟨hd, hld⟩ := (hkept d).mp hd
    rw [hkey c hc, hid, ← hkey d hd, hld] at hlc
    exact (Option.some.inj hlc).symm
  refine ⟨rd', rd'.calls.map (callEventD rd), heq, ?_, ?_, ?_, ?_⟩
  · rw [List.map_map]
    apply List.map_congr_left
    intro c hc
    obtain ⟨x, hx⟩ := hcar.live ((hkept c).mp hc).1
    simp [callEvent, callEventD, hfcall c hc, hx]
  · intro e he
    obtain ⟨c, hc, rfl⟩ := List.mem_map.mp he
    have hk := (lastLive_mem ((hkept c).mp hc).2).2
    rw [callKind_eq, Function.comp_apply, eventKind] at hk
    by_contra hne
    rw [if_neg hne] at hk
    split at hk <;> cases hk
  · rw [List.map_map]
    have hnd : rd'.calls.Nodup := by
      rw [hcalls]; exact hint.calls_nodup.filter _
    refine hnd.map_on ?_
    intro c hc d hd heq
    exact hblock c hc d hd (congrArg Prod.fst heq)
  · intro a s
    simp only [List.map_map, List.mem_map, Function.comp_apply, MemEvent.block, Prod.mk.injEq,
      liveSize]
    rw [← hlive a, Option.map_map, Option.map_eq_some_iff]
    constructor
    · rintro ⟨c, hc, rfl, rfl⟩
      obtain ⟨hc, hlc⟩ := (hkept c).mp hc
      exact ⟨c, by rw [← hkey c hc]; exact hlc, rfl⟩
    · rintro ⟨c, hlc, rfl⟩
      have hmem := List.mem_filter.mp (lastLive_mem hlc).1
      have hck : callKey rd c = (some type, a) := by simpa using hmem.2
      refine ⟨c, (hkept c).mpr ⟨hmem.1, by rw [hck]; exact hlc⟩, ?_, rfl⟩
      rw [hkey c hmem.1] at hck
      exact (Prod.mk.inj hck).2

/-- The property of the module, from agreement at every address. -/
theorem leaksAre_of_liveSize {events : List (MemEvent w)} {heap : List (Block w)}
    (halt : ∀ a, Alternates eventKind (eventsOf events a))
    (hkind : ∀ e ∈ events, eventKind e ≠ .other) (hnd : (heap.map Block.addr).Nodup)
    (hsize : ∀ a, liveSize events a = heapSize heap a) : LeaksAre events heap := by
  intro rd hcar
  obtain ⟨rd', kept, heq, hmap, halloc, hndk, hmem⟩ :=
    carries_kept halt hkind rd.property hcar
  refine ⟨rd', kept, heq, hmap, halloc, ?_⟩
  have hndh : (heap.map Block.entry).Nodup := by
    refine (hnd.of_map _).map_on ?_
    intro b hb c hc hbc
    exact List.inj_on_of_nodup_map hnd hb hc (congrArg Prod.fst hbc)
  rw [List.perm_ext_iff_of_nodup hndk hndh]
  rintro ⟨a, s⟩
  rw [hmem a s, mem_entries hnd a s, hsize a]

/-! ## Heap and events in step -/

theorem eventsOf_snoc_self (events : List (MemEvent w)) {e : MemEvent w} {a : BitVec w}
    (h : e.resId = a) : eventsOf (events ++ [e]) a = eventsOf events a ++ [e] := by
  simp [eventsOf, List.filter_append, h]

theorem eventsOf_snoc_ne (events : List (MemEvent w)) {e : MemEvent w} {a : BitVec w}
    (h : e.resId ≠ a) : eventsOf (events ++ [e]) a = eventsOf events a := by
  simp [eventsOf, List.filter_append, h]

theorem heapSize_eq_none {heap : List (Block w)} {a : BitVec w} (h : ¬ Live heap a) :
    heapSize heap a = none := by
  rw [heapSize, Option.map_eq_none_iff, List.find?_eq_none]
  intro b hb hba
  exact h (List.mem_map.mpr ⟨b, hb, by simpa using hba⟩)

theorem not_live_releaseBlock (heap : List (Block w)) (a : BitVec w) :
    ¬ Live (releaseBlock heap a) a := by
  rw [Live, List.mem_map]
  rintro ⟨b, hb, hba⟩
  exact absurd hba (by simpa using (List.mem_filter.mp hb).2)

/-- The live blocks and the events so far agree at every address. -/
structure Traced (heap : List (Block w)) (events : List (MemEvent w)) : Prop where
  nodup : (heap.map Block.addr).Nodup
  nonnull : ¬ Live heap 0
  kinds : ∀ e ∈ events, eventKind e ≠ .other
  alternates : ∀ a, Alternates eventKind (eventsOf events a)
  sizes : ∀ a, liveSize events a = heapSize heap a

theorem Traced.leaksAre {heap : List (Block w)} {events : List (MemEvent w)}
    (h : Traced heap events) : LeaksAre events heap :=
  leaksAre_of_liveSize h.alternates h.kinds h.nodup h.sizes

theorem traced_nil : Traced ([] : List (Block w)) [] where
  nodup := List.nodup_nil
  nonnull := by simp [Live]
  kinds := by simp
  alternates := by intro a pre c post h; simp [eventsOf] at h
  sizes := fun _ => rfl

theorem Traced.lastLive_none {heap : List (Block w)} {events : List (MemEvent w)}
    (h : Traced heap events) {a : BitVec w} (ha : ¬ Live heap a) :
    lastLive eventKind (eventsOf events a) = none := by
  have hsize := h.sizes a
  rw [heapSize_eq_none ha, liveSize] at hsize
  exact Option.map_eq_none_iff.mp hsize

/-- A further event keeps the events alternating, if it is no allocation
of a live address. -/
theorem Traced.alternates_snoc {heap : List (Block w)} {events : List (MemEvent w)}
    (h : Traced heap events) {e : MemEvent w}
    (he : eventKind e = .alloc → ¬ Live heap e.resId) (a : BitVec w) :
    Alternates eventKind (eventsOf (events ++ [e]) a) := by
  by_cases ha : e.resId = a
  · rw [eventsOf_snoc_self events ha]
    exact (h.alternates a).snoc fun hk => h.lastLive_none (ha ▸ he hk)
  · rw [eventsOf_snoc_ne events ha]
    exact h.alternates a

/-- A new block and its event. -/
theorem Traced.alloc {heap : List (Block w)} {events : List (MemEvent w)} (h : Traced heap events)
    {e : MemEvent w} {size : Nat} (hkind : eventKind e = .alloc) (hnull : e.resId ≠ 0)
    (hlive : ¬ Live heap e.resId) (hsize : e.resSize = BitVec.ofNat 32 size) :
    Traced (heap ++ [{ addr := e.resId, size }]) (events ++ [e]) where
  nodup := by
    rw [List.map_append, List.nodup_append]
    refine ⟨h.nodup, by simp, ?_⟩
    intro a ha b hb hab
    have hb : b = e.resId := by simpa using hb
    exact hlive (hb ▸ hab ▸ ha)
  nonnull := by
    have := h.nonnull
    simp only [Live, List.map_append, List.mem_append, List.map_cons, List.map_nil,
      List.mem_singleton, not_or] at this ⊢
    exact ⟨this, Ne.symm hnull⟩
  kinds := by
    intro e' he'
    rcases List.mem_append.mp he' with he' | he'
    · exact h.kinds e' he'
    · rw [List.mem_singleton.mp he', hkind]; simp
  alternates := h.alternates_snoc fun _ => hlive
  sizes := by
    intro a
    by_cases ha : e.resId = a
    · subst ha
      have hnone : heap.find? (fun b => b.addr = e.resId) = none :=
        Option.map_eq_none_iff.mp (heapSize_eq_none hlive)
      simp only [liveSize, eventsOf_snoc_self events rfl, lastLive_snoc, hkind, heapSize,
        List.find?_append, hnone, Option.map_some, hsize]
      simp
    · rw [liveSize, eventsOf_snoc_ne events ha]
      have := h.sizes a
      rw [liveSize] at this
      rw [this, heapSize, heapSize, List.find?_append]
      simp [ha]

/-- A block that goes and its event. -/
theorem Traced.free {heap : List (Block w)} {events : List (MemEvent w)} (h : Traced heap events)
    {e : MemEvent w} (hkind : eventKind e = .free) :
    Traced (releaseBlock heap e.resId) (events ++ [e]) where
  nodup := (List.filter_sublist.map Block.addr).nodup h.nodup
  nonnull := by
    intro hl
    obtain ⟨b, hb, hb0⟩ := List.mem_map.mp hl
    exact h.nonnull (List.mem_map.mpr ⟨b, (List.mem_filter.mp hb).1, hb0⟩)
  kinds := by
    intro e' he'
    rcases List.mem_append.mp he' with he' | he'
    · exact h.kinds e' he'
    · rw [List.mem_singleton.mp he', hkind]; simp
  alternates := h.alternates_snoc fun hk => by rw [hkind] at hk; cases hk
  sizes := by
    intro a
    by_cases ha : e.resId = a
    · subst ha
      rw [liveSize, eventsOf_snoc_self events rfl, lastLive_snoc, hkind,
        heapSize_eq_none (not_live_releaseBlock heap e.resId)]
      rfl
    · rw [liveSize, eventsOf_snoc_ne events ha]
      have := h.sizes a
      rw [liveSize] at this
      rw [this, heapSize, heapSize, releaseBlock, List.find?_filter]
      congr 1
      apply congrArg (fun p => List.find? p heap)
      funext b
      by_cases hba : b.addr = a
      · simp [hba, Ne.symm ha]
      · simp [hba]

/-- NULL is no block. -/
theorem Traced.releaseBlock_null {heap : List (Block w)} {events : List (MemEvent w)}
    (h : Traced heap events) : releaseBlock heap 0 = heap := by
  rw [releaseBlock, List.filter_eq_self]
  intro b hb
  simp only [ne_eq, decide_eq_true_eq]
  exact fun hb0 => h.nonnull (List.mem_map.mpr ⟨b, hb, hb0⟩)

/-! ## One thread -/

/-- `res_size` of `calloc`: the product wraps at the word size and again
at 32 bits. -/
theorem setWidth_mul {n : Nat} (hn : n ≤ w) (a b : BitVec w) :
    (a * b).setWidth n = BitVec.ofNat n (a.toNat * b.toNat) := by
  apply BitVec.eq_of_toNat_eq
  rw [BitVec.toNat_setWidth, BitVec.toNat_mul, BitVec.toNat_ofNat,
    Nat.mod_mod_of_dvd _ (Nat.pow_dvd_pow 2 hn)]

theorem eventKind_alloc (name : String) (size : BitVec 32) (id : BitVec w) :
    eventKind (allocEvent name size id) = .alloc := rfl

theorem eventKind_free (name : String) (id : BitVec w) :
    eventKind (freeEvent name id) = .free := rfl

/-- **Every traced call changes heap and events in step**, unless it
reports NULL as a block. -/
theorem MemCall.traced (hw : 32 ≤ w) {heap : List (Block w)} {events : List (MemEvent w)}
    (h : Traced heap events) {c : MemCall w} (hv : c.Valid heap) (hn : ¬ c.StoresNull) :
    Traced (c.heap heap) (events ++ c.events) := by
  cases c with
  | malloc size rc =>
    by_cases hrc : rc = 0
    · simpa [MemCall.heap, MemCall.events, traceMalloc, addBlock, hrc] using h
    · simp only [MemCall.heap, MemCall.events, traceMalloc, addBlock, hrc, ne_eq,
        not_false_eq_true, if_true]
      exact h.alloc (eventKind_alloc ..) hrc (hv hrc) (BitVec.ofNat_toNat ..).symm
  | calloc nmemb size rc =>
    by_cases hrc : rc = 0
    · simpa [MemCall.heap, MemCall.events, traceCalloc, addBlock, hrc] using h
    · simp only [MemCall.heap, MemCall.events, traceCalloc, addBlock, hrc, ne_eq,
        not_false_eq_true, if_true]
      exact h.alloc (eventKind_alloc ..) hrc (hv hrc) (setWidth_mul hw nmemb size)
  | posixMemalign size rc ptr =>
    by_cases hrc : rc = 0
    · have hptr : ptr ≠ 0 := fun hp => hn ⟨hrc, hp⟩
      simp only [MemCall.heap, MemCall.events, tracePosixMemalign, addBlock, hrc, hptr, ne_eq,
        not_false_eq_true, if_true]
      exact h.alloc (eventKind_alloc ..) hptr (hv hrc hptr) (BitVec.ofNat_toNat ..).symm
    · simp only [MemCall.heap, MemCall.events, tracePosixMemalign, if_neg hrc, List.append_nil]
      exact h
  | free ptr => exact h.free (eventKind_free ..)
  | realloc ptr size rc =>
    -- the release of the old block and its event, which NULL has neither of
    have hold : (rc ≠ 0 ∨ size = 0) → Traced (releaseBlock heap ptr) (events ++
        if (rc ≠ 0 ∨ size = 0) ∧ ptr ≠ 0 then [freeEvent "realloc" ptr] else []) := by
      intro hdone
      by_cases hptr : ptr = 0
      · simp only [hptr, h.releaseBlock_null, ne_eq, not_true, and_false, if_false,
          List.append_nil]
        exact h
      · simp only [hdone, hptr, ne_eq, not_false_eq_true, and_self, if_true]
        exact h.free (eventKind_free ..)
    by_cases hrc : rc = 0
    · by_cases hsize : size = 0
      · have := hold (.inr hsize)
        simpa [MemCall.heap, MemCall.events, traceRealloc, addBlock, hrc, hsize] using this
      · simp only [MemCall.heap, MemCall.events, traceRealloc, hrc, hsize, ne_eq, not_true,
          or_self, false_and, if_false, List.append_nil]
        exact h
    · have hdone : rc ≠ 0 ∨ size = 0 := .inl hrc
      simp only [MemCall.heap, MemCall.events, traceRealloc, addBlock, hrc, ne_eq,
        not_false_eq_true, true_or, true_and, if_true]
      rw [← List.append_assoc]
      refine Traced.alloc ?_ (eventKind_alloc ..) hrc (hv hrc) (BitVec.ofNat_toNat ..).symm
      simpa only [hrc, ne_eq, not_false_eq_true, true_or, true_and] using hold hdone

theorem memHeap_snoc (run : List (MemCall w)) (c : MemCall w) :
    memHeap (run ++ [c]) = c.heap (memHeap run) := by
  simp [memHeap]

theorem memEvents_snoc (run : List (MemCall w)) (c : MemCall w) :
    memEvents (run ++ [c]) = memEvents run ++ c.events := by
  simp [memEvents]

theorem validFrom_append (heap : List (Block w)) (run run' : List (MemCall w)) :
    ValidFrom heap (run ++ run') ↔
      ValidFrom heap run ∧ ValidFrom (run.foldl MemCall.heap heap) run' := by
  induction run generalizing heap with
  | nil => simp [ValidFrom]
  | cons c run ih => simp only [List.cons_append, ValidFrom, ih, List.foldl_cons, and_assoc]

theorem ValidRun.of_prefix {run pre : List (MemCall w)} (h : ValidRun run) (hpre : pre <+: run) :
    ValidRun pre := by
  obtain ⟨post, rfl⟩ := hpre
  exact ((validFrom_append [] pre post).mp h).1

theorem validRun_snoc (run : List (MemCall w)) (c : MemCall w) :
    ValidRun (run ++ [c]) ↔ ValidRun run ∧ c.Valid (memHeap run) := by
  rw [ValidRun, validFrom_append]
  simp [ValidFrom, ValidRun, memHeap]

/-- Heap and events agree after every run that reports no NULL block. -/
theorem traced_run (hw : 32 ≤ w) {run : List (MemCall w)} (hv : ValidRun run)
    (hn : ∀ c ∈ run, ¬ c.StoresNull) : Traced (memHeap run) (memEvents run) := by
  induction run using List.reverseRecOn with
  | nil => exact traced_nil
  | append_singleton run c ih =>
    rw [memHeap_snoc, memEvents_snoc]
    have h := ih (hv.of_prefix (List.prefix_append _ _)) fun d hd => hn d (by simp [hd])
    exact MemCall.traced hw h ((validRun_snoc run c).mp hv).2 (hn c (by simp))

/-- `res_memory`, the resource of the module. -/
def resMemory : Resource w :=
  { id := 1, type := "memory".toList, desc := "memory allocation in bytes".toList, flags := 0,
    hide := false }

def eventCall (e : MemEvent w) : FcallData w :=
  { index := 0, type := e.type, context := 0, timestamp := 0, name := e.name, resType := some 0,
    resId := e.resId, resSize := e.resSize }

/-- A log of events: one resource, one call for each event. -/
def logOf (events : List (MemEvent w)) : Rd w :=
  events.foldl (fun rd e => (rdAddFcall rd (eventCall e)).1) (rdAddResource rdCreate resMemory).1

theorem logOf_snoc (events : List (MemEvent w)) (e : MemEvent w) :
    logOf (events ++ [e]) = (rdAddFcall (logOf events) (eventCall e)).1 := by
  simp [logOf]

theorem logOf_integrity (events : List (MemEvent w)) : (logOf events).Integrity :=
  List.foldlRecOn _ _ (rdAddResource_integrity integrity_rdCreate resMemory)
    fun _ h e _ => rdAddFcall_integrity h (eventCall e)

theorem logOf_carries (events : List (MemEvent w)) :
    Carries (logOf events) events ∧ (logOf events).resource 0 = some resMemory ∧
      ∀ c ∈ (logOf events).calls, ∀ x, (logOf events).fcall c = some x →
        x.data.resType = some 0 := by
  have hcount : (resMemory : Resource w).refcounted = false := by
    simp [Resource.refcounted, resMemory]
  induction events using List.reverseRecOn with
  | nil =>
    have hres : (logOf ([] : List (MemEvent w))).resource 0 = some resMemory := by
      simp [logOf, rdAddResource, rdCreate]
    have hall : ∀ c ∈ (logOf ([] : List (MemEvent w))).calls, ∀ x,
        (logOf ([] : List (MemEvent w))).fcall c = some x → x.data.resType = some 0 := by
      intro c hc; cases hc
    exact ⟨⟨rfl, 0, resMemory, hres, hcount, hall⟩, hres, hall⟩
  | append_singleton events e ih =>
    obtain ⟨hcar, hres, hall⟩ := ih
    have hint := logOf_integrity events
    rw [logOf_snoc]
    set rd := logOf events
    have hold : ∀ c ∈ rd.calls, (rdAddFcall rd (eventCall e)).1.fcall c = rd.fcall c := by
      intro c hc
      obtain ⟨x, hx⟩ := hint.call_live c hc
      have := hint.fcall_old c x hx
      exact Function.update_of_ne (by omega) _ _
    have hnew : (rdAddFcall rd (eventCall e)).1.fcall rd.fresh
        = some { data := eventCall e, trace := none, ref := none, args := none } :=
      Function.update_self ..
    have hall' : ∀ c ∈ (rdAddFcall rd (eventCall e)).1.calls, ∀ x,
        (rdAddFcall rd (eventCall e)).1.fcall c = some x → x.data.resType = some 0 := by
      intro c hc x hx
      rcases (mem_dlistAdd rd.calls rd.fresh c).mp hc with hc | rfl
      · exact hall c hc x (hold c hc ▸ hx)
      · obtain rfl := Option.some.inj (hnew.symm.trans hx)
        rfl
    refine ⟨⟨?_, 0, resMemory, hres, hcount, hall'⟩, hres, hall'⟩
    rw [List.map_append, ← hcar.events]
    simp only [rdAddFcall, dlistAdd, List.map_append, List.map_cons, List.map_nil]
    congr 1
    · apply List.map_congr_left
      intro c hc
      rw [callEvent, callEvent]
      exact congrArg _ (hold c hc)
    · rw [callEvent]
      exact congrArg (fun o => [o]) (congrArg _ hnew)

/-- After a `posix_memalign` that stored NULL the filter keeps a block that
does not exist. -/
theorem not_leaksAre_of_storesNull {heap : List (Block w)} {events : List (MemEvent w)}
    (h : Traced heap events) {c : MemCall w} (hn : c.StoresNull) :
    ¬ LeaksAre (events ++ c.events) (c.heap heap) := by
  cases c with
  | posixMemalign size rc ptr =>
    obtain ⟨rfl, rfl⟩ := hn
    intro hleaks
    set e : MemEvent w := allocEvent "posix_memalign" (size.setWidth 32) 0 with he
    have hevents : (MemCall.posixMemalign size 0 0 : MemCall w).events = [e] := rfl
    have hheap : (MemCall.posixMemalign size 0 0 : MemCall w).heap heap = heap := by
      simp [MemCall.heap, addBlock]
    rw [hevents, hheap] at hleaks
    have hcar := (logOf_carries (events ++ [e])).1
    have hint := logOf_integrity (events ++ [e])
    have hkinds : ∀ e' ∈ events ++ [e], eventKind e' ≠ .other := by
      intro e' he'
      rcases List.mem_append.mp he' with he' | he'
      · exact h.kinds e' he'
      · rw [List.mem_singleton.mp he', he, eventKind_alloc]; simp
    have halt := h.alternates_snoc (e := e) fun _ => h.nonnull
    obtain ⟨rd', kept, heq, hmap, -, -, hmem⟩ := carries_kept halt hkinds hint hcar
    obtain ⟨rd'', kept', heq', hmap', -, hperm⟩ := hleaks ⟨_, hint⟩ hcar
    obtain rfl := Option.some.inj (heq.symm.trans heq')
    obtain rfl : kept = kept' :=
      List.map_injective_iff.mpr (fun _ _ => Option.some.inj) (hmap.symm.trans hmap')
    have hin : ((0 : BitVec w), e.resSize) ∈ kept.map MemEvent.block := by
      rw [hmem, liveSize, eventsOf_snoc_self events (show e.resId = 0 from rfl), lastLive_snoc,
        he, eventKind_alloc]
      rfl
    obtain ⟨b, hb, hbe⟩ := List.mem_map.mp (hperm.mem_iff.mp hin)
    exact h.nonnull (List.mem_map.mpr ⟨b, hb, congrArg Prod.fst hbe⟩)
  | _ => exact hn.elim

/-- **Memory tracing of one thread**: the kept calls are the live blocks
after every part of the run exactly when no successful `posix_memalign`
of the run stores NULL. -/
theorem memTrace_exact_iff (hw : 32 ≤ w) {run : List (MemCall w)} (hv : ValidRun run) :
    (∀ pre, pre <+: run → LeaksAre (memEvents pre) (memHeap pre)) ↔
      ∀ c ∈ run, ¬ c.StoresNull := by
  constructor
  · intro hall
    induction run using List.reverseRecOn with
    | nil => simp
    | append_singleton run c ih =>
      have hv' := hv.of_prefix (List.prefix_append run [c])
      have hrun := ih hv' fun pre hpre => hall pre (hpre.trans (List.prefix_append _ _))
      intro d hd
      rcases List.mem_append.mp hd with hd | hd
      · exact hrun d hd
      · obtain rfl := List.mem_singleton.mp hd
        intro hn
        have hlast := hall (run ++ [d]) (List.prefix_refl _)
        rw [memEvents_snoc, memHeap_snoc] at hlast
        exact not_leaksAre_of_storesNull (traced_run hw hv' hrun) hn hlast
  · intro hn pre hpre
    exact (traced_run hw (hv.of_prefix hpre) fun c hc => hn c (hpre.mem hc)).leaksAre

/-- A block that moves, shrinks and is released, on a 64-bit machine. -/
def sampleRun : List (MemCall 64) :=
  [.malloc 24 4096, .realloc 4096 48 8192, .calloc 3 5 4096, .realloc 8192 16 8192, .free 4096]

theorem memTrace_exact_iff_sampleRun :
    ValidRun sampleRun ∧
      LeaksAre (memEvents sampleRun) [{ addr := 8192, size := 16 }] := by
  have hv : ValidRun sampleRun := by decide
  have hn : ∀ c ∈ sampleRun, ¬ c.StoresNull := by
    intro c hc
    simp only [sampleRun, List.mem_cons, List.not_mem_nil, or_false] at hc
    rcases hc with rfl | rfl | rfl | rfl | rfl <;> exact id
  have hleaks := (memTrace_exact_iff (by decide) hv).mpr hn sampleRun (List.prefix_refl _)
  exact ⟨hv, hleaks⟩

/-- A `posix_memalign` of size zero that succeeds with NULL is kept as a
leak at the address zero, though no block is live. -/
theorem memTrace_posixMemalign_null :
    ValidRun [MemCall.posixMemalign (0 : BitVec 64) 0 0] ∧
      memHeap [MemCall.posixMemalign (0 : BitVec 64) 0 0] = [] ∧
      ¬ LeaksAre (memEvents [MemCall.posixMemalign (0 : BitVec 64) 0 0])
        (memHeap [MemCall.posixMemalign (0 : BitVec 64) 0 0]) := by
  have hnull : (MemCall.posixMemalign (0 : BitVec 64) 0 0).StoresNull := ⟨rfl, rfl⟩
  exact ⟨by decide, by decide, not_leaksAre_of_storesNull traced_nil hnull⟩

/-! ## Threads -/

section Threads

variable {τ : Type} [DecidableEq τ]

theorem nextOwed_eq_some {t : τ} {owed pre post : List (τ × MemEvent w)} {e : MemEvent w}
    (h : nextOwed t owed = some (pre, e, post)) : owed = pre ++ (t, e) :: post := by
  induction owed generalizing pre with
  | nil => cases h
  | cons p owed ih =>
    simp only [nextOwed] at h
    split at h
    · rename_i hp
      simp only [Option.some.injEq, Prod.mk.injEq] at h
      obtain ⟨rfl, rfl, rfl⟩ := h
      rw [← hp]; rfl
    · obtain ⟨⟨pre', e', post'⟩, hrest, heq⟩ := Option.map_eq_some_iff.mp h
      simp only [Prod.mk.injEq] at heq
      obtain ⟨rfl, rfl, rfl⟩ := heq
      rw [ih hrest]; rfl

/-- The condition on a step: no `posix_memalign` stores NULL, and a thread
that writes its event of an address does not overtake another thread that
still owes an event of an earlier real call on that address. Events of
NULL (`free(NULL)`) may come in any order. -/
def orderly (s : ThreadState τ w) : ThreadAct τ w → Bool
  | .call _ c => !decide c.StoresNull
  | .write t =>
      match nextOwed t s.owed with
      | none => true
      | some (pre, e, _) => decide (e.resId ≠ 0 → ∀ p ∈ pre, p.2.resId ≠ e.resId)

/-- Every step of the interleaving meets the condition. -/
def orderlyFrom (s : ThreadState τ w) : List (ThreadAct τ w) → Bool
  | [] => true
  | act :: acts => orderly s act &&
      match threadStep s act with
      | none => true
      | some s' => orderlyFrom s' acts

/-- The events of NULL are releases. -/
theorem events_null {c : MemCall w} (hn : ¬ c.StoresNull) {e : MemEvent w} (he : e ∈ c.events)
    (hid : e.resId = 0) : eventKind e = .free := by
  cases c with
  | malloc size rc =>
    simp only [MemCall.events, traceMalloc] at he
    split at he
    · rename_i hrc
      obtain rfl := List.mem_singleton.mp he
      exact absurd hid hrc
    · cases he
  | calloc nmemb size rc =>
    simp only [MemCall.events, traceCalloc] at he
    split at he
    · rename_i hrc
      obtain rfl := List.mem_singleton.mp he
      exact absurd hid hrc
    · cases he
  | realloc ptr size rc =>
    simp only [MemCall.events, traceRealloc, List.mem_append] at he
    rcases he with he | he
    · split at he
      · obtain rfl := List.mem_singleton.mp he
        exact eventKind_free ..
      · cases he
    · split at he
      · rename_i hrc
        obtain rfl := List.mem_singleton.mp he
        exact absurd hid hrc
      · cases he
  | posixMemalign size rc ptr =>
    simp only [MemCall.events, tracePosixMemalign] at he
    split at he
    · rename_i hrc
      obtain rfl := List.mem_singleton.mp he
      exact absurd ⟨hrc, hid⟩ hn
    · cases he
  | free ptr =>
    obtain rfl := List.mem_singleton.mp he
    exact eventKind_free ..

/-- What an orderly interleaving has done: there is a run of one thread,
the real calls in their order, with the same heap, and what has been
written followed by what is owed agrees with it at every address. -/
structure Serialised (s : ThreadState τ w) (real : List (MemCall w)) : Prop where
  valid : ValidRun real
  no_null : ∀ c ∈ real, ¬ c.StoresNull
  heap : s.heap = memHeap real
  events : ∀ a, a ≠ 0 →
    eventsOf (s.stream ++ s.owed.map Prod.snd) a = eventsOf (memEvents real) a
  null : ∀ e ∈ s.stream ++ s.owed.map Prod.snd, e.resId = 0 → eventKind e = .free

/-- One orderly step. -/
theorem Serialised.step {s s' : ThreadState τ w} {real : List (MemCall w)}
    (h : Serialised s real) {act : ThreadAct τ w} (hord : orderly s act = true)
    (hstep : threadStep s act = some s') : ∃ real', Serialised s' real' := by
  cases act with
  | call t c =>
    have hord : ¬ c.StoresNull := by simpa [orderly] using hord
    simp only [threadStep] at hstep
    split at hstep
    · rename_i hok
      obtain rfl := Option.some.inj hstep
      have howed : s.stream ++ (s.owed ++ c.events.map fun e => (t, e)).map Prod.snd
          = s.stream ++ s.owed.map Prod.snd ++ c.events := by
        simp [Function.comp_def]
      refine ⟨real ++ [c], (validRun_snoc real c).mpr ⟨h.valid, h.heap ▸ hok.2⟩, ?_, ?_, ?_, ?_⟩
      · intro d hd
        rcases List.mem_append.mp hd with hd | hd
        · exact h.no_null d hd
        · rw [List.mem_singleton.mp hd]; exact hord
      · rw [memHeap_snoc, ← h.heap]
      · intro a ha
        have := h.events a ha
        simp only [eventsOf] at this ⊢
        rw [howed, memEvents_snoc, List.filter_append, this, ← List.filter_append]
      · intro e he hid
        rw [howed] at he
        rcases List.mem_append.mp he with he | he
        · exact h.null e he hid
        · exact events_null hord he hid
    · cases hstep
  | write t =>
    obtain ⟨⟨pre, e, post⟩, hnext, rfl⟩ := Option.map_eq_some_iff.mp hstep
    have howed := nextOwed_eq_some hnext
    refine ⟨real, h.valid, h.no_null, h.heap, ?_, ?_⟩
    · intro a ha
      rw [← h.events a ha, howed]
      simp only [eventsOf, List.map_append, List.map_cons, List.filter_append, List.append_assoc]
      by_cases hea : e.resId = a
      · -- nothing owed before the event is of its address
        have hpre : (pre.map Prod.snd).filter (fun e => e.resId = a) = [] := by
          rw [List.filter_eq_nil_iff]
          intro e' he' hid
          obtain ⟨p, hp, rfl⟩ := List.mem_map.mp he'
          rw [decide_eq_true_eq] at hid
          simp only [orderly, hnext, decide_eq_true_eq] at hord
          exact hord (hea ▸ ha) p hp (hid.trans hea.symm)
        simp [hpre, hea]
      · simp [hea]
    · intro e' he' hid
      refine h.null e' ?_ hid
      rw [howed]
      simp only [List.map_append, List.map_cons, List.mem_append, List.mem_cons,
        List.not_mem_nil, or_false] at he' ⊢
      rcases he' with (he' | he') | he' | he'
      · exact .inl he'
      · exact .inr (.inr (.inl he'))
      · exact .inr (.inl he')
      · exact .inr (.inr (.inr he'))

/-- Every orderly interleaving is a run of one thread, address by address. -/
theorem Serialised.run {s s' : ThreadState τ w} {real : List (MemCall w)} (h : Serialised s real)
    {acts : List (ThreadAct τ w)} (hord : orderlyFrom s acts = true)
    (hrun : acts.foldlM threadStep s = some s') : ∃ real', Serialised s' real' := by
  induction acts generalizing s real with
  | nil =>
    obtain rfl := Option.some.inj hrun
    exact ⟨real, h⟩
  | cons act acts ih =>
    rw [List.foldlM_cons, Option.bind_eq_bind, Option.bind_eq_some_iff] at hrun
    obtain ⟨s₁, hstep, hrun⟩ := hrun
    simp only [orderlyFrom, hstep, Bool.and_eq_true] at hord
    obtain ⟨real₁, h₁⟩ := h.step hord.1 hstep
    exact ih h₁ hord.2 hrun

omit [DecidableEq τ] in
theorem serialised_init : Serialised (ThreadState.init : ThreadState τ w) [] :=
  ⟨trivial, by simp, rfl, fun _ _ => rfl, by simp [ThreadState.init]⟩

/-- **Memory tracing of several threads**: in every interleaving in which
the events of each address are written in the order of the real calls and
no `posix_memalign` stores NULL, whenever all threads are idle the calls
the leak filter keeps are the live blocks. -/
theorem threadRun_exact (hw : 32 ≤ w) {acts : List (ThreadAct τ w)} {s : ThreadState τ w}
    (hrun : threadRun acts = some s) (hord : orderlyFrom ThreadState.init acts = true)
    (hidle : s.owed = []) : LeaksAre s.stream s.heap := by
  obtain ⟨real, hser⟩ := serialised_init.run hord hrun
  have htr := traced_run hw hser.valid hser.no_null
  have hevents : ∀ a, a ≠ 0 → eventsOf s.stream a = eventsOf (memEvents real) a := by
    intro a ha
    have := hser.events a ha
    rwa [hidle, List.map_nil, List.append_nil] at this
  -- at NULL there are releases only
  have hnull : ∀ e ∈ eventsOf s.stream 0, eventKind e = .free := by
    intro e he
    obtain ⟨he, hid⟩ := List.mem_filter.mp he
    exact hser.null e (List.mem_append_left _ he) (by simpa using hid)
  have hlast : lastLive eventKind (eventsOf s.stream 0) = none := by
    cases hl : lastLive eventKind (eventsOf s.stream 0) with
    | none => rfl
    | some e =>
      obtain ⟨he, hk⟩ := lastLive_mem hl
      rw [hnull e he] at hk
      cases hk
  rw [hser.heap]
  refine leaksAre_of_liveSize ?_ ?_ htr.nodup ?_
  · intro a
    by_cases ha : a = 0
    · subst ha
      intro pre e post heq hk
      rw [hnull e (by rw [heq]; simp)] at hk
      cases hk
    · rw [hevents a ha]; exact htr.alternates a
  · intro e he
    by_cases hid : e.resId = 0
    · rw [hser.null e (List.mem_append_left _ he) hid]; simp
    · have hmem : e ∈ eventsOf s.stream e.resId := List.mem_filter.mpr ⟨he, by simp⟩
      rw [hevents _ hid] at hmem
      exact htr.kinds e (List.mem_filter.mp hmem).1
  · intro a
    by_cases ha : a = 0
    · subst ha
      rw [liveSize, hlast, heapSize_eq_none htr.nonnull]; rfl
    · rw [liveSize, hevents a ha]; exact htr.sizes a

/-- Two threads whose calls and writes are interleaved; the second one
gets the address the first one has released. -/
def sampleActs : List (ThreadAct Bool 64) :=
  [.call false (.malloc 8 4096), .call true (.malloc 16 8192), .write true, .write false,
    .call false (.free 4096), .write false, .call true (.realloc 8192 32 4096), .write true,
    .call false (.free 0), .write true, .write false]

theorem threadRun_exact_sampleActs :
    ∃ s, threadRun sampleActs = some s ∧ s.owed = [] ∧ s.heap = [{ addr := 4096, size := 32 }] ∧
      LeaksAre s.stream s.heap := by
  have hrun : threadRun sampleActs = some (ThreadState.mk [{ addr := 4096, size := 32 }]
      [allocEvent "malloc" 16 8192, allocEvent "malloc" 8 4096, freeEvent "free" 4096,
        freeEvent "realloc" 8192, allocEvent "realloc" 32 4096, freeEvent "free" 0] []) := by
    decide
  have hord : orderlyFrom ThreadState.init sampleActs = true := by decide
  exact ⟨_, hrun, rfl, rfl, threadRun_exact (by decide) hrun hord rfl⟩

/-- The first thread releases a block; before it writes the event, the
second thread gets the address, writes its event, releases the block and
writes that. -/
def overtakingActs : List (ThreadAct Bool 64) :=
  [.call false (.malloc 8 4096), .write false, .call false (.free 4096),
    .call true (.malloc 8 4096), .write true, .call true (.free 4096), .write true, .write false]

/-- No block is live and all threads are idle, but the filter keeps the
first allocation. -/
theorem threadRun_leak :
    ∃ s, threadRun overtakingActs = some s ∧ s.owed = [] ∧ s.heap = [] ∧
      ¬ LeaksAre s.stream s.heap := by
  have hrun : threadRun overtakingActs = some (ThreadState.mk []
      [allocEvent "malloc" 8 4096, allocEvent "malloc" 8 4096, freeEvent "free" 4096,
        freeEvent "free" 4096] []) := by
    decide
  refine ⟨_, hrun, rfl, rfl, ?_⟩
  intro hleaks
  obtain ⟨rd', kept, heq, hmap, -, hperm⟩ := hleaks ⟨_, logOf_integrity _⟩ (logOf_carries _).1
  have hkept : (filterLeaks (logOf [allocEvent "malloc" 8 4096, allocEvent "malloc" 8 4096,
      freeEvent "free" 4096, freeEvent "free" (4096 : BitVec 64)])).map Rd.calls = some [1] := by
    decide +kernel
  have hcalls : rd'.calls = [1] := by
    rw [show filterLeaks _ = some rd' from heq] at hkept
    exact Option.some.inj hkept
  have hnil : kept = [] := by
    simpa using hperm.length_eq
  rw [hcalls, hnil] at hmap
  simp at hmap

end Threads

end SpRtrace.Modules
