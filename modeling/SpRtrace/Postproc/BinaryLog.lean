/-
SpRtrace.Postproc.BinaryLog — what a binary log says, and that the parser
stores just that.

`BinaryLog` is the log without addresses: a list of calls with their
resources, arguments and frames, and the other records. A packet changes
it by `BinaryLog.store`. `ParseState.Shows` relates it to the trace data
and the static variables of the parser; every packet keeps it
(`storePacket_shows`), so the data after any packets are those of the log
of these packets (`storePackets_log`). The call that has no backtrace yet
is kept apart: arguments and a backtrace are for that one only, and any
other packet but settings and attachments ends it.
-/
import SpRtrace.Postproc.ParseLoopTheorems
import SpRtrace.Postproc.TextLog

namespace SpRtrace.Postproc

open SpRtrace.Lib SpRtrace.Common

variable {w : Nat} {origin : Str}

/-! ## The log -/

/-- `latest` is the last call, while it may still get a backtrace. -/
structure BinaryLog (w : Nat) where
  done : List (LogCall w)
  latest : Option (LogCall w)
  resIndex : Nat → Option (Resource w)
  resources : List (Resource w)
  mmaps : List (Mmap w)
  contexts : List (Context w)
  minfo : List Minfo
  files : List Attachment
  pinfo : Option Pinfo
  hinfo : Option (Hinfo w)

namespace BinaryLog

/-- All calls, in the order of their packets. -/
def calls (a : BinaryLog w) : List (LogCall w) := a.done ++ a.latest.toList

/-- The last call gets no backtrace any more. -/
def settle (a : BinaryLog w) : BinaryLog w := { a with done := a.calls, latest := none }

/-- A call as it is read: numbered, and with the resource that was
registered last under its id. -/
def readCall (a : BinaryLog w) (fc : FcPacket w) : LogCall w where
  record :=
    { index := BitVec.ofNat 32 (a.calls.length + 1), context := fc.context, timestamp := fc.timestamp,
      name := fc.name, resType := .ref (a.resIndex fc.resType.toNat), type := fc.type,
      resSize := fc.resSize, resId := fc.resId }
  args := []
  frames := none

def plainFrames (addrs : List (BitVec w)) : List (Frame w) :=
  addrs.map fun addr => { addr, name := none }

/-- What a packet adds to the log. -/
def store (a : BinaryLog w) : PacketData w → BinaryLog w
  | .memoryMap m => { a.settle with mmaps := a.mmaps ++ [m] }
  | .contextRegistry c => { a.settle with contexts := a.contexts ++ [c] }
  | .resourceRegistry r =>
      { a.settle with
        resources := a.resources ++ [r]
        resIndex := Function.update a.resIndex r.id.toNat (some r) }
  | .functionCall fc => { a.settle with latest := some (a.readCall fc) }
  | .backtrace addrs =>
      match a.latest with
      | none => a
      | some v =>
          { a with done := a.done ++ [{ v with frames := some (plainFrames addrs) }], latest := none }
  | .functionArgs args => { a with latest := a.latest.map fun v => { v with args } }
  | .processInfo p => { a.settle with pinfo := some p }
  | .moduleInfo m => { a.settle with minfo := a.minfo ++ [m] }
  | .heapInfo h => { a.settle with hinfo := some h }
  | .outputSettings => a
  | .attachment f => { a with files := a.files ++ [f] }

def stores (a : BinaryLog w) (packets : List (PacketData w)) : BinaryLog w := packets.foldl store a

def empty (w : Nat) : BinaryLog w where
  done := []
  latest := none
  resIndex := fun _ => none
  resources := []
  mmaps := []
  contexts := []
  minfo := []
  files := []
  pinfo := none
  hinfo := none

end BinaryLog

/-! ## The parser and the log -/

/-- **The parser has stored the log `a`.** -/
structure ParseState.Shows (st : ParseState w) (a : BinaryLog w) : Prop where
  whole : st.rd.Whole
  resource_old : ∀ r res, st.rd.resource r = some res → r < st.rd.fresh
  plain : ∀ t y, st.rd.StoredTrace t → st.rd.ftrace t = some y → ∀ f ∈ y.frames, f.name = none
  calls : ∃ done, st.rd.calls = done ++ st.fcallPrev.toList ∧
    List.Forall₂ (fun c v => callView st.rd c = some v) done a.done
  latest : List.Forall₂ (fun c v => callView st.rd c = some v ∧ v.frames = none)
    st.fcallPrev.toList a.latest.toList
  callIndex : st.callIndex = BitVec.ofNat 32 (a.calls.length + 1)
  resIndex : ∀ id ≤ 32, fcallResource st.rd (st.resIndex id) = some (a.resIndex id)
  resources : List.Forall₂ (fun r res => st.rd.resource r = some res) st.rd.resources a.resources
  mmaps : st.rd.mmaps = a.mmaps
  contexts : st.rd.contexts = a.contexts
  minfo : st.rd.minfo = a.minfo
  files : st.rd.files = a.files
  pinfo : st.rd.pinfo = a.pinfo
  hinfo : st.rd.hinfo = a.hinfo

variable {st : ParseState w} {a : BinaryLog w}

/-- All calls look as in the log. -/
theorem ParseState.Shows.allCalls (h : st.Shows a) :
    List.Forall₂ (fun c v => callView st.rd c = some v) st.rd.calls a.calls := by
  obtain ⟨done, heq, hdone⟩ := h.calls
  rw [heq]
  exact List.rel_append hdone (h.latest.imp fun _ _ hv => hv.1)

/-- The call that waits for its backtrace. -/
theorem ParseState.Shows.latest_cases (h : st.Shows a) :
    (st.fcallPrev = none ∧ a.latest = none) ∨
      ∃ call v, st.fcallPrev = some call ∧ a.latest = some v ∧ callView st.rd call = some v ∧
        v.frames = none := by
  have hlatest := h.latest
  cases hprev : st.fcallPrev <;> cases hv : a.latest <;> rw [hprev, hv] at hlatest
  · exact .inl ⟨rfl, rfl⟩
  · cases hlatest
  · cases hlatest
  · cases hlatest with
    | cons hview _ => exact .inr ⟨_, _, rfl, rfl, hview.1, hview.2⟩

/-- A packet that is about no call ends the last one. -/
theorem ParseState.Shows.settle (h : st.Shows a) :
    ParseState.Shows { st with fcallPrev := none } a.settle :=
  { h with
    calls := ⟨st.rd.calls, by simp, h.allCalls⟩
    latest := .nil
    callIndex := by
      rw [h.callIndex]
      simp [BinaryLog.settle, BinaryLog.calls] }

theorem storeResource_shows (h : st.Shows a) {res : Resource w} (hid : res.id.toNat ≤ 32) :
    ∃ st', storeResource st res = some st' ∧ st'.Shows (a.store (.resourceRegistry res)) := by
  have hkeep : ∀ r res', st.rd.resource r = some res' →
      (rdAddResource st.rd res).1.resource r = some res' := fun r res' hr =>
    (Function.update_of_ne (Nat.ne_of_lt (h.resource_old r res' hr)) _ _).trans hr
  have hnew : (rdAddResource st.rd res).1.resource st.rd.fresh = some res := Function.update_self ..
  have hs := h.settle
  refine ⟨_, if_pos hid, ?_⟩
  refine
    { hs with
      whole := rdAddResource_whole h.whole res
      resource_old := ?_
      calls := ?_
      latest := .nil
      resIndex := ?_
      resources := ?_ }
  · intro r res' hr
    show r < st.rd.fresh + 1
    by_cases heq : r = st.rd.fresh
    · omega
    · have hold : st.rd.resource r = some res' := (Function.update_of_ne heq _ _).symm.trans hr
      have := h.resource_old r res' hold
      omega
  · obtain ⟨done, heq, hdone⟩ := hs.calls
    refine ⟨done, heq, hdone.imp fun c v hview => ?_⟩
    exact callView_mono hview rfl hkeep fun _ t y _ _ hy => ⟨y, hy, rfl⟩
  · intro id hle
    show fcallResource (rdAddResource st.rd res).1
        (Function.update st.resIndex res.id.toNat (some st.rd.fresh) id)
      = some (Function.update a.resIndex res.id.toNat (some res) id)
    by_cases heq : id = res.id.toNat
    · subst heq
      simp [fcallResource, hnew]
    · rw [Function.update_of_ne heq, Function.update_of_ne heq]
      exact fcallResource_mono hkeep (h.resIndex id hle)
  · exact forall₂_append_one (h.resources.imp hkeep) hnew

theorem storeFcall_shows (h : st.Shows a) {fc : FcPacket w} (hid : fc.resType.toNat ≤ 32) :
    ∃ st', storeFcall st fc = some st' ∧ st'.Shows (a.store (.functionCall fc)) := by
  refine ⟨_, if_pos hid, ?_⟩
  have hold : ∀ c v, callView st.rd c = some v → c ≠ st.rd.fresh := by
    intro c v hview
    obtain ⟨x, -, -, hx, -⟩ := callView_eq_some.mp hview
    exact Nat.ne_of_lt (h.whole.fcall_old c x hx)
  have hs := h.settle
  refine
    { hs with
      whole := rdAddFcall_whole h.whole _
      resource_old := fun r res hr => Nat.lt_succ_of_lt (h.resource_old r res hr)
      calls := ⟨st.rd.calls, rfl, ?_⟩
      latest := ?_
      callIndex := ?_ }
  · refine h.allCalls.imp fun c v hview => ?_
    exact callView_mono hview (Function.update_of_ne (hold c v hview) _ _) (fun _ _ hr => hr)
      fun _ t y _ _ hy => ⟨y, hy, rfl⟩
  · refine .cons ⟨callView_eq_some.mpr ⟨_, _, none, Function.update_self .., h.resIndex _ hid, rfl, ?_⟩,
      rfl⟩ .nil
    simp [BinaryLog.readCall, h.callIndex]
  · show st.callIndex + 1 = _
    rw [h.callIndex]
    simp [BinaryLog.store, BinaryLog.settle, BinaryLog.calls, BitVec.ofNat_add, BitVec.add_assoc]

theorem sameRest_infos {rd rd' : Rd w} (h : rd.SameRest rd') :
    rd'.minfo = rd.minfo ∧ rd'.hinfo = rd.hinfo := by
  rw [Rd.SameRest] at h
  rw [h]
  exact ⟨rfl, rfl⟩

/-- Frames without names are known by their addresses. -/
theorem eq_plainFrames {frames : List (Frame w)} (h : ∀ f ∈ frames, f.name = none) :
    frames = BinaryLog.plainFrames (frames.map Frame.addr) := by
  rw [BinaryLog.plainFrames, List.map_map]
  refine ((List.map_congr_left fun f hf => ?_).trans (List.map_id _)).symm
  obtain ⟨addr, name⟩ := f
  obtain rfl : name = none := h _ hf
  rfl

theorem plainFrames_addrs (addrs : List (BitVec w)) :
    (BinaryLog.plainFrames addrs).map Frame.addr = addrs := by
  rw [BinaryLog.plainFrames, List.map_map]
  exact List.map_id addrs

/-- The backtrace that the new one becomes has its frames: one that was
there before has no names either. -/
theorem ParseState.Shows.setsTrace_frames (h : st.Shows a) {cs : List Nat} {addrs : List (BitVec w)}
    {rd' : Rd w} {u : Nat} (hset : st.rd.SetsTrace cs (BinaryLog.plainFrames addrs) rd' u) :
    ∃ y, rd'.ftrace u = some y ∧ y.frames = BinaryLog.plainFrames addrs := by
  obtain ⟨y, hy, haddrs, hnew⟩ := hset.frames_new
  refine ⟨y, hy, ?_⟩
  by_cases hst : st.rd.StoredTrace u
  · obtain ⟨z, hz, -⟩ := h.whole.stored_live u hst
    obtain ⟨y', hy', hframes⟩ := hset.frames_old u z hst hz
    obtain rfl := Option.some.inj (hy.symm.trans hy')
    have hplain := eq_plainFrames (h.plain u z hst hz)
    rw [hframes, hplain, ← hframes, haddrs, plainFrames_addrs]
  · exact hnew hst

theorem storeBacktrace_shows (h : st.Shows a) (addrs : List (BitVec w)) :
    ∃ st', storeBacktrace st addrs = some st' ∧ st'.Shows (a.store (.backtrace addrs)) := by
  rcases h.latest_cases with ⟨hprev, hlatest⟩ | ⟨call, v, hprev, hlatest, hview, hnone⟩
  · have ha : a.store (.backtrace addrs) = a := by simp only [BinaryLog.store, hlatest]
    refine ⟨st, ?_, by rw [ha]; exact h⟩
    obtain ⟨rd, callIndex, fcallPrev, resIndex⟩ := st
    obtain rfl : fcallPrev = none := hprev
    rfl
  · obtain ⟨done, hcalls, hdone⟩ := h.calls
    rw [hprev, Option.toList_some] at hcalls
    obtain ⟨x, hx, htrace⟩ := trace_none_of_view hview hnone
    have hmem : call ∈ st.rd.calls := by simp [hcalls]
    obtain ⟨rd', u, heq, hset⟩ :=
      rdSetNewFtrace_setsTrace h.whole hmem hx htrace (BinaryLog.plainFrames addrs)
    obtain ⟨y, hy, hframes⟩ := h.setsTrace_frames hset
    have hstore : storeBacktrace st addrs = some { st with rd := rd', fcallPrev := none } := by
      have heq' : rdFcallSetFtrace (rdNewFtrace st.rd (BinaryLog.plainFrames addrs)).1 call
          (rdNewFtrace st.rd (BinaryLog.plainFrames addrs)).2 = some rd' := heq
      simp only [BinaryLog.plainFrames] at heq'
      simp only [storeBacktrace, hprev, heq', Option.bind_eq_bind, Option.bind_some]
    have ha : a.store (.backtrace addrs) = { a with
        done := a.done ++ [{ v with frames := some (BinaryLog.plainFrames addrs) }], latest := none } := by
      simp only [BinaryLog.store, hlatest]
    obtain ⟨hresources, hmmaps, hcontexts, hfiles, -⟩ := hset.sameRest.records
    obtain ⟨-, hpinfo, -⟩ := hset.sameRest.headers
    obtain ⟨hminfo, hhinfo⟩ := sameRest_infos hset.sameRest
    have hres : ∀ r res, st.rd.resource r = some res → rd'.resource r = some res := by
      intro r res hr
      rw [hset.sameRest.resource]
      exact hr
    refine ⟨_, hstore, ?_⟩
    rw [ha]
    refine
      { whole := hset.whole
        resource_old := ?_
        plain := ?_
        calls := ⟨done ++ [call], ?_, ?_⟩
        latest := .nil
        callIndex := ?_
        resIndex := fun id hle => fcallResource_mono hres (h.resIndex id hle)
        resources := ?_
        mmaps := hmmaps.trans h.mmaps
        contexts := hcontexts.trans h.contexts
        minfo := hminfo.trans h.minfo
        files := hfiles.trans h.files
        pinfo := hpinfo.trans h.pinfo
        hinfo := hhinfo.trans h.hinfo }
    · intro r res hr
      rw [hset.sameRest.resource] at hr
      exact Nat.lt_of_lt_of_le (h.resource_old r res hr) hset.fresh_le
    · intro t z hst hz
      rcases (hset.stored t).mp hst with hold | rfl
      · obtain ⟨z₀, hz₀, -⟩ := h.whole.stored_live t hold
        obtain ⟨z', hz', hfr⟩ := hset.frames_old t z₀ hold hz₀
        obtain rfl := Option.some.inj (hz.symm.trans hz')
        rw [hfr]
        exact h.plain t z₀ hold hz₀
      · obtain rfl := Option.some.inj (hz.symm.trans hy)
        rw [hframes]
        simp [BinaryLog.plainFrames]
    · simp [hset.calls, hcalls]
    · have hnd := h.whole.calls_nodup
      rw [hcalls] at hnd
      refine forall₂_append_one (forall₂_imp_mem hdone fun c hc v _ hold => ?_) ?_
      · have hne : c ≠ call := (List.nodup_append.mp hnd).2.2 c hc call (by simp)
        exact callView_setsTrace_other h.whole.toLinked hset (by simp [hcalls, hc]) (by simp [hne]) hold
      · rw [← hframes]
        exact callView_setsTrace_mem hset hy (by simp) hview
    · rw [h.callIndex]
      simp [BinaryLog.calls, hlatest]
    · rw [hresources]
      exact h.resources.imp hres

theorem storeFargs_shows (h : st.Shows a) (args : List Farg) :
    ∃ st', storeFargs st args = some st' ∧ st'.Shows (a.store (.functionArgs args)) := by
  rcases h.latest_cases with ⟨hprev, hlatest⟩ | ⟨call, v, hprev, hlatest, hview, hnone⟩
  · have ha : a.store (.functionArgs args) = a := by
      rw [BinaryLog.store, hlatest, Option.map_none, ← hlatest]
    exact ⟨st, by rw [storeFargs, hprev], by rw [ha]; exact h⟩
  · obtain ⟨done, hcalls, hdone⟩ := h.calls
    rw [hprev, Option.toList_some] at hcalls
    obtain ⟨x, hx, htrace⟩ := trace_none_of_view hview hnone
    have hstore : storeFargs st args = some { st with rd := { st.rd with
        fcall := Function.update st.rd.fcall call (some { x with args := some args }) } } := by
      simp only [storeFargs, hprev, hx, Option.bind_eq_bind, Option.bind_some]
    refine ⟨_, hstore, ?_⟩
    have hnd := h.whole.calls_nodup
    rw [hcalls] at hnd
    refine
      { h with
        whole := h.whole.of_linked (h.whole.toLinked.of_args hx args) rfl rfl
        calls := ⟨done, ?_, ?_⟩
        latest := ?_
        callIndex := ?_ }
    · rw [hprev]
      exact hcalls
    · refine forall₂_imp_mem hdone fun c hc v _ hold => ?_
      have hne : c ≠ call := (List.nodup_append.mp hnd).2.2 c hc call (by simp)
      exact callView_mono hold (Function.update_of_ne hne _ _) (fun _ _ hr => hr)
        fun _ t y _ _ hy => ⟨y, hy, rfl⟩
    · rw [hprev]
      simp only [BinaryLog.store, hlatest, Option.map_some, Option.toList_some]
      refine .cons ⟨?_, hnone⟩ .nil
      obtain ⟨x', res, frames, hx', hr, hfr, rfl⟩ := callView_eq_some.mp hview
      obtain rfl := Option.some.inj (hx.symm.trans hx')
      exact callView_eq_some.mpr ⟨_, res, frames, Function.update_self .., hr, hfr, rfl⟩
    · rw [h.callIndex]
      simp [BinaryLog.store, BinaryLog.calls, hlatest]

/-- The other records of the trace data. -/
theorem ParseState.Shows.of_records {st' : ParseState w} {a' : BinaryLog w} (h : st.Shows a)
    (hcalls : a'.done = a.done ∧ a'.latest = a.latest ∧ a'.resIndex = a.resIndex ∧
      a'.resources = a.resources)
    (hst : st' = { st with rd := { st.rd with
      contexts := a'.contexts, mmaps := a'.mmaps, minfo := a'.minfo, files := a'.files,
      pinfo := a'.pinfo, hinfo := a'.hinfo } }) : st'.Shows a' := by
  obtain ⟨hdone, hlatest, hindex, hresources⟩ := hcalls
  subst hst
  refine
    { h with
      whole := h.whole.of_records a'.contexts a'.mmaps st.rd.hshake a'.pinfo a'.minfo
        st.rd.comments a'.hinfo a'.files
      calls := ?_
      latest := ?_
      callIndex := ?_
      resIndex := ?_
      resources := ?_
      mmaps := rfl
      contexts := rfl
      minfo := rfl
      files := rfl
      pinfo := rfl
      hinfo := rfl }
  · rw [hdone]
    exact h.calls
  · rw [hlatest]
    exact h.latest
  · rw [BinaryLog.calls, hdone, hlatest]
    exact h.callIndex
  · rw [hindex]
    exact h.resIndex
  · rw [hresources]
    exact h.resources

/-- **One packet** is stored as the log says. -/
theorem storePacket_shows (h : st.Shows a) {data : PacketData w} (hids : data.IdsInRange) :
    ∃ st', storePacket st data = some st' ∧ st'.Shows (a.store data) := by
  cases data with
  | resourceRegistry r => exact storeResource_shows h hids
  | functionCall fc => exact storeFcall_shows h hids
  | backtrace addrs => exact storeBacktrace_shows h addrs
  | functionArgs args => exact storeFargs_shows h args
  | outputSettings => exact ⟨st, rfl, h⟩
  | attachment f =>
    refine ⟨_, rfl, h.of_records ⟨rfl, rfl, rfl, rfl⟩ ?_⟩
    simp [BinaryLog.store, dlistAdd, h.files, ← h.mmaps, ← h.contexts, ← h.minfo, ← h.pinfo, ← h.hinfo]
  | memoryMap m =>
    refine ⟨_, rfl, h.settle.of_records ⟨rfl, rfl, rfl, rfl⟩ ?_⟩
    simp [BinaryLog.store, BinaryLog.settle, ParseState.withRd, dlistAdd, h.mmaps, ← h.files,
      ← h.contexts, ← h.minfo, ← h.pinfo, ← h.hinfo]
  | contextRegistry c =>
    refine ⟨_, rfl, h.settle.of_records ⟨rfl, rfl, rfl, rfl⟩ ?_⟩
    simp [BinaryLog.store, BinaryLog.settle, ParseState.withRd, dlistAdd, h.contexts, ← h.files,
      ← h.mmaps, ← h.minfo, ← h.pinfo, ← h.hinfo]
  | processInfo p =>
    refine ⟨_, rfl, h.settle.of_records ⟨rfl, rfl, rfl, rfl⟩ ?_⟩
    simp [BinaryLog.store, BinaryLog.settle, ParseState.withRd, ← h.files, ← h.contexts, ← h.mmaps,
      ← h.minfo, ← h.hinfo]
  | moduleInfo m =>
    refine ⟨_, rfl, h.settle.of_records ⟨rfl, rfl, rfl, rfl⟩ ?_⟩
    simp [BinaryLog.store, BinaryLog.settle, ParseState.withRd, dlistAdd, h.minfo, ← h.files,
      ← h.contexts, ← h.mmaps, ← h.pinfo, ← h.hinfo]
  | heapInfo info =>
    refine ⟨_, rfl, h.settle.of_records ⟨rfl, rfl, rfl, rfl⟩ ?_⟩
    simp [BinaryLog.store, BinaryLog.settle, ParseState.withRd, ← h.files, ← h.contexts, ← h.mmaps,
      ← h.minfo, ← h.pinfo]

theorem initialState_shows (hs : Hshake) : (initialState (rdCreate : Rd w) hs).Shows (.empty w) where
  whole := whole_rdCreate.of_records _ _ (some hs) _ _ _ _ _
  resource_old := by simp [initialState, rdCreate]
  plain := by simp [initialState, rdCreate]
  calls := ⟨[], rfl, .nil⟩
  latest := .nil
  callIndex := rfl
  resIndex := fun _ _ => rfl
  resources := .nil
  mmaps := rfl
  contexts := rfl
  minfo := rfl
  files := rfl
  pinfo := rfl
  hinfo := rfl

/-- **Any packets**: the parser keeps the log of what it has read. -/
theorem storePackets_show {packets : List (PacketData w)} (h : st.Shows a)
    (hids : ∀ data ∈ packets, data.IdsInRange) :
    ∃ st', packets.foldlM storePacket st = some st' ∧ st'.Shows (a.stores packets) := by
  induction packets generalizing st a with
  | nil => exact ⟨st, rfl, h⟩
  | cons data packets ih =>
    obtain ⟨st₁, heq, h₁⟩ := storePacket_shows h (hids data (by simp))
    obtain ⟨st', heq', h'⟩ := ih h₁ fun data hmem => hids data (List.mem_cons_of_mem _ hmem)
    refine ⟨st', ?_, h'⟩
    rw [List.foldlM_cons, heq]
    exact heq'

@[simp] theorem stores_nil (a : BinaryLog w) : a.stores [] = a := rfl

@[simp] theorem stores_cons (a : BinaryLog w) (data : PacketData w) (packets : List (PacketData w)) :
    a.stores (data :: packets) = (a.store data).stores packets := rfl

@[simp] theorem stores_append (a : BinaryLog w) (ps qs : List (PacketData w)) :
    a.stores (ps ++ qs) = (a.stores ps).stores qs := List.foldl_append

theorem storePackets_eq {hs : Hshake} (ps : List (WirePacket w origin hs)) (st : ParseState w) :
    storePackets (some st) ps = (ps.map WirePacket.data).foldlM storePacket st := by
  induction ps generalizing st with
  | nil => rfl
  | cons p ps ih =>
    rw [storePackets, List.foldl_cons, List.map_cons, List.foldlM_cons]
    cases hstore : storePacket st p.data with
    | none =>
      have hnone : ∀ qs : List (WirePacket w origin hs), qs.foldl (fun st p =>
          st.bind fun st => storePacket st p.data) none = none := by
        intro qs
        induction qs with
        | nil => rfl
        | cons q qs ih => rw [List.foldl_cons]; exact ih
      simp [hstore, hnone]
    | some st' =>
      have := ih st'
      rw [storePackets] at this
      simpa [hstore] using this

/-! ## Packets of a stream -/

/-- The numbers of the calls. -/
def BinaryLog.indexes (a : BinaryLog w) : List (BitVec 32) := a.calls.map fun v => v.record.index

/-- **The calls of a log are numbered** in their order, from 1. -/
def BinaryLog.Numbered (a : BinaryLog w) : Prop :=
  a.indexes = (List.range a.calls.length).map fun i => BitVec.ofNat 32 (i + 1)

/-- Only a call takes a number, the next. -/
theorem store_indexes (a : BinaryLog w) (data : PacketData w) :
    (a.store data).indexes = a.indexes ∨
      (a.store data).indexes = a.indexes ++ [BitVec.ofNat 32 (a.calls.length + 1)] := by
  cases data with
  | functionCall fc =>
    right
    simp [BinaryLog.store, BinaryLog.indexes, BinaryLog.settle, BinaryLog.calls, BinaryLog.readCall]
  | backtrace addrs =>
    left
    cases hlatest : a.latest <;> simp [BinaryLog.store, BinaryLog.indexes, BinaryLog.calls, hlatest]
  | functionArgs args =>
    left
    cases hlatest : a.latest <;> simp [BinaryLog.store, BinaryLog.indexes, BinaryLog.calls, hlatest]
  | _ =>
    left
    simp [BinaryLog.store, BinaryLog.indexes, BinaryLog.settle, BinaryLog.calls]

theorem BinaryLog.Numbered.store (h : a.Numbered) (data : PacketData w) : (a.store data).Numbered := by
  have hlength : ∀ b : BinaryLog w, b.calls.length = b.indexes.length := fun b => by
    simp [BinaryLog.indexes]
  rw [BinaryLog.Numbered, hlength] at h ⊢
  rcases store_indexes a data with heq | heq
  · rw [heq]
    exact h
  · rw [heq, List.length_append, List.length_singleton, List.range_succ, List.map_append, ← h,
      List.map_singleton, hlength]

theorem BinaryLog.Numbered.stores (h : a.Numbered) (packets : List (PacketData w)) :
    (a.stores packets).Numbered := by
  induction packets generalizing a with
  | nil => exact h
  | cons data packets ih => exact ih (h.store data)

/-- The trace data are those of the log `a`. -/
structure StoresLog (rd : Rd w) (a : BinaryLog w) : Prop where
  calls : rd.calls.map (callView rd) = a.calls.map some
  numbered : a.Numbered
  resources : rd.resources.map rd.resource = a.resources.map some
  mmaps : rd.mmaps = a.mmaps
  contexts : rd.contexts = a.contexts
  minfo : rd.minfo = a.minfo
  files : rd.files = a.files
  pinfo : rd.pinfo = a.pinfo
  hinfo : rd.hinfo = a.hinfo

theorem ParseState.Shows.storesLog (h : st.Shows a) (hnum : a.Numbered) : StoresLog st.rd a where
  calls := forall₂_map_eq h.allCalls fun _ _ h => h
  numbered := hnum
  resources := forall₂_map_eq h.resources fun _ _ h => h
  mmaps := h.mmaps
  contexts := h.contexts
  minfo := h.minfo
  files := h.files
  pinfo := h.pinfo
  hinfo := h.hinfo

/-- **The binary parser stores the log of its packets**: any packets, in any
order, repeated resource types, arguments and backtraces without a call
included. -/
theorem storePackets_log (origin : Str) (hs : Hshake) (ps : List (WirePacket w origin hs)) :
    ∃ st, storePackets (some (initialState rdCreate hs)) ps = some st ∧
      StoresLog st.rd (BinaryLog.stores (.empty w) (ps.map WirePacket.data)) := by
  have hids : ∀ data ∈ ps.map WirePacket.data, data.IdsInRange := by
    intro data hmem
    obtain ⟨q, -, rfl⟩ := List.mem_map.mp hmem
    exact q.ids
  obtain ⟨st, hst, hshows⟩ := storePackets_show (initialState_shows hs) hids
  have hempty : (BinaryLog.empty w).Numbered := rfl
  exact ⟨st, (storePackets_eq ps _).trans hst, hshows.storesLog (hempty.stores _)⟩

end SpRtrace.Postproc
