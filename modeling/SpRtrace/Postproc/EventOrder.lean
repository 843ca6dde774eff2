/-
SpRtrace.Postproc.EventOrder — the order of the calls of one process behind
a text log.

The tracing module stamps a call with the time of day of CLOCK_MONOTONIC,
and the post-processor numbers the calls as they arrive. The reader of the
text log sorts by time stamp first:

    if (call1->data.timestamp == call2->data.timestamp) {
        return call1->data.index - call2->data.index;
    }
    return call1->data.timestamp - call2->data.timestamp;

Every time stamp is below 24 hours, so no difference overflows and the sort
is one by time of day and index (`dlistSort_records`). It restores the
order in which the calls were emitted as long as the time of day does not
go back (`eventOrder_iff`), which it does once every 24 hours
(`eventOrder_midnight`).
-/
import SpRtrace.Modules.Main
import SpRtrace.Postproc.BinaryLog
import SpRtrace.Postproc.EmittedCalls
import SpRtrace.Postproc.LeakTheorems
import SpRtrace.Postproc.LogRoundTrip
import SpRtrace.Postproc.TextResources

namespace SpRtrace.Postproc

open SpRtrace.Lib SpRtrace.Common SpRtrace.Library SpRtrace.Modules

variable {w : Nat}

/-! ## Emission -/

/-- What CLOCK_MONOTONIC shows. -/
structure Moment where
  sec : Nat
  nsec : Nat
  nsec_lt : nsec < 1000000000

namespace Moment

def time (m : Moment) : Nat := m.sec * 1000000000 + m.nsec

/-- The time stamp that `sp_rtrace_write_function_call` makes of it. -/
def timestamp (m : Moment) : BitVec 32 := callTimestamp m.sec m.nsec

theorem timestamp_toNat (m : Moment) :
    m.timestamp.toNat = m.nsec / 1000000 + m.sec % 86400 * 1000 := by
  have := m.nsec_lt
  rw [timestamp, callTimestamp, BitVec.toNat_ofNat, Nat.mod_eq_of_lt (by omega)]

/-- Within a day the time stamps follow the clock. -/
theorem timestamp_le {m n : Moment} (hday : m.sec / 86400 = n.sec / 86400) (h : m.time ≤ n.time) :
    m.timestamp.toNat ≤ n.timestamp.toNat := by
  have := m.nsec_lt
  have := n.nsec_lt
  unfold time at h
  rw [timestamp_toNat, timestamp_toNat]
  omega

end Moment

/-- **The calls of one process**: they are numbered from 1, and their time
stamps are zero or those of a clock that does not go back. -/
structure Emission (rd : Rd w) (clock : List Moment) : Prop where
  index : ∀ i (h : i < (storeViews rd).length), (storeViews rd)[i].record.index.toInt = i + 1
  stamped : (∀ v ∈ storeViews rd, v.record.timestamp = 0) ∨
    (storeViews rd).map (fun v => v.record.timestamp) = clock.map Moment.timestamp
  forward : clock.Pairwise fun m n => m.time ≤ n.time

/-- The time of day does not go back from one call to a later one. -/
def TimesRise (rd : Rd w) : Prop :=
  (storeViews rd).Pairwise fun v u => v.record.timestamp.toNat ≤ u.record.timestamp.toNat

/-- It does not go back on a single day. -/
theorem Emission.timesRise {rd : Rd w} {clock : List Moment} (h : Emission rd clock) {day : Nat}
    (hday : ∀ m ∈ clock, m.sec / 86400 = day) : TimesRise rd := by
  rcases h.stamped with hzero | hstamps
  · refine List.pairwise_of_forall_mem_list fun v hv u hu => ?_
    rw [hzero v hv, hzero u hu]
  · have hclock : (clock.map Moment.timestamp).Pairwise fun s t => s.toNat ≤ t.toNat := by
      refine List.pairwise_map.mpr (h.forward.imp_of_mem fun {m n} hm hn hle => ?_)
      exact Moment.timestamp_le ((hday m hm).trans (hday n hn).symm) hle
    rw [← hstamps, List.pairwise_map] at hclock
    exact hclock

/-- The calls are in the order of time of day and index if the time of day
does not go back. -/
theorem Emission.places {rd : Rd w} {clock : List Moment} (h : Emission rd clock)
    (hrise : TimesRise rd) : (storeViews rd).Pairwise fun v u => v.place < u.place := by
  rw [List.pairwise_iff_getElem]
  intro i j hi hj hij
  have htime := List.pairwise_iff_getElem.mp hrise i j hi hj hij
  have hindex : (storeViews rd)[i].record.index.toInt < (storeViews rd)[j].record.index.toInt := by
    rw [h.index i hi, h.index j hj]
    omega
  rw [LogCall.place, LogCall.place, Prod.Lex.toLex_lt_toLex]
  rcases htime.lt_or_eq with hlt | heq
  · exact .inl hlt
  · exact .inr ⟨heq, hindex⟩

/-! ## Emission behind packets -/

def PacketData.timestamp : PacketData w → Option (BitVec 32)
  | .functionCall fc => some fc.timestamp
  | _ => none

/-- Only a call adds its time stamp. -/
theorem store_timestamps (a : BinaryLog w) (data : PacketData w) :
    (a.store data).calls.map (fun v => v.record.timestamp)
      = a.calls.map (fun v => v.record.timestamp) ++ data.timestamp.toList := by
  cases data with
  | functionCall fc =>
    simp [BinaryLog.store, BinaryLog.settle, BinaryLog.calls, BinaryLog.readCall,
      PacketData.timestamp]
  | backtrace addrs =>
    cases hlatest : a.latest <;>
      simp [BinaryLog.store, BinaryLog.calls, hlatest, PacketData.timestamp]
  | functionArgs args =>
    cases hlatest : a.latest <;>
      simp [BinaryLog.store, BinaryLog.calls, hlatest, PacketData.timestamp]
  | _ => simp [BinaryLog.store, BinaryLog.settle, BinaryLog.calls, PacketData.timestamp]

theorem stores_timestamps (a : BinaryLog w) (packets : List (PacketData w)) :
    (a.stores packets).calls.map (fun v => v.record.timestamp)
      = a.calls.map (fun v => v.record.timestamp) ++ packets.filterMap PacketData.timestamp := by
  induction packets generalizing a with
  | nil => simp
  | cons data packets ih =>
    rw [stores_cons, ih, store_timestamps, List.append_assoc]
    cases hstamp : data.timestamp <;> simp [hstamp]

/-- **The calls of the packets of one process** are numbered as they arrive,
and have the time stamps that the module wrote. -/
theorem emission_of_packets (hs : Hshake) {packets : List (PacketData w)} {clock : List Moment}
    (hids : ∀ data ∈ packets, data.IdsInRange)
    (hfew : (packets.filterMap PacketData.timestamp).length < 2 ^ 31)
    (hstamped : (∀ t ∈ packets.filterMap PacketData.timestamp, t = 0) ∨
      packets.filterMap PacketData.timestamp = clock.map Moment.timestamp)
    (hforward : clock.Pairwise fun m n => m.time ≤ n.time) :
    ∃ st, packets.foldlM storePacket (initialState rdCreate hs) = some st ∧ st.rd.Whole ∧
      Emission st.rd clock := by
  obtain ⟨st, hst, hshows⟩ := storePackets_show (initialState_shows hs) hids
  have hempty : (BinaryLog.empty w).Numbered := rfl
  have hnumbered := hempty.stores packets
  have hstamps := stores_timestamps (.empty w) packets
  generalize BinaryLog.stores (.empty w) packets = a at hshows hnumbered hstamps
  have hviews : storeViews st.rd = a.calls := by
    have hmap : (st.rd.calls.map (callView st.rd)).filterMap id = storeViews st.rd :=
      List.filterMap_map
    rw [← hmap, forall₂_map_eq hshows.allCalls fun _ _ h => h, List.filterMap_map]
    exact List.filterMap_some
  have hlength : a.calls.length < 2 ^ 31 := by
    have := congrArg List.length hstamps
    simp only [List.length_map, BinaryLog.empty, BinaryLog.calls, List.nil_append,
      Option.toList_none, List.map_nil] at this
    exact this.trans_lt hfew
  refine ⟨st, hst, hshows.whole, fun i hi => ?_, ?_, hforward⟩
  · simp only [hviews] at hi ⊢
    have hindex : (a.indexes)[i]? = some (BitVec.ofNat 32 (i + 1)) := by
      rw [hnumbered]
      simp [hi]
    rw [BinaryLog.indexes, List.getElem?_map, List.getElem?_eq_getElem hi, Option.map_some,
      Option.some.injEq] at hindex
    have hnat : (BitVec.ofNat 32 (i + 1)).toNat = i + 1 := by
      rw [BitVec.toNat_ofNat, Nat.mod_eq_of_lt (by omega)]
    rw [hindex, BitVec.toInt_eq_toNat_of_lt (by omega), hnat]
    rfl
  · rw [hviews]
    have hall : a.calls.map (fun v => v.record.timestamp) = packets.filterMap PacketData.timestamp :=
      hstamps
    rcases hstamped with hzero | hclock
    · refine .inl fun v hv => hzero _ ?_
      rw [← hall]
      exact List.mem_map_of_mem hv
    · exact .inr (hall.trans hclock)

/-! ## The log of a process -/

/-- A store whose calls are those of a process: consistent, with strings
that stay in their lines, and with resource records that their ids tell
apart. -/
structure EmittedLog (rd : Rd w) : Prop where
  integrity : rd.Integrity
  table : 0 < rd.ftraces.size
  lines : EnvLines rd
  calls : EmittedCalls rd
  comments : ∀ c ∈ rd.comments, HashLine c.text
  resourced : Resourced rd

def callRecord (rd : Rd w) (call : Nat) : Option (CallRecord w) := do
  fcallRecord rd (← rd.fcall call).data

theorem callRecord_of_view {rd : Rd w} {c : Nat} {v : LogCall w} (h : callView rd c = some v) :
    callRecord rd c = some v.record := by
  simp only [callView, Option.bind_eq_bind, Option.bind_eq_some_iff, Option.some.injEq] at h
  obtain ⟨x, hx, record, hrecord, frames, -, rfl⟩ := h
  simp only [callRecord, hx, Option.bind_eq_bind, Option.bind_some, hrecord]

/-- The two stores have the same calls in the same order. -/
def SameOrder (rd rd' : Rd w) : Prop :=
  List.Forall₂ (fun c c' => ∃ r, callRecord rd c = some r ∧ callRecord rd' c' = some (shownRecord r))
    rd.calls rd'.calls

/-- `filter_leaks` keeps the same calls of them. -/
def SameLeaks (rd rd' : Rd w) : Prop :=
  ∃ kept kept', filterLeaks rd = some kept ∧ filterLeaks rd' = some kept' ∧ SameOrder kept kept'

/-- `compare_calls` on the records of the calls. -/
def compareRecords (r s : CallRecord w) : Int :=
  compareKeys (r.timestamp, r.index) (s.timestamp, s.index)

/-- Time stamp and index, in this order. -/
def recordPlace (r : CallRecord w) : ℕ ×ₗ ℤ := toLex (r.timestamp.toNat, r.index.toInt)

/-- The calls are sorted by their records. -/
theorem dlistSort_records (calls : List (LogCall w)) :
    dlistSort compareRecords (calls.map LogCall.record)
      = (dlistSort compareLogCalls calls).map (List.map LogCall.record) :=
  dlistSort_map compareRecords LogCall.record calls

section Order

variable {rd rd' : Rd w} {views : List (LogCall w)}

theorem EmittedCalls.callViews (h : EmittedCalls rd) :
    List.Forall₂ (fun c v => callView rd c = some v) rd.calls (storeViews rd) :=
  forall₂_filterMap fun c hc => (h c hc).imp fun _ hv => hv.1

/-- The numbers of the calls do not wrap, so there are few of them. -/
theorem Emission.few {clock : List Moment} (hem : Emission rd clock) (h : EmittedCalls rd) :
    rd.calls.length ≤ 2 ^ 32 := by
  have hlength : rd.calls.length = (storeViews rd).length := h.callViews.length_eq
  rcases Nat.eq_zero_or_pos (storeViews rd).length with hzero | hpos
  · omega
  · have hlast := hem.index ((storeViews rd).length - 1) (by omega)
    have hlt := (storeViews rd)[(storeViews rd).length - 1].record.index.toInt_lt
    omega

/-- On the calls of a day `compare_calls` orders by time stamp and index. -/
theorem compareRecords_orders (h : EmittedCalls rd) (hperm : views.Perm (storeViews rd)) :
    OrdersBy compareRecords recordPlace (shownRecords views) := by
  have hcalls : OrdersBy compareLogCalls LogCall.place views := compareLogCalls_orders fun v hv => by
    obtain ⟨c, hc, hview⟩ := List.mem_filterMap.mp (hperm.mem_iff.mp hv)
    obtain ⟨u, hu, hcall⟩ := h c hc
    obtain rfl := Option.some.inj (hview.symm.trans hu)
    exact ⟨hcall.plain.time, hcall.plain.index⟩
  intro r hr s hs
  obtain ⟨v, hv, rfl⟩ := List.mem_map.mp hr
  obtain ⟨u, hu, rfl⟩ := List.mem_map.mp hs
  exact hcalls v hv u hu

theorem recordPlace_shown (v : LogCall w) : recordPlace (shownRecord v.record) = v.place := rfl

/-- The sort restores the order of the calls exactly if their time stamps
are in it. -/
theorem sorted_iff {clock : List Moment} (hem : Emission rd clock) (h : EmittedCalls rd)
    (hperm : views.Perm (storeViews rd)) {sorted : List (CallRecord w)}
    (hsort : dlistSort compareRecords (shownRecords views) = some sorted) :
    sorted = shownRecords (storeViews rd) ↔ TimesRise rd := by
  have horders := compareRecords_orders h hperm
  constructor
  · rintro rfl
    obtain ⟨sorted, hsorted, -, hplaces⟩ := dlistSort_sorts horders
    obtain rfl := Option.some.inj (hsort.symm.trans hsorted)
    rw [SortedBy, shownRecords, List.pairwise_map] at hplaces
    refine hplaces.imp fun {v u} hle => ?_
    rw [recordPlace_shown, recordPlace_shown, LogCall.place, LogCall.place,
      Prod.Lex.toLex_le_toLex] at hle
    rcases hle with hlt | ⟨heq, -⟩
    · exact hlt.le
    · exact heq.le
  · intro hrise
    have hstrict : (shownRecords (storeViews rd)).Pairwise fun r s => recordPlace r < recordPlace s :=
      List.pairwise_map.mpr (hem.places hrise)
    have heq := dlistSort_strict horders (hperm.map _) hstrict
    exact Option.some.inj (hsort.symm.trans heq)

/-- The order is the same if the records are. -/
theorem sameOrder_iff (h : EmittedCalls rd) {records : List (CallRecord w)}
    (hrecords : List.Forall₂ (fun c r => callRecord rd' c = some r) rd'.calls records) :
    SameOrder rd rd' ↔ records = shownRecords (storeViews rd) := by
  have hviews := h.callViews.imp fun _ _ hview => callRecord_of_view hview
  constructor
  · intro hsame
    have heq : rd.calls.map (fun c => (callRecord rd c).map shownRecord)
        = rd'.calls.map (callRecord rd') :=
      forall₂_map_eq hsame fun c c' ⟨r, hr, hr'⟩ => by rw [hr, hr']; rfl
    have hleft : rd.calls.map (fun c => (callRecord rd c).map shownRecord)
        = (shownRecords (storeViews rd)).map some := by
      rw [shownRecords, List.map_map]
      exact forall₂_map_eq hviews fun c v hr => by rw [hr]; rfl
    have hright : rd'.calls.map (callRecord rd') = records.map some :=
      forall₂_map_eq hrecords fun c r hr => hr
    rw [hleft, hright] at heq
    exact (List.map_injective_iff.mpr (Option.some_injective _) heq).symm
  · rintro rfl
    rw [shownRecords, List.forall₂_map_right_iff] at hrecords
    exact (forall₂_trans hviews hrecords.flip).imp fun _ _ ⟨v, hr, hr'⟩ => ⟨v.record, hr, hr'⟩

end Order

/-! ## Reading the log -/

section Reading

variable {rd rd' : Rd w} {localtime : Int → Tm} {time : Nat → BitVec 32} {opts : WriterOptions}
  {mktime : List (BitVec 32) → Int} {junk : Nat → Context w}

/-- The calls take the reader to their records. -/
theorem takes_emittedLog (junk : Nat → Context w) (hw : 32 ≤ w) (h : EmittedLog rd)
    {pieces : List Piece} {env : LogEnv w} (hpieces : writeTraceCalls rd opts time = some pieces)
    (hshort : ShortLines (piecesText pieces))
    (henv : env.resources = (storedResources rd).map shownResource) :
    Takes junk (piecesText pieces) (∀ c ∈ rd.calls, ∀ v ∈ callView rd c, CallBuffers v)
      (AtPlace ⟨env, [], []⟩) fun a => ∃ views : List (LogCall w), views.Perm (storeViews rd) ∧
        AtRecords env (shownRecords views) a := by
  obtain ⟨views, hperm, evs, hwrites, hrun⟩ := takes_emittedCalls junk hw h.integrity h.table henv
    h.lines.types h.calls h.comments hpieces hshort
  exact ⟨evs, hwrites, fun a ha => ⟨views, hperm, hrun a ha.atRecords⟩⟩

/-- A reader that has the records of the calls has them at the end. -/
theorem AtRecords.finish {env : LogEnv w} {records : List (CallRecord w)} {a : LogState w}
    (h : AtRecords env records a) : a.finish.env = env ∧ a.finish.done.map LogCall.record = records := by
  refine ⟨(LogState.finish_env a).trans h.1, ?_⟩
  have hdone : a.finish.records = a.finish.done.map LogCall.record := by
    rw [LogState.records, LogState.finish_pend, List.append_nil]
  rw [← hdone, LogState.finish_records, h.2]

/-- **What is read of the log of a process**: everything has fit, the
resources are those of the log, and the records of the calls are sorted. -/
theorem readEmitted (hw : 32 ≤ w) (h : EmittedLog rd) {text : Str}
    (hwrite : writeTraceLog rd localtime time opts = some text) (hshort : ShortLines text)
    (hread : readTextData mktime junk rdCreate text = some rd') :
    LogFits rd localtime time opts ∧ rd'.Whole ∧
      List.Forall₂ (fun r res => rd'.resource r = some res) rd'.resources
        ((storedResources rd).map shownResource) ∧
      ∃ views sorted, views.Perm (storeViews rd) ∧
        dlistSort compareRecords (shownRecords views) = some sorted ∧
        List.Forall₂ (fun c r => callRecord rd' c = some r) rd'.calls sorted := by
  obtain ⟨henv, ⟨pieces, hpieces⟩, hcalls, env, hresources, a, done, st, ⟨views, hperm, hat⟩, hsort,
    rfl, hshows⟩ := readLog_takes hw h.lines
      (fun pieces env hpieces hshort henv => takes_emittedLog junk hw h hpieces hshort henv)
      hwrite hshort hread
  obtain ⟨hfinish, hrecords⟩ := hat.finish
  have hviews := hshows.calls
  rw [show a.finish.pend = [] from LogState.finish_pend a, List.append_nil] at hviews
  have hstored := hshows.resources
  change List.Forall₂ _ _ a.finish.env.resources at hstored
  rw [hfinish, hresources] at hstored
  refine ⟨.of_pieces hw h.integrity h.table henv hpieces hcalls, hshows.whole, hstored, views,
    done.map LogCall.record, hperm, ?_, ?_⟩
  · rw [← hrecords, dlistSort_records, hsort]
    rfl
  · rw [List.forall₂_map_right_iff]
    exact hviews.imp fun _ _ hview => callRecord_of_view hview

/-- A log that fits is written and read. -/
theorem readEmitted_total (mktime : List (BitVec 32) → Int) (junk : Nat → Context w) (hw : 32 ≤ w)
    (h : EmittedLog rd)
    (hshort : ∀ text, writeTraceLog rd localtime time opts = some text → ShortLines text)
    (hfits : LogFits rd localtime time opts) :
    ∃ text rd', writeTraceLog rd localtime time opts = some text ∧
      readTextData mktime junk rdCreate text = some rd' := by
  obtain ⟨pieces, hpieces⟩ := hfits.writes hw h.integrity h.table
  obtain ⟨text, hwrite, env, a, ⟨views, hperm, hat⟩, htotal⟩ :=
    readLog_takes_total hw h.lines
      (fun pieces env hpieces hshort henv => takes_emittedLog junk hw h hpieces hshort henv)
      hshort hfits.env hpieces hfits.calls
  have hsorted : ∃ sorted, dlistSort compareLogCalls a.finish.done = some sorted := by
    obtain ⟨records, hrecords, -⟩ := dlistSort_sorts (compareRecords_orders h.calls hperm)
    rw [← hat.finish.2, dlistSort_records, Option.map_eq_some_iff] at hrecords
    exact hrecords.imp fun _ hsort => hsort.1
  obtain ⟨sorted, hsort⟩ := hsorted
  obtain ⟨rd', hread⟩ := htotal sorted hsort
  exact ⟨text, rd', hwrite, hread⟩

end Reading

/-! ## Leaks -/

/-- What a call does, by its record. -/
def recordKind (r : CallRecord w) : CallKind :=
  if r.type = ftypeAlloc then .alloc
  else if r.type = ftypeFree then .free
  else .other

/-- The call has the record `r` with the resource `res`, stored at `type`. -/
structure CallShows (rd : Rd w) (c type : Nat) (res : Resource w) (r : CallRecord w) : Prop where
  call : ∃ x, rd.fcall c = some x ∧ x.data.resType = some type ∧ x.data.resId = r.resId ∧
    x.data.type = r.type
  resource : rd.resource type = some res

section Leaks

variable {rd rd' : Rd w}

theorem CallShows.key {c type : Nat} {res : Resource w} {r : CallRecord w}
    (h : CallShows rd c type res r) : callKey rd c = (some type, r.resId) := by
  obtain ⟨x, hx, htype, hid, -⟩ := h.call
  simp only [callKey, hx, htype, hid]

theorem CallShows.kind {c type : Nat} {res : Resource w} {r : CallRecord w}
    (h : CallShows rd c type res r) : callKind rd c = recordKind r := by
  obtain ⟨x, hx, -, -, hkind⟩ := h.call
  simp only [callKind, hx, hkind, recordKind]

theorem CallShows.counted {c type : Nat} {res : Resource w} {r : CallRecord w}
    (h : CallShows rd c type res r) : keyCounted rd (callKey rd c) = res.refcounted := by
  rw [h.key]
  simp only [keyCounted, Option.bind_some, h.resource]

theorem callShows_of_record {c : Nat} {res : Resource w} {r : CallRecord w}
    (hr : callRecord rd c = some r) (hres : r.resType = .ref (some res)) :
    ∃ type, CallShows rd c type res r := by
  simp only [callRecord, fcallRecord, Option.bind_eq_bind, Option.bind_eq_some_iff,
    Option.some.injEq] at hr
  obtain ⟨x, hx, found, hfound, rfl⟩ := hr
  obtain rfl : found = some res := ResField.ref.inj hres
  cases htype : x.data.resType with
  | none =>
    rw [htype] at hfound
    cases hfound
  | some type =>
    simp only [htype, fcallResource, Option.bind_eq_bind, Option.bind_eq_some_iff,
      Option.some.injEq] at hfound
    obtain ⟨_, hresource, rfl⟩ := hfound
    exact ⟨type, ⟨x, hx, htype, rfl, rfl⟩, hresource⟩

/-- A log of a process, and a store with the same resources and the same
calls under the names `g`. -/
structure ReadBack (rd rd' : Rd w) (g : Nat → Nat) : Prop where
  resourced : Resourced rd
  types : ((storedResources rd).map Resource.type).Nodup
  nodup : rd.calls.Nodup
  nodup' : rd'.calls.Nodup
  own : OwnResources rd'
  stored : List.Forall₂ (fun r res => rd'.resource r = some res) rd'.resources
    ((storedResources rd).map shownResource)
  calls : rd.calls.map g = rd'.calls
  records : ∀ c ∈ rd.calls, ∃ r, callRecord rd c = some r ∧
    callRecord rd' (g c) = some (shownRecord r)

section ReadBack

variable {g : Nat → Nat} (h : ReadBack rd rd' g)

include h

theorem ReadBack.shows {c : Nat} (hc : c ∈ rd.calls) : ∃ type type' res r,
    CallShows rd c type res r ∧ CallShows rd' (g c) type' (shownResource res) (shownRecord r) := by
  obtain ⟨r, hr, hr'⟩ := h.records c hc
  obtain ⟨x, type, res, hx, htype, hres⟩ := h.resourced.carries c hc
  have hfield : r.resType = .ref (some res) := by
    simp only [callRecord, fcallRecord, hx, htype, fcallResource, hres, Option.bind_eq_bind,
      Option.bind_some, Option.some.injEq] at hr
    rw [← hr]
  obtain ⟨t, hshows⟩ := callShows_of_record hr hfield
  have hfield' : (shownRecord r).resType = .ref (some (shownResource res)) := by
    rw [shownRecord, hfield]
    rfl
  obtain ⟨t', hshows'⟩ := callShows_of_record hr' hfield'
  exact ⟨t, t', res, r, hshows, hshows'⟩

/-- Records are stored once. -/
theorem ReadBack.pointer_eq {t u : Nat} {res : Resource w} (ht : rd'.resource t = some res)
    (hu : rd'.resource u = some res) : t = u := by
  have hmap : rd'.resources.map rd'.resource = ((storedResources rd).map shownResource).map some :=
    forall₂_map_eq h.stored fun _ _ heq => heq
  have hnodup : (rd'.resources.map rd'.resource).Nodup := by
    rw [hmap]
    refine List.Nodup.map (Option.some_injective _) (List.Nodup.of_map Resource.type ?_)
    rw [List.map_map]
    exact h.types
  exact List.inj_on_of_nodup_map hnodup (h.own t res ht) (h.own u res hu) (ht.trans hu.symm)

/-- The pointers to the resources are the same if the ids are. -/
theorem ReadBack.pointer_iff {c d t t' u u' : Nat} {res res' : Resource w} {r s : CallRecord w}
    (hc : c ∈ rd.calls) (hd : d ∈ rd.calls) (ht : CallShows rd c t res r)
    (hu : CallShows rd d u res' s) (ht' : rd'.resource t' = some (shownResource res))
    (hu' : rd'.resource u' = some (shownResource res')) :
    (t' = u' ↔ t = u) ∧ (res.id = res'.id → t' = u') := by
  obtain ⟨x, hx, htype, -⟩ := ht.call
  obtain ⟨y, hy, hutype, -⟩ := hu.call
  have hids : res.id = res'.id → t = u := h.resourced.ids_inj c hc d hd x y t u res res' hx hy htype
    hutype ht.resource hu.resource
  have hback : t = u → t' = u' := by
    rintro rfl
    obtain rfl := Option.some.inj (ht.resource.symm.trans hu.resource)
    exact h.pointer_eq ht' hu'
  refine ⟨⟨?_, hback⟩, fun hid => hback (hids hid)⟩
  rintro rfl
  have hshown : shownResource res = shownResource res' := Option.some.inj (ht'.symm.trans hu')
  have hid : (shownResource res).id = (shownResource res').id := congrArg Resource.id hshown
  exact hids hid

theorem ReadBack.resourced' : Resourced rd' := by
  have hmem : ∀ c' ∈ rd'.calls, ∃ c ∈ rd.calls, g c = c' := fun c' hc' => by
    rw [← h.calls] at hc'
    exact List.mem_map.mp hc'
  constructor
  · intro c' hc'
    obtain ⟨c, hc, rfl⟩ := hmem c' hc'
    obtain ⟨t, t', res, r, -, hshows'⟩ := h.shows hc
    obtain ⟨x, hx, htype, -⟩ := hshows'.call
    exact ⟨x, t', shownResource res, hx, htype, hshows'.resource⟩
  · intro c' hc' d' hd' x y t' u' R R' hx hy htype hutype hR hR' hid
    obtain ⟨c, hc, rfl⟩ := hmem c' hc'
    obtain ⟨d, hd, rfl⟩ := hmem d' hd'
    obtain ⟨t, p, res, r, hshows, hshows'⟩ := h.shows hc
    obtain ⟨u, q, res', s, hother, hother'⟩ := h.shows hd
    have hp : p = t' := by
      obtain ⟨x', hx', hp, -⟩ := hshows'.call
      obtain rfl := Option.some.inj (hx.symm.trans hx')
      exact Option.some.inj (hp.symm.trans htype)
    have hq : q = u' := by
      obtain ⟨y', hy', hq, -⟩ := hother'.call
      obtain rfl := Option.some.inj (hy.symm.trans hy')
      exact Option.some.inj (hq.symm.trans hutype)
    subst hp hq
    obtain rfl := Option.some.inj (hshows'.resource.symm.trans hR)
    obtain rfl := Option.some.inj (hother'.resource.symm.trans hR')
    exact (h.pointer_iff hc hd hshows hother hR hR').2 hid

theorem ReadBack.renames : Renames (callKind rd) (callKey rd) (keyCounted rd) (callKind rd')
    (callKey rd') (keyCounted rd') g rd.calls where
  inj := fun c hc d hd heq => by
    have hnodup := h.nodup'
    rw [← h.calls] at hnodup
    exact List.inj_on_of_nodup_map hnodup hc hd heq
  kind_eq := fun c hc => by
    obtain ⟨_, _, res, r, hshows, hshows'⟩ := h.shows hc
    rw [hshows.kind, hshows'.kind]
    rfl
  key_iff := fun c hc d hd => by
    obtain ⟨t, t', res, r, hshows, hshows'⟩ := h.shows hc
    obtain ⟨u, u', res', s, hother, hother'⟩ := h.shows hd
    have hpointer := (h.pointer_iff hc hd hshows hother hshows'.resource hother'.resource).1
    rw [hshows.key, hshows'.key, hother.key, hother'.key]
    simp only [Prod.mk.injEq, Option.some.injEq, hpointer]
    rfl
  counted_eq := fun c hc => by
    obtain ⟨_, _, res, r, hshows, hshows'⟩ := h.shows hc
    rw [hshows.counted, hshows'.counted]
    rfl

/-- **`filter_leaks` keeps the same calls** of the log that was read. -/
theorem ReadBack.sameLeaks (hint : rd.Integrity) (hint' : rd'.Integrity)
    (hfew : rd.calls.length ≤ 2 ^ 32) : SameLeaks rd rd' := by
  have hlength : rd'.calls.length = rd.calls.length := by rw [← h.calls, List.length_map]
  obtain ⟨kept, hkept, hcalls, hrest, hfcall⟩ :=
    filterLeaksWith_keptCalls resHash hint h.resourced (.of_length hfew)
  obtain ⟨kept', hkept', hcalls', hrest', hfcall'⟩ :=
    filterLeaksWith_keptCalls resHash hint' h.resourced' (.of_length (hlength.trans_le hfew))
  rw [← h.calls, ← keptCalls_map h.nodup h.renames, ← hcalls] at hcalls'
  have hrecord : ∀ {store store' : Rd w} {c : Nat}, store.SameRest store' →
      store'.fcall c = store.fcall c → callRecord store' c = callRecord store c := by
    intro store store' c hrest hfcall
    have hresource : ∀ d, fcallRecord store' d = fcallRecord store d := fun d => by
      cases htype : d.resType <;> simp only [fcallRecord, fcallResource, htype, hrest.resource]
    simp only [callRecord, hfcall, hresource]
  refine ⟨kept, kept', hkept, hkept', ?_⟩
  rw [SameOrder, hcalls', List.forall₂_map_right_iff, List.forall₂_same]
  intro c hc
  have hmem : c ∈ rd.calls := by
    rw [hcalls] at hc
    exact (List.mem_filter.mp hc).1
  obtain ⟨r, hr, hr'⟩ := h.records c hmem
  refine ⟨r, (hrecord hrest (hfcall c hc)).trans hr, ?_⟩
  rw [hrecord hrest' (hfcall' (g c) ?_), hr']
  rw [hcalls']
  exact List.mem_map_of_mem hc

end ReadBack

end Leaks

/-! ## The order behind a log -/

section Order

variable {rd rd' : Rd w} {localtime : Int → Tm} {time : Nat → BitVec 32} {opts : WriterOptions}
  {mktime : List (BitVec 32) → Int} {junk : Nat → Context w} {clock : List Moment}

/-- Calls that come back in their order leave the same leaks. -/
theorem sameLeaks_of_order (h : EmittedLog rd) {text : Str} (hwhole : rd'.Whole)
    (hfew : rd.calls.length ≤ 2 ^ 32)
    (hread : readTextData mktime junk rdCreate text = some rd')
    (hstored : List.Forall₂ (fun r res => rd'.resource r = some res) rd'.resources
      ((storedResources rd).map shownResource))
    (hsame : SameOrder rd rd') : SameLeaks rd rd' := by
  obtain ⟨g, hcalls, hrecords⟩ := forall₂_exists_map hsame h.integrity.calls_nodup
  have hlength : rd'.calls.length = rd.calls.length := by rw [← hcalls, List.length_map]
  have hint' : rd'.Integrity :=
    hwhole.integrity (hwhole.toLinked.counted (hlength.trans_le hfew))
  have hback : ReadBack rd rd' g := ⟨h.resourced, h.lines.types, h.integrity.calls_nodup,
    hint'.calls_nodup, readTextData_own hread, hstored, hcalls, hrecords⟩
  exact hback.sameLeaks h.integrity hint' hfew

/-- **The calls of a process come back in their order**, and `filter_leaks`
keeps the same calls of them, exactly if everything fits the buffers and
the time of day does not go back from one call to a later one. -/
theorem eventOrder_iff (hw : 32 ≤ w) (mktime : List (BitVec 32) → Int) (junk : Nat → Context w)
    (localtime : Int → Tm) (time : Nat → BitVec 32) (opts : WriterOptions) {rd : Rd w}
    {clock : List Moment} (hem : Emission rd clock) (h : EmittedLog rd)
    (hshort : ∀ text, writeTraceLog rd localtime time opts = some text → ShortLines text) :
    (∃ text rd', writeTraceLog rd localtime time opts = some text ∧
      readTextData mktime junk rdCreate text = some rd' ∧ SameOrder rd rd' ∧ SameLeaks rd rd') ↔
    LogFits rd localtime time opts ∧ TimesRise rd := by
  constructor
  · rintro ⟨text, rd', hwrite, hread, hsame, -⟩
    obtain ⟨hfits, -, -, views, sorted, hperm, hsort, hrecords⟩ :=
      readEmitted hw h hwrite (hshort text hwrite) hread
    exact ⟨hfits, (sorted_iff hem h.calls hperm hsort).mp ((sameOrder_iff h.calls hrecords).mp hsame)⟩
  · intro ⟨hfits, hrise⟩
    obtain ⟨text, rd', hwrite, hread⟩ := readEmitted_total mktime junk hw h hshort hfits
    obtain ⟨-, hwhole, hstored, views, sorted, hperm, hsort, hrecords⟩ :=
      readEmitted hw h hwrite (hshort text hwrite) hread
    have hsame := (sameOrder_iff h.calls hrecords).mpr ((sorted_iff hem h.calls hperm hsort).mpr hrise)
    exact ⟨text, rd', hwrite, hread, hsame, sameLeaks_of_order h hwhole (hem.few h.calls) hread hstored hsame⟩

end Order

/-- The calls of a parsed log are calls of a process. -/
theorem PlainLog.emitted {rd : Rd w} (h : PlainLog rd) (hres : Resourced rd) : EmittedLog rd where
  integrity := h.integrity
  table := h.table
  lines := h.lines
  calls := fun c hc => by
    obtain ⟨v, hv, hcall⟩ := h.calls c hc
    exact ⟨v, hv, { hcall with args := by simp }, fun arg harg =>
      ⟨(hcall.args arg harg).1, (hcall.args arg harg).2.no_newline⟩⟩
  comments := h.comments
  resourced := hres

/-- All calls have one resource. -/
theorem resourced_one {rd : Rd w} {type : Nat} {res : Resource w}
    (htypes : ∀ c ∈ rd.calls, (rd.fcall c).bind (fun x => x.data.resType) = some type)
    (hres : rd.resource type = some res) : Resourced rd := by
  constructor
  · intro c hc
    obtain ⟨x, hx, htype⟩ := Option.bind_eq_some_iff.mp (htypes c hc)
    exact ⟨x, type, res, hx, htype, hres⟩
  · intro c hc d hd x y t u res res' hx hy ht hu _ _ _
    have hleft := htypes c hc
    have hright := htypes d hd
    rw [hx, Option.bind_some, ht] at hleft
    rw [hy, Option.bind_some, hu] at hright
    exact Option.some.inj (hleft.trans hright.symm)

theorem cutStore_resourced {rd : Rd 64} (h : cutStore = some rd) : Resourced rd := by
  have htypes : cutStore.map (fun rd =>
      (rd.calls.map fun c => (rd.fcall c).bind fun x => x.data.resType, rd.resource 0))
      = some ([some 0, some 0], some cutResource) := by
    decide +kernel
  rw [h] at htypes
  simp only [Option.map_some, Option.some.injEq, Prod.mk.injEq] at htypes
  refine resourced_one (fun c hc => ?_) htypes.2
  have hmem := List.mem_map_of_mem (f := fun c => (rd.fcall c).bind fun x => x.data.resType) hc
  rw [htypes.1] at hmem
  simpa using hmem

/-- Two calls without time stamps. -/
theorem eventOrder_unstamped : ∃ rd : Rd 64, cutStore = some rd ∧
    ∃ text rd', writeTraceLog rd (fun _ => cutTime) (fun _ => 0) plainOptions = some text ∧
      readTextData (fun _ => 0) (fun _ => ⟨0, []⟩) rdCreate text = some rd' ∧ SameOrder rd rd' ∧
      SameLeaks rd rd' := by
  obtain ⟨rd, hrd, -⟩ := Option.map_eq_some_iff.mp cutStore_calls
  obtain ⟨hplain, -⟩ := cutStore_plain hrd
  have hlength : cutStore.map (fun rd =>
      (writeTraceLog rd (fun _ => cutTime) (fun _ => 0) plainOptions).map List.length)
      = some (some 153) := by
    decide +kernel
  have hcalls := cutStore_calls
  rw [hrd] at hlength hcalls
  simp only [Option.map_some, Option.some.injEq, Prod.mk.injEq] at hcalls
  have hviews : storeViews rd = [cutCall 1 16, cutCall 2 32] := by
    have hmap : (rd.calls.map (callView rd)).filterMap id = storeViews rd := List.filterMap_map
    rw [← hmap, hcalls.2.1]
    rfl
  have hem : Emission rd [] := by
    refine ⟨fun i hi => ?_, .inl ?_, .nil⟩
    · have hlen : i < 2 := by simpa [hviews] using hi
      simp only [hviews]
      match i, hlen with
      | 0, _ => rfl
      | 1, _ => rfl
    · simp [hviews, cutCall]
  have hday : ∀ m ∈ ([] : List Moment), m.sec / 86400 = 0 := by simp
  have hrise : TimesRise rd := hem.timesRise hday
  refine ⟨rd, hrd, (eventOrder_iff (by decide) (fun _ => 0) (fun _ => ⟨0, []⟩) _ _ _ hem
    (hplain.emitted (cutStore_resourced hrd)) fun text htext => .of_length ?_).mpr
      ⟨cutStore_fits hrd, hrise⟩⟩
  rw [Option.map_some, htext] at hlength
  obtain hlength : text.length = 153 := by simpa using hlength
  omega

/-! ## Midnight -/

/-- The last millisecond of a day and the first one of the next. -/
def lateClock : List Moment := [⟨86399, 999000000, by decide⟩, ⟨86400, 1000000, by decide⟩]

def lateHandshake : Hshake :=
  { vmajor := 2, vminor := 0, arch := some "arm".toList, endianness := 0, pointerSize := 8 }

def latePacket (m : Moment) (type resSize : BitVec 32) : FcPacket 64 :=
  { resType := 1, context := 0, timestamp := m.timestamp, type, name := ['f'], resSize, resId := 16 }

/-- An allocation before midnight, and its release behind it. -/
def latePackets : List (PacketData 64) :=
  [.processInfo { pid := 1, backtraceDepth := 0, name := some ['p'], tvSec := 0, tvUsec := 0,
                  traceOrigin := some ['o'] },
   .resourceRegistry cutResource,
   .functionCall (latePacket ⟨86399, 999000000, by decide⟩ ftypeAlloc 8),
   .backtrace [0x1000],
   .functionCall (latePacket ⟨86400, 1000000, by decide⟩ ftypeFree 0),
   .backtrace [0x1000]]

def lateStore : Option (Rd 64) :=
  (latePackets.foldlM storePacket (initialState rdCreate lateHandshake)).map ParseState.rd

def lateCall (index timestamp type resSize : BitVec 32) : LogCall 64 where
  record := { index, context := 0, timestamp, name := ['f'], resType := .ref (some cutResource),
              type, resSize, resId := 16 }
  args := []
  frames := some [{ addr := 0x1000, name := none }]

theorem lateStore_calls : lateStore.map (fun rd =>
    (rd.calls, rd.calls.map (callView rd), rd.comments, rd.resources.map rd.resource))
    = some ([1, 4], [some (lateCall 1 86399999 ftypeAlloc 8), some (lateCall 2 1 ftypeFree 0)], [],
      [some cutResource]) := by
  decide +kernel

theorem lateCall_emitted {index timestamp type resSize : BitVec 32} (hindex : 0 < index.toInt)
    (htime : timestamp.toNat < 86400000) (hkind : type = ftypeAlloc ∨ type = ftypeFree ∧ resSize = 0) :
    EmittedCall [cutResource] (lateCall index timestamp type resSize) where
  plain :=
    { kind := hkind
      time := htime
      index := hindex
      name := (cutCall_plain hindex 16).name
      args := by simp
      frames := ⟨_, rfl, by simp⟩
      resource := (cutCall_plain hindex 16).resource }
  args := by simp [lateCall]

/-- The store is that of the calls of a process. -/
theorem lateStore_emitted {rd : Rd 64} (h : lateStore = some rd) :
    Emission rd lateClock ∧ EmittedLog rd := by
  have hnames : lateStore.map (fun rd =>
      (rd.hshake.bind Hshake.arch, rd.pinfo.bind Pinfo.name, rd.pinfo.bind Pinfo.traceOrigin))
      = some (some "arm".toList, some ['p'], some ['o']) := by
    decide +kernel
  have hlists : lateStore.map (fun rd =>
      (rd.files.length, rd.minfo.length, rd.contexts.length, rd.mmaps.length))
      = some (0, 0, 0, 0) := by
    decide +kernel
  have htypes : lateStore.map (fun rd =>
      (rd.calls.map fun c => (rd.fcall c).bind fun x => x.data.resType, rd.resource 0,
        rd.ftraces.size)) = some ([some 0, some 0], some cutResource, hashSize) := by
    decide +kernel
  have hids : ∀ data ∈ latePackets, data.IdsInRange := by
    simp [latePackets, PacketData.IdsInRange, latePacket, cutResource]
  have hstamps : latePackets.filterMap PacketData.timestamp = lateClock.map Moment.timestamp := rfl
  have hcalls := lateStore_calls
  obtain ⟨st, hst, hwhole, hem⟩ := emission_of_packets lateHandshake hids (by decide)
    (.inr hstamps) (by decide)
  have hrd : lateStore = some st.rd := by
    rw [lateStore, hst]
    rfl
  obtain rfl := Option.some.inj (h.symm.trans hrd)
  rw [h] at hnames hlists htypes hcalls
  simp only [Option.map_some, Option.some.injEq] at hnames hlists htypes hcalls
  simp only [Prod.mk.injEq] at htypes hcalls
  obtain ⟨hcalls, hviews, hcomments, hresources⟩ := hcalls
  obtain ⟨htypes, hresource, hsize⟩ := htypes
  obtain ⟨hstored, hlines⟩ := bareStore_lines (by decide) (by decide) hnames hlists hresources
  have hint := hwhole.integrity (hwhole.toLinked.counted (by simp [hcalls]))
  refine ⟨hem, hint, by rw [hsize]; decide, hlines, ?_, ?_, ?_⟩
  · intro c hc
    rw [hstored]
    have hmem := List.mem_map_of_mem (f := callView st.rd) hc
    rw [hviews] at hmem
    rcases List.mem_pair.mp hmem with heq | heq
    · exact ⟨_, heq, lateCall_emitted (by decide) (by decide) (.inl rfl)⟩
    · exact ⟨_, heq, lateCall_emitted (by decide) (by decide) (.inr ⟨rfl, rfl⟩)⟩
  · simp [hcomments]
  · refine resourced_one (fun c hc => ?_) hresource
    have hmem := List.mem_map_of_mem (f := fun c => (st.rd.fcall c).bind fun x => x.data.resType) hc
    rw [htypes] at hmem
    simpa using hmem

/-- In its log everything fits. -/
theorem lateStore_fits {rd : Rd 64} (h : lateStore = some rd) :
    LogFits rd (fun _ => cutTime) (fun _ => 0) plainOptions := by
  have hheader : lateStore.map (fun rd => do
      let hshake ← rd.hshake
      let pinfo ← rd.pinfo
      let header ← spRtracePrintHeader [] (traceHeader rd hshake pinfo cutTime plainOptions)
      some ((printInt pinfo.pid).length, (spRtraceParserParseHeader 64 header).isSome))
      = some (some (1, true)) := by
    decide +kernel
  have hrest : lateStore.map (fun rd =>
      ((storedResources rd).all fun res => (spRtracePrintResource res).isSome,
        (envRecords rd).all fun p => (spRtraceParserParseRecord (w := 64) recordAll p.2).isSome,
        (callBlocks rd plainOptions fun _ => 0).isSome)) = some (true, true, true) := by
    decide +kernel
  have hcalls := lateStore_calls
  obtain ⟨-, hlog⟩ := lateStore_emitted h
  rw [h] at hheader hrest hcalls
  simp only [Option.map_some, Option.some.injEq, Prod.mk.injEq] at hcalls
  obtain ⟨-, hviews, hcomments, -⟩ := hcalls
  refine .of_checks hlog.integrity hlog.table (Option.some.inj hheader) (Option.some.inj hrest) ?_ ?_
  · simp [hcomments, visibleComments]
  · intro c hc v hv
    have hmem := List.mem_map_of_mem (f := callView rd) hc
    rw [hviews, Option.mem_def.mp hv] at hmem
    have hbuffers : v.record.name = ['f'] ∧ v.record.resType = .ref (some cutResource) ∧ v.args = [] := by
      rcases List.mem_pair.mp hmem with heq | heq
      · rw [Option.some.inj heq]
        exact ⟨rfl, rfl, rfl⟩
      · rw [Option.some.inj heq]
        exact ⟨rfl, rfl, rfl⟩
    obtain ⟨hname, htype, hargs⟩ := hbuffers
    refine ⟨by simp [hname], fun type hmem => ?_, by simp [hargs]⟩
    rw [htype] at hmem
    obtain rfl := Option.some.inj (Option.mem_def.mp hmem)
    decide

/-- **The order of the calls is lost at midnight**: the release comes back
in front of the allocation, which is then a leak. -/
theorem eventOrder_midnight : ∃ rd : Rd 64, lateStore = some rd ∧ Emission rd lateClock ∧
    EmittedLog rd ∧ LogFits rd (fun _ => cutTime) (fun _ => 0) plainOptions ∧
    ∃ text rd', writeTraceLog rd (fun _ => cutTime) (fun _ => 0) plainOptions = some text ∧
      readTextData (fun _ => 0) (fun _ => ⟨0, []⟩) rdCreate text = some rd' ∧ ShortLines text ∧
      ¬ SameOrder rd rd' ∧ ¬ SameLeaks rd rd' := by
  have heval : lateStore.bind (fun rd =>
      (writeTraceLog rd (fun _ => cutTime) (fun _ => 0) plainOptions).bind fun text =>
      (readTextData (fun _ => 0) (fun _ => ⟨0, []⟩) rdCreate text).bind fun rd' : Rd 64 =>
      (filterLeaks rd).bind fun kept => (filterLeaks rd').map fun kept' =>
      (text.length, rd.calls.map (fun c => (callRecord rd c).map CallRecord.index),
        rd'.calls.map (fun c => (callRecord rd' c).map CallRecord.index), kept.calls.length,
        kept'.calls.length)) = some (210, [some 1, some 2], [some 2, some 1], 0, 1) := by
    decide +kernel
  simp only [Option.bind_eq_some_iff, Option.map_eq_some_iff, Prod.mk.injEq] at heval
  obtain ⟨rd, hrd, text, hwrite, rd', hread, kept, hkept, kept', hkept', hlength, hbefore, hafter,
    hnone, hone⟩ := heval
  obtain ⟨hem, hlog⟩ := lateStore_emitted hrd
  refine ⟨rd, hrd, hem, hlog, lateStore_fits hrd, text, rd', hwrite, hread, .of_length (by omega),
    fun hsame => ?_, fun ⟨leaks, leaks', hleaks, hleaks', hsame⟩ => ?_⟩
  · have hindexes : rd.calls.map (fun c => (callRecord rd c).map CallRecord.index)
        = rd'.calls.map (fun c => (callRecord rd' c).map CallRecord.index) :=
      forall₂_map_eq hsame fun c c' ⟨r, hr, hr'⟩ => by rw [hr, hr']; rfl
    rw [hbefore, hafter] at hindexes
    exact absurd hindexes (by decide)
  · obtain rfl := Option.some.inj (hkept.symm.trans hleaks)
    obtain rfl := Option.some.inj (hkept'.symm.trans hleaks')
    have := hsame.length_eq
    omega

end SpRtrace.Postproc
