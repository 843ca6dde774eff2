/-
SpRtrace.Postproc.StoreTheorems — the trace store of the post-processor
stays consistent over whole runs, as long as its counters have room.

A run starts with `rd_create` and adds calls and resources, assigns
backtraces the way the two parsers do (one call at a time, or a list of
calls at once), removes calls, and applies the removing filters, in any
order. `StoreOp` is one such operation, `StoreReachable` a run.

`StoreConsistent` is what somebody who reads the four structures sees:
counts, lists, back pointers and buckets agree. `Rd.Whole` gives all of it
but the counts, which are `int`s: a backtrace with `2 ^ 31` calls has a
negative one. A run that never gives a backtrace so many calls
(`StoreOp.HasRoom`) stays consistent, and the first operation that does
ends it.
-/
import Mathlib
import SpRtrace.Postproc.Removals

namespace SpRtrace.Postproc

open SpRtrace.Common

variable {w : Nat}

/-! ## Runs -/

inductive StoreOp (w : Nat)
  | addFcall (data : FcallData w)
  | addResource (res : Resource w)
  | setFtrace (call : Nat) (frames : List (Frame w))
  | setFtraces (cs : List Nat) (frames : List (Frame w))
  | remove (call : Nat)
  | leaks
  | context (mask : BitVec 32)
  | resource (mask : BitVec 32)
  | incl (indexMap : List (BitVec w))
  | excl (indexMap : List (BitVec w))

/-- What the operation does to the trace data. -/
def StoreOp.run : StoreOp w → Rd w → Option (Rd w)
  | addFcall data, rd => some (rdAddFcall rd data).1
  | addResource res, rd => some (rdAddResource rd res).1
  | setFtrace call frames, rd => rdSetNewFtrace rd call frames
  | setFtraces cs frames, rd => rdSetNewFtraces rd cs frames
  | remove call, rd => rdFcallRemove rd call
  | leaks, rd => filterLeaks rd
  | context mask, rd => filterContext mask rd
  | resource mask, rd => filterResource mask rd
  | incl indexMap, rd => filterInclude indexMap rd
  | excl indexMap, rd => filterExclude indexMap rd

/-- A call of the log without a backtrace. -/
def Untraced (rd : Rd w) (call : Nat) : Prop :=
  call ∈ rd.calls ∧ ∃ c, rd.fcall call = some c ∧ c.trace = none

/-- The operations are about calls of the log, and a call gets a backtrace
at most once. -/
def StoreOp.Ready (rd : Rd w) : StoreOp w → Prop
  | setFtrace call _ => Untraced rd call
  | setFtraces cs _ => cs ≠ [] ∧ cs.Nodup ∧ ∀ c ∈ cs, Untraced rd c
  | remove call => call ∈ rd.calls
  | _ => True

/-- An `int` can count `n` calls more of the backtrace with these frames. -/
def RoomFor (rd : Rd w) (n : Nat) (frames : List (Frame w)) : Prop :=
  n < 2 ^ 31 ∧ ∀ t y, rd.StoredTrace t → rd.ftrace t = some y →
    y.frames.map Frame.addr = frames.map Frame.addr → y.calls.length + n < 2 ^ 31

/-- No counter is counted past the end of an `int`. -/
def StoreOp.HasRoom (rd : Rd w) : StoreOp w → Prop
  | setFtrace _ frames => RoomFor rd 1 frames
  | setFtraces cs frames => RoomFor rd cs.length frames
  | _ => True

/-- The states of all runs whose operations are `allowed`. -/
def StoreReachable (allowed : Rd w → StoreOp w → Prop) : Rd w → Prop :=
  Relation.ReflTransGen (fun rd rd' => ∃ op, StoreOp.Ready rd op ∧ allowed rd op ∧
    op.run rd = some rd') rdCreate

/-! ## What the invariant means -/

/-- Counts, reference lists, back pointers and buckets agree. -/
structure StoreConsistent (rd : Rd w) : Prop where
  counts : ∀ t, rd.StoredTrace t → ∃ y, rd.ftrace t = some y ∧
    y.refCount.toInt = y.calls.length ∧ y.refCount.toInt = (callsOf rd t).length ∧
    1 ≤ y.refCount.toInt
  back_pointer : ∀ c ∈ rd.calls, ∀ x t, rd.fcall c = some x → x.trace = some t →
    ∃ y r, rd.ftrace t = some y ∧ x.ref = some r ∧ y.calls.Nodup ∧
      ∀ r', (r' ∈ y.calls ∧ rd.refNode r' = some c) ↔ r' = r
  bucket : ∀ c ∈ rd.calls, ∀ x t, rd.fcall c = some x → x.trace = some t →
    ∃ y b, rd.ftrace t = some y ∧ y.bucket = some b ∧ t ∈ rd.ftraces.buckets b
  frames_inj : ∀ t u y z, rd.StoredTrace t → rd.StoredTrace u → rd.ftrace t = some y →
    rd.ftrace u = some z → y.frames.map Frame.addr = z.frames.map Frame.addr → t = u

/-- The calls of every backtrace fit in an `int`. -/
def ShortLists (rd : Rd w) : Prop :=
  ∀ t y, rd.StoredTrace t → rd.ftrace t = some y → y.calls.length < 2 ^ 31

theorem toInt_ofNat_eq {n : Nat} : (BitVec.ofNat 32 n).toInt = n ↔ n < 2 ^ 31 := by
  constructor
  · intro heq
    have hlt := BitVec.toInt_lt (x := BitVec.ofNat 32 n)
    omega
  · intro hlt
    rw [BitVec.toInt_eq_toNat_cond, BitVec.toNat_ofNat, Nat.mod_eq_of_lt (by omega)]
    rw [if_pos (by omega)]

/-- In a store the parsers build only the counts can be wrong. -/
theorem storeConsistent_iff_short {rd : Rd w} (h : rd.Whole) : StoreConsistent rd ↔ ShortLists rd := by
  constructor
  · intro hcons t y hst hy
    obtain ⟨y', hy', hcount, -⟩ := hcons.counts t hst
    obtain rfl := Option.some.inj (hy.symm.trans hy')
    rw [(h.trace_calls t y hst hy).2.1] at hcount
    exact toInt_ofNat_eq.mp hcount
  intro hshort
  refine ⟨?_, ?_, ?_, h.keyed.frames_inj⟩
  · intro t hst
    obtain ⟨y, hy, -⟩ := h.stored_live t hst
    have hcount : y.refCount.toInt = y.calls.length := by
      rw [(h.trace_calls t y hst hy).2.1]
      exact toInt_ofNat_eq.mpr (hshort t y hst hy)
    have hpos := List.length_pos_of_ne_nil (h.used t y hst hy)
    exact ⟨y, hy, hcount, by rw [h.toLinked.callsOf_length hst hy, hcount], by omega⟩
  · intro c hc x t hx hxt
    obtain ⟨hst, r, y, hxr, hy, hr, hrc⟩ := h.call_trace c hc x t hx hxt
    refine ⟨y, r, hy, hxr, (h.trace_calls t y hst hy).1, fun r' => ?_⟩
    constructor
    · rintro ⟨hr', hrc'⟩
      exact (h.toLinked.ref_unique hx hxt hxr hst hy hr' hrc').2
    · rintro rfl
      exact ⟨hr, hrc⟩
  · intro c hc x t hx hxt
    obtain ⟨hst, -⟩ := h.call_trace c hc x t hx hxt
    obtain ⟨y, hy, hb⟩ := h.stored_live t hst
    exact ⟨y, rd.bucketOf t, hy, hb, (h.placed.stored_iff t).mp hst⟩

/-! ## Steps -/

/-- Assigning a backtrace keeps the counts right exactly if there is room. -/
theorem short_iff_roomFor {rd rd' : Rd w} {cs : List Nat} {frames : List (Frame w)} {u : Nat}
    (h : rd.Whole) (hshort : ShortLists rd) (hset : rd.SetsTrace cs frames rd' u) :
    ShortLists rd' ↔ RoomFor rd cs.length frames := by
  obtain ⟨y, hy, hold, hnew⟩ := hset.calls_new
  obtain ⟨y₁, hy₁, haddr, -⟩ := hset.frames_new
  obtain rfl := Option.some.inj (hy.symm.trans hy₁)
  -- a stored backtrace with these addresses is the one the calls have got
  have hsame : ∀ t z, rd.StoredTrace t → rd.ftrace t = some z →
      z.frames.map Frame.addr = frames.map Frame.addr → t = u := by
    intro t z hst hz heq
    obtain ⟨z', hz', hframes⟩ := hset.frames_old t z hst hz
    exact hset.whole.keyed.frames_inj t u z' y ((hset.stored t).mpr (.inl hst))
      ((hset.stored u).mpr (.inr rfl)) hz' hy (by rw [hframes, heq, haddr])
  constructor
  · intro hshort'
    have hlt := hshort' u y ((hset.stored u).mpr (.inr rfl)) hy
    by_cases hu : rd.StoredTrace u
    · obtain ⟨z, hz, -⟩ := h.stored_live u hu
      rw [hold z hu hz] at hlt
      refine ⟨by omega, fun t z' hst hz' heq => ?_⟩
      obtain rfl := hsame t z' hst hz' heq
      obtain rfl := Option.some.inj (hz.symm.trans hz')
      exact hlt
    · rw [hnew hu] at hlt
      exact ⟨hlt, fun t z' hst hz' heq => absurd (hsame t z' hst hz' heq ▸ hst) hu⟩
  · rintro ⟨hlen, hroom⟩ t z hst hz
    by_cases htu : t = u
    · subst htu
      obtain rfl := Option.some.inj (hy.symm.trans hz)
      by_cases hu : rd.StoredTrace t
      · obtain ⟨x, hx, -⟩ := h.stored_live t hu
        obtain ⟨x', hx', hframes⟩ := hset.frames_old t x hu hx
        obtain rfl := Option.some.inj (hy.symm.trans hx')
        rw [hold x hu hx]
        exact hroom t x hu hx (by rw [← hframes, haddr])
      · rw [hnew hu]
        exact hlen
    · have hst' := ((hset.stored t).mp hst).resolve_right htu
      rw [hset.ftrace_other t htu hst'] at hz
      exact hshort t z hst' hz

theorem ShortLists.counted {rd : Rd w} (h : ShortLists rd) : rd.Counted := fun t y hst hy => by
  have := h t y hst hy
  omega

/-- Removals keep what the parsers build, and only take calls away. -/
theorem Removal.short {rd rd' : Rd w} (hwhole : rd.Whole) (hshort : ShortLists rd)
    (h : Removal rd rd') : rd'.Whole ∧ ShortLists rd' := by
  refine ⟨h.whole hwhole hshort.counted, fun t y hst hy => ?_⟩
  obtain ⟨hst', hback⟩ := (h.traces (hwhole.integrity hshort.counted)).2 t hst
  obtain ⟨z, hz, -, -, hle⟩ := hback y hy
  exact hle.trans_lt (hshort t z hst' hz)

/-- Every operation keeps what the parsers build, and the counts stay right
exactly if it has room. -/
theorem StoreOp.run_shortLists {rd rd' : Rd w} {op : StoreOp w} (h : rd.Whole) (hshort : ShortLists rd)
    (hready : StoreOp.Ready rd op) (hrun : op.run rd = some rd') :
    rd'.Whole ∧ (ShortLists rd' ↔ StoreOp.HasRoom rd op) := by
  have hremoval : Removal rd rd' → StoreOp.HasRoom rd op →
      rd'.Whole ∧ (ShortLists rd' ↔ StoreOp.HasRoom rd op) := by
    intro hrem hroom
    obtain ⟨hwhole, hshort'⟩ := hrem.short h hshort
    exact ⟨hwhole, iff_of_true hshort' hroom⟩
  cases op with
  | addFcall data =>
    obtain rfl := Option.some.inj hrun
    exact ⟨rdAddFcall_whole h data, iff_of_true hshort trivial⟩
  | addResource res =>
    obtain rfl := Option.some.inj hrun
    exact ⟨rdAddResource_whole h res, iff_of_true hshort trivial⟩
  | setFtrace call frames =>
    obtain ⟨hmem, c, hc, hnone⟩ := hready
    obtain ⟨rd₁, u, heq, hset⟩ := rdSetNewFtrace_setsTrace h hmem hc hnone frames
    obtain rfl := Option.some.inj (heq.symm.trans hrun)
    exact ⟨hset.whole, short_iff_roomFor h hshort hset⟩
  | setFtraces cs frames =>
    obtain ⟨hne, hnd, hcs⟩ := hready
    obtain ⟨rd₁, u, heq, hset⟩ := rdSetNewFtraces_setsTrace h hne hnd hcs frames
    obtain rfl := Option.some.inj (heq.symm.trans hrun)
    exact ⟨hset.whole, short_iff_roomFor h hshort hset⟩
  | remove call => exact hremoval (removal_fcall hrun) trivial
  | leaks => exact hremoval (filterLeaks_removal hrun) trivial
  | context mask => exact hremoval (filterContext_removal hrun) trivial
  | resource mask => exact hremoval (filterResource_removal hrun) trivial
  | incl indexMap => exact hremoval (filterCalls_removal hrun) trivial
  | excl indexMap => exact hremoval (filterCalls_removal hrun) trivial

/-! ## Runs stay consistent -/

theorem StoreReachable.short {rd : Rd w} (h : StoreReachable StoreOp.HasRoom rd) :
    rd.Whole ∧ ShortLists rd := by
  induction h with
  | refl =>
    refine ⟨whole_rdCreate, ?_⟩
    rintro t y ⟨b, hb⟩
    simp [rdCreate] at hb
  | tail _ hstep ih =>
    obtain ⟨op, hready, hroom, hrun⟩ := hstep
    obtain ⟨hwhole, hiff⟩ := StoreOp.run_shortLists ih.1 ih.2 hready hrun
    exact ⟨hwhole, hiff.mpr hroom⟩

/-- **Trace store integrity**: in every state of a run that counts no
backtrace past the end of an `int`, counts, reference lists, back pointers
and buckets agree, and no two stored backtraces have the same frame
addresses. They do after the next operation exactly if it has room. -/
theorem storeReachable_consistent {rd : Rd w} (h : StoreReachable StoreOp.HasRoom rd) :
    StoreConsistent rd ∧ ∀ op rd', StoreOp.Ready rd op → op.run rd = some rd' →
      (StoreConsistent rd' ↔ StoreOp.HasRoom rd op) := by
  obtain ⟨hwhole, hshort⟩ := h.short
  refine ⟨(storeConsistent_iff_short hwhole).mpr hshort, fun op rd' hready hrun => ?_⟩
  obtain ⟨hwhole', hiff⟩ := StoreOp.run_shortLists hwhole hshort hready hrun
  exact (storeConsistent_iff_short hwhole').trans hiff

def sampleCall : FcallData 64 :=
  { index := 1, type := ftypeAlloc, context := 0, timestamp := 0, name := [], resType := none,
    resId := 16, resSize := 8 }

def sampleShared : Rd 64 :=
  (rdSetNewFtraces (rdAddFcall (rdAddFcall rdCreate sampleCall).1 sampleCall).1 [0, 1]
    [{ addr := 4096, name := none }]).get rfl

/-- The same with the first call removed. -/
def sampleStore : Rd 64 := (rdFcallRemove sampleShared 0).get rfl

theorem storeReachable_consistent_sample :
    StoreReachable StoreOp.HasRoom sampleStore ∧ callsOf sampleStore 4 = [1] ∧
      StoreConsistent sampleStore := by
  have hadd : StoreReachable StoreOp.HasRoom
      (rdAddFcall (rdAddFcall rdCreate sampleCall).1 sampleCall).1 :=
    .tail (.tail .refl ⟨.addFcall sampleCall, trivial, trivial, rfl⟩)
      ⟨.addFcall sampleCall, trivial, trivial, rfl⟩
  have hset : StoreReachable StoreOp.HasRoom sampleShared := by
    refine .tail hadd ⟨.setFtraces [0, 1] [{ addr := 4096, name := none }],
      ⟨by decide, by decide, ?_⟩, ⟨by norm_num, ?_⟩, (Option.some_get _).symm⟩
    · intro c hc
      simp only [List.mem_cons, List.not_mem_nil, or_false] at hc
      rcases hc with rfl | rfl <;> exact ⟨by decide, _, rfl, rfl⟩
    · rintro t y ⟨b, hb⟩
      simp [rdAddFcall, rdCreate] at hb
  have hrem : StoreReachable StoreOp.HasRoom sampleStore :=
    .tail hset ⟨.remove 0, show 0 ∈ sampleShared.calls by decide, trivial, (Option.some_get _).symm⟩
  exact ⟨hrem, by decide, (storeReachable_consistent hrem).1⟩

/-! ## Too many calls for an `int` -/

/-- A log of `n` calls without backtraces. -/
def manyCalls (data : FcallData w) : Nat → Rd w
  | 0 => rdCreate
  | n + 1 => (rdAddFcall (manyCalls data n) data).1

theorem manyCalls_spec (data : FcallData w) (n : Nat) :
    StoreReachable (fun _ _ => True) (manyCalls data n) ∧ (manyCalls data n).Whole ∧
      ShortLists (manyCalls data n) ∧ (manyCalls data n).calls.length = n ∧
      ∀ c ∈ (manyCalls data n).calls, Untraced (manyCalls data n) c := by
  induction n with
  | zero =>
    refine ⟨.refl, whole_rdCreate, ?_, rfl, by simp [manyCalls, rdCreate]⟩
    rintro t y ⟨b, hb⟩
    simp [manyCalls, rdCreate] at hb
  | succ n ih =>
    obtain ⟨hreach, hwhole, hshort, hlen, hcalls⟩ := ih
    refine ⟨.tail hreach ⟨.addFcall data, trivial, trivial, rfl⟩, rdAddFcall_whole hwhole data,
      hshort, by simp [manyCalls, rdAddFcall, dlistAdd, hlen], fun c hc => ⟨hc, ?_⟩⟩
    by_cases hnew : c = (manyCalls data n).fresh
    · exact ⟨_, by rw [hnew]; exact Function.update_self .., rfl⟩
    · have hold : c ∈ (manyCalls data n).calls := by
        simpa [manyCalls, rdAddFcall, hnew] using hc
      obtain ⟨-, x, hx, hnone⟩ := hcalls c hold
      exact ⟨x, (Function.update_of_ne hnew _ _).trans hx, hnone⟩

/-- `2 ^ 31` calls that get one backtrace at once: its counter is negative. -/
theorem storeReachable_overflow :
    ¬ ∀ rd : Rd 64, StoreReachable (fun _ _ => True) rd → StoreConsistent rd := by
  intro hclaim
  obtain ⟨hreach, hwhole, hshort, hlen, hcalls⟩ := manyCalls_spec sampleCall (2 ^ 31)
  generalize manyCalls sampleCall (2 ^ 31) = rd at hreach hwhole hshort hlen hcalls
  have hne : rd.calls ≠ [] := List.ne_nil_of_length_pos (by omega)
  obtain ⟨rd', u, heq, hset⟩ :=
    rdSetNewFtraces_setsTrace hwhole hne hwhole.calls_nodup hcalls [{ addr := 4096, name := none }]
  have hcons := hclaim rd' (.tail hreach
    ⟨.setFtraces rd.calls [{ addr := 4096, name := none }], ⟨hne, hwhole.calls_nodup, hcalls⟩,
      trivial, heq⟩)
  have hroom := (short_iff_roomFor hwhole hshort hset).mp
    ((storeConsistent_iff_short hset.whole).mp hcons)
  exact absurd hroom.1 (by omega)

end SpRtrace.Postproc
