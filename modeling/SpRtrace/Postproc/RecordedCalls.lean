/-
SpRtrace.Postproc.RecordedCalls — the leak filter on the function calls of
the tracing modules.

The modules and the post-processor meet in `Recorded`: the calls of a store
are function calls of modules, with the resource types they name by id.
What `filter_leaks` leaves of them is what the ledger of the function calls
still owes (`filterLeaks_ledger`), so a module is verified by what its
events do to the ledger.
-/
import SpRtrace.Modules.Main
import SpRtrace.Postproc.LeakLedger
import SpRtrace.Postproc.LeakTheorems

namespace SpRtrace.Postproc

open SpRtrace.Common SpRtrace.Modules

variable {w : Nat}

/-- What the leak filter knows of a function call, and its size. -/
structure ResourceCall (w : Nat) where
  type : BitVec 32
  name : Str
  resTypeId : BitVec w
  resId : BitVec w
  resSize : BitVec 32
  deriving DecidableEq, Repr

def ResourceCall.kind (c : ResourceCall w) : CallKind :=
  if c.type = ftypeAlloc then .alloc else if c.type = ftypeFree then .free else .other

/-- The resource of the call: its type and which one it is. -/
def ResourceCall.key (c : ResourceCall w) : BitVec w × BitVec w := (c.resTypeId, c.resId)

def resourceCall (c : ModuleFcall w) : ResourceCall w :=
  { type := c.type, name := c.name.getD [], resTypeId := c.resTypeId.setWidth w, resId := c.resId,
    resSize := c.resSize }

/-- The id of a resource type in a log. -/
theorem setWidth_inj (hw : 32 ≤ w) {a b : BitVec 32} (h : a.setWidth w = b.setWidth w) : a = b := by
  have hnat := congrArg BitVec.toNat h
  rw [BitVec.toNat_setWidth, BitVec.toNat_setWidth,
    Nat.mod_eq_of_lt (a.isLt.trans_le (Nat.pow_le_pow_right (by decide) hw)),
    Nat.mod_eq_of_lt (b.isLt.trans_le (Nat.pow_le_pow_right (by decide) hw))] at hnat
  exact BitVec.eq_of_toNat_eq hnat

/-- The resource id of a descriptor. -/
theorem ofNat_inj (hw : 32 ≤ w) {n m : Nat} (hn : n < 2 ^ 31) (hm : m < 2 ^ 31)
    (h : BitVec.ofNat w n = BitVec.ofNat w m) : n = m := by
  have hpow : 2 ^ 31 < 2 ^ w := Nat.pow_lt_pow_right (by decide) (by omega)
  have hnat := congrArg BitVec.toNat h
  rwa [BitVec.toNat_ofNat, BitVec.toNat_ofNat, Nat.mod_eq_of_lt (hn.trans hpow),
    Nat.mod_eq_of_lt (hm.trans hpow)] at hnat

def storedCall (rd : Rd w) (call : Nat) : Option (ResourceCall w) := do
  let x ← rd.fcall call
  let res ← rd.resource (← x.data.resType)
  some { type := x.data.type, name := x.data.name, resTypeId := res.id, resId := x.data.resId,
         resSize := x.data.resSize }

/-- The calls of the store are `calls`, and its resource types are counted
as `counted` says. -/
structure Recorded (rd : Rd w) (counted : BitVec w → Bool) (calls : List (ResourceCall w)) : Prop where
  calls : rd.calls.map (storedCall rd) = calls.map some
  counted : ∀ type res, rd.resource type = some res → res.refcounted = counted res.id
  resourced : Resourced rd

variable {rd : Rd w} {counted : BitVec w → Bool} {calls : List (ResourceCall w)}

abbrev CallLedger (w : Nat) := Ledger (ResourceCall w) (BitVec w × BitVec w)

def CallLedger.step (counted : BitVec w → Bool) : CallLedger w → ResourceCall w → CallLedger w :=
  Ledger.step ResourceCall.kind ResourceCall.key fun k => counted k.1

def CallLedger.run (counted : BitVec w → Bool) : CallLedger w → List (ResourceCall w) → CallLedger w :=
  Ledger.run ResourceCall.kind ResourceCall.key fun k => counted k.1

/-- The ledger can take the function calls. -/
def CallLedger.TakesAll (counted : BitVec w → Bool) : CallLedger w → List (ResourceCall w) → Prop :=
  Ledger.TakesAll ResourceCall.kind ResourceCall.key fun k => counted k.1

def storedCallD (rd : Rd w) (call : Nat) : ResourceCall w :=
  (storedCall rd call).getD { type := 0, name := [], resTypeId := 0, resId := 0, resSize := 0 }

theorem Recorded.eq_map (h : Recorded rd counted calls) : calls = rd.calls.map (storedCallD rd) := by
  have hmap := congrArg (List.map fun o : Option (ResourceCall w) =>
    o.getD { type := 0, name := [], resTypeId := 0, resId := 0, resSize := 0 }) h.calls
  rw [List.map_map, List.map_map] at hmap
  exact (hmap.trans (List.map_id _)).symm

/-- The record of a call. -/
theorem Recorded.live (h : Recorded rd counted calls) {c : Nat} (hc : c ∈ rd.calls) :
    ∃ x type res, rd.fcall c = some x ∧ x.data.resType = some type ∧ rd.resource type = some res ∧
      storedCallD rd c = { type := x.data.type, name := x.data.name, resTypeId := res.id,
                           resId := x.data.resId, resSize := x.data.resSize } := by
  obtain ⟨x, type, res, hx, htype, hres⟩ := h.resourced.carries c hc
  exact ⟨x, type, res, hx, htype, hres, by simp [storedCallD, storedCall, hx, htype, hres]⟩

theorem Recorded.callKind_eq (h : Recorded rd counted calls) {c : Nat} (hc : c ∈ rd.calls) :
    callKind rd c = (storedCallD rd c).kind := by
  obtain ⟨x, type, res, hx, -, -, hstored⟩ := h.live hc
  simp [callKind, ResourceCall.kind, hx, hstored]

theorem Recorded.callKey_eq_iff (h : Recorded rd counted calls) {c d : Nat} (hc : c ∈ rd.calls)
    (hd : d ∈ rd.calls) :
    callKey rd c = callKey rd d ↔ (storedCallD rd c).key = (storedCallD rd d).key := by
  obtain ⟨x, type, res, hx, htype, hres, hstored⟩ := h.live hc
  obtain ⟨y, type', res', hy, htype', hres', hstored'⟩ := h.live hd
  have hsame : res.id = res'.id ↔ type = type' := by
    refine ⟨h.resourced.ids_inj c hc d hd x y type type' res res' hx hy htype htype' hres hres', ?_⟩
    rintro rfl
    rw [Option.some.inj (hres.symm.trans hres')]
  simp [callKey, ResourceCall.key, hx, hy, htype, htype', hstored, hstored', hsame]

theorem Recorded.keyCounted_eq (h : Recorded rd counted calls) {c : Nat} (hc : c ∈ rd.calls) :
    keyCounted rd (callKey rd c) = counted (storedCallD rd c).key.1 := by
  obtain ⟨x, type, res, hx, htype, hres, hstored⟩ := h.live hc
  simp [callKey, keyCounted, ResourceCall.key, hx, htype, hres, hstored, h.counted type res hres]

/-- The filter looks at what the function calls say. -/
theorem Recorded.keptCalls (h : Recorded rd counted calls) (hint : rd.Integrity) :
    keptCalls (callKind rd) (callKey rd) (keyCounted rd) rd.calls
      = keptCalls (ResourceCall.kind ∘ storedCallD rd) (ResourceCall.key ∘ storedCallD rd)
          (fun k => counted k.1) rd.calls := by
  have hnames : Renames (callKind rd) (callKey rd) (keyCounted rd) (ResourceCall.kind ∘ storedCallD rd)
      (ResourceCall.key ∘ storedCallD rd) (fun k => counted k.1) id rd.calls := by
    refine ⟨fun _ _ _ _ heq => heq, fun c hc => (h.callKind_eq hc).symm,
      fun c hc d hd => (h.callKey_eq_iff hc hd).symm, fun c hc => (h.keyCounted_eq hc).symm⟩
  simpa using keptCalls_map hint.calls_nodup hnames

/-- **The leak filter leaves what the ledger owes**, each function call as it
was. -/
theorem filterLeaks_ledger (hint : rd.Integrity) (h : Recorded rd counted calls)
    (hcount : ∀ c ∈ calls, counted c.resTypeId = false)
    (htakes : CallLedger.TakesAll counted Ledger.empty calls) :
    ∃ (rd' : Rd w) (kept : List (ResourceCall w)), filterLeaks rd = some rd' ∧
      rd'.calls.map (storedCall rd') = kept.map some ∧ kept.Sublist calls ∧
      (kept.map ResourceCall.key).Nodup ∧
      ∀ e, e ∈ kept ↔ ∃ n, CallLedger.run counted Ledger.empty calls e.key = some (e, n) := by
  have hfits : CountsFit rd (fun _ => true) rd.calls := .of_uncounted fun c hc _ => by
    rw [h.keyCounted_eq hc]
    refine hcount _ ?_
    rw [h.eq_map]
    exact List.mem_map_of_mem hc
  obtain ⟨rd', hrun, hcalls, hrest, hfcall⟩ :=
    filterLeaksWith_keptCalls resHash hint h.resourced hfits
  rw [h.keptCalls hint] at hcalls
  rw [h.eq_map] at htakes
  obtain ⟨hnd, hmem⟩ := keptCalls_ledger (storedCallD rd) hint.calls_nodup htakes
  rw [← hcalls, ← h.eq_map] at hmem
  rw [← hcalls] at hnd
  have hsub : rd'.calls.Sublist rd.calls := hcalls ▸ List.filter_sublist
  refine ⟨rd', rd'.calls.map (storedCallD rd), hrun, ?_, ?_, ?_, hmem⟩
  · rw [List.map_map]
    refine List.map_congr_left fun c hc => ?_
    obtain ⟨x, type, res, hx, htype, hres, hstored⟩ := h.live (hsub.subset hc)
    simp [storedCall, hfcall c hc, hrest.resource, hx, htype, hres, hstored]
  · rw [h.eq_map]
    exact hsub.map _
  · rwa [List.map_map]

/-- **The property of a tracing module**: on every log of its function calls
the leak filter leaves some of them as they were, allocations only, one for
each of the resources that are owed. -/
def LeaksOwed (counted : BitVec w → Bool) (calls : List (ResourceCall w))
    (owed : Finset (BitVec w × BitVec w)) : Prop :=
  ∀ rd : TraceStore w, Recorded rd.val counted calls →
    ∃ (rd' : Rd w) (kept : List (ResourceCall w)), filterLeaks rd.val = some rd' ∧
      rd'.calls.map (storedCall rd') = kept.map some ∧ kept.Sublist calls ∧
      (∀ e ∈ kept, e.type = ftypeAlloc) ∧ (kept.map ResourceCall.key).Nodup ∧
      ∀ k, k ∈ kept.map ResourceCall.key ↔ k ∈ owed

theorem ResourceCall.type_of_kind {c : ResourceCall w} (h : c.kind = .alloc) : c.type = ftypeAlloc := by
  unfold ResourceCall.kind at h
  split at h
  next heq => exact heq
  · split at h <;> cases h

/-- The entries of the ledger are owed. -/
theorem leaksOwed_of_ledger {owed : Finset (BitVec w × BitVec w)}
    (hcount : ∀ c ∈ calls, counted c.resTypeId = false)
    (htakes : CallLedger.TakesAll counted Ledger.empty calls)
    (howed : Ledger.Holds (CallLedger.run counted Ledger.empty calls) owed) :
    LeaksOwed counted calls owed := by
  intro rd hrec
  obtain ⟨rd', kept, hrun, hcalls, hsub, hnd, hmem⟩ := filterLeaks_ledger rd.property hrec hcount htakes
  refine ⟨rd', kept, hrun, hcalls, hsub, fun e he => ?_, hnd, fun k => ?_⟩
  · obtain ⟨n, hn⟩ := (hmem e).mp he
    exact ResourceCall.type_of_kind (Ledger.run_mem calls _ hn).2.2
  · rw [← howed k, List.mem_map, Option.isSome_iff_exists]
    constructor
    · rintro ⟨e, he, rfl⟩
      obtain ⟨n, hn⟩ := (hmem e).mp he
      exact ⟨_, hn⟩
    · rintro ⟨e, he⟩
      obtain ⟨-, rfl, -⟩ := Ledger.run_mem calls k he
      exact ⟨e.1, (hmem e.1).mpr ⟨e.2, he⟩, rfl⟩

/-- Function calls on resources without reference counting. -/
theorem leaksOwed_of_allNew (hcount : ∀ c ∈ calls, counted c.resTypeId = false)
    (hnew : AllNew ResourceCall.kind ResourceCall.key ∅ calls) :
    LeaksOwed counted calls (calls.foldl (owedAfter ResourceCall.kind ResourceCall.key) ∅) := by
  obtain ⟨htakes, hholds⟩ : CallLedger.TakesAll counted Ledger.empty calls ∧
      Ledger.Holds (CallLedger.run counted Ledger.empty calls) _ := Ledger.empty_holds.run hcount hnew
  exact leaksOwed_of_ledger hcount htakes hholds

/-- A program that had nothing. -/
theorem Accounts.leaksOwed {η : Type} [DecidableEq η] {name : η → BitVec w × BitVec w} {o : Finset η}
    (h : Accounts ResourceCall.kind ResourceCall.key name ∅ calls o)
    (hcount : ∀ c ∈ calls, counted c.resTypeId = false) : LeaksOwed counted calls (o.image name) := by
  have hleaks := leaksOwed_of_allNew hcount h.new
  rwa [← Finset.image_empty name, h.after] at hleaks

/-! ## Logs of function calls -/

def typesLog (types : List (Resource w)) : Rd w := types.foldl (fun rd r => (rdAddResource rd r).1) rdCreate

def callData (types : List (Resource w)) (c : ResourceCall w) : FcallData w :=
  { index := 0, type := c.type, context := 0, timestamp := 0, name := c.name,
    resType := types.findIdx? fun r => r.id = c.resTypeId, resId := c.resId, resSize := c.resSize }

/-- A log of function calls, with the resource types they name. -/
def callLog (types : List (Resource w)) (calls : List (ResourceCall w)) : Rd w :=
  calls.foldl (fun rd c => (rdAddFcall rd (callData types c)).1) (typesLog types)

theorem typesLog_spec (types : List (Resource w)) : (typesLog types).Integrity ∧
    (typesLog types).calls = [] ∧ (typesLog types).fresh = types.length ∧
      ∀ i, (typesLog types).resource i = types[i]? := by
  induction types using List.reverseRecOn with
  | nil => exact ⟨integrity_rdCreate, rfl, rfl, fun _ => rfl⟩
  | append_singleton types r ih =>
    obtain ⟨hint, hcalls, hfresh, hres⟩ := ih
    rw [typesLog, List.foldl_append]
    have hnext : (typesLog types).fresh + 1 = (types ++ [r]).length := by simp [hfresh]
    refine ⟨rdAddResource_integrity hint r, hcalls, hnext, fun i => ?_⟩
    show Function.update (typesLog types).resource (typesLog types).fresh (some r) i = _
    rw [Function.update_apply, hfresh, hres, List.getElem?_append]
    by_cases hi : i = types.length
    · simp [hi]
    · by_cases hlt : i < types.length
      · simp [hi, hlt]
      · rw [if_neg hi, if_neg hlt, List.getElem?_eq_none (by omega), List.getElem?_eq_none (by simp; omega)]

/-- The log carries the function calls. -/
theorem callLog_spec {types : List (Resource w)} {calls : List (ResourceCall w)}
    (htypes : ∀ c ∈ calls, ∃ r ∈ types, r.id = c.resTypeId) :
    (callLog types calls).Integrity ∧ (callLog types calls).resource = (typesLog types).resource ∧
      (callLog types calls).calls.map (storedCall (callLog types calls)) = calls.map some := by
  obtain ⟨hint, hnone, -, hres⟩ := typesLog_spec types
  induction calls using List.reverseRecOn with
  | nil => exact ⟨hint, rfl, by rw [callLog, List.foldl_nil, hnone]; rfl⟩
  | append_singleton calls c ih =>
    obtain ⟨hint', hsame, hcalls⟩ := ih fun c hc => htypes c (List.mem_append_left _ hc)
    have hsnoc : callLog types (calls ++ [c]) = (rdAddFcall (callLog types calls) (callData types c)).1 := by
      simp [callLog]
    rw [hsnoc]
    set rd := callLog types calls
    refine ⟨rdAddFcall_integrity hint' _, hsame, ?_⟩
    have hold : ∀ d ∈ rd.calls, storedCall (rdAddFcall rd (callData types c)).1 d = storedCall rd d := by
      intro d hd
      obtain ⟨x, hx⟩ := hint'.call_live d hd
      have hlt := hint'.fcall_old d x hx
      have hsame : (rdAddFcall rd (callData types c)).1.fcall d = rd.fcall d :=
        Function.update_of_ne (by omega) _ _
      rw [storedCall, storedCall, hsame]
      rfl
    have hnew : storedCall (rdAddFcall rd (callData types c)).1 rd.fresh = some c := by
      obtain ⟨r, hr, hid⟩ := htypes c (by simp)
      obtain ⟨i, hi⟩ : ∃ i, types.findIdx? (fun r => r.id = c.resTypeId) = some i := by
        rw [← Option.isSome_iff_exists, List.findIdx?_isSome]
        exact List.any_eq_true.mpr ⟨r, hr, by simpa using hid⟩
      obtain ⟨hlt, hfound, -⟩ := List.findIdx?_eq_some_iff_getElem.mp hi
      have hfcall : (rdAddFcall rd (callData types c)).1.fcall rd.fresh
          = some { data := callData types c, trace := none, ref := none, args := none } :=
        Function.update_self ..
      have hresource : (rdAddFcall rd (callData types c)).1.resource i = some types[i] := by
        show rd.resource i = _
        rw [hsame, hres, List.getElem?_eq_getElem hlt]
      have htype : (callData types c).resType = some i := hi
      simp only [storedCall, hfcall, htype, hresource, Option.bind_eq_bind, Option.bind_some]
      rw [of_decide_eq_true hfound]
      rfl
    show (rd.calls ++ [rd.fresh]).map _ = _
    rw [List.map_append, List.map_congr_left hold, hcalls, List.map_append, List.map_singleton, hnew]
    rfl

/-- **There is a log of every run**: of any function calls on resource types
with ids of their own. -/
theorem callLog_recorded {types : List (Resource w)} {calls : List (ResourceCall w)}
    (htypes : ∀ c ∈ calls, ∃ r ∈ types, r.id = c.resTypeId) (hids : (types.map Resource.id).Nodup)
    (hcount : ∀ r ∈ types, r.refcounted = counted r.id) :
    Recorded (callLog types calls) counted calls := by
  obtain ⟨-, -, -, hres⟩ := typesLog_spec types
  obtain ⟨-, hsame, hcalls⟩ := callLog_spec htypes
  have hresource : ∀ i r, (callLog types calls).resource i = some r ↔ types[i]? = some r := by
    intro i r
    rw [hsame, hres]
  refine ⟨hcalls, fun type r hr => ?_, ⟨fun c hc => ?_, ?_⟩⟩
  · exact hcount r (List.mem_of_getElem? ((hresource type r).mp hr))
  · have hmem : storedCall (callLog types calls) c ∈ calls.map some := hcalls ▸ List.mem_map_of_mem hc
    obtain ⟨e, -, he⟩ := List.mem_map.mp hmem
    obtain ⟨x, hx, he⟩ := Option.bind_eq_some_iff.mp he.symm
    obtain ⟨type, htype, he⟩ := Option.bind_eq_some_iff.mp he
    obtain ⟨res, hres', -⟩ := Option.bind_eq_some_iff.mp he
    exact ⟨x, type, res, hx, htype, hres'⟩
  · intro c _ d _ x y type type' r r' _ _ _ _ hr hr' hid
    have hget := (hresource type r).mp hr
    have hget' := (hresource type' r').mp hr'
    have hlt : type < (types.map Resource.id).length := by
      simpa using (List.getElem?_eq_some_iff.mp hget).1
    refine (List.getElem?_inj hlt hids).mp ?_
    rw [List.getElem?_map, List.getElem?_map, hget, hget', Option.map_some, Option.map_some, hid]

end SpRtrace.Postproc
