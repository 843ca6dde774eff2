/-
SpRtrace.Postproc.LeakTheorems — `filter_leaks` computes the reference
semantics of `SpRtrace.Postproc.LeakSpec`.

`LeakSim rd followed hash calls rest idx` relates the index, after the
calls `calls` of the trace data `rd` have been visited, to the histories
of the followed pairs: the call of an index record is the most recent
allocation a release of its pair would cancel, its counter is the
reference count of the pair, and what is left of the visited calls is
`keptCalls calls`. One callback keeps the relation
(`fcallRemoveFreed_sim`); the iteration rule of `dlist_foreach2` gives the
whole run.

All pairs can be followed when different resource records have different
ids. The pairs without a resource record can always be followed, and on
them the callback has a second way out: it reads the flags of a record
that is not there (`fcallRemoveFreed_null`).

The hash function is arbitrary. It is applied to the resource id and the
id of the resource record only, so calls of one pair meet in one bucket,
and nothing else is used of it.
-/
import SpRtrace.Postproc.FilterTheorems

namespace SpRtrace.Postproc

open SpRtrace.Common

variable {w : Nat}

/-! ## Calls as the reference semantics sees them -/

/-- What a call does to its resource. -/
def callKind (rd : Rd w) (call : Nat) : CallKind :=
  match rd.fcall call with
  | none => .other
  | some x =>
      if x.data.type = ftypeAlloc then .alloc
      else if x.data.type = ftypeFree then .free
      else .other

/-- The resource record and the resource id of a call. -/
def callKey (rd : Rd w) (call : Nat) : Option Nat × BitVec w :=
  match rd.fcall call with
  | none => (none, 0)
  | some x => (x.data.resType, x.data.resId)

/-- The resource of the pair counts references. -/
def keyCounted (rd : Rd w) (k : Option Nat × BitVec w) : Bool :=
  match k.1.bind rd.resource with
  | none => false
  | some res => res.refcounted

/-- Every call carries a resource record, and different records have
different ids. -/
structure Resourced (rd : Rd w) : Prop where
  carries : ∀ c ∈ rd.calls, ∃ x type res,
    rd.fcall c = some x ∧ x.data.resType = some type ∧ rd.resource type = some res
  ids_inj : ∀ c ∈ rd.calls, ∀ d ∈ rd.calls, ∀ x y type type' res res',
    rd.fcall c = some x → rd.fcall d = some y → x.data.resType = some type →
    y.data.resType = some type' → rd.resource type = some res → rd.resource type' = some res' →
    res.id = res'.id → type = type'

/-- The resource pointers of the calls are NULL or lead to a record. -/
def ResourcesLive (rd : Rd w) : Prop :=
  ∀ c ∈ rd.calls, ∃ x, rd.fcall c = some x ∧
    ∀ type, x.data.resType = some type → ∃ res, rd.resource type = some res

/-- Calls with different resource records have records with different ids. -/
def DistinctIds (rd : Rd w) : Prop :=
  ∀ c ∈ rd.calls, ∀ d ∈ rd.calls, ∀ x y type type' res res',
    rd.fcall c = some x → rd.fcall d = some y → x.data.resType = some type →
    y.data.resType = some type' → rd.resource type = some res → rd.resource type' = some res' →
    res.id = res'.id → type = type'

/-- The index keeps the followed pairs apart from all others: their
resource records share their ids with no other record. Pairs without a
record are followed. -/
structure Followable (rd : Rd w) (followed : Option Nat × BitVec w → Bool) : Prop where
  live : ResourcesLive rd
  ids_inj : ∀ c ∈ rd.calls, ∀ d ∈ rd.calls, ∀ x y type type' res res',
    rd.fcall c = some x → rd.fcall d = some y → x.data.resType = some type →
    y.data.resType = some type' → rd.resource type = some res → rd.resource type' = some res' →
    res.id = res'.id → followed (callKey rd c) = true → type = type'
  null : ∀ id, followed (none, id) = true

def nullKey (k : Option Nat × BitVec w) : Bool := k.1.isNone

theorem Resourced.live {rd : Rd w} (h : Resourced rd) : ResourcesLive rd := by
  intro c hc
  obtain ⟨x, type, res, hx, ht, hr⟩ := h.carries c hc
  refine ⟨x, hx, fun type' ht' => ?_⟩
  obtain rfl := Option.some.inj (ht.symm.trans ht')
  exact ⟨res, hr⟩

theorem DistinctIds.followable {rd : Rd w} (h : DistinctIds rd) (hlive : ResourcesLive rd) :
    Followable rd fun _ => true where
  live := hlive
  ids_inj := fun c hc d hd x y type type' res res' hx hy ht ht' hr hr' hid _ =>
    h c hc d hd x y type type' res res' hx hy ht ht' hr hr' hid
  null := fun _ => rfl

theorem Resourced.followable {rd : Rd w} (h : Resourced rd) : Followable rd fun _ => true :=
  DistinctIds.followable h.ids_inj h.live

theorem ResourcesLive.followable_null {rd : Rd w} (h : ResourcesLive rd) :
    Followable rd nullKey where
  live := h
  ids_inj := by
    intro c _ d _ x y type type' res res' hx _ ht _ _ _ _ hnull
    simp [nullKey, callKey, hx, ht] at hnull
  null := fun _ => rfl

variable {rd : Rd w} {followed : Option Nat × BitVec w → Bool}

theorem resCompare_some (h : Followable rd followed) {c d : Nat} (hc : c ∈ rd.calls)
    (hd : d ∈ rd.calls) :
    ∃ v, resCompare rd c d = some v ∧
      (followed (callKey rd c) = true ∨ followed (callKey rd d) = true →
        (v = 0 ↔ callKey rd c = callKey rd d)) := by
  obtain ⟨x, hx, hlivex⟩ := h.live c hc
  obtain ⟨y, hy, hlivey⟩ := h.live d hd
  have hzero : ∀ a b : BitVec w, (a - b).toInt = 0 ↔ a = b := by
    intro a b
    rw [← BitVec.toInt_zero (w := w), BitVec.toInt_inj, BitVec.sub_eq_iff_eq_add,
      BitVec.zero_add]
  by_cases heq : x.data.resType = y.data.resType
  · refine ⟨(x.data.resId - y.data.resId).toInt, by simp [resCompare, hx, hy, heq], fun _ => ?_⟩
    rw [hzero]
    simp [callKey, hx, hy, heq]
  · have hne : callKey rd c ≠ callKey rd d := by simp [callKey, hx, hy, heq]
    cases ht : x.data.resType with
    | none =>
      refine ⟨-1, ?_, fun _ => by simp [hne]⟩
      rw [ht] at heq
      simp [resCompare, hx, hy, ht, heq]
    | some type =>
      cases ht' : y.data.resType with
      | none => exact ⟨1, by simp [resCompare, hx, hy, ht, ht'], fun _ => by simp [hne]⟩
      | some type' =>
        obtain ⟨res, hr⟩ := hlivex type ht
        obtain ⟨res', hr'⟩ := hlivey type' ht'
        have hne' : type ≠ type' := fun e => heq (by rw [ht, ht', e])
        refine ⟨(res.id - res'.id).toInt, ?_, fun hfollow => ?_⟩
        · simp [resCompare, hx, hy, ht, ht', hne', hr, hr']
        · rw [hzero]
          refine ⟨fun hid => absurd ?_ hne', fun e => absurd e hne⟩
          rcases hfollow with hf | hf
          · exact h.ids_inj c hc d hd x y _ _ _ _ hx hy ht ht' hr hr' hid hf
          · exact (h.ids_inj d hd c hc y x _ _ _ _ hy hx ht' ht hr' hr hid.symm hf).symm

def keyBucket (hash : BitVec w → Option (BitVec w) → Nat) (rd : Rd w) (size : Nat)
    (k : Option Nat × BitVec w) : Nat :=
  getBucket size none (hash k.2 ((k.1.bind rd.resource).map Resource.id))

/-- The hash value of a call is the one of its pair. -/
theorem callHash_eq (h : ResourcesLive rd) (hash : BitVec w → Option (BitVec w) → Nat) {c : Nat}
    (hc : c ∈ rd.calls) :
    callHash hash rd c
      = some (hash (callKey rd c).2 (((callKey rd c).1.bind rd.resource).map Resource.id)) := by
  obtain ⟨x, hx, hlive⟩ := h c hc
  cases ht : x.data.resType with
  | none => simp [callHash, callKey, hx, ht]
  | some type =>
    obtain ⟨res, hr⟩ := hlive type ht
    simp [callHash, callKey, hx, ht, hr]

theorem callHash_some (h : ResourcesLive rd) (hash : BitVec w → Option (BitVec w) → Nat) {c : Nat}
    (hc : c ∈ rd.calls) (size : Nat) :
    ∃ v, callHash hash rd c = some v ∧ getBucket size none v = keyBucket hash rd size (callKey rd c) :=
  ⟨_, callHash_eq h hash hc, rfl⟩

/-! ## The relation -/

section Sim

variable (rd) (followed : Option Nat × BitVec w → Bool)
  (hash : BitVec w → Option (BitVec w) → Nat)

/-- The history of a pair in the visited calls. -/
def history (calls : List Nat) (k : Option Nat × BitVec w) : KeyState Nat :=
  keyRun (callKind rd) (callKey rd) (keyCounted rd) calls k

/-- The index and the histories after `calls` have been visited and `rest`
has not. -/
structure LeakSim (calls rest : List Nat) (idx : FresIndex w) : Prop where
  wf : idx.Wf rest
  nodup : rd.calls.Nodup
  all : rd.calls = calls ++ rest
  sub : ∀ c ∈ idx.rd.calls, c ∈ rd.calls
  kept : idx.rd.calls.filter (fun c => followed (callKey rd c))
    = (keptCalls (callKind rd) (callKey rd) (keyCounted rd) calls ++ rest).filter
        fun c => followed (callKey rd c)
  sameRest : rd.SameRest idx.rd
  fcall : ∀ c ∈ idx.rd.calls, idx.rd.fcall c = rd.fcall c
  bucket : ∀ n f, idx.table.Stored n → idx.fres n = some f →
    followed (callKey rd f.call) = true →
    f.bucket = some (keyBucket hash rd idx.table.size (callKey rd f.call))
  tracked : ∀ n f, idx.table.Stored n → idx.fres n = some f →
    followed (callKey rd f.call) = true →
    (history rd calls (callKey rd f.call)).live.head? = some f.call ∧
    f.refCount = if keyCounted rd (callKey rd f.call)
      then BitVec.ofNat 32 (history rd calls (callKey rd f.call)).refs else 1
  complete : ∀ k a, followed k = true → (history rd calls k).live.head? = some a →
    ∃ n f, idx.table.Stored n ∧ idx.fres n = some f ∧ f.call = a

end Sim

variable {hash : BitVec w → Option (BitVec w) → Nat} {calls rest : List Nat} {call : Nat}
  {idx : FresIndex w}

theorem history_wf (hnd : calls.Nodup) (k : Option Nat × BitVec w) :
    (history rd calls k).Wf (callKind rd) (callKey rd) (keyCounted rd) calls k :=
  keyRun_wf hnd k

theorem LeakSim.calls_nodup (h : LeakSim rd followed hash calls rest idx) : calls.Nodup := by
  have hnd := h.nodup
  rw [h.all] at hnd
  exact (List.nodup_append.mp hnd).1

/-- The calls that are left look as they did in the beginning. -/
theorem LeakSim.callKey_eq (h : LeakSim rd followed hash calls rest idx) {c : Nat}
    (hc : c ∈ idx.rd.calls) : callKey idx.rd c = callKey rd c := by
  simp only [callKey, h.fcall c hc]

theorem LeakSim.followable (h : LeakSim rd followed hash calls rest idx)
    (hres : Followable rd followed) : Followable idx.rd followed := by
  refine ⟨?_, ?_, hres.null⟩
  · intro c hc
    rw [h.fcall c hc, h.sameRest.resource]
    exact hres.live c (h.sub c hc)
  · intro c hc d hd
    rw [h.fcall c hc, h.fcall d hd, h.sameRest.resource, h.callKey_eq hc]
    exact hres.ids_inj c (h.sub c hc) d (h.sub d hd)

theorem LeakSim.tracked_mem (h : LeakSim rd followed hash calls rest idx) {n : Nat} {f : Fres}
    (hn : idx.table.Stored n) (hf : idx.fres n = some f) : f.call ∈ idx.rd.calls := by
  obtain ⟨pre, hpre, hvis⟩ := h.wf.visited
  rw [hpre]
  exact List.mem_append_left _ (hvis n f hn hf)

/-- The search of the callback finds the record of the pair of the call,
if the history of the pair has a live allocation. -/
theorem LeakSim.find (hres : Followable rd followed)
    (h : LeakSim rd followed hash calls (call :: rest) idx) :
    ∃ r, htableFind idx.table (keyBucket hash rd idx.table.size (callKey rd call))
        (idx.compare call) = some r ∧
      (followed (callKey rd call) = true → r = none →
        (history rd calls (callKey rd call)).live = []) ∧
      ∀ n, r = some n → ∃ f, idx.table.Stored n ∧ idx.fres n = some f ∧
        (followed (callKey rd f.call) = true ∨ followed (callKey rd call) = true →
          callKey rd f.call = callKey rd call) := by
  have hcall := h.wf.current_mem
  have hcmp : ∀ n, idx.table.Stored n → ∃ f v, idx.fres n = some f ∧
      idx.compare call n = some v ∧
      (followed (callKey rd f.call) = true ∨ followed (callKey rd call) = true →
        (v = 0 ↔ callKey rd f.call = callKey rd call)) := by
    intro n hn
    obtain ⟨f, hf, -⟩ := h.wf.live n hn
    have hmem := h.tracked_mem hn hf
    obtain ⟨v, hv, hzero⟩ := resCompare_some (h.followable hres) hmem hcall
    rw [h.callKey_eq hmem, h.callKey_eq hcall] at hzero
    exact ⟨f, v, hf, by simp [FresIndex.compare, hf, hv], hzero⟩
  set b := keyBucket hash rd idx.table.size (callKey rd call) with hb
  have htotal : ∀ n ∈ idx.table.buckets b,
      idx.compare call n = some ((idx.compare call n).getD 0) := by
    intro n hn
    obtain ⟨f, v, -, hv, -⟩ := hcmp n ⟨b, hn⟩
    rw [hv]; rfl
  refine ⟨_, dlistFind_eq_find? htotal, ?_, ?_⟩
  · intro hfollow hnone
    cases hlive : (history rd calls (callKey rd call)).live with
    | nil => rfl
    | cons a as =>
      -- the record of the most recent allocation is in this bucket
      obtain ⟨n, f, hn, hf, hfa⟩ := h.complete (callKey rd call) a hfollow (by rw [hlive]; rfl)
      have hkey : callKey rd f.call = callKey rd call := by
        rw [hfa]
        exact ((history_wf h.calls_nodup _).live_mem a (by rw [hlive]; simp)).2
      obtain ⟨f', hf', hb'⟩ := h.wf.live n hn
      obtain rfl := Option.some.inj (hf.symm.trans hf')
      have hbucket := h.bucket n f hn hf (by rw [hkey]; exact hfollow)
      rw [hkey, hb', Option.some.injEq] at hbucket
      have hmem : n ∈ idx.table.buckets b := by
        rw [hb, ← hbucket]; exact (h.wf.placed.stored_iff n).mp hn
      obtain ⟨f'', v, hf'', hv, hzero⟩ := hcmp n hn
      obtain rfl := Option.some.inj (hf.symm.trans hf'')
      have := List.find?_eq_none.mp hnone n hmem
      simp [hv, (hzero (.inr hfollow)).mpr hkey] at this
  · intro n hn
    have hmem := List.mem_of_find?_eq_some hn
    obtain ⟨f, v, hf, hv, hzero⟩ := hcmp n ⟨b, hmem⟩
    have hz := List.find?_some hn
    simp only [hv, Option.getD_some, decide_eq_true_eq] at hz
    exact ⟨f, ⟨b, hmem⟩, hf, fun hfollow => (hzero hfollow).mp hz⟩

/-! ## One callback -/

/-- The relation after a callback, from what the callback did: the calls
it removed, the records of other pairs (unchanged) and the record of the
pair of the call. Only followed pairs count. -/
theorem LeakSim.step {idx' : FresIndex w}
    (h : LeakSim rd followed hash calls (call :: rest) idx) (hwf : idx'.Wf rest)
    {s : KeyState Nat} (hs : s = history rd calls (callKey rd call))
    (hsub : ∀ c ∈ idx'.rd.calls, c ∈ idx.rd.calls)
    (hcalls : idx'.rd.calls.filter (fun c => followed (callKey rd c)) =
      (idx.rd.calls.filter fun c =>
        c ∉ stepDrops (keyCounted rd (callKey rd call)) (callKind rd) s call).filter
          fun c => followed (callKey rd c))
    (hrest : idx.rd.SameRest idx'.rd)
    (hfcall : ∀ c ∈ idx'.rd.calls, idx'.rd.fcall c = idx.rd.fcall c)
    (hsize : idx'.table.size = idx.table.size)
    (hother : ∀ n f, followed (callKey rd f.call) = true → callKey rd f.call ≠ callKey rd call →
      (idx'.table.Stored n ∧ idx'.fres n = some f ↔ idx.table.Stored n ∧ idx.fres n = some f))
    {s' : KeyState Nat} (hs' : s' = keyStep (keyCounted rd (callKey rd call)) (callKind rd) s call)
    (hself : followed (callKey rd call) = true → ∀ n f, idx'.table.Stored n →
      idx'.fres n = some f → callKey rd f.call = callKey rd call →
      f.bucket = some (keyBucket hash rd idx.table.size (callKey rd call)) ∧
      s'.live.head? = some f.call ∧
      f.refCount = if keyCounted rd (callKey rd call) then BitVec.ofNat 32 s'.refs else 1)
    (hcomplete : followed (callKey rd call) = true → ∀ a, s'.live.head? = some a →
      ∃ n f, idx'.table.Stored n ∧ idx'.fres n = some f ∧ f.call = a) :
    LeakSim rd followed hash (calls ++ [call]) rest idx' := by
  have hall : rd.calls = (calls ++ [call]) ++ rest := by rw [h.all, List.append_assoc]; rfl
  have hnd := h.nodup
  rw [hall, List.nodup_append] at hnd
  have hhist : history rd (calls ++ [call]) (callKey rd call) = s' := by
    rw [hs', hs]; exact keyRun_snoc_self _ _ _ _ _
  have hhist' : ∀ k, k ≠ callKey rd call → history rd (calls ++ [call]) k = history rd calls k :=
    fun k hk => keyRun_snoc_ne _ _ _ _ (Ne.symm hk)
  have hdrops : ∀ c ∈ stepDrops (keyCounted rd (callKey rd call)) (callKind rd) s call,
      c ∈ calls ++ [call] := by
    intro c hc
    have hwf' : (history rd (calls ++ [call]) (callKey rd call)).Wf _ _ _ _ _ :=
      history_wf hnd.1 _
    rw [hhist, hs'] at hwf'
    refine (hwf'.dropped_mem c ?_).1
    rw [keyStep_dropped]
    exact List.mem_append_left _ hc
  refine ⟨hwf, h.nodup, hall, fun c hc => h.sub c (hsub c hc), ?_, h.sameRest.trans hrest, ?_, ?_,
    ?_, ?_⟩
  · have hrest' : rest.filter (fun c =>
        c ∉ stepDrops (keyCounted rd (callKey rd call)) (callKind rd) s call) = rest := by
      rw [List.filter_eq_self]
      intro c hc
      simp only [decide_eq_true_eq]
      intro hm
      exact hnd.2.2 c (hdrops c hm) c hc rfl
    rw [hcalls, List.filter_comm, h.kept, List.filter_comm, keptCalls_snoc hnd.1, List.append_cons,
      List.filter_append, hrest', hs]
    rfl
  · intro c hc
    rw [hfcall c hc, h.fcall c (hsub c hc)]
  · intro n f hn hf hfollow
    rw [hsize]
    by_cases hk : callKey rd f.call = callKey rd call
    · rw [hk]; exact (hself (hk ▸ hfollow) n f hn hf hk).1
    · obtain ⟨hn, hf⟩ := (hother n f hfollow hk).mp ⟨hn, hf⟩
      exact h.bucket n f hn hf hfollow
  · intro n f hn hf hfollow
    by_cases hk : callKey rd f.call = callKey rd call
    · rw [hk, hhist]; exact (hself (hk ▸ hfollow) n f hn hf hk).2
    · rw [hhist' _ hk]
      obtain ⟨hn, hf⟩ := (hother n f hfollow hk).mp ⟨hn, hf⟩
      exact h.tracked n f hn hf hfollow
  · intro k a hfollow ha
    by_cases hk : k = callKey rd call
    · subst hk
      rw [hhist] at ha; exact hcomplete hfollow a ha
    · rw [hhist' k hk] at ha
      obtain ⟨n, f, hn, hf, hfa⟩ := h.complete k a hfollow ha
      have hka : callKey rd f.call = k := by
        rw [hfa]
        have hmem : a ∈ (history rd calls k).live := List.mem_of_head? ha
        exact ((history_wf h.calls_nodup k).live_mem a hmem).2
      obtain ⟨hn', hf'⟩ := (hother n f (hka ▸ hfollow) (by rw [hka]; exact hk)).mpr ⟨hn, hf⟩
      exact ⟨n, f, hn', hf', hfa⟩

/-- What is done to the index leaves the followed pairs alone. -/
structure Spares (rd : Rd w) (followed : Option Nat × BitVec w → Bool) (idx idx' : FresIndex w) :
    Prop where
  gone : ∃ gone : List Nat, (∀ c ∈ gone, followed (callKey rd c) = false) ∧
    idx'.rd.calls = idx.rd.calls.filter fun c => c ∉ gone
  sameRest : idx.rd.SameRest idx'.rd
  fcall : ∀ c ∈ idx'.rd.calls, idx'.rd.fcall c = idx.rd.fcall c
  size : idx'.table.size = idx.table.size
  other : ∀ n f, followed (callKey rd f.call) = true →
    (idx'.table.Stored n ∧ idx'.fres n = some f ↔ idx.table.Stored n ∧ idx.fres n = some f)

theorem Spares.sub {idx idx' : FresIndex w} (h : Spares rd followed idx idx') :
    ∀ c ∈ idx'.rd.calls, c ∈ idx.rd.calls := by
  obtain ⟨gone, -, hcalls⟩ := h.gone
  intro c hc
  rw [hcalls] at hc
  exact (List.mem_filter.mp hc).1

theorem Spares.trans {idx idx' idx'' : FresIndex w} (h : Spares rd followed idx idx')
    (h' : Spares rd followed idx' idx'') : Spares rd followed idx idx'' where
  gone := by
    obtain ⟨gone, hgone, hcalls⟩ := h.gone
    obtain ⟨gone', hgone', hcalls'⟩ := h'.gone
    refine ⟨gone ++ gone', ?_, ?_⟩
    · intro c hc
      rcases List.mem_append.mp hc with hc | hc
      · exact hgone c hc
      · exact hgone' c hc
    · rw [hcalls', hcalls, List.filter_filter]
      apply List.filter_congr
      intro c _
      by_cases hc : c ∈ gone <;> by_cases hc' : c ∈ gone' <;> simp [hc, hc']
  sameRest := h.sameRest.trans h'.sameRest
  fcall := fun c hc => (h'.fcall c hc).trans (h.fcall c (h'.sub c hc))
  size := h'.size.trans h.size
  other := fun n f hf => (h'.other n f hf).trans (h.other n f hf)

/-- The record of an unfollowed pair is no record of a followed one. -/
theorem fres_ne_of_unfollowed {fres : Nat → Option Fres} {n m : Nat} {f g : Fres}
    (hg : fres n = some g) (hgk : followed (callKey rd g.call) = false)
    (hf : fres m = some f) (hfk : followed (callKey rd f.call) = true) : m ≠ n := by
  rintro rfl
  obtain rfl := Option.some.inj (hf.symm.trans hg)
  rw [hgk] at hfk
  cases hfk

theorem countRef_spares (hwf : idx.Wf rest) {n : Nat} {f : Fres} (hn : idx.table.Stored n)
    (hf : idx.fres n = some f) (hfk : followed (callKey rd f.call) = false) (step : BitVec 32 → BitVec 32) :
    ∃ idx', idx.countRef n step = some idx' ∧ idx'.Wf rest ∧ idx'.table.Stored n ∧ idx'.rd = idx.rd ∧
      idx'.fres n = some { f with refCount := step f.refCount } ∧ Spares rd followed idx idx' := by
  obtain ⟨idx', hadd, hwf', hrd, htable, hself, hother⟩ := FresIndex.countRef_spec hwf hn hf step
  refine ⟨idx', hadd, hwf', htable ▸ hn, hrd, hself, ⟨[], by simp, by simp [hrd]⟩, by rw [hrd]; rfl,
    fun c _ => by rw [hrd], by rw [htable], ?_⟩
  intro m g hg
  rw [htable]
  constructor
  · rintro ⟨hm, hgm⟩
    have hmn : m ≠ n := fres_ne_of_unfollowed hself hfk hgm hg
    exact ⟨hm, hother m hmn ▸ hgm⟩
  · rintro ⟨hm, hgm⟩
    have hmn : m ≠ n := fres_ne_of_unfollowed hf hfk hgm hg
    exact ⟨hm, (hother m hmn).trans hgm⟩

theorem removeCall_spares (hwf : idx.Wf (call :: rest))
    (hck : followed (callKey rd call) = false) :
    ∃ idx', idx.removeCall call = some idx' ∧ idx'.Wf rest ∧ Spares rd followed idx idx' := by
  obtain ⟨rd', hrem, hspec, hwf'⟩ := FresIndex.removeCall_spec hwf
  exact ⟨_, hrem, hwf', ⟨[call], by simpa using hck, hspec.calls_filter hwf.integrity⟩,
    hspec.sameRest,
    hspec.fcall_left hwf.integrity, rfl, fun n f _ => Iff.rfl⟩

theorem release_spares (hwf : idx.Wf (call :: rest)) {n : Nat} {f : Fres}
    (hn : idx.table.Stored n) (hf : idx.fres n = some f)
    (hfk : followed (callKey rd f.call) = false) :
    ∃ idx', idx.release n = some idx' ∧ idx'.Wf (call :: rest) ∧ Spares rd followed idx idx' := by
  obtain ⟨idx', hrel, hwf', hspec, hsize, hstored, hkeep⟩ := FresIndex.release_spec hwf hn hf
  refine ⟨idx', hrel, hwf', ⟨[f.call], by simpa using hfk,
      hspec.calls_filter hwf.integrity⟩, hspec.sameRest,
    hspec.fcall_left hwf.integrity, hsize, ?_⟩
  intro m g hg
  rw [hstored m]
  constructor
  · rintro ⟨⟨hm, hmn⟩, hgm⟩
    exact ⟨hm, hkeep m hmn ▸ hgm⟩
  · rintro ⟨hm, hgm⟩
    have hmn : m ≠ n := fres_ne_of_unfollowed hf hfk hgm hg
    exact ⟨⟨hm, hmn⟩, (hkeep m hmn).trans hgm⟩

theorem store_spares (hwf : idx.Wf (call :: rest)) {b : Nat} {r : Option Nat}
    (hfind : htableFind idx.table b (idx.compare call) = some r)
    (hr : ∀ n, r = some n → ∃ f, idx.fres n = some f ∧ followed (callKey rd f.call) = false)
    (hck : followed (callKey rd call) = false) :
    ∃ idx', idx.store b call = some idx' ∧ idx'.Wf rest ∧ Spares rd followed idx idx' := by
  obtain ⟨idx', heq, hwf', hrd, hsize, hnew, hstored, hkeep⟩ := FresIndex.store_spec hwf hfind
  refine ⟨idx', heq, hwf', ⟨[], by simp, by simp [hrd]⟩, by rw [hrd]; rfl, fun c _ => by rw [hrd],
    hsize, ?_⟩
  intro m g hg
  rw [hstored m]
  constructor
  · rintro ⟨⟨hm, hmr⟩ | rfl, hgm⟩
    · exact ⟨hm, hkeep m hm hmr ▸ hgm⟩
    · exact absurd rfl (fres_ne_of_unfollowed hnew hck hgm hg)
  · rintro ⟨hm, hgm⟩
    have hmr : r ≠ some m := by
      intro e
      obtain ⟨f, hf, hfk⟩ := hr m e
      exact fres_ne_of_unfollowed hf hfk hgm hg rfl
    exact ⟨.inl ⟨hm, hmr⟩, (hkeep m hm hmr).trans hgm⟩

/-- A callback on a pair that is not followed, if it leaves the followed
pairs alone. -/
theorem LeakSim.spared {idx' : FresIndex w}
    (h : LeakSim rd followed hash calls (call :: rest) idx) (hwf : idx'.Wf rest)
    (hcall : followed (callKey rd call) = false) (hspares : Spares rd followed idx idx') :
    LeakSim rd followed hash (calls ++ [call]) rest idx' := by
  obtain ⟨gone, hgone, hcalls⟩ := hspares.gone
  have hcases : ¬ followed (callKey rd call) = true := by simp [hcall]
  refine h.step hwf rfl hspares.sub ?_ hspares.sameRest hspares.fcall hspares.size
    (fun n f hf _ => hspares.other n f hf) rfl (fun hf => absurd hf hcases)
    (fun hf => absurd hf hcases)
  rw [hcalls, List.filter_filter, List.filter_filter]
  apply List.filter_congr
  intro c _
  cases hf : followed (callKey rd c) with
  | false => rfl
  | true =>
    have hc : c ∉ gone := fun hm => by simp [hgone c hm] at hf
    have hc' : c ∉ stepDrops (keyCounted rd (callKey rd call)) (callKind rd)
        (history rd calls (callKey rd call)) call := by
      intro hm
      rw [mem_stepDrops (history_wf h.calls_nodup _) hm, hcall] at hf
      cases hf
    simp [hc, hc']

/-- The record of a pair with a live allocation is that allocation's. -/
theorem LeakSim.live_eq (h : LeakSim rd followed hash calls rest idx) {n : Nat} {f : Fres}
    (hn : idx.table.Stored n) (hf : idx.fres n = some f) {k : Option Nat × BitVec w}
    (hk : callKey rd f.call = k) (hfollow : followed k = true) :
    ∃ as, (history rd calls k).live = f.call :: as := by
  subst hk
  exact List.head?_eq_some_iff.mp (h.tracked n f hn hf hfollow).1

/-- One record per pair. -/
theorem LeakSim.record_unique (h : LeakSim rd followed hash calls rest idx) {n m : Nat}
    {f g : Fres} (hn : idx.table.Stored n) (hf : idx.fres n = some f) (hm : idx.table.Stored m)
    (hg : idx.fres m = some g) (hfollow : followed (callKey rd g.call) = true)
    (hk : callKey rd f.call = callKey rd g.call) : n = m := by
  have hcall : f.call = g.call := by
    have h₁ := (h.tracked n f hn hf (hk ▸ hfollow)).1
    rw [hk, (h.tracked m g hm hg hfollow).1, Option.some.injEq] at h₁
    exact h₁.symm
  exact h.wf.call_inj n m f g hn hm hf hg hcall

/-- The flags of a resource record that is there. -/
theorem LeakSim.typeRefcounted_eq (hres : Followable rd followed)
    (h : LeakSim rd followed hash calls rest idx) {x : Fcall w} (hc : call ∈ rd.calls)
    (hx : rd.fcall call = some x) (htype : x.data.resType ≠ none) {rd' : Rd w}
    (hrest : idx.rd.SameRest rd') :
    typeRefcounted rd' x.data.resType = some (keyCounted rd (callKey rd call)) := by
  obtain ⟨x', hx', hlive⟩ := hres.live call hc
  obtain rfl := Option.some.inj (hx.symm.trans hx')
  obtain ⟨type, ht⟩ := Option.ne_none_iff_exists'.mp htype
  obtain ⟨res, hr⟩ := hlive type ht
  have hr' : rd'.resource type = some res := by
    rw [hrest.resource, h.sameRest.resource]; exact hr
  simp [typeRefcounted, keyCounted, callKey, hx, ht, hr, hr']

/-- A new record for the current call, in the place of the record found. -/
theorem LeakSim.stored (h : LeakSim rd followed hash calls (call :: rest) idx)
    (hfollow : followed (callKey rd call) = true) {r : Option Nat}
    (hfind : htableFind idx.table (keyBucket hash rd idx.table.size (callKey rd call))
      (idx.compare call) = some r)
    (hr : ∀ n, r = some n → ∃ f, idx.table.Stored n ∧ idx.fres n = some f ∧
      callKey rd f.call = callKey rd call)
    (hnone : r = none → (history rd calls (callKey rd call)).live = [])
    (hkind : callKind rd call = .alloc)
    (hcounted : r ≠ none → keyCounted rd (callKey rd call) = false) :
    ∃ idx', idx.store (keyBucket hash rd idx.table.size (callKey rd call)) call = some idx' ∧
      LeakSim rd followed hash (calls ++ [call]) rest idx' := by
  obtain ⟨idx', heq, hwf, hrd, hsize, hnew, hstored, hkeep⟩ := FresIndex.store_spec h.wf hfind
  set s := history rd calls (callKey rd call) with hs
  -- a record of the pair of the call is the one that is replaced
  have hpair : ∀ n f, idx.table.Stored n → idx.fres n = some f →
      callKey rd f.call = callKey rd call → r = some n := by
    intro n f hn hf hk
    cases hr' : r with
    | none =>
      obtain ⟨as, hlive⟩ := h.live_eq hn hf hk hfollow
      rw [← hs, hnone hr'] at hlive
      cases hlive
    | some m =>
      obtain ⟨g, hm, hg, hgk⟩ := hr m hr'
      rw [h.record_unique hn hf hm hg (hgk ▸ hfollow) (hk.trans hgk.symm)]
  have hold : ∀ n f, idx.table.Stored n → idx.fres n = some f →
      callKey rd f.call ≠ callKey rd call → r ≠ some n := by
    intro n f hn hf hk hrn
    obtain ⟨g, -, hg, hgk⟩ := hr n hrn
    obtain rfl := Option.some.inj (hf.symm.trans hg)
    exact hk hgk
  have hdrops : stepDrops (keyCounted rd (callKey rd call)) (callKind rd) s call = [] := by
    simp only [stepDrops, hkind]
    cases hr' : r with
    | none => simp [hnone hr']
    | some n => simp [hcounted (by simp [hr'])]
  have hlive' : (keyStep (keyCounted rd (callKey rd call)) (callKind rd) s call).live.head?
      = some call ∧ 1 = if keyCounted rd (callKey rd call) then
        BitVec.ofNat 32 (keyStep (keyCounted rd (callKey rd call)) (callKind rd) s call).refs
        else 1 := by
    cases hcount : keyCounted rd (callKey rd call) with
    | false => simp [keyStep, uncountedStep, hkind]
    | true =>
      have hrn : r = none := by
        by_contra hr'
        rw [hcounted hr'] at hcount
        cases hcount
      simp [keyStep, countedStep, hkind, hnone hrn]
  refine ⟨idx', heq, h.step hwf hs (by rw [hrd]; exact fun _ hc => hc) ?_ (by rw [hrd]; rfl) ?_
    hsize ?_ rfl ?_ ?_⟩
  · rw [hrd, hdrops]; simp
  · intro c _; rw [hrd]
  · intro n f _ hk
    constructor
    · rintro ⟨hn, hf⟩
      rcases (hstored n).mp hn with ⟨hn, hrn⟩ | rfl
      · exact ⟨hn, hkeep n hn hrn ▸ hf⟩
      · obtain rfl := Option.some.inj (hnew.symm.trans hf)
        exact absurd rfl hk
    · rintro ⟨hn, hf⟩
      have hrn := hold n f hn hf hk
      exact ⟨(hstored n).mpr (.inl ⟨hn, hrn⟩), (hkeep n hn hrn).trans hf⟩
  · intro _ n f hn hf hk
    rcases (hstored n).mp hn with ⟨hn, hrn⟩ | rfl
    · rw [hkeep n hn hrn] at hf
      exact absurd (hpair n f hn hf hk) hrn
    · obtain rfl := Option.some.inj (hnew.symm.trans hf)
      exact ⟨rfl, hlive'⟩
  · intro _ a ha
    rw [hlive'.1, Option.some.injEq] at ha
    exact ⟨idx.fresh, _, (hstored _).mpr (.inr rfl), hnew, ha⟩

/-- The current call is removed and the record of its pair, if there is
one, stays with a new counter. -/
theorem LeakSim.removed {idx₁ : FresIndex w} (h : LeakSim rd followed hash calls (call :: rest) idx)
    (hfollow : followed (callKey rd call) = true) (hwf : idx₁.Wf (call :: rest)) (hrd : idx₁.rd = idx.rd) (htable : idx₁.table = idx.table)
    (hdrops : stepDrops (keyCounted rd (callKey rd call)) (callKind rd)
      (history rd calls (callKey rd call)) call = [call])
    (hother : ∀ n f, callKey rd f.call ≠ callKey rd call →
      (idx₁.fres n = some f ↔ idx.fres n = some f))
    (hself : ∀ n f, idx.table.Stored n → idx₁.fres n = some f →
      callKey rd f.call = callKey rd call →
      (∃ f₀, idx.fres n = some f₀ ∧ f.call = f₀.call ∧ f.bucket = f₀.bucket) ∧
      (keyStep (keyCounted rd (callKey rd call)) (callKind rd)
        (history rd calls (callKey rd call)) call).live.head? = some f.call ∧
      f.refCount = if keyCounted rd (callKey rd call) then
        BitVec.ofNat 32 (keyStep (keyCounted rd (callKey rd call)) (callKind rd)
          (history rd calls (callKey rd call)) call).refs else 1)
    (hcomplete : ∀ a, (keyStep (keyCounted rd (callKey rd call)) (callKind rd)
        (history rd calls (callKey rd call)) call).live.head? = some a →
      ∃ n f, idx₁.table.Stored n ∧ idx₁.fres n = some f ∧ f.call = a) :
    ∃ idx', idx₁.removeCall call = some idx' ∧
      LeakSim rd followed hash (calls ++ [call]) rest idx' := by
  obtain ⟨rd', hrem, hspec, hwf'⟩ := FresIndex.removeCall_spec hwf
  rw [hrd] at hspec
  have hcalls := hspec.calls_filter h.wf.integrity
  refine ⟨_, hrem, h.step hwf' rfl ?_ ?_ hspec.sameRest ?_ (by rw [htable]) ?_ rfl ?_
    fun _ => hcomplete⟩
  · intro c hc
    have hc : c ∈ rd'.calls := hc
    rw [hcalls] at hc
    exact (List.mem_filter.mp hc).1
  · rw [hdrops]
    exact congrArg _ hcalls
  · intro c hc
    have hne : c ≠ call := by
      rintro rfl
      have hmem : c ∈ rd'.calls := hc
      rw [hspec.calls] at hmem
      exact (h.wf.integrity.calls_nodup.mem_erase_iff.mp hmem).1 rfl
    exact hspec.fcall_other c hne
  · intro n f _ hk
    rw [show ({ idx₁ with rd := rd' } : FresIndex w).table = idx.table from htable,
      show ({ idx₁ with rd := rd' } : FresIndex w).fres = idx₁.fres from rfl, hother n f hk]
  · intro _ n f hn hf hk
    have hn : idx.table.Stored n := htable ▸ hn
    obtain ⟨⟨f₀, hf₀, hcall, hbucket⟩, hlive⟩ := hself n f hn hf hk
    refine ⟨?_, hlive⟩
    rw [hbucket, h.bucket n f₀ hn hf₀ (by rw [← hcall, hk]; exact hfollow), ← hcall, hk]

/-- A release nothing matches. -/
theorem LeakSim.free_unmatched (h : LeakSim rd followed hash calls (call :: rest) idx)
    (hfollow : followed (callKey rd call) = true)
    (hkind : callKind rd call = .free) (hlive : (history rd calls (callKey rd call)).live = []) :
    ∃ idx', idx.removeCall call = some idx' ∧
      LeakSim rd followed hash (calls ++ [call]) rest idx' := by
  have hlive' : (keyStep (keyCounted rd (callKey rd call)) (callKind rd)
      (history rd calls (callKey rd call)) call).live = [] := by
    cases keyCounted rd (callKey rd call) <;>
      simp [keyStep, countedStep, uncountedStep, hkind, hlive]
  refine h.removed hfollow h.wf rfl rfl ?_ (fun n f _ => Iff.rfl) ?_ ?_
  · simp [stepDrops, hkind, hlive]
  · intro n f hn hf hk
    obtain ⟨as, hcons⟩ := h.live_eq hn hf hk hfollow
    rw [hlive] at hcons
    cases hcons
  · intro a ha
    rw [hlive'] at ha
    cases ha

/-- The counter of the record of the pair changes with the reference count
and the current call is removed: a further allocation of a counted
resource, or a release that is not the last one. -/
theorem LeakSim.counted {n : Nat} {f : Fres} (h : LeakSim rd followed hash calls (call :: rest) idx)
    (hfollow : followed (callKey rd call) = true) (hn : idx.table.Stored n) (hf : idx.fres n = some f)
    (hk : callKey rd f.call = callKey rd call) {count : BitVec 32} {idx₁ : FresIndex w}
    (hwf : idx₁.Wf (call :: rest)) (hrd : idx₁.rd = idx.rd) (htable : idx₁.table = idx.table)
    (hself : idx₁.fres n = some { f with refCount := count })
    (hother : ∀ m, m ≠ n → idx₁.fres m = idx.fres m)
    (hdrops : stepDrops (keyCounted rd (callKey rd call)) (callKind rd)
      (history rd calls (callKey rd call)) call = [call])
    (hlive : (keyStep (keyCounted rd (callKey rd call)) (callKind rd)
        (history rd calls (callKey rd call)) call).live
      = (history rd calls (callKey rd call)).live)
    (hcounted : keyCounted rd (callKey rd call) = true)
    (hrefs : count = BitVec.ofNat 32 (keyStep (keyCounted rd (callKey rd call)) (callKind rd)
        (history rd calls (callKey rd call)) call).refs) :
    ∃ idx', idx₁.removeCall call = some idx' ∧
      LeakSim rd followed hash (calls ++ [call]) rest idx' := by
  have hhead := (h.tracked n f hn hf (hk ▸ hfollow)).1
  rw [hk] at hhead
  refine h.removed hfollow hwf hrd htable hdrops ?_ ?_ ?_
  · intro m g hg
    by_cases hm : m = n
    · subst hm
      rw [hself, hf]
      constructor
      · intro e
        obtain rfl := Option.some.inj e
        exact absurd hk hg
      · intro e
        obtain rfl := Option.some.inj e
        exact absurd hk hg
    · rw [hother m hm]
  · intro m g hm hg hgk
    by_cases hmn : m = n
    · subst hmn
      obtain rfl := Option.some.inj (hself.symm.trans hg)
      refine ⟨⟨f, hf, rfl, rfl⟩, by rw [hlive]; exact hhead, ?_⟩
      rw [if_pos hcounted, hrefs]
    · rw [hother m hmn] at hg
      exact absurd (h.record_unique hm hg hn hf (hk ▸ hfollow) (hgk.trans hk.symm)) hmn
  · intro a ha
    rw [hlive, hhead, Option.some.injEq] at ha
    exact ⟨n, _, htable ▸ hn, hself, ha⟩

/-- The release that ends the allocation of its pair: both calls go. -/
theorem LeakSim.released {n : Nat} {f : Fres} (h : LeakSim rd followed hash calls (call :: rest) idx)
    (hfollow : followed (callKey rd call) = true) (hn : idx.table.Stored n) (hf : idx.fres n = some f)
    (hk : callKey rd f.call = callKey rd call) {count : BitVec 32} {idx₁ : FresIndex w}
    (hwf : idx₁.Wf (call :: rest)) (hrd : idx₁.rd = idx.rd) (htable : idx₁.table = idx.table)
    (hself : idx₁.fres n = some { f with refCount := count })
    (hother : ∀ m, m ≠ n → idx₁.fres m = idx.fres m)
    (hdrops : stepDrops (keyCounted rd (callKey rd call)) (callKind rd)
      (history rd calls (callKey rd call)) call = [call, f.call])
    (hlive : (keyStep (keyCounted rd (callKey rd call)) (callKind rd)
        (history rd calls (callKey rd call)) call).live = []) :
    ∃ idx₂ idx', idx₁.release n = some idx₂ ∧ idx₂.removeCall call = some idx' ∧
      LeakSim rd followed hash (calls ++ [call]) rest idx' := by
  obtain ⟨idx₂, hrel, hwf₂, hspec₂, hsize, hstored, hkeep⟩ :=
    FresIndex.release_spec hwf (htable ▸ hn) hself
  obtain ⟨rd', hrem, hspec, hwf'⟩ := FresIndex.removeCall_spec hwf₂
  rw [hrd] at hspec₂
  have hnd := h.wf.integrity.calls_nodup
  have hnd₂ := hspec₂.integrity.calls_nodup
  have hcalls : rd'.calls = idx.rd.calls.filter fun c => c ∉ [call, f.call] := by
    rw [hspec.calls, hnd₂.erase_eq_filter, hspec₂.calls, hnd.erase_eq_filter, List.filter_filter]
    apply List.filter_congr
    intro c _
    by_cases hc : c = call <;> by_cases hc' : c = f.call <;> simp [hc, hc']
  refine ⟨idx₂, _, hrel, hrem, h.step hwf' rfl ?_ ?_ (hspec₂.sameRest.trans hspec.sameRest) ?_
    (by rw [hsize, htable]) ?_ rfl ?_ ?_⟩
  · intro c hc
    have hc : c ∈ rd'.calls := hc
    rw [hcalls] at hc
    exact (List.mem_filter.mp hc).1
  · rw [hdrops]; exact congrArg _ hcalls
  · intro c hc
    have hc : c ∈ rd'.calls := hc
    rw [hcalls, List.mem_filter] at hc
    have hne : c ≠ call ∧ c ≠ f.call := by simpa using hc.2
    exact (hspec.fcall_other c hne.1).trans (hspec₂.fcall_other c hne.2)
  · intro m g _ hg
    have hm : m ≠ n ∨ m = n := (em (m = n)).symm
    rcases hm with hm | rfl
    · rw [show ({ idx₂ with rd := rd' } : FresIndex w).fres m = idx.fres m from
        (hkeep m hm).trans (hother m hm)]
      simp only [hstored m, htable, hm, ne_eq, not_false_eq_true, and_true]
    · constructor
      · rintro ⟨hm, -⟩
        exact absurd rfl ((hstored m).mp hm).2
      · rintro ⟨-, hg'⟩
        obtain rfl := Option.some.inj (hf.symm.trans hg')
        exact absurd hk hg
  · intro _ m g hm hg hgk
    obtain ⟨hm, hmn⟩ := (hstored m).mp hm
    have hg : idx.fres m = some g := ((hkeep m hmn).trans (hother m hmn)).symm.trans hg
    exact absurd (h.record_unique (htable ▸ hm) hg hn hf (hk ▸ hfollow) (hgk.trans hk.symm)) hmn
  · intro _ a ha
    rw [hlive] at ha
    cases ha

/-- What the callback reads before it decides: the call, its bucket and
the record the search finds there. -/
theorem LeakSim.looked (hres : Followable rd followed)
    (h : LeakSim rd followed hash calls (call :: rest) idx) :
    ∃ x v r, rd.fcall call = some x ∧ idx.rd.fcall call = some x ∧
      callHash hash idx.rd call = some v ∧
      getBucket idx.table.size none v = keyBucket hash rd idx.table.size (callKey rd call) ∧
      htableFind idx.table (keyBucket hash rd idx.table.size (callKey rd call))
        (idx.compare call) = some r ∧
      (followed (callKey rd call) = true → r = none →
        (history rd calls (callKey rd call)).live = []) ∧
      ∀ n, r = some n → ∃ f, idx.table.Stored n ∧ idx.fres n = some f ∧
        (followed (callKey rd f.call) = true ∨ followed (callKey rd call) = true →
          callKey rd f.call = callKey rd call) := by
  have hcur := h.wf.current_mem
  obtain ⟨x, hx, -⟩ := hres.live call (h.sub call hcur)
  obtain ⟨v, hv, hb⟩ := callHash_some (h.followable hres).live hash hcur idx.table.size
  obtain ⟨r, hfind, hnone, hsome⟩ := h.find hres
  refine ⟨x, v, r, hx, (h.fcall call hcur).trans hx, hv, ?_, hfind, hnone, hsome⟩
  rw [hb, h.callKey_eq hcur]
  simp only [keyBucket, h.sameRest.resource]

/-- One callback on a pair that is not followed. It has a resource
record, so its flags can be read. -/
theorem fcallRemoveFreed_spared (hres : Followable rd followed)
    (h : LeakSim rd followed hash calls (call :: rest) idx)
    (hck : followed (callKey rd call) = false) :
    ∃ idx', fcallRemoveFreed hash call idx = some idx' ∧
      LeakSim rd followed hash (calls ++ [call]) rest idx' := by
  obtain ⟨x, v, r, hx, hx', hv, hbucket, hfind, -, hsome⟩ := h.looked hres
  have hmem := h.sub call h.wf.current_mem
  have htype : x.data.resType ≠ none := by
    intro ht
    have := hres.null x.data.resId
    simp only [callKey, hx, ht] at hck
    simp [this] at hck
  have hflags : ∀ {rd' : Rd w}, idx.rd.SameRest rd' →
      typeRefcounted rd' x.data.resType = some (keyCounted rd (callKey rd call)) :=
    fun hrest => h.typeRefcounted_eq hres hmem hx htype hrest
  have hrecord : ∀ n, r = some n → ∃ f, idx.table.Stored n ∧ idx.fres n = some f ∧
      followed (callKey rd f.call) = false := by
    intro n hn
    obtain ⟨f, hst, hf, hk⟩ := hsome n hn
    refine ⟨f, hst, hf, ?_⟩
    cases hfk : followed (callKey rd f.call) with
    | false => rfl
    | true => rw [hk (.inl hfk), hck] at hfk; cases hfk
  simp only [fcallRemoveFreed, hx', hv, hbucket, hfind, Option.bind_eq_bind, Option.bind_some]
  have hstore : ∃ idx', idx.store (keyBucket hash rd idx.table.size (callKey rd call)) call
      = some idx' ∧ LeakSim rd followed hash (calls ++ [call]) rest idx' := by
    obtain ⟨idx', heq, hwf, hsp⟩ := store_spares h.wf hfind
      (fun n hn => (hrecord n hn).imp fun f hf => hf.2) hck
    exact ⟨idx', heq, h.spared hwf hck hsp⟩
  split
  · cases r with
    | none => exact hstore
    | some n =>
      obtain ⟨f, hn, hf, hfk⟩ := hrecord n rfl
      simp only [hflags (Rd.SameRest.refl _), Option.bind_some]
      cases keyCounted rd (callKey rd call) with
      | false => exact hstore
      | true =>
        obtain ⟨idx₁, hadd, hwf₁, -, -, -, hsp₁⟩ := countRef_spares h.wf hn hf hfk (· + 1)
        obtain ⟨idx₂, hrem, hwf₂, hsp₂⟩ := removeCall_spares hwf₁ hck
        exact ⟨idx₂, by simp only [hadd, if_true, Option.bind_some, hrem],
          h.spared hwf₂ hck (hsp₁.trans hsp₂)⟩
  · split
    · cases r with
      | none =>
        obtain ⟨idx', hrem, hwf, hsp⟩ := removeCall_spares h.wf hck
        exact ⟨idx', hrem, h.spared hwf hck hsp⟩
      | some n =>
        obtain ⟨f, hn, hf, hfk⟩ := hrecord n rfl
        obtain ⟨idx₁, hadd, hwf₁, hn₁, hrd₁, hself, hsp₁⟩ := countRef_spares h.wf hn hf hfk (· - 1)
        have hflags₁ := hflags (show idx.rd.SameRest idx₁.rd by rw [hrd₁]; rfl)
        have hlast : ∃ last, idx₁.lastRef n x.data.resType = some last := by
          simp only [FresIndex.lastRef, hself, hflags₁, Option.bind_eq_bind, Option.bind_some]
          split <;> exact ⟨_, rfl⟩
        obtain ⟨last, hlast⟩ := hlast
        simp only [hadd, hlast, Option.bind_some]
        cases last with
        | false =>
          obtain ⟨idx₂, hrem, hwf₂, hsp₂⟩ := removeCall_spares hwf₁ hck
          exact ⟨idx₂, by simp only [Bool.false_eq_true, if_false, hrem],
            h.spared hwf₂ hck (hsp₁.trans hsp₂)⟩
        | true =>
          obtain ⟨idx₂, hrel, hwf₂, hsp₂⟩ := release_spares hwf₁ hn₁ hself hfk
          obtain ⟨idx₃, hrem, hwf₃, hsp₃⟩ := removeCall_spares hwf₂ hck
          exact ⟨idx₃, by simp only [if_true, hrel, Option.bind_some, hrem],
            h.spared hwf₃ hck ((hsp₁.trans hsp₂).trans hsp₃)⟩
    · refine ⟨idx, rfl, h.spared h.wf.skip hck ⟨⟨[], by simp, by simp⟩, rfl, fun _ _ => rfl, rfl,
        fun n f _ => Iff.rfl⟩⟩

/-- An allocation without a resource record of an id that is still
allocated: the callback reads the flags of a record that is not there. -/
theorem fcallRemoveFreed_null (hres : Followable rd followed)
    (h : LeakSim rd followed hash calls (call :: rest) idx) (hkind : callKind rd call = .alloc)
    (hnull : (callKey rd call).1 = none)
    (hlive : (history rd calls (callKey rd call)).live ≠ []) :
    fcallRemoveFreed hash call idx = none := by
  obtain ⟨x, v, r, hx, hx', hv, hbucket, hfind, hnone, -⟩ := h.looked hres
  have hfollow : followed (callKey rd call) = true := by
    have := hres.null (callKey rd call).2
    rwa [← hnull] at this
  have htype : x.data.resType = none := by simpa [callKey, hx] using hnull
  have halloc : x.data.type = ftypeAlloc := by
    by_contra hne
    simp only [callKind, hx, if_neg hne] at hkind
    split at hkind <;> cases hkind
  cases r with
  | none => exact absurd (hnone hfollow rfl) hlive
  | some n =>
    simp only [fcallRemoveFreed, hx', hv, hbucket, hfind, halloc, htype, typeRefcounted,
      Option.bind_eq_bind, Option.bind_some, Option.bind_none, if_true]

/-- A counter of 32 bits reaches zero from one, and from `2 ^ 32` more. -/
theorem ofNat_sub_one_eq_zero (n : Nat) : BitVec.ofNat 32 n - 1 = 0 ↔ n % 2 ^ 32 = 1 := by
  rw [sub_eq_zero, ← BitVec.toNat_inj, BitVec.toNat_ofNat]
  simp

theorem ofNat_sub_one {n : Nat} (h : 1 ≤ n) :
    BitVec.ofNat 32 (n - 1) = BitVec.ofNat 32 n - 1 := by
  obtain ⟨m, rfl⟩ := Nat.exists_eq_add_of_le' h
  rw [Nat.add_sub_cancel, BitVec.ofNat_add]
  simp

/-- The call is no release that finds the counter of a counted pair at one
while there are more references: `ref_count` is an `int`. -/
def ReleaseFits (rd : Rd w) (calls : List Nat) (call : Nat) : Prop :=
  callKind rd call = .free → keyCounted rd (callKey rd call) = true →
    (history rd calls (callKey rd call)).refs % 2 ^ 32 = 1 →
    (history rd calls (callKey rd call)).refs = 1

/-- One more reference to the allocation that is tracked. -/
theorem LeakSim.referenced {n : Nat} {f : Fres}
    (h : LeakSim rd followed hash calls (call :: rest) idx)
    (hfollow : followed (callKey rd call) = true) (hn : idx.table.Stored n) (hf : idx.fres n = some f)
    (hk : callKey rd f.call = callKey rd call) (hkind : callKind rd call = .alloc)
    (hcount : keyCounted rd (callKey rd call) = true) :
    ∃ idx₁ idx', idx.countRef n (· + 1) = some idx₁ ∧ idx₁.removeCall call = some idx' ∧
      LeakSim rd followed hash (calls ++ [call]) rest idx' := by
  obtain ⟨as, hlive⟩ := h.live_eq hn hf hk hfollow
  obtain ⟨idx₁, hadd, hwf₁, hrd₁, htable₁, hself, hother⟩ :=
    FresIndex.countRef_spec h.wf hn hf (· + 1)
  have hrefs := (h.tracked n f hn hf (hk ▸ hfollow)).2
  rw [hk, hcount, if_pos rfl] at hrefs
  obtain ⟨idx', hrem, hsim⟩ := h.counted hfollow hn hf hk hwf₁ hrd₁ htable₁ hself hother
    (by simp [stepDrops, hkind, hcount, hlive])
    (by simp [keyStep, hcount, countedStep, hkind, hlive]) hcount
    (by simp [keyStep, hcount, countedStep, hkind, hlive, hrefs, BitVec.ofNat_add])
  exact ⟨idx₁, idx', hadd, hrem, hsim⟩

/-- A release of a pair that is not counted. Its counter is one, so the
flags of the record are not read. -/
theorem LeakSim.cancelled {n : Nat} {f : Fres}
    (h : LeakSim rd followed hash calls (call :: rest) idx)
    (hfollow : followed (callKey rd call) = true) (hn : idx.table.Stored n) (hf : idx.fres n = some f)
    (hk : callKey rd f.call = callKey rd call) (hkind : callKind rd call = .free)
    (hcount : keyCounted rd (callKey rd call) = false) (resType : Option Nat) :
    ∃ idx₁ idx₂ idx', idx.countRef n (· - 1) = some idx₁ ∧
      idx₁.lastRef n resType = some true ∧ idx₁.release n = some idx₂ ∧
      idx₂.removeCall call = some idx' ∧ LeakSim rd followed hash (calls ++ [call]) rest idx' := by
  obtain ⟨as, hlive⟩ := h.live_eq hn hf hk hfollow
  obtain ⟨idx₁, hsub, hwf₁, hrd₁, htable₁, hself, hother⟩ :=
    FresIndex.countRef_spec h.wf hn hf (· - 1)
  have hrefs := (h.tracked n f hn hf (hk ▸ hfollow)).2
  have hzero : f.refCount - 1 = 0 := by simp [hrefs, hk, hcount]
  obtain ⟨idx₂, idx', hrel, hrem, hsim⟩ :=
    h.released hfollow hn hf hk hwf₁ hrd₁ htable₁ hself hother
      (by simp [stepDrops, hkind, hcount, hlive])
      (by simp [keyStep, hcount, uncountedStep, hkind, hlive])
  refine ⟨idx₁, idx₂, idx', hsub, ?_, hrel, hrem, hsim⟩
  simp only [FresIndex.lastRef, hself, hzero, if_true, Option.bind_eq_bind, Option.bind_some]

/-- A release of a counted pair: the last reference takes the allocation
along. -/
theorem LeakSim.unreferenced {n : Nat} {f : Fres}
    (h : LeakSim rd followed hash calls (call :: rest) idx)
    (hfollow : followed (callKey rd call) = true) (hn : idx.table.Stored n) (hf : idx.fres n = some f)
    (hk : callKey rd f.call = callKey rd call) (hkind : callKind rd call = .free)
    (hcount : keyCounted rd (callKey rd call) = true) (hfits : ReleaseFits rd calls call)
    {resType : Option Nat}
    (hflags : ∀ {rd' : Rd w}, idx.rd.SameRest rd' → typeRefcounted rd' resType = some true) :
    ∃ idx₁ last idx', idx.countRef n (· - 1) = some idx₁ ∧ idx₁.lastRef n resType = some last ∧
      (if last then (idx₁.release n).bind (·.removeCall call) else idx₁.removeCall call)
        = some idx' ∧ LeakSim rd followed hash (calls ++ [call]) rest idx' := by
  obtain ⟨as, hlive⟩ := h.live_eq hn hf hk hfollow
  obtain ⟨idx₁, hsub, hwf₁, hrd₁, htable₁, hself, hother⟩ :=
    FresIndex.countRef_spec h.wf hn hf (· - 1)
  have hrefs : f.refCount = BitVec.ofNat 32 (history rd calls (callKey rd call)).refs := by
    rw [(h.tracked n f hn hf (hk ▸ hfollow)).2, hk, hcount, if_pos rfl]
  have hlast : f.refCount - 1 = 0 ↔ (history rd calls (callKey rd call)).refs % 2 ^ 32 = 1 := by
    rw [hrefs, ofNat_sub_one_eq_zero]
  have hpos : 1 ≤ (history rd calls (callKey rd call)).refs :=
    (history_wf h.calls_nodup _).refs_pos (by rw [hlive]; simp) hcount
  have hflags₁ : typeRefcounted idx₁.rd resType = some true := hflags (by rw [hrd₁]; rfl)
  by_cases hone : (history rd calls (callKey rd call)).refs = 1
  · have hzero : f.refCount - 1 = 0 := hlast.mpr (by simp [hone])
    obtain ⟨idx₂, idx', hrel, hrem, hsim⟩ :=
      h.released hfollow hn hf hk hwf₁ hrd₁ htable₁ hself hother
        (by simp [stepDrops, hkind, hlive, hone])
        (by simp [keyStep, hcount, countedStep, hkind, hlive, hone])
    refine ⟨idx₁, true, idx', hsub, ?_, by simp only [if_true, hrel, Option.bind_some, hrem], hsim⟩
    simp only [FresIndex.lastRef, hself, hzero, if_true, Option.bind_eq_bind, Option.bind_some]
  · have hzero : ¬ f.refCount - 1 = 0 := fun hzero => hone (hfits hkind hcount (hlast.mp hzero))
    obtain ⟨idx', hrem, hsim⟩ := h.counted hfollow hn hf hk hwf₁ hrd₁ htable₁ hself hother
      (by simp [stepDrops, hkind, hcount, hlive, hone])
      (by simp [keyStep, hcount, countedStep, hkind, hlive, hone]) hcount (by
        simp only [keyStep, hcount, countedStep, hkind, hlive, hone, if_true, if_false]
        rw [hrefs, ofNat_sub_one hpos])
    refine ⟨idx₁, false, idx', hsub, ?_, by simpa using hrem, hsim⟩
    simp only [FresIndex.lastRef, hself, hzero, hflags₁, if_false, Bool.not_true,
      Option.bind_eq_bind, Option.bind_some]

/-- A call of undefined type changes nothing. -/
theorem LeakSim.undefined (h : LeakSim rd followed hash calls (call :: rest) idx)
    (hkind : callKind rd call = .other) :
    LeakSim rd followed hash (calls ++ [call]) rest idx := by
  have hstep : keyStep (keyCounted rd (callKey rd call)) (callKind rd)
      (history rd calls (callKey rd call)) call = history rd calls (callKey rd call) := by
    cases keyCounted rd (callKey rd call) <;> simp [keyStep, countedStep, uncountedStep, hkind]
  refine h.step h.wf.skip rfl (fun _ hc => hc) ?_ rfl (fun _ _ => rfl) rfl
    (fun _ _ _ _ => Iff.rfl) rfl ?_ ?_
  · simp [stepDrops, hkind]
  · intro hfollow n f hn hf hk
    rw [hstep, ← hk]
    exact ⟨h.bucket n f hn hf (hk ▸ hfollow), h.tracked n f hn hf (hk ▸ hfollow)⟩
  · intro hfollow a ha
    rw [hstep] at ha
    exact h.complete _ a hfollow ha

/-- **One callback of `filter_leaks`** runs and keeps the relation to the
histories, unless it is an allocation without a resource record of an id
that is still allocated, or a release that the counter takes for the last. -/
theorem fcallRemoveFreed_sim (hres : Followable rd followed)
    (h : LeakSim rd followed hash calls (call :: rest) idx)
    (hok : callKind rd call = .alloc → (callKey rd call).1 = none →
      (history rd calls (callKey rd call)).live = [])
    (hfits : followed (callKey rd call) = true → ReleaseFits rd calls call) :
    ∃ idx', fcallRemoveFreed hash call idx = some idx' ∧
      LeakSim rd followed hash (calls ++ [call]) rest idx' := by
  cases hfollow : followed (callKey rd call) with
  | false => exact fcallRemoveFreed_spared hres h hfollow
  | true =>
  obtain ⟨x, v, r, hx, hx', hv, hbucket, hfind, hnone, hrecord⟩ := h.looked hres
  have hmem := h.sub call h.wf.current_mem
  have hnone := hnone hfollow
  have hsome : ∀ n, r = some n → ∃ f, idx.table.Stored n ∧ idx.fres n = some f ∧
      callKey rd f.call = callKey rd call := by
    intro n hn
    obtain ⟨f, hst, hf, hk⟩ := hrecord n hn
    exact ⟨f, hst, hf, hk (.inr hfollow)⟩
  have hflags : x.data.resType ≠ none → ∀ {rd' : Rd w}, idx.rd.SameRest rd' →
      typeRefcounted rd' x.data.resType = some (keyCounted rd (callKey rd call)) :=
    fun htype _ hrest => h.typeRefcounted_eq hres hmem hx htype hrest
  simp only [fcallRemoveFreed, hx', hv, hbucket, hfind, Option.bind_eq_bind, Option.bind_some]
  split
  · rename_i halloc
    have hkind : callKind rd call = .alloc := by simp only [callKind, hx, if_pos halloc]
    cases r with
    | none => exact h.stored hfollow hfind hsome hnone hkind (fun hc => absurd rfl hc)
    | some n =>
      obtain ⟨f, hn, hf, hk⟩ := hsome n rfl
      obtain ⟨as, hlive⟩ := h.live_eq hn hf hk hfollow
      have htype : x.data.resType ≠ none := by
        intro ht
        rw [hok hkind (by simp [callKey, hx, ht])] at hlive
        cases hlive
      simp only [hflags htype (Rd.SameRest.refl _), Option.bind_some]
      cases hcount : keyCounted rd (callKey rd call) with
      | false => exact h.stored hfollow hfind hsome hnone hkind (fun _ => hcount)
      | true =>
        obtain ⟨idx₁, idx', hadd, hrem, hsim⟩ := h.referenced hfollow hn hf hk hkind hcount
        exact ⟨idx', by simp only [hadd, if_true, Option.bind_some, hrem], hsim⟩
  · rename_i halloc
    split
    · rename_i hfree
      have hkind : callKind rd call = .free := by
        simp only [callKind, hx, if_neg halloc, if_pos hfree]
      cases r with
      | none => exact h.free_unmatched hfollow hkind (hnone rfl)
      | some n =>
        obtain ⟨f, hn, hf, hk⟩ := hsome n rfl
        cases hcount : keyCounted rd (callKey rd call) with
        | false =>
          obtain ⟨idx₁, idx₂, idx', hsub, hlast, hrel, hrem, hsim⟩ :=
            h.cancelled hfollow hn hf hk hkind hcount x.data.resType
          exact ⟨idx', by simp only [hsub, hlast, if_true, Option.bind_some, hrel, hrem], hsim⟩
        | true =>
          have htype : x.data.resType ≠ none := fun ht => by
            simp [keyCounted, callKey, hx, ht] at hcount
          obtain ⟨idx₁, last, idx', hsub, hlast, heq, hsim⟩ :=
            h.unreferenced hfollow hn hf hk hkind hcount (hfits hfollow)
              fun hrest => hcount ▸ hflags htype hrest
          exact ⟨idx', by simp only [hsub, hlast, Option.bind_some]; exact heq, hsim⟩
    · rename_i hfree
      have hkind : callKind rd call = .other := by
        simp only [callKind, hx, if_neg halloc, if_neg hfree]
      exact ⟨idx, rfl, h.undefined hkind⟩

/-! ## The whole run -/

theorem LeakSim.init (h : rd.Integrity) : LeakSim rd followed hash [] rd.calls
    { rd, table := htableInit hashSize, fres := fun _ => none, fresh := 0 } where
  wf := FresIndex.wf_init h
  nodup := h.calls_nodup
  all := rfl
  sub := fun _ hc => hc
  kept := rfl
  sameRest := rfl
  fcall := fun _ _ => rfl
  bucket := by intro n f _ hf; cases hf
  tracked := by intro n f _ hf; cases hf
  complete := by intro k a _ ha; cases ha

/-- The histories of the pairs without a resource record have no
allocation that follows a live one. -/
def NullAlternates (rd : Rd w) (calls : List Nat) : Prop :=
  ∀ id, Alternates (callKind rd) (calls.filter fun c => callKey rd c = (none, id))

theorem nullAlternates_nil (rd : Rd w) : NullAlternates rd [] := by
  intro id pre c post hpre
  cases pre <;> cases hpre

/-- What a release would cancel is the last live allocation. -/
theorem head_uncounted {κ : Type} (kind : κ → CallKind) (calls : List κ) :
    (calls.foldl (uncountedStep kind) KeyState.init).live.head? = lastLive kind calls := by
  induction calls using List.reverseRecOn with
  | nil => rfl
  | append_singleton calls c ih =>
    rw [List.foldl_append, List.foldl_cons, List.foldl_nil, lastLive_snoc]
    cases hk : kind c with
    | alloc => simp [uncountedStep, hk]
    | free => cases hl : (calls.foldl (uncountedStep kind) KeyState.init).live <;>
        simp [uncountedStep, hk, hl]
    | other => simpa [uncountedStep, hk] using ih

theorem history_null (rd : Rd w) (calls : List Nat) (id : BitVec w) :
    (history rd calls (none, id)).live.head?
      = lastLive (callKind rd) (calls.filter fun c => callKey rd c = (none, id)) := by
  rw [← head_uncounted]
  rfl

theorem NullAlternates.live_nil (h : NullAlternates rd (calls ++ call :: rest))
    (hkind : callKind rd call = .alloc) (hnull : (callKey rd call).1 = none) :
    (history rd calls (callKey rd call)).live = [] := by
  obtain ⟨id, hk⟩ : ∃ id, callKey rd call = (none, id) := ⟨_, Prod.ext hnull rfl⟩
  have halt := h id
  rw [List.filter_append, List.filter_cons_of_pos (by simpa using hk)] at halt
  have hlast := halt _ call _ rfl hkind
  rw [hk, ← List.head?_eq_none_iff, history_null, hlast]

theorem NullAlternates.snoc (h : NullAlternates rd calls)
    (hc : callKind rd call = .alloc → (callKey rd call).1 = none →
      (history rd calls (callKey rd call)).live = []) :
    NullAlternates rd (calls ++ [call]) := by
  intro id
  rw [List.filter_append]
  by_cases hk : callKey rd call = (none, id)
  · rw [List.filter_cons_of_pos (by simpa using hk), List.filter_nil]
    refine (h id).snoc fun hkind => ?_
    rw [← history_null, ← hk, hc hkind (by rw [hk]), List.head?_nil]
  · rw [List.filter_cons_of_neg (by simpa using hk), List.filter_nil, List.append_nil]
    exact h id

/-- No release among the followed calls is one that the counter takes for
the last although it is not. -/
def CountsFit (rd : Rd w) (followed : Option Nat × BitVec w → Bool) (calls : List Nat) : Prop :=
  ∀ pre c post, calls = pre ++ c :: post → followed (callKey rd c) = true → ReleaseFits rd pre c

theorem CountsFit.of_append (h : CountsFit rd followed (calls ++ rest)) :
    CountsFit rd followed calls := by
  intro pre c post heq
  exact h pre c (post ++ rest) (by rw [heq]; simp)

theorem CountsFit.snoc (h : CountsFit rd followed calls)
    (hcall : followed (callKey rd call) = true → ReleaseFits rd calls call) :
    CountsFit rd followed (calls ++ [call]) := by
  intro pre c post heq
  rcases List.eq_nil_or_concat post with rfl | ⟨post, d, rfl⟩
  · obtain ⟨rfl, hc⟩ := List.append_inj' heq rfl
    obtain rfl : call = c := by simpa using hc
    exact hcall
  · rw [List.concat_eq_append, ← List.cons_append, ← List.append_assoc] at heq
    exact h pre c post (List.append_inj' heq rfl).1

/-- Resources without reference counting have no counters to look at. -/
theorem CountsFit.of_uncounted
    (h : ∀ c ∈ calls, followed (callKey rd c) = true → keyCounted rd (callKey rd c) = false) :
    CountsFit rd followed calls := by
  intro pre c post heq hfollow _ hcount
  rw [h c (by rw [heq]; simp) hfollow] at hcount
  cases hcount

/-- Calls without a resource record are not counted. -/
theorem countsFit_null (rd : Rd w) (calls : List Nat) : CountsFit rd nullKey calls := by
  refine .of_uncounted fun c _ hnull => ?_
  rw [nullKey, Option.isNone_iff_eq_none] at hnull
  rw [keyCounted, hnull]
  rfl

/-- Up to `2 ^ 32` calls are not too many. -/
theorem CountsFit.of_length (h : calls.length ≤ 2 ^ 32) : CountsFit rd followed calls := by
  intro pre c post heq _ _ _ hone
  have hle : (history rd pre (callKey rd c)).refs ≤ pre.length := keyRun_refs_le pre _
  have hlen := congrArg List.length heq
  rw [List.length_append, List.length_cons] at hlen
  rwa [Nat.mod_eq_of_lt (by omega)] at hone

/-- When no allocation without a resource record follows a live one of its
id, `filter_leaks` with any hash function ends, and among the followed
pairs keeps what the reference semantics keeps, if their counters can. -/
theorem filterLeaksWith_followed (hash : BitVec w → Option (BitVec w) → Nat)
    (h : rd.Integrity) (hres : Followable rd followed) (halt : NullAlternates rd rd.calls)
    (hfits : CountsFit rd followed rd.calls) :
    ∃ rd', filterLeaksWith hash rd = some rd' ∧
      rd'.calls.filter (fun c => followed (callKey rd c))
        = (keptCalls (callKind rd) (callKey rd) (keyCounted rd) rd.calls).filter
            (fun c => followed (callKey rd c)) ∧
      rd.SameRest rd' ∧ ∀ c ∈ rd'.calls, rd'.fcall c = rd.fcall c := by
  obtain ⟨idx', hrun, calls, hsim⟩ := dlistForeach2_total
    (I := fun rest idx => ∃ calls, LeakSim rd followed hash calls rest idx)
    (fun rest idx hI => by
      obtain ⟨calls, hsim⟩ := hI
      exact hsim.wf.nodes)
    (fun call rest idx hI => by
      obtain ⟨calls, hsim⟩ := hI
      have halt' : NullAlternates rd (calls ++ call :: rest) := hsim.all ▸ halt
      obtain ⟨idx', heq, hsim'⟩ := fcallRemoveFreed_sim hres hsim halt'.live_nil
        (hfits calls call rest hsim.all)
      exact ⟨idx', heq, calls ++ [call], hsim'⟩)
    (s := { rd, table := htableInit hashSize, fres := fun _ => none, fresh := 0 })
    ⟨[], LeakSim.init h⟩
  have hall : calls = rd.calls := by
    have := hsim.all
    rw [List.append_nil] at this
    exact this.symm
  subst hall
  refine ⟨idx'.rd, ?_, ?_, hsim.sameRest, hsim.fcall⟩
  · simp only [filterLeaksWith, hrun, Option.bind_eq_bind, Option.bind_some]
  · rw [hsim.kept, List.append_nil]

/-- A run of `filter_leaks` that ends has met no allocation without a
resource record of an id that was still allocated. -/
theorem filterLeaksWith_alternates {rd' : Rd w} (hash : BitVec w → Option (BitVec w) → Nat)
    (h : rd.Integrity) (hlive : ResourcesLive rd) (heq : filterLeaksWith hash rd = some rd') :
    NullAlternates rd rd.calls := by
  simp only [filterLeaksWith, Option.bind_eq_bind, Option.bind_eq_some_iff] at heq
  obtain ⟨idx', hrun, -⟩ := heq
  have hres := hlive.followable_null
  obtain ⟨calls, hsim, halt⟩ := dlistForeach2_ends
    (I := fun rest idx => ∃ calls, LeakSim rd nullKey hash calls rest idx ∧ NullAlternates rd calls)
    (fun rest idx hI => by
      obtain ⟨calls, hsim, -⟩ := hI
      exact hsim.wf.nodes)
    (fun call rest idx idx' hI hstep => by
      obtain ⟨calls, hsim, halt⟩ := hI
      have hok : callKind rd call = .alloc → (callKey rd call).1 = none →
          (history rd calls (callKey rd call)).live = [] := by
        intro hkind hnull
        by_contra hne
        rw [fcallRemoveFreed_null hres hsim hkind hnull hne] at hstep
        cases hstep
      obtain ⟨idx₁, heq, hsim'⟩ := fcallRemoveFreed_sim hres hsim hok
        (countsFit_null rd rd.calls calls call rest hsim.all)
      obtain rfl := Option.some.inj (heq.symm.trans hstep)
      exact ⟨calls ++ [call], hsim', halt.snoc hok⟩)
    ⟨[], LeakSim.init h, nullAlternates_nil rd⟩ hrun
  have hall := hsim.all
  rw [List.append_nil] at hall
  exact hall ▸ halt

theorem Resourced.nullAlternates (h : Resourced rd) : NullAlternates rd rd.calls := by
  intro id
  have hnil : (rd.calls.filter fun c => callKey rd c = (none, id)) = [] := by
    rw [List.filter_eq_nil_iff]
    intro c hc
    obtain ⟨x, type, res, hx, ht, -⟩ := h.carries c hc
    simp [callKey, hx, ht]
  rw [hnil]
  intro pre c post hpre
  cases pre <;> cases hpre

/-- `filter_leaks` with any hash function computes the reference
semantics and leaves the records of the remaining calls alone. -/
theorem filterLeaksWith_keptCalls (hash : BitVec w → Option (BitVec w) → Nat)
    (h : rd.Integrity) (hres : Resourced rd) (hfits : CountsFit rd (fun _ => true) rd.calls) :
    ∃ rd', filterLeaksWith hash rd = some rd' ∧
      rd'.calls = keptCalls (callKind rd) (callKey rd) (keyCounted rd) rd.calls ∧
      rd.SameRest rd' ∧ ∀ c ∈ rd'.calls, rd'.fcall c = rd.fcall c := by
  have hrun := filterLeaksWith_followed hash h hres.followable hres.nullAlternates hfits
  simpa only [List.filter_true] using hrun

end SpRtrace.Postproc
