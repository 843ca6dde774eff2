/-
SpRtrace.Postproc.LeakCounts — `filter_leaks` against the reference
semantics, and how far its counters reach.

`fres_t` counts the references of a tracked allocation in an `int`. A
release whose allocation has one reference left ends it, and so does one
that finds `2 ^ 32` references more: the counter has come round to the
same value. `CountsFit` says that no release meets such a counter. Where
it holds the filter is the reference semantics (`filterLeaksWith_keptCalls`
for any hash function); the first release that breaks it takes an
allocation away that is still held.
-/
import SpRtrace.Postproc.RecordedCalls

namespace SpRtrace.Postproc

open SpRtrace.Common

variable {w : Nat} {rd : Rd w} {followed : Option Nat × BitVec w → Bool}
  {hash : BitVec w → Option (BitVec w) → Nat} {calls rest : List Nat} {call : Nat}
  {idx : FresIndex w}

/-! ## A release that comes too early -/

/-- The allocation that a release takes for unreferenced. -/
theorem not_releaseFits (h : ¬ ReleaseFits rd calls call) :
    callKind rd call = .free ∧ keyCounted rd (callKey rd call) = true ∧
      (history rd calls (callKey rd call)).refs % 2 ^ 32 = 1 ∧
      (history rd calls (callKey rd call)).refs ≠ 1 ∧
      ∃ a as, (history rd calls (callKey rd call)).live = a :: as := by
  unfold ReleaseFits at h
  push Not at h
  obtain ⟨hkind, hcount, hone, hne⟩ := h
  refine ⟨hkind, hcount, hone, hne, List.exists_cons_of_ne_nil fun hnil => ?_⟩
  rw [history, keyRun_refs_eq_zero hcount hnil] at hone
  cases hone

/-- The callback takes the allocation away. -/
theorem fcallRemoveFreed_slips (hres : Followable rd followed)
    (h : LeakSim rd followed hash calls (call :: rest) idx)
    (hfollow : followed (callKey rd call) = true) (hslips : ¬ ReleaseFits rd calls call) {a : Nat}
    (ha : (history rd calls (callKey rd call)).live.head? = some a) :
    ∃ idx', fcallRemoveFreed hash call idx = some idx' ∧ idx'.Wf rest ∧ a ∉ idx'.rd.calls := by
  obtain ⟨hkind, hcount, hone, -, -⟩ := not_releaseFits hslips
  obtain ⟨x, v, r, hx, hx', hv, hbucket, hfind, hnone, hrecord⟩ := h.looked hres
  have hfree : x.data.type ≠ ftypeAlloc ∧ x.data.type = ftypeFree := by
    rw [callKind, hx] at hkind
    simp only at hkind
    split at hkind
    · cases hkind
    · rename_i hne
      split at hkind
      · exact ⟨hne, ‹_›⟩
      · cases hkind
  cases r with
  | none =>
    rw [hnone hfollow rfl] at ha
    cases ha
  | some n =>
    obtain ⟨f, hn, hf, hk⟩ := hrecord n rfl
    have hk := hk (.inr hfollow)
    obtain ⟨hhead, hcountf⟩ := h.tracked n f hn hf (hk ▸ hfollow)
    rw [hk] at hhead hcountf
    obtain rfl := Option.some.inj (hhead.symm.trans ha)
    rw [hcount, if_pos rfl] at hcountf
    -- the counter is zero after the release, so the record goes
    have hzero : f.refCount - 1 = 0 := by rw [hcountf, ofNat_sub_one_eq_zero, hone]
    obtain ⟨idx₁, hadd, hwf₁, hrd₁, htable₁, hself, -⟩ :=
      FresIndex.countRef_spec h.wf hn hf (· - 1)
    obtain ⟨idx₂, hrel, hwf₂, hspec₂, -⟩ := FresIndex.release_spec hwf₁ (htable₁ ▸ hn) hself
    obtain ⟨rd', hrem, hspec, hwf'⟩ := FresIndex.removeCall_spec hwf₂
    refine ⟨_, ?_, hwf', ?_⟩
    · simp only [fcallRemoveFreed, hx', hv, hbucket, hfind, if_neg hfree.1, if_pos hfree.2, hadd,
        FresIndex.lastRef, hself, hzero, Option.bind_eq_bind, Option.bind_some, if_true, hrel, hrem]
    · show f.call ∉ rd'.calls
      rw [hspec.calls]
      intro hmem
      have hmem := List.mem_of_mem_erase hmem
      rw [hspec₂.calls] at hmem
      exact (hwf₁.integrity.calls_nodup.mem_erase_iff.mp hmem).1 rfl

/-- The reference semantics keeps it. -/
theorem mem_keptCalls_of_slip (hnd : (calls ++ [call]).Nodup) (hslips : ¬ ReleaseFits rd calls call)
    {a : Nat} (ha : (history rd calls (callKey rd call)).live.head? = some a) :
    a ∈ keptCalls (callKind rd) (callKey rd) (keyCounted rd) (calls ++ [call]) := by
  obtain ⟨hkind, hcount, -, hne, -⟩ := not_releaseFits hslips
  obtain ⟨as, hlive⟩ := List.head?_eq_some_iff.mp ha
  have hwf : (history rd calls (callKey rd call)).Wf (callKind rd) (callKey rd) (keyCounted rd) calls
      (callKey rd call) :=
    history_wf (List.nodup_append.mp hnd).1 _
  obtain ⟨hmem, hkey⟩ := hwf.live_mem a (by rw [hlive]; simp)
  have hcall : a ≠ call := by
    rintro rfl
    exact (List.nodup_append.mp hnd).2.2 a hmem a (by simp) rfl
  rw [keptCalls, List.mem_filter, decide_eq_true_eq]
  refine ⟨List.mem_append_left _ hmem, ?_⟩
  rw [hkey, keyRun_snoc_self, keyStep, if_pos hcount,
    show keyRun (callKind rd) (callKey rd) (keyCounted rd) calls (callKey rd call)
      = history rd calls (callKey rd call) from rfl]
  simp only [countedStep, hkind, hlive, if_neg hne, List.mem_cons, not_or]
  exact ⟨hcall, hwf.live_kept a (by rw [hlive]; simp)⟩

/-- A run over a list whose last call is the first release of that kind. -/
theorem filterLeaksWith_slips (h : rd.Integrity) (hres : Resourced rd)
    (hcalls : rd.calls = calls ++ [call]) (hfits : CountsFit rd (fun _ => true) calls)
    (hslips : ¬ ReleaseFits rd calls call) {a : Nat}
    (ha : (history rd calls (callKey rd call)).live.head? = some a) {rd' : Rd w}
    (heq : filterLeaksWith hash rd = some rd') : a ∉ rd'.calls := by
  simp only [filterLeaksWith, Option.bind_eq_bind, Option.bind_eq_some_iff,
    Option.some.injEq] at heq
  obtain ⟨idx', hrun, rfl⟩ := heq
  have halt := hres.nullAlternates
  -- the calls in front of the last one have been visited, or all have
  have hlast := dlistForeach2_ends
    (I := fun rest idx => (∃ pre, rest ≠ [] ∧ LeakSim rd (fun _ => true) hash pre rest idx) ∨
      (rest = [] ∧ idx.Wf rest ∧ a ∉ idx.rd.calls))
    (fun rest idx hI => by
      rcases hI with ⟨pre, -, hsim⟩ | ⟨-, hwf, -⟩
      · exact hsim.wf.nodes
      · exact hwf.nodes)
    (fun c rest idx idx' hI hstep => by
      rcases hI with ⟨pre, -, hsim⟩ | ⟨hnil, -⟩
      · have hall := hsim.all
        rcases List.eq_nil_or_concat rest with rfl | ⟨post, d, rfl⟩
        · obtain ⟨rfl, hc⟩ := List.append_inj' (hcalls.symm.trans hall) rfl
          obtain rfl : call = c := by simpa using hc
          obtain ⟨idx₁, heq₁, hwf, hgone⟩ :=
            fcallRemoveFreed_slips hres.followable hsim rfl hslips ha
          obtain rfl := Option.some.inj (heq₁.symm.trans hstep)
          exact .inr ⟨rfl, hwf, hgone⟩
        · have hall' : calls ++ [call] = (pre ++ c :: post) ++ [d] := by
            rw [← hcalls, hall]
            simp
          obtain ⟨hpre, -⟩ := List.append_inj' hall' rfl
          obtain ⟨idx₁, heq₁, hsim'⟩ := fcallRemoveFreed_sim hres.followable hsim
            (NullAlternates.live_nil (hall ▸ halt)) (hfits pre c post hpre)
          obtain rfl := Option.some.inj (heq₁.symm.trans hstep)
          exact .inl ⟨_, by simp, hsim'⟩
      · cases hnil)
    (.inl ⟨[], by rw [hcalls]; simp, LeakSim.init h⟩) hrun
  rcases hlast with ⟨pre, hne, -⟩ | ⟨-, -, hgone⟩
  · exact absurd rfl hne
  · exact hgone

/-! ## The filter and the reference semantics -/

/-- `filter_leaks` ends, leaves exactly the calls the reference semantics
keeps, in their order and unchanged, and leaves the same calls with any
other hash function in the place of `res_hash`. -/
def LeaksReference (rd : Rd w) : Prop :=
  ∃ rd', filterLeaks rd = some rd' ∧
    rd'.calls = keptCalls (callKind rd) (callKey rd) (keyCounted rd) rd.calls ∧
    (∀ c ∈ rd'.calls, rd'.fcall c = rd.fcall c) ∧
    ∀ hash, ∃ rd'', filterLeaksWith hash rd = some rd'' ∧ rd''.calls = rd'.calls

theorem leaksReference_of_fits (h : rd.Integrity) (hres : Resourced rd)
    (hfits : CountsFit rd (fun _ => true) rd.calls) : LeaksReference rd := by
  obtain ⟨rd', heq, hcalls, -, hfcall⟩ := filterLeaksWith_keptCalls resHash h hres hfits
  refine ⟨rd', heq, hcalls, hfcall, fun hash => ?_⟩
  obtain ⟨rd'', heq', hcalls', -⟩ := filterLeaksWith_keptCalls hash h hres hfits
  exact ⟨rd'', heq', hcalls'.trans hcalls.symm⟩

theorem leaksReference_snoc_iff (h : rd.Integrity) (hres : Resourced rd)
    (hcalls : rd.calls = calls ++ [call]) (hfits : CountsFit rd (fun _ => true) calls) :
    LeaksReference rd ↔ ReleaseFits rd calls call := by
  constructor
  · intro hleaks
    by_contra hslips
    obtain ⟨-, -, -, -, a, as, hlive⟩ := not_releaseFits hslips
    have ha : (history rd calls (callKey rd call)).live.head? = some a := by
      rw [hlive]
      rfl
    obtain ⟨rd', heq, hkept, -⟩ := hleaks
    refine filterLeaksWith_slips h hres hcalls hfits hslips ha heq ?_
    rw [hkept, hcalls]
    exact mem_keptCalls_of_slip (hcalls ▸ h.calls_nodup) hslips ha
  · intro hrelease
    exact leaksReference_of_fits h hres (hcalls ▸ hfits.snoc fun _ => hrelease)

/-- **When `filter_leaks` is the reference semantics**: on every consistent
trace data object whose calls carry resource records with different ids,
if no release is taken for the last one of its pair although it is not. A
list that ends with the first such release is left wrong. -/
theorem filterLeaks_reference_iff (rd : TraceStore w) (hres : Resourced rd.val) :
    (CountsFit rd.val (fun _ => true) rd.val.calls → LeaksReference rd.val) ∧
    ∀ calls call, rd.val.calls = calls ++ [call] → CountsFit rd.val (fun _ => true) calls →
      (LeaksReference rd.val ↔ ReleaseFits rd.val calls call) :=
  ⟨leaksReference_of_fits rd.property hres, fun _ _ => leaksReference_snoc_iff rd.property hres⟩

/-- Two resources, one of them counted, and calls on three pairs: an
allocation that is overridden, one that is released, one that is counted
twice and released once, and a release of nothing. -/
def sampleLeaks : Rd 64 :=
  let call (type : BitVec 32) (res : Nat) (id : BitVec 64) : FcallData 64 :=
    { index := 0, type, context := 0, timestamp := 0, name := [], resType := some res, resId := id,
      resSize := 0 }
  let rd := (rdAddResource rdCreate { id := 1, type := [], desc := [], flags := 0, hide := false }).1
  let rd := (rdAddResource rd { id := 2, type := [], desc := [], flags := 1, hide := false }).1
  [call ftypeAlloc 0 16, call ftypeAlloc 0 16, call ftypeFree 0 16, call ftypeAlloc 1 16,
    call ftypeAlloc 1 16, call ftypeFree 1 16, call ftypeFree 0 32].foldl
    (fun rd d => (rdAddFcall rd d).1) rd

theorem sampleLeaks_integrity : sampleLeaks.Integrity := by
  have hrd := rdAddResource_integrity (rdAddResource_integrity (integrity_rdCreate (w := 64))
    { id := 1, type := [], desc := [], flags := 0, hide := false })
    { id := 2, type := [], desc := [], flags := 1, hide := false }
  exact List.foldlRecOn _ _ hrd fun rd h d _ => rdAddFcall_integrity h d

theorem sampleLeaks_resourced : Resourced sampleLeaks := by
  have hres : ∀ type res, sampleLeaks.resource type = some res →
      type = 0 ∧ res.id = 1 ∨ type = 1 ∧ res.id = 2 := by
    intro type res h
    match type, h with
    | 0, h => exact .inl ⟨rfl, by obtain rfl := Option.some.inj h; rfl⟩
    | 1, h => exact .inr ⟨rfl, by obtain rfl := Option.some.inj h; rfl⟩
    | n + 2, h => cases h
  constructor
  · intro c hc
    have hc : c ∈ [2, 3, 4, 5, 6, 7, 8] := hc
    simp only [List.mem_cons, List.not_mem_nil, or_false] at hc
    rcases hc with rfl | rfl | rfl | rfl | rfl | rfl | rfl <;> exact ⟨_, _, _, rfl, rfl, rfl⟩
  · intro c _ d _ x y type type' res res' _ _ _ _ hr hr' hid
    rcases hres type res hr with ⟨rfl, h1⟩ | ⟨rfl, h1⟩ <;>
      rcases hres type' res' hr' with ⟨rfl, h2⟩ | ⟨rfl, h2⟩ <;> simp_all

/-- The overridden allocation and the counted one are the leaks. -/
theorem filterLeaks_reference_iff_sample :
    ∃ rd', filterLeaks sampleLeaks = some rd' ∧ rd'.calls = [2, 5] := by
  obtain ⟨rd', heq, hcalls, -⟩ :=
    (filterLeaks_reference_iff ⟨sampleLeaks, sampleLeaks_integrity⟩ sampleLeaks_resourced).1
      (.of_length (by decide))
  refine ⟨rd', heq, hcalls.trans ?_⟩
  decide

/-! ## Too many references -/

def countedType : Resource 64 := { id := 1, type := ['r'], desc := [], flags := 1, hide := false }

def countedCall (type : BitVec 32) : ResourceCall 64 :=
  { type, name := ['f'], resTypeId := 1, resId := 16, resSize := 0 }

/-- `n` allocations of one id and a release. -/
def recountedLog (n : Nat) : Rd 64 :=
  callLog [countedType] (List.replicate n (countedCall ftypeAlloc) ++ [countedCall ftypeFree])

theorem recountedLog_types (n : Nat) : ∀ c ∈ List.replicate n (countedCall ftypeAlloc) ++
    [countedCall ftypeFree], ∃ r ∈ [countedType], r.id = c.resTypeId := by
  intro c hc
  refine ⟨countedType, by simp, ?_⟩
  rcases List.mem_append.mp hc with hc | hc
  · rw [List.eq_of_mem_replicate hc]
    rfl
  · rw [List.mem_singleton.mp hc]
    rfl

theorem recountedLog_recorded (n : Nat) : Recorded (recountedLog n) (fun _ => true)
    (List.replicate n (countedCall ftypeAlloc) ++ [countedCall ftypeFree]) := by
  refine callLog_recorded (recountedLog_types n) (by simp) fun r hr => ?_
  rw [List.mem_singleton.mp hr]
  rfl

/-- The release finds `n` references. -/
theorem leaksReference_recounted_iff (n : Nat) :
    LeaksReference (recountedLog n) ↔ (n % 2 ^ 32 = 1 → n = 1) := by
  have hrec := recountedLog_recorded n
  have hint : (recountedLog n).Integrity := (callLog_spec (recountedLog_types n)).1
  generalize recountedLog n = rd at hrec hint
  obtain ⟨calls, last, hcalls, hallocs, hlast⟩ := List.map_eq_append_iff.mp hrec.eq_map.symm
  obtain ⟨call, rfl, hfree⟩ := List.map_eq_singleton_iff.mp hlast
  have hlen : calls.length = n := by
    rw [← List.length_map (storedCallD rd), hallocs, List.length_replicate]
  have halloc : ∀ c ∈ calls, storedCallD rd c = countedCall ftypeAlloc := fun c hc =>
    List.eq_of_mem_replicate (hallocs ▸ List.mem_map_of_mem hc)
  have hmem : ∀ c ∈ calls, c ∈ rd.calls := fun c hc => by rw [hcalls]; simp [hc]
  have hcall : call ∈ rd.calls := by rw [hcalls]; simp
  have hkind : ∀ c ∈ calls, callKind rd c = .alloc := fun c hc => by
    rw [hrec.callKind_eq (hmem c hc), halloc c hc]
    rfl
  have hcount : keyCounted rd (callKey rd call) = true := hrec.keyCounted_eq hcall
  have hrefs : (history rd calls (callKey rd call)).refs = n := by
    rw [← hlen]
    refine keyRun_allocs_refs hcount fun c hc => ⟨?_, hkind c hc⟩
    rw [hrec.callKey_eq_iff (hmem c hc) hcall, halloc c hc, hfree]
    rfl
  have hfits : CountsFit rd (fun _ => true) calls := by
    intro pre c post heq _ hkind'
    rw [hkind c (by rw [heq]; simp)] at hkind'
    cases hkind'
  have hkind' : callKind rd call = .free := by
    rw [hrec.callKind_eq hcall, hfree]
    rfl
  rw [leaksReference_snoc_iff hint hrec.resourced hcalls hfits, ReleaseFits, hrefs]
  exact ⟨fun h => h hkind' hcount, fun h _ _ => h⟩

/-- `2 ^ 32 + 1` allocations and one release: the counter comes back to
zero, and an allocation with `2 ^ 32` references is taken for released. -/
theorem filterLeaks_recounted :
    (recountedLog (2 ^ 32 + 1)).Integrity ∧ Resourced (recountedLog (2 ^ 32 + 1)) ∧
      ¬ LeaksReference (recountedLog (2 ^ 32 + 1)) := by
  refine ⟨(callLog_spec (recountedLog_types _)).1, (recountedLog_recorded _).resourced, ?_⟩
  rw [leaksReference_recounted_iff]
  norm_num

end SpRtrace.Postproc
