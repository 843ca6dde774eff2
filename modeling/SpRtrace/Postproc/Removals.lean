/-
SpRtrace.Postproc.Removals — every filter that removes calls is a sequence
of removals.

A filter looks at the calls one after the other and takes some of them
out; which ones is its own affair. What does not depend on that is proved
here once, for any sequence of removals: the store stays consistent, and
the calls that are left keep their order and their records
(`Removal.left`).
-/
import Mathlib
import SpRtrace.Postproc.Filter
import SpRtrace.Postproc.RangeFilter

namespace SpRtrace.Postproc

open SpRtrace.Lib SpRtrace.Common

variable {w : Nat}

/-! ## Removals -/

/-- What a filter does to a store: it removes a call, or it shortens the
lists of contexts and resources. -/
inductive RemovalStep : Rd w → Rd w → Prop
  | fcall {rd rd' : Rd w} {call : Nat} : rdFcallRemove rd call = some rd' → RemovalStep rd rd'
  | lists (rd : Rd w) (contexts : List (Context w)) (resources : List Nat) :
      RemovalStep rd { rd with contexts, resources }

/-- Any removals in any order. -/
def Removal : Rd w → Rd w → Prop := Relation.ReflTransGen RemovalStep

theorem Removal.refl (rd : Rd w) : Removal rd rd := Relation.ReflTransGen.refl

theorem Removal.trans {rd₁ rd₂ rd₃ : Rd w} (h₁ : Removal rd₁ rd₂) (h₂ : Removal rd₂ rd₃) :
    Removal rd₁ rd₃ := Relation.ReflTransGen.trans h₁ h₂

theorem removal_fcall {rd rd' : Rd w} {call : Nat} (h : rdFcallRemove rd call = some rd') :
    Removal rd rd' := Relation.ReflTransGen.single (.fcall h)

theorem removal_lists (rd : Rd w) (contexts : List (Context w)) (resources : List Nat) :
    Removal rd { rd with contexts, resources } := Relation.ReflTransGen.single (.lists ..)

/-- Removals keep the store consistent, and the calls that are left keep
their order and their records. -/
theorem Removal.left {rd rd' : Rd w} (hint : rd.Integrity) (h : Removal rd rd') :
    rd'.Integrity ∧ rd'.calls.Sublist rd.calls ∧ ∀ c ∈ rd'.calls, rd'.fcall c = rd.fcall c := by
  induction h with
  | refl => exact ⟨hint, List.Sublist.refl _, fun _ _ => rfl⟩
  | @tail rd₁ rd₂ _ hstep ih =>
    obtain ⟨hmid, hsub, hsame⟩ := ih
    cases hstep with
    | @fcall _ call heq =>
      have hmem : call ∈ rd₁.calls := by
        by_contra hnot
        simp [rdFcallRemove, dlistRemove, hnot] at heq
      obtain ⟨rd₃, heq', hremoves⟩ := rdFcallRemove_spec hmid hmem
      obtain rfl := Option.some.inj (heq'.symm.trans heq)
      have hleft : rd₃.calls.Sublist rd₁.calls := hremoves.calls ▸ List.erase_sublist
      refine ⟨hremoves.integrity, hleft.trans hsub, fun c hc => ?_⟩
      rw [hremoves.fcall_left hmid c hc]
      exact hsame c (hleft.subset hc)
    | lists => exact ⟨hmid.of_stores rfl rfl rfl rfl rfl rfl, hsub, hsame⟩

/-- The backtraces that are left keep their frames and buckets, and get no
new calls. -/
theorem Removal.traces {rd rd' : Rd w} (hint : rd.Integrity) (h : Removal rd rd') :
    rd'.ftraces.size = rd.ftraces.size ∧ ∀ v, rd'.StoredTrace v → rd.StoredTrace v ∧
      ∀ y, rd'.ftrace v = some y → ∃ z, rd.ftrace v = some z ∧ y.frames = z.frames ∧
        y.bucket = z.bucket ∧ y.calls.length ≤ z.calls.length := by
  induction h with
  | refl => exact ⟨rfl, fun v hv => ⟨hv, fun y hy => ⟨y, hy, rfl, rfl, Nat.le_refl _⟩⟩⟩
  | @tail rd₁ rd₂ hrun hstep ih =>
    obtain ⟨hsize, htraces⟩ := ih
    obtain ⟨hmid, -⟩ := Removal.left hint hrun
    cases hstep with
    | @fcall _ call heq =>
      have hmem : call ∈ rd₁.calls := by
        by_contra hnot
        simp [rdFcallRemove, dlistRemove, hnot] at heq
      obtain ⟨rd₃, heq', hremoves⟩ := rdFcallRemove_spec hmid hmem
      obtain rfl := Option.some.inj (heq'.symm.trans heq)
      refine ⟨hremoves.size.trans hsize, fun v hv => ?_⟩
      obtain ⟨hst, hback⟩ := htraces v (hremoves.stored v hv)
      refine ⟨hst, fun y hy => ?_⟩
      obtain ⟨z, hz, hframes, hbucket⟩ := hremoves.frames v y hv hy
      obtain ⟨z', hz', hle⟩ := hremoves.calls_le v y hv hy
      obtain rfl := Option.some.inj (hz.symm.trans hz')
      obtain ⟨x, hx, hxframes, hxbucket, hxle⟩ := hback z hz
      exact ⟨x, hx, hframes.trans hxframes, hbucket.trans hxbucket, hle.trans hxle⟩
    | lists => exact ⟨hsize, htraces⟩

theorem Removal.whole {rd rd' : Rd w} (hwhole : rd.Whole) (hcounted : rd.Counted)
    (h : Removal rd rd') : rd'.Whole := by
  have hint := hwhole.integrity hcounted
  obtain ⟨hint', -⟩ := h.left hint
  obtain ⟨hsize, htraces⟩ := h.traces hint
  refine ⟨hint'.toLinked, hwhole.keyed.of_same hsize (fun v hv => ⟨(htraces v hv).1, ?_⟩)
    (fun v hv => (hint'.stored_live v hv).imp fun _ hy => hy.1), hint'.used⟩
  intro y hy
  obtain ⟨z, hz, hframes, hbucket, -⟩ := (htraces v hv).2 y hy
  exact ⟨z, hz, hframes, hbucket⟩

/-! ## The filters -/

theorem filterCalls_removal {drop : Rd w → FcallData w → Option Bool} {rd rd' : Rd w}
    (h : filterCalls drop rd = some rd') : Removal rd rd' := by
  refine dlistForeach2_preserves (P := Removal rd) ?_ (.refl rd) h
  intro call s s' hs hstep
  simp only [Option.bind_eq_bind, Option.bind_eq_some_iff] at hstep
  obtain ⟨c, -, b, -, hstep⟩ := hstep
  split at hstep
  · exact hs.trans (removal_fcall hstep)
  · exact Option.some.inj hstep ▸ hs

theorem filterContext_removal {mask : BitVec 32} {rd rd' : Rd w}
    (h : filterContext mask rd = some rd') : Removal rd rd' :=
  (removal_lists rd _ rd.resources).trans (filterCalls_removal h)

theorem filterResource_removal {mask : BitVec 32} {rd rd' : Rd w}
    (h : filterResource mask rd = some rd') : Removal rd rd' := by
  simp only [filterResource, Option.bind_eq_bind, Option.bind_eq_some_iff] at h
  obtain ⟨rd₁, hres, hcalls⟩ := h
  have hrd₁ : Removal rd rd₁ := by
    refine dlistForeach2_preserves (P := Removal rd) ?_ (.refl rd) hres
    intro res s s' hs hstep
    simp only [Option.bind_eq_some_iff] at hstep
    obtain ⟨r, -, hstep⟩ := hstep
    split at hstep
    · simp only [Option.bind_eq_some_iff, Option.some.injEq] at hstep
      obtain ⟨list, -, rfl⟩ := hstep
      exact hs.trans (removal_lists s s.contexts list)
    · exact Option.some.inj hstep ▸ hs
  exact hrd₁.trans (filterCalls_removal hcalls)

theorem filterCallAddressRange_removal {opts : RangeOptions w} {isAbsolute : Str → Option Bool}
    {rd rd' : Rd w} (h : filterCallAddressRange opts isAbsolute rd = some rd') :
    Removal rd rd' := by
  simp only [filterCallAddressRange] at h
  split at h
  · exact Option.some.inj h ▸ .refl rd
  · refine dlistForeach2_preserves (P := Removal rd) ?_ (.refl rd) h
    intro call s s' hs hstep
    simp only [fcallFilterRange, Option.bind_eq_bind, Option.bind_eq_some_iff] at hstep
    obtain ⟨c, -, trace, -, t, -, hstep⟩ := hstep
    split at hstep
    · exact Option.some.inj hstep ▸ hs
    split at hstep
    · exact hs.trans (removal_fcall hstep)
    · cases hstep

theorem FresIndex.removeCall_removal {idx idx' : FresIndex w} {call : Nat}
    (h : idx.removeCall call = some idx') : Removal idx.rd idx'.rd := by
  simp only [FresIndex.removeCall, Option.bind_eq_bind, Option.bind_eq_some_iff,
    Option.some.injEq] at h
  obtain ⟨rd', heq, rfl⟩ := h
  exact removal_fcall heq

theorem FresIndex.countRef_rd {idx idx' : FresIndex w} {res : Nat} {step : BitVec 32 → BitVec 32}
    (h : idx.countRef res step = some idx') : idx'.rd = idx.rd := by
  simp only [FresIndex.countRef, Option.bind_eq_bind, Option.bind_eq_some_iff, Option.some.injEq] at h
  obtain ⟨f, -, rfl⟩ := h
  rfl

theorem FresIndex.store_rd {idx idx' : FresIndex w} {b call : Nat}
    (h : idx.store b call = some idx') : idx'.rd = idx.rd := by
  simp only [FresIndex.store, Option.bind_eq_bind, Option.bind_eq_some_iff, Prod.exists,
    Option.some.injEq] at h
  obtain ⟨table, old, -, rfl⟩ := h
  rfl

theorem FresIndex.release_removal {idx idx' : FresIndex w} {res : Nat}
    (h : idx.release res = some idx') : Removal idx.rd idx'.rd := by
  simp only [FresIndex.release, Option.bind_eq_bind, Option.bind_eq_some_iff, Option.some.injEq] at h
  obtain ⟨f, -, b, -, table, -, idx₁, hremove, rfl⟩ := h
  have hremoval := FresIndex.removeCall_removal hremove
  exact hremoval

theorem fcallRemoveFreed_removal {hash : BitVec w → Option (BitVec w) → Nat} {call : Nat}
    {idx idx' : FresIndex w} (h : fcallRemoveFreed hash call idx = some idx') :
    Removal idx.rd idx'.rd := by
  simp only [fcallRemoveFreed, Option.bind_eq_bind, Option.bind_eq_some_iff] at h
  obtain ⟨c, -, v, -, r, -, h⟩ := h
  split at h
  · -- an allocation
    cases r with
    | none =>
      rw [FresIndex.store_rd h]
      exact .refl _
    | some res =>
      simp only [Option.bind_eq_some_iff] at h
      obtain ⟨refcounted, -, h⟩ := h
      split at h
      · simp only [Option.bind_eq_some_iff] at h
        obtain ⟨idx₁, hadd, hremove⟩ := h
        rw [← FresIndex.countRef_rd hadd]
        exact FresIndex.removeCall_removal hremove
      · rw [FresIndex.store_rd h]
        exact .refl _
  split at h
  · -- a release
    cases r with
    | none => exact FresIndex.removeCall_removal h
    | some res =>
      simp only [Option.bind_eq_some_iff] at h
      obtain ⟨idx₁, hadd, last, -, h⟩ := h
      rw [← FresIndex.countRef_rd hadd]
      split at h
      · simp only [Option.bind_eq_some_iff] at h
        obtain ⟨idx₂, hrelease, hremove⟩ := h
        exact (FresIndex.release_removal hrelease).trans (FresIndex.removeCall_removal hremove)
      · exact FresIndex.removeCall_removal h
  · obtain rfl := Option.some.inj h
    exact .refl _

theorem filterLeaks_removal {rd rd' : Rd w} (h : filterLeaks rd = some rd') : Removal rd rd' := by
  simp only [filterLeaks, filterLeaksWith, Option.bind_eq_bind, Option.bind_eq_some_iff,
    Option.some.injEq] at h
  obtain ⟨idx', hrun, rfl⟩ := h
  exact dlistForeach2_preserves (P := fun s : FresIndex w => Removal rd s.rd)
    (fun _ _ _ hs hstep => hs.trans (fcallRemoveFreed_removal hstep)) (.refl rd) hrun

end SpRtrace.Postproc
