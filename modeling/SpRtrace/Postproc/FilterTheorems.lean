/-
SpRtrace.Postproc.FilterTheorems — the index of `filter_leaks` and the
operations on it.

The work of `fcall_remove_freed` is cut into three operations on the
index (store a record, change its counter, release it) and the removal of
the current call. Each has one lemma, in terms of the weak invariant
`FresIndex.Wf`: every record in the table is alive, sits in the bucket it
records, and belongs to an earlier call that is still in the list. That
is enough for memory safety, whatever the resources look like.
`SpRtrace.Postproc.LeakTheorems` adds what the records mean.
-/
import SpRtrace.Common.RtraceDataTheorems
import SpRtrace.Postproc.Filter
import SpRtrace.Postproc.LeakSpec

namespace SpRtrace.Postproc

open SpRtrace.Common

variable {w : Nat}

/-! ## The weak invariant of the index -/

/-- The bucket a live index record is in. -/
def FresIndex.home (idx : FresIndex w) (n : Nat) : Nat :=
  match idx.fres n with
  | some f => f.bucket.getD 0
  | none => 0

/-- The index while `rest` is still to be visited. -/
structure FresIndex.Wf (idx : FresIndex w) (rest : List Nat) : Prop where
  integrity : idx.rd.Integrity
  placed : idx.table.Placed idx.home
  live : ∀ n, idx.table.Stored n → ∃ f, idx.fres n = some f ∧ f.bucket = some (idx.home n)
  old : ∀ n f, idx.fres n = some f → n < idx.fresh
  call_inj : ∀ n m f g, idx.table.Stored n → idx.table.Stored m → idx.fres n = some f →
    idx.fres m = some g → f.call = g.call → n = m
  visited : ∃ pre, idx.rd.calls = pre ++ rest ∧
    ∀ n f, idx.table.Stored n → idx.fres n = some f → f.call ∈ pre

/-- The index tracks the allocation `a` with the given counter. -/
def FresIndex.Tracks (idx : FresIndex w) (a : Nat) (f : Fres) : Prop :=
  ∃ n, idx.table.Stored n ∧ idx.fres n = some f ∧ f.call = a

variable {idx : FresIndex w} {call : Nat} {rest : List Nat}

theorem FresIndex.Wf.current_mem (h : idx.Wf (call :: rest)) : call ∈ idx.rd.calls := by
  obtain ⟨pre, hpre, -⟩ := h.visited
  rw [hpre]; simp

theorem FresIndex.Wf.current_not_mem (h : idx.Wf (call :: rest)) {pre : List Nat}
    (hpre : idx.rd.calls = pre ++ call :: rest) : call ∉ pre := by
  intro hm
  have hnd := h.integrity.calls_nodup
  rw [hpre, List.nodup_append] at hnd
  exact hnd.2.2 call hm call (by simp) rfl

/-! ## The operations on the index -/

/-- `rd_fcall_remove` on the current call. -/
theorem FresIndex.removeCall_spec (h : idx.Wf (call :: rest)) :
    ∃ rd', idx.removeCall call = some { idx with rd := rd' } ∧ idx.rd.Removes call rd' ∧
      FresIndex.Wf { idx with rd := rd' } rest := by
  obtain ⟨rd', heq, hrem⟩ := rdFcallRemove_spec h.integrity h.current_mem
  obtain ⟨pre, hpre, hvis⟩ := h.visited
  refine ⟨rd', by simp [FresIndex.removeCall, heq], hrem,
    ⟨hrem.integrity, h.placed, h.live, h.old, h.call_inj, pre, ?_, hvis⟩⟩
  rw [hrem.calls, hpre, List.erase_append_right _ (h.current_not_mem hpre), List.erase_cons_head]

/-- Counting a record up or down changes its counter only. -/
theorem FresIndex.countRef_spec (h : idx.Wf rest) {n : Nat} {f : Fres} (hn : idx.table.Stored n)
    (hf : idx.fres n = some f) (step : BitVec 32 → BitVec 32) :
    ∃ idx', idx.countRef n step = some idx' ∧ idx'.Wf rest ∧ idx'.rd = idx.rd ∧
      idx'.table = idx.table ∧ idx'.fres n = some { f with refCount := step f.refCount } ∧
      ∀ m, m ≠ n → idx'.fres m = idx.fres m := by
  set idx' : FresIndex w := { idx with
    fres := Function.update idx.fres n (some { f with refCount := step f.refCount }) } with hidx'
  have hself : idx'.fres n = some { f with refCount := step f.refCount } := Function.update_self ..
  have hother : ∀ m, m ≠ n → idx'.fres m = idx.fres m := fun m hm => Function.update_of_ne hm _ _
  have hhome : ∀ m, idx'.home m = idx.home m := by
    intro m
    by_cases hm : m = n
    · subst hm; simp only [FresIndex.home, hself, hf]
    · simp only [FresIndex.home, hother m hm]
  -- a record of the new index is one of the old, up to its counter
  have hback : ∀ m g, idx'.fres m = some g →
      ∃ g₀, idx.fres m = some g₀ ∧ g.call = g₀.call ∧ g.bucket = g₀.bucket := by
    intro m g hg
    by_cases hm : m = n
    · subst hm
      rw [hself, Option.some.injEq] at hg
      subst hg
      exact ⟨f, hf, rfl, rfl⟩
    · exact ⟨g, (hother m hm).symm.trans hg, rfl, rfl⟩
  obtain ⟨pre, hpre, hvis⟩ := h.visited
  refine ⟨idx', by simp [FresIndex.countRef, hf, hidx'],
    ⟨h.integrity, h.placed.congr (fun m _ => (hhome m).symm), ?_, ?_, ?_, pre, hpre, ?_⟩,
    rfl, rfl, hself, hother⟩
  · intro m hm
    obtain ⟨g, hg, hgb⟩ := h.live m hm
    rw [hhome m]
    by_cases hmn : m = n
    · subst hmn
      rw [hf, Option.some.injEq] at hg
      subst hg
      exact ⟨_, hself, hgb⟩
    · exact ⟨g, (hother m hmn).trans hg, hgb⟩
  · intro m g hg
    obtain ⟨g₀, hg₀, -⟩ := hback m g hg
    exact h.old m g₀ hg₀
  · intro m m' g g' hm hm' hg hg' hcall
    obtain ⟨g₀, hg₀, hc, -⟩ := hback m g hg
    obtain ⟨g₀', hg₀', hc', -⟩ := hback m' g' hg'
    exact h.call_inj m m' g₀ g₀' hm hm' hg₀ hg₀' (by rw [← hc, ← hc', hcall])
  · intro m g hm hg
    obtain ⟨g₀, hg₀, hc, -⟩ := hback m g hg
    rw [hc]; exact hvis m g₀ hm hg₀

/-- Releasing a record takes it out of the table and its call out of the
list. -/
theorem FresIndex.release_spec (h : idx.Wf (call :: rest)) {n : Nat} {f : Fres}
    (hn : idx.table.Stored n) (hf : idx.fres n = some f) :
    ∃ idx', idx.release n = some idx' ∧ idx'.Wf (call :: rest) ∧ idx.rd.Removes f.call idx'.rd ∧
      idx'.table.size = idx.table.size ∧
      (∀ m, idx'.table.Stored m ↔ idx.table.Stored m ∧ m ≠ n) ∧
      ∀ m, m ≠ n → idx'.fres m = idx.fres m := by
  obtain ⟨pre, hpre, hvis⟩ := h.visited
  have hcall : f.call ∈ pre := hvis n f hn hf
  have hmemc : f.call ∈ idx.rd.calls := by rw [hpre]; simp [hcall]
  obtain ⟨rd', heq, hrem⟩ := rdFcallRemove_spec h.integrity hmemc
  obtain ⟨g, hg, hb⟩ := h.live n hn
  rw [hf, Option.some.injEq] at hg
  subst hg
  have hmem : n ∈ idx.table.buckets (idx.home n) := (h.placed.stored_iff n).mp hn
  have hstored := fun m => h.placed.stored_erase hmem m
  set idx' : FresIndex w := { idx with
    rd := rd'
    table := idx.table.setBucket (idx.home n) ((idx.table.buckets (idx.home n)).erase n)
    fres := Function.update idx.fres n none } with hidx'
  have hother : ∀ m, m ≠ n → idx'.fres m = idx.fres m := fun m hm => Function.update_of_ne hm _ _
  have hhome : ∀ m, m ≠ n → idx'.home m = idx.home m := fun m hm => by
    simp only [FresIndex.home, hother m hm]
  refine ⟨idx', ?_, ⟨hrem.integrity, ?_, ?_, ?_, ?_, pre.erase f.call, ?_, ?_⟩, hrem, rfl,
    hstored, hother⟩
  · simp only [FresIndex.release, hf, hb, htableRemoveNode, dlistRemove_of_mem hmem,
      FresIndex.removeCall, heq, Option.bind_eq_bind, Option.bind_some, hidx']
  · exact (h.placed.erase (idx.home n) n).congr fun m hm => (hhome m ((hstored m).mp hm).2).symm
  · intro m hm
    obtain ⟨hm, hmn⟩ := (hstored m).mp hm
    rw [hother m hmn, hhome m hmn]
    exact h.live m hm
  · intro m g hg
    by_cases hmn : m = n
    · rw [hmn, hidx'] at hg; simp at hg
    · exact h.old m g ((hother m hmn).symm.trans hg)
  · intro m m' g g' hm hm' hg hg'
    obtain ⟨hm, hmn⟩ := (hstored m).mp hm
    obtain ⟨hm', hmn'⟩ := (hstored m').mp hm'
    exact h.call_inj m m' g g' hm hm' ((hother m hmn).symm.trans hg) ((hother m' hmn').symm.trans hg')
  · show rd'.calls = pre.erase f.call ++ call :: rest
    rw [hrem.calls, hpre, List.erase_append_left _ hcall]
  · intro m g hm hg
    obtain ⟨hm, hmn⟩ := (hstored m).mp hm
    have hg₀ := (hother m hmn).symm.trans hg
    have hne : g.call ≠ f.call := fun e => hmn (h.call_inj m n g f hm hn hg₀ hf e)
    exact (List.mem_erase_of_ne hne).mpr (hvis m g hm hg₀)

theorem freeFresRec_of_ne (fres : Nat → Option Fres) {r : Option Nat} {m : Nat} (h : r ≠ some m) :
    freeFresRec fres r m = fres m := by
  cases r with
  | none => rfl
  | some old => exact Function.update_of_ne (fun e => h (by rw [e])) _ _

/-- Storing a record for the current call: it takes the place of `r`, the
record the search found. -/
theorem FresIndex.store_spec (h : idx.Wf (call :: rest)) {b : Nat} {r : Option Nat}
    (hfind : htableFind idx.table b (idx.compare call) = some r) :
    ∃ idx', idx.store b call = some idx' ∧ idx'.Wf rest ∧ idx'.rd = idx.rd ∧
      idx'.table.size = idx.table.size ∧
      idx'.fres idx.fresh = some { bucket := some b, call, refCount := 1 } ∧
      (∀ m, idx'.table.Stored m ↔ (idx.table.Stored m ∧ r ≠ some m) ∨ m = idx.fresh) ∧
      ∀ m, idx.table.Stored m → r ≠ some m → idx'.fres m = idx.fres m := by
  obtain ⟨pre, hpre, hvis⟩ := h.visited
  have hnew : ∀ m, idx.table.Stored m → m ≠ idx.fresh := by
    intro m hm
    obtain ⟨f, hf, -⟩ := h.live m hm
    have := h.old m f hf
    omega
  -- the search of `htable_store` runs after the new record has been written
  set idx₁ : FresIndex w := { idx with
    fres := Function.update idx.fres idx.fresh (some { bucket := some b, call, refCount := 1 })
    fresh := idx.fresh + 1 } with hidx₁
  have hsame : ∀ m, m ≠ idx.fresh → idx₁.fres m = idx.fres m := fun m hm =>
    Function.update_of_ne hm _ _
  have hfind₁ : dlistFind (idx₁.compare call) (idx.table.buckets b) = some r := by
    rw [← hfind]
    apply dlistFind_congr
    intro m hm
    simp only [FresIndex.compare, hsame m (hnew m ⟨b, hm⟩)]
    rfl
  have hrold : ∀ old, r = some old → idx.table.Stored old := by
    intro old hr
    rw [hr] at hfind
    exact ⟨b, (dlistFind_some hfind).1⟩
  have hrfresh : r ≠ some idx.fresh := fun hr => hnew _ (hrold _ hr) rfl
  have hkeep : ∀ m, r ≠ some m → freeFresRec idx₁.fres r m = idx₁.fres m :=
    fun m hm => freeFresRec_of_ne _ hm
  have hself : freeFresRec idx₁.fres r idx.fresh
      = some { bucket := some b, call, refCount := 1 } := by
    rw [hkeep _ hrfresh]; exact Function.update_self ..
  have hfres : ∀ m, idx.table.Stored m → r ≠ some m → freeFresRec idx₁.fres r m = idx.fres m :=
    fun m hm hr => by rw [hkeep m hr, hsame m (hnew m hm)]
  -- the new record sits in `b`, the others where they were
  have hhome₁ : idx₁.home idx.fresh = b := by
    simp only [hidx₁, FresIndex.home, Function.update_self, Option.getD_some]
  have hplaced₁ : idx.table.Placed idx₁.home := h.placed.congr fun m hm => by
    simp only [FresIndex.home, hsame m (hnew m hm)]
  obtain ⟨table, hstore, hsize, hplaced, hstored⟩ := htableStore_spec
    (by rw [hhome₁]; exact hfind₁) hplaced₁ (fun hs => hnew _ hs rfl)
  rw [hhome₁] at hstore
  set idx' : FresIndex w := { idx₁ with table, fres := freeFresRec idx₁.fres r } with hidx'
  have hhome : idx'.home idx.fresh = b := by
    simp only [hidx', FresIndex.home, hself, Option.getD_some]
  have hhome' : ∀ m, idx.table.Stored m → r ≠ some m → idx'.home m = idx.home m :=
    fun m hm hr => by simp only [hidx', FresIndex.home, hfres m hm hr]
  refine ⟨idx', ?_, ⟨h.integrity, ?_, ?_, ?_, ?_, pre ++ [call], ?_, ?_⟩, rfl, hsize, hself,
    hstored, hfres⟩
  · simp only [FresIndex.store, ← hidx₁]
    rw [show idx₁.table = idx.table from rfl, hstore]
    rfl
  · refine hplaced.congr fun m hm => ?_
    rcases (hstored m).mp hm with ⟨hm, hr⟩ | rfl
    · rw [hhome' m hm hr]
      simp only [FresIndex.home, hsame m (hnew m hm)]
    · rw [hhome₁, hhome]
  · intro m hm
    rcases (hstored m).mp hm with ⟨hm, hr⟩ | rfl
    · rw [hhome' m hm hr, show idx'.fres m = idx.fres m from hfres m hm hr]
      exact h.live m hm
    · exact ⟨_, hself, by rw [hhome]⟩
  · intro m g hg
    by_cases hr : r = some m
    · simp only [hidx', hr, freeFresRec, Function.update_self] at hg
      cases hg
    · rw [show idx'.fres m = idx₁.fres m from hkeep m hr] at hg
      by_cases hmf : m = idx.fresh
      · show m < idx.fresh + 1
        omega
      · rw [hsame m hmf] at hg
        have := h.old m g hg
        show m < idx.fresh + 1
        omega
  · intro m m' g g' hm hm' hg hg' hcall
    have hfreshcall : ∀ n f, idx.table.Stored n → idx.fres n = some f → f.call ≠ call := by
      intro n f hn hf e
      exact h.current_not_mem hpre (e ▸ hvis n f hn hf)
    rcases (hstored m).mp hm with ⟨hm, hr⟩ | rfl <;> rcases (hstored m').mp hm' with ⟨hm', hr'⟩ | rfl
    · exact h.call_inj m m' g g' hm hm' ((hfres m hm hr).symm.trans hg)
        ((hfres m' hm' hr').symm.trans hg') hcall
    · obtain rfl := Option.some.inj (hself.symm.trans hg')
      exact absurd hcall (hfreshcall m g hm ((hfres m hm hr).symm.trans hg))
    · obtain rfl := Option.some.inj (hself.symm.trans hg)
      exact absurd hcall.symm (hfreshcall m' g' hm' ((hfres m' hm' hr').symm.trans hg'))
    · rfl
  · show idx.rd.calls = pre ++ [call] ++ rest
    rw [hpre, List.append_assoc]; rfl
  · intro m g hm hg
    rcases (hstored m).mp hm with ⟨hm, hr⟩ | rfl
    · exact List.mem_append_left _ (hvis m g hm ((hfres m hm hr).symm.trans hg))
    · obtain rfl := Option.some.inj (hself.symm.trans hg)
      simp

/-- A call that is left alone counts as visited. -/
theorem FresIndex.Wf.skip (h : idx.Wf (call :: rest)) : idx.Wf rest := by
  obtain ⟨pre, hpre, hvis⟩ := h.visited
  refine ⟨h.integrity, h.placed, h.live, h.old, h.call_inj, pre ++ [call], ?_, ?_⟩
  · rw [hpre, List.append_assoc]; rfl
  · intro n f hn hf
    exact List.mem_append_left _ (hvis n f hn hf)

theorem FresIndex.wf_init {rd : Rd w} (h : rd.Integrity) :
    FresIndex.Wf { rd, table := htableInit hashSize, fres := fun _ => none, fresh := 0 }
      rd.calls :=
  ⟨h, placed_htableInit _ _, by rintro n ⟨b, hb⟩; simp at hb, by simp, by simp, [], rfl, by simp⟩

theorem FresIndex.Wf.nodes (h : idx.Wf rest) :
    ∃ pre, idx.rd.calls = pre ++ rest ∧ idx.rd.calls.Nodup := by
  obtain ⟨pre, hpre, -⟩ := h.visited
  exact ⟨pre, hpre, h.integrity.calls_nodup⟩

end SpRtrace.Postproc
