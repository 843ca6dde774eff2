/-
SpRtrace.Postproc.Recount — when reference counting makes no difference.

The calls of one pair are looked at with counting and without. As long as
no allocation follows a live one the two histories are one
(`counted_eq_uncounted`). When one does, the count is above one: the next
release comes too early without counting, and if there is none the second
allocation stays a leak only without counting (`Overridden`).

As in `SpRtrace.Postproc.LeakSpec` calls, pairs and call types are
arbitrary.
-/
import Mathlib
import SpRtrace.Postproc.LeakSpec

namespace SpRtrace.Postproc

section Recount

variable {κ ι : Type} {kind : κ → CallKind}

/-! ## One pair -/

/-- The history of a pair with counting, and without. -/
abbrev countedRun (kind : κ → CallKind) (calls : List κ) : KeyState κ :=
  calls.foldl (countedStep kind) KeyState.init

abbrev uncountedRun (kind : κ → CallKind) (calls : List κ) : KeyState κ :=
  calls.foldl (uncountedStep kind) KeyState.init

theorem countedRun_snoc (calls : List κ) (c : κ) :
    countedRun kind (calls ++ [c]) = countedStep kind (countedRun kind calls) c := by
  rw [countedRun, List.foldl_append]
  rfl

theorem uncountedRun_snoc (calls : List κ) (c : κ) :
    uncountedRun kind (calls ++ [c]) = uncountedStep kind (uncountedRun kind calls) c := by
  rw [uncountedRun, List.foldl_append]
  rfl

/-- Without counting a release cancels something exactly if with counting
it brings the references to zero. -/
def ReleasesAgree (kind : κ → CallKind) (calls : List κ) : Prop :=
  ∀ pre c post, calls = pre ++ c :: post → kind c = .free →
    ((uncountedRun kind pre).live ≠ [] ↔ (countedRun kind pre).refs = 1)

theorem ReleasesAgree.of_append {calls calls' : List κ} (h : ReleasesAgree kind (calls ++ calls')) :
    ReleasesAgree kind calls := by
  intro pre c post heq hk
  exact h pre c (post ++ calls') (by rw [heq]; simp) hk

/-- The two histories of a pair as long as releases agree: the count is
the number of live allocations, of which the oldest is tracked, and more
than one of them means that counting has dropped the most recent. -/
structure SideBySide (kind : κ → CallKind) (calls : List κ) : Prop where
  refs : (countedRun kind calls).refs = (uncountedRun kind calls).live.length
  live : (countedRun kind calls).live = (uncountedRun kind calls).live.getLast?.toList
  dropped : ∀ x ∈ (uncountedRun kind calls).dropped, x ∈ (countedRun kind calls).dropped
  again : ∀ a b rest, (uncountedRun kind calls).live = a :: b :: rest →
    a ∈ (countedRun kind calls).dropped
  alternates : (uncountedRun kind calls).live.length ≤ 1 → Alternates kind calls ∧
    (countedRun kind calls).dropped = (uncountedRun kind calls).dropped

theorem sideBySide {calls : List κ} (hnd : calls.Nodup) (h : ReleasesAgree kind calls) :
    SideBySide kind calls := by
  induction calls using List.reverseRecOn with
  | nil =>
    refine ⟨rfl, rfl, fun x hx => hx, fun a b rest hlive => absurd hlive (by simp [KeyState.init]),
      fun _ => ⟨?_, rfl⟩⟩
    intro pre c post heq
    exact absurd heq (by simp)
  | append_singleton calls c ih =>
    have ih := ih (List.nodup_append.mp hnd).1 h.of_append
    have hagree := h calls c [] rfl
    have hunc : uncountedRun kind (calls ++ [c]) = uncountedStep kind (uncountedRun kind calls) c :=
      uncountedRun_snoc calls c
    have hcnt : countedRun kind (calls ++ [c]) = countedStep kind (countedRun kind calls) c :=
      countedRun_snoc calls c
    cases hk : kind c with
    | other =>
      rw [uncountedStep, hk] at hunc
      rw [countedStep, hk] at hcnt
      simp only at hunc hcnt
      refine ⟨?_, ?_, ?_, ?_, ?_⟩ <;> rw [hunc, hcnt]
      · exact ih.refs
      · exact ih.live
      · exact ih.dropped
      · exact ih.again
      · exact fun hlen => ⟨(ih.alternates hlen).1.snoc fun e => absurd (hk.symm.trans e) (by simp),
          (ih.alternates hlen).2⟩
    | alloc =>
      rw [uncountedStep, hk] at hunc
      rw [countedStep, hk] at hcnt
      simp only at hunc hcnt
      cases hlive : (uncountedRun kind calls).live with
      | nil =>
        have hnone : (countedRun kind calls).live = [] := by rw [ih.live, hlive]; rfl
        have hsame := ih.alternates (by rw [hlive]; exact Nat.zero_le 1)
        rw [hnone] at hcnt
        rw [hlive] at hunc
        refine ⟨?_, ?_, ?_, ?_, ?_⟩ <;> rw [hunc, hcnt]
        · rfl
        · rfl
        · exact ih.dropped
        · intro a b rest heq
          exact absurd heq (by simp)
        · refine fun _ => ⟨hsame.1.snoc fun _ => ?_, hsame.2⟩
          have hlast := (foldl_uncountedStep (List.nodup_append.mp hnd).1 hsame.1).1
          rw [← uncountedRun, hlive] at hlast
          exact Option.toList_eq_nil_iff.mp hlast.symm
      | cons a rest =>
        have hsome : ∃ b, (countedRun kind calls).live = [b] := by
          rw [ih.live, hlive, List.getLast?_cons]
          exact ⟨_, rfl⟩
        obtain ⟨b, hb⟩ := hsome
        rw [hb] at hcnt
        rw [hlive] at hunc
        simp only at hcnt
        refine ⟨?_, ?_, ?_, ?_, ?_⟩ <;> rw [hunc, hcnt]
        · rw [ih.refs, hlive]
          rfl
        · show [b] = (c :: a :: rest).getLast?.toList
          rw [← hb, ih.live, hlive, List.getLast?_cons_cons]
        · exact fun x hx => List.mem_cons_of_mem _ (ih.dropped x hx)
        · intro a' b' rest' heq
          obtain ⟨rfl, -⟩ := List.cons.inj heq
          exact List.mem_cons_self ..
        · intro hlen
          exact absurd hlen (by simp)
    | free =>
      rw [uncountedStep, hk] at hunc
      rw [countedStep, hk] at hcnt
      simp only at hunc hcnt
      cases hlive : (uncountedRun kind calls).live with
      | nil =>
        have hnone : (countedRun kind calls).live = [] := by rw [ih.live, hlive]; rfl
        have hsame := ih.alternates (by rw [hlive]; exact Nat.zero_le 1)
        rw [hnone] at hcnt
        rw [hlive] at hunc
        simp only at hcnt hunc
        refine ⟨?_, ?_, ?_, ?_, ?_⟩ <;> rw [hunc, hcnt]
        · rw [ih.refs, hlive]
        · rfl
        · intro x hx
          rw [hsame.2]
          exact hx
        · intro a b rest heq
          exact absurd heq (by simp)
        · exact fun _ => ⟨hsame.1.snoc fun e => absurd (hk.symm.trans e) (by simp), by rw [hsame.2]⟩
      | cons a rest =>
        -- the release has to bring the references to zero
        have hone : (countedRun kind calls).refs = 1 :=
          (hagree hk).mp (by rw [hlive]; simp)
        have hrest : rest = [] := by
          have hlen := ih.refs
          rw [hone, hlive, List.length_cons] at hlen
          exact List.length_eq_zero_iff.mp (by omega)
        subst hrest
        have hsame := ih.alternates (by rw [hlive]; exact Nat.le_refl 1)
        have ha : (countedRun kind calls).live = [a] := by rw [ih.live, hlive]; rfl
        rw [ha, hone] at hcnt
        rw [hlive] at hunc
        simp only [if_true] at hcnt hunc
        refine ⟨?_, ?_, ?_, ?_, ?_⟩ <;> rw [hunc, hcnt]
        · rfl
        · rfl
        · intro x hx
          rw [hsame.2]
          exact hx
        · intro a b rest heq
          exact absurd heq (by simp)
        · exact fun _ => ⟨hsame.1.snoc fun e => absurd (hk.symm.trans e) (by simp), by rw [hsame.2]⟩

/-- **While no allocation follows a live one** the two histories are one. -/
theorem counted_eq_uncounted {calls : List κ} (hnd : calls.Nodup) (h : Alternates kind calls) :
    (countedRun kind calls).live = (uncountedRun kind calls).live ∧
      (countedRun kind calls).dropped = (uncountedRun kind calls).dropped ∧
      (countedRun kind calls).refs = (lastLive kind calls).toList.length := by
  induction calls using List.reverseRecOn with
  | nil => exact ⟨rfl, rfl, rfl⟩
  | append_singleton calls c ih =>
    have hnd' := (List.nodup_append.mp hnd).1
    obtain ⟨hlive, hdropped, hrefs⟩ := ih hnd' h.of_append
    have hlast := (foldl_uncountedStep hnd' h.of_append).1
    rw [countedRun_snoc, uncountedRun_snoc, lastLive_snoc]
    cases hk : kind c with
    | other =>
      simp only [countedStep, uncountedStep, hk]
      exact ⟨hlive, hdropped, hrefs⟩
    | alloc =>
      have hnone : (uncountedRun kind calls).live = [] := by
        rw [uncountedRun, hlast, h calls c [] rfl hk]
        rfl
      simp only [countedStep, uncountedStep, hk, hlive, hnone, true_and]
      exact ⟨hdropped, rfl⟩
    | free =>
      cases hl : lastLive kind calls with
      | none =>
        have hnone : (uncountedRun kind calls).live = [] := by rw [uncountedRun, hlast, hl]; rfl
        rw [hl] at hrefs
        simp only [countedStep, uncountedStep, hk, hlive, hnone, hdropped, hrefs, true_and]
      | some a =>
        have hsome : (uncountedRun kind calls).live = [a] := by rw [uncountedRun, hlast, hl]; rfl
        have hone : (countedRun kind calls).refs = 1 := by rw [hrefs, hl]; rfl
        simp only [countedStep, uncountedStep, hk, hlive, hsome, hdropped, hone, if_true, true_and]
        rfl

theorem releasesAgree_of_alternates {calls : List κ} (hnd : calls.Nodup)
    (h : Alternates kind calls) : ReleasesAgree kind calls := by
  intro pre c post heq _
  have hpre : Alternates kind pre := by
    rw [heq] at h
    exact h.of_append
  have hnd' : pre.Nodup := by
    rw [heq] at hnd
    exact (List.nodup_append.mp hnd).1
  obtain ⟨-, -, hrefs⟩ := counted_eq_uncounted hnd' hpre
  have hlive := (foldl_uncountedStep hnd' hpre).1
  rw [hrefs, uncountedRun, hlive]
  cases lastLive kind pre with
  | none => simp
  | some a => simp

/-! ## All pairs -/

variable {key : κ → ι} {counted : ι → Bool} [DecidableEq ι]

theorem keyRun_uncounted (calls : List κ) (k : ι) :
    keyRun kind key (fun _ => false) calls k
      = uncountedRun kind (calls.filter fun c => key c = k) := rfl

theorem keyRun_counted (calls : List κ) {k : ι} (hk : counted k = true) :
    keyRun kind key counted calls k = countedRun kind (calls.filter fun c => key c = k) := by
  rw [keyRun, hk]
  rfl

theorem keyRun_notCounted (calls : List κ) {k : ι} (hk : counted k = false) :
    keyRun kind key counted calls k = keyRun kind key (fun _ => false) calls k := by
  rw [keyRun, hk]
  rfl

/-- `ReleasesAgree` for the releases of all counted pairs in a list of
calls. -/
def AllReleasesAgree (kind : κ → CallKind) (key : κ → ι) (counted : ι → Bool) (calls : List κ) :
    Prop :=
  ∀ pre c post, calls = pre ++ c :: post → counted (key c) = true → kind c = .free →
    ((keyRun kind key (fun _ => false) pre (key c)).live ≠ [] ↔
      (keyRun kind key counted pre (key c)).refs = 1)

theorem AllReleasesAgree.pair {calls : List κ} (h : AllReleasesAgree kind key counted calls) {k : ι}
    (hk : counted k = true) : ReleasesAgree kind (calls.filter fun c => key c = k) := by
  intro pre' c post' heq hfree
  obtain ⟨pre, rest, rfl, hpre, hrest⟩ := List.filter_eq_append_iff.mp heq
  obtain ⟨skip, post, rfl, hskip, hc, -⟩ := List.filter_eq_cons_iff.mp hrest
  have hkey : key c = k := by simpa using hc
  have hfilter : (pre ++ skip).filter (fun c => key c = k) = pre' := by
    rw [List.filter_append, hpre, List.filter_eq_nil_iff.mpr (by simpa using hskip),
      List.append_nil]
  have hagree := h (pre ++ skip) c post (by simp) (by rw [hkey]; exact hk) hfree
  rw [hkey, keyRun_uncounted, keyRun_counted _ hk, hfilter] at hagree
  exact hagree

/-- A release finds one reference at most while releases agree. -/
theorem AllReleasesAgree.refs_le {calls pre post : List κ} {c : κ} (hnd : calls.Nodup)
    (h : AllReleasesAgree kind key counted calls) (heq : calls = pre ++ c :: post)
    (hk : counted (key c) = true) (hfree : kind c = .free) :
    (keyRun kind key counted pre (key c)).refs ≤ 1 := by
  have hagree := h pre c post heq hk hfree
  have hpair := h.pair hk
  rw [heq, List.filter_append] at hpair
  rw [heq] at hnd
  have hside := sideBySide ((List.nodup_append.mp hnd).1.filter _) hpair.of_append
  rw [keyRun_uncounted, keyRun_counted _ hk] at hagree
  rw [keyRun_counted _ hk]
  by_cases hlive : (uncountedRun kind (pre.filter fun d => key d = key c)).live = []
  · rw [hside.refs, hlive]
    exact Nat.zero_le 1
  · exact (hagree.mp hlive).le

theorem allReleasesAgree_of_alternates {calls : List κ} (hnd : calls.Nodup)
    (h : ∀ k, counted k = true → Alternates kind (calls.filter fun c => key c = k)) :
    AllReleasesAgree kind key counted calls := by
  intro pre c post heq hk hfree
  have hagree := releasesAgree_of_alternates (hnd.filter _) (h (key c) hk)
    (pre.filter fun d => key d = key c) c (post.filter fun d => key d = key c)
    (by rw [heq, List.filter_append, List.filter_cons_of_pos (by simp)]) hfree
  rw [keyRun_uncounted, keyRun_counted _ hk]
  exact hagree

variable [DecidableEq κ]

/-- Counting drops no fewer calls while releases agree. -/
theorem keptCalls_subset {calls : List κ} (hnd : calls.Nodup)
    (h : AllReleasesAgree kind key counted calls) :
    keptCalls kind key counted calls ⊆ keptCalls kind key (fun _ => false) calls := by
  intro c hc
  obtain ⟨hmem, hkept⟩ := List.mem_filter.mp hc
  refine List.mem_filter.mpr ⟨hmem, ?_⟩
  rw [decide_eq_true_eq] at hkept ⊢
  intro hdropped
  refine hkept ?_
  cases hk : counted (key c) with
  | false =>
    rw [keyRun_notCounted _ hk]
    exact hdropped
  | true =>
    rw [keyRun_counted _ hk]
    exact (sideBySide (hnd.filter _) (h.pair hk)).dropped c hdropped

/-- **When counting makes no difference**: every release agrees and as many
calls are kept, if and only if no allocation of a counted pair follows a
live one. -/
theorem recount_iff {calls : List κ} (hnd : calls.Nodup) :
    AllReleasesAgree kind key counted calls ∧
        (keptCalls kind key counted calls).length
          = (keptCalls kind key (fun _ => false) calls).length ↔
      ∀ k, counted k = true → Alternates kind (calls.filter fun c => key c = k) := by
  constructor
  · intro ⟨hagree, hlen⟩ k hk
    have hside := sideBySide (hnd.filter _) (hagree.pair hk)
    refine (hside.alternates ?_).1
    by_contra hmany
    obtain ⟨a, b, rest, hlive⟩ : ∃ a b rest,
        (uncountedRun kind (calls.filter fun c => key c = k)).live = a :: b :: rest := by
      match hl : (uncountedRun kind (calls.filter fun c => key c = k)).live with
      | [] => exact absurd hmany (by rw [hl]; simp)
      | [a] => exact absurd hmany (by rw [hl]; simp)
      | a :: b :: rest => exact ⟨a, b, rest, rfl⟩
    -- the most recent allocation is kept without counting only
    have hwf : (keyRun kind key (fun _ => false) calls k).Wf kind key (fun _ => false) calls k :=
    keyRun_wf hnd k
    rw [keyRun_uncounted] at hwf
    obtain ⟨hmem, hkey⟩ := hwf.live_mem a (by rw [hlive]; exact List.mem_cons_self ..)
    have hkept : a ∈ keptCalls kind key (fun _ => false) calls := by
      refine List.mem_filter.mpr ⟨hmem, ?_⟩
      rw [decide_eq_true_eq, hkey, keyRun_uncounted]
      exact hwf.live_kept a (by rw [hlive]; exact List.mem_cons_self ..)
    have hnodup : (keptCalls kind key counted calls).Nodup := hnd.filter _
    have hperm := (List.subperm_of_subset hnodup (keptCalls_subset hnd hagree)).perm_of_length_le
      (Nat.le_of_eq hlen.symm)
    have hboth := (List.mem_filter.mp (hperm.mem_iff.mpr hkept)).2
    rw [decide_eq_true_eq, hkey, keyRun_counted _ hk] at hboth
    exact hboth (hside.again a b rest hlive)
  · intro h
    refine ⟨allReleasesAgree_of_alternates hnd h, ?_⟩
    congr 1
    refine List.filter_congr fun c _ => ?_
    cases hk : counted (key c) with
    | false => rw [keyRun_notCounted _ hk]
    | true =>
      rw [keyRun_counted _ hk, keyRun_uncounted,
        (counted_eq_uncounted (hnd.filter _) (h (key c) hk)).2.1]

/-! ## Overridden allocations -/

/-- Without counting: the call is kept, but a release of its pair would
cancel another one. -/
def Overridden (kind : κ → CallKind) (key : κ → ι) (calls : List κ) (x : κ) : Prop :=
  x ∈ keptCalls kind key (fun _ => false) calls ∧
    (keyRun kind key (fun _ => false) calls (key x)).live.head? ≠ some x

theorem mem_keptCalls_snoc {calls : List κ} {c x : κ} (hnd : (calls ++ [c]).Nodup) :
    x ∈ keptCalls kind key (fun _ => false) (calls ++ [c]) ↔
      (x ∈ keptCalls kind key (fun _ => false) calls ∨ x = c) ∧
        x ∉ stepDrops false kind (keyRun kind key (fun _ => false) calls (key c)) c := by
  rw [keptCalls_snoc hnd, List.mem_filter, List.mem_append, List.mem_singleton, decide_eq_true_eq]

theorem head_of_mem {calls : List κ} (hnd : calls.Nodup) {k : ι} {x : κ}
    (h : (keyRun kind key (fun _ => false) calls k).live.head? = some x) :
    x ∈ keptCalls kind key (fun _ => false) calls ∧ key x = k := by
  have hwf : (keyRun kind key (fun _ => false) calls k).Wf kind key (fun _ => false) calls k :=
    keyRun_wf hnd k
  have hmem := List.mem_of_mem_head? h
  obtain ⟨hx, hkey⟩ := hwf.live_mem x hmem
  refine ⟨List.mem_filter.mpr ⟨hx, ?_⟩, hkey⟩
  rw [decide_eq_true_eq, hkey]
  exact hwf.live_kept x hmem

/-- An allocation overrides the one that a release would have cancelled. -/
theorem overridden_alloc {calls : List κ} {c x : κ} (hnd : (calls ++ [c]).Nodup)
    (hk : kind c = .alloc) :
    Overridden kind key (calls ++ [c]) x ↔
      Overridden kind key calls x ∨
        (keyRun kind key (fun _ => false) calls (key c)).live.head? = some x := by
  have hnd' := List.nodup_append.mp hnd
  have hc : c ∉ calls := fun hm => hnd'.2.2 c hm c (by simp) rfl
  have hkept : x ∈ keptCalls kind key (fun _ => false) (calls ++ [c]) ↔
      x ∈ keptCalls kind key (fun _ => false) calls ∨ x = c := by
    rw [mem_keptCalls_snoc hnd, stepDrops, hk]
    simp
  rw [Overridden, Overridden, hkept]
  by_cases hkey : key x = key c
  · rw [hkey, keyRun_snoc_self, keyStep, if_neg (by simp), uncountedStep, hk]
    simp only [List.head?_cons, ne_eq, Option.some.injEq]
    by_cases hxc : x = c
    · subst hxc
      simp only [or_true, not_true_eq_false, and_false, false_iff, not_or, not_and]
      refine ⟨fun hx => absurd (List.mem_filter.mp hx).1 hc, fun hx => ?_⟩
      exact hc (List.mem_filter.mp (head_of_mem hnd'.1 hx).1).1
    · simp only [hxc, or_false, Ne.symm hxc, not_false_eq_true, and_true]
      constructor
      · intro hx
        by_cases hhead : (keyRun kind key (fun _ => false) calls (key c)).live.head? = some x
        · exact Or.inr hhead
        · exact Or.inl ⟨hx, hhead⟩
      · rintro (hx | hx)
        · exact hx.1
        · exact (head_of_mem hnd'.1 hx).1
  · have hxc : x ≠ c := fun e => hkey (by rw [e])
    rw [keyRun_snoc_ne kind key _ calls (Ne.symm hkey)]
    simp only [hxc, or_false]
    refine ⟨Or.inl, fun h => h.resolve_right fun hx => hkey (head_of_mem hnd'.1 hx).2⟩

/-- A release overrides nothing. -/
theorem overridden_free {calls : List κ} {c x : κ} (hnd : (calls ++ [c]).Nodup)
    (hk : kind c = .free) :
    Overridden kind key (calls ++ [c]) x ↔ Overridden kind key calls x := by
  have hnd' := List.nodup_append.mp hnd
  have hc : c ∉ calls := fun hm => hnd'.2.2 c hm c (by simp) rfl
  have hcx : x ∈ keptCalls kind key (fun _ => false) calls → x ≠ c := fun hx e =>
    hc (e ▸ (List.mem_filter.mp hx).1)
  rw [Overridden, Overridden, mem_keptCalls_snoc hnd]
  cases hlive : (keyRun kind key (fun _ => false) calls (key c)).live with
  | nil =>
    have hdrops : stepDrops false kind (keyRun kind key (fun _ => false) calls (key c)) c = [c] := by
      rw [stepDrops, hk, hlive]
    have hkept : (x ∈ keptCalls kind key (fun _ => false) calls ∨ x = c) ∧ x ∉ [c] ↔
        x ∈ keptCalls kind key (fun _ => false) calls := by
      rw [List.mem_singleton]
      exact ⟨fun h => h.1.resolve_right h.2, fun h => ⟨Or.inl h, hcx h⟩⟩
    rw [hdrops, hkept]
    by_cases hkey : key x = key c
    · rw [hkey, keyRun_snoc_self, keyStep, if_neg (by simp), uncountedStep, hk]
      simp only [hlive]
    · rw [keyRun_snoc_ne kind key _ calls (Ne.symm hkey)]
  | cons a rest =>
    have hhead : (keyRun kind key (fun _ => false) calls (key c)).live.head? = some a := by
      rw [hlive]
      rfl
    have hkept : (x ∈ keptCalls kind key (fun _ => false) calls ∨ x = c) ∧ x ∉ [c, a] ↔
        x ∈ keptCalls kind key (fun _ => false) calls ∧ x ≠ a := by
      simp only [List.mem_cons, List.not_mem_nil, or_false, not_or]
      exact ⟨fun h => ⟨h.1.resolve_right h.2.1, h.2.2⟩, fun h => ⟨Or.inl h.1, hcx h.1, h.2⟩⟩
    have hdrops : stepDrops false kind (keyRun kind key (fun _ => false) calls (key c)) c
        = [c, a] := by
      rw [stepDrops, hk, hlive]
      rfl
    rw [hdrops, hkept]
    by_cases hkey : key x = key c
    · rw [hkey, keyRun_snoc_self, keyStep, if_neg (by simp), uncountedStep, hk]
      simp [hlive, eq_comm]
    · have hxa : x ≠ a := fun e => hkey (by rw [e]; exact (head_of_mem hnd'.1 hhead).2)
      rw [keyRun_snoc_ne kind key _ calls (Ne.symm hkey)]
      simp [hxa]

end Recount

end SpRtrace.Postproc
