/-
SpRtrace.Postproc.LeakLaws — laws of the reference semantics of leaks.

A filter that keeps or drops the calls of a pair together can be applied
before or after the leaks are looked for (`keptCalls_filter`), and looking
for leaks among leaks finds them all again (`keptCalls_keptCalls`). Neither
is true of a filter that takes single calls of a pair: without its release
an allocation becomes a leak.
-/
import SpRtrace.Postproc.LeakSpec

namespace SpRtrace.Postproc

section LeakLaws

variable {κ ι : Type} [DecidableEq ι] {kind : κ → CallKind} {key : κ → ι} {counted : ι → Bool}

/-! ## Filters of pairs -/

/-- The history of a pair whose calls are all left. -/
theorem keyRun_filter (calls : List κ) {p : κ → Bool} {k : ι} (hp : ∀ c, key c = k → p c = true) :
    keyRun kind key counted (calls.filter p) k = keyRun kind key counted calls k := by
  have hsame : (calls.filter p).filter (fun c => key c = k) = calls.filter fun c => key c = k := by
    rw [List.filter_filter]
    refine List.filter_congr fun c _ => ?_
    by_cases hc : key c = k
    · simp [hc, hp c hc]
    · simp [hc]
  rw [keyRun, keyRun, hsame]

/-- **Leaks of some pairs** are the leaks that are of these pairs. -/
theorem keptCalls_filter [DecidableEq κ] (calls : List κ) {p : κ → Bool}
    (hp : ∀ c d, key c = key d → p c = p d) :
    keptCalls kind key counted (calls.filter p) = (keptCalls kind key counted calls).filter p := by
  rw [keptCalls, keptCalls, List.filter_filter, List.filter_filter]
  refine List.filter_congr fun c _ => ?_
  cases hc : p c with
  | false => simp
  | true =>
    rw [keyRun_filter calls fun d hd => (hp d c hd).trans hc]
    simp

/-! ## Leaks of leaks -/

/-- A release is dropped. -/
theorem free_mem_dropped {calls : List κ} {c : κ} (hc : c ∈ calls) (hkind : kind c = .free) :
    c ∈ (keyRun kind key counted calls (key c)).dropped := by
  induction calls using List.reverseRecOn with
  | nil => cases hc
  | append_singleton calls d ih =>
    rcases List.mem_append.mp hc with hc | hc
    · have ih := ih hc
      by_cases hk : key d = key c
      · rw [← hk, keyRun_snoc_self, keyStep_dropped, hk]
        exact List.mem_append_right _ ih
      · rwa [keyRun_snoc_ne kind key counted calls hk]
    · obtain rfl := List.mem_singleton.mp hc
      rw [keyRun_snoc_self, keyStep_dropped]
      refine List.mem_append_left _ ?_
      simp only [stepDrops, hkind]
      split
      · exact List.mem_singleton_self _
      · split <;> exact List.mem_cons_self

/-- The allocations of a reference counted resource: at most one is
tracked, the others are dropped. -/
structure KeyState.Tracks (kind : κ → CallKind) (calls : List κ) (s : KeyState κ) : Prop where
  alloc : ∀ c ∈ calls, kind c = .alloc → c ∈ s.dropped ∨ c ∈ s.live
  single : s.live.length ≤ 1

theorem KeyState.Tracks.step {calls : List κ} {s : KeyState κ} (h : s.Tracks kind calls) (c : κ) :
    (countedStep kind s c).Tracks kind (calls ++ [c]) := by
  have hsingle := h.single
  have hsplit : ∀ d ∈ calls ++ [c], kind d = .alloc → (d ∈ s.dropped ∨ d ∈ s.live) ∨ d = c := by
    intro d hd hkind
    rcases List.mem_append.mp hd with hd | hd
    · exact .inl (h.alloc d hd hkind)
    · exact .inr (List.mem_singleton.mp hd)
  cases hk : kind c with
  | other =>
    simp only [countedStep, hk]
    refine ⟨fun d hd hkind => ?_, hsingle⟩
    rcases hsplit d hd hkind with hin | rfl
    · exact hin
    · simp [hk] at hkind
  | alloc =>
    cases hlive : s.live with
    | nil =>
      simp only [countedStep, hk, hlive]
      refine ⟨fun d hd hkind => ?_, by simp⟩
      rcases hsplit d hd hkind with (hin | hin) | rfl
      · exact .inl hin
      · simp [hlive] at hin
      · simp
    | cons a rest =>
      simp only [countedStep, hk, hlive]
      refine ⟨fun d hd hkind => ?_, by simpa [hlive] using hsingle⟩
      rcases hsplit d hd hkind with (hin | hin) | rfl
      · exact .inl (List.mem_cons_of_mem _ hin)
      · exact .inr (hlive ▸ hin)
      · exact .inl List.mem_cons_self
  | free =>
    cases hlive : s.live with
    | nil =>
      simp only [countedStep, hk, hlive]
      refine ⟨fun d hd hkind => ?_, by simp⟩
      rcases hsplit d hd hkind with (hin | hin) | rfl
      · exact .inl (List.mem_cons_of_mem _ hin)
      · simp [hlive] at hin
      · simp [hk] at hkind
    | cons a rest =>
      obtain rfl : rest = [] := by simpa [hlive] using hsingle
      simp only [countedStep, hk, hlive]
      split
      · refine ⟨fun d hd hkind => ?_, by simp⟩
        rcases hsplit d hd hkind with (hin | hin) | rfl
        · exact .inl (List.mem_cons_of_mem _ (List.mem_cons_of_mem _ hin))
        · obtain rfl : d = a := by simpa [hlive] using hin
          simp
        · simp [hk] at hkind
      · refine ⟨fun d hd hkind => ?_, by simp⟩
        rcases hsplit d hd hkind with (hin | hin) | rfl
        · exact .inl (List.mem_cons_of_mem _ hin)
        · exact .inr (hlive ▸ hin)
        · simp [hk] at hkind

theorem keyRun_tracks (calls : List κ) {k : ι} (hcount : counted k = true) :
    (keyRun kind key counted calls k).Tracks kind (calls.filter fun c => key c = k) := by
  induction calls using List.reverseRecOn with
  | nil => exact ⟨by simp, by simp [KeyState.init]⟩
  | append_singleton calls c ih =>
    by_cases hk : key c = k
    · subst hk
      rw [keyRun_snoc_self, hcount, List.filter_append]
      simpa [keyStep] using ih.step c
    · rw [keyRun_snoc_ne kind key counted calls hk]
      simpa [hk] using ih

/-- Calls that a history leaves alone: no releases, and of a counted pair
one allocation only. -/
structure Settled (kind : κ → CallKind) (key : κ → ι) (counted : ι → Bool) (calls : List κ) : Prop where
  no_free : ∀ c ∈ calls, kind c ≠ .free
  one_alloc : ∀ c ∈ calls, ∀ d ∈ calls, key c = key d → counted (key c) = true →
    kind c = .alloc → kind d = .alloc → c = d

theorem Settled.keyRun_dropped {calls : List κ} (h : Settled kind key counted calls) (hnd : calls.Nodup)
    (k : ι) : (keyRun kind key counted calls k).dropped = [] := by
  induction calls using List.reverseRecOn with
  | nil => rfl
  | append_singleton calls c ih =>
    have hnd' := List.nodup_append.mp hnd
    have hinit : Settled kind key counted calls :=
      ⟨fun d hd => h.no_free d (List.mem_append_left _ hd), fun d hd e he =>
        h.one_alloc d (List.mem_append_left _ hd) e (List.mem_append_left _ he)⟩
    have ih := ih hinit hnd'.1
    by_cases hk : key c = k
    · subst hk
      rw [keyRun_snoc_self, keyStep_dropped, ih, List.append_nil]
      unfold stepDrops
      cases hkind : kind c with
      | other => rfl
      | free => exact absurd hkind (h.no_free c (by simp))
      | alloc =>
        -- a live allocation of the pair would be another one
        have hwf : (keyRun kind key counted calls (key c)).Wf kind key counted calls (key c) :=
          keyRun_wf hnd'.1 (key c)
        refine if_neg fun hdrop => ?_
        simp only [Bool.and_eq_true, Bool.not_eq_true', List.isEmpty_eq_false_iff] at hdrop
        obtain ⟨a, ha⟩ := List.exists_mem_of_ne_nil _ hdrop.2
        obtain ⟨hmem, hkey⟩ := hwf.live_mem a ha
        have heq := h.one_alloc c (by simp) a (List.mem_append_left _ hmem) hkey.symm hdrop.1 hkind
          (hwf.live_kind a ha)
        exact hnd'.2.2 a hmem c (by simp) heq.symm
    · rwa [keyRun_snoc_ne kind key counted calls hk]

theorem keptCalls_settled [DecidableEq κ] (calls : List κ) :
    Settled kind key counted (keptCalls kind key counted calls) := by
  constructor
  · intro c hc hkind
    obtain ⟨hmem, hkept⟩ := List.mem_filter.mp hc
    exact of_decide_eq_true hkept (free_mem_dropped hmem hkind)
  · intro c hc d hd hkey hcount hkc hkd
    obtain ⟨hcmem, hckept⟩ := List.mem_filter.mp hc
    obtain ⟨hdmem, hdkept⟩ := List.mem_filter.mp hd
    have htracks : (keyRun kind key counted calls (key c)).Tracks kind (calls.filter fun d => key d = key c) :=
      keyRun_tracks calls hcount
    rw [← hkey] at hdkept
    have hlive : ∀ x ∈ calls, key x = key c → kind x = .alloc →
        x ∉ (keyRun kind key counted calls (key c)).dropped →
        x ∈ (keyRun kind key counted calls (key c)).live := fun x hx hkx hkind hkept =>
      (htracks.alloc x (by simp [hx, hkx]) hkind).resolve_left hkept
    have hclive := hlive c hcmem rfl hkc (of_decide_eq_true hckept)
    have hdlive := hlive d hdmem hkey.symm hkd (of_decide_eq_true hdkept)
    obtain ⟨a, ha⟩ := List.length_eq_one_iff.mp
      (le_antisymm htracks.single (List.length_pos_of_mem hclive))
    rw [ha, List.mem_singleton] at hclive hdlive
    exact hclive.trans hdlive.symm

/-- **Leaks of leaks** are all of them. -/
theorem keptCalls_keptCalls [DecidableEq κ] {calls : List κ} (hnd : calls.Nodup) :
    keptCalls kind key counted (keptCalls kind key counted calls) = keptCalls kind key counted calls := by
  have hsettled : Settled kind key counted (keptCalls kind key counted calls) := keptCalls_settled calls
  refine List.filter_eq_self.mpr fun c _ => ?_
  rw [hsettled.keyRun_dropped (hnd.filter _)]
  rfl

end LeakLaws

end SpRtrace.Postproc
