/-
SpRtrace.Postproc.LeakSpec — what a leak is: a reference semantics for
sequences of allocations and releases.

The calls of one (resource, resource id) pair are looked at on their own.
For an uncounted resource a release cancels the most recent allocation
made since the previous matched release; older ones stay leaks. For a
reference counted resource the first allocation is tracked, further ones
only add a reference, and the tracked one goes when the count reaches
zero. Releases are never leaks, calls of another type always stay.

Nothing here knows of lists of records, hash tables or removal during
iteration: calls, pairs and call types are arbitrary types and functions.
`SpRtrace.Postproc.FilterTheorems` shows that `filter_leaks` computes
`keptCalls`, and the memory module is verified against `keptCalls` alone.
-/
import Mathlib

namespace SpRtrace.Postproc

/-- What a call does to its resource. -/
inductive CallKind
  | alloc
  | free
  | other
  deriving DecidableEq, Repr

section LeakSpec

variable {κ ι : Type}

/-- The history of one pair. `live` are the allocations a release can
still cancel, the most recent first; `refs` counts the references of a
counted resource; `dropped` are the calls that are no leaks. -/
structure KeyState (κ : Type) where
  live : List κ
  refs : Nat
  dropped : List κ

/-- Nothing has happened to the pair yet. -/
def KeyState.init : KeyState κ := { live := [], refs := 0, dropped := [] }

/-- One call on a resource without reference counting. -/
def uncountedStep (kind : κ → CallKind) (s : KeyState κ) (c : κ) : KeyState κ :=
  match kind c with
  | .alloc => { s with live := c :: s.live }
  | .free =>
      match s.live with
      | [] => { s with dropped := c :: s.dropped }
      -- a matched release: older allocations cannot be cancelled any more
      | a :: _ => { s with live := [], dropped := c :: a :: s.dropped }
  | .other => s

/-- One call on a reference counted resource. -/
def countedStep (kind : κ → CallKind) (s : KeyState κ) (c : κ) : KeyState κ :=
  match kind c with
  | .alloc =>
      match s.live with
      | [] => { s with live := [c], refs := 1 }
      | _ :: _ => { s with refs := s.refs + 1, dropped := c :: s.dropped }
  | .free =>
      match s.live with
      | [] => { s with dropped := c :: s.dropped }
      | a :: _ =>
          if s.refs = 1 then { live := [], refs := 0, dropped := c :: a :: s.dropped }
          else { s with refs := s.refs - 1, dropped := c :: s.dropped }
  | .other => s

/-- One call on a resource that is counted or not. -/
def keyStep (counted : Bool) (kind : κ → CallKind) : KeyState κ → κ → KeyState κ :=
  if counted then countedStep kind else uncountedStep kind

variable (kind : κ → CallKind) (key : κ → ι) (counted : ι → Bool)

/-- The history of the pair `k` in a list of calls. -/
def keyRun [DecidableEq ι] (calls : List κ) (k : ι) : KeyState κ :=
  (calls.filter fun c => key c = k).foldl (keyStep (counted k) kind) KeyState.init

/-- **The reference semantics of the leak filter**: the calls, in their
order, that the history of their own pair does not drop. -/
def keptCalls [DecidableEq ι] [DecidableEq κ] (calls : List κ) : List κ :=
  calls.filter fun c => c ∉ (keyRun kind key counted calls (key c)).dropped

/-! ## One call at a time -/

@[simp] theorem keyRun_nil [DecidableEq ι] (k : ι) : keyRun kind key counted [] k = KeyState.init := rfl

theorem keyRun_snoc_self [DecidableEq ι] (calls : List κ) (c : κ) :
    keyRun kind key counted (calls ++ [c]) (key c)
      = keyStep (counted (key c)) kind (keyRun kind key counted calls (key c)) c := by
  simp [keyRun, List.filter_append]

theorem keyRun_snoc_ne [DecidableEq ι] (calls : List κ) {c : κ} {k : ι} (h : key c ≠ k) :
    keyRun kind key counted (calls ++ [c]) k = keyRun kind key counted calls k := by
  simp [keyRun, List.filter_append, h]

def stepDrops (counted : Bool) (kind : κ → CallKind) (s : KeyState κ) (c : κ) : List κ :=
  match kind c with
  | .alloc => if counted && !s.live.isEmpty then [c] else []
  | .free =>
      match s.live with
      | [] => [c]
      | a :: _ => if !counted || s.refs = 1 then [c, a] else [c]
  | .other => []

theorem keyStep_dropped (counted : Bool) (kind : κ → CallKind) (s : KeyState κ) (c : κ) :
    (keyStep counted kind s c).dropped = stepDrops counted kind s c ++ s.dropped := by
  cases counted <;> cases hk : kind c <;> cases hl : s.live <;>
    simp [keyStep, uncountedStep, countedStep, stepDrops, hk, hl]
  split <;> rfl

/-- What the history of the pair `k` refers to: calls of the pair, and as
live ones only allocations that are not dropped. -/
structure KeyState.Wf (calls : List κ) (k : ι) (s : KeyState κ) : Prop where
  live_mem : ∀ a ∈ s.live, a ∈ calls ∧ key a = k
  live_kind : ∀ a ∈ s.live, kind a = .alloc
  live_kept : ∀ a ∈ s.live, a ∉ s.dropped
  dropped_mem : ∀ a ∈ s.dropped, a ∈ calls ∧ key a = k
  refs_pos : s.live ≠ [] → counted k = true → 1 ≤ s.refs

variable {kind key counted}

theorem KeyState.Wf.mono {calls calls' : List κ} {k : ι} {s : KeyState κ}
    (h : s.Wf kind key counted calls k) (hsub : ∀ c ∈ calls, c ∈ calls') :
    s.Wf kind key counted calls' k :=
  ⟨fun a ha => ⟨hsub a (h.live_mem a ha).1, (h.live_mem a ha).2⟩, h.live_kind, h.live_kept,
    fun a ha => ⟨hsub a (h.dropped_mem a ha).1, (h.dropped_mem a ha).2⟩, h.refs_pos⟩

theorem uncountedStep_wf {calls : List κ} {s : KeyState κ} {c : κ}
    (h : s.Wf kind key counted calls (key c)) (hc : c ∉ calls) (hcount : counted (key c) = false) :
    (uncountedStep kind s c).Wf kind key counted (calls ++ [c]) (key c) := by
  have hnd : c ∉ s.dropped := fun hm => hc (h.dropped_mem c hm).1
  have hl : s.Wf kind key counted (calls ++ [c]) (key c) := h.mono (by simp +contextual)
  cases hk : kind c with
  | other => simpa only [uncountedStep, hk] using hl
  | alloc =>
    simp only [uncountedStep, hk]
    refine ⟨?_, ?_, ?_, hl.dropped_mem, by simp [hcount]⟩
    · intro a ha
      rcases List.mem_cons.mp ha with rfl | ha
      · simp
      · exact hl.live_mem a ha
    · intro a ha
      rcases List.mem_cons.mp ha with rfl | ha
      · exact hk
      · exact h.live_kind a ha
    · intro a ha
      rcases List.mem_cons.mp ha with rfl | ha
      · exact hnd
      · exact h.live_kept a ha
  | free =>
    cases hlive : s.live with
    | nil =>
      simp only [uncountedStep, hk, hlive]
      refine ⟨by simp, by simp, by simp, ?_, by simp⟩
      intro a ha
      rcases List.mem_cons.mp ha with rfl | ha
      · simp
      · exact hl.dropped_mem a ha
    | cons b rest =>
      simp only [uncountedStep, hk, hlive]
      refine ⟨by simp, by simp, by simp, ?_, by simp⟩
      intro a ha
      rcases List.mem_cons.mp ha with rfl | ha
      · simp
      · rcases List.mem_cons.mp ha with rfl | ha
        · exact hl.live_mem a (by simp [hlive])
        · exact hl.dropped_mem a ha

theorem countedStep_wf {calls : List κ} {s : KeyState κ} {c : κ}
    (h : s.Wf kind key counted calls (key c)) (hc : c ∉ calls) (hcount : counted (key c) = true) :
    (countedStep kind s c).Wf kind key counted (calls ++ [c]) (key c) := by
  have hnd : c ∉ s.dropped := fun hm => hc (h.dropped_mem c hm).1
  have hl : s.Wf kind key counted (calls ++ [c]) (key c) := h.mono (by simp +contextual)
  have hdrop : ∀ a ∈ c :: s.dropped, a ∈ calls ++ [c] ∧ key a = key c := by
    intro a ha
    rcases List.mem_cons.mp ha with rfl | ha
    · simp
    · exact hl.dropped_mem a ha
  have hkept : ∀ a ∈ s.live, a ∉ c :: s.dropped := by
    intro a ha hm
    rcases List.mem_cons.mp hm with rfl | hm
    · exact hc (h.live_mem a ha).1
    · exact h.live_kept a ha hm
  cases hk : kind c with
  | other => simpa only [countedStep, hk] using hl
  | alloc =>
    cases hlive : s.live with
    | nil =>
      simp only [countedStep, hk, hlive]
      refine ⟨?_, ?_, ?_, hl.dropped_mem, by simp⟩ <;> simp [hk, hnd]
    | cons b rest =>
      simp only [countedStep, hk, hlive]
      exact ⟨hlive ▸ hl.live_mem, hlive ▸ h.live_kind, hlive ▸ hkept, hdrop, by simp⟩
  | free =>
    cases hlive : s.live with
    | nil =>
      simp only [countedStep, hk, hlive]
      exact ⟨by simp, by simp, by simp, hdrop, by simp⟩
    | cons b rest =>
      have hpos := h.refs_pos (by simp [hlive]) hcount
      simp only [countedStep, hk, hlive]
      split
      · refine ⟨by simp, by simp, by simp, ?_, by simp⟩
        intro a ha
        rcases List.mem_cons.mp ha with rfl | ha
        · simp
        · rcases List.mem_cons.mp ha with rfl | ha
          · exact hl.live_mem a (by simp [hlive])
          · exact hl.dropped_mem a ha
      · refine ⟨hlive ▸ hl.live_mem, hlive ▸ h.live_kind, hlive ▸ hkept, hdrop, fun _ _ => ?_⟩
        show 1 ≤ s.refs - 1
        omega

/-- Every history of a list of different calls is well formed. -/
theorem keyRun_wf [DecidableEq ι] {calls : List κ} (hnd : calls.Nodup) (k : ι) :
    (keyRun kind key counted calls k).Wf kind key counted calls k := by
  induction calls using List.reverseRecOn with
  | nil => exact ⟨by simp [KeyState.init], by simp [KeyState.init], by simp [KeyState.init],
      by simp [KeyState.init], by simp [KeyState.init]⟩
  | append_singleton calls c ih =>
    rw [List.nodup_append] at hnd
    have hc : c ∉ calls := fun hm => hnd.2.2 c hm c (by simp) rfl
    have ih := ih hnd.1
    by_cases hk : key c = k
    · subst hk
      rw [keyRun_snoc_self]
      cases hcount : counted (key c) with
      | false => exact uncountedStep_wf ih hc hcount
      | true => exact countedStep_wf ih hc hcount
    · rw [keyRun_snoc_ne kind key counted calls hk]
      exact ih.mono (by simp +contextual)

theorem mem_stepDrops {calls : List κ} {s : KeyState κ} {c : κ}
    (h : s.Wf kind key counted calls (key c)) {a : κ}
    (ha : a ∈ stepDrops (counted (key c)) kind s c) : key a = key c := by
  unfold stepDrops at ha
  split at ha
  · split at ha <;> simp_all
  · split at ha
    · simp_all
    · rename_i b rest hlive
      have hb := (h.live_mem b (by simp [hlive])).2
      split at ha <;> simp_all
      rcases ha with rfl | rfl <;> simp [hb]
  · simp at ha

/-! ## The number of references -/

theorem keyStep_refs_le (counted : Bool) (s : KeyState κ) (c : κ) :
    (keyStep counted kind s c).refs ≤ s.refs + 1 := by
  cases counted <;> cases hk : kind c <;> cases hl : s.live <;>
    simp [keyStep, uncountedStep, countedStep, hk, hl]
  split <;> simp only <;> omega

/-- A pair has at most as many references as there were calls. -/
theorem keyRun_refs_le [DecidableEq ι] (calls : List κ) (k : ι) :
    (keyRun kind key counted calls k).refs ≤ calls.length := by
  induction calls using List.reverseRecOn with
  | nil => exact Nat.le_refl 0
  | append_singleton calls c ih =>
    rw [List.length_append, List.length_singleton]
    by_cases hk : key c = k
    · subst hk
      rw [keyRun_snoc_self]
      exact (keyStep_refs_le _ _ _).trans (Nat.add_le_add_right ih 1)
    · rw [keyRun_snoc_ne kind key counted calls hk]
      exact ih.trans (Nat.le_succ _)

/-- A counted pair without a live allocation has no references. -/
theorem keyRun_refs_eq_zero [DecidableEq ι] {calls : List κ} {k : ι} (hcount : counted k = true)
    (hlive : (keyRun kind key counted calls k).live = []) :
    (keyRun kind key counted calls k).refs = 0 := by
  induction calls using List.reverseRecOn with
  | nil => rfl
  | append_singleton calls c ih =>
    by_cases hk : key c = k
    · subst hk
      rw [keyRun_snoc_self, keyStep, if_pos hcount] at hlive ⊢
      cases hkind : kind c <;> cases hl : (keyRun kind key counted calls (key c)).live <;>
        simp only [countedStep, hkind, hl] at hlive ⊢
      · cases hlive
      · cases hlive
      · exact ih hl
      · split at hlive
        · rename_i hone
          simp only [hone, if_true]
        · cases hlive
      · exact ih hl
      · cases hlive
    · rw [keyRun_snoc_ne kind key counted calls hk] at hlive ⊢
      exact ih hlive

/-- Allocations of a counted pair are references. -/
theorem keyRun_allocs_refs [DecidableEq ι] {calls : List κ} {k : ι} (hcount : counted k = true)
    (hcalls : ∀ c ∈ calls, key c = k ∧ kind c = .alloc) :
    (keyRun kind key counted calls k).refs = calls.length := by
  induction calls using List.reverseRecOn with
  | nil => rfl
  | append_singleton calls c ih =>
    obtain ⟨rfl, hkind⟩ := hcalls c (by simp)
    have ih := ih fun d hd => hcalls d (List.mem_append_left _ hd)
    rw [keyRun_snoc_self, keyStep, if_pos hcount, List.length_append, List.length_singleton]
    cases hl : (keyRun kind key counted calls (key c)).live with
    | nil =>
      rw [keyRun_refs_eq_zero hcount hl] at ih
      simp [countedStep, hkind, hl, ← ih]
    | cons a rest => simp [countedStep, hkind, hl, ih]

/-! ## What is kept -/

/-- **One more call** drops calls of its own pair from what was kept. -/
theorem keptCalls_snoc [DecidableEq ι] [DecidableEq κ] {calls : List κ} {c : κ} (hnd : (calls ++ [c]).Nodup) :
    keptCalls kind key counted (calls ++ [c])
      = (keptCalls kind key counted calls ++ [c]).filter fun x =>
          x ∉ stepDrops (counted (key c)) kind (keyRun kind key counted calls (key c)) c := by
  have hnd' := List.nodup_append.mp hnd
  have hc : c ∉ calls := fun hm => hnd'.2.2 c hm c (by simp) rfl
  have hwf : ∀ k, (keyRun kind key counted calls k).Wf kind key counted calls k :=
    keyRun_wf hnd'.1
  have hdropped : ∀ x, x ∈ (keyRun kind key counted (calls ++ [c]) (key x)).dropped ↔
      x ∈ stepDrops (counted (key c)) kind (keyRun kind key counted calls (key c)) c ∨
      x ∈ (keyRun kind key counted calls (key x)).dropped := by
    intro x
    by_cases hk : key c = key x
    · rw [← hk, keyRun_snoc_self, keyStep_dropped, List.mem_append]
    · rw [keyRun_snoc_ne kind key counted calls hk]
      constructor
      · exact Or.inr
      · rintro (h | h)
        · exact absurd (mem_stepDrops (hwf (key c)) h).symm hk
        · exact h
  have hcd : c ∉ (keyRun kind key counted calls (key c)).dropped := fun hm =>
    hc ((hwf (key c)).dropped_mem c hm).1
  unfold keptCalls
  rw [List.filter_append, List.filter_append, List.filter_filter]
  congr 1
  · apply List.filter_congr
    intro x _
    simp [hdropped x]
  · simp [hdropped c, hcd, List.filter_cons]

/-! ## Histories without overridden allocations -/

/-- The allocation that has not been released at the end of the history
of one pair. -/
def lastLive (kind : κ → CallKind) (calls : List κ) : Option κ :=
  calls.foldl (fun s c => match kind c with | .alloc => some c | .free => none | .other => s) none

/-- No allocation of the pair follows another one that is still live. -/
def Alternates (kind : κ → CallKind) (calls : List κ) : Prop :=
  ∀ pre c post, calls = pre ++ c :: post → kind c = .alloc → lastLive kind pre = none

theorem lastLive_snoc (kind : κ → CallKind) (calls : List κ) (c : κ) :
    lastLive kind (calls ++ [c])
      = match kind c with | .alloc => some c | .free => none | .other => lastLive kind calls := by
  simp only [lastLive, List.foldl_append, List.foldl_cons, List.foldl_nil]

theorem lastLive_mem {calls : List κ} {a : κ} (h : lastLive kind calls = some a) :
    a ∈ calls ∧ kind a = .alloc := by
  induction calls using List.reverseRecOn with
  | nil => cases h
  | append_singleton calls c ih =>
    rw [lastLive_snoc] at h
    cases hk : kind c with
    | alloc =>
      simp only [hk, Option.some.injEq] at h
      subst h
      exact ⟨by simp, hk⟩
    | free => simp [hk] at h
    | other =>
      simp only [hk] at h
      exact ⟨by simp [(ih h).1], (ih h).2⟩

theorem lastLive_map {κ' : Type} (kind : κ' → CallKind) (f : κ → κ') (calls : List κ) :
    lastLive kind (calls.map f) = (lastLive (kind ∘ f) calls).map f := by
  induction calls using List.reverseRecOn with
  | nil => rfl
  | append_singleton calls c ih =>
    rw [List.map_append, List.map_singleton, lastLive_snoc, lastLive_snoc, ih, Function.comp_apply]
    cases kind (f c) <;> rfl

theorem Alternates.of_append {calls calls' : List κ} (h : Alternates kind (calls ++ calls')) :
    Alternates kind calls := by
  intro pre c post heq hk
  exact h pre c (post ++ calls') (by rw [heq]; simp) hk

theorem Alternates.snoc {calls : List κ} {c : κ} (h : Alternates kind calls)
    (hc : kind c = .alloc → lastLive kind calls = none) : Alternates kind (calls ++ [c]) := by
  intro pre d post heq hk
  rcases List.eq_nil_or_concat post with rfl | ⟨post', e, rfl⟩
  · obtain ⟨rfl, hd⟩ := List.append_inj' heq rfl
    obtain rfl : c = d := by simpa using hd
    exact hc hk
  · rw [List.concat_eq_append, ← List.cons_append, ← List.append_assoc] at heq
    exact h pre d post' (List.append_inj' heq rfl).1 hk

theorem alternates_map {κ' : Type} (kind : κ' → CallKind) (f : κ → κ') {calls : List κ}
    (h : Alternates kind (calls.map f)) : Alternates (kind ∘ f) calls := by
  intro pre c post heq hk
  have hnone := h (pre.map f) (f c) (post.map f) (by rw [heq]; simp) hk
  rw [lastLive_map] at hnone
  exact Option.map_eq_none_iff.mp hnone

/-- The history of an uncounted pair whose allocations alternate with
releases: the last live allocation is kept, everything before dropped. -/
theorem foldl_uncountedStep {calls : List κ} (hnd : calls.Nodup) (halt : Alternates kind calls) :
    (calls.foldl (uncountedStep kind) KeyState.init).live = (lastLive kind calls).toList ∧
    ∀ x, x ∈ (calls.foldl (uncountedStep kind) KeyState.init).dropped ↔
      x ∈ calls ∧ kind x ≠ .other ∧ lastLive kind calls ≠ some x := by
  induction calls using List.reverseRecOn with
  | nil => simp [KeyState.init, lastLive]
  | append_singleton calls c ih =>
    rw [List.nodup_append] at hnd
    have hc : ∀ x ∈ calls, x ≠ c := fun x hx e => hnd.2.2 x hx c (by simp) e
    obtain ⟨hlive, hdropped⟩ := ih hnd.1 halt.of_append
    rw [List.foldl_append, List.foldl_cons, List.foldl_nil, lastLive_snoc]
    cases hk : kind c with
    | other =>
      simp only [uncountedStep, hk]
      refine ⟨hlive, fun x => ?_⟩
      rw [hdropped x, List.mem_append, List.mem_singleton]
      constructor
      · rintro ⟨hx, hrest⟩
        exact ⟨.inl hx, hrest⟩
      · rintro ⟨hx | rfl, hrest⟩
        · exact ⟨hx, hrest⟩
        · exact absurd hk hrest.1
    | alloc =>
      have hnone : lastLive kind calls = none := halt calls c [] rfl hk
      simp only [uncountedStep, hk, hlive, hnone, Option.toList_none, Option.toList_some, true_and]
      intro x
      rw [hdropped x, hnone, List.mem_append, List.mem_singleton]
      constructor
      · rintro ⟨hx, hko, -⟩
        exact ⟨.inl hx, hko, fun e => hc x hx (Option.some.inj e).symm⟩
      · rintro ⟨hx | rfl, hko, hne⟩
        · exact ⟨hx, hko, by simp⟩
        · exact absurd rfl hne
    | free =>
      cases hl : lastLive kind calls with
      | none =>
        simp only [uncountedStep, hk, hlive, hl, Option.toList_none, true_and]
        intro x
        rw [List.mem_cons, hdropped x, hl, List.mem_append, List.mem_singleton]
        constructor
        · rintro (rfl | ⟨hx, hko, -⟩)
          · exact ⟨.inr rfl, by simp [hk], by simp⟩
          · exact ⟨.inl hx, hko, by simp⟩
        · rintro ⟨hx | rfl, hko, -⟩
          · exact .inr ⟨hx, hko, by simp⟩
          · exact .inl rfl
      | some a =>
        obtain ⟨ha, hka⟩ := lastLive_mem hl
        simp only [uncountedStep, hk, hlive, hl, Option.toList_some, Option.toList_none, true_and]
        intro x
        rw [List.mem_cons, List.mem_cons, hdropped x, hl, List.mem_append, List.mem_singleton]
        constructor
        · rintro (rfl | rfl | ⟨hx, hko, -⟩)
          · exact ⟨.inr rfl, by simp [hk], by simp⟩
          · exact ⟨.inl ha, by simp [hka], by simp⟩
          · exact ⟨.inl hx, hko, by simp⟩
        · rintro ⟨hx | rfl, hko, -⟩
          · by_cases hxa : x = a
            · exact .inr (.inl hxa)
            · exact .inr (.inr ⟨hx, hko, fun e => hxa (Option.some.inj e).symm⟩)
          · exact .inl rfl

/-- **Leaks of well-behaved histories**: for uncounted resources, when no
allocation follows a live one of its pair, a call is kept exactly when it
is the last live allocation of its pair. -/
theorem mem_keptCalls_of_alternates [DecidableEq ι] [DecidableEq κ] {calls : List κ}
    (hnd : calls.Nodup) (hunc : ∀ c ∈ calls, counted (key c) = false)
    (halt : ∀ k, Alternates kind (calls.filter fun c => key c = k))
    (hkind : ∀ c ∈ calls, kind c ≠ .other) (c : κ) :
    c ∈ keptCalls kind key counted calls ↔
      c ∈ calls ∧ lastLive kind (calls.filter fun d => key d = key c) = some c := by
  rw [keptCalls, List.mem_filter]
  constructor
  · rintro ⟨hc, hkept⟩
    refine ⟨hc, ?_⟩
    have hrun := (foldl_uncountedStep (hnd.filter _) (halt (key c))).2 c
    rw [keyRun, hunc c hc] at hkept
    simp only [keyStep, Bool.false_eq_true, if_false, hrun, decide_eq_true_eq] at hkept
    by_contra hne
    exact hkept ⟨List.mem_filter.mpr ⟨hc, by simp⟩, hkind c hc, hne⟩
  · rintro ⟨hc, hlast⟩
    refine ⟨hc, ?_⟩
    have hrun := (foldl_uncountedStep (hnd.filter _) (halt (key c))).2 c
    rw [keyRun, hunc c hc]
    simp only [keyStep, Bool.false_eq_true, if_false, hrun, decide_eq_true_eq]
    exact fun hdrop => hdrop.2.2 hlast

/-! ## Other names for the calls -/

section Renaming

variable {κ' ι' : Type} {kind' : κ' → CallKind} {key' : κ' → ι'} {counted' : ι' → Bool} {g : κ → κ'}

/-- Different calls have different names, and the names stand for calls
of the same kind on the same pairs. -/
structure Renames (kind : κ → CallKind) (key : κ → ι) (counted : ι → Bool) (kind' : κ' → CallKind)
    (key' : κ' → ι') (counted' : ι' → Bool) (g : κ → κ') (calls : List κ) : Prop where
  inj : ∀ c ∈ calls, ∀ d ∈ calls, g c = g d → c = d
  kind_eq : ∀ c ∈ calls, kind' (g c) = kind c
  key_iff : ∀ c ∈ calls, ∀ d ∈ calls, key' (g c) = key' (g d) ↔ key c = key d
  counted_eq : ∀ c ∈ calls, counted' (key' (g c)) = counted (key c)

def KeyState.map (g : κ → κ') (s : KeyState κ) : KeyState κ' :=
  { live := s.live.map g, refs := s.refs, dropped := s.dropped.map g }

theorem keyStep_map (b : Bool) (s : KeyState κ) {c : κ} (hkind : kind' (g c) = kind c) :
    keyStep b kind' (s.map g) (g c) = (keyStep b kind s c).map g := by
  cases b with
  | false =>
    show uncountedStep kind' _ _ = (uncountedStep kind s c).map g
    unfold uncountedStep
    rw [hkind]
    cases kind c <;> cases hlive : s.live <;> simp [KeyState.map, hlive]
  | true =>
    show countedStep kind' _ _ = (countedStep kind s c).map g
    unfold countedStep
    rw [hkind]
    by_cases hrefs : s.refs = 1 <;> cases kind c <;> cases hlive : s.live <;>
      simp [KeyState.map, hlive, hrefs]

theorem keyRun_map [DecidableEq ι] [DecidableEq ι'] {calls : List κ}
    (h : Renames kind key counted kind' key' counted' g calls) {c : κ} (hc : c ∈ calls) :
    keyRun kind' key' counted' (calls.map g) (key' (g c)) = (keyRun kind key counted calls (key c)).map g := by
  have hfilter : (calls.map g).filter (fun d => key' d = key' (g c))
      = (calls.filter fun d => key d = key c).map g := by
    rw [List.filter_map]
    refine congrArg (List.map g) (List.filter_congr fun d hd => ?_)
    rw [Function.comp_apply, decide_eq_decide]
    exact h.key_iff d hd c hc
  have hkind : ∀ d ∈ calls.filter fun d => key d = key c, kind' (g d) = kind d :=
    fun d hd => h.kind_eq d (List.mem_filter.mp hd).1
  rw [keyRun, hfilter, h.counted_eq c hc, keyRun]
  generalize calls.filter (fun d => key d = key c) = history at hkind
  have hrun : ∀ s : KeyState κ,
      (history.map g).foldl (keyStep (counted (key c)) kind') (s.map g)
        = (history.foldl (keyStep (counted (key c)) kind) s).map g := by
    induction history with
    | nil => exact fun _ => rfl
    | cons d history ih =>
      intro s
      rw [List.map_cons, List.foldl_cons, List.foldl_cons, keyStep_map _ s (hkind d (by simp))]
      exact ih (fun e he => hkind e (List.mem_cons_of_mem d he)) _
  exact hrun KeyState.init

/-- **The calls that are kept do not depend on their names.** -/
theorem keptCalls_map [DecidableEq ι] [DecidableEq ι'] [DecidableEq κ] [DecidableEq κ'] {calls : List κ}
    (hnd : calls.Nodup) (h : Renames kind key counted kind' key' counted' g calls) :
    (keptCalls kind key counted calls).map g = keptCalls kind' key' counted' (calls.map g) := by
  rw [keptCalls, keptCalls, List.filter_map]
  refine congrArg (List.map g) (List.filter_congr fun c hc => ?_)
  rw [Function.comp_apply, decide_eq_decide, keyRun_map h hc]
  refine not_congr ⟨fun hmem => List.mem_map_of_mem hmem, fun hmem => ?_⟩
  obtain ⟨d, hd, heq⟩ := List.mem_map.mp hmem
  have hwf : (keyRun kind key counted calls (key c)).Wf kind key counted calls (key c) :=
    keyRun_wf hnd (key c)
  have hdropped := hwf.dropped_mem d hd
  rwa [h.inj d hdropped.1 c hc heq] at hd

end Renaming

end LeakSpec

end SpRtrace.Postproc
