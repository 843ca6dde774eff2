/-
SpRtrace.Common.RtraceDataTheorems — the cross references of the trace
store are consistent, and the functions of `rtrace_data.c` keep them so.

`Rd.Linked` says what the four structures (call list, backtrace table,
reference lists, back pointers) have to do with each other. It allows a
backtrace without calls, because between storing a backtrace and linking
its first call there is one; `Rd.Used` says that there is none. A
reference counter is an `int`: it tells a backtrace without calls from one
with calls as long as the calls are at most `2 ^ 32` (`Rd.Counted`).

`Rd.Integrity` is what the filters need and keep. The parsers build more:
the frames of a backtrace select its bucket, and no two backtraces have
the same addresses (`Rd.Whole`). Cutting the backtraces ends that.

There is one theorem per function, each with everything a caller needs:
that the function does not follow a dangling pointer, what it does to the
call list, what it leaves alone, and that the invariant holds after it
(`rdAddFcall_integrity`, `rdSetNewFtrace_setsTrace`,
`rdSetNewFtraces_setsTrace`, `rdFcallRemove_spec`). The filters of the
post-processor never look inside `rd_fcall_remove` again.
-/
import SpRtrace.Common.RtraceData

namespace SpRtrace.Common

variable {w : Nat}

/-! ## The invariant -/

/-- The bucket a live backtrace is cached with. -/
def Rd.bucketOf (rd : Rd w) (trace : Nat) : Nat := ((rd.ftrace trace).bind Ftrace.bucket).getD 0

/-- The bucket the frames of a live backtrace select. -/
def Rd.home (rd : Rd w) (trace : Nat) : Nat :=
  match rd.ftrace trace with
  | some t => getBucket rd.ftraces.size none (btHash t.frames)
  | none => 0

/-- The backtrace is in the table `rd->ftraces`. -/
def Rd.StoredTrace (rd : Rd w) (trace : Nat) : Prop := rd.ftraces.Stored trace

/-- Calls, backtraces, reference lists and back pointers fit together. -/
structure Rd.Linked (rd : Rd w) : Prop where
  calls_nodup : rd.calls.Nodup
  call_live : ∀ c ∈ rd.calls, ∃ x, rd.fcall c = some x
  fcall_old : ∀ c x, rd.fcall c = some x → c < rd.fresh
  ftrace_old : ∀ t y, rd.ftrace t = some y → t < rd.fresh
  ref_old : ∀ r c, rd.refNode r = some c → r < rd.fresh
  placed : rd.ftraces.Placed rd.bucketOf
  housed : 0 < rd.ftraces.size → ∀ t, rd.StoredTrace t → rd.bucketOf t < rd.ftraces.size
  stored_live : ∀ t, rd.StoredTrace t →
    ∃ y, rd.ftrace t = some y ∧ y.bucket = some (rd.bucketOf t)
  call_trace : ∀ c ∈ rd.calls, ∀ x t, rd.fcall c = some x → x.trace = some t →
    rd.StoredTrace t ∧ ∃ r y, x.ref = some r ∧ rd.ftrace t = some y ∧ r ∈ y.calls ∧
      rd.refNode r = some c
  trace_calls : ∀ t y, rd.StoredTrace t → rd.ftrace t = some y →
    y.calls.Nodup ∧ y.refCount = BitVec.ofNat 32 y.calls.length ∧
    ∀ r ∈ y.calls, ∃ c ∈ rd.calls, ∃ x, rd.refNode r = some c ∧ rd.fcall c = some x ∧
      x.trace = some t ∧ x.ref = some r

/-- No backtrace of the table is without calls. -/
def Rd.Used (rd : Rd w) : Prop :=
  ∀ t y, rd.StoredTrace t → rd.ftrace t = some y → y.calls ≠ []

/-- The calls of a backtrace can be counted down in an `int`: taking one
away leaves zero only where it was the last. -/
def Rd.Counted (rd : Rd w) : Prop :=
  ∀ t y, rd.StoredTrace t → rd.ftrace t = some y → y.calls.length ≤ 2 ^ 32

/-- The buckets are those the frames select, and no two stored backtraces
have the same addresses. -/
structure Rd.Keyed (rd : Rd w) : Prop where
  home_eq : ∀ t, rd.StoredTrace t → rd.bucketOf t = rd.home t
  frames_inj : ∀ t u y z, rd.StoredTrace t → rd.StoredTrace u →
    rd.ftrace t = some y → rd.ftrace u = some z →
    y.frames.map Frame.addr = z.frames.map Frame.addr → t = u

/-- The store as the filters keep it. -/
structure Rd.Integrity (rd : Rd w) : Prop extends rd.Linked where
  used : rd.Used
  counted : rd.Counted

/-- The store as the parsers build it. -/
structure Rd.Whole (rd : Rd w) : Prop extends rd.Linked where
  keyed : rd.Keyed
  used : rd.Used

/-- A trace data object: the store with its invariant. -/
def TraceStore (w : Nat) : Type := { rd : Rd w // rd.Integrity }

/-- A trace data object that no filter has changed. -/
def ParsedStore (w : Nat) : Type := { rd : Rd w // rd.Whole }

theorem Rd.Whole.integrity {rd : Rd w} (h : rd.Whole) (hcounted : rd.Counted) : rd.Integrity :=
  ⟨h.toLinked, h.used, hcounted⟩

/-- The invariant `Rd.Keyed` looks at the frames and buckets of the stored
backtraces only. -/
theorem Rd.Keyed.of_same {rd rd' : Rd w} (h : rd.Keyed) (hsize : rd'.ftraces.size = rd.ftraces.size)
    (hsame : ∀ v, rd'.StoredTrace v → rd.StoredTrace v ∧
      ∀ y, rd'.ftrace v = some y → ∃ z, rd.ftrace v = some z ∧ y.frames = z.frames ∧
        y.bucket = z.bucket)
    (hlive : ∀ v, rd'.StoredTrace v → ∃ y, rd'.ftrace v = some y) : rd'.Keyed := by
  constructor
  · intro v hv
    obtain ⟨hst, hback⟩ := hsame v hv
    obtain ⟨y, hy⟩ := hlive v hv
    obtain ⟨z, hz, hframes, hbucket⟩ := hback y hy
    have hhome := h.home_eq v hst
    simp only [Rd.bucketOf, Rd.home, hz, hy, Option.bind_some, hframes, hbucket, hsize] at hhome ⊢
    exact hhome
  · intro t u y z ht hu hy hz heq
    obtain ⟨hst, hback⟩ := hsame t ht
    obtain ⟨hsu, hback'⟩ := hsame u hu
    obtain ⟨y₀, hy₀, hf, -⟩ := hback y hy
    obtain ⟨z₀, hz₀, hf', -⟩ := hback' z hz
    exact h.frames_inj t u y₀ z₀ hst hsu hy₀ hz₀ (hf ▸ hf' ▸ heq)

/-- Everything but the call and backtrace stores is the same. -/
def Rd.SameRest (rd rd' : Rd w) : Prop :=
  rd' = { rd with
    fcall := rd'.fcall, ftrace := rd'.ftrace, refNode := rd'.refNode, fresh := rd'.fresh,
    calls := rd'.calls, ftraces := rd'.ftraces }

theorem Rd.SameRest.refl (rd : Rd w) : rd.SameRest rd := rfl

theorem Rd.SameRest.trans {rd₁ rd₂ rd₃ : Rd w} (h₁ : rd₁.SameRest rd₂) (h₂ : rd₂.SameRest rd₃) :
    rd₁.SameRest rd₃ := by
  unfold Rd.SameRest at *
  rw [h₂, h₁]

theorem Rd.SameRest.resource {rd rd' : Rd w} (h : rd.SameRest rd') :
    rd'.resource = rd.resource := by
  rw [Rd.SameRest] at h; rw [h]

theorem Rd.SameRest.records {rd rd' : Rd w} (h : rd.SameRest rd') :
    rd'.resources = rd.resources ∧ rd'.mmaps = rd.mmaps ∧ rd'.contexts = rd.contexts ∧
      rd'.files = rd.files ∧ rd'.comments = rd.comments := by
  rw [Rd.SameRest] at h
  rw [h]
  exact ⟨rfl, rfl, rfl, rfl, rfl⟩

theorem Rd.SameRest.headers {rd rd' : Rd w} (h : rd.SameRest rd') :
    rd'.hshake = rd.hshake ∧ rd'.pinfo = rd.pinfo ∧ rd'.filter = rd.filter := by
  rw [Rd.SameRest] at h
  rw [h]
  exact ⟨rfl, rfl, rfl⟩

theorem whole_rdCreate : (rdCreate : Rd w).Whole where
  calls_nodup := by simp [rdCreate]
  call_live := by simp [rdCreate]
  fcall_old := by simp [rdCreate]
  ftrace_old := by simp [rdCreate]
  ref_old := by simp [rdCreate]
  placed := placed_htableInit _ _
  housed := by rintro - t ⟨b, hb⟩; simp [rdCreate] at hb
  stored_live := by rintro t ⟨b, hb⟩; simp [rdCreate] at hb
  call_trace := by simp [rdCreate]
  trace_calls := by rintro t y ⟨b, hb⟩; simp [rdCreate] at hb
  keyed :=
    { home_eq := by rintro t ⟨b, hb⟩; simp [rdCreate] at hb
      frames_inj := by rintro t u y z ⟨b, hb⟩; simp [rdCreate] at hb }
  used := by rintro t y ⟨b, hb⟩; simp [rdCreate] at hb

theorem integrity_rdCreate : (rdCreate : Rd w).Integrity :=
  whole_rdCreate.integrity (by rintro t y ⟨b, hb⟩; simp [rdCreate] at hb)

/-- The invariants look at the call and backtrace stores only. -/
theorem Rd.Linked.of_stores {rd rd' : Rd w} (h : rd.Linked) (hfcall : rd'.fcall = rd.fcall)
    (hftrace : rd'.ftrace = rd.ftrace) (href : rd'.refNode = rd.refNode)
    (hfresh : rd'.fresh = rd.fresh) (hcalls : rd'.calls = rd.calls)
    (hftraces : rd'.ftraces = rd.ftraces) : rd'.Linked := by
  cases rd
  cases rd'
  simp only at hfcall hftrace href hfresh hcalls hftraces
  subst hfcall hftrace href hfresh hcalls hftraces
  exact ⟨h.calls_nodup, h.call_live, h.fcall_old, h.ftrace_old, h.ref_old, h.placed, h.housed, h.stored_live,
    h.call_trace, h.trace_calls⟩

theorem Rd.Integrity.of_linked {rd rd' : Rd w} (h : rd.Integrity) (hlinked : rd'.Linked)
    (hftrace : rd'.ftrace = rd.ftrace) (hftraces : rd'.ftraces = rd.ftraces) : rd'.Integrity := by
  cases rd
  cases rd'
  simp only at hftrace hftraces
  subst hftrace hftraces
  exact ⟨hlinked, h.used, h.counted⟩

theorem Rd.Whole.of_linked {rd rd' : Rd w} (h : rd.Whole) (hlinked : rd'.Linked)
    (hftrace : rd'.ftrace = rd.ftrace) (hftraces : rd'.ftraces = rd.ftraces) : rd'.Whole := by
  cases rd
  cases rd'
  simp only at hftrace hftraces
  subst hftrace hftraces
  exact ⟨hlinked, ⟨h.keyed.home_eq, h.keyed.frames_inj⟩, h.used⟩

theorem Rd.Integrity.of_stores {rd rd' : Rd w} (h : rd.Integrity) (hfcall : rd'.fcall = rd.fcall)
    (hftrace : rd'.ftrace = rd.ftrace) (href : rd'.refNode = rd.refNode)
    (hfresh : rd'.fresh = rd.fresh) (hcalls : rd'.calls = rd.calls)
    (hftraces : rd'.ftraces = rd.ftraces) : rd'.Integrity :=
  h.of_linked (h.toLinked.of_stores hfcall hftrace href hfresh hcalls hftraces) hftrace hftraces

theorem Rd.Whole.of_stores {rd rd' : Rd w} (h : rd.Whole) (hfcall : rd'.fcall = rd.fcall)
    (hftrace : rd'.ftrace = rd.ftrace) (href : rd'.refNode = rd.refNode)
    (hfresh : rd'.fresh = rd.fresh) (hcalls : rd'.calls = rd.calls)
    (hftraces : rd'.ftraces = rd.ftraces) : rd'.Whole :=
  h.of_linked (h.toLinked.of_stores hfcall hftrace href hfresh hcalls hftraces) hftrace hftraces

/-! ## Allocation

A new call, resource, reference node or backtrace is at an address no
live record has, so the links of the others are not affected. -/

theorem rdAddFcall_linked {rd : Rd w} (h : rd.Linked) (data : FcallData w) :
    (rdAddFcall rd data).1.Linked := by
  have hnew : ∀ x, rd.fcall rd.fresh ≠ some x := fun x hx => by
    have := h.fcall_old _ _ hx; omega
  have hnotin : rd.fresh ∉ rd.calls := fun hm => by
    obtain ⟨x, hx⟩ := h.call_live _ hm; exact hnew x hx
  have hne : ∀ c ∈ rd.calls, c ≠ rd.fresh := fun c hc e => hnotin (e ▸ hc)
  constructor
  · simp only [rdAddFcall, dlistAdd]
    rw [List.nodup_append]
    exact ⟨h.calls_nodup, by simp, fun a ha b hb => by
      rw [List.mem_singleton] at hb; subst hb; exact hne a ha⟩
  · intro c hc
    by_cases hcf : c = rd.fresh
    · subst hcf
      exact ⟨_, by simp [rdAddFcall]; rfl⟩
    · have hc' : c ∈ rd.calls := by simpa [rdAddFcall, hcf] using hc
      obtain ⟨x, hx⟩ := h.call_live c hc'
      exact ⟨x, by simpa [rdAddFcall, Function.update_of_ne hcf] using hx⟩
  · intro c x hx
    simp only [rdAddFcall] at hx ⊢
    by_cases hcf : c = rd.fresh
    · omega
    · rw [Function.update_of_ne hcf] at hx
      have := h.fcall_old c x hx; omega
  · intro t y hy; have := h.ftrace_old t y hy; simp only [rdAddFcall]; omega
  · intro r c hr; have := h.ref_old r c hr; simp only [rdAddFcall]; omega
  · exact h.placed
  · exact h.housed
  · exact h.stored_live
  · intro c hc x t hx ht
    by_cases hcf : c = rd.fresh
    · subst hcf
      simp only [rdAddFcall, Function.update_self, Option.some.injEq] at hx
      subst hx; simp at ht
    · have hc' : c ∈ rd.calls := by simpa [rdAddFcall, hcf] using hc
      have hx' : rd.fcall c = some x := by
        simpa [rdAddFcall, Function.update_of_ne hcf] using hx
      exact h.call_trace c hc' x t hx' ht
  · intro t y hst hy
    obtain ⟨hnd, hcount, hrefs⟩ := h.trace_calls t y hst hy
    refine ⟨hnd, hcount, fun r hr => ?_⟩
    obtain ⟨c, hc, x, hrc, hx, htr, href⟩ := hrefs r hr
    refine ⟨c, by simp [rdAddFcall, hc], x, hrc, ?_, htr, href⟩
    simpa [rdAddFcall, Function.update_of_ne (hne c hc)] using hx

/-- `dlist_add(&rd->calls, call)` keeps the store consistent. -/
theorem rdAddFcall_integrity {rd : Rd w} (h : rd.Integrity) (data : FcallData w) :
    (rdAddFcall rd data).1.Integrity :=
  h.of_linked (rdAddFcall_linked h.toLinked data) rfl rfl

theorem rdAddFcall_whole {rd : Rd w} (h : rd.Whole) (data : FcallData w) :
    (rdAddFcall rd data).1.Whole :=
  h.of_linked (rdAddFcall_linked h.toLinked data) rfl rfl

theorem rdAddResource_linked {rd : Rd w} (h : rd.Linked) (res : Resource w) :
    (rdAddResource rd res).1.Linked :=
  ⟨h.calls_nodup, h.call_live, fun c x hx => Nat.lt_succ_of_lt (h.fcall_old c x hx),
    fun t y hy => Nat.lt_succ_of_lt (h.ftrace_old t y hy),
    fun r c hr => Nat.lt_succ_of_lt (h.ref_old r c hr), h.placed, h.housed, h.stored_live,
    h.call_trace, h.trace_calls⟩

/-- `dlist_add(&rd->resources, res)` keeps the store consistent. -/
theorem rdAddResource_integrity {rd : Rd w} (h : rd.Integrity) (res : Resource w) :
    (rdAddResource rd res).1.Integrity :=
  h.of_linked (rdAddResource_linked h.toLinked res) rfl rfl

theorem rdAddResource_whole {rd : Rd w} (h : rd.Whole) (res : Resource w) :
    (rdAddResource rd res).1.Whole :=
  h.of_linked (rdAddResource_linked h.toLinked res) rfl rfl

/-- The lists of the other records are no part of the invariant. -/
theorem Rd.Whole.of_records {rd : Rd w} (h : rd.Whole) (contexts : List (Context w))
    (mmaps : List (Mmap w)) (hshake : Option Hshake) (pinfo : Option Pinfo) (minfo : List Minfo)
    (comments : List Comment) (hinfo : Option (Hinfo w)) (files : List Attachment) :
    Rd.Whole { rd with contexts, mmaps, hshake, pinfo, minfo, comments, hinfo, files } :=
  h.of_stores rfl rfl rfl rfl rfl rfl

/-- Neither is the order of the calls. -/
theorem Rd.Linked.of_perm {rd : Rd w} (h : rd.Linked) {calls : List Nat}
    (hp : calls.Perm rd.calls) : Rd.Linked { rd with calls } := by
  refine ⟨hp.nodup_iff.mpr h.calls_nodup, fun c hc => h.call_live c (hp.mem_iff.mp hc), h.fcall_old,
    h.ftrace_old, h.ref_old, h.placed, h.housed, h.stored_live,
    fun c hc => h.call_trace c (hp.mem_iff.mp hc), ?_⟩
  intro t y hst hy
  obtain ⟨hnd, hcount, hrefs⟩ := h.trace_calls t y hst hy
  refine ⟨hnd, hcount, fun r hr => ?_⟩
  obtain ⟨c, hc, hx⟩ := hrefs r hr
  exact ⟨c, hp.mem_iff.mpr hc, hx⟩

/-- The arguments of a call are no part of the invariant. -/
theorem Rd.Linked.of_args {rd : Rd w} (h : rd.Linked) {call : Nat} {c : Fcall w}
    (hc : rd.fcall call = some c) (args : Option (List Farg)) :
    Rd.Linked
      { rd with fcall := Function.update rd.fcall call (some { c with args }) } := by
  -- a call of the new store has the links of the old one
  have hold : ∀ d x, Function.update rd.fcall call (some { c with args }) d = some x →
      ∃ y, rd.fcall d = some y ∧ x.trace = y.trace ∧ x.ref = y.ref := by
    intro d x hx
    by_cases hd : d = call
    · subst hd
      rw [Function.update_self, Option.some.injEq] at hx
      subst hx
      exact ⟨c, hc, rfl, rfl⟩
    · rw [Function.update_of_ne hd] at hx
      exact ⟨x, hx, rfl, rfl⟩
  have hnew : ∀ d y, rd.fcall d = some y →
      ∃ x, Function.update rd.fcall call (some { c with args }) d = some x ∧
        x.trace = y.trace ∧ x.ref = y.ref := by
    intro d y hy
    by_cases hd : d = call
    · subst hd
      obtain rfl := Option.some.inj (hc.symm.trans hy)
      exact ⟨_, Function.update_self .., rfl, rfl⟩
    · exact ⟨y, (Function.update_of_ne hd _ _).trans hy, rfl, rfl⟩
  refine ⟨h.calls_nodup, ?_, ?_, h.ftrace_old, h.ref_old, h.placed, h.housed, h.stored_live, ?_, ?_⟩
  · intro d hd
    obtain ⟨y, hy⟩ := h.call_live d hd
    obtain ⟨x, hx, -⟩ := hnew d y hy
    exact ⟨x, hx⟩
  · intro d x hx
    obtain ⟨y, hy, -⟩ := hold d x hx
    exact h.fcall_old d y hy
  · intro d hd x t hx ht
    obtain ⟨y, hy, htrace, href⟩ := hold d x hx
    rw [href]
    exact h.call_trace d hd y t hy (htrace ▸ ht)
  · intro t y hst hy
    obtain ⟨hnd, hcount, hrefs⟩ := h.trace_calls t y hst hy
    refine ⟨hnd, hcount, fun r hr => ?_⟩
    obtain ⟨d, hd, z, hrd, hz, htrace, href⟩ := hrefs r hr
    obtain ⟨x, hx, hxtrace, hxref⟩ := hnew d z hz
    exact ⟨d, hd, x, hrd, hx, hxtrace.trans htrace, hxref.trans href⟩

/-- The frames of a backtrace are no part of what the filters keep. -/
theorem Rd.Integrity.of_frames {rd : Rd w} (h : rd.Integrity) {trace : Nat} {t : Ftrace w}
    (ht : rd.ftrace trace = some t) (frames : List (Frame w)) :
    Rd.Integrity
      { rd with ftrace := Function.update rd.ftrace trace (some { t with frames }) } := by
  -- a backtrace of the new store has the calls and the bucket of the old one
  have hold : ∀ v x, Function.update rd.ftrace trace (some { t with frames }) v = some x →
      ∃ y, rd.ftrace v = some y ∧ x.bucket = y.bucket ∧ x.refCount = y.refCount ∧
        x.calls = y.calls := by
    intro v x hx
    by_cases hv : v = trace
    · subst hv
      rw [Function.update_self, Option.some.injEq] at hx
      subst hx
      exact ⟨t, ht, rfl, rfl, rfl⟩
    · rw [Function.update_of_ne hv] at hx
      exact ⟨x, hx, rfl, rfl, rfl⟩
  have hnew : ∀ v y, rd.ftrace v = some y →
      ∃ x, Function.update rd.ftrace trace (some { t with frames }) v = some x ∧
        x.bucket = y.bucket ∧ x.calls = y.calls := by
    intro v y hy
    by_cases hv : v = trace
    · subst hv
      obtain rfl := Option.some.inj (ht.symm.trans hy)
      exact ⟨_, Function.update_self .., rfl, rfl⟩
    · exact ⟨y, (Function.update_of_ne hv _ _).trans hy, rfl, rfl⟩
  have hbucket : ∀ v, rd.StoredTrace v → Rd.bucketOf
      { rd with ftrace := Function.update rd.ftrace trace (some { t with frames }) } v
        = rd.bucketOf v := by
    intro v hv
    obtain ⟨y, hy, -⟩ := h.stored_live v hv
    obtain ⟨x, hx, hxb, -⟩ := hnew v y hy
    simp only [Rd.bucketOf, hx, hy, Option.bind_some, hxb]
  refine ⟨⟨h.calls_nodup, h.call_live, h.fcall_old, ?_, h.ref_old,
    h.placed.congr fun v hv => (hbucket v hv).symm,
    fun hsize v hv => by rw [hbucket v hv]; exact h.housed hsize v hv, ?_, ?_, ?_⟩, ?_, ?_⟩
  · intro v x hx
    obtain ⟨y, hy, -⟩ := hold v x hx
    exact h.ftrace_old v y hy
  · intro v hv
    obtain ⟨y, hy, hyb⟩ := h.stored_live v hv
    obtain ⟨x, hx, hxb, -⟩ := hnew v y hy
    exact ⟨x, hx, by rw [hbucket v hv, hxb, hyb]⟩
  · intro c hc x v hx hv
    obtain ⟨hst, r, y, hr, hy, hmem, hrc⟩ := h.call_trace c hc x v hx hv
    obtain ⟨y', hy', -, hcalls⟩ := hnew v y hy
    exact ⟨hst, r, y', hr, hy', hcalls ▸ hmem, hrc⟩
  · intro v x hv hx
    obtain ⟨y, hy, -, hcount, hcalls⟩ := hold v x hx
    rw [hcount, hcalls]
    exact h.trace_calls v y hv hy
  · intro v x hv hx
    obtain ⟨y, hy, -, -, hcalls⟩ := hold v x hx
    rw [hcalls]
    exact h.used v y hv hy
  · intro v x hv hx
    obtain ⟨y, hy, -, -, hcalls⟩ := hold v x hx
    rw [hcalls]
    exact h.counted v y hv hy

/-- Taking an address changes nothing the invariant looks at. -/
theorem Rd.Linked.of_fresh {rd rd' : Rd w} (h : rd.Linked) (hcalls : rd'.calls = rd.calls)
    (hfcall : rd'.fcall = rd.fcall) (hftraces : rd'.ftraces = rd.ftraces)
    (hfresh : rd.fresh ≤ rd'.fresh)
    (hftrace : ∀ t, t < rd.fresh → rd'.ftrace t = rd.ftrace t)
    (hftrace_old : ∀ t y, rd'.ftrace t = some y → t < rd'.fresh)
    (href : ∀ r, r < rd.fresh → rd'.refNode r = rd.refNode r)
    (href_old : ∀ r c, rd'.refNode r = some c → r < rd'.fresh) : rd'.Linked := by
  have hstored : ∀ t, rd'.StoredTrace t ↔ rd.StoredTrace t := by
    intro t; simp only [Rd.StoredTrace, hftraces]
  have hsame : ∀ t, rd.StoredTrace t → rd'.ftrace t = rd.ftrace t := by
    intro t ht
    obtain ⟨y, hy, -⟩ := h.stored_live t ht
    exact hftrace t (h.ftrace_old t y hy)
  have hbucket : ∀ t, rd.StoredTrace t → rd'.bucketOf t = rd.bucketOf t := by
    intro t ht
    simp only [Rd.bucketOf, hsame t ht]
  constructor
  · rw [hcalls]; exact h.calls_nodup
  · rw [hcalls, hfcall]; exact h.call_live
  · intro c x hx; rw [hfcall] at hx; have := h.fcall_old c x hx; omega
  · exact hftrace_old
  · exact href_old
  · rw [hftraces]; exact h.placed.congr (fun t ht => (hbucket t ht).symm)
  · intro hsize t ht
    rw [hstored] at ht
    rw [hftraces] at hsize ⊢
    rw [hbucket t ht]
    exact h.housed hsize t ht
  · intro t ht
    rw [hstored] at ht
    rw [hsame t ht, hbucket t ht]
    exact h.stored_live t ht
  · intro c hc x t hx ht
    rw [hcalls] at hc
    rw [hfcall] at hx
    obtain ⟨hst, r, y, hr, hy, hmem, hrc⟩ := h.call_trace c hc x t hx ht
    refine ⟨(hstored t).mpr hst, r, y, hr, ?_, hmem, ?_⟩
    · rw [hsame t hst]; exact hy
    · rw [href r (h.ref_old r c hrc)]; exact hrc
  · intro t y ht hy
    rw [hstored] at ht
    rw [hsame t ht] at hy
    obtain ⟨hnd, hcount, hrefs⟩ := h.trace_calls t y ht hy
    refine ⟨hnd, hcount, fun r hr => ?_⟩
    obtain ⟨c, hc, x, hrc, hx, htr, hxr⟩ := hrefs r hr
    refine ⟨c, by rw [hcalls]; exact hc, x, ?_, by rw [hfcall]; exact hx, htr, hxr⟩
    rw [href r (h.ref_old r c hrc)]; exact hrc

theorem rdNewRef_linked {rd : Rd w} (h : rd.Linked) (call : Nat) :
    (rdNewRef rd call).1.Linked := by
  refine h.of_fresh rfl rfl rfl (Nat.le_succ _) (fun t _ => rfl) ?_ ?_ ?_
  · intro t y hy; have := h.ftrace_old t y hy; simp only [rdNewRef]; omega
  · intro r hr; simp only [rdNewRef]; exact Function.update_of_ne (by omega) _ _
  · intro r c hr
    simp only [rdNewRef] at hr ⊢
    by_cases hrf : r = rd.fresh
    · omega
    · rw [Function.update_of_ne hrf] at hr
      have := h.ref_old r c hr; omega

theorem rdNewFtrace_linked {rd : Rd w} (h : rd.Linked) (frames : List (Frame w)) :
    (rdNewFtrace rd frames).1.Linked := by
  refine h.of_fresh rfl rfl rfl (Nat.le_succ _) ?_ ?_ (fun r _ => rfl) ?_
  · intro t ht; simp only [rdNewFtrace]; exact Function.update_of_ne (by omega) _ _
  · intro t y hy
    simp only [rdNewFtrace] at hy ⊢
    by_cases htf : t = rd.fresh
    · omega
    · rw [Function.update_of_ne htf] at hy
      have := h.ftrace_old t y hy; omega
  · intro r c hr; have := h.ref_old r c hr; simp only [rdNewFtrace]; omega

/-! ## Storing a backtrace -/

/-- The comparison `rd_fcall_set_ftrace` searches the table with. -/
def Rd.compareFtrace (rd : Rd w) (frames : List (Frame w)) (n : Nat) : Option Int := do
  some (btCompare (← rd.ftrace n).frames frames)

theorem Rd.compareFtrace_some {rd : Rd w} {n : Nat} {y : Ftrace w} (hy : rd.ftrace n = some y)
    (frames : List (Frame w)) : rd.compareFtrace frames n = some (btCompare y.frames frames) := by
  simp [Rd.compareFtrace, hy]

/-- A search through a bucket of live backtraces does not fail. -/
theorem Rd.find_compareFtrace {rd : Rd w} (frames : List (Frame w)) :
    ∀ {l : List Nat}, (∀ n ∈ l, ∃ y, rd.ftrace n = some y) →
      ∃ r, dlistFind (rd.compareFtrace frames) l = some r
  | [], _ => ⟨none, rfl⟩
  | n :: l, h => by
      obtain ⟨y, hy⟩ := h n (by simp)
      obtain ⟨r, hr⟩ := Rd.find_compareFtrace frames (fun m hm => h m (by simp [hm]) : ∀ m ∈ l, _)
      by_cases h0 : btCompare y.frames frames = 0
      · exact ⟨some n, by simp [dlistFind, Rd.compareFtrace_some hy, h0]⟩
      · exact ⟨r, by simp [dlistFind, Rd.compareFtrace_some hy, h0, hr]⟩

theorem rdNewRef_whole {rd : Rd w} (h : rd.Whole) (call : Nat) : (rdNewRef rd call).1.Whole :=
  h.of_linked (rdNewRef_linked h.toLinked call) rfl rfl

/-- What `rdShareFtrace` needs of the new backtrace: live, not in the
table, its bucket not computed yet, without calls. -/
structure Rd.NewTrace (rd : Rd w) (trace : Nat) (t : Ftrace w) : Prop where
  live : rd.ftrace trace = some t
  not_stored : ¬ rd.StoredTrace trace
  bucket : t.bucket = none
  refCount : t.refCount = 0
  calls : t.calls = []

/-- What `rdShareFtrace` did: `u` is now the one stored backtrace with the
given addresses, calls and reference nodes are as before. -/
structure Rd.Shares (rd : Rd w) (trace : Nat) (t : Ftrace w) (rd' : Rd w) (u : Nat) : Prop where
  linked : rd'.Linked
  keyed : rd.Keyed → rd'.Keyed
  sameRest : rd.SameRest rd'
  calls : rd'.calls = rd.calls
  fcall : rd'.fcall = rd.fcall
  refNode : rd'.refNode = rd.refNode
  fresh : rd'.fresh = rd.fresh
  stored : rd'.StoredTrace u
  stored_iff : ∀ v, rd'.StoredTrace v ↔ rd.StoredTrace v ∨ v = u
  ftrace : ∀ v, rd.StoredTrace v → rd'.ftrace v = rd.ftrace v
  frames : ∃ y, rd'.ftrace u = some y ∧ y.frames.map Frame.addr = t.frames.map Frame.addr ∧
    (¬ rd.StoredTrace u → u = trace ∧ y.frames = t.frames ∧ y.calls = [])

/-- An equal backtrace is in the table: the new one is freed. -/
theorem Rd.NewTrace.shares_found {rd : Rd w} (h : rd.Linked) {trace : Nat} {t : Ftrace w}
    (hn : rd.NewTrace trace t) {u : Nat} (hu : rd.StoredTrace u) {y : Ftrace w}
    (hy : rd.ftrace u = some y) (hframes : y.frames.map Frame.addr = t.frames.map Frame.addr) :
    rd.Shares trace t { rd with ftrace := Function.update rd.ftrace trace none } u := by
  have hne : ∀ v, rd.StoredTrace v → v ≠ trace := fun v hv e => hn.not_stored (e ▸ hv)
  have hsame : ∀ v, rd.StoredTrace v →
      Function.update rd.ftrace trace none v = rd.ftrace v := fun v hv =>
    Function.update_of_ne (hne v hv) _ _
  have hbucket : ∀ v, rd.StoredTrace v →
      Rd.bucketOf { rd with ftrace := Function.update rd.ftrace trace none } v = rd.bucketOf v := by
    intro v hv
    simp only [Rd.bucketOf, hsame v hv]
  refine ⟨⟨h.calls_nodup, h.call_live, h.fcall_old, ?_, h.ref_old,
    h.placed.congr (fun v hv => (hbucket v hv).symm),
    fun hsize v hv => by rw [hbucket v hv]; exact h.housed hsize v hv, ?_, ?_, ?_⟩,
    fun hkeyed => hkeyed.of_same rfl
      (fun v hv => ⟨hv, fun z hz => ⟨z, hsame v hv ▸ hz, rfl, rfl⟩⟩) ?_,
    rfl, rfl, rfl, rfl, rfl, hu, ?_, hsame, ⟨y, ?_, hframes, fun hc => absurd hu hc⟩⟩
  · intro v z hz
    by_cases hv : v = trace
    · subst hv; simp at hz
    · rw [show ({ rd with ftrace := Function.update rd.ftrace trace none } : Rd w).ftrace v
          = rd.ftrace v from Function.update_of_ne hv _ _] at hz
      exact h.ftrace_old v z hz
  · intro v hv
    rw [hbucket v hv]
    obtain ⟨z, hz, hzb⟩ := h.stored_live v hv
    exact ⟨z, (hsame v hv).trans hz, hzb⟩
  · intro c hc x v hx hv
    obtain ⟨hst, r, z, hr, hz, hmem, hrc⟩ := h.call_trace c hc x v hx hv
    exact ⟨hst, r, z, hr, (hsame v hst).trans hz, hmem, hrc⟩
  · intro v z hv hz
    exact h.trace_calls v z hv (hsame v hv ▸ hz)
  · intro v hv
    obtain ⟨z, hz, -⟩ := h.stored_live v hv
    exact ⟨z, (hsame v hv).trans hz⟩
  · intro v
    constructor
    · exact Or.inl
    · rintro (hv | rfl)
      · exact hv
      · exact hu
  · exact (hsame u hu).trans hy

/-- A backtrace with new addresses is put into the bucket that they select:
an old one with the same addresses would be in that bucket. -/
theorem Rd.Keyed.stored {rd rd' : Rd w} (hkeyed : rd.Keyed) (h : rd.Linked) {trace b : Nat}
    {t : Ftrace w} (hb : b = getBucket rd.ftraces.size none (btHash t.frames))
    (hnone : ∀ n ∈ rd.ftraces.buckets b, ∀ y, rd.ftrace n = some y →
      y.frames.map Frame.addr ≠ t.frames.map Frame.addr)
    (hsize : rd'.ftraces.size = rd.ftraces.size)
    (hstored : ∀ v, rd'.StoredTrace v → rd.StoredTrace v ∨ v = trace)
    (hsame : ∀ v, rd.StoredTrace v → rd'.ftrace v = rd.ftrace v)
    (hself : rd'.ftrace trace = some { t with bucket := some b }) : rd'.Keyed := by
  have hnoframes : ∀ v y, rd.StoredTrace v → rd'.ftrace v = some y →
      y.frames.map Frame.addr ≠ t.frames.map Frame.addr := by
    intro v y hv hy heq
    rw [hsame v hv] at hy
    have hbv : rd.bucketOf v = b := by
      rw [hkeyed.home_eq v hv]
      simp only [Rd.home, hy, hb, btHash_congr heq]
    exact hnone v (hbv ▸ (h.placed.stored_iff v).mp hv) y hy heq
  constructor
  · intro v hv
    rcases hstored v hv with hv | rfl
    · have heq := hkeyed.home_eq v hv
      simp only [Rd.bucketOf, Rd.home, hsame v hv, hsize] at heq ⊢
      exact heq
    · simp only [Rd.bucketOf, Rd.home, hself, hsize, hb, Option.bind_some, Option.getD_some]
  · intro v v' z z' hv hv' hz hz' heq
    rcases hstored v hv with hold | rfl <;> rcases hstored v' hv' with hold' | rfl
    · exact hkeyed.frames_inj v v' z z' hold hold' (hsame v hold ▸ hz) (hsame v' hold' ▸ hz') heq
    · obtain rfl := Option.some.inj (hself.symm.trans hz')
      exact absurd heq (hnoframes v z hold hz)
    · obtain rfl := Option.some.inj (hself.symm.trans hz)
      exact absurd heq.symm (hnoframes v' z' hold' hz')
    · rfl

/-- No equal backtrace is in the table: the new one is stored. -/
theorem Rd.NewTrace.shares_stored {rd : Rd w} (h : rd.Linked) {trace : Nat} {t : Ftrace w}
    (hn : rd.NewTrace trace t) {b : Nat}
    (hb : b = getBucket rd.ftraces.size none (btHash t.frames))
    (hnone : ∀ n ∈ rd.ftraces.buckets b, ∀ y, rd.ftrace n = some y →
      y.frames.map Frame.addr ≠ t.frames.map Frame.addr) :
    rd.Shares trace t
      { rd with
        ftrace := Function.update rd.ftrace trace (some { t with bucket := some b })
        ftraces := rd.ftraces.setBucket b (dlistAdd (rd.ftraces.buckets b) trace) } trace := by
  have hne : ∀ v, rd.StoredTrace v → v ≠ trace := fun v hv e => hn.not_stored (e ▸ hv)
  have hsame : ∀ v, rd.StoredTrace v →
      Function.update rd.ftrace trace (some { t with bucket := some b }) v = rd.ftrace v :=
    fun v hv => Function.update_of_ne (hne v hv) _ _
  set rd' : Rd w := { rd with
    ftrace := Function.update rd.ftrace trace (some { t with bucket := some b })
    ftraces := rd.ftraces.setBucket b (dlistAdd (rd.ftraces.buckets b) trace) } with hrd'
  have hself : rd'.ftrace trace = some { t with bucket := some b } := Function.update_self ..
  have hself_bucket : rd'.bucketOf trace = b := by simp only [Rd.bucketOf, hself]; rfl
  have hbucket : ∀ v, rd.StoredTrace v → rd'.bucketOf v = rd.bucketOf v := fun v hv => by
    simp only [Rd.bucketOf, show rd'.ftrace v = rd.ftrace v from hsame v hv]
  have hbefore : rd.ftraces.Placed rd'.bucketOf := h.placed.congr fun v hv => (hbucket v hv).symm
  have hadd := hbefore.add hn.not_stored
  have hstored := hbefore.stored_add hn.not_stored
  rw [hself_bucket] at hadd hstored
  have hplaced : rd'.ftraces.Placed rd'.bucketOf := hadd
  have hst : ∀ v, rd'.StoredTrace v ↔ rd.StoredTrace v ∨ v = trace := hstored
  have hlive : ∀ v, rd'.StoredTrace v → ∃ y, rd'.ftrace v = some y ∧
      y.bucket = some (rd'.bucketOf v) := by
    intro v hv
    rcases (hst v).mp hv with hv | rfl
    · obtain ⟨z, hz, hzb⟩ := h.stored_live v hv
      exact ⟨z, (hsame v hv).trans hz, by rw [hbucket v hv]; exact hzb⟩
    · exact ⟨_, hself, by rw [hself_bucket]⟩
  refine ⟨⟨h.calls_nodup, h.call_live, h.fcall_old, ?_, h.ref_old, hplaced, ?_, hlive, ?_, ?_⟩,
    fun hkeyed => hkeyed.stored h hb hnone rfl (fun v => (hst v).mp) hsame hself,
    rfl, rfl, rfl, rfl, rfl, (hst trace).mpr (Or.inr rfl), hst, hsame,
    ⟨{ t with bucket := some b }, hself, rfl, fun _ => ⟨rfl, rfl, hn.calls⟩⟩⟩
  · intro v z hz
    by_cases hv : v = trace
    · exact hv ▸ h.ftrace_old trace t hn.live
    · rw [show rd'.ftrace v = rd.ftrace v from Function.update_of_ne hv _ _] at hz
      exact h.ftrace_old v z hz
  · intro hsize v hv
    rcases (hst v).mp hv with hv | rfl
    · rw [hbucket v hv]
      exact h.housed hsize v hv
    · rw [hself_bucket, hb]
      exact getBucket_none_lt hsize
  · intro c hc x v hx hv
    obtain ⟨hstv, r, z, hr, hz, hmem, hrc⟩ := h.call_trace c hc x v hx hv
    exact ⟨(hst v).mpr (Or.inl hstv), r, z, hr, (hsame v hstv).trans hz, hmem, hrc⟩
  · intro v z hv hz
    rcases (hst v).mp hv with hv | rfl
    · exact h.trace_calls v z hv (hsame v hv ▸ hz)
    · rw [hself, Option.some.injEq] at hz
      subst hz
      refine ⟨by simp [hn.calls], by simp [hn.calls, hn.refCount], fun r hr => ?_⟩
      simp [hn.calls] at hr

/-- The first half of the two set-trace functions, specified. -/
theorem rdShareFtrace_spec {rd : Rd w} (h : rd.Linked) {trace : Nat} {t : Ftrace w}
    (hn : rd.NewTrace trace t) :
    ∃ rd' u, rdShareFtrace rd trace = some (rd', u) ∧ rd.Shares trace t rd' u := by
  have hne : ∀ v, rd.StoredTrace v → v ≠ trace := fun v hv e => hn.not_stored (e ▸ hv)
  -- the search runs after the bucket has been cached in the new node
  set b := getBucket rd.ftraces.size none (btHash t.frames) with hb
  set rd₁ : Rd w := { rd with
    ftrace := Function.update rd.ftrace trace (some { t with bucket := some b }) } with hrd₁
  have hsame : ∀ v, rd.StoredTrace v → rd₁.ftrace v = rd.ftrace v := fun v hv =>
    Function.update_of_ne (hne v hv) _ _
  have hlive : ∀ n ∈ rd.ftraces.buckets b, ∃ y, rd₁.ftrace n = some y := by
    intro n hn'
    have hst : rd.StoredTrace n := ⟨b, hn'⟩
    obtain ⟨y, hy, -⟩ := h.stored_live n hst
    exact ⟨y, (hsame n hst).trans hy⟩
  obtain ⟨r, hr⟩ := rd₁.find_compareFtrace t.frames hlive
  have hfind : htableFind rd₁.ftraces b (rd₁.compareFtrace t.frames) = some r := hr
  have hcompare : (fun n => (rd₁.ftrace n).bind fun a => some (btCompare a.frames t.frames))
      = rd₁.compareFtrace t.frames := rfl
  simp only [rdShareFtrace, hn.live, hn.bucket, Option.bind_eq_bind, Option.bind_some, ← hb,
    ← hrd₁]
  rw [hcompare, hfind]
  cases r with
  | none =>
    refine ⟨_, trace, ?_, hn.shares_stored h hb ?_⟩
    · have hstore : htableStore rd.ftraces b (rd₁.compareFtrace t.frames) trace
          = some (rd.ftraces.setBucket b (dlistAdd (rd.ftraces.buckets b) trace), none) := by
        simp only [htableStore]
        rw [show rd.ftraces.buckets b = rd₁.ftraces.buckets b from rfl, hr]
        rfl
      simp only [hstore, Option.bind_some]
    · intro n hn' y hy heq
      have hst : rd.StoredTrace n := ⟨b, hn'⟩
      have := dlistFind_none hr n hn'
      rw [Rd.compareFtrace_some ((hsame n hst).trans hy),
        (btCompare_eq_zero _ _).mpr heq] at this
      exact this rfl
  | some u =>
    obtain ⟨hu, hzero⟩ := dlistFind_some hr
    have hst : rd.StoredTrace u := ⟨b, hu⟩
    obtain ⟨y, hy, -⟩ := h.stored_live u hst
    rw [Rd.compareFtrace_some ((hsame u hst).trans hy), Option.some.injEq,
      btCompare_eq_zero] at hzero
    refine ⟨_, u, ?_, hn.shares_found h hst hy hzero⟩
    have hfree : rdFtraceFree rd₁ trace
        = some { rd with ftrace := Function.update rd.ftrace trace none } := by
      simp only [rdFtraceFree, hrd₁, Function.update_self, Option.bind_eq_bind, Option.bind_some,
        hn.calls, List.not_mem_nil, if_false, Function.update_idem]
    simp only [hfree, Option.bind_some]

theorem rdNewFtrace_newTrace {rd : Rd w} (h : rd.Linked) (frames : List (Frame w)) :
    (rdNewFtrace rd frames).1.NewTrace rd.fresh
      { bucket := none, refCount := 0, frames, calls := [] } where
  live := Function.update_self ..
  not_stored := by
    intro hst
    obtain ⟨y, hy, -⟩ := h.stored_live _ hst
    have := h.ftrace_old _ _ hy
    omega
  bucket := rfl
  refCount := rfl
  calls := rfl

/-! ## Linking calls to a backtrace -/

/-- The state after `rdLinkFcall`. -/
def Rd.linkFcall (rd : Rd w) (call : Nat) (c : Fcall w) (ref trace : Nat) (t : Ftrace w) : Rd w :=
  { rd with
    fcall := Function.update rd.fcall call (some { c with trace := some trace, ref := some ref })
    ftrace := Function.update rd.ftrace trace
      (some { t with refCount := t.refCount + 1, calls := dlistAdd t.calls ref }) }

theorem rdLinkFcall_eq {rd : Rd w} {call ref trace : Nat} {c : Fcall w} {t : Ftrace w}
    (hc : rd.fcall call = some c) (ht : rd.ftrace trace = some t) :
    rdLinkFcall rd call ref trace = some (rd.linkFcall call c ref trace t) := by
  simp [rdLinkFcall, hc, ht, Rd.linkFcall]

/-- A reference node of a call without a backtrace is in no reference list. -/
theorem Rd.Linked.ref_not_mem {rd : Rd w} (h : rd.Linked) {call ref trace : Nat} {c : Fcall w}
    {t : Ftrace w} (hc : rd.fcall call = some c) (hnone : c.trace = none)
    (hr : rd.refNode ref = some call) (hst : rd.StoredTrace trace)
    (ht : rd.ftrace trace = some t) : ref ∉ t.calls := by
  intro hm
  obtain ⟨c', -, x, hrc, hx, htr, -⟩ := (h.trace_calls trace t hst ht).2.2 ref hm
  rw [hr, Option.some.injEq] at hrc
  subst hrc
  rw [hc, Option.some.injEq] at hx
  subst hx
  rw [hnone] at htr
  cases htr

/-- Every backtrace keeps its frames and its bucket. -/
theorem Rd.linkFcall_ftrace {rd : Rd w} {call ref trace : Nat} {c : Fcall w} {t : Ftrace w}
    (ht : rd.ftrace trace = some t) {v : Nat} {z' : Ftrace w}
    (hz' : (rd.linkFcall call c ref trace t).ftrace v = some z') :
    ∃ z, rd.ftrace v = some z ∧ z'.frames = z.frames ∧ z'.bucket = z.bucket := by
  by_cases hv : v = trace
  · subst hv
    simp only [Rd.linkFcall, Function.update_self, Option.some.injEq] at hz'
    subst hz'
    exact ⟨t, ht, rfl, rfl⟩
  · simp only [Rd.linkFcall, Function.update_of_ne hv] at hz'
    exact ⟨z', hz', rfl, rfl⟩

theorem Rd.Linked.linkFcall {rd : Rd w} (h : rd.Linked) {call ref trace : Nat} {c : Fcall w}
    {t : Ftrace w} (hmem : call ∈ rd.calls) (hc : rd.fcall call = some c) (hnone : c.trace = none)
    (hr : rd.refNode ref = some call) (hst : rd.StoredTrace trace)
    (ht : rd.ftrace trace = some t) : (rd.linkFcall call c ref trace t).Linked := by
  have hnot := h.ref_not_mem hc hnone hr hst ht
  set rd' := rd.linkFcall call c ref trace t with hrd'
  have hbucket : ∀ v, rd'.bucketOf v = rd.bucketOf v := by
    intro v
    by_cases hv : v = trace
    · subst hv
      simp only [hrd', Rd.linkFcall, Rd.bucketOf, Function.update_self, ht, Option.bind_some]
    · simp only [hrd', Rd.linkFcall, Rd.bucketOf, Function.update_of_ne hv]
  have hcall : rd'.fcall call = some { c with trace := some trace, ref := some ref } :=
    Function.update_self ..
  have hother : ∀ d, d ≠ call → rd'.fcall d = rd.fcall d := fun d hd =>
    Function.update_of_ne hd _ _
  constructor
  · exact h.calls_nodup
  · intro d hd
    by_cases hdc : d = call
    · subst hdc; exact ⟨_, hcall⟩
    · rw [hother d hdc]; exact h.call_live d hd
  · intro d x hx
    by_cases hdc : d = call
    · subst hdc; exact h.fcall_old _ _ hc
    · rw [hother d hdc] at hx; exact h.fcall_old d x hx
  · intro v z' hz'
    obtain ⟨z, hz, -⟩ := Rd.linkFcall_ftrace ht hz'
    exact h.ftrace_old v z hz
  · exact h.ref_old
  · exact h.placed.congr (fun v _ => (hbucket v).symm)
  · intro hsize v hv
    rw [hbucket v]
    exact h.housed hsize v hv
  · intro v hv
    obtain ⟨z, hz, hzb⟩ := h.stored_live v hv
    rw [hbucket v]
    by_cases hvt : v = trace
    · subst hvt
      rw [ht, Option.some.injEq] at hz
      subst hz
      exact ⟨_, Function.update_self .., hzb⟩
    · exact ⟨z, (Function.update_of_ne hvt _ _).trans hz, hzb⟩
  · intro d hd x v hx hv
    by_cases hdc : d = call
    · subst hdc
      rw [hcall, Option.some.injEq] at hx
      subst hx
      simp only [Option.some.injEq] at hv
      subst hv
      exact ⟨hst, ref, _, rfl, Function.update_self .., by simp, hr⟩
    · rw [hother d hdc] at hx
      obtain ⟨hstv, r, z, hxr, hz, hrm, hrc⟩ := h.call_trace d hd x v hx hv
      by_cases hvt : v = trace
      · subst hvt
        rw [ht, Option.some.injEq] at hz
        subst hz
        exact ⟨hst, r, _, hxr, Function.update_self .., by simp [hrm], hrc⟩
      · exact ⟨hstv, r, z, hxr, (Function.update_of_ne hvt _ _).trans hz, hrm, hrc⟩
  · intro v z' hv hz'
    -- the calls the reference lists lead to are not `call`, except through `ref`
    have hkeep : ∀ z, rd.ftrace v = some z → ∀ r ∈ z.calls, ∃ d ∈ rd'.calls, ∃ x,
        rd'.refNode r = some d ∧ rd'.fcall d = some x ∧ x.trace = some v ∧ x.ref = some r := by
      intro z hz r hrm
      obtain ⟨d, hd, x, hrd, hx, hxt, hxr⟩ := (h.trace_calls v z hv hz).2.2 r hrm
      have hdc : d ≠ call := by
        rintro rfl
        rw [hc, Option.some.injEq] at hx
        subst hx
        rw [hnone] at hxt
        cases hxt
      exact ⟨d, hd, x, hrd, (hother d hdc).trans hx, hxt, hxr⟩
    by_cases hvt : v = trace
    · subst hvt
      simp only [hrd', Rd.linkFcall, Function.update_self, Option.some.injEq] at hz'
      subst hz'
      obtain ⟨hnd, hcount, -⟩ := h.trace_calls v t hst ht
      refine ⟨?_, ?_, ?_⟩
      · simp only [dlistAdd]
        rw [List.nodup_append]
        exact ⟨hnd, by simp, fun a ha b hb => by
          rw [List.mem_singleton] at hb; subst hb; rintro rfl; exact hnot ha⟩
      · simp [dlistAdd, hcount, BitVec.ofNat_add]
      · intro r hrm
        rcases (mem_dlistAdd _ _ _).mp hrm with hrm | rfl
        · exact hkeep t ht r hrm
        · exact ⟨call, hmem, _, hr, hcall, rfl, rfl⟩
    · have hz : rd.ftrace v = some z' := by
        simpa only [hrd', Rd.linkFcall, Function.update_of_ne hvt] using hz'
      obtain ⟨hnd, hcount, -⟩ := h.trace_calls v z' hv hz
      exact ⟨hnd, hcount, hkeep z' hz⟩

/-- What linking `cs` to the stored backtrace `u` does: the calls get the
backtrace and a reference, everything else they hold stays, and so do the
frames of every backtrace and the counts of the others. -/
structure Rd.Assigns (rd : Rd w) (cs : List Nat) (u : Nat) (rd' : Rd w) : Prop where
  linked : rd'.Linked
  keyed : rd.Keyed → rd'.Keyed
  sameRest : rd.SameRest rd'
  calls : rd'.calls = rd.calls
  ftraces : rd'.ftraces = rd.ftraces
  refNode : rd'.refNode = rd.refNode
  fresh : rd'.fresh = rd.fresh
  fcall_other : ∀ d, d ∉ cs → rd'.fcall d = rd.fcall d
  fcall_mem : ∀ d ∈ cs, ∀ x, rd.fcall d = some x →
    ∃ r, rd'.fcall d = some { x with trace := some u, ref := some r }
  ftrace_other : ∀ v, v ≠ u → rd'.ftrace v = rd.ftrace v
  ftrace_self : ∀ y, rd.ftrace u = some y →
    ∃ y', rd'.ftrace u = some y' ∧ y'.frames = y.frames ∧
      y'.calls.length = y.calls.length + cs.length

theorem Rd.Linked.assigns_nil {rd : Rd w} (h : rd.Linked) (u : Nat) : rd.Assigns [] u rd :=
  ⟨h, id, rfl, rfl, rfl, rfl, rfl, fun _ _ => rfl, by simp, fun _ _ => rfl,
    fun y hy => ⟨y, hy, rfl, by simp⟩⟩

theorem Rd.Assigns.cons {rd rd₂ : Rd w} {call ref u : Nat} {c : Fcall w} {t : Ftrace w}
    {cs : List Nat} (hlive : ∀ v, rd.StoredTrace v → ∃ y, rd.ftrace v = some y)
    (hc : rd.fcall call = some c) (ht : rd.ftrace u = some t) (hnot : call ∉ cs) (h : (rd.linkFcall call c ref u t).Assigns cs u rd₂) :
    rd.Assigns (call :: cs) u rd₂ := by
  have hother : ∀ d, d ≠ call → (rd.linkFcall call c ref u t).fcall d = rd.fcall d := fun d hd =>
    Function.update_of_ne hd _ _
  have hrest : rd.SameRest (rd.linkFcall call c ref u t) := rfl
  have hkeyed : rd.Keyed → (rd.linkFcall call c ref u t).Keyed := fun hkeyed => by
    refine hkeyed.of_same rfl (fun v hv => ⟨hv, fun y hy => Rd.linkFcall_ftrace ht hy⟩) ?_
    intro v hv
    by_cases hvu : v = u
    · exact ⟨_, by rw [hvu]; exact Function.update_self ..⟩
    · obtain ⟨z, hz⟩ := hlive v hv
      exact ⟨z, (Function.update_of_ne hvu _ _).trans hz⟩
  refine ⟨h.linked, h.keyed ∘ hkeyed, hrest.trans h.sameRest, h.calls, h.ftraces, h.refNode,
    h.fresh, ?_, ?_, ?_, ?_⟩
  · intro d hd
    rw [List.mem_cons, not_or] at hd
    rw [h.fcall_other d hd.2, hother d hd.1]
  · intro d hd x hx
    by_cases hdc : d = call
    · subst hdc
      rw [hc, Option.some.injEq] at hx
      subst hx
      exact ⟨ref, by rw [h.fcall_other d hnot]; exact Function.update_self ..⟩
    · exact h.fcall_mem d ((List.mem_cons.mp hd).resolve_left hdc) x ((hother d hdc).trans hx)
  · intro v hv
    rw [h.ftrace_other v hv]
    exact Function.update_of_ne hv _ _
  · intro y hy
    rw [ht, Option.some.injEq] at hy
    subst hy
    obtain ⟨y', hy', hframes, hcount⟩ := h.ftrace_self _ (Function.update_self ..)
    refine ⟨y', hy', hframes, ?_⟩
    rw [hcount]
    simp only [dlistAdd, List.length_append, List.length_cons, List.length_nil]
    omega

/-- The loop of `rd_fcalls_set_ftrace` over reference nodes `rs` of the
calls `cs`, none of which has a backtrace yet. -/
theorem storeFcallTrace_foldlM {u : Nat} :
    ∀ {rs cs : List Nat} {rd : Rd w}, rd.Linked → rd.StoredTrace u →
      (∃ t, rd.ftrace u = some t) → cs.Nodup → List.Forall₂ (fun r c => rd.refNode r = some c) rs cs →
      (∀ c ∈ cs, c ∈ rd.calls ∧ ∃ x, rd.fcall c = some x ∧ x.trace = none) →
      ∃ rd', rs.foldlM (storeFcallTrace u) rd = some rd' ∧ rd.Assigns cs u rd'
  | [], _, rd, h, _, _, _, hrefs, _ => by
      cases hrefs
      exact ⟨rd, rfl, h.assigns_nil u⟩
  | r :: rs, _, rd, h, hst, ⟨t, ht⟩, hnd, hrefs, hcs => by
      cases hrefs with
      | @cons _ c _ cs hr hrefs =>
        obtain ⟨hmem, x, hx, hnone⟩ := hcs c (by simp)
        have hnot : c ∉ cs := (List.nodup_cons.mp hnd).1
        have hlinked := h.linkFcall hmem hx hnone hr hst ht
        have hrest : ∀ d ∈ cs, d ∈ rd.calls ∧
            ∃ z, (rd.linkFcall c x r u t).fcall d = some z ∧ z.trace = none := by
          intro d hd
          obtain ⟨hdm, z, hz, hzn⟩ := hcs d (by simp [hd])
          have hdc : d ≠ c := fun e => hnot (e ▸ hd)
          exact ⟨hdm, z, (Function.update_of_ne hdc _ _).trans hz, hzn⟩
        obtain ⟨rd', hfold, has⟩ := storeFcallTrace_foldlM hlinked hst
          ⟨_, Function.update_self ..⟩ (List.nodup_cons.mp hnd).2 hrefs hrest
        refine ⟨rd', ?_, has.cons (fun v hv => (h.stored_live v hv).imp fun _ hy => hy.1) hx ht hnot⟩
        rw [List.foldlM_cons]
        simp only [storeFcallTrace, hr, Option.bind_eq_bind, Option.bind_some,
          rdLinkFcall_eq hx ht]
        exact hfold

/-- What the two set-trace functions do for calls `cs`: afterwards all of
them have the one stored backtrace with the given frame addresses. -/
structure Rd.SetsTrace (rd : Rd w) (cs : List Nat) (frames : List (Frame w)) (rd' : Rd w) (u : Nat) :
    Prop where
  whole : rd'.Whole
  sameRest : rd.SameRest rd'
  calls : rd'.calls = rd.calls
  fresh_le : rd.fresh ≤ rd'.fresh
  fcall_other : ∀ d, d ∉ cs → rd'.fcall d = rd.fcall d
  fcall_mem : ∀ d ∈ cs, ∀ x, rd.fcall d = some x →
    ∃ r, rd'.fcall d = some { x with trace := some u, ref := some r }
  stored : ∀ v, rd'.StoredTrace v ↔ rd.StoredTrace v ∨ v = u
  frames_old : ∀ v z, rd.StoredTrace v → rd.ftrace v = some z →
    ∃ z', rd'.ftrace v = some z' ∧ z'.frames = z.frames
  frames_new : ∃ y, rd'.ftrace u = some y ∧ y.frames.map Frame.addr = frames.map Frame.addr ∧
    (¬ rd.StoredTrace u → y.frames = frames)
  ftrace_other : ∀ v, v ≠ u → rd.StoredTrace v → rd'.ftrace v = rd.ftrace v
  calls_new : ∃ y, rd'.ftrace u = some y ∧
    (∀ z, rd.StoredTrace u → rd.ftrace u = some z → y.calls.length = z.calls.length + cs.length) ∧
    (¬ rd.StoredTrace u → y.calls.length = cs.length)

/-- Storing a new backtrace and linking a non-empty list of calls to it.
Before and in between (`rd₁`, `rd₃`) only reference nodes and the new
backtrace are allocated. -/
theorem Rd.Shares.setsTrace {rd rd₁ rd₂ rd₃ rd' : Rd w} {trace u : Nat} (h : rd.Whole)
    {frames : List (Frame w)} {cs : List Nat} (hne : cs ≠ [])
    (hrd₁ : rd₁ = { rd with ftrace := rd₁.ftrace, refNode := rd₁.refNode, fresh := rd₁.fresh })
    (hfresh₁ : rd.fresh ≤ rd₁.fresh)
    (hftrace : ∀ v, rd.StoredTrace v → rd₁.ftrace v = rd.ftrace v)
    (hsh : rd₁.Shares trace { bucket := none, refCount := 0, frames, calls := [] } rd₂ u)
    (hrd₃ : rd₃ = { rd₂ with refNode := rd₃.refNode, fresh := rd₃.fresh })
    (hfresh₃ : rd₂.fresh ≤ rd₃.fresh)
    (has : rd₃.Assigns cs u rd') : rd.SetsTrace cs frames rd' u := by
  have hst₁ : ∀ v, rd₁.StoredTrace v ↔ rd.StoredTrace v := fun v => by rw [hrd₁]; rfl
  have hcalls : rd₁.calls = rd.calls := by rw [hrd₁]
  have hfcall : rd₁.fcall = rd.fcall := by rw [hrd₁]
  have hrest : rd.SameRest rd₁ := by rw [hrd₁]; rfl
  have hcalls₃ : rd₃.calls = rd₂.calls := by rw [hrd₃]
  have hfcall₃ : rd₃.fcall = rd₂.fcall := by rw [hrd₃]
  have hftrace₃ : rd₃.ftrace = rd₂.ftrace := by rw [hrd₃]
  have hftraces₃ : rd₃.ftraces = rd₂.ftraces := by rw [hrd₃]
  have hrest₃ : rd₂.SameRest rd₃ := by rw [hrd₃]; rfl
  have hst : ∀ v, rd'.StoredTrace v ↔ rd.StoredTrace v ∨ v = u := fun v => by
    rw [← hst₁ v, ← hsh.stored_iff v]
    simp only [Rd.StoredTrace, has.ftraces, hftraces₃]
  obtain ⟨y, hy, haddr, hnew⟩ := hsh.frames
  obtain ⟨y', hy', hframes, hcount⟩ := has.ftrace_self y (by rw [hftrace₃]; exact hy)
  -- a backtrace that was stored before keeps its record, `u` apart
  have hold : ∀ v, v ≠ u → rd.StoredTrace v → rd'.ftrace v = rd.ftrace v := fun v hv hstv => by
    rw [has.ftrace_other v hv, hftrace₃, hsh.ftrace v ((hst₁ v).mpr hstv), hftrace v hstv]
  have hfresh : rd.fresh ≤ rd'.fresh := by
    rw [has.fresh]
    exact Nat.le_trans hfresh₁ (hsh.fresh ▸ hfresh₃)
  have hkeyed : rd'.Keyed := by
    refine has.keyed ?_
    have h₁ : rd₁.Keyed := h.keyed.of_same (by rw [hrd₁])
      (fun v hv => ⟨(hst₁ v).mp hv, fun y hy => ⟨y, hftrace v ((hst₁ v).mp hv) ▸ hy, rfl, rfl⟩⟩)
      fun v hv => by
        obtain ⟨z, hz, -⟩ := h.stored_live v ((hst₁ v).mp hv)
        exact ⟨z, (hftrace v ((hst₁ v).mp hv)).trans hz⟩
    refine (hsh.keyed h₁).of_same (by rw [hftraces₃]) ?_ ?_
    · intro v hv
      rw [Rd.StoredTrace, hftraces₃] at hv
      exact ⟨hv, fun y hy => ⟨y, hftrace₃ ▸ hy, rfl, rfl⟩⟩
    · intro v hv
      rw [Rd.StoredTrace, hftraces₃] at hv
      rw [hftrace₃]
      exact (hsh.linked.stored_live v hv).imp fun _ hy => hy.1
  refine ⟨⟨has.linked, hkeyed, ?_⟩, ?_, ?_, hfresh, ?_, ?_, hst, ?_, ⟨y', hy', ?_, ?_⟩, hold,
    ⟨y', hy', ?_, ?_⟩⟩
  · intro v z hv hz
    by_cases hvu : v = u
    · subst hvu
      rw [hy', Option.some.injEq] at hz
      subst hz
      have hlen : 0 < cs.length := List.length_pos_of_ne_nil hne
      exact List.ne_nil_of_length_pos (by omega)
    · have hstv := ((hst v).mp hv).resolve_right hvu
      exact h.used v z hstv (hold v hvu hstv ▸ hz)
  · exact ((hrest.trans hsh.sameRest).trans hrest₃).trans has.sameRest
  · rw [has.calls, hcalls₃, hsh.calls, hcalls]
  · intro d hd
    rw [has.fcall_other d hd, hfcall₃, hsh.fcall, hfcall]
  · intro d hd x hx
    exact has.fcall_mem d hd x (by rw [hfcall₃, hsh.fcall, hfcall]; exact hx)
  · intro v z hv hz
    by_cases hvu : v = u
    · subst hvu
      have hyz : rd₁.ftrace v = some y := (hsh.ftrace v ((hst₁ v).mpr hv)).symm.trans hy
      rw [hftrace v hv, hz, Option.some.injEq] at hyz
      exact ⟨y', hy', by rw [hframes, hyz]⟩
    · exact ⟨z, (hold v hvu hv).trans hz, rfl⟩
  · rw [hframes]; exact haddr
  · intro hno
    rw [hframes]
    exact (hnew (fun hc => hno ((hst₁ u).mp hc))).2.1
  · intro z hu hz
    have hyz : rd₁.ftrace u = some y := (hsh.ftrace u ((hst₁ u).mpr hu)).symm.trans hy
    rw [hftrace u hu, hz, Option.some.injEq] at hyz
    rw [hcount, hyz]
  · intro hno
    rw [hcount, (hnew (fun hc => hno ((hst₁ u).mp hc))).2.2, List.length_nil, Nat.zero_add]

/-- `rd_fcall_set_ftrace` with a new backtrace, as the binary parser calls it. -/
def rdSetNewFtrace (rd : Rd w) (call : Nat) (frames : List (Frame w)) : Option (Rd w) :=
  let (rd, trace) := rdNewFtrace rd frames
  rdFcallSetFtrace rd call trace

theorem rdNewFtrace_ftrace {rd : Rd w} (h : rd.Linked) (frames : List (Frame w)) (v : Nat)
    (hv : rd.StoredTrace v) : (rdNewFtrace rd frames).1.ftrace v = rd.ftrace v := by
  obtain ⟨y, hy, -⟩ := h.stored_live v hv
  have := h.ftrace_old v y hy
  exact Function.update_of_ne (by omega) _ _

/-- **`rd_fcall_set_ftrace` keeps the store consistent**, for a call of the
list that has no backtrace yet. -/
theorem rdSetNewFtrace_setsTrace {rd : Rd w} (h : rd.Whole) {call : Nat} {c : Fcall w}
    (hmem : call ∈ rd.calls) (hc : rd.fcall call = some c) (hnone : c.trace = none)
    (frames : List (Frame w)) :
    ∃ rd' u, rdSetNewFtrace rd call frames = some rd' ∧ rd.SetsTrace [call] frames rd' u := by
  obtain ⟨rd₂, u, heq, hsh⟩ := rdShareFtrace_spec (rdNewFtrace_linked h.toLinked frames)
    (rdNewFtrace_newTrace h.toLinked frames)
  obtain ⟨y, hy, -⟩ := hsh.frames
  have h₃ := rdNewRef_linked hsh.linked call
  have hc₃ : (rdNewRef rd₂ call).1.fcall call = some c :=
    show rd₂.fcall call = some c by rw [hsh.fcall]; exact hc
  have hm₃ : call ∈ (rdNewRef rd₂ call).1.calls :=
    show call ∈ rd₂.calls by rw [hsh.calls]; exact hmem
  have hlink := h₃.linkFcall hm₃ hc₃ hnone (Function.update_self ..) hsh.stored hy
  have has := Rd.Assigns.cons (fun v hv => (h₃.stored_live v hv).imp fun _ hz => hz.1) hc₃ hy
    List.not_mem_nil (hlink.assigns_nil u)
  refine ⟨_, u, ?_, hsh.setsTrace h (List.cons_ne_nil _ _) rfl (Nat.le_succ _)
    (rdNewFtrace_ftrace h.toLinked frames) rfl (Nat.le_succ _) has⟩
  simp only [rdSetNewFtrace, rdFcallSetFtrace,
    show (rdNewFtrace rd frames).2 = rd.fresh from rfl, heq, Option.bind_eq_bind, Option.bind_some]
  exact rdLinkFcall_eq hc₃ hy

/-- Reference nodes for the calls of a list, in its order. -/
def rdNewRefs (rd : Rd w) : List Nat → Rd w × List Nat
  | [] => (rd, [])
  | call :: cs =>
      let (rd, ref) := rdNewRef rd call
      let (rd, refs) := rdNewRefs rd cs
      (rd, ref :: refs)

/-- `rd_fcalls_set_ftrace` with a list of call references and a new
backtrace, as the text parser calls it. -/
def rdSetNewFtraces (rd : Rd w) (cs : List Nat) (frames : List (Frame w)) : Option (Rd w) :=
  let (rd, refs) := rdNewRefs rd cs
  let (rd, trace) := rdNewFtrace rd frames
  rdFcallsSetFtrace rd refs trace

/-- New reference nodes point to their calls and touch nothing else. -/
theorem rdNewRefs_spec :
    ∀ (cs : List Nat) {rd : Rd w}, rd.Linked →
      (rdNewRefs rd cs).1.Linked ∧ rd.fresh ≤ (rdNewRefs rd cs).1.fresh ∧
      (rdNewRefs rd cs).1 = { rd with
        refNode := (rdNewRefs rd cs).1.refNode, fresh := (rdNewRefs rd cs).1.fresh } ∧
      (∀ r c, rd.refNode r = some c → (rdNewRefs rd cs).1.refNode r = some c) ∧
      List.Forall₂ (fun r c => (rdNewRefs rd cs).1.refNode r = some c) (rdNewRefs rd cs).2 cs
  | [], rd, h => ⟨h, Nat.le_refl _, rfl, fun _ _ hr => hr, .nil⟩
  | call :: cs, rd, h => by
      obtain ⟨hlinked, hfresh, heq, hkeep, hrefs⟩ := rdNewRefs_spec cs (rdNewRef_linked h call)
      have hself : (rdNewRef rd call).1.refNode rd.fresh = some call := Function.update_self ..
      refine ⟨hlinked, Nat.le_trans (Nat.le_succ _) hfresh, ?_, ?_, .cons (hkeep _ _ hself) hrefs⟩
      · simp only [rdNewRefs]
        rw [heq]
        simp only [rdNewRef]
      · intro r c hr
        have hrf : r ≠ rd.fresh := by have := h.ref_old r c hr; omega
        exact hkeep r c ((Function.update_of_ne hrf _ _).trans hr)

/-- **`rd_fcalls_set_ftrace` keeps the store consistent**, for references
`rs` to a non-empty list of different calls without a backtrace. -/
theorem rdFcallsSetFtrace_setsTrace {rd : Rd w} (h : rd.Whole) {rs cs : List Nat}
    (hne : cs ≠ []) (hnd : cs.Nodup)
    (hrefs : List.Forall₂ (fun r c => rd.refNode r = some c) rs cs)
    (hcs : ∀ c ∈ cs, c ∈ rd.calls ∧ ∃ x, rd.fcall c = some x ∧ x.trace = none)
    (frames : List (Frame w)) :
    ∃ rd' u, rdFcallsSetFtrace (rdNewFtrace rd frames).1 rs rd.fresh = some rd' ∧
      rd.SetsTrace cs frames rd' u := by
  obtain ⟨rd₂, u, heq, hsh⟩ := rdShareFtrace_spec (rdNewFtrace_linked h.toLinked frames)
    (rdNewFtrace_newTrace h.toLinked frames)
  obtain ⟨y, hy, -⟩ := hsh.frames
  have hrefs₂ : List.Forall₂ (fun r c => rd₂.refNode r = some c) rs cs := by
    rw [hsh.refNode]; exact hrefs
  have hcs₂ : ∀ c ∈ cs, c ∈ rd₂.calls ∧ ∃ x, rd₂.fcall c = some x ∧ x.trace = none := by
    rw [hsh.calls, hsh.fcall]; exact hcs
  obtain ⟨rd', hfold, has⟩ :=
    storeFcallTrace_foldlM hsh.linked hsh.stored ⟨y, hy⟩ hnd hrefs₂ hcs₂
  refine ⟨rd', u, ?_, hsh.setsTrace h hne rfl (Nat.le_succ _)
    (rdNewFtrace_ftrace h.toLinked frames) rfl (Nat.le_refl _) has⟩
  simp only [rdFcallsSetFtrace, heq, Option.bind_eq_bind, Option.bind_some]
  exact hfold

/-- What a store does is what it does from before the references to the
calls were made. -/
theorem Rd.SetsTrace.of_refs {rd rd₀ rd' : Rd w} {cs : List Nat} {frames : List (Frame w)} {u : Nat}
    (hrd₀ : rd₀ = { rd with refNode := rd₀.refNode, fresh := rd₀.fresh })
    (hfresh : rd.fresh ≤ rd₀.fresh) (h : rd₀.SetsTrace cs frames rd' u) :
    rd.SetsTrace cs frames rd' u := by
  have hfcall : rd₀.fcall = rd.fcall := by rw [hrd₀]
  have hftrace : rd₀.ftrace = rd.ftrace := by rw [hrd₀]
  have hst : ∀ v, rd₀.StoredTrace v ↔ rd.StoredTrace v := fun v => by rw [hrd₀]; rfl
  have hrest : rd.SameRest rd₀ := by rw [hrd₀]; rfl
  refine ⟨h.whole, hrest.trans h.sameRest, h.calls.trans (by rw [hrd₀]),
    Nat.le_trans hfresh h.fresh_le, ?_, ?_, ?_, ?_, ?_, ?_, ?_⟩
  · intro d hd
    rw [h.fcall_other d hd, hfcall]
  · intro d hd x hx
    exact h.fcall_mem d hd x (by rw [hfcall]; exact hx)
  · intro v
    rw [h.stored, hst]
  · intro v z hv hz
    exact h.frames_old v z ((hst v).mpr hv) (by rw [hftrace]; exact hz)
  · obtain ⟨y, hy, haddr, hnew⟩ := h.frames_new
    exact ⟨y, hy, haddr, fun hno => hnew fun hc => hno ((hst u).mp hc)⟩
  · intro v hvu hv
    rw [h.ftrace_other v hvu ((hst v).mpr hv), hftrace]
  · obtain ⟨y, hy, hold, hnew⟩ := h.calls_new
    exact ⟨y, hy, fun z hu hz => hold z ((hst u).mpr hu) (by rw [hftrace]; exact hz),
      fun hno => hnew fun hc => hno ((hst u).mp hc)⟩

/-- The same with reference nodes that are made for the purpose. -/
theorem rdSetNewFtraces_setsTrace {rd : Rd w} (h : rd.Whole) {cs : List Nat} (hne : cs ≠ [])
    (hnd : cs.Nodup) (hcs : ∀ c ∈ cs, c ∈ rd.calls ∧ ∃ x, rd.fcall c = some x ∧ x.trace = none)
    (frames : List (Frame w)) :
    ∃ rd' u, rdSetNewFtraces rd cs frames = some rd' ∧ rd.SetsTrace cs frames rd' u := by
  obtain ⟨hlinked, hfresh, heq₀, -, hrefs⟩ := rdNewRefs_spec cs h.toLinked
  set rd₀ := (rdNewRefs rd cs).1 with hrd₀
  have h₀ : rd₀.Whole := h.of_linked hlinked (by rw [heq₀]) (by rw [heq₀])
  have hcs₀ : ∀ c ∈ cs, c ∈ rd₀.calls ∧ ∃ x, rd₀.fcall c = some x ∧ x.trace = none := by
    rw [heq₀]; exact hcs
  obtain ⟨rd', u, heq, hset⟩ := rdFcallsSetFtrace_setsTrace h₀ hne hnd hrefs hcs₀ frames
  exact ⟨rd', u, heq, hset.of_refs heq₀ hfresh⟩

/-! ## Removing a call -/

/-- What `rd_fcall_remove` does to the list and the records of the calls. -/
structure Rd.Removes (rd : Rd w) (call : Nat) (rd' : Rd w) : Prop where
  integrity : rd'.Integrity
  sameRest : rd.SameRest rd'
  calls : rd'.calls = rd.calls.erase call
  size : rd'.ftraces.size = rd.ftraces.size
  fcall_other : ∀ d, d ≠ call → rd'.fcall d = rd.fcall d
  stored : ∀ v, rd'.StoredTrace v → rd.StoredTrace v
  frames : ∀ v y, rd'.StoredTrace v → rd'.ftrace v = some y →
    ∃ z, rd.ftrace v = some z ∧ y.frames = z.frames ∧ y.bucket = z.bucket
  calls_le : ∀ v y, rd'.StoredTrace v → rd'.ftrace v = some y →
    ∃ z, rd.ftrace v = some z ∧ y.calls.length ≤ z.calls.length

/-- The backtrace `v` was `z`; what is left of it, `y`, has no reference to
`call`. -/
structure Rd.Loses (rd : Rd w) (call v : Nat) (z y : Ftrace w) : Prop where
  stored : rd.StoredTrace v
  ftrace : rd.ftrace v = some z
  frames : y.frames = z.frames
  bucket : y.bucket = z.bucket
  nodup : y.calls.Nodup
  refCount : y.refCount = BitVec.ofNat 32 y.calls.length
  used : y.calls ≠ []
  le : y.calls.length ≤ z.calls.length
  refs : ∀ r ∈ y.calls, r ∈ z.calls ∧ rd.refNode r ≠ some call

/-- A backtrace of other calls is left as it was. -/
theorem Rd.Integrity.loses_self {rd : Rd w} (h : rd.Integrity) {call v : Nat} {z : Ftrace w}
    (hv : rd.StoredTrace v) (hz : rd.ftrace v = some z)
    (hrefs : ∀ r ∈ z.calls, rd.refNode r ≠ some call) : rd.Loses call v z z := by
  obtain ⟨hnd, hcount, -⟩ := h.trace_calls v z hv hz
  exact ⟨hv, hz, rfl, rfl, hnd, hcount, h.used v z hv hz, Nat.le_refl _,
    fun r hr => ⟨hr, hrefs r hr⟩⟩

/-- The invariant after the removal, from what happens to the backtraces:
those still stored lose only references to `call`, and a reference to
another call is never lost. -/
theorem Rd.Integrity.removes {rd rd' : Rd w} (h : rd.Integrity) {call : Nat}
    (hrest : rd.SameRest rd') (hcalls : rd'.calls = rd.calls.erase call)
    (hsize : rd'.ftraces.size = rd.ftraces.size)
    (hfcall : rd'.fcall = Function.update rd.fcall call none) (hfresh : rd'.fresh = rd.fresh)
    (hftrace_old : ∀ v y, rd'.ftrace v = some y → ∃ z, rd.ftrace v = some z)
    (href_old : ∀ r d, rd'.refNode r = some d → rd.refNode r = some d)
    (hplaced : rd'.ftraces.Placed rd.bucketOf)
    (hlive : ∀ v, rd'.StoredTrace v → ∃ y, rd'.ftrace v = some y)
    (hold : ∀ v y, rd'.StoredTrace v → rd'.ftrace v = some y → ∃ z, rd.Loses call v z y)
    (hkeep : ∀ v z r d, rd.StoredTrace v → rd.ftrace v = some z → r ∈ z.calls →
      rd.refNode r = some d → d ≠ call →
      rd'.StoredTrace v ∧ ∃ y, rd'.ftrace v = some y ∧ r ∈ y.calls ∧ rd'.refNode r = some d) :
    rd.Removes call rd' := by
  have hother : ∀ d, d ≠ call → rd'.fcall d = rd.fcall d := fun d hd => by
    rw [hfcall]; exact Function.update_of_ne hd _ _
  have hsome : ∀ d x, rd'.fcall d = some x → d ≠ call ∧ rd.fcall d = some x := by
    intro d x hx
    have hd : d ≠ call := by
      rintro rfl
      rw [hfcall, Function.update_self] at hx
      cases hx
    exact ⟨hd, hother d hd ▸ hx⟩
  have hmem : ∀ d, d ∈ rd'.calls ↔ d ≠ call ∧ d ∈ rd.calls := fun d => by
    rw [hcalls]; exact h.calls_nodup.mem_erase_iff
  have hbucket : ∀ v, rd'.StoredTrace v → rd'.bucketOf v = rd.bucketOf v := by
    intro v hv
    obtain ⟨y, hy⟩ := hlive v hv
    obtain ⟨z, hloses⟩ := hold v y hv hy
    simp only [Rd.bucketOf, hy, hloses.ftrace, Option.bind_some, hloses.bucket]
  have hstored : ∀ v, rd'.StoredTrace v → rd.StoredTrace v := by
    intro v hv
    obtain ⟨y, hy⟩ := hlive v hv
    obtain ⟨z, hloses⟩ := hold v y hv hy
    exact hloses.stored
  refine ⟨⟨⟨?_, ?_, ?_, ?_, ?_, hplaced.congr fun v hv => (hbucket v hv).symm, ?_, ?_, ?_, ?_⟩,
    ?_, ?_⟩, hrest, hcalls, hsize, hother, hstored, ?_, ?_⟩
  · rw [hcalls]; exact h.calls_nodup.erase _
  · intro d hd
    rw [hmem] at hd
    rw [hother d hd.1]
    exact h.call_live d hd.2
  · intro d x hx
    rw [hfresh]; exact h.fcall_old d x (hsome d x hx).2
  · intro v y hy
    obtain ⟨z, hz⟩ := hftrace_old v y hy
    rw [hfresh]; exact h.ftrace_old v z hz
  · intro r d hr
    rw [hfresh]; exact h.ref_old r d (href_old r d hr)
  · intro hpos v hv
    rw [hsize] at hpos ⊢
    rw [hbucket v hv]
    exact h.housed hpos v (hstored v hv)
  · intro v hv
    obtain ⟨y, hy⟩ := hlive v hv
    obtain ⟨z, hloses⟩ := hold v y hv hy
    obtain ⟨z', hz', hzb⟩ := h.stored_live v hloses.stored
    rw [hloses.ftrace, Option.some.injEq] at hz'
    subst hz'
    exact ⟨y, hy, by rw [hloses.bucket, hbucket v hv, hzb]⟩
  · intro d hd x v hx hxt
    obtain ⟨hdc, hx⟩ := hsome d x hx
    obtain ⟨hst, r, z, hxr, hz, hrm, hrd⟩ := h.call_trace d ((hmem d).mp hd).2 x v hx hxt
    obtain ⟨hst', y, hy, hry, hrd'⟩ := hkeep v z r d hst hz hrm hrd hdc
    exact ⟨hst', r, y, hxr, hy, hry, hrd'⟩
  · intro v y hv hy
    obtain ⟨z, hloses⟩ := hold v y hv hy
    refine ⟨hloses.nodup, hloses.refCount, fun r hr => ?_⟩
    obtain ⟨hrz, hrne⟩ := hloses.refs r hr
    obtain ⟨d, hd, x, hrd, hx, hxt, hxr⟩ :=
      (h.trace_calls v z hloses.stored hloses.ftrace).2.2 r hrz
    have hdc : d ≠ call := fun e => hrne (e ▸ hrd)
    obtain ⟨-, y', hy', -, hrd'⟩ := hkeep v z r d hloses.stored hloses.ftrace hrz hrd hdc
    exact ⟨d, (hmem d).mpr ⟨hdc, hd⟩, x, hrd', (hother d hdc).trans hx, hxt, hxr⟩
  · intro v y hv hy
    obtain ⟨z, hloses⟩ := hold v y hv hy
    exact hloses.used
  · intro v y hv hy
    obtain ⟨z, hloses⟩ := hold v y hv hy
    exact hloses.le.trans (h.counted v z hloses.stored hloses.ftrace)
  · intro v y hv hy
    obtain ⟨z, hloses⟩ := hold v y hv hy
    exact ⟨z, hloses.ftrace, hloses.frames, hloses.bucket⟩
  · intro v y hv hy
    obtain ⟨z, hloses⟩ := hold v y hv hy
    exact ⟨z, hloses.ftrace, hloses.le⟩

/-- A store the parsers built stays one. -/
theorem Rd.Removes.whole {rd rd' : Rd w} {call : Nat} (h : rd.Removes call rd') (hkeyed : rd.Keyed) :
    rd'.Whole :=
  ⟨h.integrity.toLinked, hkeyed.of_same h.size (fun v hv => ⟨h.stored v hv, fun y => h.frames v y hv⟩)
    fun v hv => (h.integrity.stored_live v hv).imp fun _ hy => hy.1, h.integrity.used⟩

theorem Rd.Removes.calls_filter {rd rd' : Rd w} {c : Nat} (hint : rd.Integrity)
    (h : rd.Removes c rd') : rd'.calls = rd.calls.filter fun d => d ∉ [c] := by
  rw [h.calls, hint.calls_nodup.erase_eq_filter]
  apply List.filter_congr
  intro d _
  by_cases hd : d = c <;> simp [hd]

/-- The calls that are left look as they did before. -/
theorem Rd.Removes.fcall_left {rd rd' : Rd w} {c : Nat} (hint : rd.Integrity)
    (h : rd.Removes c rd') : ∀ d ∈ rd'.calls, rd'.fcall d = rd.fcall d := by
  intro d hd
  refine h.fcall_other d ?_
  rintro rfl
  rw [h.calls] at hd
  exact (hint.calls_nodup.mem_erase_iff.mp hd).1 rfl

/-- A call without a backtrace has no reference anywhere. -/
theorem Rd.Linked.ref_ne_of_no_trace {rd : Rd w} (h : rd.Linked) {call : Nat} {x : Fcall w}
    (hx : rd.fcall call = some x) (hnone : x.trace = none) {v : Nat} {z : Ftrace w}
    (hst : rd.StoredTrace v) (hz : rd.ftrace v = some z) {r : Nat} (hr : r ∈ z.calls) :
    rd.refNode r ≠ some call := fun hrc => h.ref_not_mem hx hnone hrc hst hz hr

/-- The references to a call with a backtrace are one node of one list. -/
theorem Rd.Linked.ref_unique {rd : Rd w} (h : rd.Linked) {call t r : Nat} {x : Fcall w}
    (hx : rd.fcall call = some x) (hxt : x.trace = some t) (hxr : x.ref = some r)
    {v : Nat} {z : Ftrace w} (hst : rd.StoredTrace v) (hz : rd.ftrace v = some z) {s : Nat}
    (hs : s ∈ z.calls) (hsc : rd.refNode s = some call) : v = t ∧ s = r := by
  obtain ⟨d, -, x', hrd, hx', hxt', hxr'⟩ := (h.trace_calls v z hst hz).2.2 s hs
  rw [hsc, Option.some.injEq] at hrd
  subst hrd
  rw [hx, Option.some.injEq] at hx'
  subst hx'
  rw [hxt, Option.some.injEq] at hxt'
  rw [hxr, Option.some.injEq] at hxr'
  exact ⟨hxt'.symm, hxr'.symm⟩

/-- `--trace->ref_count` counts the calls that are left. -/
theorem ofNat_length_erase {calls : List Nat} {r : Nat} (hr : r ∈ calls) :
    BitVec.ofNat 32 (calls.erase r).length = BitVec.ofNat 32 calls.length - 1 := by
  obtain ⟨n, hn⟩ := Nat.exists_eq_add_of_lt (List.length_pos_of_mem hr)
  rw [List.length_erase_of_mem hr, hn]
  simp [BitVec.ofNat_add]

/-- It is zero after the last of at most `2 ^ 32` calls and no other. -/
theorem ofNat_length_eq_zero {calls : List Nat} (h : calls.length < 2 ^ 32) :
    BitVec.ofNat 32 calls.length = 0 ↔ calls = [] := by
  rw [← List.length_eq_zero_iff]
  constructor
  · intro hzero
    have hmod := congrArg BitVec.toNat hzero
    rw [BitVec.toNat_ofNat, Nat.mod_eq_of_lt h] at hmod
    exact hmod
  · intro hzero
    rw [hzero]
    rfl

/-- The one reference to `call`: the node `r` of the backtrace `t`. -/
structure Rd.Refers (rd : Rd w) (call t r : Nat) (y : Ftrace w) : Prop where
  stored : rd.StoredTrace t
  ftrace : rd.ftrace t = some y
  mem : r ∈ y.calls
  refNode : rd.refNode r = some call
  unique : ∀ v z s, rd.StoredTrace v → rd.ftrace v = some z → s ∈ z.calls →
    rd.refNode s = some call → v = t ∧ s = r

theorem Rd.Linked.refers {rd : Rd w} (h : rd.Linked) {call t : Nat} (hmem : call ∈ rd.calls)
    {x : Fcall w} (hx : rd.fcall call = some x) (hxt : x.trace = some t) :
    ∃ r y, x.ref = some r ∧ rd.Refers call t r y := by
  obtain ⟨hst, r, y, hxr, hy, hry, hrc⟩ := h.call_trace call hmem x t hx hxt
  exact ⟨r, y, hxr, hst, hy, hry, hrc, fun v z s hv hz hs hsc =>
    h.ref_unique hx hxt hxr hv hz hs hsc⟩

theorem Rd.Refers.node_ne {rd : Rd w} {call t r : Nat} {y : Ftrace w} (h : rd.Refers call t r y)
    {s d : Nat} (hs : rd.refNode s = some d) (hd : d ≠ call) : s ≠ r := by
  rintro rfl
  rw [h.refNode, Option.some.injEq] at hs
  exact hd hs.symm

/-- The nodes that are left are those of before. -/
theorem of_update_none {nodes : Nat → Option Nat} {r s d : Nat}
    (hs : Function.update nodes r none s = some d) : nodes s = some d := by
  by_cases hsr : s = r
  · subst hsr
    rw [Function.update_self] at hs
    cases hs
  · simpa only [Function.update_of_ne hsr] using hs

theorem Rd.Refers.ftrace_old {rd : Rd w} {call t r : Nat} {y : Ftrace w}
    (h : rd.Refers call t r y) {y' : Option (Ftrace w)} {v : Nat} {z : Ftrace w}
    (hz : Function.update rd.ftrace t y' v = some z) : ∃ z', rd.ftrace v = some z' := by
  by_cases hvt : v = t
  · exact ⟨y, hvt ▸ h.ftrace⟩
  · exact ⟨z, by simpa only [Function.update_of_ne hvt] using hz⟩

/-- The other backtraces are left as they were. -/
theorem Rd.Refers.loses_other {rd : Rd w} {call t r : Nat} {y : Ftrace w}
    (hr : rd.Refers call t r y) (h : rd.Integrity) {y' : Option (Ftrace w)} {v : Nat} {z : Ftrace w}
    (hvt : v ≠ t) (hv : rd.StoredTrace v) (hz : Function.update rd.ftrace t y' v = some z) :
    rd.Loses call v z z := by
  have hz₀ : rd.ftrace v = some z := by simpa only [Function.update_of_ne hvt] using hz
  exact h.loses_self hv hz₀ fun s hs hsc => hvt (hr.unique v z s hv hz₀ hs hsc).1

/-- The call was the last one of its backtrace, which goes with it. -/
theorem Rd.Refers.removes_last {rd : Rd w} {call t r : Nat} {y : Ftrace w}
    (hr : rd.Refers call t r y) (h : rd.Integrity) (hnil : y.calls.erase r = []) :
    rd.Removes call
      { rd with
        calls := rd.calls.erase call
        ftraces := rd.ftraces.setBucket (rd.bucketOf t)
          ((rd.ftraces.buckets (rd.bucketOf t)).erase t)
        ftrace := Function.update rd.ftrace t none
        refNode := Function.update rd.refNode r none
        fcall := Function.update rd.fcall call none } := by
  have hnd := (h.trace_calls t y hr.stored hr.ftrace).1
  have hsole : ∀ s ∈ y.calls, s = r := fun s hs => by
    by_contra hsr
    have := hnd.mem_erase_iff.mpr ⟨hsr, hs⟩
    rw [hnil] at this
    cases this
  have hstored : ∀ v, (rd.ftraces.setBucket (rd.bucketOf t)
      ((rd.ftraces.buckets (rd.bucketOf t)).erase t)).Stored v ↔ rd.StoredTrace v ∧ v ≠ t :=
    h.placed.stored_erase ((h.placed.stored_iff t).mp hr.stored)
  refine h.removes rfl rfl rfl rfl rfl (fun v z => hr.ftrace_old) (fun s d => of_update_none)
    (h.placed.erase (rd.bucketOf t) t) ?_ ?_ ?_
  · intro v hv
    obtain ⟨hv, hvt⟩ := (hstored v).mp hv
    obtain ⟨z, hz, -⟩ := h.stored_live v hv
    exact ⟨z, (Function.update_of_ne hvt _ _).trans hz⟩
  · intro v z hv hz
    obtain ⟨hv, hvt⟩ := (hstored v).mp hv
    exact ⟨z, hr.loses_other h hvt hv hz⟩
  · intro v z s d hv hz hs hsd hdc
    have hsr := hr.node_ne hsd hdc
    have hvt : v ≠ t := by
      rintro rfl
      rw [hr.ftrace, Option.some.injEq] at hz
      subst hz
      exact hsr (hsole s hs)
    exact ⟨(hstored v).mpr ⟨hv, hvt⟩, z, (Function.update_of_ne hvt _ _).trans hz, hs,
      (Function.update_of_ne hsr _ _).trans hsd⟩

/-- Other calls keep the backtrace. -/
theorem Rd.Refers.removes_shared {rd : Rd w} {call t r : Nat} {y : Ftrace w}
    (hr : rd.Refers call t r y) (h : rd.Integrity) (hne : y.calls.erase r ≠ [])
    (hcount : y.refCount - 1 = BitVec.ofNat 32 (y.calls.erase r).length) :
    rd.Removes call
      { rd with
        calls := rd.calls.erase call
        ftrace := Function.update rd.ftrace t
          (some { y with refCount := y.refCount - 1, calls := y.calls.erase r })
        refNode := Function.update rd.refNode r none
        fcall := Function.update rd.fcall call none } := by
  have hnd := (h.trace_calls t y hr.stored hr.ftrace).1
  refine h.removes rfl rfl rfl rfl rfl (fun v z => hr.ftrace_old) (fun s d => of_update_none)
    h.placed ?_ ?_ ?_
  · intro v hv
    by_cases hvt : v = t
    · exact ⟨_, by rw [hvt]; exact Function.update_self ..⟩
    · obtain ⟨z, hz, -⟩ := h.stored_live v hv
      exact ⟨z, (Function.update_of_ne hvt _ _).trans hz⟩
  · intro v z hv hz
    by_cases hvt : v = t
    · subst hvt
      simp only [Function.update_self, Option.some.injEq] at hz
      subst hz
      refine ⟨y, hv, hr.ftrace, rfl, rfl, hnd.erase r, hcount, hne, List.length_erase_le,
        fun s hs => ?_⟩
      obtain ⟨hsr, hsy⟩ := hnd.mem_erase_iff.mp hs
      exact ⟨hsy, fun hsc => hsr (hr.unique v y s hv hr.ftrace hsy hsc).2⟩
    · exact ⟨z, hr.loses_other h hvt hv hz⟩
  · intro v z s d hv hz hs hsd hdc
    have hsr := hr.node_ne hsd hdc
    refine ⟨hv, ?_⟩
    by_cases hvt : v = t
    · subst hvt
      rw [hr.ftrace, Option.some.injEq] at hz
      subst hz
      exact ⟨_, Function.update_self .., hnd.mem_erase_iff.mpr ⟨hsr, hs⟩,
        (Function.update_of_ne hsr _ _).trans hsd⟩
    · exact ⟨z, (Function.update_of_ne hvt _ _).trans hz, hs,
        (Function.update_of_ne hsr _ _).trans hsd⟩

/-- **`rd_fcall_remove` keeps the store consistent**: for a call of the
list it follows no dangling pointer, takes exactly that call out, and
drops its backtrace with the last call that has it. -/
theorem rdFcallRemove_spec {rd : Rd w} (h : rd.Integrity) {call : Nat} (hmem : call ∈ rd.calls) :
    ∃ rd', rdFcallRemove rd call = some rd' ∧ rd.Removes call rd' := by
  obtain ⟨x, hx⟩ := h.call_live call hmem
  have hremove : rdFcallRemove rd call =
      (rdUnlinkFcall { rd with calls := rd.calls.erase call } x).bind fun rd =>
        some { rd with fcall := Function.update rd.fcall call none } := by
    simp only [rdFcallRemove, dlistRemove_of_mem hmem, hx, Option.bind_eq_bind, Option.bind_some]
  rw [hremove]
  cases hxt : x.trace with
  | none =>
    simp only [rdUnlinkFcall, hxt, Option.bind_some]
    refine ⟨_, rfl, h.removes rfl rfl rfl rfl rfl (fun v y hy => ⟨y, hy⟩) (fun r d hr => hr)
      h.placed ?_ ?_ ?_⟩
    · intro v hv
      obtain ⟨y, hy, -⟩ := h.stored_live v hv
      exact ⟨y, hy⟩
    · intro v y hv hy
      exact ⟨y, h.loses_self hv hy fun r hr => h.ref_ne_of_no_trace hx hxt hv hy hr⟩
    · intro v z r d hv hz hr hrd _
      exact ⟨hv, z, hz, hr, hrd⟩
  | some t =>
    obtain ⟨r, y, hxr, hr⟩ := h.refers hmem hx hxt
    obtain ⟨-, hcount, -⟩ := h.trace_calls t y hr.stored hr.ftrace
    obtain ⟨y', hy', hb⟩ := h.stored_live t hr.stored
    rw [hr.ftrace, Option.some.injEq] at hy'
    subst hy'
    have hless : (y.calls.erase r).length < y.calls.length := by
      have := List.length_pos_of_mem hr.mem
      rw [List.length_erase_of_mem hr.mem]
      omega
    have hleft : y.refCount - 1 = BitVec.ofNat 32 (y.calls.erase r).length := by
      rw [hcount, ofNat_length_erase hr.mem]
    have hlast : y.refCount - 1 = 0 ↔ y.calls.erase r = [] := by
      rw [hleft]
      exact ofNat_length_eq_zero
        (Nat.lt_of_lt_of_le hless (h.counted t y hr.stored hr.ftrace))
    simp only [rdUnlinkFcall, hxt, hxr, hr.ftrace, dlistRemove_of_mem hr.mem, Option.bind_eq_bind,
      Option.bind_some]
    by_cases hzero : y.refCount - 1 = 0
    · have hnil := hlast.mp hzero
      have hbucket : t ∈ rd.ftraces.buckets (rd.bucketOf t) :=
        (h.placed.stored_iff t).mp hr.stored
      simp only [hzero, if_true, hb, htableRemoveNode, dlistRemove_of_mem hbucket, rdFtraceFree,
        Function.update_self, hnil, Function.update_idem, List.not_mem_nil, if_false,
        Option.bind_eq_bind, Option.bind_some]
      exact ⟨_, rfl, hr.removes_last h hnil⟩
    · simp only [hzero, if_false, Option.bind_some]
      exact ⟨_, rfl, hr.removes_shared h (fun hnil => hzero (hlast.mpr hnil)) hleft⟩

/-! ## The calls of a backtrace

The references of a backtrace lead to its calls, each once. -/

/-- The calls whose trace is `t`. -/
def callsOf (rd : Rd w) (t : Nat) : List Nat :=
  rd.calls.filter fun c => decide ((rd.fcall c).bind Fcall.trace = some t)

theorem Rd.Linked.callsOf_length {rd : Rd w} (h : rd.Linked) {t : Nat} {y : Ftrace w}
    (hst : rd.StoredTrace t) (hy : rd.ftrace t = some y) :
    (callsOf rd t).length = y.calls.length := by
  obtain ⟨hnd, -, hrefs⟩ := h.trace_calls t y hst hy
  have hlen : (y.calls.map rd.refNode).length = y.calls.length := List.length_map ..
  -- `map some` turns the calls into what the reference nodes hold
  have hperm : ((callsOf rd t).map some).Perm (y.calls.map rd.refNode) := by
    rw [List.perm_ext_iff_of_nodup]
    · intro o
      simp only [List.mem_map, callsOf, List.mem_filter, decide_eq_true_eq]
      constructor
      · rintro ⟨c, ⟨hc, htr⟩, rfl⟩
        obtain ⟨x, hx⟩ := h.call_live c hc
        rw [hx] at htr
        obtain ⟨-, r, y', -, hy', hr, hrc⟩ := h.call_trace c hc x t hx htr
        obtain rfl := Option.some.inj (hy.symm.trans hy')
        exact ⟨r, hr, hrc⟩
      · rintro ⟨r, hr, rfl⟩
        obtain ⟨c, hc, x, hrc, hx, htr, -⟩ := hrefs r hr
        exact ⟨c, ⟨hc, by rw [hx]; exact htr⟩, hrc.symm⟩
    · exact (h.calls_nodup.filter _).map (fun _ _ heq => Option.some.inj heq)
    · refine hnd.map_on ?_
      intro r hr r' hr' heq
      obtain ⟨c, -, x, hrc, hx, -, hxr⟩ := hrefs r hr
      obtain ⟨c', -, x', hrc', hx', -, hxr'⟩ := hrefs r' hr'
      rw [hrc, hrc', Option.some.injEq] at heq
      subst heq
      obtain rfl := Option.some.inj (hx.symm.trans hx')
      exact Option.some.inj (hxr.symm.trans hxr')
  rw [← hlen, ← hperm.length_eq, List.length_map]

/-- A log of at most `2 ^ 32` calls is counted. -/
theorem Rd.Linked.counted {rd : Rd w} (h : rd.Linked) (hcalls : rd.calls.length ≤ 2 ^ 32) :
    rd.Counted := by
  intro t y hst hy
  rw [← h.callsOf_length hst hy]
  exact (List.length_filter_le _ _).trans hcalls

/-! ## The size of the table -/

theorem rdShareFtrace_size {rd rd' : Rd w} {trace u : Nat}
    (h : rdShareFtrace rd trace = some (rd', u)) : rd'.ftraces.size = rd.ftraces.size := by
  simp only [rdShareFtrace, Option.bind_eq_bind, Option.bind_eq_some_iff] at h
  obtain ⟨t, -, r, -, h⟩ := h
  cases r with
  | none =>
    simp only [Option.bind_eq_some_iff, Prod.exists, Option.some.injEq, Prod.mk.injEq] at h
    obtain ⟨ftraces, old, hstore, rfl, -⟩ := h
    exact htableStore_size hstore
  | some xtrace =>
    simp only [rdFtraceFree, Option.bind_eq_bind, Option.bind_eq_some_iff, Option.some.injEq,
      Prod.mk.injEq] at h
    obtain ⟨rd₁, ⟨t', -, rfl⟩, rfl, -⟩ := h
    rfl

theorem rdLinkFcall_size {rd rd' : Rd w} {call ref trace : Nat}
    (h : rdLinkFcall rd call ref trace = some rd') : rd'.ftraces.size = rd.ftraces.size := by
  simp only [rdLinkFcall, Option.bind_eq_bind, Option.bind_eq_some_iff, Option.some.injEq] at h
  obtain ⟨c, -, t, -, rfl⟩ := h
  rfl

theorem rdFcallSetFtrace_size {rd rd' : Rd w} {call trace : Nat}
    (h : rdFcallSetFtrace rd call trace = some rd') : rd'.ftraces.size = rd.ftraces.size := by
  simp only [rdFcallSetFtrace, Option.bind_eq_bind, Option.bind_eq_some_iff, Prod.exists] at h
  obtain ⟨rd₁, u, hshare, hlink⟩ := h
  have hlinked := rdLinkFcall_size hlink
  have hshared := rdShareFtrace_size hshare
  exact hlinked.trans hshared

theorem storeFcallTrace_foldlM_size {u : Nat} :
    ∀ {rs : List Nat} {rd rd' : Rd w}, rs.foldlM (storeFcallTrace u) rd = some rd' →
      rd'.ftraces.size = rd.ftraces.size
  | [], rd, rd', h => by
      obtain rfl := Option.some.inj h
      rfl
  | r :: rs, rd, rd', h => by
      rw [List.foldlM_cons] at h
      simp only [storeFcallTrace, Option.bind_eq_bind, Option.bind_eq_some_iff] at h
      obtain ⟨rd₁, ⟨call, -, hlink⟩, hrest⟩ := h
      exact (storeFcallTrace_foldlM_size hrest).trans (rdLinkFcall_size hlink)

theorem rdFcallsSetFtrace_size {rd rd' : Rd w} {calls : List Nat} {trace : Nat}
    (h : rdFcallsSetFtrace rd calls trace = some rd') : rd'.ftraces.size = rd.ftraces.size := by
  simp only [rdFcallsSetFtrace, Option.bind_eq_bind, Option.bind_eq_some_iff, Prod.exists] at h
  obtain ⟨rd₁, u, hshare, hlink⟩ := h
  exact (storeFcallTrace_foldlM_size hlink).trans (rdShareFtrace_size hshare)

/-- The iteration over the table comes by every stored backtrace once. -/
theorem Rd.Linked.ftraces_nodes {rd : Rd w} (h : rd.Linked) (hsize : 0 < rd.ftraces.size) :
    (htableNodes rd.ftraces).Nodup ∧ ∀ t, t ∈ htableNodes rd.ftraces ↔ rd.StoredTrace t :=
  h.placed.nodes (h.housed hsize)

end SpRtrace.Common
