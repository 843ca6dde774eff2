/-
SpRtrace.Timeline.ActivityReport — which activity reports are right.

All resource types and contexts share the time of the last step, and an
event makes at most one step, for the context it is reported in first. So
the report is right as long as a step is due only while a single resource
type has been used, outside of all contexts, and no gap is longer than a
step (`InStep`). `Timely` is kept by every event that is in step.
-/
import SpRtrace.Timeline.ActivityTheorems
import SpRtrace.Timeline.Reports

namespace SpRtrace.Timeline

open SpRtrace.Lib SpRtrace.Common SpRtrace.Library

variable {w : Nat}

/-! ## Events and their contexts -/

/-- An event with the resource and the contexts it is reported for. -/
structure Told (w : Nat) where
  resource : Resource
  contexts : List Context
  event : Event w

/-- The ids of the contexts, the one for all events first. -/
def Told.ids (x : Told w) : List (BitVec 32) := contextAll.id :: x.contexts.map Context.id

def Told.reports (x : Told w) : List (Report w) :=
  match x.event.type with
  | .alloc => allocReports x.resource x.contexts x.event
  | .free => .free x.resource x.event x.event :: x.contexts.map fun ctx =>
      .freeInContext x.resource ctx x.event x.event

/-- It is told about a resource type in a context. -/
def Told.isIn (x : Told w) (t k : BitVec 32) : Bool := x.resource.typeId == t && x.ids.contains k

/-- The events of a resource type in a context. -/
def eventsIn (told : List (Told w)) (t k : BitVec 32) : List (Event w) :=
  (told.filter fun x => x.isIn t k).map Told.event

def activityRun (sliceValue : BitVec 32) (told : List (Told w)) : Option (ActivityGenerator w) :=
  told.foldlM (fun g x => g.feed x.reports) (.new sliceValue)

@[simp] theorem Told.isIn_iff {x : Told w} {t k : BitVec 32} :
    x.isIn t k = true ↔ t = x.resource.typeId ∧ k ∈ x.ids := by
  rw [Told.isIn, Bool.and_eq_true, beq_iff_eq, List.contains_iff_mem, eq_comm]

theorem eventsIn_snoc (told : List (Told w)) (x : Told w) (t k : BitVec 32) :
    eventsIn (told ++ [x]) t k
      = if t = x.resource.typeId ∧ k ∈ x.ids then eventsIn told t k ++ [x.event]
        else eventsIn told t k := by
  unfold eventsIn
  rw [List.filter_append, List.map_append]
  by_cases hpair : t = x.resource.typeId ∧ k ∈ x.ids
  · have hone : [x].filter (fun x => x.isIn t k) = [x] :=
      List.filter_cons_of_pos (Told.isIn_iff.mpr hpair)
    rw [if_pos hpair, hone]
    rfl
  · have hnone : [x].filter (fun x => x.isIn t k) = [] :=
      List.filter_cons_of_neg (mt Told.isIn_iff.mp hpair)
    rw [if_neg hpair, hnone]
    exact List.append_nil _

theorem eventsIn_sublist (told : List (Told w)) (t k : BitVec 32) :
    (eventsIn told t k).Sublist (told.map Told.event) :=
  (List.filter_sublist ..).map _

theorem feed_reports (g : ActivityGenerator w) (x : Told w) :
    g.feed x.reports = (g.reportEvent x.resource x.event).map fun g =>
      x.contexts.foldl (fun g ctx => g.reportEventInContext x.resource ctx x.event) g := by
  have hcontexts : ∀ (report : Context → Report w),
      (∀ g ctx, ActivityGenerator.report g (report ctx)
        = some (g.reportEventInContext x.resource ctx x.event)) →
      ∀ g, (x.contexts.map report).foldlM ActivityGenerator.report g
        = some (x.contexts.foldl (fun g ctx => g.reportEventInContext x.resource ctx x.event) g) := by
    intro report hreport
    induction x.contexts with
    | nil => exact fun _ => rfl
    | cons ctx contexts ih =>
      intro g
      rw [List.map_cons, List.foldlM_cons, hreport]
      exact ih _
  unfold Told.reports ActivityGenerator.feed
  split
  · rw [allocReports, List.foldlM_cons]
    show (g.reportEvent x.resource x.event).bind _ = _
    cases g.reportEvent x.resource x.event with
    | none => rfl
    | some g₁ => exact hcontexts (.allocInContext x.resource · x.event) (fun _ _ => rfl) g₁
  · rw [List.foldlM_cons]
    show (g.reportEvent x.resource x.event).bind _ = _
    cases g.reportEvent x.resource x.event with
    | none => rfl
    | some g₁ => exact hcontexts (.freeInContext x.resource · x.event x.event) (fun _ _ => rfl) g₁

/-! ## The data of all contexts -/

/-- The data of all contexts is right for their events. -/
def DataRight (slice step next : Nat) (pairs : BitVec 32 → BitVec 32 → List (Event w))
    (data : BitVec 32 → BitVec 32 → Option (ActivityContext w)) : Prop :=
  ∀ t k, (pairs t k = [] → data t k = none) ∧ (pairs t k ≠ [] → ∃ cd times,
    data t k = some cd ∧ PairRight slice step next (pairs t k) cd times)

/-- One more event of a context. -/
def addPair (pairs : BitVec 32 → BitVec 32 → List (Event w)) (t₀ k₀ : BitVec 32)
    (event : Event w) (t k : BitVec 32) : List (Event w) :=
  if t = t₀ ∧ k = k₀ then pairs t k ++ [event] else pairs t k

theorem dataRight_add {slice step next : Nat} {pairs : BitVec 32 → BitVec 32 → List (Event w)}
    {g : ActivityGenerator w} (h : DataRight slice step next pairs g.contextData)
    (resource : Resource) (context : Context) {event : Event w}
    (hnext : next ≤ event.time + step) (hbefore : event.time < next) (hstep : step ≤ next) :
    DataRight slice step next (addPair pairs resource.typeId context.id event) fun t k =>
      if t = resource.typeId ∧ k = context.id then
        some ((g.dataOf resource context).addEvent event)
      else g.contextData t k := by
  intro t k
  by_cases hpair : t = resource.typeId ∧ k = context.id
  · obtain ⟨rfl, rfl⟩ := hpair
    dsimp only
    rw [addPair, if_pos ⟨rfl, rfl⟩, if_pos ⟨rfl, rfl⟩]
    refine ⟨fun hnil => absurd hnil (by simp), fun _ => ?_⟩
    obtain ⟨hnone, hsome⟩ := h resource.typeId context.id
    by_cases hE : pairs resource.typeId context.id = []
    · refine ⟨_, [], rfl, ?_⟩
      rw [hE, ActivityGenerator.dataOf, hnone hE]
      exact pair_new slice resource context hnext hbefore hstep
    · obtain ⟨cd, times, hcd, hright⟩ := hsome hE
      refine ⟨_, times, rfl, ?_⟩
      rw [ActivityGenerator.dataOf, hcd, Option.getD_some, hright.createFiles]
      exact pair_add hright hE hnext
  · dsimp only
    rw [addPair, if_neg hpair, if_neg hpair]
    exact h t k

/-- A step is due, and only this context has events. -/
theorem dataRight_step {slice step next : Nat} {pairs : BitVec 32 → BitVec 32 → List (Event w)}
    {g : ActivityGenerator w} (h : DataRight slice step next pairs g.contextData)
    {resource : Resource} {context : Context} (hsome : pairs resource.typeId context.id ≠ [])
    (honly : ∀ t k, ¬ (t = resource.typeId ∧ k = context.id) → pairs t k = [])
    (hsorted : (pairs resource.typeId context.id).Pairwise fun a b => a.time ≤ b.time)
    (hpast : ∀ e ∈ pairs resource.typeId context.id, e.time < next) {timestamp sliceValue : BitVec 32}
    (htimestamp : timestamp.toNat = next) (hvalue : sliceValue.toNat = slice) (hslice : slice ≤ next)
    (hfits : Fits (inWindow slice next (pairs resource.typeId context.id))) {event : Event w}
    (hnext : next ≤ event.time) :
    DataRight slice step (next + step) (addPair pairs resource.typeId context.id event) fun t k =>
      if t = resource.typeId ∧ k = context.id then
        some (((g.dataOf resource context).processSlice timestamp sliceValue).addEvent event)
      else g.contextData t k := by
  intro t k
  by_cases hpair : t = resource.typeId ∧ k = context.id
  · obtain ⟨rfl, rfl⟩ := hpair
    dsimp only
    rw [addPair, if_pos ⟨rfl, rfl⟩, if_pos ⟨rfl, rfl⟩]
    refine ⟨fun hnil => absurd hnil (by simp), fun _ => ?_⟩
    obtain ⟨cd, times, hcd, hright⟩ := (h resource.typeId context.id).2 hsome
    refine ⟨_, times ++ [next], rfl, ?_⟩
    rw [ActivityGenerator.dataOf, hcd, Option.getD_some, hright.createFiles]
    exact pair_add (pair_step hright hsorted hpast htimestamp hvalue hslice hfits) hsome (by omega)
  · dsimp only
    rw [addPair, if_neg hpair, if_neg hpair, honly t k hpair]
    exact ⟨fun _ => (h t k).1 (honly t k hpair), fun hne => absurd rfl hne⟩

/-- The contexts of an event, none of which makes a step. -/
theorem dataRight_contexts {slice step : Nat} {pairs : BitVec 32 → BitVec 32 → List (Event w)}
    (resource : Resource) (event : Event w) (contexts : List Context) {g : ActivityGenerator w}
    (hstarted : g.activityStep ≠ 0) (hstep : g.sliceStep.toNat = step)
    (hroom : g.activityStep.toNat + step < 2 ^ 32)
    (h : DataRight slice step (g.activityStep.toNat + step) pairs g.contextData)
    (hreached : g.activityStep.toNat ≤ event.time)
    (hbefore : event.time < g.activityStep.toNat + step) :
    Reported g (contexts.foldl (fun g ctx => g.reportEventInContext resource ctx event) g)
        g.activityStep
        (contexts.foldl (fun g ctx => g.reportEventInContext resource ctx event) g).contextData ∧
      DataRight slice step (g.activityStep.toNat + step)
        (contexts.foldl (fun pairs ctx => addPair pairs resource.typeId ctx.id event) pairs)
        (contexts.foldl (fun g ctx => g.reportEventInContext resource ctx event) g).contextData := by
  induction contexts generalizing g pairs with
  | nil => exact ⟨⟨rfl, rfl, rfl, fun _ _ => rfl⟩, h⟩
  | cons ctx contexts ih =>
    have hfirst : g.firstStep event.timestamp = g := if_neg hstarted
    have hdue : ¬ (g.firstStep event.timestamp).activityStep + g.sliceStep ≤ event.timestamp := by
      rw [hfirst, BitVec.le_def, BitVec.toNat_add, hstep, Nat.mod_eq_of_lt hroom]
      exact Nat.not_le.mpr hbefore
    have hreport := reportEventInContext_adds g resource ctx hdue
    rw [hfirst] at hreport
    have hadd := dataRight_add h resource ctx (show g.activityStep.toNat + step ≤ event.time + step by
      omega) hbefore (by omega)
    have hdata : (g.reportEventInContext resource ctx event).contextData = fun t k =>
        if t = resource.typeId ∧ k = ctx.id then some ((g.dataOf resource ctx).addEvent event)
        else g.contextData t k := by
      funext t k
      exact hreport.data t k
    rw [← hdata, ← hreport.activityStep] at hadd
    have hrest := ih (by rw [hreport.activityStep]; exact hstarted)
      (by rw [hreport.sliceStep]; exact hstep) (by rw [hreport.activityStep]; exact hroom) hadd
      (by rw [hreport.activityStep]; exact hreached) (by rw [hreport.activityStep]; exact hbefore)
    rw [hreport.activityStep] at hrest
    exact ⟨⟨hrest.1.activityStep, hrest.1.sliceValue.trans hreport.sliceValue,
      hrest.1.sliceStep.trans hreport.sliceStep, fun _ _ => rfl⟩, hrest.2⟩

/-! ## Events in step -/

/-- A step is due in front of an event. -/
def ActivityGenerator.StepDue (g : ActivityGenerator w) (event : Event w) : Prop :=
  g.activityStep ≠ 0 ∧ g.activityStep.toNat + g.sliceStep.toNat ≤ event.time

instance (g : ActivityGenerator w) (event : Event w) : Decidable (g.StepDue event) :=
  inferInstanceAs (Decidable (_ ∧ _))

/-- The time of the last step behind an event. -/
def ActivityGenerator.stepAfter (g : ActivityGenerator w) (event : Event w) : Nat :=
  if g.activityStep = 0 then event.time
  else if g.StepDue event then g.activityStep.toNat + g.sliceStep.toNat
  else g.activityStep.toNat

/-- **Events that are in step.** The next step is within 32 bits, and no
context has the id that stands for all events. When a step is due, only the
resource type of the event has been used, outside of all contexts, the event
is not behind one more step, the slice does not begin in front of time zero,
and its totals fit into 32 bits. -/
structure InStep (told : List (Told w)) (g : ActivityGenerator w) (x : Told w) : Prop where
  contexts : contextAll.id ∉ x.contexts.map Context.id
  room : g.stepAfter x.event + g.sliceStep.toNat < 2 ^ 32
  single : g.StepDue x.event →
    ∀ y ∈ told, y.resource.typeId = x.resource.typeId ∧ y.contexts = []
  gap : g.StepDue x.event →
    x.event.time < g.activityStep.toNat + g.sliceStep.toNat + g.sliceStep.toNat
  slice : g.StepDue x.event →
    g.sliceValue.toNat ≤ g.activityStep.toNat + g.sliceStep.toNat
  fits : g.StepDue x.event →
    Fits (inWindow g.sliceValue.toNat (g.activityStep.toNat + g.sliceStep.toNat)
      (eventsIn told x.resource.typeId contextAll.id))

/-- What holds behind events that are in step. -/
structure Timely (slice step : Nat) (told : List (Told w)) (g : ActivityGenerator w) : Prop where
  sliceValue : g.sliceValue.toNat = slice
  sliceStep : g.sliceStep.toNat = step
  started : told = [] ↔ g.activityStep = 0
  reached : told ≠ [] → ∃ x ∈ told, g.activityStep.toNat ≤ x.event.time
  clock : ∀ x ∈ told, x.event.time < g.activityStep.toNat + step
  room : told ≠ [] → g.activityStep.toNat + step < 2 ^ 32
  data : DataRight slice step (g.activityStep.toNat + step) (eventsIn told) g.contextData

/-- While nothing else has been used, all events are in one place. -/
theorem eventsIn_single {told : List (Told w)} {resource : Resource}
    (h : ∀ y ∈ told, y.resource.typeId = resource.typeId ∧ y.contexts = []) (t k : BitVec 32) :
    eventsIn told t k
      = if t = resource.typeId ∧ k = contextAll.id then told.map Told.event else [] := by
  have hids : ∀ y ∈ told, y.ids = [contextAll.id] := by
    intro y hy
    rw [Told.ids, (h y hy).2]
    rfl
  unfold eventsIn
  split
  next hpair =>
    congr 1
    rw [List.filter_eq_self]
    intro y hy
    refine Told.isIn_iff.mpr ⟨hpair.1.trans (h y hy).1.symm, ?_⟩
    rw [hids y hy, hpair.2]
    exact List.mem_singleton_self _
  next hpair =>
    rw [List.map_eq_nil_iff, List.filter_eq_nil_iff]
    intro y hy hsame
    have hboth := Told.isIn_iff.mp hsame
    rw [hids y hy, List.mem_singleton] at hboth
    exact hpair ⟨hboth.1.trans (h y hy).1, hboth.2⟩

theorem eventsIn_sorted {told : List (Told w)}
    (h : told.Pairwise fun x y => x.event.time ≤ y.event.time) (t k : BitVec 32) :
    (eventsIn told t k).Pairwise fun a b => a.time ≤ b.time := by
  have hall : (told.map Told.event).Pairwise fun a b => a.time ≤ b.time := List.pairwise_map.mpr h
  exact hall.sublist (eventsIn_sublist told t k)

theorem Timely.past {slice step : Nat} {told : List (Told w)} {g : ActivityGenerator w}
    (h : Timely slice step told g) {t k : BitVec 32} {e : Event w} (he : e ∈ eventsIn told t k) :
    e.time < g.activityStep.toNat + step := by
  obtain ⟨x, hx, rfl⟩ := List.mem_map.mp ((eventsIn_sublist told t k).subset he)
  exact h.clock x hx

/-- The report for all events. -/
structure ToldAll (slice step : Nat) (told : List (Told w)) (g : ActivityGenerator w) (x : Told w)
    (g₁ : ActivityGenerator w) : Prop where
  report : g.reportEvent x.resource x.event = some g₁
  started : g₁.activityStep ≠ 0
  activityStep : g₁.activityStep.toNat = g.stepAfter x.event
  sliceValue : g₁.sliceValue = g.sliceValue
  sliceStep : g₁.sliceStep = g.sliceStep
  reached : g.stepAfter x.event ≤ x.event.time
  clock : x.event.time < g.stepAfter x.event + step
  data : DataRight slice step (g.stepAfter x.event + step)
    (addPair (eventsIn told) x.resource.typeId contextAll.id x.event) g₁.contextData

theorem toldAll_due {slice step : Nat} {told : List (Told w)} {g : ActivityGenerator w}
    (h : Timely slice step told g) {x : Told w}
    (hsorted : told.Pairwise fun x y => x.event.time ≤ y.event.time)
    (htime : x.event.timestamp ≠ 0) (hin : InStep told g x) (hdue : g.StepDue x.event) :
    ∃ g₁, ToldAll slice step told g x g₁ := by
  obtain ⟨g₁, hreport, hg₁⟩ := reportEvent_reports g x.resource htime
  have hafter : g.stepAfter x.event = g.activityStep.toNat + step := by
    rw [ActivityGenerator.stepAfter, if_neg hdue.1, if_pos hdue, h.sliceStep]
  have htold : told ≠ [] := fun hnil => hdue.1 (h.started.mp hnil)
  have hnext : (g.activityStep + g.sliceStep).toNat = g.activityStep.toNat + step := by
    rw [BitVec.toNat_add, h.sliceStep, Nat.mod_eq_of_lt (h.room htold)]
  have hle : g.activityStep.toNat + step ≤ x.event.time := h.sliceStep ▸ hdue.2
  have hgap := hin.gap hdue
  have hslice := hin.slice hdue
  have hfits := hin.fits hdue
  rw [h.sliceStep] at hgap hslice hfits
  rw [h.sliceValue] at hslice hfits
  have hsteps := reportEventInContext_steps g x.resource contextAll hdue.1
    (show g.activityStep + g.sliceStep ≤ x.event.timestamp by
      rw [BitVec.le_def, hnext]
      exact hle)
  have hall := eventsIn_single (hin.single hdue)
  have hsome : eventsIn told x.resource.typeId contextAll.id ≠ [] := by
    rw [hall, if_pos ⟨rfl, rfl⟩]
    simpa using htold
  have hdata := dataRight_step h.data hsome (fun t k hpair => by rw [hall, if_neg hpair])
    (eventsIn_sorted hsorted _ _) (fun _ he => h.past he) hnext h.sliceValue hslice hfits hle
  refine ⟨g₁, hreport, ?_, ?_, hg₁.sliceValue.trans hsteps.sliceValue,
    hg₁.sliceStep.trans hsteps.sliceStep, hafter ▸ hle, by omega, ?_⟩
  · rw [hg₁.activityStep, hsteps.activityStep]
    intro hzero
    have hnat := congrArg BitVec.toNat hzero
    have hpos : g.activityStep.toNat ≠ 0 := fun h0 => hdue.1 (BitVec.eq_of_toNat_eq h0)
    rw [hnext] at hnat
    exact hpos (Nat.eq_zero_of_add_eq_zero_right hnat)
  · rw [hg₁.activityStep, hsteps.activityStep, hnext, hafter]
  · have hsame : g₁.contextData = _ := funext fun t => funext fun k =>
      (hg₁.data t k).trans (hsteps.data t k)
    rw [hsame, hafter]
    exact hdata

theorem toldAll_early {slice step : Nat} (hstep : 0 < step) {told : List (Told w)}
    {g : ActivityGenerator w} (h : Timely slice step told g) {x : Told w}
    (hlater : ∀ y ∈ told, y.event.time ≤ x.event.time) (htime : x.event.timestamp ≠ 0)
    (hin : InStep told g x) (hdue : ¬ g.StepDue x.event) : ∃ g₁, ToldAll slice step told g x g₁ := by
  obtain ⟨g₁, hreport, hg₁⟩ := reportEvent_reports g x.resource htime
  have hroom := hin.room
  rw [h.sliceStep] at hroom
  have hafter : (g.firstStep x.event.timestamp).activityStep.toNat = g.stepAfter x.event := by
    unfold ActivityGenerator.firstStep ActivityGenerator.stepAfter
    rw [if_neg hdue]
    split <;> rfl
  -- the step is still in front of the event, which is in front of the next one
  have hclock : g.stepAfter x.event ≤ x.event.time ∧
      x.event.time < g.stepAfter x.event + step ∧
      DataRight slice step (g.stepAfter x.event + step) (eventsIn told) g.contextData := by
    rw [ActivityGenerator.stepAfter]
    by_cases hstart : g.activityStep = 0
    · rw [if_pos hstart]
      refine ⟨Nat.le_refl _, by omega, fun t k => ⟨(h.data t k).1, fun hne => ?_⟩⟩
      rw [h.started.mpr hstart] at hne
      exact absurd rfl hne
    · have hlt : x.event.time < g.activityStep.toNat + g.sliceStep.toNat :=
        Nat.lt_of_not_le fun hle => hdue ⟨hstart, hle⟩
      obtain ⟨y, hy, hle⟩ := h.reached fun hnil => hstart (h.started.mp hnil)
      rw [if_neg hstart, if_neg hdue]
      exact ⟨hle.trans (hlater y hy), h.sliceStep ▸ hlt, h.data⟩
  obtain ⟨hreached, hbefore, hdata⟩ := hclock
  have hadds := reportEventInContext_adds g x.resource contextAll
    (show ¬ (g.firstStep x.event.timestamp).activityStep + g.sliceStep ≤ x.event.timestamp by
      rw [BitVec.le_def, BitVec.toNat_add, hafter, h.sliceStep, Nat.mod_eq_of_lt hroom]
      exact Nat.not_le.mpr hbefore)
  have hadd := dataRight_add hdata x.resource contextAll (by omega) hbefore (by omega)
  refine ⟨g₁, hreport, ?_, ?_, hg₁.sliceValue.trans hadds.sliceValue,
    hg₁.sliceStep.trans hadds.sliceStep, hreached, hbefore, ?_⟩
  · rw [hg₁.activityStep, hadds.activityStep]
    unfold ActivityGenerator.firstStep
    split
    · exact htime
    next hstart => exact hstart
  · rw [hg₁.activityStep, hadds.activityStep, hafter]
  · have hsame : g₁.contextData = _ := funext fun t => funext fun k =>
      (hg₁.data t k).trans (hadds.data t k)
    rw [hsame]
    exact hadd

theorem addPair_fold {t₀ : BitVec 32} {event : Event w} (ids : List (BitVec 32)) (hnd : ids.Nodup)
    (pairs : BitVec 32 → BitVec 32 → List (Event w)) (t k : BitVec 32) :
    ids.foldl (fun pairs k₀ => addPair pairs t₀ k₀ event) pairs t k
      = if t = t₀ ∧ k ∈ ids then pairs t k ++ [event] else pairs t k := by
  induction ids generalizing pairs with
  | nil => simp
  | cons k₀ ids ih =>
    obtain ⟨hnew, hrest⟩ := List.nodup_cons.mp hnd
    rw [List.foldl_cons, ih hrest, addPair]
    by_cases ht : t = t₀
    · by_cases hk : k = k₀
      · have hnot : k ∉ ids := hk ▸ hnew
        simp [ht, hk, hnew]
      · simp [ht, hk]
    · simp [ht]

/-- **One event in step.** -/
theorem timely_step {slice step : Nat} (hstep : 0 < step) {told : List (Told w)}
    {g : ActivityGenerator w} (h : Timely slice step told g) {x : Told w}
    (hsorted : (told ++ [x]).Pairwise fun x y => x.event.time ≤ y.event.time)
    (htime : x.event.timestamp ≠ 0) (hcontexts : (x.contexts.map Context.id).Nodup)
    (hin : InStep told g x) :
    ∃ g', g.feed x.reports = some g' ∧ Timely slice step (told ++ [x]) g' := by
  obtain ⟨hold, -, hlast⟩ := List.pairwise_append.mp hsorted
  have hlater : ∀ y ∈ told, y.event.time ≤ x.event.time := fun y hy =>
    hlast y hy x (List.mem_singleton_self x)
  obtain ⟨g₁, hg₁⟩ : ∃ g₁, ToldAll slice step told g x g₁ := by
    by_cases hdue : g.StepDue x.event
    · exact toldAll_due h hold htime hin hdue
    · exact toldAll_early hstep h hlater htime hin hdue
  have hclock := hg₁.activityStep
  have hroom := hin.room
  rw [h.sliceStep] at hroom
  obtain ⟨hreported, hdata⟩ := dataRight_contexts x.resource x.event x.contexts
    hg₁.started (hg₁.sliceStep ▸ h.sliceStep) (hclock ▸ hroom) (hclock ▸ hg₁.data)
    (hclock ▸ hg₁.reached) (hclock ▸ hg₁.clock)
  have hpairs : x.contexts.foldl (fun pairs ctx => addPair pairs x.resource.typeId ctx.id x.event)
      (addPair (eventsIn told) x.resource.typeId contextAll.id x.event)
      = eventsIn (told ++ [x]) := by
    funext t k
    have hnd : x.ids.Nodup := List.nodup_cons.mpr ⟨hin.contexts, hcontexts⟩
    rw [eventsIn_snoc, ← addPair_fold x.ids hnd, Told.ids, List.foldl_cons, List.foldl_map]
  rw [hpairs] at hdata
  refine ⟨_, by rw [feed_reports, hg₁.report]; rfl, ?_⟩
  refine ⟨?_, ?_, ?_, ?_, ?_, ?_, ?_⟩
  · rw [hreported.sliceValue, hg₁.sliceValue, h.sliceValue]
  · rw [hreported.sliceStep, hg₁.sliceStep, h.sliceStep]
  · rw [hreported.activityStep]
    exact ⟨fun hnil => absurd hnil (by simp), fun hzero => absurd hzero hg₁.started⟩
  · rw [hreported.activityStep, hclock]
    exact fun _ => ⟨x, by simp, hg₁.reached⟩
  · rw [hreported.activityStep, hclock]
    intro y hy
    rcases List.mem_append.mp hy with hy | hy
    · exact (hlater y hy).trans_lt hg₁.clock
    · exact List.mem_singleton.mp hy ▸ hg₁.clock
  · rw [hreported.activityStep, hclock]
    exact fun _ => hroom
  · rw [hreported.activityStep]
    exact hdata

theorem sliceStep_pos (sliceValue : BitVec 32) :
    0 < (ActivityGenerator.new sliceValue : ActivityGenerator w).sliceStep.toNat := by
  unfold ActivityGenerator.new
  dsimp only
  split
  · decide
  next hne => exact Nat.pos_of_ne_zero fun hzero => hne (BitVec.eq_of_toNat_eq hzero)

theorem timely_new (sliceValue : BitVec 32) :
    Timely sliceValue.toNat (ActivityGenerator.new sliceValue : ActivityGenerator w).sliceStep.toNat
      ([] : List (Told w)) (.new sliceValue) where
  sliceValue := rfl
  sliceStep := rfl
  started := ⟨fun _ => rfl, fun _ => rfl⟩
  reached hne := absurd rfl hne
  clock _ hx := absurd hx List.not_mem_nil
  room hne := absurd rfl hne
  data t k := by
    refine ⟨fun _ => ?_, fun hne => absurd rfl hne⟩
    rw [ActivityGenerator.contextData, ActivityGenerator.new]
    dsimp only
    rw [Std.TreeMap.getElem?_emptyc]
    rfl

/-- **A run of events in step.** -/
theorem timely_run (sliceValue : BitVec 32) {told : List (Told w)}
    (hsorted : told.Pairwise fun x y => x.event.time ≤ y.event.time)
    (htimes : ∀ x ∈ told, x.event.timestamp ≠ 0)
    (hcontexts : ∀ x ∈ told, (x.contexts.map Context.id).Nodup)
    (hsteps : ∀ pre x post, told = pre ++ x :: post →
      ∀ g, activityRun sliceValue pre = some g → InStep pre g x) :
    ∃ g, activityRun sliceValue told = some g ∧ Timely sliceValue.toNat
      (ActivityGenerator.new sliceValue : ActivityGenerator w).sliceStep.toNat told g := by
  induction told using List.reverseRecOn with
  | nil => exact ⟨_, rfl, timely_new sliceValue⟩
  | append_singleton told x ih =>
    obtain ⟨g, hrun, hg⟩ := ih (List.pairwise_append.mp hsorted).1
      (fun y hy => htimes y (List.mem_append_left _ hy))
      (fun y hy => hcontexts y (List.mem_append_left _ hy))
      (fun pre y post heq => hsteps pre y (post ++ [x]) (by rw [heq]; simp))
    obtain ⟨g', hfeed, hg'⟩ := timely_step (sliceStep_pos (w := w) sliceValue) hg hsorted
      (htimes x (by simp)) (hcontexts x (by simp)) (hsteps told x [] rfl g hrun)
    refine ⟨g', ?_, hg'⟩
    rw [activityRun, List.foldlM_append, ← activityRun, hrun]
    show (g.feed x.reports).bind _ = _
    rw [hfeed]
    rfl

/-! ## The report -/

/-- The steps of a context follow one another, from the first one behind its
first event to one behind its last event. -/
structure Covers (step : Nat) (E : List (Event w)) (times : List Nat) : Prop where
  chain : times.IsChain fun a b => b = a + step
  first : ∀ e ∈ E.head?, ∀ T ∈ times.head?, e.time < T ∧ T ≤ e.time + step
  last : ∃ T ∈ times.getLast?, ∀ e ∈ E, e.time < T

/-- The three files of a context have the lines of its windows. -/
structure LinesRight (slice : Nat) (E : List (Event w)) (cd : ActivityContext w)
    (times : List Nat) : Prop where
  rate : naturals (linesOf cd.fileRate) = times.map fun T => (T, allocSize (inWindow slice T E))
  allocs : naturals (linesOf cd.fileAllocs) = times.map fun T => (T, allocCount (inWindow slice T E))
  frees : naturals (linesOf cd.fileFrees) = times.map fun T => (T, freeCount (inWindow slice T E))

/-- **The lines written so far are right.** -/
def WrittenRight (slice : Nat) (told : List (Told w)) (g : ActivityGenerator w) : Prop :=
  ∀ t k cd, g.contextData t k = some cd →
    ∃ times, LinesRight slice (eventsIn told t k) cd times

/-- **The report is right**: a context with events has the lines of its
windows, at steps that cover the events. -/
def ActivityRight (slice step : Nat) (told : List (Told w)) (g : ActivityGenerator w) : Prop :=
  ∀ t k, (eventsIn told t k = [] → g.contextData t k = none) ∧
    (eventsIn told t k ≠ [] → ∃ cd times, g.contextData t k = some cd ∧
      LinesRight slice (eventsIn told t k) cd times ∧ Covers step (eventsIn told t k) times)

/-- The last slices do not begin in front of time zero, and their totals fit
into 32 bits. -/
structure LastInStep (told : List (Told w)) (g : ActivityGenerator w) : Prop where
  slice : g.sliceValue.toNat ≤ g.activityStep.toNat + g.sliceStep.toNat
  fits : ∀ t k, Fits (inWindow g.sliceValue.toNat (g.activityStep.toNat + g.sliceStep.toNat)
    (eventsIn told t k))

theorem finish_data (g : ActivityGenerator w) (t k : BitVec 32) :
    g.finish.contextData t k = (g.contextData t k).map fun cd =>
      cd.processSlice (g.activityStep + g.sliceStep) g.sliceValue := by
  unfold ActivityGenerator.contextData ActivityGenerator.finish
  dsimp only
  rw [Std.TreeMap.getElem?_map]
  cases g.resources[t]? with
  | none => rfl
  | some rd =>
    rw [Option.map_some, Option.bind_some, Option.bind_some, ActivityData.finish]
    dsimp only
    rw [Std.TreeMap.getElem?_map]

theorem WindowLines.lines {file : Option DataFile} {times : List Nat} {total : Nat → Nat}
    (h : WindowLines file times total) :
    naturals (linesOf file) = times.map fun T => (T, total T) := by
  obtain ⟨f, rfl, hlines⟩ := h
  exact hlines

theorem PairRight.lines {slice step next : Nat} {E : List (Event w)} {cd : ActivityContext w}
    {times : List Nat} (h : PairRight slice step next E cd times) : LinesRight slice E cd times :=
  ⟨h.rate.lines, h.allocs.lines, h.frees.lines⟩

theorem Timely.written {slice step : Nat} {told : List (Told w)} {g : ActivityGenerator w}
    (h : Timely slice step told g) : WrittenRight slice told g := by
  intro t k cd hcd
  obtain ⟨hnone, hsome⟩ := h.data t k
  by_cases hE : eventsIn told t k = []
  · rw [hnone hE] at hcd
    cases hcd
  · obtain ⟨cd', times, hcd', hright⟩ := hsome hE
    obtain rfl : cd' = cd := Option.some.inj (hcd'.symm.trans hcd)
    exact ⟨times, hright.lines⟩

/-- **The activity report is right** for events that are in step. -/
theorem activityReport_right (sliceValue : BitVec 32) {told : List (Told w)}
    (hsorted : told.Pairwise fun x y => x.event.time ≤ y.event.time)
    (htimes : ∀ x ∈ told, x.event.timestamp ≠ 0)
    (hcontexts : ∀ x ∈ told, (x.contexts.map Context.id).Nodup)
    (hsteps : ∀ pre x post, told = pre ++ x :: post →
      ∀ g, activityRun sliceValue pre = some g → InStep pre g x) :
    ∃ g, activityRun sliceValue told = some g ∧ WrittenRight sliceValue.toNat told g ∧
      (LastInStep told g →
        ActivityRight sliceValue.toNat g.sliceStep.toNat told g.finish) := by
  obtain ⟨g, hrun, hg⟩ := timely_run sliceValue hsorted htimes hcontexts hsteps
  refine ⟨g, hrun, hg.written, fun hlast t k => ?_⟩
  obtain ⟨hnone, hsome⟩ := hg.data t k
  rw [finish_data]
  refine ⟨fun hnil => by rw [hnone hnil]; rfl, fun hne => ?_⟩
  obtain ⟨cd, times, hcd, hright⟩ := hsome hne
  have htold : told ≠ [] := by
    rintro rfl
    exact hne rfl
  have hnext : (g.activityStep + g.sliceStep).toNat = g.activityStep.toNat + g.sliceStep.toNat := by
    rw [BitVec.toNat_add, Nat.mod_eq_of_lt (hg.sliceStep ▸ hg.room htold)]
  have hfits := hlast.fits t k
  have hslice := hlast.slice
  rw [hg.sliceStep] at hnext hfits hslice ⊢
  rw [hg.sliceValue] at hfits hslice
  have hstep := pair_step hright (eventsIn_sorted hsorted t k) (fun _ he => hg.past he) hnext
    hg.sliceValue hslice hfits
  refine ⟨_, _, by rw [hcd]; rfl, hstep.lines, ?_, ?_, ?_⟩
  · obtain ⟨e, E, hE⟩ := List.exists_cons_of_ne_nil hne
    exact (hright.steps e (by rw [hE]; rfl)).chain
  · exact fun e he => (hright.steps e he).first
  · exact ⟨_, by simp, fun _ he => hg.past he⟩

/-! ## Two runs -/

def memoryAlloc (index timestamp : BitVec 32) (resSize : BitVec 64) : Told 64 :=
  { resource := { typeId := 1, name := "memory".toList, refCounted := false, overhead := 8 }
    contexts := [], event := eventAlloc index 0 timestamp 16 resSize }

theorem memoryRun_clock :
    (activityRun 200 [memoryAlloc 1 1000 16]).map
      (fun g => (g.activityStep, g.sliceStep, g.sliceValue)) = some (1000, 100, 200) := rfl

theorem memoryRun_inStep {pre post : List (Told 64)} {x : Told 64}
    (heq : [memoryAlloc 1 1000 16, memoryAlloc 2 1100 8] = pre ++ x :: post)
    {g : ActivityGenerator 64} (hrun : activityRun 200 pre = some g) : InStep pre g x := by
  rcases pre with _ | ⟨a, _ | ⟨b, pre⟩⟩
  · obtain rfl : memoryAlloc 1 1000 16 = x := (List.cons.inj heq).1
    obtain rfl : .new 200 = g := Option.some.inj hrun
    have hdue : ¬ (ActivityGenerator.new 200).StepDue (memoryAlloc 1 1000 16).event :=
      fun h => h.1 rfl
    exact ⟨by decide, by decide, fun h => absurd h hdue, fun h => absurd h hdue,
      fun h => absurd h hdue, fun h => absurd h hdue⟩
  · obtain ⟨rfl, hrest⟩ := List.cons.inj heq
    obtain rfl : memoryAlloc 2 1100 8 = x := (List.cons.inj hrest).1
    have hclock := memoryRun_clock
    rw [hrun, Option.map_some] at hclock
    obtain ⟨hactivity, hstep, hvalue⟩ : g.activityStep = 1000 ∧ g.sliceStep = 100 ∧
        g.sliceValue = 200 := by simpa using hclock
    refine ⟨by decide, ?_, fun _ => ?_, fun _ => ?_, fun _ => ?_, fun _ => ?_⟩
    · rw [ActivityGenerator.stepAfter, hactivity, hstep, if_neg (by decide)]
      split <;> decide
    · decide
    · rw [hactivity, hstep]
      decide
    · rw [hactivity, hstep, hvalue]
      decide
    · rw [hactivity, hstep, hvalue]
      exact ⟨by decide, by decide, by decide⟩
  · simp at heq

/-- Two allocations, the second one at the next step. -/
theorem activityReport_right_two :
    ∃ g, activityRun 200 [memoryAlloc 1 1000 16, memoryAlloc 2 1100 8] = some g ∧
      ActivityRight 200 100 [memoryAlloc 1 1000 16, memoryAlloc 2 1100 8] g.finish := by
  have hclock : (activityRun 200 [memoryAlloc 1 1000 16, memoryAlloc 2 1100 8]).map
      (fun g => (g.activityStep, g.sliceStep, g.sliceValue)) = some (1100, 100, 200) := rfl
  obtain ⟨g, hrun, -, hright⟩ := activityReport_right 200
    (show List.Pairwise (fun x y : Told 64 => x.event.time ≤ y.event.time)
      [memoryAlloc 1 1000 16, memoryAlloc 2 1100 8] by decide) (by decide) (by decide)
    (fun _ _ _ heq _ hrun => memoryRun_inStep heq hrun)
  rw [hrun, Option.map_some] at hclock
  obtain ⟨hactivity, hstep, hvalue⟩ : g.activityStep = 1100 ∧ g.sliceStep = 100 ∧
      g.sliceValue = 200 := by simpa using hclock
  have hlast : LastInStep [memoryAlloc 1 1000 16, memoryAlloc 2 1100 8] g := by
    refine ⟨by rw [hactivity, hstep, hvalue]; decide, fun t k => ?_⟩
    have hsingle : ∀ y ∈ [memoryAlloc 1 1000 16, memoryAlloc 2 1100 8],
        y.resource.typeId = (memoryAlloc 1 1000 16).resource.typeId ∧ y.contexts = [] := by
      decide
    rw [hactivity, hstep, hvalue, eventsIn_single hsingle]
    split <;> exact ⟨by decide, by decide, by decide⟩
  have hresult := hright hlast
  rw [hstep] at hresult
  exact ⟨g, hrun, hresult⟩

/-- A pause, and then two allocations: the second step is late, and its line
has what was allocated behind the pause. -/
theorem activityReport_pause :
    ∃ g, activityRun 200 [memoryAlloc 1 1000 16, memoryAlloc 2 5000 8, memoryAlloc 3 5001 4]
        = some g ∧
      ¬ ActivityRight 200 100
        [memoryAlloc 1 1000 16, memoryAlloc 2 5000 8, memoryAlloc 3 5001 4] g.finish := by
  have hlines : ((activityRun 200
      [memoryAlloc 1 1000 16, memoryAlloc 2 5000 8, memoryAlloc 3 5001 4]).bind
        fun g => g.finish.contextData 1 contextAll.id).map (fun cd => naturals (linesOf cd.fileRate))
      = some [(1100, 16), (1200, 24), (1300, 12)] := by decide +kernel
  cases hrun : activityRun 200
      [memoryAlloc 1 1000 16, memoryAlloc 2 5000 8, memoryAlloc 3 5001 4] with
  | none =>
    rw [hrun] at hlines
    cases hlines
  | some g =>
    refine ⟨g, rfl, fun hright => ?_⟩
    obtain ⟨cd, times, hcd, hwritten, -⟩ := (hright 1 contextAll.id).2 (by decide)
    rw [hrun, Option.bind_some, hcd, Option.map_some, Option.some.injEq, hwritten.rate] at hlines
    have hmem : ((1200, 24) : Nat × Nat) ∈ times.map fun T => (T, allocSize (inWindow 200 T
        (eventsIn [memoryAlloc 1 1000 16, memoryAlloc 2 5000 8, memoryAlloc 3 5001 4] 1
          contextAll.id))) := by
      rw [hlines]
      decide
    obtain ⟨T, -, hT⟩ := List.mem_map.mp hmem
    obtain ⟨rfl, hsize⟩ := Prod.mk.inj hT
    revert hsize
    decide

end SpRtrace.Timeline
