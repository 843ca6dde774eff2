/-
SpRtrace.Timeline.ContextTotals — the totals files of the contexts.

The generator has one running total for each context of a resource type and
writes it whenever an event is reported in the context. An allocation adds
its size in its own contexts, its free takes the size off in the contexts
of the free. `Moves` says what the reports of one event do to the totals,
and `contextTotals_right` when each total that is written is the size of
what was allocated in the context and is still live.
-/
import SpRtrace.Timeline.TotalsReport

namespace SpRtrace.Timeline

open SpRtrace.Lib SpRtrace.Common SpRtrace.Library SpRtrace.Postproc

variable {w : Nat}

/-! ## One total -/

theorem contextData_setData (g : TotalsGenerator) (resource : Resource) (rd : ResourceData)
    (t k : BitVec 32) : (g.setData resource rd).contextData t k
      = if t = resource.typeId then rd.contexts[k]? else g.contextData t k := by
  unfold TotalsGenerator.contextData TotalsGenerator.setData
  rw [Std.TreeMap.getElem?_insert]
  by_cases ht : t = resource.typeId
  · rw [if_pos (Std.LawfulEqCmp.compare_eq_iff_eq.mpr ht.symm), if_pos ht, Option.bind_some]
  · rw [if_neg (fun heq => ht (Std.LawfulEqCmp.compare_eq_iff_eq.mp heq).symm), if_neg ht]

theorem getData_contexts (g : TotalsGenerator) (resource : Resource) (k : BitVec 32) :
    (g.getData resource).contexts[k]? = g.contextData resource.typeId k := by
  unfold TotalsGenerator.getData TotalsGenerator.contextData
  rw [Std.TreeMap.getD_eq_getD_getElem?]
  cases g.resources[resource.typeId]? with
  | none => exact Std.TreeMap.getElem?_emptyc
  | some rd => rfl

/-- Data of a resource with the same contexts changes no total. -/
theorem contextData_setSame (g : TotalsGenerator) (resource : Resource) {rd : ResourceData}
    (hsame : rd.contexts = (g.getData resource).contexts) (t k : BitVec 32) :
    (g.setData resource rd).contextData t k = g.contextData t k := by
  rw [contextData_setData]
  split
  next ht => rw [hsame, getData_contexts, ht]
  · rfl

theorem getData_total (g : TotalsGenerator) (resource : Resource) (context : Context) :
    ((g.getData resource).getData context).total = g.total resource.typeId context.id := by
  unfold ResourceData.getData TotalsGenerator.total
  rw [Std.TreeMap.getD_eq_getD_getElem?, getData_contexts]
  cases g.contextData resource.typeId context.id <;> rfl

theorem getData_points (g : TotalsGenerator) (resource : Resource) (context : Context)
    (title : Str) :
    (((g.getData resource).getData context).fileTotals.getD (createFile title)).points
      = g.points resource.typeId context.id := by
  unfold ResourceData.getData TotalsGenerator.points
  rw [Std.TreeMap.getD_eq_getD_getElem?, getData_contexts]
  cases g.contextData resource.typeId context.id with
  | none => rfl
  | some cd =>
    rw [Option.getD_some, Option.bind_some]
    cases cd.fileTotals <;> rfl

/-- What the reports of an event do: in each context of the list `delta` is
added to the total of the type `t`, and the new total is written. -/
structure Moves (g g' : TotalsGenerator) (t : BitVec 32) (ids : List (BitVec 32))
    (delta : BitVec 32) : Prop where
  total : ∀ t' k, g'.total t' k
    = if t' = t then g.total t k + BitVec.ofNat 32 (ids.count k) * delta else g.total t' k
  points : ∀ t' k, ∃ added, g'.points t' k = g.points t' k ++ added ∧ ∀ point ∈ added,
    t' = t ∧ ∃ j, 1 ≤ j ∧ j ≤ ids.count k ∧ point.2 = g.total t k + BitVec.ofNat 32 j * delta

theorem Moves.same {g g' : TotalsGenerator} (h : ∀ t k, g'.contextData t k = g.contextData t k)
    (t delta : BitVec 32) : Moves g g' t [] delta := by
  constructor
  · intro t' k
    have htotal : g'.total t' k = g.total t' k := by
      rw [TotalsGenerator.total, TotalsGenerator.total, h]
    rw [htotal]
    split
    next ht => simp [ht]
    · rfl
  · intro t' k
    refine ⟨[], ?_, fun point hpoint => absurd hpoint List.not_mem_nil⟩
    rw [TotalsGenerator.points, h, List.append_nil]
    rfl

theorem Moves.trans {g g₁ g₂ : TotalsGenerator} {t delta : BitVec 32} {ids ids' : List (BitVec 32)}
    (h : Moves g g₁ t ids delta) (h' : Moves g₁ g₂ t ids' delta) :
    Moves g g₂ t (ids ++ ids') delta := by
  have hself : ∀ k, g₁.total t k = g.total t k + BitVec.ofNat 32 (ids.count k) * delta := by
    intro k
    rw [h.total, if_pos rfl]
  have hsum : ∀ m n (k : BitVec 32), g.total t k + BitVec.ofNat 32 m * delta + BitVec.ofNat 32 n * delta
      = g.total t k + BitVec.ofNat 32 (m + n) * delta := by
    intro m n k
    rw [BitVec.ofNat_add, BitVec.add_mul, BitVec.add_assoc]
  constructor
  · intro t' k
    rw [h'.total]
    split
    next ht => rw [hself, hsum, List.count_append]
    next ht => rw [h.total, if_neg ht]
  · intro t' k
    obtain ⟨added, hadded, hpoints⟩ := h.points t' k
    obtain ⟨added', hadded', hpoints'⟩ := h'.points t' k
    refine ⟨added ++ added', by rw [hadded', hadded, List.append_assoc], fun point hpoint => ?_⟩
    rw [List.count_append]
    rcases List.mem_append.mp hpoint with hpoint | hpoint
    · obtain ⟨ht, j, hpos, hle, hvalue⟩ := hpoints point hpoint
      exact ⟨ht, j, hpos, by omega, hvalue⟩
    · obtain ⟨ht, j, hpos, hle, hvalue⟩ := hpoints' point hpoint
      refine ⟨ht, ids.count k + j, by omega, by omega, ?_⟩
      rw [hvalue, hself, hsum]

/-- A new total in one context. -/
theorem moves_write {g g' : TotalsGenerator} (resource : Resource) (context : Context)
    (stamp delta : BitVec 32)
    (h : ∀ t k, g'.contextData t k = (g.setData resource ((g.getData resource).setData context
      (((g.getData resource).getData context).writeTotal resource.name stamp
        (((g.getData resource).getData context).total + delta)))).contextData t k) :
    Moves g g' resource.typeId [context.id] delta := by
  have hdata : ∀ t k, g'.contextData t k =
      if t = resource.typeId ∧ k = context.id then
        some (((g.getData resource).getData context).writeTotal resource.name stamp
          (g.total resource.typeId context.id + delta))
      else g.contextData t k := by
    intro t k
    rw [h, contextData_setData, getData_total]
    by_cases ht : t = resource.typeId
    · rw [if_pos ht, ResourceData.setData]
      dsimp only
      rw [Std.TreeMap.getElem?_insert, getData_contexts, ht]
      by_cases hk : k = context.id
      · rw [if_pos (Std.LawfulEqCmp.compare_eq_iff_eq.mpr hk.symm), if_pos ⟨rfl, hk⟩]
      · rw [if_neg (fun heq => hk (Std.LawfulEqCmp.compare_eq_iff_eq.mp heq).symm),
          if_neg fun hboth => hk hboth.2]
    · rw [if_neg ht, if_neg fun hboth => ht hboth.1]
  constructor
  · intro t k
    by_cases ht : t = resource.typeId
    · by_cases hk : k = context.id
      · rw [TotalsGenerator.total, hdata, if_pos ⟨ht, hk⟩, if_pos ht, hk, List.count_singleton_self]
        simp [ContextData.writeTotal]
      · rw [TotalsGenerator.total, hdata, if_neg fun hboth => hk hboth.2, if_pos ht,
          List.count_eq_zero_of_not_mem (by simpa using hk), ht]
        simp [TotalsGenerator.total]
    · rw [TotalsGenerator.total, hdata, if_neg fun hboth => ht hboth.1, if_neg ht]
      rfl
  · intro t k
    by_cases hboth : t = resource.typeId ∧ k = context.id
    · obtain ⟨rfl, rfl⟩ := hboth
      refine ⟨[(stamp, g.total resource.typeId context.id + delta)], ?_, fun point hpoint => ?_⟩
      · rw [TotalsGenerator.points, hdata, if_pos ⟨rfl, rfl⟩, Option.bind_some,
          ← getData_points g resource context resource.name]
        rfl
      · obtain rfl := List.mem_singleton.mp hpoint
        refine ⟨rfl, 1, Nat.le_refl 1, by rw [List.count_singleton_self], ?_⟩
        simp
    · refine ⟨[], ?_, fun point hpoint => absurd hpoint List.not_mem_nil⟩
      rw [TotalsGenerator.points, hdata, if_neg hboth, List.append_nil]
      rfl

theorem moves_allocInContext (g : TotalsGenerator) (resource : Resource) (context : Context)
    (event : Event w) : Moves g (g.reportAllocInContext resource context event) resource.typeId
      [context.id] (event.resSize.setWidth 32) :=
  moves_write resource context event.timestamp _ fun _ _ => rfl

theorem moves_freeInContext (g : TotalsGenerator) (resource : Resource) (context : Context)
    (event : Event w) : Moves g (g.reportFreeInContext resource context event) resource.typeId
      [context.id] (-event.resSize.setWidth 32) := by
  refine moves_write resource context event.timestamp _ fun t k => ?_
  rw [← BitVec.sub_eq_add_neg]
  rfl

/-- The reports of the contexts, one after the other. -/
theorem moves_foldl {step : TotalsGenerator → Context → TotalsGenerator} {t delta : BitVec 32}
    (hstep : ∀ g ctx, Moves g (step g ctx) t [ctx.id] delta) (contexts : List Context)
    (g : TotalsGenerator) : Moves g (contexts.foldl step g) t (contexts.map Context.id) delta := by
  induction contexts generalizing g with
  | nil => exact Moves.same (fun _ _ => rfl) t delta
  | cons ctx contexts ih => exact (hstep g ctx).trans (ih (step g ctx))

/-! ## The reports of an event -/

theorem writeOverhead_contexts (rd : ResourceData) (resource : Resource)
    (timestamp overhead : BitVec 32) :
    (rd.writeOverhead resource timestamp overhead).contexts = rd.contexts := by
  unfold ResourceData.writeOverhead
  split <;> rfl

theorem moves_alloc {g g' : TotalsGenerator} {resource : Resource} {event : Event w}
    (h : g.reportAlloc resource event = some g') :
    Moves g g' resource.typeId [contextAll.id] (event.resSize.setWidth 32) := by
  rw [TotalsGenerator.reportAlloc] at h
  split at h
  · exact absurd h (by simp)
  · obtain rfl := Option.some.inj h
    have hsame : ((g.getData resource).createFiles resource).contexts
        = (g.getData resource).contexts := rfl
    have hfiles : Moves g (g.setData resource ((g.getData resource).createFiles resource))
        resource.typeId [] (event.resSize.setWidth 32) :=
      Moves.same (contextData_setSame g resource hsame) _ _
    have hwrite := moves_allocInContext
      (g.setData resource ((g.getData resource).createFiles resource)) resource contextAll event
    refine (hfiles.trans hwrite).trans (Moves.same (fun t k => ?_) _ _)
    refine contextData_setSame _ resource ?_ t k
    exact writeOverhead_contexts _ _ _ _

theorem moves_free (g : TotalsGenerator) (resource : Resource) (event : Event w) :
    Moves g (g.reportFree resource event) resource.typeId [contextAll.id]
      (-event.resSize.setWidth 32) := by
  refine (moves_freeInContext g resource contextAll event).trans (Moves.same (fun t k => ?_) _ _)
  refine contextData_setSame _ resource ?_ t k
  exact writeOverhead_contexts _ _ _ _

/-- The contexts that an event is reported in, the one for all events
first. -/
def reportedIn (rd : Rd w) (mask : BitVec 32) : List (BitVec 32) :=
  contextAll.id :: (logContexts rd mask).map Context.id

variable {rd : Rd w}

theorem moves_allocReports {g g' : TotalsGenerator} {resource : Resource} {mask : BitVec 32}
    {event : Event w} (h : g.feed (allocReports resource (logContexts rd mask) event) = some g') :
    Moves g g' resource.typeId (reportedIn rd mask) (event.resSize.setWidth 32) := by
  rw [feed_allocReports] at h
  obtain ⟨g₁, hg₁, rfl⟩ := Option.map_eq_some_iff.mp h
  exact (moves_alloc hg₁).trans (moves_foldl (fun g ctx => moves_allocInContext g resource ctx event)
    (logContexts rd mask) g₁)

theorem moves_freeReports {g g' : TotalsGenerator} {resource : Resource} {mask : BitVec 32}
    {event allocEvent : Event w}
    (h : g.feed (freeReports resource (logContexts rd mask) event allocEvent) = some g') :
    Moves g g' resource.typeId (reportedIn rd mask) (-allocEvent.resSize.setWidth 32) := by
  rw [feed_freeReports] at h
  obtain rfl := Option.some.inj h
  exact (moves_free g resource { event with resSize := allocEvent.resSize }).trans
    (moves_foldl (fun g ctx =>
      moves_freeInContext g resource ctx { event with resSize := allocEvent.resSize })
      (logContexts rd mask) _)

/-! ## Contexts have ids of their own -/

/-! ## What is live in a context -/

/-- The type id of the resource of a call. -/
def callTypeId (rd : Rd w) (c : Nat) : Option (BitVec 32) :=
  ((rd.fcall c).bind fun x => x.data.resType.bind rd.resource).map fun res =>
    (timelineResource res).typeId

/-- The contexts that a call is reported in. -/
def callContexts (rd : Rd w) (c : Nat) : List (BitVec 32) :=
  match rd.fcall c with
  | none => []
  | some x => reportedIn rd x.data.context

/-- What an allocation adds to a context of a resource type. -/
def share (rd : Rd w) (t k : BitVec 32) (c : Nat) : Nat :=
  if callTypeId rd c = some t ∧ k ∈ callContexts rd c then callSize rd c else 0

/-- The total size of the resources of a type that were allocated in a
context and are not freed. -/
def liveTotal (rd : Rd w) (calls : List Nat) (t k : BitVec 32) : Nat :=
  ((plainKept rd calls).map (share rd t k)).sum

theorem liveTotal_alloc {calls : List Nat} {c : Nat} (hnd : (calls ++ [c]).Nodup)
    (hkind : callKind rd c = .alloc) (t k : BitVec 32) :
    liveTotal rd (calls ++ [c]) t k = liveTotal rd calls t k + share rd t k c := by
  rw [liveTotal, plainKept_alloc hnd hkind]
  simp [liveTotal]

theorem liveTotal_unmatched {calls : List Nat} {c : Nat} (hnd : (calls ++ [c]).Nodup)
    (hkind : callKind rd c = .free) (hcancel : cancels rd calls c = none) (t k : BitVec 32) :
    liveTotal rd (calls ++ [c]) t k = liveTotal rd calls t k := by
  rw [liveTotal, plainKept_unmatched hnd hkind hcancel, liveTotal]

theorem liveTotal_matched {calls : List Nat} {c a : Nat} (hnd : (calls ++ [c]).Nodup)
    (hkind : callKind rd c = .free) (hcancel : cancels rd calls c = some a) (t k : BitVec 32) :
    liveTotal rd calls t k = liveTotal rd (calls ++ [c]) t k + share rd t k a := by
  rw [liveTotal, ((plainKept_matched hnd hkind hcancel).map (share rd t k)).sum_eq, List.map_cons,
    List.sum_cons, Nat.add_comm, liveTotal]

/-- No context has more than all of them together. -/
theorem liveTotal_le_all (rd : Rd w) (calls : List Nat) (t k : BitVec 32) :
    liveTotal rd calls t k ≤ liveTotal rd calls t contextAll.id := by
  refine List.sum_le_sum fun c _ => ?_
  unfold share
  split
  next h =>
    have hall : contextAll.id ∈ callContexts rd c := by
      unfold callContexts at h ⊢
      cases hx : rd.fcall c with
      | none =>
        rw [hx] at h
        exact absurd h.2 List.not_mem_nil
      | some x => exact List.mem_cons_self ..
    rw [if_pos ⟨h.1, hall⟩]
  · exact Nat.zero_le _

/-! ## One event -/

/-- The totals are what is live, modulo 2^32. -/
def TotalsFollow (rd : Rd w) (calls : List Nat) (g : TotalsGenerator) : Prop :=
  ∀ t k, g.total t k = BitVec.ofNat 32 (liveTotal rd calls t k)

/-- The allocation whose size an event adds to the totals or takes off. -/
def moved (rd : Rd w) (calls : List Nat) (c : Nat) : Option Nat :=
  if callKind rd c = .alloc then some c else cancels rd calls c

/-- The events that the totals of the contexts can bear. What is live of
the resource type fits into 32 bits. An event that moves a size is reported
once in each context, which no registered context with the id of the one
for all events disturbs, and in the contexts of its allocation. -/
structure StepFits (rd : Rd w) (calls : List Nat) (c : Nat) : Prop where
  fits : ∀ t, callTypeId rd c = some t → liveTotal rd (calls ++ [c]) t contextAll.id < 2 ^ 32
  once : ∀ a, moved rd calls c = some a → callSize rd a = 0 ∨ (callContexts rd c).Nodup
  attributed : ∀ a, moved rd calls c = some a →
    callSize rd a = 0 ∨ callContexts rd c = callContexts rd a

/-- What is written about one event: in each file only totals that are what
is live. A point is printed as an `int`. -/
def WritesLive (rd : Rd w) (calls : List Nat) (g g' : TotalsGenerator) : Prop :=
  ∀ t k, ∃ added, g'.points t k = g.points t k ++ added ∧ ∀ point ∈ added,
    point.2.toNat = liveTotal rd calls t k ∧
      (point.2.toInt = liveTotal rd calls t k ↔ liveTotal rd calls t k < 2 ^ 31)

theorem toInt_eq_iff {v : BitVec 32} {n : Nat} (h : v.toNat = n) : v.toInt = n ↔ n < 2 ^ 31 := by
  rw [BitVec.toInt_eq_toNat_cond, h]
  split <;> omega

/-- The moves of an event follow what is live, when each context is moved
once and what is live there moves as much. -/
theorem Moves.follows {g g' : TotalsGenerator} {t : BitVec 32} {ids : List (BitVec 32)}
    {delta : BitVec 32} (hmoves : Moves g g' t ids delta) {calls calls' : List Nat}
    (hg : TotalsFollow rd calls g)
    (hother : ∀ t' k, t' ≠ t → liveTotal rd calls' t' k = liveTotal rd calls t' k)
    (hself : ∀ k, BitVec.ofNat 32 (liveTotal rd calls' t k)
      = BitVec.ofNat 32 (liveTotal rd calls t k) + if k ∈ ids then delta else 0)
    (honce : delta = 0 ∨ ids.Nodup) (hfits : ∀ k, liveTotal rd calls' t k < 2 ^ 32) :
    TotalsFollow rd calls' g' ∧ WritesLive rd calls' g g' := by
  -- the new total after all reports, and after each single one
  have hnew : ∀ k j, (1 ≤ j ∧ j ≤ ids.count k ∨ j = ids.count k) →
      g.total t k + BitVec.ofNat 32 j * delta = BitVec.ofNat 32 (liveTotal rd calls' t k) := by
    intro k j hj
    rw [hself k, hg t k]
    refine congrArg (_ + ·) ?_
    rcases honce with hzero | hnodup
    · subst hzero
      rw [ite_self]
      exact BitVec.mul_zero
    · rw [hnodup.count] at hj
      by_cases hk : k ∈ ids
      · rw [if_pos hk] at hj
        obtain rfl : j = 1 := by omega
        rw [if_pos hk]
        exact BitVec.one_mul delta
      · rw [if_neg hk] at hj
        obtain rfl : j = 0 := by omega
        rw [if_neg hk]
        exact BitVec.zero_mul
  refine ⟨fun t' k => ?_, fun t' k => ?_⟩
  · rw [hmoves.total]
    split
    next ht => rw [ht]; exact hnew k _ (Or.inr rfl)
    next ht => rw [hg, hother t' k ht]
  · obtain ⟨added, hadded, hpoints⟩ := hmoves.points t' k
    refine ⟨added, hadded, fun point hpoint => ?_⟩
    obtain ⟨rfl, j, hpos, hle, hvalue⟩ := hpoints point hpoint
    have hnat : point.2.toNat = liveTotal rd calls' t' k := by
      rw [hvalue, hnew k j (Or.inl ⟨hpos, hle⟩), BitVec.toNat_ofNat, Nat.mod_eq_of_lt (hfits k)]
    exact ⟨hnat, toInt_eq_iff hnat⟩

/-- An event without reports changes nothing. -/
theorem follows_quiet {g : TotalsGenerator} {calls calls' : List Nat} (hg : TotalsFollow rd calls g)
    (hsame : ∀ t k, liveTotal rd calls' t k = liveTotal rd calls t k) :
    TotalsFollow rd calls' g ∧ WritesLive rd calls' g g := by
  refine ⟨fun t k => by rw [hg, hsame], fun t k => ⟨[], (List.append_nil _).symm, ?_⟩⟩
  exact fun point hpoint => absurd hpoint List.not_mem_nil

/-- **One call** that fits: the totals follow it, and what is written is
what is live. -/
theorem totals_step (h : Logged rd) (hnd : rd.calls.Nodup) {pre post : List Nat} {c : Nat}
    (heq : rd.calls = pre ++ c :: post) (hfits : StepFits rd pre c) {g g' : TotalsGenerator}
    (hg : TotalsFollow rd pre g) (hfeed : g.feed (callReports rd pre c) = some g') :
    TotalsFollow rd (pre ++ [c]) g' ∧ WritesLive rd (pre ++ [c]) g g' := by
  have hc : c ∈ rd.calls := by rw [heq]; simp
  have hnd' : (pre ++ [c]).Nodup := by
    rw [heq, List.append_cons] at hnd
    exact (List.nodup_append.mp hnd).1
  obtain ⟨x, type, hx, hxtype, htype⟩ := h.carries c hc
  obtain ⟨res, hres⟩ := h.live type htype
  have hbind : x.data.resType.bind rd.resource = some res := by rw [hxtype, Option.bind_some, hres]
  have htypeId : callTypeId rd c = some (timelineResource res).typeId := by
    rw [callTypeId, hx, Option.bind_some, hbind, Option.map_some]
  have hcontexts : callContexts rd c = reportedIn rd x.data.context := by rw [callContexts, hx]
  have hsmall : ∀ k, liveTotal rd (pre ++ [c]) (timelineResource res).typeId k < 2 ^ 32 :=
    fun k => (liveTotal_le_all rd _ _ k).trans_lt (hfits.fits _ htypeId)
  rcases h.kinds c hc x hx with halloc | hfree
  · have hkind : callKind rd c = .alloc := by rw [callKind, hx]; simp [halloc]
    have hmoved : moved rd pre c = some c := by rw [moved, if_pos hkind]
    have hsize : callSize rd c = (fcallEvent x).resSize.toNat := by rw [callSize, hx]
    have hreports : callReports rd pre c = allocReports (timelineResource res)
        (logContexts rd x.data.context) (fcallEvent x) := by
      rw [callReports, hx]
      simp only [hbind, halloc, if_true]
    rw [hreports] at hfeed
    refine (moves_allocReports hfeed).follows hg (fun t k ht => ?_) (fun k => ?_) ?_ hsmall
    · rw [liveTotal_alloc hnd' hkind, share, if_neg, Nat.add_zero]
      exact fun hboth => ht (Option.some.inj (hboth.1.symm.trans htypeId))
    · rw [liveTotal_alloc hnd' hkind, share, BitVec.ofNat_add, hcontexts, hsize]
      simp only [htypeId, true_and]
      refine congrArg (_ + ·) ?_
      split
      · exact BitVec.ofNat_toNat 32 _
      · rfl
    · rw [← hcontexts]
      refine (hfits.once c hmoved).imp_left fun hzero => ?_
      rw [← BitVec.ofNat_toNat, ← hsize, hzero]
      rfl
  · have hne : x.data.type ≠ ftypeAlloc := by rw [hfree]; decide
    have hkind : callKind rd c = .free := by rw [callKind, hx]; simp [hfree, ftypeAlloc, ftypeFree]
    have hreports : callReports rd pre c = (((cancels rd pre c).bind rd.fcall).map fun a =>
        freeReports (timelineResource res) (logContexts rd x.data.context) (fcallFree x)
          (fcallEvent a)).getD [] := by
      rw [callReports, hx]
      simp only [hbind, if_neg hne]
    have hmoved : moved rd pre c = cancels rd pre c := by
      rw [moved, if_neg]
      rw [hkind]
      decide
    cases hcancel : cancels rd pre c with
    | none =>
      rw [hreports, hcancel] at hfeed
      obtain rfl := Option.some.inj hfeed
      exact follows_quiet hg fun t k => liveTotal_unmatched hnd' hkind hcancel t k
    | some a =>
      rw [hcancel] at hmoved
      obtain ⟨y, hy, hykey⟩ := live_call (List.nodup_append.mp hnd').1 hcancel
      have hsize : callSize rd a = (fcallEvent y).resSize.toNat := by rw [callSize, hy]
      have hytypeId : callTypeId rd a = some (timelineResource res).typeId := by
        have hresType : y.data.resType = x.data.resType := by
          rw [callKey, hx] at hykey
          exact (Prod.mk.inj hykey).1
        rw [callTypeId, hy, Option.bind_some, hresType, hbind, Option.map_some]
      rw [hreports, hcancel, Option.bind_some, hy, Option.map_some, Option.getD_some] at hfeed
      have hlive := liveTotal_matched hnd' hkind hcancel
      refine (moves_freeReports hfeed).follows hg (fun t k ht => ?_) (fun k => ?_) ?_ hsmall
      · rw [hlive t k, share, if_neg, Nat.add_zero]
        exact fun hboth => ht (Option.some.inj (hboth.1.symm.trans hytypeId))
      · have hshare : BitVec.ofNat 32 (share rd (timelineResource res).typeId k a)
            = if k ∈ reportedIn rd x.data.context then (fcallEvent y).resSize.setWidth 32 else 0 := by
          rw [share, ← hcontexts]
          simp only [hytypeId, true_and]
          rcases hfits.attributed a hmoved with hzero | hsame
          · have hwidth : (fcallEvent y).resSize.setWidth 32 = 0 := by
              rw [← BitVec.ofNat_toNat, ← hsize, hzero]
              rfl
            rw [hzero, hwidth, ite_self, ite_self]
            rfl
          · rw [hsame, hsize]
            split
            · exact BitVec.ofNat_toNat 32 _
            · rfl
        rw [hlive _ k, BitVec.ofNat_add, hshare]
        split
        · rw [← BitVec.sub_eq_add_neg, BitVec.add_sub_cancel]
        · simp
      · rw [← hcontexts]
        refine (hfits.once a hmoved).imp_left fun hzero => ?_
        rw [← BitVec.ofNat_toNat, ← hsize, hzero]
        rfl

/-! ## The whole log -/

theorem totals_follow (h : Logged rd) (hnd : rd.calls.Nodup)
    (hfits : ∀ pre c post, rd.calls = pre ++ c :: post → StepFits rd pre c) {pre : List Nat} :
    ∀ post, rd.calls = pre ++ post → ∀ g, totalsReport rd pre = some g → TotalsFollow rd pre g := by
  induction pre using List.reverseRecOn with
  | nil =>
    intro _ _ g hg
    rw [totalsReport_nil h] at hg
    obtain rfl := Option.some.inj hg
    intro t k
    rfl
  | append_singleton pre c ih =>
    intro post heq g' hg'
    have hsplit : rd.calls = pre ++ c :: post := by rw [heq]; simp
    rw [totalsReport_snoc h hnd hsplit] at hg'
    obtain ⟨g, hg, hfeed⟩ := Option.bind_eq_some_iff.mp hg'
    exact (totals_step h hnd hsplit (hfits pre c post hsplit) (ih _ hsplit g hg) hfeed).1

/-- **The totals of the contexts**: in a log whose events all fit, whatever
an event writes to the totals file of a context is the total size of what
was allocated in the context and is still live. -/
theorem contextTotals_right (rd : TraceStore w) (h : Logged rd.val)
    (hfits : ∀ pre c post, rd.val.calls = pre ++ c :: post → StepFits rd.val pre c)
    {pre post : List Nat} {c : Nat} (heq : rd.val.calls = pre ++ c :: post)
    {g g' : TotalsGenerator} (hg : totalsReport rd.val pre = some g)
    (hg' : totalsReport rd.val (pre ++ [c]) = some g') : WritesLive rd.val (pre ++ [c]) g g' := by
  have hnd := rd.property.calls_nodup
  have hfollow := totals_follow h hnd hfits (c :: post) heq g hg
  rw [totalsReport_snoc h hnd heq, hg, Option.bind_some] at hg'
  exact (totals_step h hnd heq (hfits pre c post heq) hfollow hg').2

/-! ## Two logs -/

def twoContexts : List (Common.Context 64) :=
  [{ id := 1, name := "load".toList }, { id := 2, name := "run".toList }]

def contextLog (events : List (FcallData 64)) : Rd 64 :=
  callLog { memoryLog with contexts := twoContexts } events

/-- An event of the log in some contexts. -/
def contextEvent (kind context timestamp resSize : BitVec 32) : FcallData 64 :=
  { memoryEvent kind timestamp resSize with context }

theorem contextLog_integrity (events : List (FcallData 64)) : (contextLog events).Integrity := by
  have hint : Rd.Integrity { memoryLog with contexts := twoContexts } :=
    memoryLog_integrity.of_stores rfl rfl rfl rfl rfl rfl
  exact callLog_integrity hint events

/-- A block is allocated and freed in the first context. -/
def properLog : Rd 64 := contextLog [contextEvent ftypeAlloc 1 1 100, contextEvent ftypeFree 1 2 0]

/-- A block is allocated in the first context and freed in the second. -/
def strayLog : Rd 64 := contextLog [contextEvent ftypeAlloc 1 1 100, contextEvent ftypeFree 2 2 0]

/-- The events of a type that move one allocation. -/
theorem StepFits.of_moved {calls : List Nat} {c a : Nat} {t : BitVec 32}
    (ht : callTypeId rd c = some t) (hfits : liveTotal rd (calls ++ [c]) t contextAll.id < 2 ^ 32)
    (hmoved : moved rd calls c = some a) (honce : (callContexts rd c).Nodup)
    (hattributed : callContexts rd c = callContexts rd a) : StepFits rd calls c := by
  refine ⟨fun t' ht' => ?_, fun a' _ => Or.inr honce, fun a' ha' => Or.inr ?_⟩
  · rwa [← Option.some.inj (ht.symm.trans ht')]
  · rwa [← Option.some.inj (hmoved.symm.trans ha')]

theorem properLog_fits {pre post : List Nat} {c : Nat} (heq : properLog.calls = pre ++ c :: post) :
    StepFits properLog pre c := by
  have hcalls : properLog.calls = [1, 2] := by decide
  have hfirst : StepFits properLog [] 1 :=
    .of_moved (t := 1) (a := 1) (by decide) (by decide +kernel) (by decide) (by decide +kernel) rfl
  have hsecond : StepFits properLog [1] 2 :=
    .of_moved (t := 1) (a := 1) (by decide) (by decide +kernel) (by decide) (by decide +kernel)
      (by decide +kernel)
  rw [hcalls] at heq
  rcases List.append_eq_cons_iff.mp heq.symm with ⟨rfl, hrest⟩ | ⟨pre, rfl, hrest⟩
  · obtain ⟨rfl, -⟩ := List.cons.inj hrest
    exact hfirst
  · rcases List.append_eq_cons_iff.mp hrest.symm with ⟨rfl, hrest⟩ | ⟨pre, -, hrest⟩
    · obtain ⟨rfl, -⟩ := List.cons.inj hrest
      exact hsecond
    · exact absurd hrest (by simp)

/-- What the free of the block writes is what is live. -/
theorem contextTotals_right_proper : ∃ g g', totalsReport properLog [1] = some g ∧
    totalsReport properLog ([1] ++ [2]) = some g' ∧ WritesLive properLog ([1] ++ [2]) g g' := by
  have hlogged : Logged properLog := (memoryLog_resource twoContexts (by decide)).logged
  have hcalls : properLog.calls = [1] ++ 2 :: [] := by decide
  obtain ⟨g, hg⟩ : ∃ g, totalsReport properLog [1] = some g :=
    Option.isSome_iff_exists.mp (by decide +kernel)
  obtain ⟨g', hg'⟩ : ∃ g', totalsReport properLog ([1] ++ [2]) = some g' :=
    Option.isSome_iff_exists.mp (by decide +kernel)
  exact ⟨g, g', hg, hg', contextTotals_right ⟨properLog, contextLog_integrity _⟩ hlogged
    (fun pre c post heq => properLog_fits heq) hcalls hg hg'⟩

/-- The free writes the size of the block below zero to the file of its own
context, where nothing was allocated. -/
theorem contextTotals_stray : ∃ g g', totalsReport strayLog [1] = some g ∧
    totalsReport strayLog ([1] ++ [2]) = some g' ∧ ¬ WritesLive strayLog ([1] ++ [2]) g g' := by
  obtain ⟨g, hg⟩ : ∃ g, totalsReport strayLog [1] = some g :=
    Option.isSome_iff_exists.mp (by decide +kernel)
  obtain ⟨g', hg'⟩ : ∃ g', totalsReport strayLog ([1] ++ [2]) = some g' :=
    Option.isSome_iff_exists.mp (by decide +kernel)
  have hbefore : (totalsReport strayLog [1]).map (fun g => g.points 1 2) = some [] := by
    decide +kernel
  have hbehind : (totalsReport strayLog ([1] ++ [2])).map (fun g => g.points 1 2)
      = some [(2, -100)] := by decide +kernel
  rw [hg, Option.map_some, Option.some.injEq] at hbefore
  rw [hg', Option.map_some, Option.some.injEq] at hbehind
  refine ⟨g, g', hg, hg', fun hwrites => ?_⟩
  obtain ⟨added, hadded, hright⟩ := hwrites 1 2
  rw [hbefore, hbehind, List.nil_append] at hadded
  have hzero : liveTotal strayLog ([1] ++ [2]) 1 2 = 0 := by decide +kernel
  have hvalue := (hright (2, -100) (by rw [← hadded]; exact List.mem_singleton.mpr rfl)).1
  rw [hzero] at hvalue
  exact absurd hvalue (by decide)

end SpRtrace.Timeline
