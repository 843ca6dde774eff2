/-
SpRtrace.Postproc.PipelineTheorems — what `main` of the post-processor
leaves of the trace data.
-/
import SpRtrace.Postproc.LeakCounts
import SpRtrace.Postproc.LeakLaws
import SpRtrace.Postproc.Pipeline
import SpRtrace.Postproc.Reframed

namespace SpRtrace.Postproc

open SpRtrace.Lib SpRtrace.Common

variable {w : Nat} {α : Type} {cut : Cut w} {info : Option Pinfo → Option Pinfo} {rd s s' : Rd w}

/-! ## What is left of a store -/

/-- `s` is what is left of `rd` when some calls were removed. -/
structure Left (rd s : Rd w) : Prop where
  integrity : s.Integrity
  calls : s.calls.Sublist rd.calls
  fcall : ∀ c ∈ s.calls, s.fcall c = rd.fcall c
  resource : s.resource = rd.resource
  frames : ∀ c ∈ s.calls, tracedFrames s c = tracedFrames rd c
  mmaps : s.mmaps = rd.mmaps

theorem Left.refl (h : rd.Integrity) : Left rd rd :=
  ⟨h, .refl _, fun _ _ => rfl, rfl, fun _ _ => rfl, rfl⟩

/-- The lists of records do not matter. -/
theorem Left.of_lists (h : Left rd s) (contexts : List (Context w)) (resources : List Nat)
    (hinfo : Option (Hinfo w)) : Left rd { s with contexts, resources, hinfo } :=
  ⟨h.integrity.of_stores rfl rfl rfl rfl rfl rfl, h.calls, h.fcall, h.resource, h.frames, h.mmaps⟩

/-- One call less. -/
theorem Left.remove (h : Left rd s) {c : Nat} (hc : c ∈ s.calls) :
    ∃ s', rdFcallRemove s c = some s' ∧ Left rd s' ∧ s'.calls = s.calls.erase c ∧ s.SameRest s' := by
  obtain ⟨s', heq, hremoves⟩ := rdFcallRemove_spec h.integrity hc
  have hsub : s'.calls.Sublist s.calls := hremoves.calls ▸ List.erase_sublist
  refine ⟨s', heq, ⟨hremoves.integrity, hsub.trans h.calls, fun d hd => ?_, ?_, fun d hd => ?_, ?_⟩,
    hremoves.calls, hremoves.sameRest⟩
  · rw [hremoves.fcall_left h.integrity d hd, h.fcall d (hsub.subset hd)]
  · rw [hremoves.sameRest.resource, h.resource]
  · rw [tracedFrames_removes h.integrity hremoves hd, h.frames d (hsub.subset hd)]
  · rw [hremoves.sameRest.records.2.1, h.mmaps]

/-- Whatever a filter removes. -/
theorem Left.of_removal (h : Left rd s) (hremoval : Removal s s') : Left rd s' := by
  induction hremoval with
  | refl => exact h
  | @tail s₁ s₂ _ hstep ih =>
    cases hstep with
    | @fcall _ call heq =>
      have hmem : call ∈ s₁.calls := by
        by_contra hnot
        simp [rdFcallRemove, dlistRemove, hnot] at heq
      obtain ⟨s₃, heq', hleft, -⟩ := ih.remove hmem
      obtain rfl := Option.some.inj (heq'.symm.trans heq)
      exact hleft
    | lists contexts resources => exact ih.of_lists _ _ _

/-- The calls in `rest` have not been visited yet. -/
def Visited (cut : Cut w) (info : Option Pinfo → Option Pinfo) (rd s : Rd w) (spare : Nat → Bool)
    (rest : List Nat) (t : Rd w) : Prop :=
  ∃ s' calls, t = reframed cut info s' ∧ Left rd s' ∧ s.calls = calls ++ rest ∧
    s'.calls = calls.filter spare ++ rest ∧ s.SameRest s'

theorem Visited.nodes {spare : Nat → Bool} {rest : List Nat} {t : Rd w}
    (h : Visited cut info rd s spare rest t) : ∃ pre, t.calls = pre ++ rest ∧ t.calls.Nodup := by
  obtain ⟨s', calls, rfl, hleft, -, hcalls, -⟩ := h
  exact ⟨_, hcalls, hleft.integrity.calls_nodup⟩

theorem Visited.step {spare : Nat → Bool} {c : Nat} {rest : List Nat} {t : Rd w}
    {doWhat : Nat → Rd w → Option (Rd w)} (h : Visited cut info rd s spare (c :: rest) t)
    (hstep : ∀ s', Left rd s' → c ∈ s'.calls → doWhat c (reframed cut info s')
      = if spare c then some (reframed cut info s') else (rdFcallRemove s' c).map (reframed cut info)) :
    ∃ t', doWhat c t = some t' ∧ Visited cut info rd s spare rest t' := by
  obtain ⟨s', calls, rfl, hleft, hall, hcalls, hrest⟩ := h
  have hmem : c ∈ s'.calls := by simp [hcalls]
  have hsplit : s.calls = (calls ++ [c]) ++ rest := by simp [hall]
  rw [hstep s' hleft hmem]
  cases hspare : spare c with
  | true =>
    exact ⟨_, if_pos rfl, s', calls ++ [c], rfl, hleft, hsplit, by simp [hcalls, hspare], hrest⟩
  | false =>
    obtain ⟨s₁, heq, hleft₁, hcalls₁, hrest₁⟩ := hleft.remove hmem
    have hnot : c ∉ calls.filter spare := by simp [hspare]
    refine ⟨reframed cut info s₁, by simp [heq], s₁, calls ++ [c], rfl, hleft₁, hsplit, ?_,
      hrest.trans hrest₁⟩
    rw [hcalls₁, hcalls, List.erase_append_right _ hnot, List.erase_cons_head]
    simp [hspare]

/-- **A loop over the calls** that removes those it does not spare. -/
theorem Left.foreach (h : Left rd s) {doWhat : Nat → Rd w → Option (Rd w)} {spare : Nat → Bool}
    (hstep : ∀ c s', Left rd s' → c ∈ s'.calls → doWhat c (reframed cut info s')
      = if spare c then some (reframed cut info s') else (rdFcallRemove s' c).map (reframed cut info)) :
    ∃ s', dlistForeach2 (fun rd : Rd w => rd.calls) doWhat (reframed cut info s)
        = some (reframed cut info s') ∧
      Left rd s' ∧ s'.calls = s.calls.filter spare ∧ s.SameRest s' := by
  have hstart : Visited cut info rd s spare s.calls (reframed cut info s) :=
    ⟨s, [], rfl, h, rfl, rfl, .refl s⟩
  have hloop : ∃ t, dlistForeach2 (fun rd : Rd w => rd.calls) doWhat (reframed cut info s) = some t ∧
      Visited cut info rd s spare [] t :=
    dlistForeach2_total (fun _ _ hI => Visited.nodes hI) (fun c _ _ hI => Visited.step hI (hstep c)) hstart
  obtain ⟨t, hrun, s', calls, rfl, hleft, hall, hcalls, hrest⟩ := hloop
  rw [List.append_nil] at hall hcalls
  exact ⟨s', hrun, hleft, by rw [hcalls, hall], hrest⟩

/-! ## The filters of single calls -/

/-- The call is not removed by a filter that looks at its record. -/
def spares (drop : Rd w → FcallData w → Option Bool) (rd : Rd w) (c : Nat) : Bool :=
  (rd.fcall c).all fun x => drop rd x.data = some false

/-- A filter that looks at the record of a call and at the resource types. -/
theorem Left.filterCalls (h : Left rd s) {drop : Rd w → FcallData w → Option Bool}
    (hdrop : ∀ t : Rd w, t.resource = rd.resource → drop t = drop rd)
    (hlive : ∀ c ∈ rd.calls, ∀ x, rd.fcall c = some x → (drop rd x.data).isSome) :
    ∃ s', filterCalls drop (reframed cut info s) = some (reframed cut info s') ∧
      Left rd s' ∧ s'.calls = s.calls.filter (spares drop rd) ∧ s.SameRest s' := by
  refine h.foreach fun c s' hleft hmem => ?_
  obtain ⟨x, hx⟩ := hleft.integrity.call_live c hmem
  have hx' : rd.fcall c = some x := (hleft.fcall c hmem).symm.trans hx
  obtain ⟨b, hb⟩ := Option.isSome_iff_exists.mp (hlive c (hleft.calls.subset hmem) x hx')
  have hb' : drop (reframed cut info s') x.data = some b := by
    rw [hdrop (reframed cut info s') hleft.resource, hb]
  rw [spares, hx']
  simp only [reframed_fcall, hx, hb', hb, Option.bind_eq_bind, Option.bind_some, Option.all_some]
  cases b with
  | true => simpa using rdFcallRemove_reframed s' c
  | false => rfl

theorem Left.filterContext (h : Left rd s) (mask : BitVec 32) :
    ∃ s', filterContext mask (reframed cut info s) = some (reframed cut info s') ∧
      Left rd s' ∧ s'.calls = s.calls.filter (spares (fcallFilterContext mask) rd) ∧
      { s with contexts := s.contexts.filter fun c => c.id &&& mask.signExtend w ≠ 0 }.SameRest s' :=
  (h.of_lists (s.contexts.filter fun c => c.id &&& mask.signExtend w ≠ 0) s.resources s.hinfo).filterCalls
    (fun _ _ => rfl) fun _ _ _ _ => rfl

def sparesType (mask : BitVec 32) (rd : Rd w) (res : Nat) : Bool :=
  (rd.resource res).all fun r => resourceMask r.id mask ≠ 0

def resourceFilterMask (mask : BitVec 32) (res : Nat) (rd : Rd w) : Option (Rd w) := do
  if resourceMask (← rd.resource res).id mask = 0 then
    some { rd with resources := ← dlistRemove rd.resources res }
  else some rd

/-- The resource types in `rest` have not been visited yet. -/
def TypesVisited (cut : Cut w) (info : Option Pinfo → Option Pinfo) (mask : BitVec 32) (s : Rd w)
    (rest : List Nat) (t : Rd w) : Prop :=
  ∃ done, s.resources = done ++ rest ∧
    t = reframed cut info { s with resources := done.filter (sparesType mask s) ++ rest }

theorem TypesVisited.step {mask : BitVec 32} {res : Nat} {rest : List Nat} {t : Rd w}
    (hnd : s.resources.Nodup) (hlive : (s.resource res).isSome)
    (h : TypesVisited cut info mask s (res :: rest) t) :
    ∃ t', resourceFilterMask mask res t = some t' ∧ TypesVisited cut info mask s rest t' := by
  obtain ⟨done, hall, rfl⟩ := h
  obtain ⟨r, hr⟩ := Option.isSome_iff_exists.mp hlive
  have hnot : res ∉ done := by
    rw [hall, List.nodup_append] at hnd
    exact fun hmem => hnd.2.2 res hmem res (by simp) rfl
  have hmem : res ∈ done.filter (sparesType mask s) ++ res :: rest := by simp
  refine ⟨_, ?_, done ++ [res], by simp [hall], rfl⟩
  simp only [resourceFilterMask, reframed_resource, reframed_resources, hr, Option.bind_eq_bind,
    Option.bind_some]
  by_cases hmask : resourceMask r.id mask = 0
  · have hdrop : sparesType mask s res = false := by simp [sparesType, hr, hmask]
    have hnot' : res ∉ done.filter (sparesType mask s) := by simp [hdrop]
    rw [if_pos hmask, dlistRemove_of_mem hmem, List.erase_append_right _ hnot', List.erase_cons_head]
    simp [hdrop, reframed]
  · have hspare : sparesType mask s res = true := by simpa [sparesType, hr] using hmask
    rw [if_neg hmask]
    simp [hspare]

/-- The loop over the resource types. -/
theorem foreach_resources (cut : Cut w) (info : Option Pinfo → Option Pinfo) (s : Rd w)
    (mask : BitVec 32) (hnd : s.resources.Nodup)
    (hlive : ∀ res ∈ s.resources, (s.resource res).isSome) :
    dlistForeach2 (fun rd : Rd w => rd.resources) (resourceFilterMask mask) (reframed cut info s)
      = some (reframed cut info { s with resources := s.resources.filter (sparesType mask s) }) := by
  have hstart : TypesVisited cut info mask s s.resources (reframed cut info s) := ⟨[], rfl, rfl⟩
  have hloop : ∃ t, dlistForeach2 (fun rd : Rd w => rd.resources) (resourceFilterMask mask)
      (reframed cut info s) = some t ∧ TypesVisited cut info mask s [] t := by
    refine dlistForeach2_total (fun rest t hI => ?_) (fun res rest t hI => ?_) hstart
    · obtain ⟨done, hall, rfl⟩ := hI
      refine ⟨_, rfl, ?_⟩
      rw [hall] at hnd
      exact hnd.sublist (List.filter_sublist.append (.refl _))
    · obtain ⟨done, hall, -⟩ := id hI
      exact hI.step hnd (hlive res (by simp [hall]))
  obtain ⟨t, hrun, done, hall, rfl⟩ := hloop
  rw [List.append_nil] at hall
  rw [hrun, List.append_nil, hall]

theorem Left.filterResource (h : Left rd s) (mask : BitVec 32) (hnd : s.resources.Nodup)
    (htypes : ∀ res ∈ s.resources, (rd.resource res).isSome) (hlive : ResourcesLive rd) :
    ∃ s', filterResource mask (reframed cut info s) = some (reframed cut info s') ∧
      Left rd s' ∧ s'.calls = s.calls.filter (spares (fcallFilterResource mask) rd) ∧
      { s with resources := s.resources.filter (sparesType mask rd) }.SameRest s' := by
  have htypes' : ∀ res ∈ s.resources, (s.resource res).isSome := by rwa [h.resource]
  have hloop := foreach_resources cut info s mask hnd htypes'
  have hsame : sparesType mask s = sparesType mask rd := by
    funext res
    rw [sparesType, sparesType, h.resource]
  have hdrop : ∀ t : Rd w, t.resource = rd.resource →
      fcallFilterResource mask t = fcallFilterResource mask rd := by
    intro t ht
    funext d
    rw [fcallFilterResource, fcallFilterResource, ht]
  have hread : ∀ c ∈ rd.calls, ∀ x, rd.fcall c = some x →
      (fcallFilterResource mask rd x.data).isSome := by
    intro c hc x hx
    obtain ⟨x', hx', hres⟩ := hlive c hc
    obtain rfl := Option.some.inj (hx'.symm.trans hx)
    unfold fcallFilterResource
    cases htype : x'.data.resType with
    | none => rfl
    | some type =>
      obtain ⟨r, hr⟩ := hres type htype
      simp [hr]
  rw [hsame] at hloop
  obtain ⟨s', hrun, hleft, hcalls, hrest⟩ := (h.of_lists s.contexts
    (s.resources.filter (sparesType mask rd)) s.hinfo).filterCalls hdrop hread
  refine ⟨s', ?_, hleft, hcalls, hrest⟩
  show (dlistForeach2 (fun rd : Rd w => rd.resources) (resourceFilterMask mask)
    (reframed cut info s)).bind (Postproc.filterCalls (fcallFilterResource mask)) = _
  rw [hloop]
  exact hrun

/-! ## The range of addresses -/

/-- The filter of the first mapping of the target. -/
def rangeFilter (opts : RangeOptions w) (isAbsolute : Str → Option Bool) (mmaps : List (Mmap w)) :
    CallAddressFilter w :=
  dlistForeach2In mmapLookupFilterRangeTargetFound (mmapLookupFilterRangeTarget opts isAbsolute)
    mmaps { start := 0, size := 0 }

/-- The frames that a call has after its backtrace was cut. -/
def cutFrames (cut : Cut w) (rd : Rd w) (c : Nat) : Option (List (Frame w)) := do
  let t ← (← rd.fcall c).trace
  some (cut t (← rd.ftrace t).frames)

/-- The call has an address in the range, or there is no range. -/
def sparesRange (filter : CallAddressFilter w) (cut : Cut w) (rd : Rd w) (c : Nat) : Bool :=
  filter.start = 0 || ((cutFrames cut rd c).getD []).any fun f => filter.covers f.addr

theorem tracedFrames_reframed (rd : Rd w) (c : Nat) :
    tracedFrames (reframed cut info rd) c = cutFrames cut rd c := by
  unfold tracedFrames cutFrames
  cases hx : rd.fcall c with
  | none => simp [hx]
  | some x =>
    cases ht : x.trace with
    | none => simp [hx, ht]
    | some t => cases hy : rd.ftrace t <;> simp [hx, ht, hy, Cut.trace]

theorem Left.cutFrames (h : Left rd s) (cut : Cut w) {c : Nat} (hc : c ∈ s.calls) :
    cutFrames cut s c = cutFrames cut rd c := by
  have hframes := h.frames c hc
  have hfcall := h.fcall c hc
  obtain ⟨x, hx⟩ := h.integrity.call_live c hc
  have hx' : rd.fcall c = some x := hfcall.symm.trans hx
  unfold Postproc.cutFrames
  unfold tracedFrames at hframes
  cases ht : x.trace with
  | none => simp [hx, hx', ht]
  | some t =>
    simp only [hx, hx', Option.bind_some, ht] at hframes
    cases hy : s.ftrace t <;> cases hy' : rd.ftrace t <;> simp [hy, hy'] at hframes <;>
      simp [hx, hx', ht, hy, hy', hframes]

theorem Left.filterRange (h : Left rd s) (opts : RangeOptions w) (isAbsolute : Str → Option Bool)
    (hcut : ∀ t frames, (cut t frames).length ≤ frames.length)
    (hframes : ∀ c ∈ rd.calls, ∃ frames, tracedFrames rd c = some frames ∧ frames.length < 2 ^ 32) :
    ∃ s', filterCallAddressRange opts isAbsolute (reframed cut info s) = some (reframed cut info s') ∧
      Left rd s' ∧
      s'.calls = s.calls.filter (sparesRange (rangeFilter opts isAbsolute rd.mmaps) cut rd) ∧
      s.SameRest s' := by
  have hfilter : rangeFilter opts isAbsolute (reframed cut info s).mmaps
      = rangeFilter opts isAbsolute rd.mmaps := by
    rw [reframed_mmaps, h.mmaps]
  by_cases hstart : (rangeFilter opts isAbsolute rd.mmaps).start = 0
  · refine ⟨s, if_pos (by rw [← hfilter] at hstart; exact hstart), h, ?_, .refl s⟩
    exact (List.filter_eq_self.mpr fun c _ => by simp [sparesRange, hstart]).symm
  have hrun : ∃ s', dlistForeach2 (fun rd : Rd w => rd.calls)
      (fcallFilterRange (rangeFilter opts isAbsolute rd.mmaps)) (reframed cut info s)
        = some (reframed cut info s') ∧
      Left rd s' ∧
      s'.calls = s.calls.filter (sparesRange (rangeFilter opts isAbsolute rd.mmaps) cut rd) ∧
      s.SameRest s' := by
    refine h.foreach fun c s' hleft hmem => ?_
    obtain ⟨frames, hf, hlen⟩ := hframes c (hleft.calls.subset hmem)
    obtain ⟨x, t, y, hx, ht, hy, rfl⟩ := tracedFrames_eq_some.mp hf
    have hcutf : Postproc.cutFrames cut rd c = some (cut t y.frames) := by
      simp [Postproc.cutFrames, hx, ht, hy]
    have htraced : tracedFrames (reframed cut info s') c = some (cut t y.frames) := by
      rw [tracedFrames_reframed, hleft.cutFrames cut hmem, hcutf]
    rw [fcallFilterRange_scanned htraced (.inr ((hcut t y.frames).trans_lt hlen)),
      rdFcallRemove_reframed]
    rw [sparesRange, decide_eq_false hstart, Bool.false_or, hcutf, Option.getD_some]
  obtain ⟨s', hrun, hrest⟩ := hrun
  refine ⟨s', ?_, hrest⟩
  unfold filterCallAddressRange
  simp only
  rw [show dlistForeach2In mmapLookupFilterRangeTargetFound (mmapLookupFilterRangeTarget opts isAbsolute)
    (reframed cut info s).mmaps { start := 0, size := 0 } = _ from hfilter, if_neg hstart, hrun]

/-! ## Leaks -/

/-- What the leak filter looks at. -/
theorem Left.kind (h : Left rd s) {c : Nat} (hc : c ∈ s.calls) : callKind s c = callKind rd c := by
  rw [callKind, callKind, h.fcall c hc]

theorem Left.key (h : Left rd s) {c : Nat} (hc : c ∈ s.calls) : callKey s c = callKey rd c := by
  rw [callKey, callKey, h.fcall c hc]

theorem Left.resourced (h : Left rd s) (hres : Resourced rd) : Resourced s where
  carries c hc := by
    rw [h.fcall c hc, h.resource]
    exact hres.carries c (h.calls.subset hc)
  ids_inj c hc d hd := by
    rw [h.fcall c hc, h.fcall d hd, h.resource]
    exact hres.ids_inj c (h.calls.subset hc) d (h.calls.subset hd)

theorem Left.keptCalls (h : Left rd s) : keptCalls (callKind s) (callKey s) (keyCounted s) s.calls
    = keptCalls (callKind rd) (callKey rd) (keyCounted rd) s.calls := by
  have hcounted : keyCounted s = keyCounted rd := by
    funext k
    rw [keyCounted, keyCounted, h.resource]
  have hnames : Renames (callKind s) (callKey s) (keyCounted s) (callKind rd) (callKey rd)
      (keyCounted rd) id s.calls :=
    ⟨fun _ _ _ _ heq => heq, fun c hc => (h.kind hc).symm,
      fun c hc d hd => by rw [h.key hc, h.key hd]; rfl, fun c hc => by rw [h.key hc, hcounted]; rfl⟩
  simpa using keptCalls_map h.integrity.calls_nodup hnames

theorem Left.filterLeaks (h : Left rd s) (hres : Resourced rd) (hfew : rd.calls.length ≤ 2 ^ 32) :
    ∃ s', filterLeaks (reframed cut info s) = some (reframed cut info s') ∧ Left rd s' ∧
      s'.calls = Postproc.keptCalls (callKind rd) (callKey rd) (keyCounted rd) s.calls ∧
      s.SameRest s' := by
  obtain ⟨s', heq, hcalls, hrest, -⟩ :=
    filterLeaksWith_keptCalls resHash h.integrity (h.resourced hres)
      (.of_length (h.calls.length_le.trans hfew))
  refine ⟨s', ?_, h.of_removal (filterLeaks_removal heq), hcalls.trans h.keptCalls, hrest⟩
  rw [filterLeaks_reframed]
  exact congrArg (Option.map (reframed cut info)) heq

/-! ## The blocks of the heap -/

def allocated (rd : Rd w) (calls : List Nat) : List (BitVec w) :=
  calls.filterMap fun c => ((rd.fcall c).filter fun x => x.data.type = ftypeAlloc).map fun x => x.data.resId

/-- The lowest and the highest block among some, behind what was known. -/
structure HeapBounds (blocks : List (BitVec w)) (before after : Hinfo w) : Prop where
  lowest_le : ∀ id ∈ blocks, after.lowestBlock ≤ id
  lowest_mem : after.lowestBlock ∈ blocks ∨ after.lowestBlock = before.lowestBlock
  le_highest : ∀ id ∈ blocks, id ≤ after.highestBlock
  highest_mem : after.highestBlock ∈ blocks ∨ after.highestBlock = before.highestBlock
  lowest_before : after.lowestBlock ≤ before.lowestBlock
  highest_before : before.highestBlock ≤ after.highestBlock
  same : after = { before with lowestBlock := after.lowestBlock, highestBlock := after.highestBlock }

/-- One block. -/
theorem HeapBounds.add {blocks : List (BitVec w)} {before hinfo hinfo' : Hinfo w} {block : BitVec w}
    (h : HeapBounds blocks before hinfo)
    (hlowest : hinfo'.lowestBlock = if block < hinfo.lowestBlock then block else hinfo.lowestBlock)
    (hhighest : hinfo'.highestBlock = if hinfo.highestBlock < block then block else hinfo.highestBlock)
    (hsame : hinfo' = { hinfo with lowestBlock := hinfo'.lowestBlock, highestBlock := hinfo'.highestBlock }) :
    HeapBounds (blocks ++ [block]) before hinfo' where
  lowest_le := by
    intro b hb
    rw [hlowest]
    rcases List.mem_append.mp hb with hb | hb
    · have := h.lowest_le b hb
      split <;> bv_omega
    · obtain rfl := List.mem_singleton.mp hb
      split <;> bv_omega
  lowest_mem := by
    rw [hlowest]
    split
    · exact .inl (by simp)
    · exact h.lowest_mem.imp (List.mem_append_left _) id
  le_highest := by
    intro b hb
    rw [hhighest]
    rcases List.mem_append.mp hb with hb | hb
    · have := h.le_highest b hb
      split <;> bv_omega
    · obtain rfl := List.mem_singleton.mp hb
      split <;> bv_omega
  highest_mem := by
    rw [hhighest]
    split
    · exact .inl (by simp)
    · exact h.highest_mem.imp (List.mem_append_left _) id
  lowest_before := by
    have := h.lowest_before
    rw [hlowest]
    split <;> bv_omega
  highest_before := by
    have := h.highest_before
    rw [hhighest]
    split <;> bv_omega
  same := by
    rw [h.same] at hsame
    exact hsame

theorem HeapBounds.step {blocks : List (BitVec w)} {before hinfo : Hinfo w}
    (h : HeapBounds blocks before hinfo) (d : FcallData w) :
    HeapBounds (blocks ++ if d.type = ftypeAlloc then [d.resId] else []) before
      (fcallFindLowhighBlocks d hinfo) := by
  unfold fcallFindLowhighBlocks
  by_cases htype : d.type = ftypeAlloc
  · rw [if_pos htype, if_pos htype]
    refine h.add ?_ ?_ ?_ <;> by_cases hlow : d.resId < hinfo.lowestBlock <;>
      by_cases hhigh : hinfo.highestBlock < d.resId <;> simp [hlow, hhigh]
  · simpa [htype] using h

/-- **The blocks of the heap** are those of the calls that are left. -/
theorem filterFindLowhighBlocks_bounds {calls : List Nat} {blocks : List (BitVec w)} {before hinfo : Hinfo w}
    (hlive : ∀ c ∈ calls, (rd.fcall c).isSome) (h : HeapBounds blocks before hinfo) :
    ∃ hinfo', calls.foldlM (fun hinfo call => do
        some (fcallFindLowhighBlocks (← rd.fcall call).data hinfo)) hinfo = some hinfo' ∧
      HeapBounds (blocks ++ allocated rd calls) before hinfo' := by
  induction calls generalizing blocks hinfo with
  | nil => exact ⟨hinfo, rfl, by simpa [allocated] using h⟩
  | cons c calls ih =>
    obtain ⟨x, hx⟩ := Option.isSome_iff_exists.mp (hlive c (by simp))
    obtain ⟨hinfo', hrun, hbounds⟩ := ih (fun c hc => hlive c (List.mem_cons_of_mem _ hc)) (h.step x.data)
    refine ⟨hinfo', ?_, ?_⟩
    · rw [List.foldlM_cons]
      simpa [hx] using hrun
    · have hblocks : blocks ++ allocated rd (c :: calls)
          = (blocks ++ if x.data.type = ftypeAlloc then [x.data.resId] else []) ++ allocated rd calls := by
        by_cases htype : x.data.type = ftypeAlloc <;>
          simp [allocated, hx, Option.filter, htype]
      rw [hblocks]
      exact hbounds

/-! ## The index file -/

/-- Below 2^31 the comparison is that of the numbers. -/
theorem filterCompareEventIndex_eq (hw : 32 ≤ w) {a b : BitVec w} (ha : a.toNat < 2 ^ 31)
    (hb : b.toNat < 2 ^ 31) : filterCompareEventIndex a b = (a.toNat : Int) - b.toNat := by
  have hpow : 2 ^ 32 ∣ 2 ^ w := Nat.pow_dvd_pow 2 hw
  obtain ⟨k, hk⟩ := hpow
  have hcut : ((a - b).setWidth 32).toNat = (2 ^ 32 + a.toNat - b.toNat) % 2 ^ 32 := by
    rw [BitVec.toNat_setWidth, BitVec.toNat_sub, Nat.mod_mod_of_dvd _ ⟨k, hk⟩]
    have hlt := b.isLt
    have : 2 ^ w - b.toNat + a.toNat = 2 ^ 32 * (k - 1) + (2 ^ 32 + a.toNat - b.toNat) := by
      have hk1 : 1 ≤ k := by
        rcases Nat.eq_zero_or_pos k with rfl | hpos
        · simp at hk
        · exact hpos
      have hmul : 2 ^ 32 * k = 2 ^ 32 * (k - 1) + 2 ^ 32 := by
        rw [← Nat.mul_succ, Nat.succ_eq_add_one, Nat.sub_add_cancel hk1]
      omega
    rw [this, Nat.mul_add_mod]
  rw [filterCompareEventIndex, BitVec.toInt_eq_toNat_cond, hcut]
  split <;> omega

/-- A tree of small indices, in their order. -/
structure SmallTree (tree : SearchTree (BitVec w)) : Prop where
  small : ∀ item ∈ tree.items, item.toNat < 2 ^ 31
  sorted : tree.items.Pairwise fun x y => x.toNat < y.toNat

theorem SmallTree.directed (hw : 32 ≤ w) {tree : SearchTree (BitVec w)} (h : SmallTree tree)
    {key : BitVec w} (hkey : key.toNat < 2 ^ 31) :
    SearchTree.Directed filterCompareEventIndex key tree.items := by
  refine h.sorted.imp_of_mem fun {x y} hx hy hlt => ?_
  rw [filterCompareEventIndex_eq hw hkey (h.small x hx), filterCompareEventIndex_eq hw hkey (h.small y hy)]
  omega

/-- What is found in the tree. -/
theorem SmallTree.tfind_iff (hw : 32 ≤ w) {tree : SearchTree (BitVec w)} (h : SmallTree tree)
    {key : BitVec w} (hkey : key.toNat < 2 ^ 31) :
    (tree.tfind filterCompareEventIndex key).isSome ↔ key ∈ tree.items := by
  rw [SearchTree.tfind_isSome (h.directed hw hkey)]
  constructor
  · rintro ⟨item, hmem, hzero⟩
    rw [filterCompareEventIndex_eq hw hkey (h.small item hmem)] at hzero
    obtain rfl : key = item := BitVec.eq_of_toNat_eq (by omega)
    exact hmem
  · intro hmem
    exact ⟨key, hmem, by rw [filterCompareEventIndex_eq hw hkey hkey]; omega⟩

/-- One more index. -/
theorem SmallTree.tsearch (hw : 32 ≤ w) {balance : SearchTree (BitVec w) → SearchTree (BitVec w)}
    (hbalance : SearchTree.Balances balance) {tree : SearchTree (BitVec w)} (h : SmallTree tree)
    {key : BitVec w} (hkey : key.toNat < 2 ^ 31) :
    SmallTree (tree.tsearch balance filterCompareEventIndex key).1 ∧
      ∀ x, x ∈ (tree.tsearch balance filterCompareEventIndex key).1.items ↔ x ∈ tree.items ∨ x = key := by
  have hfind := h.tfind_iff hw hkey
  unfold SearchTree.tsearch
  cases hfound : tree.tfind filterCompareEventIndex key with
  | some item =>
    have hmem : key ∈ tree.items := hfind.mp (by rw [hfound]; rfl)
    refine ⟨⟨fun x hx => h.small x (hbalance tree ▸ hx), by rw [hbalance]; exact h.sorted⟩, fun x => ?_⟩
    rw [hbalance]
    exact ⟨.inl, fun hx => hx.elim (fun hx => hx) fun hx => hx ▸ hmem⟩
  | none =>
    have hnew : ∀ item ∈ tree.items, filterCompareEventIndex key item ≠ 0 := by
      intro item hmem hzero
      rw [filterCompareEventIndex_eq hw hkey (h.small item hmem)] at hzero
      obtain rfl : key = item := BitVec.eq_of_toNat_eq (by omega)
      have hsome := hfind.mpr hmem
      rw [hfound] at hsome
      cases hsome
    obtain ⟨front, back, hitems, hattach, hfront, hback⟩ :=
      SearchTree.items_attach (h.directed hw hkey) hnew
    have hmem : ∀ x, x ∈ (tree.attach filterCompareEventIndex key).items ↔ x ∈ tree.items ∨ x = key := by
      intro x
      simp only [hattach, hitems, List.mem_append, List.mem_cons]
      tauto
    have hsmall : ∀ x ∈ front ++ back, x.toNat < 2 ^ 31 := hitems ▸ h.small
    refine ⟨⟨?_, ?_⟩, fun x => by rw [hbalance]; exact hmem x⟩
    · intro x hx
      rw [hbalance, hmem] at hx
      rcases hx with hx | rfl
      · exact h.small x hx
      · exact hkey
    · have hsorted := h.sorted
      rw [hitems, List.pairwise_append] at hsorted
      obtain ⟨hfsorted, hbsorted, hcross⟩ := hsorted
      rw [hbalance, hattach, List.pairwise_append, List.pairwise_cons]
      refine ⟨hfsorted, ⟨fun y hy => ?_, hbsorted⟩, fun x hx y hy => ?_⟩
      · have := hback y hy
        rw [filterCompareEventIndex_eq hw hkey (hsmall y (List.mem_append_right _ hy))] at this
        omega
      · rcases List.mem_cons.mp hy with rfl | hy
        · have := hfront x hx
          rw [filterCompareEventIndex_eq hw hkey (hsmall x (List.mem_append_left _ hx))] at this
          omega
        · exact hcross x hx y hy

/-- **The index file** is searched for exactly its indices. -/
theorem filterLoadIndexData_iff (hw : 32 ≤ w) {balance : SearchTree (BitVec w) → SearchTree (BitVec w)}
    (hbalance : SearchTree.Balances balance) {file : Str}
    (hsmall : ∀ idx ∈ fileIndexes w file, idx.toNat < 2 ^ 31) {key : BitVec w} (hkey : key.toNat < 2 ^ 31) :
    ((filterLoadIndexData balance file).tfind filterCompareEventIndex key).isSome
      ↔ key ∈ fileIndexes w file := by
  have hfold : ∀ (indexes : List (BitVec w)) (tree : SearchTree (BitVec w)),
      (∀ idx ∈ indexes, idx.toNat < 2 ^ 31) → SmallTree tree →
      SmallTree (indexes.foldl (fun root idx =>
          (root.tsearch balance filterCompareEventIndex idx).1) tree) ∧
        ∀ x, x ∈ (indexes.foldl (fun root idx =>
          (root.tsearch balance filterCompareEventIndex idx).1) tree).items ↔ x ∈ tree.items ∨ x ∈ indexes := by
    intro indexes
    induction indexes with
    | nil => exact fun tree _ htree => ⟨htree, fun x => by simp⟩
    | cons idx indexes ih =>
      intro tree hindexes htree
      obtain ⟨hstep, hmem⟩ := htree.tsearch hw hbalance (hindexes idx (by simp))
      obtain ⟨hrun, hmem'⟩ := ih _ (fun i hi => hindexes i (List.mem_cons_of_mem _ hi)) hstep
      refine ⟨hrun, fun x => ?_⟩
      rw [List.foldl_cons, hmem', hmem, List.mem_cons, or_assoc]
  obtain ⟨htree, hmem⟩ := hfold (fileIndexes w file) .nil hsmall ⟨by simp [SearchTree.items], by simp [SearchTree.items]⟩
  rw [filterLoadIndexData, htree.tfind_iff hw hkey, hmem]
  simp [SearchTree.items]

/-! ## The filters one after the other -/

/-- The index of the call is in the file. -/
def listed (file : Str) (rd : Rd w) (c : Nat) : Bool :=
  (rd.fcall c).any fun x => x.data.index.signExtend w ∈ fileIndexes w file

/-- How the depth option cuts the backtraces. -/
def optionCut (opts : PostprocOptions w) (rd : Rd w) : Cut w :=
  if opts.backtraceDepth = -1 then fun _ frames => frames
  else depthCut opts.backtraceDepth (htableNodes rd.ftraces)

/-- **The calls that the options select**, each by itself. -/
def selected (opts : PostprocOptions w) (isAbsolute : Str → Option Bool) (rd : Rd w) (c : Nat) : Bool :=
  (opts.filterResource = 0 || spares (fcallFilterResource opts.filterResource) rd c) &&
  (opts.filterRange.all fun range =>
    sparesRange (rangeFilter range isAbsolute rd.mmaps) (optionCut opts rd) rd c) &&
  (opts.includeFile.all fun file => listed file rd c) &&
  (opts.excludeFile.all fun file => !listed file rd c) &&
  (opts.filterContext = -1 || spares (fcallFilterContext opts.filterContext) rd c)

/-- What the filters rely on: live records, and with the options that look
at them backtraces, resource types of all calls, no more calls than can be
counted, and indices that can be compared. -/
structure Postprocessable (opts : PostprocOptions w) (rd : Rd w) : Prop where
  pinfo : rd.pinfo.isSome
  table : 0 < rd.ftraces.size
  types_nodup : rd.resources.Nodup
  types_live : ∀ res ∈ rd.resources, (rd.resource res).isSome
  resources : ResourcesLive rd
  resourced : opts.filterLeaks = true → Resourced rd
  few : opts.filterLeaks = true → rd.calls.length ≤ 2 ^ 32
  traced : opts.filterRange.isSome →
    ∀ c ∈ rd.calls, ∃ frames, tracedFrames rd c = some frames ∧ frames.length < 2 ^ 32
  indexes : ∀ file, opts.includeFile = some file ∨ opts.excludeFile = some file →
    (∀ idx ∈ fileIndexes w file, idx.toNat < 2 ^ 31) ∧
      ∀ c ∈ rd.calls, ∀ x, rd.fcall c = some x → x.data.index.toNat < 2 ^ 31

/-- What one filter leaves: the calls it spares, with new lists of records. -/
structure Narrows (rd s : Rd w) (spare : Nat → Bool) (resources : List Nat) (contexts : List (Context w))
    (s' : Rd w) : Prop where
  left : Left rd s'
  calls : s'.calls = s.calls.filter spare
  resources : s'.resources = resources
  contexts : s'.contexts = contexts
  hinfo : s'.hinfo = s.hinfo

/-- The filter ends on the store with other frames, and narrows it. -/
def Runs (cut : Cut w) (info : Option Pinfo → Option Pinfo) (rd s : Rd w)
    (filter : Rd w → Option (Rd w)) (spare : Nat → Bool) (resources : List Nat)
    (contexts : List (Context w)) : Prop :=
  ∃ s', filter (reframed cut info s) = some (reframed cut info s') ∧ Narrows rd s spare resources contexts s'

/-- The next filter. -/
theorem Narrows.next {filter : Rd w → Option (Rd w)} {spare spare' : Nat → Bool}
    {resources resources' : List Nat} {contexts contexts' : List (Context w)}
    (h : Narrows rd rd spare resources contexts s)
    (hnext : Runs cut info rd s filter spare' resources' contexts') :
    ∃ s', filter (reframed cut info s) = some (reframed cut info s') ∧
      Narrows rd rd (fun c => spare c && spare' c) resources' contexts' s' := by
  obtain ⟨s', hrun, h'⟩ := hnext
  refine ⟨s', hrun, h'.left, ?_, h'.resources, h'.contexts, h'.hinfo.trans h.hinfo⟩
  rw [h'.calls, h.calls, List.filter_filter]
  exact List.filter_congr fun c _ => Bool.and_comm ..

/-- An option that is not set. -/
theorem runs_whenOn (h : Left rd s) {p : Prop} [Decidable p] {filter : Rd w → Option (Rd w)}
    {spare : Nat → Bool} {resources : List Nat} {contexts : List (Context w)}
    (hset : ¬ p → Runs cut info rd s filter spare resources contexts) :
    Runs cut info rd s (whenOn (¬ p) filter) (fun c => decide p || spare c)
      (if p then s.resources else resources) (if p then s.contexts else contexts) := by
  by_cases hp : p
  · exact ⟨s, if_neg (not_not.mpr hp), h, by simp [hp], (if_pos hp).symm, (if_pos hp).symm, rfl⟩
  · obtain ⟨s', hrun, hnarrows⟩ := hset hp
    refine ⟨s', (if_pos hp).trans hrun, ?_⟩
    simpa [hp] using hnarrows

theorem runs_whenSet (h : Left rd s) {option : Option α} {filter : α → Rd w → Option (Rd w)}
    {spare : α → Nat → Bool}
    (hset : ∀ value, option = some value →
      Runs cut info rd s (filter value) (spare value) s.resources s.contexts) :
    Runs cut info rd s (whenSet option filter) (fun c => option.all fun value => spare value c)
      s.resources s.contexts := by
  cases option with
  | none => exact ⟨s, rfl, h, by simp, rfl, rfl, rfl⟩
  | some value => exact hset value rfl

theorem sameRest_hinfo (h : s.SameRest s') : s'.hinfo = s.hinfo := by
  rw [Rd.SameRest] at h
  rw [h]

/-- Only calls are removed. -/
theorem runs_of_sameRest {filter : Rd w → Option (Rd w)} {spare : Nat → Bool}
    (h : ∃ s', filter (reframed cut info s) = some (reframed cut info s') ∧ Left rd s' ∧
      s'.calls = s.calls.filter spare ∧ s.SameRest s') :
    Runs cut info rd s filter spare s.resources s.contexts := by
  obtain ⟨s', hrun, hleft, hcalls, hrest⟩ := h
  exact ⟨s', hrun, hleft, hcalls, hrest.records.1, hrest.records.2.2.1, sameRest_hinfo hrest⟩

theorem Left.runs_resource (h : Left rd s) {opts : PostprocOptions w} (hready : Postprocessable opts rd)
    (hresources : s.resources = rd.resources) :
    Runs cut info rd s (Postproc.filterResource opts.filterResource)
      (spares (fcallFilterResource opts.filterResource) rd)
      (s.resources.filter (sparesType opts.filterResource rd)) s.contexts := by
  obtain ⟨s', hrun, hleft, hcalls, hrest⟩ := h.filterResource opts.filterResource
    (hresources ▸ hready.types_nodup) (hresources ▸ hready.types_live) hready.resources
  refine ⟨s', hrun, hleft, hcalls, hrest.records.1, hrest.records.2.2.1, ?_⟩
  exact (sameRest_hinfo hrest).trans rfl

theorem Left.runs_context (h : Left rd s) (mask : BitVec 32) :
    Runs cut info rd s (Postproc.filterContext mask) (spares (fcallFilterContext mask) rd) s.resources
      (s.contexts.filter fun c => c.id &&& mask.signExtend w ≠ 0) := by
  obtain ⟨s', hrun, hleft, hcalls, hrest⟩ := h.filterContext mask
  refine ⟨s', hrun, hleft, hcalls, hrest.records.1, hrest.records.2.2.1, ?_⟩
  exact (sameRest_hinfo hrest).trans rfl

theorem toNat_index {index : BitVec 32} (h : index.toNat < 2 ^ 31) :
    (index.signExtend w).toNat < 2 ^ 31 := by
  have hmsb : index.msb = false := by
    rw [BitVec.msb_eq_decide]
    exact decide_eq_false (by omega)
  rw [BitVec.signExtend_eq_setWidth_of_msb_false hmsb, BitVec.toNat_setWidth]
  exact (Nat.mod_le _ _).trans_lt h

/-- The filter of an index file. -/
theorem Left.runs_index (hw : 32 ≤ w) {balance : SearchTree (BitVec w) → SearchTree (BitVec w)}
    (hbalance : SearchTree.Balances balance) (h : Left rd s) (incl : Bool) {file : Str}
    (hfile : (∀ idx ∈ fileIndexes w file, idx.toNat < 2 ^ 31) ∧
      ∀ c ∈ rd.calls, ∀ x, rd.fcall c = some x → x.data.index.toNat < 2 ^ 31) :
    Runs cut info rd s (Postproc.filterCalls (fcallFilterIndexMap incl (filterLoadIndexData balance file)))
      (fun c => listed file rd c == incl) s.resources s.contexts := by
  have hdrop : ∀ t : Rd w, t.resource = rd.resource →
      fcallFilterIndexMap incl (filterLoadIndexData balance file) t
        = fcallFilterIndexMap incl (filterLoadIndexData balance file) rd := fun _ _ => rfl
  obtain ⟨s', hrun, hleft, hcalls, hrest⟩ := h.filterCalls hdrop fun _ _ _ _ => rfl
  refine runs_of_sameRest ⟨s', hrun, hleft, hcalls.trans ?_, hrest⟩
  refine List.filter_congr fun c hc => ?_
  obtain ⟨x, hx⟩ := h.integrity.call_live c hc
  have hx' : rd.fcall c = some x := (h.fcall c hc).symm.trans hx
  have hiff := filterLoadIndexData_iff hw hbalance hfile.1
    (toNat_index (hfile.2 c (h.calls.subset hc) x hx'))
  rw [spares, listed, hx', Option.all_some, Option.any_some, fcallFilterIndexMap]
  by_cases hmem : x.data.index.signExtend w ∈ fileIndexes w file
  · simp only [hiff.mpr hmem, hmem, decide_true]
    cases incl <;> rfl
  · simp only [Bool.eq_false_iff.mpr (mt hiff.mp hmem), hmem, decide_false]
    cases incl <;> rfl

/-- Trimming comes first. -/
theorem trim_reframed (opts : PostprocOptions w) (h : rd.Integrity) (hpinfo : rd.pinfo.isSome)
    (htable : 0 < rd.ftraces.size) :
    ∃ info, whenOn (opts.backtraceDepth ≠ -1) (filterTrimBacktraces opts.backtraceDepth) rd
      = some (reframed (optionCut opts rd) info rd) := by
  obtain ⟨pinfo, hp⟩ := Option.isSome_iff_exists.mp hpinfo
  by_cases hdepth : opts.backtraceDepth = -1
  · refine ⟨id, ?_⟩
    rw [whenOn, if_neg (by simpa using hdepth), optionCut, if_pos hdepth, reframed_id]
  · refine ⟨Option.map fun pinfo => { pinfo with backtraceDepth := opts.backtraceDepth }, ?_⟩
    rw [whenOn, if_pos hdepth, optionCut, if_neg hdepth,
      filterTrimBacktraces_eq (Linked.referenced h.toLinked htable) _ hp, trimmedData_reframed]

theorem optionCut_le (opts : PostprocOptions w) (rd : Rd w) (t : Nat) (frames : List (Frame w)) :
    (optionCut opts rd t frames).length ≤ frames.length := by
  unfold optionCut
  split
  · exact le_rfl
  · rw [depthCut]
    split
    · exact List.length_take_le' ..
    · exact le_rfl

/-- The filters that look at one call after the other. -/
def selectCalls (balance : SearchTree (BitVec w) → SearchTree (BitVec w))
    (isAbsolute : Str → Option Bool) (opts : PostprocOptions w) (rd : Rd w) : Option (Rd w) := do
  let rd ← whenOn (opts.filterResource ≠ 0) (filterResource opts.filterResource) rd
  let rd ← whenSet opts.filterRange (fun range => filterCallAddressRange range isAbsolute) rd
  let rd ← whenSet opts.includeFile
    (fun file => filterCalls (fcallFilterIndexMap true (filterLoadIndexData balance file))) rd
  let rd ← whenSet opts.excludeFile
    (fun file => filterCalls (fcallFilterIndexMap false (filterLoadIndexData balance file))) rd
  whenOn (opts.filterContext ≠ -1) (filterContext opts.filterContext) rd

/-- **The calls that the options select are left.** -/
theorem selectCalls_runs {balance : SearchTree (BitVec w) → SearchTree (BitVec w)} (hw : 32 ≤ w)
    (hbalance : SearchTree.Balances balance) (isAbsolute : Str → Option Bool) {opts : PostprocOptions w}
    (h : rd.Integrity) (hready : Postprocessable opts rd) (info : Option Pinfo → Option Pinfo) :
    ∃ s, selectCalls balance isAbsolute opts (reframed (optionCut opts rd) info rd)
        = some (reframed (optionCut opts rd) info s) ∧
      Narrows rd rd (selected opts isAbsolute rd)
        (if opts.filterResource = 0 then rd.resources
          else rd.resources.filter (sparesType opts.filterResource rd))
        (if opts.filterContext = -1 then rd.contexts
          else rd.contexts.filter fun c => c.id &&& opts.filterContext.signExtend w ≠ 0) s := by
  have hresource : Runs (optionCut opts rd) info rd rd
      (whenOn (opts.filterResource ≠ 0) (filterResource opts.filterResource))
      (fun c => opts.filterResource = 0 || spares (fcallFilterResource opts.filterResource) rd c)
      (if opts.filterResource = 0 then rd.resources
        else rd.resources.filter (sparesType opts.filterResource rd))
      (if opts.filterResource = 0 then rd.contexts else rd.contexts) :=
    runs_whenOn (Left.refl h) fun _ => (Left.refl h).runs_resource hready rfl
  obtain ⟨s₁, hrun₁, n₁⟩ := hresource
  have hrange : Runs (optionCut opts rd) info rd s₁
      (whenSet opts.filterRange (fun range => filterCallAddressRange range isAbsolute))
      (fun c => opts.filterRange.all fun range =>
        sparesRange (rangeFilter range isAbsolute rd.mmaps) (optionCut opts rd) rd c)
      s₁.resources s₁.contexts :=
    runs_whenSet n₁.left fun range heq => runs_of_sameRest
      (n₁.left.filterRange range isAbsolute (optionCut_le opts rd) (hready.traced (by rw [heq]; rfl)))
  obtain ⟨s₂, hrun₂, n₂⟩ := n₁.next hrange
  have hinclude : Runs (optionCut opts rd) info rd s₂
      (whenSet opts.includeFile
        (fun file => filterCalls (fcallFilterIndexMap true (filterLoadIndexData balance file))))
      (fun c => opts.includeFile.all fun file => listed file rd c == true)
      s₂.resources s₂.contexts :=
    runs_whenSet n₂.left fun file heq =>
      n₂.left.runs_index hw hbalance true (hready.indexes file (.inl heq))
  obtain ⟨s₃, hrun₃, n₃⟩ := n₂.next hinclude
  have hexclude : Runs (optionCut opts rd) info rd s₃
      (whenSet opts.excludeFile
        (fun file => filterCalls (fcallFilterIndexMap false (filterLoadIndexData balance file))))
      (fun c => opts.excludeFile.all fun file => listed file rd c == false)
      s₃.resources s₃.contexts :=
    runs_whenSet n₃.left fun file heq =>
      n₃.left.runs_index hw hbalance false (hready.indexes file (.inr heq))
  obtain ⟨s₄, hrun₄, n₄⟩ := n₃.next hexclude
  have hcontext : Runs (optionCut opts rd) info rd s₄
      (whenOn (opts.filterContext ≠ -1) (filterContext opts.filterContext))
      (fun c => opts.filterContext = -1 || spares (fcallFilterContext opts.filterContext) rd c)
      (if opts.filterContext = -1 then s₄.resources else s₄.resources)
      (if opts.filterContext = -1 then s₄.contexts
        else s₄.contexts.filter fun c => c.id &&& opts.filterContext.signExtend w ≠ 0) :=
    runs_whenOn n₄.left fun _ => n₄.left.runs_context opts.filterContext
  obtain ⟨s₅, hrun₅, n₅⟩ := n₄.next hcontext
  refine ⟨s₅, ?_, n₅.left, ?_, ?_, ?_, n₅.hinfo⟩
  · simp only [selectCalls, hrun₁, hrun₂, hrun₃, hrun₄, hrun₅, Option.bind_eq_bind, Option.bind_some]
  · rw [n₅.calls]
    refine List.filter_congr fun c _ => ?_
    simp [selected]
  · rw [n₅.resources, ite_self, n₄.resources, n₃.resources, n₂.resources, n₁.resources]
  · rw [n₅.contexts, n₄.contexts, n₃.contexts, n₂.contexts, n₁.contexts, ite_self]

/-! ## The whole of `main` -/

/-- The bounds of the heap before any block was seen. -/
def unboundedHeap (hinfo : Hinfo w) : Hinfo w := { hinfo with lowestBlock := BitVec.allOnes w }

/-- The calls that are left, in their order. -/
def outcome (opts : PostprocOptions w) (isAbsolute : Str → Option Bool) (rd : Rd w) : List Nat :=
  let calls := rd.calls.filter (selected opts isAbsolute rd)
  if opts.filterLeaks then keptCalls (callKind rd) (callKey rd) (keyCounted rd) calls else calls

/-- **What the post-processor writes.** The bounds of the heap are those of
the calls before their leaks are looked for. -/
structure Postprocessed (opts : PostprocOptions w) (isAbsolute : Str → Option Bool) (rd rd' : Rd w) :
    Prop where
  calls : rd'.calls = outcome opts isAbsolute rd
  fcall : ∀ c ∈ rd'.calls, rd'.fcall c = rd.fcall c
  frames : ∀ c ∈ rd'.calls, tracedFrames rd' c = cutFrames (optionCut opts rd) rd c
  resources : rd'.resources = if opts.filterResource = 0 then rd.resources
    else rd.resources.filter (sparesType opts.filterResource rd)
  contexts : rd'.contexts = if opts.filterContext = -1 then rd.contexts
    else rd.contexts.filter fun c => c.id &&& opts.filterContext.signExtend w ≠ 0
  unheaped : rd.hinfo = none → rd'.hinfo = none
  bounded : ∀ before, rd.hinfo = some before → ∃ after, rd'.hinfo = some after ∧
    HeapBounds (allocated rd (rd.calls.filter (selected opts isAbsolute rd))) (unboundedHeap before) after
  single : ∀ res, rd'.resources = [res] →
    ∃ r, rd.resource res = some r ∧ rd'.resource res = some { r with hide := true, id := 1 }
  shown : (∀ res, rd'.resources ≠ [res]) → rd'.resource = rd.resource

theorem postprocess_selectCalls (balance : SearchTree (BitVec w) → SearchTree (BitVec w))
    (isAbsolute : Str → Option Bool) (opts : PostprocOptions w) (rd : Rd w) :
    postprocess balance isAbsolute opts rd =
      (whenOn (opts.backtraceDepth ≠ -1) (filterTrimBacktraces opts.backtraceDepth) rd).bind fun rd =>
      (selectCalls balance isAbsolute opts rd).bind fun rd =>
      (whenSet rd.hinfo (fun hinfo rd => filterFindLowhighBlocks rd hinfo) rd).bind fun rd =>
      (whenOn (opts.filterLeaks = true) filterLeaks rd).bind filterUpdateResourceVisibility := by
  simp [postprocess, selectCalls, Option.bind_assoc]

/-- The heap step. -/
theorem Left.lowhigh (cut : Cut w) (info : Option Pinfo → Option Pinfo) (h : Left rd s) (hhinfo : s.hinfo = rd.hinfo) :
    ∃ hinfo, whenSet (reframed cut info s).hinfo (fun hinfo rd => filterFindLowhighBlocks rd hinfo)
        (reframed cut info s) = some (reframed cut info { s with hinfo }) ∧
      (rd.hinfo = none → hinfo = none) ∧
      ∀ before, rd.hinfo = some before → ∃ after, hinfo = some after ∧
        HeapBounds (allocated rd s.calls) (unboundedHeap before) after := by
  rw [reframed_hinfo, hhinfo]
  cases hbefore : rd.hinfo with
  | none =>
    have hsame : ({ s with hinfo := none } : Rd w) = s := by rw [← hbefore, ← hhinfo]
    exact ⟨none, by rw [hsame]; rfl, fun _ => rfl, nofun⟩
  | some before =>
    have hlive : ∀ c ∈ s.calls, (s.fcall c).isSome := fun c hc =>
      Option.isSome_iff_exists.mpr (h.integrity.call_live c hc)
    have hnone : HeapBounds [] (unboundedHeap before) (unboundedHeap before) :=
      ⟨by simp, .inr rfl, by simp, .inr rfl, BitVec.le_refl _, BitVec.le_refl _, rfl⟩
    obtain ⟨after, hrun, hbounds⟩ := filterFindLowhighBlocks_bounds hlive hnone
    have hsame : allocated s s.calls = allocated rd s.calls :=
      List.filterMap_congr fun c hc => by rw [h.fcall c hc]
    rw [List.nil_append, hsame] at hbounds
    refine ⟨some after, ?_, nofun, ?_⟩
    · exact congrArg (fun x => x.bind fun hinfo => some { reframed cut info s with hinfo := some hinfo }) hrun
    · rintro _ ⟨⟩
      exact ⟨after, rfl, hbounds⟩

/-- The leak step. -/
theorem Left.whenLeaks (cut : Cut w) (info : Option Pinfo → Option Pinfo) (h : Left rd s)
    (leaks : Bool) (hres : leaks = true → Resourced rd)
    (hfew : leaks = true → rd.calls.length ≤ 2 ^ 32) :
    ∃ s', whenOn (leaks = true) Postproc.filterLeaks (reframed cut info s) = some (reframed cut info s') ∧
      Left rd s' ∧
      s'.calls = (if leaks then Postproc.keptCalls (callKind rd) (callKey rd) (keyCounted rd) s.calls
        else s.calls) ∧ s.SameRest s' := by
  cases leaks with
  | false => exact ⟨s, rfl, h, rfl, .refl s⟩
  | true => exact h.filterLeaks (hres rfl) (hfew rfl)

/-- The last step. -/
theorem filterUpdateResourceVisibility_spec (rd : Rd w)
    (hlive : ∀ res ∈ rd.resources, (rd.resource res).isSome) :
    ∃ resource, filterUpdateResourceVisibility rd = some { rd with resource } ∧
      (∀ res, rd.resources = [res] →
        ∃ r, rd.resource res = some r ∧ resource res = some { r with hide := true, id := 1 }) ∧
      ((∀ res, rd.resources ≠ [res]) → resource = rd.resource) := by
  unfold filterUpdateResourceVisibility
  split
  next res hsingle =>
    obtain ⟨r, hr⟩ := Option.isSome_iff_exists.mp (hlive res (by simp [hsingle]))
    refine ⟨_, by rw [hr]; rfl, fun res' hres => ?_, fun hmany => absurd hsingle (hmany res)⟩
    obtain rfl : res = res' := by simpa [hsingle] using hres
    exact ⟨r, hr, Function.update_self ..⟩
  next hmany => exact ⟨rd.resource, rfl, fun res hres => absurd hres (hmany res), fun _ => rfl⟩

/-- The store that the steps of `main` leave. -/
structure Steps (opts : PostprocOptions w) (isAbsolute : Str → Option Bool) (rd s : Rd w) : Prop where
  left : Left rd s
  calls : s.calls = outcome opts isAbsolute rd
  resources : s.resources = if opts.filterResource = 0 then rd.resources
    else rd.resources.filter (sparesType opts.filterResource rd)
  contexts : s.contexts = if opts.filterContext = -1 then rd.contexts
    else rd.contexts.filter fun c => c.id &&& opts.filterContext.signExtend w ≠ 0
  unheaped : rd.hinfo = none → s.hinfo = none
  bounded : ∀ before, rd.hinfo = some before → ∃ after, s.hinfo = some after ∧
    HeapBounds (allocated rd (rd.calls.filter (selected opts isAbsolute rd))) (unboundedHeap before) after

/-- `main` runs through all its steps. -/
theorem postprocess_run {balance : SearchTree (BitVec w) → SearchTree (BitVec w)} (hw : 32 ≤ w)
    (hbalance : SearchTree.Balances balance) (isAbsolute : Str → Option Bool) {opts : PostprocOptions w}
    (h : rd.Integrity) (hready : Postprocessable opts rd) :
    ∃ info s, Steps opts isAbsolute rd s ∧ postprocess balance isAbsolute opts rd
      = filterUpdateResourceVisibility (reframed (optionCut opts rd) info s) := by
  obtain ⟨info, htrim⟩ := trim_reframed opts h hready.pinfo hready.table
  obtain ⟨s, hselect, n⟩ := selectCalls_runs hw hbalance isAbsolute h hready info
  obtain ⟨hinfo, hheap, hnone, hbounds⟩ := n.left.lowhigh (optionCut opts rd) info n.hinfo
  obtain ⟨s', hleaks, hleft, hcalls, hrest⟩ :=
    (n.left.of_lists s.contexts s.resources hinfo).whenLeaks (optionCut opts rd) info opts.filterLeaks
      hready.resourced hready.few
  refine ⟨info, s', ⟨hleft, ?_, hrest.records.1.trans n.resources, hrest.records.2.2.1.trans n.contexts,
    fun heq => (sameRest_hinfo hrest).trans (hnone heq), fun before heq => ?_⟩, ?_⟩
  · rw [outcome]
    exact hcalls.trans (by rw [n.calls])
  · obtain ⟨after, hafter, hheap⟩ := hbounds before heq
    exact ⟨after, (sameRest_hinfo hrest).trans hafter, n.calls ▸ hheap⟩
  · simp only [postprocess_selectCalls, htrim, hselect, hheap, hleaks, Option.bind_some]

/-- The resource types that are left are live. -/
theorem Steps.types_live {opts : PostprocOptions w} {isAbsolute : Str → Option Bool}
    (h : Steps opts isAbsolute rd s) (hlive : ∀ res ∈ rd.resources, (rd.resource res).isSome) :
    ∀ res ∈ s.resources, (s.resource res).isSome := by
  intro res hres
  rw [h.left.resource]
  rw [h.resources] at hres
  split at hres
  · exact hlive res hres
  · exact hlive res (List.mem_of_mem_filter hres)

/-- The calls that `main` leaves. -/
theorem postprocess_calls {balance : SearchTree (BitVec w) → SearchTree (BitVec w)} (hw : 32 ≤ w)
    (hbalance : SearchTree.Balances balance) (isAbsolute : Str → Option Bool) {opts : PostprocOptions w}
    (h : rd.Integrity) (hready : Postprocessable opts rd) :
    ∃ rd', postprocess balance isAbsolute opts rd = some rd' ∧ rd'.calls = outcome opts isAbsolute rd := by
  obtain ⟨info, s, hsteps, hrun⟩ := postprocess_run hw hbalance isAbsolute h hready
  obtain ⟨resource, hvisible, -⟩ := filterUpdateResourceVisibility_spec
    (reframed (optionCut opts rd) info s) (hsteps.types_live hready.types_live)
  exact ⟨_, hrun.trans hvisible, hsteps.calls⟩

/-- **Which calls the post-processor writes, and how**: those each option
selects by itself, in their order, with the leaks among them only. -/
theorem postprocess_spec {balance : SearchTree (BitVec w) → SearchTree (BitVec w)} (hw : 32 ≤ w)
    (hbalance : SearchTree.Balances balance) (isAbsolute : Str → Option Bool) {opts : PostprocOptions w}
    (h : rd.Integrity) (hready : Postprocessable opts rd) :
    ∃ rd', postprocess balance isAbsolute opts rd = some rd' ∧ Postprocessed opts isAbsolute rd rd' := by
  obtain ⟨info, s, hsteps, hrun⟩ := postprocess_run hw hbalance isAbsolute h hready
  obtain ⟨resource, hvisible, hsingle, hshown⟩ := filterUpdateResourceVisibility_spec
    (reframed (optionCut opts rd) info s) (hsteps.types_live hready.types_live)
  refine ⟨_, hrun.trans hvisible, hsteps.calls, hsteps.left.fcall, fun c hc => ?_, hsteps.resources,
    hsteps.contexts, hsteps.unheaped, hsteps.bounded, fun res hres => ?_, fun hmany => ?_⟩
  · have hframes : tracedFrames (reframed (optionCut opts rd) info s) c = cutFrames (optionCut opts rd) rd c :=
      (tracedFrames_reframed s c).trans (hsteps.left.cutFrames _ hc)
    exact hframes
  · obtain ⟨r, hr, hr'⟩ := hsingle res hres
    exact ⟨r, hsteps.left.resource ▸ hr, hr'⟩
  · exact (hshown hmany).trans hsteps.left.resource

/-- The log of `sampleLeaks`, with a header. -/
def sampleTrace : Rd 64 :=
  { sampleLeaks with
    pinfo := some { pid := 1, backtraceDepth := 10, name := none, tvSec := 0, tvUsec := 0, traceOrigin := none } }

/-- The leaks of the first resource, among the calls of an index file. -/
def sampleOptions : PostprocOptions 64 :=
  { backtraceDepth := 1, filterResource := 1, filterRange := none,
    includeFile := some "0\n".toList, excludeFile := none, filterContext := -1, filterLeaks := true }

theorem sampleTrace_integrity : sampleTrace.Integrity :=
  sampleLeaks_integrity.of_stores rfl rfl rfl rfl rfl rfl

theorem sampleTrace_ready : Postprocessable sampleOptions sampleTrace where
  pinfo := rfl
  table := by decide
  types_nodup := by decide
  types_live := by decide
  resources := by
    intro c hc
    obtain ⟨x, type, res, hx, htype, hres⟩ := sampleLeaks_resourced.carries c hc
    refine ⟨x, hx, fun type' htype' => ?_⟩
    obtain rfl := Option.some.inj (htype.symm.trans htype')
    exact ⟨res, hres⟩
  resourced _ := ⟨sampleLeaks_resourced.carries, sampleLeaks_resourced.ids_inj⟩
  few _ := by decide
  traced := nofun
  indexes := by
    rintro file (hfile | hfile)
    · obtain rfl := Option.some.inj hfile
      have hindexes : fileIndexes 64 "0\n".toList = [0] := by decide
      have hzero : ∀ c ∈ sampleLeaks.calls, (sampleLeaks.fcall c).all fun x => x.data.index = 0 := by decide
      refine ⟨fun idx hidx => ?_, fun c hc x hx => ?_⟩
      · rw [hindexes] at hidx
        simp_all
      · have hindex : x.data.index = 0 := by
          simpa only [show sampleLeaks.fcall c = some x from hx, Option.all_some, decide_eq_true_eq]
            using hzero c hc
        simp [hindex]
    · cases hfile

/-- The overridden allocation is the only leak of the first resource. -/
theorem postprocess_spec_sample :
    ∃ rd', postprocess id (fun _ => none) sampleOptions sampleTrace = some rd' ∧ rd'.calls = [2] := by
  obtain ⟨rd', hrun, hspec⟩ := postprocess_spec (by decide) (fun _ => rfl) (fun _ => none)
    sampleTrace_integrity sampleTrace_ready
  exact ⟨rd', hrun, hspec.calls⟩

/-! ## Leaks and the other filters -/

/-- A resource filter takes all calls of a pair or none. -/
theorem spares_resource_of_key (mask : BitVec 32) (rd : Rd w) {c d : Nat} (hkey : callKey rd c = callKey rd d) :
    spares (fcallFilterResource mask) rd c = spares (fcallFilterResource mask) rd d := by
  have hread : ∀ c, spares (fcallFilterResource mask) rd c
      = (callKey rd c).1.all fun type => (rd.resource type).any fun r => resourceMask r.id mask ≠ 0 := by
    intro c
    unfold spares callKey
    cases hx : rd.fcall c with
    | none => rfl
    | some x =>
      unfold fcallFilterResource
      cases htype : x.data.resType with
      | none => simp [htype]
      | some type => cases hr : rd.resource type <;> simp [htype, hr]
  rw [hread, hread, hkey]

/-- The options of the other filters. -/
theorem outcome_resource (opts : PostprocOptions w) (isAbsolute : Str → Option Bool) (rd : Rd w)
    (hmask : opts.filterResource ≠ 0) :
    outcome opts isAbsolute rd = (outcome { opts with filterResource := 0 } isAbsolute rd).filter
      (spares (fcallFilterResource opts.filterResource) rd) := by
  have hselected : rd.calls.filter (selected opts isAbsolute rd)
      = (rd.calls.filter (selected { opts with filterResource := 0 } isAbsolute rd)).filter
          (spares (fcallFilterResource opts.filterResource) rd) := by
    rw [List.filter_filter]
    refine List.filter_congr fun c _ => ?_
    have hset : decide (opts.filterResource = 0) = false := decide_eq_false hmask
    simp only [selected, hset, optionCut, Bool.false_or, decide_true, Bool.true_or, Bool.true_and, Bool.and_assoc]
  unfold outcome
  simp only [hselected]
  split
  · exact keptCalls_filter _ fun c d hkey => spares_resource_of_key opts.filterResource rd hkey
  · rfl

/-- **The leaks of some resource types** are those of the whole trace that
are of these types: -r before -l selects leaks, it makes no new ones. -/
theorem postprocess_resource_leaks {balance : SearchTree (BitVec w) → SearchTree (BitVec w)} (hw : 32 ≤ w)
    (hbalance : SearchTree.Balances balance) (isAbsolute : Str → Option Bool) {opts : PostprocOptions w}
    (h : rd.Integrity) (hready : Postprocessable opts rd) (hmask : opts.filterResource ≠ 0) :
    ∃ whole part, postprocess balance isAbsolute { opts with filterResource := 0 } rd = some whole ∧
      postprocess balance isAbsolute opts rd = some part ∧
      part.calls = whole.calls.filter (spares (fcallFilterResource opts.filterResource) rd) := by
  have hready' : Postprocessable { opts with filterResource := 0 } rd :=
    ⟨hready.pinfo, hready.table, hready.types_nodup, hready.types_live, hready.resources,
      hready.resourced, hready.few, hready.traced, hready.indexes⟩
  obtain ⟨whole, hwhole, hcalls⟩ := postprocess_calls hw hbalance isAbsolute h hready'
  obtain ⟨part, hpart, hcalls'⟩ := postprocess_calls hw hbalance isAbsolute h hready
  refine ⟨whole, part, hwhole, hpart, ?_⟩
  rw [hcalls, hcalls', outcome_resource opts isAbsolute rd hmask]

/-- The leak of the first resource is one of two. -/
theorem postprocess_resource_leaks_sample :
    ∃ whole part, postprocess id (fun _ => none) { sampleOptions with filterResource := 0 } sampleTrace
        = some whole ∧ postprocess id (fun _ => none) sampleOptions sampleTrace = some part ∧
      part.calls = whole.calls.filter (spares (fcallFilterResource 1) sampleTrace) :=
  postprocess_resource_leaks (by decide) (fun _ => rfl) (fun _ => none) sampleTrace_integrity
    sampleTrace_ready (by decide)

/-- **Filtering leaks again** removes nothing. -/
theorem filterLeaks_twice (h : rd.Integrity) (hres : Resourced rd)
    (hfew : rd.calls.length ≤ 2 ^ 32) :
    ∃ rd' rd'', filterLeaks rd = some rd' ∧ filterLeaks rd' = some rd'' ∧ rd''.calls = rd'.calls := by
  have hfilter : ∀ s, Left rd s → ∃ s', filterLeaks s = some s' ∧ Left rd s' ∧
      s'.calls = keptCalls (callKind rd) (callKey rd) (keyCounted rd) s.calls := by
    intro s hleft
    obtain ⟨s', hrun, hcalls, -⟩ :=
      filterLeaksWith_keptCalls resHash hleft.integrity (hleft.resourced hres)
        (.of_length (hleft.calls.length_le.trans hfew))
    exact ⟨s', hrun, hleft.of_removal (filterLeaks_removal hrun), hcalls.trans hleft.keptCalls⟩
  obtain ⟨rd', hrun, hleft, hcalls⟩ := hfilter rd (Left.refl h)
  obtain ⟨rd'', hrun', -, hcalls'⟩ := hfilter rd' hleft
  refine ⟨rd', rd'', hrun, hrun', ?_⟩
  rw [hcalls', hcalls, keptCalls_keptCalls h.calls_nodup]

/-- The two leaks of the sample are found again. -/
theorem filterLeaks_twice_sample :
    ∃ rd' rd'', filterLeaks sampleLeaks = some rd' ∧ filterLeaks rd' = some rd'' ∧ rd''.calls = rd'.calls :=
  filterLeaks_twice sampleLeaks_integrity sampleLeaks_resourced (by decide)

end SpRtrace.Postproc
