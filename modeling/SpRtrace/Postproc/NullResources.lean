/-
SpRtrace.Postproc.NullResources — `filter_leaks` on calls that carry no
resource record.

A text log without resource records, or with a call on a resource nobody
registered, gives calls whose `res_type` is NULL. `res_compare` and
`res_hash` test the pointer; `fcall_remove_freed` reads the flags behind
it as soon as the search finds an index record of the same id:

    if (res && (res_type->data.flags & SP_RTRACE_RESOURCE_REFCOUNT))

A release gets there too, but its counter has reached zero by then and the
flags are not looked at. So the run ends exactly when no allocation meets
an allocation of its id that is still live, and then such calls are an
uncounted resource of their own.
-/
import SpRtrace.Postproc.LeakTheorems

namespace SpRtrace.Postproc

open SpRtrace.Common

variable {w : Nat}

def nullCall (rd : Rd w) (call : Nat) : Bool := nullKey (callKey rd call)

/-- `filter_leaks` ends, which no NULL pointer that is followed does, and
keeps of the calls without a resource record those that an uncounted
resource of their own would keep. Where the records can be told apart by
their ids and the counters can count the references, nothing else changes
for the other calls. -/
def ToleratesNull (rd : Rd w) : Prop :=
  ∃ rd', filterLeaks rd = some rd' ∧
    rd'.calls.filter (nullCall rd)
      = (keptCalls (callKind rd) (callKey rd) (keyCounted rd) rd.calls).filter (nullCall rd) ∧
    (DistinctIds rd → CountsFit rd (fun _ => true) rd.calls →
      rd'.calls = keptCalls (callKind rd) (callKey rd) (keyCounted rd) rd.calls)

/-- **Calls without a resource record** are tolerated exactly when no
allocation among them follows one of the same id that has not been
released. -/
theorem filterLeaks_toleratesNull_iff (rd : TraceStore w) (hlive : ResourcesLive rd.val) :
    ToleratesNull rd.val ↔ NullAlternates rd.val rd.val.calls := by
  constructor
  · rintro ⟨rd', heq, -⟩
    exact filterLeaksWith_alternates resHash rd.property hlive heq
  · intro halt
    obtain ⟨rd', heq, hnull, -⟩ :=
      filterLeaksWith_followed resHash rd.property hlive.followable_null halt (countsFit_null _ _)
    refine ⟨rd', heq, hnull, fun hids hfits => ?_⟩
    obtain ⟨rd'', heq', hall, -⟩ :=
      filterLeaksWith_followed resHash rd.property (hids.followable hlive) halt hfits
    obtain rfl := Option.some.inj (heq.symm.trans heq')
    simpa only [List.filter_true] using hall

/-- A log without resource records: allocations and releases by their ids. -/
def nullLog (events : List (BitVec 32 × BitVec 64)) : Rd 64 :=
  events.foldl (fun rd e => (rdAddFcall rd
    { index := 0, type := e.1, context := 0, timestamp := 0, name := [], resType := none,
      resId := e.2, resSize := 0 }).1) rdCreate

theorem nullLog_integrity (events : List (BitVec 32 × BitVec 64)) : (nullLog events).Integrity :=
  List.foldlRecOn _ _ integrity_rdCreate fun _ h _ _ => rdAddFcall_integrity h _

theorem nullLog_resType (events : List (BitVec 32 × BitVec 64)) :
    ∀ c x, (nullLog events).fcall c = some x → x.data.resType = none := by
  refine List.foldlRecOn (motive := fun rd : Rd 64 =>
    ∀ c x, rd.fcall c = some x → x.data.resType = none) _ _ (fun c x hx => by cases hx) ?_
  intro rd ih e _ c x hx
  by_cases hc : c = rd.fresh
  · subst hc
    simp only [rdAddFcall, Function.update_self, Option.some.injEq] at hx
    rw [← hx]
  · simp only [rdAddFcall, Function.update_of_ne hc] at hx
    exact ih c x hx

theorem nullLog_resourcesLive (events : List (BitVec 32 × BitVec 64)) :
    ResourcesLive (nullLog events) := by
  intro c hc
  obtain ⟨x, hx⟩ := (nullLog_integrity events).call_live c hc
  refine ⟨x, hx, fun type htype => ?_⟩
  rw [nullLog_resType events c x hx] at htype
  cases htype

/-- An id that is allocated, released and allocated again. -/
theorem filterLeaks_toleratesNull_iff_reused :
    ToleratesNull (nullLog [(ftypeAlloc, 16), (ftypeFree, 16), (ftypeAlloc, 16)]) := by
  refine (filterLeaks_toleratesNull_iff ⟨_, nullLog_integrity _⟩ (nullLog_resourcesLive _)).mpr ?_
  set rd := nullLog [(ftypeAlloc, 16), (ftypeFree, 16), (ftypeAlloc, 16)]
  have h₁ : NullAlternates rd ([] ++ [0]) := (nullAlternates_nil rd).snoc (by decide)
  have h₂ : NullAlternates rd ([0] ++ [1]) := h₁.snoc (by decide)
  exact (show NullAlternates rd ([0, 1] ++ [2]) from h₂.snoc (by decide))

/-- The same id allocated twice: the second allocation reads the flags of
no record. -/
theorem nullLog_allocated_twice :
    ¬ ToleratesNull (nullLog [(ftypeAlloc, 16), (ftypeAlloc, 16)]) := by
  rintro ⟨rd', heq, -⟩
  have hnone : filterLeaks (nullLog [(ftypeAlloc, 16), (ftypeAlloc, 16)]) = none := by
    rfl
  rw [hnone] at heq
  cases heq

end SpRtrace.Postproc
