/-
SpRtrace.Postproc.TextResources — the resource records of a log that was
read.

The reader allocates a resource record only to link it into
`rd->resources`, so every record that a call can point to is one of the
list (`OwnResources`). One line keeps that (`readTextLine_own`), and with
it the whole log (`readTextData_own`).
-/
import SpRtrace.Postproc.ParseText
import SpRtrace.Common.RtraceDataTheorems

namespace SpRtrace.Postproc

open SpRtrace.Lib SpRtrace.Common SpRtrace.Library

variable {w : Nat}

/-! ## Backtraces -/

theorem rdShareFtrace_sameRest {rd rd' : Rd w} {trace u : Nat}
    (h : rdShareFtrace rd trace = some (rd', u)) : rd.SameRest rd' := by
  simp only [rdShareFtrace, Option.bind_eq_bind, Option.bind_eq_some_iff] at h
  obtain ⟨t, -, r, -, h⟩ := h
  cases r with
  | none =>
    simp only [Option.bind_eq_some_iff, Prod.exists, Option.some.injEq, Prod.mk.injEq] at h
    obtain ⟨ftraces, old, -, rfl, -⟩ := h
    rfl
  | some xtrace =>
    simp only [rdFtraceFree, Option.bind_eq_bind, Option.bind_eq_some_iff, Option.some.injEq,
      Prod.mk.injEq] at h
    obtain ⟨rd₁, ⟨t', -, rfl⟩, rfl, -⟩ := h
    rfl

theorem rdLinkFcall_sameRest {rd rd' : Rd w} {call ref trace : Nat}
    (h : rdLinkFcall rd call ref trace = some rd') : rd.SameRest rd' := by
  simp only [rdLinkFcall, Option.bind_eq_bind, Option.bind_eq_some_iff, Option.some.injEq] at h
  obtain ⟨c, -, t, -, rfl⟩ := h
  rfl

theorem storeFcallTrace_foldlM_sameRest {u : Nat} :
    ∀ {rs : List Nat} {rd rd' : Rd w}, rs.foldlM (storeFcallTrace u) rd = some rd' → rd.SameRest rd'
  | [], rd, rd', h => by
      obtain rfl := Option.some.inj h
      exact .refl rd
  | r :: rs, rd, rd', h => by
      rw [List.foldlM_cons] at h
      simp only [storeFcallTrace, Option.bind_eq_bind, Option.bind_eq_some_iff] at h
      obtain ⟨rd₁, ⟨call, -, hlink⟩, hrest⟩ := h
      exact (rdLinkFcall_sameRest hlink).trans (storeFcallTrace_foldlM_sameRest hrest)

theorem rdFcallsSetFtrace_sameRest {rd rd' : Rd w} {calls : List Nat} {trace : Nat}
    (h : rdFcallsSetFtrace rd calls trace = some rd') : rd.SameRest rd' := by
  simp only [rdFcallsSetFtrace, Option.bind_eq_bind, Option.bind_eq_some_iff, Prod.exists] at h
  obtain ⟨rd₁, u, hshare, hlink⟩ := h
  exact (rdShareFtrace_sameRest hshare).trans (storeFcallTrace_foldlM_sameRest hlink)

/-! ## Resource records -/

/-- Every resource record is one of `rd->resources`. -/
def OwnResources (rd : Rd w) : Prop := ∀ r res, rd.resource r = some res → r ∈ rd.resources

theorem OwnResources.of_sameRest {rd rd' : Rd w} (h : OwnResources rd) (hrest : rd.SameRest rd') :
    OwnResources rd' := by
  intro r res hr
  rw [hrest.resource] at hr
  rw [hrest.records.1]
  exact h r res hr

theorem ownResources_rdCreate : OwnResources (rdCreate : Rd w) := fun r res h => by cases h

theorem rdAddResource_own {rd : Rd w} (h : OwnResources rd) (res : Resource w) :
    OwnResources (rdAddResource rd res).1 := by
  intro r res' hr
  show r ∈ rd.resources ++ [rd.fresh]
  by_cases hfresh : r = rd.fresh
  · simp [hfresh]
  · simp only [rdAddResource, Function.update_of_ne hfresh] at hr
    exact List.mem_append_left _ (h r res' hr)

section Reader

variable {st st' : TextState w}

theorem storeTextBacktrace_own {bt : List (Frame w)} (h : OwnResources st.rd)
    (heq : storeTextBacktrace st bt = some st') : OwnResources st'.rd := by
  simp only [storeTextBacktrace, Option.bind_eq_bind, Option.bind_eq_some_iff, Option.some.injEq] at heq
  obtain ⟨rd', hset, rfl⟩ := heq
  have hrest := rdFcallsSetFtrace_sameRest hset
  have hnew : OwnResources (rdNewFtrace st.rd bt).1 := h
  exact hnew.of_sameRest hrest

theorem flushArgs_own (h : OwnResources st.rd) (heq : flushArgs st = some st') :
    OwnResources st'.rd := by
  unfold flushArgs at heq
  split at heq
  · obtain rfl := Option.some.inj heq
    exact h
  · simp only [storeCallArguments, Option.bind_eq_bind, Option.bind_eq_some_iff,
      Option.some.injEq] at heq
    obtain ⟨_, ⟨r, -, call, -, c, -, rfl⟩, rfl⟩ := heq
    exact h

theorem flushBacktrace_own {line : Str} (h : OwnResources st.rd)
    (heq : flushBacktrace st line = some st') : OwnResources st'.rd := by
  unfold flushBacktrace at heq
  split at heq
  · simp only [Option.bind_eq_bind, Option.bind_eq_some_iff, Option.some.injEq] at heq
    obtain ⟨st₁, hstore, rfl⟩ := heq
    have hst₁ := storeTextBacktrace_own h hstore
    exact hst₁
  · obtain rfl := Option.some.inj heq
    exact h

theorem storeEmptyBacktrace_own (h : OwnResources st.rd) (heq : storeEmptyBacktrace st = some st') :
    OwnResources st'.rd := by
  unfold storeEmptyBacktrace at heq
  split at heq
  · obtain rfl := Option.some.inj heq
    exact h
  · simp only [Option.bind_eq_bind, Option.bind_eq_some_iff] at heq
    obtain ⟨call, -, c, -, heq⟩ := heq
    split at heq
    · exact storeTextBacktrace_own h heq
    · obtain rfl := Option.some.inj heq
      exact h

theorem addTextCall_own {call : CallRecord w} (h : OwnResources st.rd)
    (heq : addTextCall st call = some st') : OwnResources st'.rd := by
  simp only [addTextCall, Option.bind_eq_bind, Option.bind_eq_some_iff, Option.some.injEq] at heq
  obtain ⟨resType, -, rfl⟩ := heq
  exact h

theorem addTextRecord_own {junk : Nat → Context w} {line : Str} {rec : Record w}
    (h : OwnResources st.rd) (heq : addTextRecord junk st line rec = some st') :
    OwnResources st'.rd := by
  cases rec with
  | resource res =>
    simp only [addTextRecord, addTextResource, Option.bind_eq_bind, Option.bind_eq_some_iff,
      Option.some.injEq] at heq
    obtain ⟨rd', ⟨found, -, heq⟩, rfl⟩ := heq
    cases found with
    | none =>
      obtain rfl := Option.some.inj heq
      exact rdAddResource_own h res
    | some r =>
      obtain rfl := Option.some.inj heq
      exact h
  | _ =>
    obtain rfl := Option.some.inj heq
    exact h

/-- **A line** leaves no resource record outside the list. -/
theorem readTextLine_own {junk : Nat → Context w} {line : Str} (h : OwnResources st.rd)
    (heq : readTextLine junk st line = some st') : OwnResources st'.rd := by
  have hrecord : ∀ rec : Record w, readTextRecord junk st line rec = some st' →
      OwnResources st'.rd := by
    intro rec heq
    simp only [readTextRecord, Option.bind_eq_bind, Option.bind_eq_some_iff] at heq
    obtain ⟨st₁, hargs, st₂, hbt, heq⟩ := heq
    have h₂ := flushBacktrace_own (flushArgs_own h hargs) hbt
    split at heq
    · obtain rfl := Option.some.inj heq
      exact h₂
    · split at heq
      · exact addTextCall_own h₂ heq
      · simp only [Option.bind_eq_some_iff] at heq
        obtain ⟨st₃, hempty, heq⟩ := heq
        exact addTextRecord_own (storeEmptyBacktrace_own h₂ hempty) heq
  unfold readTextLine at heq
  split at heq
  · obtain rfl := Option.some.inj heq
    exact h
  · simp only [Option.bind_eq_bind, Option.bind_eq_some_iff] at heq
    obtain ⟨rec, -, heq⟩ := heq
    split at heq
    · obtain rfl := Option.some.inj heq
      split <;> exact h
    · obtain rfl := Option.some.inj heq
      split <;> exact h
    · exact hrecord _ heq

theorem readTextLines_own {junk : Nat → Context w} :
    ∀ {lines : List Str} {st st' : TextState w}, OwnResources st.rd →
      lines.foldlM (readTextLine junk) st = some st' → OwnResources st'.rd
  | [], st, st', h, heq => by
      obtain rfl := Option.some.inj heq
      exact h
  | line :: lines, st, st', h, heq => by
      rw [List.foldlM_cons] at heq
      simp only [Option.bind_eq_bind, Option.bind_eq_some_iff] at heq
      obtain ⟨st₁, hline, hrest⟩ := heq
      exact readTextLines_own (readTextLine_own h hline) hrest

end Reader

/-- **The resource records of a log that was read** are those of the list. -/
theorem readTextData_own {mktime : List (BitVec 32) → Int} {junk : Nat → Context w} {text : Str}
    {rd : Rd w} (h : readTextData mktime junk rdCreate text = some rd) : OwnResources rd := by
  unfold readTextData readTextLines at h
  split at h
  · obtain rfl := Option.some.inj h
    exact ownResources_rdCreate
  · simp only [Option.bind_eq_bind, Option.bind_eq_some_iff] at h
    obtain ⟨rd₀, hheader, st, hloop, hfinish⟩ := h
    simp only [parseHeader, Option.bind_eq_bind, Option.bind_eq_some_iff, Option.some.injEq] at hheader
    obtain ⟨fields, -, rfl⟩ := hheader
    have hst : OwnResources st.rd := readTextLines_own ownResources_rdCreate hloop
    have hsorted : ∀ {rd₁ : Rd w}, OwnResources rd₁ → sortCalls rd₁ = some rd → OwnResources rd := by
      intro rd₁ hrd₁ hsort
      simp only [sortCalls, Option.bind_eq_bind, Option.bind_eq_some_iff, Option.some.injEq] at hsort
      obtain ⟨nodes, -, sorted, -, rfl⟩ := hsort
      exact hrd₁
    simp only [finishText, Option.bind_eq_bind, Option.bind_eq_some_iff] at hfinish
    obtain ⟨st₁, hargs, hfinish⟩ := hfinish
    have hst₁ := flushArgs_own hst hargs
    split at hfinish
    · exact hsorted hst₁ hfinish
    · simp only [Option.bind_eq_some_iff] at hfinish
      obtain ⟨st₂, hbt, hsort⟩ := hfinish
      exact hsorted (storeTextBacktrace_own hst₁ hbt) hsort

end SpRtrace.Postproc
