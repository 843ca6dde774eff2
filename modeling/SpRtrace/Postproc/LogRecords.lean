/-
SpRtrace.Postproc.LogRecords — what a log keeps of its lines, whatever
their order.

The groups of the reader decide which backtrace a call gets. Its record
does not depend on them: `LogState.step_records` says which record a line
adds, and `LogState.step_env` what it adds to the environment. The lemmas
about runs follow by induction.
-/
import SpRtrace.Postproc.LogEvents

namespace SpRtrace.Postproc

open SpRtrace.Lib SpRtrace.Common SpRtrace.Library

variable {w : Nat}

/-- The records of the calls so far. -/
def LogState.records (a : LogState w) : List (CallRecord w) := (a.done ++ a.pend).map LogCall.record

theorem setLastArgs_records (args : List Farg) (calls : List (LogCall w)) :
    (setLastArgs args calls).map LogCall.record = calls.map LogCall.record := by
  induction calls with
  | nil => rfl
  | cons c calls ih =>
    cases calls with
    | nil => rfl
    | cons d calls => rw [setLastArgs, List.map_cons, ih, ← List.map_cons]

/-! ## Groups -/

section Groups

variable (a : LogState w)

@[simp] theorem LogState.flushArgs_records : a.flushArgs.records = a.records := by
  rw [records, records, List.map_append, List.map_append, flushArgs_done, flushArgs_pend]
  split
  · rfl
  · rw [setLastArgs_records]

@[simp] theorem LogState.settle_records (frames : List (Frame w)) :
    (a.settle frames).records = a.records := by
  simp [records, settle, Function.comp_def]

@[simp] theorem LogState.flushBacktrace_records : a.flushBacktrace.records = a.records := by
  unfold flushBacktrace
  split
  · exact a.settle_records a.bt
  · rfl

@[simp] theorem LogState.settleEmpty_records : a.settleEmpty.records = a.records := by
  unfold settleEmpty
  split
  · rfl
  · exact a.settle_records []

@[simp] theorem LogState.endGroup_records : a.endGroup.records = a.records := by
  unfold endGroup
  split
  · rfl
  · exact a.settle_records a.bt

/-- A call adds its record. -/
theorem LogState.addCall_records (call : CallRecord w) :
    (a.addCall call).records = a.records ++ [(readCall a.env call []).record] := by
  have hpend : (a.addCall call).pend = a.pend ++ [readCall a.env call []] := rfl
  rw [records, hpend]
  show (a.done ++ (a.pend ++ [_])).map LogCall.record = _
  rw [← List.append_assoc, List.map_append]
  rfl

@[simp] theorem LogState.finish_records : a.finish.records = a.records := by
  rw [finish, endGroup_records, flushArgs_records]

@[simp] theorem LogState.flushBacktrace_env : a.flushBacktrace.env = a.env := by
  unfold flushBacktrace
  split <;> rfl

@[simp] theorem LogState.settleEmpty_env : a.settleEmpty.env = a.env := by
  unfold settleEmpty
  split <;> rfl

@[simp] theorem LogState.endGroup_env : a.endGroup.env = a.env := by
  unfold endGroup
  split <;> rfl

@[simp] theorem LogState.finish_env : a.finish.env = a.env := by
  rw [finish, endGroup_env, flushArgs_env]

end Groups

/-! ## Steps -/

/-- What a line adds to the environment. -/
def LogEnv.see (junk : Nat → Context w) (env : LogEnv w) : LogEvent w → LogEnv w
  | .record rec _ => env.add junk rec
  | _ => env

def newRecords (env : LogEnv w) : LogEvent w → List (CallRecord w)
  | .call call => [(readCall env call []).record]
  | _ => []

section Steps

variable (junk : Nat → Context w) (a : LogState w)

theorem LogState.step_env (ev : LogEvent w) : (a.step junk ev).env = a.env.see junk ev := by
  cases ev with
  | skip => rfl
  | blank =>
    show a.flushArgs.endGroup.env = a.env
    rw [endGroup_env, flushArgs_env]
  | frame frame =>
    rw [step]
    split <;> rfl
  | arg arg =>
    rw [step]
    split <;> rfl
  | call call =>
    show a.flushArgs.flushBacktrace.env = a.env
    rw [flushBacktrace_env, flushArgs_env]
  | record rec line =>
    rw [step, addRecord_env, settleEmpty_env, flushBacktrace_env, flushArgs_env]
    rfl

theorem LogState.step_records (ev : LogEvent w) :
    (a.step junk ev).records = a.records ++ newRecords a.env ev := by
  have hflush : a.flushArgs.flushBacktrace.records = a.records := by
    rw [flushBacktrace_records, flushArgs_records]
  cases ev with
  | skip => exact (List.append_nil _).symm
  | blank =>
    show a.flushArgs.endGroup.records = a.records ++ []
    rw [endGroup_records, flushArgs_records, List.append_nil]
  | frame frame =>
    show _ = a.records ++ []
    rw [step, List.append_nil]
    split <;> rfl
  | arg arg =>
    show _ = a.records ++ []
    rw [step, List.append_nil]
    split <;> rfl
  | call call =>
    rw [step, addCall_records, hflush, flushBacktrace_env, flushArgs_env]
    rfl
  | record rec line =>
    obtain ⟨hdone, hpend, -⟩ :=
      addRecord_calls junk a.flushArgs.flushBacktrace.settleEmpty line rec
    show _ = a.records ++ []
    rw [step, records, hdone, hpend, List.append_nil]
    show a.flushArgs.flushBacktrace.settleEmpty.records = _
    rw [settleEmpty_records, hflush]

/-! ## Runs -/

theorem LogState.run_env (evs : List (LogEvent w)) :
    (a.run junk evs).env = evs.foldl (LogEnv.see junk) a.env := by
  induction evs generalizing a with
  | nil => rfl
  | cons ev evs ih =>
    show ((a.step junk ev).run junk evs).env = _
    rw [ih, step_env]
    rfl

/-- The contexts of the reader were never written. -/
theorem LogEnv.add_contexts (env : LogEnv w) (rec : Record w) :
    ∀ context ∈ (env.add junk rec).contexts, context ∈ env.contexts ∨ ∃ i, context = junk i := by
  intro context hmem
  cases rec with
  | context _ =>
    rcases List.mem_append.mp hmem with h | h
    · exact .inl h
    · exact .inr ⟨_, List.mem_singleton.mp h⟩
  | resource res =>
    rw [add] at hmem
    split at hmem <;> exact .inl hmem
  | _ => exact .inl hmem

theorem LogState.run_contexts (evs : List (LogEvent w)) :
    ∀ context ∈ (a.run junk evs).contexts, context ∈ a.contexts ∨ ∃ i, context = junk i := by
  intro context hmem
  have hrun : context ∈ (evs.foldl (LogEnv.see junk) a.env).contexts := by
    rw [← run_env]
    exact hmem
  show context ∈ a.env.contexts ∨ _
  generalize a.env = env at hrun ⊢
  clear hmem
  induction evs generalizing env with
  | nil => exact .inl hrun
  | cons ev evs ih =>
    rcases ih _ hrun with h | h
    · cases ev with
      | record rec line => exact LogEnv.add_contexts junk env rec context h
      | _ => exact .inl h
    · exact .inr h

end Steps

/-! ## Lines behind the environment -/

/-- A call of one day, with a positive index. -/
def Placed (call : CallRecord w) : Prop := call.timestamp.toNat < 86400000 ∧ 0 < call.index.toInt

/-- A call, its arguments, its backtrace, a comment or an empty line. -/
def LogEvent.OfCalls : LogEvent w → Prop
  | .call c => Placed c
  | .record rec _ => rec = .comment
  | _ => True

section Calls

variable {junk : Nat → Context w} {evs : List (LogEvent w)}

/-- Such lines leave the environment alone. -/
theorem LogState.run_calls_env (h : ∀ ev ∈ evs, ev.OfCalls) (a : LogState w) :
    (a.run junk evs).env = a.env := by
  rw [run_env]
  generalize a.env = env
  induction evs with
  | nil => rfl
  | cons ev evs ih =>
    have hone : env.see junk ev = env := by
      have hev := h ev (by simp)
      cases ev with
      | record rec line =>
        obtain rfl : rec = .comment := hev
        rfl
      | _ => rfl
    rw [List.foldl_cons, hone]
    exact ih fun ev' hev' => h ev' (List.mem_cons_of_mem ev hev')

/-- Their calls stay calls of one day. -/
theorem LogState.run_placed (h : ∀ ev ∈ evs, ev.OfCalls ∨ ∃ rec line, ev = .record rec line)
    {a : LogState w} (ha : ∀ call ∈ a.records, Placed call) :
    ∀ call ∈ (a.run junk evs).records, Placed call := by
  induction evs generalizing a with
  | nil => exact ha
  | cons ev evs ih =>
    refine ih (fun ev' hev' => h ev' (List.mem_cons_of_mem ev hev')) (a := a.step junk ev) ?_
    intro call hcall
    rw [step_records] at hcall
    rcases List.mem_append.mp hcall with hcall | hcall
    · exact ha call hcall
    · rcases h ev (by simp) with hev | ⟨rec, line, rfl⟩
      · cases ev with
        | call call' =>
          obtain rfl := List.mem_singleton.mp hcall
          exact hev
        | _ => cases hcall
      · cases hcall

end Calls

end SpRtrace.Postproc
