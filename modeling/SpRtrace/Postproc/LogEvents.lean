/-
SpRtrace.Postproc.LogEvents — what the lines of a written log do to the
log that is read.

`LogState.At` describes a reader in the middle of a log by the calls that
are done and the calls of the current group, with the arguments read so
far. There is one rule for everything the writer prints: a record of the
environment, a comment, a call with its arguments, the end of a group. A
record or a comment inside a group ends it, and the calls in front of it
get an empty backtrace.
-/
import SpRtrace.Postproc.TextLog
import SpRtrace.Library.HeaderTheorems

namespace SpRtrace.Postproc

open SpRtrace.Lib SpRtrace.Common SpRtrace.Library

variable {w : Nat}

/-! ## States between two records -/

/-- Everything in the log but calls and comments. -/
structure LogEnv (w : Nat) where
  resources : List (Resource w)
  mmaps : List (Mmap w)
  contexts : List (Context w)
  files : List Attachment
  hshake : Option Hshake
  pinfo : Option Pinfo
  filter : BitVec 32

def LogState.env (a : LogState w) : LogEnv w :=
  { resources := a.resources, mmaps := a.mmaps, contexts := a.contexts, files := a.files,
    hshake := a.hshake, pinfo := a.pinfo, filter := a.filter }

/-- The reader has the calls `done`, and `pend` are those of the current
group, whose backtrace has not begun. -/
structure LogState.At (a : LogState w) (env : LogEnv w) (done pend : List (LogCall w)) : Prop where
  env : a.env = env
  done : a.done = done
  pend : a.flushArgs.pend = pend
  bt : a.bt = []

variable {a : LogState w} {env : LogEnv w} {done pend : List (LogCall w)} {junk : Nat → Context w}

theorem LogState.run_append (a : LogState w) (evs evs' : List (LogEvent w)) :
    a.run junk (evs ++ evs') = (a.run junk evs).run junk evs' := List.foldl_append ..

@[simp] theorem LogState.flushArgs_env (a : LogState w) : a.flushArgs.env = a.env := by
  unfold LogState.flushArgs
  split <;> rfl

@[simp] theorem LogState.flushArgs_done (a : LogState w) : a.flushArgs.done = a.done := by
  unfold LogState.flushArgs
  split <;> rfl

@[simp] theorem LogState.flushArgs_bt (a : LogState w) : a.flushArgs.bt = a.bt := by
  unfold LogState.flushArgs
  split <;> rfl

@[simp] theorem LogState.flushArgs_flushArgs (a : LogState w) :
    a.flushArgs.flushArgs = a.flushArgs := by
  rw [LogState.flushArgs, if_pos (LogState.flushArgs_args a)]

theorem LogState.flushBacktrace_of_nil (h : a.bt = []) : a.flushBacktrace = a := by
  rw [LogState.flushBacktrace, if_neg fun hc => hc.1 h]

/-- A state without arguments that wait for their call. -/
theorem LogState.At.of_args (henv : a.env = env) (hdone : a.done = done) (hargs : a.args = [])
    (hpend : a.pend = pend) (hbt : a.bt = []) : a.At env done pend :=
  ⟨henv, hdone, by rw [LogState.flushArgs, if_pos hargs]; exact hpend, hbt⟩

def withFrames (frames : List (Frame w)) (calls : List (LogCall w)) : List (LogCall w) :=
  calls.map fun v => { v with frames := some frames }

@[simp] theorem withFrames_nil (frames : List (Frame w)) : withFrames frames [] = [] := rfl

@[simp] theorem withFrames_append (frames : List (Frame w)) (vs us : List (LogCall w)) :
    withFrames frames (vs ++ us) = withFrames frames vs ++ withFrames frames us :=
  List.map_append

/-- The empty backtrace has no names. -/
theorem sharedFrames_nil (done : List (LogCall w)) : sharedFrames done [] = [] := by
  unfold sharedFrames
  cases hfind : (done.filterMap LogCall.frames).find? fun old =>
      decide (old.map Frame.addr = ([] : List (Frame w)).map Frame.addr) with
  | none => rfl
  | some old => simpa using List.find?_some hfind

/-- A backtrace keeps its names if no other one has its addresses. -/
theorem sharedFrames_self {frames : List (Frame w)}
    (h : ∀ old ∈ done.filterMap LogCall.frames, old.map Frame.addr = frames.map Frame.addr →
      old = frames) : sharedFrames done frames = frames := by
  unfold sharedFrames
  cases hfind : (done.filterMap LogCall.frames).find? fun old =>
      decide (old.map Frame.addr = frames.map Frame.addr) with
  | none => rfl
  | some old =>
    exact h old (List.mem_of_find?_eq_some hfind) (by simpa using List.find?_some hfind)

/-! ## Rules -/

/-- What a record adds to the environment. -/
def LogEnv.add (junk : Nat → Context w) (env : LogEnv w) : Record w → LogEnv w
  | .mmap mmap => { env with mmaps := env.mmaps ++ [mmap] }
  | .context _ => { env with contexts := env.contexts ++ [junk env.contexts.length] }
  | .resource res =>
      if env.resources.any (·.type = res.type) then env
      else { env with resources := env.resources ++ [res] }
  | .attachment file => { env with files := env.files ++ [file] }
  | _ => env

theorem LogState.flushArgs_pend (a : LogState w) :
    a.flushArgs.pend = if a.args = [] then a.pend else setLastArgs a.args a.pend := by
  unfold LogState.flushArgs
  split <;> rfl

/-- A record leaves the calls alone. -/
theorem LogState.addRecord_calls (junk : Nat → Context w) (a : LogState w) (line : Str)
    (rec : Record w) : (a.addRecord junk line rec).done = a.done ∧
      (a.addRecord junk line rec).pend = a.pend ∧ (a.addRecord junk line rec).args = a.args ∧
      (a.addRecord junk line rec).bt = a.bt := by
  cases rec with
  | resource res =>
    unfold LogState.addRecord
    simp only
    split <;> exact ⟨rfl, rfl, rfl, rfl⟩
  | _ => exact ⟨rfl, rfl, rfl, rfl⟩

theorem LogState.addRecord_env (junk : Nat → Context w) (a : LogState w) (line : Str)
    (rec : Record w) : (a.addRecord junk line rec).env = a.env.add junk rec := by
  cases rec with
  | resource res =>
    unfold LogState.addRecord LogEnv.add
    simp only [show a.env.resources = a.resources from rfl]
    split <;> rfl
  | _ => rfl

/-- A record adds to the environment and leaves the calls alone. -/
theorem LogState.At.addRecord (h : a.At env done pend) (line : Str) (rec : Record w) :
    (a.addRecord junk line rec).At (env.add junk rec) done pend := by
  obtain ⟨hdone, hpend, hargs, hbt⟩ := LogState.addRecord_calls junk a line rec
  refine ⟨?_, hdone.trans h.done, ?_, hbt.trans h.bt⟩
  · rw [LogState.addRecord_env, h.env]
  · rw [LogState.flushArgs_pend, hargs, hpend, ← LogState.flushArgs_pend]
    exact h.pend

/-- A record that is no part of a group ends the group. -/
theorem LogState.At.record (h : a.At env done pend) (rec : Record w) (line : Str) :
    (a.step junk (.record rec line)).At (env.add junk rec) (done ++ withFrames [] pend) [] := by
  have hbt : a.flushArgs.bt = [] := by rw [LogState.flushArgs_bt]; exact h.bt
  have hstep : a.step junk (.record rec line)
      = a.flushArgs.settleEmpty.addRecord junk line rec := by
    rw [LogState.step, LogState.flushBacktrace_of_nil hbt]
  rw [hstep]
  refine LogState.At.addRecord ?_ line rec
  by_cases hpend : a.flushArgs.pend = []
  · have hnil : pend = [] := h.pend.symm.trans hpend
    rw [LogState.settleEmpty, if_pos hpend, hnil]
    refine .of_args ((LogState.flushArgs_env a).trans h.env) ?_ (LogState.flushArgs_args a) hpend hbt
    simpa using h.done
  · rw [LogState.settleEmpty, if_neg hpend]
    refine .of_args ((LogState.flushArgs_env a).trans h.env) ?_ (LogState.flushArgs_args a) rfl hbt
    show a.flushArgs.done ++ _ = _
    rw [LogState.flushArgs_done, h.done, h.pend, sharedFrames_nil]
    rfl

/-- The records in front of the calls. -/
theorem LogState.At.records (h : a.At env done []) (recs : List (Record w × Str)) :
    (a.run junk (recs.map fun p => .record p.1 p.2)).At
      (recs.foldl (fun env p => env.add junk p.1) env) done [] := by
  induction recs generalizing a env with
  | nil => exact h
  | cons p recs ih =>
    have hone : (a.step junk (.record p.1 p.2)).At (env.add junk p.1) (done ++ withFrames [] []) [] :=
      h.record p.1 p.2
    rw [withFrames_nil, List.append_nil] at hone
    exact ih hone

/-- A comment ends the group. -/
theorem LogState.At.comment (h : a.At env done pend) (line : Str) :
    (a.step junk (.record .comment line)).At env (done ++ withFrames [] pend) [] :=
  h.record .comment line

/-- Comments before a call. -/
theorem LogState.At.comments (h : a.At env done pend) {lines : List Str} (hne : lines ≠ []) :
    (a.run junk (lines.map fun line => .record .comment line)).At env
      (done ++ withFrames [] pend) [] := by
  induction lines generalizing a done pend with
  | nil => exact absurd rfl hne
  | cons line lines ih =>
    have hone : (a.step junk (.record .comment line)).At env (done ++ withFrames [] pend) [] :=
      h.comment line
    cases lines with
    | nil => exact hone
    | cons line' lines =>
      have hrest := ih hone (by simp)
      rw [withFrames_nil, List.append_nil] at hrest
      exact hrest

/-- A temporary comment is not noticed. -/
theorem LogState.At.skip (h : a.At env done pend) : (a.step junk .skip).At env done pend := h

def readCall (env : LogEnv w) (call : CallRecord w) (args : List Farg) : LogCall w :=
  { record := { call with resType := .ref (LogState.findResource env.resources call.resType) }
    args, frames := none }

/-- Arguments wait for the end of the call. -/
theorem LogState.run_args {args : List Farg} (hpend : a.pend ≠ []) :
    a.run junk (args.map .arg) = { a with args := a.args ++ args } := by
  induction args generalizing a with
  | nil => simp [LogState.run]
  | cons arg args ih =>
    have hstep : a.step junk (.arg arg) = { a with args := a.args ++ [arg] } := by
      rw [LogState.step, if_neg hpend]
    show (a.step junk (.arg arg)).run junk (args.map .arg) = _
    have hrest := ih (a := { a with args := a.args ++ [arg] }) hpend
    rw [hstep, hrest, List.append_assoc]
    rfl

/-- A call joins the group. -/
theorem LogState.At.call (h : a.At env done pend) (call : CallRecord w) (args : List Farg) :
    (a.run junk (.call call :: args.map .arg)).At env done (pend ++ [readCall env call args]) := by
  have hbt : a.flushArgs.bt = [] := by rw [LogState.flushArgs_bt]; exact h.bt
  have hstep : a.step junk (.call call) = a.flushArgs.addCall call := by
    rw [LogState.step, LogState.flushBacktrace_of_nil hbt]
  have hpend : (a.flushArgs.addCall call).pend = pend ++ [readCall env call []] := by
    have henv : a.flushArgs.resources = env.resources :=
      congrArg LogEnv.resources ((LogState.flushArgs_env a).trans h.env)
    simp only [LogState.addCall, h.pend, readCall, henv]
  show ((a.step junk (.call call)).run junk (args.map .arg)).At _ _ _
  rw [hstep, LogState.run_args (by rw [hpend]; simp)]
  refine ⟨(LogState.flushArgs_env a).trans h.env, (LogState.flushArgs_done a).trans h.done, ?_, hbt⟩
  have hargs : (a.flushArgs.addCall call).args = [] := LogState.flushArgs_args a
  by_cases hnil : args = []
  · subst hnil
    rw [LogState.flushArgs, if_pos (by simp [hargs])]
    exact hpend
  · rw [LogState.flushArgs, if_neg (by simp [hargs, hnil])]
    show setLastArgs _ (a.flushArgs.addCall call).pend = _
    rw [hpend, setLastArgs_snoc, hargs]
    rfl

/-- The frames of a backtrace are collected. -/
theorem LogState.run_frames {frames : List (Frame w)} (hpend : a.pend ≠ []) :
    a.run junk (frames.map .frame) = { a with bt := a.bt ++ frames } := by
  induction frames generalizing a with
  | nil => simp [LogState.run]
  | cons frame frames ih =>
    have hstep : a.step junk (.frame frame) = { a with bt := a.bt ++ [frame] } := by
      rw [LogState.step, if_neg hpend]
    show (a.step junk (.frame frame)).run junk (frames.map .frame) = _
    have hrest := ih (a := { a with bt := a.bt ++ [frame] }) hpend
    rw [hstep, hrest, List.append_assoc]
    rfl

theorem setLastArgs_eq_nil {args : List Farg} {calls : List (LogCall w)} :
    setLastArgs args calls = [] ↔ calls = [] := by
  cases calls with
  | nil => simp [setLastArgs]
  | cons c calls => cases calls <;> simp [setLastArgs]

theorem LogState.flushArgs_pend_eq_nil : a.flushArgs.pend = [] ↔ a.pend = [] := by
  unfold LogState.flushArgs
  split
  · rfl
  · exact setLastArgs_eq_nil

/-- A backtrace and the empty line behind it end the group. -/
theorem LogState.At.backtrace (h : a.At env done pend) (hne : pend ≠ []) (frames : List (Frame w)) :
    (a.run junk (frames.map .frame ++ [.blank])).At env
      (done ++ withFrames (sharedFrames done frames) pend) [] := by
  have hpend : a.pend ≠ [] := by
    rw [Ne, ← LogState.flushArgs_pend_eq_nil, h.pend]
    exact hne
  rw [LogState.run_append, LogState.run_frames hpend, h.bt, List.nil_append]
  set b : LogState w := { a with bt := frames } with hb
  have hflush : b.flushArgs = { a.flushArgs with bt := frames } := by
    unfold LogState.flushArgs
    split <;> rfl
  have hbpend : b.flushArgs.pend ≠ [] := by
    rw [hflush]
    show a.flushArgs.pend ≠ []
    rw [h.pend]
    exact hne
  show (b.flushArgs.endGroup).At _ _ _
  rw [LogState.endGroup, if_neg hbpend, hflush]
  refine .of_args ((LogState.flushArgs_env a).trans h.env) ?_ (LogState.flushArgs_args a) rfl rfl
  show a.flushArgs.done ++ _ = _
  simp only [LogState.flushArgs_done, h.done, h.pend]
  rfl

end SpRtrace.Postproc
