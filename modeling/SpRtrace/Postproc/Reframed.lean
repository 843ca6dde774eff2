/-
SpRtrace.Postproc.Reframed — the filters do not look at frames.

`reframed` is a store whose backtraces have other frames, such as a trimmed
one (`trimmedData_reframed`). Removing a call follows pointers and counts
references, so it does the same on both (`rdFcallRemove_reframed`), and
so do the loops over the calls, the leak filter included. In a trimmed
store a backtrace may be in the wrong place of the table; what holds of a
filter on the store before is carried over to it here.
-/
import SpRtrace.Postproc.Removals
import SpRtrace.Postproc.TrimTheorems

namespace SpRtrace.Postproc

open SpRtrace.Lib SpRtrace.Common

variable {w : Nat}

/-- Frames by address of the backtrace. -/
abbrev Cut (w : Nat) := Nat → List (Frame w) → List (Frame w)

def Cut.trace (cut : Cut w) (t : Nat) (y : Ftrace w) : Ftrace w := { y with frames := cut t y.frames }

/-- The store with other frames and process information. -/
def reframed (cut : Cut w) (info : Option Pinfo → Option Pinfo) (rd : Rd w) : Rd w :=
  { rd with ftrace := fun t => (rd.ftrace t).map (cut.trace t), pinfo := info rd.pinfo }

variable {cut : Cut w} {info : Option Pinfo → Option Pinfo} {rd : Rd w}

@[simp] theorem Cut.trace_calls (t : Nat) (y : Ftrace w) : (cut.trace t y).calls = y.calls := rfl
@[simp] theorem Cut.trace_refCount (t : Nat) (y : Ftrace w) : (cut.trace t y).refCount = y.refCount := rfl
@[simp] theorem Cut.trace_bucket (t : Nat) (y : Ftrace w) : (cut.trace t y).bucket = y.bucket := rfl
@[simp] theorem reframed_fcall : (reframed cut info rd).fcall = rd.fcall := rfl
@[simp] theorem reframed_calls : (reframed cut info rd).calls = rd.calls := rfl
@[simp] theorem reframed_resource : (reframed cut info rd).resource = rd.resource := rfl
@[simp] theorem reframed_resources : (reframed cut info rd).resources = rd.resources := rfl
@[simp] theorem reframed_hinfo : (reframed cut info rd).hinfo = rd.hinfo := rfl
@[simp] theorem reframed_mmaps : (reframed cut info rd).mmaps = rd.mmaps := rfl
@[simp] theorem reframed_contexts : (reframed cut info rd).contexts = rd.contexts := rfl
@[simp] theorem reframed_ftrace (t : Nat) :
    (reframed cut info rd).ftrace t = (rd.ftrace t).map (cut.trace t) := rfl

theorem reframed_id (rd : Rd w) : reframed (fun _ frames => frames) id rd = rd := by
  have hsame : (reframed (fun _ frames => frames) id rd).ftrace = rd.ftrace := by
    funext t
    exact congrFun Option.map_id (rd.ftrace t)
  exact congrArg (fun f => ({ rd with ftrace := f } : Rd w)) hsame

/-- The frames of the backtraces in the table, up to a depth. -/
def depthCut (depth : BitVec 32) (traces : List Nat) : Cut w :=
  fun t frames => if t ∈ traces then frames.take depth.toNat else frames

/-- Trimming changes frames only. -/
theorem trimmedData_reframed (depth : BitVec 32) (rd : Rd w) :
    trimmedData depth rd = reframed (depthCut depth (htableNodes rd.ftraces))
      (Option.map fun pinfo => { pinfo with backtraceDepth := depth }) rd := by
  have hsame : (trimmedData depth rd).ftrace
      = (reframed (depthCut depth (htableNodes rd.ftraces)) id rd).ftrace := by
    funext t
    by_cases ht : t ∈ htableNodes rd.ftraces
    · simp only [trimmedData, trimmedStore, withDepth, ht, if_true, reframed]
      refine congrArg (fun f => Option.map f (rd.ftrace t)) (funext fun y => ?_)
      simp [Cut.trace, depthCut, ht, trimmedTrace]
    · simp only [trimmedData, trimmedStore, withDepth, ht, if_false, reframed]
      refine (congrFun Option.map_id (rd.ftrace t)).symm.trans ?_
      refine congrArg (fun f => Option.map f (rd.ftrace t)) (funext fun y => ?_)
      simp [Cut.trace, depthCut, ht]
  exact congrArg (fun f => ({ withDepth depth rd with ftrace := f } : Rd w)) hsame

/-! ## Removing a call -/

/-- Two computations that do the same, one after the other. -/
theorem bind_commutes {α β γ δ : Type} {x : Option α} {x' : Option γ} {f : α → γ} {F : β → δ}
    {g : α → Option β} {g' : γ → Option δ} (hx : x' = x.map f) (hg : ∀ a, g' (f a) = (g a).map F) :
    x'.bind g' = (x.bind g).map F := by
  subst hx
  cases x with
  | none => rfl
  | some a => exact hg a

theorem same_commutes {α β δ : Type} {x : Option α} {F : β → δ} {g : α → Option β} {g' : α → Option δ}
    (hg : ∀ a, g' a = (g a).map F) : x.bind g' = (x.bind g).map F :=
  bind_commutes (congrFun Option.map_id x).symm hg

/-- A backtrace that is written back. -/
theorem update_trace (cut : Cut w) (info : Option Pinfo → Option Pinfo) (rd : Rd w) (t : Nat)
    (y : Option (Ftrace w)) :
    (fun u => (Function.update rd.ftrace t y u).map (cut.trace u))
      = Function.update (reframed cut info rd).ftrace t (y.map (cut.trace t)) := by
  funext u
  by_cases hu : u = t
  · subst hu
    simp
  · simp [reframed, hu]

theorem rdFtraceFree_reframed (rd : Rd w) (t : Nat) :
    rdFtraceFree (reframed cut info rd) t = (rdFtraceFree rd t).map (reframed cut info) := by
  unfold rdFtraceFree
  cases hy : rd.ftrace t with
  | none => simp [hy]
  | some y =>
    have hframes := update_trace cut info rd t none
    simp [hy, reframed, hframes]
    rfl

/-- The end of `rdUnlinkFcall`: the backtrace is written back, and freed
with its last reference. -/
def writeBack (rd : Rd w) (t : Nat) (y : Ftrace w) : Option (Rd w) :=
  let rd := { rd with ftrace := Function.update rd.ftrace t (some y) }
  if y.refCount = 0 then do
    let b ← y.bucket
    let ftraces ← htableRemoveNode rd.ftraces b t
    rdFtraceFree { rd with ftraces } t
  else some rd

theorem writeBack_reframed (rd : Rd w) (t : Nat) (y : Ftrace w) :
    writeBack (reframed cut info rd) t (cut.trace t y) = (writeBack rd t y).map (reframed cut info) := by
  have hframes := update_trace cut info rd t (some y)
  rw [Option.map_some] at hframes
  rw [writeBack, writeBack, ← hframes, Cut.trace_refCount]
  split
  · refine same_commutes fun b => same_commutes fun ftraces => ?_
    exact rdFtraceFree_reframed { rd with ftraces, ftrace := Function.update rd.ftrace t (some y) } t
  · rfl

theorem rdUnlinkFcall_reframed (rd : Rd w) (c : Fcall w) :
    rdUnlinkFcall (reframed cut info rd) c = (rdUnlinkFcall rd c).map (reframed cut info) := by
  unfold rdUnlinkFcall
  cases htrace : c.trace with
  | none => rfl
  | some t =>
    cases hy : rd.ftrace t with
    | none => simp [hy]
    | some y =>
      cases href : c.ref with
      | none =>
        simp only [reframed_ftrace, hy, Option.map_some, Option.bind_eq_bind, Option.bind_some]
        exact writeBack_reframed rd t { y with refCount := y.refCount - 1 }
      | some r =>
        cases hcalls : dlistRemove y.calls r with
        | none => simp [hy, hcalls]
        | some calls =>
          simp only [reframed_ftrace, hy, Option.map_some, Option.bind_eq_bind, Option.bind_some, Cut.trace_calls, hcalls]
          exact writeBack_reframed { rd with refNode := Function.update rd.refNode r none } t
            { y with refCount := y.refCount - 1, calls }

theorem rdFcallRemove_reframed (rd : Rd w) (call : Nat) :
    rdFcallRemove (reframed cut info rd) call = (rdFcallRemove rd call).map (reframed cut info) := by
  unfold rdFcallRemove
  refine same_commutes fun calls => ?_
  refine same_commutes fun c => ?_
  exact bind_commutes (rdUnlinkFcall_reframed { rd with calls } c) fun _ => rfl

/-! ## The leak filter -/

def FresIndex.reframed (cut : Cut w) (info : Option Pinfo → Option Pinfo) (idx : FresIndex w) : FresIndex w :=
  { idx with rd := Postproc.reframed cut info idx.rd }

theorem removeCall_reframed (idx : FresIndex w) (call : Nat) :
    (idx.reframed cut info).removeCall call = (idx.removeCall call).map (FresIndex.reframed cut info) :=
  bind_commutes (rdFcallRemove_reframed idx.rd call) fun _ => rfl

theorem countRef_reframed (idx : FresIndex w) (res : Nat) (step : BitVec 32 → BitVec 32) :
    (idx.reframed cut info).countRef res step
      = (idx.countRef res step).map (FresIndex.reframed cut info) :=
  same_commutes fun _ => rfl

theorem store_reframed (idx : FresIndex w) (b call : Nat) :
    (idx.reframed cut info).store b call = (idx.store b call).map (FresIndex.reframed cut info) :=
  same_commutes fun _ => rfl

theorem release_reframed (idx : FresIndex w) (res : Nat) :
    (idx.reframed cut info).release res = (idx.release res).map (FresIndex.reframed cut info) := by
  refine same_commutes fun f => ?_
  refine same_commutes fun b => ?_
  refine same_commutes fun table => ?_
  exact bind_commutes (removeCall_reframed { idx with table } f.call) fun _ => rfl

theorem fcallRemoveFreed_reframed (hash : BitVec w → Option (BitVec w) → Nat) (call : Nat)
    (idx : FresIndex w) : fcallRemoveFreed hash call (idx.reframed cut info)
      = (fcallRemoveFreed hash call idx).map (FresIndex.reframed cut info) := by
  unfold fcallRemoveFreed
  refine same_commutes fun c => ?_
  refine same_commutes fun h => ?_
  refine same_commutes fun res => ?_
  split
  · cases res with
    | none => exact store_reframed idx _ call
    | some res =>
      refine same_commutes fun counted => ?_
      split
      · exact bind_commutes (countRef_reframed idx res (· + 1)) fun idx => removeCall_reframed idx call
      · exact store_reframed idx _ call
  split
  · cases res with
    | none => exact removeCall_reframed idx call
    | some res =>
      refine bind_commutes (countRef_reframed idx res (· - 1)) fun idx => ?_
      refine same_commutes fun last => ?_
      split
      · exact bind_commutes (release_reframed idx res) fun idx => removeCall_reframed idx call
      · exact removeCall_reframed idx call
  · rfl

/-! ## Loops over the calls -/

/-- A callback that does the same on both stores makes a loop that does. -/
theorem dlistForeach2_map {ν σ : Type} [DecidableEq ν] {nodes : σ → List ν} {doWhat doWhat' : ν → σ → Option σ}
    (f : σ → σ) (hnodes : ∀ s, nodes (f s) = nodes s)
    (hstep : ∀ node s, doWhat' node (f s) = (doWhat node s).map f) (s : σ) :
    dlistForeach2 nodes doWhat' (f s) = (dlistForeach2 nodes doWhat s).map f := by
  have hloop : ∀ (fuel : Nat) (current : Option ν) (s : σ),
      dlistForeach2Loop nodes doWhat' fuel current (f s)
        = (dlistForeach2Loop nodes doWhat fuel current s).map f := by
    intro fuel
    induction fuel with
    | zero => intro current s; cases current <;> rfl
    | succ fuel ih =>
      intro current s
      cases current with
      | none => rfl
      | some node =>
        simp only [dlistForeach2Loop, hnodes]
        split
        · exact bind_commutes (hstep node s) fun s' => ih _ s'
        · rfl
  rw [dlistForeach2, hnodes]
  exact hloop _ _ s

theorem filterLeaks_reframed (rd : Rd w) :
    filterLeaks (reframed cut info rd) = (filterLeaks rd).map (reframed cut info) := by
  let idx : FresIndex w := { rd, table := htableInit hashSize, fres := fun _ => none, fresh := 0 }
  have hrun : dlistForeach2 (fun idx : FresIndex w => idx.rd.calls) (fcallRemoveFreed resHash)
        (idx.reframed cut info)
      = (dlistForeach2 (fun idx : FresIndex w => idx.rd.calls) (fcallRemoveFreed resHash) idx).map
          (FresIndex.reframed cut info) :=
    dlistForeach2_map (FresIndex.reframed cut info) (fun _ => rfl) (fcallRemoveFreed_reframed resHash) idx
  exact bind_commutes hrun fun _ => rfl

end SpRtrace.Postproc
