/-
SpRtrace.Postproc.CallLog — the calls of a log, written and read.

The writer prints groups: one call with its backtrace, or in compressed
mode all calls of a backtrace in front of it. A comment that falls due
inside a group ends the group for the reader, so the calls in front of it
get an empty backtrace. `markCalls` says in front of which calls a comment
falls due, `groupRead` what a group is read as, and `takes_calls` that the
call part of a log is read as its groups, one after the other.
-/
import SpRtrace.Postproc.CompressTheorems
import SpRtrace.Postproc.EnvironmentLog

namespace SpRtrace.Postproc

open SpRtrace.Lib SpRtrace.Common SpRtrace.Library

variable {w : Nat}

/-! ## Calls -/

/-- A call the log can hold, with a resource of the log. -/
structure PlainCall (resources : List (Resource w)) (v : LogCall w) : Prop where
  kind : v.record.type = ftypeAlloc ∨ v.record.type = ftypeFree ∧ v.record.resSize = 0
  time : v.record.timestamp.toNat < 86400000
  index : 0 < v.record.index.toInt
  name : LogWord v.record.name
  args : ∀ arg ∈ v.args, LogWord arg.name ∧ LogWord arg.value
  frames : ∃ frames, v.frames = some frames ∧ ∀ frame ∈ frames, ∀ name ∈ frame.name, LogWord name
  resource : ∃ res ∈ resources, v.record.resType = .ref (some res) ∧ LogWord res.type ∧
    (res.hide = true → resources = [res])

/-- The strings of a call that the parser copies into buffers of fixed
size. -/
structure CallBuffers (v : LogCall w) : Prop where
  name : v.record.name.length < 512
  type : ∀ type ∈ v.record.resType.resName, type.length < 512
  args : ∀ arg ∈ v.args, arg.name.length < 128

/-- A resource field as it is read. -/
def shownField : ResField w → ResField w
  | .ref (some res) => .ref (some (shownResource res))
  | field => field

def shownCall (v : LogCall w) : LogCall w :=
  { v with record := { v.record with resType := shownField v.record.resType } }

/-- A call as it is read, before its backtrace. -/
def bareCall (v : LogCall w) : LogCall w := { shownCall v with frames := none }

section Call

variable {resources : List (Resource w)} {v : LogCall w}

theorem PlainCall.typeWord (h : PlainCall resources v) :
    ∀ type ∈ v.record.resType.resName, LogWord type := by
  obtain ⟨res, -, hres, hword, -⟩ := h.resource
  intro type htype
  rw [hres, ResField.resName] at htype
  split at htype
  · cases htype
  · obtain rfl := Option.some.inj htype
    exact hword

/-- The resource that the reader finds is the one of the call. -/
theorem PlainCall.findResource (h : PlainCall resources v)
    (htypes : (resources.map Resource.type).Nodup) :
    ResField.ref (LogState.findResource (resources.map shownResource) v.record.resType.reread)
      = shownField v.record.resType := by
  obtain ⟨res, hmem, hres, -, hhide⟩ := h.resource
  rw [hres, shownField, ResField.reread, ResField.resName]
  by_cases hhidden : res.hide = true
  · rw [if_pos hhidden, hhide hhidden]
    rfl
  · rw [if_neg hhidden]
    show ResField.ref ((resources.map shownResource).find? fun r => decide (r.type = res.type)) = _
    cases hfind : (resources.map shownResource).find? fun r => decide (r.type = res.type) with
    | none =>
      have hnone := List.find?_eq_none.mp hfind (shownResource res) (List.mem_map_of_mem hmem)
      exact absurd (by simp [shownResource]) hnone
    | some found =>
      obtain ⟨old, hold, rfl⟩ := List.mem_map.mp (List.mem_of_find?_eq_some hfind)
      have htype : (shownResource old).type = res.type := by simpa using List.find?_some hfind
      rw [List.inj_on_of_nodup_map htypes hold hmem htype]

/-- The names of a call fit exactly if the parser's buffers take them. -/
theorem PlainCall.scannable_iff (h : PlainCall resources v) :
    ScannableName v.record.name v.record.resType.resName ↔
      v.record.name.length < 512 ∧ ∀ type ∈ v.record.resType.resName, type.length < 512 :=
  ⟨fun hs => ⟨hs.short, hs.type_short⟩, fun hb =>
    ⟨h.name.plainName h.typeWord, hb.1, fun type ht => (h.typeWord type ht).ne, hb.2⟩⟩

variable (junk : Nat → Context w) {env : LogEnv w}

/-- **A call and its arguments** join the group. -/
theorem takes_call (hw : 32 ≤ w) (h : PlainCall resources v)
    (henv : env.resources = resources.map shownResource)
    (htypes : (resources.map Resource.type).Nodup)
    (hshort : ShortLines (printCallLine v.record ++ spRtracePrintArgs v.args))
    (done pend : List (LogCall w)) :
    Takes junk (printCallLine v.record ++ spRtracePrintArgs v.args) (CallBuffers v)
      (AtPlace ⟨env, done, pend⟩) (AtPlace ⟨env, done, pend ++ [bareCall v]⟩) := by
  have hcall := writes_callLine hw h.name h.typeWord h.time h.kind
  have hargs : ∀ arg ∈ v.args, Writes w (printArg arg) [LogEvent.arg arg] (arg.name.length < 128) := by
    intro arg harg
    obtain ⟨hname, hvalue⟩ := h.args arg harg
    refine writes_arg hname hvalue (ShortLines.flatten ?_ (List.mem_map_of_mem harg))
    rw [← List.flatMap_def]
    exact hshort.of_append.2
  have hwrites := hcall.append (Writes.each hargs)
  refine ⟨_, hwrites.congr ?_, fun a ha => ?_⟩
  · rw [h.scannable_iff]
    exact ⟨fun ⟨⟨hn, ht⟩, ha⟩ => ⟨hn, ht, ha⟩, fun hb => ⟨⟨hb.name, hb.type⟩, hb.args⟩⟩
  · have hread : readCall env { v.record with resType := v.record.resType.reread } v.args
        = bareCall v := by
      have hfind := h.findResource htypes
      rw [← henv] at hfind
      rw [readCall, bareCall, shownCall, ← hfind]
    rw [← hread]
    exact LogState.At.call ha _ _

end Call

/-! ## Comments inside a group -/

/-- One of the calls has an index above that of the comment. -/
def dueBefore (calls : List (LogCall w)) (c : Comment) : Bool :=
  calls.any fun v => decide (c.index.toInt < v.record.index.toInt)

theorem dueBefore_iff {calls : List (LogCall w)} {c : Comment} :
    dueBefore calls c = true ↔ ∃ v ∈ calls, c.index.toInt < v.record.index.toInt := by
  simp [dueBefore]

/-- The comments that wait when the calls `before` are written. -/
def waitingComments (comments : List Comment) (before : List (LogCall w)) : List Comment :=
  comments.dropWhile (dueBefore before)

/-- A comment falls due in front of the call `v`. -/
def commentDue (comments : List Comment) (before : List (LogCall w)) (v : LogCall w) : Bool :=
  (waitingComments comments before).head?.any (dueBefore [v])

theorem waitingComments_nil (comments : List Comment) :
    waitingComments comments ([] : List (LogCall w)) = comments := by
  cases comments <;> rfl

/-- What a call leaves of the comments. -/
theorem waitingComments_snoc (comments : List Comment) (before : List (LogCall w)) (v : LogCall w) :
    waitingComments comments (before ++ [v])
      = (waitingComments comments before).dropWhile (dueBefore [v]) := by
  unfold waitingComments
  induction comments with
  | nil => rfl
  | cons c comments ih =>
    by_cases hbefore : dueBefore before c = true
    · have hboth : dueBefore (before ++ [v]) c = true := by
        obtain ⟨u, hu, hlt⟩ := dueBefore_iff.mp hbefore
        exact dueBefore_iff.mpr ⟨u, List.mem_append_left _ hu, hlt⟩
      rw [List.dropWhile_cons_of_pos hboth, List.dropWhile_cons_of_pos hbefore, ih]
    · rw [List.dropWhile_cons_of_neg hbefore]
      rw [dueBefore_iff] at hbefore
      push Not at hbefore
      by_cases hlt : dueBefore [v] c = true
      · -- the calls before have no larger index than `v`, so they do not count
        have hv : c.index.toInt < v.record.index.toInt := by simpa [dueBefore_iff] using hlt
        have hsame : dueBefore (before ++ [v]) = dueBefore [v] := by
          funext d
          rw [Bool.eq_iff_iff, dueBefore_iff, dueBefore_iff]
          refine ⟨fun ⟨u, hu, hd⟩ => ?_, fun ⟨u, hu, hd⟩ => ⟨u, List.mem_append_right _ hu, hd⟩⟩
          rcases List.mem_append.mp hu with hu | hu
          · have := hbefore u hu
            exact ⟨v, List.mem_singleton_self v, by omega⟩
          · exact ⟨u, hu, hd⟩
        rw [hsame]
      · have hnone : ¬ dueBefore (before ++ [v]) c = true := by
          intro hany
          obtain ⟨u, hu, hd⟩ := dueBefore_iff.mp hany
          rcases List.mem_append.mp hu with hu | hu
          · have := hbefore u hu
            omega
          · exact hlt (dueBefore_iff.mpr ⟨u, hu, hd⟩)
        rw [List.dropWhile_cons_of_neg hnone, List.dropWhile_cons_of_neg hlt]

theorem commentDue_iff {comments : List Comment} {before : List (LogCall w)} {v : LogCall w} :
    commentDue comments before v = true ↔
      (waitingComments comments before).takeWhile (dueBefore [v]) ≠ [] := by
  unfold commentDue
  cases waitingComments comments before with
  | nil => simp
  | cons c rest =>
    by_cases hdue : dueBefore [v] c = true
    · simp [hdue]
    · simp [hdue]

/-- The calls of a group, each with whether a comment is in front of it. -/
def markCalls (comments : List Comment) :
    List (LogCall w) → List (LogCall w) → List (Bool × LogCall w)
  | _, [] => []
  | before, v :: vs => (commentDue comments before v, bareCall v) :: markCalls comments (before ++ [v]) vs

/-- The calls that a comment cuts off, without frames, and the calls behind
the last comment; `pend` are the calls so far. -/
def joinCalls : List (LogCall w) → List (Bool × LogCall w) → List (LogCall w) × List (LogCall w)
  | pend, [] => ([], pend)
  | pend, (true, v) :: marked =>
      (withFrames [] pend ++ (joinCalls [v] marked).1, (joinCalls [v] marked).2)
  | pend, (false, v) :: marked => joinCalls (pend ++ [v]) marked

def groupRead (frames : List (Frame w)) (marked : List (Bool × LogCall w)) : List (LogCall w) :=
  (joinCalls [] marked).1 ++ withFrames frames (joinCalls [] marked).2

theorem joinCalls_ne_nil {pend : List (LogCall w)} {marked : List (Bool × LogCall w)}
    (h : pend ≠ [] ∨ marked ≠ []) : (joinCalls pend marked).2 ≠ [] := by
  induction marked generalizing pend with
  | nil => exact h.resolve_right fun hne => hne rfl
  | cons m marked ih =>
    obtain ⟨due, v⟩ := m
    cases due with
    | true => exact ih (.inl (by simp))
    | false => exact ih (.inl (by simp))

/-- A call gets the frames of its group or none. -/
theorem mem_joinCalls {pend : List (LogCall w)} {marked : List (Bool × LogCall w)} {v : LogCall w}
    (hv : v ∈ (joinCalls pend marked).1) : v.frames = some [] := by
  induction marked generalizing pend with
  | nil => cases hv
  | cons m marked ih =>
    obtain ⟨due, u⟩ := m
    cases due with
    | true =>
      rcases List.mem_append.mp hv with hv | hv
      · obtain ⟨u, -, rfl⟩ := List.mem_map.mp hv
        rfl
      · exact ih hv
    | false => exact ih hv

theorem mem_groupRead {frames : List (Frame w)} {marked : List (Bool × LogCall w)} {v : LogCall w}
    (hv : v ∈ groupRead frames marked) : v.frames = some [] ∨ v.frames = some frames := by
  rcases List.mem_append.mp hv with hv | hv
  · exact .inl (mem_joinCalls hv)
  · obtain ⟨u, -, rfl⟩ := List.mem_map.mp hv
    exact .inr rfl

/-! ## A group, written and read -/

def piecesText (pieces : List Piece) : Str := (pieces.map Piece.text).flatten

@[simp] theorem piecesText_nil : piecesText [] = [] := rfl

@[simp] theorem piecesText_append (ps qs : List Piece) :
    piecesText (ps ++ qs) = piecesText ps ++ piecesText qs := by
  simp [piecesText]

@[simp] theorem piecesText_comments (texts : List Str) :
    piecesText (texts.map Piece.comment) = texts.flatten := by
  rw [piecesText, List.map_map]
  exact congrArg List.flatten (List.map_id texts)

theorem takes_comments (junk : Nat → Context w) (env : LogEnv w) (done pend : List (LogCall w))
    {texts : List Str} (h : ∀ t ∈ texts, HashLine t) :
    Takes junk texts.flatten True (AtPlace ⟨env, done, pend⟩)
      (AtPlace (if texts = [] then ⟨env, done, pend⟩ else ⟨env, done ++ withFrames [] pend, []⟩)) := by
  by_cases hnil : texts = []
  · rw [if_pos hnil, hnil]
    exact .refl
  · rw [if_neg hnil]
    exact ⟨_, writes_comments h, fun a ha => LogState.At.comments ha hnil⟩

/-- The block of a call. -/
theorem callBlock_text {rd : Rd w} {clock : Nat → BitVec 32} {call : Nat} {b : Block}
    {v : LogCall w} (hb : callBlock rd clock call = some b) (hv : callView rd call = some v)
    (htime : v.record.timestamp.toNat < 86400000) :
    b.limit = some v.record.index.toInt ∧
      piecesText b.pieces = printCallLine v.record ++ spRtracePrintArgs v.args := by
  obtain ⟨c, res, frames, hc, hres, -, rfl⟩ := callView_eq_some.mp hv
  simp only [callBlock, hc, fcallRecord, hres, Option.bind_eq_bind, Option.bind_some,
    Option.bind_eq_some_iff, Option.some.injEq] at hb
  obtain ⟨text, htext, rfl⟩ := hb
  refine ⟨rfl, ?_⟩
  rw [spRtracePrintCall_eq htext htime]
  cases c.args with
  | none => rfl
  | some args => simp [piecesText, Piece.text]

section Group

variable {rd : Rd w} {clock : Nat → BitVec 32} {resources : List (Resource w)}
  (junk : Nat → Context w) {env : LogEnv w} {comments : List Comment}

/-- **The calls of a group**, with the comments that fall due among them. -/
theorem takes_groupCalls (hw : 32 ≤ w) (henv : env.resources = resources.map shownResource)
    (htypes : (resources.map Resource.type).Nodup) (hhash : ∀ c ∈ comments, HashLine c.text) :
    ∀ {calls : List Nat} {views : List (LogCall w)} {blocks : List Block} {pieces : List Piece}
      {rest : List Comment} (before done pend : List (LogCall w)),
      List.Forall₂ (fun c v => callView rd c = some v ∧ PlainCall resources v) calls views →
      List.Forall₂ (fun c b => callBlock rd clock c = some b) calls blocks →
      interleave (waitingComments comments before) blocks = some (pieces, rest) →
      ShortLines (piecesText pieces) →
      rest = waitingComments comments (before ++ views) ∧
      Takes junk (piecesText pieces) (∀ v ∈ views, CallBuffers v) (AtPlace ⟨env, done, pend⟩)
        (AtPlace ⟨env, done ++ (joinCalls pend (markCalls comments before views)).1,
          (joinCalls pend (markCalls comments before views)).2⟩)
  | [], _, _, pieces, rest, before, done, pend, .nil, .nil, hinter, _ => by
      obtain ⟨rfl, rfl⟩ := Prod.mk.inj (Option.some.inj hinter)
      rw [List.append_nil, markCalls, joinCalls, List.append_nil]
      exact ⟨rfl, Takes.refl.congr (by simp)⟩
  | c :: calls, _, _, pieces, rest, before, done, pend, .cons hv hviews, .cons hb hblocks, hinter,
      hshort => by
      rename_i v views b blocks
      obtain ⟨hlimit, htext⟩ := callBlock_text hb hv.1 hv.2.time
      simp only [interleave, Block.comments, hlimit, writeComments_eq, Option.bind_eq_bind,
        Option.bind_eq_some_iff, Option.map_eq_some_iff, Prod.exists, Option.some.injEq,
        Prod.mk.injEq] at hinter
      obtain ⟨_, _, ⟨texts, htexts, rfl, rfl⟩, others, rest, hrest, rfl, rfl⟩ := hinter
      have hdue : (fun c : Comment => decide (c.index.toInt < v.record.index.toInt))
          = dueBefore [v] := by
        funext c
        simp [dueBefore]
      rw [hdue] at htexts hrest
      rw [← waitingComments_snoc] at hrest
      rw [piecesText_append, piecesText_append, piecesText_comments, htext] at hshort ⊢
      obtain ⟨hfront, hothers⟩ := hshort.of_append
      obtain ⟨rfl, htakes⟩ := takes_groupCalls hw henv htypes hhash (before ++ [v])
        (if texts = [] then done else done ++ withFrames [] pend)
        (if texts = [] then pend ++ [bareCall v] else [bareCall v]) hviews hblocks hrest hothers
      refine ⟨by rw [List.append_assoc]; rfl, ?_⟩
      -- what was printed are lines with two #
      have hlines : ∀ t ∈ texts, HashLine t := by
        intro t ht
        obtain ⟨c', hc', hprint⟩ := forall₂_mem_right (mapM_eq_some_iff.mp htexts) ht
        have hmem : c' ∈ comments :=
          (List.dropWhile_sublist _).subset ((List.takeWhile_sublist _).subset hc')
        exact (hhash c' hmem).printFormat hprint
      have hcomments : Takes junk texts.flatten True (AtPlace ⟨env, done, pend⟩) _ :=
        takes_comments junk env done pend hlines
      have hcall : ∀ done pend, Takes junk (printCallLine v.record ++ spRtracePrintArgs v.args) _
          (AtPlace ⟨env, done, pend⟩) (AtPlace ⟨env, done, pend ++ [bareCall v]⟩) :=
        takes_call junk hw hv.2 henv htypes hfront.of_append.2
      have hnil : texts = [] ↔ commentDue comments before v = false := by
        rw [← Bool.not_eq_true, commentDue_iff, not_not, ← List.length_eq_zero_iff,
          ← List.length_eq_zero_iff, (mapM_eq_some_iff.mp htexts).length_eq]
      rw [markCalls]
      by_cases htexts_nil : texts = []
      · rw [if_pos htexts_nil] at hcomments
        rw [if_pos htexts_nil, if_pos htexts_nil] at htakes
        rw [hnil.mp htexts_nil, joinCalls]
        refine ((hcomments.trans (hcall done pend)).trans htakes).congr ?_
        rw [true_and, List.forall_mem_cons]
      · rw [if_neg htexts_nil] at hcomments
        rw [if_neg htexts_nil, if_neg htexts_nil] at htakes
        have hdue : commentDue comments before v = true := by
          rw [← Bool.not_eq_false, ← hnil]
          exact htexts_nil
        rw [hdue, joinCalls, ← List.append_assoc done (withFrames [] pend)]
        refine ((hcomments.trans (hcall (done ++ withFrames [] pend) [])).trans htakes).congr ?_
        rw [true_and, List.forall_mem_cons]

/-- The frames of a backtrace that is stored, or none. -/
def TraceFrames (rd : Rd w) (frames : List (Frame w)) : Prop :=
  frames = [] ∨ ∃ t y, rd.StoredTrace t ∧ rd.ftrace t = some y ∧ y.frames = frames

/-- Backtraces with the same addresses have the same names. Two of them can
be in the table after it was trimmed. -/
def NamesAgree (rd : Rd w) : Prop :=
  ∀ t u y z, rd.StoredTrace t → rd.StoredTrace u → rd.ftrace t = some y → rd.ftrace u = some z →
    y.frames.map Frame.addr = z.frames.map Frame.addr → y.frames = z.frames

theorem namesAgree_of_keyed (h : rd.Keyed) : NamesAgree rd := by
  intro t u y z hst hst' hy hz haddr
  obtain rfl := h.frames_inj t u y z hst hst' hy hz haddr
  rw [Option.some.inj (hy.symm.trans hz)]

/-- Frames with the same addresses are the same. -/
theorem TraceFrames.eq (hnames : NamesAgree rd) {f g : List (Frame w)} (hf : TraceFrames rd f)
    (hg : TraceFrames rd g) (haddr : f.map Frame.addr = g.map Frame.addr) : f = g := by
  rcases hf with rfl | ⟨t, y, hst, hy, rfl⟩
  · exact (List.map_eq_nil_iff.mp haddr.symm).symm
  · rcases hg with rfl | ⟨u, z, hst', hz, rfl⟩
    · exact List.map_eq_nil_iff.mp haddr
    · exact hnames t u y z hst hst' hy hz haddr

/-- Calls whose frames are those of the store. -/
def OwnFrames (rd : Rd w) (calls : List (LogCall w)) : Prop :=
  ∀ v ∈ calls, ∀ frames, v.frames = some frames → TraceFrames rd frames

theorem OwnFrames.append {us vs : List (LogCall w)} (hu : OwnFrames rd us) (hv : OwnFrames rd vs) :
    OwnFrames rd (us ++ vs) := by
  intro v hmem
  rcases List.mem_append.mp hmem with hmem | hmem
  · exact hu v hmem
  · exact hv v hmem

theorem OwnFrames.shared (hnames : NamesAgree rd) {done : List (LogCall w)} {frames : List (Frame w)}
    (hdone : OwnFrames rd done) (hframes : TraceFrames rd frames) :
    sharedFrames done frames = frames := by
  refine sharedFrames_self fun old hold haddr => ?_
  obtain ⟨v, hv, hvf⟩ := List.mem_filterMap.mp hold
  exact TraceFrames.eq hnames (hdone v hv old hvf) hframes haddr

theorem ownFrames_groupRead {frames : List (Frame w)} (hframes : TraceFrames rd frames)
    (marked : List (Bool × LogCall w)) : OwnFrames rd (groupRead frames marked) := by
  intro v hv fr hfr
  rcases mem_groupRead hv with h | h
  · obtain rfl := Option.some.inj (hfr.symm.trans h)
    exact .inl rfl
  · obtain rfl := Option.some.inj (hfr.symm.trans h)
    exact hframes

/-- **The end of a group**: its backtrace, behind a summary in compressed
mode. -/
theorem takes_groupEnd (env : LogEnv w) (hnames : NamesAgree rd) {trace : Nat} {y : Ftrace w} {p : Piece}
    {front : List Piece} {done pend : List (LogCall w)} (hst : rd.StoredTrace trace)
    (hy : rd.ftrace trace = some y) (hp : writeTrace rd trace = some p)
    (hfront : front = [] ∨ ∃ leakCount leakSize, front = [.summary leakCount leakSize])
    (hname : ∀ frame ∈ y.frames, ∀ name ∈ frame.name, LogWord name)
    (hshort : ShortLines (piecesText (front ++ [p]))) (hdone : OwnFrames rd done) (hpend : pend ≠ []) :
    Takes junk (piecesText (front ++ [p])) True (AtPlace ⟨env, done, pend⟩)
      (AtPlace ⟨env, done ++ withFrames y.frames pend, []⟩) := by
  simp only [writeTrace, hy, Option.bind_eq_bind, Option.bind_some, Option.bind_eq_some_iff,
    Option.some.injEq] at hp
  obtain ⟨text, htext, rfl⟩ := hp
  have hlast : piecesText [Piece.trace trace text] = text := by simp [piecesText, Piece.text]
  rw [piecesText_append, hlast] at hshort ⊢
  have htrace : Takes junk text True (AtPlace ⟨env, done, pend⟩)
      (AtPlace ⟨env, done ++ withFrames y.frames pend, []⟩) := by
    refine ⟨_, writes_trace htext hname hshort.of_append.2, fun a ha => ?_⟩
    have hend := (LogState.At.backtrace ha hpend y.frames :
      (a.run junk _).At _ _ _)
    rw [hdone.shared hnames (.inr ⟨trace, y, hst, hy, rfl⟩)] at hend
    exact hend
  rcases hfront with rfl | ⟨leakCount, leakSize, rfl⟩
  · exact htrace
  · have hsummary : Takes junk (piecesText [.summary leakCount leakSize]) True
        (AtPlace ⟨env, done, pend⟩) (AtPlace ⟨env, done, pend⟩) := by
      refine ⟨[.skip], ?_, fun a ha => ha⟩
      have := writes_summary (w := w) leakCount leakSize
      simpa [piecesText, Piece.text] using this
    exact (hsummary.trans htrace).congr (by simp)

/-- A group: the calls that are written together, and their backtrace. -/
structure LogGroup (w : Nat) where
  views : List (LogCall w)
  frames : List (Frame w)

/-- The group `g` stands for the calls `calls` and the backtrace `trace`. -/
structure LogGroup.Of (rd : Rd w) (resources : List (Resource w)) (calls : List Nat) (trace : Nat)
    (g : LogGroup w) : Prop where
  ne : g.views ≠ []
  views : List.Forall₂ (fun c v => callView rd c = some v ∧ PlainCall resources v) calls g.views
  frames : ∀ v ∈ g.views, v.frames = some g.frames
  trace : rd.StoredTrace trace ∧ ∃ y, rd.ftrace trace = some y ∧ y.frames = g.frames

theorem LogGroup.Of.words {calls : List Nat} {trace : Nat} {g : LogGroup w}
    (h : g.Of rd resources calls trace) :
    ∀ frame ∈ g.frames, ∀ name ∈ frame.name, LogWord name := by
  obtain ⟨v, hv⟩ := List.exists_mem_of_ne_nil _ h.ne
  obtain ⟨c, -, -, hplain⟩ := forall₂_mem_right h.views hv
  obtain ⟨frames, hframes, hwords⟩ := hplain.frames
  obtain rfl := Option.some.inj (hframes.symm.trans (h.frames v hv))
  exact hwords

def GroupBlocks (rd : Rd w) (clock : Nat → BitVec 32) (calls : List Nat) (trace : Nat)
    (blocks : List Block) : Prop :=
  ∃ callBlocks front p, blocks = callBlocks ++ [{ limit := none, pieces := front ++ [p] }] ∧
    List.Forall₂ (fun c b => callBlock rd clock c = some b) calls callBlocks ∧
    writeTrace rd trace = some p ∧
    (front = [] ∨ ∃ leakCount leakSize, front = [.summary leakCount leakSize])

/-- **A group** is read as its calls, each run of them up to a comment with
an empty backtrace. -/
theorem takes_group (hw : 32 ≤ w) (hnames : NamesAgree rd)
    (henv : env.resources = resources.map shownResource)
    (htypes : (resources.map Resource.type).Nodup) (hhash : ∀ c ∈ comments, HashLine c.text)
    {calls : List Nat} {trace : Nat} {g : LogGroup w} (hg : g.Of rd resources calls trace)
    {blocks : List Block} (hblocks : GroupBlocks rd clock calls trace blocks)
    {before done : List (LogCall w)} (hdone : OwnFrames rd done) {pieces : List Piece}
    {rest : List Comment}
    (hinter : interleave (waitingComments comments before) blocks = some (pieces, rest))
    (hshort : ShortLines (piecesText pieces)) :
    rest = waitingComments comments (before ++ g.views) ∧
    Takes junk (piecesText pieces) (∀ v ∈ g.views, CallBuffers v) (AtPlace ⟨env, done, []⟩)
      (AtPlace ⟨env, done ++ groupRead g.frames (markCalls comments before g.views), []⟩) := by
  obtain ⟨callBlocks, front, p, rfl, hcalls, hp, hfront⟩ := hblocks
  obtain ⟨hst, y, hy, hframes⟩ := hg.trace
  simp only [interleave_append, interleave_one, Block.comments, Option.bind_eq_some_iff,
    Option.map_some, Option.some.injEq, Prod.mk.injEq, List.nil_append, Prod.exists] at hinter
  obtain ⟨first, rest', hfirst, _, _, ⟨rfl, rfl⟩, rfl, rfl⟩ := hinter
  rw [piecesText_append] at hshort ⊢
  obtain ⟨hshort₁, hshort₂⟩ := hshort.of_append
  obtain ⟨hrest, htakes⟩ := takes_groupCalls junk hw henv htypes hhash before done []
    hg.views hcalls hfirst hshort₁
  set marked := markCalls comments before g.views with hmarked
  have hmarked_ne : marked ≠ [] := by
    obtain ⟨v, vs, hvs⟩ := List.exists_cons_of_ne_nil hg.ne
    rw [hmarked, hvs, markCalls]
    exact List.cons_ne_nil _ _
  have hlast : (joinCalls [] marked).2 ≠ [] := joinCalls_ne_nil (.inr hmarked_ne)
  have hcut : OwnFrames rd (done ++ (joinCalls [] marked).1) :=
    hdone.append fun v hv frames hf =>
      .inl (Option.some.inj (hf.symm.trans (mem_joinCalls hv)))
  have hend := takes_groupEnd junk env hnames hst hy hp hfront
    (by rw [hframes]; exact hg.words) hshort₂ hcut hlast
  rw [hframes, List.append_assoc] at hend
  exact ⟨hrest, (htakes.trans hend).congr (iff_of_eq (and_true _))⟩

/-- What the groups are read as, one after the other. -/
def readGroups (comments : List Comment) : List (LogCall w) → List (LogGroup w) → List (LogCall w)
  | _, [] => []
  | before, g :: groups =>
      groupRead g.frames (markCalls comments before g.views)
        ++ readGroups comments (before ++ g.views) groups

/-- All groups. -/
theorem takes_groups (hw : 32 ≤ w) (hnames : NamesAgree rd)
    (henv : env.resources = resources.map shownResource)
    (htypes : (resources.map Resource.type).Nodup) (hhash : ∀ c ∈ comments, HashLine c.text) :
    ∀ {written : List (List Nat × Nat)} {groups : List (LogGroup w)} {blocks : List (List Block)}
      {before done : List (LogCall w)} {pieces : List Piece} {rest : List Comment},
      List.Forall₂ (fun p g => g.Of rd resources p.1 p.2) written groups →
      List.Forall₂ (fun p bs => GroupBlocks rd clock p.1 p.2 bs) written blocks →
      OwnFrames rd done →
      interleave (waitingComments comments before) blocks.flatten = some (pieces, rest) →
      ShortLines (piecesText pieces) →
      rest = waitingComments comments (before ++ groups.flatMap LogGroup.views) ∧
      Takes junk (piecesText pieces) (∀ g ∈ groups, ∀ v ∈ g.views, CallBuffers v)
        (AtPlace ⟨env, done, []⟩) (AtPlace ⟨env, done ++ readGroups comments before groups, []⟩)
  | [], _, _, before, done, pieces, rest, .nil, .nil, _, hinter, _ => by
      obtain ⟨rfl, rfl⟩ := Prod.mk.inj (Option.some.inj hinter)
      refine ⟨by rw [List.flatMap_nil, List.append_nil], ?_⟩
      rw [readGroups, List.append_nil]
      exact Takes.refl.congr (by simp)
  | _ :: written, _, _, before, done, pieces, rest, .cons hg hgs, .cons hb hbs, hdone, hinter,
      hshort => by
      rename_i g groups bs blocks
      rw [List.flatten_cons, interleave_append] at hinter
      simp only [Option.bind_eq_some_iff, Option.some.injEq, Prod.mk.injEq, Prod.exists] at hinter
      obtain ⟨first, mid, hfirst, others, rest, hrest, rfl, rfl⟩ := hinter
      rw [piecesText_append] at hshort ⊢
      obtain ⟨hshort₁, hshort₂⟩ := hshort.of_append
      obtain ⟨rfl, hone⟩ := takes_group junk hw hnames henv htypes hhash hg hb hdone hfirst
        hshort₁
      obtain ⟨-, y, hy, hframes⟩ := hg.trace
      have hown : TraceFrames rd g.frames := .inr ⟨_, y, hg.trace.1, hy, hframes⟩
      obtain ⟨hcomments, hothers⟩ := takes_groups hw hnames henv htypes hhash hgs hbs
        (hdone.append (ownFrames_groupRead hown (markCalls comments before g.views))) hrest hshort₂
      refine ⟨?_, ?_⟩
      · rw [hcomments, List.flatMap_cons, List.append_assoc]
      · rw [readGroups, ← List.append_assoc]
        exact (hone.trans hothers).congr (by rw [List.forall_mem_cons])

end Group

/-! ## The groups of the writer -/

/-- The groups in which the calls are written, each with its backtrace. -/
def writerGroups (rd : Rd w) (opts : WriterOptions) : Option (List (List Nat × Nat)) :=
  if opts.compress then do
    some ((← leaksSort rd opts.compareLeaks).map fun ref => (traceCalls rd ref.ref, ref.ref))
  else rd.calls.mapM fun c => do some ([c], ← (← rd.fcall c).trace)

/-- A group with what the store knows of its calls. -/
def logGroup (rd : Rd w) (p : List Nat × Nat) : LogGroup w where
  views := p.1.filterMap (callView rd)
  frames := ((rd.ftrace p.2).map Ftrace.frames).getD []

section WriterGroups

variable {rd : Rd w} {clock : Nat → BitVec 32} {opts : WriterOptions}
  {written : List (List Nat × Nat)}

/-- The blocks of the writer are those of its groups. -/
theorem callBlocks_groups (h : Referenced rd) {blocks : List Block}
    (hblocks : callBlocks rd opts clock = some blocks) (htraced : ∀ c ∈ rd.calls, HasTrace rd c) :
    ∃ written groups, writerGroups rd opts = some written ∧ blocks = groups.flatten ∧
      List.Forall₂ (fun p bs => GroupBlocks rd clock p.1 p.2 bs) written groups := by
  unfold callBlocks at hblocks
  unfold writerGroups
  by_cases hcompress : opts.compress = true
  · rw [if_pos hcompress] at hblocks ⊢
    simp only [Option.bind_eq_bind, Option.bind_eq_some_iff, Option.some.injEq] at hblocks
    obtain ⟨refs, hrefs, groups, hgroups, rfl⟩ := hblocks
    obtain ⟨traces, -, hmem, rfl⟩ := leaksSort_perm h hrefs
    refine ⟨_, groups, by rw [hrefs]; rfl, rfl, ?_⟩
    rw [mapM_eq_some_iff, List.forall₂_map_left_iff] at hgroups
    rw [List.map_map, List.forall₂_map_left_iff]
    refine forall₂_imp_mem hgroups fun t ht bs _ hbs => ?_
    obtain ⟨y, hy⟩ := h.stored_live t ((hmem t).mp ht)
    have hmap := groupCalls_mapM h clock ((hmem t).mp ht) hy
    simp only [Option.bind_eq_bind] at hmap
    simp only [groupBlocks, show (traceTotals rd t).ref = t from rfl, hy, Option.bind_eq_bind,
      Option.bind_some, hmap, Option.bind_eq_some_iff, Option.some.injEq] at hbs
    obtain ⟨calls, hcalls, p, hp, rfl⟩ := hbs
    exact ⟨calls, [_], p, rfl, mapM_eq_some_iff.mp hcalls, hp, .inr ⟨_, _, rfl⟩⟩
  · rw [if_neg hcompress] at hblocks ⊢
    simp only [Option.bind_eq_bind, Option.bind_eq_some_iff, Option.some.injEq] at hblocks
    obtain ⟨groups, hgroups, rfl⟩ := hblocks
    rw [mapM_eq_some_iff] at hgroups
    generalize rd.calls = calls at hgroups htraced
    induction hgroups with
    | nil => exact ⟨[], [], rfl, rfl, .nil⟩
    | @cons c bs calls groups hbs _ ih =>
      obtain ⟨written, groups', hwritten, hflat, hall⟩ :=
        ih fun c' hc' => htraced c' (List.mem_cons_of_mem c hc')
      obtain ⟨t, ht⟩ := htraced c (by simp)
      obtain ⟨x, hx, htrace⟩ := Option.bind_eq_some_iff.mp ht
      simp only [plainBlocks, hx, htrace, Option.bind_eq_bind, Option.bind_some,
        Option.bind_eq_some_iff, Option.some.injEq] at hbs
      obtain ⟨b, hb, p, hp, rfl⟩ := hbs
      refine ⟨([c], t) :: written, _ :: groups', ?_, by rw [List.flatten_cons, hflat]; rfl,
        .cons ⟨[b], [], p, rfl, .cons hb .nil, hp, .inl rfl⟩ hall⟩
      simp only [Option.bind_eq_bind] at hwritten
      simp [List.mapM_cons, hx, htrace, hwritten]

/-- A group has calls, which all have its backtrace, and every call is in
one group. -/
theorem writerGroups_spec (h : rd.Integrity) (hsize : 0 < rd.ftraces.size)
    (htraced : ∀ c ∈ rd.calls, HasTrace rd c) (hgroups : writerGroups rd opts = some written) :
    (written.flatMap Prod.fst).Perm rd.calls ∧ ∀ p ∈ written, p.1 ≠ [] ∧
      ∀ c ∈ p.1, c ∈ rd.calls ∧ (rd.fcall c).bind Fcall.trace = some p.2 := by
  have href := Linked.referenced h.toLinked hsize
  unfold writerGroups at hgroups
  by_cases hcompress : opts.compress = true
  · rw [if_pos hcompress] at hgroups
    simp only [Option.bind_eq_bind, Option.bind_eq_some_iff, Option.some.injEq] at hgroups
    obtain ⟨refs, hrefs, rfl⟩ := hgroups
    obtain ⟨traces, hnd, hmem, rfl⟩ := leaksSort_perm href hrefs
    have hall : (rd.calls.filter fun c => ((rd.fcall c).bind Fcall.trace).isSome) = rd.calls :=
      List.filter_eq_self.mpr fun c hc => Option.isSome_iff_exists.mpr (htraced c hc)
    refine ⟨?_, fun p hp => ?_⟩
    · have hperm := traceCalls_perm href hnd hmem
      rw [hall] at hperm
      rw [List.map_map, List.flatMap_map]
      exact hperm
    · rw [List.map_map] at hp
      obtain ⟨t, ht, rfl⟩ := List.mem_map.mp hp
      have hst := (hmem t).mp ht
      obtain ⟨c, hc⟩ := traceCalls_nonempty h hsize hst
      exact ⟨List.ne_nil_of_mem hc, fun c hc => (mem_traceCalls href hst).mp hc⟩
  · rw [if_neg hcompress, mapM_eq_some_iff] at hgroups
    have hone : List.Forall₂ (fun c (p : List Nat × Nat) => p.1 = [c] ∧
        (rd.fcall c).bind Fcall.trace = some p.2) rd.calls written := by
      refine hgroups.imp fun c p hp => ?_
      simp only [Option.bind_eq_bind, Option.bind_eq_some_iff, Option.some.injEq] at hp
      obtain ⟨x, hx, t, ht, rfl⟩ := hp
      exact ⟨rfl, Option.bind_eq_some_iff.mpr ⟨x, hx, ht⟩⟩
    refine ⟨?_, fun p hp => ?_⟩
    · have hflat : written.flatMap Prod.fst = rd.calls := by
        clear hgroups
        generalize rd.calls = calls at hone
        induction hone with
        | nil => rfl
        | cons hp _ ih => rw [List.flatMap_cons, hp.1, ih]; rfl
      rw [hflat]
    · obtain ⟨c, hc, hp⟩ := forall₂_mem_right hone hp
      rw [hp.1]
      refine ⟨by simp, fun c' hc' => ?_⟩
      obtain rfl := List.mem_singleton.mp hc'
      exact ⟨hc, hp.2⟩

/-- With one backtrace there is one compressed group. -/
theorem leaksSort_one (h : rd.Integrity) (hsize : 0 < rd.ftraces.size) (hne : rd.calls ≠ [])
    {t : Nat} (htrace : ∀ c ∈ rd.calls, (rd.fcall c).bind Fcall.trace = some t)
    (cmp : LeaksCompare) : leaksSort rd cmp = some [traceTotals rd t] := by
  have href := Linked.referenced h.toLinked hsize
  have hstored : ∀ u, rd.StoredTrace u ↔ u = t := by
    intro u
    constructor
    · intro hst
      obtain ⟨c, hc⟩ := traceCalls_nonempty h hsize hst
      obtain ⟨hmem, hu⟩ := (mem_traceCalls href hst).mp hc
      exact Option.some.inj (hu.symm.trans (htrace c hmem))
    · intro heq
      subst heq
      obtain ⟨c, hc⟩ := List.exists_mem_of_ne_nil _ hne
      obtain ⟨x, hx, hxt⟩ := Option.bind_eq_some_iff.mp (htrace c hc)
      exact (h.call_trace c hc x u hx hxt).1
  have hnodes : htableNodes rd.ftraces = [t] := by
    obtain ⟨hnd, hmem⟩ := href.nodes
    refine List.perm_singleton.mp ((List.perm_ext_iff_of_nodup hnd (by simp)).mpr fun u => ?_)
    rw [hmem, hstored, List.mem_singleton]
  rw [leaksSort_spec href, hnodes]
  rfl

/-- The calls are in the log's format, with resources of the log. -/
def PlainCalls (rd : Rd w) : Prop :=
  ∀ c ∈ rd.calls, ∃ v, callView rd c = some v ∧ PlainCall (storedResources rd) v

/-- A call with frames has a backtrace. -/
theorem hasTrace_of_frames {c : Nat} {v : LogCall w} {frames : List (Frame w)}
    (hv : callView rd c = some v) (hframes : v.frames = some frames) : HasTrace rd c := by
  obtain ⟨x, res, fr, hx, -, hfr, rfl⟩ := callView_eq_some.mp hv
  obtain rfl : fr = some frames := hframes
  cases htrace : x.trace with
  | none => rw [htrace] at hfr; cases hfr
  | some t => exact ⟨t, Option.bind_eq_some_iff.mpr ⟨x, hx, htrace⟩⟩

theorem PlainCalls.hasTrace (h : PlainCalls rd) : ∀ c ∈ rd.calls, HasTrace rd c := by
  intro c hc
  obtain ⟨v, hv, hplain⟩ := h c hc
  obtain ⟨frames, hframes, -⟩ := hplain.frames
  exact hasTrace_of_frames hv hframes

/-- A call of a group has the frames of the group. -/
theorem callView_frames {c t : Nat} {v : LogCall w} (hv : callView rd c = some v)
    (htrace : (rd.fcall c).bind Fcall.trace = some t) :
    ∃ y, rd.ftrace t = some y ∧ v.frames = some y.frames := by
  obtain ⟨x, hx, ht⟩ := Option.bind_eq_some_iff.mp htrace
  obtain ⟨x', res, fr, hx', -, hfr, rfl⟩ := callView_eq_some.mp hv
  obtain rfl := Option.some.inj (hx.symm.trans hx')
  rw [ht] at hfr
  simp only [callFrames, Option.bind_eq_bind, Option.bind_eq_some_iff] at hfr
  obtain ⟨y, hy, heq⟩ := hfr
  exact ⟨y, hy, (Option.some.inj heq).symm⟩

/-- The groups of the writer are groups of the log. -/
theorem logGroup_of (h : rd.Integrity) (hplain : PlainCalls rd) {p : List Nat × Nat}
    (hne : p.1 ≠ []) (hp : ∀ c ∈ p.1, c ∈ rd.calls ∧ (rd.fcall c).bind Fcall.trace = some p.2) :
    (logGroup rd p).Of rd (storedResources rd) p.1 p.2 := by
  have hlive : ∀ c ∈ p.1, ∃ v, callView rd c = some v := fun c hc =>
    (hplain c (hp c hc).1).imp fun _ hv => hv.1
  have hviews : List.Forall₂ (fun c v => callView rd c = some v ∧ PlainCall (storedResources rd) v)
      p.1 (p.1.filterMap (callView rd)) :=
    forall₂_imp_mem (forall₂_filterMap hlive) fun c hc v _ hv => by
      obtain ⟨u, hu, hcall⟩ := hplain c (hp c hc).1
      obtain rfl := Option.some.inj (hv.symm.trans hu)
      exact ⟨hv, hcall⟩
  obtain ⟨c, hc⟩ := List.exists_mem_of_ne_nil _ hne
  obtain ⟨hmem, htrace⟩ := hp c hc
  obtain ⟨x, hx, ht⟩ := Option.bind_eq_some_iff.mp htrace
  obtain ⟨hst, -⟩ := h.call_trace c hmem x p.2 hx ht
  obtain ⟨y, hy, -⟩ := h.stored_live p.2 hst
  have hframes : (logGroup rd p).frames = y.frames := by rw [logGroup, hy]; rfl
  refine ⟨?_, hviews, fun v hv => ?_, hst, y, hy, hframes.symm⟩
  · obtain ⟨v, hv, -⟩ := forall₂_mem_left hviews hc
    exact List.ne_nil_of_mem hv
  · obtain ⟨c', hc', hview, -⟩ := forall₂_mem_right hviews hv
    obtain ⟨y', hy', hvf⟩ := callView_frames hview (hp c' hc').2
    obtain rfl := Option.some.inj (hy.symm.trans hy')
    rw [hvf, hframes]

/-- **The call part of a log** is read as its groups. -/
theorem takes_calls (junk : Nat → Context w) (hw : 32 ≤ w) (h : rd.Integrity)
    (hsize : 0 < rd.ftraces.size) (hnames : NamesAgree rd) {env : LogEnv w}
    (henv : env.resources = (storedResources rd).map shownResource)
    (htypes : ((storedResources rd).map Resource.type).Nodup) (hplain : PlainCalls rd)
    (hhash : ∀ c ∈ rd.comments, HashLine c.text) {pieces : List Piece}
    (hpieces : writeTraceCalls rd opts clock = some pieces) (hshort : ShortLines (piecesText pieces)) :
    ∃ written, writerGroups rd opts = some written ∧
      Takes junk (piecesText pieces) (∀ c ∈ rd.calls, ∀ v ∈ callView rd c, CallBuffers v)
        (AtPlace ⟨env, [], []⟩)
        (AtPlace ⟨env, readGroups rd.comments [] (written.map (logGroup rd)), []⟩) := by
  rw [writeTraceCalls_eq] at hpieces
  simp only [interleave_append, interleave_one, Option.bind_eq_some_iff, Option.map_eq_some_iff,
    Option.some.injEq, Prod.exists] at hpieces
  obtain ⟨blocks, hblocks, _, _, ⟨first, rest, hfirst, _, _, ⟨last, rest', hlast, hsplit⟩, heq⟩,
    rfl⟩ := hpieces
  obtain ⟨rfl, rfl⟩ := Prod.mk.inj hsplit
  obtain ⟨rfl, -⟩ := Prod.mk.inj heq
  simp only [lastBlock, Block.comments, writeComments_eq, Option.map_eq_some_iff,
    Prod.mk.injEq] at hlast
  obtain ⟨texts, htexts, rfl, -⟩ := hlast
  have href := Linked.referenced h.toLinked hsize
  obtain ⟨written, groups, hwritten, rfl, hall⟩ :=
    callBlocks_groups href hblocks hplain.hasTrace
  obtain ⟨hperm, hgroup⟩ := writerGroups_spec h hsize hplain.hasTrace hwritten
  refine ⟨written, hwritten, ?_⟩
  rw [show (lastBlock w).pieces = [] from rfl, List.append_nil, piecesText_append,
    piecesText_comments] at hshort ⊢
  rw [← waitingComments_nil (w := w) rd.comments] at hfirst
  have hof : List.Forall₂ (fun p g => g.Of rd (storedResources rd) p.1 p.2) written
      (written.map (logGroup rd)) := by
    rw [List.forall₂_map_right_iff, List.forall₂_same]
    exact fun p hp => logGroup_of h hplain (hgroup p hp).1 (hgroup p hp).2
  have hnone : OwnFrames rd ([] : List (LogCall w)) := fun v hv => by cases hv
  obtain ⟨hrest, hgroups⟩ := takes_groups junk hw hnames henv htypes hhash hof hall
    hnone hfirst hshort.of_append.1
  have hlines : ∀ t ∈ texts, HashLine t := by
    intro t ht
    obtain ⟨c, hc, hprint⟩ := forall₂_mem_right (mapM_eq_some_iff.mp htexts) ht
    have hwait : c ∈ rest := (List.takeWhile_sublist _).subset hc
    rw [hrest] at hwait
    exact (hhash c ((List.dropWhile_sublist _).subset hwait)).printFormat hprint
  have hlast := takes_comments junk env
    (readGroups rd.comments [] (written.map (logGroup rd))) [] hlines
  rw [withFrames_nil, List.append_nil, ite_self] at hlast
  refine (hgroups.trans hlast).congr ?_
  rw [and_true]
  constructor
  · intro hfits c hc v hv
    obtain ⟨p, hp, hcp⟩ := List.mem_flatMap.mp (hperm.mem_iff.mpr hc)
    exact hfits _ (List.mem_map_of_mem hp) v (List.mem_filterMap.mpr ⟨c, hcp, hv⟩)
  · intro hfits g hg v hv
    obtain ⟨p, hp, rfl⟩ := List.mem_map.mp hg
    obtain ⟨c, hc, hview⟩ := List.mem_filterMap.mp hv
    exact hfits c (hperm.mem_iff.mp (List.mem_flatMap.mpr ⟨p, hp, hc⟩)) v hview

end WriterGroups

/-! ## The calls of the groups -/

theorem markCalls_snd (comments : List Comment) (before views : List (LogCall w)) :
    (markCalls comments before views).map Prod.snd = views.map bareCall := by
  induction views generalizing before with
  | nil => rfl
  | cons v views ih => rw [markCalls, List.map_cons, List.map_cons, ih]

/-! ## Groups that no comment interrupts -/

/-- In every group whose backtrace has frames, no comment falls due between
two calls. -/
def QuietGroups (comments : List Comment) : List (LogCall w) → List (LogGroup w) → Prop
  | _, [] => True
  | before, g :: groups =>
      (g.frames = [] ∨ ∀ m ∈ (markCalls comments before g.views).tail, m.1 = false) ∧
      QuietGroups comments (before ++ g.views) groups

/-- The calls of a group have its frames. -/
def LogGroup.Framed (g : LogGroup w) : Prop := ∀ v ∈ g.views, v.frames = some g.frames

theorem withFrames_bareCall {frames : List (Frame w)} {views : List (LogCall w)}
    (h : ∀ v ∈ views, v.frames = some frames) :
    withFrames frames (views.map bareCall) = views.map shownCall := by
  rw [withFrames, List.map_map]
  refine List.map_congr_left fun v hv => ?_
  rw [Function.comp_apply, bareCall, ← h v hv]
  rfl

/-- Without frames it does not matter where the comments are. -/
theorem joinCalls_empty (pend : List (LogCall w)) (marked : List (Bool × LogCall w)) :
    (joinCalls pend marked).1 ++ withFrames [] (joinCalls pend marked).2
      = withFrames [] (pend ++ marked.map Prod.snd) := by
  induction marked generalizing pend with
  | nil => rw [joinCalls, List.nil_append, List.map_nil, List.append_nil]
  | cons m marked ih =>
    obtain ⟨due, v⟩ := m
    cases due with
    | true =>
      rw [joinCalls, List.append_assoc, ih, ← withFrames_append]
      simp
    | false =>
      rw [joinCalls, ih]
      simp

theorem joinCalls_quiet {pend : List (LogCall w)} {marked : List (Bool × LogCall w)}
    (h : ∀ m ∈ marked, m.1 = false) :
    joinCalls pend marked = ([], pend ++ marked.map Prod.snd) := by
  induction marked generalizing pend with
  | nil => simp [joinCalls]
  | cons m marked ih =>
    obtain ⟨due, v⟩ := m
    obtain rfl : due = false := h _ List.mem_cons_self
    rw [joinCalls, ih fun m hm => h m (List.mem_cons_of_mem _ hm)]
    simp

/-- A comment in front of the first call cuts nothing off. -/
theorem joinCalls_first (m : Bool × LogCall w) (marked : List (Bool × LogCall w)) :
    joinCalls [] (m :: marked) = joinCalls [m.2] marked := by
  obtain ⟨due, v⟩ := m
  cases due <;> simp [joinCalls]

/-- A comment between two calls leaves a call without frames. -/
theorem joinCalls_cut {pend : List (LogCall w)} {marked : List (Bool × LogCall w)}
    (hne : pend ≠ []) (h : ∃ m ∈ marked, m.1 = true) :
    ∃ v ∈ pend ++ marked.map Prod.snd, { v with frames := some [] } ∈ (joinCalls pend marked).1 := by
  induction marked generalizing pend with
  | nil =>
    obtain ⟨m, hm, -⟩ := h
    cases hm
  | cons m marked ih =>
    obtain ⟨due, u⟩ := m
    cases due with
    | true =>
      obtain ⟨v, hv⟩ := List.exists_mem_of_ne_nil _ hne
      exact ⟨v, List.mem_append_left _ hv, List.mem_append_left _ (List.mem_map_of_mem hv)⟩
    | false =>
      obtain ⟨m', hm', hdue⟩ := h
      have hrest : ∃ m ∈ marked, m.1 = true := by
        rcases List.mem_cons.mp hm' with rfl | hm'
        · cases hdue
        · exact ⟨m', hm', hdue⟩
      have hnext : pend ++ [u] ≠ [] := by simp
      obtain ⟨v, hv, hcut⟩ := ih hnext hrest
      exact ⟨v, by simpa using hv, hcut⟩

/-- **A quiet group is read as it was.** -/
theorem groupRead_quiet {comments : List Comment} {before : List (LogCall w)} {g : LogGroup w}
    (hg : g.Framed)
    (h : g.frames = [] ∨ ∀ m ∈ (markCalls comments before g.views).tail, m.1 = false) :
    groupRead g.frames (markCalls comments before g.views) = g.views.map shownCall := by
  rw [← withFrames_bareCall hg, ← markCalls_snd comments before, groupRead]
  rcases h with hnil | hquiet
  · rw [hnil, joinCalls_empty, List.nil_append]
  · cases hmarked : markCalls comments before g.views with
    | nil => rfl
    | cons m marked =>
      have hflags : ∀ m' ∈ marked, m'.1 = false := by
        rw [hmarked] at hquiet
        exact hquiet
      rw [joinCalls_first, joinCalls_quiet hflags]
      rfl

/-- In another group a call loses its frames. -/
theorem groupRead_cut {comments : List Comment} {before : List (LogCall w)} {g : LogGroup w}
    (h : ¬ ∀ m ∈ (markCalls comments before g.views).tail, m.1 = false) :
    ∃ v ∈ g.views, { shownCall v with frames := some [] }
      ∈ groupRead g.frames (markCalls comments before g.views) := by
  push Not at h
  obtain ⟨m', hm', hdue⟩ := h
  have hsnd := markCalls_snd comments before g.views
  cases hmarked : markCalls comments before g.views with
  | nil =>
    rw [hmarked] at hm'
    cases hm'
  | cons m marked =>
    rw [hmarked] at hm' hsnd
    obtain ⟨u, hu, hcut⟩ := joinCalls_cut (List.cons_ne_nil m.2 [])
      ⟨m', hm', Bool.not_eq_false _ ▸ hdue⟩
    have hmem : u ∈ g.views.map bareCall := by
      rw [← hsnd]
      exact hu
    obtain ⟨v, hv, rfl⟩ := List.mem_map.mp hmem
    refine ⟨v, hv, List.mem_append_left _ ?_⟩
    rw [joinCalls_first]
    exact hcut

/-- **Quiet groups are read as they were.** -/
theorem readGroups_quiet {comments : List Comment} {before : List (LogCall w)}
    {groups : List (LogGroup w)} (hframed : ∀ g ∈ groups, g.Framed)
    (h : QuietGroups comments before groups) :
    readGroups comments before groups = (groups.flatMap LogGroup.views).map shownCall := by
  induction groups generalizing before with
  | nil => rfl
  | cons g groups ih =>
    rw [readGroups, groupRead_quiet (hframed g (by simp)) h.1,
      ih (fun g' hg' => hframed g' (by simp [hg'])) h.2, List.flatMap_cons, List.map_append]

/-- Otherwise a call with frames is read without. -/
theorem readGroups_cut {comments : List Comment} {before : List (LogCall w)}
    {groups : List (LogGroup w)} (h : ¬ QuietGroups comments before groups) :
    ∃ g ∈ groups, g.frames ≠ [] ∧ ∃ v ∈ g.views,
      { shownCall v with frames := some [] } ∈ readGroups comments before groups := by
  induction groups generalizing before with
  | nil => exact absurd trivial h
  | cons g groups ih =>
    by_cases hhead : g.frames = [] ∨ ∀ m ∈ (markCalls comments before g.views).tail, m.1 = false
    · obtain ⟨g', hg', hne, v, hv, hmem⟩ := ih fun hrest => h ⟨hhead, hrest⟩
      exact ⟨g', List.mem_cons_of_mem g hg', hne, v, hv, List.mem_append_right _ hmem⟩
    · rw [not_or] at hhead
      obtain ⟨v, hv, hmem⟩ := groupRead_cut hhead.2
      exact ⟨g, List.mem_cons_self, hhead.1, v, hv, List.mem_append_left _ hmem⟩

end SpRtrace.Postproc
