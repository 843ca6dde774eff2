/-
SpRtrace.Postproc.EmittedCalls — the calls of a traced process in the log.

A tracing module chooses the names of a call, but not what its caller
passes: the values of the arguments are any text that stays in its line.
Such a value does not come back as it was, and a line without a value
even ends the group of its call. What comes back whatever the groups are
is the record of the call, so these proofs follow `LogState.records`
alone: `takes_emittedCall` for one call, `takes_blocks` for the blocks of
the writer with the comments among them, `takes_emittedCalls` for the
calls of a log.
-/
import SpRtrace.Postproc.CallLog
import SpRtrace.Postproc.LogRecords

namespace SpRtrace.Postproc

open SpRtrace.Lib SpRtrace.Common SpRtrace.Library

variable {w : Nat}

/-! ## Arguments -/

/-- **A printed argument of any value** is read as an argument, or as a
comment if there is no word behind the sign. -/
theorem parseRecord_printArg_value {arg : Farg}
    (hname : arg.name ≠ [] ∧ arg.name.length < 128 ∧ ∀ c ∈ arg.name, isSpace c = false)
    (hvalue : arg.value.length + 2 < pathMax) :
    ∃ rec : Record w, spRtraceParserParseRecord recordAll (printArg arg) = some rec ∧
      ((∃ arg', rec = .arg arg') ∨ rec = .comment) := by
  obtain ⟨name, value⟩ := arg
  obtain ⟨r, hr⟩ : ∃ r, sscanf w [.space, .conv (.word pathMax)] (' ' :: (value ++ ['\n'])) = some r :=
    sscanf_fits fun k hk n hn => by
      obtain rfl : k = .word pathMax := by simpa using hk
      obtain rfl : pathMax = n := by simpa [Conv.bufferSize] using hn
      simpa using hvalue
  have hscan : sscanf w argumentsFormat
      ('\t' :: '$' :: (name ++ ' ' :: '=' :: ' ' :: (value ++ ['\n'])))
      = some { r with values := .text name :: r.values } := by
    rw [argumentsFormat, sscanf_space, show skipSpace ('\t' :: '$' :: _) = '$' :: _ from rfl,
      sscanf_lit, sscanf_conv (scanConv_word hname.1 hname.2.2 (by simp; decide) hname.2.1),
      sscanf_space, skipSpace_blank, skipSpace_cons (by decide), sscanf_lit, hr]
    rfl
  have hargs : parseArguments w recordAll (printArg { name, value }) = .fail ∨
      ∃ arg', parseArguments w recordAll (printArg { name, value }) = .ok arg' := by
    rw [printArg_text, parseArguments, if_neg (by simp), scan_eq hscan, ParseResult.ok_bind]
    split
    · exact .inr ⟨_, rfl⟩
    · exact .inl rfl
  rw [printArg_text] at hargs ⊢
  rw [parseRecord_dollar, parseMemoryMapping_ne (by decide), parseContextRegistry_ne (by decide),
    parseResourceRegistry_ne (by decide), parseFileAttachment_ne (by decide)]
  rcases hargs with hfail | ⟨arg', hok⟩
  · exact ⟨.comment, by rw [hfail]; rfl, .inr rfl⟩
  · exact ⟨.arg arg', by rw [hok]; rfl, .inl ⟨arg', rfl⟩⟩

/-- The line of such an argument. -/
theorem writes_argValue {arg : Farg} (hname : LogWord arg.name) (hvalue : '\n' ∉ arg.value)
    (hshort : ShortLines (printArg arg)) :
    ∃ ev : LogEvent w, Writes w (printArg arg) [ev] (arg.name.length < 128) ∧
      ((∃ arg', ev = .arg arg') ∨ ev = .record .comment (printArg arg)) := by
  have hplain := fun c hc => (hname.plain c hc).1
  have hnl : Newline (printArg arg) := by
    refine ⟨'\t' :: '$' :: (arg.name ++ [' ', '=', ' '] ++ arg.value), by simp [printArg], ?_⟩
    simp [hname.no_newline, hvalue]
  have hhash : (printArg arg).head? ≠ some '#' := by simp [printArg]
  have hlen : arg.value.length + 2 < pathMax := by
    have := hshort [] ('\t' :: '$' :: (arg.name ++ [' ', '=', ' '] ++ arg.value)) ['\n']
      (by simp [printArg]) (by simp [hname.no_newline, hvalue])
    rw [pathMax]
    simp only [List.length_append, List.length_cons, List.length_nil] at this
    omega
  have hfits : ∀ r : Record w, spRtraceParserParseRecord recordAll (printArg arg) = some r →
      arg.name.length < 128 := fun r hr => parseRecord_printArg_fits hname.ne hplain hr
  have hcomment : recordEvent (printArg arg) (.comment : Record w) = .record .comment (printArg arg) := by
    simp [recordEvent, printArg]
  by_cases hbuffer : arg.name.length < 128
  · obtain ⟨rec, hrec, hkind⟩ := parseRecord_printArg_value (w := w) ⟨hname.ne, hbuffer, hplain⟩ hlen
    refine ⟨recordEvent (printArg arg) rec, .parsed hnl hhash (fun _ => hrec) hfits, ?_⟩
    rcases hkind with ⟨arg', rfl⟩ | rfl
    · exact .inl ⟨arg', rfl⟩
    · exact .inr hcomment
  · -- the line is no event, so it may be called a comment
    exact ⟨recordEvent (printArg arg) .comment,
      .parsed hnl hhash (fun h => absurd h hbuffer) hfits, .inr hcomment⟩

/-! ## The records of a reader -/

/-- The reader has read the environment `env` and the calls `records`. -/
def AtRecords (env : LogEnv w) (records : List (CallRecord w)) (a : LogState w) : Prop :=
  a.env = env ∧ a.records = records

def shownRecord (r : CallRecord w) : CallRecord w := { r with resType := shownField r.resType }

def shownRecords (views : List (LogCall w)) : List (CallRecord w) :=
  views.map fun v => shownRecord v.record

@[simp] theorem shownRecords_nil : shownRecords ([] : List (LogCall w)) = [] := rfl

@[simp] theorem shownRecords_append (us vs : List (LogCall w)) :
    shownRecords (us ++ vs) = shownRecords us ++ shownRecords vs := List.map_append

section Records

variable {junk : Nat → Context w} {text : Str} {fits : Prop} {evs : List (LogEvent w)}
  {env : LogEnv w} {records : List (CallRecord w)}

/-- A reader between two groups has the records of its calls. -/
theorem AtPlace.atRecords {done : List (LogCall w)} {a : LogState w} (h : AtPlace ⟨env, done, []⟩ a) :
    AtRecords env (done.map LogCall.record) a := by
  obtain ⟨henv, hdone, hpend, -⟩ := h
  refine ⟨henv, ?_⟩
  rw [LogState.records, hdone, LogState.flushArgs_pend_eq_nil.mp hpend, List.append_nil]

theorem AtRecords.step {a : LogState w} (h : AtRecords env records a) (ev : LogEvent w) :
    AtRecords (env.see junk ev) (records ++ newRecords env ev) (a.step junk ev) := by
  refine ⟨?_, ?_⟩
  · rw [LogState.step_env, h.1]
  · rw [LogState.step_records, h.1, h.2]

/-- No call and no record of the environment. -/
def LogEvent.Silent (ev : LogEvent w) : Prop :=
  ∀ (junk : Nat → Context w) (env : LogEnv w), env.see junk ev = env ∧ newRecords env ev = []

theorem silent_comment (line : Str) : (LogEvent.record .comment line : LogEvent w).Silent :=
  fun _ _ => ⟨rfl, rfl⟩

/-- Lines that are neither leave the records alone. -/
theorem Writes.takesSilent (h : Writes w text evs fits) (hsilent : ∀ ev ∈ evs, ev.Silent) :
    Takes junk text fits (AtRecords env records) (AtRecords env records) := by
  refine ⟨evs, h, ?_⟩
  clear h
  induction evs with
  | nil => exact fun a ha => ha
  | cons ev evs ih =>
    intro a ha
    obtain ⟨henv, hnew⟩ := hsilent ev (by simp) junk env
    have hstep : AtRecords (env.see junk ev) _ (a.step junk ev) := ha.step ev
    rw [henv, hnew, List.append_nil] at hstep
    exact ih (fun ev' hev' => hsilent ev' (List.mem_cons_of_mem ev hev')) _ hstep

/-- So do the arguments of a call. -/
theorem takes_argValues {args : List Farg} (hargs : ∀ arg ∈ args, LogWord arg.name ∧ '\n' ∉ arg.value)
    (hshort : ShortLines (spRtracePrintArgs args)) :
    Takes junk (spRtracePrintArgs args) (∀ arg ∈ args, arg.name.length < 128)
      (AtRecords env records) (AtRecords env records) := by
  induction args with
  | nil => exact Takes.refl.congr (by simp)
  | cons arg args ih =>
    obtain ⟨hname, hvalue⟩ := hargs arg (by simp)
    have htext : spRtracePrintArgs (arg :: args) = printArg arg ++ spRtracePrintArgs args :=
      List.flatMap_cons
    rw [htext] at hshort ⊢
    obtain ⟨ev, hwrites, hkind⟩ := writes_argValue (w := w) hname hvalue hshort.of_append.1
    have hsilent : ev.Silent := by
      rcases hkind with ⟨arg', rfl⟩ | rfl
      · exact fun _ _ => ⟨rfl, rfl⟩
      · exact silent_comment _
    have hone : Takes junk (printArg arg) _ (AtRecords env records) (AtRecords env records) :=
      hwrites.takesSilent (by simpa using hsilent)
    exact (hone.trans (ih (fun arg' harg' => hargs arg' (List.mem_cons_of_mem arg harg'))
      hshort.of_append.2)).congr (by simp)

end Records

/-! ## Calls -/

/-- A call of a traced process. But for the values of its arguments it is in
the format of the log; these stay in their lines. -/
structure EmittedCall (resources : List (Resource w)) (v : LogCall w) : Prop where
  plain : PlainCall resources { v with args := [] }
  args : ∀ arg ∈ v.args, LogWord arg.name ∧ '\n' ∉ arg.value

section Calls

variable (junk : Nat → Context w) {env : LogEnv w} {resources : List (Resource w)}

/-- **A call of a traced process** adds its record. -/
theorem takes_emittedCall (hw : 32 ≤ w) (henv : env.resources = resources.map shownResource)
    (htypes : (resources.map Resource.type).Nodup) {v : LogCall w} (h : EmittedCall resources v)
    (hshort : ShortLines (printCallLine v.record ++ spRtracePrintArgs v.args))
    (records : List (CallRecord w)) :
    Takes junk (printCallLine v.record ++ spRtracePrintArgs v.args) (CallBuffers v)
      (AtRecords env records) (AtRecords env (records ++ [shownRecord v.record])) := by
  set ev : LogEvent w := .call { v.record with resType := v.record.resType.reread } with hev
  have hwrites : Writes w (printCallLine v.record) [ev]
      (ScannableName v.record.name v.record.resType.resName) :=
    writes_callLine hw h.plain.name h.plain.typeWord h.plain.time h.plain.kind
  have hread : newRecords env ev = [shownRecord v.record] := by
    have hfind := h.plain.findResource htypes
    rw [← henv] at hfind
    simp only [hev, newRecords, readCall, shownRecord, ← hfind]
  have hline : Takes junk (printCallLine v.record)
      (ScannableName v.record.name v.record.resType.resName) (AtRecords env records)
      (AtRecords env (records ++ [shownRecord v.record])) := by
    refine ⟨[ev], hwrites, fun a ha => ?_⟩
    have hstep : AtRecords (env.see junk ev) _ (a.step junk ev) := ha.step ev
    rw [hread] at hstep
    exact hstep
  refine (hline.trans (takes_argValues h.args hshort.of_append.2)).congr ?_
  rw [h.plain.scannable_iff]
  constructor
  · rintro ⟨⟨hn, ht⟩, ha⟩
    exact ⟨hn, ht, ha⟩
  · exact fun hb => ⟨⟨hb.name, hb.type⟩, hb.args⟩

end Calls

/-! ## Blocks -/

/-- The block shows the reader the calls `views`. -/
def BlockShows (junk : Nat → Context w) (env : LogEnv w) (b : Block) (views : List (LogCall w)) : Prop :=
  ShortLines (piecesText b.pieces) → ∀ records,
    Takes junk (piecesText b.pieces) (∀ v ∈ views, CallBuffers v)
      (AtRecords env records) (AtRecords env (records ++ shownRecords views))

section Blocks

variable {junk : Nat → Context w} {env : LogEnv w}

/-- The comments in front of a block are those of the store, and change
nothing. -/
theorem takes_blockComments {b : Block} {comments rest : List Comment} {pieces : List Piece}
    (hhash : ∀ c ∈ comments, HashLine c.text) (h : b.comments comments = some (pieces, rest))
    (records : List (CallRecord w)) :
    (∀ c ∈ rest, c ∈ comments) ∧
      Takes junk (piecesText pieces) True (AtRecords env records) (AtRecords env records) := by
  cases hlimit : b.limit with
  | none =>
    rw [Block.comments, hlimit] at h
    obtain ⟨rfl, rfl⟩ := Prod.mk.inj (Option.some.inj h)
    exact ⟨fun c hc => hc, .refl⟩
  | some limit =>
    rw [Block.comments, hlimit] at h
    simp only [writeComments_eq, Option.map_eq_some_iff, Prod.mk.injEq] at h
    obtain ⟨texts, htexts, rfl, rfl⟩ := h
    refine ⟨fun c hc => (List.dropWhile_sublist _).subset hc, ?_⟩
    rw [piecesText_comments]
    have hlines : ∀ t ∈ texts, HashLine t := by
      intro t ht
      obtain ⟨c, hc, hprint⟩ := forall₂_mem_right (mapM_eq_some_iff.mp htexts) ht
      exact (hhash c ((List.takeWhile_sublist _).subset hc)).printFormat hprint
    refine (writes_comments hlines).takesSilent fun ev hev => ?_
    obtain ⟨t, -, rfl⟩ := List.mem_map.mp hev
    exact silent_comment t

/-- **Blocks with comments among them** show the calls of the blocks. -/
theorem takes_blocks {blocks : List Block} {views : List (List (LogCall w))}
    (h : List.Forall₂ (BlockShows junk env) blocks views) {comments rest : List Comment}
    {pieces : List Piece} (hhash : ∀ c ∈ comments, HashLine c.text)
    (hinter : interleave comments blocks = some (pieces, rest))
    (hshort : ShortLines (piecesText pieces)) (records : List (CallRecord w)) :
    Takes junk (piecesText pieces) (∀ v ∈ views.flatten, CallBuffers v) (AtRecords env records)
      (AtRecords env (records ++ shownRecords views.flatten)) := by
  induction h generalizing comments pieces records with
  | nil =>
    obtain ⟨rfl, rfl⟩ := Prod.mk.inj (Option.some.inj hinter)
    rw [List.flatten_nil, shownRecords_nil, List.append_nil]
    exact Takes.refl.congr (by simp)
  | @cons b vs blocks views hb _ ih =>
    simp only [interleave, Option.bind_eq_bind, Option.bind_eq_some_iff, Prod.exists,
      Option.some.injEq, Prod.mk.injEq] at hinter
    obtain ⟨front, comments', hfront, others, rest', hothers, rfl, rfl⟩ := hinter
    rw [piecesText_append, piecesText_append] at hshort ⊢
    obtain ⟨hshort₁, hshort₂⟩ := hshort.of_append
    obtain ⟨hsub, hcomments⟩ := takes_blockComments hhash hfront records
    have hblock := hb hshort₁.of_append.2 records
    have hrest := ih (fun c hc => hhash c (hsub c hc)) hothers hshort₂ (records ++ shownRecords vs)
    rw [List.flatten_cons, shownRecords_append, ← List.append_assoc records]
    refine ((hcomments.trans hblock).trans hrest).congr ?_
    rw [true_and, List.forall_mem_append]

end Blocks

/-! ## The call part of a log -/

/-- All calls are calls of a traced process. -/
def EmittedCalls (rd : Rd w) : Prop :=
  ∀ c ∈ rd.calls, ∃ v, callView rd c = some v ∧ EmittedCall (storedResources rd) v

theorem EmittedCalls.hasTrace {rd : Rd w} (h : EmittedCalls rd) : ∀ c ∈ rd.calls, HasTrace rd c := by
  intro c hc
  obtain ⟨v, hv, hcall⟩ := h c hc
  obtain ⟨frames, hframes, -⟩ := hcall.plain.frames
  exact hasTrace_of_frames hv hframes

section Groups

variable {rd : Rd w} {clock : Nat → BitVec 32} {junk : Nat → Context w} {env : LogEnv w}

theorem callBlock_shows (hw : 32 ≤ w) {resources : List (Resource w)}
    (henv : env.resources = resources.map shownResource)
    (htypes : (resources.map Resource.type).Nodup) {c : Nat} {v : LogCall w} {b : Block}
    (hb : callBlock rd clock c = some b) (hv : callView rd c = some v)
    (h : EmittedCall resources v) : BlockShows junk env b [v] := by
  intro hshort records
  obtain ⟨-, htext⟩ := callBlock_text hb hv h.plain.time
  rw [htext] at hshort ⊢
  exact (takes_emittedCall junk hw henv htypes h hshort records).congr (by simp)

/-- The end of a group shows no call. -/
theorem groupEnd_shows {trace : Nat} {y : Ftrace w} {p : Piece} {front : List Piece}
    (hy : rd.ftrace trace = some y) (hp : writeTrace rd trace = some p)
    (hfront : front = [] ∨ ∃ leakCount leakSize, front = [.summary leakCount leakSize])
    (hname : ∀ frame ∈ y.frames, ∀ name ∈ frame.name, LogWord name) :
    BlockShows junk env { limit := none, pieces := front ++ [p] } [] := by
  intro hshort records
  simp only [writeTrace, hy, Option.bind_eq_bind, Option.bind_some, Option.bind_eq_some_iff,
    Option.some.injEq] at hp
  obtain ⟨text, htext, rfl⟩ := hp
  have hlast : piecesText [Piece.trace trace text] = text := by simp [piecesText, Piece.text]
  rw [shownRecords_nil, List.append_nil]
  change ShortLines (piecesText (front ++ [.trace trace text])) at hshort
  show Takes junk (piecesText (front ++ [.trace trace text])) _ _ _
  rw [piecesText_append, hlast] at hshort ⊢
  have hsummary : Takes junk (piecesText front) True (AtRecords env records) (AtRecords env records) := by
    rcases hfront with rfl | ⟨leakCount, leakSize, rfl⟩
    · exact .refl
    · have hwrites := writes_summary (w := w) leakCount leakSize
      have htext : piecesText [.summary leakCount leakSize] = printSummary leakCount leakSize := by
        simp [piecesText, Piece.text]
      rw [htext]
      exact hwrites.takesSilent (by simp only [List.mem_singleton, forall_eq]; exact fun _ _ => ⟨rfl, rfl⟩)
  have htrace : Takes junk text True (AtRecords env records) (AtRecords env records) := by
    refine (writes_trace htext hname hshort.of_append.2).takesSilent fun ev hev => ?_
    rcases List.mem_append.mp hev with hev | hev
    · obtain ⟨frame, -, rfl⟩ := List.mem_map.mp hev
      exact fun _ _ => ⟨rfl, rfl⟩
    · obtain rfl := List.mem_singleton.mp hev
      exact fun _ _ => ⟨rfl, rfl⟩
  exact (hsummary.trans htrace).congr (by simp)

/-- The blocks of a group show its calls. -/
theorem groupBlocks_show (hw : 32 ≤ w)
    (henv : env.resources = (storedResources rd).map shownResource)
    (htypes : ((storedResources rd).map Resource.type).Nodup) (hcalls : EmittedCalls rd)
    {p : List Nat × Nat} (hne : p.1 ≠ [])
    (hp : ∀ c ∈ p.1, c ∈ rd.calls ∧ (rd.fcall c).bind Fcall.trace = some p.2) {blocks : List Block}
    (hblocks : GroupBlocks rd clock p.1 p.2 blocks) :
    ∃ views, List.Forall₂ (BlockShows junk env) blocks views ∧
      views.flatten = p.1.filterMap (callView rd) := by
  obtain ⟨group, front, piece, rfl, hgroup, hpiece, hfront⟩ := hblocks
  -- the frames of the backtrace are those of any call of the group
  obtain ⟨c, hc⟩ := List.exists_mem_of_ne_nil _ hne
  obtain ⟨v, hv, hcall⟩ := hcalls c (hp c hc).1
  obtain ⟨y, hy, hframes⟩ := callView_frames hv (hp c hc).2
  obtain ⟨frames, hv', hname⟩ := hcall.plain.frames
  obtain rfl := Option.some.inj (hv'.symm.trans hframes)
  have hend : BlockShows junk env { limit := none, pieces := front ++ [piece] } [] :=
    groupEnd_shows hy hpiece hfront hname
  have hmem : ∀ d ∈ p.1, d ∈ rd.calls := fun d hd => (hp d hd).1
  suffices hviews : ∃ views, List.Forall₂ (BlockShows junk env) group views ∧
      views.flatten = p.1.filterMap (callView rd) by
    obtain ⟨views, hshow, hflat⟩ := hviews
    refine ⟨views ++ [[]], List.rel_append hshow (.cons hend .nil), ?_⟩
    rw [List.flatten_append, hflat, List.flatten_singleton, List.append_nil]
  clear hv hc hne hp hend
  generalize p.1 = calls at hgroup hmem
  induction hgroup with
  | nil => exact ⟨[], .nil, rfl⟩
  | @cons d b calls group hb _ ih =>
    obtain ⟨u, hu, hemitted⟩ := hcalls d (hmem d (by simp))
    obtain ⟨views, hshow, hflat⟩ := ih fun e he => hmem e (List.mem_cons_of_mem d he)
    refine ⟨[u] :: views, .cons (callBlock_shows hw henv htypes hb hu hemitted) hshow, ?_⟩
    rw [List.flatten_cons, hflat, List.filterMap_cons_some hu]
    rfl

/-- **The calls of a traced process in a log**: the reader gets the records
of all of them, in the order of the groups. -/
theorem takes_emittedCalls (junk : Nat → Context w) (hw : 32 ≤ w) (hint : rd.Integrity)
    (hsize : 0 < rd.ftraces.size) (henv : env.resources = (storedResources rd).map shownResource)
    (htypes : ((storedResources rd).map Resource.type).Nodup) (hcalls : EmittedCalls rd)
    (hhash : ∀ c ∈ rd.comments, HashLine c.text) {opts : WriterOptions} {pieces : List Piece}
    (hpieces : writeTraceCalls rd opts clock = some pieces) (hshort : ShortLines (piecesText pieces)) :
    ∃ views, views.Perm (rd.calls.filterMap (callView rd)) ∧
      Takes junk (piecesText pieces) (∀ c ∈ rd.calls, ∀ v ∈ callView rd c, CallBuffers v)
        (AtRecords env []) (AtRecords env (shownRecords views)) := by
  rw [writeTraceCalls_eq] at hpieces
  simp only [Option.bind_eq_some_iff, Option.map_eq_some_iff, Prod.exists] at hpieces
  obtain ⟨blocks, hblocks, pieces, rest, hinter, rfl⟩ := hpieces
  have href := Linked.referenced hint.toLinked hsize
  obtain ⟨written, groups, hwritten, rfl, hall⟩ := callBlocks_groups href hblocks hcalls.hasTrace
  obtain ⟨hperm, hgroup⟩ := writerGroups_spec hint hsize hcalls.hasTrace hwritten
  obtain ⟨views, hshow, hflat⟩ : ∃ views, List.Forall₂ (BlockShows junk env) groups.flatten views ∧
      views.flatten = (written.flatMap Prod.fst).filterMap (callView rd) := by
    clear hinter hblocks hwritten hperm
    induction hall with
    | nil => exact ⟨[], .nil, rfl⟩
    | @cons p bs written groups hbs _ ih =>
      obtain ⟨hne, hp⟩ := hgroup p (by simp)
      obtain ⟨first, hfirst, hfirstFlat⟩ :
          ∃ views, List.Forall₂ (BlockShows junk env) bs views ∧
            views.flatten = p.1.filterMap (callView rd) :=
        groupBlocks_show hw henv htypes hcalls hne hp hbs
      obtain ⟨others, hothers, hothersFlat⟩ :=
        ih fun q hq => hgroup q (List.mem_cons_of_mem p hq)
      refine ⟨first ++ others, ?_, ?_⟩
      · rw [List.flatten_cons]
        exact List.rel_append hfirst hothers
      · rw [List.flatten_append, hfirstFlat, hothersFlat, List.flatMap_cons, List.filterMap_append]
  have hlast : BlockShows junk env (lastBlock w) [] := fun _ records => by
    rw [shownRecords_nil, List.append_nil]
    exact Takes.refl.congr (by simp)
  have htakes := takes_blocks (List.rel_append hshow (.cons hlast .nil)) hhash hinter hshort []
  rw [List.flatten_append, hflat, List.flatten_singleton, List.append_nil, List.nil_append] at htakes
  have hviews := hperm.filterMap (callView rd)
  refine ⟨_, hviews, htakes.congr ?_⟩
  constructor
  · intro hfits c hc v hv
    exact hfits v (hviews.mem_iff.mpr (List.mem_filterMap.mpr ⟨c, hc, hv⟩))
  · intro hfits v hv
    obtain ⟨c, hc, hview⟩ := List.mem_filterMap.mp (hviews.mem_iff.mp hv)
    exact hfits c hc v hview

end Groups

end SpRtrace.Postproc
