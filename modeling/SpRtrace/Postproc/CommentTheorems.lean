/-
SpRtrace.Postproc.CommentTheorems — comments from the log to the log.

`logComments` are the comments of a text log: the lines the reader takes
for comments, each with the index of the last call line before it. They
are what the reader stores (`readTextData_comments`), filters leave them
alone, and the writer writes the visible ones in order
(`writeTraceCalls_spec`), but through `fprintf` with the text as its
format.

In a file of any bytes the comments are `fileComments`. The reader copies
a line with `strdup`, so what it stores ends at the first NUL
(`readTextFile_comments`). `comments_pass_iff` is the condition under
which they come out as they went in.
-/
import SpRtrace.Lib.StdioTheorems
import SpRtrace.Postproc.CompressTheorems

namespace SpRtrace.Postproc

open SpRtrace.Lib SpRtrace.Common SpRtrace.Library

variable {w : Nat}

/-! ## The comments of a log -/

/-- The comments among the lines behind a call with the given index. -/
def commentRecords (w : Nat) : BitVec 32 → List Str → List Comment
  | _, [] => []
  | index, line :: lines =>
      match lineEvent w line with
      | some (.call call) => commentRecords w call.index lines
      | some (.record .comment _) => { index, text := line } :: commentRecords w index lines
      | _ => commentRecords w index lines

def logComments (w : Nat) (text : Str) : List Comment :=
  commentRecords w 0 (fgetsLines 4096 text).tail

/-- The comments among the lines of a file, byte for byte. -/
def fileRecords (w : Nat) : BitVec 32 → List Str → List Comment
  | _, [] => []
  | index, line :: lines =>
      match lineEvent w (bufferText line) with
      | some (.call call) => fileRecords w call.index lines
      | some (.record .comment _) => { index, text := line } :: fileRecords w index lines
      | _ => fileRecords w index lines

/-- The comments of a file of any bytes. -/
def fileComments (w : Nat) (file : Str) : List Comment :=
  fileRecords w 0 (fgetsLines 4096 file).tail

/-- The comment as the reader copies it. -/
def copiedComment (c : Comment) : Comment := { c with text := bufferText c.text }

theorem fileRecords_copied (w : Nat) (index : BitVec 32) (lines : List Str) :
    (fileRecords w index lines).map copiedComment
      = commentRecords w index (lines.map bufferText) := by
  induction lines generalizing index with
  | nil => rfl
  | cons line lines ih =>
    rw [fileRecords, List.map_cons, commentRecords]
    split
    · exact ih _
    · rw [List.map_cons, ih]
      rfl
    · exact ih _

@[simp] theorem LogState.flushArgs_comments (a : LogState w) :
    a.flushArgs.comments = a.comments ∧ a.flushArgs.commentIndex = a.commentIndex := by
  unfold LogState.flushArgs
  split <;> exact ⟨rfl, rfl⟩

@[simp] theorem LogState.flushBacktrace_comments (a : LogState w) :
    a.flushBacktrace.comments = a.comments ∧ a.flushBacktrace.commentIndex = a.commentIndex := by
  unfold LogState.flushBacktrace
  split <;> exact ⟨rfl, rfl⟩

@[simp] theorem LogState.endGroup_comments (a : LogState w) :
    a.endGroup.comments = a.comments ∧ a.endGroup.commentIndex = a.commentIndex := by
  unfold LogState.endGroup
  split <;> exact ⟨rfl, rfl⟩

@[simp] theorem LogState.settleEmpty_comments (a : LogState w) :
    a.settleEmpty.comments = a.comments ∧ a.settleEmpty.commentIndex = a.commentIndex := by
  unfold LogState.settleEmpty
  split <;> exact ⟨rfl, rfl⟩

/-- A record that is no comment leaves the comments alone. -/
theorem LogState.addRecord_comments (junk : Nat → Context w) (a : LogState w) (line : Str)
    {rec : Record w} (h : rec ≠ .comment) :
    (a.addRecord junk line rec).comments = a.comments ∧
      (a.addRecord junk line rec).commentIndex = a.commentIndex := by
  cases rec with
  | comment => exact absurd rfl h
  | resource res =>
    unfold LogState.addRecord
    simp only
    split <;> exact ⟨rfl, rfl⟩
  | _ => exact ⟨rfl, rfl⟩

/-- What a line does to the comments. -/
theorem LogState.step_comments (junk : Nat → Context w) (a : LogState w) {line : Str}
    {ev : LogEvent w} (hev : lineEvent w line = some ev) (lines : List Str) :
    (a.step junk ev).comments ++ commentRecords w (a.step junk ev).commentIndex lines
      = a.comments ++ commentRecords w a.commentIndex (line :: lines) := by
  rw [commentRecords, hev]
  cases ev with
  | skip => rfl
  | blank => simp [LogState.step]
  | frame frame =>
    unfold LogState.step
    simp only
    split <;> rfl
  | arg arg =>
    unfold LogState.step
    simp only
    split <;> rfl
  | call call => simp [LogState.step, LogState.addCall]
  | record rec line' =>
    by_cases hrec : rec = .comment
    · subst hrec
      have hline : line' = line := lineEvent_record hev
      simp [LogState.step, LogState.addRecord, hline]
    · have hkeep := LogState.addRecord_comments junk
        a.flushArgs.flushBacktrace.settleEmpty line' hrec
      simp only [LogState.step, hkeep.1, hkeep.2, LogState.settleEmpty_comments,
        LogState.flushBacktrace_comments, LogState.flushArgs_comments]
      cases rec with
      | comment => exact absurd rfl hrec
      | _ => rfl

/-- The comments of a run. -/
theorem LogState.run_comments (junk : Nat → Context w) {lines : List Str} {evs : List (LogEvent w)}
    (hevs : List.Forall₂ (fun line ev => lineEvent w line = some ev) lines evs) (a : LogState w) :
    (a.run junk evs).comments = a.comments ++ commentRecords w a.commentIndex lines := by
  induction hevs generalizing a with
  | nil => simp [LogState.run, commentRecords]
  | @cons line ev lines evs hev _ ih =>
    have hrest := ih (a.step junk ev)
    rw [LogState.step_comments junk a hev lines] at hrest
    exact hrest

theorem readTextLines_comments {mktime : List (BitVec 32) → Int} {junk : Nat → Context w}
    {all : List Str} {rd : Rd w} (h : readTextLines mktime junk rdCreate all = some rd) :
    rd.comments = commentRecords w 0 all.tail := by
  rcases readTextLines_log h with ⟨rfl, rfl⟩ |
    ⟨header, lines, rd₀, evs, st, done, rfl, -, hevs, -, rfl, hshows⟩
  · rfl
  · rw [hshows.comments]
    show (textLog junk rd₀ evs).comments = commentRecords w 0 lines
    rw [textLog, LogState.finish, (LogState.endGroup_comments _).1,
      (LogState.flushArgs_comments _).1, LogState.run_comments junk hevs]
    rfl

/-- **The reader stores the comments of the log.** -/
theorem readTextData_comments {mktime : List (BitVec 32) → Int} {junk : Nat → Context w}
    {text : Str} {rd : Rd w} (h : readTextData mktime junk rdCreate text = some rd) :
    rd.comments = logComments w text := readTextLines_comments h

/-- Those of a file are copied up to the first NUL. -/
theorem readTextFile_comments {mktime : List (BitVec 32) → Int} {junk : Nat → Context w}
    {file : Str} {rd : Rd w} (h : readTextFile mktime junk rdCreate file = some rd) :
    rd.comments = (fileComments w file).map copiedComment := by
  rw [readTextLines_comments h, fileComments, fileRecords_copied, List.map_tail]

/-! ## Comments pass through -/

/-- A text that is copied and printed comes out as it was if and only if it
has no percent sign and no NUL. -/
theorem printFormat_copied_self (c : Comment) :
    printFormat (copiedComment c).text = some c.text ↔ '%' ∉ c.text ∧ '\x00' ∉ c.text := by
  show printFormat (bufferText c.text) = some c.text ↔ _
  constructor
  · intro h
    have hnul := bufferText_eq_self_of_length (printFormat_length h)
    rw [bufferText_of_not_mem hnul, printFormat_eq_self] at h
    exact ⟨h, hnul⟩
  · rintro ⟨hpercent, hnul⟩
    rw [bufferText_of_not_mem hnul, printFormat_eq_self]
    exact hpercent

theorem mapM_printFormat_self (cs : List Comment) :
    ((cs.map copiedComment).mapM fun c => printFormat c.text) = some (cs.map Comment.text) ↔
      ∀ c ∈ cs, '%' ∉ c.text ∧ '\x00' ∉ c.text := by
  rw [mapM_eq_some_iff, List.forall₂_map_left_iff, List.forall₂_map_right_iff, List.forall₂_same]
  exact forall₂_congr fun c _ => printFormat_copied_self c

/-- All comments are visible: on a 32-bit machine no comment stands behind a
call with index `INT_MAX`. -/
theorem visibleComments_eq_self (hw : w = 32 ∨ w = 64) (cs : List Comment) :
    visibleComments w cs = cs ↔ (w = 32 → ∀ c ∈ cs, c.index ≠ 2147483647) := by
  rw [visibleComments, List.takeWhile_eq_self_iff]
  simp only [decide_eq_true_eq]
  rcases hw with rfl | rfl
  · simp only [true_implies]
    refine forall₂_congr fun c _ => ?_
    have hlt := c.index.toInt_lt
    rw [← not_iff_not, not_not, not_lt, ← BitVec.toInt_inj]
    show _ ↔ c.index.toInt = 2147483647
    omega
  · simp only [show (64 : Nat) ≠ 32 by decide, false_implies, iff_true]
    intro c _
    have := c.index.toInt_lt
    omega

/-- **Comments pass through unchanged**, exactly once and in order, if and
only if they have no percent sign and no NUL, they are visible, and the
calls can be written. -/
theorem comments_pass_iff (hw : w = 32 ∨ w = 64) {mktime : List (BitVec 32) → Int}
    {junk : Nat → Context w} {file : Str} {rd rd' : Rd w}
    (hread : readTextFile mktime junk rdCreate file = some rd) (hcounted : rd.Counted)
    (hfilter : FilterRun rd rd') (opts : WriterOptions) (clock : Nat → BitVec 32) :
    (∃ pieces, writeTraceCalls rd' opts clock = some pieces ∧
      commentTexts pieces = (fileComments w file).map Comment.text) ↔
    (∀ c ∈ fileComments w file, '%' ∉ c.text ∧ '\x00' ∉ c.text) ∧
      (w = 32 → ∀ c ∈ fileComments w file, c.index ≠ 2147483647) ∧ Writable rd' opts clock := by
  obtain ⟨hint, hsize⟩ := Processed.consistent ⟨rd, .text hread, hcounted, hfilter⟩
  have hpos : 0 < rd'.ftraces.size := by rw [hsize]; decide
  have hw' : 32 ≤ w := by omega
  have hcomments : rd'.comments = (fileComments w file).map copiedComment :=
    hfilter.kept.1.trans (readTextFile_comments hread)
  have hindexes : (w = 32 → ∀ c ∈ (fileComments w file).map copiedComment, c.index ≠ 2147483647) ↔
      (w = 32 → ∀ c ∈ fileComments w file, c.index ≠ 2147483647) := by
    simp only [List.forall_mem_map]
    rfl
  constructor
  · rintro ⟨pieces, hwrite, hall⟩
    obtain ⟨blocks, hblocks, htexts, -⟩ := writeTraceCalls_spec hw' hwrite
    rw [hcomments, hall] at htexts
    -- as many comments as there are, so all of them are visible
    have hvisible : visibleComments w ((fileComments w file).map copiedComment)
        = (fileComments w file).map copiedComment := by
      have hlen := (mapM_eq_some_iff.mp htexts).length_eq
      rw [List.length_map] at hlen
      exact (List.takeWhile_prefix _).eq_of_length (hlen.trans (List.length_map ..).symm)
    rw [hvisible] at htexts
    exact ⟨(mapM_printFormat_self _).mp htexts,
      hindexes.mp ((visibleComments_eq_self hw _).mp hvisible),
      (callBlocks_total hint hpos).mp ⟨blocks, hblocks⟩⟩
  · rintro ⟨htext, hmax, hwritable⟩
    have hvisible := (visibleComments_eq_self hw _).mpr (hindexes.mpr hmax)
    obtain ⟨blocks, hblocks⟩ := (callBlocks_total hint hpos).mpr hwritable
    have hprint : ∀ c ∈ visibleComments w rd'.comments, ∃ text, printFormat c.text = some text := by
      rw [hcomments, hvisible]
      intro c hc
      obtain ⟨c₀, hc₀, rfl⟩ := List.mem_map.mp hc
      exact ⟨_, (printFormat_copied_self c₀).mpr (htext c₀ hc₀)⟩
    obtain ⟨pieces, hwrite⟩ := writeTraceCalls_total hw' hblocks hprint
    obtain ⟨-, -, htexts, -⟩ := writeTraceCalls_spec hw' hwrite
    rw [hcomments, hvisible, (mapM_printFormat_self _).mpr htext] at htexts
    exact ⟨pieces, hwrite, (Option.some.inj htexts).symm⟩

/-- A log with a call, its backtrace and a comment behind them. -/
def commentLog : Str :=
  "version=2.0, \n<1> : memory (heap)\n1. malloc(8) = 0x10\n\t0x20\n\n## a\n".toList

/-- A log with a percent sign in its comment. -/
def percentLog : Str := "version=2.0, \n## 100%%\n".toList

/-- Plain output. -/
def plainOptions : WriterOptions :=
  { compress := false, filterLeaks := false, compareLeaks := .bySizeDesc }

/-- The log with the comment comes out with it. -/
theorem comments_pass_iff_commentLog : ∃ rd : Rd 64,
    readTextFile (fun _ => 0) (fun _ => ⟨0, []⟩) rdCreate commentLog = some rd ∧
    ∃ pieces, writeTraceCalls rd compressOptions (fun _ => 0) = some pieces ∧
      commentTexts pieces = ["## a\n".toList] := by
  have heval : (readTextFile (fun _ => 0) (fun _ => ⟨0, []⟩) (rdCreate : Rd 64) commentLog).map
      (fun rd => (rd.calls, (rd.fcall 1).bind Fcall.trace, (callBlock rd (fun _ => 0) 1).isSome,
        (writeTrace rd 3).isSome)) = some ([1], some 3, true, true) := by
    decide +kernel
  have hlog : fileComments 64 commentLog = [{ index := 1, text := "## a\n".toList }] := by
    decide +kernel
  obtain ⟨rd, hread, hfacts⟩ := Option.map_eq_some_iff.mp heval
  simp only [Prod.mk.injEq] at hfacts
  obtain ⟨hcalls, htrace, hcall, hframes⟩ := hfacts
  have hparsed : Parsed rd := .text hread
  have hcounted := hparsed.whole.1.toLinked.counted (by simp [hcalls])
  have hwritable : Writable rd compressOptions fun _ => 0 :=
    writable_single ⟨rd, hparsed, hcounted, .refl⟩ hcalls htrace hcall hframes
  have hiff := comments_pass_iff (.inr rfl) hread hcounted .refl compressOptions (fun _ => 0)
  rw [hlog] at hiff
  exact ⟨rd, hread, hiff.mpr ⟨by decide, by simp, hwritable⟩⟩

/-- `##  100%%` is written as `## 100%`. -/
theorem comments_percent : ∃ rd : Rd 64,
    readTextFile (fun _ => 0) (fun _ => ⟨0, []⟩) rdCreate percentLog = some rd ∧
    fileComments 64 percentLog = [{ index := 0, text := "## 100%%\n".toList }] ∧
    writeTraceCalls rd plainOptions (fun _ => 0) = some [.comment "## 100%\n".toList] ∧
    ¬ ∃ pieces, writeTraceCalls rd plainOptions (fun _ => 0) = some pieces ∧
      commentTexts pieces = (fileComments 64 percentLog).map Comment.text := by
  have heval : (readTextFile (fun _ => 0) (fun _ => ⟨0, []⟩) (rdCreate : Rd 64) percentLog).map
      (fun rd => writeTraceCalls rd plainOptions (fun _ => 0))
        = some (some [.comment "## 100%\n".toList]) := by
    decide +kernel
  have hlog : fileComments 64 percentLog = [{ index := 0, text := "## 100%%\n".toList }] := by
    decide +kernel
  obtain ⟨rd, hread, hwrite⟩ := Option.map_eq_some_iff.mp heval
  refine ⟨rd, hread, hlog, hwrite, ?_⟩
  rintro ⟨pieces, hpieces, htexts⟩
  obtain rfl := Option.some.inj (hwrite.symm.trans hpieces)
  rw [hlog] at htexts
  revert htexts
  decide

end SpRtrace.Postproc
