/-
SpRtrace.Postproc.WriterTheorems — what `write_trace_calls` writes.

The comments and the calls are two streams that the writer interleaves:
in front of a call come the comments with a smaller index that are still
to be written. `callBlocks` is the stream of the calls, cut where comments
may be put in, and `interleave` puts them in; `writeTraceCalls_eq` says
that this is the writer. What is written of the calls does not depend on
the comments, and the comments that are written are a first part of the
list, each once and in their order (`interleave_spec`).
-/
import Mathlib
import SpRtrace.Postproc.Writer
import SpRtrace.Lib.SideBySide

namespace SpRtrace.Postproc

open SpRtrace.Lib SpRtrace.Common SpRtrace.Library

variable {w : Nat}

/-! ## Blocks -/

/-- Pieces that are written in one go. Comments with an index below `limit`
come in front of them. -/
structure Block where
  limit : Option Int
  pieces : List Piece

/-- The comments in front of a block. -/
def Block.comments (b : Block) (comment : List Comment) : Option (List Piece × List Comment) :=
  match b.limit with
  | none => some ([], comment)
  | some limit => writeComments limit comment

/-- The blocks with the comments put in. -/
def interleave : List Comment → List Block → Option (List Piece × List Comment)
  | comment, [] => some ([], comment)
  | comment, b :: blocks => do
      let (pieces, comment) ← b.comments comment
      let (others, comment) ← interleave comment blocks
      some (pieces ++ b.pieces ++ others, comment)

def callBlock (rd : Rd w) (clock : Nat → BitVec 32) (call : Nat) : Option Block := do
  let c ← rd.fcall call
  let text ← spRtracePrintCall (clock call) (← fcallRecord rd c.data)
  let args := match c.args with
    | none => []
    | some args => [Piece.args (spRtracePrintArgs args)]
  some { limit := some c.data.index.toInt, pieces := .call call text :: args }

/-- The blocks of `write_function_call`. -/
def plainBlocks (rd : Rd w) (clock : Nat → BitVec 32) (call : Nat) : Option (List Block) := do
  let b ← callBlock rd clock call
  match (← rd.fcall call).trace with
  | none => some [b]
  | some trace => do some [b, { limit := none, pieces := [← writeTrace rd trace] }]

/-- The blocks of `write_compressed_backtrace`. -/
def groupBlocks (rd : Rd w) (clock : Nat → BitVec 32) (trace : FtraceRef) : Option (List Block) := do
  let t ← rd.ftrace trace.ref
  let calls ← t.calls.mapM fun node => do callBlock rd clock (← rd.refNode node)
  let text ← writeTrace rd trace.ref
  some (calls ++
    [{ limit := none, pieces := [.summary trace.leakCount trace.leakSize, text] }])

/-- The blocks of `write_trace_calls`. -/
def callBlocks (rd : Rd w) (opts : WriterOptions) (clock : Nat → BitVec 32) :
    Option (List Block) :=
  if opts.compress then do
    some (← (← leaksSort rd opts.compareLeaks).mapM (groupBlocks rd clock)).flatten
  else do some (← rd.calls.mapM (plainBlocks rd clock)).flatten

/-- The comments at the end of the log. -/
def lastBlock (w : Nat) : Block := { limit := some (2 ^ (w - 1) - 1), pieces := [] }

theorem interleave_append (comment : List Comment) (blocks blocks' : List Block) :
    interleave comment (blocks ++ blocks') = (interleave comment blocks).bind fun r =>
      (interleave r.2 blocks').bind fun s => some (r.1 ++ s.1, s.2) := by
  induction blocks generalizing comment with
  | nil =>
    simp only [List.nil_append, interleave, Option.bind_some]
    cases interleave comment blocks' <;> rfl
  | cons b blocks ih =>
    simp only [List.cons_append, interleave, Option.bind_eq_bind]
    cases b.comments comment with
    | none => rfl
    | some r =>
      obtain ⟨pieces, comment₁⟩ := r
      simp only [Option.bind_some, ih]
      cases interleave comment₁ blocks with
      | none => rfl
      | some r =>
        obtain ⟨others, comment₂⟩ := r
        simp only [Option.bind_some]
        cases interleave comment₂ blocks' <;> simp [List.append_assoc]

theorem interleave_one (comment : List Comment) (b : Block) :
    interleave comment [b] = (b.comments comment).map fun r => (r.1 ++ b.pieces, r.2) := by
  rw [interleave]
  cases b.comments comment with
  | none => rfl
  | some r => simp [interleave]

/-- A writer whose every turn writes blocks writes the blocks of all turns. -/
theorem writeEach_eq {α : Type} {write : List Comment → α → Option (List Piece × List Comment)}
    {body : α → Option (List Block)}
    (hwrite : ∀ comment a, write comment a = (body a).bind (interleave comment)) :
    ∀ (comment : List Comment) (list : List α), writeEach write comment list
      = (list.mapM body).bind fun blocks => interleave comment blocks.flatten
  | comment, [] => rfl
  | comment, a :: rest => by
      have ih := fun comment => writeEach_eq hwrite comment rest
      rw [writeEach, List.mapM_cons, hwrite]
      cases hbody : body a with
      | none => rfl
      | some blocks =>
        simp only [Option.bind_some, Option.bind_eq_bind, Option.pure_def]
        cases hrest : rest.mapM body with
        | none =>
          simp only [hrest, Option.bind_none] at ih
          simp only [ih, Option.bind_none]
          cases interleave comment blocks <;> rfl
        | some others =>
          simp only [hrest, Option.bind_some] at ih
          simp only [ih, Option.bind_some, List.flatten_cons, interleave_append]

theorem writeCall_eq (rd : Rd w) (clock : Nat → BitVec 32) (comment : List Comment) (call : Nat) :
    writeCall rd clock comment call
      = (callBlock rd clock call).bind fun b => interleave comment [b] := by
  unfold writeCall callBlock
  cases hc : rd.fcall call with
  | none => rfl
  | some c =>
    simp only [Option.bind_eq_bind, Option.bind_some]
    cases hrec : fcallRecord rd c.data with
    | none => cases writeComments c.data.index.toInt comment <;> rfl
    | some record =>
      simp only [Option.bind_some]
      cases htext : spRtracePrintCall (clock call) record with
      | none => cases writeComments c.data.index.toInt comment <;> rfl
      | some text =>
        simp only [Option.bind_some, interleave_one, Block.comments]
        cases writeComments c.data.index.toInt comment <;> rfl

theorem writeFunctionCall_eq (rd : Rd w) (clock : Nat → BitVec 32) (comment : List Comment)
    (call : Nat) : writeFunctionCall rd clock comment call
      = (plainBlocks rd clock call).bind (interleave comment) := by
  unfold writeFunctionCall plainBlocks
  rw [writeCall_eq]
  simp only [Option.bind_eq_bind]
  cases hb : callBlock rd clock call with
  | none => rfl
  | some b =>
    simp only [Option.bind_some]
    cases hc : rd.fcall call with
    | none => cases interleave comment [b] <;> rfl
    | some c =>
      simp only [Option.bind_some]
      cases htrace : c.trace with
      | none => cases hi : interleave comment [b] <;> simp [hi]
      | some trace =>
        simp only
        cases ht : writeTrace rd trace with
        | none => cases interleave comment [b] <;> rfl
        | some text =>
          simp only [Option.bind_some]
          rw [show [b, { limit := none, pieces := [text] }]
            = [b] ++ [({ limit := none, pieces := [text] } : Block)] from rfl, interleave_append]
          cases interleave comment [b] <;> rfl

theorem writeCompressedBacktrace_eq (rd : Rd w) (clock : Nat → BitVec 32) (comment : List Comment)
    (trace : FtraceRef) : writeCompressedBacktrace rd clock comment trace
      = (groupBlocks rd clock trace).bind (interleave comment) := by
  unfold writeCompressedBacktrace groupBlocks
  cases ht : rd.ftrace trace.ref with
  | none => rfl
  | some t =>
    have hwrite : ∀ comment node, writeCompressedFunctionCall rd clock comment node
        = ((do some [← (do callBlock rd clock (← rd.refNode node))]) : Option (List Block)).bind
          (interleave comment) := by
      intro comment node
      unfold writeCompressedFunctionCall
      simp only [Option.bind_eq_bind]
      cases rd.refNode node with
      | none => rfl
      | some call =>
        simp only [Option.bind_some, writeCall_eq]
        cases callBlock rd clock call <;> rfl
    have hmap : ∀ l : List Nat,
        (l.mapM fun node => (do some [← (do callBlock rd clock (← rd.refNode node))]))
          = (l.mapM fun node => (do callBlock rd clock (← rd.refNode node))).map
            (List.map fun b => [b]) := by
      intro l
      induction l with
      | nil => rfl
      | cons node l ih =>
        rw [List.mapM_cons, List.mapM_cons, ih]
        simp only [Option.bind_eq_bind, Option.pure_def]
        cases (rd.refNode node).bind (callBlock rd clock) with
        | none => rfl
        | some b =>
          simp only [Option.bind_some]
          cases l.mapM fun node => (rd.refNode node).bind fun call => callBlock rd clock call <;> rfl
    simp only [Option.bind_eq_bind, Option.bind_some]
    rw [writeEach_eq hwrite, hmap]
    simp only [Option.bind_eq_bind]
    cases t.calls.mapM fun node => (rd.refNode node).bind fun call => callBlock rd clock call with
    | none => rfl
    | some blocks =>
      have hflat : (blocks.map fun b => [b]).flatten = blocks := by
        induction blocks with
        | nil => rfl
        | cons b blocks ih => simp [ih]
      simp only [Option.map_some, Option.bind_some, hflat]
      cases hw : writeTrace rd trace.ref with
      | none => cases interleave comment blocks <;> rfl
      | some text =>
        simp only [Option.bind_some]
        rw [interleave_append]
        cases interleave comment blocks <;> rfl

/-- **The writer puts the comments into the blocks of the calls.** -/
theorem writeTraceCalls_eq (rd : Rd w) (opts : WriterOptions) (clock : Nat → BitVec 32) :
    writeTraceCalls rd opts clock = (callBlocks rd opts clock).bind fun blocks =>
      (interleave rd.comments (blocks ++ [lastBlock w])).map Prod.fst := by
  have hlast : ∀ blocks : List Block,
      ((interleave rd.comments blocks).bind fun r =>
        (writeComments (2 ^ (w - 1) - 1) r.2).bind fun s => some (r.1 ++ s.1))
        = (interleave rd.comments (blocks ++ [lastBlock w])).map Prod.fst := by
    intro blocks
    rw [interleave_append]
    simp only [interleave_one, Block.comments, lastBlock]
    cases interleave rd.comments blocks with
    | none => rfl
    | some r =>
      simp only [Option.bind_some]
      cases writeComments (2 ^ (w - 1) - 1) r.2 <;> simp
  unfold writeTraceCalls callBlocks
  by_cases hc : opts.compress
  · simp only [hc, if_true, Option.bind_eq_bind]
    cases leaksSort rd opts.compareLeaks with
    | none => rfl
    | some refs =>
      simp only [Option.bind_some, writeEach_eq (writeCompressedBacktrace_eq rd clock)]
      cases refs.mapM (groupBlocks rd clock) with
      | none => rfl
      | some blocks => exact hlast blocks.flatten
  · simp only [hc, Option.bind_eq_bind]
    simp only [writeEach_eq (writeFunctionCall_eq rd clock)]
    cases rd.calls.mapM (plainBlocks rd clock) with
    | none => rfl
    | some blocks => exact hlast blocks.flatten

/-! ## The comments -/

def Piece.comment? : Piece → Option Str
  | .comment text => some text
  | _ => none

def commentTexts (pieces : List Piece) : List Str := pieces.filterMap Piece.comment?

def otherPieces (pieces : List Piece) : List Piece := pieces.filter fun p => p.comment?.isNone

@[simp] theorem commentTexts_append (ps qs : List Piece) :
    commentTexts (ps ++ qs) = commentTexts ps ++ commentTexts qs := List.filterMap_append

@[simp] theorem otherPieces_append (ps qs : List Piece) :
    otherPieces (ps ++ qs) = otherPieces ps ++ otherPieces qs := List.filter_append ..

@[simp] theorem commentTexts_comments (texts : List Str) :
    commentTexts (texts.map Piece.comment) = texts := by
  induction texts with
  | nil => rfl
  | cons t texts ih => simpa [commentTexts, Piece.comment?] using ih

@[simp] theorem otherPieces_comments (texts : List Str) :
    otherPieces (texts.map Piece.comment) = [] := by
  induction texts with
  | nil => rfl
  | cons t texts ih => simp [otherPieces, Piece.comment?]

/-- The block has no comments of its own and its limit is at most `top`. -/
structure Block.Regular (top : Int) (b : Block) : Prop where
  limit_le : ∀ limit, b.limit = some limit → limit ≤ top
  no_comment : ∀ p ∈ b.pieces, p.comment? = none

theorem Block.Regular.commentTexts {top : Int} {b : Block} (h : b.Regular top) :
    commentTexts b.pieces = [] :=
  List.filterMap_eq_nil_iff.mpr h.no_comment

theorem Block.Regular.otherPieces {top : Int} {b : Block} (h : b.Regular top) :
    otherPieces b.pieces = b.pieces := by
  refine List.filter_eq_self.mpr fun p hp => ?_
  rw [h.no_comment p hp]
  rfl

/-- `dlist_foreach2_in` writes the comments in front of the first one that
is not below the limit. -/
theorem writeComments_eq (limit : Int) (comment : List Comment) :
    writeComments limit comment
      = ((comment.takeWhile fun c => decide (c.index.toInt < limit)).mapM
          fun c => printFormat c.text).map fun texts =>
            (texts.map Piece.comment, comment.dropWhile fun c => decide (c.index.toInt < limit)) := by
  induction comment with
  | nil => rfl
  | cons c comment ih =>
    rw [writeComments]
    by_cases hlt : c.index.toInt < limit
    · simp only [hlt, if_true, ih, List.takeWhile_cons, List.dropWhile_cons, decide_true,
        List.mapM_cons, Option.bind_eq_bind, Option.pure_def]
      cases printFormat c.text with
      | none => rfl
      | some text =>
        simp only [Option.bind_some]
        cases (comment.takeWhile fun c => decide (c.index.toInt < limit)).mapM
          fun c => printFormat c.text <;> rfl
    · simp [hlt]

/-- What is printed in front of a block. -/
theorem Block.comments_spec {top : Int} {b : Block} (hb : b.Regular top) {comment rest : List Comment}
    {pieces : List Piece} (h : b.comments comment = some (pieces, rest)) :
    ∃ printed, comment = printed ++ rest ∧ (∀ c ∈ printed, c.index.toInt < top) ∧
      (printed.mapM fun c => printFormat c.text) = some (Postproc.commentTexts pieces) ∧
      Postproc.otherPieces pieces = [] := by
  unfold Block.comments at h
  cases hlimit : b.limit with
  | none =>
    rw [hlimit] at h
    obtain ⟨rfl, rfl⟩ := Prod.mk.inj (Option.some.inj h)
    exact ⟨[], rfl, by simp, rfl, rfl⟩
  | some limit =>
    rw [hlimit] at h
    simp only [writeComments_eq, Option.map_eq_some_iff, Prod.mk.injEq] at h
    obtain ⟨texts, htexts, rfl, rfl⟩ := h
    refine ⟨_, (List.takeWhile_append_dropWhile ..).symm, fun c hc => ?_, by simpa using htexts,
      by simp⟩
    have hlt : c.index.toInt < limit := by simpa using List.mem_takeWhile_imp hc
    exact Int.lt_of_lt_of_le hlt (hb.limit_le limit hlimit)

/-- **What the blocks and the comments come to.** The comments that are
printed are a first part of the list, each is printed once and in order,
and everything else is what the blocks say. -/
theorem interleave_spec {top : Int} :
    ∀ {blocks : List Block} {comment rest : List Comment} {pieces : List Piece},
      (∀ b ∈ blocks, b.Regular top) → interleave comment blocks = some (pieces, rest) →
      ∃ printed, comment = printed ++ rest ∧ (∀ c ∈ printed, c.index.toInt < top) ∧
        (printed.mapM fun c => printFormat c.text) = some (commentTexts pieces) ∧
        otherPieces pieces = blocks.flatMap Block.pieces
  | [], comment, rest, pieces, _, h => by
      obtain ⟨rfl, rfl⟩ := Prod.mk.inj (Option.some.inj h)
      exact ⟨[], rfl, by simp, rfl, rfl⟩
  | b :: blocks, comment, rest, pieces, hreg, h => by
      simp only [interleave, Option.bind_eq_bind, Option.bind_eq_some_iff, Prod.exists,
        Option.some.injEq, Prod.mk.injEq] at h
      obtain ⟨front, comment₁, hfront, others, comment₂, hrest, rfl, rfl⟩ := h
      have hb := hreg b (by simp)
      obtain ⟨printed, rfl, hlt, htexts, hother⟩ := Block.comments_spec hb hfront
      obtain ⟨printed', rfl, hlt', htexts', hother'⟩ :=
        interleave_spec (fun b' hb' => hreg b' (by simp [hb'])) hrest
      refine ⟨printed ++ printed', (List.append_assoc ..).symm, ?_, ?_, ?_⟩
      · intro c hc
        rcases List.mem_append.mp hc with hc | hc
        · exact hlt c hc
        · exact hlt' c hc
      · rw [mapM_append_some htexts htexts']
        simp [hb.commentTexts]
      · simp [hother, hother', hb.otherPieces]

theorem takeWhile_le_front {limit top : Int} (h : limit ≤ top) (comment : List Comment) :
    (comment.takeWhile fun c => decide (c.index.toInt < limit)) <+:
      comment.takeWhile fun c => decide (c.index.toInt < top) := by
  induction comment with
  | nil => exact List.prefix_rfl
  | cons c comment ih =>
    by_cases hlt : c.index.toInt < limit
    · simp only [List.takeWhile_cons, hlt, show c.index.toInt < top by omega, decide_true, if_true]
      exact (List.prefix_cons_inj c).mpr ih
    · simp [List.takeWhile_cons, hlt]

/-- If the formats of the comments below `top` are defined, the comments in
front of a block can be printed. -/
theorem Block.comments_total {top : Int} {b : Block} (hb : b.Regular top) {comment : List Comment}
    (hprint : ∀ c ∈ comment.takeWhile fun c => decide (c.index.toInt < top), ∃ text,
      printFormat c.text = some text) :
    ∃ front rest, b.comments comment = some (front, rest) := by
  unfold Block.comments
  cases hlimit : b.limit with
  | none => exact ⟨[], comment, rfl⟩
  | some limit =>
    obtain ⟨texts, htexts⟩ := mapM_total fun c hc =>
      hprint c ((takeWhile_le_front (hb.limit_le limit hlimit) comment).subset hc)
    have heq := writeComments_eq limit comment
    rw [htexts] at heq
    exact ⟨_, _, heq⟩

/-- With these formats all blocks can be written. -/
theorem interleave_total {top : Int} :
    ∀ {blocks : List Block} {comment : List Comment}, (∀ b ∈ blocks, b.Regular top) →
      (∀ c ∈ comment.takeWhile fun c => decide (c.index.toInt < top), ∃ text,
        printFormat c.text = some text) →
      ∃ pieces rest, interleave comment blocks = some (pieces, rest)
  | [], comment, _, _ => ⟨[], comment, rfl⟩
  | b :: blocks, comment, hreg, hprint => by
      have hb := hreg b (by simp)
      obtain ⟨front, comment₁, hfront⟩ := Block.comments_total hb hprint
      obtain ⟨printed, rfl, hlt, -, -⟩ := Block.comments_spec hb hfront
      have hprint' : ∀ c ∈ comment₁.takeWhile fun c => decide (c.index.toInt < top),
          ∃ text, printFormat c.text = some text := by
        intro c hc
        refine hprint c ?_
        rw [List.takeWhile_append_of_pos fun c' hc' => by simpa using hlt c' hc']
        exact List.mem_append_right _ hc
      obtain ⟨others, rest, hrest⟩ := interleave_total
        (fun b' hb' => hreg b' (List.mem_cons_of_mem b hb')) hprint'
      refine ⟨front ++ b.pieces ++ others, rest, ?_⟩
      rw [interleave, hfront]
      simp only [Option.bind_eq_bind, Option.bind_some, hrest]

/-- The comments in front of the first one that is never printed. -/
def visibleComments (w : Nat) (comment : List Comment) : List Comment :=
  comment.takeWhile fun c => decide (c.index.toInt < 2 ^ (w - 1) - 1)

/-! ## The blocks of the calls -/

section Regular

variable {rd : Rd w} {clock : Nat → BitVec 32} {top : Int}

theorem callBlock_regular (htop : 2 ^ 31 - 1 ≤ top) {call : Nat} {b : Block}
    (h : callBlock rd clock call = some b) : b.Regular top := by
  simp only [callBlock, Option.bind_eq_bind, Option.bind_eq_some_iff, Option.some.injEq] at h
  obtain ⟨c, -, record, -, text, -, rfl⟩ := h
  refine ⟨fun limit hlimit => ?_, fun p hp => ?_⟩
  · obtain rfl := Option.some.inj hlimit
    have := c.data.index.toInt_lt
    omega
  · rcases List.mem_cons.mp hp with rfl | hp
    · rfl
    · cases hargs : c.args with
      | none => rw [hargs] at hp; cases hp
      | some args =>
        rw [hargs] at hp
        rw [List.mem_singleton.mp hp]
        rfl

theorem writeTrace_comment {trace : Nat} {p : Piece} (h : writeTrace rd trace = some p) :
    p.comment? = none := by
  simp only [writeTrace, Option.bind_eq_bind, Option.bind_eq_some_iff, Option.some.injEq] at h
  obtain ⟨t, -, text, -, rfl⟩ := h
  rfl

theorem plainBlocks_regular (htop : 2 ^ 31 - 1 ≤ top) {call : Nat} {blocks : List Block}
    (h : plainBlocks rd clock call = some blocks) : ∀ b ∈ blocks, b.Regular top := by
  simp only [plainBlocks, Option.bind_eq_bind, Option.bind_eq_some_iff] at h
  obtain ⟨b, hb, c, -, h⟩ := h
  have hreg := callBlock_regular htop hb
  intro b' hb'
  cases htrace : c.trace with
  | none =>
    rw [htrace] at h
    obtain rfl := Option.some.inj h
    rw [List.mem_singleton.mp hb']
    exact hreg
  | some trace =>
    rw [htrace] at h
    simp only [Option.bind_eq_some_iff, Option.some.injEq] at h
    obtain ⟨text, htext, rfl⟩ := h
    rcases List.mem_cons.mp hb' with rfl | hb'
    · exact hreg
    · rw [List.mem_singleton.mp hb']
      refine ⟨by simp, fun p hp => ?_⟩
      rw [List.mem_singleton.mp hp]
      exact writeTrace_comment htext

theorem groupBlocks_regular (htop : 2 ^ 31 - 1 ≤ top) {trace : FtraceRef} {blocks : List Block}
    (h : groupBlocks rd clock trace = some blocks) : ∀ b ∈ blocks, b.Regular top := by
  simp only [groupBlocks, Option.bind_eq_bind, Option.bind_eq_some_iff, Option.some.injEq] at h
  obtain ⟨t, -, calls, hcalls, text, htext, rfl⟩ := h
  intro b hb
  rcases List.mem_append.mp hb with hb | hb
  · obtain ⟨node, -, hnode⟩ := forall₂_mem_right (mapM_eq_some_iff.mp hcalls) hb
    simp only [Option.bind_eq_some_iff] at hnode
    obtain ⟨call, -, hcall⟩ := hnode
    exact callBlock_regular htop hcall
  · rw [List.mem_singleton.mp hb]
    refine ⟨by simp, fun p hp => ?_⟩
    rcases List.mem_cons.mp hp with rfl | hp
    · rfl
    · rw [List.mem_singleton.mp hp]
      exact writeTrace_comment htext

theorem callBlocks_regular (htop : 2 ^ 31 - 1 ≤ top) {opts : WriterOptions} {blocks : List Block}
    (h : callBlocks rd opts clock = some blocks) : ∀ b ∈ blocks, b.Regular top := by
  intro b hb
  unfold callBlocks at h
  split at h
  · simp only [Option.bind_eq_bind, Option.bind_eq_some_iff, Option.some.injEq] at h
    obtain ⟨refs, -, groups, hgroups, rfl⟩ := h
    obtain ⟨group, hgroup, hb⟩ := List.mem_flatten.mp hb
    obtain ⟨trace, -, htrace⟩ := forall₂_mem_right (mapM_eq_some_iff.mp hgroups) hgroup
    exact groupBlocks_regular htop htrace b hb
  · simp only [Option.bind_eq_bind, Option.bind_eq_some_iff, Option.some.injEq] at h
    obtain ⟨groups, hgroups, rfl⟩ := h
    obtain ⟨group, hgroup, hb⟩ := List.mem_flatten.mp hb
    obtain ⟨call, -, hcall⟩ := forall₂_mem_right (mapM_eq_some_iff.mp hgroups) hgroup
    exact plainBlocks_regular htop hcall b hb

end Regular

/-- `LONG_MAX` is no less than `INT_MAX`. -/
theorem intMax_le_longMax (hw : 32 ≤ w) : (2 : Int) ^ 31 - 1 ≤ 2 ^ (w - 1) - 1 := by
  have : (2 : Int) ^ 31 ≤ 2 ^ (w - 1) := pow_le_pow_right₀ (by norm_num) (by omega)
  omega

/-- **What the writer has written**: the blocks of the calls, and the
visible comments, each once and in their order. -/
theorem writeTraceCalls_spec (hw : 32 ≤ w) {rd : Rd w} {opts : WriterOptions}
    {clock : Nat → BitVec 32} {pieces : List Piece}
    (h : writeTraceCalls rd opts clock = some pieces) :
    ∃ blocks, callBlocks rd opts clock = some blocks ∧
      ((visibleComments w rd.comments).mapM fun c => printFormat c.text)
        = some (commentTexts pieces) ∧
      otherPieces pieces = blocks.flatMap Block.pieces := by
  rw [writeTraceCalls_eq] at h
  simp only [Option.bind_eq_some_iff, Option.map_eq_some_iff, Prod.exists, exists_and_right,
    exists_eq_right] at h
  obtain ⟨blocks, hblocks, rest, h⟩ := h
  have hreg := callBlocks_regular (intMax_le_longMax hw) hblocks
  rw [interleave_append] at h
  simp only [Option.bind_eq_some_iff, Prod.exists, Option.some.injEq, Prod.mk.injEq] at h
  obtain ⟨front, comment₁, hfront, last, comment₂, hlast, rfl, rfl⟩ := h
  obtain ⟨printed, heq, hlt, htexts, hother⟩ := interleave_spec hreg hfront
  rw [interleave_one, show (lastBlock w).comments comment₁ = _ from writeComments_eq ..] at hlast
  simp only [Option.map_map, Option.map_eq_some_iff, Function.comp_apply, Prod.mk.injEq,
    show (lastBlock w).pieces = [] from rfl, List.append_nil] at hlast
  obtain ⟨texts, htexts', rfl, rfl⟩ := hlast
  refine ⟨blocks, hblocks, ?_, by simp [hother]⟩
  have hvisible : visibleComments w rd.comments = printed ++ visibleComments w comment₁ := by
    rw [heq, visibleComments, List.takeWhile_append_of_pos fun c hc => by simpa using hlt c hc]
    rfl
  rw [hvisible, commentTexts_append, commentTexts_comments]
  exact mapM_append_some htexts htexts'

/-- The writer succeeds when the blocks and the comments can be printed. -/
theorem writeTraceCalls_total (hw : 32 ≤ w) {rd : Rd w} {opts : WriterOptions}
    {clock : Nat → BitVec 32} {blocks : List Block} (hblocks : callBlocks rd opts clock = some blocks)
    (hprint : ∀ c ∈ visibleComments w rd.comments, ∃ text, printFormat c.text = some text) :
    ∃ pieces, writeTraceCalls rd opts clock = some pieces := by
  have hreg := callBlocks_regular (intMax_le_longMax hw) hblocks
  have hall : ∀ b ∈ blocks ++ [lastBlock w], b.Regular (2 ^ (w - 1) - 1) := by
    intro b hb
    rcases List.mem_append.mp hb with hb | hb
    · exact hreg b hb
    · rw [List.mem_singleton.mp hb]
      exact ⟨fun limit hlimit => le_of_eq (Option.some.inj hlimit).symm, fun p hp => by cases hp⟩
  obtain ⟨pieces, rest, h⟩ := interleave_total hall hprint
  exact ⟨pieces, by rw [writeTraceCalls_eq, hblocks, Option.bind_some, h]; rfl⟩

end SpRtrace.Postproc
