/-
SpRtrace.Postproc.Session — the trace data between the parsers and the
writer.

A session of the post-processor parses a binary stream or a text log into
an empty store, and applies filters to it. `Processed` are the stores that
can reach the writer: whatever the input, and however often and in which
order the nine filters of `filter.c` run. What a parser leaves is whole
(`Parsed.whole`); a reference counter is an `int`, so removals keep the
store consistent where no backtrace has more than `2 ^ 32` calls
(`Processed.consistent`). The comments are those of the log
(`FilterRun.kept`).
-/
import SpRtrace.Postproc.ParseLoopTheorems
import SpRtrace.Postproc.Pipeline
import SpRtrace.Postproc.Removals
import SpRtrace.Postproc.TextLog

namespace SpRtrace.Postproc

open SpRtrace.Lib SpRtrace.Common SpRtrace.Library

variable {w : Nat}

/-! ## Sessions -/

/-- The stores of the two parsers. The binary one may stop anywhere in its
stream. -/
inductive Parsed : Rd w → Prop
  | text {mktime : List (BitVec 32) → Int} {junk : Nat → Context w} {text : Str} {rd : Rd w} :
      readTextFile mktime junk rdCreate text = some rd → Parsed rd
  | binary {origin : Str} {mem chunk : List UInt8} {input : List ReadResult} {hs : Hshake}
      {c c' : LoopConf (Option (ParseState w))} {st : ParseState w} :
      readBinaryDataStart rdCreate mem chunk input = some (hs, c) →
      (binaryLoop origin hs).Reach c c' → c'.state = some st → Parsed st.rd

inductive FilterStep : Rd w → Rd w → Prop
  | trimBacktraces {rd rd' : Rd w} {depth : BitVec 32} :
      filterTrimBacktraces depth rd = some rd' → FilterStep rd rd'
  | resource {rd rd' : Rd w} {mask : BitVec 32} :
      filterResource mask rd = some rd' → FilterStep rd rd'
  | callAddressRange {rd rd' : Rd w} {opts : RangeOptions w} {isAbsolute : Str → Option Bool} :
      filterCallAddressRange opts isAbsolute rd = some rd' → FilterStep rd rd'
  | incl {rd rd' : Rd w} {indexMap : List (BitVec w)} :
      filterInclude indexMap rd = some rd' → FilterStep rd rd'
  | excl {rd rd' : Rd w} {indexMap : List (BitVec w)} :
      filterExclude indexMap rd = some rd' → FilterStep rd rd'
  | context {rd rd' : Rd w} {mask : BitVec 32} : filterContext mask rd = some rd' → FilterStep rd rd'
  | findLowhighBlocks {rd rd' : Rd w} {hinfo : Hinfo w} :
      rd.hinfo = some hinfo → filterFindLowhighBlocks rd hinfo = some rd' → FilterStep rd rd'
  | leaks {rd rd' : Rd w} : filterLeaks rd = some rd' → FilterStep rd rd'
  | updateResourceVisibility {rd rd' : Rd w} :
      filterUpdateResourceVisibility rd = some rd' → FilterStep rd rd'

/-- Any filters in any order. -/
def FilterRun : Rd w → Rd w → Prop := Relation.ReflTransGen FilterStep

/-- A store that the writer may be given, when no backtrace of the log has
more calls than an `int` can count down. -/
def Processed (rd : Rd w) : Prop := ∃ rd₀, Parsed rd₀ ∧ rd₀.Counted ∧ FilterRun rd₀ rd

/-! ## The stores of the parsers -/

/-- The parser between two packets, with a table of the usual size. -/
def ParseState.Ready (st : ParseState w) : Prop := st.Sound ∧ st.rd.ftraces.size = hashSize

theorem storePacket_size {st st' : ParseState w} {data : PacketData w}
    (h : storePacket st data = some st') : st'.rd.ftraces.size = st.rd.ftraces.size := by
  cases data with
  | resourceRegistry r =>
    simp only [storePacket, storeResource] at h
    split at h
    · obtain rfl := Option.some.inj h
      rfl
    · cases h
  | functionCall fc =>
    simp only [storePacket, storeFcall] at h
    split at h
    · obtain rfl := Option.some.inj h
      rfl
    · cases h
  | backtrace frames =>
    simp only [storePacket, storeBacktrace] at h
    cases hprev : st.fcallPrev with
    | none =>
      rw [hprev] at h
      obtain rfl := Option.some.inj h
      rfl
    | some call =>
      rw [hprev] at h
      simp only [Option.bind_eq_bind, Option.bind_eq_some_iff, Option.some.injEq] at h
      obtain ⟨rd', hset, rfl⟩ := h
      have hsize := rdFcallSetFtrace_size hset
      exact hsize
  | functionArgs args =>
    simp only [storePacket, storeFargs] at h
    cases hprev : st.fcallPrev with
    | none =>
      rw [hprev] at h
      obtain rfl := Option.some.inj h
      rfl
    | some call =>
      rw [hprev] at h
      simp only [Option.bind_eq_bind, Option.bind_eq_some_iff, Option.some.injEq] at h
      obtain ⟨c, -, rfl⟩ := h
      rfl
  | memoryMap _ => obtain rfl := Option.some.inj h; rfl
  | contextRegistry _ => obtain rfl := Option.some.inj h; rfl
  | processInfo _ => obtain rfl := Option.some.inj h; rfl
  | moduleInfo _ => obtain rfl := Option.some.inj h; rfl
  | heapInfo _ => obtain rfl := Option.some.inj h; rfl
  | outputSettings => obtain rfl := Option.some.inj h; rfl
  | attachment _ => obtain rfl := Option.some.inj h; rfl

/-- Whatever packet is stored, the parser stays ready. -/
theorem storePacket_ready {st st' : ParseState w} (h : st.Ready) {data : PacketData w}
    (heq : storePacket st data = some st') : st'.Ready := by
  have hids : data.IdsInRange := by
    cases data with
    | resourceRegistry r =>
      show r.id.toNat ≤ 32
      by_contra hgt
      rw [storePacket, storeResource] at heq
      simp only [hgt, if_false] at heq
      cases heq
    | functionCall fc =>
      show fc.resType.toNat ≤ 32
      by_contra hgt
      rw [storePacket, storeFcall] at heq
      simp only [hgt, if_false] at heq
      cases heq
    | _ => trivial
  obtain ⟨st₁, heq₁, h₁⟩ := storePacket_sound h.1 hids
  obtain rfl := Option.some.inj (heq₁.symm.trans heq)
  exact ⟨h₁, (storePacket_size heq).trans h.2⟩

theorem processPacket_ready {origin : Str} {hs : Hshake} {st st' : ParseState w}
    {type : BitVec 32} {data : List UInt8} (h : st.Ready)
    (heq : processPacket origin hs st type data = some st') : st'.Ready := by
  unfold processPacket at heq
  split at heq
  · obtain rfl := Option.some.inj heq
    exact h
  · simp only [Option.bind_eq_bind, Option.bind_eq_some_iff, Prod.exists] at heq
    obtain ⟨reader, -, x, rest, -, hstore⟩ := heq
    exact storePacket_ready h hstore

/-- The handler of the packet loop keeps the parser ready. -/
theorem readGenericPacket_ready {origin : Str} {hs : Hshake} {st : Option (ParseState w)}
    (h : ∀ s, st = some s → s.Ready) (data : List UInt8) (size : Int) :
    ∀ s, (readGenericPacket origin hs st data size).state = some s → s.Ready := by
  intro s hs'
  unfold readGenericPacket at hs'
  split at hs'
  · exact h s hs'
  split at hs'
  · cases hs'
  split at hs'
  · exact h s hs'
  split at hs'
  · exact h s hs'
  split at hs'
  · simp only [Option.bind_eq_some_iff] at hs'
    obtain ⟨s₀, hst, heq⟩ := hs'
    exact processPacket_ready (h s₀ hst) heq
  · simp only [Option.map_eq_some_iff] at hs'
    obtain ⟨s₀, hst, rfl⟩ := hs'
    exact ⟨ParseState.sound_none (h s₀ hst).1.whole rfl, (h s₀ hst).2⟩

theorem readTextLines_whole {mktime : List (BitVec 32) → Int} {junk : Nat → Context w}
    {lines : List Str} {rd : Rd w} (h : readTextLines mktime junk rdCreate lines = some rd) :
    rd.Whole ∧ rd.ftraces.size = hashSize := by
  rcases readTextLines_log h with ⟨-, rfl⟩ | ⟨_, _, _, _, _, _, _, _, _, _, rfl, hshows⟩
  · exact ⟨whole_rdCreate, rfl⟩
  · exact ⟨hshows.whole, hshows.size⟩

/-- Both parsers leave a consistent store. -/
theorem Parsed.whole {rd : Rd w} (h : Parsed rd) : rd.Whole ∧ rd.ftraces.size = hashSize := by
  cases h with
  | text hread => exact readTextLines_whole hread
  | @binary origin mem chunk input hs c c' st hstart hreach hst =>
    have hready : ∀ s, c'.state = some s → s.Ready := by
      refine hreach.state_invariant (fun st => ∀ s, st = some s → s.Ready)
        (fun st data n hst => readGenericPacket_ready hst data n) ?_
      intro s hs'
      unfold readBinaryDataStart at hstart
      simp only at hstart
      split at hstart
      · cases hstart
      · simp only [Option.bind_eq_bind, Option.bind_eq_some_iff, Prod.exists] at hstart
        obtain ⟨hs₀, rest, -, hstart⟩ := hstart
        split at hstart
        · obtain ⟨rfl, rfl⟩ := Prod.mk.inj (Option.some.inj hstart)
          obtain rfl := Option.some.inj hs'
          exact ⟨ParseState.sound_none (whole_rdCreate.of_records _ _ _ _ _ _ _ _) rfl, rfl⟩
        · cases hstart
    exact ⟨(hready st hst).1.whole, (hready st hst).2⟩

/-! ## What filters leave alone -/

/-- The comments and the size of the backtrace table are the same. -/
def Kept (rd rd' : Rd w) : Prop :=
  rd'.comments = rd.comments ∧ rd'.ftraces.size = rd.ftraces.size

theorem Kept.refl (rd : Rd w) : Kept rd rd := ⟨rfl, rfl⟩

theorem Kept.trans {rd₁ rd₂ rd₃ : Rd w} (h₁ : Kept rd₁ rd₂) (h₂ : Kept rd₂ rd₃) : Kept rd₁ rd₃ :=
  ⟨h₂.1.trans h₁.1, h₂.2.trans h₁.2⟩

theorem rdFtraceFree_kept {rd rd' : Rd w} {trace : Nat} (h : rdFtraceFree rd trace = some rd') :
    Kept rd rd' := by
  simp only [rdFtraceFree, Option.bind_eq_bind, Option.bind_eq_some_iff, Option.some.injEq] at h
  obtain ⟨t, -, rfl⟩ := h
  exact .refl rd

theorem rdUnlinkFcall_kept {rd rd' : Rd w} {c : Fcall w} (h : rdUnlinkFcall rd c = some rd') :
    Kept rd rd' := by
  unfold rdUnlinkFcall at h
  cases htrace : c.trace with
  | none =>
    rw [htrace] at h
    obtain rfl := Option.some.inj h
    exact .refl rd
  | some trace =>
    rw [htrace] at h
    simp only [Option.bind_eq_bind, Option.bind_eq_some_iff] at h
    obtain ⟨t, -, h⟩ := h
    cases href : c.ref with
    | none =>
      simp only [href, Option.bind_some] at h
      split at h
      · simp only [Option.bind_eq_some_iff] at h
        obtain ⟨b, -, ftraces, hremove, hfree⟩ := h
        have hkept := rdFtraceFree_kept hfree
        exact ⟨hkept.1, hkept.2.trans (htableRemoveNode_size hremove)⟩
      · obtain rfl := Option.some.inj h
        exact .refl rd
    | some ref =>
      simp only [href, Option.bind_eq_some_iff, Option.bind_some] at h
      obtain ⟨calls, -, h⟩ := h
      split at h
      · simp only [Option.bind_eq_some_iff] at h
        obtain ⟨b, -, ftraces, hremove, hfree⟩ := h
        have hkept := rdFtraceFree_kept hfree
        exact ⟨hkept.1, hkept.2.trans (htableRemoveNode_size hremove)⟩
      · obtain rfl := Option.some.inj h
        exact .refl rd

theorem rdFcallRemove_kept {rd rd' : Rd w} {call : Nat} (h : rdFcallRemove rd call = some rd') :
    Kept rd rd' := by
  simp only [rdFcallRemove, Option.bind_eq_bind, Option.bind_eq_some_iff, Option.some.injEq] at h
  obtain ⟨calls, -, c, -, rd₁, hunlink, rfl⟩ := h
  have hkept := rdUnlinkFcall_kept hunlink
  exact hkept

theorem Removal.kept {rd rd' : Rd w} (h : Removal rd rd') : Kept rd rd' := by
  induction h with
  | refl => exact .refl rd
  | tail _ hstep ih =>
    cases hstep with
    | fcall heq => exact ih.trans (rdFcallRemove_kept heq)
    | lists => exact ih

/-- A filter keeps the store consistent. -/
def Keeps (rd rd' : Rd w) : Prop := Kept rd rd' ∧ (rd.Integrity → rd'.Integrity)

theorem Keeps.refl (rd : Rd w) : Keeps rd rd := ⟨.refl rd, id⟩

theorem Keeps.trans {rd₁ rd₂ rd₃ : Rd w} (h₁ : Keeps rd₁ rd₂) (h₂ : Keeps rd₂ rd₃) :
    Keeps rd₁ rd₃ := ⟨h₁.1.trans h₂.1, h₂.2 ∘ h₁.2⟩

theorem Removal.keeps {rd rd' : Rd w} (h : Removal rd rd') : Keeps rd rd' :=
  ⟨h.kept, fun hint => (h.left hint).1⟩

theorem trimBacktrace_keeps {depth : BitVec 32} {rd rd' : Rd w} {trace : Nat}
    (h : trimBacktrace depth rd trace = some rd') : Keeps rd rd' := by
  simp only [trimBacktrace, Option.bind_eq_bind, Option.bind_eq_some_iff] at h
  obtain ⟨t, ht, h⟩ := h
  split at h
  · obtain rfl := Option.some.inj h
    exact ⟨.refl rd, fun hint => hint.of_frames ht _⟩
  · obtain rfl := Option.some.inj h
    exact .refl rd

/-- Trimming changes frames only. -/
theorem filterTrimBacktraces_keeps {depth : BitVec 32} {rd rd' : Rd w}
    (h : filterTrimBacktraces depth rd = some rd') : Keeps rd rd' := by
  simp only [filterTrimBacktraces, Option.bind_eq_bind, Option.bind_eq_some_iff] at h
  obtain ⟨pinfo, -, hloop⟩ := h
  have hrun : ∀ (traces : List Nat) (rd₁ : Rd w), traces.foldlM (trimBacktrace depth) rd₁ = some rd' →
      Keeps rd₁ rd' := by
    intro traces
    induction traces with
    | nil =>
      intro rd₁ heq
      obtain rfl := Option.some.inj heq
      exact .refl rd₁
    | cons trace traces ih =>
      intro rd₁ heq
      rw [List.foldlM_cons, Option.bind_eq_bind, Option.bind_eq_some_iff] at heq
      obtain ⟨rd₂, hstep, heq⟩ := heq
      exact (trimBacktrace_keeps hstep).trans (ih rd₂ heq)
  have hdepth : Keeps rd
      { rd with pinfo := some { pinfo with backtraceDepth := depth } } :=
    ⟨.refl rd, fun hint => hint.of_stores rfl rfl rfl rfl rfl rfl⟩
  exact hdepth.trans (hrun _ _ hloop)

theorem filterFindLowhighBlocks_keeps {rd rd' : Rd w} {hinfo : Hinfo w}
    (h : filterFindLowhighBlocks rd hinfo = some rd') : Keeps rd rd' := by
  simp only [filterFindLowhighBlocks, Option.bind_eq_bind, Option.bind_eq_some_iff,
    Option.some.injEq] at h
  obtain ⟨hinfo', -, rfl⟩ := h
  exact ⟨.refl rd, fun hint => hint.of_stores rfl rfl rfl rfl rfl rfl⟩

theorem filterUpdateResourceVisibility_keeps {rd rd' : Rd w}
    (h : filterUpdateResourceVisibility rd = some rd') : Keeps rd rd' := by
  unfold filterUpdateResourceVisibility at h
  split at h
  · simp only [Option.bind_eq_bind, Option.bind_eq_some_iff, Option.some.injEq] at h
    obtain ⟨r, -, rfl⟩ := h
    exact ⟨.refl rd, fun hint => hint.of_stores rfl rfl rfl rfl rfl rfl⟩
  · obtain rfl := Option.some.inj h
    exact .refl rd

theorem FilterStep.keeps {rd rd' : Rd w} (h : FilterStep rd rd') : Keeps rd rd' := by
  cases h with
  | trimBacktraces heq => exact filterTrimBacktraces_keeps heq
  | resource heq => exact (filterResource_removal heq).keeps
  | callAddressRange heq => exact (filterCallAddressRange_removal heq).keeps
  | incl heq => exact (filterCalls_removal heq).keeps
  | excl heq => exact (filterCalls_removal heq).keeps
  | context heq => exact (filterContext_removal heq).keeps
  | findLowhighBlocks _ heq => exact filterFindLowhighBlocks_keeps heq
  | leaks heq => exact (filterLeaks_removal heq).keeps
  | updateResourceVisibility heq => exact filterUpdateResourceVisibility_keeps heq

theorem FilterRun.keeps {rd rd' : Rd w} (h : FilterRun rd rd') : Keeps rd rd' := by
  induction h with
  | refl => exact .refl rd
  | tail _ hstep ih => exact ih.trans hstep.keeps

/-- Filters leave the comments alone. -/
theorem FilterRun.kept {rd rd' : Rd w} (h : FilterRun rd rd') : Kept rd rd' := h.keeps.1

/-! ## What reaches the writer -/

/-- **What reaches the writer is consistent.** -/
theorem Processed.consistent {rd : Rd w} (h : Processed rd) :
    rd.Integrity ∧ rd.ftraces.size = hashSize := by
  obtain ⟨rd₀, hparsed, hcounted, hrun⟩ := h
  obtain ⟨hwhole, hsize⟩ := hparsed.whole
  exact ⟨hrun.keeps.2 (hwhole.integrity hcounted), hrun.kept.2.trans hsize⟩

end SpRtrace.Postproc
