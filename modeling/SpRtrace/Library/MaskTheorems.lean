/-
SpRtrace.Library.MaskTheorems — what `sp_rtrace_parser_set_mask` changes.

Every scanner asks for its bit of the mask when it has read a whole
record, so a mask only takes records away (`parseRecord_mask`). The
scanner of the resources asks for the bit of the contexts: a resource
line follows the mask if the two bits are equal (`parseRecord_mask_iff`).
-/
import SpRtrace.Library.RecordTheorems

namespace SpRtrace.Library

open SpRtrace.Lib SpRtrace.Common

variable {w : Nat} {mask bit : BitVec 32}

/-! ## Scanners under a mask -/

def Record.typeBit : Record w → BitVec 32
  | .none => 0
  | .trace _ => recordTrace
  | .call _ => recordCall
  | .arg _ => recordArg
  | .mmap _ => recordMmap
  | .context _ => recordContext
  | .resource _ => recordResource
  | .attachment _ => recordAttachment
  | .comment => recordComment

/-- The bit that the scanner of a record asks for. -/
def Record.asked : Record w → BitVec 32
  | .resource _ => recordContext
  | rec => rec.typeBit

/-- A result of a scanner that parses all records, under another mask. -/
def ParseResult.masked {α : Type} (mask bit : BitVec 32) : ParseResult α → ParseResult α
  | .ok a => if mask &&& bit = 0 then .ignore else .ok a
  | r => r

theorem ParseResult.masked_bind {α β : Type} {r : ParseResult α} {f g : α → ParseResult β}
    (h : ∀ a, f a = (g a).masked mask bit) : (r >>= f) = (r >>= g).masked mask bit := by
  cases r with
  | ok a => exact h a
  | _ => rfl

/-- The end of a scanner. -/
theorem checkMask_masked {α : Type} (hbit : recordAll &&& bit ≠ 0) (a : α) :
    (checkMask mask bit >>= fun _ => ParseResult.ok a)
      = (checkMask recordAll bit >>= fun _ => ParseResult.ok a).masked mask bit := by
  unfold checkMask
  rw [if_neg hbit]
  by_cases hm : mask &&& bit = 0
  · rw [if_pos hm]
    simp only [ParseResult.ok_bind, ParseResult.masked, if_pos hm]
    rfl
  · rw [if_neg hm]
    simp only [ParseResult.ok_bind, ParseResult.masked, if_neg hm]

theorem parseBacktrace_masked (line : Str) : parseBacktrace (w := w) mask line
    = (parseBacktrace recordAll line).masked mask recordTrace := by
  unfold parseBacktrace
  split
  · rfl
  refine ParseResult.masked_bind fun values => ?_
  split
  · exact checkMask_masked (by decide) _
  · rfl

theorem parseFunctionCall_masked (line : Str) : parseFunctionCall (w := w) mask line
    = (parseFunctionCall recordAll line).masked mask recordCall := by
  unfold parseFunctionCall
  refine ParseResult.masked_bind fun index => ParseResult.masked_bind fun context => ?_
  refine ParseResult.masked_bind fun timestamp => ParseResult.masked_bind fun name => ?_
  refine ParseResult.masked_bind fun resType => ParseResult.masked_bind fun value => ?_
  exact checkMask_masked (by decide) _

theorem parseArguments_masked (line : Str) : parseArguments w mask line
    = (parseArguments w recordAll line).masked mask recordArg := by
  unfold parseArguments
  split
  · rfl
  refine ParseResult.masked_bind fun values => ?_
  split
  · exact checkMask_masked (by decide) _
  · rfl

theorem parseMemoryMapping_masked (line : Str) : parseMemoryMapping (w := w) mask line
    = (parseMemoryMapping recordAll line).masked mask recordMmap := by
  unfold parseMemoryMapping
  refine ParseResult.masked_bind fun values => ?_
  split
  · exact checkMask_masked (by decide) _
  · rfl

theorem parseContextRegistry_masked (line : Str) : parseContextRegistry (w := w) mask line
    = (parseContextRegistry recordAll line).masked mask recordContext := by
  unfold parseContextRegistry
  refine ParseResult.masked_bind fun values => ?_
  split
  · exact checkMask_masked (by decide) _
  · rfl

/-- The bit is that of the contexts. -/
theorem parseResourceRegistry_masked (line : Str) : parseResourceRegistry (w := w) mask line
    = (parseResourceRegistry recordAll line).masked mask recordContext := by
  unfold parseResourceRegistry
  refine ParseResult.masked_bind fun values => ?_
  split
  · exact checkMask_masked (by decide) _
  · rfl

theorem parseFileAttachment_masked (line : Str) : parseFileAttachment w mask line
    = (parseFileAttachment w recordAll line).masked mask recordAttachment := by
  unfold parseFileAttachment
  refine ParseResult.masked_bind fun values => ?_
  split
  · exact checkMask_masked (by decide) _
  · rfl

/-! ## Records under a mask -/

/-- A record under a mask. -/
def Record.masked (mask : BitVec 32) (rec : Record w) : Record w :=
  if mask &&& rec.asked = 0 then .none else rec

theorem orElse_masked {α : Type} {r : ParseResult α} {make : α → Record w}
    {next next' : Option (Record w)} (hmake : ∀ a, (make a).asked = bit)
    (hnext : next = next'.map (Record.masked mask)) :
    (r.masked mask bit).orElse make next = (r.orElse make next').map (Record.masked mask) := by
  cases r with
  | fault => rfl
  | fail => exact hnext
  | ignore =>
    simp only [ParseResult.masked, ParseResult.orElse, Option.map_some, Record.masked]
    split <;> rfl
  | ok a =>
    simp only [ParseResult.masked]
    by_cases hm : mask &&& bit = 0
    · rw [if_pos hm]
      simp only [ParseResult.orElse, Option.map_some, Record.masked, hmake a, if_pos hm]
    · rw [if_neg hm]
      simp only [ParseResult.orElse, Option.map_some, Record.masked, hmake a, if_neg hm]

/-- **A mask only takes records away.** -/
theorem parseRecord_mask (mask : BitVec 32) (line : Str) :
    spRtraceParserParseRecord (w := w) mask line
      = (spRtraceParserParseRecord recordAll line).map (Record.masked mask) := by
  unfold spRtraceParserParseRecord
  rw [parseBacktrace_masked, parseFunctionCall_masked, parseArguments_masked,
    parseMemoryMapping_masked, parseContextRegistry_masked, parseResourceRegistry_masked,
    parseFileAttachment_masked]
  refine orElse_masked (fun _ => rfl) ?_
  refine orElse_masked (fun _ => rfl) ?_
  refine orElse_masked (fun _ => rfl) ?_
  refine orElse_masked (fun _ => rfl) ?_
  refine orElse_masked (fun _ => rfl) ?_
  refine orElse_masked (fun _ => rfl) ?_
  refine orElse_masked (fun _ => rfl) ?_
  rw [if_neg (show ¬ recordAll &&& recordComment = 0 by decide)]
  rfl

/-- A type whose scanner asks for its own bit. -/
theorem Record.asked_eq_typeBit {rec : Record w} (h : ∀ r, rec ≠ .resource r) : rec.asked = rec.typeBit := by
  cases rec with
  | resource r => exact absurd rfl (h r)
  | _ => rfl

/-- **The mask decides by the type of a record** exactly if the record is
no resource or the bits of resources and contexts are set alike. -/
theorem parseRecord_mask_iff {mask : BitVec 32} {line : Str} {rec : Record w}
    (h : spRtraceParserParseRecord recordAll line = some rec) :
    spRtraceParserParseRecord mask line = some (if mask &&& rec.typeBit = 0 then .none else rec) ↔
      ∀ r, rec = .resource r → (mask &&& recordContext = 0 ↔ mask &&& recordResource = 0) := by
  rw [parseRecord_mask, h, Option.map_some, Option.some.injEq, Record.masked]
  by_cases hres : ∃ r, rec = .resource r
  · obtain ⟨r, rfl⟩ := hres
    simp only [Record.resource.injEq, forall_eq']
    by_cases hc : mask &&& (Record.resource r).asked = 0
    · rw [if_pos hc]
      by_cases hr : mask &&& (Record.resource r).typeBit = 0
      · rw [if_pos hr]
        exact ⟨fun _ => ⟨fun _ => hr, fun _ => hc⟩, fun _ => rfl⟩
      · rw [if_neg hr]
        exact ⟨fun he => (by cases he), fun hiff => absurd (hiff.mp hc) hr⟩
    · rw [if_neg hc]
      by_cases hr : mask &&& (Record.resource r).typeBit = 0
      · rw [if_pos hr]
        exact ⟨fun he => (by cases he), fun hiff => absurd (hiff.mpr hr) hc⟩
      · rw [if_neg hr]
        exact ⟨fun _ => ⟨fun h => absurd h hc, fun h => absurd h hr⟩, fun _ => rfl⟩
  · push Not at hres
    rw [Record.asked_eq_typeBit hres]
    exact ⟨fun _ r hr => absurd hr (hres r), fun _ => rfl⟩

def resourceLine : Str := "<1> : memory (heap)\n".toList

/-- A resource is not parsed if contexts are not. -/
theorem parseRecord_mask_resource :
    ∃ r : Resource 64, spRtraceParserParseRecord recordAll resourceLine = some (.resource r) ∧
      spRtraceParserParseRecord (w := 64) recordResource resourceLine = some .none ∧
      recordResource &&& (Record.resource r).typeBit ≠ 0 := by
  refine ⟨{ id := 1, type := "memory".toList, desc := "heap".toList, flags := 0, hide := false },
    ?_, ?_, by decide⟩
  · decide +kernel
  · decide +kernel

/-- With both bits it is. -/
theorem parseRecord_mask_iff_both :
    ∃ r : Resource 64, spRtraceParserParseRecord (recordResource ||| recordContext) resourceLine
      = some (.resource r) := by
  let r : Resource 64 :=
    { id := 1, type := "memory".toList, desc := "heap".toList, flags := 0, hide := false }
  have h : spRtraceParserParseRecord recordAll resourceLine = some (.resource r) := by
    decide +kernel
  refine ⟨r, ((parseRecord_mask_iff h).mpr fun r _ => by decide).trans ?_⟩
  rw [if_neg (show ¬ (recordResource ||| recordContext) &&& (Record.resource r).typeBit = 0 by decide)]

end SpRtrace.Library
