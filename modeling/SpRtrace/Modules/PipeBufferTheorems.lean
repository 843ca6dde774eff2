/-
SpRtrace.Modules.PipeBufferTheorems — nothing is lost in the pipe buffer,
and when it overruns.

What was passed to `write`, followed by what waits in the buffer, is what
was put into it. The step lemma is `putGroup_spec`: it asks only that the
group fits behind the old content, and `putGroup_bound` says that without
that the group is written over the end of the buffer. Groups of at most
half the buffer always fit (`pipeBuffer_lossless`). The module does not
bound its groups, so a run stays inside the buffer exactly if every group
happens to fit (`tracerRun_inBounds_iff`).
-/
import SpRtrace.Modules.PipeBuffer

namespace SpRtrace.Modules

open SpRtrace.Lib SpRtrace.Common

variable {w : Nat}

/-! ## One group -/

/-- A buffer between two groups. -/
structure PipeBuffer.Valid (p : PipeBuffer) : Prop where
  size : p.pipeBuffer.length = 2 * bufferSize
  unlocked : p.locked = false
  head : p.head ≤ 2 * bufferSize

/-- Nothing waits at the beginning. -/
theorem PipeBuffer.content_of_head {p : PipeBuffer} (h : p.head = 0) : p.content = [] := by
  rw [PipeBuffer.content, h]
  rfl

theorem pipeBufferFlush_valid {p : PipeBuffer} (hp : p.Valid) (ok : Bool) :
    (pipeBufferFlush ok p).Valid :=
  ⟨hp.size, hp.unlocked, Nat.zero_le _⟩

theorem pipeBufferFlush_content (ok : Bool) (p : PipeBuffer) :
    (pipeBufferFlush ok p).content = [] :=
  PipeBuffer.content_of_head rfl

/-- Bytes that fit are written behind the content. -/
theorem beginGroup_eq {p : PipeBuffer} (hp : p.Valid) {bytes : List UInt8}
    (hfit : p.head + bytes.length ≤ 2 * bufferSize) :
    beginGroup bytes p = some
      ({ p with pipeBuffer := patch p.pipeBuffer p.head bytes, locked := true }, p.head) := by
  have hlock : pipeBufferLock p = some ({ p with locked := true }, p.head) := by
    rw [pipeBufferLock, hp.unlocked]
    rfl
  have hstore : storeCells p.pipeBuffer p.head bytes = some (patch p.pipeBuffer p.head bytes) :=
    storeCells_eq (by rw [hp.size]; exact hfit)
  simp only [beginGroup, hlock, hstore, Option.bind_eq_bind, Option.bind_some]

/-- A group that goes over the first half: the old content is flushed and
the group moves to the front, over itself. -/
theorem putGroup_moved {p : PipeBuffer} (hp : p.Valid) {bytes : List UInt8} (buffering ok : Bool)
    (hfit : p.head + bytes.length ≤ 2 * bufferSize) (hfull : bufferSize < p.head + bytes.length) :
    putGroup buffering ok bytes p = some
      { pipeBuffer := patch (patch p.pipeBuffer p.head bytes) 0 bytes, head := bytes.length,
        locked := false, enable := p.enable && ok, sent := p.sent ++ p.content } := by
  have hpos : p.head ≤ p.pipeBuffer.length := by rw [hp.size]; exact hp.head
  have hend : p.head + bytes.length ≤ p.pipeBuffer.length := by rw [hp.size]; exact hfit
  have hcopy : copyCells (patch p.pipeBuffer p.head bytes) 0 p.head bytes.length
      = some (patch (patch p.pipeBuffer p.head bytes) 0 bytes) := by
    rw [copyCells_eq (Nat.zero_le _) (by rw [patch_length hend]; exact hend),
      slice_patch bytes hpos]
  simp only [putGroup, beginGroup_eq hp hfit, Option.bind_eq_bind, Option.bind_some,
    pipeBufferUnlock, ne_eq, not_true_eq_false, if_false, if_pos hfull, pipeBufferFlush, hcopy,
    PipeBuffer.content, slice_patch_left bytes hpos]

/-- A group in the first half stays there, or is flushed at once. -/
theorem putGroup_kept {p : PipeBuffer} (hp : p.Valid) {bytes : List UInt8} (buffering ok : Bool)
    (hhalf : p.head + bytes.length ≤ bufferSize) :
    putGroup buffering ok bytes p =
      let kept : PipeBuffer :=
        { p with pipeBuffer := patch p.pipeBuffer p.head bytes, head := p.head + bytes.length }
      some (if buffering then kept else pipeBufferFlush ok kept) := by
  have hfit : p.head + bytes.length ≤ 2 * bufferSize := by omega
  have hlocked := hp.unlocked
  cases buffering <;>
    simp [putGroup, beginGroup_eq hp hfit, pipeBufferUnlock, Nat.not_lt.mpr hhalf, hlocked,
      pipeBufferFlush, PipeBuffer.content]

/-- **A group that fits is not lost.** -/
theorem putGroup_spec {p : PipeBuffer} (hp : p.Valid) {bytes : List UInt8} (buffering ok : Bool)
    (hfit : p.head + bytes.length ≤ 2 * bufferSize) :
    ∃ p', putGroup buffering ok bytes p = some p' ∧ p'.Valid ∧
      p'.sent ++ p'.content = p.sent ++ p.content ++ bytes ∧
      p'.head ≤ max bufferSize bytes.length := by
  have hpos : p.head ≤ p.pipeBuffer.length := by rw [hp.size]; exact hp.head
  have hend : p.head + bytes.length ≤ p.pipeBuffer.length := by rw [hp.size]; exact hfit
  have hsize : (patch p.pipeBuffer p.head bytes).length = 2 * bufferSize := by
    rw [patch_length hend, hp.size]
  by_cases hfull : bufferSize < p.head + bytes.length
  · have hcopied : (0 : Nat) + bytes.length ≤ (patch p.pipeBuffer p.head bytes).length := by omega
    refine ⟨_, putGroup_moved hp buffering ok hfit hfull,
      ⟨(patch_length hcopied).trans hsize, rfl, by show bytes.length ≤ _; omega⟩, ?_,
      Nat.le_max_right ..⟩
    show p.sent ++ p.content ++ slice (patch _ 0 bytes) 0 bytes.length = _
    rw [slice_patch bytes (Nat.zero_le _)]
  · have hhalf : p.head + bytes.length ≤ bufferSize := Nat.not_lt.mp hfull
    have hkept := putGroup_kept hp buffering ok hhalf
    set kept : PipeBuffer :=
      { p with pipeBuffer := patch p.pipeBuffer p.head bytes, head := p.head + bytes.length }
      with hdef
    have hvalid : kept.Valid := ⟨hsize, hp.unlocked, hfit⟩
    have hcontent : kept.content = p.content ++ bytes := slice_patch_snoc bytes hpos
    refine ⟨_, hkept, ?_⟩
    cases buffering with
    | true =>
      refine ⟨hvalid, ?_, le_max_of_le_left hhalf⟩
      show p.sent ++ kept.content = _
      rw [hcontent, List.append_assoc]
    | false =>
      refine ⟨pipeBufferFlush_valid hvalid ok, ?_, Nat.zero_le _⟩
      show p.sent ++ kept.content ++ (pipeBufferFlush ok kept).content = _
      rw [pipeBufferFlush_content, hcontent, List.append_nil, List.append_assoc]

/-- A group is written to its end only if it fits. -/
theorem putGroup_bound {p p' : PipeBuffer} (hp : p.Valid) {bytes : List UInt8} {buffering ok : Bool}
    (h : putGroup buffering ok bytes p = some p') : p.head + bytes.length ≤ 2 * bufferSize := by
  rw [putGroup, Option.bind_eq_bind, Option.bind_eq_some_iff] at h
  obtain ⟨r, hbegin, -⟩ := h
  rw [beginGroup, pipeBufferLock, hp.unlocked] at hbegin
  cases hstore : storeCells p.pipeBuffer p.head bytes with
  | none => simp [hstore] at hbegin
  | some mem =>
    rw [← hp.size]
    exact storeCells_bound hstore (by rw [hp.size]; exact hp.head)

/-! ## Runs of bounded groups -/

/-- The buffer as `pipe_buffer_reset` leaves it. -/
structure PipeBuffer.Fresh (p : PipeBuffer) : Prop where
  size : p.pipeBuffer.length = 2 * bufferSize
  unlocked : p.locked = false
  head : p.head = 0
  sent : p.sent = []

theorem PipeBuffer.Fresh.valid {p : PipeBuffer} (h : p.Fresh) : p.Valid :=
  ⟨h.size, h.unlocked, by rw [h.head]; exact Nat.zero_le _⟩

/-- What one operation preserves. -/
theorem pipeOp_step {p : PipeBuffer} (hp : p.Valid) (hhead : p.head ≤ bufferSize) (buffering : Bool)
    {op : PipeOp} (hop : op.bytes.length ≤ bufferSize) :
    ∃ p', op.step buffering p = some p' ∧ p'.Valid ∧ p'.head ≤ bufferSize ∧
      p'.sent ++ p'.content = p.sent ++ p.content ++ op.bytes := by
  cases op with
  | group bytes =>
    have hop : bytes.length ≤ bufferSize := hop
    obtain ⟨p', hput, hvalid, hbytes, hhead'⟩ := putGroup_spec hp buffering true
      (show p.head + bytes.length ≤ 2 * bufferSize by omega)
    exact ⟨p', hput, hvalid, by rwa [Nat.max_eq_left hop] at hhead', hbytes⟩
  | flush =>
    refine ⟨_, rfl, pipeBufferFlush_valid hp true, Nat.zero_le _, ?_⟩
    rw [pipeBufferFlush_content]
    show p.sent ++ p.content ++ [] = p.sent ++ p.content ++ []
    rfl

theorem pipeRun_spec {ops : List PipeOp} (buffering : Bool)
    (hops : ∀ op ∈ ops, op.bytes.length ≤ bufferSize) {p : PipeBuffer} (hp : p.Valid)
    (hhead : p.head ≤ bufferSize) :
    ∃ p', pipeRun buffering p ops = some p' ∧ p'.Valid ∧ p'.head ≤ bufferSize ∧
      p'.sent ++ p'.content = p.sent ++ p.content ++ ops.flatMap PipeOp.bytes := by
  induction ops generalizing p with
  | nil => exact ⟨p, rfl, hp, hhead, by simp⟩
  | cons op ops ih =>
    obtain ⟨p₁, hstep, hp₁, hhead₁, hbytes₁⟩ :=
      pipeOp_step hp hhead buffering (hops op (List.mem_cons_self ..))
    obtain ⟨p₂, hrun, hp₂, hhead₂, hbytes₂⟩ :=
      ih (fun op' hop' => hops op' (List.mem_cons_of_mem _ hop')) hp₁ hhead₁
    refine ⟨p₂, ?_, hp₂, hhead₂, ?_⟩
    · rw [pipeRun, List.foldlM_cons, hstep]
      exact hrun
    · rw [hbytes₂, hbytes₁, List.flatMap_cons, List.append_assoc]

/-- **The pipe buffer is lossless.** Whatever groups of at most
`BUFFER_SIZE` bytes were put into it, with flushes anywhere in between:
what was passed to `write` and what waits in the buffer are the groups in
order, also while the next group is being written, and a flush hands over
the rest. -/
theorem pipeBuffer_lossless (buffering : Bool) {p₀ : PipeBuffer} (hfresh : p₀.Fresh)
    {ops : List PipeOp} (hops : ∀ op ∈ ops, op.bytes.length ≤ bufferSize) :
    ∃ p, pipeRun buffering p₀ ops = some p ∧ p.head ≤ bufferSize ∧
      p.sent ++ p.content = ops.flatMap PipeOp.bytes ∧
      (∀ part, part.length ≤ bufferSize → ∃ p' ptr, beginGroup part p = some (p', ptr) ∧
        p'.sent ++ p'.content = ops.flatMap PipeOp.bytes) ∧
      (pipeBufferFlush true p).head = 0 ∧ (pipeBufferFlush true p).content = [] ∧
      (pipeBufferFlush true p).sent = ops.flatMap PipeOp.bytes := by
  obtain ⟨p, hrun, hp, hhead, hbytes⟩ := pipeRun_spec buffering hops hfresh.valid
    (by rw [hfresh.head]; exact Nat.zero_le _)
  rw [hfresh.sent, PipeBuffer.content_of_head hfresh.head, List.nil_append, List.nil_append] at hbytes
  refine ⟨p, hrun, hhead, hbytes, ?_, rfl, pipeBufferFlush_content true p, hbytes⟩
  intro part hpart
  have hpos : p.head ≤ p.pipeBuffer.length := by rw [hp.size]; exact hp.head
  refine ⟨_, _, beginGroup_eq hp (show p.head + part.length ≤ 2 * bufferSize by omega), ?_⟩
  show p.sent ++ slice (patch p.pipeBuffer p.head part) 0 p.head = _
  rw [slice_patch_left part hpos]
  exact hbytes

def freshBuffer : PipeBuffer :=
  { pipeBuffer := List.replicate (2 * bufferSize) 0, head := 0, locked := false, enable := true,
    sent := [] }

theorem freshBuffer_fresh : freshBuffer.Fresh := ⟨List.length_replicate, rfl, rfl, rfl⟩

/-- A group that is moved over itself, behind one that fills most of the
first half. -/
theorem pipeBuffer_lossless_overlap :
    ∃ p, pipeRun true freshBuffer
        [.group (List.replicate 3000 1), .group (List.replicate 4096 2)] = some p ∧
      p.head ≤ bufferSize ∧
      p.sent ++ p.content
        = [PipeOp.group (List.replicate 3000 1), .group (List.replicate 4096 2)].flatMap
            PipeOp.bytes := by
  have hops : ∀ op ∈ [PipeOp.group (List.replicate 3000 1), .group (List.replicate 4096 2)],
      op.bytes.length ≤ bufferSize := by
    intro op hop
    rcases List.mem_cons.mp hop with rfl | hop
    · exact (List.length_replicate).trans_le (by decide)
    · rw [List.mem_singleton.mp hop]
      exact (List.length_replicate).trans_le (by decide)
  obtain ⟨p, hrun, hhead, hbytes, -⟩ := pipeBuffer_lossless true freshBuffer_fresh hops
  exact ⟨p, hrun, hhead, hbytes⟩

/-! ## Runs of the writing functions -/

theorem protoPacket_length (type : BitVec 32) (payload : List UInt8) :
    (protoPacket type payload).length = 8 + payload.length := by
  simp only [protoPacket, List.length_append, writeDword_length]

theorem writeFargs_length (args : List ModuleFarg) :
    (writeFargs args).length = 4 + (args.map fargSize).sum := by
  simp only [writeFargs, List.length_append, writeDword_length, List.length_flatMap,
    writeString_length]
  rfl

theorem writeBacktrace_length (frames : List (BitVec w)) :
    (writeBacktrace frames).length = 4 + frames.length * (w / 8) := by
  simp [writeBacktrace, List.length_flatMap]

/-- The size is that of the bytes. -/
theorem TracerCall.group_length {c : TracerCall w} {enable : Bool} {bytes : List UInt8}
    (h : c.group enable = some bytes) : bytes.length = c.size enable := by
  cases c with
  | functionCall c args frames =>
    obtain ⟨rfl, rfl⟩ : enable = true ∧ spRtraceWriteFunctionCall c args frames = bytes := by
      simpa [TracerCall.group] using h
    cases args <;>
      simp [spRtraceWriteFunctionCall, protoPacket_length, writeFargs_length, writeBacktrace_length,
        writeFcall, TracerCall.size] <;> omega
  | attachment a =>
    rw [← Option.some.inj h]
    simp [protoPacket_length, spRtraceWriteAttachment, TracerCall.size]
  | contextRegistry c =>
    obtain ⟨rfl, rfl⟩ : enable = true ∧
        protoPacket protoContextRegistry (spRtraceWriteContextRegistry c) = bytes := by
      simpa [TracerCall.group] using h
    simp [protoPacket_length, spRtraceWriteContextRegistry, TracerCall.size]
  | newLibrary library =>
    rw [← Option.some.inj h]
    simp [protoPacket_length, spRtraceWriteNewLibrary, TracerCall.size]

/-- A call that writes nothing needs no room. -/
theorem TracerCall.size_of_group {c : TracerCall w} {enable : Bool} (h : c.group enable = none) :
    c.size enable = 0 := by
  cases c with
  | functionCall c args frames =>
    have henable : enable = false := by simpa [TracerCall.group] using h
    rw [henable]
    rfl
  | attachment a => exact absurd h (by simp [TracerCall.group])
  | contextRegistry c =>
    have henable : enable = false := by simpa [TracerCall.group] using h
    rw [henable]
    rfl
  | newLibrary library => exact absurd h (by simp [TracerCall.group])

/-- A call whose packets fit is written. -/
theorem tracerStep_spec {p : PipeBuffer} (hp : p.Valid) (buffering : Bool)
    (call : TracerCall w × Bool) (hfit : p.head + call.1.size p.enable ≤ 2 * bufferSize) :
    ∃ p', tracerStep buffering p call = some p' ∧ p'.Valid := by
  rw [tracerStep]
  cases hgroup : call.1.group p.enable with
  | none => exact ⟨p, rfl, hp⟩
  | some bytes =>
    rw [← TracerCall.group_length hgroup] at hfit
    obtain ⟨p', hput, hvalid, -⟩ := putGroup_spec hp buffering call.2 hfit
    exact ⟨p', hput, hvalid⟩

/-- The packets of a call that is written fit. -/
theorem tracerStep_bound {p p' : PipeBuffer} (hp : p.Valid) {buffering : Bool}
    {call : TracerCall w × Bool} (h : tracerStep buffering p call = some p') :
    p.head + call.1.size p.enable ≤ 2 * bufferSize := by
  rw [tracerStep] at h
  cases hgroup : call.1.group p.enable with
  | none =>
    rw [TracerCall.size_of_group hgroup]
    exact hp.head
  | some bytes =>
    rw [hgroup] at h
    rw [← TracerCall.group_length hgroup]
    exact putGroup_bound hp h

theorem tracerRun_cons (buffering : Bool) (p : PipeBuffer) (call : TracerCall w × Bool)
    (calls : List (TracerCall w × Bool)) :
    tracerRun buffering p (call :: calls)
      = (tracerStep buffering p call).bind fun p' => tracerRun buffering p' calls :=
  List.foldlM_cons

/-- In a run every call finds room for its packets. -/
def TracerFits (buffering : Bool) (p₀ : PipeBuffer) (calls : List (TracerCall w × Bool)) : Prop :=
  ∀ pre call post, calls = pre ++ call :: post → ∀ p, tracerRun buffering p₀ pre = some p →
    p.head + call.1.size p.enable ≤ 2 * bufferSize

theorem tracerFits_cons {buffering : Bool} {p p' : PipeBuffer} {call : TracerCall w × Bool}
    {calls : List (TracerCall w × Bool)} (hstep : tracerStep buffering p call = some p') :
    TracerFits buffering p (call :: calls) ↔
      p.head + call.1.size p.enable ≤ 2 * bufferSize ∧ TracerFits buffering p' calls := by
  constructor
  · intro h
    refine ⟨h [] call calls rfl p rfl, fun pre call' post hcalls q hq => ?_⟩
    refine h (call :: pre) call' post (by rw [hcalls]; rfl) q ?_
    rw [tracerRun_cons, hstep]
    exact hq
  · rintro ⟨hfirst, hrest⟩ pre call' post hcalls q hq
    cases pre with
    | nil =>
      obtain ⟨rfl, -⟩ := List.cons.inj hcalls
      rw [← Option.some.inj hq]
      exact hfirst
    | cons call₁ pre =>
      obtain ⟨rfl, htail⟩ := List.cons.inj hcalls
      rw [tracerRun_cons, hstep] at hq
      exact hrest pre call' post htail q hq

theorem tracerRun_isSome {buffering : Bool} {calls : List (TracerCall w × Bool)} {p : PipeBuffer}
    (hp : p.Valid) : (tracerRun buffering p calls).isSome ↔ TracerFits buffering p calls := by
  induction calls generalizing p with
  | nil =>
    refine ⟨fun _ pre call post hcalls => ?_, fun _ => rfl⟩
    exact absurd hcalls (by simp)
  | cons call calls ih =>
    by_cases hfit : p.head + call.1.size p.enable ≤ 2 * bufferSize
    · obtain ⟨p', hstep, hp'⟩ := tracerStep_spec hp buffering call hfit
      rw [tracerFits_cons hstep, tracerRun_cons, hstep, Option.bind_some, ih hp']
      exact ⟨fun h => ⟨hfit, h⟩, fun h => h.2⟩
    · refine ⟨fun h => ?_, fun h => absurd (h [] call calls rfl p rfl) hfit⟩
      cases hstep : tracerStep buffering p call with
      | none =>
        rw [tracerRun_cons, hstep] at h
        exact absurd h (by simp)
      | some p' => exact absurd (tracerStep_bound hp hstep) hfit

/-- Packets that are sent at once find room behind what waits. -/
theorem tracerFits_short {buffering : Bool} {calls : List (TracerCall w × Bool)} {p : PipeBuffer}
    (hp : p.Valid) (hhead : p.head ≤ bufferSize)
    (hshort : ∀ call ∈ calls, ∀ enable, call.1.size enable ≤ bufferSize) :
    TracerFits buffering p calls := by
  induction calls generalizing p with
  | nil => exact fun pre call post hcalls => absurd hcalls (by simp)
  | cons call calls ih =>
    have hsize := hshort call List.mem_cons_self p.enable
    have hfit : p.head + call.1.size p.enable ≤ 2 * bufferSize := by omega
    have hrest : ∀ call ∈ calls, ∀ enable, call.1.size enable ≤ bufferSize :=
      fun c hc => hshort c (List.mem_cons_of_mem _ hc)
    obtain ⟨p', hstep, hp'⟩ := tracerStep_spec hp buffering call hfit
    refine (tracerFits_cons hstep).mpr ⟨hfit, ih hp' ?_ hrest⟩
    rw [tracerStep] at hstep
    cases hgroup : call.1.group p.enable with
    | none =>
      simp only [hgroup, Option.some.injEq] at hstep
      rwa [← hstep]
    | some bytes =>
      simp only [hgroup] at hstep
      have hlength := TracerCall.group_length hgroup
      obtain ⟨q, hput, -, -, hle⟩ := putGroup_spec hp buffering call.2 (hlength ▸ hfit)
      obtain rfl := Option.some.inj (hstep.symm.trans hput)
      omega

/-- **When the packet buffer overruns.** A run of the writing functions
stays inside the buffer if and only if every call finds room for its
packets behind what waits there. -/
theorem tracerRun_inBounds_iff (buffering : Bool) {p₀ : PipeBuffer} (hfresh : p₀.Fresh)
    (calls : List (TracerCall w × Bool)) :
    (tracerRun buffering p₀ calls).isSome ↔
      ∀ pre call post, calls = pre ++ call :: post → ∀ p, tracerRun buffering p₀ pre = some p →
        p.head + call.1.size p.enable ≤ 2 * bufferSize :=
  tracerRun_isSome hfresh.valid

/-- `open` of a file with a name of the given length, without a backtrace. -/
def openCall (length : Nat) : TracerCall 64 :=
  .functionCall
    { type := 1, context := 0, timestamp := 0, name := some "open".toList, resTypeId := 1,
      resId := 3, resSize := 1 }
    (some [{ name := "path".toList, value := some (List.replicate length 'a') },
      { name := "flags".toList, value := some "0x0".toList }]) []

theorem openCall_size {length : Nat} (h : 4 ∣ 2 + length) :
    (openCall length).size true = 94 + length := by
  simp [openCall, TracerCall.size, fargSize, stringSize, padding]
  omega

/-- A run that stays inside: the names leave room for the packets, also
behind a write that fails. -/
theorem tracerRun_inBounds_iff_files :
    (tracerRun true freshBuffer
      [(openCall 22, true), (openCall 3994, true), (openCall 3994, false), (openCall 22, true)]).isSome := by
  have hshort : ∀ length, 4 ∣ 2 + length → length ≤ 3994 → ∀ enable,
      (openCall length).size enable ≤ bufferSize := by
    intro length hdvd hle enable
    cases enable with
    | false => exact Nat.zero_le _
    | true =>
      rw [openCall_size hdvd, bufferSize]
      omega
  refine (tracerRun_inBounds_iff true freshBuffer_fresh _).mpr
    (tracerFits_short freshBuffer_fresh.valid (Nat.zero_le _) fun call hcall => ?_)
  simp only [List.mem_cons, List.not_mem_nil, or_false] at hcall
  rcases hcall with rfl | rfl | rfl | rfl
  · exact hshort 22 (by decide) (by decide)
  · exact hshort 3994 (by decide) (by decide)
  · exact hshort 3994 (by decide) (by decide)
  · exact hshort 22 (by decide) (by decide)

/-- Two files with the longest name a path can have are opened: the second
event does not fit behind the first, which is longer than what is sent at
once and waits. -/
theorem openCalls_overrun :
    tracerRun true freshBuffer [(openCall 4094, true), (openCall 4094, true)] = none := by
  have hsize : (openCall 4094).size true = 4188 := openCall_size (by decide)
  obtain ⟨bytes, hgroup⟩ : ∃ bytes, (openCall 4094).group true = some bytes := ⟨_, rfl⟩
  have hlen : bytes.length = 4188 := (TracerCall.group_length hgroup).trans hsize
  have hstep : tracerStep true freshBuffer (openCall 4094, true)
      = putGroup true true bytes freshBuffer := by
    rw [tracerStep, show freshBuffer.enable = true from rfl, hgroup]
  have hmoved := putGroup_moved freshBuffer_fresh.valid true true
    (show freshBuffer.head + bytes.length ≤ 2 * bufferSize by rw [hlen]; decide)
    (show bufferSize < freshBuffer.head + bytes.length by rw [hlen]; decide)
  have hnot : ¬ TracerFits true freshBuffer [(openCall 4094, true), (openCall 4094, true)] := by
    intro hfits
    have hroom := hfits [(openCall 4094, true)] (openCall 4094, true) [] rfl _
      (by rw [tracerRun_cons, hstep, hmoved]; rfl)
    have hroom : bytes.length + (openCall 4094).size true ≤ 2 * bufferSize := hroom
    rw [hlen, hsize] at hroom
    exact absurd hroom (by decide)
  rw [← tracerRun_isSome freshBuffer_fresh.valid, Option.not_isSome_iff_eq_none] at hnot
  exact hnot

end SpRtrace.Modules
