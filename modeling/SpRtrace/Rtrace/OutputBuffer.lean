/-
SpRtrace.Rtrace.OutputBuffer — the output buffer of the pre-processor,
`flush_data` and `write_data` of `src/rtrace/listener.c`.

`write_data` stores a packet at the head of the buffer and flushes it once
half of it is used. A flush whose `write()` fails leaves the head where it
is, and the next packet goes behind it.

The buffer does not look at the bytes. Their type is a parameter, so they
can carry a mark that tells them apart. What was given to a `write()` that
did not fail is kept in `written`; `none` is a `memcpy` over the end of the
buffer.

`outputRun_safe_iff` says which sequences of calls stay inside: those in
which the packets handed over since the last flush that went through never
come to more than the buffer holds.
-/
import Mathlib
import SpRtrace.Lib.Area
import SpRtrace.Rtrace.Listener

namespace SpRtrace.Rtrace

open SpRtrace.Lib

variable {β : Type}

/-! ## The buffer -/

/-- `output_buffer`; `head` is `output_buffer_head - output_buffer`. -/
structure OutputBuffer (β : Type) where
  outputBuffer : List β
  head : Nat
  written : List β

/-- `flush_data`, with the descriptor and what `write()` returns if it is
called. -/
def OutputBuffer.flushData (fdOut result : Int) (b : OutputBuffer β) : OutputBuffer β × Int :=
  let size := b.head
  if 0 < fdOut ∧ size ≠ 0 then
    if result < 0 then (b, -1)
    else ({ b with written := b.written ++ slice b.outputBuffer 0 size, head := 0 }, size)
  else ({ b with head := 0 }, size)

/-- `write_data`; `disabled` is `rtrace_options.disable_packet_buffering`. -/
def OutputBuffer.writeData (disabled : Bool) (fdOut result : Int) (data : List β)
    (b : OutputBuffer β) : Option (OutputBuffer β × Int) :=
  if disabled then
    some (if result < 0 then b else { b with written := b.written ++ data }, result)
  else do
    let mem ← storeCells b.outputBuffer b.head data
    let b := { b with outputBuffer := mem, head := b.head + data.length }
    if bufferSize ≤ b.head then
      let (b, rc) := b.flushData fdOut result
      some (b, if rc < 0 then -1 else data.length)
    else some (b, data.length)

/-! ## Runs -/

inductive OutputCall (β : Type)
  | writeData (data : List β)
  | flushData

/-- A call, with the state of the descriptor at that time. -/
structure OutputStep (β : Type) where
  call : OutputCall β
  fdOut : Int
  result : Int

def OutputStep.data (s : OutputStep β) : List β :=
  match s.call with
  | .writeData data => data
  | .flushData => []

/-- One call. Its result is not looked at, as in `process_packet`. -/
def OutputStep.run (disabled : Bool) (b : OutputBuffer β) (s : OutputStep β) :
    Option (OutputBuffer β) :=
  match s.call with
  | .writeData data => (b.writeData disabled s.fdOut s.result data).map Prod.fst
  | .flushData => some (b.flushData s.fdOut s.result).1

def outputRun (disabled : Bool) (b : OutputBuffer β) (steps : List (OutputStep β)) :
    Option (OutputBuffer β) :=
  steps.foldlM (OutputStep.run disabled) b

def handedOver (steps : List (OutputStep β)) : List β := steps.flatMap OutputStep.data

/-- In every state that is reached the head is inside the buffer, and what
was written are some of the bytes that were handed over, each at most once
and in order. -/
def OutputSafe (disabled : Bool) (b₀ : OutputBuffer β) (steps : List (OutputStep β)) : Prop :=
  ∀ pre, pre <+: steps → ∃ b, outputRun disabled b₀ pre = some b ∧ b.head ≤ 2 * bufferSize ∧
    b.written.Sublist (handedOver pre)

/-! ## What waits -/

/-- The call asks for a flush when `n` bytes wait. -/
def OutputStep.Flushes (s : OutputStep β) (n : Nat) : Prop :=
  match s.call with
  | .writeData _ => bufferSize ≤ n
  | .flushData => True

instance (s : OutputStep β) (n : Nat) : Decidable (s.Flushes n) := by
  unfold OutputStep.Flushes
  cases s.call <;> infer_instance

/-- A flush goes through: the descriptor is closed, or `write()` succeeds. -/
def OutputStep.Through (s : OutputStep β) : Prop := s.fdOut ≤ 0 ∨ 0 ≤ s.result

instance (s : OutputStep β) : Decidable s.Through := inferInstanceAs (Decidable (_ ∨ _))

/-- The bytes that wait behind a call, if `n` waited before it. -/
def OutputStep.waiting (n : Nat) (s : OutputStep β) : Nat :=
  let n := n + s.data.length
  if s.Flushes n ∧ s.Through then 0 else n

/-- The bytes handed over since the last flush that went through. -/
def unflushed (steps : List (OutputStep β)) : Nat := steps.foldl OutputStep.waiting 0

/-- Every packet fits behind the bytes that were not flushed. -/
def OutputFits (steps : List (OutputStep β)) : Prop :=
  ∀ pre s post, steps = pre ++ s :: post → unflushed pre + s.data.length ≤ 2 * bufferSize

/-! ## One call -/

/-- A buffer in a run: the head is what waits, and what was written and
what waits are some of the bytes that were handed over. -/
structure OutputBuffer.Holds (b : OutputBuffer β) (n : Nat) (handed : List β) : Prop where
  size : b.outputBuffer.length = 2 * bufferSize
  head : b.head = n
  bound : b.head ≤ 2 * bufferSize
  sublist : (b.written ++ slice b.outputBuffer 0 b.head).Sublist handed

variable {b : OutputBuffer β} {n : Nat} {handed : List β}

/-- A flush empties the buffer, or fails and changes nothing. -/
theorem OutputBuffer.Holds.flushData (h : b.Holds n handed) (fdOut result : Int) :
    ((b.flushData fdOut result).1).Holds (if fdOut ≤ 0 ∨ 0 ≤ result then 0 else n) handed := by
  have hempty : OutputBuffer.Holds { b with head := 0 } 0 handed := by
    refine ⟨h.size, rfl, Nat.zero_le _, ?_⟩
    show (b.written ++ slice b.outputBuffer 0 0).Sublist handed
    rw [slice, List.take_zero, List.append_nil]
    exact (List.sublist_append_left _ _).trans h.sublist
  unfold OutputBuffer.flushData
  by_cases hwrite : 0 < fdOut ∧ b.head ≠ 0
  · simp only [if_pos hwrite]
    by_cases hfail : result < 0
    · rw [if_pos hfail, if_neg (by omega)]
      exact h
    · rw [if_neg hfail, if_pos (by omega)]
      refine ⟨h.size, rfl, Nat.zero_le _, ?_⟩
      show (b.written ++ slice b.outputBuffer 0 b.head ++ slice b.outputBuffer 0 0).Sublist handed
      rw [slice.eq_def b.outputBuffer 0 0, List.take_zero, List.append_nil]
      exact h.sublist
  · simp only [if_neg hwrite]
    by_cases hthrough : fdOut ≤ 0 ∨ 0 ≤ result
    · rw [if_pos hthrough]
      exact hempty
    · -- the descriptor is open, so nothing waits
      have hn : n = 0 := by rw [← h.head]; omega
      rw [if_neg hthrough, hn]
      exact hempty

/-- The buffer with a packet at its head. -/
def OutputBuffer.store (b : OutputBuffer β) (data : List β) : OutputBuffer β :=
  { b with outputBuffer := patch b.outputBuffer b.head data, head := b.head + data.length }

theorem OutputBuffer.Holds.store (h : b.Holds n handed) {data : List β}
    (hfit : n + data.length ≤ 2 * bufferSize) :
    (b.store data).Holds (n + data.length) (handed ++ data) := by
  rw [← h.head] at hfit ⊢
  refine ⟨(patch_length (by rw [h.size]; exact hfit)).trans h.size, rfl, hfit, ?_⟩
  show (b.written ++ slice (patch _ _ _) 0 (b.head + data.length)).Sublist _
  rw [slice_patch_snoc data (by rw [h.size]; exact h.bound), ← List.append_assoc]
  exact h.sublist.append (List.Sublist.refl data)

/-- `write_data` of a packet that fits. -/
theorem OutputBuffer.Holds.writeData (h : b.Holds n handed) {data : List β}
    (hfit : n + data.length ≤ 2 * bufferSize) (fdOut result : Int) :
    (b.writeData false fdOut result data).map Prod.fst = some
      (if bufferSize ≤ n + data.length then ((b.store data).flushData fdOut result).1
        else b.store data) := by
  rw [← h.head] at hfit ⊢
  have hstore : storeCells b.outputBuffer b.head data = some (patch b.outputBuffer b.head data) :=
    storeCells_eq (by rw [h.size]; exact hfit)
  simp only [OutputBuffer.writeData, Bool.false_eq_true, if_false, hstore, Option.bind_eq_bind,
    Option.bind_some]
  split <;> rfl

/-- **A call whose packet fits** keeps the buffer in order. -/
theorem OutputStep.run_spec (h : b.Holds n handed) (s : OutputStep β)
    (hfit : n + s.data.length ≤ 2 * bufferSize) :
    ∃ b', s.run false b = some b' ∧ b'.Holds (s.waiting n) (handed ++ s.data) := by
  obtain ⟨call, fdOut, result⟩ := s
  cases call with
  | flushData =>
    refine ⟨_, rfl, ?_⟩
    have hflush := h.flushData fdOut result
    simpa [OutputStep.waiting, OutputStep.data, OutputStep.Flushes, OutputStep.Through] using hflush
  | writeData data =>
    have hfit : n + data.length ≤ 2 * bufferSize := hfit
    refine ⟨_, h.writeData hfit fdOut result, ?_⟩
    by_cases hfull : bufferSize ≤ n + data.length
    · have hflush := (h.store hfit).flushData fdOut result
      simpa [OutputStep.waiting, OutputStep.data, OutputStep.Flushes, OutputStep.Through, hfull]
        using hflush
    · simpa [OutputStep.waiting, OutputStep.data, OutputStep.Flushes, hfull] using h.store hfit

/-- A packet that does not fit goes over the end. -/
theorem OutputStep.run_bound (h : b.Holds n handed) {s : OutputStep β} {b' : OutputBuffer β}
    (hrun : s.run false b = some b') : n + s.data.length ≤ 2 * bufferSize := by
  obtain ⟨call, fdOut, result⟩ := s
  rw [← h.head]
  cases call with
  | flushData => exact h.bound
  | writeData data =>
    cases hstore : storeCells b.outputBuffer b.head data with
    | none => simp [OutputStep.run, OutputBuffer.writeData, hstore] at hrun
    | some mem =>
      rw [← h.size]
      exact storeCells_bound hstore (by rw [h.size]; exact h.bound)

/-! ## Runs -/

/-- The buffer before the first call. -/
structure OutputBuffer.Fresh (b : OutputBuffer β) : Prop where
  size : b.outputBuffer.length = 2 * bufferSize
  head : b.head = 0
  written : b.written = []

theorem OutputBuffer.Fresh.holds (h : b.Fresh) : b.Holds 0 [] := by
  refine ⟨h.size, h.head, by rw [h.head]; exact Nat.zero_le _, ?_⟩
  rw [h.written, h.head, slice, List.take_zero, List.append_nil]

theorem outputRun_append (disabled : Bool) (b : OutputBuffer β) (steps steps' : List (OutputStep β)) :
    outputRun disabled b (steps ++ steps')
      = (outputRun disabled b steps).bind fun b' => outputRun disabled b' steps' :=
  List.foldlM_append

theorem unflushed_snoc (steps : List (OutputStep β)) (s : OutputStep β) :
    unflushed (steps ++ [s]) = s.waiting (unflushed steps) := List.foldl_concat ..

theorem handedOver_append (steps steps' : List (OutputStep β)) :
    handedOver (steps ++ steps') = handedOver steps ++ handedOver steps' := List.flatMap_append

/-- The first calls of a run that fits. -/
theorem OutputFits.of_append {steps steps' : List (OutputStep β)} (h : OutputFits (steps ++ steps')) :
    OutputFits steps := by
  intro pre s post heq
  exact h pre s (post ++ steps') (by rw [heq, List.append_assoc]; rfl)

/-- **A run that fits** keeps the buffer in order. -/
theorem outputRun_spec {b₀ : OutputBuffer β} (hfresh : b₀.Fresh) {steps : List (OutputStep β)}
    (hfits : OutputFits steps) :
    ∃ b, outputRun false b₀ steps = some b ∧ b.Holds (unflushed steps) (handedOver steps) := by
  induction steps using List.reverseRecOn with
  | nil => exact ⟨b₀, rfl, hfresh.holds⟩
  | append_singleton steps s ih =>
    obtain ⟨b, hrun, hholds⟩ := ih hfits.of_append
    obtain ⟨b', hstep, hholds'⟩ := OutputStep.run_spec hholds s (hfits steps s [] rfl)
    refine ⟨b', ?_, ?_⟩
    · rw [outputRun_append, hrun, Option.bind_some, outputRun, List.foldlM_cons, hstep]
      rfl
    · rw [unflushed_snoc, handedOver_append]
      simpa [handedOver] using hholds'

theorem OutputFits.snoc {steps : List (OutputStep β)} (h : OutputFits steps) {s : OutputStep β}
    (hs : unflushed steps + s.data.length ≤ 2 * bufferSize) : OutputFits (steps ++ [s]) := by
  intro pre s' post heq
  cases post using List.reverseRecOn with
  | nil =>
    obtain ⟨rfl, hlast⟩ := List.append_inj' heq rfl
    rw [← List.singleton_inj.mp hlast]
    exact hs
  | append_singleton post s'' =>
    rw [← List.cons_append, ← List.append_assoc] at heq
    exact h pre s' post (List.append_inj' heq rfl).1

/-- A run that comes to its end fits. -/
theorem outputFits_of_run {b₀ b' : OutputBuffer β} (hfresh : b₀.Fresh) {steps : List (OutputStep β)}
    (hrun : outputRun false b₀ steps = some b') : OutputFits steps := by
  induction steps using List.reverseRecOn generalizing b' with
  | nil =>
    intro pre s post heq
    simp at heq
  | append_singleton steps s ih =>
    rw [outputRun_append, Option.bind_eq_some_iff] at hrun
    obtain ⟨b, hrun, hstep⟩ := hrun
    have hfits := ih hrun
    obtain ⟨b₁, hrun₁, hholds⟩ := outputRun_spec hfresh hfits
    obtain rfl := Option.some.inj (hrun.symm.trans hrun₁)
    rw [outputRun, List.foldlM_cons, Option.bind_eq_bind, Option.bind_eq_some_iff] at hstep
    obtain ⟨b₂, hstep, -⟩ := hstep
    exact hfits.snoc (OutputStep.run_bound hholds hstep)

/-- Without buffering every packet goes straight to `write()`. -/
theorem outputRun_direct {b₀ : OutputBuffer β} (hfresh : b₀.Fresh) (steps : List (OutputStep β)) :
    ∃ b, outputRun true b₀ steps = some b ∧ b.head = 0 ∧ b.written.Sublist (handedOver steps) := by
  induction steps using List.reverseRecOn with
  | nil => exact ⟨b₀, rfl, hfresh.head, by rw [hfresh.written]; exact List.nil_sublist _⟩
  | append_singleton steps s ih =>
    obtain ⟨b, hrun, hhead, hsub⟩ := ih
    have hnext : ∃ b', s.run true b = some b' ∧ b'.head = 0 ∧
        b'.written.Sublist (handedOver steps ++ s.data) := by
      obtain ⟨call, fdOut, result⟩ := s
      cases call with
      | flushData =>
        refine ⟨(b.flushData fdOut result).1, rfl, ?_⟩
        rw [OutputBuffer.flushData, if_neg fun hwrite => hwrite.2 hhead]
        exact ⟨rfl, hsub.trans (List.sublist_append_left _ _)⟩
      | writeData data =>
        refine ⟨if result < 0 then b else { b with written := b.written ++ data }, rfl, ?_⟩
        by_cases hfail : result < 0
        · rw [if_pos hfail]
          exact ⟨hhead, hsub.trans (List.sublist_append_left _ _)⟩
        · rw [if_neg hfail]
          exact ⟨hhead, hsub.append (List.Sublist.refl data)⟩
    obtain ⟨b', hstep, hhead', hsub'⟩ := hnext
    refine ⟨b', ?_, hhead', ?_⟩
    · rw [outputRun_append, hrun, Option.bind_some, outputRun, List.foldlM_cons, hstep]
      rfl
    · rw [handedOver_append]
      simpa [handedOver] using hsub'

/-- **The output buffer stays in bounds** and writes no byte twice, exactly
if the buffering is disabled or the packets handed over since the last
flush that went through always fit. -/
theorem outputRun_safe_iff (disabled : Bool) {b₀ : OutputBuffer β} (hfresh : b₀.Fresh)
    (steps : List (OutputStep β)) :
    OutputSafe disabled b₀ steps ↔ disabled = true ∨ OutputFits steps := by
  cases disabled with
  | true =>
    refine ⟨fun _ => .inl rfl, fun _ pre _ => ?_⟩
    obtain ⟨b, hrun, hhead, hsub⟩ := outputRun_direct hfresh pre
    exact ⟨b, hrun, by rw [hhead]; exact Nat.zero_le _, hsub⟩
  | false =>
    constructor
    · intro hsafe
      obtain ⟨b, hrun, -⟩ := hsafe steps (List.prefix_refl steps)
      exact .inr (outputFits_of_run hfresh hrun)
    · intro hor pre ⟨post, hpost⟩
      have hfits : OutputFits pre :=
        OutputFits.of_append (hpost ▸ hor.resolve_left (by decide) : OutputFits (pre ++ post))
      obtain ⟨b, hrun, hholds⟩ := outputRun_spec hfresh hfits
      exact ⟨b, hrun, hholds.bound, (List.sublist_append_left _ _).trans hholds.sublist⟩

/-! ## When packets fit -/

theorem outputFits_nil : OutputFits ([] : List (OutputStep β)) := by
  intro pre s post heq
  simp at heq

/-! ## A write that fails -/

/-- The buffer of a program that has just started. -/
def freshOutput : OutputBuffer UInt8 :=
  { outputBuffer := List.replicate (2 * bufferSize) 0, head := 0, written := [] }

theorem freshOutput_fresh : freshOutput.Fresh := ⟨List.length_replicate, rfl, rfl⟩

/-- A packet of the greatest size, while `write()` fails. -/
def failingPacket : OutputStep UInt8 :=
  { call := .writeData (List.replicate bufferSize 0), fdOut := 1, result := -1 }

theorem failingPacket_length : failingPacket.data.length = bufferSize := List.length_replicate

theorem failingPacket_waiting (n : Nat) : failingPacket.waiting n = n + bufferSize := by
  have hnot : ¬ failingPacket.Through := by decide
  rw [OutputStep.waiting, if_neg fun h => hnot h.2, failingPacket_length]

/-- The third packet goes over the end of the buffer. -/
theorem outputRun_overruns :
    (∀ s ∈ [failingPacket, failingPacket, failingPacket], s.data.length ≤ 4096) ∧
    outputRun false freshOutput [failingPacket, failingPacket, failingPacket] = none ∧
    ¬ OutputSafe false freshOutput [failingPacket, failingPacket, failingPacket] := by
  have hwaits : unflushed [failingPacket, failingPacket] = 8192 := by
    simp only [unflushed, List.foldl_cons, List.foldl_nil, failingPacket_waiting, bufferSize]
  have hnot : ¬ OutputFits [failingPacket, failingPacket, failingPacket] := by
    intro hfits
    have hfit := hfits [failingPacket, failingPacket] failingPacket [] rfl
    rw [hwaits, failingPacket_length] at hfit
    exact absurd hfit (by decide)
  have hrun : outputRun false freshOutput [failingPacket, failingPacket, failingPacket] = none := by
    cases hcase : outputRun false freshOutput [failingPacket, failingPacket, failingPacket] with
    | none => rfl
    | some b => exact absurd (outputFits_of_run freshOutput_fresh hcase) hnot
  refine ⟨fun s hs => ?_, hrun, fun hsafe => ?_⟩
  · have heq : s = failingPacket := by simpa using hs
    rw [heq, failingPacket_length]
    exact le_refl _
  · obtain ⟨b, hb, -⟩ := hsafe _ (List.prefix_refl _)
    rw [hrun] at hb
    cases hb

def throughFlush : OutputStep UInt8 := { call := .flushData, fdOut := 1, result := 4096 }

theorem throughFlush_waiting (n : Nat) : throughFlush.waiting n = 0 := by
  have hthrough : throughFlush.Through := by decide
  rw [OutputStep.waiting, if_pos ⟨trivial, hthrough⟩]

/-- A flush between two packets makes room for the second. -/
theorem outputRun_safe_iff_flushed :
    OutputSafe false freshOutput [failingPacket, throughFlush, failingPacket] := by
  refine (outputRun_safe_iff false freshOutput_fresh _).mpr (.inr ?_)
  have hfirst : OutputFits [failingPacket] := outputFits_nil.snoc (by
    rw [failingPacket_length]
    decide)
  have hflush : OutputFits [failingPacket, throughFlush] := hfirst.snoc (by
    simp only [unflushed, List.foldl_cons, List.foldl_nil, failingPacket_waiting]
    decide)
  refine hflush.snoc ?_
  simp only [unflushed, List.foldl_cons, List.foldl_nil, throughFlush_waiting, failingPacket_length]
  decide

end SpRtrace.Rtrace
