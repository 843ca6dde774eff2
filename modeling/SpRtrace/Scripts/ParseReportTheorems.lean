/-
SpRtrace.Scripts.ParseReportTheorems — which allocations of a report get
into the graph.

With the default options the parser is a collector of batches (`Collects`):
the records are the alloc and free lines, the marks are the backtrace lines
with a function name. What it passes to the graph is therefore a front part
of the sizes in the report, and all of them if and only if something closes
the last batch (`parse_sizes`). A report whose last allocations have no
backtrace, or one without names, loses these.
-/
import SpRtrace.Lib.Batches
import SpRtrace.Scripts.ParseReport

namespace SpRtrace.Scripts

open SpRtrace.Lib SpRtrace.Common
open SpRtrace.Lib.Batches (Event Collected)

/-! ## What a report says -/

def isNamed (line : Str) : Bool :=
  match traceStrip [] line with
  | .ok (some fn) => fn ≠ []
  | _ => false

/-- The line does not end the script. -/
def isReadable (line : Str) : Bool :=
  if isRecord line then (getNameSizeAddr line).isOk
  else if isFrame line then (traceStrip [] line).isOk
  else true

def allocSize (line : Str) : Option Int :=
  if isRecord line then (allocPattern line).map fun (_, size, _) => digitsValue 10 size else none

/-- The sizes of the allocation lines that are in the range, in order. -/
def allocSizes (sizeMin sizeMax : Nat) (lines : List Str) : List Int :=
  (lines.filterMap allocSize).filter fun size : Int => sizeMin ≤ size ∧ size ≤ sizeMax

/-- What a line is for the batches: a record, whose value is a size in the
range, or a mark. -/
def lineEvent (sizeMin sizeMax : Nat) (line : Str) : Option (Event Str Int) :=
  if isRecord line then
    match getNameSizeAddr line with
    | .ok (name, size, _) =>
        some (.record name (if sizeMin ≤ size ∧ size ≤ sizeMax then some size else none))
    | .error _ => none
  else if isFrame line && isNamed line then some .mark
  else none

/-- Behind every allocation in the range there is a backtrace line with a
name, or a record of another function. -/
def Settled (sizeMin sizeMax : Nat) (lines : List Str) : Prop :=
  Batches.Settled (lines.filterMap (lineEvent sizeMin sizeMax))

instance (sizeMin sizeMax : Nat) (lines : List Str) : Decidable (Settled sizeMin sizeMax lines) :=
  Batches.decidableSettled _

variable (sizeMin sizeMax : Nat)

/-- The size of a free is not in any range. -/
theorem lineEvent_value (line : Str) :
    (lineEvent sizeMin sizeMax line).bind Event.value
      = (allocSize line).filter fun size : Int => sizeMin ≤ size ∧ size ≤ sizeMax := by
  unfold lineEvent allocSize
  by_cases hrecord : isRecord line
  · simp only [hrecord, if_true, getNameSizeAddr]
    cases halloc : allocPattern line with
    | some place => simp [Event.value, Option.filter_some]
    | none =>
      cases hfree : freePattern line with
      | some place =>
        have hbelow : (-1 : Int) < sizeMin := by omega
        simp [Event.value, hbelow]
      | none => simp
  · by_cases hframe : isFrame line && isNamed line <;> simp [hrecord, hframe, Event.value]

theorem lineEvents_values (lines : List Str) :
    (lines.filterMap (lineEvent sizeMin sizeMax)).filterMap Event.value
      = allocSizes sizeMin sizeMax lines := by
  rw [allocSizes, List.filterMap_filterMap, List.filter_filterMap]
  exact List.filterMap_congr fun line _ => lineEvent_value sizeMin sizeMax line

/-! ## One line -/

theorem isOk_iff {ε β : Type*} {r : Except ε β} : r.isOk ↔ ∃ v, r = .ok v := by
  cases r <;> simp [Except.isOk, Except.toBool]

/-- The parser has collected `c`. -/
structure Collects (st : ParseState) (c : Collected Str Int) : Prop where
  name : st.name = c.name
  stack : st.stack = c.marked
  sizes : st.sizes = c.pending
  updates : st.updates.map Update.sizes = c.closed
  argkeys : st.argkeys = []
  argsizes : st.argsizes = []
  skip : st.skip = false

theorem isIncluded_ranged (sizeMin sizeMax : Int) (st : ParseState) :
    st.isIncluded (.ranged sizeMin sizeMax) = true := by
  simp [ParseState.isIncluded, Options.ranged]

theorem update_noArgs {st : ParseState} (hargs : st.argkeys = []) :
    st.update = .ok { st with
      updates := st.updates ++ [{ trace := st.trace, sizes := st.sizes, address := st.top }] } := by
  simp [ParseState.update, hargs]

theorem Collects.flush {st : ParseState} {c : Collected Str Int} (h : Collects st c) :
    ∃ ignores updates,
      st.flush (.ranged sizeMin sizeMax) = .ok { st with ignores, updates } ∧
      updates.map Update.sizes = c.close := by
  unfold Collected.close
  rw [← h.sizes, ← h.updates]
  by_cases hsizes : st.sizes = []
  · have hskip : ¬((st.sizes ≠ [] ∨ st.argsizes ≠ []) ∧
        st.isIncluded (.ranged sizeMin sizeMax)) := by
      simp [hsizes, h.argsizes]
    rw [if_pos hsizes]
    exact ⟨_, st.updates, if_neg hskip, rfl⟩
  · have hsend : (st.sizes ≠ [] ∨ st.argsizes ≠ []) ∧
        st.isIncluded (.ranged sizeMin sizeMax) :=
      ⟨.inl hsizes, isIncluded_ranged sizeMin sizeMax st⟩
    rw [if_neg hsizes]
    let update : Update Str := { trace := st.trace, sizes := st.sizes, address := st.top }
    refine ⟨st.ignores + st.ignored, st.updates ++ [update], ?_, List.map_append⟩
    rw [ParseState.flush, if_pos hsend, update_noArgs h.argkeys]
    rfl

/-- A record closes the batch in the parser if it does so for `c`. -/
theorem Collects.record {st : ParseState} {c : Collected Str Int} (h : Collects st c) {line : Str}
    {name : Str} {size addr : Int} (hline : getNameSizeAddr line = .ok (name, size, addr)) :
    ∃ st', parseRecord (.ranged sizeMin sizeMax) st line = .ok st' ∧
      Collects st'
        (c.step (.record name (if sizeMin ≤ size ∧ size ≤ sizeMax then some size else none))) := by
  have hsize : ∀ sizes : List Int,
      (if (sizeMin : Int) ≤ size ∧ size ≤ sizeMax then sizes ++ [size] else sizes)
        = sizes ++ (if (sizeMin : Int) ≤ size ∧ size ≤ sizeMax then some size else none).toList := by
    intro sizes
    split <;> simp
  unfold parseRecord
  simp only [Collected.step]
  rw [hline, ← h.name, ← h.stack]
  by_cases hclose : st.stack ∨ name ≠ st.name
  · have hnamed : Collects { st with name } { c with name } := { h with name := rfl }
    obtain ⟨ignores, updates, hflush, hupdates⟩ := hnamed.flush sizeMin sizeMax
    simp only [bind, Except.bind, if_pos hclose, hflush]
    exact ⟨_, rfl, rfl, rfl, hsize [], hupdates, rfl, rfl, rfl⟩
  · have hargs : ¬st.argkeys ≠ [] := by simp [h.argkeys]
    simp only [bind, Except.bind, if_neg hclose, if_neg hargs]
    refine ⟨_, rfl, rfl, rfl, ?_, h.updates, h.argkeys, h.argsizes, h.skip⟩
    rw [← h.sizes]
    exact hsize st.sizes

/-- A backtrace line marks the batch if it has a name. -/
theorem Collects.frame {st : ParseState} {c : Collected Str Int} (h : Collects st c) {line : Str}
    (hline : (traceStrip [] line).isOk) :
    ∃ st', parseFrame (.ranged sizeMin sizeMax) st line = .ok st' ∧
      Collects st' (if isNamed line then c.step .mark else c) := by
  have hjoins : (Options.ranged sizeMin sizeMax).joins = [] := rfl
  unfold parseFrame isNamed
  rw [h.skip, hjoins]
  obtain ⟨fn, hstrip⟩ := isOk_iff.mp hline
  rw [hstrip]
  match fn with
  | none => exact ⟨_, rfl, { h with skip := rfl }⟩
  | some [] => exact ⟨_, rfl, { h with skip := rfl }⟩
  | some (d :: fn) => exact ⟨_, rfl, { h with stack := rfl, skip := rfl }⟩

theorem Collects.line {st : ParseState} {c : Collected Str Int} (h : Collects st c) {line : Str}
    (hline : isReadable line) :
    ∃ st', parseLine (.ranged sizeMin sizeMax) st line = .ok st' ∧
      Collects st' (c.run (lineEvent sizeMin sizeMax line).toList) := by
  unfold isReadable at hline
  unfold parseLine lineEvent
  by_cases hrecord : isRecord line
  · rw [if_pos hrecord] at hline
    simp only [if_pos hrecord]
    obtain ⟨place, hread⟩ := isOk_iff.mp hline
    rw [hread]
    exact h.record sizeMin sizeMax hread
  · rw [if_neg hrecord] at hline
    simp only [if_neg hrecord]
    by_cases hframe : isFrame line
    · rw [if_pos hframe] at hline
      obtain ⟨st', hparse, hst'⟩ := h.frame sizeMin sizeMax hline
      refine ⟨st', by rw [if_pos hframe, hparse], ?_⟩
      by_cases hnamed : isNamed line <;> simpa [hframe, hnamed, Collected.run] using hst'
    · exact ⟨st, by simp [hframe, Options.ranged], by simpa [hframe, Collected.run] using h⟩

/-- The script ends at a line that it cannot read. -/
theorem Collects.unreadable {st : ParseState} {c : Collected Str Int} (h : Collects st c)
    {line : Str} (hline : ¬isReadable line) :
    ∃ e, parseLine (.ranged sizeMin sizeMax) st line = .error e := by
  have hjoins : (Options.ranged sizeMin sizeMax).joins = [] := rfl
  unfold isReadable at hline
  unfold parseLine
  by_cases hrecord : isRecord line
  · rw [if_pos hrecord] at hline ⊢
    cases hread : getNameSizeAddr line with
    | ok place => exact absurd (isOk_iff.mpr ⟨place, hread⟩) hline
    | error e => exact ⟨e, by rw [parseRecord, hread]; rfl⟩
  · rw [if_neg hrecord] at hline ⊢
    by_cases hframe : isFrame line
    · rw [if_pos hframe] at hline ⊢
      cases hstrip : traceStrip [] line with
      | ok fn => exact absurd (isOk_iff.mpr ⟨fn, hstrip⟩) hline
      | error e => exact ⟨e, by rw [parseFrame, h.skip, hjoins, hstrip]; rfl⟩
    · rw [if_neg hframe] at hline
      exact absurd rfl hline

/-! ## The report -/

theorem Collects.run {lines : List Str} {st : ParseState} {c : Collected Str Int}
    (h : Collects st c) (hlines : ∀ line ∈ lines, isReadable line) :
    ∃ st', lines.foldlM (parseLine (.ranged sizeMin sizeMax)) st = .ok st' ∧
      Collects st' (c.run (lines.filterMap (lineEvent sizeMin sizeMax))) := by
  induction lines generalizing st c with
  | nil => exact ⟨st, rfl, h⟩
  | cons line lines ih =>
    obtain ⟨st₁, hparse, hst₁⟩ := h.line sizeMin sizeMax (hlines line List.mem_cons_self)
    obtain ⟨st₂, hrest, hst₂⟩ := ih hst₁ fun l hl => hlines l (List.mem_cons_of_mem line hl)
    refine ⟨st₂, by rw [List.foldlM_cons, hparse]; exact hrest, ?_⟩
    have hevents : (line :: lines).filterMap (lineEvent sizeMin sizeMax)
        = (lineEvent sizeMin sizeMax line).toList
          ++ lines.filterMap (lineEvent sizeMin sizeMax) := by
      cases hevent : lineEvent sizeMin sizeMax line <;> simp [hevent]
    rw [hevents, Collected.run, List.foldl_append]
    exact hst₂

theorem Collects.readable {lines : List Str} {st st' : ParseState} {c : Collected Str Int}
    (h : Collects st c)
    (hrun : lines.foldlM (parseLine (.ranged sizeMin sizeMax)) st = .ok st') :
    ∀ line ∈ lines, isReadable line := by
  induction lines generalizing st c with
  | nil => simp
  | cons line lines ih =>
    rw [List.foldlM_cons] at hrun
    have hline : isReadable line := by
      by_contra hline
      obtain ⟨e, hparse⟩ := h.unreadable sizeMin sizeMax hline
      rw [hparse] at hrun
      cases hrun
    obtain ⟨st₁, hparse, hst₁⟩ := h.line sizeMin sizeMax hline
    rw [hparse] at hrun
    exact List.forall_mem_cons.mpr ⟨hline, ih hst₁ hrun⟩

/-- The last batch is only sent with a mark. -/
theorem Collects.finish {st : ParseState} {c : Collected Str Int} (h : Collects st c) :
    ∃ st', st.finish (.ranged sizeMin sizeMax) = .ok st' ∧
      st'.updates.map Update.sizes = c.finish := by
  unfold ParseState.finish Collected.finish
  rw [isIncluded_ranged, update_noArgs h.argkeys, ← h.stack, ← h.updates, ← h.sizes]
  cases st.stack with
  | false => exact ⟨st, rfl, rfl⟩
  | true => exact ⟨_, rfl, List.map_append⟩

/-- The run of the parser over a report is that of the collector. -/
theorem parseUpdates_collects {lines : List Str} (hlines : ∀ line ∈ lines, isReadable line) :
    ∃ st, parseUpdates (.ranged sizeMin sizeMax) lines = .ok st ∧
      st.updates.map Update.sizes
        = ((Collected.start []).run (lines.filterMap (lineEvent sizeMin sizeMax))).finish := by
  have hinit : Collects .init (.start []) := ⟨rfl, rfl, rfl, rfl, rfl, rfl, rfl⟩
  obtain ⟨st₁, hrun, hst₁⟩ := hinit.run sizeMin sizeMax hlines
  obtain ⟨st₂, hfinish, hst₂⟩ := hst₁.finish sizeMin sizeMax
  refine ⟨st₂, ?_, hst₂⟩
  rw [parseUpdates, hrun]
  exact hfinish

/-- The report is parsed if and only if all of its lines can be read. -/
theorem parseUpdates_isOk (lines : List Str) :
    (parseUpdates (.ranged sizeMin sizeMax) lines).isOk ↔ ∀ line ∈ lines, isReadable line := by
  constructor
  · intro hok
    have hinit : Collects .init (.start []) := ⟨rfl, rfl, rfl, rfl, rfl, rfl, rfl⟩
    cases hrun : lines.foldlM (parseLine (.ranged sizeMin sizeMax)) .init with
    | ok st => exact hinit.readable sizeMin sizeMax hrun
    | error e => simp [parseUpdates, hrun, bind, Except.bind, Except.isOk, Except.toBool] at hok
  · intro hlines
    obtain ⟨st, hparse, -⟩ := parseUpdates_collects sizeMin sizeMax hlines
    exact isOk_iff.mpr ⟨st, hparse⟩

/-- What is passed to the graph are the first of the sizes in the report,
and all of them if and only if the report is settled. -/
theorem parse_sizes (graph : Graph Str) (sizeMin sizeMax : Nat) (report : Str)
    (hreport : ∀ line ∈ (fileLines report).tail, isReadable line) :
    ∃ st, parseUpdates (.ranged sizeMin sizeMax) (fileLines report).tail = .ok st ∧
      parse graph (.ranged sizeMin sizeMax) report
        = .ok (graph.run st.updates, st.ignores, st.nonames) ∧
      st.updates.flatMap Update.sizes <+: allocSizes sizeMin sizeMax (fileLines report).tail ∧
      ((st.updates.flatMap Update.sizes).Perm
          (allocSizes sizeMin sizeMax (fileLines report).tail)
        ↔ Settled sizeMin sizeMax (fileLines report).tail) := by
  obtain ⟨st, hparse, hupdates⟩ := parseUpdates_collects sizeMin sizeMax hreport
  have hgraph : parse graph (.ranged sizeMin sizeMax) report
      = .ok (graph.run st.updates, st.ignores, st.nonames) := by
    rw [parse, hparse]
    rfl
  refine ⟨st, hparse, hgraph, ?_⟩
  rw [List.flatMap_def, hupdates, ← lineEvents_values sizeMin sizeMax]
  exact ⟨Batches.finish_prefix _ _, Batches.finish_perm _ _⟩

def compressedReport : Str :=
  "process=a\n1. malloc(100) = 0x10\n2. malloc(20) = 0x20\n\t0x1 main\n".toList
    ++ "3. free(0x10)\n4. malloc(3) = 0x30\n\t0x1 main\n".toList

theorem parse_sizes_compressed :
    ∃ st, parseUpdates (.ranged 0 0x7fffffff) (fileLines compressedReport).tail = .ok st ∧
      (st.updates.flatMap Update.sizes).Perm [100, 20, 3] := by
  have hsizes : allocSizes 0 0x7fffffff (fileLines compressedReport).tail = [100, 20, 3] := by
    decide
  obtain ⟨st, hparse, -, -, hperm⟩ :=
    parse_sizes (.init 8) 0 0x7fffffff compressedReport (by decide)
  rw [hsizes] at hperm
  exact ⟨st, hparse, hperm.mpr (by decide)⟩

/-- An allocation without a backtrace, at the end of the report. -/
def bareReport : Str := "process=a\n1. malloc(100) = 0x10\n".toList

theorem parse_sizes_lost :
    (∀ line ∈ (fileLines bareReport).tail, isReadable line) ∧
    allocSizes 0 0x7fffffff (fileLines bareReport).tail = [100] ∧
    ∃ st, parseUpdates .default (fileLines bareReport).tail = .ok st ∧
      st.updates.flatMap Update.sizes = [] ∧
      ¬(st.updates.flatMap Update.sizes).Perm
        (allocSizes 0 0x7fffffff (fileLines bareReport).tail) :=
  ⟨by decide, by decide, _, rfl, rfl, by decide⟩

end SpRtrace.Scripts
