/-
SpRtrace.Postproc.LogLines — the lines of a written log, and the events
that the reader takes them for.

The parser can leave one of its buffers on a line, so a line has an event
only if it fits. `LineIs` says which event a line is if it has one at
all; `Writes` collects the lines of a text with their events and with the
exact condition under which all of them fit. What the writer prints is a
`Writes` piece by piece, and `Writes.append` puts the pieces together.
`Takes` adds what the events do to a reader in the middle of a log.
-/
import SpRtrace.Postproc.LogEvents
import SpRtrace.Postproc.WriterTheorems

namespace SpRtrace.Postproc

open SpRtrace.Lib SpRtrace.Common SpRtrace.Library

variable {w : Nat}

/-! ## Lines of a text -/

/-- The line ends with its only newline. -/
def Newline (line : Str) : Prop := ∃ body, line = body ++ ['\n'] ∧ '\n' ∉ body

/-- No line of the text, without its newline, has more than 4094
characters. -/
def ShortLines (text : Str) : Prop :=
  ∀ front body back, text = front ++ body ++ back → '\n' ∉ body → body.length < 4095

theorem ShortLines.of_append {s t : Str} (h : ShortLines (s ++ t)) : ShortLines s ∧ ShortLines t := by
  constructor
  · rintro front body back rfl hno
    exact h front body (back ++ t) (by simp) hno
  · rintro front body back rfl hno
    exact h (s ++ front) body back (by simp) hno

theorem ShortLines.flatten {lines : List Str} (h : ShortLines lines.flatten) {line : Str}
    (hmem : line ∈ lines) : ShortLines line := by
  induction lines with
  | nil => cases hmem
  | cons l lines ih =>
    obtain ⟨hl, hrest⟩ := h.of_append
    rcases List.mem_cons.mp hmem with rfl | hmem
    · exact hl
    · exact ih hrest hmem

/-- A line of such a text fits the buffer of `fgets`. -/
theorem ShortLines.isLine {line : Str} (h : ShortLines line) (hline : Newline line) :
    IsLine 4095 line := by
  obtain ⟨body, rfl, hno⟩ := hline
  refine ⟨body, rfl, hno, ?_⟩
  have := h [] body ['\n'] rfl hno
  simp only [List.length_append, List.length_cons, List.length_nil]
  omega

/-- Lines that fit that buffer make up such a text. -/
theorem shortLines_flatten {lines : List Str} (h : ∀ line ∈ lines, IsLine 4095 line) :
    ShortLines lines.flatten := by
  induction lines with
  | nil =>
    intro front body back heq _
    have := congrArg List.length heq
    simp only [List.flatten_nil, List.length_append, List.length_nil] at this
    omega
  | cons line lines ih =>
    have hrest := ih fun l hl => h l (List.mem_cons_of_mem line hl)
    obtain ⟨text, hline, -, hlen⟩ := h line (by simp)
    intro front body back heq hno
    rw [List.flatten_cons, List.append_assoc] at heq
    rcases List.append_eq_append_iff.mp heq with ⟨e, -, heq⟩ | ⟨e, hfront, heq⟩
    · exact hrest e body back (by rw [heq, List.append_assoc]) hno
    -- the piece begins in the first line: it is over before the newline
    rcases List.eq_nil_or_concat e with rfl | ⟨d, c, rfl⟩
    · exact hrest [] body back heq.symm hno
    obtain rfl : c = '\n' := by
      have := congrArg List.getLast? (hfront.symm.trans hline)
      simpa using this
    rcases List.append_eq_append_iff.mp heq with ⟨e, he, -⟩ | ⟨e, he, -⟩
    · rcases List.eq_nil_or_concat e with rfl | ⟨d', c', rfl⟩
      · exact absurd (by rw [← List.append_nil body, ← he]; simp) hno
      · have hlength := congrArg List.length he
        rw [hfront] at hlen
        simp only [List.length_append, List.length_concat] at hlength hlen
        omega
    · exact absurd (by rw [he]; simp) hno

theorem newline_cons {c : Char} (hc : c ≠ '\n') {s : Str} (h : Newline s) : Newline (c :: s) := by
  obtain ⟨body, rfl, hno⟩ := h
  exact ⟨c :: body, rfl, by simp [hc.symm, hno]⟩

theorem newline_append {s t : Str} (hs : '\n' ∉ s) (h : Newline t) : Newline (s ++ t) := by
  obtain ⟨body, rfl, hno⟩ := h
  exact ⟨s ++ body, by simp, by simp [hs, hno]⟩

theorem newline_end : Newline ['\n'] := ⟨[], rfl, by simp⟩

/-! ## Words -/

/-- A word of the log: no blanks and no marks of the call line. -/
structure LogWord (s : Str) : Prop where
  ne : s ≠ []
  plain : ∀ c ∈ s, isSpace c = false ∧ c ∉ ['(', ')', '<', '>']
  head : Stops (fun c => c = '@' || c = '[') s

theorem not_mem_of_plain {s : Str} (h : ∀ c ∈ s, isSpace c = false) : '\n' ∉ s :=
  fun hc => absurd (h _ hc) (by decide)

theorem LogWord.no_newline {s : Str} (h : LogWord s) : '\n' ∉ s :=
  not_mem_of_plain fun c hc => (h.plain c hc).1

/-- A word can stand in front of the value of a call. -/
theorem LogWord.plainName {name : Str} (h : LogWord name) {resName : Option Str}
    (htype : ∀ type ∈ resName, LogWord type) : PlainName name resName where
  no_context c hc := by
    have := h.head c hc
    simp only [Bool.or_eq_false_iff, decide_eq_false_iff_not] at this ⊢
    exact this.1
  no_time c hc := by
    have := h.head c hc
    simp only [Bool.or_eq_false_iff, decide_eq_false_iff_not] at this ⊢
    exact this.2
  no_type _ hlast := by
    have := (h.plain '>' (List.mem_of_getLast? hlast)).2
    simp at this
  type_plain type ht c hc := by
    have := ((htype type ht).plain c hc).2
    simp only [List.mem_cons, List.not_mem_nil, or_false, not_or] at this
    exact ⟨this.2.2.1, this.2.2.2, this.1⟩

/-! ## The event of a line -/

/-- The event of a line that is not a temporary comment. -/
def recordEvent (line : Str) : Record w → LogEvent w
  | .trace frame => .frame frame
  | .arg arg => .arg arg
  | rec =>
      if line.head? = some '\n' then .blank
      else match rec with
        | .call call => .call call
        | rec => .record rec line

theorem lineEvent_of_head {line : Str} (h : line.head? ≠ some '#') :
    lineEvent w line = (spRtraceParserParseRecord recordAll line).map (recordEvent line) := by
  have hskip : ¬ ['#', ' '].isPrefixOf line = true := by
    intro hp
    obtain ⟨t, rfl⟩ := List.isPrefixOf_iff_prefix.mp hp
    simp at h
  rw [lineEvent, if_neg hskip]
  cases spRtraceParserParseRecord (w := w) recordAll line with
  | none => rfl
  | some rec =>
    cases rec <;> simp only [recordEvent, Option.map_some] <;> split <;> rfl

/-- The line is `ev` if it is an event at all. -/
def LineIs (line : Str) (ev : LogEvent w) : Prop :=
  Newline line ∧ ∀ e, lineEvent w line = some e → e = ev

/-- The text consists of lines that are the events `evs`, and they all fit
the buffers of the parser exactly if `fits` holds. -/
def Writes (w : Nat) (text : Str) (evs : List (LogEvent w)) (fits : Prop) : Prop :=
  ∃ lines : List Str, text = lines.flatten ∧ List.Forall₂ LineIs lines evs ∧
    ((∀ line ∈ lines, (lineEvent w line).isSome) ↔ fits)

theorem Writes.nil : Writes w [] [] True := ⟨[], rfl, .nil, by simp⟩

theorem Writes.append {s t : Str} {evs evs' : List (LogEvent w)} {fits fits' : Prop}
    (h : Writes w s evs fits) (h' : Writes w t evs' fits') :
    Writes w (s ++ t) (evs ++ evs') (fits ∧ fits') := by
  obtain ⟨lines, rfl, hall, hfits⟩ := h
  obtain ⟨lines', rfl, hall', hfits'⟩ := h'
  refine ⟨lines ++ lines', by simp, List.rel_append hall hall', ?_⟩
  rw [← hfits, ← hfits']
  simp only [List.mem_append, or_imp, forall_and]

/-- Two texts of short lines make one. -/
theorem Writes.shortLines_append {s t : Str} {evs evs' : List (LogEvent w)} {fits fits' : Prop}
    (h : Writes w s evs fits) (h' : Writes w t evs' fits') (hs : ShortLines s) (ht : ShortLines t) :
    ShortLines (s ++ t) := by
  obtain ⟨lines, rfl, hall, -⟩ := h
  obtain ⟨lines', rfl, hall', -⟩ := h'
  rw [← List.flatten_append]
  refine shortLines_flatten fun line hline => ?_
  rcases List.mem_append.mp hline with hline | hline
  · obtain ⟨ev, -, hev⟩ := forall₂_mem_left hall hline
    exact (hs.flatten hline).isLine hev.1
  · obtain ⟨ev, -, hev⟩ := forall₂_mem_left hall' hline
    exact (ht.flatten hline).isLine hev.1

/-- The condition can be said in other words. -/
theorem Writes.congr {s : Str} {evs : List (LogEvent w)} {fits fits' : Prop}
    (h : Writes w s evs fits) (hiff : fits ↔ fits') : Writes w s evs fits' := by
  obtain ⟨lines, hs, hall, hfits⟩ := h
  exact ⟨lines, hs, hall, hfits.trans hiff⟩

theorem Writes.line {line : Str} {ev : LogEvent w} {fits : Prop} (h : LineIs line ev)
    (hfits : (lineEvent w line).isSome ↔ fits) : Writes w line [ev] fits :=
  ⟨[line], by simp, .cons h .nil, by simpa using hfits⟩

/-- The condition of a single line. -/
theorem Writes.single {line : Str} {ev : LogEvent w} {fits : Prop} (h : Writes w line [ev] fits) :
    (lineEvent w line).isSome ↔ fits := by
  obtain ⟨lines, rfl, hall, hfits⟩ := h
  obtain ⟨l, _, -, hrest, rfl⟩ := List.forall₂_cons_right_iff.mp hall
  obtain rfl := List.forall₂_nil_right_iff.mp hrest
  simpa using hfits

/-- A line that is parsed exactly if it fits. -/
theorem Writes.parsed {line : Str} {rec : Record w} {fits : Prop} (hnl : Newline line)
    (hhead : line.head? ≠ some '#')
    (hparse : fits → spRtraceParserParseRecord recordAll line = some rec)
    (hfits : ∀ r : Record w, spRtraceParserParseRecord recordAll line = some r → fits) :
    Writes w line [recordEvent line rec] fits := by
  have hevent : fits → lineEvent w line = some (recordEvent line rec) := fun h => by
    rw [lineEvent_of_head hhead, hparse h]
    rfl
  have hsome : ∀ e, lineEvent w line = some e → fits := fun e he => by
    rw [lineEvent_of_head hhead] at he
    obtain ⟨r, hr, -⟩ := Option.map_eq_some_iff.mp he
    exact hfits r hr
  refine .line ⟨hnl, fun e he => Option.some.inj (he.symm.trans (hevent (hsome e he)))⟩
    ⟨fun h => ?_, fun h => ?_⟩
  · obtain ⟨e, he⟩ := Option.isSome_iff_exists.mp h
    exact hsome e he
  · rw [hevent h]
    rfl

/-- A line that always fits. -/
theorem Writes.line_some {line : Str} {ev : LogEvent w} (h : Newline line)
    (hev : lineEvent w line = some ev) : Writes w line [ev] True :=
  .line ⟨h, fun e he => Option.some.inj (he.symm.trans hev)⟩ (by simp [hev])

/-- One line for every element of a list. -/
theorem Writes.each {α : Type} {print : α → Str} {event : α → LogEvent w} {fits : α → Prop} :
    ∀ {list : List α}, (∀ a ∈ list, Writes w (print a) [event a] (fits a)) →
      Writes w (list.flatMap print) (list.map event) (∀ a ∈ list, fits a)
  | [], _ => Writes.nil.congr (by simp)
  | a :: list, h => by
      have hrest := Writes.each fun b hb => h b (List.mem_cons_of_mem a hb)
      have hone := h a (by simp)
      rw [List.flatMap_cons, List.map_cons]
      exact (hone.append hrest).congr (by simp)

/-! ## What a text does to the reader -/

/-- A place in the middle of a log: the environment, the calls that are done
and those of the current group. -/
structure LogPlace (w : Nat) where
  env : LogEnv w
  done : List (LogCall w)
  pend : List (LogCall w)

def AtPlace (p : LogPlace w) (a : LogState w) : Prop := a.At p.env p.done p.pend

/-- The text takes a reader with `P` to one with `Q`, if its lines fit, and
they do exactly if `fits` holds. -/
def Takes (junk : Nat → Context w) (text : Str) (fits : Prop) (P Q : LogState w → Prop) : Prop :=
  ∃ evs, Writes w text evs fits ∧ ∀ a : LogState w, P a → Q (a.run junk evs)

section Takes

variable {junk : Nat → Context w} {s t : Str} {fits fits' : Prop} {P Q R : LogState w → Prop}

theorem Takes.refl : Takes junk [] True P P := ⟨[], .nil, fun _ h => h⟩

theorem Takes.trans (h : Takes junk s fits P Q) (h' : Takes junk t fits' Q R) :
    Takes junk (s ++ t) (fits ∧ fits') P R := by
  obtain ⟨evs, hwrites, hrun⟩ := h
  obtain ⟨evs', hwrites', hrun'⟩ := h'
  refine ⟨evs ++ evs', hwrites.append hwrites', fun a ha => ?_⟩
  rw [LogState.run_append]
  exact hrun' _ (hrun a ha)

theorem Takes.mono (h : Takes junk s fits P Q) (hQ : ∀ a, Q a → R a) : Takes junk s fits P R := by
  obtain ⟨evs, hwrites, hrun⟩ := h
  exact ⟨evs, hwrites, fun a ha => hQ _ (hrun a ha)⟩

theorem Takes.congr (h : Takes junk s fits P Q) (hiff : fits ↔ fits') : Takes junk s fits' P Q := by
  obtain ⟨evs, hwrites, hrun⟩ := h
  exact ⟨evs, hwrites.congr hiff, hrun⟩

end Takes

/-! ## Comments -/

/-- A line that starts with two #. -/
def HashLine (line : Str) : Prop := (∃ s, line = '#' :: '#' :: s) ∧ Newline line

theorem HashLine.event {line : Str} (h : HashLine line) :
    lineEvent w line = some (.record .comment line) := by
  obtain ⟨⟨s, rfl⟩, -⟩ := h
  rw [lineEvent, if_neg (by simp), parseRecord_hash]
  simp

theorem HashLine.writes {line : Str} (h : HashLine line) :
    Writes w line [.record .comment line] True := .line_some h.2 h.event

theorem writes_comments {texts : List Str} (h : ∀ t ∈ texts, HashLine t) :
    Writes w texts.flatten (texts.map fun t => .record .comment t) True := by
  have hall : ∀ t ∈ texts, Writes w (id t) [LogEvent.record .comment t] True :=
    fun t ht => (h t ht).writes
  have := Writes.each hall
  rw [List.flatMap_id] at this
  exact this.congr (by simp)

theorem newline_tail {c : Char} {s : Str} (h : Newline (c :: s)) :
    (c = '\n' ∧ s = []) ∨ (c ≠ '\n' ∧ Newline s) := by
  obtain ⟨body, heq, hno⟩ := h
  cases body with
  | nil =>
    obtain ⟨rfl, rfl⟩ := List.cons.inj heq
    exact .inl ⟨rfl, rfl⟩
  | cons d body =>
    obtain ⟨rfl, rfl⟩ := List.cons.inj heq
    simp only [List.mem_cons, not_or] at hno
    exact .inr ⟨fun hc => hno.1 hc.symm, body, rfl, hno.2⟩

/-- A line that is used as a format is printed as a line. -/
theorem printFormat_newline {s t : Str} (h : printFormat s = some t) (hs : Newline s) :
    Newline t := by
  induction s using printFormat.induct generalizing t with
  | case1 s ih =>
    rw [printFormat] at h
    obtain ⟨u, hu, rfl⟩ := Option.map_eq_some_iff.mp h
    obtain ⟨hc, -⟩ | ⟨-, hs⟩ := newline_tail hs
    · cases hc
    obtain ⟨hc, -⟩ | ⟨-, hs⟩ := newline_tail hs
    · cases hc
    exact newline_cons (by decide) (ih hu hs)
  | case2 s hs' => simp [printFormat] at h
  | case3 c s h₁ h₂ ih =>
    have hstep : printFormat (c :: s) = (printFormat s).map (c :: ·) := by
      rw [printFormat]
      · exact h₁
      · exact h₂
    rw [hstep] at h
    obtain ⟨u, hu, rfl⟩ := Option.map_eq_some_iff.mp h
    obtain ⟨rfl, rfl⟩ | ⟨hc, hs⟩ := newline_tail hs
    · obtain rfl := Option.some.inj hu
      exact newline_end
    · exact newline_cons hc (ih hu hs)
  | case4 =>
    obtain ⟨body, heq, -⟩ := hs
    simp at heq

theorem HashLine.printFormat {s t : Str} (hs : HashLine s) (h : printFormat s = some t) :
    HashLine t := by
  refine ⟨?_, printFormat_newline h hs.2⟩
  obtain ⟨⟨u, rfl⟩, -⟩ := hs
  have hstep : ∀ u : Str, Lib.printFormat ('#' :: u) = (Lib.printFormat u).map ('#' :: ·) := by
    intro u
    rw [Lib.printFormat] <;> simp
  rw [hstep, hstep] at h
  simp only [Option.map_map, Option.map_eq_some_iff, Function.comp_apply] at h
  obtain ⟨v, -, rfl⟩ := h
  exact ⟨v, rfl⟩

theorem not_newline_printInt (v : BitVec 32) : '\n' ∉ printInt v :=
  not_mem_printInt (by decide) v

theorem not_newline_printNat (n : Nat) : '\n' ∉ printNat 16 n :=
  not_mem_printNat (by decide) (.inr rfl) n

/-- The summary of a group is a temporary comment. -/
theorem writes_summary (leakCount leakSize : BitVec 32) :
    Writes w (printSummary leakCount leakSize) [.skip] True := by
  have hnl : Newline (printSummary leakCount leakSize) := by
    refine ⟨"# allocation summary: ".toList ++ printInt leakCount
      ++ " block(s) with total size ".toList ++ printInt leakSize, rfl, ?_⟩
    simp [not_newline_printInt]
  have htext : ∃ s, printSummary leakCount leakSize = '#' :: ' ' :: s := ⟨_, rfl⟩
  refine .line_some hnl ?_
  obtain ⟨s, hs⟩ := htext
  rw [hs, lineEvent, if_pos (by simp)]

/-! ## Calls -/

theorem printCallLine_newline {call : CallRecord w} (hname : '\n' ∉ call.name)
    (htype : ∀ type ∈ call.resType.resName, '\n' ∉ type) : Newline (printCallLine call) := by
  have hpad := not_mem_printPadded (by decide : notInNumber '\n' = true)
  have hmask : '\n' ∉ printContextMask call.context := by
    unfold printContextMask
    split <;> simp [not_newline_printNat]
  have htime : '\n' ∉ printCallTime call.timestamp := by
    unfold printCallTime
    split
    · simp
    · rw [printTimestamp]
      simp only [List.cons_append, List.append_assoc, List.mem_cons, List.mem_append, hpad, Char.reduceEq, List.not_mem_nil, or_self, not_false_eq_true]
  have hres : '\n' ∉ printResName call.resType.resName := by
    cases hr : call.resType.resName with
    | none => simp [printResName]
    | some type => simp [printResName, htype type hr]
  have hvalue : '\n' ∉ printCallValue call.type call.resSize call.resId := by
    unfold printCallValue
    split <;> simp [not_newline_printInt, not_newline_printNat]
  rw [printCallLine]
  refine newline_append ?_ newline_end
  simp [not_newline_printInt, hmask, htime, hname, hres, hvalue]

theorem printCallLine_head (call : CallRecord w) : (printCallLine call).head? ≠ some '#' ∧
    (printCallLine call).head? ≠ some '\n' := by
  have hno := fun c hc => not_mem_printInt (c := c) hc call.index
  obtain ⟨c, s, hcs, -⟩ := printInt_head call.index
  have hne : ∀ d : Char, notInNumber d = true → c ≠ d := by
    rintro d hd rfl
    have := hno c hd
    rw [hcs] at this
    simp at this
  rw [printCallLine, hcs]
  exact ⟨by simpa using hne '#' (by decide), by simpa using hne '\n' (by decide)⟩

/-- The line of a call. -/
theorem writes_callLine (hw : 32 ≤ w) {call : CallRecord w} (hname : LogWord call.name)
    (htype : ∀ type ∈ call.resType.resName, LogWord type)
    (htime : call.timestamp.toNat < 86400000)
    (hkind : call.type = ftypeAlloc ∨ call.type = ftypeFree ∧ call.resSize = 0) :
    Writes w (printCallLine call) [.call { call with resType := call.resType.reread }]
      (ScannableName call.name call.resType.resName) := by
  have hplain := hname.plainName htype
  obtain ⟨hhash, hnl⟩ := printCallLine_head call
  have hwrites := Writes.parsed
    (printCallLine_newline hname.no_newline fun t ht => (htype t ht).no_newline) hhash
    (fun hscan : ScannableName call.name call.resType.resName =>
      parseRecord_printCall hw hscan htime hkind)
    fun r hr => parseRecord_printCall_fits hw hplain (fun t ht => (htype t ht).ne) htime hr
  simpa [recordEvent, hnl] using hwrites

/-- The line of an argument. -/
theorem writes_arg {arg : Farg} (hname : LogWord arg.name) (hvalue : LogWord arg.value)
    (hshort : ShortLines (printArg arg)) :
    Writes w (printArg arg) [.arg arg] (arg.name.length < 128) := by
  have hplain := fun c hc => (hname.plain c hc).1
  have hnl : Newline (printArg arg) := by
    refine ⟨'\t' :: '$' :: (arg.name ++ [' ', '=', ' '] ++ arg.value), by simp [printArg], ?_⟩
    simp [hname.no_newline, hvalue.no_newline]
  have hhash : (printArg arg).head? ≠ some '#' := by simp [printArg]
  have hlen : arg.value.length < pathMax := by
    have := hshort ('\t' :: '$' :: (arg.name ++ [' ', '=', ' '])) arg.value ['\n']
      (by simp [printArg]) hvalue.no_newline
    rw [pathMax]
    omega
  exact Writes.parsed hnl hhash
    (fun h => parseRecord_printArg ⟨hname.ne, h, hplain⟩
      ⟨hvalue.ne, hlen, fun c hc => (hvalue.plain c hc).1⟩)
    fun r hr => parseRecord_printArg_fits hname.ne hplain hr

/-! ## Backtraces -/

/-- The line of a frame. -/
theorem writes_frame {frame : Frame w} (hname : ∀ name ∈ frame.name, LogWord name)
    (hshort : ShortLines (printFrame frame)) :
    Writes w (printFrame frame) [.frame frame] True := by
  obtain ⟨addr, name⟩ := frame
  have htext : ∀ n ∈ name, printFrame { addr, name }
      = '\t' :: '0' :: 'x' :: printNat 16 addr.toNat ++ [' '] ++ n ++ ['\n'] := by
    rintro n rfl
    simp [printFrame]
  have hlen : ∀ n ∈ name, n.length < pathMax := by
    intro n hn
    have := hshort _ n ['\n'] (htext n hn) (hname n hn).no_newline
    rw [pathMax]
    omega
  have hnl : Newline (printFrame { addr, name }) := by
    cases name with
    | none => exact ⟨_, rfl, by simp [not_newline_printNat]⟩
    | some n => exact ⟨_, htext n rfl, by simp [not_newline_printNat, (hname n rfl).no_newline]⟩
  refine .line_some hnl ?_
  rw [lineEvent_of_head (by simp [printFrame]), parseRecord_printFrame fun n hn =>
    ⟨(hname n hn).ne, (hname n hn).no_newline,
      fun c hc => ((hname n hn).plain c (List.mem_of_mem_head? hc)).1, hlen n hn⟩]
  rfl

/-- The text of a backtrace. -/
theorem spRtracePrintTrace_eq {frames : List (Frame w)} {text : Str}
    (h : spRtracePrintTrace frames = some text) : text = frames.flatMap printFrame ++ ['\n'] := by
  simp only [spRtracePrintTrace, Option.bind_eq_bind, Option.bind_eq_some_iff,
    Option.some.injEq] at h
  obtain ⟨lines, hlines, rfl⟩ := h
  have hall := mapM_eq_some_iff.mp hlines
  have : lines = frames.map printFrame := by
    clear hlines
    induction hall with
    | nil => rfl
    | cons hl _ ih =>
      simp only [buffered, Option.ite_none_right_eq_some, Option.some.injEq] at hl
      rw [ih, List.map_cons, hl.2]
  rw [this, List.flatMap_def]

theorem writes_trace {frames : List (Frame w)} {text : Str}
    (h : spRtracePrintTrace frames = some text)
    (hname : ∀ frame ∈ frames, ∀ name ∈ frame.name, LogWord name) (hshort : ShortLines text) :
    Writes w text (frames.map .frame ++ [.blank]) True := by
  obtain rfl := spRtracePrintTrace_eq h
  obtain ⟨hlines, -⟩ := hshort.of_append
  have hall : ∀ frame ∈ frames, Writes w (printFrame frame) [LogEvent.frame frame] True :=
    fun frame hf => writes_frame (hname frame hf)
      (ShortLines.flatten (by rwa [← List.flatMap_def]) (List.mem_map_of_mem hf))
  have hframes := Writes.each hall
  have hblank : Writes w ['\n'] [(.blank : LogEvent w)] True := by
    refine .line_some newline_end ?_
    rw [lineEvent_of_head (by simp), parseRecord_blank]
    rfl
  exact (hframes.append hblank).congr (by simp)

end SpRtrace.Postproc
