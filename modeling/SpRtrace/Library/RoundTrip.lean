/-
SpRtrace.Library.RoundTrip — which records survive being printed and
parsed.

The parser finds the end of a function name from behind: up to the last
parenthesis, and if that stands behind a closing angle bracket, up to the
last opening one. So the bracket of a template at the end of a name is
taken for a resource type (`parseRecord_printCall_iff`). The strings of
the other records are cut at the delimiters of their own scanners
(`parseRecord_printRecord_iff`).
-/
import SpRtrace.Library.RecordTheorems

namespace SpRtrace.Library

open SpRtrace.Lib SpRtrace.Common

variable {w : Nat}

/-! ## Results -/

theorem ParseResult.bind_eq_ok {α β : Type} {r : ParseResult α} {f : α → ParseResult β} {b : β} :
    (r >>= f) = .ok b ↔ ∃ a, r = .ok a ∧ f a = .ok b := by
  constructor
  · intro h
    cases r with
    | ok a => exact ⟨a, rfl, h⟩
    | _ => cases h
  · rintro ⟨a, rfl, h⟩
    exact h

/-- The values of a scanner. -/
theorem scan_values {fmt : List Directive} {s : Str} {values : List (ScanArg w)}
    (h : scan w fmt s = .ok values) : ∃ r, sscanf w fmt s = some r ∧ values = r.values := by
  unfold scan at h
  split at h
  · cases h
  · rename_i r hr
    exact ⟨r, hr, (ParseResult.ok.inj h).symm⟩

/-! ## Calls -/

/-- A call with a name as it comes from the tracker. -/
structure PrintableCall (call : CallRecord w) : Prop where
  name_ne : call.name ≠ []
  name_short : call.name.length ≤ 400
  name_line : '\n' ∉ call.name
  name_head : ∀ c ∈ call.name.head?, c ≠ '@' ∧ c ≠ '[' ∧ c ≠ ' '
  type_short : ∀ type ∈ call.resType.resName, type.length ≤ 100
  type_plain : ∀ type ∈ call.resType.resName, ∀ c ∈ type, c ≠ '<' ∧ c ≠ '>' ∧ c ≠ '(' ∧ c ≠ '\n'
  time : call.timestamp.toNat < 86400000
  kind : call.type = ftypeAlloc ∨ call.type = ftypeFree ∧ call.resSize = 0

/-- Two call records with the same fields; a resource is its type name. -/
structure CallRecord.Same (c d : CallRecord w) : Prop where
  index : c.index = d.index
  context : c.context = d.context
  timestamp : c.timestamp = d.timestamp
  name : c.name = d.name
  resName : c.resType.resName = d.resType.resName
  type : c.type = d.type
  resSize : c.resSize = d.resSize
  resId : c.resId = d.resId

theorem ResField.reread_resName (f : ResField w) : f.reread.resName = f.resName := by
  unfold ResField.reread
  split <;> rename_i h <;> rw [h] <;> rfl

theorem strrchr_eq_some {text before rest : Str} {c : Char}
    (h : strrchr text c = some (before, rest)) : ∃ t, rest = c :: t ∧ text = before ++ c :: t := by
  unfold strrchr at h
  split at h
  · cases h
  · rename_i d l hd
    obtain ⟨rfl, rfl⟩ := Prod.mk.inj (Option.some.inj h)
    refine ⟨_, rfl, ?_⟩
    have hhead := List.head?_dropWhile_not (· ≠ c) text.reverse
    rw [hd] at hhead
    have hsplit := List.takeWhile_append_dropWhile (p := (· ≠ c)) (l := text.reverse)
    rw [hd] at hsplit
    have hrev := congrArg List.reverse hsplit
    have hd : d = c := by simpa using hhead
    rw [hd] at hrev
    simpa using hrev.symm

/-- Behind a closing bracket the name ends at an opening one, if there is
any. -/
theorem scanName_template {name s : Str} (hlast : name.getLast? = some '>') (hpar : '(' ∉ s)
    (hbr : '<' ∉ s) {before rest : Str} (h : scanName (name ++ '(' :: s) = .ok (before, rest)) :
    before.length < name.length := by
  unfold scanName at h
  rw [strrchr_append _ hpar] at h
  simp only [found, ParseResult.ok_bind, hlast, if_true] at h
  cases hfind : strrchr (name ++ '(' :: s) '<' with
  | none =>
    rw [hfind] at h
    cases h
  | some r =>
    obtain ⟨before', rest'⟩ := r
    rw [hfind] at h
    simp only [followed, ParseResult.ok_bind] at h
    obtain rfl : before' = before := by
      split at h
      · exact (Prod.mk.inj (ParseResult.ok.inj h)).1
      · cases h
    obtain ⟨t, -, htext⟩ := strrchr_eq_some hfind
    -- otherwise the bracket would stand behind the name
    obtain ⟨u, -, hu⟩ | ⟨u, rfl, hu⟩ := List.append_eq_append_iff.mp htext
    · have hmem : '<' ∈ '(' :: s := by
        rw [hu]
        simp
      simp only [List.mem_cons, Char.reduceEq, false_or] at hmem
      exact absurd hmem hbr
    · cases u with
      | nil => cases hu
      | cons d u => simp

/-- The name of a call record is the one that was scanned, and its resource
type was scanned behind it. -/
theorem parseFunctionCall_scans (hw : 32 ≤ w) {call c : CallRecord w} (h : PrintableCall call) {s : Str}
    (hs : printCallValue call.type call.resSize call.resId ++ ['\n'] = '(' :: s)
    (hparse : parseFunctionCall recordAll (printCallLine call) = .ok c) :
    ∃ rest r, scanName (call.name ++ printResName call.resType.resName ++ '(' :: s)
        = .ok (c.name, rest) ∧ scanResType w rest = .ok r := by
  have hat : Stops (· = '@') call.name := fun c hc => by simpa using (h.name_head c hc).1
  have hbracket : Stops (· = '[') call.name := fun c hc => by simpa using (h.name_head c hc).2.1
  rw [parseFunctionCall_names hw hat hbracket h.time hs] at hparse
  obtain ⟨⟨name, rest⟩, hname, hparse⟩ := ParseResult.bind_eq_ok.mp hparse
  obtain ⟨⟨resType, ptr⟩, hres, hparse⟩ := ParseResult.bind_eq_ok.mp hparse
  obtain ⟨⟨type, resSize, resId⟩, -, hparse⟩ := ParseResult.bind_eq_ok.mp hparse
  obtain ⟨-, -, hparse⟩ := ParseResult.bind_eq_ok.mp hparse
  obtain rfl := ParseResult.ok.inj hparse
  exact ⟨rest, (resType, ptr), hname, hres⟩

/-- An empty resource type is not read. -/
theorem scanResType_empty (s : Str) :
    scanResType w (printResName (some []) ++ '(' :: s) = .fail := by
  have hscan : sscanf w [.lit '<', .conv (.except ['>'] 512), .lit '>'] ('<' :: '>' :: '(' :: s)
      = some { values := [], eof := false } := by
    rw [sscanf_lit]
    rfl
  rw [printResName_text, scanResType, if_pos (by simp), List.nil_append, scan_eq hscan]
  rfl

/-! ### The line fits its buffer -/

theorem printNat_length {base n k : Nat} (hbase : 1 < base) (hk : 0 < k) (h : n < base ^ k) :
    (printNat base n).length ≤ k := (Nat.length_toDigits_le_iff hbase hk).mpr h

theorem printInt_length (v : BitVec 32) : (printInt v).length ≤ 11 := by
  have hlt := v.toInt_lt
  have hge := v.le_toInt
  unfold printInt
  split
  · have : (printNat 10 v.toInt.natAbs).length ≤ 10 :=
      printNat_length (by decide) (by decide) (by omega)
    simp only [List.length_cons]
    omega
  · have : (printNat 10 v.toInt.toNat).length ≤ 10 :=
      printNat_length (by decide) (by decide) (by omega)
    omega

theorem printPadded_length (width : Nat) {n k : Nat} (hk : 0 < k) (h : n < 10 ^ k) :
    (printPadded width n).length ≤ width + k := by
  have := printNat_length (by decide) hk h
  simp only [printPadded, List.length_append, List.length_replicate]
  omega

theorem printCallLine_length (hw : w ≤ 64) {call : CallRecord w} (h : PrintableCall call) :
    (printCallLine call).length ≤ 2048 := by
  have hindex := printInt_length call.index
  have hname := h.name_short
  have hmask : (printContextMask call.context).length ≤ 10 := by
    have : (printNat 16 call.context.toNat).length ≤ 8 :=
      printNat_length (by decide) (by decide) call.context.isLt
    unfold printContextMask
    split
    · simp
    · simp only [List.length_append, List.length_cons, List.length_nil]
      omega
  have htime : (printCallTime call.timestamp).length ≤ 25 := by
    have hlt := h.time
    have hours := printPadded_length 2 (show 0 < 2 by decide)
      (show call.timestamp.toNat / 3600000 < 10 ^ 2 by omega)
    have minutes := printPadded_length 2 (show 0 < 2 by decide)
      (show call.timestamp.toNat % 3600000 / 60000 < 10 ^ 2 by omega)
    have seconds := printPadded_length 2 (show 0 < 2 by decide)
      (show call.timestamp.toNat % 3600000 % 60000 / 1000 < 10 ^ 2 by omega)
    have mseconds := printPadded_length 3 (show 0 < 3 by decide)
      (show call.timestamp.toNat % 3600000 % 60000 % 1000 < 10 ^ 3 by omega)
    unfold printCallTime
    split
    · simp
    · rw [printTimestamp]
      simp only [List.length_append, List.length_cons, List.length_nil]
      omega
  have htype : (printResName call.resType.resName).length ≤ 102 := by
    cases hres : call.resType.resName with
    | none => simp [printResName]
    | some type =>
      have := h.type_short type hres
      simp only [printResName, List.length_append, List.length_cons, List.length_nil]
      omega
  have hvalue : (printCallValue call.type call.resSize call.resId).length ≤ 34 := by
    have hsize := printInt_length call.resSize
    have hid : (printNat 16 call.resId.toNat).length ≤ 16 := printNat_length (by decide) (by decide)
      (lt_of_lt_of_le call.resId.isLt (Nat.pow_le_pow_right (by decide) hw))
    unfold printCallValue
    split <;>
    · simp only [List.length_append, List.length_cons, List.length_nil]
      omega
  rw [printCallLine]
  simp only [List.length_append, List.length_cons, List.length_nil]
  omega

/-- The line of a call is printed. -/
theorem spRtracePrintCall_some (hw : w ≤ 64) {call : CallRecord w} (h : PrintableCall call)
    (now : BitVec 32) : spRtracePrintCall now call = some (printCallLine call) := by
  have hnow : call.timestamp ≠ BitVec.allOnes 32 := by
    intro he
    have := h.time
    rw [he] at this
    exact absurd this (by decide)
  have hlen := printCallLine_length hw h
  rw [printCallLine] at hlen
  simp only [spRtracePrintCall, if_neg hnow, buffered, if_pos hlen]
  rfl

/-- **A call survives being printed and parsed** exactly if its name does
not end with an angle bracket where no resource type follows, and the
resource type is not empty. -/
theorem parseRecord_printCall_iff (hw : w = 32 ∨ w = 64) {call : CallRecord w}
    (h : PrintableCall call) (now : BitVec 32) :
    (∃ line c, spRtracePrintCall now call = some line ∧
      spRtraceParserParseRecord recordAll line = some (.call c) ∧ c.Same call) ↔
    (call.resType.resName = none → call.name.getLast? ≠ some '>') ∧
      call.resType.resName ≠ some [] := by
  have hw32 : 32 ≤ w := by omega
  have hprint := spRtracePrintCall_some (by omega) h now
  obtain ⟨s, hs, hpar, hbr⟩ := printCallValue_shape call.type call.resSize call.resId
  constructor
  · rintro ⟨line, c, hline, hparse, hsame⟩
    obtain rfl := Option.some.inj (hprint.symm.trans hline)
    obtain ⟨rest, r, hname, hres⟩ := parseFunctionCall_scans hw32 h hs (parseRecord_scanned hparse)
    rw [hsame.name] at hname
    constructor
    · intro hnone hlast
      rw [hnone, printResName, List.append_nil] at hname
      exact absurd (scanName_template hlast hpar hbr hname) (lt_irrefl _)
    · intro hempty
      have hplain : PlainName call.name call.resType.resName :=
        { no_context := fun c hc => by simpa using (h.name_head c hc).1
          no_time := fun c hc => by simpa using (h.name_head c hc).2.1
          no_type := fun hn => by rw [hempty] at hn; cases hn
          type_plain := fun type ht c hc => by
            obtain ⟨hlt, hgt, hp, -⟩ := h.type_plain type ht c hc
            exact ⟨hlt, hgt, hp⟩ }
      rw [scanName_plain hplain hpar hbr, hempty] at hname
      split at hname
      · obtain ⟨-, rfl⟩ := Prod.mk.inj (ParseResult.ok.inj hname)
        rw [scanResType_empty] at hres
        cases hres
      · cases hname
  · rintro ⟨hlast, hempty⟩
    have hscan : ScannableName call.name call.resType.resName :=
      { no_context := fun c hc => by simpa using (h.name_head c hc).1
        no_time := fun c hc => by simpa using (h.name_head c hc).2.1
        no_type := hlast
        type_plain := fun type ht c hc => by
          obtain ⟨hlt, hgt, hp, -⟩ := h.type_plain type ht c hc
          exact ⟨hlt, hgt, hp⟩
        short := lt_of_le_of_lt h.name_short (by decide)
        type_ne := fun type ht hnil => hempty (by rw [← hnil]; exact ht)
        type_short := fun type ht => lt_of_le_of_lt (h.type_short type ht) (by decide) }
    exact ⟨_, _, hprint, parseRecord_printCall hw32 hscan h.time h.kind,
      ⟨rfl, rfl, rfl, rfl, call.resType.reread_resName, rfl, rfl, rfl⟩⟩

def allocCall (name : Str) : CallRecord 64 :=
  { index := 1, context := 2, timestamp := 3723004, name, resType := .undef, type := ftypeAlloc,
    resSize := 8, resId := 4096 }

/-- The bracket at the end of a template is taken for a resource type. -/
theorem parseRecord_printCall_template : PrintableCall (allocCall "max<int>".toList) ∧
    ¬ ∃ line c, spRtracePrintCall 0 (allocCall "max<int>".toList) = some line ∧
      spRtraceParserParseRecord recordAll line = some (.call c) ∧
      c.Same (allocCall "max<int>".toList) := by
  constructor
  · exact ⟨by decide, by decide, by decide, fun c hc => by rw [← Option.some.inj hc]; decide,
      by decide, by decide, by decide, by decide⟩
  · rintro ⟨line, c, hline, hparse, hsame⟩
    have heval : (spRtracePrintCall 0 (allocCall "max<int>".toList)).bind
        (spRtraceParserParseRecord recordAll) = some (.call
          { allocCall "max".toList with resType := .name "int".toList }) := by
      decide +kernel
    rw [hline, Option.bind_some, hparse] at heval
    have hname := hsame.name
    rw [Record.call.inj (Option.some.inj heval)] at hname
    exact absurd hname (by decide)

/-- With its parameters the name is read back. -/
theorem parseRecord_printCall_iff_parameters :
    ∃ line c, spRtracePrintCall 0 (allocCall "max<int>(int, int)".toList) = some line ∧
      spRtraceParserParseRecord recordAll line = some (.call c) ∧
      c.Same (allocCall "max<int>(int, int)".toList) :=
  (parseRecord_printCall_iff (.inr rfl)
    ⟨by decide, by decide, by decide, fun c hc => by rw [← Option.some.inj hc]; decide,
      by decide, by decide, by decide, by decide⟩ 0).mpr
    ⟨by decide, by decide⟩

/-! ## The other records -/

/-- The line of a record that is no call. -/
def printRecord : Record w → Option Str
  | .trace f => buffered pathMax (printFrame f)
  | .arg a => some (printArg a)
  | .mmap m => some (spRtracePrintMmap m)
  | .context c => some (spRtracePrintContext c)
  | .resource r => spRtracePrintResource r
  | .attachment f => some (spRtracePrintAttachment f)
  | _ => none

def Record.strings : Record w → List Str
  | .trace f => f.name.toList
  | .arg a => [a.name, a.value]
  | .mmap m => [m.moduleName]
  | .context c => [c.name]
  | .resource r => [r.type, r.desc]
  | .attachment f => [f.name, f.path]
  | _ => []

/-- Strings of any characters but newlines. The `hide` flag is no part of a
record. -/
structure PrintableRecord (rec : Record w) : Prop where
  strings : ∀ s ∈ rec.strings, s ≠ [] ∧ '\n' ∉ s ∧ s.length < 500
  hide : ∀ r, rec = .resource r → r.hide = false

/-- Nothing that is scanned with %s has white space, a string behind white
space in the format does not start with any, and the numbers are those
that the format has room for. -/
def Record.Survives : Record w → Prop
  | .trace f => ∀ name ∈ f.name, Stops isSpace name
  | .arg a => (∀ c ∈ a.name, isSpace c = false) ∧ (∀ c ∈ a.value, isSpace c = false) ∧
      a.name.length < 128
  | .mmap m => ∀ c ∈ m.moduleName, isSpace c = false
  | .context c => Stops isSpace c.name ∧ c.id.toNat < 2 ^ 32
  | .resource r => ' ' ∉ r.type ∧ Stops isSpace r.type ∧ ')' ∉ r.desc ∧
      (1 ≤ r.id.toNat ∧ r.id.toNat ≤ 32) ∧ (r.flags = 0 ∨ r.flags = resourceRefcount)
  | .attachment f => (∀ c ∈ f.name, isSpace c = false) ∧ (∀ c ∈ f.path, isSpace c = false)
  | _ => False

/-! ### What a scanner makes -/

theorem parseBacktrace_head {line : Str} {f : Frame w} (h : parseBacktrace recordAll line = .ok f) :
    ∀ name ∈ f.name, Stops isSpace name := by
  intro name hname
  unfold parseBacktrace at h
  split at h
  · cases h
  obtain ⟨values, hscan, h⟩ := ParseResult.bind_eq_ok.mp h
  obtain ⟨r, hr, rfl⟩ := scan_values hscan
  split at h
  · rename_i addr rest hvalues
    obtain ⟨-, -, h⟩ := ParseResult.bind_eq_ok.mp h
    obtain rfl := ParseResult.ok.inj h
    simp only at hname
    split at hname
    · obtain rfl := Option.some.inj hname
      rename_i _ text
      rw [backtraceFormat, sscanf_space] at hr
      obtain ⟨s₁, -, hr⟩ := sscanf_lit_values hr hvalues
      obtain ⟨s₂, -, hr⟩ := sscanf_lit_values hr hvalues
      obtain ⟨s₃, r', -, hr', hvalues'⟩ := sscanf_conv_values hr hvalues
      rw [sscanf_space] at hr'
      obtain ⟨s₄, -, hconv, -⟩ := sscanf_conv_values hr' hvalues'
      exact stops_of_skipped (scanConv_except_ok hconv).2.2.2
    · cases hname
  · cases h

theorem parseArguments_plain {line : Str} {a : Farg} (h : parseArguments w recordAll line = .ok a) :
    (∀ c ∈ a.name, isSpace c = false) ∧ (∀ c ∈ a.value, isSpace c = false) ∧
      a.name.length < 128 := by
  unfold parseArguments at h
  split at h
  · cases h
  obtain ⟨values, hscan, h⟩ := ParseResult.bind_eq_ok.mp h
  obtain ⟨r, hr, rfl⟩ := scan_values hscan
  split at h
  · rename_i name value hvalues
    obtain ⟨-, -, h⟩ := ParseResult.bind_eq_ok.mp h
    obtain rfl := ParseResult.ok.inj h
    rw [argumentsFormat, sscanf_space] at hr
    obtain ⟨s₁, -, hr⟩ := sscanf_lit_values hr hvalues
    obtain ⟨s₂, r₂, hname, hr, hvalues⟩ := sscanf_conv_values hr hvalues
    rw [sscanf_space] at hr
    obtain ⟨s₃, -, hr⟩ := sscanf_lit_values hr hvalues
    rw [sscanf_space] at hr
    obtain ⟨s₄, r₄, hvalue, -⟩ := sscanf_conv_values hr hvalues
    obtain ⟨-, hplain, hlen⟩ := scanConv_word_ok hname
    exact ⟨hplain, (scanConv_word_ok hvalue).2.1, hlen⟩
  · cases h

theorem parseMemoryMapping_plain {line : Str} {m : Mmap w}
    (h : parseMemoryMapping recordAll line = .ok m) : ∀ c ∈ m.moduleName, isSpace c = false := by
  obtain ⟨values, hscan, h⟩ := ParseResult.bind_eq_ok.mp h
  obtain ⟨r, hr, rfl⟩ := scan_values hscan
  split at h
  · rename_i name fromAddr toAddr hvalues
    obtain ⟨-, -, h⟩ := ParseResult.bind_eq_ok.mp h
    obtain rfl := ParseResult.ok.inj h
    rw [mmapFormat] at hr
    obtain ⟨s₁, -, hr⟩ := sscanf_lit_values hr hvalues
    rw [sscanf_space] at hr
    obtain ⟨s₂, r₂, hname, -⟩ := sscanf_conv_values hr hvalues
    exact (scanConv_word_ok hname).2.1
  · cases h

theorem parseContextRegistry_head {line : Str} {c : Context w}
    (h : parseContextRegistry recordAll line = .ok c) :
    Stops isSpace c.name ∧ c.id.toNat < 2 ^ 32 := by
  obtain ⟨values, hscan, h⟩ := ParseResult.bind_eq_ok.mp h
  obtain ⟨r, hr, rfl⟩ := scan_values hscan
  split at h
  · rename_i id name hvalues
    obtain ⟨-, -, h⟩ := ParseResult.bind_eq_ok.mp h
    obtain rfl := ParseResult.ok.inj h
    rw [contextFormat] at hr
    obtain ⟨s₁, -, hr⟩ := sscanf_lit_values hr hvalues
    rw [sscanf_space] at hr
    obtain ⟨s₂, r₂, -, hr, hvalues⟩ := sscanf_conv_values hr hvalues
    rw [sscanf_space] at hr
    obtain ⟨s₃, -, hr⟩ := sscanf_lit_values hr hvalues
    rw [sscanf_space] at hr
    obtain ⟨s₄, r₄, hname, -⟩ := sscanf_conv_values hr hvalues
    refine ⟨stops_of_skipped (scanConv_except_ok hname).2.2.2, ?_⟩
    rw [BitVec.toNat_setWidth]
    exact lt_of_le_of_lt (Nat.mod_le _ _) id.isLt
  · cases h

theorem ffs_le (v : BitVec 32) : ffs v ≤ 32 := by
  unfold ffs
  split
  · rename_i i hi
    have := List.mem_of_find?_eq_some hi
    simp only [List.mem_range] at this
    omega
  · omega

theorem parseResourceRegistry_shape {line : Str} {res : Resource w}
    (h : parseResourceRegistry recordAll line = .ok res) :
    ' ' ∉ res.type ∧ Stops isSpace res.type ∧ ')' ∉ res.desc ∧ res.id.toNat ≤ 32 ∧
      (res.flags = 0 ∨ res.flags = resourceRefcount) := by
  obtain ⟨values, hscan, h⟩ := ParseResult.bind_eq_ok.mp h
  obtain ⟨r, hr, rfl⟩ := scan_values hscan
  split at h
  · rename_i id type desc flags hvalues
    obtain ⟨-, -, h⟩ := ParseResult.bind_eq_ok.mp h
    obtain rfl := ParseResult.ok.inj h
    rw [resourceFormat] at hr
    obtain ⟨s₁, -, hr⟩ := sscanf_lit_values hr hvalues
    obtain ⟨s₂, r₂, -, hr, hvalues⟩ := sscanf_conv_values hr hvalues
    obtain ⟨s₃, -, hr⟩ := sscanf_lit_values hr hvalues
    rw [sscanf_space] at hr
    obtain ⟨s₄, -, hr⟩ := sscanf_lit_values hr hvalues
    rw [sscanf_space] at hr
    obtain ⟨s₅, r₅, htype, hr, hvalues⟩ := sscanf_conv_values hr hvalues
    rw [sscanf_space] at hr
    obtain ⟨s₆, -, hr⟩ := sscanf_lit_values hr hvalues
    obtain ⟨s₇, r₇, hdesc, -⟩ := sscanf_conv_values hr hvalues
    obtain ⟨-, hblank, -, hfront⟩ := scanConv_except_ok htype
    refine ⟨fun hmem => hblank ' ' hmem (by simp), stops_of_skipped hfront,
      fun hmem => (scanConv_except_ok hdesc).2.1 ')' hmem (by simp), ?_, ?_⟩
    · rw [BitVec.toNat_ofNat]
      exact (Nat.mod_le _ _).trans (ffs_le id)
    · simp only
      split
      · unfold parseResourceFlags
        split
        · exact .inr rfl
        · exact .inl rfl
      · exact .inl rfl
  · cases h

theorem parseFileAttachment_plain {line : Str} {f : Attachment}
    (h : parseFileAttachment w recordAll line = .ok f) :
    (∀ c ∈ f.name, isSpace c = false) ∧ (∀ c ∈ f.path, isSpace c = false) := by
  obtain ⟨values, hscan, h⟩ := ParseResult.bind_eq_ok.mp h
  obtain ⟨r, hr, rfl⟩ := scan_values hscan
  split at h
  · rename_i name path hvalues
    obtain ⟨-, -, h⟩ := ParseResult.bind_eq_ok.mp h
    obtain rfl := ParseResult.ok.inj h
    rw [attachmentFormat] at hr
    obtain ⟨s₁, -, hr⟩ := sscanf_lit_values hr hvalues
    rw [sscanf_space] at hr
    obtain ⟨s₂, r₂, hname, hr, hvalues⟩ := sscanf_conv_values hr hvalues
    rw [sscanf_space] at hr
    obtain ⟨s₃, -, hr⟩ := sscanf_lit_values hr hvalues
    rw [sscanf_space] at hr
    obtain ⟨s₄, r₄, hpath, -⟩ := sscanf_conv_values hr hvalues
    exact ⟨(scanConv_word_ok hname).2.1, (scanConv_word_ok hpath).2.1⟩
  · cases h

/-! ### The records that survive -/

/-- A small resource id as the `int` of the formatter. -/
theorem resourceId_toInt {id : BitVec w} (h : id.toNat ≤ 32) :
    (id.setWidth 32).toInt = id.toNat := by
  have hnat : (id.setWidth 32).toNat = id.toNat := by
    rw [BitVec.toNat_setWidth, Nat.mod_eq_of_lt (by omega)]
  rw [BitVec.toInt_eq_toNat_of_lt (by omega), hnat]

theorem Record.Survives.of_scanned {rec : Record w} {line : Str}
    (hprint : printRecord rec = some line) (h : rec.Scanned recordAll line) : rec.Survives := by
  cases rec with
  | none => cases hprint
  | call c => cases hprint
  | comment => cases hprint
  | trace f => exact parseBacktrace_head h
  | arg a => exact parseArguments_plain h
  | mmap m => exact parseMemoryMapping_plain h
  | context c => exact parseContextRegistry_head h
  | attachment f => exact parseFileAttachment_plain h
  | resource res =>
    obtain ⟨hblank, hhead, hdesc, hid, hflags⟩ := parseResourceRegistry_shape h
    refine ⟨hblank, hhead, hdesc, ⟨?_, hid⟩, hflags⟩
    simp only [printRecord, spRtracePrintResource, resourceId_toInt hid,
      Option.ite_none_right_eq_some] at hprint
    omega

theorem printFrame_some (hw : w ≤ 64) {f : Frame w} (h : ∀ name ∈ f.name, name.length < 500) :
    buffered pathMax (printFrame f) = some (printFrame f) := by
  have haddr : (printNat 16 f.addr.toNat).length ≤ 16 := printNat_length (by decide) (by decide)
    (lt_of_lt_of_le f.addr.isLt (Nat.pow_le_pow_right (by decide) hw))
  have hlen : (printFrame f).length ≤ pathMax := by
    rw [pathMax, printFrame]
    cases hname : f.name with
    | none =>
      simp only [List.length_append, List.length_cons, List.length_nil]
      omega
    | some name =>
      have := h name hname
      simp only [List.length_append, List.length_cons, List.length_nil]
      omega
  rw [buffered, if_pos hlen]

theorem spRtracePrintResource_some {res : Resource w} (hid : 1 ≤ res.id.toNat ∧ res.id.toNat ≤ 32)
    (htype : res.type.length < 512) (hdesc : res.desc.length < 512) :
    ∃ line, spRtracePrintResource res = some line := by
  have hbit : ∀ k : Nat, (printNat 16 ((1 : BitVec 32) <<< k).toNat).length ≤ 8 := fun k =>
    printNat_length (by decide) (by decide) ((1 : BitVec 32) <<< k).isLt
  have hbit := hbit ((res.id.toNat : Int) - 1).toNat
  have hflags := printResourceFlags_length res.flags
  rw [printResourceFlags] at hflags
  simp only [spRtracePrintResource, resourceId_toInt hid.2]
  rw [if_pos (by omega), buffered, if_pos]
  · exact ⟨_, rfl⟩
  · rw [pathMax]
    simp only [List.length_append, List.length_cons, List.length_nil]
    omega

/-- **A printed resource is parsed back**, but for its `hide` flag. -/
theorem parseRecord_printResource_whole (hw : 32 ≤ w) {res : Resource w} {line : Str}
    (hprint : spRtracePrintResource res = some line) (h : ScannableResource res)
    (hdesc : ')' ∉ res.desc) (hid : res.id.toNat ≤ 32)
    (hflags : res.flags = 0 ∨ res.flags = resourceRefcount) :
    spRtraceParserParseRecord recordAll line = some (.resource { res with hide := false }) := by
  obtain ⟨r, hparse, -, hr⟩ := parseRecord_printResource hw hprint h
  have hflags' : (if res.flags = 0 then 0 else resourceRefcount) = res.flags := by
    rcases hflags with hf | hf
    · rw [hf, if_pos rfl]
    · rw [hf, if_neg (by decide)]
  rw [hparse, hr hdesc, resourceId_toInt hid, Int.toNat_natCast, BitVec.ofNat_toNat,
    BitVec.setWidth_eq, hflags']

/-- A text without a parenthesis does not start with one. -/
theorem stops_of_not_mem {c : Char} {s : Str} (h : c ∉ s) : Stops (· = c) s := by
  intro d hd
  simp only [decide_eq_false_iff_not]
  rintro rfl
  exact h (List.mem_of_mem_head? hd)

/-- **A record survives being printed and parsed** exactly if `Survives`
says so. -/
theorem parseRecord_printRecord_iff (hw : w = 32 ∨ w = 64) {rec : Record w}
    (h : PrintableRecord rec) :
    (∃ line, printRecord rec = some line ∧ spRtraceParserParseRecord recordAll line = some rec) ↔
      rec.Survives := by
  have hw32 : 32 ≤ w := by omega
  constructor
  · rintro ⟨line, hprint, hparse⟩
    exact .of_scanned hprint (parseRecord_scanned hparse)
  intro hs
  cases rec with
  | none => cases hs
  | call c => cases hs
  | comment => cases hs
  | trace f =>
    have hstr : ∀ name ∈ f.name, name ≠ [] ∧ '\n' ∉ name ∧ name.length < 500 :=
      fun name hn => h.strings name (by simpa [Record.strings] using hn)
    refine ⟨_, printFrame_some (by omega) fun name hn => (hstr name hn).2.2,
      parseRecord_printFrame fun name hn => ?_⟩
    obtain ⟨hne, hnl, hlen⟩ := hstr name hn
    exact ⟨hne, hnl, hs name hn, lt_of_lt_of_le hlen (by decide)⟩
  | arg a =>
    obtain ⟨hn, -, -⟩ := h.strings a.name (by simp [Record.strings])
    obtain ⟨hv, -, hvlen⟩ := h.strings a.value (by simp [Record.strings])
    obtain ⟨hnplain, hvplain, hlen⟩ := hs
    exact ⟨_, rfl, parseRecord_printArg ⟨hn, hlen, hnplain⟩
      ⟨hv, lt_of_lt_of_le hvlen (by decide), hvplain⟩⟩
  | mmap m =>
    obtain ⟨hn, -, hlen⟩ := h.strings m.moduleName (by simp [Record.strings])
    exact ⟨_, rfl, parseRecord_printMmap ⟨hn, hs, lt_of_lt_of_le hlen (by decide)⟩⟩
  | context c =>
    obtain ⟨hn, hnl, hlen⟩ := h.strings c.name (by simp [Record.strings])
    obtain ⟨hhead, hid⟩ := hs
    refine ⟨_, rfl, ?_⟩
    rw [parseRecord_printContext_name hw32 hn hnl hhead (lt_of_lt_of_le hlen (by decide))]
    have hback : (c.id.setWidth 32).setWidth w = c.id := by
      apply BitVec.eq_of_toNat_eq
      rw [BitVec.toNat_setWidth, BitVec.toNat_setWidth, Nat.mod_eq_of_lt hid,
        Nat.mod_eq_of_lt c.id.isLt]
    rw [hback]
  | attachment f =>
    obtain ⟨hn, -, hnlen⟩ := h.strings f.name (by simp [Record.strings])
    obtain ⟨hp, -, hplen⟩ := h.strings f.path (by simp [Record.strings])
    exact ⟨_, rfl, parseRecord_printAttachment_word ⟨hn, hs.1, lt_of_lt_of_le hnlen (by decide)⟩
      ⟨hp, hs.2, lt_of_lt_of_le hplen (by decide)⟩⟩
  | resource res =>
    obtain ⟨ht, -, htlen⟩ := h.strings res.type (by simp [Record.strings])
    obtain ⟨hd, -, hdlen⟩ := h.strings res.desc (by simp [Record.strings])
    obtain ⟨hblank, hhead, hdesc, hid, hflags⟩ := hs
    have ht512 : res.type.length < 512 := lt_of_lt_of_le htlen (by decide)
    have hd512 : res.desc.length < 512 := lt_of_lt_of_le hdlen (by decide)
    obtain ⟨line, hline⟩ := spRtracePrintResource_some hid ht512 hd512
    refine ⟨line, hline, ?_⟩
    rw [parseRecord_printResource_whole hw32 hline
      ⟨ht, hblank, hhead, ht512, hd, stops_of_not_mem hdesc, hd512⟩ hdesc hid.2 hflags,
      ← h.hide res rfl]

/-- A mapped file with a blank in its path. -/
def blankMmap : Record 64 :=
  .mmap { fromAddr := 4096, toAddr := 8192, moduleName := "/opt/my app".toList }

/-- It is not read as a mapping. -/
theorem parseRecord_printRecord_blank : PrintableRecord blankMmap ∧
    ¬ ∃ line, printRecord blankMmap = some line ∧
      spRtraceParserParseRecord recordAll line = some blankMmap := by
  constructor
  · refine ⟨?_, by simp [blankMmap]⟩
    simp only [blankMmap, Record.strings, List.mem_singleton, forall_eq]
    decide
  · rintro ⟨line, hline, hparse⟩
    have heval : (printRecord blankMmap).bind (spRtraceParserParseRecord recordAll)
        = some (.comment : Record 64) := by decide +kernel
    rw [hline, Option.bind_some, hparse] at heval
    cases heval

/-- A resource whose description has blanks and a parenthesis. -/
def heapResource : Record 64 :=
  .resource { id := 3, type := "memory".toList, desc := "memory (heap and mapped".toList,
              flags := 1, hide := false }

/-- It survives. -/
theorem parseRecord_printRecord_iff_heap :
    ∃ line, printRecord heapResource = some line ∧
      spRtraceParserParseRecord recordAll line = some heapResource :=
  (parseRecord_printRecord_iff (.inr rfl)
    ⟨by simp only [heapResource, Record.strings, List.mem_cons, List.not_mem_nil, or_false,
          forall_eq_or_imp, forall_eq]
        decide,
      fun r hr => by rw [← Record.resource.inj hr]⟩).mpr
    ⟨by decide, by decide +kernel, by decide, by decide, by decide⟩

end SpRtrace.Library
