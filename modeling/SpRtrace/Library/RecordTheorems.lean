/-
SpRtrace.Library.RecordTheorems — what the parser makes of the lines that
the formatter prints.

The call line is cut into the pieces its scanner goes through: index,
context mask, timestamp, name, resource type, value. For each piece there
is a lemma that the scanner reads it in front of any following text that
fits, and `parseRecord_printCall` puts them together. The conditions are
those of the scanner: it looks for the LAST parenthesis and the LAST
angle bracket, and its name buffers hold 511 characters.

A line of any other kind matters to a reader of the log only in that it
is not taken for a call, an argument or a frame.
-/
import Mathlib
import SpRtrace.Lib.StdioTheorems
import SpRtrace.Library.Parser

namespace SpRtrace.Library

open SpRtrace.Lib SpRtrace.Common

variable {w : Nat}

/-! ## The result monad -/

@[simp] theorem ParseResult.ok_bind {α β : Type} (a : α) (f : α → ParseResult β) :
    (ParseResult.ok a >>= f) = f a := rfl

@[simp] theorem ParseResult.fail_bind {α β : Type} (f : α → ParseResult β) :
    ((ParseResult.fail : ParseResult α) >>= f) = .fail := rfl

@[simp] theorem ParseResult.fault_bind {α β : Type} (f : α → ParseResult β) :
    ((ParseResult.fault : ParseResult α) >>= f) = .fault := rfl

theorem scan_eq {fmt : List Directive} {s : Str} {r : ScanResult w} (h : sscanf w fmt s = some r) :
    scan w fmt s = .ok r.values := by
  rw [scan, h]

@[simp] theorem checkMask_all_call : checkMask recordAll recordCall = .ok () := rfl
@[simp] theorem checkMask_all_trace : checkMask recordAll recordTrace = .ok () := rfl
@[simp] theorem checkMask_all_arg : checkMask recordAll recordArg = .ok () := rfl
@[simp] theorem checkMask_all_mmap : checkMask recordAll recordMmap = .ok () := rfl
@[simp] theorem checkMask_all_context : checkMask recordAll recordContext = .ok () := rfl
@[simp] theorem checkMask_all_attachment : checkMask recordAll recordAttachment = .ok () := rfl

/-! ## String searches -/

theorem strchr_append {before : Str} {c : Char} (h : c ∉ before) (rest : Str) :
    strchr (before ++ c :: rest) c = some (c :: rest) := by
  have hrun : ∀ d ∈ before, (decide (d ≠ c)) = true := by
    intro d hd
    simp only [decide_eq_true_eq]
    rintro rfl
    exact h hd
  rw [strchr, dropWhile_run hrun (by simp)]

theorem behindBlank_append (before rest : Str) (h : ' ' ∉ before) :
    behindBlank (before ++ ' ' :: rest) = some rest := by
  rw [behindBlank, strchr_append h]
  rfl

theorem strrchr_append (before : Str) {rest : Str} {c : Char} (h : c ∉ rest) :
    strrchr (before ++ c :: rest) c = some (before, c :: rest) := by
  have hrev : (before ++ c :: rest).reverse = rest.reverse ++ c :: before.reverse := by simp
  have hrun : ∀ d ∈ rest.reverse, (decide (d ≠ c)) = true := by
    intro d hd
    simp only [decide_eq_true_eq]
    rintro rfl
    exact h (List.mem_reverse.mp hd)
  rw [strrchr, hrev, dropWhile_run hrun (by simp), takeWhile_run hrun (by simp)]
  simp

/-! ## Printed numbers -/

/-- A character that no number is printed with. -/
def notInNumber (c : Char) : Bool := !isDigitOf 16 c && c ≠ '-'

theorem isDigitOf_mono {c : Char} (h : isDigitOf 10 c = true) : isDigitOf 16 c = true := by
  unfold isDigitOf at h ⊢
  cases hd : digitVal c with
  | none => simp [hd] at h
  | some d =>
    simp only [hd, Option.any_some, decide_eq_true_eq] at h ⊢
    omega

theorem not_mem_printNat {c : Char} (h : notInNumber c = true) {base : Nat}
    (hb : base = 10 ∨ base = 16) (n : Nat) : c ∉ printNat base n := by
  intro hc
  have h16 : isDigitOf 16 c = true := by
    rcases hb with rfl | rfl
    · exact isDigitOf_mono (isDigitOf_of_mem_printNat (by decide) (by decide) n c hc)
    · exact isDigitOf_of_mem_printNat (by decide) (by decide) n c hc
  simp [notInNumber, h16] at h

theorem not_mem_printInt {c : Char} (h : notInNumber c = true) (v : BitVec 32) :
    c ∉ printInt v := by
  have hne : c ≠ '-' := by
    rintro rfl
    exact absurd h (by decide)
  unfold printInt
  split
  · simp [hne, not_mem_printNat h (Or.inl rfl)]
  · exact not_mem_printNat h (Or.inl rfl) _

theorem not_mem_printPadded {c : Char} (h : notInNumber c = true) (width n : Nat) :
    c ∉ printPadded width n := by
  have hne : c ≠ '0' := by
    rintro rfl
    exact absurd h (by decide)
  simp [printPadded, hne, not_mem_printNat h (Or.inl rfl)]

/-! ## The pieces of a call line -/

theorem scanIndex_print (hw : 32 ≤ w) (index : BitVec 32) (rest : Str) :
    scanIndex w (printInt index ++ '.' :: ' ' :: rest) = .ok (index, rest) := by
  have hscan : sscanf w [.conv .dec, .conv .char] (printInt index ++ '.' :: ' ' :: rest)
      = some { values := [.int index, .char '.'], eof := false } := by
    rw [sscanf_conv (scanConv_dec_printInt hw index (by simp; decide)), sscanf_conv rfl]
    rfl
  have hblank : behindBlank (printInt index ++ '.' :: ' ' :: rest) = some rest := by
    have hno : ' ' ∉ printInt index ++ ['.'] := by
      simp [not_mem_printInt (by decide : notInNumber ' ' = true) index]
    simpa using behindBlank_append _ rest hno
  rw [scanIndex, scan_eq hscan]
  simp [hblank, found]

theorem scanContextMask_print (hw : 32 ≤ w) (context : BitVec 32) {rest : Str}
    (hrest : Stops (· = '@') rest) :
    scanContextMask w (printContextMask context ++ rest) = .ok (context, rest) := by
  unfold printContextMask
  split
  · rename_i h0
    have hscan : ∃ r, sscanf w [.lit '@', .conv .hex] rest = some r ∧ r.values = [] := by
      cases rest with
      | nil => exact ⟨_, rfl, rfl⟩
      | cons c rest =>
        exact ⟨_, sscanf_lit_ne (fun e => by simp [← e] at hrest) _ _, rfl⟩
    obtain ⟨r, hr, hv⟩ := hscan
    rw [scanContextMask, List.nil_append, scan_eq hr, hv, h0]
    rfl
  · have hscan : sscanf w [.lit '@', .conv .hex]
        ('@' :: (printNat 16 context.toNat ++ ' ' :: rest))
        = some { values := [.int context], eof := false } := by
      rw [sscanf_lit, sscanf_conv (scanConv_hex_printNat hw context (by simp; decide))]
      rfl
    have hblank : behindBlank ('@' :: (printNat 16 context.toNat ++ ' ' :: rest)) = some rest := by
      have hno : ' ' ∉ '@' :: printNat 16 context.toNat := by
        simp [not_mem_printNat (by decide : notInNumber ' ' = true) (Or.inr rfl)]
      simpa using behindBlank_append _ rest hno
    have htext : '@' :: printNat 16 context.toNat ++ [' '] ++ rest
        = '@' :: (printNat 16 context.toNat ++ ' ' :: rest) := by simp
    rw [htext, scanContextMask, scan_eq hscan]
    simp [hblank, found]

/-- Hours, minutes, seconds and milliseconds put together again. -/
theorem timestamp_fields (t : Nat) :
    BitVec.ofNat 32 (t / 3600000) * 3600000 + BitVec.ofNat 32 (t % 3600000 / 60000) * 60000
      + BitVec.ofNat 32 (t % 3600000 % 60000 / 1000) * 1000
      + BitVec.ofNat 32 (t % 3600000 % 60000 % 1000) = BitVec.ofNat 32 t := by
  have hsum : t = t / 3600000 * 3600000 + t % 3600000 / 60000 * 60000
      + t % 3600000 % 60000 / 1000 * 1000 + t % 3600000 % 60000 % 1000 := by omega
  conv_rhs => rw [hsum]
  simp only [BitVec.ofNat_add, BitVec.ofNat_mul]
  rfl

theorem scanTimestamp_print (hw : 32 ≤ w) {timestamp : BitVec 32}
    (hlt : timestamp.toNat < 86400000) {rest : Str} (hrest : Stops (· = '[') rest) :
    scanTimestamp w (printCallTime timestamp ++ rest) = .ok (timestamp, rest) := by
  unfold printCallTime
  split
  · rename_i h0
    have hscan : ∃ r, sscanf w timestampFormat rest = some r ∧ r.values = [] := by
      cases rest with
      | nil => exact ⟨_, rfl, rfl⟩
      | cons c rest =>
        exact ⟨_, sscanf_lit_ne (fun e => by simp [← e] at hrest) _ _, rfl⟩
    obtain ⟨r, hr, hv⟩ := hscan
    rw [scanTimestamp, List.nil_append, scan_eq hr, hv, h0]
    rfl
  · set t := timestamp.toNat with ht
    have hdec : ∀ (width n : Nat) (c : Char) (s : Str), n < 2 ^ 31 → isDigitOf 10 c = false →
        scanConv (w := w) .dec (printPadded width n ++ c :: s)
          = .ok (.int (BitVec.ofNat 32 n)) (c :: s) :=
      fun width n c s hn hc => scanConv_dec_printPadded hw width hn (by simpa using hc)
    have htext : printTimestamp t ++ rest = '[' :: (printPadded 2 (t / 3600000) ++ ':' ::
        (printPadded 2 (t % 3600000 / 60000) ++ ':' ::
        (printPadded 2 (t % 3600000 % 60000 / 1000) ++ '.' ::
        (printPadded 3 (t % 3600000 % 60000 % 1000) ++ ']' :: ' ' :: rest)))) := by
      simp [printTimestamp]
    have hscan : sscanf w timestampFormat (printTimestamp t ++ rest)
        = some { values := [.int (BitVec.ofNat 32 (t / 3600000)),
            .int (BitVec.ofNat 32 (t % 3600000 / 60000)),
            .int (BitVec.ofNat 32 (t % 3600000 % 60000 / 1000)),
            .int (BitVec.ofNat 32 (t % 3600000 % 60000 % 1000))], eof := false } := by
      rw [htext, timestampFormat, sscanf_lit,
        sscanf_conv (hdec _ _ _ _ (by omega) (by decide)), sscanf_lit,
        sscanf_conv (hdec _ _ _ _ (by omega) (by decide)), sscanf_lit,
        sscanf_conv (hdec _ _ _ _ (by omega) (by decide)), sscanf_lit,
        sscanf_conv (hdec _ _ _ _ (by omega) (by decide)), sscanf_lit]
      rfl
    have hblank : behindBlank (printTimestamp t ++ rest) = some rest := by
      have hnum := not_mem_printPadded (by decide : notInNumber ' ' = true)
      have hno : ' ' ∉ '[' :: (printPadded 2 (t / 3600000) ++ ':' ::
          (printPadded 2 (t % 3600000 / 60000) ++ ':' ::
          (printPadded 2 (t % 3600000 % 60000 / 1000) ++ '.' ::
          (printPadded 3 (t % 3600000 % 60000 % 1000) ++ [']'])))) := by
        simp [hnum]
      rw [htext]
      simpa using behindBlank_append _ rest hno
    rw [scanTimestamp, scan_eq hscan]
    simp only [ParseResult.ok_bind, hblank, found, timestamp_fields]
    rw [ht, BitVec.ofNat_toNat, BitVec.setWidth_eq]

/-- The text behind the name of a call: a resource type without brackets,
or a name that does not look as if it had one. -/
structure PlainName (name : Str) (resName : Option Str) : Prop where
  no_context : Stops (· = '@') name
  no_time : Stops (· = '[') name
  no_type : resName = none → name.getLast? ≠ some '>'
  type_plain : ∀ type ∈ resName, ∀ c ∈ type, c ≠ '<' ∧ c ≠ '>' ∧ c ≠ '('

/-- Both names can be read, and fit their buffers. -/
structure ScannableName (name : Str) (resName : Option Str) : Prop extends
    PlainName name resName where
  short : name.length < 512
  type_ne : ∀ type ∈ resName, type ≠ []
  type_short : ∀ type ∈ resName, type.length < 512

/-- The rest of a call line has one parenthesis and no bracket. -/
theorem printCallValue_shape (type resSize : BitVec 32) (resId : BitVec w) :
    ∃ s, printCallValue type resSize resId ++ ['\n'] = '(' :: s ∧ '(' ∉ s ∧ '<' ∉ s := by
  have hint := fun c hc => not_mem_printInt (c := c) hc resSize
  have hnat := fun c hc => not_mem_printNat (c := c) hc (Or.inr rfl) resId.toNat
  unfold printCallValue
  split
  · refine ⟨_, List.cons_append, ?_, ?_⟩ <;>
      simp [hint _ (by decide : notInNumber '(' = true), hnat _ (by decide : notInNumber '(' = true),
        hint _ (by decide : notInNumber '<' = true), hnat _ (by decide : notInNumber '<' = true)]
  · refine ⟨_, List.cons_append, ?_, ?_⟩ <;>
      simp [hnat _ (by decide : notInNumber '(' = true), hnat _ (by decide : notInNumber '<' = true)]

theorem scanCallValue_print (hw : 32 ≤ w) {type resSize : BitVec 32} {resId : BitVec w}
    (hkind : type = ftypeAlloc ∨ type = ftypeFree ∧ resSize = 0) :
    scanCallValue w (printCallValue type resSize resId ++ ['\n']) = .ok (type, resSize, resId) := by
  rcases hkind with rfl | ⟨rfl, rfl⟩
  · have hscan : sscanf w allocFormat (printCallValue ftypeAlloc resSize resId ++ ['\n'])
        = some { values := [.int resSize, .long resId], eof := false } := by
      have htext : printCallValue ftypeAlloc resSize resId ++ ['\n']
          = '(' :: (printInt resSize ++ ')' :: ' ' :: '=' :: ' ' :: '0' :: 'x' ::
              (printNat 16 resId.toNat ++ ['\n'])) := by
        simp [printCallValue]
      rw [htext, allocFormat, sscanf_lit,
        sscanf_conv (scanConv_dec_printInt hw resSize (by simp; decide)), sscanf_lit, sscanf_space,
        skipSpace_blank, skipSpace_cons (by decide), sscanf_lit, sscanf_space, skipSpace_blank,
        skipSpace_cons (by decide), sscanf_lit, sscanf_lit,
        sscanf_conv (scanConv_hexLong_printNat resId (by simp; decide))]
      rfl
    rw [scanCallValue, scan_eq hscan]
    rfl
  · have htext : printCallValue ftypeFree 0 resId ++ ['\n']
        = '(' :: '0' :: 'x' :: (printNat 16 resId.toNat ++ [')', '\n']) := by
      simp [printCallValue, ftypeFree, ftypeAlloc]
    -- as an allocation the line ends behind the zero of 0x
    have halloc : sscanf w allocFormat (printCallValue ftypeFree 0 resId ++ ['\n'])
        = some { values := [.int 0], eof := false } := by
      have hzero : scanConv (w := w) .dec (['0'] ++ 'x' :: (printNat 16 resId.toNat ++ [')', '\n']))
          = .ok (.int (BitVec.ofNat 32 0)) ('x' :: (printNat 16 resId.toNat ++ [')', '\n'])) :=
        scanConv_dec_run hw (by simp) (by simp; decide) (by decide) (by decide) (by simp; decide)
      rw [List.singleton_append] at hzero
      rw [htext, allocFormat, sscanf_lit, sscanf_conv hzero, sscanf_lit_ne (by decide)]
      rfl
    have hfree : sscanf w freeFormat (printCallValue ftypeFree 0 resId ++ ['\n'])
        = some { values := [.long resId], eof := false } := by
      rw [htext, freeFormat, sscanf_lit, sscanf_lit, sscanf_lit,
        sscanf_conv (scanConv_hexLong_printNat resId (by simp; decide)), sscanf_lit]
      rfl
    rw [scanCallValue, scan_eq halloc]
    simp only [ParseResult.ok_bind, scan_eq hfree]

/-- What the resource field of a printed call is read as. -/
def ResField.reread (f : ResField w) : ResField w :=
  match f.resName with
  | none => .undef
  | some type => .name type

theorem scanName_plain {name : Str} {resName : Option Str} (h : PlainName name resName)
    {s : Str} (hpar : '(' ∉ s) (hbr : '<' ∉ s) :
    scanName (name ++ printResName resName ++ '(' :: s)
      = if name.length < 512 then .ok (name, printResName resName ++ '(' :: s) else .fault := by
  unfold scanName
  rw [strrchr_append _ hpar]
  cases hres : resName with
  | none =>
    have hlast : (name ++ printResName none).getLast? ≠ some '>' := by
      simpa [printResName] using h.no_type hres
    simp only [found, ParseResult.ok_bind, hlast, if_false]
    simp [printResName]
  | some type =>
    have hlast : (name ++ printResName (some type)).getLast? = some '>' := by
      rw [printResName, ← List.append_assoc, List.getLast?_append]
      rfl
    have htype : '<' ∉ type ++ '>' :: '(' :: s := by
      have := h.type_plain type (by simp [hres])
      simp only [List.mem_append, List.mem_cons, not_or]
      exact ⟨fun hm => (this _ hm).1 rfl, by decide, by decide, hbr⟩
    have htext : name ++ printResName (some type) ++ '(' :: s
        = name ++ '<' :: (type ++ '>' :: '(' :: s) := by simp [printResName]
    simp only [found, ParseResult.ok_bind, hlast, if_true]
    rw [htext, strrchr_append _ htype]
    simp [followed, printResName]

/-- The text of a printed resource type. -/
theorem printResName_text (type s : Str) :
    printResName (some type) ++ '(' :: s = '<' :: (type ++ '>' :: '(' :: s) := by simp [printResName]

theorem scanResType_print {name : Str} {field : ResField w} (h : ScannableName name field.resName)
    (s : Str) :
    scanResType w (printResName field.resName ++ '(' :: s) = .ok (field.reread, '(' :: s) := by
  unfold scanResType ResField.reread
  cases hres : field.resName with
  | none =>
    rw [printResName, List.nil_append, if_neg (by simp)]
  | some type =>
    have hplain := h.type_plain type (by simp [hres])
    have hscan : sscanf w [.lit '<', .conv (.except ['>'] 512), .lit '>']
        ('<' :: (type ++ '>' :: '(' :: s)) = some { values := [.text type], eof := false } := by
      rw [sscanf_lit, sscanf_conv (scanConv_except (h.type_ne type (by simp [hres]))
        (fun c hc => by simp [(hplain c hc).2.1]) (by simp) (h.type_short type (by simp [hres]))),
        sscanf_lit]
      rfl
    have hpar : strchr ('<' :: (type ++ '>' :: '(' :: s)) '(' = some ('(' :: s) := by
      have hno : '(' ∉ '<' :: (type ++ ['>']) := by
        simp only [List.mem_cons, List.mem_append, List.not_mem_nil, or_false, not_or]
        exact ⟨by decide, fun hm => (hplain _ hm).2.2 rfl, by decide⟩
      simpa using strchr_append hno s
    rw [printResName_text, if_pos (by simp), scan_eq hscan]
    simp [hpar, found]

/-- A resource type that does not fit is a memory error. -/
theorem scanResType_long {name : Str} {resName : Option Str} (h : PlainName name resName)
    {type : Str} (htype : type ∈ resName) (hne : type ≠ []) (hlong : 512 ≤ type.length) (s : Str) :
    scanResType w (printResName resName ++ '(' :: s) = .fault := by
  obtain rfl : resName = some type := htype
  have hplain := h.type_plain type rfl
  have hscan : sscanf w [.lit '<', .conv (.except ['>'] 512), .lit '>']
      ('<' :: (type ++ '>' :: '(' :: s)) = none := by
    rw [sscanf_lit, sscanf_overflow (scanConv_except_overflow hne
      (fun c hc => by simp [(hplain c hc).2.1]) (by simp) hlong)]
  rw [printResName_text, scanResType, if_pos (by simp), scan, hscan]
  rfl

/-! ## The scanner of a record -/

/-- The scanner that makes such a record has made it; in front of a comment
all of them have failed. -/
def Record.Scanned (mask : BitVec 32) (line : Str) : Record w → Prop
  | .none => True
  | .trace f => parseBacktrace mask line = .ok f
  | .call c => parseFunctionCall mask line = .ok c
  | .arg a => parseArguments w mask line = .ok a
  | .mmap m => parseMemoryMapping mask line = .ok m
  | .context c => parseContextRegistry mask line = .ok c
  | .resource r => parseResourceRegistry mask line = .ok r
  | .attachment f => parseFileAttachment w mask line = .ok f
  | .comment => mask &&& recordComment ≠ 0

theorem orElse_cases {α : Type} {r : ParseResult α} {make : α → Record w}
    {next : Option (Record w)} {rec : Record w} {P : Record w → Prop}
    (h : r.orElse make next = some rec) (hnone : P .none) (hok : ∀ a, r = .ok a → P (make a))
    (hnext : next = some rec → P rec) : P rec := by
  cases r with
  | fault => cases h
  | fail => exact hnext h
  | ignore => exact Option.some.inj h ▸ hnone
  | ok a => exact Option.some.inj h ▸ hok a rfl

theorem parseRecord_scanned {mask : BitVec 32} {line : Str} {rec : Record w}
    (h : spRtraceParserParseRecord mask line = some rec) : rec.Scanned mask line := by
  refine orElse_cases h trivial (fun _ h => h) fun h => ?_
  refine orElse_cases h trivial (fun _ h => h) fun h => ?_
  refine orElse_cases h trivial (fun _ h => h) fun h => ?_
  refine orElse_cases h trivial (fun _ h => h) fun h => ?_
  refine orElse_cases h trivial (fun _ h => h) fun h => ?_
  refine orElse_cases h trivial (fun _ h => h) fun h => ?_
  refine orElse_cases h trivial (fun _ h => h) fun h => ?_
  by_cases hmask : mask &&& recordComment = 0
  · rw [if_pos hmask] at h
    exact Option.some.inj h ▸ trivial
  · rw [if_neg hmask] at h
    exact Option.some.inj h ▸ hmask

/-! ## Call lines -/

theorem stops_append {p : Char → Bool} {s t : Str} (hs : Stops p s) (ht : s = [] → Stops p t) :
    Stops p (s ++ t) := by
  cases s with
  | nil => exact ht rfl
  | cons c s => simpa using hs

/-- A number or a minus sign. -/
theorem printInt_head (v : BitVec 32) : ∃ c s, printInt v = c :: s ∧ c ≠ '\t' := by
  have htab := not_mem_printInt (by decide : notInNumber '\t' = true) v
  cases h : printInt v with
  | nil =>
    unfold printInt at h
    split at h
    · cases h
    · exact absurd h (printNat_ne_nil _ _)
  | cons c s =>
    refine ⟨c, s, rfl, ?_⟩
    rintro rfl
    rw [h] at htab
    simp at htab

/-- The line of a call without the final steps of `spRtracePrintCall`. -/
def printCallLine (call : CallRecord w) : Str :=
  printInt call.index ++ '.' :: ' ' :: printContextMask call.context
    ++ printCallTime call.timestamp ++ call.name ++ printResName call.resType.resName
    ++ printCallValue call.type call.resSize call.resId ++ ['\n']

/-- A printed call up to its name. -/
theorem parseFunctionCall_names (hw : 32 ≤ w) {call : CallRecord w}
    (hcontext : Stops (· = '@') call.name) (hbracket : Stops (· = '[') call.name)
    (htime : call.timestamp.toNat < 86400000) {s : Str}
    (hs : printCallValue call.type call.resSize call.resId ++ ['\n'] = '(' :: s) :
    parseFunctionCall recordAll (printCallLine call) = (do
      let (name, ptr) ← scanName (call.name ++ printResName call.resType.resName ++ '(' :: s)
      let (resType, ptr) ← scanResType w ptr
      let (type, resSize, resId) ← scanCallValue w ptr
      checkMask recordAll recordCall
      .ok { index := call.index, context := call.context, timestamp := call.timestamp, name,
            resType, type, resSize, resId }) := by
  have hstop : ∀ c : Char, Stops (· = c) call.name → c ≠ '<' → c ≠ '(' →
      Stops (· = c) (call.name ++ printResName call.resType.resName ++ '(' :: s) := by
    intro c hc hlt hp
    rw [List.append_assoc]
    refine stops_append hc fun _ => stops_append ?_ fun _ => by simpa using hp.symm
    cases call.resType.resName <;> simp [printResName, hlt.symm]
  have htimed : Stops (· = '@') (printCallTime call.timestamp
      ++ (call.name ++ printResName call.resType.resName ++ '(' :: s)) := by
    refine stops_append ?_ fun _ => hstop '@' hcontext (by decide) (by decide)
    unfold printCallTime
    split
    · simp
    · simp [printTimestamp]
  have htext : printCallLine call
      = printInt call.index ++ '.' :: ' ' :: (printContextMask call.context
        ++ (printCallTime call.timestamp
          ++ (call.name ++ printResName call.resType.resName ++ '(' :: s))) := by
    rw [← hs, printCallLine]
    simp
  rw [htext, parseFunctionCall, scanIndex_print hw, ParseResult.ok_bind]
  simp only
  rw [scanContextMask_print hw _ htimed, ParseResult.ok_bind]
  simp only
  rw [scanTimestamp_print hw htime (hstop '[' hbracket (by decide) (by decide)),
    ParseResult.ok_bind]

theorem parseFunctionCall_print (hw : 32 ≤ w) {call : CallRecord w}
    (hname : ScannableName call.name call.resType.resName)
    (htime : call.timestamp.toNat < 86400000)
    (hkind : call.type = ftypeAlloc ∨ call.type = ftypeFree ∧ call.resSize = 0) :
    parseFunctionCall recordAll (printCallLine call)
      = .ok { call with resType := call.resType.reread } := by
  obtain ⟨s, hs, hpar, hbr⟩ := printCallValue_shape call.type call.resSize call.resId
  rw [parseFunctionCall_names hw hname.no_context hname.no_time htime hs,
    scanName_plain hname.toPlainName hpar hbr, if_pos hname.short, ParseResult.ok_bind]
  simp only
  rw [scanResType_print hname, ParseResult.ok_bind]
  simp only
  rw [← hs, scanCallValue_print hw hkind]
  rfl

/-- A call whose names do not fit is a memory error. -/
theorem parseFunctionCall_long (hw : 32 ≤ w) {call : CallRecord w}
    (hname : PlainName call.name call.resType.resName)
    (hne : ∀ type ∈ call.resType.resName, type ≠ []) (htime : call.timestamp.toNat < 86400000)
    (hlong : ¬ ScannableName call.name call.resType.resName) :
    parseFunctionCall (w := w) recordAll (printCallLine call) = .fault := by
  obtain ⟨s, hs, hpar, hbr⟩ := printCallValue_shape call.type call.resSize call.resId
  rw [parseFunctionCall_names hw hname.no_context hname.no_time htime hs,
    scanName_plain hname hpar hbr]
  by_cases hshort : call.name.length < 512
  · obtain ⟨type, htype, htlong⟩ : ∃ type ∈ call.resType.resName, 512 ≤ type.length := by
      by_contra hno
      push Not at hno
      exact hlong { toPlainName := hname, short := hshort, type_ne := hne, type_short := hno }
    rw [if_pos hshort, ParseResult.ok_bind]
    simp only
    rw [scanResType_long hname htype (hne type htype) htlong]
    rfl
  · rw [if_neg hshort]
    rfl

/-- What `sp_rtrace_print_call` prints of a call with a time of its own. -/
theorem spRtracePrintCall_eq {now : BitVec 32} {call : CallRecord w} {line : Str}
    (hprint : spRtracePrintCall now call = some line)
    (htime : call.timestamp.toNat < 86400000) : line = printCallLine call := by
  have hnow : call.timestamp ≠ BitVec.allOnes 32 := by
    intro he
    rw [he] at htime
    exact absurd htime (by decide)
  simp only [spRtracePrintCall, if_neg hnow, buffered, Option.ite_none_right_eq_some,
    Option.some.injEq] at hprint
  exact hprint.2.symm

/-- A call line goes to the scanner of the calls. -/
theorem parseRecord_callLine (call : CallRecord w) :
    spRtraceParserParseRecord (w := w) recordAll (printCallLine call)
      = (parseFunctionCall recordAll (printCallLine call)).orElse .call
        ((parseArguments w recordAll (printCallLine call)).orElse .arg <|
         (parseMemoryMapping recordAll (printCallLine call)).orElse .mmap <|
         (parseContextRegistry recordAll (printCallLine call)).orElse .context <|
         (parseResourceRegistry recordAll (printCallLine call)).orElse .resource <|
         (parseFileAttachment w recordAll (printCallLine call)).orElse .attachment <|
         some .comment) := by
  have htab : (printCallLine call).head? ≠ some '\t' := by
    obtain ⟨c, s, hc, hne⟩ := printInt_head call.index
    rw [printCallLine, hc]
    simpa using hne
  rw [spRtraceParserParseRecord, parseBacktrace, if_pos htab]
  rfl

/-- **A printed call is parsed back**, with the name of its resource type
in place of the resource. -/
theorem parseRecord_printCall (hw : 32 ≤ w) {call : CallRecord w}
    (hname : ScannableName call.name call.resType.resName)
    (htime : call.timestamp.toNat < 86400000)
    (hkind : call.type = ftypeAlloc ∨ call.type = ftypeFree ∧ call.resSize = 0) :
    spRtraceParserParseRecord recordAll (printCallLine call)
      = some (.call { call with resType := call.resType.reread }) := by
  rw [parseRecord_callLine, parseFunctionCall_print hw hname htime hkind]
  rfl

/-- The parser gets over a printed call only if its names fit. -/
theorem parseRecord_printCall_fits (hw : 32 ≤ w) {call : CallRecord w} {rec : Record w}
    (hname : PlainName call.name call.resType.resName)
    (hne : ∀ type ∈ call.resType.resName, type ≠ []) (htime : call.timestamp.toNat < 86400000)
    (h : spRtraceParserParseRecord recordAll (printCallLine call) = some rec) :
    ScannableName call.name call.resType.resName := by
  by_contra hlong
  rw [parseRecord_callLine, parseFunctionCall_long hw hname hne htime hlong] at h
  cases h

/-! ## Frames and arguments -/

/-- **A printed frame is parsed back.** -/
theorem parseRecord_printFrame {frame : Frame w}
    (hname : ∀ name ∈ frame.name, name ≠ [] ∧ '\n' ∉ name ∧ Stops isSpace name ∧
      name.length < pathMax) :
    spRtraceParserParseRecord recordAll (printFrame frame) = some (.trace frame) := by
  obtain ⟨addr, name⟩ := frame
  have hback : parseBacktrace recordAll (printFrame { addr, name }) = .ok { addr, name } := by
    cases name with
    | none =>
      have hscan : sscanf w backtraceFormat (printFrame { addr, name := none })
          = some { values := [.long addr], eof := true } := by
        have htext : printFrame { addr, name := none }
            = '\t' :: '0' :: 'x' :: (printNat 16 addr.toNat ++ ['\n']) := by simp [printFrame]
        rw [htext, backtraceFormat, sscanf_space,
          show skipSpace ('\t' :: '0' :: 'x' :: (printNat 16 addr.toNat ++ ['\n']))
            = '0' :: 'x' :: (printNat 16 addr.toNat ++ ['\n']) from rfl, sscanf_lit, sscanf_lit,
          sscanf_conv (scanConv_hexLong_printNat addr (by simp; decide))]
        rfl
      rw [parseBacktrace, if_neg (by simp [printFrame]), scan_eq hscan]
      rfl
    | some name =>
      obtain ⟨hne, hnl, hsp, hlen⟩ := hname name rfl
      have hscan : sscanf w backtraceFormat (printFrame { addr, name := some name })
          = some { values := [.long addr, .text name], eof := false } := by
        have htext : printFrame { addr, name := some name }
            = '\t' :: '0' :: 'x' :: (printNat 16 addr.toNat ++ ' ' :: (name ++ ['\n'])) := by
          simp [printFrame]
        have hskip : skipSpace (' ' :: (name ++ ['\n'])) = name ++ ['\n'] := by
          rw [skipSpace_blank]
          exact skipSpace_of_stops (stops_append hsp fun e => absurd e hne)
        rw [htext, backtraceFormat, sscanf_space,
          show skipSpace ('\t' :: '0' :: 'x' :: (printNat 16 addr.toNat ++ ' ' :: (name ++ ['\n'])))
            = '0' :: 'x' :: (printNat 16 addr.toNat ++ ' ' :: (name ++ ['\n'])) from rfl,
          sscanf_lit, sscanf_lit, sscanf_conv (scanConv_hexLong_printNat addr (by simp; decide)),
          sscanf_space, hskip, sscanf_conv (scanConv_except hne (fun c hc => by
            simp only [List.mem_singleton]; rintro rfl; exact hnl hc) (by simp) hlen)]
        rfl
      rw [parseBacktrace, if_neg (by simp [printFrame]), scan_eq hscan]
      rfl
  rw [spRtraceParserParseRecord, hback]
  rfl

/-- A line with a $ behind its tab goes to the scanner of the arguments. -/
theorem parseRecord_dollar (s : Str) :
    spRtraceParserParseRecord (w := w) recordAll ('\t' :: '$' :: s)
      = (parseArguments w recordAll ('\t' :: '$' :: s)).orElse .arg
        ((parseMemoryMapping recordAll ('\t' :: '$' :: s)).orElse .mmap <|
         (parseContextRegistry recordAll ('\t' :: '$' :: s)).orElse .context <|
         (parseResourceRegistry recordAll ('\t' :: '$' :: s)).orElse .resource <|
         (parseFileAttachment w recordAll ('\t' :: '$' :: s)).orElse .attachment <|
         some .comment) := by
  have hskip : skipSpace ('\t' :: '$' :: s) = '$' :: s := rfl
  have hback : parseBacktrace (w := w) recordAll ('\t' :: '$' :: s) = .fail := by
    have hscan : sscanf w backtraceFormat ('\t' :: '$' :: s)
        = some { values := [], eof := false } := by
      rw [backtraceFormat, sscanf_space, hskip, sscanf_lit_ne (by decide)]
    rw [parseBacktrace, if_neg (by simp), scan_eq hscan]
    rfl
  have hcall : parseFunctionCall (w := w) recordAll ('\t' :: '$' :: s) = .fail := by
    have hscan : sscanf w [.conv .dec, .conv .char] ('\t' :: '$' :: s)
        = some { values := [], eof := false } := by
      rw [sscanf, scanConv, scanNumber, hskip]
      rfl
    rw [parseFunctionCall, scanIndex, scan_eq hscan]
    rfl
  rw [spRtraceParserParseRecord, hback, hcall]
  rfl

theorem printArg_text (name value : Str) : printArg { name, value }
    = '\t' :: '$' :: (name ++ ' ' :: '=' :: ' ' :: (value ++ ['\n'])) := by simp [printArg]

/-- **A printed argument is parsed back.** -/
theorem parseRecord_printArg {arg : Farg}
    (hname : arg.name ≠ [] ∧ arg.name.length < 128 ∧ ∀ c ∈ arg.name, isSpace c = false)
    (hvalue : arg.value ≠ [] ∧ arg.value.length < pathMax ∧ ∀ c ∈ arg.value, isSpace c = false) :
    spRtraceParserParseRecord recordAll (printArg arg) = some (.arg arg : Record w) := by
  obtain ⟨name, value⟩ := arg
  have hscan : sscanf w argumentsFormat
      ('\t' :: '$' :: (name ++ ' ' :: '=' :: ' ' :: (value ++ ['\n'])))
      = some { values := [.text name, .text value], eof := false } := by
    have hval : skipSpace (' ' :: (value ++ ['\n'])) = value ++ ['\n'] := by
      rw [skipSpace_blank]
      refine skipSpace_of_stops (stops_append ?_ fun e => absurd e hvalue.1)
      intro c hc
      exact hvalue.2.2 c (List.mem_of_mem_head? hc)
    rw [argumentsFormat, sscanf_space, show skipSpace ('\t' :: '$' :: _) = '$' :: _ from rfl,
      sscanf_lit, sscanf_conv (scanConv_word hname.1 hname.2.2 (by simp; decide) hname.2.1),
      sscanf_space, skipSpace_blank, skipSpace_cons (by decide), sscanf_lit, sscanf_space, hval,
      sscanf_conv (scanConv_word hvalue.1 hvalue.2.2 (by simp; decide) hvalue.2.1)]
    rfl
  rw [printArg_text, parseRecord_dollar, parseArguments, if_neg (by simp), scan_eq hscan]
  rfl

/-- The parser gets over a printed argument only if its name fits. -/
theorem parseRecord_printArg_fits {arg : Farg} {rec : Record w} (hne : arg.name ≠ [])
    (hplain : ∀ c ∈ arg.name, isSpace c = false)
    (h : spRtraceParserParseRecord recordAll (printArg arg) = some rec) :
    arg.name.length < 128 := by
  obtain ⟨name, value⟩ := arg
  by_contra hlong
  have hscan : sscanf w argumentsFormat
      ('\t' :: '$' :: (name ++ ' ' :: '=' :: ' ' :: (value ++ ['\n']))) = none := by
    rw [argumentsFormat, sscanf_space, show skipSpace ('\t' :: '$' :: _) = '$' :: _ from rfl,
      sscanf_lit,
      sscanf_overflow (scanConv_word_overflow hne hplain (by simp; decide) (not_lt.mp hlong))]
  rw [printArg_text, parseRecord_dollar, parseArguments, if_neg (by simp), scan, hscan] at h
  cases h

/-! ## Lines of the other kinds -/

/-- A line whose first character no earlier scanner accepts gets as far as
the memory mappings. -/
theorem parseRecord_of_head {c : Char} (hspace : isSpace c = false) (hsign : c ≠ '-' ∧ c ≠ '+')
    (hdigit : isDigitOf 10 c = false) (s : Str) :
    spRtraceParserParseRecord (w := w) recordAll (c :: s)
      = ((parseMemoryMapping recordAll (c :: s)).orElse .mmap <|
         (parseContextRegistry recordAll (c :: s)).orElse .context <|
         (parseResourceRegistry recordAll (c :: s)).orElse .resource <|
         (parseFileAttachment w recordAll (c :: s)).orElse .attachment <| some .comment) := by
  have htab : (c :: s).head? ≠ some '\t' := by
    simp only [List.head?_cons, ne_eq, Option.some.injEq]
    rintro rfl
    exact absurd hspace (by decide)
  have hback : parseBacktrace (w := w) recordAll (c :: s) = .fail := if_pos htab
  have harg : parseArguments w recordAll (c :: s) = .fail := if_pos htab
  have hcall : parseFunctionCall (w := w) recordAll (c :: s) = .fail := by
    have hscan : sscanf w [.conv .dec, .conv .char] (c :: s)
        = some { values := [], eof := false } := by
      have hsign' : scanSign (c :: s) = (false, c :: s) := by
        unfold scanSign
        split <;> simp_all
      have hdec : scanConv (w := w) .dec (c :: s) = .mismatch := by
        rw [scanConv, scanNumber, skipSpace_cons hspace]
        simp only [hsign', id, scanDigits, List.takeWhile_cons, hdigit]
        rfl
      rw [sscanf, hdec]
    rw [parseFunctionCall, scanIndex, scan_eq hscan]
    rfl
  rw [spRtraceParserParseRecord, hback, hcall, harg]
  rfl

/-- The scanners from there on begin with a character of their own. -/
theorem parseMemoryMapping_ne {c : Char} (h : ':' ≠ c) (s : Str) :
    parseMemoryMapping (w := w) recordAll (c :: s) = .fail := by
  rw [parseMemoryMapping, mmapFormat, scan_eq (sscanf_lit_ne h _ _)]
  rfl

theorem parseContextRegistry_ne {c : Char} (h : '@' ≠ c) (s : Str) :
    parseContextRegistry (w := w) recordAll (c :: s) = .fail := by
  rw [parseContextRegistry, contextFormat, scan_eq (sscanf_lit_ne h _ _)]
  rfl

theorem parseResourceRegistry_ne {c : Char} (h : '<' ≠ c) (s : Str) :
    parseResourceRegistry (w := w) recordAll (c :: s) = .fail := by
  rw [parseResourceRegistry, resourceFormat, scan_eq (sscanf_lit_ne h _ _)]
  rfl

theorem parseFileAttachment_ne {c : Char} (h : '&' ≠ c) (s : Str) :
    parseFileAttachment w recordAll (c :: s) = .fail := by
  rw [parseFileAttachment, attachmentFormat, scan_eq (sscanf_lit_ne h _ _)]
  rfl

/-- A line that starts with # is a comment. -/
theorem parseRecord_hash (s : Str) :
    spRtraceParserParseRecord (w := w) recordAll ('#' :: s) = some .comment := by
  rw [parseRecord_of_head (by decide) (by decide) (by decide),
    parseMemoryMapping_ne (by decide), parseContextRegistry_ne (by decide),
    parseResourceRegistry_ne (by decide), parseFileAttachment_ne (by decide)]
  rfl

/-- So is the empty line, for the parser. -/
theorem parseRecord_blank :
    spRtraceParserParseRecord (w := w) recordAll ['\n'] = some .comment := rfl

/-- **A printed context is parsed back** without the blanks in front of its
name; a blank name makes the line a comment. -/
theorem parseRecord_printContext (hw : 32 ≤ w) {context : Context w} (hnl : '\n' ∉ context.name) :
    spRtraceParserParseRecord recordAll (spRtracePrintContext context)
      = if skipSpace context.name = [] then some .comment
        else if (skipSpace context.name).length < 512 then
          some (.context { id := (context.id.setWidth 32).setWidth w,
                           name := skipSpace context.name })
        else none := by
  set id := context.id.setWidth 32 with hid
  have htext : spRtracePrintContext context
      = '@' :: ' ' :: (printNat 16 id.toNat ++ ' ' :: ':' :: ' ' :: (context.name ++ ['\n'])) := by
    simp [spRtracePrintContext, hid]
  obtain ⟨c, ds, hds⟩ : ∃ c ds, printNat 16 id.toNat = c :: ds :=
    List.exists_cons_of_ne_nil (printNat_ne_nil _ _)
  have hc := (digit_plain (isDigitOf_of_mem_printNat (by decide) (le_refl 16) id.toNat c
    (by simp [hds]))).1
  have hskip : skipSpace (' ' :: (printNat 16 id.toNat ++ ' ' :: ':' :: ' ' ::
      (context.name ++ ['\n']))) = printNat 16 id.toNat ++ ' ' :: ':' :: ' ' ::
      (context.name ++ ['\n']) := by
    rw [skipSpace_blank, hds]
    exact skipSpace_cons hc _
  have hfront : sscanf w contextFormat (spRtracePrintContext context)
      = (sscanf w [.conv (.except ['\n'] 512)] (skipSpace (context.name ++ ['\n']))).map fun r =>
          { r with values := .int id :: r.values } := by
    rw [htext, contextFormat, sscanf_lit, sscanf_space, hskip,
      sscanf_conv (scanConv_hex_printNat hw id (by simp; decide)), sscanf_space, skipSpace_blank,
      skipSpace_cons (by decide), sscanf_lit, sscanf_space, skipSpace_blank]
  -- no scanner but that of the contexts takes the line
  have hline : spRtraceParserParseRecord recordAll (spRtracePrintContext context)
      = (parseContextRegistry (w := w) recordAll (spRtracePrintContext context)).orElse .context
          (some .comment) := by
    rw [htext, parseRecord_of_head (by decide) (by decide) (by decide),
      parseMemoryMapping_ne (by decide), parseResourceRegistry_ne (by decide),
      parseFileAttachment_ne (by decide)]
    rfl
  rw [hline]
  rw [skipSpace_append] at hfront
  by_cases hblank : skipSpace context.name = []
  · rw [if_pos hblank] at hfront ⊢
    rw [parseContextRegistry, scan_eq hfront]
    rfl
  · rw [if_neg hblank] at hfront ⊢
    have hno : ∀ c ∈ skipSpace context.name, c ∉ ['\n'] := by
      intro c hc
      simp only [List.mem_singleton]
      rintro rfl
      exact hnl ((List.dropWhile_suffix _).subset hc)
    by_cases hshort : (skipSpace context.name).length < 512
    · rw [sscanf_conv (scanConv_except hblank hno (by simp) hshort)] at hfront
      rw [if_pos hshort, parseContextRegistry, scan_eq hfront]
      rfl
    · rw [sscanf_overflow (scanConv_except_overflow hblank hno (by simp) (not_lt.mp hshort))]
        at hfront
      rw [if_neg hshort, parseContextRegistry, scan, hfront]
      rfl

/-- The name is kept if it does not start with a blank. -/
theorem parseRecord_printContext_name (hw : 32 ≤ w) {context : Context w}
    (hne : context.name ≠ []) (hnl : '\n' ∉ context.name) (hhead : Stops isSpace context.name)
    (hshort : context.name.length < 512) :
    spRtraceParserParseRecord recordAll (spRtracePrintContext context)
      = some (.context { context with id := (context.id.setWidth 32).setWidth w }) := by
  rw [parseRecord_printContext hw hnl, skipSpace_of_stops hhead, if_neg hne, if_pos hshort]

/-! ## Registry records -/

/-- A word that %s reads as a whole. -/
structure ScannableWord (size : Nat) (s : Str) : Prop where
  ne : s ≠ []
  plain : ∀ c ∈ s, isSpace c = false
  short : s.length < size

theorem ScannableWord.stops {size : Nat} {s : Str} (h : ScannableWord size s) : Stops isSpace s :=
  fun c hc => h.plain c (List.mem_of_mem_head? hc)

/-- A blank in front of a word is skipped. -/
theorem ScannableWord.skip {size : Nat} {s : Str} (h : ScannableWord size s) (t : Str) :
    skipSpace (' ' :: (s ++ t)) = s ++ t := by
  rw [skipSpace_blank]
  exact skipSpace_of_stops (stops_append h.stops fun e => absurd e h.ne)

/-- The format of a mapping record reads a printed one. -/
theorem sscanf_printMmap {mmap : Mmap w} (h : ScannableWord pathMax mmap.moduleName) :
    sscanf w mmapFormat (spRtracePrintMmap mmap)
      = some { values := [.text mmap.moduleName, .long mmap.fromAddr, .long mmap.toAddr],
               eof := false } := by
  have htext : spRtracePrintMmap mmap
      = ':' :: ' ' :: (mmap.moduleName ++ ' ' :: '=' :: '>' :: ' ' :: '0' :: 'x' ::
          (printNat 16 mmap.fromAddr.toNat ++ '-' :: '0' :: 'x' ::
          (printNat 16 mmap.toAddr.toNat ++ ['\n']))) := by
    simp [spRtracePrintMmap]
  rw [htext, mmapFormat, sscanf_lit, sscanf_space, h.skip,
    sscanf_conv (scanConv_word h.ne h.plain (by simp; decide) h.short), sscanf_space,
    skipSpace_blank, skipSpace_cons (by decide), sscanf_lit, sscanf_lit, sscanf_space,
    skipSpace_blank, skipSpace_cons (by decide), sscanf_lit, sscanf_lit,
    sscanf_conv (scanConv_hexLong_printNat mmap.fromAddr (by simp; decide)), sscanf_lit,
    sscanf_lit, sscanf_lit, sscanf_conv (scanConv_hexLong_printNat mmap.toAddr (by simp; decide))]
  rfl

/-- **A printed mapping is parsed back.** -/
theorem parseRecord_printMmap {mmap : Mmap w} (h : ScannableWord pathMax mmap.moduleName) :
    spRtraceParserParseRecord recordAll (spRtracePrintMmap mmap) = some (.mmap mmap) := by
  have hparse : parseMemoryMapping recordAll (spRtracePrintMmap mmap) = .ok mmap := by
    rw [parseMemoryMapping, scan_eq (sscanf_printMmap h)]
    rfl
  have hhead : spRtracePrintMmap mmap = ':' :: (spRtracePrintMmap mmap).tail := rfl
  rw [hhead] at hparse ⊢
  rw [parseRecord_of_head (by decide) (by decide) (by decide), hparse]
  rfl

/-- **A printed attachment is parsed back.** -/
theorem parseRecord_printAttachment_word {file : Attachment} (hn : ScannableWord 512 file.name)
    (hp : ScannableWord pathMax file.path) :
    spRtraceParserParseRecord recordAll (spRtracePrintAttachment file)
      = some (.attachment file : Record w) := by
  obtain ⟨name, path⟩ := file
  have htext : spRtracePrintAttachment { name, path }
      = '&' :: ' ' :: (name ++ ' ' :: ':' :: ' ' :: (path ++ ['\n'])) := by
    simp [spRtracePrintAttachment]
  have hscan : sscanf w attachmentFormat (spRtracePrintAttachment { name, path })
      = some { values := [.text name, .text path], eof := false } := by
    rw [htext, attachmentFormat, sscanf_lit, sscanf_space, hn.skip,
      sscanf_conv (scanConv_word hn.ne hn.plain (by simp; decide) hn.short), sscanf_space,
      skipSpace_blank, skipSpace_cons (by decide), sscanf_lit, sscanf_space, hp.skip,
      sscanf_conv (scanConv_word hp.ne hp.plain (by simp; decide) hp.short)]
    rfl
  have hparse : parseFileAttachment w recordAll (spRtracePrintAttachment { name, path })
      = .ok { name, path } := by
    rw [parseFileAttachment, scan_eq hscan]
    rfl
  rw [htext] at hparse ⊢
  rw [parseRecord_of_head (by decide) (by decide) (by decide), parseMemoryMapping_ne (by decide),
    parseContextRegistry_ne (by decide), parseResourceRegistry_ne (by decide), hparse]
  rfl

/-- The parser gets over a printed attachment only if its name fits. -/
theorem parseRecord_printAttachment_fits {file : Attachment} {rec : Record w}
    (hne : file.name ≠ []) (hplain : ∀ c ∈ file.name, isSpace c = false)
    (h : spRtraceParserParseRecord recordAll (spRtracePrintAttachment file) = some rec) :
    file.name.length < 512 := by
  obtain ⟨name, path⟩ := file
  have htext : spRtracePrintAttachment { name, path }
      = '&' :: ' ' :: (name ++ ' ' :: ':' :: ' ' :: (path ++ ['\n'])) := by
    simp [spRtracePrintAttachment]
  by_contra hlong
  have hskip : skipSpace (' ' :: (name ++ ' ' :: ':' :: ' ' :: (path ++ ['\n'])))
      = name ++ ' ' :: ':' :: ' ' :: (path ++ ['\n']) := by
    rw [skipSpace_blank]
    exact skipSpace_of_stops (stops_append
      (fun c hc => hplain c (List.mem_of_mem_head? hc)) fun e => absurd e hne)
  have hscan : sscanf w attachmentFormat
      ('&' :: ' ' :: (name ++ ' ' :: ':' :: ' ' :: (path ++ ['\n']))) = none := by
    rw [attachmentFormat, sscanf_lit, sscanf_space, hskip,
      sscanf_overflow (scanConv_word_overflow hne hplain (by simp; decide) (not_lt.mp hlong))]
  rw [htext, parseRecord_of_head (by decide) (by decide) (by decide),
    parseMemoryMapping_ne (by decide), parseContextRegistry_ne (by decide),
    parseResourceRegistry_ne (by decide), parseFileAttachment, scan, hscan] at h
  cases h

theorem ffs_shift {k : Nat} (h : k < 32) : ffs ((1 : BitVec 32) <<< k) = k + 1 := by
  interval_cases k <;> decide

/-- What a resource line has to keep to be read as one. -/
structure ScannableResource (resource : Resource w) : Prop where
  type_ne : resource.type ≠ []
  type_blank : ' ' ∉ resource.type
  type_head : Stops isSpace resource.type
  type_short : resource.type.length < 512
  desc_ne : resource.desc ≠ []
  desc_head : Stops (· = ')') resource.desc
  desc_short : resource.desc.length < 512

/-- The part of a resource line behind its description. -/
def printResourceFlags (flags : BitVec 32) : Str :=
  if flags = 0 then [] else ' ' :: '[' :: refcountText ++ [']']

theorem printResourceFlags_length (flags : BitVec 32) : (printResourceFlags flags).length ≤ 11 := by
  unfold printResourceFlags
  split
  · simp
  · decide

/-- The line of a resource. -/
theorem spRtracePrintResource_text {resource : Resource w} {line : Str}
    (hprint : spRtracePrintResource resource = some line) :
    ∃ bit : BitVec 32, ffs bit = (resource.id.setWidth 32).toInt.toNat ∧
      line = '<' :: (printNat 16 bit.toNat ++ '>' :: ' ' :: ':' :: ' ' :: (resource.type
        ++ ' ' :: '(' :: (resource.desc ++ ')' ::
          (printResourceFlags resource.flags ++ ['\n'])))) := by
  set id := (resource.id.setWidth 32).toInt with hid
  simp only [spRtracePrintResource, ← hid, Option.ite_none_right_eq_some, buffered] at hprint
  obtain ⟨⟨hid1, hid2⟩, -, hprint⟩ := hprint
  refine ⟨(1 : BitVec 32) <<< (id - 1).toNat, ?_, ?_⟩
  · rw [ffs_shift (by omega)]
    omega
  · rw [← Option.some.inj hprint, printResourceFlags]
    simp

/-- The flags of a resource without a parenthesis in its description. -/
theorem sscanf_resourceFlags (flags : BitVec 32) :
    ∃ r, sscanf w [.lit ')', .space, .lit '[', .conv (.except [']'] 1024), .lit ']']
        (')' :: (printResourceFlags flags ++ ['\n'])) = some r ∧
      r.values = if flags = 0 then [] else [.text refcountText] := by
  unfold printResourceFlags
  split
  · exact ⟨_, rfl, rfl⟩
  · have htext : ' ' :: '[' :: refcountText ++ [']'] ++ ['\n']
        = ' ' :: '[' :: (refcountText ++ [']', '\n']) := by simp
    refine ⟨{ values := [.text refcountText], eof := false }, ?_, rfl⟩
    have hrun : ∀ c ∈ refcountText, c ∉ [']'] := List.all_iff_forall_prop.mp (by decide)
    rw [htext, sscanf_lit, sscanf_space, skipSpace_blank, skipSpace_cons (by decide), sscanf_lit,
      sscanf_conv (scanConv_except (by decide) hrun (by simp) (by decide)), sscanf_lit]
    rfl

/-- **A printed resource is parsed back with its type**, and wholly if its
description has no parenthesis. -/
theorem parseRecord_printResource (hw : 32 ≤ w) {resource : Resource w} {line : Str}
    (hprint : spRtracePrintResource resource = some line) (h : ScannableResource resource) :
    ∃ r, spRtraceParserParseRecord recordAll line = some (.resource r) ∧ r.type = resource.type ∧
      (')' ∉ resource.desc → r =
        { id := BitVec.ofNat w (resource.id.setWidth 32).toInt.toNat, type := resource.type,
          desc := resource.desc, flags := if resource.flags = 0 then 0 else resourceRefcount,
          hide := false }) := by
  obtain ⟨bit, hffs, hline⟩ := spRtracePrintResource_text hprint
  -- the description is read up to its first parenthesis, or up to the one behind it
  set front := resource.desc.takeWhile (· ≠ ')') with hfront
  set back := resource.desc.dropWhile (· ≠ ')') ++ ')' ::
    (printResourceFlags resource.flags ++ ['\n']) with hback
  have hdesc : resource.desc ++ ')' :: (printResourceFlags resource.flags ++ ['\n'])
      = front ++ back := by
    rw [hback, ← List.append_assoc, hfront, List.takeWhile_append_dropWhile]
  have htext : line = '<' :: (printNat 16 bit.toNat ++ '>' :: ' ' :: ':' :: ' ' ::
      (resource.type ++ ' ' :: '(' :: (front ++ back))) := by
    rw [← hdesc, hline]
  have hfront_ne : front ≠ [] := by
    rw [hfront]
    obtain ⟨c, t, hct⟩ := List.exists_cons_of_ne_nil h.desc_ne
    have := h.desc_head
    rw [hct] at this ⊢
    rw [List.takeWhile_cons_of_pos (by simpa using this)]
    simp
  have hfront_short : front.length < 512 :=
    lt_of_le_of_lt (List.takeWhile_sublist _).length_le h.desc_short
  have hfront_no : ∀ c ∈ front, c ∉ [')'] := by
    intro c hc
    have := List.mem_takeWhile_imp hc
    simpa using this
  obtain ⟨rest, hrest⟩ : ∃ rest, back = ')' :: rest := by
    rw [hback]
    cases hd : resource.desc.dropWhile (· ≠ ')') with
    | nil => exact ⟨_, rfl⟩
    | cons c t =>
      have := List.head?_dropWhile_not (· ≠ ')') resource.desc
      rw [hd] at this
      obtain rfl : c = ')' := by simpa using this
      exact ⟨_, rfl⟩
  obtain ⟨r, hr⟩ : ∃ r, sscanf w [.lit ')', .space, .lit '[', .conv (.except [']'] 1024), .lit ']']
      back = some r := by
    apply sscanf_fits
    intro k hk n hn
    simp only [List.mem_cons, Directive.conv.injEq, reduceCtorEq, false_or, List.not_mem_nil,
      or_false] at hk
    obtain rfl : 1024 = n := by simpa [hk, Conv.bufferSize] using hn
    have h1 := h.desc_short
    have h2 := (List.dropWhile_sublist (l := resource.desc) (· ≠ ')')).length_le
    have h3 := printResourceFlags_length resource.flags
    rw [hback]
    simp only [List.length_append, List.length_cons, List.length_nil]
    omega
  have hscan : sscanf w resourceFormat line = some
      { r with values := .int bit :: .text resource.type :: .text front :: r.values } := by
    have hback' : Stops (· ∉ [')']) back := by rw [hrest]; simp
    have htype : skipSpace (' ' :: (resource.type ++ ' ' :: '(' :: (front ++ back)))
        = resource.type ++ ' ' :: '(' :: (front ++ back) := by
      rw [skipSpace_blank]
      exact skipSpace_of_stops (stops_append h.type_head fun e => absurd e h.type_ne)
    rw [htext, resourceFormat, sscanf_lit,
      sscanf_conv (scanConv_hex_printNat hw bit (by simp; decide)), sscanf_lit, sscanf_space,
      skipSpace_blank, skipSpace_cons (by decide), sscanf_lit, sscanf_space, htype,
      sscanf_conv (scanConv_except h.type_ne (fun c hc => by
        simp only [List.mem_singleton]
        rintro rfl
        exact h.type_blank hc) (by simp) h.type_short),
      sscanf_space, skipSpace_blank, skipSpace_cons (by decide), sscanf_lit,
      sscanf_conv (scanConv_except hfront_ne hfront_no hback' hfront_short), hr]
    rfl
  obtain ⟨flags, hparse, hflags⟩ : ∃ flags,
      parseResourceRegistry recordAll line = .ok
        ({ id := BitVec.ofNat w (ffs bit), type := resource.type, desc := front, flags,
           hide := false } : Resource w) ∧
      ((r.values = [] → flags = 0) ∧
        ∀ text, r.values = [.text text] → flags = parseResourceFlags text) := by
    rw [parseResourceRegistry, scan_eq hscan]
    exact ⟨_, rfl, fun hnil => by rw [hnil], fun text htext => by rw [htext]⟩
  refine ⟨{ id := BitVec.ofNat w (ffs bit), type := resource.type, desc := front, flags,
            hide := false }, ?_, rfl, fun hno => ?_⟩
  · rw [htext] at hparse ⊢
    rw [parseRecord_of_head (by decide) (by decide) (by decide), parseMemoryMapping_ne (by decide),
      parseContextRegistry_ne (by decide), hparse]
    rfl
  · have hall : ∀ c ∈ resource.desc, (decide (c ≠ ')')) = true := by
      intro c hc
      simp only [decide_eq_true_eq]
      rintro rfl
      exact hno hc
    have hfront' : front = resource.desc := List.takeWhile_eq_self_iff.mpr hall
    have hback' : back = ')' :: (printResourceFlags resource.flags ++ ['\n']) := by
      rw [hback, List.dropWhile_eq_nil_iff.mpr hall, List.nil_append]
    obtain ⟨r', hr', hv⟩ := sscanf_resourceFlags (w := w) resource.flags
    rw [hback', hr', Option.some.injEq] at hr
    rw [← hr] at hflags
    rw [hffs, hfront']
    by_cases h0 : resource.flags = 0
    · rw [if_pos h0] at hv
      rw [if_pos h0, hflags.1 hv]
    · rw [if_neg h0] at hv
      rw [if_neg h0, hflags.2 _ hv]
      rfl

/-- The parser gets over a printed resource only if its strings fit. -/
theorem parseRecord_printResource_fits (hw : 32 ≤ w) {resource : Resource w} {line : Str}
    {rec : Record w} (hprint : spRtracePrintResource resource = some line)
    (hne : resource.type ≠ []) (hplain : ∀ c ∈ resource.type, isSpace c = false)
    (hdesc : resource.desc ≠ []) (hno : ')' ∉ resource.desc)
    (h : spRtraceParserParseRecord recordAll line = some rec) :
    resource.type.length < 512 ∧ resource.desc.length < 512 := by
  obtain ⟨bit, -, htext⟩ := spRtracePrintResource_text hprint
  set rest := resource.desc ++ ')' :: (printResourceFlags resource.flags ++ ['\n']) with hrest
  have hblank : ∀ c ∈ resource.type, c ∉ [' '] := by
    intro c hc
    simp only [List.mem_singleton]
    rintro rfl
    exact absurd (hplain _ hc) (by decide)
  have hskip : skipSpace (' ' :: (resource.type ++ ' ' :: '(' :: rest))
      = resource.type ++ ' ' :: '(' :: rest := by
    rw [skipSpace_blank]
    exact skipSpace_of_stops (stops_append
      (fun c hc => hplain c (List.mem_of_mem_head? hc)) fun e => absurd e hne)
  have hscan : sscanf w resourceFormat line ≠ none := by
    intro hnone
    rw [htext, parseRecord_of_head (by decide) (by decide) (by decide),
      parseMemoryMapping_ne (by decide), parseContextRegistry_ne (by decide), ← htext,
      parseResourceRegistry, scan, hnone] at h
    cases h
  have hfront : sscanf w resourceFormat line
      = (sscanf w (resourceFormat.drop 6) (resource.type ++ ' ' :: '(' :: rest)).map fun r =>
          { r with values := .int bit :: r.values } := by
    rw [htext, resourceFormat, sscanf_lit,
      sscanf_conv (scanConv_hex_printNat hw bit (by simp; decide)), sscanf_lit, sscanf_space,
      skipSpace_blank, skipSpace_cons (by decide), sscanf_lit, sscanf_space, hskip]
    rfl
  rw [hfront, resourceFormat] at hscan
  simp only [List.drop_succ_cons, List.drop_zero] at hscan
  have htype : resource.type.length < 512 := by
    by_contra hlong
    rw [sscanf_overflow (scanConv_except_overflow hne hblank (by simp) (not_lt.mp hlong))] at hscan
    exact hscan rfl
  refine ⟨htype, ?_⟩
  by_contra hlong
  rw [sscanf_conv (scanConv_except hne hblank (by simp) htype), sscanf_space, skipSpace_blank,
    skipSpace_cons (by decide), sscanf_lit, hrest,
    sscanf_overflow (scanConv_except_overflow hdesc (by
      intro c hc
      simp only [List.mem_singleton]
      rintro rfl
      exact hno hc) (by simp) (not_lt.mp hlong))] at hscan
  exact hscan rfl

end SpRtrace.Library
