/-
SpRtrace.Library.HeaderTheorems — the header line, printed and parsed.

The parser of the header looks for `key=value` from wherever the last
comma left it. `parseHeaderLoop_fields` is the round trip for values that
the format can hold, non-empty and without commas.
-/
import Mathlib
import SpRtrace.Library.RecordTheorems

namespace SpRtrace.Library

open SpRtrace.Lib SpRtrace.Common

variable {w : Nat}

/-- `"%[^=]=%[^,]"`. -/
def headerFormat : List Directive :=
  [.conv (.except ['='] 256), .lit '=', .conv (.except [','] pathMax)]

/-! ## The round trip -/

/-- A value the header can hold. -/
structure HeaderWord (value : Str) : Prop where
  ne : value ≠ []
  no_comma : ',' ∉ value
  short : value.length < pathMax

theorem HeaderField.find_name (i : HeaderField) :
    HeaderField.all.find? (fun j => j.name = i.name) = some i := by
  cases i <;> decide

theorem HeaderField.name_shape (i : HeaderField) :
    i.name ≠ [] ∧ '=' ∉ i.name ∧ ',' ∉ i.name ∧ i.name.length < 256 ∧ Stops (· = ' ') i.name := by
  cases i <;> exact ⟨by decide, by decide, by decide, by decide, by decide +kernel⟩

/-- The key of a field is read up to its =. -/
theorem scanHeaderKey (i : HeaderField) (fmt : List Directive) (s : Str) :
    sscanf w (.conv (.except ['='] 256) :: .lit '=' :: fmt) (i.name ++ '=' :: s)
      = (sscanf w fmt s).map fun r => { r with values := .text i.name :: r.values } := by
  obtain ⟨hne, heq, -, hshort, -⟩ := i.name_shape
  have hkey : ∀ c ∈ i.name, c ∉ ['='] := by
    intro c hc
    simp only [List.mem_singleton]
    rintro rfl
    exact heq hc
  rw [sscanf_conv (scanConv_except hne hkey (by simp) hshort), sscanf_lit]

def printHeaderFields (fields : List (HeaderField × Str)) : Str :=
  fields.flatMap fun f => printHeaderField f.1 f.2

theorem printHeaderFields_stops (fields : List (HeaderField × Str)) {tail : Str}
    (htail : Stops (· = ' ') tail) : Stops (· = ' ') (printHeaderFields fields ++ tail) := by
  cases fields with
  | nil => exact htail
  | cons f fields =>
    obtain ⟨hne, -, -, -, hstop⟩ := f.1.name_shape
    simp only [printHeaderFields, List.flatMap_cons, printHeaderField, List.append_assoc]
    exact stops_append hstop fun e => absurd e hne

/-- The fields of a header, set one after the other. -/
def setFields (fields : List (HeaderField × Str)) (header : Header) : Header :=
  fields.foldl (fun h f => Function.update h f.1 (some f.2)) header

/-- **Printed header fields are parsed back one after the other.** -/
theorem parseHeaderLoop_fields {tail : Str} (htail : Stops (· = ' ') tail) :
    ∀ (fields : List (HeaderField × Str)) (fuel : Nat) (header : Header),
      (∀ f ∈ fields, HeaderWord f.2) →
      parseHeaderLoop w (fields.length + fuel) (printHeaderFields fields ++ tail) header
        = parseHeaderLoop w fuel tail (setFields fields header)
  | [], fuel, header, _ => by simp [printHeaderFields, setFields]
  | (i, value) :: fields, fuel, header, hfields => by
      have hv := hfields (i, value) (by simp)
      obtain ⟨hne, heq, hcomma, hshort, -⟩ := i.name_shape
      set rest := printHeaderFields fields ++ tail with hrest
      have htext : printHeaderFields ((i, value) :: fields) ++ tail
          = i.name ++ '=' :: (value ++ ',' :: ' ' :: rest) := by
        simp [printHeaderFields, printHeaderField, hrest]
      have hscan : sscanf w headerFormat (i.name ++ '=' :: (value ++ ',' :: ' ' :: rest))
          = some { values := [.text i.name, .text value], eof := false } := by
        have hval : ∀ c ∈ value, c ∉ [','] := by
          intro c hc
          simp only [List.mem_singleton]
          rintro rfl
          exact hv.no_comma hc
        rw [headerFormat, scanHeaderKey i, sscanf_conv (scanConv_except hv.ne hval (by simp) hv.short)]
        rfl
      have hnext : strchr (i.name ++ '=' :: (value ++ ',' :: ' ' :: rest)) ','
          = some (',' :: ' ' :: rest) := by
        have hno : ',' ∉ i.name ++ '=' :: value := by simp [hcomma, hv.no_comma]
        simpa using strchr_append hno (' ' :: rest)
      have hskip : (' ' :: rest).dropWhile (· = ' ') = rest := by
        rw [List.dropWhile_cons_of_pos (by simp)]
        exact dropWhile_of_stops (printHeaderFields_stops fields htail)
      have hfuel : ((i, value) :: fields).length + fuel = (fields.length + fuel) + 1 := by
        simp only [List.length_cons]
        omega
      rw [headerFormat] at hscan
      rw [htext, hfuel, parseHeaderLoop, hscan]
      simp only [Option.bind_eq_bind, Option.bind_some, HeaderField.find_name, hnext,
        List.tail_cons, hskip]
      exact parseHeaderLoop_fields htail fields fuel _ (fun f hf => hfields f (by simp [hf]))

/-! ## A whole header -/

/-- The fields that have a value, in the order in which they are printed. -/
def fieldsWith (value : HeaderField → Option Str) (list : List HeaderField) :
    List (HeaderField × Str) := list.filterMap fun i => (value i).map fun v => (i, v)

theorem printHeaderFields_with (value : HeaderField → Option Str) (list : List HeaderField) :
    printHeaderFields (fieldsWith value list)
      = list.flatMap fun i => ((value i).map (printHeaderField i)).getD [] := by
  induction list with
  | nil => rfl
  | cons i list ih =>
    cases hv : value i with
    | none => simpa [fieldsWith, hv] using ih
    | some v => simpa [fieldsWith, hv, printHeaderFields] using ih

theorem mem_fieldsWith {value : HeaderField → Option Str} {list : List HeaderField}
    {f : HeaderField × Str} : f ∈ fieldsWith value list ↔ f.1 ∈ list ∧ value f.1 = some f.2 := by
  obtain ⟨i, v⟩ := f
  simp only [fieldsWith, List.mem_filterMap, Option.map_eq_some_iff, Prod.mk.injEq]
  constructor
  · rintro ⟨j, hj, v', hv, rfl, rfl⟩
    exact ⟨hj, hv⟩
  · rintro ⟨hi, hv⟩
    exact ⟨i, hi, v, hv, rfl, rfl⟩

/-- Each field is set to its value. -/
theorem setFields_with (value : HeaderField → Option Str) :
    ∀ {list : List HeaderField}, list.Nodup → ∀ (header : Header) (j : HeaderField),
      setFields (fieldsWith value list) header j
        = if j ∈ list then (value j).or (header j) else header j
  | [], _, header, j => by simp [fieldsWith, setFields]
  | i :: list, hnd, header, j => by
      obtain ⟨hi, hrest⟩ := List.nodup_cons.mp hnd
      cases hv : value i with
      | none =>
        have ih := setFields_with value hrest header j
        rw [show fieldsWith value (i :: list) = fieldsWith value list by simp [fieldsWith, hv], ih]
        by_cases hj : j = i
        · subst hj
          simp [hi, hv]
        · simp [hj]
      | some v =>
        have ih := setFields_with value hrest (Function.update header i (some v)) j
        rw [show setFields (fieldsWith value (i :: list)) header
          = setFields (fieldsWith value list) (Function.update header i (some v)) by
            simp [fieldsWith, hv, setFields], ih]
        by_cases hj : j = i
        · subst hj
          simp [hi, hv]
        · simp [hj]

theorem fields_length (fields : List (HeaderField × Str)) :
    fields.length ≤ (printHeaderFields fields).length := by
  induction fields with
  | nil => simp
  | cons f fields ih =>
    simp only [printHeaderFields, List.flatMap_cons, List.length_append, List.length_cons,
      printHeaderField] at ih ⊢
    omega

/-- What is parsed of a header whose first fields have values. -/
theorem parseHeader_fields {fields : List (HeaderField × Str)} {tail : Str}
    (htail : Stops (· = ' ') tail) (hfields : ∀ f ∈ fields, HeaderWord f.2) :
    ∃ fuel, spRtraceParserParseHeader w (printHeaderFields fields ++ tail)
      = parseHeaderLoop w (fuel + 1) tail (setFields fields fun _ => none) := by
  have hlen := fields_length fields
  refine ⟨(printHeaderFields fields ++ tail).length - fields.length, ?_⟩
  rw [spRtraceParserParseHeader, ← parseHeaderLoop_fields htail fields _ _ hfields]
  congr 1
  simp only [List.length_append]
  omega

/-- Values without commas; the time is that of `localtime`. -/
structure HeaderValues (now : Str) (header : Header) : Prop where
  no_comma : ∀ i, ∀ v ∈ header i, ',' ∉ v
  now_ne : now ≠ []
  now_no_comma : ',' ∉ now

/-- What is parsed has the fields of the header, the version of the library
and a time. -/
structure HeaderReadBack (now : Str) (header parsed : Header) : Prop where
  version : parsed .version = some protoVersionText
  timestamp : parsed .timestamp = some ((header .timestamp).getD now)
  others : ∀ i, i ≠ .version → i ≠ .timestamp → parsed i = header i

theorem headerReadBack_iff {now : Str} {header parsed : Header} :
    HeaderReadBack now header parsed ↔ parsed = headerValue now header := by
  constructor
  · intro h
    funext i
    cases i with
    | version => exact h.version
    | timestamp => exact h.timestamp
    | _ => exact h.others _ (by simp) (by simp)
  · rintro rfl
    exact ⟨rfl, rfl, fun i hv ht => by cases i <;> simp [headerValue] at hv ht ⊢⟩

theorem headerValue_no_comma {now : Str} {header : Header} (h : HeaderValues now header)
    (i : HeaderField) : ∀ v ∈ headerValue now header i, ',' ∉ v := by
  intro v hv
  cases i with
  | version =>
    obtain rfl := Option.some.inj hv
    decide
  | timestamp =>
    obtain rfl := Option.some.inj hv
    cases ht : header .timestamp with
    | none => exact h.now_no_comma
    | some t => exact h.no_comma .timestamp t ht
  | _ => exact h.no_comma _ v hv

theorem headerValue_ne {now : Str} {header : Header} (h : HeaderValues now header)
    (hne : ∀ i, i ≠ .version → header i ≠ some []) (i : HeaderField) :
    headerValue now header i ≠ some [] := by
  cases i with
  | version => exact fun he => absurd (Option.some.inj he) (by decide)
  | timestamp =>
    intro he
    cases ht : header .timestamp with
    | none =>
      rw [headerValue, ht] at he
      exact h.now_ne (Option.some.inj he)
    | some t =>
      rw [headerValue, ht] at he
      exact hne .timestamp (by simp) (by rw [ht]; exact he)
  | _ => exact hne _ (by simp)

/-- Where a value is missing between = and the comma nothing more is read. -/
theorem parseHeaderLoop_empty (i : HeaderField) (rest : Str) (fuel : Nat) (header : Header) :
    parseHeaderLoop w (fuel + 1) (printHeaderField i [] ++ rest) header = some header := by
  have htext : printHeaderField i [] ++ rest = i.name ++ '=' :: (',' :: ' ' :: rest) := by
    simp [printHeaderField]
  have hscan : sscanf w headerFormat (printHeaderField i [] ++ rest)
      = some { values := [.text i.name], eof := false } := by
    rw [htext, headerFormat, scanHeaderKey i]
    rfl
  rw [headerFormat] at hscan
  rw [parseHeaderLoop, hscan]
  rfl

/-- The fields of a printed header, and their values. -/
theorem spRtracePrintHeader_text {now : Str} {header : Header} {line : Str}
    (hprint : spRtracePrintHeader now header = some line) :
    line = printHeaderFields (fieldsWith (headerValue now header) HeaderField.all) ++ ['\n'] ∧
      line.length ≤ pathMax - 1 := by
  simp only [spRtracePrintHeader, buffered, Option.ite_none_right_eq_some, Option.some.injEq]
    at hprint
  obtain ⟨hlen, rfl⟩ := hprint
  exact ⟨by rw [printHeaderFields_with], hlen⟩

theorem HeaderField.mem_all (i : HeaderField) : i ∈ HeaderField.all := by
  cases i <;> decide

/-- A value of a printed header is shorter than the line. -/
theorem headerValue_short {now : Str} {header : Header} {line : Str}
    (hprint : spRtracePrintHeader now header = some line) {i : HeaderField} {v : Str}
    (hv : headerValue now header i = some v) : v.length < pathMax := by
  obtain ⟨rfl, hlen⟩ := spRtracePrintHeader_text hprint
  have hmem : (i, v) ∈ fieldsWith (headerValue now header) HeaderField.all :=
    mem_fieldsWith.mpr ⟨i.mem_all, hv⟩
  have hsub : (printHeaderField i v).length
      ≤ (printHeaderFields (fieldsWith (headerValue now header) HeaderField.all)).length := by
    rw [printHeaderFields, List.flatMap_def]
    exact List.Sublist.length_le (List.sublist_flatten_of_mem (List.mem_map_of_mem hmem))
  simp only [printHeaderField, pathMax, List.length_append, List.length_cons,
    List.length_nil] at hsub hlen ⊢
  omega

/-- **Printed values are parsed back.** -/
theorem parseHeader_values {now : Str} {header : Header} {line : Str}
    (hprint : spRtracePrintHeader now header = some line)
    (hvalue : ∀ i, ∀ v ∈ headerValue now header i, v ≠ [] ∧ ',' ∉ v) :
    spRtraceParserParseHeader w line = some (headerValue now header) := by
  have hwords : ∀ f ∈ fieldsWith (headerValue now header) HeaderField.all, HeaderWord f.2 := by
    rintro ⟨i, v⟩ hf
    have hv := (mem_fieldsWith.mp hf).2
    exact ⟨(hvalue i v hv).1, (hvalue i v hv).2, headerValue_short hprint hv⟩
  obtain ⟨rfl, -⟩ := spRtracePrintHeader_text hprint
  obtain ⟨fuel, hfuel⟩ := parseHeader_fields (w := w) (show Stops (· = ' ') ['\n'] by simp) hwords
  have hset : (setFields (fieldsWith (headerValue now header) HeaderField.all) fun _ => none)
      = headerValue now header := by
    funext j
    rw [setFields_with _ (by decide), if_pos j.mem_all, Option.or_none]
  rw [hfuel, parseHeaderLoop, hset]
  rfl

/-- **A header survives being printed and parsed** exactly if no field but
the version is set to an empty string. -/
theorem parseHeader_printHeader_iff {now : Str} {header : Header} {line : Str}
    (h : HeaderValues now header) (hprint : spRtracePrintHeader now header = some line) :
    (∃ parsed, spRtraceParserParseHeader w line = some parsed ∧ HeaderReadBack now header parsed) ↔
      ∀ i, i ≠ .version → header i ≠ some [] := by
  set value := headerValue now header with hvalue
  constructor
  · rintro ⟨parsed, hparse, hback⟩
    rw [headerReadBack_iff, ← hvalue] at hback
    by_contra hno
    push Not at hno
    obtain ⟨i, hi, hempty⟩ := hno
    have hvi : value i = some [] := by
      cases i with
      | version => exact absurd rfl hi
      | timestamp => rw [hvalue, headerValue, hempty]; rfl
      | _ => exact hempty
    -- the first field with an empty value
    obtain ⟨j, hj⟩ := Option.isSome_iff_exists.mp ((List.find?_isSome
      (p := fun i => decide (value i = some []))).mpr ⟨i, i.mem_all, by simpa using hvi⟩)
    obtain ⟨hvj, pre, post, hsplit, hpre⟩ := List.find?_eq_some_iff_append.mp hj
    have hvj : value j = some [] := by simpa using hvj
    have htext : line = printHeaderFields (fieldsWith value pre)
        ++ (printHeaderField j [] ++ (printHeaderFields (fieldsWith value post) ++ ['\n'])) := by
      rw [(spRtracePrintHeader_text hprint).1, ← hvalue, hsplit]
      simp [fieldsWith, printHeaderFields, hvj]
    have hfront : ∀ f ∈ fieldsWith value pre, HeaderWord f.2 := by
      intro f hf
      obtain ⟨hmem, hv⟩ := mem_fieldsWith.mp hf
      refine ⟨fun he => ?_, headerValue_no_comma h f.1 f.2 hv, headerValue_short hprint hv⟩
      have := hpre f.1 hmem
      rw [hv, he] at this
      simp at this
    have hstop : Stops (· = ' ') (printHeaderField j []
        ++ (printHeaderFields (fieldsWith value post) ++ ['\n'])) := by
      obtain ⟨hne, -, -, -, hs⟩ := j.name_shape
      simp only [printHeaderField, List.append_assoc]
      exact stops_append hs fun e => absurd e hne
    obtain ⟨fuel, hfuel⟩ := parseHeader_fields (w := w) hstop hfront
    rw [htext, hfuel, parseHeaderLoop_empty, Option.some.injEq] at hparse
    have hnodup : (pre ++ j :: post).Nodup := by
      rw [← hsplit]
      decide
    have hjpre : j ∉ pre := fun hmem => (List.nodup_append.mp hnodup).2.2 j hmem j (by simp) rfl
    have hat := congrFun hparse j
    rw [setFields_with value (List.nodup_append.mp hnodup).1 _ j, if_neg hjpre, hback, hvj] at hat
    cases hat
  · intro hne
    refine ⟨value, parseHeader_values hprint fun i v hv => ⟨?_, headerValue_no_comma h i v hv⟩,
      headerReadBack_iff.mpr rfl⟩
    rintro rfl
    exact headerValue_ne h hne i hv

/-- A header of a program without a name. -/
def namelessHeader (name : Str) : Header
  | .arch => some "x86_64".toList
  | .timestamp => some "2012.1.2 03:04:05".toList
  | .process => some name
  | .pid => some "42".toList
  | .origin => some "a=b".toList
  | _ => none

/-- An empty name makes the parser lose the fields behind it. -/
theorem parseHeader_printHeader_empty : HeaderValues "1.1.2012 00:00:00".toList (namelessHeader []) ∧
    ∃ line, spRtracePrintHeader "1.1.2012 00:00:00".toList (namelessHeader []) = some line ∧
      ¬ ∃ parsed, spRtraceParserParseHeader 64 line = some parsed ∧
        HeaderReadBack "1.1.2012 00:00:00".toList (namelessHeader []) parsed := by
  refine ⟨⟨fun i v hv => ?_, by decide, by decide⟩, ?_⟩
  · cases i <;> simp only [namelessHeader, Option.mem_def, reduceCtorEq, Option.some.injEq] at hv <;>
      subst hv <;> decide
  have heval : ((spRtracePrintHeader "1.1.2012 00:00:00".toList (namelessHeader [])).bind
      fun line => (spRtraceParserParseHeader 64 line).map fun parsed => parsed .pid)
        = some none := by decide +kernel
  obtain ⟨line, hline, heval⟩ := Option.bind_eq_some_iff.mp heval
  refine ⟨line, hline, ?_⟩
  rintro ⟨parsed, hparse, hback⟩
  rw [hparse, Option.map_some, Option.some.injEq, hback.others .pid (by simp) (by simp)] at heval
  cases heval

/-- With a name they are read back. -/
theorem parseHeader_printHeader_iff_named :
    ∃ line, spRtracePrintHeader "1.1.2012 00:00:00".toList (namelessHeader ['p']) = some line ∧
      ∃ parsed, spRtraceParserParseHeader 64 line = some parsed ∧
        HeaderReadBack "1.1.2012 00:00:00".toList (namelessHeader ['p']) parsed := by
  have hprint : (spRtracePrintHeader "1.1.2012 00:00:00".toList (namelessHeader ['p'])).isSome := by
    decide +kernel
  obtain ⟨line, hline⟩ := Option.isSome_iff_exists.mp hprint
  refine ⟨line, hline, (parseHeader_printHeader_iff ⟨fun i v hv => ?_, by decide, by decide⟩
    hline).mpr fun i _ => ?_⟩
  · cases i <;> simp only [namelessHeader, Option.mem_def, reduceCtorEq, Option.some.injEq] at hv <;>
      subst hv <;> decide
  · cases i <;> simp [namelessHeader]

end SpRtrace.Library
