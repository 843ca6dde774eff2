/-
SpRtrace.Postproc.EnvironmentLog — the environment of a log, written and
read.

`EnvWords` are the objects whose strings the format can hold.
`parseHeader_environment` reads the header line back; `writes_environment`
says which records the other lines are and when they fit the buffers of
the parser; `readEnvironment` is what the reader has after them.
-/
import SpRtrace.Library.RoundTrip
import SpRtrace.Postproc.LogLines

namespace SpRtrace.Postproc

open SpRtrace.Lib SpRtrace.Common SpRtrace.Library

variable {w : Nat}

/-! ## Words -/

/-- A word of the environment: no blanks, commas or parentheses. -/
structure EnvWord (s : Str) : Prop where
  ne : s ≠ []
  plain : ∀ c ∈ s, isSpace c = false ∧ c ∉ [',', '(', ')']

theorem EnvWord.no_space {s : Str} (h : EnvWord s) : ∀ c ∈ s, isSpace c = false :=
  fun c hc => (h.plain c hc).1

theorem EnvWord.no_newline {s : Str} (h : EnvWord s) : '\n' ∉ s := not_mem_of_plain h.no_space

theorem EnvWord.not_mem {s : Str} (h : EnvWord s) {c : Char} (hc : c ∈ [',', '(', ')']) : c ∉ s :=
  fun hmem => (h.plain c hmem).2 hc

theorem EnvWord.scannable {s : Str} (h : EnvWord s) {size : Nat} (hshort : s.length < size) :
    ScannableWord size s := ⟨h.ne, h.no_space, hshort⟩

/-- A resource whose line is read back. -/
structure ResourceLine (res : Resource w) : Prop where
  type_ne : res.type ≠ []
  type_plain : ∀ c ∈ res.type, isSpace c = false
  desc_ne : res.desc ≠ []
  desc_plain : ')' ∉ res.desc ∧ '\n' ∉ res.desc
  id_pos : 1 ≤ res.id.toNat
  id_le : res.id.toNat ≤ 32
  flags : res.flags = 0 ∨ res.flags = resourceRefcount

structure EnvResource (res : Resource w) : Prop where
  type : EnvWord res.type
  desc : EnvWord res.desc
  id_pos : 1 ≤ res.id.toNat
  id_le : res.id.toNat ≤ 32
  flags : res.flags = 0 ∨ res.flags = resourceRefcount

theorem EnvResource.line {res : Resource w} (h : EnvResource res) : ResourceLine res where
  type_ne := h.type.ne
  type_plain := h.type.no_space
  desc_ne := h.desc.ne
  desc_plain := ⟨h.desc.not_mem (by simp), h.desc.no_newline⟩
  id_pos := h.id_pos
  id_le := h.id_le
  flags := h.flags

/-- The records of `rd->resources`. -/
def storedResources (rd : Rd w) : List (Resource w) := rd.resources.filterMap rd.resource

/-- No string of the environment has a newline, and the lines of the
resources are read back. -/
structure EnvLines (rd : Rd w) : Prop where
  arch : ∀ hshake ∈ rd.hshake, ∀ arch ∈ hshake.arch, '\n' ∉ arch
  name : ∀ pinfo ∈ rd.pinfo, ∀ name ∈ pinfo.name, '\n' ∉ name
  origin : ∀ pinfo ∈ rd.pinfo, ∀ origin ∈ pinfo.traceOrigin, '\n' ∉ origin
  files : ∀ file ∈ rd.files, '\n' ∉ file.name ∧ '\n' ∉ file.path
  modules : ∀ minfo ∈ rd.minfo, '\n' ∉ minfo.name
  contexts : ∀ context ∈ rd.contexts, '\n' ∉ context.name
  resources_live : ∀ r ∈ rd.resources, ∃ res, rd.resource r = some res
  resources : ∀ res ∈ storedResources rd, ResourceLine res
  types : ((storedResources rd).map Resource.type).Nodup
  mmaps : ∀ mmap ∈ rd.mmaps, '\n' ∉ mmap.moduleName

/-- The strings of the environment are words, but for the names of contexts
and modules; the types are distinct and the filter is one of the known
ones. -/
structure EnvWords (rd : Rd w) : Prop where
  arch : ∀ hshake ∈ rd.hshake, ∀ arch ∈ hshake.arch, EnvWord arch
  name : ∀ pinfo ∈ rd.pinfo, ∀ name ∈ pinfo.name, EnvWord name
  origin : ∀ pinfo ∈ rd.pinfo, ∀ origin ∈ pinfo.traceOrigin, EnvWord origin
  filter : rd.filter.toNat < 8
  files : ∀ file ∈ rd.files, EnvWord file.name ∧ EnvWord file.path
  modules : ∀ minfo ∈ rd.minfo, '\n' ∉ minfo.name
  contexts : ∀ context ∈ rd.contexts, '\n' ∉ context.name
  resources_live : ∀ r ∈ rd.resources, ∃ res, rd.resource r = some res
  resources : ∀ res ∈ storedResources rd, EnvResource res
  types : ((storedResources rd).map Resource.type).Nodup
  mmaps : ∀ mmap ∈ rd.mmaps, EnvWord mmap.moduleName

theorem EnvWords.lines {rd : Rd w} (h : EnvWords rd) : EnvLines rd where
  arch hshake hhs arch harch := (h.arch hshake hhs arch harch).no_newline
  name pinfo hpi name hname := (h.name pinfo hpi name hname).no_newline
  origin pinfo hpi origin horigin := (h.origin pinfo hpi origin horigin).no_newline
  files file hfile := ⟨(h.files file hfile).1.no_newline, (h.files file hfile).2.no_newline⟩
  modules := h.modules
  contexts := h.contexts
  resources_live := h.resources_live
  resources res hres := (h.resources res hres).line
  types := h.types
  mmaps mmap hmmap := (h.mmaps mmap hmmap).no_newline

/-! ## The header -/

theorem atoi_printInt (hw : 32 ≤ w) (v : BitVec 32) : atoi w (printInt v) = v := by
  have hscan := scanConv_dec_printInt hw v (show Stops (isDigitOf 10) [] by simp)
  rw [List.append_nil] at hscan
  rw [atoi, hscan]

/-- The known filters are read back. -/
theorem headerGetFilter_set (header : Header) {mask : BitVec 32} (h : mask.toNat < 8) :
    headerGetFilter (headerSetFilter header mask) = mask := by
  obtain ⟨k, hk, rfl⟩ : ∃ k < 8, mask = BitVec.ofNat 32 k := ⟨mask.toNat, h, by simp⟩
  rw [headerGetFilter, headerSetFilter, Function.update_self]
  interval_cases k <;> decide

/-- Their text is not empty. -/
theorem headerSetFilter_ne (header : Header) {mask : BitVec 32} (h : mask.toNat < 8) :
    ∀ v ∈ headerSetFilter header mask .filter, v ≠ [] := by
  obtain ⟨k, hk, rfl⟩ : ∃ k < 8, mask = BitVec.ofNat 32 k := ⟨mask.toNat, h, by simp⟩
  rw [headerSetFilter, Function.update_self]
  interval_cases k <;> decide

/-- The text of a filter has no comma and no newline. -/
theorem headerSetFilter_plain (header : Header) (mask : BitVec 32) :
    ∀ v ∈ headerSetFilter header mask .filter, ',' ∉ v ∧ '\n' ∉ v := by
  intro v hv
  rw [headerSetFilter, Function.update_self] at hv
  split at hv
  · cases hv
  · obtain rfl := Option.some.inj hv
    unfold filterTags
    simp only [List.filter]
    cases mask.getLsbD 0 <;> cases mask.getLsbD 1 <;> cases mask.getLsbD 2 <;> decide

/-- The filters that stay in a log for good. -/
def permanentFilters (filter : BitVec 32) : BitVec 32 := filter &&& ~~~ filterMaskCompress

theorem headerFilter_lt {filter : BitVec 32} (h : filter.toNat < 8) (opts : WriterOptions) :
    (headerFilter filter opts).toNat < 8 := by
  obtain ⟨k, hk, rfl⟩ : ∃ k < 8, filter = BitVec.ofNat 32 k := ⟨filter.toNat, h, by simp⟩
  unfold headerFilter
  cases opts.compress <;> cases opts.filterLeaks <;> interval_cases k <;> decide

/-- A number has no character that is not a digit. -/
theorem printTm_plain (tm : Tm) : printTm tm ≠ [] ∧ ',' ∉ printTm tm ∧ '\n' ∉ printTm tm := by
  have hnat := fun (c : Char) (hc : notInNumber c = true) n =>
    not_mem_printNat hc (.inl (rfl : 10 = 10)) n
  have hpad := fun (c : Char) (hc : notInNumber c = true) n => not_mem_printPadded hc 2 n
  refine ⟨?_, ?_, ?_⟩
  · rw [printTm]
    simp [printNat_ne_nil]
  · simp [printTm, hnat ',' (by decide), hpad ',' (by decide)]
  · simp [printTm, hnat '\n' (by decide), hpad '\n' (by decide)]

theorem printInt_plain (v : BitVec 32) : printInt v ≠ [] ∧ ',' ∉ printInt v ∧ '\n' ∉ printInt v := by
  obtain ⟨c, s, hcs, -⟩ := printInt_head v
  exact ⟨by simp [hcs], not_mem_printInt (by decide) v, not_mem_printInt (by decide) v⟩

theorem EnvWord.header {s : Str} (h : EnvWord s) : s ≠ [] ∧ ',' ∉ s := ⟨h.ne, h.not_mem (by simp)⟩

section Header

variable {rd : Rd w} {hshake : Hshake} {pinfo : Pinfo} {tm : Tm} {opts : WriterOptions} {line : Str}

/-- No value of the header is empty or has a comma. -/
theorem traceHeader_plain (hwords : EnvWords rd) (hhs : rd.hshake = some hshake)
    (hpi : rd.pinfo = some pinfo) (i : HeaderField) :
    ∀ v ∈ headerValue [] (traceHeader rd hshake pinfo tm opts) i, v ≠ [] ∧ ',' ∉ v := by
  intro v hv
  cases i with
  | version =>
    obtain rfl := Option.some.inj hv
    decide
  | arch => exact (hwords.arch hshake hhs v hv).header
  | timestamp =>
    obtain rfl := Option.some.inj hv
    exact ⟨(printTm_plain tm).1, (printTm_plain tm).2.1⟩
  | process => exact (hwords.name pinfo hpi v hv).header
  | pid =>
    obtain rfl := Option.some.inj hv
    exact ⟨(printInt_plain pinfo.pid).1, (printInt_plain pinfo.pid).2.1⟩
  | filter =>
    exact ⟨headerSetFilter_ne (fun _ => none) (headerFilter_lt hwords.filter opts) v hv,
      (headerSetFilter_plain (fun _ => none) (headerFilter rd.filter opts) v hv).1⟩
  | backtraceDepth =>
    have hdepth : v ∈ (if pinfo.backtraceDepth = BitVec.allOnes 32 then none
      else some (printInt pinfo.backtraceDepth)) := hv
    split at hdepth
    · cases hdepth
    · obtain rfl := Option.some.inj hdepth
      exact ⟨(printInt_plain pinfo.backtraceDepth).1, (printInt_plain pinfo.backtraceDepth).2.1⟩
  | origin => exact (hwords.origin pinfo hpi v hv).header

theorem traceHeader_no_newline (hlines : EnvLines rd) (hhs : rd.hshake = some hshake)
    (hpi : rd.pinfo = some pinfo) (i : HeaderField) :
    ∀ v ∈ headerValue [] (traceHeader rd hshake pinfo tm opts) i, '\n' ∉ v := by
  intro v hv
  cases i with
  | version =>
    obtain rfl := Option.some.inj hv
    decide
  | arch => exact hlines.arch hshake hhs v hv
  | timestamp =>
    obtain rfl := Option.some.inj hv
    exact (printTm_plain tm).2.2
  | process => exact hlines.name pinfo hpi v hv
  | pid =>
    obtain rfl := Option.some.inj hv
    exact (printInt_plain pinfo.pid).2.2
  | filter => exact (headerSetFilter_plain (fun _ => none) (headerFilter rd.filter opts) v hv).2
  | backtraceDepth =>
    have hdepth : v ∈ (if pinfo.backtraceDepth = BitVec.allOnes 32 then none
      else some (printInt pinfo.backtraceDepth)) := hv
    split at hdepth
    · cases hdepth
    · obtain rfl := Option.some.inj hdepth
      exact (printInt_plain pinfo.backtraceDepth).2.2
  | origin => exact hlines.origin pinfo hpi v hv

/-- The header is one line. -/
theorem traceHeader_newline (hlines : EnvLines rd) (hhs : rd.hshake = some hshake)
    (hpi : rd.pinfo = some pinfo)
    (hprint : spRtracePrintHeader [] (traceHeader rd hshake pinfo tm opts) = some line) :
    IsLine 4095 line := by
  obtain ⟨rfl, hlen⟩ := spRtracePrintHeader_text hprint
  refine ⟨_, rfl, fun hmem => ?_, ?_⟩
  · rw [printHeaderFields, List.mem_flatMap] at hmem
    obtain ⟨⟨i, v⟩, hf, hc⟩ := hmem
    have hv := traceHeader_no_newline hlines hhs hpi i v (mem_fieldsWith.mp hf).2
    have hname : '\n' ∉ i.name := by cases i <;> decide
    simp [printHeaderField, hname, hv] at hc
  · exact hlen

/-- The header of a log, as the reader stores it. -/
structure HeaderKept (rd rd' : Rd w) (opts : WriterOptions) : Prop where
  arch : rd'.hshake.map Hshake.arch = rd.hshake.map Hshake.arch
  pid : rd'.pinfo.map Pinfo.pid = rd.pinfo.map Pinfo.pid
  name : rd'.pinfo.map Pinfo.name = rd.pinfo.map Pinfo.name
  depth : rd'.pinfo.map Pinfo.backtraceDepth = rd.pinfo.map Pinfo.backtraceDepth
  origin : rd'.pinfo.map Pinfo.traceOrigin = rd.pinfo.map Pinfo.traceOrigin
  filter : rd'.filter = headerFilter rd.filter opts

/-- **The header line is read back.** -/
theorem parseHeader_environment (hw : 32 ≤ w) (mktime : List (BitVec 32) → Int)
    (hwords : EnvWords rd) (hhs : rd.hshake = some hshake) (hpi : rd.pinfo = some pinfo)
    (hprint : spRtracePrintHeader [] (traceHeader rd hshake pinfo tm opts) = some line) :
    ∃ rd₀, parseHeader mktime rdCreate line = some rd₀ ∧ HeaderKept rd rd₀ opts := by
  set header := traceHeader rd hshake pinfo tm opts with hheader
  have hparse : spRtraceParserParseHeader w line = some (headerValue [] header) :=
    parseHeader_values hprint (traceHeader_plain hwords hhs hpi)
  have hdepth : ((headerValue [] header .backtraceDepth).map (atoi w)).getD (BitVec.allOnes 32)
      = pinfo.backtraceDepth := by
    show ((if pinfo.backtraceDepth = BitVec.allOnes 32 then none
      else some (printInt pinfo.backtraceDepth)).map (atoi w)).getD (BitVec.allOnes 32) = _
    split
    · rename_i h
      exact h.symm
    · exact atoi_printInt hw _
  have hfilter : (if (headerValue [] header .filter).isSome = true
      then headerGetFilter (headerValue [] header) else (rdCreate : Rd w).filter)
      = headerFilter rd.filter opts := by
    have hget : headerGetFilter header = headerFilter rd.filter opts :=
      headerGetFilter_set _ (headerFilter_lt hwords.filter opts)
    split
    · exact hget
    · rename_i hnone
      have hfield : header .filter = none := Option.not_isSome_iff_eq_none.mp hnone
      rw [headerGetFilter, hfield] at hget
      exact hget
  refine ⟨_, by rw [parseHeader, hparse]; rfl, ?_⟩
  constructor
  · rw [hhs]; rfl
  · rw [hpi]
    exact congrArg some (atoi_printInt hw _)
  · rw [hpi]; rfl
  · rw [hpi]
    exact congrArg some hdepth
  · rw [hpi]; rfl
  · exact hfilter

end Header

/-! ## The lines behind the header -/

def fileRecord (file : Attachment) : Record w × Str :=
  (.attachment file, spRtracePrintAttachment file)

/-- The line of a context; with a blank name it is a comment. -/
def contextRecord (context : Context w) : Record w × Str :=
  (if skipSpace context.name = [] then .comment
   else .context { id := (context.id.setWidth 32).setWidth w, name := skipSpace context.name },
   spRtracePrintContext context)

def resourceRecord (res : Resource w) : Record w × Str :=
  (.resource { res with hide := false }, (spRtracePrintResource res).getD [])

def mmapRecord (mmap : Mmap w) : Record w × Str := (.mmap mmap, spRtracePrintMmap mmap)

/-- The heap information and the modules are written as comments. -/
def infoLines (rd : Rd w) : List Str :=
  (match rd.hinfo with
    | none => []
    | some hinfo => writeHeapInformation hinfo) ++ rd.minfo.map writeModuleInfo

def infoRecord (line : Str) : Record w × Str := (.comment, line)

/-- The lines of the environment behind the header. -/
def envRecords (rd : Rd w) : List (Record w × Str) :=
  rd.files.map fileRecord ++ (infoLines rd).map infoRecord
    ++ rd.contexts.map contextRecord ++ (storedResources rd).map resourceRecord
    ++ rd.mmaps.map mmapRecord

/-- The resources are written one by one. -/
theorem writeResources_eq {rd : Rd w} (hlive : ∀ r ∈ rd.resources, ∃ res, rd.resource r = some res) :
    (rd.resources.mapM fun res => do spRtracePrintResource (← rd.resource res))
      = (storedResources rd).mapM spRtracePrintResource := by
  unfold storedResources
  generalize rd.resources = rs at hlive
  induction rs with
  | nil => rfl
  | cons r rs ih =>
    obtain ⟨res, hres⟩ := hlive r (by simp)
    rw [List.mapM_cons, List.filterMap_cons_some hres, List.mapM_cons,
      ih fun r' hr' => hlive r' (by simp [hr']), hres]
    rfl

/-- What is written of the environment: the strings of the process and the
header have to fit their buffers, and so has every resource. -/
theorem writeTraceEnvironment_iff {rd : Rd w} {localtime : Int → Tm} {opts : WriterOptions}
    (hlive : ∀ r ∈ rd.resources, ∃ res, rd.resource r = some res) {env : List Str} :
    writeTraceEnvironment rd localtime opts = some env ↔
      ∃ hshake pinfo header, rd.hshake = some hshake ∧ rd.pinfo = some pinfo ∧
        (printInt pinfo.pid).length ≤ 7 ∧
        spRtracePrintHeader [] (traceHeader rd hshake pinfo (localtime pinfo.tvSec) opts)
          = some header ∧
        (∀ res ∈ storedResources rd, ∃ line, spRtracePrintResource res = some line) ∧
        env = header :: (envRecords rd).map Prod.snd := by
  have hlines : ∀ lines, (storedResources rd).mapM spRtracePrintResource = some lines →
      lines = ((storedResources rd).map resourceRecord).map Prod.snd := by
    intro lines hlines
    rw [mapM_eq_some_iff] at hlines
    generalize storedResources rd = resources at hlines
    induction hlines with
    | nil => rfl
    | cons hline _ ih =>
      rw [List.map_cons, List.map_cons, ← ih, resourceRecord, hline]
      rfl
  have hrest : ∀ header lines, (storedResources rd).mapM spRtracePrintResource = some lines →
      header :: rd.files.map spRtracePrintAttachment
        ++ (match rd.hinfo with
          | none => []
          | some hinfo => writeHeapInformation hinfo) ++ rd.minfo.map writeModuleInfo
        ++ rd.contexts.map spRtracePrintContext ++ lines ++ rd.mmaps.map spRtracePrintMmap
      = header :: (envRecords rd).map Prod.snd := by
    intro header lines h
    rw [hlines lines h]
    simp [envRecords, infoLines, infoRecord, fileRecord, contextRecord, mmapRecord,
      Function.comp_def]
  unfold writeTraceEnvironment
  simp only [Option.bind_eq_bind, Option.bind_eq_some_iff, Option.some.injEq, buffered,
    Option.ite_none_right_eq_some]
  constructor
  · intro ⟨pinfo, hpi, hshake, hhs, _, ⟨hpid, _⟩, header, hheader, lines, hres, henv⟩
    have hprint := hres
    rw [show (rd.resources.mapM fun res => (rd.resource res).bind spRtracePrintResource) = _ from
      writeResources_eq hlive] at hprint
    refine ⟨hshake, pinfo, header, hhs, hpi, hpid, hheader, fun res hmem => ?_, ?_⟩
    · obtain ⟨line, -, hline⟩ := forall₂_mem_left (mapM_eq_some_iff.mp hprint) hmem
      exact ⟨line, hline⟩
    · exact henv.symm.trans (hrest header lines hprint)
  · intro ⟨hshake, pinfo, header, hhs, hpi, hpid, hheader, hres, henv⟩
    obtain ⟨lines, hprint⟩ := mapM_total hres
    refine ⟨pinfo, hpi, hshake, hhs, _, ⟨hpid, rfl⟩, header, hheader, lines, ?_, ?_⟩
    · exact (writeResources_eq hlive).trans hprint
    · exact (hrest header lines hprint).trans henv.symm

/-! ## What the lines are read as -/

theorem heapLine_hash {label : String} {value : Str} (hlabel : '\n' ∉ label.toList)
    (hvalue : '\n' ∉ value) : HashLine (heapLine label value) := by
  refine ⟨⟨label.toList ++ value ++ ['\n'], rfl⟩, '#' :: '#' :: label.toList ++ value, rfl, ?_⟩
  simp only [List.cons_append, List.mem_cons, Char.reduceEq, List.mem_append, hlabel, hvalue,
    or_self, not_false_eq_true]

theorem writeHeapInformation_hash (hinfo : Hinfo w) : ∀ line ∈ writeHeapInformation hinfo,
    HashLine line := by
  have haddr : ∀ v : BitVec w, '\n' ∉ '0' :: 'x' :: printNat 16 v.toNat := fun v => by
    simp [not_newline_printNat]
  intro line hline
  simp only [writeHeapInformation, List.mem_cons, List.not_mem_nil, or_false] at hline
  rcases hline with rfl | rfl | rfl | rfl | rfl | rfl | rfl | rfl | rfl | rfl | rfl | rfl | rfl |
    rfl | rfl
  · exact heapLine_hash (by decide) (by simp)
  · exact heapLine_hash (by decide) (haddr _)
  · exact heapLine_hash (by decide) (haddr _)
  · exact heapLine_hash (by decide) (haddr _)
  · exact heapLine_hash (by decide) (haddr _)
  all_goals exact heapLine_hash (by decide) (not_newline_printInt _)

theorem writeModuleInfo_hash {minfo : Minfo} (hname : '\n' ∉ minfo.name) :
    HashLine (writeModuleInfo minfo) := by
  have hdec : ∀ n, '\n' ∉ printNat 10 n := not_mem_printNat (by decide) (.inl rfl)
  refine ⟨⟨_, rfl⟩, _, List.append_cons _ ')' ['\n'], ?_⟩
  simp [not_newline_printNat, hname, hdec]

theorem infoLines_hash {rd : Rd w} (hlines : EnvLines rd) : ∀ line ∈ infoLines rd,
    HashLine line := by
  intro line hline
  rcases List.mem_append.mp hline with hline | hline
  · cases hinfo : rd.hinfo with
    | none => rw [hinfo] at hline; cases hline
    | some h =>
      rw [hinfo] at hline
      exact writeHeapInformation_hash h line hline
  · obtain ⟨minfo, hmem, rfl⟩ := List.mem_map.mp hline
    exact writeModuleInfo_hash (hlines.modules minfo hmem)

/-- The line of a record that is no part of a group. -/
theorem Writes.record {line : Str} {rec : Record w} {fits : Prop} (hnl : Newline line)
    (hhead : line.head? ≠ some '#' ∧ line.head? ≠ some '\n')
    (hkind : (∀ call, rec ≠ .call call) ∧ (∀ frame, rec ≠ .trace frame) ∧ ∀ arg, rec ≠ .arg arg)
    (hparse : fits → spRtraceParserParseRecord recordAll line = some rec)
    (hfits : ∀ r : Record w, spRtraceParserParseRecord recordAll line = some r → fits) :
    Writes w line [.record rec line] fits := by
  have hevent : recordEvent line rec = .record rec line := by
    obtain ⟨hcall, htrace, harg⟩ := hkind
    cases rec with
    | call call => exact absurd rfl (hcall call)
    | trace frame => exact absurd rfl (htrace frame)
    | arg arg => exact absurd rfl (harg arg)
    | _ => exact if_neg hhead.2
  rw [← hevent]
  exact Writes.parsed hnl hhead.1 hparse hfits

def recordLine (p : Record w × Str) : LogEvent w := .record p.1 p.2

theorem writes_file {file : Attachment} (hname : EnvWord file.name) (hpath : EnvWord file.path)
    (hshort : ShortLines (spRtracePrintAttachment file)) :
    Writes w (fileRecord (w := w) file).2 [recordLine (fileRecord file)] (file.name.length < 512) := by
  have htext : spRtracePrintAttachment file
      = '&' :: ' ' :: file.name ++ [' ', ':', ' '] ++ file.path ++ ['\n'] := rfl
  have hlen : file.path.length < pathMax := by
    have := hshort _ file.path ['\n'] htext hpath.no_newline
    rw [pathMax]
    omega
  refine Writes.record ⟨_, htext, ?_⟩ (by simp [htext, fileRecord]) (by simp [fileRecord]) ?_ ?_
  · simp [hname.no_newline, hpath.no_newline]
  · exact fun h => parseRecord_printAttachment_word (hname.scannable h) (hpath.scannable hlen)
  · exact fun r hr => parseRecord_printAttachment_fits hname.ne hname.no_space hr

theorem writes_context (hw : 32 ≤ w) {context : Context w} (hname : '\n' ∉ context.name) :
    Writes w (contextRecord context).2 [recordLine (contextRecord context)]
      ((skipSpace context.name).length < 512) := by
  have hparse := parseRecord_printContext hw hname
  have htext : spRtracePrintContext context
      = '@' :: ' ' :: printNat 16 (context.id.setWidth 32).toNat ++ [' ', ':', ' '] ++ context.name
        ++ ['\n'] := rfl
  refine Writes.record ⟨_, htext, ?_⟩ (by simp [htext, contextRecord]) ?_ ?_ ?_
  · simp [not_newline_printNat, hname]
  · unfold contextRecord
    simp only
    split <;> simp
  · intro h
    rw [contextRecord, hparse, if_pos h]
    split <;> rfl
  · intro r hr
    rw [contextRecord, hparse] at hr
    by_cases hblank : skipSpace context.name = []
    · simp [hblank]
    · rw [if_neg hblank] at hr
      by_contra hlong
      rw [if_neg hlong] at hr
      cases hr

theorem writes_resource (hw : 32 ≤ w) {res : Resource w} (hres : ResourceLine res) {line : Str}
    (hprint : spRtracePrintResource res = some line) :
    Writes w (resourceRecord res).2 [recordLine (resourceRecord res)]
      (res.type.length < 512 ∧ res.desc.length < 512) := by
  have hline : (resourceRecord res).2 = line := by rw [resourceRecord, hprint]; rfl
  have hrec : (resourceRecord res).1 = .resource { res with hide := false } := rfl
  obtain ⟨hpar, hdesc_line⟩ := hres.desc_plain
  obtain ⟨bit, -, htext⟩ := spRtracePrintResource_text hprint
  have hflags : '\n' ∉ printResourceFlags res.flags := by
    unfold printResourceFlags
    split <;> decide
  have hnl : Newline line := by
    refine ⟨'<' :: (printNat 16 bit.toNat ++ '>' :: ' ' :: ':' :: ' ' :: (res.type ++ ' ' :: '(' ::
      (res.desc ++ ')' :: printResourceFlags res.flags))), by simp [htext], ?_⟩
    simp [not_newline_printNat, not_mem_of_plain hres.type_plain, hdesc_line, hflags]
  rw [recordLine, hline, hrec]
  refine Writes.record hnl (by simp [htext]) (by simp) (fun ⟨htype, hdesc⟩ => ?_) fun r hr => ?_
  · refine parseRecord_printResource_whole hw hprint ⟨hres.type_ne, fun hmem => ?_, ?_, htype,
      hres.desc_ne, stops_of_not_mem hpar, hdesc⟩ hpar hres.id_le hres.flags
    · exact absurd (hres.type_plain ' ' hmem) (by decide)
    · exact fun c hc => hres.type_plain c (List.mem_of_mem_head? hc)
  · exact parseRecord_printResource_fits hw hprint hres.type_ne hres.type_plain hres.desc_ne
      hpar hr

theorem writes_mmap {mmap : Mmap w} (hname : EnvWord mmap.moduleName)
    (hshort : ShortLines (spRtracePrintMmap mmap)) :
    Writes w (mmapRecord mmap).2 [recordLine (mmapRecord mmap)] True := by
  have htext : spRtracePrintMmap mmap = [':', ' '] ++ mmap.moduleName ++
      ([' ', '=', '>', ' ', '0', 'x'] ++ printNat 16 mmap.fromAddr.toNat ++ ['-', '0', 'x']
        ++ printNat 16 mmap.toAddr.toNat ++ ['\n']) := by simp [spRtracePrintMmap]
  have hlen : mmap.moduleName.length < pathMax := by
    have := hshort _ mmap.moduleName _ htext hname.no_newline
    rw [pathMax]
    omega
  refine Writes.record ⟨_, rfl, ?_⟩ (by simp [htext, mmapRecord]) (by simp [mmapRecord])
    (fun _ => parseRecord_printMmap (hname.scannable hlen)) fun _ _ => trivial
  simp [not_newline_printNat, hname.no_newline]

/-- The strings that the parser copies into buffers of fixed size. -/
structure EnvBuffers (rd : Rd w) : Prop where
  files : ∀ file ∈ rd.files, file.name.length < 512
  contexts : ∀ context ∈ rd.contexts, (skipSpace context.name).length < 512
  resources : ∀ res ∈ storedResources rd, res.type.length < 512 ∧ res.desc.length < 512

/-- One line for every element of a list. -/
theorem Writes.records {α : Type} {record : α → Record w × Str} {fits : α → Prop} {list : List α}
    (h : ∀ a ∈ list, Writes w (record a).2 [recordLine (record a)] (fits a)) :
    Writes w ((list.map record).map Prod.snd).flatten ((list.map record).map recordLine)
      (∀ a ∈ list, fits a) := by
  have hall := Writes.each h
  rw [List.flatMap_def] at hall
  rw [List.map_map, List.map_map]
  exact hall

/-- **The lines behind the header** are the records of the environment, and
the parser gets over them exactly if they fit its buffers. -/
theorem writes_environment (hw : 32 ≤ w) {rd : Rd w} (hwords : EnvWords rd)
    (hprint : ∀ res ∈ storedResources rd, ∃ line, spRtracePrintResource res = some line)
    (hshort : ShortLines ((envRecords rd).map Prod.snd).flatten) :
    Writes w ((envRecords rd).map Prod.snd).flatten ((envRecords rd).map recordLine)
      (EnvBuffers rd) := by
  have hline : ∀ p ∈ envRecords rd, ShortLines p.2 := fun p hp =>
    hshort.flatten (List.mem_map_of_mem hp)
  simp only [envRecords, List.mem_append, or_imp, forall_and, List.forall_mem_map] at hline
  obtain ⟨⟨⟨⟨hfile, -⟩, -⟩, -⟩, hmmap⟩ := hline
  have hfiles : ∀ file ∈ rd.files, Writes w (fileRecord file).2 [recordLine (fileRecord file)]
      (file.name.length < 512) := fun file hmem =>
    writes_file (hwords.files file hmem).1 (hwords.files file hmem).2 (hfile file hmem)
  have hinfos : ∀ line ∈ infoLines rd, Writes w (infoRecord (w := w) line).2
      [recordLine (infoRecord line)] True :=
    fun line hmem => (infoLines_hash hwords.lines line hmem).writes
  have hcontexts : ∀ context ∈ rd.contexts, Writes w (contextRecord context).2
      [recordLine (contextRecord context)] ((skipSpace context.name).length < 512) :=
    fun context hmem => writes_context hw (hwords.contexts context hmem)
  have hresources : ∀ res ∈ storedResources rd, Writes w (resourceRecord res).2
      [recordLine (resourceRecord res)] (res.type.length < 512 ∧ res.desc.length < 512) := by
    intro res hmem
    obtain ⟨line, hline⟩ := hprint res hmem
    exact writes_resource hw (hwords.resources res hmem).line hline
  have hmmaps : ∀ mmap ∈ rd.mmaps, Writes w (mmapRecord mmap).2 [recordLine (mmapRecord mmap)]
      True := fun mmap hmem => writes_mmap (hwords.mmaps mmap hmem) (hmmap mmap hmem)
  have hall := ((((Writes.records hfiles).append (Writes.records hinfos)).append
    (Writes.records hcontexts)).append (Writes.records hresources)).append (Writes.records hmmaps)
  simp only [← List.flatten_append, ← List.map_append] at hall
  refine hall.congr ⟨fun h => ?_, fun h => ?_⟩
  · obtain ⟨⟨⟨⟨hf, -⟩, hc⟩, hr⟩, -⟩ := h
    exact ⟨hf, hc, hr⟩
  · exact ⟨⟨⟨⟨h.files, fun _ _ => trivial⟩, h.contexts⟩, h.resources⟩, fun _ _ => trivial⟩

/-! ## What the reader has then -/

/-- A resource as it is read: the `hide` flag is not in the log. -/
def shownResource (res : Resource w) : Resource w := { res with hide := false }

section Records

variable (junk : Nat → Context w) (env : LogEnv w)

def LogEnv.addAll (recs : List (Record w × Str)) : LogEnv w :=
  recs.foldl (fun env p => env.add junk p.1) env

theorem LogEnv.addAll_append (recs recs' : List (Record w × Str)) :
    env.addAll junk (recs ++ recs') = (env.addAll junk recs).addAll junk recs' :=
  List.foldl_append ..

theorem LogEnv.addAll_files (files : List Attachment) :
    env.addAll junk (files.map fileRecord) = { env with files := env.files ++ files } := by
  induction files generalizing env with
  | nil => simp [addAll]
  | cons file files ih =>
    have hrest := ih (env.add junk (.attachment file))
    rw [List.map_cons]
    show (env.add junk (.attachment file)).addAll junk (files.map fileRecord) = _
    rw [hrest, LogEnv.add, List.append_assoc]
    rfl

theorem LogEnv.addAll_infos (lines : List Str) :
    env.addAll junk (lines.map infoRecord) = env := by
  induction lines with
  | nil => rfl
  | cons line lines ih => exact ih

theorem LogEnv.addAll_contexts (contexts : List (Context w)) :
    ∃ read, env.addAll junk (contexts.map contextRecord) = { env with contexts := read } ∧
      (contexts = [] → read = env.contexts) := by
  induction contexts generalizing env with
  | nil => exact ⟨env.contexts, rfl, fun _ => rfl⟩
  | cons context contexts ih =>
    obtain ⟨read, hread, -⟩ := ih (env.add junk (contextRecord context).1)
    refine ⟨read, ?_, by simp⟩
    show (env.add junk (contextRecord context).1).addAll junk (contexts.map contextRecord) = _
    rw [hread]
    unfold contextRecord
    simp only
    split <;> rfl

/-- Resources of new types are added. -/
theorem LogEnv.addAll_resources (resources : List (Resource w))
    (hnew : (env.resources.map Resource.type ++ resources.map Resource.type).Nodup) :
    env.addAll junk (resources.map resourceRecord)
      = { env with resources := env.resources ++ resources.map shownResource } := by
  induction resources generalizing env with
  | nil => simp [addAll]
  | cons res resources ih =>
    have hnot : ¬ env.resources.any (·.type = res.type) = true := by
      intro hany
      obtain ⟨old, hold, htype⟩ := List.any_eq_true.mp hany
      refine (List.nodup_append.mp hnew).2.2 old.type (List.mem_map_of_mem hold) res.type
        (by simp) (of_decide_eq_true htype)
    have hadd : env.add junk (resourceRecord res).1
        = { env with resources := env.resources ++ [shownResource res] } := if_neg hnot
    have hrest := ih (env.add junk (resourceRecord res).1) (by
      rw [hadd, List.map_append, List.append_assoc]
      exact hnew)
    show (env.add junk (resourceRecord res).1).addAll junk (resources.map resourceRecord) = _
    rw [hrest, hadd, List.append_assoc]
    rfl

theorem LogEnv.addAll_mmaps (mmaps : List (Mmap w)) :
    env.addAll junk (mmaps.map mmapRecord) = { env with mmaps := env.mmaps ++ mmaps } := by
  induction mmaps generalizing env with
  | nil => simp [addAll]
  | cons mmap mmaps ih =>
    have hrest := ih (env.add junk (.mmap mmap))
    show (env.add junk (.mmap mmap)).addAll junk (mmaps.map mmapRecord) = _
    rw [hrest, LogEnv.add, List.append_assoc]
    rfl

end Records

/-- **The environment of the log is that of the object**, but for the
contexts. -/
theorem readEnvironment (junk : Nat → Context w) {rd : Rd w} (hwords : EnvWords rd) (rd₀ : Rd w) :
    ∃ contexts, (LogState.init rd₀.hshake rd₀.pinfo rd₀.filter).env.addAll junk (envRecords rd)
      = { resources := (storedResources rd).map shownResource, mmaps := rd.mmaps, contexts,
          files := rd.files, hshake := rd₀.hshake, pinfo := rd₀.pinfo, filter := rd₀.filter } ∧
      (rd.contexts = [] → contexts = []) := by
  set env := (LogState.init rd₀.hshake rd₀.pinfo rd₀.filter : LogState w).env with henv
  obtain ⟨contexts, hcontexts, hnil⟩ :=
    LogEnv.addAll_contexts junk { env with files := env.files ++ rd.files } rd.contexts
  refine ⟨contexts, ?_, fun h => (hnil h).trans rfl⟩
  rw [envRecords, LogEnv.addAll_append, LogEnv.addAll_append, LogEnv.addAll_append,
    LogEnv.addAll_append, LogEnv.addAll_files, LogEnv.addAll_infos, hcontexts,
    LogEnv.addAll_resources _ _ _ (by simpa [henv, LogState.init, LogState.env] using hwords.types),
    LogEnv.addAll_mmaps]
  rfl

/-! ## Lines of which only their kind is known -/

def ParserTakes (w : Nat) (line : Str) : Prop :=
  (spRtraceParserParseRecord (w := w) recordAll line).isSome

theorem lineEvent_isSome {line : Str} : (lineEvent w line).isSome ↔ ParserTakes w line := by
  unfold ParserTakes
  by_cases hhead : line.head? = some '#'
  · obtain ⟨s, rfl⟩ : ∃ s, line = '#' :: s := by
      cases line with
      | nil => cases hhead
      | cons c s =>
        obtain rfl := Option.some.inj hhead
        exact ⟨s, rfl⟩
    rw [lineEvent, parseRecord_hash]
    split <;> simp
  · rw [lineEvent_of_head hhead, Option.isSome_map]

/-- A record that has nothing to do with calls and their resources. -/
def Unrelated : Record w → Prop
  | .call _ | .trace _ | .arg _ | .resource _ => False
  | _ => True

/-- A line that starts like a mapping, a context or an attachment. -/
def RegistryLine (line : Str) : Prop := Newline line ∧ ∃ c s, line = c :: s ∧ c ∈ [':', '@', '&']

theorem RegistryLine.unrelated {line : Str} (h : RegistryLine line) {rec : Record w}
    (hrec : spRtraceParserParseRecord recordAll line = some rec) : Unrelated rec := by
  obtain ⟨-, c, s, rfl, hc⟩ := h
  have hkind : isSpace c = false ∧ (c ≠ '-' ∧ c ≠ '+') ∧ isDigitOf 10 c = false ∧ '<' ≠ c := by
    simp only [List.mem_cons, List.not_mem_nil, or_false] at hc
    rcases hc with rfl | rfl | rfl <;> decide
  obtain ⟨hspace, hsign, hdigit, hres⟩ := hkind
  rw [parseRecord_of_head hspace hsign hdigit, parseResourceRegistry_ne hres] at hrec
  refine orElse_cases hrec trivial (fun _ _ => trivial) fun hrec => ?_
  refine orElse_cases hrec trivial (fun _ _ => trivial) fun hrec => ?_
  refine orElse_cases hrec trivial (fun _ h => by cases h) fun hrec => ?_
  refine orElse_cases hrec trivial (fun _ _ => trivial) fun hrec => ?_
  exact Option.some.inj hrec ▸ trivial

/-- Such a line, or a comment, is a record of the environment. -/
theorem writes_unrelated {line : Str} (h : RegistryLine line ∨ HashLine line) :
    ∃ rec : Record w, Unrelated rec ∧ Writes w line [.record rec line] (ParserTakes w line) := by
  rcases h with h | h
  · have hregistry := h
    obtain ⟨hnl, c, s, hline, hc⟩ := hregistry
    set rec := (spRtraceParserParseRecord (w := w) recordAll line).getD .comment with hdef
    have hrec : ∀ r, spRtraceParserParseRecord (w := w) recordAll line = some r → r = rec := by
      intro r hr
      rw [hdef, hr]
      rfl
    have hunrelated : Unrelated rec := by
      cases hparse : spRtraceParserParseRecord (w := w) recordAll line with
      | none => rw [hdef, hparse]; trivial
      | some r => exact hrec r hparse ▸ h.unrelated hparse
    have hhead : line.head? ≠ some '#' ∧ line.head? ≠ some '\n' := by
      simp only [List.mem_cons, List.not_mem_nil, or_false] at hc
      rw [hline]
      rcases hc with rfl | rfl | rfl <;> simp
    refine ⟨rec, hunrelated, Writes.record hnl hhead ?_ ?_ ?_⟩
    · refine ⟨fun call hcall => ?_, fun frame hframe => ?_, fun arg harg => ?_⟩
      · rw [hcall] at hunrelated
        exact hunrelated
      · rw [hframe] at hunrelated
        exact hunrelated
      · rw [harg] at hunrelated
        exact hunrelated
    · intro htakes
      obtain ⟨r, hr⟩ := Option.isSome_iff_exists.mp htakes
      rw [hr, hrec r hr]
    · intro r hr
      exact Option.isSome_iff_exists.mpr ⟨r, hr⟩
  · refine ⟨.comment, trivial, h.writes.congr ?_⟩
    rw [← lineEvent_isSome, h.event]
    simp

theorem LogEnv.add_unrelated (junk : Nat → Context w) (env : LogEnv w) {rec : Record w}
    (h : Unrelated rec) : (env.add junk rec).resources = env.resources := by
  cases rec with
  | resource res => exact absurd h id
  | _ => rfl

section Takes

variable (junk : Nat → Context w)

/-- Such lines keep the resources. -/
theorem takes_unrelated {lines : List Str} (h : ∀ line ∈ lines, RegistryLine line ∨ HashLine line)
    (env : LogEnv w) : ∃ env' : LogEnv w, env'.resources = env.resources ∧
      Takes junk lines.flatten (∀ line ∈ lines, ParserTakes w line) (AtPlace ⟨env, [], []⟩)
        (AtPlace ⟨env', [], []⟩) := by
  induction lines generalizing env with
  | nil => exact ⟨env, rfl, Takes.refl.congr (by simp)⟩
  | cons line lines ih =>
    obtain ⟨rec, hrec, hwrites⟩ := writes_unrelated (w := w) (h line (by simp))
    obtain ⟨env', henv', hrest⟩ := ih (fun l hl => h l (by simp [hl])) (env.add junk rec)
    have hone : Takes junk line (ParserTakes w line) (AtPlace ⟨env, [], []⟩)
        (AtPlace ⟨env.add junk rec, [], []⟩) :=
      ⟨_, hwrites, fun a ha => LogState.At.record ha rec line⟩
    refine ⟨env', henv'.trans (LogEnv.add_unrelated junk env hrec), ?_⟩
    exact (hone.trans hrest).congr (by rw [List.forall_mem_cons])

/-- The lines of resources with new types. -/
theorem takes_resources (hw : 32 ≤ w) {resources : List (Resource w)}
    (hline : ∀ res ∈ resources, ResourceLine res)
    (hprint : ∀ res ∈ resources, ∃ line, spRtracePrintResource res = some line) (env : LogEnv w)
    (hnew : (env.resources.map Resource.type ++ resources.map Resource.type).Nodup) :
    Takes junk ((resources.map resourceRecord).map Prod.snd).flatten
      (∀ res ∈ resources, ParserTakes w (resourceRecord res).2) (AtPlace ⟨env, [], []⟩)
      (AtPlace ⟨{ env with resources := env.resources ++ resources.map shownResource }, [], []⟩) := by
  have hwrites : ∀ res ∈ resources, Writes w (resourceRecord res).2
      [recordLine (resourceRecord res)] (ParserTakes w (resourceRecord res).2) := by
    intro res hres
    obtain ⟨line, hline'⟩ := hprint res hres
    have hone := writes_resource hw (hline res hres) hline'
    exact hone.congr (hone.single.symm.trans lineEvent_isSome)
  refine ⟨_, Writes.records hwrites, fun a ha => ?_⟩
  have hrun : (a.run junk ((resources.map resourceRecord).map recordLine)).At
      (env.addAll junk (resources.map resourceRecord)) [] [] := LogState.At.records ha _
  rw [LogEnv.addAll_resources junk env resources hnew] at hrun
  exact hrun

/-- **The environment**, whatever its lines are: the reader has no call yet,
and the resources. -/
theorem takes_environment (hw : 32 ≤ w) {rd : Rd w} (hlines : EnvLines rd)
    (hprint : ∀ res ∈ storedResources rd, ∃ line, spRtracePrintResource res = some line)
    {env : LogEnv w} (hempty : env.resources = []) :
    ∃ env' : LogEnv w, env'.resources = (storedResources rd).map shownResource ∧
      Takes junk ((envRecords rd).map Prod.snd).flatten
        (∀ p ∈ envRecords rd, ParserTakes w p.2) (AtPlace ⟨env, [], []⟩) (AtPlace ⟨env', [], []⟩) := by
  have hfront : ∀ line ∈ (rd.files.map fileRecord ++ (infoLines rd).map infoRecord
      ++ rd.contexts.map contextRecord : List (Record w × Str)).map Prod.snd,
      RegistryLine line ∨ HashLine line := by
    simp only [List.map_append, List.map_map, List.mem_append, List.mem_map]
    intro line hline
    obtain (⟨file, hfile, rfl⟩ | ⟨info, hinfo, rfl⟩) | ⟨context, hcontext, rfl⟩ := hline
    · obtain ⟨hname, hpath⟩ := hlines.files file hfile
      refine .inl ⟨⟨'&' :: ' ' :: file.name ++ [' ', ':', ' '] ++ file.path, rfl, ?_⟩, '&', _, rfl,
        by simp⟩
      simp [hname, hpath]
    · exact .inr (infoLines_hash hlines info hinfo)
    · refine .inl ⟨⟨'@' :: ' ' :: printNat 16 (context.id.setWidth 32).toNat ++ [' ', ':', ' ']
        ++ context.name, rfl, ?_⟩, '@', _, rfl, by simp⟩
      simp [not_newline_printNat, hlines.contexts context hcontext]
  have hback : ∀ line ∈ (rd.mmaps.map mmapRecord).map Prod.snd, RegistryLine line ∨ HashLine line := by
    simp only [List.map_map, List.mem_map]
    rintro line ⟨mmap, hmmap, rfl⟩
    refine .inl ⟨⟨_, rfl, ?_⟩, ':', _, rfl, by simp⟩
    simp [not_newline_printNat, hlines.mmaps mmap hmmap]
  obtain ⟨env₁, henv₁, htakes₁⟩ := takes_unrelated junk hfront env
  have htakes₂ := takes_resources junk hw hlines.resources hprint env₁
    (by rw [henv₁, hempty]; simpa using hlines.types)
  obtain ⟨env₃, henv₃, htakes₃⟩ := takes_unrelated junk hback
    { env₁ with resources := env₁.resources ++ (storedResources rd).map shownResource }
  refine ⟨env₃, by rw [henv₃, henv₁, hempty, List.nil_append], ?_⟩
  have hall := (htakes₁.trans htakes₂).trans htakes₃
  rw [← List.flatten_append, ← List.flatten_append, ← List.map_append, ← List.map_append] at hall
  refine hall.congr ?_
  simp only [List.forall_mem_map, envRecords, List.mem_append, or_imp, forall_and]

end Takes

end SpRtrace.Postproc
