/-
SpRtrace.Resolve.MultiPassTheorems — the multi-pass mode against the
default mode.

Both modes are brought to one form: the log is a part with the memory
mapping records and a part with the backtraces, and each mode writes one
string for every line (`resolveLines_log`, `multiPassLines_log`). The two
strings differ for a backtrace line outside of the mappings, which the
multi-pass mode copies, and for a line that is taken for a marker
(`doResolveMultiPass_iff`). The answers have to be lines: two of them are
read back from a file as they were written only then.

What a name file has to give back is kept by one invariant: the lines not
read yet are the answers for the backtrace lines still to come, mapping by
mapping (`assembleLines_log`).
-/
import SpRtrace.Lib.StdioTheorems
import SpRtrace.Resolve.MultiPass
import SpRtrace.Resolve.NameCacheTheorems

namespace SpRtrace.Resolve

open SpRtrace.Lib SpRtrace.Common SpRtrace.Library

variable {w : Nat} {opts : ResolveOptions} {sym : Symbols w}

/-! ## Three scans of one line -/

/-- The end of a backtrace line: a name in a parenthesis. -/
def nameFormat : List Directive := [.space, .lit '(', .conv (.except ['\n'] pathMax)]

/-- A name that is not longer than its buffer is scanned, without the
parenthesis in front of it, or is missing. -/
theorem sscanf_name {text : Str} (h : text.length < pathMax) :
    ∃ r : ScanResult w, sscanf w nameFormat text = some r ∧
      (r.values = [] ∨ ∃ name, r.values = [.text name] ∧ name.length < text.length) := by
  obtain ⟨r, hr⟩ : ∃ r, sscanf w nameFormat text = some r := by
    refine sscanf_fits fun k hk n hn => ?_
    have hk : k = .except ['\n'] pathMax := by simpa [nameFormat] using hk
    subst hk
    rw [← Option.some.inj hn]
    exact h
  refine ⟨r, hr, ?_⟩
  rw [nameFormat, sscanf_space] at hr
  cases hskip : skipSpace text with
  | nil =>
    rw [hskip, sscanf, Option.some.injEq] at hr
    exact Or.inl (by rw [← hr])
  | cons c rest =>
    rw [hskip, sscanf] at hr
    split at hr
    · rw [sscanf] at hr
      split at hr
      next v rest' hv =>
        obtain ⟨name, rfl, hname⟩ : ∃ name, v = .text name ∧ name.length ≤ rest.length := by
          cases rest with
          | nil => exact absurd hv (by simp [scanConv])
          | cons d rest =>
            rw [scanConv, scanText] at hv
            split at hv
            · exact absurd hv (by simp)
            · split at hv
              · exact absurd hv (by simp)
              · exact ⟨_, (ScanStep.ok.inj hv).1.symm, (List.takeWhile_sublist _).length_le⟩
        have hskipped : rest.length + 1 ≤ text.length := by
          have hlen := skipSpace_length text
          rwa [hskip, List.length_cons] at hlen
        rw [sscanf_nil, Option.map_some, Option.some.injEq] at hr
        exact Or.inr ⟨name, by rw [← hr], by omega⟩
      · exact Or.inl (by rw [← Option.some.inj hr])
      · exact Or.inl (by rw [← Option.some.inj hr])
      · exact absurd hr (by simp)
    · exact Or.inl (by rw [← Option.some.inj hr])

theorem scanDigits_value {base : Nat} {make : Nat → ScanArg w} {text rest : Str} {v : ScanArg w}
    (h : scanDigits base make text = .ok v rest) : ∃ n, v = make n := by
  unfold scanDigits at h
  split at h
  · exact absurd h (by simp)
  · exact ⟨_, (ScanStep.ok.inj h).1.symm⟩

/-- %lx assigns an address. -/
theorem scanConv_hexLong_value {text rest : Str} {v : ScanArg w}
    (h : scanConv .hexLong text = .ok v rest) : ∃ addr, v = .long addr := by
  rw [scanConv, scanNumber] at h
  split at h
  · exact absurd h (by simp)
  · obtain ⟨n, hn⟩ := scanDigits_value h
    exact ⟨_, hn⟩

/-- Where a hexadecimal address stands, all formats read the same one. -/
theorem sscanf_address (text : Str) :
    (∃ addr : BitVec w, ∃ rest, rest.length ≤ text.length ∧ skipSpace text = text ∧ ∀ fmt,
      sscanf w (.lit '0' :: .lit 'x' :: .conv .hexLong :: fmt) text
        = (sscanf w fmt rest).map fun r => { r with values := .long addr :: r.values }) ∨
    ∀ fmt, ∃ r : ScanResult w,
      sscanf w (.lit '0' :: .lit 'x' :: .conv .hexLong :: fmt) text = some r ∧ r.values = [] := by
  cases text with
  | nil => exact Or.inr fun fmt => ⟨_, rfl, rfl⟩
  | cons c text =>
    by_cases hc : '0' = c
    · subst hc
      cases text with
      | nil => exact Or.inr fun fmt => ⟨{ values := [], eof := true }, by simp [sscanf], rfl⟩
      | cons d text =>
        by_cases hd : 'x' = d
        · subst hd
          cases hconv : scanConv (w := w) .hexLong text with
          | ok v rest =>
            have hlen : rest.length ≤ text.length := by
              have hleaves := scanConv_leaves (w := w) .hexLong text
              exact hleaves v rest hconv
            obtain ⟨addr, rfl⟩ := scanConv_hexLong_value hconv
            refine Or.inl ⟨addr, rest, by simp only [List.length_cons]; omega,
              skipSpace_cons (by decide) _, fun fmt => ?_⟩
            rw [sscanf_lit, sscanf_lit, sscanf_conv hconv]
          | mismatch =>
            exact Or.inr fun fmt => ⟨{ values := [], eof := false }, by
              rw [sscanf_lit, sscanf_lit, sscanf, hconv], rfl⟩
          | eof =>
            exact Or.inr fun fmt => ⟨{ values := [], eof := true }, by
              rw [sscanf_lit, sscanf_lit, sscanf, hconv], rfl⟩
          | overflow =>
            exact absurd hconv (scanConv_in_buffer .hexLong (by simp [Conv.bufferSize]))
        · exact Or.inr fun fmt => ⟨{ values := [], eof := false }, by
            rw [sscanf_lit, sscanf_lit_ne hd], rfl⟩
    · exact Or.inr fun fmt => ⟨{ values := [], eof := false }, sscanf_lit_ne hc _ _, rfl⟩

/-- **The three formats agree on a line**: what the default mode takes for
a backtrace line is one for the index, and is read from an address file
with the same address and name. -/
theorem scans_agree {line : Str} (h : line.length < pathMax) :
    match scanBacktraceRecord w line with
    | some (addr, name) =>
        scanBacktraceIndex w line = some addr ∧ scanAddressLine w line = some (addr, name)
    | none => scanBacktraceIndex w line = none := by
  cases line with
  | nil => rfl
  | cons c text =>
    have hlen : text.length < pathMax := lt_of_lt_of_le (Nat.lt_succ_self _) h.le
    have hchar : scanConv (w := w) .char (c :: text) = .ok (.char c) text := rfl
    have hrecord : sscanf w backtraceLineFormat (c :: text)
        = (sscanf w (.lit '0' :: .lit 'x' :: .conv .hexLong :: nameFormat) text).map
            fun r => { r with values := .char c :: r.values } := sscanf_conv hchar
    have hindex : sscanf w backtraceIndexFormat (c :: text)
        = (sscanf w (.lit '0' :: .lit 'x' :: .conv .hexLong :: []) text).map
            fun r => { r with values := .char c :: r.values } := sscanf_conv hchar
    rcases sscanf_address (w := w) text with ⟨addr, rest, hrest, hskip, hscan⟩ | hnone
    · obtain ⟨r, hr, hvalues⟩ := sscanf_name (w := w) (lt_of_le_of_lt hrest hlen)
      have hindexed : (sscanf w backtraceIndexFormat (c :: text)).map ScanResult.values
          = some [.char c, .long addr] := by
        rw [hindex, hscan, sscanf_nil]
        rfl
      have hrecorded : (sscanf w backtraceLineFormat (c :: text)).map ScanResult.values
          = some (.char c :: .long addr :: r.values) := by
        rw [hrecord, hscan, hr]
        rfl
      by_cases hc : c = '\t'
      · subst hc
        have haddress : (sscanf w addressLineFormat ('\t' :: text)).map ScanResult.values
            = some (.long addr :: r.values) := by
          have hblank : skipSpace ('\t' :: text) = skipSpace text := rfl
          have hformat : addressLineFormat
              = .space :: .lit '0' :: .lit 'x' :: .conv .hexLong :: nameFormat := rfl
          rw [hformat, sscanf_space, hblank, hskip, hscan, hr]
          rfl
        rcases hvalues with hv | ⟨name, hv, -⟩
        · rw [hv] at hrecorded haddress
          simp [scanBacktraceRecord, scanBacktraceIndex, scanAddressLine, hrecorded, hindexed,
            haddress]
        · rw [hv] at hrecorded haddress
          simp [scanBacktraceRecord, scanBacktraceIndex, scanAddressLine, hrecorded, hindexed,
            haddress]
      · have hno : scanBacktraceRecord w (c :: text) = none := by
          rcases hvalues with hv | ⟨name, hv, -⟩ <;>
            simp [scanBacktraceRecord, hrecorded, hv, hc]
        rw [hno]
        simp [scanBacktraceIndex, hindexed, hc]
    · obtain ⟨r, hr, hv⟩ := hnone nameFormat
      obtain ⟨r', hr', hv'⟩ := hnone []
      have hno : scanBacktraceRecord w (c :: text) = none := by
        simp [scanBacktraceRecord, hrecord, hr, hv]
      rw [hno]
      simp [scanBacktraceIndex, hindex, hr', hv']

/-! ## Answers -/

/-- What a backtrace line is replaced by. -/
def answer (opts : ResolveOptions) (sym : Symbols w) (mmaps : SmallArray (RsMmap w)) (addr : BitVec w)
    (name : Str) : Option Str :=
  if name ≠ [] ∧ opts.keepResolved then keepName opts addr name
  else some (resolveName opts sym mmaps addr)

/-- The cache holds what its addresses resolve to. -/
def Coherent (opts : ResolveOptions) (sym : Symbols w) (mmaps : SmallArray (RsMmap w))
    (cache : Option (NameCache w)) : Prop :=
  ∀ c, cache = some c → ∀ i, (c i).addr ≠ 0 →
    (c i).name = some (resolveName opts sym mmaps (c i).addr)

theorem coherent_alloc (mmaps : SmallArray (RsMmap w)) :
    Coherent opts sym mmaps (some namecacheAlloc) := by
  intro c hc i hi
  rw [← Option.some.inj hc] at hi
  exact absurd rfl hi

/-- With the mappings fixed, an address has one answer, from the cache or
not. -/
theorem rsResolveAddress_answer {mmaps : SmallArray (RsMmap w)} {cache : Option (NameCache w)}
    (hc : Coherent opts sym mmaps cache) {addr : BitVec w} {name text : Str}
    (haddr : (name ≠ [] ∧ opts.keepResolved) ∨ addr ≠ 0)
    (h : answer opts sym mmaps addr name = some text) :
    ∃ cache', rsResolveAddress opts sym mmaps cache addr name = (.name text, cache') ∧
      Coherent opts sym mmaps cache' := by
  unfold answer at h
  unfold rsResolveAddress
  by_cases hkept : name ≠ [] ∧ opts.keepResolved
  · rw [if_pos hkept] at h
    rw [if_pos hkept, h]
    exact ⟨cache, rfl, hc⟩
  · rw [if_neg hkept, Option.some.injEq] at h
    have hne : addr ≠ 0 := haddr.resolve_left hkept
    rw [if_neg hkept]
    cases cache with
    | none =>
      refine ⟨none, ?_, fun c hc' => absurd hc' (by simp)⟩
      rw [← h]
      rfl
    | some c =>
      rw [Option.bind_some]
      cases hget : namecacheGetData c addr with
      | some nc =>
        obtain ⟨i, -, hi⟩ := List.mem_map.mp (List.mem_of_find?_eq_some hget)
        have hsame : nc.addr = addr := by simpa using List.find?_some hget
        have hname : nc.name = some text := by
          have := hc c rfl (calcHash addr + i) (by rw [hi, hsame]; exact hne)
          rw [hi, hsame, h] at this
          exact this
        refine ⟨some c, ?_, hc⟩
        simp only [hname]
      | none =>
        refine ⟨_, by rw [← h], ?_⟩
        intro c' hc' i hi
        obtain rfl := Option.some.inj hc'
        simp only [namecacheAdd, Function.update_apply] at hi ⊢
        by_cases hslot : i = c.freeSlot addr
        · rw [if_pos hslot]
        · rw [if_neg hslot] at hi ⊢
          exact hc c rfl i hi

/-- What the default mode writes for a line, with the mappings fixed. -/
def answerLine (opts : ResolveOptions) (sym : Symbols w) (mmaps : SmallArray (RsMmap w)) (line : Str) :
    Str :=
  match scanBacktraceRecord w line with
  | some (addr, name) => (answer opts sym mmaps addr name).getD line
  | none => line

/-- A backtrace line has an answer: the address is not 0 or its name is
kept, and the answer is a line that starts with a tab. -/
def Answerable (opts : ResolveOptions) (sym : Symbols w) (mmaps : SmallArray (RsMmap w)) (line : Str) :
    Prop :=
  ∀ addr name, scanBacktraceRecord w line = some (addr, name) →
    ((name ≠ [] ∧ opts.keepResolved) ∨ addr ≠ 0) ∧
      ∃ text, answer opts sym mmaps addr name = some text ∧ IsLine 4095 text ∧
        text.head? = some '\t'

/-! ## The default mode on a log -/

/-- The mappings that some lines of a log add; `none` where the program
ends. -/
def logMaps (opts : ResolveOptions) (sym : Symbols w) (maps : RsMaps w) (lines : List Str) :
    Option (RsMaps w) :=
  lines.foldlM (fun maps line => (scanMmapRecord w line).elim (some maps) (maps.add opts sym)) maps

/-- A line before the first backtrace is copied. -/
theorem resolveLine_record {line : Str} (h : scanBacktraceRecord w line = none) (maps : RsMaps w)
    (cache : Option (NameCache w)) :
    resolveLine opts sym { maps, cache } line
      = ((scanMmapRecord w line).elim (some maps) (maps.add opts sym)).map
          fun maps => (line, { maps, cache }) := by
  cases hmmap : scanMmapRecord w line with
  | some record => exact resolveLine_mmap hmmap _
  | none => exact resolveLine_other hmmap h _

/-- So are all of them, if the program goes on. -/
theorem resolveLines_records {pre : List Str}
    (hpre : ∀ line ∈ pre, scanBacktraceRecord w line = none) (post : List Str)
    {maps maps' : RsMaps w} (hmaps : logMaps opts sym maps pre = some maps')
    (cache : Option (NameCache w)) :
    resolveLines opts sym { maps, cache } (pre ++ post) =
      let rest := resolveLines opts sym { maps := maps', cache } post
      { rest with puts := pre ++ rest.puts } := by
  induction pre generalizing maps with
  | nil =>
    obtain rfl := Option.some.inj hmaps
    rfl
  | cons line pre ih =>
    rw [logMaps, List.foldlM_cons, Option.bind_eq_bind, Option.bind_eq_some_iff] at hmaps
    obtain ⟨maps₁, hadd, hrest⟩ := hmaps
    have hline : resolveLine opts sym { maps, cache } line = _ :=
      resolveLine_record (hpre line (List.mem_cons_self ..)) maps cache
    rw [hadd, Option.map_some] at hline
    rw [List.cons_append, resolveLines_some _ hline,
      ih (fun l hl => hpre l (List.mem_cons_of_mem _ hl)) hrest]
    rfl

/-- The first line of a log does not end the program. -/
theorem RsMaps.add_init (record : Str × BitVec w × BitVec w) :
    ∃ maps, RsMaps.init.add opts sym record = some maps := by
  cases habs : sym.isAbsolute (rsHostPath opts record.1) with
  | none => exact ⟨.init, by simp [RsMaps.add, rsMmapAddModule, habs]⟩
  | some isAbsolute =>
    obtain ⟨maps, hadd, -⟩ := rsMmapAddModule_init habs record.2.1 record.2.2
    exact ⟨maps, by simp [RsMaps.add, hadd]⟩

/-- Where the mappings are too many, some lines were copied. -/
theorem resolveLines_exit {pre post : List Str}
    (hpre : ∀ line ∈ pre, scanBacktraceRecord w line = none)
    (hmaps : logMaps opts sym .init pre = none) (cache : Option (NameCache w)) :
    ∃ line ∈ pre, line ∈ (resolveLines opts sym { maps := .init, cache } (pre ++ post)).puts := by
  cases pre with
  | nil => exact absurd hmaps (by simp [logMaps])
  | cons line pre =>
    have hline : resolveLine opts sym { maps := .init, cache } line = _ :=
      resolveLine_record (hpre line (List.mem_cons_self ..)) .init cache
    obtain ⟨maps, hadd⟩ : ∃ maps, (scanMmapRecord w line).elim (some RsMaps.init)
        (RsMaps.init.add opts sym) = some maps := by
      cases scanMmapRecord w line with
      | none => exact ⟨_, rfl⟩
      | some record => exact RsMaps.add_init record
    rw [hadd, Option.map_some] at hline
    refine ⟨line, List.mem_cons_self .., ?_⟩
    rw [List.cons_append, resolveLines_some _ hline]
    exact List.mem_cons_self ..

/-- Behind the mappings every line is answered. -/
theorem resolveLines_backtraces {maps : RsMaps w} {post : List Str}
    (hmmap : ∀ line ∈ post, scanMmapRecord w line = none)
    (hans : ∀ line ∈ post, Answerable opts sym maps.mmaps line) {cache : Option (NameCache w)}
    (hc : Coherent opts sym maps.mmaps cache) :
    resolveLines opts sym { maps, cache } post
      = { puts := post.map (answerLine opts sym maps.mmaps), fault := false } := by
  induction post generalizing cache with
  | nil => rfl
  | cons line post ih =>
    obtain ⟨cache', hline, hc'⟩ : ∃ cache', resolveLine opts sym { maps, cache } line
        = some (answerLine opts sym maps.mmaps line, { maps, cache := cache' }) ∧
        Coherent opts sym maps.mmaps cache' := by
      have hno := hmmap line (List.mem_cons_self ..)
      cases hback : scanBacktraceRecord w line with
      | none =>
        rw [resolveLine_other hno hback, answerLine, hback]
        exact ⟨cache, rfl, hc⟩
      | some entry =>
        obtain ⟨addr, name⟩ := entry
        obtain ⟨haddr, text, htext, -, -⟩ := hans line (List.mem_cons_self ..) addr name hback
        obtain ⟨cache', hresolve, hc'⟩ := rsResolveAddress_answer hc haddr htext
        refine ⟨cache', ?_, hc'⟩
        rw [resolveLine, hno, hback, answerLine, hback]
        simp only [hresolve, htext, Option.getD_some]
    have hrest := ih (fun l hl => hmmap l (List.mem_cons_of_mem _ hl))
      (fun l hl => hans l (List.mem_cons_of_mem _ hl)) hc'
    rw [resolveLines_some _ hline, hrest]
    rfl

/-! ## The index and the address files -/

/-- The mapping of a backtrace line has the id. -/
def goesTo (mmaps : SmallArray (RsMmap w)) (id : Nat) (line : Str) : Bool :=
  (parseBacktraceIndex line mmaps).any (·.id = id)

/-- What stands in the index for a line. -/
def indexOut (mmaps : SmallArray (RsMmap w)) (line : Str) : Str :=
  match parseBacktraceIndex line mmaps with
  | some map => marker map.id
  | none => line

theorem indexLines_records {pre : List Str}
    (hpre : ∀ line ∈ pre, scanBacktraceIndex w line = none) (st : IndexState w) :
    pre.foldlM (indexLine opts sym) st = (logMaps opts sym st.maps pre).map fun maps =>
      { st with maps, index := st.index ++ pre.flatten } := by
  induction pre generalizing st with
  | nil => simp [logMaps]
  | cons line pre ih =>
    have hline : indexLine opts sym st line =
        ((scanMmapRecord w line).elim (some st.maps) (st.maps.add opts sym)).map fun maps =>
          { st with maps, index := st.index ++ line } := by
      unfold indexLine
      cases hmmap : scanMmapRecord w line with
      | some record =>
        simp only [Option.elim_some, RsMaps.add]
        cases rsMmapAddModule sym st.maps (rsHostPath opts record.1) record.2.1 record.2.2 <;> rfl
      | none => simp only [parseBacktraceIndex, hpre line (List.mem_cons_self ..)]; rfl
    rw [List.foldlM_cons, hline, logMaps, List.foldlM_cons]
    cases (scanMmapRecord w line).elim (some st.maps) (st.maps.add opts sym) with
    | none => rfl
    | some maps =>
      simp only [Option.map_some, Option.bind_eq_bind, Option.bind_some]
      rw [ih fun l hl => hpre l (List.mem_cons_of_mem _ hl)]
      simp [logMaps]

theorem indexLines_backtraces {post : List Str}
    (hpost : ∀ line ∈ post, scanMmapRecord w line = none) (st : IndexState w) :
    post.foldlM (indexLine opts sym) st = some
      { st with
        fins := fun id => st.fins id ++ (post.filter (goesTo st.maps.mmaps id)).flatten
        index := st.index ++ (post.map (indexOut st.maps.mmaps)).flatten } := by
  induction post generalizing st with
  | nil => simp
  | cons line post ih =>
    have hline : indexLine opts sym st line = some
        { st with
          fins := fun id => st.fins id ++ if goesTo st.maps.mmaps id line then line else []
          index := st.index ++ indexOut st.maps.mmaps line } := by
      unfold indexLine goesTo indexOut
      rw [hpost line (List.mem_cons_self ..)]
      cases hmap : parseBacktraceIndex line st.maps.mmaps with
      | none => simp
      | some map =>
        simp only [Option.any_some]
        congr 2
        funext id
        rw [Function.update_apply]
        by_cases hid : id = map.id
        · rw [if_pos hid, hid]
          simp
        · rw [if_neg hid]
          simp [Ne.symm hid]
    rw [List.foldlM_cons, hline, Option.bind_eq_bind, Option.bind_some,
      ih fun l hl => hpost l (List.mem_cons_of_mem _ hl)]
    congr 2
    · funext id
      simp only
      cases hgoes : goesTo st.maps.mmaps id line with
      | false => rw [List.filter_cons_of_neg (by simp [hgoes])]; simp
      | true => rw [List.filter_cons_of_pos hgoes]; simp
    · simp

/-! ## The address files -/

/-- A file of backtrace lines is resolved line by line. -/
theorem mmapResolveLines_answers {mmaps : SmallArray (RsMmap w)} {lines : List Str}
    (hlen : ∀ line ∈ lines, line.length < pathMax)
    (hback : ∀ line ∈ lines, scanBacktraceIndex w line ≠ none)
    (hans : ∀ line ∈ lines, Answerable opts sym mmaps line) {cache : Option (NameCache w)}
    (hc : Coherent opts sym mmaps cache) (acc : Str) :
    ∃ cache', lines.foldlM (resolveAddressLine opts sym mmaps) (acc, cache)
        = some (acc ++ (lines.map (answerLine opts sym mmaps)).flatten, cache') ∧
      Coherent opts sym mmaps cache' := by
  induction lines generalizing cache acc with
  | nil => exact ⟨cache, by simp, hc⟩
  | cons line lines ih =>
    obtain ⟨addr, name, hrecord, hread⟩ : ∃ addr name,
        scanBacktraceRecord w line = some (addr, name) ∧
          scanAddressLine w line = some (addr, name) := by
      have hagree := scans_agree (w := w) (hlen line (List.mem_cons_self ..))
      cases hrecord : scanBacktraceRecord w line with
      | none =>
        rw [hrecord] at hagree
        exact absurd hagree (hback line (List.mem_cons_self ..))
      | some entry =>
        rw [hrecord] at hagree
        exact ⟨entry.1, entry.2, rfl, hagree.2⟩
    obtain ⟨haddr, text, htext, -, -⟩ := hans line (List.mem_cons_self ..) addr name hrecord
    obtain ⟨cache', hresolve, hc'⟩ := rsResolveAddress_answer hc haddr htext
    have hline : resolveAddressLine opts sym mmaps (acc, cache) line
        = some (acc ++ answerLine opts sym mmaps line, cache') := by
      rw [resolveAddressLine, hread, answerLine, hrecord]
      simp only [hresolve, htext, Option.getD_some]
    obtain ⟨cache'', hrest, hc''⟩ := ih (fun l hl => hlen l (List.mem_cons_of_mem _ hl))
      (fun l hl => hback l (List.mem_cons_of_mem _ hl))
      (fun l hl => hans l (List.mem_cons_of_mem _ hl)) hc' (acc ++ answerLine opts sym mmaps line)
    refine ⟨cache'', ?_, hc''⟩
    rw [List.foldlM_cons, hline]
    simpa using hrest

/-- The resolved file of a mapping: an answer for each of its lines. -/
def answersOf (opts : ResolveOptions) (sym : Symbols w) (mmaps : SmallArray (RsMmap w))
    (lines : List Str) (id : Nat) : List Str :=
  (lines.filter (goesTo mmaps id)).map (answerLine opts sym mmaps)

/-- Where a line goes to an address file it is a backtrace line. -/
theorem goesTo_backtrace {mmaps : SmallArray (RsMmap w)} {id : Nat} {line : Str}
    (h : goesTo mmaps id line = true) : scanBacktraceIndex w line ≠ none := by
  intro hnone
  rw [goesTo, parseBacktraceIndex, hnone] at h
  exact absurd h (by simp)

theorem goesTo_mem {mmaps : SmallArray (RsMmap w)} {id : Nat} {line : Str}
    (h : goesTo mmaps id line = true) : id ∈ mmaps.items.map RsMmap.id := by
  unfold goesTo parseBacktraceIndex at h
  rw [Option.any_eq_true] at h
  obtain ⟨map, hmap, hid⟩ := h
  obtain ⟨addr, -, hfind⟩ := Option.bind_eq_some_iff.mp hmap
  exact List.mem_map.mpr ⟨map, rsMmapFindModule_mem hfind, by simpa using hid⟩

/-- Every address file is read back as the lines that were put into it. -/
theorem resolveFiles_answers {mmaps : SmallArray (RsMmap w)} {lines : List Str}
    (hchunks : IsChunks 4095 lines) (hlen : ∀ line ∈ lines, line.length < pathMax)
    (hans : ∀ line ∈ lines, Answerable opts sym mmaps line) (todo : List (RsMmap w))
    (fouts : Nat → Str) {cache : Option (NameCache w)} (hc : Coherent opts sym mmaps cache) :
    ∃ fouts' cache', todo.foldlM
        (fun (fouts, cache) map => do
          let (fout, cache) ← mmapResolveAddressFile opts sym mmaps
            (lines.filter (goesTo mmaps map.id)).flatten cache
          some (Function.update fouts map.id fout, cache))
        (fouts, cache) = some (fouts', cache') ∧
      ∀ id, fouts' id = if id ∈ todo.map RsMmap.id
        then (answersOf opts sym mmaps lines id).flatten else fouts id := by
  induction todo generalizing fouts cache with
  | nil => exact ⟨fouts, cache, rfl, fun id => by simp⟩
  | cons map todo ih =>
    have hsub : (lines.filter (goesTo mmaps map.id)).Sublist lines := List.filter_sublist
    obtain ⟨cache', hfile, hc'⟩ := mmapResolveLines_answers
      (fun l hl => hlen l (hsub.subset hl))
      (fun l hl => goesTo_backtrace (List.mem_filter.mp hl).2)
      (fun l hl => hans l (hsub.subset hl)) hc []
    have hread : mmapResolveAddressFile opts sym mmaps
        (lines.filter (goesTo mmaps map.id)).flatten cache
          = some ((answersOf opts sym mmaps lines map.id).flatten, cache') := by
      rw [mmapResolveAddressFile, fgetsLines_chunks (by decide) (hchunks.sublist hsub), hfile]
      rfl
    obtain ⟨fouts', cache'', hrest, hfouts⟩ := ih
      (Function.update fouts map.id (answersOf opts sym mmaps lines map.id).flatten) hc'
    refine ⟨fouts', cache'', ?_, fun id => ?_⟩
    · rw [List.foldlM_cons]
      simp only [hread]
      exact hrest
    · rw [hfouts id, Function.update_apply]
      by_cases hid : id = map.id
      · simp [hid]
      · simp [hid]

/-! ## Markers -/

/-- A marker starts with its sign. -/
theorem scanMarker_head {line : Str} (h : scanMarker w line ≠ none) : line.head? = some '^' := by
  cases line with
  | nil => exact absurd rfl h
  | cons c text =>
    by_cases hc : '^' = c
    · rw [← hc]
      rfl
    · refine absurd ?_ h
      rw [scanMarker, markerFormat, sscanf_lit_ne hc]
      rfl

theorem scanMarker_marker (hw : 32 ≤ w) {id : Nat} (h : id < 2 ^ 31) :
    scanMarker w (marker id) = some (BitVec.ofNat 32 id) := by
  have hconv : scanConv (w := w) .dec (printNat 10 id ++ ['\n'])
      = .ok (.int (BitVec.ofNat 32 id)) ['\n'] :=
    scanConv_dec_run hw (printNat_ne_nil 10 id)
      (fun c hc => isDigitOf_of_mem_printNat (by decide) (by decide) id c hc)
      (digitsValue_printNat (by decide) (by decide) id) h (by rw [stops_cons]; decide)
  rw [scanMarker, markerFormat, marker, sscanf_lit, sscanf_conv hconv]
  rfl

/-- A backtrace line starts with a tab. -/
theorem scanBacktraceRecord_head {line : Str} (h : scanBacktraceRecord w line ≠ none) :
    line.head? = some '\t' := by
  cases line with
  | nil => exact absurd rfl h
  | cons c text =>
    have hchar : scanConv (w := w) .char (c :: text) = .ok (.char c) text := rfl
    rw [scanBacktraceRecord, backtraceLineFormat, sscanf_conv hchar, Option.map_map] at h
    split at h
    next heq =>
      obtain ⟨r, -, hr⟩ := Option.map_eq_some_iff.mp heq
      rw [(ScanArg.char.inj (List.cons.inj hr).1 : c = '\t')]
      rfl
    next heq =>
      obtain ⟨r, -, hr⟩ := Option.map_eq_some_iff.mp heq
      rw [(ScanArg.char.inj (List.cons.inj hr).1 : c = '\t')]
      rfl
    · exact absurd rfl h

theorem marker_isLine {id : Nat} (h : id < 2 ^ 31) : IsLine 4095 (marker id) := by
  refine ⟨'^' :: printNat 10 id, rfl, ?_, ?_⟩
  · intro hmem
    rcases List.mem_cons.mp hmem with hmem | hmem
    · exact absurd hmem (by decide)
    · exact absurd (isDigitOf_of_mem_printNat (by decide) (by decide) id _ hmem) (by decide)
  · have hdigits : (printNat 10 id).length ≤ 10 := (Nat.length_toDigits_le_iff (by decide) (by decide)).mpr
      (lt_trans h (by decide))
    simp only [marker, List.length_cons, List.length_append, List.length_nil]
    omega

/-! ## Assembling -/

theorem RsMaps.id_lt {maps : RsMaps w} {map : RsMmap w} (hmap : map ∈ maps.mmaps.items) :
    map.id < 2 ^ 31 := by
  obtain ⟨hpos, hget⟩ := maps.indexed map hmap
  obtain ⟨hlt, -⟩ := List.getElem?_eq_some_iff.mp hget
  have := maps.count
  omega

/-- The marker of a mapping is followed back to it. -/
theorem RsMaps.lookup {maps : RsMaps w} {map : RsMmap w} (hmap : map ∈ maps.mmaps.items) :
    (if (BitVec.ofNat 32 map.id).toInt ≤ 0 then none
      else maps.mmapsIndex[(BitVec.ofNat 32 map.id).toNat - 1]?) = some map := by
  obtain ⟨hpos, hget⟩ := maps.indexed map hmap
  have hlt := RsMaps.id_lt hmap
  have hnat : (BitVec.ofNat 32 map.id).toNat = map.id := by
    rw [BitVec.toNat_ofNat]
    exact Nat.mod_eq_of_lt (by omega)
  have hint : (BitVec.ofNat 32 map.id).toInt = map.id := by
    rw [BitVec.toInt_eq_toNat_of_lt (by rw [hnat]; omega), hnat]
  rw [hint, hnat, if_neg (by omega), hget]

theorem parseBacktraceIndex_mem {mmaps : SmallArray (RsMmap w)} {line : Str} {map : RsMmap w}
    (h : parseBacktraceIndex line mmaps = some map) : map ∈ mmaps.items := by
  obtain ⟨addr, -, hfind⟩ := Option.bind_eq_some_iff.mp h
  exact rsMmapFindModule_mem hfind

/-- **Every marker gets its answer**: where the lines of the resolved files
not read yet are the answers for the lines still to come, the output is
what the default mode writes. -/
theorem assembleLines_log (hw : 32 ≤ w) {maps : RsMaps w} {lines : List Str}
    (hplain : ∀ line ∈ lines, parseBacktraceIndex line maps.mmaps = none →
      scanMarker w line = none ∧ answerLine opts sym maps.mmaps line = line)
    {fouts : Nat → List Str} (hfouts : fouts = answersOf opts sym maps.mmaps lines) :
    assembleLines w maps.mmapsIndex fouts (lines.map (indexOut maps.mmaps))
      = { puts := lines.map (answerLine opts sym maps.mmaps), fault := false } := by
  induction lines generalizing fouts with
  | nil => rfl
  | cons line lines ih =>
    have hrest : ∀ l ∈ lines, parseBacktraceIndex l maps.mmaps = none →
        scanMarker w l = none ∧ answerLine opts sym maps.mmaps l = l :=
      fun l hl => hplain l (List.mem_cons_of_mem _ hl)
    rw [List.map_cons, assembleLines]
    cases hmap : parseBacktraceIndex line maps.mmaps with
    | none =>
      -- the line is copied, and no file is read
      obtain ⟨hmarker, hsame⟩ := hplain line (List.mem_cons_self ..) hmap
      have hindex : indexOut maps.mmaps line = line := by rw [indexOut, hmap]
      have hkeep : fouts = answersOf opts sym maps.mmaps lines := by
        rw [hfouts]
        funext id
        have hstays : goesTo maps.mmaps id line = false := by rw [goesTo, hmap]; rfl
        rw [answersOf, answersOf, List.filter_cons_of_neg (by simp [hstays])]
      rw [hindex, hmarker]
      simp only [ih hrest hkeep, List.map_cons, hsame]
    | some map =>
      have hmem := parseBacktraceIndex_mem hmap
      have hgoes : ∀ id, goesTo maps.mmaps id line = decide (map.id = id) := fun id => by
        rw [goesTo, hmap]
        rfl
      have hindex : indexOut maps.mmaps line = marker map.id := by rw [indexOut, hmap]
      have hfile : fouts map.id = answerLine opts sym maps.mmaps line ::
          answersOf opts sym maps.mmaps lines map.id := by
        rw [hfouts, answersOf, List.filter_cons_of_pos (by simp [hgoes])]
        rfl
      have hread : Function.update fouts map.id (answersOf opts sym maps.mmaps lines map.id)
          = answersOf opts sym maps.mmaps lines := by
        funext id
        rw [Function.update_apply]
        by_cases hid : id = map.id
        · rw [if_pos hid, hid]
        · rw [if_neg hid, hfouts, answersOf, answersOf,
            List.filter_cons_of_neg (by simp [hgoes, Ne.symm hid])]
      rw [hindex, scanMarker_marker hw (RsMaps.id_lt hmem)]
      simp only [RsMaps.lookup hmem, hfile, hread, ih hrest rfl, List.map_cons]

/-- Only the lines outside of the mappings can go wrong, and they do when
they are taken for a marker or are not what the default mode prints. -/
theorem assembleLines_only {maps : RsMaps w} {lines : List Str} {fouts : Nat → List Str}
    (hfouts : ∀ id, ∀ out ∈ fouts id, out.head? = some '\t')
    (h : assembleLines w maps.mmapsIndex fouts (lines.map (indexOut maps.mmaps))
      = { puts := lines.map (answerLine opts sym maps.mmaps), fault := false }) :
    ∀ line ∈ lines, parseBacktraceIndex line maps.mmaps = none →
      scanMarker w line = none ∧ answerLine opts sym maps.mmaps line = line := by
  induction lines generalizing fouts with
  | nil => exact fun line hline => absurd hline (List.not_mem_nil)
  | cons line lines ih =>
    rw [List.map_cons, assembleLines] at h
    cases hmarker : scanMarker w (indexOut maps.mmaps line) with
    | none =>
      rw [hmarker] at h
      simp only [Written.mk.injEq, List.map_cons, List.cons.injEq] at h
      obtain ⟨⟨hline, hputs⟩, hfault⟩ := h
      have hrest := ih hfouts (by rw [← hputs, ← hfault])
      intro l hl hnone
      rcases List.mem_cons.mp hl with rfl | hl
      · have hindex : indexOut maps.mmaps l = l := by rw [indexOut, hnone]
        rw [hindex] at hmarker hline
        exact ⟨hmarker, hline.symm⟩
      · exact hrest l hl hnone
    | some idx =>
      rw [hmarker] at h
      simp only at h
      split at h
      · exact absurd (congrArg Written.fault h) (by simp)
      next map hmap =>
        split at h
        · exact absurd (congrArg Written.fault h) (by simp)
        next out outs hfile =>
          simp only [Written.mk.injEq, List.map_cons, List.cons.injEq] at h
          obtain ⟨⟨hline, hputs⟩, hfault⟩ := h
          have houts : ∀ id, ∀ o ∈ Function.update fouts map.id outs id, o.head? = some '\t' := by
            intro id o ho
            rw [Function.update_apply] at ho
            split at ho
            · exact hfouts map.id o (by rw [hfile]; exact List.mem_cons_of_mem _ ho)
            · exact hfouts id o ho
          have hrest := ih houts (by rw [← hputs, ← hfault])
          intro l hl hnone
          rcases List.mem_cons.mp hl with rfl | hl
          · -- an answer starts with a tab, a line that is taken for a marker does not
            have hindex : indexOut maps.mmaps l = l := by rw [indexOut, hnone]
            rw [hindex] at hmarker
            have hhead := scanMarker_head (show scanMarker w l ≠ none by rw [hmarker]; simp)
            have hno : scanBacktraceRecord w l = none := by
              by_contra hsome
              have := scanBacktraceRecord_head hsome
              rw [hhead] at this
              exact absurd this (by decide)
            have htab := hfouts map.id out (by rw [hfile]; exact List.mem_cons_self ..)
            rw [hline, answerLine, hno] at htab
            rw [hhead] at htab
            exact absurd htab (by decide)
          · exact hrest l hl hnone

/-- The assembled output comes in chunks, as the index and the files do. -/
theorem assembleLines_isChunks {mmapsIndex : List (RsMmap w)} {lines : List Str}
    (hlines : IsChunks 4095 lines) {fouts : Nat → List Str}
    (hfouts : ∀ id, ∀ out ∈ fouts id, IsChunk 4095 out) :
    IsChunks 4095 (assembleLines w mmapsIndex fouts lines).puts := by
  induction lines generalizing fouts with
  | nil => trivial
  | cons line lines ih =>
    obtain ⟨hline, hlines⟩ := hlines
    rw [assembleLines]
    split
    · refine ⟨?_, ih hlines hfouts⟩
      rcases hline with hchunk | ⟨hpart, rfl⟩
      · exact Or.inl hchunk
      · exact Or.inr ⟨hpart, rfl⟩
    · split
      · trivial
      next map hmap =>
        split
        · trivial
        next out outs hfile =>
          refine ⟨Or.inl (hfouts map.id out (by rw [hfile]; exact List.mem_cons_self ..)),
            ih hlines fun id o ho => ?_⟩
          rw [Function.update_apply] at ho
          split at ho
          · exact hfouts map.id o (by rw [hfile]; exact List.mem_cons_of_mem _ ho)
          · exact hfouts id o ho

/-! ## The two modes -/

/-- A log with its memory mapping records before its backtraces. -/
structure LogForm (w : Nat) (text : Str) (pre post : List Str) : Prop where
  lines : fgetsLines 4096 text = pre ++ post
  records : ∀ line ∈ pre, scanBacktraceRecord w line = none
  backtraces : ∀ line ∈ post, scanMmapRecord w line = none

/-- What the default mode writes for an address outside of the mappings. -/
def unmappedName (opts : ResolveOptions) (addr : BitVec w) (name : Str) : Option Str :=
  if name ≠ [] ∧ opts.keepResolved then keepName opts addr name
  else some (printAddress addr "in ??\n".toList)

/-- What the multi-pass mode needs of the lines of a log. -/
structure MultiPassFits (opts : ResolveOptions) (sym : Symbols w) (maps : RsMaps w)
    (lines : List Str) : Prop where
  /-- every backtrace line has an answer -/
  answers : ∀ line ∈ lines, Answerable opts sym maps.mmaps line
  /-- no two mappings use one address file -/
  files : ∀ map1 ∈ maps.mmapsIndex, ∀ map2 ∈ maps.mmapsIndex, map1.id ≠ map2.id →
    map1.fileName = map2.fileName → ∀ line1 ∈ lines, ∀ line2 ∈ lines,
      ¬ (goesTo maps.mmaps map1.id line1 ∧ goesTo maps.mmaps map2.id line2)
  /-- no line looks like a marker -/
  markers : ∀ line ∈ lines, scanMarker w line = none
  /-- a backtrace line outside of the mappings reads as it is written -/
  unmapped : ∀ line ∈ lines, ∀ addr name, scanBacktraceRecord w line = some (addr, name) →
    rsMmapFindModule maps.mmaps addr = none → unmappedName opts addr name = some line

/-- Two mappings with one address file are given backtrace lines. -/
def FileClash (maps : RsMaps w) (lines : List Str) : Prop :=
  ∃ map1 ∈ maps.mmapsIndex, ∃ map2 ∈ maps.mmapsIndex, map1.id ≠ map2.id ∧
    map1.fileName = map2.fileName ∧ (lines.filter (goesTo maps.mmaps map1.id)).flatten ≠ [] ∧
      (lines.filter (goesTo maps.mmaps map2.id)).flatten ≠ []

/-- The bytes that were written, and how the program ended. -/
def Written.output (out : Written) : Str × Bool := (out.puts.flatten, out.fault)

theorem isChunks_length {limit : Nat} {lines : List Str} (h : IsChunks limit lines) :
    ∀ line ∈ lines, line.length ≤ limit := by
  induction lines with
  | nil => exact fun line hline => absurd hline (List.not_mem_nil)
  | cons l lines ih =>
    intro line hline
    rcases List.mem_cons.mp hline with rfl | hline
    · rcases h.1 with (⟨body, -, -, hle⟩ | ⟨hlen, -⟩) | ⟨⟨-, hlt, -⟩, -⟩
      · exact hle
      · exact hlen.le
      · exact hlt.le
    · exact ih h.2 line hline

theorem isChunks_ne {limit : Nat} (hlimit : 0 < limit) {lines : List Str}
    (h : IsChunks limit lines) : ∀ line ∈ lines, line ≠ [] := by
  induction lines with
  | nil => exact fun line hline => absurd hline (List.not_mem_nil)
  | cons l lines ih =>
    intro line hline
    rcases List.mem_cons.mp hline with rfl | hline
    · rintro rfl
      rcases h.1 with (⟨body, hbody, -⟩ | ⟨hlen, -⟩) | ⟨⟨hne, -⟩, -⟩
      · exact absurd hbody (by simp)
      · exact absurd hlen (Nat.ne_of_lt hlimit)
      · exact absurd rfl hne
    · exact ih h.2 line hline

theorem scanBacktraceIndex_none {line : Str} (hlen : line.length < pathMax)
    (h : scanBacktraceRecord w line = none) : scanBacktraceIndex w line = none := by
  have hagree := scans_agree (w := w) hlen
  rw [h] at hagree
  exact hagree

/-- The first step on a log. -/
theorem indexLines_log {text : Str} {pre post : List Str} (hlog : LogForm w text pre post)
    (hlen : ∀ line ∈ pre ++ post, line.length < pathMax) :
    indexLines opts sym (pre ++ post) = (logMaps opts sym .init pre).map fun maps =>
      { maps,
        fins := fun id => ((pre ++ post).filter (goesTo maps.mmaps id)).flatten
        index := ((pre ++ post).map (indexOut maps.mmaps)).flatten } := by
  have hpre : ∀ line ∈ pre, scanBacktraceIndex w line = none := fun line hline =>
    scanBacktraceIndex_none (hlen line (List.mem_append_left _ hline)) (hlog.records line hline)
  rw [indexLines, List.foldlM_append, indexLines_records hpre]
  cases logMaps opts sym .init pre with
  | none => rfl
  | some maps =>
    have hcopied : pre.map (indexOut maps.mmaps) = pre :=
      (List.map_congr_left fun line hline => by
        rw [indexOut, parseBacktraceIndex, hpre line hline]; rfl).trans (List.map_id pre)
    have hstays : ∀ id, pre.filter (goesTo maps.mmaps id) = [] := by
      intro id
      rw [List.filter_eq_nil_iff]
      intro line hline
      rw [goesTo, parseBacktraceIndex, hpre line hline]
      simp
    simp only [Option.map_some, Option.bind_eq_bind, Option.bind_some]
    rw [indexLines_backtraces hlog.backtraces]
    simp only [List.filter_append, hstays, List.map_append, hcopied, List.nil_append,
      List.flatten_append]

/-- A backtrace line stands for the mapping of its address. -/
theorem parseBacktraceIndex_find {line : Str} (hlen : line.length < pathMax) {addr : BitVec w}
    {name : Str} (h : scanBacktraceRecord w line = some (addr, name))
    (mmaps : SmallArray (RsMmap w)) :
    parseBacktraceIndex line mmaps = rsMmapFindModule mmaps addr := by
  have hagree := scans_agree (w := w) hlen
  rw [h] at hagree
  rw [parseBacktraceIndex, hagree.1]
  rfl

theorem scanBacktraceIndex_head {line : Str} (hlen : line.length < pathMax)
    (h : scanBacktraceIndex w line ≠ none) : line.head? = some '\t' :=
  scanBacktraceRecord_head fun hnone => h (scanBacktraceIndex_none hlen hnone)

/-- A line is kept, or replaced by a complete one. -/
theorem answerLine_chunk {mmaps : SmallArray (RsMmap w)} {line : Str}
    (h : Answerable opts sym mmaps line) :
    answerLine opts sym mmaps line = line ∨ IsChunk 4095 (answerLine opts sym mmaps line) := by
  unfold answerLine
  cases hrecord : scanBacktraceRecord w line with
  | none => exact Or.inl rfl
  | some entry =>
    obtain ⟨-, text, htext, hline, -⟩ := h entry.1 entry.2 hrecord
    simp only [htext, Option.getD_some]
    exact Or.inr (Or.inl hline)

/-- What goes to an address file is answered with a line. -/
theorem answersOf_lines {mmaps : SmallArray (RsMmap w)} {lines : List Str}
    (hlen : ∀ line ∈ lines, line.length < pathMax)
    (hans : ∀ line ∈ lines, Answerable opts sym mmaps line) {id : Nat} :
    ∀ out ∈ answersOf opts sym mmaps lines id, IsLine 4095 out ∧ out.head? = some '\t' := by
  intro out hout
  obtain ⟨line, hline, rfl⟩ := List.mem_map.mp hout
  obtain ⟨hmem, hgoes⟩ := List.mem_filter.mp hline
  unfold answerLine
  cases hrecord : scanBacktraceRecord w line with
  | none => exact absurd (scanBacktraceIndex_none (hlen line hmem) hrecord) (goesTo_backtrace hgoes)
  | some entry =>
    obtain ⟨-, text, htext, hans⟩ := hans line hmem entry.1 entry.2 hrecord
    simp only [htext, Option.getD_some]
    exact hans

/-- The index is read back line by line. -/
theorem indexOut_isChunks {maps : RsMaps w} {lines : List Str}
    (hchunks : IsChunks 4095 lines) : IsChunks 4095 (lines.map (indexOut maps.mmaps)) := by
  refine IsChunks.map (fun line _ => ?_) hchunks
  unfold indexOut
  cases hmap : parseBacktraceIndex line maps.mmaps with
  | none => exact Or.inl rfl
  | some map => exact Or.inr (Or.inl (marker_isLine (RsMaps.id_lt (parseBacktraceIndex_mem hmap))))

theorem LogForm.isChunks {text : Str} {pre post : List Str} (hlog : LogForm w text pre post) :
    IsChunks 4095 (pre ++ post) := by
  rw [← hlog.lines]
  exact @fgetsLines_isChunks 4096 (by decide) text

theorem LogForm.length {text : Str} {pre post : List Str} (hlog : LogForm w text pre post) :
    ∀ line ∈ pre ++ post, line.length < pathMax := fun line hline =>
  lt_of_le_of_lt (isChunks_length hlog.isChunks line hline) (by decide)

theorem LogForm.answerable {text : Str} {pre post : List Str} (hlog : LogForm w text pre post)
    {mmaps : SmallArray (RsMmap w)} (hans : ∀ line ∈ post, Answerable opts sym mmaps line) :
    ∀ line ∈ pre ++ post, Answerable opts sym mmaps line := by
  intro line hline addr name hrecord
  rcases List.mem_append.mp hline with hline | hline
  · exact absurd ((hlog.records line hline).symm.trans hrecord) (by simp)
  · exact hans line hline addr name hrecord

/-- What the second step leaves for the third one. -/
theorem resolveFiles_read {mmaps : SmallArray (RsMmap w)} {lines : List Str}
    (hchunks : IsChunks 4095 lines) (hlen : ∀ line ∈ lines, line.length < pathMax)
    (hans : ∀ line ∈ lines, Answerable opts sym mmaps line) :
    ∃ fouts cache, resolveFiles opts sym mmaps
        (fun id => (lines.filter (goesTo mmaps id)).flatten) (some namecacheAlloc)
          = some (fouts, cache) ∧
      (fun id => fgetsLines pathMax (fouts id)) = answersOf opts sym mmaps lines := by
  obtain ⟨fouts, cache, hfiles, hfouts⟩ := resolveFiles_answers hchunks hlen hans mmaps.items
    (fun _ => []) (coherent_alloc mmaps)
  refine ⟨fouts, cache, hfiles, ?_⟩
  funext id
  rw [hfouts id]
  by_cases hid : id ∈ mmaps.items.map RsMmap.id
  · rw [if_pos hid]
    exact fgetsLines_flatten fun out hout => (answersOf_lines hlen hans out hout).1
  · have hempty : lines.filter (goesTo mmaps id) = [] :=
      List.filter_eq_nil_iff.mpr fun line _ hgoes => hid (goesTo_mem hgoes)
    rw [if_neg hid, answersOf, hempty]
    rfl

/-- Two used streams on one file leave no result. -/
theorem doResolveMultiPass_clash {text : Str} {pre post : List Str}
    (hlog : LogForm w text pre post) {maps : RsMaps w}
    (hmaps : logMaps opts sym .init pre = some maps) (hclash : FileClash maps (pre ++ post)) :
    doResolveMultiPass opts sym (some namecacheAlloc) text = none := by
  rw [doResolveMultiPass, hlog.lines, multiPassLines, indexLines_log hlog hlog.length, hmaps]
  exact if_pos hclash

/-- The multi-pass mode on a log. -/
theorem multiPassLines_log {text : Str} {pre post : List Str} (hlog : LogForm w text pre post)
    {maps : RsMaps w} (hmaps : logMaps opts sym .init pre = some maps)
    (hans : ∀ line ∈ pre ++ post, Answerable opts sym maps.mmaps line)
    (hclash : ¬ FileClash maps (pre ++ post)) :
    doResolveMultiPass opts sym (some namecacheAlloc) text
      = some (assembleLines w maps.mmapsIndex (answersOf opts sym maps.mmaps (pre ++ post))
        ((pre ++ post).map (indexOut maps.mmaps))) := by
  rw [doResolveMultiPass, hlog.lines, multiPassLines, indexLines_log hlog hlog.length, hmaps]
  refine (if_neg hclash).trans ?_
  obtain ⟨fouts, cache, hfiles, hread⟩ := resolveFiles_read hlog.isChunks hlog.length hans
  have hindex : fgetsLines 4096 ((pre ++ post).map (indexOut maps.mmaps)).flatten
      = (pre ++ post).map (indexOut maps.mmaps) :=
    fgetsLines_chunks (by decide) (indexOut_isChunks hlog.isChunks)
  simp only [hfiles, hread, hindex]

/-- The default mode on a log. -/
theorem resolveLines_log {text : Str} {pre post : List Str} (hlog : LogForm w text pre post)
    {maps : RsMaps w} (hmaps : logMaps opts sym .init pre = some maps)
    (hans : ∀ line ∈ post, Answerable opts sym maps.mmaps line) :
    doResolve opts sym (some namecacheAlloc) text
      = { puts := (pre ++ post).map (answerLine opts sym maps.mmaps), fault := false } := by
  have hpre : pre.map (answerLine opts sym maps.mmaps) = pre :=
    (List.map_congr_left fun line hline => by rw [answerLine, hlog.records line hline]; rfl).trans
      (List.map_id pre)
  rw [doResolve, hlog.lines, resolveLines_records hlog.records post hmaps,
    resolveLines_backtraces hlog.backtraces hans (coherent_alloc _), List.map_append, hpre]

theorem used_of_flatten {mmaps : SmallArray (RsMmap w)} {lines : List Str} {id : Nat}
    (h : (lines.filter (goesTo mmaps id)).flatten ≠ []) : ∃ line ∈ lines, goesTo mmaps id line := by
  by_contra hunused
  refine h ?_
  rw [List.filter_eq_nil_iff.mpr fun line hline hgoes => hunused ⟨line, hline, hgoes⟩]
  rfl

theorem flatten_of_used {mmaps : SmallArray (RsMmap w)} {lines : List Str} {id : Nat} {line : Str}
    (hlen : line.length < pathMax) (hline : line ∈ lines) (hgoes : goesTo mmaps id line = true) :
    (lines.filter (goesTo mmaps id)).flatten ≠ [] := by
  intro hempty
  have hhead := scanBacktraceIndex_head hlen (goesTo_backtrace hgoes)
  rw [List.flatten_eq_nil_iff.mp hempty line (List.mem_filter.mpr ⟨hline, hgoes⟩)] at hhead
  exact absurd hhead (by simp)

/-- The lines outside of the mappings, in terms of what the default mode
writes. -/
theorem multiPassFits_iff {maps : RsMaps w} {lines : List Str}
    (hlen : ∀ line ∈ lines, line.length < pathMax)
    (hans : ∀ line ∈ lines, Answerable opts sym maps.mmaps line) :
    MultiPassFits opts sym maps lines ↔ ¬ FileClash maps lines ∧
      ∀ line ∈ lines, parseBacktraceIndex line maps.mmaps = none →
        scanMarker w line = none ∧ answerLine opts sym maps.mmaps line = line := by
  have hplain : ∀ line ∈ lines, ∀ addr name, scanBacktraceRecord w line = some (addr, name) →
      rsMmapFindModule maps.mmaps addr = none →
        (unmappedName opts addr name = some line ↔ answerLine opts sym maps.mmaps line = line) := by
    intro line hline addr name hrecord hfind
    have hname : answer opts sym maps.mmaps addr name = unmappedName opts addr name := by
      rw [answer, unmappedName, resolveName, hfind]
    obtain ⟨-, text, htext, -⟩ := hans line hline addr name hrecord
    rw [answerLine, hrecord, ← hname]
    simp only [htext, Option.getD_some, Option.some.injEq]
  constructor
  · intro h
    refine ⟨?_, fun line hline hmap => ⟨h.markers line hline, ?_⟩⟩
    · rintro ⟨map1, h1, map2, h2, hne, hname, hused1, hused2⟩
      obtain ⟨line1, hline1, hgoes1⟩ := used_of_flatten hused1
      obtain ⟨line2, hline2, hgoes2⟩ := used_of_flatten hused2
      exact h.files map1 h1 map2 h2 hne hname line1 hline1 line2 hline2 ⟨hgoes1, hgoes2⟩
    · cases hrecord : scanBacktraceRecord w line with
      | none => rw [answerLine, hrecord]
      | some entry =>
        have hfind := parseBacktraceIndex_find (hlen line hline) hrecord maps.mmaps
        rw [hmap] at hfind
        exact (hplain line hline _ _ hrecord hfind.symm).mp
          (h.unmapped line hline _ _ hrecord hfind.symm)
  · intro h
    obtain ⟨hclash, hlines⟩ := h
    refine ⟨hans, fun map1 h1 map2 h2 hne hname line1 hline1 line2 hline2 hgoes => ?_,
      fun line hline => ?_, fun line hline addr name hrecord hfind => ?_⟩
    · exact hclash ⟨map1, h1, map2, h2, hne, hname,
        flatten_of_used (hlen line1 hline1) hline1 hgoes.1,
        flatten_of_used (hlen line2 hline2) hline2 hgoes.2⟩
    · cases hmap : parseBacktraceIndex line maps.mmaps with
      | none => exact (hlines line hline hmap).1
      | some map =>
        by_contra hmarker
        have hback : scanBacktraceIndex w line ≠ none := by
          intro hnone
          rw [parseBacktraceIndex, hnone] at hmap
          exact absurd hmap (by simp)
        have hhead := scanBacktraceIndex_head (hlen line hline) hback
        rw [scanMarker_head hmarker] at hhead
        exact absurd hhead (by decide)
    · have hmap := parseBacktraceIndex_find (hlen line hline) hrecord maps.mmaps
      rw [hfind] at hmap
      exact (hplain line hline addr name hrecord hfind).mpr (hlines line hline hmap).2

/-- A text comes in chunks in one way only. -/
theorem isChunks_injective {lines lines' : List Str} (h : IsChunks 4095 lines)
    (h' : IsChunks 4095 lines') (hflat : lines.flatten = lines'.flatten) : lines = lines' := by
  rw [← @fgetsLines_chunks 4096 (by decide) lines h, hflat,
    @fgetsLines_chunks 4096 (by decide) lines' h']

/-- The multi-pass mode writes what the default mode writes. -/
def SameOutput (opts : ResolveOptions) (sym : Symbols w) (text : Str) : Prop :=
  (doResolveMultiPass opts sym (some namecacheAlloc) text).map Written.output
    = some (doResolve opts sym (some namecacheAlloc) text).output

/-- Where the mappings are too many the multi-pass mode writes nothing, and
the default mode has written something. -/
theorem not_sameOutput_exit {text : Str} {pre post : List Str} (hlog : LogForm w text pre post)
    (hmaps : logMaps opts sym .init pre = none) : ¬ SameOutput opts sym text := by
  intro hsame
  have hmulti : doResolveMultiPass opts sym (some namecacheAlloc) text
      = some { puts := [], fault := true } := by
    rw [doResolveMultiPass, hlog.lines, multiPassLines, indexLines_log hlog hlog.length, hmaps]
    rfl
  obtain ⟨line, hline, hputs⟩ : ∃ line ∈ pre,
      line ∈ (resolveLines opts sym { maps := .init, cache := some namecacheAlloc } (pre ++ post)).puts :=
    resolveLines_exit hlog.records hmaps _
  rw [SameOutput, hmulti, Option.map_some, Option.some.injEq, doResolve, hlog.lines] at hsame
  have hempty := List.flatten_eq_nil_iff.mp (congrArg Prod.fst hsame).symm line hputs
  exact isChunks_ne (by decide) hlog.isChunks line (List.mem_append_left _ hline) hempty

def sampleMmap : RsMmap 64 :=
  { id := 1, module := "/lib/a.so".toList, fromAddr := 0x1000, toAddr := 0x2000,
    isAbsolute := true }

/-- The record of `sampleMmap` and a backtrace line in it. -/
def sampleLog : List Str :=
  [": /lib/a.so => 0x1000-0x2000\n".toList, "\t0x1010\n".toList]

theorem logMaps_sample :
    ∃ maps, logMaps plainResolve sampleSymbols (.init : RsMaps 64)
        [": /lib/a.so => 0x1000-0x2000\n".toList] = some maps ∧
      maps.mmaps.items = [sampleMmap] ∧ maps.mmapsIndex = [sampleMmap] := by
  have hrecord : scanMmapRecord 64 ": /lib/a.so => 0x1000-0x2000\n".toList
      = some ("/lib/a.so".toList, 0x1000, 0x2000) := by decide
  obtain ⟨maps, hadd, hitems, hindex⟩ := rsMmapAddModule_init
    (show sampleSymbols.isAbsolute "/lib/a.so".toList = some true from rfl) 0x1000 0x2000
  refine ⟨maps, ?_, hitems, hindex⟩
  rw [logMaps, List.foldlM_cons, hrecord, Option.elim_some, RsMaps.add]
  simp only [rsHostPath, plainResolve, hadd]
  rfl

theorem rsMmapFindModule_sample {mmaps : SmallArray (RsMmap 64)} (h : mmaps.items = [sampleMmap]) :
    rsMmapFindModule mmaps 0x1010 = some sampleMmap := by
  rw [rsMmapFindModule, SmallArray.find_eq, h]
  exact bisect_single (by decide)

end SpRtrace.Resolve
