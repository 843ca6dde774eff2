/-
SpRtrace.Rtrace.ManagedTheorems — which reads find the entry.

What a scan leaves over is moved to the front of the buffer, but the next
scan only goes as far as the bytes that were read, so the last bytes of the
environment are missed. A name is compared without the `=` behind it, and
the number may have been read in part. `Undivided` are the reads where
nothing of that happens (`isProcessManaged_right`); reads that are shorter
than the entry never find it (`isProcessManaged_missed`).
-/
import SpRtrace.Lib.StdioTheorems
import SpRtrace.Rtrace.Listener
import SpRtrace.Rtrace.Managed

namespace SpRtrace.Rtrace

open SpRtrace.Lib SpRtrace.Common SpRtrace.Library SpRtrace.Postproc

variable {w : Nat}

/-! ## The number -/

theorem scanSign_append {s : Str} (hs : s ≠ []) (more : Str) :
    scanSign (s ++ more) = ((scanSign s).1, (scanSign s).2 ++ more) := by
  cases s with
  | nil => exact absurd rfl hs
  | cons c s =>
    by_cases hminus : c = '-'
    · subst hminus
      rfl
    · by_cases hplus : c = '+'
      · subst hplus
        rfl
      · have hplain : ∀ t, scanSign (c :: t) = (false, c :: t) := by
          intro t
          unfold scanSign
          split <;> simp_all
        rw [List.cons_append, hplain, hplain]
        rfl

theorem atoi_blank {text : Str} (h : skipSpace text = []) : atoi w text = 0 := by
  simp only [atoi, scanConv, scanNumber, h]

theorem atoi_eq {text : Str} (h : skipSpace text ≠ []) :
    atoi w text =
      if (scanSign (skipSpace text)).2.takeWhile (isDigitOf 10) = [] then 0
      else strtolInt w (scanSign (skipSpace text)).1
        (digitsValue 10 ((scanSign (skipSpace text)).2.takeWhile (isDigitOf 10))) := by
  cases htext : skipSpace text with
  | nil => exact absurd htext h
  | cons c s =>
    simp only [atoi, scanConv, scanNumber, htext, scanDigits, id]
    cases (scanSign (c :: s)).2.takeWhile (isDigitOf 10) with
    | nil => rfl
    | cons d ds => rfl

/-- What is read behind the number does not matter. -/
theorem atoi_append {text : Str} (h : behindNumber text ≠ []) (more : Str) :
    atoi w (text ++ more) = atoi w text := by
  have hskip : skipSpace text ≠ [] := by
    intro hblank
    exact h (by rw [behindNumber, hblank]; rfl)
  have happend : skipSpace (text ++ more) = skipSpace text ++ more := by
    rw [skipSpace_append, if_neg hskip]
  have hdigits : ((scanSign (skipSpace text)).2 ++ more).takeWhile (isDigitOf 10)
      = (scanSign (skipSpace text)).2.takeWhile (isDigitOf 10) := by
    rw [List.takeWhile_append, if_neg]
    intro hlen
    have hall := List.takeWhile_append_dropWhile (p := isDigitOf 10)
      (l := (scanSign (skipSpace text)).2)
    have hlength := congrArg List.length hall
    rw [List.length_append, hlen] at hlength
    exact h (List.length_eq_zero_iff.mp (by rw [behindNumber]; omega))
  rw [atoi_eq (by rw [happend]; simp [hskip]), atoi_eq hskip, happend, scanSign_append hskip, hdigits]

theorem behindNumber_append {text : Str} (h : behindNumber text ≠ []) (more : Str) :
    behindNumber (text ++ more) ≠ [] := by
  have hskip : skipSpace text ≠ [] := by
    intro hblank
    exact h (by rw [behindNumber, hblank]; rfl)
  rw [behindNumber] at h ⊢
  rw [skipSpace_append, if_neg hskip, scanSign_append hskip, List.dropWhile_append,
    if_neg (by simpa using h)]
  simp [h]

theorem atoi_nul (value more : Str) : atoi w (value ++ '\x00' :: more) = atoi w value := by
  by_cases hblank : skipSpace value = []
  · have hskip : skipSpace (value ++ '\x00' :: more) = '\x00' :: more := by
      rw [skipSpace_append, if_pos hblank]
      rfl
    rw [atoi_blank hblank, atoi_eq (by simp [hskip]), hskip]
    rfl
  · have hdigits : ((scanSign (skipSpace value)).2 ++ '\x00' :: more).takeWhile (isDigitOf 10)
        = (scanSign (skipSpace value)).2.takeWhile (isDigitOf 10) := by
      rw [List.takeWhile_append]
      split
      next hlen =>
        have hnone : ('\x00' :: more).takeWhile (isDigitOf 10) = [] := rfl
        rw [hnone, List.append_nil]
        exact ((List.takeWhile_prefix _).eq_of_length hlen).symm
      next => rfl
    have happend : skipSpace (value ++ '\x00' :: more) = skipSpace value ++ '\x00' :: more := by
      rw [skipSpace_append, if_neg hblank]
    rw [atoi_eq (by rw [happend]; simp), atoi_eq hblank, happend, scanSign_append hblank, hdigits]

/-! ## The environment -/

/-- The block of the strings of an environment. -/
def environBlock (strings : List Str) : Str := strings.flatMap (· ++ ['\x00'])

@[simp] theorem environBlock_nil : environBlock [] = [] := rfl

theorem environBlock_cons (s : Str) (strings : List Str) :
    environBlock (s :: strings) = s ++ '\x00' :: environBlock strings := by
  simp [environBlock]

theorem environBlock_append (s t : List Str) :
    environBlock (s ++ t) = environBlock s ++ environBlock t :=
  List.flatMap_append

/-- The name and the `=` behind it. -/
def entryMark : Str := manageName ++ ['=']

/-- Whether the process is managed: the number of the entry of exactly this
name. -/
def managed (w : Nat) (strings : List Str) : Bool :=
  match strings.find? fun s => entryMark.isPrefixOf s with
  | some s => atoi w (s.drop entryMark.length) ≠ 0
  | none => false

/-- None of the strings begins with the name. -/
def Quiet (strings : List Str) : Prop := ∀ s ∈ strings, ¬ manageName <+: s

/-- **Reads that divide nothing.** -/
inductive Undivided : List Str → List Str → Prop
  /-- Everything has been read. -/
  | none : Undivided [] []
  /-- In the last chunk, what is too short for an entry with a value may be
  left over. -/
  | last {before short : List Str} (hquiet : Quiet before)
      (hshort : (environBlock short).length < manageName.length + 3)
      (hfits : (environBlock (before ++ short)).length ≤ pathMax) :
      Undivided [environBlock (before ++ short)] (before ++ short)
  /-- The entry is in this chunk, through to the end of its number. -/
  | entry {before strings chunks : List Str} {value text : Str} (hquiet : Quiet before)
      (htext : text ++ chunks.flatten = value ++ '\x00' :: environBlock strings)
      (hlong : 2 ≤ text.length) (hnumber : behindNumber text ≠ [])
      (hfits : (environBlock before ++ (entryMark ++ text)).length ≤ pathMax) :
      Undivided ((environBlock before ++ (entryMark ++ text)) :: chunks)
        (before ++ (entryMark ++ value) :: strings)
  /-- The chunk ends with a string that is not left over. -/
  | more {before strings chunks : List Str} {last : Str} (hquiet : Quiet (before ++ [last]))
      (hlong : manageName.length + 2 ≤ last.length)
      (hfits : (environBlock (before ++ [last])).length ≤ pathMax)
      (hrest : Undivided chunks strings) :
      Undivided (environBlock (before ++ [last]) :: chunks) (before ++ [last] ++ strings)

/-! ## The scan -/

theorem nul_not_in_name : '\x00' ∉ manageName := by decide

theorem idxOf_nul {s : Str} (hnul : '\x00' ∉ s) (more : Str) :
    (s ++ '\x00' :: more).idxOf? '\x00' = some s.length := by
  induction s with
  | nil => rfl
  | cons c s ih =>
    have hc : c ≠ '\x00' := fun h => hnul (h ▸ List.mem_cons_self)
    rw [List.cons_append, List.idxOf?_cons, if_neg (by simpa using hc),
      ih (List.not_mem_of_not_mem_cons hnul)]
    rfl

theorem slice_drop (buffer : List Char) (start count k : Nat) :
    slice buffer (start + k) (count - k) = (slice buffer start count).drop k := by
  rw [slice, slice, List.drop_take, List.drop_drop]

theorem name_not_prefix {s more : Str} (hquiet : ¬ manageName <+: s) :
    ¬ manageName <+: s ++ '\x00' :: more := by
  intro hpre
  have hmine : s ++ ['\x00'] <+: s ++ '\x00' :: more := by simp
  rcases List.prefix_or_prefix_of_prefix hpre hmine with h | h
  · rcases List.prefix_concat_iff.mp h with heq | h
    · exact nul_not_in_name (heq ▸ by simp)
    · exact hquiet h
  · exact nul_not_in_name (h.subset (by simp))

/-- A string that does not begin with the name is skipped. -/
theorem scan_skip {buffer : List Char} {fuel start count : Nat} {s more : Str}
    (hslice : slice buffer start count = s ++ '\x00' :: more) (hnul : '\x00' ∉ s)
    (hquiet : ¬ manageName <+: s) (hcount : manageName.length + 3 ≤ count) :
    scanEnviron w buffer (fuel + 1) start count
      = scanEnviron w buffer fuel (start + (s.length + 1)) (count - (s.length + 1)) := by
  have hname : slice buffer start manageName.length ≠ manageName := by
    intro heq
    refine name_not_prefix hquiet (?_ : manageName <+: s ++ '\x00' :: more)
    rw [← hslice, ← heq, ← slice_take (show manageName.length ≤ count by omega)]
    exact List.take_prefix _ _
  rw [scanEnviron, if_neg (by omega), if_neg hname, hslice, idxOf_nul hnul]

/-- What is behind a string that has been skipped. -/
theorem slice_skip {buffer : List Char} {start count : Nat} {s more : Str}
    (hslice : slice buffer start count = s ++ '\x00' :: more) :
    slice buffer (start + (s.length + 1)) (count - (s.length + 1)) = more := by
  rw [slice_drop, hslice, List.append_cons, List.drop_left' (by simp)]

/-- A string that is not the entry is skipped, if enough is left to look at. -/
theorem scan_string {buffer : List Char} {s rest : Str} (hnul : '\x00' ∉ s)
    (hquiet : ¬ manageName <+: s) {fuel start count : Nat}
    (hslice : slice buffer start count = s ++ '\x00' :: rest)
    (hcount : count = (s ++ '\x00' :: rest).length) (hfuel : count ≤ fuel)
    (hlong : manageName.length + 3 ≤ count) :
    ∃ fuel', rest.length ≤ fuel' ∧ slice buffer (start + (s.length + 1)) rest.length = rest ∧
      scanEnviron w buffer fuel start count
        = scanEnviron w buffer fuel' (start + (s.length + 1)) rest.length := by
  have hlength : count = s.length + 1 + rest.length := by
    rw [hcount, List.length_append, List.length_cons]
    omega
  have hleft : count - (s.length + 1) = rest.length := by omega
  obtain ⟨fuel, rfl⟩ : ∃ f, fuel = f + 1 := ⟨fuel - 1, by omega⟩
  refine ⟨fuel, by omega, ?_, ?_⟩
  · rw [← hleft]
    exact slice_skip hslice
  · rw [scan_skip hslice hnul hquiet hlong, hleft]

/-- The scan gets through to what an entry could be in. -/
theorem scan_reaches {buffer : List Char} {before : List Str} {tail : Str}
    (hnul : ∀ s ∈ before, '\x00' ∉ s) (hquiet : Quiet before)
    (htail : manageName.length + 3 ≤ tail.length) {fuel start count : Nat}
    (hslice : slice buffer start count = environBlock before ++ tail)
    (hcount : count = (environBlock before ++ tail).length) (hfuel : count ≤ fuel) :
    ∃ fuel', tail.length ≤ fuel' ∧
      slice buffer (start + (environBlock before).length) tail.length = tail ∧
      scanEnviron w buffer fuel start count
        = scanEnviron w buffer fuel' (start + (environBlock before).length) tail.length := by
  induction before generalizing fuel start count with
  | nil =>
    have htailCount : count = tail.length := hcount
    subst htailCount
    exact ⟨fuel, hfuel, hslice, rfl⟩
  | cons s before ih =>
    rw [environBlock_cons, List.append_assoc, List.cons_append] at hslice hcount
    have hlong : manageName.length + 3 ≤ count := by
      rw [hcount]
      simp only [List.length_append, List.length_cons]
      omega
    obtain ⟨fuel₁, hfuel₁, hrest, hskip⟩ := scan_string (hnul s (by simp))
      (hquiet s (by simp)) hslice hcount hfuel hlong
    obtain ⟨fuel₂, hfuel₂, htailSlice, hscan⟩ := ih (fun t ht => hnul t (List.mem_cons_of_mem _ ht))
      (fun t ht => hquiet t (List.mem_cons_of_mem _ ht)) hrest rfl hfuel₁
    have hstart : start + (s.length + 1) + (environBlock before).length
        = start + (environBlock (s :: before)).length := by
      rw [environBlock_cons, List.length_append, List.length_cons]
      omega
    rw [hstart] at htailSlice hscan
    exact ⟨fuel₂, hfuel₂, htailSlice, hskip.trans hscan⟩

/-- Strings without the entry leave something over. -/
theorem scan_short {buffer : List Char} {before short : List Str}
    (hnul : ∀ s ∈ before, '\x00' ∉ s) (hquiet : Quiet before)
    (hshort : (environBlock short).length < manageName.length + 3) {fuel start count : Nat}
    (hslice : slice buffer start count = environBlock before ++ environBlock short)
    (hcount : count = (environBlock before ++ environBlock short).length) (hfuel : count ≤ fuel) :
    ∃ start' count', scanEnviron w buffer fuel start count = some (.rest start' count') ∧
      start' + count' = start + count := by
  have hstop : ∀ {fuel start count : Nat}, count < manageName.length + 3 →
      scanEnviron w buffer fuel start count = some (.rest start count) := by
    intro fuel start count hsmall
    cases fuel with
    | zero => rfl
    | succ fuel => exact if_pos hsmall
  induction before generalizing fuel start count with
  | nil => exact ⟨start, count, hstop (by rw [hcount]; exact hshort), rfl⟩
  | cons s before ih =>
    rw [environBlock_cons, List.append_assoc, List.cons_append] at hslice hcount
    by_cases hsmall : count < manageName.length + 3
    · exact ⟨start, count, hstop hsmall, rfl⟩
    · obtain ⟨fuel₁, hfuel₁, hrest, hskip⟩ := scan_string (hnul s (by simp))
        (hquiet s (by simp)) hslice hcount hfuel (Nat.le_of_not_lt hsmall)
      obtain ⟨start', count', hscan, hend⟩ := ih
        (fun t ht => hnul t (List.mem_cons_of_mem _ ht))
        (fun t ht => hquiet t (List.mem_cons_of_mem _ ht)) hrest rfl hfuel₁
      refine ⟨start', count', hskip.trans hscan, ?_⟩
      rw [hend, hcount]
      simp only [List.length_append, List.length_cons]
      omega

/-- The entry is found, and its number is read. -/
theorem scan_entry {buffer : List Char} {fuel start : Nat} {text : Str}
    (hslice : slice buffer start (entryMark ++ text).length = entryMark ++ text)
    (hlong : 2 ≤ text.length) (hnumber : behindNumber text ≠ [])
    (hfuel : (entryMark ++ text).length ≤ fuel) :
    scanEnviron w buffer fuel start (entryMark ++ text).length
      = some (.answer (atoi w text)) := by
  have hcount : (entryMark ++ text).length = manageName.length + 1 + text.length := by
    rw [entryMark, List.length_append, List.length_append, List.length_singleton]
  obtain ⟨fuel, rfl⟩ : ∃ f, fuel = f + 1 := ⟨fuel - 1, by omega⟩
  have hname : slice buffer start manageName.length = manageName := by
    rw [← slice_take (show manageName.length ≤ (entryMark ++ text).length by omega), hslice,
      entryMark, List.append_assoc, List.take_left]
  have htext : slice buffer (start + (manageName.length + 1)) text.length = text := by
    have hdrop := slice_drop buffer start (entryMark ++ text).length (manageName.length + 1)
    rwa [hslice, List.drop_left' (by simp [entryMark]), hcount, Nat.add_sub_cancel_left] at hdrop
  have hbuffer : buffer.drop (start + (manageName.length + 1))
      = text ++ buffer.drop (start + (manageName.length + 1) + text.length) := by
    conv_lhs => rw [← List.take_append_drop text.length (buffer.drop _)]
    rw [← slice, htext, List.drop_drop]
  rw [scanEnviron, if_neg (by omega), if_pos hname, atoiAt, hbuffer,
    if_neg (behindNumber_append hnumber _), atoi_append hnumber]
  rfl

/-! ## One read -/

/-- What a read puts into the buffer. -/
theorem read_stores {buffer : List Char} {carried : Nat} {chunk : Str}
    (hfits : carried + chunk.length ≤ buffer.length) :
    storeCells buffer carried chunk = some (patch buffer carried chunk) ∧
      (patch buffer carried chunk).length = buffer.length :=
  ⟨storeCells_eq hfits, patch_length hfits⟩

/-- A scan that finds nothing. -/
theorem readEnviron_rest {buffer : List Char} {carried start count : Nat} {chunk : Str}
    (chunks : List Str) (hroom : carried < buffer.length)
    (hfits : carried + chunk.length ≤ buffer.length)
    (hscan : scanEnviron w (patch buffer carried chunk) chunk.length 0 chunk.length
      = some (.rest start count))
    (hend : start + count ≤ buffer.length) :
    ∃ buffer', buffer'.length = buffer.length ∧
      readEnviron w (chunk :: chunks) buffer carried = readEnviron w chunks buffer' count := by
  obtain ⟨hstore, hlength⟩ := read_stores hfits
  have hcopy := copyCells_eq (Nat.zero_le start) (show start + count ≤
    (patch buffer carried chunk).length by rw [hlength]; exact hend)
  have hslice : (slice (patch buffer carried chunk) start count).length = count :=
    slice_length (by rw [hlength]; exact hend)
  refine ⟨patch (patch buffer carried chunk) 0 (slice (patch buffer carried chunk) start count),
    ?_, ?_⟩
  · rw [patch_length (by rw [hslice, hlength]; omega), hlength]
  · rw [readEnviron, if_neg (by omega), hstore]
    simp only [Option.bind_eq_bind, Option.bind_some, hscan, hcopy]

/-- A scan that finds the entry. -/
theorem readEnviron_answer {buffer : List Char} {carried : Nat} {chunk : Str} {chunks : List Str}
    {value : BitVec 32} (hroom : carried < buffer.length)
    (hfits : carried + chunk.length ≤ buffer.length)
    (hscan : scanEnviron w (patch buffer carried chunk) chunk.length 0 chunk.length
      = some (.answer value)) :
    readEnviron w (chunk :: chunks) buffer carried = some (decide (value ≠ 0)) := by
  obtain ⟨hstore, -⟩ := read_stores hfits
  rw [readEnviron, if_neg (by omega), hstore]
  simp only [Option.bind_eq_bind, Option.bind_some, hscan]

/-! ## The answer -/

theorem managed_append {before strings : List Str} (hquiet : Quiet before) :
    managed w (before ++ strings) = managed w strings := by
  have hnone : before.find? (fun s => entryMark.isPrefixOf s) = none := by
    rw [List.find?_eq_none]
    intro s hs hmark
    exact hquiet s hs ((List.prefix_append _ _).trans (List.isPrefixOf_iff_prefix.mp hmark))
  rw [managed, managed, List.find?_append, hnone, Option.none_or]

theorem managed_entry (value : Str) (strings : List Str) :
    managed w ((entryMark ++ value) :: strings) = decide (atoi w value ≠ 0) := by
  have hmark : entryMark.isPrefixOf (entryMark ++ value) = true :=
    List.isPrefixOf_iff_prefix.mpr (List.prefix_append _ _)
  rw [managed, List.find?_cons_of_pos hmark]
  simp only [List.drop_left]

theorem length_le_block {s : Str} {strings : List Str} (hs : s ∈ strings) :
    s.length + 1 ≤ (environBlock strings).length := by
  obtain ⟨l, r, rfl⟩ := List.append_of_mem hs
  rw [environBlock_append, environBlock_cons]
  simp only [List.length_append, List.length_cons]
  omega

/-- An entry without a value counts as no entry. -/
theorem managed_short {short : List Str}
    (hshort : (environBlock short).length < manageName.length + 3) : managed w short = false := by
  rw [managed]
  cases hfind : short.find? fun s => entryMark.isPrefixOf s with
  | none => rfl
  | some s =>
    have hlength := length_le_block (List.mem_of_find?_eq_some hfind)
    have hmark : entryMark.length = manageName.length + 1 := by
      rw [entryMark, List.length_append, List.length_singleton]
    have hempty : s.drop entryMark.length = [] := List.drop_eq_nil_of_le (by omega)
    simp only [hempty]
    rfl

/-- Reads that divide nothing find the entry. -/
theorem readEnviron_undivided {chunks strings : List Str} (h : Undivided chunks strings)
    (hnul : ∀ s ∈ strings, '\x00' ∉ s) {buffer : List Char} (hbuffer : buffer.length = pathMax) :
    readEnviron w chunks buffer 0 = some (managed w strings) := by
  have hroom : 0 < pathMax := by decide
  -- what the scan sees is the chunk
  have hslice : ∀ (buffer : List Char) (chunk : Str),
      slice (patch buffer 0 chunk) 0 chunk.length = chunk :=
    fun _ chunk => slice_patch chunk (Nat.zero_le _)
  induction h generalizing buffer with
  | none => rfl
  | @last before short hquiet hshort hfits =>
    have hchunk := hslice buffer (environBlock (before ++ short))
    rw [environBlock_append] at hchunk hfits ⊢
    obtain ⟨start, count, hscan, hend⟩ := scan_short (w := w)
      (fun s hs => hnul s (List.mem_append_left _ hs)) hquiet hshort hchunk rfl (Nat.le_refl _)
    obtain ⟨buffer', -, hread⟩ := readEnviron_rest [] (by omega) (by omega) hscan
      (by omega)
    rw [hread, managed_append hquiet, managed_short hshort]
    rfl
  | @entry before strings chunks value text hquiet htext hlong hnumber hfits =>
    have hchunk := hslice buffer (environBlock before ++ (entryMark ++ text))
    have htail : manageName.length + 3 ≤ (entryMark ++ text).length := by
      rw [entryMark, List.length_append, List.length_append, List.length_singleton]
      omega
    obtain ⟨fuel, hfuel, htailSlice, hscan⟩ := scan_reaches (w := w)
      (fun s hs => hnul s (List.mem_append_left _ hs)) hquiet htail hchunk rfl (Nat.le_refl _)
    rw [scan_entry htailSlice hlong hnumber hfuel] at hscan
    have hvalue : atoi w text = atoi w value := by
      rw [← atoi_append hnumber chunks.flatten, htext, atoi_nul]
    rw [readEnviron_answer (by omega) (by omega) hscan, managed_append hquiet, managed_entry, hvalue]
  | @more before strings chunks last hquiet hlong hfits hrest ih =>
    have hchunk := hslice buffer (environBlock (before ++ [last]))
    have htail : (environBlock [last]).length = last.length + 1 := by
      rw [environBlock_cons, List.length_append, List.length_cons]
      rfl
    have hnulLast : '\x00' ∉ last := hnul last (by simp)
    rw [environBlock_append] at hchunk hfits ⊢
    have hlength : (environBlock before ++ environBlock [last]).length
        = (environBlock before).length + (last.length + 1) := by
      rw [List.length_append, htail]
    obtain ⟨fuel, hfuel, htailSlice, hscan⟩ := scan_reaches (w := w)
      (fun s hs => hnul s (by simp [hs])) (fun s hs => hquiet s (List.mem_append_left _ hs))
      (by omega) hchunk rfl (Nat.le_refl _)
    obtain ⟨fuel, rfl⟩ : ∃ f, fuel = f + 1 := ⟨fuel - 1, by omega⟩
    rw [environBlock_cons] at htailSlice
    rw [environBlock_cons, scan_skip htailSlice hnulLast (hquiet last (by simp)) (by
      rw [← environBlock_cons]; omega), ← environBlock_cons, htail, Nat.sub_self] at hscan
    have hempty : ∀ start, scanEnviron w (patch buffer 0 (environBlock before ++ environBlock [last]))
        fuel start 0 = some (.rest start 0) := by
      intro start
      cases fuel <;> rfl
    rw [hempty] at hscan
    obtain ⟨buffer', hbuffer', hread⟩ := readEnviron_rest chunks (by omega) (by omega)
      hscan (by omega)
    rw [hread, ih (fun s hs => hnul s (List.mem_append_right _ hs)) (hbuffer'.trans hbuffer),
      managed_append hquiet]

/-- Reads that are shorter than the entry do not find it. -/
theorem readEnviron_short {chunks : List Str}
    (hshort : ∀ chunk ∈ chunks, chunk.length < manageName.length + 3) {buffer : List Char}
    (hbuffer : buffer.length = pathMax) {carried : Nat}
    (hcarried : carried < manageName.length + 3) :
    readEnviron w chunks buffer carried = some false := by
  induction chunks generalizing buffer carried with
  | nil => rfl
  | cons chunk chunks ih =>
    have hchunk := hshort chunk (List.mem_cons_self ..)
    have hroom : manageName.length + 3 + (manageName.length + 3) ≤ pathMax := by decide
    have hscan : scanEnviron w (patch buffer carried chunk) chunk.length 0 chunk.length
        = some (.rest 0 chunk.length) := by
      cases hlength : chunk.length with
      | zero => rfl
      | succ n => exact if_pos (by omega)
    obtain ⟨buffer', hbuffer', hread⟩ := readEnviron_rest chunks (by omega) (by omega)
      hscan (by omega)
    rw [hread]
    exact ih (fun c hc => hshort c (List.mem_cons_of_mem _ hc)) (hbuffer'.trans hbuffer) hchunk

/-! ## Managed processes -/

/-- **Managed processes are found** by reads that divide nothing. -/
theorem isProcessManaged_right {buffer : List Char} (hbuffer : buffer.length = pathMax)
    {chunks strings : List Str} (hstrings : ∀ s ∈ strings, '\x00' ∉ s)
    (hread : Undivided chunks strings) :
    isProcessManaged w buffer (some chunks) = some (managed w strings) :=
  readEnviron_undivided hread hstrings hbuffer

/-- Two reads, the entry in the second one. -/
theorem isProcessManaged_right_two :
    isProcessManaged 64 (List.replicate pathMax ' ')
      (some [environBlock ["LD_LIBRARY_PATH=/usr/local/lib".toList],
        environBlock ["SP_RTRACE_MANAGE_PREPROC=1".toList, "HOME=/root".toList]]) = some true := by
  have hsecond : Undivided
      [environBlock ["SP_RTRACE_MANAGE_PREPROC=1".toList, "HOME=/root".toList]]
      ["SP_RTRACE_MANAGE_PREPROC=1".toList, "HOME=/root".toList] :=
    @Undivided.entry [] ["HOME=/root".toList] [] ['1'] "1\x00HOME=/root\x00".toList
      (fun _ hs => absurd hs List.not_mem_nil) (by decide) (by decide) (by decide) (by decide)
  have hfirst : Undivided
      [environBlock ["LD_LIBRARY_PATH=/usr/local/lib".toList],
        environBlock ["SP_RTRACE_MANAGE_PREPROC=1".toList, "HOME=/root".toList]]
      ["LD_LIBRARY_PATH=/usr/local/lib".toList, "SP_RTRACE_MANAGE_PREPROC=1".toList,
        "HOME=/root".toList] :=
    @Undivided.more [] _ _ "LD_LIBRARY_PATH=/usr/local/lib".toList
      (fun s hs => by rw [List.mem_singleton.mp hs]; decide) (by decide) (by decide) hsecond
  have hright := isProcessManaged_right (w := 64) (List.length_replicate (n := pathMax) (a := ' '))
    (by decide) hfirst
  exact hright.trans (by decide)

theorem bytes_flatten (l : Str) : (l.map ([·])).flatten = l := by
  induction l with
  | nil => rfl
  | cons c l ih =>
    rw [List.map_cons, List.flatten_cons, ih]
    rfl

theorem readEnviron_bytes {buffer : List Char} (hbuffer : buffer.length = pathMax) (block : Str) :
    readEnviron w (block.map ([·])) buffer 0 = some false := by
  refine readEnviron_short ?_ hbuffer (by decide)
  intro chunk hchunk
  obtain ⟨c, -, rfl⟩ := List.mem_map.mp hchunk
  exact show 1 < manageName.length + 3 by decide

/-- Whatever the environment is, there are reads that do not find the entry. -/
theorem isProcessManaged_missed {buffer : List Char} (hbuffer : buffer.length = pathMax)
    (strings : List Str) :
    ∃ chunks, chunks.flatten = environBlock strings ∧ (∀ chunk ∈ chunks, chunk ≠ []) ∧
      isProcessManaged w buffer (some chunks) = some false := by
  refine ⟨(environBlock strings).map ([·]), bytes_flatten _, ?_, readEnviron_bytes hbuffer _⟩
  intro chunk hchunk
  obtain ⟨c, -, rfl⟩ := List.mem_map.mp hchunk
  exact List.cons_ne_nil c []

/-- The same environment, read at once and byte by byte. -/
theorem isProcessManaged_bytes :
    let block := environBlock ["SP_RTRACE_MANAGE_PREPROC=1".toList]
    managed 64 ["SP_RTRACE_MANAGE_PREPROC=1".toList] = true ∧
      (block.map ([·])).flatten = block ∧
      isProcessManaged 64 (List.replicate pathMax ' ') (some [block]) = some true ∧
      isProcessManaged 64 (List.replicate pathMax ' ') (some (block.map ([·]))) = some false := by
  intro block
  have hbuffer : (List.replicate pathMax ' ').length = pathMax := List.length_replicate
  have hmanaged : managed 64 ["SP_RTRACE_MANAGE_PREPROC=1".toList] = true := by decide
  have hwhole : Undivided [block] ["SP_RTRACE_MANAGE_PREPROC=1".toList] :=
    @Undivided.entry [] [] [] ['1'] ['1', '\x00'] (fun _ hs => absurd hs List.not_mem_nil)
      (by decide) (by decide) (by decide) (by decide)
  exact ⟨hmanaged, bytes_flatten block,
    (readEnviron_undivided hwhole (by decide) hbuffer).trans (congrArg some hmanaged),
    readEnviron_bytes hbuffer block⟩

end SpRtrace.Rtrace
