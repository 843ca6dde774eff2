/-
SpRtrace.Rtrace.MapsCacheTheorems — when the cache of `scan_mmap_data` is
right.

`registerMmap` replaces the record that was found (`registerMmap_eq`), so
one line keeps the cache right exactly under `LineFits`
(`lineFits_iff`). A scan is the fold of its lines
(`scanMmapLines_spec`), and in runs whose scans all meet the condition
every scan does what it should (`scanMmapData_right`). Two neighbours are
enough to leave the condition (`scanMmapData_neighbours`).
-/
import Mathlib
import SpRtrace.Rtrace.MapsCache

namespace SpRtrace.Rtrace

open SpRtrace.Common SpRtrace.Lib

variable {w : Nat}

/-! ## Lines of the file -/

theorem hexAddress_digits (addr : BitVec w) :
    ∀ c ∈ hexAddress addr, isDigitOf 16 c = true := by
  intro c hc
  rcases List.mem_append.mp hc with hc | hc
  · rw [List.eq_of_mem_replicate hc]
    decide
  · exact isDigitOf_of_mem_printNat (by decide) le_rfl _ c hc

theorem hexAddress_ne_nil (addr : BitVec w) : hexAddress addr ≠ [] := by
  simp [hexAddress, printNat_ne_nil]

/-- %lx reads a padded address back. -/
theorem scanConv_hexAddress (addr : BitVec w) {rest : Str} (hrest : Stops hexGoesOn rest) :
    scanConv (w := w) .hexLong (hexAddress addr ++ rest) = .ok (.long addr) rest := by
  have hmark : scanHexMark (hexAddress addr ++ rest) = hexAddress addr ++ rest := by
    refine scanHexMark_eq fun x hx => ?_
    obtain ⟨d, ds, hds⟩ := List.exists_cons_of_ne_nil (hexAddress_ne_nil addr)
    rw [hds] at hx
    cases ds with
    | nil =>
      -- one digit, so the second character is the one behind the address
      have hgo := hrest x (by simpa [List.head?_eq_getElem?] using hx)
      simp only [hexGoesOn, Bool.or_eq_false_iff, decide_eq_false_iff_not] at hgo
      exact ⟨hgo.1.2, hgo.2⟩
    | cons e ds =>
      obtain rfl : e = x := by simpa using hx
      exact (digit_plain (hexAddress_digits addr e (by rw [hds]; simp))).2.2.2
  rw [scanConv, scanNumber_run (hexAddress_ne_nil addr) (hexAddress_digits addr)
    (stops_digit_of_hex hrest) hmark, hexAddress, digitsValue_zeros,
    digitsValue_printNat (by decide) le_rfl, strtoul_of_lt addr.isLt, BitVec.ofNat_toNat,
    BitVec.setWidth_eq]

theorem stops_of_plain {field : Str} (hne : field ≠ []) (h : ∀ c ∈ field, isSpace c = false)
    (rest : Str) : Stops isSpace (field ++ rest) := by
  cases field with
  | nil => exact absurd rfl hne
  | cons c field => exact (stops_cons _ _ _).mpr (h c List.mem_cons_self)

/-- A field that is read up to the blank behind it. -/
theorem sscanf_field {field : Str} {size : Nat} {fmt : List Directive} {rest : Str}
    (hne : field ≠ []) (hfield : ∀ c ∈ field, isSpace c = false) (hlen : field.length < size) :
    sscanf w (.space :: .conv (.except [' '] size) :: fmt) (' ' :: (field ++ ' ' :: rest))
      = (sscanf w fmt (' ' :: rest)).map fun r => { r with values := .text field :: r.values } := by
  have hblank : ∀ c ∈ field, c ∉ [' '] := by
    intro c hc hmem
    have hspace := hfield c hc
    rw [List.mem_singleton.mp hmem] at hspace
    exact absurd hspace (by decide)
  rw [sscanf_space, skipSpace_blank, skipSpace_of_stops (stops_of_plain hne hfield _)]
  exact sscanf_conv (scanConv_except hne hblank (by simp) hlen)

theorem skipSpace_gap (gap : Nat) (s : Str) :
    skipSpace (List.replicate gap ' ' ++ s) = skipSpace s := by
  induction gap with
  | zero => rfl
  | succ gap ih => rw [List.replicate_succ, List.cons_append, skipSpace_blank, ih]

/-- The last conversion, behind the inode. -/
theorem sscanf_name {gap : Nat} {name : Str} (hname : ∀ c ∈ name, c ≠ ' ' ∧ c ≠ '\n')
    (hstart : Stops isSpace name) (hlen : name.length + 1 < pathMax) :
    sscanf w [.space, .conv (.except [' '] pathMax)]
        (' ' :: (List.replicate gap ' ' ++ (name ++ ['\n'])))
      = some (if name = [] then { values := [], eof := true }
          else { values := [.text (name ++ ['\n'])], eof := false }) := by
  rw [sscanf_space, skipSpace_blank, skipSpace_gap]
  cases name with
  | nil => rfl
  | cons c name =>
    have hrun : ∀ d ∈ c :: name ++ ['\n'], d ∉ [' '] := by
      intro d hd hmem
      rcases List.mem_append.mp hd with hd | hd
      · exact (hname d hd).1 (List.mem_singleton.mp hmem)
      · rw [List.mem_singleton.mp hd] at hmem
        exact absurd hmem (by decide)
    have hskip : skipSpace (c :: name ++ ['\n']) = c :: name ++ ['\n'] :=
      skipSpace_of_stops ((stops_cons _ _ _).mpr ((stops_cons _ _ _).mp hstart))
    have hconv : scanConv (w := w) (.except [' '] pathMax) (c :: name ++ ['\n'] ++ [])
        = .ok (.text (c :: name ++ ['\n'])) [] :=
      scanConv_except (by simp) hrun (by simp) (by simpa using hlen)
    rw [List.append_nil] at hconv
    rw [hskip, sscanf_conv hconv]
    rfl

/-- **A line of the kernel is read as its mapping.** -/
theorem mapsLine_text (e : MapsEntry w) (h : e.text.length < pathMax) :
    mapsLine e.text = e.mapping := by
  have hrights := e.fields_plain e.rights (by simp)
  have hrightsNe : e.rights ≠ [] := by
    intro hnil
    have := e.rights_length
    rw [hnil] at this
    cases this
  simp only [MapsEntry.text, List.length_append, List.length_cons] at h
  have hscan : sscanf w mapsFormat e.text = some
      { values := [.long e.fromAddr, .long e.toAddr, .text e.rights, .text e.offset, .text e.device,
          .text e.inode] ++ if e.name = [] then [] else [.text (e.name ++ ['\n'])]
        eof := e.name = [] } := by
    have hminus : ∀ rest, Stops hexGoesOn ('-' :: rest) := fun _ =>
      (stops_cons _ _ _).mpr (by decide)
    have hblank : ∀ rest, Stops hexGoesOn (' ' :: rest) := fun _ =>
      (stops_cons _ _ _).mpr (by decide)
    rw [mapsFormat, MapsEntry.text, sscanf_conv (scanConv_hexAddress _ (hminus _)), sscanf_lit,
      sscanf_conv (scanConv_hexAddress _ (hblank _)), sscanf_space, skipSpace_blank,
      skipSpace_of_stops (stops_of_plain hrightsNe hrights _),
      sscanf_conv (scanConv_word hrightsNe hrights ((stops_cons _ _ _).mpr (by decide))
        (by rw [e.rights_length]; decide)),
      sscanf_field (e.fields_nonempty _ (by simp)) (e.fields_plain _ (by simp)) (by omega),
      sscanf_field (e.fields_nonempty _ (by simp)) (e.fields_plain _ (by simp)) (by omega),
      sscanf_field (e.fields_nonempty _ (by simp)) (e.fields_plain _ (by simp)) (by omega),
      sscanf_name e.name_plain e.name_start (by omega)]
    by_cases hname : e.name = [] <;> simp [hname]
  rw [mapsLine, hscan, MapsEntry.mapping]
  by_cases hname : e.name = []
  · simp [hname]
  · simp [hname]

theorem MapsEntry.text_line (e : MapsEntry w) (h : e.text.length < pathMax) :
    IsLine (pathMax - 1) e.text := by
  have hfield : ∀ field ∈ [e.rights, e.offset, e.device, e.inode], '\n' ∉ field := by
    intro field hf hmem
    exact absurd (e.fields_plain field hf _ hmem) (by decide)
  have haddr : ∀ addr : BitVec w, '\n' ∉ hexAddress addr := by
    intro addr hmem
    exact absurd (hexAddress_digits addr _ hmem) (by decide)
  have hname : '\n' ∉ e.name := fun hmem => (e.name_plain _ hmem).2 rfl
  refine ⟨hexAddress e.fromAddr ++ '-' :: (hexAddress e.toAddr ++ ' ' :: (e.rights ++ ' ' ::
    (e.offset ++ ' ' :: (e.device ++ ' ' :: (e.inode ++ ' ' ::
      (List.replicate e.gap ' ' ++ e.name)))))), by simp [MapsEntry.text], ?_, by omega⟩
  simp [haddr, hfield e.rights, hfield e.offset, hfield e.device, hfield e.inode, hname]

/-- The lines of a file that `fgets` does not cut. -/
theorem fgetsLines_content {content : MapsContent w}
    (h : ∀ e ∈ content.entries, e.text.length < pathMax) :
    fgetsLines pathMax content.text = content.entries.map MapsEntry.text := by
  refine fgetsLines_flatten fun line hline => ?_
  obtain ⟨e, he, rfl⟩ := List.mem_map.mp hline
  exact e.text_line (h e he)

theorem filterMap_mapsLine {entries : List (MapsEntry w)}
    (h : ∀ e ∈ entries, e.text.length < pathMax) :
    (entries.map MapsEntry.text).filterMap mapsLine = entries.filterMap MapsEntry.mapping := by
  rw [List.filterMap_map]
  exact List.filterMap_congr fun e he => mapsLine_text e (h e he)

/-! ## One line -/

theorem registerMmap_eq (mmaps : List (Mmap w)) (map : Mmap w) :
    registerMmap mmaps map =
      match foundMmap mmaps map with
      | some old => if old = map then none else some (mmaps.erase old ++ [map])
      | none => some (mmaps ++ [map]) := by
  rw [registerMmap, dlistFind_eq_find? fun _ _ => rfl, foundMmap]
  cases mmaps.find? fun mmap => rangeCompare mmap map = 0 with
  | none => rfl
  | some old =>
    obtain ⟨fromAddr, toAddr, moduleName⟩ := old
    cases map
    simp only [Mmap.mk.injEq, dlistAdd]
    split <;> rename_i h <;> [rw [if_pos (by tauto)]; rw [if_neg (by tauto)]]

theorem rangeCompare_self {map : Mmap w} (h : map.fromAddr < map.toAddr) :
    rangeCompare map map = 0 := by
  have hle : ¬ map.toAddr < map.fromAddr := by bv_omega
  rw [rangeCompare, if_neg hle, if_neg hle]

/-- What holds of the cache in front of a line. -/
structure CacheRight (mmaps listed : List (Mmap w)) : Prop where
  apart : mmaps.Pairwise Apart
  nonempty : ∀ m ∈ mmaps, m.fromAddr < m.toAddr
  listed : ∀ m ∈ listed, m ∈ mmaps

theorem CacheRight.nodup {mmaps listed : List (Mmap w)} (h : CacheRight mmaps listed) :
    mmaps.Nodup := by
  refine h.apart.imp_of_mem fun {m m'} hm _ hapart heq => ?_
  have := h.nonempty m hm
  subst heq
  rcases hapart with hapart | hapart <;> bv_omega

/-- What a line should do: hand over exactly what is not cached, and keep
the cache right. -/
structure LineRight (mmaps listed : List (Mmap w)) (map : Mmap w) : Prop where
  sent : (registerMmap mmaps map).isSome ↔ map ∉ mmaps
  apart : (cacheLine mmaps map).Pairwise Apart
  listed : ∀ m ∈ listed ++ [map], m ∈ cacheLine mmaps map

theorem foundMmap_mem {mmaps : List (Mmap w)} {map old : Mmap w}
    (h : foundMmap mmaps map = some old) : old ∈ mmaps := List.mem_of_find?_eq_some h

theorem foundMmap_of_mem {mmaps listed : List (Mmap w)} {map : Mmap w}
    (h : CacheRight mmaps listed) (hmem : map ∈ mmaps) : ∃ old, foundMmap mmaps map = some old := by
  refine Option.isSome_iff_exists.mp (List.find?_isSome.mpr ⟨map, hmem, ?_⟩)
  simpa using rangeCompare_self (h.nonempty map hmem)

/-- The line of a cached mapping is right if the mapping is found. -/
theorem lineRight_cached {mmaps listed : List (Mmap w)} {map : Mmap w}
    (h : CacheRight mmaps listed) (hmem : map ∈ mmaps) :
    LineRight mmaps listed map ↔ foundMmap mmaps map = some map := by
  obtain ⟨old, hfound⟩ := foundMmap_of_mem h hmem
  have hregister := registerMmap_eq mmaps map
  rw [hfound] at hregister ⊢
  rw [Option.some.injEq]
  constructor
  · intro hright
    by_contra hne
    simp only [if_neg hne] at hregister
    exact hright.sent.mp (by rw [hregister]; rfl) hmem
  · intro heq
    simp only [if_pos heq] at hregister
    have hcache : cacheLine mmaps map = mmaps := by rw [cacheLine, hregister]; rfl
    exact
      { sent := by simp [hregister, hmem]
        apart := by
          rw [hcache]
          exact h.apart
        listed := by
          intro m hm
          rw [hcache]
          rcases List.mem_append.mp hm with hm | hm
          · exact h.listed m hm
          · exact List.mem_singleton.mp hm ▸ hmem }

/-- The line of a mapping that is added beside the records that stay. -/
theorem lineRight_added {mmaps listed stay : List (Mmap w)} {map : Mmap w}
    (hmem : map ∉ mmaps) (hstay : stay.Pairwise Apart)
    (hregister : registerMmap mmaps map = some (stay ++ [map])) :
    LineRight mmaps listed map ↔ (∀ m ∈ stay, Apart m map) ∧ ∀ m ∈ listed, m = map ∨ m ∈ stay := by
  have hcache : cacheLine mmaps map = stay ++ [map] := by rw [cacheLine, hregister]; rfl
  constructor
  · intro hright
    have hapart := hright.apart
    rw [hcache, List.pairwise_append] at hapart
    refine ⟨fun m hm => hapart.2.2 m hm map List.mem_cons_self, fun m hm => ?_⟩
    have := hright.listed m (List.mem_append_left _ hm)
    rw [hcache, List.mem_append, List.mem_singleton] at this
    exact this.symm
  · intro h
    exact
      { sent := by simp [hregister, hmem]
        apart := by
          rw [hcache, List.pairwise_append]
          refine ⟨hstay, List.pairwise_singleton _ _, fun m hm m' hm' => ?_⟩
          exact List.mem_singleton.mp hm' ▸ h.1 m hm
        listed := by
          intro m hm
          rw [hcache, List.mem_append, List.mem_singleton]
          rcases List.mem_append.mp hm with hm | hm
          · exact (h.2 m hm).symm
          · exact .inr (List.mem_singleton.mp hm) }

/-- **A line is right exactly under the condition.** -/
theorem lineFits_iff {mmaps listed : List (Mmap w)} {map : Mmap w} (h : CacheRight mmaps listed) :
    LineFits mmaps listed map ↔ LineRight mmaps listed map := by
  unfold LineFits
  by_cases hmem : map ∈ mmaps
  · rw [if_pos hmem, lineRight_cached h hmem]
  · rw [if_neg hmem]
    have hlisted : ∀ m ∈ listed, m ≠ map := fun m hm heq => hmem (heq ▸ h.listed m hm)
    have hregister := registerMmap_eq mmaps map
    cases hfound : foundMmap mmaps map with
    | none =>
      rw [hfound] at hregister
      rw [lineRight_added hmem h.apart hregister]
      simp only [reduceCtorEq, if_false]
      exact (and_iff_left fun m hm => .inr (h.listed m hm)).symm
    | some old =>
      have hne : old ≠ map := fun heq => hmem (heq ▸ foundMmap_mem hfound)
      rw [hfound] at hregister
      simp only [if_neg hne] at hregister
      rw [lineRight_added hmem (h.apart.sublist List.erase_sublist) hregister]
      simp only [h.nodup.mem_erase_iff, Option.some.injEq]
      constructor
      · intro hfits
        refine ⟨fun m hm => ?_, fun m hm => .inr ⟨fun heq => ?_, h.listed m hm⟩⟩
        · have := hfits m hm.2
          rwa [if_neg (Ne.symm hm.1)] at this
        · have := hfits old (foundMmap_mem hfound)
          rw [if_pos rfl, ← heq] at this
          exact this hm
      · intro hright m hm
        split
        · rename_i heq
          intro hold
          rcases hright.2 m hold with hmap | hstay
          · exact hlisted m hold hmap
          · exact hstay.1 heq.symm
        · rename_i hother
          exact hright.1 m ⟨Ne.symm hother, hm⟩

theorem registerMmap_mem {mmaps mmaps' : List (Mmap w)} {map : Mmap w}
    (h : registerMmap mmaps map = some mmaps') : ∀ m ∈ mmaps', m ∈ mmaps ∨ m = map := by
  rw [registerMmap_eq] at h
  intro m hm
  split at h
  · split at h
    · cases h
    · obtain rfl := Option.some.inj h
      rcases List.mem_append.mp hm with hm | hm
      · exact .inl (List.mem_of_mem_erase hm)
      · exact .inr (List.mem_singleton.mp hm)
  · obtain rfl := Option.some.inj h
    rcases List.mem_append.mp hm with hm | hm
    · exact .inl hm
    · exact .inr (List.mem_singleton.mp hm)

/-- The step of the invariant. -/
theorem CacheRight.line {mmaps listed : List (Mmap w)} {map : Mmap w} (h : CacheRight mmaps listed)
    (hmap : map.fromAddr < map.toAddr) (hfit : LineFits mmaps listed map) :
    CacheRight (cacheLine mmaps map) (listed ++ [map]) where
  apart := ((lineFits_iff h).mp hfit).apart
  listed := ((lineFits_iff h).mp hfit).listed
  nonempty := by
    intro m hm
    unfold cacheLine at hm
    cases hregister : registerMmap mmaps map with
    | none =>
      rw [hregister] at hm
      exact h.nonempty m hm
    | some mmaps' =>
      rw [hregister] at hm
      rcases registerMmap_mem hregister m hm with hm | rfl
      · exact h.nonempty m hm
      · exact hmap

/-! ## The lines of a file -/

@[simp] theorem cacheLines_nil (mmaps : List (Mmap w)) : cacheLines mmaps [] = mmaps := rfl

@[simp] theorem cacheLines_cons (mmaps : List (Mmap w)) (map : Mmap w) (maps : List (Mmap w)) :
    cacheLines mmaps (map :: maps) = cacheLines (cacheLine mmaps map) maps := rfl

theorem CacheRight.lines {mmaps listed maps : List (Mmap w)} (h : CacheRight mmaps listed)
    (hmaps : ∀ map ∈ maps, map.fromAddr < map.toAddr) (hfit : LinesFit mmaps listed maps) :
    CacheRight (cacheLines mmaps maps) (listed ++ maps) := by
  induction maps generalizing mmaps listed with
  | nil => simpa using h
  | cons map maps ih =>
    obtain ⟨hmap, hmaps⟩ := List.forall_mem_cons.mp hmaps
    have := ih (h.line hmap hfit.1) hmaps hfit.2
    rwa [List.append_assoc, List.singleton_append] at this

theorem sentLines_sublist (mmaps maps : List (Mmap w)) : (sentLines mmaps maps).Sublist maps := by
  induction maps generalizing mmaps with
  | nil => exact List.Sublist.refl _
  | cons map maps ih =>
    rw [sentLines]
    split
    · exact (ih _).cons_cons map
    · exact (ih _).cons map

theorem sentLines_append (mmaps front back : List (Mmap w)) :
    sentLines mmaps (front ++ back)
      = sentLines mmaps front ++ sentLines (cacheLines mmaps front) back := by
  induction front generalizing mmaps with
  | nil => rfl
  | cons map front ih => rw [List.cons_append, sentLines, sentLines, ih, List.append_assoc]; rfl

theorem LinesFit.append {mmaps listed front back : List (Mmap w)}
    (h : LinesFit mmaps listed (front ++ back)) :
    LinesFit mmaps listed front ∧ LinesFit (cacheLines mmaps front) (listed ++ front) back := by
  induction front generalizing mmaps listed with
  | nil => exact ⟨trivial, by simpa using h⟩
  | cons map front ih =>
    obtain ⟨hmap, hrest⟩ := h
    obtain ⟨hfront, hback⟩ := ih hrest
    rw [List.append_assoc, List.singleton_append] at hback
    exact ⟨⟨hmap, hfront⟩, hback⟩

/-- A mapping of the file is handed over exactly if it is not cached at
its turn. -/
theorem mem_sentLines_iff {mmaps listed front back : List (Mmap w)} {map : Mmap w}
    (h : CacheRight mmaps listed) (hnodup : (front ++ map :: back).Nodup)
    (hmaps : ∀ m ∈ front ++ map :: back, m.fromAddr < m.toAddr)
    (hfit : LinesFit mmaps listed (front ++ map :: back)) :
    map ∈ sentLines mmaps (front ++ map :: back) ↔ map ∉ cacheLines mmaps front := by
  obtain ⟨hfront, hback⟩ := hfit.append
  have hcache := h.lines (fun m hm => hmaps m (List.mem_append_left _ hm)) hfront
  have hright := (lineFits_iff hcache).mp hback.1
  have hnotFront : map ∉ sentLines mmaps front := fun hmem =>
    (List.disjoint_of_nodup_append hnodup) ((sentLines_sublist _ _).subset hmem) List.mem_cons_self
  have hnotBack : ∀ c, map ∉ sentLines c back := fun c hmem =>
    (List.nodup_cons.mp hnodup.of_append_right).1 ((sentLines_sublist _ _).subset hmem)
  rw [sentLines_append, sentLines, List.mem_append, List.mem_append, or_iff_right hnotFront,
    or_iff_left (hnotBack _), ← hright.sent]
  split
  · rename_i hsome
    exact iff_of_true List.mem_cons_self hsome
  · rename_i hnone
    exact iff_of_false List.not_mem_nil hnone

/-- Nothing is handed over of what is cached already. -/
theorem sentLines_cached {mmaps listed maps : List (Mmap w)} (h : CacheRight mmaps listed)
    (hcached : ∀ map ∈ maps, map ∈ mmaps) (hfit : LinesFit mmaps listed maps) :
    sentLines mmaps maps = [] := by
  induction maps generalizing listed with
  | nil => rfl
  | cons map maps ih =>
    obtain ⟨hmem, hcached⟩ := List.forall_mem_cons.mp hcached
    have hright := (lineFits_iff h).mp hfit.1
    have hnone : registerMmap mmaps map = none := by
      rw [← Option.not_isSome_iff_eq_none, hright.sent]
      exact not_not.mpr hmem
    have hcache : cacheLine mmaps map = mmaps := by rw [cacheLine, hnone]; rfl
    have hrest := hfit.2
    rw [hcache] at hrest
    have hlisted : CacheRight mmaps (listed ++ [map]) :=
      { h with listed := fun m hm => hcache ▸ hright.listed m hm }
    rw [sentLines, hnone, hcache, ih hlisted hcached hrest]
    rfl

/-! ## A scan -/

/-- The loop folds the lines as long as the packets are written. -/
theorem scanMmapLines_spec {env : ListenerEnv} {lines : List Str} {st : ListenerState w}
    (hwritten : ∀ n < (lines.filterMap (mapsLine (w := w))).length,
      env.writes (st.out.length + n) = true) :
    (scanMmapLines env lines st).mmaps = cacheLines st.mmaps (lines.filterMap mapsLine) ∧
      (scanMmapLines env lines st).out
        = st.out ++ (sentLines st.mmaps (lines.filterMap mapsLine)).map mmapPacket := by
  induction lines generalizing st with
  | nil => simp [scanMmapLines, sentLines]
  | cons line lines ih =>
    cases hline : mapsLine (w := w) line with
    | none =>
      rw [List.filterMap_cons_none hline] at hwritten ⊢
      simpa only [scanMmapLines, hline, Option.bind_none] using ih hwritten
    | some map =>
      rw [List.filterMap_cons_some hline] at hwritten ⊢
      rw [List.length_cons] at hwritten
      rw [cacheLines_cons, sentLines]
      cases hregister : registerMmap st.mmaps map with
      | none =>
        have hcache : cacheLine st.mmaps map = st.mmaps := by rw [cacheLine, hregister]; rfl
        rw [hcache]
        simpa only [scanMmapLines, hline, Option.bind_some, hregister, Option.map_none,
          Option.isSome_none, Bool.false_eq_true, if_false, List.nil_append]
          using ih fun n hn => hwritten n (by omega)
      | some mmaps =>
        have hcache : cacheLine st.mmaps map = mmaps := by rw [cacheLine, hregister]; rfl
        have hwrite := hwritten 0 (by omega)
        rw [Nat.add_zero] at hwrite
        have hlater : ∀ n < (lines.filterMap (mapsLine (w := w))).length,
            env.writes ((st.out ++ [mmapPacket map]).length + n) = true := by
          intro n hn
          have := hwritten (n + 1) (by omega)
          rwa [List.length_append, List.length_singleton, Nat.add_assoc, Nat.add_comm 1 n]
        have hnext := @ih { st with mmaps, out := st.out ++ [mmapPacket map] } hlater
        rw [hcache]
        simp only [scanMmapLines, hline, Option.bind_some, hregister, Option.map_some, writeData,
          hwrite, Option.isSome_some, if_true, List.singleton_append, List.map_cons]
        simpa only [List.append_assoc, List.singleton_append] using hnext

/-- A scan that is not cut short. -/
theorem scanMmapData_spec {env : ListenerEnv} {st : ListenerState w} {content : MapsContent w}
    (h : ScanReads env st content) :
    (scanMmapData env st).mmaps = cacheLines st.mmaps content.mappings ∧
      (scanMmapData env st).out
        = st.out ++ (sentLines st.mmaps content.mappings).map mmapPacket := by
  have hlines : (fgetsLines pathMax (env.maps st.out.length st.pid)).filterMap mapsLine
      = content.mappings := by
    rw [h.file, fgetsLines_content h.lines, filterMap_mapsLine h.lines]
    rfl
  rw [← hlines]
  refine scanMmapLines_spec ?_
  rw [hlines]
  exact h.written

/-- Only the packet of a new library touches the cache. -/
theorem dispatchPacket_mmaps {env : ListenerEnv} {st : ListenerState w} {type : BitVec 32}
    {window : List UInt8} {len : Nat} {r : PacketResult w} (htype : type ≠ protoNewLibrary)
    (h : dispatchPacket env st type window len = some r) : r.state.mmaps = st.mmaps := by
  unfold dispatchPacket at h
  split at h
  · simp only [processOutputSettings, Option.bind_eq_bind, Option.bind_eq_some_iff] at h
    obtain ⟨_, -, _, -, _, -, _, -, h⟩ := h
    split at h
    · rename_i heq
      obtain rfl := Option.some.inj h
      simp only [writeData, Prod.mk.injEq] at heq
      rw [← heq.1]
      rfl
    · rename_i heq
      obtain rfl := Option.some.inj h
      simp only [writeData, Prod.mk.injEq] at heq
      rw [← heq.1]
  · split at h
    · simp only [processProcessInfo, Option.bind_eq_bind, Option.bind_eq_some_iff] at h
      obtain ⟨_, -, _, -, _, -, h⟩ := h
      obtain rfl := Option.some.inj h
      rfl
    · split at h
      · simp only [processAttachment, Option.bind_eq_bind, Option.bind_eq_some_iff] at h
        obtain ⟨_, -, _, -, _, -, h⟩ := h
        obtain rfl := Option.some.inj h
        rfl
      · obtain rfl := Option.some.inj h
        rfl

/-! ## Runs -/

theorem MapsContent.mappings_nonempty (content : MapsContent w) :
    ∀ map ∈ content.mappings, map.fromAddr < map.toAddr := by
  intro map hmap
  obtain ⟨e, -, he⟩ := List.mem_filterMap.mp hmap
  unfold MapsEntry.mapping at he
  split at he
  · obtain rfl := Option.some.inj he
    exact e.nonempty
  · cases he

theorem MapsContent.mappings_ascending (content : MapsContent w) :
    content.mappings.Pairwise fun m m' => m.toAddr ≤ m'.fromAddr := by
  refine content.ascending.filterMap _ fun e e' hle m hm m' hm' => ?_
  unfold MapsEntry.mapping at hm hm'
  split at hm <;> [skip; cases hm]
  split at hm' <;> [skip; cases hm']
  obtain rfl := Option.some.inj hm
  obtain rfl := Option.some.inj hm'
  exact hle

theorem MapsContent.mappings_nodup (content : MapsContent w) : content.mappings.Nodup := by
  refine content.mappings_ascending.imp_of_mem fun {m m'} hm _ hle heq => ?_
  have := content.mappings_nonempty m hm
  subst heq
  bv_omega

/-- The invariant of the runs: the cache is right for the last file. -/
theorem FittingScans.cacheRight {last : Option (MapsContent w)} {st : ListenerState w}
    (h : FittingScans last st) : CacheRight st.mmaps (last.elim [] MapsContent.mappings) := by
  induction h with
  | start h =>
    rw [h]
    exact ⟨.nil, List.forall_mem_nil _, List.forall_mem_nil _⟩
  | packet h htype hr ih =>
    rw [dispatchPacket_mmaps htype hr]
    exact ih
  | @scan env last st content h hfit ih =>
    have hempty : CacheRight st.mmaps [] := { ih with listed := List.forall_mem_nil _ }
    have hlines := hempty.lines content.mappings_nonempty hfit.cache
    rw [List.nil_append] at hlines
    rw [(scanMmapData_spec hfit.toScanReads).1]
    exact hlines

/-- **In every run whose scans all meet the condition, every scan is
right.** -/
theorem scanMmapData_right {env : ListenerEnv} {st : ListenerState w} {content : MapsContent w}
    {last : Option (MapsContent w)} (hrun : FittingScans last st) (hfit : ScanFits env st content) :
    ScanRight env st content last := by
  obtain ⟨hmmaps, hout⟩ := scanMmapData_spec hfit.toScanReads
  have hcache : CacheRight st.mmaps [] := { hrun.cacheRight with listed := List.forall_mem_nil _ }
  have hafter := hcache.lines content.mappings_nonempty hfit.cache
  rw [List.nil_append, ← hmmaps] at hafter
  refine
    { sent := ⟨sentLines st.mmaps content.mappings, hout, sentLines_sublist _ _, ?_⟩
      again := ?_
      apart := hafter.apart
      listed := hafter.listed }
  · intro front map back hsplit
    have hnonempty := content.mappings_nonempty
    have hnodup := content.mappings_nodup
    have hlines := hfit.cache
    rw [hsplit] at hnonempty hnodup hlines ⊢
    exact mem_sentLines_iff hcache hnodup hnonempty hlines
  · intro hlast
    have hlisted : ∀ map ∈ content.mappings, map ∈ st.mmaps := by
      have := hrun.cacheRight.listed
      rwa [hlast] at this
    rw [hout, sentLines_cached hcache hlisted hfit.cache]
    exact List.append_nil _

/-! ## Two files -/

/-- An executable mapping of one page. -/
def samplePage (fromAddr toAddr : BitVec 64) (h : fromAddr < toAddr) : MapsEntry 64 where
  fromAddr := fromAddr
  toAddr := toAddr
  rights := "r-xp".toList
  offset := "00000000".toList
  device := "08:01".toList
  inode := "7".toList
  gap := 3
  name := "/lib/a".toList
  nonempty := h
  rights_length := rfl
  fields_nonempty := List.all_iff_forall_prop.mp (by decide)
  fields_plain := by
    have hall : (["r-xp", "00000000", "08:01", "7"].map String.toList).all
        (List.all · (!isSpace ·)) = true := by decide
    intro field hfield c hc
    have := List.all_eq_true.mp (List.all_eq_true.mp hall field hfield) c hc
    simpa using this
  name_plain := List.all_iff_forall_prop.mp (by decide)
  name_start := by decide

/-- Two mappings with a gap. -/
def distantContent : MapsContent 64 where
  entries := [samplePage 0x1000 0x2000 (by decide), samplePage 0x3000 0x4000 (by decide)]
  ascending := by decide

/-- Two neighbours. -/
def neighbourContent : MapsContent 64 where
  entries := [samplePage 0x1000 0x2000 (by decide), samplePage 0x2000 0x3000 (by decide)]
  ascending := by decide

/-- The file does not change, and every packet is written. -/
def steadyEnv (content : MapsContent 64) : ListenerEnv where
  writes := fun _ => true
  timeofday := fun _ => (0, 0)
  maps := fun _ _ => content.text

def freshListener : ListenerState 64 where
  hsBuffer := []
  outputDir := none
  postproc := none
  pid := 7
  mmaps := []
  out := []

theorem steadyEnv_reads (content : MapsContent 64) (st : ListenerState 64)
    (h : content.entries.all (·.text.length < pathMax) = true) :
    ScanReads (steadyEnv content) st content where
  file := rfl
  lines := fun e he => of_decide_eq_true (List.all_eq_true.mp h e he)
  written := fun _ _ => rfl

/-- The first scan of the distant mappings. -/
theorem distantContent_fits :
    ScanFits (steadyEnv distantContent) freshListener distantContent where
  toScanReads := steadyEnv_reads _ _ (by decide)
  cache := by decide

/-- Scanned again, the distant mappings are not handed over again. -/
theorem scanMmapData_right_distant :
    (scanMmapData (steadyEnv distantContent)
        (scanMmapData (steadyEnv distantContent) freshListener)).out
      = (scanMmapData (steadyEnv distantContent) freshListener).out := by
  have hcache := (scanMmapData_spec distantContent_fits.toScanReads).1
  have hfit : ScanFits (steadyEnv distantContent)
      (scanMmapData (steadyEnv distantContent) freshListener) distantContent :=
    { toScanReads := steadyEnv_reads _ _ (by decide)
      cache := by rw [hcache]; decide }
  exact (scanMmapData_right (.scan (.start rfl) distantContent_fits) hfit).again rfl

/-- Of two neighbours the cache keeps the second only, and when the file is
scanned again both are handed over again. -/
theorem scanMmapData_neighbours :
    let st := scanMmapData (steadyEnv neighbourContent) freshListener
    (∃ map ∈ neighbourContent.mappings, map ∉ st.mmaps) ∧ st.out.length = 2 ∧
      (scanMmapData (steadyEnv neighbourContent) st).out.length = 4 := by
  intro st
  have hreads := steadyEnv_reads neighbourContent
  obtain ⟨hcache, hout⟩ := scanMmapData_spec (hreads freshListener (by decide))
  have hagain := (scanMmapData_spec (hreads st (by decide))).2
  refine ⟨?_, ?_, ?_⟩
  · rw [hcache]
    decide
  · rw [hout]
    decide
  · rw [hagain, hout, hcache, List.length_append, List.length_map]
    decide

end SpRtrace.Rtrace
