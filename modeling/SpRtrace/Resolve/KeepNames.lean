/-
SpRtrace.Resolve.KeepNames — the lines that the resolver writes for an
address, `get_address_info` of `src/rtrace-resolve/resolver.c`, and what
becomes of them when they are resolved again with their names kept.

A line is read again with `"%c0x%lx (%[^\n]"`, but none of the texts that
the resolver writes behind an address stands in a parenthesis. A text that
does not begin with one is taken for no name at all, so the address is
resolved anew with the mappings of the second log
(`EmittedLine.keep_ignored`). A text that happens to begin with one loses
it, together with its last character. No line is kept in every log
(`resolveName_not_kept`).

What the bfd and the elf library find for an address, and the demangler,
are parameters (`SymbolFiles`).
-/
import SpRtrace.Library.RecordTheorems
import SpRtrace.Resolve.MultiPassTheorems

namespace SpRtrace.Resolve

open SpRtrace.Lib SpRtrace.Common SpRtrace.Library

variable {w : Nat}

/-! ## The text for an address -/

structure SymbolInfo where
  name : Option Str
  source : Option Str
  line : BitVec 32

/-- How a lookup ends: whether it succeeded, and what it left in the
structure, which is empty before. -/
structure Lookup where
  found : Bool
  info : SymbolInfo

/-- `MODE_BFD` and `MODE_ELF` of the mode. -/
structure Method where
  bfd : Bool
  elf : Bool

/-- What the files of the modules and the demangler say. -/
structure SymbolFiles (w : Nat) where
  /-- `rs_mmap_is_absolute`, `none` is an error -/
  isAbsolute : Str → Option Bool
  /-- `rs_load_symbols` -/
  loads : Str → Bool
  /-- `bfd_get_address_info` -/
  bfd : RsMmap w → BitVec w → Lookup
  /-- `elf_get_address_info` -/
  elf : RsMmap w → BitVec w → Lookup
  /-- `cplus_demangle` -/
  demangle : Str → Option Str

/-- The symbol that `get_address_info` takes. With both methods the names
decide, and the results of the lookups are not looked at. -/
def chooseSymbol (method : Method) (bfd elf : Lookup) : Option SymbolInfo :=
  if method.bfd ∧ method.elf then
    match elf.info.name with
    | none => none
    | some name => if bfd.info.name = some name then some bfd.info else some elf.info
  else if method.bfd then if bfd.found then some bfd.info else none
  else if method.elf then if elf.found then some elf.info else none
  else none

def printFunction (demangle : Str → Option Str) (name : Str) : Str :=
  let functionname := if "IA__".toList.isPrefixOf name then name.drop 4 else name
  (demangle functionname).getD (functionname ++ "()".toList)

def stripPath (path : Str) : Str :=
  match strrchr path '/' with
  | some (_, source) => source.tail
  | none => path

/-- The line of a source file, if it is known. -/
def printLine (line : BitVec 32) : Str := if line = 0 then [] else ':' :: printInt line

/-- `get_address_info`; `none` is an error. -/
def getAddressInfo (opts : ResolveOptions) (method : Method) (files : SymbolFiles w)
    (map : RsMmap w) (addr : BitVec w) : Option Str :=
  (chooseSymbol method (files.bfd map addr) (files.elf map addr)).map fun sym =>
    let function := (sym.name.map (printFunction files.demangle)).getD []
    let place := match sym.source with
      | some source =>
          " at ".toList ++ (if opts.fullPath then source else stripPath source) ++ printLine sym.line
      | none => " from ".toList ++ rsTargetPath opts map.module
    printAddress addr (function ++ place ++ ['\n'])

/-- The files as the resolver uses them. -/
def SymbolFiles.symbols (files : SymbolFiles w) (method : Method) (opts : ResolveOptions) :
    Symbols w :=
  { isAbsolute := files.isAbsolute, loads := files.loads,
    addressInfo := getAddressInfo opts method files }

/-! ## Emitted lines -/

/-- The end of an emitted line. -/
inductive Place
  | source (path : Str) (line : BitVec 32)
  | module (path : Str)
  | unknown

def Place.text : Place → Str
  | .source path line => "at ".toList ++ path ++ printLine line
  | .module path => "from ".toList ++ path
  | .unknown => "in ??".toList

/-- Without the directory of the path. -/
def Place.stripped : Place → Place
  | .source path line => .source (stripPath path) line
  | .module path => .module (stripPath path)
  | .unknown => .unknown

/-- A line for an address: the symbol with the blank behind it, or
nothing, and the place. -/
structure EmittedLine (w : Nat) where
  addr : BitVec w
  symbol : Str
  place : Place

def EmittedLine.text (e : EmittedLine w) : Str :=
  printAddress e.addr (e.symbol ++ e.place.text ++ ['\n'])

def EmittedLine.stripped (e : EmittedLine w) : EmittedLine w := { e with place := e.place.stripped }

theorem text_module (addr : BitVec w) (symbol path : Str) :
    EmittedLine.text { addr, symbol, place := .module path }
      = printAddress addr (symbol ++ ("from ".toList ++ path) ++ ['\n']) := rfl

theorem text_source (addr : BitVec w) (symbol path : Str) (line : BitVec 32) :
    EmittedLine.text { addr, symbol, place := .source path line }
      = printAddress addr (symbol ++ ("at ".toList ++ path ++ printLine line) ++ ['\n']) := rfl

/-- **What an address resolves to is an emitted line.** -/
theorem resolveName_emitted (opts : ResolveOptions) (files : SymbolFiles w) (method : Method)
    (mmaps : SmallArray (RsMmap w)) (addr : BitVec w) :
    ∃ e : EmittedLine w, e.text = resolveName opts (files.symbols method opts) mmaps addr := by
  unfold resolveName
  cases rsMmapFindModule mmaps addr with
  | none => exact ⟨{ addr, symbol := [], place := .unknown }, rfl⟩
  | some map =>
    have hunresolved : ∃ e : EmittedLine w, e.text
        = printAddress addr ("from ".toList ++ rsTargetPath opts map.module ++ ['\n']) :=
      ⟨{ addr, symbol := [], place := .module (rsTargetPath opts map.module) }, rfl⟩
    simp only
    split
    · cases hinfo : (files.symbols method opts).addressInfo map addr with
      | none => exact hunresolved
      | some text =>
        obtain ⟨sym, -, rfl⟩ := Option.map_eq_some_iff.mp hinfo
        let function := (sym.name.map (printFunction files.demangle)).getD []
        -- the blank belongs to the place there, and to the symbol here
        have hfrom : " from ".toList = ' ' :: "from ".toList := rfl
        have hat : " at ".toList = ' ' :: "at ".toList := rfl
        cases hsource : sym.source with
        | none =>
          refine ⟨{ addr, symbol := function ++ [' '],
                    place := .module (rsTargetPath opts map.module) }, ?_⟩
          simp only [text_module, function, hfrom, List.append_assoc, List.cons_append,
            List.nil_append, Option.getD_some]
        | some source =>
          refine ⟨{ addr, symbol := function ++ [' '],
                    place := .source (if opts.fullPath then source else stripPath source) sym.line },
            ?_⟩
          simp only [text_source, function, hat, List.append_assoc, List.cons_append,
            List.nil_append, Option.getD_some]
    · exact hunresolved

/-! ## Resolving again -/

/-- The state when the first lines of a log are read; `none` after a
memory error. -/
def resolveState (opts : ResolveOptions) (sym : Symbols w) :
    ResolveState w → List Str → Option (ResolveState w)
  | st, [] => some st
  | st, line :: lines =>
      (resolveLine opts sym st line).bind fun out => resolveState opts sym out.2 lines

/-- The state of `do_resolve` at the beginning, with the cache allocated. -/
def resolveStart : ResolveState w := { maps := .init, cache := some namecacheAlloc }

/-- The line is kept wherever it stands: behind any part of a log, and
whatever the files say now. Without the path of the source file the
directory is removed. -/
def EmittedLine.Kept (e : EmittedLine w) : Prop :=
  ∀ opts (sym : Symbols w) lines st, opts.keepResolved = true →
    resolveState opts sym resolveStart lines = some st →
      (resolveLine opts sym st e.text).map Prod.fst
        = some (if opts.fullPath then e.text else e.stripped.text)

variable {opts : ResolveOptions} {sym : Symbols w}

/-- The address of an emitted line is read back, and the text behind it is
scanned for a name. -/
theorem sscanf_printAddress (addr : BitVec w) (text : Str) :
    (sscanf w backtraceLineFormat (printAddress addr text)).map ScanResult.values
      = (sscanf w nameFormat text).map fun r => .char '\t' :: .long addr :: r.values := by
  have hchar : scanConv (w := w) .char (printAddress addr text)
      = .ok (.char '\t') ('0' :: 'x' :: (printNat 16 addr.toNat ++ ' ' :: text)) := rfl
  have haddr : scanConv (w := w) .hexLong (printNat 16 addr.toNat ++ ' ' :: text)
      = .ok (.long addr) (' ' :: text) := scanConv_hexLong_printNat addr (by simp; decide)
  have hblank : sscanf w nameFormat (' ' :: text) = sscanf w nameFormat text := by
    rw [nameFormat, sscanf_space, sscanf_space, skipSpace_blank]
  have hformat : backtraceLineFormat
      = .conv .char :: .lit '0' :: .lit 'x' :: .conv .hexLong :: nameFormat := rfl
  rw [hformat, sscanf_conv hchar, sscanf_lit, sscanf_lit, sscanf_conv haddr, hblank,
    Option.map_map, Option.map_map]
  rfl

/-- The name is shorter than the text, if there is one. -/
theorem scanBacktraceRecord_printAddress (addr : BitVec w) (text : Str)
    (h : text.length < pathMax) :
    ∃ name, scanBacktraceRecord w (printAddress addr text) = some (addr, name) ∧
      (name = [] ∨ name.length + 2 ≤ text.length) := by
  obtain ⟨r, hr, hvalues⟩ := sscanf_name (w := w) h
  have hscan := sscanf_printAddress addr text
  rw [hr, Option.map_some] at hscan
  rcases hvalues with hv | ⟨name, hv, hlen⟩
  · rw [hv] at hscan
    exact ⟨[], by simp [scanBacktraceRecord, hscan], Or.inl rfl⟩
  · rw [hv] at hscan
    refine ⟨name.dropLast, by simp [scanBacktraceRecord, hscan], ?_⟩
    cases name with
    | nil => exact Or.inl rfl
    | cons c name =>
      right
      rw [List.length_dropLast]
      simp only [List.length_cons] at hlen ⊢
      omega

/-- A text that does not begin with a parenthesis is no name. -/
theorem scanBacktraceRecord_unnamed (addr : BitVec w) {text : Str}
    (h : (skipSpace text).head? ≠ some '(') :
    scanBacktraceRecord w (printAddress addr text) = some (addr, []) := by
  obtain ⟨r, hr, hvalues⟩ : ∃ r : ScanResult w,
      sscanf w nameFormat text = some r ∧ r.values = [] := by
    rw [nameFormat, sscanf_space]
    cases hskip : skipSpace text with
    | nil => exact ⟨_, rfl, rfl⟩
    | cons c rest =>
      have hc : '(' ≠ c := by
        rintro rfl
        exact h (by rw [hskip]; rfl)
      exact ⟨_, sscanf_lit_ne hc _ _, rfl⟩
  have hscan := sscanf_printAddress addr text
  rw [hr, Option.map_some, hvalues] at hscan
  simp [scanBacktraceRecord, hscan]

theorem scanMmapRecord_printAddress (addr : BitVec w) (text : Str) :
    scanMmapRecord w (printAddress addr text) = none := by
  have hscan : sscanf w mmapFormat (printAddress addr text)
      = some { values := [], eof := false } := sscanf_lit_ne (by decide) _ _
  rw [scanMmapRecord, hscan]
  rfl

/-- The cache in a log whose mappings have all been read: what its last
uses resolved to with these. -/
structure Settled (opts : ResolveOptions) (sym : Symbols w) (mmaps : SmallArray (RsMmap w))
    (cache : NameCache w) (uses : List (Use w)) : Prop where
  mirrors : Mirrors opts sym cache uses
  fixed : ∀ u ∈ uses, u.mmaps = mmaps

theorem settled_alloc (mmaps : SmallArray (RsMmap w)) : Settled opts sym mmaps namecacheAlloc [] :=
  ⟨mirrors_alloc, fun _ h => absurd h (by simp)⟩

theorem Settled.add {mmaps : SmallArray (RsMmap w)} {cache : NameCache w} {uses : List (Use w)}
    (h : Settled opts sym mmaps cache uses) {addr : BitVec w} (haddr : addr = 0 → Filled uses) :
    Settled opts sym mmaps (namecacheAdd cache addr (resolveName opts sym mmaps addr))
      (⟨addr, mmaps⟩ :: uses) := by
  refine ⟨h.mirrors.add haddr mmaps, fun u hu => ?_⟩
  rcases List.mem_cons.mp hu with rfl | hu
  · rfl
  · exact h.fixed u hu

/-- An address without a name is resolved with the mappings, whether the
cache has it or not, and its slot is used then. -/
theorem Settled.resolveLine {maps : RsMaps w} {cache : NameCache w} {uses : List (Use w)}
    (h : Settled opts sym maps.mmaps cache uses) {line name : Str} {addr : BitVec w}
    (hmmap : scanMmapRecord w line = none)
    (hback : scanBacktraceRecord w line = some (addr, name))
    (hkept : ¬ (name ≠ [] ∧ opts.keepResolved)) (haddr : addr = 0 → Filled uses) :
    ∃ cache' uses', resolveLine opts sym { maps, cache := some cache } line
        = some (resolveName opts sym maps.mmaps addr, { maps, cache := some cache' }) ∧
      Settled opts sym maps.mmaps cache' uses' ∧
      ∀ slot, slot = calcHash addr ∨ (lastUse uses slot).isSome → (lastUse uses' slot).isSome := by
  have hline : Resolve.resolveLine opts sym { maps, cache := some cache } line = _ :=
    resolveLine_cached hmmap hback hkept maps cache
  rw [h.mirrors.get haddr] at hline
  have hstored : ∀ slot, slot = calcHash addr ∨ (lastUse uses slot).isSome →
      (lastUse (⟨addr, maps.mmaps⟩ :: uses) slot).isSome := by
    intro slot hslot
    rw [lastUse_cons]
    split
    · rfl
    next hne => exact hslot.resolve_left hne
  cases hlast : lastUse uses (calcHash addr) with
  | none =>
    rw [hlast, Option.any_none, if_neg (by simp)] at hline
    exact ⟨_, _, hline, h.add haddr, hstored⟩
  | some u =>
    by_cases hu : u.addr = addr
    · have hmem : u ∈ uses := List.mem_of_find?_eq_some hlast
      rw [hlast, Option.any_some, decide_eq_true hu, if_pos rfl] at hline
      simp only [(h.mirrors.used _ u hlast).2, Option.getD_some, h.fixed u hmem, hu] at hline
      refine ⟨_, uses, hline, h, fun slot hslot => ?_⟩
      rcases hslot with rfl | hslot
      · rw [hlast]
        rfl
      · exact hslot
    · rw [hlast, Option.any_some, decide_eq_false hu, if_neg (by simp)] at hline
      exact ⟨_, _, hline, h.add haddr, hstored⟩

/-- Lines with an address and no name. -/
def addressLines (addrs : List (BitVec w)) : List Str :=
  addrs.map fun addr => printAddress addr ['\n']

/-- Behind such lines the slots of their addresses are used. -/
theorem Settled.resolveState {maps : RsMaps w} {addrs : List (BitVec w)} (hne : ∀ a ∈ addrs, a ≠ 0)
    {cache : NameCache w} {uses : List (Use w)} (h : Settled opts sym maps.mmaps cache uses) :
    ∃ cache' uses', resolveState opts sym { maps, cache := some cache } (addressLines addrs)
        = some { maps, cache := some cache' } ∧
      Settled opts sym maps.mmaps cache' uses' ∧
      ∀ slot, slot ∈ addrs.map calcHash ∨ (lastUse uses slot).isSome →
        (lastUse uses' slot).isSome := by
  induction addrs generalizing cache uses with
  | nil => exact ⟨cache, uses, rfl, h, fun slot hslot => hslot.resolve_left (by simp)⟩
  | cons addr addrs ih =>
    obtain ⟨name, hback, hname⟩ := scanBacktraceRecord_printAddress addr ['\n'] (by decide)
    have hnone : name = [] := hname.resolve_right (by simp)
    obtain ⟨cache₁, uses₁, hline, h₁, hused₁⟩ := h.resolveLine
      (scanMmapRecord_printAddress addr _) hback (fun hkept => hkept.1 hnone)
      fun hzero => absurd hzero (hne addr (List.mem_cons_self ..))
    obtain ⟨cache₂, uses₂, hlines, h₂, hused₂⟩ :=
      ih (fun a ha => hne a (List.mem_cons_of_mem _ ha)) h₁
    refine ⟨cache₂, uses₂, ?_, h₂, fun slot hslot => hused₂ slot ?_⟩
    · rw [addressLines, List.map_cons, Resolve.resolveState, hline]
      exact hlines
    · rw [List.map_cons, List.mem_cons, or_assoc] at hslot
      rcases hslot with hslot | hslot | hslot
      · exact Or.inr (hused₁ slot (Or.inl hslot))
      · exact Or.inl hslot
      · exact Or.inr (hused₁ slot (Or.inr hslot))

/-- Addresses in the slots of address 0. -/
def fillers (w : Nat) : List (BitVec w) := [0x12000#w, 1#w, 2#w, 3#w, 4#w]

theorem fillers_toNat (hw : 32 ≤ w) : (fillers w).map BitVec.toNat = [0x12000, 1, 2, 3, 4] := by
  have hpow : 2 ^ 32 ≤ 2 ^ w := Nat.pow_le_pow_right (by decide) hw
  have hnat : ∀ n < 2 ^ 32, (BitVec.ofNat w n).toNat = n := fun n hn => by
    rw [BitVec.toNat_ofNat, Nat.mod_eq_of_lt (by omega)]
  simp only [fillers, List.map_cons, List.map_nil]
  rw [hnat _ (by decide), hnat _ (by decide), hnat _ (by decide), hnat _ (by decide),
    hnat _ (by decide)]

theorem fillers_ne (hw : 32 ≤ w) : ∀ a ∈ fillers w, a ≠ 0 := by
  rintro a ha rfl
  have hmem : (0 : BitVec w).toNat ∈ (fillers w).map BitVec.toNat := List.mem_map_of_mem ha
  rw [fillers_toNat hw] at hmem
  simp at hmem

theorem fillers_hash (hw : 32 ≤ w) : (fillers w).map calcHash = List.range cacheSlotCount := by
  have hmap : (fillers w).map calcHash
      = ((fillers w).map BitVec.toNat).map (calcHashFrom 0) := by simp [calcHash]
  rw [hmap, fillers_toNat hw]
  simp [calcHashFrom, cacheSize, cacheSlotCount, List.range_succ]

/-- With the slots of address 0 used, any address without a name is
resolved with the mappings. -/
theorem resolveLine_anew (hw : 32 ≤ w) (sym : Symbols w) (maps : RsMaps w) {line name : Str}
    {addr : BitVec w} (hmmap : scanMmapRecord w line = none)
    (hback : scanBacktraceRecord w line = some (addr, name))
    (hkept : ¬ (name ≠ [] ∧ opts.keepResolved)) :
    ∃ st, resolveState opts sym { maps, cache := some namecacheAlloc } (addressLines (fillers w))
        = some st ∧
      (resolveLine opts sym st line).map Prod.fst = some (resolveName opts sym maps.mmaps addr) := by
  obtain ⟨cache, uses, hstate, hsettled, hused⟩ :=
    (settled_alloc maps.mmaps : Settled opts sym _ _ _).resolveState (fillers_ne hw)
  have hfilled : Filled uses := by
    intro i hi
    refine hused i (Or.inl ?_)
    rw [fillers_hash hw]
    exact List.mem_range.mpr hi
  obtain ⟨cache', uses', hline, -, -⟩ := hsettled.resolveLine hmmap hback hkept fun _ => hfilled
  exact ⟨_, hstate, by rw [hline]; rfl⟩

/-! ## No line is kept -/

/-- **The option is without effect on a line whose symbol does not begin
with a parenthesis**: it is resolved anew, as without the option. -/
theorem EmittedLine.keep_ignored {e : EmittedLine w}
    (h : (skipSpace (e.symbol ++ e.place.text ++ ['\n'])).head? ≠ some '(') (keep : Bool)
    (st : ResolveState w) :
    resolveLine { opts with keepResolved := keep } sym st e.text
      = resolveLine opts sym st e.text := by
  have hmmap : scanMmapRecord w e.text = none := scanMmapRecord_printAddress e.addr _
  have hback : scanBacktraceRecord w e.text = some (e.addr, []) :=
    scanBacktraceRecord_unnamed e.addr h
  rw [resolveLine, resolveLine, hmmap, hback]
  simp only [rsResolveAddress, ne_eq, not_true, false_and, if_false]
  rfl

/-- Options to keep names, with their path or without. -/
def keepOptions (full : Bool) : ResolveOptions :=
  { fullPath := full, keepResolved := true, rootPath := none }

def plainFiles (w : Nat) : Symbols w :=
  { isAbsolute := fun _ => some true, loads := fun _ => false, addressInfo := fun _ _ => none }

/-- A mapping with every address, in a log and in the resolver. -/
def wholeMmap (w : Nat) : Mmap w :=
  { fromAddr := 0, toAddr := BitVec.allOnes w, moduleName := ['/', 'm'] }

def wholeRsMmap (w : Nat) : RsMmap w :=
  { id := 1, module := ['/', 'm'], fromAddr := 0, toAddr := BitVec.allOnes w, isAbsolute := true }

theorem scanMmapRecord_wholeMmap :
    scanMmapRecord w (spRtracePrintMmap (wholeMmap w))
      = some (['/', 'm'], 0, BitVec.allOnes w) := by
  have hword : ScannableWord pathMax (wholeMmap w).moduleName :=
    ⟨by simp [wholeMmap], by simp [wholeMmap, isSpace], by simp [wholeMmap, pathMax]⟩
  have hscan : sscanf w mmapFormat (spRtracePrintMmap (wholeMmap w)) = _ := sscanf_printMmap hword
  rw [scanMmapRecord, hscan]
  rfl

/-- The mappings of a log with the record. -/
theorem add_wholeMmap :
    ∃ maps, RsMaps.init.add (keepOptions true) (plainFiles w) (['/', 'm'], 0, BitVec.allOnes w)
        = some maps ∧ maps.mmaps.items = [wholeRsMmap w] := by
  obtain ⟨maps, hadd, hitems, -⟩ := rsMmapAddModule_init
    (show (plainFiles w).isAbsolute ['/', 'm'] = some true from rfl) 0 (BitVec.allOnes w)
  refine ⟨maps, ?_, hitems⟩
  rw [RsMaps.add]
  simp only [rsHostPath, keepOptions, hadd]
  rfl

theorem resolveName_wholeMmap {mmaps : SmallArray (RsMmap w)} (h : mmaps.items = [wholeRsMmap w])
    (addr : BitVec w) :
    resolveName (keepOptions true) (plainFiles w) mmaps addr
      = printAddress addr "from /m\n".toList := by
  have hfind : rsMmapFindModule mmaps addr = some (wholeRsMmap w) := by
    rw [rsMmapFindModule, SmallArray.find_eq, h]
    have hzero : (0 : BitVec w) ≤ addr := by
      rw [BitVec.le_def]
      simp
    refine bisect_single (if_pos ⟨hzero, ?_⟩)
    have hle : addr.toNat ≤ (BitVec.allOnes w).toNat := by
      rw [BitVec.toNat_allOnes]
      have hlt := addr.isLt
      omega
    exact hle
  rw [resolveName, hfind]
  rfl

theorem resolveName_init (addr : BitVec w) (opts : ResolveOptions) (sym : Symbols w) :
    resolveName opts sym (RsMaps.init : RsMaps w).mmaps addr
      = printAddress addr "in ??\n".toList := by
  rw [resolveName, rsMmapFindModule_init]

/-- A text that is taken for a name comes out shorter, and one that is not
is replaced by what the address resolves to in two different logs. -/
theorem EmittedLine.not_kept (hw : 32 ≤ w) {e : EmittedLine w} (hfits : e.text.length < pathMax) :
    ¬ e.Kept := by
  intro hall
  have hlen : (e.symbol ++ e.place.text ++ ['\n']).length < pathMax := by
    refine lt_of_le_of_lt ?_ hfits
    simp only [EmittedLine.text, printAddress, List.length_cons, List.length_append]
    omega
  obtain ⟨name, hback, hname⟩ := scanBacktraceRecord_printAddress e.addr _ hlen
  have hmmap : scanMmapRecord w e.text = none := scanMmapRecord_printAddress e.addr _
  by_cases hne : name = []
  · have hanew : ¬ (name ≠ [] ∧ (keepOptions true).keepResolved) := fun h => h.1 hne
    -- a log without mappings
    obtain ⟨st, hstate, hline⟩ :=
      resolveLine_anew hw (plainFiles w) .init hmmap hback hanew
    have hunmapped := hall (keepOptions true) (plainFiles w) _ st rfl hstate
    -- a log with one
    obtain ⟨maps, hadd, hitems⟩ := @add_wholeMmap w
    obtain ⟨st', hstate', hline'⟩ :=
      resolveLine_anew hw (plainFiles w) maps hmmap hback hanew
    have hrecord : resolveState (keepOptions true) (plainFiles w) resolveStart
        (spRtracePrintMmap (wholeMmap w) :: addressLines (fillers w)) = some st' := by
      rw [resolveState, resolveLine_mmap scanMmapRecord_wholeMmap, resolveStart, hadd]
      exact hstate'
    have hmapped := hall (keepOptions true) (plainFiles w) _ st' rfl hrecord
    rw [hunmapped, resolveName_init] at hline
    rw [hmapped, hline, resolveName_wholeMmap hitems] at hline'
    simp [printAddress] at hline'
  · have hkept : name ≠ [] ∧ (keepOptions true).keepResolved := ⟨hne, rfl⟩
    have hline := hall (keepOptions true) (plainFiles w) [] resolveStart rfl rfl
    rw [resolveLine_kept hmmap hback hkept] at hline
    have htext : printAddress e.addr (name ++ ['\n']) = e.text := by
      simpa [keepName, keepOptions] using hline
    have hshort := hname.resolve_left hne
    have hsame := congrArg List.length htext
    simp only [EmittedLine.text, printAddress, List.length_cons, List.length_append,
      List.length_nil] at hsame hshort
    omega

/-- **No line that an address resolves to is kept in every log.** -/
theorem resolveName_not_kept (hw : 32 ≤ w) (opts : ResolveOptions) (files : SymbolFiles w)
    (method : Method) (mmaps : SmallArray (RsMmap w)) (addr : BitVec w)
    (hfits : (resolveName opts (files.symbols method opts) mmaps addr).length < pathMax) :
    ∃ e : EmittedLine w, e.text = resolveName opts (files.symbols method opts) mmaps addr ∧
      ¬ e.Kept := by
  obtain ⟨e, he⟩ := resolveName_emitted opts files method mmaps addr
  refine ⟨e, he, e.not_kept hw ?_⟩
  rw [he]
  exact hfits

/-! ## Two lines that are lost -/

/-- A program with debug symbols for its function `main`. -/
def sampleFiles : SymbolFiles 64 :=
  { isAbsolute := fun _ => some true
    loads := fun _ => true
    bfd := fun _ _ =>
      { found := true
        info := { name := some "main".toList, source := some "/src/main.c".toList, line := 3 } }
    elf := fun _ _ => { found := false, info := { name := none, source := none, line := 0 } }
    demangle := fun _ => none }

def bfdMethod : Method := { bfd := true, elf := false }

theorem resolveName_sampleFiles {mmaps : SmallArray (RsMmap 64)}
    (h : mmaps.items = [sampleMmap]) :
    resolveName (keepOptions true) (sampleFiles.symbols bfdMethod (keepOptions true)) mmaps 0x1010
      = "\t0x1010 main() at /src/main.c:3\n".toList := by
  rw [resolveName, rsMmapFindModule_sample h]
  decide

theorem resolveName_not_kept_main :
    ∃ e : EmittedLine 64, e.text = "\t0x1010 main() at /src/main.c:3\n".toList ∧ ¬ e.Kept := by
  obtain ⟨maps, -, hitems, -⟩ := logMaps_sample
  have hname := resolveName_sampleFiles hitems
  have hfits : (resolveName (keepOptions true) (sampleFiles.symbols bfdMethod (keepOptions true))
      maps.mmaps 0x1010).length < pathMax := by
    rw [hname]
    simp [pathMax]
  have h := resolveName_not_kept (by decide) (keepOptions true) sampleFiles bfdMethod maps.mmaps
    0x1010 hfits
  rwa [hname] at h

/-- The line of `resolveName_sampleFiles`. -/
def mainLine : EmittedLine 64 :=
  { addr := 0x1010, symbol := "main() ".toList, place := .source "/src/main.c".toList 3 }

/-- A function of C++ whose name begins with a parenthesis. -/
def anonymousLine : EmittedLine 64 :=
  { addr := 0x1010, symbol := "(anonymous namespace)::f() ".toList,
    place := .source "/src/f.cpp".toList 3 }

/-- At the beginning of a log there are no mappings, and the symbol is
lost. -/
theorem resolveLine_mainLine (full : Bool) :
    (resolveLine (keepOptions full) (plainFiles 64) resolveStart
      mainLine.text).map Prod.fst = some "\t0x1010 in ??\n".toList := by
  have hback : scanBacktraceRecord 64 mainLine.text = some (0x1010, []) := by decide
  have hmiss : namecacheGetData (namecacheAlloc : NameCache 64) 0x1010 = none := by
    simp [namecacheGetData, namecacheAlloc, NamecacheRec.zero]
  have hmmap : scanMmapRecord 64 mainLine.text = none := scanMmapRecord_printAddress _ _
  rw [resolveStart, resolveLine_cached hmmap hback (fun h => h.1 rfl), hmiss, resolveName_init]
  decide

/-- A name in a parenthesis loses its first and its last character with its
path, and without the path the end of the copy is not found. -/
theorem resolveLine_anonymousLine (full : Bool) :
    (resolveLine (keepOptions full) (plainFiles 64) resolveStart
      anonymousLine.text).map Prod.fst
        = if full then some "\t0x1010 anonymous namespace)::f() at /src/f.cpp:\n".toList
          else none := by
  have hback : scanBacktraceRecord 64 anonymousLine.text
      = some (0x1010, "anonymous namespace)::f() at /src/f.cpp:".toList) := by decide
  have hmmap : scanMmapRecord 64 anonymousLine.text = none := scanMmapRecord_printAddress _ _
  rw [resolveLine_kept hmmap hback ⟨by simp, rfl⟩]
  cases full with
  | false => decide
  | true => decide

/-- Both lines are lost at the beginning of a log. -/
theorem emittedLines_lost : ¬ mainLine.Kept ∧ ¬ anonymousLine.Kept := by
  constructor
  · intro hkept
    have hline := hkept (keepOptions true) (plainFiles 64) [] resolveStart rfl rfl
    rw [resolveLine_mainLine] at hline
    exact absurd hline (by decide)
  · intro hkept
    have hline := hkept (keepOptions false) (plainFiles 64) [] resolveStart rfl rfl
    rw [resolveLine_anonymousLine] at hline
    exact absurd hline (by decide)

end SpRtrace.Resolve
