/-
SpRtrace.Resolve.Resolver — the name resolver in its default mode,
`src/rtrace-resolve/sarray.c`, `resolver.c` and `sp_rtrace_resolve.c`.

`doResolve` copies a log line by line. A memory mapping record adds a
mapping, and a backtrace line is replaced by the name that its address
resolves to. The mappings are in a sorted array that is searched by
bisection, and in an array by their ids. The second one is doubled when it
is used up, and cannot be doubled beyond 2^30 cells: the program ends
there, so that the first one remains small.

What is read from the files of the modules is a parameter, `Symbols`: the
load address kind of a module, whether its symbols can be loaded, and the
text for an address in a mapping. The symbol data that a mapping keeps
between two lookups is left out, since it holds nothing else. Output is
the list of the strings that are written, one for every line read. The
static buffer of a name is taken to be large enough.
-/
import SpRtrace.Library.Parser
import SpRtrace.Resolve.NameCache
import SpRtrace.Resolve.SortedArray

namespace SpRtrace.Resolve

open SpRtrace.Lib SpRtrace.Common SpRtrace.Library

variable {w : Nat}

/-! ## Mappings -/

structure RsMmap (w : Nat) where
  id : Nat
  module : Str
  fromAddr : BitVec w
  toAddr : BitVec w
  isAbsolute : Bool
deriving DecidableEq

/-- `mmap_compare`; the difference is that of unsigned numbers. -/
def mmapCompare (mmap1 mmap2 : RsMmap w) : Int :=
  if mmap2.fromAddr ≤ mmap1.fromAddr ∧ mmap1.fromAddr ≤ mmap2.toAddr then 0
  else (mmap1.fromAddr - mmap2.fromAddr).toInt

def rsMmapsIndexSize : Int := 256

/-- The mappings of `rs_cache_t`. The array `mmaps_index` starts behind an
unused cell, has as many cells as `mmaps_limit` says, and holds every
mapping under its id. -/
structure RsMaps (w : Nat) where
  mmaps : SmallArray (RsMmap w)
  mmapsIndex : List (RsMmap w)
  mmapsLimit : Int
  size_eq : mmaps.items.length = mmapsIndex.length
  limit : ∃ k ≤ 30, mmapsLimit = 2 ^ k
  room : mmapsIndex.length + 1 ≤ mmapsLimit
  indexed : ∀ map ∈ mmaps.items, 0 < map.id ∧ mmapsIndex[map.id - 1]? = some map

def RsMaps.init : RsMaps w where
  mmaps := SmallArray.init rsMmapsIndexSize (by decide)
  mmapsIndex := []
  mmapsLimit := rsMmapsIndexSize
  size_eq := by rw [SmallArray.items_init]
  limit := ⟨8, by decide, rfl⟩
  room := by simp [rsMmapsIndexSize]
  indexed := by simp

/-- The limit of `mmaps_index` for one more mapping; with 2^30 cells it is
negative then. -/
def RsMaps.grown (rs : RsMaps w) : Int :=
  if rs.mmapsIndex.length + 1 = rs.mmapsLimit then int32 (rs.mmapsLimit * 2) else rs.mmapsLimit

theorem RsMaps.grown_spec {rs : RsMaps w} (h : 0 ≤ rs.grown) :
    (∃ k ≤ 30, rs.grown = 2 ^ k) ∧ rs.mmapsIndex.length + 1 < rs.grown := by
  obtain ⟨k, hk, hlimit⟩ := rs.limit
  have hroom := rs.room
  unfold RsMaps.grown at h ⊢
  split at h
  next hfull =>
    rw [if_pos hfull]
    obtain hlt | rfl := Nat.lt_or_eq_of_le hk
    · have hpow : (2 : Int) ^ (k + 1) ≤ 2 ^ 30 := pow_le_pow_right₀ (by decide) hlt
      have hdouble : int32 (rs.mmapsLimit * 2) = 2 ^ (k + 1) := by
        rw [hlimit, ← pow_succ]
        exact int32_of_small (by omega) (by omega)
      rw [hdouble]
      exact ⟨⟨k + 1, hlt, rfl⟩, by rw [hfull, hlimit, pow_succ]; omega⟩
    · rw [hlimit] at h
      exact absurd h (by decide)
  next hfull =>
    rw [if_neg hfull]
    exact ⟨rs.limit, by omega⟩

theorem RsMaps.grown_small {rs : RsMaps w} (h : 0 ≤ rs.grown) :
    rs.mmaps.items.length + 1 < 2 ^ 30 := by
  obtain ⟨⟨k, hk, hgrown⟩, hroom⟩ := RsMaps.grown_spec h
  have hpow : (2 : Int) ^ k ≤ 2 ^ 30 := pow_le_pow_right₀ (by decide) hk
  rw [rs.size_eq]
  omega

theorem RsMaps.count (rs : RsMaps w) : rs.mmapsIndex.length < 2 ^ 30 := by
  have := rs.mmaps.holds.2
  rw [← rs.size_eq]
  exact this

def rsMmapFindModule (mmaps : SmallArray (RsMmap w)) (addr : BitVec w) : Option (RsMmap w) :=
  mmaps.find mmapCompare
    { id := 0, module := [], fromAddr := addr, toAddr := 0, isAbsolute := false }

theorem rsMmapFindModule_mem {mmaps : SmallArray (RsMmap w)} {addr : BitVec w} {map : RsMmap w}
    (h : rsMmapFindModule mmaps addr = some map) : map ∈ mmaps.items := by
  rw [rsMmapFindModule, SmallArray.find_eq] at h
  exact bisectFrom_mem h

theorem rsMmapFindModule_init (addr : BitVec w) : rsMmapFindModule RsMaps.init.mmaps addr = none := by
  rw [rsMmapFindModule, SmallArray.find_eq, RsMaps.init, SmallArray.items_init, bisect_nil]

/-! ## Parameters -/

/-- `resolve_options_t` without the files and the mode. -/
structure ResolveOptions where
  fullPath : Bool
  keepResolved : Bool
  rootPath : Option Str

/-- What the files of the modules say. -/
structure Symbols (w : Nat) where
  /-- `rs_mmap_is_absolute`, `none` is an error -/
  isAbsolute : Str → Option Bool
  /-- `rs_load_symbols` -/
  loads : Str → Bool
  /-- `get_address_info`, `none` is an error -/
  addressInfo : RsMmap w → BitVec w → Option Str

def rsTargetPath (opts : ResolveOptions) (path : Str) : Str :=
  match opts.rootPath with
  | none => path
  | some root =>
      if path.head? ≠ some '/' then path
      else if root.isPrefixOf path then (path.drop root.length).tail
      else path

/-- `rs_host_path`; the result is cut to the size of its buffer. -/
def rsHostPath (opts : ResolveOptions) (path : Str) : Str :=
  match opts.rootPath with
  | none => path
  | some root =>
      if path.head? ≠ some '/' then path
      else if root.isPrefixOf path then path
      else (root ++ '/' :: path).take (pathMax - 1)

/-- `rs_mmap_add_module`: NULL is no mapping, and a failed allocation ends
the program. -/
def rsMmapAddModule (sym : Symbols w) (rs : RsMaps w) (module : Str) (fromAddr toAddr : BitVec w) :
    Except Stop (Option (RsMaps w)) :=
  match sym.isAbsolute module with
  | none => .ok none
  | some isAbsolute =>
      let map : RsMmap w :=
        { id := rs.mmapsIndex.length + 1, module, fromAddr, toAddr, isAbsolute }
      if h : 0 ≤ rs.grown then
        .ok (some
          { mmaps := rs.mmaps.add mmapCompare map (RsMaps.grown_small h)
            mmapsIndex := rs.mmapsIndex ++ [map]
            mmapsLimit := rs.grown
            size_eq := by simp [insertSorted_perm.length_eq, rs.size_eq]
            limit := (RsMaps.grown_spec h).1
            room := by
              have hroom := (RsMaps.grown_spec h).2
              rw [List.length_append, List.length_singleton]
              push_cast
              omega
            indexed := by
              intro map' hmap'
              rw [SmallArray.items_add] at hmap'
              rcases mem_insertSorted hmap' with rfl | hmem
              · exact ⟨Nat.succ_pos _, by simp [map]⟩
              · obtain ⟨hpos, hget⟩ := rs.indexed map' hmem
                obtain ⟨hlt, -⟩ := List.getElem?_eq_some_iff.mp hget
                exact ⟨hpos, (List.getElem?_append_left hlt).trans hget⟩ })
      else .error .exit

/-- A mapping that is added has its place in both arrays. -/
theorem rsMmapAddModule_some {sym : Symbols w} {rs rs' : RsMaps w} {module : Str}
    {fromAddr toAddr : BitVec w} (h : rsMmapAddModule sym rs module fromAddr toAddr = .ok (some rs')) :
    ∃ map, map.module = module ∧ map.fromAddr = fromAddr ∧ map.toAddr = toAddr ∧
      rs'.mmaps.items = insertSorted mmapCompare rs.mmaps.items map ∧
      rs'.mmapsIndex = rs.mmapsIndex ++ [map] := by
  unfold rsMmapAddModule at h
  cases habs : sym.isAbsolute module with
  | none => simp [habs] at h
  | some isAbsolute =>
    simp only [habs] at h
    split at h
    next hroom =>
      obtain rfl := Option.some.inj (Except.ok.inj h)
      exact ⟨_, rfl, rfl, rfl, SmallArray.items_add _ (RsMaps.grown_small hroom), rfl⟩
    next => exact absurd h (by simp)

/-- Up to 2^30 - 1 mappings have room. -/
theorem RsMaps.grown_nonneg {rs : RsMaps w} (h : rs.mmapsIndex.length + 1 < 2 ^ 30) :
    0 ≤ rs.grown := by
  obtain ⟨k, hk, hlimit⟩ := rs.limit
  unfold RsMaps.grown
  split
  next hfull =>
    obtain hlt | rfl := Nat.lt_or_eq_of_le hk
    · have hpow : (2 : Int) ^ (k + 1) ≤ 2 ^ 30 := pow_le_pow_right₀ (by decide) hlt
      have hpos : (0 : Int) ≤ 2 ^ (k + 1) := by positivity
      rw [hlimit, ← pow_succ, int32_of_small (by omega) (by omega)]
      exact hpos
    · rw [hlimit] at hfull
      omega
  next =>
    rw [hlimit]
    positivity

theorem rsMmapAddModule_room {sym : Symbols w} {rs : RsMaps w} {module : Str}
    (habs : sym.isAbsolute module ≠ none) (h : rs.mmapsIndex.length + 1 < 2 ^ 30)
    (fromAddr toAddr : BitVec w) :
    ∃ rs', rsMmapAddModule sym rs module fromAddr toAddr = .ok (some rs') := by
  obtain ⟨isAbsolute, habs⟩ := Option.ne_none_iff_exists'.mp habs
  unfold rsMmapAddModule
  rw [habs]
  simp only
  rw [dif_pos (RsMaps.grown_nonneg h)]
  exact ⟨_, rfl⟩

/-- The first mapping has room. -/
theorem rsMmapAddModule_init {sym : Symbols w} {module : Str} {isAbsolute : Bool}
    (h : sym.isAbsolute module = some isAbsolute) (fromAddr toAddr : BitVec w) :
    ∃ rs, rsMmapAddModule sym .init module fromAddr toAddr = .ok (some rs) ∧
      rs.mmaps.items = [{ id := 1, module, fromAddr, toAddr, isAbsolute }] ∧
      rs.mmapsIndex = [{ id := 1, module, fromAddr, toAddr, isAbsolute }] := by
  have hroom : 0 ≤ (RsMaps.init : RsMaps w).grown := RsMaps.grown_nonneg (by simp [RsMaps.init])
  unfold rsMmapAddModule
  rw [h]
  simp only
  rw [dif_pos hroom]
  refine ⟨_, rfl, ?_, rfl⟩
  rw [SmallArray.items_add, RsMaps.init, SmallArray.items_init]
  rfl

/-! ## Resolving -/

/-- `"\t0x%lx "` and a text. -/
def printAddress (addr : BitVec w) (text : Str) : Str :=
  '\t' :: '0' :: 'x' :: (printNat 16 addr.toNat ++ ' ' :: text)

/-- The name in the input is kept, without the path of its source file.
`none` is a copy to an end that was not found: no blank is behind the last
slash. -/
def keepName (opts : ResolveOptions) (addr : BitVec w) (name : Str) : Option Str :=
  match if opts.fullPath then none else strrchr name '/' with
  | some (dir, source) =>
      match strrchr source ' ' with
      | some (front, _) => some (printAddress addr (dir ++ front ++ source))
      | none => none
  | none => some (printAddress addr (name ++ ['\n']))

/-- What an address resolves to with the given mappings. -/
def resolveName (opts : ResolveOptions) (sym : Symbols w) (mmaps : SmallArray (RsMmap w))
    (addr : BitVec w) : Str :=
  match rsMmapFindModule mmaps addr with
  | none => printAddress addr "in ??\n".toList
  | some map =>
      let unresolved := printAddress addr ("from ".toList ++ rsTargetPath opts map.module ++ ['\n'])
      if sym.loads map.module then (sym.addressInfo map addr).getD unresolved else unresolved

/-- How `rs_resolve_address` ends: with a memory error, or with a pointer
that may be NULL. -/
inductive Resolved
  | fault
  | null
  | name (text : Str)
deriving DecidableEq

def rsResolveAddress (opts : ResolveOptions) (sym : Symbols w) (mmaps : SmallArray (RsMmap w))
    (cache : Option (NameCache w)) (addr : BitVec w) (name : Str) :
    Resolved × Option (NameCache w) :=
  if name ≠ [] ∧ opts.keepResolved then
    (match keepName opts addr name with
      | none => .fault
      | some text => .name text, cache)
  else
    match cache.bind fun cache => namecacheGetData cache addr with
    | some nc =>
        (match nc.name with
          | none => .null
          | some text => .name text, cache)
    | none =>
        let text := resolveName opts sym mmaps addr
        (.name text, cache.map fun cache => namecacheAdd cache addr text)

/-! ## Lines -/

/-- `"%c0x%lx (%[^\n]"`. -/
def backtraceLineFormat : List Directive :=
  [.conv .char, .lit '0', .lit 'x', .conv .hexLong, .space, .lit '(',
    .conv (.except ['\n'] pathMax)]

/-- The module and the addresses of a memory mapping record. -/
def scanMmapRecord (w : Nat) (line : Str) : Option (Str × BitVec w × BitVec w) :=
  match (sscanf w mmapFormat line).map ScanResult.values with
  | some [.text module, .long fromAddr, .long toAddr] => some (module, fromAddr, toAddr)
  | _ => none

/-- The address of a backtrace line and the name behind it, without its
last character. -/
def scanBacktraceRecord (w : Nat) (line : Str) : Option (BitVec w × Str) :=
  match (sscanf w backtraceLineFormat line).map ScanResult.values with
  | some [.char '\t', .long addr] => some (addr, [])
  | some [.char '\t', .long addr, .text name] => some (addr, name.dropLast)
  | _ => none

/-- The state of `do_resolve` in the default mode. -/
structure ResolveState (w : Nat) where
  maps : RsMaps w
  cache : Option (NameCache w)

/-- One line: the string that is written, and the state. `none` is the end
of the program: a memory error, or a failed allocation. -/
def resolveLine (opts : ResolveOptions) (sym : Symbols w) (st : ResolveState w) (line : Str) :
    Option (Str × ResolveState w) :=
  match scanMmapRecord w line with
  | some (module, fromAddr, toAddr) =>
      match rsMmapAddModule sym st.maps (rsHostPath opts module) fromAddr toAddr with
      | .error _ => none
      | .ok none => some (line, st)
      | .ok (some maps) => some (line, { st with maps })
  | none =>
      match scanBacktraceRecord w line with
      | none => some (line, st)
      | some (addr, name) =>
          let (resolved, cache) := rsResolveAddress opts sym st.maps.mmaps st.cache addr name
          match resolved with
          | .fault => none
          | .null => some (line, { st with cache })
          | .name text => some (text, { st with cache })

/-- What was written, and whether the program ended before the log. -/
structure Written where
  puts : List Str
  fault : Bool
deriving DecidableEq

/-- The loop of `do_resolve` in the default mode. -/
def resolveLines (opts : ResolveOptions) (sym : Symbols w) :
    ResolveState w → List Str → Written
  | _, [] => { puts := [], fault := false }
  | st, line :: lines =>
      match resolveLine opts sym st line with
      | none => { puts := [], fault := true }
      | some (out, st) =>
          let rest := resolveLines opts sym st lines
          { rest with puts := out :: rest.puts }

/-- `do_resolve` in the default mode, with a name cache or without. -/
def doResolve (opts : ResolveOptions) (sym : Symbols w) (cache : Option (NameCache w))
    (text : Str) : Written :=
  resolveLines opts sym { maps := .init, cache } (fgetsLines 4096 text)

end SpRtrace.Resolve
