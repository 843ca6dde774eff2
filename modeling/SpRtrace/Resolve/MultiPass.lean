/-
SpRtrace.Resolve.MultiPass — the name resolver in its multi-pass mode,
`src/rtrace-resolve/sp_rtrace_resolve.c`.

The log is split into an index and one address file for every mapping. A
backtrace line goes to the address file of its mapping, and a marker
`^<id>` takes its place in the index. The address files are resolved one
by one, and the index is copied to the output with every marker replaced
by the next line of the resolved file.

The address files are named after the module without its directory. Two
mappings with one name have two streams open on one file. When both are
written to, what is read back is up to the buffers of the C library, so
that case has no result here. When one of them is, the other one reads
lines of that file and writes their answers to the places where they
stand already; this is left out. So a file is the text that was put into
it.
-/
import SpRtrace.Resolve.Resolver

namespace SpRtrace.Resolve

open SpRtrace.Lib SpRtrace.Common SpRtrace.Library

variable {w : Nat}

/-! ## Indexing -/

/-- `"%c0x%lx"`. -/
def backtraceIndexFormat : List Directive :=
  [.conv .char, .lit '0', .lit 'x', .conv .hexLong]

/-- `"\t0x%lx (%[^\n]"`. -/
def addressLineFormat : List Directive :=
  [.space, .lit '0', .lit 'x', .conv .hexLong, .space, .lit '(', .conv (.except ['\n'] pathMax)]

/-- `"^%d"`. -/
def markerFormat : List Directive := [.lit '^', .conv .dec]

/-- The file name of a mapping: the module behind its last slash. -/
def RsMmap.fileName (map : RsMmap w) : Str :=
  match strrchr map.module '/' with
  | some (_, file) => file.tail
  | none => map.module

/-- The state of the first step; `fins` are the address files by the id of
their mapping. -/
structure IndexState (w : Nat) where
  maps : RsMaps w
  fins : Nat → Str
  index : Str

def scanBacktraceIndex (w : Nat) (line : Str) : Option (BitVec w) :=
  match (sscanf w backtraceIndexFormat line).map ScanResult.values with
  | some [.char '\t', .long addr] => some addr
  | _ => none

/-- `parse_backtrace_index`: the mapping of a backtrace line. -/
def parseBacktraceIndex (line : Str) (mmaps : SmallArray (RsMmap w)) : Option (RsMmap w) :=
  (scanBacktraceIndex w line).bind fun addr => rsMmapFindModule mmaps addr

/-- The marker of a mapping in the index. -/
def marker (id : Nat) : Str := '^' :: (printNat 10 id ++ ['\n'])

/-- One line of the first step; `none` is a failed allocation. -/
def indexLine (opts : ResolveOptions) (sym : Symbols w) (st : IndexState w) (line : Str) :
    Option (IndexState w) :=
  match scanMmapRecord w line with
  | some (module, fromAddr, toAddr) =>
      match rsMmapAddModule sym st.maps (rsHostPath opts module) fromAddr toAddr with
      | .error _ => none
      | .ok added => some { st with maps := added.getD st.maps, index := st.index ++ line }
  | none =>
      match parseBacktraceIndex line st.maps.mmaps with
      | some map =>
          some { st with
            fins := Function.update st.fins map.id (st.fins map.id ++ line)
            index := st.index ++ marker map.id }
      | none => some { st with index := st.index ++ line }

def indexLines (opts : ResolveOptions) (sym : Symbols w) (lines : List Str) :
    Option (IndexState w) :=
  lines.foldlM (indexLine opts sym) { maps := .init, fins := fun _ => [], index := [] }

/-- Two mappings have one address file, and both use it. -/
def IndexState.Clashes (st : IndexState w) : Prop :=
  ∃ map1 ∈ st.maps.mmapsIndex, ∃ map2 ∈ st.maps.mmapsIndex, map1.id ≠ map2.id ∧
    map1.fileName = map2.fileName ∧ st.fins map1.id ≠ [] ∧ st.fins map2.id ≠ []

instance (st : IndexState w) : Decidable st.Clashes :=
  inferInstanceAs (Decidable (∃ map1 ∈ st.maps.mmapsIndex, ∃ map2 ∈ st.maps.mmapsIndex,
    map1.id ≠ map2.id ∧ map1.fileName = map2.fileName ∧ st.fins map1.id ≠ [] ∧
      st.fins map2.id ≠ []))

/-! ## Resolving -/

/-- The address and the name of a line in an address file. -/
def scanAddressLine (w : Nat) (line : Str) : Option (BitVec w × Str) :=
  match (sscanf w addressLineFormat line).map ScanResult.values with
  | some [.long addr] => some (addr, [])
  | some [.long addr, .text name] => some (addr, name.dropLast)
  | _ => none

/-- One line of `mmap_resolve_address_file`: what was resolved, and the
cache. `none` is a memory error; a line that is not understood is left
out. -/
def resolveAddressLine (opts : ResolveOptions) (sym : Symbols w) (mmaps : SmallArray (RsMmap w))
    (st : Str × Option (NameCache w)) (line : Str) : Option (Str × Option (NameCache w)) :=
  match scanAddressLine w line with
  | none => some st
  | some (addr, name) =>
      let (resolved, cache) := rsResolveAddress opts sym mmaps st.2 addr name
      match resolved with
      | .fault => none
      | .null => none
      | .name text => some (st.1 ++ text, cache)

def mmapResolveAddressFile (opts : ResolveOptions) (sym : Symbols w) (mmaps : SmallArray (RsMmap w))
    (fin : Str) (cache : Option (NameCache w)) : Option (Str × Option (NameCache w)) :=
  (fgetsLines pathMax fin).foldlM (resolveAddressLine opts sym mmaps) ([], cache)

/-- The second step: the resolved files by the id of their mapping. -/
def resolveFiles (opts : ResolveOptions) (sym : Symbols w) (mmaps : SmallArray (RsMmap w))
    (fins : Nat → Str) (cache : Option (NameCache w)) :
    Option ((Nat → Str) × Option (NameCache w)) :=
  mmaps.items.foldlM
    (fun (fouts, cache) map => do
      let (fout, cache) ← mmapResolveAddressFile opts sym mmaps (fins map.id) cache
      some (Function.update fouts map.id fout, cache))
    (fun _ => [], cache)

/-! ## Assembling -/

def scanMarker (w : Nat) (line : Str) : Option (BitVec 32) :=
  match (sscanf w markerFormat line).map ScanResult.values with
  | some [.int idx] => some idx
  | _ => none

/-- The third step, with the lines of the resolved files that were not
read yet. It ends early at a marker without a mapping, a memory error, and
at the end of a resolved file. -/
def assembleLines (w : Nat) (mmapsIndex : List (RsMmap w)) : (Nat → List Str) → List Str → Written
  | _, [] => { puts := [], fault := false }
  | fouts, line :: lines =>
      match scanMarker w line with
      | none =>
          let rest := assembleLines w mmapsIndex fouts lines
          { rest with puts := line :: rest.puts }
      | some idx =>
          match if idx.toInt ≤ 0 then none else mmapsIndex[idx.toNat - 1]? with
          | none => { puts := [], fault := true }
          | some map =>
              match fouts map.id with
              | [] => { puts := [], fault := true }
              | out :: outs =>
                  let rest := assembleLines w mmapsIndex (Function.update fouts map.id outs) lines
                  { rest with puts := out :: rest.puts }

/-- `do_resolve` in the multi-pass mode, on the lines of the log. -/
def multiPassLines (opts : ResolveOptions) (sym : Symbols w) (cache : Option (NameCache w))
    (lines : List Str) : Option Written :=
  match indexLines opts sym lines with
  | none => some { puts := [], fault := true }
  | some st =>
      if st.Clashes then none
      else
        match resolveFiles opts sym st.maps.mmaps st.fins cache with
        | none => some { puts := [], fault := true }
        | some (fouts, _) =>
            some (assembleLines w st.maps.mmapsIndex (fun id => fgetsLines pathMax (fouts id))
              (fgetsLines 4096 st.index))

/-- `do_resolve` in the multi-pass mode. -/
def doResolveMultiPass (opts : ResolveOptions) (sym : Symbols w) (cache : Option (NameCache w))
    (text : Str) : Option Written :=
  multiPassLines opts sym cache (fgetsLines 4096 text)

end SpRtrace.Resolve
