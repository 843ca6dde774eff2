/-
SpRtrace.Rtrace.MapsCache — the maps file of the kernel and the cache of
`scan_mmap_data`, `src/rtrace/listener.c`.

A line is an entry: the range, the rights, three fields nobody looks at,
and a file name behind a column of blanks; an anonymous mapping has none.
What a scan makes of an entry is `MapsEntry.mapping` (`mapsLine_text`).

The search for a cached record compares closed intervals and stops at the
first record that touches the mapping, so it finds a neighbour as well as
the mapping itself. `LineFits` is the condition on the cache in front of a
line under which this does no harm.
-/
import Mathlib
import SpRtrace.Lib.StdioTheorems
import SpRtrace.Rtrace.Listener

namespace SpRtrace.Rtrace

open SpRtrace.Common SpRtrace.Lib

variable {w : Nat}

/-! ## The file -/

/-- %08lx. -/
def hexAddress (addr : BitVec w) : Str :=
  let digits := printNat 16 addr.toNat
  List.replicate (8 - digits.length) '0' ++ digits

structure MapsEntry (w : Nat) where
  fromAddr : BitVec w
  toAddr : BitVec w
  rights : Str
  offset : Str
  device : Str
  inode : Str
  gap : Nat
  name : Str
  nonempty : fromAddr < toAddr
  rights_length : rights.length = 4
  fields_nonempty : ∀ field ∈ [offset, device, inode], field ≠ []
  fields_plain : ∀ field ∈ [rights, offset, device, inode], ∀ c ∈ field, isSpace c = false
  name_plain : ∀ c ∈ name, c ≠ ' ' ∧ c ≠ '\n'
  name_start : Stops isSpace name

def MapsEntry.text (e : MapsEntry w) : Str :=
  hexAddress e.fromAddr ++ '-' :: (hexAddress e.toAddr ++ ' ' :: (e.rights ++ ' ' ::
    (e.offset ++ ' ' :: (e.device ++ ' ' :: (e.inode ++ ' ' ::
      (List.replicate e.gap ' ' ++ (e.name ++ ['\n'])))))))

/-- The executable named mapping of a line. -/
def MapsEntry.mapping (e : MapsEntry w) : Option (Mmap w) :=
  if e.rights[2]? = some 'x' ∧ e.name ≠ [] then
    some { fromAddr := e.fromAddr, toAddr := e.toAddr, moduleName := e.name }
  else none

/-- What the file holds at one time: disjoint half-open ranges in
ascending order. -/
structure MapsContent (w : Nat) where
  entries : List (MapsEntry w)
  ascending : entries.Pairwise fun e e' => e.toAddr ≤ e'.fromAddr

def MapsContent.text (content : MapsContent w) : Str :=
  (content.entries.map MapsEntry.text).flatten

/-- The executable named mappings of the file. -/
def MapsContent.mappings (content : MapsContent w) : List (Mmap w) :=
  content.entries.filterMap MapsEntry.mapping

/-! ## The cache -/

/-- Disjoint as half-open ranges. -/
def Apart (m m' : Mmap w) : Prop := m.toAddr ≤ m'.fromAddr ∨ m'.toAddr ≤ m.fromAddr

instance (m m' : Mmap w) : Decidable (Apart m m') := inferInstanceAs (Decidable (_ ∨ _))

/-- The record that the search of `scan_mmap_data` ends at. -/
def foundMmap (mmaps : List (Mmap w)) (map : Mmap w) : Option (Mmap w) :=
  mmaps.find? fun mmap => rangeCompare mmap map = 0

def cacheLine (mmaps : List (Mmap w)) (map : Mmap w) : List (Mmap w) :=
  (registerMmap mmaps map).getD mmaps

def cacheLines (mmaps : List (Mmap w)) (maps : List (Mmap w)) : List (Mmap w) :=
  maps.foldl cacheLine mmaps

def sentLines (mmaps : List (Mmap w)) : List (Mmap w) → List (Mmap w)
  | [] => []
  | map :: maps =>
      (if (registerMmap mmaps map).isSome then [map] else []) ++ sentLines (cacheLine mmaps map) maps

/-! ## The condition -/

/-- The condition on a line. A cached mapping is found itself. Otherwise
the record that is replaced is none of the mappings in front of the line,
and no other record overlaps. -/
def LineFits (mmaps listed : List (Mmap w)) (map : Mmap w) : Prop :=
  if map ∈ mmaps then foundMmap mmaps map = some map
  else ∀ mmap ∈ mmaps, if foundMmap mmaps map = some mmap then mmap ∉ listed else Apart mmap map

instance (mmaps listed : List (Mmap w)) (map : Mmap w) : Decidable (LineFits mmaps listed map) := by
  unfold LineFits
  infer_instance

/-- The condition on the lines of a file; `listed` are the mappings in
front of them. -/
def LinesFit (mmaps listed : List (Mmap w)) : List (Mmap w) → Prop
  | [] => True
  | map :: maps => LineFits mmaps listed map ∧ LinesFit (cacheLine mmaps map) (listed ++ [map]) maps

instance decidableLinesFit :
    (mmaps listed maps : List (Mmap w)) → Decidable (LinesFit mmaps listed maps)
  | _, _, [] => .isTrue trivial
  | mmaps, listed, map :: maps =>
      have := decidableLinesFit (cacheLine mmaps map) (listed ++ [map]) maps
      inferInstanceAs (Decidable (_ ∧ _))

/-- A scan of a file whose lines are not cut, with all packets written. -/
structure ScanReads (env : ListenerEnv) (st : ListenerState w) (content : MapsContent w) : Prop where
  file : env.maps st.out.length st.pid = content.text
  lines : ∀ e ∈ content.entries, e.text.length < pathMax
  written : ∀ n < content.mappings.length, env.writes (st.out.length + n) = true

/-- The condition on a scan: it gets to the end of the file, and every line
fits the cache in front of it. -/
structure ScanFits (env : ListenerEnv) (st : ListenerState w) (content : MapsContent w) : Prop
    extends ScanReads env st content where
  cache : LinesFit st.mmaps [] content.mappings

/-- The states of runs whose scans all meet the condition, with the file
that was scanned last. -/
inductive FittingScans : Option (MapsContent w) → ListenerState w → Prop
  | start {st : ListenerState w} (h : st.mmaps = []) : FittingScans none st
  | packet {env : ListenerEnv} {last : Option (MapsContent w)} {st : ListenerState w}
      {type : BitVec 32} {window : List UInt8} {len : Nat} {r : PacketResult w}
      (h : FittingScans last st) (htype : type ≠ protoNewLibrary)
      (hr : dispatchPacket env st type window len = some r) : FittingScans last r.state
  | scan {env : ListenerEnv} {last : Option (MapsContent w)} {st : ListenerState w}
      {content : MapsContent w} (h : FittingScans last st) (hfit : ScanFits env st content) :
      FittingScans (some content) (scanMmapData env st)

/-! ## What is promised -/

/-- A scan hands over exactly the mappings that are not cached at their
turn, nothing if the file is the last one again; afterwards the cache has
disjoint ranges and every mapping of the file. -/
structure ScanRight (env : ListenerEnv) (st : ListenerState w) (content : MapsContent w)
    (last : Option (MapsContent w)) : Prop where
  sent : ∃ sent : List (Mmap w), (scanMmapData env st).out = st.out ++ sent.map mmapPacket ∧
    sent.Sublist content.mappings ∧
      ∀ front map back, content.mappings = front ++ map :: back →
        (map ∈ sent ↔ map ∉ cacheLines st.mmaps front)
  again : last = some content → (scanMmapData env st).out = st.out
  apart : (scanMmapData env st).mmaps.Pairwise Apart
  listed : ∀ map ∈ content.mappings, map ∈ (scanMmapData env st).mmaps

end SpRtrace.Rtrace
