/-
SpRtrace.Pagemap.Pageflags — the pageflags file,
`src/rtrace-pagemap/sp_rtrace_pagemap.c` and
`src/rtrace-pagemap/trace_data.cpp`.

The tracing module writes a header and a record for every page of every
memory area (`cutKpageflagsRange`) and then looks the writable areas up
again to complete their records in place (`scanAddressRange`). The
analyser maps the file into memory and looks areas up there
(`getPageflagsData`).

The structures have the layout of a 64-bit machine and are written with
their padding, as zeros. What the module reads from `/proc` and from its
own memory is a `PageSource`: entry `n` of the page map, entry `n` of
`kpageflags` or `kpagecount`, and whether the page at an address is zero.
All these reads succeed.
-/
import SpRtrace.Lib.Descriptor
import SpRtrace.Common.Proto

namespace SpRtrace.Pagemap

open SpRtrace.Lib SpRtrace.Common

/-! ## Structures -/

structure PageflagsHeader where
  fromAddr : BitVec 64
  toAddr : BitVec 64
  size : BitVec 32
deriving DecidableEq

structure PageflagsData where
  info : BitVec 32
  kflags : BitVec 64
  kcount : BitVec 32
deriving DecidableEq

/-- `sizeof(pageflags_header_t)`. -/
def sizeofHeader : Nat := 24

/-- `sizeof(pageflags_data_t)`. -/
def sizeofData : Nat := 24

def PageflagsHeader.bytes (h : PageflagsHeader) : List UInt8 :=
  writePointer h.fromAddr ++ (writePointer h.toAddr ++ (writeDword h.size ++ List.replicate 4 0))

def PageflagsData.bytes (d : PageflagsData) : List UInt8 :=
  writeDword d.info ++ (List.replicate 4 0 ++ (writePointer d.kflags ++
    (writeDword d.kcount ++ List.replicate 4 0)))

def readHeader : Reader PageflagsHeader := do
  let fromAddr ← readPointer
  let toAddr ← readPointer
  let size ← readDword
  let _ ← takeBytes 4
  pure { fromAddr, toAddr, size }

def readData : Reader PageflagsData := do
  let info ← readDword
  let _ ← takeBytes 4
  let kflags ← readPointer
  let kcount ← readDword
  let _ ← takeBytes 4
  pure { info, kflags, kcount }

/-! ## The page map -/

def pageSwap : BitVec 32 := 1

def pageMemory : BitVec 32 := 2

def pageZero : BitVec 32 := 4

def pmPresent : BitVec 64 := 4 <<< 61

def pmSwap : BitVec 64 := 2 <<< 61

def pmPframe (x : BitVec 64) : Nat := (x &&& (1 <<< 55 - 1)).toNat

/-- What the module sees of the pages of its process. -/
structure PageSource where
  pagemap : Nat → BitVec 64
  kpage : Nat → BitVec 64
  isZeroPage : Nat → Bool

/-- `read_page_mapping_count`; the result is an `unsigned int`. -/
def readPageMappingCount (pageSize : Nat) (src : PageSource) (addr : Nat) : BitVec 32 :=
  let pageIndex := src.pagemap (addr / pageSize)
  if pageIndex &&& pmPresent ≠ 0 then (src.kpage (pmPframe pageIndex)).setWidth 32 else 0

/-- The record that `cut_kpageflags_range` writes for an entry of the page
map. -/
def cutRecord (src : PageSource) (idx : Nat) : PageflagsData :=
  let pageIndex := src.pagemap idx
  let pageData : PageflagsData := { info := 0, kflags := 0, kcount := 0 }
  let pageData :=
    if pageIndex &&& pmPresent ≠ 0 then
      { pageData with kflags := src.kpage (pmPframe pageIndex), info := pageMemory }
    else pageData
  if pageIndex &&& pmSwap ≠ 0 then { pageData with info := pageSwap } else pageData

/-- `cut_kpageflags_range`; the loop runs over the entries of the page
map. The size is an `unsigned int`. -/
def cutKpageflagsRange (pageSize : Nat) (src : PageSource) (fromAddr toAddr : BitVec 64)
    (fdOut : Fd) : Fd :=
  let header : PageflagsHeader :=
    { fromAddr, toAddr,
      size := BitVec.ofNat 32 ((toAddr - fromAddr).toNat / pageSize * sizeofData) }
  let idx := fromAddr.toNat / pageSize
  let stop := toAddr.toNat / pageSize
  (List.range' idx (stop - idx)).foldl (fun (fd : Fd) i => fd.write (cutRecord src i).bytes)
    (fdOut.write header.bytes)

/-! ## Scanning -/

theorem fd_read_short {f : Fd} {n : Nat} {h : PageflagsHeader} {rest : List UInt8}
    (hread : readHeader (f.read n).1 = some (h, rest)) : f.pos < f.bytes.length := by
  rcases Nat.lt_or_ge f.pos f.bytes.length with hlt | hge
  · exact hlt
  · have hnil : (f.read n).1 = [] := by simp [Fd.read, slice, List.drop_of_length_le hge]
    have hfail : (readPointer : Reader (BitVec 64)) [] = none := rfl
    rw [hnil, readHeader, reader_bind, hfail] at hread
    exact absurd hread (by simp)

/-- The search in `scan_address_range`: the file behind the header of the
area. `none` is the error of a header that is not read completely. -/
def findHeader (fromAddr toAddr : BitVec 64) (fd : Fd) : Option Fd :=
  match _hread : readHeader (fd.read sizeofHeader).1 with
  | none => none
  | some (header, _) =>
    let fd' := (fd.read sizeofHeader).2
    if header.fromAddr = fromAddr ∧ header.toAddr = toAddr then some fd'
    else findHeader fromAddr toAddr (fd'.seek (fd'.pos + header.size.toNat))
termination_by fd.bytes.length - fd.pos
decreasing_by
  have hlt := fd_read_short _hread
  have hne : 0 < (fd.read sizeofHeader).1.length := by
    simp only [Fd.read, slice, List.length_take, List.length_drop, sizeofHeader]
    omega
  simp only [Fd.seek, Fd.read_bytes, Fd.read_pos]
  omega

def scanRecord (pageSize : Nat) (src : PageSource) (addr : Nat) (pageData : PageflagsData) :
    PageflagsData :=
  let pageData :=
    if src.isZeroPage addr then { pageData with info := pageData.info ||| pageZero } else pageData
  { pageData with kcount := readPageMappingCount pageSize src addr }

def scanPage (pageSize : Nat) (src : PageSource) (fd : Fd) (addr : Nat) : Option Fd :=
  match readData (fd.read sizeofData).1 with
  | none => none
  | some (pageData, _) =>
    let fd' := (fd.read sizeofData).2
    some ((fd'.seek (fd'.pos - sizeofData)).write (scanRecord pageSize src addr pageData).bytes)

/-- `rights[0] == 'r' && rights[1] == 'w' && rights[3] == 'p'`. -/
def isPrivateWritable (rights : Str) : Bool :=
  rights[0]? == some 'r' && rights[1]? == some 'w' && rights[3]? == some 'p'

/-- The addresses of the pages between two addresses. -/
def pageAddrs (pageSize fromAddr toAddr : Nat) : List Nat :=
  List.range' fromAddr ((toAddr - fromAddr + pageSize - 1) / pageSize) pageSize

/-- `scan_address_range`. An area that is not private and writable is left
alone (the function returns EINVAL); `none` is a negative error code. -/
def scanAddressRange (pageSize : Nat) (src : PageSource) (fromAddr toAddr : BitVec 64)
    (rights : Str) (fd : Fd) : Option Fd :=
  if !isPrivateWritable rights then some fd
  else do
    let fd ← findHeader fromAddr toAddr (fd.seek 0)
    (pageAddrs pageSize fromAddr.toNat toAddr.toNat).foldlM (scanPage pageSize src) fd

/-! ## Looking up -/

/-- How a lookup ends: with the offset of the data, with NULL, or with a
read outside of what is mapped. -/
inductive LookupResult
  | data (offset : Nat)
  | null
  | fault
deriving DecidableEq

/-- A lookup, with the offsets of the headers it examined. -/
structure Lookup where
  examined : List Nat
  result : LookupResult

/-- The loop of `TraceData::getPageflagsData`. `mem` is the mapping of a
file of `size` bytes. -/
def lookupFrom (mem : List UInt8) (size : Nat) (fromAddr toAddr : BitVec 64) (offset : Nat) :
    Lookup :=
  match readHeader (mem.drop offset) with
  | none => { examined := [offset], result := .fault }
  | some (header, _) =>
    if _hin : header.size.toNat + sizeofHeader + offset ≤ size then
      if header.fromAddr = fromAddr ∧ header.toAddr = toAddr then
        { examined := [offset], result := .data (offset + sizeofHeader) }
      else
        let rest := lookupFrom mem size fromAddr toAddr (offset + (header.size.toNat + sizeofHeader))
        { rest with examined := offset :: rest.examined }
    else { examined := [offset], result := .null }
termination_by size - offset
decreasing_by
  rw [sizeofHeader] at _hin ⊢
  omega

/-- The mapping of a file: the rest of its last page is zero. -/
def mapFile (pageSize : Nat) (file : List UInt8) : List UInt8 :=
  file ++ List.replicate ((pageSize - file.length % pageSize) % pageSize) 0

def getPageflagsData (pageSize : Nat) (file : List UInt8) (fromAddr toAddr : BitVec 64) : Lookup :=
  lookupFrom (mapFile pageSize file) file.length fromAddr toAddr 0

end SpRtrace.Pagemap
