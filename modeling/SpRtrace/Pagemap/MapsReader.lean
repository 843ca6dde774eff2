/-
SpRtrace.Pagemap.MapsReader — the reader of `/proc/self/maps` of the
tracing module, `src/rtrace-pagemap/sp_rtrace_pagemap.c`.

The file is read in chunks into a buffer of 4096 bytes. The lines that
end in the buffer are parsed where they are, with terminators stored in
them, and the rest is moved to the front; but `offset` stays 0, so the
next chunk is stored over it. A chunk is what one call of `read` returns.

`none` is an access outside of the buffer. What the callback is given is
collected in a list.
-/
import Mathlib
import SpRtrace.Common.Proto
import SpRtrace.Lib.Area
import SpRtrace.Lib.Stdio

namespace SpRtrace.Pagemap

open SpRtrace.Lib SpRtrace.Common

/-! ## The code -/

/-- `sizeof(buffer)`. -/
def mapsBufferSize : Nat := 4096

/-- `_strnchr` from a place of the buffer on; the inner `none` is NULL. -/
def strnchr (buffer : Str) (c : Char) : Nat → Nat → Option (Option Nat)
  | pos, 0 => do some (if (← buffer[pos]?) = c then some pos else none)
  | pos, size + 1 => do
      let x ← buffer[pos]?
      if x = c then some (some pos)
      else if x = '\x00' then some none
      else strnchr buffer c (pos + 1) size

/-- One character of `str2hex`; `digit` is an `int`. -/
def hexStep (value : BitVec 64) (c : Char) : BitVec 64 :=
  let code : Int := c.toNat % 256
  let digit :=
    if 97 ≤ code then code - (97 - 10) else if 65 ≤ code then code - (65 - 10) else code - 48
  value <<< 4 ||| BitVec.ofInt 64 digit

def str2hex (str : Str) : BitVec 64 := str.foldl hexStep 0

/-- The string at a place of the buffer. -/
def stringAt (buffer : Str) (pos : Nat) : Str := (buffer.drop pos).takeWhile (· ≠ '\x00')

structure MapsRecord where
  fromAddr : BitVec 64
  toAddr : BitVec 64
  rights : Str
deriving DecidableEq

/-- `parse_record`: the buffer, and what the callback was given. -/
def parseRecord (buffer : Str) (pos size : Nat) : Option (Str × Option MapsRecord) := do
  match ← strnchr buffer '-' pos size with
  | none => some (buffer, none)
  | some ptr =>
      let buffer ← storeCell buffer ptr '\x00'
      let toPos := ptr + 1
      match ← strnchr buffer ' ' toPos (size - (toPos - pos)) with
      | none => some (buffer, none)
      | some ptr =>
          let buffer ← storeCell buffer ptr '\x00'
          let rightsPos := ptr + 1
          match ← strnchr buffer ' ' rightsPos (size - (rightsPos - pos)) with
          | none => some (buffer, none)
          | some ptr =>
              let buffer ← storeCell buffer ptr '\x00'
              some (buffer, some
                { fromAddr := str2hex (stringAt buffer pos)
                  toAddr := str2hex (stringAt buffer toPos)
                  rights := stringAt buffer rightsPos })

/-- What `parse_buffer` leaves. -/
structure ParsedBuffer where
  buffer : Str
  records : List MapsRecord
  nparsed : Nat
deriving DecidableEq

/-- The loop of `parse_buffer`; every turn passes a newline, so there are
at most as many turns as bytes. -/
def parseLines (totalSize : Nat) : Nat → Str → Nat → Option ParsedBuffer
  | 0, buffer, stop => some { buffer, records := [], nparsed := stop }
  | fuel + 1, buffer, stop => do
      match ← strnchr buffer '\n' stop (totalSize - stop) with
      | none => some { buffer, records := [], nparsed := stop }
      | some ptr =>
          let buffer ← storeCell buffer ptr '\x00'
          let (buffer, record) ← parseRecord buffer stop (ptr + 1 - stop)
          let rest ← parseLines totalSize fuel buffer (ptr + 1)
          some { rest with records := record.toList ++ rest.records }

def parseBuffer (buffer : Str) (totalSize : Nat) : Option ParsedBuffer := do
  let buffer ← storeCell buffer totalSize '\x00'
  parseLines totalSize (totalSize + 1) buffer 0

/-- The loop of `parse_maps`, over what `read` returns. -/
def parseMaps (buffer : Str) : List Str → Option (List MapsRecord)
  | [] => some []
  | chunk :: chunks => do
      let offset := 0
      let buffer ← storeCells buffer offset chunk
      let totalSize := chunk.length + offset
      let parsed ← parseBuffer buffer totalSize
      let buffer ← copyCells parsed.buffer 0 parsed.nparsed (totalSize - parsed.nparsed)
      let rest ← parseMaps buffer chunks
      some (parsed.records ++ rest)

/-! ## Lines -/

/-- A line of the file without its newline. -/
structure MapsLine where
  fromText : Str
  toText : Str
  rights : Str
  rest : Str
  from_hex : ∀ c ∈ fromText, c ∈ "0123456789abcdef".toList
  to_hex : ∀ c ∈ toText, c ∈ "0123456789abcdef".toList
  rights_plain : ∀ c ∈ rights, c ∉ [' ', '\n', '\x00']
  rest_plain : ∀ c ∈ rest, c ∉ ['\n', '\x00']

def MapsLine.text (line : MapsLine) : Str :=
  line.fromText ++ '-' :: (line.toText ++ ' ' :: (line.rights ++ ' ' :: line.rest))

/-- The addresses and the rights of a line. -/
def MapsLine.record (line : MapsLine) : MapsRecord where
  fromAddr := BitVec.ofNat 64 (digitsValue 16 line.fromText)
  toAddr := BitVec.ofNat 64 (digitsValue 16 line.toText)
  rights := line.rights

def mapsText (lines : List MapsLine) : Str :=
  (lines.map fun line => line.text ++ ['\n']).flatten

/-- The ways `read` can return a file. -/
structure Chunks (text : Str) (chunks : List Str) : Prop where
  flatten : chunks.flatten = text
  nonempty : ∀ chunk ∈ chunks, chunk ≠ []
  fits : ∀ chunk ∈ chunks, chunk.length ≤ mapsBufferSize

/-- For every line its part behind the last boundary of chunks inside of
it: the parts of chunks that end with a newline. -/
def lastParts (chunks : List Str) : List Str :=
  chunks.flatMap fun chunk => (chunk.splitOn '\n').dropLast

/-- The text in front of a character, and behind it. -/
def cutAt (c : Char) (text : Str) : Option (Str × Str) :=
  if c ∈ text then some (text.takeWhile (· ≠ c), (text.dropWhile (· ≠ c)).tail) else none

def recordOf (text : Str) : Option MapsRecord := do
  let (fromText, text) ← cutAt '-' text
  let (toText, text) ← cutAt ' ' text
  let (rights, _) ← cutAt ' ' text
  some { fromAddr := str2hex fromText, toAddr := str2hex toText, rights }

end SpRtrace.Pagemap
