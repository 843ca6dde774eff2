/-
SpRtrace.Common.Proto — the binary protocol helpers of
`src/common/sp_rtrace_proto.h`.

The helpers move data between memory and a byte stream. A writing helper
is the bytes it stores, a reading helper a `Reader` (the pointer it
advances is the rest of the bytes). Machine and stream are little-endian,
and `w` is the number of bits of a pointer.

C strings are lists of characters with codes from 1 to 255 (`CStr`); in
the stream they are their bytes, behind a 16-bit size and padded with
zeros to a multiple of four. NULL is written as four zero bytes and read
back as the empty string.
-/
import SpRtrace.Common.RtraceData
import SpRtrace.Lib.ByteReader

namespace SpRtrace.Common

open SpRtrace.Lib

variable {w : Nat}

/-! ## Packet types -/

def packetType (b1 b2 b3 b4 : Char) : BitVec 32 :=
  BitVec.ofNat 32 (b1.toNat ||| b2.toNat <<< 8 ||| b3.toNat <<< 16 ||| b4.toNat <<< 24)

def protoModuleInfo : BitVec 32 := packetType 'M' 'I' 'N' 'F'
def protoMemoryMap : BitVec 32 := packetType 'M' 'M' 'A' 'P'
def protoContextRegistry : BitVec 32 := packetType 'C' 'T' 'X' 'R'
def protoFunctionCall : BitVec 32 := packetType 'C' 'A' 'L' 'L'
def protoBacktrace : BitVec 32 := packetType 'B' 'T' 'R' 'C'
def protoFunctionArgs : BitVec 32 := packetType 'A' 'R' 'G' 'S'
def protoProcessInfo : BitVec 32 := packetType 'P' 'I' 'N' 'F'
def protoNewLibrary : BitVec 32 := packetType 'N' 'L' 'I' 'B'
def protoHeapInfo : BitVec 32 := packetType 'H' 'I' 'N' 'F'
def protoOutputSettings : BitVec 32 := packetType 'O' 'C' 'F' 'G'
def protoResourceRegistry : BitVec 32 := packetType 'R' 'E' 'S' 'R'
def protoAttachment : BitVec 32 := packetType 'F' 'I' 'L' 'E'

def protoHsId : UInt8 := 0xF0

/-! ## Strings as bytes -/

def CStr (s : Str) : Prop := ∀ c ∈ s, 0 < c.toNat ∧ c.toNat < 256

/-- A `char` in memory. -/
def byteOfChar (c : Char) : UInt8 := UInt8.ofNat c.toNat

def charOfByte (b : UInt8) : Char := Char.ofNat b.toNat

/-- The C string in a byte buffer: up to the first zero. -/
def cString (bs : List UInt8) : Str := (bs.takeWhile (· ≠ 0)).map charOfByte

/-! ## Reading -/

def readByte : Reader (BitVec 8) := do pure (BitVec.ofNat 8 (← readLE 1))

def readWord : Reader Nat := readLE 2

def readDword : Reader (BitVec 32) := do pure (BitVec.ofNat 32 (← readLE 4))

/-- `read_dword2long`: the dword is read as an `int` and assigned to an
`unsigned long`. -/
def readDword2long : Reader (BitVec w) := do pure ((← readDword).signExtend w)

def readPointer : Reader (BitVec w) := do pure (BitVec.ofNat w (← readLE (w / 8)))

/-- `read_string` into a buffer of `size` bytes; `none` is -EINVAL. -/
def readString (size : Nat) : Reader (Option Str) := do
  let len ← readWord
  if size ≤ len then pure none
  else if len = 0 then do
    let _ ← takeBytes 2
    pure (some [])
  else do
    let bs ← takeBytes len
    pure (some (cString bs))

/-- `read_stringa`. A zero length is that of NULL, which takes up a whole
dword. -/
def readStringa : Reader Str := do
  let len ← readWord
  if len = 0 then do
    let _ ← takeBytes 2
    pure []
  else do
    let bs ← takeBytes len
    pure (cString bs)

/-! ## Writing -/

def writeByte (value : BitVec 8) : List UInt8 := bytesLE 1 value.toNat

def writeDword (value : BitVec 32) : List UInt8 := bytesLE 4 value.toNat

def writePointer (value : BitVec w) : List UInt8 := bytesLE (w / 8) value.toNat

/-- The zeros that `write_string` adds to a size. -/
def padding (size : Nat) : Nat := (4 - size % 4) % 4

def writeString : Option Str → List UInt8
  | some str =>
      let size := 2 + str.length
      bytesLE 2 (size + padding size - 2) ++ str.map byteOfChar ++
        List.replicate (padding size) 0
  | none => writeDword 0

/-! ## Sizes -/

@[simp] theorem writeDword_length (v : BitVec 32) : (writeDword v).length = 4 :=
  bytesLE_length ..

@[simp] theorem writePointer_length (v : BitVec w) : (writePointer v).length = w / 8 :=
  bytesLE_length ..

/-- The room a string takes up in a packet. -/
def stringSize : Option Str → Nat
  | some str => 2 + str.length + padding (2 + str.length)
  | none => 4

@[simp] theorem writeString_length (s : Option Str) : (writeString s).length = stringSize s := by
  cases s with
  | none => simp [writeString, stringSize]
  | some str =>
    simp only [writeString, stringSize, List.length_append, bytesLE_length, List.length_map,
      List.length_replicate]

/-- Every string takes up a multiple of four bytes. -/
theorem four_dvd_stringSize (s : Option Str) : 4 ∣ stringSize s := by
  cases s with
  | none => simp [stringSize]
  | some str => rw [stringSize, padding]; omega

/-! ## Round trips of the helpers -/

theorem reads_readDword (v : BitVec 32) : Reads readDword (writeDword v) v := by
  have h := reads_readLE 4 v.toNat
  have hv : v.toNat % 256 ^ 4 = v.toNat := Nat.mod_eq_of_lt v.isLt
  rw [hv] at h
  have hret : Reads (pure (BitVec.ofNat 32 v.toNat) : Reader (BitVec 32)) [] v := by
    rw [BitVec.ofNat_toNat, BitVec.setWidth_eq]; exact Reads.pure v
  exact h.bind_pure hret

theorem reads_readDword2long (v : BitVec 32) :
    Reads (readDword2long : Reader (BitVec w)) (writeDword v) (v.signExtend w) :=
  (reads_readDword v).bind_pure (Reads.pure _)

theorem reads_readPointer (hw : 8 ∣ w) (v : BitVec w) :
    Reads (readPointer : Reader (BitVec w)) (writePointer v) v := by
  have h := reads_readLE (w / 8) v.toNat
  have hpow : (256 : Nat) ^ (w / 8) = 2 ^ w := by
    rw [show (256 : Nat) = 2 ^ 8 from rfl, ← Nat.pow_mul, Nat.mul_div_cancel' hw]
  rw [hpow, Nat.mod_eq_of_lt v.isLt] at h
  have hret : Reads (pure (BitVec.ofNat w v.toNat) : Reader (BitVec w)) [] v := by
    rw [BitVec.ofNat_toNat, BitVec.setWidth_eq]; exact Reads.pure v
  exact h.bind_pure hret

theorem charOfByte_byteOfChar {c : Char} (h : c.toNat < 256) : charOfByte (byteOfChar c) = c := by
  rw [charOfByte, byteOfChar, UInt8.toNat_ofNat', Nat.mod_eq_of_lt h, Char.ofNat_toNat]

theorem byteOfChar_ne_zero {c : Char} (h : 0 < c.toNat) (h' : c.toNat < 256) :
    byteOfChar c ≠ 0 := by
  intro hc
  have := congrArg UInt8.toNat hc
  rw [byteOfChar, UInt8.toNat_ofNat', Nat.mod_eq_of_lt h'] at this
  simp at this
  omega

/-- Padding ends a C string. -/
theorem cString_padded {str : Str} (h : CStr str) (n : Nat) :
    cString (str.map byteOfChar ++ List.replicate n 0) = str := by
  have htake : (str.map byteOfChar ++ List.replicate n 0).takeWhile (· ≠ 0)
      = str.map byteOfChar := by
    rw [List.takeWhile_append_of_pos]
    · cases n <;> simp [List.replicate_succ]
    · intro b hb
      obtain ⟨c, hc, rfl⟩ := List.mem_map.mp hb
      simpa using byteOfChar_ne_zero (h c hc).1 (h c hc).2
  rw [cString, htake, List.map_map]
  have : ∀ c ∈ str, (charOfByte ∘ byteOfChar) c = c := fun c hc =>
    charOfByte_byteOfChar (h c hc).2
  rw [List.map_congr_left this, List.map_id']

/-- A string that the 16-bit length field can hold. -/
def Fits : Option Str → Prop
  | some str => CStr str ∧ str.length ≤ 65534
  | none => True

theorem stringSize_le {s : Option Str} (h : Fits s) : stringSize s ≤ 65536 := by
  cases s with
  | none => simp [stringSize]
  | some str =>
    have := h.2
    rw [stringSize, padding]
    omega

/-- `read_stringa` reads what `write_string` wrote; NULL becomes the empty
string. -/
theorem reads_readStringa {s : Option Str} (h : Fits s) :
    Reads readStringa (writeString s) (s.getD []) := by
  cases s with
  | none =>
    intro rest
    rfl
  | some str =>
    obtain ⟨hstr, hlen⟩ := h
    set size := 2 + str.length + padding (2 + str.length) with hsize
    have hpad : size % 4 = 0 ∧ size ≤ 65536 ∧ 4 ≤ size := by
      rw [hsize, padding]; omega
    have hword := reads_readLE 2 (size - 2)
    rw [Nat.mod_eq_of_lt (show size - 2 < 256 ^ 2 by omega)] at hword
    have hbody : Reads (takeBytes (size - 2))
        (str.map byteOfChar ++ List.replicate (padding (2 + str.length)) 0)
        (str.map byteOfChar ++ List.replicate (padding (2 + str.length)) 0) := by
      have hread :=
        reads_takeBytes (str.map byteOfChar ++ List.replicate (padding (2 + str.length)) 0)
      rwa [List.length_append, List.length_map, List.length_replicate,
        show str.length + padding (2 + str.length) = size - 2 by omega] at hread
    have hret : Reads (do
        let bs ← takeBytes (size - 2)
        pure (cString bs)) (str.map byteOfChar ++ List.replicate (padding (2 + str.length)) 0)
        str := by
      refine hbody.bind_pure ?_
      rw [cString_padded hstr]
      exact Reads.pure _
    simp only [writeString, Option.getD_some, List.append_assoc]
    refine hword.bind ?_
    rw [if_neg (show ¬ size - 2 = 0 by omega)]
    exact hret

/-! ## Regularity and sizes of the helpers -/

theorem regular_readByte : Regular readByte :=
  (regular_readLE 1).bind fun _ => Regular.pure _

theorem regular_readDword : Regular readDword :=
  (regular_readLE 4).bind fun _ => Regular.pure _

theorem readDword_of_length {bs : List UInt8} (h : 4 ≤ bs.length) :
    ∃ v, readDword bs = some (v, bs.drop 4) := by
  refine ⟨BitVec.ofNat 32 (natLE (bs.take 4)), ?_⟩
  rw [readDword, reader_bind, readLE, reader_bind, takeBytes, if_pos h]
  rfl

theorem regular_readDword2long : Regular (readDword2long : Reader (BitVec w)) :=
  regular_readDword.bind fun _ => Regular.pure _

theorem regular_readPointer : Regular (readPointer : Reader (BitVec w)) :=
  (regular_readLE _).bind fun _ => Regular.pure _

theorem consumes_readDword : Consumes readDword 4 :=
  (consumes_readLE 4).bind fun _ => Consumes.pure _

theorem consumes_readPointer : Consumes (readPointer : Reader (BitVec w)) (w / 8) :=
  (consumes_readLE _).bind fun _ => Consumes.pure _

theorem regular_readString (size : Nat) : Regular (readString size) := by
  refine (regular_readLE 2).bind fun len => ?_
  split
  · exact Regular.pure _
  split
  · exact (regular_takeBytes 2).bind fun _ => Regular.pure _
  · exact (regular_takeBytes len).bind fun _ => Regular.pure _

theorem regular_readStringa : Regular readStringa := by
  refine (regular_readLE 2).bind fun len => ?_
  split
  · exact (regular_takeBytes 2).bind fun _ => Regular.pure _
  · exact (regular_takeBytes len).bind fun _ => Regular.pure _

end SpRtrace.Common
