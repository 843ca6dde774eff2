/-
SpRtrace.Lib.Stdio — the parts of C formatted input and output that a line
format needs: `fgets`, `sscanf` with the conversions %d, %x, %lx, %s, %c
and %[^...], and the printing of numbers.

Text is a list of characters without NUL. A format is a list of
directives. `sscanf` returns the values it assigned, in order, and
whether the input ran out, which is what distinguishes EOF from zero.
Numbers are converted the way `strtol` and `strtoul` do it, with
saturation, and cut down to the width of the variable; `w` is the width
of a `long`.
-/
import Mathlib

namespace SpRtrace.Lib

/-! ## Lines -/

def pathMax : Nat := 4096

/-- The string in a buffer: what is in front of the first NUL. -/
def bufferText (buf : List Char) : List Char := buf.takeWhile (· ≠ '\x00')

/-- What successive calls of `fgets` return when `acc` has been read of the
current line and there is room for `left` characters more. -/
def fgetsFrom (limit left : Nat) (acc : List Char) : List Char → List (List Char)
  | [] => if acc = [] then [] else [acc]
  | c :: text =>
      if c = '\n' ∨ left ≤ 1 then (acc ++ [c]) :: fgetsFrom limit limit [] text
      else fgetsFrom limit (left - 1) (acc ++ [c]) text

/-- The lines that `fgets` with a buffer of `size` bytes returns until the
end of the file: they keep their newline, and long ones are cut. -/
def fgetsLines (size : Nat) (text : List Char) : List (List Char) :=
  fgetsFrom (size - 1) (size - 1) [] text

/-! ## Characters -/

def isSpace (c : Char) : Bool :=
  c = ' ' || c = '\t' || c = '\n' || c = '\x0b' || c = '\x0c' || c = '\r'

def skipSpace (s : List Char) : List Char := s.dropWhile isSpace

/-- The value of a digit in any base up to sixteen. -/
def digitVal (c : Char) : Option Nat :=
  if '0' ≤ c ∧ c ≤ '9' then some (c.toNat - '0'.toNat)
  else if 'a' ≤ c ∧ c ≤ 'f' then some (c.toNat - 'a'.toNat + 10)
  else if 'A' ≤ c ∧ c ≤ 'F' then some (c.toNat - 'A'.toNat + 10)
  else none

def isDigitOf (base : Nat) (c : Char) : Bool := (digitVal c).any (· < base)

def digitsValue (base : Nat) (ds : List Char) : Nat :=
  ds.foldl (fun acc c => acc * base + (digitVal c).getD 0) 0

/-! ## Conversions -/

inductive ScanArg (w : Nat)
  | int (v : BitVec 32)
  | long (v : BitVec w)
  | text (s : List Char)
  | char (c : Char)
  deriving DecidableEq

/-- %d, %x, %lx, %s, %c and %[^...]; strings go into a buffer of `size` bytes. -/
inductive Conv
  | dec
  | hex
  | hexLong
  | word (size : Nat)
  | char
  | except (stop : List Char) (size : Nat)

inductive Directive
  | space
  | lit (c : Char)
  | conv (k : Conv)

/-- How a conversion ends: with a value and the rest of the input, with a
mismatch, because there is no input, or behind the end of its buffer. -/
inductive ScanStep (w : Nat)
  | ok (v : ScanArg w) (rest : List Char)
  | mismatch
  | eof
  | overflow

/-- An optional sign. -/
def scanSign : List Char → Bool × List Char
  | '-' :: s => (true, s)
  | '+' :: s => (false, s)
  | s => (false, s)

/-- The optional 0x of a hexadecimal number. -/
def scanHexMark : List Char → List Char
  | '0' :: x :: s => if x = 'x' ∨ x = 'X' then s else '0' :: x :: s
  | s => s

/-- The result of `strtol`, as an `int`. -/
def strtolInt (w : Nat) (neg : Bool) (n : Nat) : BitVec 32 :=
  BitVec.ofInt 32 (if neg then max (-(n : Int)) (-2 ^ (w - 1)) else min (n : Int) (2 ^ (w - 1) - 1))

/-- The result of `strtoul`. -/
def strtoul (w : Nat) (neg : Bool) (n : Nat) : BitVec w :=
  if 2 ^ w ≤ n then BitVec.ofNat w (2 ^ w - 1)
  else if neg then -BitVec.ofNat w n else BitVec.ofNat w n

variable {w : Nat}

/-- The digits of a number and what they are made into. -/
def scanDigits (base : Nat) (make : Nat → ScanArg w) (s : List Char) : ScanStep w :=
  match s.takeWhile (isDigitOf base) with
  | [] => .mismatch
  | d :: ds => .ok (make (digitsValue base (d :: ds))) (s.dropWhile (isDigitOf base))

/-- A number behind white space and a sign. -/
def scanNumber (base : Nat) (mark : List Char → List Char) (make : Bool → Nat → ScanArg w)
    (s : List Char) : ScanStep w :=
  match skipSpace s with
  | [] => .eof
  | c :: s =>
      let (neg, s) := scanSign (c :: s)
      scanDigits base (make neg) (mark s)

/-- The front part of a non-empty input whose characters satisfy `p`, and
a NUL behind it. -/
def scanText (size : Nat) (p : Char → Bool) (s : List Char) : ScanStep w :=
  let text := s.takeWhile p
  if text = [] then .mismatch
  else if size ≤ text.length then .overflow
  else .ok (.text text) (s.dropWhile p)

def scanConv : Conv → List Char → ScanStep w
  | .dec, s => scanNumber 10 id (fun neg n => .int (strtolInt w neg n)) s
  | .hex, s => scanNumber 16 scanHexMark (fun neg n => .int ((strtoul w neg n).setWidth 32)) s
  | .hexLong, s => scanNumber 16 scanHexMark (fun neg n => .long (strtoul w neg n)) s
  | .word size, s =>
      match skipSpace s with
      | [] => .eof
      | c :: s => scanText size (!isSpace ·) (c :: s)
  | .char, [] => .eof
  | .char, c :: s => .ok (.char c) s
  | .except _ _, [] => .eof
  | .except stop size, c :: s => scanText size (· ∉ stop) (c :: s)

/-- What `sscanf` did: the values assigned, and whether the input ended
where a directive wanted some. -/
structure ScanResult (w : Nat) where
  values : List (ScanArg w)
  eof : Bool

/-- `sscanf`; `none` if a string did not fit its buffer. -/
def sscanf (w : Nat) : List Directive → List Char → Option (ScanResult w)
  | [], _ => some { values := [], eof := false }
  | .space :: fmt, s => sscanf w fmt (skipSpace s)
  | .lit _ :: _, [] => some { values := [], eof := true }
  | .lit c :: fmt, d :: s =>
      if c = d then sscanf w fmt s else some { values := [], eof := false }
  | .conv k :: fmt, s =>
      match scanConv k s with
      | .ok v rest => (sscanf w fmt rest).map fun r => { r with values := v :: r.values }
      | .mismatch => some { values := [], eof := false }
      | .eof => some { values := [], eof := true }
      | .overflow => none

/-- The value `sscanf` returns: the number of assignments, or EOF. -/
def ScanResult.count (r : ScanResult w) : Int :=
  if r.values = [] ∧ r.eof = true then -1 else r.values.length

/-! ## Printing -/

/-- %d of a number that is not negative, and %x with base sixteen. -/
def printNat (base n : Nat) : List Char := Nat.toDigits base n

/-- %d. -/
def printInt (v : BitVec 32) : List Char :=
  if v.toInt < 0 then '-' :: printNat 10 v.toInt.natAbs else printNat 10 v.toInt.toNat

/-- %0<width>d of a number that is not negative. -/
def printPadded (width n : Nat) : List Char :=
  List.replicate (width - (printNat 10 n).length) '0' ++ printNat 10 n

/-- `printf` of a format without arguments; only %% is defined then. -/
def printFormat : List Char → Option (List Char)
  | '%' :: '%' :: s => (printFormat s).map ('%' :: ·)
  | '%' :: _ => none
  | c :: s => (printFormat s).map (c :: ·)
  | [] => some []

end SpRtrace.Lib
