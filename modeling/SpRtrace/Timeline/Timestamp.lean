/-
SpRtrace.Timeline.Timestamp — the text of a timestamp,
`src/rtrace-timeline/timestamp.h`.

`toString` writes all fields, `offsetToString` leaves out the leading ones
that are zero and the zeros at the end of the milliseconds. `fromString`
takes the fields apart at the point and at the last two colons, from right
to left, and reads what stands behind the point as a number of
milliseconds. So a fraction with a zero left out is read as a smaller
number (`fromString_offsetToString`), and the two agree on the timestamps
whose milliseconds do not end in a zero (`timestamp_roundTrip`).

`int` is `Int` here; `w` is the width of `unsigned long`, in which the
places in a string are counted. The timestamp itself is an `unsigned int`,
so only the low bits of the sums are computed.
-/
import SpRtrace.Postproc.ParseText
import SpRtrace.Library.RecordTheorems

namespace SpRtrace.Timeline.Timestamp

open SpRtrace.Lib SpRtrace.Common SpRtrace.Library SpRtrace.Postproc

/-! ## Printing -/

/-- What both functions split the time into first. -/
structure Fields where
  hours : Int
  minutes : Int
  seconds : Int
  msecs : Int

def Fields.of (hours : Int) : Fields :=
  { msecs := hours.tmod 1000
    seconds := (hours.tdiv 1000).tmod 60
    minutes := ((hours.tdiv 1000).tdiv 60).tmod 60
    hours := ((hours.tdiv 1000).tdiv 60).tdiv 60 }

/-- An `int` in a stream. -/
def showInt (v : Int) : Str :=
  if v < 0 then '-' :: printNat 10 v.natAbs else printNat 10 v.toNat

/-- An `int` behind `setfill('0')` and `setw(width)`. -/
def showPadded (width : Nat) (v : Int) : Str :=
  List.replicate (width - (showInt v).length) '0' ++ showInt v

def toString (hours : Int) (decimal : Nat) : Str :=
  let time := Fields.of hours
  let msecs := (fun m : Int => m.tdiv 10)^[3 - decimal] time.msecs
  showPadded 2 time.hours ++ ':' :: showPadded 2 time.minutes ++ ':' :: showPadded 2 time.seconds
    ++ if decimal = 0 then [] else '.' :: showPadded decimal msecs

/-- The loop of `offsetToString`, which takes the zeros off the end; it
stops before `decimal` is zero. -/
def trimZeros : Nat → Int → Nat × Int
  | 0, msecs => (0, msecs)
  | decimal + 1, msecs =>
      if msecs.tmod 10 = 0 then trimZeros decimal (msecs.tdiv 10) else (decimal + 1, msecs)

/-- A number that is padded if something stands in front of it. -/
def showBehind (text : Str) (v : Int) : Str :=
  text ++ if text = [] then showInt v else showPadded 2 v

def offsetToString (hours : Int) : Str :=
  let time := Fields.of hours
  let text := if time.hours ≠ 0 then showInt time.hours ++ [':'] else []
  let text := if time.minutes ≠ 0 ∨ text ≠ [] then showBehind text time.minutes ++ [':'] else text
  let text := showBehind text time.seconds
  if time.msecs ≠ 0 then
    text ++ '.' :: showPadded (trimZeros 3 time.msecs).1 (trimZeros 3 time.msecs).2
  else text

/-! ## Parsing -/

variable (w : Nat)

def npos : Nat := 2 ^ w - 1

/-- `pos - 1`. -/
def before (pos : Nat) : Nat := (pos + (2 ^ w - 1)) % 2 ^ w

/-- `text.find(c)`. -/
def find (text : Str) (c : Char) : Nat := (text.idxOf? c).getD (npos w)

/-- `text.rfind(c, pos)`. -/
def rfind (text : Str) (c : Char) (pos : Nat) : Nat :=
  match strrchr (text.take (pos + 1)) c with
  | some (front, _) => front.length
  | none => npos w

/-- `text.substr(pos, n)`, with `pos` not behind the end. -/
def substr (text : Str) (pos n : Nat) : Str := (text.drop pos).take n

/-- The variables of `fromString`. -/
structure Parsed where
  timestamp : BitVec 32
  lpos : Nat
  shift : BitVec 32

def parseFraction (text : Str) : Parsed :=
  let mpos := find w text '.'
  if mpos ≠ npos w then
    { timestamp := atoi w (substr text (mpos + 1) (text.length - mpos - 1))
      lpos := before w mpos
      shift := 1000 }
  else { timestamp := 0, lpos := text.length, shift := 1000 }

/-- The number behind the last colon that is left. -/
def parseField (text : Str) (unit : BitVec 32) (p : Parsed) : Parsed :=
  let mpos := rfind w text ':' p.lpos
  if mpos ≠ npos w then
    { timestamp := p.timestamp + unit * atoi w (substr text (mpos + 1) (p.lpos - mpos))
      lpos := before w mpos
      shift := p.shift * 60 }
  else p

def fromString (text : Str) : BitVec 32 :=
  let p := parseFraction w text
  let p := parseField w text 1000 p
  let p := parseField w text (1000 * 60) p
  p.timestamp + p.shift * atoi w (substr text 0 ((p.lpos + 1) % 2 ^ w))

end SpRtrace.Timeline.Timestamp
