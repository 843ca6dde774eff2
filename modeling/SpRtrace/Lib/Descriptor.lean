/-
SpRtrace.Lib.Descriptor — a file that is read and written through one
position.

The proofs cut the file at the position: `read_at` reads what is behind
the cut, `write_at` replaces as much as it writes, `write_end` extends the
file.
-/
import SpRtrace.Lib.Area

namespace SpRtrace.Lib

structure Fd where
  bytes : List UInt8
  pos : Nat

/-- `read`: at most `n` bytes, fewer at the end of the file. -/
def Fd.read (f : Fd) (n : Nat) : List UInt8 × Fd :=
  (slice f.bytes f.pos n, { f with pos := f.pos + (slice f.bytes f.pos n).length })

/-- `write`; a position behind the end leaves a hole of zeros. -/
def Fd.write (f : Fd) (bs : List UInt8) : Fd :=
  { bytes := patch (f.bytes ++ List.replicate (f.pos - f.bytes.length) 0) f.pos bs,
    pos := f.pos + bs.length }

/-- `lseek` with SEEK_SET. -/
def Fd.seek (f : Fd) (pos : Nat) : Fd := { f with pos }

theorem Fd.read_at (as bs cs : List UInt8) :
    (Fd.mk (as ++ bs ++ cs) as.length).read bs.length
      = (bs, ⟨as ++ bs ++ cs, as.length + bs.length⟩) := by
  simp [Fd.read, slice]

/-- A read of at most what is left. -/
theorem Fd.read_pos (f : Fd) (n : Nat) : (f.read n).2.pos = f.pos + (f.read n).1.length := rfl

@[simp] theorem Fd.read_bytes (f : Fd) (n : Nat) : (f.read n).2.bytes = f.bytes := rfl

theorem Fd.write_at (as cs : List UInt8) {bs bs' : List UInt8} (h : bs'.length = bs.length) :
    (Fd.mk (as ++ bs ++ cs) as.length).write bs' = ⟨as ++ bs' ++ cs, as.length + bs'.length⟩ := by
  simp [Fd.write, patch, h, List.drop_append]

theorem Fd.write_end (as bs : List UInt8) :
    (Fd.mk as as.length).write bs = ⟨as ++ bs, as.length + bs.length⟩ := by
  simp [Fd.write, patch]

/-- Writing at the end, one piece after the other. -/
theorem Fd.write_each {γ : Type*} (encode : γ → List UInt8) (xs : List γ) (as : List UInt8) :
    xs.foldl (fun (f : Fd) x => f.write (encode x)) (Fd.mk as as.length)
      = ⟨as ++ xs.flatMap encode, (as ++ xs.flatMap encode).length⟩ := by
  induction xs generalizing as with
  | nil => simp
  | cons x xs ih =>
    have hrest := ih (as ++ encode x)
    rw [List.length_append] at hrest
    rw [List.foldl_cons, Fd.write_end, hrest, List.flatMap_cons, List.append_assoc]

end SpRtrace.Lib
