/-
SpRtrace.Lib.ByteReader — byte strings with little-endian numbers, and
readers that consume them from the front.

A reader is a state monad over the bytes not read yet; running out of
bytes is `none`. Two notions carry all proofs about readers:

* `Reads p bs a`: in front of anything, `p` consumes exactly `bs` and
  returns `a`. Round trips are derivations in its rules.
* `Regular p`: whatever `p` accepts, it accepts because of a finite front
  part, and accepts that part in front of anything else. That is what
  makes the result independent of the bytes behind a record.

Both are closed under `pure`, `bind` and bounded repetition, so a decoder
written in `do` notation is regular by construction. `Consumes p k` is
the size of a record whose fields all have a fixed size.
-/
import Mathlib

namespace SpRtrace.Lib

/-! ## Little-endian numbers -/

/-- The `k` low bytes of a number, the lowest first. -/
def bytesLE : Nat → Nat → List UInt8
  | 0, _ => []
  | k + 1, v => UInt8.ofNat (v % 256) :: bytesLE k (v / 256)

/-- The number of a byte string, the lowest byte first. -/
def natLE : List UInt8 → Nat
  | [] => 0
  | b :: bs => b.toNat + 256 * natLE bs

@[simp] theorem bytesLE_length (k v : Nat) : (bytesLE k v).length = k := by
  induction k generalizing v with
  | zero => rfl
  | succ k ih => simp [bytesLE, ih]

theorem natLE_bytesLE (k v : Nat) : natLE (bytesLE k v) = v % 256 ^ k := by
  induction k generalizing v with
  | zero => simp [bytesLE, natLE, Nat.mod_one]
  | succ k ih =>
    have hbyte : (UInt8.ofNat (v % 256)).toNat = v % 256 := by
      rw [UInt8.toNat_ofNat']; exact Nat.mod_eq_of_lt (Nat.mod_lt _ (by decide))
    rw [bytesLE, natLE, hbyte, ih, Nat.pow_succ, Nat.mul_comm (256 ^ k) 256, Nat.mod_mul]

theorem natLE_lt (bs : List UInt8) : natLE bs < 256 ^ bs.length := by
  induction bs with
  | nil => simp [natLE]
  | cons b bs ih =>
    have hb := b.toNat_lt
    rw [natLE, List.length_cons, Nat.pow_succ]
    omega

/-! ## Readers -/

/-- A reader of the front of a byte string. -/
abbrev Reader (α : Type) := StateT (List UInt8) Option α

/-- Take `k` bytes. -/
def takeBytes (k : Nat) : Reader (List UInt8) := fun bs =>
  if k ≤ bs.length then some (bs.take k, bs.drop k) else none

/-- Read a little-endian number of `k` bytes. -/
def readLE (k : Nat) : Reader Nat := do
  let bs ← takeBytes k
  pure (natLE bs)

/-- Run a reader `n` times. -/
def repeatRead {α : Type} (p : Reader α) : Nat → Reader (List α)
  | 0 => pure []
  | n + 1 => do
      let a ← p
      let as ← repeatRead p n
      pure (a :: as)

variable {α β : Type} {p : Reader α} {f : α → Reader β}

theorem reader_bind (p : Reader α) (f : α → Reader β) (bs : List UInt8) :
    (p >>= f) bs = (p bs).bind fun (a, rest) => f a rest := rfl

theorem reader_bind_eq_some {bs rest : List UInt8} {b : β} (h : (p >>= f) bs = some (b, rest)) :
    ∃ a mid, p bs = some (a, mid) ∧ f a mid = some (b, rest) := by
  rw [reader_bind, Option.bind_eq_some_iff] at h
  obtain ⟨⟨a, mid⟩, hpa, hfb⟩ := h
  exact ⟨a, mid, hpa, hfb⟩

/-! ## Exact reads -/

/-- In front of anything, `p` consumes exactly `bs` and returns `a`. -/
def Reads (p : Reader α) (bs : List UInt8) (a : α) : Prop :=
  ∀ rest, p (bs ++ rest) = some (a, rest)

theorem Reads.pure (a : α) : Reads (pure a) [] a := fun _ => rfl

theorem Reads.bind {bs cs : List UInt8} {a : α} {b : β} (hp : Reads p bs a)
    (hf : Reads (f a) cs b) : Reads (p >>= f) (bs ++ cs) b := by
  intro rest
  rw [reader_bind, List.append_assoc, hp, Option.bind_some]
  exact hf rest

/-- The last read of a record: what follows only computes. -/
theorem Reads.bind_pure {bs : List UInt8} {a : α} {b : β} (hp : Reads p bs a)
    (hf : Reads (f a) [] b) : Reads (p >>= f) bs b := by
  have := hp.bind hf
  rwa [List.append_nil] at this

theorem Reads.unique {bs : List UInt8} {a a' : α} (h : Reads p bs a) (h' : Reads p bs a') :
    a = a' := by
  have := (h []).symm.trans (h' [])
  exact (Prod.mk.inj (Option.some.inj this)).1

theorem reads_takeBytes (bs : List UInt8) : Reads (takeBytes bs.length) bs bs := by
  intro rest
  simp [takeBytes]

theorem reads_readLE (k v : Nat) : Reads (readLE k) (bytesLE k v) (v % 256 ^ k) := by
  have htake := reads_takeBytes (bytesLE k v)
  rw [bytesLE_length] at htake
  rw [← natLE_bytesLE]
  exact htake.bind_pure (Reads.pure _)

/-- Reading a list of records written one after the other. -/
theorem reads_repeatRead {γ : Type} {encode : γ → List UInt8} {value : γ → α} :
    ∀ {xs : List γ}, (∀ x ∈ xs, Reads p (encode x) (value x)) →
      Reads (repeatRead p xs.length) (xs.flatMap encode) (xs.map value)
  | [], _ => Reads.pure _
  | x :: xs, h => by
      have hx := h x (by simp)
      have hxs : Reads (repeatRead p xs.length) (xs.flatMap encode) (xs.map value) :=
        reads_repeatRead fun y hy => h y (by simp [hy])
      rw [List.flatMap_cons, List.map_cons]
      exact hx.bind (hxs.bind_pure (Reads.pure _))

/-! ## Regular readers -/

/-- Everything `p` accepts is accepted because of a front part that `p`
reads exactly. -/
def Regular (p : Reader α) : Prop :=
  ∀ bs a rest, p bs = some (a, rest) → ∃ used, bs = used ++ rest ∧ Reads p used a

theorem Regular.pure (a : α) : Regular (pure a : Reader α) := by
  intro bs b rest h
  obtain ⟨rfl, rfl⟩ := Prod.mk.inj (Option.some.inj h)
  exact ⟨[], rfl, Reads.pure _⟩

theorem Regular.bind (hp : Regular p) (hf : ∀ a, Regular (f a)) : Regular (p >>= f) := by
  intro bs b rest h
  obtain ⟨a, mid, hpa, hfb⟩ := reader_bind_eq_some h
  obtain ⟨used, rfl, hread⟩ := hp bs a mid hpa
  obtain ⟨used', rfl, hread'⟩ := hf a mid b rest hfb
  exact ⟨used ++ used', by rw [List.append_assoc], hread.bind hread'⟩

theorem regular_takeBytes (k : Nat) : Regular (takeBytes k) := by
  intro bs a rest h
  unfold takeBytes at h
  split at h
  · rename_i hk
    obtain ⟨rfl, rfl⟩ := Prod.mk.inj (Option.some.inj h)
    refine ⟨bs.take k, (List.take_append_drop k bs).symm, ?_⟩
    have hlen : (bs.take k).length = k := by rw [List.length_take]; omega
    have := reads_takeBytes (bs.take k)
    rwa [hlen] at this
  · cases h

theorem regular_readLE (k : Nat) : Regular (readLE k) :=
  (regular_takeBytes k).bind fun _ => Regular.pure _

theorem regular_repeatRead (hp : Regular p) (n : Nat) : Regular (repeatRead p n) := by
  induction n with
  | zero => exact Regular.pure _
  | succ n ih => exact hp.bind fun a => ih.bind fun as => Regular.pure _

/-- A regular reader that accepts a byte string accepts it with the same
result in front of anything. -/
theorem Regular.append (hp : Regular p) {bs rest : List UInt8} {a : α}
    (h : p bs = some (a, rest)) (tail : List UInt8) : p (bs ++ tail) = some (a, rest ++ tail) := by
  obtain ⟨used, rfl, hread⟩ := hp bs a rest h
  rw [List.append_assoc, hread]

/-! ## Readers of a fixed size -/

/-- `p` consumes `k` bytes whenever it accepts. -/
def Consumes (p : Reader α) (k : Nat) : Prop :=
  ∀ bs a rest, p bs = some (a, rest) → bs.length = k + rest.length

theorem Consumes.pure (a : α) : Consumes (pure a : Reader α) 0 := by
  intro bs b rest h
  obtain ⟨rfl, rfl⟩ := Prod.mk.inj (Option.some.inj h)
  omega

theorem Consumes.bind {k l : Nat} (hp : Consumes p k) (hf : ∀ a, Consumes (f a) l) :
    Consumes (p >>= f) (k + l) := by
  intro bs b rest h
  obtain ⟨a, mid, hpa, hfb⟩ := reader_bind_eq_some h
  have h₁ := hp bs a mid hpa
  have h₂ := hf a mid b rest hfb
  omega

theorem consumes_takeBytes (k : Nat) : Consumes (takeBytes k) k := by
  intro bs a rest h
  unfold takeBytes at h
  split at h
  · obtain ⟨rfl, rfl⟩ := Prod.mk.inj (Option.some.inj h)
    rw [List.length_drop]
    omega
  · cases h

theorem consumes_readLE (k : Nat) : Consumes (readLE k) k :=
  (consumes_takeBytes k).bind fun _ => Consumes.pure _

/-- A reader of a fixed size is decided by that many bytes. -/
theorem Regular.eq_of_take {k : Nat} (hp : Regular p) (hk : Consumes p k) {bs bs' rest : List UInt8}
    {a : α} (h : p bs = some (a, rest)) (hpre : bs.take k <+: bs') :
    p bs' = some (a, bs'.drop k) := by
  obtain ⟨used, rfl, hread⟩ := hp bs a rest h
  have hlen : used.length = k := by
    have := hk _ _ _ h
    rw [List.length_append] at this
    omega
  rw [List.take_left' hlen] at hpre
  obtain ⟨tail, rfl⟩ := hpre
  rw [hread, List.drop_left' hlen]

/-- A repetition returns as many records as it was asked for. -/
theorem repeatRead_length {n : Nat} {bs rest : List UInt8} {as : List α}
    (h : repeatRead p n bs = some (as, rest)) : as.length = n := by
  induction n generalizing bs as with
  | zero =>
    obtain ⟨rfl, rfl⟩ := Prod.mk.inj (Option.some.inj h)
    rfl
  | succ n ih =>
    obtain ⟨a, mid, -, h⟩ := reader_bind_eq_some h
    obtain ⟨as', rest', hrest, h⟩ := reader_bind_eq_some h
    obtain ⟨rfl, rfl⟩ := Prod.mk.inj (Option.some.inj h)
    rw [List.length_cons, ih hrest]

end SpRtrace.Lib
