/-
SpRtrace.Resolve.NameCache — the cache of resolved names,
`src/rtrace-resolve/namecache.c`.

A record is looked for in five slots from the hash of its address on. No
lookup counts a hit, so a new record always goes into the first of them
(`NameCache.freeSlot_eq`). The table is allocated filled with zeros, which
is a record of address 0 without a name.

`namecache_remove_region` is called by nobody.
-/
import Mathlib
import SpRtrace.Common.Proto

namespace SpRtrace.Resolve

open SpRtrace.Common

variable {w : Nat}

def cacheSize : Nat := 2 ^ 16

def cacheSlotCount : Nat := 5

/-- `namecache_rec_t`; the name is NULL in a record that was never
written. -/
structure NamecacheRec (w : Nat) where
  addr : BitVec w
  name : Option Str
  hits : BitVec 32
  stamp : BitVec 32

/-- A record as `calloc` leaves it. -/
def NamecacheRec.zero : NamecacheRec w := { addr := 0, name := none, hits := 0, stamp := 0 }

/-- The table `cache`. -/
abbrev NameCache (w : Nat) := Nat → NamecacheRec w

def namecacheAlloc : NameCache w := fun _ => .zero

/-- `access_counter`, which is never changed. -/
def accessCounter : BitVec 32 := 1

/-- The loop of `calc_hash`. -/
def calcHashFrom (hash value : Nat) : Nat :=
  if value = 0 then hash else calcHashFrom (hash ^^^ (value &&& (cacheSize - 1))) (value >>> 3)
termination_by value
decreasing_by
  rw [Nat.shiftRight_eq_div_pow]
  omega

def calcHash (addr : BitVec w) : Nat := calcHashFrom 0 addr.toNat

/-- `namecache_get_data`: the first of the slots that has the address. -/
def namecacheGetData (cache : NameCache w) (addr : BitVec w) : Option (NamecacheRec w) :=
  ((List.range cacheSlotCount).map fun i => cache (calcHash addr + i)).find? (·.addr = addr)

/-- One round of the loop in `namecache_add`; it stops at a record without
hits. -/
def NameCache.better (cache : NameCache w) (freerec rec : Nat) : Nat :=
  if (cache freerec).hits = 0 then freerec
  else if (cache rec).hits * (accessCounter - (cache freerec).stamp)
      < (cache freerec).hits * (accessCounter - (cache rec).stamp) then rec
  else freerec

/-- The slot that `namecache_add` gives up. -/
def NameCache.freeSlot (cache : NameCache w) (addr : BitVec w) : Nat :=
  (List.range cacheSlotCount).foldl (fun freerec i => cache.better freerec (calcHash addr + i))
    (calcHash addr)

def namecacheAdd (cache : NameCache w) (addr : BitVec w) (resolvedName : Str) : NameCache w :=
  Function.update cache (cache.freeSlot addr)
    { addr, name := some resolvedName, hits := 0, stamp := accessCounter }

/-! ## The slots -/

/-- No record was ever hit. -/
def NameCache.NoHits (cache : NameCache w) : Prop := ∀ i, (cache i).hits = 0

theorem namecacheAlloc_noHits : (namecacheAlloc : NameCache w).NoHits := fun _ => rfl

theorem namecacheAdd_noHits {cache : NameCache w} (h : cache.NoHits) (addr : BitVec w)
    (name : Str) : (namecacheAdd cache addr name).NoHits := by
  intro i
  rw [namecacheAdd, Function.update_apply]
  split
  · rfl
  · exact h i

/-- The first slot is free. -/
theorem NameCache.freeSlot_eq {cache : NameCache w} (h : cache.NoHits) (addr : BitVec w) :
    cache.freeSlot addr = calcHash addr := by
  have hbetter : ∀ freerec rec, cache.better freerec rec = freerec := by
    intro freerec rec
    rw [NameCache.better, if_pos (h freerec)]
  simp only [NameCache.freeSlot, hbetter]
  rfl

@[simp] theorem calcHash_zero : calcHash (0 : BitVec w) = 0 := by
  have hzero : (0 : BitVec w).toNat = 0 := BitVec.toNat_zero
  rw [calcHash, hzero, calcHashFrom, if_pos rfl]

theorem calcHashFrom_lt {hash : Nat} (h : hash < cacheSize) (value : Nat) :
    calcHashFrom hash value < cacheSize := by
  induction value using Nat.strongRecOn generalizing hash with
  | ind value ih =>
    rw [calcHashFrom]
    split
    · exact h
    next hne =>
      have hshift : value >>> 3 < value := by rw [Nat.shiftRight_eq_div_pow]; omega
      have hbits : value &&& (cacheSize - 1) < cacheSize :=
        lt_of_le_of_lt Nat.and_le_right (by decide)
      exact ih _ hshift (Nat.xor_lt_two_pow h hbits)

/-- Every slot of an address lies inside the table, which has
`CACHE_SIZE + CACHE_SLOT_COUNT` records. -/
theorem calcHash_inBounds (addr : BitVec w) {i : Nat} (h : i < cacheSlotCount) :
    calcHash addr + i < cacheSize + cacheSlotCount := by
  have hlt : calcHash addr < cacheSize := calcHashFrom_lt (by decide) _
  omega

/-- A record behind the first slot belongs to another address. -/
theorem namecacheGetData_first {cache : NameCache w} {addr : BitVec w}
    (hother : ∀ i, 0 < i → i < cacheSlotCount → (cache (calcHash addr + i)).addr ≠ addr) :
    namecacheGetData cache addr =
      if (cache (calcHash addr)).addr = addr then some (cache (calcHash addr)) else none := by
  have hrange : List.range cacheSlotCount = [0, 1, 2, 3, 4] := rfl
  have h := fun i hi => hother i hi
  unfold namecacheGetData
  rw [hrange]
  simp only [List.map_cons, List.map_nil, List.find?_cons, List.find?_nil, Nat.add_zero]
  by_cases hfirst : (cache (calcHash addr)).addr = addr
  · simp [hfirst]
  · simp [hfirst, h 1 (by decide) (by decide), h 2 (by decide) (by decide),
      h 3 (by decide) (by decide), h 4 (by decide) (by decide)]

end SpRtrace.Resolve
