/-
SpRtrace.Modules.EmuHeapTheorems — when the emulated heap is a heap.

Blocks are taken at the end and only the last one is given back, so the
invariant `EmuInv` says that every live block ends in front of the tail or
is the block at the tail. Three operations are shown to keep it: taking a
block (`EmuInv.alloc`), giving one back (`EmuInv.free`) and a store to a
block (`EmuInv.write`); the calls are made of these.

The limit check is what keeps a block inside of the heap, and it is made
with wrapping arithmetic: `LimitChecked` is needed for every call
(`emuAllocMem_unchecked`) and enough for every run (`emuStep_right`).
-/
import Mathlib
import SpRtrace.Modules.EmuHeap

namespace SpRtrace.Modules

open SpRtrace.Common SpRtrace.Lib

variable {w : Nat}

/-! ## Alignment -/

theorem alignUp_eq {align : Nat} (h : 0 < align) (n : Nat) :
    alignUp align n = if n % align = 0 then n else n + (align - n % align) := by
  have hmod := Nat.mod_lt n h
  have hdiv := Nat.div_add_mod n align
  unfold alignUp
  split
  · rename_i hzero
    have : n + align - 1 = align - 1 + align * (n / align) := by omega
    rw [this, Nat.add_mul_div_left _ _ h, Nat.div_eq_of_lt (by omega), Nat.zero_add, Nat.mul_comm]
    omega
  · have : n + align - 1 = n % align - 1 + align * (n / align + 1) := by
      rw [Nat.mul_add]
      omega
    rw [this, Nat.add_mul_div_left _ _ h, Nat.div_eq_of_lt (by omega), Nat.zero_add, Nat.mul_comm,
      Nat.mul_add]
    omega

theorem alignUp_dvd (align n : Nat) : align ∣ alignUp align n := Nat.dvd_mul_left _ _

theorem le_alignUp {align : Nat} (h : 0 < align) (n : Nat) : n ≤ alignUp align n := by
  rw [alignUp_eq h]
  split <;> omega

theorem alignUp_of_dvd {align n : Nat} (h : 0 < align) (hdvd : align ∣ n) :
    alignUp align n = n := by
  rw [alignUp_eq h, if_pos (Nat.mod_eq_zero_of_dvd hdvd)]

/-- No multiple lies between a number and where it is rounded up to. -/
theorem alignUp_le {align n m : Nat} (h : 0 < align) (hle : n ≤ m) (hdvd : align ∣ m) :
    alignUp align n ≤ m := by
  obtain ⟨k, rfl⟩ := hdvd
  rw [alignUp, Nat.mul_comm align k]
  refine Nat.mul_le_mul_right _ (Nat.le_of_lt_succ ?_)
  rw [Nat.div_lt_iff_lt_mul h, Nat.succ_mul, Nat.mul_comm k align]
  omega

/-- Rounding up with a mask, as `emu_alloc_mem` does it. -/
theorem alignUp_mask {k : Nat} (hk : k < w) (x : BitVec w) :
    (if x &&& (BitVec.ofNat w (2 ^ k) - 1) ≠ 0 then
        x + (BitVec.ofNat w (2 ^ k) - (x &&& (BitVec.ofNat w (2 ^ k) - 1))) else x)
      = BitVec.ofNat w (alignUp (2 ^ k) x.toNat) := by
  have hpos : 0 < 2 ^ k := Nat.two_pow_pos k
  have hlt : 2 ^ k < 2 ^ w := Nat.pow_lt_pow_right (by decide) hk
  have halign : (BitVec.ofNat w (2 ^ k)).toNat = 2 ^ k := by
    rw [BitVec.toNat_ofNat, Nat.mod_eq_of_lt hlt]
  have hone : (1 : BitVec w).toNat = 1 :=
    (BitVec.toNat_ofNat 1 w).trans (Nat.mod_eq_of_lt (by omega))
  have hmask : (x &&& (BitVec.ofNat w (2 ^ k) - 1)).toNat = x.toNat % 2 ^ k := by
    rw [BitVec.toNat_and, BitVec.toNat_sub_of_le (by rw [BitVec.le_def, halign, hone]; omega),
      halign, hone, Nat.and_two_pow_sub_one_eq_mod]
  have hzero : x &&& (BitVec.ofNat w (2 ^ k) - 1) = 0 ↔ x.toNat % 2 ^ k = 0 := by
    rw [← hmask, ← BitVec.toNat_inj]
    simp
  rw [alignUp_eq hpos]
  by_cases hmod : x.toNat % 2 ^ k = 0
  · rw [if_neg (not_not.mpr (hzero.mpr hmod)), if_pos hmod, BitVec.ofNat_toNat,
      BitVec.setWidth_eq]
  · have hle : x &&& (BitVec.ofNat w (2 ^ k) - 1) ≤ BitVec.ofNat w (2 ^ k) := by
      rw [BitVec.le_def, hmask, halign]
      exact (Nat.mod_lt _ hpos).le
    rw [if_pos (fun h => hmod (hzero.mp h)), if_neg hmod]
    refine BitVec.eq_of_toNat_eq ?_
    rw [BitVec.toNat_add, BitVec.toNat_sub_of_le hle, hmask, halign, BitVec.toNat_ofNat]

/-! ## Memory -/

/-- The heap as the program has it. -/
structure EmuHeap.Placed (heap : EmuHeap w) : Prop where
  wide : 32 ≤ w
  below : heap.base.toNat + 2 * emuHeapSize ≤ 2 ^ w
  size : heap.bytes.length = emuHeapSize

section Memory

variable {heap : EmuHeap w}

theorem EmuHeap.Placed.four (h : heap.Placed) : (4 : BitVec w).toNat = 4 := by
  have hlt : 2 ^ 32 ≤ 2 ^ w := Nat.pow_le_pow_right (by decide) h.wide
  exact (BitVec.toNat_ofNat 4 w).trans (Nat.mod_eq_of_lt (by omega))

/-- The next cell. -/
theorem EmuHeap.Placed.add_four (h : heap.Placed) {addr : BitVec w}
    (haddr : addr.toNat ≤ heap.limit) : (addr + 4).toNat = addr.toNat + 4 := by
  have := h.below
  unfold limit emuHeapSize at *
  rw [BitVec.toNat_add_of_lt (by rw [h.four]; omega), h.four]

/-- The cell of a block. -/
theorem EmuHeap.Placed.sub_four (h : heap.Placed) (addr : BitVec w) (haddr : 4 ≤ addr.toNat) :
    (addr - 4).toNat = addr.toNat - 4 := by
  rw [BitVec.toNat_sub_of_le (by rw [BitVec.le_def, h.four]; exact haddr), h.four]

theorem EmuHeap.Placed.limit_toNat (h : heap.Placed) :
    (heap.base + BitVec.ofNat w emuHeapSize).toNat = heap.limit := by
  have := h.below
  have hsize : (BitVec.ofNat w emuHeapSize).toNat = emuHeapSize := by
    rw [BitVec.toNat_ofNat, Nat.mod_eq_of_lt (by unfold emuHeapSize at *; omega)]
  rw [BitVec.toNat_add_of_lt (by rw [hsize]; unfold emuHeapSize at *; omega), hsize, limit]

theorem EmuHeap.offset_eq {addr : BitVec w} (h : heap.base.toNat ≤ addr.toNat) :
    heap.offset addr = some (addr.toNat - heap.base.toNat) := if_pos h

theorem EmuHeap.cell_lt (heap : EmuHeap w) (addr : Nat) : heap.cell addr < 2 ^ 32 := by
  have hlen : (slice heap.bytes (addr - heap.base.toNat) 4).length ≤ 4 := List.length_take_le ..
  exact Nat.lt_of_lt_of_le (natLE_lt _) (Nat.pow_le_pow_right (by decide) hlen)

/-- A size cell is read. -/
theorem EmuHeap.Placed.loadInt (h : heap.Placed) (addr : BitVec w)
    (hlo : heap.base.toNat ≤ addr.toNat) (hhi : addr.toNat + 4 ≤ heap.limit) :
    heap.loadInt addr = some (BitVec.ofNat 32 (heap.cell addr.toNat)) := by
  have hlen : 4 ≤ (heap.bytes.drop (addr.toNat - heap.base.toNat)).length := by
    rw [List.length_drop, h.size]
    unfold limit at hhi
    omega
  rw [EmuHeap.loadInt, offset_eq hlo, Option.bind_eq_bind, Option.bind_some, readDword, reader_bind,
    readLE, reader_bind, takeBytes, if_pos hlen]
  rfl

def EmuHeap.patched (heap : EmuHeap w) (addr : Nat) (data : List UInt8) : EmuHeap w :=
  { heap with bytes := patch heap.bytes (addr - heap.base.toNat) data }

theorem EmuHeap.Placed.storeBytes (h : heap.Placed) (addr : BitVec w) (data : List UInt8)
    (hlo : heap.base.toNat ≤ addr.toNat) (hhi : addr.toNat + data.length ≤ heap.limit) :
    heap.storeBytes addr data = some (heap.patched addr.toNat data) := by
  unfold EmuHeap.storeBytes
  split
  · rename_i hnil
    rw [hnil, patched, patch_nil]
  · have hfits : addr.toNat - heap.base.toNat + data.length ≤ heap.bytes.length := by
      rw [h.size]
      unfold limit at hhi
      omega
    rw [offset_eq hlo, Option.bind_eq_bind, Option.bind_some, storeCells_eq hfits]
    rfl

theorem EmuHeap.Placed.patched (h : heap.Placed) {addr : Nat} {data : List UInt8}
    (hlo : heap.base.toNat ≤ addr) (hhi : addr + data.length ≤ heap.limit) :
    (heap.patched addr data).Placed where
  wide := h.wide
  below := h.below
  size := by
    unfold limit at hhi
    rw [EmuHeap.patched, patch_length (by rw [h.size]; omega), h.size]

/-- Bytes beside the replaced ones stay. -/
theorem EmuHeap.Placed.slice_patched (h : heap.Placed) {addr addr' n : Nat} {data : List UInt8}
    (hlo : heap.base.toNat ≤ addr) (hhi : addr ≤ heap.limit) (hlo' : heap.base.toNat ≤ addr')
    (hapart : addr' + n ≤ addr ∨ addr + data.length ≤ addr') :
    slice (heap.patched addr data).bytes (addr' - heap.base.toNat) n
      = slice heap.bytes (addr' - heap.base.toNat) n := by
  unfold limit at hhi
  exact slice_patch_apart (by rw [h.size]; omega) (by omega)

/-- The bytes are the same but for `n` of them from `addr` on. -/
def EmuHeap.SameBut (heap heap' : EmuHeap w) (addr n : Nat) : Prop :=
  heap'.base = heap.base ∧ ∀ addr' m, heap.base.toNat ≤ addr' → addr' + m ≤ addr ∨ addr + n ≤ addr' →
    slice heap'.bytes (addr' - heap.base.toNat) m = slice heap.bytes (addr' - heap.base.toNat) m

theorem EmuHeap.Placed.sameBut_patched (h : heap.Placed) {addr : Nat} (data : List UInt8)
    (hlo : heap.base.toNat ≤ addr) (hhi : addr ≤ heap.limit) :
    heap.SameBut (heap.patched addr data) addr data.length :=
  ⟨rfl, fun _ _ hlo' hapart => h.slice_patched hlo hhi hlo' hapart⟩

theorem EmuHeap.SameBut.cell {heap' : EmuHeap w} {addr addr' n : Nat}
    (h : heap.SameBut heap' addr n) (hlo : heap.base.toNat ≤ addr')
    (hapart : addr' + 4 ≤ addr ∨ addr + n ≤ addr') : heap'.cell addr' = heap.cell addr' := by
  rw [EmuHeap.cell, EmuHeap.cell, h.1, h.2 addr' 4 hlo hapart]

theorem EmuHeap.SameBut.contents {heap' : EmuHeap w} {addr n : Nat} {b : EmuBlock w}
    (h : heap.SameBut heap' addr n) (hlo : heap.base.toNat ≤ b.ptr.toNat)
    (hapart : b.ptr.toNat + b.size ≤ addr ∨ addr + n ≤ b.ptr.toNat) :
    heap'.contents b = heap.contents b := by
  rw [EmuHeap.contents, EmuHeap.contents, h.1, h.2 _ _ hlo hapart]

/-- The value that was stored in a cell. -/
theorem EmuHeap.Placed.cell_self (h : heap.Placed) {addr : Nat} {value : BitVec 32}
    (hlo : heap.base.toNat ≤ addr) (hhi : addr ≤ heap.limit) :
    (heap.patched addr (writeDword value)).cell addr = value.toNat := by
  have hpos : addr - heap.base.toNat ≤ heap.bytes.length := by
    rw [h.size]
    unfold limit at hhi
    omega
  have hslice := slice_patch (writeDword value) hpos
  rw [writeDword_length] at hslice
  unfold cell
  rw [show slice (heap.patched addr (writeDword value)).bytes
    (addr - (heap.patched addr (writeDword value)).base.toNat) 4 = writeDword value from hslice,
    writeDword, natLE_bytesLE]
  exact Nat.mod_eq_of_lt value.isLt

end Memory

/-! ## The invariant -/

/-- The tail is a cell of the heap, and what it covers is in the heap. -/
structure EmuHeap.Sound (heap : EmuHeap w) : Prop extends heap.Placed where
  tail_lo : heap.base.toNat ≤ heap.tail.toNat
  tail_hi : heap.tail.toNat + 4 ≤ heap.limit
  chunk : heap.tail.toNat + heap.cell heap.tail.toNat ≤ heap.limit

/-- A block with its cell, at the tail or in front of it. -/
structure BlockRight (heap : EmuHeap w) (b : EmuBlock w) : Prop where
  lo : heap.base.toNat + 4 ≤ b.ptr.toNat
  hi : b.ptr.toNat + b.size < heap.limit
  cell : heap.cell (b.ptr.toNat - 4) = b.size + 4
  aligned : emuHeapAlign ∣ b.ptr.toNat ∧ b.align ∣ b.ptr.toNat
  last : b.ptr.toNat = heap.tail.toNat + 4 ∨ b.ptr.toNat + b.size ≤ heap.tail.toNat

/-- Blocks with their cells apart. -/
def EmuBlock.Apart (b c : EmuBlock w) : Prop :=
  b.ptr.toNat + b.size + 4 ≤ c.ptr.toNat ∨ c.ptr.toNat + c.size + 4 ≤ b.ptr.toNat

structure EmuInv (st : EmuState w) : Prop where
  sound : st.heap.Sound
  blocks : ∀ b ∈ st.live, BlockRight st.heap b
  apart : st.live.Pairwise EmuBlock.Apart

theorem EmuBlock.Apart.symm {b c : EmuBlock w} (h : b.Apart c) : c.Apart b := Or.symm h

/-- Two live blocks are the same or apart. -/
theorem EmuInv.eq_or_apart {st : EmuState w} (h : EmuInv st) {b c : EmuBlock w} (hb : b ∈ st.live)
    (hc : c ∈ st.live) : b = c ∨ b.Apart c := by
  refine or_iff_not_imp_left.mpr fun hne => ?_
  have : Std.Symm (EmuBlock.Apart (w := w)) := ⟨fun _ _ => EmuBlock.Apart.symm⟩
  exact h.apart.forall hb hc hne

/-- A live block ends in front of the next place for a cell. -/
theorem BlockRight.end_le {heap : EmuHeap w} {b : EmuBlock w} (h : BlockRight heap b) :
    b.ptr.toNat + b.size ≤ heap.tail.toNat + heap.cell heap.tail.toNat := by
  rcases h.last with hlast | hlast
  · have hcell := h.cell
    rw [hlast, Nat.add_sub_cancel] at hcell
    omega
  · omega

theorem EmuHeap.Sound.tail_add {heap : EmuHeap w} (h : heap.Sound) :
    (heap.tail + 4).toNat = heap.tail.toNat + 4 := by
  have := h.tail_hi
  exact h.add_four (by omega)

theorem EmuHeap.Sound.top_zero {heap : EmuHeap w} (h : heap.Sound) :
    heap.top 0 = heap.tail.toNat + heap.cell heap.tail.toNat + 4 := by
  have hne : heap.tail + 4 ≠ 0 := by
    intro heq
    have := h.tail_add
    rw [heq] at this
    simp at this
  rw [EmuHeap.top, if_neg hne]

/-! ## Taking a block -/

def EmuHeap.start (heap : EmuHeap w) (align : Nat) : Nat := alignUp align (heap.top 0)

def EmuHeap.allocated (heap : EmuHeap w) (start : Nat) (size : BitVec w) : EmuHeap w :=
  { heap with tail := BitVec.ofNat w (start - 4) }.patched (start - 4)
    (writeDword ((size + 4).setWidth 32))

theorem EmuHeap.Sound.top_lt {heap : EmuHeap w} (h : heap.Sound) : heap.top 0 < 2 ^ w := by
  have hbelow := h.below
  have hchunk := h.chunk
  rw [h.top_zero]
  unfold limit emuHeapSize at *
  omega

theorem EmuHeap.Sound.le_start {heap : EmuHeap w} (h : heap.Sound) (k : Nat) :
    heap.tail.toNat + heap.cell heap.tail.toNat + 4 ≤ heap.start (2 ^ k) := by
  rw [← h.top_zero]
  exact le_alignUp (Nat.two_pow_pos k) _

/-- The address that `emu_alloc_mem` computes. -/
theorem EmuHeap.Sound.newPtr {heap : EmuHeap w} (h : heap.Sound) :
    heap.tail + (BitVec.ofNat 32 (heap.cell heap.tail.toNat)).setWidth w + 4
      = BitVec.ofNat w (heap.top 0) := by
  have hcell := heap.cell_lt heap.tail.toNat
  have hwide : 2 ^ 32 ≤ 2 ^ w := Nat.pow_le_pow_right (by decide) h.wide
  refine BitVec.eq_of_toNat_eq ?_
  rw [BitVec.toNat_add, BitVec.toNat_add, BitVec.toNat_setWidth, BitVec.toNat_ofNat,
    Nat.mod_eq_of_lt hcell, Nat.mod_eq_of_lt (Nat.lt_of_lt_of_le hcell hwide), h.four,
    Nat.mod_add_mod, BitVec.toNat_ofNat, h.top_zero]

/-- `emu_alloc_mem` up to the store of the new cell. -/
theorem emuAllocMem_eq {heap : EmuHeap w} (h : heap.Sound) {k : Nat} (hk : k < w)
    (size : BitVec w) :
    emuAllocMem heap size (BitVec.ofNat w (2 ^ k)) =
      let newPtr := BitVec.ofNat w (heap.start (2 ^ k))
      if heap.limit ≤ (newPtr + size).toNat then .error .exited
      else accessed ({ heap with tail := newPtr - 4 }.storeInt (newPtr - 4)
        ((size + 4).setWidth 32)) >>= fun heap => .ok (heap, newPtr) := by
  have htop : (BitVec.ofNat w (heap.top 0)).toNat = heap.top 0 := by
    rw [BitVec.toNat_ofNat, Nat.mod_eq_of_lt h.top_lt]
  have hmask := alignUp_mask hk (BitVec.ofNat w (heap.top 0))
  rw [htop] at hmask
  have hload := h.loadInt heap.tail h.tail_lo h.tail_hi
  unfold emuAllocMem
  rw [hload]
  show (if heap.base + BitVec.ofNat w emuHeapSize ≤ _ then _ else _) = _
  simp only [h.newPtr, hmask, BitVec.le_def, h.limit_toNat]
  rfl

/-- The new cell is stored inside of the heap. -/
theorem EmuHeap.Sound.store_start {heap : EmuHeap w} (h : heap.Sound) {k : Nat} (size : BitVec w)
    (hfit : heap.start (2 ^ k) ≤ heap.limit) :
    { heap with tail := BitVec.ofNat w (heap.start (2 ^ k)) - 4 }.storeInt
        (BitVec.ofNat w (heap.start (2 ^ k)) - 4) ((size + 4).setWidth 32)
      = some (heap.allocated (heap.start (2 ^ k)) size) := by
  have hlo := h.tail_lo
  have hstart := h.le_start k
  have hbelow := h.below
  have hptr : (BitVec.ofNat w (heap.start (2 ^ k)) - 4).toNat = heap.start (2 ^ k) - 4 := by
    have hlt : heap.start (2 ^ k) < 2 ^ w := by
      unfold EmuHeap.limit emuHeapSize at *
      omega
    have htoNat : (BitVec.ofNat w (heap.start (2 ^ k))).toNat = heap.start (2 ^ k) := by
      rw [BitVec.toNat_ofNat, Nat.mod_eq_of_lt hlt]
    rw [h.sub_four _ (by omega), htoNat]
  have hptr' : BitVec.ofNat w (heap.start (2 ^ k)) - 4
      = BitVec.ofNat w (heap.start (2 ^ k) - 4) := by
    rw [← hptr, BitVec.ofNat_toNat, BitVec.setWidth_eq]
  have hplaced : { heap with tail := BitVec.ofNat w (heap.start (2 ^ k)) - 4 }.Placed :=
    ⟨h.wide, h.below, h.size⟩
  rw [EmuHeap.storeInt, hplaced.storeBytes _ _ (by rw [hptr]; show heap.base.toNat ≤ _; omega)
    (by rw [hptr, writeDword_length]; show _ ≤ heap.limit; omega), hptr, hptr']
  rfl

/-- What is returned when the check passes. -/
theorem emuAllocMem_ok {heap : EmuHeap w} (h : heap.Sound) {k : Nat} (hk : k < w) {size : BitVec w}
    (hfits : ¬ heap.limit ≤ (BitVec.ofNat w (heap.start (2 ^ k)) + size).toNat)
    (hstart : heap.start (2 ^ k) ≤ heap.limit) :
    emuAllocMem heap size (BitVec.ofNat w (2 ^ k))
      = .ok (heap.allocated (heap.start (2 ^ k)) size, BitVec.ofNat w (heap.start (2 ^ k))) := by
  rw [emuAllocMem_eq h hk]
  refine (if_neg hfits).trans ?_
  rw [h.store_start size hstart]
  rfl

/-- **`emu_alloc_mem` in exact arithmetic**, when its check is right. -/
theorem emuAllocMem_spec {heap : EmuHeap w} (h : heap.Sound) {k n : Nat} (hk : k < w)
    {size : BitVec w} (hsize : n < emuHeapSize → size.toNat = n)
    (hcheck : LimitChecked heap 0 (2 ^ k) n size) :
    emuAllocMem heap size (BitVec.ofNat w (2 ^ k)) =
      if heap.limit ≤ heap.start (2 ^ k) + n then .error .exited
      else .ok (heap.allocated (heap.start (2 ^ k)) size, BitVec.ofNat w (heap.start (2 ^ k))) := by
  split
  · rename_i hover
    rw [emuAllocMem_eq h hk]
    exact if_pos (hcheck hover)
  · rename_i hfits
    have hlo := h.tail_lo
    have hstart := h.le_start k
    have hbelow := h.below
    unfold EmuHeap.limit at hfits
    have hn := hsize (by omega)
    have hsum : (BitVec.ofNat w (heap.start (2 ^ k)) + size).toNat = heap.start (2 ^ k) + n := by
      have htoNat : (BitVec.ofNat w (heap.start (2 ^ k))).toNat = heap.start (2 ^ k) := by
        rw [BitVec.toNat_ofNat, Nat.mod_eq_of_lt (by unfold emuHeapSize at *; omega)]
      rw [BitVec.toNat_add_of_lt (by rw [htoNat, hn]; unfold emuHeapSize at *; omega), htoNat, hn]
    refine emuAllocMem_ok h hk ?_ (by unfold EmuHeap.limit; omega)
    rw [hsum]
    exact hfits

theorem bind_eq_ok {α β : Type} {x : Except EmuStop α} {f : α → Except EmuStop β} {b : β}
    (h : x >>= f = .ok b) : ∃ a, x = .ok a ∧ f a = .ok b := by
  cases x with
  | error e => cases h
  | ok a => exact ⟨a, rfl, h⟩

/-- What is known of an allocation that returned. -/
theorem emuAllocMem_returned {heap heap' : EmuHeap w} (h : heap.Sound) {k : Nat} (hk : k < w)
    {size ptr : BitVec w} (hok : emuAllocMem heap size (BitVec.ofNat w (2 ^ k)) = .ok (heap', ptr)) :
    ptr = BitVec.ofNat w (heap.start (2 ^ k)) ∧
      ¬ heap.limit ≤ (BitVec.ofNat w (heap.start (2 ^ k)) + size).toNat ∧
        { heap with tail := ptr - 4 }.storeInt (ptr - 4) ((size + 4).setWidth 32) = some heap' := by
  rw [emuAllocMem_eq h hk] at hok
  by_cases hover : heap.limit ≤ (BitVec.ofNat w (heap.start (2 ^ k)) + size).toNat
  · have := (if_pos hover).symm.trans hok
    cases this
  · obtain ⟨stored, hstore, heq⟩ := bind_eq_ok ((if_neg hover).symm.trans hok)
    cases heq
    refine ⟨rfl, hover, ?_⟩
    cases hsome : { heap with tail := BitVec.ofNat w (heap.start (2 ^ k)) - 4 }.storeInt
        (BitVec.ofNat w (heap.start (2 ^ k)) - 4) ((size + 4).setWidth 32) with
    | none =>
      rw [hsome] at hstore
      cases hstore
    | some stored' =>
      rw [hsome] at hstore
      cases hstore
      rfl

/-- The null pointer is never returned; its cell would be at the end of the
address space. -/
theorem emuAllocMem_ne_zero {heap heap' : EmuHeap w} (h : heap.Sound) {k : Nat} (hk : k < w)
    {size ptr : BitVec w} (hok : emuAllocMem heap size (BitVec.ofNat w (2 ^ k)) = .ok (heap', ptr)) :
    ptr ≠ 0 := by
  intro hzero
  obtain ⟨-, -, hstore⟩ := emuAllocMem_returned h hk hok
  have hbelow := h.below
  have hsize := h.size
  have hlast : (ptr - 4).toNat = 2 ^ w - 4 := by
    have hlt : 2 ^ 32 ≤ 2 ^ w := Nat.pow_le_pow_right (by decide) h.wide
    rw [hzero, BitVec.toNat_sub, h.four]
    simp only [BitVec.ofNat_eq_ofNat, BitVec.toNat_ofNat, Nat.zero_mod, Nat.add_zero]
    exact Nat.mod_eq_of_lt (by omega)
  obtain ⟨b, bs, hdata⟩ : ∃ b bs, writeDword ((size + 4).setWidth 32) = b :: bs :=
    List.exists_cons_of_length_eq_add_one (writeDword_length _)
  rw [EmuHeap.storeInt, hdata, EmuHeap.storeBytes, if_neg (List.cons_ne_nil _ _),
    EmuHeap.offset_eq (by show heap.base.toNat ≤ _; rw [hlast]; unfold emuHeapSize at *; omega)]
    at hstore
  obtain ⟨pos, hpos, hstore⟩ := Option.bind_eq_some_iff.mp hstore
  obtain ⟨bytes, hcells, -⟩ := Option.bind_eq_some_iff.mp hstore
  have hlt : pos < heap.bytes.length := storeCells_lt hcells
  have hposEq : (ptr - 4).toNat - heap.base.toNat = pos := Option.some.inj hpos
  unfold emuHeapSize at *
  omega

/-- Without the condition a block is returned that is not in the heap, or
nothing is returned. -/
theorem emuAllocMem_unchecked {heap heap' : EmuHeap w} (h : heap.Sound) {k n : Nat} (hk : k < w)
    {size ptr : BitVec w} (hsize : n < emuHeapSize → size.toNat = n)
    (hcheck : ¬ LimitChecked heap 0 (2 ^ k) n size)
    (hok : emuAllocMem heap size (BitVec.ofNat w (2 ^ k)) = .ok (heap', ptr)) :
    ¬ (heap.base.toNat + 4 ≤ ptr.toNat ∧ ptr.toNat + n ≤ heap.limit) := by
  intro hinside
  have hlo := h.tail_lo
  have hstart := h.le_start k
  have hbelow := h.below
  rw [LimitChecked, Classical.not_imp] at hcheck
  obtain ⟨hover, hsum⟩ := hcheck
  obtain ⟨hptr, -, -⟩ := emuAllocMem_returned h hk hok
  -- rounding up ends at `2 ^ w` at the latest, and then the pointer is null
  have hle : heap.start (2 ^ k) ≤ 2 ^ w :=
    alignUp_le (Nat.two_pow_pos k) h.top_lt.le (Nat.pow_dvd_pow 2 hk.le)
  rcases Nat.lt_or_eq_of_le hle with hlt | heq
  · have htoNat : (BitVec.ofNat w (heap.start (2 ^ k))).toNat = heap.start (2 ^ k) := by
      rw [BitVec.toNat_ofNat, Nat.mod_eq_of_lt hlt]
    rw [hptr, htoNat] at hinside
    unfold EmuHeap.limit at *
    have hn := hsize (by omega)
    have hend : heap.start (2 ^ k) + n = heap.base.toNat + emuHeapSize := by
      have : heap.start (2 ^ k) = alignUp (2 ^ k) (heap.top 0) := rfl
      omega
    refine hsum ?_
    show _ ≤ (BitVec.ofNat w (heap.start (2 ^ k)) + size).toNat
    rw [BitVec.toNat_add_of_lt (by rw [htoNat, hn]; unfold emuHeapSize at *; omega), htoNat, hn]
    omega
  · rw [hptr, heq, BitVec.toNat_ofNat, Nat.mod_self] at hinside
    omega

/-- A new block is right, and so are the others. -/
theorem EmuInv.alloc {st : EmuState w} (h : EmuInv st) {k n align : Nat} {size : BitVec w}
    (hk : 3 ≤ k) (halign : align ∣ 2 ^ k) (hsize : size.toNat = n)
    (hfit : st.heap.start (2 ^ k) + n < st.heap.limit) :
    EmuInv
        { heap := st.heap.allocated (st.heap.start (2 ^ k)) size
          live := { ptr := BitVec.ofNat w (st.heap.start (2 ^ k)), size := n, align } :: st.live } ∧
      st.heap.SameBut (st.heap.allocated (st.heap.start (2 ^ k)) size)
        (st.heap.start (2 ^ k) - 4) 4 := by
  obtain ⟨start, hstartEq⟩ : ∃ start, st.heap.start (2 ^ k) = start := ⟨_, rfl⟩
  have hlo := h.sound.tail_lo
  have hstart := h.sound.le_start k
  have hdvd : 2 ^ k ∣ st.heap.start (2 ^ k) := alignUp_dvd _ _
  have hbelow := h.sound.below
  have hwide : 2 ^ 32 ≤ 2 ^ w := Nat.pow_le_pow_right (by decide) h.sound.wide
  rw [hstartEq] at hstart hdvd hfit ⊢
  have hmoved : { st.heap with tail := BitVec.ofNat w (start - 4) }.Placed :=
    ⟨h.sound.wide, h.sound.below, h.sound.size⟩
  have hlimit : st.heap.limit = st.heap.base.toNat + emuHeapSize := rfl
  have hptr : (BitVec.ofNat w start).toNat = start := by
    rw [BitVec.toNat_ofNat, Nat.mod_eq_of_lt (by unfold emuHeapSize at *; omega)]
  have htail : (BitVec.ofNat w (start - 4)).toNat = start - 4 := by
    rw [BitVec.toNat_ofNat, Nat.mod_eq_of_lt (by unfold emuHeapSize at *; omega)]
  have hvalue : ((size + 4).setWidth 32).toNat = n + 4 := by
    have hsmall : n + 4 < 2 ^ 32 := by unfold emuHeapSize at *; omega
    rw [BitVec.toNat_setWidth, BitVec.toNat_add, h.sound.four, hsize,
      Nat.mod_eq_of_lt (Nat.lt_of_lt_of_le hsmall hwide), Nat.mod_eq_of_lt hsmall]
  have hcell : (st.heap.allocated start size).cell (start - 4) = n + 4 := by
    rw [EmuHeap.allocated, hmoved.cell_self (by show st.heap.base.toNat ≤ _; omega)
      (by show _ ≤ st.heap.limit; omega), hvalue]
  have hsame : st.heap.SameBut (st.heap.allocated start size) (start - 4) 4 :=
    hmoved.sameBut_patched (writeDword ((size + 4).setWidth 32))
      (by show st.heap.base.toNat ≤ _; omega) (by show _ ≤ st.heap.limit; omega)
  have hends : ∀ b ∈ st.live, b.ptr.toNat + b.size ≤ start - 4 := by
    intro b hb
    have := (h.blocks b hb).end_le
    omega
  refine ⟨{ sound := ?_, blocks := ?_, apart := ?_ }, hsame⟩
  · exact
      { toPlaced := hmoved.patched (by show st.heap.base.toNat ≤ _; omega)
          (by rw [writeDword_length]; show _ ≤ st.heap.limit; omega)
        tail_lo := by
          show st.heap.base.toNat ≤ (BitVec.ofNat w (start - 4)).toNat
          rw [htail]
          omega
        tail_hi := by
          show (BitVec.ofNat w (start - 4)).toNat + 4 ≤ st.heap.limit
          rw [htail]
          omega
        chunk := by
          show (BitVec.ofNat w (start - 4)).toNat
            + (st.heap.allocated start size).cell (BitVec.ofNat w (start - 4)).toNat ≤ st.heap.limit
          rw [htail, hcell]
          omega }
  · intro b hb
    rcases List.mem_cons.mp hb with rfl | hb
    · exact
        { lo := by
            show st.heap.base.toNat + 4 ≤ (BitVec.ofNat w start).toNat
            rw [hptr]
            omega
          hi := by
            show (BitVec.ofNat w start).toNat + n < st.heap.limit
            rw [hptr]
            exact hfit
          cell := by
            rw [show (BitVec.ofNat w start).toNat - 4 = start - 4 by rw [hptr]]
            exact hcell
          aligned := by
            rw [hptr]
            exact ⟨(Nat.pow_dvd_pow 2 hk).trans hdvd, halign.trans hdvd⟩
          last := by
            left
            show (BitVec.ofNat w start).toNat = (BitVec.ofNat w (start - 4)).toNat + 4
            rw [hptr, htail]
            omega }
    · have hright := h.blocks b hb
      have hblo := hright.lo
      have hbend := hends b hb
      exact
        { lo := hright.lo
          hi := hright.hi
          cell := by
            rw [← hright.cell]
            exact hsame.cell (by omega) (.inl (by omega))
          aligned := hright.aligned
          last := by
            right
            show _ ≤ (BitVec.ofNat w (start - 4)).toNat
            rw [htail]
            exact hbend }
  · refine h.apart.cons fun b hb => .inr ?_
    have := hends b hb
    rw [hptr]
    omega

/-! ## Giving a block back, and stores to a block -/

@[simp] theorem mem_dropBlock {live : List (EmuBlock w)} {ptr : BitVec w} {b : EmuBlock w} :
    b ∈ dropBlock live ptr ↔ b ∈ live ∧ b.ptr ≠ ptr := by
  simp [dropBlock]

/-- Without one of the blocks the others are right. -/
theorem EmuInv.drop {st : EmuState w} (h : EmuInv st) (ptr : BitVec w) :
    EmuInv { st with live := dropBlock st.live ptr } where
  sound := h.sound
  blocks := fun b hb => h.blocks b (mem_dropBlock.mp hb).1
  apart := h.apart.sublist List.filter_sublist

/-- The last block is given back: its cell is cleared. -/
theorem EmuInv.freeLast {st : EmuState w} (h : EmuInv st) :
    EmuInv
      { heap := st.heap.patched st.heap.tail.toNat (writeDword 0)
        live := dropBlock st.live (st.heap.tail + 4) } where
  sound :=
    { toPlaced := h.sound.patched h.sound.tail_lo (by
        rw [writeDword_length]
        exact h.sound.tail_hi)
      tail_lo := h.sound.tail_lo
      tail_hi := h.sound.tail_hi
      chunk := by
        have hhi := h.sound.tail_hi
        show st.heap.tail.toNat + EmuHeap.cell _ st.heap.tail.toNat ≤ st.heap.limit
        rw [h.sound.cell_self h.sound.tail_lo (by omega)]
        show st.heap.tail.toNat + 0 ≤ _
        omega }
  blocks := by
    intro b hb
    obtain ⟨hb, hne⟩ := mem_dropBlock.mp hb
    have hright := h.blocks b hb
    have hlo := hright.lo
    have hhi := h.sound.tail_hi
    have hfront : b.ptr.toNat + b.size ≤ st.heap.tail.toNat := by
      refine hright.last.resolve_left fun hlast => hne (BitVec.eq_of_toNat_eq ?_)
      rw [hlast, h.sound.tail_add]
    have hsame : st.heap.SameBut (st.heap.patched st.heap.tail.toNat (writeDword 0)) _ _ :=
      h.sound.sameBut_patched _ h.sound.tail_lo (by omega)
    exact
      { hright with
        cell := by
          rw [← hright.cell]
          exact hsame.cell (by omega) (.inl (by omega)) }
  apart := h.apart.sublist List.filter_sublist

/-- **Giving a block back**, or nothing. -/
theorem EmuInv.free {st : EmuState w} (h : EmuInv st) (ptr : BitVec w) :
    ∃ heap, emuFree st.heap ptr = .ok heap ∧ EmuInv { heap, live := dropBlock st.live ptr } ∧
      heap.base = st.heap.base ∧ heap.tail = st.heap.tail ∧ heap.top 0 = st.heap.top ptr ∧
      ∀ b ∈ st.live, heap.contents b = st.heap.contents b := by
  by_cases hlast : st.heap.tail + 4 = ptr
  · have hlo := h.sound.tail_lo
    have hhi := h.sound.tail_hi
    have hinv := h.freeLast
    refine ⟨st.heap.patched st.heap.tail.toNat (writeDword 0), ?_, ?_, rfl, rfl, ?_, ?_⟩
    · rw [emuFree, if_pos hlast, EmuHeap.storeInt,
        h.sound.storeBytes _ _ hlo (by rw [writeDword_length]; exact hhi)]
      rfl
    · rw [← hlast]
      exact hinv
    · rw [hinv.sound.top_zero, EmuHeap.top, if_pos hlast]
      show st.heap.tail.toNat + EmuHeap.cell _ st.heap.tail.toNat + 4 = _
      rw [h.sound.cell_self hlo (by omega)]
      rfl
    · intro b hb
      have hright := h.blocks b hb
      have hblo := hright.lo
      refine (h.sound.sameBut_patched (writeDword 0) hlo (by omega)).contents (by omega) ?_
      rw [writeDword_length]
      rcases hright.last with hlast | hfront
      · exact .inr hlast.ge
      · exact .inl hfront
  · refine ⟨st.heap, if_neg hlast, h.drop ptr, rfl, rfl, ?_, fun _ _ => rfl⟩
    rw [h.sound.top_zero, EmuHeap.top, if_neg hlast]

/-- **A store to a block.** -/
theorem EmuInv.write {st : EmuState w} (h : EmuInv st) {b : EmuBlock w} (hb : b ∈ st.live)
    (pos : Nat) (data : List UInt8) (hfit : pos + data.length ≤ b.size) :
    EmuInv { st with heap := st.heap.patched (b.ptr.toNat + pos) data } ∧
      ∀ c ∈ st.live, c ≠ b →
        (st.heap.patched (b.ptr.toNat + pos) data).contents c = st.heap.contents c := by
  have hright := h.blocks b hb
  have hlo := hright.lo
  have hhi := hright.hi
  have htailLo := h.sound.tail_lo
  have hsame : st.heap.SameBut (st.heap.patched (b.ptr.toNat + pos) data) _ _ :=
    h.sound.sameBut_patched _ (by omega) (by omega)
  refine ⟨{ sound := ?_, blocks := ?_, apart := h.apart }, ?_⟩
  · have hcell : (st.heap.patched (b.ptr.toNat + pos) data).cell st.heap.tail.toNat
        = st.heap.cell st.heap.tail.toNat := by
      refine hsame.cell htailLo ?_
      rcases hright.last with hlast | hfront
      · left
        omega
      · right
        omega
    exact
      { toPlaced := h.sound.patched (by omega) (by omega)
        tail_lo := htailLo
        tail_hi := h.sound.tail_hi
        chunk := by
          show st.heap.tail.toNat + EmuHeap.cell _ st.heap.tail.toNat ≤ st.heap.limit
          rw [hcell]
          exact h.sound.chunk }
  · intro c hc
    have hcright := h.blocks c hc
    have hclo := hcright.lo
    have hcell : (st.heap.patched (b.ptr.toNat + pos) data).cell (c.ptr.toNat - 4)
        = st.heap.cell (c.ptr.toNat - 4) := by
      refine hsame.cell (by omega) ?_
      rcases h.eq_or_apart hb hc with heq | happart
      · left
        rw [← heq]
        omega
      · unfold EmuBlock.Apart at happart
        omega
    exact { hcright with cell := hcell.trans hcright.cell }
  · intro c hc hne
    have hclo := (h.blocks c hc).lo
    refine hsame.contents (by omega) ?_
    have happart := (h.eq_or_apart hb hc).resolve_left (Ne.symm hne)
    unfold EmuBlock.Apart at happart
    omega

/-! ## The calls -/

/-- **Taking a block**: the process ends, or there is a new block. -/
theorem EmuInv.take {st : EmuState w} (h : EmuInv st) (align : Nat) {k n : Nat} {size : BitVec w}
    (hk : 3 ≤ k) (hkw : k < w) (halign : align ∣ 2 ^ k) (hsize : n < emuHeapSize → size.toNat = n)
    (hcheck : LimitChecked st.heap 0 (2 ^ k) n size) :
    emuAllocMem st.heap size (BitVec.ofNat w (2 ^ k)) = .error .exited ∨
      ∃ heap ptr, emuAllocMem st.heap size (BitVec.ofNat w (2 ^ k)) = .ok (heap, ptr) ∧
        EmuInv { heap, live := { ptr, size := n, align } :: st.live } ∧
        st.heap.SameBut heap (ptr.toNat - 4) 4 ∧ ptr.toNat = st.heap.start (2 ^ k) := by
  have hspec := emuAllocMem_spec h.sound hkw hsize hcheck
  by_cases hover : st.heap.limit ≤ st.heap.start (2 ^ k) + n
  · left
    rw [hspec, if_pos hover]
  · right
    rw [if_neg hover] at hspec
    have hlo := h.sound.tail_lo
    have hstart := h.sound.le_start k
    have hbelow := h.sound.below
    have hlimit : st.heap.limit = st.heap.base.toNat + emuHeapSize := rfl
    have hptr : (BitVec.ofNat w (st.heap.start (2 ^ k))).toNat = st.heap.start (2 ^ k) := by
      rw [BitVec.toNat_ofNat, Nat.mod_eq_of_lt (by unfold emuHeapSize at *; omega)]
    obtain ⟨hinv, hsame⟩ := h.alloc hk halign (hsize (by omega)) (by omega)
    refine ⟨_, _, hspec, hinv, ?_, hptr⟩
    rw [hptr]
    exact hsame

/-- The other blocks stay when a block is taken. -/
theorem EmuInv.take_contents {st : EmuState w} (h : EmuInv st) {k : Nat} {heap : EmuHeap w}
    {ptr : BitVec w} (hsame : st.heap.SameBut heap (ptr.toNat - 4) 4)
    (hptr : ptr.toNat = st.heap.start (2 ^ k)) :
    ∀ b ∈ st.live, heap.contents b = st.heap.contents b := by
  intro b hb
  have hright := h.blocks b hb
  have hlo := hright.lo
  have hend := hright.end_le
  have hstart := h.sound.le_start k
  exact hsame.contents (by omega) (.inl (by omega))

/-- A new block is none of those that were live. -/
theorem EmuInv.take_ne {st : EmuState w} (h : EmuInv st) {k : Nat} {b new : EmuBlock w}
    (hb : b ∈ st.live) (hptr : new.ptr.toNat = st.heap.start (2 ^ k)) : b ≠ new := by
  intro heq
  have hend := (h.blocks b hb).end_le
  have hstart := h.sound.le_start k
  rw [heq, hptr] at hend
  omega

def EmuCall.Right (call : EmuCall w) (st : EmuState w) : Prop :=
  emuStep st call = .error .exited ∨
    ∃ st', emuStep st call = .ok st' ∧ EmuInv st' ∧ call.Effect st st'

theorem emuStep_malloc {st : EmuState w} (h : EmuInv st) {size : BitVec w}
    (hcheck : (EmuCall.malloc size).Checked st) : (EmuCall.malloc size).Right st := by
  have hw : 3 < w := Nat.lt_of_lt_of_le (by decide) h.sound.wide
  rcases h.take emuHeapAlign (le_refl 3) hw (dvd_refl _) (fun _ => rfl) hcheck
    with hexit | ⟨heap, ptr, hok, hinv, hsame, hptr⟩
  · left
    show emuAllocMem _ _ _ >>= _ = _
    rw [show BitVec.ofNat w emuHeapAlign = BitVec.ofNat w (2 ^ 3) from rfl, hexit]
    rfl
  · right
    refine ⟨_, ?_, hinv, ?_⟩
    · show emuAllocMem _ _ _ >>= _ = _
      rw [show BitVec.ofNat w emuHeapAlign = BitVec.ofNat w (2 ^ 3) from rfl, hok]
      rfl
    · exact
        { others := fun b hb _ =>
            ⟨List.mem_cons_of_mem _ hb, h.take_contents hsame hptr b hb⟩
          zeroed := by
            intro _ _ hcall
            cases hcall
          preserved := by
            intro _ _ hcall
            cases hcall }

/-- A product that fits an `int` is the size that was asked for. -/
theorem callocSize_of_lt (hw : 32 ≤ w) {nmemb size : BitVec w}
    (hlt : nmemb.toNat * size.toNat < emuHeapSize) :
    (callocSize nmemb size).toInt.toNat = nmemb.toNat * size.toNat ∧
      ((callocSize nmemb size).signExtend w).toNat = nmemb.toNat * size.toNat := by
  have hwide : 2 ^ 32 ≤ 2 ^ w := Nat.pow_le_pow_right (by decide) hw
  obtain ⟨n, hn⟩ : ∃ n, nmemb.toNat * size.toNat = n := ⟨_, rfl⟩
  rw [hn] at hlt ⊢
  have htoNat : (callocSize nmemb size).toNat = n := by
    have hsmall : n < 2 ^ 32 := by
      unfold emuHeapSize at hlt
      omega
    rw [callocSize, BitVec.toNat_setWidth, BitVec.toNat_mul, hn,
      Nat.mod_eq_of_lt (Nat.lt_of_lt_of_le hsmall hwide), Nat.mod_eq_of_lt hsmall]
  have hmsb : (callocSize nmemb size).msb = false := by
    rw [BitVec.msb_eq_decide, htoNat]
    unfold emuHeapSize at hlt
    exact decide_eq_false (by omega)
  constructor
  · rw [BitVec.toInt_eq_toNat_of_msb hmsb, htoNat, Int.toNat_natCast]
  · rw [BitVec.signExtend_eq_setWidth_of_msb_false hmsb, BitVec.toNat_setWidth, htoNat,
      Nat.mod_eq_of_lt (by unfold emuHeapSize at hlt; omega)]

theorem emuStep_calloc {st : EmuState w} (h : EmuInv st) {nmemb size : BitVec w}
    (hcheck : (EmuCall.calloc nmemb size).Checked st) :
    (EmuCall.calloc nmemb size).Right st := by
  have hw : 3 < w := Nat.lt_of_lt_of_le (by decide) h.sound.wide
  rcases h.take emuHeapAlign (le_refl 3) hw (dvd_refl _)
    (fun hlt => (callocSize_of_lt h.sound.wide hlt).2) hcheck
    with hexit | ⟨heap, ptr, hok, hinv, hsame, hptr⟩
  · left
    show (emuAllocMem _ _ _ >>= _) >>= _ = _
    rw [show BitVec.ofNat w emuHeapAlign = BitVec.ofNat w (2 ^ 3) from rfl, hexit]
    rfl
  · right
    obtain ⟨n, hn⟩ : ∃ n, nmemb.toNat * size.toNat = n := ⟨_, rfl⟩
    rw [hn] at hinv
    have hsound : heap.Sound := hinv.sound
    have hnew := hinv.blocks _ List.mem_cons_self
    have hlo : heap.base.toNat + 4 ≤ ptr.toNat := hnew.lo
    have hhi : ptr.toNat + n < heap.limit := hnew.hi
    have hlt : n < emuHeapSize := by
      unfold EmuHeap.limit at hhi
      omega
    have hsize := (callocSize_of_lt h.sound.wide (by rw [hn]; exact hlt)).1
    rw [hn] at hsize
    have hzeroes : (List.replicate n (0 : UInt8)).length = n := List.length_replicate
    have hstore : heap.storeBytes ptr (List.replicate (callocSize nmemb size).toInt.toNat 0)
        = some (heap.patched ptr.toNat (List.replicate n 0)) := by
      rw [hsize]
      refine hsound.storeBytes _ _ (by omega) ?_
      rw [hzeroes]
      exact hhi.le
    obtain ⟨hwritten, hkept⟩ := hinv.write List.mem_cons_self 0
      (List.replicate n 0) (by rw [hzeroes, Nat.zero_add])
    refine ⟨_, ?_, hwritten, ?_⟩
    · show (emuAllocMem _ _ _ >>= _) >>= _ = _
      rw [show BitVec.ofNat w emuHeapAlign = BitVec.ofNat w (2 ^ 3) from rfl, hok]
      show (accessed (heap.storeBytes ptr _) >>= _) >>= _ = _
      rw [hstore, ← hn]
      rfl
    · exact
        { others := by
            intro b hb _
            refine ⟨List.mem_cons_of_mem _ hb, ?_⟩
            exact (hkept b (List.mem_cons_of_mem _ hb) (h.take_ne hb hptr)).trans
              (h.take_contents hsame hptr b hb)
          zeroed := by
            intro nmemb' size' hcall
            cases hcall
            refine ⟨_, _, rfl, ?_⟩
            have hpos : ptr.toNat - heap.base.toNat ≤ heap.bytes.length := by
              rw [hsound.size]
              unfold EmuHeap.limit at hhi
              omega
            have hslice := slice_patch (List.replicate n (0 : UInt8)) hpos
            rw [hzeroes] at hslice
            rw [hn]
            exact hslice
          preserved := by
            intro _ _ hcall
            cases hcall }

theorem emuStep_free {st : EmuState w} (h : EmuInv st) (ptr : BitVec w) :
    (EmuCall.free ptr).Right st := by
  obtain ⟨heap, hok, hinv, -, -, -, hsame⟩ := h.free ptr
  right
  refine ⟨_, ?_, hinv, ?_⟩
  · show emuFree _ _ >>= _ = _
    rw [hok]
    rfl
  · exact
      { others := fun b hb hne =>
          ⟨mem_dropBlock.mpr ⟨hb, fun heq => hne (congrArg some heq.symm)⟩, hsame b hb⟩
        zeroed := by
          intro _ _ hcall
          cases hcall
        preserved := by
          intro _ _ hcall
          cases hcall }

theorem emuStep_write {st : EmuState w} (h : EmuInv st) {b : EmuBlock w} {pos : Nat}
    {data : List UInt8} (hvalid : (EmuCall.write b pos data).Valid st) :
    (EmuCall.write b pos data).Right st := by
  obtain ⟨hb, hfit⟩ := hvalid
  have hright := h.blocks b hb
  have hlo := hright.lo
  have hhi := hright.hi
  have hbelow := h.sound.below
  have hlimit : st.heap.limit = st.heap.base.toNat + emuHeapSize := rfl
  have hpos : (BitVec.ofNat w pos).toNat = pos := by
    rw [BitVec.toNat_ofNat, Nat.mod_eq_of_lt (by omega)]
  have hptr : (b.ptr + BitVec.ofNat w pos).toNat = b.ptr.toNat + pos := by
    rw [BitVec.toNat_add_of_lt (by rw [hpos]; omega), hpos]
  have hstore := h.sound.storeBytes (b.ptr + BitVec.ofNat w pos) data (by rw [hptr]; omega) (by rw [hptr]; omega)
  rw [hptr] at hstore
  obtain ⟨hinv, hsame⟩ := h.write hb pos data hfit
  right
  refine ⟨_, ?_, hinv, ?_⟩
  · show accessed _ >>= _ = _
    rw [hstore]
    rfl
  · exact
      { others := fun c hc hne => ⟨hc, hsame c hc fun heq => hne (heq ▸ rfl)⟩
        zeroed := by
          intro _ _ hcall
          cases hcall
        preserved := by
          intro _ _ hcall
          cases hcall }

/-- The alignments that are taken are powers of two. -/
theorem alignment_pow {alignment : BitVec w} (h : ¬ alignmentRefused alignment) :
    ∃ k < w, alignment.toNat = 2 ^ k := by
  simp only [alignmentRefused, not_or, not_not] at h
  obtain ⟨-, hmask, hne⟩ := h
  have hpos : alignment.toNat ≠ 0 := fun hzero => hne (BitVec.eq_of_toNat_eq (by simpa using hzero))
  have hone : (1 : BitVec w).toNat = 1 :=
    (BitVec.toNat_ofNat 1 w).trans (Nat.mod_eq_of_lt (by have := alignment.isLt; omega))
  have hand : alignment.toNat &&& (alignment.toNat - 1) = 0 := by
    have htoNat := congrArg BitVec.toNat hmask
    rw [BitVec.toNat_and, BitVec.toNat_sub_of_le (by rw [BitVec.le_def, hone]; omega), hone,
      Nat.and_comm] at htoNat
    simpa using htoNat
  obtain ⟨k, hk⟩ := Nat.ne_zero_and_sub_one_eq_zero_iff_isPowerOfTwo.mp ⟨hpos, hand⟩
  refine ⟨k, ?_, hk⟩
  have hlt := alignment.isLt
  rw [hk] at hlt
  exact (Nat.pow_lt_pow_iff_right (by decide)).mp hlt

/-- The alignment that `emu_posix_memalign` hands on. -/
theorem alignment_used (hw : 3 < w) {alignment : BitVec w} (h : ¬ alignmentRefused alignment) :
    ∃ k < w, 3 ≤ k ∧ alignment.toNat ∣ 2 ^ k ∧ max alignment.toNat emuHeapAlign = 2 ^ k ∧
      (if alignment < BitVec.ofNat w emuHeapAlign then BitVec.ofNat w emuHeapAlign else alignment)
        = BitVec.ofNat w (2 ^ k) := by
  obtain ⟨k, hkw, hk⟩ := alignment_pow h
  have hwide : 2 ^ 3 < 2 ^ w := Nat.pow_lt_pow_right (by decide) hw
  have height : (BitVec.ofNat w emuHeapAlign).toNat = emuHeapAlign := by
    rw [BitVec.toNat_ofNat]
    exact Nat.mod_eq_of_lt hwide
  have hmax : max alignment.toNat emuHeapAlign = 2 ^ max k 3 := by
    rw [hk, show emuHeapAlign = 2 ^ 3 from rfl]
    rcases Nat.le_total k 3 with hle | hle
    · rw [max_eq_right hle, max_eq_right (Nat.pow_le_pow_right (by decide) hle)]
    · rw [max_eq_left hle, max_eq_left (Nat.pow_le_pow_right (by decide) hle)]
  refine ⟨max k 3, by omega, Nat.le_max_right k 3, ?_, hmax, ?_⟩
  · rw [hk]
    exact Nat.pow_dvd_pow 2 (Nat.le_max_left k 3)
  · have hcmp : alignment < BitVec.ofNat w emuHeapAlign ↔ alignment.toNat < emuHeapAlign := by
      rw [BitVec.lt_def, height]
    rw [← hmax]
    split
    · rename_i hlt
      rw [max_eq_right (hcmp.mp hlt).le]
    · rename_i hge
      rw [max_eq_left (Nat.le_of_not_lt fun hlt => hge (hcmp.mpr hlt)), BitVec.ofNat_toNat,
        BitVec.setWidth_eq]

theorem emuStep_posixMemalign {st : EmuState w} (h : EmuInv st) {alignment size : BitVec w}
    (hcheck : (EmuCall.posixMemalign alignment size).Checked st) :
    (EmuCall.posixMemalign alignment size).Right st := by
  by_cases hrefused : alignmentRefused alignment
  · right
    refine ⟨st, ?_, h, ?_⟩
    · show emuPosixMemalign _ _ _ >>= _ = _
      rw [emuPosixMemalign, if_pos hrefused]
      rfl
    · exact
        { others := fun _ hb _ => ⟨hb, rfl⟩
          zeroed := by
            intro _ _ hcall
            cases hcall
          preserved := by
            intro _ _ hcall
            cases hcall }
  · have hw : 3 < w := Nat.lt_of_lt_of_le (by decide) h.sound.wide
    obtain ⟨k, hkw, hk, halign, hmax, hused⟩ := alignment_used hw hrefused
    have hchecked := hcheck hrefused
    rw [hmax] at hchecked
    rcases h.take alignment.toNat hk hkw halign (fun _ => rfl) hchecked
      with hexit | ⟨heap, ptr, hok, hinv, hsame, hptr⟩
    · left
      show emuPosixMemalign _ _ _ >>= _ = _
      rw [emuPosixMemalign, if_neg hrefused, hused]
      show (emuAllocMem _ _ _ >>= _) >>= _ = _
      rw [hexit]
      rfl
    · right
      have hne : ptr ≠ 0 := by
        intro hzero
        have hlo : heap.base.toNat + 4 ≤ ptr.toNat := (hinv.blocks _ List.mem_cons_self).lo
        rw [hzero] at hlo
        simp at hlo
      refine ⟨_, ?_, hinv, ?_⟩
      · show emuPosixMemalign _ _ _ >>= _ = _
        rw [emuPosixMemalign, if_neg hrefused, hused]
        show (emuAllocMem _ _ _ >>= _) >>= _ = _
        rw [hok]
        show Except.ok _ >>= _ = _
        rw [if_pos hne]
        rfl
      · exact
          { others := fun b hb _ =>
              ⟨List.mem_cons_of_mem _ hb, h.take_contents hsame hptr b hb⟩
            zeroed := by
              intro _ _ hcall
              cases hcall
            preserved := by
              intro _ _ hcall
              cases hcall }

/-- What `emu_realloc` reads in front of the old block. -/
theorem EmuInv.load_released {st : EmuState w} (h : EmuInv st) {ptr : BitVec w}
    (hptr : ptr = 0 ∨ ∃ b ∈ st.live, b.ptr = ptr) :
    ∃ chunkSize : BitVec 32,
      releasedSize st.heap ptr = .ok chunkSize ∧
        (chunkSize ≠ 0 → ∃ b ∈ st.live, b.ptr = ptr) ∧
          ∀ b ∈ st.live, b.ptr = ptr → chunkSize.toNat = b.size + 4 := by
  by_cases hzero : ptr = 0
  · refine ⟨0, if_neg (not_not.mpr hzero), fun hne => absurd rfl hne, fun b hb heq => ?_⟩
    have hlo := (h.blocks b hb).lo
    rw [heq, hzero] at hlo
    simp at hlo
  · obtain ⟨b, hb, heq⟩ := hptr.resolve_left hzero
    have hright := h.blocks b hb
    have hlo := hright.lo
    have hhi := hright.hi
    have hcell := hright.cell
    rw [heq] at hlo hhi hcell
    have hsub := h.sound.sub_four ptr (by omega)
    have hload := h.sound.loadInt (ptr - 4) (by rw [hsub]; omega) (by rw [hsub]; omega)
    refine ⟨BitVec.ofNat 32 (st.heap.cell (ptr - 4).toNat), ?_, fun _ => ⟨b, hb, heq⟩, ?_⟩
    · rw [releasedSize, if_pos hzero, hload]
      rfl
    · intro c hc hceq
      have hccell := (h.blocks c hc).cell
      rw [BitVec.toNat_ofNat, Nat.mod_eq_of_lt (EmuHeap.cell_lt _ _), hsub, ← hccell, hceq]

/-- Copying to a new block from memory in front of it. -/
theorem EmuHeap.Sound.copyBytes {heap : EmuHeap w} (h : heap.Sound) (dst src : BitVec w) (n : Nat)
    (hsrc : n ≠ 0 → heap.base.toNat ≤ src.toNat ∧ src.toNat + n ≤ dst.toNat)
    (hlo : heap.base.toNat ≤ dst.toNat) (hhi : dst.toNat + n ≤ heap.limit) :
    heap.copyBytes dst src n
      = some (heap.patched dst.toNat (slice heap.bytes (src.toNat - heap.base.toNat) n)) := by
  unfold EmuHeap.copyBytes
  split
  · rename_i hzero
    rw [hzero, slice, List.take_zero, EmuHeap.patched, patch_nil]
  · rename_i hne
    obtain ⟨hsrcLo, hfront⟩ := hsrc hne
    have hsize := h.size
    unfold EmuHeap.limit at hhi
    have hcopy : copyCells heap.bytes (dst.toNat - heap.base.toNat)
        (src.toNat - heap.base.toNat) n = some _ :=
      copyCells_patch (.inr (by omega)) (by omega) (by omega)
    rw [EmuHeap.offset_eq hlo, EmuHeap.offset_eq hsrcLo]
    simp only [Option.bind_eq_bind, Option.bind_some, hcopy]
    rfl

theorem EmuHeap.contents_take (heap : EmuHeap w) {b : EmuBlock w} {m : Nat} (h : m ≤ b.size) :
    (heap.contents b).take m = slice heap.bytes (b.ptr.toNat - heap.base.toNat) m := slice_take h

/-- The number of bytes that `emu_realloc` copies. -/
theorem copy_count (hw : 32 ≤ w) {ptr size : BitVec w} (chunkSize : BitVec 32)
    (hfit : ptr.toNat + size.toNat < 2 ^ w) :
    (ptr + if chunkSize.setWidth w < size then chunkSize.setWidth w else size).toNat - ptr.toNat
      = min chunkSize.toNat size.toNat := by
  have hwide : 2 ^ 32 ≤ 2 ^ w := Nat.pow_le_pow_right (by decide) hw
  have hchunk : (chunkSize.setWidth w).toNat = chunkSize.toNat := by
    rw [BitVec.toNat_setWidth, Nat.mod_eq_of_lt (Nat.lt_of_lt_of_le chunkSize.isLt hwide)]
  split
  · rename_i hlt
    rw [BitVec.lt_def, hchunk] at hlt
    rw [BitVec.toNat_add_of_lt (by rw [hchunk]; omega), hchunk]
    omega
  · rename_i hge
    rw [BitVec.lt_def, hchunk] at hge
    rw [BitVec.toNat_add_of_lt hfit]
    omega

/-- A last block that was given back is taken again, so a block that moved
was not the last. -/
theorem EmuInv.moved_front {st : EmuState w} (h : EmuInv st) {old : EmuBlock w} {freed : EmuHeap w}
    (hold : old ∈ st.live) (htop : freed.top 0 = st.heap.top old.ptr)
    (hmoved : freed.start (2 ^ 3) ≠ old.ptr.toNat) :
    old.ptr.toNat + old.size ≤ st.heap.tail.toNat := by
  have hright := h.blocks old hold
  refine hright.last.resolve_left fun hlast => hmoved ?_
  have htail : st.heap.tail + 4 = old.ptr :=
    BitVec.eq_of_toNat_eq (by rw [h.sound.tail_add, hlast])
  have htopPtr : freed.top 0 = old.ptr.toNat := by
    rw [htop, EmuHeap.top, if_pos htail, hlast]
  rw [EmuHeap.start, htopPtr]
  exact alignUp_of_dvd (Nat.two_pow_pos 3) hright.aligned.1

/-- `emu_realloc` behind the release and the allocation. -/
theorem emuRealloc_eq {heap freed taken : EmuHeap w} {ptr ptrNew size : BitVec w}
    {chunkSize : BitVec 32} (hchunk : releasedSize heap ptr = .ok chunkSize)
    (hfree : emuFree heap ptr = .ok freed)
    (hok : emuAllocMem freed size (BitVec.ofNat w (2 ^ 3)) = .ok (taken, ptrNew)) :
    emuRealloc heap ptr size =
      if ptrNew ≠ 0 ∧ ptrNew ≠ ptr then
        accessed (taken.copyBytes ptrNew ptr
          ((ptrNew + if chunkSize.setWidth w < size then chunkSize.setWidth w else size).toNat
            - ptrNew.toNat)) >>= fun heap => .ok (heap, ptrNew)
      else .ok (taken, ptrNew) := by
  rw [emuRealloc, hchunk]
  show (emuFree _ _ >>= _) = _
  rw [hfree]
  show (emuAllocMem _ _ _ >>= _) = _
  rw [show BitVec.ofNat w emuHeapAlign = BitVec.ofNat w (2 ^ 3) from rfl, hok]
  rfl

/-- The front part of what was stored. -/
theorem EmuHeap.Placed.take_patched {heap : EmuHeap w} (h : heap.Placed) {addr m : Nat}
    {data : List UInt8} (hhi : addr ≤ heap.limit) (hm : m ≤ data.length) :
    slice (heap.patched addr data).bytes (addr - heap.base.toNat) m = data.take m := by
  have hpos : addr - heap.base.toNat ≤ heap.bytes.length := by
    rw [h.size]
    unfold EmuHeap.limit at hhi
    omega
  have hslice := slice_patch data hpos
  have htake := congrArg (List.take m) hslice
  rwa [slice_take hm] at htake

/-- **`emu_realloc`**: the process ends, or there is a new block with the
bytes of the old one. -/
theorem emuRealloc_spec {st : EmuState w} (h : EmuInv st) {ptr size : BitVec w}
    (hvalid : ptr = 0 ∨ ∃ b ∈ st.live, b.ptr = ptr)
    (hcheck : LimitChecked st.heap ptr emuHeapAlign size.toNat size) :
    emuRealloc st.heap ptr size = .error .exited ∨
      ∃ heap new, emuRealloc st.heap ptr size = .ok (heap, new.ptr) ∧ new.size = size.toNat ∧
        new.align = emuHeapAlign ∧ EmuInv { heap, live := new :: dropBlock st.live ptr } ∧
        (∀ b ∈ dropBlock st.live ptr, heap.contents b = st.heap.contents b) ∧
        ∀ old ∈ st.live, old.ptr = ptr → ∀ m ≤ min old.size size.toNat,
          (heap.contents new).take m = (st.heap.contents old).take m := by
  have hw : 3 < w := Nat.lt_of_lt_of_le (by decide) h.sound.wide
  obtain ⟨chunkSize, hchunk, hreleased, hchunkSize⟩ := h.load_released hvalid
  obtain ⟨freed, hfree, hinvFreed, hbase, htail, htop, hsameFreed⟩ := h.free ptr
  have hcheckFreed : LimitChecked freed 0 (2 ^ 3) size.toNat size := by
    unfold LimitChecked EmuHeap.limit at hcheck ⊢
    rw [htop, hbase]
    exact hcheck
  rcases hinvFreed.take emuHeapAlign (le_refl 3) hw (dvd_refl _) (fun _ => rfl)
    hcheckFreed with hexit | ⟨heap, ptrNew, hok, hinv, hsame, hptrNew⟩
  · left
    rw [emuRealloc, hchunk]
    show (emuFree _ _ >>= _) = _
    rw [hfree]
    show (emuAllocMem _ _ _ >>= _) = _
    rw [show BitVec.ofNat w emuHeapAlign = BitVec.ofNat w (2 ^ 3) from rfl, hexit]
    rfl
  right
  obtain ⟨new, hnew⟩ : ∃ new : EmuBlock w,
    ({ ptr := ptrNew, size := size.toNat, align := emuHeapAlign } : EmuBlock w) = new := ⟨_, rfl⟩
  have hnewPtr : new.ptr = ptrNew := by rw [← hnew]
  have hnewSize : new.size = size.toNat := by rw [← hnew]
  have hnewAlign : new.align = emuHeapAlign := by rw [← hnew]
  rw [hnew] at hinv
  have hsound : heap.Sound := hinv.sound
  have hbelow := hsound.below
  have hlimit : heap.limit = heap.base.toNat + emuHeapSize := rfl
  have hbaseNew : heap.base.toNat = st.heap.base.toNat :=
    congrArg BitVec.toNat (hsame.1.trans hbase)
  have hlo : heap.base.toNat + 4 ≤ ptrNew.toNat := hnewPtr ▸ (hinv.blocks _ List.mem_cons_self).lo
  have hhi : ptrNew.toNat + size.toNat < heap.limit := by
    rw [← hnewPtr, ← hnewSize]
    exact (hinv.blocks _ List.mem_cons_self).hi
  have hothers : ∀ b ∈ dropBlock st.live ptr, heap.contents b = st.heap.contents b := fun b hb =>
    (hinvFreed.take_contents hsame hptrNew b hb).trans (hsameFreed b (mem_dropBlock.mp hb).1)
  have hne : ptrNew ≠ 0 := by
    intro hzero
    rw [hzero] at hlo
    simp at hlo
  have hcall := emuRealloc_eq hchunk hfree hok
  -- the first bytes of the old block as they were
  have hkept : ∀ old ∈ st.live, old.ptr = ptr → ∀ m ≤ old.size,
      ptr.toNat + m ≤ ptrNew.toNat - 4 ∨ ptrNew.toNat ≤ ptr.toNat →
        slice heap.bytes (ptr.toNat - heap.base.toNat) m = (st.heap.contents old).take m := by
    intro old hold heq m hm hapart
    have holdLo := (h.blocks old hold).lo
    have hslice := hsame.2 ptr.toNat m (by rw [hbase, ← heq]; omega) (by omega)
    rw [hsame.1, hslice, ← hsameFreed old hold, EmuHeap.contents_take _ hm, heq]
  by_cases hsamePtr : ptrNew = ptr
  · rw [if_neg (by simp [hsamePtr])] at hcall
    refine ⟨heap, new, by rw [hcall, hnewPtr], hnewSize, hnewAlign, hinv, hothers, ?_⟩
    intro old hold heq m hm
    rw [EmuHeap.contents_take _ (by omega), hnewPtr, hsamePtr]
    exact hkept old hold heq m (by omega) (.inr (by rw [hsamePtr]))
  · rw [if_pos ⟨hne, hsamePtr⟩, copy_count h.sound.wide chunkSize (by
      unfold emuHeapSize at *
      omega)] at hcall
    have hfront : ∀ old ∈ st.live, old.ptr = ptr → ptr.toNat + old.size + 4 ≤ ptrNew.toNat := by
      intro old hold heq
      have hstart := hinvFreed.sound.le_start 3
      have htopOld : freed.top 0 = st.heap.top old.ptr := by rw [htop, heq]
      have hend := h.moved_front hold htopOld fun hagain =>
        hsamePtr (BitVec.eq_of_toNat_eq (by rw [hptrNew, hagain, heq]))
      rw [htail] at hstart
      rw [← heq]
      omega
    obtain ⟨count, hcount⟩ : ∃ n, min chunkSize.toNat size.toNat = n := ⟨_, rfl⟩
    rw [hcount] at hcall
    have hcopy := hsound.copyBytes ptrNew ptr count (fun hpos => by
      obtain ⟨old, hold, heq⟩ := hreleased fun hzero => hpos (by rw [← hcount, hzero]; simp)
      have hbound := hfront old hold heq
      have holdLo := (h.blocks old hold).lo
      have holdSize := hchunkSize old hold heq
      rw [heq] at holdLo
      omega) (by omega) (by omega)
    obtain ⟨data, hdata⟩ : ∃ data, slice heap.bytes (ptr.toNat - heap.base.toNat) count = data :=
      ⟨_, rfl⟩
    have hlen : data.length ≤ count := hdata ▸ List.length_take_le ..
    rw [hdata] at hcopy
    obtain ⟨hwritten, hbeside⟩ := hinv.write List.mem_cons_self 0 data
      (by rw [hnewSize]; omega)
    rw [Nat.add_zero, hnewPtr] at hwritten hbeside
    refine ⟨_, new, by rw [hcall, hcopy, hnewPtr]; rfl, hnewSize, hnewAlign, hwritten, ?_, ?_⟩
    · intro b hb
      exact (hbeside b (List.mem_cons_of_mem _ hb)
        (hinvFreed.take_ne hb (hnewPtr ▸ hptrNew))).trans (hothers b hb)
    · intro old hold heq m hm
      have hbound := hfront old hold heq
      have holdSize := hchunkSize old hold heq
      have holdLo := (h.blocks old hold).lo
      have hlength : data.length = count := by
        have hsize := hsound.size
        rw [heq] at holdLo
        rw [← hdata]
        exact slice_length (by omega)
      have hfirst : data.take m = (st.heap.contents old).take m := by
        rw [← hdata, slice_take (by omega)]
        exact hkept old hold heq m (by omega) (.inl (by omega))
      rw [EmuHeap.contents_take _ (by omega), hnewPtr, ← hfirst]
      exact hsound.take_patched (by omega) (by omega)

theorem emuStep_realloc {st : EmuState w} (h : EmuInv st) {ptr size : BitVec w}
    (hvalid : (EmuCall.realloc ptr size).Valid st) (hcheck : (EmuCall.realloc ptr size).Checked st) :
    (EmuCall.realloc ptr size).Right st := by
  rcases emuRealloc_spec h hvalid hcheck
    with hexit | ⟨heap, new, hok, hsize, halign, hinv, hothers, hkept⟩
  · left
    show emuRealloc _ _ _ >>= _ = _
    rw [hexit]
    rfl
  · right
    refine ⟨{ heap, live := new :: dropBlock st.live ptr }, ?_, hinv, ?_⟩
    · show emuRealloc _ _ _ >>= _ = _
      rw [hok, ← hsize, ← halign]
      rfl
    · exact
        { others := by
            intro b hb hne
            have hkeptBlock : b ∈ dropBlock st.live ptr :=
              mem_dropBlock.mpr ⟨hb, fun heq => hne (congrArg some heq.symm)⟩
            exact ⟨List.mem_cons_of_mem _ hkeptBlock, hothers b hkeptBlock⟩
          zeroed := by
            intro _ _ hcall
            cases hcall
          preserved := by
            intro ptr' size' hcall
            cases hcall
            exact ⟨new, _, rfl, hsize, fun old hold heq => hkept old hold heq _ le_rfl⟩ }

/-! ## Runs -/

/-- A call that meets the condition ends the process or does what it
should. -/
theorem EmuInv.call {st : EmuState w} (h : EmuInv st) {call : EmuCall w} (hvalid : call.Valid st)
    (hcheck : call.Checked st) : call.Right st := by
  cases call with
  | malloc size => exact emuStep_malloc h hcheck
  | calloc nmemb size => exact emuStep_calloc h hcheck
  | realloc ptr size => exact emuStep_realloc h hvalid hcheck
  | posixMemalign alignment size => exact emuStep_posixMemalign h hcheck
  | free ptr => exact emuStep_free h ptr
  | write block pos data => exact emuStep_write h hvalid

theorem FreshHeap.inv {heap : EmuHeap w} (h : FreshHeap heap) :
    EmuInv { heap, live := [] } where
  sound :=
    { wide := h.wide
      below := h.below
      size := by rw [h.bytes, List.length_replicate]
      tail_lo := by rw [h.tail]
      tail_hi := by
        show heap.tail.toNat + 4 ≤ heap.limit
        rw [h.tail, EmuHeap.limit, emuHeapSize]
        omega
      chunk := by
        show heap.tail.toNat + heap.cell heap.tail.toNat ≤ heap.limit
        have hzero : heap.cell heap.tail.toNat = 0 := by
          rw [EmuHeap.cell, h.bytes, h.tail, Nat.sub_self]
          rfl
        rw [hzero, h.tail, EmuHeap.limit, emuHeapSize]
        omega }
  blocks := List.forall_mem_nil _
  apart := .nil

/-- The invariant holds in every state of a run. -/
theorem EmuRun.inv {st : EmuState w} (h : EmuRun st) : EmuInv st := by
  induction h with
  | start hfresh => exact hfresh.inv
  | step _ hvalid hcheck hstep ih =>
    rcases ih.call hvalid hcheck with hexit | ⟨st', hok, hinv, -⟩
    · rw [hexit] at hstep
      cases hstep
    · rw [hok] at hstep
      cases hstep
      exact hinv

theorem EmuInv.layout {st : EmuState w} (h : EmuInv st) : EmuLayout st where
  inside := fun b hb => ⟨(h.blocks b hb).lo, (h.blocks b hb).hi.le⟩
  aligned := fun b hb => (h.blocks b hb).aligned
  apart := h.apart.imp fun happart => by
    unfold EmuBlock.Apart at happart
    omega

/-- **In every run whose calls all meet the condition**, the blocks are laid
out well in every state, and the next call that meets it ends the process
or does what it should. -/
theorem emuStep_right {st : EmuState w} {call : EmuCall w} (hrun : EmuRun st)
    (hvalid : call.Valid st) (hcheck : call.Checked st) :
    EmuLayout st ∧ (emuStep st call = .error .exited ∨
      ∃ st', emuStep st call = .ok st' ∧ EmuLayout st' ∧ call.Effect st st') := by
  refine ⟨hrun.inv.layout, ?_⟩
  rcases hrun.inv.call hvalid hcheck with hexit | ⟨st', hok, hinv, heffect⟩
  · exact .inl hexit
  · exact .inr ⟨st', hok, hinv.layout, heffect⟩

/-! ## Without the condition -/

/-- A call that does not meet the condition returns a block that is not in
the heap, if it returns. -/
theorem emuStep_unchecked {st st' : EmuState w} (h : EmuInv st) {call : EmuCall w}
    (hcheck : ¬ call.Checked st) (hstep : emuStep st call = .ok st') :
    ∃ b ∈ st'.live,
      ¬ (st.heap.base.toNat + 4 ≤ b.ptr.toNat ∧ b.ptr.toNat + b.size ≤ st.heap.limit) := by
  have hw : 3 < w := Nat.lt_of_lt_of_le (by decide) h.sound.wide
  cases call with
  | malloc size =>
    obtain ⟨⟨heap, ptr⟩, hok, hrest⟩ := bind_eq_ok hstep
    cases hrest
    exact ⟨_, List.mem_cons_self, emuAllocMem_unchecked h.sound hw (fun _ => rfl) hcheck hok⟩
  | calloc nmemb size =>
    obtain ⟨⟨heap, ptr⟩, hcalloc, hrest⟩ := bind_eq_ok hstep
    cases hrest
    obtain ⟨⟨taken, ptr'⟩, hok, hzeroed⟩ := bind_eq_ok hcalloc
    obtain ⟨zeroed, -, heq⟩ := bind_eq_ok hzeroed
    cases heq
    exact ⟨_, List.mem_cons_self, emuAllocMem_unchecked h.sound hw
      (fun hlt => (callocSize_of_lt h.sound.wide hlt).2) hcheck hok⟩
  | realloc ptr size =>
    obtain ⟨⟨heap, ptrNew⟩, hrealloc, hrest⟩ := bind_eq_ok hstep
    cases hrest
    obtain ⟨freed, hfree, hinv, hbase, -, htop, -⟩ := h.free ptr
    have hfreed : ¬ LimitChecked freed 0 (2 ^ 3) size.toNat size := by
      intro hchecked
      refine hcheck ?_
      unfold EmuCall.Checked
      unfold LimitChecked EmuHeap.limit at hchecked ⊢
      rw [htop, hbase] at hchecked
      exact hchecked
    obtain ⟨chunkSize, hchunk, hrealloc⟩ := bind_eq_ok hrealloc
    obtain ⟨freed', hfree', hrealloc⟩ := bind_eq_ok hrealloc
    obtain rfl : freed = freed' := by
      rw [hfree] at hfree'
      cases hfree'
      rfl
    obtain ⟨⟨taken, ptr'⟩, hok, hcopied⟩ := bind_eq_ok hrealloc
    have hptr : ptr' = ptrNew := by
      simp only at hcopied
      split at hcopied
      · obtain ⟨copied, -, heq⟩ := bind_eq_ok hcopied
        cases heq
        rfl
      · cases hcopied
        rfl
    have hunchecked := emuAllocMem_unchecked hinv.sound hw (fun _ => rfl) hfreed hok
    rw [hptr] at hunchecked
    simp only [EmuHeap.limit, hbase] at hunchecked
    exact ⟨_, List.mem_cons_self, hunchecked⟩
  | posixMemalign alignment size =>
    obtain ⟨hrefused, hchecked⟩ := Classical.not_imp.mp hcheck
    obtain ⟨k, hkw, -, -, hmax, hused⟩ := alignment_used hw hrefused
    rw [hmax] at hchecked
    obtain ⟨⟨heap, rc, memptr⟩, hmemalign, hrest⟩ := bind_eq_ok hstep
    cases hrest
    rw [emuPosixMemalign, if_neg hrefused, hused] at hmemalign
    obtain ⟨⟨taken, ptr⟩, hok, heq⟩ := bind_eq_ok hmemalign
    cases heq
    have hunchecked := emuAllocMem_unchecked h.sound hkw (fun _ => rfl) hchecked hok
    simp only [if_pos (emuAllocMem_ne_zero h.sound hkw hok)]
    exact ⟨_, List.mem_cons_self, hunchecked⟩
  | free ptr => exact absurd trivial hcheck
  | write block pos data => exact absurd trivial hcheck

/-! ## Two calls -/

def sampleHeap : EmuHeap 64 where
  base := 0x601000
  bytes := List.replicate emuHeapSize 0
  tail := 0x601000

theorem sampleHeap_fresh : FreshHeap sampleHeap where
  wide := by decide
  below := by decide
  bytes := rfl
  tail := rfl

theorem eq_ok_of_toOption {α : Type} {x : Except EmuStop α} {a : α} (h : x.toOption = some a) :
    x = .ok a := by
  cases x with
  | error => cases h
  | ok => rw [Option.some.inj h]

/-- Two blocks are allocated and the first one is moved into a larger one:
every call meets the condition. -/
theorem emuStep_right_moved : ∃ st st' : EmuState 64,
    st.live = [⟨0x601020, 24, 8⟩, ⟨0x601008, 16, 8⟩] ∧ EmuLayout st ∧
      emuStep st (.realloc 0x601008 40) = .ok st' ∧ EmuLayout st' ∧
      (EmuCall.realloc 0x601008 40).Effect st st' ∧ st'.live = [⟨0x601040, 40, 8⟩, ⟨0x601020, 24, 8⟩] := by
  have heval : (emuStep { heap := sampleHeap, live := [] } (.malloc 16)).toOption.bind (fun st₁ =>
      (emuStep st₁ (.malloc 24)).toOption.bind fun st₂ =>
      (emuStep st₂ (.realloc 0x601008 40)).toOption.map fun st₃ =>
      (decide (st₁.heap.limit ≤ alignUp emuHeapAlign (st₁.heap.top 0) + 24),
        decide (st₂.heap.limit ≤ alignUp emuHeapAlign (st₂.heap.top 0x601008) + 40), st₂.live, st₃.live))
      = some (false, false, [⟨0x601020, 24, 8⟩, ⟨0x601008, 16, 8⟩],
        [⟨0x601040, 40, 8⟩, ⟨0x601020, 24, 8⟩]) := by
    decide +kernel
  simp only [Option.bind_eq_some_iff, Option.map_eq_some_iff, Prod.mk.injEq,
    decide_eq_false_iff_not] at heval
  obtain ⟨st₁, hfirst, st₂, hsecond, st₃, hthird, hroom, hroom', hlive, hlive'⟩ := heval
  have hrun₁ : EmuRun st₁ :=
    .step (.start sampleHeap_fresh) (show (EmuCall.malloc (16 : BitVec 64)).Valid _ from trivial)
      (fun hover => absurd hover (by decide)) (eq_ok_of_toOption hfirst)
  have hrun : EmuRun st₂ :=
    .step hrun₁ (show (EmuCall.malloc (24 : BitVec 64)).Valid _ from trivial)
      (fun hover => absurd hover hroom) (eq_ok_of_toOption hsecond)
  have hvalid : (EmuCall.realloc 0x601008 40).Valid st₂ :=
    .inr ⟨⟨0x601008, 16, 8⟩, by simp [hlive], rfl⟩
  obtain ⟨hlayout, hexit | ⟨st', hok, hlayout', heffect⟩⟩ :=
    emuStep_right hrun hvalid fun hover => absurd hover hroom'
  · rw [eq_ok_of_toOption hthird] at hexit
    cases hexit
  · obtain rfl := Except.ok.inj ((eq_ok_of_toOption hthird).symm.trans hok)
    exact ⟨st₂, st₃, hlive, hlayout, hok, hlayout', heffect, hlive'⟩

/-- `malloc(2^64 - 100)` does not: the sum wraps, and a block is returned
that is not in the heap. -/
theorem emuStep_wraps : EmuRun { heap := sampleHeap, live := [] } ∧
    ∃ st', emuStep { heap := sampleHeap, live := [] } (.malloc (-100)) = .ok st' ∧
      ¬ EmuLayout st' := by
  refine ⟨.start sampleHeap_fresh, ?_⟩
  have hsound : sampleHeap.Sound := sampleHeap_fresh.inv.sound
  have hstart : sampleHeap.start (2 ^ 3) = 0x601008 := by decide
  have hok : emuAllocMem sampleHeap (-100) (BitVec.ofNat 64 (2 ^ 3)) = .ok _ :=
    emuAllocMem_ok hsound (by decide) (by rw [hstart]; decide) (by rw [hstart]; decide)
  rw [hstart] at hok
  refine ⟨{ heap := sampleHeap.allocated 0x601008 (-100),
            live := [{ ptr := 0x601008, size := 2 ^ 64 - 100, align := 8 }] }, ?_, fun hlayout => ?_⟩
  · show emuAllocMem _ _ _ >>= _ = _
    rw [show BitVec.ofNat 64 emuHeapAlign = BitVec.ofNat 64 (2 ^ 3) from rfl, hok]
    rfl
  · have hinside := (hlayout.inside _ List.mem_cons_self).2
    revert hinside
    decide

end SpRtrace.Modules
