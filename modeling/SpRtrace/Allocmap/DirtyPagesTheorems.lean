/-
SpRtrace.Allocmap.DirtyPagesTheorems — which pages a block marks.

The marks are always inside the map. They are those of the block if and
only if its end is not on a page border, when the block is in the memory
of the map; and a block that is not is rejected unless the page numbers
of its header and its end lose their upper bits (`dirtyRight_iff`).
-/
import SpRtrace.Allocmap.DirtyPages

namespace SpRtrace.Allocmap

variable {w : Nat}

/-! ## Marks -/

theorem storeMark_range (mark : BitVec 8) (n s : Nat) (map : List (BitVec 8))
    (h : s + n ≤ map.length) :
    ∃ map', (List.range' s n).foldlM (storeMark mark) map = some map' ∧
      map'.length = map.length ∧ ∀ i, map'[i]?
        = if s ≤ i ∧ i < s + n then map[i]?.map fun _ => mark else map[i]? := by
  induction n generalizing s map with
  | zero => exact ⟨map, rfl, rfl, fun i => by rw [if_neg (by omega)]⟩
  | succ n ih =>
    have hlen : (map.set s mark).length = map.length := List.length_set
    obtain ⟨map', hrun, hlen', hget⟩ := ih (s + 1) (map.set s mark) (by omega)
    refine ⟨map', ?_, hlen'.trans hlen, fun i => ?_⟩
    · rw [List.range'_succ, List.foldlM_cons, storeMark, if_pos (by omega)]
      exact hrun
    · rw [hget, List.getElem?_set]
      by_cases hi : i = s
      · subst hi
        have hlt : i < map.length := by omega
        simp [hlt]
      · have hne : ¬ s = i := fun heq => hi heq.symm
        rw [if_neg hne]
        by_cases hin : s + 1 ≤ i ∧ i < s + 1 + n
        · rw [if_pos hin, if_pos (by omega)]
        · rw [if_neg hin, if_neg (by omega)]

/-- The loop marks the pages from `start` to `stop`. -/
theorem markPages_spec (mark : BitVec 8) {start stop : Int} {map : List (BitVec 8)}
    (hstart : 0 ≤ start) (hstop : stop < map.length) :
    ∃ map', markPages mark start stop map = some map' ∧ map'.length = map.length ∧ ∀ i : Nat,
      map'[i]? = if start ≤ i ∧ i ≤ stop then map[i]?.map fun _ => mark else map[i]? := by
  by_cases hempty : stop < start
  · have hzero : (stop + 1 - start).toNat = 0 := by omega
    rw [markPages, hzero]
    exact ⟨map, rfl, rfl, fun i => by rw [if_neg (by omega)]⟩
  · obtain ⟨map', hrun, hlen, hget⟩ := storeMark_range mark (stop + 1 - start).toNat start.toNat map
      (by omega)
    refine ⟨map', hrun, hlen, fun i => ?_⟩
    rw [hget]
    by_cases hin : start ≤ i ∧ i ≤ stop
    · rw [if_pos hin, if_pos (by omega)]
    · rw [if_neg hin, if_neg (by omega)]

/-! ## Page numbers -/

/-- The sign of a page number that was stored in an `int`. -/
theorem pageNumber_nonneg {p : Nat} (hp : 0 < p) (x : Nat) :
    0 ≤ (BitVec.ofNat 32 (x / p)).toInt ↔ x % (p * 2 ^ 32) < p * 2 ^ 31 := by
  have hdiv : x % (p * 2 ^ 32) / p = x / p % 2 ^ 32 := Nat.mod_mul_right_div_self ..
  have hlt : x % (p * 2 ^ 32) / p < 2 ^ 31 ↔ x % (p * 2 ^ 32) < p * 2 ^ 31 := by
    rw [Nat.div_lt_iff_lt_mul hp, Nat.mul_comm p (2 ^ 31)]
  rw [← hlt, hdiv, BitVec.toInt_eq_toNat_cond, BitVec.toNat_ofNat]
  split <;> omega

/-- A page number that was stored in an `int` is below the number of
pages. -/
theorem pageNumber_lt {p : Nat} (hp : 0 < p) (y : Nat) {pages : Nat} (hpages : pages ≤ 2 ^ 31) :
    (BitVec.ofNat 32 (y / p)).toInt < pages ↔
      p * 2 ^ 31 ≤ y % (p * 2 ^ 32) ∨ y % (p * 2 ^ 32) < p * pages := by
  have hdiv : y % (p * 2 ^ 32) / p = y / p % 2 ^ 32 := Nat.mod_mul_right_div_self ..
  have hlow : y % (p * 2 ^ 32) / p < pages ↔ y % (p * 2 ^ 32) < p * pages := by
    rw [Nat.div_lt_iff_lt_mul hp, Nat.mul_comm p pages]
  have hhigh : 2 ^ 31 ≤ y % (p * 2 ^ 32) / p ↔ p * 2 ^ 31 ≤ y % (p * 2 ^ 32) := by
    rw [Nat.le_div_iff_mul_le hp, Nat.mul_comm p (2 ^ 31)]
  rw [← hlow, ← hhigh, hdiv, BitVec.toInt_eq_toNat_cond, BitVec.toNat_ofNat]
  split <;> omega

/-! ## Blocks -/

/-- The page size is a power of two, and there is a mark for each page of
the memory. -/
structure AllocMap.Ready (m : AllocMap w) : Prop where
  pageSize : ∃ k ≤ 30, m.pageSize = BitVec.ofNat 32 (2 ^ k)
  usageMap : m.usageMap.length = maxMemory / m.pageSize.toNat

theorem AllocMap.Ready.pageSize_toNat {m : AllocMap w} (h : m.Ready) :
    ∃ k ≤ 30, m.pageSize.toNat = 2 ^ k ∧ 2 ^ k ≤ 2 ^ 30 := by
  obtain ⟨k, hk, hsize⟩ := h.pageSize
  have hle : 2 ^ k ≤ 2 ^ 30 := Nat.pow_le_pow_right (by decide) hk
  refine ⟨k, hk, ?_, hle⟩
  rw [hsize, BitVec.toNat_ofNat, Nat.mod_eq_of_lt (by omega)]

/-- The block with its header is in the memory of the map. -/
def Inside (heapBase address size : BitVec w) : Prop :=
  heapBase.toNat + mallocHeaderSize ≤ address.toNat ∧
    address.toNat + size.toNat ≤ heapBase.toNat + maxMemory

/-- A page contains a byte of the block with its header. -/
def PageHolds (heapBase : BitVec w) (pageSize : BitVec 32) (address size : BitVec w) (i : Nat) :
    Prop :=
  ∃ x : Int, (heapBase.toNat : Int) + i * pageSize.toNat ≤ x ∧
    x < (heapBase.toNat : Int) + (i + 1) * pageSize.toNat ∧
    (address.toNat : Int) - mallocHeaderSize ≤ x ∧ x < (address.toNat : Int) + size.toNat

/-- A block inside the memory marks its pages and no others, and one that
is not marks nothing; nothing is stored outside the map. -/
structure DirtyRight (m : AllocMap w) (address size : BitVec w) (run : BitVec 32)
    (result : AllocMap w × BitVec 32) : Prop where
  stored : mapDirtyAddress m address size run = some result
  inside : Inside m.heapBase address size → result.2 = 1 ∧
    (∀ i < m.usageMap.length, PageHolds m.heapBase m.pageSize address size i →
      result.1.usageMap[i]? = some (runMark run)) ∧
    ∀ i, ¬ PageHolds m.heapBase m.pageSize address size i →
      result.1.usageMap[i]? = m.usageMap[i]?
  outside : ¬ Inside m.heapBase address size → result.2 = 0 ∧ result.1.usageMap = m.usageMap

/-- The offset of the header in the heap, as an address. -/
def headerOffset (heapBase address : BitVec w) : Nat :=
  (address - heapBase - BitVec.ofNat w mallocHeaderSize).toNat

/-- The offset of the end of the block in the heap, as an address. -/
def endOffset (heapBase address size : BitVec w) : Nat := (address - heapBase + size).toNat

/-- The condition on a block: inside the memory, its end is not on a page
border; outside, the offset of its header is in the upper half of what the
page numbers of an `int` cover, or the one of its end is in the lower half
and behind the memory. -/
structure DirtyCondition (heapBase : BitVec w) (pageSize : BitVec 32) (address size : BitVec w) :
    Prop where
  inside : Inside heapBase address size →
    pageSize.toNat ≤ maxMemory ∧ ¬ pageSize.toNat ∣ endOffset heapBase address size
  outside : ¬ Inside heapBase address size →
    pageSize.toNat * 2 ^ 31 ≤ headerOffset heapBase address % (pageSize.toNat * 2 ^ 32) ∨
      endOffset heapBase address size % (pageSize.toNat * 2 ^ 32) < pageSize.toNat * 2 ^ 31 ∧
        (pageSize.toNat ≤ maxMemory →
          maxMemory ≤ endOffset heapBase address size % (pageSize.toNat * 2 ^ 32))

/-- The test of the code on a block. -/
def Accepted (heapBase : BitVec w) (pageSize : BitVec 32) (address size : BitVec w) : Prop :=
  headerOffset heapBase address % (pageSize.toNat * 2 ^ 32) < pageSize.toNat * 2 ^ 31 ∧
    (pageSize.toNat * 2 ^ 31 ≤ endOffset heapBase address size % (pageSize.toNat * 2 ^ 32) ∨
      pageSize.toNat ≤ maxMemory ∧
        endOffset heapBase address size % (pageSize.toNat * 2 ^ 32) < maxMemory)

/-- The number of pages covers the memory. -/
theorem pages_mul {k : Nat} (hk : 2 ^ k ≤ maxMemory) : 2 ^ k * (maxMemory / 2 ^ k) = maxMemory := by
  have hdvd : 2 ^ k ∣ maxMemory := by
    have hmemory : maxMemory = 2 ^ 26 := rfl
    rw [hmemory] at hk ⊢
    exact Nat.pow_dvd_pow 2 ((Nat.pow_le_pow_iff_right (by decide)).mp hk)
  exact Nat.mul_div_cancel' hdvd

/-- A page number of the code. -/
theorem pageNumber_code (hw : 32 ≤ w) {pageSize : BitVec 32} {p : Nat} (hp : pageSize.toNat = p)
    (hlt : p < 2 ^ 31) (offset : BitVec w) :
    (offset / pageSize.signExtend w).setWidth 32 = BitVec.ofNat 32 (offset.toNat / p) := by
  have hmsb : pageSize.msb = false := by
    rw [BitVec.msb_eq_false_iff_two_mul_lt, hp]
    omega
  have hpow : 2 ^ 32 ≤ 2 ^ w := Nat.pow_le_pow_right (by decide) hw
  refine BitVec.eq_of_toNat_eq ?_
  rw [BitVec.signExtend_eq_setWidth_of_msb_false hmsb, BitVec.toNat_setWidth, BitVec.toNat_udiv,
    BitVec.toNat_setWidth, hp, Nat.mod_eq_of_lt (by omega : p < 2 ^ w), BitVec.toNat_ofNat]

theorem AllocMap.Ready.pages {m : AllocMap w} (h : m.Ready) :
    (maxMemory : Int) / m.pageSize.toInt = m.usageMap.length := by
  obtain ⟨k, hk, hp, hle⟩ := h.pageSize_toNat
  have hint : m.pageSize.toInt = (m.pageSize.toNat : Int) := by
    rw [BitVec.toInt_eq_toNat_cond, if_pos (by omega)]
  rw [hint, h.usageMap]
  rfl

/-- The test of the code. -/
theorem accepted_iff {m : AllocMap w} (hm : m.Ready) (address size : BitVec w) :
    (0 ≤ (BitVec.ofNat 32 (headerOffset m.heapBase address / m.pageSize.toNat)).toInt ∧
      (BitVec.ofNat 32 (endOffset m.heapBase address size / m.pageSize.toNat)).toInt
        < m.usageMap.length) ↔ Accepted m.heapBase m.pageSize address size := by
  obtain ⟨k, hk, hp, hle⟩ := hm.pageSize_toNat
  have hpos : 0 < 2 ^ k := Nat.two_pow_pos k
  have hpages : m.usageMap.length ≤ 2 ^ 31 := by
    rw [hm.usageMap]
    exact (Nat.div_le_self ..).trans (by decide)
  rw [pageNumber_nonneg (hp ▸ hpos), pageNumber_lt (hp ▸ hpos) _ hpages, Accepted, hm.usageMap, hp]
  by_cases hsmall : 2 ^ k ≤ maxMemory
  · rw [pages_mul hsmall]
    simp [hsmall]
  · rw [Nat.div_eq_of_lt (by omega)]
    simp [hsmall]

/-- The spec of the function: it marks the pages between the numbers of the
two offsets, or returns zero. -/
theorem mapDirtyAddress_spec (hw : 32 ≤ w) {m : AllocMap w} (hm : m.Ready) (address size : BitVec w)
    (run : BitVec 32) :
    (Accepted m.heapBase m.pageSize address size → ∃ result,
      mapDirtyAddress m address size run = some result ∧ result.2 = 1 ∧
        result.1.usageMap.length = m.usageMap.length ∧ ∀ i : Nat, result.1.usageMap[i]?
          = if (BitVec.ofNat 32 (headerOffset m.heapBase address / m.pageSize.toNat)).toInt ≤ i ∧
              i ≤ (BitVec.ofNat 32 (endOffset m.heapBase address size / m.pageSize.toNat)).toInt
            then m.usageMap[i]?.map fun _ => runMark run else m.usageMap[i]?) ∧
    (¬ Accepted m.heapBase m.pageSize address size →
      mapDirtyAddress m address size run = some (m, 0)) := by
  obtain ⟨k, hk, hp, hle⟩ := hm.pageSize_toNat
  have hlt : m.pageSize.toNat < 2 ^ 31 := by omega
  have hheader := pageNumber_code hw rfl hlt (address - m.heapBase - BitVec.ofNat w mallocHeaderSize)
  have hend := pageNumber_code hw rfl hlt (address - m.heapBase + size)
  unfold mapDirtyAddress
  simp only [hheader, hend, hm.pages]
  constructor
  · intro haccepted
    have htest := (accepted_iff hm address size).mpr haccepted
    obtain ⟨map', hmarks, hlen, hget⟩ := markPages_spec (runMark run) htest.1 htest.2
    rw [headerOffset, endOffset] at htest hmarks hget
    rw [if_pos htest, hmarks]
    exact ⟨_, rfl, rfl, hlen, hget⟩
  · intro hrejected
    exact if_neg fun htest => hrejected ((accepted_iff hm address size).mp htest)

/-! ## Blocks in the memory -/

/-- Inside the memory the offsets are those of the integers. -/
theorem Inside.offsets (hw : 32 ≤ w) {heapBase address size : BitVec w}
    (h : Inside heapBase address size) :
    headerOffset heapBase address + mallocHeaderSize + heapBase.toNat = address.toNat ∧
      endOffset heapBase address size + heapBase.toNat = address.toNat + size.toNat := by
  obtain ⟨hlow, hhigh⟩ := h
  have hmemory : maxMemory = 2 ^ 26 := rfl
  have hheader : mallocHeaderSize = 8 := rfl
  have hpow : 2 ^ 32 ≤ 2 ^ w := Nat.pow_le_pow_right (by decide) hw
  have hbase : (address - heapBase).toNat = address.toNat - heapBase.toNat := by
    refine BitVec.toNat_sub_of_le ?_
    show heapBase.toNat ≤ address.toNat
    omega
  have hsize : (BitVec.ofNat w mallocHeaderSize).toNat = mallocHeaderSize := by
    rw [BitVec.toNat_ofNat, Nat.mod_eq_of_lt (by omega)]
  constructor
  · rw [headerOffset, BitVec.toNat_sub_of_le, hbase, hsize]
    · omega
    · show (BitVec.ofNat w mallocHeaderSize).toNat ≤ (address - heapBase).toNat
      rw [hbase, hsize]
      omega
  · rw [endOffset, BitVec.toNat_add, hbase, Nat.mod_eq_of_lt (by omega)]
    omega

/-- The pages of a block inside the memory. -/
theorem Inside.pageHolds (hw : 32 ≤ w) {heapBase address size : BitVec w} {pageSize : BitVec 32}
    (h : Inside heapBase address size) (hpos : 0 < pageSize.toNat) (i : Nat) :
    PageHolds heapBase pageSize address size i ↔
      headerOffset heapBase address / pageSize.toNat ≤ i ∧
        i * pageSize.toNat < endOffset heapBase address size := by
  obtain ⟨hheader, hend⟩ := h.offsets hw
  have hpage : ((i + 1) * pageSize.toNat : Int) = i * pageSize.toNat + pageSize.toNat := by ring
  have hpageNat : (i + 1) * pageSize.toNat = i * pageSize.toNat + pageSize.toNat := by ring
  have hdiv : headerOffset heapBase address / pageSize.toNat ≤ i ↔
      headerOffset heapBase address < i * pageSize.toNat + pageSize.toNat := by
    rw [← Nat.lt_succ_iff, Nat.div_lt_iff_lt_mul hpos, Nat.succ_eq_add_one, hpageNat]
  have hcast : ((i * pageSize.toNat : Nat) : Int) = (i : Int) * pageSize.toNat := Nat.cast_mul ..
  rw [hdiv, PageHolds, hpage, ← hcast]
  generalize i * pageSize.toNat = low
  have hheaderSize : mallocHeaderSize = 8 := rfl
  constructor
  · rintro ⟨x, hlow, hhigh, hfrom, hto⟩
    omega
  · intro hpages
    refine ⟨max (heapBase.toNat + low : Int) (address.toNat - mallocHeaderSize), ?_, ?_, ?_, ?_⟩ <;> omega

/-- A page number inside the memory is not cut. -/
theorem pageNumber_small {p x : Nat} (hx : x ≤ maxMemory) :
    (BitVec.ofNat 32 (x / p)).toInt = (x / p : Nat) := by
  have hmemory : maxMemory = 2 ^ 26 := rfl
  have hle : x / p ≤ x := Nat.div_le_self ..
  rw [BitVec.toInt_eq_toNat_cond, BitVec.toNat_ofNat, Nat.mod_eq_of_lt (by omega), if_pos (by omega)]

/-- The test on a block inside the memory. -/
theorem Inside.accepted (hw : 32 ≤ w) {heapBase address size : BitVec w} {pageSize : BitVec 32}
    (h : Inside heapBase address size) (hpos : 0 < pageSize.toNat) :
    Accepted heapBase pageSize address size ↔
      pageSize.toNat ≤ maxMemory ∧ endOffset heapBase address size < maxMemory := by
  obtain ⟨hheader, hend⟩ := h.offsets hw
  have hhigh := h.2
  have hmemory : maxMemory = 2 ^ 26 := rfl
  have hsmall : ∀ x ≤ maxMemory, x % (pageSize.toNat * 2 ^ 32) = x ∧ x < pageSize.toNat * 2 ^ 31 :=
    fun x hx => ⟨Nat.mod_eq_of_lt (by omega), by omega⟩
  obtain ⟨hmodHeader, hltHeader⟩ := hsmall (headerOffset heapBase address) (by omega)
  obtain ⟨hmodEnd, hltEnd⟩ := hsmall (endOffset heapBase address size) (by omega)
  rw [Accepted, hmodHeader, hmodEnd]
  constructor
  · rintro ⟨-, hcut | hfits⟩
    · exact absurd hltEnd (Nat.not_lt.mpr hcut)
    · exact hfits
  · exact fun hfits => ⟨hltHeader, Or.inr hfits⟩

/-- Outside the memory the condition says that the block is rejected. -/
theorem condition_outside {heapBase address size : BitVec w} {pageSize : BitVec 32} :
    (pageSize.toNat * 2 ^ 31 ≤ headerOffset heapBase address % (pageSize.toNat * 2 ^ 32) ∨
      endOffset heapBase address size % (pageSize.toNat * 2 ^ 32) < pageSize.toNat * 2 ^ 31 ∧
        (pageSize.toNat ≤ maxMemory →
          maxMemory ≤ endOffset heapBase address size % (pageSize.toNat * 2 ^ 32))) ↔
      ¬ Accepted heapBase pageSize address size := by
  rw [Accepted, not_and_or, not_or, not_and, Nat.not_lt, Nat.not_le, Nat.not_lt]

/-- The number of pages is a divisor of the memory, or there is none. -/
theorem dvd_maxMemory {pageSize : BitVec 32} {k : Nat} (hp : pageSize.toNat = 2 ^ k)
    (hsmall : pageSize.toNat ≤ maxMemory) : pageSize.toNat ∣ maxMemory := by
  rw [hp] at hsmall ⊢
  exact ⟨_, (pages_mul hsmall).symm⟩

theorem mapInit_ready (heapBase : BitVec w) {pageSize : BitVec 32}
    (hpage : ∃ k ≤ 30, pageSize = BitVec.ofNat 32 (2 ^ k)) : (mapInit heapBase pageSize).Ready :=
  ⟨hpage, List.length_replicate ..⟩

theorem runMark_ne_zero (run : BitVec 32) : runMark run ≠ 0 := by
  unfold runMark
  split
  · decide
  next h =>
    intro hzero
    have hcond := BitVec.toInt_eq_toNat_cond (x := run)
    have hvalue := congrArg BitVec.toNat hzero
    rw [BitVec.toNat_setWidth] at hvalue
    have hnat : run.toNat % 2 ^ 8 = 0 := hvalue
    split at hcond <;> omega

/-- The marks of a block that ends inside of a page. -/
theorem dirtyRight_marks (hw : 32 ≤ w) {m : AllocMap w} (hm : m.Ready) {address size : BitVec w}
    (run : BitVec 32) (hinside : Inside m.heapBase address size)
    (hsmall : m.pageSize.toNat ≤ maxMemory)
    (hborder : ¬ m.pageSize.toNat ∣ endOffset m.heapBase address size) :
    ∃ result, DirtyRight m address size run result := by
  obtain ⟨k, -, hp, -⟩ := hm.pageSize_toNat
  have hpos : 0 < m.pageSize.toNat := by rw [hp]; exact Nat.two_pow_pos k
  obtain ⟨hheader, hend⟩ := hinside.offsets hw
  have hhigh := hinside.2
  have hne : endOffset m.heapBase address size ≠ maxMemory := by
    intro heq
    rw [heq] at hborder
    exact hborder (dvd_maxMemory hp hsmall)
  have haccepted := (hinside.accepted hw hpos).mpr ⟨hsmall, by omega⟩
  obtain ⟨result, hrun, hrc, hlen, hget⟩ := (mapDirtyAddress_spec hw hm address size run).1 haccepted
  have hpages : ∀ i : Nat,
      ((BitVec.ofNat 32 (headerOffset m.heapBase address / m.pageSize.toNat)).toInt ≤ i ∧
        i ≤ (BitVec.ofNat 32 (endOffset m.heapBase address size / m.pageSize.toNat)).toInt) ↔
      PageHolds m.heapBase m.pageSize address size i := by
    intro i
    rw [pageNumber_small (by omega), pageNumber_small (by omega), hinside.pageHolds hw hpos]
    rw [Int.ofNat_le, Int.ofNat_le, Nat.le_div_iff_mul_le hpos]
    refine and_congr_right fun _ => ⟨fun hle => lt_of_le_of_ne hle ?_, le_of_lt⟩
    intro heq
    exact hborder ⟨i, by rw [← heq, Nat.mul_comm]⟩
  refine ⟨result, hrun, fun _ => ⟨hrc, fun i hi hholds => ?_, fun i hholds => ?_⟩,
    fun houtside => absurd hinside houtside⟩
  · rw [hget, if_pos ((hpages i).mpr hholds), List.getElem?_eq_getElem hi, Option.map_some]
  · rw [hget, if_neg fun h => hholds ((hpages i).mp h)]

/-- On an empty map the test accepts what it should, and a block inside the
memory does not end on a page border. -/
theorem dirtyRight_empty (hw : 32 ≤ w) {heapBase : BitVec w} {pageSize : BitVec 32}
    (hpage : ∃ k ≤ 30, pageSize = BitVec.ofNat 32 (2 ^ k)) {address size : BitVec w}
    {run : BitVec 32} {result : AllocMap w × BitVec 32}
    (h : DirtyRight (mapInit heapBase pageSize) address size run result)
    (hinside : Inside heapBase address size) :
    pageSize.toNat ≤ maxMemory ∧ ¬ pageSize.toNat ∣ endOffset heapBase address size := by
  have hm := mapInit_ready heapBase hpage
  obtain ⟨haccept, hreject⟩ := mapDirtyAddress_spec hw hm address size run
  obtain ⟨k, -, hp, -⟩ := hm.pageSize_toNat
  have hp : pageSize.toNat = 2 ^ k := hp
  have hpos : 0 < pageSize.toNat := by rw [hp]; exact Nat.two_pow_pos k
  obtain ⟨hrc, -, hothers⟩ := h.inside hinside
  have haccepted : Accepted heapBase pageSize address size := by
    by_contra hrejected
    rw [Option.some.inj (h.stored.symm.trans (hreject hrejected))] at hrc
    have hzero : (0 : BitVec 32) = 1 := hrc
    exact absurd hzero (by decide)
  obtain ⟨hsmall, hlt⟩ := (hinside.accepted hw hpos).mp haccepted
  refine ⟨hsmall, fun hborder => ?_⟩
  obtain ⟨found, hfound, -, -, hget⟩ := haccept haccepted
  obtain rfl := Option.some.inj (h.stored.symm.trans hfound)
  obtain ⟨hheader, hend⟩ := hinside.offsets hw
  -- the page behind the border is marked
  have hlast : ¬ PageHolds heapBase pageSize address size
      (endOffset heapBase address size / pageSize.toNat) := by
    rw [hinside.pageHolds hw hpos, Nat.div_mul_cancel hborder]
    exact fun h => absurd h.2 (Nat.lt_irrefl _)
  have hdiv : endOffset heapBase address size / pageSize.toNat < maxMemory / pageSize.toNat := by
    rw [Nat.div_lt_iff_lt_mul hpos, Nat.div_mul_cancel (dvd_maxMemory hp hsmall)]
    exact hlt
  have hcell : (mapInit heapBase pageSize).usageMap[endOffset heapBase address size / pageSize.toNat]?
      = some 0 := List.getElem?_replicate_of_lt hdiv
  have hsame := hothers _ hlast
  rw [hget, if_pos, hcell] at hsame
  · exact runMark_ne_zero run (Option.some.inj hsame)
  · have hbase : (mapInit heapBase pageSize).heapBase = heapBase := rfl
    have hsize : (mapInit heapBase pageSize).pageSize = pageSize := rfl
    have hle : headerOffset heapBase address ≤ endOffset heapBase address size := by omega
    rw [hbase, hsize, pageNumber_small (by omega), pageNumber_small (by omega), Int.ofNat_le]
    exact ⟨Nat.div_le_div_right hle, le_refl _⟩

/-- **The dirty pages**: on every map of the page size a block marks what it
should if and only if the condition holds. -/
theorem dirtyRight_iff (hw : 32 ≤ w) (heapBase : BitVec w) {pageSize : BitVec 32}
    (hpage : ∃ k ≤ 30, pageSize = BitVec.ofNat 32 (2 ^ k)) (address size : BitVec w)
    (run : BitVec 32) :
    (∀ m : AllocMap w, m.Ready → m.heapBase = heapBase → m.pageSize = pageSize →
      ∃ result, DirtyRight m address size run result) ↔
      DirtyCondition heapBase pageSize address size := by
  constructor
  · intro hright
    have hm := mapInit_ready heapBase hpage
    obtain ⟨result, hresult⟩ := hright _ hm rfl rfl
    refine ⟨dirtyRight_empty hw hpage hresult, fun houtside => condition_outside.mpr ?_⟩
    intro haccepted
    obtain ⟨found, hfound, hrc, -⟩ := (mapDirtyAddress_spec hw hm address size run).1 haccepted
    obtain rfl := Option.some.inj (hresult.stored.symm.trans hfound)
    rw [(hresult.outside houtside).1] at hrc
    exact absurd hrc (by decide)
  · rintro hcondition m hm rfl rfl
    by_cases hinside : Inside m.heapBase address size
    · obtain ⟨hsmall, hborder⟩ := hcondition.inside hinside
      exact dirtyRight_marks hw hm run hinside hsmall hborder
    · have hrejected := condition_outside.mp (hcondition.outside hinside)
      exact ⟨(m, 0), (mapDirtyAddress_spec hw hm address size run).2 hrejected,
        fun h => absurd h hinside, fun _ => ⟨rfl, rfl⟩⟩

/-- A block in the first page of the heap. -/
theorem dirtyRight_iff_block :
    ∃ result, DirtyRight (mapInit (0x8100000 : BitVec 64) 4096) 0x8100010 100 48 result := by
  have hpage : ∃ k ≤ 30, (4096 : BitVec 32) = BitVec.ofNat 32 (2 ^ k) := ⟨12, by decide, by decide⟩
  have hinside : Inside (0x8100000 : BitVec 64) 0x8100010 100 := by
    constructor <;> decide
  have hcondition : DirtyCondition (0x8100000 : BitVec 64) 4096 0x8100010 100 :=
    ⟨fun _ => by decide, fun houtside => absurd hinside houtside⟩
  exact (dirtyRight_iff (by decide) 0x8100000 hpage 0x8100010 100 48).mpr hcondition _
    (mapInit_ready 0x8100000 hpage) rfl rfl

/-- A block that fills a page with its header: the next page is marked,
too. -/
theorem dirtyRight_border :
    (mapDirtyAddress (mapInit (0x8100000 : BitVec 64) 4096) 0x8100008 4088 48).map
        (fun result => (result.1.usageMap.take 3, result.2)) = some ([48, 48, 0], 1) ∧
      ¬ ∃ result, DirtyRight (mapInit (0x8100000 : BitVec 64) 4096) 0x8100008 4088 48 result := by
  have hpage : ∃ k ≤ 30, (4096 : BitVec 32) = BitVec.ofNat 32 (2 ^ k) := ⟨12, by decide, by decide⟩
  have hinside : Inside (0x8100000 : BitVec 64) 0x8100008 4088 := by
    constructor <;> decide
  refine ⟨by decide +kernel, fun hright => ?_⟩
  obtain ⟨result, hresult⟩ := hright
  exact (dirtyRight_empty (by decide) hpage hresult hinside).2 (by decide)

end SpRtrace.Allocmap
