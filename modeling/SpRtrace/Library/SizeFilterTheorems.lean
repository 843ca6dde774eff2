/-
SpRtrace.Library.SizeFilterTheorems — the size option of the filter.

The memory that is allocated at first has room for eight `int`s, and it is
not doubled before the thirty-second element. So a list of up to seven sizes
and its end marker is stored and validated as it should be, and a longer
one is stored outside the memory (`sizeFilter_right_iff`).
-/
import SpRtrace.Library.SizeFilter
import SpRtrace.Postproc.EnvironmentLog

namespace SpRtrace.Library

open SpRtrace.Lib SpRtrace.Common SpRtrace.Postproc

variable {w : Nat}

/-! ## Stores -/

/-- Memory with some elements stored in front. -/
def filledBlock (values : List (BitVec 32)) (free : Nat) : IntBlock :=
  values.map some ++ List.replicate free none

@[simp] theorem length_filledBlock (values : List (BitVec 32)) (free : Nat) :
    (filledBlock values free).length = values.length + free := by
  simp [filledBlock]

theorem storeInt_filled (values : List (BitVec 32)) (free : Nat) (value : BitVec 32) :
    storeInt (filledBlock values (free + 1)) values.length value
      = some (filledBlock (values ++ [value]) free) := by
  rw [storeInt, if_pos (by simp)]
  simp [filledBlock, List.replicate_succ]

theorem storeInt_full (values : List (BitVec 32)) (value : BitVec 32) :
    storeInt (filledBlock values 0) values.length value = none := by
  rw [storeInt, if_neg (by simp)]

/-- The loop as long as there is room. -/
theorem storeSizes_fits {limit : Nat} (hlimit : 8 < limit) (items : List Str)
    (values : List (BitVec 32)) (free : Nat) (hroom : values.length + free = 8)
    (hfits : items.length ≤ free) :
    storeSizes w (filledBlock values free) limit values.length items
      = some (filledBlock (values ++ items.map (atoi w)) (free - items.length),
          values.length + items.length) := by
  induction items generalizing values free with
  | nil => simp [storeSizes]
  | cons item items ih =>
    obtain ⟨left, rfl⟩ : ∃ left, free = left + 1 := ⟨free - 1, by simp at hfits; omega⟩
    have hnot : ¬ values.length + 1 = limit := by omega
    have hlen : (values ++ [atoi w item]).length = values.length + 1 := by simp
    have hnext := ih (values ++ [atoi w item]) left (by simp; omega)
      (by simpa using hfits)
    rw [hlen] at hnext
    simp only [storeSizes, if_neg hnot, storeInt_filled, Option.bind_eq_bind, Option.bind_some, hnext]
    simp [Nat.add_assoc, Nat.add_comm 1]

/-- The loop when there is not enough room. -/
theorem storeSizes_outside {limit : Nat} (hlimit : 9 < limit) (items : List Str)
    (values : List (BitVec 32)) (free : Nat) (hroom : values.length + free = 8)
    (hmore : free < items.length) :
    storeSizes w (filledBlock values free) limit values.length items = none := by
  induction items generalizing values free with
  | nil => exact absurd hmore (Nat.not_lt_zero _)
  | cons item items ih =>
    have hnot : ¬ values.length + 1 = limit := by omega
    cases free with
    | zero =>
      simp only [storeSizes, if_neg hnot, storeInt_full, Option.bind_eq_bind, Option.bind_none]
    | succ left =>
      have hlen : (values ++ [atoi w item]).length = values.length + 1 := by simp
      have hnext := ih (values ++ [atoi w item]) left (by simp; omega)
        (by simpa using hmore)
      rw [hlen] at hnext
      simp only [storeSizes, if_neg hnot, storeInt_filled, Option.bind_eq_bind, Option.bind_some,
        hnext]

/-! ## The option -/

/-- The option of the filter: it is absent, or a list of sizes, each an
`int`, written in decimal and separated by commas. -/
inductive SizeOption : Option Str → Option (List Nat) → Prop
  | absent : SizeOption none none
  | given (items : List Str)
      (hitems : ∀ item ∈ items, item ≠ [] ∧ (∀ c ∈ item, isDigitOf 10 c = true) ∧
        digitsValue 10 item < 2 ^ 31) :
      SizeOption (some ([','].intercalate items)) (some (items.map (digitsValue 10)))

theorem atoi_digits (hw : 32 ≤ w) {item : Str} (hne : item ≠ [])
    (hdigits : ∀ c ∈ item, isDigitOf 10 c = true) (hlt : digitsValue 10 item < 2 ^ 31) :
    atoi w item = BitVec.ofNat 32 (digitsValue 10 item) := by
  have hscan := scanConv_dec_run hw hne hdigits rfl hlt (show Stops (isDigitOf 10) [] by simp)
  rw [List.append_nil] at hscan
  rw [atoi, hscan]

/-- The sizes of a list, as the filter has them. -/
def storedSizes (sizes : List Nat) : List (BitVec 32) := sizes.map (BitVec.ofNat 32)

theorem parts_of_option (hw : 32 ≤ w) {items : List Str}
    (hitems : ∀ item ∈ items, item ≠ [] ∧ (∀ c ∈ item, isDigitOf 10 c = true) ∧
      digitsValue 10 item < 2 ^ 31) :
    strtok ',' ([','].intercalate items) = items ∧
      items.map (atoi w) = storedSizes (items.map (digitsValue 10)) := by
  refine ⟨strtok_intercalate fun item hitem => ?_, ?_⟩
  · obtain ⟨hne, hdigits, -⟩ := hitems item hitem
    refine ⟨hne, fun hcomma => ?_⟩
    exact absurd (hdigits ',' hcomma) (by decide)
  · rw [storedSizes, List.map_map]
    refine List.map_congr_left fun item hitem => ?_
    obtain ⟨hne, hdigits, hlt⟩ := hitems item hitem
    exact atoi_digits hw hne hdigits hlt

/-- What the option leaves in the filter. -/
theorem spRtraceFilterParseSizeOpt_spec (hw : 32 ≤ w) (filter : RtraceFilter) {items : List Str}
    (hitems : ∀ item ∈ items, item ≠ [] ∧ (∀ c ∈ item, isDigitOf 10 c = true) ∧
      digitsValue 10 item < 2 ^ 31)
    (hlen : ([','].intercalate items).length < pathMax) :
    spRtraceFilterParseSizeOpt w filter (some ([','].intercalate items))
      = if items.length ≤ 7 then some { filter with
          sizeSet := some (filledBlock
            (storedSizes (items.map (digitsValue 10)) ++ [sizeUndefined]) (7 - items.length)) }
        else none := by
  obtain ⟨hparts, hvalues⟩ := parts_of_option hw hitems
  have hblock : mallocInts initialSizesetSize = filledBlock [] 8 := rfl
  have hlarge : 9 < initialSizesetSize := by decide
  rw [spRtraceFilterParseSizeOpt, if_neg (Nat.not_le.mpr hlen), hparts, hblock]
  split
  next hfew =>
    have hfits := storeSizes_fits (w := w) (Nat.lt_of_succ_lt hlarge) items [] 8 rfl (by omega)
    obtain ⟨left, hleft⟩ : ∃ left, 8 - items.length = left + 1 := ⟨7 - items.length, by omega⟩
    have hrest : left = 7 - items.length := by omega
    have hlast : ([] ++ items.map (atoi w)).length = 0 + items.length := by simp
    rw [List.length_nil, hleft, ← hlast] at hfits
    simp only [hfits, Option.bind_eq_bind, Option.bind_some, storeInt_filled, List.nil_append, hvalues,
      hrest]
  next hmany =>
    rcases Nat.lt_or_ge 8 items.length with hmore | hless
    · have houtside := storeSizes_outside (w := w) hlarge items [] 8 rfl hmore
      rw [List.length_nil] at houtside
      simp only [houtside, Option.bind_eq_bind, Option.bind_none]
    · have hfits := storeSizes_fits (w := w) (Nat.lt_of_succ_lt hlarge) items [] 8 rfl hless
      have hnone : 8 - items.length = 0 := by omega
      have hlast : ([] ++ items.map (atoi w)).length = 0 + items.length := by simp
      rw [List.length_nil, hnone, ← hlast] at hfits
      simp only [hfits, Option.bind_eq_bind, Option.bind_some, storeInt_full, Option.bind_none]

/-! ## Validation -/

/-- The type of a call is among those of the filter. -/
def TypeAmong (filterType type : BitVec 32) : Prop :=
  (type = ftypeAlloc ∧ filterType &&& filterTypeAlloc ≠ 0) ∨
    (type = ftypeFree ∧ filterType &&& filterTypeFree ≠ 0)

/-- The declared call types are the indices of the mapping. -/
theorem mask_of_type {type : BitVec 32} (htype : type ≤ ftypeAlloc) (filterType : BitVec 32) :
    ∃ mask, filterTypes[type.toNat]? = some mask ∧
      (mask &&& filterType = 0 ↔ ¬ TypeAmong filterType type) := by
  have hle : type.toNat ≤ 2 := htype
  obtain hundef | hfree | halloc : type = 0 ∨ type = ftypeFree ∨ type = ftypeAlloc := by
    have hcases : type.toNat = 0 ∨ type.toNat = 1 ∨ type.toNat = 2 := by omega
    exact hcases.imp (fun h => BitVec.eq_of_toNat_eq h)
      fun h => h.imp (fun h => BitVec.eq_of_toNat_eq h) fun h => BitVec.eq_of_toNat_eq h
  · subst hundef
    refine ⟨0, rfl, ?_⟩
    have hne : ¬ TypeAmong filterType 0 := fun h => h.elim (fun h => absurd h.1 (by decide))
      fun h => absurd h.1 (by decide)
    exact ⟨fun _ => hne, fun _ => BitVec.zero_and⟩
  · subst hfree
    refine ⟨filterTypeFree, rfl, ?_⟩
    have hiff : TypeAmong filterType ftypeFree ↔ filterType &&& filterTypeFree ≠ 0 :=
      ⟨fun h => h.elim (fun h => absurd h.1 (by decide)) And.right, fun h => Or.inr ⟨rfl, h⟩⟩
    rw [hiff, not_not, BitVec.and_comm]
  · subst halloc
    refine ⟨filterTypeAlloc, rfl, ?_⟩
    have hiff : TypeAmong filterType ftypeAlloc ↔ filterType &&& filterTypeAlloc ≠ 0 :=
      ⟨fun h => h.elim And.right fun h => absurd h.1 (by decide), fun h => Or.inl ⟨rfl, h⟩⟩
    rw [hiff, not_not, BitVec.and_comm]

/-- The scan finds what is in front of the end marker. -/
theorem scanSizes_filled {sizes : List (BitVec 32)} (hsizes : sizeUndefined ∉ sizes) (free : Nat)
    (resSize : BitVec 32) :
    scanSizes resSize (filledBlock (sizes ++ [sizeUndefined]) free)
      = some (decide (resSize ∈ sizes)) := by
  induction sizes with
  | nil => simp [filledBlock, scanSizes]
  | cons size sizes ih =>
    have hsize : size ≠ sizeUndefined := fun heq => hsizes (heq ▸ List.mem_cons_self ..)
    have hrest := ih fun hmem => hsizes (List.mem_cons_of_mem _ hmem)
    rw [filledBlock] at hrest ⊢
    rw [List.cons_append, List.map_cons, List.cons_append, scanSizes, if_neg hsize]
    by_cases heq : resSize = size
    · simp [heq]
    · rw [if_neg heq, hrest]
      simp [heq]

/-- The filter has the sizes in order with the end marker behind them, and
it accepts the calls of its types with one of the sizes. -/
structure FilterRight (type : BitVec 32) (sizes : Option (List Nat)) (filter : RtraceFilter) :
    Prop where
  stored : ∀ list ∈ sizes, ∃ block, filter.sizeSet = some block ∧
    (storedSizes list ++ [sizeUndefined]).map some <+: block
  validate : ∀ callType ≤ ftypeAlloc, ∀ resSize, ∃ accepted,
    spRtraceFilterValidate filter callType resSize = some accepted ∧
      (accepted = true ↔ TypeAmong type callType ∧ ∀ list ∈ sizes, resSize ∈ storedSizes list)

/-- A filter without a list accepts by type. -/
theorem validate_absent (type : BitVec 32) : FilterRight type none (spRtraceFilterCreate type) where
  stored := fun _ h => nomatch h
  validate := fun callType htype resSize => by
    obtain ⟨mask, hmask, hiff⟩ := mask_of_type htype type
    rw [spRtraceFilterValidate, hmask]
    by_cases hzero : mask &&& type = 0
    · exact ⟨false, if_pos hzero, by simp [hiff.mp hzero]⟩
    · exact ⟨true, if_neg hzero, by simpa using not_not.mp (hiff.not.mp hzero)⟩

/-- A filter with a list accepts by type and size. -/
theorem validate_filled (type : BitVec 32) {list : List Nat} (free : Nat)
    (hlist : ∀ size ∈ list, size < 2 ^ 31) :
    FilterRight type (some list)
      { type, sizeSet := some (filledBlock (storedSizes list ++ [sizeUndefined]) free) } where
  stored := fun found hfound => by
    obtain rfl := Option.some.inj hfound
    exact ⟨_, rfl, List.prefix_append ..⟩
  validate := fun callType htype resSize => by
    have hmarker : sizeUndefined ∉ storedSizes list := by
      intro hmem
      obtain ⟨size, hsize, heq⟩ := List.mem_map.mp hmem
      have hlt := hlist size hsize
      have hvalue := congrArg BitVec.toNat heq
      rw [BitVec.toNat_ofNat, Nat.mod_eq_of_lt (by omega)] at hvalue
      exact absurd (hvalue ▸ hlt) (by decide)
    obtain ⟨mask, hmask, hiff⟩ := mask_of_type htype type
    rw [spRtraceFilterValidate, hmask]
    by_cases hzero : mask &&& type = 0
    · exact ⟨false, if_pos hzero, by simp [hiff.mp hzero]⟩
    · refine ⟨decide (resSize ∈ storedSizes list), ?_, ?_⟩
      · exact (if_neg hzero).trans (scanSizes_filled hmarker free resSize)
      · simp [not_not.mp (hiff.not.mp hzero)]

/-- **The size option**: it is stored inside the memory, and the calls are
accepted as they should be, if and only if there are at most seven
sizes. -/
theorem sizeFilter_right_iff (hw : 32 ≤ w) (type : BitVec 32) {opt : Option Str}
    {sizes : Option (List Nat)} (hopt : SizeOption opt sizes)
    (hlen : ∀ text ∈ opt, text.length < pathMax) :
    (∃ filter, spRtraceFilterParseSizeOpt w (spRtraceFilterCreate type) opt = some filter ∧
      FilterRight type sizes filter) ↔ ∀ list ∈ sizes, list.length ≤ 7 := by
  cases hopt with
  | absent =>
    exact iff_of_true ⟨spRtraceFilterCreate type, rfl, validate_absent type⟩ fun _ h => nomatch h
  | given items hitems =>
    have hspec := spRtraceFilterParseSizeOpt_spec hw (spRtraceFilterCreate type) hitems (hlen _ rfl)
    have hlist : ∀ size ∈ items.map (digitsValue 10), size < 2 ^ 31 := by
      intro size hsize
      obtain ⟨item, hitem, rfl⟩ := List.mem_map.mp hsize
      exact (hitems item hitem).2.2
    constructor
    · intro hright list hsizes
      obtain rfl := Option.some.inj hsizes
      obtain ⟨filter, hparse, -⟩ := hright
      rw [List.length_map]
      by_contra hmany
      rw [hspec, if_neg hmany] at hparse
      exact absurd hparse (by simp)
    · intro hfew
      have hlen := hfew _ rfl
      rw [List.length_map] at hlen
      exact ⟨_, hspec.trans (if_pos hlen), validate_filled type _ hlist⟩

/-- The sizes of an option in decimal. -/
theorem sizeOption_items {text : Str} {sizes : List Nat} (items : List Str)
    (htext : text = [','].intercalate items) (hsizes : sizes = items.map (digitsValue 10))
    (hitems : ∀ item ∈ items, item ≠ [] ∧ (∀ c ∈ item, isDigitOf 10 c = true) ∧
      digitsValue 10 item < 2 ^ 31) : SizeOption (some text) (some sizes) := by
  rw [htext, hsizes]
  exact SizeOption.given items hitems

/-- The option with the sizes 16 and 4096. -/
theorem sizeFilter_right_iff_two :
    ∃ filter, spRtraceFilterParseSizeOpt 64 (spRtraceFilterCreate filterTypeAlloc)
        (some "16,4096".toList) = some filter ∧
      FilterRight filterTypeAlloc (some [16, 4096]) filter :=
  (sizeFilter_right_iff (by decide) filterTypeAlloc
    (sizeOption_items ["16".toList, "4096".toList] (by decide +kernel) (by decide +kernel)
      (by simp [digitsValue, digitVal, isDigitOf])) (by decide +kernel)).mpr (by decide)

/-- The end marker behind eight sizes is stored outside the memory. -/
theorem sizeFilter_eight :
    SizeOption (some "1,2,3,4,5,6,7,8".toList) (some [1, 2, 3, 4, 5, 6, 7, 8]) ∧
      spRtraceFilterParseSizeOpt 64 (spRtraceFilterCreate filterTypeAlloc)
        (some "1,2,3,4,5,6,7,8".toList) = none :=
  ⟨sizeOption_items (["1", "2", "3", "4", "5", "6", "7", "8"].map String.toList)
    (by decide +kernel) (by decide +kernel) (by simp [digitsValue, digitVal, isDigitOf]),
    by decide +kernel⟩

end SpRtrace.Library
