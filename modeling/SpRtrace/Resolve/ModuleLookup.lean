/-
SpRtrace.Resolve.ModuleLookup — the mapping of an address,
`rs_mmap_add_module` and `rs_mmap_find_module` of
`src/rtrace-resolve/resolver.c`.

`mmap_compare` takes the end of a mapping for a part of it and returns
the difference of the starts as a signed number. The lookup is right
exactly if there is room for the mappings and bisection is led to a
mapping that begins before the address and does not end before it just
when the address is not its end (`rsMmapFindModule_right_iff`). Where no
two addresses are half the address space apart, this is a condition on the
mapping that ends at the address alone (`steered_iff_endsApart`).
-/
import SpRtrace.Resolve.Resolver

namespace SpRtrace.Resolve

open SpRtrace.Lib SpRtrace.Common

variable {w : Nat} {sym : Symbols w} {mappings : List (Mmap w)} {rs : RsMaps w} {a : BitVec w}

/-! ## Mappings and addresses -/

/-- The half-open range of a mapping contains the address. -/
def Covers (m : Mmap w) (a : BitVec w) : Prop := m.fromAddr ≤ a ∧ a < m.toAddr

/-- Disjoint half-open ranges. -/
def Apart (m m' : Mmap w) : Prop := ∀ a, ¬ (Covers m a ∧ Covers m' a)

def RsMmap.added (map : RsMmap w) : Mmap w :=
  { fromAddr := map.fromAddr, toAddr := map.toAddr, moduleName := map.module }

/-- `rs_mmap_add_module`; `none` where nothing is added. -/
def addModule (sym : Symbols w) (rs : RsMaps w) (m : Mmap w) : Option (RsMaps w) :=
  match rsMmapAddModule sym rs m.moduleName m.fromAddr m.toAddr with
  | .error _ => none
  | .ok added => added

/-- Each mapping is added, to an empty cache. -/
def addModules (sym : Symbols w) (mappings : List (Mmap w)) : Option (RsMaps w) :=
  mappings.foldlM (addModule sym) .init

/-- The lookup returns the mapping that covers the address, and NULL if
there is none. This does not mention the order of the mappings. -/
def FindsModule (mappings : List (Mmap w)) (a : BitVec w) (found : Option (RsMmap w)) : Prop :=
  ∀ m, found.map RsMmap.added = some m ↔ m ∈ mappings ∧ Covers m a

/-- The mappings are added, and the lookup of the address is right then. -/
def ModuleFound (sym : Symbols w) (mappings : List (Mmap w)) (a : BitVec w) : Prop :=
  ∃ rs, addModules sym mappings = some rs ∧
    FindsModule mappings a (rsMmapFindModule rs.mmaps a)

/-- The record that `rs_mmap_find_module` searches for. -/
def template (a : BitVec w) : RsMmap w :=
  { id := 0, module := [], fromAddr := a, toAddr := 0, isAbsolute := false }

/-- The comparison takes the address for a part of the mapping. -/
def Touches (map : RsMmap w) (a : BitVec w) : Prop :=
  (map.fromAddr ≤ a ∧ a ≤ map.toAddr) ∨ a = map.fromAddr

/-- Bisection is led to the mappings that cover the address, and led to no
mapping that ends there. -/
def Steered (mmaps : List (RsMmap w)) (a : BitVec w) : Prop :=
  ∀ i map, mmaps[i]? = some map → Touches map a →
    (Steers mmapCompare mmaps (template a) i ↔ a < map.toAddr)

theorem mmapCompare_template_eq_zero {map : RsMmap w} :
    mmapCompare (template a) map = 0 ↔ Touches map a := by
  have hzero : (a - map.fromAddr).toInt = 0 ↔ a = map.fromAddr := by
    rw [← BitVec.toInt_zero (w := w), BitVec.toInt_inj, BitVec.sub_eq_iff_eq_add, BitVec.zero_add]
  unfold mmapCompare Touches
  split
  · rename_i hin
    exact iff_of_true rfl (.inl hin)
  · rename_i hout
    exact hzero.trans ⟨.inr, fun h => h.resolve_left hout⟩

theorem addModule_some {rs₀ : RsMaps w} {m : Mmap w} (h : addModule sym rs₀ m = some rs) :
    ∃ map, map.added = m ∧ rs.mmaps.items = insertSorted mmapCompare rs₀.mmaps.items map := by
  unfold addModule at h
  split at h
  · exact absurd h (by simp)
  next added hadd =>
    obtain rfl := h
    obtain ⟨map, hmodule, hfrom, hto, hitems, -⟩ := rsMmapAddModule_some hadd
    exact ⟨map, by rw [RsMmap.added, hmodule, hfrom, hto], hitems⟩

theorem addModules_from {rs₀ : RsMaps w} (h : mappings.foldlM (addModule sym) rs₀ = some rs) :
    (rs.mmaps.items.map RsMmap.added).Perm (rs₀.mmaps.items.map RsMmap.added ++ mappings) := by
  induction mappings generalizing rs₀ with
  | nil =>
    obtain rfl := Option.some.inj h
    rw [List.append_nil]
  | cons m mappings ih =>
    rw [List.foldlM_cons, Option.bind_eq_bind, Option.bind_eq_some_iff] at h
    obtain ⟨rs₁, hadd, hrest⟩ := h
    obtain ⟨map, rfl, hitems⟩ := addModule_some hadd
    refine (ih hrest).trans ?_
    rw [hitems]
    refine ((insertSorted_perm.map RsMmap.added).append_right mappings).trans ?_
    exact List.perm_middle.symm

/-- The array holds what was added. -/
theorem addModules_perm (h : addModules sym mappings = some rs) :
    (rs.mmaps.items.map RsMmap.added).Perm mappings := by
  have hperm := addModules_from h
  rwa [RsMaps.init, SmallArray.items_init] at hperm

/-- There is room for fewer than 2^30 mappings. -/
theorem addModules_iff (habs : ∀ m ∈ mappings, sym.isAbsolute m.moduleName ≠ none) :
    (∃ rs, addModules sym mappings = some rs) ↔ mappings.length < 2 ^ 30 := by
  constructor
  · rintro ⟨rs, hadd⟩
    rw [← (addModules_perm hadd).length_eq, List.length_map]
    exact rs.mmaps.holds.2
  · induction mappings using List.reverseRecOn with
    | nil => exact fun _ => ⟨_, rfl⟩
    | append_singleton mappings m ih =>
      intro hlen
      rw [List.length_append, List.length_singleton] at hlen
      obtain ⟨rs, hadd⟩ := ih (fun m hm => habs m (List.mem_append_left _ hm)) (by omega)
      have hindex : rs.mmapsIndex.length = mappings.length := by
        rw [← rs.size_eq, ← (addModules_perm hadd).length_eq, List.length_map]
      obtain ⟨rs', hadd'⟩ := rsMmapAddModule_room (habs m (by simp))
        (show rs.mmapsIndex.length + 1 < 2 ^ 30 by omega) m.fromAddr m.toAddr
      refine ⟨rs', ?_⟩
      rw [addModules, List.foldlM_append, show mappings.foldlM (addModule sym) .init = some rs from hadd,
        Option.bind_eq_bind, Option.bind_some, List.foldlM_cons, addModule, hadd']
      rfl

theorem Apart.symm {m m' : Mmap w} (h : Apart m m') : Apart m' m := fun a ha => h a ha.symm

/-- A place of the array is known by an address that its mapping covers. -/
theorem covered_index (hapart : (rs.mmaps.items.map RsMmap.added).Pairwise Apart) {i j : Nat}
    {x y : RsMmap w} (hx : rs.mmaps.items[i]? = some x) (hy : rs.mmaps.items[j]? = some y)
    (hxa : Covers x.added a) (hya : Covers y.added a) : i = j := by
  obtain ⟨hi, rfl⟩ := List.getElem?_eq_some_iff.mp hx
  obtain ⟨hj, rfl⟩ := List.getElem?_eq_some_iff.mp hy
  rw [List.pairwise_map, List.pairwise_iff_getElem] at hapart
  rcases Nat.lt_trichotomy i j with hlt | heq | hgt
  · exact absurd ⟨hxa, hya⟩ (hapart i j hi hj hlt a)
  · exact heq
  · exact absurd ⟨hya, hxa⟩ (hapart j i hj hi hgt a)

theorem Covers.touches {map : RsMmap w} (h : Covers map.added a) : Touches map a :=
  .inl ⟨h.1, BitVec.le_of_lt h.2⟩

theorem Touches.covers {map : RsMmap w} (h : Touches map a) (hlt : a < map.toAddr) :
    Covers map.added a := by
  refine ⟨?_, hlt⟩
  rcases h with h | rfl
  · exact h.1
  · exact BitVec.le_refl _

/-- The lookup is right exactly if bisection is led right. -/
theorem findsModule_iff_steered (hapart : mappings.Pairwise Apart)
    (hadd : addModules sym mappings = some rs) (a : BitVec w) :
    FindsModule mappings a (rsMmapFindModule rs.mmaps a) ↔ Steered rs.mmaps.items a := by
  have hperm := addModules_perm hadd
  have hapart' : (rs.mmaps.items.map RsMmap.added).Pairwise Apart :=
    (hperm.pairwise_iff fun h => Apart.symm h).mpr hapart
  have hfound : ∀ map, rsMmapFindModule rs.mmaps a = some map ↔
      ∃ i, rs.mmaps.items[i]? = some map ∧ Touches map a ∧
        Steers mmapCompare rs.mmaps.items (template a) i := by
    intro map
    rw [rsMmapFindModule, ← template, SmallArray.find_eq, bisect_iff]
    simp only [mmapCompare_template_eq_zero]
  constructor
  · intro h i map hmap htouch
    constructor
    · intro hsteers
      have hsome := (hfound map).mpr ⟨i, hmap, htouch, hsteers⟩
      exact ((h map.added).mp (by rw [hsome]; rfl)).2.2
    · intro hlt
      have hcovers := htouch.covers hlt
      have hmem : map.added ∈ mappings :=
        hperm.subset (List.mem_map_of_mem (List.mem_of_getElem? hmap))
      obtain ⟨map', hsome, hsame⟩ := Option.map_eq_some_iff.mp ((h map.added).mpr ⟨hmem, hcovers⟩)
      obtain ⟨j, hmap', -, hsteers⟩ := (hfound map').mp hsome
      rw [covered_index hapart' hmap hmap' hcovers (hsame ▸ hcovers)]
      exact hsteers
  · intro h m
    rw [Option.map_eq_some_iff]
    constructor
    · intro hm
      obtain ⟨map, hsome, rfl⟩ := hm
      obtain ⟨i, hmap, htouch, hsteers⟩ := (hfound map).mp hsome
      exact ⟨hperm.subset (List.mem_map_of_mem (List.mem_of_getElem? hmap)),
        htouch.covers ((h i map hmap htouch).mp hsteers)⟩
    · intro hm
      obtain ⟨hmem, hcovers⟩ := hm
      obtain ⟨map, hmap, rfl⟩ := List.mem_map.mp (hperm.symm.subset hmem)
      obtain ⟨i, hi⟩ := List.mem_iff_getElem?.mp hmap
      exact ⟨map, (hfound map).mpr ⟨i, hi, hcovers.touches,
        (h i map hi hcovers.touches).mpr hcovers.2⟩, rfl⟩

/-! ## Addresses that are near each other -/

/-- The half of the address space that each start and the address are
apart from each other. -/
def Near (mappings : List (Mmap w)) (a : BitVec w) : Prop :=
  ∀ x ∈ a :: mappings.map Mmap.fromAddr, ∀ y ∈ a :: mappings.map Mmap.fromAddr,
    2 * x.toNat < 2 * y.toNat + 2 ^ w

/-- The place of a mapping in the sorted array. -/
def rank (mappings : List (Mmap w)) (m : Mmap w) : Nat :=
  mappings.countP fun m' => m'.fromAddr < m.fromAddr

/-- A mapping that ends at the address has another one behind it, and
bisection does not look at it on the way to that one. -/
def EndsApart (mappings : List (Mmap w)) (a : BitVec w) : Prop :=
  ∀ m ∈ mappings, m.toAddr = a → ∃ m' ∈ mappings, m'.fromAddr = a ∧
    rank mappings m ∉ bisectPath 0 mappings.length (rank mappings m + 1)

theorem toInt_sub_of_near {x y : BitVec w} (hxy : 2 * x.toNat < 2 * y.toNat + 2 ^ w)
    (hyx : 2 * y.toNat < 2 * x.toNat + 2 ^ w) : (x - y).toInt = (x.toNat : Int) - y.toNat := by
  have hx := x.isLt
  have hy := y.isLt
  rw [BitVec.toInt_eq_toNat_cond, BitVec.toNat_sub]
  generalize 2 ^ w = p at *
  rcases Nat.lt_or_ge x.toNat y.toNat with hlt | hge
  · rw [Nat.mod_eq_of_lt (by omega), if_neg (by omega)]
    omega
  · rw [show p - y.toNat + x.toNat = x.toNat - y.toNat + p by omega, Nat.add_mod_right,
      Nat.mod_eq_of_lt (by omega), if_pos (by omega)]
    omega

section Signs

variable {x y : RsMmap w} (hxy : 2 * x.fromAddr.toNat < 2 * y.fromAddr.toNat + 2 ^ w)
  (hyx : 2 * y.fromAddr.toNat < 2 * x.fromAddr.toNat + 2 ^ w)

include hxy hyx

theorem mmapCompare_neg : mmapCompare x y < 0 ↔ x.fromAddr < y.fromAddr := by
  unfold mmapCompare
  simp only [BitVec.le_def, BitVec.lt_def]
  split
  · omega
  · rw [toInt_sub_of_near hxy hyx]
    omega

theorem mmapCompare_pos (hle : y.fromAddr ≤ y.toAddr) :
    0 < mmapCompare x y ↔ y.toAddr < x.fromAddr := by
  unfold mmapCompare
  simp only [BitVec.le_def, BitVec.lt_def] at *
  split
  · omega
  · rw [toInt_sub_of_near hxy hyx]
    omega

end Signs

/-- Mappings with disjoint ranges that are not empty, near each other and
near the address. -/
structure Separate (mappings : List (Mmap w)) (a : BitVec w) : Prop where
  apart : mappings.Pairwise Apart
  nonempty : ∀ m ∈ mappings, m.fromAddr < m.toAddr
  near : Near mappings a

theorem Separate.perm {mappings' : List (Mmap w)} (h : Separate mappings a)
    (hperm : mappings'.Perm mappings) : Separate mappings' a where
  apart := (hperm.pairwise_iff fun h => Apart.symm h).mpr h.apart
  nonempty m hm := h.nonempty m (hperm.subset hm)
  near x hx y hy :=
    h.near x (((hperm.map Mmap.fromAddr).cons a).subset hx)
      y (((hperm.map Mmap.fromAddr).cons a).subset hy)

theorem Separate.sublist {mappings' : List (Mmap w)} (h : Separate mappings a)
    (hsub : mappings'.Sublist mappings) : Separate mappings' a where
  apart := h.apart.sublist hsub
  nonempty m hm := h.nonempty m (hsub.subset hm)
  near x hx y hy :=
    h.near x (((hsub.map Mmap.fromAddr).cons_cons a).subset hx)
      y (((hsub.map Mmap.fromAddr).cons_cons a).subset hy)

/-- A range that begins before another one ends before that one begins. -/
theorem Apart.end_le {m m' : Mmap w} (h : Apart m m') (hm' : m'.fromAddr < m'.toAddr)
    (hlt : m.fromAddr < m'.fromAddr) : m.toAddr ≤ m'.fromAddr := by
  by_contra hin
  rw [BitVec.not_le] at hin
  exact h m'.fromAddr ⟨⟨BitVec.le_of_lt hlt, hin⟩, BitVec.le_refl _, hm'⟩

theorem Apart.start_ne {m m' : Mmap w} (h : Apart m m') (hm : m.fromAddr < m.toAddr)
    (hm' : m'.fromAddr < m'.toAddr) : m.fromAddr ≠ m'.fromAddr := by
  intro heq
  exact h m.fromAddr ⟨⟨BitVec.le_refl _, hm⟩, heq ▸ BitVec.le_refl _, heq ▸ hm'⟩

/-- The array in the order of the addresses. -/
abbrev Sorted (mmaps : List (RsMmap w)) : Prop :=
  mmaps.Pairwise fun x y => x.fromAddr < y.fromAddr

/-- One mapping goes to its place. -/
theorem insertSorted_sorted {mmaps : List (RsMmap w)} {map : RsMmap w} (hsorted : Sorted mmaps)
    (h : Separate (map.added :: mmaps.map RsMmap.added) a) :
    Sorted (insertSorted mmapCompare mmaps map) := by
  have hadded : ∀ x ∈ mmaps, x.added ∈ map.added :: mmaps.map RsMmap.added := fun x hx =>
    List.mem_cons_of_mem _ (List.mem_map_of_mem hx)
  have hstart : ∀ x : RsMmap w, x.added ∈ map.added :: mmaps.map RsMmap.added →
      x.fromAddr ∈ a :: (map.added :: mmaps.map RsMmap.added).map Mmap.fromAddr := fun x hx =>
    List.mem_cons_of_mem _ (List.mem_map_of_mem hx)
  have hsign : ∀ x ∈ mmaps, (mmapCompare map x < 0 ↔ map.fromAddr < x.fromAddr) := fun x hx =>
    mmapCompare_neg (h.near _ (hstart map List.mem_cons_self) _ (hstart x (hadded x hx)))
      (h.near _ (hstart x (hadded x hx)) _ (hstart map List.mem_cons_self))
  refine insertSorted_pairwise (fun hxy hyz => BitVec.lt_trans hxy hyz) hsorted
    (fun x hx hneg => (hsign x hx).mp hneg) fun x hx hneg => ?_
  rw [hsign x hx, BitVec.not_lt] at hneg
  have hne := ((List.pairwise_cons.mp h.apart).1 _ (List.mem_map_of_mem hx)).start_ne
    (h.nonempty _ List.mem_cons_self) (h.nonempty _ (hadded x hx))
  exact BitVec.lt_of_le_ne hneg (Ne.symm hne)

theorem addModules_sorted_from {rs₀ : RsMaps w}
    (hadd : mappings.foldlM (addModule sym) rs₀ = some rs) (hsorted : Sorted rs₀.mmaps.items)
    (h : Separate (rs₀.mmaps.items.map RsMmap.added ++ mappings) a) :
    Sorted rs.mmaps.items := by
  induction mappings generalizing rs₀ with
  | nil =>
    obtain rfl := Option.some.inj hadd
    exact hsorted
  | cons m mappings ih =>
    rw [List.foldlM_cons, Option.bind_eq_bind, Option.bind_eq_some_iff] at hadd
    obtain ⟨rs₁, hone, hrest⟩ := hadd
    obtain ⟨map, rfl, hitems⟩ := addModule_some hone
    have hcons := h.perm List.perm_middle.symm
    refine ih hrest ?_ ?_
    · rw [hitems]
      exact insertSorted_sorted hsorted
        (hcons.sublist ((List.sublist_append_left _ _).cons_cons map.added))
    · rw [hitems]
      exact hcons.perm ((insertSorted_perm.map RsMmap.added).append_right mappings)

/-- In the order of the addresses a mapping is where its rank says. -/
theorem rank_of_sorted {mmaps : List (RsMmap w)} (hsorted : Sorted mmaps)
    (hperm : (mmaps.map RsMmap.added).Perm mappings) {i : Nat} {map : RsMmap w}
    (hmap : mmaps[i]? = some map) : rank mappings map.added = i := by
  obtain ⟨hi, hget⟩ := List.getElem?_eq_some_iff.mp hmap
  obtain ⟨front, back, rfl, rfl⟩ :
      ∃ front back, mmaps = front ++ map :: back ∧ front.length = i :=
    ⟨mmaps.take i, mmaps.drop (i + 1),
      by rw [← hget, List.cons_getElem_drop_succ, List.take_append_drop],
      List.length_take_of_le (Nat.le_of_lt hi)⟩
  rw [Sorted, List.pairwise_append, List.pairwise_cons] at hsorted
  obtain ⟨-, ⟨hback, -⟩, hfront⟩ := hsorted
  have hpast : ∀ x ∈ map :: back, ¬ x.fromAddr < map.fromAddr := by
    intro x hx
    rcases List.mem_cons.mp hx with rfl | hx
    · exact BitVec.lt_irrefl _
    · exact fun hlt => BitVec.lt_irrefl _ (BitVec.lt_trans hlt (hback x hx))
  rw [rank, ← hperm.countP_eq, List.countP_map, List.countP_append, List.countP_eq_length.mpr,
    List.countP_eq_zero.mpr, Nat.add_zero]
  · exact fun x hx hlt => hpast x hx (of_decide_eq_true hlt)
  · exact fun x hx => decide_eq_true (hfront x hx map List.mem_cons_self)

/-! ## The way to an address -/

section Way

variable {mmaps : List (RsMmap w)} (hsorted : Sorted mmaps)
  (h : Separate (mmaps.map RsMmap.added) a) {i j : Nat} {x y : RsMmap w}

theorem Separate.nonempty_at (h : Separate (mmaps.map RsMmap.added) a) (hx : mmaps[i]? = some x) :
    x.fromAddr < x.toAddr :=
  h.nonempty _ (List.mem_map_of_mem (List.mem_of_getElem? hx))

include hsorted

theorem Sorted.lt (hx : mmaps[i]? = some x) (hy : mmaps[j]? = some y) (hij : i < j) :
    x.fromAddr < y.fromAddr := by
  obtain ⟨hi, rfl⟩ := List.getElem?_eq_some_iff.mp hx
  obtain ⟨hj, rfl⟩ := List.getElem?_eq_some_iff.mp hy
  exact List.pairwise_iff_getElem.mp hsorted i j hi hj hij

include h

theorem Sorted.end_le (hx : mmaps[i]? = some x) (hy : mmaps[j]? = some y) (hij : i < j) :
    x.toAddr ≤ y.fromAddr := by
  have hlt := hsorted.lt hx hy hij
  obtain ⟨hi, rfl⟩ := List.getElem?_eq_some_iff.mp hx
  obtain ⟨hj, rfl⟩ := List.getElem?_eq_some_iff.mp hy
  have hapart := List.pairwise_iff_getElem.mp (List.pairwise_map.mp h.apart) i j hi hj hij
  exact hapart.end_le (h.nonempty _ (List.mem_map_of_mem (List.getElem_mem hj))) hlt

/-- A mapping that ends where another one begins is the one before it. -/
theorem next_of_ends (hx : mmaps[i]? = some x) (hy : mmaps[j]? = some y)
    (hends : x.toAddr = y.fromAddr) : j = i + 1 := by
  have hxne := h.nonempty_at hx
  have hij : i < j := by
    rcases Nat.lt_trichotomy i j with hlt | rfl | hgt
    · exact hlt
    · obtain rfl := Option.some.inj (hx.symm.trans hy)
      exact absurd (hends ▸ hxne) (BitVec.lt_irrefl _)
    · have hyx := hsorted.lt hy hx hgt
      exact absurd (BitVec.lt_trans hyx hxne) (hends ▸ BitVec.lt_irrefl _)
  by_contra hne
  have hnext : i + 1 < mmaps.length := by
    have := (List.getElem?_eq_some_iff.mp hy).1
    omega
  -- the start of a mapping between the two would be between them
  have hz := List.getElem?_eq_getElem hnext
  have hlow := hsorted.end_le h hx hz (Nat.lt_succ_self i)
  have hhigh := hsorted.lt hz hy (by omega)
  rw [hends] at hlow
  exact BitVec.lt_irrefl _ (Nat.lt_of_le_of_lt hlow hhigh)

/-- A comparison points to the place of a mapping that the address touches,
unless it looks at the other mapping that the address touches. -/
theorem pointsTo_iff (hx : mmaps[i]? = some x) (hlow : x.fromAddr ≤ a) (hhigh : a ≤ x.toAddr)
    (hy : mmaps[j]? = some y) :
    PointsTo mmapCompare mmaps (template a) i j ↔
      (i < j → y.fromAddr ≠ a) ∧ (j < i → y.toAddr ≠ a) := by
  have hmem : y.fromAddr ∈ a :: (mmaps.map RsMmap.added).map Mmap.fromAddr :=
    List.mem_cons_of_mem _
      (List.mem_map_of_mem (List.mem_map_of_mem (f := RsMmap.added) (List.mem_of_getElem? hy)))
  have hneg : mmapCompare (template a) y < 0 ↔ a < y.fromAddr :=
    mmapCompare_neg (h.near a List.mem_cons_self _ hmem) (h.near _ hmem a List.mem_cons_self)
  have hpos : 0 < mmapCompare (template a) y ↔ y.toAddr < a :=
    mmapCompare_pos (h.near a List.mem_cons_self _ hmem) (h.near _ hmem a List.mem_cons_self)
      (BitVec.le_of_lt (h.nonempty_at hy))
  have hfront : i < j → (a < y.fromAddr ↔ y.fromAddr ≠ a) := by
    intro hij
    have hle : a ≤ y.fromAddr := Nat.le_trans hhigh (hsorted.end_le h hx hy hij)
    exact ⟨fun hlt heq => BitVec.lt_irrefl _ (heq ▸ hlt),
      fun hne => BitVec.lt_of_le_ne hle (Ne.symm hne)⟩
  have hback : j < i → (y.toAddr < a ↔ y.toAddr ≠ a) := by
    intro hji
    have hle : y.toAddr ≤ a := Nat.le_trans (hsorted.end_le h hy hx hji) hlow
    exact ⟨fun hlt heq => BitVec.lt_irrefl _ (heq ▸ hlt), fun hne => BitVec.lt_of_le_ne hle hne⟩
  constructor
  · intro hpoints
    obtain ⟨hless, hgreater⟩ := hpoints y hy
    exact ⟨fun hij => (hfront hij).mp (hneg.mp (hless hij)),
      fun hji => (hback hji).mp (hpos.mp (hgreater hji))⟩
  · intro hpoints z hz
    obtain rfl := Option.some.inj (hy.symm.trans hz)
    exact ⟨fun hij => hneg.mpr ((hfront hij).mpr (hpoints.1 hij)),
      fun hji => hpos.mpr ((hback hji).mpr (hpoints.2 hji))⟩

/-- The way to the mapping of the address passes no mapping that ends
there. -/
theorem steers_covering (hx : mmaps[i]? = some x) (hlow : x.fromAddr ≤ a) (hhigh : a < x.toAddr) :
    Steers mmapCompare mmaps (template a) i ↔
      ∀ j y, mmaps[j]? = some y → y.toAddr = a → j ∉ bisectPath 0 mmaps.length i := by
  have hle := BitVec.le_of_lt hhigh
  constructor
  · intro hsteers j y hy hends hj
    have hstart : ¬ i < j := fun hij => by
      have := Nat.lt_of_lt_of_le hhigh (hsorted.end_le h hx hy hij)
      have hya : y.fromAddr < a := hends ▸ h.nonempty_at hy
      exact BitVec.lt_irrefl _ (BitVec.lt_trans hya this)
    have hne := (mem_bisectPath hj).1
    exact ((pointsTo_iff hsorted h hx hlow hle hy).mp (hsteers j hj)).2 (by omega) hends
  · intro hpast j hj
    have hlen := (mem_bisectPath hj).2.2
    have hy := List.getElem?_eq_getElem hlen
    refine (pointsTo_iff hsorted h hx hlow hle hy).mpr
      ⟨fun hij heq => ?_, fun _ hends => hpast j _ hy hends hj⟩
    have hend := hsorted.end_le h hx hy hij
    rw [heq] at hend
    exact BitVec.lt_irrefl _ (Nat.lt_of_lt_of_le hhigh hend)

/-- The way to a mapping that ends at the address passes no mapping that
begins there. -/
theorem steers_ending (hx : mmaps[i]? = some x) (hends : x.toAddr = a) :
    Steers mmapCompare mmaps (template a) i ↔
      ∀ j y, mmaps[j]? = some y → y.fromAddr = a → j ∉ bisectPath 0 mmaps.length i := by
  have hlow : x.fromAddr < a := hends ▸ h.nonempty_at hx
  have hle : a ≤ x.toAddr := hends ▸ BitVec.le_refl _
  constructor
  · intro hsteers j y hy hstart hj
    have hij := next_of_ends hsorted h hx hy (hends.trans hstart.symm)
    exact ((pointsTo_iff hsorted h hx (BitVec.le_of_lt hlow) hle hy).mp (hsteers j hj)).1
      (by omega) hstart
  · intro hpast j hj
    have hlen := (mem_bisectPath hj).2.2
    have hy := List.getElem?_eq_getElem hlen
    refine (pointsTo_iff hsorted h hx (BitVec.le_of_lt hlow) hle hy).mpr
      ⟨fun _ hstart => hpast j _ hy hstart hj, fun hji heq => ?_⟩
    have hend := hsorted.end_le h hy hx hji
    rw [heq] at hend
    exact BitVec.lt_irrefl _ (Nat.lt_of_le_of_lt hend hlow)

end Way

/-- Where all addresses are near each other the lookup goes wrong only at
the end of a mapping: nothing begins there, or bisection comes past the
mapping that ends there before the one that begins there. -/
theorem steered_iff_endsApart (h : Separate mappings a) (hadd : addModules sym mappings = some rs) :
    Steered rs.mmaps.items a ↔ EndsApart mappings a := by
  have hperm := addModules_perm hadd
  have hsorted : Sorted rs.mmaps.items :=
    addModules_sorted_from hadd (by simp [Sorted, RsMaps.init]) (by simpa [RsMaps.init] using h)
  have hsep := h.perm hperm
  have hlen : rs.mmaps.items.length = mappings.length := by
    rw [← hperm.length_eq, List.length_map]
  have hplace : ∀ m ∈ mappings, ∃ (i : Nat) (map : RsMmap w),
      rs.mmaps.items[i]? = some map ∧ map.added = m := by
    intro m hm
    obtain ⟨map, hmap, rfl⟩ := List.mem_map.mp (hperm.symm.subset hm)
    obtain ⟨i, hi⟩ := List.mem_iff_getElem?.mp hmap
    exact ⟨i, map, hi, rfl⟩
  have hmem : ∀ {i : Nat} {map : RsMmap w}, rs.mmaps.items[i]? = some map → map.added ∈ mappings := fun hmap =>
    hperm.subset (List.mem_map_of_mem (List.mem_of_getElem? hmap))
  -- of the mappings that meet at the address one is on the way to the other
  have hmeet : ∀ {i j : Nat} {x y : RsMmap w}, rs.mmaps.items[i]? = some x → rs.mmaps.items[j]? = some y →
      x.toAddr = a → y.fromAddr = a →
      (j ∈ bisectPath 0 rs.mmaps.items.length i ↔ i ∉ bisectPath 0 rs.mmaps.items.length j) ∧
      (rank mappings x.added ∉ bisectPath 0 mappings.length (rank mappings x.added + 1) ↔
        i ∉ bisectPath 0 rs.mmaps.items.length j) := by
    intro i j x y hx hy hend hstart
    obtain rfl := next_of_ends hsorted hsep hx hy (hend.trans hstart.symm)
    rw [rank_of_sorted hsorted hperm hx, hlen]
    exact ⟨bisectPath_adjacent (Nat.zero_le i) (hlen ▸ (List.getElem?_eq_some_iff.mp hy).1), .rfl⟩
  constructor
  · intro hsteered m hm hend
    obtain ⟨i, x, hx, rfl⟩ := hplace m hm
    have hlow : x.fromAddr < a := hend ▸ hsep.nonempty_at hx
    have hnot : ¬ Steers mmapCompare rs.mmaps.items (template a) i := by
      rw [hsteered i x hx (.inl ⟨BitVec.le_of_lt hlow, hend ▸ BitVec.le_refl _⟩)]
      exact hend ▸ BitVec.lt_irrefl _
    rw [steers_ending hsorted hsep hx hend] at hnot
    obtain ⟨j, y, hy, hstart, hj⟩ : ∃ (j : Nat) (y : RsMmap w), rs.mmaps.items[j]? = some y ∧ y.fromAddr = a ∧
        j ∈ bisectPath 0 rs.mmaps.items.length i := by
      by_contra hall
      exact hnot fun j y hy hstart hj => hall ⟨j, y, hy, hstart, hj⟩
    obtain ⟨hswap, hrank⟩ := hmeet hx hy hend hstart
    exact ⟨y.added, hmem hy, hstart, hrank.mpr (hswap.mp hj)⟩
  · intro hends
    have hcover : ∀ {i : Nat} {x : RsMmap w}, rs.mmaps.items[i]? = some x → x.fromAddr ≤ a → a < x.toAddr →
        Steers mmapCompare rs.mmaps.items (template a) i := by
      intro i x hx hlow hlt
      rw [steers_covering hsorted hsep hx hlow hlt]
      intro k z hz hend hk
      obtain ⟨m', hm', hstart, hrank⟩ := hends _ (hmem hz) hend
      obtain ⟨j, y, hy, rfl⟩ := hplace m' hm'
      have hcovers : Covers y.added a := ⟨hstart ▸ BitVec.le_refl _, hstart ▸ hsep.nonempty_at hy⟩
      obtain rfl := covered_index hsep.apart hx hy ⟨hlow, hlt⟩ hcovers
      exact (hmeet hz hy hend hstart).2.mp hrank hk
    intro i x hx htouch
    have hlow : x.fromAddr ≤ a := htouch.elim And.left fun heq => heq ▸ BitVec.le_refl _
    by_cases hend : x.toAddr = a
    · -- the mapping that begins at the address is on the way
      rw [steers_ending hsorted hsep hx hend]
      refine iff_of_false (fun hpast => ?_) (hend ▸ BitVec.lt_irrefl _)
      obtain ⟨m', hm', hstart, hrank⟩ := hends _ (hmem hx) hend
      obtain ⟨j, y, hy, rfl⟩ := hplace m' hm'
      obtain ⟨hswap, hrank'⟩ := hmeet hx hy hend hstart
      exact hpast j y hy hstart (hswap.mpr (hrank'.mp hrank))
    · have hlt : a < x.toAddr := by
        rcases htouch with ⟨-, hhigh⟩ | rfl
        · exact BitVec.lt_of_le_ne hhigh (Ne.symm hend)
        · exact hsep.nonempty_at hx
      exact iff_of_true (hcover hx hlow hlt) hlt

/-- **The mapping of an address**: for mappings with disjoint ranges, added
in any order, the lookup is right exactly if they are fewer than 2^30 and
bisection is led to the mapping that covers the address and to none that
ends there. Where all addresses are near each other this depends on the
mapping that ends at the address, and not on the order. -/
theorem rsMmapFindModule_right_iff (hapart : mappings.Pairwise Apart)
    (habs : ∀ m ∈ mappings, sym.isAbsolute m.moduleName ≠ none) (a : BitVec w) :
    (ModuleFound sym mappings a ↔ mappings.length < 2 ^ 30 ∧
        ∀ rs, addModules sym mappings = some rs → Steered rs.mmaps.items a) ∧
      ((∀ m ∈ mappings, m.fromAddr < m.toAddr) → Near mappings a →
        (ModuleFound sym mappings a ↔ mappings.length < 2 ^ 30 ∧ EndsApart mappings a)) := by
  have hroom := addModules_iff habs
  constructor
  · constructor
    · rintro ⟨rs, hadd, hfinds⟩
      refine ⟨hroom.mp ⟨rs, hadd⟩, fun rs' hadd' => ?_⟩
      obtain rfl := Option.some.inj (hadd.symm.trans hadd')
      exact (findsModule_iff_steered hapart hadd a).mp hfinds
    · rintro ⟨hlen, hsteered⟩
      obtain ⟨rs, hadd⟩ := hroom.mpr hlen
      exact ⟨rs, hadd, (findsModule_iff_steered hapart hadd a).mpr (hsteered rs hadd)⟩
  · intro hnonempty hnear
    have hends : ∀ rs, addModules sym mappings = some rs →
        (FindsModule mappings a (rsMmapFindModule rs.mmaps a) ↔ EndsApart mappings a) :=
      fun rs hadd => (findsModule_iff_steered hapart hadd a).trans
        (steered_iff_endsApart ⟨hapart, hnonempty, hnear⟩ hadd)
    constructor
    · rintro ⟨rs, hadd, hfinds⟩
      exact ⟨hroom.mp ⟨rs, hadd⟩, (hends rs hadd).mp hfinds⟩
    · rintro ⟨hlen, hapart⟩
      obtain ⟨rs, hadd⟩ := hroom.mpr hlen
      exact ⟨rs, hadd, (hends rs hadd).mpr hapart⟩

/-! ## Two mappings side by side -/

/-- Symbols of modules that are all absolute, and not read. -/
def absoluteSymbols : Symbols 64 where
  isAbsolute _ := some true
  loads _ := false
  addressInfo _ _ := none

def pages : List (Mmap 64) :=
  [{ fromAddr := 0x1000, toAddr := 0x2000, moduleName := "a".toList },
    { fromAddr := 0x2000, toAddr := 0x3000, moduleName := "b".toList }]

theorem pages_apart : pages.Pairwise Apart := by
  rw [pages, List.pairwise_pair]
  intro a h
  obtain ⟨⟨-, hlt⟩, hge, -⟩ := h
  exact BitVec.lt_irrefl _ (Nat.lt_of_lt_of_le hlt hge)

/-- An address inside of the second module is found. -/
theorem rsMmapFindModule_right_pages : ModuleFound absoluteSymbols pages 0x2800 := by
  have hnear : Near pages 0x2800 := by
    simp [Near, pages]
  exact ((rsMmapFindModule_right_iff pages_apart (fun _ _ => by simp [absoluteSymbols]) 0x2800).2
    (by simp [pages]) hnear).mpr ⟨by simp [pages], by simp [EndsApart, pages]⟩

/-- The first address of the second module is taken for the end of the
first one. -/
theorem rsMmapFindModule_boundary :
    pages.Pairwise Apart ∧ (∃ rs, addModules absoluteSymbols pages = some rs) ∧
      ¬ ModuleFound absoluteSymbols pages 0x2000 := by
  have habs : ∀ m ∈ pages, absoluteSymbols.isAbsolute m.moduleName ≠ none :=
    fun _ _ => by simp [absoluteSymbols]
  refine ⟨pages_apart, (addModules_iff habs).mpr (by simp [pages]), ?_⟩
  rintro ⟨rs, hadd, hfinds⟩
  have hnear : Near pages 0x2000 := by
    simp [Near, pages]
  have hends := (steered_iff_endsApart ⟨pages_apart, by simp [pages], hnear⟩ hadd).mp
    ((findsModule_iff_steered pages_apart hadd 0x2000).mp hfinds)
  obtain ⟨m', -, -, hrank⟩ := hends _ (List.mem_cons_self ..) rfl
  revert hrank
  simp [pages, rank, bisectPath]

end SpRtrace.Resolve
