/-
SpRtrace.Resolve.SortedArray — the sorted array of
`src/rtrace-resolve/sarray.c` in memory.

The cells of the array are allocated in advance and doubled when they are
used up; an item is put in its place by moving the greater ones, and is
found by bisection. `insertSorted` and `bisect` say the same about the
list of the stored items; `Holds` is the relation between the two. A
`SmallArray` carries it, and has no other errors than those of its caller.

Sizes and places are of type `int`. A run ends with an error when an
allocation is refused, which a negative size always is, and when a cell is
read that is not stored. With more than 2^30 items the sum of two places
is greater than an `int` can be, and the place in the middle is negative
(`sarray_right_iff`).
-/
import SpRtrace.Lib.StableSort
import SpRtrace.Resolve.Sarray

namespace SpRtrace.Resolve

open SpRtrace.Lib

variable {α : Type*}

/-! ## The array -/

/-- How a call can fail: the program exits, a cell is accessed that is not
there, or a loop goes on. -/
inductive Stop
  | exit
  | fault
  | hang
  deriving DecidableEq

/-- The value that an `int` has behind an overflow. -/
def int32 (v : Int) : Int := v.bmod (2 ^ 32)

/-- `sarray_t`; the cells behind the stored items have no value. -/
structure Sarray (α : Type*) where
  data : List (Option α)
  size : Nat
  limit : Int

def loadCell (data : List (Option α)) (i : Int) : Except Stop α :=
  if 0 ≤ i then
    match data[i.toNat]? with
    | some (some x) => .ok x
    | _ => .error .fault
  else .error .fault

def storeCell (data : List (Option α)) (i : Nat) (x : α) : Except Stop (List (Option α)) :=
  if i < data.length then .ok (data.set i (some x)) else .error .fault

def Sarray.init (limit : Int) : Except Stop (Sarray α) :=
  if limit < 0 then .error .exit
  else .ok { data := List.replicate limit.toNat none, size := 0, limit }

/-- The array with room for one more item. -/
def Sarray.expand (array : Sarray α) : Except Stop (Sarray α) :=
  if array.size = array.limit then
    let limit := int32 (array.limit * 2)
    if limit < 0 then .error .exit
    else
      .ok { array with
        data := array.data ++ List.replicate (limit.toNat - array.data.length) none, limit }
  else .ok array

/-- The loop of `sarray_add`, down to the place of the item. -/
def shiftItems (compare : α → α → Int) (item : α) :
    Nat → List (Option α) → Except Stop (Nat × List (Option α))
  | 0, data => .ok (0, data)
  | idx + 1, data => do
      let x ← loadCell data idx
      if compare item x < 0 then
        let data ← storeCell data (idx + 1) x
        shiftItems compare item idx data
      else .ok (idx + 1, data)

def Sarray.add (compare : α → α → Int) (array : Sarray α) (item : α) : Except Stop (Sarray α) := do
  let array ← array.expand
  let (idx, data) ← shiftItems compare item array.size array.data
  let data ← storeCell data idx item
  .ok { array with data, size := array.size + 1 }

/-- The loop of `sarray_find`. -/
def Sarray.findLoop (compare : α → α → Int) (array : Sarray α) (item : α) :
    Nat → Int → Int → Except Stop (Option α)
  | 0, _, _ => .error .hang
  | fuel + 1, low, high => do
      let half := int32 (high + low) / 2
      let x ← loadCell array.data half
      let rc := compare item x
      if rc = 0 then .ok (some x)
      else
        let (low, high) := if rc < 0 then (low, half - 1) else (half + 1, high)
        if low ≤ high then array.findLoop compare item fuel low high else .ok none

/-- `sarray_find`; every round of the loop leaves less than it had. -/
def Sarray.find (compare : α → α → Int) (array : Sarray α) (item : α) :
    Except Stop (Option α) :=
  if array.size ≠ 0 then array.findLoop compare item array.size 0 (array.size - 1) else .ok none

/-- `sarray_init` and a sequence of `sarray_add`. -/
def Sarray.run (compare : α → α → Int) (limit : Int) (items : List α) : Except Stop (Sarray α) := do
  let array ← Sarray.init limit
  items.foldlM (Sarray.add compare) array

/-! ## Adding -/

variable {compare : α → α → Int} {array : Sarray α} {xs : List α} {item : α}

/-- The array holds the items of the list, in cells of which there are
`limit`. -/
structure Holds (array : Sarray α) (xs : List α) : Prop where
  size_eq : array.size = xs.length
  cells : ∃ spare : List (Option α), array.data = xs.map some ++ spare
  capacity : (array.data.length : Int) = array.limit
  positive : 1 ≤ array.limit
  isInt : array.limit < 2 ^ 31

theorem int32_of_small {v : Int} (hlow : -2 ^ 31 ≤ v) (hhigh : v < 2 ^ 31) : int32 v = v :=
  Int.bmod_eq_of_le (by omega) (by omega)

theorem int32_of_large {v : Int} (hlow : 2 ^ 31 ≤ v) (hhigh : v < 2 ^ 32) :
    int32 v = v - 2 ^ 32 := by
  have hmod : v % ((2 ^ 32 : Nat) : Int) = v := Int.emod_eq_of_lt (by omega) (by omega)
  rw [int32, Int.bmod_eq_emod, hmod, if_pos (by omega)]
  rfl

/-- There is room for one more item, unless the limit becomes too large. -/
theorem Holds.expand (h : Holds array xs) (hlen : xs.length < 2 ^ 30) :
    ∃ array', array.expand = .ok array' ∧ Holds array' xs ∧ xs.length < array'.data.length := by
  obtain ⟨spare, hdata⟩ := h.cells
  have hcapacity := h.capacity
  have hsize := h.size_eq
  have hpositive := h.positive
  have hle : xs.length ≤ array.data.length := by
    rw [hdata, List.length_append, List.length_map]
    omega
  unfold Sarray.expand
  by_cases hfull : (array.size : Int) = array.limit
  · have hdouble : int32 (array.limit * 2) = array.limit * 2 :=
      int32_of_small (by omega) (by omega)
    simp only [hfull, if_true, hdouble]
    rw [if_neg (by omega)]
    have hcells : (array.data ++ List.replicate ((array.limit * 2).toNat - array.data.length)
        (none : Option α)).length = (array.limit * 2).toNat := by
      rw [List.length_append, List.length_replicate]
      omega
    refine ⟨{ array with data := _, limit := array.limit * 2 }, rfl,
      { size_eq := hsize
        cells := ⟨_, by rw [hdata, List.append_assoc]⟩
        capacity := by
          rw [hcells]
          exact Int.toNat_of_nonneg (by omega)
        positive := ?_
        isInt := ?_ }, ?_⟩
    · simp only
      omega
    · simp only
      omega
    · rw [hcells]
      omega
  · rw [if_neg hfull]
    exact ⟨array, rfl, h, by omega⟩

theorem loadCell_stored {data spare : List (Option α)} (hdata : data = xs.map some ++ spare)
    {i : Nat} {x : α} (hx : xs[i]? = some x) : loadCell data (i : Int) = .ok x := by
  have hlt : i < (xs.map some).length := by
    rw [List.length_map]
    exact (List.getElem?_eq_some_iff.mp hx).1
  have hcell : data[i]? = some (some x) := by
    rw [hdata, List.getElem?_append_left hlt, List.getElem?_map, hx, Option.map_some]
  rw [loadCell, if_pos (by omega), Int.toNat_natCast, hcell]

/-- The items behind the place move by one cell. -/
theorem shiftItems_spec (compare : α → α → Int) (item : α) (data : List α) :
    ∀ (hole : Option α) (tail : List (Option α)), ∃ hole',
      shiftItems compare item data.length (data.map some ++ hole :: tail) =
        .ok ((frontOf compare item data).length,
          (frontOf compare item data).map some ++ hole' ::
            ((backOf compare item data).map some ++ tail)) := by
  induction data using List.reverseRecOn with
  | nil => exact fun hole tail => ⟨hole, rfl⟩
  | append_singleton data x ih =>
    intro hole tail
    have hlast : (data ++ [x])[data.length]? = some x := by simp
    have hload : loadCell ((data ++ [x]).map some ++ hole :: tail) (data.length : Int) = .ok x :=
      loadCell_stored rfl hlast
    rw [List.length_append, List.length_singleton, shiftItems, hload]
    simp only [bind, Except.bind]
    by_cases hlt : compare item x < 0
    · have hstore : storeCell ((data ++ [x]).map some ++ hole :: tail) (data.length + 1) x
          = .ok (data.map some ++ some x :: some x :: tail) := by
        rw [storeCell, if_pos (by simp)]
        simp
      obtain ⟨hole', hshift⟩ := ih (some x) (some x :: tail)
      rw [if_pos hlt, hstore, (frontOf_snoc_pos hlt data).1, (frontOf_snoc_pos hlt data).2]
      exact ⟨hole', by simp [hshift]⟩
    · rw [if_neg hlt, (frontOf_snoc_neg hlt data).1, (frontOf_snoc_neg hlt data).2]
      exact ⟨hole, by simp⟩

/-- **Adding refines the insertion in the list.** -/
theorem Holds.add (compare : α → α → Int) (h : Holds array xs) (hlen : xs.length < 2 ^ 30)
    (item : α) :
    ∃ array', array.add compare item = .ok array' ∧ Holds array' (insertSorted compare xs item) := by
  obtain ⟨grown, hgrown, hholds, hroom⟩ := h.expand hlen
  obtain ⟨spare, hdata⟩ := hholds.cells
  cases spare with
  | nil =>
    rw [hdata, List.append_nil, List.length_map] at hroom
    omega
  | cons hole tail =>
    obtain ⟨hole', hshift⟩ := shiftItems_spec compare item xs hole tail
    have hlength : (frontOf compare item xs).length + (backOf compare item xs).length = xs.length := by
      rw [← List.length_append, frontOf_append_backOf]
    have hstore : storeCell ((frontOf compare item xs).map some ++ hole' ::
          ((backOf compare item xs).map some ++ tail)) (frontOf compare item xs).length item
        = .ok ((insertSorted compare xs item).map some ++ tail) := by
      rw [storeCell, if_pos (by simp), insertSorted_split]
      simp
    refine ⟨{ grown with
      data := (insertSorted compare xs item).map some ++ tail, size := grown.size + 1 }, ?_,
      ?_, ⟨tail, rfl⟩, ?_, hholds.positive, hholds.isInt⟩
    · rw [Sarray.add, hgrown]
      simp only [bind, Except.bind]
      rw [hholds.size_eq, hdata, hshift]
      simp only [hstore]
    · simp only [hholds.size_eq, insertSorted_split, List.length_append, List.length_cons]
      omega
    · rw [← hholds.capacity, hdata]
      simp only [insertSorted_split, List.length_append, List.length_cons, List.length_map]
      omega

theorem Sarray.init_holds {limit : Int} (hpos : 1 ≤ limit) (hlimit : limit < 2 ^ 31) :
    ∃ array : Sarray α, Sarray.init limit = .ok array ∧ Holds array [] := by
  refine ⟨{ data := List.replicate limit.toNat none, size := 0, limit }, if_neg (by omega), rfl,
    ⟨_, rfl⟩, ?_, hpos, hlimit⟩
  simp only [List.length_replicate]
  omega

/-- The list of a sequence of items. -/
def sarrayList (compare : α → α → Int) (items : List α) : List α :=
  items.foldl (insertSorted compare) []

theorem sarrayList_snoc (items : List α) (item : α) :
    sarrayList compare (items ++ [item]) = insertSorted compare (sarrayList compare items) item := by
  rw [sarrayList, List.foldl_append]
  rfl

theorem sarrayList_perm (items : List α) : (sarrayList compare items).Perm items := by
  induction items using List.reverseRecOn with
  | nil => exact .refl _
  | append_singleton items item ih =>
    rw [sarrayList_snoc]
    exact insertSorted_perm.trans ((ih.cons item).trans (List.perm_append_singleton item items).symm)

/-- **A sequence of additions refines that of insertions**, up to 2^30
items. -/
theorem Sarray.run_holds {limit : Int} (hpos : 1 ≤ limit) (hlimit : limit < 2 ^ 31)
    {items : List α} (hlen : items.length ≤ 2 ^ 30) :
    ∃ array, Sarray.run compare limit items = .ok array ∧
      Holds array (sarrayList compare items) := by
  obtain ⟨start, hstart, hempty⟩ := Sarray.init_holds (α := α) hpos hlimit
  have hfold : ∃ array, items.foldlM (Sarray.add compare) start = .ok array ∧
      Holds array (sarrayList compare items) := by
    induction items using List.reverseRecOn with
    | nil => exact ⟨start, rfl, hempty⟩
    | append_singleton items item ih =>
      rw [List.length_append, List.length_singleton] at hlen
      obtain ⟨array, hrun, hholds⟩ := ih (by omega)
      have hshort : (sarrayList compare items).length < 2 ^ 30 := by
        rw [(sarrayList_perm items).length_eq]
        omega
      obtain ⟨array', hadd, hholds'⟩ := hholds.add compare hshort item
      refine ⟨array', ?_, ?_⟩
      · rw [List.foldlM_append, hrun]
        simp only [bind, Except.bind, List.foldlM_cons, hadd, List.foldlM_nil]
        rfl
      · rw [sarrayList_snoc]
        exact hholds'
  obtain ⟨array, hrun, hholds⟩ := hfold
  refine ⟨array, ?_, hholds⟩
  rw [Sarray.run, hstart]
  exact hrun

/-! ## Order -/

/-- The list is a stable sort of the items. -/
theorem sarrayList_sorted (hcompare : TotalPreorder compare) (items : List α) :
    StablySorted compare items (sarrayList compare items) := by
  induction items using List.reverseRecOn with
  | nil => exact stablySorted_nil
  | append_singleton items item ih =>
    rw [sarrayList_snoc, insertSorted_split]
    set data := sarrayList compare items with hdata
    rw [← frontOf_append_backOf compare item data] at ih
    refine ih.insert hcompare (fun b hb => ?_) fun b hb => backOf_less hb
    -- the last item in front is not greater, and the others are in front of it
    obtain ⟨init, last, hfront, hlast⟩ := frontOf_last (List.ne_nil_of_mem hb)
    have hle : compare last item ≤ 0 := by
      have := hcompare.swap item last
      omega
    rw [hfront, List.mem_append, List.mem_singleton] at hb
    rcases hb with hb | rfl
    · have hsorted := (List.pairwise_append.mp ih.ascending).1
      rw [hfront, List.pairwise_append] at hsorted
      exact hcompare.trans b last item (hsorted.2.2 b hb last (List.mem_singleton_self last)) hle
    · exact hle

/-! ## Finding -/

theorem Holds.load (h : Holds array xs) {i : Nat} {x : α} (hx : xs[i]? = some x) :
    loadCell array.data (i : Int) = .ok x := by
  obtain ⟨spare, hdata⟩ := h.cells
  exact loadCell_stored hdata hx

/-- Bisection in the array is that in the list, as long as no sum of two
places is too large. -/
theorem Holds.findLoop (h : Holds array xs) (hlen : xs.length ≤ 2 ^ 30) {item : α} :
    ∀ fuel low high : Nat, low < high → high ≤ xs.length → high - low ≤ fuel →
      array.findLoop compare item fuel (low : Int) ((high : Int) - 1)
        = .ok (bisectFrom compare xs item low high) := by
  intro fuel
  induction fuel with
  | zero => omega
  | succ fuel ih =>
    intro low high hlow hhigh hfuel
    have hsum : int32 ((high : Int) - 1 + low) = (high : Int) - 1 + low :=
      int32_of_small (by omega) (by omega)
    have hhalf : ((high : Int) - 1 + low) / 2 = (((high - 1 + low) / 2 : Nat) : Int) := by omega
    obtain ⟨x, hx⟩ : ∃ x, xs[(high - 1 + low) / 2]? = some x :=
      ⟨_, List.getElem?_eq_getElem (by omega)⟩
    rw [Sarray.findLoop, bisectFrom, if_pos hlow, hsum, hhalf, h.load hx]
    simp only [bind, Except.bind, hx]
    by_cases hzero : compare item x = 0
    · simp [hzero]
    · simp only [hzero, if_false]
      by_cases hneg : compare item x < 0
      · simp only [hneg, if_true]
        by_cases hleft : low < (high - 1 + low) / 2
        · rw [if_pos (by omega)]
          exact ih _ _ hleft (by omega) (by omega)
        · rw [if_neg (by omega), bisectFrom, if_neg hleft]
      · simp only [hneg, if_false]
        by_cases hright : (high - 1 + low) / 2 + 1 < high
        · rw [if_pos (by omega)]
          have := ih _ _ hright hhigh (by omega)
          push_cast at this
          exact this
        · rw [if_neg (by omega), bisectFrom, if_neg hright]

/-- **Finding refines the bisection of the list**, up to 2^30 items. -/
theorem Holds.find (h : Holds array xs) (hlen : xs.length ≤ 2 ^ 30) (item : α) :
    array.find compare item = .ok (bisect compare xs item) := by
  rw [Sarray.find, h.size_eq]
  by_cases hempty : xs.length = 0
  · rw [if_neg (by omega), List.length_eq_zero_iff.mp hempty, bisect_nil]
  · rw [if_pos hempty, bisect]
    exact h.findLoop hlen _ 0 _ (by omega) le_rfl (by omega)

theorem bisectFrom_sorted (hcompare : TotalPreorder compare)
    (hsorted : xs.Pairwise fun a b => compare a b ≤ 0) {item x : α} (hzero : compare item x = 0)
    {low high i : Nat} (hhigh : high ≤ xs.length) (hlow : low ≤ i) (hi : i < high)
    (hx : xs[i]? = some x) : (bisectFrom compare xs item low high).isSome := by
  have hle : ∀ {j k : Nat} {y z : α}, j ≤ k → xs[j]? = some y → xs[k]? = some z →
      compare y z ≤ 0 := by
    intro j k y z hjk hy hz
    obtain ⟨hj, rfl⟩ := List.getElem?_eq_some_iff.mp hy
    obtain ⟨hk, rfl⟩ := List.getElem?_eq_some_iff.mp hz
    rcases Nat.lt_or_eq_of_le hjk with hlt | rfl
    · exact List.pairwise_iff_getElem.mp hsorted j k hj hk hlt
    · exact (hcompare.self _).le
  fun_induction bisectFrom compare xs item low high with
  | case1 low high hlt half hnone =>
    rw [List.getElem?_eq_none_iff] at hnone
    omega
  | case2 low high hlt half y hy heq => rfl
  | case3 low high hlt half y hy hne hneg ih =>
    refine ih (by omega) hlow ?_
    by_contra hge
    have := hcompare.lt_of_lt_of_le hneg (hle (by omega) hy hx)
    omega
  | case4 low high hlt half y hy hne hpos ih =>
    refine ih hhigh ?_ hi
    by_contra hge
    have := hcompare.trans item x y hzero.le (hle (by omega) hx hy)
    omega
  | case5 low high hge => omega

/-- In a sorted list an equal item is found if there is one. -/
theorem bisect_sorted (hcompare : TotalPreorder compare)
    (hsorted : xs.Pairwise fun a b => compare a b ≤ 0) {item x : α} (hx : x ∈ xs)
    (hzero : compare item x = 0) : (bisect compare xs item).isSome := by
  obtain ⟨i, hi⟩ := List.mem_iff_getElem?.mp hx
  exact bisectFrom_sorted hcompare hsorted hzero le_rfl (Nat.zero_le i)
    (List.getElem?_eq_some_iff.mp hi).1 hi

/-! ## Small arrays -/

/-- A sorted array whose places, and the sums of two of them, are in the
range of an `int`. -/
structure SmallArray (α : Type*) where
  array : Sarray α
  small : ∃ xs, Holds array xs ∧ xs.length < 2 ^ 30

namespace SmallArray

def items (a : SmallArray α) : List α := (a.array.data.take a.array.size).filterMap id

theorem items_eq {a : SmallArray α} (h : Holds a.array xs) : a.items = xs := by
  obtain ⟨spare, hdata⟩ := h.cells
  rw [items, h.size_eq, hdata, List.take_append_of_le_length (by simp), List.take_of_length_le
    (by simp), List.filterMap_map]
  exact List.filterMap_some

theorem holds (a : SmallArray α) : Holds a.array a.items ∧ a.items.length < 2 ^ 30 := by
  obtain ⟨xs, hholds, hlen⟩ := a.small
  rw [items_eq hholds]
  exact ⟨hholds, hlen⟩

theorem init_ne {limit : Int} (h : 1 ≤ limit ∧ limit < 2 ^ 31) (stop : Stop) :
    (Sarray.init limit : Except Stop (Sarray α)) ≠ .error stop := by
  obtain ⟨array, hinit, -⟩ := Sarray.init_holds (α := α) h.1 h.2
  rw [hinit]
  simp

def init (limit : Int) (h : 1 ≤ limit ∧ limit < 2 ^ 31) : SmallArray α :=
  match hinit : Sarray.init limit with
  | .error stop => absurd hinit (init_ne h stop)
  | .ok array =>
      { array
        small := by
          obtain ⟨array', hinit', hholds⟩ := Sarray.init_holds (α := α) h.1 h.2
          obtain rfl := Except.ok.inj (hinit.symm.trans hinit')
          exact ⟨[], hholds, by simp⟩ }

@[simp] theorem items_init (limit : Int) (h : 1 ≤ limit ∧ limit < 2 ^ 31) :
    (init limit h : SmallArray α).items = [] := by
  unfold init
  split
  next stop hinit => exact absurd hinit (init_ne h stop)
  next array hinit =>
    obtain ⟨array', hinit', hholds⟩ := Sarray.init_holds (α := α) h.1 h.2
    obtain rfl := Except.ok.inj (hinit.symm.trans hinit')
    exact items_eq hholds

def find (compare : α → α → Int) (a : SmallArray α) (item : α) : Option α :=
  match hfind : a.array.find compare item with
  | .error _ => absurd (hfind.symm.trans (a.holds.1.find a.holds.2.le item)) (by simp)
  | .ok found => found

theorem find_eq (compare : α → α → Int) (a : SmallArray α) (item : α) :
    a.find compare item = bisect compare a.items item := by
  have hbisect : a.array.find compare item = .ok (bisect compare a.items item) :=
    a.holds.1.find a.holds.2.le item
  unfold find
  split
  next stop hfind => exact absurd (hfind.symm.trans hbisect) (by simp)
  next found hfind => exact Except.ok.inj (hfind.symm.trans hbisect)

def add (compare : α → α → Int) (a : SmallArray α) (item : α) (h : a.items.length + 1 < 2 ^ 30) :
    SmallArray α :=
  match hadd : a.array.add compare item with
  | .error _ =>
      absurd hadd (by
        obtain ⟨array', hadd', -⟩ := a.holds.1.add compare a.holds.2 item
        rw [hadd']
        simp)
  | .ok array =>
      { array
        small := by
          obtain ⟨array', hadd', hholds⟩ := a.holds.1.add compare a.holds.2 item
          obtain rfl := Except.ok.inj (hadd.symm.trans hadd')
          exact ⟨_, hholds, by rw [insertSorted_perm.length_eq]; exact h⟩ }

@[simp] theorem items_add (a : SmallArray α) (h : a.items.length + 1 < 2 ^ 30) :
    (a.add compare item h).items = insertSorted compare a.items item := by
  obtain ⟨array', hadd', hholds⟩ := a.holds.1.add compare a.holds.2 item
  unfold add
  split
  next stop hadd => exact absurd (hadd.symm.trans hadd') (by simp)
  next array hadd =>
    obtain rfl := Except.ok.inj (hadd.symm.trans hadd')
    exact items_eq hholds

end SmallArray

/-! ## How many items -/

/-- What a sorted array is for: behind a sequence of additions it holds a
stable sort of the items, and an equal item is found if and only if one
was added. -/
def SarrayRight (compare : α → α → Int) (limit : Int) (items : List α) : Prop :=
  ∃ array, Sarray.run compare limit items = .ok array ∧
    (∃ xs, Holds array xs ∧ StablySorted compare items xs) ∧
    ∀ item, ∃ found, array.find compare item = .ok found ∧
      (∀ x ∈ found, x ∈ items ∧ compare item x = 0) ∧
      (found = none → ∀ x ∈ items, compare item x ≠ 0)

theorem sarrayRight_of_le (hcompare : TotalPreorder compare) {limit : Int} (hpos : 1 ≤ limit)
    (hlimit : limit < 2 ^ 31) {items : List α} (hlen : items.length ≤ 2 ^ 30) :
    SarrayRight compare limit items := by
  obtain ⟨array, hrun, hholds⟩ := Sarray.run_holds hpos hlimit hlen
  have hsorted := sarrayList_sorted hcompare items
  have hlen' : (sarrayList compare items).length ≤ 2 ^ 30 := by
    rw [hsorted.perm.length_eq]
    exact hlen
  refine ⟨array, hrun, ⟨_, hholds, hsorted⟩, fun item => ⟨_, hholds.find hlen' item, ?_, ?_⟩⟩
  · intro x hx
    obtain ⟨i, hi, hzero, -⟩ := bisect_iff.mp hx
    exact ⟨hsorted.perm.mem_iff.mp (List.mem_of_getElem? hi), hzero⟩
  · intro hnone x hx hzero
    have hfound := bisect_sorted hcompare hsorted.ascending (hsorted.perm.mem_iff.mpr hx) hzero
    rw [hnone] at hfound
    exact absurd hfound (by simp)

/-- The numbers below `n`. -/
def numbers (n : Nat) : List Int := (List.range n).map fun i : Nat => (i : Int)

/-- The comparison of numbers by their difference. -/
def difference (a b : Int) : Int := a - b

theorem totalPreorder_difference : TotalPreorder difference :=
  ⟨fun a b => by simp only [difference]; omega, fun a b c hab hbc => by
    simp only [difference] at *
    omega⟩

theorem getElem?_numbers {n i : Nat} (h : i < n) : (numbers n)[i]? = some (i : Int) := by
  rw [numbers, List.getElem?_map, List.getElem?_range h, Option.map_some]

/-- The numbers have one sorted list. -/
theorem stablySorted_numbers {n : Nat} {xs : List Int}
    (h : StablySorted difference (numbers n) xs) : xs = numbers n := by
  have hascending : (numbers n).Pairwise (· ≤ ·) := by
    rw [numbers, List.pairwise_map]
    exact List.pairwise_lt_range.imp fun hab => by omega
  have hxs : xs.Pairwise (· ≤ ·) := h.ascending.imp fun hab => by
    rw [difference] at hab
    omega
  exact h.perm.eq_of_pairwise (fun a b _ _ hab hba => le_antisymm hab hba) hxs hascending

/-- On the way to the last of too many numbers a sum is too large, and the
place in the middle is negative. -/
theorem findLoop_overflow {n : Nat} (hmany : 2 ^ 30 < n) {array : Sarray Int}
    (h : Holds array (numbers n)) :
    ∀ fuel low : Nat, low < n → n - low ≤ fuel →
      array.findLoop difference ((n : Int) - 1) fuel (low : Int) ((n : Int) - 1)
        = .error .fault := by
  have hsmall : n < 2 ^ 31 := by
    obtain ⟨spare, hdata⟩ := h.cells
    have hcapacity := h.capacity
    have hint := h.isInt
    rw [hdata, List.length_append, List.length_map, numbers, List.length_map,
      List.length_range] at hcapacity
    omega
  intro fuel
  induction fuel with
  | zero => omega
  | succ fuel ih =>
    intro low hlow hfuel
    rw [Sarray.findLoop]
    by_cases hlarge : 2 ^ 31 ≤ (n : Int) - 1 + low
    · have hnegative : ¬ 0 ≤ ((n : Int) - 1 + low - 2 ^ 32) / 2 := by omega
      rw [int32_of_large hlarge (by omega), loadCell, if_neg hnegative]
      rfl
    · have hhalf : ((n : Int) - 1 + low) / 2 = (((n - 1 + low) / 2 : Nat) : Int) := by omega
      rw [int32_of_small (by omega) (by omega), hhalf, h.load (getElem?_numbers (by omega))]
      have hzero : difference ((n : Int) - 1) (((n - 1 + low) / 2 : Nat) : Int) ≠ 0 := by
        rw [difference]
        omega
      have hpos : ¬ difference ((n : Int) - 1) (((n - 1 + low) / 2 : Nat) : Int) < 0 := by
        rw [difference]
        omega
      simp only [bind, Except.bind, hzero, hpos, if_false]
      rw [if_pos (by omega)]
      have := ih ((n - 1 + low) / 2 + 1) (by omega) (by omega)
      push_cast at this ⊢
      exact this

theorem not_sarrayRight_numbers {n : Nat} (hmany : 2 ^ 30 < n) (limit : Int) :
    ¬ SarrayRight difference limit (numbers n) := by
  intro hright
  obtain ⟨array, -, hholds, hfind⟩ := hright
  obtain ⟨xs, hholds, hsorted⟩ := hholds
  rw [stablySorted_numbers hsorted] at hholds
  obtain ⟨found, hfound, -⟩ := hfind ((n : Int) - 1)
  have hsize : array.size = n := by
    rw [hholds.size_eq, numbers, List.length_map, List.length_range]
  rw [Sarray.find, hsize, if_pos (by omega)] at hfound
  have hfault := findLoop_overflow hmany hholds n 0 (by omega) (by omega)
  rw [Nat.cast_zero, hfound] at hfault
  exact absurd hfault (by simp)

/-- **How many items a sorted array may have**: up to 2^30 of them it is
right with every comparison and capacity, and with more there are some
with which it is not. -/
theorem sarray_right_iff (n : Nat) :
    (∀ (α : Type) (compare : α → α → Int) (limit : Int) (items : List α), TotalPreorder compare →
      1 ≤ limit → limit < 2 ^ 31 → items.length = n → SarrayRight compare limit items) ↔
      n ≤ 2 ^ 30 := by
  constructor
  · intro hall
    by_contra hmany
    refine not_sarrayRight_numbers (not_le.mp hmany) 1
      (hall Int difference 1 (numbers n) totalPreorder_difference le_rfl (by decide) ?_)
    rw [numbers, List.length_map, List.length_range]
  · intro hlen α compare limit items hcompare hpos hlimit hn
    exact sarrayRight_of_le hcompare hpos hlimit (by omega)

/-- One item more, in an array that has room for all of them. -/
theorem sarray_tooMany :
    TotalPreorder difference ∧ ¬ SarrayRight difference (2 ^ 30 + 1) (numbers (2 ^ 30 + 1)) :=
  ⟨totalPreorder_difference, not_sarrayRight_numbers (Nat.lt_succ_self _) _⟩

end SpRtrace.Resolve
