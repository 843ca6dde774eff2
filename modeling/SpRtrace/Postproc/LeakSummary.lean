/-
SpRtrace.Postproc.LeakSummary — the leak summary at the end of a log:
`write_leak_summary` and `write_leaks` of
`src/rtrace-postproc/writer.c` with `filter_sum_leaks` of
`src/rtrace-postproc/filter.c`.

The summary goes through a table of 32 counters. `filter_sum_leaks` puts
the calls of a resource at `id - 1`; `write_leaks` looks for them at
`ffs(id) - 1`, which is the place of a resource whose id is still a bit
mask. The two places are the same for the ids 1 and 2 only:
`writeLeakSummary_correct_iff` says when the lines are right all the same.

A place outside the table and a dangling pointer are `none`.
-/
import Mathlib
import SpRtrace.Library.RecordTheorems
import SpRtrace.Postproc.Filter

namespace SpRtrace.Postproc

open SpRtrace.Lib SpRtrace.Common SpRtrace.Library

variable {w : Nat}

/-! ## The summary of the source -/

structure LeakData (w : Nat) where
  count : BitVec 32
  totalSize : BitVec w
  deriving DecidableEq, Repr

/-- `res ? res->data.id - 1 : 0`. -/
def leakIndex (rd : Rd w) : Option Nat → Option Nat
  | none => some 0
  | some type => do some ((← rd.resource type).id - 1).toNat

def filterSumLeaks (rd : Rd w) (leaks : List (LeakData w)) (call : Nat) :
    Option (List (LeakData w)) := do
  let d := (← rd.fcall call).data
  if d.type = ftypeAlloc then
    let idx ← leakIndex rd d.resType
    let leak ← leaks[idx]?
    some (leaks.set idx
      { count := leak.count + 1, totalSize := leak.totalSize + d.resSize.signExtend w })
  else some leaks

/-- The two lines of a resource, with the number and the size as printed. -/
def leakLines (res : Resource w) (count size : Str) : Str :=
  "# Resource - ".toList ++ res.type ++ " (".toList ++ res.desc ++ "):\n# ".toList
    ++ (count ++ ' ' :: ("block(s) leaked with total size of ".toList
      ++ (size ++ ' ' :: "bytes\n".toList)))

def writeLeaks (rd : Rd w) (leaks : List (LeakData w)) (res : Nat) : Option Str := do
  let res ← rd.resource res
  let pos := ffs (res.id.setWidth 32)
  if pos = 0 then none
  else do
    let leak ← leaks[pos - 1]?
    some (leakLines res (printInt leak.count) (printInt (leak.totalSize.setWidth 32)))

def writeLeakSummary (rd : Rd w) : Option (List Str) := do
  let leaks ← rd.calls.foldlM (filterSumLeaks rd)
    (List.replicate 32 { count := 0, totalSize := 0 })
  rd.resources.mapM (writeLeaks rd leaks)

/-! ## What the summary is to say -/

/-- The records of the calls, in the order of the list. -/
def callRecords (rd : Rd w) (calls : List Nat) : List (FcallData w) :=
  calls.filterMap fun c => (rd.fcall c).map Fcall.data

/-- The allocations among some call records that `p` picks. -/
def allocs (p : FcallData w → Bool) (ds : List (FcallData w)) : List (FcallData w) :=
  ds.filter fun d => d.type = ftypeAlloc && p d

def sizeSum (ds : List (FcallData w)) : Int := (ds.map fun d => d.resSize.toInt).sum

/-- The allocations of the resource at the address `type`. -/
def allocsOf (rd : Rd w) (type : Nat) : List (FcallData w) :=
  allocs (fun d => d.resType = some type) (callRecords rd rd.calls)

/-- The allocations of the resources whose id is `id`. -/
def allocsWithId (rd : Rd w) (id : Nat) : List (FcallData w) :=
  allocs (fun d => (d.resType.bind rd.resource).any fun res => res.id.toNat = id)
    (callRecords rd rd.calls)

/-- The right lines of a resource: the number of its allocations, and
their size modulo 2^32 as `%d` prints it. -/
def summaryLines (rd : Rd w) (type : Nat) : Option Str := do
  some (leakLines (← rd.resource type) (printNat 10 (allocsOf rd type).length)
    (printInt (BitVec.ofInt 32 (sizeSum (allocsOf rd type)))))

/-- The summary has the right lines for every registered resource. -/
def SummaryCorrect (rd : Rd w) : Prop :=
  ∃ lines, writeLeakSummary rd = some lines ∧ rd.resources.mapM (summaryLines rd) = some lines

/-- Registered resources with different ids from 1 to 32, and calls that
refer to them. -/
structure Registered (rd : Rd w) : Prop where
  ids : ∀ type ∈ rd.resources, ∃ res, rd.resource type = some res ∧
    1 ≤ res.id.toNat ∧ res.id.toNat ≤ 32
  distinct : ∀ type ∈ rd.resources, ∀ type' ∈ rd.resources, ∀ res res',
    rd.resource type = some res → rd.resource type' = some res' → res.id = res'.id → type = type'
  refers : ∀ c ∈ rd.calls, ∃ x type, rd.fcall c = some x ∧ x.data.resType = some type ∧
    type ∈ rd.resources

/-- Where `write_leaks` looks, the totals of the resource are found: its
id is 1 or 2, or the resource whose id is the lowest set bit of its id has
the same totals. -/
def FoundInTable (rd : Rd w) (type : Nat) (res : Resource w) : Prop :=
  res.id.toNat ≤ 2 ∨
    (allocsWithId rd (ffs (res.id.setWidth 32))).length % 2 ^ 32
        = (allocsOf rd type).length % 2 ^ 32 ∧
      BitVec.ofInt 32 (sizeSum (allocsWithId rd (ffs (res.id.setWidth 32))))
        = BitVec.ofInt 32 (sizeSum (allocsOf rd type))

/-! ## The table -/

/-- The counters of a list of allocations. -/
def totals (ds : List (FcallData w)) : LeakData w :=
  { count := BitVec.ofNat 32 ds.length, totalSize := BitVec.ofInt w (sizeSum ds) }

theorem totals_snoc (ds : List (FcallData w)) (d : FcallData w) :
    totals (ds ++ [d]) = { count := (totals ds).count + 1,
                           totalSize := (totals ds).totalSize + d.resSize.signExtend w } := by
  have hsize : sizeSum (ds ++ [d]) = sizeSum ds + d.resSize.toInt := by
    simp [sizeSum]
  rw [totals, totals, hsize, List.length_append, BitVec.ofInt_add, BitVec.ofNat_add]
  rfl

/-- The allocations whose place in the table is `i`. -/
def allocsAt (rd : Rd w) (i : Nat) (ds : List (FcallData w)) : List (FcallData w) :=
  allocs (fun d => leakIndex rd d.resType = some i) ds

/-- The table after the calls `ds`. -/
structure Tabulates (rd : Rd w) (ds : List (FcallData w)) (leaks : List (LeakData w)) : Prop where
  length : leaks.length = 32
  entry : ∀ i < 32, leaks[i]? = some (totals (allocsAt rd i ds))

theorem tabulates_nil (rd : Rd w) :
    Tabulates rd [] (List.replicate 32 { count := 0, totalSize := 0 }) where
  length := List.length_replicate
  entry := by
    intro i hi
    rw [List.getElem?_replicate, if_pos hi]
    simp [allocsAt, allocs, totals, sizeSum]

/-- One call adds to its own place. -/
theorem filterSumLeaks_step {rd : Rd w} {ds : List (FcallData w)} {leaks : List (LeakData w)}
    (h : Tabulates rd ds leaks) {c : Nat} {x : Fcall w} (hx : rd.fcall c = some x) {i : Nat}
    (hi : leakIndex rd x.data.resType = some i) (hlt : i < 32) :
    ∃ leaks', filterSumLeaks rd leaks c = some leaks' ∧ Tabulates rd (ds ++ [x.data]) leaks' := by
  by_cases htype : x.data.type = ftypeAlloc
  · have hown : allocsAt rd i (ds ++ [x.data]) = allocsAt rd i ds ++ [x.data] := by
      simp [allocsAt, allocs, htype, hi]
    have hother : ∀ j, j ≠ i → allocsAt rd j (ds ++ [x.data]) = allocsAt rd j ds := by
      intro j hj
      have hne : leakIndex rd x.data.resType ≠ some j := by
        rw [hi]
        exact fun e => hj (Option.some.inj e).symm
      simp [allocsAt, allocs, hne]
    refine ⟨leaks.set i (totals (allocsAt rd i ds ++ [x.data])), ?_, ?_⟩
    · simp only [filterSumLeaks, hx, htype, hi, h.entry i hlt, totals_snoc, Option.bind_eq_bind,
        Option.bind_some, if_true]
    · refine ⟨by rw [List.length_set]; exact h.length, fun j hj => ?_⟩
      by_cases hji : j = i
      · subst hji
        rw [List.getElem?_set_self (by rw [h.length]; exact hj), hown]
      · rw [List.getElem?_set_ne (Ne.symm hji), h.entry j hj, hother j hji]
  · refine ⟨leaks, ?_, h.length, fun j hj => ?_⟩
    · simp only [filterSumLeaks, hx, htype, Option.bind_eq_bind, Option.bind_some, if_false]
    · rw [h.entry j hj]
      simp [allocsAt, allocs, htype]

/-- The whole table. -/
theorem filterSumLeaks_all {rd : Rd w} {calls : List Nat}
    (hcalls : ∀ c ∈ calls, ∃ x i, rd.fcall c = some x ∧ leakIndex rd x.data.resType = some i ∧
      i < 32) :
    ∃ leaks, calls.foldlM (filterSumLeaks rd) (List.replicate 32 { count := 0, totalSize := 0 })
        = some leaks ∧ Tabulates rd (callRecords rd calls) leaks := by
  induction calls using List.reverseRecOn with
  | nil => exact ⟨_, rfl, tabulates_nil rd⟩
  | append_singleton calls c ih =>
    obtain ⟨leaks, hrun, htab⟩ := ih fun d hd => hcalls d (by simp [hd])
    obtain ⟨x, i, hx, hi, hlt⟩ := hcalls c (by simp)
    obtain ⟨leaks', hstep, htab'⟩ := filterSumLeaks_step htab hx hi hlt
    refine ⟨leaks', ?_, ?_⟩
    · simp only [List.foldlM_append, hrun, List.foldlM_cons, List.foldlM_nil, hstep,
        Option.bind_eq_bind, Option.bind_some]
      rfl
    · have hrec : callRecords rd (calls ++ [c]) = callRecords rd calls ++ [x.data] := by
        simp [callRecords, hx]
      rw [hrec]
      exact htab'

/-! ## The two places -/

theorem leakIndex_eq {rd : Rd w} {type i : Nat} {res : Resource w}
    (hres : rd.resource type = some res) (hpos : 1 ≤ res.id.toNat) :
    leakIndex rd (some type) = some i ↔ res.id.toNat = i + 1 := by
  have hsub : (res.id - 1).toNat = res.id.toNat - 1 := by
    have hone : (1 : BitVec w) ≤ res.id := by
      rw [BitVec.le_def]
      exact (Nat.mod_le _ _).trans hpos
    rw [BitVec.toNat_sub_of_le hone]
    have hlt : 1 < 2 ^ w := lt_of_le_of_lt hpos res.id.isLt
    rw [show (1 : BitVec w).toNat = 1 from Nat.mod_eq_of_lt hlt]
  simp only [leakIndex, hres, hsub, Option.bind_eq_bind, Option.bind_some, Option.some.injEq]
  omega

/-- The calls of the list are the ones whose records are counted. -/
theorem mem_callRecords {rd : Rd w} (h : Registered rd) {d : FcallData w}
    (hd : d ∈ callRecords rd rd.calls) :
    ∃ type ∈ rd.resources, ∃ res, d.resType = some type ∧ rd.resource type = some res ∧
      1 ≤ res.id.toNat ∧ res.id.toNat ≤ 32 := by
  obtain ⟨c, hc, hcd⟩ := List.mem_filterMap.mp hd
  obtain ⟨x, type, hx, htype, hmem⟩ := h.refers c hc
  obtain ⟨res, hres, hpos, hle⟩ := h.ids type hmem
  rw [hx, Option.map_some, Option.some.injEq] at hcd
  exact ⟨type, hmem, res, hcd ▸ htype, hres, hpos, hle⟩

theorem allocs_congr {p q : FcallData w → Bool} {ds : List (FcallData w)}
    (h : ∀ d ∈ ds, p d = q d) : allocs p ds = allocs q ds := by
  unfold allocs
  apply List.filter_congr
  intro d hd
  rw [h d hd]

/-- The table counts the calls of an id at the place in front of it. -/
theorem allocsAt_eq {rd : Rd w} (h : Registered rd) (i : Nat) :
    allocsAt rd i (callRecords rd rd.calls) = allocsWithId rd (i + 1) := by
  apply allocs_congr
  intro d hd
  obtain ⟨type, -, res, htype, hres, hpos, -⟩ := mem_callRecords h hd
  have hiff := leakIndex_eq (i := i) hres hpos
  rw [htype]
  simp only [Option.bind_some, hres, Option.any_some, decide_eq_decide]
  exact hiff

/-- The calls with the id of a resource are the calls of the resource. -/
theorem allocsWithId_self {rd : Rd w} (h : Registered rd) {type : Nat} {res : Resource w}
    (hmem : type ∈ rd.resources) (hres : rd.resource type = some res) :
    allocsWithId rd res.id.toNat = allocsOf rd type := by
  apply allocs_congr
  intro d hd
  obtain ⟨type', hmem', res', htype', hres', -, -⟩ := mem_callRecords h hd
  rw [htype']
  simp only [Option.bind_some, hres', Option.any_some, decide_eq_decide, Option.some.injEq]
  constructor
  · intro hid
    exact h.distinct type' hmem' type hmem res' res hres' hres (BitVec.eq_of_toNat_eq hid)
  · rintro rfl
    rw [Option.some.inj (hres'.symm.trans hres)]

/-- The lowest set bit of a small id. -/
theorem ffs_id {id : BitVec w} (hpos : 1 ≤ id.toNat) (hle : id.toNat ≤ 32) :
    1 ≤ ffs (id.setWidth 32) ∧ ffs (id.setWidth 32) ≤ 32 ∧
      (id.toNat ≤ 2 → ffs (id.setWidth 32) = id.toNat) := by
  have hall : ∀ n, 1 ≤ n → n ≤ 32 → 1 ≤ ffs (BitVec.ofNat 32 n) ∧ ffs (BitVec.ofNat 32 n) ≤ 32 ∧
      (n ≤ 2 → ffs (BitVec.ofNat 32 n) = n) := by
    intro n hn hn'
    interval_cases n <;> decide
  rw [← BitVec.ofNat_toNat]
  exact hall _ hpos hle

/-! ## The printed lines -/

theorem append_blank_inj {a b s t : Str} (ha : ' ' ∉ a) (hb : ' ' ∉ b)
    (h : a ++ ' ' :: s = b ++ ' ' :: t) : a = b ∧ s = t := by
  have hrun : ∀ {r rest : Str}, ' ' ∉ r → (r ++ ' ' :: rest).takeWhile (· ≠ ' ') = r := by
    intro r rest hr
    refine takeWhile_run ?_ (by simp)
    intro c hc
    have hne : c ≠ ' ' := by
      rintro rfl
      exact hr hc
    simpa using hne
  have hab : a = b := by rw [← hrun ha, h, hrun hb]
  subst hab
  exact ⟨rfl, (List.cons.inj (List.append_cancel_left h)).2⟩

theorem leakLines_inj {res : Resource w} {count count' size size' : Str}
    (hcount : ' ' ∉ count) (hcount' : ' ' ∉ count') (hsize : ' ' ∉ size) (hsize' : ' ' ∉ size') :
    leakLines res count size = leakLines res count' size' ↔ count = count' ∧ size = size' := by
  constructor
  · intro h
    have hcounts := List.append_cancel_left h
    obtain ⟨hc, hrest⟩ := append_blank_inj hcount hcount' hcounts
    have hsizes := List.append_cancel_left hrest
    exact ⟨hc, (append_blank_inj hsize hsize' hsizes).1⟩
  · rintro ⟨rfl, rfl⟩
    rfl

theorem printInt_inj {u v : BitVec 32} : printInt u = printInt v ↔ u = v := by
  constructor
  · intro h
    have hu := scanConv_dec_printInt (le_refl 32) u (show Stops (isDigitOf 10) [] from stops_nil _)
    have hv := scanConv_dec_printInt (le_refl 32) v (show Stops (isDigitOf 10) [] from stops_nil _)
    rw [h, hv] at hu
    injection hu with hu
    injection hu with hu
    exact hu.symm
  · rintro rfl
    rfl

theorem toInt_ofNat {n : Nat} (h : n < 2 ^ 31) : (BitVec.ofNat 32 n).toInt = n := by
  rw [BitVec.toInt_eq_toNat_of_lt] <;> rw [BitVec.toNat_ofNat, Nat.mod_eq_of_lt (by omega)]
  omega

/-- `%d` of a counter shows a number only below 2^31. -/
theorem printInt_eq_printNat {v : BitVec 32} {n : Nat} :
    printInt v = printNat 10 n ↔ n < 2 ^ 31 ∧ v = BitVec.ofNat 32 n := by
  have hvalue : ∀ k, digitsValue 10 (printNat 10 k) = k :=
    fun k => digitsValue_printNat (by decide) (by decide) k
  constructor
  · intro h
    unfold printInt at h
    split at h
    · have hdigit := isDigitOf_of_mem_printNat (by decide : 1 < 10) (by decide) n '-' (h ▸ by simp)
      exact absurd hdigit (by decide)
    · have hn : v.toInt.toNat = n := by rw [← hvalue v.toInt.toNat, h, hvalue]
      have hlt := v.toInt_lt
      refine ⟨by omega, ?_⟩
      apply BitVec.eq_of_toInt_eq
      rw [toInt_ofNat (by omega)]
      omega
  · rintro ⟨hlt, rfl⟩
    rw [printInt, toInt_ofNat hlt, if_neg (by omega), Int.toNat_natCast]

/-! ## The summary -/

/-- The size is added up in a `long` and printed as an `int`. -/
theorem setWidth_ofInt (hw : 32 ≤ w) (n : Int) : (BitVec.ofInt w n).setWidth 32 = BitVec.ofInt 32 n := by
  apply BitVec.eq_of_toNat_eq
  rw [BitVec.toNat_setWidth, BitVec.toNat_ofInt, BitVec.toNat_ofInt]
  have hdvd : ((2 ^ 32 : Nat) : Int) ∣ ((2 ^ w : Nat) : Int) := Int.natCast_dvd_natCast.mpr (pow_dvd_pow 2 hw)
  have hmod : n % ((2 ^ w : Nat) : Int) % ((2 ^ 32 : Nat) : Int) = n % ((2 ^ 32 : Nat) : Int) :=
    Int.emod_emod_of_dvd n hdvd
  have hpos : 0 ≤ n % ((2 ^ w : Nat) : Int) :=
    Int.emod_nonneg _ (by exact_mod_cast (Nat.two_pow_pos w).ne')
  generalize n % ((2 ^ w : Nat) : Int) = m at hmod hpos
  omega

theorem writeLeaks_eq {rd : Rd w} (hw : 32 ≤ w) (h : Registered rd) {leaks : List (LeakData w)}
    (htab : Tabulates rd (callRecords rd rd.calls) leaks) {type : Nat} {res : Resource w}
    (hmem : type ∈ rd.resources) (hres : rd.resource type = some res) :
    writeLeaks rd leaks type = some (leakLines res
      (printInt (BitVec.ofNat 32 (allocsWithId rd (ffs (res.id.setWidth 32))).length))
      (printInt (BitVec.ofInt 32 (sizeSum (allocsWithId rd (ffs (res.id.setWidth 32))))))) := by
  obtain ⟨res', hres', hpos, hle⟩ := h.ids type hmem
  obtain rfl := Option.some.inj (hres.symm.trans hres')
  obtain ⟨hpos', hle', -⟩ := ffs_id hpos hle
  obtain ⟨i, hi⟩ : ∃ i, ffs (res.id.setWidth 32) = i + 1 := ⟨_, (Nat.succ_pred_eq_of_pos hpos').symm⟩
  have hentry := htab.entry i (by omega)
  rw [allocsAt_eq h] at hentry
  simp only [writeLeaks, hres, hi, Option.bind_eq_bind, Option.bind_some, Nat.succ_ne_zero, if_false,
    Nat.add_sub_cancel, hentry, totals, setWidth_ofInt hw]

/-- A list of steps writes what another list of steps writes when every
step does. -/
theorem mapM_both {α β : Type} {f g : α → Option β} :
    ∀ {l : List α}, (∃ bs, l.mapM f = some bs ∧ l.mapM g = some bs) ↔
      ∀ a ∈ l, ∃ b, f a = some b ∧ g a = some b
  | [] => by simp
  | a :: l => by
      have ih := mapM_both (f := f) (g := g) (l := l)
      simp only [List.mapM_cons, Option.bind_eq_bind, Option.bind_eq_some_iff, Option.pure_def,
        Option.some.injEq, List.forall_mem_cons]
      constructor
      · rintro ⟨bs, ⟨b, hb, rest, hrest, rfl⟩, b', hb', rest', hrest', heq⟩
        obtain ⟨rfl, rfl⟩ := List.cons.inj heq
        exact ⟨⟨b', hb, hb'⟩, ih.mp ⟨rest', hrest, hrest'⟩⟩
      · rintro ⟨⟨b, hb, hb'⟩, hl⟩
        obtain ⟨rest, hrest, hrest'⟩ := ih.mpr hl
        exact ⟨b :: rest, ⟨b, hb, rest, hrest, rfl⟩, b, hb', rest, hrest', rfl⟩

/-- The lines of one resource. -/
theorem writeLeaks_correct_iff {rd : Rd w} (hw : 32 ≤ w) (h : Registered rd)
    {leaks : List (LeakData w)} (htab : Tabulates rd (callRecords rd rd.calls) leaks) {type : Nat}
    {res : Resource w} (hmem : type ∈ rd.resources) (hres : rd.resource type = some res) :
    (∃ line, writeLeaks rd leaks type = some line ∧ summaryLines rd type = some line) ↔
      (allocsOf rd type).length < 2 ^ 31 ∧ FoundInTable rd type res := by
  have hblank : ' ' ∉ printNat 10 (allocsOf rd type).length := not_mem_printNat (by decide) (.inl rfl) _
  have hint : ∀ v, ' ' ∉ printInt v := fun v => not_mem_printInt (by decide) v
  have hright : summaryLines rd type = some (leakLines res (printNat 10 (allocsOf rd type).length)
      (printInt (BitVec.ofInt 32 (sizeSum (allocsOf rd type))))) := by
    simp only [summaryLines, hres, Option.bind_eq_bind, Option.bind_some]
  rw [writeLeaks_eq hw h htab hmem hres, hright]
  simp only [Option.some.injEq, exists_eq_left', leakLines_inj hblank (hint _) (hint _) (hint _),
    printInt_inj]
  rw [eq_comm, printInt_eq_printNat, and_assoc]
  apply and_congr_right
  intro hlt
  have hown : res.id.toNat ≤ 2 →
      allocsWithId rd (ffs (res.id.setWidth 32)) = allocsOf rd type := by
    intro hid
    obtain ⟨res', hres', hpos, hle⟩ := h.ids type hmem
    obtain rfl := Option.some.inj (hres.symm.trans hres')
    rw [(ffs_id hpos hle).2.2 hid, allocsWithId_self h hmem hres]
  rw [FoundInTable, ← BitVec.toNat_inj, BitVec.toNat_ofNat, BitVec.toNat_ofNat]
  constructor
  · rintro ⟨hcount, hsize⟩
    exact .inr ⟨hcount, hsize.symm⟩
  · rintro (hid | ⟨hcount, hsize⟩)
    · rw [hown hid]
      exact ⟨rfl, rfl⟩
    · exact ⟨hcount, hsize.symm⟩

/-- **The leak summary is right** exactly when no resource has 2^31 or
more allocations and the totals of every resource are found at the place
of the lowest set bit of its id. -/
theorem writeLeakSummary_correct_iff (rd : Rd w) (hw : 32 ≤ w) (h : Registered rd) :
    SummaryCorrect rd ↔ ∀ type ∈ rd.resources, ∀ res, rd.resource type = some res →
      (allocsOf rd type).length < 2 ^ 31 ∧ FoundInTable rd type res := by
  have hindex : ∀ c ∈ rd.calls, ∃ x i, rd.fcall c = some x ∧
      leakIndex rd x.data.resType = some i ∧ i < 32 := by
    intro c hc
    obtain ⟨x, type, hx, htype, hmem⟩ := h.refers c hc
    obtain ⟨res, hres, hpos, hle⟩ := h.ids type hmem
    refine ⟨x, res.id.toNat - 1, hx, ?_, by omega⟩
    rw [htype, leakIndex_eq hres hpos]
    omega
  obtain ⟨leaks, hrun, htab⟩ := filterSumLeaks_all hindex
  have hsum : writeLeakSummary rd = rd.resources.mapM (writeLeaks rd leaks) := by
    rw [writeLeakSummary, hrun, Option.bind_eq_bind, Option.bind_some]
  rw [SummaryCorrect, hsum, mapM_both]
  constructor
  · intro hlines type hmem res hres
    exact (writeLeaks_correct_iff hw h htab hmem hres).mp (hlines type hmem)
  · intro hfound type hmem
    obtain ⟨res, hres, -⟩ := h.ids type hmem
    exact (writeLeaks_correct_iff hw h htab hmem hres).mpr (hfound type hmem res hres)

/-- Resources with the ids 1, 2, … and one allocation of 8 bytes for each
place named in `refs`. -/
def summarySample (n : Nat) (refs : List Nat) : Rd 64 :=
  let rd := (List.range n).foldl (fun rd i => (rdAddResource rd
    { id := BitVec.ofNat 64 (i + 1), type := ['r'], desc := ['d'], flags := 0, hide := false }).1)
    rdCreate
  refs.foldl (fun rd type => (rdAddFcall rd
    { index := 1, type := ftypeAlloc, context := 0, timestamp := 0, name := ['f'],
      resType := some type, resId := 16, resSize := 8 }).1) rd

theorem summarySample_registered : Registered (summarySample 2 [0, 1, 1]) where
  ids := by
    intro type hmem
    have hmem : type ∈ [0, 1] := hmem
    simp only [List.mem_cons, List.not_mem_nil, or_false] at hmem
    rcases hmem with rfl | rfl
    · exact ⟨_, rfl, by decide, by decide⟩
    · exact ⟨_, rfl, by decide, by decide⟩
  distinct := by
    intro type hmem type' hmem' res res' hres hres' hid
    have hmem : type ∈ [0, 1] := hmem
    have hmem' : type' ∈ [0, 1] := hmem'
    simp only [List.mem_cons, List.not_mem_nil, or_false] at hmem hmem'
    rcases hmem with rfl | rfl <;> rcases hmem' with rfl | rfl
    · rfl
    · cases hres; cases hres'; exact absurd hid (by decide)
    · cases hres; cases hres'; exact absurd hid (by decide)
    · rfl
  refers := by
    intro c hc
    have hc : c ∈ [2, 3, 4] := hc
    simp only [List.mem_cons, List.not_mem_nil, or_false] at hc
    rcases hc with rfl | rfl | rfl
    · exact ⟨_, 0, rfl, rfl, by decide⟩
    · exact ⟨_, 1, rfl, rfl, by decide⟩
    · exact ⟨_, 1, rfl, rfl, by decide⟩

/-- One allocation of the first resource and two of the second. -/
theorem writeLeakSummary_correct_iff_two : SummaryCorrect (summarySample 2 [0, 1, 1]) := by
  refine (writeLeakSummary_correct_iff _ (by decide) summarySample_registered).mpr ?_
  intro type hmem res hres
  have hmem : type ∈ [0, 1] := hmem
  simp only [List.mem_cons, List.not_mem_nil, or_false] at hmem
  rcases hmem with rfl | rfl
  · cases hres; exact ⟨by decide, .inl (by decide)⟩
  · cases hres; exact ⟨by decide, .inl (by decide)⟩

/-- Three resources and an allocation of the third: its lines say that
nothing leaked, its calls are counted at the third place of the table. -/
theorem writeLeakSummary_third : ¬ SummaryCorrect (summarySample 3 [2]) := by
  rintro ⟨lines, hwrite, hright⟩
  have hne : writeLeakSummary (summarySample 3 [2])
      ≠ (summarySample 3 [2]).resources.mapM (summaryLines (summarySample 3 [2])) := by decide
  exact hne (hwrite.trans hright.symm)

end SpRtrace.Postproc
