/-
SpRtrace.Postproc.HashTables — the two hash tables of the post-processor.

`rtrace_data.c` keeps the backtraces in a table by `bt_hash` and
`bt_compare`, `filter.c` the resources by `res_hash` and `res_compare`.
Both pairs of functions are what a table asks for (`HashRequirements`).
With that a table answers as a finite map does in every run that removes
only nodes that are stored, or that were never stored or looked up. The
run of `numbersRun` removes a node that was looked up and not found:
`htable_find` has cached a bucket in it, and the list of that bucket is
lost.
-/
import Mathlib
import SpRtrace.Common.HtableTheorems
import SpRtrace.Postproc.LeakCounts

namespace SpRtrace.Postproc

open SpRtrace.Common SpRtrace.Common.DlistLinks SpRtrace.Lib

variable {w : Nat}

/-! ## Hash values -/

theorem hashWord_lt : ∀ (fuel value : Nat) {hash : Nat}, hash < 2 ^ 16 →
    hashWord fuel value hash < 2 ^ 16
  | 0, _, _, h => h
  | fuel + 1, value, hash, h => by
      rw [hashWord]
      split
      · exact h
      · exact hashWord_lt fuel _ (Nat.xor_lt_two_pow h (Nat.and_lt_two_pow value (by norm_num)))

theorem btHash_lt (frames : List (Frame w)) : btHash frames < 2 ^ 16 := by
  have hfold : ∀ (frames : List (Frame w)) (hash : Nat), hash < 2 ^ 16 →
      frames.foldl (fun hash f => hashWord w f.addr.toNat hash) hash < 2 ^ 16 := by
    intro frames
    induction frames with
    | nil => exact fun hash h => h
    | cons f frames ih => exact fun hash h => ih _ (hashWord_lt w _ h)
  exact hfold frames 0 (by norm_num)

theorem resHash_lt (resId : BitVec w) (typeId : Option (BitVec w)) : resHash resId typeId < 2 ^ 16 := by
  have hzero : 0 < 2 ^ 16 := by norm_num
  have hid := hashWord_lt w resId.toNat hzero
  cases typeId with
  | none => exact hid
  | some id => exact hashWord_lt w id.toNat hid

/-- **Backtraces**: `bt_compare` and `bt_hash`. -/
theorem btCompare_requirements :
    HashRequirements (btCompare (w := w)) fun frames => (btHash frames : Int) where
  equivalence := by
    refine ⟨fun a => ?_, fun {a b} h => ?_, fun {a b c} hab hbc => ?_⟩
    · exact (btCompare_eq_zero a a).mpr rfl
    · exact (btCompare_eq_zero b a).mpr ((btCompare_eq_zero a b).mp h).symm
    · exact (btCompare_eq_zero a c).mpr
        (((btCompare_eq_zero a b).mp hab).trans ((btCompare_eq_zero b c).mp hbc))
  nonneg frames := Int.natCast_nonneg _
  int frames := by
    have := btHash_lt frames
    omega
  hash_eq a b h := by rw [btHash_congr ((btCompare_eq_zero a b).mp h)]

abbrev CallOf (rd : Rd w) := { c : Nat // c ∈ rd.calls }

/-- The hash value of a resource and an id. -/
def keyHash (rd : Rd w) (k : Option Nat × BitVec w) : Nat :=
  resHash k.2 ((k.1.bind rd.resource).map Resource.id)

/-- `res_compare` and `res_hash` go through on the calls of the report, and
are what a table asks for. -/
def ResRequirements (rd : Rd w) : Prop :=
  ∃ (compare : CallOf rd → CallOf rd → Int) (hash : CallOf rd → Nat),
    (∀ a b : CallOf rd, resCompare rd a.val b.val = some (compare a b)) ∧
    (∀ a : CallOf rd, callHash resHash rd a.val = some (hash a)) ∧
    HashRequirements compare fun a => (hash a : Int)

/-- **Resources**: `res_compare` and `res_hash`, if the resource records
have different ids. -/
theorem resCompare_requirements {rd : Rd w} (hlive : ResourcesLive rd) (hids : DistinctIds rd) :
    ResRequirements rd := by
  have hfollow := hids.followable hlive
  choose compare hcompare hzero using
    fun a b : CallOf rd => resCompare_some hfollow a.property b.property
  have hkey : ∀ a b : CallOf rd, compare a b = 0 ↔ callKey rd a.val = callKey rd b.val :=
    fun a b => hzero a b (.inl rfl)
  refine ⟨compare, fun a => keyHash rd (callKey rd a.val), hcompare,
    fun a => callHash_eq hlive resHash a.property, ⟨?_, fun a => Int.natCast_nonneg _, fun a => ?_,
    fun a b h => ?_⟩⟩
  · refine ⟨fun a => (hkey a a).mpr rfl, fun {a b} h => ?_, fun {a b c} hab hbc => ?_⟩
    · exact (hkey b a).mpr ((hkey a b).mp h).symm
    · exact (hkey a c).mpr (((hkey a b).mp hab).trans ((hkey b c).mp hbc))
  · have hlt : keyHash rd (callKey rd a.val) < 2 ^ 16 := resHash_lt ..
    show (keyHash rd (callKey rd a.val) : Int) < 2 ^ 31
    omega
  · show (keyHash rd (callKey rd a.val) : Int) = keyHash rd (callKey rd b.val)
    rw [(hkey a b).mp h]

/-! ## The tables -/

/-- A table of numbers with one bucket. -/
def numbers : HtableT Nat where
  size := 1
  doCompare a b := (a : Int) - b
  doCalcHash _ := 0

theorem numbers_requirements : HashRequirements numbers.doCompare numbers.doCalcHash where
  equivalence := ⟨fun a => by simp [numbers], fun {a b} h => by simp only [numbers] at *; omega,
    fun {a b c} hab hbc => by simp only [numbers] at *; omega⟩
  nonneg _ := le_rfl
  int _ := by simp [numbers]
  hash_eq _ _ _ := rfl

/-- **A hash table is a finite map** in every run of proper calls: it
answers as the map does and stores its nodes, at most one of every class.
The tables of the post-processor meet what is asked of the two functions. -/
theorem htable_refines_map {ν : Type} [DecidableEq ν] (ht : HtableT ν)
    (hreq : HashRequirements ht.doCompare ht.doCalcHash) (hsize : 1 ≤ ht.size)
    (ops : List (HtableOp ν)) (hproper : Proper (ClassMap.empty (classes hreq)) ∅ ops)
    (fuel : Nat) (hfuel : ops.length ≤ fuel) (rd : Rd w) :
    (∃ (s' : HtableState ν) (t' : Htable ν) (answers : List (HtableAnswer ν)),
      runHtable ht fuel (htableBlank ν) ops = some (s', answers) ∧
      Answered (ClassMap.empty (classes hreq)) ops answers ∧
      (∀ b, (s'.list b).Holds (t'.buckets b)) ∧
      (∀ a, t'.Stored a ↔ (ops.foldl HtableOp.apply (ClassMap.empty (classes hreq))).Holds a) ∧
      ∀ a b, t'.Stored a → t'.Stored b → ht.doCompare a b = 0 → a = b) ∧
    (ResourcesLive rd → DistinctIds rd → ResRequirements rd) ∧
    HashRequirements (btCompare (w := w)) fun frames => (btHash frames : Int) := by
  refine ⟨?_, fun hlive hids => resCompare_requirements hlive hids, btCompare_requirements⟩
  obtain ⟨s', t', answers, hrun, hanswers, h'⟩ :=
    runHtable_represents hsize (htableBlank_represents hreq) hproper fun b => by simpa using hfuel
  refine ⟨s', t', answers, hrun, hanswers, h'.shows.holds, h'.stored, fun a b ha hb hzero => ?_⟩
  exact ClassMap.holds_unique _ ((h'.stored a).mp ha) ((h'.stored b).mp hb) hzero

/-- Two numbers, one of them looked up and removed, and calls on two
resources. -/
theorem htable_refines_map_numbers :
    (∃ (s' : HtableState Nat) (t' : Htable Nat) (answers : List (HtableAnswer Nat)),
      runHtable numbers 5 (htableBlank Nat)
          [.store 1, .store 2, .find 1, .removeNode 1, .foreach] = some (s', answers) ∧
        Answered (ClassMap.empty (classes numbers_requirements))
          [.store 1, .store 2, .find 1, .removeNode 1, .foreach] answers ∧
        (∀ b, (s'.list b).Holds (t'.buckets b)) ∧
        (∀ a, t'.Stored a ↔ ([.store 1, .store 2, .find 1, .removeNode 1, .foreach].foldl
          HtableOp.apply (ClassMap.empty (classes numbers_requirements))).Holds a) ∧
        ∀ a b, t'.Stored a → t'.Stored b → numbers.doCompare a b = 0 → a = b) ∧
    ResRequirements sampleLeaks := by
  have hdistinct : ¬numbers.doCompare 1 2 = 0 := by decide
  have hheld : (((ClassMap.empty (classes numbers_requirements)).store 1).store 2).Holds 1 :=
    (ClassMap.holds_store _).mpr (.inr ⟨(ClassMap.holds_store _).mpr (.inl rfl), hdistinct⟩)
  obtain ⟨hmap, hres, -⟩ := htable_refines_map numbers numbers_requirements le_rfl
    [.store 1, .store 2, .find 1, .removeNode 1, .foreach]
    ⟨trivial, trivial, trivial, .inl hheld, trivial, trivial⟩ 5 le_rfl sampleLeaks
  exact ⟨hmap, hres sampleLeaks_resourced.live sampleLeaks_resourced.ids_inj⟩

/-- A number is stored, another one looked up and removed. -/
def numbersRun : List (HtableOp Nat) := [.store 1, .find 2, .removeNode 2, .find 1]

/-- The number that was stored is not found any more. -/
theorem numbersRun_lost :
    (runHtable numbers 4 (htableBlank Nat) numbersRun).map Prod.snd
      = some [.node none, .node none, .nothing, .node none] ∧
    ¬ Answered (ClassMap.empty (classes numbers_requirements)) numbersRun
      [.node none, .node none, .nothing, .node none] := by
  refine ⟨by decide, ?_⟩
  rintro ⟨-, -, -, hfind, -⟩
  have hone : ((ClassMap.empty (classes numbers_requirements)).store 1).Holds 1 :=
    (ClassMap.holds_store _).mpr (.inl rfl)
  have hheld : (((ClassMap.empty (classes numbers_requirements)).store 1).remove 2).Holds 1 :=
    (ClassMap.holds_remove _).mpr ⟨hone, by decide⟩
  exact absurd (hfind.trans hheld) (by decide)

end SpRtrace.Postproc
