/-
SpRtrace.Common.HtableLinks — the memory behind the hash table of
`src/common/htable.c`.

`SpRtrace.Common.Htable` has a list of nodes for every bucket. Here the
buckets are `dlist_t` records and the nodes carry their links and the
`bucket` field, which `get_bucket` fills in on first use and
`htable_remove_node` trusts. A bucket is given by its index; indexing in
front of the array is `none`.

`Shows` relates the two: the buckets in memory hold the nodes of the
table, and exactly the nodes that have been used know their bucket. Every
operation is shown to do in memory what it does to the table, a removal
only of a node that is stored (or that has never been used: then nothing
happens).
-/
import Mathlib
import SpRtrace.Common.Htable
import SpRtrace.Common.DlistLinks

namespace SpRtrace.Common.DlistLinks

open SpRtrace.Lib

variable {ν σ : Type} [DecidableEq ν]

/-! ## The source -/

/-- `htable_t` less its buckets. A hash function returns a long. -/
structure HtableT (ν : Type) where
  size : Nat
  doCompare : ν → ν → Int
  doCalcHash : ν → Int

/-- The memory with one table in it; `bucket` is the field of the nodes. -/
structure HtableState (ν : Type) where
  links : Links ν
  bucket : ν → Option Nat
  buckets : Nat → DlistT ν

/-- The list `&ht->buckets[b]`. -/
def HtableState.list (s : HtableState ν) (b : Nat) : DlistState ν := ⟨s.links, s.buckets b⟩

/-- What a list operation on `&ht->buckets[b]` leaves. -/
def HtableState.setList (s : HtableState ν) (b : Nat) (d : DlistState ν) : HtableState ν :=
  { s with links := d.links, buckets := Function.update s.buckets b d.list }

/-- Nodes fresh from `htable_create_node` and a table from `htable_init`. -/
def htableBlank (ν : Type) : HtableState ν where
  links := ⟨fun _ => none, fun _ => none⟩
  bucket := fun _ => none
  buckets := fun _ => dlistInit

/-- `get_bucket`: the hash value is narrowed to an int. -/
def getBucket (ht : HtableT ν) (s : HtableState ν) (node : ν) : Option (HtableState ν × Nat) :=
  match s.bucket node with
  | some b => some (s, b)
  | none =>
      let hash := (ht.doCalcHash node).bmod (2 ^ 32)
      let hash := if hash ≥ ht.size then hash.tmod ht.size else hash
      if hash < 0 then none
      else some ({ s with bucket := Function.update s.bucket node (some hash.toNat) }, hash.toNat)

def htableFind (ht : HtableT ν) (fuel : Nat) (s : HtableState ν) (data : ν) :
    Option (HtableState ν × Option ν) := do
  let (s, b) ← getBucket ht s data
  let node ← dlistFind (fun node => ht.doCompare node data) fuel (s.list b)
  some (s, node)

def htableRemoveNode (s : HtableState ν) (node : ν) : HtableState ν :=
  match s.bucket node with
  | some b => s.setList b (dlistRemove (s.list b) node)
  | none => s

/-- `if (old_node) dlist_remove(bucket, old_node)`. -/
def removeOld (s : HtableState ν) (b : Nat) : Option ν → HtableState ν
  | some old => s.setList b (dlistRemove (s.list b) old)
  | none => s

def htableStore (ht : HtableT ν) (fuel : Nat) (s : HtableState ν) (node : ν) :
    Option (HtableState ν × Option ν) := do
  let (s, b) ← getBucket ht s node
  let oldNode ← dlistFind (fun old => ht.doCompare old node) fuel (s.list b)
  let s := removeOld s b oldNode
  let s := { s with bucket := Function.update s.bucket node (some b) }
  let s := s.setList b (dlistAdd (s.list b) node)
  some (s, oldNode)

/-- `htable_foreach2`, and `htable_foreach` with a callback that needs no data. -/
def htableForeach2 (ht : HtableT ν) (table : σ → HtableState ν) (doWhat : ν → σ → Option σ)
    (fuel : Nat) (s : σ) : Option σ :=
  (List.range ht.size).foldlM
    (fun s i => dlistForeach2 (fun s => (table s).list i) doWhat fuel s) s

/-! ## The table in memory -/

/-- The bucket of the hash value of a node. -/
def home (ht : HtableT ν) (node : ν) : Nat :=
  Common.getBucket ht.size none (ht.doCalcHash node).toNat

/-- What a table asks of its two functions: the nodes that compare equal
form classes, hash values are non-negative ints, and equal nodes have equal
ones. -/
structure HashRequirements (compare : ν → ν → Int) (hash : ν → Int) : Prop where
  equivalence : Equivalence fun a b => compare a b = 0
  nonneg : ∀ a, 0 ≤ hash a
  int : ∀ a, hash a < 2 ^ 31
  hash_eq : ∀ a b, compare a b = 0 → hash a = hash b

/-- The memory holds the table `t`; `used` are the nodes that know their
bucket. -/
structure Shows (ht : HtableT ν) (s : HtableState ν) (t : Htable ν) (used : Set ν) : Prop where
  size : t.size = ht.size
  holds : ∀ b, (s.list b).Holds (t.buckets b)
  placed : t.Placed (home ht)
  known : ∀ a ∈ used, s.bucket a = some (home ht a)
  unknown : ∀ a ∉ used, s.bucket a = none
  stored_used : ∀ a, t.Stored a → a ∈ used

section

variable {ht : HtableT ν} {s : HtableState ν} {t : Htable ν} {used : Set ν}

omit [DecidableEq ν] in
theorem htableBlank_shows (ht : HtableT ν) :
    Shows ht (htableBlank ν) (htableInit ht.size) (∅ : Set ν) where
  size := rfl
  holds _ := IsList.nil _
  placed := placed_htableInit _ _
  known a ha := absurd ha (Set.notMem_empty a)
  unknown _ _ := rfl
  stored_used a ha := by
    obtain ⟨b, hb⟩ := ha
    simp at hb

omit [DecidableEq ν] in
/-- Nodes of other buckets are other nodes. -/
theorem Shows.apart (h : Shows ht s t used) {b i : Nat} (hne : i ≠ b) {a : ν}
    (ha : a ∈ t.buckets i) : a ∉ t.buckets b :=
  fun hb => hne ((h.placed.home_eq i a ha).symm.trans (h.placed.home_eq b a hb))

omit [DecidableEq ν] in
/-- **One list changes**: the others keep their nodes if their links are not
touched. -/
theorem Shows.setList (h : Shows ht s t used) {b : Nat} {d : DlistState ν} {list others : List ν}
    (hd : d.Holds list) (hsame : SameOutside others s.links d.links)
    (hapart : ∀ i, i ≠ b → ∀ a ∈ t.buckets i, a ∉ others)
    (hplaced : (t.setBucket b list).Placed (home ht))
    (hused : ∀ a, (t.setBucket b list).Stored a → a ∈ used) :
    Shows ht (s.setList b d) (t.setBucket b list) used where
  size := h.size
  holds i := by
    rw [Htable.setBucket_buckets]
    by_cases hi : i = b
    · subst hi
      rw [if_pos rfl]
      simpa [DlistState.Holds, HtableState.list, HtableState.setList] using hd
    · rw [if_neg hi]
      have hold := (h.holds i).outside hsame fun a ha => hapart i hi a ha
      simpa [DlistState.Holds, HtableState.list, HtableState.setList, hi] using hold
  placed := hplaced
  known := h.known
  unknown := h.unknown
  stored_used := hused

/-- A stored node is unlinked from its bucket. -/
theorem Shows.unlink (h : Shows ht s t used) {node : ν} (hnode : t.Stored node) :
    Shows ht (s.setList (home ht node) (dlistRemove (s.list (home ht node)) node))
      (t.setBucket (home ht node) ((t.buckets (home ht node)).erase node)) used := by
  have hmem : node ∈ t.buckets (home ht node) := (h.placed.stored_iff node).mp hnode
  have hholds := h.holds (home ht node)
  obtain ⟨pre, post, heq⟩ := List.append_of_mem hmem
  have hpre : node ∉ pre := fun hin =>
    (List.nodup_append.mp (heq ▸ hholds.nodup)).2.2 node hin node (by simp) rfl
  have herase : (t.buckets (home ht node)).erase node = pre ++ post := by
    rw [heq, List.erase_append_right _ hpre, List.erase_cons_head]
  have hremove := dlistRemove_holds (heq ▸ hholds)
  have hsame := dlistRemove_outside (heq ▸ hholds)
  refine h.setList (herase ▸ hremove) hsame (fun i hi a ha => ?_) (h.placed.erase _ node)
    fun a ha => h.stored_used a ((h.placed.stored_erase hmem a).mp ha).1
  rw [← heq]
  exact h.apart hi ha

/-- A node that is not stored is linked into its bucket. -/
theorem Shows.link (h : Shows ht s t used) {node : ν} (hnode : ¬ t.Stored node)
    (hused : node ∈ used) :
    Shows ht (s.setList (home ht node) (dlistAdd (s.list (home ht node)) node))
      (t.setBucket (home ht node) (Common.dlistAdd (t.buckets (home ht node)) node)) used := by
  have hholds := h.holds (home ht node)
  have hnew : node ∉ t.buckets (home ht node) := fun hmem => hnode ⟨_, hmem⟩
  refine h.setList (dlistAdd_holds hholds hnew) (dlistAdd_outside hholds node)
    (fun i hi a ha hin => ?_) (h.placed.add hnode) fun a ha => ?_
  · rcases List.mem_cons.mp hin with rfl | hin
    · exact hnode ⟨i, ha⟩
    · exact h.apart hi ha hin
  · rcases (h.placed.stored_add hnode a).mp ha with hstored | rfl
    · exact h.stored_used a hstored
    · exact hused

variable (hreq : HashRequirements ht.doCompare ht.doCalcHash)
include hreq

/-- `get_bucket` finds the bucket of the hash value, and the node knows it
from then on. -/
theorem Shows.getBucket (h : Shows ht s t used) (node : ν) :
    ∃ s', getBucket ht s node = some (s', home ht node) ∧ Shows ht s' t (insert node used) := by
  by_cases hnode : node ∈ used
  · refine ⟨s, ?_, by rwa [Set.insert_eq_of_mem hnode]⟩
    rw [DlistLinks.getBucket, h.known node hnode]
  · have hnonneg := hreq.nonneg node
    have hint := hreq.int node
    have hnarrow : (ht.doCalcHash node).bmod (2 ^ 32) = ht.doCalcHash node :=
      Int.bmod_eq_of_le (by omega) (by omega)
    obtain ⟨hash, hhash⟩ := Int.eq_ofNat_of_zero_le hnonneg
    have hindex : (if ht.doCalcHash node ≥ ht.size then (ht.doCalcHash node).tmod ht.size
        else ht.doCalcHash node) = (home ht node : Int) := by
      rw [home, getBucket_none, hhash, Int.toNat_natCast]
      by_cases hge : hash ≥ ht.size
      · rw [if_pos (by exact_mod_cast hge), if_pos hge]
        rfl
      · rw [if_neg (by exact_mod_cast hge), if_neg hge]
    refine ⟨{ s with bucket := Function.update s.bucket node (some (home ht node)) }, ?_,
      { h with known := fun a ha => ?_, unknown := fun a ha => ?_, stored_used := fun a ha => ?_ }⟩
    · rw [DlistLinks.getBucket, h.unknown node hnode]
      simp only [hnarrow, hindex]
      rw [if_neg (by omega), Int.toNat_natCast]
    · by_cases heq : a = node
      · subst heq
        exact Function.update_self ..
      · exact (Function.update_of_ne heq ..).trans
          (h.known a ((Set.mem_insert_iff.mp ha).resolve_left heq))
    · have heq : a ≠ node := fun e => ha (e ▸ Set.mem_insert a used)
      exact (Function.update_of_ne heq ..).trans
        (h.unknown a fun hin => ha (Set.mem_insert_of_mem _ hin))
    · exact Set.mem_insert_of_mem _ (h.stored_used a ha)

end

end SpRtrace.Common.DlistLinks
