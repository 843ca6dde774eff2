/-
SpRtrace.Common.Htable — the hash table of `src/common/htable.c`.

The table is a row of buckets, each one a list of nodes
(`SpRtrace.Common.Dlist`). The source finds the bucket of a node with
`get_bucket`, which caches it in the node's `bucket` field; here the
field belongs to the node records of the callers, `getBucket` computes
the index and the table operations take it as an argument.

`Placed` is the property that makes lookups complete: every stored node
sits in the bucket its hash value selects. It is kept by
`htableStore` and `htableRemoveNode` whatever the hash function does, so
nothing proved through it depends on which nodes collide.
-/
import Mathlib
import SpRtrace.Common.Dlist

namespace SpRtrace.Common

variable {ν : Type}

/-- `htable_t`: the number of buckets and the buckets. -/
structure Htable (ν : Type) where
  size : Nat
  buckets : Nat → List ν

def htableInit (size : Nat) : Htable ν := { size, buckets := fun _ => [] }

/-- `get_bucket`: the cached bucket of a node, or the one of its hash value. -/
def getBucket (size : Nat) (bucket : Option Nat) (hash : Nat) : Nat :=
  match bucket with
  | some b => b
  | none => if hash ≥ size then hash % size else hash

def Htable.setBucket (ht : Htable ν) (b : Nat) (list : List ν) : Htable ν :=
  { ht with buckets := fun i => if i = b then list else ht.buckets i }

/-- `htable_find` in the bucket of the template. -/
def htableFind (ht : Htable ν) (b : Nat) (compare : ν → Option Int) : Option (Option ν) :=
  dlistFind compare (ht.buckets b)

/-- The nodes in the order of `htable_foreach2`: bucket after bucket. -/
def htableNodes (ht : Htable ν) : List ν := (List.range ht.size).flatMap ht.buckets

/-- `htable_remove_node`: unlink a node from the bucket it records. -/
def htableRemoveNode [DecidableEq ν] (ht : Htable ν) (b : Nat) (node : ν) :
    Option (Htable ν) := do
  let list ← dlistRemove (ht.buckets b) node
  some (ht.setBucket b list)

/-- `htable_store`: an equal node that is already there is replaced and
returned. -/
def htableStore [DecidableEq ν] (ht : Htable ν) (b : Nat) (compare : ν → Option Int) (node : ν) :
    Option (Htable ν × Option ν) := do
  match ← dlistFind compare (ht.buckets b) with
  | some old =>
      let list ← dlistRemove (ht.buckets b) old
      some (ht.setBucket b (dlistAdd list node), some old)
  | none => some (ht.setBucket b (dlistAdd (ht.buckets b) node), none)

/-! ## Buckets -/

@[simp] theorem Htable.setBucket_same (ht : Htable ν) (b : Nat) (list : List ν) :
    (ht.setBucket b list).buckets b = list := by
  simp [Htable.setBucket]

@[simp] theorem Htable.setBucket_size (ht : Htable ν) (b : Nat) (list : List ν) :
    (ht.setBucket b list).size = ht.size := rfl

theorem Htable.setBucket_buckets (ht : Htable ν) (b i : Nat) (list : List ν) :
    (ht.setBucket b list).buckets i = if i = b then list else ht.buckets i := rfl

@[simp] theorem Htable.setBucket_setBucket (ht : Htable ν) (b : Nat) (list list' : List ν) :
    (ht.setBucket b list).setBucket b list' = ht.setBucket b list' := by
  simp only [Htable.setBucket]
  congr 1
  funext i
  split <;> rfl

@[simp] theorem htableInit_buckets (size i : Nat) :
    (htableInit size : Htable ν).buckets i = [] := rfl

@[simp] theorem htableInit_size (size : Nat) : (htableInit size : Htable ν).size = size := rfl

@[simp] theorem getBucket_some (size b hash : Nat) : getBucket size (some b) hash = b := rfl

/-- The bucket index of a node that records none depends on its hash value only. -/
theorem getBucket_none (size hash : Nat) :
    getBucket size none hash = if hash ≥ size then hash % size else hash := rfl

theorem getBucket_none_lt {size hash : Nat} (h : 0 < size) : getBucket size none hash < size := by
  rw [getBucket_none]
  split
  · exact Nat.mod_lt _ h
  · omega

theorem htableRemoveNode_size [DecidableEq ν] {ht ht' : Htable ν} {b : Nat} {node : ν}
    (h : htableRemoveNode ht b node = some ht') : ht'.size = ht.size := by
  simp only [htableRemoveNode, Option.bind_eq_bind, Option.bind_eq_some_iff, Option.some.injEq] at h
  obtain ⟨list, -, rfl⟩ := h
  rfl

theorem htableStore_size [DecidableEq ν] {ht ht' : Htable ν} {b : Nat} {compare : ν → Option Int}
    {node : ν} {old : Option ν} (h : htableStore ht b compare node = some (ht', old)) :
    ht'.size = ht.size := by
  simp only [htableStore, Option.bind_eq_bind, Option.bind_eq_some_iff] at h
  obtain ⟨r, -, h⟩ := h
  cases r with
  | none =>
    simp only [Option.some.injEq, Prod.mk.injEq] at h
    rw [← h.1]
    rfl
  | some found =>
    simp only [Option.bind_eq_some_iff, Option.some.injEq, Prod.mk.injEq] at h
    obtain ⟨list, -, rfl, -⟩ := h
    rfl

/-- `node` is stored in the table. -/
def Htable.Stored (ht : Htable ν) (node : ν) : Prop := ∃ b, node ∈ ht.buckets b

/-- Every stored node sits in the bucket `home` gives it, once. -/
structure Htable.Placed (ht : Htable ν) (home : ν → Nat) : Prop where
  home_eq : ∀ b, ∀ n ∈ ht.buckets b, home n = b
  nodup : ∀ b, (ht.buckets b).Nodup

theorem Htable.Placed.stored_iff {ht : Htable ν} {home : ν → Nat} (h : ht.Placed home) (n : ν) :
    ht.Stored n ↔ n ∈ ht.buckets (home n) := by
  constructor
  · rintro ⟨b, hb⟩
    rw [h.home_eq b n hb]; exact hb
  · intro hn; exact ⟨_, hn⟩

/-- The iteration over the table comes by every stored node once. -/
theorem Htable.Placed.nodes {ht : Htable ν} {home : ν → Nat} (h : ht.Placed home)
    (hlt : ∀ n, ht.Stored n → home n < ht.size) :
    (htableNodes ht).Nodup ∧ ∀ n, n ∈ htableNodes ht ↔ ht.Stored n := by
  constructor
  · unfold htableNodes
    rw [List.nodup_flatMap]
    refine ⟨fun b _ => h.nodup b, ?_⟩
    refine List.nodup_range.imp fun {a b} hne => ?_
    rw [Function.onFun, List.disjoint_left]
    intro n ha hb
    exact hne ((h.home_eq a n ha).symm.trans (h.home_eq b n hb))
  · intro n
    rw [htableNodes, List.mem_flatMap]
    constructor
    · rintro ⟨b, -, hb⟩
      exact ⟨b, hb⟩
    · rintro ⟨b, hb⟩
      refine ⟨b, List.mem_range.mpr ?_, hb⟩
      rw [← h.home_eq b n hb]
      exact hlt n ⟨b, hb⟩

theorem placed_htableInit (size : Nat) (home : ν → Nat) : (htableInit size).Placed home :=
  ⟨by intro b n hn; simp at hn, by intro b; simp⟩

/-- Only the nodes that are in the table have to agree on the placement. -/
theorem Htable.Placed.congr {ht : Htable ν} {home home' : ν → Nat} (h : ht.Placed home)
    (heq : ∀ n, ht.Stored n → home n = home' n) : ht.Placed home' :=
  ⟨fun b n hn => by rw [← heq n ⟨b, hn⟩]; exact h.home_eq b n hn, h.nodup⟩

/-- Appending a new node to its own bucket keeps the placement. -/
theorem Htable.Placed.add {ht : Htable ν} {home : ν → Nat} (h : ht.Placed home) {node : ν}
    (hnew : ¬ ht.Stored node) :
    (ht.setBucket (home node) (dlistAdd (ht.buckets (home node)) node)).Placed home := by
  constructor
  · intro b n hn
    rw [Htable.setBucket_buckets] at hn
    split at hn
    · rename_i hb
      rcases (mem_dlistAdd _ _ _).mp hn with hn | rfl
      · rw [hb]; exact h.home_eq _ n hn
      · exact hb.symm
    · exact h.home_eq b n hn
  · intro b
    rw [Htable.setBucket_buckets]
    split
    · rw [dlistAdd, List.nodup_append]
      refine ⟨h.nodup _, by simp, ?_⟩
      intro a ha c hc
      rintro rfl
      have : a = node := by simpa using hc
      exact hnew ⟨_, this ▸ ha⟩
    · exact h.nodup b

/-- Unlinking a node keeps the placement of the others. -/
theorem Htable.Placed.erase [DecidableEq ν] {ht : Htable ν} {home : ν → Nat} (h : ht.Placed home)
    (b : Nat) (node : ν) : (ht.setBucket b ((ht.buckets b).erase node)).Placed home := by
  constructor
  · intro i n hn
    rw [Htable.setBucket_buckets] at hn
    split at hn
    · rename_i hb
      subst hb
      exact h.home_eq _ n (List.mem_of_mem_erase hn)
    · exact h.home_eq i n hn
  · intro i
    rw [Htable.setBucket_buckets]
    split
    · exact (h.nodup b).erase _
    · exact h.nodup i

/-- After unlinking `node` from its bucket exactly the other nodes are stored. -/
theorem Htable.Placed.stored_erase [DecidableEq ν] {ht : Htable ν} {home : ν → Nat}
    (h : ht.Placed home) {b : Nat} {node : ν} (hb : node ∈ ht.buckets b) (n : ν) :
    (ht.setBucket b ((ht.buckets b).erase node)).Stored n ↔ ht.Stored n ∧ n ≠ node := by
  have hbh := h.home_eq b node hb
  rw [(h.erase b node).stored_iff, h.stored_iff, Htable.setBucket_buckets]
  by_cases hn : home n = b
  · rw [if_pos hn, (h.nodup b).mem_erase_iff, hn, and_comm]
  · rw [if_neg hn]
    constructor
    · intro hm
      exact ⟨hm, by rintro rfl; exact hn hbh⟩
    · exact And.left

theorem Htable.Placed.stored_add {ht : Htable ν} {home : ν → Nat} (h : ht.Placed home) {node : ν}
    (hnew : ¬ ht.Stored node) (n : ν) :
    (ht.setBucket (home node) (dlistAdd (ht.buckets (home node)) node)).Stored n ↔
      ht.Stored n ∨ n = node := by
  rw [(h.add hnew).stored_iff, h.stored_iff, Htable.setBucket_buckets]
  by_cases hn : home n = home node
  · rw [if_pos hn, mem_dlistAdd, hn]
  · rw [if_neg hn]
    constructor
    · exact Or.inl
    · rintro (hm | rfl)
      · exact hm
      · exact absurd rfl hn

/-- **`htable_store`**: the new node is stored, and the node the search
found, if any, is not stored any more and returned. -/
theorem htableStore_spec [DecidableEq ν] {ht : Htable ν} {home : ν → Nat}
    {compare : ν → Option Int} {node : ν} {r : Option ν}
    (hfind : dlistFind compare (ht.buckets (home node)) = some r)
    (hplaced : ht.Placed home) (hnew : ¬ ht.Stored node) :
    ∃ ht', htableStore ht (home node) compare node = some (ht', r) ∧ ht'.size = ht.size ∧
      ht'.Placed home ∧ ∀ n, ht'.Stored n ↔ (ht.Stored n ∧ r ≠ some n) ∨ n = node := by
  cases r with
  | none =>
    refine ⟨ht.setBucket (home node) (dlistAdd (ht.buckets (home node)) node),
      by simp only [htableStore, hfind]; rfl, rfl, hplaced.add hnew, fun n => ?_⟩
    rw [hplaced.stored_add hnew n]
    simp
  | some old =>
    have hold := (dlistFind_some hfind).1
    have herase := hplaced.erase (home node) old
    have hstored := fun n => hplaced.stored_erase hold n
    have hnew' : ¬ (ht.setBucket (home node) ((ht.buckets (home node)).erase old)).Stored node :=
      fun hs => hnew ((hstored node).mp hs).1
    have hadd := herase.add hnew'
    have hiff := herase.stored_add hnew'
    rw [Htable.setBucket_same, Htable.setBucket_setBucket] at hadd
    simp only [Htable.setBucket_same, Htable.setBucket_setBucket] at hiff
    refine ⟨ht.setBucket (home node) (dlistAdd ((ht.buckets (home node)).erase old) node), ?_, rfl,
      hadd, fun n => ?_⟩
    · simp only [htableStore, hfind, Option.bind_eq_bind, Option.bind_some,
        dlistRemove_of_mem hold]
    · rw [hiff n, hstored n]
      simp [eq_comm]

end SpRtrace.Common
