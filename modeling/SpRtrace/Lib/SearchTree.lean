/-
SpRtrace.Lib.SearchTree — `tsearch`, `tfind` and `twalk`.

A tree of items is searched with a comparison that need not be an order.
How an implementation balances its trees is a parameter: any function that
keeps the items from left to right. What a search finds then depends on
this list only, as long as the comparisons with it point in one direction
(`Directed`).
-/
import Mathlib

namespace SpRtrace.Lib

/-- A binary tree with items at its nodes. -/
inductive SearchTree (α : Type*)
  | nil
  | node (left : SearchTree α) (item : α) (right : SearchTree α)
  deriving DecidableEq, Repr

variable {α : Type*}

namespace SearchTree

def items : SearchTree α → List α
  | nil => []
  | node left item right => left.items ++ item :: right.items

/-- `tfind`: the item that compares equal on the way down. -/
def tfind (compare : α → α → Int) (key : α) : SearchTree α → Option α
  | nil => none
  | node left item right =>
      if compare key item = 0 then some item
      else if compare key item < 0 then left.tfind compare key
      else right.tfind compare key

/-- The key becomes a new leaf at the end of the way down. -/
def attach (compare : α → α → Int) (key : α) : SearchTree α → SearchTree α
  | nil => node nil key nil
  | node left item right =>
      if compare key item < 0 then node (left.attach compare key) item right
      else node left item (right.attach compare key)

/-- `tsearch`: the tree, and the item that was found or the key, which is
then in the tree. -/
def tsearch (balance : SearchTree α → SearchTree α) (compare : α → α → Int) (key : α)
    (tree : SearchTree α) : SearchTree α × α :=
  match tree.tfind compare key with
  | some item => (balance tree, item)
  | none => (balance (tree.attach compare key), key)

inductive Visit
  | preorder
  | postorder
  | endorder
  | leaf
  deriving DecidableEq, Repr

/-- `twalk`: the nodes with the times of their visits. -/
def twalk : SearchTree α → List (α × Visit)
  | nil => []
  | node nil item nil => [(item, .leaf)]
  | node left item right =>
      (item, .preorder) :: left.twalk ++ (item, .postorder) :: right.twalk ++ [(item, .endorder)]

def Balances (balance : SearchTree α → SearchTree α) : Prop := ∀ tree, (balance tree).items = tree.items

/-- From left to right the comparisons with the key never turn back to an
item on the left. -/
def Directed (compare : α → α → Int) (key : α) (items : List α) : Prop :=
  items.Pairwise fun x y => (compare key x < 0 → compare key y < 0) ∧
    (0 < compare key y → 0 < compare key x)

variable {compare : α → α → Int} {key : α}

theorem tfind_mem {tree : SearchTree α} {item : α} (h : tree.tfind compare key = some item) :
    item ∈ tree.items ∧ compare key item = 0 := by
  induction tree with
  | nil => exact absurd h (by simp [tfind])
  | node left found right ihl ihr =>
    rw [tfind] at h
    split at h
    next heq =>
      obtain rfl := Option.some.inj h
      exact ⟨by simp [items], heq⟩
    · split at h
      · exact ⟨List.mem_append_left _ (ihl h).1, (ihl h).2⟩
      · exact ⟨List.mem_append_right _ (List.mem_cons_of_mem _ (ihr h).1), (ihr h).2⟩

theorem Directed.parts {left right : List α} {item : α}
    (h : Directed compare key (left ++ item :: right)) :
    Directed compare key left ∧ Directed compare key right ∧
      (compare key item < 0 → ∀ y ∈ right, compare key y < 0) ∧
      (0 < compare key item → ∀ x ∈ left, 0 < compare key x) := by
  obtain ⟨hleft, hrest, hcross⟩ := List.pairwise_append.mp h
  obtain ⟨hitem, hright⟩ := List.pairwise_cons.mp hrest
  exact ⟨hleft, hright, fun hlt y hy => (hitem y hy).1 hlt,
    fun hgt x hx => (hcross x hx item (List.mem_cons_self ..)).2 hgt⟩

/-- **The search** finds an item if one compares equal. -/
theorem tfind_isSome {tree : SearchTree α} (h : Directed compare key tree.items) :
    (tree.tfind compare key).isSome ↔ ∃ item ∈ tree.items, compare key item = 0 := by
  induction tree with
  | nil => simp [tfind, items]
  | node left item right ihl ihr =>
    rw [items] at h
    obtain ⟨hleft, hright, hbelow, habove⟩ := h.parts
    rw [tfind, items]
    rcases lt_trichotomy (compare key item) 0 with hlt | heq | hgt
    · rw [if_neg (by omega), if_pos hlt, ihl hleft]
      constructor
      · rintro ⟨x, hx, hzero⟩
        exact ⟨x, List.mem_append_left _ hx, hzero⟩
      · rintro ⟨x, hx, hzero⟩
        rcases List.mem_append.mp hx with hx | hx
        · exact ⟨x, hx, hzero⟩
        · rcases List.mem_cons.mp hx with rfl | hx
          · omega
          · have := hbelow hlt x hx
            omega
    · rw [if_pos heq]
      exact iff_of_true rfl ⟨item, by simp, heq⟩
    · rw [if_neg (by omega), if_neg (by omega), ihr hright]
      constructor
      · rintro ⟨x, hx, hzero⟩
        exact ⟨x, List.mem_append_right _ (List.mem_cons_of_mem _ hx), hzero⟩
      · rintro ⟨x, hx, hzero⟩
        rcases List.mem_append.mp hx with hx | hx
        · have := habove hgt x hx
          omega
        · rcases List.mem_cons.mp hx with rfl | hx
          · omega
          · exact ⟨x, hx, hzero⟩

/-- **A new item** goes between those that compare below and above it. -/
theorem items_attach {tree : SearchTree α} (h : Directed compare key tree.items)
    (hnew : ∀ item ∈ tree.items, compare key item ≠ 0) :
    ∃ front back, tree.items = front ++ back ∧ (tree.attach compare key).items = front ++ key :: back ∧
      (∀ x ∈ front, 0 < compare key x) ∧ ∀ y ∈ back, compare key y < 0 := by
  induction tree with
  | nil => exact ⟨[], [], rfl, rfl, by simp, by simp⟩
  | node left item right ihl ihr =>
    rw [items] at h hnew
    obtain ⟨hleft, hright, hbelow, habove⟩ := h.parts
    have hitem := hnew item (by simp)
    rw [attach, items]
    split
    next hlt =>
      obtain ⟨front, back, hitems, hattach, hfront, hback⟩ :=
        ihl hleft fun x hx => hnew x (List.mem_append_left _ hx)
      refine ⟨front, back ++ item :: right.items, ?_, ?_, hfront, fun y hy => ?_⟩
      · rw [hitems, List.append_assoc]
      · rw [items, hattach, List.append_assoc, List.cons_append]
      · rcases List.mem_append.mp hy with hy | hy
        · exact hback y hy
        · rcases List.mem_cons.mp hy with rfl | hy
          · exact hlt
          · exact hbelow hlt y hy
    next hge =>
      have hgt : 0 < compare key item := by omega
      obtain ⟨front, back, hitems, hattach, hfront, hback⟩ :=
        ihr hright fun x hx => hnew x (List.mem_append_right _ (List.mem_cons_of_mem _ hx))
      refine ⟨left.items ++ item :: front, back, ?_, ?_, fun x hx => ?_, hback⟩
      · rw [hitems, List.append_assoc, List.cons_append]
      · rw [items, hattach, List.append_assoc, List.cons_append]
      · rcases List.mem_append.mp hx with hx | hx
        · exact habove hgt x hx
        · rcases List.mem_cons.mp hx with rfl | hx
          · exact hgt
          · exact hfront x hx

/-! ## Sorted trees -/

/-- The items are in the order of the comparison. -/
def Sorted (compare : α → α → Int) (tree : SearchTree α) : Prop :=
  tree.items.Pairwise fun x y => compare x y < 0

/-- A comparison that is transitive where it is strict, and the same from
both sides. -/
structure Strict (compare : α → α → Int) : Prop where
  swap : ∀ x y, compare y x = -compare x y
  trans : ∀ x y z, compare x y < 0 → compare y z < 0 → compare x z < 0

/-- Every key is directed by a sorted tree. -/
theorem Sorted.directed (hcompare : Strict compare) {tree : SearchTree α} (h : tree.Sorted compare)
    (key : α) : Directed compare key tree.items := by
  refine h.imp fun {x y} hlt => ⟨fun hkey => hcompare.trans key x y hkey hlt, fun hkey => ?_⟩
  have hyk : compare y key < 0 := by rw [hcompare.swap key y]; omega
  have hxk := hcompare.trans x y key hlt hyk
  rw [hcompare.swap key x] at hxk
  omega

theorem Sorted.nil : (nil : SearchTree α).Sorted compare := List.Pairwise.nil

/-- **`tsearch`** on a sorted tree: an equal item is found and the items
stay, or there is none and the key is added in its place. -/
theorem tsearch_spec {balance : SearchTree α → SearchTree α} (hbalance : Balances balance)
    (hcompare : Strict compare) {tree : SearchTree α} (h : tree.Sorted compare) (key : α) :
    ((∃ item ∈ tree.items, compare key item = 0) →
      (tree.tsearch balance compare key).2 ∈ tree.items ∧
      compare key (tree.tsearch balance compare key).2 = 0 ∧
      (tree.tsearch balance compare key).1.items = tree.items) ∧
    ((∀ item ∈ tree.items, compare key item ≠ 0) →
      (tree.tsearch balance compare key).2 = key ∧
      (tree.tsearch balance compare key).1.items.Perm (key :: tree.items)) ∧
    (tree.tsearch balance compare key).1.Sorted compare := by
  have hdirected := h.directed hcompare key
  have hfind := tfind_isSome hdirected
  unfold tsearch
  cases hfound : tree.tfind compare key with
  | some item =>
    obtain ⟨hmem, hzero⟩ := tfind_mem hfound
    refine ⟨fun _ => ⟨hmem, hzero, hbalance tree⟩, fun hnew => absurd hzero (hnew item hmem), ?_⟩
    rw [Sorted, hbalance]
    exact h
  | none =>
    have hnew : ∀ item ∈ tree.items, compare key item ≠ 0 := by
      intro item hmem hzero
      have hsome := hfind.mpr ⟨item, hmem, hzero⟩
      rw [hfound] at hsome
      exact absurd hsome (by simp)
    obtain ⟨front, back, hitems, hattach, hfront, hback⟩ := items_attach hdirected hnew
    refine ⟨fun hex => ?_, fun _ => ⟨rfl, ?_⟩, ?_⟩
    · obtain ⟨item, hmem, hzero⟩ := hex
      exact absurd hzero (hnew item hmem)
    · rw [hbalance, hattach, hitems]
      exact List.perm_middle
    · rw [Sorted, hitems] at h
      obtain ⟨hleft, hright, hcross⟩ := List.pairwise_append.mp h
      rw [Sorted, hbalance, hattach]
      refine List.pairwise_append.mpr ⟨hleft, List.pairwise_cons.mpr ⟨hback, hright⟩, ?_⟩
      intro x hx y hy
      rcases List.mem_cons.mp hy with rfl | hy
      · rw [hcompare.swap]
        have := hfront x hx
        omega
      · exact hcross x hx y hy

/-! ## Walks -/

/-- The visits of a node that count: in order or as a leaf. -/
def Visit.counts : Visit → Bool
  | .postorder => true
  | .leaf => true
  | _ => false

/-- **A walk** visits every node once in order or as a leaf. -/
theorem twalk_counts (tree : SearchTree α) :
    (tree.twalk.filter fun visit => visit.2.counts).map Prod.fst = tree.items := by
  induction tree using twalk.induct with
  | case1 => rfl
  | case2 item => rfl
  | case3 left item right hleaf ihl ihr =>
    have hpre : Visit.preorder.counts = false := rfl
    have hpost : Visit.postorder.counts = true := rfl
    have hend : Visit.endorder.counts = false := rfl
    rw [twalk]
    · simp [hpre, hpost, hend, ihl, ihr, items]
    · exact hleaf

end SearchTree

end SpRtrace.Lib
