/-
SpRtrace.Lib.TreeMap — a search tree as a map from keys to items.

Items with a key are kept in a tree whose comparison looks at the keys
only. `put` stores an item as C code with `tfind` and `tsearch` does: the
item that is found is changed in place, through the pointer into the tree,
and otherwise a new one is added. `Keeps` says which map the tree holds, and
each operation of the tree is the one of the map.
-/
import SpRtrace.Lib.SearchTree

namespace SpRtrace.Lib.SearchTree

variable {α κ : Type*}

/-- The item that compares equal on the way down is changed. -/
def assign (compare : α → α → Int) (probe : α) (change : α → α) : SearchTree α → SearchTree α
  | nil => nil
  | node left item right =>
      if compare probe item = 0 then node left (change item) right
      else if compare probe item < 0 then node (left.assign compare probe change) item right
      else node left item (right.assign compare probe change)

/-- The item that `tfind` finds is changed, or a new one is added. -/
def put (balance : SearchTree α → SearchTree α) (compare : α → α → Int) (probe : α) (change : α → α)
    (new : α) (tree : SearchTree α) : SearchTree α :=
  match tree.tfind compare probe with
  | some _ => tree.assign compare probe change
  | none => (tree.tsearch balance compare new).1

/-- The comparison is one of the keys. -/
structure Compares (compare : α → α → Int) (key : α → κ) (cmp : κ → κ → Int) : Prop where
  strict : Strict compare
  keys : ∀ x y, compare x y = cmp (key x) (key y)
  zero : ∀ a b, cmp a b = 0 ↔ a = b

variable {compare : α → α → Int} {key : α → κ} {cmp : κ → κ → Int}

theorem Compares.eq_zero (h : Compares compare key cmp) (x y : α) : compare x y = 0 ↔ key x = key y := by
  rw [h.keys, h.zero]

/-- Only the item that was found is changed. -/
theorem items_assign (change : α → α) {probe item : α} {tree : SearchTree α}
    (h : tree.tfind compare probe = some item) : ∃ front back, tree.items = front ++ item :: back ∧
      (tree.assign compare probe change).items = front ++ change item :: back := by
  induction tree with
  | nil => simp [tfind] at h
  | node left found right ihl ihr =>
    rw [tfind] at h
    rw [assign, items]
    split at h
    next hzero =>
      obtain rfl := Option.some.inj h
      rw [if_pos hzero]
      exact ⟨left.items, right.items, rfl, rfl⟩
    next hne =>
      rw [if_neg hne]
      split at h
      next hlt =>
        obtain ⟨front, back, hitems, hassign⟩ := ihl h
        rw [if_pos hlt, items, hitems, hassign]
        exact ⟨front, back ++ found :: right.items, by simp, by simp⟩
      next hge =>
        obtain ⟨front, back, hitems, hassign⟩ := ihr h
        rw [if_neg hge, items, hitems, hassign]
        exact ⟨left.items ++ found :: front, back, by simp, by simp⟩

/-- The tree holds the map `m`. -/
structure Keeps (compare : α → α → Int) (key : α → κ) (tree : SearchTree α) (m : κ → Option α) : Prop where
  sorted : tree.Sorted compare
  items : ∀ item, item ∈ tree.items ↔ m (key item) = some item
  keys : ∀ k item, m k = some item → key item = k

theorem Keeps.nil : Keeps compare key nil fun _ => none := ⟨.nil, by simp [SearchTree.items], by simp⟩

variable {tree : SearchTree α} {m : κ → Option α}

/-- **A lookup** is one in the map. -/
theorem Keeps.tfind (h : Keeps compare key tree m) (hcmp : Compares compare key cmp) (probe : α) :
    tree.tfind compare probe = m (key probe) := by
  have hsome := tfind_isSome (h.sorted.directed hcmp.strict probe)
  cases hfound : tree.tfind compare probe with
  | some item =>
    obtain ⟨hmem, hzero⟩ := tfind_mem hfound
    rw [(hcmp.eq_zero probe item).mp hzero, (h.items item).mp hmem]
  | none =>
    cases hm : m (key probe) with
    | none => rfl
    | some item =>
      have hkey := h.keys _ _ hm
      have hmem : item ∈ tree.items := (h.items item).mpr (by rw [hkey, hm])
      have := hsome.mpr ⟨item, hmem, (hcmp.eq_zero probe item).mpr hkey.symm⟩
      simp [hfound] at this

variable [DecidableEq κ]

/-- A changed item replaces the one that was found. -/
theorem Keeps.assign (h : Keeps compare key tree m) (hcmp : Compares compare key cmp) (change : α → α)
    {probe item : α} (hfound : tree.tfind compare probe = some item) (hkey : key (change item) = key item) :
    Keeps compare key (tree.assign compare probe change) (Function.update m (key item) (some (change item))) := by
  obtain ⟨front, back, hitems, hassign⟩ := items_assign change hfound
  have hsame : ∀ x, compare (change item) x = compare item x := fun x => by
    rw [hcmp.keys, hcmp.keys, hkey]
  have hsame' : ∀ x, compare x (change item) = compare x item := fun x => by
    rw [hcmp.keys, hcmp.keys, hkey]
  have hsorted := h.sorted
  rw [Sorted, hitems, List.pairwise_append, List.pairwise_cons] at hsorted
  have hother : ∀ x ∈ front ++ back, key x ≠ key item := fun x hx heq => by
    have hzero := (hcmp.eq_zero x item).mpr heq
    have hzero' := (hcmp.eq_zero item x).mpr heq.symm
    rcases List.mem_append.mp hx with hx | hx
    · have := hsorted.2.2 x hx item (by simp)
      omega
    · have := hsorted.2.1.1 x hx
      omega
  refine ⟨?_, fun x => ?_, fun k x hx => ?_⟩
  · rw [Sorted, hassign, List.pairwise_append, List.pairwise_cons]
    refine ⟨hsorted.1, ⟨fun y hy => (hsame y).symm ▸ hsorted.2.1.1 y hy, hsorted.2.1.2⟩, fun x hx y hy => ?_⟩
    rcases List.mem_cons.mp hy with rfl | hy
    · exact (hsame' x).symm ▸ hsorted.2.2 x hx item (by simp)
    · exact hsorted.2.2 x hx y (by simp [hy])
  · have hold := h.items x
    rw [hitems] at hold
    rw [hassign, Function.update_apply]
    by_cases hx : key x = key item
    · have hout : x ∉ front ++ back := fun hmem => hother x hmem hx
      rw [List.mem_append, not_or] at hout
      simp [hx, hout.1, hout.2, eq_comm]
    · have hne : x ≠ item := fun heq => hx (by rw [heq])
      have hne' : x ≠ change item := fun heq => hx (by rw [heq, hkey])
      rw [if_neg hx, ← hold]
      simp [hne, hne']
  · rw [Function.update_apply] at hx
    split at hx
    next heq =>
      obtain rfl := Option.some.inj hx
      rw [hkey, heq]
    · exact h.keys k x hx

/-- A new item is added. -/
theorem Keeps.tsearch (h : Keeps compare key tree m) (hcmp : Compares compare key cmp)
    {balance : SearchTree α → SearchTree α} (hbalance : Balances balance) {new : α} (hnew : m (key new) = none) :
    Keeps compare key (tree.tsearch balance compare new).1 (Function.update m (key new) (some new)) := by
  obtain ⟨-, hadd, hsorted⟩ := tsearch_spec hbalance hcmp.strict h.sorted new
  have hnone : ∀ item ∈ tree.items, compare new item ≠ 0 := fun item hmem hzero => by
    have hitem := (h.items item).mp hmem
    rw [← (hcmp.eq_zero new item).mp hzero, hnew] at hitem
    cases hitem
  obtain ⟨-, hperm⟩ := hadd hnone
  refine ⟨hsorted, fun x => ?_, fun k x hx => ?_⟩
  · rw [hperm.mem_iff, List.mem_cons, h.items, Function.update_apply]
    by_cases hx : key x = key new
    · simp [hx, hnew, eq_comm]
    · have hne : x ≠ new := fun heq => hx (by rw [heq])
      simp [hx, hne]
  · rw [Function.update_apply] at hx
    split at hx
    next heq =>
      obtain rfl := Option.some.inj hx
      exact heq.symm
    · exact h.keys k x hx

/-- **A store** is one in the map, if a changed item is the new one. -/
theorem Keeps.put (h : Keeps compare key tree m) (hcmp : Compares compare key cmp)
    {balance : SearchTree α → SearchTree α} (hbalance : Balances balance) {probe new : α} {change : α → α}
    (hprobe : key probe = key new) (hchange : ∀ item, key item = key new → change item = new) :
    Keeps compare key (tree.put balance compare probe change new)
      (Function.update m (key new) (some new)) := by
  have hfind := h.tfind hcmp probe
  unfold SearchTree.put
  cases hfound : tree.tfind compare probe with
  | some item =>
    rw [hfound, hprobe] at hfind
    have hkey := h.keys _ _ hfind.symm
    have hitem := hchange item hkey
    have hassign := h.assign hcmp change hfound (by rw [hitem, hkey])
    rwa [hitem, hkey] at hassign
  | none =>
    rw [hfound, hprobe] at hfind
    exact h.tsearch hcmp hbalance hfind.symm

end SpRtrace.Lib.SearchTree
