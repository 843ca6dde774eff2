/-
SpRtrace.Common.DlistLinks — the links behind the container of
`src/common/dlist.c`.

`SpRtrace.Common.Dlist` gives a list by its nodes. Here it is what the
source has in memory: a next and a previous link in every node and a
`dlist_t` with the two ends. `head` is the LAST node and `tail` the first.
Following a null pointer is `none`. A comparison reads what the nodes
hold besides their links, so it is a function of the nodes.

`DlistState.Holds` says that the list is well formed and which nodes it
has; every operation keeps it and does to the nodes what its namesake in
`SpRtrace.Common.Dlist` does.
-/
import Mathlib
import SpRtrace.Common.Dlist
import SpRtrace.Lib.DoubleLinks
import SpRtrace.Lib.StableSort

namespace SpRtrace.Common.DlistLinks

open SpRtrace.Lib

variable {ν σ : Type}

/-! ## The source -/

structure DlistT (ν : Type) where
  head : Option ν
  tail : Option ν

/-- The memory with one list in it. -/
structure DlistState (ν : Type) where
  links : Links ν
  list : DlistT ν

def dlistInit : DlistT ν := { head := none, tail := none }

namespace DlistState

/-- `list->head = p`. -/
def setHead (s : DlistState ν) (p : Option ν) : DlistState ν :=
  { s with list := { s.list with head := p } }

/-- `list->tail = p`. -/
def setTail (s : DlistState ν) (p : Option ν) : DlistState ν :=
  { s with list := { s.list with tail := p } }

@[simp] theorem setHead_links (s : DlistState ν) (p : Option ν) :
    (s.setHead p).links = s.links := rfl

@[simp] theorem setHead_list (s : DlistState ν) (p : Option ν) :
    (s.setHead p).list = { s.list with head := p } := rfl

@[simp] theorem setTail_links (s : DlistState ν) (p : Option ν) :
    (s.setTail p).links = s.links := rfl

@[simp] theorem setTail_list (s : DlistState ν) (p : Option ν) :
    (s.setTail p).list = { s.list with tail := p } := rfl

variable [DecidableEq ν]

/-- `node->next = p`. -/
def setNext (s : DlistState ν) (node : ν) (p : Option ν) : DlistState ν :=
  { s with links := s.links.setNext node p }

/-- `node->prev = p`. -/
def setPrev (s : DlistState ν) (node : ν) (p : Option ν) : DlistState ν :=
  { s with links := s.links.setPrev node p }

@[simp] theorem setNext_links (s : DlistState ν) (a : ν) (p : Option ν) :
    (s.setNext a p).links = s.links.setNext a p := rfl

@[simp] theorem setNext_list (s : DlistState ν) (a : ν) (p : Option ν) :
    (s.setNext a p).list = s.list := rfl

@[simp] theorem setPrev_links (s : DlistState ν) (a : ν) (p : Option ν) :
    (s.setPrev a p).links = s.links.setPrev a p := rfl

@[simp] theorem setPrev_list (s : DlistState ν) (a : ν) (p : Option ν) :
    (s.setPrev a p).list = s.list := rfl

end DlistState

section Operations

variable [DecidableEq ν]

def dlistAdd (s : DlistState ν) (node : ν) : DlistState ν :=
  let s := match s.list.head with
    | some head => s.setNext head (some node)
    | none => s.setTail (some node)
  let s := s.setPrev node s.list.head
  let s := s.setNext node none
  s.setHead (some node)

/-- The loop of `dlist_add_sorted`: the node after which the new one is put
in. The number bounds the turns. -/
def sortedPlace (links : Links ν) (compare : ν → ν → Int) (node : ν) : Nat → ν → Option ν
  | 0, _ => none
  | fuel + 1, curNode =>
      match links.next curNode with
      | none => some curNode
      | some next =>
          if compare node next > 0 then sortedPlace links compare node fuel next else some curNode

def dlistAddSorted (compare : ν → ν → Int) (fuel : Nat) (s : DlistState ν) (node : ν) :
    Option (DlistState ν) := do
  -- !list->tail || compare(list_node, list->tail) < 0
  if s.list.tail.all fun tail => compare node tail < 0 then
    let s := s.setNext node s.list.tail
    let s := s.setPrev node none
    let s ← match s.list.head with
      | none => some (s.setHead (some node))
      | some _ => do
          let tail ← s.list.tail
          some (s.setPrev tail (some node))
    some (s.setTail (some node))
  else
    let tail ← s.list.tail
    let curNode ← sortedPlace s.links compare node fuel tail
    let s := match s.links.next curNode with
      | none => s.setHead (some node)
      | some next => s.setPrev next (some node)
    let s := s.setNext node (s.links.next curNode)
    let s := s.setNext curNode (some node)
    some (s.setPrev node (some curNode))

/-- The loop of `dlist_add_sorted_r`: the node before which the new one is
put in. -/
def sortedPlaceR (links : Links ν) (compare : ν → ν → Int) (node : ν) : Nat → ν → Option ν
  | 0, _ => none
  | fuel + 1, curNode =>
      match links.prev curNode with
      | none => some curNode
      | some prev =>
          if compare node prev < 0 then sortedPlaceR links compare node fuel prev else some curNode

def dlistAddSortedR (compare : ν → ν → Int) (fuel : Nat) (s : DlistState ν) (node : ν) :
    Option (DlistState ν) := do
  -- !list->head || compare(list_node, list->head) >= 0
  if s.list.head.all fun head => compare node head ≥ 0 then
    let s := s.setPrev node s.list.head
    let s := s.setNext node none
    let s ← match s.list.tail with
      | none => some (s.setTail (some node))
      | some _ => do
          let head ← s.list.head
          some (s.setNext head (some node))
    some (s.setHead (some node))
  else
    let head ← s.list.head
    let curNode ← sortedPlaceR s.links compare node fuel head
    let s := match s.links.prev curNode with
      | none => s.setTail (some node)
      | some prev => s.setNext prev (some node)
    let s := s.setPrev node (s.links.prev curNode)
    let s := s.setPrev curNode (some node)
    some (s.setNext node (some curNode))

/-- The loop of `dlist_find`. -/
def dlistFindLoop (links : Links ν) (compare : ν → Int) : Nat → Option ν → Option (Option ν)
  | _, none => some none
  | 0, some _ => none
  | fuel + 1, some node =>
      if compare node ≠ 0 then dlistFindLoop links compare fuel (links.next node)
      else some (some node)

def dlistFind (compare : ν → Int) (fuel : Nat) (s : DlistState ν) : Option (Option ν) :=
  dlistFindLoop s.links compare fuel s.list.tail

def dlistRemove (s : DlistState ν) (node : ν) : DlistState ν :=
  let s := match s.links.prev node with
    | some prev => s.setNext prev (s.links.next node)
    | none => s.setTail (s.links.next node)
  match s.links.next node with
  | some next => s.setPrev next (s.links.prev node)
  | none => s.setHead (s.links.prev node)

end Operations

/-- The loop of `dlist_foreach2`; `list` reads the memory out of the state
the callback works on. -/
def dlistForeach2Loop (list : σ → DlistState ν) (doWhat : ν → σ → Option σ) :
    Nat → Option ν → σ → Option σ
  | _, none, s => some s
  | 0, some _, _ => none
  | fuel + 1, some current, s => do
      -- the link is read before the callback runs
      let node := (list s).links.next current
      let s ← doWhat current s
      dlistForeach2Loop list doWhat fuel node s

def dlistForeach2 (list : σ → DlistState ν) (doWhat : ν → σ → Option σ) (fuel : Nat) (s : σ) :
    Option σ :=
  dlistForeach2Loop list doWhat fuel (list s).list.tail s

/-! ## Well-formed lists -/

/-- The list is well formed and has these nodes, from the first to the last. -/
def DlistState.Holds (s : DlistState ν) (nodes : List ν) : Prop :=
  IsList s.links s.list.tail s.list.head nodes

/-- Nodes no link of which is set, and an empty list. -/
def DlistState.blank (ν : Type) : DlistState ν := ⟨⟨fun _ => none, fun _ => none⟩, dlistInit⟩

theorem DlistState.blank_holds (ν : Type) : (DlistState.blank ν).Holds [] := IsList.nil _

section

variable [DecidableEq ν] {s : DlistState ν} {nodes pre post : List ν} {node : ν}

/-- `dlist_add` appends. -/
theorem dlistAdd_holds (h : s.Holds nodes) (hnew : node ∉ nodes) :
    (dlistAdd s node).Holds (nodes ++ [node]) := by
  have h' : s.Holds (nodes ++ []) := by rwa [List.append_nil]
  have hhead := h.last_eq
  cases hlast : nodes.getLast? with
  | none =>
    rw [hlast] at hhead
    obtain rfl : nodes = [] := List.getLast?_eq_none_iff.mp hlast
    refine h'.insert (by simp) (fun b => ?_) (fun b => ?_) ?_ ?_ <;> simp [dlistAdd, hhead]
  | some head =>
    rw [hlast] at hhead
    refine h'.insert (by simpa using hnew) (fun b => ?_) (fun b => ?_) ?_ ?_
    · simp [dlistAdd, hhead, hlast]
    · simp [dlistAdd, hhead, hlast]
    · obtain ⟨front, rfl⟩ := List.getLast?_eq_some_iff.mp hlast
      simp [dlistAdd, hhead, h.first_eq]
    · simp [dlistAdd, hhead]

/-- `dlist_remove` of a member takes it out. -/
theorem dlistRemove_holds (h : s.Holds (pre ++ node :: post)) :
    (dlistRemove s node).Holds (pre ++ post) := by
  have hnext : s.links.next node = post.head? := h.next_eq
  have hprev : s.links.prev node = pre.getLast? := h.prev_eq
  have hfirst : s.list.tail = (pre ++ node :: post).head? := h.first_eq
  have hlast : s.list.head = (pre ++ node :: post).getLast? := h.last_eq
  cases hp : pre.getLast? with
  | none =>
    obtain rfl : pre = [] := List.getLast?_eq_none_iff.mp hp
    cases post with
    | nil =>
      refine h.unlink (fun b => ?_) (fun b => ?_) ?_ ?_ <;> simp [dlistRemove, hprev, hnext]
    | cons q post =>
      refine h.unlink (fun b => ?_) (fun b => ?_) ?_ ?_
      · simp [dlistRemove, hprev, hnext]
      · simp [dlistRemove, hprev, hnext]
      · simp [dlistRemove, hprev, hnext]
      · simpa [dlistRemove, hprev, hnext] using hlast
  | some p =>
    obtain ⟨pre, rfl⟩ := List.getLast?_eq_some_iff.mp hp
    rw [hp] at hprev
    cases post with
    | nil =>
      refine h.unlink (fun b => ?_) (fun b => ?_) ?_ ?_
      · simp [dlistRemove, hprev, hnext]
      · simp [dlistRemove, hprev, hnext]
      · simpa [dlistRemove, hprev, hnext] using hfirst
      · simp [dlistRemove, hprev, hnext]
    | cons q post =>
      refine h.unlink (fun b => ?_) (fun b => ?_) ?_ ?_
      · simp [dlistRemove, hprev, hnext]
      · simp [dlistRemove, hprev, hnext]
      · simpa [dlistRemove, hprev, hnext] using hfirst
      · simpa [dlistRemove, hprev, hnext] using hlast

/-- `dlist_add` writes to the node and to the list's own nodes. -/
theorem dlistAdd_outside (h : s.Holds nodes) (node : ν) :
    SameOutside (node :: nodes) s.links (dlistAdd s node).links := by
  have hhead : s.list.head = nodes.getLast? := h.last_eq
  have hself : SameOutside (node :: nodes) s.links s.links := .refl _ _
  cases hlast : nodes.getLast? with
  | none =>
    rw [hlast] at hhead
    simp only [dlistAdd, hhead]
    exact (hself.setPrev (by simp) _).setNext (by simp) _
  | some head =>
    rw [hlast] at hhead
    simp only [dlistAdd, hhead]
    exact ((hself.setNext (by simp [List.mem_of_getLast? hlast]) _).setPrev (by simp) _).setNext
      (by simp) _

/-- `dlist_remove` writes to the list's own nodes. -/
theorem dlistRemove_outside (h : s.Holds (pre ++ node :: post)) :
    SameOutside (pre ++ node :: post) s.links (dlistRemove s node).links := by
  have hnext : s.links.next node = post.head? := h.next_eq
  have hprev : s.links.prev node = pre.getLast? := h.prev_eq
  have hself : SameOutside (pre ++ node :: post) s.links s.links := .refl _ _
  cases hp : pre.getLast? with
  | none =>
    cases hq : post.head? with
    | none => simpa [dlistRemove, hprev, hnext, hp, hq] using hself
    | some q =>
      simp only [dlistRemove, hprev, hnext, hp, hq, DlistState.setTail_links]
      exact hself.setPrev (by simp [List.mem_of_head? hq]) _
  | some p =>
    have hset := hself.setNext (a := p) (by simp [List.mem_of_getLast? hp]) post.head?
    cases hq : post.head? with
    | none => simpa [dlistRemove, hprev, hnext, hp, hq] using hq ▸ hset
    | some q =>
      have hset' := (hq ▸ hset).setPrev (a := q) (by simp [List.mem_of_head? hq]) pre.getLast?
      simpa [dlistRemove, hprev, hnext, hp, hq] using hp ▸ hset'

end

/-- `dlist_find` goes through the nodes in order. -/
theorem dlistFind_eq {compare : ν → Int} {fuel : Nat} {s : DlistState ν} {nodes : List ν}
    (h : s.Holds nodes) (hfuel : nodes.length ≤ fuel) :
    dlistFind compare fuel s = some (nodes.find? fun n => decide (compare n = 0)) := by
  have hloop : ∀ {rest pre : List ν} {fuel : Nat}, nodes = pre ++ rest → rest.length ≤ fuel →
      dlistFindLoop s.links compare fuel rest.head?
        = some (rest.find? fun n => decide (compare n = 0)) := by
    intro rest
    induction rest with
    | nil =>
      intro pre fuel _ _
      cases fuel <;> rfl
    | cons node rest ih =>
      intro pre fuel hnodes hlen
      obtain ⟨fuel, rfl⟩ := Nat.exists_eq_succ_of_ne_zero (Nat.ne_of_gt (Nat.zero_lt_of_lt hlen))
      have hnext : s.links.next node = rest.head? := IsList.next_eq (hnodes ▸ h)
      by_cases hzero : compare node = 0
      · simp [dlistFindLoop, hzero]
      · rw [List.head?_cons, dlistFindLoop, if_pos hzero, hnext,
          List.find?_cons_of_neg (by simpa using hzero)]
        have hnodes' : nodes = (pre ++ [node]) ++ rest := by
          rw [hnodes, List.append_assoc, List.singleton_append]
        exact ih hnodes' (Nat.le_of_succ_le_succ hlen)
  rw [dlistFind, h.first_eq]
  exact hloop (List.nil_append nodes).symm hfuel

/-! ## Sorted insertion -/

/-- Where `dlist_add_sorted` puts a node. -/
def sortedInsert (compare : ν → ν → Int) (node : ν) : List ν → List ν
  | [] => [node]
  | first :: rest =>
      if compare node first < 0 then node :: first :: rest
      else first :: (rest.takeWhile (fun x => compare node x > 0) ++
        node :: rest.dropWhile fun x => compare node x > 0)

/-- Where `dlist_add_sorted_r` puts it. -/
def sortedInsertR (compare : ν → ν → Int) (node : ν) (nodes : List ν) : List ν :=
  nodes.rdropWhile (fun x => compare node x < 0) ++
    node :: nodes.rtakeWhile fun x => compare node x < 0

section

variable {s : DlistState ν}

/-- The walk from the first node ends at the last one that is less than the
new node. -/
theorem sortedPlace_spec (compare : ν → ν → Int) (node : ν) {fuel : Nat} {pre post : List ν} {cur : ν}
    (h : s.Holds (pre ++ cur :: post)) (hfuel : post.length < fuel) :
    ∃ front last, cur :: post.takeWhile (fun x => compare node x > 0) = front ++ [last] ∧
      sortedPlace s.links compare node fuel cur = some last := by
  induction post generalizing pre cur fuel with
  | nil =>
    obtain ⟨fuel, rfl⟩ := Nat.exists_eq_succ_of_ne_zero (Nat.ne_of_gt hfuel)
    refine ⟨[], cur, rfl, ?_⟩
    simp [sortedPlace, h.next_eq]
  | cons next post ih =>
    obtain ⟨fuel, rfl⟩ := Nat.exists_eq_succ_of_ne_zero (Nat.ne_of_gt (Nat.zero_lt_of_lt hfuel))
    by_cases hgt : compare node next > 0
    · have h' : s.Holds ((pre ++ [cur]) ++ next :: post) := by
        rwa [List.append_assoc, List.singleton_append]
      obtain ⟨front, last, heq, hplace⟩ := ih h' (by simpa using hfuel)
      refine ⟨cur :: front, last, ?_, ?_⟩
      · rw [List.takeWhile_cons_of_pos (by simpa using hgt), heq]
        rfl
      · simpa [sortedPlace, h.next_eq, hgt] using hplace
    · refine ⟨[], cur, ?_, ?_⟩
      · rw [List.takeWhile_cons_of_neg (by simpa using hgt)]
        rfl
      · simp [sortedPlace, h.next_eq, hgt]

theorem sortedPlaceR_spec (compare : ν → ν → Int) (node : ν) {fuel : Nat} {pre post : List ν} {cur : ν}
    (h : s.Holds (pre ++ cur :: post)) (hfuel : pre.length < fuel) :
    ∃ first back, pre.rtakeWhile (fun x => compare node x < 0) ++ [cur] = first :: back ∧
      sortedPlaceR s.links compare node fuel cur = some first := by
  induction pre using List.reverseRecOn generalizing post cur fuel with
  | nil =>
    obtain ⟨fuel, rfl⟩ := Nat.exists_eq_succ_of_ne_zero (Nat.ne_of_gt hfuel)
    refine ⟨cur, [], rfl, ?_⟩
    simp [sortedPlaceR, h.prev_eq]
  | append_singleton pre prev ih =>
    obtain ⟨fuel, rfl⟩ := Nat.exists_eq_succ_of_ne_zero (Nat.ne_of_gt (Nat.zero_lt_of_lt hfuel))
    by_cases hlt : compare node prev < 0
    · have h' : s.Holds (pre ++ prev :: (cur :: post)) := by
        rwa [List.append_assoc, List.singleton_append] at h
      obtain ⟨first, back, heq, hplace⟩ := ih h' (by simpa using hfuel)
      refine ⟨first, back ++ [cur], ?_, ?_⟩
      · rw [List.rtakeWhile_concat_pos _ _ _ (by simpa using hlt), heq]
        rfl
      · simpa [sortedPlaceR, h.prev_eq, hlt] using hplace
    · refine ⟨cur, [], ?_, ?_⟩
      · rw [List.rtakeWhile_concat_neg _ _ _ (by simpa using hlt)]
        rfl
      · simp [sortedPlaceR, h.prev_eq, hlt]

variable [DecidableEq ν] {node : ν}

/-- **`dlist_add_sorted`** goes through. -/
theorem dlistAddSorted_holds (compare : ν → ν → Int) {fuel : Nat} {nodes : List ν}
    (h : s.Holds nodes) (hnew : node ∉ nodes) (hfuel : nodes.length ≤ fuel) :
    ∃ s', dlistAddSorted compare fuel s node = some s' ∧
      s'.Holds (sortedInsert compare node nodes) := by
  have htail : s.list.tail = nodes.head? := h.first_eq
  have hhead : s.list.head = nodes.getLast? := h.last_eq
  cases nodes with
  | nil =>
    refine ⟨_, by simp [dlistAddSorted, htail, hhead]; rfl, ?_⟩
    have h' : s.Holds ([] ++ []) := h
    refine h'.insert (by simp) (fun b => ?_) (fun b => ?_) ?_ ?_ <;> simp
  | cons first rest =>
    rw [List.head?_cons] at htail
    have hfirst : first ≠ node := fun e => hnew (by simp [e])
    by_cases hlt : compare node first < 0
    · have h' : s.Holds ([] ++ first :: rest) := h
      rw [sortedInsert, if_pos hlt]
      refine ⟨_, by simp [dlistAddSorted, htail, hhead, List.getLast?_cons, hlt]; rfl, ?_⟩
      refine h'.insert hnew (fun b => ?_) (fun b => ?_) ?_ ?_
      · simp
      · by_cases hb : b = node <;> simp [hb, hfirst.symm]
      · simp
      · simp [hhead]
    · have hstart : s.Holds ([] ++ first :: rest) := h
      obtain ⟨front, last, hfront, hplace⟩ := sortedPlace_spec compare node hstart hfuel
      rw [sortedInsert, if_neg hlt]
      set back := rest.dropWhile fun x => compare node x > 0 with hback
      have hparts : first :: rest = (front ++ [last]) ++ back := by
        rw [← hfront, List.cons_append, List.takeWhile_append_dropWhile]
      rw [← List.cons_append, hfront]
      rw [hparts] at h hnew hhead
      have hnext : s.links.next last = back.head? := by
        rw [List.append_assoc] at h
        exact h.next_eq
      have hlast : last ≠ node := fun e => hnew (by simp [e])
      have hhd : (front ++ [last]).head? = some first := by rw [← hfront]; rfl
      cases hq : back.head? with
      | none =>
        rw [List.head?_eq_none_iff.mp hq] at h hnew hnext ⊢
        refine ⟨_, by simp [dlistAddSorted, htail, hlt, hplace, hnext]; rfl, ?_⟩
        refine h.insert hnew (fun b => ?_) (fun b => ?_) ?_ ?_
        · by_cases hb : b = node <;> simp [hb, hlast.symm]
        · simp
        · simp [htail, ← hhd]
        · simp
      | some q =>
        obtain ⟨back', hback'⟩ := List.head?_eq_some_iff.mp hq
        rw [hback'] at h hnew hnext hhead ⊢
        rw [List.head?_cons] at hnext
        rw [List.getLast?_append_cons] at hhead
        refine ⟨_, by simp [dlistAddSorted, htail, hlt, hplace, hnext]; rfl, ?_⟩
        refine h.insert hnew (fun b => ?_) (fun b => ?_) ?_ ?_
        · by_cases hb : b = node <;> simp [hb, hlast.symm]
        · by_cases hb : b = node <;> simp [hb]
        · simp [htail, ← hhd]
        · simp [hhead]

/-- **`dlist_add_sorted_r`** goes through. -/
theorem dlistAddSortedR_holds (compare : ν → ν → Int) {fuel : Nat} {nodes : List ν}
    (h : s.Holds nodes) (hnew : node ∉ nodes) (hfuel : nodes.length ≤ fuel) :
    ∃ s', dlistAddSortedR compare fuel s node = some s' ∧
      s'.Holds (sortedInsertR compare node nodes) := by
  have htail : s.list.tail = nodes.head? := h.first_eq
  have hhead : s.list.head = nodes.getLast? := h.last_eq
  rcases List.eq_nil_or_concat' nodes with rfl | ⟨rest, last, rfl⟩
  · refine ⟨_, by simp [dlistAddSortedR, htail, hhead]; rfl, ?_⟩
    have h' : s.Holds ([] ++ []) := h
    refine h'.insert (by simp) (fun b => ?_) (fun b => ?_) ?_ ?_ <;> simp
  · rw [List.getLast?_concat] at hhead
    have hlast : last ≠ node := fun e => hnew (by simp [e])
    by_cases hlt : compare node last < 0
    · have hge : ¬ compare node last ≥ 0 := by omega
      obtain ⟨first, back, hback, hplace⟩ :=
        sortedPlaceR_spec compare node h
          (by rw [List.length_append] at hfuel; exact hfuel)
      rw [sortedInsertR, List.rdropWhile_concat_pos _ _ _ (by simpa using hlt),
        List.rtakeWhile_concat_pos _ _ _ (by simpa using hlt), hback]
      set front := rest.rdropWhile fun x => compare node x < 0 with hfront
      have hparts : rest ++ [last] = front ++ first :: back := by
        rw [← hback, ← List.append_assoc, List.rdropWhile_append_rtakeWhile]
      have hend : (first :: back).getLast? = some last := by
        rw [← hback, List.getLast?_concat]
      rw [hparts] at h hnew htail
      have hprev : s.links.prev first = front.getLast? := h.prev_eq
      have hfirst : first ≠ node := fun e => hnew (by simp [e])
      cases hp : front.getLast? with
      | none =>
        rw [List.getLast?_eq_none_iff.mp hp] at h hnew hprev ⊢
        refine ⟨_, by simp [dlistAddSortedR, hhead, hge, hplace, hprev]; rfl, ?_⟩
        refine h.insert hnew (fun b => ?_) (fun b => ?_) ?_ ?_
        · simp
        · by_cases hb : b = node <;> simp [hb, hfirst.symm]
        · simp
        · rw [List.getLast?_cons_cons, hend]
          simp [hhead]
      | some p =>
        obtain ⟨front', hfront'⟩ := List.getLast?_eq_some_iff.mp hp
        rw [hfront'] at h hnew hprev htail ⊢
        rw [List.getLast?_concat] at hprev
        refine ⟨_, by simp [dlistAddSortedR, hhead, hge, hplace, hprev]; rfl, ?_⟩
        refine h.insert hnew (fun b => ?_) (fun b => ?_) ?_ ?_
        · by_cases hb : b = node <;> simp [hb]
        · by_cases hb : b = node <;> simp [hb, hfirst.symm]
        · cases front' <;> simpa using htail
        · rw [List.getLast?_cons_cons, hend]
          simp [hhead]
    · have hge : compare node last ≥ 0 := by omega
      rw [sortedInsertR, List.rdropWhile_concat_neg _ _ _ (by simpa using hlt),
        List.rtakeWhile_concat_neg _ _ _ (by simpa using hlt)]
      have h' : s.Holds ((rest ++ [last]) ++ []) := by rwa [List.append_nil]
      obtain ⟨first, hfirst⟩ : ∃ first, (rest ++ [last]).head? = some first := by
        cases rest <;> exact ⟨_, rfl⟩
      rw [hfirst] at htail
      refine ⟨_, by simp [dlistAddSortedR, htail, hhead, hge]; rfl, ?_⟩
      refine h'.insert (by simpa using hnew) (fun b => ?_) (fun b => ?_) ?_ ?_
      · by_cases hb : b = node <;> simp [hb, hlast.symm]
      · simp
      · cases rest <;> simpa [htail] using hfirst.symm
      · simp

end

end SpRtrace.Common.DlistLinks
