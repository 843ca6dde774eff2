/-
SpRtrace.Lib.DoubleLinks — doubly linked lists in memory.

The memory holds a next and a previous link for every node (`Links`). A
row of nodes is `Linked` if neighbours point at each other; what its two
outer links hold is left open, so the row may be a part of a list or a
piece that is not closed yet. `IsList` is a whole list: a linked row
without repetitions, with null at both ends, between two known nodes.

The two edits of a list, `IsList.insert` and `IsList.unlink`, are stated
of any memory that has the new links and keeps the others, so the order
in which a program writes them does not matter. For programs that work on
several rows at once there are the frame (`SameOutside`) and the joining
of two rows (`Linked.join`).
-/
import Mathlib

namespace SpRtrace.Lib

variable {α : Type*}

/-- The links of every node; `none` is the null pointer. -/
structure Links (α : Type*) where
  next : α → Option α
  prev : α → Option α

namespace Links

variable [DecidableEq α]

def setNext (m : Links α) (a : α) (p : Option α) : Links α :=
  { m with next := Function.update m.next a p }

def setPrev (m : Links α) (a : α) (p : Option α) : Links α :=
  { m with prev := Function.update m.prev a p }

@[simp] theorem setNext_next (m : Links α) (a b : α) (p : Option α) :
    (m.setNext a p).next b = if b = a then p else m.next b := by
  simp [setNext, Function.update_apply]

@[simp] theorem setNext_prev (m : Links α) (a : α) (p : Option α) :
    (m.setNext a p).prev = m.prev := rfl

@[simp] theorem setPrev_prev (m : Links α) (a b : α) (p : Option α) :
    (m.setPrev a p).prev b = if b = a then p else m.prev b := by
  simp [setPrev, Function.update_apply]

@[simp] theorem setPrev_next (m : Links α) (a : α) (p : Option α) :
    (m.setPrev a p).next = m.next := rfl

end Links

/-! ## Rows of nodes -/

/-- `b` follows `a`. -/
def Follows (m : Links α) (a b : α) : Prop := m.next a = some b ∧ m.prev b = some a

/-- Neighbours point at each other. -/
def Linked (m : Links α) (nodes : List α) : Prop := nodes.IsChain (Follows m)

@[simp] theorem linked_nil (m : Links α) : Linked m [] := List.isChain_nil

@[simp] theorem linked_singleton (m : Links α) (a : α) : Linked m [a] := List.isChain_singleton a

theorem linked_append {m : Links α} {xs ys : List α} :
    Linked m (xs ++ ys) ↔ Linked m xs ∧ Linked m ys ∧
      ∀ x ∈ xs.getLast?, ∀ y ∈ ys.head?, Follows m x y :=
  List.isChain_append

theorem linked_cons {m : Links α} {x : α} {xs : List α} :
    Linked m (x :: xs) ↔ (∀ y ∈ xs.head?, Follows m x y) ∧ Linked m xs :=
  List.isChain_cons

theorem Linked.follows {m : Links α} {pre post : List α} {a b : α}
    (h : Linked m (pre ++ a :: b :: post)) : Follows m a b :=
  (List.isChain_append_cons_cons.mp h).2.1

theorem Linked.left {m : Links α} {xs ys : List α} (h : Linked m (xs ++ ys)) : Linked m xs :=
  (linked_append.mp h).1

theorem Linked.right {m : Links α} {xs ys : List α} (h : Linked m (xs ++ ys)) : Linked m ys :=
  (linked_append.mp h).2.1

/-- The previous link of a node behind `xs`. -/
theorem Linked.prev_eq {m : Links α} {xs ys : List α} {y : α} (h : Linked m (xs ++ y :: ys))
    {x : α} (hx : xs.getLast? = some x) : m.prev y = some x :=
  ((linked_append.mp h).2.2 x hx y rfl).2

theorem Linked.next_eq {m : Links α} {xs ys : List α} {x : α} (h : Linked m (xs ++ x :: ys))
    {y : α} (hy : ys.head? = some y) : m.next x = some y := by
  have hright := (linked_append.mp h).2.1
  exact ((linked_cons.mp hright).1 y hy).1

/-- Both links of neighbours are found by position. -/
theorem Linked.getElem? {m : Links α} {xs : List α} (h : Linked m xs) {i : Nat} {a b : α}
    (ha : xs[i]? = some a) (hb : xs[i + 1]? = some b) : Follows m a b := by
  obtain ⟨hi, rfl⟩ := List.getElem?_eq_some_iff.mp ha
  obtain ⟨hi', rfl⟩ := List.getElem?_eq_some_iff.mp hb
  exact List.isChain_iff_getElem.mp h i hi'

/-- A row reads the next links of all its nodes but the last and the
previous links of all but the first. -/
theorem Linked.congr {m m' : Links α} {xs : List α} (h : Linked m xs)
    (hnext : ∀ x ∈ xs.dropLast, m'.next x = m.next x)
    (hprev : ∀ x ∈ xs.tail, m'.prev x = m.prev x) : Linked m' xs := by
  refine List.isChain_iff_forall_rel_of_append_cons_cons.mpr fun a b pre post heq => ?_
  have hab : Follows m a b := Linked.follows (heq ▸ h)
  have ha : a ∈ xs.dropLast := by
    rw [heq, List.dropLast_append_of_ne_nil (by simp)]
    simp
  have hb : b ∈ xs.tail := by
    rw [heq]
    cases pre <;> simp
  exact ⟨(hnext a ha).trans hab.1, (hprev b hb).trans hab.2⟩

theorem ne_getLast_of_mem_dropLast {xs : List α} (hnd : xs.Nodup) {x : α} (hx : x ∈ xs.dropLast) :
    xs.getLast? ≠ some x := by
  intro hlast
  obtain ⟨pre, rfl⟩ := List.getLast?_eq_some_iff.mp hlast
  rw [List.dropLast_concat] at hx
  exact (List.nodup_append.mp hnd).2.2 x hx x (by simp) rfl

theorem ne_head_of_mem_tail {xs : List α} (hnd : xs.Nodup) {x : α} (hx : x ∈ xs.tail) :
    xs.head? ≠ some x := by
  intro hhead
  obtain ⟨post, rfl⟩ := List.head?_eq_some_iff.mp hhead
  exact (List.nodup_cons.mp hnd).1 hx

/-! ## What is left alone -/

/-- The links of all other nodes are the same. -/
def SameOutside (nodes : List α) (m m' : Links α) : Prop :=
  ∀ a, a ∉ nodes → m'.next a = m.next a ∧ m'.prev a = m.prev a

namespace SameOutside

variable {m m' m'' : Links α} {nodes nodes' : List α}

theorem refl (nodes : List α) (m : Links α) : SameOutside nodes m m := fun _ _ => ⟨rfl, rfl⟩

theorem mono (h : SameOutside nodes m m') (hsub : ∀ a ∈ nodes, a ∈ nodes') :
    SameOutside nodes' m m' :=
  fun a ha => h a fun hmem => ha (hsub a hmem)

theorem trans (h : SameOutside nodes m m') (h' : SameOutside nodes m' m'') :
    SameOutside nodes m m'' :=
  fun a ha => ⟨(h' a ha).1.trans (h a ha).1, (h' a ha).2.trans (h a ha).2⟩

theorem setNext [DecidableEq α] (h : SameOutside nodes m m') {a : α} (ha : a ∈ nodes)
    (p : Option α) : SameOutside nodes m (m'.setNext a p) := by
  intro b hb
  have hne : b ≠ a := fun e => hb (e ▸ ha)
  simpa [hne] using h b hb

theorem setPrev [DecidableEq α] (h : SameOutside nodes m m') {a : α} (ha : a ∈ nodes)
    (p : Option α) : SameOutside nodes m (m'.setPrev a p) := by
  intro b hb
  have hne : b ≠ a := fun e => hb (e ▸ ha)
  simpa [hne] using h b hb

/-- A row apart from the nodes that are written stays linked. -/
theorem linked (h : SameOutside nodes m m') {xs : List α} (hxs : Linked m xs)
    (hapart : xs.Disjoint nodes) : Linked m' xs :=
  hxs.congr (fun x hx => (h x (hapart (List.mem_of_mem_dropLast hx))).1)
    fun x hx => (h x (hapart (List.mem_of_mem_tail hx))).2

end SameOutside

section Rows

variable [DecidableEq α] {m : Links α} {xs ys : List α}

theorem Linked.setNext (h : Linked m xs) {a : α} (ha : a ∉ xs.dropLast) (p : Option α) :
    Linked (m.setNext a p) xs := by
  refine h.congr (fun x hx => ?_) fun x _ => rfl
  have hne : x ≠ a := fun e => ha (e ▸ hx)
  simp [hne]

theorem Linked.setPrev (h : Linked m xs) {a : α} (ha : a ∉ xs.tail) (p : Option α) :
    Linked (m.setPrev a p) xs := by
  refine h.congr (fun x _ => rfl) fun x hx => ?_
  have hne : x ≠ a := fun e => ha (e ▸ hx)
  simp [hne]

/-- **Two rows become one** when the last node of the first and the first
node of the second are made neighbours. -/
theorem Linked.join (hnd : (xs ++ ys).Nodup) (hxs : Linked m xs) (hys : Linked m ys) {a b : α}
    (ha : xs.getLast? = some a) (hb : ys.head? = some b) :
    Linked ((m.setNext a (some b)).setPrev b (some a)) (xs ++ ys) := by
  have hparts := List.nodup_append.mp hnd
  have hamem : a ∈ xs := List.mem_of_getLast? ha
  have hbmem : b ∈ ys := List.mem_of_head? hb
  refine linked_append.mpr ⟨?_, ?_, fun x hx y hy => ?_⟩
  · refine (hxs.setNext (fun hmem => ne_getLast_of_mem_dropLast hparts.1 hmem ha) _).setPrev ?_ _
    exact fun hmem => hparts.2.2 b (List.mem_of_mem_tail hmem) b hbmem rfl
  · refine (hys.setNext (fun hmem => ?_) _).setPrev
      (fun hmem => ne_head_of_mem_tail hparts.2.1 hmem hb) _
    exact hparts.2.2 a hamem a (List.mem_of_mem_dropLast hmem) rfl
  · obtain rfl : a = x := Option.some.inj (ha.symm.trans hx)
    obtain rfl : b = y := Option.some.inj (hb.symm.trans hy)
    simp [Follows]

/-- Two rows that are spliced into one: `done` is in its final order, and
goes on with `row`; `other` waits. -/
structure Splicing (m : Links α) (done row other : List α) : Prop where
  nodup : (done ++ row ++ other).Nodup
  linked : Linked m (done ++ row)
  other : Linked m other

namespace Splicing

variable {done row other : List α} {p x y : α}

omit [DecidableEq α] in
theorem advance (h : Splicing m done (x :: row) other) : Splicing m (done ++ [x]) row other := by
  have heq : done ++ [x] ++ row = done ++ x :: row := by simp
  exact ⟨heq ▸ h.nodup, heq ▸ h.linked, h.other⟩

omit [DecidableEq α] in
theorem nodup_change (h : Splicing m done row other) : (done ++ other ++ row).Nodup := by
  refine (List.Perm.nodup_iff ?_).mp h.nodup
  rw [List.append_assoc, List.append_assoc]
  exact List.perm_append_comm.append_left done

/-- The other row goes on: its first node is put behind the last one that
is done. -/
theorem change (h : Splicing m done row (y :: other)) (hp : done.getLast? = some p) :
    Splicing ((m.setNext p (some y)).setPrev y (some p)) done (y :: other) row := by
  have hnd := h.nodup_change
  have hparts := List.nodup_append.mp hnd
  have hpmem : p ∈ done := List.mem_of_getLast? hp
  refine ⟨hnd, Linked.join hparts.1 h.linked.left h.other hp rfl, ?_⟩
  refine (h.linked.right.setNext (fun hmem => ?_) _).setPrev (fun hmem => ?_) _
  · exact hparts.2.2 p (by simp [hpmem]) p (List.mem_of_mem_dropLast hmem) rfl
  · exact hparts.2.2 y (by simp) y (List.mem_of_mem_tail hmem) rfl

/-- Nothing is done: the previous link of the first node is not read. -/
theorem change_nil (h : Splicing m [] row (y :: other)) (q : Option α) :
    Splicing (m.setPrev y q) [] (y :: other) row := by
  have hnd := h.nodup_change
  have hparts := List.nodup_append.mp hnd
  refine ⟨hnd, h.other.setPrev (List.nodup_cons.mp hparts.1).1 q, ?_⟩
  exact h.linked.right.setPrev
    (fun hmem => hparts.2.2 y (by simp) y (List.mem_of_mem_tail hmem) rfl) q

/-- The row is at its end: the other one follows. -/
theorem finish (h : Splicing m done [x] (y :: other)) :
    Linked ((m.setNext x (some y)).setPrev y (some x)) (done ++ x :: y :: other) := by
  have hjoin := Linked.join h.nodup h.linked h.other List.getLast?_concat (b := y) rfl
  rwa [List.append_assoc, List.singleton_append] at hjoin

end Splicing

end Rows

/-! ## Whole lists -/

/-- `nodes` is the list from the node `first` to the node `last`: linked,
null at both ends, nothing twice. -/
structure IsList (m : Links α) (first last : Option α) (nodes : List α) : Prop where
  nodup : nodes.Nodup
  linked : Linked m nodes
  first_eq : first = nodes.head?
  last_eq : last = nodes.getLast?
  noPrev : ∀ a ∈ nodes.head?, m.prev a = none
  noNext : ∀ a ∈ nodes.getLast?, m.next a = none

namespace IsList

variable {m m' : Links α} {first last first' last' : Option α} {nodes pre post : List α} {a b : α}

theorem nil (m : Links α) : IsList m none none [] :=
  ⟨.nil, linked_nil m, rfl, rfl, by simp, by simp⟩

/-- The next link of a node is what follows it in the list. -/
theorem next_eq (h : IsList m first last (pre ++ a :: post)) : m.next a = post.head? := by
  cases post with
  | nil => exact h.noNext a (by simp)
  | cons b post => exact h.linked.next_eq rfl

theorem prev_eq (h : IsList m first last (pre ++ a :: post)) : m.prev a = pre.getLast? := by
  cases hpre : pre.getLast? with
  | none =>
    rw [List.getLast?_eq_none_iff] at hpre
    subst hpre
    exact h.noPrev a (by simp)
  | some p => exact h.linked.prev_eq hpre

/-- **The links are inverse to each other.** -/
theorem next_iff_prev (h : IsList m first last nodes) (ha : a ∈ nodes) (hb : b ∈ nodes) :
    m.next a = some b ↔ m.prev b = some a := by
  constructor
  · intro hnext
    obtain ⟨pre, post, rfl⟩ := List.append_of_mem ha
    rw [h.next_eq] at hnext
    obtain ⟨post, rfl⟩ := List.head?_eq_some_iff.mp hnext
    exact h.linked.follows.2
  · intro hprev
    obtain ⟨pre, post, rfl⟩ := List.append_of_mem hb
    rw [h.prev_eq] at hprev
    obtain ⟨pre, rfl⟩ := List.getLast?_eq_some_iff.mp hprev
    rw [List.append_assoc] at h
    exact h.linked.follows.1

/-- The list depends on the links of its nodes only. -/
theorem outside {others : List α} (h : IsList m first last nodes)
    (hsame : SameOutside others m m') (hapart : nodes.Disjoint others) :
    IsList m' first last nodes where
  nodup := h.nodup
  linked := hsame.linked h.linked hapart
  first_eq := h.first_eq
  last_eq := h.last_eq
  noPrev a ha := (hsame a (hapart (List.mem_of_head? ha))).2.trans (h.noPrev a ha)
  noNext a ha := (hsame a (hapart (List.mem_of_getLast? ha))).1.trans (h.noNext a ha)

/-- **A node is put in** by the four links between it and its neighbours. -/
theorem insert [DecidableEq α] (h : IsList m first last (pre ++ post)) (hnew : a ∉ pre ++ post)
    (hnext : ∀ b, m'.next b = if b = a then post.head?
      else if some b = pre.getLast? then some a else m.next b)
    (hprev : ∀ b, m'.prev b = if b = a then pre.getLast?
      else if some b = post.head? then some a else m.prev b)
    (hfirst : first' = (pre ++ [a]).head?) (hlast : last' = (a :: post).getLast?) :
    IsList m' first' last' (pre ++ a :: post) := by
  have hpre : ∀ b ∈ pre, b ≠ a := fun b hb e => hnew (List.mem_append_left _ (e ▸ hb))
  have hpost : ∀ b ∈ post, b ≠ a := fun b hb e => hnew (List.mem_append_right _ (e ▸ hb))
  have hbefore : ∀ p ∈ pre.getLast?, m'.next p = some a := by
    intro p hp
    rw [hnext, if_neg (hpre p (List.mem_of_getLast? hp)), if_pos hp.symm]
  have hafter : ∀ q ∈ post.head?, m'.prev q = some a := by
    intro q hq
    rw [hprev, if_neg (hpost q (List.mem_of_head? hq)), if_pos hq.symm]
  have hnexts : ∀ b, b ≠ a → pre.getLast? ≠ some b → m'.next b = m.next b := by
    intro b hb hp
    rw [hnext, if_neg hb, if_neg (Ne.symm hp)]
  have hprevs : ∀ b, b ≠ a → post.head? ≠ some b → m'.prev b = m.prev b := by
    intro b hb hq
    rw [hprev, if_neg hb, if_neg (Ne.symm hq)]
  have hnext : m'.next a = post.head? := by rw [hnext, if_pos rfl]
  have hprev : m'.prev a = pre.getLast? := by rw [hprev, if_pos rfl]
  obtain ⟨hndpre, hndpost, hapart⟩ := List.nodup_append.mp h.nodup
  have hlinked := linked_append.mp h.linked
  refine ⟨?_, ?_, ?_, ?_, fun b hb => ?_, fun b hb => ?_⟩
  · refine List.nodup_append.mpr ⟨hndpre, List.nodup_cons.mpr ⟨fun ha => hpost a ha rfl, hndpost⟩, ?_⟩
    intro x hx y hy
    rcases List.mem_cons.mp hy with rfl | hy
    · exact hpre x hx
    · exact hapart x hx y hy
  · refine linked_append.mpr ⟨hlinked.1.congr (fun x hx => ?_) (fun x hx => ?_),
      linked_cons.mpr ⟨fun q hq => ⟨hnext.trans hq, hafter q hq⟩,
        hlinked.2.1.congr (fun x hx => ?_) fun x hx => ?_⟩, fun p hp x hx => ?_⟩
    · exact hnexts x (hpre x (List.mem_of_mem_dropLast hx)) (ne_getLast_of_mem_dropLast hndpre hx)
    · have hx := List.mem_of_mem_tail hx
      exact hprevs x (hpre x hx) fun hq => hapart x hx x (List.mem_of_head? hq) rfl
    · have hx := List.mem_of_mem_dropLast hx
      exact hnexts x (hpost x hx) fun hp => hapart x (List.mem_of_getLast? hp) x hx rfl
    · exact hprevs x (hpost x (List.mem_of_mem_tail hx)) (ne_head_of_mem_tail hndpost hx)
    · obtain rfl : a = x := Option.some.inj hx
      exact ⟨hbefore p hp, hprev.trans hp⟩
  · rw [hfirst]
    cases pre <;> rfl
  · rw [hlast, List.getLast?_append_cons]
  · cases pre with
    | nil =>
      obtain rfl : a = b := Option.some.inj hb
      exact hprev
    | cons p pre =>
      obtain rfl : p = b := Option.some.inj hb
      refine (hprevs p (hpre p (by simp)) fun hq => ?_).trans (h.noPrev p rfl)
      exact hapart p (by simp) p (List.mem_of_head? hq) rfl
  · rw [List.getLast?_append_cons] at hb
    cases hq : post.getLast? with
    | none =>
      rw [List.getLast?_eq_none_iff] at hq
      subst hq
      obtain rfl : a = b := Option.some.inj hb
      exact hnext
    | some q =>
      obtain ⟨post, rfl⟩ := List.getLast?_eq_some_iff.mp hq
      rw [← List.cons_append, List.getLast?_concat] at hb
      obtain rfl : q = b := Option.some.inj hb
      refine (hnexts q (hpost q (by simp)) fun hp => ?_).trans (h.noNext q (by simp))
      exact hapart q (List.mem_of_getLast? hp) q (by simp) rfl

/-- **A node is taken out** by the two links between its neighbours. -/
theorem unlink [DecidableEq α] (h : IsList m first last (pre ++ a :: post))
    (hnext : ∀ b, m'.next b = if some b = pre.getLast? then post.head? else m.next b)
    (hprev : ∀ b, m'.prev b = if some b = post.head? then pre.getLast? else m.prev b)
    (hfirst : first' = (pre ++ post).head?) (hlast : last' = (pre ++ post).getLast?) :
    IsList m' first' last' (pre ++ post) := by
  have hbefore : ∀ p ∈ pre.getLast?, m'.next p = post.head? := by
    intro p hp
    rw [hnext, if_pos hp.symm]
  have hafter : ∀ q ∈ post.head?, m'.prev q = pre.getLast? := by
    intro q hq
    rw [hprev, if_pos hq.symm]
  have hnexts : ∀ b, pre.getLast? ≠ some b → m'.next b = m.next b := by
    intro b hp
    rw [hnext, if_neg (Ne.symm hp)]
  have hprevs : ∀ b, post.head? ≠ some b → m'.prev b = m.prev b := by
    intro b hq
    rw [hprev, if_neg (Ne.symm hq)]
  obtain ⟨hndpre, hnd, hapart⟩ := List.nodup_append.mp h.nodup
  have hndpost := (List.nodup_cons.mp hnd).2
  have hapart : ∀ x ∈ pre, ∀ y ∈ post, x ≠ y := fun x hx y hy => hapart x hx y (by simp [hy])
  have hlinked := linked_append.mp h.linked
  refine ⟨List.nodup_append.mpr ⟨hndpre, hndpost, hapart⟩, ?_, hfirst, hlast,
    fun b hb => ?_, fun b hb => ?_⟩
  · refine linked_append.mpr ⟨hlinked.1.congr (fun x hx => ?_) (fun x hx => ?_),
      (linked_cons.mp hlinked.2.1).2.congr (fun x hx => ?_) (fun x hx => ?_), fun p hp q hq => ?_⟩
    · exact hnexts x (ne_getLast_of_mem_dropLast hndpre hx)
    · have hx := List.mem_of_mem_tail hx
      exact hprevs x fun hq => hapart x hx x (List.mem_of_head? hq) rfl
    · have hx := List.mem_of_mem_dropLast hx
      exact hnexts x fun hp => hapart x (List.mem_of_getLast? hp) x hx rfl
    · exact hprevs x (ne_head_of_mem_tail hndpost hx)
    · exact ⟨(hbefore p hp).trans hq, (hafter q hq).trans hp⟩
  · cases pre with
    | nil => exact hafter b hb
    | cons p pre =>
      obtain rfl : p = b := Option.some.inj hb
      refine (hprevs p fun hq => ?_).trans (h.noPrev p rfl)
      exact hapart p (by simp) p (List.mem_of_head? hq) rfl
  · cases hq : post.getLast? with
    | none =>
      rw [List.getLast?_eq_none_iff] at hq
      subst hq
      rw [List.append_nil] at hb
      exact hbefore b hb
    | some q =>
      obtain ⟨post, rfl⟩ := List.getLast?_eq_some_iff.mp hq
      obtain rfl : q = b := by simpa [List.getLast?_append] using hb
      have hlast : q ∈ (pre ++ a :: (post ++ [q])).getLast? := by
        rw [List.getLast?_append_cons, ← List.cons_append]
        exact List.getLast?_concat
      refine (hnexts q fun hp => ?_).trans (h.noNext q hlast)
      exact hapart q (List.mem_of_getLast? hp) q (by simp) rfl

end IsList

end SpRtrace.Lib
