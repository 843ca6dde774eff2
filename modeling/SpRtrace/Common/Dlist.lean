/-
SpRtrace.Common.Dlist — the double linked list container of
`src/common/dlist.c`.

A list is given by its nodes from `dlist_first` to `dlist_last`; a node
is whatever identifies a record in memory (an address, or the record
itself where its address is part of it). Two things the C code can do
wrong are kept: removing a node that is not linked, and stepping from a
node that has been unlinked. Both are `none`, the value every definition
of this development uses for an access to memory that is not there.

`dlistForeach2` is the iteration of the source: the successor of the
current node is read BEFORE the callback runs, so the callback may unlink
the current node and earlier ones and nothing else.
`dlistForeach2_total` and `dlistForeach2_ends` are the two rules the
filters of the post-processor are verified with: an invariant over the
nodes still to be visited.
-/
import Mathlib

namespace SpRtrace.Common

variable {ν σ : Type}

/-! ## Operations -/

/-- `dlist_add`: append after the last node. -/
def dlistAdd (list : List ν) (node : ν) : List ν := list ++ [node]

/-- `dlist_remove`: unlink a node of the list. -/
def dlistRemove [DecidableEq ν] (list : List ν) (node : ν) : Option (List ν) :=
  if node ∈ list then some (list.erase node) else none

/-- `dlist_find`: the first node the comparison maps to zero. The
comparison reads memory, so it may fail. -/
def dlistFind (compare : ν → Option Int) : List ν → Option (Option ν)
  | [] => some none
  | node :: rest => do
      let rc ← compare node
      if rc = 0 then some (some node) else dlistFind compare rest

/-- `node->next` of a linked node. -/
def dlistNext [DecidableEq ν] : List ν → ν → Option ν
  | [], _ => none
  | x :: rest, node => if x = node then rest.head? else dlistNext rest node

/-- The loop of `dlist_foreach2`. `nodes` reads the list out of the state
the callback works on; the first argument bounds the number of turns. -/
def dlistForeach2Loop [DecidableEq ν] (nodes : σ → List ν) (doWhat : ν → σ → Option σ) :
    Nat → Option ν → σ → Option σ
  | _, none, s => some s
  | 0, some _, _ => none
  | fuel + 1, some current, s =>
      -- reading `current->next` needs `current` to be linked still
      if current ∈ nodes s then do
        let node := dlistNext (nodes s) current
        let s' ← doWhat current s
        dlistForeach2Loop nodes doWhat fuel node s'
      else none

/-- `dlist_foreach2` over a list held in the state. -/
def dlistForeach2 [DecidableEq ν] (nodes : σ → List ν) (doWhat : ν → σ → Option σ) (s : σ) :
    Option σ :=
  dlistForeach2Loop nodes doWhat (nodes s).length (nodes s).head? s

/-! ## Lookup and removal -/

@[simp] theorem mem_dlistAdd (list : List ν) (node x : ν) :
    x ∈ dlistAdd list node ↔ x ∈ list ∨ x = node := by
  simp [dlistAdd]

theorem dlistRemove_of_mem [DecidableEq ν] {list : List ν} {node : ν} (h : node ∈ list) :
    dlistRemove list node = some (list.erase node) := by
  simp [dlistRemove, h]

theorem dlistFind_congr {compare compare' : ν → Option Int} :
    ∀ {list : List ν}, (∀ n ∈ list, compare n = compare' n) →
      dlistFind compare list = dlistFind compare' list
  | [], _ => rfl
  | x :: rest, h => by
      rw [dlistFind, dlistFind, h x (by simp), dlistFind_congr fun n hn => h n (by simp [hn])]

/-- With a comparison that never fails, `dlist_find` is `List.find?`. -/
theorem dlistFind_eq_find? {compare : ν → Option Int} {f : ν → Int} :
    ∀ {list : List ν}, (∀ n ∈ list, compare n = some (f n)) →
      dlistFind compare list = some (list.find? (fun n => decide (f n = 0)))
  | [], _ => rfl
  | x :: rest, h => by
      have hx : compare x = some (f x) := h x (by simp)
      have hrest : dlistFind compare rest = some (rest.find? (fun n => decide (f n = 0))) :=
        dlistFind_eq_find? (fun n hn => h n (by simp [hn]))
      by_cases h0 : f x = 0
      · simp [dlistFind, hx, h0]
      · simp [dlistFind, hx, h0, hrest]

/-- What `dlist_find` returns is a node of the list that compares equal. -/
theorem dlistFind_some {compare : ν → Option Int} :
    ∀ {list : List ν} {n : ν}, dlistFind compare list = some (some n) →
      n ∈ list ∧ compare n = some 0
  | [], n, h => by simp [dlistFind] at h
  | x :: rest, n, h => by
      cases hc : compare x with
      | none => simp [dlistFind, hc] at h
      | some rc =>
        by_cases h0 : rc = 0
        · simp [dlistFind, hc, h0] at h
          subst h
          exact ⟨by simp, by rw [hc, h0]⟩
        · simp only [dlistFind, hc, Option.bind_eq_bind, Option.bind_some, h0, if_false] at h
          have := dlistFind_some h
          exact ⟨by simp [this.1], this.2⟩

/-- `dlist_find` returns NULL only when no node compares equal. -/
theorem dlistFind_none {compare : ν → Option Int} :
    ∀ {list : List ν}, dlistFind compare list = some none →
      ∀ n ∈ list, compare n ≠ some 0
  | [], _ => by simp
  | x :: rest, h => by
      cases hc : compare x with
      | none => simp [dlistFind, hc] at h
      | some rc =>
        by_cases h0 : rc = 0
        · simp [dlistFind, hc, h0] at h
        · simp only [dlistFind, hc, Option.bind_eq_bind, Option.bind_some, h0, if_false] at h
          intro n hn
          rcases List.mem_cons.mp hn with rfl | hn
          · simp [hc, h0]
          · exact dlistFind_none h n hn

/-! ## Iteration -/

/-- In a list without repetitions the successor of `node` is what follows it. -/
theorem dlistNext_append [DecidableEq ν] :
    ∀ (pre : List ν) (node : ν) (rest : List ν), node ∉ pre →
      dlistNext (pre ++ node :: rest) node = rest.head?
  | [], node, rest, _ => by simp [dlistNext]
  | x :: pre, node, rest, h => by
      have hx : x ≠ node := fun e => h (by simp [e])
      have hpre : node ∉ pre := fun hm => h (by simp [hm])
      simp [dlistNext, hx, dlistNext_append pre node rest hpre]

section Foreach

variable [DecidableEq ν] {nodes : σ → List ν} {doWhat : ν → σ → Option σ}
  {I : List ν → σ → Prop}

theorem dlistForeach2Loop_total
    (hnodes : ∀ rest s, I rest s → ∃ pre, nodes s = pre ++ rest ∧ (nodes s).Nodup)
    (hstep : ∀ current rest s, I (current :: rest) s →
      ∃ s', doWhat current s = some s' ∧ I rest s') :
    ∀ (rest : List ν) (fuel : Nat) (s : σ), rest.length ≤ fuel → I rest s →
      ∃ s', dlistForeach2Loop nodes doWhat fuel rest.head? s = some s' ∧ I [] s'
  | [], fuel, s, _, hI => ⟨s, by cases fuel <;> rfl, hI⟩
  | current :: rest, 0, s, hf, _ => by simp at hf
  | current :: rest, fuel + 1, s, hf, hI => by
      obtain ⟨pre, hpre, hnd⟩ := hnodes _ _ hI
      obtain ⟨s₁, hs₁, hI₁⟩ := hstep _ _ _ hI
      have hnot : current ∉ pre := by
        intro hm
        rw [hpre] at hnd
        exact (List.nodup_append.mp hnd).2.2 current hm current (by simp) rfl
      obtain ⟨s', hs', hI'⟩ :=
        dlistForeach2Loop_total hnodes hstep rest fuel s₁ (by simpa using hf) hI₁
      refine ⟨s', ?_, hI'⟩
      have hmem : current ∈ nodes s := by rw [hpre]; simp
      simp only [List.head?_cons, dlistForeach2Loop, hmem, if_true, hs₁,
        Option.bind_eq_bind, Option.bind_some]
      rw [hpre, dlistNext_append pre current rest hnot]
      exact hs'

/-- **The iteration rule.** If the invariant places the nodes still to be
visited at the end of the list and every callback keeps it, then
`dlist_foreach2` runs to its end and visits each node once. -/
theorem dlistForeach2_total
    (hnodes : ∀ rest s, I rest s → ∃ pre, nodes s = pre ++ rest ∧ (nodes s).Nodup)
    (hstep : ∀ current rest s, I (current :: rest) s →
      ∃ s', doWhat current s = some s' ∧ I rest s')
    {s : σ} (hI : I (nodes s) s) :
    ∃ s', dlistForeach2 nodes doWhat s = some s' ∧ I [] s' :=
  dlistForeach2Loop_total hnodes hstep (nodes s) _ s (Nat.le_refl _) hI

theorem dlistForeach2Loop_ends
    (hnodes : ∀ rest s, I rest s → ∃ pre, nodes s = pre ++ rest ∧ (nodes s).Nodup)
    (hstep : ∀ current rest s s', I (current :: rest) s → doWhat current s = some s' →
      I rest s') :
    ∀ (rest : List ν) (fuel : Nat) (s s' : σ), I rest s →
      dlistForeach2Loop nodes doWhat fuel rest.head? s = some s' → I [] s'
  | [], fuel, s, s', hI, h => by
      cases fuel <;> simp [dlistForeach2Loop] at h <;> exact h ▸ hI
  | current :: rest, 0, s, s', _, h => by simp [dlistForeach2Loop] at h
  | current :: rest, fuel + 1, s, s', hI, h => by
      obtain ⟨pre, hpre, hnd⟩ := hnodes _ _ hI
      have hnot : current ∉ pre := by
        intro hm
        rw [hpre] at hnd
        exact (List.nodup_append.mp hnd).2.2 current hm current (by simp) rfl
      have hmem : current ∈ nodes s := by rw [hpre]; simp
      simp only [List.head?_cons, dlistForeach2Loop, hmem, if_true] at h
      cases hs₁ : doWhat current s with
      | none => simp [hs₁] at h
      | some s₁ =>
        simp only [hs₁, Option.bind_eq_bind, Option.bind_some] at h
        rw [hpre, dlistNext_append pre current rest hnot] at h
        exact dlistForeach2Loop_ends hnodes hstep rest fuel s₁ s'
          (hstep _ _ _ _ hI hs₁) h

/-- The iteration rule for callbacks that may fail: whenever the
iteration ends, the invariant holds with nothing left to visit. -/
theorem dlistForeach2_ends
    (hnodes : ∀ rest s, I rest s → ∃ pre, nodes s = pre ++ rest ∧ (nodes s).Nodup)
    (hstep : ∀ current rest s s', I (current :: rest) s → doWhat current s = some s' →
      I rest s')
    {s s' : σ} (hI : I (nodes s) s) (h : dlistForeach2 nodes doWhat s = some s') : I [] s' :=
  dlistForeach2Loop_ends hnodes hstep (nodes s) _ s s' hI h

theorem dlistForeach2Loop_preserves {P : σ → Prop}
    (hstep : ∀ node s s', P s → doWhat node s = some s' → P s') (fuel : Nat) :
    ∀ (current : Option ν) (s s' : σ), P s →
      dlistForeach2Loop nodes doWhat fuel current s = some s' → P s' := by
  induction fuel with
  | zero =>
    intro current s s' hP h
    cases current with
    | none => exact Option.some.inj h ▸ hP
    | some node => simp [dlistForeach2Loop] at h
  | succ fuel ih =>
    intro current s s' hP h
    cases current with
    | none => exact Option.some.inj h ▸ hP
    | some node =>
      simp only [dlistForeach2Loop] at h
      split at h
      · simp only [Option.bind_eq_bind, Option.bind_eq_some_iff] at h
        obtain ⟨s₁, hs₁, h⟩ := h
        exact ih _ s₁ s' (hstep node s s₁ hP hs₁) h
      · cases h

/-- What every callback keeps, the iteration keeps. -/
theorem dlistForeach2_preserves {P : σ → Prop}
    (hstep : ∀ node s s', P s → doWhat node s = some s' → P s') {s s' : σ} (hP : P s)
    (h : dlistForeach2 nodes doWhat s = some s') : P s' :=
  dlistForeach2Loop_preserves hstep _ _ s s' hP h

end Foreach

end SpRtrace.Common
