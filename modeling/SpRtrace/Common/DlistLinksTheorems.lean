/-
SpRtrace.Common.DlistLinksTheorems — runs over the lists of
`src/common/dlist.c`.

A run is a sequence of operations on one list. What the list holds after
it is what the operations say, one by one (`DlistOp.apply`), as long as
nothing is added that is in the list and nothing is removed that is not
(`Allowed`). An iteration survives a callback that removes nodes at or
before the one it is called on.
-/
import Mathlib
import SpRtrace.Common.DlistLinks

namespace SpRtrace.Common.DlistLinks

open SpRtrace.Lib

variable {ν σ : Type} [DecidableEq ν]

/-! ## Sequences of operations -/

inductive DlistOp (ν : Type)
  | add (node : ν)
  | addSorted (compare : ν → ν → Int) (node : ν)
  | addSortedR (compare : ν → ν → Int) (node : ν)
  | remove (node : ν)

namespace DlistOp

def run (fuel : Nat) (s : DlistState ν) : DlistOp ν → Option (DlistState ν)
  | add node => some (dlistAdd s node)
  | addSorted compare node => dlistAddSorted compare fuel s node
  | addSortedR compare node => dlistAddSortedR compare fuel s node
  | remove node => some (dlistRemove s node)

def apply (nodes : List ν) : DlistOp ν → List ν
  | add node => nodes ++ [node]
  | addSorted compare node => sortedInsert compare node nodes
  | addSortedR compare node => sortedInsertR compare node nodes
  | remove node => nodes.erase node

/-- The operation on the set of nodes. -/
def members (nodes : Finset ν) : DlistOp ν → Finset ν
  | add node | addSorted _ node | addSortedR _ node => insert node nodes
  | remove node => nodes.erase node

/-- A node is added when it is not in the list and removed when it is. -/
def Allowed (nodes : Finset ν) : DlistOp ν → Prop
  | add node | addSorted _ node | addSortedR _ node => node ∉ nodes
  | remove node => node ∈ nodes

end DlistOp

/-- Every operation of the sequence is allowed when its turn comes. -/
def Allowed : Finset ν → List (DlistOp ν) → Prop
  | _, [] => True
  | nodes, op :: ops => op.Allowed nodes ∧ Allowed (op.members nodes) ops

omit [DecidableEq ν] in
theorem sortedInsert_perm (compare : ν → ν → Int) (node : ν) (nodes : List ν) :
    (sortedInsert compare node nodes).Perm (node :: nodes) := by
  cases nodes with
  | nil => exact .refl _
  | cons first rest =>
    rw [sortedInsert]
    split
    · exact .refl _
    · refine (List.Perm.cons first List.perm_middle).trans ?_
      rw [List.takeWhile_append_dropWhile]
      exact .swap ..

omit [DecidableEq ν] in
theorem sortedInsertR_perm (compare : ν → ν → Int) (node : ν) (nodes : List ν) :
    (sortedInsertR compare node nodes).Perm (node :: nodes) := by
  rw [sortedInsertR]
  refine List.perm_middle.trans ?_
  rw [List.rdropWhile_append_rtakeWhile]

theorem DlistOp.apply_members {nodes : List ν} (hnd : nodes.Nodup) (op : DlistOp ν) :
    (op.apply nodes).toFinset = op.members nodes.toFinset := by
  cases op with
  | add node =>
    ext a
    simp [apply, members]
  | addSorted compare node =>
    rw [apply, members, List.toFinset_eq_of_perm _ _ (sortedInsert_perm compare node nodes),
      List.toFinset_cons]
  | addSortedR compare node =>
    rw [apply, members, List.toFinset_eq_of_perm _ _ (sortedInsertR_perm compare node nodes),
      List.toFinset_cons]
  | remove node =>
    ext a
    simp [apply, members, hnd.mem_erase_iff]

theorem DlistOp.apply_length (nodes : List ν) (op : DlistOp ν) :
    (op.apply nodes).length ≤ nodes.length + 1 := by
  cases op with
  | add node => simp [apply]
  | addSorted compare node => exact (sortedInsert_perm compare node nodes).length_eq.le
  | addSortedR compare node => exact (sortedInsertR_perm compare node nodes).length_eq.le
  | remove node => exact (List.length_erase_le ..).trans (Nat.le_succ _)

/-- One operation. -/
theorem DlistOp.run_holds {s : DlistState ν} {nodes : List ν} {fuel : Nat} (h : s.Holds nodes)
    (hfuel : nodes.length ≤ fuel) {op : DlistOp ν} (hop : op.Allowed nodes.toFinset) :
    ∃ s', op.run fuel s = some s' ∧ s'.Holds (op.apply nodes) := by
  cases op with
  | add node => exact ⟨_, rfl, dlistAdd_holds h (by simpa [Allowed] using hop)⟩
  | addSorted compare node => exact dlistAddSorted_holds compare h (by simpa [Allowed] using hop) hfuel
  | addSortedR compare node => exact dlistAddSortedR_holds compare h (by simpa [Allowed] using hop) hfuel
  | remove node =>
    have hmem : node ∈ nodes := by simpa [Allowed] using hop
    obtain ⟨pre, post, rfl⟩ := List.append_of_mem hmem
    have hpre : node ∉ pre := fun hin =>
      (List.nodup_append.mp h.nodup).2.2 node hin node (by simp) rfl
    refine ⟨_, rfl, ?_⟩
    rw [apply, List.erase_append_right _ hpre, List.erase_cons_head]
    exact dlistRemove_holds h

/-- **A sequence of operations** does to the list in memory what it does to
the list of its nodes. -/
theorem runOps_holds {fuel : Nat} : ∀ {ops : List (DlistOp ν)} {s : DlistState ν} {nodes : List ν},
    s.Holds nodes → Allowed nodes.toFinset ops → nodes.length + ops.length ≤ fuel →
    ∃ s', ops.foldlM (DlistOp.run fuel) s = some s' ∧ s'.Holds (ops.foldl DlistOp.apply nodes) ∧
      (ops.foldl DlistOp.apply nodes).toFinset = ops.foldl DlistOp.members nodes.toFinset
  | [], s, nodes, h, _, _ => ⟨s, rfl, h, rfl⟩
  | op :: ops, s, nodes, h, hallowed, hfuel => by
      rw [List.length_cons] at hfuel
      have hfuel₀ : nodes.length ≤ fuel := by omega
      obtain ⟨s₁, hrun, h₁⟩ := DlistOp.run_holds h hfuel₀ hallowed.1
      have hmembers := DlistOp.apply_members h.nodup op
      have hfuel₁ : (op.apply nodes).length + ops.length ≤ fuel := by
        have := DlistOp.apply_length nodes op
        omega
      obtain ⟨s', hruns, h', hset⟩ := runOps_holds h₁ (hmembers ▸ hallowed.2) hfuel₁
      refine ⟨s', ?_, h', ?_⟩
      · rw [List.foldlM_cons, hrun]
        exact hruns
      · rw [List.foldl_cons, hset, hmembers, List.foldl_cons]

/-! ## Sorted lists -/

section Sorted

variable {compare : ν → ν → Int}

def Ascending (compare : ν → ν → Int) (nodes : List ν) : Prop :=
  nodes.Pairwise fun a b => compare a b ≤ 0

omit [DecidableEq ν] in
/-- A node goes between those that are not greater and those that are not
less. -/
theorem Ascending.between {front back : List ν} {node : ν} (h : Ascending compare (front ++ back))
    (hfront : ∀ x ∈ front, compare x node ≤ 0) (hback : ∀ x ∈ back, compare node x ≤ 0) :
    Ascending compare (front ++ node :: back) := by
  obtain ⟨hf, hb, hcross⟩ := List.pairwise_append.mp h
  refine List.pairwise_append.mpr ⟨hf, List.pairwise_cons.mpr ⟨hback, hb⟩, fun x hx y hy => ?_⟩
  rcases List.mem_cons.mp hy with rfl | hy
  · exact hfront x hx
  · exact hcross x hx y hy

omit [DecidableEq ν] in
/-- What is behind a node that is not less is not less. -/
theorem Ascending.le_of_head (hcompare : TotalPreorder compare) {node : ν} {list : List ν}
    (h : Ascending compare list) (hhead : ∀ x ∈ list.head?, compare node x ≤ 0) :
    ∀ x ∈ list, compare node x ≤ 0 := by
  cases list with
  | nil => simp
  | cons y list =>
    intro x hx
    rcases List.mem_cons.mp hx with rfl | hx
    · exact hhead x rfl
    · exact hcompare.trans _ _ _ (hhead y rfl) ((List.pairwise_cons.mp h).1 x hx)

omit [DecidableEq ν] in
theorem Ascending.le_of_last (hcompare : TotalPreorder compare) {node : ν} {list : List ν}
    (h : Ascending compare list) (hlast : ∀ x ∈ list.getLast?, compare x node ≤ 0) :
    ∀ x ∈ list, compare x node ≤ 0 := by
  rcases List.eq_nil_or_concat' list with rfl | ⟨front, y, rfl⟩
  · simp
  · intro x hx
    have hy : compare y node ≤ 0 := hlast y List.getLast?_concat
    rcases List.mem_append.mp hx with hx | hx
    · exact hcompare.trans _ _ _ ((List.pairwise_append.mp h).2.2 x hx y (by simp)) hy
    · rw [List.mem_singleton.mp hx]
      exact hy

omit [DecidableEq ν] in
/-- `dlist_add_sorted` keeps the order. -/
theorem sortedInsert_ascending (hcompare : TotalPreorder compare) (node : ν) {nodes : List ν}
    (h : Ascending compare nodes) : Ascending compare (sortedInsert compare node nodes) := by
  cases nodes with
  | nil => exact List.pairwise_singleton ..
  | cons first rest =>
    rw [sortedInsert]
    split
    · rename_i hlt
      exact List.pairwise_cons.mpr ⟨h.le_of_head hcompare (by simp; omega), h⟩
    · rename_i hge
      rw [← List.takeWhile_append_dropWhile (p := fun x => decide (compare node x > 0)) (l := rest)] at h
      rw [← List.cons_append]
      refine Ascending.between h (fun x hx => ?_) (Ascending.le_of_head hcompare ?_ fun x hx => ?_)
      · rcases List.mem_cons.mp hx with rfl | hx
        · have := hcompare.swap x node
          have := hcompare.swap node x
          omega
        · have hgt : compare node x > 0 := by simpa using List.mem_takeWhile_imp hx
          exact ((hcompare.swap x node).mpr hgt).le
      · exact (List.pairwise_append.mp (List.pairwise_cons.mp h).2).2.1
      · have hnot := List.head?_dropWhile_not (fun x => decide (compare node x > 0)) rest
        rw [hx] at hnot
        simpa using hnot

omit [DecidableEq ν] in
/-- `dlist_add_sorted_r` keeps the order. -/
theorem sortedInsertR_ascending (hcompare : TotalPreorder compare) (node : ν) {nodes : List ν}
    (h : Ascending compare nodes) : Ascending compare (sortedInsertR compare node nodes) := by
  rw [← List.rdropWhile_append_rtakeWhile (p := fun x => decide (compare node x < 0)) (l := nodes)] at h
  refine Ascending.between h (Ascending.le_of_last hcompare ?_ fun x hx => ?_) fun x hx => ?_
  · exact (List.pairwise_append.mp h).1
  · have hne : nodes.rdropWhile (fun x => decide (compare node x < 0)) ≠ [] := by
      intro hnil
      rw [hnil] at hx
      cases hx
    have hnot := List.rdropWhile_last_not _ nodes hne
    rw [List.getLast?_eq_some_getLast hne, Option.mem_some_iff] at hx
    rw [hx] at hnot
    have := hcompare.swap node x
    have := hcompare.swap x node
    simp only [decide_eq_true_eq] at hnot
    omega
  · have hlt : compare node x < 0 := by simpa using List.mem_rtakeWhile_imp hx
    exact hlt.le

end Sorted

/-! ## Iteration -/

/-- Nodes of the front are removed, one after the other. -/
theorem removeAll_holds {rest : List ν} : ∀ {removed : List ν} {s : DlistState ν} {front : List ν},
    s.Holds (front ++ rest) → removed.Nodup → (∀ a ∈ removed, a ∈ front) →
    ∃ kept, (removed.foldl dlistRemove s).Holds (kept ++ rest) ∧ kept.Sublist front
  | [], _, front, h, _, _ => ⟨front, h, .refl _⟩
  | a :: removed, s, front, h, hnd, hsub => by
      obtain ⟨pre, post, rfl⟩ := List.append_of_mem (hsub a (by simp))
      rw [List.append_assoc, List.cons_append] at h
      have h₁ := dlistRemove_holds h
      rw [← List.append_assoc] at h₁
      have hsub₁ : ∀ b ∈ removed, b ∈ pre ++ post := by
        intro b hb
        have hne : b ≠ a := fun e => (List.nodup_cons.mp hnd).1 (e ▸ hb)
        simpa [hne] using hsub b (by simp [hb])
      obtain ⟨kept, h', hkept⟩ := removeAll_holds h₁ (List.nodup_cons.mp hnd).2 hsub₁
      have hskip : (pre ++ post).Sublist (pre ++ a :: post) :=
        (List.Sublist.refl pre).append (List.sublist_cons_self a post)
      exact ⟨kept, h', hkept.trans hskip⟩

/-- The callback keeps the invariant and takes nodes out of the list, none
of them behind the node it is called on. -/
def RemovesBehind (list : σ → DlistState ν) (doWhat : ν → σ → Option σ) (I : σ → Prop) : Prop :=
  ∀ current s earlier rest, I s → (list s).Holds (earlier ++ current :: rest) →
    ∃ (s' : σ) (removed : List ν), doWhat current s = some s' ∧ I s' ∧
      removed.Nodup ∧ (∀ a ∈ removed, a ∈ earlier ∨ a = current) ∧
      list s' = removed.foldl dlistRemove (list s)

/-- A callback that also writes down on which nodes it is called. -/
def logging (doWhat : ν → σ → Option σ) (current : ν) (s : σ × List ν) : Option (σ × List ν) := do
  let s' ← doWhat current s.1
  some (s', s.2 ++ [current])

theorem dlistForeach2Loop_visits {list : σ → DlistState ν} {doWhat : ν → σ → Option σ}
    {I : σ → Prop} (hcallback : RemovesBehind list doWhat I) :
    ∀ {rest : List ν} {fuel : Nat} {s : σ} {earlier : List ν} (visited : List ν),
      rest.length ≤ fuel → I s → (list s).Holds (earlier ++ rest) →
      ∃ s' kept, dlistForeach2Loop (fun s => list s.1) (logging doWhat) fuel rest.head? (s, visited)
          = some (s', visited ++ rest) ∧
        I s' ∧ (list s').Holds kept ∧ kept.Sublist (earlier ++ rest)
  | [], fuel, s, earlier, _, _, hI, h => by
      refine ⟨s, earlier ++ [], ?_, hI, h, .refl _⟩
      cases fuel <;> simp [dlistForeach2Loop]
  | current :: rest, 0, s, earlier, visited, hfuel, hI, h => by simp at hfuel
  | current :: rest, fuel + 1, s, earlier, visited, hfuel, hI, h => by
      obtain ⟨s₁, removed, hdo, hI₁, hnd, hsub, hlist⟩ := hcallback current s earlier rest hI h
      have hnext : (list s).links.next current = rest.head? := h.next_eq
      -- what is removed is in front of the rest
      rw [← List.singleton_append, ← List.append_assoc] at h
      obtain ⟨kept₁, h₁, hkept₁⟩ := removeAll_holds h hnd fun a ha => by simpa using hsub a ha
      rw [← hlist] at h₁
      obtain ⟨s', kept, hloop, hI', h', hkept⟩ :=
        dlistForeach2Loop_visits hcallback (visited ++ [current])
          (Nat.le_of_succ_le_succ hfuel) hI₁ h₁
      refine ⟨s', kept, ?_, hI', h', ?_⟩
      · simp only [List.head?_cons, dlistForeach2Loop, logging, hdo, hnext, Option.bind_eq_bind,
          Option.bind_some]
        rw [hloop, List.append_assoc, List.singleton_append]
      · refine hkept.trans ?_
        have hfront := hkept₁.append_right rest
        rwa [List.append_assoc, List.singleton_append] at hfront

/-- **The iteration** calls the callback once on every node the list had at
the start, in order. -/
theorem dlistForeach2_visits {list : σ → DlistState ν} {doWhat : ν → σ → Option σ}
    {I : σ → Prop} (hcallback : RemovesBehind list doWhat I) {s : σ} {nodes : List ν} {fuel : Nat}
    (hI : I s) (h : (list s).Holds nodes) (hfuel : nodes.length ≤ fuel) :
    ∃ s' kept, dlistForeach2 (fun s => list s.1) (logging doWhat) fuel (s, [])
        = some (s', nodes) ∧ (list s').Holds kept ∧ kept.Sublist nodes := by
  have hstart : (list s).Holds ([] ++ nodes) := h
  obtain ⟨s', kept, hloop, -, h', hkept⟩ :=
    dlistForeach2Loop_visits hcallback [] hfuel hI hstart
  refine ⟨s', kept, ?_, h', hkept⟩
  rw [dlistForeach2, h.first_eq]
  exact hloop

section Refinement

variable {list : σ → DlistState ν} {nodes : σ → List ν} {doWhat : ν → σ → Option σ} {I : σ → Prop}

theorem dlistForeach2Loop_refines (hlist : ∀ s, I s → (list s).Holds (nodes s))
    (hkeeps : ∀ node s s', I s → doWhat node s = some s' → I s') :
    ∀ {fuel : Nat} {current : Option ν} {s s' : σ}, I s →
      Common.dlistForeach2Loop nodes doWhat fuel current s = some s' →
      dlistForeach2Loop list doWhat fuel current s = some s'
  | fuel, none, s, s', _, h => by
      cases fuel <;> simpa [Common.dlistForeach2Loop, dlistForeach2Loop] using h
  | 0, some _, _, _, _, h => by simp [Common.dlistForeach2Loop] at h
  | fuel + 1, some current, s, s', hI, h => by
      rw [Common.dlistForeach2Loop] at h
      split at h
      · rename_i hmem
        simp only [Option.bind_eq_bind, Option.bind_eq_some_iff] at h
        obtain ⟨s₁, hdo, hrest⟩ := h
        obtain ⟨pre, post, heq⟩ := List.append_of_mem hmem
        have hholds : (list s).Holds (pre ++ current :: post) := heq ▸ hlist s hI
        have hpre : current ∉ pre := fun hin =>
          (List.nodup_append.mp hholds.nodup).2.2 current hin current (by simp) rfl
        have hnext : (list s).links.next current = dlistNext (nodes s) current := by
          rw [hholds.next_eq, heq, dlistNext_append pre current post hpre]
        rw [dlistForeach2Loop, hnext, hdo]
        exact dlistForeach2Loop_refines hlist hkeeps (hkeeps _ _ _ hI hdo) hrest
      · cases h

/-- What `dlist_foreach2` does over the list of the nodes it does in memory. -/
theorem dlistForeach2_refines (hlist : ∀ s, I s → (list s).Holds (nodes s))
    (hkeeps : ∀ node s s', I s → doWhat node s = some s' → I s') {s s' : σ} (hI : I s)
    (h : Common.dlistForeach2 nodes doWhat s = some s') :
    dlistForeach2 list doWhat (nodes s).length s = some s' := by
  rw [dlistForeach2, (hlist s hI).first_eq]
  exact dlistForeach2Loop_refines hlist hkeeps hI h

end Refinement

/-- **The list operations.** A sequence of them goes through and leaves a
well-formed list of the nodes that were added and not removed; a sorted
list stays sorted; an iteration whose callback removes nodes at or before
its own visits every node once. -/
theorem dlist_operations :
    (∀ (ops : List (DlistOp ν)) (s : DlistState ν) (nodes : List ν) (fuel : Nat),
      s.Holds nodes → Allowed nodes.toFinset ops → nodes.length + ops.length ≤ fuel →
      ∃ s' nodes', ops.foldlM (DlistOp.run fuel) s = some s' ∧ s'.Holds nodes' ∧
        (∀ a ∈ nodes', ∀ b ∈ nodes', s'.links.next a = some b ↔ s'.links.prev b = some a) ∧
        nodes'.toFinset = ops.foldl DlistOp.members nodes.toFinset) ∧
    (∀ (compare : ν → ν → Int) (s : DlistState ν) (nodes : List ν) (node : ν) (fuel : Nat),
      TotalPreorder compare → s.Holds nodes → node ∉ nodes → Ascending compare nodes →
      nodes.length ≤ fuel →
      (∃ s' nodes', dlistAddSorted compare fuel s node = some s' ∧ s'.Holds nodes' ∧
        nodes'.Perm (node :: nodes) ∧ Ascending compare nodes') ∧
      (∃ s' nodes', dlistAddSortedR compare fuel s node = some s' ∧ s'.Holds nodes' ∧
        nodes'.Perm (node :: nodes) ∧ Ascending compare nodes')) ∧
    (∀ (list : σ → DlistState ν) (doWhat : ν → σ → Option σ) (I : σ → Prop) (s : σ)
      (nodes : List ν) (fuel : Nat),
      RemovesBehind list doWhat I → I s → (list s).Holds nodes → nodes.length ≤ fuel →
      ∃ s' kept, dlistForeach2 (fun s => list s.1) (logging doWhat) fuel (s, [])
          = some (s', nodes) ∧ (list s').Holds kept ∧ kept.Sublist nodes) := by
  refine ⟨fun ops s nodes fuel h hallowed hfuel => ?_,
    fun compare s nodes node fuel hcompare h hnew hsorted hfuel => ⟨?_, ?_⟩,
    fun list doWhat I s nodes fuel hcallback hI h hfuel =>
      dlistForeach2_visits hcallback hI h hfuel⟩
  · obtain ⟨s', hrun, h', hset⟩ := runOps_holds h hallowed hfuel
    exact ⟨s', _, hrun, h', fun a ha b hb => h'.next_iff_prev ha hb, hset⟩
  · obtain ⟨s', hrun, h'⟩ := dlistAddSorted_holds compare h hnew hfuel
    exact ⟨s', _, hrun, h', sortedInsert_perm compare node nodes,
      sortedInsert_ascending hcompare node hsorted⟩
  · obtain ⟨s', hrun, h'⟩ := dlistAddSortedR_holds compare h hnew hfuel
    exact ⟨s', _, hrun, h', sortedInsertR_perm compare node nodes,
      sortedInsertR_ascending hcompare node hsorted⟩

/-- Two numbers, a third one between them, and an iteration that removes
what it visits. -/
theorem dlist_operations_numbers :
    (∃ s' nodes', [DlistOp.add 1, .add 3, .remove 1].foldlM (DlistOp.run 3) (.blank Nat)
        = some s' ∧ s'.Holds nodes' ∧
      (∀ a ∈ nodes', ∀ b ∈ nodes', s'.links.next a = some b ↔ s'.links.prev b = some a) ∧
      nodes'.toFinset = {3}) ∧
    (∃ s' nodes', dlistAddSorted (fun a b : Nat => (a : Int) - b) 2
        (dlistAdd (dlistAdd (.blank Nat) 1) 3) 2 = some s' ∧ s'.Holds nodes' ∧
      nodes'.Perm [2, 1, 3] ∧ Ascending (fun a b : Nat => (a : Int) - b) nodes') ∧
    ∃ s' kept, dlistForeach2 (fun s => s.1) (logging fun a s => some (dlistRemove s a)) 2
        (dlistAdd (dlistAdd (.blank Nat) 1) 3, []) = some (s', [1, 3]) ∧
      DlistState.Holds s' kept ∧ kept.Sublist [1, 3] := by
  have hnone : (DlistState.blank Nat).Holds [] := DlistState.blank_holds Nat
  have htwo : (dlistAdd (dlistAdd (.blank Nat) 1) 3).Holds [1, 3] :=
    dlistAdd_holds (dlistAdd_holds hnone (by simp)) (by simp)
  have hcompare : TotalPreorder fun a b : Nat => (a : Int) - b :=
    ⟨fun a b => by omega, fun a b c => by omega⟩
  have hcallback : RemovesBehind (fun s : DlistState Nat => s)
      (fun a s => some (dlistRemove s a)) fun _ => True :=
    fun a s _ _ _ _ => ⟨dlistRemove s a, [a], rfl, trivial, by simp, by simp, rfl⟩
  obtain ⟨hrun, hsort, hforeach⟩ := @dlist_operations Nat (DlistState Nat) _
  refine ⟨hrun _ _ [] 3 hnone ?_ (by simp),
    (hsort _ _ [1, 3] 2 2 hcompare htwo (by simp) ?_ (by simp)).1,
    hforeach _ _ _ _ [1, 3] 2 hcallback trivial htwo (by simp)⟩
  · simp [Allowed, DlistOp.Allowed, DlistOp.members]
  · simp [Ascending]

end SpRtrace.Common.DlistLinks
