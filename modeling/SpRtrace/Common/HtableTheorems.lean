/-
SpRtrace.Common.HtableTheorems — the hash table of `src/common/htable.c`
as a finite map.

Abstractly a table keeps one node for every class of equal nodes
(`ClassMap`). `Represents` says that the memory holds such a map. Storing
and finding keep it and answer as the map does, whatever nodes collide;
`htable_remove_node` does so for a node that is stored, and for one that
was never used. A node that `htable_find` has seen, or that is not stored
any more, knows a bucket it is not in: there the source unlinks it from a
list it is no member of (`Proper` leaves that out).
-/
import Mathlib
import SpRtrace.Common.HtableLinks
import SpRtrace.Common.DlistLinksTheorems
import SpRtrace.Lib.ClassMap

namespace SpRtrace.Common.DlistLinks

open SpRtrace.Lib

variable {ν : Type} [DecidableEq ν]

/-! ## Operations and answers -/

inductive HtableOp (ν : Type)
  | store (node : ν)
  | find (data : ν)
  | removeNode (node : ν)
  | foreach

/-- What they return, and the nodes an iteration comes by. -/
inductive HtableAnswer (ν : Type)
  | node (found : Option ν)
  | nodes (visited : List ν)
  | nothing
  deriving DecidableEq

def HtableOp.run (ht : HtableT ν) (fuel : Nat) (s : HtableState ν) :
    HtableOp ν → Option (HtableState ν × HtableAnswer ν)
  | store node => do
      let (s, old) ← htableStore ht fuel s node
      some (s, .node old)
  | find data => do
      let (s, found) ← htableFind ht fuel s data
      some (s, .node found)
  | removeNode node => some (htableRemoveNode s node, .nothing)
  | foreach => do
      let (s, visited) ← htableForeach2 ht (fun x => x.1) (logging fun _ s => some s) fuel (s, [])
      some (s, .nodes visited)

def runHtable (ht : HtableT ν) (fuel : Nat) :
    HtableState ν → List (HtableOp ν) → Option (HtableState ν × List (HtableAnswer ν))
  | s, [] => some (s, [])
  | s, op :: ops => do
      let (s, answer) ← op.run ht fuel s
      let (s, answers) ← runHtable ht fuel s ops
      some (s, answer :: answers)

section Map

variable {setoid : Setoid ν}

noncomputable def HtableOp.apply (m : ClassMap setoid) : HtableOp ν → ClassMap setoid
  | store node => m.store node
  | removeNode node => m.remove node
  | find _ | foreach => m

def HtableOp.Answered (m : ClassMap setoid) : HtableOp ν → HtableAnswer ν → Prop
  | store node, .node old => old = m.find node
  | find data, .node found => found = m.find data
  | removeNode _, .nothing => True
  | foreach, .nodes visited => visited.Nodup ∧ ∀ a, a ∈ visited ↔ m.Holds a
  | _, _ => False

/-- The nodes that know their bucket after the call. -/
def HtableOp.usedAfter (used : Set ν) : HtableOp ν → Set ν
  | store node | find node => insert node used
  | removeNode _ | foreach => used

/-- A node that is removed is stored, or has never been stored or looked up. -/
def HtableOp.Proper (m : ClassMap setoid) (used : Set ν) : HtableOp ν → Prop
  | removeNode node => m.Holds node ∨ node ∉ used
  | _ => True

/-- Every call is answered as the map answers it. -/
def Answered : ClassMap setoid → List (HtableOp ν) → List (HtableAnswer ν) → Prop
  | _, [], [] => True
  | m, op :: ops, answer :: answers => op.Answered m answer ∧ Answered (op.apply m) ops answers
  | _, _, _ => False

/-- Every call is proper when its turn comes. -/
def Proper : ClassMap setoid → Set ν → List (HtableOp ν) → Prop
  | _, _, [] => True
  | m, used, op :: ops => op.Proper m used ∧ Proper (op.apply m) (op.usedAfter used) ops

end Map

/-! ## The table as a map -/

def classes {ht : HtableT ν} (hreq : HashRequirements ht.doCompare ht.doCalcHash) : Setoid ν :=
  ⟨fun a b => ht.doCompare a b = 0, hreq.equivalence⟩

section

variable {ht : HtableT ν} {hreq : HashRequirements ht.doCompare ht.doCalcHash}
  {s : HtableState ν} {t : Htable ν} {used : Set ν} {m : ClassMap (classes hreq)}

/-- The memory holds the map: its nodes are the stored ones. -/
structure Represents (ht : HtableT ν) {hreq : HashRequirements ht.doCompare ht.doCalcHash}
    (s : HtableState ν) (t : Htable ν) (used : Set ν) (m : ClassMap (classes hreq)) : Prop where
  shows : Shows ht s t used
  stored : ∀ a, t.Stored a ↔ m.Holds a

omit [DecidableEq ν] in
/-- The search in the bucket of a node finds the stored node of its class. -/
theorem Represents.search (h : Represents ht s t used m) (data : ν) :
    (t.buckets (home ht data)).find? (fun a => decide (ht.doCompare a data = 0)) = m.find data := by
  cases hfind : (t.buckets (home ht data)).find? fun a => decide (ht.doCompare a data = 0) with
  | some a =>
    have hzero : ht.doCompare a data = 0 := by simpa using List.find?_some hfind
    have hholds := (h.stored a).mp ⟨_, List.mem_of_find?_eq_some hfind⟩
    exact (m.find_eq_some.mpr ⟨hholds, hzero⟩).symm
  | none =>
    cases hm : m.find data with
    | none => rfl
    | some a =>
      obtain ⟨hholds, hclass⟩ := m.find_eq_some.mp hm
      have hzero : ht.doCompare a data = 0 := hclass
      have hhome : home ht a = home ht data := by
        rw [home, home, hreq.hash_eq a data hzero]
      have hmem := (h.shows.placed.stored_iff a).mp ((h.stored a).mpr hholds)
      rw [hhome] at hmem
      have hnot := List.find?_eq_none.mp hfind a hmem
      exact absurd (decide_eq_true hzero) hnot

/-- **`htable_find`** returns the stored node of the class, if there is one. -/
theorem Represents.find (h : Represents ht s t used m) {fuel : Nat}
    (hfuel : ∀ b, (t.buckets b).length ≤ fuel) (data : ν) :
    ∃ s', htableFind ht fuel s data = some (s', m.find data) ∧
      Represents ht s' t (insert data used) m := by
  obtain ⟨s', hbucket, hshows⟩ := h.shows.getBucket hreq data
  refine ⟨s', ?_, hshows, h.stored⟩
  rw [htableFind, hbucket]
  simp only [Option.bind_eq_bind, Option.bind_some]
  rw [dlistFind_eq (hshows.holds _) (hfuel _), h.search data]
  rfl

/-- **`htable_remove_node`** takes out a stored node. -/
theorem Represents.removeNode (h : Represents ht s t used m) {node : ν}
    (hproper : m.Holds node ∨ node ∉ used) :
    ∃ t', Represents ht (htableRemoveNode s node) t' used (m.remove node) ∧
      ∀ b, (t'.buckets b).length ≤ (t.buckets b).length := by
  by_cases hnode : t.Stored node
  · have hmem := (h.shows.placed.stored_iff node).mp hnode
    have hbucket := h.shows.known node (h.shows.stored_used node hnode)
    refine ⟨t.setBucket (home ht node) ((t.buckets (home ht node)).erase node),
      ⟨?_, fun a => ?_⟩, fun b => ?_⟩
    · rw [htableRemoveNode, hbucket]
      exact h.shows.unlink hnode
    · rw [h.shows.placed.stored_erase hmem, h.stored, m.holds_remove]
    · rw [Htable.setBucket_buckets]
      split
      · rename_i hb
        exact hb ▸ List.length_erase_le ..
      · exact le_rfl
  · -- the node does not know a bucket
    have hunused : node ∉ used := hproper.resolve_left fun hholds => hnode ((h.stored node).mpr hholds)
    refine ⟨t, ⟨?_, fun a => ?_⟩, fun _ => le_rfl⟩
    · rw [htableRemoveNode, h.shows.unknown node hunused]
      exact h.shows
    · rw [m.holds_remove, ← h.stored]
      exact ⟨fun ha => ⟨ha, fun e => hnode (e ▸ ha)⟩, And.left⟩

/-- **`htable_store`** puts the node in the place of the one of its class,
and returns that one. -/
theorem Represents.store (h : Represents ht s t used m) {fuel : Nat}
    (hfuel : ∀ b, (t.buckets b).length ≤ fuel) (node : ν) :
    ∃ s' t', htableStore ht fuel s node = some (s', m.find node) ∧
      Represents ht s' t' (insert node used) (m.store node) ∧
      ∀ b, (t'.buckets b).length ≤ (t.buckets b).length + 1 := by
  obtain ⟨s₁, hbucket, h₁⟩ := h.shows.getBucket hreq node
  have hused : node ∈ insert node used := Set.mem_insert node used
  have hfind : dlistFind (fun old => ht.doCompare old node) fuel (s₁.list (home ht node))
      = some (m.find node) := by
    rw [dlistFind_eq (h₁.holds _) (hfuel _)]
    exact congrArg some (h.search node)
  -- the node of the class is unlinked, if there is one
  obtain ⟨t₂, h₂, hstored, hlen⟩ : ∃ t₂,
      Shows ht (removeOld s₁ (home ht node) (m.find node)) t₂ (insert node used) ∧
      (∀ a, t₂.Stored a ↔ m.Holds a ∧ ¬ (classes hreq).r a node) ∧
      ∀ b, (t₂.buckets b).length ≤ (t.buckets b).length := by
    cases hm : m.find node with
    | none =>
      refine ⟨t, h₁, fun a => ?_, fun b => le_rfl⟩
      rw [h.stored]
      refine ⟨fun ha => ⟨ha, fun hclass => ?_⟩, And.left⟩
      have := m.find_eq_some.mpr ⟨ha, hclass⟩
      rw [hm] at this
      cases this
    | some old =>
      obtain ⟨hold, hclass⟩ := m.find_eq_some.mp hm
      have hhome : home ht old = home ht node := by
        rw [home, home, hreq.hash_eq old node hclass]
      have hst := (h.stored old).mpr hold
      refine ⟨_, hhome ▸ h₁.unlink hst, fun a => ?_, fun b => ?_⟩
      · rw [← hhome, h.shows.placed.stored_erase ((h.shows.placed.stored_iff old).mp hst), h.stored]
        refine and_congr_right fun ha => not_congr ⟨fun e => e ▸ hclass, fun ha' => ?_⟩
        exact m.holds_unique ha hold ((classes hreq).trans ha' ((classes hreq).symm hclass))
      · rw [Htable.setBucket_buckets]
        split
        · rename_i hb
          exact hb ▸ List.length_erase_le ..
        · exact le_rfl
  have hnew : ¬ t₂.Stored node := fun hst => ((hstored node).mp hst).2 ((classes hreq).refl node)
  refine ⟨_, _, ?_, ⟨h₂.link hnew hused, fun a => ?_⟩, fun b => ?_⟩
  · rw [htableStore, hbucket]
    have hbucket₂ := h₂.known node hused
    have hknown : Function.update (removeOld s₁ (home ht node) (m.find node)).bucket node
        (some (home ht node)) = (removeOld s₁ (home ht node) (m.find node)).bucket := by
      rw [← hbucket₂, Function.update_eq_self]
    simp only [Option.bind_eq_bind, Option.bind_some, hfind, hknown]
  · rw [h₂.placed.stored_add hnew, hstored, m.holds_store, or_comm]
  · rw [Htable.setBucket_buckets]
    have := hlen b
    split
    · rename_i hb
      rw [Common.dlistAdd, List.length_append, ← hb]
      exact Nat.add_le_add_right this 1
    · omega

/-- An iteration that changes nothing comes by the nodes of a list. -/
theorem dlistForeach2_reads (table : HtableState ν → DlistState ν) {nodes : List ν}
    (h : (table s).Holds nodes) {fuel : Nat} (hfuel : nodes.length ≤ fuel) (visited : List ν) :
    dlistForeach2 (fun x : HtableState ν × List ν => table x.1) (logging fun _ s => some s) fuel
      (s, visited) = some (s, visited ++ nodes) := by
  have hcallback : RemovesBehind table (fun _ s => some s) (· = s) :=
    fun _ s' _ _ hs' _ => ⟨s', [], rfl, hs', .nil, by simp, rfl⟩
  have hstart : (table s).Holds ([] ++ nodes) := h
  obtain ⟨s', kept, hloop, rfl, -, -⟩ :=
    dlistForeach2Loop_visits hcallback visited hfuel rfl hstart
  rw [dlistForeach2, h.first_eq]
  exact hloop

/-- **`htable_foreach`** comes by every stored node once. -/
theorem Represents.foreach (h : Represents ht s t used m) (hsize : 0 < ht.size) {fuel : Nat}
    (hfuel : ∀ b, (t.buckets b).length ≤ fuel) :
    ∃ visited, htableForeach2 ht (fun x : HtableState ν × List ν => x.1)
        (logging fun _ s => some s) fuel (s, []) = some (s, visited) ∧
      visited.Nodup ∧ ∀ a, a ∈ visited ↔ m.Holds a := by
  have hfold : ∀ (indices : List Nat) (visited : List ν),
      indices.foldlM (fun x i => dlistForeach2 (fun x : HtableState ν × List ν => x.1.list i)
        (logging fun _ s => some s) fuel x) (s, visited)
        = some (s, visited ++ indices.flatMap t.buckets) := by
    intro indices
    induction indices with
    | nil =>
      intro visited
      rw [List.foldlM_nil, List.flatMap_nil, List.append_nil]
      rfl
    | cons i indices ih =>
      intro visited
      rw [List.foldlM_cons, dlistForeach2_reads (fun s => s.list i) (h.shows.holds i) (hfuel i)]
      simp only [Option.bind_eq_bind, Option.bind_some]
      rw [ih, List.flatMap_cons, List.append_assoc]
  have hlt : ∀ a, t.Stored a → home ht a < t.size := fun a _ =>
    h.shows.size ▸ getBucket_none_lt hsize
  refine ⟨htableNodes t, ?_, (h.shows.placed.nodes hlt).1, fun a => ?_⟩
  · rw [htableForeach2, hfold, ← h.shows.size]
    rfl
  · rw [(h.shows.placed.nodes hlt).2 a, h.stored]

/-! ## Runs -/

/-- One call. -/
theorem HtableOp.run_represents (h : Represents ht s t used m) (hsize : 0 < ht.size) {fuel : Nat}
    (hfuel : ∀ b, (t.buckets b).length ≤ fuel) {op : HtableOp ν} (hproper : op.Proper m used) :
    ∃ s' t' answer, op.run ht fuel s = some (s', answer) ∧ op.Answered m answer ∧
      Represents ht s' t' (op.usedAfter used) (op.apply m) ∧
      ∀ b, (t'.buckets b).length ≤ (t.buckets b).length + 1 := by
  cases op with
  | store node =>
    obtain ⟨s', t', hrun, h', hlen⟩ := h.store hfuel node
    exact ⟨s', t', .node (m.find node), by rw [run, hrun]; rfl, rfl, h', hlen⟩
  | find data =>
    obtain ⟨s', hrun, h'⟩ := h.find hfuel data
    exact ⟨s', t, .node (m.find data), by rw [run, hrun]; rfl, rfl, h', fun b => Nat.le_succ _⟩
  | removeNode node =>
    obtain ⟨t', h', hlen⟩ := h.removeNode hproper
    exact ⟨_, t', .nothing, rfl, trivial, h', fun b => (hlen b).trans (Nat.le_succ _)⟩
  | foreach =>
    obtain ⟨visited, hrun, hvisited⟩ := h.foreach hsize hfuel
    exact ⟨s, t, .nodes visited, by rw [run, hrun]; rfl, hvisited, h, fun b => Nat.le_succ _⟩

/-- **A run** of proper calls is answered as the map answers it. -/
theorem runHtable_represents (hsize : 0 < ht.size) {fuel : Nat} :
    ∀ {ops : List (HtableOp ν)} {s : HtableState ν} {t : Htable ν} {used : Set ν}
      {m : ClassMap (classes hreq)}, Represents ht s t used m → Proper m used ops →
      (∀ b, (t.buckets b).length + ops.length ≤ fuel) →
      ∃ s' t' answers, runHtable ht fuel s ops = some (s', answers) ∧ Answered m ops answers ∧
        Represents ht s' t' (ops.foldl HtableOp.usedAfter used) (ops.foldl HtableOp.apply m)
  | [], s, t, used, m, h, _, _ => ⟨s, t, [], rfl, trivial, h⟩
  | op :: ops, s, t, used, m, h, hproper, hfuel => by
      have hroom : ∀ b, (t.buckets b).length ≤ fuel := fun b => (Nat.le_add_right ..).trans (hfuel b)
      obtain ⟨s₁, t₁, answer, hrun, hanswer, h₁, hlen⟩ := HtableOp.run_represents h hsize hroom hproper.1
      have hfuel₁ : ∀ b, (t₁.buckets b).length + ops.length ≤ fuel := by
        intro b
        have := hlen b
        have := hfuel b
        rw [List.length_cons] at this
        omega
      obtain ⟨s', t', answers, hruns, hanswers, h'⟩ := runHtable_represents hsize h₁ hproper.2 hfuel₁
      refine ⟨s', t', answer :: answers, ?_, ⟨hanswer, hanswers⟩, h'⟩
      rw [runHtable, hrun]
      simp only [Option.bind_eq_bind, Option.bind_some, hruns]

omit [DecidableEq ν] in
/-- A new table is the empty map. -/
theorem htableBlank_represents (hreq : HashRequirements ht.doCompare ht.doCalcHash) :
    Represents ht (htableBlank ν) (htableInit ht.size) ∅ (ClassMap.empty (classes hreq)) where
  shows := htableBlank_shows ht
  stored a := ⟨fun ⟨b, hb⟩ => by simp at hb, fun h => absurd h ClassMap.holds_empty⟩

end

end SpRtrace.Common.DlistLinks
