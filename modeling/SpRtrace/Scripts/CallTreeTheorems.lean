/-
SpRtrace.Scripts.CallTreeTheorems — the accounts of the call graph.

Creating a node and merging into one are the same step from a blank node
(`visit_lookup`), so the walk along one backtrace has one invariant,
`Walked`: it says what the names seen so far have added to the graph of
before. A whole update then adds its sizes once to every name in its
backtrace, and the neighbours in the backtrace become the links.
-/
import Mathlib
import SpRtrace.Scripts.CallTree

namespace SpRtrace.Scripts

variable {Fun : Type*} [DecidableEq Fun]

/-! ## Sizes -/

/-- `add_sizes` returns the sum. -/
theorem TotalStats.addSizes_sum (stats : TotalStats) (sizes : List Int) :
    (stats.addSizes sizes).2 = sizes.sum := by
  have hloop : ∀ p : TotalStats × Int,
      (sizes.foldl (fun p s => (TotalStats.addSize p.1 s, p.2 + s)) p).2 = p.2 + sizes.sum := by
    induction sizes with
    | nil => intro p; simp
    | cons s sizes ih => intro p; simp [ih, Int.add_assoc]
  exact (hloop (stats, 0)).trans (Int.zero_add _)

/-! ## One node -/

/-- A node without any backtrace. -/
def Node.blank (name : Fun) : Node Fun :=
  { traces := ∅, count := 0, size := 0, name, children := ∅, parents := ∅ }

/-- The node of a name, blank if there is none. -/
def Graph.node (g : Graph Fun) (n : Fun) : Node Fun := (g.nodes.lookup n).getD (.blank n)

def Node.visited (node : Node Fun) (trace : List Fun) (idx : Nat) (size : Int) (count traceId : Nat) :
    Node Fun :=
  (if traceId ∈ node.traces then node
    else { node with traces := insert traceId node.traces, count := node.count + count,
                     size := node.size + size }).link trace idx

theorem Node.link_eq (node : Node Fun) (trace : List Fun) (idx : Nat) :
    ∃ children parents, node.link trace idx = { node with children, parents } := by
  unfold Node.link
  split <;> split <;> cases (trace)[idx - 1]? <;> cases (trace)[idx + 1]? <;> exact ⟨_, _, rfl⟩

@[simp] theorem Node.link_traces (node : Node Fun) (trace : List Fun) (idx : Nat) :
    (node.link trace idx).traces = node.traces := by
  obtain ⟨_, _, h⟩ := node.link_eq trace idx
  rw [h]

@[simp] theorem Node.link_size (node : Node Fun) (trace : List Fun) (idx : Nat) :
    (node.link trace idx).size = node.size := by
  obtain ⟨_, _, h⟩ := node.link_eq trace idx
  rw [h]

@[simp] theorem Node.link_count (node : Node Fun) (trace : List Fun) (idx : Nat) :
    (node.link trace idx).count = node.count := by
  obtain ⟨_, _, h⟩ := node.link_eq trace idx
  rw [h]

@[simp] theorem Node.link_name (node : Node Fun) (trace : List Fun) (idx : Nat) :
    (node.link trace idx).name = node.name := by
  obtain ⟨_, _, h⟩ := node.link_eq trace idx
  rw [h]

/-- The child of a visited node is the line before it. -/
theorem Node.mem_link_children (node : Node Fun) (pre rest : List Fun) (line a : Fun) :
    a ∈ (node.link (pre ++ line :: rest) pre.length).children ↔
      a ∈ node.children ∨ pre.getLast? = some a := by
  have hprev : 0 < pre.length → (pre ++ line :: rest)[pre.length - 1]? = pre.getLast? := by
    intro hpos
    rw [List.getElem?_append_left (by omega), List.getLast?_eq_getElem?]
  unfold Node.link
  by_cases hpos : 0 < pre.length
  · rw [if_pos hpos, hprev hpos]
    cases hlast : pre.getLast? with
    | none => split <;> cases (pre ++ line :: rest)[pre.length + 1]? <;> simp [Node.addParent]
    | some b =>
      split <;> cases (pre ++ line :: rest)[pre.length + 1]? <;>
        simp [Node.addParent, Node.addChild, or_comm, eq_comm]
  · have hnil : pre = [] := List.length_eq_zero_iff.mp (by omega)
    rw [if_neg hpos, hnil]
    split <;> cases ([] ++ line :: rest)[([] : List Fun).length + 1]? <;> simp [Node.addParent]

/-- The parent of a visited node is the line behind it. -/
theorem Node.mem_link_parents (node : Node Fun) (pre rest : List Fun) (line b : Fun) :
    b ∈ (node.link (pre ++ line :: rest) pre.length).parents ↔
      b ∈ node.parents ∨ rest.head? = some b := by
  have hnext : (pre ++ line :: rest)[pre.length + 1]? = rest.head? := by
    rw [List.getElem?_append_right (by omega), List.head?_eq_getElem?]
    simp
  have hchild : ∀ c : Option Fun, (c.elim node node.addChild).parents = node.parents := by
    intro c
    cases c <;> rfl
  have hfirst : (if 0 < pre.length then
      ((pre ++ line :: rest)[pre.length - 1]?).elim node node.addChild else node).parents
        = node.parents := by
    split
    · exact hchild _
    · rfl
  unfold Node.link
  rw [hnext]
  cases rest with
  | nil =>
    rw [if_neg (by simp), hfirst]
    simp
  | cons c rest =>
    have hlen : pre.length + 1 < (pre ++ line :: c :: rest).length := by simp
    rw [if_pos hlen]
    split <;> simp [Node.addParent, hchild, or_comm, eq_comm]

/-! ## One step of a walk -/

/-- A visit creates the node of the line or merges into it. -/
theorem visit_lookup (g : Graph Fun) (trace : List Fun) (idx : Nat) (line : Fun) (size : Int)
    (count : Nat) (n : Fun) :
    (g.visit trace idx line size count).nodes.lookup n =
      if n = line then some ((g.node line).visited trace idx size count g.traceId)
      else g.nodes.lookup n := by
  have hinsert : ∀ node : Node Fun, (g.nodes.insert line node).lookup n =
      if n = line then some node else g.nodes.lookup n := by
    intro node
    by_cases hn : n = line
    · rw [hn, if_pos rfl, AList.lookup_insert]
    · rw [if_neg hn, AList.lookup_insert_ne hn]
  unfold Graph.visit Graph.node
  cases hlookup : g.nodes.lookup line with
  | some node =>
    by_cases hmem : g.traceId ∈ node.traces
    · simp only [Graph.mergeNode, Node.addTrace, hmem, not_true_eq_false, if_false, Node.visited,
        if_true, Option.getD_some, hinsert, Bool.false_eq_true]
    · simp only [Graph.mergeNode, Node.addTrace, hmem, not_false_eq_true, if_true, Node.visited,
        if_false, Option.getD_some, hinsert, Node.addSizeCount]
  | none =>
    have hblank : (Node.init line size count g.traceId).link trace idx
        = (Node.blank line).visited trace idx size count g.traceId := by
      simp [Node.visited, Node.blank, Node.init]
    simp only [Graph.addNode, Option.getD_none, hblank, hinsert]

@[simp] theorem visit_traceId (g : Graph Fun) (trace : List Fun) (idx : Nat) (line : Fun)
    (size : Int) (count : Nat) : (g.visit trace idx line size count).traceId = g.traceId := by
  unfold Graph.visit
  cases g.nodes.lookup line <;> rfl

theorem visit_node (g : Graph Fun) (trace : List Fun) (idx : Nat) (line : Fun) (size : Int)
    (count : Nat) (n : Fun) :
    (g.visit trace idx line size count).node n =
      if n = line then (g.node line).visited trace idx size count g.traceId else g.node n := by
  rw [Graph.node, visit_lookup]
  by_cases hn : n = line
  · rw [if_pos hn, if_pos hn, Option.getD_some]
  · rw [if_neg hn, if_neg hn]
    rfl

omit [DecidableEq Fun] in
/-- Neighbours at the end of a list. -/
theorem pair_infix_concat {a b c : Fun} {l : List Fun} :
    [a, b] <:+: l ++ [c] ↔ [a, b] <:+: l ∨ (l.getLast? = some a ∧ b = c) := by
  have hsuffix : [a, b] <:+ l ++ [c] ↔ l.getLast? = some a ∧ b = c := by
    constructor
    · rintro ⟨l', hl'⟩
      have hsplit : (l' ++ [a]) ++ [b] = l ++ [c] := by simpa using hl'
      obtain ⟨hinit, hlast⟩ := List.append_inj' hsplit rfl
      refine ⟨?_, (List.cons.inj hlast).1⟩
      rw [← hinit, List.getLast?_append]
      rfl
    · rintro ⟨hlast, rfl⟩
      obtain ⟨l', rfl⟩ := List.getLast?_eq_some_iff.mp hlast
      exact ⟨l', by simp⟩
  rw [List.infix_concat_iff, hsuffix, or_comm]

/-! ## A walk along one backtrace -/

/-- What the lines `pre` of a backtrace, with `rest` still to come, have
added to the graph `g₀`. -/
structure Walked (g₀ : Graph Fun) (size : Int) (count : Nat) (pre rest : List Fun)
    (g : Graph Fun) : Prop where
  traceId : g.traceId = g₀.traceId
  present : ∀ n, (g.nodes.lookup n).isSome ↔ (g₀.nodes.lookup n).isSome ∨ n ∈ pre
  name : ∀ n, (g.node n).name = (g₀.node n).name
  traces : ∀ n t, t ∈ (g.node n).traces ↔ t ∈ (g₀.node n).traces ∨ (t = g₀.traceId ∧ n ∈ pre)
  size : ∀ n, (g.node n).size = (g₀.node n).size + if n ∈ pre then size else 0
  count : ∀ n, (g.node n).count = (g₀.node n).count + if n ∈ pre then count else 0
  children : ∀ n a, a ∈ (g.node n).children ↔ a ∈ (g₀.node n).children ∨ [a, n] <:+: pre
  parents : ∀ n b, b ∈ (g.node n).parents ↔
    b ∈ (g₀.node n).parents ∨ [n, b] <:+: pre ++ rest.head?.toList

/-- At the start of a backtrace nothing is added. -/
theorem Walked.refl (g : Graph Fun) (size : Int) (count : Nat) (rest : List Fun) :
    Walked g size count [] rest g where
  traceId := rfl
  present n := by simp
  name n := rfl
  traces n t := by simp
  size n := by simp
  count n := by simp
  children n a := by simp
  parents n b := by cases rest <;> simp [List.infix_cons_iff]

/-- **One line of a backtrace.** The id of the backtrace is new to the
graph before, so a node has it exactly if its name was seen already. -/
theorem Walked.visit {g₀ g : Graph Fun} {size : Int} {count : Nat} {pre rest : List Fun}
    {line : Fun} (hnew : ∀ n, g₀.traceId ∉ (g₀.node n).traces)
    (h : Walked g₀ size count pre (line :: rest) g) :
    Walked g₀ size count (pre ++ [line]) rest
      (g.visit (pre ++ line :: rest) pre.length line size count) := by
  have hseen : ∀ n, g.traceId ∈ (g.node n).traces ↔ n ∈ pre := by
    intro n
    rw [h.traces, h.traceId]
    simp [hnew n]
  refine ⟨?_, ?_, ?_, ?_, ?_, ?_, ?_, ?_⟩
  · rw [visit_traceId, h.traceId]
  · intro n
    rw [visit_lookup]
    by_cases hn : n = line
    · simp [hn]
    · simp [hn, h.present n]
  · intro n
    rw [visit_node, ← h.name]
    split
    next hn =>
      subst hn
      unfold Node.visited
      split <;> rw [Node.link_name]
    next => rfl
  · intro n t
    rw [visit_node]
    split
    next hn =>
      subst hn
      unfold Node.visited
      split
      next hmem => simp [h.traces, (hseen n).mp hmem]
      next hmem =>
        simp [h.traces, h.traceId, mt (hseen n).mpr hmem, or_comm]
    next hn => simp [h.traces, hn]
  · intro n
    rw [visit_node]
    split
    next hn =>
      subst hn
      unfold Node.visited
      split
      next hmem => simp [h.size, (hseen n).mp hmem]
      next hmem => simp [h.size, mt (hseen n).mpr hmem]
    next hn => simp [h.size, hn]
  · intro n
    rw [visit_node]
    split
    next hn =>
      subst hn
      unfold Node.visited
      split
      next hmem => simp [h.count, (hseen n).mp hmem]
      next hmem => simp [h.count, mt (hseen n).mpr hmem]
    next hn => simp [h.count, hn]
  · intro n a
    have hpair : [a, n] <:+: pre ++ [line] ↔ [a, n] <:+: pre ∨ (pre.getLast? = some a ∧ n = line) :=
      pair_infix_concat
    rw [visit_node, hpair]
    split
    next hn =>
      subst hn
      unfold Node.visited
      rw [Node.mem_link_children]
      split <;> simp [h.children, or_assoc]
    next hn => simp [h.children, hn]
  · intro n b
    have hbefore : [n, b] <:+: pre ++ [line] ↔
        [n, b] <:+: pre ∨ (pre.getLast? = some n ∧ b = line) := pair_infix_concat
    have hold : b ∈ (g.node n).parents ↔ b ∈ (g₀.node n).parents ∨ [n, b] <:+: pre ++ [line] :=
      h.parents n b
    have hpair : [n, b] <:+: pre ++ [line] ++ rest.head?.toList ↔
        [n, b] <:+: pre ++ [line] ∨ (n = line ∧ rest.head? = some b) := by
      cases rest with
      | nil => simp
      | cons c rest =>
        show [n, b] <:+: pre ++ [line] ++ [c] ↔ _
        rw [pair_infix_concat]
        simp [eq_comm]
    rw [visit_node, hpair]
    split
    next hn =>
      subst hn
      unfold Node.visited
      rw [Node.mem_link_parents]
      split <;> simp [hold, or_assoc]
    next hn => simp [hold, hn]

/-- The whole backtrace. -/
theorem Walked.visitAll {g₀ g : Graph Fun} {size : Int} {count : Nat} {pre rest : List Fun}
    (hnew : ∀ n, g₀.traceId ∉ (g₀.node n).traces) (h : Walked g₀ size count pre rest g) :
    Walked g₀ size count (pre ++ rest) []
      (g.visitAll (pre ++ rest) size count pre.length rest) := by
  induction rest generalizing g pre with
  | nil =>
    rw [List.append_nil]
    exact h
  | cons line rest ih =>
    have hrest := ih (h.visit hnew)
    rw [List.length_append, List.append_assoc] at hrest
    exact hrest

/-! ## Runs -/

/-- The graph accounts for the updates. -/
structure Accounts (updates : List (Update Fun)) (g : Graph Fun) : Prop where
  traces : ∀ n, ∀ t ∈ (g.node n).traces, t ≤ g.traceId
  present : ∀ n, (g.nodes.lookup n).isSome ↔ ∃ u ∈ updates, n ∈ u.trace
  name : ∀ n, (g.node n).name = n
  size : ∀ n, (g.node n).size =
    ((updates.filter fun u => n ∈ u.trace).map fun u => u.sizes.sum).sum
  count : ∀ n, (g.node n).count =
    ((updates.filter fun u => n ∈ u.trace).map fun u => u.sizes.length).sum
  children : ∀ n a, a ∈ (g.node n).children ↔ ∃ u ∈ updates, [a, n] <:+: u.trace
  parents : ∀ n b, b ∈ (g.node n).parents ↔ ∃ u ∈ updates, [n, b] <:+: u.trace

theorem accounts_init (overhead : Int) : Accounts [] (Graph.init overhead : Graph Fun) := by
  have hnode : ∀ n, (Graph.init overhead : Graph Fun).node n = .blank n := by
    intro n
    rw [Graph.node, Graph.init, AList.lookup_empty]
    rfl
  refine ⟨?_, ?_, ?_, ?_, ?_, ?_, ?_⟩ <;> intro n
  · simp [hnode, Node.blank]
  · simp [Graph.init]
  · rw [hnode]
    rfl
  · rw [hnode]
    rfl
  · rw [hnode]
    rfl
  · simp [hnode, Node.blank]
  · simp [hnode, Node.blank]

/-- What an update adds. -/
theorem update_walked (g : Graph Fun) {u : Update Fun} (hsizes : 0 ≤ u.sizes.sum)
    (htraces : ∀ n, ∀ t ∈ (g.node n).traces, t ≤ g.traceId) :
    ∃ g', g.update u.trace u.sizes u.address
        = { g' with addresses := g'.addresses ++ [(u.address, g'.traceId)] } ∧
      Walked { g with stats := (g.stats.addSizes u.sizes).1, traceId := g.traceId + 1 }
        u.sizes.sum u.sizes.length u.trace [] g' := by
  set g₀ : Graph Fun :=
    { g with stats := (g.stats.addSizes u.sizes).1, traceId := g.traceId + 1 } with hg₀
  have hnew : ∀ n, g₀.traceId ∉ (g₀.node n).traces := by
    intro n hmem
    exact absurd (htraces n _ hmem) (Nat.not_succ_le_self _)
  refine ⟨g₀.visitAll u.trace u.sizes.sum u.sizes.length 0 u.trace, ?_,
    (Walked.refl g₀ u.sizes.sum u.sizes.length u.trace).visitAll hnew⟩
  have hsum : (g.stats.addSizes u.sizes).2 = u.sizes.sum := TotalStats.addSizes_sum ..
  simp only [Graph.update, hsum, if_neg (Int.not_lt.mpr hsizes), hg₀]

/-- **An update keeps the accounts.** -/
theorem accounts_update {updates : List (Update Fun)} {g : Graph Fun} (h : Accounts updates g)
    {u : Update Fun} (hsizes : 0 ≤ u.sizes.sum) :
    Accounts (updates ++ [u]) (g.update u.trace u.sizes u.address) := by
  obtain ⟨g', heq, hw⟩ := update_walked g hsizes h.traces
  rw [heq]
  have hnode : ∀ n, ({ g' with addresses := g'.addresses ++ [(u.address, g'.traceId)] } :
      Graph Fun).node n = g'.node n := fun _ => rfl
  refine ⟨?_, ?_, ?_, ?_, ?_, ?_, ?_⟩
  · intro n t ht
    have hid : g'.traceId = g.traceId + 1 := hw.traceId
    show t ≤ g'.traceId
    rcases (hw.traces n t).mp ht with hold | ⟨hnew, -⟩
    · have := h.traces n t hold
      omega
    · exact le_of_eq (hnew.trans hid.symm)
  · intro n
    refine (hw.present n).trans ((or_congr_left (h.present n)).trans ?_)
    simp [or_and_right, exists_or]
  · intro n
    exact (hw.name n).trans (h.name n)
  · intro n
    refine (hw.size n).trans ?_
    rw [List.filter_append, List.map_append, List.sum_append, ← h.size n]
    by_cases hmem : n ∈ u.trace
    · simp [hmem]
      rfl
    · simp [hmem]
      rfl
  · intro n
    refine (hw.count n).trans ?_
    rw [List.filter_append, List.map_append, List.sum_append, ← h.count n]
    by_cases hmem : n ∈ u.trace
    · simp [hmem]
      rfl
    · simp [hmem]
      rfl
  · intro n a
    refine (hw.children n a).trans ((or_congr_left (h.children n a)).trans ?_)
    simp [or_and_right, exists_or]
  · intro n b
    have hpair := hw.parents n b
    rw [List.head?_nil, Option.toList_none, List.append_nil] at hpair
    refine hpair.trans ((or_congr_left (h.parents n b)).trans ?_)
    simp [or_and_right, exists_or]

theorem accounts_run (overhead : Int) {updates : List (Update Fun)}
    (hsizes : ∀ u ∈ updates, ∀ s ∈ u.sizes, 0 ≤ s) :
    Accounts updates ((Graph.init overhead : Graph Fun).run updates) := by
  induction updates using List.reverseRecOn with
  | nil => exact accounts_init overhead
  | append_singleton updates u ih =>
    have hsum : 0 ≤ u.sizes.sum :=
      List.sum_nonneg fun s hs => hsizes u (by simp) s hs
    have hrest := ih fun u' hu' => hsizes u' (List.mem_append_left _ hu')
    rw [Graph.run, List.foldl_append]
    exact accounts_update hrest hsum

/-- `a` is a child of `b`. -/
def Graph.IsChild (g : Graph Fun) (a b : Fun) : Prop :=
  ∃ node, g.nodes.lookup b = some node ∧ a ∈ node.children

/-- `b` is a parent of `a`. -/
def Graph.IsParent (g : Graph Fun) (b a : Fun) : Prop :=
  ∃ node, g.nodes.lookup a = some node ∧ b ∈ node.parents

/-- **Call tree accounting.** -/
theorem graphRun_accounts (overhead : Int) {updates : List (Update Fun)}
    (hsizes : ∀ u ∈ updates, ∀ s ∈ u.sizes, 0 ≤ s) :
    let g := (Graph.init overhead : Graph Fun).run updates
    (∀ n, (g.nodes.lookup n).isSome ↔ ∃ u ∈ updates, n ∈ u.trace) ∧
    (∀ n node, g.nodes.lookup n = some node →
      node.name = n ∧
      node.size = ((updates.filter fun u => n ∈ u.trace).map fun u => u.sizes.sum).sum ∧
      node.count = ((updates.filter fun u => n ∈ u.trace).map fun u => u.sizes.length).sum) ∧
    (∀ a b, g.IsChild a b ↔ g.IsParent b a) ∧
    (∀ a b, g.IsChild a b ↔ ∃ u ∈ updates, [a, b] <:+: u.trace) := by
  intro g
  have h : Accounts updates g := accounts_run overhead hsizes
  have hnode : ∀ n node, g.nodes.lookup n = some node → g.node n = node := by
    intro n node hlookup
    rw [Graph.node, hlookup, Option.getD_some]
  -- a node that does not exist has no links
  have hmem : ∀ {a b : Fun} {u : Update Fun}, [a, b] <:+: u.trace → a ∈ u.trace ∧ b ∈ u.trace :=
    fun hpair => ⟨hpair.subset (by simp), hpair.subset (by simp)⟩
  have hchild : ∀ a b, g.IsChild a b ↔ ∃ u ∈ updates, [a, b] <:+: u.trace := by
    intro a b
    rw [← h.children b a]
    constructor
    · rintro ⟨node, hlookup, ha⟩
      rwa [hnode b node hlookup]
    · intro ha
      obtain ⟨u, hu, hpair⟩ := (h.children b a).mp ha
      obtain ⟨node, hlookup⟩ := Option.isSome_iff_exists.mp
        ((h.present b).mpr ⟨u, hu, (hmem hpair).2⟩)
      exact ⟨node, hlookup, by rwa [← hnode b node hlookup]⟩
  have hparent : ∀ a b, g.IsParent b a ↔ ∃ u ∈ updates, [a, b] <:+: u.trace := by
    intro a b
    rw [← h.parents a b]
    constructor
    · rintro ⟨node, hlookup, hb⟩
      rwa [hnode a node hlookup]
    · intro hb
      obtain ⟨u, hu, hpair⟩ := (h.parents a b).mp hb
      obtain ⟨node, hlookup⟩ := Option.isSome_iff_exists.mp
        ((h.present a).mpr ⟨u, hu, (hmem hpair).1⟩)
      exact ⟨node, hlookup, by rwa [← hnode a node hlookup]⟩
  refine ⟨h.present, ?_, fun a b => (hchild a b).trans (hparent a b).symm, hchild⟩
  intro n node hlookup
  rw [← hnode n node hlookup]
  exact ⟨h.name n, h.size n, h.count n⟩

/-- A recursive function, and one that the two backtraces share. -/
theorem graphRun_accounts_recursion :
    let updates : List (Update String) :=
      [⟨["malloc", "f", "g", "f"], [16, 4], 0⟩, ⟨["malloc", "g"], [8], 0⟩]
    let g := (Graph.init 8).run updates
    g.IsChild "g" "f" ∧
      ∀ node, g.nodes.lookup "f" = some node → node.size = 20 ∧ node.count = 2 := by
  intro updates g
  obtain ⟨-, hnode, -, hchild⟩ := graphRun_accounts 8 (show ∀ u ∈ updates, ∀ s ∈ u.sizes, 0 ≤ s by decide)
  refine ⟨(hchild "g" "f").mpr ⟨_, List.mem_cons_self .., ["malloc", "f"], [], rfl⟩, ?_⟩
  intro node hlookup
  obtain ⟨-, hsize, hcount⟩ := hnode "f" node hlookup
  exact ⟨hsize.trans (by decide), hcount.trans (by decide)⟩

end SpRtrace.Scripts
