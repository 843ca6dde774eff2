/-
SpRtrace.Scripts.TrimTheorems — trimming keeps the call graph in order.

Whatever `trim` takes out is first cut off from all other nodes: a step of
`trim_leaf` cuts the one link of an end node (`cut_spec`), a step of
`trim_intermediate` puts a link past the node (`trimIntermediate_cuts`). Both
are an `Isolates` step, which keeps the links symmetric and leaves the nodes
that are marked for removal without links (`Trimmed.isolate`), so that they
can be deleted in the end.
-/
import SpRtrace.Lib.Bypass
import SpRtrace.Scripts.CallTreeTheorems
import SpRtrace.Scripts.Trim

namespace SpRtrace.Scripts

open Relation SpRtrace.Lib

variable {Fun : Type*} [DecidableEq Fun]

/-! ## Links -/

/-- `m` is a link of `n` on the side `s`. -/
def Graph.HasLink (g : Graph Fun) (s : Side) (n m : Fun) : Prop :=
  ∃ node, g.nodes.lookup n = some node ∧ m ∈ node.links s

@[simp] theorem Side.back_back (s : Side) : s.back.back = s := by cases s <;> rfl

@[simp] theorem Side.back_ne (s : Side) : s.back ≠ s := by cases s <;> decide

theorem Side.eq_or_back (s t : Side) : t = s ∨ t = s.back := by cases s <;> cases t <;> decide

omit [DecidableEq Fun] in
theorem only_eq_some {l : Finset Fun} {a : Fun} : only l = some a ↔ l = {a} := by
  unfold only
  constructor
  · intro h
    split at h
    next hcard =>
      obtain ⟨b, rfl⟩ := Finset.card_eq_one.mp hcard
      have hmem := Finset.choose_mem (fun _ => True) ({b} : Finset Fun) ⟨b, by simp, by simp⟩
      rw [← Option.some.inj h, Finset.mem_singleton.mp hmem]
    next => simp at h
  · rintro rfl
    rw [dif_pos (Finset.card_singleton a)]
    have hmem := Finset.choose_mem (fun _ => True) ({a} : Finset Fun) ⟨a, by simp, by simp⟩
    rw [Finset.mem_singleton.mp hmem]

/-- A node without its links. -/
def Node.bare (node : Node Fun) : Node Fun := { node with children := ∅, parents := ∅ }

theorem removeLink_spec {node : Node Fun} {s : Side} {f : Fun} (h : f ∈ node.links s) :
    ∃ node', node.removeLink s f = .ok node' ∧ node'.bare = node.bare ∧
      ∀ t, node'.links t = if t = s then (node.links s).erase f else node.links t := by
  cases s with
  | child =>
    refine ⟨_, if_pos h, rfl, fun t => ?_⟩
    cases t <;> rfl
  | parent =>
    refine ⟨_, if_pos h, rfl, fun t => ?_⟩
    cases t <;> rfl

omit [DecidableEq Fun] in
@[simp] theorem removeLinks_bare (node : Node Fun) (s : Side) :
    (node.removeLinks s).bare = node.bare := by
  cases s <;> rfl

omit [DecidableEq Fun] in
theorem removeLinks_links (node : Node Fun) (s t : Side) :
    (node.removeLinks s).links t = if t = s then ∅ else node.links t := by
  cases s <;> cases t <;> rfl

/-! ## Nodes in the dictionary -/

theorem put_lookup (g : Graph Fun) (n : Fun) (node : Node Fun) (x : Fun) :
    (g.put n node).nodes.lookup x = if x = n then some node else g.nodes.lookup x := by
  by_cases hx : x = n
  · rw [hx, if_pos rfl, Graph.put, AList.lookup_insert]
  · rw [if_neg hx, Graph.put, AList.lookup_insert_ne hx]

theorem get_ok {g : Graph Fun} {n : Fun} {node : Node Fun} (h : g.nodes.lookup n = some node) :
    g.get n = .ok node := by
  rw [Graph.get, h]

theorem modify_ok {g : Graph Fun} {n : Fun} {node node' : Node Fun}
    {method : Node Fun → Except (TrimError Fun) (Node Fun)} (h : g.nodes.lookup n = some node)
    (hmethod : method node = .ok node') : g.modify n method = .ok (g.put n node') := by
  rw [Graph.modify, get_ok h]
  show (method node).bind _ = _
  rw [hmethod]
  rfl

theorem hasLink_iff {g : Graph Fun} {n : Fun} {node : Node Fun} (h : g.nodes.lookup n = some node)
    (s : Side) (m : Fun) : g.HasLink s n m ↔ m ∈ node.links s := by
  constructor
  · rintro ⟨node', hlookup, hm⟩
    rw [h] at hlookup
    rwa [Option.some.inj hlookup]
  · intro hm
    exact ⟨node, h, hm⟩

theorem put_hasLink (g : Graph Fun) (n : Fun) (node : Node Fun) (s : Side) (x y : Fun) :
    (g.put n node).HasLink s x y ↔ if x = n then y ∈ node.links s else g.HasLink s x y := by
  by_cases hx : x = n
  · rw [if_pos hx]
    exact hasLink_iff (by rw [put_lookup, if_pos hx]) s y
  · rw [if_neg hx, Graph.HasLink, put_lookup, if_neg hx]
    rfl

/-! ## A node is cut off -/

/-- The links of `n` are gone, and those of `new` have been added. -/
structure Isolates (n : Fun) (new : Side → Fun → Fun → Prop) (g g' : Graph Fun) : Prop where
  bare : ∀ x, (g'.nodes.lookup x).map Node.bare = (g.nodes.lookup x).map Node.bare
  links : ∀ s x y, g'.HasLink s x y ↔ (g.HasLink s x y ∧ x ≠ n ∧ y ≠ n) ∨ new s x y

/-- **An end node is cut off.** -/
theorem cut_spec {g : Graph Fun} {s : Side} {n m : Fun} {node : Node Fun}
    (hsymm : ∀ s n m, g.HasLink s n m → g.HasLink s.back m n)
    (hlookup : g.nodes.lookup n = some node) (hback : node.links s.back = ∅)
    (honly : node.links s = {m}) :
    ∃ g₁ g', g.modify m (fun other => other.removeLink s.back n) = .ok g₁ ∧
      g₁.modify n (fun node => .ok (node.removeLinks s)) = .ok g' ∧
      Isolates n (fun _ _ _ => False) g g' := by
  have hlink : g.HasLink s n m := (hasLink_iff hlookup s m).mpr (by simp [honly])
  obtain ⟨other, hother, hmem⟩ := hsymm s n m hlink
  -- nobody but `m` has a link to `n`
  have hto : ∀ t x, g.HasLink t x n → x = m ∧ t = s.back := by
    intro t x h
    have hfrom := (hasLink_iff hlookup t.back x).mp (hsymm t x n h)
    rcases s.eq_or_back t with rfl | rfl
    · simp [hback] at hfrom
    · rw [Side.back_back, honly, Finset.mem_singleton] at hfrom
      exact ⟨hfrom, rfl⟩
  have hnm : n ≠ m := by
    rintro rfl
    exact s.back_ne (hto s n hlink).2.symm
  obtain ⟨other', hremove, hbare, hlinks⟩ := removeLink_spec hmem
  have hlookup₁ : (g.put m other').nodes.lookup n = some node := by
    rw [put_lookup, if_neg hnm, hlookup]
  refine ⟨_, _, modify_ok hother hremove, modify_ok hlookup₁ rfl, ?_, ?_⟩
  · intro x
    rw [put_lookup, put_lookup]
    by_cases hx : x = n
    · rw [if_pos hx, hx, hlookup]
      simp
    · rw [if_neg hx]
      by_cases hxm : x = m
      · rw [if_pos hxm, hxm, hother]
        simp [hbare]
      · rw [if_neg hxm]
  · intro t x y
    rw [put_hasLink, put_hasLink, or_false]
    by_cases hx : x = n
    · have hnone : y ∉ (node.removeLinks s).links t := by
        rw [removeLinks_links]
        rcases s.eq_or_back t with rfl | rfl <;> simp [hback]
      simp [hx, hnone]
    · rw [if_neg hx]
      by_cases hat : x = m ∧ t = s.back
      · obtain ⟨rfl, rfl⟩ := hat
        simp [hlinks, hasLink_iff hother, hx, and_comm]
      · have hold : (if x = m then y ∈ other'.links t else g.HasLink t x y) ↔ g.HasLink t x y := by
          split
          next hxm =>
            subst hxm
            rw [hlinks, if_neg fun ht => hat ⟨rfl, ht⟩, hasLink_iff hother]
          next => rfl
        rw [hold]
        constructor
        · intro hy
          refine ⟨hy, hx, ?_⟩
          rintro rfl
          exact hat (hto t x hy)
        · exact fun h => h.1

/-- `n` has one parent `p` and one child `c`, and is linked to nobody else. -/
structure Between (g : Graph Fun) (n p c : Fun) : Prop where
  into : ∀ s x, g.HasLink s x n ↔ (s = .child ∧ x = p) ∨ (s = .parent ∧ x = c)
  outOf : ∀ s y, g.HasLink s n y ↔ (s = .child ∧ y = c) ∨ (s = .parent ∧ y = p)
  parent_ne : n ≠ p
  child_ne : n ≠ c

theorem between_of_links {g : Graph Fun} {n p c : Fun} {node : Node Fun}
    (hsymm : ∀ s n m, g.HasLink s n m → g.HasLink s.back m n)
    (hlookup : g.nodes.lookup n = some node) (hparents : node.parents = {p})
    (hchildren : node.children = {c}) (hpc : p ≠ c) : Between g n p c := by
  have houtOf : ∀ s y, g.HasLink s n y ↔ (s = .child ∧ y = c) ∨ (s = .parent ∧ y = p) := by
    intro s y
    rw [hasLink_iff hlookup]
    cases s <;> simp [Node.links, hparents, hchildren]
  have hinto : ∀ s x, g.HasLink s x n ↔ (s = .child ∧ x = p) ∨ (s = .parent ∧ x = c) := by
    intro s x
    have hback : g.HasLink s x n ↔ g.HasLink s.back n x := by
      constructor
      · exact hsymm s x n
      · intro h
        rw [← s.back_back]
        exact hsymm s.back n x h
    rw [hback, houtOf]
    cases s <;> simp [Side.back]
  refine ⟨hinto, houtOf, ?_, ?_⟩
  · rintro rfl
    rcases (hinto .parent n).mp ((houtOf .parent n).mpr (.inr ⟨rfl, rfl⟩)) with h | h
    · cases h.1
    · exact hpc h.2
  · rintro rfl
    rcases (hinto .child n).mp ((houtOf .child n).mpr (.inl ⟨rfl, rfl⟩)) with h | h
    · exact hpc h.2.symm
    · cases h.1

/-- The link past a node. -/
def Past (p c : Fun) (s : Side) (x y : Fun) : Prop :=
  (s = .child ∧ x = p ∧ y = c) ∨ (s = .parent ∧ x = c ∧ y = p)

/-- The graph when the links of `p` and `c` have been moved past `n`, one
after the other. -/
def Graph.cutOut (g : Graph Fun) (n p c : Fun) (node parent child : Node Fun) : Graph Fun :=
  let parent₁ : Node Fun := { parent with children := parent.children.erase n }
  let child₁ : Node Fun := { child with parents := child.parents.erase n }
  let g := (g.put p parent₁).put c child₁
  let g := (g.put p (parent₁.addChild c)).put c (child₁.addParent p)
  (g.put n node.removeParents).put n node.removeParents.removeChildren

theorem cutOut_lookup (g : Graph Fun) (n p c : Fun) (node parent child : Node Fun) (x : Fun) :
    (g.cutOut n p c node parent child).nodes.lookup x =
      if x = n then some node.bare
      else if x = c then some { child with parents := insert p (child.parents.erase n) }
      else if x = p then some { parent with children := insert c (parent.children.erase n) }
      else g.nodes.lookup x := by
  simp only [Graph.cutOut, put_lookup]
  by_cases hx : x = n
  · rw [if_pos hx, if_pos hx]
    rfl
  · by_cases hxc : x = c
    · simp only [if_neg hx, if_pos hxc]
      rfl
    · by_cases hxp : x = p
      · simp only [if_neg hx, if_neg hxc, if_pos hxp]
        rfl
      · simp only [hx, hxc, hxp, if_false]

theorem trimIntermediate_cutOut {t : TrimState Fun} {n p c : Fun} {node parent child : Node Fun}
    (hlookup : t.graph.nodes.lookup n = some node) (hname : node.name = n)
    (hparents : node.parents = {p}) (hchildren : node.children = {c}) (hpc : p ≠ c)
    (hnp : n ≠ p) (hnc : n ≠ c)
    (hparent : t.graph.nodes.lookup p = some parent) (hparentMem : n ∈ parent.children)
    (hchild : t.graph.nodes.lookup c = some child) (hchildMem : n ∈ child.parents) :
    trimIntermediate t n
      = .ok ⟨t.graph.cutOut n p c node parent child, t.remove.insert n⟩ := by
  let parent₁ : Node Fun := { parent with children := parent.children.erase n }
  let child₁ : Node Fun := { child with parents := child.parents.erase n }
  let g₂ := (t.graph.put p parent₁).put c child₁
  let g₄ := (g₂.put p (parent₁.addChild c)).put c (child₁.addParent p)
  let g₆ := (g₄.put n node.removeParents).put n node.removeParents.removeChildren
  have h₁ : t.graph.modify p (fun parent => parent.removeChild node.name)
      = .ok (t.graph.put p parent₁) :=
    modify_ok hparent (by rw [hname]; exact if_pos hparentMem)
  have h₂ : (t.graph.put p parent₁).modify c (fun child => child.removeParent node.name) = .ok g₂ :=
    modify_ok (by rw [put_lookup, if_neg hpc.symm, hchild])
      (by rw [hname]; exact if_pos hchildMem)
  have h₃ : g₂.modify p (fun parent => .ok (parent.addChild c))
      = .ok (g₂.put p (parent₁.addChild c)) :=
    modify_ok (by rw [put_lookup, if_neg hpc, put_lookup, if_pos rfl]) rfl
  have h₄ : (g₂.put p (parent₁.addChild c)).modify c (fun child => .ok (child.addParent p))
      = .ok g₄ :=
    modify_ok (by rw [put_lookup, if_neg hpc.symm, put_lookup, if_pos rfl]) rfl
  have hnode : g₄.nodes.lookup n = some node := by
    simp only [g₄, g₂, put_lookup, hnp, hnc, if_false, hlookup]
  have h₅ : g₄.modify n (fun node => .ok node.removeParents) = .ok (g₄.put n node.removeParents) :=
    modify_ok hnode rfl
  have h₆ : (g₄.put n node.removeParents).modify n (fun node => .ok node.removeChildren) = .ok g₆ :=
    modify_ok (by rw [put_lookup, if_pos rfl]) rfl
  unfold trimIntermediate
  rw [get_ok hlookup]
  simp only [bind, Except.bind, only_eq_some.mpr hparents, only_eq_some.mpr hchildren, if_neg hpc,
    get_ok hparent, get_ok hchild, h₁, h₂, h₃, h₄, h₅, h₆]
  rw [hname]
  rfl

theorem cutOut_isolates {g : Graph Fun} {n p c : Fun} {node parent child : Node Fun}
    (hbetween : Between g n p c) (hlookup : g.nodes.lookup n = some node) (hpc : p ≠ c)
    (hparent : g.nodes.lookup p = some parent) (hchild : g.nodes.lookup c = some child) :
    Isolates n (Past p c) g (g.cutOut n p c node parent child) := by
  refine ⟨fun x => ?_, fun s x y => ?_⟩
  · rw [cutOut_lookup]
    by_cases hx : x = n
    · rw [if_pos hx, hx, hlookup]
      rfl
    · by_cases hxc : x = c
      · rw [if_neg hx, if_pos hxc, hxc, hchild]
        rfl
      · by_cases hxp : x = p
        · rw [if_neg hx, if_neg hxc, if_pos hxp, hxp, hparent]
          rfl
        · rw [if_neg hx, if_neg hxc, if_neg hxp]
  · -- the links of `n` are gone, `p` and `c` have one link more, all others keep theirs
    have hx' := cutOut_lookup g n p c node parent child x
    by_cases hx : x = n
    · rw [if_pos hx] at hx'
      subst hx
      rw [hasLink_iff hx']
      cases s <;> simp [Past, hbetween.parent_ne, hbetween.child_ne, Node.links, Node.bare]
    · rw [if_neg hx] at hx'
      by_cases hxc : x = c
      · rw [if_pos hxc] at hx'
        subst hxc
        rw [hasLink_iff hx', hasLink_iff hchild]
        cases s with
        | child =>
          have hkeep : y ∈ child.children → y ≠ n := by
            rintro hy rfl
            rcases (hbetween.into .child x).mp ((hasLink_iff hchild .child y).mpr hy) with h | h
            · exact hpc h.2.symm
            · cases h.1
          simp only [Past, hpc.symm, Node.links, reduceCtorEq, false_and, and_false, or_false, ne_eq]
          exact ⟨fun hy => ⟨hy, hx, hkeep hy⟩, fun h => h.1⟩
        | parent =>
          simp only [Past, Node.links, reduceCtorEq, false_and, true_and, false_or, ne_eq,
            Finset.mem_insert, Finset.mem_erase]
          tauto
      · rw [if_neg hxc] at hx'
        by_cases hxp : x = p
        · rw [if_pos hxp] at hx'
          subst hxp
          rw [hasLink_iff hx', hasLink_iff hparent]
          cases s with
          | child =>
            simp only [Past, Node.links, reduceCtorEq, false_and, true_and, or_false, ne_eq,
              Finset.mem_insert, Finset.mem_erase]
            tauto
          | parent =>
            have hkeep : y ∈ parent.parents → y ≠ n := by
              rintro hy rfl
              rcases (hbetween.into .parent x).mp ((hasLink_iff hparent .parent y).mpr hy) with h | h
              · cases h.1
              · exact hxc h.2
            simp only [Past, Node.links, reduceCtorEq, false_and, and_false, or_false, ne_eq, hxc]
            exact ⟨fun hy => ⟨hy, hx, hkeep hy⟩, fun h => h.1⟩
        · rw [if_neg hxp] at hx'
          have hkeep : g.HasLink s x y → y ≠ n := by
            rintro hy rfl
            rcases (hbetween.into s x).mp hy with h | h
            · exact hxp h.2
            · exact hxc h.2
          rw [Graph.HasLink, hx']
          simp only [hxc, hxp, Past, and_false, false_and, or_false, ne_eq]
          exact ⟨fun hy => ⟨hy, hx, hkeep hy⟩, fun h => h.1⟩

/-- **A node between two others is cut out.** -/
theorem trimIntermediate_cuts {t : TrimState Fun} {n p c : Fun} {node : Node Fun}
    (hsymm : ∀ s n m, t.graph.HasLink s n m → t.graph.HasLink s.back m n)
    (hlookup : t.graph.nodes.lookup n = some node) (hname : node.name = n)
    (hparents : node.parents = {p}) (hchildren : node.children = {c}) (hpc : p ≠ c) :
    ∃ g', trimIntermediate t n = .ok ⟨g', t.remove.insert n⟩ ∧
      Isolates n (Past p c) t.graph g' := by
  have hparent : t.graph.HasLink .parent n p :=
    (hasLink_iff hlookup .parent p).mpr (by simp [Node.links, hparents])
  have hchild : t.graph.HasLink .child n c :=
    (hasLink_iff hlookup .child c).mpr (by simp [Node.links, hchildren])
  obtain ⟨parent, hparentLookup, hparentMem⟩ := hsymm .parent n p hparent
  obtain ⟨child, hchildLookup, hchildMem⟩ := hsymm .child n c hchild
  have hbetween := between_of_links hsymm hlookup hparents hchildren hpc
  exact ⟨_, trimIntermediate_cutOut hlookup hname hparents hchildren hpc hbetween.parent_ne
    hbetween.child_ne hparentLookup hparentMem hchildLookup hchildMem,
    cutOut_isolates hbetween hlookup hpc hparentLookup hchildLookup⟩

/-! ## A pass over the nodes -/

/-- What holds of the graph while `g₀` is trimmed. -/
structure Trimmed (g₀ : Graph Fun) (t : TrimState Fun) : Prop where
  bare : ∀ n, (t.graph.nodes.lookup n).map Node.bare = (g₀.nodes.lookup n).map Node.bare
  symm : ∀ s n m, t.graph.HasLink s n m → t.graph.HasLink s.back m n
  nodup : t.remove.Nodup
  present : ∀ n ∈ t.remove, n ∈ g₀.nodes.keys
  cut : ∀ n ∈ t.remove, ∀ s m, ¬ t.graph.HasLink s n m

theorem lookup_isSome {g : Graph Fun} {n : Fun} :
    (g.nodes.lookup n).isSome ↔ n ∈ g.nodes.keys := by
  rw [AList.lookup_isSome, AList.mem_keys]

/-- A node of `g₀` is still there. -/
theorem Trimmed.node {g₀ : Graph Fun} {t : TrimState Fun} (h : Trimmed g₀ t) {n : Fun} :
    n ∈ g₀.nodes.keys ↔ ∃ node, t.graph.nodes.lookup n = some node := by
  rw [← lookup_isSome, ← Option.isSome_iff_exists, ← Option.isSome_map (f := Node.bare),
    ← h.bare n, Option.isSome_map]

theorem Trimmed.start {g₀ : Graph Fun} (hsymm : ∀ s n m, g₀.HasLink s n m → g₀.HasLink s.back m n) :
    Trimmed g₀ ⟨g₀, []⟩ where
  bare _ := rfl
  symm := hsymm
  nodup := List.nodup_nil
  present _ hn := absurd hn List.not_mem_nil
  cut _ hn := absurd hn List.not_mem_nil

/-- **A node is cut off and marked.** -/
theorem Trimmed.isolate {g₀ g' : Graph Fun} {t : TrimState Fun} {n : Fun}
    {new : Side → Fun → Fun → Prop} (h : Trimmed g₀ t) (hn : n ∈ g₀.nodes.keys)
    (hcut : Isolates n new t.graph g')
    (hnew : ∀ s x y, new s x y → x ≠ n ∧ x ∉ t.remove ∧ new s.back y x) :
    Trimmed g₀ ⟨g', t.remove.insert n⟩ where
  bare x := (hcut.bare x).trans (h.bare x)
  symm s x y hxy := by
    rcases (hcut.links s x y).mp hxy with ⟨hold, hx, hy⟩ | hadded
    · exact (hcut.links s.back y x).mpr (.inl ⟨h.symm s x y hold, hy, hx⟩)
    · exact (hcut.links s.back y x).mpr (.inr (hnew s x y hadded).2.2)
  nodup := h.nodup.insert
  present x hx := by
    rcases List.mem_insert_iff.mp hx with rfl | hmem
    · exact hn
    · exact h.present x hmem
  cut x hx s y hxy := by
    rcases (hcut.links s x y).mp hxy with ⟨hold, hxn, -⟩ | hadded
    · exact h.cut x ((List.mem_insert_iff.mp hx).resolve_left hxn) s y hold
    · exact (hnew s x y hadded).2.1
        ((List.mem_insert_iff.mp hx).resolve_left (hnew s x y hadded).1)

theorem Trimmed.name {g₀ : Graph Fun} {t : TrimState Fun} (h : Trimmed g₀ t)
    (hname : ∀ n node, g₀.nodes.lookup n = some node → node.name = n) {n : Fun} {node : Node Fun}
    (hlookup : t.graph.nodes.lookup n = some node) : node.name = n := by
  have hbare := h.bare n
  rw [hlookup, Option.map_some, eq_comm, Option.map_eq_some_iff] at hbare
  obtain ⟨node₀, hlookup₀, heq⟩ := hbare
  have hsame : node₀.bare.name = node.bare.name := congrArg Node.name heq
  exact hsame.symm.trans (hname n node₀ hlookup₀)

theorem Trimmed.length_le {g₀ : Graph Fun} {t : TrimState Fun} (h : Trimmed g₀ t) :
    t.remove.length ≤ g₀.nodes.keys.length :=
  (List.subperm_of_subset h.nodup h.present).length_le

/-- **A loop of `trim_leaf` ends**: every round marks one more node. -/
theorem trimEnd_ends {g₀ : Graph Fun}
    (hname : ∀ n node, g₀.nodes.lookup n = some node → node.name = n) (s : Side)
    {t : TrimState Fun} (h : Trimmed g₀ t) {n : Fun} (hn : n ∈ g₀.nodes.keys) :
    ∃ last, (∀ fuel, g₀.nodes.keys.length < fuel + t.remove.length →
        trimEnd s fuel t n = .ok last) ∧
      Trimmed g₀ last.1 ∧ last.2 ∈ g₀.nodes.keys := by
  induction hk : g₀.nodes.keys.length - t.remove.length using Nat.strong_induction_on
    generalizing t n with
  | _ k ih =>
    obtain ⟨node, hlookup⟩ := h.node.mp hn
    have hround : ∀ fuel, g₀.nodes.keys.length < fuel + t.remove.length → ∃ f, fuel = f + 1 := by
      intro fuel hfuel
      have := h.length_le
      exact ⟨fuel - 1, by omega⟩
    by_cases hend : node.links s.back = ∅
    · cases honly : only (node.links s) with
      | none =>
        refine ⟨(t, n), ?_, h, hn⟩
        intro fuel hfuel
        obtain ⟨f, rfl⟩ := hround fuel hfuel
        rw [trimEnd, get_ok hlookup]
        simp only [bind, Except.bind, if_pos hend, honly]
        rfl
      | some m =>
        have hlinks : node.links s = {m} := only_eq_some.mp honly
        have hlink : t.graph.HasLink s n m := (hasLink_iff hlookup s m).mpr (by simp [hlinks])
        obtain ⟨g₁, g', hmodify, hremove, hcut⟩ := cut_spec h.symm hlookup hend hlinks
        have hstep := h.isolate hn hcut fun _ _ _ hnone => hnone.elim
        have hm : m ∈ g₀.nodes.keys := by
          obtain ⟨other, hother, -⟩ := h.symm s n m hlink
          exact h.node.mpr ⟨other, hother⟩
        have hnew : n ∉ t.remove := fun hmem => h.cut n hmem s m hlink
        have hlength : (t.remove.insert n).length = t.remove.length + 1 := by
          rw [List.insert_of_not_mem hnew]
          rfl
        have hle : (t.remove.insert n).length ≤ g₀.nodes.keys.length := hstep.length_le
        obtain ⟨last, hrun, hlast⟩ := ih _ (by rw [hlength] at hle ⊢; omega) hstep hm rfl
        refine ⟨last, ?_, hlast⟩
        intro fuel hfuel
        obtain ⟨f, rfl⟩ := hround fuel hfuel
        rw [trimEnd, get_ok hlookup]
        simp only [bind, Except.bind, if_pos hend, honly, h.name hname hlookup, hmodify, hremove]
        exact hrun f (by rw [hlength]; omega)
    · refine ⟨(t, n), ?_, h, hn⟩
      intro fuel hfuel
      obtain ⟨f, rfl⟩ := hround fuel hfuel
      rw [trimEnd, get_ok hlookup]
      simp only [bind, Except.bind, if_neg hend]
      rfl

/-- **`trim_leaf`.** -/
theorem trimLeaf_ends {g₀ : Graph Fun}
    (hname : ∀ n node, g₀.nodes.lookup n = some node → node.name = n) {t : TrimState Fun}
    (h : Trimmed g₀ t) {n : Fun} (hn : n ∈ g₀.nodes.keys) :
    ∃ t', (∀ fuel, g₀.nodes.keys.length < fuel → trimLeaf fuel t n = .ok t') ∧ Trimmed g₀ t' := by
  obtain ⟨top, htop, htrimmed, hmem⟩ := trimEnd_ends hname .child h hn
  obtain ⟨bottom, hbottom, hlast, -⟩ := trimEnd_ends hname .parent htrimmed hmem
  refine ⟨bottom.1, ?_, hlast⟩
  intro fuel hfuel
  unfold trimLeaf
  rw [htop fuel (by omega)]
  show (trimEnd .parent fuel top.1 top.2).bind _ = _
  rw [hbottom fuel (by omega)]
  rfl

/-- **`trim_intermediate`** keeps the reachability of the other nodes. -/
theorem trimIntermediate_ends {g₀ : Graph Fun}
    (hname : ∀ n node, g₀.nodes.lookup n = some node → node.name = n) {t : TrimState Fun}
    (h : Trimmed g₀ t) {n : Fun} (hn : n ∈ g₀.nodes.keys) :
    ∃ t', trimIntermediate t n = .ok t' ∧ Trimmed g₀ t' ∧ t.remove ⊆ t'.remove ∧
      ∀ x y, x ∉ t'.remove → y ∉ t'.remove →
        (TransGen (t'.graph.HasLink .child) x y ↔ TransGen (t.graph.HasLink .child) x y) := by
  obtain ⟨node, hlookup⟩ := h.node.mp hn
  have hstay : ∀ {r : Except (TrimError Fun) (TrimState Fun)}, trimIntermediate t n = r → r = .ok t →
      ∃ t', trimIntermediate t n = .ok t' ∧ Trimmed g₀ t' ∧ t.remove ⊆ t'.remove ∧
        ∀ x y, x ∉ t'.remove → y ∉ t'.remove →
          (TransGen (t'.graph.HasLink .child) x y ↔ TransGen (t.graph.HasLink .child) x y) :=
    fun hr hok => ⟨t, hr.trans hok, h, List.Subset.refl _, fun _ _ _ _ => Iff.rfl⟩
  have hunfold := trimIntermediate.eq_def t n
  rw [get_ok hlookup] at hunfold
  simp only [bind, Except.bind] at hunfold
  cases hparents : only node.parents with
  | none => exact hstay hunfold (by rw [hparents]; rfl)
  | some p =>
    cases hchildren : only node.children with
    | none => exact hstay hunfold (by rw [hparents, hchildren]; rfl)
    | some c =>
      by_cases hpc : p = c
      · refine hstay hunfold ?_
        rw [hparents, hchildren]
        exact if_pos hpc
      · have hp := only_eq_some.mp hparents
        have hc := only_eq_some.mp hchildren
        have hbetween := between_of_links h.symm hlookup hp hc hpc
        obtain ⟨g', hok, hcut⟩ :=
          trimIntermediate_cuts h.symm hlookup (h.name hname hlookup) hp hc hpc
        have hneighbour : ∀ s x, t.graph.HasLink s x n → x ∉ t.remove :=
          fun s x hlink hmem => h.cut x hmem s n hlink
        have hpKeep := hneighbour .child p ((hbetween.into .child p).mpr (.inl ⟨rfl, rfl⟩))
        have hcKeep := hneighbour .parent c ((hbetween.into .parent c).mpr (.inr ⟨rfl, rfl⟩))
        have hnew : ∀ s x y, Past p c s x y → x ≠ n ∧ x ∉ t.remove ∧ Past p c s.back y x := by
          rintro s x y (⟨rfl, rfl, rfl⟩ | ⟨rfl, rfl, rfl⟩)
          · exact ⟨hbetween.parent_ne.symm, hpKeep, .inr ⟨rfl, rfl, rfl⟩⟩
          · exact ⟨hbetween.child_ne.symm, hcKeep, .inl ⟨rfl, rfl, rfl⟩⟩
        refine ⟨_, hok, h.isolate hn hcut hnew, fun x hx => List.mem_insert_of_mem hx, ?_⟩
        intro x y hx hy
        have hbypass : g'.HasLink .child = Bypass (t.graph.HasLink .child) p n c := by
          funext x y
          rw [eq_iff_iff, hcut.links .child x y]
          simp [Past, Bypass]
        have hin : ∀ x, t.graph.HasLink .child x n ↔ x = p := by
          intro x
          rw [hbetween.into]
          simp
        have hout : ∀ y, t.graph.HasLink .child n y ↔ y = c := by
          intro y
          rw [hbetween.outOf]
          simp
        have hxn : x ≠ n := fun he => hx (he ▸ List.mem_insert_self)
        have hyn : y ≠ n := fun he => hy (he ▸ List.mem_insert_self)
        show TransGen (g'.HasLink .child) x y ↔ _
        rw [hbypass]
        exact transGen_bypass hin hout hbetween.parent_ne.symm hbetween.child_ne.symm hxn hyn

omit [DecidableEq Fun] in
/-- A loop whose rounds all end, and keep an invariant. -/
theorem foldlM_ends {ι σ ε : Type*} {P : ι → Prop} {Inv : σ → Prop} {f : ι → σ → Fun → Except ε σ}
    {l : List Fun}
    (hround : ∀ s, ∀ a ∈ l, Inv s → ∃ s', (∀ i, P i → f i s a = .ok s') ∧ Inv s') {s : σ}
    (hs : Inv s) : ∃ s', (∀ i, P i → l.foldlM (f i) s = .ok s') ∧ Inv s' := by
  induction l generalizing s with
  | nil => exact ⟨s, fun _ _ => rfl, hs⟩
  | cons a l ih =>
    obtain ⟨s₁, hfirst, hs₁⟩ := hround s a (List.mem_cons_self ..) hs
    obtain ⟨s', hrest, hs'⟩ := ih (fun s b hb => hround s b (List.mem_cons_of_mem _ hb)) hs₁
    refine ⟨s', ?_, hs'⟩
    intro i hi
    rw [List.foldlM_cons, hfirst i hi]
    exact hrest i hi

/-- The marked nodes are deleted. -/
theorem delNodes_spec {g : Graph Fun} {l : List Fun} (hnodup : l.Nodup)
    (hmem : ∀ n ∈ l, n ∈ g.nodes) :
    ∃ g', l.foldlM Graph.delNode g = .ok g' ∧
      ∀ x, g'.nodes.lookup x = if x ∈ l then none else g.nodes.lookup x := by
  induction l generalizing g with
  | nil => exact ⟨g, rfl, fun x => by simp⟩
  | cons n l ih =>
    obtain ⟨hn, hl⟩ := List.nodup_cons.mp hnodup
    have hdel : g.delNode n = .ok { g with nodes := g.nodes.erase n } :=
      if_pos (hmem n (List.mem_cons_self ..))
    have hrest : ∀ x ∈ l, x ∈ g.nodes.erase n := by
      intro x hx
      have hxn : x ≠ n := by
        rintro rfl
        exact hn hx
      exact AList.mem_erase.mpr ⟨hxn, hmem x (List.mem_cons_of_mem _ hx)⟩
    obtain ⟨g', hrun, hlookup⟩ := ih (g := { g with nodes := g.nodes.erase n }) hl hrest
    refine ⟨g', ?_, ?_⟩
    · rw [List.foldlM_cons, hdel]
      exact hrun
    · intro x
      rw [hlookup]
      by_cases hx : x = n
      · subst hx
        simp
      · simp [hx, AList.lookup_erase_ne hx]

/-! ## The graph of a run -/

/-- An update with a negative size does not touch the nodes. -/
theorem accounts_ignored {updates : List (Update Fun)} {g : Graph Fun} (h : Accounts updates g)
    {u : Update Fun} (hsizes : u.sizes.sum < 0) :
    Accounts updates (g.update u.trace u.sizes u.address) := by
  have hsum : (g.stats.addSizes u.sizes).2 = u.sizes.sum := TotalStats.addSizes_sum ..
  have hupdate : g.update u.trace u.sizes u.address
      = { g with stats := (g.stats.addSizes u.sizes).1 } := by
    simp only [Graph.update, hsum, if_pos hsizes]
  rw [hupdate]
  exact ⟨h.traces, h.present, h.name, h.size, h.count, h.children, h.parents⟩

/-- Any run accounts for the updates that it does not ignore. -/
theorem accounts_run_counted (overhead : Int) (updates : List (Update Fun)) :
    Accounts (updates.filter fun u => 0 ≤ u.sizes.sum)
      ((Graph.init overhead : Graph Fun).run updates) := by
  induction updates using List.reverseRecOn with
  | nil => exact accounts_init overhead
  | append_singleton updates u ih =>
    rw [Graph.run, List.foldl_append, List.filter_append]
    by_cases hsizes : 0 ≤ u.sizes.sum
    · rw [List.filter_cons_of_pos (by simpa using hsizes), List.filter_nil]
      exact accounts_update ih hsizes
    · rw [List.filter_cons_of_neg (by simpa using hsizes), List.filter_nil, List.append_nil]
      exact accounts_ignored ih (by omega)

/-- A name without a node has no links. -/
theorem hasLink_node {g : Graph Fun} {s : Side} {n m : Fun} :
    g.HasLink s n m ↔ m ∈ (g.node n).links s := by
  unfold Graph.HasLink Graph.node
  cases g.nodes.lookup n with
  | none => cases s <;> simp [Node.blank, Node.links]
  | some node => simp

theorem Accounts.symm {updates : List (Update Fun)} {g : Graph Fun} (h : Accounts updates g)
    (s : Side) (n m : Fun) (hlink : g.HasLink s n m) : g.HasLink s.back m n := by
  rw [hasLink_node] at hlink ⊢
  cases s with
  | child => exact (h.parents m n).mpr ((h.children n m).mp hlink)
  | parent => exact (h.children m n).mpr ((h.parents n m).mp hlink)

theorem Accounts.nodeName {updates : List (Update Fun)} {g : Graph Fun} (h : Accounts updates g)
    (n : Fun) (node : Node Fun) (hlookup : g.nodes.lookup n = some node) : node.name = n := by
  have hname := h.name n
  rwa [Graph.node, hlookup, Option.getD_some] at hname

/-! ## Trimming -/

/-- What the two passes leave behind. -/
theorem passes_end {g₀ : Graph Fun}
    (hname : ∀ n node, g₀.nodes.lookup n = some node → node.name = n)
    (hsymm : ∀ s n m, g₀.HasLink s n m → g₀.HasLink s.back m n) (options : TrimOptions)
    {order : List Fun} (horder : ∀ n ∈ order, n ∈ g₀.nodes.keys) :
    ∃ t t', (∀ fuel, g₀.nodes.keys.length < fuel →
        options.leafPass fuel order ⟨g₀, []⟩ = .ok t) ∧
      options.intermediatePass order t = .ok t' ∧
      Trimmed g₀ t' ∧
      (options.leafs = true → ∀ x y, x ∉ t'.remove → y ∉ t'.remove →
        (TransGen (t'.graph.HasLink .child) x y ↔ TransGen (g₀.HasLink .child) x y)) := by
  have hstart : Trimmed g₀ ⟨g₀, []⟩ := .start hsymm
  have hleafs : ∃ t, (∀ fuel, g₀.nodes.keys.length < fuel →
      options.leafPass fuel order ⟨g₀, []⟩ = .ok t) ∧
      Trimmed g₀ t ∧ (options.leafs = true → t = ⟨g₀, []⟩) := by
    by_cases hopt : options.leafs = true
    · exact ⟨_, fun _ _ => if_pos hopt, hstart, fun _ => rfl⟩
    · obtain ⟨t, hrun, htrimmed⟩ := foldlM_ends (P := fun fuel => g₀.nodes.keys.length < fuel)
        (fun t n hn ht => trimLeaf_ends hname ht (horder n hn)) hstart
      exact ⟨t, fun fuel hfuel => (if_neg hopt).trans (hrun fuel hfuel), htrimmed,
        fun h => absurd h hopt⟩
  obtain ⟨t, hrun, htrimmed, hleft⟩ := hleafs
  have hreach : options.leafs = true → ∀ x y, x ∉ t.remove → y ∉ t.remove →
      (TransGen (t.graph.HasLink .child) x y ↔ TransGen (g₀.HasLink .child) x y) := by
    intro hopt x y _ _
    rw [hleft hopt]
  by_cases hopt : options.intermediate = true
  · exact ⟨t, t, hrun, if_pos hopt, htrimmed, hreach⟩
  · have hround : ∀ (t : TrimState Fun), ∀ n ∈ order,
        (Trimmed g₀ t ∧ (options.leafs = true → ∀ x y, x ∉ t.remove → y ∉ t.remove →
          (TransGen (t.graph.HasLink .child) x y ↔ TransGen (g₀.HasLink .child) x y))) →
        ∃ t', (∀ _ : Unit, True → trimIntermediate t n = .ok t') ∧ Trimmed g₀ t' ∧
          (options.leafs = true → ∀ x y, x ∉ t'.remove → y ∉ t'.remove →
            (TransGen (t'.graph.HasLink .child) x y ↔ TransGen (g₀.HasLink .child) x y)) := by
      rintro t n hn ⟨ht, hbefore⟩
      obtain ⟨t', hok, ht', hsub, hstep⟩ := trimIntermediate_ends hname ht (horder n hn)
      refine ⟨t', fun _ _ => hok, ht', ?_⟩
      intro hleaf x y hx hy
      exact (hstep x y hx hy).trans
        (hbefore hleaf x y (fun h => hx (hsub h)) (fun h => hy (hsub h)))
    obtain ⟨t', hpass, ht', hafter⟩ := foldlM_ends hround ⟨htrimmed, hreach⟩
    exact ⟨t, t', hrun, (if_neg hopt).trans (hpass () trivial), ht', hafter⟩

/-- Deleting the marked nodes touches no link. -/
theorem Trimmed.deleted {g₀ g' : Graph Fun} {t : TrimState Fun} (h : Trimmed g₀ t)
    {l : List Fun} (hl : l.Perm t.remove)
    (hdel : ∀ x, g'.nodes.lookup x = if x ∈ l then none else t.graph.nodes.lookup x) (s : Side)
    (x y : Fun) : g'.HasLink s x y ↔ t.graph.HasLink s x y := by
  unfold Graph.HasLink
  rw [hdel]
  by_cases hx : x ∈ l
  · have hcut : ¬ t.graph.HasLink s x y := h.cut x (hl.mem_iff.mp hx) s y
    rw [if_pos hx]
    constructor
    · rintro ⟨node, hlookup, -⟩
      cases hlookup
    · exact fun hlink => absurd hlink hcut
  · rw [if_neg hx]

/-- `x` is reachable from `y` along child links. -/
def Graph.Reaches (g : Graph Fun) (y x : Fun) : Prop := TransGen (fun b a => g.IsChild a b) y x

/-- **Call tree trimming.** -/
theorem graphTrim_keeps (overhead : Int) (updates : List (Update Fun)) (options : TrimOptions)
    {iter : List Fun → List Fun} (hiter : ∀ l, (iter l).Perm l) :
    let g := (Graph.init overhead : Graph Fun).run updates
    ∃ g', (∀ fuel, g.nodes.keys.length < fuel → g.trim fuel iter options = .ok g') ∧
      (∀ a b, g'.IsChild a b ↔ g'.IsParent b a) ∧
      (∀ a b, g'.IsChild a b → a ∈ g'.nodes ∧ b ∈ g'.nodes) ∧
      (∀ n node', g'.nodes.lookup n = some node' → ∃ node, g.nodes.lookup n = some node ∧
        node'.size = node.size ∧ node'.count = node.count) ∧
      (options.leafs = true → ∀ a b, a ∈ g'.nodes → b ∈ g'.nodes →
        (g'.Reaches a b ↔ g.Reaches a b)) := by
  intro g
  have haccounts := accounts_run_counted overhead updates
  have horder : ∀ n ∈ iter g.nodes.keys, n ∈ g.nodes.keys := fun n hn => (hiter _).mem_iff.mp hn
  obtain ⟨t, t', hleafs, hintermediate, ht', hreach⟩ := passes_end haccounts.nodeName
    haccounts.symm options horder
  have hpresent : ∀ n ∈ iter t'.remove, n ∈ t'.graph.nodes := by
    intro n hn
    obtain ⟨node, hlookup⟩ := ht'.node.mp (ht'.present n ((hiter _).mem_iff.mp hn))
    exact AList.lookup_isSome.mp (by rw [hlookup]; rfl)
  obtain ⟨g', hrun, hdel⟩ := delNodes_spec ((hiter _).nodup_iff.mpr ht'.nodup) hpresent
  have hlinks := ht'.deleted (hiter _) hdel
  have hkept : ∀ n, n ∈ g'.nodes → n ∉ t'.remove := by
    intro n hn hremove
    have hsome := AList.lookup_isSome.mpr hn
    rw [hdel, if_pos ((hiter _).mem_iff.mpr hremove)] at hsome
    cases hsome
  have hsymm : ∀ a b, g'.IsChild a b ↔ g'.IsParent b a := by
    intro a b
    show g'.HasLink .child b a ↔ g'.HasLink .parent a b
    rw [hlinks, hlinks]
    exact ⟨ht'.symm .child b a, ht'.symm .parent a b⟩
  refine ⟨g', ?_, hsymm, ?_, ?_, ?_⟩
  · intro fuel hfuel
    unfold Graph.trim
    show (options.leafPass fuel (iter g.nodes.keys) ⟨g, []⟩).bind _ = _
    rw [hleafs fuel hfuel]
    show (options.intermediatePass (iter g.nodes.keys) t).bind _ = _
    rw [hintermediate]
    exact hrun
  · intro a b hab
    obtain ⟨child, hchild, -⟩ := (hsymm a b).mp hab
    obtain ⟨node, hlookup, -⟩ := hab
    exact ⟨AList.lookup_isSome.mp (by rw [hchild]; rfl), AList.lookup_isSome.mp (by rw [hlookup]; rfl)⟩
  · intro n node' hlookup
    have hn : n ∉ iter t'.remove := fun hmem =>
      hkept n (AList.lookup_isSome.mp (by rw [hlookup]; rfl)) ((hiter _).mem_iff.mp hmem)
    rw [hdel, if_neg hn] at hlookup
    have hbare := ht'.bare n
    rw [hlookup, Option.map_some, eq_comm, Option.map_eq_some_iff] at hbare
    obtain ⟨node, hnode, heq⟩ := hbare
    exact ⟨node, hnode, (congrArg Node.size heq).symm, (congrArg Node.count heq).symm⟩
  · intro hopt a b ha hb
    have hsame : (fun b a => g'.IsChild a b) = t'.graph.HasLink .child := by
      funext b a
      exact propext (hlinks .child b a)
    unfold Graph.Reaches
    rw [hsame]
    exact hreach hopt a b (hkept a ha) (hkept b hb)

/-- A recursive function behind a wrapper, with only the wrapper to be
trimmed. -/
theorem graphTrim_keeps_recursion :
    let g := (Graph.init 8).run
      [⟨["malloc", "wrap", "f", "f", "main"], [16, 4], 0⟩, ⟨["malloc", "f"], [8], 0⟩]
    ∃ g', (∀ fuel, g.nodes.keys.length < fuel →
        g.trim fuel List.reverse ⟨true, false⟩ = .ok g') ∧
      (∀ a b, g'.IsChild a b ↔ g'.IsParent b a) ∧
      ∀ a b, a ∈ g'.nodes → b ∈ g'.nodes → (g'.Reaches a b ↔ g.Reaches a b) := by
  obtain ⟨g', hrun, hsymm, -, -, hreach⟩ := graphTrim_keeps 8
    [⟨["malloc", "wrap", "f", "f", "main"], [16, 4], 0⟩, ⟨["malloc", "f"], [8], 0⟩]
    ⟨true, false⟩ List.reverse_perm
  exact ⟨g', hrun, hsymm, hreach rfl⟩

example :
    let g := (Graph.init 8).run [⟨[1, 2, 3, 3, 4], [16, 4], 0⟩, ⟨[1, 3], [8], 0⟩]
    ((g.trim 5 List.reverse ⟨true, false⟩).toOption.map fun g' => g'.nodes.keys) = some [1, 3, 4] := by
  decide

end SpRtrace.Scripts
