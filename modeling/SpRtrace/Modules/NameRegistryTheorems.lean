/-
SpRtrace.Modules.NameRegistryTheorems — one value for each name.

A registry is a sorted tree of names whose values differ (`Registry`). The
walk finds a value if a node has it, so counting up ends at a value that no
node has as long as there are fewer nodes than values (`nregProbe_spec`).
One lookup keeps the registry and all its nodes (`nregGetHash_spec`), and
so the values of a run of lookups are the same exactly for the same names
(`nregLookups_unique`).
-/
import SpRtrace.Modules.NameRegistry

namespace SpRtrace.Modules

open SpRtrace.Lib SpRtrace.Common

/-! ## The walk -/

theorem nregValidateHash_counts (value : BitVec 32) (result : Bool) (item : NregNode)
    (which : SearchTree.Visit) : nregValidateHash value result item which
      = (result && (!which.counts || decide (item.hash ≠ value))) := by
  unfold nregValidateHash
  cases result with
  | false => rfl
  | true =>
    cases which with
    | preorder => rfl
    | endorder => rfl
    | postorder => by_cases h : item.hash = value <;> simp [h, SearchTree.Visit.counts]
    | leaf => by_cases h : item.hash = value <;> simp [h, SearchTree.Visit.counts]

theorem nregValidate_fold (value : BitVec 32) (visits : List (NregNode × SearchTree.Visit))
    (result : Bool) :
    visits.foldl (fun result visit => nregValidateHash value result visit.1 visit.2) result = true ↔
      result = true ∧
        ∀ item ∈ (visits.filter fun visit => visit.2.counts).map Prod.fst, item.hash ≠ value := by
  induction visits generalizing result with
  | nil => simp
  | cons visit visits ih =>
    rw [List.foldl_cons, ih, nregValidateHash_counts]
    cases hcounts : visit.2.counts with
    | false => simp [hcounts]
    | true => simp [hcounts, and_assoc]

/-- **The walk** finds the values of the nodes. -/
theorem nregHashExists_iff (root : SearchTree NregNode) (hash : BitVec 32) :
    nregHashExists root hash = true ↔ ∃ node ∈ root.items, node.hash = hash := by
  have hfold := nregValidate_fold hash root.twalk true
  rw [SearchTree.twalk_counts] at hfold
  unfold nregHashExists
  rw [Bool.not_eq_true', ← Bool.not_eq_true, hfold]
  simp

/-! ## Counting up -/

/-- The values that counting up tries. -/
theorem nregProbe_tries (root : SearchTree NregNode) (left : Nat) (hash : BitVec 32) :
    (∀ k < left, nregHashExists root (hash + BitVec.ofNat 32 k) = true) ∨
      ∃ found, nregProbe root left hash = some found ∧ nregHashExists root found = false := by
  induction left generalizing hash with
  | zero => exact Or.inl fun k hk => absurd hk (Nat.not_lt_zero k)
  | succ left ih =>
    rw [nregProbe]
    cases hexists : nregHashExists root hash with
    | false => exact Or.inr ⟨hash, rfl, hexists⟩
    | true =>
      rw [if_pos rfl]
      rcases ih (hash + 1) with hall | hfound
      · refine Or.inl fun k hk => ?_
        cases k with
        | zero => simpa using hexists
        | succ k =>
          have hnext := hall k (by omega)
          rw [BitVec.add_assoc, BitVec.add_comm 1] at hnext
          rw [BitVec.ofNat_add]
          exact hnext
      · exact Or.inr hfound

/-- **Counting up** ends at a value that no node has, if there are fewer
nodes than values. -/
theorem nregProbe_spec {root : SearchTree NregNode} (hlen : root.items.length < 2 ^ 32)
    (hash : BitVec 32) : ∃ found, nregProbe root (2 ^ 32) hash = some found ∧
      ∀ node ∈ root.items, node.hash ≠ found := by
  rcases nregProbe_tries root (2 ^ 32) hash with hall | ⟨found, hfound, hnew⟩
  · have hsub : (Finset.univ : Finset (BitVec 32)) ⊆ (root.items.map NregNode.hash).toFinset := by
      intro value _
      have htried := hall (value - hash).toNat (value - hash).isLt
      rw [BitVec.ofNat_toNat, BitVec.setWidth_eq, BitVec.add_comm, BitVec.sub_add_cancel,
        nregHashExists_iff] at htried
      obtain ⟨node, hnode, hvalue⟩ := htried
      exact List.mem_toFinset.mpr (List.mem_map.mpr ⟨node, hnode, hvalue⟩)
    have hcard := Finset.card_le_card hsub
    have hcount := (root.items.map NregNode.hash).toFinset_card_le
    rw [List.length_map] at hcount
    rw [Finset.card_univ, ← FinEnum.card_eq_fintypeCard, FinEnum.card_bitVec] at hcard
    omega
  · refine ⟨found, hfound, fun node hnode hvalue => ?_⟩
    rw [(nregHashExists_iff root found).mpr ⟨node, hnode, hvalue⟩] at hnew
    exact absurd hnew (by decide)

/-! ## The registry -/

/-- A name as C has it. -/
def NoNul (name : Str) : Prop := '\x00' ∉ name

/-- The nodes are sorted by name, and their values differ. -/
structure Registry (root : SearchTree NregNode) : Prop where
  sorted : root.Sorted nregCompareName
  names : ∀ node ∈ root.items, NoNul node.name
  values : (root.items.map NregNode.hash).Nodup

theorem nregCompareName_strict : SearchTree.Strict nregCompareName where
  swap := fun _ _ => strcmp_swap _ _
  trans := fun _ _ _ => strcmp_trans

theorem Registry.start : Registry .nil :=
  ⟨SearchTree.Sorted.nil, fun _ h => absurd h List.not_mem_nil, List.nodup_nil⟩

theorem Registry.compare_eq_zero {root : SearchTree NregNode} (h : Registry root) {name : Str}
    (hname : NoNul name) (hash : BitVec 32) {node : NregNode} (hnode : node ∈ root.items) :
    nregCompareName { name, hash } node = 0 ↔ name = node.name :=
  strcmp_eq_zero hname (h.names node hnode)

/-- Different nodes have different names. -/
theorem Registry.names_nodup {root : SearchTree NregNode} (h : Registry root) :
    (root.items.map NregNode.name).Nodup := by
  refine List.pairwise_map.mpr (h.sorted.imp fun {x y} hlt heq => ?_)
  rw [nregCompareName, heq, strcmp_self] at hlt
  exact absurd hlt (by decide)

variable {balance : SearchTree NregNode → SearchTree NregNode}

/-- **One lookup** keeps the registry and its nodes, and the value that it
returns is that of a node with the name. -/
theorem nregGetHash_spec (hbalance : SearchTree.Balances balance) {root : SearchTree NregNode}
    (h : Registry root) (hlen : root.items.length < 2 ^ 32) {name : Str} (hname : NoNul name) :
    ∃ root' hash, nregGetHash balance true root name = some (root', hash) ∧ Registry root' ∧
      { name, hash } ∈ root'.items ∧ root.items ⊆ root'.items ∧
      ∀ node ∈ root'.items, node ∈ root.items ∨ node.name = name := by
  have hdirected := h.sorted.directed nregCompareName_strict { name, hash := 0 }
  unfold nregGetHash
  cases hfound : root.tfind nregCompareName { name, hash := 0 } with
  | some node =>
    obtain ⟨hmem, hzero⟩ := SearchTree.tfind_mem hfound
    obtain rfl := (h.compare_eq_zero hname 0 hmem).mp hzero
    exact ⟨root, node.hash, rfl, h, hmem, List.Subset.refl _, fun _ => Or.inl⟩
  | none =>
    have hnew : ∀ node ∈ root.items, name ≠ node.name := by
      intro node hnode heq
      have hsome := (SearchTree.tfind_isSome hdirected).mpr
        ⟨node, hnode, (h.compare_eq_zero hname 0 hnode).mpr heq⟩
      rw [hfound] at hsome
      exact absurd hsome (by simp)
    obtain ⟨hash, hprobe, hvalue⟩ := nregProbe_spec hlen (nregCalcRawHash name)
    obtain ⟨-, hadd, hsorted⟩ := SearchTree.tsearch_spec hbalance nregCompareName_strict h.sorted
      { name, hash }
    obtain ⟨hkey, hperm⟩ := hadd fun node hnode hzero =>
      hnew node hnode ((h.compare_eq_zero hname hash hnode).mp hzero)
    have hcalc : nregCalcHash root name = some hash := hprobe
    refine ⟨_, _, by rw [if_pos rfl, hcalc]; rfl, ⟨hsorted, fun node hnode => ?_, ?_⟩, ?_, ?_, ?_⟩
    · rcases List.mem_cons.mp (hperm.mem_iff.mp hnode) with rfl | hold
      · exact hname
      · exact h.names node hold
    · rw [(hperm.map _).nodup_iff, List.map_cons, List.nodup_cons]
      refine ⟨fun hmem => ?_, h.values⟩
      obtain ⟨node, hnode, hsame⟩ := List.mem_map.mp hmem
      exact hvalue node hnode hsame
    · rw [hkey]
      exact hperm.mem_iff.mpr (List.mem_cons_self ..)
    · exact fun node hnode => hperm.mem_iff.mpr (List.mem_cons_of_mem _ hnode)
    · intro node hnode
      rcases List.mem_cons.mp (hperm.mem_iff.mp hnode) with rfl | hold
      · exact Or.inr rfl
      · exact Or.inl hold

/-! ## Runs -/

/-- There are no more nodes than names in use. -/
theorem Registry.length_le {root : SearchTree NregNode} (h : Registry root) {used : Finset Str}
    (hused : ∀ node ∈ root.items, node.name ∈ used) : root.items.length ≤ used.card := by
  have hsub : (root.items.map NregNode.name).toFinset ⊆ used := by
    intro name hname
    obtain ⟨node, hnode, rfl⟩ := List.mem_map.mp (List.mem_toFinset.mp hname)
    exact hused node hnode
  have hcard := Finset.card_le_card hsub
  rwa [List.toFinset_card_of_nodup h.names_nodup, List.length_map] at hcard

/-- **Some lookups**: the loop of each ends, and behind them each name has a
node with the value that it got. -/
theorem nregLookups_spec (hbalance : SearchTree.Balances balance) {used : Finset Str}
    (hcard : used.card < 2 ^ 32) (names : List Str) {root : SearchTree NregNode}
    (h : Registry root) (hnul : ∀ name ∈ names, NoNul name)
    (hused : ∀ node ∈ root.items, node.name ∈ used) (hnames : ∀ name ∈ names, name ∈ used) :
    ∃ root' hashes, nregLookups balance root names = some (root', hashes) ∧ Registry root' ∧
      root.items ⊆ root'.items ∧ hashes.length = names.length ∧
      ∀ pair ∈ names.zip hashes, { name := pair.1, hash := pair.2 } ∈ root'.items := by
  induction names generalizing root with
  | nil => exact ⟨root, [], rfl, h, List.Subset.refl _, rfl, fun _ hp => absurd hp List.not_mem_nil⟩
  | cons name names ih =>
    obtain ⟨root₁, hash, hget, h₁, hnode, hsub, hnodes⟩ := nregGetHash_spec hbalance h
      ((h.length_le hused).trans_lt hcard) (hnul name (List.mem_cons_self ..))
    have hused₁ : ∀ node ∈ root₁.items, node.name ∈ used := by
      intro node hmem
      rcases hnodes node hmem with hold | hnew
      · exact hused node hold
      · exact hnew ▸ hnames name (List.mem_cons_self ..)
    obtain ⟨root', hashes, hrun, h', hsub', hlen, hpairs⟩ := ih h₁
      (fun n hn => hnul n (List.mem_cons_of_mem _ hn)) hused₁
      fun n hn => hnames n (List.mem_cons_of_mem _ hn)
    refine ⟨root', hash :: hashes, ?_, h', fun node hmem => hsub' (hsub hmem), ?_, fun pair hpair => ?_⟩
    · simp only [nregLookups, hget, Option.bind_eq_bind, Option.bind_some, hrun]
    · rw [List.length_cons, List.length_cons, hlen]
    · rw [List.zip_cons_cons] at hpair
      rcases List.mem_cons.mp hpair with rfl | hpair
      · exact hsub' hnode
      · exact hpairs pair hpair

/-- In a registry a name has one value, and a value one name. -/
theorem Registry.unique {root : SearchTree NregNode} (h : Registry root) {x y : NregNode}
    (hx : x ∈ root.items) (hy : y ∈ root.items) : x.name = y.name ↔ x.hash = y.hash := by
  constructor
  · intro heq
    rw [List.inj_on_of_nodup_map h.names_nodup hx hy heq]
  · intro heq
    rw [List.inj_on_of_nodup_map h.values hx hy heq]

/-- **The name registry**: every run of lookups with fewer than 2^32 names
comes to its end, and two lookups return the same value if and only if
they are of the same name. -/
theorem nregLookups_unique (hbalance : SearchTree.Balances balance) {names : List Str}
    (hnul : ∀ name ∈ names, NoNul name) (hcard : names.toFinset.card < 2 ^ 32) :
    ∃ root hashes, nregLookups balance .nil names = some (root, hashes) ∧
      hashes.length = names.length ∧
      ∀ i (hi : i < names.length) j (hj : j < names.length),
        hashes[i]? = hashes[j]? ↔ names[i] = names[j] := by
  obtain ⟨root, hashes, hrun, hroot, -, hlen, hpairs⟩ := nregLookups_spec hbalance hcard names
    Registry.start hnul (fun _ hnode => absurd hnode List.not_mem_nil)
    fun name hname => List.mem_toFinset.mpr hname
  refine ⟨root, hashes, hrun, hlen, fun i hi j hj => ?_⟩
  have hnode : ∀ k (hk : k < names.length), ∃ hash, hashes[k]? = some hash ∧
      ({ name := names[k], hash } : NregNode) ∈ root.items := by
    intro k hk
    have hlt : k < hashes.length := hlen.symm ▸ hk
    refine ⟨hashes.get ⟨k, hlt⟩, List.getElem?_eq_getElem hlt, ?_⟩
    refine hpairs (names[k], hashes.get ⟨k, hlt⟩) (List.mem_iff_getElem.mpr ⟨k, ?_, List.getElem_zip⟩)
    rw [List.length_zip, hlen, Nat.min_self]
    exact hk
  obtain ⟨hash, hget, hmem⟩ := hnode i hi
  obtain ⟨hash', hget', hmem'⟩ := hnode j hj
  rw [hget, hget', Option.some.injEq]
  exact (hroot.unique hmem hmem').symm

/-- Three lookups of two names, in a tree that is not balanced. -/
theorem nregLookups_unique_three :
    ∃ root hashes, nregLookups id .nil ["/a".toList, "/b".toList, "/a".toList] = some (root, hashes) ∧
      hashes[0]? = hashes[2]? ∧ hashes[0]? ≠ hashes[1]? := by
  have hbalance : SearchTree.Balances (id : SearchTree NregNode → SearchTree NregNode) := fun _ => rfl
  have hnul : ∀ name ∈ ["/a".toList, "/b".toList, "/a".toList], NoNul name := by simp [NoNul]
  obtain ⟨root, hashes, hrun, -, hunique⟩ := nregLookups_unique hbalance hnul (by decide)
  refine ⟨root, hashes, hrun, (hunique 0 (by decide) 2 (by decide)).mpr rfl, fun hsame => ?_⟩
  exact absurd ((hunique 0 (by decide) 1 (by decide)).mp hsame) (by decide)

end SpRtrace.Modules
