/-
SpRtrace.Library.TrackerTheorems — which names are tracked.

Two items compare equal if they are the same or one is a text with `'*'`
behind it and a prefix of the other (`strcmpp_eq_zero`). The tree keeps an
item if none that it has compares equal (`survivors`). So a name that an
item covers is found if and only if some item that covers it has no
earlier one that compares equal to it and does not cover the name
(`trackerQuery_right_iff`).
-/
import SpRtrace.Library.Tracker

namespace SpRtrace.Library

open SpRtrace.Lib SpRtrace.Common

/-! ## The comparison -/

theorem strcmpp_nil (t : Str) : strcmpp [] t = if t = ['*'] then 0 else strcmp [] t := by
  cases t <;> rfl

theorem strcmpp_cons_nil (c : Char) (s : Str) :
    strcmpp (c :: s) [] = if c :: s = ['*'] then 0 else (c.toNat : Int) := by
  simp [strcmpp]

theorem strcmpp_cons (c d : Char) (s t : Str) : strcmpp (c :: s) (d :: t)
    = if c :: s = ['*'] ∨ d :: t = ['*'] then 0
      else if c = d then strcmpp s t else (c.toNat : Int) - d.toNat := by
  rw [strcmpp]

theorem strcmpp_swap (s t : Str) : strcmpp t s = -strcmpp s t := by
  induction s generalizing t with
  | nil =>
    cases t with
    | nil => rfl
    | cons d t =>
      rw [strcmpp_cons_nil, strcmpp_nil, strcmp]
      split <;> simp
  | cons c s ih =>
    cases t with
    | nil =>
      rw [strcmpp_cons_nil, strcmpp_nil, strcmp]
      split <;> simp
    | cons d t =>
      rw [strcmpp_cons, strcmpp_cons, ih t]
      by_cases hstar : c :: s = ['*'] ∨ d :: t = ['*']
      · rw [if_pos hstar, if_pos hstar.symm]
        rfl
      · rw [if_neg hstar, if_neg fun h => hstar h.symm]
        by_cases heq : c = d
        · rw [if_pos heq, if_pos heq.symm]
        · rw [if_neg heq, if_neg fun h => heq h.symm]
          omega

/-- A negative comparison: the texts have a common front, and the first one
ends or has the smaller character behind it. -/
theorem strcmpp_neg_cons {c : Char} {s t : Str} (h : strcmpp (c :: s) t < 0) :
    c :: s ≠ ['*'] ∧ t ≠ ['*'] ∧ ∃ d t', t = d :: t' ∧
      ((c = d ∧ strcmpp s t' < 0) ∨ c.toNat < d.toNat) := by
  cases t with
  | nil =>
    rw [strcmpp_cons_nil] at h
    split at h <;> omega
  | cons d t =>
    rw [strcmpp_cons] at h
    split at h
    · omega
    next hstar =>
      obtain ⟨hs, ht⟩ := not_or.mp hstar
      refine ⟨hs, ht, d, t, rfl, ?_⟩
      split at h
      next heq => exact Or.inl ⟨heq, h⟩
      · exact Or.inr (by omega)

theorem strcmpp_neg_nil {t : Str} (h : strcmpp [] t < 0) :
    t ≠ ['*'] ∧ ∃ d t', t = d :: t' ∧ 0 < d.toNat := by
  cases t with
  | nil => exact absurd h (by decide)
  | cons d t =>
    rw [strcmpp_nil, strcmp] at h
    split at h
    · omega
    next hstar => exact ⟨hstar, d, t, rfl, by omega⟩

theorem strcmpp_trans {s t u : Str} (hst : strcmpp s t < 0) (htu : strcmpp t u < 0) :
    strcmpp s u < 0 := by
  induction s generalizing t u with
  | nil =>
    obtain ⟨-, d, t', rfl, hd⟩ := strcmpp_neg_nil hst
    obtain ⟨-, hu, e, u', rfl, hrest⟩ := strcmpp_neg_cons htu
    rw [strcmpp_nil, if_neg hu, strcmp]
    rcases hrest with ⟨rfl, -⟩ | hlt <;> omega
  | cons c s ih =>
    obtain ⟨hs, -, d, t', rfl, hleft⟩ := strcmpp_neg_cons hst
    obtain ⟨-, hu, e, u', rfl, hright⟩ := strcmpp_neg_cons htu
    rw [strcmpp_cons, if_neg (not_or.mpr ⟨hs, hu⟩)]
    rcases hleft with ⟨rfl, hst'⟩ | hleft
    · rcases hright with ⟨rfl, htu'⟩ | hright
      · rw [if_pos rfl]
        exact ih hst' htu'
      · rw [if_neg]
        · omega
        · rintro rfl
          omega
    · rcases hright with ⟨rfl, -⟩ | hright
      · rw [if_neg]
        · omega
        · rintro rfl
          omega
      · rw [if_neg]
        · omega
        · rintro rfl
          omega

theorem strcmpp_strict : SearchTree.Strict strcmpp where
  swap := strcmpp_swap
  trans := fun _ _ _ => strcmpp_trans

/-! ## Items that cover -/

/-- An item covers a text: it is the text, or a prefix of it with `'*'`
behind it. -/
def Covers (item text : Str) : Prop := item = text ∨ ∃ p, item = p ++ ['*'] ∧ p <+: text

theorem covers_star (text : Str) : Covers ['*'] text := Or.inr ⟨[], rfl, List.nil_prefix⟩

theorem covers_nil_left {text : Str} : Covers [] text ↔ text = [] := by
  constructor
  · rintro (heq | ⟨p, heq, -⟩)
    · exact heq.symm
    · exact absurd heq (by simp)
  · exact fun heq => Or.inl heq.symm

theorem covers_cons {c : Char} {s text : Str} (hstar : c :: s ≠ ['*']) :
    Covers (c :: s) text ↔ ∃ t, text = c :: t ∧ Covers s t := by
  constructor
  · rintro (rfl | ⟨p, heq, hprefix⟩)
    · exact ⟨s, rfl, Or.inl rfl⟩
    · cases p with
      | nil => exact absurd heq hstar
      | cons d p =>
        obtain ⟨rfl, rfl⟩ := List.cons.inj heq
        obtain ⟨rest, rfl⟩ := hprefix
        exact ⟨p ++ rest, rfl, Or.inr ⟨p, rfl, List.prefix_append ..⟩⟩
  · rintro ⟨t, rfl, rfl | ⟨p, rfl, hprefix⟩⟩
    · exact Or.inl rfl
    · exact Or.inr ⟨c :: p, rfl, List.cons_prefix_cons.mpr ⟨rfl, hprefix⟩⟩

/-- **Equal items**: one of them covers the other. -/
theorem strcmpp_eq_zero {s t : Str} (hs : '\x00' ∉ s) (ht : '\x00' ∉ t) :
    strcmpp s t = 0 ↔ Covers s t ∨ Covers t s := by
  have hnil : ∀ {d : Char} {t : Str}, '\x00' ∉ d :: t →
      (strcmpp [] (d :: t) = 0 ↔ Covers [] (d :: t) ∨ Covers (d :: t) []) := by
    intro d t ht
    have hd := toNat_ne_zero (List.ne_of_not_mem_cons ht).symm
    rw [strcmpp_nil, strcmp, covers_nil_left]
    by_cases hstar : d :: t = ['*']
    · rw [if_pos hstar, hstar]
      exact iff_of_true rfl (Or.inr (covers_star _))
    · rw [if_neg hstar, covers_cons hstar]
      simp [hd]
  induction s generalizing t with
  | nil =>
    cases t with
    | nil => exact iff_of_true rfl (Or.inl (Or.inl rfl))
    | cons d t => exact hnil ht
  | cons c s ih =>
    cases t with
    | nil =>
      have hswap := strcmpp_swap [] (c :: s)
      rw [hswap, neg_eq_zero, hnil hs, or_comm]
    | cons d t =>
      rw [strcmpp_cons]
      by_cases hstar : c :: s = ['*'] ∨ d :: t = ['*']
      · rw [if_pos hstar]
        refine iff_of_true rfl (hstar.imp (fun h => ?_) fun h => ?_)
        · exact h ▸ covers_star _
        · exact h ▸ covers_star _
      · obtain ⟨hs', ht'⟩ := not_or.mp hstar
        rw [if_neg hstar, covers_cons hs', covers_cons ht']
        by_cases heq : c = d
        · subst heq
          have hrest := ih (List.not_mem_of_not_mem_cons hs) (List.not_mem_of_not_mem_cons ht)
          rw [if_pos rfl]
          simpa using hrest
        · have hvalue : c.toNat ≠ d.toNat := fun h => heq (Char.toNat_inj.mp h)
          rw [if_neg heq]
          constructor
          · omega
          · rintro (⟨t', h, -⟩ | ⟨s', h, -⟩)
            · exact absurd (List.cons.inj h).1.symm heq
            · exact absurd (List.cons.inj h).1 heq

/-- An item of the set-up: a name, or a name with one `'*'` behind it. -/
structure TrackItem (item : Str) : Prop where
  nonempty : item ≠ []
  plain : ∀ c ∈ item, c ≠ ';' ∧ c ≠ ' ' ∧ c ≠ '\x00'
  noFile : item.head? ≠ some '@'
  oneStar : ∀ p, item ≠ p ++ ['*', '*']

theorem TrackItem.noNul {item : Str} (h : TrackItem item) : '\x00' ∉ item :=
  fun hmem => (h.plain _ hmem).2.2 rfl

/-- A prefix that is not the whole of an item with `'*'` is one of what is
in front of it. -/
theorem prefix_of_star {p q : Str} (h : p <+: q ++ ['*']) : p <+: q ∨ p = q ++ ['*'] :=
  (List.prefix_concat_iff.mp h).symm

/-- What covers an item covers what the item covers. -/
theorem Covers.trans {x y text : Str} (hx : TrackItem x) (hxy : Covers x y) (hy : Covers y text) :
    Covers x text := by
  rcases hxy with rfl | ⟨p, rfl, hp⟩
  · exact hy
  · rcases hy with rfl | ⟨q, rfl, hq⟩
    · exact Or.inr ⟨p, rfl, hp⟩
    · rcases prefix_of_star hp with hprefix | heq
      · exact Or.inr ⟨p, rfl, hprefix.trans hq⟩
      · exact absurd (by simp [heq]) (hx.oneStar q)

/-- **Items are nested**: what compares equal to an item that another
one covers compares equal to that one. -/
theorem Covers.overlaps {x y z : Str} (hx : TrackItem x) (hxy : Covers x y)
    (hyz : Covers y z ∨ Covers z y) : Covers x z ∨ Covers z x := by
  rcases hyz with hyz | hzy
  · exact Or.inl (hxy.trans hx hyz)
  · rcases hxy with rfl | ⟨p, rfl, hp⟩
    · exact Or.inr hzy
    · rcases hzy with rfl | ⟨q, rfl, hq⟩
      · exact Or.inl (Or.inr ⟨p, rfl, hp⟩)
      · rcases List.prefix_or_prefix_of_prefix hp hq with hpq | hqp
        · exact Or.inl (Or.inr ⟨p, rfl, hpq.trans (List.prefix_append ..)⟩)
        · exact Or.inr (Or.inr ⟨q, rfl, hqp.trans (List.prefix_append ..)⟩)

/-! ## The tree -/

/-- The items that are added: those that compare unequal to all that were
added before. -/
def survivors (items : List Str) : List Str :=
  items.foldl (fun kept item => if ∃ k ∈ kept, strcmpp item k = 0 then kept else item :: kept) []

theorem survivors_snoc (items : List Str) (item : Str) : survivors (items ++ [item])
    = if ∃ k ∈ survivors items, strcmpp item k = 0 then survivors items
      else item :: survivors items := by
  rw [survivors, List.foldl_append]
  rfl

theorem stripItem_item {item : Str} (h : TrackItem item) : stripItem item = item := by
  have hspace : ∀ c ∈ item, (decide (c = ' ')) = false :=
    fun c hc => decide_eq_false (h.plain c hc).2.1
  have hdrop : ∀ text : Str, (∀ c ∈ text, (decide (c = ' ')) = false) →
      text.dropWhile (· = ' ') = text := by
    intro text htext
    cases text with
    | nil => rfl
    | cons c text =>
      rw [List.dropWhile_cons_of_neg]
      rw [htext c (List.mem_cons_self ..)]
      decide
  rw [stripItem, hdrop item hspace, hdrop _ fun c hc => hspace c (List.mem_reverse.mp hc),
    List.reverse_reverse]

section Setup

variable {balance : SearchTree Str → SearchTree Str} {files : Str → Option Str}

theorem trackerParseItem_item {item : Str} (h : TrackItem item) (depth : Nat) (tracker : Tracker) :
    trackerParseItem balance files (depth + 1) tracker item
      = some { symbols := treeAddValue balance tracker.symbols item } := by
  rw [trackerParseItem, stripItem_item h]
  split
  next filename heq => exact absurd rfl h.noFile
  · rfl

/-- **The tree of the items** has those that are added. -/
theorem trackerItems_spec (hbalance : SearchTree.Balances balance) (depth : Nat) (items : List Str)
    (hitems : ∀ item ∈ items, TrackItem item) :
    ∃ tracker, items.foldlM (trackerParseItem balance files (depth + 1)) { symbols := .nil }
        = some tracker ∧
      tracker.symbols.Sorted strcmpp ∧ tracker.symbols.items.Perm (survivors items) := by
  induction items using List.reverseRecOn with
  | nil => exact ⟨_, rfl, SearchTree.Sorted.nil, List.Perm.refl _⟩
  | append_singleton items item ih =>
    obtain ⟨tracker, hrun, hsorted, hperm⟩ := ih fun i hi => hitems i (List.mem_append_left _ hi)
    have hlast : trackerParseItem balance files (depth + 1) tracker item
        = some { symbols := treeAddValue balance tracker.symbols item } :=
      trackerParseItem_item (hitems item (by simp)) depth tracker
    obtain ⟨hold, hnew, hsorted'⟩ :=
      SearchTree.tsearch_spec hbalance strcmpp_strict hsorted item
    refine ⟨{ symbols := treeAddValue balance tracker.symbols item }, ?_, hsorted', ?_⟩
    · rw [List.foldlM_append, hrun]
      show [item].foldlM (trackerParseItem balance files (depth + 1)) tracker = _
      rw [List.foldlM_cons, hlast]
      rfl
    · rw [survivors_snoc]
      have hiff : (∃ k ∈ tracker.symbols.items, strcmpp item k = 0) ↔
          ∃ k ∈ survivors items, strcmpp item k = 0 :=
        exists_congr fun k => and_congr_left fun _ => hperm.mem_iff
      split
      next hsome =>
        have hsame := (hold (hiff.mpr hsome)).2.2
        show (treeAddValue balance tracker.symbols item).items.Perm _
        rw [treeAddValue, hsame]
        exact hperm
      next hnone =>
        refine (hnew fun k hk hzero => hnone (hiff.mp ⟨k, hk, hzero⟩)).2.trans ?_
        exact hperm.cons item

theorem spRtraceTrackerInit_spec (files : Str → Option Str) (hbalance : SearchTree.Balances balance) (depth : Nat)
    {items : List Str} (hitems : ∀ item ∈ items, TrackItem item) :
    ∃ tracker, spRtraceTrackerInit balance files (depth + 1) (some ([';'].intercalate items))
        = some tracker ∧
      tracker.symbols.Sorted strcmpp ∧ tracker.symbols.items.Perm (survivors items) := by
  have hparts : strtok ';' ([';'].intercalate items) = items :=
    strtok_intercalate fun item hitem => ⟨(hitems item hitem).nonempty, fun hmem =>
      ((hitems item hitem).plain _ hmem).1 rfl⟩
  rw [spRtraceTrackerInit, hparts]
  exact trackerItems_spec hbalance depth items hitems

end Setup

/-! ## What survives -/

theorem survivors_subset (items : List Str) : survivors items ⊆ items := by
  induction items using List.reverseRecOn with
  | nil => exact List.Subset.refl _
  | append_singleton items item ih =>
    rw [survivors_snoc]
    split
    · exact fun k hk => List.mem_append_left _ (ih hk)
    · intro k hk
      rcases List.mem_cons.mp hk with rfl | hk
      · simp
      · exact List.mem_append_left _ (ih hk)

theorem survivors_mono (items rest : List Str) : survivors items ⊆ survivors (items ++ rest) := by
  induction rest using List.reverseRecOn with
  | nil => rw [List.append_nil]; exact List.Subset.refl _
  | append_singleton rest item ih =>
    rw [← List.append_assoc, survivors_snoc]
    split
    · exact ih
    · exact fun k hk => List.mem_cons_of_mem _ (ih hk)

/-- A survivor compares unequal to all survivors in front of one of its
places. -/
theorem survivor_place {items : List Str} {k : Str} (h : k ∈ survivors items) :
    ∃ pre post, items = pre ++ k :: post ∧ ∀ other ∈ survivors pre, strcmpp k other ≠ 0 := by
  induction items using List.reverseRecOn with
  | nil => exact absurd h List.not_mem_nil
  | append_singleton items item ih =>
    have hlater : k ∈ survivors items → ∃ pre post, items ++ [item] = pre ++ k :: post ∧
        ∀ other ∈ survivors pre, strcmpp k other ≠ 0 := by
      intro hk
      obtain ⟨pre, post, rfl, hpre⟩ := ih hk
      exact ⟨pre, post ++ [item], by simp, hpre⟩
    rw [survivors_snoc] at h
    split at h
    · exact hlater h
    next hnone =>
      rcases List.mem_cons.mp h with rfl | hk
      · exact ⟨items, [], rfl, fun other hother hzero => hnone ⟨other, hother, hzero⟩⟩
      · exact hlater hk

/-- An item that does not survive compares equal to a survivor in front of
it. -/
theorem survives_or_hidden (items : List Str) {k : Str} (h : k ∈ items) :
    k ∈ survivors items ∨ ∃ other ∈ survivors items, strcmpp k other = 0 := by
  induction items using List.reverseRecOn with
  | nil => exact absurd h List.not_mem_nil
  | append_singleton items item ih =>
    rcases List.mem_append.mp h with hk | hk
    · have hsub := survivors_mono items [item]
      exact (ih hk).imp (fun h => hsub h) fun hex => hex.imp fun _ hother => ⟨hsub hother.1, hother.2⟩
    · obtain rfl := List.mem_singleton.mp hk
      rw [survivors_snoc]
      split
      next hsome => exact Or.inr hsome
      · exact Or.inl (List.mem_cons_self ..)

/-! ## Queries -/

/-- Some item that compares equal to the text has no earlier one that
compares equal to it and not to the text. -/
def Reachable (items : List Str) (text : Str) : Prop :=
  ∃ pre item post, items = pre ++ item :: post ∧ strcmpp text item = 0 ∧
    ∀ other ∈ pre, strcmpp item other = 0 → strcmpp text other = 0

/-- **Survivors that compare equal**: there is one if and only if the text
is reachable. -/
theorem survivor_equal_iff {items : List Str} (hitems : ∀ item ∈ items, TrackItem item) {text : Str}
    (htext : '\x00' ∉ text) :
    (∃ k ∈ survivors items, strcmpp text k = 0) ↔ Reachable items text := by
  constructor
  · rintro ⟨k, hk, hequal⟩
    obtain ⟨pre, post, rfl, hpre⟩ := survivor_place hk
    refine ⟨pre, k, post, rfl, hequal, fun other hother hzero => ?_⟩
    have hkItem := hitems k (by simp)
    have hprefix : ∀ i ∈ pre, TrackItem i := fun i hi => hitems i (List.mem_append_left _ hi)
    have hotherItem := hprefix other hother
    rcases survives_or_hidden pre hother with hsurvives | ⟨hidden, hhidden, hback⟩
    · exact absurd hzero (hpre other hsurvives)
    · have hhiddenItem := hprefix hidden (survivors_subset pre hhidden)
      rcases (strcmpp_eq_zero hkItem.noNul hotherItem.noNul).mp hzero with hover | hunder
      · -- the survivor in front compares equal to `k`, too
        have hzero' := (strcmpp_eq_zero hkItem.noNul hhiddenItem.noNul).mpr
          (hover.overlaps hkItem ((strcmpp_eq_zero hotherItem.noNul hhiddenItem.noNul).mp hback))
        exact absurd hzero' (hpre hidden hhidden)
      · refine (strcmpp_eq_zero htext hotherItem.noNul).mpr ?_
        exact (hunder.overlaps hotherItem
          ((strcmpp_eq_zero htext hkItem.noNul).mp hequal).symm).symm
  · rintro ⟨pre, item, post, rfl, hequal, hpre⟩
    have hsplit : pre ++ item :: post = (pre ++ [item]) ++ post := by simp
    have hsub : survivors (pre ++ [item]) ⊆ survivors (pre ++ item :: post) := by
      rw [hsplit]
      exact survivors_mono _ post
    by_cases hhidden : ∃ k ∈ survivors pre, strcmpp item k = 0
    · obtain ⟨k, hk, hzero⟩ := hhidden
      exact ⟨k, hsub (survivors_mono pre [item] hk), hpre k (survivors_subset pre hk) hzero⟩
    · refine ⟨item, hsub ?_, hequal⟩
      rw [survivors_snoc, if_neg hhidden]
      exact List.mem_cons_self ..

/-- A name is tracked as it should be: it is found if and only if an item
covers it. -/
def TrackedRight (demangle : Str → Option Str) (items : List Str) (tracker : Tracker) (name : Str) :
    Prop :=
  (spRtraceTrackerQuerySymbol demangle tracker name).isSome ↔
    ∃ item ∈ items, Covers item ((demangle name).getD name)

/-- **The tracked symbols**: a name is tracked as it should be if and only
if it is reachable exactly when an item covers it. -/
theorem trackerQuery_right_iff {balance : SearchTree Str → SearchTree Str}
    (hbalance : SearchTree.Balances balance) (files : Str → Option Str) (depth : Nat)
    {items : List Str} (hitems : ∀ item ∈ items, TrackItem item) (demangle : Str → Option Str)
    {name : Str} (hname : '\x00' ∉ (demangle name).getD name) :
    (∃ tracker, spRtraceTrackerInit balance files (depth + 1) (some ([';'].intercalate items))
        = some tracker ∧ TrackedRight demangle items tracker name) ↔
      (Reachable items ((demangle name).getD name) ↔
        ∃ item ∈ items, Covers item ((demangle name).getD name)) := by
  obtain ⟨tracker, hinit, hsorted, hperm⟩ := spRtraceTrackerInit_spec files hbalance depth hitems
  have hfound : (spRtraceTrackerQuerySymbol demangle tracker name).isSome ↔
      Reachable items ((demangle name).getD name) := by
    rw [spRtraceTrackerQuerySymbol, Option.isSome_map,
      SearchTree.tfind_isSome (hsorted.directed strcmpp_strict _), ← survivor_equal_iff hitems hname]
    exact exists_congr fun item => and_congr_left fun _ => hperm.mem_iff
  constructor
  · rintro ⟨tracker', hinit', hright⟩
    obtain rfl := Option.some.inj (hinit.symm.trans hinit')
    exact hfound.symm.trans hright
  · intro hreach
    exact ⟨tracker, hinit, hfound.trans hreach⟩

/-- A name that does not end in `'*'` is reachable only if an item covers
it. -/
theorem Reachable.covered {items : List Str} (hitems : ∀ item ∈ items, TrackItem item) {text : Str}
    (htext : '\x00' ∉ text) (hstar : text.getLast? ≠ some '*') (h : Reachable items text) :
    ∃ item ∈ items, Covers item text := by
  obtain ⟨pre, item, post, rfl, hequal, -⟩ := h
  refine ⟨item, by simp, ?_⟩
  rcases (strcmpp_eq_zero htext (hitems item (by simp)).noNul).mp hequal with hcovers | hcovers
  · rcases hcovers with rfl | ⟨p, rfl, -⟩
    · exact Or.inl rfl
    · exact absurd (List.getLast?_concat ..) hstar
  · exact hcovers

theorem trackItem_of {item : Str} (h : item ≠ [] ∧ (∀ c ∈ item, c ≠ ';' ∧ c ≠ ' ' ∧ c ≠ '\x00') ∧
    item.head? ≠ some '@' ∧ ¬ ['*', '*'] <:+ item) : TrackItem item :=
  ⟨h.1, h.2.1, h.2.2.1, fun p heq => h.2.2.2 ⟨p, heq.symm⟩⟩

/-- A name and a wildcard that has nothing to do with it. -/
theorem trackerQuery_right_iff_two :
    ∃ tracker, spRtraceTrackerInit id (fun _ => none) 1 (some "open;mem*".toList) = some tracker ∧
      TrackedRight (fun _ => none) ["open".toList, "mem*".toList] tracker "memcpy".toList := by
  have htext : "open;mem*".toList = [';'].intercalate ["open".toList, "mem*".toList] := by decide
  have hitems : ∀ item ∈ ["open".toList, "mem*".toList], TrackItem item :=
    fun item hitem => trackItem_of (by revert item; simp; decide)
  have hreach : Reachable ["open".toList, "mem*".toList] "memcpy".toList :=
    ⟨["open".toList], "mem*".toList, [], rfl, by decide, by simp [strcmpp]⟩
  rw [htext]
  exact (trackerQuery_right_iff (fun _ => rfl) (fun _ => none) 0 hitems (fun _ => none)
    (by decide)).mpr (iff_of_true hreach ⟨"mem*".toList, by simp, Or.inr ⟨"mem".toList, rfl, by decide⟩⟩)

/-- A wildcard behind a name that it covers is dropped, and so it tracks no
other name. -/
theorem trackerQuery_dropped :
    (spRtraceTrackerInit id (fun _ => none) 1 (some "memcpy;mem*".toList)).map
        (fun tracker => spRtraceTrackerQuerySymbol (fun _ => none) tracker "memset".toList)
      = some none ∧
    ∃ item ∈ ["memcpy".toList, "mem*".toList], Covers item "memset".toList :=
  ⟨by decide +kernel, "mem*".toList, by simp, Or.inr ⟨"mem".toList, rfl, by decide⟩⟩

end SpRtrace.Library
