/-
SpRtrace.Lib.SideBySide — two lists with related entries.

`List.Forall₂` relates the addresses of a linked list to what is stored
at them. These are the rules for adding to such a pair of lists, cutting
it, and following an entry from one list to the other. `mapM` of a partial
function gives such a pair.
-/
import Mathlib

namespace SpRtrace.Lib

variable {α β : Type} {R S : α → β → Prop}

theorem forall₂_imp_mem {l : List α} {l' : List β} (h : List.Forall₂ R l l')
    (himp : ∀ a ∈ l, ∀ b ∈ l', R a b → S a b) : List.Forall₂ S l l' := by
  induction h with
  | nil => exact .nil
  | cons hab _ ih =>
    refine .cons (himp _ (by simp) _ (by simp) hab) (ih fun a ha b hb => ?_)
    exact himp a (by simp [ha]) b (by simp [hb])

/-- Functions that agree on partners map the lists to one list. -/
theorem forall₂_map_eq {γ : Type} {f : α → γ} {g : β → γ} {l : List α} {l' : List β}
    (h : List.Forall₂ R l l') (hfg : ∀ a b, R a b → f a = g b) : l.map f = l'.map g := by
  induction h with
  | nil => rfl
  | cons hab _ ih => rw [List.map_cons, List.map_cons, hfg _ _ hab, ih]

/-- Every entry of the first list has a partner. -/
theorem forall₂_mem_left {l : List α} {l' : List β} (h : List.Forall₂ R l l') {a : α}
    (ha : a ∈ l) : ∃ b ∈ l', R a b := by
  induction h with
  | nil => cases ha
  | cons hab _ ih =>
    rcases List.mem_cons.mp ha with rfl | ha
    · exact ⟨_, by simp, hab⟩
    · obtain ⟨b, hb, hr⟩ := ih ha
      exact ⟨b, by simp [hb], hr⟩

/-- Every entry of the second list has a partner. -/
theorem forall₂_mem_right {l : List α} {l' : List β} (h : List.Forall₂ R l l') {b : β}
    (hb : b ∈ l') : ∃ a ∈ l, R a b := by
  induction h with
  | nil => cases hb
  | cons hab _ ih =>
    rcases List.mem_cons.mp hb with rfl | hb
    · exact ⟨_, by simp, hab⟩
    · obtain ⟨a, ha, hr⟩ := ih hb
      exact ⟨a, by simp [ha], hr⟩

theorem forall₂_split {l : List α} {l₁ l₂ : List β} (h : List.Forall₂ R l (l₁ ++ l₂)) :
    ∃ m n, l = m ++ n ∧ List.Forall₂ R m l₁ ∧ List.Forall₂ R n l₂ :=
  ⟨_, _, (List.take_append_drop l₁.length l).symm, List.forall₂_take_append l l₁ l₂ h,
    List.forall₂_drop_append l l₁ l₂ h⟩

theorem forall₂_snoc {l : List α} {l' : List β} {b : β} (h : List.Forall₂ R l (l' ++ [b])) :
    ∃ m a, l = m ++ [a] ∧ List.Forall₂ R m l' ∧ R a b := by
  obtain ⟨m, n, rfl, hm, hn⟩ := forall₂_split h
  cases hn with
  | cons hab hnil =>
    cases hnil
    exact ⟨m, _, rfl, hm, hab⟩

theorem forall₂_append_one {l : List α} {l' : List β} {a : α} {b : β} (h : List.Forall₂ R l l')
    (hab : R a b) : List.Forall₂ R (l ++ [a]) (l' ++ [b]) :=
  List.rel_append h (.cons hab .nil)

/-- Two lists beside the same one are beside each other. -/
theorem forall₂_trans {γ : Type} {T : β → γ → Prop} {l : List α} {m : List β} {n : List γ}
    (h : List.Forall₂ R l m) (h' : List.Forall₂ T m n) :
    List.Forall₂ (fun a c => ∃ b, R a b ∧ T b c) l n := by
  induction h generalizing n with
  | nil =>
    obtain rfl := List.forall₂_nil_left_iff.mp h'
    exact .nil
  | cons hab _ ih =>
    obtain ⟨c, rest, hbc, hrest, rfl⟩ := List.forall₂_cons_left_iff.mp h'
    exact .cons ⟨_, hab, hbc⟩ (ih hrest)

/-- Two lists beside each other are a list of pairs. -/
theorem forall₂_exists_pairs {l : List α} {l' : List β} (h : List.Forall₂ R l l') :
    ∃ pairs : List { p : α × β // R p.1 p.2 },
      pairs.map (fun p => p.val.1) = l ∧ pairs.map (fun p => p.val.2) = l' := by
  induction h with
  | nil => exact ⟨[], rfl, rfl⟩
  | @cons a b l l' hab _ ih =>
    obtain ⟨pairs, rfl, rfl⟩ := ih
    exact ⟨⟨(a, b), hab⟩ :: pairs, rfl, rfl⟩

/-- The entries beside those of a list without duplicates are a function of
them. -/
theorem forall₂_exists_map [DecidableEq α] [Inhabited β] {l : List α} {l' : List β}
    (h : List.Forall₂ R l l') (hnd : l.Nodup) : ∃ g : α → β, l.map g = l' ∧ ∀ a ∈ l, R a (g a) := by
  induction h with
  | nil => exact ⟨fun _ => default, rfl, by simp⟩
  | @cons a b l l' hab _ ih =>
    obtain ⟨ha, hnd⟩ := List.nodup_cons.mp hnd
    obtain ⟨g, rfl, hg⟩ := ih hnd
    have hold : ∀ c ∈ l, Function.update g a b c = g c := fun c hc =>
      Function.update_of_ne (ne_of_mem_of_not_mem hc ha) _ _
    refine ⟨Function.update g a b, ?_, fun c hc => ?_⟩
    · rw [List.map_cons, Function.update_self, List.map_congr_left hold]
    · rcases List.mem_cons.mp hc with rfl | hc
      · rw [Function.update_self]
        exact hab
      · rw [hold c hc]
        exact hg c hc

/-! ## Partial maps -/

/-- `mapM` relates every entry to its value. -/
theorem mapM_eq_some_iff {f : α → Option β} {l : List α} {r : List β} :
    l.mapM f = some r ↔ List.Forall₂ (fun a b => f a = some b) l r := by
  induction l generalizing r with
  | nil => simp [eq_comm]
  | cons a l ih =>
    rw [List.mapM_cons]
    simp only [Option.bind_eq_bind, Option.pure_def, Option.bind_eq_some_iff, Option.some.injEq,
      List.forall₂_cons_left_iff, ih]
    constructor
    · rintro ⟨b, hb, bs, hbs, rfl⟩
      exact ⟨b, bs, hb, hbs, rfl⟩
    · rintro ⟨b, bs, hb, hbs, rfl⟩
      exact ⟨b, hb, bs, hbs, rfl⟩

theorem mapM_total {f : α → Option β} {l : List α} (h : ∀ a ∈ l, ∃ b, f a = some b) :
    ∃ r, l.mapM f = some r := by
  induction l with
  | nil => exact ⟨[], rfl⟩
  | cons a l ih =>
    obtain ⟨b, hb⟩ := h a (by simp)
    obtain ⟨r, hr⟩ := ih fun a' ha' => h a' (by simp [ha'])
    exact ⟨b :: r, mapM_eq_some_iff.mpr (.cons hb (mapM_eq_some_iff.mp hr))⟩

theorem forall₂_filterMap {f : α → Option β} {l : List α} (h : ∀ a ∈ l, ∃ b, f a = some b) :
    List.Forall₂ (fun a b => f a = some b) l (l.filterMap f) := by
  induction l with
  | nil => exact .nil
  | cons a l ih =>
    obtain ⟨b, hb⟩ := h a (by simp)
    rw [List.filterMap_cons_some hb]
    exact .cons hb (ih fun a' ha' => h a' (by simp [ha']))

theorem mapM_append_some {f : α → Option β} {l l' : List α} {r r' : List β}
    (h : l.mapM f = some r) (h' : l'.mapM f = some r') : (l ++ l').mapM f = some (r ++ r') :=
  mapM_eq_some_iff.mpr (List.rel_append (mapM_eq_some_iff.mp h) (mapM_eq_some_iff.mp h'))

end SpRtrace.Lib
