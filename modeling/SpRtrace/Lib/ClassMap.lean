/-
SpRtrace.Lib.ClassMap — finite maps by an equivalence.

A container that compares its items keeps at most one item of every class
of equal ones. `ClassMap` is that container without any representation:
to every class the item that stands for it, if there is one. `Holds` says
that an item is the one; the operations are characterised by it.
-/
import Mathlib

namespace SpRtrace.Lib

/-- At most one item for every class. -/
structure ClassMap {α : Type*} (s : Setoid α) where
  item : Quotient s → Option α
  item_class : ∀ q a, item q = some a → Quotient.mk s a = q

namespace ClassMap

variable {α : Type*} {s : Setoid α}

def empty (s : Setoid α) : ClassMap s := ⟨fun _ => none, fun _ _ h => by cases h⟩

/-- The item that is equal to `a`. -/
def find (m : ClassMap s) (a : α) : Option α := m.item (Quotient.mk s a)

/-- `a` itself is in the map. -/
def Holds (m : ClassMap s) (a : α) : Prop := m.find a = some a

open Classical in
/-- Put `a` in the place of the item that is equal to it. -/
noncomputable def store (m : ClassMap s) (a : α) : ClassMap s where
  item q := if q = Quotient.mk s a then some a else m.item q
  item_class q b h := by
    split at h
    · rename_i hq
      rw [hq, Option.some.inj h]
    · exact m.item_class q b h

open Classical in
/-- Take `a` out, if it is in the map. -/
noncomputable def remove (m : ClassMap s) (a : α) : ClassMap s where
  item q := if m.item q = some a then none else m.item q
  item_class q b h := by
    split at h
    · cases h
    · exact m.item_class q b h

variable (m : ClassMap s) {a b : α}

theorem find_congr (h : s.r a b) : m.find a = m.find b := by
  rw [find, find, Quotient.sound h]

/-- **Looking up** finds the one item that is equal. -/
theorem find_eq_some : m.find a = some b ↔ m.Holds b ∧ s.r b a := by
  constructor
  · intro h
    have hclass : s.r b a := Quotient.exact (m.item_class _ _ h)
    exact ⟨(m.find_congr hclass).trans h, hclass⟩
  · rintro ⟨hholds, hclass⟩
    exact (m.find_congr hclass).symm.trans hholds

theorem holds_unique (ha : m.Holds a) (hb : m.Holds b) (h : s.r a b) : a = b :=
  Option.some.inj (ha.symm.trans ((m.find_congr h).trans hb))

theorem holds_store : (m.store a).Holds b ↔ b = a ∨ m.Holds b ∧ ¬ s.r b a := by
  simp only [Holds, find, store]
  by_cases h : s.r b a
  · rw [if_pos (Quotient.sound h), Option.some.injEq]
    exact ⟨fun e => .inl e.symm, fun e => (e.resolve_right fun hb => hb.2 h).symm⟩
  · rw [if_neg fun e => h (Quotient.exact e)]
    refine ⟨fun hb => .inr ⟨hb, h⟩, fun hb => ?_⟩
    rcases hb with rfl | hb
    · exact absurd (s.refl b) h
    · exact hb.1

theorem holds_remove : (m.remove a).Holds b ↔ m.Holds b ∧ b ≠ a := by
  simp only [Holds, find, remove]
  constructor
  · intro h
    split at h
    · cases h
    · rename_i hne
      exact ⟨h, fun e => hne (e ▸ h)⟩
  · rintro ⟨hb, hne⟩
    rw [if_neg fun h => hne (Option.some.inj (hb.symm.trans h))]
    exact hb

theorem holds_empty : ¬ (empty s).Holds a := fun h => by cases h

end ClassMap

end SpRtrace.Lib
