/-
SpRtrace.Lib.Batches — collecting values in batches.

A stream has records, each with a name and possibly a value, and marks. A
batch is what is collected between two closings: it is closed by a record
that has another name than the last one, or that comes behind a mark. At
the end of the stream the last batch is only closed if it has a mark.

So a value is lost if nothing behind it closes its batch. `finish_perm`
says that these are the only ones: all values get into a closed batch if
and only if the stream is settled.
-/
import Mathlib

namespace SpRtrace.Lib.Batches

variable {ν α : Type*}

/-! ## The stream -/

inductive Event (ν α : Type*)
  | record (name : ν) (value : Option α)
  | mark
  deriving DecidableEq

def Event.value : Event ν α → Option α
  | .record _ value => value
  | .mark => none

/-- What closes a batch whose last record has this name. -/
def Event.Closes (name : ν) : Event ν α → Prop
  | .record m _ => m ≠ name
  | .mark => True

@[simp] theorem closes_record {name m : ν} {value : Option α} :
    (Event.record m value).Closes name ↔ m ≠ name := Iff.rfl

@[simp] theorem closes_mark {name : ν} : (Event.mark : Event ν α).Closes name := trivial

instance [DecidableEq ν] (name : ν) (e : Event ν α) : Decidable (e.Closes name) :=
  match e with
  | .record m _ => inferInstanceAs (Decidable (m ≠ name))
  | .mark => inferInstanceAs (Decidable True)

/-- Behind every record with a value something closes its batch. -/
def Settled : List (Event ν α) → Prop
  | [] => True
  | .mark :: events => Settled events
  | .record name value :: events =>
      (value = none ∨ ∃ e ∈ events, e.Closes name) ∧ Settled events

instance decidableSettled [DecidableEq ν] : (events : List (Event ν α)) → Decidable (Settled events)
  | [] => inferInstanceAs (Decidable True)
  | .mark :: events => decidableSettled events
  | .record name value :: events =>
      have := decidableSettled events
      have : Decidable (value = none) := decidable_of_iff _ Option.isNone_iff_eq_none
      inferInstanceAs
        (Decidable ((value = none ∨ ∃ e ∈ events, e.Closes name) ∧ Settled events))

/-! ## The batches -/

/-- What has been collected: the batches that are closed, and the values of
the open one. -/
structure Collected (ν α : Type*) where
  name : ν
  marked : Bool
  pending : List α
  closed : List (List α)

/-- Nothing yet, with any name in front of the stream. -/
def Collected.start (name : ν) : Collected ν α :=
  { name, marked := false, pending := [], closed := [] }

/-- Empty batches are left out. -/
def Collected.close (c : Collected ν α) : List (List α) :=
  if c.pending = [] then c.closed else c.closed ++ [c.pending]

/-- The batches at the end of the stream. -/
def Collected.finish (c : Collected ν α) : List (List α) :=
  if c.marked then c.closed ++ [c.pending] else c.closed

/-- The values that are in no batch then. -/
def Collected.lost (c : Collected ν α) : List α := if c.marked then [] else c.pending

theorem close_flatten (c : Collected ν α) : c.close.flatten = c.closed.flatten ++ c.pending := by
  unfold Collected.close
  split
  next h => simp [h]
  next => simp

theorem finish_append_lost (c : Collected ν α) :
    c.finish.flatten ++ c.lost = c.closed.flatten ++ c.pending := by
  unfold Collected.finish Collected.lost
  split <;> simp

variable [DecidableEq ν]

def Collected.step (c : Collected ν α) : Event ν α → Collected ν α
  | .mark => { c with marked := true }
  | .record name value =>
      if c.marked ∨ name ≠ c.name then
        { name, marked := false, pending := value.toList, closed := c.close }
      else { c with pending := c.pending ++ value.toList }

def Collected.run (c : Collected ν α) (events : List (Event ν α)) : Collected ν α :=
  events.foldl Collected.step c

theorem step_values (c : Collected ν α) (e : Event ν α) :
    (c.step e).closed.flatten ++ (c.step e).pending
      = c.closed.flatten ++ c.pending ++ e.value.toList := by
  cases e with
  | mark => simp [Collected.step, Event.value]
  | record name value =>
    simp only [Collected.step, Event.value]
    split
    · rw [close_flatten]
    · rw [List.append_assoc]

/-- No value is dropped while the stream is read. -/
theorem run_values (c : Collected ν α) (events : List (Event ν α)) :
    (c.run events).closed.flatten ++ (c.run events).pending
      = c.closed.flatten ++ c.pending ++ events.filterMap Event.value := by
  induction events generalizing c with
  | nil => simp [Collected.run]
  | cons e events ih =>
    calc ((c.step e).run events).closed.flatten ++ ((c.step e).run events).pending
        = c.closed.flatten ++ c.pending ++ e.value.toList ++ events.filterMap Event.value := by
          rw [ih, step_values]
      _ = c.closed.flatten ++ c.pending ++ (e :: events).filterMap Event.value := by
          cases hvalue : e.value <;> simp [hvalue]

/-- What is pending is lost unless something closes it, and so is what the
rest of the stream adds. -/
theorem run_lost (c : Collected ν α) (events : List (Event ν α)) :
    (c.run events).lost = [] ↔
      (c.pending = [] ∨ c.marked ∨ ∃ e ∈ events, e.Closes c.name) ∧ Settled events := by
  induction events generalizing c with
  | nil => cases hmarked : c.marked <;> simp [Collected.run, Collected.lost, Settled, hmarked]
  | cons e events ih =>
    have hrun : c.run (e :: events) = (c.step e).run events := rfl
    rw [hrun, ih]
    cases e with
    | mark => simp [Collected.step, Settled]
    | record name value =>
      simp only [Collected.step, Settled, List.exists_mem_cons_iff, closes_record]
      split
      next hclose =>
        have hclosed : c.marked ∨ name ≠ c.name ∨ ∃ e ∈ events, e.Closes c.name :=
          or_assoc.mp (.inl hclose)
        simp only [hclosed, or_true, true_and, Option.toList_eq_nil_iff,
          Bool.false_eq_true, false_or]
      next hopen =>
        obtain ⟨hmarked, rfl⟩ : ¬c.marked ∧ name = c.name := by simpa using hopen
        simp only [hmarked, List.append_eq_nil_iff, Option.toList_eq_nil_iff, ne_eq,
          not_true_eq_false, false_or, Bool.false_eq_true]
        tauto

theorem start_values (name : ν) (events : List (Event ν α)) :
    ((Collected.start name).run events).finish.flatten ++ ((Collected.start name).run events).lost
      = events.filterMap Event.value := by
  rw [finish_append_lost, run_values]
  simp [Collected.start]

theorem finish_prefix (name : ν) (events : List (Event ν α)) :
    ((Collected.start name).run events).finish.flatten <+: events.filterMap Event.value :=
  ⟨_, start_values name events⟩

theorem finish_perm (name : ν) (events : List (Event ν α)) :
    ((Collected.start name).run events).finish.flatten.Perm (events.filterMap Event.value)
      ↔ Settled events := by
  have hlost : ((Collected.start name : Collected ν α).run events).lost = [] ↔ Settled events := by
    simp [run_lost, Collected.start]
  rw [← hlost, ← start_values name events]
  constructor
  · intro h
    simpa using h.length_eq
  · intro h
    rw [h, List.append_nil]

end SpRtrace.Lib.Batches
