import Mathlib.Logic.Function.Basic
import Mathlib.Logic.Relation

/-! Systems in which one event happens at a time, and what holds along their runs. -/
namespace Runs

/-- Which events can happen in a state, and where they lead. -/
structure EventSystem (State Event : Type*) where
  Enabled : State → Event → Prop
  next : State → Event → State

namespace EventSystem

variable {State Event : Type*} (system : EventSystem State Event) (cond : State → Event → Prop)

def Step (s s' : State) : Prop := ∃ event, system.Enabled s event ∧ cond s event ∧
  s' = system.next s event

def Reaches : State → State → Prop := Relation.ReflTransGen (system.Step cond)

def always (_ : State) (_ : Event) : Prop := True

/-- Every event can happen in every state. -/
abbrev total (next : State → Event → State) : EventSystem State Event := ⟨always, next⟩

variable {system cond} {s : State}

theorem Reaches.event (h : system.Enabled s e) (hc : cond s e) :
    system.Reaches cond s (system.next s e) :=
  Relation.ReflTransGen.single ⟨e, h, hc, rfl⟩

theorem Reaches.invariant {Inv : State → Prop}
    (hst : ∀ s e, Inv s → system.Enabled s e → cond s e → Inv (system.next s e))
    (h : system.Reaches cond s s') (hs : Inv s) : Inv s' := by
  induction h with
  | refl => exact hs
  | tail _ hl ih =>
    obtain ⟨e, he, hc, rfl⟩ := hl
    exact hst _ e ih he hc

variable (system cond)

def run : List Event → State → State
  | [], s => s
  | event :: events, s => run events (system.next s event)

/-- The events can happen one after another and each meets the condition. -/
def Allows : List Event → State → Prop
  | [], _ => True
  | event :: events, s =>
    system.Enabled s event ∧ cond s event ∧ Allows events (system.next s event)

instance decidableAllows [∀ s event, Decidable (system.Enabled s event)]
    [∀ s event, Decidable (cond s event)] :
    ∀ events s, Decidable (system.Allows cond events s)
  | [], _ => inferInstanceAs (Decidable True)
  | event :: events, s =>
    have := decidableAllows events (system.next s event)
    inferInstanceAs (Decidable (_ ∧ _ ∧ _))

instance decidableAlways (s : State) (event : Event) : Decidable (always s event) :=
  inferInstanceAs (Decidable True)

variable {system cond}

theorem Reaches.of_allows (h : system.Allows cond es s) :
    system.Reaches cond s (system.run es s) := by
  induction es generalizing s with
  | nil => exact Relation.ReflTransGen.refl
  | cons event es ih =>
    obtain ⟨he, hc, hr⟩ := h
    exact (Reaches.event he hc).trans (ih hr)

end EventSystem

theorem update_some_cases [DecidableEq ix] {j : ix}
    (h : Function.update ps i (some pr) j = some found) :
    j = i ∧ found = pr ∨ j ≠ i ∧ ps j = some found := by
  by_cases heq : j = i
  · subst heq
    rw [Function.update_self, Option.some.injEq] at h
    exact .inl ⟨rfl, h.symm⟩
  · rw [Function.update_of_ne heq] at h
    exact .inr ⟨heq, h⟩

theorem forall_update_some [DecidableEq ix] {pr : p} {P : ix → p → Prop}
    (h : ∀ j q, ps j = some q → P j q) (hi : P i pr) :
    ∀ j q, Function.update ps i (some pr) j = some q → P j q := by
  intro j q hq
  rcases update_some_cases hq with ⟨rfl, rfl⟩ | ⟨_, hq⟩
  · exact hi
  · exact h j q hq

end Runs
