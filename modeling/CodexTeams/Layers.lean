import Mathlib.Data.List.Infix

/-! Layers put over parts of a tree one after another. What is seen at a place is the last layer at
or above it. -/
namespace Layers

variable {Name Kind : Type*} [DecidableEq Name]

structure Layer (Name Kind : Type*) where
  target : List Name
  kind : Kind

def top (layers : List (Layer Name Kind)) (place : List Name) : Option (Layer Name Kind) :=
  (layers.filter fun layer => layer.target <+: place).getLast?

section Top

variable {p : List Name}

theorem top_append : top (fr ++ sc) p = (top sc p).or (top fr p) := by
  rw [top, List.filter_append, List.getLast?_append]
  rfl

theorem top_cons : top (ly :: sc) p =
    (top sc p).or (if ly.target <+: p then some ly else none) := by
  by_cases h : ly.target <+: p <;> simp [top]

theorem top_mem (h : top ls p = some ly) : ly ∈ ls ∧ ly.target <+: p := by
  have hm := List.mem_of_getLast? h
  simpa using hm

theorem top_eq_none : top ls p = none ↔ ∀ ly ∈ ls, ¬ ly.target <+: p := by
  simp [top]

theorem top_isSome (hm : ly ∈ ls) (h : ly.target <+: p) : ∃ seen, top ls p = some seen := by
  rw [← Option.isSome_iff_exists, Option.isSome_iff_ne_none]
  intro hn
  exact top_eq_none.mp hn ly hm h

theorem top_flatMap (h : top (its.flatMap f) p = some ly) :
    ∃ b i a, its = b ++ i :: a ∧ top (f i) p = some ly ∧ ∀ l ∈ a, top (f l) p = none := by
  induction its with
  | nil => cases h
  | cons i its ih =>
    rw [List.flatMap_cons, top_append] at h
    cases hr : top (its.flatMap f) p with
    | some s =>
      rw [hr] at h
      obtain ⟨b, fn, a, rfl, hf, ha⟩ := ih (hr.trans h)
      exact ⟨i :: b, fn, a, rfl, hf, ha⟩
    | none =>
      rw [hr] at h
      refine ⟨[], i, its, rfl, h, fun l hl => ?_⟩
      rw [top_eq_none] at hr ⊢
      exact fun s hs => hr s (List.mem_flatMap.mpr ⟨l, hl, hs⟩)

end Top

end Layers
