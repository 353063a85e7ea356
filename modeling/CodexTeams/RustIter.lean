import Mathlib.Order.Lattice

/-! The iterator functions of the Rust standard library that lists do not have. -/
namespace RustIter

open List

variable {α κ : Type*}

/-- Iterator::max_by_key, which keeps the last of several maxima. -/
def maxByKey [LE κ] [DecidableLE κ] (key : α → κ) : List α → Option α
  | [] => none
  | a :: rest =>
    match maxByKey key rest with
    | none => some a
    | some b => if key a ≤ key b then some b else some a

def minByKey [LE κ] [DecidableLE κ] (key : α → κ) : List α → Option α
  | [] => none
  | a :: rest =>
    match minByKey key rest with
    | none => some a
    | some b => if key a ≤ key b then some a else some b

theorem maxByKey_eq_none [LE κ] [DecidableLE κ] {key : α → κ} : maxByKey key l = none ↔ l = [] := by
  cases l with
  | nil => simp [maxByKey]
  | cons a r =>
    simp only [maxByKey]
    split
    · simp
    · split <;> simp

theorem maxByKey_spec [LinearOrder κ] {key : α → κ} (h : maxByKey key l = some a) :
    a ∈ l ∧ ∀ b ∈ l, key b ≤ key a := by
  induction l generalizing a with
  | nil => cases h
  | cons c r ih =>
    rw [maxByKey] at h
    cases hr : maxByKey key r with
    | none =>
      rw [hr, Option.some.injEq] at h
      subst h
      rw [maxByKey_eq_none.mp hr]
      refine ⟨mem_cons_self, fun b hb => ?_⟩
      rw [mem_singleton.mp hb]
    | some d =>
      obtain ⟨hd, hm⟩ := ih hr
      simp only [hr] at h
      by_cases hle : key c ≤ key d
      · rw [if_pos hle, Option.some.injEq] at h
        subst h
        refine ⟨mem_cons_of_mem c hd, fun b hb => ?_⟩
        rcases mem_cons.mp hb with rfl | hb
        · exact hle
        · exact hm b hb
      · rw [if_neg hle, Option.some.injEq] at h
        subst h
        refine ⟨mem_cons_self, fun b hb => ?_⟩
        rcases mem_cons.mp hb with rfl | hb
        · exact le_refl _
        · exact le_trans (hm b hb) (le_of_not_ge hle)

theorem exists_minByKey [LE κ] [DecidableLE κ] (key : α → κ) (h : l ≠ []) :
    ∃ a ∈ l, minByKey key l = some a := by
  induction l with
  | nil => contradiction
  | cons a r ih =>
    cases hr : minByKey key r with
    | none => exact ⟨a, mem_cons_self, by simp [minByKey, hr]⟩
    | some b =>
      obtain ⟨c, hc, heq⟩ := ih (by rintro rfl; cases hr)
      cases heq.symm.trans hr
      by_cases hle : key a ≤ key b
      · exact ⟨a, mem_cons_self, by simp [minByKey, hr, hle]⟩
      · exact ⟨b, mem_cons_of_mem a hc, by simp [minByKey, hr, hle]⟩

/-- Keeping the first of equal elements; the elements seen before are given. -/
def dedupFrom [DecidableEq α] (seen : List α) : List α → List α
  | [] => []
  | a :: rest => if a ∈ seen then dedupFrom seen rest else a :: dedupFrom (a :: seen) rest

theorem mem_dedupFrom [DecidableEq α] {a : α} : a ∈ dedupFrom seen l ↔ a ∈ l ∧ a ∉ seen := by
  induction l generalizing seen with
  | nil => simp [dedupFrom]
  | cons b r ih =>
    rw [dedupFrom]
    by_cases hb : b ∈ seen
    · rw [if_pos hb, ih, mem_cons]
      constructor
      · rintro ⟨ha, hs⟩
        exact ⟨.inr ha, hs⟩
      · rintro ⟨rfl | ha, hs⟩
        · exact absurd hb hs
        · exact ⟨ha, hs⟩
    · rw [if_neg hb, mem_cons, ih, mem_cons, mem_cons, not_or]
      constructor
      · rintro (rfl | ⟨ha, _, hs⟩)
        · exact ⟨.inl rfl, hb⟩
        · exact ⟨.inr ha, hs⟩
      · rintro ⟨ha, hs⟩
        by_cases hab : a = b
        · exact .inl hab
        · exact .inr ⟨ha.resolve_left hab, hab, hs⟩

end RustIter
