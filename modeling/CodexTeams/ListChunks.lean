import Mathlib.Data.Nat.Basic

/-! Cutting a list into chunks of one size, the last of which may be shorter. -/
namespace ListChunks

open List

variable {α : Type*}

def divCeil (n k : ℕ) : ℕ := (n + k - 1) / k

theorem divCeil_le_iff (hk : 0 < k) : divCeil n k ≤ m ↔ n ≤ m * k := by
  unfold divCeil
  rw [Nat.div_le_iff_le_mul_add_pred hk, Nat.mul_comm]
  omega

theorem le_divCeil_mul (hk : 0 < k) : n ≤ divCeil n k * k := (divCeil_le_iff hk).mp (Nat.le_refl _)

def chunks (k : ℕ) (l : List α) : List (List α) :=
  if l = [] ∨ k = 0 then [] else l.take k :: chunks k (l.drop k)
termination_by l.length
decreasing_by
  rename_i h
  rw [not_or] at h
  have := List.length_pos_iff.mpr h.1
  rw [List.length_drop]
  omega

theorem chunks_nil (k : ℕ) : chunks k ([] : List α) = [] := by
  rw [chunks, if_pos (.inl rfl)]

theorem chunks_of_ne (hk : 0 < k) (hl : l ≠ []) : chunks k l = l.take k :: chunks k (l.drop k) := by
  rw [chunks, if_neg]
  rintro (h | h)
  · exact hl h
  · omega

theorem chunks_induction {motive : List α → Prop} (hk : 0 < k) (nil : motive [])
    (step : ∀ l, l ≠ [] → motive (l.drop k) → motive l) (l : List α) : motive l := by
  induction hln : l.length using Nat.strong_induction_on generalizing l with
  | h n ih =>
    by_cases hl : l = []
    · rw [hl]
      exact nil
    · have hp := length_pos_iff.mpr hl
      refine step l hl (ih (l.drop k).length ?_ (l.drop k) rfl)
      rw [length_drop]
      omega

theorem flatten_chunks (hk : 0 < k) (l : List α) : (chunks k l).flatten = l := by
  induction l using chunks_induction hk with
  | nil => rw [chunks_nil, flatten_nil]
  | step l hl ih => rw [chunks_of_ne hk hl, flatten_cons, ih, take_append_drop]

theorem length_chunks (hk : 0 < k) (l : List α) : (chunks k l).length = divCeil l.length k := by
  induction l using chunks_induction hk with
  | nil =>
    rw [chunks_nil, length_nil, divCeil, length_nil, Nat.div_eq_of_lt (by omega)]
  | step l hl ih =>
    have hp := length_pos_iff.mpr hl
    rw [chunks_of_ne hk hl, length_cons, ih, length_drop, divCeil, divCeil]
    by_cases hsh : l.length ≤ k
    · have hr : (l.length - k + k - 1) / k = 0 := Nat.div_eq_of_lt (by omega)
      have ho : (l.length + k - 1) / k = 1 := Nat.div_eq_of_lt_le (by omega) (by omega)
      rw [hr, ho]
    · have hs : l.length + k - 1 = (l.length - k + k - 1) + k := by omega
      rw [hs, Nat.add_div_right _ hk]

theorem ne_nil_of_mem_chunks (hk : 0 < k) {l : List α} (h : p ∈ chunks k l) : p ≠ [] := by
  induction l using chunks_induction hk with
  | nil =>
    rw [chunks_nil] at h
    cases h
  | step l hl ih =>
    rw [chunks_of_ne hk hl] at h
    rcases mem_cons.mp h with rfl | hr
    · intro hn
      rcases take_eq_nil_iff.mp hn with hz | he
      · omega
      · exact hl he
    · exact ih hr

end ListChunks
