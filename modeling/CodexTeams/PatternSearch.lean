import Mathlib.Data.List.Infix

/-! Searching a pattern in a text that arrives in parts. When there is no occurrence yet, only the
longest end of the text that starts the pattern has to be kept. -/
namespace PatternSearch

open List Nat

variable {α : Type*} [DecidableEq α] {t : List α}

def find (pat : List α) : List α → Option ℕ
  | [] => if pat = [] then some 0 else none
  | x :: xs => if pat.isPrefixOf (x :: xs) then some 0 else (find pat xs).map (· + 1)

theorem find_eq_some : find pat t = some i ↔
    (i ≤ t.length ∧ pat <+: t.drop i) ∧ ∀ j < i, ¬ pat <+: t.drop j := by
  induction t generalizing i with
  | nil =>
    by_cases hp : pat = []
    · simp only [find, hp, if_true, Option.some.injEq, length_nil, le_zero]
      constructor
      · rintro rfl
        exact ⟨⟨rfl, List.nil_prefix⟩, fun j hj => absurd hj (not_lt_zero j)⟩
      · rintro ⟨⟨rfl, -⟩, -⟩
        rfl
    · simp [find, hp]
  | cons x xs ih =>
    unfold find
    by_cases hh : pat <+: x :: xs
    · rw [if_pos (List.isPrefixOf_iff_prefix.mpr hh), Option.some.injEq]
      constructor
      · rintro rfl
        exact ⟨⟨zero_le _, hh⟩, fun j hj => absurd hj (not_lt_zero j)⟩
      · rintro ⟨-, hf⟩
        by_contra hne
        exact hf 0 (Nat.pos_of_ne_zero (Ne.symm hne)) hh
    · rw [if_neg (fun h => hh (List.isPrefixOf_iff_prefix.mp h)), Option.map_eq_some_iff]
      constructor
      · rintro ⟨k, hk, rfl⟩
        obtain ⟨⟨hle, ho⟩, hf⟩ := ih.mp hk
        refine ⟨⟨succ_le_succ hle, ho⟩, ?_⟩
        intro j hj
        cases j with
        | zero => exact hh
        | succ j => exact hf j (lt_of_succ_lt_succ hj)
      · rintro ⟨⟨hle, ho⟩, hf⟩
        cases i with
        | zero => exact absurd ho hh
        | succ k =>
          refine ⟨k, ih.mpr ⟨⟨le_of_succ_le_succ hle, ho⟩, ?_⟩, rfl⟩
          intro j hj
          exact hf (j + 1) (succ_lt_succ hj)

theorem find_eq_none : find pat t = none ↔ ∀ j, ¬ pat <+: t.drop j := by
  induction t with
  | nil => simp [find]
  | cons x xs ih =>
    unfold find
    by_cases hh : pat <+: x :: xs
    · rw [if_pos (List.isPrefixOf_iff_prefix.mpr hh)]
      exact ⟨fun h => (nomatch h), fun h => absurd hh (h 0)⟩
    · rw [if_neg (fun h => hh (List.isPrefixOf_iff_prefix.mp h)), Option.map_eq_none_iff, ih]
      constructor
      · intro h j
        cases j with
        | zero => exact hh
        | succ j => exact h j
      · intro h j
        exact h (j + 1)

theorem find_split (h : find pat t = some i) :
    t = t.take i ++ (pat ++ t.drop (i + pat.length)) := by
  obtain ⟨⟨hle, ⟨after, ha⟩⟩, -⟩ := find_eq_some.mp h
  have hd : t.drop (i + pat.length) = after := by
    rw [← drop_drop, ← ha, drop_left]
  rw [hd, ha, take_append_drop]

theorem find_eq_none_of_length (h : t.length < pat.length) : find pat t = none := by
  refine find_eq_none.mpr fun j ho => ?_
  have hle := ho.length_le
  rw [length_drop] at hle
  omega

omit [DecidableEq α] in
theorem occurs_append (hl : i + pat.length ≤ t.length) :
    pat <+: (t ++ r).drop i ↔ pat <+: t.drop i := by
  rw [drop_append_of_le_length (by omega)]
  constructor
  · intro h
    exact prefix_of_prefix_length_le h (prefix_append _ _) (by rw [length_drop]; omega)
  · intro h
    exact h.trans (prefix_append _ _)

theorem find_append_of_some (h : find pat t = some i) (r : List α) :
    find pat (t ++ r) = some i := by
  obtain ⟨⟨hle, ho⟩, hf⟩ := find_eq_some.mp h
  have hl : i + pat.length ≤ t.length := by
    have := ho.length_le
    rw [length_drop] at this
    omega
  refine find_eq_some.mpr ⟨⟨?_, (occurs_append hl).mpr ho⟩, ?_⟩
  · rw [length_append]
    omega
  · intro j hj he
    exact hf j hj ((occurs_append (by omega)).mp he)

/-- The longest start of the pattern, of at most the given length, that ends the text. -/
def overlapUpTo (text pat : List α) : ℕ → ℕ
  | 0 => 0
  | k + 1 => if (pat.take (k + 1)).isSuffixOf text then k + 1 else overlapUpTo text pat k

/-- The length of the longest proper start of the pattern that ends the text. -/
def overlap (text pat : List α) : ℕ :=
  overlapUpTo text pat (min text.length (pat.length - 1))

theorem overlapUpTo_le (t pat : List α) (k : ℕ) : overlapUpTo t pat k ≤ k := by
  induction k with
  | zero => exact le_rfl
  | succ k ih =>
    unfold overlapUpTo
    split
    · exact le_rfl
    · exact ih.trans (le_succ k)

theorem le_overlapUpTo (hle : m ≤ k) (hs : pat.take m <:+ t) : m ≤ overlapUpTo t pat k := by
  induction k with
  | zero => exact hle
  | succ k ih =>
    unfold overlapUpTo
    split
    · exact hle
    · rename_i hl
      rcases lt_or_ge k m with hlt | hge
      · obtain rfl : m = k + 1 := by omega
        exact absurd (isSuffixOf_iff_suffix.mpr hs) hl
      · exact ih hge

theorem overlap_lt (hp : pat ≠ []) : overlap t pat < pat.length := by
  have hps := length_pos_iff.mpr hp
  have hle := overlapUpTo_le t pat (min t.length (pat.length - 1))
  unfold overlap
  omega

theorem overlap_le_length (t pat : List α) : overlap t pat ≤ t.length :=
  (overlapUpTo_le _ _ _).trans (min_le_left _ _)

theorem le_overlap (hlt : m < pat.length) (hs : pat.take m <:+ t) : m ≤ overlap t pat := by
  have hl := hs.length_le
  rw [length_take] at hl
  exact le_overlapUpTo (by omega) hs

def held (text pat : List α) : List α := text.drop (text.length - overlap text pat)

/-- The part of the text that no later occurrence can reach. -/
def passed (text pat : List α) : List α := text.take (text.length - overlap text pat)

theorem passed_append_held (t pat : List α) : passed t pat ++ held t pat = t := take_append_drop _ _

theorem length_held : (held t pat).length = overlap t pat := by
  rw [held, length_drop]
  have := overlap_le_length t pat
  omega

theorem find_held (hp : pat ≠ []) : find pat (held t pat) = none :=
  find_eq_none_of_length (by rw [length_held]; exact overlap_lt hp)

theorem find_append_of_no_start (h : ∀ j < b.length, ¬ pat <+: (b ++ t).drop j) :
    find pat (b ++ t) = (find pat t).map (· + b.length) := by
  induction b with
  | nil => simp
  | cons x b ih =>
    have hh : ¬ pat.isPrefixOf (x :: (b ++ t)) = true := by
      intro hh
      exact h 0 (succ_pos _) (List.isPrefixOf_iff_prefix.mp hh)
    have hr : ∀ j < b.length, ¬ pat <+: (b ++ t).drop j := by
      intro j hj
      exact h (j + 1) (succ_lt_succ hj)
    rw [cons_append, find, if_neg hh, ih hr, Option.map_map]
    rfl

/-- Nothing that starts before the held part can become an occurrence. -/
theorem no_start_in_passed (h : find pat t = none) (hj : j < (passed t pat).length) :
    ¬ pat <+: (t ++ r).drop j := by
  have hps : (passed t pat).length = t.length - overlap t pat := by
    rw [passed, length_take]
    omega
  intro ho
  by_cases hf : j + pat.length ≤ t.length
  · exact find_eq_none.mp h j ((occurs_append hf).mp ho)
  · rw [drop_append_of_le_length (by omega)] at ho
    have hs : t.drop j <+: pat := prefix_of_prefix_length_le (prefix_append _ _) ho
        (by rw [length_drop]; omega)
    have ht : pat.take (t.length - j) = t.drop j := by
      rw [← length_drop]
      exact (prefix_iff_eq_take.mp hs).symm
    have hle : t.length - j ≤ overlap t pat := by
      apply le_overlap
      · omega
      · rw [ht]
        exact drop_suffix j t
    omega

theorem find_append_of_none (h : find pat t = none) (r : List α) :
    find pat (t ++ r) = (find pat (held t pat ++ r)).map (· + (passed t pat).length) := by
  have hs : t ++ r = passed t pat ++ (held t pat ++ r) := by
    rw [← append_assoc, passed_append_held]
  have hno : ∀ j < (passed t pat).length, ¬ pat <+: (passed t pat ++ (held t pat ++ r)).drop j := by
    intro j hj
    rw [← hs]
    exact no_start_in_passed h hj
  rw [hs]
  exact find_append_of_no_start hno

end PatternSearch
