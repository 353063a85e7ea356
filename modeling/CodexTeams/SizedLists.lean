import Mathlib.Tactic.Common

/-! Lists whose elements take up room. An offset is a cut if it lies between two elements or at an
end of the list. -/
namespace SizedLists

open List

variable {α : Type*} (size : α → ℕ)

def total : List α → ℕ
  | [] => 0
  | a :: l => size a + total l

/-- The elements that start before an offset. -/
def before : ℕ → List α → List α
  | _, [] => []
  | n, a :: l => if n = 0 then [] else a :: before (n - size a) l

/-- The elements that start at an offset or later. -/
def behind : ℕ → List α → List α
  | _, [] => []
  | n, a :: l => if n = 0 then a :: l else behind (n - size a) l

section

variable (l : List α) (n : ℕ)

def IsCut : Prop := ∃ x y, l = x ++ y ∧ total size x = n

/-- Whether the elements that start before an offset end there. -/
def isCut : Bool := total size (before size n l) == n

def floorCut : ℕ → ℕ
  | 0 => 0
  | n + 1 => if isCut size l (n + 1) then n + 1 else floorCut n

def ceilCut : ℕ → ℕ → ℕ
  | 0, n => n
  | steps + 1, n => if isCut size l n then n else ceilCut steps (n + 1)

/-- The nearest cut, the earlier one of two. -/
def nearestCut : ℕ :=
  let n := min n (total size l)
  if isCut size l n then n
  else
    let prev := floorCut size l n
    let next := ceilCut size l (total size l - n) n
    if n - prev ≤ next - n then prev else next

end

variable {size}

theorem total_append (x y : List α) : total size (x ++ y) = total size x + total size y := by
  induction x with
  | nil => simp [total]
  | cons a x ih => rw [cons_append, total, total, ih, Nat.add_assoc]

theorem isCut_total_append (x y : List α) : IsCut size (x ++ y) (total size x) := ⟨x, y, rfl, rfl⟩

theorem isCut_zero (l : List α) : IsCut size l 0 := ⟨[], l, rfl, rfl⟩

theorem isCut_total (l : List α) : IsCut size l (total size l) := ⟨l, [], (append_nil l).symm, rfl⟩

theorem IsCut.le_total (h : IsCut size l n) : n ≤ total size l := by
  obtain ⟨x, y, rfl, rfl⟩ := h
  rw [total_append]
  exact Nat.le_add_right _ _

theorem IsCut.append (h : IsCut size x n) (y : List α) : IsCut size (x ++ y) n := by
  obtain ⟨u, v, rfl, rfl⟩ := h
  rw [append_assoc]
  exact isCut_total_append u (v ++ y)

theorem IsCut.behind (h : IsCut size y n) (x : List α) :
    IsCut size (x ++ y) (total size x + n) := by
  obtain ⟨u, v, rfl, rfl⟩ := h
  rw [← append_assoc, ← total_append]
  exact isCut_total_append (x ++ u) v

theorem before_append_behind (n : ℕ) (l : List α) :
    before size n l ++ SizedLists.behind size n l = l := by
  induction l generalizing n with
  | nil => rfl
  | cons a l ih =>
    rw [before, SizedLists.behind]
    split
    · rfl
    · rw [cons_append, ih]

variable (hs : ∀ a, 0 < size a)

include hs

theorem eq_nil_of_total (h : total size l = 0) : l = [] := by
  cases l with
  | nil => rfl
  | cons a l =>
    have ha := hs a
    rw [total] at h
    omega

theorem before_total (x y : List α) : before size (total size x) (x ++ y) = x := by
  induction x with
  | nil => cases y <;> simp [total, before]
  | cons a x ih =>
    have ha := hs a
    rw [total, cons_append, before, if_neg (by omega), Nat.add_sub_cancel_left, ih]

theorem behind_total (x y : List α) : behind size (total size x) (x ++ y) = y := by
  have h : before size (total size x) (x ++ y) ++ behind size (total size x) (x ++ y) = x ++ y :=
    before_append_behind _ _
  rw [before_total hs] at h
  exact append_cancel_left h

theorem isCut_iff : isCut size l n = true ↔ IsCut size l n := by
  rw [isCut, beq_iff_eq]
  constructor
  · exact fun h => ⟨_, _, (before_append_behind n l).symm, h⟩
  · rintro ⟨x, y, rfl, rfl⟩
    rw [before_total hs]

theorem IsCut.of_append (h : IsCut size (x ++ y) n) (hn : n ≤ total size x) : IsCut size x n := by
  obtain ⟨u, v, he, rfl⟩ := h
  rcases append_eq_append_iff.mp he with ⟨w, rfl, _⟩ | ⟨w, rfl, _⟩
  · rw [total_append] at hn
    rw [eq_nil_of_total hs (l := w) (by omega), append_nil]
    exact isCut_total x
  · exact isCut_total_append u w

theorem IsCut.of_behind (h : IsCut size (x ++ y) n) (hn : total size x ≤ n) :
    IsCut size y (n - total size x) := by
  obtain ⟨u, v, he, rfl⟩ := h
  rcases append_eq_append_iff.mp he with ⟨w, rfl, rfl⟩ | ⟨w, rfl, rfl⟩
  · rw [total_append, Nat.add_sub_cancel_left]
    exact isCut_total_append w v
  · rw [total_append] at hn
    rw [eq_nil_of_total hs (l := w) (by omega), append_nil, Nat.sub_self]
    exact isCut_zero _

theorem IsCut.split (h : IsCut size l m) (h' : IsCut size l n) (hm : m ≤ n) :
    ∃ x y z, l = x ++ y ++ z ∧ total size x = m ∧ total size x + total size y = n := by
  obtain ⟨x, w, rfl, rfl⟩ := h
  obtain ⟨y, z, rfl, hy⟩ := h'.of_behind hs hm
  exact ⟨x, y, z, (append_assoc _ _ _).symm, rfl, by omega⟩

/-- A part is replaced: the cuts before it stay, those behind it move with its end. -/
theorem IsCut.replace (h : IsCut size (x ++ y ++ z) n) (w : List α) :
    (n ≤ total size x → IsCut size (x ++ w ++ z) n) ∧ (total size x + total size y ≤ n →
        IsCut size (x ++ w ++ z) (n + total size w - total size y)) := by
  constructor
  · intro hn
    rw [append_assoc] at h ⊢
    exact (h.of_append hs hn).append _
  · intro hn
    have hb := (h.of_behind hs (by rwa [total_append])).behind (x ++ w)
    rw [total_append, total_append] at hb
    have he : total size x + total size w + (n - (total size x + total size y)) =
        n + total size w - total size y := by omega
    rwa [he] at hb

theorem floorCut_spec (l : List α) (n : ℕ) :
    IsCut size l (floorCut size l n) ∧ floorCut size l n ≤ n ∧
      ∀ c, IsCut size l c → c ≤ n → c ≤ floorCut size l n := by
  induction n with
  | zero => exact ⟨isCut_zero l, Nat.le_refl _, fun _ _ hc => hc⟩
  | succ n ih =>
    rw [floorCut]
    split
    · next hc => exact ⟨(isCut_iff hs).mp hc, Nat.le_refl _, fun _ _ hc => hc⟩
    · next hc =>
      obtain ⟨hf, hl, hg⟩ := ih
      refine ⟨hf, Nat.le_succ_of_le hl, fun c h hn => hg c h ?_⟩
      have hne : c ≠ n + 1 := fun he => hc ((isCut_iff hs).mpr (he ▸ h))
      omega

theorem ceilCut_spec (h : n + ss = total size l) :
    IsCut size l (ceilCut size l ss n) ∧ n ≤ ceilCut size l ss n ∧
      ∀ c, IsCut size l c → n ≤ c → ceilCut size l ss n ≤ c := by
  induction ss generalizing n with
  | zero =>
    rw [show n = total size l from h]
    exact ⟨isCut_total l, Nat.le_refl _, fun _ _ hc => hc⟩
  | succ ss ih =>
    rw [ceilCut]
    split
    · next hc => exact ⟨(isCut_iff hs).mp hc, Nat.le_refl _, fun _ _ hc => hc⟩
    · next hc =>
      obtain ⟨hf, hl, hg⟩ := ih (n := n + 1) (by omega)
      refine ⟨hf, Nat.le_of_succ_le hl, fun c h hn => hg c h ?_⟩
      have hne : c ≠ n := fun he => hc ((isCut_iff hs).mpr (he ▸ h))
      omega

theorem nearestCut_of_isCut (h : IsCut size l n) : nearestCut size l n = n := by
  rw [nearestCut, Nat.min_eq_left h.le_total, if_pos ((isCut_iff hs).mpr h)]

/-- The nearest cut is one. No other lies between it and the offset, and one on the other side
is no nearer. -/
theorem nearestCut_spec (l : List α) (n : ℕ) :
    IsCut size l (nearestCut size l n) ∧ ∀ c, IsCut size l c → (c < nearestCut size l n →
        c ≤ n ∧ (n < nearestCut size l n → c + nearestCut size l n < 2 * n)) ∧
      (nearestCut size l n < c →
        n ≤ c ∧ (nearestCut size l n < n → 2 * n ≤ c + nearestCut size l n)) := by
  rw [nearestCut]
  split
  · next hc =>
    refine ⟨(isCut_iff hs).mp hc, fun c h => ?_⟩
    have hl := h.le_total
    omega
  · next hc =>
    have ht : min n (total size l) ≠ total size l := by
      intro he
      rw [he] at hc
      exact hc ((isCut_iff hs).mpr (isCut_total l))
    have hn : min n (total size l) = n := by omega
    obtain ⟨hf, hfl, hfg⟩ := floorCut_spec hs l n
    obtain ⟨hg, hgl, hgg⟩ := ceilCut_spec hs (show n + (total size l - n) = total size l by omega)
    simp only [hn]
    split
    · refine ⟨hf, fun c h => ?_⟩
      have hcf := hfg c h
      have hcg := hgg c h
      omega
    · refine ⟨hg, fun c h => ?_⟩
      have hcf := hfg c h
      have hcg := hgg c h
      omega

theorem nearestCut_mono (l : List α) (h : m ≤ n) : nearestCut size l m ≤ nearestCut size l n := by
  rcases Nat.eq_or_lt_of_le h with rfl | hl
  · exact Nat.le_refl _
  · obtain ⟨hm, hmc⟩ := nearestCut_spec hs l m
    obtain ⟨hn, hnc⟩ := nearestCut_spec hs l n
    have ha := (hmc _ hn).1
    have hb := (hnc _ hm).2
    omega

end SizedLists
