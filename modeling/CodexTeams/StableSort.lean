import Mathlib.Data.List.Sort
import CodexTeams.RustIter

/-! Sorting by a key, where elements with equal keys stay in the order they had. -/
namespace StableSort

open RustIter List

variable {α κ : Type*}

def sortByKey [LinearOrder κ] (key : α → κ) (l : List α) : List α :=
  l.insertionSort (Order.Preimage key (· ≤ ·))

section Pairs

variable {after : List α}

theorem pair_sublist_split (hn : (bf ++ a :: after).Nodup) :
    [a, b].Sublist (bf ++ a :: after) ↔ b ∈ after := by
  constructor
  · intro h
    induction bf with
    | nil =>
      rcases sublist_cons_iff.mp h with h | ⟨r, hr, h⟩
      · have ha : a ∈ after := h.subset mem_cons_self
        exact absurd ha (nodup_cons.mp hn).1
      · cases hr
        exact singleton_sublist.mp h
    | cons c bf ih =>
      obtain ⟨hc, hn⟩ := nodup_cons.mp hn
      rcases sublist_cons_iff.mp h with h | ⟨r, hr, h⟩
      · exact ih hn h
      · cases hr
        exact absurd (mem_append_right bf mem_cons_self) hc
  · intro h
    have hp := (singleton_sublist.mpr h).cons_cons a
    exact hp.trans (sublist_append_right bf (a :: after))

theorem pair_sublist_total (ha : a ∈ l) (hb : b ∈ l) (hne : a ≠ b) :
    [a, b].Sublist l ∨ [b, a].Sublist l := by
  obtain ⟨bf, after, rfl⟩ := append_of_mem ha
  rcases mem_append.mp hb with hb | hb
  · have hp := (singleton_sublist.mpr hb).append
      (singleton_sublist.mpr (mem_cons_self (a := a) (l := after)))
    exact .inr hp
  · have hb : b ∈ after := (mem_cons.mp hb).resolve_left hne.symm
    have hp := (singleton_sublist.mpr hb).cons_cons a
    exact .inl (hp.trans (sublist_append_right bf (a :: after)))

theorem pair_sublist_asymm (hn : l.Nodup) (h : [a, b].Sublist l) : ¬[b, a].Sublist l := by
  intro hbc
  have ha : a ∈ l := h.subset mem_cons_self
  obtain ⟨bf, after, rfl⟩ := append_of_mem ha
  have hb := (pair_sublist_split hn).mp h
  obtain ⟨middle, rest, rfl⟩ := append_of_mem hb
  have hs : bf ++ a :: (middle ++ b :: rest) = (bf ++ a :: middle) ++ b :: rest := by
    simp
  rw [hs] at hbc hn
  have hr := (pair_sublist_split hn).mp hbc
  have hm : a ∈ bf ++ a :: middle := mem_append_right bf mem_cons_self
  exact (nodup_append.mp hn).2.2 a hm a (mem_cons_of_mem b hr) rfl

end Pairs

section Keys

variable [LinearOrder κ] {key : α → κ}

@[simp] theorem mem_sortByKey : a ∈ sortByKey key l ↔ a ∈ l := mem_insertionSort _

theorem perm_sortByKey (key : α → κ) (l : List α) : (sortByKey key l).Perm l :=
  perm_insertionSort _ l

theorem pairwise_sortByKey (key : α → κ) (l : List α) :
    (sortByKey key l).Pairwise fun a b => key a ≤ key b :=
  pairwise_insertionSort (Order.Preimage key (· ≤ ·)) l

theorem nodup_sortByKey : (sortByKey key l).Nodup ↔ l.Nodup := (perm_sortByKey key l).nodup_iff

theorem key_le_of_pair (h : [a, b].Sublist (sortByKey key l)) : key a ≤ key b :=
  pairwise_iff_forall_sublist.mp (pairwise_sortByKey key l) h

theorem pair_sublist_sortByKey (hn : l.Nodup) (ha : a ∈ l) (hb : b ∈ l) (hne : a ≠ b) :
    [a, b].Sublist (sortByKey key l) ↔ key a < key b ∨ key a = key b ∧ [a, b].Sublist l := by
  have hst : ∀ {c d : α}, key c ≤ key d → [c, d].Sublist l →
      [c, d].Sublist (sortByKey key l) := fun hle hp =>
    pair_sublist_insertionSort (r := Order.Preimage key (· ≤ ·)) hle hp
  have hs : (sortByKey key l).Nodup := nodup_sortByKey.mpr hn
  constructor
  · intro h
    rcases lt_or_eq_of_le (key_le_of_pair h) with hlt | heq
    · exact .inl hlt
    · refine .inr ⟨heq, (pair_sublist_total ha hb hne).resolve_right fun hbc => ?_⟩
      exact pair_sublist_asymm hs h (hst heq.ge hbc)
  · intro h
    refine (pair_sublist_total (mem_sortByKey.mpr ha) (mem_sortByKey.mpr hb) hne).resolve_right
      fun hbc => ?_
    rcases h with hlt | ⟨heq, hp⟩
    · exact absurd (key_le_of_pair hbc) (not_le_of_gt hlt)
    · exact pair_sublist_asymm hs (hst heq.le hp) hbc

/-- Elements with different keys are sorted alike in whatever order they come. -/
theorem sortByKey_eq_of_perm (h : l.Perm l') (hn : (l.map key).Nodup) :
    sortByKey key l = sortByKey key l' := by
  have hp := (perm_sortByKey key l).trans (h.trans (perm_sortByKey key l').symm)
  apply hp.eq_of_pairwise _ (pairwise_sortByKey key l) (pairwise_sortByKey key l')
  intro a b ha hb hab hba
  have hb := h.mem_iff.mpr (mem_sortByKey.mp hb)
  exact inj_on_of_nodup_map hn (mem_sortByKey.mp ha) hb (le_antisymm hab hba)

theorem map_sortByKey (f : β → α) (l : List β) :
    (sortByKey (fun b => key (f b)) l).map f = sortByKey key (l.map f) :=
  map_insertionSort _ _ f l fun _ _ _ _ => Iff.rfl

end Keys

theorem nodup_dedupFrom [DecidableEq α] (s l : List α) : (dedupFrom s l).Nodup := by
  induction l generalizing s with
  | nil => exact nodup_nil
  | cons a r ih =>
    rw [dedupFrom]
    split
    · exact ih s
    · refine nodup_cons.mpr ⟨fun ha => ?_, ih (a :: s)⟩
      exact (mem_dedupFrom.mp ha).2 mem_cons_self

end StableSort
