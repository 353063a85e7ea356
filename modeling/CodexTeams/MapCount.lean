import CodexTeams.SizedLists
import Mathlib.Data.List.AList

/-! What an entry of a changed finite map is, what the values of a map add up to, and how many of
them have a property. -/
namespace MapCount

open AList

variable {α β : Type*} (size : β → ℕ) (m : AList (fun _ : α => β))

def total : ℕ :=
  SizedLists.total (fun entry => size entry.2) m.entries

variable (p : β → Bool) (m : AList (fun _ : α => β))

def countWhere : ℕ :=
  m.entries.countP fun entry => p entry.2

def weight (value : Option β) : ℕ :=
  if value.any p then 1 else 0

theorem countWhere_eq_total : countWhere p m = total (fun b => weight p (some b)) m := by
  unfold countWhere total
  induction m.entries with
  | nil => rfl
  | cons e es ih => simp [List.countP_cons, SizedLists.total, weight, ih, Nat.add_comm]

theorem weight_eq (v : Option β) : weight p v = v.elim 0 fun b => weight p (some b) := by
  cases v <;> rfl

section

variable [DecidableEq α] {m : AList (fun _ : α => β)}

theorem lookup_insert_cases (h : (m.insert a b).lookup o = some c) :
    o = a ∧ c = b ∨ o ≠ a ∧ m.lookup o = some c := by
  by_cases heq : o = a
  · rw [heq, lookup_insert, Option.some.injEq] at h
    exact .inl ⟨heq, h.symm⟩
  · rw [lookup_insert_ne heq] at h
    exact .inr ⟨heq, h⟩

theorem lookup_erase_some (h : (m.erase a).lookup o = some c) : o ≠ a ∧ m.lookup o = some c := by
  by_cases heq : o = a
  · rw [heq, lookup_erase] at h
    cases h
  · rw [lookup_erase_ne heq] at h
    exact ⟨heq, h⟩

end

variable [DecidableEq α] (a : α)

theorem total_erase : total size (m.erase a) + (m.lookup a).elim 0 size = total size m := by
  by_cases ha : a ∈ m.entries.keys
  · obtain ⟨b, bf, after, -, he, hes⟩ := List.exists_of_kerase ha
    have hl : m.lookup a = some b := by
      apply mem_lookup_iff.mpr
      rw [he]
      simp
    have her : (m.erase a).entries = bf ++ after := hes
    simp only [total, hl, her, he, SizedLists.total_append, SizedLists.total, Option.elim_some]
    omega
  · have hn : m.lookup a = none := lookup_eq_none.mpr ha
    have her : (m.erase a).entries = m.entries := List.kerase_of_notMem_keys ha
    rw [total, her, hn]
    rfl

theorem total_insert (b : β) :
    total size (m.insert a b) + (m.lookup a).elim 0 size = total size m + size b := by
  have he := total_erase size m a
  have hi : total size (m.insert a b) = size b + total size (m.erase a) := by
    rfl
  omega

theorem countWhere_erase : countWhere p (m.erase a) + weight p (m.lookup a) = countWhere p m := by
  rw [weight_eq, countWhere_eq_total, countWhere_eq_total]
  exact total_erase _ m a

theorem countWhere_insert (b : β) :
    countWhere p (m.insert a b) + weight p (m.lookup a) = countWhere p m + weight p (some b) := by
  rw [weight_eq, countWhere_eq_total, countWhere_eq_total]
  exact total_insert _ m a b

end MapCount
