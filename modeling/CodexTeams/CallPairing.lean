import Mathlib.Data.List.Basic

/-! Pairing the calls of a list with their answers. Filling puts a stand-in answer right behind
every call that has none; pruning drops the answers no call asks for. -/
namespace CallPairing

open List

variable {α κ : Type*}

/-- What an item asks for, what it answers, and the stand-in for a missing answer. Some
answers are exempt: they stay when no call asks for them. -/
structure Scheme (α κ : Type*) where
  asks : α → Option κ
  answers : α → Option κ
  exempt : α → Bool
  standIn : κ → α
  answers_standIn : ∀ k, answers (standIn k) = some k
  asks_of_answers : ∀ a k, answers a = some k → asks a = none

namespace Scheme

variable (S : Scheme α κ)

def Answered (l : List α) (k : κ) : Prop := ∃ a ∈ l, S.answers a = some k

def Asked (l : List α) (k : κ) : Prop := ∃ a ∈ l, S.asks a = some k

/-- An answer somebody asks for, an exempt answer, or no answer at all. -/
def Wanted (l : List α) (a : α) : Prop :=
  S.exempt a = true ∨ ∀ k, S.answers a = some k → S.Asked l k

structure Paired (l : List α) : Prop where
  answered : ∀ a ∈ l, ∀ k, S.asks a = some k → S.Answered l k
  wanted : ∀ a ∈ l, S.Wanted l a

variable {S}

theorem asks_standIn (S : Scheme α κ) (k : κ) : S.asks (S.standIn k) = none :=
  S.asks_of_answers _ k (S.answers_standIn k)

theorem wanted_congr (h : ∀ k, S.Asked l k ↔ S.Asked l' k) (a : α) :
    S.Wanted l a ↔ S.Wanted l' a := by
  simp [Wanted, h]

theorem wanted_of_asks (h : S.asks a = some k) : S.Wanted l a := by
  refine .inr fun k' hk' => ?_
  rw [S.asks_of_answers a k' hk'] at h
  cases h

variable [DecidableEq κ] (S)

instance decidableAnswered (l : List α) (k : κ) : Decidable (S.Answered l k) :=
  inferInstanceAs (Decidable (∃ a ∈ l, S.answers a = some k))

instance decidableAsked (l : List α) (k : κ) : Decidable (S.Asked l k) :=
  inferInstanceAs (Decidable (∃ a ∈ l, S.asks a = some k))

section

variable (l : List α)

instance decidableWanted (a : α) : Decidable (S.Wanted l a) :=
  inferInstanceAs (Decidable (_ ∨ ∀ k ∈ S.answers a, S.Asked l k))

def missing (a : α) : Option α :=
  match S.asks a with
  | none => none
  | some k => if S.Answered l k then none else some (S.standIn k)

def fill : List α := l.flatMap fun a => a :: (S.missing l a).toList

def prune : List α := l.filter fun a => S.Wanted l a

end

variable {S}

theorem missing_eq_some :
    S.missing l a = some b ↔ ∃ k, S.asks a = some k ∧ ¬S.Answered l k ∧ b = S.standIn k := by
  unfold missing
  cases hk : S.asks a with
  | none => simp
  | some k =>
    by_cases ha : S.Answered l k
    · simp [ha]
    · simp [eq_comm]

theorem mem_fill : b ∈ S.fill l ↔ b ∈ l ∨ ∃ a ∈ l, S.missing l a = some b := by
  simp only [fill, mem_flatMap, mem_cons, Option.mem_toList]
  constructor
  · rintro ⟨a, ha, rfl | hb⟩
    · exact .inl ha
    · exact .inr ⟨a, ha, hb⟩
  · rintro (hb | ⟨a, ha, hb⟩)
    · exact ⟨b, hb, .inl rfl⟩
    · exact ⟨a, ha, .inr hb⟩

theorem sublist_fill (l : List α) : l.Sublist (S.fill l) := by
  unfold fill
  generalize S.missing l = stand
  induction l with
  | nil => exact List.Sublist.refl _
  | cons a l ih =>
    exact (sublist_append_of_sublist_right ih).cons_cons a

theorem asked_fill : S.Asked (S.fill l) k ↔ S.Asked l k := by
  constructor <;> rintro ⟨a, ha, hk⟩
  · rcases mem_fill.mp ha with ha | ⟨_, _, hm⟩
    · exact ⟨a, ha, hk⟩
    · obtain ⟨_, _, _, rfl⟩ := missing_eq_some.mp hm
      rw [asks_standIn] at hk
      cases hk
  · exact ⟨a, mem_fill.mpr (.inl ha), hk⟩

theorem answered_fill (h : S.Asked l k) : S.Answered (S.fill l) k := by
  obtain ⟨a, ha, hk⟩ := h
  by_cases han : S.Answered l k
  · obtain ⟨b, hb, hbk⟩ := han
    exact ⟨b, mem_fill.mpr (.inl hb), hbk⟩
  · have hm := missing_eq_some.mpr ⟨k, hk, han, rfl⟩
    exact ⟨S.standIn k, mem_fill.mpr (.inr ⟨a, ha, hm⟩), S.answers_standIn k⟩

theorem mem_prune : a ∈ S.prune l ↔ a ∈ l ∧ S.Wanted l a := by
  simp [prune]

theorem asked_prune : S.Asked (S.prune l) k ↔ S.Asked l k := by
  constructor <;> rintro ⟨a, ha, hk⟩
  · exact ⟨a, (mem_prune.mp ha).1, hk⟩
  · exact ⟨a, mem_prune.mpr ⟨ha, wanted_of_asks hk⟩, hk⟩

theorem paired_prune (h : ∀ k, S.Asked l k → S.Answered l k) : S.Paired (S.prune l) := by
  constructor
  · intro a ha k hk
    have has : S.Asked l k := ⟨a, (mem_prune.mp ha).1, hk⟩
    obtain ⟨b, hb, hbk⟩ := h k has
    refine ⟨b, mem_prune.mpr ⟨hb, .inr fun k' hk' => ?_⟩, hbk⟩
    rw [hbk, Option.some.injEq] at hk'
    exact hk' ▸ has
  · intro a ha
    exact (wanted_congr (fun _ => asked_prune) a).mpr (mem_prune.mp ha).2

/-- Filling first is enough: pruning takes no answer away that a call asks for. -/
theorem paired_prune_fill (l : List α) : S.Paired (S.prune (S.fill l)) :=
  paired_prune fun _ hk => answered_fill (asked_fill.mp hk)

theorem missing_of_paired (h : S.Paired l) (ha : a ∈ l) : S.missing l a = none := by
  by_contra hs
  obtain ⟨b, hb⟩ := Option.ne_none_iff_exists'.mp hs
  obtain ⟨k, hk, han, _⟩ := missing_eq_some.mp hb
  exact han (h.answered a ha k hk)

theorem fill_of_paired (h : S.Paired l) : S.fill l = l := by
  calc S.fill l = l.flatMap fun a => [a] := by
        refine flatMap_congr fun a ha => ?_
        rw [missing_of_paired h ha, Option.toList_none]
    _ = l := flatMap_singleton' l

theorem prune_of_paired (h : S.Paired l) : S.prune l = l := by
  refine filter_eq_self.mpr fun a ha => ?_
  exact decide_eq_true (h.wanted a ha)

theorem prune_sublist (l : List α) : (S.prune l).Sublist (S.prune (S.fill l)) := by
  have hs : S.prune (S.fill l) = (S.fill l).filter fun a => S.Wanted l a := by
    refine filter_congr fun a _ => ?_
    exact decide_eq_decide.mpr (wanted_congr (fun _ => asked_fill) a)
  rw [hs]
  exact (sublist_fill l).filter _

omit [DecidableEq κ] in
theorem Paired.map (has : ∀ a, S.asks (f a) = S.asks a) (han : ∀ a, S.answers (f a) = S.answers a)
    (he : ∀ a, S.exempt (f a) = S.exempt a) (h : S.Paired l) : S.Paired (l.map f) := by
  have hm : ∀ {a}, a ∈ l.map f → ∃ b ∈ l, f b = a := mem_map.mp
  constructor
  · intro a ha k hk
    obtain ⟨b, hb, rfl⟩ := hm ha
    obtain ⟨c, hc, hck⟩ := h.answered b hb k ((has b).symm.trans hk)
    exact ⟨f c, mem_map_of_mem hc, (han c).trans hck⟩
  · intro a ha
    obtain ⟨b, hb, rfl⟩ := hm ha
    rcases h.wanted b hb with hex | hak
    · exact .inl ((he b).trans hex)
    · refine .inr fun k hk => ?_
      obtain ⟨c, hc, hck⟩ := hak k ((han b).symm.trans hk)
      exact ⟨f c, mem_map_of_mem hc, (has c).trans hck⟩

end Scheme

/-- Insertions behind recorded positions, made from the last position to the first. -/
def insertBehind (l : List α) (inserts : List (ℕ × α)) : List α :=
  inserts.foldr (fun entry acc => acc.insertIdx (entry.1 + 1) entry.2) l

private theorem insertIdx_length (bf l : List α) (b : α) :
    (bf ++ l).insertIdx bf.length b = bf ++ b :: l := by
  induction bf with
  | nil => rfl
  | cons a bf ih =>
    rw [cons_append, length_cons, insertIdx_succ_cons, ih, cons_append]

variable (f : α → Option α)

private theorem insertBehind_from (bf l : List α) : insertBehind (bf ++ l)
        ((l.zipIdx bf.length).filterMap fun p => (f p.1).map fun b => (p.2, b)) =
      bf ++ l.flatMap fun a => a :: (f a).toList := by
  induction l generalizing bf with
  | nil => simp [insertBehind]
  | cons a l ih =>
    have hr := ih (bf ++ [a])
    simp only [append_assoc, singleton_append, length_append, length_singleton] at hr
    rw [zipIdx_cons, filterMap_cons, flatMap_cons]
    cases hf : f a with
    | none =>
      simpa using hr
    | some b =>
      have hb := insertIdx_length (bf ++ [a]) (l.flatMap fun a => a :: (f a).toList) b
      simp only [append_assoc, singleton_append, length_append, length_singleton] at hb
      simp only [Option.map_some, Option.toList_some, insertBehind, foldr_cons] at hr ⊢
      rw [hr, hb]
      rfl

/-- Recording the positions first and inserting backwards puts each new item right behind
the item it was recorded for. -/
theorem insertBehind_eq_flatMap (l : List α) :
    insertBehind l (l.zipIdx.filterMap fun p => (f p.1).map fun b => (p.2, b)) =
      l.flatMap fun a => a :: (f a).toList :=
  insertBehind_from f [] l

end CallPairing
