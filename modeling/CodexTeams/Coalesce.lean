import Mathlib.Data.List.Basic
import Mathlib.Data.List.Induction

/-! Lists whose neighbours join. An item that can be joined with the last one is, and an item that
says nothing is left out. -/
namespace Coalesce

open List

variable {α : Type*}

/-- How neighbours join, and which items say nothing. -/
structure Rules (α : Type*) where
  fuse : α → α → Option α
  blank : α → Bool

def push (rules : Rules α) (items : List α) (item : α) : List α :=
  if rules.blank item then items
  else
    match items.getLast?.bind fun last => rules.fuse last item with
    | some fused => items.dropLast ++ [fused]
    | none => items ++ [item]

def coalesce (rules : Rules α) (items : List α) : List α := items.foldl (push rules) []

structure Rules.Lawful (rules : Rules α) : Prop where
  assoc : ∀ {a b c ab bc : α}, rules.fuse a b = some ab → rules.fuse b c = some bc →
    ∃ abc, rules.fuse ab c = some abc ∧ rules.fuse a bc = some abc
  apart : ∀ {a b c bc : α}, rules.fuse a b = none → rules.fuse b c = some bc →
    rules.fuse a bc = none
  blank_left : ∀ {a b ab : α}, rules.fuse a b = some ab → rules.blank a = true → ab = b
  blank_right : ∀ {a b ab : α}, rules.fuse a b = some ab → rules.blank ab = true →
    rules.blank b = true

theorem coalesce_concat (rs : Rules α) (its : List α) (item : α) :
    coalesce rs (its ++ [item]) = push rs (coalesce rs its) item := by
  rw [coalesce, foldl_append]
  rfl

theorem push_of_blank (h : rs.blank i = true) (items : List α) : push rs items i = items := if_pos h

theorem push_concat (h : rs.blank i = false) (its : List α) (l : α) :
    push rs (its ++ [l]) i = match rs.fuse l i with
      | some fused => its ++ [fused]
      | none => its ++ [l, i] := by
  unfold push
  rw [if_neg (by simp [h]), getLast?_concat, Option.bind_some, dropLast_concat]
  cases rs.fuse l i with
  | some fused => rfl
  | none => simp

theorem push_nil (h : rs.blank i = false) : push rs [] i = [i] := by
  simp [push, h]

theorem push_fused (hl : rs.Lawful) (h : rs.fuse a b = some ab) (hb : rs.blank b = false)
    (its : List α) : push rs (push rs its a) b = push rs its ab := by
  have hab : rs.blank ab = false := by
    by_contra hbl
    rw [Bool.not_eq_false] at hbl
    rw [hl.blank_right h hbl] at hb
    cases hb
  by_cases ha : rs.blank a = true
  · rw [push_of_blank ha, hl.blank_left h ha]
  · rw [Bool.not_eq_true] at ha
    rcases eq_nil_or_concat' its with rfl | ⟨f, l, rfl⟩
    · have hc := push_concat hb [] a
      rw [h] at hc
      rw [push_nil ha, push_nil hab]
      exact hc
    · rw [push_concat ha, push_concat hab]
      cases hls : rs.fuse l a with
      | some fs =>
        obtain ⟨all, hlf, hr⟩ := hl.assoc hls h
        simp only [push_concat hb, hlf, hr]
      | none =>
        have hc := push_concat hb (f ++ [l]) a
        rw [h] at hc
        simp only [hl.apart hls h]
        simpa using hc

theorem foldl_push_push (hl : rs.Lawful) (acc its : List α) (item : α) :
    (push rs its item).foldl (push rs) acc = push rs (its.foldl (push rs) acc) item := by
  by_cases hb : rs.blank item = true
  · rw [push_of_blank hb, push_of_blank hb]
  · rw [Bool.not_eq_true] at hb
    rcases eq_nil_or_concat' its with rfl | ⟨f, l, rfl⟩
    · rw [push_nil hb]
      rfl
    · rw [push_concat hb]
      cases hf : rs.fuse l item with simp only [foldl_append, foldl_cons, foldl_nil]
      | some fs => exact (push_fused hl hf hb _).symm

theorem foldl_coalesce (hl : rs.Lawful) (acc its : List α) :
    (coalesce rs its).foldl (push rs) acc = its.foldl (push rs) acc := by
  induction its using reverseRecOn with
  | nil => rfl
  | append_singleton its i ih =>
    rw [coalesce_concat, foldl_push_push hl, ih, foldl_append]
    rfl

theorem coalesce_flatten (hl : rs.Lawful) (ps : List (List α)) :
    coalesce rs (ps.map (coalesce rs)).flatten = coalesce rs ps.flatten := by
  have hp : ∀ acc, ((ps.map (coalesce rs)).flatten).foldl (push rs) acc =
      ps.flatten.foldl (push rs) acc := by
    induction ps with
    | nil => exact fun _ => rfl
    | cons p ps ih =>
      intro acc
      rw [map_cons, flatten_cons, flatten_cons, foldl_append, foldl_append, foldl_coalesce hl, ih]
  exact hp []

theorem map_coalesce {f : α → β} (hf : ∀ a b, rls'.fuse (f a) (f b) = (rls.fuse a b).map f)
    (hbl : ∀ a, rls'.blank (f a) = rls.blank a) (its : List α) :
    (coalesce rls its).map f = coalesce rls' (its.map f) := by
  have hp : ∀ acc i, (push rls acc i).map f = push rls' (acc.map f) (f i) := by
    intro acc i
    by_cases hb : rls.blank i = true
    · rw [push_of_blank hb, push_of_blank ((hbl i).trans hb)]
    · rw [Bool.not_eq_true] at hb
      have hb' := (hbl i).trans hb
      rcases eq_nil_or_concat' acc with rfl | ⟨fr, l, rfl⟩
      · rw [push_nil hb, map_nil, push_nil hb']
        rfl
      · rw [push_concat hb, map_append, map_singleton, push_concat hb', hf]
        cases rls.fuse l i <;> simp
  induction its using reverseRecOn with
  | nil => rfl
  | append_singleton its i ih =>
    rw [coalesce_concat, hp, ih, map_append, map_singleton, coalesce_concat]

theorem flatMap_coalesce (hf : ∀ {a b ab}, rls.fuse a b = some ab → f ab = f a ++ f b)
    (hbl : ∀ {a}, rls.blank a = true → f a = []) (its : List α) :
    (coalesce rls its).flatMap f = its.flatMap f := by
  have hp : ∀ acc item, (push rls acc item).flatMap f = acc.flatMap f ++ f item := by
    intro acc item
    by_cases hb : rls.blank item = true
    · rw [push_of_blank hb, hbl hb, append_nil]
    · rw [Bool.not_eq_true] at hb
      rcases eq_nil_or_concat' acc with rfl | ⟨fr, l, rfl⟩
      · rw [push_nil hb]
        simp
      · rw [push_concat hb]
        cases hl : rls.fuse l item with
        | some fs => simp [hf hl]
        | none => simp
  induction its using reverseRecOn with
  | nil => rfl
  | append_singleton its item ih =>
    rw [coalesce_concat, hp, ih, flatMap_append, flatMap_singleton]

/-- Items that may be a text of some kind. -/
structure TextView (α κ γ : Type*) where
  view : α → Option (κ × List γ)
  make : κ → List γ → α
  view_make : ∀ kind text, view (make kind text) = some (kind, text)
  make_view : ∀ {item kind text}, view item = some (kind, text) → make kind text = item

namespace TextView

variable {κ γ : Type*} [DecidableEq κ] (v : TextView α κ γ)

def rules : Rules α where
  fuse a b :=
    match v.view a, v.view b with
    | some (kind, text), some (kind', more) =>
      if kind = kind' then some (v.make kind (text ++ more)) else none
    | _, _ => none
  blank a := (v.view a).any fun text => text.2.isEmpty

variable {v}

theorem fuse_make (k k' : κ) (t m : List γ) : v.rules.fuse (v.make k t) (v.make k' m) =
      if k = k' then some (v.make k (t ++ m)) else none := by
  simp [rules, v.view_make]

@[simp] theorem blank_make (k : κ) (t : List γ) : v.rules.blank (v.make k t) = t.isEmpty := by
  simp [rules, v.view_make]

theorem fuse_eq_some (h : v.rules.fuse a b = some ab) :
    ∃ k t m, a = v.make k t ∧ b = v.make k m ∧ ab = v.make k (t ++ m) := by
  simp only [rules] at h
  split at h
  · rename_i k t k' m ha hb
    split at h
    · rename_i hk
      subst hk
      cases h
      exact ⟨k, t, m, (v.make_view ha).symm, (v.make_view hb).symm, rfl⟩
    · cases h
  · cases h

theorem rules_lawful : v.rules.Lawful where
  assoc := by
    intro a b c ab bc hab hbc
    obtain ⟨k, text, m, rfl, rfl, rfl⟩ := fuse_eq_some hab
    obtain ⟨k', text', m', hb, rfl, rfl⟩ := fuse_eq_some hbc
    have hv := congrArg v.view hb
    rw [v.view_make, v.view_make] at hv
    cases hv
    refine ⟨v.make k (text ++ m ++ m'), ?_, ?_⟩
    · rw [fuse_make, if_pos rfl]
    · rw [fuse_make, if_pos rfl, append_assoc]
  apart := by
    intro a b c bc hab hbc
    obtain ⟨k, text, m, rfl, rfl, rfl⟩ := fuse_eq_some hbc
    simp only [rules, v.view_make] at hab ⊢
    cases hv : v.view a with
    | none => rfl
    | some s =>
      simp only [hv] at hab ⊢
      split at hab
      · cases hab
      · rename_i hk
        rw [if_neg hk]
  blank_left := by
    intro a b ab hab hbl
    obtain ⟨k, text, m, rfl, rfl, rfl⟩ := fuse_eq_some hab
    rw [blank_make, List.isEmpty_iff] at hbl
    rw [hbl, List.nil_append]
  blank_right := by
    intro a b ab hab hbl
    obtain ⟨k, text, m, rfl, rfl, rfl⟩ := fuse_eq_some hab
    rw [blank_make, List.isEmpty_iff, List.append_eq_nil_iff] at hbl
    rw [blank_make, List.isEmpty_iff]
    exact hbl.2

end TextView

end Coalesce
