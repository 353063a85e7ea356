import Mathlib.Data.List.Induction
import Mathlib.Data.List.TakeWhile
import Mathlib.Order.Lattice

/-! Position-based edits of a list, sorted by where they start and applied from the last to the
first. Windows that follow one another leave exactly the elements outside all windows. -/
namespace ListEdits

open List Nat List.Pairwise

variable {α : Type*}

structure Edit (α : Type*) where
  start : ℕ
  oldLen : ℕ
  new : List α
  deriving DecidableEq, Repr

def Edit.stop (e : Edit α) : ℕ := e.start + e.oldLen

def applyEdit (e : Edit α) (l : List α) : List α := l.take e.start ++ (e.new ++ l.drop e.stop)

section

variable (l : List α)

/-- The last edit is applied first, so that earlier positions stay valid. -/
def applyEdits (es : List (Edit α)) : List α := es.foldr applyEdit l

/-- New elements in place, and the elements from a position on that no window covers. -/
def splice : ℕ → List (Edit α) → List α
  | pos, [] => l.drop pos
  | pos, e :: es => (l.take e.start).drop pos ++ (e.new ++ splice (max pos e.stop) es)

/-- Windows without a common position, and no insertion point strictly inside a window. -/
structure Apart (a b : Edit α) : Prop where
  windows : ∀ i, a.start ≤ i → i < a.stop → b.start ≤ i → i < b.stop → False
  left : a.oldLen = 0 → ¬(b.start < a.start ∧ a.start < b.stop)
  right : b.oldLen = 0 → ¬(a.start < b.start ∧ b.start < a.stop)

def Before (a b : Edit α) : Prop := a.stop ≤ b.start

theorem Before.apart (h : Before a b) : Apart a b := by
  unfold Before Edit.stop at h
  refine ⟨fun i h₁ h₂ h₃ h₄ => ?_, fun _ h' => ?_, fun _ h' => ?_⟩
  · unfold Edit.stop at h₂; omega
  · omega
  · unfold Edit.stop at h'; omega

/-- Sorted windows that are apart follow one another, or the second is an insertion at the
first one's start. -/
theorem Apart.before_or (h : Apart a b) (hle : a.start ≤ b.start) :
    Before a b ∨ (a.start = b.start ∧ a.oldLen ≠ 0 ∧ b.oldLen = 0) := by
  by_contra hc
  obtain ⟨hbf, hs⟩ := not_or.mp hc
  unfold Before at hbf
  by_cases hb : b.oldLen = 0
  · have hi := h.right hb
    unfold Edit.stop at hbf hi
    omega
  · refine h.windows b.start hle (by omega) le_rfl ?_
    unfold Edit.stop
    omega

theorem applyEdits_cons (e : Edit α) (es : List (Edit α)) :
    applyEdits l (e :: es) = applyEdit e (applyEdits l es) := rfl

theorem applyEdits_append (es fs : List (Edit α)) :
    applyEdits l (es ++ fs) = applyEdits (applyEdits l fs) es :=
  foldr_append ..

end

variable {es : List (Edit α)}

theorem take_applyEdits (hp : pos ≤ l.length) (h : ∀ e ∈ es, pos ≤ e.start) :
    (applyEdits l es).take pos = l.take pos := by
  induction es with
  | nil => rfl
  | cons e es ih =>
    have hs := h e mem_cons_self
    have hr := ih fun f hf => h f (mem_cons_of_mem e hf)
    have hl : pos ≤ ((applyEdits l es).take e.start).length := by
      have hle := congrArg List.length hr
      rw [length_take, length_take] at hle
      rw [length_take]
      omega
    rw [applyEdits_cons, applyEdit, take_append_of_le_length hl, take_take, min_eq_left hs, hr]

theorem applyEdit_take_append {l r : List α} (h : e.stop ≤ l.length) :
    applyEdit e (l.take e.stop ++ r) = l.take e.start ++ (e.new ++ r) := by
  have hl : (l.take e.stop).length = e.stop := by simpa using h
  have hle : e.start ≤ e.stop := Nat.le_add_right ..
  rw [applyEdit, drop_left' hl, take_append_of_le_length (by omega), take_take, min_eq_left hle]

/-- Consecutive windows: applying the edits is splicing. -/
theorem applyEdits_eq_splice (hp : es.Pairwise Before) (hb : ∀ e ∈ es, e.stop ≤ l.length) :
    ∀ pos, (∀ e ∈ es, pos ≤ e.start) → applyEdits l es = l.take pos ++ splice l pos es := by
  induction es with
  | nil =>
    intro pos _
    exact (take_append_drop pos l).symm
  | cons e es ih =>
    intro pos hps
    have hst := hps e mem_cons_self
    have hsp := hb e mem_cons_self
    have hle : e.start ≤ e.stop := Nat.le_add_right ..
    have hr := ih (of_cons hp) (fun f hf => hb f (mem_cons_of_mem e hf)) e.stop
      (fun f hf => rel_of_pairwise_cons hp hf)
    have hs : l.take pos ++ (l.take e.start).drop pos = l.take e.start := by
      have h := take_append_drop pos (l.take e.start)
      rwa [take_take, min_eq_left hst] at h
    rw [applyEdits_cons, hr, applyEdit_take_append hsp, splice,
      max_eq_right (by omega), ← append_assoc _ _ (e.new ++ _), hs]

theorem splice_append_right : ∀ {pos}, (∀ e ∈ es, e.stop ≤ l.length) → pos ≤ l.length →
      splice (l ++ r) pos es = splice l pos es ++ r := by
  induction es with
  | nil =>
    intro pos _ hp
    rw [splice, splice, drop_append_of_le_length hp]
  | cons e es ih =>
    intro pos hb hp
    have hs := hb e mem_cons_self
    have hle : e.start ≤ e.stop := Nat.le_add_right ..
    have hr := ih (fun f hf => hb f (mem_cons_of_mem e hf)) (max_le hp hs)
    rw [splice, splice, take_append_of_le_length (by omega), hr]
    simp

section Sorting

def insertByStart (e : Edit α) (es : List (Edit α)) : List (Edit α) :=
  es.takeWhile (·.start ≤ e.start) ++ e :: es.dropWhile (·.start ≤ e.start)

def sortByStart (es : List (Edit α)) : List (Edit α) := es.foldl (fun s e => insertByStart e s) []

variable (es : List (Edit α))

theorem sortByStart_concat (e : Edit α) :
    sortByStart (es ++ [e]) = insertByStart e (sortByStart es) := by
  simp [sortByStart]

theorem insertByStart_perm (e : Edit α) (es : List (Edit α)) :
    (insertByStart e es).Perm (e :: es) := by
  have h : (insertByStart e es).Perm
      (e :: (es.takeWhile (·.start ≤ e.start) ++ es.dropWhile (·.start ≤ e.start))) :=
    perm_middle
  rwa [takeWhile_append_dropWhile] at h

theorem sortByStart_perm : (sortByStart es).Perm es := by
  induction es using List.reverseRecOn with
  | nil => exact List.Perm.refl _
  | append_singleton es e ih =>
    rw [sortByStart_concat]
    exact (insertByStart_perm e _).trans ((ih.cons e).trans (perm_append_singleton e es).symm)

theorem mem_dropWhile_start {e : Edit α} {es : List (Edit α)} (hs : es.Pairwise (·.start ≤ ·.start))
    (hf : f ∈ es.dropWhile (·.start ≤ e.start)) : e.start < f.start := by
  induction es with
  | nil => cases hf
  | cons g es ih =>
    rw [dropWhile_cons] at hf
    split at hf
    · exact ih (of_cons hs) hf
    · next hg =>
      rw [decide_eq_true_eq, not_le] at hg
      rcases mem_cons.mp hf with rfl | hf
      · exact hg
      · exact lt_of_lt_of_le hg (rel_of_pairwise_cons hs hf)

theorem pairwise_insertByStart {es : List (Edit α)} (hs : es.Pairwise (·.start ≤ ·.start)) :
    (insertByStart e es).Pairwise Q ↔
      es.Pairwise Q ∧ ∀ a ∈ es, if a.start ≤ e.start then Q a e else Q e a := by
  have hfr : ∀ a ∈ es.takeWhile (·.start ≤ e.start), a.start ≤ e.start := by
    intro a ha
    simpa using mem_takeWhile_imp ha
  have hbc : ∀ a ∈ es.dropWhile (·.start ≤ e.start), ¬a.start ≤ e.start :=
    fun a ha => not_le.mpr (mem_dropWhile_start hs ha)
  have hsp : es.takeWhile (·.start ≤ e.start) ++ es.dropWhile (·.start ≤ e.start) = es :=
    takeWhile_append_dropWhile
  have hp : es.Pairwise Q ↔ (es.takeWhile (·.start ≤ e.start) ++
      es.dropWhile (·.start ≤ e.start)).Pairwise Q := by rw [hsp]
  have hm : ∀ a, a ∈ es ↔ a ∈ es.takeWhile (·.start ≤ e.start) ∨
      a ∈ es.dropWhile (·.start ≤ e.start) := by
    intro a
    rw [← mem_append, hsp]
  rw [insertByStart, pairwise_append, pairwise_cons, hp, pairwise_append]
  constructor
  · rintro ⟨hf, ⟨heb, hb⟩, hfb⟩
    refine ⟨⟨hf, hb, fun a ha b hb' => hfb a ha b (mem_cons_of_mem e hb')⟩, fun a ha => ?_⟩
    rcases (hm a).mp ha with ha | ha
    · rw [if_pos (hfr a ha)]
      exact hfb a ha e mem_cons_self
    · rw [if_neg (hbc a ha)]
      exact heb a ha
  · rintro ⟨⟨hf, hb, hfb⟩, he⟩
    refine ⟨hf, ⟨fun b hb' => ?_, hb⟩, fun a ha b hb' => ?_⟩
    · have h := he b ((hm b).mpr (.inr hb'))
      rwa [if_neg (hbc b hb')] at h
    · rcases mem_cons.mp hb' with rfl | hb'
      · have h := he a ((hm a).mpr (.inl ha))
        rwa [if_pos (hfr a ha)] at h
      · exact hfb a ha b hb'

theorem sortByStart_sorted : (sortByStart es).Pairwise (·.start ≤ ·.start) := by
  induction es using List.reverseRecOn with
  | nil => exact nil
  | append_singleton es e ih =>
    rw [sortByStart_concat, pairwise_insertByStart ih]
    refine ⟨ih, fun a _ => ?_⟩
    split
    · assumption
    · omega

theorem pairwise_sortByStart : (sortByStart es).Pairwise Q ↔
      es.Pairwise fun a b => if a.start ≤ b.start then Q a b else Q b a := by
  induction es using List.reverseRecOn with
  | nil => simp [sortByStart]
  | append_singleton es e ih =>
    rw [sortByStart_concat, pairwise_insertByStart (sortByStart_sorted es), ih, pairwise_append]
    have hm : ∀ a, a ∈ sortByStart es ↔ a ∈ es := fun a => (sortByStart_perm es).mem_iff
    simp [hm]

end Sorting

def news (es : List (Edit α)) : List α := es.flatMap (·.new)

theorem splice_insertions (h : ∀ e ∈ es, e.start ≤ pos ∧ e.stop ≤ pos) :
    splice l pos (es ++ fs) = news es ++ splice l pos fs := by
  induction es with
  | nil => rfl
  | cons e es ih =>
    obtain ⟨hst, hs⟩ := h e mem_cons_self
    have he : (l.take e.start).drop pos = [] := by
      rw [drop_eq_nil_iff, length_take]
      omega
    rw [cons_append, splice, he, max_eq_left hs, ih fun f hf => h f (mem_cons_of_mem e hf)]
    simp [news]

theorem split_insertions (hs : es.Pairwise (·.start ≤ ·.start))
    (h : ∀ e ∈ es, p ≤ e.start ∧ e.start ≤ p + 1) :
    ∃ js ks, es = js ++ ks ∧ (∀ e ∈ js, e.start = p) ∧ ∀ e ∈ ks, e.start = p + 1 := by
  induction es with
  | nil => exact ⟨[], [], rfl, by simp, by simp⟩
  | cons e es ih =>
    have hh := h e mem_cons_self
    by_cases he : e.start = p
    · obtain ⟨js, ks, rfl, hjs, hks⟩ := ih (of_cons hs) fun f hf => h f (mem_cons_of_mem e hf)
      refine ⟨e :: js, ks, rfl, fun f hf => ?_, hks⟩
      rcases mem_cons.mp hf with rfl | hf
      · exact he
      · exact hjs f hf
    · refine ⟨[], e :: es, rfl, by simp, fun f hf => ?_⟩
      have hf' := h f hf
      rcases mem_cons.mp hf with rfl | hf
      · omega
      · have := rel_of_pairwise_cons hs hf
        omega

theorem shift_eq_self : (ys ++ x :: zs).tail = ys ++ zs ↔ ∀ y ∈ ys, y = x := by
  induction ys with
  | nil => simp
  | cons y ys ih =>
    rw [cons_append, tail_cons, cons_append]
    cases ys with
    | nil => simp [eq_comm]
    | cons y' ys =>
      rw [cons_append, cons_append, List.cons.injEq, ← cons_append]
      have ht : (y' :: ys ++ x :: zs).tail = ys ++ x :: zs := rfl
      rw [ht] at ih
      rw [ih]
      constructor
      · rintro ⟨rfl, h⟩ z hz
        rcases mem_cons.mp hz with rfl | hz
        · exact h z mem_cons_self
        · exact h z hz
      · intro h
        refine ⟨?_, fun z hz => h z (mem_cons_of_mem y hz)⟩
        rw [h y mem_cons_self, h y' (by simp)]

theorem splice_append_cons :
    ∀ {pos}, (∀ e ∈ es, e.stop ≤ a.start) → pos ≤ a.start → splice l pos (es ++ a :: fs) =
        splice (l.take a.start) pos es ++ (a.new ++ splice l a.stop fs) := by
  induction es with
  | nil =>
    intro pos _ hp
    have hle : a.start ≤ a.stop := Nat.le_add_right ..
    rw [nil_append, splice, splice, max_eq_right (by omega)]
  | cons e es ih =>
    intro pos hb hp
    have hs := hb e mem_cons_self
    have hle : e.start ≤ e.stop := Nat.le_add_right ..
    have hr := ih (fun f hf => hb f (mem_cons_of_mem e hf)) (max_le hp hs)
    rw [cons_append, splice, splice, hr, take_take, min_eq_left (by omega)]
    simp

/-- A window on the last element with insertions at its start behind it: the insertions are
applied first, and the window then takes away the first new element for the old one. -/
theorem overtaken {x : α} {b : List (Edit α)} (hbf : b.Pairwise Before)
    (hb : ∀ e ∈ b, e.stop ≤ l.length) (ha : a.start = l.length) (hln : a.oldLen = 1)
    (hs : af.Pairwise (·.start ≤ ·.start))
    (haf : ∀ e ∈ af, e.oldLen = 0 ∧ l.length ≤ e.start ∧ e.start ≤ l.length + 1) :
    ∃ ys zs, (∀ y, y ∈ ys ↔ ∃ e ∈ af, e.start = l.length ∧ y ∈ e.new) ∧
      applyEdits (l ++ [x]) (b ++ a :: af) = splice l 0 b ++ (a.new ++ (ys ++ x :: zs).tail) ∧
      splice (l ++ [x]) 0 (b ++ a :: af) = splice l 0 b ++ (a.new ++ (ys ++ zs)) := by
  obtain ⟨js, ks, rfl, hjs, hks⟩ := split_insertions hs fun e he => (haf e he).2
  have hjs' : ∀ e ∈ js, e.stop = l.length := by
    intro e he
    have hz := (haf e (mem_append_left ks he)).1
    rw [Edit.stop, hjs e he, hz, Nat.add_zero]
  have hks' : ∀ e ∈ ks, e.stop = l.length + 1 := by
    intro e he
    have hz := (haf e (mem_append_right js he)).1
    rw [Edit.stop, hks e he, hz]
  have hl : (l ++ [x]).drop l.length = [x] := drop_left
  have hen : ∀ fs, splice (l ++ [x]) (l.length + 1) (ks ++ fs) =
      news ks ++ splice (l ++ [x]) (l.length + 1) fs := fun fs =>
    splice_insertions fun e he => ⟨(hks e he).le, (hks' e he).le⟩
  have hr : splice (l ++ [x]) l.length (js ++ ks) = news js ++ x :: news ks := by
    rw [splice_insertions fun e he => ⟨(hjs e he).le, (hjs' e he).le⟩]
    congr 1
    cases ks with
    | nil => exact hl
    | cons k ks =>
      have hk := hks k mem_cons_self
      have hk' := hks' k mem_cons_self
      have ht : splice (l ++ [x]) (l.length + 1) (ks ++ []) =
          news ks ++ splice (l ++ [x]) (l.length + 1) [] := splice_insertions fun e he =>
        ⟨(hks e (mem_cons_of_mem k he)).le, (hks' e (mem_cons_of_mem k he)).le⟩
      rw [append_nil] at ht
      rw [splice, hk, hk', max_eq_right (by omega), ht, take_of_length_le (by simp)]
      simp [splice, news]
  refine ⟨news js, news ks, ?_, ?_, ?_⟩
  · intro y
    simp only [news, mem_flatMap, mem_append]
    constructor
    · rintro ⟨e, he, hy⟩
      exact ⟨e, .inl he, hjs e he, hy⟩
    · rintro ⟨e, he | he, hsr, hy⟩
      · exact ⟨e, he, hy⟩
      · have := hks e he
        omega
  · have haf' : applyEdits (l ++ [x]) (js ++ ks) = l ++ (news js ++ x :: news ks) := by
      have hsp : (js ++ ks).Pairwise Before := by
        refine hs.imp_of_mem fun {e f} he _ hef => ?_
        rw [Before, Edit.stop, (haf e he).1]
        exact hef
      rw [applyEdits_eq_splice hsp (fun e he => ?_) l.length (fun e he => (haf e he).2.1),
        hr, take_left]
      have h := haf e he
      rw [Edit.stop, length_append, length_singleton]
      omega
    have ho : applyEdit a (l ++ (news js ++ x :: news ks)) =
        l ++ (a.new ++ (news js ++ x :: news ks).tail) := by
      rw [applyEdit, Edit.stop, ha, hln]
      simp
    rw [applyEdits_append, applyEdits_cons, haf', ho,
      applyEdits_eq_splice hbf (fun e he => ?_) 0 (by simp), take_zero,
      nil_append, splice_append_right hb (zero_le _)]
    have := hb e he
    rw [length_append]
    omega
  · have hbn : ∀ e ∈ b, e.stop ≤ a.start := fun e he => ha.symm ▸ hb e he
    have hst : a.stop = l.length + 1 := by rw [Edit.stop, ha, hln]
    have hal : splice (l ++ [x]) (l.length + 1) (js ++ ks) = news js ++ news ks := by
      rw [splice_insertions fun e he => ⟨by rw [hjs e he]; omega, by rw [hjs' e he]; omega⟩]
      have h := hen []
      rw [append_nil] at h
      rw [h]
      simp [splice]
    rw [splice_append_cons hbn (zero_le _), hst, ha, take_left, hal]

end ListEdits
