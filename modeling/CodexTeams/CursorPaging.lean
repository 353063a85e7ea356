import Mathlib.Data.List.DropRight
import Mathlib.Data.List.Nodup
import Mathlib.Order.Lattice
import Mathlib.Tactic.Common

/-! Listing a sequence page by page, where the next page starts at the first element whose stamp is
less than the cursor. When is every item listed once and in order? -/
namespace CursorPaging

open List Option

variable {α β τ : Type*}

/-- The items of some pages, up to the first page without a cursor. -/
inductive Lists (page : Option τ → List β × Option τ) : Option τ → List β → Prop where
  | last {anchor} : (page anchor).2 = none → Lists page anchor (page anchor).1
  | next {anchor cursor items} : (page anchor).2 = some cursor → Lists page (some cursor) items →
      Lists page anchor ((page anchor).1 ++ items)

theorem lists_of_none (h : (p a).2 = none) : Lists p a items ↔ items = (p a).1 := by
  constructor
  · intro hl
    cases hl with
    | last _ => rfl
    | next hn _ => cases h.symm.trans hn
  · rintro rfl
    exact .last h

theorem lists_of_some (h : (p a).2 = some cr) :
    Lists p a ((p a).1 ++ items) ↔ Lists p (some cr) items := by
  constructor
  · intro hl
    generalize ha : (p a).1 ++ items = all at hl
    cases hl with
    | last hls => cases h.symm.trans hls
    | next hn hr =>
      obtain rfl := some.inj (h.symm.trans hn)
      rwa [append_cancel_left ha]
  · exact .next h

def fill (item : α → Option β) : ℕ → List α → List β × Bool
  | _, [] => ([], false)
  | 0, _ :: _ => ([], true)
  | wanted + 1, a :: rest =>
    match item a with
    | none => fill item (wanted + 1) rest
    | some b => (b :: (fill item wanted rest).1, (fill item wanted rest).2)

theorem fill_zero (l : List α) : fill i 0 l = ([], !l.isEmpty) := by
  cases l <;> rfl

theorem fill_of_short (h : (l.filterMap i).length < wanted) :
    fill i wanted l = (l.filterMap i, false) := by
  induction l generalizing wanted with
  | nil => cases wanted <;> rfl
  | cons a rest ih =>
    cases wanted with
    | zero => omega
    | succ wanted =>
      cases ha : i a with
      | none =>
        rw [filterMap_cons_none ha] at h ⊢
        rw [fill, ha]
        exact ih h
      | some b =>
        rw [filterMap_cons_some ha, length_cons] at h
        rw [fill, ha, filterMap_cons_some ha]
        have hs : (rest.filterMap i).length < wanted := by omega
        simp [ih hs]

theorem exists_filling (h : wanted < (l.filterMap i).length) :
    ∃ fr a b rest, l = fr ++ a :: rest ∧ i a = some b ∧ (fr.filterMap i).length = wanted := by
  induction l generalizing wanted with
  | nil => simp at h
  | cons a rest ih =>
    cases ha : i a with
    | none =>
      rw [filterMap_cons_none ha] at h
      obtain ⟨fr, c, b, after, rfl, hc, hl⟩ := ih h
      exact ⟨a :: fr, c, b, after, rfl, hc, by rw [filterMap_cons_none ha, hl]⟩
    | some b =>
      cases wanted with
      | zero => exact ⟨[], a, b, rest, rfl, ha, rfl⟩
      | succ wanted =>
        rw [filterMap_cons_some ha, length_cons] at h
        have hm : wanted < (rest.filterMap i).length := by omega
        obtain ⟨fr, c, d, after, rfl, hc, hl⟩ := ih hm
        refine ⟨a :: fr, c, d, after, rfl, hc, ?_⟩
        rw [filterMap_cons_some ha, length_cons, hl]

theorem fill_of_filled (ha : i a = some b) :
    fill i ((fr.filterMap i).length + 1) (fr ++ a :: rest) =
      (fr.filterMap i ++ [b], !rest.isEmpty) := by
  induction fr with
  | nil => simp [fill, ha, fill_zero]
  | cons c fr ih =>
    cases hc : i c with
    | none =>
      rw [filterMap_cons_none hc, cons_append, fill, hc]
      exact ih
    | some d =>
      rw [filterMap_cons_some hc, cons_append, fill, hc]
      simp [ih]

variable [LinearOrder τ]

section Paging

variable (order : List α) (stamp : α → τ) (item : α → Option β) (cursorOf : β → Option τ)
  (size : ℕ)

def after : Option τ → List α
  | none => order
  | some cursor => order.dropWhile fun a => cursor ≤ stamp a

def page (anchor : Option τ) : List β × Option τ :=
  let filled := fill item size (after order stamp anchor)
  (filled.1, if filled.2 then filled.1.getLast?.bind cursorOf else none)

/-- The page after an item starts right after it: the cursor leaves out the item and none of the
later ones, or there are no later ones. -/
def CleanCut (a : α) (b : β) (rest : List α) : Prop :=
  rest ≠ [] →
    match cursorOf b with
    | none => ∀ later ∈ rest, item later = none
    | some cursor => cursor ≤ stamp a ∧
      ∀ later ∈ rest, (item later).isSome → stamp later < cursor

def CleanCuts : Prop :=
  ∀ front a b rest, order = front ++ a :: rest → item a = some b →
    size ∣ (front.filterMap item).length + 1 → CleanCut stamp item cursorOf a b rest

end Paging

variable {order : List α} {st : α → τ} {item : α → Option β} {size : ℕ}

theorem page_of_short (h : ((after order st ac).filterMap item).length < size) :
    page order st item co size ac = ((after order st ac).filterMap item, none) := by
  rw [page, fill_of_short h]
  rfl

theorem page_of_filled (haf : after order st ac = fr ++ a :: rest) (ha : item a = some b)
    (hsize : (fr.filterMap item).length + 1 = size) :
    page order st item co size ac =
      (fr.filterMap item ++ [b], if rest = [] then none else co b) := by
  rw [page, haf, ← hsize, fill_of_filled ha]
  cases rest <;> simp

theorem exists_filled_page (hsize : 0 < size)
    (h : ¬ ((after order st ac).filterMap item).length < size) :
    ∃ fr a b rest, after order st ac = fr ++ a :: rest ∧ item a = some b ∧
      (fr.filterMap item).length + 1 = size ∧ page order st item co size ac =
        (fr.filterMap item ++ [b], if rest = [] then none else co b) := by
  have hm : size - 1 < ((after order st ac).filterMap item).length := by omega
  obtain ⟨fr, a, b, rest, haf, ha, hl⟩ := exists_filling hm
  have hf : (fr.filterMap item).length + 1 = size := by omega
  exact ⟨fr, a, b, rest, haf, ha, hf, page_of_filled haf ha hf⟩

theorem Lists.head? (hsize : 0 < size) (h : Lists (page order st item co size) ac items) :
    items.head? = ((after order st ac).filterMap item).head? := by
  by_cases hs : ((after order st ac).filterMap item).length < size
  · have hp : page order st item co size ac = _ := page_of_short hs
    rw [lists_of_none (by rw [hp]), hp] at h
    rw [h]
  · obtain ⟨fr, a, b, rest, haf, ha, -, hp⟩ := exists_filled_page hsize hs
    have hf : ∀ m, (fr.filterMap item ++ [b] ++ m).head? =
        ((after order st ac).filterMap item).head? := by
      intro m
      rw [haf, filterMap_append, filterMap_cons_some ha]
      cases fr.filterMap item <;> rfl
    cases h with
    | last _ =>
      have hl := hf []
      rw [append_nil] at hl
      rwa [hp]
    | next _ _ =>
      rw [hp]
      exact hf _

section Sorted

variable {rest : List α}

theorem after_of_le (hsorted : order.Pairwise fun a b => st b ≤ st a) (ho : order = f ++ a :: rest)
    (h : cr ≤ st a) : after order st (some cr) = rest.dropWhile fun b => cr ≤ st b := by
  subst ho
  have hf : ∀ b ∈ f ++ [a], decide (cr ≤ st b) = true := by
    intro b hb
    rw [decide_eq_true_eq]
    rcases mem_append.mp hb with hb | hb
    · have hle := (pairwise_append.mp hsorted).2.2 b hb a mem_cons_self
      exact le_trans h hle
    · rwa [mem_singleton.mp hb]
  rw [append_cons]
  exact dropWhile_append_of_pos hf

theorem after_of_lt (ho : order = f ++ a :: rest) (h : st a < cr) :
    ∃ k, after order st (some cr) = k ++ a :: rest := by
  subst ho
  have hs : (a :: rest).dropWhile (fun b => decide (cr ≤ st b)) = a :: rest := by
    simp [h]
  rw [after, dropWhile_append, hs]
  split
  · exact ⟨[], rfl⟩
  · exact ⟨_, rfl⟩

theorem filterMap_dropWhile (h : ∀ later ∈ rest, (item later).isSome → st later < cr) :
    ∃ s, rest = s ++ rest.dropWhile (fun b => decide (cr ≤ st b)) ∧ s.filterMap item = [] := by
  refine ⟨rest.takeWhile fun b => decide (cr ≤ st b), takeWhile_append_dropWhile.symm, ?_⟩
  rw [filterMap_eq_nil_iff]
  intro later hl
  rw [← not_isSome_iff_eq_none]
  intro hsm
  have hs : cr ≤ st later := by
    simpa using mem_takeWhile_imp hl
  have hm : later ∈ rest := (List.takeWhile_prefix _).subset hl
  exact absurd (h later hm hsm) (not_lt_of_ge hs)

theorem not_head_of_nodup {head : β} (hnodup : (xs ++ b :: ys).Nodup)
    (hh : (xs ++ b :: ys).head? = some head) : head ∉ ys := by
  intro hys
  cases xs with
  | nil =>
    obtain rfl : b = head := some.inj hh
    exact (nodup_cons.mp hnodup).1 hys
  | cons x xs =>
    obtain rfl : x = head := some.inj hh
    exact (nodup_cons.mp hnodup).1 (mem_append_right _ (mem_cons_of_mem _ hys))

theorem cleanCut_of_lists (hsorted : order.Pairwise fun a b => st b ≤ st a)
    (hnodup : (order.filterMap item).Nodup) (hsize : 0 < size)
    (ho : order = f ++ a :: rest) (ha : item a = some b)
    (hls : Lists (page order st item co size) (some cr) (rest.filterMap item)) :
    cr ≤ st a ∧ ∀ later ∈ rest, (item later).isSome → st later < cr := by
  have hh := hls.head? hsize
  by_cases hle : cr ≤ st a
  · refine ⟨hle, ?_⟩
    intro later hl hsm
    by_contra hnt
    have hst : cr ≤ st later := le_of_not_gt hnt
    obtain ⟨bf, behind, rfl⟩ := append_of_mem hl
    obtain ⟨d, hd⟩ := isSome_iff_exists.mp hsm
    have hs : order = (f ++ a :: bf) ++ later :: behind := by
      rw [ho, append_assoc, cons_append]
    have hp : (bf ++ later :: behind).Sublist order := by
      rw [ho]
      exact (sublist_cons_self a _).trans (sublist_append_right f _)
    have hi := hnodup.sublist (hp.filterMap item)
    rw [filterMap_append, filterMap_cons_some hd] at hi hh
    rw [after_of_le hsorted hs hst] at hh
    -- the first item of the rest stands before or at this one, the listed one behind it
    cases hn : ((behind.dropWhile fun c => decide (cr ≤ st c)).filterMap item).head? with
    | none => simp [hn] at hh
    | some head =>
      refine not_head_of_nodup hi (hh.trans hn) ?_
      exact ((dropWhile_suffix _).sublist.filterMap item).subset (mem_of_head? hn)
  · obtain ⟨k, hk⟩ := after_of_lt ho (lt_of_not_ge hle)
    have hp : (k ++ a :: rest).Sublist order := by
      rw [← hk]
      exact (dropWhile_suffix _).sublist
    have hi := hnodup.sublist (hp.filterMap item)
    rw [filterMap_append, filterMap_cons_some ha] at hi
    rw [hk, filterMap_append, filterMap_cons_some ha] at hh
    cases hf : (rest.filterMap item).head? with
    | none => simp [hf] at hh
    | some head =>
      exact absurd (mem_of_head? hf) (not_head_of_nodup hi (hh.symm.trans hf))

end Sorted

theorem cleanCuts_of_short (h : (l.filterMap item).length < size) :
    CleanCuts l st item co size := by
  rintro fr a b rest rfl ha hd
  rw [filterMap_append, filterMap_cons_some ha, length_append, length_cons] at h
  have hle := Nat.le_of_dvd (Nat.succ_pos _) hd
  omega

theorem cleanCuts_of_filled (ha : item a = some b) (hl : (fr.filterMap item).length + 1 = size) :
    CleanCuts (fr ++ a :: rest) st item co size ↔
      CleanCut st item co a b rest ∧ CleanCuts rest st item co size := by
  constructor
  · intro hc
    refine ⟨hc fr a b rest rfl ha ⟨1, by omega⟩, ?_⟩
    rintro fr' a' b' rest' rfl ha' hd
    refine hc (fr ++ a :: fr') a' b' rest' (by simp) ha' ?_
    rw [filterMap_append, filterMap_cons_some ha, length_append, length_cons]
    have hs : (fr.filterMap item).length + ((fr'.filterMap item).length + 1) + 1 =
        size + ((fr'.filterMap item).length + 1) := by omega
    rw [hs]
    exact (Nat.dvd_add_right (Nat.dvd_refl size)).mpr hd
  · rintro ⟨hf, hc⟩ fr' a' b' rest' ho ha' hd
    rcases append_eq_append_iff.mp ho with ⟨m, hm, hr⟩ | ⟨m, hm, hr⟩
    · cases m with obtain ⟨rfl, rfl⟩ := List.cons.inj hr
      | nil =>
        obtain rfl := some.inj (ha.symm.trans ha')
        exact hf
      | cons c m =>
        refine hc m a' b' rest' rfl ha' ?_
        rw [hm, filterMap_append, filterMap_cons_some ha, length_append, length_cons] at hd
        have hs : (fr.filterMap item).length + ((m.filterMap item).length + 1) + 1 =
            size + ((m.filterMap item).length + 1) := by omega
        rw [hs] at hd
        exact (Nat.dvd_add_right (Nat.dvd_refl size)).mp hd
    · cases m with
      | nil =>
        obtain ⟨rfl, rfl⟩ := List.cons.inj hr
        obtain rfl := some.inj (ha.symm.trans ha')
        exact hf
      | cons c m =>
        -- a cut before the page is full
        obtain ⟨rfl, -⟩ := List.cons.inj hr
        rw [hm, filterMap_append, filterMap_cons_some ha', length_append, length_cons] at hl
        have hle := Nat.le_of_dvd (Nat.succ_pos _) hd
        omega

section Complete

variable (hsorted : order.Pairwise fun a b => st b ≤ st a)
  (hnodup : (order.filterMap item).Nodup) (hsize : 0 < size)
include hsorted hnodup hsize

theorem lists_rest_iff (ho : order = d ++ rest) (hr : rest = s ++ after order st ac)
    (hsk : s.filterMap item = []) :
    Lists (page order st item co size) ac (rest.filterMap item) ↔
      CleanCuts rest st item co size := by
  induction hn : rest.length using Nat.strong_induction_on
    generalizing d rest s ac with
  | _ n ih =>
    subst hn
    have hi : rest.filterMap item = (after order st ac).filterMap item := by
      conv_lhs => rw [hr]
      rw [filterMap_append, hsk, nil_append]
    by_cases hsh : ((after order st ac).filterMap item).length < size
    · have hp : page order st item co size ac = _ := page_of_short hsh
      rw [lists_of_none (by rw [hp]), hp, hi]
      exact iff_of_true rfl (cleanCuts_of_short (hi ▸ hsh))
    obtain ⟨fr, a, b, later, haf, ha, hln, hp⟩ := exists_filled_page hsize hsh
    rw [haf, ← append_assoc] at hr
    rw [haf, filterMap_append, filterMap_cons_some ha, append_cons] at hi
    have hfr : ((s ++ fr).filterMap item).length + 1 = size := by
      rw [filterMap_append, hsk, nil_append, hln]
    conv_rhs => rw [hr]
    rw [cleanCuts_of_filled ha hfr, hi]
    by_cases hl : later = []
    · subst hl
      rw [lists_of_none (by rw [hp]; rfl), hp, filterMap_nil, append_nil]
      exact iff_of_true rfl ⟨absurd rfl, cleanCuts_of_short hsize⟩
    rw [if_neg hl] at hp
    cases hcr : co b with
    | none =>
      rw [lists_of_none (by rw [hp, hcr]), hp, append_right_eq_self,
        filterMap_eq_nil_iff, CleanCut, hcr]
      constructor
      · intro hnn
        refine ⟨fun _ => hnn, cleanCuts_of_short ?_⟩
        rwa [filterMap_eq_nil_iff.mpr hnn]
      · intro hc
        exact hc.1 hl
    | some cr =>
      have hs : order = (d ++ (s ++ fr)) ++ a :: later := by
        rw [ho, append_assoc, ← hr]
      have hsr : later.length < rest.length := by
        rw [hr, length_append, length_cons]
        omega
      have hnx : (page order st item co size ac).2 = some cr := by
        rw [hp, hcr]
      have hf : fr.filterMap item ++ [b] = (page order st item co size ac).1 := by
        rw [hp]
      rw [hf, lists_of_some hnx, CleanCut, hcr]
      have hlists_iff : (cr ≤ st a ∧ ∀ next ∈ later, (item next).isSome → st next < cr) →
          (Lists (page order st item co size) (some cr) (later.filterMap item) ↔
            CleanCuts later st item co size) := by
        rintro ⟨hle, hles⟩
        obtain ⟨left, hlf, hnn⟩ := filterMap_dropWhile hles
        rw [← after_of_le hsorted hs hle] at hlf
        rw [append_cons] at hs
        exact ih later.length hsr hs hlf hnn rfl
      constructor
      · intro hls
        have hc := cleanCut_of_lists hsorted hnodup hsize hs ha hls
        exact ⟨fun _ => hc, (hlists_iff hc).mp hls⟩
      · rintro ⟨hc, hct⟩
        exact (hlists_iff (hc hl)).mpr hct

/-- Following the cursors lists every item once and in order exactly if every page is cut clean. -/
theorem lists_iff_cleanCuts : Lists (page order st item co size) none (order.filterMap item) ↔
      CleanCuts order st item co size := by
  have ha : order = [] ++ after order st none := rfl
  exact lists_rest_iff hsorted hnodup hsize ha ha rfl

end Complete

end CursorPaging
