import CodexTeams.TextEditing
import Mathlib.Data.List.Pairwise

/-! What the edits of the text area keep: elements in order, apart and on character boundaries, and
a cursor outside of them. -/
namespace TextEditing

open RustStr SizedLists Utf8 StableSort List EditArea Nat Function

def Apart (e f : TextElement) : Prop := e.stop ≤ f.start ∨ f.stop ≤ e.start

def OnCuts (text : Str) (e : TextElement) : Prop :=
  e.start ≤ e.stop ∧ IsCut utf8 text e.start ∧ IsCut utf8 text e.stop

structure Placed (text : Str) (es : List TextElement) : Prop where
  apart : es.Pairwise Apart
  onCuts : ∀ e ∈ es, OnCuts text e

/-- Elements in the order of their starts, apart from each other and on character boundaries. -/
structure Laid (text : Str) (es : List TextElement) : Prop extends Placed text es where
  sorted : es.Pairwise fun e f => e.start ≤ f.start

/-- A position on a character boundary and not strictly inside an element. -/
structure Rests (text : Str) (es : List TextElement) (pos : ℕ) : Prop where
  cut : IsCut utf8 text pos
  outside : ∀ e ∈ es, ¬ (e.start < pos ∧ pos < e.stop)

structure WellFormed (a : EditArea) : Prop where
  laid : Laid a.text a.elements
  rests : Rests a.text a.elements a.cursorPos

section

variable (h : Placed t es)

include h

theorem Placed.eq_or_apart (he : e ∈ es) (hf : f ∈ es) : e = f ∨ Apart e f := by
  have hs : Std.Symm Apart := ⟨fun _ _ h => Or.symm h⟩
  by_cases hef : e = f
  · exact .inl hef
  · exact .inr (h.apart.forall he hf hef)

theorem Placed.rests_ends (he : e ∈ es) : Rests t es e.start ∧ Rests t es e.stop := by
  obtain ⟨hl, ha, hb⟩ := h.onCuts e he
  refine ⟨⟨ha, fun f hf => ?_⟩, ⟨hb, fun f hf => ?_⟩⟩
  · rcases h.eq_or_apart he hf with rfl | hp | hp <;> omega
  · rcases h.eq_or_apart he hf with rfl | hp | hp <;> omega

theorem Placed.sort : Laid t (sortByKey TextElement.start es) := by
  have hm : (sortByKey TextElement.start es).Perm es := perm_insertionSort _ _
  refine ⟨⟨?_, fun e he => h.onCuts e (hm.mem_iff.1 he)⟩, pairwise_insertionSort _ _⟩
  exact (hm.pairwise_iff Or.symm).2 h.apart

theorem Placed.concat (hf : OnCuts t f) (ha : ∀ e ∈ es, Apart e f) : Placed t (es ++ [f]) := by
  refine ⟨pairwise_append.2 ⟨h.apart, pairwise_singleton _ _, by simpa using ha⟩, ?_⟩
  intro e he
  rcases mem_append.1 he with he | he
  · exact h.onCuts e he
  · exact mem_singleton.1 he ▸ hf

end

theorem rests_zero (t : Str) (es : List TextElement) : Rests t es 0 :=
  ⟨isCut_zero t, fun _ _ h => not_lt_zero _ h.1⟩

theorem rests_end (h : ∀ e ∈ es, e.stop ≤ byteLen t) : Rests t es (byteLen t) :=
  ⟨isCut_total t, fun e he hi => not_lt.2 (h e he) hi.2⟩

theorem Placed.rests_end (h : Placed t es) : Rests t es (byteLen t) :=
  TextEditing.rests_end fun e he => (h.onCuts e he).2.2.le_total

section Positions

variable {a : EditArea} {pos : ℕ}

theorem find_some (h : a.findElementContaining pos = some e) :
    e ∈ a.elements ∧ e.start < pos ∧ pos < e.stop :=
  ⟨mem_of_find?_eq_some h, by simpa using List.find?_some h⟩

theorem find_none : a.findElementContaining pos = none ↔
    ∀ e ∈ a.elements, ¬ (e.start < pos ∧ pos < e.stop) := by
  simp [findElementContaining]

theorem isCut_clamp (a : EditArea) (pos : ℕ) : IsCut utf8 a.text (a.clampPosToCharBoundary pos) :=
  (nearestCut_spec utf8_pos a.text pos).1

theorem rests_clamp (h : Placed a.text a.elements) (pos : ℕ) :
    Rests a.text a.elements (a.clampPosToNearestBoundary pos) := by
  unfold clampPosToNearestBoundary
  dsimp only
  split
  · next e hf =>
    obtain ⟨hs, ht⟩ := h.rests_ends (find_some hf).1
    split
    · simpa [clampPosToCharBoundary, nearestCut_of_isCut utf8_pos hs.cut] using hs
    · simpa [clampPosToCharBoundary, nearestCut_of_isCut utf8_pos ht.cut] using ht
  · next hn => exact ⟨isCut_clamp a pos, find_none.1 hn⟩

theorem clamp_of_rests (h : Rests a.text a.elements pos) :
    a.clampPosToNearestBoundary pos = pos := by
  unfold clampPosToNearestBoundary clampPosToCharBoundary
  simp [nearestCut_of_isCut utf8_pos h.cut, find_none.2 h.outside]

theorem rests_adjust (h : Placed a.text a.elements) (hc : IsCut utf8 a.text pos) (p : Bool) :
    Rests a.text a.elements (a.adjustPosOutOfElements pos p) ∧
      if p then a.adjustPosOutOfElements pos p ≤ pos else pos ≤ a.adjustPosOutOfElements pos p := by
  unfold adjustPosOutOfElements
  split
  · next e hf =>
    obtain ⟨he, hi⟩ := find_some hf
    obtain ⟨hs, ht⟩ := h.rests_ends he
    cases p with
    | true => exact ⟨hs, by simpa using le_of_lt hi.1⟩
    | false => exact ⟨ht, by simpa using le_of_lt hi.2⟩
  · next hn => exact ⟨⟨hc, find_none.1 hn⟩, by simp⟩

variable (seg : Segmentation) (h : Placed a.text a.elements)

include h

variable (hc : IsCut utf8 a.text pos)

include hc

theorem rests_prev : Rests a.text a.elements (a.prevAtomicBoundary seg pos) ∧
      a.prevAtomicBoundary seg pos ≤ pos := by
  unfold prevAtomicBoundary
  split
  · exact ⟨rests_zero _ _, zero_le _⟩
  split
  · next e hf =>
    have hi : e.start < pos ∧ pos ≤ e.stop := by simpa using List.find?_some hf
    exact ⟨(h.rests_ends (mem_of_find?_eq_some hf)).1, le_of_lt hi.1⟩
  · split
    · next b hb =>
      obtain ⟨hbc, hle⟩ := seg.prevBoundary_cut _ _ _ hc hb
      obtain ⟨hr, ha⟩ := rests_adjust h hbc true
      exact ⟨hr, le_trans ha hle⟩
    · exact ⟨rests_zero _ _, zero_le _⟩

theorem rests_next : Rests a.text a.elements (a.nextAtomicBoundary seg pos) ∧
      pos ≤ a.nextAtomicBoundary seg pos := by
  unfold nextAtomicBoundary
  split
  · exact ⟨h.rests_end, hc.le_total⟩
  split
  · next e hf =>
    have hi : e.start ≤ pos ∧ pos < e.stop := by simpa using List.find?_some hf
    exact ⟨(h.rests_ends (mem_of_find?_eq_some hf)).2, le_of_lt hi.2⟩
  · split
    · next b hb =>
      obtain ⟨hbc, hle⟩ := seg.nextBoundary_cut _ _ _ hc hb
      obtain ⟨hr, ha⟩ := rests_adjust h hbc false
      exact ⟨hr, le_trans hle ha⟩
    · exact ⟨h.rests_end, hc.le_total⟩

theorem cut_prev_iterate (n : ℕ) : IsCut utf8 a.text ((a.prevAtomicBoundary seg)^[n] pos) ∧
      (a.prevAtomicBoundary seg)^[n] pos ≤ pos := by
  induction n with
  | zero => exact ⟨hc, le_refl _⟩
  | succ n ih =>
    rw [iterate_succ_apply']
    obtain ⟨hr, hl⟩ := rests_prev seg h ih.1
    exact ⟨hr.cut, le_trans hl ih.2⟩

theorem cut_next_iterate (n : ℕ) : IsCut utf8 a.text ((a.nextAtomicBoundary seg)^[n] pos) ∧
      pos ≤ (a.nextAtomicBoundary seg)^[n] pos := by
  induction n with
  | zero => exact ⟨hc, le_refl _⟩
  | succ n ih =>
    rw [iterate_succ_apply']
    obtain ⟨hr, hl⟩ := rests_next seg h ih.1
    exact ⟨hr.cut, le_trans ih.2 hl⟩

end Positions

section Widen

variable {text : Str} {e : TextElement}

/-- Every element is outside of the range or within it. -/
def Clean (es : List TextElement) (r : Range) : Prop :=
  ∀ e ∈ es, e.stop ≤ r.start ∨ r.stop ≤ e.start ∨ r.start ≤ e.start ∧ e.stop ≤ r.stop

structure Widens (text : Str) (r w : Range) : Prop where
  start_le : w.start ≤ r.start
  le_stop : r.stop ≤ w.stop
  start_cut : IsCut utf8 text r.start → IsCut utf8 text w.start
  stop_cut : IsCut utf8 text r.stop → IsCut utf8 text w.stop

theorem Widens.refl (text : Str) (r : Range) : Widens text r r := ⟨le_refl _, le_refl _, id, id⟩

theorem widens_expandOver (he : OnCuts text e) (r : Range) : Widens text r (expandOver r e) := by
  unfold expandOver
  split
  · refine ⟨min_le_left _ _, le_max_left _ _, fun hc => ?_, fun hc => ?_⟩
    · rcases le_total r.start e.start with hl | hl <;> simp [hl, hc, he.2.1]
    · rcases le_total r.stop e.stop with hl | hl <;> simp [hl, hc, he.2.2]
  · exact .refl text r

/-- A pass over elements takes in those it meets, and stays clear of those passed before. -/
theorem clean_foldl (h : Placed text (p ++ es)) (hc : Clean p r) :
    Clean (p ++ es) (es.foldl expandOver r) ∧ Widens text r (es.foldl expandOver r) := by
  induction es generalizing p r with
  | nil => simpa using ⟨hc, .refl text r⟩
  | cons e es ih =>
    have he : e ∈ p ++ e :: es := by simp
    have hw := widens_expandOver (h.onCuts e he) r
    have hm : Clean (p ++ [e]) (expandOver r e) := by
      intro f hf
      have hfm : f ∈ p ++ e :: es := by
        simp only [mem_append, mem_cons] at hf ⊢
        tauto
      have hp := h.eq_or_apart hfm he
      have hr : f = e ∨ f ∈ p := by simpa [or_comm] using hf
      unfold Apart at hp
      unfold expandOver
      split
      · next hm =>
        obtain ⟨ha, hb⟩ := hm
        dsimp only
        rcases hp with rfl | hp
        · omega
        · rcases hr with rfl | hr
          · omega
          · have hcf := hc f hr
            omega
      · next hm =>
        unfold TextElement.Meets at hm
        rcases hr with rfl | hr
        · omega
        · exact hc f hr
    rw [append_cons] at h ⊢
    obtain ⟨ha, hb⟩ := ih h hm
    exact ⟨ha, le_trans hb.start_le hw.start_le, le_trans hw.le_stop hb.le_stop,
      hb.start_cut ∘ hw.start_cut, hb.stop_cut ∘ hw.stop_cut⟩

theorem foldl_of_clean (h : Clean es r) : es.foldl expandOver r = r := by
  induction es with
  | nil => rfl
  | cons e es ih =>
    have he : expandOver r e = r := by
      have hc := h e mem_cons_self
      unfold expandOver
      split
      · next hm =>
        obtain ⟨ha, hb⟩ := hm
        rw [min_eq_left (by omega), max_eq_left (by omega)]
      · rfl
    rw [foldl_cons, he]
    exact ih fun f hf => h f (mem_cons_of_mem e hf)

/-- The first pass takes in what the range meets, and the others change nothing. -/
theorem expand_spec (h : Placed text es) (r : Range) :
    Clean es (expandRangeToElementBoundaries es r) ∧
      Widens text r (expandRangeToElementBoundaries es r) := by
  obtain ⟨hc, hw⟩ := clean_foldl (p := []) (r := r) h (by simp [Clean])
  unfold expandRangeToElementBoundaries
  cases hl : es.length with
  | zero => simpa [length_eq_zero_iff.1 hl, Clean] using Widens.refl text r
  | succ n =>
    rw [iterate_succ_apply, iterate_fixed (foldl_of_clean hc)]
    exact ⟨hc, hw⟩

end Widen

/-- What becomes of an element beside a replaced part of the text. -/
def Moved (s k n : ℕ) (e f : TextElement) : Prop :=
  e.stop ≤ s ∧ f.start = e.start ∧ f.stop = e.stop ∨
    s + k ≤ e.start ∧ f.start + k = e.start + n ∧ f.stop + k = e.stop + n

theorem Moved.apart (hm : Moved s k n e e') (hm' : Moved s k n f f') (h : Apart e f) :
    Apart e' f' := by
  unfold Apart Moved at *
  omega

theorem Moved.onCuts (hm : Moved (total utf8 x) (total utf8 y) (total utf8 w) e f)
    (h : OnCuts (x ++ y ++ z) e) : OnCuts (x ++ w ++ z) f := by
  obtain ⟨hl, ha, hb⟩ := h
  have hra := ha.replace utf8_pos w
  have hrb := hb.replace utf8_pos w
  rcases hm with ⟨hs, hfa, hfb⟩ | ⟨hs, hfa, hfb⟩
  · exact ⟨by omega, hfa ▸ hra.1 (by omega), hfb ▸ hrb.1 hs⟩
  · rw [← hfa, Nat.add_sub_cancel] at hra
    rw [← hfb, Nat.add_sub_cancel] at hrb
    exact ⟨by omega, hra.2 hs, hrb.2 (by omega)⟩

theorem moved_shift (hc : Clean es ⟨s, s + k⟩) (n : ℕ)
    (h : e ∈ es.filter fun e => !(s ≤ e.start ∧ e.stop ≤ s + k)) :
    e ∈ es ∧ (e.start < s ∨ s + k < e.stop) ∧ Moved s k n e (shiftElement s k n e) := by
  obtain ⟨he, hn⟩ := mem_filter.1 h
  have hce := hc e he
  have hn : e.start < s ∨ s + k < e.stop := by simpa using hn
  dsimp only at hce
  refine ⟨he, hn, ?_⟩
  unfold Moved shiftElement
  split
  · next ha => exact .inl ⟨ha, rfl, rfl⟩
  · rw [if_pos (by omega)]
    dsimp only
    omega

theorem Laid.shift (h : Laid (x ++ y ++ z) es) (w : Str)
    (hc : Clean es ⟨total utf8 x, total utf8 x + total utf8 y⟩) :
    Laid (x ++ w ++ z) (shiftElements (total utf8 x) (total utf8 y) (total utf8 w) es) := by
  refine ⟨⟨pairwise_map.2 ?_, ?_⟩, pairwise_map.2 ?_⟩
  · refine (h.apart.filter _).imp_of_mem fun he hf ha => ?_
    obtain ⟨-, -, hme⟩ := moved_shift hc (total utf8 w) he
    obtain ⟨-, -, hmf⟩ := moved_shift hc (total utf8 w) hf
    exact hme.apart hmf ha
  · rintro f hf
    obtain ⟨e, he, rfl⟩ := mem_map.1 hf
    obtain ⟨he, -, hm⟩ := moved_shift hc (total utf8 w) he
    exact hm.onCuts (h.onCuts e he)
  · refine (h.sorted.filter _).imp_of_mem fun he hf hs => ?_
    obtain ⟨he, hne, hme⟩ := moved_shift hc (total utf8 w) he
    obtain ⟨hf, hnf, hmf⟩ := moved_shift hc (total utf8 w) hf
    unfold Moved at hme hmf
    omega

section Replace

variable {a : EditArea}

def edited (a : EditArea) (x y z w : Str) : EditArea :=
  { a with
    text := x ++ w ++ z
    elements := shiftElements (total utf8 x) (total utf8 y) (total utf8 w) a.elements }

theorem Laid.clamped (h : Laid a.text a.elements) (pos : ℕ) :
    WellFormed { a with cursorPos := a.clampPosToNearestBoundary pos } :=
  ⟨h, rests_clamp h.toPlaced pos⟩

theorem Rests.clean (h : Rests a.text a.elements c) :
    Clean a.elements ⟨c, c + total utf8 ([] : Str)⟩ := by
  intro e he
  have ho := h.outside e he
  simp only [total]
  omega

theorem rests_inserted (hr : Rests a.text a.elements c) (ht : a.text = x ++ [] ++ z)
    (hx : Rests a.text a.elements (total utf8 x)) (w : Str) :
    Rests (edited a x [] z w).text (edited a x [] z w).elements
      (if total utf8 x ≤ c then c + total utf8 w else c) := by
  have hcut := hr.cut
  rw [ht] at hcut
  have hp := hcut.replace utf8_pos w
  constructor
  · split
    · next hl => exact hp.2 hl
    · next hl => exact hp.1 (by omega)
  · intro f hf
    obtain ⟨e, he, rfl⟩ := mem_map.1 hf
    obtain ⟨he, -, hm⟩ := moved_shift hx.clean (total utf8 w) he
    have ho := hr.outside e he
    unfold Moved at hm
    simp only [total] at hm ⊢
    split <;> omega

theorem insertStrAt_spec (h : Laid a.text a.elements) (pos : ℕ) (w : Str) :
    ∃ x z, a.text = x ++ [] ++ z ∧ total utf8 x = a.clampPosForInsertion pos ∧
      Rests a.text a.elements (total utf8 x) ∧ a.insertStrAt pos w = { edited a x [] z w with
        cursorPos := if total utf8 x ≤ a.cursorPos then a.cursorPos + total utf8 w
          else a.cursorPos } := by
  have hr := rests_clamp h.toPlaced pos
  obtain ⟨x, z, ht, hx⟩ := hr.cut
  refine ⟨x, z, by simpa using ht, hx, hx ▸ hr, ?_⟩
  have hp : a.clampPosForInsertion pos = total utf8 x := hx.symm
  unfold insertStrAt edited byteLen
  simp [hp, ht, before_total utf8_pos, behind_total utf8_pos, total]

theorem WellFormed.insertStrAt (h : WellFormed a) (pos : ℕ) (w : Str) :
    WellFormed (a.insertStrAt pos w) := by
  obtain ⟨x, z, ht, -, hx, he⟩ := insertStrAt_spec h.laid pos w
  rw [he]
  exact ⟨(ht ▸ h.laid).shift w hx.clean, rests_inserted h.rests ht hx w⟩

theorem replaceRangeRaw_eq (ht : a.text = x ++ y ++ z) (w : Str) :
    a.replaceRangeRaw ⟨total utf8 x, total utf8 x + total utf8 y⟩ w =
      if total utf8 y = 0 ∧ total utf8 w = 0 then a
      else { edited a x y z w with
        cursorPos := (edited a x y z w).clampPosToNearestBoundary
          (min (movedCursor (total utf8 x) (total utf8 x + total utf8 y) (total utf8 w)
            a.cursorPos) (byteLen (x ++ w ++ z))) } := by
  have hl : byteLen a.text = total utf8 x + total utf8 y + total utf8 z := by
    rw [ht, byteLen, total_append, total_append]
  have hs : min (total utf8 x) (byteLen a.text) = total utf8 x := by omega
  have he : min (total utf8 x + total utf8 y) (byteLen a.text) = total utf8 x + total utf8 y := by
    omega
  have hb : before utf8 (total utf8 x) a.text = x := by
    rw [ht, append_assoc, before_total utf8_pos]
  have hf : behind utf8 (total utf8 x + total utf8 y) a.text = z := by
    rw [ht, ← total_append, behind_total utf8_pos]
  unfold replaceRangeRaw
  simp only [hs, he, hb, hf, Nat.add_sub_cancel_left]
  rfl

theorem WellFormed.replaceRangeRaw (h : WellFormed a) (ht : a.text = x ++ y ++ z) (w : Str)
    (hc : Clean a.elements ⟨total utf8 x, total utf8 x + total utf8 y⟩) :
    WellFormed (a.replaceRangeRaw ⟨total utf8 x, total utf8 x + total utf8 y⟩ w) := by
  rw [replaceRangeRaw_eq ht]
  split
  · exact h
  · exact Laid.clamped (a := edited a x y z w) ((ht ▸ h.laid).shift w hc) _

/-- A widened range is a part of the text, and no element reaches over an end of it. -/
theorem expand_split (h : Placed a.text a.elements) (hs : IsCut utf8 a.text r.start)
    (ht : IsCut utf8 a.text r.stop) (hl : r.start ≤ r.stop) :
    ∃ x y z, a.text = x ++ y ++ z ∧ Clean a.elements ⟨total utf8 x, total utf8 x + total utf8 y⟩ ∧
      total utf8 x ≤ r.start ∧ r.stop ≤ total utf8 x + total utf8 y ∧
      expandRangeToElementBoundaries a.elements r =
        ⟨total utf8 x, total utf8 x + total utf8 y⟩ := by
  obtain ⟨hc, hw⟩ := expand_spec h r
  have hle := hw.start_le
  have hle' := hw.le_stop
  obtain ⟨x, y, z, he, hx, hy⟩ := (hw.start_cut hs).split utf8_pos (hw.stop_cut ht) (by omega)
  have hr : expandRangeToElementBoundaries a.elements r =
      ⟨total utf8 x, total utf8 x + total utf8 y⟩ := by rw [hy, hx]
  exact ⟨x, y, z, he, hr ▸ hc, by omega, by omega, hr⟩

theorem WellFormed.replaceRange (h : WellFormed a) (hs : IsCut utf8 a.text r.start)
    (ht : IsCut utf8 a.text r.stop) (hl : r.start ≤ r.stop) (w : Str) :
    WellFormed (a.replaceRange r w) := by
  obtain ⟨x, y, z, he, hc, -, -, hr⟩ := expand_split h.laid.toPlaced hs ht hl
  rw [EditArea.replaceRange, hr]
  exact h.replaceRangeRaw he w hc

/-- What a command that kills text around the cursor does, if it does anything. -/
structure Kills (a b : EditArea) (x y z : Str) : Prop where
  wellFormed : WellFormed b
  text_eq : a.text = x ++ y ++ z
  text_eq' : b.text = x ++ z
  cursorPos_eq : b.cursorPos = total utf8 x
  killBuffer_eq : b.killBuffer = y

theorem rests_removed (hc : Clean a.elements ⟨total utf8 x, total utf8 x + total utf8 y⟩)
    (z w : Str) : Rests (edited a x y z w).text (edited a x y z w).elements (total utf8 x) := by
  refine ⟨(isCut_total_append x w).append z, fun f hf => ?_⟩
  obtain ⟨e, he, rfl⟩ := mem_map.1 hf
  obtain ⟨-, -, hm⟩ := moved_shift hc (total utf8 w) he
  unfold Moved at hm
  omega

theorem killRange_cases (h : WellFormed a) (hs : IsCut utf8 a.text r.start)
    (ht : IsCut utf8 a.text r.stop) (hl : r.start ≤ a.cursorPos ∧ a.cursorPos ≤ r.stop) :
    a.killRange r = a ∨ ∃ x y z, Kills a (a.killRange r) x y z := by
  obtain ⟨x, y, z, he, hc, hx, hy, hr⟩ := expand_split h.laid.toPlaced hs ht (by omega)
  have hm : before utf8 (total utf8 y) (behind utf8 (total utf8 x) a.text) = y := by
    rw [he, append_assoc, behind_total utf8_pos, before_total utf8_pos]
  unfold killRange
  simp only [hr, Nat.add_sub_cancel_left, hm]
  split
  · exact .inl rfl
  · next hn =>
    have hw := WellFormed.replaceRangeRaw (a := { a with killBuffer := y })
      ⟨h.laid, h.rests⟩ he [] hc
    have hb := replaceRangeRaw_eq (a := { a with killBuffer := y }) he []
    rw [if_neg (by omega)] at hb
    have hcur : min (movedCursor (total utf8 x) (total utf8 x + total utf8 y) 0 a.cursorPos)
        (byteLen (x ++ [] ++ z)) = total utf8 x := by
      unfold movedCursor byteLen
      rw [if_neg (by omega), if_pos (by omega), total_append, append_nil]
      omega
    rw [hb] at hw ⊢
    refine .inr ⟨x, y, z, hw, he, by simp [edited], ?_, rfl⟩
    simp only [total, hcur]
    exact clamp_of_rests (rests_removed (a := { a with killBuffer := y }) hc z [])

end Replace

end TextEditing
