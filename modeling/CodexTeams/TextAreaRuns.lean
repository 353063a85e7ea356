import CodexTeams.Runs
import CodexTeams.TextAreaInvariant
import Mathlib.Data.List.SplitBy

/-! What every edit of the text area does to a well-formed area, over whole runs of edits. -/
namespace TextEditing

open RustStr SizedLists Utf8 StableSort Runs EditArea List Nat

section Kill

variable {a : EditArea}

theorem cut_of_start (h : p <+: x) (y : Str) :
    IsCut utf8 (x ++ y) (total utf8 p) ∧ total utf8 p ≤ total utf8 x := by
  obtain ⟨q, rfl⟩ := h
  exact ⟨(isCut_total_append p q).append y, (isCut_total_append p q).le_total⟩

theorem cut_behind (h : p <+: y) (x : Str) : IsCut utf8 (x ++ y) (total utf8 x + total utf8 p) := by
  obtain ⟨q, rfl⟩ := h
  exact (isCut_total_append p q).behind x

theorem rdropWhile_cases (x : Str) : x.rdropWhile (· ≠ '\n') = [] ∨
    ∃ u, x.rdropWhile (· ≠ '\n') = u ++ ['\n'] := by
  induction x using reverseRecOn with
  | nil => exact .inl rfl
  | append_singleton u d ih =>
    by_cases hd : d = '\n'
    · exact .inr ⟨u, by simp [hd]⟩
    · simpa [hd] using ih

theorem takeWhile_cases (y : Str) : y = y.takeWhile (· ≠ '\n') ∨
    ∃ r, y = y.takeWhile (· ≠ '\n') ++ '\n' :: r := by
  induction y with
  | nil => exact .inl rfl
  | cons d y ih =>
    by_cases hd : d = '\n'
    · exact .inr ⟨y, by simp [hd]⟩
    · simpa [hd] using ih

theorem bol_spec (h : IsCut utf8 a.text a.cursorPos) :
    IsCut utf8 a.text a.beginningOfCurrentLine ∧ a.beginningOfCurrentLine ≤ a.cursorPos ∧
      (0 < a.beginningOfCurrentLine → IsCut utf8 a.text (a.beginningOfCurrentLine - 1)) := by
  obtain ⟨x, y, ht, hx⟩ := h
  have hp := rdropWhile_prefix (· ≠ '\n') (l := x)
  unfold beginningOfCurrentLine byteLen
  rw [← hx, ht, before_total utf8_pos]
  refine ⟨(cut_of_start hp y).1, (cut_of_start hp y).2, fun h0 => ?_⟩
  rcases rdropWhile_cases x with he | ⟨u, he⟩
  · rw [he] at h0
    cases h0
  · rw [he] at hp ⊢
    rw [total_append]
    exact (cut_of_start ((prefix_append u _).trans hp) y).1

theorem eol_spec (h : IsCut utf8 a.text a.cursorPos) :
    IsCut utf8 a.text a.endOfCurrentLine ∧ a.cursorPos ≤ a.endOfCurrentLine ∧
      (a.endOfCurrentLine < byteLen a.text → IsCut utf8 a.text (a.endOfCurrentLine + 1)) := by
  obtain ⟨x, y, ht, hx⟩ := h
  unfold endOfCurrentLine byteLen
  rw [← hx, ht, behind_total utf8_pos]
  refine ⟨cut_behind (List.takeWhile_prefix _) x, le_add_right _ _, fun hl => ?_⟩
  rcases takeWhile_cases y with he | ⟨r, he⟩
  · rw [← he, total_append] at hl
    exact absurd hl (lt_irrefl _)
  · have hn : y.takeWhile (· ≠ '\n') ++ ['\n'] <+: y := ⟨r, by simpa using he.symm⟩
    have hc := cut_behind hn x
    rwa [total_append] at hc

variable (seg : Segmentation)

theorem pieces_flatten (r : Str) : (splitWordPieces seg r).flatten = r := by
  unfold splitWordPieces
  simp [flatMap, flatten_flatten, Function.comp_def, seg.splitWordBounds_flatten]

theorem flatten_start (h : k <+: splitWordPieces seg r) : k.flatten <+: r := by
  obtain ⟨q, hq⟩ := h
  have hf := pieces_flatten seg r
  rw [← hq, flatten_append] at hf
  exact ⟨_, hf⟩

theorem adjust_back (h : Placed a.text a.elements) (hc : IsCut utf8 a.text c ∧ c ≤ a.cursorPos) :
    IsCut utf8 a.text (a.adjustPosOutOfElements c true) ∧
      a.adjustPosOutOfElements c true ≤ a.cursorPos := by
  obtain ⟨hr, ha⟩ := rests_adjust h hc.1 true
  exact ⟨hr.cut, le_trans ha hc.2⟩

theorem previousWord_spec (h : WellFormed a) : IsCut utf8 a.text (a.beginningOfPreviousWord seg) ∧
      a.beginningOfPreviousWord seg ≤ a.cursorPos := by
  obtain ⟨x, y, ht, hx⟩ := h.rests.cut
  have hk : ∀ p, p <+: x.rdropWhile isWhitespace →
      IsCut utf8 a.text (total utf8 p) ∧ total utf8 p ≤ a.cursorPos := by
    intro p hp
    rw [ht, ← hx]
    exact cut_of_start (hp.trans (List.rdropWhile_prefix _ _)) y
  unfold beginningOfPreviousWord byteLen
  rw [← hx, ht, before_total utf8_pos, hx, ← ht]
  dsimp only
  split
  · exact ⟨isCut_zero _, zero_le _⟩
  split
  · exact hk _ (List.rdropWhile_prefix _ _)
  · rw [← total_append]
    refine adjust_back h.laid.toPlaced (hk _ ?_)
    refine List.IsPrefix.trans ((prefix_append_right_inj _).2 (flatten_start seg ?_))
      ⟨[], by rw [append_nil, rdropWhile_append_rtakeWhile]⟩
    split
    · exact rdropWhile_prefix _ _
    · exact dropLast_prefix _

theorem nextWord_spec (h : WellFormed a) : IsCut utf8 a.text (a.endOfNextWord seg) := by
  obtain ⟨x, y, ht, hx⟩ := h.rests.cut
  have hk : ∀ p, p <+: y.dropWhile isWhitespace → IsCut utf8 a.text
      (a.cursorPos + total utf8 (y.takeWhile isWhitespace) + total utf8 p) := by
    intro p hp
    have hc := cut_behind hp (x ++ y.takeWhile isWhitespace)
    rwa [append_assoc, takeWhile_append_dropWhile, ← ht, total_append, hx] at hc
  unfold endOfNextWord byteLen
  rw [← hx, ht, behind_total utf8_pos, hx, ← ht]
  dsimp only
  split
  · exact isCut_total _
  split
  · exact hk [] nil_prefix
  · next pc hl =>
    refine (rests_adjust h.laid.toPlaced (hk _ ?_) false).1.cut
    refine List.IsPrefix.trans (flatten_start seg ?_) (List.takeWhile_prefix (!isWhitespace ·))
    split
    · exact takeWhile_prefix _
    · obtain ⟨r, hr⟩ := head?_eq_some_iff.1 hl
      exact ⟨r, hr.symm⟩

theorem kill_cases (h : WellFormed a) (k : Kill) :
    k.apply seg a = a ∨ ∃ x y z, Kills a (k.apply seg a) x y z := by
  have hc := h.rests.cut
  obtain ⟨hb, hbl, hb'⟩ := bol_spec hc
  obtain ⟨he, hel, he'⟩ := eol_spec hc
  cases k with
  | toEndOfLine =>
    unfold Kill.apply killToEndOfLine
    dsimp only
    split
    · split
      · next hl => exact killRange_cases h hc (he' hl) ⟨le_refl _, le_succ_of_le hel⟩
      · exact .inl rfl
    · exact killRange_cases h hc he ⟨le_refl _, hel⟩
  | vimToEndOfLine =>
    unfold Kill.apply vimKillToEndOfLine
    dsimp only
    split
    · exact killRange_cases h hc he ⟨le_refl _, hel⟩
    · exact .inl rfl
  | toBeginningOfLine =>
    unfold Kill.apply killToBeginningOfLine
    dsimp only
    split
    · next heq =>
      split
      · next hl => exact killRange_cases h (hb' hl) hb ⟨by dsimp only; omega, le_of_eq heq⟩
      · exact .inl rfl
    · exact killRange_cases h hb hc ⟨hbl, le_refl _⟩
  | currentLine =>
    unfold Kill.apply killCurrentLine currentLineRangeWithNewline
    dsimp only
    split
    · next hl => exact killRange_cases h hb (he' hl) ⟨hbl, le_succ_of_le hel⟩
    · exact killRange_cases h hb he ⟨hbl, hel⟩
  | backwardWord =>
    obtain ⟨hw, hwl⟩ := previousWord_spec seg h
    exact killRange_cases h hw hc ⟨hwl, le_refl _⟩
  | forwardWord =>
    unfold Kill.apply deleteForwardWord
    dsimp only
    split
    · next hl => exact killRange_cases h hc (nextWord_spec seg h) ⟨le_refl _, le_of_lt hl⟩
    · exact .inl rfl
  | forward n =>
    obtain ⟨hn, hnl⟩ := cut_next_iterate seg h.laid.toPlaced hc n
    unfold Kill.apply deleteForwardKill
    dsimp only
    split
    · exact .inl rfl
    · exact killRange_cases h hc hn ⟨le_refl _, hnl⟩

end Kill

section Elements

variable {a : EditArea}

section

variable (h : WellFormed a)

include h

theorem WellFormed.setCursor (pos : ℕ) : WellFormed (a.setCursor pos) := h.laid.clamped _

theorem WellFormed.insertElement (w : Str) : WellFormed (a.insertElement w) := by
  have hp : a.clampPosForInsertion a.cursorPos = a.cursorPos := clamp_of_rests h.rests
  obtain ⟨x, z, ht, hx, hr, he⟩ := insertStrAt_spec h.laid a.cursorPos w
  have hl := (ht ▸ h.laid).shift w hr.clean
  rw [hp] at hx
  unfold EditArea.insertElement EditArea.setCursor
  simp only [hp, he]
  refine Laid.clamped (Placed.sort (hl.toPlaced.concat ⟨le_add_right _ _, ?_, ?_⟩ ?_)) _
  · rw [← hx]
    exact (isCut_total_append x w).append z
  · rw [← hx, byteLen, ← total_append]
    exact isCut_total_append (x ++ w) z
  · intro f hf
    obtain ⟨e, he, rfl⟩ := mem_map.1 hf
    obtain ⟨-, -, hm⟩ := moved_shift hr.clean (total utf8 w) he
    unfold Moved at hm
    unfold Apart byteLen
    simp only [total] at hm ⊢
    omega

theorem WellFormed.addElementRange_iff (r : Range) : WellFormed (a.addElementRange r) ↔
      ((a.clampRange r).start < a.cursorPos ∧ a.cursorPos < (a.clampRange r).stop →
        ∃ e ∈ a.elements, (a.clampRange r).start < e.stop ∧ e.start < (a.clampRange r).stop) := by
  unfold addElementRange
  dsimp only
  split
  · next hn => exact ⟨fun _ hi => by omega, fun _ => h⟩
  split
  · next hm => exact ⟨fun _ hi => absurd hi (h.rests.outside _ hm), fun _ => h⟩
  split
  · next hm =>
    have hm : ∃ e ∈ a.elements,
        (a.clampRange r).start < e.stop ∧ e.start < (a.clampRange r).stop := by simpa using hm
    exact ⟨fun _ _ => hm, fun _ => h⟩
  · next hl _ hn =>
    have hn : ∀ e ∈ a.elements,
        (a.clampRange r).start < e.stop → (a.clampRange r).stop ≤ e.start := by simpa using hn
    have hm : (a.addElement (a.clampRange r)).elements.Perm (a.elements ++ [a.clampRange r]) :=
      perm_insertionSort _ _
    constructor
    · intro hw hi
      exact absurd hi (hw.rests.outside _ (hm.mem_iff.2 (by simp)))
    · intro hi
      refine ⟨Placed.sort (h.laid.toPlaced.concat ⟨by omega, isCut_clamp a _, isCut_clamp a _⟩ ?_),
        h.rests.cut, fun e he => ?_⟩
      · intro e he
        have hne := hn e he
        unfold Apart
        omega
      · rcases mem_append.1 (hm.mem_iff.1 he) with he | he
        · exact h.rests.outside e he
        · rw [mem_singleton.1 he]
          intro hc
          obtain ⟨f, hf, ha, hb⟩ := hi hc
          have hnf := hn f hf ha
          omega

theorem WellFormed.removeElementRange (r : Range) : WellFormed (a.removeElementRange r) := by
  unfold EditArea.removeElementRange
  dsimp only
  split
  · exact h
  · exact ⟨⟨⟨h.laid.apart.filter _, fun e he => h.laid.onCuts e (mem_filter.1 he).1⟩,
      h.laid.sorted.filter _⟩, h.rests.cut, fun e he => h.rests.outside e (mem_filter.1 he).1⟩

end

theorem Placed.apart_get (h : Placed x es) (hi : i < es.length) (hj : j < es.length) (hn : i ≠ j) :
    Apart es[i] es[j] := by
  rcases lt_or_gt_of_ne hn with hl | hl
  · exact pairwise_iff_getElem.1 h.apart i j hi hj hl
  · exact (pairwise_iff_getElem.1 h.apart j i hj hi hl).symm

theorem Rests.of_perm (h : Rests x es c) (hp : es'.Perm es) : Rests x es' c :=
  ⟨h.cut, fun e he => h.outside e (hp.mem_iff.1 he)⟩

theorem Placed.resort (h : Placed a.text a.elements) (pos : ℕ) :
    WellFormed { a with
      cursorPos := a.clampPosToNearestBoundary pos
      elements := sortByKey TextElement.start a.elements } :=
  ⟨h.sort, (rests_clamp h pos).of_perm (perm_insertionSort _ _)⟩

theorem moved_beside (h : f.stop ≤ s ∨ s + k ≤ f.start) (hf : f.start ≤ f.stop) (n : ℕ) :
    Moved s k n f (shiftedBeside s (s + k) n f) := by
  unfold Moved shiftedBeside
  split
  · omega
  · rw [if_pos (by omega)]
    dsimp only
    omega

theorem Placed.payload (h : Placed (x ++ y ++ z) es) (hi : i < es.length)
    (hx : total utf8 x = es[i].start) (hy : total utf8 x + total utf8 y = es[i].stop) (w : Str) :
    Placed (x ++ w ++ z) (es.mapIdx fun j f =>
      if j = i then ⟨total utf8 x, total utf8 x + total utf8 w⟩
      else shiftedBeside (total utf8 x) (total utf8 x + total utf8 y) (total utf8 w) f) := by
  have hm : ∀ j (hj : j < es.length), j ≠ i →
      Moved (total utf8 x) (total utf8 y) (total utf8 w) es[j]
        (shiftedBeside (total utf8 x) (total utf8 x + total utf8 y) (total utf8 w) es[j]) := by
    intro j hj hn
    have ha := h.apart_get hj hi hn
    unfold Apart at ha
    exact moved_beside (by omega) (h.onCuts _ (getElem_mem hj)).1 _
  constructor
  · refine pairwise_iff_getElem.2 fun j k hj hk hl => ?_
    rw [length_mapIdx] at hj hk
    rw [getElem_mapIdx, getElem_mapIdx]
    have hmj := hm j hj
    have hmk := hm k hk
    split
    · rw [if_neg (by omega)]
      unfold Moved at hmk
      unfold Apart
      dsimp only
      omega
    · next hj =>
      have hmj := hmj hj
      split
      · unfold Moved at hmj
        unfold Apart
        dsimp only
        omega
      · next hk => exact hmj.apart (hmk hk) (h.apart_get _ _ (Nat.ne_of_lt hl))
  · intro f hf
    obtain ⟨j, hj, rfl⟩ := mem_mapIdx.1 hf
    split
    · refine ⟨le_add_right _ _, (isCut_total_append x w).append z, ?_⟩
      rw [← total_append]
      exact isCut_total_append (x ++ w) z
    · next hn => exact (hm j hj hn).onCuts (h.onCuts _ (getElem_mem hj))

theorem WellFormed.replaceElementPayload (h : WellFormed a) (old new : Str) :
    WellFormed (a.replaceElementPayload old new) := by
  unfold EditArea.replaceElementPayload
  split
  · exact h
  split
  · exact h
  split
  · exact h
  · next i _ _ e he _ =>
    obtain ⟨hi, rfl⟩ := List.getElem?_eq_some_iff.1 he
    obtain ⟨hl, hs, ht⟩ := h.laid.onCuts _ (List.getElem_mem hi)
    obtain ⟨x, y, z, hxyz, hx, hy⟩ := hs.split utf8_pos ht hl
    have hb : before utf8 (a.elements[i].start) a.text = x := by
      rw [hxyz, ← hx, append_assoc, before_total utf8_pos]
    have hf : behind utf8 (a.elements[i].stop) a.text = z := by
      rw [hxyz, ← hy, ← total_append, behind_total utf8_pos]
    have hp := (hxyz ▸ h.laid.toPlaced).payload hi hx hy new
    simp only [hb, hf]
    simp only [← hx, ← hy]
    exact Placed.resort (a := ⟨x ++ new ++ z, a.cursorPos, _, a.killBuffer⟩) hp _

theorem setText_wellFormed (t : Str)
    (h : rs.Pairwise fun r q => min r.stop q.stop ≤ max r.start q.start) (a : EditArea) :
    WellFormed (a.setTextWithElements t rs) := by
  have hm : ∀ {m n}, m ≤ n → nearestCut utf8 t (min m (byteLen t)) ≤
      nearestCut utf8 t (min n (byteLen t)) :=
    fun h => nearestCut_mono utf8_pos t (by omega)
  refine Laid.clamped (Placed.sort ⟨?_, ?_⟩) _
  · refine pairwise_filter.2 (pairwise_map.2 (h.imp fun {r q} hd hr hq => ?_))
    have hr := of_decide_eq_true hr
    have hq := of_decide_eq_true hq
    dsimp only [clampPosToCharBoundary] at hr hq ⊢
    have hd : r.stop ≤ r.start ∨ r.stop ≤ q.start ∨ q.stop ≤ r.start ∨ q.stop ≤ q.start := by omega
    rcases hd with hd | hd | hd | hd
    · have hc := hm hd
      omega
    · exact .inl (hm hd)
    · exact .inr (hm hd)
    · have hc := hm hd
      omega
  · intro e he
    obtain ⟨hm, hl⟩ := mem_filter.1 he
    obtain ⟨r, -, rfl⟩ := mem_map.1 hm
    exact ⟨le_of_lt (by simpa using hl), (nearestCut_spec utf8_pos t _).1,
      (nearestCut_spec utf8_pos t _).1⟩

theorem WellFormed.leaveInsertMode_iff (seg : Segmentation) (h : WellFormed a) :
    WellFormed (a.leaveInsertMode seg) ↔ (a.findElementContaining a.beginningOfCurrentLine = none ∨
        a.beginningOfCurrentLine ≤ a.prevAtomicBoundary seg a.cursorPos) := by
  obtain ⟨hb, hbl, -⟩ := bol_spec h.rests.cut
  obtain ⟨hp, -⟩ := rests_prev seg h.laid.toPlaced h.rests.cut
  unfold leaveInsertMode
  dsimp only
  split
  · next hl =>
    rcases lt_or_ge (a.prevAtomicBoundary seg a.cursorPos) a.beginningOfCurrentLine with hm | hm
    · rw [max_eq_right (le_of_lt hm)]
      constructor
      · exact fun hw => .inl (find_none.2 hw.rests.outside)
      · intro hn
        exact ⟨h.laid, hb, find_none.1 (hn.resolve_right (not_le.2 hm))⟩
    · rw [max_eq_left hm]
      exact ⟨fun _ => .inr hm, fun _ => ⟨h.laid, hp⟩⟩
  · next hl =>
    have he : a.beginningOfCurrentLine = a.cursorPos := by omega
    rw [he]
    exact ⟨fun _ => .inl (find_none.2 h.rests.outside), fun _ => h⟩

end Elements

variable (seg : Segmentation)

/-- The edits, with those of ranges asked to be given ranges that they can be given. -/
def system : EventSystem EditArea Edit where
  Enabled a
    | .replaceRange r _ => r.start ≤ r.stop ∧ isCut utf8 a.text r.start ∧ isCut utf8 a.text r.stop
    | .setTextWithElements _ rs => rs.Pairwise fun r q => min r.stop q.stop ≤ max r.start q.start
    | _ => True
  next := Edit.apply seg

/-- No text around the cursor is marked, unless it overlaps an element, and the insert mode is not
left where an element reaches over the start of the line and the cursor would be moved to it. -/
def Guarded (a : EditArea) : Edit → Prop
  | .addElementRange r =>
    (a.clampRange r).start < a.cursorPos ∧ a.cursorPos < (a.clampRange r).stop →
      ∃ e ∈ a.elements, (a.clampRange r).start < e.stop ∧ e.start < (a.clampRange r).stop
  | .leaveInsertMode =>
    a.findElementContaining a.beginningOfCurrentLine = none ∨
      a.beginningOfCurrentLine ≤ a.prevAtomicBoundary seg a.cursorPos
  | _ => True

instance decidableEnabled (a : EditArea) (e : Edit) : Decidable ((system seg).Enabled a e) := by
  cases e <;> simp only [system] <;> infer_instance

instance decidableGuarded (a : EditArea) (e : Edit) : Decidable (Guarded seg a e) := by
  cases e <;> simp only [Guarded] <;> infer_instance

theorem new_wellFormed : WellFormed EditArea.new := ⟨⟨⟨.nil, by simp [new]⟩, .nil⟩, rests_zero _ _⟩

theorem wellFormed_next_iff (h : WellFormed a) (e : Edit)
    (he : (system seg).Enabled a e) : WellFormed ((system seg).next a e) ↔ Guarded seg a e := by
  have hc := h.rests.cut
  have hp := h.laid.toPlaced
  have ht : ∀ {b : EditArea} {g}, g = True → WellFormed b → (WellFormed b ↔ g) :=
    fun hg hb => hg ▸ iff_true_intro hb
  cases e with
  | addElementRange r => exact h.addElementRange_iff r
  | leaveInsertMode => exact h.leaveInsertMode_iff seg
  | insertStrAt pos w => exact ht rfl (h.insertStrAt pos w)
  | replaceRange r w =>
    obtain ⟨hl, hs, hr⟩ := he
    exact ht rfl (h.replaceRange ((isCut_iff utf8_pos).1 hs) ((isCut_iff utf8_pos).1 hr) hl w)
  | setTextWithElements text rs => exact ht rfl (setText_wellFormed text he a)
  | deleteBackward n =>
    obtain ⟨hd, hl⟩ := cut_prev_iterate seg hp hc n
    refine ht rfl ?_
    change WellFormed (a.deleteBackward seg n)
    unfold deleteBackward
    split
    · exact h
    · exact h.replaceRange hd hc hl []
  | deleteForward n =>
    obtain ⟨hd, hl⟩ := cut_next_iterate seg hp hc n
    refine ht rfl ?_
    change WellFormed (a.deleteForward seg n)
    unfold deleteForward
    split
    · exact h
    · exact h.replaceRange hc hd hl []
  | kill k =>
    refine ht rfl ?_
    change WellFormed (k.apply seg a)
    rcases kill_cases seg h k with hk | ⟨_, _, _, hk⟩
    · rw [hk]
      exact h
    · exact hk.wellFormed
  | yank =>
    refine ht rfl ?_
    change WellFormed a.yank
    unfold yank
    split
    · exact h
    · exact h.insertStrAt _ _
  | setCursor pos => exact ht rfl (h.setCursor pos)
  | moveCursorLeft => exact ht rfl ⟨h.laid, (rests_prev seg hp hc).1⟩
  | moveCursorRight => exact ht rfl ⟨h.laid, (rests_next seg hp hc).1⟩
  | insertElement w => exact ht rfl (h.insertElement w)
  | removeElementRange r => exact ht rfl (h.removeElementRange r)
  | replaceElementPayload old new => exact ht rfl (h.replaceElementPayload old new)

def whole : Segmentation where
  prevBoundary _ _ := none
  nextBoundary _ _ := none
  splitWordBounds run := [run]
  prevBoundary_cut := by simp
  nextBoundary_cut := by simp
  splitWordBounds_flatten := by simp

/-- A run keeps the area well-formed as long as its edits are guarded, and a first edit that is not
breaks it. -/
theorem runs_wellFormed (seg : Segmentation) :
    (∀ a, (system seg).Reaches (Guarded seg) EditArea.new a → WellFormed a) ∧
      ∀ a e, WellFormed a → (system seg).Enabled a e →
        (WellFormed ((system seg).next a e) ↔ Guarded seg a e) := by
  refine ⟨fun a hr => ?_, fun a e h he => wellFormed_next_iff seg h e he⟩
  exact hr.invariant (fun a e h he hg => (wellFormed_next_iff seg h e he).2 hg) new_wellFormed

theorem runs_wellFormed_marked :
    let es : List Edit :=
      [.insertStrAt 0 "/plan", .addElementRange ⟨0, 5⟩, .kill .backwardWord, .yank]
    (system whole).Allows (Guarded whole) es .new ∧ WellFormed ((system whole).run es .new) :=
  ⟨by decide, (runs_wellFormed whole).1 _ (.of_allows (by decide))⟩

/-- Text around the cursor is marked as an element, and the insert mode is left behind an element
of two lines. -/
theorem cursor_inside_element :
    let es : List Edit := [.insertStrAt 0 "/plan", .setCursor 2, .addElementRange ⟨0, 5⟩]
    let fs : List Edit := [.insertElement "a\nb", .leaveInsertMode]
    ((system whole).Allows EventSystem.always es .new ∧ ¬ WellFormed ((system whole).run es .new)) ∧
        (system whole).Allows EventSystem.always fs .new ∧
          ¬ WellFormed ((system whole).run fs .new) := by
  refine ⟨⟨by decide, fun h => ?_⟩, by decide, fun h => ?_⟩
  · exact h.rests.outside ⟨0, 5⟩ (by decide) (by decide)
  · exact h.rests.outside ⟨0, 3⟩ (by decide) (by decide)

/-- What a command has killed is put back by a yank that follows it. -/
theorem yank_restores_killed_text (seg : Segmentation) {a : EditArea} (h : WellFormed a)
    (k : Kill) (hk : (k.apply seg a).text ≠ a.text) : (k.apply seg a).yank.text = a.text := by
  rcases kill_cases seg h k with he | ⟨x, y, z, hw, ht, ht', hx, hy⟩
  · exact absurd (congrArg text he) hk
  have hne : y ≠ [] := by
    rintro rfl
    exact hk (by rw [ht, ht', append_nil])
  obtain ⟨u, v, hu, hp, -, hi⟩ := insertStrAt_spec hw.laid (k.apply seg a).cursorPos y
  rw [clampPosForInsertion, clamp_of_rests hw.rests, hx] at hp
  rw [ht', append_nil] at hu
  have hb := before_total utf8_pos u v
  have hc := behind_total utf8_pos u v
  rw [← hu, hp, before_total utf8_pos] at hb
  rw [← hu, hp, behind_total utf8_pos] at hc
  rw [yank, hy, if_neg hne, insertStr, hi, ht, hb, hc]
  rfl

theorem yank_restores_killed_word :
    let a := (new.insertElement "one").insertStrAt 3 " two"
    (Kill.backwardWord.apply whole a).text = "one " ∧
      (Kill.backwardWord.apply whole a).yank.text = a.text :=
  ⟨by decide, yank_restores_killed_text whole ((new_wellFormed.insertElement _).insertStrAt _ _)
    .backwardWord (by decide)⟩

end TextEditing
