import CodexTeams.UrlWrapLines

/-! When the wrapping ends: unless a character is wider than a line, every piece finds a place. -/
namespace UrlWrapping

open RustStr List

section Turns

theorem wrapPieces_mono (hle : ts ≤ ts') (h : wrapPieces tw tx sw ts ly pn = some ly') :
    wrapPieces tw tx sw ts' ly pn = some ly' := by
  induction ts generalizing ts' ly pn with
  | zero => cases h
  | succ ts ih =>
    obtain ⟨ts', rfl⟩ := Nat.exists_eq_add_of_lt (Nat.lt_of_lt_of_le (Nat.succ_pos ts) hle)
    have hle := Nat.le_of_succ_le_succ hle
    cases pn with
    | nil => exact h
    | cons pc pn =>
      rw [wrapPieces] at h ⊢
      cases ht : turn tw tx sw ly pc with rw [ht] at h
      | split ps => exact ih hle h
      | placed placed => exact ih hle h
      | broken broken => exact ih hle h

theorem wrapWords_mono (hle : ts ≤ ts') (h : wrapWords tw tx sw ts ly r = some ly') :
    wrapWords tw tx sw ts' ly r = some ly' := by
  induction r generalizing ly with
  | nil => exact h
  | cons w r ih =>
    obtain ⟨between, hp, hl⟩ := wrapWords_cons h
    rw [wrapWords, wrapPieces_mono hle hp]
    exact ih hl

theorem turn_of_fits (hn : ly.lineStart = none)
    (hf : pc.isUrl = true ∨ pc.width tw tx ≤ emptyLinePieceLimit tx ly) :
    ∃ placed, turn tw tx sw ly pc = .placed placed := by
  cases ht : turn tw tx sw ly pc with
  | placed placed => exact ⟨placed, rfl⟩
  | split ps =>
    obtain ⟨_, hp, hw, _⟩ := turn_split ht
    rcases hf with hu | hf
    · rw [hp] at hu
      cases hu
    · omega
  | broken broken =>
    obtain ⟨start, hs, _⟩ := turn_broken ht
    rw [hn] at hs
    cases hs

theorem split_cons (tw : Textwrap) (hp : PieceAt tx ws pos pc) (lm : ℕ) :
    ∃ first r, splitMixedUrlWord tw tx pc lm = first :: r ∧
      first.range.start = pos ∧ pos < first.range.stop := by
  have hc := chain_split tw (hp.start ▸ hp.lt) hp.le lm
  cases hs : splitMixedUrlWord tw tx pc lm with rw [hs, hp.start] at hc
  | nil => exact absurd hc (Nat.ne_of_lt hp.lt)
  | cons first r => exact ⟨first, r, rfl, hc.1, hc.2.1⟩

/-- If the first character of a piece fits on the empty line, so does the first part of it. -/
theorem split_first_fits (hp : PieceAt tx ws pos pc) (hpr : pc.isUrl = false)
    (hl : 1 ≤ lm) (hf : ∀ c, tx[pos]? = some c → tw.displayWidth [c] ≤ lm) :
    ∃ first r, splitMixedUrlWord tw tx pc lm = first :: r ∧ first.width tw tx ≤ lm := by
  obtain ⟨first, r, hs, hst, hlt⟩ := split_cons tw hp lm
  have hm : first ∈ splitMixedUrlWord tw tx pc lm := by simp [hs]
  refine ⟨first, r, hs, ?_⟩
  rcases fits_split tw (hp.start ▸ hp.lt) hp.le hpr hm with hft | hsn
  · rwa [max_eq_left hl] at hft
  · obtain ⟨c, hc⟩ := length_eq_one_iff.mp hsn
    have hh : (slice tx first.range).head? = tx[pos]? := by
      rw [← hst]
      exact head?_slice tx (hst ▸ hlt)
    rw [hc] at hh
    rw [MixedUrlWord.width, hc]
    exact hf c hh.symm

theorem turn_of_wide (hn : ly.lineStart = none) (hp : pc.isUrl = false)
    (hw : emptyLinePieceLimit tx ly < pc.width tw tx) :
    turn tw tx sw ly pc = .split (splitMixedUrlWord tw tx pc (emptyLinePieceLimit tx ly)) := by
  simp only [turn, hn]
  rw [if_pos ⟨hp, hw⟩]

def EndsFrom (tw : Textwrap) (text : Str) (subsequentWidth : ℕ) (layout : Layout)
    (pending : List MixedUrlWord) : Prop :=
  ∃ turns layout', wrapPieces tw text subsequentWidth turns layout pending = some layout'

theorem EndsFrom.turn (h : EndsFrom tw tx sw ly' ps)
    (ht : ∀ ts, wrapPieces tw tx sw (ts + 1) ly pn = wrapPieces tw tx sw ts ly' ps) :
    EndsFrom tw tx sw ly pn := by
  obtain ⟨ts, l, hl⟩ := h
  exact ⟨ts + 1, l, (ht ts).trans hl⟩

theorem Narrow.mono (h : Narrow tw tx ws lm ⟨a, n⟩) (hle : a ≤ b) : Narrow tw tx ws lm ⟨b, n⟩ :=
  fun k c hk => h k c ⟨hle.trans hk.1, hk.2⟩

theorem width_le_emptyLine (h : Filled tw tx ws iw sw dn pos ly) (hn : ly.lineStart = none)
    (hp : PieceAt tx ws pos pc) (hpr : pc.isUrl = false)
    (hnr : Narrow tw tx ws (max sw 1) ⟨pos, tx.length⟩) (hf : FirstFits tw tx ws iw)
    (hc : tx[pos]? = some c) : tw.displayWidth [c] ≤ emptyLinePieceLimit tx ly := by
  rw [emptyLinePieceLimit, emptyLinePrefixWidth, h.limit]
  by_cases hl : ly.lines = []
  · obtain ⟨d, hd, hne⟩ := hp.first
    have hld := takeWhile_length_eq (h.blank hn hl) hd hne
    rw [if_pos ⟨hn, hl⟩, hl]
    exact hf (hld ▸ hp.prose hpr) c (hld ▸ hc)
  · rw [if_neg (fun hb => hl hb.2)]
    have hw := hnr pos c ⟨le_refl pos, lt_of_lt_of_le hp.lt hp.le⟩ (hp.prose hpr) hc
    cases hln : ly.lines.length with
    | zero => exact absurd (length_eq_zero_iff.mp hln) hl
    | succ cn =>
      rw [limitAt]
      omega

theorem wrapPieces_ends (h : Filled tw tx ws iw sw dn pos ly) (hp : Pending tx ws pos pn stop)
    (hn : Narrow tw tx ws (max sw 1) ⟨pos, tx.length⟩) (hf : FirstFits tw tx ws iw) :
    EndsFrom tw tx sw ly pn := by
  -- every placed piece brings the end of the word nearer
  induction hlf : stop - pos using Nat.strong_induction_on generalizing pos ly pn with
  | _ left ih =>
    have hpc : ∀ {ly first r placed}, Filled tw tx ws iw sw dn pos ly →
        Pending tx ws pos (first :: r) stop → turn tw tx sw ly first = .placed placed →
        EndsFrom tw tx sw ly (first :: r) := by
      intro ly first r placed h hp ht
      obtain ⟨hpl, -⟩ := h.turn_placed hp.head ht
      have hlt := hp.head.lt
      have hle := hp.tail.chain.le
      have h := ih _ (by omega) hpl hp.tail (hn.mono hlt.le) rfl
      exact h.turn fun _ => by rw [wrapPieces, ht]
    cases pn with
    | nil => exact ⟨1, ly, rfl⟩
    | cons pc pn =>
      have he : ∀ {ly}, Filled tw tx ws iw sw dn pos ly → ly.lineStart = none →
          EndsFrom tw tx sw ly (pc :: pn) := by
        intro ly h hnn
        by_cases hft : pc.isUrl = true ∨ pc.width tw tx ≤ emptyLinePieceLimit tx ly
        · obtain ⟨placed, ht⟩ := turn_of_fits hnn hft
          exact hpc h hp ht
        · obtain ⟨hpr, hw⟩ := not_or.mp hft
          have hpr := Bool.eq_false_iff.mpr hpr
          have hl : 1 ≤ emptyLinePieceLimit tx ly := le_max_right _ _
          obtain ⟨first, r, hsp, hfr⟩ := split_first_fits hp.head hpr hl
              fun c hc => width_le_emptyLine h hnn hp.head hpr hn hf hc
          have hps : Pending tx ws pos (splitMixedUrlWord tw tx pc
              (emptyLinePieceLimit tx ly) ++ pn) stop := hp.split _ _
          have hw := Nat.lt_of_not_le hw
          refine EndsFrom.turn ?_ fun _ => by rw [wrapPieces, turn_of_wide hnn hpr hw]
          rw [hsp] at hps ⊢
          obtain ⟨placed, hpl⟩ := turn_of_fits hnn (.inr hfr)
          exact hpc h hps hpl
      cases ht : turn tw tx sw ly pc with
      | placed placed => exact hpc h hp ht
      | split ps => exact he h (turn_split ht).1
      | broken broken =>
        obtain ⟨start, hs, rfl⟩ := turn_broken ht
        exact (he (h.finish hs) rfl).turn fun _ => by rw [wrapPieces, ht]

def WordsEnd (tw : Textwrap) (text : Str) (subsequentWidth : ℕ) (layout : Layout)
    (words : List MixedUrlWord) : Prop :=
  ∃ turns layout', wrapWords tw text subsequentWidth turns layout words = some layout'

theorem WordsEnd.cons (hp : wrapPieces tw tx sw ts ly (splitMixedUrlWord tw tx w ly.lineLimit) =
      some b) (h : WordsEnd tw tx sw b r) : WordsEnd tw tx sw ly (w :: r) := by
  obtain ⟨ts', l, hl⟩ := h
  refine ⟨max ts ts', l, ?_⟩
  rw [wrapWords, wrapPieces_mono (le_max_left _ _) hp]
  exact wrapWords_mono (le_max_right _ _) hl

theorem wrapWords_ends (h : Filled tw tx (wordsOf tx t) iw sw dn cr ly) (hr : Remaining tx cr f)
    (hw : mixedUrlWords t cr f ⊆ wordsOf tx t)
    (hn : Narrow tw tx (wordsOf tx t) (max sw 1) ⟨cr, tx.length⟩)
    (hf : FirstFits tw tx (wordsOf tx t) iw) : WordsEnd tw tx sw ly (mixedUrlWords t cr f) := by
  induction f generalizing cr ly dn with
  | nil => exact ⟨0, ly, rfl⟩
  | cons p f ih =>
    obtain ⟨w, wh⟩ := p
    have hnt := hn.mono (b := cr + w.length + wh.length) (by omega)
    rw [mixedUrlWords] at hw ⊢
    split at hw <;> rename_i hwr
    · subst hwr
      exact ih (h.skip_whitespace hr) hr.tail hw hnt
    · rw [if_neg hwr]
      have hm := hw mem_cons_self
      obtain ⟨ts, b, hpc⟩ := wrapPieces_ends h ((hr.pending hwr hm).split tw ly.lineLimit) hn hf
      rw [append_nil] at hpc
      exact WordsEnd.cons hpc
        (ih (h.place_word hr hwr hm hpc) hr.tail (fun o ho => hw (mem_cons_of_mem _ ho)) hnt)

end Turns

/-! Until the first line is full a run does not use the width of the later ones. -/
section FirstLine

theorem turn_congr (tw : Textwrap) (tx : Str) (sw sw' : ℕ) (ly : Layout) (pc : MixedUrlWord) :
    match turn tw tx sw ly pc with
    | .split ps => turn tw tx sw' ly pc = .split ps
    | .placed l => turn tw tx sw' ly pc = .placed l ∧ l.lines = ly.lines
    | .broken l => turn tw tx sw' ly pc = .broken { l with lineLimit := max sw' 1 } := by
  unfold turn
  cases ly.lineStart with
  | none =>
    dsimp only
    split_ifs <;> simp
  | some s =>
    dsimp only
    split_ifs <;> simp

theorem wrapPieces_lines (h : wrapPieces tw tx sw ts ly pn = some l) : ly.lines <+: l.lines := by
  induction ts generalizing ly pn with
  | zero => cases h
  | succ ts ih =>
    cases pn with
    | nil =>
      cases h
      exact prefix_rfl
    | cons pc pn =>
      rw [wrapPieces] at h
      have hc := turn_congr tw tx sw sw ly pc
      cases ht : turn tw tx sw ly pc with rw [ht] at h hc
      | split ps => exact ih h
      | placed placed => exact hc.2 ▸ ih h
      | broken broken =>
        obtain ⟨s, -, rfl⟩ := turn_broken ht
        exact (prefix_append _ _).trans (ih h)

theorem wrapWords_lines (h : wrapWords tw tx sw ts ly r = some l) : ly.lines <+: l.lines := by
  induction r generalizing ly with
  | nil =>
    cases h
    exact prefix_rfl
  | cons w r ih =>
    obtain ⟨b, hp, hl⟩ := wrapWords_cons h
    exact (wrapPieces_lines hp).trans (ih hl)

/-- Two layouts with the same first line, or still the same. -/
def SameFirst (l l' : Layout) : Prop :=
  l = l' ∧ l.lines = [] ∨ ∃ line, [line] <+: l.lines ∧ [line] <+: l'.lines

theorem wrapPieces_sameFirst (hn : ly.lines = []) (h : wrapPieces tw tx sw ts ly pn = some l)
    (h' : wrapPieces tw tx sw' ts' ly pn = some l') : SameFirst l l' := by
  induction ts generalizing ts' ly pn with
  | zero => cases h
  | succ ts ih =>
    cases ts' with
    | zero => cases h'
    | succ ts' =>
      cases pn with
      | nil =>
        cases h
        cases h'
        exact .inl ⟨rfl, hn⟩
      | cons pc pn =>
        rw [wrapPieces] at h h'
        have hc := turn_congr tw tx sw sw' ly pc
        cases ht : turn tw tx sw ly pc with rw [ht] at h hc
        | split ps =>
          rw [hc] at h'
          exact ih hn h h'
        | placed placed =>
          rw [hc.1] at h'
          exact ih (hc.2.trans hn) h h'
        | broken broken =>
          rw [hc] at h'
          obtain ⟨s, -, rfl⟩ := turn_broken ht
          have hl := wrapPieces_lines h
          have hl' := wrapPieces_lines h'
          rw [hn] at hl hl'
          exact .inr ⟨_, hl, hl'⟩

theorem wrapWords_sameFirst (hs : SameFirst ly ly') (h : wrapWords tw tx sw ts ly r = some l)
    (h' : wrapWords tw tx sw' ts' ly' r = some l') : SameFirst l l' := by
  rcases hs with ⟨rfl, hn⟩ | ⟨line, hl, hl'⟩
  · induction r generalizing ly with
    | nil =>
      cases h
      cases h'
      exact .inl ⟨rfl, hn⟩
    | cons w r ih =>
      obtain ⟨b, hb, hr⟩ := wrapWords_cons h
      obtain ⟨b', hb', hr'⟩ := wrapWords_cons h'
      rcases wrapPieces_sameFirst hn hb hb' with ⟨rfl, hn⟩ | ⟨line, hl, hl'⟩
      · exact ih hr hn hr'
      · exact .inr ⟨line, hl.trans (wrapWords_lines hr), hl'.trans (wrapWords_lines hr')⟩
  · exact .inr ⟨line, hl.trans (wrapWords_lines h), hl'.trans (wrapWords_lines h')⟩

theorem head?_ranges {ly : Layout} (h : [line] <+: ly.lines) : ly.ranges.head? = some line := by
  obtain ⟨r, hr⟩ := h
  rw [Layout.ranges, ← hr]
  split <;> rfl

theorem SameFirst.head? (h : SameFirst l l') : l.ranges.head? = l'.ranges.head? := by
  rcases h with ⟨rfl, -⟩ | ⟨line, hl, hl'⟩
  · rfl
  · rw [head?_ranges hl, head?_ranges hl']

/-- Where the run for one width has ended, that for another ends if it can place all that is behind
the first line. -/
theorem wrapPieces_follow (h : Filled tw tx ws iw sw dn pos ly) (hl : ly.lines = [])
    (hp : Pending tx ws pos pn stop) (hf : FirstFits tw tx ws iw)
    (hr : wrapPieces tw tx sw' ts ly pn = some l) (hn : ∀ line, [line] <+: l.lines →
      Narrow tw tx ws (max sw 1) ⟨line.stop, tx.length⟩) : EndsFrom tw tx sw ly pn := by
  induction ts generalizing ly pn pos with
  | zero => cases hr
  | succ ts ih =>
    cases pn with
    | nil => exact ⟨1, ly, rfl⟩
    | cons pc pn =>
      rw [wrapPieces] at hr
      have hc := turn_congr tw tx sw' sw ly pc
      cases ht : turn tw tx sw' ly pc with rw [ht] at hr hc
      | split ps =>
        obtain ⟨-, -, -, rfl⟩ := turn_split ht
        exact (ih h hl (hp.split _ _) hr).turn fun _ => by rw [wrapPieces, hc]
      | placed placed =>
        obtain ⟨hpl, -⟩ := h.turn_placed hp.head hc.1
        exact (ih hpl (hc.2.trans hl) hp.tail hr).turn fun _ => by rw [wrapPieces, hc.1]
      | broken broken =>
        obtain ⟨s, hs, rfl⟩ := turn_broken ht
        have hln := wrapPieces_lines hr
        have hb := (h.bounded ⟨s, ly.lineEnd⟩ (mem_ranges.mpr (.inr ⟨s, hs, rfl⟩))).2
        rw [hl] at hln
        have he := wrapPieces_ends (h.finish hs) hp ((hn _ hln).mono hb) hf
        exact he.turn fun _ => by rw [wrapPieces, hc]

theorem wrapWords_follow (h : Filled tw tx (wordsOf tx t) iw sw dn cr ly) (hl : ly.lines = [])
    (hr : Remaining tx cr f) (hw : mixedUrlWords t cr f ⊆ wordsOf tx t)
    (hf : FirstFits tw tx (wordsOf tx t) iw)
    (hrun : wrapWords tw tx sw' ts ly (mixedUrlWords t cr f) = some l)
    (hn : ∀ line, [line] <+: l.lines →
      Narrow tw tx (wordsOf tx t) (max sw 1) ⟨line.stop, tx.length⟩) :
    WordsEnd tw tx sw ly (mixedUrlWords t cr f) := by
  induction f generalizing cr ly dn with
  | nil => exact ⟨0, ly, rfl⟩
  | cons p f ih =>
    obtain ⟨w, wh⟩ := p
    rw [mixedUrlWords] at hw hrun ⊢
    split at hw <;> rename_i hwr
    · subst hwr
      exact ih (h.skip_whitespace hr) hl hr.tail hw hrun
    · rw [if_neg hwr] at hrun ⊢
      have hm := hw mem_cons_self
      have hwt : mixedUrlWords t (cr + w.length + wh.length) f ⊆ wordsOf tx t :=
        fun o ho => hw (mem_cons_of_mem _ ho)
      obtain ⟨b, hb, hrest⟩ := wrapWords_cons hrun
      have hpn := (hr.pending hwr hm).split tw ly.lineLimit
      rw [append_nil] at hpn
      obtain ⟨ts', b', hb'⟩ := wrapPieces_follow h hl hpn hf hb
        fun line hln => hn line (hln.trans (wrapWords_lines hrest))
      have hpl := h.place_word hr hwr hm hb'
      refine WordsEnd.cons hb' ?_
      rcases wrapPieces_sameFirst hl hb hb' with ⟨rfl, hbl⟩ | ⟨line, hln, hln'⟩
      · exact ih hpl hbl hr.tail hwt hrest
      · have hst := (hpl.bounded line (mem_ranges.mpr (.inl (hln'.subset (by simp))))).2
        have hnr := hn line (hln.trans (wrapWords_lines hrest))
        exact wrapWords_ends hpl hr.tail hwt (hnr.mono hst) hf

end FirstLine

end UrlWrapping
