import CodexTeams.UrlWrapping

/-! What the lines hold while the words are placed on them. -/
namespace UrlWrapping

open RustStr List Option Nat Layout

def Range.Within (inner outer : Range) : Prop :=
  outer.start ≤ inner.start ∧ inner.stop ≤ outer.stop

def limitAt (initialWidth subsequentWidth : ℕ) : ℕ → ℕ
  | 0 => max initialWidth 1
  | _ + 1 => max subsequentWidth 1

section

variable (tw : Textwrap) (text : Str) (words : List MixedUrlWord)

/-- A line holds a URL, is within its limit, is a single character, or would be within its limit
without its leading spaces. -/
def LineFits (limit : ℕ) (line : Range) :
    Prop :=
  (∃ word ∈ words, word.isUrl = true ∧ word.range.Within line) ∨
    tw.displayWidth (slice text line) ≤ limit ∨
    ((slice text line).dropWhile (· = ' ')).length = 1 ∨
    tw.displayWidth ((slice text line).dropWhile (· = ' ')) ≤ limit

/-- A place of the text that is in no URL. -/
def Prose (k : ℕ) : Prop :=
  ∀ word ∈ words, word.isUrl = true → ¬ word.range.Holds k

/-- No character of prose in a range is wider than a limit. -/
def Narrow (limit : ℕ) (range : Range) :
    Prop :=
  ∀ k c, range.Holds k → Prose words k → text[k]? = some c → tw.displayWidth [c] ≤ limit

/-- The first character of the text fits behind the leading spaces, unless it starts a URL. -/
def FirstFits (initialWidth : ℕ) : Prop :=
  Prose words (leadingSpaceWidth text) → ∀ c, text[leadingSpaceWidth text]? = some c →
    tw.displayWidth [c] ≤ max (max initialWidth 1 - leadingSpaceWidth text) 1

end

/-- The lines filled with the text up to a place. Widths are as they are added up where the text has
no escape sequences. -/
structure Filled (tw : Textwrap) (text : Str) (words : List MixedUrlWord)
    (initialWidth subsequentWidth : ℕ) (done : List MixedUrlWord) (pos : ℕ) (layout : Layout) :
    Prop where
  limit : layout.lineLimit = limitAt initialWidth subsequentWidth layout.lines.length
  ordered : layout.ranges.Pairwise fun line later => line.stop ≤ later.start
  bounded : ∀ line ∈ layout.ranges, line.start < line.stop ∧ line.stop ≤ pos
  covers : ∀ k < pos, ∀ c, text[k]? = some c → c ≠ ' ' →
    ∃ line ∈ layout.ranges, line.start ≤ k ∧ k < line.stop
  urls : ∀ word ∈ done, word.isUrl = true → ∃ line ∈ layout.ranges, word.range.Within line
  fits : '\x1b' ∉ text → ∀ i line, layout.ranges[i]? = some line →
    LineFits tw text words (limitAt initialWidth subsequentWidth i) line ∧
      Narrow tw text words (limitAt initialWidth subsequentWidth i) line
  first : '\x1b' ∉ text → layout.ranges ≠ [] → FirstFits tw text words initialWidth
  width : '\x1b' ∉ text → ∀ start, layout.lineStart = some start →
    layout.lineWidth = tw.displayWidth (slice text ⟨start, layout.lineEnd⟩)
  gap : layout.lineStart ≠ none → ∀ k, layout.lineEnd ≤ k → k < pos → text[k]? = some ' '
  blank : layout.lineStart = none → layout.lines = [] → ∀ k < pos, text[k]? = some ' '

section Fill

variable {tx : Str} {ly : Layout} {pc : MixedUrlWord}

theorem filled_start : Filled tw tx ws iw sw [] 0 (.start iw) where
  limit := rfl
  ordered := .nil
  bounded := by simp [start, Layout.ranges]
  covers := by simp
  urls := by simp
  fits := by simp [start, Layout.ranges]
  first := by simp [start, Layout.ranges]
  width := by simp [start]
  gap := by simp [start]
  blank := by simp

theorem mem_ranges : l ∈ ly.ranges ↔
    l ∈ ly.lines ∨ ∃ s, ly.lineStart = some s ∧ l = ⟨s, ly.lineEnd⟩ := by
  rw [Layout.ranges]
  split
  · rename_i hn
    simp [hn]
  · rename_i s hs
    simp [hs]

variable {c : Char}

theorem takeWhile_length_eq (hb : ∀ k < pos, tx[k]? = some ' ') (hc : tx[pos]? = some c)
    (hne : c ≠ ' ') : leadingSpaceWidth tx = pos := by
  induction tx generalizing pos with
  | nil => simp at hc
  | cons d tx ih =>
    cases pos with
    | zero =>
      rw [getElem?_cons_zero, some.injEq] at hc
      simp [leadingSpaceWidth, hc, hne]
    | succ pos =>
      have hd := hb 0 (succ_pos pos)
      have hr : leadingSpaceWidth tx = pos := ih (fun k hk => hb (k + 1) (succ_lt_succ hk)) hc
      rw [leadingSpaceWidth] at hr ⊢
      rw [takeWhile_cons_of_pos (by simpa using hd), length_cons, hr]

theorem dropWhile_slice (hlt : a < b) (hc : tx[a]? = some c) (hne : c ≠ ' ') :
    (slice tx ⟨a, b⟩).dropWhile (· = ' ') = slice tx ⟨a, b⟩ := by
  have hh := head?_slice tx hlt
  rw [hc] at hh
  cases hs : slice tx ⟨a, b⟩ with
  | nil => rfl
  | cons d r =>
    rw [hs, head?_cons, some.injEq] at hh
    exact dropWhile_cons_of_neg (by simpa [hh] using hne)

theorem one_le_limitAt (iw sw i : ℕ) : 1 ≤ limitAt iw sw i := by
  cases i <;> exact le_max_right _ _

theorem narrow_space {tw : Textwrap} {k : ℕ} (hl : 1 ≤ lm) (hs : tx[k]? = some ' ')
    (hc : tx[k]? = some c) : tw.displayWidth [c] ≤ lm := by
  obtain rfl : ' ' = c := some.inj (hs.symm.trans hc)
  rwa [displayWidth_spaces tw (by simp)]

theorem narrow_piece (he : '\x1b' ∉ tx) (hf : pc.isUrl = true ∧ pc ∈ ws ∨ pc.width tw tx ≤ lm) :
    Narrow tw tx ws lm pc.range := by
  rintro k c ⟨hk, hlt⟩ hp hc
  rcases hf with ⟨hu, hm⟩ | hf
  · exact absurd ⟨hk, hlt⟩ (hp pc hm hu)
  · have hin : c ∈ slice tx pc.range := mem_slice.mpr ⟨k, hk, hlt, hc⟩
    exact (displayWidth_le_of_mem tw (slice_no_escape he _) hin).trans hf

section

variable (h : Filled tw tx ws iw sw dn pos ly)

include h

theorem Filled.skip (hle : pos ≤ pos')
    (hs : ∀ k, pos ≤ k → k < pos' → tx[k]? = some ' ') : Filled tw tx ws iw sw dn pos' ly where
  limit := h.limit
  ordered := h.ordered
  bounded := fun l hl => ⟨(h.bounded l hl).1, (h.bounded l hl).2.trans hle⟩
  covers := by
    intro k hk c hc hne
    by_cases hb : k < pos
    · exact h.covers k hb c hc hne
    · rw [hs k (by omega) hk, some.injEq] at hc
      exact absurd hc.symm hne
  urls := h.urls
  fits := h.fits
  first := h.first
  width := h.width
  gap := by
    intro hst k hk hlt
    by_cases hb : k < pos
    · exact h.gap hst k hk hb
    · exact hs k (by omega) hlt
  blank := by
    intro hst hln k hk
    by_cases hb : k < pos
    · exact h.blank hst hln k hb
    · exact hs k (by omega) hk

theorem Filled.finish (hs : ly.lineStart = some s) :
    Filled tw tx ws iw sw dn pos
      { lines := ly.lines ++ [⟨s, ly.lineEnd⟩]
        lineStart := none
        lineEnd := 0
        lineWidth := 0
        lineLimit := max sw 1 } := by
  have hr : ly.ranges = ly.lines ++ [⟨s, ly.lineEnd⟩] := by
    rw [Layout.ranges, hs]
  refine ⟨?_, ?_, ?_, ?_, ?_, ?_, ?_, fun _ => nofun, fun h => absurd rfl h, ?_⟩
  · simp [limitAt]
  · simpa only [Layout.ranges, ← hr] using h.ordered
  · simpa only [Layout.ranges, ← hr] using h.bounded
  · simpa only [Layout.ranges, ← hr] using h.covers
  · simpa only [Layout.ranges, ← hr] using h.urls
  · simpa only [Layout.ranges, ← hr] using h.fits
  · simpa only [Layout.ranges, ← hr] using h.first
  · intro _ hl
    simp at hl

theorem Filled.grow {start width : ℕ} (hs : pos < st) (hle : start ≤ pos)
    (hln : ∀ l ∈ ly.lines, l.stop ≤ start) (hst : ∀ cr, ly.lineStart = some cr → cr = start)
    (hwd : '\x1b' ∉ tx → width = tw.displayWidth (slice tx ⟨start, st⟩))
    (hf : '\x1b' ∉ tx → LineFits tw tx ws (limitAt iw sw ly.lines.length) ⟨start, st⟩ ∧
      Narrow tw tx ws (limitAt iw sw ly.lines.length) ⟨start, st⟩)
    (hfr : '\x1b' ∉ tx → FirstFits tw tx ws iw) :
    Filled tw tx ws iw sw dn st
      { ly with lineStart := some start, lineEnd := st, lineWidth := width } := by
  -- every line lies in one of the new lines
  have hw : ∀ l ∈ ly.ranges, ∃ later ∈ ly.lines ++ [⟨start, st⟩], l.Within later := by
    intro l hl
    have hb := h.bounded l hl
    rcases mem_ranges.mp hl with hl | ⟨cr, hcr, rfl⟩
    · exact ⟨l, mem_append_left _ hl, le_refl _, le_refl _⟩
    · have hsm := hst cr hcr
      refine ⟨⟨start, st⟩, mem_append_right _ mem_cons_self, ?_⟩
      exact ⟨le_of_eq hsm.symm, le_trans hb.2 (le_of_lt hs)⟩
  have ho : ∀ l ∈ ly.lines, l ∈ ly.ranges := fun l hl =>
    mem_ranges.mpr (.inl hl)
  refine ⟨h.limit, ?_, ?_, ?_, ?_, ?_, fun he _ => hfr he, ?_, ?_, nofun⟩
  · rw [Layout.ranges, pairwise_append]
    refine ⟨?_, pairwise_singleton .., ?_⟩
    · refine h.ordered.sublist ?_
      rw [Layout.ranges]
      split
      · exact .refl _
      · exact sublist_append_left ..
    · intro l hl later hlr
      rw [mem_singleton.mp hlr]
      exact hln l hl
  · intro l hl
    rcases mem_append.mp hl with hl | hl
    · have hb := h.bounded l (ho l hl)
      omega
    · rw [mem_singleton.mp hl]
      exact ⟨lt_of_le_of_lt hle hs, le_refl _⟩
  · intro k hk c hc hne
    by_cases hbf : k < pos
    · obtain ⟨l, hl, hin⟩ := h.covers k hbf c hc hne
      obtain ⟨later, hlr, hw⟩ := hw l hl
      exact ⟨later, hlr, Nat.le_trans hw.1 hin.1, Nat.lt_of_lt_of_le hin.2 hw.2⟩
    · exact ⟨⟨start, st⟩, mem_append_right _ mem_cons_self,
        Nat.le_trans hle (Nat.le_of_not_lt hbf), hk⟩
  · intro wd hwr hu
    obtain ⟨l, hl, hin⟩ := h.urls wd hwr hu
    obtain ⟨later, hlr, hw⟩ := hw l hl
    exact ⟨later, hlr, le_trans hw.1 hin.1, le_trans hin.2 hw.2⟩
  · intro he i l hl
    change (ly.lines ++ [⟨start, st⟩])[i]? = some l at hl
    by_cases hi : i < ly.lines.length
    · rw [getElem?_append_left hi] at hl
      apply h.fits he
      rw [Layout.ranges]
      split
      · exact hl
      · rw [getElem?_append_left hi, hl]
    · rw [List.getElem?_append_right (by omega)] at hl
      have hi : i = ly.lines.length := by
        have hlt := (List.getElem?_eq_some_iff.mp hl).1
        rw [length_singleton] at hlt
        omega
      subst hi
      rw [Nat.sub_self, getElem?_cons_zero, some.injEq] at hl
      exact hl ▸ hf he
  · rintro he cr ⟨⟩
    exact hwd he
  · intro _ k hk hlt
    change st ≤ k at hk
    omega

theorem Filled.emptyLine_le : emptyLinePieceLimit tx ly ≤ limitAt iw sw ly.lines.length := by
  have hl := one_le_limitAt iw sw ly.lines.length
  rw [emptyLinePieceLimit, h.limit]
  omega

theorem Filled.begin_first (hn : ly.lineStart = none) (hl : ly.lines = [])
    (hpo : pc.range.start = pos) (hlt : pos < pc.range.stop) (hc : tx[pos]? = some c)
    (hne : c ≠ ' ') (hf : pc.isUrl = true ∧ pc ∈ ws ∨ pc.width tw tx ≤ emptyLinePieceLimit tx ly) :
    Filled tw tx ws iw sw dn pc.range.stop
      { ly with
        lineStart := some 0
        lineEnd := pc.range.stop
        lineWidth := leadingSpaceWidth tx + pc.width tw tx } := by
  have hb := h.blank hn hl
  have hld : leadingSpaceWidth tx = pos := takeWhile_length_eq hb hc hne
  have hs : ∀ ch ∈ slice tx ⟨0, pos⟩, ch = ' ' := by
    intro ch hm
    obtain ⟨k, _, hk, hch⟩ := mem_slice.mp hm
    rw [hb k hk, some.injEq] at hch
    exact hch.symm
  have hps : pos ≤ tx.length := le_of_lt (List.getElem?_eq_some_iff.mp hc).1
  have hsl : slice tx ⟨0, pc.range.stop⟩ = slice tx ⟨0, pos⟩ ++ slice tx ⟨pos, pc.range.stop⟩ :=
    slice_append (zero_le pos) (le_of_lt hlt)
  have hp : pc.width tw tx = tw.displayWidth (slice tx ⟨pos, pc.range.stop⟩) := by
    rw [MixedUrlWord.width, ← hpo]
  have hw : '\x1b' ∉ tx → tw.displayWidth (slice tx ⟨0, pc.range.stop⟩) = pos + pc.width tw tx := by
    intro he
    rw [hsl, displayWidth_append tw (slice_no_escape he _) (slice_no_escape he _),
      displayWidth_spaces tw hs, length_slice hps, hp, Nat.sub_zero]
  have hd : (slice tx ⟨0, pc.range.stop⟩).dropWhile (· = ' ') = slice tx ⟨pos, pc.range.stop⟩ := by
    rw [hsl, dropWhile_append_of_pos (by simpa using hs), dropWhile_slice hlt hc hne]
  have hem : emptyLinePieceLimit tx ly = max (max iw 1 - pos) 1 := by
    rw [emptyLinePieceLimit, emptyLinePrefixWidth, if_pos ⟨hn, hl⟩, h.limit, hld, hl]
    rfl
  apply h.grow hlt (zero_le pos) (by simp [hl]) (by simp [hn]) <;> intro he
  · rw [hw he, hld]
  · rw [hl]
    constructor
    · rcases hf with ⟨hu, hm⟩ | hf
      · exact .inl ⟨pc, hm, hu, zero_le _, le_refl _⟩
      · rw [hem] at hf
        -- the leading spaces leave room for the piece, or the piece is not to blame
        by_cases hr : pos < max iw 1
        · refine .inr (.inl ?_)
          rw [hw he, length_nil, limitAt]
          omega
        · refine .inr (.inr (.inr ?_))
          rw [hd, ← hp, length_nil, limitAt]
          omega
    · rintro k ch ⟨-, hk⟩ hpk hch
      by_cases hkp : k < pos
      · exact narrow_space (one_le_limitAt ..) (hb k hkp) hch
      · have hle := h.emptyLine_le
        rw [hl] at hle
        exact (narrow_piece he hf k ch ⟨by omega, hk⟩ hpk hch).trans hle
  · intro hpk ch hch
    rw [hld] at hpk hch ⊢
    rw [← hem]
    exact narrow_piece he hf pos ch ⟨hpo.le, hlt⟩ hpk hch

theorem Filled.begin_later (hn : ly.lineStart = none)
    (hl : ly.lines ≠ []) (hp : pc.range.start = pos) (hlt : pos < pc.range.stop)
    (hf : pc.isUrl = true ∧ pc ∈ ws ∨ pc.width tw tx ≤ emptyLinePieceLimit tx ly) :
    Filled tw tx ws iw sw dn pc.range.stop
      { ly with
        lineStart := some pc.range.start
        lineEnd := pc.range.stop
        lineWidth := pc.width tw tx } := by
  refine h.grow hlt (le_of_eq hp) ?_ (by simp [hn]) (fun _ => rfl) ?_ ?_
  · intro l hln
    rw [hp]
    exact (h.bounded l (mem_ranges.mpr (.inl hln))).2
  · intro he
    constructor
    · rcases hf with ⟨hu, hm⟩ | hf
      · exact .inl ⟨pc, hm, hu, le_refl _, le_refl _⟩
      · exact .inr (.inl (hf.trans h.emptyLine_le))
    · intro k ch hk hpk hch
      exact (narrow_piece he hf k ch hk hpk hch).trans h.emptyLine_le
  · intro he
    exact h.first he (by simpa [Layout.ranges, hn] using hl)

theorem Filled.extend (hs : ly.lineStart = some s)
    (hp : pc.range.start = pos) (hlt : pos < pc.range.stop) (hft : ly.lineWidth + (slice tx
      ⟨ly.lineEnd, pc.range.start⟩).length + pc.width tw tx ≤ ly.lineLimit) :
    Filled tw tx ws iw sw dn pc.range.stop
      { ly with
        lineEnd := pc.range.stop
        lineWidth := ly.lineWidth +
          ((slice tx ⟨ly.lineEnd, pc.range.start⟩).length + pc.width tw tx) } := by
  have hc : (⟨s, ly.lineEnd⟩ : Range) ∈ ly.ranges := mem_ranges.mpr (.inr ⟨s, hs, rfl⟩)
  obtain ⟨hst, hen⟩ := h.bounded _ hc
  have hsp : ∀ ch ∈ slice tx ⟨ly.lineEnd, pc.range.start⟩, ch = ' ' := by
    intro ch hm
    obtain ⟨k, hk, hkp, hch⟩ := mem_slice.mp hm
    rw [h.gap (by simp [hs]) k hk (hp ▸ hkp), some.injEq] at hch
    exact hch.symm
  have hw : '\x1b' ∉ tx → ly.lineWidth +
      ((slice tx ⟨ly.lineEnd, pc.range.start⟩).length + pc.width tw tx) =
      tw.displayWidth (slice tx ⟨s, pc.range.stop⟩) := by
    intro he
    have hf : slice tx ⟨s, pc.range.stop⟩ =
        slice tx ⟨s, ly.lineEnd⟩ ++ slice tx ⟨ly.lineEnd, pc.range.stop⟩ :=
      slice_append (le_of_lt hst) (by change ly.lineEnd ≤ pos at hen; omega)
    have hr : slice tx ⟨ly.lineEnd, pc.range.stop⟩ =
        slice tx ⟨ly.lineEnd, pc.range.start⟩ ++ slice tx pc.range :=
      slice_append (hp ▸ hen) (by omega)
    rw [hf, hr, displayWidth_append tw (slice_no_escape he _),
      displayWidth_append tw (slice_no_escape he _) (slice_no_escape he _),
      displayWidth_spaces tw hsp, h.width he s hs, MixedUrlWord.width]
    rw [← hr]
    exact slice_no_escape he _
  have hg : Filled tw tx ws iw sw dn pc.range.stop
      { ly with
        lineStart := some s
        lineEnd := pc.range.stop
        lineWidth := ly.lineWidth +
          ((slice tx ⟨ly.lineEnd, pc.range.start⟩).length + pc.width tw tx) } := by
    refine h.grow hlt ?_ ?_ ?_ hw ?_ ?_
    · change ly.lineEnd ≤ pos at hen
      change s < ly.lineEnd at hst
      omega
    · intro l hl
      have ho := h.ordered
      rw [Layout.ranges, hs, pairwise_append] at ho
      exact ho.2.2 l hl _ mem_cons_self
    · intro cr hc
      rw [hs, some.injEq] at hc
      exact hc.symm
    · intro he
      constructor
      · refine .inr (.inl ?_)
        rw [← hw he, ← h.limit]
        omega
      · rintro k ch ⟨hk, hkl⟩ hpk hch
        by_cases hke : k < ly.lineEnd
        · have hi : ly.ranges[ly.lines.length]? = some ⟨s, ly.lineEnd⟩ := by
            simp [Layout.ranges, hs]
          exact (h.fits he _ _ hi).2 k ch ⟨hk, hke⟩ hpk hch
        · by_cases hkp : k < pos
          · exact narrow_space (one_le_limitAt ..) (h.gap (by simp [hs]) k (by omega) hkp) hch
          · rw [← h.limit]
            exact narrow_piece he (.inr (by omega)) k ch ⟨by omega, hkl⟩ hpk hch
    · exact fun he => h.first he (ne_nil_of_mem hc)
  rwa [← hs] at hg

end

/-- A piece at a place of the text: part of a word, and a URL only as the whole word. -/
structure PieceAt (text : Str) (words : List MixedUrlWord) (pos : ℕ) (piece : MixedUrlWord) :
    Prop where
  start : piece.range.start = pos
  lt : pos < piece.range.stop
  le : piece.range.stop ≤ text.length
  chars : ∀ k, pos ≤ k → k < piece.range.stop → text[k]? ≠ some ' '
  url : piece.isUrl = true → piece ∈ words
  prose : piece.isUrl = false → Prose words pos

theorem PieceAt.first (h : PieceAt tx ws pos pc) : ∃ c, tx[pos]? = some c ∧ c ≠ ' ' := by
  have hlt : pos < tx.length := lt_of_lt_of_le h.lt h.le
  refine ⟨tx[pos], getElem?_eq_getElem hlt, ?_⟩
  intro hs
  exact h.chars pos (le_refl pos) h.lt (by rw [getElem?_eq_getElem hlt, hs])

theorem Filled.turn_placed (h : Filled tw tx ws iw sw dn pos ly)
    (hp : PieceAt tx ws pos pc) (ht : turn tw tx sw ly pc = .placed ly') :
    Filled tw tx ws iw sw dn pc.range.stop ly' ∧ ∃ s, ly'.lineStart = some s ∧ s ≤ pc.range.start ∧
        ly'.lineEnd = pc.range.stop := by
  obtain ⟨c, hc, hne⟩ := hp.first
  cases hs : ly.lineStart with simp only [turn, hs] at ht
  | none =>
    split at ht
    · cases ht
    · rename_i hsm
      split at ht
      · have hf : pc.isUrl = true ∧ pc ∈ ws ∨
            pc.width tw tx ≤ emptyLinePieceLimit tx ly := by
          cases hu : pc.isUrl with
          | true => exact .inl ⟨rfl, hp.url hu⟩
          | false =>
            rw [hu] at hsm
            exact .inr (Nat.le_of_not_lt fun hlt => hsm ⟨rfl, hlt⟩)
        rw [Turn.placed.injEq] at ht
        subst ht
        by_cases hl : ly.lines = []
        · rw [if_pos hl, if_pos hl]
          exact ⟨h.begin_first hs hl hp.start hp.lt hc hne hf, 0, rfl, zero_le _, rfl⟩
        · rw [if_neg hl, if_neg hl]
          exact ⟨h.begin_later hs hl hp.start hp.lt hf, pc.range.start, rfl, le_refl _, rfl⟩
      · cases ht
  | some s =>
    split at ht
    · rename_i hf
      rw [Turn.placed.injEq] at ht
      subst ht
      have hcr := h.bounded ⟨s, ly.lineEnd⟩ (mem_ranges.mpr (.inr ⟨s, hs, rfl⟩))
      refine ⟨?_, s, rfl, ?_, rfl⟩
      · simpa only [hs] using h.extend hs hp.start hp.lt hf
      · change s < ly.lineEnd ∧ ly.lineEnd ≤ pos at hcr
        have hps := hp.start
        omega
    · cases ht

theorem turn_broken (ht : turn tw tx sw ly pc = .broken ly') : ∃ s, ly.lineStart = some s ∧ ly' =
      { lines := ly.lines ++ [⟨s, ly.lineEnd⟩]
        lineStart := none
        lineEnd := 0
        lineWidth := 0
        lineLimit := max sw 1 } := by
  cases hs : ly.lineStart with simp only [turn, hs] at ht
  | none =>
    split at ht
    · cases ht
    · rename_i hsm
      split at ht
      · cases ht
      · rename_i hw
        simp only [not_or, Bool.not_eq_true] at hw
        have hle : pc.width tw tx ≤ emptyLinePieceLimit tx ly :=
          Nat.le_of_not_lt fun hlt => hsm ⟨hw.1, hlt⟩
        rw [emptyLinePieceLimit] at hle
        omega
  | some s =>
    split at ht
    · cases ht
    · rw [Turn.broken.injEq] at ht
      exact ⟨s, rfl, ht.symm⟩

theorem turn_split (ht : turn tw tx sw ly pc = .split ps) :
    ly.lineStart = none ∧ pc.isUrl = false ∧ emptyLinePieceLimit tx ly < pc.width tw tx ∧
      ps = splitMixedUrlWord tw tx pc (emptyLinePieceLimit tx ly) := by
  cases hs : ly.lineStart with simp only [turn, hs] at ht
  | none =>
    split at ht
    · rename_i hw
      rw [Turn.split.injEq] at ht
      exact ⟨rfl, hw.1, hw.2, ht.symm⟩
    · split at ht <;> cases ht
  | some start => split at ht <;> cases ht

structure Pending (text : Str) (words : List MixedUrlWord) (pos : ℕ) (pending : List MixedUrlWord)
    (stop : ℕ) : Prop where
  chain : Chain pos pending stop
  le : stop ≤ text.length
  chars : ∀ k, pos ≤ k → k < stop → text[k]? ≠ some ' '
  urls : ∀ piece ∈ pending, piece.isUrl = true → piece ∈ words
  prose : ∀ piece ∈ pending, piece.isUrl = false → ∀ k, pos ≤ k → k < stop → Prose words k

section

variable (h : Pending tx ws pos (pc :: p) st)

include h

theorem Pending.head : PieceAt tx ws pos pc := by
  obtain ⟨hs, hlt, hr⟩ := h.chain
  have hle := hr.le
  refine ⟨hs, hlt, le_trans hle h.le, ?_, h.urls pc mem_cons_self, ?_⟩
  · intro k hk hks
    exact h.chars k hk (by omega)
  · exact fun hp => h.prose pc mem_cons_self hp pos (le_refl pos) (by omega)

theorem Pending.tail : Pending tx ws pc.range.stop p st := by
  obtain ⟨_, hlt, hr⟩ := h.chain
  refine ⟨hr, h.le, ?_, fun o ho => h.urls o (mem_cons_of_mem pc ho), ?_⟩
  · intro k hk hks
    exact h.chars k (by omega) hks
  · intro o ho hp k hk
    exact h.prose o (mem_cons_of_mem pc ho) hp k (by omega)

theorem Pending.split (tw : Textwrap) (l : ℕ) :
    Pending tx ws pos (splitMixedUrlWord tw tx pc l ++ p) st := by
  have hp := h.head
  obtain ⟨hst, hlt, hr⟩ := h.chain
  have hs := chain_split tw (hst ▸ hlt) hp.le l
  rw [hst] at hs
  refine ⟨hs.append hr, h.le, h.chars, ?_, ?_⟩ <;> intro o ho hu
  · rcases mem_append.mp ho with ho | ho
    · have hsm := eq_of_isUrl_split tw ho hu
      rw [hsm] at hu ⊢
      exact hp.url hu
    · exact h.urls o (mem_cons_of_mem pc ho) hu
  · rcases mem_append.mp ho with ho | ho
    · exact h.prose pc mem_cons_self ((isUrl_split tw ho).symm.trans hu)
    · exact h.prose o (mem_cons_of_mem pc ho) hu

end

theorem Filled.of_done (h : Filled tw tx ws iw sw dn pos ly)
    (hd : ∀ wd ∈ dn', wd.isUrl = true → ∃ l ∈ ly.ranges, wd.range.Within l) :
    Filled tw tx ws iw sw dn' pos ly :=
  { h with urls := hd }

/-- What the inner loop leaves when it ends: all pieces are on lines. -/
theorem wrapPieces_filled (h : Filled tw tx ws iw sw dn pos ly) (hp : Pending tx ws pos p st)
    (hr : wrapPieces tw tx sw trs ly p = some ly') : Filled tw tx ws iw sw (p ++ dn) st ly' := by
  induction trs generalizing ly p pos dn with
  | zero => cases hr
  | succ trs ih =>
    cases p with
    | nil =>
      rw [wrapPieces, some.injEq] at hr
      have hc : pos = st := hp.chain
      rw [← hr, ← hc]
      exact h
    | cons pc p =>
      rw [wrapPieces] at hr
      split at hr
      · rename_i pieces ht
        obtain ⟨_, hpr, _, rfl⟩ := turn_split ht
        have hf := ih h (hp.split _ _) hr
        refine hf.of_done ?_
        intro wd hw hu
        rcases mem_cons.mp hw with rfl | hw
        · rw [hpr] at hu
          cases hu
        · refine hf.urls wd ?_ hu
          rw [append_assoc]
          exact mem_append_right _ hw
      · rename_i placed ht
        obtain ⟨hpl, start, hs, hle, he⟩ := h.turn_placed hp.head ht
        have hm : Filled tw tx ws iw sw (pc :: dn) pc.range.stop placed := by
          refine hpl.of_done ?_
          intro wd hw hu
          rcases mem_cons.mp hw with rfl | hw
          · refine ⟨⟨start, placed.lineEnd⟩, mem_ranges.mpr (.inr ⟨start, hs, rfl⟩), hle, ?_⟩
            exact le_of_eq he.symm
          · exact hpl.urls wd hw hu
        have hf := ih hm hp.tail hr
        refine hf.of_done ?_
        intro wd hw
        refine hf.urls wd ?_
        simp only [mem_cons, mem_append] at hw ⊢
        tauto
      · rename_i broken ht
        obtain ⟨start, hs, rfl⟩ := turn_broken ht
        exact ih (h.finish hs) hp hr

/-- The rest of the text is made of the words that were found. -/
structure Remaining (text : Str) (cursor : ℕ) (found : List (Str × Str)) : Prop where
  rest : text.drop cursor = found.flatMap fun pair => pair.1 ++ pair.2
  le : cursor ≤ text.length
  chars : ∀ pair ∈ found, (∀ c ∈ pair.1, c ≠ ' ') ∧ ∀ c ∈ pair.2, c = ' '

theorem remaining_findWords (tx : Str) : Remaining tx 0 (findWords tx) :=
  ⟨(findWords_flatMap tx).symm, zero_le _, findWords_chars tx⟩

section Remaining

variable {c : ℕ} {wr w : Str} {found : List (Str × Str)} (h : Remaining tx c ((wr, w) :: found))

include h

theorem Remaining.tail : Remaining tx (c + wr.length + w.length) found := by
  have hr := h.rest
  rw [flatMap_cons] at hr
  have hl := congrArg length hr
  simp only [length_drop, length_append] at hl
  have hle := h.le
  refine ⟨?_, ?_, fun p hp => h.chars p (mem_cons_of_mem _ hp)⟩
  · rw [Nat.add_assoc, ← drop_drop, hr, drop_left' (by simp)]
  · omega

theorem Remaining.getElem?_word (hk : k < wr.length) : tx[c + k]? = wr[k]? := by
  have hr := h.rest
  rw [flatMap_cons, append_assoc] at hr
  rw [← getElem?_drop, hr, getElem?_append_left hk]

theorem Remaining.getElem?_whitespace (hk : k < w.length) : tx[c + wr.length + k]? = some ' ' := by
  have hr := h.rest
  rw [flatMap_cons, append_assoc] at hr
  have hs := (h.chars _ mem_cons_self).2 w[k] (getElem_mem hk)
  rw [Nat.add_assoc, ← getElem?_drop, hr,
    getElem?_append_right (Nat.le_add_right _ _), Nat.add_sub_cancel_left,
    getElem?_append_left hk, getElem?_eq_getElem hk, hs]

theorem Remaining.pending (hw : wr ≠ [])
    (hm : (⟨⟨c, c + wr.length⟩, iu⟩ : MixedUrlWord) ∈ wordsOf tx t) :
    Pending tx (wordsOf tx t) c [⟨⟨c, c + wr.length⟩, iu⟩] (c + wr.length) := by
  have hps := length_pos_iff.mpr hw
  have hle := h.tail.le
  refine ⟨⟨rfl, by simpa using hps, rfl⟩, by omega, ?_, ?_, ?_⟩
  · intro k hk hlt hs
    have hat := h.getElem?_word (k := k - c) (by omega)
    rw [Nat.add_sub_cancel' hk, hs] at hat
    exact (h.chars _ mem_cons_self).1 ' ' (mem_of_getElem? hat.symm) rfl
  · intro pc hp _
    rw [mem_singleton.mp hp]
    exact hm
  · intro pc hp hpr k hk hlt o ho hu hko
    rw [mem_singleton.mp hp] at hpr
    rw [word_eq_of_holds ho hm hko ⟨hk, hlt⟩, hpr] at hu
    cases hu

end Remaining

theorem wrapWords_cons (h : wrapWords tw tx sw trs ly (wd :: r) = some ly') :
    ∃ b, wrapPieces tw tx sw trs ly (splitMixedUrlWord tw tx wd ly.lineLimit) = some b ∧
      wrapWords tw tx sw trs b r = some ly' := by
  rw [wrapWords, bind_eq_bind, bind_eq_some_iff] at h
  exact h

section Words

variable {c : ℕ}

theorem Filled.skip_whitespace (h : Filled tw tx ws iw sw dn (c + w.length) ly)
    (hr : Remaining tx c ((w, wh) :: f)) :
    Filled tw tx ws iw sw dn (c + w.length + wh.length) ly := by
  apply h.skip (Nat.le_add_right _ _)
  intro k hk hlt
  have hat := hr.getElem?_whitespace (k := k - (c + w.length)) (by omega)
  rwa [Nat.add_sub_cancel' hk] at hat

theorem Filled.place_word (h : Filled tw tx (wordsOf tx t) iw sw dn c ly)
    (hr : Remaining tx c ((w, wh) :: f)) (hw : w ≠ [])
    (hm : (⟨⟨c, c + w.length⟩, iu⟩ : MixedUrlWord) ∈ wordsOf tx t) (hrt : wrapPieces tw tx sw ts
      ly (splitMixedUrlWord tw tx ⟨⟨c, c + w.length⟩, iu⟩ ly.lineLimit) = some ly') :
    Filled tw tx (wordsOf tx t) iw sw (⟨⟨c, c + w.length⟩, iu⟩ :: dn) (c + w.length + wh.length)
      ly' := by
  let first : MixedUrlWord := ⟨⟨c, c + w.length⟩, iu⟩
  have hs := (hr.pending hw hm).split tw ly.lineLimit
  rw [append_nil] at hs
  have hp := wrapPieces_filled h hs hrt
  have hd : Filled tw tx (wordsOf tx t) iw sw (first :: dn) (c + w.length) ly' := by
    refine hp.of_done ?_
    intro o ho hu
    rcases mem_cons.mp ho with rfl | ho
    · have hf : first ∈ splitMixedUrlWord tw tx first ly.lineLimit := by
        rw [splitMixedUrlWord, if_pos (.inl hu)]
        exact mem_cons_self
      exact hp.urls first (mem_append_left dn hf) hu
    · exact hp.urls o (mem_append_right _ ho) hu
  exact hd.skip_whitespace hr

theorem wrapWords_filled (h : Filled tw tx (wordsOf tx t) iw sw dn c ly) (hr : Remaining tx c f)
    (hw : mixedUrlWords t c f ⊆ wordsOf tx t)
    (hrt : wrapWords tw tx sw ts ly (mixedUrlWords t c f) = some ly') :
    Filled tw tx (wordsOf tx t) iw sw (mixedUrlWords t c f ++ dn) tx.length ly' := by
  induction f generalizing c ly dn with
  | nil =>
    rw [mixedUrlWords, wrapWords, some.injEq] at hrt
    have hl := drop_eq_nil_iff.mp hr.rest
    rw [← hrt, ← le_antisymm hr.le hl]
    exact h
  | cons p f ih =>
    obtain ⟨w, wh⟩ := p
    rw [mixedUrlWords] at hw hrt ⊢
    split at hw <;> rename_i hwr
    · subst hwr
      exact ih (h.skip_whitespace hr) hr.tail hw hrt
    · rw [if_neg hwr] at hrt ⊢
      obtain ⟨between, hp, hlt⟩ := wrapWords_cons hrt
      have hpl := h.place_word hr hwr (hw mem_cons_self) hp
      have hf := ih hpl hr.tail (fun o ho => hw (mem_cons_of_mem _ ho)) hlt
      refine hf.of_done ?_
      intro o ho
      refine hf.urls o ?_
      simp only [mem_cons, mem_append] at ho ⊢
      tauto

end Words

end Fill

end UrlWrapping
