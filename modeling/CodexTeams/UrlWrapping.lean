import CodexTeams.RustStr
import Mathlib.Algebra.GroupWithZero.Nat

/-! Wrapping of a line that mixes prose and URLs. URLs stay whole; other words are broken where they
are wider than a line. Offsets are in characters. -/
namespace UrlWrapping

open RustStr List Nat

structure Range where
  start : ℕ
  stop : ℕ
  deriving DecidableEq

def Range.Holds (range : Range) (k : ℕ) : Prop := range.start ≤ k ∧ k < range.stop

def slice (text : Str) (range : Range) : Str :=
  (text.drop range.start).take (range.stop - range.start)

/-- What is used of the textwrap crate. It does not count escape sequences, so widths add up where
there are none. -/
structure Textwrap where
  chWidth : Char → ℕ
  displayWidth : Str → ℕ
  breakApart : Str → ℕ → List Str
  chWidth_space : chWidth ' ' = 1
  displayWidth_eq : ∀ s, '\x1b' ∉ s → displayWidth s = (s.map chWidth).sum
  breakApart_flatten : ∀ word limit, (breakApart word limit).flatten = word
  breakApart_ne_nil : ∀ word limit, ∀ piece ∈ breakApart word limit, piece ≠ []
  breakApart_fits : ∀ word limit, ∀ piece ∈ breakApart word limit,
    displayWidth piece ≤ limit ∨ piece.length = 1

/-- `WordSeparator::AsciiSpace`: the words, each with the spaces behind it. -/
def findWords : Str → List (Str × Str)
  | [] => []
  | c :: text =>
    match findWords text with
    | [] => if c = ' ' then [([], [' '])] else [([c], [])]
    | (word, whitespace) :: rest =>
      if c = ' ' then
        if word = [] then ([], ' ' :: whitespace) :: rest
        else ([], [' ']) :: (word, whitespace) :: rest
      else (c :: word, whitespace) :: rest

structure MixedUrlWord where
  range : Range
  isUrl : Bool
  deriving DecidableEq

def mixedUrlWords (isUrlLikeToken : Str → Bool) (cursor : ℕ) : List (Str × Str) → List MixedUrlWord
  | [] => []
  | (word, whitespace) :: rest =>
    let wordEnd := cursor + word.length
    let later := mixedUrlWords isUrlLikeToken (wordEnd + whitespace.length) rest
    if word = [] then later else ⟨⟨cursor, wordEnd⟩, isUrlLikeToken word⟩ :: later

def piecesFrom (offset : ℕ) : List Str → List MixedUrlWord
  | [] => []
  | piece :: pieces =>
    ⟨⟨offset, offset + piece.length⟩, false⟩ :: piecesFrom (offset + piece.length) pieces

structure Layout where
  lines : List Range
  lineStart : Option ℕ
  lineEnd : ℕ
  lineWidth : ℕ
  lineLimit : ℕ
  deriving DecidableEq

inductive Turn where
  | split (pieces : List MixedUrlWord)
  | placed (layout : Layout)
  | broken (layout : Layout)

def leadingSpaceWidth (text : Str) : ℕ := (text.takeWhile (· = ' ')).length

section Wrapping

variable (tw : Textwrap) (text : Str) (word : MixedUrlWord)

def MixedUrlWord.width : ℕ := tw.displayWidth (slice text word.range)

def splitMixedUrlWord (lineLimit : ℕ) : List MixedUrlWord :=
  if word.isUrl ∨ word.width tw text ≤ lineLimit then [word]
  else piecesFrom word.range.start (tw.breakApart (slice text word.range) (max lineLimit 1))

variable (layout : Layout)

def emptyLinePrefixWidth : ℕ :=
  if layout.lineStart = none ∧ layout.lines = [] then leadingSpaceWidth text else 0

def emptyLinePieceLimit : ℕ :=
  max (layout.lineLimit - emptyLinePrefixWidth text layout) 1

variable (subsequentWidth : ℕ)

def turn (layout : Layout) (piece : MixedUrlWord) : Turn :=
  let pieceWidth := piece.width tw text
  match layout.lineStart with
  | none =>
    if piece.isUrl = false ∧ emptyLinePieceLimit text layout < pieceWidth then
      .split (splitMixedUrlWord tw text piece (emptyLinePieceLimit text layout))
    else if piece.isUrl ∨ emptyLinePrefixWidth text layout + pieceWidth ≤ layout.lineLimit ∨
        layout.lineLimit ≤ emptyLinePrefixWidth text layout then
      .placed
        { layout with
          lineStart := some (if layout.lines = [] then 0 else piece.range.start)
          lineEnd := piece.range.stop
          lineWidth :=
            if layout.lines = [] then leadingSpaceWidth text + pieceWidth else pieceWidth }
    else
      .broken { layout with lineEnd := 0, lineWidth := 0, lineLimit := max subsequentWidth 1 }
  | some start =>
    let interWordSpace := (slice text ⟨layout.lineEnd, piece.range.start⟩).length
    if layout.lineWidth + interWordSpace + pieceWidth ≤ layout.lineLimit then
      .placed
        { layout with
          lineEnd := piece.range.stop
          lineWidth := layout.lineWidth + (interWordSpace + pieceWidth) }
    else
      .broken
        { lines := layout.lines ++ [⟨start, layout.lineEnd⟩]
          lineStart := none
          lineEnd := 0
          lineWidth := 0
          lineLimit := max subsequentWidth 1 }

def wrapPieces : ℕ → Layout → List MixedUrlWord → Option Layout
  | 0, _, _ => none
  | _ + 1, layout, [] => some layout
  | turns + 1, layout, piece :: pending =>
    match turn tw text subsequentWidth layout piece with
    | .split pieces => wrapPieces turns layout (pieces ++ pending)
    | .placed layout => wrapPieces turns layout pending
    | .broken layout => wrapPieces turns layout (piece :: pending)

def wrapWords (subsequentWidth turns : ℕ) : Layout → List MixedUrlWord → Option Layout
  | layout, [] => some layout
  | layout, word :: words => do
    let layout ← wrapPieces tw text subsequentWidth turns layout
      (splitMixedUrlWord tw text word layout.lineLimit)
    wrapWords subsequentWidth turns layout words

def Layout.start (initialWidth : ℕ) : Layout := ⟨[], none, 0, 0, max initialWidth 1⟩

def Layout.ranges : List Range :=
  match layout.lineStart with
  | none => layout.lines
  | some start => layout.lines ++ [⟨start, layout.lineEnd⟩]

variable (isUrlLikeToken : Str → Bool)

def wordsOf : List MixedUrlWord := mixedUrlWords isUrlLikeToken 0 (findWords text)

def mixedUrlWrapRanges (turns initialWidth subsequentWidth : ℕ) :
    Option (List Range) := do
  let layout ← wrapWords tw text subsequentWidth turns (.start initialWidth)
    (wordsOf text isUrlLikeToken)
  return layout.ranges

def Ends (initialWidth subsequentWidth : ℕ) (ranges : List Range) : Prop :=
  ∃ turns, mixedUrlWrapRanges tw text isUrlLikeToken turns initialWidth subsequentWidth =
    some ranges

end Wrapping

variable {a b : ℕ}

theorem slice_append (hab : a ≤ b) (hbc : b ≤ c) :
    slice tx ⟨a, c⟩ = slice tx ⟨a, b⟩ ++ slice tx ⟨b, c⟩ := by
  simp only [slice]
  have hc : c - a = (b - a) + (c - b) := by omega
  rw [hc, take_add, drop_drop, Nat.add_sub_cancel' hab]

theorem length_slice (hb : b ≤ tx.length) : (slice tx ⟨a, b⟩).length = b - a := by
  simp only [slice, length_take, length_drop]
  omega

theorem length_slice_le (tx : Str) (a b : ℕ) : (slice tx ⟨a, b⟩).length ≤ b - a := length_take_le ..

theorem mem_slice : c ∈ slice tx ⟨a, b⟩ ↔ ∃ k, a ≤ k ∧ k < b ∧ tx[k]? = some c := by
  simp only [slice, mem_iff_getElem?, List.getElem?_take, List.getElem?_drop]
  constructor
  · rintro ⟨i, hi⟩
    split at hi
    · exact ⟨a + i, by omega, by omega, hi⟩
    · cases hi
  · rintro ⟨k, ha, hb, hk⟩
    refine ⟨k - a, ?_⟩
    rw [if_pos (by omega), Nat.add_sub_cancel' ha]
    exact hk

theorem head?_slice (tx : Str) (h : a < b) : (slice tx ⟨a, b⟩).head? = tx[a]? := by
  simp only [slice, List.head?_take, List.head?_drop]
  rw [if_neg (by omega)]

section Widths

variable (tw : Textwrap)

theorem displayWidth_append (hs : '\x1b' ∉ s) (ht : '\x1b' ∉ t) :
    tw.displayWidth (s ++ t) = tw.displayWidth s + tw.displayWidth t := by
  have hst : '\x1b' ∉ s ++ t := by simp [hs, ht]
  rw [tw.displayWidth_eq _ hst, tw.displayWidth_eq s hs, tw.displayWidth_eq t ht, map_append,
    List.sum_append]

theorem displayWidth_le_of_mem (hs : '\x1b' ∉ s) (hm : ch ∈ s) :
    tw.displayWidth [ch] ≤ tw.displayWidth s := by
  have hch : '\x1b' ∉ [ch] := by
    rw [mem_singleton]
    rintro rfl
    exact hs hm
  obtain ⟨bf, after, rfl⟩ := append_of_mem hm
  rw [tw.displayWidth_eq _ hs, tw.displayWidth_eq _ hch, map_append, List.sum_append]
  simp only [map_cons, map_nil, sum_cons, sum_nil]
  omega

theorem displayWidth_spaces (h : ∀ ch ∈ s, ch = ' ') : tw.displayWidth s = s.length := by
  have heq := eq_replicate_of_mem h
  have he : '\x1b' ∉ s := fun hm => absurd (h _ hm) (by decide)
  rw [tw.displayWidth_eq s he, heq]
  simp [tw.chWidth_space]

theorem slice_no_escape (h : '\x1b' ∉ tx) (range : Range) : '\x1b' ∉ slice tx range :=
  fun hm => h (mem_of_mem_drop (mem_of_mem_take hm))

end Widths

theorem findWords_flatMap (tx : Str) : (findWords tx).flatMap (fun f => f.1 ++ f.2) = tx := by
  induction tx with
  | nil => rfl
  | cons c tx ih =>
    rw [findWords]
    split
    · rename_i hn
      rw [hn] at ih
      split <;> simp_all [← ih]
    · rename_i w whitespace rest hf
      rw [hf] at ih
      split
      · split
        · rename_i hc hw
          rw [← ih, hc, hw]
          rfl
        · rename_i hc _
          rw [← ih, hc]
          rfl
      · rw [← ih]
        rfl

theorem findWords_chars (tx : Str) : ∀ f ∈ findWords tx,
    (∀ c ∈ f.1, c ≠ ' ') ∧ ∀ c ∈ f.2, c = ' ' := by
  induction tx with
  | nil => simp [findWords]
  | cons c tx ih =>
    rw [findWords]
    split
    · split <;> simp_all
    · rename_i w whitespace r hf
      rw [hf] at ih
      obtain ⟨hwr, hw⟩ := ih _ mem_cons_self
      have hr := fun f (hm : f ∈ r) => ih f (mem_cons_of_mem _ hm)
      split
      · split <;> intro f hm
        · rcases mem_cons.mp hm with rfl | hm
          · simpa using hw
          · exact hr f hm
        · rcases mem_cons.mp hm with rfl | hm
          · simp
          · exact ih f hm
      · rename_i hc
        intro f hm
        rcases mem_cons.mp hm with rfl | hm
        · refine ⟨?_, hw⟩
          intro d hd
          rcases mem_cons.mp hd with rfl | hd
          · exact hc
          · exact hwr d hd
        · exact hr f hm

theorem start_le_of_mem_words (h : w ∈ mixedUrlWords t cr f) : cr ≤ w.range.start := by
  induction f generalizing cr with
  | nil => cases h
  | cons p f ih =>
    rw [mixedUrlWords] at h
    split at h
    · have hle := ih h
      omega
    · rcases mem_cons.mp h with rfl | h
      · exact le_refl cr
      · have hle := ih h
        omega

/-- A place is in one word at most. -/
theorem word_eq_of_holds (h : w ∈ mixedUrlWords t cr f) (h' : w' ∈ mixedUrlWords t cr f)
    (hk : w.range.Holds k) (hk' : w'.range.Holds k) : w = w' := by
  induction f generalizing cr with
  | nil => cases h
  | cons p f ih =>
    rw [mixedUrlWords] at h h'
    split at h
    · next he =>
      rw [if_pos he] at h'
      exact ih h h'
    · next hne =>
      rw [if_neg hne] at h'
      obtain ⟨ha, hb⟩ := hk
      obtain ⟨ha', hb'⟩ := hk'
      rcases mem_cons.mp h with rfl | h <;> rcases mem_cons.mp h' with rfl | h'
      · rfl
      · have hle := start_le_of_mem_words h'
        dsimp only at hb
        omega
      · have hle := start_le_of_mem_words h
        dsimp only at hb'
        omega
      · exact ih h h'

/-- Non-empty pieces that follow one another from one place to another. -/
def Chain : ℕ → List MixedUrlWord → ℕ → Prop
  | a, [], b => a = b
  | a, piece :: pieces, b =>
    piece.range.start = a ∧ a < piece.range.stop ∧ Chain piece.range.stop pieces b

theorem Chain.append (h : Chain a ps b) (hm : Chain b m c) : Chain a (ps ++ m) c := by
  induction ps generalizing a with
  | nil =>
    exact h ▸ hm
  | cons pc ps ih => exact ⟨h.1, h.2.1, ih h.2.2⟩

theorem Chain.le (h : Chain a ps b) : a ≤ b := by
  induction ps generalizing a with
  | nil => exact le_of_eq h
  | cons pc ps ih =>
    have hr := ih h.2.2
    have hp := h.2.1
    omega

theorem chain_piecesFrom {ps : List Str} (h : ∀ p ∈ ps, p ≠ []) (o : ℕ) :
    Chain o (piecesFrom o ps) (o + ps.flatten.length) := by
  induction ps generalizing o with
  | nil => rfl
  | cons p ps ih =>
    have hp := length_pos_iff.mpr (h p mem_cons_self)
    have hr := ih (fun ot ho => h ot (mem_cons_of_mem p ho)) (o + p.length)
    rw [flatten_cons, length_append, ← Nat.add_assoc]
    exact ⟨rfl, Nat.lt_add_of_pos_right hp, hr⟩

theorem isUrl_piecesFrom {ps : List Str} (h : pc ∈ piecesFrom o ps) : pc.isUrl = false := by
  induction ps generalizing o with
  | nil => cases h
  | cons p ps ih =>
    rcases mem_cons.mp h with rfl | h
    · rfl
    · exact ih h

theorem slice_piecesFrom (h : slice tx ⟨o, o + parts.flatten.length⟩ = parts.flatten) :
    ∀ pc ∈ piecesFrom o parts, slice tx pc.range ∈ parts := by
  induction parts generalizing o with
  | nil => simp [piecesFrom]
  | cons p parts ih =>
    rw [flatten_cons, length_append, ← add_assoc,
      slice_append (le_add_right o p.length) (le_add_right _ _)] at h
    have hl : (slice tx ⟨o, o + p.length⟩).length = p.length := by
      have ht := congrArg List.length h
      have hf := length_slice_le tx o (o + p.length)
      have hr := length_slice_le tx (o + p.length) (o + p.length + parts.flatten.length)
      rw [length_append, length_append] at ht
      omega
    obtain ⟨hpt, hpr⟩ := append_inj h hl
    intro pc hp
    rcases mem_cons.mp hp with rfl | hp
    · rw [hpt]
      exact mem_cons_self
    · exact mem_cons_of_mem p (ih hpr pc hp)

section Split

variable (tw : Textwrap)

theorem chain_split (hlt : w.range.start < w.range.stop) (hle : w.range.stop ≤ tx.length) (l : ℕ) :
    Chain w.range.start (splitMixedUrlWord tw tx w l) w.range.stop := by
  rw [splitMixedUrlWord]
  split
  · exact ⟨rfl, hlt, rfl⟩
  · have hc := chain_piecesFrom (tw.breakApart_ne_nil (slice tx w.range) (max l 1)) w.range.start
    rw [tw.breakApart_flatten, length_slice hle, Nat.add_sub_cancel' (Nat.le_of_lt hlt)] at hc
    exact hc

theorem fits_split (hlt : w.range.start < w.range.stop)
    (hle : w.range.stop ≤ tx.length) (hu : w.isUrl = false) (h : p ∈ splitMixedUrlWord tw tx w l) :
    p.width tw tx ≤ max l 1 ∨ (slice tx p.range).length = 1 := by
  rw [splitMixedUrlWord] at h
  split at h
  · rename_i hf
    rw [mem_singleton.mp h]
    rw [hu] at hf
    exact .inl (le_trans (hf.resolve_left nofun) (le_max_left l 1))
  · have hs : slice tx ⟨w.range.start, w.range.start +
        (tw.breakApart (slice tx w.range) (max l 1)).flatten.length⟩ =
        (tw.breakApart (slice tx w.range) (max l 1)).flatten := by
      rw [tw.breakApart_flatten, length_slice hle, Nat.add_sub_cancel' (Nat.le_of_lt hlt)]
    exact tw.breakApart_fits _ _ _ (slice_piecesFrom hs p h)

theorem isUrl_split (h : o ∈ splitMixedUrlWord tw tx pc lm) : o.isUrl = pc.isUrl := by
  rw [splitMixedUrlWord] at h
  split at h
  · rw [mem_singleton.mp h]
  · rename_i hp
    rw [isUrl_piecesFrom h]
    exact (Bool.eq_false_iff.mpr fun hu => hp (.inl hu)).symm

theorem eq_of_isUrl_split (h : p ∈ splitMixedUrlWord tw tx w l) (hu : p.isUrl = true) : p = w := by
  rw [splitMixedUrlWord] at h
  split at h
  · exact mem_singleton.mp h
  · rw [isUrl_piecesFrom h] at hu
    cases hu

end Split

end UrlWrapping
