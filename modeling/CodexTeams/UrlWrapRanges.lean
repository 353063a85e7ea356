import CodexTeams.UrlWrapEnding
import Mathlib.Algebra.Order.BigOperators.Group.List
import Mathlib.Algebra.Order.Group.Nat

/-! The ranges a wrapped line is cut into, and the texts for which there are any. -/
namespace UrlWrapping

open RustStr

/-- The ranges are in order and apart, hold the text but for spaces and cut no URL. -/
structure Covers (text : Str) (isUrlLikeToken : Str → Bool) (ranges : List Range) : Prop where
  ordered : ranges.Pairwise fun line later => line.stop ≤ later.start
  bounded : ∀ line ∈ ranges, line.start < line.stop ∧ line.stop ≤ text.length
  covers : ∀ k c, text[k]? = some c → c ≠ ' ' → ∃ line ∈ ranges, line.start ≤ k ∧ k < line.stop
  urls : ∀ word ∈ wordsOf text isUrlLikeToken, word.isUrl = true →
    ∃ line ∈ ranges, word.range.Within line

/-- Moreover they are no wider than their lines. -/
structure WrapsWell (tw : Textwrap) (text : Str) (isUrlLikeToken : Str → Bool)
    (initialWidth subsequentWidth : ℕ) (ranges : List Range) : Prop
    extends Covers text isUrlLikeToken ranges where
  fits : ∀ i line, ranges[i]? = some line → LineFits tw text (wordsOf text isUrlLikeToken)
    (limitAt initialWidth subsequentWidth i) line

/-- The first character fits behind the leading spaces, and all characters of prose that are not on
the first line, which does not depend on the later width, fit on a later one. -/
structure Breakable (tw : Textwrap) (text : Str) (isUrlLikeToken : Str → Bool)
    (initialWidth subsequentWidth : ℕ) : Prop where
  first : FirstFits tw text (wordsOf text isUrlLikeToken) initialWidth
  later : ∀ width line rest, Ends tw text isUrlLikeToken initialWidth width (line :: rest) →
    Narrow tw text (wordsOf text isUrlLikeToken) (max subsequentWidth 1) ⟨line.stop, text.length⟩

section Ends

variable {tw : Textwrap} {tx : Str} {t : Str → Bool}

theorem ends_iff : Ends tw tx t iw sw rs ↔
    ∃ ts l, wrapWords tw tx sw ts (.start iw) (wordsOf tx t) = some l ∧ l.ranges = rs := by
  simp [Ends, mixedUrlWrapRanges, Option.bind_eq_some_iff]

theorem filled_of_ends (h : wrapWords tw tx sw ts (.start iw) (wordsOf tx t) = some l) :
    Filled tw tx (wordsOf tx t) iw sw (wordsOf tx t ++ []) tx.length l :=
  wrapWords_filled filled_start (remaining_findWords tx) (List.Subset.refl _) h

theorem covers_of_ends (h : Ends tw tx t iw sw rs) : Covers tx t rs := by
  obtain ⟨ts, l, hl, rfl⟩ := ends_iff.mp h
  have hf := filled_of_ends hl
  refine { hf with covers := ?_, urls := ?_ }
  · intro k c hc
    exact hf.covers k (List.getElem?_eq_some_iff.mp hc).1 c hc
  · intro w hw
    exact hf.urls w (List.mem_append_left _ hw)

theorem wrapsWell_of_ends (he : '\x1b' ∉ tx) (h : Ends tw tx t iw sw rs) :
    WrapsWell tw tx t iw sw rs := by
  refine ⟨covers_of_ends h, ?_⟩
  obtain ⟨ts, l, hl, rfl⟩ := ends_iff.mp h
  exact fun i line hi => ((filled_of_ends hl).fits he i line hi).1

theorem head?_of_ends (h : Ends tw tx t iw sw rs) (h' : Ends tw tx t iw sw' rs') :
    rs.head? = rs'.head? := by
  obtain ⟨ts, l, hl, rfl⟩ := ends_iff.mp h
  obtain ⟨ts', l', hl', rfl⟩ := ends_iff.mp h'
  exact (wrapWords_sameFirst (.inl ⟨rfl, rfl⟩) hl hl').head?

/-- A character of prose on a later line is within the limit of that line. -/
theorem breakable_of_ends (he : '\x1b' ∉ tx) (h : Ends tw tx t iw sw rs) :
    Breakable tw tx t iw sw := by
  have hc := covers_of_ends h
  obtain ⟨ts, l, hl, rfl⟩ := ends_iff.mp h
  have hf := filled_of_ends hl
  constructor
  · intro hp c hk
    by_cases hs : c = ' '
    · exact narrow_space (le_max_right _ _) (hs ▸ hk) hk
    · obtain ⟨line, hm, -⟩ := hc.covers _ c hk hs
      exact hf.first he (List.ne_nil_of_mem hm) hp c hk
  · rintro w first r hw k c ⟨hst, -⟩ hp hk
    dsimp only at hst
    by_cases hs : c = ' '
    · exact narrow_space (le_max_right _ _) (hs ▸ hk) hk
    · obtain ⟨line, hm, hle, hlt⟩ := hc.covers k c hk hs
      obtain ⟨i, hi⟩ := List.mem_iff_getElem?.mp hm
      cases i with
      | zero =>
        have hh := head?_of_ends h hw
        rw [← List.head?_eq_getElem?, hh, List.head?_cons, Option.some.injEq] at hi
        rw [hi] at hst
        omega
      | succ i => exact (hf.fits he _ _ hi).2 k c ⟨hle, hlt⟩ hp hk

theorem ends_of_breakable (h : Breakable tw tx t iw sw) : ∃ rs, Ends tw tx t iw sw rs := by
  have hs : ∀ sw, Filled tw tx (wordsOf tx t) iw sw [] 0 (.start iw) := fun _ => filled_start
  have hr := remaining_findWords tx
  -- a width that is enough for every character
  obtain ⟨w, hw⟩ : ∃ w, Narrow tw tx (wordsOf tx t) (max w 1) ⟨0, tx.length⟩ := by
    refine ⟨(tx.map fun c => tw.displayWidth [c]).sum, fun k c _ _ hc => ?_⟩
    have hm := List.mem_map_of_mem (f := fun c => tw.displayWidth [c]) (List.mem_of_getElem? hc)
    exact (List.le_sum_of_mem hm).trans (le_max_left _ _)
  obtain ⟨ts, l, hl⟩ := wrapWords_ends (hs w) hr (List.Subset.refl _) hw h.first
  have hn : ∀ line, [line] <+: l.lines →
      Narrow tw tx (wordsOf tx t) (max sw 1) ⟨line.stop, tx.length⟩ := by
    intro line hln
    obtain ⟨r, hr⟩ : ∃ r, l.ranges = line :: r := by
      simpa [List.head?_eq_some_iff] using head?_ranges hln
    exact h.later w line r (ends_iff.mpr ⟨ts, l, hl, hr⟩)
  obtain ⟨ts', l', hl'⟩ := wrapWords_follow (hs sw) rfl hr (List.Subset.refl _) h.first hl hn
  exact ⟨l'.ranges, ends_iff.mpr ⟨ts', l', hl', rfl⟩⟩

end Ends

/-- Characters outside ASCII take two columns, and words may be broken anywhere. -/
def wideTextwrap : Textwrap where
  chWidth := fun c => if c.toNat < 128 then 1 else 2
  displayWidth := fun s => (s.map fun c => if c.toNat < 128 then 1 else 2).sum
  breakApart := fun word _ => word.map fun c => [c]
  chWidth_space := by decide
  displayWidth_eq := fun _ _ => rfl
  breakApart_flatten := by
    intro word _
    induction word with
    | nil => rfl
    | cons c word ih => rw [List.map_cons, List.flatten_cons, ih, List.singleton_append]
  breakApart_ne_nil := by simp
  breakApart_fits := by
    intro word _ piece hpiece
    obtain ⟨c, _, rfl⟩ := List.mem_map.mp hpiece
    exact .inr rfl

def startsHttps (token : Str) : Bool := "https://".toList.isPrefixOf token

end UrlWrapping
