import CodexTeams.TextTruncation

/-! What is kept of the items of a tool's output. -/
namespace OutputItems

open RustStr ResponseItems Utf8 TextTruncation List

def isText : FunctionCallOutputContentItem → Bool
  | .inputText _ => true
  | _ => false

/-- What is kept of the items, with the cost of the kept text and how many texts are left out. A
text may be cut in its middle, and the marker there costs nothing. -/
inductive Keeps (policy : TruncationPolicy) : List FunctionCallOutputContentItem →
    List FunctionCallOutputContentItem → ℕ → ℕ → Prop
  | nil : Keeps policy [] [] 0 0
  | other {item items out cost omitted} (other : isText item = false)
      (rest : Keeps policy items out cost omitted) :
      Keeps policy (item :: items) (item :: out) cost omitted
  | whole {items out cost omitted} (text : Str) (rest : Keeps policy items out cost omitted) :
      Keeps policy (.inputText text :: items) (.inputText text :: out)
        (policy.cost text + cost) omitted
  | cut {items out cost omitted} (front dropped back : Str) (useTokens : Bool) (removed : ℕ)
      (rest : Keeps policy items out cost omitted) :
      Keeps policy (.inputText (front ++ dropped ++ back) :: items)
        (.inputText (front ++ formatTruncationMarker useTokens removed ++ back) :: out)
        (policy.cost (front ++ back) + cost) omitted
  | left {items out cost omitted} (text : Str) (rest : Keeps policy items out cost omitted) :
      Keeps policy (.inputText text :: items) out cost (omitted + 1)

def omissionNote (omitted : ℕ) : List FunctionCallOutputContentItem :=
  if 0 < omitted then
    [.inputText ("[omitted " ++ (toString omitted).toList ++ " text items ...]")]
  else []

variable {policy : TruncationPolicy}

theorem cut_of_long (u : Bool) (h : m < byteLen s) : ∃ f d k r, s = f ++ d ++ k ∧
    byteLen (f ++ k) ≤ m ∧
    truncateWithByteEstimate s m u = f ++ formatTruncationMarker u r ++ k := by
  have hne : s ≠ [] := by
    rintro rfl
    exact absurd h (Nat.not_lt_zero _)
  by_cases hm : m = 0
  · subst hm
    exact ⟨[], s, [], _, by simp, Nat.zero_le _, by simp [truncateWithByteEstimate, hne]; rfl⟩
  · obtain ⟨f, d, k, hc⟩ := exists_cutInMiddle h
    refine ⟨f, d, k, _, hc.parts, ?_, by
      simp [truncateWithByteEstimate, hne, hm, Nat.not_le.mpr h, hc.splitString h]; rfl⟩
    have := hc.front_fits
    have := hc.back_fits
    rw [byteLen_append]
    omega

theorem snippet_cut (h : n < policy.cost s) : ∃ f d k u r, s = f ++ d ++ k ∧
    policy.cost (f ++ k) ≤ n ∧
    truncateText s (policy.withLimit n) = f ++ formatTruncationMarker u r ++ k := by
  cases policy with
  | bytes l =>
    obtain ⟨f, d, k, r, hs, hb, ht⟩ := cut_of_long false h
    exact ⟨f, d, k, false, r, hs, hb, ht⟩
  | tokens l =>
    simp only [TruncationPolicy.cost, approxTokenCount, approxTokensFromByteCount] at h ⊢
    have hl : approxBytesForTokens n < byteLen s := by
      rw [approxBytesForTokens]
      omega
    obtain ⟨f, d, k, r, hs, hb, ht⟩ := cut_of_long true hl
    refine ⟨f, d, k, true, r, hs, ?_, ?_⟩
    · rw [approxBytesForTokens] at hb
      omega
    · have hne : s ≠ [] := by
        rintro rfl
        exact absurd hl (Nat.not_lt_zero _)
      rw [← ht, TruncationPolicy.withLimit, truncateText, truncateMiddleWithTokenBudget,
        if_neg hne, if_neg fun hn => Nat.not_le.mpr hl hn.2]

theorem marker_ne_nil (f k : Str) (u : Bool) (r : ℕ) :
    f ++ formatTruncationMarker u r ++ k ≠ [] := by
  have h : formatTruncationMarker u r = '…' :: (formatTruncationMarker u r).tail := rfl
  rw [h]
  simp

theorem foldl_keeps (policy : TruncationPolicy) (items : List FunctionCallOutputContentItem)
    (b : ItemBudget) :
    ∃ out cost omitted, Keeps policy items out cost omitted ∧ cost ≤ b.remainingBudget ∧
      (items.foldl (truncateItem policy) b).out = b.out ++ out ∧
      (items.foldl (truncateItem policy) b).omittedTextItems = b.omittedTextItems + omitted := by
  induction items generalizing b with
  | nil => exact ⟨[], 0, 0, .nil, Nat.zero_le _, (append_nil _).symm, rfl⟩
  | cons item items ih =>
    rw [foldl_cons]
    obtain ⟨o, c, k, hk, hc, ho, hn⟩ := ih (truncateItem policy b item)
    rw [ho, hn]
    cases item with
    | inputText t =>
      simp only [truncateItem] at hc ⊢
      split at hc
      · next hz =>
        simp only [hz] at hc ⊢
        exact ⟨o, c, k + 1, hk.left t, hc, rfl, by simp; omega⟩
      split at hc
      · next hz ht =>
        simp only at hc
        simp only [hz, ht, if_true, if_false]
        exact ⟨_, _, k, hk.whole t, by omega, by simp, rfl⟩
      · next hz ht =>
        obtain ⟨f, d, l, u, r, rfl, hb, hs⟩ := snippet_cut (Nat.lt_of_not_le ht)
        simp only [hs, marker_ne_nil, if_false] at hc
        simp only [hz, ht, hs, marker_ne_nil, if_false]
        exact ⟨_, _, k, hk.cut f d l u r, by omega, by simp, rfl⟩
    | _ => exact ⟨_, c, k, hk.other rfl, hc, by simp [truncateItem], rfl⟩

theorem Keeps.accounts (h : Keeps policy items out c k) :
    out.filter (!isText ·) = items.filter (!isText ·) ∧
      out.countP isText + k = items.countP isText := by
  induction h with
  | nil => exact ⟨rfl, rfl⟩
  | other o r ih => simpa [o] using ih
  | left t r ih => exact ⟨ih.1, by rw [← Nat.add_assoc, ih.2, countP_cons]; rfl⟩
  | whole t r ih | cut f d b u n r ih =>
    refine ⟨ih.1, ?_⟩
    simp only [countP_cons, isText]
    omega

/-- The other items all stay, the kept text is within the budget, and every text is either kept or
in the number of those left out. -/
theorem items_accounted (items : List FunctionCallOutputContentItem) (policy : TruncationPolicy) :
    ∃ out cost omitted, Keeps policy items out cost omitted ∧ cost ≤ policy.limit ∧
      out.filter (!isText ·) = items.filter (!isText ·) ∧
      out.countP isText + omitted = items.countP isText ∧
      truncateFunctionOutputItemsWithPolicy items policy = out ++ omissionNote omitted := by
  obtain ⟨o, c, k, hk, hc, ho, hn⟩ := foldl_keeps policy items ⟨[], policy.limit, 0⟩
  refine ⟨o, c, k, hk, hc, hk.accounts.1, hk.accounts.2, ?_⟩
  rw [Nat.zero_add] at hn
  simp only [truncateFunctionOutputItemsWithPolicy, ho, hn, omissionNote, nil_append]
  split
  · rfl
  · exact (append_nil o).symm

end OutputItems
