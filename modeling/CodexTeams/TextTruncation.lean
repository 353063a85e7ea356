import CodexTeams.ResponseItems
import CodexTeams.RustInt
import CodexTeams.Utf8
import Mathlib.Data.List.Infix

/-! Cutting the middle out of long texts, with budgets in bytes of UTF-8 or in tokens of four bytes.
-/
namespace TextTruncation

open RustInt RustStr SizedLists Utf8 ResponseItems

inductive TruncationPolicy
  | bytes (limit : ℕ)
  | tokens (limit : ℕ)
  deriving Repr

def approxTokensFromByteCount (bytes : ℕ) : ℕ := (bytes + 3) / 4

def approxTokenCount (text : Str) : ℕ := approxTokensFromByteCount (byteLen text)

def approxBytesForTokens (tokens : ℕ) : ℕ := min (tokens * 4) usizeMax

variable (useTokens : Bool)

def formatTruncationMarker (removedCount : ℕ) : Str :=
  "…".toList ++ (toString removedCount).toList ++
    (if useTokens then " tokens truncated…".toList else " chars truncated…".toList)

def removedUnits (removedBytes removedChars : ℕ) : ℕ :=
  if useTokens then approxTokensFromByteCount removedBytes else removedChars

/-- The loop of split_string: byte positions, and how many characters are left out. -/
structure Split where
  prefixEnd : ℕ
  suffixStart : ℕ
  removedChars : ℕ
  suffixStarted : Bool
  deriving Repr

def splitLoop (beginningBytes tailStartTarget : ℕ) : ℕ → Str → Split → Split
  | _, [], split => split
  | idx, ch :: rest, split =>
    let charEnd := idx + ch.utf8Size
    splitLoop beginningBytes tailStartTarget charEnd rest <|
      if charEnd ≤ beginningBytes then { split with prefixEnd := charEnd }
      else if tailStartTarget ≤ idx then
        if split.suffixStarted then split
        else { split with suffixStart := idx, suffixStarted := true }
      else { split with removedChars := split.removedChars + 1 }

def splitString (s : Str) (beginningBytes endBytes : ℕ) : ℕ × Str × Str :=
  let split := splitLoop beginningBytes (byteLen s - endBytes) 0 s ⟨0, byteLen s, 0, false⟩
  (split.removedChars, before utf8 split.prefixEnd s,
    behind utf8 (max split.suffixStart split.prefixEnd) s)

def truncateWithByteEstimate (s : Str) (maxBytes : ℕ) (useTokens : Bool) : Str :=
  if s = [] then []
  else if maxBytes = 0 then
    formatTruncationMarker useTokens (removedUnits useTokens (byteLen s) s.length)
  else if byteLen s ≤ maxBytes then s
  else
    let leftBudget := maxBytes / 2
    let (removedChars, left, right) := splitString s leftBudget (maxBytes - leftBudget)
    left ++ formatTruncationMarker useTokens
      (removedUnits useTokens (byteLen s - maxBytes) removedChars) ++ right

def truncateMiddleChars (s : Str) (maxBytes : ℕ) : Str := truncateWithByteEstimate s maxBytes false

def truncateMiddleWithTokenBudget (s : Str) (maxTokens : ℕ) : Str :=
  if s = [] then []
  else if 0 < maxTokens ∧ byteLen s ≤ approxBytesForTokens maxTokens then s
  else truncateWithByteEstimate s (approxBytesForTokens maxTokens) true

def truncateText (content : Str) : TruncationPolicy → Str
  | .bytes bytes => truncateWithByteEstimate content bytes false
  | .tokens tokens => truncateMiddleWithTokenBudget content tokens

/-- The loop over output items: what is kept, the budget left and the texts left out. -/
structure ItemBudget where
  out : List FunctionCallOutputContentItem
  remainingBudget : ℕ
  omittedTextItems : ℕ

def TruncationPolicy.limit : TruncationPolicy → ℕ
  | .bytes limit | .tokens limit => limit

def TruncationPolicy.withLimit : TruncationPolicy → ℕ → TruncationPolicy
  | .bytes _, limit => .bytes limit
  | .tokens _, limit => .tokens limit

def TruncationPolicy.cost : TruncationPolicy → Str → ℕ
  | .bytes _, text => byteLen text
  | .tokens _, text => approxTokenCount text

def truncateItem (policy : TruncationPolicy) (b : ItemBudget) :
    FunctionCallOutputContentItem → ItemBudget
  | .inputText text =>
    if b.remainingBudget = 0 then { b with omittedTextItems := b.omittedTextItems + 1 }
    else if policy.cost text ≤ b.remainingBudget then
      { b with
        out := b.out ++ [.inputText text]
        remainingBudget := b.remainingBudget - policy.cost text }
    else
      let snippet := truncateText text (policy.withLimit b.remainingBudget)
      if snippet = [] then
        { b with remainingBudget := 0, omittedTextItems := b.omittedTextItems + 1 }
      else { b with out := b.out ++ [.inputText snippet], remainingBudget := 0 }
  | item => { b with out := b.out ++ [item] }

def truncateFunctionOutputItemsWithPolicy (items : List FunctionCallOutputContentItem)
    (policy : TruncationPolicy) : List FunctionCallOutputContentItem :=
  let b := items.foldl (truncateItem policy) ⟨[], policy.limit, 0⟩
  if 0 < b.omittedTextItems then
    b.out ++ [.inputText ("[omitted " ++ (toString b.omittedTextItems).toList ++
      " text items ...]")]
  else b.out

def truncateFunctionOutputPayload (output : FunctionCallOutputPayload)
    (policy : TruncationPolicy) : FunctionCallOutputPayload :=
  match output.body with
  | .text content => ⟨.text (truncateText content policy), output.success⟩
  | .contentItems items =>
    ⟨.contentItems (truncateFunctionOutputItemsWithPolicy items policy), output.success⟩

/-- The longest two ends that fit into the halves of the budget, and what lies between them. -/
structure CutInMiddle (s : Str) (maxBytes : ℕ) (front dropped back : Str) : Prop where
  parts : s = front ++ dropped ++ back
  front_fits : byteLen front ≤ maxBytes / 2
  front_longest : ∀ p, p <+: s → byteLen p ≤ maxBytes / 2 → p <+: front
  back_fits : byteLen back ≤ maxBytes - maxBytes / 2
  back_longest : ∀ p, p <:+ s → byteLen p ≤ maxBytes - maxBytes / 2 → p <:+ back

section Kept

open List

theorem exists_front (n : ℕ) (s : Str) : ∃ f r, s = f ++ r ∧ byteLen f ≤ n ∧
    ∀ p, p <+: s → byteLen p ≤ n → p <+: f := by
  induction s generalizing n with
  | nil => exact ⟨[], [], rfl, Nat.zero_le n, fun p hp _ => hp⟩
  | cons c s ih =>
    by_cases hc : c.utf8Size ≤ n
    · obtain ⟨f, r, rfl, hf, hl⟩ := ih (n - c.utf8Size)
      refine ⟨c :: f, r, rfl, by rw [byteLen_cons]; omega, fun p hp hn => ?_⟩
      rcases prefix_cons_iff.mp hp with rfl | ⟨q, rfl, hq⟩
      · exact List.nil_prefix
      · rw [byteLen_cons] at hn
        exact prefix_cons_inj c |>.mpr (hl q hq (by omega))
    · refine ⟨[], c :: s, rfl, Nat.zero_le n, fun p hp hn => ?_⟩
      rcases prefix_cons_iff.mp hp with rfl | ⟨q, rfl, hq⟩
      · exact prefix_rfl
      · rw [byteLen_cons] at hn
        omega

theorem exists_back (n : ℕ) (s : Str) : ∃ l b, s = l ++ b ∧ byteLen b ≤ n ∧
    ∀ p, p <:+ s → byteLen p ≤ n → p <:+ b := by
  induction s with
  | nil => exact ⟨[], [], rfl, Nat.zero_le n, fun p hp _ => hp⟩
  | cons c s ih =>
    by_cases hc : byteLen (c :: s) ≤ n
    · exact ⟨[], c :: s, rfl, hc, fun p hp _ => hp⟩
    · obtain ⟨l, b, rfl, hb, hl⟩ := ih
      refine ⟨c :: l, b, rfl, hb, fun p hp hn => ?_⟩
      rcases suffix_cons_iff.mp hp with rfl | hp
      · exact absurd hn hc
      · exact hl p hp hn

theorem splitLoop_front (h : i + byteLen x ≤ b) : splitLoop b t i (x ++ y) ⟨i, q, n, st⟩ =
      splitLoop b t (i + byteLen x) y ⟨i + byteLen x, q, n, st⟩ := by
  induction x generalizing i with
  | nil => rfl
  | cons c x ih =>
    rw [byteLen_cons] at h
    rw [cons_append, splitLoop, if_pos (by omega), ih (by omega), byteLen_cons, Nat.add_assoc]

theorem splitLoop_dropped
    (h : ∀ u c v, x = u ++ c :: v → b < i + byteLen (u ++ [c]) ∧ i + byteLen u < t) :
    splitLoop b t i (x ++ y) ⟨p, q, n, st⟩ =
      splitLoop b t (i + byteLen x) y ⟨p, q, n + x.length, st⟩ := by
  induction x generalizing i n with
  | nil => rfl
  | cons c x ih =>
    obtain ⟨hb, ht⟩ := h [] c x rfl
    simp only [nil_append, byteLen, total, utf8] at hb ht
    rw [cons_append, splitLoop, if_neg (by omega), if_neg (by omega), ih, byteLen_cons,
      Nat.add_assoc, length_cons, Nat.add_right_comm, Nat.add_assoc]
    rintro u d v rfl
    simpa [byteLen, total, Nat.add_assoc] using h (c :: u) d v rfl

theorem splitLoop_started (hb : b < t) (ht : t ≤ i) :
    splitLoop b t i y ⟨p, q, n, true⟩ = ⟨p, q, n, true⟩ := by
  induction y generalizing i with
  | nil => rfl
  | cons c y ih =>
    rw [splitLoop, if_neg (by omega), if_pos ht]
    exact ih (by omega)

theorem exists_cutInMiddle (h : m < byteLen s) : ∃ f d k, CutInMiddle s m f d k := by
  obtain ⟨f, r, hs, hf, hfl⟩ := exists_front (m / 2) s
  obtain ⟨l, k, hs', hk, hkl⟩ := exists_back (m - m / 2) s
  rcases append_eq_append_iff.mp (hs.symm.trans hs') with ⟨d, rfl, rfl⟩ | ⟨w, rfl, -⟩
  · exact ⟨f, d, k, hs', hf, hfl, hk, hkl⟩
  · rw [hs', byteLen_append] at h
    rw [byteLen_append] at hf
    omega

/-- The characters between the ends neither end within the first budget nor start the last. -/
theorem CutInMiddle.between (h : CutInMiddle s m f d k) (hd : d = u ++ c :: v) :
    m / 2 < byteLen f + byteLen (u ++ [c]) ∧ byteLen f + byteLen u < byteLen s - (m - m / 2) := by
  obtain ⟨rfl, -, hf, -, hk⟩ := h
  subst hd
  constructor
  · by_contra hn
    have hp := (hf (f ++ (u ++ [c])) ⟨v ++ k, by simp⟩ (by rw [byteLen_append]; omega)).length_le
    simp only [length_append, length_singleton] at hp
    omega
  · have hs : ¬ byteLen (c :: v ++ k) ≤ m - m / 2 := by
      intro hn
      have hp := (hk (c :: v ++ k) ⟨f ++ u, by simp⟩ hn).length_le
      simp only [length_append, length_cons] at hp
      omega
    simp only [byteLen_append] at hs ⊢
    omega

theorem CutInMiddle.splitString (h : CutInMiddle s m f d k) (hl : m < byteLen s) :
    splitString s (m / 2) (m - m / 2) = (d.length, f, k) := by
  have hd := fun u c v => h.between (u := u) (c := c) (v := v)
  obtain ⟨rfl, hf, -, hk, -⟩ := h
  have ha := byteLen_append (f ++ d) k
  have hfd := byteLen_append f d
  have hs : ∃ st, splitLoop (m / 2) (byteLen (f ++ d ++ k) - (m - m / 2)) 0 (f ++ d ++ k)
      ⟨0, byteLen (f ++ d ++ k), 0, false⟩ = ⟨byteLen f, byteLen (f ++ d), d.length, st⟩ := by
    generalize byteLen (f ++ d ++ k) = l at *
    have hz : 0 + byteLen f = byteLen f := Nat.zero_add _
    rw [append_assoc, splitLoop_front (by omega), hz, splitLoop_dropped hd, ← hfd, Nat.zero_add]
    cases k with
    | nil => exact ⟨false, by rw [ha]; rfl⟩
    | cons c k =>
      refine ⟨true, ?_⟩
      rw [splitLoop, if_neg (by omega), if_pos (by omega)]
      exact splitLoop_started (by omega) (by omega)
  obtain ⟨st, hs⟩ := hs
  simp only [TextTruncation.splitString, hs]
  rw [Nat.max_eq_left (by omega), behind_byteLen, append_assoc, before_byteLen]

end Kept

/-- A text within the budget stays as it is; otherwise what is between its ends is counted. -/
theorem truncateMiddleChars_cases (s : Str) (maxBytes : ℕ) :
    if byteLen s ≤ maxBytes then truncateMiddleChars s maxBytes = s
    else ∃ front dropped back, CutInMiddle s maxBytes front dropped back ∧
      truncateMiddleChars s maxBytes =
        front ++ formatTruncationMarker false dropped.length ++ back := by
  by_cases hne : s = []
  · subst hne
    exact (if_pos (Nat.zero_le maxBytes)).mpr rfl
  by_cases hm : maxBytes = 0
  · subst hm
    rw [if_neg fun hl => hne (eq_nil_of_byteLen (Nat.le_zero.mp hl))]
    refine ⟨[], s, [],
      ⟨by simp, Nat.zero_le _, fun p _ hp => ?_, Nat.zero_le _, fun p _ hp => ?_⟩, ?_⟩
    · rw [eq_nil_of_byteLen (Nat.le_zero.mp hp)]
    · rw [eq_nil_of_byteLen (Nat.le_zero.mp hp)]
    · simp [truncateMiddleChars, truncateWithByteEstimate, hne, removedUnits]
  split
  · next hl => simp [truncateMiddleChars, truncateWithByteEstimate, hl, hm]
  · next hl =>
    obtain ⟨f, d, k, h⟩ := exists_cutInMiddle (Nat.lt_of_not_le hl)
    refine ⟨f, d, k, h, ?_⟩
    simp [truncateMiddleChars, truncateWithByteEstimate, hne, hl, hm, removedUnits,
      h.splitString (Nat.lt_of_not_le hl)]

/-- A text that reads like the marker for itself comes back although it is too long. -/
theorem marker_unchanged : let s := "…20 chars truncated…".toList
    byteLen s = 24 ∧ truncateMiddleChars s 0 = s := by
  decide

end TextTruncation
