import CodexTeams.RolloutReconstruction

/-! The user messages that a compacted history keeps: the newest ones within a budget of tokens, the
oldest of them cut to what is left. Compacting a compacted history keeps them again. -/
namespace CompactedHistory

open RustStr ResponseItems ContextualMessages TextTruncation RolloutReconstruction List Function

/-- Selecting again changes at most the oldest message, and nothing when none was cut. -/
theorem selectMessages_twice (ms : List Str) (n : ℕ) :
    (selectMessages (selectMessages ms n) n).length = (selectMessages ms n).length ∧
    (selectMessages (selectMessages ms n) n).dropLast = (selectMessages ms n).dropLast ∧
    (selectMessages ms n <+: ms →
      selectMessages (selectMessages ms n) n = selectMessages ms n) := by
  induction ms generalizing n with
  | nil => exact ⟨rfl, rfl, fun _ => rfl⟩
  | cons m ms ih =>
    rw [selectMessages]
    split
    · exact ⟨rfl, rfl, fun _ => rfl⟩
    · next hn =>
      split
      · next ht =>
        obtain ⟨hl, hd, hk⟩ := ih (n - approxTokenCount m)
        simp only [selectMessages, if_neg hn, if_pos ht, length_cons, hl, prefix_cons_inj,
          cons.injEq, true_and]
        refine ⟨?_, hk⟩
        simp only [dropLast_eq_take, hl, length_cons, Nat.add_sub_cancel] at hd ⊢
        cases hz : (selectMessages ms (n - approxTokenCount m)).length with
        | zero => rfl
        | succ k =>
          rw [hz, Nat.add_sub_cancel] at hd
          rw [take_succ_cons, take_succ_cons, hd]
      · simp only [selectMessages, if_neg hn]
        split
        · exact ⟨rfl, rfl, fun _ => rfl⟩
        · refine ⟨rfl, rfl, fun h => ?_⟩
          have hm := (cons_prefix_cons.mp h).1
          rw [hm, hm]

/-- A message of one text is read back as that text, if as a user message at all. -/
theorem userInputText_single (text : Str) : userInputText none [.inputText text] = text := by
  simp [userInputText, isInputImage]

theorem collectUserMessage_summary (ps : TextParsers) (hs : isSummaryMessage s = true) :
    collectUserMessage ps (userMessage s) = none := by
  simp [collectUserMessage, userMessage, userInputText_single, hs]

theorem collectUserMessages_built {ps : TextParsers}
    (hi : ∀ item ∈ history, collectUserMessage ps item = none)
    (hs : isSummaryMessage summary = true) (hk : ∀ m ∈ selectedMessages messages n,
      collectUserMessage ps (userMessage m) = some m) :
    collectUserMessages ps (buildCompactedHistoryWithLimit history messages summary n) =
      selectedMessages messages n := by
  have hne : summary ≠ [] := by
    rintro rfl
    simp [isSummaryMessage, startsWith] at hs
  rw [buildCompactedHistoryWithLimit, if_neg hne, collectUserMessages, filterMap_append,
    filterMap_append, filterMap_eq_nil_iff.mpr hi,
    filterMap_cons_none (collectUserMessage_summary ps hs), filterMap_map, filterMap_nil,
    append_nil, nil_append]
  exact (filterMap_congr hk).trans filterMap_some

/-- The summary starts with the prefix, the initial context has no user messages, and the kept
messages are still read as user messages and not as summaries. -/
theorem compacted_again (parsers : TextParsers) (history : List ResponseItem)
    (hi : ∀ item ∈ history, collectUserMessage parsers item = none) (messages : List Str)
    (summary : Str) (hs : isSummaryMessage summary = true) (maxTokens : ℕ)
    (hk : ∀ m ∈ selectedMessages messages maxTokens,
      collectUserMessage parsers (userMessage m) = some m) :
    let kept := selectedMessages messages maxTokens
    let again := selectedMessages (collectUserMessages parsers
      (buildCompactedHistoryWithLimit history messages summary maxTokens)) maxTokens
    again.length = kept.length ∧ again.tail = kept.tail ∧ (kept <:+ messages → again = kept) := by
  intro kept again
  obtain ⟨hl, hd, he⟩ := selectMessages_twice messages.reverse maxTokens
  simp only [again, collectUserMessages_built hi hs hk, kept, selectedMessages, reverse_reverse,
    length_reverse, tail_reverse, hl, hd, true_and]
  intro h
  rw [he (by simpa using reverse_prefix.mpr h)]

def emptySummary : Str := summaryPrefix ++ ['\n']

theorem isSummaryMessage_emptySummary : isSummaryMessage emptySummary = true := by
  simp [isSummaryMessage, startsWith, emptySummary]

theorem compacted_again_uncut : selectedMessages (collectUserMessages plainParsers
    (buildCompactedHistoryWithLimit [] ["first", "old", "hello"] emptySummary 3)) 3 =
      ["old", "hello"] :=
  (compacted_again plainParsers [] nofun ["first", "old", "hello"] emptySummary
    isSummaryMessage_emptySummary 3 (by decide +kernel)).2.2 ⟨["first"], by decide +kernel⟩

theorem compacted_again_cut : selectedMessages (collectUserMessages plainParsers
    (buildCompactedHistoryWithLimit [] [replicate 100 'a'] emptySummary 1)) 1 ≠
      selectedMessages [replicate 100 'a'] 1 := by
  rw [collectUserMessages_built (by simp) isSummaryMessage_emptySummary (by decide +kernel)]
  decide +kernel

end CompactedHistory
