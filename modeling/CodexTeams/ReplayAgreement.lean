import CodexTeams.RollbackUndo
import CodexTeams.ThreadHistory
import Mathlib.Data.List.ReduceOption

/-! The two readings of one rollout: the turns shown to a client and the history rebuilt for the
model. A rollback marker takes turns of any kind from the first and user turns from the second. -/
namespace ReplayAgreement

open RustStr ResponseItems ContextualMessages TextTruncation ThreadHistory List
open RolloutReconstruction (reconstructHistoryFromRollout dropLastNUserTurns scan scanItem scanFrom
  Scan ActiveReplaySegment replay replayItem userMessagePositions buildCompactedHistory userMessage
  CompactedItem trimPreTurnContextUpdates finalizeActiveSegment Replay)
open RollbackUndo (isCheckpoint onlyRecords recorded recordedItem)

def toReplayItem : RolloutItem → RolloutReconstruction.RolloutItem
  | .sessionMeta => .sessionMeta
  | .responseItem item => .responseItem item
  | .compacted item => .compacted item
  | .turnContext item => .turnContext item
  | .eventMsg event =>
    match event with
    | .userMessage _ => .eventMsg .userMessage
    | .threadRolledBack numTurns => .eventMsg (.threadRolledBack numTurns)
    | .turnAborted turnId _ _ => .eventMsg (.turnAborted turnId)
    | .turnStarted turnId _ => .eventMsg (.turnStarted turnId)
    | .turnComplete turnId _ _ => .eventMsg (.turnComplete turnId)
    | _ => .eventMsg .other

section Checkpoints

variable (ps : TextParsers)

structure Unbased (rollout : List RolloutReconstruction.RolloutItem) (s : Scan) : Prop where
  base : s.baseReplacementHistory = none
  segment : s.segment.baseReplacementHistory = none
  suffix : s.rolloutSuffix = rollout

section

variable (h : Unbased r s)

include h

theorem Unbased.finalize (hs : sg.baseReplacementHistory = none) :
    Unbased r (finalizeActiveSegment sg { s with activeSegment := none }) := by
  unfold finalizeActiveSegment
  split
  · split
    · exact ⟨h.base, rfl, h.suffix⟩
    · exact ⟨h.base, rfl, h.suffix⟩
  · refine ⟨?_, rfl, h.suffix⟩
    simp [h.base, hs]

theorem Unbased.scanItem (n : List RolloutReconstruction.RolloutItem)
    (hi : isCheckpoint i = false) : Unbased r (scanItem ps n i s) := by
  have ha : ∀ segment, s.activeSegment = some segment → segment.baseReplacementHistory = none := by
    intro segment hs
    have hsg := h.segment
    rwa [Scan.segment, hs, Option.getD_some] at hsg
  cases i with
  | sessionMeta => exact h
  | responseItem i => exact { h with }
  | turnContext ctx =>
    refine ⟨h.base, ?_, h.suffix⟩
    simp only [RolloutReconstruction.scanItem, RolloutReconstruction.turnContextSegment]
    split
    · exact h.segment
    · exact h.segment
  | compacted compacted =>
    have hn : compacted.replacementHistory = none := Option.isSome_eq_false_iff.mp hi |>
      Option.isNone_iff_eq_none.mp
    refine ⟨h.base, ?_, ?_⟩
    · change (s.segment.baseReplacementHistory.or compacted.replacementHistory) = none
      rw [h.segment, hn, Option.or_none]
    · simp only [RolloutReconstruction.scanItem, hn, Option.isSome_none, Bool.and_false,
        Bool.false_eq_true, if_false]
      exact h.suffix
  | eventMsg event =>
    cases event with
    | other => exact h
    | turnAborted ti =>
      cases hs : s.activeSegment with
      | some segment =>
        simp only [RolloutReconstruction.scanItem, hs]
        exact ⟨h.base, ha segment hs, h.suffix⟩
      | none =>
        cases ti with
        | none => simpa only [RolloutReconstruction.scanItem, hs] using h
        | some ti =>
          simp only [RolloutReconstruction.scanItem, hs]
          exact ⟨h.base, rfl, h.suffix⟩
    | turnStarted ti =>
      simp only [RolloutReconstruction.scanItem]
      split
      case h_1 segment hs =>
        split
        · exact h.finalize (ha segment hs)
        · exact h
      case h_2 => exact h
    | _ => exact { h with }

theorem Unbased.scanFrom (o n : List RolloutReconstruction.RolloutItem)
    (holder : o.any isCheckpoint = false) : Unbased r (scanFrom ps o n s) := by
  induction o generalizing n s with
  | nil => exact h
  | cons i o ih =>
    rw [any_cons, Bool.or_eq_false_iff] at holder
    have hs := h.scanItem ps n holder.1
    rw [RollbackUndo.scanFrom_cons ps hs.base]
    exact ih hs (i :: n) holder.2

theorem Unbased.finish : Unbased r s.finish := by
  unfold Scan.finish
  split
  case h_1 segment hsm =>
    have hs := h.segment
    rw [Scan.segment, hsm, Option.getD_some] at hs
    exact h.finalize hs
  case h_2 => exact h

end

theorem reconstruct_eq_replay (pl : TruncationPolicy) (h : r.any isCheckpoint = false) :
    (reconstructHistoryFromRollout ps pl r).history = (replay ps pl r ⟨[], false⟩).items := by
  have hi : Unbased r (.init r) := ⟨rfl, rfl, rfl⟩
  have hs : Unbased r (scan ps r) := (hi.scanFrom ps r.reverse [] (by rwa [any_reverse])).finish
  simp [reconstructHistoryFromRollout, hs.base, hs.suffix]

end Checkpoints

section Cut

variable (parsers : TextParsers)

def userMessages (history : List ResponseItem) : List ResponseItem :=
  history.filter (isUserTurnBoundary parsers)

theorem filter_rdropWhile {q : α → Bool} (h : ∀ a, q a = true → p a = false) (l : List α) :
    (l.rdropWhile q).filter p = l.filter p := by
  induction l using reverseRecOn with
  | nil => rfl
  | append_singleton l a ih =>
    by_cases hq : q a = true
    · rw [rdropWhile_concat_pos _ _ _ hq, ih, filter_append, filter_singleton, h a hq]
      exact (append_nil _).symm
    · rw [rdropWhile_concat_neg _ _ _ hq]

theorem exists_split_last (p : α → Bool) (hp : 0 < n) (hn : n ≤ l.countP p) :
    ∃ ab a bl, l = ab ++ a :: bl ∧ p a = true ∧ (a :: bl).countP p = n := by
  induction l with
  | nil => exact absurd (hn.trans_eq countP_nil) (Nat.not_le.mpr hp)
  | cons a l ih =>
    by_cases ht : n ≤ l.countP p
    · obtain ⟨ab, b, bl, rfl, hb, hc⟩ := ih ht
      exact ⟨a :: ab, b, bl, rfl, hb, hc⟩
    · have ha : p a = true := by
        by_contra hnt
        rw [countP_cons_of_neg hnt] at hn
        exact ht hn
      rw [countP_cons_of_pos ha] at hn
      refine ⟨[], a, l, rfl, ha, ?_⟩
      rw [countP_cons_of_pos ha]
      omega

variable (prs : TextParsers)

theorem dropLastNUserTurns_of_le (h : items.countP (isUserTurnBoundary prs) ≤ nts)
    (hps : 0 < items.countP (isUserTurnBoundary prs)) :
    dropLastNUserTurns prs nts items =
      dropLastNUserTurns prs (items.countP (isUserTurnBoundary prs)) items := by
  have hl : (userMessagePositions prs items).length =
      items.countP (isUserTurnBoundary prs) := length_findIdxs
  unfold dropLastNUserTurns
  rw [if_neg (by omega), if_neg (by omega)]
  cases hp : userMessagePositions prs items with
  | nil => rfl
  | cons first l =>
    rw [hp] at hl
    simp [hl, h]

/-- A rollback cuts off the newest user messages of the history. -/
theorem userMessages_dropLast (nts : ℕ) (its : List ResponseItem) :
    userMessages prs (dropLastNUserTurns prs nts its) =
      (userMessages prs its).take ((userMessages prs its).length - nts) := by
  have hl : (userMessages prs its).length =
      its.countP (isUserTurnBoundary prs) := countP_eq_length_filter.symm
  -- the history above the cut, whatever context is trimmed from it
  have hct : ∀ n, 0 < n → n ≤ its.countP (isUserTurnBoundary prs) →
      userMessages prs (dropLastNUserTurns prs n its) =
        (userMessages prs its).take ((userMessages prs its).length - n) := by
    intro n hp hn
    obtain ⟨above, b, bl, rfl, hb, hc⟩ := exists_split_last _ hp hn
    have ht : userMessages prs (above.rdropWhile (isContextUpdate prs)) = userMessages prs above :=
      filter_rdropWhile (fun _ => not_boundary_of_contextUpdate prs) above
    have hab : userMessages prs (dropLastNUserTurns prs n
        (above ++ b :: bl)) = userMessages prs above := by
      rw [← hc, RollbackUndo.dropLastNUserTurns_cut prs above bl hb]
      split
      · exact ht
      · rfl
    have hbl : (userMessages prs (b :: bl)).length = n := by
      rw [userMessages, ← countP_eq_length_filter, hc]
    have ha : userMessages prs (above ++ b :: bl) =
        userMessages prs above ++ userMessages prs (b :: bl) :=
      filter_append ..
    rw [hab, ha, length_append, hbl, Nat.add_sub_cancel, take_left]
  rcases Nat.eq_zero_or_pos nts with rfl | hp
  · rw [Nat.sub_zero, take_length]
    rfl
  · by_cases hn : nts ≤ its.countP (isUserTurnBoundary prs)
    · exact hct nts hp hn
    · rcases Nat.eq_zero_or_pos (its.countP (isUserTurnBoundary prs)) with hz | hs
      · have hnn : userMessagePositions prs its = [] := by
          rw [← length_eq_zero_iff, userMessagePositions, length_findIdxs, hz]
        rw [dropLastNUserTurns, if_neg (by omega), hnn]
        have he : userMessages prs its = [] := by
          rw [← length_eq_zero_iff, hl, hz]
        rw [he, take_nil]
      · rw [dropLastNUserTurns_of_le prs (by omega) hs, hct _ hs le_rfl, hl,
          Nat.sub_self, Nat.sub_eq_zero_of_le (by omega)]

end Cut

section Rollouts

variable (parsers : TextParsers)

def boundaryItem : RolloutItem → Option ResponseItem
  | .responseItem item => if isUserTurnBoundary parsers item then some item else none
  | _ => none

def isStoredHistory (item : RolloutItem) : Bool := isCheckpoint (toReplayItem item)

/-- The message of a user turn, as its event and as its response item. -/
structure Question where
  event : UserMessageEvent
  item : ResponseItem

/-- A turn that was opened and completed, with one user message or with none. -/
structure SessionTurn where
  id : Str
  startedAt : Option ℤ
  completedAt : Option ℤ
  durationMs : Option ℤ
  body : List RolloutItem
  question : Option Question
  plain : body.all isPlain = true
  noStoredHistory : body.any isStoredHistory = false
  events : body.filterMap userEvent = question.toList.map Question.event
  items : body.filterMap (boundaryItem parsers) = question.toList.map Question.item

inductive Segment
  | turn (t : SessionTurn parsers)
  | rollback (numTurns : UInt32)

variable {parsers}

def Segment.items : Segment parsers → List RolloutItem
  | .turn t => .eventMsg (.turnStarted t.id t.startedAt) ::
      (t.body ++ [.eventMsg (.turnComplete t.id t.completedAt t.durationMs)])
  | .rollback numTurns => [.eventMsg (.threadRolledBack numTurns)]

variable (segments : List (Segment parsers))

def rolloutOf : List RolloutItem :=
  segments.flatMap Segment.items

def Segment.question : Segment parsers → List Question
  | .turn t => t.question.toList
  | .rollback _ => []

def asked : List Question :=
  segments.flatMap Segment.question

def shownStep (turns : List (Option Question)) : Segment parsers → List (Option Question)
  | .turn t => turns ++ [t.question]
  | .rollback numTurns => turns.take (turns.length - numTurns.toNat)

def shownTurns : List (Option Question) :=
  segments.foldl shownStep []

def keptStep (questions : List Question) : Segment parsers → List Question
  | .turn t => questions ++ t.question.toList
  | .rollback numTurns => questions.take (questions.length - numTurns.toNat)

def keptQuestions : List Question :=
  segments.foldl keptStep []

variable (ss : List (Segment prs)) (segment : Segment prs)

theorem shownTurns_concat : shownTurns (ss ++ [segment]) = shownStep (shownTurns ss) segment :=
  foldl_concat ..

theorem keptQuestions_concat :
    keptQuestions (ss ++ [segment]) = keptStep (keptQuestions ss) segment :=
  foldl_concat ..

variable (sg : Segment prs)

theorem rolloutOf_concat : rolloutOf (ss ++ [sg]) = rolloutOf ss ++ sg.items := by
  rw [rolloutOf, flatMap_append, flatMap_singleton]
  rfl

theorem asked_concat : asked (ss ++ [sg]) = asked ss ++ sg.question := by
  rw [asked, flatMap_append, flatMap_singleton]
  rfl

end Rollouts

section Shown

variable {parsers : TextParsers} (u : ℕ → Str) (ss : List (Segment prs))

theorem replayItems_shown :
    let b := replayItems prs u (rolloutOf ss) .new
    b.currentTurn = none ∧ b.turns.map Turn.shownMessages =
      (shownTurns ss).map fun question => question.toList.map (·.event.shown) := by
  induction ss using reverseRecOn with
  | nil => exact ⟨rfl, rfl⟩
  | append_singleton ss segment ih =>
    obtain ⟨hi, ht⟩ := ih
    rw [rolloutOf_concat, replayItems_append, shownTurns_concat]
    generalize replayItems prs u (rolloutOf ss) .new = b at hi ht
    cases segment with
    | turn t =>
      obtain ⟨hn, turn, ha, hs⟩ := replayItems_turn prs u hi t.id t.startedAt
        t.completedAt t.durationMs t.plain
      refine ⟨hn, ?_⟩
      have hq : turn.shownMessages = t.question.toList.map (·.event.shown) := by
        rw [hs, t.events, map_map]
        rfl
      rw [Segment.items, ha, map_append, ht, shownStep, map_append,
        map_singleton, map_singleton, hq]
    | rollback nts =>
      obtain ⟨hn, htk⟩ := replayItems_rollback prs u hi nts
      refine ⟨hn, ?_⟩
      have hl : b.turns.length = (shownTurns ss).length := by
        simpa using congrArg length ht
      rw [Segment.items, htk, map_take, ht, shownStep, map_take, hl]

def shownMessages (uuid : ℕ → Str) (segments : List (Segment parsers)) : List ShownMessage :=
  (buildTurnsFromRolloutItems parsers uuid (rolloutOf segments)).flatMap Turn.shownMessages

theorem shownMessages_eq : shownMessages u ss =
      (shownTurns ss).reduceOption.map (·.event.shown) := by
  obtain ⟨hi, ht⟩ := replayItems_shown u ss
  have hf : buildTurnsFromRolloutItems prs u (rolloutOf ss) =
      (replayItems prs u (rolloutOf ss) .new).turns := by
    simp [buildTurnsFromRolloutItems, ThreadHistoryBuilder.finish,
      ThreadHistoryBuilder.finishCurrentTurn, hi]
  rw [shownMessages, hf, flatMap_def, ht]
  induction shownTurns ss with
  | nil => rfl
  | cons question qs ih =>
    cases question with
    | none => exact ih
    | some question =>
      rw [map_cons, flatten_cons, ih]
      rfl

end Shown

section Kept

variable {parsers : TextParsers} (policy : TruncationPolicy) (segments : List (Segment parsers))

/-- No turn holds a compaction, which would rebuild the history around its summary. -/
def Uncompacted : Prop :=
  ∀ t, .turn t ∈ segments → ∀ item, .compacted item ∉ t.body

def replayRollout : Replay :=
  replay parsers policy ((rolloutOf segments).map toReplayItem) ⟨[], false⟩

variable (pl : TruncationPolicy) (ss : List (Segment prs))

theorem replayRollout_concat (sg : Segment prs) : replayRollout pl (ss ++ [sg]) =
      replay prs pl (sg.items.map toReplayItem) (replayRollout pl ss) := by
  rw [replayRollout, rolloutOf_concat, map_append, RollbackUndo.replay_append]
  rfl

def rebuiltHistory : List ResponseItem :=
  (reconstructHistoryFromRollout parsers policy ((rolloutOf segments).map toReplayItem)).history

theorem rebuiltHistory_eq : rebuiltHistory pl ss = (replayRollout pl ss).items := by
  apply reconstruct_eq_replay
  rw [any_map, rolloutOf, any_flatMap, any_eq_false]
  intro segment _
  cases segment with
  | turn t =>
    have hb : t.body.any (isCheckpoint ∘ toReplayItem) = false := t.noStoredHistory
    simp [Segment.items, hb, toReplayItem, isCheckpoint]
  | rollback nts => simp [Segment.items, toReplayItem, isCheckpoint]

theorem userMessages_recordedItem (i : RolloutItem) :
    userMessages prs (recordedItem pl (toReplayItem i)).toList = (boundaryItem prs i).toList := by
  cases i with
  | eventMsg event => cases event <;> rfl
  | responseItem i =>
    cases i with
    | message id r c p =>
      by_cases hs : r = "system"
      · subst hs
        rfl
      · have ha := decide_eq_true hs
        have hr : recordedItem pl (toReplayItem
            (.responseItem (.message id r c p))) = some (.message id r c p) := if_pos ha
        rw [hr, boundaryItem, Option.toList_some, userMessages, filter_singleton]
        cases isUserTurnBoundary prs (.message id r c p) <;> rfl
    | _ => rfl
  | _ => rfl

theorem userMessages_append (h h' : List ResponseItem) : userMessages prs (h ++ h') =
      userMessages prs h ++ userMessages prs h' :=
  filter_append ..

theorem userMessages_recorded (its : List RolloutItem) :
    userMessages prs (recorded pl (its.map toReplayItem)) = its.filterMap (boundaryItem prs) := by
  induction its with
  | nil => rfl
  | cons i its ih =>
    have hi : userMessages prs (recordedItem pl (toReplayItem i)).toList =
        (boundaryItem prs i).toList := userMessages_recordedItem pl i
    have hh : recorded pl ((i :: its).map toReplayItem) =
        (recordedItem pl (toReplayItem i)).toList ++ recorded pl (its.map toReplayItem) := by
      rw [map_cons, recorded, filterMap_cons]
      cases recordedItem pl (toReplayItem i) <;> rfl
    rw [hh, userMessages_append, hi, ih, filterMap_cons]
    cases boundaryItem prs i <;> rfl

variable (t : SessionTurn prs)

theorem onlyRecords_ending (ha : a ⊆ t.body) (hp : ∀ i, .compacted i ∉ a) :
    ((a ++ [RolloutItem.eventMsg (.turnComplete t.id t.completedAt t.durationMs)]).map
      toReplayItem).all onlyRecords = true := by
  rw [all_map, all_eq_true]
  intro i hi
  rcases mem_append.mp hi with hb | hl
  · have hi := all_eq_true.mp t.plain i (ha hb)
    cases i with
    | compacted i => exact absurd hb (hp i)
    | eventMsg event =>
      cases event with
      | threadRolledBack nts => cases hi
      | _ => rfl
    | _ => rfl
  · rw [mem_singleton.mp hl]
    rfl

theorem replay_turn (hp : ∀ i, .compacted i ∉ t.body) (r : Replay) :
    userMessages prs (replay prs pl ((Segment.turn t).items.map toReplayItem) r).items =
      userMessages prs r.items ++ t.question.toList.map Question.item := by
  have hr : ((Segment.turn t).items.map toReplayItem).all onlyRecords = true := by
    rw [Segment.items, map_cons, all_cons, onlyRecords_ending t (List.Subset.refl _) hp]
    rfl
  rw [RollbackUndo.replay_records prs pl hr, userMessages_append, userMessages_recorded, ← t.items]
  congr 1
  rw [Segment.items, filterMap_cons, filterMap_append]
  exact append_nil _

/-- The user messages of the rebuilt history are those kept by counting user turns only. -/
theorem userMessages_replayRollout {ss : List (Segment prs)} (h : Uncompacted ss) :
    userMessages prs (replayRollout pl ss).items = (keptQuestions ss).map Question.item := by
  induction ss using reverseRecOn with
  | nil => rfl
  | append_singleton ss segment ih =>
    have hk := ih fun t ht => h t (mem_append_left _ ht)
    rw [replayRollout_concat, keptQuestions_concat]
    cases segment with
    | turn t =>
      rw [replay_turn pl t (h t (mem_append_right _ (mem_singleton_self _))), hk,
        keptStep, map_append]
    | rollback nts =>
      have hd := userMessages_dropLast prs nts.toNat (replayRollout pl ss).items
      rw [hk, length_map] at hd
      rw [keptStep, map_take]
      exact hd

end Kept

section Agreement

variable {parsers : TextParsers} (uuid : ℕ → Str) (policy : TruncationPolicy)

section

variable (segments : List (Segment parsers))

/-- Both readings of the rollout have the same of its user messages, in the same order. -/
def Agree : Prop :=
  ∃ questions : List Question, questions.Sublist (asked segments) ∧
    shownMessages uuid segments = questions.map (·.event.shown) ∧
    userMessages parsers (rebuiltHistory policy segments) = questions.map Question.item

/-- Each rollback takes as many user turns from the turns shown as it takes from the history. -/
def RollbacksMeetUserTurns : Prop :=
  ∀ earlier numTurns, earlier ++ [.rollback numTurns] <+: segments →
    ((shownTurns earlier).drop ((shownTurns earlier).length - numTurns.toNat)).countP
        Option.isSome =
      min numTurns.toNat ((shownTurns earlier).countP Option.isSome)

end

variable (l : List (Option α))

theorem length_reduceOption_countP : l.reduceOption.length = l.countP Option.isSome := by
  rw [reduceOption_length_eq, countP_eq_length_filter]

theorem reduceOption_take (n : ℕ) : (l.take n).reduceOption =
      l.reduceOption.take (l.countP Option.isSome - (l.drop n).countP Option.isSome) := by
  have hs : l.reduceOption = (l.take n).reduceOption ++ (l.drop n).reduceOption := by
    rw [← reduceOption_append, take_append_drop]
  have hc : l.countP Option.isSome - (l.drop n).countP Option.isSome =
      (l.take n).reduceOption.length := by
    rw [length_reduceOption_countP]
    have ha : (l.take n).countP Option.isSome + (l.drop n).countP Option.isSome =
        l.countP Option.isSome := by
      rw [← countP_append, take_append_drop]
    omega
  rw [hc, hs, take_left]

theorem keptQuestions_sublist (ss : List (Segment prs)) :
    (keptQuestions ss).Sublist (asked ss) := by
  induction ss using reverseRecOn with
  | nil => exact List.Sublist.refl _
  | append_singleton ss segment ih =>
    rw [keptQuestions_concat, asked_concat]
    cases segment with
    | turn t => exact ih.append (List.Sublist.refl _)
    | rollback nts =>
      exact (take_sublist _ _).trans (ih.trans (sublist_append_left _ _))

variable {segments : List (Segment prs)}

theorem shown_eq_kept (h : RollbacksMeetUserTurns segments) :
    (shownTurns segments).reduceOption = keptQuestions segments := by
  induction segments using reverseRecOn with
  | nil => rfl
  | append_singleton segments segment ih =>
    have hs := ih fun e nts he =>
      h e nts (he.trans (prefix_append _ _))
    rw [shownTurns_concat, keptQuestions_concat]
    cases segment with
    | turn t =>
      rw [shownStep, keptStep, reduceOption_append, hs]
      cases t.question <;> rfl
    | rollback nts =>
      have hm := h segments nts (prefix_rfl)
      rw [shownStep, keptStep, reduceOption_take, hm, hs]
      have hl : (shownTurns segments).countP Option.isSome = (keptQuestions segments).length := by
        rw [← length_reduceOption_countP, hs]
      congr 1
      omega

/-- The message of the history that stands for what a compaction summed up. -/
def summaryMessage (item : CompactedItem) : ResponseItem :=
  userMessage (if item.message = [] then "(no summary available)" else item.message)

/-- The summary of every compaction reads as a user message and is none of the thread's own. -/
def SummariesStandOut (segments : List (Segment parsers)) : Prop :=
  ∀ t, .turn t ∈ segments → ∀ item, .compacted item ∈ t.body →
    isUserTurnBoundary parsers (summaryMessage item) = true ∧
      summaryMessage item ∉ (asked segments).map Question.item

theorem exists_last_compacted {its : List RolloutItem} (h : ∃ i, .compacted i ∈ its) :
    ∃ b i after, its = b ++ .compacted i :: after ∧ ∀ i, .compacted i ∉ after := by
  induction its with
  | nil =>
    obtain ⟨i, hi⟩ := h
    cases hi
  | cons first its ih =>
    by_cases hl : ∃ i, .compacted i ∈ its
    · obtain ⟨b, i, after, rfl, ha⟩ := ih hl
      exact ⟨first :: b, i, after, rfl, ha⟩
    · obtain ⟨i, hi⟩ := h
      rcases mem_cons.mp hi with rfl | hi
      · exact ⟨[], i, its, rfl, fun i hi => hl ⟨i, hi⟩⟩
      · exact absurd ⟨i, hi⟩ hl

variable (u : ℕ → Str) (pl : TruncationPolicy)

theorem summary_in_history (t : SessionTurn prs) (h : ∃ i, .compacted i ∈ t.body) (r : Replay) :
    ∃ i, .compacted i ∈ t.body ∧ summaryMessage i ∈
      (replay prs pl ((Segment.turn t).items.map toReplayItem) r).items := by
  obtain ⟨b, i, after, hb, haf⟩ := exists_last_compacted h
  have hm : .compacted i ∈ t.body := by
    rw [hb]
    exact mem_append_right _ mem_cons_self
  have hsb : after ⊆ t.body := by
    rw [hb]
    exact fun _ ha => mem_append_right _ (mem_cons_of_mem _ ha)
  have hn : i.replacementHistory = none := by
    have hs := any_eq_false.mp t.noStoredHistory _ hm
    change ¬ i.replacementHistory.isSome = true at hs
    rwa [Bool.not_eq_true, Option.isSome_eq_false_iff, Option.isNone_iff_eq_none] at hs
  have hi : (Segment.turn t).items =
      (.eventMsg (.turnStarted t.id t.startedAt) :: b) ++ .compacted i ::
        (after ++ [.eventMsg (.turnComplete t.id t.completedAt t.durationMs)]) := by
    rw [Segment.items, hb]
    simp
  refine ⟨i, hm, ?_⟩
  rw [hi, map_append, RollbackUndo.replay_append, map_cons]
  generalize replay prs pl _ r = mid
  rw [replay, foldl_cons, ← replay,
    RollbackUndo.replay_records prs pl (onlyRecords_ending t hsb haf)]
  apply mem_append_left
  simp only [toReplayItem, replayItem, hn]
  exact mem_append_right _ (mem_singleton_self _)

theorem agree_of_condition (hp : Uncompacted segments)
    (hm : RollbacksMeetUserTurns segments) : Agree u pl segments := by
  refine ⟨keptQuestions segments, keptQuestions_sublist segments, ?_, ?_⟩
  · rw [shownMessages_eq, shown_eq_kept hm]
  · rw [rebuiltHistory_eq, userMessages_replayRollout pl hp]

theorem Agree.length_eq (hp : Uncompacted ss) (h : Agree u pl ss) :
    (shownTurns ss).countP Option.isSome = (keptQuestions ss).length := by
  obtain ⟨qs, -, hs, hk⟩ := h
  rw [shownMessages_eq] at hs
  rw [rebuiltHistory_eq, userMessages_replayRollout pl hp] at hk
  have hl := congrArg length hs
  have hl' := congrArg length hk
  simp only [length_map] at hl hl'
  rw [← length_reduceOption_countP, hl, hl']

theorem asked_mono (h : e <+: segments) : asked e ⊆ asked segments := by
  obtain ⟨r, rfl⟩ := h
  rw [asked, asked, flatMap_append]
  exact subset_append_left _ _

theorem uncompacted_of_agree (hs : SummariesStandOut segments)
    (h : ∀ e, e <+: segments → Agree u pl e) : Uncompacted segments := by
  intro t ht i hi
  obtain ⟨b, after, rfl⟩ := append_of_mem ht
  have he : b ++ [.turn t] <+: b ++ .turn t :: after :=
    ⟨after, by rw [append_assoc, singleton_append]⟩
  obtain ⟨qs, hsb, -, hk⟩ := h _ he
  obtain ⟨sm, hsm, hh⟩ := summary_in_history pl t ⟨i, hi⟩ (replayRollout pl b)
  obtain ⟨hb, hf⟩ := hs t ht sm hsm
  have hm : summaryMessage sm ∈ userMessages prs (rebuiltHistory pl (b ++ [.turn t])) := by
    rw [rebuiltHistory_eq, replayRollout_concat]
    exact mem_filter.mpr ⟨hh, hb⟩
  rw [hk, mem_map] at hm
  obtain ⟨question, hq, hi⟩ := hm
  apply hf
  exact mem_map.mpr ⟨question, asked_mono he (hsb.subset hq), hi⟩

theorem meetUserTurns_of_agree (hpl : Uncompacted segments)
    (h : ∀ earlier, earlier <+: segments → Agree u pl earlier) :
    RollbacksMeetUserTurns segments := by
  intro earlier nts he
  have hp : ∀ earlier, earlier <+: segments → Uncompacted earlier :=
    fun earlier he t ht => hpl t (he.subset ht)
  have hb : earlier <+: segments := (prefix_append _ _).trans he
  have hl := (h earlier hb).length_eq u pl (hp _ hb)
  have hl' := (h _ he).length_eq u pl (hp _ he)
  have hs : ((shownTurns earlier).take ((shownTurns earlier).length - nts.toNat)).countP
        Option.isSome +
      ((shownTurns earlier).drop ((shownTurns earlier).length - nts.toNat)).countP
        Option.isSome = (shownTurns earlier).countP Option.isSome := by
    rw [← countP_append, take_append_drop]
  rw [shownTurns_concat, keptQuestions_concat, shownStep, keptStep, length_take] at hl'
  omega

/-- After every turn and every rollback of a rollout the user messages shown to the client and
those rebuilt for the model are the same, as long as no turn was compacted in place and each
rollback takes only user turns from the turns shown; and if the summaries of compactions can be
told from the thread's own messages, only then. -/
theorem replays_agree_iff (segments : List (Segment parsers)) :
    (Uncompacted segments ∧ RollbacksMeetUserTurns segments →
      ∀ earlier, earlier <+: segments → Agree uuid policy earlier) ∧
    (SummariesStandOut segments → (∀ earlier, earlier <+: segments → Agree uuid policy earlier) →
        Uncompacted segments ∧ RollbacksMeetUserTurns segments) := by
  constructor
  · rintro ⟨hp, hm⟩ earlier he
    apply agree_of_condition
    · exact fun t ht => hp t (he.subset ht)
    · exact fun b nts hb => hm b nts (hb.trans he)
  · intro hs ha
    have hp := uncompacted_of_agree uuid policy hs ha
    exact ⟨hp, meetUserTurns_of_agree uuid policy hp ha⟩

theorem meetUserTurns_concat (ss : List (Segment prs)) (h : RollbacksMeetUserTurns ss)
    (hl : ∀ nts, sg = .rollback nts → ((shownTurns ss).drop ((shownTurns ss).length -
      nts.toNat)).countP Option.isSome = min nts.toNat ((shownTurns ss).countP Option.isSome)) :
    RollbacksMeetUserTurns (ss ++ [sg]) := by
  intro e nts he
  rcases prefix_concat_iff.mp he with heq | he
  · obtain ⟨rfl, hs⟩ := append_inj' heq rfl
    exact hl nts (singleton_inj.mp hs).symm
  · exact h e nts he

end Agreement

section Examples

def greeting : Question where
  event := ⟨none, "hello", none, [], [], [], []⟩
  item := .message none "user" [.inputText "hello"] none

def answer : RolloutItem :=
  .responseItem (.message none "assistant" [.outputText "hi"] none)

def greetingTurn : SessionTurn plainParsers where
  id := "1"
  startedAt := none
  completedAt := none
  durationMs := none
  body := [.eventMsg (.userMessage greeting.event), .responseItem greeting.item,
    .eventMsg (.agentMessage "hi" none none), answer]
  question := some greeting
  plain := rfl
  noStoredHistory := rfl
  events := rfl
  items := by decide +kernel

def reviewTurn : SessionTurn plainParsers where
  id := "2"
  startedAt := none
  completedAt := none
  durationMs := none
  body := [.eventMsg (.enteredReviewMode none), .eventMsg (.exitedReviewMode none), answer]
  question := none
  plain := rfl
  noStoredHistory := rfl
  events := rfl
  items := by decide +kernel

def takenBack : List (Segment plainParsers) :=
  [.turn reviewTurn, .turn greetingTurn, .rollback 1]

theorem replays_agree_taken_back :
    Agree (fun _ => []) (.bytes 100) takenBack ∧ RollbacksMeetUserTurns takenBack := by
  have hm : RollbacksMeetUserTurns takenBack := by
    have hn : RollbacksMeetUserTurns ([] : List (Segment plainParsers)) := by
      intro e nts he
      cases append_eq_nil_iff.mp (prefix_nil.mp he) with
      | intro _ hl => cases hl
    apply meetUserTurns_concat [.turn reviewTurn, .turn greetingTurn]
    · apply meetUserTurns_concat [.turn reviewTurn]
      · apply meetUserTurns_concat []
        · exact hn
        · exact nofun
      · exact nofun
    · rintro _ h
      cases h
      rfl
  have hp : Uncompacted takenBack := by
    intro t ht i hi
    rcases mem_cons.mp ht with heq | ht
    · cases heq
      simp [reviewTurn, answer] at hi
    · rcases mem_cons.mp ht with heq | ht
      · cases heq
        simp [greetingTurn, answer] at hi
      · simp at ht
  have ha := (replays_agree_iff (fun _ => []) (.bytes 100) takenBack).1 ⟨hp, hm⟩
  have hs : SummariesStandOut takenBack := fun t ht i hi =>
    absurd hi (hp t ht i)
  exact ⟨ha _ prefix_rfl, ((replays_agree_iff (fun _ => []) (.bytes 100) takenBack).2 hs ha).2⟩

/-- The rollback of a greeting after which a review ran: the client is still shown the greeting,
which the model no longer has. -/
theorem greeting_only_shown :
    let segments : List (Segment plainParsers) :=
      [.turn greetingTurn, .turn reviewTurn, .rollback 1]
    shownMessages (fun _ => []) segments = [greeting.event.shown] ∧
      userMessages plainParsers (rebuiltHistory (.bytes 100) segments) = [] ∧
      ¬ Agree (fun _ => []) (.bytes 100) segments := by
  intro segments
  have hs : shownMessages (fun _ => []) segments = [greeting.event.shown] := by
    decide +kernel
  have hk : userMessages plainParsers (rebuiltHistory (.bytes 100) segments) = [] := by
    decide +kernel
  refine ⟨hs, hk, ?_⟩
  rintro ⟨qs, -, hs', hk'⟩
  rw [hk, eq_comm, map_eq_nil_iff] at hk'
  rw [hs, hk'] at hs'
  cases hs'

end Examples

end ReplayAgreement
