import CodexTeams.RolloutReconstruction
import Mathlib.Algebra.GroupWithZero.Nat

/-! The turns of a thread as a client is shown them, rebuilt from the rollout. The newest turns are
dropped at a rollback marker. -/
namespace ThreadHistory

open RustStr ResponseItems ContextualMessages List
open RolloutReconstruction (CompactedItem TurnContextItem)

structure UserMessageEvent where
  clientId : Option Str
  message : Str
  images : Option (List Str)
  imageDetails : List (Option ImageDetail)
  localImages : List Str
  localImageDetails : List (Option ImageDetail)
  textElements : List Serialised
  deriving Repr

inductive UserInput
  | text (text : Str) (textElements : List Serialised)
  | image (url : Str) (detail : Option ImageDetail)
  | localImage (path : Str) (detail : Option ImageDetail)
  deriving DecidableEq, Repr

/-- The items of commands, patches and other tools are only put in and replaced by their id, so
they are one constructor. -/
inductive ThreadItem
  | userMessage (id : Str) (clientId : Option Str) (content : List UserInput)
  | hookPrompt (id : Str) (fragments : List HookPromptXml)
  | agentMessage (id text : Str) (phase : Option MessagePhase)
      (memoryCitation : Option Serialised)
  | reasoning (id : Str) (summary content : List Str)
  | contextCompaction (id : Str)
  | enteredReviewMode (id review : Str)
  | exitedReviewMode (id review : Str)
  | tool (id : Str) (item : Serialised)
  deriving Repr

def ThreadItem.id : ThreadItem → Str
  | .userMessage id _ _ | .hookPrompt id _ | .agentMessage id _ _ _ | .reasoning id _ _
  | .contextCompaction id | .enteredReviewMode id _ | .exitedReviewMode id _ | .tool id _ => id

inductive TurnStatus
  | completed
  | interrupted
  | failed
  | inProgress
  deriving DecidableEq, Repr

structure TurnError where
  message : Str
  codexErrorInfo : Option Serialised
  deriving Repr

structure Turn where
  id : Str
  items : List ThreadItem
  error : Option TurnError
  status : TurnStatus
  startedAt : Option ℤ
  completedAt : Option ℤ
  durationMs : Option ℤ
  deriving Repr

structure PendingTurn extends Turn where
  openedExplicitly : Bool
  sawCompaction : Bool
  rolloutStartIndex : ℕ
  deriving Repr

/-- The events that put in the item of a tool carry this item and, where they have one, the turn
they belong to. -/
inductive EventMsg
  | userMessage (payload : UserMessageEvent)
  | agentMessage (message : Str) (phase : Option MessagePhase)
      (memoryCitation : Option Serialised)
  | agentReasoning (text : Str)
  | agentReasoningRawContent (text : Str)
  | toolItem (turnId : Option Str) (id : Str) (item : Serialised)
  | contextCompacted
  | enteredReviewMode (userFacingHint : Option Str)
  | exitedReviewMode (overallExplanation : Option Str)
  | error (error : TurnError) (affectsTurnStatus : Bool)
  | threadRolledBack (numTurns : UInt32)
  | turnAborted (turnId : Option Str) (completedAt durationMs : Option ℤ)
  | turnStarted (turnId : Str) (startedAt : Option ℤ)
  | turnComplete (turnId : Str) (completedAt durationMs : Option ℤ)
  | other
  deriving Repr

inductive RolloutItem
  | sessionMeta
  | responseItem (item : ResponseItem)
  | compacted (item : CompactedItem)
  | turnContext (item : TurnContextItem)
  | eventMsg (event : EventMsg)
  deriving Repr

structure ThreadHistoryBuilder where
  turns : List Turn
  currentTurn : Option PendingTurn
  nextItemIndex : ℕ
  currentRolloutIndex : ℕ
  nextRolloutIndex : ℕ
  deriving Repr

def ThreadHistoryBuilder.new : ThreadHistoryBuilder := ⟨[], none, 1, 0, 0⟩

def buildUserInputs (payload : UserMessageEvent) : List UserInput :=
  (if trim payload.message ≠ [] then [.text payload.message payload.textElements] else []) ++
    (payload.images.getD []).mapIdx
      (fun idx image => .image image (payload.imageDetails[idx]?).join) ++
    payload.localImages.mapIdx
      fun idx path => .localImage path (payload.localImageDetails[idx]?).join

def reviewFallbackMessage : Str := "Reviewer failed to output a response."

def renderReviewOutputText (overallExplanation : Str) : Str :=
  if trim overallExplanation = [] then reviewFallbackMessage else trim overallExplanation

variable (item : ThreadItem)

def upsertTurnItem : List ThreadItem → List ThreadItem
  | [] => [item]
  | existing :: items =>
    if existing.id = item.id then item :: items else existing :: upsertTurnItem items

def updateFirst {α : Type} (p : α → Bool) (f : α → α) : List α → Option (List α)
  | [] => none
  | a :: as => if p a then some (f a :: as) else (updateFirst p f as).map (a :: ·)

variable (completedAt durationMs : Option ℤ)

def Turn.interrupt (turn : Turn) : Turn :=
  { turn with status := .interrupted, completedAt := completedAt, durationMs := durationMs }

/-- A turn that failed or was interrupted keeps its status. -/
def Turn.markCompleted (turn : Turn) : Turn :=
  { turn with
    status :=
      if turn.status = .completed ∨ turn.status = .inProgress then .completed else turn.status
    completedAt := completedAt
    durationMs := durationMs }

def PendingTurn.push (turn : PendingTurn) : PendingTurn :=
  { turn with items := turn.items ++ [item] }

namespace ThreadHistoryBuilder

-- the host's parsers, and the text of the identifier drawn at each rollout item
variable (parsers : TextParsers) (uuid : ℕ → Str) (b : ThreadHistoryBuilder)

def finishCurrentTurn : ThreadHistoryBuilder :=
  match b.currentTurn with
  | none => b
  | some turn =>
    if turn.items = [] ∧ turn.openedExplicitly = false ∧ turn.sawCompaction = false then
      { b with currentTurn := none }
    else { b with currentTurn := none, turns := b.turns ++ [turn.toTurn] }

def finish : List Turn := b.finishCurrentTurn.turns

def newTurn (id : Option Str) (b : ThreadHistoryBuilder) : PendingTurn where
  id := id.getD
    (if b.nextRolloutIndex = 0 then uuid b.currentRolloutIndex
      else "rollout-" ++ (toString b.currentRolloutIndex).toList)
  items := []
  error := none
  status := .completed
  startedAt := none
  completedAt := none
  durationMs := none
  openedExplicitly := false
  sawCompaction := false
  rolloutStartIndex := b.currentRolloutIndex

def ensureTurn : PendingTurn :=
  b.currentTurn.getD (b.newTurn uuid none)

def setCurrent (turn : PendingTurn) (b : ThreadHistoryBuilder) : ThreadHistoryBuilder :=
  { b with currentTurn := some turn }

variable (item : ThreadItem) (b : ThreadHistoryBuilder)

def pushItem : ThreadHistoryBuilder :=
  b.setCurrent ((b.ensureTurn uuid).push item)

def itemId : Str := "item-" ++ (toString b.nextItemIndex).toList

def pushNumbered (item : Str → ThreadItem) (b : ThreadHistoryBuilder) : ThreadHistoryBuilder :=
  pushItem uuid (item b.itemId) { b with nextItemIndex := b.nextItemIndex + 1 }

variable (turnId : Str)

def upsertItemInTurnId (item : ThreadItem) (b : ThreadHistoryBuilder) : ThreadHistoryBuilder :=
  match b.currentTurn.filter (·.id = turnId) with
  | some turn => b.setCurrent { turn with items := upsertTurnItem item turn.items }
  | none =>
    match updateFirst (·.id = turnId)
      (fun turn => { turn with items := upsertTurnItem item turn.items }) b.turns with
    | some turns => { b with turns := turns }
    | none => b

def upsertItemInCurrentTurn : ThreadHistoryBuilder :=
  let turn := b.ensureTurn uuid
  b.setCurrent { turn with items := upsertTurnItem item turn.items }

def handleUserMessage (payload : UserMessageEvent) (b : ThreadHistoryBuilder) :
    ThreadHistoryBuilder :=
  let b :=
    if b.currentTurn.any fun turn =>
        !turn.openedExplicitly && !(turn.sawCompaction && turn.items.isEmpty) then
      b.finishCurrentTurn
    else b
  b.pushNumbered uuid (.userMessage · payload.clientId (buildUserInputs payload))

variable (text : Str)

def handleAgentMessage (phase : Option MessagePhase)
    (memoryCitation : Option Serialised) (b : ThreadHistoryBuilder) : ThreadHistoryBuilder :=
  if text = [] then b else b.pushNumbered uuid (.agentMessage · text phase memoryCitation)

def addReasoning (extend : List Str × List Str → List Str × List Str)
    (b : ThreadHistoryBuilder) : ThreadHistoryBuilder :=
  let turn := b.ensureTurn uuid
  match turn.items.getLast? with
  | some (.reasoning id summary content) =>
    let (summary, content) := extend (summary, content)
    b.setCurrent { turn with items := turn.items.dropLast ++ [.reasoning id summary content] }
  | _ =>
    let (summary, content) := extend ([], [])
    b.pushNumbered uuid (.reasoning · summary content)

variable (b : ThreadHistoryBuilder)

def handleAgentReasoning : ThreadHistoryBuilder :=
  if text = [] then b
  else b.addReasoning uuid fun (summary, content) => (summary ++ [text], content)

def handleAgentReasoningRawContent : ThreadHistoryBuilder :=
  if text = [] then b
  else b.addReasoning uuid fun (summary, content) => (summary, content ++ [text])

def handleToolItem (turnId : Option Str) (item : ThreadItem) (b : ThreadHistoryBuilder) :
    ThreadHistoryBuilder :=
  match turnId with
  | none => b.upsertItemInCurrentTurn uuid item
  | some turnId => b.upsertItemInTurnId turnId item

def handleContextCompacted : ThreadHistoryBuilder :=
  b.pushNumbered uuid .contextCompaction

def handleEnteredReviewMode (userFacingHint : Option Str) (b : ThreadHistoryBuilder) :
    ThreadHistoryBuilder :=
  b.pushNumbered uuid (.enteredReviewMode · (userFacingHint.getD "Review requested."))

def handleExitedReviewMode (overallExplanation : Option Str) (b : ThreadHistoryBuilder) :
    ThreadHistoryBuilder :=
  b.pushNumbered uuid (.exitedReviewMode ·
    ((overallExplanation.map renderReviewOutputText).getD reviewFallbackMessage))

def handleError (error : TurnError) (affectsTurnStatus : Bool) (b : ThreadHistoryBuilder) :
    ThreadHistoryBuilder :=
  if affectsTurnStatus then
    { b with
      currentTurn := b.currentTurn.map fun turn =>
        { turn with status := .failed, error := some error } }
  else b

def handleTurnAborted (turnId : Option Str) (completedAt durationMs : Option ℤ)
    (b : ThreadHistoryBuilder) : ThreadHistoryBuilder :=
  let applyAbort (turn : PendingTurn) : PendingTurn :=
    { turn with toTurn := turn.toTurn.interrupt completedAt durationMs }
  let active := { b with currentTurn := b.currentTurn.map applyAbort }
  match turnId with
  | none => active
  | some turnId =>
    if b.currentTurn.any (·.id = turnId) then active
    else
      match updateFirst (·.id = turnId) (Turn.interrupt completedAt durationMs) b.turns with
      | some turns => { b with turns := turns }
      | none => active

def handleTurnStarted (startedAt : Option ℤ) (b : ThreadHistoryBuilder) : ThreadHistoryBuilder :=
  let b := b.finishCurrentTurn
  b.setCurrent { b.newTurn uuid (some turnId) with
    status := .inProgress, startedAt := startedAt, openedExplicitly := true }

def handleTurnComplete (completedAt durationMs : Option ℤ)
    (b : ThreadHistoryBuilder) : ThreadHistoryBuilder :=
  let markCompleted (turn : PendingTurn) : PendingTurn :=
    { turn with toTurn := turn.toTurn.markCompleted completedAt durationMs }
  let active := { b with currentTurn := b.currentTurn.map markCompleted }.finishCurrentTurn
  if b.currentTurn.any (·.id = turnId) then active
  else
    match updateFirst (·.id = turnId) (Turn.markCompleted completedAt durationMs) b.turns with
    | some turns => { b with turns := turns }
    | none => active

def handleCompacted : ThreadHistoryBuilder :=
  b.setCurrent { b.ensureTurn uuid with sawCompaction := true }

def handleThreadRollback (numTurns : UInt32) (b : ThreadHistoryBuilder) : ThreadHistoryBuilder :=
  let b := b.finishCurrentTurn
  let turns :=
    if b.turns.length ≤ numTurns.toNat then [] else b.turns.take (b.turns.length - numTurns.toNat)
  { b with turns := turns, nextItemIndex := (turns.map (·.items.length)).sum + 1 }

def parseHookPromptMessage (content : List ContentItem) : Option (List HookPromptXml) :=
  let fragment : ContentItem → Option HookPromptXml
    | .inputText text => parseHookPromptFragment parsers text
    | _ => none
  (content.mapM fragment).filter (· ≠ [])

def handleResponseItem (item : ResponseItem) (b : ThreadHistoryBuilder) : ThreadHistoryBuilder :=
  match item with
  | .message id role content _ =>
    if role = "user" then
      match parseHookPromptMessage parsers content with
      | some fragments =>
        b.pushItem uuid (.hookPrompt (id.getD (uuid b.currentRolloutIndex)) fragments)
      | none => b
    else b
  | _ => b

def handleEvent (event : EventMsg) (b : ThreadHistoryBuilder) : ThreadHistoryBuilder :=
  match event with
  | .userMessage payload => b.handleUserMessage uuid payload
  | .agentMessage message phase memoryCitation =>
    b.handleAgentMessage uuid message phase memoryCitation
  | .agentReasoning text => b.handleAgentReasoning uuid text
  | .agentReasoningRawContent text => b.handleAgentReasoningRawContent uuid text
  | .toolItem turnId id item => b.handleToolItem uuid turnId (.tool id item)
  | .contextCompacted => b.handleContextCompacted uuid
  | .enteredReviewMode hint => b.handleEnteredReviewMode uuid hint
  | .exitedReviewMode explanation => b.handleExitedReviewMode uuid explanation
  | .error error affectsTurnStatus => b.handleError error affectsTurnStatus
  | .threadRolledBack numTurns => b.handleThreadRollback numTurns
  | .turnAborted turnId completedAt durationMs =>
    b.handleTurnAborted turnId completedAt durationMs
  | .turnStarted turnId startedAt => b.handleTurnStarted uuid turnId startedAt
  | .turnComplete turnId completedAt durationMs =>
    b.handleTurnComplete turnId completedAt durationMs
  | .other => b

def countItem : ThreadHistoryBuilder :=
  { b with
    currentRolloutIndex := b.nextRolloutIndex
    nextRolloutIndex := b.nextRolloutIndex + 1 }

def handleRolloutItem (item : RolloutItem) : ThreadHistoryBuilder :=
  match item with
  | .eventMsg event => b.countItem.handleEvent uuid event
  | .compacted _ => b.countItem.handleCompacted uuid
  | .responseItem item => b.countItem.handleResponseItem parsers uuid item
  | .turnContext _ | .sessionMeta => b.countItem

end ThreadHistoryBuilder

open ThreadHistoryBuilder

section Builder

variable (parsers : TextParsers) (uuid : ℕ → Str) (items : List RolloutItem)

def replayItems (b : ThreadHistoryBuilder) : ThreadHistoryBuilder :=
  items.foldl (handleRolloutItem parsers uuid) b

def buildTurnsFromRolloutItems : List Turn :=
  (replayItems parsers uuid items .new).finish

variable (ps : TextParsers) (u : ℕ → Str)

theorem replayItems_append (its its' : List RolloutItem) (b : ThreadHistoryBuilder) :
    replayItems ps u (its ++ its') b = replayItems ps u its' (replayItems ps u its b) :=
  foldl_append

structure ShownMessage where
  clientId : Option Str
  content : List UserInput
  deriving DecidableEq, Repr

def UserMessageEvent.shown (payload : UserMessageEvent) : ShownMessage :=
  ⟨payload.clientId, buildUserInputs payload⟩

def ThreadItem.shownMessage : ThreadItem → Option ShownMessage
  | .userMessage _ clientId content => some ⟨clientId, content⟩
  | _ => none

def Turn.shownMessages (turn : Turn) : List ShownMessage :=
  turn.items.filterMap ThreadItem.shownMessage

/-- An item that neither opens, ends nor removes turns, nor is the item of a tool. -/
def isPlain : RolloutItem → Bool
  | .eventMsg event =>
    match event with
    | .toolItem _ _ _ | .threadRolledBack _ | .turnAborted _ _ _ | .turnStarted _ _
    | .turnComplete _ _ _ => false
    | _ => true
  | _ => true

def userEvent : RolloutItem → Option UserMessageEvent
  | .eventMsg (.userMessage payload) => some payload
  | _ => none

/-- The turn with the id is open, and the messages are what it shows. -/
structure OpenTurn (id : Str) (turns : List Turn) (messages : List ShownMessage)
    (b : ThreadHistoryBuilder) : Prop where
  turns_eq : b.turns = turns
  current : ∃ turn, b.currentTurn = some turn ∧ turn.id = id ∧ turn.openedExplicitly = true ∧
    turn.shownMessages = messages

section OpenTurn

variable {id : Str} {ts : List Turn} {ms : List ShownMessage} {b : ThreadHistoryBuilder}
  (h : OpenTurn id ts ms b)

include h

theorem OpenTurn.countItem : OpenTurn id ts ms b.countItem := ⟨h.turns_eq, h.current⟩

theorem OpenTurn.pushItem (i : ThreadItem) :
    OpenTurn id ts (ms ++ i.shownMessage.toList) (b.pushItem u i) := by
  obtain ⟨turn, hc, hid, ho, hs⟩ := h.current
  have he : b.ensureTurn u = turn := by rw [ensureTurn, hc, Option.getD_some]
  refine ⟨h.turns_eq, turn.push i, ?_, hid, ho, ?_⟩
  · rw [ThreadHistoryBuilder.pushItem, he]
    rfl
  · rw [← hs, PendingTurn.push]
    cases hi : i.shownMessage <;> simp [Turn.shownMessages, hi]

theorem OpenTurn.pushNumbered (i : Str → ThreadItem) :
    OpenTurn id ts (ms ++ (i b.itemId).shownMessage.toList) (b.pushNumbered u i) := by
  have hn : OpenTurn id ts ms { b with nextItemIndex := b.nextItemIndex + 1 } :=
    ⟨h.turns_eq, h.current⟩
  exact hn.pushItem u (i b.itemId)

theorem OpenTurn.addReasoning (e : List Str × List Str → List Str × List Str) :
    OpenTurn id ts ms (b.addReasoning u e) := by
  obtain ⟨turn, hc, hid, ho, hs⟩ := h.current
  have he : b.ensureTurn u = turn := by rw [ensureTurn, hc, Option.getD_some]
  unfold ThreadHistoryBuilder.addReasoning
  simp only [he]
  split
  case h_1 itemId summary content hl =>
    refine ⟨h.turns_eq, _, rfl, hid, ho, ?_⟩
    have hi : turn.items = turn.items.dropLast ++ [.reasoning itemId summary content] := by
      rw [dropLast_append_getLast? _ hl]
    rw [← hs, Turn.shownMessages, Turn.shownMessages, filterMap_append]
    conv_rhs => rw [hi, filterMap_append]
    rfl
  case h_2 =>
    have hp := h.pushNumbered u (.reasoning · (e ([], [])).1 (e ([], [])).2)
    exact append_nil ms ▸ hp

theorem OpenTurn.handleRolloutItem (hp : isPlain i = true) :
    OpenTurn id ts (ms ++ ((userEvent i).map UserMessageEvent.shown).toList)
      (b.handleRolloutItem ps u i) := by
  have hi := h.countItem
  unfold ThreadHistoryBuilder.handleRolloutItem
  generalize b.countItem = b at hi
  have hs := (append_nil ms).symm ▸ hi
  have hps : ∀ i : Str → ThreadItem, (i b.itemId).shownMessage = none →
      OpenTurn id ts (ms ++ []) (b.pushNumbered u i) := by
    intro i hit
    have hn : OpenTurn id ts _ (b.pushNumbered u i) := hi.pushNumbered u i
    rwa [hit] at hn
  have hr : ∀ extend, OpenTurn id ts (ms ++ []) (b.addReasoning u extend) := fun extend =>
    (append_nil ms).symm ▸ hi.addReasoning u extend
  have ht : ∀ (text : Str) {b'}, OpenTurn id ts (ms ++ []) b' →
      OpenTurn id ts (ms ++ []) (if text = [] then b else b') := by
    intro text b' h
    split
    · exact hs
    · exact h
  obtain ⟨turn, hc, hid, ho, hsh⟩ := hi.current
  cases i with
  | compacted i =>
    refine ⟨hi.turns_eq, _, rfl, ?_⟩
    rw [ensureTurn, hc]
    exact ⟨hid, ho, hsh.trans (append_nil _).symm⟩
  | responseItem i =>
    cases i with
    | message mi r c ph =>
      simp only [handleResponseItem]
      split
      · split
        case h_1 fragments _ =>
          exact hi.pushItem u (.hookPrompt _ fragments)
        case h_2 => exact hs
      · exact hs
    | _ => exact hs
  | eventMsg event =>
    cases event with
    | userMessage p =>
      have hk : (b.currentTurn.any fun turn =>
          !turn.openedExplicitly && !(turn.sawCompaction && turn.items.isEmpty)) = false := by
        simp [hc, ho]
      have hst : b.handleEvent u (.userMessage p) = b.pushNumbered u
          (.userMessage · p.clientId (buildUserInputs p)) := by
        simp only [handleEvent, handleUserMessage, hk, Bool.false_eq_true, if_false]
      change OpenTurn id ts (ms ++ [p.shown]) (b.handleEvent u _)
      rw [hst]
      exact hi.pushNumbered u (.userMessage · p.clientId (buildUserInputs p))
    | agentMessage text ph mc => exact ht text (hps _ rfl)
    | agentReasoning text => exact ht text (hr _)
    | agentReasoningRawContent text => exact ht text (hr _)
    | contextCompacted => exact hps _ rfl
    | enteredReviewMode hint => exact hps (.enteredReviewMode · _) rfl
    | exitedReviewMode e => exact hps (.exitedReviewMode · _) rfl
    | error error ats =>
      cases ats with
      | false => exact hs
      | true =>
        refine ⟨hi.turns_eq, { turn with status := .failed, error := some error }, ?_, hid,
          ho, hsh.trans (append_nil _).symm⟩
        simp [handleEvent, handleError, hc]
    | other => exact hs
    | _ => cases hp
  | _ => exact hs

theorem OpenTurn.replayItems (hp : its.all isPlain = true) :
    OpenTurn id ts (ms ++ (its.filterMap userEvent).map UserMessageEvent.shown)
      (replayItems ps u its b) := by
  induction its generalizing ms b with
  | nil => exact (append_nil ms).symm ▸ h
  | cons i its ih =>
    rw [all_cons, Bool.and_eq_true] at hp
    have hi := ih (h.handleRolloutItem ps u hp.1) hp.2
    rw [ThreadHistory.replayItems, foldl_cons, ← ThreadHistory.replayItems]
    cases he : userEvent i <;> simpa [he] using hi

theorem OpenTurn.complete (ca dms : Option ℤ) :
    ∃ t : Turn, (b.handleTurnComplete id ca dms).turns = ts ++ [t] ∧
      (b.handleTurnComplete id ca dms).currentTurn = none ∧ t.shownMessages = ms := by
  obtain ⟨t, hc, hid, ho, hs⟩ := h.current
  refine ⟨t.toTurn.markCompleted ca dms, ?_, ?_, hs⟩
  · simp [handleTurnComplete, hc, hid, ho, finishCurrentTurn, h.turns_eq]
  · simp [handleTurnComplete, hc, hid, ho, finishCurrentTurn]

end OpenTurn

variable {b : ThreadHistoryBuilder}

section

variable (hi : b.currentTurn = none)

include hi

theorem finishCurrentTurn_idle : b.countItem.finishCurrentTurn = b.countItem := by
  simp [finishCurrentTurn, countItem, hi]

/-- A turn from its start to its end, met when no turn is open, is one turn more. -/
theorem replayItems_turn (id : Str) (sa ca durationMs : Option ℤ)
    (hp : bd.all isPlain = true) : let b' := replayItems ps u (.eventMsg (.turnStarted id sa) ::
      (bd ++ [.eventMsg (.turnComplete id ca durationMs)])) b
    b'.currentTurn = none ∧ ∃ turn, b'.turns = b.turns ++ [turn] ∧
      turn.shownMessages = (bd.filterMap userEvent).map UserMessageEvent.shown := by
  intro b'
  have ho : OpenTurn id b.turns [] (b.handleRolloutItem ps u (.eventMsg (.turnStarted id sa))) := by
    change OpenTurn id b.turns [] (b.countItem.handleTurnStarted u id sa)
    rw [handleTurnStarted, finishCurrentTurn_idle hi]
    exact ⟨rfl, _, rfl, rfl, rfl, rfl⟩
  have hbd := ho.replayItems ps u hp
  generalize hm : replayItems ps u bd
    (b.handleRolloutItem ps u (.eventMsg (.turnStarted id sa))) = mid at hbd
  have hb' : b' = mid.countItem.handleTurnComplete id ca durationMs := by
    change replayItems ps u (bd ++ _)
      (b.handleRolloutItem ps u (.eventMsg (.turnStarted id sa))) = _
    rw [replayItems_append, hm]
    rfl
  obtain ⟨turn, ht, hn, hs⟩ := hbd.countItem.complete ca durationMs
  rw [hb']
  exact ⟨hn, turn, ht, hs⟩

/-- A rollback marker takes away the newest turns, of whatever kind. -/
theorem replayItems_rollback (numTurns : UInt32) :
    let b' := replayItems ps u [.eventMsg (.threadRolledBack numTurns)] b
    b'.currentTurn = none ∧ b'.turns = b.turns.take (b.turns.length - numTurns.toNat) := by
  intro b'
  have hb' : b' = b.countItem.handleThreadRollback numTurns := rfl
  rw [hb', handleThreadRollback, finishCurrentTurn_idle hi]
  refine ⟨hi, ?_⟩
  by_cases ha : b.turns.length ≤ numTurns.toNat <;> simp [ha, countItem]

end

end Builder

end ThreadHistory
