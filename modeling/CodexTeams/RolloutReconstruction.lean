import CodexTeams.ContextualMessages
import CodexTeams.TextTruncation

/-! Rebuilding a session from its rollout file: the items are read backwards to the newest
checkpoint, skipping turns that were rolled back, and then replayed forwards on it. -/
namespace RolloutReconstruction

open RustInt RustStr ResponseItems ContextualMessages TextTruncation

/-- The fields that no function here reads are kept as one text. -/
structure TurnContextItem where
  turnId : Option Str
  model : Str
  realtimeActive : Option Bool
  settings : Serialised
  deriving DecidableEq, Repr

structure CompactedItem where
  message : Str
  replacementHistory : Option (List ResponseItem)
  deriving Repr

inductive EventMsg
  | turnStarted (turnId : Str)
  | turnComplete (turnId : Str)
  | turnAborted (turnId : Option Str)
  | userMessage
  | threadRolledBack (numTurns : UInt32)
  | other
  deriving Repr

inductive RolloutItem
  | sessionMeta
  | responseItem (item : ResponseItem)
  | compacted (item : CompactedItem)
  | turnContext (item : TurnContextItem)
  | eventMsg (event : EventMsg)
  deriving Repr

structure PreviousTurnSettings where
  model : Str
  realtimeActive : Option Bool
  deriving Repr

inductive TurnReferenceContextItem
  | neverSet
  | cleared
  | latest (item : TurnContextItem)
  deriving DecidableEq, Repr

structure ActiveReplaySegment where
  turnId : Option Str
  countsAsUserTurn : Bool
  previousTurnSettings : Option PreviousTurnSettings
  referenceContextItem : TurnReferenceContextItem
  baseReplacementHistory : Option (List ResponseItem)
  deriving Repr

def ActiveReplaySegment.default : ActiveReplaySegment := ⟨none, false, none, .neverSet, none⟩

structure Scan where
  baseReplacementHistory : Option (List ResponseItem)
  previousTurnSettings : Option PreviousTurnSettings
  referenceContextItem : TurnReferenceContextItem
  pendingRollbackTurns : ℕ
  rolloutSuffix : List RolloutItem
  activeSegment : Option ActiveReplaySegment
  deriving Repr

def turnIdsAreCompatible (activeTurnId itemTurnId : Option Str) : Bool :=
  activeTurnId.all fun turnId => itemTurnId.all fun itemTurnId => itemTurnId == turnId

def Scan.init (rolloutItems : List RolloutItem) : Scan :=
  ⟨none, none, .neverSet, 0, rolloutItems, none⟩

def Scan.segment (s : Scan) : ActiveReplaySegment := s.activeSegment.getD .default

def finalizeActiveSegment (segment : ActiveReplaySegment) (s : Scan) : Scan :=
  if 0 < s.pendingRollbackTurns then
    if segment.countsAsUserTurn then
      { s with pendingRollbackTurns := s.pendingRollbackTurns - 1 }
    else s
  else
    { s with
      baseReplacementHistory := s.baseReplacementHistory.or segment.baseReplacementHistory
      previousTurnSettings :=
        if s.previousTurnSettings.isNone && segment.countsAsUserTurn then
          segment.previousTurnSettings
        else s.previousTurnSettings
      referenceContextItem := if s.referenceContextItem = .neverSet ∧
            (segment.countsAsUserTurn = true ∨ segment.referenceContextItem = .cleared) then
          segment.referenceContextItem
        else s.referenceContextItem }

def compactedSegment (compacted : CompactedItem) (segment : ActiveReplaySegment) :
    ActiveReplaySegment :=
  { segment with
    referenceContextItem :=
      if segment.referenceContextItem = .neverSet then .cleared
      else segment.referenceContextItem
    baseReplacementHistory := segment.baseReplacementHistory.or compacted.replacementHistory }

def turnContextSegment (ctx : TurnContextItem) (segment : ActiveReplaySegment) :
    ActiveReplaySegment :=
  let turnId := segment.turnId.or ctx.turnId
  if turnIdsAreCompatible turnId ctx.turnId then
    { segment with
      turnId := turnId
      previousTurnSettings := some ⟨ctx.model, ctx.realtimeActive⟩
      referenceContextItem :=
        if segment.referenceContextItem = .neverSet then .latest ctx
        else segment.referenceContextItem }
  else { segment with turnId := turnId }

section Backwards

variable (parsers : TextParsers)

/-- One turn of the backward loop; `newer` are the items behind this one in the rollout. -/
def scanItem (newer : List RolloutItem) (item : RolloutItem) (s : Scan) : Scan :=
  match item with
  | .compacted compacted =>
    let segment := s.segment
    { s with
      activeSegment := some (compactedSegment compacted segment)
      -- set as soon as the checkpoint is seen, before it is known whether its turn survives
      rolloutSuffix :=
        if segment.baseReplacementHistory.isNone && compacted.replacementHistory.isSome then newer
        else s.rolloutSuffix }
  | .eventMsg (.threadRolledBack numTurns) =>
    { s with
      pendingRollbackTurns := saturatingAdd s.pendingRollbackTurns numTurns.toNat }
  | .eventMsg (.turnComplete turnId) =>
    { s with
      activeSegment := some { s.segment with turnId := s.segment.turnId.or (some turnId) } }
  | .eventMsg (.turnAborted turnId) =>
    match s.activeSegment, turnId with
    | some segment, turnId =>
      { s with activeSegment := some { segment with turnId := segment.turnId.or turnId } }
    | none, some turnId =>
      { s with activeSegment := some { ActiveReplaySegment.default with turnId := some turnId } }
    | none, none => s
  | .eventMsg .userMessage =>
    { s with activeSegment := some { s.segment with countsAsUserTurn := true } }
  | .turnContext ctx => { s with activeSegment := some (turnContextSegment ctx s.segment) }
  | .eventMsg (.turnStarted turnId) =>
    match s.activeSegment with
    | some segment =>
      if turnIdsAreCompatible segment.turnId (some turnId) then
        finalizeActiveSegment segment { s with activeSegment := none }
      else s
    | none => s
  | .responseItem responseItem =>
    { s with
      activeSegment := some { s.segment with
        countsAsUserTurn :=
          s.segment.countsAsUserTurn || isUserTurnBoundary parsers responseItem } }
  | .eventMsg .other | .sessionMeta => s

def Scan.complete (s : Scan) : Bool :=
  s.baseReplacementHistory.isSome && s.previousTurnSettings.isSome &&
    s.referenceContextItem ≠ .neverSet

def scanFrom : List RolloutItem → List RolloutItem → Scan → Scan
  | [], _, s => s
  | item :: older, newer, s =>
    let s' := scanItem parsers newer item s
    if s'.complete then s' else scanFrom older (item :: newer) s'

def Scan.finish (s : Scan) : Scan :=
  match s.activeSegment with
  | some segment => finalizeActiveSegment segment { s with activeSegment := none }
  | none => s

def scan (rolloutItems : List RolloutItem) : Scan :=
  (scanFrom parsers rolloutItems.reverse [] (.init rolloutItems)).finish

end Backwards

/-- System messages and what the model cannot be sent are not recorded. -/
def isApiMessage : ResponseItem → Bool
  | .message _ role _ _ => role ≠ "system"
  | .compactionTrigger | .other => false
  | _ => true

/-- The policy is the one of the turn with the budget for serialisation added. -/
def processItem (policyWithSerializationBudget : TruncationPolicy) : ResponseItem → ResponseItem
  | .functionCallOutput callId output =>
    .functionCallOutput callId (truncateFunctionOutputPayload output policyWithSerializationBudget)
  | .customToolCallOutput callId name output =>
    .customToolCallOutput callId name
      (truncateFunctionOutputPayload output policyWithSerializationBudget)
  | item => item

def recordItem (policy : TruncationPolicy) (items : List ResponseItem) (item : ResponseItem) :
    List ResponseItem :=
  if isApiMessage item then items ++ [processItem policy item] else items

variable (text : Str)

def isImageOpenTagText : Bool := text == "<image>"

def isImageCloseTagText : Bool := text == "</image>"

def isLocalImageOpenTagText : Bool :=
  (stripPrefix text "<image name=").any fun rest => endsWith rest ">"

def isInputImage : Option ContentItem → Bool
  | some (.inputImage _ _) => true
  | _ => false

def userInputText (previous : Option ContentItem) : List ContentItem → Str
  | [] => []
  | .inputText text :: rest =>
    let tag := (isLocalImageOpenTagText text || isImageOpenTagText text) &&
        isInputImage rest.head? || isImageCloseTagText text && isInputImage previous
    (if tag then [] else text) ++ userInputText (some (.inputText text)) rest
  | item :: rest => userInputText (some item) rest

def summaryPrefix : Str :=
  "Another ".toList ++ "language model started to solve this problem and ".toList ++
    "produced a summary of its thinking process. You also have access to the state of ".toList ++
    "the tools that were used by that language model. Use this to build on the work ".toList ++
    "that has already been done and avoid duplicating work. Here is the summary produced ".toList ++
    "by the other language model, use the information in this summary to assist with ".toList ++
    "your own analysis:".toList

def isSummaryMessage (message : Str) : Bool := startsWith message (summaryPrefix ++ ['\n'])

/-- The newest messages that fit, newest first; the first that does not is cut. -/
def selectMessages : List Str → ℕ → List Str
  | [], _ => []
  | message :: older, remaining =>
    if remaining = 0 then []
    else if approxTokenCount message ≤ remaining then
      message :: selectMessages older (remaining - approxTokenCount message)
    else [truncateText message (.tokens remaining)]

def userMessage : ResponseItem :=
  .message none "user" [.inputText text] none

def compactUserMessageMaxTokens : ℕ := 20000

def selectedMessages (userMessages : List Str) (maxTokens : ℕ) : List Str :=
  (selectMessages userMessages.reverse maxTokens).reverse

def buildCompactedHistoryWithLimit (history : List ResponseItem) (userMessages : List Str)
    (summaryText : Str) (maxTokens : ℕ) : List ResponseItem :=
  history ++ (selectedMessages userMessages maxTokens).map userMessage ++
    [userMessage (if summaryText = [] then "(no summary available)" else summaryText)]

def buildCompactedHistory (initialContext : List ResponseItem) (userMessages : List Str)
    (summaryText : Str) : List ResponseItem :=
  buildCompactedHistoryWithLimit initialContext userMessages summaryText compactUserMessageMaxTokens

section Forwards

variable (parsers : TextParsers)

/-- A message that shows a hook's prompt: hook fragments, and other context around them. -/
def isVisibleHookPromptMessage (content : List ContentItem) : Bool :=
  (content.all (isContextualUserFragment parsers)) && content.any fun
    | .inputText text => (parseHookPromptFragment parsers text).isSome
    | _ => false

def collectUserMessage : ResponseItem → Option Str
  | .message _ role content _ =>
    if role = "user" then
      if isVisibleHookPromptMessage parsers content then none
      else if isContextualUserMessageContent parsers content then none
      else
        let message := userInputText none content
        if isSummaryMessage message then none else some message
    else none
  | _ => none

variable (items : List ResponseItem)

def collectUserMessages : List Str :=
  items.filterMap (collectUserMessage parsers)

def userMessagePositions : List ℕ :=
  items.findIdxs (isUserTurnBoundary parsers)

def trimPreTurnContextUpdates (snapshot : List ResponseItem) (firstInstructionTurnIdx : ℕ) : ℕ → ℕ
  | 0 => 0
  | cutIdx + 1 =>
    if firstInstructionTurnIdx < cutIdx + 1 ∧
        (snapshot[cutIdx]?.any (isContextUpdate parsers)) = true then
      trimPreTurnContextUpdates snapshot firstInstructionTurnIdx cutIdx
    else cutIdx + 1

def dropLastNUserTurns (numTurns : ℕ) (items : List ResponseItem) : List ResponseItem :=
  if numTurns = 0 then items
  else
    match userMessagePositions parsers items with
    | [] => items
    | firstInstructionTurnIdx :: later =>
      let userPositions := firstInstructionTurnIdx :: later
      let cutIdx :=
        if userPositions.length ≤ numTurns then firstInstructionTurnIdx
        else userPositions.getD (userPositions.length - numTurns) 0
      items.take (trimPreTurnContextUpdates parsers items firstInstructionTurnIdx cutIdx)

structure Replay where
  items : List ResponseItem
  sawLegacyCompaction : Bool
  deriving Repr

variable (policy : TruncationPolicy)

def replayItem (r : Replay) : RolloutItem → Replay
  | .responseItem item => { r with items := recordItem policy r.items item }
  | .compacted compacted =>
    match compacted.replacementHistory with
    | some replacementHistory => { r with items := replacementHistory }
    | none =>
      ⟨buildCompactedHistory [] (collectUserMessages parsers r.items) compacted.message, true⟩
  | .eventMsg (.threadRolledBack numTurns) =>
    { r with items := dropLastNUserTurns parsers numTurns.toNat r.items }
  | .eventMsg _ | .turnContext _ | .sessionMeta => r

variable (rolloutItems : List RolloutItem)

def replay (r : Replay) : Replay :=
  rolloutItems.foldl (replayItem parsers policy) r

structure Reconstruction where
  history : List ResponseItem
  previousTurnSettings : Option PreviousTurnSettings
  referenceContextItem : Option TurnContextItem
  deriving Repr

def TurnReferenceContextItem.toOption : TurnReferenceContextItem → Option TurnContextItem
  | .neverSet | .cleared => none
  | .latest item => some item

def reconstructHistoryFromRollout : Reconstruction :=
  let s := scan parsers rolloutItems
  let r := replay parsers policy s.rolloutSuffix ⟨s.baseReplacementHistory.getD [], false⟩
  { history := r.items
    previousTurnSettings := s.previousTurnSettings
    referenceContextItem :=
      if r.sawLegacyCompaction then none else s.referenceContextItem.toOption }

end Forwards

end RolloutReconstruction
