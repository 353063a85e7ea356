import CodexTeams.ResponseItems

/-! Which messages of a history are context and which start a turn. Context is recognised by its
text. Reading XML and JSON is left to the libraries that do it. -/
namespace ContextualMessages

open RustStr ResponseItems

structure HookPromptXml where
  text : Str
  hookRunId : Str
  deriving Repr

/-- What the XML and JSON libraries make of a text. -/
structure TextParsers where
  hookPromptFromXml : Str → Option HookPromptXml
  isInterAgentCommunication : Str → Bool

/-- Libraries that take every text for plain. -/
def plainParsers : TextParsers := ⟨fun _ => none, fun _ => false⟩

def endsWith (s suf : Str) : Bool := suf.isSuffixOf s

/-- str::split_once for a pattern that is not empty. -/
def splitOnce (pat : Str) : Str → Option (Str × Str)
  | [] => none
  | c :: cs =>
    if startsWith (c :: cs) pat then some ([], (c :: cs).drop pat.length)
    else (splitOnce pat cs).map fun (before, after) => (c :: before, after)

def startsWithIgnoreAsciiCase (s pre : Str) : Bool :=
  (s.take pre.length).map Char.toLower == pre.map Char.toLower

def endsWithIgnoreAsciiCase (s suf : Str) : Bool :=
  (s.drop (s.length - suf.length)).map Char.toLower == suf.map Char.toLower

def matchesMarkedText (startMarker endMarker text : Str) : Bool :=
  let trimmed := trimStart text
  startMarker ≠ [] && endMarker ≠ [] && startsWithIgnoreAsciiCase trimmed startMarker &&
    endsWithIgnoreAsciiCase (trimEnd trimmed) endMarker

def userInstructionsMatchesText : Str → Bool :=
  matchesMarkedText "# AGENTS.md instructions for " "</INSTRUCTIONS>"

def environmentContextMatchesText : Str → Bool :=
  matchesMarkedText "<environment_context>" "</environment_context>"

def skillInstructionsMatchesText : Str → Bool :=
  matchesMarkedText "<skill>" "</skill>"

def userShellCommandMatchesText : Str → Bool :=
  matchesMarkedText "<user_shell_command>" "</user_shell_command>"

def turnAbortedMatchesText : Str → Bool :=
  matchesMarkedText "<turn_aborted>" "</turn_aborted>"

def subagentNotificationMatchesText : Str → Bool :=
  matchesMarkedText "<subagent_notification>" "</subagent_notification>"

variable (text : Str)

def additionalContextMatchesText : Bool :=
  match stripPrefix (trim text) "<external_" with
  | none => false
  | some rest =>
    match splitOnce ">" rest with
    | none => false
    | some (key, valueAndClose) =>
      endsWith valueAndClose ("</external_" ++ key ++ ">")

def matchesLegacyGoalContext : Bool :=
  startsWith text "<goal_context>" && endsWith text "</goal_context>"

def isValidSource : Str → Bool
  | [] => false
  | first :: chars =>
    first.isLower && chars.all fun ch => ch.isLower || ch.isDigit || ch == '_'

def internalModelContextMatchesText : Bool :=
  let trimmed := trim text
  if matchesLegacyGoalContext trimmed then true
  else
    match (stripPrefix trimmed "<codex_internal_context").bind fun rest =>
      (stripPrefix rest " source=\"").bind (splitOnce "\">") with
    | none => false
    | some (source, bodyAndClose) =>
      isValidSource source && endsWith bodyAndClose "</codex_internal_context>"

def legacyUnifiedExecProcessLimitWarningMatchesText : Bool :=
  startsWith (trim text)
    "Warning: The maximum number of unified exec processes you can keep open is"

def legacyApplyPatchExecCommandWarningMatchesText : Bool :=
  startsWith (trim text) "Warning: apply_patch was requested via " &&
    endsWith (trim text) "Use the apply_patch tool instead of exec_command."

def legacyModelMismatchWarningMatchesText : Bool :=
  startsWith (trim text)
    "Warning: Your account was flagged for potentially high-risk cyber activity"

def contextualUserFragments : List (Str → Bool) :=
  [userInstructionsMatchesText, environmentContextMatchesText, additionalContextMatchesText,
    skillInstructionsMatchesText, userShellCommandMatchesText, turnAbortedMatchesText,
    subagentNotificationMatchesText, internalModelContextMatchesText,
    legacyUnifiedExecProcessLimitWarningMatchesText,
    legacyApplyPatchExecCommandWarningMatchesText, legacyModelMismatchWarningMatchesText]

def isStandardContextualUserText : Bool :=
  contextualUserFragments.any fun matchesText => matchesText text

section Messages

variable (parsers : TextParsers)

def parseHookPromptFragment (text : Str) : Option HookPromptXml :=
  (parsers.hookPromptFromXml (trim text)).filter fun fragment => trim fragment.hookRunId ≠ []

def isContextualUserFragment : ContentItem → Bool
  | .inputText text =>
    (parseHookPromptFragment parsers text).isSome || isStandardContextualUserText text
  | _ => false

variable (message : List ContentItem)

def isContextualUserMessageContent : Bool :=
  message.any (isContextualUserFragment parsers)

def contextualDeveloperPrefixes : List Str :=
  ["<permissions instructions>", "<model_switch>", "<collaboration_mode>",
    "<realtime_conversation>", "<personality_spec>"]

def isContextualDevFragment : ContentItem → Bool
  | .inputText text =>
    contextualDeveloperPrefixes.any fun pre => startsWithIgnoreAsciiCase (trimStart text) pre
  | _ => false

def isContextualDevMessageContent : Bool :=
  message.any isContextualDevFragment

def isInterAgentInstructionContent : List ContentItem → Bool
  | [.inputText text] | [.outputText text] => parsers.isInterAgentCommunication text
  | _ => false

def isUserTurnBoundary : ResponseItem → Bool
  | .message _ role content _ =>
    (role == "user" && !isContextualUserMessageContent parsers content) ||
      (role == "assistant" && isInterAgentInstructionContent parsers content)
  | _ => false

/-- The messages that a rollback takes away above its cut. -/
def isContextUpdate : ResponseItem → Bool
  | .message _ role content _ =>
    (role == "developer" && isContextualDevMessageContent content) ||
      (role == "user" && isContextualUserMessageContent parsers content)
  | _ => false

theorem not_boundary_of_contextUpdate (h : isContextUpdate parsers i = true) :
    isUserTurnBoundary parsers i = false := by
  cases i with
  | message id r c p =>
    simp only [isContextUpdate, Bool.or_eq_true, Bool.and_eq_true, beq_iff_eq] at h
    rcases h with ⟨rfl, _⟩ | ⟨rfl, hc⟩
    · rfl
    · simp only [isUserTurnBoundary, hc]
      rfl
  | _ => cases h

end Messages

end ContextualMessages
