import CodexTeams.ExecPolicy
import CodexTeams.SandboxPolicy

/-! Whether a command needs approval. A shell command is taken apart into the commands it runs;
rules decide for those they match and heuristics for the others, and the strictest decision counts.
Parsing, heuristics and quoting are parameters. This is the build for Unix. -/
namespace ExecApproval

open RustStr RustIter Paths ExecPolicy SandboxPolicy List

structure GranularApprovalConfig where
  sandboxApproval : Bool
  rules : Bool
  deriving DecidableEq, Repr

inductive AskForApproval
  | unlessTrusted
  | onFailure
  | onRequest
  | granular (config : GranularApprovalConfig)
  | never
  deriving DecidableEq, Repr

inductive SandboxPermissions
  | useDefault
  | requireEscalated
  | withAdditionalPermissions
  deriving Repr

def SandboxPermissions.requestsSandboxOverride : SandboxPermissions → Bool
  | .useDefault => false
  | _ => true

inductive PermissionProfile
  | managed
  | disabled
  | external
  deriving Repr

def promptConflictReason : Str :=
  "approval required by policy, but AskForApproval is set to Never"

def rejectSandboxApprovalReason : Str :=
  ("approval required by policy, but AskForApproval::Granular.sandbox_approval is " ++
    "false").toList

def rejectRulesApprovalReason : Str :=
  "approval required by policy rule, but AskForApproval::Granular.rules is false"

def bannedPrefixSuggestions : List (List Str) :=
  [["python3"], ["python3", "-"], ["python3", "-c"], ["python"], ["python", "-"],
   ["python", "-c"], ["py"], ["py", "-3"], ["pythonw"], ["pyw"], ["pypy"], ["pypy3"], ["git"],
   ["bash"], ["bash", "-lc"], ["sh"], ["sh", "-c"], ["sh", "-lc"], ["zsh"], ["zsh", "-lc"],
   ["/bin/zsh"], ["/bin/zsh", "-lc"], ["/bin/bash"], ["/bin/bash", "-lc"], ["pwsh"],
   ["pwsh", "-Command"], ["pwsh", "-c"], ["powershell"], ["powershell", "-Command"],
   ["powershell", "-c"], ["powershell.exe"], ["powershell.exe", "-Command"],
   ["powershell.exe", "-c"], ["env"], ["sudo"], ["node"], ["node", "-e"], ["perl"],
   ["perl", "-e"], ["ruby"], ["ruby", "-e"], ["php"], ["php", "-r"], ["lua"], ["lua", "-e"],
   ["osascript"]].map (List.map String.toList)

def isPolicyMatch : RuleMatch → Bool
  | .prefixRuleMatch _ _ _ _ => true
  | .heuristicsRuleMatch _ _ => false

/-- Why a prompt may not be shown; a prompt by a rule goes before one for the sandbox. -/
def promptIsRejectedByPolicy (approvalPolicy : AskForApproval) (promptIsRule : Bool) : Option Str :=
  match approvalPolicy with
  | .never => some promptConflictReason
  | .onFailure | .onRequest | .unlessTrusted => none
  | .granular config =>
    if promptIsRule then if !config.rules then some rejectRulesApprovalReason else none
    else if !config.sandboxApproval then some rejectSandboxApprovalReason
    else none

/-- What is known about shell scripts and commands outside of the policy. -/
structure ShellTools where
  parseShellLcPlainCommands : List Str → Option (List (List Str))
  parseShellLcSingleCommandPrefix : List Str → Option (List Str)
  isKnownSafeCommand : List Str → Bool
  commandMightBeDangerous : List Str → Bool
  shlexTryJoin : List Str → Option Str

structure ExecApprovalRequest where
  command : List Str
  approvalPolicy : AskForApproval
  permissionProfile : PermissionProfile
  fileSystemSandboxPolicy : FileSystemSandboxPolicy
  sandboxPermissions : SandboxPermissions
  prefixRule : Option (List Str)

structure ExecPolicyCommands where
  commands : List (List Str)
  usedComplexParsing : Bool
  deriving Repr

inductive ExecApprovalRequirement
  | skip (bypassSandbox : Bool) (proposedExecpolicyAmendment : Option (List Str))
  | needsApproval (reason : Option Str) (proposedExecpolicyAmendment : Option (List Str))
  | forbidden (reason : Str)
  deriving DecidableEq, Repr

section Approval

variable (tools : ShellTools) (env : ProcessEnv) (command : List Str)

def commandsForExecPolicy : ExecPolicyCommands :=
  match (tools.parseShellLcPlainCommands command).filter (· ≠ []) with
  | some commands => ⟨commands, false⟩
  | none =>
    match tools.parseShellLcSingleCommandPrefix command with
    | some singleCommand => ⟨[singleCommand], true⟩
    | none => ⟨[command], false⟩

def renderDecisionForUnmatchedCommand (req : ExecApprovalRequest) (usedComplexParsing : Bool)
    (command : List Str) : Decision :=
  if tools.isKnownSafeCommand command && !usedComplexParsing &&
      req.approvalPolicy == .unlessTrusted then .allow
  else if tools.commandMightBeDangerous command then
    match req.approvalPolicy with
    | .never =>
      match req.permissionProfile with
      | .disabled | .external => .allow
      | .managed => .forbidden
    | _ => .prompt
  else
    match req.approvalPolicy with
    | .never | .onFailure => .allow
    | .unlessTrusted => .prompt
    -- granular settings follow on-request here; what may be shown is decided later
    | .onRequest | .granular _ =>
      match req.fileSystemSandboxPolicy.kind with
      | .unrestricted | .externalSandbox => .allow
      | .restricted => if req.sandboxPermissions.requestsSandboxOverride then .prompt else .allow

variable (matchedRules : List RuleMatch)

def hasRulePrompt : Bool :=
  matchedRules.any fun m => isPolicyMatch m && m.decision == .prompt

variable (decision : Decision)

def heuristicsCommand : RuleMatch → Option (List Str)
  | .heuristicsRuleMatch command d => if d = decision then some command else none
  | .prefixRuleMatch _ _ _ _ => none

def tryDeriveExecpolicyAmendmentForPromptRules : Option (List Str) :=
  if hasRulePrompt matchedRules then none
  else matchedRules.findSome? (heuristicsCommand .prompt)

def tryDeriveExecpolicyAmendmentForAllowRules : Option (List Str) :=
  if matchedRules.any isPolicyMatch then none
  else matchedRules.findSome? (heuristicsCommand .allow)

variable (policy : Policy)

def prefixRuleWouldApproveAllCommands (prefixRule : List Str)
    (commands : List (List Str)) (fallback : List Str → Decision) : Bool :=
  match policy.addPrefixRule prefixRule .allow with
  | none => false
  | some extended => commands.all fun command =>
    (extended.checkWithOptions env command fallback true).map Evaluation.decision == some .allow

def deriveRequestedExecpolicyAmendmentFromPrefixRule (prefixRule : Option (List Str))
    (matchedRules : List RuleMatch) (policy : Policy) (commands : List (List Str))
    (fallback : List Str → Decision) : Option (List Str) :=
  match prefixRule with
  | none => none
  | some prefixRule =>
    if prefixRule = [] then none
    else if bannedPrefixSuggestions.contains prefixRule then none
    else if matchedRules.any isPolicyMatch then none
    else if prefixRuleWouldApproveAllCommands env policy prefixRule commands fallback then
      some prefixRule
    else none

def renderShlexCommand (args : List Str) : Str :=
  (tools.shlexTryJoin args).getD (List.intercalate " " args)

def prefixMatchOf : RuleMatch → Option (List Str × Option Str)
  | .prefixRuleMatch matchedPrefix d _ justification =>
    if d = decision then some (matchedPrefix, justification) else none
  | .heuristicsRuleMatch _ _ => none

def mostSpecific (matchedRules : List RuleMatch) : Option (List Str × Option Str) :=
  maxByKey (fun found => found.1.length) (matchedRules.filterMap (prefixMatchOf decision))

variable (evaluation : Evaluation)

def derivePromptReason : Option Str :=
  let quoted := "`" ++ renderShlexCommand tools command ++ "` requires approval"
  match mostSpecific .prompt evaluation.matchedRules with
  | some (_, some justification) => some (quoted ++ ": " ++ justification)
  | some (_, none) => some (quoted ++ " by policy")
  | none => none

def deriveForbiddenReason : Str :=
  let quoted := "`" ++ renderShlexCommand tools command ++ "` rejected: "
  match mostSpecific .forbidden evaluation.matchedRules with
  | some (_, some justification) => quoted ++ justification
  | some (matchedPrefix, none) =>
    quoted ++ "policy forbids commands starting with `" ++
      renderShlexCommand tools matchedPrefix ++ "`"
  | none => quoted ++ "blocked by policy"

def hasAllowRule (command : List Str) : Bool :=
  (policy.matchesForCommandWithOptions env none true command).any fun m =>
    isPolicyMatch m && m.decision == .allow

/-- No result only where the evaluation has no match to decide on and the code panics. -/
def createExecApprovalRequirementForCommand (req : ExecApprovalRequest) :
    Option ExecApprovalRequirement :=
  let parsed := commandsForExecPolicy tools req.command
  let fallback := renderDecisionForUnmatchedCommand tools req parsed.usedComplexParsing
  (policy.checkMultipleWithOptions env parsed.commands fallback true).map fun evaluation =>
    match evaluation.decision with
    | .forbidden => .forbidden (deriveForbiddenReason tools req.command evaluation)
    | .prompt =>
      match promptIsRejectedByPolicy req.approvalPolicy
          (hasRulePrompt evaluation.matchedRules) with
      | some reason => .forbidden reason
      | none =>
        let requested :=
          if parsed.usedComplexParsing then none
          else deriveRequestedExecpolicyAmendmentFromPrefixRule env req.prefixRule
            evaluation.matchedRules policy parsed.commands fallback
        .needsApproval (derivePromptReason tools req.command evaluation)
          (requested <|> if parsed.usedComplexParsing then none
            else tryDeriveExecpolicyAmendmentForPromptRules evaluation.matchedRules)
    | .allow =>
      .skip (parsed.commands.all (hasAllowRule env policy))
        (if parsed.usedComplexParsing then none
          else tryDeriveExecpolicyAmendmentForAllowRules evaluation.matchedRules)

end Approval

theorem commandsForExecPolicy_ne_nil (tools : ShellTools) (c : List Str) :
    (commandsForExecPolicy tools c).commands ≠ [] := by
  unfold commandsForExecPolicy
  split
  · rename_i commands hp
    exact of_decide_eq_true (Option.filter_eq_some_iff.mp hp).2
  · split
    · exact cons_ne_nil _ _
    · exact cons_ne_nil _ _

theorem policy_match_iff (env : ProcessEnv) (p : Policy) (f : List Str → Decision)
    (command : List Str) (m : RuleMatch) :
    m ∈ p.matchesForCommandWithOptions env (some f) true command ∧ isPolicyMatch m = true ↔
      m ∈ p.matchesForCommandWithOptions env none true command := by
  rw [Policy.matches_without_fallback]
  by_cases hr : p.ruleMatches env true command = []
  · rw [Policy.matches_of_no_rules hr, hr, mem_singleton]
    constructor
    · rintro ⟨rfl, hp⟩
      cases hp
    · intro hm
      cases hm
  · rw [Policy.matches_of_rules hr]
    refine ⟨And.left, fun hm => ⟨hm, ?_⟩⟩
    obtain ⟨_, _, _, _, rfl⟩ := Policy.ruleMatches_prefix hm
    rfl

theorem exists_checkMultiple (env : ProcessEnv) (p : Policy)
    (f : List Str → Decision) (h : cs ≠ []) :
    ∃ evaluation, p.checkMultipleWithOptions env cs f true = some evaluation := by
  obtain ⟨c, r, rfl⟩ := exists_cons_of_ne_nil h
  apply Evaluation.exists_of_ne_nil
  exact append_ne_nil_of_left_ne_nil (Policy.matches_ne_nil env p true c f) _

theorem hasRulePrompt_iff {p : Policy} (h : p.checkMultipleWithOptions env cs f true = some e) :
    hasRulePrompt e.matchedRules = true ↔ ∃ c ∈ cs,
        ∃ m ∈ p.matchesForCommandWithOptions env none true c, m.decision = .prompt := by
  obtain ⟨hr, _, _⟩ := Evaluation.fromMatches_inv h
  simp only [hasRulePrompt, hr, any_eq_true, mem_flatMap, Bool.and_eq_true,
    beq_iff_eq, ← policy_match_iff env p f]
  constructor
  · rintro ⟨m, ⟨c, hc, hm⟩, hp, hpr⟩
    exact ⟨c, hc, m, ⟨hm, hp⟩, hpr⟩
  · rintro ⟨c, hc, m, ⟨hm, hp⟩, hpr⟩
    exact ⟨m, ⟨c, hc, hm⟩, hp, hpr⟩

theorem rules_allow_of_allow {p : Policy} (h : p.checkMultipleWithOptions env cs f true = some e)
    (ha : e.decision = .allow) (hc : c ∈ cs)
    (hm : m ∈ p.matchesForCommandWithOptions env none true c) : m.decision = .allow := by
  obtain ⟨_, _, hle⟩ := Evaluation.fromMatches_inv h
  have hmm := ((policy_match_iff env p f c m).mpr hm).1
  have hd := hle m (mem_flatMap.mpr ⟨c, hc, hmm⟩)
  rw [ha] at hd
  cases hm' : m.decision with
  | allow => rfl
  | _ => rw [hm'] at hd; exact absurd hd (by decide)

theorem not_rejected (h : promptIsRejectedByPolicy ap pir = none) :
    ap ≠ .never ∧ ∀ c, ap = .granular c →
        if pir then c.rules = true else c.sandboxApproval = true := by
  constructor
  · rintro rfl
    cases h
  · rintro c rfl
    unfold promptIsRejectedByPolicy at h
    cases pir with
    | true => cases hr : c.rules <;> simp [hr] at h ⊢
    | false => cases hs : c.sandboxApproval <;> simp [hs] at h ⊢

/-- There is always an answer. It bypasses the sandbox only when each command of the script has
a rule that allows it and none that prompts or forbids, and it asks for approval only when
the settings let the prompt concerned be shown. -/
theorem approval_sound (tools : ShellTools) (env : ProcessEnv) (policy : Policy)
    (req : ExecApprovalRequest) :
    let commands := (commandsForExecPolicy tools req.command).commands
    let rf := policy.matchesForCommandWithOptions env none true
    ∃ requirement, createExecApprovalRequirementForCommand tools env policy req = some requirement ∧
      (∀ a, requirement = .skip true a → ∀ c ∈ commands, (∃ m ∈ rf c, m.decision = .allow) ∧
          ∀ m ∈ rf c, m.decision ≠ .prompt ∧ m.decision ≠ .forbidden) ∧
      (∀ r a, requirement = .needsApproval r a → req.approvalPolicy ≠ .never ∧
          ∀ cn, req.approvalPolicy = .granular cn →
            ((∃ c ∈ commands, ∃ m ∈ rf c, m.decision = .prompt) → cn.rules = true) ∧
            ((¬∃ c ∈ commands, ∃ m ∈ rf c, m.decision = .prompt) → cn.sandboxApproval = true)) := by
  intro commands rf
  obtain ⟨e, he⟩ := exists_checkMultiple env policy (renderDecisionForUnmatchedCommand tools req
      (commandsForExecPolicy tools req.command).usedComplexParsing)
    (commandsForExecPolicy_ne_nil tools req.command)
  have hp := hasRulePrompt_iff he
  unfold createExecApprovalRequirementForCommand
  simp only [he, Option.map_some]
  refine ⟨_, rfl, ?_, ?_⟩
  · intro a hs c hc
    cases hd : e.decision with
    | forbidden => rw [hd] at hs; cases hs
    | prompt =>
      simp only [hd] at hs
      split at hs <;> cases hs
    | allow =>
      simp only [hd, ExecApprovalRequirement.skip.injEq, all_eq_true] at hs
      have hrl : ∀ m ∈ rf c, m.decision = .allow := fun m hm =>
        rules_allow_of_allow he hd hc hm
      obtain ⟨m, hm, hpl⟩ := any_eq_true.mp (hs.1 c hc)
      refine ⟨⟨m, hm, hrl m hm⟩, fun m' hm' => ?_⟩
      rw [hrl m' hm']
      exact ⟨by decide, by decide⟩
  · intro r a hn
    cases hd : e.decision with
    | prompt =>
      simp only [hd] at hn
      split at hn
      · cases hn
      · rename_i hsh
        obtain ⟨hnv, hg⟩ := not_rejected hsh
        refine ⟨hnv, fun cn hcn => ⟨fun hr => ?_, fun hr => ?_⟩⟩
        · have hk := hg cn hcn
          rwa [if_pos (hp.mpr hr)] at hk
        · have hk := hg cn hcn
          rwa [if_neg (fun h => hr (hp.mp h))] at hk
    | _ => rw [hd] at hn; cases hn

-- One of the two commands of the script has no rule: it may run, but in the sandbox.
example : createExecApprovalRequirementForCommand
      ⟨fun _ => some [["ls"], ["make"]], fun _ => none, fun _ => false,
        fun _ => false, fun _ => none⟩ ⟨none, none⟩
      ⟨[("ls", ⟨⟨"ls", []⟩, .allow, none⟩)], []⟩
      ⟨["bash"], .onRequest, .managed, ⟨.restricted, []⟩, .useDefault, none⟩ =
        some (.skip false none) := by
  decide

end ExecApproval
