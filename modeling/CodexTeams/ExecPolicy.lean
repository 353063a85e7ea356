import CodexTeams.Paths
import Mathlib.Data.List.MinMax

/-! Prefix rules for commands, and their evaluation. When no rule of its first word matches, a
command given by its path is matched once more under its base name, unless the policy lists other
paths for that name. -/
namespace ExecPolicy

open RustStr Paths List

inductive Decision
  | allow
  | prompt
  | forbidden
  deriving DecidableEq, Repr

def Decision.severity : Decision → ℕ
  | .allow => 0
  | .prompt => 1
  | .forbidden => 2

theorem Decision.severity_injective : Function.Injective Decision.severity := by
  intro a b h
  cases a <;> cases b <;> first | rfl | cases h

instance Decision.linearOrder : LinearOrder Decision :=
  LinearOrder.lift' Decision.severity Decision.severity_injective

inductive PatternToken
  | single (expected : Str)
  | alts (alternatives : List Str)
  deriving Repr

def PatternToken.matches : PatternToken → Str → Bool
  | .single expected, token => expected == token
  | .alts alternatives, token => alternatives.any (· == token)

structure PrefixPattern where
  first : Str
  rest : List PatternToken
  deriving Repr

def PrefixPattern.matchesPrefix (pattern : PrefixPattern) (cmd : List Str) : Option (List Str) :=
  let patternLength := pattern.rest.length + 1
  if cmd.length < patternLength ∨ cmd.head? ≠ some pattern.first then none
  else if (pattern.rest.zip cmd.tail).all fun pair => pair.1.matches pair.2 then
    some (cmd.take patternLength)
  else none

inductive RuleMatch
  | prefixRuleMatch (matchedPrefix : List Str) (decision : Decision)
      (resolvedProgram : Option AbsolutePathBuf) (justification : Option Str)
  | heuristicsRuleMatch (command : List Str) (decision : Decision)
  deriving DecidableEq

def RuleMatch.decision : RuleMatch → Decision
  | .prefixRuleMatch _ decision _ _ | .heuristicsRuleMatch _ decision => decision

def RuleMatch.withResolvedProgram (program : AbsolutePathBuf) : RuleMatch → RuleMatch
  | .prefixRuleMatch matchedPrefix decision _ justification =>
    .prefixRuleMatch matchedPrefix decision (some program) justification
  | other => other

structure PrefixRule where
  pattern : PrefixPattern
  decision : Decision
  justification : Option Str
  deriving Repr

def PrefixRule.matches (rule : PrefixRule) (cmd : List Str) : Option RuleMatch :=
  (rule.pattern.matchesPrefix cmd).map fun matchedPrefix =>
    .prefixRuleMatch matchedPrefix rule.decision none rule.justification

/-- Rules in the order they were added, each with the program it is kept under, and the paths
an executable name may stand for. -/
structure Policy where
  rulesByProgram : List (Str × PrefixRule)
  hostExecutablesByName : List (Str × List AbsolutePathBuf)

namespace Policy

def empty : Policy := ⟨[], []⟩

variable (policy : Policy)

def getVec (program : Str) : List PrefixRule :=
  policy.rulesByProgram.filterMap fun entry => if entry.1 = program then some entry.2 else none

def hostExecutables (name : Str) : Option (List AbsolutePathBuf) :=
  policy.hostExecutablesByName.lookup name

def addPrefixRule (pre : List Str) (decision : Decision) : Option Policy :=
  match pre with
  | [] => none
  | first :: rest =>
    let rule := ⟨⟨first, rest.map .single⟩, decision, none⟩
    some { policy with rulesByProgram := policy.rulesByProgram ++ [(first, rule)] }

def mergeOverlay (policy overlay : Policy) : Policy where
  rulesByProgram := policy.rulesByProgram ++ overlay.rulesByProgram
  hostExecutablesByName := overlay.hostExecutablesByName ++ policy.hostExecutablesByName

def matchExactRules (cmd : List Str) : List RuleMatch :=
  match cmd with
  | [] => []
  | first :: _ => (policy.getVec first).filterMap fun rule => rule.matches cmd

variable (env : ProcessEnv)

def hostProgram (cmd : List Str) : Option (AbsolutePathBuf × Str) := do
  let first ← cmd.head?
  let program ← AbsolutePathBuf.fromAbsolutePath env (.ofStr first)
  let basename ← program.fileName
  some (program, basename)

def pathAllowed (program : AbsolutePathBuf) (basename : Str) : Bool :=
  match policy.hostExecutables basename with
  | none => true
  | some paths => paths.contains program

variable (policy : Policy)

def matchHostExecutableRules (cmd : List Str) : List RuleMatch :=
  match hostProgram env cmd with
  | none => []
  | some (program, basename) =>
    if policy.pathAllowed program basename then
      (policy.getVec basename).filterMap fun rule =>
        (rule.matches (basename :: cmd.tail)).map (RuleMatch.withResolvedProgram program)
    else []

def ruleMatches (resolveHostExecutables : Bool) (cmd : List Str) : List RuleMatch :=
  if policy.matchExactRules cmd ≠ [] then policy.matchExactRules cmd
  else if resolveHostExecutables then policy.matchHostExecutableRules env cmd
  else []

/-- With a fallback there is always a match: what the heuristics say stands in for rules. -/
def matchesForCommandWithOptions
    (heuristicsFallback : Option (List Str → Decision)) (resolveHostExecutables : Bool)
    (cmd : List Str) : List RuleMatch :=
  let matchedRules := policy.ruleMatches env resolveHostExecutables cmd
  match matchedRules, heuristicsFallback with
  | [], some fallback => [.heuristicsRuleMatch cmd (fallback cmd)]
  | _, _ => matchedRules

end Policy

structure Evaluation where
  decision : Decision
  matchedRules : List RuleMatch

/-- The code expects a match; without one it would panic. -/
def Evaluation.fromMatches (matchedRules : List RuleMatch) : Option Evaluation :=
  (matchedRules.map RuleMatch.decision).max?.map fun decision => ⟨decision, matchedRules⟩

namespace Policy

variable (env : ProcessEnv) (policy : Policy)

def checkWithOptions (cmd : List Str)
    (heuristicsFallback : List Str → Decision) (resolveHostExecutables : Bool) :
    Option Evaluation :=
  Evaluation.fromMatches
    (policy.matchesForCommandWithOptions env (some heuristicsFallback) resolveHostExecutables cmd)

def checkMultipleWithOptions (commands : List (List Str))
    (heuristicsFallback : List Str → Decision) (resolveHostExecutables : Bool) :
    Option Evaluation :=
  Evaluation.fromMatches <| commands.flatMap fun command =>
    policy.matchesForCommandWithOptions env (some heuristicsFallback) resolveHostExecutables
      command

end Policy

theorem Evaluation.fromMatches_inv (h : fromMatches mrs = some e) :
    e.matchedRules = mrs ∧ (∃ m ∈ mrs, m.decision = e.decision) ∧
      ∀ m ∈ mrs, m.decision ≤ e.decision := by
  obtain ⟨decision, hmx, rfl⟩ := Option.map_eq_some_iff.mp h
  obtain ⟨hmm, hle⟩ := List.max?_eq_some_iff.mp hmx
  refine ⟨rfl, mem_map.mp hmm, ?_⟩
  intro m hm
  exact hle m.decision (mem_map_of_mem hm)

/-- The strictest match decides: a decision is reached exactly when some match reaches it. -/
theorem Evaluation.le_decision_iff (h : fromMatches mrs = some e) (d : Decision) :
    d ≤ e.decision ↔ ∃ m ∈ mrs, d ≤ m.decision := by
  obtain ⟨_, ⟨m, hm, hdc⟩, hle⟩ := fromMatches_inv h
  constructor
  · intro hd
    exact ⟨m, hm, hdc ▸ hd⟩
  · rintro ⟨m', hm', hd⟩
    exact le_trans hd (hle m' hm')

theorem Evaluation.exists_of_ne_nil (h : mrs ≠ []) :
    ∃ evaluation, fromMatches mrs = some evaluation := by
  cases hm : (mrs.map RuleMatch.decision).max? with
  | none => exact absurd (map_eq_nil_iff.mp (List.max?_eq_none_iff.mp hm)) h
  | some decision =>
    refine ⟨⟨decision, mrs⟩, ?_⟩
    rw [fromMatches, hm]
    rfl

namespace Policy

variable {pl : Policy}

theorem ruleMatches_prefix (h : m ∈ pl.ruleMatches env rs cmd) :
    ∃ p d pr justification, m = .prefixRuleMatch p d pr justification := by
  have hr : ∀ {r : PrefixRule} {ws : List Str} {m : RuleMatch},
      r.matches ws = some m → ∃ p justification,
        m = .prefixRuleMatch p r.decision none justification := by
    intro r ws m hm
    obtain ⟨p, _, rfl⟩ := Option.map_eq_some_iff.mp hm
    exact ⟨p, r.justification, rfl⟩
  unfold ruleMatches at h
  split at h
  · unfold matchExactRules at h
    split at h
    · cases h
    · obtain ⟨r, _, hm⟩ := mem_filterMap.mp h
      obtain ⟨p, justification, rfl⟩ := hr hm
      exact ⟨_, _, _, _, rfl⟩
  · split at h
    · unfold matchHostExecutableRules at h
      split at h
      · cases h
      · split at h
        · obtain ⟨r, _, hm⟩ := mem_filterMap.mp h
          obtain ⟨f, hf, rfl⟩ := Option.map_eq_some_iff.mp hm
          obtain ⟨p, justification, rfl⟩ := hr hf
          exact ⟨_, _, _, _, rfl⟩
        · cases h
    · cases h

theorem matches_without_fallback (env : ProcessEnv) (pl : Policy) (rs : Bool)
    (cmd : List Str) : pl.matchesForCommandWithOptions env none rs cmd =
      pl.ruleMatches env rs cmd := by
  simp only [matchesForCommandWithOptions]
  cases pl.ruleMatches env rs cmd <;> rfl

theorem matches_of_rules (h : pl.ruleMatches env rs cmd ≠ []) (f : Option (List Str → Decision)) :
    pl.matchesForCommandWithOptions env f rs cmd = pl.ruleMatches env rs cmd := by
  simp only [matchesForCommandWithOptions]
  cases hr : pl.ruleMatches env rs cmd with
  | nil => exact absurd hr h
  | cons m r => rfl

theorem matches_of_no_rules (h : pl.ruleMatches env rs cmd = []) (f : List Str → Decision) :
    pl.matchesForCommandWithOptions env (some f) rs cmd = [.heuristicsRuleMatch cmd (f cmd)] := by
  simp [matchesForCommandWithOptions, h]

theorem matches_ne_nil (env : ProcessEnv) (pl : Policy) (rs : Bool) (cmd : List Str)
    (f : List Str → Decision) : pl.matchesForCommandWithOptions env (some f) rs cmd ≠ [] := by
  by_cases h : pl.ruleMatches env rs cmd = []
  · rw [matches_of_no_rules h]
    exact cons_ne_nil _ _
  · rwa [matches_of_rules h]

end Policy

end ExecPolicy
