import CodexTeams.ExecApproval
import CodexTeams.RulesFile

/-! Amendments of the policy. An accepted prefix goes to the file of rules and, unless the policy
allows it already, to the policy in memory. -/
namespace PolicyAmendment

open RustStr Paths ExecPolicy ExecApproval RulesFile List Policy PrefixPattern Evaluation

structure ExecPolicyManager where
  policy : Policy
  rulesFile : Str

inductive ExecPolicyUpdateError
  | appendRule (source : AmendError)
  | addRule (message : Str)
  deriving DecidableEq, Repr

def isAllowMatch (m : RuleMatch) : Bool := isPolicyMatch m && m.decision == .allow

section

variable (env : ProcessEnv) (policy : Policy) (amendment : List Str)

def alreadyAllowed : Bool :=
  match policy.checkMultipleWithOptions env [amendment] (fun _ => .forbidden) true with
  | none => false
  | some evaluation =>
    evaluation.decision == .allow && evaluation.matchedRules.any isAllowMatch

def updatePolicy : Except ExecPolicyUpdateError Policy :=
  if alreadyAllowed env policy amendment then .ok policy
  else match policy.addPrefixRule amendment .allow with
    | none => .error (.addRule "invalid pattern element: prefix cannot be empty")
    | some updated => .ok updated

def appendAmendmentAndUpdate (faults : Faults)
    (manager : ExecPolicyManager) (amendment : List Str) :
    ExecPolicyManager × Except ExecPolicyUpdateError Unit :=
  match blockingAppendAllowPrefixRule faults manager.rulesFile amendment with
  | (contents, .error source) => (⟨manager.policy, contents⟩, .error (.appendRule source))
  | (contents, .ok ()) =>
    match updatePolicy env manager.policy amendment with
    | .error error => (⟨manager.policy, contents⟩, .error error)
    | .ok updated => (⟨updated, contents⟩, .ok ())

end

theorem zip_append_of_le (as : List α) (bs cs : List β) (h : as.length ≤ bs.length) :
    as.zip (bs ++ cs) = as.zip bs := by
  induction as generalizing bs with
  | nil => rfl
  | cons a as ih =>
    cases bs with
    | nil => exact absurd h (Nat.not_succ_le_zero _)
    | cons b bs => exact congrArg ((a, b) :: ·) (ih bs (Nat.le_of_succ_le_succ h))

theorem matchesPrefix_append {p : PrefixPattern} (h : p.matchesPrefix ws = some matched)
    (m : List Str) : p.matchesPrefix (ws ++ m) = some matched := by
  cases ws with
  | nil => simp [matchesPrefix] at h
  | cons w ws =>
    simp only [matchesPrefix] at h
    split at h
    · cases h
    · rename_i hs
      split at h
      · rename_i hr
        rw [not_or, Nat.not_lt] at hs
        obtain ⟨hl, hf⟩ := hs
        have hle := Nat.le_of_succ_le_succ hl
        have hln : ¬((w :: ws ++ m).length < p.rest.length + 1 ∨
            (w :: ws ++ m).head? ≠ some p.first) := by
          rw [not_or, Nat.not_lt, length_append]
          exact ⟨le_trans hl (Nat.le_add_right _ _), hf⟩
        simp only [matchesPrefix]
        rw [if_neg hln, cons_append, tail_cons, zip_append_of_le _ _ _ hle]
        rw [tail_cons] at hr
        rw [if_pos hr, ← h, ← cons_append, take_append_of_le_length hl]
      · cases h

theorem all_singles_iff (r words : List Str) : r.length ≤ words.length ∧
        (((r.map PatternToken.single).zip words).all fun p => p.1.matches p.2) ↔ r <+: words := by
  induction r generalizing words with
  | nil => simp
  | cons w r ih =>
    cases words with
    | nil => simp
    | cons o words =>
      rw [cons_prefix_cons, ← ih]
      simp only [length_cons, Nat.add_le_add_iff_right, map_cons, zip_cons_cons,
        all_cons, Bool.and_eq_true, PatternToken.matches, beq_iff_eq]
      constructor
      · rintro ⟨hle, hw, ha⟩
        exact ⟨hw, hle, ha⟩
      · rintro ⟨hw, hle, ha⟩
        exact ⟨hle, hw, ha⟩

theorem matchesPrefix_singles (first : Str) (r ws : List Str) :
    (⟨first, r.map .single⟩ : PrefixPattern).matchesPrefix ws =
      if first :: r <+: ws then some (first :: r) else none := by
  cases ws with
  | nil => simp [matchesPrefix]
  | cons w ws =>
    simp only [matchesPrefix, length_map, tail_cons, cons_prefix_cons, ← all_singles_iff]
    by_cases hw : w = first
    · subst hw
      by_cases hl : ws.length < r.length
      · simp [Nat.not_le.mpr hl]
      · rw [if_neg (by simpa using hl)]
        rw [Nat.not_lt] at hl
        by_cases ha : ((r.map PatternToken.single).zip ws).all fun p => p.1.matches p.2
        · have hs := (all_singles_iff r ws).mp ⟨hl, ha⟩
          obtain ⟨m, rfl⟩ := hs
          rw [if_pos ha, if_pos ⟨rfl, hl, ha⟩]
          simp
        · rw [if_neg ha, if_neg (fun h => ha h.2.2)]
    · rw [if_pos (.inr (by simpa using hw)), if_neg (fun h => hw h.1.symm)]

section Rules

variable {pl : Policy}

theorem getVec_addPrefixRule {first : Str} (h : pl.addPrefixRule (first :: r) d = some u)
    (p : Str) :
    u.getVec p = pl.getVec p ++ if first = p then [⟨⟨first, r.map .single⟩, d, none⟩] else [] := by
  cases h
  rw [getVec, getVec]
  by_cases hp : first = p <;> simp [hp]

theorem pathAllowed_addPrefixRule (h : pl.addPrefixRule ad d = some u) (p : AbsolutePathBuf)
    (basename : Str) : u.pathAllowed p basename = pl.pathAllowed p basename := by
  cases ad with cases h
  | cons first r => rfl

theorem matchExactRules_addPrefixRule (h : pl.addPrefixRule ad d = some u) (words : List Str) :
    u.matchExactRules words = pl.matchExactRules words ++
      if ad <+: words then [.prefixRuleMatch ad d none none] else [] := by
  cases ad with
  | nil => cases h
  | cons first r =>
    cases words with
    | nil => simp [matchExactRules]
    | cons w words =>
      simp only [matchExactRules, getVec_addPrefixRule h, filterMap_append]
      by_cases hw : first = w
      · rw [if_pos hw, filterMap_cons, PrefixRule.matches, matchesPrefix_singles]
        by_cases hs : first :: r <+: w :: words
        · rw [if_pos hs, if_pos hs]
          rfl
        · rw [if_neg hs, if_neg hs]
          rfl
      · have hs : ¬ first :: r <+: w :: words := by
          rw [cons_prefix_cons]
          exact fun hs => hw hs.1
        rw [if_neg hw, if_neg hs, filterMap_nil]

theorem matchExactRules_ne_nil_of_start (hs : ad <+: ws) (h : pl.matchExactRules ad ≠ []) :
    pl.matchExactRules ws ≠ [] := by
  obtain ⟨mr, rfl⟩ := hs
  cases ad with
  | nil => exact absurd rfl h
  | cons first rs =>
    obtain ⟨m, hm⟩ := exists_mem_of_ne_nil _ h
    obtain ⟨r, hr, hmc⟩ := mem_filterMap.mp hm
    obtain ⟨mt, hmt, -⟩ := Option.map_eq_some_iff.mp hmc
    apply ne_nil_of_mem
    apply mem_filterMap.mpr
    refine ⟨r, hr, ?_⟩
    rw [PrefixRule.matches, matchesPrefix_append hmt mr]
    rfl

theorem matchHostExecutableRules_eq (h : Policy.hostProgram env cmd = some (p, b)) (pl : Policy) :
    pl.matchHostExecutableRules env cmd = if pl.pathAllowed p b then
        (pl.matchExactRules (b :: cmd.tail)).map (RuleMatch.withResolvedProgram p) else [] := by
  rw [matchHostExecutableRules, h]
  simp [matchExactRules, map_filterMap]

theorem ruleMatches_eq_nil_iff : pl.ruleMatches env true cmd = [] ↔
      pl.matchExactRules cmd = [] ∧ pl.matchHostExecutableRules env cmd = [] := by
  rw [ruleMatches]
  by_cases he : pl.matchExactRules cmd = [] <;> simp [he]

/-- The amendment is about the command: as it is written, or under its base name. -/
def Covers (env : ProcessEnv) (policy : Policy) (amendment cmd : List Str) : Prop :=
  amendment <+: cmd ∨ ∃ program basename, Policy.hostProgram env cmd = some (program, basename) ∧
      policy.pathAllowed program basename = true ∧ amendment <+: basename :: cmd.tail

theorem ruleMatches_of_not_covers (h : pl.addPrefixRule ad .allow = some u)
    (hc : ¬ Covers env pl ad cmd) : u.ruleMatches env true cmd = pl.ruleMatches env true cmd := by
  have he : u.matchExactRules cmd = pl.matchExactRules cmd := by
    rw [matchExactRules_addPrefixRule h, if_neg (fun hs => hc (.inl hs)), append_nil]
  have hh : u.matchHostExecutableRules env cmd = pl.matchHostExecutableRules env cmd := by
    cases hp : hostProgram env cmd with
    | none => rw [matchHostExecutableRules, matchHostExecutableRules, hp]
    | some f =>
      obtain ⟨p, b⟩ := f
      rw [matchHostExecutableRules_eq hp, matchHostExecutableRules_eq hp,
        pathAllowed_addPrefixRule h]
      by_cases ha : pl.pathAllowed p b = true
      · have hn : ¬ ad <+: b :: cmd.tail := fun hs =>
          hc (.inr ⟨p, b, hp, ha, hs⟩)
        rw [if_pos ha, if_pos ha, matchExactRules_addPrefixRule h, if_neg hn, append_nil]
      · rw [if_neg ha, if_neg ha]
  rw [ruleMatches, ruleMatches, he, hh]

theorem ruleMatches_ne_nil_of_covers (hc : Covers env pl ad cmd)
    (h : pl.matchExactRules ad ≠ []) : pl.ruleMatches env true cmd ≠ [] := by
  rw [ne_eq, ruleMatches_eq_nil_iff, not_and_or]
  rcases hc with hs | ⟨p, b, hp, ha, hs⟩
  · exact .inl (matchExactRules_ne_nil_of_start hs h)
  · right
    rw [matchHostExecutableRules_eq hp, if_pos ha, map_eq_nil_iff]
    exact matchExactRules_ne_nil_of_start hs h

end Rules

section Allowing

variable {pl u : Policy} {ad : List Str}

/-- Everything that matches the command allows it. -/
def Allows (env : ProcessEnv) (policy : Policy) (fallback : List Str → Decision)
    (cmd : List Str) : Prop :=
  ∀ m ∈ policy.matchesForCommandWithOptions env (some fallback) true cmd, m.decision = .allow

theorem le_allow {d : Decision} (h : d ≤ .allow) : d = .allow := by
  cases d with
  | allow => rfl
  | _ => exact absurd h (by decide)

theorem check_allow_iff :
    (pl.checkWithOptions env cmd fb true).map Evaluation.decision = some .allow ↔
      Allows env pl fb cmd := by
  obtain ⟨e, he⟩ := exists_of_ne_nil (matches_ne_nil env pl true cmd fb)
  obtain ⟨-, ⟨m, hm, hd⟩, hle⟩ := fromMatches_inv he
  rw [checkWithOptions, he, Option.map_some, Option.some_inj]
  constructor
  · intro hal o ho
    apply le_allow
    rw [← hal]
    exact hle o ho
  · intro ha
    rw [← hd]
    exact ha m hm

theorem allows_of_rules (hne : pl.ruleMatches env true cmd ≠ [])
    (h : ∀ m ∈ pl.ruleMatches env true cmd, m.decision = .allow) : Allows env pl fb cmd := by
  intro m hm
  rw [matches_of_rules hne] at hm
  exact h m hm

theorem matchExactRules_addAllow (h : pl.addPrefixRule ad .allow = some u)
    (ha : ∀ m ∈ pl.matchExactRules ws, m.decision = .allow) :
    ∀ m ∈ u.matchExactRules ws, m.decision = .allow := by
  intro m hm
  rw [matchExactRules_addPrefixRule h, mem_append] at hm
  rcases hm with hm | hm
  · exact ha m hm
  · split at hm
    · rw [mem_singleton.mp hm]
      rfl
    · cases hm

theorem decision_withResolvedProgram (p : AbsolutePathBuf) (m : RuleMatch) :
    (m.withResolvedProgram p).decision = m.decision := by
  cases m <;> rfl

variable (h : pl.addPrefixRule ad .allow = some u)

include h

theorem matchHostExecutableRules_addAllow
    (hal : ∀ m ∈ pl.matchHostExecutableRules env cmd, m.decision = .allow) :
    ∀ m ∈ u.matchHostExecutableRules env cmd, m.decision = .allow := by
  intro m hm
  cases hp : hostProgram env cmd with
  | none =>
    rw [matchHostExecutableRules, hp] at hm
    cases hm
  | some f =>
    obtain ⟨p, b⟩ := f
    rw [matchHostExecutableRules_eq hp, pathAllowed_addPrefixRule h] at hm
    rw [matchHostExecutableRules_eq hp] at hal
    by_cases ha : pl.pathAllowed p b = true
    · rw [if_pos ha] at hm hal
      obtain ⟨f, hf, rfl⟩ := mem_map.mp hm
      rw [decision_withResolvedProgram]
      apply matchExactRules_addAllow h _ f hf
      intro o ho
      rw [← decision_withResolvedProgram]
      exact hal _ (mem_map_of_mem ho)
    · rw [if_neg ha] at hm
      cases hm

theorem ruleMatches_addAllow (ha : ∀ m ∈ pl.ruleMatches env true cmd, m.decision = .allow) :
    ∀ m ∈ u.ruleMatches env true cmd, m.decision = .allow := by
  have he : ∀ m ∈ pl.matchExactRules cmd, m.decision = .allow := by
    intro m hm
    apply ha m
    rw [ruleMatches, if_pos (ne_nil_of_mem hm)]
    exact hm
  intro m hm
  rw [ruleMatches] at hm
  by_cases hn : u.matchExactRules cmd = []
  · have hol : pl.matchExactRules cmd = [] := by
      rw [matchExactRules_addPrefixRule h] at hn
      exact (append_eq_nil_iff.mp hn).1
    rw [if_neg (not_not.mpr hn)] at hm
    apply matchHostExecutableRules_addAllow h _ m hm
    intro o ho
    apply ha o
    rw [ruleMatches, if_neg (not_not.mpr hol)]
    exact ho
  · rw [if_pos hn] at hm
    exact matchExactRules_addAllow h he m hm

omit h

theorem allows_amendment (h : pl.addPrefixRule ad .allow = some u)
    (hn : pl.ruleMatches env true ad = []) : Allows env u fb ad := by
  have he : u.matchExactRules ad ≠ [] := by
    rw [matchExactRules_addPrefixRule h, if_pos prefix_rfl]
    exact append_ne_nil_of_right_ne_nil _ (cons_ne_nil _ _)
  apply allows_of_rules
  · rw [ne_eq, ruleMatches_eq_nil_iff]
    exact fun hnl => he hnl.1
  · apply ruleMatches_addAllow h
    rw [hn]
    intro m hm
    cases hm

theorem alreadyAllowed_iff : alreadyAllowed env pl ad = true ↔ pl.ruleMatches env true ad ≠ [] ∧
        ∀ m ∈ pl.ruleMatches env true ad, m.decision = .allow := by
  obtain ⟨e, he⟩ := exists_checkMultiple env pl (fun _ => Decision.forbidden) (cons_ne_nil ad [])
  obtain ⟨hmt, ⟨m, hm, hd⟩, hle⟩ := fromMatches_inv he
  rw [flatMap_singleton] at hmt hm hle
  rw [alreadyAllowed, he]
  simp only [Bool.and_eq_true, beq_iff_eq, any_eq_true, hmt, isAllowMatch]
  constructor
  · rintro ⟨ha, f, hf, hp, -⟩
    have hr := (policy_match_iff env pl _ ad f).mp ⟨hf, hp⟩
    rw [matches_without_fallback] at hr
    have hne := ne_nil_of_mem hr
    refine ⟨hne, ?_⟩
    intro o ho
    apply le_allow
    rw [← ha]
    apply hle
    rw [matches_of_rules hne]
    exact ho
  · rintro ⟨hne, hal⟩
    rw [matches_of_rules hne] at hm ⊢
    have ha := hal m hm
    obtain ⟨_, _, _, _, rfl⟩ := ruleMatches_prefix hm
    exact ⟨hd.symm.trans ha, _, hm, rfl, ha⟩

end Allowing

section Proposals

variable (tools : ShellTools)

def fallbackFor (req : ExecApprovalRequest) : List Str → Decision :=
  renderDecisionForUnmatchedCommand tools req
    (commandsForExecPolicy tools req.command).usedComplexParsing

section

variable (env : ProcessEnv) (policy : Policy) (req : ExecApprovalRequest)

def requestedAmendment : Option (List Str) :=
  let parsed := commandsForExecPolicy tools req.command
  match policy.checkMultipleWithOptions env parsed.commands (fallbackFor tools req) true with
  | none => none
  | some evaluation =>
    if parsed.usedComplexParsing then none
    else deriveRequestedExecpolicyAmendmentFromPrefixRule env req.prefixRule
      evaluation.matchedRules policy parsed.commands (fallbackFor tools req)

/-- The commands of the request that an amendment is proposed for: all of them if it is the prefix
that the request asks for, otherwise the one that it is. -/
def AmendmentSubject (amendment command : List Str) : Prop :=
  command ∈ (commandsForExecPolicy tools req.command).commands ∧
    (requestedAmendment tools env policy req = some amendment ∨ command = amendment)

/-- The request is put to the user, and the command has a match that prompts. -/
def PromptedFor (command : List Str) : Prop :=
  (∃ reason proposed, createExecApprovalRequirementForCommand tools env policy req =
      some (.needsApproval reason proposed)) ∧
    ∃ m ∈ policy.matchesForCommandWithOptions env (some (fallbackFor tools req)) true command,
      m.decision = .prompt

/-- Under the updated policy the commands that the amendment was proposed for are allowed, and the
request is not put to the user for any of them. -/
def TakesEffect (policy updated : Policy)
    (req : ExecApprovalRequest) (amendment : List Str) : Prop :=
  ∀ command, AmendmentSubject tools env policy req amendment command →
    (updated.checkWithOptions env command (fallbackFor tools req) true).map Evaluation.decision =
        some .allow ∧
      ¬ PromptedFor tools env updated req command

/-- Rules allow the amendment when its first word is taken for a path, as that of a command is. -/
def AllowedByPath (amendment : List Str) : Prop :=
  policy.matchHostExecutableRules env amendment ≠ [] ∧
    ∀ m ∈ policy.matchHostExecutableRules env amendment, m.decision = .allow

end

variable {pl updated : Policy} {amendment : List Str}

/-- No rule is for any command, and the prefix would have all of them allowed. -/
structure Requested (env : ProcessEnv) (policy : Policy) (commands : List (List Str))
    (fallback : List Str → Decision) (amendment : List Str) : Prop where
  unmatched : ∀ command ∈ commands, policy.ruleMatches env true command = []
  approves : ∃ updated, policy.addPrefixRule amendment .allow = some updated ∧
    ∀ command ∈ commands, Allows env updated fallback command

theorem requested_of_derive (hev : pl.checkMultipleWithOptions env cs fl true = some e)
    (h : deriveRequestedExecpolicyAmendmentFromPrefixRule env pr e.matchedRules pl cs fl =
      some ad) : Requested env pl cs fl ad := by
  obtain ⟨hmt, -, -⟩ := fromMatches_inv hev
  cases pr with
  | none => cases h
  | some ws =>
    simp only [deriveRequestedExecpolicyAmendmentFromPrefixRule] at h
    split at h
    · cases h
    split at h
    · cases h
    split at h
    · cases h
    rename_i hp
    split at h
    · rename_i ha
      cases h
      constructor
      · intro c hc
        by_contra hne
        obtain ⟨m, hm⟩ := exists_mem_of_ne_nil _ hne
        apply hp
        rw [hmt, any_eq_true]
        rw [← matches_without_fallback, ← policy_match_iff] at hm
        exact ⟨m, mem_flatMap.mpr ⟨c, hc, hm.1⟩, hm.2⟩
      · simp only [prefixRuleWouldApproveAllCommands] at ha
        split at ha
        · cases ha
        · rename_i extended he
          refine ⟨extended, he, ?_⟩
          intro c hc
          apply check_allow_iff.mp
          exact beq_iff_eq.mp (all_eq_true.mp ha c hc)
    · cases h

theorem unmatched_of_heuristics
    (h : .heuristicsRuleMatch dc d ∈ pl.matchesForCommandWithOptions env (some fl) true command) :
    pl.ruleMatches env true command = [] ∧ dc = command ∧ d = fl command := by
  by_cases hn : pl.ruleMatches env true command = []
  · rw [matches_of_no_rules hn, mem_singleton] at h
    cases h
    exact ⟨hn, rfl, rfl⟩
  · rw [matches_of_rules hn] at h
    obtain ⟨_, _, _, _, heq⟩ := ruleMatches_prefix h
    cases heq

theorem unmatched_of_promptRules (he : pl.checkMultipleWithOptions env cs fl true = some e)
    (h : tryDeriveExecpolicyAmendmentForPromptRules e.matchedRules = some ad) :
    ad ∈ cs ∧ pl.ruleMatches env true ad = [] := by
  obtain ⟨hmt, -, -⟩ := fromMatches_inv he
  rw [tryDeriveExecpolicyAmendmentForPromptRules] at h
  split at h
  · cases h
  · obtain ⟨m, hm, hf⟩ := exists_of_findSome?_eq_some h
    rw [hmt] at hm
    obtain ⟨c, hc, hm⟩ := mem_flatMap.mp hm
    cases m with
    | prefixRuleMatch => cases hf
    | heuristicsRuleMatch dc decision =>
      rw [heuristicsCommand] at hf
      split at hf
      · cases hf
        obtain ⟨hn, rfl, -⟩ := unmatched_of_heuristics hm
        exact ⟨hc, hn⟩
      · cases hf

/-- What an approval says of the evaluation, and where the amendment it proposes is from. -/
structure Proposed (tools : ShellTools) (env : ProcessEnv) (policy : Policy)
    (req : ExecApprovalRequest) (proposed : Option (List Str)) : Prop where
  prompts : ∃ command ∈ (commandsForExecPolicy tools req.command).commands,
    ∃ m ∈ policy.matchesForCommandWithOptions env (some (fallbackFor tools req)) true command,
      m.decision = .prompt
  source : ∀ amendment, proposed = some amendment →
    (requestedAmendment tools env policy req = some amendment ∧
        Requested env policy (commandsForExecPolicy tools req.command).commands
          (fallbackFor tools req) amendment) ∨
      (requestedAmendment tools env policy req = none ∧
        amendment ∈ (commandsForExecPolicy tools req.command).commands ∧
        policy.ruleMatches env true amendment = [])

theorem proposed_of_needsApproval
    (h : createExecApprovalRequirementForCommand ts env pl req = some (.needsApproval r proposed)) :
    Proposed ts env pl req proposed := by
  obtain ⟨e, he⟩ := exists_checkMultiple env pl (fallbackFor ts req)
    (commandsForExecPolicy_ne_nil ts req.command)
  have hr : requestedAmendment ts env pl req =
      if (commandsForExecPolicy ts req.command).usedComplexParsing then none
      else deriveRequestedExecpolicyAmendmentFromPrefixRule env req.prefixRule
        e.matchedRules pl (commandsForExecPolicy ts req.command).commands
        (fallbackFor ts req) := by
    simp [requestedAmendment, he]
  obtain ⟨-, ⟨m, hm, hd⟩, -⟩ := fromMatches_inv he
  obtain ⟨c, hcm, hm⟩ := mem_flatMap.mp hm
  have hcr := he
  unfold fallbackFor at hcr
  simp only [createExecApprovalRequirementForCommand, hcr, Option.map_some] at h
  cases hp : e.decision with
  | prompt =>
    simp only [hp] at h
    split at h
    · cases h
    · cases h
      refine ⟨⟨c, hcm, m, hm, hd.trans hp⟩, ?_⟩
      intro ad ha
      by_cases hc : (commandsForExecPolicy ts req.command).usedComplexParsing = true
      · rw [if_pos hc, if_pos hc] at ha
        cases ha
      · rw [if_neg hc] at hr
        rw [if_neg hc, if_neg hc] at ha
        rw [show deriveRequestedExecpolicyAmendmentFromPrefixRule env req.prefixRule
          e.matchedRules pl (commandsForExecPolicy ts req.command).commands
          (renderDecisionForUnmatchedCommand ts req
            (commandsForExecPolicy ts req.command).usedComplexParsing) =
            requestedAmendment ts env pl req from hr.symm] at ha
        cases hs : requestedAmendment ts env pl req with rw [hs] at ha
        | some f =>
          cases ha
          exact .inl ⟨rfl, requested_of_derive he (hr.symm.trans hs)⟩
        | none => exact .inr ⟨rfl, unmatched_of_promptRules he ha⟩
  | _ =>
    rw [hp] at h
    cases h

theorem Requested.covers (h : Requested env pl cs fl ad) (hc : command ∈ cs)
    (hm : m ∈ pl.matchesForCommandWithOptions env (some fl) true command)
    (hp : m.decision = .prompt) : Covers env pl ad command := by
  obtain ⟨updated, had, ha⟩ := h.approves
  have hn := h.unmatched command hc
  by_contra hcv
  have hnl := (ruleMatches_of_not_covers had hcv).trans hn
  have hs : m.decision = .allow := by
    apply ha command hc m
    rw [matches_of_no_rules hn] at hm
    rw [matches_of_no_rules hnl]
    exact hm
  rw [hp] at hs
  cases hs

theorem Requested.alreadyAllowed_iff (h : Requested env pl cs fl ad) (hc : c ∈ cs)
    (hcv : Covers env pl ad c) : alreadyAllowed env pl ad = true ↔ AllowedByPath env pl ad := by
  have he : pl.matchExactRules ad = [] := by
    by_contra hne
    exact ruleMatches_ne_nil_of_covers hcv hne (h.unmatched c hc)
  have hr : pl.ruleMatches env true ad = pl.matchHostExecutableRules env ad := by
    rw [ruleMatches, if_neg (not_not.mpr he), if_pos rfl]
  rw [PolicyAmendment.alreadyAllowed_iff, hr, AllowedByPath]

theorem takesEffect_of_allows (h : ∀ c, AmendmentSubject ts env pl req ad c →
      Allows env updated (fallbackFor ts req) c) : TakesEffect ts env pl updated req ad := by
  intro c hs
  have ha := h c hs
  refine ⟨check_allow_iff.mpr ha, ?_⟩
  rintro ⟨-, m, hm, hp⟩
  rw [ha m hm] at hp
  cases hp

end Proposals

theorem updatePolicy_inv (h : updatePolicy env p ad = .ok ud) :
    (alreadyAllowed env p ad = true ∧ ud = p) ∨ (¬ alreadyAllowed env p ad = true ∧
        p.addPrefixRule ad .allow = some ud) := by
  rw [updatePolicy] at h
  by_cases ha : alreadyAllowed env p ad = true
  · rw [if_pos ha] at h
    cases h
    exact .inl ⟨ha, rfl⟩
  · rw [if_neg ha] at h
    cases had : p.addPrefixRule ad .allow with rw [had] at h
    | none => cases h
    | some f =>
      cases h
      exact .inr ⟨ha, rfl⟩

theorem append_cases (env : ProcessEnv) (fs : Faults) (m : ExecPolicyManager)
    (ad : List Str) :
    let outcome := appendAmendmentAndUpdate env fs m ad
    (outcome.2 = .ok () ∧ updatePolicy env m.policy ad = .ok outcome.1.policy ∧
        ruleLine ad ∈ lines outcome.1.rulesFile) ∨
      ((∃ error, outcome.2 = .error error) ∧ outcome.1.policy = m.policy) := by
  intro outcome
  have hf := (recorded_blockingAppend fs m.rulesFile ad).2
  have ho : outcome = appendAmendmentAndUpdate env fs m ad := rfl
  rw [appendAmendmentAndUpdate] at ho
  generalize blockingAppendAllowPrefixRule fs m.rulesFile ad = appended
    at hf ho
  obtain ⟨contents, r⟩ := appended
  cases r with
  | error s =>
    rw [ho]
    exact .inr ⟨⟨_, rfl⟩, rfl⟩
  | ok =>
    cases hu : updatePolicy env m.policy ad with simp only [hu] at ho
    | error error =>
      rw [ho]
      exact .inr ⟨⟨_, rfl⟩, rfl⟩
    | ok f =>
      rw [ho]
      exact .inl ⟨rfl, rfl, hf rfl⟩

/-- A recorded amendment takes effect on the request it was proposed for, unless its first word,
taken for a path, names a program that rules allow already. Then the rule is in the file alone. -/
theorem takesEffect_iff (tools : ShellTools) (env : ProcessEnv) (faults : Faults)
    (manager : ExecPolicyManager) (req : ExecApprovalRequest) (reason : Option Str)
    (amendment : List Str)
    (hproposed : createExecApprovalRequirementForCommand tools env manager.policy req =
      some (.needsApproval reason (some amendment)))
    (hrecorded : (appendAmendmentAndUpdate env faults manager amendment).2 = .ok ()) :
    TakesEffect tools env manager.policy
        (appendAmendmentAndUpdate env faults manager amendment).1.policy req amendment ↔
      ¬ AllowedByPath env manager.policy amendment := by
  obtain ⟨⟨c, hc, m, hm, hp⟩, hs⟩ := proposed_of_needsApproval hproposed
  have hu : updatePolicy env manager.policy amendment =
      .ok (appendAmendmentAndUpdate env faults manager amendment).1.policy := by
    obtain ⟨-, hu, -⟩ | ⟨⟨e, he⟩, -⟩ := append_cases env faults manager amendment
    · exact hu
    · rw [hrecorded] at he
      cases he
  generalize (appendAmendmentAndUpdate env faults manager amendment).1.policy = updated at *
  rcases hs amendment rfl with ⟨hr, hf⟩ | ⟨hr, hmm, hn⟩
  · have hcv := hf.covers hc hm hp
    rw [← hf.alreadyAllowed_iff hc hcv]
    constructor
    · intro hef ha
      -- The policy is as before, so the command still prompts.
      obtain ⟨-, rfl⟩ | ⟨hnt, -⟩ := updatePolicy_inv hu
      · have hal := check_allow_iff.mp (hef c ⟨hc, .inl hr⟩).1
        rw [hal m hm] at hp
        cases hp
      · exact hnt ha
    · intro hnt
      obtain ⟨ha, -⟩ | ⟨-, had⟩ := updatePolicy_inv hu
      · exact absurd ha hnt
      · apply takesEffect_of_allows
        intro o ho
        obtain ⟨f, hfn, hal⟩ := hf.approves
        rw [had] at hfn
        cases hfn
        exact hal o ho.1
  · have hpt : ¬ AllowedByPath env manager.policy amendment :=
      fun h => h.1 (ruleMatches_eq_nil_iff.mp hn).2
    refine ⟨fun _ => hpt, fun _ => ?_⟩
    obtain ⟨ha, -⟩ | ⟨-, had⟩ := updatePolicy_inv hu
    · exact absurd hn (alreadyAllowed_iff.mp ha).1
    · apply takesEffect_of_allows
      rintro o ⟨-, ho | rfl⟩
      · rw [hr] at ho
        cases ho
      · exact allows_amendment had hn

def plainTools (commands : List (List Str)) : ShellTools :=
  ⟨fun _ => some commands, fun _ => none, fun _ => false, fun _ => false, fun _ => none⟩

def plainRequest (prefixRule : List Str) : ExecApprovalRequest :=
  ⟨["bash"], .unlessTrusted, .managed, ⟨.restricted, []⟩, .useDefault, some prefixRule⟩

def homeEnv : ProcessEnv := ⟨some ⟨true, ["home", "user"]⟩, none⟩

def makeCommands : List (List Str) :=
  [["/usr/bin/make", "all"], ["make", "test"]]

theorem takesEffect_make : TakesEffect (plainTools makeCommands) homeEnv Policy.empty
      (appendAmendmentAndUpdate homeEnv (fun _ => none) ⟨Policy.empty, []⟩
        ["make"]).1.policy (plainRequest ["make"]) ["make"] := by
  have hp : ¬ AllowedByPath homeEnv empty ["make"] := by
    intro h
    exact h.1 (by decide)
  exact (takesEffect_iff (plainTools makeCommands) homeEnv (fun _ => none) ⟨empty, []⟩
    (plainRequest ["make"]) none ["make"] (by decide) (by decide +kernel)).mpr hp

def userPolicy : Policy := ⟨[("user", ⟨⟨"user", []⟩, .allow, none⟩)], []⟩

/-- A program called `~` prompts. The prefix `~` would allow it, is proposed, and is written to the
file. As a path it is the home directory, and a rule allows the name of that, so the policy in
memory stays as it was and the program prompts again. -/
theorem home_prefix_without_effect :
    let tools := plainTools [["/opt/~"]]
    let req := plainRequest ["~"]
    let o := appendAmendmentAndUpdate homeEnv (fun _ => none) ⟨userPolicy, []⟩ ["~"]
    createExecApprovalRequirementForCommand tools homeEnv userPolicy req =
        some (.needsApproval none (some ["~"])) ∧
      o.2 = .ok () ∧ ruleLine ["~"] ∈ lines o.1.rulesFile ∧
      createExecApprovalRequirementForCommand tools homeEnv o.1.policy req =
        some (.needsApproval none (some ["~"])) ∧
      ¬ TakesEffect tools homeEnv userPolicy o.1.policy req ["~"] := by
  intro tools req o
  refine ⟨by decide, by decide +kernel, by decide +kernel, by decide +kernel, ?_⟩
  intro he
  have hs : AmendmentSubject tools homeEnv userPolicy req ["~"] ["/opt/~"] :=
    ⟨by decide, .inl (by decide)⟩
  exact absurd (he _ hs).1 (by decide +kernel)

end PolicyAmendment
