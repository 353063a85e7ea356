import CodexTeams.RustStr

/-! The goal of a thread as the goal store keeps it. Each statement is one step. -/
namespace GoalBudget

open RustStr

inductive ThreadGoalStatus where
  | active
  | paused
  | blocked
  | usageLimited
  | budgetLimited
  | complete
  deriving DecidableEq

structure ThreadGoal where
  goalId : Str
  objective : Str
  status : ThreadGoalStatus
  tokenBudget : Option ℤ
  tokensUsed : ℤ
  timeUsedSeconds : ℤ
  deriving DecidableEq

structure GoalUpdate where
  objective : Option Str
  status : Option ThreadGoalStatus
  tokenBudget : Option (Option ℤ)
  expectedGoalId : Option Str

inductive GoalAccountingMode where
  | activeStatusOnly
  | activeOnly
  | activeOrComplete
  | activeOrStopped

def statusAfterBudgetLimit (status : ThreadGoalStatus) (tokensUsed : ℤ) (tokenBudget : Option ℤ) :
    ThreadGoalStatus :=
  if status = .active ∧ ∃ budget ∈ tokenBudget, budget ≤ tokensUsed then .budgetLimited else status

def newGoal (goalId objective : Str) (status : ThreadGoalStatus) (tokenBudget : Option ℤ) :
    ThreadGoal :=
  ⟨goalId, objective, statusAfterBudgetLimit status 0 tokenBudget, tokenBudget, 0, 0⟩

variable (goal : ThreadGoal)

def ThreadGoal.update (u : GoalUpdate) : ThreadGoal :=
  let objective := u.objective.getD goal.objective
  let requested (status : ThreadGoalStatus) (tokenBudget : Option ℤ) :=
    if goal.status = .budgetLimited ∧ (status = .paused ∨ status = .blocked) then goal.status
    else statusAfterBudgetLimit status goal.tokensUsed tokenBudget
  match u.status, u.tokenBudget with
  | some status, some tokenBudget =>
    { goal with objective, status := requested status tokenBudget, tokenBudget }
  | some status, none => { goal with objective, status := requested status goal.tokenBudget }
  | none, some tokenBudget =>
    { goal with
      objective, tokenBudget
      status := statusAfterBudgetLimit goal.status goal.tokensUsed tokenBudget }
  | none, none => { goal with objective }

def GoalAccountingMode.counts : GoalAccountingMode → ThreadGoalStatus → Bool
  | activeStatusOnly, status => status = .active
  | activeOnly, status => status = .active ∨ status = .budgetLimited
  | activeOrComplete, status => status = .active ∨ status = .budgetLimited ∨ status = .complete
  | activeOrStopped, status => status ≠ .complete

def GoalAccountingMode.limits : GoalAccountingMode → ThreadGoalStatus → Bool
  | activeOrStopped, status => status ≠ .complete
  | _, status => status = .active

def ThreadGoal.account (mode : GoalAccountingMode) (timeDeltaSeconds tokenDelta : ℤ) : ThreadGoal :=
  let tokensUsed := goal.tokensUsed + tokenDelta
  { goal with
    timeUsedSeconds := goal.timeUsedSeconds + timeDeltaSeconds
    tokensUsed
    status := if mode.limits goal.status ∧ ∃ budget ∈ goal.tokenBudget, budget ≤ tokensUsed
      then .budgetLimited else goal.status }

inductive Call where
  | replace (goalId objective : Str) (status : ThreadGoalStatus) (tokenBudget : Option ℤ)
  | insert (goalId objective : Str) (status : ThreadGoalStatus) (tokenBudget : Option ℤ)
  | update (u : GoalUpdate)
  | pauseActive
  | usageLimitActive
  | delete
  | account (timeDeltaSeconds tokenDelta : ℤ) (mode : GoalAccountingMode)
    (expectedGoalId : Option Str)

/-- What a call tells of the goal: that it was created, or what was counted. -/
inductive Outcome where
  | created (goalId : Str)
  | updated (tokenDelta : ℤ)
  | other

def updateWhere (goal : Option ThreadGoal) (condition : ThreadGoal → Bool)
    (change : ThreadGoal → ThreadGoal) : Option ThreadGoal :=
  goal.map fun goal => if condition goal then change goal else goal

def step : Option ThreadGoal → Call → Option ThreadGoal × Outcome
  | _, .replace goalId objective status tokenBudget
  | none, .insert goalId objective status tokenBudget =>
    (some (newGoal goalId objective status tokenBudget), .created goalId)
  | some goal, .insert _ _ _ _ => (some goal, .other)
  | goal, .update u =>
    (updateWhere goal (fun goal => ∀ id ∈ u.expectedGoalId, goal.goalId = id) (·.update u), .other)
  | goal, .pauseActive =>
    (updateWhere goal (·.status = .active) ({ · with status := .paused }), .other)
  | goal, .usageLimitActive =>
    (updateWhere goal (fun goal => goal.status = .active ∨ goal.status = .budgetLimited)
      ({ · with status := .usageLimited }), .other)
  | _, .delete | none, .account _ _ _ _ => (none, .other)
  | some goal, .account timeDeltaSeconds tokenDelta mode expectedGoalId =>
    let time := max timeDeltaSeconds 0
    let tokens := max tokenDelta 0
    if (time ≠ 0 ∨ tokens ≠ 0) ∧ mode.counts goal.status ∧ ∀ id ∈ expectedGoalId, goal.goalId = id
    then (some (goal.account mode time tokens), .updated tokens) else (some goal, .other)

/-- The goal, and the outcomes so far, the last one first. -/
def run (calls : List Call) : Option ThreadGoal × List Outcome :=
  calls.foldl (fun (goal, outcomes) call =>
    let (goal, outcome) := step goal call
    (goal, outcome :: outcomes)) (none, [])

def countedSince (goalId : Str) : List Outcome → ℤ
  | [] => 0
  | .created id :: outcomes => if id = goalId then 0 else countedSince goalId outcomes
  | .updated tokenDelta :: outcomes => tokenDelta + countedSince goalId outcomes
  | .other :: outcomes => countedSince goalId outcomes

def WithinBudget : Prop :=
  goal.status = .active → ∀ budget ∈ goal.tokenBudget, goal.tokensUsed < budget

def Sound (outcomes : List Outcome) (goal : ThreadGoal) : Prop :=
  WithinBudget goal ∧ goal.tokensUsed = countedSince goal.goalId outcomes

variable {goal : ThreadGoal}

theorem lt_of_statusAfterBudgetLimit (h : statusAfterBudgetLimit s n b = .active) :
    ∀ k ∈ b, n < k := by
  intro k hk
  by_contra hn
  rw [statusAfterBudgetLimit] at h
  split at h
  · cases h
  · next hs => exact hs ⟨h, k, hk, Int.not_lt.mp hn⟩

theorem sound_update (h : Sound os goal) (u : GoalUpdate) : Sound os (goal.update u) := by
  obtain ⟨hw, ht⟩ := h
  have hr : ∀ s b, (if goal.status = .budgetLimited ∧ (s = .paused ∨ s = .blocked) then goal.status
      else statusAfterBudgetLimit s goal.tokensUsed b) = .active →
        ∀ k ∈ b, goal.tokensUsed < k := by
    intro s b hs
    split at hs
    · next hb =>
      rw [hb.1] at hs
      cases hs
    · exact lt_of_statusAfterBudgetLimit hs
  unfold ThreadGoal.update
  split
  · exact ⟨hr _ _, ht⟩
  · exact ⟨hr _ _, ht⟩
  · exact ⟨lt_of_statusAfterBudgetLimit, ht⟩
  · exact ⟨hw, ht⟩

theorem sound_account (h : Sound os goal) (mode : GoalAccountingMode) (t k : ℤ) :
    Sound (.updated k :: os) (goal.account mode t k) := by
  obtain ⟨hw, ht⟩ := h
  refine ⟨fun hs b hb => ?_, by simp only [ThreadGoal.account, countedSince]; omega⟩
  by_contra hn
  simp only [ThreadGoal.account] at hs hb hn
  split at hs
  · cases hs
  · next hl =>
    refine hl ⟨?_, b, hb, Int.not_lt.mp hn⟩
    rw [hs]
    cases mode <;> rfl

theorem sound_new (id ob : Str) (s : ThreadGoalStatus) (b : Option ℤ) :
    Sound (.created id :: os) (newGoal id ob s b) :=
  ⟨lt_of_statusAfterBudgetLimit, (if_pos rfl).symm⟩

variable {goal : Option ThreadGoal}

theorem sound_updateWhere (h : ∀ g ∈ goal, Sound os g) (hf : ∀ g, Sound os g → Sound os (f g)) :
    ∀ g ∈ updateWhere goal c f, Sound (.other :: os) g := by
  intro g hg
  obtain ⟨g, ho, rfl⟩ := Option.map_eq_some_iff.mp hg
  split
  · exact hf g (h g ho)
  · exact h g ho

theorem sound_step (h : ∀ g ∈ goal, Sound os g) (call : Call) :
    ∀ g ∈ (step goal call).1, Sound ((step goal call).2 :: os) g := by
  unfold step
  split
  · rintro _ ⟨⟩
    exact sound_new ..
  · rintro _ ⟨⟩
    exact sound_new ..
  · exact h
  · exact sound_updateWhere h fun g hg => sound_update hg _
  · exact sound_updateWhere h fun g hg => ⟨nofun, hg.2⟩
  · exact sound_updateWhere h fun g hg => ⟨nofun, hg.2⟩
  · nofun
  · nofun
  · dsimp only
    split
    · rintro _ ⟨⟩
      exact sound_account (h _ rfl) ..
    · exact h

/-- An active goal with a budget is within it, and the tokens used are those counted since the goal
was created. -/
theorem active_goal_within_budget (calls : List Call) : ∀ goal ∈ (run calls).1,
    (goal.status = .active → ∀ budget ∈ goal.tokenBudget, goal.tokensUsed < budget) ∧
      goal.tokensUsed = countedSince goal.goalId (run calls).2 := by
  have hr : ∀ goal ∈ (run calls).1, Sound (run calls).2 goal := by
    induction calls using List.reverseRecOn with
    | nil => nofun
    | append_singleton calls call ih =>
      rw [run, List.foldl_concat]
      exact sound_step ih call
  exact hr

theorem active_goal_within_budget_counted :
    let calls := [.replace "g" "o" .active (some 5), .account 0 3 .activeOnly none]
    let goal : ThreadGoal := ⟨"g", "o", .active, some 5, 3, 0⟩
    goal ∈ (run calls).1 ∧ goal.tokensUsed < 5 := by
  intro calls goal
  have hg : goal ∈ (run calls).1 := by decide
  exact ⟨hg, (active_goal_within_budget calls goal hg).1 rfl 5 rfl⟩

end GoalBudget
