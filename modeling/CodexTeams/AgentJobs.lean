import CodexTeams.RustStr
import CodexTeams.Runs

/-! The runner of an agent job and the database it shares with the workers that report and the
callers that cancel. Each SQL statement is one step. -/
namespace AgentJobs

open RustStr Runs

inductive AgentJobStatus where
  | pending
  | running
  | completed
  | failed
  | cancelled
  deriving DecidableEq

inductive AgentJobItemStatus where
  | pending
  | running
  | completed
  | failed
  deriving DecidableEq

structure AgentJob where
  status : AgentJobStatus
  lastError : Option Str

structure AgentJobItem where
  status : AgentJobItemStatus
  assignedThreadId : Option Str
  attemptCount : ℕ
  resultJson : Option Str
  lastError : Option Str
  deriving DecidableEq

/-- The rows of one job: its own and those of its items, in the order of their row numbers. -/
structure Database where
  job : AgentJob
  items : List (Str × AgentJobItem)

namespace Database

variable (db : Database)

def markAgentJobCompleted : Database := { db with job := ⟨.completed, none⟩ }

def markAgentJobFailed (errorMessage : Str) : Database :=
  { db with job := ⟨.failed, some errorMessage⟩ }

def markAgentJobCancelled (reason : Str) : Database × Bool :=
  if db.job.status = .pending ∨ db.job.status = .running then
    ({ db with job := ⟨.cancelled, some reason⟩ }, true)
  else (db, false)

def isAgentJobCancelled : Bool := db.job.status = .cancelled

variable (itemId : Str)

def getAgentJobItem : Option AgentJobItem := db.items.lookup itemId

variable (status : AgentJobItemStatus)

def listAgentJobItems : List (Str × AgentJobItem) :=
  db.items.filter fun row => row.2.status = status

def countItems : ℕ := (db.listAgentJobItems status).length

def updateItem (condition : AgentJobItem → Bool)
    (change : AgentJobItem → AgentJobItem) : Database × Bool :=
  ({ db with items := db.items.map fun row =>
      if row.1 = itemId ∧ condition row.2 then (row.1, change row.2) else row },
    db.items.any fun row => row.1 = itemId ∧ condition row.2)

def markAgentJobItemRunningWithThread (itemId threadId : Str) : Database × Bool :=
  db.updateItem itemId (fun item => item.status = .pending) fun item =>
    { item with
      status := .running
      assignedThreadId := some threadId
      attemptCount := item.attemptCount + 1
      lastError := none }

def markAgentJobItemPending (errorMessage : Option Str) : Database × Bool :=
  db.updateItem itemId (fun item => item.status = .running) fun item =>
    { item with status := .pending, assignedThreadId := none, lastError := errorMessage }

def reportAgentJobItemResult (itemId reportingThreadId resultJson : Str) : Database × Bool :=
  db.updateItem itemId
    (fun item => item.status = .running ∧ item.assignedThreadId = some reportingThreadId)
    fun item => { item with
      status := .completed
      resultJson := some resultJson
      lastError := none
      assignedThreadId := none }

def markAgentJobItemCompleted : Database × Bool :=
  db.updateItem itemId (fun item => item.status = .running ∧ item.resultJson.isSome) fun item =>
    { item with status := .completed, assignedThreadId := none }

def markAgentJobItemFailed (itemId errorMessage : Str) : Database × Bool :=
  db.updateItem itemId (fun item => item.status = .running) fun item =>
    { item with status := .failed, lastError := some errorMessage, assignedThreadId := none }

end Database

inductive ItemMark where
  | pending (itemId : Str)
  | completed (itemId : Str)
  | failed (itemId errorMessage : Str)
  deriving DecidableEq

def ItemMark.apply (db : Database) : ItemMark → Database
  | pending itemId => (db.markAgentJobItemPending itemId none).1
  | completed itemId => (db.markAgentJobItemCompleted itemId).1
  | failed itemId errorMessage => (db.markAgentJobItemFailed itemId errorMessage).1

/-- The next statement of `run_agent_job_loop`. -/
inductive Phase where
  | listRunning
  | recovering (left : List (Str × AgentJobItem))
  | marking (mark : ItemMark) (resume : Phase)
  | finalizing (itemId : Str) (resume : Phase)
  | loopTop
  | listPending
  | spawning (itemId : Str) (left : List Str)
  | assigning (itemId threadId : Str) (left : List Str)
  | reaping
  | finding
  | checkingProgress
  | exporting
  | exportFailed (message : Str)
  | lastCheck
  | completing
  | returned
  deriving DecidableEq

structure Runner where
  phase : Phase
  cancelRequested : Bool
  activeItems : List (Str × Str)

/-- What `recover_running_items` finds out about a running item. -/
inductive Recovered where
  | stale (errorMessage : Str)
  | invalidThread (errorMessage : Str)
  | final
  | live
  deriving DecidableEq

inductive Spawned where
  | thread (threadId : Str)
  | agentLimitReached
  | error (message : Str)
  deriving DecidableEq

/-- What the runner learns in a step other than from the database; `error` is a statement that
fails, on which the runner returns. -/
inductive Input where
  | none
  | recovered (item : Recovered)
  | spawned (agent : Spawned)
  | stale (items : List (Str × Str)) (errorMessage : Str)
  | finished (items : List (Str × Str))
  | exported (error : Option Str)
  | error
  deriving DecidableEq

def Phase.takes : Phase → Input → Bool
  | .returned, _ => false
  | .exporting, .exported _ => true
  | .exporting, _ => false
  | _, .error | .recovering (_ :: _), .recovered _ => true
  | .recovering (_ :: _), _ => false
  | .spawning _ _, .spawned _ => true
  | .spawning _ _, _ => false
  | .reaping, .stale _ _ => true
  | .reaping, _ => false
  | .finding, .finished _ => true
  | .finding, _ => false
  | _, .none => true
  | _, _ => false

def Input.items : Input → List (Str × Str)
  | stale items _ | finished items => items
  | _ => []

def Phase.spawnNext : List Str → Phase
  | [] => .reaping
  | itemId :: left => .spawning itemId left

variable (itemId : Str)

/-- One turn of the loop of `recover_running_items`: what to do next, and the item as an active one
if its worker is still at it. -/
def recoverItem (item : AgentJobItem) (left : List (Str × AgentJobItem)) :
    Recovered → Phase × List (Str × Str)
  | .stale message => (.marking (.failed itemId message) (.recovering left), [])
  | verdict =>
    match item.assignedThreadId, verdict with
    | none, _ =>
      let message := "running item is missing assigned_thread_id".toList
      (.marking (.failed itemId message) (.recovering left), [])
    | some threadId, .live => (.recovering left, [(threadId, itemId)])
    | some _, .invalidThread message =>
      (.marking (.failed itemId message) (.recovering left), [])
    | some _, _ => (.finalizing itemId (.recovering left), [])

def finalizeFinishedItem (resume : Phase) : Option AgentJobItem → Phase
  | none => .returned
  | some item =>
    if item.status ≠ .running then resume
    else if item.resultJson.isSome then .marking (.completed itemId) resume
    else .marking
      (.failed itemId "worker finished without calling report_agent_job_result") resume

variable (left : List Str)

def spawnItem : Spawned → Phase
  | .thread threadId => .assigning itemId threadId left
  | .agentLimitReached => .marking (.pending itemId) .reaping
  | .error message =>
    .marking (.failed itemId ("failed to spawn worker: " ++ message)) (.spawnNext left)

def Runner.isDone (runner : Runner) (db : Database) : Bool :=
  (runner.cancelRequested || db.countItems .pending = 0) &&
    (db.countItems .running = 0 && runner.activeItems = [])

variable (maxConcurrency : ℕ)

def Runner.stepOn (db : Database) (runner : Runner) (input : Input) : Database × Runner :=
  match runner.phase, input with
  | .listRunning, _ => (db, { runner with phase := .recovering (db.listAgentJobItems .running) })
  | .recovering [], _ =>
    (db, { runner with phase := .loopTop, cancelRequested := db.isAgentJobCancelled })
  | .recovering ((itemId, item) :: left), .recovered verdict =>
    let (phase, active) := recoverItem itemId item left verdict
    (db, { runner with phase, activeItems := runner.activeItems ++ active })
  | .marking mark resume, _ => (mark.apply db, { runner with phase := resume })
  | .finalizing itemId resume, _ =>
    (db, { runner with phase := finalizeFinishedItem itemId resume (db.getAgentJobItem itemId) })
  | .loopTop, _ =>
    let cancelRequested := runner.cancelRequested || db.isAgentJobCancelled
    (db, { runner with
      cancelRequested
      phase := if !cancelRequested ∧ runner.activeItems.length < maxConcurrency then .listPending
        else .reaping })
  | .listPending, _ =>
    let slots := maxConcurrency - runner.activeItems.length
    let pendingItems := ((db.listAgentJobItems .pending).take slots).map Prod.fst
    (db, { runner with phase := .spawnNext pendingItems })
  | .spawning itemId left, .spawned agent =>
    (db, { runner with phase := spawnItem itemId left agent })
  | .assigning itemId threadId left, _ =>
    let (db', assigned) := db.markAgentJobItemRunningWithThread itemId threadId
    (db', { runner with
      phase := .spawnNext left
      activeItems := runner.activeItems ++ if assigned then [(threadId, itemId)] else [] })
  | .reaping, .stale items errorMessage =>
    (db, { runner with
      phase := items.foldr (fun item => .marking (.failed item.2 errorMessage)) .finding
      activeItems := runner.activeItems.filter fun item => item ∉ items })
  | .finding, .finished [] => (db, { runner with phase := .checkingProgress })
  | .finding, .finished items =>
    (db, { runner with
      phase := items.foldr (fun item => .finalizing item.2) .loopTop
      activeItems := runner.activeItems.filter fun item => item ∉ items })
  | .checkingProgress, _ =>
    (db, { runner with phase := if runner.isDone db then .exporting else .loopTop })
  | .exporting, .exported none => (db, { runner with phase := .lastCheck })
  | .exporting, .exported (some error) =>
    (db, { runner with phase := .exportFailed ("auto-export failed: " ++ error) })
  | .exportFailed message, _ =>
    (db.markAgentJobFailed message, { runner with phase := .returned })
  | .lastCheck, _ =>
    (db, { runner with
      phase := if runner.cancelRequested || db.isAgentJobCancelled then .returned
        else .completing })
  | .completing, _ => (db.markAgentJobCompleted, { runner with phase := .returned })
  | _, _ => (db, runner)

def Runner.step (db : Database) (runner : Runner) (input : Input) : Database × Runner :=
  if input = .error then (db, { runner with phase := .returned })
  else runner.stepOn maxConcurrency db input

/-- The database with the runner and the workers that have reported with `stop` and not yet
cancelled. `cancelled` says that a cancellation has returned true. -/
structure State where
  db : Database
  runner : Runner
  stopRequests : ℕ
  cancelled : Bool

inductive Event where
  | run (input : Input)
  | report (itemId threadId resultJson : Str) (stop : Bool)
  | stop
  | cancel (reason : Str)

section

variable (s : State)

def Enabled : Event → Prop
  | .run input => s.runner.phase.takes input = true ∧
    ∀ item ∈ input.items, item ∈ s.runner.activeItems
  | .stop => 0 < s.stopRequests
  | .report _ _ _ _ | .cancel _ => True

/-- `mark_agent_job_cancelled`, and whether it returned true. -/
def State.markCancelled (reason : Str) : State :=
  let (db, done) := s.db.markAgentJobCancelled reason
  { s with db, cancelled := s.cancelled || done }

def next : Event → State
  | .run input =>
    let (db, runner) := s.runner.step maxConcurrency s.db input
    { s with db, runner }
  | .report itemId threadId resultJson stop =>
    let (db, accepted) := s.db.reportAgentJobItemResult itemId threadId resultJson
    { s with db, stopRequests := if accepted ∧ stop then s.stopRequests + 1 else s.stopRequests }
  | .stop =>
    { s with stopRequests := s.stopRequests - 1 }.markCancelled
      "cancelled by worker request"
  | .cancel reason => s.markCancelled reason

def jobSystem : EventSystem State Event := ⟨Enabled, next maxConcurrency⟩

def State.start (db : Database) : State := ⟨db, ⟨.listRunning, false, []⟩, 0, false⟩

def Phase.settles : Phase → Bool
  | .exportFailed _ | .completing => true
  | .marking _ resume | .finalizing _ resume => resume.settles
  | _ => false

/-- A job is cancelled only while the runner is not about to write its status, and the export
does not fail once it is cancelled. -/
def Timely : Event → Prop
  | .run (.exported (some _)) => s.db.job.status ≠ .cancelled
  | .stop | .cancel _ => s.runner.phase.settles = false
  | _ => True

end

@[simp] theorem job_apply (db : Database) (m : ItemMark) : (m.apply db).job = db.job := by
  cases m <;> rfl

/-- What is left to do once the items are marked. -/
def Phase.last : Phase → Phase
  | .marking _ resume | .finalizing _ resume => resume.last
  | phase => phase

def Phase.inLoop : Phase → Bool
  | .exporting | .exportFailed _ | .lastCheck | .completing => false
  | _ => true

theorem Phase.settles_eq (p : Phase) : p.settles = (!p.last.inLoop && p.last.settles) := by
  induction p with
  | marking _ _ ih | finalizing _ _ ih => exact ih
  | _ => rfl

@[simp] theorem inLoop_spawnNext : (Phase.spawnNext left).last.inLoop = true := by
  cases left <;> rfl

variable (its : List (Str × Str))

@[simp] theorem inLoop_foldr_marking (m : Str) :
    (its.foldr (fun i => Phase.marking (.failed i.2 m)) .finding).last.inLoop = true := by
  induction its with
  | nil => rfl
  | cons i its ih => exact ih

@[simp] theorem inLoop_foldr_finalizing :
    (its.foldr (fun i => Phase.finalizing i.2) .loopTop).last.inLoop = true := by
  induction its with
  | nil => rfl
  | cons i its ih => exact ih

variable (ii : Str)

@[simp] theorem inLoop_recoverItem (i : AgentJobItem) (left : List (Str × AgentJobItem))
    (v : Recovered) : (recoverItem ii i left v).1.last.inLoop = true := by
  unfold recoverItem
  split
  · rfl
  · split <;> rfl

@[simp] theorem last_finalizeFinishedItem (r : Phase) (i : Option AgentJobItem) :
    (finalizeFinishedItem ii r i).last = if i = none then .returned else r.last := by
  unfold finalizeFinishedItem
  repeat' split
  all_goals simp_all [Phase.last]

@[simp] theorem inLoop_spawnItem (a : Spawned) : (spawnItem ii left a).last.inLoop = true := by
  cases a with
  | thread | agentLimitReached => rfl
  | error message => exact inLoop_spawnNext left

variable {s : State}

theorem Runner.job_stepOn {r : Runner} (h : r.phase.settles = false) :
    (r.stepOn mc db i).1.job = db.job := by
  unfold Runner.stepOn
  split <;> try rfl
  · exact job_apply db _
  · simp_all [Phase.settles]
  · simp_all [Phase.settles]

/-- Only a failed export, and the last check on a job that is not cancelled, bring the runner
there. -/
theorem Runner.settles_stepOn {r : Runner} (h : r.phase.settles = false)
    (hn : (r.stepOn mc db i).2.phase.settles = true) :
    (∃ e, i = .exported (some e)) ∨ db.isAgentJobCancelled = false := by
  rw [Phase.settles_eq] at h hn
  unfold Runner.stepOn at hn
  split at hn <;> simp_all [Phase.last, Phase.settles]
  · split at hn
    · cases hn.2
    · rw [h hn.1] at hn
      cases hn.2
  · split at hn <;> cases hn.2
  · split at hn <;> cases hn.2
  · split at hn
    · cases hn.2
    · next hc =>
      rw [not_or, Bool.not_eq_true, Bool.not_eq_true] at hc
      exact .inr hc.2

/-- A cancelled job has the status, and the runner will not write another. -/
def StaysCancelled (s : State) : Prop :=
  s.cancelled = true → s.db.job.status = .cancelled ∧ s.runner.phase.settles = false

theorem staysCancelled_run (h : StaysCancelled s)
    (ht : Timely s (.run i)) : StaysCancelled (next mc s (.run i)) := by
  intro hcn
  obtain ⟨hs, hp⟩ := h hcn
  simp only [next, Runner.step]
  split
  · exact ⟨hs, rfl⟩
  · refine ⟨by rw [Runner.job_stepOn hp, hs], ?_⟩
    rw [← Bool.not_eq_true]
    intro hst
    rcases Runner.settles_stepOn hp hst with ⟨e, rfl⟩ | hc
    · exact ht hs
    · rw [Database.isAgentJobCancelled, hs] at hc
      cases hc

theorem staysCancelled_markCancelled (h : StaysCancelled s) (r : Str)
    (hp : s.runner.phase.settles = false) : StaysCancelled (s.markCancelled r) := by
  intro hc
  refine ⟨?_, hp⟩
  simp only [State.markCancelled, Database.markAgentJobCancelled] at hc ⊢
  split
  · rfl
  · rename_i hn
    rw [if_neg hn, Bool.or_false] at hc
    exact (h hc).1

theorem staysCancelled_next (h : StaysCancelled s) (ht : Timely s e) :
    StaysCancelled (next mc s e) := by
  cases e with
  | run input => exact staysCancelled_run h ht
  | report itemId threadId rj stop => exact h
  | stop => exact staysCancelled_markCancelled h _ ht
  | cancel r => exact staysCancelled_markCancelled h r ht

/-- In every run in which no cancellation comes while the runner is about to write the status and
no export fails on a cancelled job, a job once cancelled has that status. -/
theorem cancelled_job_stays_cancelled {maxConcurrency : ℕ} {db : Database} {s : State}
    (h : (jobSystem maxConcurrency).Reaches Timely (.start db) s)
    (hcancelled : s.cancelled = true) : s.db.job.status = .cancelled := by
  have hst : StaysCancelled (.start db) := by
    intro hcancelled
    cases hcancelled
  have hsy : StaysCancelled s := h.invariant (fun _ _ hs _ ht => staysCancelled_next hs ht) hst
  exact (hsy hcancelled).1

instance decidableJobSystem (s : State) (event : Event) :
    Decidable ((jobSystem maxConcurrency).Enabled s event) := by
  cases event <;> dsimp only [jobSystem, Enabled] <;> infer_instance

instance decidableTimely (s : State) (event : Event) : Decidable (Timely s event) := by
  unfold Timely
  split <;> infer_instance

def emptyJob : Database := ⟨⟨.running, none⟩, []⟩

def upToExport : List Event :=
  [.run .none, .run .none, .run .none, .run .none, .run (.stale [] []), .run (.finished []),
    .run .none]

theorem cancelled_job_stays_cancelled_exported :
    let events := upToExport ++ [.cancel "stop", .run (.exported none), .run .none]
    let s := (jobSystem 1).run events (.start emptyJob)
    s.cancelled = true ∧ s.runner.phase = .returned ∧ s.db.job.status = .cancelled := by
  intro events s
  have ha : (jobSystem 1).Allows Timely events (.start emptyJob) := by decide +kernel
  exact ⟨by decide +kernel, by decide +kernel,
    cancelled_job_stays_cancelled (EventSystem.Reaches.of_allows ha) (by decide +kernel)⟩

/-- The export of a cancelled job fails: the job is marked as failed. A job is cancelled after the
last check: the job is marked as completed. -/
theorem cancelled_job_overwritten :
    let start := State.start emptyJob
    let efs := upToExport ++
      [.cancel "stop", .run (.exported (some "disk full")), .run .none]
    let cl := upToExport ++
      [.run (.exported none), .run .none, .cancel "stop", .run .none]
    (jobSystem 1).Allows EventSystem.always efs start ∧
      ((jobSystem 1).run efs start).cancelled = true ∧
      ((jobSystem 1).run efs start).db.job.status = .failed ∧
      (jobSystem 1).Allows EventSystem.always cl start ∧
      ((jobSystem 1).run cl start).cancelled = true ∧
      ((jobSystem 1).run cl start).db.job.status = .completed := by
  decide +kernel

/-- How many items may become active before the runner lists any again. -/
def Phase.awaited : Phase → ℕ
  | .listRunning => maxConcurrency
  | .recovering left => left.length
  | .marking _ resume | .finalizing _ resume => resume.awaited
  | .spawning _ left | .assigning _ _ left => left.length + 1
  | _ => 0

def Runner.Within (r : Runner) : Prop :=
  r.activeItems.length + r.phase.awaited maxConcurrency ≤ maxConcurrency

section

variable (mc : ℕ) (l : List (Str × Str))

theorem awaited_spawnNext (l : List Str) : (Phase.spawnNext l).awaited mc = l.length := by
  cases l <;> rfl

theorem awaited_marking (m : Str) :
    (l.foldr (fun i => .marking (.failed i.2 m)) Phase.finding).awaited mc = 0 := by
  induction l <;> trivial

theorem awaited_finalizing : (l.foldr (fun i => .finalizing i.2) Phase.loopTop).awaited mc = 0 := by
  induction l <;> trivial

theorem awaited_recoverItem (itemId : Str) (item : AgentJobItem)
    (left : List (Str × AgentJobItem)) (v : Recovered) :
    (recoverItem itemId item left v).2.length + (recoverItem itemId item left v).1.awaited mc ≤
      left.length + 1 := by
  unfold recoverItem
  split
  · exact (Nat.zero_add _).trans_le (Nat.le_succ _)
  · split <;> simp [Phase.awaited, Nat.add_comm]

end

theorem Runner.Within.stepOn {r : Runner} (h : r.Within mc)
    (hl : r.phase = .listRunning → db.countItems .running ≤ mc) :
    (r.stepOn mc db i).2.Within mc := by
  obtain ⟨phase, cancelRequested, active⟩ := r
  -- a phase that awaits no item needs only that no more are active
  have ha : active.length ≤ mc := Nat.le_of_add_right_le h
  have hf p : (active.filter p).length ≤ mc := (List.length_filter_le p active).trans ha
  simp only [Within] at h ⊢
  cases phase with
  | listRunning =>
    have hr := hl rfl
    simp only [Database.countItems, Phase.awaited] at h hr
    simp only [Runner.stepOn, Phase.awaited]
    omega
  | recovering left =>
    cases left with
    | nil => exact h
    | cons first left =>
      cases i with
      | recovered verdict =>
        have hr := awaited_recoverItem mc first.1 first.2 left verdict
        simp only [Phase.awaited, List.length_cons] at h
        simp only [Runner.stepOn, List.length_append]
        omega
      | _ => exact h
  | marking mark resume => exact h
  | finalizing itemId resume =>
    simp only [Runner.stepOn, finalizeFinishedItem]
    split
    · exact ha
    · split_ifs <;> exact h
  | listPending =>
    simp only [Runner.stepOn, awaited_spawnNext, List.length_map, List.length_take]
    omega
  | spawning itemId left =>
    cases i with
    | spawned agent =>
      simp only [Phase.awaited] at h
      cases agent with
      | thread threadId => exact h
      | agentLimitReached => exact ha
      | error message =>
        simp only [Runner.stepOn, spawnItem, Phase.awaited, awaited_spawnNext]
        omega
    | _ => exact h
  | assigning itemId threadId left =>
    simp only [Phase.awaited] at h
    simp only [Runner.stepOn, awaited_spawnNext, List.length_append]
    split_ifs <;> simp <;> omega
  | reaping =>
    cases i with
    | stale items message =>
      simp only [Runner.stepOn, awaited_marking]
      exact hf _
    | _ => exact h
  | finding =>
    cases i with
    | finished items =>
      cases items with
      | nil => exact h
      | cons item items =>
        simp only [Runner.stepOn, awaited_finalizing]
        exact hf _
    | _ => exact h
  | exporting =>
    cases i with
    | exported error => cases error <;> exact h
    | _ => exact h
  | loopTop | checkingProgress | lastCheck =>
    simp only [Runner.stepOn]
    split_ifs <;> exact ha
  | exportFailed | completing | returned => exact ha

/-- A runner that recovers no more running items than there may be workers never has more of them
active. -/
theorem active_within_limit {maxConcurrency : ℕ} {db : Database} {s : State}
    (h : (jobSystem maxConcurrency).Reaches (fun s _ => s.runner.phase = .listRunning →
      s.db.countItems .running ≤ maxConcurrency) (.start db) s) :
    s.runner.activeItems.length ≤ maxConcurrency := by
  let Fits (s : State) : Prop := s.runner.Within maxConcurrency
  have hw : Fits s := by
    refine h.invariant ?_ (Nat.zero_add maxConcurrency).le
    intro s e hs _ hr
    cases e with
    | run input =>
      simp only [jobSystem, next, Runner.step]
      split
      · exact Nat.le_of_add_right_le hs
      · exact hs.stepOn hr
    | _ => exact hs
  exact Nat.le_of_add_right_le hw

theorem active_within_limit_two_items :
    let item : AgentJobItem := ⟨.pending, none, 0, none, none⟩
    let events := upToExport.take 4 ++ [.run (.spawned (.thread "t")), .run .none]
    let s := (jobSystem 1).run events (.start ⟨⟨.running, none⟩, [("a", item), ("b", item)]⟩)
    s.db.countItems .pending = 1 ∧ s.runner.activeItems.length ≤ 1 := by
  intro item events s
  exact ⟨by decide +kernel, active_within_limit (.of_allows (by decide +kernel))⟩

end AgentJobs
