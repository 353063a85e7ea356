import CodexTeams.MapCount
import CodexTeams.Runs
import CodexTeams.RustInt
import CodexTeams.RustStr

/-! The app server's watch on its threads. A pending request hands out a guard; a dropped guard
takes its request back in a task of its own, at any later time. -/
namespace ThreadWatch

open RustInt RustStr MapCount Runs AList

inductive ThreadActiveFlag where
  | waitingOnApproval
  | waitingOnUserInput
  deriving DecidableEq

inductive ThreadStatus where
  | notLoaded
  | idle
  | systemError
  | active (activeFlags : List ThreadActiveFlag)
  deriving DecidableEq

structure ThreadStatusChangedNotification where
  threadId : Str
  status : ThreadStatus
  deriving DecidableEq

structure RuntimeFacts where
  isLoaded : Bool
  running : Bool
  pendingPermissionRequests : ℕ
  pendingUserInputRequests : ℕ
  hasSystemError : Bool

def RuntimeFacts.unknown : RuntimeFacts := ⟨false, false, 0, 0, false⟩

def loadedThreadStatus (runtime : RuntimeFacts) : ThreadStatus :=
  if !runtime.isLoaded then .notLoaded
  else
    let activeFlags :=
      (if runtime.pendingPermissionRequests > 0 then [.waitingOnApproval] else []) ++
      (if runtime.pendingUserInputRequests > 0 then [.waitingOnUserInput] else [])
    if runtime.running ∨ activeFlags ≠ [] then .active activeFlags
    else if runtime.hasSystemError then .systemError
    else .idle

/-- A `watch::Sender`: its value, and how many receivers it has. -/
structure StatusWatcher where
  current : ThreadStatus
  receiverCount : ℕ

structure ThreadWatchState where
  runtimeByThreadId : AList (fun _ : Str => RuntimeFacts)
  statusWatcherByThreadId : AList (fun _ : Str => StatusWatcher)

namespace ThreadWatchState

def empty : ThreadWatchState := ⟨∅, ∅⟩

variable (state : ThreadWatchState) (threadId : Str)

def statusFor : Option ThreadStatus :=
  (state.runtimeByThreadId.lookup threadId).map loadedThreadStatus

def loadedStatusForThread : ThreadStatus :=
  (state.statusFor threadId).getD .notLoaded

def updateStatusWatcher (status : ThreadStatus) : ThreadWatchState :=
  match state.statusWatcherByThreadId.lookup threadId with
  | none => state
  | some watcher =>
    let watchers := state.statusWatcherByThreadId
    { state with statusWatcherByThreadId :=
        if watcher.receiverCount = 0 then watchers.erase threadId
        else watchers.insert threadId { watcher with current := status } }

def updateStatusWatcherForThread : ThreadWatchState :=
  state.updateStatusWatcher threadId (state.loadedStatusForThread threadId)

def statusChangedNotification
    (previousStatus : Option ThreadStatus) : Option ThreadStatusChangedNotification :=
  match state.statusFor threadId with
  | none => none
  | some status => if previousStatus = some status then none else some ⟨threadId, status⟩

variable (mutate : RuntimeFacts → RuntimeFacts)

def modifyRuntime : ThreadWatchState :=
  let runtime := (state.runtimeByThreadId.lookup threadId).getD .unknown
  { state with runtimeByThreadId := state.runtimeByThreadId.insert threadId (mutate runtime) }

def upsertThread (emitNotification : Bool) :
    ThreadWatchState × Option ThreadStatusChangedNotification :=
  let previousStatus := state.statusFor threadId
  let changed := state.modifyRuntime threadId fun runtime => { runtime with isLoaded := true }
  let state' := changed.updateStatusWatcherForThread threadId
  (state', if emitNotification then state'.statusChangedNotification threadId previousStatus
    else none)

def removeThread : ThreadWatchState × Option ThreadStatusChangedNotification :=
  let previousStatus := state.statusFor threadId
  let changed := { state with runtimeByThreadId := state.runtimeByThreadId.erase threadId }
  (changed.updateStatusWatcher threadId .notLoaded,
    if previousStatus ≠ none ∧ previousStatus ≠ some .notLoaded then some ⟨threadId, .notLoaded⟩
    else none)

def updateRuntime : ThreadWatchState × Option ThreadStatusChangedNotification :=
  let previousStatus := state.statusFor threadId
  let changed := state.modifyRuntime threadId fun runtime =>
    mutate { runtime with isLoaded := true }
  let state' := changed.updateStatusWatcherForThread threadId
  (state', state'.statusChangedNotification threadId previousStatus)

def subscribe : ThreadWatchState :=
  let watcher := (state.statusWatcherByThreadId.lookup threadId).getD
    ⟨state.loadedStatusForThread threadId, 0⟩
  let subscribed := { watcher with receiverCount := watcher.receiverCount + 1 }
  { state with
    statusWatcherByThreadId := state.statusWatcherByThreadId.insert threadId subscribed }

def unsubscribe : ThreadWatchState :=
  match state.statusWatcherByThreadId.lookup threadId with
  | none => state
  | some watcher =>
    let left := { watcher with receiverCount := watcher.receiverCount - 1 }
    { state with statusWatcherByThreadId := state.statusWatcherByThreadId.insert threadId left }

def runningTurnCount : ℕ :=
  countWhere RuntimeFacts.running state.runtimeByThreadId

end ThreadWatchState

inductive ThreadWatchActiveGuardType where
  | permission
  | userInput
  deriving DecidableEq

def modifyPendingCounter (guardType : ThreadWatchActiveGuardType) (f : ℕ → ℕ)
    (runtime : RuntimeFacts) : RuntimeFacts :=
  match guardType with
  | .permission =>
    { runtime with pendingPermissionRequests := f runtime.pendingPermissionRequests }
  | .userInput =>
    { runtime with pendingUserInputRequests := f runtime.pendingUserInputRequests }

/-- What turn ends, errors and shutdowns have in common. -/
def stopRunning (runtime : RuntimeFacts) : RuntimeFacts :=
  { runtime with running := false, pendingPermissionRequests := 0, pendingUserInputRequests := 0 }

/-- The calls that change what is known of a thread. -/
inductive Update where
  | upsertThread (threadId : Str)
  | upsertThreadSilently (threadId : Str)
  | removeThread (threadId : Str)
  | noteTurnStarted (threadId : Str)
  | noteTurnCompleted (threadId : Str) (failed : Bool)
  | noteTurnInterrupted (threadId : Str)
  | noteThreadShutdown (threadId : Str)
  | noteSystemError (threadId : Str)
  | notePendingRequest (threadId : Str) (guardType : ThreadWatchActiveGuardType)
  | noteActiveGuardReleased (threadId : Str) (guardType : ThreadWatchActiveGuardType)
  deriving DecidableEq

namespace Update

def threadId : Update → Str
  | upsertThread t | upsertThreadSilently t | removeThread t | noteTurnStarted t
  | noteTurnCompleted t _ | noteTurnInterrupted t | noteThreadShutdown t | noteSystemError t
  | notePendingRequest t _ | noteActiveGuardReleased t _ => t

/-- The mutation under the lock, with the notification it asks for. -/
def mutate (update : Update) (state : ThreadWatchState) :
    ThreadWatchState × Option ThreadStatusChangedNotification :=
  match update with
  | upsertThread t => state.upsertThread t true
  | upsertThreadSilently t => state.upsertThread t false
  | removeThread t => state.removeThread t
  | noteTurnStarted t => state.updateRuntime t fun runtime =>
    { runtime with isLoaded := true, running := true, hasSystemError := false }
  | noteTurnCompleted t _ => state.updateRuntime t stopRunning
  | noteTurnInterrupted t => state.updateRuntime t stopRunning
  | noteThreadShutdown t => state.updateRuntime t fun runtime =>
    { stopRunning runtime with isLoaded := false }
  | noteSystemError t => state.updateRuntime t fun runtime =>
    { stopRunning runtime with hasSystemError := true }
  | notePendingRequest t guardType => state.updateRuntime t fun runtime =>
    modifyPendingCounter guardType (fun count => min (count + 1) u32Max)
      { runtime with isLoaded := true }
  | noteActiveGuardReleased t guardType =>
    state.updateRuntime t (modifyPendingCounter guardType (· - 1))

end Update

def Update.entryAfter (update : Update) (entry : Option RuntimeFacts) : Option RuntimeFacts :=
  let runtime := { entry.getD .unknown with isLoaded := true }
  match update with
  | upsertThread _ | upsertThreadSilently _ => some runtime
  | removeThread _ => none
  | noteTurnStarted _ => some { runtime with running := true, hasSystemError := false }
  | noteTurnCompleted _ _ | noteTurnInterrupted _ => some (stopRunning runtime)
  | noteThreadShutdown _ => some { stopRunning runtime with isLoaded := false }
  | noteSystemError _ => some { stopRunning runtime with hasSystemError := true }
  | notePendingRequest _ guardType =>
    some (modifyPendingCounter guardType (fun count => min (count + 1) u32Max) runtime)
  | noteActiveGuardReleased _ guardType => some (modifyPendingCounter guardType (· - 1) runtime)

namespace ThreadWatchState

variable (st : ThreadWatchState) (t : Str)

@[simp] theorem runtime_updateStatusWatcher (s : ThreadStatus) :
    (st.updateStatusWatcher t s).runtimeByThreadId = st.runtimeByThreadId := by
  unfold updateStatusWatcher
  split <;> rfl

@[simp] theorem runtime_updateStatusWatcherForThread :
    (st.updateStatusWatcherForThread t).runtimeByThreadId = st.runtimeByThreadId :=
  runtime_updateStatusWatcher st t _

@[simp] theorem runtime_subscribe : (st.subscribe t).runtimeByThreadId = st.runtimeByThreadId := rfl

@[simp] theorem runtime_unsubscribe :
    (st.unsubscribe t).runtimeByThreadId = st.runtimeByThreadId := by
  unfold unsubscribe
  split <;> rfl

@[simp] theorem runtime_modifyRuntime (change : RuntimeFacts → RuntimeFacts) :
    (st.modifyRuntime t change).runtimeByThreadId = st.runtimeByThreadId.insert t
      (change ((st.runtimeByThreadId.lookup t).getD .unknown)) := rfl

end ThreadWatchState

variable (u : Update) (sa : ThreadWatchState)

theorem Update.runtime_mutate : (u.mutate sa).1.runtimeByThreadId =
      match u.entryAfter (sa.runtimeByThreadId.lookup u.threadId) with
      | none => sa.runtimeByThreadId.erase u.threadId
      | some runtime => sa.runtimeByThreadId.insert u.threadId runtime := by
  cases u <;>
    simp [mutate, entryAfter, threadId, ThreadWatchState.upsertThread,
      ThreadWatchState.removeThread, ThreadWatchState.updateRuntime]

variable {t : Str}

theorem Update.lookup_mutate_of_ne (h : t ≠ u.threadId) :
    (u.mutate sa).1.runtimeByThreadId.lookup t = sa.runtimeByThreadId.lookup t := by
  rw [runtime_mutate]
  split
  · exact lookup_erase_ne h
  · exact lookup_insert_ne h

theorem Update.lookup_mutate : (u.mutate sa).1.runtimeByThreadId.lookup u.threadId =
      u.entryAfter (sa.runtimeByThreadId.lookup u.threadId) := by
  rw [runtime_mutate]
  split <;> simp [*]

theorem loadedThreadStatus_eq_notLoaded :
    loadedThreadStatus r = .notLoaded ↔ r.isLoaded = false := by
  unfold loadedThreadStatus
  cases r.isLoaded with
  | false => simp
  | true =>
    simp only [Bool.not_true, Bool.false_eq_true, ↓reduceIte]
    split_ifs <;> simp

theorem ThreadWatchState.loadedStatusForThread_congr {sa sa' : ThreadWatchState}
    (h : sa'.runtimeByThreadId.lookup t = sa.runtimeByThreadId.lookup t) :
    sa'.loadedStatusForThread t = sa.loadedStatusForThread t := by
  rw [loadedStatusForThread, loadedStatusForThread, statusFor, statusFor, h]

/-- The calls after which their thread is not loaded. -/
def Update.unloads : Update → Bool
  | removeThread _ | noteThreadShutdown _ => true
  | _ => false

/-- The calls that load their thread: an upsert, a turn start, a new pending request. -/
def Update.loads : Update → Bool
  | upsertThread _ | upsertThreadSilently _ | noteTurnStarted _ | notePendingRequest _ _ => true
  | _ => false

/-- The calls that report the end of something on their thread: a turn end, an interruption, a
system error, a released guard. -/
def Update.windsDown : Update → Bool
  | noteTurnCompleted _ _ | noteTurnInterrupted _ | noteSystemError _
  | noteActiveGuardReleased _ _ => true
  | _ => false

theorem isLoaded_modifyPendingCounter (gt : ThreadWatchActiveGuardType) (f : ℕ → ℕ)
    (r : RuntimeFacts) : (modifyPendingCounter gt f r).isLoaded = r.isLoaded := by
  cases gt <;> rfl

theorem Update.notLoaded_mutate :
    (u.mutate sa).1.loadedStatusForThread u.threadId = .notLoaded ↔ u.unloads = true := by
  rw [ThreadWatchState.loadedStatusForThread, ThreadWatchState.statusFor, u.lookup_mutate]
  cases u <;>
    simp [entryAfter, unloads, loadedThreadStatus_eq_notLoaded, stopRunning,
      isLoaded_modifyPendingCounter]

/-- A `ThreadWatchActiveGuard`; the serial number tells apart the guards of one thread. -/
structure ActiveGuard where
  serial : ℕ
  threadId : Str
  guardType : ThreadWatchActiveGuardType
  deriving DecidableEq

def Update.plain : Update → Bool
  | notePendingRequest _ _ | noteActiveGuardReleased _ _ => false
  | _ => true

/-- The calls that reset the pending counters of their thread. -/
def Update.endsActivity : Update → Bool
  | noteTurnCompleted _ _ | noteTurnInterrupted _ | noteThreadShutdown _ | noteSystemError _ => true
  | _ => false

/-- The manager with the guards it handed out. `endedAt` keeps, for each thread, the number of
guards handed out when its activity was last ended. -/
structure Session where
  state : ThreadWatchState
  held : List ActiveGuard
  dropped : List ActiveGuard
  issued : ℕ
  endedAt : Str → ℕ

def Session.initial : Session := ⟨.empty, [], [], 0, fun _ => 0⟩

inductive Event where
  | call (update : Update)
  | request (threadId : Str) (guardType : ThreadWatchActiveGuardType)
  | drop (guard : ActiveGuard)
  | release (guard : ActiveGuard)
  | subscribe (threadId : Str)
  | unsubscribe (threadId : Str)
  deriving DecidableEq

def Event.update? : Event → Option Update
  | call update => some update
  | request t guardType => some (.notePendingRequest t guardType)
  | release guard => some (.noteActiveGuardReleased guard.threadId guard.guardType)
  | drop _ | subscribe _ | unsubscribe _ => none

section

variable (s : Session)

def Enabled : Event → Prop
  | .call update => update.plain = true
  | .drop guard => guard ∈ s.held
  | .release guard => guard ∈ s.dropped
  | .request _ _ | .subscribe _ | .unsubscribe _ => True

def next : Event → Session
  | .call update =>
    { s with
      state := (update.mutate s.state).1
      endedAt := if update.endsActivity then Function.update s.endedAt update.threadId s.issued
        else s.endedAt }
  | .request t guardType =>
    { s with
      state := (Update.mutate (.notePendingRequest t guardType) s.state).1
      held := s.held ++ [⟨s.issued, t, guardType⟩]
      issued := s.issued + 1 }
  | .drop guard => { s with held := s.held.erase guard, dropped := s.dropped ++ [guard] }
  | .release guard =>
    { s with
      state := (Update.mutate (.noteActiveGuardReleased guard.threadId guard.guardType) s.state).1
      dropped := s.dropped.erase guard }
  | .subscribe t => { s with state := s.state.subscribe t }
  | .unsubscribe t => { s with state := s.state.unsubscribe t }

def system : EventSystem Session Event := ⟨Enabled, next⟩

instance decidableSystem (event : Event) : Decidable (system.Enabled s event) := by
  cases event <;> dsimp only [system, Enabled] <;> infer_instance

variable (kind : Update → Bool)

/-- The event is a call about the thread, of the given kind. -/
def Concerns (t : Str) (event : Event) : Prop :=
  ∃ update ∈ event.update?, update.threadId = t ∧ kind update = true

instance decidableConcerns (t : Str) (event : Event) : Decidable (Concerns kind t event) :=
  inferInstanceAs (Decidable (∃ update ∈ event.update?, _))

theorem runtime_next (e : Event) : (next s e).state.runtimeByThreadId = match e.update? with
      | some update => (update.mutate s.state).1.runtimeByThreadId
      | none => s.state.runtimeByThreadId := by
  cases e <;> simp [next, Event.update?]

end

theorem lookup_next_of_not_concerns {e : Event} (h : ¬ Concerns (fun _ => true) t e) :
    (next s e).state.runtimeByThreadId.lookup t = s.state.runtimeByThreadId.lookup t := by
  rw [runtime_next]
  cases hu : e.update? with
  | none => rfl
  | some u =>
    apply Update.lookup_mutate_of_ne
    intro ht
    exact h ⟨u, hu, ht.symm, rfl⟩

theorem notLoaded_next_of_update {e : Event} {u : Update} (h : e.update? = some u) :
    (next s e).state.loadedStatusForThread u.threadId = .notLoaded ↔ u.unloads = true := by
  rw [← u.notLoaded_mutate]
  have hr := runtime_next s e
  rw [h] at hr
  rw [ThreadWatchState.loadedStatusForThread_congr (congrArg (lookup _) hr)]

theorem Update.unloads_or : u.unloads = true ∨ u.loads = true ∨ u.windsDown = true := by
  cases u <;> simp [unloads, loads, windsDown]

theorem Update.not_unloads_of_windsDown {u : Update} (h : u.windsDown = true) :
    ¬ u.unloads = true := by
  cases u <;> simp_all [unloads, windsDown]

/-- One event keeps a thread that is not loaded so, unless it loads the thread or winds it
down. -/
theorem notLoaded_next_iff {event : Event} (hs : s.state.loadedStatusForThread t = .notLoaded)
    (hl : ¬ Concerns Update.loads t event) :
    (next s event).state.loadedStatusForThread t = .notLoaded ↔
      ¬ Concerns Update.windsDown t event := by
  by_cases hc : Concerns (fun _ => true) t event
  · obtain ⟨u, hu, rfl, -⟩ := hc
    rw [notLoaded_next_of_update hu]
    constructor
    · rintro hun ⟨other, ho, -, hw⟩
      obtain rfl : u = other := Option.some.inj (hu.symm.trans ho)
      exact Update.not_unloads_of_windsDown hw hun
    · intro hw
      rcases u.unloads_or with hun | hld | hwn
      · exact hun
      · exact absurd ⟨u, hu, rfl, hld⟩ hl
      · exact absurd ⟨u, hu, rfl, hwn⟩ hw
  · rw [ThreadWatchState.loadedStatusForThread_congr (lookup_next_of_not_concerns hc), hs]
    simp only [true_iff]
    rintro ⟨u, hu, ht, -⟩
    exact hc ⟨u, hu, ht, rfl⟩

theorem notLoaded_run_iff (hs : s.state.loadedStatusForThread t = .notLoaded)
    (hld : ∀ event ∈ es, ¬ Concerns Update.loads t event) :
    (∀ b, b <+: es → (system.run b s).state.loadedStatusForThread t = .notLoaded) ↔
      ∀ event ∈ es, ¬ Concerns Update.windsDown t event := by
  induction es generalizing s with
  | nil => simp [hs, EventSystem.run]
  | cons event es ih =>
    have hst := notLoaded_next_iff hs (hld event List.mem_cons_self)
    have hl := fun event h => hld event (List.mem_cons_of_mem _ h)
    rw [List.forall_mem_cons]
    constructor
    · intro ha
      have hn := ha [event] ⟨es, rfl⟩
      refine ⟨hst.mp hn, (ih hn hl).mp ?_⟩
      intro b hb
      exact ha (event :: b) (List.cons_prefix_cons.mpr ⟨rfl, hb⟩)
    · rintro ⟨hf, hr⟩ b hb
      have hn := hst.mpr hf
      cases b with
      | nil => exact hs
      | cons first b =>
        obtain ⟨rfl, hbg⟩ := List.cons_prefix_cons.mp hb
        exact (ih hn hl).mpr hr b hbg

/-- After a shutdown or a removal of a thread, as long as nothing loads it again, it stays not
loaded exactly if no turn end, interruption, system error or guard release of it comes in. -/
theorem stays_unloaded_iff (s : Session) (t : Str) (ended : Update)
    (hended : ended = .noteThreadShutdown t ∨ ended = .removeThread t) (events : List Event)
    (hloads : ∀ event ∈ events, ¬ Concerns Update.loads t event) :
    (∀ before, before <+: events →
      (system.run before (next s (.call ended))).state.loadedStatusForThread t = .notLoaded) ↔
      ∀ event ∈ events, ¬ Concerns Update.windsDown t event := by
  apply notLoaded_run_iff _ hloads
  have ht : ended.threadId = t := by
    rcases hended with rfl | rfl <;> rfl
  have hu : (Event.call ended).update? = some ended := rfl
  rw [← ht]
  apply (notLoaded_next_of_update hu).mpr
  rcases hended with rfl | rfl <;> rfl

def worker : Str := "t"

def quietCalls : List Event :=
  [.call (.removeThread worker), .request "u" .permission, .subscribe worker]

theorem stays_unloaded_worker : (system.run quietCalls
      (next .initial (.call (.noteThreadShutdown worker)))).state.loadedStatusForThread worker =
      .notLoaded := by
  have hl : ∀ event ∈ quietCalls, ¬ Concerns Update.loads worker event := by decide
  have hw : ∀ event ∈ quietCalls, ¬ Concerns Update.windsDown worker event := by decide
  exact (stays_unloaded_iff .initial worker (.noteThreadShutdown worker) (.inl rfl) _ hl).mpr
    hw _ List.prefix_rfl

/-- A guard dropped before the shutdown and released after it makes the thread idle again. -/
theorem late_release_loads :
    let guard : ActiveGuard := ⟨0, worker, .permission⟩
    let es : List Event := [.request worker .permission, .call (.noteThreadShutdown worker),
      .drop guard, .release guard]
    system.Allows EventSystem.always es .initial ∧
      (system.run es .initial).state.loadedStatusForThread worker = .idle := by
  decide

end ThreadWatch
