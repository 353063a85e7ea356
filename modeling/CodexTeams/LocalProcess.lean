import CodexTeams.ProcessEvents
import Mathlib.Data.Finset.Basic

/-! The processes of one exec server: starting, terminating and shutting down at the same time. An
event is what happens under one acquisition of the lock, or between two of them. -/
namespace LocalProcess

open RustStr Runs ProcessEvents Function Finset Option EventSystem.Reaches

abbrev ProcessId := Str

/-- A call of `start_process`, and the process it spawns. -/
abbrev StartId := ℕ

abbrev ShutdownId := ℕ

inductive ProcessEntry
  | starting
  /-- The session is that of the process spawned by the call. -/
  | running (session : StartId) (process : RunningProcess)
  deriving DecidableEq, Repr

def ProcessEntry.session : ProcessEntry → Option StartId
  | .starting => none
  | .running session _ => some session

inductive StartPhase
  | begun
  | reserved
  | spawned
  | spawnFailed (error : Str)
  | started
  | failed (message : Str)
  deriving DecidableEq, Repr

namespace StartPhase

/-- Between reserving its id and giving it back or putting in its process. -/
def inFlight : StartPhase → Bool
  | .reserved | .spawned | .spawnFailed _ => true
  | _ => false

def returned : StartPhase → Bool
  | .started | .failed _ => true
  | _ => false

end StartPhase

structure Start where
  processId : ProcessId
  phase : StartPhase
  deriving Repr

inductive ProcessStatus
  | running
  | exited (exitCode : ℤ)
  | terminated
  deriving DecidableEq, Repr

inductive ShutdownPhase
  | begun
  | terminating
  | returned
  deriving DecidableEq, Repr

structure Shutdown where
  before : Finset StartId
  remaining : Finset StartId
  phase : ShutdownPhase

structure State where
  processes : ProcessId → Option ProcessEntry
  begun : Finset StartId
  starts : StartId → Option Start
  /-- The processes of the system, by the call that spawned them. -/
  status : StartId → Option ProcessStatus
  shutdowns : ShutdownId → Option Shutdown

def State.new : State := ⟨fun _ => none, ∅, fun _ => none, fun _ => none, fun _ => none⟩

inductive Event
  | begin (start : StartId) (processId : ProcessId) (argv : List Str)
  | reserve (start : StartId)
  | spawn (start : StartId) (error : Option Str)
  | install (start : StartId)
  | giveBack (start : StartId)
  | exit (start : StartId) (exitCode : ℤ)
  /-- What the tasks of a process do to the entry of its id. -/
  | output (start : StartId) (stream : ExecOutputStream) (chunk : List UInt8)
  | finishStream (start : StartId)
  | watchExit (start : StartId)
  | emitClosed (start : StartId)
  | cleanUp (processId : ProcessId)
  | terminate (processId : ProcessId)
  | beginShutdown (shutdown : ShutdownId)
  | drain (shutdown : ShutdownId)
  | terminateNext (shutdown : ShutdownId) (start : StartId)
  | finishShutdown (shutdown : ShutdownId)

section

variable (s : State)

def State.startPhase (start : StartId) : Option StartPhase :=
  (s.starts start).map Start.phase

variable (shutdown : ShutdownId)

def State.shutdownPhase : Option ShutdownPhase :=
  (s.shutdowns shutdown).map Shutdown.phase

def State.remaining : Finset StartId :=
  ((s.shutdowns shutdown).map Shutdown.remaining).getD ∅

def Enabled : Event → Prop
  | .begin start _ _ => s.starts start = none ∧ s.status start = none
  | .reserve start => s.startPhase start = some .begun
  | .spawn start _ => s.startPhase start = some .reserved
  | .install start => s.startPhase start = some .spawned
  | .giveBack start => ∃ error, s.startPhase start = some (.spawnFailed error)
  | .exit start _ => s.status start = some .running
  | .output start _ _ | .finishStream start | .emitClosed start =>
    s.startPhase start = some .started
  | .watchExit start => s.startPhase start = some .started ∧ s.status start ≠ some .running
  | .cleanUp _ | .terminate _ => True
  | .beginShutdown shutdown => s.shutdowns shutdown = none
  | .drain shutdown => s.shutdownPhase shutdown = some .begun
  | .terminateNext shutdown start =>
    s.shutdownPhase shutdown = some .terminating ∧ start ∈ s.remaining shutdown
  | .finishShutdown shutdown =>
    s.shutdownPhase shutdown = some .terminating ∧ s.remaining shutdown = ∅

end

variable (start : StartId)

def terminateProcess (s : State) : State :=
  { s with
    status := update s.status start
      (if s.status start = some .running then some .terminated else s.status start) }

def dropEntry (entry : Option ProcessEntry) (s : State) : State :=
  match entry.bind ProcessEntry.session with
  | none => s
  | some session => terminateProcess session s

variable (processId : ProcessId)

def setEntry (entry : Option ProcessEntry) (s : State) : State :=
  { s with processes := update s.processes processId entry }

def setStart (call : Start) (s : State) : State :=
  { s with starts := update s.starts start (some call) }

def setShutdown (shutdown : ShutdownId) (call : Shutdown) (s : State) : State :=
  { s with shutdowns := update s.shutdowns shutdown (some call) }

def alreadyExists : Str :=
  "process " ++ processId ++ " already exists"

def argvMustNotBeEmpty : Str := "argv must not be empty"

variable (argv : List Str)

def checkArgv : StartPhase :=
  if argv = [] then .failed argvMustNotBeEmpty else .begun

section

variable (s : State)

def begin : State :=
  setStart start ⟨processId, checkArgv argv⟩ { s with begun := insert start s.begun }

def advance (f : Start → State → State) (s : State) : State :=
  match s.starts start with
  | none => s
  | some call => f call s

def reserve : State → State :=
  advance start fun call s =>
    match s.processes call.processId with
    | some _ => setStart start { call with phase := .failed (alreadyExists call.processId) } s
    | none =>
      setStart start { call with phase := .reserved } (setEntry call.processId (some .starting) s)

def spawn (error : Option Str) : State → State :=
  advance start fun call s =>
    match error with
    | some error => setStart start { call with phase := .spawnFailed error } s
    | none =>
      setStart start { call with phase := .spawned }
        { s with status := update s.status start (some .running) }

/-- The entry is put in whatever is there; what was there is dropped. -/
def install : State → State :=
  advance start fun call s =>
    setStart start { call with phase := .started }
      (setEntry call.processId (some (.running start .new))
        (dropEntry (s.processes call.processId) s))

/-- Only a marker is taken out after a failed spawn. -/
def giveBack : State → State :=
  advance start fun call s =>
    match call.phase with
    | .spawnFailed error =>
      setStart start { call with phase := .failed error }
        (if s.processes call.processId = some .starting then setEntry call.processId none s else s)
    | _ => s

/-- The running process under the id of a call, whichever call put it in. -/
def updateRunning (f : RunningProcess → RunningProcess) : State → State :=
  advance start fun call s =>
    match s.processes call.processId with
    | some (.running session process) =>
      setEntry call.processId (some (.running session (f process))) s
    | _ => s

def watchExit : State :=
  let exitCode :=
    match s.status start with
    | some (.exited exitCode) => exitCode
    | _ => -1
  updateRunning start (·.exit exitCode) s

def emitClosed : State → State :=
  updateRunning start fun process => if process.closes then process.close else process

def cleanUp : State :=
  match s.processes processId with
  | some (.running session process) =>
    if process.closed then
      setEntry processId none (dropEntry (some (.running session process)) s)
    else s
  | _ => s

def terminate : Bool × State :=
  match s.processes processId with
  | some (.running session process) =>
    if process.exitCode.isSome then (false, s) else (true, terminateProcess session s)
  | _ => (false, s)

end

section

variable (s : State)

def sessions : Finset StartId :=
  s.begun.filter fun start =>
    (s.starts start).any fun call =>
      (s.processes call.processId).bind ProcessEntry.session = some start

def drain (shutdown : ShutdownId) (s : State) : State :=
  match s.shutdowns shutdown with
  | none => s
  | some call =>
    setShutdown shutdown { call with phase := .terminating, remaining := sessions s }
      { s with processes := fun _ => none }

def next (s : State) : Event → State
  | .begin start processId argv => begin start processId argv s
  | .reserve start => reserve start s
  | .spawn start error => spawn start error s
  | .install start => install start s
  | .giveBack start => giveBack start s
  | .exit start exitCode =>
    { s with status := update s.status start (some (.exited exitCode)) }
  | .output start stream chunk => updateRunning start (·.pushOutput stream chunk) s
  | .finishStream start => updateRunning start RunningProcess.finishOutputStream s
  | .watchExit start => watchExit start s
  | .emitClosed start => emitClosed start s
  | .cleanUp processId => cleanUp processId s
  | .terminate processId => (terminate processId s).2
  | .beginShutdown shutdown => setShutdown shutdown ⟨s.begun, ∅, .begun⟩ s
  | .drain shutdown => drain shutdown s
  | .terminateNext shutdown start =>
    match s.shutdowns shutdown with
    | none => s
    | some call =>
      terminateProcess start
        (setShutdown shutdown { call with remaining := call.remaining.erase start } s)
  | .finishShutdown shutdown =>
    match s.shutdowns shutdown with
    | none => s
    | some call => setShutdown shutdown { call with phase := .returned } s

def backend : EventSystem State Event := ⟨Enabled, next⟩

/-- A shutdown drains the processes when every start begun before it has returned, no start is on
its way and no other shutdown has processes left to terminate; and no start reserves an id under
which a shutdown still has a process to terminate. -/
def Orderly : Event → Prop
  | .drain shutdown =>
    (∀ call, s.shutdowns shutdown = some call → ∀ start ∈ call.before, ∀ begun,
      s.starts start = some begun → begun.phase.returned = true) ∧
    (∀ processId, s.processes processId ≠ some .starting) ∧
    ∀ other, other ≠ shutdown → s.remaining other = ∅
  | .reserve start => ∀ call shutdown other begun, s.starts start = some call →
      other ∈ s.remaining shutdown → s.starts other = some begun →
      begun.processId ≠ call.processId
  | _ => True

/-- Once a shutdown and the starts begun before it have returned, none of their processes runs. -/
def NothingLeft : Prop :=
  ∀ shutdown call, s.shutdowns shutdown = some call → call.phase = .returned →
    (∀ start ∈ call.before, ∀ begun, s.starts start = some begun → begun.phase.returned = true) →
    ∀ start ∈ call.before, s.status start ≠ some .running

/-- No two running processes have one id. -/
def IdsUnique : Prop :=
  ∀ start other call call', s.status start = some .running → s.status other = some .running →
    s.starts start = some call → s.starts other = some call' →
    call.processId = call'.processId → start = other

/-- What the map holds under an id: nothing, a marker, or the process of a call. -/
def State.slot (processId : ProcessId) : Option (Option StartId) :=
  (s.processes processId).map ProcessEntry.session

end

/-- How starts, processes and shutdowns hang together along an orderly run. -/
structure Inv (s : State) : Prop where
  begun : ∀ start, start ∈ s.begun ↔ (s.starts start).isSome = true
  marked : ∀ start call, s.starts start = some call → call.phase.inFlight = true →
    s.slot call.processId = some none
  unique : ∀ start other call call', s.starts start = some call →
    s.starts other = some call' → call.phase.inFlight = true → call'.phase.inFlight = true →
    call.processId = call'.processId → start = other
  running : ∀ start, s.status start = some .running → ∃ call, s.starts start = some call ∧
    (call.phase = .spawned ∨ call.phase = .started ∧
      (s.slot call.processId = some (some start) ∨ ∃ shutdown, start ∈ s.remaining shutdown))
  owned : ∀ processId start, s.slot processId = some (some start) → ∃ call,
    s.starts start = some call ∧ call.processId = processId ∧ call.phase = .started
  remaining : ∀ shutdown start, start ∈ s.remaining shutdown → ∃ call,
    s.starts start = some call ∧ call.phase = .started ∧ s.slot call.processId = none
  distinct : ∀ shutdown shutdown' start other call call', start ∈ s.remaining shutdown →
    other ∈ s.remaining shutdown' → s.starts start = some call → s.starts other = some call' →
    call.processId = call'.processId → start = other
  idle : ∀ shutdown call, s.shutdowns shutdown = some call → call.phase ≠ .terminating →
    call.remaining = ∅
  before : ∀ shutdown call, s.shutdowns shutdown = some call → call.before ⊆ s.begun
  swept : ∀ shutdown call, s.shutdowns shutdown = some call → call.phase ≠ .begun →
    ∀ start ∈ call.before, (∀ begun, s.starts start = some begun → begun.phase.returned = true) ∧
      (s.status start = some .running → start ∈ call.remaining)

section Preservation

variable {s : State}

theorem remaining_of_some {c : Shutdown}
    (h : s.shutdowns sh = some c) : s.remaining sh = c.remaining := by
  simp [State.remaining, h]

theorem startPhase_eq (h : s.startPhase st = some phase) :
    ∃ c, s.starts st = some c ∧ c.phase = phase := by
  simpa [State.startPhase] using h

theorem shutdownPhase_eq (h : s.shutdownPhase sh = some phase) :
    ∃ c, s.shutdowns sh = some c ∧ c.phase = phase := by
  simpa [State.shutdownPhase] using h

theorem advance_eq (h : s.starts st = some c)
    (f : Start → State → State) : advance st f s = f c s := by
  simp [advance, h]

theorem Inv.weaken (h : Inv s) (hsl : ∀ i, s'.slot i = s.slot i)
    (hb : s'.begun = s.begun) (hs : s'.starts = s.starts) (hsh : s'.shutdowns = s.shutdowns)
    (hst : ∀ st, s'.status st = some .running → s.status st = some .running) : Inv s' := by
  obtain ⟨ps, b, ss, stat, shs⟩ := s'
  cases hb
  cases hs
  cases hsh
  refine { h with marked := ?_, running := ?_, owned := ?_, remaining := ?_, swept := ?_ }
  · exact fun st c hc hf => (hsl _).trans (h.marked st c hc hf)
  · intro st hrn
    simp only [hsl]
    exact h.running st (hst st hrn)
  · exact fun i st he => h.owned i st ((hsl i).symm.trans he)
  · intro sh st hm
    simp only [hsl]
    exact h.remaining sh st hm
  · intro sh c hc hp st hbf
    obtain ⟨hrt, hrm⟩ := h.swept sh c hc hp st hbf
    exact ⟨hrt, fun hrn => hrm (hst st hrn)⟩

theorem terminateProcess_status (h : (terminateProcess st s).status o = some .running) :
    o ≠ st ∧ s.status o = some .running := by
  change update s.status st _ o = some .running at h
  by_cases heq : o = st
  · subst heq
    rw [update_self] at h
    split at h
    · cases h
    · next hn => exact absurd h hn
  · rw [update_of_ne heq] at h
    exact ⟨heq, h⟩

theorem Inv.terminateProcess (h : Inv s) (st : StartId) : Inv (terminateProcess st s) :=
  h.weaken (fun _ => rfl) rfl rfl rfl fun _ hr => (terminateProcess_status hr).2

theorem slot_setEntry (i other : ProcessId) (e : Option ProcessEntry) (s : State) :
    (setEntry i e s).slot other =
      if other = i then e.map ProcessEntry.session else s.slot other := by
  by_cases heq : other = i
  · simp only [State.slot, setEntry, heq, update_self, if_true]
  · simp [State.slot, setEntry, update_of_ne heq, if_neg heq]

theorem starting_of_slot (h : s.slot i = some none) : s.processes i = some .starting := by
  rw [State.slot] at h
  rcases hp : s.processes i with _ | _ | _ <;> rw [hp] at h <;> cases h

theorem remaining_setShutdown (sh other : ShutdownId) (c : Shutdown) (s : State) :
    (setShutdown sh c s).remaining other =
      if other = sh then c.remaining else s.remaining other := by
  by_cases heq : other = sh
  · subst heq
    rw [if_pos rfl]
    exact remaining_of_some (update_self ..)
  · rw [if_neg heq, State.remaining, State.remaining]
    simp [setShutdown, update_of_ne heq]

theorem mem_sessions : st ∈ sessions s ↔ st ∈ s.begun ∧ ∃ c, s.starts st = some c ∧
      s.slot c.processId = some (some st) := by
  have hs : ∀ i, (s.processes i).bind ProcessEntry.session = some st ↔
      s.slot i = some (some st) := by
    intro i
    unfold State.slot
    cases s.processes i <;> simp
  simp [sessions, any_eq_true, hs]

variable (h : Inv s)

include h

theorem Inv.updateRunning (st : StartId) (f : RunningProcess → RunningProcess) :
    Inv (updateRunning st f s) := by
  unfold LocalProcess.updateRunning advance
  split
  · exact h
  · next call hc =>
    dsimp only
    split
    · next session p he =>
      refine h.weaken (fun i => ?_) rfl rfl rfl fun _ hr => hr
      rw [slot_setEntry]
      split
      · next heq =>
        rw [heq, State.slot, he]
        rfl
      · rfl
    · exact h

/-- An entry may be replaced when its process does not run, those whose marker has to be there find
it there, and nothing is put under the id of a process that a shutdown has yet to terminate. -/
theorem Inv.withEntry (ho : ∀ st, e.map ProcessEntry.session = some (some st) → ∃ c, s.starts st =
      some c ∧ c.processId = processId ∧ c.phase = .started)
    (hst : ∀ st, s.slot processId = some (some st) → s.status st ≠ some .running)
    (hf : ∀ st c, s.starts st = some c → c.phase.inFlight = true → c.processId = processId → e.map
      ProcessEntry.session = some none) (hrm : ∀ sh st c, st ∈ s.remaining sh → s.starts st = some c
      → c.processId = processId → e = none) : Inv (setEntry processId e s) := by
  refine { h with marked := ?_, running := ?_, owned := ?_, remaining := ?_ }
  · intro st c hc hp
    rw [slot_setEntry]
    split
    · next heq => exact hf st c hc hp heq
    · exact h.marked st c hc hp
  · intro st hr
    obtain ⟨c, hc, hp⟩ := h.running st hr
    refine ⟨c, hc, hp.imp_right fun ⟨hs, hw⟩ => ⟨hs, ?_⟩⟩
    refine hw.imp_left fun he => ?_
    have hne : c.processId ≠ processId := by
      rintro rfl
      exact hst st he hr
    rw [slot_setEntry, if_neg hne]
    exact he
  · intro o st he
    rw [slot_setEntry] at he
    split at he
    · next heq => exact heq ▸ ho st he
    · exact h.owned o st he
  · intro sh st hm
    obtain ⟨c, hc, hs, hn⟩ := h.remaining sh st hm
    refine ⟨c, hc, hs, ?_⟩
    rw [slot_setEntry]
    split
    · next heq => rw [hrm sh st c hm hc heq, map_none]
    · exact hn

theorem Inv.cleanUp (i : ProcessId) : Inv (cleanUp i s) := by
  unfold LocalProcess.cleanUp
  split
  case h_1 session process he =>
    have hs : s.slot i = some (some session) := by
      rw [State.slot, he]
      rfl
    split
    · apply (h.terminateProcess session).withEntry
      · exact fun sr he => by cases he
      · intro sr hst hr
        rw [show s.slot i = some (some sr) from hst, some.injEq, some.injEq] at hs
        exact (terminateProcess_status hr).1 hs
      · intro sr call hc hf heq
        have hm := h.marked sr call hc hf
        rw [heq, hs] at hm
        cases hm
      · exact fun _ _ _ _ _ _ => rfl
    · exact h
  case h_2 => exact h

theorem Inv.withStart (hol : ∀ c, s.starts sr = some c → c.phase.returned = false)
    (hmr : new.phase.inFlight = true → s.slot new.processId = some none) (hu : new.phase.inFlight =
      true → ∀ o c, s.starts o = some c → c.phase.inFlight = true → new.processId = c.processId → sr
      = o) (hrn : s.status sr = some .running → new.phase = .spawned) :
    Inv (setStart sr new { s with begun := insert sr s.begun }) := by
  have ho : ∀ {o : StartId} {f : Start}, o ≠ sr → s.starts o = some f →
      update s.starts sr (some new) o = some f :=
    fun hne hf => (update_of_ne hne ..).trans hf
  have hn : ∀ {o : StartId} {f : Start}, s.starts o = some f → f.phase = .started → o ≠ sr := by
    rintro o f hf hp rfl
    cases (hp ▸ hol f hf : StartPhase.started.returned = false)
  refine ⟨?_, ?_, ?_, ?_, ?_, ?_, ?_, h.idle, ?_, ?_⟩
  · intro o
    change o ∈ insert sr s.begun ↔ (update s.starts sr _ o).isSome = true
    by_cases heq : o = sr
    · subst heq
      rw [update_self]
      exact ⟨fun _ => rfl, fun _ => mem_insert_self _ _⟩
    · rw [mem_insert, update_of_ne heq, ← h.begun]
      exact or_iff_right heq
  · exact forall_update_some h.marked hmr
  · intro first sc f f' hf hf' hfl hfl' heq
    rcases update_some_cases hf with ⟨rfl, rfl⟩ | ⟨_, hfr⟩
    · rcases update_some_cases hf' with ⟨rfl, rfl⟩ | ⟨_, hs⟩
      · rfl
      · exact hu hfl sc f' hs hfl' heq
    · rcases update_some_cases hf' with ⟨rfl, rfl⟩ | ⟨_, hs⟩
      · exact (hu hfl' first f hfr hfl heq.symm).symm
      · exact h.unique first sc f f' hfr hs hfl hfl' heq
  · intro o ho'
    by_cases heq : o = sr
    · subst heq
      exact ⟨_, update_self .., .inl (hrn ho')⟩
    · obtain ⟨f, hf, hp⟩ := h.running o ho'
      exact ⟨f, ho heq hf, hp⟩
  · intro i o he
    obtain ⟨f, hf, hid, hp⟩ := h.owned i o he
    exact ⟨f, ho (hn hf hp) hf, hid, hp⟩
  · intro sh o hm
    obtain ⟨f, hf, hp, hnn⟩ := h.remaining sh o hm
    exact ⟨f, ho (hn hf hp) hf, hp, hnn⟩
  · intro sh sh' first sc f f' hm hm' hf hf'
    obtain ⟨f₁, hf₁, hp₁, _⟩ := h.remaining sh first hm
    obtain ⟨f₂, hf₂, hp₂, _⟩ := h.remaining sh' sc hm'
    cases (ho (hn hf₁ hp₁) hf₁).symm.trans hf
    cases (ho (hn hf₂ hp₂) hf₂).symm.trans hf'
    exact h.distinct sh sh' first sc _ _ hm hm' hf₁ hf₂
  · exact fun sh c hc => (h.before sh c hc).trans (subset_insert _ _)
  · intro sh f hf hp o hbf
    obtain ⟨hrt, hrm⟩ := h.swept sh f hf hp o hbf
    refine ⟨fun begun hb => ?_, hrm⟩
    rcases update_some_cases hb with ⟨rfl, _⟩ | ⟨_, hb⟩
    · obtain ⟨c, hc⟩ :=
        isSome_iff_exists.mp ((h.begun o).mp (h.before sh f hf hbf))
      cases (hol c hc).symm.trans (hrt c hc)
    · exact hrt begun hb

theorem Inv.setPhase (hc : s.starts st = some c)
    (hm : phase.inFlight = true → s.slot c.processId = some none) (hu : phase.inFlight = true → ∀ o
      c', s.starts o = some c' → c'.phase.inFlight = true → c.processId = c'.processId → st = o)
    (hrn : s.status st = some .running → phase = .spawned) (hr : c.phase.returned = false) :
    Inv (setStart st { c with phase := phase } s) := by
  have hst : Inv (setStart st { c with phase := phase } { s with begun := insert st s.begun }) := by
    refine h.withStart (fun f hf => ?_) hm hu hrn
    cases hc.symm.trans hf
    exact hr
  rwa [insert_eq_of_mem ((h.begun st).mpr (by rw [hc]; rfl))] at hst

theorem Inv.land (hc : s.starts st = some c) (hp : phase.inFlight = false)
    (hrn : s.status st ≠ some .running) (hr : c.phase.returned = false) :
    Inv (setStart st { c with phase := phase } s) := by
  have hf : phase.inFlight ≠ true := by rw [hp]; decide
  exact h.setPhase hc (absurd · hf) (absurd · hf) (absurd · hrn) hr

theorem Inv.begin (hn : s.starts st = none)
    (hs : s.status st = none) (i : ProcessId) (a : List Str) : Inv (begin st i a s) := by
  have hp : (checkArgv a).inFlight ≠ true := by
    unfold checkArgv
    split <;> decide
  apply h.withStart
  · exact fun call hc => by cases hn.symm.trans hc
  · exact fun hf => absurd hf hp
  · exact fun hf => absurd hf hp
  · exact fun hr => by cases hs.symm.trans hr

theorem Inv.withStatus (status : Option ProcessStatus) (hc : s.starts sr = some c)
    (hw : c.phase = .spawned ∨ c.phase = .started ∧ s.slot c.processId = some (some sr))
    (hb : ∀ sh f, s.shutdowns sh = some f → f.phase ≠ .begun → sr ∉ f.before) :
    Inv { s with status := update s.status sr status } := by
  refine { h with running := ?_, swept := ?_ }
  · intro o hr
    by_cases heq : o = sr
    · subst heq
      exact ⟨c, hc, hw.imp_right fun ⟨hs, he⟩ => ⟨hs, .inl he⟩⟩
    · exact h.running o ((update_of_ne heq ..).symm.trans hr)
  · intro sh f hf hp o ho
    obtain ⟨hrt, hrm⟩ := h.swept sh f hf hp o ho
    have hne : o ≠ sr := by
      rintro rfl
      exact hb sh f hf hp ho
    exact ⟨hrt, fun hr => hrm ((update_of_ne hne ..).symm.trans hr)⟩

theorem Inv.notMem_before (hc : s.starts st = some c) (hr : c.phase.returned = false)
    (sh : ShutdownId) (f : Shutdown) (hf : s.shutdowns sh = some f)
    (hp : f.phase ≠ .begun) : st ∉ f.before := by
  intro hb
  rw [(h.swept sh f hf hp st hb).1 c hc] at hr
  cases hr

theorem Inv.not_running (hc : s.starts st = some c) (hs : c.phase ≠ .spawned)
    (hr : c.phase.returned = false) : s.status st ≠ some .running := by
  intro hrn
  obtain ⟨f, hf, hp⟩ := h.running st hrn
  cases hc.symm.trans hf
  rcases hp with hp | ⟨hp, _⟩
  · exact hs hp
  · rw [hp] at hr
    cases hr

theorem Inv.ne_of_inFlight (hc : s.starts st = some c) (hf : c.phase.inFlight = true)
    (hp : phase.inFlight = false)
    (ho : update s.starts st (some { c with phase := phase }) o = some f)
    (hf' : f.phase.inFlight = true) : f.processId ≠ c.processId := by
  intro heq
  rcases update_some_cases ho with ⟨rfl, rfl⟩ | ⟨hne, hol⟩
  · cases hp.symm.trans hf'
  · exact hne (h.unique st o c f hc hol hf hf' heq.symm).symm

theorem Inv.reserve (hp : s.startPhase st = some .begun)
    (hor : Orderly s (.reserve st)) : Inv (reserve st s) := by
  obtain ⟨call, hc, hb⟩ := startPhase_eq hp
  have hrt : call.phase.returned = false := by rw [hb]; rfl
  have hi := h.not_running hc (by rw [hb]; decide) hrt
  rw [LocalProcess.reserve, advance_eq hc]
  cases he : s.processes call.processId with
  | some e => exact h.land hc rfl hi hrt
  | none =>
    have hfr : s.slot call.processId = none := by
      rw [State.slot, he]
      rfl
    have hm : Inv (setEntry call.processId (some .starting) s) := by
      apply h.withEntry
      · exact fun st he => by cases he
      · exact fun st he => by cases hfr.symm.trans he
      · exact fun _ _ _ _ _ => rfl
      · intro sh o b hmm ho heq
        exact absurd heq (hor call sh o b hc hmm ho)
    apply hm.setPhase hc
    · intro _
      rw [slot_setEntry, if_pos rfl]
      rfl
    · intro _ o call' ho hf heq
      have hsl := h.marked o call' ho hf
      rw [← heq, hfr] at hsl
      cases hsl
    · exact fun hr => absurd hr hi
    · exact hrt

theorem Inv.spawn (hp : s.startPhase st = some .reserved)
    (e : Option Str) : Inv (spawn st e s) := by
  obtain ⟨call, hc, hr⟩ := startPhase_eq hp
  have hf : call.phase.inFlight = true := by rw [hr]; rfl
  have hrt : call.phase.returned = false := by rw [hr]; rfl
  have hi := h.not_running hc (by rw [hr]; decide) hrt
  have hsl := h.marked st call hc hf
  have hu := fun o call' ho hf' =>
    h.unique st o call call' hc ho hf hf'
  rw [LocalProcess.spawn, advance_eq hc]
  cases e with
  | some e => exact h.setPhase hc (fun _ => hsl) (fun _ => hu) (absurd · hi) hrt
  | none =>
    -- the phase first: the process that runs from here on is that of a spawned call
    have hsp : Inv (setStart st { call with phase := .spawned } s) :=
      h.setPhase hc (fun _ => hsl) (fun _ => hu) (fun _ => rfl) hrt
    exact hsp.withStatus (some .running) (update_self ..) (.inl rfl) (h.notMem_before hc hrt)

theorem Inv.giveBack (hph : s.startPhase st = some (.spawnFailed error)) :
    Inv (giveBack st s) := by
  obtain ⟨call, hc, hfl⟩ := startPhase_eq hph
  have hf : call.phase.inFlight = true := by rw [hfl]; rfl
  have hs := h.marked st call hc hf
  have hrt : call.phase.returned = false := by rw [hfl]; rfl
  have hi := h.not_running hc (by rw [hfl]; exact StartPhase.noConfusion) hrt
  have hr : Inv (setStart st { call with phase := .failed error } s) := h.land hc rfl hi hrt
  rw [LocalProcess.giveBack, advance_eq hc]
  simp only [hfl, starting_of_slot hs, if_true]
  apply hr.withEntry
  · exact fun o ho => by cases ho
  · exact fun o ho => by cases hs.symm.trans ho
  · exact fun o f hfn hf' heq => absurd heq (h.ne_of_inFlight hc hf rfl hfn hf')
  · exact fun _ _ _ _ _ _ => rfl

theorem Inv.install (hph : s.startPhase st = some .spawned) : Inv (install st s) := by
  obtain ⟨call, hc, hs⟩ := startPhase_eq hph
  have hf : call.phase.inFlight = true := by rw [hs]; rfl
  have hsl := h.marked st call hc hf
  have hd : dropEntry (s.processes call.processId) s = s := by
    rw [starting_of_slot hsl]
    rfl
  rw [LocalProcess.install, advance_eq hc, hd]
  -- with the process taken not to run in between, the phase and the entry can change in turn
  let idle : State := { s with status := update s.status st none }
  have hi : Inv idle := by
    refine h.weaken (fun _ => rfl) rfl rfl rfl fun o hr => ?_
    by_cases heq : o = st
    · subst heq
      cases (update_self ..).symm.trans hr
    · exact (update_of_ne heq ..).symm.trans hr
  have hn : idle.status st ≠ some .running := fun hr => by
    cases (update_self ..).symm.trans hr
  have hst : Inv (setStart st { call with phase := .started } idle) :=
    hi.land hc rfl hn (by rw [hs]; rfl)
  have he : Inv (setEntry call.processId (some (.running st .new))
      (setStart st { call with phase := .started } idle)) := by
    apply hst.withEntry
    · rintro o ⟨⟩
      exact ⟨_, update_self .., rfl, rfl⟩
    · exact fun o ho => by cases hsl.symm.trans ho
    · exact fun o f hfn hf' heq => absurd heq (h.ne_of_inFlight hc hf rfl hfn hf')
    · intro sh o f hm hfn heq
      obtain ⟨f', hfn', _, hfr⟩ := hst.remaining sh o hm
      cases hfn.symm.trans hfn'
      rw [heq] at hfr
      cases hsl.symm.trans hfr
  refine (he.withStatus (s.status st) (update_self ..)
    (.inr ⟨rfl, (slot_setEntry ..).trans (if_pos rfl)⟩)
    (h.notMem_before hc (by rw [hs]; rfl))).weaken (fun _ => rfl) rfl rfl rfl ?_
  intro o hr
  change update (update s.status st none) st _ o = some .running
  rwa [update_idem, update_eq_self]

/-- A shutdown moves on without leaving a running process behind. -/
theorem Inv.setShutdown (sh : ShutdownId) {c : Shutdown}
    (hss : c.remaining ⊆ s.remaining sh)
    (hk : ∀ st ∈ s.remaining sh, st ∉ c.remaining → s.status st ≠ some .running)
    (hi : c.phase ≠ .terminating → c.remaining = ∅) (hb : c.before ⊆ s.begun)
    (hsw : c.phase ≠ .begun → ∀ st ∈ c.before, (∀ b, s.starts st = some b → b.phase.returned = true)
      ∧ (s.status st = some .running → st ∈ c.remaining)) : Inv (setShutdown sh c s) := by
  have hsb : ∀ other st, st ∈ (LocalProcess.setShutdown sh c s).remaining other →
      st ∈ s.remaining other := by
    intro other st hm
    rw [remaining_setShutdown] at hm
    by_cases heq : other = sh
    · subst heq
      rw [if_pos rfl] at hm
      exact hss hm
    · rwa [if_neg heq] at hm
  refine ⟨h.begun, h.marked, h.unique, ?_, h.owned, ?_, ?_, ?_, ?_, ?_⟩
  · intro st hr
    obtain ⟨f, hf, hw⟩ := h.running st hr
    refine ⟨f, hf, hw.imp_right fun ⟨hs, hw⟩ => ⟨hs, ?_⟩⟩
    refine hw.imp_right fun ⟨other, hm⟩ => ⟨other, ?_⟩
    rw [remaining_setShutdown]
    by_cases heq : other = sh
    · subst heq
      rw [if_pos rfl]
      by_contra hg
      exact hk st hm hg hr
    · rwa [if_neg heq]
  · exact fun other st hm => h.remaining other st (hsb other st hm)
  · exact fun first sc st other f f' hm hm' =>
      h.distinct first sc st other f f' (hsb _ _ hm) (hsb _ _ hm')
  · exact forall_update_some h.idle hi
  · exact forall_update_some h.before hb
  · exact forall_update_some h.swept hsw

theorem Inv.of_sessions (hm : st ∈ sessions s) : ∃ c, s.starts st = some c ∧
    c.phase = .started ∧ s.slot c.processId = some (some st) := by
  obtain ⟨_, c, hc, he⟩ := mem_sessions.mp hm
  obtain ⟨f, hf, _, hs⟩ := h.owned _ st he
  cases hc.symm.trans hf
  exact ⟨c, hc, hs, he⟩

theorem Inv.drain (hph : s.shutdownPhase sh = some .begun) (hor : Orderly s (.drain sh)) :
    Inv (drain sh s) := by
  obtain ⟨call, hc, hbg⟩ := shutdownPhase_eq hph
  obtain ⟨hrt, hu, hot⟩ := hor
  have hem : ∀ o, s.remaining o = ∅ := by
    intro o
    by_cases heq : o = sh
    · rw [heq, remaining_of_some hc]
      exact h.idle sh call hc (by rw [hbg]; decide)
    · exact hot o heq
  have hfl : ∀ sr f, s.starts sr = some f → f.phase.inFlight = false := by
    intro sr f hf
    by_contra hfl
    rw [Bool.not_eq_false] at hfl
    exact hu _ (starting_of_slot (h.marked sr f hf hfl))
  -- a running process is under its id, so it is among those drained
  have hd : ∀ sr, s.status sr = some .running → sr ∈ sessions s := by
    intro sr hr
    obtain ⟨f, hf, hw⟩ := h.running sr hr
    have hm : sr ∈ s.begun := (h.begun sr).mpr (by rw [hf]; rfl)
    rcases hw with hsp | ⟨_, he | ⟨o, hrn⟩⟩
    · have hn := hfl sr f hf
      rw [hsp] at hn
      cases hn
    · exact mem_sessions.mpr ⟨hm, f, hf, he⟩
    · rw [hem] at hrn
      exact absurd hrn (notMem_empty _)
  simp only [LocalProcess.drain, hc]
  have hm : ∀ o sr, sr ∈ (LocalProcess.setShutdown sh
      { call with phase := .terminating, remaining := sessions s }
      { s with processes := fun _ => none }).remaining o ↔ o = sh ∧ sr ∈ sessions s := by
    intro o sr
    rw [remaining_setShutdown]
    split
    · next heq => exact (and_iff_right heq).symm
    · next heq =>
      change sr ∈ s.remaining o ↔ _
      rw [hem]
      exact ⟨fun hs => absurd hs (notMem_empty _), fun hs => absurd hs.1 heq⟩
  refine ⟨h.begun, ?_, h.unique, ?_, ?_, ?_, ?_, ?_, ?_, ?_⟩
  · intro sr f hf hfl'
    cases (hfl sr f hf).symm.trans hfl'
  · intro sr hr
    obtain ⟨f, hf, hst, _⟩ := h.of_sessions (hd sr hr)
    exact ⟨f, hf, .inr ⟨hst, .inr ⟨sh, (hm sh sr).mpr ⟨rfl, hd sr hr⟩⟩⟩⟩
  · exact fun i sr he => by cases he
  · intro o sr hs
    obtain ⟨f, hf, hst, _⟩ := h.of_sessions ((hm o sr).mp hs).2
    exact ⟨f, hf, hst, rfl⟩
  · intro first sc sr o f f' hs hoh hf hf' hid
    obtain ⟨_, hc₁, _, he₁⟩ := h.of_sessions ((hm first sr).mp hs).2
    obtain ⟨_, hc₂, _, he₂⟩ := h.of_sessions ((hm sc o).mp hoh).2
    cases hc₁.symm.trans hf
    cases hc₂.symm.trans hf'
    rw [hid] at he₁
    exact some.inj (some.inj (he₁.symm.trans he₂))
  · exact forall_update_some h.idle fun hne => absurd rfl hne
  · exact forall_update_some h.before (h.before sh call hc)
  · exact forall_update_some h.swept fun _ sr hb => ⟨hrt call hc sr hb, hd sr⟩

theorem Inv.terminateNext (hp : s.shutdownPhase sh = some .terminating) :
    Inv (next s (.terminateNext sh sr)) := by
  obtain ⟨call, hc, ht⟩ := shutdownPhase_eq hp
  have hs : next s (.terminateNext sh sr) =
      LocalProcess.setShutdown sh { call with remaining := call.remaining.erase sr }
        (LocalProcess.terminateProcess sr s) := by
    simp only [LocalProcess.next, hc]
    rfl
  rw [hs]
  have hrm : (LocalProcess.terminateProcess sr s).remaining sh = call.remaining :=
    remaining_of_some hc
  apply (h.terminateProcess sr).setShutdown
  · rw [hrm]
    exact erase_subset _ _
  · intro o hm hg hr
    rw [hrm] at hm
    have heq : o = sr := by
      by_contra hne
      exact hg (mem_erase.mpr ⟨hne, hm⟩)
    exact (terminateProcess_status hr).1 heq
  · exact fun hne => absurd ht hne
  · exact h.before sh call hc
  · intro hbg o hb
    obtain ⟨hrt, hrn⟩ := h.swept sh call hc hbg o hb
    refine ⟨hrt, fun hr => ?_⟩
    obtain ⟨hne, hw⟩ := terminateProcess_status hr
    exact mem_erase.mpr ⟨hne, hrn hw⟩

theorem Inv.finishShutdown (hp : s.shutdownPhase sh = some .terminating)
    (he : s.remaining sh = ∅) : Inv (next s (.finishShutdown sh)) := by
  obtain ⟨call, hc, ht⟩ := shutdownPhase_eq hp
  have hn : call.remaining = ∅ := (remaining_of_some hc).symm.trans he
  simp only [LocalProcess.next, hc]
  apply h.setShutdown
  · rw [remaining_of_some hc]
  · intro sr hm hg
    rw [remaining_of_some hc] at hm
    exact absurd hm hg
  · exact fun _ => hn
  · exact h.before sh call hc
  · exact fun _ => h.swept sh call hc (by rw [ht]; decide)

theorem Inv.beginShutdown (hn : s.shutdowns sh = none) : Inv (next s (.beginShutdown sh)) := by
  have hr : s.remaining sh = ∅ := by
    rw [State.remaining, hn]
    rfl
  apply h.setShutdown
  · exact empty_subset _
  · intro sr hm
    rw [hr] at hm
    exact absurd hm (notMem_empty _)
  · exact fun _ => rfl
  · exact Finset.Subset.refl _
  · exact fun hne => absurd rfl hne

theorem Inv.next (he : Enabled s e) (ho : Orderly s e) : Inv (next s e) := by
  cases e with
  | begin sr i a => exact h.begin he.1 he.2 i a
  | reserve sr => exact h.reserve he ho
  | spawn sr er => exact h.spawn he er
  | install sr => exact h.install he
  | giveBack sr =>
    obtain ⟨er, hp⟩ := he
    exact h.giveBack hp
  | exit sr ec =>
    refine h.weaken (fun _ => rfl) rfl rfl rfl fun o hr => ?_
    rcases update_some_cases hr with ⟨_, hs⟩ | ⟨_, hol⟩
    · cases hs
    · exact hol
  | output sr stream chunk => exact h.updateRunning sr _
  | finishStream sr => exact h.updateRunning sr _
  | watchExit sr => exact h.updateRunning sr _
  | emitClosed sr => exact h.updateRunning sr _
  | cleanUp i => exact h.cleanUp i
  | terminate i =>
    change Inv (LocalProcess.terminate i s).2
    unfold LocalProcess.terminate
    split
    · split
      · exact h
      · exact h.terminateProcess _
    · exact h
  | beginShutdown sh => exact h.beginShutdown he
  | drain sh => exact h.drain he ho
  | terminateNext sh sr => exact h.terminateNext he.1
  | finishShutdown sh => exact h.finishShutdown he.1 he.2

theorem Inv.nothingLeft : NothingLeft s := by
  intro sh call hc hr _ sr hb hrn
  have hm := (h.swept sh call hc (by rw [hr]; decide) sr hb).2 hrn
  rw [h.idle sh call hc (by rw [hr]; decide)] at hm
  exact notMem_empty _ hm

theorem Inv.slot_of_running (hc : s.starts st = some c)
    (hr : s.status st = some .running) :
    (c.phase.inFlight = true ∧ s.slot c.processId = some none) ∨
      s.slot c.processId = some (some st) ∨
      s.slot c.processId = none ∧ ∃ sh, st ∈ s.remaining sh := by
  obtain ⟨f, hf, hw⟩ := h.running st hr
  cases hc.symm.trans hf
  rcases hw with hs | ⟨_, he | ⟨sh, hm⟩⟩
  · have hfl : c.phase.inFlight = true := by rw [hs]; rfl
    exact .inl ⟨hfl, h.marked st c hc hfl⟩
  · exact .inr (.inl he)
  · obtain ⟨f, hf, _, hn⟩ := h.remaining sh st hm
    cases hc.symm.trans hf
    exact .inr (.inr ⟨hn, sh, hm⟩)

theorem Inv.idsUnique : IdsUnique s := by
  intro sr o call call' hr hr' hc hc' hid
  have hw := h.slot_of_running hc hr
  rw [hid] at hw
  rcases hw with ⟨hf, hs⟩ | hs | ⟨hs, sh, hm⟩ <;>
    rcases h.slot_of_running hc' hr' with ⟨hf', hs'⟩ | hs' | ⟨hs', sh', hm'⟩ <;>
    have heq := hs.symm.trans hs'
  · exact h.unique sr o call call' hc hc' hf hf' hid
  · cases heq
  · cases heq
  · cases heq
  · exact some.inj (some.inj heq)
  · cases heq
  · cases heq
  · cases heq
  · exact h.distinct sh sh' sr o call call' hm hm' hc hc' hid

end Preservation

theorem Inv.new : Inv State.new := by
  constructor <;> simp [State.new, State.slot, State.remaining]

/-- In an orderly run a shutdown leaves no process of the starts begun before it running, and no
two running processes have one id. -/
theorem shutdown_leaves_nothing {s : State} (h : backend.Reaches Orderly State.new s) :
    NothingLeft s ∧ IdsUnique s := by
  have hi : Inv s := by
    refine invariant (fun s event hs he ho => hs.next he ho) h ?_
    exact Inv.new
  exact ⟨hi.nothingLeft, hi.idsUnique⟩

def startAndShutDown : List Event :=
  [.begin 0 "x" ["sleep"], .reserve 0, .spawn 0 none, .install 0,
    .beginShutdown 0, .drain 0, .terminateNext 0 0, .finishShutdown 0]

theorem shutdown_leaves_nothing_one_process : NothingLeft (backend.run startAndShutDown State.new) ∧
      (backend.run startAndShutDown State.new).status 0 = some .terminated := by
  have hr : Orderly (backend.run (startAndShutDown.take 1) State.new) (.reserve 0) :=
    fun _ _ _ _ _ hm => absurd hm (notMem_empty _)
  have hd : Orderly (backend.run (startAndShutDown.take 5) State.new) (.drain 0) := by
    refine ⟨?_, ?_, ?_⟩
    · intro call hc start hm b hb
      cases hc
      rw [show start = 0 from mem_singleton.mp hm] at hb
      cases hb
      rfl
    · intro i he
      rcases update_some_cases he with ⟨_, hrn⟩ | ⟨hne, he⟩
      · cases hrn
      · rcases update_some_cases he with ⟨heq, _⟩ | ⟨_, he⟩
        · exact hne heq
        · cases he
    · intro o hne
      exact (remaining_setShutdown 0 o _ _).trans (if_neg hne)
  have ha : backend.Allows Orderly startAndShutDown State.new :=
    ⟨⟨rfl, rfl⟩, trivial, rfl, hr, rfl, trivial, rfl, trivial, rfl, trivial, rfl, hd,
      ⟨rfl, by decide⟩, trivial, ⟨rfl, by decide⟩, trivial, trivial⟩
  exact ⟨(shutdown_leaves_nothing (of_allows ha)).1, rfl⟩

/-- A shutdown drains the marker of a start that is spawning. The start puts its process in all
the same and returns after the shutdown, and its id was free for another start in between. -/
theorem late_start_survives_shutdown :
    ∃ s, backend.Reaches EventSystem.always State.new s ∧ ¬ NothingLeft s ∧ ¬ IdsUnique s := by
  let es : List Event :=
    [.begin 0 "x" ["sleep"], .reserve 0, .beginShutdown 0, .drain 0,
      .finishShutdown 0, .begin 1 "x" ["sleep"], .reserve 1, .spawn 0 none,
      .spawn 1 none, .install 0]
  have ha : backend.Allows EventSystem.always es State.new :=
    ⟨⟨rfl, rfl⟩, trivial, rfl, trivial, rfl, trivial, rfl, trivial, ⟨rfl, by decide⟩, trivial,
      ⟨rfl, rfl⟩, trivial, rfl, trivial, rfl, trivial, rfl, trivial, rfl, trivial, trivial⟩
  refine ⟨_, of_allows ha, ?_, ?_⟩ <;> intro h
  · refine h 0 _ rfl rfl ?_ 0 (mem_insert_self 0 ∅) rfl
    intro start hm b hb
    rw [show start = 0 from mem_singleton.mp hm] at hb
    cases hb
    rfl
  · have heq : (0 : StartId) = 1 := h 0 1 _ _ rfl rfl rfl rfl rfl
    cases heq

end LocalProcess
