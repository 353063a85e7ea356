import CodexTeams.Runs
import Mathlib.Data.List.Perm.Subperm

/-! Serialized requests of the app server. Each key has a queue and, while the queue is in the map,
a task that drains it; each connection has a gate. -/
namespace RequestSerialization

open Runs List Function

inductive RequestSerializationAccess where
  | exclusive
  | sharedRead
  deriving DecidableEq

structure QueuedSerializedRequest (Key Gate Future : Type*) where
  key : Key
  access : RequestSerializationAccess
  gate : Gate
  future : Future
  deriving DecidableEq

structure TaskTracker where
  closed : Bool
  tokens : ℕ

structure ConnectionRpcGate where
  accepting : Bool
  tasks : TaskTracker

def ConnectionRpcGate.new : ConnectionRpcGate := ⟨true, ⟨false, 0⟩⟩

/-- A drain task. Of the requests it joins, some are still to pass their gate and some run. -/
structure Drain (Key Gate Future : Type*) where
  key : Key
  waiting : List (QueuedSerializedRequest Key Gate Future)
  running : List (QueuedSerializedRequest Key Gate Future)
  deriving DecidableEq

/-- The map of queues, the callers about to spawn a drain, the drains, the gates, the calls of
`shutdown` that wait and the gates for which one returned; and what has happened so far. -/
structure State (Key Gate Future : Type*) where
  queues : Key → Option (List (QueuedSerializedRequest Key Gate Future))
  spawning : List Key
  drains : List (Drain Key Gate Future)
  gates : Gate → ConnectionRpcGate
  shuttingDown : List Gate
  shutDown : List Gate
  enqueued : List (QueuedSerializedRequest Key Gate Future)
  started : List (QueuedSerializedRequest Key Gate Future)
  finished : List (QueuedSerializedRequest Key Gate Future)
  skipped : List (QueuedSerializedRequest Key Gate Future)

inductive Event (Key Gate Future : Type*) where
  | enqueue (request : QueuedSerializedRequest Key Gate Future)
  | spawn (key : Key)
  | take (drain : Drain Key Gate Future)
  | enter (drain : Drain Key Gate Future) (request : QueuedSerializedRequest Key Gate Future)
  | finish (drain : Drain Key Gate Future) (request : QueuedSerializedRequest Key Gate Future)
  | close (gate : Gate)
  | shutdownReturns (gate : Gate)

variable {Key Gate Future : Type*}

def State.start : State Key Gate Future :=
  ⟨fun _ => none, [], [], fun _ => .new, [], [], [], [], [], []⟩

namespace State

variable (s : State Key Gate Future)

def queued (key : Key) : List (QueuedSerializedRequest Key Gate Future) := (s.queues key).getD []

def waiting : List (QueuedSerializedRequest Key Gate Future) :=
  s.drains.flatMap Drain.waiting

def running : List (QueuedSerializedRequest Key Gate Future) :=
  s.drains.flatMap Drain.running

variable (request : QueuedSerializedRequest Key Gate Future)

def Over : Prop :=
  request ∈ s.finished ∨ request ∈ s.skipped

def Active : Prop :=
  request ∈ s.waiting ∨ request ∈ s.running

end State

/-- The loop that takes shared reads from the front of the queue. -/
def popSharedReads (requests : List (QueuedSerializedRequest Key Gate Future)) :
    List (QueuedSerializedRequest Key Gate Future) →
    List (QueuedSerializedRequest Key Gate Future) × List (QueuedSerializedRequest Key Gate Future)
  | [] => (requests, [])
  | request :: queue =>
    if request.access = .sharedRead then popSharedReads (requests ++ [request]) queue
    else (requests, request :: queue)

def popGroup (request : QueuedSerializedRequest Key Gate Future)
    (queue : List (QueuedSerializedRequest Key Gate Future)) :
    List (QueuedSerializedRequest Key Gate Future) ×
      List (QueuedSerializedRequest Key Gate Future) :=
  if request.access = .sharedRead then popSharedReads [request] queue else ([request], queue)

section System

variable [DecidableEq Key] [DecidableEq Gate] [DecidableEq Future] (s : State Key Gate Future)

def State.replace (drain drain' : Drain Key Gate Future) : State Key Gate Future :=
  { s with drains := drain' :: s.drains.erase drain }

def Enabled : Event Key Gate Future → Prop
  -- a future is moved into the queue, so it is enqueued once
  | .enqueue request => request ∉ s.enqueued
  | .spawn key => key ∈ s.spawning
  | .take drain => drain ∈ s.drains ∧ drain.waiting = [] ∧ drain.running = []
  | .enter drain request => drain ∈ s.drains ∧ request ∈ drain.waiting
  | .finish drain request => drain ∈ s.drains ∧ request ∈ drain.running
  | .close _ => True
  | .shutdownReturns gate => gate ∈ s.shuttingDown ∧ (s.gates gate).tasks.closed = true ∧
    (s.gates gate).tasks.tokens = 0

variable (event : Event Key Gate Future)

instance decidableEnabled : Decidable (Enabled s event) := by
  cases event <;> unfold Enabled <;> infer_instance

/-- The critical section of `enqueue`. -/
def enqueue (request : QueuedSerializedRequest Key Gate Future) : State Key Gate Future :=
  match s.queues request.key with
  | some queue =>
    { s with
      queues := update s.queues request.key (some (queue ++ [request]))
      enqueued := s.enqueued ++ [request] }
  | none =>
    { s with
      queues := update s.queues request.key (some [request])
      spawning := request.key :: s.spawning
      enqueued := s.enqueued ++ [request] }

variable (drain : Drain Key Gate Future)

/-- The critical section of `drain`, for a task with nothing left to join. -/
def take : State Key Gate Future :=
  match s.queues drain.key with
  | none => { s with drains := s.drains.erase drain }
  | some [] =>
    { s with
      queues := update s.queues drain.key none
      drains := s.drains.erase drain }
  | some (request :: queue) =>
    { s.replace drain { drain with waiting := (popGroup request queue).1 } with
      queues := update s.queues drain.key (some (popGroup request queue).2) }

section

variable (request : QueuedSerializedRequest Key Gate Future)

/-- The critical section of `ConnectionRpcGate::run`. -/
def enter : State Key Gate Future :=
  let gate := s.gates request.gate
  if gate.accepting then
    { s.replace drain
        { drain with
          waiting := drain.waiting.erase request
          running := request :: drain.running } with
      gates := update s.gates request.gate
        { gate with tasks := { gate.tasks with tokens := gate.tasks.tokens + 1 } }
      started := s.started ++ [request] }
  else
    { s.replace drain { drain with waiting := drain.waiting.erase request } with
      skipped := s.skipped ++ [request] }

def finish : State Key Gate Future :=
  let gate := s.gates request.gate
  { s.replace drain { drain with running := drain.running.erase request } with
    gates := update s.gates request.gate
      { gate with tasks := { gate.tasks with tokens := gate.tasks.tokens - 1 } }
    finished := s.finished ++ [request] }

end

def next : Event Key Gate Future → State Key Gate Future
  | .enqueue request => enqueue s request
  | .spawn key =>
    { s with
      spawning := s.spawning.erase key
      drains := ⟨key, [], []⟩ :: s.drains }
  | .take drain => take s drain
  | .enter drain request => enter s drain request
  | .finish drain request => finish s drain request
  | .close gate =>
    { s with
      gates := update s.gates gate
        ⟨false, { (s.gates gate).tasks with closed := true }⟩
      shuttingDown := gate :: s.shuttingDown }
  | .shutdownReturns gate =>
    { s with
      shuttingDown := s.shuttingDown.erase gate
      shutDown := gate :: s.shutDown }

def server : EventSystem (State Key Gate Future) (Event Key Gate Future) := ⟨Enabled, next⟩

instance decidableServer : Decidable (server.Enabled s event) := decidableEnabled s event

end System

def Group (requests : List (QueuedSerializedRequest Key Gate Future)) : Prop :=
  requests.length ≤ 1 ∨ ∀ request ∈ requests, request.access = .sharedRead

theorem popSharedReads_append (rs q : List (QueuedSerializedRequest Key Gate Future)) :
    (popSharedReads rs q).1 ++ (popSharedReads rs q).2 = rs ++ q := by
  induction q generalizing rs with
  | nil => rfl
  | cons r q ih =>
    rw [popSharedReads]
    split
    · rw [ih, append_assoc, singleton_append]
    · rfl

theorem popSharedReads_shared (h : ∀ r ∈ rs, r.access = .sharedRead)
    (q : List (QueuedSerializedRequest Key Gate Future)) :
    ∀ r ∈ (popSharedReads rs q).1, r.access = .sharedRead := by
  induction q generalizing rs with
  | nil => exact h
  | cons r q ih =>
    rw [popSharedReads]
    split
    · rename_i hs
      apply ih
      intro o ho
      rcases mem_append.mp ho with hm | hm
      · exact h o hm
      · rw [mem_singleton.mp hm]
        exact hs
    · exact h

theorem length_le_popSharedReads (rs q : List (QueuedSerializedRequest Key Gate Future)) :
    rs.length ≤ (popSharedReads rs q).1.length := by
  induction q generalizing rs with
  | nil => exact Nat.le_refl _
  | cons r q ih =>
    rw [popSharedReads]
    split
    · have hl := ih (rs ++ [r])
      rw [length_append] at hl
      omega
    · exact Nat.le_refl _

variable {request : QueuedSerializedRequest Key Gate Future}
  {queue : List (QueuedSerializedRequest Key Gate Future)}

theorem popGroup_append : (popGroup r q).1 ++ (popGroup r q).2 = r :: q := by
  rw [popGroup]
  split
  · exact popSharedReads_append [r] q
  · rfl

theorem group_popGroup : Group (popGroup r q).1 := by
  rw [popGroup]
  split
  · rename_i hs
    exact .inr (popSharedReads_shared (by simp [hs]) q)
  · exact .inl (Nat.le_refl _)

theorem popGroup_pos : 0 < (popGroup r q).1.length := by
  rw [popGroup]
  split
  · exact length_le_popSharedReads [r] q
  · exact Nat.one_pos

def enqueues : Event Key Gate Future → List (QueuedSerializedRequest Key Gate Future)
  | .enqueue request => [request]
  | _ => []

section

variable (s : State Key Gate Future)

def taken : Event Key Gate Future → List (QueuedSerializedRequest Key Gate Future)
  | .take drain =>
    match s.queues drain.key with
    | some (request :: queue) => (popGroup request queue).1
    | _ => []
  | _ => []

theorem group_taken (dr : Drain Key Gate Future) : Group (taken s (.take dr)) := by
  rw [taken]
  split
  · exact group_popGroup
  · exact .inl (Nat.zero_le 1)

def admitted : Event Key Gate Future → List (QueuedSerializedRequest Key Gate Future)
  | .enter _ request => if (s.gates request.gate).accepting then [request] else []
  | _ => []

def refused : Event Key Gate Future → List (QueuedSerializedRequest Key Gate Future)
  | .enter _ request => if (s.gates request.gate).accepting then [] else [request]
  | _ => []

end

def returned : Event Key Gate Future → List (QueuedSerializedRequest Key Gate Future)
  | .finish _ request => [request]
  | _ => []

/-- How the requests move in one event. -/
structure Moved (s s' : State Key Gate Future) (event : Event Key Gate Future) : Prop where
  enqueued : s'.enqueued = s.enqueued ++ enqueues event
  waiting : (taken s event ++ s.waiting).Perm (admitted s event ++ refused s event ++ s'.waiting)
  running : (admitted s event ++ s.running).Perm (returned event ++ s'.running)
  started : s'.started = s.started ++ admitted s event
  finished : s'.finished = s.finished ++ returned event
  skipped : s'.skipped = s.skipped ++ refused s event

theorem Moved.still (he : s'.enqueued = s.enqueued ++ enqueues e) (ht : taken s e = [])
    (ha : admitted s e = []) (hrf : refused s e = []) (hr : returned e = [])
    (hw : s.waiting.Perm s'.waiting) (hrn : s.running.Perm s'.running)
    (hst : s'.started = s.started) (hf : s'.finished = s.finished) (hs : s'.skipped = s.skipped) :
    Moved s s' e where
  enqueued := he
  waiting := by rwa [ht, ha, hrf]
  running := by rwa [ha, hr]
  started := by rw [hst, ha, append_nil]
  finished := by rw [hf, hr, append_nil]
  skipped := by rw [hs, hrf, append_nil]

namespace Moved

variable {s s' : State Key Gate Future} {e : Event Key Gate Future} (h : Moved s s' e)

include h

theorem stays_over (ho : s.Over r) : s'.Over r := by
  rcases ho with ho | ho
  · left
    rw [h.finished]
    exact mem_append_left _ ho
  · right
    rw [h.skipped]
    exact mem_append_left _ ho

theorem over_or_active_of_running (hr : r ∈ admitted s e ++ s.running) :
    s'.Over r ∨ s'.Active r := by
  rcases mem_append.mp (h.running.mem_iff.mp hr) with hrt | hr
  · left; left
    rw [h.finished]
    exact mem_append_right _ hrt
  · exact .inr (.inr hr)

theorem over_or_active_of_waiting (hw : r ∈ taken s e ++ s.waiting) : s'.Over r ∨ s'.Active r := by
  rcases mem_append.mp (h.waiting.mem_iff.mp hw) with ho | hw
  · rcases mem_append.mp ho with ha | hr
    · exact h.over_or_active_of_running (mem_append_left _ ha)
    · left; right
      rw [h.skipped]
      exact mem_append_right _ hr
  · exact .inr (.inl hw)

theorem over_or_active (ha : s.Active r) : s'.Over r ∨ s'.Active r := by
  rcases ha with hw | hr
  · exact h.over_or_active_of_waiting (mem_append_right _ hw)
  · exact h.over_or_active_of_running (mem_append_right _ hr)

theorem active_or_taken (hac : s'.Active r) : s.Active r ∨ r ∈ taken s e := by
  have hwt : r ∈ taken s e ++ s.waiting → s.Active r ∨ r ∈ taken s e := by
    intro hm
    rcases mem_append.mp hm with ht | hw
    · exact .inr ht
    · exact .inl (.inl hw)
  rcases hac with hw | hr
  · exact hwt (h.waiting.mem_iff.mpr (mem_append_right _ hw))
  · rcases mem_append.mp (h.running.mem_iff.mpr (mem_append_right _ hr)) with
      ha | hr
    · apply hwt
      apply h.waiting.mem_iff.mpr
      exact mem_append_left _ (mem_append_left _ ha)
    · exact .inl (.inr hr)

end Moved

section Moves

variable [DecidableEq Key] [DecidableEq Gate] [DecidableEq Future] {s : State Key Gate Future}
  (held : Drain Key Gate Future → List (QueuedSerializedRequest Key Gate Future))

theorem flatMap_replace (hm : d ∈ s.drains) (h : (m ++ held d).Perm (a ++ held d')) :
    (m ++ s.drains.flatMap held).Perm (a ++ (s.replace d d').drains.flatMap held) := by
  let rest := (s.drains.erase d).flatMap held
  have hh := (perm_cons_erase hm).flatMap_right held
  calc
    (m ++ s.drains.flatMap held).Perm (m ++ (held d ++ rest)) := hh.append_left m
    _ = (m ++ held d) ++ rest := (append_assoc ..).symm
    (_ : List _).Perm ((a ++ held d') ++ rest) := h.append_right rest
    _ = a ++ (s.replace d d').drains.flatMap held := append_assoc ..

theorem flatMap_erase (hm : d ∈ s.drains) (h : held d = []) :
    (s.drains.flatMap held).Perm ((s.drains.erase d).flatMap held) := by
  have hh := (perm_cons_erase hm).flatMap_right held
  rwa [flatMap_cons, h] at hh

theorem moved_take (hm : d ∈ s.drains) (hw : d.waiting = [])
    (hr : d.running = []) : Moved s (take s d) (.take d) := by
  have hwt := flatMap_erase Drain.waiting hm hw
  have hrn := flatMap_erase Drain.running hm hr
  cases hq : s.queues d.key with
  | none =>
    have ht : taken s (.take d) = [] := by rw [taken, hq]
    rw [take, hq]
    exact .still (append_nil _).symm ht rfl rfl rfl hwt hrn rfl rfl rfl
  | some q =>
    cases q with
    | nil =>
      have ht : taken s (.take d) = [] := by rw [taken, hq]
      rw [take, hq]
      exact .still (append_nil _).symm ht rfl rfl rfl hwt hrn rfl rfl rfl
    | cons r q =>
      have ht : taken s (.take d) = (popGroup r q).1 := by rw [taken, hq]
      rw [take, hq]
      refine ⟨(append_nil _).symm, ?_, ?_, (append_nil _).symm, (append_nil _).symm,
        (append_nil _).symm⟩
      · rw [ht]
        apply flatMap_replace Drain.waiting hm
        rw [hw, append_nil]
        exact .refl _
      · exact flatMap_replace Drain.running hm (.refl _)

theorem moved_enter (hm : d ∈ s.drains) (hw : r ∈ d.waiting) :
    Moved s (enter s d r) (.enter d r) := by
  have ho := perm_cons_erase hw
  rw [enter]
  split
  · rename_i ha
    refine ⟨(append_nil _).symm, ?_, ?_, ?_, (append_nil _).symm, ?_⟩
    · rw [admitted, refused, if_pos ha, if_pos ha]
      exact flatMap_replace Drain.waiting hm ho
    · rw [admitted, if_pos ha]
      exact flatMap_replace Drain.running hm (.refl _)
    · rw [admitted, if_pos ha]
    · rw [refused, if_pos ha, append_nil]
      rfl
  · rename_i hc
    refine ⟨(append_nil _).symm, ?_, ?_, ?_, (append_nil _).symm, ?_⟩
    · rw [admitted, refused, if_neg hc, if_neg hc]
      exact flatMap_replace Drain.waiting hm ho
    · rw [admitted, if_neg hc]
      exact flatMap_replace Drain.running hm (.refl _)
    · rw [admitted, if_neg hc, append_nil]
      rfl
    · rw [refused, if_neg hc]

theorem moved_finish (hm : d ∈ s.drains) (hr : r ∈ d.running) :
    Moved s (finish s d r) (.finish d r) := by
  have ho := perm_cons_erase hr
  exact ⟨(append_nil _).symm, flatMap_replace Drain.waiting hm (.refl _),
    flatMap_replace Drain.running hm ho, (append_nil _).symm, rfl,
    (append_nil _).symm⟩

theorem moved_next (he : Enabled s e) : Moved s (next s e) e := by
  cases e with
  | enqueue r =>
    rw [next, enqueue]
    split <;> exact .still rfl rfl rfl rfl rfl (.refl _) (.refl _) rfl rfl rfl
  | take d => exact moved_take he.1 he.2.1 he.2.2
  | enter d r => exact moved_enter he.1 he.2
  | finish d r => exact moved_finish he.1 he.2
  | _ =>
    exact .still (append_nil _).symm rfl rfl rfl rfl (.refl _) (.refl _) rfl rfl rfl

end Moves

end RequestSerialization
