import CodexTeams.RustInt
import Mathlib.Data.List.DropRight

/-! The telemetry of blocked requests. Some operations of the network proxy copy the buffer and the
total under a lock for reading, and write them back under a later lock. -/
namespace BlockedTelemetry

open RustInt List Function

variable {Entry Config : Type} [DecidableEq Config]

def maxBlockedEvents : ℕ := 200

/-- The configuration comes with its constraints and what is compiled from it. -/
structure ConfigState (Entry Config : Type) where
  config : Config
  blocked : List Entry
  blockedTotal : ℕ

def dropOldest : List Entry → List Entry
  | [] => []
  | entry :: rest => if maxBlockedEvents < rest.length + 1 then dropOldest rest else entry :: rest

def ConfigState.record (shared : ConfigState Entry Config) (entry : Entry) :
    ConfigState Entry Config :=
  { shared with
    blocked := dropOldest (shared.blocked ++ [entry])
    blockedTotal := min (shared.blockedTotal + 1) u64Max }

/-- What a task writes, and the configuration it has to find for that. -/
structure Pending (Entry Config : Type) where
  newState : ConfigState Entry Config
  expected : Option Config

/-- The state, with what was recorded in all and since the last time the buffer was drained. -/
structure State (Entry Config : Type) where
  shared : ConfigState Entry Config
  tasks : ℕ → Option (Pending Entry Config)
  recorded : ℕ
  sinceDrain : List Entry

inductive Event (Entry Config : Type)
  | recordBlocked (entry : Entry)
  | drainBlocked
  | setNetworkMode (config : Config)
  | replaceConfigState (newState : ConfigState Entry Config)
  | forceReload (newState : ConfigState Entry Config)
  | reloadIfNeededReads (task : ℕ) (newState : ConfigState Entry Config)
  | updateDomainListReads (task : ℕ) (candidate : Config)
  | writes (task : ℕ)

namespace State

variable (s : State Entry Config) (newState : ConfigState Entry Config)

def copied : ConfigState Entry Config :=
  { newState with blocked := s.shared.blocked, blockedTotal := s.shared.blockedTotal }

def next : Event Entry Config → State Entry Config
  | .recordBlocked entry =>
    { s with
      shared := s.shared.record entry
      recorded := s.recorded + 1
      sinceDrain := s.sinceDrain ++ [entry] }
  | .drainBlocked => { s with shared := { s.shared with blocked := [] }, sinceDrain := [] }
  | .setNetworkMode config => { s with shared := { s.shared with config := config } }
  | .replaceConfigState newState => { s with shared := s.copied newState }
  -- the total of the new state is kept
  | .forceReload newState => { s with shared := { newState with blocked := s.shared.blocked } }
  | .reloadIfNeededReads task newState =>
    { s with tasks := update s.tasks task (some ⟨s.copied newState, none⟩) }
  | .updateDomainListReads task candidate =>
    { s with
      tasks := update s.tasks task
        (some ⟨s.copied { s.shared with config := candidate }, some s.shared.config⟩) }
  | .writes task =>
    match s.tasks task with
    | none => s
    | some pending =>
      { s with
        shared := if ∀ config ∈ pending.expected, s.shared.config = config then pending.newState
          else s.shared
        tasks := update s.tasks task none }

variable (config : Config)

def start : State Entry Config := ⟨⟨config, [], 0⟩, fun _ => none, 0, []⟩

def run (events : List (Event Entry Config)) : State Entry Config :=
  events.foldl next (start config)

structure Accurate : Prop where
  total : s.shared.blockedTotal = min s.recorded u64Max
  buffer : s.shared.blocked = s.sinceDrain.rtake maxBlockedEvents

def SameTelemetry : Prop :=
  newState.blocked = s.shared.blocked ∧ newState.blockedTotal = s.shared.blockedTotal

/-- A state that is written has the buffer and the total there are when it is written. -/
def Current : Event Entry Config → Prop
  | .forceReload newState => newState.blockedTotal = s.shared.blockedTotal
  | .writes task => ∀ pending ∈ s.tasks task,
    (∀ config ∈ pending.expected, s.shared.config = config) → s.SameTelemetry pending.newState
  | _ => True

variable {s} {e : Event Entry Config}

theorem dropOldest_eq (es : List Entry) : dropOldest es = es.rtake maxBlockedEvents := by
  induction es with
  | nil => exact drop_nil.symm
  | cons e es ih =>
    rw [dropOldest, rtake, length_cons]
    split
    · next h => rw [ih, rtake, Nat.succ_sub (Nat.le_of_lt_succ h), drop_succ_cons]
    · next h => rw [Nat.sub_eq_zero_of_le (not_lt.mp h), drop_zero]

theorem rtake_concat (n : ℕ) (es : List Entry) (e : Entry) :
    (es.rtake n ++ [e]).rtake n = (es ++ [e]).rtake n := by
  have hd : (es ++ [e]).drop (es.length - n) = es.drop (es.length - n) ++ [e] :=
    drop_append_of_le_length (Nat.sub_le _ _)
  rw [rtake, rtake, rtake, ← hd, drop_drop, length_drop, length_append, length_singleton]
  congr 1
  omega

theorem Accurate.next_iff (h : s.Accurate) : (s.next e).Accurate ↔ s.Current e := by
  cases e with
  | recordBlocked entry =>
    refine iff_of_true ⟨?_, ?_⟩ trivial
    · have := h.total
      simp only [next, ConfigState.record]
      omega
    · simp only [next, ConfigState.record, dropOldest_eq, h.buffer, rtake_concat]
  | drainBlocked => exact iff_of_true ⟨h.total, drop_nil.symm⟩ trivial
  | forceReload newState =>
    constructor
    · exact fun hn => hn.total.trans h.total.symm
    · exact fun hn => ⟨Eq.trans hn h.total, h.buffer⟩
  | writes task =>
    rw [next, Current]
    cases s.tasks task with
    | none => exact iff_of_true h nofun
    | some pending =>
      simp only [Option.mem_some_iff, forall_eq']
      split_ifs with hp
      · constructor
        · exact fun hn _ => ⟨hn.buffer.trans h.buffer.symm, hn.total.trans h.total.symm⟩
        · exact fun hn => ⟨(hn hp).2.trans h.total, (hn hp).1.trans h.buffer⟩
      · exact iff_of_true ⟨h.total, h.buffer⟩ fun hc => absurd hc hp
  | _ => exact iff_of_true ⟨h.total, h.buffer⟩ trivial

/-- The telemetry is right all along a run exactly where every state that is written has the
buffer and the total there are at that time. -/
theorem accurate_iff_current (config : Config) (events : List (Event Entry Config)) :
    (∀ es, es <+: events → (run config es).Accurate) ↔
      ∀ es e, es ++ [e] <+: events → (run config es).Current e := by
  have hr : ∀ (es : List (Event Entry Config)) e, run config (es ++ [e]) = (run config es).next e :=
    fun es e => by rw [run, foldl_append]; rfl
  constructor
  · intro h es e he
    have ha := h es ((prefix_append es [e]).trans he)
    rw [← ha.next_iff, ← hr]
    exact h _ he
  · intro h es he
    induction es using reverseRecOn with
    | nil => exact ⟨rfl, drop_nil.symm⟩
    | append_singleton es e ih =>
      rw [hr, (ih ((prefix_append es [e]).trans he)).next_iff]
      exact h es e he

/-- What is recorded between the two locks of an update is lost, and a reload that is forced
starts the total again. -/
theorem record_lost_between_locks :
    let s : State Char ℕ := run 0 [.recordBlocked 'a', .updateDomainListReads 0 1,
      .recordBlocked 'b', .writes 0]
    let forced : State Char ℕ := run 0 [.recordBlocked 'a', .forceReload ⟨0, [], 0⟩]
    s.recorded = 2 ∧ s.shared.blockedTotal = 1 ∧ s.shared.blocked = ['a'] ∧
      forced.recorded = 1 ∧ forced.shared.blockedTotal = 0 := by
  decide

end State

end BlockedTelemetry
