import CodexTeams.ProcessEvents
import CodexTeams.Utf8

/-! The event log of one process: a bounded history for those who subscribe late, and the broadcast
channel that everyone who has subscribed reads. -/
namespace ProcessEventLog

open Runs ProcessEvents Utf8 List Function

def retainedLen : ExecProcessEvent → ℕ
  | .output chunk => chunk.chunk.length
  | .failed message => byteLen message
  | .exited _ _ | .closed _ => 0

/-- The broadcast channel may keep more messages than the event capacity it is made with. -/
structure Capacity where
  eventCapacity : ℕ
  byteCapacity : ℕ
  channelCapacity : ℕ
  eventCapacity_le : eventCapacity ≤ channelCapacity

structure History where
  events : List ExecProcessEvent
  retainedBytes : ℕ
  deriving Repr

variable (capacity : Capacity)

/-- The loop of `publish` that drops the oldest events. -/
def evict : List ExecProcessEvent → ℕ → History
  | [], retainedBytes => ⟨[], retainedBytes⟩
  | evicted :: events, retainedBytes =>
    if capacity.eventCapacity < (evicted :: events).length ∨
        capacity.byteCapacity < retainedBytes then
      evict events (retainedBytes - retainedLen evicted)
    else ⟨evicted :: events, retainedBytes⟩

def History.publish (event : ExecProcessEvent) (history : History) : History :=
  evict capacity (history.events ++ [event]) (history.retainedBytes + retainedLen event)

/-- A receiver of the live channel keeps the place of the next message it reads. -/
structure Receiver where
  replay : List ExecProcessEvent
  livePos : ℕ
  since : ℕ
  received : List ExecProcessEvent
  lagged : Bool
  deriving Repr

variable (published : List ExecProcessEvent) (r : Receiver)

/-- Nothing is received while the replay is empty and no message is left to read. -/
def Receiver.recv : Option Receiver :=
  match r.replay with
  | event :: replay => some { r with replay := replay, received := r.received ++ [event] }
  | [] =>
    if r.livePos + capacity.channelCapacity < published.length then
      some { r with livePos := published.length - capacity.channelCapacity, lagged := true }
    else
      published[r.livePos]?.map fun event =>
        { r with livePos := r.livePos + 1, received := r.received ++ [event] }

structure State where
  history : History
  published : List ExecProcessEvent
  receivers : ℕ → Option Receiver

def State.new : State := ⟨⟨[], 0⟩, [], fun _ => none⟩

inductive Event
  | publish (event : ExecProcessEvent)
  | subscribe (receiver : ℕ)
  | recv (receiver : ℕ)
  deriving Repr

def Enabled (s : State) : Event → Prop
  | .publish _ => True
  | .subscribe receiver => s.receivers receiver = none
  | .recv receiver => (s.receivers receiver).isSome = true

def next (s : State) : Event → State
  | .publish event =>
    { s with
      history := s.history.publish capacity event
      published := s.published ++ [event] }
  | .subscribe receiver =>
    { s with
      receivers := update s.receivers receiver
        (some ⟨s.history.events, s.published.length, s.published.length, [], false⟩) }
  | .recv receiver =>
    match (s.receivers receiver).bind (Receiver.recv capacity s.published) with
    | none => s
    | some r => { s with receivers := update s.receivers receiver (some r) }

def log : EventSystem State Event := ⟨Enabled, next capacity⟩

variable (events : List ExecProcessEvent)

def totalLen : ℕ :=
  events.foldr (fun event bytes => retainedLen event + bytes) 0

def Fits : Prop :=
  events.length ≤ capacity.eventCapacity ∧ totalLen events ≤ capacity.byteCapacity

/-- The longest end of what was published that is within both capacities. -/
structure Longest (published events : List ExecProcessEvent) : Prop where
  suffix : events <:+ published
  fits : Fits capacity events
  longest : ∀ other, other <:+ published → Fits capacity other → other <:+ events

section History

variable {capacity}

@[simp] theorem totalLen_cons (e : ExecProcessEvent) :
    totalLen (e :: es) = retainedLen e + totalLen es := rfl

@[simp] theorem totalLen_append (later : List ExecProcessEvent) :
    totalLen (es ++ later) = totalLen es + totalLen later := by
  induction es with
  | nil => exact (Nat.zero_add _).symm
  | cons event es ih => rw [cons_append, totalLen_cons, totalLen_cons, ih, Nat.add_assoc]

/-- The byte counter is exact, so it never saturates. -/
theorem evict_spec (h : es <:+ p) (hl : ∀ o, o <:+ p → Fits c o → o <:+ es) :
    (evict c es (totalLen es)).retainedBytes = totalLen (evict c es (totalLen es)).events ∧
      Longest c p (evict c es (totalLen es)).events := by
  induction es with
  | nil => exact ⟨rfl, h, ⟨Nat.zero_le _, Nat.zero_le _⟩, hl⟩
  | cons e es ih =>
    rw [evict]
    split
    · next hov =>
      rw [totalLen_cons, Nat.add_sub_cancel_left]
      apply ih ((suffix_cons _ _).trans h)
      intro o ho hf
      rcases suffix_cons_iff.mp (hl o ho hf) with rfl | hs
      · exact absurd hf (by unfold Fits; omega)
      · exact hs
    · next hw =>
      rw [not_or, Nat.not_lt, Nat.not_lt] at hw
      exact ⟨rfl, h, hw, hl⟩

theorem Longest.publish (h : Longest c p es) (e : ExecProcessEvent) :
    ∀ o, o <:+ p ++ [e] → Fits c o → o <:+ es ++ [e] := by
  intro o ho hf
  rcases suffix_concat_iff.mp ho with rfl | ⟨front, rfl, hfr⟩
  · exact nil_suffix
  · have hf' : Fits c front := by
      simp only [Fits, length_append, totalLen_append] at hf ⊢
      omega
    obtain ⟨b, rfl⟩ := h.longest front hfr hf'
    exact ⟨b, (append_assoc ..).symm⟩

end History

def Receiver.pending : List ExecProcessEvent :=
  r.replay ++ published.drop r.livePos

/-- What it has read and what it has yet to read are the history it found and all that was
published since. -/
def Receiver.Whole : Prop :=
  r.since ≤ r.livePos ∧ r.livePos ≤ published.length ∧
    ∃ events, Longest capacity (published.take r.since) events ∧
      r.received ++ r.pending published = events ++ published.drop r.since

structure Inv (s : State) : Prop where
  bytes : s.history.retainedBytes = totalLen s.history.events
  longest : Longest capacity s.published s.history.events
  whole : ∀ receiver r, s.receivers receiver = some r → r.lagged = false →
    r.Whole capacity s.published

section Delivery

variable {capacity} {r : Receiver}

theorem Receiver.Whole.publish (h : r.Whole c pb) (e : ExecProcessEvent) :
    r.Whole c (pb ++ [e]) := by
  obtain ⟨hs, hp, es, hl, hw⟩ := h
  refine ⟨hs, by rw [length_append]; omega, es, ?_, ?_⟩
  · rwa [take_append_of_le_length (hs.trans hp)]
  · rw [Receiver.pending, drop_append_of_le_length hp,
      drop_append_of_le_length (hs.trans hp), ← append_assoc r.replay,
      ← append_assoc, ← append_assoc es, ← hw, Receiver.pending]

theorem Receiver.recv_head (h : r.recv c pb = some r') (hl : r'.lagged = false) :
    ∃ e, r'.received = r.received ++ [e] ∧ r.pending pb = e :: r'.pending pb ∧ r.lagged = false ∧
      r'.since = r.since ∧ r.livePos ≤ r'.livePos ∧
      (r.livePos ≤ pb.length → r'.livePos ≤ pb.length) := by
  unfold Receiver.recv at h
  split at h
  · next e replay hr =>
    cases h
    exact ⟨e, rfl, by simp [Receiver.pending, hr], hl, rfl, le_rfl, id⟩
  · next hr =>
    split at h
    · cases h
      cases hl
    · obtain ⟨e, he, rfl⟩ := Option.map_eq_some_iff.mp h
      obtain ⟨hlt, rfl⟩ := List.getElem?_eq_some_iff.mp he
      refine ⟨_, rfl, ?_, hl, rfl, Nat.le_succ _, fun _ => hlt⟩
      simp [Receiver.pending, hr]

theorem Receiver.pending_of_waits (h : r.recv c pb = none) : r.pending pb = [] := by
  unfold Receiver.recv at h
  split at h
  · cases h
  · next hr =>
    split at h
    · cases h
    · rw [Option.map_eq_none_iff, List.getElem?_eq_none_iff] at h
      rw [Receiver.pending, hr, nil_append, drop_eq_nil_iff]
      exact h

theorem Receiver.Whole.recv (h : r.Whole c pb)
    (hrc : r.recv c pb = some r') (hlg : r'.lagged = false) : r'.Whole c pb := by
  obtain ⟨hsn, hps, es, hl, hw⟩ := h
  obtain ⟨event, hr, hp, _, hs, hle, hb⟩ := recv_head hrc hlg
  refine ⟨hs ▸ hsn.trans hle, hb hps, es, hs ▸ hl, ?_⟩
  rw [hs, ← hw, hr, hp, append_assoc]
  rfl

theorem Inv.next (h : Inv c s) (e : Event) : Inv c (next c s e) := by
  cases e with
  | publish e =>
    have hby : s.history.retainedBytes + retainedLen e = totalLen (s.history.events ++ [e]) := by
      rw [h.bytes, totalLen_append]
      rfl
    obtain ⟨b, hb⟩ := h.longest.suffix
    have hs := evict_spec ⟨b, by rw [← append_assoc, hb]⟩ (h.longest.publish e)
    rw [← hby] at hs
    exact ⟨hs.1, hs.2, fun rc r hr hl =>
      (h.whole rc r hr hl).publish e⟩
  | subscribe rc =>
    refine { h with whole := fun o r hr hl => ?_ }
    rcases update_some_cases hr with ⟨_, rfl⟩ | ⟨_, ho⟩
    · refine ⟨le_rfl, le_rfl, s.history.events, ?_, rfl⟩
      exact (take_length (l := s.published)).symm ▸ h.longest
    · exact h.whole o r ho hl
  | recv rc =>
    unfold ProcessEventLog.next
    dsimp only
    split
    · exact h
    · next r' hrc =>
      obtain ⟨r, hr, hrc⟩ := Option.bind_eq_some_iff.mp hrc
      refine { h with whole := fun o f hf hl => ?_ }
      rcases update_some_cases hf with ⟨_, rfl⟩ | ⟨_, ho⟩
      · obtain ⟨_, _, _, hb, _⟩ := Receiver.recv_head hrc hl
        exact (h.whole rc r hr hb).recv hrc hl
      · exact h.whole o f ho hl

end Delivery

/-- The history is the longest end of what was published that both capacities allow. A receiver
that never lagged has read the beginning of the history it found and of all that was published
since, a receive hands out the event that comes next, and it waits only when none does. -/
theorem replay_then_live {s : State} (h : (log capacity).Reaches EventSystem.always State.new s) :
    Longest capacity s.published s.history.events ∧
      ∀ receiver r, s.receivers receiver = some r → r.lagged = false →
        ∃ events, Longest capacity (s.published.take r.since) events ∧
          r.received ++ r.pending s.published = events ++ s.published.drop r.since ∧
          (r.recv capacity s.published = none → r.pending s.published = []) ∧
          ∀ r', r.recv capacity s.published = some r' → r'.lagged = false →
            ∃ event later, r.pending s.published = event :: later ∧
              r'.received = r.received ++ [event] := by
  have hn : Inv capacity State.new := by
    refine ⟨rfl, ⟨suffix_refl _, ⟨Nat.zero_le _, Nat.zero_le _⟩, fun _ ho _ => ho⟩, ?_⟩
    exact nofun
  have hi : Inv capacity s :=
    EventSystem.Reaches.invariant (fun s event hs _ _ => hs.next event) h hn
  refine ⟨hi.longest, fun receiver r hr hl => ?_⟩
  obtain ⟨_, _, events, hln, hw⟩ := hi.whole receiver r hr hl
  refine ⟨events, hln, hw, Receiver.pending_of_waits, fun r' hrv hl' => ?_⟩
  obtain ⟨event, hrc, hp, _⟩ := Receiver.recv_head hrv hl'
  exact ⟨event, _, hp, hrc⟩

def twoEvents : Capacity := ⟨2, 3, 2, le_rfl⟩

def lateSubscriber : List Event :=
  [.publish (.output ⟨1, .stdout, [0, 0, 0, 0]⟩), .publish (.exited 2 0), .subscribe 0,
    .publish (.closed 3), .recv 0, .recv 0]

theorem replay_then_live_late :
    let s := (log twoEvents).run lateSubscriber State.new
    Longest twoEvents s.published [.exited 2 0, .closed 3] ∧
      (s.receivers 0).map Receiver.received = some [.exited 2 0, .closed 3] := by
  have ha : (log twoEvents).Allows EventSystem.always lateSubscriber State.new :=
    ⟨trivial, trivial, trivial, trivial, rfl, trivial, trivial, trivial, rfl, trivial, rfl,
      trivial, trivial⟩
  have he : ((log twoEvents).run lateSubscriber State.new).history.events =
      [.exited 2 0, .closed 3] := by decide +kernel
  have hl := (replay_then_live twoEvents (EventSystem.Reaches.of_allows ha)).1
  rw [he] at hl
  exact ⟨hl, by decide +kernel⟩

end ProcessEventLog
