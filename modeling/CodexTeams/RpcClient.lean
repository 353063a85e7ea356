import CodexTeams.ResponseItems
import CodexTeams.Runs
import Mathlib.Data.Finset.Basic

/-! The client of the exec server: calls, the reader task that answers them, and the transport that
feeds the reader. -/
namespace RpcClient

open RustStr ResponseItems Runs Function EventSystem.Reaches Finset EventSystem

inductive RequestId
  | string (id : Str)
  | integer (id : ℤ)
  deriving DecidableEq, Repr

inductive RpcCallError
  | closed
  | json (error : Str)
  | server (code : ℤ) (message : Str)
  deriving DecidableEq, Repr

/-- What is sent to the call that waits for a request. -/
abbrev Answer := Except RpcCallError Serialised

inductive JSONRPCMessage
  | request (id : RequestId) (method : Str)
  | notification (method : Str)
  | response (id : RequestId) (result : Serialised)
  | error (id : RequestId) (code : ℤ) (message : Str)
  deriving DecidableEq, Repr

inductive ConnectionEvent
  | message (message : JSONRPCMessage)
  | malformedMessage (reason : Str)
  | disconnected (reason : Option Str)
  deriving DecidableEq, Repr

inductive ReaderPhase
  | reading
  /-- Out of the loop, before `drain_pending`. -/
  | stopped
  | draining
  | finished
  deriving DecidableEq, Repr

inductive CallPhase
  /-- Has an id and is about to take the lock of the pending requests. -/
  | registering
  | serializing
  | sending
  | removing (error : RpcCallError)
  | awaiting
  | returned (answer : Answer)
  deriving DecidableEq

/-- The call has put in its request and has not returned or failed. -/
def CallPhase.waits : CallPhase → Bool
  | .serializing | .sending | .awaiting => true
  | _ => false

structure State where
  /-- The watch value that the transport owns. -/
  disconnected : Bool
  incoming : List ConnectionEvent
  /-- No task of the transport can send any more. -/
  incomingClosed : Bool
  reader : ReaderPhase
  pending : Finset RequestId
  drained : Finset RequestId
  nextRequestId : ℕ
  calls : RequestId → Option CallPhase
  answers : RequestId → Option Answer

def State.new : State where
  disconnected := false
  incoming := []
  incomingClosed := false
  reader := .reading
  pending := ∅
  drained := ∅
  nextRequestId := 1
  calls := fun _ => none
  answers := fun _ => none

inductive Event
  | receive (message : JSONRPCMessage)
  | sendMalformedMessage (reason : Str)
  /-- The two halves of `send_disconnected`. -/
  | setDisconnected
  | sendDisconnected (reason : Option Str)
  | closeIncoming
  | read (event : ConnectionEvent)
  | readEnd
  | drain
  | failDrained (id : RequestId)
  | finish
  | call
  | register (id : RequestId)
  | serialize (id : RequestId) (error : Option Str)
  | send (id : RequestId) (accepted : Bool)
  | remove (id : RequestId)
  | answered (id : RequestId) (decodeError : Option Str)

section

variable (s : State)

def Enabled : Event → Prop
  | .receive _ | .sendMalformedMessage _ => s.incomingClosed = false
  | .setDisconnected => True
  | .sendDisconnected _ => s.disconnected = true ∧ s.incomingClosed = false
  | .closeIncoming => True
  | .read event => s.reader = .reading ∧ s.incoming.head? = some event
  | .readEnd => s.reader = .reading ∧ s.incoming = [] ∧ s.incomingClosed = true
  | .drain => s.reader = .stopped
  | .failDrained id => s.reader = .draining ∧ id ∈ s.drained
  | .finish => s.reader = .draining ∧ s.drained = ∅
  | .call => True
  | .register id => s.calls id = some .registering
  | .serialize id _ => s.calls id = some .serializing
  | .send id _ => s.calls id = some .sending
  | .remove id => ∃ error, s.calls id = some (.removing error)
  | .answered id _ => s.calls id = some .awaiting ∧ (s.answers id).isSome

def answer (id : RequestId) (result : Answer) (s : State) : State :=
  if id ∈ s.pending then
    { s with
      pending := s.pending.erase id
      answers := update s.answers id (some result) }
  else s

/-- The reader stops at a request of the server. -/
def handleServerMessage : JSONRPCMessage → State
  | .response id result => answer id (.ok result) s
  | .error id code message => answer id (.error (.server code message)) s
  | .notification _ => s
  | .request _ _ => { s with reader := .stopped }

def readEvent : ConnectionEvent → State
  | .message message => handleServerMessage s message
  | .malformedMessage _ | .disconnected _ => { s with reader := .stopped }

def setCall (id : RequestId) (phase : CallPhase) (s : State) : State :=
  { s with calls := update s.calls id (some phase) }

def decoded (decodeError : Option Str) : Answer → Answer
  | .ok result =>
    match decodeError with
    | none => .ok result
    | some error => .error (.json error)
  | .error error => .error error

def next : Event → State
  | .receive message => { s with incoming := s.incoming ++ [.message message] }
  | .sendMalformedMessage reason =>
    { s with incoming := s.incoming ++ [.malformedMessage reason] }
  | .setDisconnected => { s with disconnected := true }
  | .sendDisconnected reason => { s with incoming := s.incoming ++ [.disconnected reason] }
  | .closeIncoming => { s with incomingClosed := true }
  | .read event => readEvent { s with incoming := s.incoming.tail } event
  | .readEnd => { s with reader := .stopped }
  | .drain => { s with reader := .draining, drained := s.pending, pending := ∅ }
  | .failDrained id =>
    { s with
      drained := s.drained.erase id
      answers := update s.answers id (some (.error .closed)) }
  | .finish => { s with reader := .finished }
  | .call =>
    setCall (.integer s.nextRequestId) .registering
      { s with nextRequestId := s.nextRequestId + 1 }
  | .register id =>
    if s.disconnected then setCall id (.returned (.error .closed)) s
    else setCall id .serializing { s with pending := insert id s.pending }
  | .serialize id error =>
    match error with
    | none => setCall id .sending s
    | some error => setCall id (.removing (.json error)) s
  | .send id accepted => setCall id (if accepted then .awaiting else .removing .closed) s
  | .remove id =>
    match s.calls id with
    | some (.removing error) =>
      setCall id (.returned (.error error)) { s with pending := s.pending.erase id }
    | _ => s
  | .answered id decodeError =>
    match s.answers id with
    | some result => setCall id (.returned (decoded decodeError result)) s
    | none => s

def client : EventSystem State Event := ⟨Enabled, next⟩

def Reachable : Prop := client.Reaches EventSystem.always State.new s

end

/-- Nobody waits for a request that is not there. -/
structure Tracked (s : State) : Prop where
  waits : ∀ id phase, s.calls id = some phase → phase.waits = true →
    id ∈ s.pending ∨ id ∈ s.drained ∨ (s.answers id).isSome
  drained : s.reader ≠ .draining → s.drained = ∅

section

variable (h : Tracked s)

include h

theorem Tracked.setCall (id : RequestId)
    (hp : p.waits = true → ∃ p', s.calls id = some p' ∧ p'.waits = true) :
    Tracked (setCall id p s) := by
  refine ⟨?_, h.drained⟩
  intro o p' hc hw
  rcases update_some_cases hc with ⟨rfl, rfl⟩ | ⟨_, hc⟩
  · obtain ⟨b, hb, hwt⟩ := hp hw
    exact h.waits o b hb hwt
  · exact h.waits o p' hc hw

theorem Tracked.answer (id : RequestId) (r : Answer) : Tracked (answer id r s) := by
  unfold RpcClient.answer
  split
  · refine ⟨?_, h.drained⟩
    intro o p hc hw
    by_cases heq : o = id
    · subst heq
      right; right
      simp
    · simp only [update_of_ne heq, mem_erase, ne_eq, heq, not_false_iff, true_and]
      exact h.waits o p hc hw
  · exact h

theorem Tracked.stop (hr : s.reader = .reading) : Tracked { s with reader := .stopped } :=
  ⟨h.waits, fun _ => h.drained (by rw [hr]; decide)⟩

theorem Tracked.readEvent (hr : s.reader = .reading)
    (e : ConnectionEvent) : Tracked (readEvent s e) := by
  cases e with
  | message message =>
    cases message with
    | request id m => exact h.stop hr
    | notification m => exact h
    | response id rs => exact h.answer id _
    | error id c message => exact h.answer id _
  | _ => exact h.stop hr

theorem Tracked.next (he : Enabled s e) : Tracked (next s e) := by
  cases e with
  | read e =>
    have ht : Tracked { s with incoming := s.incoming.tail } := ⟨h.waits, h.drained⟩
    exact ht.readEvent he.1 e
  | readEnd => exact h.stop he.1
  | drain =>
    have hem : s.drained = ∅ := h.drained (by rw [show s.reader = _ from he]; decide)
    refine ⟨?_, fun hne => absurd rfl hne⟩
    intro id p hc hw
    rcases h.waits id p hc hw with hp | hd | ha
    · exact .inr (.inl hp)
    · rw [hem] at hd
      exact absurd hd (notMem_empty id)
    · exact .inr (.inr ha)
  | failDrained id =>
    refine ⟨?_, fun hne => absurd he.1 hne⟩
    intro o p hc hw
    by_cases heq : o = id
    · subst heq
      right; right
      simp [RpcClient.next]
    · simp only [RpcClient.next, update_of_ne heq, mem_erase, ne_eq, heq, not_false_iff, true_and]
      exact h.waits o p hc hw
  | finish => exact ⟨h.waits, fun _ => he.2⟩
  | call =>
    have hn : Tracked { s with nextRequestId := s.nextRequestId + 1 } := ⟨h.waits, h.drained⟩
    exact hn.setCall _ nofun
  | register id =>
    cases hf : s.disconnected with
    | true =>
      simp only [RpcClient.next, hf, if_true]
      exact h.setCall id nofun
    | false =>
      simp only [RpcClient.next, hf, Bool.false_eq_true, if_false]
      refine ⟨?_, h.drained⟩
      intro o p hc hw
      rcases update_some_cases hc with ⟨rfl, _⟩ | ⟨_, hc⟩
      · exact .inl (mem_insert_self _ _)
      · exact (h.waits o p hc hw).imp_left mem_insert_of_mem
  | serialize id er =>
    have hs : s.calls id = some .serializing := he
    cases er with
    | none => exact h.setCall id fun _ => ⟨_, hs, rfl⟩
    | some er => exact h.setCall id nofun
  | send id a =>
    have hsn : s.calls id = some .sending := he
    exact h.setCall id fun _ => ⟨_, hsn, rfl⟩
  | remove id =>
    obtain ⟨er, hr⟩ := he
    simp only [RpcClient.next, hr]
    refine ⟨?_, h.drained⟩
    intro o p hc hw
    rcases update_some_cases hc with ⟨rfl, rfl⟩ | ⟨hne, hc⟩
    · cases hw
    · exact (h.waits o p hc hw).imp_left fun hm => mem_erase.mpr ⟨hne, hm⟩
  | answered id de =>
    obtain ⟨rs, hrs⟩ := Option.isSome_iff_exists.mp he.2
    simp only [RpcClient.next, hrs]
    exact h.setCall id nofun
  | _ => exact ⟨h.waits, h.drained⟩

end

theorem tracked_of_reachable (h : Reachable s) : Tracked s := by
  refine invariant (fun s event hs he _ => hs.next he) h ?_
  exact ⟨fun id p hc => (by cases hc), fun _ => rfl⟩

/-- No request is left or placed, and whoever waits for an answer has it or is about to be told
that the connection is closed. -/
structure NoneStranded (s : State) : Prop where
  pending : s.pending = ∅
  waits : ∀ id phase, s.calls id = some phase → phase.waits = true →
    id ∈ s.drained ∨ (s.answers id).isSome

/-- After the drain with the flag of the transport set, compared with the state in which the
reader stopped. -/
structure Closing (before s : State) : Prop where
  disconnected : s.disconnected = true
  reader : s.reader = .draining ∨ s.reader = .finished
  pending : s.pending = ∅
  tracked : Tracked s
  answers : ∀ id result, s.answers id = some result →
    before.answers id = some result ∨ result = .error .closed

/-- With the flag set no call puts in a request, and the only answer still sent is the error. -/
theorem Closing.next (h : Closing b s) (he : Enabled s e) : Closing b (next s e) := by
  have ht := h.tracked.next he
  have hn : s.reader ≠ .reading := by
    rcases h.reader with hrd | hrd <;> rw [hrd] <;> decide
  cases e with
  | sendMalformedMessage rs =>
    exact { h with tracked := ht }
  | setDisconnected => exact ⟨rfl, h.reader, h.pending, ht, h.answers⟩
  | read e => exact absurd he.1 hn
  | readEnd => exact absurd he.1 hn
  | drain =>
    have hs : s.reader = .stopped := he
    rcases h.reader with hrd | hrd <;> rw [hrd] at hs <;> cases hs
  | failDrained id =>
    refine { h with tracked := ht, answers := ?_ }
    intro o r hr
    by_cases heq : o = id
    · subst heq
      simp only [RpcClient.next, update_self, Option.some.injEq] at hr
      exact .inr hr.symm
    · simp only [RpcClient.next, update_of_ne heq] at hr
      exact h.answers o r hr
  | finish => exact { h with reader := .inr rfl, tracked := ht }
  | register id =>
    simp only [RpcClient.next, h.disconnected, if_true] at ht ⊢
    exact { h with tracked := ht }
  | serialize id er =>
    cases er <;> exact { h with tracked := ht }
  | remove id =>
    obtain ⟨er, hrm⟩ := he
    simp only [RpcClient.next, hrm] at ht ⊢
    refine { h with pending := ?_, tracked := ht }
    change s.pending.erase id = ∅
    rw [h.pending, erase_empty]
  | answered id de =>
    obtain ⟨r, hr⟩ := Option.isSome_iff_exists.mp he.2
    simp only [RpcClient.next, hr] at ht ⊢
    exact { h with tracked := ht }
  | _ => exact { h with tracked := ht }

/-- From the drain on, whatever the calls do, no call is stranded and no answer but the error is
sent, exactly if the transport has set its flag before the drain. -/
theorem none_stranded_iff {s : State} (hreach : Reachable s) (hstopped : s.reader = .stopped) :
    (∀ s', client.Reaches EventSystem.always (next s .drain) s' →
      NoneStranded s' ∧ ∀ id result, s'.answers id = some result →
        s.answers id = some result ∨ result = .error .closed) ↔ s.disconnected = true := by
  have ht : Tracked (next s .drain) := (tracked_of_reachable hreach).next hstopped
  constructor
  · intro hal
    by_contra hf
    -- a call that begins now finds the flag unset and puts in a request that nobody drains
    have ha : client.Allows always [.call, .register (.integer s.nextRequestId)] (next s .drain) :=
      ⟨trivial, trivial, update_self .., trivial, trivial⟩
    have hem := (hal _ (of_allows ha)).1.pending
    have hp : (client.run [.call, .register (.integer s.nextRequestId)]
        (next s .drain)).pending = {.integer s.nextRequestId} := by
      simp [run, client, next, setCall, hf]
    rw [hem] at hp
    exact singleton_ne_empty _ hp.symm
  · intro hf s' hrn
    have hst : Closing s (next s .drain) := ⟨hf, .inl rfl, rfl, ht, fun id result hr => .inl hr⟩
    have hc : Closing s s' := invariant (fun s event hs he _ => hs.next he) hrn hst
    refine ⟨⟨hc.pending, ?_⟩, hc.answers⟩
    intro id p hcl hw
    rcases hc.tracked.waits id p hcl hw with hp | hrs
    · rw [hc.pending] at hp
      cases hp
    · exact hrs

instance decidableEnabled (s : State) (event : Event) : Decidable (client.Enabled s event) := by
  cases event with
  | remove id =>
    exact match h : s.calls id with
    | some (.removing error) => isTrue ⟨error, h⟩
    | none | some .registering | some .serializing | some .sending | some .awaiting
    | some (.returned _) => isFalse (by simp [client, Enabled, h])
  | _ =>
    dsimp only [client, Enabled]
    infer_instance

def socketCloses : List Event :=
  [.call, .register (.integer 1), .serialize (.integer 1) none, .send (.integer 1) true,
    .setDisconnected, .sendDisconnected none, .read (.disconnected none)]

theorem none_stranded_socket_closes : (client.run socketCloses State.new).reader = .stopped ∧
      NoneStranded (next (client.run socketCloses State.new) .drain) := by
  have ha : client.Allows always socketCloses State.new := by decide
  have hi := none_stranded_iff (of_allows ha) rfl
  exact ⟨rfl, (hi.mpr rfl _ Relation.ReflTransGen.refl).1⟩

/-- After a malformed message the reader has finished, and a call still puts in its request,
sends it and waits. -/
theorem call_waits_for_nobody : ∃ s, Reachable s ∧ s.reader = .finished ∧ s.pending = {.integer 1} ∧
      s.calls (.integer 1) = some .awaiting ∧ s.answers (.integer 1) = none := by
  let es : List Event :=
    [.sendMalformedMessage [], .read (.malformedMessage []), .drain, .finish,
      .call, .register (.integer 1), .serialize (.integer 1) none, .send (.integer 1) true]
  have ha : client.Allows always es State.new := by decide
  exact ⟨_, of_allows ha, rfl, rfl, rfl, rfl⟩

end RpcClient
