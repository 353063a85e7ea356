import CodexTeams.RustStr
import CodexTeams.Runs
import Mathlib.Data.Finset.Basic

/-! Sessions of the exec server and the connections that attach to them. Attaching holds the lock of
the registry; detaching clears the notification sender without any lock. -/
namespace SessionRegistry

open RustStr Runs Function EventSystem.Reaches Option

abbrev SessionId := Str

/-- The number stands for the identifier drawn for the connection. -/
abbrev ConnectionId := ℕ

def detachedSessionTtl : ℕ := 10000

structure SessionEntry (Sender : Type) where
  currentConnectionId : Option ConnectionId
  detachedConnectionId : Option ConnectionId
  detachedExpiresAt : Option ℕ
  notifications : Option Sender

namespace SessionEntry

variable {Sender : Type}

def new (notifications : Sender) (connectionId : ConnectionId) : SessionEntry Sender :=
  ⟨some connectionId, none, none, some notifications⟩

variable (connectionId : ConnectionId)

def attach (entry : SessionEntry Sender) : SessionEntry Sender :=
  { entry with
    currentConnectionId := some connectionId
    detachedConnectionId := none
    detachedExpiresAt := none }

variable (now : ℕ)

def detach (entry : SessionEntry Sender) : SessionEntry Sender :=
  { entry with
    currentConnectionId := none
    detachedConnectionId := some connectionId
    detachedExpiresAt := some (now + detachedSessionTtl) }

def setNotificationSender (notifications : Option Sender) (entry : SessionEntry Sender) :
    SessionEntry Sender :=
  { entry with notifications := notifications }

def isExpired (entry : SessionEntry Sender) : Bool :=
  entry.detachedExpiresAt.any (· ≤ now)

def isDetachedConnectionExpired (entry : SessionEntry Sender) : Bool :=
  entry.currentConnectionId.isNone && entry.detachedConnectionId = some connectionId &&
    entry.detachedExpiresAt.any (· ≤ now)

end SessionEntry

/-- How far a connection is with attaching or detaching. -/
inductive Phase
  /-- Resumes a session that has not expired. -/
  | checked
  /-- Resumes a session that nobody is attached to. -/
  | vacant
  | senderSet
  | attached
  /-- Has released the attachment and not yet cleared the sender. -/
  | clearing
  /-- Its expiry task runs. -/
  | detached
  | ended
  | failed (message : Str)
  deriving Repr

/-- Inside the lock of the registry. -/
def Phase.resumes : Phase → Bool
  | .checked | .vacant | .senderSet => true
  | _ => false

structure Connection (Sender : Type) where
  sessionId : SessionId
  sender : Sender
  phase : Phase

structure State (Sender : Type) where
  now : ℕ
  sessions : Finset SessionId
  /-- Every session there ever was, as handles keep them after their removal. -/
  entries : SessionId → Option (SessionEntry Sender)
  connections : ConnectionId → Option (Connection Sender)
  locked : Option ConnectionId

variable {Sender : Type}

def State.new : State Sender := ⟨0, ∅, fun _ => none, fun _ => none, none⟩

inductive Event (Sender : Type)
  | tick (duration : ℕ)
  | attachNew (connectionId : ConnectionId) (sessionId : SessionId) (sender : Sender)
  /-- Takes the lock of the registry and looks up the session to resume. -/
  | lookUp (connectionId : ConnectionId) (sessionId : SessionId) (sender : Sender)
  | checkActive (connectionId : ConnectionId)
  | setSender (connectionId : ConnectionId)
  | attach (connectionId : ConnectionId)
  /-- The two halves of detaching. -/
  | release (connectionId : ConnectionId)
  | clearSender (connectionId : ConnectionId)
  | expire (connectionId : ConnectionId)

variable (s : State Sender)

def State.inPhase (connectionId : ConnectionId) (phase : Phase) : Prop :=
  (s.connections connectionId).map Connection.phase = some phase

def Enabled : Event Sender → Prop
  | .tick _ => True
  | .attachNew connectionId sessionId _ =>
    s.locked = none ∧ (s.connections connectionId).isNone ∧ (s.entries sessionId).isNone
  | .lookUp connectionId _ _ => s.locked = none ∧ (s.connections connectionId).isNone
  | .checkActive connectionId => s.inPhase connectionId .checked
  | .setSender connectionId => s.inPhase connectionId .vacant
  | .attach connectionId => s.inPhase connectionId .senderSet
  | .release connectionId => s.inPhase connectionId .attached
  | .clearSender connectionId => s.inPhase connectionId .clearing
  | .expire connectionId => s.inPhase connectionId .detached ∧ s.locked = none

variable (connectionId : ConnectionId)

def setConnection (connection : Connection Sender) (s : State Sender) : State Sender :=
  { s with connections := update s.connections connectionId (some connection) }

variable (sessionId : SessionId)

def setEntry (entry : SessionEntry Sender) (s : State Sender) : State Sender :=
  { s with entries := update s.entries sessionId (some entry) }

def unknownSession : Str := "unknown session id " ++ sessionId

def alreadyAttached : Str :=
  "session " ++ sessionId ++ " is already attached to another connection"

/-- The session to resume must be known and not expired; one that has expired is removed. -/
def lookUp (sender : Sender) (s : State Sender) : State Sender :=
  let failed : Connection Sender := ⟨sessionId, sender, .failed (unknownSession sessionId)⟩
  match (s.entries sessionId).filter fun _ => sessionId ∈ s.sessions with
  | none => setConnection connectionId failed s
  | some entry =>
    if entry.isExpired s.now then
      setConnection connectionId failed { s with sessions := s.sessions.erase sessionId }
    else
      setConnection connectionId ⟨sessionId, sender, .checked⟩
        { s with locked := some connectionId }

def advance (f : Connection Sender → SessionEntry Sender → State Sender → State Sender)
    (s : State Sender) : State Sender :=
  match s.connections connectionId with
  | none => s
  | some connection =>
    match s.entries connection.sessionId with
    | none => s
    | some entry => f connection entry s

def checkActive : State Sender → State Sender :=
  advance connectionId fun connection entry s =>
    if entry.currentConnectionId.isSome then
      setConnection connectionId
        { connection with phase := .failed (alreadyAttached connection.sessionId) }
        { s with locked := none }
    else setConnection connectionId { connection with phase := .vacant } s

def setSender : State Sender → State Sender :=
  advance connectionId fun connection entry s =>
    setConnection connectionId { connection with phase := .senderSet }
      (setEntry connection.sessionId (entry.setNotificationSender (some connection.sender)) s)

def attach : State Sender → State Sender :=
  advance connectionId fun connection entry s =>
    setConnection connectionId { connection with phase := .attached }
      (setEntry connection.sessionId (entry.attach connectionId) { s with locked := none })

def release : State Sender → State Sender :=
  advance connectionId fun connection entry s =>
    if entry.currentConnectionId = some connectionId then
      setConnection connectionId { connection with phase := .clearing }
        (setEntry connection.sessionId (entry.detach connectionId s.now) s)
    else s

def clearSender : State Sender → State Sender :=
  advance connectionId fun connection entry s =>
    setConnection connectionId { connection with phase := .detached }
      (setEntry connection.sessionId (entry.setNotificationSender none) s)

def expireIfDetached : State Sender → State Sender :=
  advance connectionId fun connection entry s =>
    setConnection connectionId { connection with phase := .ended }
      (if entry.isDetachedConnectionExpired connectionId s.now then
        { s with sessions := s.sessions.erase connection.sessionId }
      else s)

def next : Event Sender → State Sender
  | .tick duration => { s with now := s.now + duration }
  | .attachNew connectionId sessionId sender =>
    setConnection connectionId ⟨sessionId, sender, .attached⟩
      (setEntry sessionId (.new sender connectionId)
        { s with sessions := insert sessionId s.sessions })
  | .lookUp connectionId sessionId sender => lookUp connectionId sessionId sender s
  | .checkActive connectionId => checkActive connectionId s
  | .setSender connectionId => setSender connectionId s
  | .attach connectionId => attach connectionId s
  | .release connectionId => release connectionId s
  | .clearSender connectionId => clearSender connectionId s
  | .expire connectionId => expireIfDetached connectionId s

def registry : EventSystem (State Sender) (Event Sender) := ⟨Enabled, next⟩

/-- A detaching connection clears the sender before another one that resumes the session has set
its own, or after that one has detached as well. -/
def ClearsItsOwn : Event Sender → Prop
  | .clearSender connectionId => ∀ connection, s.connections connectionId = some connection →
      (∀ entry, s.entries connection.sessionId = some entry → entry.currentConnectionId = none) ∧
      ∀ other otherConnection, s.connections other = some otherConnection →
        otherConnection.sessionId = connection.sessionId → otherConnection.phase ≠ .senderSet
  | _ => True

/-- The sender in the process handler of an attached session is the one its connection attached
with. -/
def KeepsNotifications : Prop :=
  ∀ sessionId entry connectionId, s.entries sessionId = some entry →
    entry.currentConnectionId = some connectionId →
    ∃ connection, s.connections connectionId = some connection ∧
      connection.sessionId = sessionId ∧ entry.notifications = some connection.sender

/-- Whoever resumes a session holds the lock, and from its check on nobody is attached. -/
structure Inv (s : State Sender) : Prop where
  attached : KeepsNotifications s
  locked : ∀ connectionId connection, s.connections connectionId = some connection →
    connection.phase.resumes = true → s.locked = some connectionId
  vacant : ∀ connectionId connection, s.connections connectionId = some connection →
    connection.phase = .vacant ∨ connection.phase = .senderSet →
    ∃ entry, s.entries connection.sessionId = some entry ∧ entry.currentConnectionId = none
  senderSet : ∀ connectionId connection, s.connections connectionId = some connection →
    connection.phase = .senderSet →
    ∃ entry, s.entries connection.sessionId = some entry ∧
      entry.notifications = some connection.sender

section Preservation

variable {s : State Sender}

theorem setEntry_self (si : SessionId) (entry : SessionEntry Sender) (s : State Sender) :
    (setEntry si entry s).entries si = some entry :=
  update_self ..

theorem setEntry_of_ne (h : other ≠ si) (e : SessionEntry Sender) (s : State Sender) :
    (setEntry si e s).entries other = s.entries other :=
  update_of_ne h ..

theorem Inv.setConnection (h : Inv s) (ci : ConnectionId)
    (hsm : ∀ old, s.connections ci = some old → c.sessionId = old.sessionId ∧ c.sender = old.sender)
    (hl : c.phase.resumes = true → s.locked = some ci)
    (hv : c.phase = .vacant ∨ c.phase = .senderSet → ∃ e, s.entries c.sessionId = some e ∧
      e.currentConnectionId = none)
    (hsn : c.phase = .senderSet → ∃ e, s.entries c.sessionId = some e ∧ e.notifications = some
      c.sender) : Inv (setConnection ci c s) := by
  refine ⟨?_, ?_, ?_, ?_⟩
  · intro si e o he hc
    obtain ⟨f, hf, hs, hn⟩ := h.attached si e o he hc
    by_cases heq : o = ci
    · subst heq
      obtain ⟨hs', hsn'⟩ := hsm f hf
      exact ⟨c, update_self .., hs'.trans hs, hsn' ▸ hn⟩
    · exact ⟨f, (update_of_ne heq ..).trans hf, hs, hn⟩
  · exact forall_update_some h.locked hl
  · exact forall_update_some h.vacant hv
  · exact forall_update_some h.senderSet hsn

theorem Inv.setEntry (h : Inv s) (si : SessionId)
    (ha : ∀ ci, e.currentConnectionId = some ci → ∃ c, s.connections ci = some c ∧ c.sessionId = si
      ∧ e.notifications = some c.sender)
    (hv : ∀ ci c, s.connections ci = some c → c.sessionId = si → c.phase = .vacant ∨ c.phase =
      .senderSet → e.currentConnectionId = none)
    (hs : ∀ ci c, s.connections ci = some c → c.sessionId = si → c.phase = .senderSet →
      e.notifications = some c.sender) : Inv (setEntry si e s) := by
  refine ⟨?_, h.locked, ?_, ?_⟩
  · intro o f ci hf hcr
    rcases update_some_cases hf with ⟨rfl, rfl⟩ | ⟨_, hf⟩
    · exact ha ci hcr
    · exact h.attached o f ci hf hcr
  · intro ci c hc hp
    by_cases heq : c.sessionId = si
    · exact ⟨e, heq ▸ setEntry_self .., hv ci c hc heq hp⟩
    · rw [setEntry_of_ne heq]
      exact h.vacant ci c hc hp
  · intro ci c hc hp
    by_cases heq : c.sessionId = si
    · exact ⟨e, heq ▸ setEntry_self .., hs ci c hc heq hp⟩
    · rw [setEntry_of_ne heq]
      exact h.senderSet ci c hc hp

theorem Inv.lock (h : Inv s)
    (hh : ∀ ci c, s.connections ci = some c → c.phase.resumes = true → holder = some ci) :
    Inv { s with locked := holder } :=
  { h with locked := hh }

theorem Inv.not_resuming (h : Inv s) (hf : s.locked = none)
    (hc : s.connections ci = some c) : c.phase.resumes = false := by
  by_contra hr
  rw [Bool.not_eq_false] at hr
  cases hf.symm.trans (h.locked ci c hc hr)

theorem resumes_of_vacant {p : Phase} (h : p = .vacant ∨ p = .senderSet) : p.resumes = true := by
  rcases h with rfl | rfl <;> rfl

theorem advance_eq (hc : s.connections ci = some c) (he : s.entries c.sessionId = some e)
    (f : Connection Sender → SessionEntry Sender → State Sender → State Sender) :
    advance ci f s = f c e s := by
  simp [advance, hc, he]

theorem advance_of {P : State Sender → Prop} (h : P s) (hp : s.inPhase ci p) (hf : ∀ c e,
      s.connections ci = some c → c.phase = p → s.entries c.sessionId = some e → P (f c e s)) :
    P (advance ci f s) := by
  unfold State.inPhase at hp
  cases hc : s.connections ci with
  | none => rw [hc] at hp; cases hp
  | some c =>
    rw [hc, map_some, some.injEq] at hp
    cases he : s.entries c.sessionId with
    | none => simpa only [advance, hc, he] using h
    | some e =>
      rw [advance_eq hc he]
      exact hf c e hc hp he

theorem Inv.enter (h : Inv s)
    (hs : ∀ old, s.connections ci = some old → c.sessionId = old.sessionId ∧ c.sender = old.sender)
    (hp : c.phase.resumes = false) : Inv (SessionRegistry.setConnection ci c s) := by
  have hn : ¬ (c.phase = .vacant ∨ c.phase = .senderSet) := fun hv => by
    cases hp.symm.trans (resumes_of_vacant hv)
  refine h.setConnection ci hs (fun hr => ?_) (absurd · hn) fun hs => absurd (.inr hs) hn
  cases hp.symm.trans hr

theorem same_session (hc : s.connections ci = some c) (ho : s.connections ci = some old) :
    { c with phase := phase }.sessionId = old.sessionId ∧
      { c with phase := phase }.sender = old.sender := by
  cases hc.symm.trans ho
  exact ⟨rfl, rfl⟩

variable (h : Inv s)

include h

theorem Inv.setPhase (hc : s.connections ci = some c) (hp : phase.resumes = false) :
    Inv (SessionRegistry.setConnection ci { c with phase := phase } s) :=
  h.enter (fun _ => same_session hc) hp

/-- Whoever holds the lock was the only one to resume, and gives it back. -/
theorem Inv.unlock (hc : s.connections ci = some c) (hl : s.locked = some ci)
    (hp : phase.resumes = false) :
    Inv { SessionRegistry.setConnection ci { c with phase := phase } s with locked := none } := by
  apply (h.setPhase hc hp).lock
  intro o f hf hr
  rcases update_some_cases hf with ⟨_, rfl⟩ | ⟨hne, hf⟩
  · cases hp.symm.trans hr
  · exact absurd (some.inj (hl.symm.trans (h.locked o f hf hr))).symm hne

theorem Inv.setEntry_unlocked (hf : s.locked = none) (si : SessionId)
    (ha : ∀ ci, e.currentConnectionId = some ci → ∃ c, s.connections ci = some c ∧ c.sessionId = si
      ∧ e.notifications = some c.sender) : Inv (SessionRegistry.setEntry si e s) := by
  apply h.setEntry si ha <;> intro o c hc _ hp
  · cases (h.not_resuming hf hc).symm.trans (resumes_of_vacant hp)
  · cases (h.not_resuming hf hc).symm.trans (resumes_of_vacant (.inr hp))

theorem Inv.lookUp (hf : s.locked = none) (hn : (s.connections i).isNone) (sessionId : SessionId)
    (sn : Sender) : Inv (lookUp i sessionId sn s) := by
  rw [isNone_iff_eq_none] at hn
  unfold SessionRegistry.lookUp
  split
  · exact h.enter (fun _ ho => by cases hn.symm.trans ho) rfl
  · split
    · have he : Inv { s with sessions := s.sessions.erase sessionId } :=
        { h with }
      exact he.enter (fun _ ho => by cases hn.symm.trans ho) rfl
    · have hl : Inv { s with locked := some i } := by
        apply h.lock
        intro o c hc hr
        cases (h.not_resuming hf hc).symm.trans hr
      apply hl.setConnection
      · exact fun _ ho => by cases hn.symm.trans ho
      · exact fun _ => rfl
      · exact fun hp => by rcases hp with hp | hp <;> cases hp
      · exact nofun

theorem Inv.attachNew (hn : (s.connections ci).isNone) (hf : s.locked = none) (sn : Sender) :
    Inv (next s (.attachNew ci si sn)) := by
  rw [isNone_iff_eq_none] at hn
  have hk : Inv { s with sessions := insert si s.sessions } := { h with }
  have hcn : Inv (SessionRegistry.setConnection ci
      ⟨si, sn, .attached⟩ { s with sessions := insert si s.sessions }) :=
    hk.enter (fun _ ho => by cases hn.symm.trans ho) rfl
  apply hcn.setEntry_unlocked hf
  intro o hcr
  cases hcr
  exact ⟨_, update_self .., rfl, rfl⟩

theorem Inv.checkActive (hp : s.inPhase i .checked) : Inv (checkActive i s) := by
  apply advance_of h hp
  intro c e hc hch he
  have hl : s.locked = some i := h.locked i c hc (by rw [hch]; rfl)
  by_cases ha : e.currentConnectionId.isSome = true
  · rw [if_pos ha]
    exact h.unlock hc hl rfl
  · rw [if_neg ha]
    have hn : e.currentConnectionId = none := by
      simpa using ha
    apply h.setConnection
    · exact fun _ => same_session hc
    · exact fun _ => hl
    · exact fun _ => ⟨e, he, hn⟩
    · exact nofun

theorem Inv.setSender (hp : s.inPhase i .vacant) : Inv (setSender i s) := by
  apply advance_of h hp
  intro c e hc hv he
  have hl : s.locked = some i := h.locked i c hc (by rw [hv]; rfl)
  have hn : e.currentConnectionId = none := by
    obtain ⟨f, hf, hcr⟩ := h.vacant i c hc (.inl hv)
    cases he.symm.trans hf
    exact hcr
  have hst : Inv (SessionRegistry.setEntry c.sessionId
      (e.setNotificationSender (some c.sender)) s) := by
    apply h.setEntry
    · exact fun o hcr => by cases hn.symm.trans hcr
    · exact fun _ _ _ _ _ => hn
    · intro o f hf _ hs
      have ho := h.locked o f hf (by rw [hs]; rfl)
      cases some.inj (hl.symm.trans ho)
      cases hc.symm.trans hf
      cases hv.symm.trans hs
  apply hst.setConnection
  · exact fun _ => same_session hc
  · exact fun _ => hl
  · exact fun _ => ⟨_, setEntry_self .., hn⟩
  · exact fun _ => ⟨_, setEntry_self .., rfl⟩

theorem Inv.attach (hp : s.inPhase i .senderSet) : Inv (attach i s) := by
  apply advance_of h hp
  intro c e hc hs he
  have hl : s.locked = some i := h.locked i c hc (by rw [hs]; rfl)
  have hsn : e.notifications = some c.sender := by
    obtain ⟨f, hf, hst⟩ := h.senderSet i c hc hs
    cases he.symm.trans hf
    exact hst
  apply (h.unlock hc hl rfl).setEntry_unlocked rfl
  intro o hcr
  cases hcr
  exact ⟨_, update_self .., rfl, hsn⟩

theorem Inv.release (hp : s.inPhase ci .attached) : Inv (release ci s) := by
  apply advance_of h hp
  intro c e hcn _ he
  by_cases hc : e.currentConnectionId = some ci
  · rw [if_pos hc]
    have hr : Inv (SessionRegistry.setEntry c.sessionId (e.detach ci s.now) s) := by
      apply h.setEntry
      · exact fun o ho => by cases ho
      · exact fun _ _ _ _ _ => rfl
      · intro o f hf hss hs
        obtain ⟨e', he', hst⟩ := h.senderSet o f hf hs
        rw [hss, he, some.injEq] at he'
        rwa [← he'] at hst
    exact hr.setPhase hcn rfl
  · rw [if_neg hc]
    exact h

theorem Inv.clearSender (hp : s.inPhase ci .clearing)
    (hcn : ClearsItsOwn s (.clearSender ci)) : Inv (clearSender ci s) := by
  apply advance_of h hp
  intro c e hc _ he
  obtain ⟨hfr, hn⟩ := hcn c hc
  have hcr := hfr e he
  have hcl : Inv (SessionRegistry.setEntry c.sessionId (e.setNotificationSender none) s) := by
    apply h.setEntry
    · exact fun o ho => by cases hcr.symm.trans ho
    · exact fun _ _ _ _ _ => hcr
    · exact fun o f hf hss hs =>
        absurd hs (hn o f hf hss)
  exact hcl.setPhase hc rfl

theorem Inv.expire (hp : s.inPhase ci .detached) : Inv (expireIfDetached ci s) := by
  apply advance_of h hp
  intro c e hc _ _
  split
  · have he : Inv { s with sessions := s.sessions.erase c.sessionId } :=
      { h with }
    exact he.setPhase hc rfl
  · exact h.setPhase hc rfl

theorem Inv.next {e : Event Sender} (he : Enabled s e)
    (hc : ClearsItsOwn s e) : Inv (next s e) := by
  cases e with
  | tick d => exact { h with }
  | attachNew ci si sn => exact h.attachNew he.2.1 he.1 sn
  | lookUp ci si sn => exact h.lookUp he.1 he.2 si sn
  | checkActive ci => exact h.checkActive he
  | setSender ci => exact h.setSender he
  | attach ci => exact h.attach he
  | release ci => exact h.release he
  | clearSender ci => exact h.clearSender he hc
  | expire ci => exact h.expire he.1

end Preservation

/-- However connections attach, detach and expire, as long as each one that detaches clears no
sender but its own, every attached session has the sender of its connection. -/
theorem attached_keeps_notifications {s : State Sender}
    (h : registry.Reaches ClearsItsOwn State.new s) : KeepsNotifications s := by
  have hi : Inv s := by
    refine invariant (fun s event hs he hcn => hs.next he hcn) h ?_
    exact ⟨nofun, nofun, nofun, nofun⟩
  exact hi.attached

def resume : List (Event ℕ) :=
  [.lookUp 1 "s" 8, .checkActive 1, .setSender 1, .attach 1]

def handOver : List (Event ℕ) :=
  [.attachNew 0 "s" 7, .release 0, .clearSender 0] ++ resume

theorem attached_keeps_notifications_hand_over :
    KeepsNotifications (registry.run handOver State.new) ∧
      ((registry.run handOver State.new).entries "s").bind SessionEntry.notifications = some 8 := by
  have hcl : ClearsItsOwn (registry.run [.attachNew 0 "s" 7, .release 0] State.new : State ℕ)
      (.clearSender 0) := by
    intro c hc
    cases hc
    refine ⟨fun e he => by cases he; rfl, ?_⟩
    intro o oc ho _
    rcases update_some_cases ho with ⟨rfl, rfl⟩ | ⟨hne, ho⟩
    · exact Phase.noConfusion
    · rcases update_some_cases ho with ⟨rfl, _⟩ | ⟨_, ho⟩
      · contradiction
      · cases ho
  have ha : registry.Allows ClearsItsOwn handOver (State.new : State ℕ) :=
    ⟨⟨rfl, rfl, rfl⟩, trivial, rfl, trivial, rfl, hcl, ⟨rfl, rfl⟩, trivial, rfl, trivial, rfl,
      trivial, rfl, trivial, trivial⟩
  exact ⟨attached_keeps_notifications (of_allows ha), rfl⟩

def Quiet : Prop :=
  ∀ connectionId connection, s.connections connectionId = some connection →
    connection.phase.resumes = false ∧ connection.phase ≠ .clearing

/-- The session is resumed between the two halves of detaching, and its sender is cleared: the
second connection stays attached without notifications. -/
theorem resumed_session_is_silent :
    ∃ s : State ℕ, registry.Reaches EventSystem.always State.new s ∧ Quiet s ∧
      (s.entries "s").bind SessionEntry.currentConnectionId = some 1 ∧
      (s.entries "s").bind SessionEntry.notifications = none := by
  let es : List (Event ℕ) :=
    [.attachNew 0 "s" 7, .release 0] ++ resume ++ [.clearSender 0]
  have ha : registry.Allows EventSystem.always es State.new :=
    ⟨⟨rfl, rfl, rfl⟩, trivial, rfl, trivial, ⟨rfl, rfl⟩, trivial, rfl, trivial, rfl, trivial, rfl,
      trivial, rfl, trivial, trivial⟩
  refine ⟨_, of_allows ha, ?_, rfl, rfl⟩
  intro ci c hc
  by_cases hf : ci = 0
  · subst hf
    cases hc
    exact ⟨rfl, Phase.noConfusion⟩
  · by_cases hs : ci = 1
    · subst hs
      cases hc
      exact ⟨rfl, Phase.noConfusion⟩
    · change update (update (update (update (update
        (update (update (fun _ => none) 0 _) 0 _) 1 _) 1 _) 1 _) 1 _) 0 _
        ci = some c at hc
      simp only [update_of_ne hf, update_of_ne hs] at hc
      cases hc

end SessionRegistry
