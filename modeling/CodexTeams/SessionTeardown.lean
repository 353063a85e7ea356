import CodexTeams.SessionRegistry

/-! Which sessions of the exec server are torn down. Whoever removes a session shuts down its
process handler later, outside the lock. -/
namespace SessionTeardown

open SessionRegistry Runs Function Phase

variable {Sender : Type}

structure TeardownState (Sender : Type) where
  registry : State Sender
  /-- The removals that have not called the shutdown yet. -/
  pending : SessionId → ℕ
  shutdowns : SessionId → ℕ

inductive TeardownEvent (Sender : Type)
  | registry (event : Event Sender)
  | shutdown (sessionId : SessionId)

def TeardownState.new : TeardownState Sender := ⟨State.new, fun _ => 0, fun _ => 0⟩

variable (s : TeardownState Sender)

def enabled : TeardownEvent Sender → Prop
  | .registry event => Enabled s.registry event
  | .shutdown sessionId => 0 < s.pending sessionId

def nextState : TeardownEvent Sender → TeardownState Sender
  | .registry event =>
    let registry := next s.registry event
    { s with
      registry := registry
      pending := fun sessionId => s.pending sessionId +
        if sessionId ∈ s.registry.sessions ∧ sessionId ∉ registry.sessions then 1 else 0 }
  | .shutdown sessionId =>
    { s with
      pending := update s.pending sessionId (s.pending sessionId - 1)
      shutdowns := update s.shutdowns sessionId (s.shutdowns sessionId + 1) }

def teardown : EventSystem (TeardownState Sender) (TeardownEvent Sender) := ⟨enabled, nextState⟩

variable (s : State Sender)

def Attached (connectionId : ConnectionId) (sessionId : SessionId) : Prop :=
  ∃ connection, s.connections connectionId = some connection ∧
    connection.sessionId = sessionId ∧ connection.phase = .attached

variable (sessionId : SessionId)

/-- The session was there, and the registry does not know it any more. -/
def Removed : Prop :=
  sessionId ∉ s.sessions ∧ s.entries sessionId ≠ none

def DetachedAndExpired : Prop :=
  (∀ connectionId, ¬ Attached s connectionId sessionId) ∧
    ∃ entry, s.entries sessionId = some entry ∧ entry.currentConnectionId = none ∧
      entry.isExpired s.now

/-- An attached connection is the one its session names, one that resumes holds the lock, and a
removed session has been left and has expired. -/
structure Guarded (s : State Sender) : Prop where
  known : ∀ i ∈ s.sessions, s.entries i ≠ none
  attached : ∀ i c, s.connections i = some c → c.phase = .attached → s.entries c.sessionId ≠ none ∧
      ∀ e, s.entries c.sessionId = some e → e.currentConnectionId = some i
  locked : ∀ i c, s.connections i = some c → c.phase.resumes = true →
    s.locked = some i ∧ c.sessionId ∈ s.sessions
  vacant : ∀ i c e, s.connections i = some c → c.phase = .vacant ∨ c.phase = .senderSet →
    s.entries c.sessionId = some e → e.currentConnectionId = none
  deadline : ∀ i e, s.entries i = some e → e.detachedExpiresAt ≠ none → e.currentConnectionId = none
  removed : ∀ i e, s.entries i = some e → i ∉ s.sessions →
    e.currentConnectionId = none ∧ e.isExpired s.now = true

variable {s : State Sender}

theorem isExpired_mono {e : SessionEntry Sender} (hm : m ≤ n) (h : e.isExpired m = true) :
    e.isExpired n = true := by
  simp only [SessionEntry.isExpired, Option.any_eq_true, decide_eq_true_eq] at h ⊢
  obtain ⟨t, ht, hl⟩ := h
  exact ⟨t, ht, Nat.le_trans hl hm⟩

/-- A connection and its session change together. -/
theorem Guarded.put (h : Guarded s) (hi : s.entries c.sessionId = some e) (hl : ∀ j ≠ i, s.locked =
      some j → l = some j ∧ (e.currentConnectionId = none → f.currentConnectionId = none))
    (ho : ∀ j ≠ i, e.currentConnectionId = some j → f.currentConnectionId = some j)
    (ha : c.phase = .attached → f.currentConnectionId = some i)
    (hc : c.phase.resumes = true → l = some i ∧ c.sessionId ∈ s.sessions)
    (hv : c.phase = .vacant ∨ c.phase = .senderSet → f.currentConnectionId = none)
    (hd : f.detachedExpiresAt ≠ none → f.currentConnectionId = none)
    (hr : c.sessionId ∉ s.sessions → f.currentConnectionId = none ∧ f.isExpired s.now = true) :
    Guarded (setConnection i c (setEntry c.sessionId f { s with locked := l })) := by
  refine ⟨fun j hj => ?_, fun j d hj hp => ?_, fun j d hj hp => ?_, fun j d g hj hp hg => ?_,
    fun j g hg hp => ?_, fun j g hg hp => ?_⟩
  · simp only [setConnection, setEntry, update_apply]
    split
    · exact Option.some_ne_none _
    · exact h.known j hj
  · rcases update_some_cases hj with ⟨rfl, rfl⟩ | ⟨hji, hj⟩
    · simp only [setConnection, setEntry, update_self]
      exact ⟨Option.some_ne_none _, fun g hg => Option.some.inj hg ▸ ha hp⟩
    · obtain ⟨hs, hx⟩ := h.attached j d hj hp
      simp only [setConnection, setEntry]
      refine ⟨?_, fun g hg => ?_⟩
      · rw [update_apply]
        split
        · exact Option.some_ne_none _
        · exact hs
      · rcases update_some_cases hg with ⟨he, rfl⟩ | ⟨_, hg⟩
        · exact ho j hji (hx e (he ▸ hi))
        · exact hx g hg
  · rcases update_some_cases hj with ⟨rfl, rfl⟩ | ⟨hji, hj⟩
    · exact hc hp
    · have hk := h.locked j d hj hp
      exact ⟨(hl j hji hk.1).1, hk.2⟩
  · rcases update_some_cases hj with ⟨rfl, rfl⟩ | ⟨hji, hj⟩ <;>
      rcases update_some_cases hg with ⟨he, rfl⟩ | ⟨hne, hg⟩
    · exact hv hp
    · exact absurd rfl hne
    · exact (hl j hji (h.locked j d hj (resumes_of_vacant hp)).1).2 (h.vacant j d e hj hp (he ▸ hi))
    · exact h.vacant j d g hj hp hg
  · exact forall_update_some h.deadline hd j g hg hp
  · exact forall_update_some h.removed hr j g hg hp

theorem Guarded.expire (h : Guarded s) (he : Enabled s (.expire i)) :
    Guarded (next s (.expire i)) := by
  have ⟨hk, ha, hl, hv, hd, hr⟩ := h
  obtain ⟨he, hf⟩ := he
  rw [SessionRegistry.next, expireIfDetached]
  refine advance_of h he fun c e hc hp hi => ?_
  simp only [setConnection]
  split
  · next hx =>
    simp only [SessionEntry.isDetachedConnectionExpired, Bool.and_eq_true,
      Option.isNone_iff_eq_none] at hx
    constructor <;> grind [resumes, SessionEntry.isExpired, update_apply]
  · constructor <;> grind [resumes, update_apply]

theorem Guarded.next (h : Guarded s) (he : Enabled s e) : Guarded (next s e) := by
  have ⟨hk, ha, hl, hv, hd, hr⟩ := h
  cases e with
  | tick d =>
    refine ⟨hk, ha, hl, hv, hd, fun i e hi hn => ?_⟩
    obtain ⟨hc, ht⟩ := hr i e hi hn
    exact ⟨hc, isExpired_mono (Nat.le_add_right _ _) ht⟩
  | attachNew i j n =>
    simp only [Enabled, Option.isNone_iff_eq_none] at he
    simp only [SessionRegistry.next, setConnection, setEntry, SessionEntry.new]
    constructor <;> grind [resumes, update_apply]
  | lookUp i j n =>
    simp only [Enabled, Option.isNone_iff_eq_none] at he
    simp only [SessionRegistry.next, lookUp, setConnection]
    split
    · constructor <;> grind [resumes, update_apply]
    · next hf =>
      have hm := of_decide_eq_true (Option.filter_eq_some_iff.mp hf).2
      split <;> constructor <;> grind [resumes, SessionEntry.isExpired, update_apply]
  | checkActive i =>
    rw [SessionRegistry.next, checkActive]
    refine advance_of h he fun c e hc hp hi => ?_
    simp only [setConnection, Option.isSome_iff_ne_none]
    split <;> constructor <;> grind [resumes, update_apply]
  | setSender i =>
    rw [SessionRegistry.next, setSender]
    refine advance_of h he fun c e hc hp hi => ?_
    have hn := hv i c e hc (.inl hp) hi
    exact h.put hi (fun _ _ hs => ⟨hs, id⟩) (fun _ _ => id) nofun
      (fun _ => hl i c hc (resumes_of_vacant (.inl hp))) (fun _ => hn) (fun _ => hn)
      (hr c.sessionId e hi)
  | attach i =>
    rw [SessionRegistry.next, attach]
    refine advance_of h he fun c e hc hp hi => ?_
    have ⟨hs, hm⟩ := hl i c hc (resumes_of_vacant (.inr hp))
    have hn := hv i c e hc (.inr hp) hi
    exact h.put hi (fun j hj hk => absurd (Option.some.inj (hk.symm.trans hs)) hj)
      (fun _ _ hj => nomatch hn.symm.trans hj) (fun _ => rfl) nofun nofun
      (absurd rfl) (absurd hm)
  | release i =>
    refine advance_of h he fun c e hc hp hi => ?_
    split
    · next hcur =>
      refine h.put hi (fun _ _ hs => ⟨hs, fun _ => rfl⟩) (fun j hj hk => ?_) nofun nofun nofun
        (fun _ => rfl) fun hm => ?_
      · exact absurd (Option.some.inj (hk.symm.trans hcur)) hj
      · exact nomatch (hr c.sessionId e hi hm).1.symm.trans hcur
    · exact h
  | clearSender i =>
    rw [SessionRegistry.next, clearSender]
    refine advance_of h he fun c e hc hp hi => ?_
    exact h.put hi (fun _ _ hs => ⟨hs, id⟩) (fun _ _ => id) nofun nofun nofun
      (hd c.sessionId e hi) (hr c.sessionId e hi)
  | expire i => exact h.expire he

/-- An identifier of a session is not drawn again, so a session is not put back. -/
theorem session_next (hs : s.entries i ≠ none) (he : Enabled s e) :
    (next s e).entries i ≠ none ∧ (i ∈ (next s e).sessions → i ∈ s.sessions) := by
  let P (t : State Sender) := t.entries i ≠ none ∧ (i ∈ t.sessions → i ∈ s.sessions)
  have h : P s := ⟨hs, id⟩
  cases e with
  | tick d => exact h
  | attachNew j k n =>
    simp only [Enabled, Option.isNone_iff_eq_none] at he
    simp only [next, setConnection, setEntry]
    grind [update_apply]
  | lookUp j k n =>
    simp only [next, lookUp, setConnection]
    grind
  | checkActive j =>
    refine advance_of h he fun c e hc hp hi => ?_
    simp only [setConnection]
    grind
  | release j =>
    refine advance_of h he fun c e hc hp hi => ?_
    split
    · simp only [setConnection, setEntry]
      grind [update_apply]
    · exact h
  | setSender j | attach j | clearSender j =>
    refine advance_of h he fun c e hc hp hi => ?_
    simp only [setConnection, setEntry]
    grind [update_apply]
  | expire j =>
    refine advance_of h he.1 fun c e hc hp hi => ?_
    simp only [setConnection]
    grind

theorem Removed.next (h : Removed s i) (he : Enabled s e) : Removed (next s e) i :=
  ⟨fun hm => h.1 ((session_next h.2 he).2 hm), (session_next h.2 he).1⟩

/-- A session is shut down, or about to be, at most once, and then it has been removed. -/
structure Inv (s : TeardownState Sender) : Prop where
  guarded : Guarded s.registry
  once : ∀ i, s.pending i + s.shutdowns i ≤ 1
  gone : ∀ i, 0 < s.pending i + s.shutdowns i → Removed s.registry i

theorem Inv.nextState {s : TeardownState Sender} (h : Inv s) (he : enabled s e) :
    Inv (nextState s e) := by
  obtain ⟨hg, ho, hr⟩ := h
  cases e with
  | registry e =>
    refine ⟨hg.next he, fun i => ?_, fun i hi => ?_⟩
    · have hi := ho i
      simp only [SessionTeardown.nextState]
      split
      · next hs =>
        have hn : ¬ 0 < s.pending i + s.shutdowns i := fun h => (hr i h).1 hs.1
        omega
      · omega
    · simp only [SessionTeardown.nextState] at hi ⊢
      split at hi
      · next hs => exact ⟨hs.2, (session_next (hg.known i hs.1) he).1⟩
      · exact (hr i hi).next he
  | shutdown i =>
    have hs : ∀ j, (SessionTeardown.nextState s (.shutdown i)).pending j +
        (SessionTeardown.nextState s (.shutdown i)).shutdowns j = s.pending j + s.shutdowns j := by
      intro j
      simp only [SessionTeardown.nextState, update_apply]
      simp only [enabled] at he
      split
      · subst j
        omega
      · rfl
    exact ⟨hg, fun j => hs j ▸ ho j, fun j hj => hr j (hs j ▸ hj)⟩

theorem Removed.reaches {s : TeardownState Sender} (h : Removed s.registry i)
    (hr : teardown.Reaches EventSystem.always s t) : Removed t.registry i := by
  induction hr with
  | refl => exact h
  | tail _ hl ih =>
    obtain ⟨e, he, -, rfl⟩ := hl
    cases e with
    | registry e => exact ih.next he
    | shutdown j => exact ih

theorem Guarded.not_attached (h : Guarded s) (hr : Removed s i) : DetachedAndExpired s i := by
  obtain ⟨e, he⟩ := Option.ne_none_iff_exists'.mp hr.2
  obtain ⟨hn, hx⟩ := h.removed i e he hr.1
  refine ⟨?_, e, he, hn, hx⟩
  rintro j ⟨c, hc, rfl, hp⟩
  rw [(h.attached j c hc hp).2 e he] at hn
  cases hn

/-- However attaching, detaching, expiry and shutdowns interleave: one connection at most is
attached to a session; the process handler of a session is shut down at most once, and only while
nobody is attached and the deadline has passed; and a removed session stays so. -/
theorem only_expired_torn_down {s : TeardownState Sender}
    (h : teardown.Reaches EventSystem.always .new s) (sessionId : SessionId) :
    (∀ i j, Attached s.registry i sessionId → Attached s.registry j sessionId → i = j) ∧
      s.shutdowns sessionId ≤ 1 ∧ (teardown.Enabled s (.shutdown sessionId) →
        s.shutdowns sessionId = 0 ∧ DetachedAndExpired s.registry sessionId) ∧
      (Removed s.registry sessionId → ∀ t, teardown.Reaches EventSystem.always s t →
        Removed t.registry sessionId ∧ ∀ i, ¬ Attached t.registry i sessionId) := by
  have hi : ∀ {t : TeardownState Sender}, teardown.Reaches EventSystem.always .new t → Inv t := by
    intro t ht
    refine EventSystem.Reaches.invariant (fun s e hs he _ => hs.nextState he) ht ?_
    have hg : Guarded (State.new : State Sender) := by constructor <;> simp [State.new]
    exact ⟨hg, fun _ => Nat.zero_le 1, fun _ h => absurd h (Nat.lt_irrefl 0)⟩
  have hs := hi h
  refine ⟨?_, (Nat.le_add_left _ _).trans (hs.once sessionId), ?_, ?_⟩
  · rintro i j ⟨c, hc, rfl, hp⟩ ⟨d, hd, he, hq⟩
    obtain ⟨e, hse⟩ := Option.ne_none_iff_exists'.mp (hs.guarded.attached i c hc hp).1
    have hci := (hs.guarded.attached i c hc hp).2 e hse
    have hcj := (hs.guarded.attached j d hd hq).2 e (he ▸ hse)
    exact Option.some.inj (hci.symm.trans hcj)
  · intro he
    have ho := hs.once sessionId
    have hp : 0 < s.pending sessionId := he
    exact ⟨by omega, hs.guarded.not_attached (hs.gone sessionId (by omega))⟩
  · intro hr t ht
    have hrt := hr.reaches ht
    exact ⟨hrt, ((hi (h.trans ht)).guarded.not_attached hrt).1⟩

/-- The first connection leaves, nobody comes back, and its timer removes the session. -/
def leaveAndExpire : List (TeardownEvent ℕ) :=
  [.registry (.attachNew 0 "s" 7), .registry (.release 0), .registry (.clearSender 0),
    .registry (.tick detachedSessionTtl), .registry (.expire 0)]

theorem only_expired_torn_down_timer :
    let s := teardown.run leaveAndExpire .new
    teardown.Enabled s (.shutdown "s") ∧ DetachedAndExpired s.registry "s" := by
  have ha : teardown.Allows EventSystem.always leaveAndExpire (.new : TeardownState ℕ) :=
    ⟨⟨rfl, rfl, rfl⟩, trivial, rfl, trivial, rfl, trivial, trivial, trivial, ⟨rfl, rfl⟩, trivial,
      trivial⟩
  have he : teardown.Enabled (teardown.run leaveAndExpire .new) (.shutdown "s") := by
    change (0 : ℕ) < _
    decide
  exact ⟨he, ((only_expired_torn_down (EventSystem.Reaches.of_allows ha) _).2.2.1 he).2⟩

end SessionTeardown
