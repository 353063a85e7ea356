import CodexTeams.MapCount
import CodexTeams.SegmentReassembly

/-! The client tracker: which connection the messages of a remote client go to. What reaches the app
server is kept as a ghost log; whether sends fail is given with each call. -/
namespace RemoteClients

open RustStr MapCount RemoteSegments SegmentReassembly List AList Nat Option Function

inductive JSONRPCMessage
  | request (method : Str)
  | notification (method : Str)
  | response
  | error
  deriving Repr

structure ClientState where
  connectionId : ℕ
  lastActivityAt : ℕ
  lastInboundSeqId : Option ℕ
  deriving Repr

abbrev ClientKey := ClientId × StreamId

/-- An incoming message that the app server has received, with the ids of its envelope. -/
structure Delivered where
  connectionId : ℕ
  message : JSONRPCMessage
  streamId : Option StreamId
  seqId : Option ℕ
  deriving Repr

structure ClientTracker where
  clients : HashMap ClientKey ClientState
  legacyStreamIds : ClientId → Option StreamId
  connectionIdCounter : ℕ
  delivered : List Delivered

def ClientTracker.new : ClientTracker := ⟨∅, fun _ => none, 0, []⟩

/-- Whether the sends of one call reach the app server. -/
structure Sends where
  opened : Bool
  incoming : Bool
  closed : Bool
  deriving Repr

structure Stopped where
  deriving Repr

def remoteControlClientIdleTimeout : ℕ := 10 * 60

def remoteControlMessageStartsConnection : JSONRPCMessage → Bool
  | .request method => method = "initialize"
  | _ => false

def isInitialize : ClientEvent JSONRPCMessage → Bool
  | .clientMessage message => remoteControlMessageStartsConnection message
  | _ => false

def remoteControlClientIsAlive (client : ClientState) (now : ℕ) : Bool :=
  now - client.lastActivityAt < remoteControlClientIdleTimeout

variable (tracker : ClientTracker)

section

variable (key : ClientKey)

def removeClient : ClientTracker :=
  { tracker with
    clients := tracker.clients.erase key
    legacyStreamIds :=
      if tracker.legacyStreamIds key.1 = some key.2 then
        update tracker.legacyStreamIds key.1 none
      else tracker.legacyStreamIds }

def closeClient (sent : Bool) : ClientTracker × Except Stopped Unit :=
  match tracker.clients.lookup key with
  | none => (tracker, .ok ())
  | some _ => (removeClient tracker key, if sent then .ok () else .error ⟨⟩)

def closeClients (sent : ClientKey → Bool) :
    ClientTracker → List ClientKey → ClientTracker × Except Stopped Unit
  | tracker, [] => (tracker, .ok ())
  | tracker, key :: rest =>
    match closeClient tracker key (sent key) with
    | (tracker, .ok ()) => closeClients sent tracker rest
    | (tracker, .error stopped) => (tracker, .error stopped)

def closeExpiredClients (now : ℕ) (sent : ClientKey → Bool) : ClientTracker × Except Stopped Unit :=
  closeClients sent tracker
    ((tracker.clients.entries.filter fun entry => !remoteControlClientIsAlive entry.2 now).map
      Sigma.fst)

def recordInboundMessageDelivery (seqId : Option ℕ) : ClientTracker :=
  match seqId, tracker.clients.lookup key with
  | some seqId, some client => { tracker with
      clients := tracker.clients.insert key { client with lastInboundSeqId := some seqId } }
  | _, _ => tracker

def deliver (connectionId : ℕ) (message : JSONRPCMessage)
    (streamId : Option StreamId) (seqId : Option ℕ) : ClientTracker :=
  { tracker with delivered := tracker.delivered ++ [⟨connectionId, message, streamId, seqId⟩] }

variable (client : ClientState)

def touch (now : ℕ) : ClientTracker :=
  { tracker with
    clients := tracker.clients.insert key { client with lastActivityAt := now } }

/-- The stream of an envelope; without a stream id it is that of the client's last initialize
message. -/
def resolveStream (envelope : ClientEnvelope JSONRPCMessage)
    (random : StreamId) : ClientTracker × StreamId :=
  match envelope.streamId with
  | some streamId => (tracker, streamId)
  | none =>
    if isInitialize envelope.event then
      ({ tracker with
        legacyStreamIds := update tracker.legacyStreamIds envelope.clientId none },
        (tracker.legacyStreamIds envelope.clientId).getD random)
    else
      (tracker, (tracker.legacyStreamIds envelope.clientId).getD
        (match envelope.event with
        | .ping => random
        | _ => ⟨[]⟩))

variable (message : JSONRPCMessage)

def isRepeated (seqId : Option ℕ) : Bool :=
  !remoteControlMessageStartsConnection message &&
    seqId.any fun seqId => (tracker.clients.lookup key).any fun client =>
      client.lastInboundSeqId.any fun lastSeqId => seqId ≤ lastSeqId

def forwardMessage
    (message : JSONRPCMessage) (streamId : Option StreamId) (seqId : Option ℕ) (now : ℕ)
    (sends : Sends) : ClientTracker × Except Stopped Unit :=
  let tracker := touch tracker key client now
  if sends.incoming then
    (recordInboundMessageDelivery
      (deliver tracker client.connectionId message streamId seqId) key seqId, .ok ())
  else (tracker, .error ⟨⟩)

def insertClient (connectionId now : ℕ) (legacy : Bool) : ClientTracker :=
  { tracker with
    clients := tracker.clients.insert key ⟨connectionId, now, none⟩
    legacyStreamIds :=
      if legacy then update tracker.legacyStreamIds key.1 (some key.2)
      else tracker.legacyStreamIds }

variable (streamId : Option StreamId)

/-- An initialize message opens a connection and is its first message. Its sequence id is not
recorded for a client that sends no stream ids. -/
def openConnection (seqId : Option ℕ) (now : ℕ) (sends : Sends) :
    ClientTracker × Except Stopped Unit :=
  let connectionId := tracker.connectionIdCounter
  let tracker := { tracker with connectionIdCounter := connectionId + 1 }
  if sends.opened then
    let tracker := insertClient tracker key connectionId now streamId.isNone
    if sends.incoming then
      let tracker := deliver tracker connectionId message streamId seqId
      (if streamId.isNone then tracker else recordInboundMessageDelivery tracker key seqId,
        .ok ())
    else (removeClient tracker key, .error ⟨⟩)
  else (tracker, .error ⟨⟩)

def handleClientMessage (seqId : Option ℕ) (now : ℕ) (sends : Sends) :
    ClientTracker × Except Stopped Unit :=
  if isRepeated tracker key message seqId then (tracker, .ok ())
  else if remoteControlMessageStartsConnection message then
    -- a client that is known is closed first
    match closeClient tracker key sends.closed with
    | (tracker, .ok ()) => openConnection tracker key message streamId seqId now sends
    | (tracker, .error stopped) => (tracker, .error stopped)
  else
    match tracker.clients.lookup key with
    | some client => forwardMessage tracker key client message streamId seqId now sends
    | none => (tracker, .ok ())

end

def handleMessage (envelope : ClientEnvelope JSONRPCMessage) (now : ℕ)
    (random : StreamId) (sends : Sends) : ClientTracker × Except Stopped Unit :=
  let (tracker, streamId) := resolveStream tracker envelope random
  if streamId.id = [] then (tracker, .ok ())
  else
    let key := (envelope.clientId, streamId)
    match envelope.event with
    | .clientMessage message =>
      handleClientMessage tracker key message envelope.streamId envelope.seqId now sends
    | .clientMessageChunk .. => (tracker, .ok ())
    | .ack _ => (tracker, .ok ())
    | .ping =>
      match tracker.clients.lookup key with
      | some client => (touch tracker key client now, .ok ())
      | none => (tracker, .ok ())
    | .clientClosed => closeClient tracker key sends.closed

/-- What happens to the tracker: an envelope, a client whose task has ended, a sweep for idle
clients, and connection ids taken elsewhere. -/
inductive Event
  | envelope (envelope : ClientEnvelope JSONRPCMessage) (now : ℕ) (random : StreamId)
      (sends : Sends)
  | ended (key : ClientKey) (sent : Bool)
  | sweep (now : ℕ) (sent : ClientKey → Bool)
  | connectionElsewhere

def step : Event → ClientTracker
  | .envelope envelope now random sends => (handleMessage tracker envelope now random sends).1
  | .ended key sent => (closeClient tracker key sent).1
  | .sweep now sent => (closeExpiredClients tracker now sent).1
  | .connectionElsewhere =>
    { tracker with connectionIdCounter := tracker.connectionIdCounter + 1 }

def run (events : List Event) : ClientTracker := events.foldl step ClientTracker.new

/-- The sequence id that counts for the order: the initialize message of a client that sends no
stream ids has none. -/
def Delivered.countedSeqId (message : Delivered) : Option ℕ :=
  if message.streamId = none ∧ remoteControlMessageStartsConnection message.message then none
  else message.seqId

/-- On one connection the later message has the greater sequence id. -/
def InOrder (earlier later : Delivered) : Prop :=
  earlier.connectionId = later.connectionId → ∀ seqId seqId',
    earlier.countedSeqId = some seqId → later.countedSeqId = some seqId' → seqId < seqId'

/-- The record of a client covers what was delivered on its connection. -/
def Covers (client : ClientState) : Prop :=
  ∀ message ∈ tracker.delivered, message.connectionId = client.connectionId →
    ∀ seqId, message.countedSeqId = some seqId →
      ∃ last, client.lastInboundSeqId = some last ∧ seqId ≤ last

structure Inv (tracker : ClientTracker) : Prop where
  known : ∀ message ∈ tracker.delivered, message.connectionId < tracker.connectionIdCounter
  below : ∀ key client, tracker.clients.lookup key = some client →
    client.connectionId < tracker.connectionIdCounter
  distinct : ∀ key key' client client', tracker.clients.lookup key = some client →
    tracker.clients.lookup key' = some client' → client.connectionId = client'.connectionId →
      key = key'
  covered : ∀ key client, tracker.clients.lookup key = some client → Covers tracker client
  ordered : tracker.delivered.Pairwise InOrder

section Steps

variable {t : ClientTracker}

theorem inv_new : Inv ClientTracker.new := by
  refine ⟨?_, ?_, ?_, ?_, List.Pairwise.nil⟩
  · simp [ClientTracker.new]
  · intro key cl h
    simp [ClientTracker.new] at h
  · intro key key' cl cl' h
    simp [ClientTracker.new] at h
  · intro key cl h
    simp [ClientTracker.new] at h

theorem Inv.fewer (h : Inv t)
    (hcl : ∀ key cl, t'.clients.lookup key = some cl → t.clients.lookup key = some cl)
    (hcn : t.connectionIdCounter ≤ t'.connectionIdCounter) (hd : t'.delivered = t.delivered) :
    Inv t' := by
  refine ⟨?_, ?_, ?_, ?_, ?_⟩
  · intro message hm
    rw [hd] at hm
    exact (h.known message hm).trans_le hcn
  · intro key cl hc
    exact (h.below key cl (hcl key cl hc)).trans_le hcn
  · intro key key' cl cl' hc hc'
    exact h.distinct key key' cl cl' (hcl _ _ hc) (hcl _ _ hc')
  · intro key cl hc
    unfold Covers
    rw [hd]
    exact h.covered key cl (hcl key cl hc)
  · rw [hd]
    exact h.ordered

variable (h : Inv t)

include h

theorem inv_removeClient (key : ClientKey) : Inv (removeClient t key) :=
  h.fewer (fun _ _ hl => (lookup_erase_some hl).2) (le_refl _) rfl

theorem inv_closeClient (key : ClientKey) (s : Bool) : Inv (closeClient t key s).1 := by
  unfold closeClient
  split
  · exact h
  · exact inv_removeClient h key

theorem inv_closeClients (s : ClientKey → Bool) (ks : List ClientKey) :
    Inv (closeClients s t ks).1 := by
  induction ks generalizing t with
  | nil => exact h
  | cons key r ih =>
    have hc := inv_closeClient h key (s key)
    simp only [closeClients]
    split
    · rename_i closed heq
      rw [heq] at hc
      exact ih hc
    · rename_i closed stopped heq
      rwa [heq] at hc

section

variable (hc : t.clients.lookup key = some cl)

include hc

theorem Inv.replace (hs : cl'.connectionId = cl.connectionId)
    (hcv : Covers t cl') : Inv { t with clients := t.clients.insert key cl' } := by
  -- every client of the new map has the connection of the old one under the same key
  have ho : ∀ o held, (t.clients.insert key cl').lookup o = some held →
      ∃ b, t.clients.lookup o = some b ∧ b.connectionId = held.connectionId := by
    intro o held hh
    rcases lookup_insert_cases hh with ⟨rfl, rfl⟩ | ⟨-, hh⟩
    · exact ⟨cl, hc, hs.symm⟩
    · exact ⟨held, hh, rfl⟩
  refine ⟨h.known, ?_, ?_, ?_, h.ordered⟩
  · intro o held hh
    obtain ⟨b, hb, hid⟩ := ho o held hh
    exact hid ▸ h.below o b hb
  · intro o o' held held' hh hh' heq
    obtain ⟨b, hb, hid⟩ := ho o held hh
    obtain ⟨b', hb', hid'⟩ := ho o' held' hh'
    exact h.distinct o o' b b' hb hb' (by rw [hid, hid', heq])
  · intro o held hh
    rcases lookup_insert_cases hh with ⟨-, rfl⟩ | ⟨-, hh⟩
    · exact hcv
    · exact h.covered o held hh

theorem inv_touch (now : ℕ) : Inv (touch t key cl now) :=
  h.replace hc rfl (h.covered key cl hc)

theorem Inv.deliver (hcn : m.connectionId = cl.connectionId)
    (hlt : ∀ si l, m.countedSeqId = some si → cl.lastInboundSeqId = some l → l < si)
    (hd : t'.delivered = t.delivered ++ [m]) (hct : t'.connectionIdCounter = t.connectionIdCounter)
    (ho : ∀ o, o ≠ key → t'.clients.lookup o = t.clients.lookup o) (hk : ∀ held, t'.clients.lookup
      key = some held → held.connectionId = cl.connectionId ∧ ∀ si, m.countedSeqId = some si ∨
      cl.lastInboundSeqId = some si → ∃ l, held.lastInboundSeqId = some l ∧ si ≤ l) : Inv t' := by
  have hol : ∀ o held, t'.clients.lookup o = some held →
      ∃ b, t.clients.lookup o = some b ∧ b.connectionId = held.connectionId := by
    intro o held hh
    by_cases heq : o = key
    · subst heq
      exact ⟨cl, hc, (hk held hh).1.symm⟩
    · rw [ho o heq] at hh
      exact ⟨held, hh, rfl⟩
  refine ⟨?_, ?_, ?_, ?_, ?_⟩
  · intro o hm
    rw [hd] at hm
    rw [hct]
    rcases mem_append.mp hm with hm | hm
    · exact h.known o hm
    · obtain rfl := mem_singleton.mp hm
      exact hcn ▸ h.below key cl hc
  · intro o held hh
    obtain ⟨b, hb, hid⟩ := hol o held hh
    rw [hct, ← hid]
    exact h.below o b hb
  · intro o o' held held' hh hh' heq
    obtain ⟨b, hb, hid⟩ := hol o held hh
    obtain ⟨b', hb', hid'⟩ := hol o' held' hh'
    exact h.distinct o o' b b' hb hb' (by rw [hid, hid', heq])
  · intro o held hh arrived hm hid si hs
    rw [hd] at hm
    by_cases heq : o = key
    · subst heq
      obtain ⟨hsm, hr⟩ := hk held hh
      rcases mem_append.mp hm with hm | hm
      · obtain ⟨l, hl, hle⟩ :=
          h.covered o cl hc arrived hm (hid.trans hsm) si hs
        obtain ⟨l', hl', hle'⟩ := hr l (.inr hl)
        exact ⟨l', hl', hle.trans hle'⟩
      · obtain rfl := mem_singleton.mp hm
        exact hr si (.inl hs)
    · rw [ho o heq] at hh
      rcases mem_append.mp hm with hm | hm
      · exact h.covered o held hh arrived hm hid si hs
      · obtain rfl := mem_singleton.mp hm
        exact absurd (h.distinct o key held cl hh hc (hid.symm.trans hcn)) heq
  · rw [hd, pairwise_append]
    refine ⟨h.ordered, pairwise_singleton _ _, ?_⟩
    intro e he lr hlt' hsm si si' hs hs'
    obtain rfl := mem_singleton.mp hlt'
    obtain ⟨l, hl, hle⟩ := h.covered key cl hc e he (hsm.trans hcn) si hs
    exact lt_of_le_of_lt hle (hlt si' l hs' hl)

theorem inv_deliver_record (m : JSONRPCMessage) (si : Option StreamId) (i : Option ℕ)
    (hl : ∀ seq l, i = some seq → cl.lastInboundSeqId = some l → l < seq) :
    Inv (recordInboundMessageDelivery (RemoteClients.deliver t cl.connectionId m si i) key i) := by
  have hcn : ∀ seq, (⟨cl.connectionId, m, si, i⟩ :
      Delivered).countedSeqId = some seq → i = some seq := by
    intro seq hs
    unfold Delivered.countedSeqId at hs
    split at hs
    · cases hs
    · exact hs
  have hl' : ∀ seq l, (⟨cl.connectionId, m, si, i⟩ :
      Delivered).countedSeqId = some seq → cl.lastInboundSeqId = some l → l < seq :=
    fun seq l hs => hl seq l (hcn seq hs)
  cases i with
  | none =>
    refine h.deliver hc rfl hl' rfl rfl (fun _ _ => rfl) ?_
    intro held hh
    obtain rfl : cl = held := some.inj (hc.symm.trans hh)
    refine ⟨rfl, ?_⟩
    rintro seq (hs | hs)
    · exact absurd (hcn seq hs) (by simp)
    · exact ⟨seq, hs, le_refl seq⟩
  | some seq =>
    have hr : recordInboundMessageDelivery
        (RemoteClients.deliver t cl.connectionId m si (some seq)) key
          (some seq) = { RemoteClients.deliver t cl.connectionId m si
            (some seq) with
              clients := t.clients.insert key { cl with
                lastInboundSeqId := some seq } } := by
      unfold recordInboundMessageDelivery
      simp [RemoteClients.deliver, hc]
    rw [hr]
    refine h.deliver hc rfl hl' rfl rfl (fun _ hne => lookup_insert_ne hne) ?_
    intro held hh
    rw [lookup_insert, some.injEq] at hh
    subst hh
    refine ⟨rfl, ?_⟩
    rintro o (hs | hs)
    · rw [some.inj (hcn o hs)]
      exact ⟨o, rfl, le_refl o⟩
    · exact ⟨seq, rfl, le_of_lt (hl seq o rfl hs)⟩

theorem inv_forwardMessage (m : JSONRPCMessage) (si : Option StreamId) (i : Option ℕ) (now : ℕ)
    (ss : Sends) (hl : ∀ seq l, i = some seq → cl.lastInboundSeqId = some l → l < seq) :
    Inv (forwardMessage t key cl m si i now ss).1 := by
  have ht := inv_touch h hc now
  unfold forwardMessage
  split
  · exact inv_deliver_record ht (lookup_insert _) m si i hl
  · exact ht

end

theorem inv_insertClient (key : ClientKey) (now : ℕ) (l : Bool) :
    Inv (insertClient { t with
      connectionIdCounter := t.connectionIdCounter + 1 } key t.connectionIdCounter now
        l) := by
  refine ⟨?_, ?_, ?_, ?_, h.ordered⟩
  · intro message hm
    exact (h.known message hm).trans (lt_succ_self _)
  · intro o held hh
    rcases lookup_insert_cases hh with ⟨-, rfl⟩ | ⟨-, hh⟩
    · exact lt_succ_self _
    · exact (h.below o held hh).trans (lt_succ_self _)
  · intro o o' held held' hh hh' heq
    rcases lookup_insert_cases hh with ⟨rfl, rfl⟩ | ⟨-, ho⟩ <;>
      rcases lookup_insert_cases hh' with ⟨rfl, rfl⟩ | ⟨-, ho'⟩
    · rfl
    · exact absurd heq.symm (Nat.ne_of_lt (h.below o' held' ho'))
    · exact absurd heq (Nat.ne_of_lt (h.below o held ho))
    · exact h.distinct o o' held held' ho ho' heq
  · intro o held hh message hm hid
    rcases lookup_insert_cases hh with ⟨-, rfl⟩ | ⟨-, hh⟩
    · exact absurd hid (Nat.ne_of_lt (h.known message hm))
    · exact h.covered o held hh message hm hid

theorem inv_openConnection (key : ClientKey) (m : JSONRPCMessage) (si : Option StreamId)
    (i : Option ℕ) (now : ℕ) (ss : Sends) (hst : remoteControlMessageStartsConnection m = true) :
    Inv (openConnection t key m si i now ss).1 := by
  have hc : Inv { t with
      connectionIdCounter := t.connectionIdCounter + 1 } :=
    h.fewer (fun _ _ held => held) (le_succ _) rfl
  have hi := inv_insertClient h key now si.isNone
  have hl : (insertClient { t with
      connectionIdCounter := t.connectionIdCounter + 1 } key t.connectionIdCounter now
        si.isNone).clients.lookup key = some ⟨t.connectionIdCounter, now, none⟩ :=
    lookup_insert _
  unfold openConnection
  split
  · split
    · cases si with
      | none =>
        -- the initialize message of a client without stream ids does not count
        refine hi.deliver hl rfl ?_ rfl rfl (fun _ _ => rfl) ?_
        · intro seq l hs
          simp [Delivered.countedSeqId, hst] at hs
        · intro held hh
          obtain rfl := some.inj (hl.symm.trans hh)
          refine ⟨rfl, ?_⟩
          rintro seq (hs | hs)
          · simp [Delivered.countedSeqId, hst] at hs
          · cases hs
      | some si =>
        exact inv_deliver_record hi hl m (some si) i (fun _ _ _ hls => nomatch hls)
    · exact inv_removeClient hi key
  · exact hc

theorem inv_handleClientMessage (key : ClientKey) (m : JSONRPCMessage) (si : Option StreamId)
    (i : Option ℕ) (now : ℕ) (ss : Sends) : Inv (handleClientMessage t key m si i now ss).1 := by
  unfold handleClientMessage
  by_cases hr : isRepeated t key m i = true
  · rw [if_pos hr]
    exact h
  rw [if_neg hr]
  by_cases hs : remoteControlMessageStartsConnection m = true
  · rw [if_pos hs]
    have hc := inv_closeClient h key ss.closed
    split
    · rename_i closed heq
      rw [heq] at hc
      exact inv_openConnection hc key m si i now ss hs
    · rename_i closed stopped heq
      rwa [heq] at hc
  · rw [if_neg hs]
    cases hcl : t.clients.lookup key with
    | none => exact h
    | some cl =>
      refine inv_forwardMessage h hcl m si i now ss ?_
      rintro seq l rfl hl
      simpa [isRepeated, hs, hcl, hl] using hr

theorem inv_handleMessage (e : ClientEnvelope JSONRPCMessage) (now : ℕ)
    (r : StreamId) (ss : Sends) : Inv (handleMessage t e now r ss).1 := by
  have hr : Inv (resolveStream t e r).1 := by
    unfold resolveStream
    split
    · exact h
    · split
      · exact h.fewer (fun _ _ held => held) (le_refl _) rfl
      · exact h
  unfold handleMessage
  simp only at hr ⊢
  split
  · exact hr
  · split
    · exact inv_handleClientMessage hr _ _ _ _ now ss
    · exact hr
    · exact hr
    · split
      · rename_i cl hc
        exact inv_touch hr hc now
      · exact hr
    · exact inv_closeClient hr _ ss.closed

theorem inv_step (e : Event) : Inv (step t e) := by
  cases e with
  | envelope envelope now r ss => exact inv_handleMessage h envelope now r ss
  | ended key sent => exact inv_closeClient h key sent
  | sweep now sent => exact inv_closeClients h sent _
  | connectionElsewhere => exact h.fewer (fun _ _ held => held) (le_succ _) rfl

omit h

theorem inv_run (es : List Event) : Inv (run es) := by
  unfold run
  induction es using List.reverseRecOn with
  | nil => exact inv_new
  | append_singleton es event ih =>
    rw [foldl_append]
    exact inv_step ih event

end Steps

/-- Over every run: the messages delivered on a connection have increasing sequence ids, the
initialize message of a client without stream ids apart. -/
theorem delivered_in_order (events : List Event) : (run events).delivered.Pairwise InOrder :=
  (inv_run events).ordered

/-- After an initialize message without a stream id the sequence ids start again on the same
connection. -/
theorem legacy_initialize_not_counted : ∃ connectionId, (run
      [.envelope ⟨.clientMessage (.request "initialize"), ⟨['c']⟩, none, some 5, none⟩ 0
        ⟨['s']⟩ ⟨true, true, true⟩,
      .envelope ⟨.clientMessage (.notification []), ⟨['c']⟩, none, some 5, none⟩ 0 ⟨['s']⟩
        ⟨true, true, true⟩]).delivered.map (fun message => (message.connectionId, message.seqId)) =
      [(connectionId, some 5), (connectionId, some 5)] :=
  ⟨0, by decide +kernel⟩

end RemoteClients
