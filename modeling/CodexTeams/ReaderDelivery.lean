import CodexTeams.RemoteWebsocket
import CodexTeams.SegmentGathering

/-! Delivery of chunked client messages over every run of a websocket and its successors. What was
received and forwarded are ghost logs; a log forgets a stream when the state does. -/
namespace ReaderDelivery

open RemoteSegments SegmentReassembly SegmentReassembly.ClientSegmentReassembler Nat
open List Function
  SegmentGathering RemoteWebsocket

variable {M : Type}

section Steps

variable {received : List (ClientEnvelope M)} {envelope : ClientEnvelope M}

structure Handed (M : Type) where
  clientId : ClientId
  streamId : StreamId
  seqId : ℕ
  message : M
  delivered : Bool
  deriving DecidableEq, Repr

def arrived : Event M → List (ClientEnvelope M)
  | .received envelope _ _ _ => [envelope]
  | _ => []

def handed : Event M → Outcome M → List (Handed M)
  | .received envelope _ _ delivered,
      .forwarded ⟨.clientMessage message, clientId, some streamId, some seqId, _⟩ =>
    if (clientMessageKey envelope).isSome then [⟨clientId, streamId, seqId, message, delivered⟩]
    else []
  | _, _ => []

def forgets : Event M → ClientId → Option StreamId → Bool
  | .streamClosed closed stream, clientId, streamId => clientId = closed ∧ streamId = some stream
  | .received ⟨.clientClosed, closed, stream, _, _⟩ _ _ true, clientId, streamId =>
    clientId = closed ∧ (stream = none ∨ streamId = stream)
  | _, _, _ => false

/-- What a step does to the delivered sequence ids and to the assemblies. -/
structure StepFacts (codec : Codec M) (state state' : WebsocketState M)
    (forgotten : ClientId → Option StreamId → Bool) (new : List (ClientEnvelope M))
    (out : List (Handed M)) : Prop where
  single : out.length ≤ 1
  completed : ∀ clientId streamId last, forgotten clientId (some streamId) = false →
    state.lastCompletedClientChunkSeqIdByStream (clientId, some streamId) = some last →
    ∃ last', last ≤ last' ∧
      state'.lastCompletedClientChunkSeqIdByStream (clientId, some streamId) = some last'
  later : ∀ message ∈ out, ∀ last, state.lastCompletedClientChunkSeqIdByStream
    (message.clientId, some message.streamId) = some last → last < message.seqId
  recorded : ∀ message ∈ out, message.delivered = true →
    state'.lastCompletedClientChunkSeqIdByStream (message.clientId, some message.streamId) =
      some message.seqId
  kept : ∀ message ∈ out, forgotten message.clientId (some message.streamId) = false
  forgot : ∀ clientId assembly, state'.clientSegmentReassembler.lookup clientId = some assembly →
    forgotten clientId (some assembly.streamId) = false
  gathered : ∀ received, AssembliesGathered codec state.clientSegmentReassembler received →
    AssembliesGathered codec state'.clientSegmentReassembler (received ++ new) ∧
      ∀ message ∈ out, Intact codec (received ++ new) message.clientId message.streamId
        message.seqId message.message

variable (new : List (ClientEnvelope M))

theorem StepFacts.silent
    (hc : st'.lastCompletedClientChunkSeqIdByStream = st.lastCompletedClientChunkSeqIdByStream)
    (hg : ∀ rc, AssembliesGathered cd st.clientSegmentReassembler rc →
      AssembliesGathered cd st'.clientSegmentReassembler (rc ++ new)) :
    StepFacts cd st st' (fun _ _ => false) new [] where
  single := zero_le 1
  completed clientId streamId last _ h := ⟨last, le_refl last, hc ▸ h⟩
  later := by simp
  recorded := by simp
  kept := by simp
  forgot _ _ _ := rfl
  gathered rc h := ⟨hg rc h, by simp⟩

theorem removeAssembly_forgot (h : (removeAssembly r ci si).lookup o = some a) :
    ¬ (o = ci ∧ a.streamId = si) := by
  rintro ⟨rfl, rfl⟩
  have hb := removeAssembly_sub _ _ _ _ _ h
  simp only [removeAssembly, hb, if_true, AList.lookup_erase] at h
  cases h

theorem StepFacts.stream (hc : st'.lastCompletedClientChunkSeqIdByStream = update
      st.lastCompletedClientChunkSeqIdByStream (ci, some si) none)
    (hr : st'.clientSegmentReassembler = removeAssembly st.clientSegmentReassembler ci si) :
    StepFacts cd st st' (fun c s => c = ci ∧ s = some si) new [] where
  single := zero_le 1
  completed c s last hk h := by
    refine ⟨last, le_refl last, ?_⟩
    rw [hc, update_of_ne]
    · exact h
    · simp only [ne_eq, Prod.mk.injEq]
      exact of_decide_eq_false hk
  later := by simp
  recorded := by simp
  kept := by simp
  forgot c assembly h := by
    rw [hr] at h
    apply decide_eq_false
    rw [Option.some.injEq]
    exact removeAssembly_forgot h
  gathered rc h := by
    rw [hr]
    exact ⟨h.sub (removeAssembly_sub _ _ _) new, by simp⟩

theorem StepFacts.client (hc : ∀ c s, c ≠ ci → st'.lastCompletedClientChunkSeqIdByStream (c, s) =
        st.lastCompletedClientChunkSeqIdByStream (c, s))
    (hr : st'.clientSegmentReassembler = st.clientSegmentReassembler.erase ci) :
    StepFacts cd st st' (fun c _ => c = ci) new [] where
  single := zero_le 1
  completed c s last hk h := ⟨last, le_refl last, (hc c _ (of_decide_eq_false hk)).trans h⟩
  later := by simp
  recorded := by simp
  kept := by simp
  forgot c assembly h := by
    apply decide_eq_false
    rintro rfl
    rw [hr, AList.lookup_erase] at h
    cases h
  gathered rc h := by
    rw [hr]
    exact ⟨h.sub (erase_sub _ _) new, by simp⟩

theorem readEnvelope_plain (cd : Codec M) (now : ℕ) (st : WebsocketState M)
    (wsb : ℕ) (d : Bool) (hp : ∀ si c s t, en.event ≠ .clientMessageChunk si c s t) :
    readEnvelope cd now st en wsb d = (if d then
        forgetClosed (recordClientMessageDelivery st en none) en else st, some en) := by
  obtain ⟨k, ci, i, sid, cr⟩ := en
  cases k with
  | clientMessageChunk si c s t => exact absurd rfl (hp _ _ _ _)
  | clientMessage | ack | ping | clientClosed =>
    cases d <;>
      simp [readEnvelope, observeClientMessage, isCompleted, isIgnored, clientMessageKey, observe]

theorem plain_facts (cd : Codec M) (now wsb : ℕ) (st : WebsocketState M) (d : Bool)
    (hp : ∀ i c s t, en.event ≠ .clientMessageChunk i c s t) :
    StepFacts cd st (readEnvelope cd now st en wsb d).1
      (forgets (.received en wsb now d)) [en] [] := by
  rw [readEnvelope_plain cd now st wsb d hp]
  obtain ⟨k, ci, si, sid, cr⟩ := en
  cases d with
  | false =>
    have hf : forgets (.received ⟨k, ci, si, sid, cr⟩ wsb now false) = fun _ _ => false := by
      cases k <;> rfl
    rw [hf]
    exact StepFacts.silent _ rfl fun _ h => h.sub (fun _ _ held => held) _
  | true =>
    cases k with
    | clientMessageChunk i c s t => exact absurd rfl (hp _ _ _ _)
    | clientClosed =>
      cases si with
      | some si =>
        have hf : forgets (.received (⟨.clientClosed, ci, some si, sid, cr⟩ : ClientEnvelope M)
            wsb now true) = fun client stream => decide (client = ci ∧ stream = some si) := by
          funext client stream
          simp [forgets]
        rw [hf]
        exact StepFacts.stream _ rfl rfl
      | none =>
        have hf : forgets (.received (⟨.clientClosed, ci, none, sid, cr⟩ :
            ClientEnvelope M) wsb now true) = fun client _ => decide (client = ci) := by
          funext client stream
          simp [forgets]
        rw [hf]
        exact StepFacts.client _ (fun client stream hne => if_neg hne) rfl
    | _ => exact StepFacts.silent _ rfl fun _ h => h.sub (fun _ _ held => held) _

theorem observe_unnumbered (now : ℕ) (he : en.event = .clientMessageChunk si c s t)
    (hi : en.seqId = none ∨ en.streamId = none) : observe cd now r en = (r, .dropped) := by
  obtain ⟨k, ci, i, sid, cr⟩ := en
  obtain rfl := he
  rcases hi with rfl | rfl
  · rfl
  · cases sid <;> rfl

theorem observeClientMessage_chunk_cases (cd : Codec M) (now wsb : ℕ) (st : WebsocketState M)
    (he : en.event = .clientMessageChunk i c s t) :
    ((observeClientMessage cd now st en wsb).1.lastCompletedClientChunkSeqIdByStream =
          st.lastCompletedClientChunkSeqIdByStream ∧
        Sub (observeClientMessage cd now st en wsb).1.clientSegmentReassembler
          st.clientSegmentReassembler ∧
        (observeClientMessage cd now st en wsb).2 = .dropped) ∨
      ∃ si sid, en.streamId = some si ∧ en.seqId = some sid ∧
        isCompleted st en = false ∧ observeClientMessage cd now st en wsb =
          ({ st with clientSegmentReassembler :=
              (observe cd now st.clientSegmentReassembler en).1 },
            (observe cd now st.clientSegmentReassembler en).2) := by
  unfold observeClientMessage
  by_cases hc : isCompleted st en = true
  · rw [if_pos hc]
    exact .inl ⟨rfl, fun _ _ h => h, rfl⟩
  by_cases hi : isIgnored st en = true
  · rw [if_neg hc, if_pos hi]
    exact .inl ⟨rfl, fun _ _ h => h, rfl⟩
  by_cases ho : (clientMessageKey en).isSome ∧ remoteControlSegmentMaxBytes < wsb
  · rw [if_neg hc, if_neg hi, if_pos ho]
    left
    unfold dropOversized
    cases en.streamId with
    | none => exact ⟨rfl, fun _ _ h => h, rfl⟩
    | some si => exact ⟨rfl, removeAssembly_sub _ _ _, rfl⟩
  rw [if_neg hc, if_neg hi, if_neg ho]
  by_cases hid : en.seqId = none ∨ en.streamId = none
  · rw [observe_unnumbered now he hid]
    exact .inl ⟨rfl, fun _ _ h => h, rfl⟩
  · rw [not_or, ← ne_eq, ← ne_eq, Option.ne_none_iff_exists', Option.ne_none_iff_exists'] at hid
    obtain ⟨⟨sid, hsq⟩, si, hs⟩ := hid
    exact .inr ⟨si, sid, hs, hsq, Bool.eq_false_iff.mpr hc, rfl⟩

theorem step_received_silent {now : ℕ}
    (hs : ∀ f, (observeClientMessage cd now st en wsb).2 ≠ .forward f) (d : Bool) :
    step cd st (.received en wsb now d) =
      ((observeClientMessage cd now st en wsb).1, .nothing) := by
  simp only [step]
  unfold readEnvelope
  generalize observeClientMessage cd now st en wsb = result at hs ⊢
  obtain ⟨st', o⟩ := result
  cases o with
  | forward f => exact absurd rfl (hs f)
  | pending => rfl
  | dropped => rfl

theorem step_received_forward {now : ℕ} (h : (observeClientMessage cd now st en wsb).2 = .forward f)
    (d : Bool) :
    step cd st (.received en wsb now d) = (if d then forgetClosed (recordClientMessageDelivery
          (observeClientMessage cd now st en wsb).1 f (clientMessageKey en)) f
        else (observeClientMessage cd now st en wsb).1, .forwarded f) := by
  simp only [step]
  unfold readEnvelope
  generalize observeClientMessage cd now st en wsb = result at h ⊢
  obtain ⟨st', o⟩ := result
  obtain rfl := h
  cases d <;> rfl

theorem lt_of_not_completed {seqId : ℕ} (he : en.event = .clientMessageChunk i c s t)
    (hsq : en.seqId = some seqId) (hs : en.streamId = si) (hn : isCompleted st en = false)
    (hl : st.lastCompletedClientChunkSeqIdByStream (en.clientId, si) = some l) : l < seqId := by
  subst hs
  simpa [isCompleted, clientMessageKey, he, hsq, hl] using hn

theorem forward_facts {new : List (ClientEnvelope M)} (m : Handed M)
    (hl : ∀ l, st.lastCompletedClientChunkSeqIdByStream (m.clientId, some m.streamId) = some l → l <
      m.seqId) (hc : st'.lastCompletedClientChunkSeqIdByStream = if m.delivered then update
      st.lastCompletedClientChunkSeqIdByStream (m.clientId, some m.streamId) (some m.seqId) else
      st.lastCompletedClientChunkSeqIdByStream)
    (hg : ∀ rc, AssembliesGathered cd st.clientSegmentReassembler rc → AssembliesGathered cd
      st'.clientSegmentReassembler (rc ++ new) ∧ Intact cd (rc ++ new) m.clientId m.streamId m.seqId
      m.message) : StepFacts cd st st' (fun _ _ => false) new [m] where
  single := le_refl 1
  completed clientId streamId l _ h := by
    rw [hc]
    by_cases hd : m.delivered = true
    · rw [if_pos hd]
      by_cases hk : (clientId, some streamId) = (m.clientId, some m.streamId)
      · rw [hk] at h ⊢
        rw [update_self]
        exact ⟨m.seqId, le_of_lt (hl l h), rfl⟩
      · rw [update_of_ne hk]
        exact ⟨l, le_refl l, h⟩
    · rw [if_neg hd]
      exact ⟨l, le_refl l, h⟩
  later := by
    intro o ho
    obtain rfl := mem_singleton.mp ho
    exact hl
  recorded := by
    intro o ho hd
    obtain rfl := mem_singleton.mp ho
    rw [hc, if_pos hd, update_self]
  kept _ _ := rfl
  forgot _ _ _ := rfl
  gathered rc h := by
    refine ⟨(hg rc h).1, ?_⟩
    intro o ho
    obtain rfl := mem_singleton.mp ho
    exact (hg rc h).2

theorem chunk_facts (cd : Codec M) (now wsb : ℕ) (st : WebsocketState M) (d : Bool)
    (he : en.event = .clientMessageChunk i c s t) :
    StepFacts cd st (step cd st (.received en wsb now d)).1 (fun _ _ => false)
      [en] (handed (.received en wsb now d) (step cd st (.received en wsb now d)).2) := by
  rcases observeClientMessage_chunk_cases cd now wsb st he with
    ⟨hc, hsb, hd⟩ | ⟨si, sid, hs, hsq, hn, ho⟩
  · have hsl : ∀ forwarded, (observeClientMessage cd now st en wsb).2 ≠ .forward forwarded := by
      simp [hd]
    rw [step_received_silent hsl]
    exact StepFacts.silent _ hc fun _ h => h.sub hsb _
  have hch := fun rc (h : AssembliesGathered cd st.clientSegmentReassembler
    rc) => observe_chunk_gathered h now he hsq hs
  by_cases hf : ∃ forwarded, (observe cd now st.clientSegmentReassembler en).2 = .forward forwarded
  · obtain ⟨forwarded, hf⟩ := hf
    obtain ⟨message, rfl⟩ := observe_chunk_forward he hsq hs hf
    have hob : (observeClientMessage cd now st en wsb).2 =
        .forward ⟨.clientMessage message, en.clientId, some si, some sid, en.cursor⟩ := by
      rw [ho]
      exact hf
    have hk : clientMessageKey en = some ((en.clientId, some si), sid) := by
      simp [clientMessageKey, he, hsq, hs]
    rw [step_received_forward hob, ho]
    simp only [handed, hk]
    refine forward_facts ⟨en.clientId, si, sid, message, d⟩
      (fun l => lt_of_not_completed he hsq hs hn) ?_ ?_
    · cases d <;> rfl
    · intro rc h
      obtain ⟨ha, hi⟩ := hch rc h
      refine ⟨?_, hi message hf⟩
      cases d <;> exact ha
  · have hsl : ∀ forwarded, (observeClientMessage cd now st en wsb).2 ≠ .forward forwarded := by
      rw [ho]
      exact not_exists.mp hf
    rw [step_received_silent hsl, ho]
    exact StepFacts.silent _ rfl fun rc h => (hch rc h).1

theorem handed_plain (now wsb : ℕ) (d : Bool)
    (hp : ∀ si c s t, en.event ≠ .clientMessageChunk si c s t) (o : Outcome M) :
    handed (.received en wsb now d) o = [] := by
  have hk : clientMessageKey en = none := by
    unfold clientMessageKey
    split
    · rename_i he _
      exact absurd he (hp _ _ _ _)
    · rfl
  unfold handed
  split
  · rename_i heq
    cases heq
    simp [hk]
  · rfl

theorem step_facts (cd : Codec M) (st : WebsocketState M) (e : Event M) :
    StepFacts cd st (step cd st e).1 (forgets e) (arrived e) (handed e (step cd st e).2) := by
  cases e with
  | received en wsb now delivered =>
    by_cases hc : ∃ segmentId c s text, en.event = .clientMessageChunk segmentId c s text
    · obtain ⟨segmentId, c, s, text, he⟩ := hc
      have hf : forgets (.received en wsb now delivered) = fun _ _ => false := by
        obtain ⟨k, ci, si, sid, cr⟩ := en
        obtain rfl := he
        rfl
      rw [hf]
      exact chunk_facts cd now wsb st delivered he
    · simp only [not_exists] at hc
      have hs : (step cd st (.received en wsb now delivered)).1 =
          (readEnvelope cd now st en wsb delivered).1 := by
        simp [step, readEnvelope_plain cd now st wsb delivered hc]
      rw [handed_plain now wsb delivered hc, hs]
      exact plain_facts cd now wsb st delivered hc
  | streamClosed ci si => exact StepFacts.stream _ rfl rfl
  | queued e ci si =>
    have hcm : (writeQueued cd st e ci
        si).1.lastCompletedClientChunkSeqIdByStream = st.lastCompletedClientChunkSeqIdByStream := by
      simp only [writeQueued]
      split <;> rfl
    have ha : (writeQueued cd st e ci
        si).1.clientSegmentReassembler = st.clientSegmentReassembler := by
      simp only [writeQueued]
      split <;> rfl
    refine StepFacts.silent _ hcm ?_
    intro rc h
    simp only [step, ha]
    exact h.sub (fun _ _ held => held) _

end Steps

section Runs

/-- The state with what was received and handed on since the streams were last invalidated. -/
structure History (M : Type) where
  state : WebsocketState M
  received : List (ClientEnvelope M)
  forwarded : List (Handed M)

def History.new (M : Type) : History M := ⟨WebsocketState.new M, [], []⟩

variable (codec : Codec M)

def History.step (history : History M) (event : Event M) : History M :=
  let (state, outcome) := RemoteWebsocket.step codec history.state event
  ⟨state,
    (history.received ++ arrived event).filter fun envelope =>
      !forgets event envelope.clientId envelope.streamId,
    (history.forwarded ++ handed event outcome).filter fun message =>
      !forgets event message.clientId (some message.streamId)⟩

def History.run (events : List (Event M)) : History M :=
  events.foldl (History.step codec) (History.new M)

/-- After a delivery only later messages of the stream are handed on. -/
def NotAgain (earlier later : Handed M) : Prop :=
  earlier.delivered = true → earlier.clientId = later.clientId →
    earlier.streamId = later.streamId → earlier.seqId < later.seqId

structure Inv (codec : Codec M) (history : History M) : Prop where
  completed : ∀ message ∈ history.forwarded, message.delivered = true →
    ∃ last, history.state.lastCompletedClientChunkSeqIdByStream
      (message.clientId, some message.streamId) = some last ∧ message.seqId ≤ last
  ordered : history.forwarded.Pairwise NotAgain
  gathered : AssembliesGathered codec history.state.clientSegmentReassembler history.received
  intact : ∀ message ∈ history.forwarded, Intact codec history.received message.clientId
    message.streamId message.seqId message.message

variable {history : History M}

theorem inv_new (cd : Codec M) : Inv cd (History.new M) where
  completed := by simp [History.new]
  ordered := List.Pairwise.nil
  gathered clientId assembly h := by simp [History.new, WebsocketState.new] at h
  intact := by simp [History.new]

theorem mem_step_forwarded (h : m ∈ (history.step cd ev).forwarded) :
    forgets ev m.clientId (some m.streamId) = false ∧ (m ∈ history.forwarded ∨
        m ∈ handed ev (RemoteWebsocket.step cd history.state ev).2) := by
  obtain ⟨hm, hk⟩ := mem_filter.mp h
  exact ⟨by simpa using hk, mem_append.mp hm⟩

theorem pairwise_of_length_le_one {α : Type*} {R : α → α → Prop} {l : List α}
    (h : l.length ≤ 1) : l.Pairwise R := by
  match l, h with
  | [], _ => exact List.Pairwise.nil
  | [a], _ => exact pairwise_singleton R a

theorem inv_step (h : Inv cd history) (ev : Event M) : Inv cd (history.step cd ev) := by
  have fs := step_facts cd history.state ev
  obtain ⟨hg, hi⟩ := fs.gathered history.received h.gathered
  refine ⟨?_, ?_, ?_, ?_⟩
  · intro message hmm hd
    obtain ⟨hk, ho | hn⟩ := mem_step_forwarded hmm
    · obtain ⟨l, hl, hle⟩ := h.completed message ho hd
      obtain ⟨l', hle', hl'⟩ := fs.completed _ _ l hk hl
      exact ⟨l', hl', hle.trans hle'⟩
    · exact ⟨message.seqId, fs.recorded message hn hd, le_refl _⟩
  · apply List.Pairwise.filter
    rw [pairwise_append]
    refine ⟨h.ordered, ?_, ?_⟩
    · exact pairwise_of_length_le_one fs.single
    · intro e he lr hlt hd hc hst
      obtain ⟨l, hl, hle⟩ := h.completed e he hd
      rw [hc, hst] at hl
      exact lt_of_le_of_lt hle (fs.later lr hlt l hl)
  · intro ci a hlk
    exact (hg ci a hlk).filter (fs.forgot ci a hlk)
  · intro message hmm
    obtain ⟨hk, ho | hn⟩ := mem_step_forwarded hmm
    · obtain ⟨c, s, raw, ha, hs, hm⟩ := h.intact message ho
      exact ⟨c, s, raw, (ha.append _).filter hk, hs, hm⟩
    · obtain ⟨c, s, raw, ha, hs, hm⟩ := hi message hn
      exact ⟨c, s, raw, ha.filter hk, hs, hm⟩

theorem inv_run (cd : Codec M) (es : List (Event M)) : Inv cd (History.run cd es) := by
  unfold History.run
  induction es using List.reverseRecOn with
  | nil => exact inv_new cd
  | append_singleton es event ih =>
    rw [foldl_append]
    exact inv_step ih event

/-- Over every run: since the last invalidation of its stream no chunked message was handed on
after it had been delivered, and every one that was handed on is put together from its own
chunks. -/
theorem delivered_once_intact (codec : Codec M) (events : List (Event M)) :
    (History.run codec events).forwarded.Pairwise NotAgain ∧
      ∀ message ∈ (History.run codec events).forwarded,
        Intact codec (History.run codec events).received message.clientId message.streamId
          message.seqId message.message :=
  ⟨(inv_run codec events).ordered, (inv_run codec events).intact⟩

def singleChunk (delivered : Bool) : Event (List UInt8) :=
  .received ⟨.clientMessageChunk 0 1 1 (Base64.encode [7]), ⟨[]⟩, some ⟨[]⟩, some 1, none⟩ 100 0
    delivered

/-- A message whose delivery failed is handed on again when the client sends it again. -/
theorem failed_delivery_forwarded_twice :
    (History.run base64Codec [singleChunk false, singleChunk true]).forwarded =
      [⟨⟨[]⟩, ⟨[]⟩, 1, [7], false⟩, ⟨⟨[]⟩, ⟨[]⟩, 1, [7], true⟩] := by
  decide +kernel

end Runs

end ReaderDelivery
