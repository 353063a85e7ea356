import CodexTeams.RemoteWebsocket

/-! Sequence ids of what the writer puts into the outbound buffer. The number advances also for a
message that the splitter drops. -/
namespace WriterSequence

open RustInt RemoteSegments SegmentReassembly RemoteWebsocket List Function WebsocketState

variable {M : Type} {state : WebsocketState M}

structure Sent (M : Type) where
  clientId : ClientId
  streamId : StreamId
  envelopes : List (ServerEnvelope M)

def written (state state' : WebsocketState M) : Event M → List (Sent M)
  | .queued _ clientId streamId =>
    match (state'.outboundBuffer.bufferByStream (clientId, streamId)).drop
      (state.outboundBuffer.bufferByStream (clientId, streamId)).length with
    | [] => []
    | envelope :: rest => [⟨clientId, streamId, envelope :: rest⟩]
  | _ => []

structure WriterLog (M : Type) where
  state : WebsocketState M
  sent : List (Sent M)

variable (codec : Codec M)

def WriterLog.step (log : WriterLog M) (event : Event M) : WriterLog M :=
  let state := (RemoteWebsocket.step codec log.state event).1
  ⟨state, log.sent ++ written log.state state event⟩

def WriterLog.run (events : List (Event M)) : WriterLog M :=
  events.foldl (WriterLog.step codec) ⟨WebsocketState.new M, []⟩

variable (state : WebsocketState M)

def nextSeqId (clientId : ClientId) (streamId : StreamId) : ℕ :=
  (state.nextSeqIdByStream (clientId, streamId)).getD 1

/-- The splitter does not drop the event, and the numbers are not used up. -/
def Survives : Event M → Prop
  | .queued event clientId streamId =>
    nextSeqId state clientId streamId < u64Max ∧ splitServerEnvelopeForTransport codec
        ⟨event, clientId, streamId, nextSeqId state clientId streamId⟩ ≠ .ok []
  | _ => True

def AllSurvive : WebsocketState M → List (Event M) → Prop
  | _, [] => True
  | state, event :: rest =>
    Survives codec state event ∧ AllSurvive (RemoteWebsocket.step codec state event).1 rest

theorem foldl_insert_self (b : BoundedOutboundBuffer M) (ci : ClientId) (si : StreamId)
    (h : ∀ e ∈ envelopes, e.clientId = ci ∧ e.streamId = si) :
    (envelopes.foldl BoundedOutboundBuffer.insert b).bufferByStream (ci, si) =
      b.bufferByStream (ci, si) ++ envelopes := by
  induction envelopes generalizing b with
  | nil => simp
  | cons e r ih =>
    obtain ⟨ho, hr⟩ := forall_mem_cons.mp h
    rw [foldl_cons, ih _ hr]
    simp [BoundedOutboundBuffer.insert, ho]

/-- Writing an event takes the number of its stream, puts the parts into the buffer and sets the
next number. -/
theorem writeQueued_eq (c : Codec M) (st : WebsocketState M) (ev : ServerEvent M)
    (ci : ClientId) (si : StreamId) :
    ∃ out, splitServerEnvelopeForTransport c ⟨ev, ci, si, nextSeqId st ci si⟩ = .ok out ∧
      (∀ e ∈ out, e.clientId = ci ∧ e.streamId = si ∧ e.seqId = nextSeqId st ci si) ∧
      (writeQueued c st ev ci si).1.outboundBuffer.bufferByStream
        (ci, si) = st.outboundBuffer.bufferByStream (ci, si) ++ out ∧
      (writeQueued c st ev ci si).1.nextSeqIdByStream = update st.nextSeqIdByStream (ci, si)
          (some (saturatingSucc (nextSeqId st ci si))) := by
  obtain ⟨out, ho, hi⟩ := split_ids c ⟨ev, ci, si, nextSeqId st ci si⟩
  refine ⟨out, ho, hi, ?_, ?_⟩ <;> simp only [nextSeqId] at ho
  · simp only [writeQueued, ho]
    exact foldl_insert_self _ _ _ fun e h => ⟨(hi e h).1, (hi e h).2.1⟩
  · simp [writeQueued, ho, nextSeqId]

theorem observeClientMessage_nextSeqId (c : Codec M) (now : ℕ) (st : WebsocketState M)
    (e : ClientEnvelope M) (wsb : ℕ) :
    (observeClientMessage c now st e wsb).1.nextSeqIdByStream = st.nextSeqIdByStream := by
  unfold observeClientMessage
  split
  · rfl
  split
  · rfl
  split
  · unfold dropOversized
    split <;> rfl
  · rfl

theorem forgetClosed_nextSeqId (st : WebsocketState M) (e : ClientEnvelope M) :
    (forgetClosed st e).nextSeqIdByStream = st.nextSeqIdByStream := by
  unfold forgetClosed
  split <;> rfl

theorem readEnvelope_nextSeqId (c : Codec M) (now : ℕ) (st : WebsocketState M)
    (e : ClientEnvelope M) (wsb : ℕ) (d : Bool) :
    (readEnvelope c now st e wsb d).1.nextSeqIdByStream = st.nextSeqIdByStream := by
  rw [← observeClientMessage_nextSeqId c now st e wsb]
  unfold readEnvelope
  split
  · rename_i observed forwarded ho
    rw [ho]
    split
    · rw [forgetClosed_nextSeqId]
      rfl
    · rfl
  · rename_i observed _ _ ho
    rw [ho]

theorem step_nextSeqId {st : WebsocketState M} (ho : ∀ k ci si, ev ≠ .queued k ci si) :
    (RemoteWebsocket.step c st ev).1.nextSeqIdByStream = st.nextSeqIdByStream := by
  cases ev with
  | received e wsb now delivered =>
    rw [← readEnvelope_nextSeqId c now st e wsb delivered]
    simp only [step]
    split <;> rename_i hr <;> rw [hr]
  | streamClosed ci si => rfl
  | queued k ci si => exact absurd rfl (ho _ _ _)

variable (sent : List (Sent M))

def ofStream (clientId : ClientId) (streamId : StreamId) : List (Sent M) :=
  sent.filter fun message => message.clientId = clientId ∧ message.streamId = streamId

/-- The messages of a stream are numbered from one, without a gap. -/
def Numbered (clientId : ClientId) (streamId : StreamId) : Prop :=
  ∀ (i : ℕ) (message : Sent M), (ofStream sent clientId streamId)[i]? = some message →
    message.envelopes ≠ [] ∧ ∀ envelope ∈ message.envelopes,
      envelope.clientId = clientId ∧ envelope.streamId = streamId ∧ envelope.seqId = i + 1

structure Inv (log : WriterLog M) (clientId : ClientId) (streamId : StreamId) : Prop where
  next : nextSeqId log.state clientId streamId = (ofStream log.sent clientId streamId).length + 1
  numbered : Numbered log.sent clientId streamId

theorem Numbered.concat (h : Numbered s ci si) {m : Sent M} (hc : m.clientId = ci)
    (hs : m.streamId = si) (hne : m.envelopes ≠ []) (hid : ∀ e ∈ m.envelopes, e.clientId = ci ∧
      e.streamId = si ∧ e.seqId = (ofStream s ci si).length + 1) : Numbered (s ++ [m]) ci si := by
  have hsp : ofStream (s ++ [m]) ci si = ofStream s ci si ++ [m] := by
    simp [ofStream, hc, hs]
  intro i o ho
  rw [hsp] at ho
  by_cases hi : i < (ofStream s ci si).length
  · rw [List.getElem?_append_left hi] at ho
    exact h i o ho
  · have hb := (List.getElem?_eq_some_iff.mp ho).1
    rw [length_append, length_singleton] at hb
    obtain rfl : i = (ofStream s ci si).length := by omega
    rw [List.getElem?_concat_length, Option.some.injEq] at ho
    subst ho
    exact ⟨hne, hid⟩

theorem written_queued (c : Codec M) (st : WebsocketState M)
    (hb : (writeQueued c st k ci si).1.outboundBuffer.bufferByStream (ci, si) =
      st.outboundBuffer.bufferByStream (ci, si) ++ out) (hne : out ≠ []) :
    written st (RemoteWebsocket.step c st (.queued k ci si)).1
      (.queued k ci si) = [⟨ci, si, out⟩] := by
  have hd : ((step c st (.queued k ci si)).1.outboundBuffer.bufferByStream (ci, si)).drop
        (st.outboundBuffer.bufferByStream (ci, si)).length = out := by
    simp [step, hb]
  obtain ⟨e, r, rfl⟩ := exists_cons_of_ne_nil hne
  simp [written, hd]

theorem inv_queued (h : Inv log ci si) {oc : ClientId}
    (hsr : Survives c log.state (.queued k oc os)) : Inv (log.step c (.queued k oc os)) ci si := by
  obtain ⟨hbn, hn⟩ := hsr
  obtain ⟨out, hot, hi, hb, hnx⟩ := writeQueued_eq c log.state k oc os
  have hne : out ≠ [] := by
    rintro rfl
    exact hn hot
  have hs : (log.step c (.queued k oc os)).sent = log.sent ++ [⟨oc, os, out⟩] :=
    congrArg (log.sent ++ ·) (written_queued c log.state hb hne)
  have hst : (log.step c (.queued k oc os)).state.nextSeqIdByStream =
      update log.state.nextSeqIdByStream (oc, os)
        (some (saturatingSucc (nextSeqId log.state oc os))) := hnx
  by_cases hk : (oc, os) = (ci, si)
  · obtain ⟨rfl, rfl⟩ := Prod.mk.inj hk
    refine ⟨?_, ?_⟩
    · -- the number goes up by one, as does the number of messages
      have hsc : saturatingSucc (nextSeqId log.state oc os) =
          nextSeqId log.state oc os + 1 := Nat.min_eq_left hbn
      rw [nextSeqId, hst, hs, hsc, h.next]
      simp [ofStream]
    · rw [hs]
      apply h.numbered.concat rfl rfl hne
      rw [← h.next]
      exact hi
  · have ho : ofStream (log.sent ++ [⟨oc, os, out⟩]) ci si = ofStream log.sent ci si := by
      rw [Prod.mk.injEq] at hk
      simp [ofStream, hk]
    refine ⟨?_, ?_⟩
    · rw [nextSeqId, hst, update_of_ne (Ne.symm hk), hs, ho]
      exact h.next
    · unfold Numbered
      rw [hs, ho]
      exact h.numbered

theorem inv_step (h : Inv log ci si) (hs : Survives c log.state ev) :
    Inv (log.step c ev) ci si := by
  by_cases hq : ∃ k oc os, ev = .queued k oc os
  · obtain ⟨k, oc, os, rfl⟩ := hq
    exact inv_queued h hs
  · simp only [not_exists] at hq
    have hsn : (log.step c ev).sent = log.sent := by
      cases ev with
      | queued k oc os => exact absurd rfl (hq _ _ _)
      | _ => exact append_nil _
    refine ⟨?_, ?_⟩
    · rw [hsn, ← h.next]
      exact congrArg (fun next => (next (ci, si)).getD 1) (step_nextSeqId hq)
    · rw [hsn]
      exact h.numbered

theorem inv_run (h : Inv log ci si) (hs : AllSurvive c log.state es) :
    Inv (es.foldl (WriterLog.step c) log) ci si := by
  induction es generalizing log with
  | nil => exact h
  | cons event r ih => exact ih (inv_step h hs.1) hs.2

/-- Over every run in which the splitter drops no message: what is put into the outbound buffer
for a stream is numbered 1, 2, 3 and so on, in order. -/
theorem messages_numbered (codec : Codec M) (events : List (Event M))
    (hsurvive : AllSurvive codec (WebsocketState.new M) events) (clientId : ClientId)
    (streamId : StreamId) : Numbered (WriterLog.run codec events).sent clientId streamId := by
  have hn : Inv (⟨new M, []⟩ : WriterLog M) clientId streamId :=
    ⟨rfl, fun i message h => by simp [ofStream] at h⟩
  exact (inv_run hn hsurvive).numbered

theorem messages_numbered_pongs :
    let pong : Event (List UInt8) := .queued (.pong .active) ⟨[]⟩ ⟨[]⟩
    AllSurvive base64Codec (new _) [pong, pong] ∧
      (WriterLog.run base64Codec [pong, pong]).sent.length = 2 ∧
      Numbered (WriterLog.run base64Codec [pong, pong]).sent ⟨[]⟩ ⟨[]⟩ := by
  intro pong
  have hs : AllSurvive base64Codec (new _) [pong, pong] :=
    ⟨⟨by decide, fun h => nomatch Except.ok.inj h⟩,
      ⟨by decide, fun h => nomatch Except.ok.inj h⟩, trivial⟩
  exact ⟨hs, rfl, messages_numbered base64Codec _ hs ⟨[]⟩ ⟨[]⟩⟩

/-- A message of more than 100 MiB is dropped, and the one after it has number two. -/
theorem dropped_message_leaves_gap : ∃ raw : List UInt8, raw.length = 104857601 ∧
      ((WriterLog.run base64Codec [.queued (.serverMessage raw) ⟨[]⟩ ⟨[]⟩,
        .queued (.pong .active) ⟨[]⟩ ⟨[]⟩]).sent.map fun message =>
          message.envelopes.map ServerEnvelope.seqId) = [[2]] := by
  obtain ⟨raw, hr⟩ := exists_of_length 104857601
  refine ⟨raw, hr, ?_⟩
  have hd : splitServerEnvelopeForTransport base64Codec
      ⟨.serverMessage raw, ⟨[]⟩, ⟨[]⟩, 1⟩ = .ok [] := by
    apply split_too_large rfl
    · simp [base64Codec, hr, remoteControlSegmentMaxBytes]
    · change remoteControlReassembledMaxBytes < raw.length
      rw [hr]
      decide
  have hf : writeQueued base64Codec (new _) (.serverMessage raw) ⟨[]⟩ ⟨[]⟩ =
      ({ new (List UInt8) with
        nextSeqIdByStream := update (fun _ => none) (⟨[]⟩, ⟨[]⟩) (some 2) }, []) := by
    simp only [writeQueued, new, Option.getD_none, hd, update_idem]
    rfl
  simp only [WriterLog.run, foldl_cons, WriterLog.step, step, hf, written]
  decide +kernel

end WriterSequence
