import CodexTeams.RustInt
import CodexTeams.SegmentReassembly

/-! The state that the reader and the writer of a remote-control websocket share. It outlives a
connection. -/
namespace RemoteWebsocket

open RustInt RustStr RemoteSegments SegmentReassembly ClientSegmentReassembler Function

def saturatingSucc (n : ℕ) : ℕ := min (n + 1) u64Max

structure BoundedOutboundBuffer (M : Type) where
  bufferByStream : ClientId × StreamId → List (ServerEnvelope M)
  used : ℕ

structure WebsocketState (M : Type) where
  outboundBuffer : BoundedOutboundBuffer M
  subscribeCursor : Option Str
  nextSeqIdByStream : ClientId × StreamId → Option ℕ
  lastCompletedClientChunkSeqIdByStream : ClientId × Option StreamId → Option ℕ
  clientSegmentReassembler : ClientSegmentReassembler

def WebsocketState.new (M : Type) : WebsocketState M :=
  ⟨⟨fun _ => [], 0⟩, none, fun _ => none, fun _ => none, ∅⟩

variable {M : Type} (codec : Codec M)

namespace BoundedOutboundBuffer

variable (buffer : BoundedOutboundBuffer M)

def insert (envelope : ServerEnvelope M) : BoundedOutboundBuffer M :=
  let key := (envelope.clientId, envelope.streamId)
  ⟨update buffer.bufferByStream key (buffer.bufferByStream key ++ [envelope]), buffer.used + 1⟩

def segmentId : ServerEvent M → Option ℕ
  | .serverMessageChunk segmentId _ _ _ => some segmentId
  | _ => none

/-- Without a segment id all of the message is acknowledged. -/
def isAcked (ackedSeqId : ℕ) (ackedSegmentId : Option ℕ) (envelope : ServerEnvelope M) : Bool :=
  envelope.seqId < ackedSeqId ∨ envelope.seqId = ackedSeqId ∧
    ackedSegmentId.all fun acked => (segmentId envelope.event).getD 0 ≤ acked

def ack (clientId : ClientId) (streamId : StreamId)
    (ackedSeqId : ℕ) (ackedSegmentId : Option ℕ) : BoundedOutboundBuffer M :=
  let key := (clientId, streamId)
  let kept := (buffer.bufferByStream key).filter fun envelope =>
    !isAcked ackedSeqId ackedSegmentId envelope
  ⟨update buffer.bufferByStream key kept,
    buffer.used - ((buffer.bufferByStream key).length - kept.length)⟩

end BoundedOutboundBuffer

def clientMessageKey (envelope : ClientEnvelope M) : Option ((ClientId × Option StreamId) × ℕ) :=
  match envelope.event, envelope.seqId with
  | .clientMessageChunk .., some seqId => some ((envelope.clientId, envelope.streamId), seqId)
  | _, _ => none

variable (state : WebsocketState M)

section

variable (envelope : ClientEnvelope M)

def isCompleted : Bool :=
  (clientMessageKey envelope).any fun (key, seqId) =>
    (state.lastCompletedClientChunkSeqIdByStream key).any fun lastSeqId => seqId ≤ lastSeqId

/-- The chunk is one that its assembly has, or of a message before that of the assembly. -/
def isIgnored : Bool :=
  match envelope.event, envelope.seqId, envelope.streamId with
  | .clientMessageChunk segmentId _ _ _, some seqId, some streamId =>
    shouldIgnoreChunk state.clientSegmentReassembler envelope.clientId streamId seqId segmentId
  | _, _, _ => false

/-- Only the reassembler forgets the stream of an oversized chunk. -/
def dropOversized : WebsocketState M :=
  match envelope.streamId with
  | some streamId => { state with
      clientSegmentReassembler :=
        invalidateStream state.clientSegmentReassembler envelope.clientId streamId }
  | none => state

end

def observeClientMessage (now : ℕ) (state : WebsocketState M) (envelope : ClientEnvelope M)
    (wireSizeBytes : ℕ) : WebsocketState M × ClientSegmentObservation M :=
  if isCompleted state envelope then (state, .dropped)
  else if isIgnored state envelope then (state, .dropped)
  else if (clientMessageKey envelope).isSome ∧ remoteControlSegmentMaxBytes < wireSizeBytes then
    (dropOversized state envelope, .dropped)
  else
    let (reassembler, observation) :=
      observe codec now state.clientSegmentReassembler envelope
    ({ state with clientSegmentReassembler := reassembler }, observation)

def ackOutbound (envelope : ClientEnvelope M) : BoundedOutboundBuffer M :=
  match envelope.event, envelope.seqId, envelope.streamId with
  | .ack segmentId, some ackedSeqId, some streamId =>
    state.outboundBuffer.ack envelope.clientId streamId ackedSeqId segmentId
  | _, _, _ => state.outboundBuffer

def recordClientMessageDelivery (envelope : ClientEnvelope M)
    (key : Option ((ClientId × Option StreamId) × ℕ)) : WebsocketState M :=
  { state with
    subscribeCursor := envelope.cursor <|> state.subscribeCursor
    lastCompletedClientChunkSeqIdByStream :=
      match key with
      | some (key, seqId) =>
        update state.lastCompletedClientChunkSeqIdByStream key (some seqId)
      | none => state.lastCompletedClientChunkSeqIdByStream
    outboundBuffer := ackOutbound state envelope }

variable (clientId : ClientId) (streamId : StreamId)

def invalidateClientMessageStream : WebsocketState M :=
  { state with
    lastCompletedClientChunkSeqIdByStream :=
      update state.lastCompletedClientChunkSeqIdByStream (clientId, some streamId) none }

def invalidateClientMessageClient : WebsocketState M :=
  { state with
    lastCompletedClientChunkSeqIdByStream := fun key =>
      if key.1 = clientId then none else state.lastCompletedClientChunkSeqIdByStream key }

def forgetStream : WebsocketState M :=
  invalidateClientMessageStream { state with
    clientSegmentReassembler :=
      invalidateStream state.clientSegmentReassembler clientId streamId } clientId streamId

def forgetClient : WebsocketState M :=
  invalidateClientMessageClient { state with
    clientSegmentReassembler := invalidateClient state.clientSegmentReassembler clientId } clientId

/-- What a client that says it is closed takes with it: its stream, or all of it. -/
def forgetClosed (envelope : ClientEnvelope M) : WebsocketState M :=
  match envelope.event, envelope.streamId with
  | .clientClosed, some streamId => forgetStream state envelope.clientId streamId
  | .clientClosed, none => forgetClient state envelope.clientId
  | _, _ => state

/-- One turn of the reader for an envelope. If the client tracker does not take the message, the
reader ends and nothing is recorded. -/
def readEnvelope (now : ℕ) (state : WebsocketState M) (envelope : ClientEnvelope M)
    (wireSizeBytes : ℕ) (delivered : Bool) : WebsocketState M × Option (ClientEnvelope M) :=
  match observeClientMessage codec now state envelope wireSizeBytes with
  | (state, .forward forwarded) =>
    if delivered then
      (forgetClosed (recordClientMessageDelivery state forwarded (clientMessageKey envelope))
        forwarded, some forwarded)
    else (state, some forwarded)
  | (state, _) => (state, none)

def writeQueued (event : ServerEvent M) (clientId : ClientId)
    (streamId : StreamId) : WebsocketState M × List (ServerEnvelope M) :=
  let seqKey := (clientId, streamId)
  let seqId := (state.nextSeqIdByStream seqKey).getD 1
  let state := { state with
    nextSeqIdByStream := update state.nextSeqIdByStream seqKey (some seqId) }
  match splitServerEnvelopeForTransport codec ⟨event, clientId, streamId, seqId⟩ with
  | .error _ => (state, [])
  | .ok envelopes =>
    ({ state with
      outboundBuffer := envelopes.foldl BoundedOutboundBuffer.insert state.outboundBuffer
      nextSeqIdByStream :=
        update state.nextSeqIdByStream seqKey (some (saturatingSucc seqId)) }, envelopes)

/-- What the reader and the writer of the connections, one after the other, take up. A stream
closes when its client has gone or is idle for too long. -/
inductive Event (M : Type)
  | received (envelope : ClientEnvelope M) (wireSizeBytes now : ℕ) (delivered : Bool)
  | streamClosed (clientId : ClientId) (streamId : StreamId)
  | queued (event : ServerEvent M) (clientId : ClientId) (streamId : StreamId)

inductive Outcome (M : Type)
  | nothing
  | forwarded (envelope : ClientEnvelope M)
  | wrote (envelopes : List (ServerEnvelope M))

def step : Event M → WebsocketState M × Outcome M
  | .received envelope wireSizeBytes now delivered =>
    match readEnvelope codec now state envelope wireSizeBytes delivered with
    | (state, some forwarded) => (state, .forwarded forwarded)
    | (state, none) => (state, .nothing)
  | .streamClosed clientId streamId => (forgetStream state clientId streamId, .nothing)
  | .queued event clientId streamId =>
    let (state, envelopes) := writeQueued codec state event clientId streamId
    (state, .wrote envelopes)

end RemoteWebsocket
