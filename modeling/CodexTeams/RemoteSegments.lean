import CodexTeams.ListChunks
import CodexTeams.RustStr

/-! Cutting a server message that is too large for one websocket message into chunks. The number of
chunks grows until every chunk envelope is within the limit. JSON and base64 are parameters. -/
namespace RemoteSegments

open RustStr ListChunks

def remoteControlSegmentTargetBytes : ℕ := 100 * 1024

def remoteControlSegmentMaxBytes : ℕ := 150 * 1024

def remoteControlReassembledMaxBytes : ℕ := 100 * 1024 * 1024

def remoteControlSegmentCountMax : ℕ := 1024

structure ClientId where
  id : Str
  deriving DecidableEq, Repr

structure StreamId where
  id : Str
  deriving DecidableEq, Repr

inductive PongStatus
  | active
  | unknown
  deriving Repr

inductive ServerEvent (M : Type)
  | serverMessage (message : M)
  | serverMessageChunk (segmentId segmentCount messageSizeBytes : ℕ) (messageChunkBase64 : Str)
  | ack
  | pong (status : PongStatus)
  deriving Repr

structure ServerEnvelope (M : Type) where
  event : ServerEvent M
  clientId : ClientId
  streamId : StreamId
  seqId : ℕ
  deriving Repr

/-- JSON and base64, as far as the transport uses them. -/
structure Codec (M : Type) where
  toVec : M → List UInt8
  fromSlice : List UInt8 → Option M
  serializedLen : ServerEnvelope M → ℕ
  encode : List UInt8 → Str
  decode : Str → Option (List UInt8)
  decodedLenEstimate : ℕ → ℕ

/-- What the JSON and base64 libraries promise. -/
structure Codec.Lawful {M : Type} (codec : Codec M) : Prop where
  fromSlice_toVec : ∀ message, codec.fromSlice (codec.toVec message) = some message
  decode_encode : ∀ bytes, codec.decode (codec.encode bytes) = some bytes
  encode_ne_nil : ∀ bytes, bytes ≠ [] → codec.encode bytes ≠ []
  decode_length : ∀ {text bytes}, codec.decode text = some bytes →
    bytes.length ≤ codec.decodedLenEstimate text.length

inductive SplitError
  | segmentCountExceedsMaximum
  deriving Repr

variable {M : Type} (codec : Codec M) (envelope : ServerEnvelope M)
  (segmentId segmentCount messageSizeBytes : ℕ) (chunk : List UInt8)

def buildChunkEnvelope : Except SplitError (ServerEnvelope M) :=
  if remoteControlSegmentCountMax < segmentCount then .error .segmentCountExceedsMaximum
  else .ok ⟨.serverMessageChunk segmentId segmentCount messageSizeBytes (codec.encode chunk),
    envelope.clientId, envelope.streamId, envelope.seqId⟩

def serializedChunkLen : Except SplitError ℕ :=
  match buildChunkEnvelope codec envelope segmentId segmentCount messageSizeBytes chunk with
  | .ok chunkEnvelope => .ok (codec.serializedLen chunkEnvelope)
  | .error e => .error e

def chunkFits : Bool :=
  match serializedChunkLen codec envelope segmentId segmentCount messageSizeBytes chunk with
  | .ok size => size ≤ remoteControlSegmentMaxBytes
  | .error _ => false

def chunkSizeFor (messageSizeBytes segmentCount : ℕ) : ℕ :=
  max 1 (divCeil messageSizeBytes segmentCount)

variable (segmentCount messageSizeBytes : ℕ)

def buildChunks : ℕ → List (List UInt8) → Except SplitError (List (ServerEnvelope M))
  | _, [] => .ok []
  | segmentId, chunk :: rest =>
    match buildChunkEnvelope codec envelope segmentId segmentCount messageSizeBytes chunk with
    | .error e => .error e
    | .ok chunkEnvelope =>
      match buildChunks (segmentId + 1) rest with
      | .error e => .error e
      | .ok envelopes => .ok (chunkEnvelope :: envelopes)

def chunksFit (parts : List (List UInt8)) : Bool :=
  parts.zipIdx.all fun part =>
    chunkFits codec envelope part.2 segmentCount messageSizeBytes part.1

def nextSegmentCount (messageSizeBytes segmentCount chunkSize : ℕ) : ℕ :=
  if chunkSizeFor messageSizeBytes (segmentCount + 1) = chunkSize then messageSizeBytes
  else segmentCount + 1

theorem chunkSizeFor_pos (n segmentCount : ℕ) : 0 < chunkSizeFor n segmentCount :=
  Nat.lt_of_lt_of_le Nat.one_pos (Nat.le_max_left 1 _)

theorem chunkSizeFor_divCeil_le (hp : 0 < chunkSize) :
    chunkSizeFor n (divCeil n chunkSize + 1) ≤ chunkSize := by
  apply Nat.max_le.mpr
  refine ⟨hp, ?_⟩
  rw [divCeil_le_iff (Nat.succ_pos _), Nat.mul_comm]
  exact (le_divCeil_mul hp).trans (Nat.mul_le_mul_right _ (Nat.le_succ _))

theorem chunkSizeFor_next_lt (hp : 0 < chunkSize) (hne : chunkSize ≠ 1) :
    chunkSizeFor n (nextSegmentCount n (divCeil n chunkSize) chunkSize) < chunkSize := by
  unfold nextSegmentCount
  split
  · have hon : chunkSizeFor n n = 1 := by
      apply Nat.max_eq_left
      by_cases hn : n = 0
      · subst hn
        decide
      · rw [divCeil_le_iff (Nat.pos_of_ne_zero hn)]
        omega
    omega
  · rename_i ho
    exact lt_of_le_of_ne (chunkSizeFor_divCeil_le hp) ho

def splitLoop (raw : List UInt8) (segmentCount : ℕ) : Except SplitError (List (ServerEnvelope M)) :=
  let chunkSize := chunkSizeFor raw.length segmentCount
  let count := divCeil raw.length chunkSize
  if chunksFit codec envelope count raw.length (chunks chunkSize raw) then
    buildChunks codec envelope count raw.length 0 (chunks chunkSize raw)
  else if chunkSize = 1 then .ok []
  else splitLoop raw (nextSegmentCount raw.length count chunkSize)
termination_by chunkSizeFor raw.length segmentCount
decreasing_by
  rename_i hne
  exact chunkSizeFor_next_lt (chunkSizeFor_pos _ _) hne

def splitServerEnvelopeForTransport : Except SplitError (List (ServerEnvelope M)) :=
  match envelope.event with
  | .serverMessage message =>
    if codec.serializedLen envelope ≤ remoteControlSegmentMaxBytes then .ok [envelope]
    else
      let raw := codec.toVec message
      if remoteControlReassembledMaxBytes < raw.length then .ok []
      else
        match serializedChunkLen codec envelope 0
            (min (max raw.length 1) remoteControlSegmentCountMax) raw.length (raw.take 1) with
        | .error e => .error e
        | .ok size =>
          if remoteControlSegmentMaxBytes < size then .ok []
          else
            splitLoop codec envelope raw
              (max 2 (divCeil raw.length remoteControlSegmentTargetBytes))
  | _ => .ok [envelope]

section Chunks

variable {codec}

def chunkEnvelope (codec : Codec M) (envelope : ServerEnvelope M) (segmentCount size : ℕ)
    (part : List UInt8 × ℕ) : ServerEnvelope M :=
  ⟨.serverMessageChunk part.2 segmentCount size (codec.encode part.1), envelope.clientId,
    envelope.streamId, envelope.seqId⟩

theorem buildChunkEnvelope_eq (h : sc ≤ remoteControlSegmentCountMax) (si s : ℕ) (p : List UInt8) :
    buildChunkEnvelope c e si sc s p = .ok (chunkEnvelope c e sc s (p, si)) :=
  if_neg (Nat.not_lt.mpr h)

theorem chunkFits_iff : chunkFits c e si sc s p = true ↔
      sc ≤ remoteControlSegmentCountMax ∧ c.serializedLen (chunkEnvelope c e sc s (p, si)) ≤
          remoteControlSegmentMaxBytes := by
  by_cases hc : sc ≤ remoteControlSegmentCountMax
  · simp [chunkFits, serializedChunkLen, buildChunkEnvelope_eq, hc]
  · simp [chunkFits, serializedChunkLen, buildChunkEnvelope, Nat.lt_of_not_le, hc]

theorem buildChunks_eq (h : sc ≤ remoteControlSegmentCountMax) (s si : ℕ) (ps : List (List UInt8)) :
    buildChunks c e sc s si ps = .ok ((ps.zipIdx si).map (chunkEnvelope c e sc s)) := by
  induction ps generalizing si with
  | nil => rfl
  | cons p ps ih => simp [buildChunks, buildChunkEnvelope_eq h, ih]

/-- A message in parts, each in an envelope within the limits. -/
structure Segmented (codec : Codec M) (envelope : ServerEnvelope M) (raw : List UInt8)
    (parts : List (List UInt8)) (out : List (ServerEnvelope M)) : Prop where
  flatten : parts.flatten = raw
  nonempty : ∀ part ∈ parts, part ≠ []
  count : parts.length ≤ remoteControlSegmentCountMax
  envelopes : out = parts.zipIdx.map (chunkEnvelope codec envelope parts.length raw.length)
  fits : ∀ chunk ∈ out, codec.serializedLen chunk ≤ remoteControlSegmentMaxBytes

theorem segmented_of_chunksFit (hps : 0 < cs) (hr : raw ≠ [])
    (h : chunksFit c e (divCeil raw.length cs) raw.length (chunks cs raw) = true) :
    ∃ out, buildChunks c e (divCeil raw.length cs) raw.length 0
        (chunks cs raw) = .ok out ∧ Segmented c e raw (chunks cs raw) out := by
  have hf := List.all_eq_true.mp h
  have hl := length_chunks hps raw
  have hc : divCeil raw.length cs ≤ remoteControlSegmentCountMax := by
    -- there is a first chunk, and building it has checked the count
    have hfr : (raw.take cs, 0) ∈ (chunks cs raw).zipIdx := by
      rw [chunks_of_ne hps hr]
      exact List.mem_cons_self
    exact (chunkFits_iff.mp (hf _ hfr)).1
  refine ⟨_, buildChunks_eq hc _ _ _, flatten_chunks hps raw, ?_, ?_, ?_, ?_⟩
  · intro p hp
    exact ne_nil_of_mem_chunks hps hp
  · rw [hl]
    exact hc
  · rw [hl]
  · intro chunk hch
    obtain ⟨p, hp, rfl⟩ := List.mem_map.mp hch
    exact (chunkFits_iff.mp (hf p hp)).2

theorem splitLoop_cases (c : Codec M) (e : ServerEnvelope M) (raw : List UInt8) (sc : ℕ) :
    splitLoop c e raw sc = .ok [] ∨ ∃ ps out, splitLoop c e raw sc = .ok out ∧
        Segmented c e raw ps out := by
  by_cases hr : raw = []
  · left
    subst hr
    rw [splitLoop]
    simp [chunks_nil, chunksFit, buildChunks]
  · induction hsz : chunkSizeFor raw.length sc using Nat.strong_induction_on
      generalizing sc with
    | h size ih =>
      have hp : 0 < size := hsz ▸ chunkSizeFor_pos _ _
      rw [splitLoop]
      simp only [hsz]
      by_cases hf : chunksFit c e (divCeil raw.length size) raw.length
          (chunks size raw) = true
      · rw [if_pos hf]
        obtain ⟨out, hb, hs⟩ := segmented_of_chunksFit hp hr hf
        exact .inr ⟨_, out, hb, hs⟩
      · rw [if_neg hf]
        by_cases ho : size = 1
        · rw [if_pos ho]
          exact .inl rfl
        · rw [if_neg ho]
          exact ih _ (chunkSizeFor_next_lt hp ho) _ rfl

theorem splitLoop_of_fits (hs : chunkSizeFor raw.length sc = s)
    (hf : chunksFit c e (divCeil raw.length s) raw.length (chunks s raw) = true) :
    splitLoop c e raw sc = buildChunks c e (divCeil raw.length s) raw.length 0 (chunks s raw) := by
  subst hs
  rw [splitLoop, if_pos hf]

theorem split_eq_splitLoop (he : e.event = .serverMessage m)
    (hl : ¬ c.serializedLen e ≤ remoteControlSegmentMaxBytes)
    (hb : ¬ remoteControlReassembledMaxBytes < (c.toVec m).length)
    (hf : ¬ remoteControlSegmentMaxBytes < c.serializedLen (chunkEnvelope c e (min (max (c.toVec
      m).length 1) remoteControlSegmentCountMax) (c.toVec m).length ((c.toVec m).take 1, 0))) :
    splitServerEnvelopeForTransport c e = splitLoop c e (c.toVec m)
        (max 2 (divCeil (c.toVec m).length remoteControlSegmentTargetBytes)) := by
  simp only [splitServerEnvelopeForTransport, he]
  rw [if_neg hl, if_neg hb, serializedChunkLen, buildChunkEnvelope_eq (Nat.min_le_right _ _)]
  exact if_neg hf

theorem split_too_large (he : e.event = .serverMessage m)
    (hl : ¬ c.serializedLen e ≤ remoteControlSegmentMaxBytes)
    (hb : remoteControlReassembledMaxBytes < (c.toVec m).length) :
    splitServerEnvelopeForTransport c e = .ok [] := by
  simp only [splitServerEnvelopeForTransport, he]
  rw [if_neg hl, if_pos hb]

theorem split_cases (c : Codec M) (m : M) (ci : ClientId) (si : StreamId) (i : ℕ) :
    let e : ServerEnvelope M := ⟨.serverMessage m, ci, si, i⟩
    splitServerEnvelopeForTransport c e = .ok [e] ∨ splitServerEnvelopeForTransport c e = .ok [] ∨
      ∃ ps out, splitServerEnvelopeForTransport c e = .ok out ∧
        (c.toVec m).length ≤ remoteControlReassembledMaxBytes ∧
        Segmented c e (c.toVec m) ps out := by
  intro e
  simp only [splitServerEnvelopeForTransport, e]
  by_cases hsm : c.serializedLen e ≤ remoteControlSegmentMaxBytes
  · rw [if_pos hsm]
    exact .inl rfl
  rw [if_neg hsm]
  by_cases hl : remoteControlReassembledMaxBytes < (c.toVec m).length
  · rw [if_pos hl]
    exact .inr (.inl rfl)
  rw [if_neg hl, serializedChunkLen, buildChunkEnvelope_eq (Nat.min_le_right _ _)]
  simp only
  split
  · exact .inr (.inl rfl)
  · rcases splitLoop_cases c e (c.toVec m)
        (max 2 (divCeil (c.toVec m).length remoteControlSegmentTargetBytes)) with
      hn | ⟨ps, out, ho, hs⟩
    · exact .inr (.inl hn)
    · exact .inr (.inr ⟨ps, out, ho, Nat.le_of_not_lt hl, hs⟩)

theorem split_ids (c : Codec M) (e : ServerEnvelope M) :
    ∃ out, splitServerEnvelopeForTransport c e = .ok out ∧
      ∀ p ∈ out, p.clientId = e.clientId ∧ p.streamId = e.streamId ∧ p.seqId = e.seqId := by
  have hs : ∀ p ∈ [e], p.clientId = e.clientId ∧ p.streamId = e.streamId ∧ p.seqId = e.seqId := by
    intro p hp
    obtain rfl := List.mem_singleton.mp hp
    exact ⟨rfl, rfl, rfl⟩
  obtain ⟨event, ci, si, i⟩ := e
  cases event with
  | serverMessage message =>
    rcases split_cases c message ci si i with
      hsm | hn | ⟨ps, out, ho, -, hsg⟩
    · exact ⟨_, hsm, hs⟩
    · exact ⟨_, hn, by simp⟩
    · refine ⟨out, ho, ?_⟩
      intro p hp
      rw [hsg.envelopes] at hp
      obtain ⟨numbered, -, rfl⟩ := List.mem_map.mp hp
      exact ⟨rfl, rfl, rfl⟩
  | _ => exact ⟨_, rfl, hs⟩

end Chunks

end RemoteSegments
