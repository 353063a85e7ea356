import CodexTeams.Base64
import CodexTeams.RemoteSegments
import CodexTeams.RustIter
import Mathlib.Data.List.AList

/-! Putting the chunks of client messages together again. There is one assembly for a client; chunks
it has already are passed over, anything else that does not continue it gives it up. -/
namespace SegmentReassembly

open RustStr RustIter RemoteSegments List ListChunks

abbrev HashMap (K V : Type) := AList (fun _ : K => V)

inductive ClientEvent (M : Type)
  | clientMessage (message : M)
  | clientMessageChunk (segmentId segmentCount messageSizeBytes : ℕ) (messageChunkBase64 : Str)
  | ack (segmentId : Option ℕ)
  | ping
  | clientClosed
  deriving DecidableEq, Repr

structure ClientEnvelope (M : Type) where
  event : ClientEvent M
  clientId : ClientId
  streamId : Option StreamId
  seqId : Option ℕ
  cursor : Option Str
  deriving DecidableEq, Repr

structure ClientSegmentMetadata where
  seqId : ℕ
  segmentCount : ℕ
  messageSizeBytes : ℕ
  deriving DecidableEq, Repr

structure ClientSegmentAssembly where
  streamId : StreamId
  metadata : ClientSegmentMetadata
  raw : List UInt8
  nextSegmentId : ℕ
  lastChunkSeenAt : ℕ
  deriving Repr

abbrev ClientSegmentReassembler := HashMap ClientId ClientSegmentAssembly

inductive ClientSegmentObservation (M : Type)
  | forward (envelope : ClientEnvelope M)
  | pending
  | dropped
  deriving DecidableEq, Repr

inductive AssemblyUpdate (M : Type)
  | pending
  | ignore
  | drop
  | complete (message : M)
  deriving Repr

def remoteControlSegmentAssemblyMaxCount : ℕ := 128

namespace ClientSegmentReassembler

variable (r : ClientSegmentReassembler) (clientId : ClientId) (streamId : StreamId)

def removeAssembly : ClientSegmentReassembler :=
  match r.lookup clientId with
  | some assembly => if assembly.streamId = streamId then r.erase clientId else r
  | none => r

def invalidateStream : ClientSegmentReassembler :=
  removeAssembly r clientId streamId

def invalidateClient : ClientSegmentReassembler :=
  r.erase clientId

def shouldIgnoreChunk (seqId segmentId : ℕ) : Bool :=
  (r.lookup clientId).any fun assembly =>
    assembly.streamId = streamId ∧ (seqId < assembly.metadata.seqId ∨
      seqId = assembly.metadata.seqId ∧ segmentId < assembly.nextSegmentId)

def evictLoop : ℕ → ClientSegmentReassembler → ClientSegmentReassembler
  | 0, r => r
  | fuel + 1, r =>
    if remoteControlSegmentAssemblyMaxCount ≤ r.entries.length then
      match minByKey (fun entry => entry.2.lastChunkSeenAt) r.entries with
      | some entry => evictLoop fuel (r.erase entry.1)
      | none => r
    else r

def evictAssembliesIfFull : ClientSegmentReassembler :=
  evictLoop r.entries.length r

end ClientSegmentReassembler

open ClientSegmentReassembler

variable {M : Type} (codec : Codec M) (assembly : ClientSegmentAssembly) (now : ℕ)

def acceptBytes (bytes : List UInt8) : ClientSegmentAssembly × AssemblyUpdate M :=
  let assembly : ClientSegmentAssembly := ⟨assembly.streamId, assembly.metadata,
    assembly.raw ++ bytes, assembly.nextSegmentId + 1, now⟩
  if assembly.nextSegmentId < assembly.metadata.segmentCount then (assembly, .pending)
  else if assembly.raw.length ≠ assembly.metadata.messageSizeBytes then (assembly, .drop)
  else
    match codec.fromSlice assembly.raw with
    | some message => (assembly, .complete message)
    | none => (assembly, .drop)

/-- The next chunk is decoded into what is left of the stated size. -/
def appendChunk (messageChunkBase64 : Str) : ClientSegmentAssembly × AssemblyUpdate M :=
  let chunkStart := assembly.raw.length
  let chunkEnd := min assembly.metadata.messageSizeBytes
    (chunkStart + codec.decodedLenEstimate messageChunkBase64.length)
  match codec.decode messageChunkBase64 with
  | none => (assembly, .drop)
  | some bytes =>
    if chunkEnd - chunkStart < bytes.length then (assembly, .drop)
    else acceptBytes codec assembly now bytes

def updateAssembly (metadata : ClientSegmentMetadata)
    (now segmentId : ℕ) (messageChunkBase64 : Str) : ClientSegmentAssembly × AssemblyUpdate M :=
  if metadata.seqId < assembly.metadata.seqId then (assembly, .ignore)
  else if assembly.metadata ≠ metadata then (assembly, .drop)
  else if segmentId < assembly.nextSegmentId then (assembly, .pending)
  else if segmentId ≠ assembly.nextSegmentId then (assembly, .drop)
  else appendChunk codec assembly now messageChunkBase64

def freshAssembly (streamId : StreamId) (metadata : ClientSegmentMetadata) (now : ℕ) :
    ClientSegmentAssembly :=
  ⟨streamId, metadata, [], 0, now⟩

section

variable (r : ClientSegmentReassembler)

/-- The assembly for the client, a new one after a change of stream or if there is none. -/
def assemblyFor (clientId : ClientId) (streamId : StreamId)
    (metadata : ClientSegmentMetadata) (now : ℕ) :
    ClientSegmentReassembler × ClientSegmentAssembly :=
  match r.lookup clientId with
  | some assembly =>
    if assembly.streamId ≠ streamId then
      (r.insert clientId (freshAssembly streamId metadata now), freshAssembly streamId metadata now)
    else (r, assembly)
  | none =>
    ((evictAssembliesIfFull r).insert clientId (freshAssembly streamId metadata now),
      freshAssembly streamId metadata now)

def invalidChunk (segmentId segmentCount messageSizeBytes : ℕ) (messageChunkBase64 : Str) : Bool :=
  segmentCount = 0 ∨ remoteControlSegmentCountMax < segmentCount ∨ segmentCount ≤ segmentId ∨
    messageSizeBytes = 0 ∨ remoteControlReassembledMaxBytes < messageSizeBytes ∨
    messageChunkBase64 = []

variable (envelope : ClientEnvelope M)

def conclude (streamId : StreamId) (updated : ClientSegmentAssembly × AssemblyUpdate M) :
    ClientSegmentReassembler × ClientSegmentObservation M :=
  let r := r.insert envelope.clientId updated.1
  match updated.2 with
  | .pending => (r, .pending)
  | .ignore => (r, .dropped)
  | .drop => (removeAssembly r envelope.clientId streamId, .dropped)
  | .complete message =>
    (removeAssembly r envelope.clientId streamId,
      .forward ⟨.clientMessage message, envelope.clientId, envelope.streamId, envelope.seqId,
        envelope.cursor⟩)

def observe : ClientSegmentReassembler × ClientSegmentObservation M :=
  match envelope.event with
  | .clientMessageChunk segmentId segmentCount messageSizeBytes messageChunkBase64 =>
    match envelope.seqId, envelope.streamId with
    | some seqId, some streamId =>
      let clientId := envelope.clientId
      let metadata : ClientSegmentMetadata := ⟨seqId, segmentCount, messageSizeBytes⟩
      if shouldIgnoreChunk r clientId streamId seqId segmentId then (r, .dropped)
      else if invalidChunk segmentId segmentCount messageSizeBytes messageChunkBase64 then
        (removeAssembly r clientId streamId, .dropped)
      else
        let (r, assembly) := assemblyFor r clientId streamId metadata now
        conclude r envelope streamId
          (updateAssembly codec assembly metadata now segmentId messageChunkBase64)
    | _, _ => (r, .dropped)
  | _ => (r, .forward envelope)

end

def asClient (cursor : Option Str) (envelope : ServerEnvelope M) : ClientEnvelope M :=
  ⟨match envelope.event with
    | .serverMessage message => .clientMessage message
    | .serverMessageChunk segmentId segmentCount messageSizeBytes messageChunkBase64 =>
      .clientMessageChunk segmentId segmentCount messageSizeBytes messageChunkBase64
    | .ack => .ack none
    | .pong _ => .ping,
    envelope.clientId, some envelope.streamId, some envelope.seqId, cursor⟩

def observeAll (clock : ℕ → ℕ) :
    ℕ → ClientSegmentReassembler → List (ClientEnvelope M) → List (ClientSegmentObservation M)
  | _, _, [] => []
  | turn, r, envelope :: rest =>
    (observe codec (clock turn) r envelope).2 ::
      observeAll clock (turn + 1) (observe codec (clock turn) r envelope).1 rest

/-- Messages given by their bytes, with base64 for the chunks and a frame of fixed size. -/
def base64Codec : Codec (List UInt8) where
  toVec message := message
  fromSlice bytes := some bytes
  serializedLen envelope := 150 +
    match envelope.event with
    | .serverMessage message => message.length
    | .serverMessageChunk _ _ _ text => text.length
    | _ => 0
  encode := Base64.encode
  decode := Base64.decode
  decodedLenEstimate := Base64.decodedLenEstimate

theorem base64Codec_lawful : base64Codec.Lawful :=
  ⟨fun _ => rfl, Base64.decode_encode, fun _ => Base64.encode_ne_nil, Base64.length_of_decode⟩

section

variable (en : ServerEnvelope (List UInt8))

theorem base64Codec_chunk_size (c s i : ℕ) (p : List UInt8) :
    base64Codec.serializedLen (chunkEnvelope base64Codec en c s (p, i)) =
      150 + ListChunks.divCeil p.length 3 * 4 :=
  congrArg (150 + ·) (Base64.length_encode p)

theorem base64Codec_chunk_fits (hc : c ≤ remoteControlSegmentCountMax)
    (hp : p.length ≤ remoteControlSegmentTargetBytes) :
    chunkFits base64Codec en i c s p = true := by
  apply chunkFits_iff.mpr
  rw [base64Codec_chunk_size]
  simp only [divCeil, remoteControlSegmentMaxBytes, remoteControlSegmentTargetBytes] at hp ⊢
  omega

end

theorem chunks_two (hrw : raw.length = 204800) :
    ListChunks.chunks 102400 raw = [raw.take 102400, raw.drop 102400] := by
  have hne : raw ≠ [] := by
    apply ne_nil_of_length_pos
    omega
  have hd : (raw.drop 102400).length = 102400 := by
    rw [length_drop, hrw]
  have hr : raw.drop 102400 ≠ [] := by
    apply ne_nil_of_length_pos
    omega
  rw [chunks_of_ne (by omega) hne, chunks_of_ne (by omega) hr,
    take_of_length_le (Nat.le_of_eq hd), drop_eq_nil_of_le (Nat.le_of_eq hd),
    chunks_nil]

theorem split_twoChunks (hr : raw.length = 204800) (ci : ClientId) (si : StreamId) (i : ℕ) :
    let en : ServerEnvelope (List UInt8) := ⟨.serverMessage raw, ci, si, i⟩
    splitServerEnvelopeForTransport base64Codec en =
      .ok ([raw.take 102400, raw.drop 102400].zipIdx.map
        (chunkEnvelope base64Codec en 2 204800)) := by
  intro en
  have hl : ¬ base64Codec.serializedLen en ≤ remoteControlSegmentMaxBytes := by
    simp [base64Codec, en, hr, remoteControlSegmentMaxBytes]
  have hb : ¬ remoteControlReassembledMaxBytes < raw.length := by
    rw [hr]
    decide
  have hf : ¬ remoteControlSegmentMaxBytes < base64Codec.serializedLen
      (chunkEnvelope base64Codec en (min (max raw.length 1) remoteControlSegmentCountMax)
        raw.length (raw.take 1, 0)) := by
    rw [base64Codec_chunk_size, length_take, hr]
    decide
  have hs : chunkSizeFor raw.length (max 2 (divCeil raw.length
      remoteControlSegmentTargetBytes)) = 102400 := by
    rw [hr]
    decide
  have hc : divCeil raw.length 102400 = 2 := by
    rw [hr]
    decide
  have hft : chunksFit base64Codec en 2 raw.length [raw.take 102400, raw.drop 102400] = true := by
    have ht : remoteControlSegmentTargetBytes = 102400 := by decide
    apply all_eq_true.mpr
    intro p hp
    apply base64Codec_chunk_fits en (by decide)
    rw [ht]
    rcases mem_cons.mp hp with rfl | hp
    · simp
    · obtain rfl := mem_singleton.mp hp
      simp [hr]
  calc splitServerEnvelopeForTransport base64Codec en
    _ = splitLoop base64Codec en raw
        (max 2 (divCeil raw.length remoteControlSegmentTargetBytes)) :=
      split_eq_splitLoop rfl hl hb hf
    _ = buildChunks base64Codec en (divCeil raw.length 102400) raw.length 0
        (chunks 102400 raw) := by
      apply splitLoop_of_fits hs
      rw [hc, chunks_two hr]
      exact hft
    _ = .ok ([raw.take 102400, raw.drop 102400].zipIdx.map
        (chunkEnvelope base64Codec en 2 204800)) := by
      rw [hc, chunks_two hr, hr]
      exact buildChunks_eq (by decide) _ _ _

section InOrder

variable {codec} {parts : List (List UInt8)}

/-- The first parts of a message have arrived, and nothing of it is lost. -/
def Collected (r : ClientSegmentReassembler) (envelope : ServerEnvelope M)
    (metadata : ClientSegmentMetadata) (done : List (List UInt8)) : Prop :=
  (done = [] ∧ r.lookup envelope.clientId = none) ∨ ∃ seenAt, r.lookup envelope.clientId =
      some ⟨envelope.streamId, metadata, done.flatten, done.length, seenAt⟩

variable {cd : Codec M} {rs : List (List UInt8)} {p : List UInt8}

theorem Collected.not_ignored (h : Collected r en m d) :
    shouldIgnoreChunk r en.clientId en.streamId m.seqId d.length = false := by
  rcases h with ⟨-, hn⟩ | ⟨sa, hs⟩
  · simp [shouldIgnoreChunk, hn]
  · simp [shouldIgnoreChunk, hs]

theorem Collected.assemblyFor (h : Collected r en m d) (now : ℕ) :
    ∃ sa, (assemblyFor r en.clientId en.streamId m now).2 =
      ⟨en.streamId, m, d.flatten, d.length, sa⟩ := by
  rcases h with ⟨rfl, hn⟩ | ⟨sa, hs⟩
  · exact ⟨now, by simp [SegmentReassembly.assemblyFor, hn, freshAssembly]⟩
  · exact ⟨sa, by simp [SegmentReassembly.assemblyFor, hs]⟩

theorem appendChunk_encode (hc : cd.Lawful) (a : ClientSegmentAssembly) (now : ℕ)
    (hr : a.raw.length + part.length ≤ a.metadata.messageSizeBytes) :
    appendChunk cd a now (cd.encode part) = acceptBytes cd a now part := by
  have hd := hc.decode_encode part
  have he := hc.decode_length hd
  have hf : ¬ min a.metadata.messageSizeBytes (a.raw.length +
      cd.decodedLenEstimate (cd.encode part).length) - a.raw.length < part.length := by
    omega
  unfold appendChunk
  simp [hd, if_neg hf]

/-- A message that both sides take in the parts it was cut into. -/
structure Accepted (raw : List UInt8) (parts : List (List UInt8)) : Prop where
  flatten : parts.flatten = raw
  nonempty : ∀ part ∈ parts, part ≠ []
  count : parts.length ≤ remoteControlSegmentCountMax
  size : raw.length ≤ remoteControlReassembledMaxBytes

def metadataOf (envelope : ServerEnvelope M) (raw : List UInt8) (parts : List (List UInt8)) :
    ClientSegmentMetadata :=
  ⟨envelope.seqId, parts.length, raw.length⟩

theorem Accepted.valid (hc : cd.Lawful) (h : Accepted raw (d ++ p :: rs)) :
    invalidChunk d.length (d ++ p :: rs).length raw.length (cd.encode p) = false := by
  have hp : p ≠ [] := h.nonempty p (by simp)
  have hr : raw ≠ [] := by
    rw [← h.flatten]
    simp [hp]
  have hcn := h.count
  have hs := h.size
  have he := hc.encode_ne_nil p hp
  have hsm := length_pos_iff.mpr hr
  simp only [length_append, length_cons] at hcn ⊢
  simp only [invalidChunk, he, or_false, decide_eq_false_iff_not]
  omega

theorem observe_part (hc : cd.Lawful) (ha : Accepted raw (d ++ p :: rs))
    (h : Collected r en (metadataOf en raw (d ++ p :: rs)) d) (now : ℕ) (c : Option Str) :
    ∃ (r' : ClientSegmentReassembler) (sa : ℕ), observe cd now r (asClient c (chunkEnvelope cd en
          (d ++ p :: rs).length raw.length (p, d.length))) =
        conclude r' (asClient c (chunkEnvelope cd en
          (d ++ p :: rs).length raw.length (p, d.length))) en.streamId
          (acceptBytes cd ⟨en.streamId, metadataOf en raw (d ++ p :: rs),
            d.flatten, d.length, sa⟩ now p) := by
  obtain ⟨sa, has⟩ := h.assemblyFor now
  have hr : d.flatten.length + p.length ≤ raw.length := by
    rw [← ha.flatten]
    simp
  refine ⟨(assemblyFor r en.clientId en.streamId (metadataOf en raw (d ++ p :: rs)) now).1, sa, ?_⟩
  have hi := h.not_ignored
  have hv := ha.valid hc
  simp only [metadataOf] at has hi ⊢
  simp only [observe, asClient, chunkEnvelope, hi, hv, Bool.false_eq_true, if_false,
    has, updateAssembly, Nat.lt_irrefl, ne_eq, not_true_eq_false]
  rw [appendChunk_encode hc _ now hr]

theorem acceptBytes_pending (h : a.nextSegmentId + 1 < a.metadata.segmentCount) (now : ℕ)
    (bs : List UInt8) :
    acceptBytes cd a now bs = (⟨a.streamId, a.metadata,
      a.raw ++ bs, a.nextSegmentId + 1, now⟩, .pending) :=
  if_pos h

theorem observe_part_pending (hc : cd.Lawful) (ha : Accepted raw (d ++ p :: nx :: rs))
    (h : Collected r en (metadataOf en raw (d ++ p :: nx :: rs)) d) (now : ℕ) (c : Option Str) :
    ∃ r', observe cd now r (asClient c (chunkEnvelope cd en
        (d ++ p :: nx :: rs).length raw.length (p, d.length))) = (r', .pending) ∧
      Collected r' en (metadataOf en raw (d ++ p :: nx :: rs)) (d ++ [p]) := by
  obtain ⟨r', sa, ho⟩ := observe_part hc ha h now c
  have hm : d.length + 1 < (d ++ p :: nx :: rs).length := by simp
  rw [ho, acceptBytes_pending hm]
  refine ⟨_, rfl, .inr ⟨now, ?_⟩⟩
  simp [asClient, chunkEnvelope]

theorem observe_part_last (hc : cd.Lawful) (hm : cd.fromSlice raw = some m)
    (ha : Accepted raw (d ++ [p])) (h : Collected r en (metadataOf en raw (d ++ [p])) d) (now : ℕ)
    (c : Option Str) :
    (observe cd now r (asClient c (chunkEnvelope cd en
        (d ++ [p]).length raw.length (p, d.length)))).2 =
      .forward ⟨.clientMessage m, en.clientId, some en.streamId, some en.seqId, c⟩ := by
  obtain ⟨r', sa, ho⟩ := observe_part hc ha h now c
  have hr : d.flatten ++ p = raw := by
    rw [← ha.flatten]
    simp
  rw [ho]
  simp [acceptBytes, conclude, metadataOf, hr, hm, asClient, chunkEnvelope]

theorem observeAll_parts (hcd : cd.Lawful) (hm : cd.fromSlice raw = some m) (cl : ℕ → ℕ)
    (c : Option Str) (d : List (List UInt8)) (p : List UInt8) (ha : Accepted raw (d ++ p :: rest))
    (h : Collected r en (metadataOf en raw (d ++ p :: rest)) d) (t : ℕ) :
    observeAll cd cl t r (((p :: rest).zipIdx d.length).map fun numbered => asClient c
          (chunkEnvelope cd en (d ++ p :: rest).length raw.length numbered)) =
      List.replicate rest.length .pending ++ [.forward ⟨.clientMessage m, en.clientId,
        some en.streamId, some en.seqId, c⟩] := by
  induction rest generalizing d p r t with
  | nil =>
    have hls := observe_part_last hcd hm ha h (cl t) c
    simp only [zipIdx_cons, zipIdx_nil, map_cons, map_nil, observeAll, hls,
      length_nil, replicate_zero, nil_append]
  | cons next rest ih =>
    obtain ⟨r', ho, hc⟩ := observe_part_pending hcd ha h (cl t) c
    have has : d ++ [p] ++ next :: rest = d ++ p :: next :: rest := by simp
    rw [← has] at ha hc
    have hr := ih (d ++ [p]) next ha hc (t + 1)
    have hl : (d ++ [p]).length = d.length + 1 := by simp
    rw [has, hl] at hr
    rw [zipIdx_cons, map_cons, observeAll, ho, hr]
    rfl

/-- The chunk envelopes of one message, in their order. -/
structure ChunkedLosslessly (codec : Codec M) (message : M) (envelope : ServerEnvelope M)
    (parts : List (List UInt8)) (out : List (ServerEnvelope M)) : Prop where
  event : envelope.event = .serverMessage message
  count : out.length = parts.length ∧ out.length ≤ remoteControlSegmentCountMax
  concat : parts.flatten = codec.toVec message
  chunk : ∀ (i : ℕ) (part : List UInt8), parts[i]? = some part →
    ∃ text, codec.decode text = some part ∧ out[i]? = some ⟨.serverMessageChunk i out.length
      (codec.toVec message).length text, envelope.clientId, envelope.streamId, envelope.seqId⟩
  fits : ∀ chunk ∈ out, codec.serializedLen chunk ≤ remoteControlSegmentMaxBytes

theorem chunkedLosslessly_of_segmented (hc : cd.Lawful) (he : en.event = .serverMessage m)
    (h : Segmented cd en (cd.toVec m) parts out) : ChunkedLosslessly cd m en parts out := by
  have hl : out.length = parts.length := by
    rw [h.envelopes]
    simp
  refine ⟨he, ⟨hl, hl ▸ h.count⟩, h.flatten, ?_, h.fits⟩
  intro i p hp
  refine ⟨cd.encode p, hc.decode_encode p, ?_⟩
  rw [h.envelopes]
  simp [hp, chunkEnvelope]

/-- The chunks of a message complete it at a reassembler that has seen nothing. -/
theorem observeAll_segmented (hc : cd.Lawful) (h : Segmented cd en (cd.toVec m) (p :: rs) out)
    (hs : (cd.toVec m).length ≤ remoteControlReassembledMaxBytes) (cl : ℕ → ℕ) (c : Option Str) :
    observeAll cd cl 0 ∅ (out.map (asClient c)) =
      List.replicate (out.length - 1) .pending ++ [.forward ⟨.clientMessage m,
        en.clientId, some en.streamId, some en.seqId, c⟩] := by
  have he : Collected ∅ en (metadataOf en (cd.toVec m) ([] ++ p :: rs)) [] :=
    .inl ⟨rfl, AList.lookup_empty _⟩
  have hp := observeAll_parts hc (hc.fromSlice_toVec m) cl c [] p { h with size := hs } he 0
  have hl : out.length - 1 = rs.length := by
    rw [h.envelopes]
    simp
  rw [hl, h.envelopes, map_map]
  exact hp

/-- Whatever envelope is split, it comes out as it is, or not at all, or in chunks that are
numbered, within the limits and hold the message; and the chunks in order give the message back
to a reassembler that has seen nothing. -/
theorem split_lossless (hcodec : codec.Lawful) (envelope : ServerEnvelope M) (clock : ℕ → ℕ)
    (cursor : Option Str) :
    ∃ out, splitServerEnvelopeForTransport codec envelope = .ok out ∧
      (out = [envelope] ∨ out = [] ∨ ∃ message parts,
        ChunkedLosslessly codec message envelope parts out ∧
        observeAll codec clock 0 ∅ (out.map (asClient cursor)) =
          List.replicate (out.length - 1) .pending ++
            [.forward ⟨.clientMessage message, envelope.clientId, some envelope.streamId,
              some envelope.seqId, cursor⟩]) := by
  obtain ⟨event, ci, si, i⟩ := envelope
  cases event with
  | serverMessage message =>
    rcases split_cases codec message ci si i with
      hsl | hn | ⟨parts, out, ho, hsz, hs⟩
    · exact ⟨_, hsl, .inl rfl⟩
    · exact ⟨_, hn, .inr (.inl rfl)⟩
    · refine ⟨out, ho, .inr ?_⟩
      cases parts with
      | nil => exact .inl hs.envelopes
      | cons p rs =>
        refine .inr ⟨message, p :: rs, chunkedLosslessly_of_segmented hcodec rfl hs, ?_⟩
        exact observeAll_segmented hcodec hs hsz clock cursor
  | _ => exact ⟨_, rfl, .inl rfl⟩

end InOrder

theorem exists_of_length (n : ℕ) : ∃ raw : List UInt8, raw.length = n :=
  ⟨List.replicate n 0, length_replicate⟩

theorem split_lossless_twoChunks : base64Codec.Lawful ∧ ∃ raw out : List _, raw.length = 204800 ∧
      splitServerEnvelopeForTransport base64Codec ⟨.serverMessage raw, ⟨[]⟩, ⟨[]⟩, 1⟩ = .ok out ∧
      out.length = 2 ∧ observeAll base64Codec id 0 ∅ (out.map (asClient none)) =
        [.pending, .forward ⟨.clientMessage raw, ⟨[]⟩, some ⟨[]⟩, some 1, none⟩] := by
  obtain ⟨raw, hr⟩ := exists_of_length 204800
  refine ⟨base64Codec_lawful, raw, _, hr, split_twoChunks hr ⟨[]⟩ ⟨[]⟩ 1, rfl, ?_⟩
  obtain ⟨out, hot, hcs⟩ := split_lossless base64Codec_lawful
    ⟨.serverMessage raw, ⟨[]⟩, ⟨[]⟩, 1⟩ id none
  rw [split_twoChunks hr] at hot
  obtain rfl := Except.ok.inj hot
  rcases hcs with hs | hn | ⟨message, parts, hc, ho⟩
  · cases hs
  · cases hn
  · obtain rfl := ServerEvent.serverMessage.inj hc.event
    exact ho

/-- The two chunks are within the limit but larger on the wire than the target size. -/
theorem chunks_exceed_target :
    ∃ (codec : Codec (List UInt8)) (envelope chunk : ServerEnvelope (List UInt8)), codec.Lawful ∧
      ∃ out, splitServerEnvelopeForTransport codec envelope = .ok out ∧ chunk ∈ out ∧
        remoteControlSegmentTargetBytes < codec.serializedLen chunk := by
  obtain ⟨raw, hr⟩ := exists_of_length 204800
  refine ⟨base64Codec, _, _, base64Codec_lawful, _, split_twoChunks hr ⟨[]⟩ ⟨[]⟩ 1,
    mem_cons_self, ?_⟩
  rw [base64Codec_chunk_size, length_take, hr]
  decide

section Restart

variable {M : Type} {codec : Codec M} {envelope : ServerEnvelope M} {raw : List UInt8}
  {parts : List (List UInt8)}

section

variable (r : ClientSegmentReassembler)

/-- The unfinished message of a stream, if the client's assembly is one of that stream. -/
def pendingOn (clientId : ClientId) (streamId : StreamId) : Option ClientSegmentAssembly :=
  (r.lookup clientId).filter (·.streamId = streamId)

def forwards (observations : List (ClientSegmentObservation M)) : List (ClientEnvelope M) :=
  observations.filterMap fun
    | .forward envelope => some envelope
    | _ => none

def clientChunks (codec : Codec M) (envelope : ServerEnvelope M) (cursor : Option Str)
    (raw : List UInt8) (parts : List (List UInt8)) : List (ClientEnvelope M) :=
  parts.zipIdx.map fun numbered =>
    asClient cursor (chunkEnvelope codec envelope parts.length raw.length numbered)

theorem shouldIgnoreChunk_eq (i j : ℕ) :
    shouldIgnoreChunk r c s i j = (pendingOn r c s).any fun a =>
      i < a.metadata.seqId ∨ i = a.metadata.seqId ∧ j < a.nextSegmentId := by
  cases h : r.lookup c with
  | none => simp [shouldIgnoreChunk, pendingOn]
  | some a => by_cases hs : a.streamId = s <;> simp [shouldIgnoreChunk, pendingOn]

theorem assemblyFor_eq (m : ClientSegmentMetadata) (now : ℕ) :
    (assemblyFor r c s m now).2 = (pendingOn r c s).getD (freshAssembly s m now) := by
  cases h : r.lookup c with
  | none => simp [assemblyFor, pendingOn, h]
  | some a => by_cases hs : a.streamId = s <;> simp [assemblyFor, pendingOn, Option.filter, h, hs]

theorem pendingOn_remove : pendingOn (removeAssembly r c s) c s = none := by
  cases h : r.lookup c with
  | none => simp [removeAssembly, pendingOn, h]
  | some a => by_cases hs : a.streamId = s <;> simp [removeAssembly, pendingOn, h, hs]

end

theorem conclude_congr (r r' : ClientSegmentReassembler) (e : ClientEnvelope M)
    (u : ClientSegmentAssembly × AssemblyUpdate M) :
    (conclude r e s u).2 = (conclude r' e s u).2 ∧ pendingOn (conclude r e s u).1 e.clientId s =
        pendingOn (conclude r' e s u).1 e.clientId s := by
  obtain ⟨a, u⟩ := u
  cases u <;> simp [conclude, pendingOn_remove] <;> simp [pendingOn]

/-- Only the unfinished message of its own stream bears on an envelope. -/
theorem observe_congr (cd : Codec M) (now : ℕ) (he : e.streamId = some s)
    (h : pendingOn r e.clientId s = pendingOn r' e.clientId s) :
    (observe cd now r e).2 = (observe cd now r' e).2 ∧
      pendingOn (observe cd now r e).1 e.clientId s =
        pendingOn (observe cd now r' e).1 e.clientId s := by
  unfold observe
  cases e.event with
  | clientMessageChunk i n z t =>
    cases e.seqId with
    | none => exact ⟨rfl, h⟩
    | some q =>
      simp only [he, shouldIgnoreChunk_eq, assemblyFor_eq, h]
      split
      · exact ⟨rfl, h⟩
      · split
        · exact ⟨rfl, by simp only [pendingOn_remove]⟩
        · exact conclude_congr _ _ e _
  | _ => exact ⟨rfl, h⟩

variable {cd : Codec M} (cl : ℕ → ℕ)

theorem observeAll_congr (he : ∀ e ∈ es, e.clientId = c ∧ e.streamId = some s)
    (h : pendingOn r c s = pendingOn r' c s) (t : ℕ) :
    observeAll cd cl t r es = observeAll cd cl t r' es := by
  induction es generalizing r r' t with
  | nil => rfl
  | cons e es ih =>
    obtain ⟨rfl, hs⟩ := he e mem_cons_self
    obtain ⟨ho, hp⟩ := observe_congr cd (cl t) hs h
    rw [observeAll, observeAll, ho, ih (fun e h => he e (mem_cons_of_mem _ h)) hp]

/-- A chunk that does not continue what there is of its stream is lost, and so is that. -/
theorem observe_lost (cd : Codec M) (now : ℕ) (i : List UInt8 × ℕ) (n z : ℕ) (cu : Option Str)
    (h : pendingOn r en.clientId en.streamId = none ∧ i.2 ≠ 0 ∨
      ∃ a, pendingOn r en.clientId en.streamId = some a ∧ a.metadata.seqId < en.seqId) :
    let o := observe cd now r (asClient cu (chunkEnvelope cd en n z i))
    o.2 = .dropped ∧ pendingOn o.1 en.clientId en.streamId = none := by
  simp only [observe, asClient, chunkEnvelope, shouldIgnoreChunk_eq, assemblyFor_eq]
  rcases h with ⟨hn, hi⟩ | ⟨a, hs, hl⟩
  · by_cases hv : invalidChunk i.2 n z (cd.encode i.1) = true <;>
      simp [hv, hn, updateAssembly, freshAssembly, hi, conclude, pendingOn_remove]
  · have hlt : ¬ en.seqId < a.metadata.seqId := by omega
    have hq : en.seqId ≠ a.metadata.seqId := by omega
    have hm : a.metadata ≠ ⟨en.seqId, n, z⟩ := fun h => hq (h ▸ rfl)
    by_cases hv : invalidChunk i.2 n z (cd.encode i.1) = true <;>
      simp [hv, hs, updateAssembly, hlt, hq, hm, conclude, pendingOn_remove]

theorem observeAll_lost (n z : ℕ) (cu : Option Str)
    (h : pendingOn r en.clientId en.streamId = none ∧ i ≠ 0 ∨ ∃ a, pendingOn r en.clientId
      en.streamId = some a ∧ a.metadata.seqId < en.seqId) (t : ℕ) :
    forwards (observeAll cd cl t r ((parts.zipIdx i).map fun numbered =>
      asClient cu (chunkEnvelope cd en n z numbered))) = [] := by
  induction parts generalizing i r t with
  | nil => rfl
  | cons p ps ih =>
    obtain ⟨ho, hp⟩ := observe_lost cd (cl t) (p, i) n z cu h
    have hr := ih (.inl ⟨hp, i.succ_ne_zero⟩) (t + 1)
    rwa [zipIdx_cons, map_cons, observeAll, ho]

/-- The chunks of a newer message forward it, and only it, if nothing of its stream is unfinished.
An unfinished older message takes the first chunk down with it, and the others find no start. -/
theorem newer_forwarded_iff (hc : codec.Lawful) {m : M} (hm : codec.fromSlice raw = some m)
    (ha : Accepted raw parts) (hp : parts ≠ []) (r : ClientSegmentReassembler)
    (hr : ∀ a ∈ pendingOn r envelope.clientId envelope.streamId, a.metadata.seqId < envelope.seqId)
    (clock : ℕ → ℕ) (cursor : Option Str) :
    forwards (observeAll codec clock 0 r (clientChunks codec envelope cursor raw parts)) =
        [⟨.clientMessage m, envelope.clientId, some envelope.streamId, some envelope.seqId,
          cursor⟩] ↔ pendingOn r envelope.clientId envelope.streamId = none := by
  constructor
  · intro hf
    cases hs : pendingOn r envelope.clientId envelope.streamId with
    | none => rfl
    | some a =>
      rw [clientChunks, observeAll_lost clock _ _ cursor (.inr ⟨a, hs, hr a hs⟩)] at hf
      cases hf
  · intro hn
    obtain ⟨p, ps, rfl⟩ := exists_cons_of_ne_nil hp
    have ho := observeAll_parts (r := ∅) hc hm clock cursor [] p ha
      (.inl ⟨rfl, AList.lookup_empty envelope.clientId⟩) 0
    have he : pendingOn r envelope.clientId envelope.streamId =
        pendingOn ∅ envelope.clientId envelope.streamId := hn
    have hcs : ∀ e ∈ clientChunks codec envelope cursor raw (p :: ps),
        e.clientId = envelope.clientId ∧ e.streamId = some envelope.streamId := by
      intro e h
      obtain ⟨q, -, rfl⟩ := mem_map.mp h
      exact ⟨rfl, rfl⟩
    rw [observeAll_congr clock hcs he]
    simp only [nil_append, length_nil] at ho
    rw [clientChunks, ho]
    simp [forwards]

end Restart

def halfReceived : ClientSegmentReassembler :=
  (∅ : ClientSegmentReassembler).insert ⟨[]⟩ ⟨⟨[]⟩, ⟨1, 2, 2⟩, [7], 1, 0⟩

theorem newer_forwarded_otherStream : forwards (observeAll base64Codec id 0 halfReceived
        (clientChunks base64Codec ⟨.ack, ⟨[]⟩, ⟨['s']⟩, 2⟩ none [8, 9] [[8], [9]])) =
      [⟨.clientMessage [8, 9], ⟨[]⟩, some ⟨['s']⟩, some 2, none⟩] :=
  (newer_forwarded_iff base64Codec_lawful rfl ⟨rfl, by decide, by decide, by decide⟩ (by decide)
    halfReceived (by decide) id none).mpr (by decide)

/-- None of the two chunks of message 2 gets through. -/
theorem newer_message_lost : (∀ a ∈ pendingOn halfReceived ⟨[]⟩ ⟨[]⟩, a.metadata.seqId < 2) ∧
      Accepted [8, 9] [[8], [9]] ∧ base64Codec.fromSlice [8, 9] = some [8, 9] ∧
      observeAll base64Codec id 0 halfReceived
        (clientChunks base64Codec ⟨.ack, ⟨[]⟩, ⟨[]⟩, 2⟩ none [8, 9] [[8], [9]]) =
        [.dropped, .dropped] :=
  ⟨by decide, ⟨rfl, by decide, by decide, by decide⟩, rfl, by decide⟩

end SegmentReassembly
