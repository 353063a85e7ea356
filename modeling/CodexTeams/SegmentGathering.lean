import CodexTeams.MapCount
import CodexTeams.SegmentReassembly

/-! What the assemblies of the reassembler hold: the bytes of chunks that were received, from the
first one on, each once and in order. -/
namespace SegmentGathering

open RustStr RemoteSegments SegmentReassembly SegmentReassembly.ClientSegmentReassembler

variable {M : Type} {mt : ClientSegmentMetadata}
  {r : ClientSegmentReassembler} {e : ClientEnvelope M} (codec : Codec M)

def IsChunk (envelope : ClientEnvelope M) (clientId : ClientId)
    (streamId : StreamId) (metadata : ClientSegmentMetadata) (i : ℕ) (part : List UInt8) : Prop :=
  envelope.clientId = clientId ∧ envelope.streamId = some streamId ∧
    envelope.seqId = some metadata.seqId ∧
    ∃ text, envelope.event = .clientMessageChunk i metadata.segmentCount metadata.messageSizeBytes
      text ∧ codec.decode text = some part

variable (received : List (ClientEnvelope M)) (clientId : ClientId) (streamId : StreamId)

/-- The first chunks of a message are received, and these are their bytes in order. -/
def Gathered (metadata : ClientSegmentMetadata) (n : ℕ) (raw : List UInt8) : Prop :=
  ∃ parts : List (List UInt8), parts.length = n ∧ parts.flatten = raw ∧
    ∀ (i : ℕ) (part : List UInt8), parts[i]? = some part →
      ∃ envelope ∈ received, IsChunk codec envelope clientId streamId metadata i part

theorem gathered_nil : Gathered cd rc ci sid mt 0 [] := ⟨[], rfl, rfl, by simp⟩

variable {now si i : ℕ} {raw : List UInt8}

theorem Gathered.mono (h : Gathered cd rc ci sid mt n raw)
    (hk : ∀ e ∈ rc, e.clientId = ci → e.streamId = some sid → e ∈ rc') :
    Gathered cd rc' ci sid mt n raw := by
  obtain ⟨ps, hl, hf, hp⟩ := h
  refine ⟨ps, hl, hf, ?_⟩
  intro i p hpr
  obtain ⟨e, hm, hc⟩ := hp i p hpr
  exact ⟨e, hk e hm hc.1 hc.2.1, hc⟩

theorem Gathered.append (h : Gathered cd rc ci sid mt n raw) (m : List (ClientEnvelope M)) :
    Gathered cd (rc ++ m) ci sid mt n raw := by
  apply h.mono
  intro e hm _ _
  exact List.mem_append_left m hm

theorem Gathered.filter (h : Gathered cd rc ci sid mt n raw)
    {forgotten : ClientId → Option StreamId → Bool} (hk : forgotten ci (some sid) = false) :
    Gathered cd (rc.filter fun e => !forgotten e.clientId e.streamId) ci sid mt n raw := by
  apply h.mono
  intro e hm hc hs
  rw [List.mem_filter, hc, hs, hk]
  exact ⟨hm, rfl⟩

theorem Gathered.chunk (h : Gathered cd rc ci sid mt n raw) (hc : IsChunk cd e ci sid mt n bs) :
    Gathered cd (rc ++ [e]) ci sid mt (n + 1) (raw ++ bs) := by
  obtain ⟨ps, hl, hf, hpr⟩ := h.append [e]
  refine ⟨ps ++ [bs], by simp [hl], by simp [hf], ?_⟩
  intro i p hp
  by_cases hi : i < ps.length
  · rw [List.getElem?_append_left hi] at hp
    exact hpr i p hp
  · rw [List.getElem?_append_right (Nat.le_of_not_lt hi)] at hp
    have hls : i = n := by
      have := (List.getElem?_eq_some_iff.mp hp).1
      simp at this
      omega
    subst hls
    simp only [hl, Nat.sub_self, List.getElem?_cons_zero, Option.some.injEq] at hp
    subst hp
    exact ⟨e, by simp, hc⟩

section

variable (r : ClientSegmentReassembler)

/-- Every assembly holds the bytes of chunks that were received. -/
def AssembliesGathered (received : List (ClientEnvelope M)) : Prop :=
  ∀ clientId assembly, r.lookup clientId = some assembly →
    Gathered codec received clientId assembly.streamId assembly.metadata assembly.nextSegmentId
      assembly.raw

def Sub (r r' : ClientSegmentReassembler) : Prop :=
  ∀ clientId assembly, r.lookup clientId = some assembly → r'.lookup clientId = some assembly

theorem erase_sub (ci : ClientId) : Sub (r.erase ci) r := by
  intro o a h
  exact (MapCount.lookup_erase_some h).2

theorem removeAssembly_sub (ci : ClientId) (sid : StreamId) : Sub (removeAssembly r ci sid) r := by
  unfold removeAssembly
  split
  · split
    · exact erase_sub r ci
    · exact fun _ _ h => h
  · exact fun _ _ h => h

end

theorem evictLoop_sub (f : ℕ) (r : ClientSegmentReassembler) : Sub (evictLoop f r) r := by
  induction f generalizing r with
  | zero => exact fun _ _ h => h
  | succ f ih =>
    unfold evictLoop
    split
    · split
      · rename_i entry _
        exact fun ci a h => erase_sub r entry.1 _ _ (ih _ ci a h)
      · exact fun _ _ h => h
    · exact fun _ _ h => h

theorem AssembliesGathered.sub (h : AssembliesGathered cd r rc) (hs : Sub r' r)
    (m : List (ClientEnvelope M)) : AssembliesGathered cd r' (rc ++ m) :=
  fun ci a hl => (h ci a (hs _ _ hl)).append m

def AllAssemblies (P : ClientId → ClientSegmentAssembly → Prop) (r : ClientSegmentReassembler) :
    Prop :=
  ∀ clientId assembly, r.lookup clientId = some assembly → P clientId assembly

theorem AllAssemblies.insert (h : AllAssemblies P r) (ha : P ci a) :
    AllAssemblies P (r.insert ci a) := by
  intro o held hl
  rcases MapCount.lookup_insert_cases hl with ⟨rfl, rfl⟩ | ⟨-, hl⟩
  · exact ha
  · exact h o held hl

theorem AllAssemblies.assemblyFor (h : AllAssemblies P r) (sid : StreamId)
    (hf : P ci (freshAssembly sid mt now)) :
    AllAssemblies P (assemblyFor r ci sid mt now).1 ∧
      (assemblyFor r ci sid mt now).2.streamId = sid ∧
      (assemblyFor r ci sid mt now).1.lookup ci = some (assemblyFor r ci sid mt now).2 := by
  unfold SegmentReassembly.assemblyFor
  split
  · rename_i assembly hsm
    split
    · exact ⟨h.insert hf, rfl, AList.lookup_insert _⟩
    · rename_i hs
      exact ⟨h, not_not.mp hs, hsm⟩
  · refine ⟨AllAssemblies.insert (fun o held hh => ?_) hf, rfl, AList.lookup_insert _⟩
    exact h o held (evictLoop_sub _ r o held hh)

/-- An update leaves the assembly as it is or takes the chunk it waits for. -/
theorem updateAssembly_cases (cd : Codec M) (a : ClientSegmentAssembly)
    (mt : ClientSegmentMetadata) (now si : ℕ) (t : Str) :
    ((updateAssembly cd a mt now si t).1 = a ∧
        ∀ m, (updateAssembly cd a mt now si t).2 ≠ .complete m) ∨
      (a.metadata = mt ∧ si = a.nextSegmentId ∧ ∃ bs, cd.decode t = some bs ∧
          bs.length ≤ mt.messageSizeBytes - a.raw.length ∧
          updateAssembly cd a mt now si t = acceptBytes cd a now bs) := by
  unfold updateAssembly appendChunk
  by_cases holder : mt.seqId < a.metadata.seqId
  · rw [if_pos holder]
    exact .inl ⟨rfl, by simp⟩
  by_cases ho : a.metadata ≠ mt
  · rw [if_neg holder, if_pos ho]
    exact .inl ⟨rfl, by simp⟩
  by_cases hs : si < a.nextSegmentId
  · rw [if_neg holder, if_neg ho, if_pos hs]
    exact .inl ⟨rfl, by simp⟩
  by_cases hsk : si ≠ a.nextSegmentId
  · rw [if_neg holder, if_neg ho, if_neg hs, if_pos hsk]
    exact .inl ⟨rfl, by simp⟩
  rw [if_neg holder, if_neg ho, if_neg hs, if_neg hsk]
  cases hd : cd.decode t with
  | none => exact .inl ⟨rfl, by simp⟩
  | some bs =>
    simp only
    split
    · exact .inl ⟨rfl, by simp⟩
    · obtain rfl := not_not.mp ho
      exact .inr ⟨rfl, not_not.mp hsk, bs, rfl, by omega, rfl⟩

theorem acceptBytes_fst (cd : Codec M) (a : ClientSegmentAssembly) (now : ℕ) (bs : List UInt8) :
    (acceptBytes cd a now bs).1 = ⟨a.streamId, a.metadata,
      a.raw ++ bs, a.nextSegmentId + 1, now⟩ := by
  simp only [acceptBytes]
  split
  · rfl
  · split
    · rfl
    · split <;> rfl

theorem updateAssembly_streamId (cd : Codec M) (a : ClientSegmentAssembly)
    (mt : ClientSegmentMetadata) (now si : ℕ) (t : Str) :
    (updateAssembly cd a mt now si t).1.streamId = a.streamId := by
  rcases updateAssembly_cases cd a mt now si t with ⟨hsm, -⟩ | ⟨-, -, bs, -, -, ha⟩
  · rw [hsm]
  · rw [ha, acceptBytes_fst]

theorem acceptBytes_complete (h : (acceptBytes cd a now bs).2 = .complete message) :
    a.metadata.segmentCount ≤ a.nextSegmentId + 1 ∧
      (a.raw ++ bs).length = a.metadata.messageSizeBytes ∧
      cd.fromSlice (a.raw ++ bs) = some message := by
  unfold acceptBytes at h
  by_cases hm : a.nextSegmentId + 1 < a.metadata.segmentCount
  · simp [hm] at h
  · simp only [if_neg hm] at h
    split at h
    · cases h
    · rename_i hs
      split at h
      · rename_i found hf
        cases h
        exact ⟨Nat.le_of_not_lt hm, not_not.mp hs, hf⟩
      · cases h

/-- A forwarded message is what its chunks, all of them received, hold. -/
def Intact (seqId : ℕ) (message : M) : Prop :=
  ∃ count size raw, Gathered codec received clientId streamId ⟨seqId, count, size⟩ count raw ∧
    raw.length = size ∧ codec.fromSlice raw = some message

theorem update_gathered (h : Gathered cd rc e.clientId a.streamId a.metadata a.nextSegmentId a.raw)
    (hs : e.streamId = some a.streamId)
    (hsq : e.seqId = some mt.seqId)
    (he : e.event = .clientMessageChunk si mt.segmentCount mt.messageSizeBytes t) :
    let updated := (updateAssembly cd a mt now si t).1
    Gathered cd (rc ++ [e]) e.clientId updated.streamId updated.metadata
      updated.nextSegmentId updated.raw := by
  intro updated
  rcases updateAssembly_cases cd a mt now si t with
    ⟨hsm, -⟩ | ⟨rfl, rfl, bs, hd, -, ha⟩
  · simp only [updated, hsm]
    exact h.append [e]
  · simp only [updated, ha, acceptBytes_fst]
    exact h.chunk ⟨rfl, hs, hsq, t, he, hd⟩

theorem update_intact (h : Gathered cd rc e.clientId a.streamId a.metadata a.nextSegmentId a.raw)
    (hs : e.streamId = some a.streamId) (hsq : e.seqId = some mt.seqId)
    (he : e.event = .clientMessageChunk si mt.segmentCount mt.messageSizeBytes t)
    (hv : si < mt.segmentCount) (hc : (updateAssembly cd a mt now si t).2 = .complete message) :
    Intact cd (rc ++ [e]) e.clientId a.streamId mt.seqId message := by
  rcases updateAssembly_cases cd a mt now si t with
    ⟨-, hn⟩ | ⟨rfl, rfl, bs, hd, -, ha⟩
  · exact absurd hc (hn message)
  · rw [ha] at hc
    obtain ⟨hcn, hsz, hm⟩ := acceptBytes_complete hc
    have hal := h.chunk ⟨rfl, hs, hsq, t, he, hd⟩
    have hl : a.nextSegmentId + 1 = a.metadata.segmentCount := Nat.le_antisymm hv hcn
    rw [hl] at hal
    exact ⟨_, _, _, hal, hsz, hm⟩

/-- The assembly that is updated last stays only if it is not over. -/
theorem AllAssemblies.conclude (h : AllAssemblies P r) (hs : u.1.streamId = sid)
    (hu : u.2 = .pending ∨ u.2 = .ignore → P e.clientId u.1) :
    AllAssemblies P (conclude r e sid u).1 := by
  have hr : AllAssemblies P (removeAssembly (r.insert e.clientId u.1) e.clientId sid) := by
    intro o held hh
    rw [removeAssembly, AList.lookup_insert] at hh
    simp only [hs, if_true] at hh
    obtain ⟨hne, hh⟩ := MapCount.lookup_erase_some hh
    rw [AList.lookup_insert_ne hne] at hh
    exact h o held hh
  obtain ⟨a, ud⟩ := u
  cases ud with
  | pending => exact h.insert (hu (.inl rfl))
  | ignore => exact h.insert (hu (.inr rfl))
  | _ => exact hr

theorem conclude_sub (r : ClientSegmentReassembler) (e : ClientEnvelope M) (sid : StreamId)
    (u : ClientSegmentAssembly × AssemblyUpdate M) :
    Sub (conclude r e sid u).1 (r.insert e.clientId u.1) := by
  obtain ⟨a, ud⟩ := u
  cases ud with
  | pending | ignore => exact fun _ _ h => h
  | _ => exact removeAssembly_sub _ _ _

theorem conclude_forward (h : (conclude r e sid u).2 = .forward f) :
    ∃ m, u.2 = .complete m ∧ f = ⟨.clientMessage m, e.clientId, e.streamId, e.seqId, e.cursor⟩ := by
  obtain ⟨a, ud⟩ := u
  cases ud with
  | complete m => exact ⟨m, rfl, (ClientSegmentObservation.forward.inj h).symm⟩
  | _ => cases h

theorem observe_chunk_cases (cd : Codec M) (r : ClientSegmentReassembler) (now : ℕ)
    (he : e.event = .clientMessageChunk si c s t)
    (hsq : e.seqId = some i) (hs : e.streamId = some sid) :
    (Sub (observe cd now r e).1 r ∧ (observe cd now r e).2 = .dropped) ∨
      (si < c ∧ c ≤ remoteControlSegmentCountMax ∧ s ≤ remoteControlReassembledMaxBytes ∧
        observe cd now r e = conclude (assemblyFor r e.clientId sid ⟨i, c, s⟩ now).1 e
          sid (updateAssembly cd (assemblyFor r e.clientId sid ⟨i, c, s⟩ now).2
            ⟨i, c, s⟩ now si t)) := by
  simp only [observe, he, hsq, hs]
  split
  · exact .inl ⟨fun _ _ h => h, rfl⟩
  · split
    · exact .inl ⟨removeAssembly_sub r _ _, rfl⟩
    · rename_i hv
      simp only [invalidChunk, decide_eq_true_eq] at hv
      exact .inr ⟨by omega, by omega, by omega, rfl⟩

theorem observe_chunk_forward (he : e.event = .clientMessageChunk si c s t) (hsq : e.seqId = some i)
    (hs : e.streamId = some sid) (h : (observe cd now r e).2 = .forward f) :
    ∃ m, f = ⟨.clientMessage m, e.clientId, some sid, some i, e.cursor⟩ := by
  rcases observe_chunk_cases cd r now he hsq hs with ⟨-, hd⟩ | ⟨-, -, -, ho⟩
  · rw [hd] at h
    cases h
  · rw [ho] at h
    obtain ⟨m, -, rfl⟩ := conclude_forward h
    rw [hs, hsq]
    exact ⟨m, rfl⟩

/-- A chunk keeps the assemblies gathered, and a message it completes is intact. -/
theorem observe_chunk_gathered (h : AssembliesGathered cd r rc) (now : ℕ)
    (he : e.event = .clientMessageChunk si c s t)
    (hsq : e.seqId = some i) (hs : e.streamId = some sid) :
    AssembliesGathered cd (observe cd now r e).1 (rc ++ [e]) ∧
      ∀ message, (observe cd now r e).2 = .forward ⟨.clientMessage message,
          e.clientId, some sid, some i, e.cursor⟩ →
        Intact cd (rc ++ [e]) e.clientId sid i message := by
  rcases observe_chunk_cases cd r now he hsq hs with
    ⟨hsb, hd⟩ | ⟨hv, -, -, ho⟩
  · refine ⟨h.sub hsb [e], ?_⟩
    intro message hf
    rw [hd] at hf
    cases hf
  · obtain ⟨ha, hsm, hl⟩ := AllAssemblies.assemblyFor h sid gathered_nil
    have how := ha _ _ hl
    have hs' := hs
    rw [← hsm] at hs'
    rw [ho]
    refine ⟨AllAssemblies.conclude (AssembliesGathered.sub ha (fun _ _ held => held) [e])
      ((updateAssembly_streamId ..).trans hsm) fun _ => update_gathered how hs' hsq he, ?_⟩
    intro message hf
    obtain ⟨completed, hc, heq⟩ := conclude_forward hf
    obtain rfl : message = completed := by
      injection heq with hm
      exact ClientEvent.clientMessage.inj hm
    have hi := update_intact how hs' hsq he hv hc
    rwa [hsm] at hi

/-- What an assembly holds and waits for is within the limits. -/
def Limited (assembly : ClientSegmentAssembly) : Prop :=
  assembly.raw.length ≤ assembly.metadata.messageSizeBytes ∧
    assembly.metadata.messageSizeBytes ≤ remoteControlReassembledMaxBytes ∧
    assembly.nextSegmentId < assembly.metadata.segmentCount ∧
    assembly.metadata.segmentCount ≤ remoteControlSegmentCountMax

structure Bounded (r : ClientSegmentReassembler) : Prop where
  count : r.entries.length ≤ remoteControlSegmentAssemblyMaxCount
  assemblies : ∀ clientId assembly, r.lookup clientId = some assembly → Limited assembly

inductive Input (M : Type)
  | observe (now : ℕ) (envelope : ClientEnvelope M)
  | invalidateStream (clientId : ClientId) (streamId : StreamId)
  | invalidateClient (clientId : ClientId)

def Input.apply (r : ClientSegmentReassembler) : Input M → ClientSegmentReassembler
  | .observe now envelope => (SegmentReassembly.observe codec now r envelope).1
  | .invalidateStream clientId streamId =>
    ClientSegmentReassembler.invalidateStream r clientId streamId
  | .invalidateClient clientId => ClientSegmentReassembler.invalidateClient r clientId

theorem Limited.update (h : Limited a) (hp : (updateAssembly cd a mt now si t).2 = .pending ∨
      (updateAssembly cd a mt now si t).2 = .ignore) :
    Limited (updateAssembly cd a mt now si t).1 := by
  rcases updateAssembly_cases cd a mt now si t with ⟨hsm, -⟩ | ⟨rfl, rfl, bs, hd, hb, ha⟩
  · rwa [hsm]
  · rw [ha] at hp ⊢
    obtain ⟨hr, hz, hn, hc⟩ := h
    rw [acceptBytes_fst]
    refine ⟨by simp; omega, hz, ?_, hc⟩
    by_contra hm
    have hm' := hm
    simp only [acceptBytes, hm', if_false] at hp
    split at hp
    · simp at hp
    · split at hp <;> simp at hp

theorem length_le_of_sub (h : Sub r' r) : r'.entries.length ≤ r.entries.length := by
  apply (List.subperm_of_subset r'.nodupKeys.nodup _).length_le
  intro e he
  exact AList.mem_lookup_iff.mp (h e.1 e.2 (AList.mem_lookup_iff.mpr he))

theorem length_insert (r : ClientSegmentReassembler) (ci : ClientId) (a : ClientSegmentAssembly) :
    (r.insert ci a).entries.length + (r.lookup ci).elim 0 (fun _ => 1) = r.entries.length + 1 := by
  have h := MapCount.countWhere_insert (fun _ => true) r ci a
  cases hl : r.lookup ci <;> simpa [MapCount.countWhere, MapCount.weight, hl] using h

theorem length_evictLoop (h : r.entries.length < f + remoteControlSegmentAssemblyMaxCount) :
    (evictLoop f r).entries.length < remoteControlSegmentAssemblyMaxCount := by
  induction f generalizing r with
  | zero => simpa [evictLoop] using h
  | succ f ih =>
    unfold evictLoop
    split
    · next hm =>
      obtain ⟨e, he, hmn⟩ := RustIter.exists_minByKey (fun e => e.2.lastChunkSeenAt)
        (List.ne_nil_of_length_pos (Nat.lt_of_lt_of_le (by decide) hm))
      rw [hmn]
      apply ih
      have hl := MapCount.countWhere_erase (fun _ => true) r e.1
      rw [AList.mem_lookup_iff.mpr he] at hl
      simp [MapCount.countWhere, MapCount.weight] at hl
      omega
    · next hm => exact Nat.lt_of_not_le hm

theorem length_assemblyFor (h : r.entries.length ≤ remoteControlSegmentAssemblyMaxCount) :
    (assemblyFor r ci sid mt now).1.entries.length ≤ remoteControlSegmentAssemblyMaxCount := by
  unfold assemblyFor
  split
  · next a hl =>
    have hi := length_insert r ci (freshAssembly sid mt now)
    rw [hl] at hi
    split
    · exact Nat.le_trans (Nat.le_of_eq (Nat.add_right_cancel hi)) h
    · exact h
  · have hi := length_insert (evictAssembliesIfFull r) ci (freshAssembly sid mt now)
    have he : (evictAssembliesIfFull r).entries.length < remoteControlSegmentAssemblyMaxCount :=
      length_evictLoop (Nat.lt_add_of_pos_right (by decide))
    dsimp only
    omega

theorem Bounded.sub (h : Bounded r) (hs : Sub r' r) : Bounded r' :=
  ⟨(length_le_of_sub hs).trans h.count, fun ci a hl => h.assemblies ci a (hs ci a hl)⟩

theorem Bounded.observe (h : Bounded r) (cd : Codec M) (now : ℕ) (e : ClientEnvelope M) :
    Bounded (observe cd now r e).1 := by
  obtain ⟨event, ci, stream, seq, cursor⟩ := e
  cases event with
  | clientMessageChunk si c s t =>
    cases seq with
    | none => exact h
    | some i =>
      cases stream with
      | none => exact h
      | some sid =>
        rcases observe_chunk_cases
          (e := ⟨.clientMessageChunk si c s t, ci, some sid, some i, cursor⟩)
          cd r now rfl rfl rfl with ⟨hb, -⟩ | ⟨hv, hc, hz, ho⟩
        · exact h.sub hb
        · have ha : AllAssemblies (fun _ => Limited) (assemblyFor r ci sid ⟨i, c, s⟩ now).1 ∧ _ :=
            AllAssemblies.assemblyFor h.assemblies sid
              ⟨Nat.zero_le _, hz, Nat.zero_lt_of_lt hv, hc⟩
          have hn : (assemblyFor r ci sid ⟨i, c, s⟩ now).1.entries.length ≤ _ :=
            length_assemblyFor h.count
          rw [ho]
          generalize assemblyFor r ci sid ⟨i, c, s⟩ now = q at ha hn ⊢
          obtain ⟨ha, hsm, hl⟩ := ha
          have hi := length_insert q.1 ci (updateAssembly cd q.2 ⟨i, c, s⟩ now si t).1
          rw [hl, Option.elim_some] at hi
          refine ⟨(length_le_of_sub (conclude_sub _ _ _ _)).trans ?_,
            ha.conclude ((updateAssembly_streamId ..).trans hsm) fun hp => (ha _ _ hl).update hp⟩
          exact (Nat.add_right_cancel hi).trans_le hn
  | _ => exact h

/-- Whatever chunks and invalidations come in, there are not too many assemblies, and none of
them holds or waits for too much. -/
theorem reassembler_bounded (codec : Codec M) (inputs : List (Input M)) :
    Bounded (inputs.foldl (Input.apply codec) ∅) := by
  have hs : ∀ r, Bounded r → Bounded (inputs.foldl (Input.apply codec) r) := by
    intro r h
    induction inputs generalizing r with
    | nil => exact h
    | cons i is ih =>
      apply ih
      cases i with
      | observe now e => exact h.observe codec now e
      | invalidateStream ci si => exact h.sub (removeAssembly_sub r ci si)
      | invalidateClient ci => exact h.sub (erase_sub r ci)
  exact hs ∅ ⟨Nat.zero_le _, nofun⟩

end SegmentGathering
