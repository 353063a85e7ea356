import CodexTeams.HeadTailBuffers

/-! Streaming the output of a process: each chunk is cut into deltas of bounded size, at the ends of
characters where there are any. -/
namespace OutputDeltas

open List HeadTailBuffers Nat

def maxExecOutputDeltasPerCall : ℕ := 10000

def unifiedExecOutputDeltaMaxBytes : ℕ := 8192

/-- Whether `std::str::from_utf8` accepts the bytes. -/
def fromUtf8IsOk (bytes : List UInt8) : Bool := bytes.toByteArray.validateUTF8

section

variable (buffer : List UInt8)

def splitLoop (maxLen : ℕ) : ℕ → Option ℕ
  | 0 => none
  | split + 1 =>
    if fromUtf8IsOk (buffer.take (split + 1)) then some (split + 1)
    else if 4 < maxLen - (split + 1) then none
    else splitLoop maxLen split

def splitValidUtf8PrefixWithMax (maxBytes : ℕ) : Option (List UInt8 × List UInt8) :=
  if buffer.isEmpty then none
  else
    let maxLen := min buffer.length maxBytes
    match splitLoop buffer maxLen maxLen with
    | some split => some (buffer.take split, buffer.drop split)
    | none => some (buffer.take 1, buffer.drop 1)

def splitValidUtf8Prefix : Option (List UInt8 × List UInt8) :=
  splitValidUtf8PrefixWithMax buffer unifiedExecOutputDeltaMaxBytes

end

inductive ExecOutputStream where
  | stdout
  | stderr

structure ExecCommandOutputDeltaEvent where
  callId : List Char
  stream : ExecOutputStream
  chunk : List UInt8

/-- What the streaming task works on, and the events it has sent. -/
structure Watcher where
  pending : List UInt8
  transcript : HeadTailBuffer
  emittedDeltas : ℕ
  events : List ExecCommandOutputDeltaEvent

/-- A delta goes to the transcript, and is sent unless the limit is reached. -/
def Watcher.emit (callId : List Char) (w : Watcher) (delta rest : List UInt8) : Watcher :=
  let w := { w with pending := rest, transcript := w.transcript.pushChunk delta }
  if maxExecOutputDeltasPerCall ≤ w.emittedDeltas then w
  else
    { w with
      emittedDeltas := w.emittedDeltas + 1
      events := w.events ++ [⟨callId, .stdout, delta⟩] }

theorem isOk_iff : fromUtf8IsOk l ↔ ∃ cs : List Char, l = cs.flatMap String.utf8EncodeChar := by
  rw [fromUtf8IsOk, ByteArray.validateUTF8_eq_true_iff]
  constructor
  · rintro ⟨cs, hc⟩
    exact ⟨cs, toByteArray_inj.mp hc⟩
  · rintro ⟨cs, rfl⟩
    exact ⟨cs, rfl⟩

theorem isOk_append (hx : fromUtf8IsOk x) (hy : fromUtf8IsOk y) : fromUtf8IsOk (x ++ y) := by
  rw [isOk_iff] at *
  obtain ⟨cs, rfl⟩ := hx
  obtain ⟨ds, rfl⟩ := hy
  exact ⟨cs ++ ds, flatMap_append.symm⟩

theorem isOk_flatten {ds : List (List UInt8)} (h : ∀ d ∈ ds, fromUtf8IsOk d) :
    fromUtf8IsOk ds.flatten := by
  induction ds with
  | nil => rfl
  | cons d ds ih =>
    rw [forall_mem_cons] at h
    exact isOk_append h.1 (ih h.2)

theorem isOk_right (h : fromUtf8IsOk (x ++ y)) (hx : fromUtf8IsOk x) : fromUtf8IsOk y := by
  rw [isOk_iff] at *
  obtain ⟨cs, he⟩ := h
  obtain ⟨ds, rfl⟩ := hx
  obtain ⟨es, rfl⟩ := isPrefix_of_utf8Encode_append_eq_utf8Encode (l := ds) (m := cs) y.toByteArray
    (by rw [utf8Encode, utf8Encode, ← toByteArray_append, he])
  rw [flatMap_append] at he
  exact ⟨es, append_cancel_left he⟩

theorem exists_isOk_take (h : fromUtf8IsOk l) (n : ℕ) (hn : n ≤ l.length) :
    ∃ k ≤ n, n ≤ k + 3 ∧ fromUtf8IsOk (l.take k) := by
  obtain ⟨cs, rfl⟩ := isOk_iff.mp h
  clear h
  induction cs generalizing n with
  | nil => exact ⟨0, n.zero_le, le_add_right_of_le hn, rfl⟩
  | cons c cs ih =>
    rw [flatMap_cons, length_append] at hn
    have hc : (String.utf8EncodeChar c).length ≤ 4 := by
      rw [String.length_utf8EncodeChar]
      exact c.utf8Size_le_four
    rcases lt_or_ge n (String.utf8EncodeChar c).length with hl | hl
    · exact ⟨0, by omega, by omega, rfl⟩
    · obtain ⟨k, hk, hkn, ho⟩ := ih (n - (String.utf8EncodeChar c).length) (by omega)
      refine ⟨(String.utf8EncodeChar c).length + k, by omega, by omega, ?_⟩
      rw [flatMap_cons, take_length_add_append]
      exact isOk_append (isOk_iff.mpr ⟨[c], by simp⟩) ho

theorem splitLoop_eq_some (h : splitLoop l m n = some k) :
    0 < k ∧ k ≤ n ∧ fromUtf8IsOk (l.take k) := by
  induction n with
  | zero => cases h
  | succ n ih =>
    rw [splitLoop] at h
    split at h
    · next ho =>
      cases h
      exact ⟨n.succ_pos, le_refl _, ho⟩
    · split at h
      · cases h
      · obtain ⟨hk, hn, ho⟩ := ih h
        exact ⟨hk, le_succ_of_le hn, ho⟩

theorem splitLoop_isSome (hk : 0 < k) (hn : k ≤ n) (hm : m ≤ k + 4) (h : fromUtf8IsOk (l.take k)) :
    (splitLoop l m n).isSome := by
  induction n with
  | zero => omega
  | succ n ih =>
    rw [splitLoop]
    split
    · rfl
    · next ho =>
      have hne : k ≠ n + 1 := fun he => ho (he ▸ h)
      rw [if_neg (by omega)]
      exact ih (by omega)

theorem splitLoop_of_isOk (h : fromUtf8IsOk l) (hl : l ≠ []) (hm : 3 < m) :
    (splitLoop l (min l.length m) (min l.length m)).isSome := by
  have hp := length_pos_iff.mpr hl
  rcases le_total l.length m with hn | hn
  · rw [min_eq_left hn]
    exact splitLoop_isSome hp (le_refl _) (by omega) (by rwa [take_length])
  · obtain ⟨k, hk, hmk, ho⟩ := exists_isOk_take h m hn
    rw [min_eq_right hn]
    exact splitLoop_isSome (by omega) hk (by omega) ho

/-- A part of the buffer goes out. From a text it is a text, and one stays. -/
theorem split_spec (h : splitValidUtf8Prefix l = some (x, y)) :
    l = x ++ y ∧ x ≠ [] ∧ (fromUtf8IsOk l → fromUtf8IsOk x ∧ fromUtf8IsOk y) := by
  rw [splitValidUtf8Prefix, splitValidUtf8PrefixWithMax] at h
  split at h
  · cases h
  next he =>
  rw [List.isEmpty_iff] at he
  have hp := length_pos_iff.mpr he
  have hne {k : ℕ} (hk : 0 < k) : l.take k ≠ [] := by
    rw [← length_pos_iff, length_take]
    omega
  simp only at h
  split at h
  · next k hs =>
    obtain ⟨hk, _, ho⟩ := splitLoop_eq_some hs
    cases h
    have ha := (take_append_drop k l).symm
    exact ⟨ha, hne hk, fun hv => ⟨ho, isOk_right (ha ▸ hv) ho⟩⟩
  · next hs =>
    cases h
    refine ⟨(take_append_drop 1 l).symm, hne Nat.one_pos, fun hv => ?_⟩
    have hi := splitLoop_of_isOk hv he (m := unifiedExecOutputDeltaMaxBytes) (by decide)
    rw [hs] at hi
    cases hi

theorem split_eq_none (h : splitValidUtf8Prefix l = none) : l = [] := by
  rw [splitValidUtf8Prefix, splitValidUtf8PrefixWithMax] at h
  split at h
  · next he => exact List.isEmpty_iff.mp he
  · simp only at h
    split at h <;> cases h

section Streaming

variable {w : Watcher}

theorem emit_pending (w : Watcher) (x y : List UInt8) : (w.emit callId x y).pending = y := by
  rw [Watcher.emit]
  split <;> rfl

def Watcher.drain (callId : List Char) (w : Watcher) : Watcher :=
  match _h : splitValidUtf8Prefix w.pending with
  | none => w
  | some (delta, rest) => drain callId (w.emit callId delta rest)
termination_by w.pending.length
decreasing_by
  obtain ⟨he, hx, _⟩ := split_spec _h
  have hp := length_pos_iff.mpr hx
  rw [emit_pending, he, length_append]
  omega

def Watcher.processChunk (callId : List Char) (w : Watcher) (chunk : List UInt8) : Watcher :=
  Watcher.drain callId { w with pending := w.pending ++ chunk }

/-- From one state to another some deltas were cut; they were sent up to the limit. -/
structure Emits (callId : List Char) (w v : Watcher) (ds : List (List UInt8)) : Prop where
  count : v.emittedDeltas =
    w.emittedDeltas + min ds.length (maxExecOutputDeltasPerCall - w.emittedDeltas)
  sent : v.events = w.events ++
    (ds.take (maxExecOutputDeltasPerCall - w.emittedDeltas)).map (⟨callId, .stdout, ·⟩)

theorem Emits.refl (w : Watcher) : Emits callId w w [] := ⟨by simp, by simp⟩

theorem Emits.trans (h : Emits callId w v ds) (h' : Emits callId v u es) :
    Emits callId w u (ds ++ es) := by
  obtain ⟨hc, hs⟩ := h
  obtain ⟨hc', hs'⟩ := h'
  refine ⟨?_, ?_⟩
  · rw [hc', hc, length_append]
    omega
  · rw [hs', hs, append_assoc, ← map_append, take_append,
      show maxExecOutputDeltasPerCall - v.emittedDeltas =
        maxExecOutputDeltasPerCall - w.emittedDeltas - ds.length by omega]

theorem emits_emit (w : Watcher) (x y : List UInt8) : Emits callId w (w.emit callId x y) [x] := by
  rw [Watcher.emit]
  split
  · next h =>
    have h0 := Nat.sub_eq_zero_of_le h
    exact ⟨by simp [h0], by simp [h0]⟩
  · next h =>
    obtain ⟨k, hk⟩ := Nat.exists_eq_succ_of_ne_zero (Nat.sub_ne_zero_of_lt (Nat.lt_of_not_le h))
    exact ⟨by simp [hk], by simp [hk]⟩

theorem drain_spec (callId : List Char) (w : Watcher) :
    (w.drain callId).pending = [] ∧ ∃ ds, Emits callId w (w.drain callId) ds ∧
      ds.flatten = w.pending ∧ (fromUtf8IsOk w.pending → ∀ d ∈ ds, fromUtf8IsOk d) := by
  fun_induction Watcher.drain callId w with
  | case1 w h =>
    have he := split_eq_none h
    exact ⟨he, [], .refl w, he.symm, fun _ _ hd => absurd hd not_mem_nil⟩
  | case2 w x y h ih =>
    obtain ⟨he, _, hv⟩ := split_spec h
    rw [emit_pending] at ih
    obtain ⟨hp, ds, hs, hf, hd⟩ := ih
    refine ⟨hp, x :: ds, (emits_emit w x y).trans hs, ?_, fun ho => ?_⟩
    · rw [flatten_cons, hf, he]
    · rw [forall_mem_cons]
      exact ⟨(hv ho).1, hd (hv ho).2⟩

/-- The chunks are cut up one by one, so a delta never crosses the end of a chunk. -/
theorem chunks_spec (h : w.pending = []) (cs : List (List UInt8)) :
    ∃ ds, Emits callId w (cs.foldl (Watcher.processChunk callId) w) ds ∧
      ds.flatten = cs.flatten ∧ ((∀ d ∈ ds, fromUtf8IsOk d) ↔ ∀ c ∈ cs, fromUtf8IsOk c) := by
  induction cs generalizing w with
  | nil => exact ⟨[], .refl w, rfl, Iff.rfl⟩
  | cons c cs ih =>
    obtain ⟨hp, ds, hs, hf, hd⟩ := drain_spec callId { w with pending := w.pending ++ c }
    obtain ⟨es, hes, hef, hev⟩ := ih hp
    simp only [h, nil_append] at hf hd
    refine ⟨ds ++ es, Emits.trans ⟨hs.1, hs.2⟩ hes, ?_, ?_⟩
    · rw [flatten_append, flatten_cons, hf, hef]
    · rw [forall_mem_append, forall_mem_cons, hev]
      exact and_congr_left fun _ => ⟨fun hv => hf ▸ isOk_flatten hv, hd⟩

theorem drain_of_empty (h : w.pending = []) : w.drain callId = w := by
  rw [Watcher.drain]
  split
  · rfl
  · next hs => simp [h, splitValidUtf8Prefix, splitValidUtf8PrefixWithMax] at hs

theorem processChunk_of_split (h : w.pending = []) (hc : splitValidUtf8Prefix c = some (c, [])) :
    w.processChunk callId c = w.emit callId c [] := by
  rw [Watcher.processChunk, h, Watcher.drain]
  split
  · next hs => cases hc.symm.trans hs
  · next hs =>
    cases hc.symm.trans hs
    exact drain_of_empty (emit_pending ..)

end Streaming

/-- Below the limit the deltas are the stream, and texts just when every chunk is one. -/
theorem deltas_valid_iff (callId : List Char) (transcript : HeadTailBuffer)
    (chunks : List (List UInt8)) :
    let w := chunks.foldl (Watcher.processChunk callId) ⟨[], transcript, 0, []⟩
    w.emittedDeltas < maxExecOutputDeltasPerCall →
      (w.events.map (·.chunk)).flatten = chunks.flatten ∧
        ((∀ e ∈ w.events, fromUtf8IsOk e.chunk) ↔ ∀ c ∈ chunks, fromUtf8IsOk c) := by
  intro w hw
  obtain ⟨ds, ⟨hc, hs⟩, hf, hv⟩ := chunks_spec (w := ⟨[], transcript, 0, []⟩) rfl chunks
  have hc : w.emittedDeltas = min ds.length maxExecOutputDeltasPerCall := by simpa using hc
  have hl : ds.length ≤ maxExecOutputDeltasPerCall := by omega
  have he : w.events = ds.map (⟨callId, .stdout, ·⟩) := by
    simpa [take_of_length_le hl] using hs
  rw [he, map_map, forall_mem_map]
  exact ⟨by rwa [show _ ∘ _ = id from rfl, map_id], hv⟩

theorem deltas_valid_iff_e_acute :
    let w := [[0x63, 0xC3, 0xA9], [0x64]].foldl (Watcher.processChunk []) ⟨[], .new 1048576, 0, []⟩
    w.emittedDeltas < maxExecOutputDeltasPerCall ∧
      (w.events.map (·.chunk)).flatten = [0x63, 0xC3, 0xA9, 0x64] ∧
        ∀ e ∈ w.events, fromUtf8IsOk e.chunk := by
  have hl : ([[0x63, 0xC3, 0xA9], [0x64]].foldl (Watcher.processChunk [])
      ⟨[], .new 1048576, 0, []⟩).emittedDeltas < maxExecOutputDeltasPerCall := by
    rw [foldl_cons, processChunk_of_split rfl (by decide), foldl_cons,
      processChunk_of_split (emit_pending ..) (by decide), foldl_nil]
    decide
  obtain ⟨hf, hv⟩ := deltas_valid_iff [] (.new 1048576) _ hl
  exact ⟨hl, hf, hv.mpr (by decide)⟩

/-- The two bytes of a character come in two chunks and go out in two deltas. -/
theorem character_cut_in_two :
    let w := [[0xC3], [0xA9]].foldl (Watcher.processChunk []) ⟨[], .new 1048576, 0, []⟩
    fromUtf8IsOk [0xC3, 0xA9] ∧ w.emittedDeltas = 2 ∧ w.events.map (·.chunk) = [[0xC3], [0xA9]] ∧
      ¬ fromUtf8IsOk [0xC3] ∧ ¬ fromUtf8IsOk [0xA9] := by
  rw [foldl_cons, processChunk_of_split rfl (by decide), foldl_cons,
    processChunk_of_split (emit_pending ..) (by decide), foldl_nil]
  decide

end OutputDeltas
