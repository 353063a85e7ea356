import CodexTeams.MapCount

/-! A buffer that gives out numbered items in the order of their numbers, however they arrive. -/
namespace ReorderBuffer

open MapCount List AList

variable {α : Type*}

structure Buffer (α : Type*) where
  lastPublished : ℕ
  pending : AList fun _ : ℕ => α

def Buffer.new : Buffer α := ⟨0, ∅⟩

def Buffer.next (b : Buffer α) : Buffer α :=
  ⟨b.lastPublished + 1, b.pending.erase (b.lastPublished + 1)⟩

def takeReady : ℕ → Buffer α → Buffer α × List α
  | 0, b => (b, [])
  | fuel + 1, b =>
    match b.pending.lookup (b.lastPublished + 1) with
    | none => (b, [])
    | some item =>
      let rest := takeReady fuel b.next
      (rest.1, item :: rest.2)

/-- The first item with a number is kept; a number that was given out is passed over. -/
def store (seq : ℕ) (item : α) (b : Buffer α) : Buffer α :=
  { b with pending := if seq ∈ b.pending then b.pending else b.pending.insert seq item }

def accept (seq : ℕ) (item : α) (b : Buffer α) : Buffer α × List α :=
  if seq ≤ b.lastPublished then (b, [])
  else takeReady (store seq item b).pending.entries.length (store seq item b)

/-- The buffer holds items of the sequence under their numbers, and those given out are a prefix
of the sequence. -/
structure Follows (items : List α) (b : Buffer α) (published : List α) : Prop where
  bound : b.lastPublished ≤ items.length
  published_eq : published = items.take b.lastPublished
  pending : ∀ seq item, b.pending.lookup seq = some item →
    b.lastPublished < seq ∧ items[seq - 1]? = some item

/-- The item with the number is held or was given out. -/
def Knows (b : Buffer α) (seq : ℕ) : Prop := seq ≤ b.lastPublished ∨ seq ∈ b.pending

def Settled (b : Buffer α) : Prop := b.pending.lookup (b.lastPublished + 1) = none

theorem Follows.new (its : List α) : Follows its Buffer.new [] := ⟨Nat.zero_le _, rfl, nofun⟩

theorem length_erase {p : AList fun _ : ℕ => α} (h : seq ∈ p) :
    (p.erase seq).entries.length + 1 = p.entries.length := by
  have hk : (p.erase seq).keys.length + 1 = p.keys.length := by
    rw [keys_erase, length_erase_of_mem (mem_keys.mp h)]
    have hp := length_pos_of_mem (AList.mem_keys.mp h)
    omega
  simpa [AList.keys, List.keys] using hk

theorem knows_next (h : Knows b seq) : Knows b.next seq := by
  rcases h with hle | hm
  · exact .inl (Nat.le_succ_of_le hle)
  · by_cases heq : seq = b.lastPublished + 1
    · exact .inl (Nat.le_of_eq heq)
    · exact .inr (mem_erase.mpr ⟨heq, hm⟩)

theorem takeReady_of_none (hn : b.pending.lookup (b.lastPublished + 1) = none) (f : ℕ) :
    takeReady (f + 1) b = (b, []) := by
  simp [takeReady, hn]

theorem takeReady_of_some (hn : b.pending.lookup (b.lastPublished + 1) = some i) (f : ℕ) :
    takeReady (f + 1) b = ((takeReady f b.next).1, i :: (takeReady f b.next).2) := by
  simp [takeReady, hn]

theorem knows_store (i : α) (h : Knows b other) : Knows (store seq i b) other := by
  rcases h with hle | hm
  · exact .inl hle
  · right
    unfold store
    split
    · exact hm
    · exact (mem_insert _).mpr (.inr hm)

theorem mem_store (seq : ℕ) (i : α) (b : Buffer α) : seq ∈ (store seq i b).pending := by
  by_cases hm : seq ∈ b.pending
  · simpa only [store, if_pos hm] using hm
  · simp only [store, if_neg hm]
    exact (mem_insert _).mpr (.inl rfl)

variable {its pb : List α} {b : Buffer α} (h : Follows its b pb)

include h

theorem Follows.extend (m : List α) : Follows (its ++ m) b pb := by
  refine ⟨?_, ?_, ?_⟩
  · rw [length_append]
    exact Nat.le_trans h.bound (Nat.le_add_right _ _)
  · rw [h.published_eq, take_append_of_le_length h.bound]
  · intro seq i hit
    obtain ⟨hlt, hg⟩ := h.pending seq i hit
    refine ⟨hlt, ?_⟩
    have hi := (List.getElem?_eq_some_iff.mp hg).1
    rw [List.getElem?_append_left hi, hg]

theorem Follows.isPrefix : pb <+: its := h.published_eq ▸ take_prefix _ _

theorem Follows.publish (hn : b.pending.lookup (b.lastPublished + 1) = some i) :
    Follows its b.next (pb ++ [i]) := by
  rw [Buffer.next]
  obtain ⟨_, hg⟩ := h.pending _ i hn
  rw [Nat.add_sub_cancel] at hg
  have hi := (List.getElem?_eq_some_iff.mp hg).1
  refine ⟨hi, ?_, ?_⟩
  · rw [h.published_eq, take_add_one, hg, Option.toList_some]
  · intro seq o ho
    obtain ⟨hne, ho⟩ := lookup_erase_some ho
    obtain ⟨hlt, hg'⟩ := h.pending seq o ho
    exact ⟨by simp only; omega, hg'⟩

/-- Taking what is ready loses nothing and leaves no item that could be given out. -/
theorem takeReady_spec {f : ℕ} (hfl : b.pending.entries.length ≤ f) :
    Follows its (takeReady f b).1 (pb ++ (takeReady f b).2) ∧
      Settled (takeReady f b).1 ∧ ∀ seq, Knows b seq → Knows (takeReady f b).1 seq := by
  induction f generalizing b pb with
  | zero =>
    have he : b.pending.entries = [] := length_eq_zero_iff.mp (Nat.le_zero.mp hfl)
    refine ⟨(append_nil pb).symm ▸ h, ?_, fun _ hk => hk⟩
    change b.pending.entries.dlookup _ = none
    rw [he]
    rfl
  | succ f ih =>
    cases hn : b.pending.lookup (b.lastPublished + 1) with
    | none =>
      rw [takeReady_of_none hn, append_nil]
      exact ⟨h, hn, fun _ hk => hk⟩
    | some i =>
      have hm := lookup_isSome.mp (by rw [hn]; rfl)
      have hl := length_erase hm
      obtain ⟨hf, hs, hk⟩ := ih (h.publish hn) (by simp only [Buffer.next]; omega)
      rw [append_assoc] at hf
      rw [takeReady_of_some hn]
      exact ⟨hf, hs, fun seq hsq => hk seq (knows_next hsq)⟩

theorem Follows.store (hlt : b.lastPublished < seq)
    (hi : its[seq - 1]? = some i) : Follows its (store seq i b) pb := by
  refine { h with pending := ?_ }
  intro o f hf
  by_cases hm : seq ∈ b.pending
  · rw [ReorderBuffer.store, if_pos hm] at hf
    exact h.pending o f hf
  · rw [ReorderBuffer.store, if_neg hm] at hf
    rcases lookup_insert_cases hf with ⟨rfl, rfl⟩ | ⟨-, hf⟩
    · exact ⟨hlt, hi⟩
    · exact h.pending o f hf

theorem accept_spec (hs : Settled b) (hi : its[seq - 1]? = some i) :
    Follows its (accept seq i b).1 (pb ++ (accept seq i b).2) ∧
      Settled (accept seq i b).1 ∧ Knows (accept seq i b).1 seq ∧
      ∀ other, Knows b other → Knows (accept seq i b).1 other := by
  unfold accept
  split
  case isTrue hle =>
    exact ⟨(append_nil pb).symm ▸ h, hs, .inl hle, fun _ hk => hk⟩
  case isFalse hlt =>
    obtain ⟨hf, hn, hk⟩ := takeReady_spec (h.store (Nat.lt_of_not_le hlt) hi) le_rfl
    refine ⟨hf, hn, hk seq (.inr (mem_store seq i b)), ?_⟩
    exact fun other ho => hk other (knows_store i ho)

theorem Follows.complete (hs : Settled b)
    (ha : ∀ seq, 1 ≤ seq → seq ≤ its.length → Knows b seq) : pb = its := by
  have hl : its.length ≤ b.lastPublished := by
    by_contra hlt
    rcases ha (b.lastPublished + 1) (by omega) (by omega) with hle | hm
    · omega
    · rw [← lookup_isSome, show b.pending.lookup _ = none from hs] at hm
      cases hm
  rw [h.published_eq, take_of_length_le hl]

end ReorderBuffer
