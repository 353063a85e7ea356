import CodexTeams.MetadataSync
import CodexTeams.Runs

/-! Concurrent calls of append_items and flush on one live thread: the pending update is copied
under the lock, written without it, and then acknowledged. -/
namespace MetadataWrites

open MetadataSync Runs List

variable {P M : Type*} (rules : PatchRules P M) (initial : M)

/-- What a call has still to do with its copy of the pending update. -/
inductive Phase (P : Type*)
  | returned
  | writing (taken : PendingPatch P)
  | acknowledging (taken : PendingPatch P)
  deriving DecidableEq, Repr

structure State (P M : Type*) where
  pending : Pending P
  stored : M
  calls : ℕ → Phase P
  observed : List P
  written : ℕ

/-- An append observes a patch, and writes or, when it only touches the thread, may leave it;
a flush takes what is pending. -/
inductive Event (P : Type*)
  | append (call : ℕ) (patch : P)
  | leave (patch : P)
  | flush (call : ℕ)
  | write (call : ℕ)
  | acknowledge (call : ℕ)
  deriving Repr

def State.new : State P M := ⟨⟨none, 0⟩, initial, fun _ => .returned, [], 0⟩

def State.observe (patch : P) (s : State P M) : State P M :=
  { s with pending := s.pending.merge rules patch, observed := s.observed ++ [patch] }

def State.setCall (call : ℕ) (phase : Phase P) (s : State P M) : State P M :=
  { s with calls := Function.update s.calls call phase }

def State.take (call : ℕ) (s : State P M) : State P M :=
  s.setCall call (s.pending.take.elim .returned .writing)

variable (s : State P M)

def next : Event P → State P M
  | .append call patch => (s.observe rules patch).take call
  | .leave patch => s.observe rules patch
  | .flush call => s.take call
  | .write call => match s.calls call with
    | .writing taken => { s.setCall call (.acknowledging taken) with
        stored := rules.apply taken.patch s.stored, written := max s.written taken.generation }
    | _ => s
  | .acknowledge call => match s.calls call with
    | .acknowledging taken =>
      { s.setCall call .returned with pending := s.pending.applied taken }
    | _ => s

def Enabled : Event P → Prop
  | .append call _ | .flush call => s.calls call = .returned
  | _ => True

def system : EventSystem (State P M) (Event P) := ⟨Enabled, next rules⟩

/-- No copy is written after a newer one, and the generations do not wrap around. -/
def InOrder : Event P → Prop
  | .append _ _ | .leave _ => s.pending.generation + 1 < 0x10000000000000000
  | .write call => match s.calls call with
    | .writing taken => s.written ≤ taken.generation
    | _ => True
  | _ => True

instance decidableEnabled [DecidableEq P] (s : State P M) (event : Event P) :
    Decidable ((system rules).Enabled s event) := by
  cases event <;> simp only [system, Enabled] <;> infer_instance

instance decidableInOrder (event : Event P) : Decidable (InOrder s event) := by
  cases event <;> simp only [InOrder] <;> try split
  all_goals infer_instance

variable (patches : List P)

def mergeAll : Option P :=
  patches.foldl (fun merged patch => some (merged.elim patch (rules.merge · patch))) none

def applyAll (m : M) : M := patches.foldl (fun m p => rules.apply p m) m

variable {rules}

theorem mergeAll_eq_none : mergeAll rs pts = none ↔ pts = [] := by
  induction pts using List.reverseRecOn <;> simp [mergeAll]

theorem apply_mergeAll (h : mergeAll rs pts = some p) (m : M) :
    rs.apply p m = applyAll rs pts m := by
  induction pts using List.reverseRecOn generalizing p with
  | nil => simp [mergeAll] at h
  | append_singleton ps q ih =>
    rw [mergeAll, foldl_append, foldl_cons, foldl_nil, Option.some.injEq, ← mergeAll] at h
    rw [applyAll, foldl_append, foldl_cons, foldl_nil, ← applyAll]
    cases hm : mergeAll rs ps with
    | none =>
      rw [hm] at h
      simp [← h, mergeAll_eq_none.1 hm, applyAll]
    | some r => simp [← h, hm, rs.apply_merge, ih hm]

theorem applyAll_twice (ps : List P) (m : M) :
    applyAll rs ps (applyAll rs ps m) = applyAll rs ps m := by
  cases hm : mergeAll rs ps with
  | none => simp [mergeAll_eq_none.1 hm, applyAll]
  | some p => rw [← apply_mergeAll hm, ← apply_mergeAll hm, rs.apply_self]

theorem applyAll_append (ps qs : List P) (m : M) :
    applyAll rs (ps ++ qs) m = applyAll rs qs (applyAll rs ps m) :=
  foldl_append

theorem applyAll_overlap (rs : PatchRules P M) (ha : a ≤ w) (hk : w ≤ k) (ps : List P) (m : M) :
    applyAll rs ((ps.take k).drop a) (applyAll rs (ps.take w) m) = applyAll rs (ps.take k) m := by
  obtain ⟨n, rfl⟩ := Nat.exists_eq_add_of_le ha
  have ht : ps.take (a + n) = (ps.take k).take a ++ ((ps.take k).drop a).take n := by
    rw [← take_add, take_take, min_eq_left hk]
  generalize ps.take k = qs at ht ⊢
  have hd : qs.drop a = (qs.drop a).take n ++ (qs.drop a).drop n := (take_append_drop n _).symm
  have hq : qs = qs.take a ++ ((qs.drop a).take n ++ (qs.drop a).drop n) := by
    rw [← hd, take_append_drop]
  calc applyAll rs (qs.drop a) (applyAll rs (ps.take (a + n)) m)
      = applyAll rs ((qs.drop a).drop n) (applyAll rs ((qs.drop a).take n)
          (applyAll rs (qs.take a) m)) := by
        rw [hd, ht, applyAll_append, applyAll_append, ← hd, applyAll_twice]
    _ = applyAll rs qs m := by rw [← applyAll_append, ← applyAll_append, ← hq]

structure Inv (rules : PatchRules P M) (initial : M) (s : State P M) : Prop where
  generation : s.pending.generation = s.observed.length
  written_le : s.written ≤ s.observed.length
  stored : s.stored = applyAll rules (s.observed.take s.written) initial
  pending : ∃ a ≤ s.written, s.pending.update = mergeAll rules (s.observed.drop a)
  writing : ∀ i taken, s.calls i = .writing taken → taken.generation ≤ s.observed.length ∧
    ∃ a ≤ s.written, mergeAll rules ((s.observed.take taken.generation).drop a) = some taken.patch
  acknowledging : ∀ i taken, s.calls i = .acknowledging taken → taken.generation ≤ s.written

namespace Inv

variable {initial} {s : State P M}

theorem new : Inv rs il (.new il) :=
  ⟨rfl, le_rfl, rfl, ⟨0, le_rfl, rfl⟩, by simp [State.new], by simp [State.new]⟩

variable {rs : PatchRules P M} {il : M} (h : Inv rs il s)

include h

theorem observe (p : P) (hw : s.pending.generation + 1 < 0x10000000000000000) :
    Inv rs il (s.observe rs p) := by
  obtain ⟨a, ha, hu⟩ := h.pending
  have hl : (s.observed ++ [p]).take s.written = s.observed.take s.written :=
    take_append_of_le_length h.written_le
  refine ⟨?_, ?_, ?_, ⟨a, ha, ?_⟩, ?_, h.acknowledging⟩
  · rw [h.generation] at hw
    simp [State.observe, Pending.merge, h.generation, Nat.mod_eq_of_lt hw]
  · simpa [State.observe] using Nat.le_succ_of_le h.written_le
  · simpa [State.observe, hl] using h.stored
  · have hd : (s.observed ++ [p]).drop a = s.observed.drop a ++ [p] :=
      drop_append_of_le_length (ha.trans h.written_le)
    simp [State.observe, Pending.merge, hd, mergeAll, hu]
  · intro i taken ht
    obtain ⟨hg, a, ha, hm⟩ := h.writing i taken ht
    refine ⟨by simpa [State.observe] using Nat.le_succ_of_le hg, a, ha, ?_⟩
    simpa [State.observe, take_append_of_le_length hg] using hm

theorem take (i : ℕ) : Inv rs il (s.take i) := by
  refine { h with writing := ?_, acknowledging := ?_ } <;> intro j taken ht
  · by_cases hj : j = i
    · subst hj
      obtain ⟨a, ha, hu⟩ := h.pending
      cases hp : s.pending.update with
      | none => simp [State.take, State.setCall, Pending.take, hp] at ht
      | some p =>
        obtain rfl : ⟨p, s.pending.generation⟩ = taken := by
          simpa [State.take, State.setCall, Pending.take, hp] using ht
        refine ⟨h.generation.le, a, ha, ?_⟩
        simp [h.generation, State.take, State.setCall, ← hu, hp]
    · exact h.writing j taken (by simpa [State.take, State.setCall, hj] using ht)
  · by_cases hj : j = i
    · subst hj
      cases hp : s.pending.update <;> simp [State.take, State.setCall, Pending.take, hp] at ht
    · exact h.acknowledging j taken (by simpa [State.take, State.setCall, hj] using ht)

theorem write (ht : s.calls i = .writing t) (hw : s.written ≤ t.generation) :
    Inv rs il { s.setCall i (.acknowledging t) with
      stored := rs.apply t.patch s.stored, written := max s.written t.generation } := by
  obtain ⟨hg, a, ha, hm⟩ := h.writing i t ht
  obtain ⟨c, hc, hu⟩ := h.pending
  rw [max_eq_right hw]
  refine ⟨h.generation, hg, ?_, ⟨c, hc.trans hw, hu⟩, ?_, ?_⟩
  · rw [h.stored, apply_mergeAll hm]
    exact applyAll_overlap rs ha hw _ il
  · intro j held hj
    have hne : j ≠ i := by
      rintro rfl
      simp [State.setCall] at hj
    obtain ⟨hg', b, hb, hm'⟩ := h.writing j held (by simpa [State.setCall, hne] using hj)
    exact ⟨hg', b, hb.trans hw, hm'⟩
  · intro j held hj
    by_cases hi : j = i
    · subst hi
      obtain rfl : t = held := by simpa [State.setCall] using hj
      exact le_rfl
    · exact (h.acknowledging j held (by simpa [State.setCall, hi] using hj)).trans hw

theorem acknowledge (ht : s.calls i = .acknowledging taken) :
    Inv rs il { s.setCall i .returned with pending := s.pending.applied taken } := by
  have hg : (s.pending.applied taken).generation = s.pending.generation := by
    unfold Pending.applied
    split <;> rfl
  refine ⟨hg.trans h.generation, h.written_le, h.stored, ?_, ?_, ?_⟩
  · unfold Pending.applied
    split
    · next heq =>
      -- the acknowledged copy is the newest one and was written
      have hw := h.acknowledging i taken ht
      rw [← heq, h.generation] at hw
      exact ⟨s.observed.length, hw, by simp [State.setCall, mergeAll]⟩
    · exact h.pending
  · intro j held hj
    by_cases hi : j = i
    · simp [State.setCall, hi] at hj
    · exact h.writing j held (by simpa [State.setCall, hi] using hj)
  · intro j held hj
    by_cases hi : j = i
    · simp [State.setCall, hi] at hj
    · exact h.acknowledging j held (by simpa [State.setCall, hi] using hj)

theorem next (e : Event P) (hc : InOrder s e) : Inv rs il (MetadataWrites.next rs s e) := by
  cases e with
  | append i p => exact (h.observe p hc).take i
  | leave p => exact h.observe p hc
  | flush i => exact h.take i
  | write i =>
    unfold MetadataWrites.next
    dsimp only
    split
    · next taken ht =>
      simp only [InOrder, ht] at hc
      exact h.write ht hc
    · exact h
  | acknowledge i =>
    unfold MetadataWrites.next
    dsimp only
    split
    · next taken ht => exact h.acknowledge ht
    · exact h

end Inv

/-- When no copy is written after a newer one, a thread without a pending update has stored the
merge of all that was observed. -/
theorem stored_eq_merged {s : State P M}
    (hr : (system rules).Reaches InOrder (.new initial) s) (hp : s.pending.update = none) :
    s.stored = (mergeAll rules s.observed).elim initial (rules.apply · initial) := by
  have hi : Inv rules initial s := hr.invariant (fun _ event h _ hc => h.next event hc) .new
  obtain ⟨a, ha, hu⟩ := hi.pending
  rw [hp, eq_comm, mergeAll_eq_none, drop_eq_nil_iff] at hu
  have hw := le_antisymm hi.written_le (hu.trans ha)
  rw [hi.stored, hw, take_length]
  cases hm : mergeAll rules s.observed with
  | none => simp [mergeAll_eq_none.1 hm, applyAll]
  | some p => exact (apply_mergeAll hm initial).symm

def modelPatches : List (Event ThreadMetadataPatch) :=
  [.append 0 { model := some ['a'] }, .append 1 { model := some ['b'] }]

def plainCodec : Codec := ⟨fun _ => [], fun _ => [], fun _ => none⟩

def plainRules : PatchRules ThreadMetadataPatch ThreadMetadata := MetadataSync.rules plainCodec

theorem stored_eq_merged_two_appends :
    let events := modelPatches ++ [.write 0, .write 1, .acknowledge 0, .acknowledge 1]
    let m := fresh plainCodec 0
    let s := (system plainRules).run events (.new m)
    s.stored.model = some ['b'] ∧ s.pending.update = none ∧
      s.stored = (mergeAll plainRules s.observed).elim m (plainRules.apply · m) := by
  intro events m s
  have ha : (system plainRules).Allows InOrder events (.new m) := by decide
  exact ⟨by decide, by decide, stored_eq_merged m (.of_allows ha) (by decide)⟩

/-- The older copy is written after the newer one was acknowledged: every call has returned and
nothing is pending, but the older model is stored. -/
theorem older_copy_stored :
    let events := modelPatches ++ [.write 1, .acknowledge 1, .write 0, .acknowledge 0]
    let s := (system plainRules).run events (.new (fresh plainCodec 0))
    (system plainRules).Allows EventSystem.always events (.new (fresh plainCodec 0)) ∧
      s.calls 0 = .returned ∧ s.calls 1 = .returned ∧ s.pending.update = none ∧
      (mergeAll plainRules s.observed).bind (·.model) = some ['b'] ∧
      s.stored.model = some ['a'] := by
  decide

/-- When no copy is written after a newer one, the pending update makes what is stored complete at
every point of a run. -/
theorem pending_completes_stored {s : State P M}
    (hr : (system rules).Reaches InOrder (.new initial) s) :
    s.pending.update.elim s.stored (rules.apply · s.stored) =
      applyAll rules s.observed initial := by
  have hi : Inv rules initial s := hr.invariant (fun _ event h _ hc => h.next event hc) .new
  obtain ⟨a, ha, hu⟩ := hi.pending
  have ho := applyAll_overlap rules ha hi.written_le s.observed initial
  rw [take_length, ← hi.stored] at ho
  rw [hu, ← ho]
  cases hm : mergeAll rules (s.observed.drop a) with
  | none => rw [mergeAll_eq_none.1 hm]; rfl
  | some p => exact apply_mergeAll hm _

theorem pending_completes_stored_one_written :
    let m := fresh plainCodec 0
    let s := (system plainRules).run (modelPatches ++ [.write 0]) (.new m)
    s.stored.model = some ['a'] ∧
      s.pending.update.elim s.stored (plainRules.apply · s.stored) =
        applyAll plainRules s.observed m := by
  intro m s
  have ha : (system plainRules).Allows InOrder (modelPatches ++ [.write 0]) (.new m) := by decide
  exact ⟨by decide, pending_completes_stored m (.of_allows ha)⟩

end MetadataWrites
