import CodexTeams.MapCount
import CodexTeams.Runs
import CodexTeams.UnifiedExec

/-! Process ids over every interleaving of exec calls. While nothing else takes the id of a call in
flight from the store, no id is held twice. -/
namespace ProcessIds

open UnifiedExec MapCount Runs Function Option AList EventSystem

/-- An exec call in flight, with its id, and whether its process is stored. -/
structure Call where
  processId : ℕ
  stored : Bool
  deriving DecidableEq, Repr

structure System where
  store : ProcessStore
  calls : CallId → Option Call

def System.new : System := ⟨ProcessStore.new, fun _ => none⟩

inductive Event
  /-- One turn of the loop of `allocate_process_id`. -/
  | allocate (callId : CallId) (draw : Draw)
  | store (callId : CallId) (now : ℕ)
  | release (callId : CallId)
  | finish (callId : CallId)
  | abort (callId : CallId)
  | exit (processId : ℕ)
  /-- `write_stdin` uses, refreshes or releases a process. -/
  | use (processId now : ℕ)
  | refresh (processId : ℕ)
  | releaseStored (processId : ℕ)
  | terminateAll

variable (s : System)

def step : Event → System
  | .allocate callId draw =>
    match s.calls callId, allocateProcessId s.store draw with
    | none, some (store, processId) =>
      ⟨store, update s.calls callId (some ⟨processId, false⟩)⟩
    | _, _ => s
  | .store callId now =>
    match s.calls callId with
    | some ⟨processId, false⟩ =>
      ⟨storeProcess s.store ⟨callId, processId, now, false⟩,
        update s.calls callId (some ⟨processId, true⟩)⟩
    | _ => s
  | .release callId =>
    match s.calls callId with
    | some call => ⟨s.store.remove call.processId, update s.calls callId none⟩
    | none => s
  | .finish callId =>
    match s.calls callId with
    | some ⟨processId, true⟩ =>
      ⟨refreshProcessState s.store processId, update s.calls callId none⟩
    | _ => s
  | .abort callId => ⟨s.store, update s.calls callId none⟩
  | .exit processId => ⟨markExited s.store processId, s.calls⟩
  | .use processId now => ⟨prepareProcessHandles s.store processId now, s.calls⟩
  | .refresh processId => ⟨refreshProcessState s.store processId, s.calls⟩
  | .releaseStored processId => ⟨s.store.remove processId, s.calls⟩
  | .terminateAll => ⟨terminateAllProcesses s.store, s.calls⟩

abbrev manager : EventSystem System Event := total step

/-- The ids that an event takes from the store, other than for the call it is of. -/
def Frees : Event → ℕ → Prop
  | .store _ _, processId => processToPrune s.store = some processId
  | .refresh other, processId =>
    processId = other ∧ ∃ entry, s.store.processes.lookup other = some entry ∧ entry.hasExited
  | .releaseStored other, processId => processId = other
  | .terminateAll, _ => True
  | _, _ => False

def Settled (event : Event) : Prop :=
  ∀ callId call, s.calls callId = some call → ¬ Frees s event call.processId

/-- A command holds an id while its call is in flight and while its process is stored. -/
def Holds (callId : CallId) (processId : ℕ) : Prop :=
  (∃ call, s.calls callId = some call ∧ call.processId = processId) ∨
    ∃ entry, s.store.processes.lookup processId = some entry ∧ entry.callId = callId

structure Inv (s : System) : Prop where
  calls_reserved : ∀ callId call, s.calls callId = some call →
    call.processId ∈ s.store.reservedProcessIds
  stored_reserved : ∀ processId entry, s.store.processes.lookup processId = some entry →
    processId ∈ s.store.reservedProcessIds ∧ entry.processId = processId
  calls_distinct : ∀ callId callId' call call', s.calls callId = some call →
    s.calls callId' = some call' → call.processId = call'.processId → callId = callId'
  stored_own : ∀ callId call entry, s.calls callId = some call →
    s.store.processes.lookup call.processId = some entry → entry.callId = callId

variable {s : System} {ci : CallId} {st : ProcessStore}

theorem Inv.holds_unique (h : Inv s) (hh : Holds s ci i) (hh' : Holds s ci' i) : ci = ci' := by
  rcases hh with ⟨call, hc, rfl⟩ | ⟨e, he, rfl⟩
  · rcases hh' with ⟨call', hc', hid⟩ | ⟨e', he', rfl⟩
    · exact h.calls_distinct _ _ _ _ hc hc' hid.symm
    · exact (h.stored_own _ _ _ hc he').symm
  · rcases hh' with ⟨call', hc', rfl⟩ | ⟨e', he', rfl⟩
    · exact h.stored_own _ _ _ hc' he
    · rw [some.inj (he.symm.trans he')]

theorem lookup_remove (h : (st.remove i).processes.lookup o = some entry) :
    o ≠ i ∧ st.processes.lookup o = some entry := lookup_erase_some h

theorem calls_forget (h : update s.calls ci none o = some c) : o ≠ ci ∧ s.calls o = some c := by
  by_cases heq : o = ci
  · rw [heq, update_self] at h
    cases h
  · exact ⟨heq, by rwa [update_of_ne heq] at h⟩

variable (h : Inv s)

include h

theorem Inv.remove (hf : ∀ ci c, s.calls ci = some c → c.processId ≠ i) :
    Inv ⟨s.store.remove i, s.calls⟩ := by
  refine ⟨?_, ?_, h.calls_distinct, ?_⟩
  · intro ci c hc
    exact Finset.mem_erase.mpr ⟨hf ci c hc, h.calls_reserved ci c hc⟩
  · intro o e he
    obtain ⟨hne, he⟩ := lookup_remove he
    obtain ⟨hm, hid⟩ := h.stored_reserved o e he
    exact ⟨Finset.mem_erase.mpr ⟨hne, hm⟩, hid⟩
  · intro ci c e hc he
    exact h.stored_own ci c e hc (lookup_remove he).2

theorem Inv.forget (ci : CallId) : Inv ⟨s.store, update s.calls ci none⟩ := by
  refine ⟨?_, h.stored_reserved, ?_, ?_⟩
  · intro o call hc
    exact h.calls_reserved o call (calls_forget hc).2
  · intro o o' call call' hc hc'
    exact h.calls_distinct o o' call call' (calls_forget hc).2 (calls_forget hc').2
  · intro o call e hc
    exact h.stored_own o call e (calls_forget hc).2

theorem Inv.forgotten (hc : s.calls ci = some c) (o : CallId) (c' : Call)
    (hc' : update s.calls ci none o = some c') : c'.processId ≠ c.processId := by
  intro hid
  obtain ⟨hne, hc'⟩ := calls_forget hc'
  exact hne (h.calls_distinct o ci c' c hc' hc hid)

theorem Inv.replace (hk : s.store.processes.lookup i = some k) (hc : e.callId = k.callId)
    (hid : e.processId = k.processId) :
    Inv ⟨⟨s.store.processes.insert i e, s.store.reservedProcessIds⟩, s.calls⟩ := by
  have ho : ∀ o held, (s.store.processes.insert i e).lookup o = some held →
      ∃ b, s.store.processes.lookup o = some b ∧ held.callId = b.callId ∧
        held.processId = b.processId := by
    intro o held hh
    rcases lookup_insert_cases hh with ⟨rfl, rfl⟩ | ⟨-, hh⟩
    · exact ⟨k, hk, hc, hid⟩
    · exact ⟨held, hh, rfl, rfl⟩
  refine ⟨h.calls_reserved, ?_, h.calls_distinct, ?_⟩
  · intro o held hh
    obtain ⟨b, hb, -, hid⟩ := ho o held hh
    obtain ⟨hm, hs⟩ := h.stored_reserved o b hb
    exact ⟨hm, hid.trans hs⟩
  · intro ci call held hcl hh
    obtain ⟨b, hb, hc, -⟩ := ho call.processId held hh
    rw [hc]
    exact h.stored_own ci call b hcl hb

theorem inv_allocate (ha : allocateProcessId s.store d = some (st, i)) :
    Inv ⟨st, update s.calls ci (some ⟨i, false⟩)⟩ := by
  unfold allocateProcessId at ha
  by_cases ht : drawProcessId s.store d ∈ s.store.reservedProcessIds
  · rw [if_pos ht] at ha
    cases ha
  rw [if_neg ht] at ha
  obtain ⟨rfl, rfl⟩ := Prod.mk.inj (some.inj ha)
  -- a call of the new system is the new one, or an old one with another id
  have hcs : ∀ o call, update s.calls ci (some ⟨drawProcessId s.store d, false⟩) o = some call →
        (o = ci ∧ call.processId = drawProcessId s.store d) ∨
          (s.calls o = some call ∧ call.processId ≠ drawProcessId s.store d) := by
    intro o call hc
    rcases update_some_cases hc with ⟨heq, rfl⟩ | ⟨-, hc⟩
    · exact .inl ⟨heq, rfl⟩
    · exact .inr ⟨hc, fun hid => ht (hid ▸ h.calls_reserved o call hc)⟩
  refine ⟨?_, ?_, ?_, ?_⟩
  · intro o call hc
    rcases hcs o call hc with ⟨-, hid⟩ | ⟨ho, -⟩
    · exact hid ▸ Finset.mem_insert_self _ _
    · exact Finset.mem_insert_of_mem (h.calls_reserved o call ho)
  · intro o e he
    obtain ⟨hm, hid⟩ := h.stored_reserved o e he
    exact ⟨Finset.mem_insert_of_mem hm, hid⟩
  · intro o o' call call' hc hc' hs
    rcases hcs o call hc with ⟨rfl, hid⟩ | ⟨ho, hne⟩ <;>
      rcases hcs o' call' hc' with ⟨rfl, hid'⟩ | ⟨ho', hne'⟩
    · rfl
    · exact absurd (hs ▸ hid) hne'
    · exact absurd (hs.trans hid') hne
    · exact h.calls_distinct o o' call call' ho ho' hs
  · intro o call e hc he
    rcases hcs o call hc with ⟨-, hid⟩ | ⟨ho, -⟩
    · rw [hid] at he
      exact absurd (h.stored_reserved _ e he).1 ht
    · exact h.stored_own o call e ho he

theorem Inv.mark (hc : s.calls ci = some c) (hid : c'.processId = c.processId) :
    Inv ⟨s.store, update s.calls ci (some c')⟩ := by
  have ho : ∀ o held, update s.calls ci (some c') o = some held →
      ∃ b, s.calls o = some b ∧ held.processId = b.processId := by
    intro o held hh
    rcases update_some_cases hh with ⟨rfl, rfl⟩ | ⟨-, hh⟩
    · exact ⟨c, hc, hid⟩
    · exact ⟨held, hh, rfl⟩
  refine ⟨?_, h.stored_reserved, ?_, ?_⟩
  · intro o held hh
    obtain ⟨b, hb, hs⟩ := ho o held hh
    exact hs ▸ h.calls_reserved o b hb
  · intro o o' held held' hh hh' heq
    obtain ⟨b, hb, hs⟩ := ho o held hh
    obtain ⟨b', hb', hs'⟩ := ho o' held' hh'
    exact h.calls_distinct o o' b b' hb hb' (by rw [← hs, ← hs', heq])
  · intro o held e hh he
    obtain ⟨b, hb, hs⟩ := ho o held hh
    exact h.stored_own o b e hb (hs ▸ he)

theorem Inv.insert (e : ProcessEntry) (hc : s.calls ci = some c) (ho : e.callId = ci)
    (hid : e.processId = c.processId) :
    Inv ⟨⟨s.store.processes.insert c.processId e, s.store.reservedProcessIds⟩, s.calls⟩ := by
  refine ⟨h.calls_reserved, ?_, h.calls_distinct, ?_⟩
  · intro o held hh
    rcases lookup_insert_cases hh with ⟨rfl, rfl⟩ | ⟨-, hh⟩
    · exact ⟨h.calls_reserved ci c hc, hid⟩
    · exact h.stored_reserved o held hh
  · intro o c' held hc' hh
    rcases lookup_insert_cases hh with ⟨heq, rfl⟩ | ⟨-, hh⟩
    · rw [ho]
      exact h.calls_distinct ci o c c' hc hc' heq.symm
    · exact h.stored_own o c' held hc' hh

theorem inv_store (hs : Settled s (.store ci now)) (hc : s.calls ci = some ⟨i, false⟩) :
    Inv ⟨storeProcess s.store ⟨ci, i, now, false⟩, update s.calls ci (some ⟨i, true⟩)⟩ := by
  have hp : Inv ⟨pruneProcessesIfNeeded s.store, s.calls⟩ := by
    unfold pruneProcessesIfNeeded
    split
    · rename_i victim hv
      apply h.remove
      rintro o call ho rfl
      exact hs o call ho hv
    · exact h
  have hi := hp.insert ⟨ci, i, now, false⟩ hc rfl rfl
  exact hi.mark hc rfl

theorem refreshProcessState_cases (i : ℕ) : (refreshProcessState s.store i = s.store.remove i ∧
        ∃ e, s.store.processes.lookup i = some e ∧ e.hasExited) ∨
      refreshProcessState s.store i = s.store := by
  unfold refreshProcessState
  split
  · rename_i e he
    split
    · rename_i hex
      rw [(h.stored_reserved i e he).2]
      exact .inl ⟨rfl, e, he, hex⟩
    · exact .inr rfl
  · exact .inr rfl

theorem inv_step (hs : Settled s ev) : Inv (step s ev) := by
  cases ev with
  | allocate ci d =>
    simp only [step]
    split
    · rename_i ha
      exact inv_allocate h ha
    · exact h
  | store ci now =>
    simp only [step]
    split
    · rename_i i hc
      exact inv_store h hs hc
    · exact h
  | release ci =>
    simp only [step]
    split
    · rename_i call hc
      exact (h.forget ci).remove (h.forgotten hc)
    · exact h
  | finish ci =>
    simp only [step]
    split
    · rename_i i hc
      rcases refreshProcessState_cases h i with ⟨hr, -⟩ | hsm
      · rw [hr]
        exact (h.forget ci).remove (h.forgotten hc)
      · rw [hsm]
        exact h.forget ci
    · exact h
  | abort ci => exact h.forget ci
  | exit i =>
    simp only [step, markExited]
    split
    · rename_i e he
      exact h.replace he rfl rfl
    · exact h
  | use i now =>
    simp only [step, prepareProcessHandles]
    split
    · rename_i e he
      exact h.replace he rfl rfl
    · exact h
  | refresh i =>
    simp only [step]
    rcases refreshProcessState_cases h i with ⟨hr, hex⟩ | hsm
    · rw [hr]
      apply h.remove
      rintro ci call hc rfl
      exact hs ci call hc ⟨rfl, hex⟩
    · rw [hsm]
      exact h
  | releaseStored i =>
    apply h.remove
    rintro ci call hc rfl
    exact hs ci call hc rfl
  | terminateAll =>
    -- no call is in flight
    have hn : ∀ ci call, s.calls ci ≠ some call := fun ci call hc =>
      hs ci call hc trivial
    refine ⟨?_, ?_, ?_, ?_⟩
    · intro ci call hc
      exact absurd hc (hn ci call)
    · intro i e he
      simp [step, terminateAllProcesses] at he
    · intro ci ci' call call' hc
      exact absurd hc (hn ci call)
    · intro ci call e hc
      exact absurd hc (hn ci call)

omit h

theorem inv_new : Inv System.new := by
  refine ⟨?_, ?_, ?_, ?_⟩
  · intro ci call hc
    cases hc
  · intro i e he
    simp [System.new, ProcessStore.new] at he
  · intro ci ci' call call' hc
    cases hc
  · intro ci call e hc
    cases hc

def Bounded (store : ProcessStore) : Prop :=
  store.processes.entries.length ≤ maxUnifiedExecProcesses

theorem bounded_refresh (h : Bounded st) (i : ℕ) : Bounded (refreshProcessState st i) := by
  unfold refreshProcessState
  split
  · split
    · exact (length_remove_le _ _).trans h
    · exact h
  · exact h

theorem bounded_step (h : Bounded s.store) (ev : Event) : Bounded (step s ev).store := by
  cases ev with
  | allocate ci d =>
    simp only [step, allocateProcessId]
    split
    · rename_i store i _ ha
      split at ha
      · cases ha
      · obtain ⟨rfl, rfl⟩ := Prod.mk.inj (some.inj ha)
        exact h
    · exact h
  | store ci now =>
    simp only [step]
    split
    · exact length_storeProcess_le _ h
    · exact h
  | release ci =>
    simp only [step]
    split
    · exact (length_remove_le _ _).trans h
    · exact h
  | finish ci =>
    simp only [step]
    split
    · exact bounded_refresh h _
    · exact h
  | abort ci => exact h
  | exit i =>
    simp only [step, markExited]
    split
    · rename_i entry he
      exact (length_insert_known he).le.trans h
    · exact h
  | use i now =>
    simp only [step, prepareProcessHandles]
    split
    · rename_i entry he
      exact (length_insert_known he).le.trans h
    · exact h
  | refresh i => exact bounded_refresh h i
  | releaseStored i => exact (length_remove_le _ _).trans h
  | terminateAll => exact Nat.zero_le _

/-- Over every interleaving in which no event takes the id of a call in flight from the store:
no two commands hold the same id, every stored id is reserved, and the store is bounded. -/
theorem process_ids_not_shared {s : System} (h : manager.Reaches Settled System.new s) :
    (∀ callId callId' processId, Holds s callId processId → Holds s callId' processId →
      callId = callId') ∧
    (∀ processId entry, s.store.processes.lookup processId = some entry →
      processId ∈ s.store.reservedProcessIds) ∧
    s.store.processes.entries.length ≤ maxUnifiedExecProcesses := by
  have hi : Inv s := h.invariant (fun _ _ hi _ hs => inv_step hi hs) inv_new
  let Fits (s : System) : Prop := Bounded s.store
  have hb : Fits s := h.invariant (fun _ event hb _ _ => bounded_step hb event) (Nat.zero_le _)
  refine ⟨?_, ?_, hb⟩
  · intro callId callId' processId hh hh'
    exact hi.holds_unique hh hh'
  · intro processId entry he
    exact (hi.stored_reserved processId entry he).1

theorem process_ids_not_shared_again :
    let events : List Event := [.allocate 1 .deterministic, .store 1 0, .finish 1, .terminateAll,
      .allocate 2 .deterministic]
    let s := manager.run events System.new
    manager.Allows Settled events System.new ∧ Holds s 2 1000 ∧
      ∀ ci, Holds s ci 1000 → ci = 2 := by
  intro events s
  have hs : manager.Allows Settled events System.new := by
    refine ⟨trivial, ?_, trivial, ?_, trivial, ?_, trivial, ?_, trivial, ?_, trivial⟩
    · exact fun _ _ _ h => h
    · intro ci call _ hp
      have hn : processToPrune (manager.run [.allocate 1 .deterministic] System.new).store =
          none := by decide +kernel
      exact absurd (hn.symm.trans hp) (by simp)
    · exact fun _ _ _ h => h
    · -- the one call has returned
      intro ci call hc
      exfalso
      by_cases hf : ci = 1
      · subst hf
        have hr : (manager.run [.allocate 1 .deterministic, .store 1 0, .finish 1]
            System.new).calls 1 = none := by decide +kernel
        exact absurd (hr.symm.trans hc) (by simp)
      · change update (update (update (fun _ => none) 1 _) 1 _) 1 none
          ci = some call at hc
        simp [update_of_ne hf] at hc
    · exact fun _ _ _ h => h
  have hh : Holds s 2 1000 := .inl ⟨⟨1000, false⟩, by decide +kernel, rfl⟩
  refine ⟨hs, hh, ?_⟩
  intro ci hc
  exact (process_ids_not_shared (.of_allows hs)).1 ci 2 1000 hc hh

/-- All processes are terminated between the allocation of an id and its next one: two calls in
flight have the same id, and a process is stored under an id that is not reserved. -/
theorem terminated_in_flight_shares :
    let shared := manager.run [.allocate 1 .deterministic, .terminateAll,
      .allocate 2 .deterministic] System.new
    let stored := manager.run [.allocate 1 .deterministic, .terminateAll, .store 1 0] System.new
    (Holds shared 1 1000 ∧ Holds shared 2 1000) ∧
      ∃ entry, stored.store.processes.lookup 1000 = some entry ∧
        1000 ∉ stored.store.reservedProcessIds := by
  refine ⟨⟨.inl ⟨⟨1000, false⟩, ?_, rfl⟩, .inl ⟨⟨1000, false⟩, ?_, rfl⟩⟩,
    ⟨1, 1000, 0, false⟩, ?_, ?_⟩
  all_goals decide +kernel

end ProcessIds
