import Mathlib.Data.List.AList
import Mathlib.Order.Lattice.Nat

/-! The process store of unified exec. A process that goes into a full store displaces one that was
not used recently. -/
namespace UnifiedExec

open List

abbrev CallId := ℕ

structure ProcessEntry where
  callId : CallId
  processId : ℕ
  lastUsed : ℕ
  hasExited : Bool
  deriving DecidableEq, Repr

structure ProcessStore where
  processes : AList (fun _ : ℕ => ProcessEntry)
  reservedProcessIds : Finset ℕ

def maxUnifiedExecProcesses : ℕ := 64

namespace ProcessStore

def new : ProcessStore := ⟨∅, ∅⟩

def remove (store : ProcessStore) (processId : ℕ) : ProcessStore :=
  ⟨store.processes.erase processId, store.reservedProcessIds.erase processId⟩

end ProcessStore

/-- Where a new process id comes from: in tests the one after the greatest, otherwise at random. -/
inductive Draw
  | deterministic
  | random (offset : Fin 99000)

variable (store : ProcessStore)

def drawProcessId : Draw → ℕ
  | .deterministic => max (store.reservedProcessIds.sup id) 999 + 1
  | .random offset => 1000 + offset

/-- One turn of the loop that looks for a process id, or none if the one drawn is taken. -/
def allocateProcessId (draw : Draw) : Option (ProcessStore × ℕ) :=
  let processId := drawProcessId store draw
  if processId ∈ store.reservedProcessIds then none
  else some (⟨store.processes, insert processId store.reservedProcessIds⟩, processId)

structure ProcessMeta where
  processId : ℕ
  lastUsed : ℕ
  hasExited : Bool
  deriving Repr

def protectedIds (metas : List ProcessMeta) : List ℕ :=
  ((metas.mergeSort fun a b => b.lastUsed ≤ a.lastUsed).take 8).map ProcessMeta.processId

/-- The least recently used process that has exited, or else the least recently used one; the
ones used last are kept. -/
def processIdToPruneFromMeta (metas : List ProcessMeta) : Option ℕ :=
  let lru := metas.mergeSort fun a b => a.lastUsed ≤ b.lastUsed
  match lru.find? fun m => !(protectedIds metas).contains m.processId && m.hasExited with
  | some m => some m.processId
  | none =>
    (lru.find? fun m => !(protectedIds metas).contains m.processId).map ProcessMeta.processId

def metaOf : List ProcessMeta :=
  store.processes.entries.map fun entry => ⟨entry.1, entry.2.lastUsed, entry.2.hasExited⟩

def processToPrune : Option ℕ :=
  if store.processes.entries.length < maxUnifiedExecProcesses then none
  else processIdToPruneFromMeta (metaOf store)

def pruneProcessesIfNeeded : ProcessStore :=
  match processToPrune store with
  | some processId => store.remove processId
  | none => store

def storeProcess (entry : ProcessEntry) : ProcessStore :=
  let store := pruneProcessesIfNeeded store
  ⟨store.processes.insert entry.processId entry, store.reservedProcessIds⟩

variable (processId : ℕ)

def refreshProcessState : ProcessStore :=
  match store.processes.lookup processId with
  | some entry => if entry.hasExited then store.remove entry.processId else store
  | none => store

def prepareProcessHandles (processId now : ℕ) : ProcessStore :=
  match store.processes.lookup processId with
  | some entry =>
    ⟨store.processes.insert processId { entry with lastUsed := now }, store.reservedProcessIds⟩
  | none => store

/-- Not a function of the store's own: the process of an entry ends. -/
def markExited : ProcessStore :=
  match store.processes.lookup processId with
  | some entry =>
    ⟨store.processes.insert processId { entry with hasExited := true }, store.reservedProcessIds⟩
  | none => store

def terminateAllProcesses (_ : ProcessStore) : ProcessStore := ⟨∅, ∅⟩

theorem exists_unprotected (hn : (metas.map ProcessMeta.processId).Nodup) (hl : 8 < metas.length) :
    ∃ m ∈ metas, m.processId ∉ protectedIds metas := by
  by_contra ha
  push Not at ha
  have hs : metas.map ProcessMeta.processId ⊆ protectedIds metas := by
    intro i hmm
    obtain ⟨m, hm, rfl⟩ := mem_map.mp hmm
    exact ha m hm
  have hle := (hn.subperm hs).length_le
  have hsh : (protectedIds metas).length ≤ 8 := by
    rw [protectedIds, length_map]
    exact length_take_le 8 _
  rw [length_map] at hle
  omega

theorem processIdToPrune_isSome (hn : (ms.map ProcessMeta.processId).Nodup) (hl : 8 < ms.length) :
    ∃ i, processIdToPruneFromMeta ms = some i ∧ i ∈ ms.map ProcessMeta.processId := by
  unfold processIdToPruneFromMeta
  simp only
  split
  · rename_i m hfn
    have hmm := mem_mergeSort.mp (mem_of_find?_eq_some hfn)
    exact ⟨m.processId, rfl, mem_map_of_mem hmm⟩
  · obtain ⟨m, hm, hfr⟩ := exists_unprotected hn hl
    cases hf : (ms.mergeSort fun a b => a.lastUsed ≤ b.lastUsed).find? fun m =>
        !(protectedIds ms).contains m.processId with
    | none =>
      have hnn := List.find?_eq_none.mp hf m (mem_mergeSort.mpr hm)
      simp [hfr] at hnn
    | some f =>
      have hmm := mem_mergeSort.mp (mem_of_find?_eq_some hf)
      exact ⟨f.processId, rfl, mem_map_of_mem hmm⟩

variable (metas : List ProcessMeta)

/-- Fewer than eight entries were used after it. -/
def Recent (m : ProcessMeta) : Prop :=
  metas.countP (m.lastUsed < ·.lastUsed) < 8

/-- Its process is that of a recent entry. -/
def Kept (m : ProcessMeta) : Prop :=
  ∃ x ∈ metas, x.processId = m.processId ∧ Recent metas x

variable {ms : List ProcessMeta}

theorem recent_iff (hn : (ms.map ProcessMeta.lastUsed).Nodup)
    (hm : m ∈ ms) :
    Recent ms m ↔ m ∈ (ms.mergeSort fun a b => b.lastUsed ≤ a.lastUsed).take 8 := by
  have hp := mergeSort_perm ms fun a b => b.lastUsed ≤ a.lastUsed
  have hs : Pairwise _ (ms.mergeSort fun a b => b.lastUsed ≤ a.lastUsed) :=
    pairwise_mergeSort (by simp; omega) (by simp; omega) ms
  have hd := pairwise_map.mp ((hp.map ProcessMeta.lastUsed).nodup_iff.mpr hn)
  obtain ⟨a, b, hab⟩ := append_of_mem (hp.mem_iff.mpr hm)
  rw [hab] at hp hs hd ⊢
  obtain ⟨-, hb, ha⟩ := pairwise_append.mp (hs.and hd)
  have ha : ∀ x ∈ a, m.lastUsed < x.lastUsed := by
    intro x hx
    have := ha x hx m mem_cons_self
    simp only [decide_eq_true_eq] at this
    omega
  have hb : ∀ x ∈ b, ¬ m.lastUsed < x.lastUsed := by
    intro x hx
    simpa using ((pairwise_cons.mp hb).1 x hx).1
  have hm : m ∉ a := fun hm => lt_irrefl _ (ha m hm)
  rw [Recent, ← hp.countP_eq, countP_append, countP_eq_length.mpr (by simpa using ha),
    countP_cons, countP_eq_zero.mpr (by simpa using hb), take_append]
  cases hk : 8 - a.length with
  | zero => simp [mt mem_of_mem_take hm]; omega
  | succ k => simp; omega

theorem find_least (h : (ms.mergeSort fun a b => a.lastUsed ≤ b.lastUsed).find? p = some m) :
    m ∈ ms ∧ p m = true ∧ ∀ x ∈ ms, p x = true → m.lastUsed ≤ x.lastUsed := by
  have hs : Pairwise _ (ms.mergeSort fun a b => a.lastUsed ≤ b.lastUsed) :=
    pairwise_mergeSort (by simp; omega) (by simp; omega) ms
  refine ⟨mem_mergeSort.mp (mem_of_find?_eq_some h), find?_some h, fun x hx hp => ?_⟩
  obtain ⟨-, a, b, hab, hn⟩ := find?_eq_some_iff_append.mp h
  rw [hab] at hs
  have hx : x ∈ a ++ m :: b := hab ▸ mem_mergeSort.mpr hx
  rcases mem_append.mp hx with hx | hx
  · simpa [hp] using hn x hx
  · rcases mem_cons.mp hx with rfl | hx
    · rfl
    · simpa using (pairwise_cons.mp (pairwise_append.mp hs).2.1).1 x hx

/-- Nothing is pruned exactly if all entries are kept, and otherwise the least recently used of the
others, an exited one if there is any. -/
theorem pruned_entry (metas : List ProcessMeta) (htimes : (metas.map ProcessMeta.lastUsed).Nodup) :
    (processIdToPruneFromMeta metas = none ↔ ∀ m ∈ metas, Kept metas m) ∧
    ∀ id, processIdToPruneFromMeta metas = some id →
      ∃ m ∈ metas, m.processId = id ∧ ¬ Kept metas m ∧
        ((m.hasExited = true ∧
          ∀ x ∈ metas, ¬ Kept metas x → x.hasExited = true → m.lastUsed ≤ x.lastUsed) ∨
        ∀ x ∈ metas, ¬ Kept metas x → x.hasExited = false ∧ m.lastUsed ≤ x.lastUsed) := by
  have hk : ∀ m, m.processId ∈ protectedIds metas ↔ Kept metas m := by
    intro m
    simp only [protectedIds, Kept, mem_map]
    constructor
    · rintro ⟨x, hx, hi⟩
      have hm := mem_mergeSort.mp (mem_of_mem_take hx)
      exact ⟨x, hm, hi, (recent_iff htimes hm).mpr hx⟩
    · rintro ⟨x, hm, hi, hr⟩
      exact ⟨x, (recent_iff htimes hm).mp hr, hi⟩
  simp only [processIdToPruneFromMeta]
  split
  · next m hf =>
    obtain ⟨hm, hp, hl⟩ := find_least hf
    simp only [Bool.and_eq_true, Bool.not_eq_true', contains_eq_mem, decide_eq_false_iff_not, hk]
      at hp hl
    refine ⟨iff_of_false nofun fun h => hp.1 (h m hm), ?_⟩
    rintro _ ⟨⟩
    exact ⟨m, hm, rfl, hp.1, .inl ⟨hp.2, fun x hx hn he => hl x hx ⟨hn, he⟩⟩⟩
  · next hf =>
    simp only [find?_eq_none, mem_mergeSort, Bool.and_eq_true, Bool.not_eq_true', contains_eq_mem,
      decide_eq_false_iff_not, hk, not_and, Bool.not_eq_true] at hf
    constructor
    · simp [hk]
    · intro id h
      obtain ⟨m, hf', rfl⟩ := Option.map_eq_some_iff.mp h
      obtain ⟨hm, hp, hl⟩ := find_least hf'
      simp only [Bool.not_eq_true', contains_eq_mem, decide_eq_false_iff_not, hk] at hp hl
      exact ⟨m, hm, rfl, hp, .inr fun x hx hn => ⟨hf x hx hn, hl x hx hn⟩⟩

theorem pruned_entry_exited : let metas := (range 10).map fun i => ⟨i, i, i == 1⟩
    processIdToPruneFromMeta metas = some 1 ∧ ∃ m ∈ metas, m.processId = 1 ∧ ¬ Kept metas m := by
  intro metas
  have hp : processIdToPruneFromMeta metas = some 1 := by
    simp [metas, processIdToPruneFromMeta, protectedIds, range, range.loop, mergeSort,
      MergeSort.Internal.splitInTwo]
  obtain ⟨m, hm, hi, hk, -⟩ := (pruned_entry metas (by decide)).2 1 hp
  exact ⟨hp, m, hm, hi, hk⟩

/-- Nothing is pruned of nine entries of one process. -/
theorem older_entry_kept : let metas := (range 9).map fun i => ⟨0, i, false⟩
    (metas.map ProcessMeta.lastUsed).Nodup ∧ processIdToPruneFromMeta metas = none ∧
      ¬ Recent metas ⟨0, 0, false⟩ := by
  refine ⟨by decide, ?_, by unfold Recent; decide⟩
  simp [processIdToPruneFromMeta, protectedIds, range, range.loop, mergeSort,
    MergeSort.Internal.splitInTwo]

section

variable (s : ProcessStore)

theorem map_metaOf : (metaOf s).map ProcessMeta.processId = s.processes.keys := by
  simp [metaOf, AList.keys, List.keys]

theorem length_keys : s.processes.keys.length = s.processes.entries.length := length_map ..

theorem length_remove_le (i : ℕ) :
    (s.remove i).processes.entries.length ≤ s.processes.entries.length := by
  rw [← length_keys, ← length_keys, ProcessStore.remove, AList.keys_erase]
  exact length_erase_le

end

theorem length_insert_le (ps : AList (fun _ : ℕ => ProcessEntry)) (i : ℕ) (e : ProcessEntry) :
    (ps.insert i e).entries.length ≤ ps.entries.length + 1 := by
  have hk := length_keys ⟨ps.insert i e, ∅⟩
  have ho := length_keys ⟨ps, ∅⟩
  simp only [AList.keys_insert, length_cons] at hk ho
  have hle : (ps.keys.erase i).length ≤ ps.keys.length := length_erase_le
  omega

theorem length_insert_known {ps : AList (fun _ : ℕ => ProcessEntry)} (h : ps.lookup i = some k) :
    (ps.insert i e).entries.length = ps.entries.length := by
  have hk := length_keys ⟨ps.insert i e, ∅⟩
  have ho := length_keys ⟨ps, ∅⟩
  have hm : i ∈ ps.keys := by
    rw [← AList.mem_keys, ← AList.lookup_isSome, h]
    rfl
  simp only [AList.keys_insert, length_cons, length_erase_of_mem hm] at hk ho
  have hp := length_pos_of_mem hm
  omega

theorem length_prune_lt (h : s.processes.entries.length ≤ maxUnifiedExecProcesses) :
    (pruneProcessesIfNeeded s).processes.entries.length < maxUnifiedExecProcesses := by
  unfold pruneProcessesIfNeeded processToPrune
  by_cases hr : s.processes.entries.length < maxUnifiedExecProcesses
  · rw [if_pos hr]
    exact hr
  · rw [if_neg hr]
    have hl : 8 < (metaOf s).length := by
      simp only [metaOf, length_map, maxUnifiedExecProcesses] at hr ⊢
      omega
    have hn : ((metaOf s).map ProcessMeta.processId).Nodup := by
      rw [map_metaOf]
      exact s.processes.nodupKeys
    obtain ⟨i, hp, hm⟩ := processIdToPrune_isSome hn hl
    rw [map_metaOf] at hm
    simp only [hp]
    rw [← length_keys, ProcessStore.remove, AList.keys_erase, length_erase_of_mem hm, length_keys]
    have hps : 0 < maxUnifiedExecProcesses := by decide
    omega

theorem length_storeProcess_le (e : ProcessEntry)
    (h : s.processes.entries.length ≤ maxUnifiedExecProcesses) :
    (storeProcess s e).processes.entries.length ≤ maxUnifiedExecProcesses :=
  (length_insert_le _ _ _).trans (length_prune_lt h)

end UnifiedExec
