import CodexTeams.Agents
import CodexTeams.Runs

/-! The slots of the spawned agents over every interleaving. Each event is one access to the counter
or one acquisition of the lock, so the two halves of a drop and of a release are apart. -/
namespace AgentSlots

open RustStr AgentPaths MapCount Agents AList Runs EventSystem

abbrev CallerId := ℕ

structure SpawnReservation where
  reservedAgentNickname : Option Str
  reservedAgentPath : Option AgentPath

inductive Caller
  /-- In the loop of `try_increment_spawned`, with the count last seen. -/
  | loaded (maxThreads current : ℕ)
  | held (reservation : SpawnReservation)
  /-- The drop has given the path back, and not yet decremented. -/
  | dropping

namespace Caller

def hasSlot : Caller → Bool
  | .loaded _ _ => false
  | .held _ | .dropping => true

def reservedPath : Caller → Option AgentPath
  | .held reservation => reservation.reservedAgentPath
  | _ => none

end Caller

/-- The registry, those at work on it, and how many releases have yet to decrement. -/
structure System extends AgentRegistry where
  callers : AList (fun _ : CallerId => Caller)
  releasing : ℕ

def System.new : System := ⟨⟨⟨∅, ∅, 0⟩, 0⟩, ∅, 0⟩

inductive Event
  | reserve (caller : CallerId) (maxThreads : Option ℕ)
  | exchange (caller : CallerId) (spurious : Bool)
  | reserveNickname (caller : CallerId) (names : List Str) (preferred : Option Str) (choice : ℕ)
  | reservePath (caller : CallerId) (agentPath : AgentPath)
  | commit (caller : CallerId) (metadata : AgentMetadata)
  | drop (caller : CallerId)
  | dropped (caller : CallerId)
  | release (threadId : ThreadId) (order : List Str)
  | released
  | registerRoot (threadId : ThreadId)

section

variable (s : System)

def release (removed : ActiveAgents × Bool) : System :=
  { s with activeAgents := removed.1, releasing := s.releasing + if removed.2 then 1 else 0 }

variable (caller : CallerId)

def exchange (maxThreads : ℕ) : Attempt → System
  | .refused => { s with callers := s.callers.erase caller }
  | .incremented totalCount =>
    { s with totalCount := totalCount, callers := s.callers.insert caller (.held ⟨none, none⟩) }
  | .retry current => { s with callers := s.callers.insert caller (.loaded maxThreads current) }

variable (reservation : SpawnReservation)

def reservePath (agentPath : AgentPath) : System :=
  match reserveAgentPath s.activeAgents agentPath with
  | .error _ => s
  | .ok agents =>
    { s with
      activeAgents := agents
      callers := s.callers.insert caller
        (.held { reservation with reservedAgentPath := some agentPath }) }

def reserveNickname (reserved : ActiveAgents × Option Str) : System :=
  match reserved.2 with
  | none => { s with activeAgents := reserved.1 }
  | some nickname =>
    { s with
      activeAgents := reserved.1
      callers := s.callers.insert caller
        (.held { reservation with reservedAgentNickname := some nickname }) }

variable (agents : ActiveAgents)

def releasePath : Option AgentPath → ActiveAgents
  | none => agents
  | some agentPath => releaseReservedAgentPath agents agentPath

def step : Event → System
  | .reserve caller maxThreads =>
    match s.callers.lookup caller, maxThreads with
    | none, some max => { s with callers := s.callers.insert caller (.loaded max s.totalCount) }
    | none, none =>
      { s with
        totalCount := fetchAdd s.totalCount
        callers := s.callers.insert caller (.held ⟨none, none⟩) }
    | some _, _ => s
  | .exchange caller spurious =>
    match s.callers.lookup caller with
    | some (.loaded max current) =>
      exchange s caller max (tryIncrementTurn max s.totalCount current spurious)
    | _ => s
  | .reserveNickname caller names preferred choice =>
    match s.callers.lookup caller with
    | some (.held reservation) =>
      reserveNickname s caller reservation
        (reserveAgentNickname s.activeAgents names preferred choice)
    | _ => s
  | .reservePath caller agentPath =>
    match s.callers.lookup caller with
    | some (.held reservation) => reservePath s caller reservation agentPath
    | _ => s
  | .commit caller metadata =>
    match s.callers.lookup caller with
    | some (.held _) =>
      { s with
        activeAgents := registerSpawnedThread s.activeAgents metadata
        callers := s.callers.erase caller }
    | _ => s
  | .drop caller =>
    match s.callers.lookup caller with
    | some (.held reservation) =>
      { s with
        activeAgents := releasePath s.activeAgents reservation.reservedAgentPath
        callers := s.callers.insert caller .dropping }
    | _ => s
  | .dropped caller =>
    match s.callers.lookup caller with
    | some .dropping =>
      { s with totalCount := fetchSub s.totalCount, callers := s.callers.erase caller }
    | _ => s
  | .release threadId order => release s (removeThread s.activeAgents order threadId)
  | .released =>
    if s.releasing = 0 then s
    else { s with totalCount := fetchSub s.totalCount, releasing := s.releasing - 1 }
  | .registerRoot threadId =>
    { s with activeAgents := registerRootThread s.activeAgents threadId }

abbrev registry : EventSystem System Event := total step

def outstanding : ℕ := countWhere Caller.hasSlot s.callers

def FreshThread (threadId : ThreadId) : Prop :=
  ∀ key metadata, agents.agentTree.lookup key = some metadata → metadata.agentId ≠ some threadId

variable (maxThreads : ℕ)

/-- What is asked of the callers: one limit for all reservations, and a commit of a new thread,
below the root, at the path that was reserved for it. -/
def Admissible (s : System) : Event → Prop
  | .reserve _ limit => limit = some maxThreads
  | .commit caller metadata => ∀ reservation,
    s.callers.lookup caller = some (.held reservation) →
      (∃ threadId, metadata.agentId = some threadId ∧ FreshThread s.activeAgents threadId) ∧
        metadata.agentPath = reservation.reservedAgentPath ∧ isRootAgent metadata = false
  | _ => True

theorem freshThread_iff : FreshThread ags threadId ↔
      ∀ e ∈ ags.agentTree.entries, e.2.agentId ≠ some threadId := by
  constructor
  · intro h e he
    exact h e.1 e.2 (mem_lookup_iff.mpr he)
  · intro h key m hl
    exact h ⟨key, m⟩ (mem_lookup_iff.mp hl)

instance instDecidableFreshThread (threadId : ThreadId) : Decidable (FreshThread agents threadId) :=
  decidable_of_iff' _ freshThread_iff

instance instDecidableAdmissible (s : System) (event : Event) :
    Decidable (Admissible maxThreads s event) := by
  cases event with
  | commit caller metadata =>
    exact match h : s.callers.lookup caller with
    | some (.held reservation) =>
      decidable_of_iff
        ((∃ threadId ∈ metadata.agentId, FreshThread s.activeAgents threadId) ∧
          metadata.agentPath = reservation.reservedAgentPath ∧ isRootAgent metadata = false)
        (by simp [Admissible, h])
    | none | some (.loaded _ _) | some .dropping => isTrue (by simp [Admissible, h])
  | _ =>
    dsimp only [Admissible]
    infer_instance

def Decrements : Event → Prop
  | .dropped caller => s.callers.lookup caller = some .dropping
  | .released => s.releasing ≠ 0
  | _ => False

end

def Holds (callers : AList (fun _ : CallerId => Caller)) (caller : CallerId)
    (agentPath : AgentPath) : Prop :=
  ∃ held, callers.lookup caller = some held ∧ held.reservedPath = some agentPath

/-- A reserved path has an entry without a thread, and one caller that reserved it. -/
structure Placed (tree : AList (fun _ : Str => AgentMetadata))
    (callers : AList (fun _ : CallerId => Caller)) : Prop where
  placeholder : ∀ caller agentPath, Holds callers caller agentPath →
    ∃ metadata, tree.lookup agentPath.path = some metadata ∧ metadata.agentId = none
  distinct : ∀ caller caller' agentPath, Holds callers caller agentPath →
    Holds callers caller' agentPath → caller = caller'
  threads : ∀ threadId metadata, tree.lookup (threadKey threadId) = some metadata →
    metadata.agentId = some threadId

structure Inv (maxThreads : ℕ) (s : System) : Prop where
  total : s.totalCount = outstanding s + liveCount s.activeAgents + s.releasing
  bound : s.totalCount ≤ maxThreads
  limit : ∀ caller max current, s.callers.lookup caller = some (.loaded max current) →
    max = maxThreads
  placed : Placed s.activeAgents.agentTree s.callers

theorem holds_insert (h : Holds (cs.insert c new) o ap) :
    (o = c ∧ new.reservedPath = some ap) ∨ (o ≠ c ∧ Holds cs o ap) := by
  obtain ⟨held, hl, hp⟩ := h
  rcases lookup_insert_cases hl with ⟨rfl, rfl⟩ | ⟨hne, hl⟩
  · exact .inl ⟨rfl, hp⟩
  · exact .inr ⟨hne, held, hl, hp⟩

theorem holds_erase (h : Holds (cs.erase c) o ap) : o ≠ c ∧ Holds cs o ap := by
  obtain ⟨held, hl, hp⟩ := h
  obtain ⟨hne, hl⟩ := lookup_erase_some hl
  exact ⟨hne, held, hl, hp⟩

namespace Placed

variable {t : AList (fun _ : Str => AgentMetadata)} {cls : AList (fun _ : CallerId => Caller)}
  (h : Placed t cls)

include h

theorem mono (hhl : ∀ cr ap, Holds cls' cr ap → Holds cls cr ap) : Placed t cls' where
  placeholder cr ap hh := h.placeholder cr ap (hhl _ _ hh)
  distinct cr cr' ap hh hh' := h.distinct cr cr' ap (hhl _ _ hh) (hhl _ _ hh')
  threads := h.threads

theorem insert_caller (cr : CallerId) (hn : new.reservedPath = none) :
    Placed t (cls.insert cr new) := by
  apply h.mono
  intro oh ap hh
  rcases holds_insert hh with ⟨-, hp⟩ | ⟨-, hh⟩
  · rw [hn] at hp
    cases hp
  · exact hh

theorem erase_caller (cr : CallerId) : Placed t (cls.erase cr) :=
  h.mono fun _ _ hh => (holds_erase hh).2

theorem ne_of_vacant (hv : t.lookup key = none) (hh : Holds cls cr ap) : ap.path ≠ key := by
  intro heq
  obtain ⟨m, hl, -⟩ := h.placeholder cr ap hh
  rw [heq, hv] at hl
  cases hl

section

variable (hf : ∀ cr ap, Holds cls cr ap → ap.path ≠ key)

include hf

theorem insert_entry (ht : ∀ ti, threadKey ti = key → m.agentId = some ti) :
    Placed (t.insert key m) cls where
  placeholder cr ap hh := by
    rw [lookup_insert_ne (hf cr ap hh)]
    exact h.placeholder cr ap hh
  distinct := h.distinct
  threads ti found hl := by
    rcases lookup_insert_cases hl with ⟨heq, rfl⟩ | ⟨-, hl⟩
    · exact ht ti heq
    · exact h.threads ti found hl

theorem erase_entry : Placed (t.erase key) cls where
  placeholder cr ap hh := by
    rw [lookup_erase_ne (hf cr ap hh)]
    exact h.placeholder cr ap hh
  distinct := h.distinct
  threads threadId found hl := h.threads threadId found (lookup_erase_some hl).2

end

theorem reserve (cr : CallerId) (hv : t.lookup ap.path = none) (hm : m.agentId = none)
    (hn : new.reservedPath = some ap) : Placed (t.insert ap.path m) (cls.insert cr new) := by
  have he : Placed (t.insert ap.path m) cls := by
    apply h.insert_entry
    · intro oh op hh
      exact h.ne_of_vacant hv hh
    · intro threadId heq
      exact absurd heq.symm (path_ne_threadKey ap threadId)
  -- No one else holds the path, as it had no entry before.
  have ho : ∀ oh, ¬ Holds cls oh ap := fun oh hh => h.ne_of_vacant hv hh rfl
  refine ⟨?_, ?_, he.threads⟩
  · intro oh op hh
    rcases holds_insert hh with ⟨-, hp⟩ | ⟨-, hh⟩
    · rw [hn] at hp
      cases hp
      exact ⟨m, lookup_insert _, hm⟩
    · exact he.placeholder oh op hh
  · intro first sc op hf hs
    rcases holds_insert hf with ⟨hc, hp⟩ | ⟨-, hh⟩
    · rw [hn] at hp
      cases hp
      rcases holds_insert hs with ⟨hc', -⟩ | ⟨-, hh'⟩
      · rw [hc, hc']
      · exact absurd hh' (ho sc)
    · rcases holds_insert hs with ⟨-, hp⟩ | ⟨-, hh'⟩
      · rw [hn] at hp
        cases hp
        exact absurd hh (ho first)
      · exact h.distinct first sc op hh hh'

end Placed

theorem outstanding_insert (h : s.callers.lookup c = some held) (new : Caller) :
    countWhere Caller.hasSlot (s.callers.insert c new) + held.hasSlot.toNat =
      outstanding s + new.hasSlot.toNat := by
  have hc := countWhere_insert Caller.hasSlot s.callers c new
  rw [h] at hc
  cases held <;> cases new <;> exact hc

theorem outstanding_erase (h : s.callers.lookup c = some held) :
    countWhere Caller.hasSlot (s.callers.erase c) + held.hasSlot.toNat = outstanding s := by
  have hc := countWhere_erase Caller.hasSlot s.callers c
  rw [h] at hc
  cases held <;> exact hc

section Steps

variable {mts : ℕ} {s : System} {cl : CallerId} {rs : SpawnReservation}
  {cls : AList (fun _ : CallerId => Caller)}

theorem Inv.limit_insert (h : Inv mts s) (hn : ∀ max c, new = .loaded max c → max = mts) :
    ∀ ot max c, (s.callers.insert cl new).lookup ot = some (.loaded max c) → max = mts := by
  intro ot max c hlk
  rcases lookup_insert_cases hlk with ⟨-, rfl⟩ | ⟨-, hl⟩
  · exact hn max c rfl
  · exact h.limit ot max c hl

theorem Inv.limit_erase (h : Inv mts s) : ∀ ot max c,
      (s.callers.erase cl).lookup ot = some (.loaded max c) → max = mts := by
  intro ot max c hl
  exact h.limit ot max c (lookup_erase_some hl).2

theorem fetchSub_pos (h : 0 < c) : fetchSub c = c - 1 := if_neg (Nat.ne_of_gt h)

variable (h : Inv mts s)

include h

theorem inv_load (hl : s.callers.lookup cl = none) : Inv mts
      { s with callers := s.callers.insert cl (.loaded mts s.totalCount) } where
  total := by
    have hc := countWhere_insert Caller.hasSlot s.callers cl (.loaded mts s.totalCount)
    rw [hl] at hc
    have hs : countWhere Caller.hasSlot
        (s.callers.insert cl (.loaded mts s.totalCount)) = outstanding s := hc
    rw [outstanding, hs]
    exact h.total
  bound := h.bound
  limit := h.limit_insert fun max c heq => by cases heq; rfl
  placed := h.placed.insert_caller cl rfl

/-- Only an exchange of a count below the limit adds to the counter. -/
theorem inv_exchange (sp : Bool) (hl : s.callers.lookup cl = some (.loaded mts c)) :
    Inv mts (exchange s cl mts (tryIncrementTurn mts s.totalCount c sp)) := by
  have ht := h.total
  rw [tryIncrementTurn]
  split
  · have hc := outstanding_erase hl
    refine ⟨?_, h.bound, h.limit_erase, h.placed.erase_caller cl⟩
    simp only [exchange, outstanding, Caller.hasSlot, Bool.toNat_false] at *
    omega
  · split
    · have hc := outstanding_insert hl (.held ⟨none, none⟩)
      refine ⟨?_, ?_, h.limit_insert ?_, h.placed.insert_caller cl rfl⟩
      · simp only [exchange, outstanding, Caller.hasSlot, Bool.toNat_false, Bool.toNat_true] at *
        omega
      · simp only [exchange]
        omega
      · intro max c heq
        cases heq
    · have hc := outstanding_insert hl (.loaded mts s.totalCount)
      refine ⟨?_, h.bound, h.limit_insert ?_, h.placed.insert_caller cl rfl⟩
      · simp only [exchange, outstanding, Caller.hasSlot] at *
        omega
      · intro max c heq
        cases heq
        rfl

theorem Inv.total_keep (hl : s.callers.lookup cl = some held) (hs : new.hasSlot = held.hasSlot)
    (hlv : liveCount ags = liveCount s.activeAgents) :
    s.totalCount = countWhere Caller.hasSlot (s.callers.insert cl new) + liveCount ags +
      s.releasing := by
  have ht := h.total
  have hc := outstanding_insert hl new
  rw [hs] at hc
  omega

variable (hl : s.callers.lookup cl = some (.held rs))

include hl

theorem inv_reserveNickname (r : ActiveAgents × Option Str)
    (ht : r.1.agentTree = s.activeAgents.agentTree) : Inv mts (reserveNickname s cl rs r) := by
  have hlv : liveCount r.1 = liveCount s.activeAgents := by
    rw [liveCount, ht, liveCount]
  have hp : Placed r.1.agentTree s.callers := by
    rw [ht]
    exact h.placed
  rw [reserveNickname]
  cases r.2 with
  | none => exact ⟨by rw [hlv]; exact h.total, h.bound, h.limit, hp⟩
  | some n =>
    refine ⟨h.total_keep hl rfl hlv, h.bound, h.limit_insert nofun, hp.mono ?_⟩
    intro ot ap hh
    rcases holds_insert hh with ⟨rfl, hpt⟩ | ⟨-, hh⟩
    · exact ⟨_, hl, hpt⟩
    · exact hh

theorem inv_reservePath (ap : AgentPath) : Inv mts (reservePath s cl rs ap) := by
  rw [reservePath]
  cases hr : reserveAgentPath s.activeAgents ap with
  | error message => exact h
  | ok ags =>
    obtain ⟨hv, ht, hlv⟩ := liveCount_reserveAgentPath hr
    refine ⟨h.total_keep hl rfl hlv, h.bound, h.limit_insert nofun, ?_⟩
    rw [ht]
    exact h.placed.reserve cl hv rfl rfl

/-- What a commit overwrites has no thread: it is the entry of the reserved path, or nothing. -/
theorem Inv.overwritten (hf : FreshThread s.activeAgents ti) :
    weight isLive (s.activeAgents.agentTree.lookup (agentKey ti rs.reservedAgentPath)) = 0 := by
  cases hp : rs.reservedAgentPath with
  | some ap =>
    obtain ⟨m, he, hid⟩ := h.placed.placeholder cl ap ⟨_, hl, hp⟩
    rw [agentKey, he]
    simp [weight, isLive, hid]
  | none =>
    cases he : s.activeAgents.agentTree.lookup (threadKey ti) with
    | none =>
      rw [agentKey, he]
      rfl
    | some m =>
      exact absurd (h.placed.threads ti m he) (hf _ m he)

theorem Inv.key_free (ti : ThreadId) (ho : Holds (s.callers.erase cl) ot op) :
    op.path ≠ agentKey ti rs.reservedAgentPath := by
  obtain ⟨hne, hh⟩ := holds_erase ho
  cases hp : rs.reservedAgentPath with
  | none => exact path_ne_threadKey op ti
  | some ap =>
    intro heq
    have hs : op = ap := by
      cases op
      cases ap
      cases heq
      rfl
    subst hs
    exact hne (h.placed.distinct ot cl op hh ⟨_, hl, hp⟩)

theorem inv_commit (hid : m.agentId = some ti) (hf : FreshThread s.activeAgents ti)
    (hp : m.agentPath = rs.reservedAgentPath) (hrt : isRootAgent m = false) :
    Inv mts
      { s with
        activeAgents := registerSpawnedThread s.activeAgents m
        callers := s.callers.erase cl } := by
  have ht := agentTree_registerSpawnedThread s.activeAgents hid
  rw [hp] at ht
  have hlv : liveCount (registerSpawnedThread s.activeAgents m) = liveCount s.activeAgents + 1 := by
    have hc := countWhere_insert isLive s.activeAgents.agentTree
      (agentKey ti rs.reservedAgentPath) m
    have hn : weight isLive (some m) = 1 := by simp [weight, isLive, hid, hrt]
    rw [h.overwritten hl hf, hn, ← ht] at hc
    exact hc
  have hs := outstanding_erase hl
  refine ⟨?_, h.bound, h.limit_erase, ?_⟩
  · have htt := h.total
    simp only [outstanding, Caller.hasSlot, Bool.toNat_true, hlv] at *
    omega
  · rw [ht]
    apply (h.placed.erase_caller cl).insert_entry
    · intro ot op ho
      exact h.key_free hl ti ho
    · intro t heq
      cases hr : rs.reservedAgentPath with rw [hr] at heq
      | none => rw [hid, threadKey_injective heq]
      | some ap => exact absurd heq.symm (path_ne_threadKey ap t)

theorem inv_drop : Inv mts
      { s with
        activeAgents := releasePath s.activeAgents rs.reservedAgentPath
        callers := s.callers.insert cl .dropping } := by
  have hlv : liveCount (releasePath s.activeAgents rs.reservedAgentPath) =
      liveCount s.activeAgents := by
    cases rs.reservedAgentPath with
    | none => rfl
    | some ap => exact liveCount_releaseReservedAgentPath s.activeAgents ap
  have hc : Placed s.activeAgents.agentTree (s.callers.insert cl .dropping) :=
    h.placed.insert_caller cl rfl
  refine ⟨h.total_keep hl rfl hlv, h.bound, h.limit_insert ?_, ?_⟩
  · intro max c heq
    cases heq
  · cases hp : rs.reservedAgentPath with
    | none => exact hc
    | some ap =>
      simp only [releasePath, releaseReservedAgentPath]
      split
      · apply hc.erase_entry
        intro ot op ho heq
        have hs : op = ap := by
          cases op
          cases ap
          cases heq
          rfl
        subst hs
        rcases holds_insert ho with ⟨-, hn⟩ | ⟨hne, hh⟩
        · cases hn
        · exact hne (h.placed.distinct ot cl op hh ⟨_, hl, hp⟩)
      · exact hc

omit hl

theorem inv_dropped (hl : s.callers.lookup cl = some .dropping) : 0 < s.totalCount ∧ Inv mts
      { s with totalCount := fetchSub s.totalCount, callers := s.callers.erase cl } := by
  have ht := h.total
  have hb := h.bound
  have hs := outstanding_erase hl
  simp only [Caller.hasSlot, Bool.toNat_true] at hs
  have hp : 0 < s.totalCount := by omega
  refine ⟨hp, ?_, ?_, h.limit_erase, h.placed.erase_caller cl⟩
  · simp only [fetchSub_pos hp, outstanding] at *
    omega
  · simp only [fetchSub_pos hp]
    omega

variable (threadId : ThreadId)

theorem inv_release (o : List Str) :
    Inv mts (release s (removeThread s.activeAgents o threadId)) := by
  have hl := liveCount_removeThread s.activeAgents o threadId
  have ht := h.total
  refine ⟨?_, h.bound, h.limit, ?_⟩
  · simp only [release, outstanding] at *
    omega
  · obtain heq | ⟨key, m, he, hid, heq⟩ :=
      removeThread_spec s.activeAgents o threadId
    · rw [heq]
      exact h.placed
    · rw [heq]
      apply h.placed.erase_entry
      intro ot op ho hk
      -- The entry of a reserved path has no thread, and the one that is removed has.
      obtain ⟨placeholder, hp, hn⟩ := h.placed.placeholder ot op ho
      rw [hk, he] at hp
      cases hp
      rw [hid] at hn
      cases hn

theorem inv_released (hr : s.releasing ≠ 0) : 0 < s.totalCount ∧ Inv mts
      { s with totalCount := fetchSub s.totalCount, releasing := s.releasing - 1 } := by
  have ht := h.total
  have hb := h.bound
  have hp : 0 < s.totalCount := by omega
  refine ⟨hp, ?_, ?_, h.limit, h.placed⟩
  · simp only [fetchSub_pos hp, outstanding] at *
    omega
  · simp only [fetchSub_pos hp]
    omega

theorem inv_registerRoot :
    Inv mts { s with activeAgents := registerRootThread s.activeAgents threadId } := by
  refine ⟨?_, h.bound, h.limit, ?_⟩
  · rw [liveCount_registerRootThread]
    exact h.total
  · simp only [registerRootThread]
    split
    · exact h.placed
    · rename_i hv
      apply h.placed.insert_entry
      · intro ot op ho
        exact h.placed.ne_of_vacant hv ho
      · intro t heq
        exact absurd heq.symm (path_ne_threadKey AgentPath.root t)

omit h

theorem inv_new (mts : ℕ) : Inv mts System.new where
  total := rfl
  bound := Nat.zero_le mts
  limit _ _ _ hl := by cases hl
  placed := by
    constructor
    · rintro cl ap ⟨held, hl, -⟩
      cases hl
    · rintro cl cl' ap ⟨held, hl, -⟩
      cases hl
    · intro threadId m hl
      cases hl

theorem inv_step (h : Inv mts s) (he : Admissible mts s e) : Inv mts (step s e) := by
  cases e with
  | reserve cl limit =>
    cases he
    simp only [step]
    split
    · rename_i hl heq
      cases heq
      exact inv_load h hl
    · rename_i heq
      cases heq
    · exact h
  | exchange cl sp =>
    simp only [step]
    split
    · rename_i max current hl
      cases h.limit cl max current hl
      exact inv_exchange h sp hl
    · exact h
  | reserveNickname cl ns p c =>
    simp only [step]
    split
    · rename_i reservation hl
      exact inv_reserveNickname h hl _ (agentTree_reserveAgentNickname _ _ _ _)
    · exact h
  | reservePath cl ap =>
    simp only [step]
    split
    · rename_i reservation hl
      exact inv_reservePath h hl ap
    · exact h
  | commit cl m =>
    simp only [step]
    split
    · rename_i reservation hl
      obtain ⟨⟨threadId, hid, hf⟩, hp, hrt⟩ := he reservation hl
      exact inv_commit h hl hid hf hp hrt
    · exact h
  | drop cl =>
    simp only [step]
    split
    · rename_i reservation hl
      exact inv_drop h hl
    · exact h
  | dropped cl =>
    simp only [step]
    split
    · rename_i hl
      exact (inv_dropped h hl).2
    · exact h
  | release threadId o => exact inv_release h threadId o
  | released =>
    simp only [step]
    split
    · exact h
    · rename_i hr
      exact (inv_released h hr).2
  | registerRoot threadId => exact inv_registerRoot h threadId

theorem Inv.decrement_pos (h : Inv mts s) (he : Decrements s e) : 0 < s.totalCount := by
  cases e with
  | dropped cl => exact (inv_dropped h he).1
  | released => exact (inv_released h he).1
  | _ => cases he

end Steps

/-- At every point of every interleaving the counter is the number of the reservations that are
outstanding and of the live agents, and of the agents that a release has taken out and not yet
counted; so between releases it is exactly the first two. No decrement meets a counter at zero,
and the limit is never passed. -/
theorem slots_accounted (maxThreads : ℕ) {s : System}
    (h : registry.Reaches (Admissible maxThreads) System.new s) :
    s.totalCount = outstanding s + (liveAgents s.activeAgents).length + s.releasing ∧
      (s.releasing = 0 → s.totalCount = outstanding s + (liveAgents s.activeAgents).length) ∧
      (∀ event, Decrements s event → 0 < s.totalCount) ∧ s.totalCount ≤ maxThreads := by
  have hi : Inv maxThreads s := h.invariant (fun _ _ hi _ ha => inv_step hi ha) (inv_new _)
  rw [length_liveAgents]
  have ht := hi.total
  refine ⟨ht, ?_, ?_, hi.bound⟩
  · intro hr
    rw [hr] at ht
    exact ht
  · intro event he
    exact hi.decrement_pos he

def workerPath : AgentPath := ⟨"/root/worker", by decide⟩

/-- Two callers race for a limit of two; one commits, one is dropped, a third is refused, and the
agent that was committed is being released. -/
def spawnRace : List Event :=
  [.registerRoot ['r'], .reserve 0 (some 2), .reserve 1 (some 2), .exchange 1 false,
    .exchange 0 false, .exchange 0 false, .reserve 2 (some 2), .exchange 2 false,
    .reservePath 0 workerPath, .reservePath 1 workerPath,
    .reserveNickname 0 [['a'], ['b']] none 1,
    .commit 0 ⟨some ['w'], some workerPath, some ['b']⟩, .drop 1, .dropped 1,
    .release ['w'] ["/root", "/root/worker"]]

theorem slots_accounted_race :
    let s := registry.run spawnRace System.new
    let held := registry.run (spawnRace.take 12) System.new
    s.releasing = 1 ∧ s.totalCount = outstanding s + (liveAgents s.activeAgents).length + 1 ∧
      s.totalCount ≤ 2 ∧ held.totalCount = 2 ∧ outstanding held = 1 := by
  intro s held
  have ha : registry.Allows (Admissible 2) spawnRace System.new := by decide +kernel
  obtain ⟨ht, -, -, hb⟩ := slots_accounted 2 (.of_allows ha)
  have hr : s.releasing = 1 := by decide +kernel
  exact ⟨hr, ht, hb, by decide +kernel, by decide +kernel⟩

end AgentSlots
