import CodexTeams.AgentPaths
import CodexTeams.MapCount
import CodexTeams.RustInt
import Mathlib.Data.Finset.Basic

/-! The registry of the agents of a session. The counter of the spawned agents stands outside the
lock of the rest. -/
namespace Agents

open RustInt RustStr AgentPaths MapCount

abbrev ThreadId := Str

structure AgentMetadata where
  agentId : Option ThreadId
  agentPath : Option AgentPath
  agentNickname : Option Str

structure ActiveAgents where
  agentTree : AList (fun _ : Str => AgentMetadata)
  usedAgentNicknames : Finset Str
  nicknameResetCount : ℕ

structure AgentRegistry where
  activeAgents : ActiveAgents
  totalCount : ℕ

def fetchAdd (count : ℕ) : ℕ := if count = usizeMax then 0 else count + 1

def fetchSub (count : ℕ) : ℕ := if count = 0 then usizeMax else count - 1

def ordinalSuffix (value : ℕ) : Str :=
  if 11 ≤ value % 100 ∧ value % 100 ≤ 13 then "th"
  else match value % 10 with
    | 1 => "st"
    | 2 => "nd"
    | 3 => "rd"
    | _ => "th"

def formatAgentNickname (name : Str) : ℕ → Str
  | 0 => name
  | resetCount + 1 =>
    let value := resetCount + 2
    name ++ " the " ++ (toString value).toList ++ ordinalSuffix value

def choose (choice : ℕ) (names : List Str) : Option Str := names[choice % names.length]?

variable (agents : ActiveAgents)

def useNickname (nickname : Str) : ActiveAgents :=
  { agents with usedAgentNicknames := insert nickname agents.usedAgentNicknames }

def reserveAgentNickname (names : List Str) (preferred : Option Str)
    (choice : ℕ) : ActiveAgents × Option Str :=
  match preferred with
  | some nickname => (useNickname agents nickname, some nickname)
  | none =>
    if names = [] then (agents, none)
    else
      let availableNames :=
        (names.map fun name => formatAgentNickname name agents.nicknameResetCount).filter
          fun name => name ∉ agents.usedAgentNicknames
      match choose choice availableNames with
      | some nickname => (useNickname agents nickname, some nickname)
      | none =>
        let reset : ActiveAgents := ⟨agents.agentTree, ∅, agents.nicknameResetCount + 1⟩
        match choose choice names with
        | none => (reset, none)
        | some name =>
          let nickname := formatAgentNickname name reset.nicknameResetCount
          (useNickname reset nickname, some nickname)

variable (agentPath : AgentPath)

def reserveAgentPath : Except Str ActiveAgents :=
  match agents.agentTree.lookup agentPath.path with
  | some _ => .error ("agent path `" ++ agentPath.path ++ "` already exists")
  | none => .ok { agents with
      agentTree := agents.agentTree.insert agentPath.path ⟨none, some agentPath, none⟩ }

def releaseReservedAgentPath : ActiveAgents :=
  if (agents.agentTree.lookup agentPath.path).any fun metadata => metadata.agentId.isNone then
    { agents with agentTree := agents.agentTree.erase agentPath.path }
  else agents

variable (threadId : ThreadId)

def threadKey : Str := "thread:" ++ threadId

def agentKey : Option AgentPath → Str
  | some agentPath => agentPath.path
  | none => threadKey threadId

section

variable (metadata : AgentMetadata)

def registerSpawnedThread : ActiveAgents :=
  match metadata.agentId with
  | none => agents
  | some threadId =>
    let named := match metadata.agentNickname with
      | some nickname => useNickname agents nickname
      | none => agents
    { named with
      agentTree := agents.agentTree.insert (agentKey threadId metadata.agentPath) metadata }

def registerRootThread (threadId : ThreadId) : ActiveAgents :=
  match agents.agentTree.lookup rootPath with
  | some _ => agents
  | none => { agents with
      agentTree := agents.agentTree.insert rootPath ⟨some threadId, some AgentPath.root, none⟩ }

def isRootAgent : Bool := metadata.agentPath.any AgentPath.isRoot

/-- What `live_agents` keeps: the agents below the root that have a thread. -/
def isLive : Bool := metadata.agentId.isSome && !isRootAgent metadata

end

def liveAgents : List AgentMetadata :=
  (agents.agentTree.entries.map Sigma.snd).filter isLive

variable (order : List Str) (threadId : ThreadId)

def findThread : Option Str :=
  order.find? fun key =>
    (agents.agentTree.lookup key).any fun metadata => metadata.agentId == some threadId

/-- What `release_spawned_thread` does under the lock, and whether it goes on to decrement. -/
def removeThread : ActiveAgents × Bool :=
  match findThread agents order threadId with
  | none => (agents, false)
  | some key =>
    ({ agents with agentTree := agents.agentTree.erase key },
      (agents.agentTree.lookup key).any fun metadata => !isRootAgent metadata)

inductive Attempt
  | refused
  | incremented (totalCount : ℕ)
  | retry (current : ℕ)

/-- One turn of the loop of `try_increment_spawned`. The weak exchange may fail for no reason. -/
def tryIncrementTurn (maxThreads totalCount current : ℕ) (spurious : Bool) : Attempt :=
  if maxThreads ≤ current then .refused
  else if totalCount = current ∧ spurious = false then .incremented (current + 1)
  else .retry totalCount

def liveCount : ℕ := countWhere isLive agents.agentTree

variable (agents : ActiveAgents)

theorem length_liveAgents : (liveAgents agents).length = liveCount agents := by
  rw [liveAgents, ← List.countP_eq_length_filter, List.countP_map]
  rfl

theorem liveCount_reserveAgentPath (h : reserveAgentPath ags ap = .ok ags') :
    ags.agentTree.lookup ap.path = none ∧ ags'.agentTree =
        ags.agentTree.insert ap.path ⟨none, some ap, none⟩ ∧ liveCount ags' = liveCount ags := by
  rw [reserveAgentPath] at h
  cases hl : ags.agentTree.lookup ap.path with rw [hl] at h
  | some m => cases h
  | none =>
    cases h
    have hc := countWhere_insert isLive ags.agentTree ap.path ⟨none, some ap, none⟩
    rw [hl] at hc
    exact ⟨rfl, rfl, hc⟩

theorem liveCount_releaseReservedAgentPath (ap : AgentPath) :
    liveCount (releaseReservedAgentPath agents ap) = liveCount agents := by
  rw [releaseReservedAgentPath]
  split
  · rename_i ha
    have hc := countWhere_erase isLive agents.agentTree ap.path
    have hw : weight isLive (agents.agentTree.lookup ap.path) = 0 := by
      cases hl : agents.agentTree.lookup ap.path with
      | none => rfl
      | some m =>
        rw [hl, Option.any_some] at ha
        simp [weight, isLive, ha]
    rwa [hw] at hc
  · rfl

theorem liveCount_registerRootThread (ti : ThreadId) :
    liveCount (registerRootThread agents ti) = liveCount agents := by
  rw [registerRootThread]
  cases hl : agents.agentTree.lookup rootPath with
  | some m => rfl
  | none =>
    have hc := countWhere_insert isLive agents.agentTree rootPath
      ⟨some ti, some AgentPath.root, none⟩
    rwa [hl] at hc

variable (ags : ActiveAgents)

theorem agentTree_reserveAgentNickname (ns : List Str)
    (p : Option Str) (c : ℕ) : (reserveAgentNickname ags ns p c).1.agentTree = ags.agentTree := by
  cases p with
  | some n => rfl
  | none =>
    rw [reserveAgentNickname]
    by_cases hn : ns = []
    · rw [if_pos hn]
    · rw [if_neg hn]
      dsimp only
      split
      · rfl
      · split <;> rfl

theorem agentTree_registerSpawnedThread (h : metadata.agentId = some ti) :
    (registerSpawnedThread ags metadata).agentTree =
      ags.agentTree.insert (agentKey ti metadata.agentPath) metadata := by
  rw [registerSpawnedThread, h]

theorem removeThread_spec (o : List Str) (ti : ThreadId) :
    removeThread ags o ti = (ags, false) ∨ ∃ key m, ags.agentTree.lookup key = some m ∧
        m.agentId = some ti ∧
        removeThread ags o ti = ({ ags with agentTree := ags.agentTree.erase key }, isLive m) := by
  rw [removeThread]
  cases hf : findThread ags o ti with
  | none => exact .inl rfl
  | some key =>
    have ha := List.find?_some hf
    cases hl : ags.agentTree.lookup key with
    | none =>
      rw [hl] at ha
      cases ha
    | some m =>
      rw [hl, Option.any_some, beq_iff_eq] at ha
      refine .inr ⟨key, m, hl, ha, ?_⟩
      simp [hl, isLive, ha]

theorem liveCount_removeThread (o : List Str) (ti : ThreadId) :
    liveCount (removeThread agents o ti).1 +
      (if (removeThread agents o ti).2 then 1 else 0) = liveCount agents := by
  obtain heq | ⟨key, m, hl, -, heq⟩ := removeThread_spec agents o ti
  · rw [heq]
    rfl
  · have hc := countWhere_erase isLive agents.agentTree key
    rw [hl] at hc
    rw [heq]
    exact hc

theorem path_ne_threadKey (ap : AgentPath) (threadId : ThreadId) :
    ap.path ≠ threadKey threadId := by
  intro heq
  have hh := ap.head?_path
  have ht : (threadKey threadId).head? = some 't' := rfl
  rw [heq, ht] at hh
  cases hh

theorem threadKey_injective (h : threadKey ti = threadKey ti') : ti = ti' :=
  List.append_cancel_left h

end Agents
