import CodexTeams.ExecApproval
import CodexTeams.PatternSearch
import CodexTeams.ThreadList

/-! The metadata of a thread, kept in two ways: a live thread turns appended items into patches,
which wait until the store has taken them, and a replay folds the items into a record. -/
namespace MetadataSync

open RustStr List
open ExecApproval (AskForApproval)
open ThreadList (SessionSource)

/-- How patches are merged and applied. A field that a patch has replaces the one before. -/
structure PatchRules (P M : Type*) where
  merge : P → P → P
  apply : P → M → M
  apply_merge : ∀ p q m, apply (merge p q) m = apply q (apply p m)
  apply_self : ∀ p m, apply p (apply p m) = apply p m

/-- The update that waits for the store, and the number of merges into it. -/
structure Pending (P : Type*) where
  update : Option P
  generation : ℕ
  deriving Repr

structure PendingPatch (P : Type*) where
  patch : P
  generation : ℕ
  deriving DecidableEq, Repr

section

variable {P M : Type*} (rules : PatchRules P M)

def Pending.merge (update : P) (s : Pending P) : Pending P :=
  ⟨some (s.update.elim update (rules.merge · update)), (s.generation + 1) % 0x10000000000000000⟩

def Pending.take (s : Pending P) : Option (PendingPatch P) :=
  s.update.map (⟨·, s.generation⟩)

def Pending.applied (taken : PendingPatch P) (s : Pending P) : Pending P :=
  if s.generation = taken.generation then { s with update := none } else s

end

inductive ReasoningEffort
  | none
  | minimal
  | low
  | medium
  | high
  | xhigh
  deriving DecidableEq, Repr

structure UserMessageEvent where
  message : Str
  images : Option (List Str)
  localImages : List Str
  deriving Repr

structure SessionMeta where
  id : ℕ
  source : SessionSource
  agentNickname : Option Str
  agentRole : Option Str
  agentPath : Option Str

structure TurnContextItem where
  model : Str
  effort : Option ReasoningEffort
  approvalPolicy : AskForApproval

inductive EventMsg
  | userMessage (user : UserMessageEvent)
  | tokenCount (totalTokens : Option ℤ)
  | threadGoalUpdated (objective : Str)
  | other

inductive RolloutItem
  | sessionMeta (metaLine : SessionMeta)
  | turnContext (turnCtx : TurnContextItem)
  | eventMsg (event : EventMsg)
  | responseItem
  | compacted

def userMessageBegin : Str := "## My request for Codex:"

def imageOnlyUserMessagePlaceholder : Str := "[Image]"

def stripUserMessagePrefix (text : Str) : Str :=
  match PatternSearch.find userMessageBegin text with
  | some idx => trim (text.drop (idx + userMessageBegin.length))
  | none => trim text

def userMessagePreview (user : UserMessageEvent) : Option Str :=
  let message := stripUserMessagePrefix user.message
  if message ≠ [] then some message
  else if user.images.any (· ≠ []) || user.localImages ≠ [] then
    some imageOnlyUserMessagePlaceholder
  else none

/-- The texts under which sources and approval modes are stored, and the agent path of a
source. -/
structure Codec where
  source : SessionSource → Str
  approval : AskForApproval → Str
  agentPath : SessionSource → Option Str

variable (codec : Codec) (threadId : ℕ)

structure ThreadMetadata where
  id : ℕ
  source : Str
  agentNickname : Option Str
  agentRole : Option Str
  agentPath : Option Str
  model : Option Str
  reasoningEffort : Option ReasoningEffort
  title : Str
  preview : Option Str
  approvalMode : Str
  tokensUsed : ℤ
  firstUserMessage : Option Str

def build (source : SessionSource) (agentNickname agentRole agentPath : Option Str) :
    ThreadMetadata where
  id := threadId
  source := codec.source source
  agentNickname := agentNickname
  agentRole := agentRole
  agentPath := agentPath.or (codec.agentPath source)
  model := none
  reasoningEffort := none
  title := []
  preview := none
  approvalMode := codec.approval .onRequest
  tokensUsed := 0
  firstUserMessage := none

def fresh : ThreadMetadata := build codec threadId .unknown none none none

variable (m : ThreadMetadata)

def setPreviewIfEmpty (preview : Option Str) : ThreadMetadata :=
  { m with preview := m.preview.or preview }

def applyEventMsg : EventMsg → ThreadMetadata
  | .tokenCount (some totalTokens) => { m with tokensUsed := max totalTokens 0 }
  | .userMessage user =>
    { setPreviewIfEmpty m (userMessagePreview user) with
      firstUserMessage := m.firstUserMessage.or (userMessagePreview user)
      title := if m.title = [] then stripUserMessagePrefix user.message else m.title }
  | .threadGoalUpdated objective =>
    if trim objective ≠ [] then setPreviewIfEmpty m (some (trim objective)) else m
  | .tokenCount none | .other => m

def applyRolloutItem : RolloutItem → ThreadMetadata
  | .sessionMeta metaLine =>
    if m.id ≠ metaLine.id then m
    else { m with
      source := codec.source metaLine.source, agentNickname := metaLine.agentNickname
      agentRole := metaLine.agentRole, agentPath := metaLine.agentPath }
  | .turnContext turnCtx => { m with
      model := some turnCtx.model, reasoningEffort := turnCtx.effort
      approvalMode := codec.approval turnCtx.approvalPolicy }
  | .eventMsg event => applyEventMsg m event
  | .responseItem | .compacted => m

structure ThreadMetadataPatch where
  preview : Option Str := none
  title : Option Str := none
  model : Option Str := none
  reasoningEffort : Option ReasoningEffort := none
  updatedAt : Option ℕ := none
  source : Option SessionSource := none
  agentNickname : Option (Option Str) := none
  agentRole : Option (Option Str) := none
  agentPath : Option (Option Str) := none
  approvalMode : Option AskForApproval := none
  tokenUsage : Option ℤ := none
  firstUserMessage : Option Str := none
  deriving DecidableEq

def ThreadMetadataPatch.merge (p next : ThreadMetadataPatch) : ThreadMetadataPatch where
  preview := next.preview.or p.preview
  title := next.title.or p.title
  model := next.model.or p.model
  reasoningEffort := next.reasoningEffort.or p.reasoningEffort
  updatedAt := next.updatedAt.or p.updatedAt
  source := next.source.or p.source
  agentNickname := next.agentNickname.or p.agentNickname
  agentRole := next.agentRole.or p.agentRole
  agentPath := next.agentPath.or p.agentPath
  approvalMode := next.approvalMode.or p.approvalMode
  tokenUsage := next.tokenUsage.or p.tokenUsage
  firstUserMessage := next.firstUserMessage.or p.firstUserMessage

def ThreadMetadataPatch.apply (p : ThreadMetadataPatch) (m : ThreadMetadata) : ThreadMetadata where
  id := m.id
  preview := p.preview.or m.preview
  title := p.title.getD m.title
  model := p.model.or m.model
  reasoningEffort := p.reasoningEffort.or m.reasoningEffort
  source := (p.source.map codec.source).getD m.source
  agentNickname := p.agentNickname.getD m.agentNickname
  agentRole := p.agentRole.getD m.agentRole
  agentPath := p.agentPath.getD m.agentPath
  approvalMode := (p.approvalMode.map codec.approval).getD m.approvalMode
  tokensUsed := (p.tokenUsage.map (max · 0)).getD m.tokensUsed
  firstUserMessage := p.firstUserMessage.or m.firstUserMessage

/-- A record that does not exist yet is built from the patch. -/
def applyMetadataUpdate (existing : Option ThreadMetadata)
    (p : ThreadMetadataPatch) : ThreadMetadata :=
  p.apply codec (existing.getD (build codec threadId (p.source.getD .unknown)
    p.agentNickname.join p.agentRole.join p.agentPath.join))

theorem getD_twice (o : Option α) (a : α) : o.getD (o.getD a) = o.getD a := by
  cases o <;> rfl

def rules : PatchRules ThreadMetadataPatch ThreadMetadata where
  merge := ThreadMetadataPatch.merge
  apply := ThreadMetadataPatch.apply codec
  apply_merge p q m := by
    simp [ThreadMetadataPatch.apply, ThreadMetadataPatch.merge, Option.or_assoc, Option.map_or]
  apply_self p m := by
    simp [ThreadMetadataPatch.apply, ← Option.or_assoc, getD_twice]

structure Seen where
  threadId : ℕ
  previewSeen : Bool
  firstUserMessageSeen : Bool
  titleSeen : Bool

structure ThreadMetadataSync extends
    Pending ThreadMetadataPatch, Seen where
  lastTouchPersistedAt : Option ℕ

def ThreadMetadataSync.new : ThreadMetadataSync where
  update := none
  generation := 0
  threadId := threadId
  previewSeen := false
  firstUserMessageSeen := false
  titleSeen := false
  lastTouchPersistedAt := none

def rolloutItemAffectsThreadMetadata : RolloutItem → Bool
  | .sessionMeta _ | .turnContext _ => true
  | .eventMsg (.tokenCount _) | .eventMsg (.userMessage _) => true
  | .eventMsg (.threadGoalUpdated _) => true
  | .eventMsg .other | .responseItem | .compacted => false

abbrev Observation := Seen × ThreadMetadataPatch

namespace Observation

variable (text : Str) (o : Observation)

def setFirstUserMessage : Observation :=
  if o.1.firstUserMessageSeen then o
  else ({ o.1 with firstUserMessageSeen := true }, { o.2 with firstUserMessage := some text })

def setPreview : Observation :=
  if o.1.previewSeen then o
  else ({ o.1 with previewSeen := true }, { o.2 with preview := some text })

def setTitle : Observation :=
  if o.1.titleSeen || text = [] then o
  else ({ o.1 with titleSeen := true }, { o.2 with title := some text })

end Observation

variable (o : Observation)

def observeEventMsg : EventMsg → Observation
  | .userMessage user =>
    ((userMessagePreview user).elim o fun preview =>
      (o.setFirstUserMessage preview).setPreview preview).setTitle
        (stripUserMessagePrefix user.message)
  | .tokenCount (some totalTokens) => (o.1, { o.2 with tokenUsage := some totalTokens })
  | .threadGoalUpdated objective =>
    if trim objective ≠ [] then o.setPreview (trim objective) else o
  | .tokenCount none | .other => o

def observeItem : Observation → RolloutItem → Observation
  | (s, u), .sessionMeta metaLine =>
    if metaLine.id = s.threadId then
      (s, { u with
        source := some metaLine.source, agentNickname := some metaLine.agentNickname
        agentRole := some metaLine.agentRole, agentPath := some metaLine.agentPath })
    else (s, u)
  | (s, u), .turnContext turnCtx =>
    (s, { u with
      model := some turnCtx.model, reasoningEffort := turnCtx.effort
      approvalMode := some turnCtx.approvalPolicy })
  | o, .eventMsg event => observeEventMsg o event
  | o, .responseItem | o, .compacted => o

variable (now : ℕ) (items : List RolloutItem)

/-- The patch of a batch: a touch, with what the items tell when one of them affects it. -/
def observeItems (s : Seen) : Observation :=
  if items.any rolloutItemAffectsThreadMetadata then
    items.foldl observeItem (s, { updatedAt := some now })
  else (s, { updatedAt := some now })

def updateHasMetadataFacts (u : ThreadMetadataPatch) : Bool :=
  u.preview.isSome || u.title.isSome || u.model.isSome || u.reasoningEffort.isSome ||
    u.source.isSome || u.agentNickname.isSome || u.agentRole.isSome || u.agentPath.isSome ||
    u.approvalMode.isSome || u.tokenUsage.isSome || u.firstUserMessage.isSome

/-- In milliseconds. -/
def threadUpdatedAtTouchInterval : ℕ := 5000

def observeAppendedItems (s : ThreadMetadataSync) :
    ThreadMetadataSync × Option (PendingPatch ThreadMetadataPatch) :=
  let (seen, u) := observeItems now items s.toSeen
  let s := { s with toPending := s.toPending.merge (rules codec) u, toSeen := seen }
  if !items.any rolloutItemAffectsThreadMetadata && !s.update.any updateHasMetadataFacts &&
      s.lastTouchPersistedAt.any (now - · < threadUpdatedAtTouchInterval) then (s, none)
  else (s, s.take)

def markPendingUpdateApplied (taken : PendingPatch ThreadMetadataPatch)
    (s : ThreadMetadataSync) : ThreadMetadataSync :=
  { s with
    toPending := s.toPending.applied taken
    lastTouchPersistedAt :=
      if taken.patch.updatedAt.isSome then some now else s.lastTouchPersistedAt }

structure LiveThread where
  metadataSync : ThreadMetadataSync
  stored : Option ThreadMetadata

def LiveThread.updateMetadata (succeeds : Bool) (t : LiveThread)
    (taken : PendingPatch ThreadMetadataPatch) : LiveThread :=
  if succeeds then
    ⟨markPendingUpdateApplied now taken t.metadataSync,
      some (applyMetadataUpdate codec threadId t.stored taken.patch)⟩
  else t

/-- One call of append_items: when it comes, its items, and whether the store takes the update. -/
structure Append where
  now : ℕ
  items : List RolloutItem
  succeeds : Bool

variable (t : LiveThread)

def LiveThread.appendItems (a : Append) : LiveThread :=
  if a.items = [] then t
  else
    let (s, taken) := observeAppendedItems codec a.now a.items t.metadataSync
    taken.elim { t with metadataSync := s }
      (updateMetadata codec threadId a.now a.succeeds { t with metadataSync := s })

def LiveThread.flush : LiveThread :=
  t.metadataSync.take.elim t (t.updateMetadata codec threadId now true)

def LiveThread.new : LiveThread := ⟨.new threadId, none⟩

/-- The record as it is once the pending update is stored. -/
def LiveThread.record : ThreadMetadata :=
  t.metadataSync.update.elim id (·.apply codec) (t.stored.getD (fresh codec threadId))

variable {codec threadId}

/-- A patch that has a source has an agent path too, so that the record it creates is new in
everything else. -/
def ThreadMetadataPatch.Paired (p : ThreadMetadataPatch) : Prop :=
  p.agentPath = none → p.source = none

theorem applyMetadataUpdate_eq (ex : Option ThreadMetadata) (hp : p.Paired) :
    applyMetadataUpdate c ti ex p = p.apply c (ex.getD (fresh c ti)) := by
  cases ex with
  | some m => rfl
  | none =>
    have hj : ∀ o : Option (Option Str), o.getD o.join = o.getD none := by
      rintro (_ | _) <;> rfl
    cases ha : p.agentPath with
    | none => simp [applyMetadataUpdate, ThreadMetadataPatch.apply, build, fresh, ha, hp ha, hj]
    | some ap =>
      cases hs : p.source <;>
        simp [applyMetadataUpdate, ThreadMetadataPatch.apply, build, fresh, ha, hs, hj]

/-- The replayed record is the one of the patch, up to the effort, and the sync has seen what
the record has. -/
structure Tracks (codec : Codec) (m : ThreadMetadata)
    (o : Observation) (r : ThreadMetadata) : Prop where
  record : r = { o.2.apply codec m with reasoningEffort := r.reasoningEffort }
  id : r.id = o.1.threadId
  preview : o.1.previewSeen = r.preview.isSome
  first : o.1.firstUserMessageSeen = r.firstUserMessage.isSome
  title : o.1.titleSeen = !r.title.isEmpty
  paired : o.2.Paired

namespace Tracks

variable {m r : ThreadMetadata} {o : Observation} (h : Tracks c m o r)

include h

variable (tx : Str)

theorem setFirstUserMessage : Tracks c m (o.setFirstUserMessage tx)
      { r with firstUserMessage := r.firstUserMessage.or (some tx) } := by
  unfold Observation.setFirstUserMessage
  cases hv : r.firstUserMessage with
  | some first => simpa [h.first, hv] using hv ▸ h
  | none =>
    simp only [h.first, hv]
    refine { h with record := ?_, first := rfl }
    rw [h.record]
    simp [ThreadMetadataPatch.apply]

theorem setPreview : Tracks c m (o.setPreview tx) (setPreviewIfEmpty r (some tx)) := by
  unfold Observation.setPreview setPreviewIfEmpty
  cases hv : r.preview with
  | some p => simpa [h.preview, hv] using hv ▸ h
  | none =>
    simp only [h.preview, hv]
    refine { h with record := ?_, preview := rfl }
    rw [h.record]
    simp [ThreadMetadataPatch.apply]

theorem setTitle : Tracks c m (o.setTitle tx)
      { r with title := if r.title = [] then tx else r.title } := by
  unfold Observation.setTitle
  by_cases hn : r.title = [] ∧ tx ≠ []
  · rw [if_pos hn.1, if_neg (by simp [h.title, hn])]
    refine { h with record := ?_, title := by simp [hn.2] }
    rw [h.record]
    simp [ThreadMetadataPatch.apply]
  · have ht : (if r.title = [] then tx else r.title) = r.title := by
      split <;> simp_all
    rw [if_pos (by simpa [h.title, or_iff_not_imp_left] using hn), ht]
    exact h

theorem observeEventMsg (ev : EventMsg) :
    Tracks c m (MetadataSync.observeEventMsg o ev) (applyEventMsg r ev) := by
  cases ev with
  | other => exact h
  | tokenCount tts =>
    cases tts with
    | none => exact h
    | some n =>
      refine { h with record := ?_ }
      rw [h.record]
      simp [ThreadMetadataPatch.apply, MetadataSync.observeEventMsg, applyEventMsg]
  | threadGoalUpdated ob =>
    simp only [applyEventMsg, MetadataSync.observeEventMsg]
    split
    · exact h.setPreview _
    · exact h
  | userMessage u =>
    simp only [applyEventMsg, MetadataSync.observeEventMsg]
    cases userMessagePreview u with
    | some p => exact ((h.setFirstUserMessage p).setPreview p).setTitle _
    | none => simpa [setPreviewIfEmpty] using h.setTitle _

theorem observeItem (i : RolloutItem) :
    Tracks c m (MetadataSync.observeItem o i) (applyRolloutItem c r i) := by
  cases i with
  | responseItem | compacted => exact h
  | eventMsg event => exact h.observeEventMsg event
  | turnContext tc =>
    refine { h with record := ?_ }
    simp only [applyRolloutItem, MetadataSync.observeItem]
    rw [h.record]
    simp [ThreadMetadataPatch.apply]
  | sessionMeta ml =>
    simp only [applyRolloutItem, MetadataSync.observeItem]
    by_cases hm : ml.id = o.1.threadId
    · rw [if_pos hm, if_neg (by simp [h.id, hm])]
      refine { h with record := ?_, paired := by simp [ThreadMetadataPatch.Paired] }
      rw [h.record]
      simp [ThreadMetadataPatch.apply]
    · rw [if_neg hm, if_pos (by simpa [h.id] using Ne.symm hm)]
      exact h

theorem foldl (its : List RolloutItem) :
    Tracks c m (its.foldl MetadataSync.observeItem o) (its.foldl (applyRolloutItem c) r) := by
  induction its generalizing o r with
  | nil => exact h
  | cons i its ih => exact ih (h.observeItem i)

end Tracks

theorem observeItem_of_unaffecting (h : rolloutItemAffectsThreadMetadata i = false)
    (o : Observation) : observeItem o i = o := by
  rcases i with _ | _ | (_ | _ | _ | _) | _ | _ <;>
    first | rfl | simp [rolloutItemAffectsThreadMetadata] at h

theorem observeItems_eq (its : List RolloutItem) (s : Seen) :
    observeItems now its s = its.foldl observeItem (s, { updatedAt := some now }) := by
  unfold observeItems
  split
  · rfl
  · next ha =>
    induction its with
    | nil => rfl
    | cons i its ih =>
      have ha : rolloutItemAffectsThreadMetadata i = false ∧
        its.any rolloutItemAffectsThreadMetadata = false := by simpa using ha
      rw [foldl_cons, observeItem_of_unaffecting ha.1, ← ih (by simp [ha.2])]

def effort? : RolloutItem → Option (Option ReasoningEffort)
  | .turnContext turnCtx => some turnCtx.effort
  | _ => none

def lastEffort : Option (Option ReasoningEffort) :=
  (items.filterMap effort?).getLast?

theorem lastEffort_append (its its' : List RolloutItem) :
    lastEffort (its ++ its') = (lastEffort its').or (lastEffort its) := by
  simp [lastEffort]

theorem foldl_effort (f : α → Option ReasoningEffort)
    (h : ∀ a i, f (step a i) = (effort? i).getD (f a)) (its : List RolloutItem) (a : α) :
    f (its.foldl step a) = (lastEffort its).getD (f a) := by
  induction its generalizing a with
  | nil => rfl
  | cons i its ih =>
    rw [foldl_cons, ih, h]
    cases i <;> simp [lastEffort]

theorem effort_observeEventMsg (ev : EventMsg) :
    (observeEventMsg o ev).2.reasoningEffort = o.2.reasoningEffort := by
  have hf (o : Observation) (text : Str) :
      (o.setFirstUserMessage text).2.reasoningEffort = o.2.reasoningEffort := by
    unfold Observation.setFirstUserMessage
    split <;> rfl
  have hp (o : Observation) (text : Str) :
      (o.setPreview text).2.reasoningEffort = o.2.reasoningEffort := by
    unfold Observation.setPreview
    split <;> rfl
  have ht (o : Observation) (text : Str) :
      (o.setTitle text).2.reasoningEffort = o.2.reasoningEffort := by
    unfold Observation.setTitle
    split <;> rfl
  cases ev with
  | other => rfl
  | tokenCount tts => cases tts <;> rfl
  | threadGoalUpdated ob =>
    simp only [observeEventMsg]
    split
    · exact hp o _
    · rfl
  | userMessage u =>
    simp only [observeEventMsg, ht]
    cases userMessagePreview u with
    | none => rfl
    | some p => exact (hp _ _).trans (hf _ _)

variable (i : RolloutItem)

theorem effort_observeItem :
    (observeItem o i).2.reasoningEffort = (effort? i).getD o.2.reasoningEffort := by
  cases i with
  | turnContext | responseItem | compacted => rfl
  | eventMsg event => exact effort_observeEventMsg o event
  | sessionMeta ml =>
    simp only [observeItem]
    split <;> rfl

theorem effort_applyRolloutItem :
    (applyRolloutItem c m i).reasoningEffort = (effort? i).getD m.reasoningEffort := by
  rcases i with _ | _ | (_ | (_ | _) | _ | _) | _ | _ <;> try rfl
  all_goals
    simp only [applyRolloutItem, applyEventMsg]
    split <;> rfl

namespace LiveThread

variable {t : LiveThread}

theorem record_updateMetadata (now : ℕ) (ss : Bool) (ht : t.metadataSync.take = some tk)
    (hp : tk.patch.Paired) : (t.updateMetadata c ti now ss tk).record c ti = t.record c ti := by
  obtain ⟨p, hu, rfl⟩ := Option.map_eq_some_iff.1 ht
  cases ss with
  | false => rfl
  | true =>
    simp [updateMetadata, record, markPendingUpdateApplied, Pending.applied, hu,
      applyMetadataUpdate_eq _ hp]

theorem seen_updateMetadata (now : ℕ) (ss : Bool) (tk : PendingPatch ThreadMetadataPatch) :
    (t.updateMetadata c ti now ss tk).metadataSync.toSeen = t.metadataSync.toSeen := by
  cases ss <;> rfl

/-- Up to the effort, the live thread has the replayed record. -/
structure Agrees (codec : Codec) (threadId : ℕ) (t : LiveThread)
    (r : ThreadMetadata) (effort : Option ReasoningEffort) : Prop where
  effort_eq : (t.record codec threadId).reasoningEffort = effort
  tracks : Tracks codec (t.record codec threadId) (t.metadataSync.toSeen, {}) r
  paired : ∀ p ∈ t.metadataSync.update, p.Paired

theorem Agrees.updateMetadata (h : Agrees c ti t r e) (now : ℕ) (ss : Bool)
    (ht : t.metadataSync.take = some tk) : Agrees c ti (t.updateMetadata c ti now ss tk) r e := by
  obtain ⟨p, hu, rfl⟩ := Option.map_eq_some_iff.1 ht
  refine ⟨?_, ?_, ?_⟩
  · rw [record_updateMetadata now ss ht (h.paired p hu)]
    exact h.effort_eq
  · rw [record_updateMetadata now ss ht (h.paired p hu), seen_updateMetadata]
    exact h.tracks
  · cases ss with
    | false => exact h.paired
    | true => simp [LiveThread.updateMetadata, markPendingUpdateApplied, Pending.applied]

theorem Agrees.observe (h : Agrees c ti t r e) (now : ℕ) (items : List RolloutItem) : Agrees c ti
      { t with metadataSync := (observeAppendedItems c now items t.metadataSync).1 }
      (items.foldl (applyRolloutItem c) r) ((lastEffort items).join.or e) := by
  have hs : Tracks c (t.record c ti)
      (t.metadataSync.toSeen, { updatedAt := some now }) r := ⟨h.tracks.record, h.tracks.id,
    h.tracks.preview, h.tracks.first, h.tracks.title, fun _ => rfl⟩
  have ho := hs.foldl items
  have he := foldl_effort (fun o : Observation => o.2.reasoningEffort)
    effort_observeItem items (t.metadataSync.toSeen, { updatedAt := some now })
  rw [← observeItems_eq] at ho he
  generalize hg : observeItems now items t.metadataSync.toSeen = o at ho he
  have hf : (observeAppendedItems c now items t.metadataSync).1 = { t.metadataSync with
      toPending := t.metadataSync.toPending.merge (rules c) o.2, toSeen := o.1 } := by
    unfold observeAppendedItems
    rw [hg]
    dsimp only
    split <;> rfl
  have hr : record c ti { t with metadataSync := { t.metadataSync with
      toPending := t.metadataSync.toPending.merge (rules c) o.2, toSeen := o.1 } } =
      o.2.apply c (t.record c ti) := by
    unfold record Pending.merge
    cases t.metadataSync.update with
    | none => rfl
    | some p => exact (rules c).apply_merge p o.2 _
  rw [hf]
  refine ⟨?_, ?_, ?_⟩
  · rw [hr, ← h.effort_eq]
    cases hl : lastEffort items <;> simp [ThreadMetadataPatch.apply, he, hl]
  · rw [hr]
    refine { ho with record := ?_, paired := fun _ => rfl }
    simpa [ThreadMetadataPatch.apply] using ho.record
  · have hp := h.paired
    unfold Pending.merge
    cases hu : t.metadataSync.update with
    | none => simpa [hu] using ho.paired
    | some p =>
      have hp := hp p hu
      have hq := ho.paired
      simp only [ThreadMetadataPatch.Paired] at hp hq
      simp +contextual [rules, ThreadMetadataPatch.merge, ThreadMetadataPatch.Paired, hp, hq]

theorem Agrees.appendItems (h : Agrees c ti t r e) (a : Append) : Agrees c ti (t.appendItems c ti a)
      (a.items.foldl (applyRolloutItem c) r) ((lastEffort a.items).join.or e) := by
  unfold LiveThread.appendItems
  split
  · next hn => simpa [hn, lastEffort] using h
  · have ho := h.observe a.now a.items
    have ht : ∀ taken ∈ (observeAppendedItems c a.now a.items t.metadataSync).2,
        (observeAppendedItems c a.now a.items t.metadataSync).1.take = some taken := by
      unfold observeAppendedItems
      dsimp only
      split
      · simp
      · exact fun _ h => h
    dsimp only
    cases hk : (observeAppendedItems c a.now a.items t.metadataSync).2 with
    | none => exact ho
    | some taken => exact ho.updateMetadata a.now a.succeeds (ht taken hk)

theorem stored_flush (hp : ∀ p ∈ t.metadataSync.update, p.Paired) (now : ℕ) :
    (t.flush c ti now).stored.getD (fresh c ti) = t.record c ti := by
  cases hu : t.metadataSync.update with
  | none => simp [flush, record, Pending.take, hu]
  | some p =>
    simp [flush, record, Pending.take, hu, updateMetadata, applyMetadataUpdate_eq _ (hp p hu)]

end LiveThread

theorem agrees_new (c : Codec) (ti : ℕ) : LiveThread.Agrees c ti (.new ti) (fresh c ti) none :=
  ⟨rfl, ⟨rfl, rfl, rfl, rfl, rfl, fun _ => rfl⟩, by simp [LiveThread.new, ThreadMetadataSync.new]⟩

def replay (codec : Codec) (threadId : ℕ) (items : List RolloutItem) : ThreadMetadata :=
  items.foldl (applyRolloutItem codec) (fresh codec threadId)

variable (batches : List (List RolloutItem))

/-- The effort that patches leave: a batch whose last turn context has none changes nothing. -/
def patchedEffort : Option ReasoningEffort :=
  batches.foldl (fun e items => (lastEffort items).join.or e) none

/-- When the last turn context has no effort, no batch ends with one. -/
def EffortKept : Prop :=
  (lastEffort batches.flatten).join = none → ∀ items ∈ batches, (lastEffort items).join = none

theorem patchedEffort_eq_none :
    patchedEffort bs = none ↔ ∀ its ∈ bs, (lastEffort its).join = none := by
  induction bs using List.reverseRecOn with
  | nil => simp [patchedEffort]
  | append_singleton bs its ih =>
    rw [patchedEffort] at ih ⊢
    simp [ih, or_imp, forall_and, and_comm]

theorem patchedEffort_eq_some (h : lastEffort bs.flatten = some (some e)) :
    patchedEffort bs = some e := by
  induction bs using List.reverseRecOn with
  | nil => simp [lastEffort] at h
  | append_singleton bs items ih =>
    rw [patchedEffort] at ih ⊢
    rw [flatten_append, flatten_singleton, lastEffort_append] at h
    cases hl : lastEffort items with
    | none => simpa [hl] using ih (by simpa [hl] using h)
    | some l =>
      rw [hl, Option.some_or] at h
      simp [hl, h]

theorem patchedEffort_eq_iff :
    patchedEffort batches = (lastEffort batches.flatten).join ↔ EffortKept batches := by
  unfold EffortKept
  rw [← patchedEffort_eq_none]
  constructor
  · exact fun h hn => h.trans hn
  · intro h
    cases hj : (lastEffort batches.flatten).join with
    | none => exact h hj
    | some e => exact patchedEffort_eq_some (Option.join_eq_some_iff.1 hj)

theorem agrees_foldl (c : Codec) (ti : ℕ) (aps : List (Append)) : LiveThread.Agrees c ti
      (aps.foldl (LiveThread.appendItems c ti) (.new ti))
      (replay c ti (aps.map (·.items)).flatten) (patchedEffort (aps.map (·.items))) := by
  induction aps using List.reverseRecOn with
  | nil => exact agrees_new c ti
  | append_singleton aps a ih =>
    simpa [replay, patchedEffort] using ih.appendItems a

/-- What a live thread has stored after its last flush is what a replay finds, whatever updates
failed before, exactly when no effort is taken back in a later batch. -/
theorem flushed_eq_replay_iff (codec : Codec) (threadId now : ℕ) (appends : List (Append)) :
    ((appends.foldl (LiveThread.appendItems codec threadId) (.new threadId)).flush codec threadId
      now).stored.getD (fresh codec threadId) =
        replay codec threadId (appends.map (·.items)).flatten ↔
      EffortKept (appends.map (·.items)) := by
  have hg := agrees_foldl codec threadId appends
  rw [LiveThread.stored_flush hg.paired, ← patchedEffort_eq_iff, ← hg.effort_eq]
  have he : (replay codec threadId (appends.map (·.items)).flatten).reasoningEffort =
      (lastEffort (appends.map (·.items)).flatten).join := by
    rw [replay, foldl_effort ThreadMetadata.reasoningEffort fun m i =>
      effort_applyRolloutItem m i]
    cases lastEffort (appends.map (·.items)).flatten <;> rfl
  rw [← he]
  constructor
  · exact congrArg _
  · intro h
    rw [hg.tracks.record, ← h]
    rfl

/-- A turn with high effort, and one without an effort in the next batch: the live thread keeps
the high effort, the replay has none. -/
theorem taken_back_effort_kept :
    let turn effort : RolloutItem := .turnContext ⟨['m'], effort, .never⟩
    let aps : List Append := [⟨0, [turn (some .high)], true⟩, ⟨1, [turn none], true⟩]
    let codec : Codec := ⟨fun _ => [], fun _ => [], fun _ => none⟩
    (((aps.foldl (LiveThread.appendItems codec 0) (.new 0)).flush codec 0 2).stored.map
        (·.reasoningEffort)) = some (some .high) ∧
      (replay codec 0 (aps.map (·.items)).flatten).reasoningEffort = none := by
  decide

end MetadataSync
