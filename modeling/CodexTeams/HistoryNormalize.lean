import CodexTeams.CallPairing
import CodexTeams.ResponseItems

/-! Normalising the conversation history before it is sent to the model: calls without an output get
one, outputs without a call are dropped, and images are replaced by a note when the model cannot
read them. -/
namespace HistoryNormalize

open RustStr ResponseItems CallPairing List Scheme

/-- What is reported on the way; error_or_panic only logs in a release build. -/
inductive Log
  | info (message : Str)
  | error (message : Str)
  deriving Repr

def imageContentOmittedPlaceholder : Str :=
  "image content omitted because you do not support image input"

def aborted : FunctionCallOutputPayload := .fromText "aborted"

def isFunctionCallOutput (callId : Str) : ResponseItem → Bool
  | .functionCallOutput existing _ => existing == callId
  | _ => false

def isToolSearchOutput (callId : Str) : ResponseItem → Bool
  | .toolSearchOutput (some existing) _ _ _ => existing == callId
  | _ => false

def isCustomToolCallOutput (callId : Str) : ResponseItem → Bool
  | .customToolCallOutput existing _ _ => existing == callId
  | _ => false

section

variable (items : List ResponseItem)

def missingOutput : ResponseItem → Option (Log × ResponseItem)
  | .functionCall _ _ _ _ callId =>
    if items.any (isFunctionCallOutput callId) then none
    else some (.info ("Function call output is missing for call id: " ++ callId),
      .functionCallOutput callId aborted)
  | .toolSearchCall _ (some callId) _ _ _ =>
    if items.any (isToolSearchOutput callId) then none
    else some (.info ("Tool search output is missing for call id: " ++ callId),
      .toolSearchOutput (some callId) "completed" "client" [])
  | .customToolCall _ _ callId _ _ =>
    if items.any (isCustomToolCallOutput callId) then none
    else some (.error ("Custom tool call output is missing for call id: " ++ callId),
      .customToolCallOutput callId none aborted)
  -- a local shell call is answered by a function call output
  | .localShellCall _ (some callId) _ _ =>
    if items.any (isFunctionCallOutput callId) then none
    else some (.error ("Local shell call output is missing for call id: " ++ callId),
      .functionCallOutput callId aborted)
  | _ => none

def ensureCallOutputsPresent : List Log × List ResponseItem :=
  let missing := items.zipIdx.filterMap fun entry =>
    (missingOutput items entry.1).map fun found => (entry.2, found)
  (missing.map fun entry => entry.2.1,
    insertBehind items (missing.map fun entry => (entry.1, entry.2.2)))

def functionCallIds : List Str :=
  items.filterMap fun
    | .functionCall _ _ _ _ callId => some callId
    | _ => none

def toolSearchCallIds : List Str :=
  items.filterMap fun
    | .toolSearchCall _ (some callId) _ _ _ => some callId
    | _ => none

def localShellCallIds : List Str :=
  items.filterMap fun
    | .localShellCall _ (some callId) _ _ => some callId
    | _ => none

def customToolCallIds : List Str :=
  items.filterMap fun
    | .customToolCall _ _ callId _ _ => some callId
    | _ => none

def orphanOutput : ResponseItem → Option Log
  | .functionCallOutput callId _ =>
    if (functionCallIds items).contains callId || (localShellCallIds items).contains callId
    then none else some (.error ("Orphan function call output for call id: " ++ callId))
  | .customToolCallOutput callId _ _ =>
    if (customToolCallIds items).contains callId then none
    else some (.error ("Orphan custom tool call output for call id: " ++ callId))
  | .toolSearchOutput callId _ execution _ =>
    if execution == "server" then none else
      match callId with
      | none => none
      | some callId =>
        if (toolSearchCallIds items).contains callId then none
        else some (.error ("Orphan tool search output for call id: " ++ callId))
  | _ => none

def removeOrphanOutputs : List Log × List ResponseItem :=
  (items.filterMap (orphanOutput items), items.filter fun item => (orphanOutput items item).isNone)

end

def stripContentItem : ContentItem → ContentItem
  | .inputImage _ _ => .inputText imageContentOmittedPlaceholder
  | item => item

def stripOutputContentItem : FunctionCallOutputContentItem → FunctionCallOutputContentItem
  | .inputImage _ _ => .inputText imageContentOmittedPlaceholder
  | item => item

def stripPayload (output : FunctionCallOutputPayload) : FunctionCallOutputPayload :=
  match output.body with
  | .text _ => output
  | .contentItems items => { output with body := .contentItems (items.map stripOutputContentItem) }

def stripItem : ResponseItem → ResponseItem
  | .message id role content phase => .message id role (content.map stripContentItem) phase
  | .functionCallOutput callId output => .functionCallOutput callId (stripPayload output)
  | .customToolCallOutput callId name output =>
    .customToolCallOutput callId name (stripPayload output)
  | .imageGenerationCall id status revisedPrompt _ =>
    .imageGenerationCall id status revisedPrompt []
  | item => item

section

variable (inputModalities : List InputModality) (items : List ResponseItem)

def stripImagesWhenUnsupported : List ResponseItem :=
  if inputModalities.contains .image then items else items.map stripItem

def normalizeHistory : List Log × List ResponseItem :=
  let ensured := ensureCallOutputsPresent items
  let retained := removeOrphanOutputs ensured.2
  (ensured.1 ++ retained.1, stripImagesWhenUnsupported inputModalities retained.2)

end

/-- The kinds of output; function and local shell calls have one in common. -/
inductive OutputKind
  | function
  | customTool
  | toolSearch
  deriving DecidableEq, Repr

def callKey : ResponseItem → Option (OutputKind × Str)
  | .functionCall _ _ _ _ callId => some (.function, callId)
  | .localShellCall _ (some callId) _ _ => some (.function, callId)
  | .customToolCall _ _ callId _ _ => some (.customTool, callId)
  | .toolSearchCall _ (some callId) _ _ _ => some (.toolSearch, callId)
  | _ => none

def outputKey : ResponseItem → Option (OutputKind × Str)
  | .functionCallOutput callId _ => some (.function, callId)
  | .customToolCallOutput callId _ _ => some (.customTool, callId)
  | .toolSearchOutput (some callId) _ _ _ => some (.toolSearch, callId)
  | _ => none

def madeByServer : ResponseItem → Bool
  | .toolSearchOutput _ _ execution _ => execution == "server"
  | _ => false

def abortedOutput : OutputKind × Str → ResponseItem
  | (.function, callId) => .functionCallOutput callId aborted
  | (.customTool, callId) => .customToolCallOutput callId none aborted
  | (.toolSearch, callId) =>
    .toolSearchOutput (some callId) "completed" "client" []

/-- Calls and outputs of a history as calls and answers under a kind and an id. -/
def historyScheme : Scheme ResponseItem (OutputKind × Str) where
  asks := callKey
  answers := outputKey
  exempt := madeByServer
  standIn := abortedOutput
  answers_standIn := by
    rintro ⟨kind, callId⟩
    cases kind <;> rfl
  asks_of_answers := by
    intro item key hkey
    cases item <;> first | rfl | cases hkey

theorem any_iff_answered (h : ∀ i, p i = true ↔ outputKey i = some key) (its : List ResponseItem) :
    its.any p = true ↔ historyScheme.Answered its key := by
  rw [any_eq_true]
  exact exists_congr fun i => and_congr_right fun _ => h i

theorem isFunctionCallOutput_iff (ci : Str) (i : ResponseItem) :
    isFunctionCallOutput ci i = true ↔ outputKey i = some (.function, ci) := by
  cases i with
  | toolSearchOutput e => cases e <;> simp [isFunctionCallOutput, outputKey]
  | _ => simp [isFunctionCallOutput, outputKey]

theorem isToolSearchOutput_iff (ci : Str) (i : ResponseItem) :
    isToolSearchOutput ci i = true ↔ outputKey i = some (.toolSearch, ci) := by
  cases i with
  | toolSearchOutput e => cases e <;> simp [isToolSearchOutput, outputKey]
  | _ => simp [isToolSearchOutput, outputKey]

theorem isCustomToolCallOutput_iff (ci : Str) (i : ResponseItem) :
    isCustomToolCallOutput ci i = true ↔ outputKey i = some (.customTool, ci) := by
  cases i with
  | toolSearchOutput e => cases e <;> simp [isCustomToolCallOutput, outputKey]
  | _ => simp [isCustomToolCallOutput, outputKey]

variable (items : List ResponseItem)

/-- The code looks for an output in each arm by itself; all arms follow the one scheme. -/
theorem missingOutput_snd (item : ResponseItem) :
    (missingOutput items item).map Prod.snd = historyScheme.missing items item := by
  have hf := fun ci => any_iff_answered (isFunctionCallOutput_iff ci) items
  have ht := fun ci => any_iff_answered (isToolSearchOutput_iff ci) items
  have hc := fun ci => any_iff_answered (isCustomToolCallOutput_iff ci) items
  cases item with
  | functionCall id n ns ars ci | customToolCall id s ci n input =>
    simp only [missingOutput, hf, hc]
    change _ = if _ then _ else _
    split <;> rfl
  | localShellCall id ci s a | toolSearchCall id ci s e ars =>
    cases ci with
    | none => rfl
    | some ci =>
      simp only [missingOutput, hf, ht]
      change _ = if _ then _ else _
      split <;> rfl
  | _ => rfl

theorem ensureCallOutputsPresent_snd :
    (ensureCallOutputsPresent items).2 = historyScheme.fill items := by
  have hi : (items.zipIdx.filterMap fun e =>
        (missingOutput items e.1).map fun f => (e.2, f)).map
          (fun e => (e.1, e.2.2)) =
      items.zipIdx.filterMap fun e =>
        (historyScheme.missing items e.1).map fun o => (e.2, o) := by
    rw [map_filterMap]
    refine filterMap_congr fun e _ => ?_
    rw [← missingOutput_snd, Option.map_map, Option.map_map]
    rfl
  unfold ensureCallOutputsPresent fill
  simp only [hi]
  exact insertBehind_eq_flatMap _ items

section

variable (its : List ResponseItem) (ci : Str)

theorem callIds_iff_asked :
    (((functionCallIds its).contains ci || (localShellCallIds its).contains ci) = true ↔
      historyScheme.Asked its (.function, ci)) ∧
    ((customToolCallIds its).contains ci = true ↔ historyScheme.Asked its (.customTool, ci)) ∧
    ((toolSearchCallIds its).contains ci = true ↔ historyScheme.Asked its (.toolSearch, ci)) := by
  simp only [Bool.or_eq_true, contains_iff_mem, functionCallIds, localShellCallIds,
    customToolCallIds, toolSearchCallIds, mem_filterMap, ← exists_or, ← and_or_left]
  refine ⟨?_, ?_, ?_⟩
  all_goals
    refine exists_congr fun i => and_congr_right fun _ => ?_
    cases i with
    | localShellCall id ci => cases ci <;> simp [historyScheme, callKey]
    | toolSearchCall id ci => cases ci <;> simp [historyScheme, callKey]
    | _ => simp [historyScheme, callKey]

end

theorem wanted_iff_asked (hs : madeByServer i = false) (hk : outputKey i = some key) :
    historyScheme.Wanted its i ↔ historyScheme.Asked its key := by
  constructor
  · rintro (hm | ha)
    · exact absurd (hs.symm.trans hm) Bool.false_ne_true
    · exact ha key hk
  · intro ha
    refine .inr fun key' hk' => ?_
    cases hk.symm.trans hk'
    exact ha

theorem wanted_client_iff {e : Str} (hc : (e == "server") = false) :
    historyScheme.Wanted its (.toolSearchOutput (some ci) s e ts) ↔
      historyScheme.Asked its (.toolSearch, ci) :=
  wanted_iff_asked hc rfl

theorem wanted_of_no_key (hk : outputKey item = none) : historyScheme.Wanted its item := by
  refine .inr fun key hk' => ?_
  cases hk.symm.trans hk'

private theorem ite_none_iff [Decidable c] (log : Log) :
    (if c then none else some log) = none ↔ c := by
  simp

theorem orphanOutput_eq_none_iff (its : List ResponseItem) (item : ResponseItem) :
    orphanOutput its item = none ↔ historyScheme.Wanted its item := by
  cases item with
  | functionCallOutput ci o =>
    rw [wanted_iff_asked rfl rfl, orphanOutput, ite_none_iff, (callIds_iff_asked ..).1]
  | customToolCallOutput ci n o =>
    rw [wanted_iff_asked rfl rfl, orphanOutput, ite_none_iff, (callIds_iff_asked ..).2.1]
  | toolSearchOutput ci s e ts =>
    by_cases hs : (e == "server") = true
    · simp only [orphanOutput, if_pos hs]
      exact iff_of_true trivial (.inl hs)
    · simp only [orphanOutput, if_neg hs]
      cases ci with
      | none => exact iff_of_true rfl (wanted_of_no_key rfl)
      | some ci =>
        rw [wanted_client_iff (Bool.eq_false_iff.mpr hs), ite_none_iff,
          (callIds_iff_asked ..).2.2]
  | _ => exact iff_of_true rfl (wanted_of_no_key rfl)

theorem removeOrphanOutputs_snd : (removeOrphanOutputs items).2 = historyScheme.prune items := by
  refine filter_congr fun i _ => ?_
  rw [Bool.eq_iff_iff, Option.isNone_iff_eq_none, orphanOutput_eq_none_iff, decide_eq_true_iff]

theorem stripContentItem_idem (item : ContentItem) :
    stripContentItem (stripContentItem item) = stripContentItem item := by
  cases item <;> rfl

theorem stripPayload_idem (output : FunctionCallOutputPayload) :
    stripPayload (stripPayload output) = stripPayload output := by
  have hi : ∀ item, stripOutputContentItem (stripOutputContentItem item) =
      stripOutputContentItem item := by
    intro item
    cases item <;> rfl
  obtain ⟨b, s⟩ := output
  cases b with
  | text c => rfl
  | contentItems items => simp [stripPayload, hi]

theorem stripItem_idem (item : ResponseItem) : stripItem (stripItem item) = stripItem item := by
  cases item with
  | message id r c p => simp [stripItem, stripContentItem_idem]
  | functionCallOutput ci o => simp [stripItem, stripPayload_idem]
  | customToolCallOutput ci n o => simp [stripItem, stripPayload_idem]
  | _ => rfl

def stripFor (inputModalities : List InputModality) (item : ResponseItem) : ResponseItem :=
  if inputModalities.contains .image then item else stripItem item

variable (ims : List InputModality)

section

variable (its : List ResponseItem)

theorem stripImagesWhenUnsupported_eq_map :
    stripImagesWhenUnsupported ims its = its.map (stripFor ims) := by
  unfold stripImagesWhenUnsupported stripFor
  split
  · exact (map_id' its).symm
  · rfl

variable (item : ResponseItem)

theorem stripFor_idem : stripFor ims (stripFor ims item) = stripFor ims item := by
  unfold stripFor
  split
  · rfl
  · exact stripItem_idem item

theorem stripFor_roles :
    callKey (stripFor ims item) = callKey item ∧ outputKey (stripFor ims item) = outputKey item ∧
      madeByServer (stripFor ims item) = madeByServer item := by
  unfold stripFor
  split
  · exact ⟨rfl, rfl, rfl⟩
  · cases item <;> exact ⟨rfl, rfl, rfl⟩

theorem normalizeHistory_snd : (normalizeHistory ims its).2 =
      (historyScheme.prune (historyScheme.fill its)).map (stripFor ims) := by
  simp only [normalizeHistory, stripImagesWhenUnsupported_eq_map, removeOrphanOutputs_snd,
    ensureCallOutputsPresent_snd]

theorem paired_normalizeHistory : historyScheme.Paired (normalizeHistory ims its).2 := by
  rw [normalizeHistory_snd]
  have hr := stripFor_roles ims
  exact (paired_prune_fill its).map (fun i => (hr i).1) (fun i => (hr i).2.1) (fun i => (hr i).2.2)

end

/-- A paired history gets no new output, loses none, and nothing is logged. -/
theorem normalizeHistory_of_paired (h : historyScheme.Paired its) :
    normalizeHistory ims its = ([], its.map (stripFor ims)) := by
  have hm : ∀ i ∈ its, missingOutput its i = none := by
    intro i hi
    rw [← Option.map_eq_none_iff, missingOutput_snd]
    exact missing_of_paired h hi
  have he : (ensureCallOutputsPresent its).1 = [] := by
    unfold ensureCallOutputsPresent
    simp only [map_eq_nil_iff, filterMap_eq_nil_iff, Option.map_eq_none_iff]
    intro e hen
    exact hm e.1 (fst_mem_of_mem_zipIdx hen)
  have hr : (removeOrphanOutputs its).1 = [] := by
    refine filterMap_eq_nil_iff.mpr fun i hi => ?_
    exact (orphanOutput_eq_none_iff its i).mpr (h.wanted i hi)
  refine Prod.ext ?_ ?_
  · simp only [normalizeHistory, ensureCallOutputsPresent_snd, fill_of_paired h, he, hr, append_nil]
  · rw [normalizeHistory_snd, fill_of_paired h, prune_of_paired h]

variable (items : List ResponseItem)

/-- A call with an id has an output of its kind with that id; other items need none. -/
def HasOutput : ResponseItem → Prop
  | .functionCall _ _ _ _ callId => ∃ output, .functionCallOutput callId output ∈ items
  | .localShellCall _ (some callId) _ _ => ∃ output, .functionCallOutput callId output ∈ items
  | .customToolCall _ _ callId _ _ =>
    ∃ name output, .customToolCallOutput callId name output ∈ items
  | .toolSearchCall _ (some callId) _ _ _ =>
    ∃ status execution tools, .toolSearchOutput (some callId) status execution tools ∈ items
  | _ => True

/-- An output has a call of its kind with its id; a server's tool search output needs none. -/
def HasCall : ResponseItem → Prop
  | .functionCallOutput callId _ =>
    (∃ id name ns arguments, .functionCall id name ns arguments callId ∈ items) ∨
      ∃ id status action, .localShellCall id (some callId) status action ∈ items
  | .customToolCallOutput callId _ _ =>
    ∃ id status name input, .customToolCall id status callId name input ∈ items
  | .toolSearchOutput (some callId) _ execution _ =>
    execution = "server" ∨
      ∃ id status exec arguments, .toolSearchCall id (some callId) status exec arguments ∈ items
  | _ => True

theorem answered_iff (k : OutputKind) (ci : Str) : historyScheme.Answered items (k, ci) ↔
      match k with
      | .function => ∃ o, .functionCallOutput ci o ∈ items
      | .customTool => ∃ n o, .customToolCallOutput ci n o ∈ items
      | .toolSearch => ∃ s e ts,
        .toolSearchOutput (some ci) s e ts ∈ items := by
  constructor
  · rintro ⟨i, hi, hk⟩
    cases i with
    | functionCallOutput ex o => cases hk; exact ⟨o, hi⟩
    | customToolCallOutput ex n o => cases hk; exact ⟨n, o, hi⟩
    | toolSearchOutput ex s e ts =>
      cases ex with
      | none => cases hk
      | some ex => cases hk; exact ⟨s, e, ts, hi⟩
    | _ => cases hk
  · cases k with
    | function => rintro ⟨o, hi⟩; exact ⟨_, hi, rfl⟩
    | customTool => rintro ⟨n, o, hi⟩; exact ⟨_, hi, rfl⟩
    | toolSearch => rintro ⟨s, e, ts, hi⟩; exact ⟨_, hi, rfl⟩

theorem asked_iff (k : OutputKind) (ci : Str) : historyScheme.Asked items (k, ci) ↔
      match k with
      | .function =>
        (∃ id n ns ars, .functionCall id n ns ars ci ∈ items) ∨
          ∃ id s a, .localShellCall id (some ci) s a ∈ items
      | .customTool => ∃ id s n i, .customToolCall id s ci n i ∈ items
      | .toolSearch =>
        ∃ id s ex ars, .toolSearchCall id (some ci) s ex ars ∈ items := by
  constructor
  · rintro ⟨im, hi, hk⟩
    cases im with
    | functionCall id n ns ars e =>
      cases hk; exact .inl ⟨id, n, ns, ars, hi⟩
    | localShellCall id e s a =>
      cases e with
      | none => cases hk
      | some e => cases hk; exact .inr ⟨id, s, a, hi⟩
    | customToolCall id s e n i =>
      cases hk; exact ⟨id, s, n, i, hi⟩
    | toolSearchCall id e s ex ars =>
      cases e with
      | none => cases hk
      | some e => cases hk; exact ⟨id, s, ex, ars, hi⟩
    | _ => cases hk
  · cases k with
    | function =>
      rintro (⟨_, _, _, _, hi⟩ | ⟨_, _, _, hi⟩)
      · exact ⟨_, hi, rfl⟩
      · exact ⟨_, hi, rfl⟩
    | _ => rintro ⟨_, _, _, _, hi⟩; exact ⟨_, hi, rfl⟩

theorem hasOutput_of_answered
    (h : ∀ key, callKey item = some key → historyScheme.Answered its key) : HasOutput its item := by
  cases item with
  | functionCall id n ns ars ci => exact (answered_iff _ _ _).mp (h _ rfl)
  | customToolCall id s ci n input => exact (answered_iff _ _ _).mp (h _ rfl)
  | localShellCall id ci s a =>
    cases ci with
    | none => trivial
    | some ci => exact (answered_iff _ _ _).mp (h _ rfl)
  | toolSearchCall id ci s e ars =>
    cases ci with
    | none => trivial
    | some ci => exact (answered_iff _ _ _).mp (h _ rfl)
  | _ => trivial

theorem hasCall_iff_wanted (its : List ResponseItem) (item : ResponseItem) :
    HasCall its item ↔ historyScheme.Wanted its item := by
  cases item with
  | functionCallOutput ci o => rw [wanted_iff_asked rfl rfl, asked_iff]; rfl
  | customToolCallOutput ci n o => rw [wanted_iff_asked rfl rfl, asked_iff]; rfl
  | toolSearchOutput ci s e ts =>
    cases ci with
    | none => exact iff_of_true trivial (wanted_of_no_key rfl)
    | some ci =>
      by_cases hs : e = "server"
      · exact iff_of_true (.inl hs) (.inl (beq_iff_eq.mpr hs))
      · rw [wanted_client_iff (beq_false_of_ne hs), asked_iff]
        exact or_iff_right hs
  | _ => exact iff_of_true trivial (wanted_of_no_key rfl)

instance decidableHasCall (item : ResponseItem) : Decidable (HasCall items item) :=
  decidable_of_iff _ (hasCall_iff_wanted items item).symm

/-- A normalised history has an output for every call and a call for every output. The items
with nothing missing stay in their order, up to the images the model cannot read, and a
second normalisation changes nothing and has nothing to report. -/
theorem normalizeHistory_pairs (inputModalities : List InputModality) (items : List ResponseItem) :
    let normalized := (normalizeHistory inputModalities items).2
    (∀ i ∈ normalized, HasOutput normalized i) ∧ (∀ i ∈ normalized, HasCall normalized i) ∧
      ((items.filter fun i => HasCall items i).map (stripFor inputModalities)).Sublist normalized ∧
      normalizeHistory inputModalities normalized = ([], normalized) := by
  intro normalized
  have hp : historyScheme.Paired normalized := paired_normalizeHistory inputModalities items
  refine ⟨?_, ?_, ?_, ?_⟩
  · intro i hi
    exact hasOutput_of_answered (hp.answered i hi)
  · intro i hi
    exact (hasCall_iff_wanted normalized i).mpr (hp.wanted i hi)
  · have hk : (items.filter fun i => HasCall items i) = historyScheme.prune items := by
      refine filter_congr fun i _ => ?_
      exact decide_eq_decide.mpr (hasCall_iff_wanted items i)
    rw [hk, show normalized = _ from normalizeHistory_snd inputModalities items]
    exact (prune_sublist items).map _
  · have hs : normalized.map (stripFor inputModalities) = normalized := by
      rw [show normalized = _ from normalizeHistory_snd inputModalities items, map_map]
      refine map_congr_left fun i _ => ?_
      exact stripFor_idem inputModalities i
    rw [normalizeHistory_of_paired inputModalities hp, hs]

end HistoryNormalize
