import CodexTeams.HistoryNormalize

/-! Removing the oldest or the newest item of a history, and its counterpart with it. -/
namespace HistoryRemoval

open RustStr ResponseItems HistoryNormalize List

variable (callId : Str)

def isFunctionCall : ResponseItem → Bool
  | .functionCall _ _ _ _ existing => existing == callId
  | _ => false

def isLocalShellCall : ResponseItem → Bool
  | .localShellCall _ (some existing) _ _ => existing == callId
  | _ => false

def isToolSearchCall : ResponseItem → Bool
  | .toolSearchCall _ (some existing) _ _ _ => existing == callId
  | _ => false

def isCustomToolCall : ResponseItem → Bool
  | .customToolCall _ _ existing _ _ => existing == callId
  | _ => false

variable (items : List ResponseItem)

def removeCorrespondingFor : ResponseItem → List ResponseItem
  | .functionCall _ _ _ _ callId => items.eraseP (isFunctionCallOutput callId)
  | .functionCallOutput callId _ =>
    if items.any (isFunctionCall callId) then items.eraseP (isFunctionCall callId)
    else items.eraseP (isLocalShellCall callId)
  | .toolSearchCall _ (some callId) _ _ _ => items.eraseP (isToolSearchOutput callId)
  | .toolSearchOutput (some callId) _ _ _ => items.eraseP (isToolSearchCall callId)
  | .customToolCall _ _ callId _ _ => items.eraseP (isCustomToolCallOutput callId)
  | .customToolCallOutput callId _ _ => items.eraseP (isCustomToolCall callId)
  | .localShellCall _ (some callId) _ _ => items.eraseP (isFunctionCallOutput callId)
  | _ => items

def removeFirstItem : List ResponseItem → List ResponseItem
  | [] => []
  | removed :: items => removeCorrespondingFor items removed

/-- The result tells whether there was an item. -/
def removeLastItem : List ResponseItem × Bool :=
  match items.getLast? with
  | some removed => (removeCorrespondingFor items.dropLast removed, true)
  | none => (items, false)

/-- The calls and the outputs of each kind and id: one of each, or none. -/
def PairedCalls : Prop :=
  ∀ key, items.countP (callKey · = some key) = items.countP (outputKey · = some key) ∧
    items.countP (callKey · = some key) ≤ 1

/-- The call of an output, or the output of a call. -/
def Counterpart (item mate : ResponseItem) : Prop :=
  ∃ key, callKey item = some key ∧ outputKey mate = some key ∨
    outputKey item = some key ∧ callKey mate = some key

/-- An item without a key goes alone, any other one with its counterpart. -/
def GoesWith (item : ResponseItem) (rest out : List ResponseItem) : Prop :=
  callKey item = none ∧ outputKey item = none ∧ out = rest ∨
    ∃ before mate after, Counterpart item mate ∧ rest = before ++ mate :: after ∧
      out = before ++ after

variable {k : OutputKind × Str}

theorem callKey_of_outputKey (h : outputKey i = some k) : callKey i = none :=
  historyScheme.asks_of_answers i k h

theorem outputKey_of_callKey (h : callKey i = some k) : outputKey i = none := by
  cases ho : outputKey i with
  | none => rfl
  | some l =>
    rw [callKey_of_outputKey ho] at h
    cases h

theorem Counterpart.counts (h : Counterpart i j) (k : OutputKind × Str) :
    [i, j].countP (callKey · = some k) = [i, j].countP (outputKey · = some k) := by
  obtain ⟨l, ⟨hc, ho⟩ | ⟨ho, hc⟩⟩ := h
  · simp [countP_cons, hc, ho, outputKey_of_callKey, callKey_of_outputKey]
  · simp [countP_cons, hc, ho, outputKey_of_callKey, callKey_of_outputKey]

theorem GoesWith.paired (h : GoesWith i r out) (hp : PairedCalls (i :: r)) : PairedCalls out := by
  intro k
  obtain ⟨he, hl⟩ := hp k
  rcases h with ⟨hc, ho, rfl⟩ | ⟨b, j, a, hcp, rfl, rfl⟩
  · simpa [hc, ho] using hp k
  · have h := hcp.counts k
    simp only [countP_cons, countP_append, countP_nil] at he hl h ⊢
    omega

theorem goesWith_eraseP (h : ∃ j ∈ r, p j = true) (hp : ∀ j, p j = true → Counterpart i j) :
    GoesWith i r (r.eraseP p) := by
  obtain ⟨j, hj, hpj⟩ := h
  obtain ⟨m, b, a, -, hm, hr, he⟩ := exists_of_eraseP hj hpj
  exact .inr ⟨b, m, a, hp m hm, hr, he⟩

section

variable (h : PairedCalls (i :: r))

include h

theorem goesWith_output (hk : callKey i = some k)
    (hp : ∀ j, p j = true ↔ outputKey j = some k) : GoesWith i r (r.eraseP p) := by
  have hc := (h k).1
  simp only [countP_cons, hk, outputKey_of_callKey hk] at hc
  have hps : 0 < r.countP (outputKey · = some k) := by simp at hc; omega
  obtain ⟨j, hj, ho⟩ := countP_pos_iff.mp hps
  refine goesWith_eraseP ⟨j, hj, (hp j).mpr (of_decide_eq_true ho)⟩ fun j hj => ?_
  exact ⟨k, .inl ⟨hk, (hp j).mp hj⟩⟩

theorem exists_call (hk : outputKey i = some k) : ∃ j ∈ r, callKey j = some k := by
  have hc := (h k).1
  simp only [countP_cons, hk, callKey_of_outputKey hk] at hc
  have hps : 0 < r.countP (callKey · = some k) := by simp at hc; omega
  obtain ⟨j, hj, ho⟩ := countP_pos_iff.mp hps
  exact ⟨j, hj, of_decide_eq_true ho⟩

theorem goesWith_call (hk : outputKey i = some k)
    (hp : ∀ j, p j = true ↔ callKey j = some k) : GoesWith i r (r.eraseP p) := by
  obtain ⟨j, hj, hc⟩ := exists_call h hk
  refine goesWith_eraseP ⟨j, hj, (hp j).mpr hc⟩ fun j hj => ?_
  exact ⟨k, .inr ⟨hk, (hp j).mp hj⟩⟩

end

variable (ci : Str) (j : ResponseItem)

theorem callKey_function_iff : callKey j = some (.function, ci) ↔
      isFunctionCall ci j = true ∨ isLocalShellCall ci j = true := by
  cases j with
  | localShellCall _ e => cases e <;> simp [isFunctionCall, isLocalShellCall, callKey]
  | toolSearchCall _ e => cases e <;> simp [isFunctionCall, isLocalShellCall, callKey]
  | _ => simp [isFunctionCall, isLocalShellCall, callKey]

theorem isToolSearchCall_iff :
    isToolSearchCall ci j = true ↔ callKey j = some (.toolSearch, ci) := by
  cases j with
  | localShellCall _ e => cases e <;> simp [isToolSearchCall, callKey]
  | toolSearchCall _ e => cases e <;> simp [isToolSearchCall, callKey]
  | _ => simp [isToolSearchCall, callKey]

theorem isCustomToolCall_iff :
    isCustomToolCall ci j = true ↔ callKey j = some (.customTool, ci) := by
  cases j with
  | localShellCall _ e | toolSearchCall _ e => cases e <;> simp [isCustomToolCall, callKey]
  | _ => simp [isCustomToolCall, callKey]

theorem goesWith_remove (h : PairedCalls (i :: r)) : GoesWith i r (removeCorrespondingFor r i) := by
  cases i with
  | functionCall _ _ _ _ ci => exact goesWith_output h rfl (isFunctionCallOutput_iff ci)
  | customToolCall _ _ ci => exact goesWith_output h rfl (isCustomToolCallOutput_iff ci)
  | customToolCallOutput ci => exact goesWith_call h rfl (isCustomToolCall_iff ci)
  | localShellCall _ ci =>
    cases ci with
    | none => exact .inl ⟨rfl, rfl, rfl⟩
    | some ci => exact goesWith_output h rfl (isFunctionCallOutput_iff ci)
  | toolSearchCall _ ci =>
    cases ci with
    | none => exact .inl ⟨rfl, rfl, rfl⟩
    | some ci => exact goesWith_output h rfl (isToolSearchOutput_iff ci)
  | toolSearchOutput ci =>
    cases ci with
    | none => exact .inl ⟨rfl, rfl, rfl⟩
    | some ci => exact goesWith_call h rfl (isToolSearchCall_iff ci)
  | functionCallOutput ci o =>
    have hcp : ∀ j, isFunctionCall ci j = true ∨ isLocalShellCall ci j = true →
        Counterpart (.functionCallOutput ci o) j :=
      fun j hj => ⟨_, .inr ⟨rfl, (callKey_function_iff ci j).mpr hj⟩⟩
    rw [removeCorrespondingFor]
    split
    · next ha => exact goesWith_eraseP (any_eq_true.mp ha) fun j hj => hcp j (.inl hj)
    · next ha =>
      -- the call there must be is none of a function
      obtain ⟨j, hj, hc⟩ := exists_call h rfl
      have hs : isLocalShellCall ci j = true :=
        ((callKey_function_iff ci j).mp hc).resolve_left fun hf =>
          ha (any_eq_true.mpr ⟨j, hj, hf⟩)
      exact goesWith_eraseP ⟨j, hj, hs⟩ fun j hj => hcp j (.inr hj)
  | _ => exact .inl ⟨rfl, rfl, rfl⟩

/-- Removing the first or the last item of a paired history removes its counterpart and nothing
else, and leaves a paired history. -/
theorem removal_keeps_pairs (items : List ResponseItem) (h : PairedCalls items) :
    (∀ item rest, items = item :: rest → GoesWith item rest (removeFirstItem items) ∧
        PairedCalls (removeFirstItem items)) ∧
      (∀ item rest, items = rest ++ [item] → GoesWith item rest (removeLastItem items).1 ∧
        PairedCalls (removeLastItem items).1) ∧
      removeFirstItem [] = [] ∧ removeLastItem [] = ([], false) := by
  refine ⟨?_, ?_, rfl, rfl⟩ <;> rintro i rest rfl
  · exact ⟨goesWith_remove h, (goesWith_remove h).paired h⟩
  · have hp : PairedCalls (i :: rest) := by
      intro k
      have hk := h k
      simp only [countP_append, countP_cons, countP_nil] at hk ⊢
      omega
    have hr : (removeLastItem (rest ++ [i])).1 = removeCorrespondingFor rest i := by
      simp [removeLastItem]
    rw [hr]
    exact ⟨goesWith_remove hp, (goesWith_remove hp).paired hp⟩

theorem removal_keeps_pairs_local_shell :
    PairedCalls (removeLastItem [.localShellCall none (some []) .completed [], .other,
      .functionCallOutput [] aborted]).1 := by
  refine ((removal_keeps_pairs [.localShellCall none (some []) .completed [], .other,
    .functionCallOutput [] aborted] fun k => ?_).2.1 _
    [.localShellCall none (some []) .completed [], .other] rfl).2
  simp only [callKey, outputKey]
  grind

end HistoryRemoval
