import CodexTeams.Runs
import Mathlib.Data.List.Range

/-! The terminal outcome of a tool call. The dispatch task and the caller that may abort it both
announce to the lifecycle contributors; a flag is to say who owns the outcome. -/
namespace ToolOutcome

open Runs List EventSystem.Reaches

inductive ToolCallOutcome where
  | completed (success : Bool)
  | failed (handlerExecuted : Bool)
  | blocked
  | aborted
  deriving DecidableEq

inductive Dispatch where
  | acquiringLock
  | lookingUp
  | starting (told : ℕ)
  | handling
  | claiming (outcome : ToolCallOutcome)
  | announcing (outcome : ToolCallOutcome) (told : ℕ)
  | closing
  | finished
  | panicked
  | cutOff
  deriving DecidableEq

def Dispatch.ended : Dispatch → Bool
  | finished | panicked | cutOff => true
  | _ => false

inductive Caller where
  | selecting
  | checking
  | joining
  | swapping
  | aborting
  | awaitingTeardown
  | awaitingAborted
  | announcingAborted (told : ℕ)
  | returned
  | dropped
  deriving DecidableEq

inductive PreToolUseHookResult where
  | blocked
  | invalidInput
  | proceed

/-- The flag, the abort of the task, both sides, and what each has told which contributor. -/
structure State where
  terminalOutcomeReached : Bool
  abortRequested : Bool
  dispatch : Dispatch
  caller : Caller
  byDispatch : List (ℕ × ToolCallOutcome)
  byCaller : List (ℕ × ToolCallOutcome)

def State.start : State := ⟨false, false, .acquiringLock, .selecting, [], []⟩

def State.announced (s : State) : List (ℕ × ToolCallOutcome) := s.byDispatch ++ s.byCaller

inductive Event where
  | acquireLock
  | reject
  | lookup
  | notifyStart (told : ℕ)
  | preToolUse (result : PreToolUseHookResult)
  | handled (success : Option Bool)
  | claim (outcome : ToolCallOutcome)
  | notifyFinish (outcome : ToolCallOutcome) (told : ℕ)
  | account (outcome : ToolCallOutcome)
  | close
  | panic
  | cutOff
  | joinTask
  | cancel
  | check
  | swap
  | abort
  | awaitTask
  | notifyAborted (told : ℕ)
  | returnAborted
  | dropCall

section System

variable (contributors : ℕ) (waitForRuntimeCancellation : Bool) (s : State)

def Enabled : Event → Prop
  | .acquireLock => s.dispatch = .acquiringLock
  | .reject | .lookup => s.dispatch = .lookingUp
  | .notifyStart told => s.dispatch = .starting told ∧ told < contributors
  | .preToolUse _ => s.dispatch = .starting contributors
  | .handled _ => s.dispatch = .handling
  | .claim outcome => s.dispatch = .claiming outcome
  | .notifyFinish outcome told => s.dispatch = .announcing outcome told ∧ told < contributors
  | .account outcome => s.dispatch = .announcing outcome contributors
  | .close => s.dispatch = .closing
  | .panic => s.dispatch.ended = false
  | .cutOff => s.abortRequested = true ∧ s.dispatch.ended = false
  | .joinTask => (s.caller = .selecting ∨ s.caller = .joining) ∧ s.dispatch.ended = true
  | .cancel => s.caller = .selecting
  | .check => s.caller = .checking
  | .swap => s.caller = .swapping
  | .abort => s.caller = .aborting
  | .awaitTask => (s.caller = .awaitingTeardown ∨ s.caller = .awaitingAborted) ∧
    s.dispatch.ended = true
  | .notifyAborted told => s.caller = .announcingAborted told ∧ told < contributors
  | .returnAborted => s.caller = .announcingAborted contributors
  | .dropCall => s.caller ≠ .returned ∧ s.caller ≠ .dropped

instance decidableEnabled (event : Event) : Decidable (Enabled contributors s event) := by
  cases event <;> unfold Enabled <;> infer_instance

def next : Event → State
  | .acquireLock => { s with dispatch := .lookingUp }
  | .reject => { s with dispatch := .finished }
  | .lookup => { s with dispatch := .starting 0 }
  | .notifyStart told => { s with dispatch := .starting (told + 1) }
  | .preToolUse .blocked => { s with dispatch := .claiming .blocked }
  | .preToolUse .invalidInput => { s with dispatch := .claiming (.failed false) }
  | .preToolUse .proceed => { s with dispatch := .handling }
  | .handled (some success) => { s with dispatch := .claiming (.completed success) }
  | .handled none => { s with dispatch := .claiming (.failed true) }
  -- the task swaps the flag, and announces if it was the first
  | .claim outcome =>
    if s.terminalOutcomeReached then { s with dispatch := .closing }
    else { s with terminalOutcomeReached := true, dispatch := .announcing outcome 0 }
  | .notifyFinish outcome told =>
    { s with
      dispatch := .announcing outcome (told + 1)
      byDispatch := s.byDispatch ++ [(told, outcome)] }
  | .account _ => { s with dispatch := .closing }
  | .close => { s with dispatch := .finished }
  | .panic => { s with dispatch := .panicked }
  | .cutOff => { s with dispatch := .cutOff }
  | .joinTask => { s with caller := .returned }
  | .cancel => { s with caller := .checking }
  -- the caller only reads the flag here
  | .check =>
    { s with caller :=
        if s.terminalOutcomeReached ∨ s.dispatch.ended then .joining
        else if waitForRuntimeCancellation then .swapping
        else .aborting }
  | .swap =>
    if s.terminalOutcomeReached then { s with caller := .joining }
    else { s with terminalOutcomeReached := true, caller := .awaitingTeardown }
  | .abort => { s with abortRequested := true, caller := .awaitingAborted }
  -- a task that finished in spite of the abort has its result returned
  | .awaitTask =>
    { s with caller :=
        if s.dispatch = .panicked ∨ (s.caller = .awaitingAborted ∧ s.dispatch = .finished)
          then .returned
        else .announcingAborted 0 }
  | .notifyAborted told =>
    { s with
      caller := .announcingAborted (told + 1)
      byCaller := s.byCaller ++ [(told, .aborted)] }
  | .returnAborted => { s with caller := .returned }
  | .dropCall => { s with abortRequested := true, caller := .dropped }

def call : EventSystem State Event := ⟨Enabled contributors, next waitForRuntimeCancellation⟩

instance decidableCall (event : Event) :
    Decidable ((call contributors waitForRuntimeCancellation).Enabled s event) :=
  decidableEnabled contributors s event

end System

/-- No contributor is told twice, and none is told another outcome than the others. -/
structure OneOutcome (s : State) : Prop where
  same : ∀ a ∈ s.announced, ∀ b ∈ s.announced, a.2 = b.2
  once : (s.announced.map Prod.fst).Nodup

/-- The task is not cut off once it has told a contributor its outcome, unless the whole call is
dropped. -/
def CutBeforeTelling (s : State) : Event → Prop
  | .cutOff => s.byDispatch = [] ∨ s.caller = .dropped
  | _ => True

def told (outcome : ToolCallOutcome) (count : ℕ) : List (ℕ × ToolCallOutcome) :=
  (List.range count).map fun contributor => (contributor, outcome)

theorem told_succ (o : ToolCallOutcome) (c : ℕ) : told o (c + 1) = told o c ++ [(c, o)] := by
  simp [told, range_succ]

theorem told_eq_nil : told o c = [] ↔ c = 0 := by
  simp [told]

/-- The caller has not begun to announce. -/
def Caller.silent : Caller → Bool
  | announcingAborted _ | returned | dropped => false
  | _ => true

structure Orderly (contributors : ℕ) (s : State) : Prop where
  claiming : ∀ outcome, s.dispatch = .claiming outcome → outcome ≠ .aborted
  unreached : s.terminalOutcomeReached = false → s.byDispatch = []
  announcing : ∀ outcome count, s.dispatch = .announcing outcome count →
    s.terminalOutcomeReached = true ∧ outcome ≠ .aborted ∧ s.byDispatch = told outcome count
  byDispatch : ∃ outcome count, outcome ≠ .aborted ∧ count ≤ contributors ∧
    s.byDispatch = told outcome count
  silent : s.caller.silent = true → s.byCaller = []
  teardown : s.caller = .awaitingTeardown → s.terminalOutcomeReached = true ∧
    s.byDispatch = [] ∧ ∀ outcome count, s.dispatch ≠ .announcing outcome count
  announcingAborted : ∀ count, s.caller = .announcingAborted count →
    s.byCaller = told .aborted count
  byCaller : ∃ count, s.byCaller = told .aborted count
  ended : s.byCaller ≠ [] ∨ (∃ count, s.caller = .announcingAborted count) ∨
    s.caller = .returned → s.dispatch.ended = true
  abort : s.abortRequested = true → s.caller = .awaitingAborted ∨ s.caller.silent = false

theorem orderly_start (cns : ℕ) : Orderly cns .start where
  claiming := by simp [State.start]
  unreached := fun _ => rfl
  announcing := by simp [State.start]
  byDispatch := ⟨.blocked, 0, by simp, Nat.zero_le _, rfl⟩
  silent := fun _ => rfl
  teardown := by simp [State.start]
  announcingAborted := by simp [State.start]
  byCaller := ⟨0, rfl⟩
  ended := by simp [State.start]
  abort := by simp [State.start]

section Steps

variable {cns : ℕ} {s : State}

section

variable (h : Orderly cns s)

include h

theorem Orderly.dispatch_to (he : s.dispatch.ended = false)
    (hcl : ∀ o, dispatch = .claiming o → o ≠ .aborted) (ha : ∀ o c, dispatch ≠ .announcing o c) :
    Orderly cns { s with dispatch } where
  claiming := hcl
  unreached := h.unreached
  announcing := fun o c hn => absurd hn (ha o c)
  byDispatch := h.byDispatch
  silent := h.silent
  teardown := fun hc => ⟨(h.teardown hc).1, (h.teardown hc).2.1, ha⟩
  announcingAborted := h.announcingAborted
  byCaller := h.byCaller
  ended := by
    intro ho
    rw [h.ended ho] at he
    cases he
  abort := h.abort

theorem Orderly.caller_to (hs : s.caller.silent = true)
    (hnw : caller.silent = true) (ht : caller ≠ .awaitingTeardown)
    (ha : s.caller ≠ .awaitingAborted) : Orderly cns { s with caller } where
  claiming := h.claiming
  unreached := h.unreached
  announcing := h.announcing
  byDispatch := h.byDispatch
  silent := fun _ => h.silent hs
  teardown := fun hc => absurd hc ht
  announcingAborted := by
    rintro c rfl
    cases hnw
  byCaller := h.byCaller
  ended := by
    rintro (hn | ⟨c, rfl⟩ | rfl)
    · exact absurd (h.silent hs) hn
    · cases hnw
    · cases hnw
  abort := by
    intro hab
    rcases h.abort hab with hc | hc
    · exact absurd hc ha
    · rw [hs] at hc
      cases hc

theorem Orderly.caller_returned (he : s.dispatch.ended = true) :
    Orderly cns { s with caller := .returned } where
  claiming := h.claiming
  unreached := h.unreached
  announcing := h.announcing
  byDispatch := h.byDispatch
  silent := nofun
  teardown := nofun
  announcingAborted := nofun
  byCaller := h.byCaller
  ended := fun _ => he
  abort := fun _ => .inr rfl

theorem orderly_claim (hp : s.dispatch = .claiming o) : Orderly cns (next ws s (.claim o)) := by
  have he : s.dispatch.ended = false := by rw [hp]; rfl
  rw [next]
  split
  · exact h.dispatch_to he nofun nofun
  · rename_i hf
    have hn := h.unreached (Bool.eq_false_iff.mpr hf)
    refine { h with
      claiming := nofun
      unreached := nofun
      announcing := ?_
      teardown := ?_
      ended := ?_ }
    · rintro _ _ ⟨⟩
      exact ⟨rfl, h.claiming o hp, hn⟩
    · intro hc
      exact absurd (h.teardown hc).1 hf
    · intro ho
      rw [h.ended ho] at he
      cases he

theorem orderly_notifyFinish (hp : s.dispatch = .announcing outcome c)
    (hl : c < cns) : Orderly cns (next ws s (.notifyFinish outcome c)) := by
  obtain ⟨hr, hne, ht⟩ := h.announcing outcome c hp
  have hn : s.byDispatch ++ [(c, outcome)] = told outcome (c + 1) := by
    rw [ht, told_succ]
  refine { h with
    claiming := nofun
    unreached := ?_
    announcing := ?_
    byDispatch := ⟨outcome, c + 1, hne, hl, hn⟩
    teardown := ?_
    ended := ?_ }
  · intro hu
    cases hr.symm.trans hu
  · rintro _ _ ⟨⟩
    exact ⟨hr, hne, hn⟩
  · intro hc
    exact absurd hp ((h.teardown hc).2.2 outcome c)
  · intro ho
    have he := h.ended ho
    rw [hp] at he
    cases he

theorem orderly_swap (hc : s.caller = .swapping) : Orderly cns (next ws s .swap) := by
  have hs : s.caller.silent = true := by rw [hc]; rfl
  have ha : s.caller ≠ .awaitingAborted := by rw [hc]; simp
  rw [next]
  split
  · exact h.caller_to hs rfl nofun ha
  · rename_i hf
    -- the flag is unset: the task has announced nothing, and it will find the flag set
    have hno := h.unreached (Bool.eq_false_iff.mpr hf)
    refine { h with
      unreached := nofun
      announcing := ?_
      silent := fun _ => h.silent hs
      teardown := ?_
      announcingAborted := nofun
      ended := ?_
      abort := ?_ }
    · intro o c hp
      exact absurd (h.announcing o c hp).1 hf
    · intro _
      refine ⟨rfl, hno, ?_⟩
      intro o c hp
      exact hf (h.announcing o c hp).1
    · rintro (hnn | ⟨c, ho⟩ | ho)
      · exact absurd (h.silent hs) hnn
      · cases ho
      · cases ho
    · intro hab
      rcases h.abort hab with hn | hn
      · exact absurd hn ha
      · rw [hs] at hn
        cases hn

theorem orderly_abort (hc : s.caller = .aborting) : Orderly cns (next ws s .abort) := by
  have hs : s.caller.silent = true := by rw [hc]; rfl
  refine { h with
    silent := fun _ => h.silent hs
    teardown := nofun
    announcingAborted := nofun
    ended := ?_
    abort := fun _ => .inl rfl }
  rintro (hn | ⟨c, ho⟩ | ho)
  · exact absurd (h.silent hs) hn
  · cases ho
  · cases ho

theorem orderly_awaitTask (hc : s.caller = .awaitingTeardown ∨ s.caller = .awaitingAborted)
    (he : s.dispatch.ended = true) : Orderly cns (next ws s .awaitTask) := by
  have hs : s.caller.silent = true := by
    rcases hc with hc | hc <;> rw [hc] <;> rfl
  rw [next]
  split
  · exact h.caller_returned he
  · refine { h with
      silent := nofun
      teardown := nofun
      announcingAborted := ?_
      ended := fun _ => he
      abort := fun _ => .inr rfl }
    rintro _ ⟨⟩
    exact h.silent hs

theorem orderly_notifyAborted (hc : s.caller = .announcingAborted c) :
    Orderly cns (next ws s (.notifyAborted c)) := by
  have he := h.ended (.inr (.inl ⟨c, hc⟩))
  have hn : s.byCaller ++ [(c, .aborted)] = told .aborted (c + 1) := by
    rw [h.announcingAborted c hc, told_succ]
  refine { h with
    silent := nofun
    teardown := nofun
    announcingAborted := ?_
    byCaller := ⟨c + 1, hn⟩
    ended := fun _ => he
    abort := fun _ => .inr rfl }
  rintro _ ⟨⟩
  exact hn

theorem orderly_dropCall : Orderly cns (next ws s .dropCall) := by
  refine { h with
    silent := nofun
    teardown := nofun
    announcingAborted := nofun
    ended := ?_
    abort := fun _ => .inr rfl }
  rintro (hn | ⟨c, ho⟩ | ho)
  · exact h.ended (.inl hn)
  · cases ho
  · cases ho

theorem orderly_next {event : Event}
    (he : Enabled cns s event) : Orderly cns (next ws s event) := by
  cases event with
  | notifyStart told => exact h.dispatch_to (by rw [he.1]; rfl) nofun nofun
  | preToolUse result =>
    cases result with
    | proceed => exact h.dispatch_to (by rw [he]; rfl) nofun nofun
    | _ => exact h.dispatch_to (by rw [he]; rfl) (by rintro _ ⟨⟩; simp) nofun
  | handled success =>
    cases success <;> exact h.dispatch_to (by rw [he]; rfl) (by rintro _ ⟨⟩; simp) nofun
  | claim outcome => exact orderly_claim h he
  | notifyFinish outcome told => exact orderly_notifyFinish h he.1 he.2
  | panic => exact h.dispatch_to he nofun nofun
  | cutOff => exact h.dispatch_to he.2 nofun nofun
  | joinTask => exact h.caller_returned he.2
  | cancel =>
    exact h.caller_to (by rw [he]; rfl) rfl nofun (by rw [he]; simp)
  | check =>
    rw [next]
    split_ifs <;> exact h.caller_to (by rw [he]; rfl) rfl nofun (by rw [he]; simp)
  | swap => exact orderly_swap h he
  | abort => exact orderly_abort h he
  | awaitTask => exact orderly_awaitTask h he.1 he.2
  | notifyAborted told => exact orderly_notifyAborted h he.1
  | returnAborted => exact h.caller_returned (h.ended (.inr (.inl ⟨_, he⟩)))
  | dropCall => exact orderly_dropCall h
  | _ => exact h.dispatch_to (by rw [he]; rfl) nofun nofun

end

/-- Only one side announces. -/
structure Exclusive (s : State) : Prop where
  cutOff : s.dispatch = .cutOff → s.byDispatch = [] ∨ s.caller = .dropped
  announcingAborted : ∀ count, s.caller = .announcingAborted count → s.byDispatch = []
  byCaller : s.byCaller ≠ [] → s.byDispatch = []

theorem exclusive_start : Exclusive .start := ⟨nofun, nofun, fun h => absurd rfl h⟩

theorem Orderly.exclusive_of_running (h : Orderly cns s) (he : s.dispatch.ended = false)
    (hc : s'.caller = s.caller) (hby : s'.byCaller = s.byCaller)
    (hct : s'.dispatch = .cutOff → s'.byDispatch = [] ∨ s'.caller = .dropped) : Exclusive s' where
  cutOff := hct
  announcingAborted := by
    intro c hnw
    have ho := h.ended (.inr (.inl ⟨c, hc ▸ hnw⟩))
    cases he.symm.trans ho
  byCaller := by
    intro hn
    have ho := h.ended (.inl (hby ▸ hn))
    cases he.symm.trans ho

theorem Exclusive.caller_to (h : Exclusive s) (hc : s.caller ≠ .dropped)
    (hd : s'.dispatch = s.dispatch) (ht : s'.byDispatch = s.byDispatch)
    (hby : s'.byCaller = s.byCaller) (hn : ∀ c, s'.caller ≠ .announcingAborted c) :
    Exclusive s' where
  cutOff := by
    rw [hd, ht]
    intro hct
    exact .inl ((h.cutOff hct).resolve_right hc)
  announcingAborted := fun c hcn => absurd hcn (hn c)
  byCaller := by
    rw [hby, ht]
    exact h.byCaller

theorem exclusive_awaitTask (ho : Orderly cns s) (h : Exclusive s)
    (hc : s.caller = .awaitingTeardown ∨ s.caller = .awaitingAborted)
    (he : s.dispatch.ended = true) : Exclusive (next ws s .awaitTask) := by
  have hd : s.caller ≠ .dropped := by
    rcases hc with hc | hc <;> rw [hc] <;> simp
  rw [next]
  split
  · exact h.caller_to hd rfl rfl rfl nofun
  · have hn : s.byDispatch = [] := by
      rcases hc with ht | ha
      · exact (ho.teardown ht).2.1
      · have hct : s.dispatch = .cutOff := by
          cases hp : s.dispatch <;> simp_all [Dispatch.ended]
        exact (h.cutOff hct).resolve_right hd
    exact ⟨fun _ => .inl hn, fun _ _ => hn, fun _ => hn⟩

theorem exclusive_next (ho : Orderly cns s) (h : Exclusive s) (he : Enabled cns s e)
    (hcn : CutBeforeTelling s e) : Exclusive (next ws s e) := by
  cases e with
  | notifyStart told => exact ho.exclusive_of_running (by rw [he.1]; rfl) rfl rfl nofun
  | preToolUse r =>
    cases r <;> exact ho.exclusive_of_running (by rw [he]; rfl) rfl rfl nofun
  | handled sc =>
    cases sc <;> exact ho.exclusive_of_running (by rw [he]; rfl) rfl rfl nofun
  | claim o =>
    rw [next]
    split <;> exact ho.exclusive_of_running (by rw [he]; rfl) rfl rfl nofun
  | notifyFinish o told =>
    exact ho.exclusive_of_running (by rw [he.1]; rfl) rfl rfl nofun
  | panic => exact ho.exclusive_of_running he rfl rfl nofun
  | cutOff => exact ho.exclusive_of_running he.2 rfl rfl fun _ => hcn
  | joinTask =>
    have hd : s.caller ≠ .dropped := by
      rcases he.1 with hc | hc <;> rw [hc] <;> simp
    exact h.caller_to hd rfl rfl rfl nofun
  | cancel => exact h.caller_to (by rw [he]; simp) rfl rfl rfl nofun
  | check =>
    rw [next]
    split_ifs <;> exact h.caller_to (by rw [he]; simp) rfl rfl rfl nofun
  | swap =>
    rw [next]
    split <;> exact h.caller_to (by rw [he]; simp) rfl rfl rfl nofun
  | abort => exact h.caller_to (by rw [he]; simp) rfl rfl rfl nofun
  | awaitTask => exact exclusive_awaitTask ho h he.1 he.2
  | notifyAborted told =>
    have hn := h.announcingAborted told he.1
    exact ⟨fun _ => .inl hn, fun _ _ => hn, fun _ => hn⟩
  | returnAborted => exact h.caller_to (by rw [he]; simp) rfl rfl rfl nofun
  | dropCall => exact ⟨fun _ => .inr rfl, nofun, h.byCaller⟩
  | _ => exact ho.exclusive_of_running (by rw [he]; rfl) rfl rfl nofun

/-- The task was cut off after it had told a contributor, and the caller announces the abort. -/
structure Contradicting (s : State) : Prop where
  cutOff : s.dispatch = .cutOff
  byDispatch : s.byDispatch ≠ []
  caller : s.caller = .awaitingAborted ∨ (∃ count, s.caller = .announcingAborted count) ∨
    s.caller = .dropped ∨ s.byCaller ≠ []

variable (ho : Orderly cns s)

include ho

theorem contradicting_cutOff (hen : Enabled cns s .cutOff) (hcn : ¬ CutBeforeTelling s .cutOff) :
    Contradicting (next ws s .cutOff) := by
  obtain ⟨ha, he⟩ := hen
  obtain ⟨ht, hd⟩ := not_or.mp hcn
  refine ⟨rfl, ht, .inl ?_⟩
  rcases ho.abort ha with hc | hc
  · exact hc
  · cases hp : s.caller with
    | announcingAborted c =>
      cases he.symm.trans (ho.ended (.inr (.inl ⟨c, hp⟩)))
    | returned => cases he.symm.trans (ho.ended (.inr (.inr hp)))
    | dropped => exact absurd hp hd
    | _ =>
      rw [hp] at hc
      cases hc

theorem Orderly.contributors_pos (ht : s.byDispatch ≠ []) : 0 < cns := by
  obtain ⟨o, c, _, hle, heq⟩ := ho.byDispatch
  rw [heq, ne_eq, told_eq_nil] at ht
  omega

theorem Contradicting.caller_late (h : Contradicting s) :
    s.caller = .awaitingAborted ∨ s.caller.silent = false := by
  rcases h.caller with hc | ⟨c, hc⟩ | hc | hn
  · exact .inl hc
  · exact .inr (by rw [hc]; rfl)
  · exact .inr (by rw [hc]; rfl)
  · exact .inr (Bool.eq_false_iff.mpr fun hs => hn (ho.silent hs))

theorem contradicting_next (h : Contradicting s) (he : Enabled cns s e) :
    Contradicting (next ws s e) := by
  have hct := h.cutOff
  have hl := h.caller_late ho
  cases e with
  | joinTask =>
    rcases he.1 with hc | hc <;> simp [hc, Caller.silent] at hl
  | cancel | check | swap | abort =>
    rw [Enabled] at he
    simp [he, Caller.silent] at hl
  | awaitTask =>
    refine ⟨hct, h.byDispatch, .inr (.inl ⟨0, ?_⟩)⟩
    simp [next, hct]
  | notifyAborted told => exact ⟨hct, h.byDispatch, .inr (.inl ⟨told + 1, rfl⟩)⟩
  | returnAborted =>
    refine ⟨hct, h.byDispatch, .inr (.inr (.inr ?_))⟩
    have hp := ho.contributors_pos h.byDispatch
    change s.byCaller ≠ []
    rw [ho.announcingAborted cns he, ne_eq, told_eq_nil]
    omega
  | dropCall => exact ⟨hct, h.byDispatch, .inr (.inr (.inl rfl))⟩
  | _ => simp [Enabled, hct, Dispatch.ended] at he

theorem Orderly.oneOutcome_of_exclusive (h : Exclusive s) : OneOutcome s := by
  have hs : ∃ o count, s.announced = told o count := by
    by_cases hn : s.byCaller = []
    · obtain ⟨o, count, _, _, heq⟩ := ho.byDispatch
      exact ⟨o, count, by rw [State.announced, hn, append_nil, heq]⟩
    · obtain ⟨count, heq⟩ := ho.byCaller
      exact ⟨.aborted, count, by rw [State.announced, h.byCaller hn, nil_append, heq]⟩
  obtain ⟨o, count, heq⟩ := hs
  constructor
  · intro a ha b hb
    rw [heq, told, mem_map] at ha hb
    obtain ⟨_, _, rfl⟩ := ha
    obtain ⟨_, _, rfl⟩ := hb
    rfl
  · have hf : (told o count).map Prod.fst = List.range count := by
      simp [told, Function.comp_def]
    rw [heq, hf]
    exact nodup_range

theorem Orderly.not_oneOutcome_of_both (ht : s.byDispatch ≠ [])
    (hc : s.byCaller ≠ []) : ¬ OneOutcome s := by
  intro h
  obtain ⟨o, c, hne, _, heq⟩ := ho.byDispatch
  obtain ⟨ars, hab⟩ := ho.byCaller
  obtain ⟨a, ha⟩ := exists_mem_of_ne_nil _ ht
  obtain ⟨b, hb⟩ := exists_mem_of_ne_nil _ hc
  have hs := h.same a (mem_append_left _ ha) b (mem_append_right _ hb)
  rw [heq, told, mem_map] at ha
  rw [hab, told, mem_map] at hb
  obtain ⟨_, _, rfl⟩ := ha
  obtain ⟨_, _, rfl⟩ := hb
  exact hne hs

end Steps

theorem orderly_of_reaches (ho : Orderly cs s) (h : (call cs ws).Reaches c s s') : Orderly cs s' :=
  invariant (fun _ _ hs he _ => orderly_next hs he) h ho

theorem oneOutcome_of_reaches (h : (call cs ws).Reaches CutBeforeTelling .start s) :
    OneOutcome s := by
  let Kept : State → Prop := fun s => Orderly cs s ∧ Exclusive s
  have hst : ∀ s event, Kept s → Enabled cs s event → CutBeforeTelling s event →
      Kept (next ws s event) := by
    intro s event hs he hc
    exact ⟨orderly_next hs.1 he, exclusive_next hs.1 hs.2 he hc⟩
  have hk : Kept s := invariant hst h ⟨orderly_start cs, exclusive_start⟩
  exact hk.1.oneOutcome_of_exclusive hk.2

theorem contradicting_of_reaches (ho : Orderly cs s) (hs : Contradicting s)
    (h : (call cs ws).Reaches EventSystem.always s s') : Contradicting s' := by
  let Kept : State → Prop := fun s => Orderly cs s ∧ Contradicting s
  have hst : ∀ s event, Kept s → Enabled cs s event → EventSystem.always s event →
      Kept (next ws s event) := by
    intro s event hs he _
    exact ⟨orderly_next hs.1 he, contradicting_next hs.1 hs.2 he⟩
  have hk : Kept s' := invariant hst h ⟨ho, hs⟩
  exact hk.2

theorem contradicting_of_not_allows (ho : Orderly cs s)
    (h : (call cs ws).Allows EventSystem.always es s)
    (hn : ¬ (call cs ws).Allows CutBeforeTelling es s) : Contradicting ((call cs ws).run es s) := by
  induction es generalizing s with
  | nil => exact absurd trivial hn
  | cons event es ih =>
    obtain ⟨he, _, hr⟩ := h
    have ho' : Orderly cs (next ws s event) := orderly_next ho he
    by_cases hc : CutBeforeTelling s event
    · exact ih ho' hr fun ha => hn ⟨he, hc, ha⟩
    · cases event with
      | cutOff =>
        have hnw : Contradicting (next ws s .cutOff) := contradicting_cutOff ho he hc
        exact contradicting_of_reaches ho' hnw (of_allows hr)
      | _ => exact absurd trivial hc

/-- Along every run in which the task is cut off only before it has told anyone, at most one
outcome is announced. A run to the return of the call announces one exactly if it is such a run. -/
theorem one_terminal_outcome (contributors : ℕ) (waits : Bool) :
    (∀ s, (call contributors waits).Reaches CutBeforeTelling .start s → OneOutcome s) ∧
    ∀ events, (call contributors waits).Allows EventSystem.always events .start →
      ((call contributors waits).run events .start).caller = .returned →
      (OneOutcome ((call contributors waits).run events .start) ↔
        (call contributors waits).Allows CutBeforeTelling events .start) := by
  refine ⟨fun _ => oneOutcome_of_reaches, ?_⟩
  intro events ha hr
  constructor
  · intro hon
    by_contra hn
    have ho := orderly_start contributors
    have hl := orderly_of_reaches ho (of_allows ha)
    have hcn := contradicting_of_not_allows ho ha hn
    have hc := hcn.caller
    rw [hr] at hc
    have hb := hc.resolve_left nofun |>.resolve_left nofun |>.resolve_left nofun
    exact hl.not_oneOutcome_of_both hcn.byDispatch hb hon
  · intro hal
    exact oneOutcome_of_reaches (of_allows hal)

instance decidableCutBeforeTelling (s : State) (event : Event) :
    Decidable (CutBeforeTelling s event) := by
  cases event <;> unfold CutBeforeTelling <;> infer_instance

theorem one_terminal_outcome_waiting :
    let events : List Event := [.acquireLock, .lookup, .notifyStart 0, .preToolUse .proceed,
      .cancel, .check, .swap, .handled (some true), .claim (.completed true), .close, .awaitTask,
      .notifyAborted 0, .returnAborted]
    (call 1 true).Allows EventSystem.always events .start ∧
    (call 1 true).Allows CutBeforeTelling events .start ∧
    ((call 1 true).run events .start).announced = [(0, .aborted)] ∧
    OneOutcome ((call 1 true).run events .start) := by
  refine ⟨by decide, by decide, by decide, ?_⟩
  exact ((one_terminal_outcome 1 true).2 _ (by decide) (by decide)).mpr (by decide)

/-- A tool that does not wait claims its outcome after the caller has read the flag: the
contributor is told that the call completed, and then that it was aborted. -/
theorem outcome_announced_twice :
    let events : List Event := [.acquireLock, .lookup, .notifyStart 0, .preToolUse .proceed,
      .cancel, .check, .handled (some true), .claim (.completed true),
      .notifyFinish (.completed true) 0, .abort, .cutOff, .awaitTask, .notifyAborted 0,
      .returnAborted]
    (call 1 false).Allows EventSystem.always events .start ∧
    ((call 1 false).run events .start).announced = [(0, .completed true), (0, .aborted)] ∧
    ¬ OneOutcome ((call 1 false).run events .start) := by
  refine ⟨by decide, by decide, ?_⟩
  intro h
  exact absurd h.once (by decide)

end ToolOutcome
