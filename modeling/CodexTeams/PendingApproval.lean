import CodexTeams.ThreadWatch

/-! Whether a pending approval shows in the status of its thread. The release of a guard that is
older than the current activity counts against the newer ones. -/
namespace PendingApproval

open RustInt RustStr Runs ThreadWatch List Update ThreadWatchState Function

variable (s : Session)

/-- A permission guard of the thread, handed out since the thread's activity was last ended. -/
def IsCurrent (t : Str) (guard : ActiveGuard) : Prop :=
  guard.threadId = t ∧ guard.guardType = .permission ∧ s.endedAt t ≤ guard.serial

instance decidableIsCurrent (t : Str) (guard : ActiveGuard) : Decidable (IsCurrent s t guard) :=
  inferInstanceAs (Decidable (_ ∧ _ ∧ _))

def unreleased (t : Str) : ℕ :=
  (s.held ++ s.dropped).countP fun guard => IsCurrent s t guard

def pendingApprovals (state : ThreadWatchState) (t : Str) : ℕ :=
  ((state.runtimeByThreadId.lookup t).map RuntimeFacts.pendingPermissionRequests).getD 0

def ShowsApproval (status : ThreadStatus) : Prop :=
  ∃ flags, status = .active flags ∧ .waitingOnApproval ∈ flags

section

variable (t : Str)

def Kept (event : Event) : Prop := event ≠ .call (.removeThread t)

/-- An approval is asked for below the bound of the counter, and an older guard is released only
when no current one is left to be released. -/
def Orderly (s : Session) : Event → Prop
  | .request thread .permission => thread = t → pendingApprovals s.state t < u32Max
  | .release guard =>
    guard.threadId = t → guard.guardType = .permission → IsCurrent s t guard ∨ unreleased s t = 0
  | _ => True

instance decidableOrderly (s : Session) : ∀ event, Decidable (Orderly t s event)
  | .request _ .permission => inferInstanceAs (Decidable (_ → _))
  | .release _ => inferInstanceAs (Decidable (_ → _ → _ ∨ _))
  | .request _ .userInput | .call _ | .drop _ | .subscribe _ | .unsubscribe _ =>
    inferInstanceAs (Decidable True)

instance decidableKept (event : Event) : Decidable (Kept t event) :=
  inferInstanceAs (Decidable (_ ≠ _))

structure Counted (t : Str) (s : Session) : Prop where
  count : pendingApprovals s.state t = unreleased s t
  loaded : ∀ runtime, s.state.runtimeByThreadId.lookup t = some runtime →
    0 < runtime.pendingPermissionRequests → runtime.isLoaded = true
  issued : ∀ guard ∈ s.held ++ s.dropped, guard.serial < s.issued
  ended : s.endedAt t ≤ s.issued

theorem counted_initial : Counted t .initial where
  count := rfl
  loaded := by
    intro r hl
    cases hl
  issued := by
    intro g hg
    cases hg
  ended := le_refl _

end

variable {s : Session} {u : Update}

theorem pendingApprovals_congr {s : ThreadWatchState}
    (h : s'.runtimeByThreadId.lookup t = s.runtimeByThreadId.lookup t) :
    pendingApprovals s' t = pendingApprovals s t := by
  rw [pendingApprovals, pendingApprovals, h]

theorem unreleased_congr (hg : (s'.held ++ s'.dropped).Perm (s.held ++ s.dropped))
    (he : s'.endedAt t = s.endedAt t) : unreleased s' t = unreleased s t := by
  simp only [unreleased, IsCurrent, he]
  exact hg.countP_eq _

theorem Counted.of_untouched (h : Counted t s)
    (hl : s'.state.runtimeByThreadId.lookup t = s.state.runtimeByThreadId.lookup t)
    (hu : unreleased s' t = unreleased s t) (hi : ∀ g ∈ s'.held ++ s'.dropped, g.serial < s'.issued)
    (he : s'.endedAt t ≤ s'.issued) : Counted t s' where
  count := by rw [pendingApprovals_congr hl, hu, h.count]
  loaded := fun r hr => h.loaded r (hl ▸ hr)
  issued := hi
  ended := he

theorem countP_erase_add [DecidableEq α] (p : α → Bool) {l : List α} (h : a ∈ l) :
    (l.erase a).countP p + (if p a then 1 else 0) = l.countP p := by
  rw [(perm_cons_erase h).countP_eq p, countP_cons]

/-- The entry of the thread after a call that ends its activity: nothing is pending. -/
theorem pendingApprovals_of_endsActivity (s : ThreadWatchState) (h : u.endsActivity = true) :
    pendingApprovals (u.mutate s).1 u.threadId = 0 := by
  rw [pendingApprovals, u.lookup_mutate]
  cases u <;> simp_all [endsActivity, entryAfter, stopRunning]

theorem entryAfter_of_plain (e : Option RuntimeFacts)
    (hp : u.plain = true) (he : u.endsActivity = false) (hr : u ≠ .removeThread u.threadId) :
    ∃ r, u.entryAfter e = some r ∧ r.isLoaded = true ∧ r.pendingPermissionRequests =
        (e.map RuntimeFacts.pendingPermissionRequests).getD 0 := by
  cases u <;> cases e <;>
    simp_all [plain, endsActivity, entryAfter, threadId, RuntimeFacts.unknown]

theorem counted_call (h : Counted t s) (hpl : u.plain = true) (hk : Kept t (.call u)) :
    Counted t (next s (.call u)) := by
  by_cases ht : t = u.threadId
  · subst ht
    cases hen : u.endsActivity with
    | true =>
      have hz := pendingApprovals_of_endsActivity s.state hen
      refine ⟨?_, ?_, h.issued, ?_⟩
      · rw [ThreadWatch.next, hz, unreleased, eq_comm, countP_eq_zero]
        rintro g hg hc
        have hsr := h.issued g hg
        have ha := (of_decide_eq_true hc).2.2
        simp only [hen, if_true, update_self] at ha
        omega
      · intro r hl hps
        have hp : r.pendingPermissionRequests = 0 := by
          rw [pendingApprovals] at hz
          simp only [ThreadWatch.next] at hl
          rwa [hl] at hz
        omega
      · simp [ThreadWatch.next, hen]
    | false =>
      have hr : u ≠ .removeThread u.threadId := by
        intro hr
        exact hk (congrArg Event.call hr)
      obtain ⟨r, het, hld, hp⟩ :=
        entryAfter_of_plain (s.state.runtimeByThreadId.lookup u.threadId) hpl hen hr
      have hl := (u.lookup_mutate s.state).trans het
      have he : (next s (.call u)).endedAt u.threadId = s.endedAt u.threadId := by
        simp [ThreadWatch.next, hen]
      refine ⟨?_, ?_, h.issued, he.trans_le h.ended⟩
      · have hs : unreleased (next s (.call u)) u.threadId = unreleased s u.threadId :=
          unreleased_congr (.refl (s.held ++ s.dropped)) he
        rw [hs, ← h.count, pendingApprovals, ThreadWatch.next, hl]
        exact hp
      · intro found hf _
        obtain rfl : r = found := Option.some.inj (hl.symm.trans hf)
        exact hld
  · have he : (next s (.call u)).endedAt t = s.endedAt t := by
      simp only [ThreadWatch.next]
      split
      · exact update_of_ne ht _ _
      · rfl
    have hl := u.lookup_mutate_of_ne s.state ht
    have hs : unreleased (next s (.call u)) t = unreleased s t :=
      unreleased_congr (.refl (s.held ++ s.dropped)) he
    exact h.of_untouched hl hs h.issued (he.trans_le h.ended)

theorem issued_request (h : Counted t s) (th : Str) (gt : ThreadWatchActiveGuardType) :
    ∀ g ∈ (next s (.request th gt)).held ++
      (next s (.request th gt)).dropped, g.serial < s.issued + 1 := by
  intro g hg
  simp only [ThreadWatch.next, append_assoc, mem_append, mem_singleton] at hg
  rcases hg with hh | rfl | hd
  · have := h.issued g (mem_append_left _ hh)
    omega
  · simp
  · have := h.issued g (mem_append_right _ hd)
    omega

theorem unreleased_request (s : Session) (t th : Str)
    (gt : ThreadWatchActiveGuardType) (he : s.endedAt t ≤ s.issued) :
    unreleased (next s (.request th gt)) t = unreleased s t +
      (if th = t ∧ gt = .permission then 1 else 0) := by
  have hp : ((next s (.request th gt)).held ++ (next s (.request th gt)).dropped).Perm
        (⟨s.issued, th, gt⟩ :: (s.held ++ s.dropped)) := by
    simp only [ThreadWatch.next, append_assoc]
    exact perm_middle
  rw [unreleased, hp.countP_eq, countP_cons]
  congr 1
  simp [IsCurrent, ThreadWatch.next, he]

theorem pendingApprovals_request (s : ThreadWatchState) (t : Str)
    (gt : ThreadWatchActiveGuardType) :
    pendingApprovals (Update.mutate (.notePendingRequest t gt) s).1 t =
      if gt = .permission then min (pendingApprovals s t + 1) u32Max else pendingApprovals s t := by
  have hl := lookup_mutate (.notePendingRequest t gt) s
  rw [threadId] at hl
  rw [pendingApprovals, pendingApprovals, hl]
  cases s.runtimeByThreadId.lookup t <;> cases gt <;>
    simp [entryAfter, modifyPendingCounter, RuntimeFacts.unknown]

theorem pendingApprovals_release (s : ThreadWatchState) (t : Str)
    (gt : ThreadWatchActiveGuardType) :
    pendingApprovals (Update.mutate (.noteActiveGuardReleased t gt) s).1 t =
      if gt = .permission then pendingApprovals s t - 1 else pendingApprovals s t := by
  have hl := lookup_mutate (.noteActiveGuardReleased t gt) s
  rw [threadId] at hl
  rw [pendingApprovals, pendingApprovals, hl]
  cases s.runtimeByThreadId.lookup t <;> cases gt <;>
    simp [entryAfter, modifyPendingCounter, RuntimeFacts.unknown]

theorem isLoaded_of_counter (u : Update) {s : ThreadWatchState} (hp : u.plain = false)
    (h : (u.mutate s).1.runtimeByThreadId.lookup u.threadId = some r) : r.isLoaded = true := by
  rw [u.lookup_mutate] at h
  cases u with
  | notePendingRequest _ _ | noteActiveGuardReleased _ _ =>
    cases h
    exact isLoaded_modifyPendingCounter _ _ _
  | _ => cases hp

theorem counted_request (h : Counted t s) (ho : Orderly t s (.request th guardType)) :
    Counted t (next s (.request th guardType)) := by
  have hu := unreleased_request s t th guardType h.ended
  have hi := issued_request h th guardType
  have he := Nat.le_succ_of_le h.ended
  by_cases ht : t = th
  · subst ht
    refine ⟨?_, ?_, hi, he⟩
    · have hp := pendingApprovals_request s.state t guardType
      have hc := h.count
      rw [hu, ThreadWatch.next, hp]
      cases guardType with
      | permission =>
        have hb := ho rfl
        simp only [if_true, and_self]
        omega
      | userInput => simpa using hc
    · intro r hf _
      exact isLoaded_of_counter (.notePendingRequest t guardType) rfl hf
  · have hl := lookup_mutate_of_ne (.notePendingRequest th guardType) s.state ht
    apply h.of_untouched hl _ hi he
    rw [hu, if_neg (fun hth => ht hth.1.symm), Nat.add_zero]

theorem counted_drop (h : Counted t s) (hh : g ∈ s.held) : Counted t (next s (.drop g)) := by
  have hp : (s.held.erase g ++ (s.dropped ++ [g])).Perm (s.held ++ s.dropped) := by
    have hb : (s.dropped ++ [g]).Perm (g :: s.dropped) := perm_append_singleton _ _
    calc (s.held.erase g ++ (s.dropped ++ [g])).Perm
          (s.held.erase g ++ g :: s.dropped) := hb.append_left _
      _ |>.Perm (g :: (s.held.erase g ++ s.dropped)) := perm_middle
      _ |>.Perm (s.held ++ s.dropped) := (perm_cons_erase hh).symm.append_right _
  refine h.of_untouched rfl (unreleased_congr hp rfl) ?_ h.ended
  intro o ho
  exact h.issued o (hp.mem_iff.mp ho)

/-- Releasing a guard takes one from the current guards if it is one of them. -/
theorem unreleased_release (t : Str) (hd : g ∈ s.dropped) :
    unreleased (next s (.release g)) t + (if IsCurrent s t g then 1 else 0) = unreleased s t := by
  have he := countP_erase_add (fun g => decide (IsCurrent s t g)) hd
  simp only [decide_eq_true_eq] at he
  rw [unreleased, unreleased, countP_append, countP_append, ← he, ← Nat.add_assoc]
  rfl

theorem counted_release (h : Counted t s) (hd : g ∈ s.dropped) (hor : Orderly t s (.release g)) :
    Counted t (next s (.release g)) := by
  have hu := unreleased_release t hd
  have hi : ∀ o ∈ (next s (.release g)).held ++ (next s (.release g)).dropped,
      o.serial < s.issued := by
    intro o ho
    apply h.issued
    rw [mem_append] at ho
    rw [mem_append]
    exact ho.imp_right mem_of_mem_erase
  by_cases ht : t = g.threadId
  · subst ht
    refine ⟨?_, ?_, hi, h.ended⟩
    · have hp := pendingApprovals_release s.state g.threadId g.guardType
      have hcn := h.count
      rw [ThreadWatch.next, hp]
      change _ = unreleased (next s (.release g)) g.threadId
      by_cases hty : g.guardType = .permission
      · rw [if_pos hty]
        -- an older guard finds the counter at zero, where it stays
        rcases hor rfl hty with hc | hn
        · rw [if_pos hc] at hu
          omega
        · omega
      · rw [if_neg hty]
        rw [if_neg (fun hc => hty hc.2.1)] at hu
        omega
    · intro r hf _
      exact isLoaded_of_counter (.noteActiveGuardReleased g.threadId g.guardType) rfl hf
  · have hl := lookup_mutate_of_ne (.noteActiveGuardReleased g.threadId g.guardType) s.state ht
    apply h.of_untouched hl _ hi h.ended
    rwa [if_neg (fun hc => ht hc.1.symm)] at hu

theorem counted_next (h : Counted t s) (he : Enabled s e) (hk : Kept t e) (ho : Orderly t s e) :
    Counted t (next s e) := by
  cases e with
  | call u => exact counted_call h he hk
  | request th gt => exact counted_request h ho
  | drop g => exact counted_drop h he
  | release g => exact counted_release h he ho
  | subscribe th => exact h.of_untouched rfl rfl h.issued h.ended
  | unsubscribe th =>
    have hr := runtime_unsubscribe s.state th
    exact h.of_untouched (congrArg (AList.lookup t) hr) rfl h.issued h.ended

theorem showsApproval_of_pending {s : ThreadWatchState}
    (hlk : s.runtimeByThreadId.lookup t = some r) (hl : r.isLoaded = true)
    (hp : 0 < r.pendingPermissionRequests) : ShowsApproval (s.loadedStatusForThread t) := by
  rw [loadedStatusForThread, statusFor, hlk]
  refine ⟨.waitingOnApproval ::
    (if 0 < r.pendingUserInputRequests then [.waitingOnUserInput] else []), ?_,
    mem_cons_self⟩
  simp [loadedThreadStatus, hl, hp]

/-- In every run in which the thread is not removed, approvals are asked for below the bound of
the counter and no older guard is released before the current ones, a held current guard shows in
the status of its thread. -/
theorem approval_visible {s : Session} {t : Str}
    (h : system.Reaches (fun s event => Kept t event ∧ Orderly t s event) .initial s)
    {guard : ActiveGuard} (hheld : guard ∈ s.held) (hcurrent : IsCurrent s t guard) :
    ShowsApproval (s.state.loadedStatusForThread t) := by
  have hc : Counted t s := h.invariant (fun _ _ hs he hcn => counted_next hs he hcn.1 hcn.2)
      (counted_initial t)
  have hp : 0 < unreleased s t := by
    rw [unreleased, countP_pos_iff]
    exact ⟨guard, mem_append_left _ hheld, decide_eq_true hcurrent⟩
  rw [← hc.count, pendingApprovals] at hp
  cases hl : s.state.runtimeByThreadId.lookup t with rw [hl] at hp
  | none => exact absurd hp (lt_irrefl 0)
  | some r => exact showsApproval_of_pending hl (hc.loaded r hl hp) hp

def firstAnswered : List Event :=
  [.call (.noteTurnStarted worker), .request worker .permission, .request worker .permission,
    .drop ⟨0, worker, .permission⟩, .release ⟨0, worker, .permission⟩]

theorem approval_visible_first_answered :
    let s := system.run firstAnswered .initial
    (⟨1, worker, .permission⟩ : ActiveGuard) ∈ s.held ∧
      ShowsApproval (s.state.loadedStatusForThread worker) := by
  have ha : system.Allows (fun s event => Kept worker event ∧ Orderly worker s event)
      firstAnswered .initial := by decide
  have hh : (⟨1, worker, .permission⟩ : ActiveGuard) ∈
      (system.run firstAnswered .initial).held := by decide
  exact ⟨hh, approval_visible (EventSystem.Reaches.of_allows ha) hh (by decide)⟩

/-- The guard of an ended turn is released while an approval of the next turn is pending: the
thread shows as idle. -/
theorem stale_release_hides_approval :
    let old : ActiveGuard := ⟨0, worker, .permission⟩
    let pending : ActiveGuard := ⟨1, worker, .permission⟩
    let es : List Event := [.request worker .permission,
      .call (.noteTurnCompleted worker false), .request worker .permission, .drop old,
      .release old]
    let s := system.run es .initial
    system.Allows EventSystem.always es .initial ∧ pending ∈ s.held ∧
      IsCurrent s worker pending ∧ s.state.loadedStatusForThread worker = .idle := by
  decide

end PendingApproval
