import CodexTeams.ThreadWatch

/-! How a change of the watched threads gets out: the count and the notification are taken under the
lock, and sent after it is released. -/
namespace StatusPublication

open RustStr Runs ThreadWatch List ThreadWatchState Option

/-- The manager with the calls that have changed the state and not yet returned. What they have
left to send stands in the order of their changes, with the number of the change. -/
structure Manager where
  state : ThreadWatchState
  published : ℕ
  countReceivers : ℕ
  sent : List ThreadStatusChangedNotification
  unsentCounts : List (ℕ × ℕ)
  unsentNotifications : List (ℕ × ThreadStatusChangedNotification)
  changes : ℕ

def Manager.new : Manager := ⟨.empty, 0, 0, [], [], [], 0⟩

inductive Event where
  | mutate (update : Update)
  | sendCount (unsent : ℕ × ℕ)
  | sendNotification (unsent : ℕ × ThreadStatusChangedNotification)
  | subscribeRunningTurnCount
  | unsubscribeRunningTurnCount

section

variable (s : Manager)

/-- A call sends its notification after its count. -/
def Enabled : Event → Prop
  | .sendCount unsent => unsent ∈ s.unsentCounts
  | .sendNotification unsent =>
    unsent ∈ s.unsentNotifications ∧ ∀ count ∈ s.unsentCounts, count.1 ≠ unsent.1
  | .mutate _ | .subscribeRunningTurnCount | .unsubscribeRunningTurnCount => True

variable (outgoing : Bool)

/-- The steps of `mutate_and_publish`. A count that nobody receives is lost; without a channel
for them there are no notifications. -/
def next (s : Manager) : Event → Manager
  | .mutate update =>
    let (state, notification) := update.mutate s.state
    { s with
      state
      unsentCounts := s.unsentCounts ++ [(s.changes, state.runningTurnCount)]
      unsentNotifications := s.unsentNotifications ++
        (if outgoing then notification.toList.map fun n => (s.changes, n) else [])
      changes := s.changes + 1 }
  | .sendCount unsent =>
    { s with
      published := if s.countReceivers = 0 then s.published else unsent.2
      unsentCounts := s.unsentCounts.erase unsent }
  | .sendNotification unsent =>
    { s with
      sent := s.sent ++ [unsent.2]
      unsentNotifications := s.unsentNotifications.erase unsent }
  | .subscribeRunningTurnCount => { s with countReceivers := s.countReceivers + 1 }
  | .unsubscribeRunningTurnCount => { s with countReceivers := s.countReceivers - 1 }

def manager : EventSystem Manager Event := ⟨Enabled, next outgoing⟩

instance decidableManager (s : Manager) (event : Event) :
    Decidable ((manager outgoing).Enabled s event) := by
  cases event <;> dsimp only [manager, Enabled] <;> infer_instance

def Manager.Returned : Prop := s.unsentCounts = [] ∧ s.unsentNotifications = []

def Manager.sentAbout (t : Str) : List ThreadStatusChangedNotification :=
  s.sent.filter fun n => n.threadId = t

def Manager.unsentAbout (t : Str) : List (ℕ × ThreadStatusChangedNotification) :=
  s.unsentNotifications.filter fun unsent => unsent.2.threadId = t

structure CaughtUp (s : Manager) : Prop where
  count : s.published = s.state.runningTurnCount
  status : ∀ t n, (s.sentAbout t).getLast? = some n → n.status = s.state.loadedStatusForThread t

/-- Counts go out in the order of the changes, with somebody to receive them if they are new, and
so do the notifications about one thread. A thread that is not loaded and about which there is a
notification is not upserted silently. -/
def InOrder : Event → Prop
  | .mutate (.upsertThreadSilently t) =>
    s.state.loadedStatusForThread t = .notLoaded → s.sentAbout t = [] ∧ s.unsentAbout t = []
  | .sendCount unsent => s.unsentCounts.head? = some unsent ∧
    (s.countReceivers = 0 → unsent.2 = s.published)
  | .sendNotification unsent => (s.unsentAbout unsent.2.threadId).head? = some unsent
  | .mutate _ | .subscribeRunningTurnCount | .unsubscribeRunningTurnCount => True

instance decidableInOrder (event : Event) : Decidable (InOrder s event) := by
  unfold InOrder
  split <;> infer_instance

end

variable {t : Str} {n : ThreadStatusChangedNotification} {u : Update} {s : Manager}

section

variable {s : ThreadWatchState}

theorem loadedStatusForThread_of_statusFor (h : s.statusFor t = some status) :
    s.loadedStatusForThread t = status := by
  rw [loadedStatusForThread, h, getD_some]

theorem statusChangedNotification_eq_some (h : s.statusChangedNotification t p = some n) :
    n = ⟨t, s.loadedStatusForThread t⟩ := by
  unfold statusChangedNotification at h
  split at h
  · cases h
  · rename_i status hs
    split at h
    · cases h
    · rw [loadedStatusForThread_of_statusFor hs]
      exact (some.inj h).symm

theorem statusChangedNotification_eq_none (h : s.statusChangedNotification t p = none)
    (he : s.statusFor t ≠ none) : p.getD .notLoaded = s.loadedStatusForThread t := by
  unfold statusChangedNotification at h
  split at h
  · contradiction
  · rename_i status hs
    split at h
    · rename_i hp
      rw [hp, loadedStatusForThread_of_statusFor hs, getD_some]
    · cases h

theorem notification_mutate (h : (u.mutate s).2 = some n) :
    n = ⟨u.threadId, (u.mutate s).1.loadedStatusForThread u.threadId⟩ := by
  cases u with
  | upsertThreadSilently t => cases h
  | removeThread t =>
    have hu := (Update.notLoaded_mutate (.removeThread t) s).mpr rfl
    rw [hu]
    simp only [Update.mutate, removeThread] at h
    split at h
    · exact (some.inj h).symm
    · cases h
  | _ => exact statusChangedNotification_eq_some h

theorem status_mutate_of_none (hsl : u ≠ .upsertThreadSilently u.threadId)
    (h : (u.mutate s).2 = none) :
    (u.mutate s).1.loadedStatusForThread u.threadId = s.loadedStatusForThread u.threadId := by
  have he := u.lookup_mutate s
  cases u with
  | upsertThreadSilently t => exact absurd rfl hsl
  | removeThread t =>
    rw [(Update.notLoaded_mutate (.removeThread t) s).mpr rfl]
    simp only [Update.mutate, removeThread] at h
    rw [Update.threadId, loadedStatusForThread]
    cases hst : s.statusFor t with
    | none => rfl
    | some st => simp_all
  | _ =>
    refine (statusChangedNotification_eq_none h ?_).symm
    have hs := congrArg (Option.map loadedThreadStatus) he
    intro hn
    exact some_ne_none _ (hs.symm.trans hn)

theorem status_mutate_silently (h : s.loadedStatusForThread t ≠ .notLoaded) :
    (Update.mutate (.upsertThreadSilently t) s).1.loadedStatusForThread t =
      s.loadedStatusForThread t := by
  have he := Update.lookup_mutate (.upsertThreadSilently t) s
  rw [Update.threadId] at he
  rw [loadedStatusForThread, statusFor] at h
  rw [loadedStatusForThread, statusFor, he, loadedStatusForThread, statusFor]
  cases hl : s.runtimeByThreadId.lookup t with rw [hl] at h
  | none => exact absurd rfl h
  | some r =>
    have hld : r.isLoaded = true := by
      rw [← Bool.not_eq_false, ← loadedThreadStatus_eq_notLoaded]
      exact h
    simp [Update.entryAfter, ← hld]

end

def Manager.latestCount (s : Manager) : ℕ :=
  (s.unsentCounts.getLast?.map Prod.snd).getD s.published

def Manager.about (s : Manager) (t : Str) : List ThreadStatusChangedNotification :=
  s.sentAbout t ++ (s.unsentAbout t).map Prod.snd

/-- What will have been published when all calls have returned. -/
structure CatchesUp (outgoing : Bool) (s : Manager) : Prop where
  count : s.latestCount = s.state.runningTurnCount
  status : ∀ t n, (s.about t).getLast? = some n → n.status = s.state.loadedStatusForThread t
  unheard : outgoing = false → ∀ t, s.about t = []

theorem catchesUp_new (o : Bool) : CatchesUp o .new where
  count := rfl
  status := by
    intro t n h
    cases h
  unheard := fun _ _ => rfl

variable {outgoing : Bool}

theorem CatchesUp.caughtUp (h : CatchesUp o s) (hr : s.Returned) : CaughtUp s where
  count := by
    have hc := h.count
    rwa [Manager.latestCount, hr.1] at hc
  status := by
    intro t n hl
    apply h.status t n
    rwa [Manager.about, Manager.unsentAbout, hr.2, filter_nil, map_nil, append_nil]

theorem latestCount_sendCount {u : ℕ × ℕ} (ho : InOrder s (.sendCount u)) :
    (next o s (.sendCount u)).latestCount = s.latestCount := by
  obtain ⟨hh, hr⟩ := ho
  obtain ⟨r, hrs⟩ := List.head?_eq_some_iff.mp hh
  have hp : (if s.countReceivers = 0 then s.published else u.2) = u.2 := by
    split
    · rename_i hn
      exact (hr hn).symm
    · rfl
  rw [Manager.latestCount, Manager.latestCount, next, hrs, erase_cons_head, hp]
  cases hl : r.getLast? with
  | none =>
    rw [List.getLast?_eq_none_iff] at hl
    subst hl
    rfl
  | some l => rw [List.getLast?_cons, hl]; rfl

theorem about_sendNotification {u : ℕ × ThreadStatusChangedNotification}
    (ho : InOrder s (.sendNotification u)) (t : Str) :
    (next o s (.sendNotification u)).about t = s.about t := by
  simp only [Manager.about, Manager.sentAbout, Manager.unsentAbout, next, ← erase_filter]
  by_cases ht : u.2.threadId = t
  · subst ht
    obtain ⟨r, hr⟩ := List.head?_eq_some_iff.mp ho
    rw [Manager.unsentAbout] at hr
    simp [hr]
  · have hn : u ∉ s.unsentNotifications.filter fun u => u.2.threadId = t := by
      rw [mem_filter, decide_eq_true_eq]
      exact fun hm => ht hm.2
    rw [erase_of_not_mem hn]
    simp [ht]

theorem about_mutate (o : Bool) (s : Manager) (u : Update) (t : Str) :
    (next o s (.mutate u)).about t = s.about t ++
      (if o then (u.mutate s.state).2.toList.filter fun n => n.threadId = t else []) := by
  simp only [Manager.about, Manager.sentAbout, Manager.unsentAbout, next]
  cases o with
  | false => simp
  | true =>
    cases (u.mutate s.state).2 with
    | none => simp
    | some n => by_cases ht : n.threadId = t <;> simp [ht]

/-- The last notification about the thread of a change tells its status after the change. -/
theorem status_about_mutate (h : CatchesUp true s) (ho : InOrder s (.mutate u))
    (hl : ((next true s (.mutate u)).about u.threadId).getLast? = some n) :
    n.status = (u.mutate s.state).1.loadedStatusForThread u.threadId := by
  rw [about_mutate, if_pos rfl] at hl
  cases hn : (u.mutate s.state).2 with
  | some m =>
    have hm := notification_mutate hn
    rw [hn, hm] at hl
    simp only [toList_some, filter_cons, decide_true, if_true, filter_nil,
      List.getLast?_concat, some.injEq] at hl
    rw [← hl]
  | none =>
    rw [hn, toList_none, filter_nil, append_nil] at hl
    rw [h.status _ n hl]
    by_cases hs : u = .upsertThreadSilently u.threadId
    · rw [hs] at ho ⊢
      by_cases hld : s.state.loadedStatusForThread u.threadId = .notLoaded
      · obtain ⟨hsn, hu⟩ := ho hld
        rw [Manager.about, hsn, hu] at hl
        cases hl
      · exact (status_mutate_silently hld).symm
    · exact (status_mutate_of_none hs hn).symm

theorem about_mutate_of_ne (s : Manager) (h : t ≠ u.threadId) :
    (next o s (.mutate u)).about t = s.about t := by
  rw [about_mutate]
  cases hn : (u.mutate s.state).2 with
  | none => simp
  | some n =>
    rw [notification_mutate hn]
    simp [Ne.symm h]

theorem catchesUp_mutate (h : CatchesUp o s) (ho : InOrder s (.mutate u)) :
    CatchesUp o (next o s (.mutate u)) where
  count := by simp [Manager.latestCount, next]
  status := by
    intro t n hl
    by_cases ht : t = u.threadId
    · subst ht
      cases o with
      | true => exact status_about_mutate h ho hl
      | false =>
        rw [about_mutate, h.unheard rfl] at hl
        cases hl
    · rw [about_mutate_of_ne s ht] at hl
      rw [h.status t n hl]
      exact (loadedStatusForThread_congr (u.lookup_mutate_of_ne s.state ht)).symm
  unheard := by
    rintro rfl t
    rw [about_mutate, h.unheard rfl t]
    rfl

theorem catchesUp_next (h : CatchesUp o s) (ho : InOrder s e) : CatchesUp o (next o s e) := by
  cases e with
  | mutate u => exact catchesUp_mutate h ho
  | sendCount unsent => exact { h with count := (latestCount_sendCount ho).trans h.count }
  | sendNotification unsent =>
    have ha : ∀ t, (next o s (.sendNotification unsent)).about t = s.about t :=
      about_sendNotification ho
    refine ⟨h.count, ?_, ?_⟩
    · intro t n hl
      rw [ha] at hl
      exact h.status t n hl
    · intro hu t
      rw [ha]
      exact h.unheard hu t
  | _ => exact { h with }

/-- In every run in which counts go out in the order of the changes and are received, the
notifications about one thread go out in that order, and no silent upsert loads a thread there is
a notification about: once all calls have returned, what was last published is the case. -/
theorem published_catches_up {s : Manager}
    (h : (manager outgoing).Reaches InOrder .new s) (hreturned : s.Returned) : CaughtUp s := by
  have hc : CatchesUp outgoing s :=
    h.invariant (fun _ _ hs _ ho => catchesUp_next hs ho) (catchesUp_new outgoing)
  exact hc.caughtUp hreturned

def started : ThreadStatusChangedNotification := ⟨worker, .active []⟩

def oneAfterTheOther : List Event :=
  [.subscribeRunningTurnCount, .mutate (.noteTurnStarted worker),
    .mutate (.noteTurnCompleted worker false), .sendCount (0, 1), .sendNotification (0, started),
    .sendCount (1, 0), .sendNotification (1, ⟨worker, .idle⟩)]

theorem published_catches_up_one_after_the_other :
    let s := (manager true).run oneAfterTheOther .new
    s.sent = [started, ⟨worker, .idle⟩] ∧ CaughtUp s := by
  have ha : (manager true).Allows InOrder oneAfterTheOther .new := by decide
  exact ⟨by decide, published_catches_up (EventSystem.Reaches.of_allows ha) ⟨by decide, by decide⟩⟩

/-- The end of a turn is published before its start: all calls have returned, the published count
is one and the last notification says that the turn is active, and nothing runs. -/
theorem start_published_last :
    let events : List Event := [.subscribeRunningTurnCount, .mutate (.noteTurnStarted worker),
      .mutate (.noteTurnCompleted worker false), .sendCount (1, 0),
      .sendNotification (1, ⟨worker, .idle⟩), .sendCount (0, 1), .sendNotification (0, started)]
    let s := (manager true).run events .new
    (manager true).Allows EventSystem.always events .new ∧
      (s.unsentCounts = [] ∧ s.unsentNotifications = []) ∧
      s.published = 1 ∧ s.state.runningTurnCount = 0 ∧
      (s.sentAbout worker).getLast? = some started ∧
      s.state.loadedStatusForThread worker = .idle := by
  decide

end StatusPublication
