import CodexTeams.RequestLanes
import Mathlib.Data.List.Nodup

/-! The gates of the connections, the progress of the drains, and what callers may rely on. -/
namespace RequestSerialization

open Runs List Function EventSystem.Reaches EventSystem State Event

variable {Key Gate Future : Type*} {request : QueuedSerializedRequest Key Gate Future}

section Gates

/-- The token counts the running handlers of the gate, and a gate that skipped a request or is being
shut down lets nobody in. -/
structure Gated [DecidableEq Gate] (s : State Key Gate Future) : Prop where
  tokens : ∀ gate, (s.gates gate).tasks.tokens = s.running.countP fun request => request.gate = gate
  skipped : ∀ request ∈ s.skipped, (s.gates request.gate).accepting = false
  shuttingDown : ∀ gate ∈ s.shuttingDown, (s.gates gate).accepting = false
  shutDown : ∀ gate ∈ s.shutDown, (s.gates gate).accepting = false ∧ (s.gates gate).tasks.tokens = 0

theorem gated_start [DecidableEq Gate] : Gated (.start : State Key Gate Future) := by
  constructor <;> simp [start, running, ConnectionRpcGate.new]

variable {s : State Key Gate Future}

theorem Gated.not_running [DecidableEq Gate] (h : Gated s) (hs : gate ∈ s.shutDown) :
    ∀ rq ∈ s.running, rq.gate ≠ gate := by
  have ht := (h.shutDown gate hs).2
  rw [h.tokens] at ht
  simpa using ht

theorem accepting_of_admitted (h : rq ∈ admitted s e) : (s.gates rq.gate).accepting = true := by
  cases e with
  | enter drain o =>
    rw [admitted] at h
    split at h
    · rw [mem_singleton.mp h]
      assumption
    · cases h
  | _ => cases h

theorem not_accepting_of_refused (h : rq ∈ refused s e) : (s.gates rq.gate).accepting = false := by
  cases e with
  | enter drain o =>
    rw [refused] at h
    split at h
    · cases h
    · rename_i hc
      rw [mem_singleton.mp h]
      exact Bool.eq_false_iff.mpr hc
  | _ => cases h

theorem admitted_of_not_accepting (h : (s.gates gate).accepting = false) :
    ∀ rq ∈ admitted s e, rq.gate ≠ gate := by
  rintro rq hm rfl
  rw [accepting_of_admitted hm] at h
  cases h

variable [DecidableEq Key] [DecidableEq Gate] [DecidableEq Future]

theorem not_accepting_next (h : (s.gates g).accepting = false) :
    ((next s e).gates g).accepting = false := by
  cases e with
  | enqueue rq =>
    rw [next, enqueue]
    split <;> exact h
  | take drain =>
    rw [next, take]
    split <;> exact h
  | enter drain rq =>
    rw [next, enter]
    split
    · by_cases heq : g = rq.gate
      · subst heq
        simpa using h
      · simpa [update_of_ne heq] using h
    · exact h
  | finish drain rq =>
    by_cases heq : g = rq.gate
    · subst heq
      simpa [next, finish] using h
    · simpa [next, finish, update_of_ne heq] using h
  | close o =>
    by_cases heq : g = o
    · subst heq
      simp [next]
    · simpa [next, update_of_ne heq] using h
  | _ => exact h

theorem tokens_moved (s : State Key Gate Future) (e : Event Key Gate Future) (gate : Gate) :
    ((next s e).gates gate).tasks.tokens =
      (s.gates gate).tasks.tokens + (admitted s e).countP (fun rq => rq.gate = gate) -
        (returned e).countP fun rq => rq.gate = gate := by
  cases e with
  | enqueue rq =>
    rw [next, enqueue]
    split <;> rfl
  | take drain =>
    rw [next, take]
    split <;> rfl
  | enter drain rq =>
    rw [next, enter, admitted]
    split
    · by_cases heq : gate = rq.gate
      · subst heq
        simp [returned]
      · simp [returned, update_of_ne heq, Ne.symm heq]
    · rfl
  | finish drain rq =>
    by_cases heq : gate = rq.gate
    · subst heq
      simp [next, finish, admitted, returned]
    · simp [next, finish, admitted, returned, update_of_ne heq, Ne.symm heq]
  | close o =>
    by_cases heq : gate = o
    · subst heq
      simp [next, admitted, returned]
    · simp [next, admitted, returned, update_of_ne heq]
  | _ => rfl

theorem tokens_next (h : Gated s) (he : Enabled s e)
    (gate : Gate) : ((next s e).gates gate).tasks.tokens =
      (next s e).running.countP fun rq => rq.gate = gate := by
  have hc := (moved_next he).running.countP_eq fun rq => rq.gate = gate
  have ht := tokens_moved s e gate
  rw [countP_append, countP_append, ← h.tokens] at hc
  omega

theorem not_accepting_close (s : State Key Gate Future) (g : Gate) :
    ((next s (.close g)).gates g).accepting = false := by
  simp [next]

theorem mem_shuttingDown_next (h : g ∈ (next s e).shuttingDown) :
    e = .close g ∨ g ∈ s.shuttingDown := by
  cases e with
  | enqueue rq =>
    rw [next, enqueue] at h
    split at h <;> exact .inr h
  | take drain =>
    rw [next, take] at h
    split at h <;> exact .inr h
  | enter drain rq =>
    rw [next, enter] at h
    split at h <;> exact .inr h
  | close o =>
    rcases mem_cons.mp h with rfl | hb
    · exact .inl rfl
    · exact .inr hb
  | shutdownReturns o => exact .inr (mem_of_mem_erase h)
  | _ => exact .inr h

theorem shutDown_next (s : State Key Gate Future) (e : Event Key Gate Future) :
    (next s e).shutDown = s.shutDown ∨
      ∃ g, e = .shutdownReturns g ∧ (next s e).shutDown = g :: s.shutDown := by
  cases e with
  | enqueue rq =>
    rw [next, enqueue]
    split <;> exact .inl rfl
  | take drain =>
    rw [next, take]
    split <;> exact .inl rfl
  | enter drain rq =>
    rw [next, enter]
    split <;> exact .inl rfl
  | shutdownReturns o => exact .inr ⟨o, rfl, rfl⟩
  | _ => exact .inl rfl

theorem gated_next (h : Gated s) (he : Enabled s e) : Gated (next s e) := by
  have hmv := moved_next he
  have ht := tokens_next h he
  refine ⟨ht, ?_, ?_, ?_⟩
  · intro rq hm
    rw [hmv.skipped] at hm
    apply not_accepting_next
    rcases mem_append.mp hm with hb | hr
    · exact h.skipped rq hb
    · exact not_accepting_of_refused hr
  · intro g hm
    rcases mem_shuttingDown_next hm with rfl | hb
    · exact not_accepting_close s g
    · exact not_accepting_next (h.shuttingDown g hb)
  · intro g hm
    have hs : (s.gates g).accepting = false ∧ (s.gates g).tasks.tokens = 0 := by
      rcases shutDown_next s e with hsm | ⟨o, rfl, hnw⟩
      · exact h.shutDown g (hsm ▸ hm)
      · rcases mem_cons.mp hm with rfl | hb
        · exact ⟨h.shuttingDown g he.1, he.2.2⟩
        · exact h.shutDown g hb
    refine ⟨not_accepting_next hs.1, ?_⟩
    have hn : (admitted s e).countP (fun rq => rq.gate = g) = 0 := by
      simpa using admitted_of_not_accepting hs.1
    rw [tokens_moved]
    omega

end Gates

def Event.progress : Event Key Gate Future → Bool
  | .spawn _ | .take _ | .enter _ _ | .finish _ _ => true
  | _ => false

section

variable (s : State Key Gate Future)

def advanced : ℕ :=
  s.waiting.length + 2 * s.running.length + 3 * (s.finished.length + s.skipped.length)

def pending : ℕ := 2 * s.spawning.length + s.drains.length

theorem passed_enter (d : Drain Key Gate Future) (rq : QueuedSerializedRequest Key Gate Future) :
    (admitted s (.enter d rq)).length + (refused s (.enter d rq)).length = 1 := by
  rw [admitted, refused]
  split <;> rfl

end

theorem drain_progress (hm : d ∈ s.drains) :
    ∃ event : Event Key Gate Future, event.progress = true ∧ Enabled s event := by
  cases hw : d.waiting with
  | cons rq _ => exact ⟨.enter d rq, rfl, hm, by simp [hw]⟩
  | nil =>
    cases hr : d.running with
    | cons rq _ => exact ⟨.finish d rq, rfl, hm, by simp [hr]⟩
    | nil => exact ⟨.take d, rfl, hm, hw, hr⟩

section Progress

variable [DecidableEq Key] [DecidableEq Gate] [DecidableEq Future] {s : State Key Gate Future}

theorem advanced_next (he : Enabled s e) :
    advanced (next s e) = advanced s + (taken s e).length + (admitted s e).length +
      (returned e).length + 2 * (refused s e).length := by
  have hm := moved_next he
  have hw := hm.waiting.length_eq
  have hr := hm.running.length_eq
  rw [advanced, advanced, hm.finished, hm.skipped]
  simp only [length_append] at hw hr ⊢
  omega

theorem pending_replace (hm : d ∈ s.drains) (hs : s'.spawning = s.spawning)
    (hd : s'.drains = (s.replace d d').drains) : pending s' = pending s := by
  have hl := (perm_cons_erase hm).length_eq
  rw [pending, pending, hs, hd, State.replace, hl, length_cons, length_cons]

theorem pending_erase (hm : d ∈ s.drains) (hs : s'.spawning = s.spawning)
    (hd : s'.drains = s.drains.erase d) : pending s' + 1 = pending s := by
  have hl := (perm_cons_erase hm).length_eq
  rw [pending, pending, hs, hd, hl, length_cons]
  omega

theorem pending_take (hm : d ∈ s.drains) :
    pending (take s d) + 1 ≤ pending s + (taken s (.take d)).length := by
  cases hq : s.queues d.key with
  | none =>
    rw [take, hq]
    exact Nat.le_add_right_of_le (Nat.le_of_eq (pending_erase hm rfl rfl))
  | some q =>
    cases q with
    | nil =>
      rw [take, hq]
      exact Nat.le_add_right_of_le (Nat.le_of_eq (pending_erase hm rfl rfl))
    | cons rq q =>
      have hp : pending (take s d) = pending s := by
        rw [take, hq]
        exact pending_replace hm rfl rfl
      have ht : taken s (.take d) = (popGroup rq q).1 := by rw [taken, hq]
      rw [hp, ht]
      exact Nat.add_le_add_left popGroup_pos _

theorem pending_enter (hm : d ∈ s.drains) : pending (enter s d rq) = pending s := by
  rw [enter]
  split <;> exact pending_replace hm rfl rfl

theorem progress_next (he : Enabled s e) :
    advanced s + pending (next s e) + [e].countP Event.progress ≤
      advanced (next s e) + pending s + 2 * (enqueues e).length := by
  rw [advanced_next he]
  cases e with
  | enqueue rq =>
    have hp : pending (next s (.enqueue rq)) ≤ pending s + 2 := by
      rw [next, enqueue]
      split <;> simp only [pending, length_cons] <;> omega
    simp [progress, enqueues]
    omega
  | spawn key =>
    have hl := (perm_cons_erase he).length_eq
    simp [progress, next, pending] at hl ⊢
    omega
  | take drain =>
    have hp := pending_take he.1
    simp [progress, next]
    omega
  | enter drain rq =>
    have hps := passed_enter s drain rq
    rw [next, pending_enter he.1]
    simp [progress]
    omega
  | finish drain rq =>
    have hp : pending (finish s drain rq) = pending s := pending_replace he.1 rfl rfl
    simp [progress, next, returned]
    omega
  | _ =>
    simp [progress, next, pending]
    omega

structure Invariant (s : State Key Gate Future) : Prop where
  keyed : Keyed s
  served : Served s
  tally : Tally s
  ordered : Ordered s
  gated : Gated s

theorem invariant_start : Invariant (.start : State Key Gate Future) where
  keyed := keyed_start
  served := fun _ => rfl
  tally := ⟨nodup_nil, fun _ => rfl, fun _ => rfl⟩
  ordered := fun _ => ⟨[], [], rfl, by simp, by simp, by simp [State.Active, start,
    waiting, running], .inl (Nat.zero_le 1)⟩
  gated := gated_start

theorem invariant_next (h : Invariant s) (he : Enabled s e) : Invariant (next s e) where
  keyed := keyed_next h.keyed he
  served := served_next h.served he
  tally := tally_next h.keyed h.tally he
  ordered := ordered_next h.keyed h.served h.ordered he
  gated := gated_next h.gated he

theorem invariant_of_reaches (h : Invariant s)
    (hr : server.Reaches EventSystem.always s s') : Invariant s' :=
  invariant (fun _ _ hs he _ => invariant_next hs he) hr h

namespace Invariant

variable (h : Invariant s)

include h

theorem overlap (ha : a ∈ s.running) (hb : b ∈ s.running) (hk : a.key = b.key) (hne : a ≠ b) :
    a.access = .sharedRead ∧ b.access = .sharedRead := by
  obtain ⟨p, c, hl⟩ := h.ordered b.key
  have ha := hl.active a (.inr ha) hk
  have hb := hl.active b (.inr hb) rfl
  rcases hl.group with ho | hs
  · cases c with
    | nil => cases ha
    | cons first r =>
      have hr : r = [] := length_eq_zero_iff.mp (Nat.le_zero.mp (Nat.le_of_succ_le_succ ho))
      rw [hr, mem_singleton] at ha hb
      exact absurd (ha.trans hb.symm) hne
  · exact ⟨hs a ha, hs b hb⟩

theorem not_queued_of_started (hs : rq ∈ s.started) : rq ∉ s.queued rq.key := by
  intro hq
  have hp := h.tally.places rq
  have hc := h.tally.started rq
  have hle := nodup_iff_count_le_one.mp h.tally.nodup rq
  have hps := count_pos_iff.mpr hs
  have hqu := count_pos_iff.mpr hq
  omega

theorem served_of_queue (hq : (s.queues key).isSome = true) :
    key ∈ s.spawning ∨ ∃ d ∈ s.drains, d.key = key := by
  have ho := h.served key
  rw [if_pos hq] at ho
  by_cases hs : key ∈ s.spawning
  · exact .inl hs
  · rw [count_eq_zero_of_not_mem hs] at ho
    have hm : key ∈ s.drains.map Drain.key := count_pos_iff.mp (by omega)
    exact .inr (mem_map.mp hm)

/-- A request that is not over is with a drain, or its queue has one. -/
theorem exists_progress (hm : rq ∈ s.enqueued) (ho : ¬ s.Over rq) :
    ∃ event : Event Key Gate Future, event.progress = true ∧ Enabled s event := by
  have hp := h.tally.places rq
  have hps := count_pos_iff.mpr hm
  obtain ⟨hf, hsk⟩ := not_or.mp ho
  rw [count_eq_zero_of_not_mem hf, count_eq_zero_of_not_mem hsk] at hp
  by_cases ha : s.Active rq
  · rcases ha with ha | ha <;> exact drain_progress (mem_flatMap.mp ha).choose_spec.1
  · obtain ⟨hw, hr⟩ := not_or.mp ha
    rw [count_eq_zero_of_not_mem hw, count_eq_zero_of_not_mem hr] at hp
    have hq : rq ∈ s.queued rq.key := count_pos_iff.mp (by omega)
    have hqu : (s.queues rq.key).isSome = true := by
      by_contra hn
      rw [queued, Option.not_isSome_iff_eq_none.mp hn] at hq
      cases hq
    rcases h.served_of_queue hqu with hs | ⟨drain, hd, _⟩
    · exact ⟨.spawn rq.key, rfl, hs⟩
    · exact drain_progress hd

theorem advanced_le : advanced s ≤ 3 * s.enqueued.length := by
  have hs : List.Subperm (s.waiting ++ s.running ++ s.finished ++ s.skipped) s.enqueued := by
    apply subperm_ext_iff.mpr
    intro rq _
    have hp := h.tally.places rq
    simp only [count_append]
    omega
  have hl := hs.length_le
  simp only [length_append] at hl
  rw [advanced]
  omega

end Invariant

structure Serialized (s : State Key Gate Future) : Prop where
  overlap : ∀ a ∈ s.running, ∀ b ∈ s.running, a.key = b.key → a ≠ b →
    a.access = .sharedRead ∧ b.access = .sharedRead
  inOrder : ∀ key before earlier between later after,
    ofKey key s.enqueued = before ++ (earlier :: between ++ [later]) ++ after →
    later ∈ s.started →
    s.Over earlier ∨ ∀ request ∈ earlier :: between ++ [later], request.access = .sharedRead
  once : ∀ request, s.started.count request + s.skipped.count request ≤ s.enqueued.count request ∧
    s.enqueued.count request ≤ 1
  skipped : ∀ request ∈ s.skipped, (s.gates request.gate).accepting = false
  served : ∀ key queue, s.queues key = some queue →
    key ∈ s.spawning ∨ ∃ drain ∈ s.drains, drain.key = key
  settled : (∀ event : Event Key Gate Future, event.progress = true → ¬ Enabled s event) →
    ∀ request ∈ s.enqueued, s.finished.count request + s.skipped.count request = 1
  shutDown : ∀ gate ∈ s.shutDown, ∀ request ∈ s.running, request.gate ≠ gate

theorem serialized_of_invariant (h : Invariant s) : Serialized s where
  overlap := fun _ ha _ hb => h.overlap ha hb
  inOrder := by
    intro key b e between l after he hs
    obtain ⟨p, c, hl⟩ := h.ordered key
    have hk : l ∈ ofKey key s.enqueued := by simp [he]
    have hq := h.not_queued_of_started hs
    rw [(mem_ofKey.mp hk).2] at hq
    exact hl.over_or_shared he hq
  once := by
    intro rq
    have hpl := h.tally.places rq
    have hs := h.tally.started rq
    exact ⟨by omega, nodup_iff_count_le_one.mp h.tally.nodup rq⟩
  skipped := h.gated.skipped
  served := by
    intro key q hqu
    exact h.served_of_queue (by rw [hqu]; rfl)
  settled := by
    intro hqt rq hm
    have ho : s.Over rq := by
      by_contra ho
      obtain ⟨event, hp, hen⟩ := h.exists_progress hm ho
      exact hqt event hp hen
    have hpl := h.tally.places rq
    have hle := nodup_iff_count_le_one.mp h.tally.nodup rq
    rcases ho with ho | ho
    · have hps := count_pos_iff.mpr ho
      omega
    · have hps := count_pos_iff.mpr ho
      omega
  shutDown := fun _ => h.gated.not_running

/-- The work done along a run is paid for by the calls of `enqueue`. -/
theorem progress_run (h : server.Allows EventSystem.always es s) :
    advanced s + pending (server.run es s) + es.countP Event.progress ≤
      advanced (server.run es s) + pending s +
        2 * ((server.run es s).enqueued.length - s.enqueued.length) ∧
    s.enqueued.length ≤ (server.run es s).enqueued.length := by
  induction es generalizing s with
  | nil => simp [run]
  | cons event es ih =>
    obtain ⟨he, _, hr⟩ := h
    obtain ⟨hlt, hl⟩ := ih hr
    have hs : advanced s + pending (server.next s event) + [event].countP progress ≤
        advanced (server.next s event) + pending s + 2 * (enqueues event).length :=
      progress_next he
    have hen : (server.next s event).enqueued.length =
        s.enqueued.length + (enqueues event).length := by
      rw [← length_append]
      exact congrArg List.length (moved_next he).enqueued
    rw [run, countP_cons]
    rw [countP_singleton] at hs
    omega

/-- Shutting down is for good: no handler of the gate starts after it. -/
theorem shutDown_of_reaches (h : Invariant s) (hsh : gate ∈ s.shutDown)
    (hr : server.Reaches EventSystem.always s s') :
    gate ∈ s'.shutDown ∧ s'.started.filter (fun rq => rq.gate = gate) =
      s.started.filter fun rq => rq.gate = gate := by
  let Kept : State Key Gate Future → Prop := fun t => Invariant t ∧ gate ∈ t.shutDown ∧
    t.started.filter (fun rq => rq.gate = gate) = s.started.filter fun rq => rq.gate = gate
  have hst : ∀ t event, Kept t → Enabled t event → always t event → Kept (next t event) := by
    intro t event ht he _
    obtain ⟨hi, hm, hs⟩ := ht
    have hn : (admitted t event).filter (fun rq => rq.gate = gate) = [] := by
      simpa using admitted_of_not_accepting (hi.gated.shutDown gate hm).1
    refine ⟨invariant_next hi he, ?_, ?_⟩
    · rcases shutDown_next t event with heq | ⟨o, _, heq⟩
      · rwa [heq]
      · rw [heq]
        exact mem_cons_of_mem o hm
    · rw [(moved_next he).started, filter_append, hn, append_nil, hs]
  have hk : Kept s' := invariant hst hr ⟨h, hsh, rfl⟩
  exact hk.2

/-- Along every schedule of callers, drains, handlers and shutdowns: requests of a key overlap only
as shared reads and start in the order of the queue, each is handled once or skipped at a closed
gate, no queue is left without a drain, the drains come to an end, and a gate that was shut down
stays so. -/
theorem requests_serialized :
    (∀ s : State Key Gate Future, server.Reaches EventSystem.always .start s → Serialized s) ∧
    (∀ events : List (Event Key Gate Future), server.Allows EventSystem.always events .start →
      events.countP Event.progress ≤ 5 * (server.run events .start).enqueued.length) ∧
    (∀ (s s' : State Key Gate Future) (gate : Gate),
      server.Reaches EventSystem.always .start s → gate ∈ s.shutDown →
      server.Reaches EventSystem.always s s' →
      gate ∈ s'.shutDown ∧ s'.started.filter (fun request => request.gate = gate) =
        s.started.filter fun request => request.gate = gate) := by
  refine ⟨?_, ?_, ?_⟩
  · intro s hr
    exact serialized_of_invariant (invariant_of_reaches invariant_start hr)
  · intro events ha
    have hr := of_allows ha
    have had := (invariant_of_reaches invariant_start hr).advanced_le
    have hrn := (progress_run ha).1
    have hz : advanced (.start : State Key Gate Future) = 0 ∧
        pending (.start : State Key Gate Future) = 0 ∧
        (start : State Key Gate Future).enqueued.length = 0 := ⟨rfl, rfl, rfl⟩
    omega
  · intro s s' gate hr hs hl
    exact shutDown_of_reaches (invariant_of_reaches invariant_start hr) hs hl

end Progress

/-- Two shared reads and an exclusive request on one key; the gate of the last is shut down while
the reads run. -/
theorem requests_serialized_gate_closed :
    let read : QueuedSerializedRequest ℕ ℕ ℕ := ⟨0, .sharedRead, 0, 0⟩
    let o : QueuedSerializedRequest ℕ ℕ ℕ := ⟨0, .sharedRead, 0, 1⟩
    let w : QueuedSerializedRequest ℕ ℕ ℕ := ⟨0, .exclusive, 1, 2⟩
    let es : List (Event ℕ ℕ ℕ) := [.enqueue read, .enqueue o, .spawn 0, .enqueue w,
      .take ⟨0, [], []⟩, .enter ⟨0, [read, o], []⟩ o, .enter ⟨0, [read], [o]⟩ read,
      .close 1, .shutdownReturns 1, .finish ⟨0, [], [read, o]⟩ o,
      .finish ⟨0, [], [read]⟩ read, .take ⟨0, [], []⟩, .enter ⟨0, [w], []⟩ w,
      .take ⟨0, [], []⟩]
    let l := server.run es .start
    server.Allows always es .start ∧ l.finished = [o, read] ∧
    l.skipped = [w] ∧ Serialized l ∧ es.countP progress ≤ 5 * 3 := by
  intro read o w es l
  have ha : server.Allows always es .start := by decide
  refine ⟨ha, by decide, by decide, ?_, ?_⟩
  · exact requests_serialized.1 l (of_allows ha)
  · exact requests_serialized.2.1 es ha

end RequestSerialization
