import CodexTeams.RequestSerialization

/-! The requests of one key: who drains its queue, and in which order the groups are taken. -/
namespace RequestSerialization

open List Function State

variable {Key Gate Future : Type*} {r : QueuedSerializedRequest Key Gate Future}

/-- Requests stand where their key says. -/
structure Keyed (s : State Key Gate Future) : Prop where
  queues : ∀ key, ∀ request ∈ s.queued key, request.key = key
  drains : ∀ drain ∈ s.drains, ∀ request, request ∈ drain.waiting ∨ request ∈ drain.running →
    request.key = drain.key

theorem keyed_start : Keyed (.start : State Key Gate Future) := by
  constructor <;> simp [start, queued]

section Keys

variable [DecidableEq Key]

def ofKey (key : Key) (requests : List (QueuedSerializedRequest Key Gate Future)) :
    List (QueuedSerializedRequest Key Gate Future) :=
  requests.filter fun request => request.key = key

theorem mem_ofKey : r ∈ ofKey key rs ↔ r ∈ rs ∧ r.key = key := by
  simp [ofKey]

theorem ofKey_append (key : Key) (rs more : List (QueuedSerializedRequest Key Gate Future)) :
    ofKey key (rs ++ more) = ofKey key rs ++ ofKey key more :=
  filter_append ..

theorem ofKey_eq_self {requests : List (QueuedSerializedRequest Key Gate Future)}
    (h : ∀ r ∈ requests, r.key = key) : ofKey key requests = requests := by
  apply filter_eq_self.mpr
  simpa using h

theorem ofKey_eq_nil {rs : List (QueuedSerializedRequest Key Gate Future)}
    (h : ∀ r ∈ rs, r.key ≠ key) : ofKey key rs = [] := by
  apply filter_eq_nil_iff.mpr
  simpa using h

variable (s : State Key Gate Future)

section

variable (r : QueuedSerializedRequest Key Gate Future)

theorem queued_enqueue (key : Key) : (enqueue s r).queued key = s.queued key ++ ofKey key [r] := by
  by_cases hk : key = r.key
  · subst hk
    rw [ofKey_eq_self (by simp), enqueue]
    split <;> rename_i hq <;> simp [queued, hq]
  · rw [ofKey_eq_nil (by simpa using Ne.symm hk), enqueue]
    split <;> simp [queued, update_of_ne hk]

theorem drains_enqueue : (enqueue s r).drains = s.drains := by
  rw [enqueue]
  split <;> rfl

end

variable [DecidableEq Gate] [DecidableEq Future] {s : State Key Gate Future}

theorem queued_take (d : Drain Key Gate Future) :
    taken s (.take d) ++ (take s d).queued d.key = s.queued d.key := by
  cases hq : s.queues d.key with
  | none => simp [taken, take, queued, hq]
  | some q =>
    cases q with
    | nil => simp [taken, take, queued, hq]
    | cons r q => simp [taken, take, queued, hq, popGroup_append]

theorem queued_take_of_ne (hk : key ≠ d.key) : (take s d).queued key = s.queued key := by
  rw [take]
  split <;> simp [queued, update_of_ne hk]

variable (h : Keyed s)

include h

theorem Keyed.taken (d : Drain Key Gate Future) : ∀ r ∈ taken s (.take d), r.key = d.key := by
  intro r hm
  apply h.queues
  rw [← queued_take]
  exact mem_append_left _ hm

theorem Keyed.replace (hdr : ∀ r, r ∈ d'.waiting ∨ r ∈ d'.running → r.key = d'.key)
    (hd : s'.drains = (s.replace d d').drains) (hq : ∀ key, ∀ r ∈ s'.queued key, r.key = key) :
    Keyed s' := by
  refine ⟨hq, ?_⟩
  intro o ho
  rw [hd] at ho
  rcases mem_cons.mp ho with rfl | hol
  · exact hdr
  · exact h.drains o (mem_of_mem_erase hol)

theorem keyed_take (hrn : d.running = []) : Keyed (take s d) := by
  have hq : ∀ key, ∀ r ∈ (take s d).queued key, r.key = key := by
    intro key r hr
    by_cases hk : key = d.key
    · subst hk
      apply h.queues
      rw [← queued_take]
      exact mem_append_right _ hr
    · rw [queued_take_of_ne hk] at hr
      exact h.queues key r hr
  have hol : ∀ o ∈ s.drains.erase d, ∀ r, r ∈ o.waiting ∨ r ∈ o.running → r.key = o.key :=
    fun o ho => h.drains o (mem_of_mem_erase ho)
  cases hqu : s.queues d.key with
  | none =>
    refine ⟨hq, ?_⟩
    rw [take, hqu]
    exact hol
  | some q =>
    cases q with
    | nil =>
      refine ⟨hq, ?_⟩
      rw [take, hqu]
      exact hol
    | cons r q =>
      have ht := h.taken d
      rw [RequestSerialization.taken, hqu] at ht
      rw [take, hqu] at hq ⊢
      refine h.replace ?_ rfl hq
      rintro o (ho | ho)
      · exact ht o ho
      · rw [hrn] at ho
        cases ho

theorem keyed_enter (hm : d ∈ s.drains) (hw : r ∈ d.waiting) : Keyed (enter s d r) := by
  have hk := h.drains d hm
  rw [enter]
  split
  · refine h.replace ?_ rfl h.queues
    rintro o (ho | ho)
    · exact hk o (.inl (mem_of_mem_erase ho))
    · rcases mem_cons.mp ho with rfl | ho
      · exact hk o (.inl hw)
      · exact hk o (.inr ho)
  · refine h.replace ?_ rfl h.queues
    rintro o (ho | ho)
    · exact hk o (.inl (mem_of_mem_erase ho))
    · exact hk o (.inr ho)

theorem keyed_finish (hm : d ∈ s.drains) : Keyed (finish s d r) := by
  refine h.replace ?_ rfl h.queues
  rintro o (ho | ho)
  · exact h.drains d hm o (.inl ho)
  · exact h.drains d hm o (.inr (mem_of_mem_erase ho))

theorem keyed_next (he : Enabled s e) : Keyed (next s e) := by
  cases e with
  | enqueue r =>
    refine ⟨?_, ?_⟩
    · intro key o ho
      rw [next, queued_enqueue, mem_append, mem_ofKey] at ho
      rcases ho with ho | ho
      · exact h.queues key o ho
      · exact ho.2
    · rw [next, drains_enqueue]
      exact h.drains
  | spawn key =>
    refine ⟨h.queues, ?_⟩
    intro drain hd
    rcases mem_cons.mp hd with rfl | hol
    · simp
    · exact h.drains drain hol
  | take drain => exact keyed_take h he.2.2
  | enter drain r => exact keyed_enter h he.1 he.2
  | finish drain r => exact keyed_finish h he.1
  | _ => exact ⟨h.queues, h.drains⟩

theorem queued_next (e : Event Key Gate Future) (key : Key) :
    ofKey key (taken s e) ++ (next s e).queued key = s.queued key ++ ofKey key (enqueues e) := by
  cases e with
  | enqueue r => exact queued_enqueue s r key
  | take drain =>
    rw [next]
    by_cases hk : key = drain.key
    · subst hk
      rw [ofKey_eq_self (h.taken drain), queued_take]
      exact (append_nil _).symm
    · rw [ofKey_eq_nil, queued_take_of_ne hk]
      · exact (append_nil _).symm
      · intro r hr heq
        exact hk (heq.symm.trans (h.taken drain r hr))
  | enter drain r =>
    rw [next, enter]
    split <;> exact (append_nil _).symm
  | _ => exact (append_nil _).symm

end Keys

/-- A queue in the map has one drain, running or about to be spawned; other keys have none. -/
def Served [DecidableEq Key] (s : State Key Gate Future) : Prop :=
  ∀ key, s.spawning.count key + (s.drains.map Drain.key).count key =
    if (s.queues key).isSome then 1 else 0

section Drains

variable [DecidableEq Key]

theorem served_enqueue (h : Served s) (r : QueuedSerializedRequest Key Gate Future) :
    Served (enqueue s r) := by
  intro key
  have hk := h key
  rw [enqueue]
  by_cases heq : key = r.key
  · subst heq
    split <;> rename_i hq <;> simp [hq] at hk ⊢ <;> omega
  · split
    · simpa [update_of_ne heq] using hk
    · simpa [update_of_ne heq, count_cons_of_ne (Ne.symm heq)] using hk

variable [DecidableEq Gate] [DecidableEq Future] {s : State Key Gate Future}

section

variable (h : Served s)

include h

theorem Served.eq_of_key (hm : d ∈ s.drains) (hm' : d' ∈ s.drains)
    (hk : d'.key = d.key) : d' = d := by
  by_contra hne
  have ho := mem_map.mpr ⟨d', (mem_erase_of_ne hne).mpr hm', hk⟩
  have hc := ((perm_cons_erase hm).map Drain.key).count_eq d.key
  have hp := count_pos_iff.mpr ho
  have hon := h d.key
  rw [map_cons, count_cons_self] at hc
  split at hon <;> omega

theorem Served.replace (hm : d ∈ s.drains) (hd : s'.drains = (s.replace d d').drains)
    (hky : d'.key = d.key) (hs : s'.spawning = s.spawning)
    (hq : ∀ key, (s'.queues key).isSome = (s.queues key).isSome) : Served s' := by
  intro key
  have hc := ((perm_cons_erase hm).map Drain.key).count_eq key
  have hk : s'.drains.map Drain.key = (d :: s.drains.erase d).map Drain.key := by
    rw [hd, State.replace, map_cons, map_cons, hky]
  rw [hs, hq, hk, ← hc]
  exact h key

theorem served_take (hm : d ∈ s.drains) : Served (take s d) := by
  have hp : 0 < (s.drains.map Drain.key).count d.key := count_pos_iff.mpr (mem_map_of_mem hm)
  have ho := h d.key
  cases hq : s.queues d.key with
  | none =>
    rw [hq] at ho
    simp at ho
    omega
  | some q =>
    cases q with
    | nil =>
      intro key
      have hc := ((perm_cons_erase hm).map Drain.key).count_eq key
      rw [take, hq]
      by_cases heq : key = d.key
      · subst heq
        rw [hq] at ho
        simp at ho hc ⊢
        omega
      · have hk := h key
        simp [update_of_ne heq, count_cons_of_ne (Ne.symm heq)] at hc hk ⊢
        omega
    | cons r q =>
      rw [take, hq]
      refine h.replace hm rfl rfl rfl ?_
      intro key
      by_cases heq : key = d.key
      · subst heq
        simp [hq]
      · simp [update_of_ne heq]

theorem served_next (he : Enabled s e) : Served (next s e) := by
  cases e with
  | enqueue r => exact served_enqueue h r
  | spawn key =>
    intro other
    have hc := (perm_cons_erase he).count_eq other
    rw [count_cons] at hc
    refine Eq.trans ?_ (h other)
    simp only [next, map_cons, count_cons]
    omega
  | take drain => exact served_take h he.1
  | enter drain r =>
    rw [next, enter]
    split <;> exact h.replace he.1 rfl rfl rfl fun _ => rfl
  | finish drain r => exact h.replace he.1 rfl rfl rfl fun _ => rfl
  | _ => exact h

end

structure Tally (s : State Key Gate Future) : Prop where
  nodup : s.enqueued.Nodup
  places : ∀ request, s.enqueued.count request = (s.queued request.key).count request +
    s.waiting.count request + s.running.count request + s.finished.count request +
    s.skipped.count request
  started : ∀ request, s.started.count request = s.running.count request + s.finished.count request

theorem count_ofKey (r : QueuedSerializedRequest Key Gate Future)
    (rs : List (QueuedSerializedRequest Key Gate Future)) : (ofKey r.key rs).count r = rs.count r :=
  count_filter (by simp)

theorem tally_next (hk : Keyed s) (h : Tally s) (he : Enabled s e) : Tally (next s e) := by
  have hm := moved_next he
  constructor
  · rw [hm.enqueued]
    cases e with
    | enqueue r =>
      apply nodup_append.mpr
      refine ⟨h.nodup, by simp [enqueues], ?_⟩
      rintro o ho _ hn rfl
      rw [enqueues, mem_singleton] at hn
      exact he (hn ▸ ho)
    | _ => simpa [enqueues] using h.nodup
  · intro r
    have hp := h.places r
    have hq := congrArg (List.count r) (queued_next hk e r.key)
    have hw := hm.waiting.count_eq r
    have hr := hm.running.count_eq r
    rw [hm.enqueued, hm.finished, hm.skipped]
    simp only [count_append, count_ofKey] at hq hw hr ⊢
    omega
  · intro r
    have hs := h.started r
    have hr := hm.running.count_eq r
    rw [hm.started, hm.finished]
    simp only [count_append] at hr ⊢
    omega

/-- What was enqueued under a key: requests that are over, the group in the hands of the drain, and
the queue. -/
structure Lane (s : State Key Gate Future) (key : Key)
    (past current : List (QueuedSerializedRequest Key Gate Future)) : Prop where
  split : ofKey key s.enqueued = past ++ current ++ s.queued key
  finished : ∀ request ∈ past, s.Over request
  joined : ∀ request ∈ current, s.Over request ∨ s.Active request
  active : ∀ request, s.Active request → request.key = key → request ∈ current
  group : Group current

def Ordered (s : State Key Gate Future) : Prop := ∀ key, ∃ past current, Lane s key past current

theorem not_active_of_idle (hk : Keyed s) (hs : Served s)
    (he : Enabled s (.take d)) (ha : s.Active r) : r.key ≠ d.key := by
  intro hky
  obtain ⟨hm, hw, hr⟩ := he
  have hh : ∃ o ∈ s.drains, r ∈ o.waiting ∨ r ∈ o.running := by
    rcases ha with ha | ha
    · obtain ⟨o, ho, hin⟩ := mem_flatMap.mp ha
      exact ⟨o, ho, .inl hin⟩
    · obtain ⟨o, ho, hin⟩ := mem_flatMap.mp ha
      exact ⟨o, ho, .inr hin⟩
  obtain ⟨o, ho, hin⟩ := hh
  have hsm := hs.eq_of_key hm ho ((hk.drains o ho r hin).symm.trans hky)
  simp [hsm, hw, hr] at hin

theorem Lane.keep (h : Lane s key p c) (hky : Keyed s) (hm : Moved s (next s e) e)
    (ht : ofKey key (taken s e) = []) : Lane (next s e) key p c where
  split := by
    have hq := queued_next hky e key
    rw [ht, nil_append] at hq
    rw [hm.enqueued, ofKey_append, h.split, hq, append_assoc]
  finished := fun o ho => hm.stays_over (h.finished o ho)
  joined := by
    intro o ho
    rcases h.joined o ho with hov | ha
    · exact .inl (hm.stays_over hov)
    · exact hm.over_or_active ha
  active := by
    intro o ha hk
    rcases hm.active_or_taken ha with hb | hnw
    · exact h.active o hb hk
    · have hn := mem_ofKey.mpr ⟨hnw, hk⟩
      rw [ht] at hn
      cases hn
  group := h.group

theorem Lane.take (h : Lane s d.key p c) (hk : Keyed s) (hs : Served s) (he : Enabled s (.take d)) :
    Lane (next s (.take d)) d.key (p ++ c) (taken s (.take d)) := by
  have hm := moved_next he
  have hi : ∀ r, s.Active r → r.key ≠ d.key := fun _ => not_active_of_idle hk hs he
  refine ⟨?_, ?_, ?_, ?_, ?_⟩
  · have hq := queued_next hk (.take d) d.key
    rw [ofKey_eq_self (hk.taken d)] at hq
    rw [hm.enqueued, ofKey_append, h.split, append_assoc, ← hq, append_assoc (p ++ c)]
  · intro o ho
    apply hm.stays_over
    rcases mem_append.mp ho with hp | hc
    · exact h.finished o hp
    · rcases h.joined o hc with hov | ha
      · exact hov
      · have hky : o ∈ ofKey d.key s.enqueued := by
          rw [h.split]
          simp [hc]
        exact absurd (mem_ofKey.mp hky).2 (hi o ha)
  · intro o ho
    exact hm.over_or_active_of_waiting (mem_append_left _ ho)
  · intro o ha hky
    rcases hm.active_or_taken ha with hb | hn
    · exact absurd hky (hi o hb)
    · exact hn
  · exact group_taken s d

theorem ordered_next (hk : Keyed s) (hs : Served s) (h : Ordered s)
    (he : Enabled s e) : Ordered (next s e) := by
  intro key
  obtain ⟨p, c, hl⟩ := h key
  by_cases ht : ofKey key (taken s e) = []
  · exact ⟨p, c, hl.keep hk (moved_next he) ht⟩
  · cases e with
    | take drain =>
      obtain ⟨r, hm⟩ := exists_mem_of_ne_nil _ ht
      have hky := (mem_ofKey.mp hm).2
      rw [hk.taken drain r (mem_ofKey.mp hm).1] at hky
      subst hky
      exact ⟨_, _, hl.take hk hs he⟩
    | _ => exact absurd rfl ht

theorem mem_or_infix_of_append_eq {p : List α}
    (h : bf ++ (a :: bt ++ [b]) ++ af = p ++ current ++ rest) (hb : b ∉ rest) :
    a ∈ p ∨ (a :: bt ++ [b]) <:+: current := by
  by_cases ha : a ∈ p
  · exact .inl ha
  right
  rw [append_assoc, append_assoc p] at h
  have hs : ∃ sk, (sk ++ (a :: bt ++ [b])) ++ af = current ++ rest := by
    rcases append_eq_append_iff.mp h with ⟨e, hp, hr⟩ | ⟨sk, _, hr⟩
    · cases e with
      | nil => exact ⟨[], by simpa using hr⟩
      | cons first e =>
        rw [cons_append, cons_append, cons_append, List.cons.injEq] at hr
        rw [hp, hr.1] at ha
        simp at ha
    · exact ⟨sk, by rw [hr, append_assoc]⟩
  obtain ⟨sk, hs⟩ := hs
  rcases append_eq_append_iff.mp hs with ⟨left, hc, _⟩ | ⟨bn, heq, hr⟩
  · exact ⟨sk, left, hc.symm⟩
  · rcases eq_nil_or_concat' bn with rfl | ⟨bn, l, rfl⟩
    · exact ⟨sk, [], by rw [append_nil, heq, append_nil]⟩
    · rw [← append_assoc, ← append_assoc] at heq
      have hl := (append_inj' heq rfl).2
      rw [hr, singleton_inj.mp hl] at hb
      simp at hb

omit [DecidableEq Gate] [DecidableEq Future] in
/-- Of two requests of a key the later leaves the queue after the earlier is over, unless they and
all between them are shared reads. -/
theorem Lane.over_or_shared (h : Lane s key p c) {e : QueuedSerializedRequest Key Gate Future}
    (he : ofKey key s.enqueued = bf ++ (e :: bt ++ [l]) ++ af) (hlf : l ∉ s.queued key) :
    s.Over e ∨ ∀ r ∈ e :: bt ++ [l], r.access = .sharedRead := by
  rcases mem_or_infix_of_append_eq (he.symm.trans h.split) hlf with hp | hi
  · exact .inl (h.finished e hp)
  · rcases h.group with ho | hs
    · have hl := hi.length_le
      rw [length_append, length_cons, length_singleton] at hl
      omega
    · exact .inr fun r hm => hs r (hi.subset hm)

end Drains

end RequestSerialization
