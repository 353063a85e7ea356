import CodexTeams.ProcessEvents
import CodexTeams.RustInt

/-! Reads of the output a process retains, beside the tasks that take it in. A read looks at the
output under the lock, and only afterwards registers for the next notification. -/
namespace ProcessReads

open RustInt Runs ProcessEvents List RunningProcess EventSystem.Reaches Function

structure ReadParams where
  afterSeq : Option ℕ
  maxBytes : Option ℕ
  deriving Repr

structure ReadResponse where
  chunks : List ProcessOutputChunk
  nextSeq : ℕ
  exited : Bool
  exitCode : Option ℤ
  closed : Bool
  deriving Repr

def page (maxBytes : ℕ) :
    List ProcessOutputChunk → List ProcessOutputChunk → ℕ → ℕ → List ProcessOutputChunk × ℕ
  | [], chunks, _, nextSeq => (chunks, nextSeq)
  | retained :: rest, chunks, totalBytes, nextSeq =>
    if chunks ≠ [] ∧ maxBytes < totalBytes + retained.chunk.length then (chunks, nextSeq)
    else if maxBytes ≤ totalBytes + retained.chunk.length then
      (chunks ++ [retained], retained.seq + 1)
    else page maxBytes rest (chunks ++ [retained]) (totalBytes + retained.chunk.length)
      (retained.seq + 1)

namespace ReadParams

variable (params : ReadParams)

def after : ℕ := params.afterSeq.getD 0

def look (p : RunningProcess) : ReadResponse :=
  let found := page (params.maxBytes.getD usizeMax)
    (p.output.filter fun chunk => params.after < chunk.seq) [] 0 p.nextSeq
  ⟨found.1, found.2, p.exitCode.isSome, p.exitCode, p.closed⟩

variable (response : ReadResponse)

def hasNewTerminalEvent : Bool :=
  response.exited && params.after < response.nextSeq - 1

def returns (deadlinePassed : Bool) : Bool :=
  response.chunks ≠ [] || response.closed || params.hasNewTerminalEvent response || deadlinePassed

end ReadParams

inductive ReadPhase
  | idle
  | looking (params : ReadParams)
  /-- Has let go of the lock and is not registered yet. -/
  | deciding (params : ReadParams) (response : ReadResponse)
  | waiting (params : ReadParams)
  deriving Repr

structure State where
  server : ProcessEvents.State
  /-- The task has taken something in and has not yet notified those registered. -/
  unnotified : Task → Bool
  phase : ReadPhase
  lastSeq : Option ℕ
  returned : List ProcessOutputChunk

def State.new : State := ⟨.new, fun _ => false, .idle, none, []⟩

inductive Event
  | server (event : ProcessEvents.Event)
  | notifyWaiters (task : Task)
  | call (params : ReadParams)
  | look (deadlinePassed : Bool)
  /-- The deadline passes before the read is registered. -/
  | expire
  | register
  | timeout
  deriving Repr

def Enabled (s : State) : Event → Prop
  | .server event => ProcessEvents.Enabled s.server event ∧
      ∀ task, event = .send task → s.unnotified task = false
  | .notifyWaiters task => s.unnotified task = true
  | .call _ => s.phase = .idle
  | .look _ => ∃ params, s.phase = .looking params
  | .expire | .register => ∃ params response, s.phase = .deciding params response
  | .timeout => ∃ params, s.phase = .waiting params

def numbering (s : ProcessEvents.State) : ProcessEvents.Event → Option Task
  | .chunk task _ => some task
  | .exit _ => some .exitWatcher
  | .emitClosed task => if s.process.closes then some task else none
  | _ => none

def finish (response : ReadResponse) (s : State) : State :=
  { s with
    phase := .idle
    lastSeq := some (response.nextSeq - 1)
    returned := s.returned ++ response.chunks }

variable (tty : Bool)

def next (s : State) : Event → State
  | .server event =>
    { s with
      server := ProcessEvents.next tty s.server event
      unnotified := fun task => s.unnotified task || numbering s.server event = some task }
  | .notifyWaiters task =>
    { s with
      unnotified := update s.unnotified task false
      phase := match s.phase with
        | .waiting params => .looking params
        | phase => phase }
  | .call params => { s with phase := .looking params }
  | .look deadlinePassed =>
    match s.phase with
    | .looking params =>
      let response := params.look s.server.process
      if params.returns response deadlinePassed then finish response s
      else { s with phase := .deciding params response }
    | _ => s
  | .expire =>
    match s.phase with
    | .deciding _ response => finish response s
    | _ => s
  | .register =>
    match s.phase with
    | .deciding params _ => { s with phase := .waiting params }
    | _ => s
  | .timeout =>
    match s.phase with
    | .waiting params => { s with phase := .looking params }
    | _ => s

def system : EventSystem State Event := ⟨Enabled, next tty⟩

def outputs (events : List ExecProcessEvent) : List ProcessOutputChunk :=
  events.filterMap fun event =>
    match event with
    | .output chunk => some chunk
    | _ => none

section

variable (s : State)

def Pending (chunk : ProcessOutputChunk) : Prop :=
  ∃ task, s.unnotified task = true ∧ s.server.phases task = .sending (.output chunk)

/-- A read waits although output that it could return is retained, and nobody will notify it. -/
def Missed : Prop :=
  ∃ params, s.phase = .waiting params ∧ ∃ chunk ∈ s.server.process.output,
    params.after < chunk.seq ∧ ¬ Pending s chunk

/-- No task notifies of a chunk that a read is after between the look and the registration. -/
def Registered : Event → Prop
  | .notifyWaiters task => ∀ params response chunk, s.phase = .deciding params response →
      s.server.phases task = .sending (.output chunk) → chunk ∈ s.server.process.output →
      chunk.seq ≤ params.after
  | _ => True

/-- Nothing is evicted, and each read starts where the last one ended. -/
def Paged : Event → Prop
  | .server (.chunk _ bytes) =>
    s.server.process.retainedBytes + bytes.length ≤ retainedOutputBytesPerProcess
  | .call params => params.afterSeq = s.lastSeq
  | _ => True

end

section Page

variable (ps : ReadParams) (p : RunningProcess)

/-- A page is a beginning of what is to be read, and `nextSeq` follows its last chunk. -/
theorem page_spec (mbs : ℕ) (cs t : List ProcessOutputChunk) (tbs ns : ℕ) :
    ∃ f rs, cs = f ++ rs ∧ page mbs cs t tbs ns = (t ++ f, (f.getLast?.map (·.seq + 1)).getD ns) ∧
      (t = [] → f = [] → cs = []) := by
  induction cs generalizing t tbs ns with
  | nil => exact ⟨[], [], rfl, by simp [page], fun _ _ => rfl⟩
  | cons r cs ih =>
    rw [page]
    split
    · next hf => exact ⟨[], _, rfl, by simp, fun hn => absurd hn hf.1⟩
    · split
      · exact ⟨[r], cs, rfl, by simp, nofun⟩
      · obtain ⟨f, rs, rfl, hp, _⟩ := ih (t ++ [r]) (tbs + r.chunk.length) (r.seq + 1)
        refine ⟨r :: f, rs, rfl, ?_, nofun⟩
        rw [hp, append_assoc, List.getLast?_cons]
        cases f.getLast? <;> rfl

theorem look_spec (hu : p.output.filter (fun c => ps.after < c.seq) = u) :
    ∃ f rs, u = f ++ rs ∧ (ps.look p).chunks = f ∧
      (ps.look p).nextSeq = (f.getLast?.map (·.seq + 1)).getD p.nextSeq ∧ (f = [] → u = []) := by
  obtain ⟨f, rs, hs, hp, hn⟩ := page_spec (ps.maxBytes.getD usizeMax) u [] 0 p.nextSeq
  refine ⟨f, rs, hs, ?_, ?_, hn rfl⟩
  · rw [ReadParams.look, hu, hp, nil_append]
  · rw [ReadParams.look, hu, hp]

variable {ps p}

theorem not_above_of_look (h : (ps.look p).chunks = []) (hm : c ∈ p.output) : c.seq ≤ ps.after := by
  obtain ⟨f, _, _, hf, _, hnl⟩ := look_spec ps p rfl
  have hn := hnl (hf.symm.trans h)
  rw [filter_eq_nil_iff] at hn
  simpa using hn c hm

end Page

section Server

variable {tty}

theorem evict_suffix (chunks : List ProcessOutputChunk) (bs : ℕ) :
    (RunningProcess.evict chunks bs).1 <:+ chunks := by
  induction chunks generalizing bs with
  | nil => exact suffix_refl _
  | cons o chunks ih =>
    rw [evict]
    split
    · exact (ih _).trans (suffix_cons _ _)
    · exact suffix_refl _

theorem evict_of_le (h : bs ≤ retainedOutputBytesPerProcess) (cs : List ProcessOutputChunk) :
    RunningProcess.evict cs bs = (cs, bs) := by
  cases cs with
  | nil => rfl
  | cons o cs => rw [evict, if_neg (Nat.not_lt.mpr h)]

theorem process_next (h : ∀ t bs, e ≠ .chunk t bs) :
    (ProcessEvents.next tty s e).process.output = s.process.output ∧
      s.process.nextSeq ≤ (ProcessEvents.next tty s e).process.nextSeq ∧
      outputs (ProcessEvents.next tty s e).process.events = outputs s.process.events ∧
      (s.process.closed = true → (ProcessEvents.next tty s e).process.closed = true) := by
  cases e with
  | chunk t bs => exact absurd rfl (h t bs)
  | finishStream t =>
    simp only [ProcessEvents.next, finishOutputStream]
    split <;> exact ⟨rfl, le_rfl, rfl, id⟩
  | exit ec =>
    simp [ProcessEvents.next, setPhase, exit, number, outputs]
  | send t =>
    simp only [ProcessEvents.next, sendNext]
    split <;> exact ⟨rfl, le_rfl, rfl, id⟩
  | emitClosed t =>
    simp only [ProcessEvents.next]
    split
    · simp [setPhase, close, number, outputs]
    · exact ⟨rfl, le_rfl, rfl, id⟩
  | _ => exact ⟨rfl, le_rfl, rfl, id⟩

theorem phases_next (he : ProcessEvents.Enabled s e) (hs : s.phases task = .sending notification)
    (hsn : e ≠ .send task) : (ProcessEvents.next tty s e).phases task = .sending notification := by
  have ho : ∀ {o : Task} {phase : TaskPhase}, o ≠ task →
      update s.phases o phase task = .sending notification :=
    fun hne => (update_of_ne hne.symm ..).trans hs
  have hne : ∀ {o : Task}, s.phases o = .waiting ∨ s.phases o = .finishing ∨
      s.phases o = .closing → o ≠ task := by
    rintro o hp rfl
    simp [hs] at hp
  cases e with
  | finishStream o => exact ho (hne (.inr (.inl he.2)))
  | exit ec => exact ho (hne (.inl he))
  | send o =>
    have hne : o ≠ task := fun heq => hsn (by rw [heq])
    simp only [ProcessEvents.next, sendNext]
    split
    · exact ho hne
    · exact ho hne
    · exact hs
  | emitClosed o =>
    have hne := hne (.inr (.inr he))
    simp only [ProcessEvents.next]
    split <;> exact ho hne
  | arrive notification => exact hs
  | _ => exact ho (hne (.inl he.2))

end Server

section Waiting

variable {tty}

/-- A read that has looked or waits will be notified of what it is after. -/
def Watched (s : State) : Prop :=
  ∀ params, (s.phase = .waiting params ∨ ∃ response, s.phase = .deciding params response) →
    ∀ chunk ∈ s.server.process.output, params.after < chunk.seq → Pending s chunk

theorem Pending.server (h : Pending s chunk) (he : Enabled s (.server ev)) :
    Pending (next tty s (.server ev)) chunk := by
  obtain ⟨t, hu, hs⟩ := h
  refine ⟨t, by simp [next, hu], phases_next he.1 hs fun heq => ?_⟩
  rw [he.2 t heq] at hu
  cases hu

theorem Watched.server (h : Watched s) (he : Enabled s (.server ev)) :
    Watched (next tty s (.server ev)) := by
  intro params hp chunk hm ha
  by_cases hc : ∃ t bs, ev = .chunk t bs
  · obtain ⟨t, bs, rfl⟩ := hc
    have hm := (evict_suffix _ _).subset hm
    rcases mem_append.mp hm with ho | hn
    · exact (h params hp chunk ho ha).server he
    · rw [mem_singleton.mp hn]
      exact ⟨t, by simp [next, numbering], update_self ..⟩
  · have hs : (ProcessEvents.next tty s.server ev).process.output =
        s.server.process.output := (process_next fun t bs heq => hc ⟨t, bs, heq⟩).1
    exact (h params hp chunk (hs ▸ hm) ha).server he

theorem Watched.next (h : Watched s) (he : Enabled s ev) (hc : Registered s ev) :
    Watched (next tty s ev) := by
  cases ev with
  | server ev => exact h.server he
  | notifyWaiters task =>
    intro params hp chunk hm ha
    cases ho : s.phase with
    | deciding f r =>
      obtain rfl : f = params := by simpa [ProcessReads.next, ho] using hp
      obtain ⟨o, hu, hs⟩ := h f (.inr ⟨r, ho⟩) chunk hm ha
      have hne : o ≠ task := by
        rintro rfl
        have := hc f r chunk ho hs hm
        omega
      exact ⟨o, (update_of_ne hne ..).trans hu, hs⟩
    | _ => simp [ProcessReads.next, ho] at hp
  | call f => exact fun params hp => by simp [ProcessReads.next] at hp
  | look dp =>
    obtain ⟨f, ho⟩ := he
    simp only [ProcessReads.next, ho]
    split
    · exact fun params hp => by simp [finish] at hp
    · next hr =>
      intro params hp chunk hm ha
      obtain rfl : f = params := by simpa using hp
      simp only [ReadParams.returns, Bool.or_eq_true, not_or] at hr
      have := not_above_of_look (by simpa using hr.1.1.1) hm
      omega
  | expire =>
    obtain ⟨f, r, ho⟩ := he
    simp only [ProcessReads.next, ho]
    exact fun params hp => by simp [finish] at hp
  | register =>
    obtain ⟨f, r, ho⟩ := he
    simp only [ProcessReads.next, ho]
    intro params hp
    obtain rfl : f = params := by simpa using hp
    exact h f (.inr ⟨r, ho⟩)
  | timeout =>
    obtain ⟨f, ho⟩ := he
    simp only [ProcessReads.next, ho]
    exact fun params hp => by simp at hp

end Waiting

/-- In a run in which no task notifies between a look and the registration, a read that waits will
be notified of all it could return. -/
theorem read_not_missed {s : State} (h : (system tty).Reaches Registered State.new s) :
    ¬ Missed s := by
  have hnw : Watched State.new := fun params hp => by simp [State.new] at hp
  have hw : Watched s := invariant (fun s event hs he hc => hs.next he hc) h hnw
  rintro ⟨params, hp, chunk, hm, ha, hn⟩
  exact hn (hw params (.inl hp) chunk hm ha)

def readAll : ReadParams := ⟨none, none⟩

theorem read_not_missed_output_after_registration :
    let s := (system false).run [.call readAll, .look false, .register,
      .server (.chunk .firstStream [0])] State.new
    s.phase = .waiting readAll ∧ s.server.process.output = [⟨1, .stdout, [0]⟩] ∧ ¬ Missed s := by
  refine ⟨rfl, rfl, read_not_missed false (of_allows ?_)⟩
  exact ⟨rfl, trivial, ⟨_, rfl⟩, trivial, ⟨_, _, rfl⟩, trivial,
    ⟨⟨by decide, rfl⟩, nofun⟩, trivial, trivial⟩

/-- A chunk is taken in and notified of after a read has looked and before it is registered. -/
theorem read_misses_output : ∃ s, (system false).Reaches EventSystem.always State.new s ∧ Missed s ∧
      ∀ task, s.unnotified task = false := by
  have ha : (system false).Allows EventSystem.always [.call readAll, .look false,
      .server (.chunk .firstStream [0]), .notifyWaiters .firstStream, .register] State.new :=
    ⟨rfl, trivial, ⟨_, rfl⟩, trivial, ⟨⟨by decide, rfl⟩, nofun⟩, trivial,
      rfl, trivial, ⟨_, _, rfl⟩, trivial, trivial⟩
  have hn : ∀ task, ((system false).run [.call readAll, .look false,
      .server (.chunk .firstStream [0]), .notifyWaiters .firstStream, .register]
        State.new).unnotified task = false := by
    intro task
    cases task <;> rfl
  refine ⟨_, of_allows ha, ⟨readAll, rfl, ⟨1, .stdout, [0]⟩, ?_, ?_, ?_⟩, hn⟩
  · exact mem_singleton_self _
  · decide
  · rintro ⟨task, hu, _⟩
    rw [hn] at hu
    cases hu

/-- Everything that was taken in is retained, under growing numbers. -/
structure Kept (p : RunningProcess) : Prop where
  all : p.output = outputs p.events
  sorted : p.output.Pairwise fun a b => a.seq < b.seq
  below : ∀ chunk ∈ p.output, chunk.seq < p.nextSeq

/-- The chunks up to a number were returned, and those after it are unread. -/
structure Cut (returned : List ProcessOutputChunk) (after : ℕ) (p : RunningProcess) : Prop where
  below : after < p.nextSeq
  unread : ∃ unread, p.output = returned ++ unread ∧ (∀ chunk ∈ returned, chunk.seq ≤ after) ∧
    ∀ chunk ∈ unread, after < chunk.seq

section Paging

variable {tty} {params : ReadParams}

theorem Cut.filter (h : Cut rt a p) : rt ++ p.output.filter (fun c => a < c.seq) = p.output := by
  obtain ⟨u, ho, hr, hu⟩ := h.unread
  rw [ho, filter_append, filter_eq_nil_iff.mpr]
  · simpa using hu
  · simpa using hr

theorem Cut.look (h : Cut rt params.after p) (hk : Kept p) :
    Cut (rt ++ (params.look p).chunks) ((params.look p).nextSeq - 1) p := by
  obtain ⟨f, rest, hs, hch, hn, hnl⟩ := look_spec params p rfl
  have ho : p.output = (rt ++ f) ++ rest := by
    rw [append_assoc, ← hs, h.filter]
  have hp := hk.sorted
  rw [hch, hn]
  cases hl : f.getLast? with
  | none =>
    have he : f = [] := List.getLast?_eq_none_iff.mp hl
    have hr : rest = [] := by simpa [he] using hs.symm.trans (hnl he)
    have hps : 0 < p.nextSeq := Nat.zero_lt_of_lt h.below
    refine ⟨Nat.sub_lt hps Nat.one_pos, rest, ho, fun chunk hm => ?_, by simp [hr]⟩
    exact Nat.le_sub_one_of_lt (hk.below chunk (ho ▸ mem_append_left _ hm))
  | some l =>
    obtain ⟨init, rfl⟩ := List.getLast?_eq_some_iff.mp hl
    have hm : l ∈ p.output := by simp [ho]
    refine ⟨hk.below l hm, rest, ho, ?_, ?_⟩
    · rw [ho, ← append_assoc] at hp
      intro chunk hc
      rw [← append_assoc] at hc
      rcases mem_append.mp hc with hi | hl
      · have := (pairwise_append.mp (pairwise_append.mp hp).1).2.2 chunk hi l (mem_singleton_self _)
        exact this.le
      · rw [mem_singleton.mp hl]
        exact le_rfl
    · rw [ho] at hp
      exact fun chunk hc => (pairwise_append.mp hp).2.2 l (by simp) chunk hc

theorem Kept.server (h : Kept s.server.process) (hp : Paged s (.server ev)) :
    Kept (ProcessEvents.next tty s.server ev).process ∧ ∀ rt a, Cut rt a s.server.process →
        Cut rt a (ProcessEvents.next tty s.server ev).process := by
  by_cases hc : ∃ t bs, ev = .chunk t bs
  · obtain ⟨t, bs, rfl⟩ := hc
    let new : ProcessOutputChunk :=
      ⟨s.server.process.nextSeq, outputStream tty t, bs⟩
    have ho : (ProcessEvents.next tty s.server (.chunk t bs)).process.output =
        s.server.process.output ++ [new] := congrArg Prod.fst (evict_of_le hp _)
    refine ⟨⟨?_, ?_, ?_⟩, fun rt a hct => ⟨Nat.lt_succ_of_lt hct.below, ?_⟩⟩
    · rw [ho, h.all]
      simp [ProcessEvents.next, setPhase, pushOutput, number, outputEvent, outputs, new]
    · rw [ho, pairwise_append]
      refine ⟨h.sorted, pairwise_singleton _ _, fun chunk hc f hf => ?_⟩
      rw [mem_singleton.mp hf]
      exact h.below chunk hc
    · rw [ho]
      intro chunk hm
      rcases mem_append.mp hm with hol | hn
      · exact Nat.lt_succ_of_lt (h.below chunk hol)
      · rw [mem_singleton.mp hn]
        exact Nat.lt_succ_self _
    · obtain ⟨u, hs, hr, hu⟩ := hct.unread
      refine ⟨u ++ [new], ?_, hr, fun chunk hm => ?_⟩
      · rw [ho, hs, append_assoc]
      · rcases mem_append.mp hm with hol | hn
        · exact hu chunk hol
        · rw [mem_singleton.mp hn]
          exact hct.below
  · obtain ⟨ho, hnx, he, _⟩ : _ ∧ _ ∧ _ ∧ _ :=
      process_next fun t bs heq => hc ⟨t, bs, heq⟩
    refine ⟨⟨?_, ?_, ?_⟩, fun rt a hct => ⟨?_, ?_⟩⟩
    · rw [ho, he, h.all]
    · rw [ho]
      exact h.sorted
    · rw [ho]
      exact fun chunk hm => (h.below chunk hm).trans_le hnx
    · exact hct.below.trans_le hnx
    · rw [ho]
      exact hct.unread

/-- The read that is under way, and how far the reads have come. -/
structure Inv (s : State) : Prop where
  server : ProcessEvents.Inv s.server
  kept : Kept s.server.process
  cut : Cut s.returned (s.lastSeq.getD 0) s.server.process
  params : ∀ params, (s.phase = .looking params ∨ s.phase = .waiting params ∨
    ∃ response, s.phase = .deciding params response) → params.afterSeq = s.lastSeq
  deciding : ∀ params response, s.phase = .deciding params response →
    Cut (s.returned ++ response.chunks) (response.nextSeq - 1) s.server.process

theorem Inv.finish (h : Inv s)
    (hc : Cut (s.returned ++ r.chunks) (r.nextSeq - 1) s.server.process) : Inv (finish r s) :=
  ⟨h.server, h.kept, hc, fun _ hp => by simp [ProcessReads.finish] at hp,
    fun _ _ hp => by simp [ProcessReads.finish] at hp⟩

theorem Inv.look (h : Inv s) (hp : s.phase = .looking params) :
    Cut (s.returned ++ (params.look s.server.process).chunks)
      ((params.look s.server.process).nextSeq - 1) s.server.process := by
  have hc := h.cut
  rw [← h.params params (.inl hp)] at hc
  exact hc.look h.kept

theorem Inv.next (h : Inv s) (he : Enabled s ev) (hpg : Paged s ev) : Inv (next tty s ev) := by
  cases ev with
  | server ev =>
    obtain ⟨hk, hc⟩ := h.kept.server hpg
    exact ⟨h.server.next tty he.1, hk, hc _ _ h.cut, h.params,
      fun params r hp => hc _ _ (h.deciding params r hp)⟩
  | notifyWaiters t =>
    refine ⟨h.server, h.kept, h.cut, fun params hp => h.params params ?_, ?_⟩
    · cases ho : s.phase <;> simp_all [ProcessReads.next]
    · intro params r hp
      apply h.deciding params r
      cases ho : s.phase <;> simp_all [ProcessReads.next]
  | call params =>
    refine ⟨h.server, h.kept, h.cut, fun found hp => ?_, fun _ _ hp => ?_⟩
    · obtain rfl : params = found := by simpa [ProcessReads.next] using hp
      exact hpg
    · simp [ProcessReads.next] at hp
  | look dp =>
    obtain ⟨params, ho⟩ := he
    have hc := h.look ho
    simp only [ProcessReads.next, ho]
    split
    · exact h.finish hc
    · refine ⟨h.server, h.kept, h.cut, fun found hp => ?_, fun found r hp => ?_⟩
      · obtain rfl : params = found := by simpa using hp
        exact h.params params (.inl ho)
      · cases hp
        exact hc
  | expire =>
    obtain ⟨params, r, ho⟩ := he
    simp only [ProcessReads.next, ho]
    exact h.finish (h.deciding params r ho)
  | register =>
    obtain ⟨params, r, ho⟩ := he
    simp only [ProcessReads.next, ho]
    refine ⟨h.server, h.kept, h.cut, fun found hp => ?_, nofun⟩
    obtain rfl : params = found := by simpa using hp
    exact h.params params (.inr (.inr ⟨r, ho⟩))
  | timeout =>
    obtain ⟨params, ho⟩ := he
    simp only [ProcessReads.next, ho]
    refine ⟨h.server, h.kept, h.cut, fun found hp => ?_, nofun⟩
    obtain rfl : params = found := by simpa using hp
    exact h.params params (.inr (.inl ho))

theorem Inv.new : Inv State.new where
  server := inv_of_reachable false Relation.ReflTransGen.refl
  kept := ⟨rfl, List.Pairwise.nil, nofun⟩
  cut := ⟨Nat.one_pos, [], rfl, nofun, nofun⟩
  params _ hp := by simp [State.new] at hp
  deciding _ _ hp := by cases hp

structure Closed (chunks : List ProcessOutputChunk) (s : State) : Prop where
  server : ProcessEvents.Inv s.server
  closed : s.server.process.closed = true
  outputs : outputs s.server.process.events = chunks

/-- Nothing is taken in once the process is closed. -/
theorem Closed.next (h : Closed cs s) (he : Enabled s ev) : Closed cs (next tty s ev) := by
  cases ev with
  | server ev =>
    have hch : ∀ t bytes, ev ≠ .chunk t bytes := by
      rintro t bytes rfl
      obtain ⟨⟨hs, hw⟩, _⟩ := he
      have hu := h.server.server.unclosed_of_open hs (by rw [hw]; rfl)
      rw [h.closed] at hu
      cases hu
    obtain ⟨_, _, hev, hc⟩ : _ ∧ _ ∧ _ ∧ _ := process_next hch
    exact ⟨h.server.next tty he.1, hc h.closed, hev.trans h.outputs⟩
  | look dp =>
    obtain ⟨params, ho⟩ := he
    simp only [ProcessReads.next, ho]
    split <;> exact { h with }
  | expire | register | timeout =>
    simp only [ProcessReads.next]
    split <;> exact { h with }
  | _ => exact { h with }

end Paging

/-- Along reads that each start where the last one ended, with nothing evicted: what was returned
is a beginning of the output; a read returns something when there is something left to return; and
one that is told of the end and returns nothing has been preceded by the whole output. -/
theorem reads_without_gaps {s : State} (h : (system tty).Reaches Paged State.new s) :
    s.returned <+: outputs s.server.process.events ∧ ∀ params, s.phase = .looking params →
        let response := params.look s.server.process
        s.returned ++ response.chunks <+: outputs s.server.process.events ∧
          (s.returned ≠ outputs s.server.process.events → response.chunks ≠ []) ∧
          (response.closed = true → response.chunks = [] →
            ∀ s', (system tty).Reaches EventSystem.always s s' →
              outputs s'.server.process.events = s.returned) := by
  have hi : Inv s := invariant (fun s event hs he hpg => hs.next he hpg) h Inv.new
  have hb : ∀ {returned after}, Cut returned after s.server.process →
      returned <+: outputs s.server.process.events := by
    intro returned after hc
    obtain ⟨u, hsp, _⟩ := hc.unread
    exact ⟨u, hsp.symm.trans hi.kept.all⟩
  refine ⟨hb hi.cut, fun params hp => ?_⟩
  have ha : (params.look s.server.process).chunks = [] →
      s.returned = outputs s.server.process.events := by
    intro hn
    have hc := hi.cut
    rw [← hi.params params (.inl hp)] at hc
    rw [← hi.kept.all, ← hc.filter, filter_eq_nil_iff.mpr, append_nil]
    exact fun chunk hm => by simpa [ReadParams.after] using not_above_of_look hn hm
  refine ⟨hb (hi.look hp), fun hne hn => hne (ha hn), ?_⟩
  intro hcl hn s' hs'
  have ho : Closed s.returned s' := invariant (fun s event hs he _ => hs.next he) hs'
      ⟨hi.server, hcl, (ha hn).symm⟩
  exact ho.outputs

theorem reads_without_gaps_two_pages :
    let s := (system false).run [.server (.chunk .firstStream [0, 1]),
      .call ⟨none, some 1⟩, .look false, .server (.chunk .secondStream [2]), .call ⟨some 1, some 1⟩]
      State.new
    s.returned = [⟨1, .stdout, [0, 1]⟩] ∧ s.returned ++ [⟨2, .stderr, [2]⟩] <+:
      outputs s.server.process.events := by
  refine ⟨rfl, ((reads_without_gaps false (of_allows ?_)).2 ⟨some 1, some 1⟩ rfl).1⟩
  exact ⟨⟨⟨by decide, rfl⟩, nofun⟩, Nat.le_of_ble_eq_true rfl, rfl, rfl,
    ⟨_, rfl⟩, trivial, ⟨⟨by decide, rfl⟩, nofun⟩,
    Nat.le_of_ble_eq_true rfl, rfl, rfl, trivial⟩

end ProcessReads
