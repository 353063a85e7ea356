import CodexTeams.ReorderBuffer
import CodexTeams.Runs
import CodexTeams.RustStr
import Mathlib.Data.Option.Basic

/-! The events of one process of the exec server, from the tasks that number them under the lock to
the client that publishes them. Notifications are sent afterwards, so they are on the way in any
order. -/
namespace ProcessEvents

open RustStr Runs ReorderBuffer List Function

inductive ExecOutputStream
  | stdout
  | stderr
  | pty
  deriving DecidableEq, Repr

structure ProcessOutputChunk where
  seq : ℕ
  stream : ExecOutputStream
  chunk : List UInt8
  deriving DecidableEq, Repr

inductive ExecProcessEvent
  | output (chunk : ProcessOutputChunk)
  | exited (seq : ℕ) (exitCode : ℤ)
  | closed (seq : ℕ)
  | failed (message : Str)
  deriving DecidableEq, Repr

namespace ExecProcessEvent

def seq : ExecProcessEvent → Option ℕ
  | .output chunk => some chunk.seq
  | .exited seq _ | .closed seq => some seq
  | .failed _ => none

def isExited : ExecProcessEvent → Bool
  | .exited _ _ => true
  | _ => false

def isClosed : ExecProcessEvent → Bool
  | .closed _ => true
  | _ => false

end ExecProcessEvent

def retainedOutputBytesPerProcess : ℕ := 1024 * 1024

structure RunningProcess where
  output : List ProcessOutputChunk
  retainedBytes : ℕ
  nextSeq : ℕ
  exitCode : Option ℤ
  events : List ExecProcessEvent
  openStreams : ℕ
  closed : Bool
  deriving DecidableEq, Repr

namespace RunningProcess

def new : RunningProcess := ⟨[], 0, 1, none, [], 2, false⟩

def evict : List ProcessOutputChunk → ℕ → List ProcessOutputChunk × ℕ
  | [], bytes => ([], bytes)
  | oldest :: chunks, bytes =>
    if retainedOutputBytesPerProcess < bytes then evict chunks (bytes - oldest.chunk.length)
    else (oldest :: chunks, bytes)

def number (event : ℕ → ExecProcessEvent) (p : RunningProcess) : RunningProcess :=
  { p with nextSeq := p.nextSeq + 1, events := p.events ++ [event p.nextSeq] }

variable (stream : ExecOutputStream) (chunk : List UInt8)

def outputEvent (seq : ℕ) : ExecProcessEvent :=
  .output ⟨seq, stream, chunk⟩

def pushOutput (p : RunningProcess) : RunningProcess :=
  let retained := evict (p.output ++ [⟨p.nextSeq, stream, chunk⟩]) (p.retainedBytes + chunk.length)
  { p.number (outputEvent stream chunk) with
    output := retained.1
    retainedBytes := retained.2 }

def exit (exitCode : ℤ) (p : RunningProcess) : RunningProcess :=
  { p.number (.exited · exitCode) with exitCode := some exitCode }

variable (p : RunningProcess)

def finishOutputStream : RunningProcess :=
  if 0 < p.openStreams then { p with openStreams := p.openStreams - 1 } else p

/-- `maybe_emit_closed` goes on to close the process. -/
def closes : Bool :=
  !p.closed && p.openStreams = 0 && p.exitCode.isSome

def close : RunningProcess :=
  { p.number .closed with closed := true }

end RunningProcess

structure SessionState where
  /-- The highest number the client was told of. -/
  wake : ℕ
  orderedEvents : Buffer ExecProcessEvent
  published : List ExecProcessEvent
  /-- Notifications of the process still reach the session. -/
  registered : Bool

namespace SessionState

def new : SessionState := ⟨0, Buffer.new, [], true⟩

variable (event : ExecProcessEvent) (c : SessionState)

/-- The flag tells whether the closing event was published. -/
def publishOrderedEvent : SessionState × Bool :=
  match event.seq with
  | none => ({ c with published := c.published ++ [event] }, false)
  | some seq =>
    let (buffer, ready) := accept seq event c.orderedEvents
    ({ c with orderedEvents := buffer, published := c.published ++ ready },
      ready.any ExecProcessEvent.isClosed)

/-- The session is no longer routed to once its closing event is published. -/
def handleServerNotification : SessionState :=
  if c.registered then
    let noted := { c with wake := max c.wake (event.seq.getD 0) }
    let (published, publishedClosed) := publishOrderedEvent event noted
    { published with registered := !publishedClosed }
  else c

end SessionState

inductive Task
  | firstStream
  | secondStream
  | exitWatcher
  deriving DecidableEq, Repr

inductive TaskPhase
  /-- Waits for a chunk, or for the exit. -/
  | waiting
  | sending (notification : ExecProcessEvent)
  /-- At the end of its stream, before `finish_output_stream`. -/
  | finishing
  | closing
  | sendingClosed (notification : ExecProcessEvent)
  | done
  deriving DecidableEq, Repr

/-- The notifications that were sent can reach the client in any order and more than once. -/
structure State where
  process : RunningProcess
  phases : Task → TaskPhase
  sent : List ExecProcessEvent
  arrived : List ExecProcessEvent
  client : SessionState

def State.new : State := ⟨.new, fun _ => .waiting, [], [], .new⟩

inductive Event
  | chunk (task : Task) (bytes : List UInt8)
  | streamEnd (task : Task)
  | finishStream (task : Task)
  | exit (exitCode : ℤ)
  | send (task : Task)
  | emitClosed (task : Task)
  | arrive (notification : ExecProcessEvent)
  deriving Repr

def Enabled (s : State) : Event → Prop
  | .chunk task _ | .streamEnd task => task ≠ .exitWatcher ∧ s.phases task = .waiting
  | .finishStream task => task ≠ .exitWatcher ∧ s.phases task = .finishing
  | .exit _ => s.phases .exitWatcher = .waiting
  | .send task => ∃ notification,
      s.phases task = .sending notification ∨ s.phases task = .sendingClosed notification
  | .emitClosed task => s.phases task = .closing
  | .arrive notification => notification ∈ s.sent

def outputStream (tty : Bool) (task : Task) : ExecOutputStream :=
  if tty then .pty else if task = .firstStream then .stdout else .stderr

def setPhase (task : Task) (phase : TaskPhase) (s : State) : State :=
  { s with phases := update s.phases task phase }

def sendNext (task : Task) (s : State) : State :=
  match s.phases task with
  | .sending notification =>
    setPhase task (if task = .exitWatcher then .closing else .waiting)
      { s with sent := s.sent ++ [notification] }
  | .sendingClosed notification =>
    setPhase task .done { s with sent := s.sent ++ [notification] }
  | _ => s

variable (tty : Bool)

def next (s : State) : Event → State
  | .chunk task bytes =>
    let stream := outputStream tty task
    setPhase task (.sending (RunningProcess.outputEvent stream bytes s.process.nextSeq))
      { s with process := s.process.pushOutput stream bytes }
  | .streamEnd task => setPhase task .finishing s
  | .finishStream task =>
    setPhase task .closing { s with process := s.process.finishOutputStream }
  | .exit exitCode =>
    setPhase .exitWatcher (.sending (.exited s.process.nextSeq exitCode))
      { s with process := s.process.exit exitCode }
  | .send task => sendNext task s
  | .emitClosed task =>
    if s.process.closes then
      setPhase task (.sendingClosed (.closed s.process.nextSeq))
        { s with process := s.process.close }
    else setPhase task .done s
  | .arrive notification =>
    { s with
      arrived := s.arrived ++ [notification]
      client := s.client.handleServerNotification notification }

def system : EventSystem State Event := ⟨Enabled, next tty⟩

def Reachable (s : State) : Prop := (system tty).Reaches EventSystem.always State.new s

/-- The events are numbered from one, without a gap. -/
structure Numbered (p : RunningProcess) : Prop where
  nextSeq : p.nextSeq = p.events.length + 1
  seqs : p.events.map ExecProcessEvent.seq = (List.range' 1 p.events.length).map some

section

variable (h : Numbered p)

include h

theorem Numbered.number (he : ∀ seq, (e seq).seq = some seq) : Numbered (p.number e) := by
  refine ⟨?_, ?_⟩
  · simp [RunningProcess.number, h.nextSeq]
  · simp [RunningProcess.number, h.seqs, he, h.nextSeq, range'_concat, Nat.add_comm]

theorem Numbered.seq_getElem (hi : i < p.events.length) : p.events[i].seq = some (1 + i) := by
  have hs : (p.events.map ExecProcessEvent.seq)[i]? =
      ((range' 1 p.events.length).map some)[i]? := by rw [h.seqs]
  rw [getElem?_map, getElem?_map, getElem?_range' hi, getElem?_eq_getElem] at hs
  simpa using hs

theorem Numbered.getElem (hm : event ∈ p.events) :
    ∃ seq, event.seq = some seq ∧ p.events[seq - 1]? = some event := by
  obtain ⟨i, hi, rfl⟩ := mem_iff_getElem.mp hm
  refine ⟨1 + i, h.seq_getElem hi, ?_⟩
  rw [Nat.add_sub_cancel_left, getElem?_eq_getElem]

theorem Numbered.exists_event (hp : 1 ≤ seq) (hle : seq ≤ p.events.length) :
    ∃ e ∈ p.events, e.seq = some seq := by
  have hi : seq - 1 < p.events.length := by omega
  refine ⟨p.events[seq - 1], getElem_mem hi, ?_⟩
  rw [h.seq_getElem, Nat.add_sub_cancel' hp]

theorem Numbered.nodup : p.events.Nodup := by
  apply List.Nodup.of_map ExecProcessEvent.seq
  rw [h.seqs]
  exact (nodup_range' 1).map (Option.some_injective ℕ)

end

def TaskPhase.isOpen : TaskPhase → Bool
  | .waiting | .sending _ | .finishing => true
  | _ => false

def TaskPhase.notification : TaskPhase → Option ExecProcessEvent
  | .sending notification | .sendingClosed notification => some notification
  | _ => none

/-- How the process and its three tasks hang together. -/
structure ServerInv (p : RunningProcess) (phases : Task → TaskPhase) : Prop where
  numbered : Numbered p
  openStreams : p.openStreams =
    (phases .firstStream).isOpen.toNat + (phases .secondStream).isOpen.toNat
  watcher : phases .exitWatcher = .waiting ↔ p.exitCode = none
  exited : p.events.countP ExecProcessEvent.isExited = p.exitCode.isSome.toNat
  unclosed : p.closed = false → p.events.countP ExecProcessEvent.isClosed = 0
  closed : p.closed = true → p.openStreams = 0 ∧ p.exitCode ≠ none ∧
    ∃ earlier seq, p.events = earlier ++ [.closed seq] ∧
      earlier.countP ExecProcessEvent.isClosed = 0
  notifications : ∀ task notification, (phases task).notification = some notification →
    notification ∈ p.events
  tries : p.closes = true → (∃ n, phases .exitWatcher = .sending n) ∨ ∃ task, phases task = .closing

section Server

variable {p : RunningProcess} {ps : Task → TaskPhase}

theorem ServerInv.new : ServerInv RunningProcess.new fun _ => .waiting where
  numbered := ⟨rfl, rfl⟩
  openStreams := rfl
  watcher := ⟨fun _ => rfl, fun _ => rfl⟩
  exited := rfl
  unclosed _ := rfl
  closed h := by cases h
  notifications _ _ h := by cases h
  tries h := by cases h

theorem closes_iff : p.closes = true ↔
    p.closed = false ∧ p.openStreams = 0 ∧ p.exitCode.isSome = true := by
  simp [RunningProcess.closes, and_assoc]

theorem closes_openStreams (h : p.closes = true) : p.openStreams = 0 := (closes_iff.mp h).2.1

theorem ServerInv.open_of_phase (h : ServerInv p ps)
    (hs : t ≠ .exitWatcher) (ho : (ps t).isOpen = true) : p.openStreams ≠ 0 := by
  rw [h.openStreams]
  cases t with
  | exitWatcher => exact absurd rfl hs
  | _ =>
    rw [ho, Bool.toNat_true]
    omega

theorem ServerInv.unclosed_of_open (h : ServerInv p ps)
    (hs : t ≠ .exitWatcher) (ho : (ps t).isOpen = true) : p.closed = false := by
  by_contra hc
  rw [Bool.not_eq_false] at hc
  exact h.open_of_phase hs ho (h.closed hc).1

theorem ServerInv.unclosed_of_waiting (h : ServerInv p ps)
    (hw : ps .exitWatcher = .waiting) : p.closed = false := by
  by_contra hc
  rw [Bool.not_eq_false] at hc
  exact (h.closed hc).2.1 (h.watcher.mp hw)

theorem isOpen_update (h : t ≠ .exitWatcher → ph.isOpen = (ps t).isOpen) (ho : o ≠ .exitWatcher) :
    (update ps t ph o).isOpen = (ps o).isOpen := by
  by_cases heq : o = t
  · subst heq
    rw [update_self, h ho]
  · rw [update_of_ne heq]

theorem ServerInv.phases_update (h : ServerInv p ps) (t : Task) (ph : TaskPhase)
    (ho : t ≠ .exitWatcher → ph.isOpen = (ps t).isOpen)
    (hw : t = .exitWatcher → (ph = .waiting ↔ ps t = .waiting)) :
    p.openStreams = (update ps t ph .firstStream).isOpen.toNat +
        (update ps t ph .secondStream).isOpen.toNat ∧
      (update ps t ph .exitWatcher = .waiting ↔ p.exitCode = none) := by
  refine ⟨?_, ?_⟩
  · rw [isOpen_update ho (by decide), isOpen_update ho (by decide)]
    exact h.openStreams
  · by_cases heq : t = .exitWatcher
    · subst heq
      rw [update_self, hw rfl]
      exact h.watcher
    · rw [update_of_ne (Ne.symm heq)]
      exact h.watcher

theorem notifications_update {es' : List ExecProcessEvent}
    (h : ∀ t n, (ps t).notification = some n → n ∈ es) (hsb : es ⊆ es')
    (hp : ∀ n, ph.notification = some n → n ∈ es') :
    ∀ o n, (update ps t ph o).notification = some n → n ∈ es' := by
  intro o n hs
  by_cases heq : o = t
  · subst heq
    rw [update_self] at hs
    exact hp n hs
  · rw [update_of_ne heq] at hs
    exact hsb (h o n hs)

variable (h : ServerInv p ps)

include h

theorem ServerInv.notified (hn : ph.notification = some e) :
    ∀ o n, (update ps t ph o).notification = some n → n ∈ p.events ++ [e] := by
  apply notifications_update h.notifications (subset_append_left _ _)
  intro n hs
  cases hs.symm.trans hn
  exact mem_append_right _ (mem_singleton_self _)

theorem ServerInv.chunk (hs : t ≠ .exitWatcher)
    (hw : ps t = .waiting) (st : ExecOutputStream) (bs : List UInt8) :
    ServerInv (p.pushOutput st bs) (update ps t
      (.sending (RunningProcess.outputEvent st bs p.nextSeq))) := by
  have ho : (ps t).isOpen = true := by rw [hw]; rfl
  have hu := h.unclosed_of_open hs ho
  have hn : Numbered (p.number (RunningProcess.outputEvent st bs)) := h.numbered.number fun _ => rfl
  obtain ⟨hst, hwt⟩ := h.phases_update t (.sending (RunningProcess.outputEvent st bs p.nextSeq))
    (fun _ => by rw [ho]; rfl) (fun heq => absurd heq hs)
  refine ⟨⟨hn.nextSeq, hn.seqs⟩, hst, hwt, ?_, ?_, ?_, ?_, ?_⟩
  · change (p.events ++ [_]).countP _ = _
    rw [countP_append, h.exited]
    rfl
  · intro _
    change (p.events ++ [_]).countP _ = _
    rw [countP_append, h.unclosed hu]
    rfl
  · intro hc
    exact absurd (hu.symm.trans hc) Bool.false_ne_true
  · exact h.notified rfl
  · intro hcl
    exact absurd (closes_openStreams hcl) (h.open_of_phase hs ho)

theorem ServerInv.move (ho : t ≠ .exitWatcher → ph.isOpen = (ps t).isOpen)
    (hw : t = .exitWatcher → (ph = .waiting ↔ ps t = .waiting)) (hn : ph.notification = none)
    (ht : p.closes = true → (∃ n, update ps t ph .exitWatcher = .sending n) ∨
      ∃ o, update ps t ph o = .closing) : ServerInv p (update ps t ph) := by
  obtain ⟨hs, hw⟩ := h.phases_update t ph ho hw
  refine ⟨h.numbered, hs, hw, h.exited, h.unclosed, h.closed, ?_, ht⟩
  apply notifications_update h.notifications (List.Subset.refl _)
  exact fun _ hsm => by cases hn.symm.trans hsm

theorem ServerInv.keepOpen (hs : t ≠ .exitWatcher) (ho : (ps t).isOpen = true)
    (hp : ph.isOpen = true) (hn : ph.notification = none) : ServerInv p (update ps t ph) := by
  apply h.move (fun _ => hp.trans ho.symm) (fun heq => absurd heq hs) hn
  exact fun hc => absurd (closes_openStreams hc) (h.open_of_phase hs ho)

theorem ServerInv.finishStream (hs : t ≠ .exitWatcher) (hf : ps t = .finishing) :
    ServerInv p.finishOutputStream (update ps t .closing) := by
  have ho : (ps t).isOpen = true := by rw [hf]; rfl
  have hu := h.unclosed_of_open hs ho
  have hp : 0 < p.openStreams := Nat.pos_of_ne_zero (h.open_of_phase hs ho)
  rw [RunningProcess.finishOutputStream, if_pos hp]
  refine ⟨⟨h.numbered.nextSeq, h.numbered.seqs⟩, ?_, ?_, h.exited, h.unclosed, ?_, ?_, ?_⟩
  · rw [h.openStreams]
    cases t with
    | exitWatcher => exact absurd rfl hs
    | _ =>
      rw [update_self, update_of_ne (by decide), ho]
      simp only [TaskPhase.isOpen, Bool.toNat_true, Bool.toNat_false]
      omega
  · rw [update_of_ne hs.symm]
    exact h.watcher
  · intro hc
    exact absurd (hu.symm.trans hc) Bool.false_ne_true
  · exact notifications_update h.notifications (List.Subset.refl _) nofun
  · exact fun _ => .inr ⟨t, update_self ..⟩

theorem ServerInv.exit (hw : ps .exitWatcher = .waiting) (ec : ℤ) :
    ServerInv (p.exit ec) (update ps .exitWatcher (.sending (.exited p.nextSeq ec))) := by
  have hu := h.unclosed_of_waiting hw
  have hnn := h.watcher.mp hw
  have hn : Numbered (p.number (.exited · ec)) := h.numbered.number fun _ => rfl
  refine ⟨⟨hn.nextSeq, hn.seqs⟩, ?_, ?_, ?_, ?_, ?_, ?_, ?_⟩
  · exact h.openStreams
  · exact ⟨nofun, nofun⟩
  · change (p.events ++ [_]).countP _ = _
    rw [countP_append, h.exited, hnn]
    rfl
  · intro _
    change (p.events ++ [_]).countP _ = _
    rw [countP_append, h.unclosed hu]
    rfl
  · intro hc
    exact absurd (hu.symm.trans hc) Bool.false_ne_true
  · exact h.notified rfl
  · exact fun _ => .inl ⟨_, update_self ..⟩

theorem ServerInv.send (hs : ps t = .sending n) :
    ServerInv p (update ps t (if t = .exitWatcher then .closing else .waiting)) := by
  by_cases hw : t = .exitWatcher
  · subst hw
    apply h.move (absurd rfl) _ rfl fun _ => .inr ⟨_, update_self ..⟩
    rw [hs]
    exact fun _ => ⟨nofun, nofun⟩
  · rw [if_neg hw]
    exact h.keepOpen hw (by rw [hs]; rfl) rfl rfl

theorem ServerInv.finish (ho : (ps t).isOpen = false)
    (hcl : ps t = .closing → p.closes = false) : ServerInv p (update ps t .done) := by
  refine h.move (fun _ => by rw [ho]; rfl) (fun _ => ?_) rfl ?_
  · refine ⟨nofun, fun heq => ?_⟩
    rw [heq] at ho
    cases ho
  · intro ht
    rcases h.tries ht with ⟨n, hs⟩ | ⟨o, hc⟩
    · by_cases hw : t = .exitWatcher
      · rw [hw, hs] at ho
        cases ho
      · exact .inl ⟨n, (update_of_ne (Ne.symm hw) ..).trans hs⟩
    · by_cases heq : o = t
      · subst heq
        rw [hcl hc] at ht
        cases ht
      · exact .inr ⟨o, (update_of_ne heq ..).trans hc⟩

theorem ServerInv.close (hc : ps t = .closing) (hcl : p.closes = true) :
    ServerInv p.close (update ps t (.sendingClosed (.closed p.nextSeq))) := by
  obtain ⟨hu, hz, he⟩ := closes_iff.mp hcl
  have he : p.exitCode ≠ none := Option.isSome_iff_ne_none.mp he
  have hn : Numbered (p.number .closed) := h.numbered.number fun _ => rfl
  have ho : (ps t).isOpen = false := by rw [hc]; rfl
  obtain ⟨hs, hw⟩ := h.phases_update t (.sendingClosed (.closed p.nextSeq))
    (fun _ => by rw [ho]; rfl) fun _ => by
      rw [hc]
      exact ⟨nofun, nofun⟩
  refine ⟨⟨hn.nextSeq, hn.seqs⟩, hs, hw, ?_, ?_, ?_, ?_, ?_⟩
  · change (p.events ++ [_]).countP _ = _
    rw [countP_append, h.exited]
    rfl
  · exact nofun
  · exact fun _ => ⟨hz, he, p.events, p.nextSeq, rfl, h.unclosed hu⟩
  · exact h.notified rfl
  · intro ha
    cases (closes_iff.mp ha).1

theorem ServerInv.closed_of_done (hd : ∀ t, ps t = .done) : p.closed = true := by
  by_contra hu
  rw [Bool.not_eq_true] at hu
  have hz : p.openStreams = 0 := by
    rw [h.openStreams, hd, hd]
    rfl
  have he : p.exitCode ≠ none := by
    intro hn
    have hw := h.watcher.mpr hn
    rw [hd] at hw
    cases hw
  rcases h.tries (closes_iff.mpr ⟨hu, hz, Option.isSome_iff_ne_none.mpr he⟩) with
    ⟨n, hs⟩ | ⟨t, hc⟩
  · rw [hd] at hs
    cases hs
  · rw [hd] at hc
    cases hc

end Server

/-- The client has published a prefix of the events, and holds what it cannot publish yet. -/
structure ClientInv (p : RunningProcess) (arrived : List ExecProcessEvent) (c : SessionState) :
    Prop where
  follows : Follows p.events c.orderedEvents c.published
  settled : Settled c.orderedEvents
  arrived : ∀ event ∈ arrived, event ∈ p.events ∧ ∀ seq, event.seq = some seq →
    Knows c.orderedEvents seq
  unregistered : c.registered = false → p.closed = true ∧ c.published = p.events

theorem ClientInv.extend (h : ClientInv p ar c) (hun : p.closed = false)
    (he : p'.events = p.events ++ m) : ClientInv p' ar c := by
  refine ⟨he ▸ h.follows.extend m, h.settled, ?_, ?_⟩
  · intro event hev
    obtain ⟨hm, hk⟩ := h.arrived event hev
    exact ⟨he ▸ mem_append_left _ hm, hk⟩
  · intro hu
    have hc := (h.unregistered hu).1
    rw [hun] at hc
    cases hc

theorem eq_of_isPrefix_of_last (h : pb <+: e ++ [l]) (he : e.countP t = 0) (han : pb.any t = true) :
    pb = e ++ [l] := by
  rcases prefix_concat_iff.mp h with heq | her
  · exact heq
  · obtain ⟨a, ha, ht⟩ := any_eq_true.mp han
    exact absurd ht (countP_eq_zero.mp he a (her.subset ha))

theorem ClientInv.arrive (hsr : ServerInv p phases) (h : ClientInv p ar c) (hm : e ∈ p.events) :
    ClientInv p (ar ++ [e]) (c.handleServerNotification e) := by
  obtain ⟨seq, hs, hg⟩ := hsr.numbered.getElem hm
  have har : ∀ c' : SessionState, (∀ o, Knows c.orderedEvents o → Knows c'.orderedEvents o) →
      Knows c'.orderedEvents seq →
      ∀ o ∈ ar ++ [e], o ∈ p.events ∧ ∀ seq, o.seq = some seq → Knows c'.orderedEvents seq := by
    intro c' hkp hk o hot
    rcases mem_append.mp hot with ho | hnw
    · obtain ⟨ho', hkn⟩ := h.arrived o ho
      exact ⟨ho', fun seq hs => hkp seq (hkn seq hs)⟩
    · rw [mem_singleton.mp hnw]
      refine ⟨hm, fun seq' hs' => ?_⟩
      rw [hs, Option.some.injEq] at hs'
      exact hs' ▸ hk
  cases hr : c.registered with
  | false =>
    -- everything is published, so the event is as well
    rw [SessionState.handleServerNotification, hr]
    refine { h with arrived := har c (fun _ hk => hk) ?_ }
    have hal := (h.unregistered hr).2
    have hl := congrArg List.length (h.follows.published_eq.symm.trans hal)
    rw [length_take] at hl
    have hi := (List.getElem?_eq_some_iff.mp hg).1
    left
    omega
  | true =>
    obtain ⟨hf, hst, hk, hkp⟩ := accept_spec h.follows h.settled hg
    have hsp : c.handleServerNotification e =
        { wake := max c.wake seq
          orderedEvents := (accept seq e c.orderedEvents).1
          published := c.published ++ (accept seq e c.orderedEvents).2
          registered := !(accept seq e c.orderedEvents).2.any ExecProcessEvent.isClosed } := by
      simp [SessionState.handleServerNotification, hr, SessionState.publishOrderedEvent, hs]
    rw [hsp]
    refine ⟨hf, hst, har _ hkp hk, ?_⟩
    intro hu
    have han : (accept seq e c.orderedEvents).2.any ExecProcessEvent.isClosed = true := by
      simpa using hu
    have hp : (c.published ++ (accept seq e c.orderedEvents).2).any
        ExecProcessEvent.isClosed = true := by
      rw [any_append, han, Bool.or_true]
    cases hc : p.closed with
    | false =>
      obtain ⟨a, ha, ht⟩ := any_eq_true.mp hp
      have hn := countP_eq_zero.mp (hsr.unclosed hc) a (hf.isPrefix.subset ha)
      exact absurd ht hn
    | true =>
      obtain ⟨_, _, er, l, he, her⟩ := hsr.closed hc
      refine ⟨rfl, ?_⟩
      rw [he]
      exact eq_of_isPrefix_of_last (he ▸ hf.isPrefix) her hp

/-- No event is lost: it was sent, or a task is about to send it. -/
def Accounted (events sent : List ExecProcessEvent) (phases : Task → TaskPhase) : Prop :=
  ∀ event ∈ events, event ∈ sent ∨ ∃ task, (phases task).notification = some event

section

variable (h : Accounted es sn ps)

include h

theorem Accounted.step (hs : sn ⊆ sn')
    (ht : ∀ n, (ps t).notification = some n → n ∈ sn')
    (hn : ∀ e ∈ es', e ∈ es ∨ ph.notification = some e) : Accounted es' sn' (update ps t ph) := by
  intro e he
  rcases hn e he with he | hp
  · rcases h e he with he | ⟨o, ho⟩
    · exact .inl (hs he)
    · by_cases heq : o = t
      · exact .inl (ht e (heq ▸ ho))
      · exact .inr ⟨o, by rw [update_of_ne heq, ho]⟩
  · exact .inr ⟨t, by rw [update_self, hp]⟩

/-- A task that was not sending moves on, with the notification of an event that it numbered. -/
theorem Accounted.numbered (ht : (ps t).notification = none)
    (hp : ph.notification = some e) : Accounted (es ++ [e]) sn (update ps t ph) := by
  refine h.step (List.Subset.refl _) (fun n hs => by cases ht.symm.trans hs) fun f hf => ?_
  rcases mem_append.mp hf with hf | hf
  · exact .inl hf
  · exact .inr (by rw [hp, mem_singleton.mp hf])

theorem Accounted.moved (ht : (ps t).notification = none)
    (ph : TaskPhase) : Accounted es sn (update ps t ph) :=
  h.step (List.Subset.refl _) (fun n hs => by cases ht.symm.trans hs) fun _ hf => .inl hf

theorem Accounted.sent (ht : (ps t).notification = some n)
    (ph : TaskPhase) : Accounted es (sn ++ [n]) (update ps t ph) := by
  refine h.step (subset_append_left _ _) (fun m hs => ?_) fun _ hf => .inl hf
  cases ht.symm.trans hs
  exact mem_append_right _ (mem_singleton_self _)

end

structure Inv (s : State) : Prop where
  server : ServerInv s.process s.phases
  sent : ∀ event ∈ s.sent, event ∈ s.process.events
  accounted : Accounted s.process.events s.sent s.phases
  client : ClientInv s.process s.arrived s.client

theorem Inv.sendNext (h : Inv s) (hs : s.phases t = .sending n ∨ s.phases t = .sendingClosed n) :
    Inv (sendNext t s) := by
  have hsn : ∀ event ∈ s.sent ++ [n], event ∈ s.process.events := by
    intro event he
    rcases mem_append.mp he with ho | hn
    · exact h.sent event ho
    · rw [mem_singleton.mp hn]
      apply h.server.notifications t
      rcases hs with hs | hs <;> rw [hs] <;> rfl
  rcases hs with hs | hs <;> simp only [ProcessEvents.sendNext, hs]
  · exact ⟨h.server.send hs, hsn, h.accounted.sent (by rw [hs]; rfl) _, h.client⟩
  · refine ⟨h.server.finish (by rw [hs]; rfl) (fun hc => ?_), hsn,
      h.accounted.sent (by rw [hs]; rfl) _, h.client⟩
    rw [hs] at hc
    cases hc

theorem Inv.next (h : Inv s) (he : Enabled s e) : Inv (next tty s e) := by
  cases e with
  | chunk t bs =>
    obtain ⟨hs, hw⟩ := he
    have hu := h.server.unclosed_of_open hs (by rw [hw]; rfl)
    exact ⟨h.server.chunk hs hw _ bs, fun e hev => mem_append_left _ (h.sent e hev),
      h.accounted.numbered (by rw [hw]; rfl) rfl, h.client.extend hu rfl⟩
  | streamEnd t =>
    exact ⟨h.server.keepOpen he.1 (by rw [he.2]; rfl) rfl rfl, h.sent,
      h.accounted.moved (by rw [he.2]; rfl) _, h.client⟩
  | finishStream t =>
    obtain ⟨hs, hf⟩ := he
    have hu := h.server.unclosed_of_open hs (by rw [hf]; rfl)
    have hen : s.process.finishOutputStream.events = s.process.events ++ [] := by
      rw [append_nil, RunningProcess.finishOutputStream]
      split <;> rfl
    have hev : s.process.finishOutputStream.events = s.process.events := by rw [hen, append_nil]
    refine ⟨h.server.finishStream hs hf, hev ▸ h.sent, ?_, h.client.extend hu hen⟩
    exact hev ▸ h.accounted.moved (by rw [hf]; rfl) _
  | exit ec =>
    have hu := h.server.unclosed_of_waiting he
    exact ⟨h.server.exit he ec, fun e hev => mem_append_left _ (h.sent e hev),
      h.accounted.numbered (by rw [show s.phases .exitWatcher = _ from he]; rfl) rfl,
      h.client.extend hu rfl⟩
  | send t =>
    obtain ⟨notification, hsn⟩ := he
    exact h.sendNext hsn
  | emitClosed t =>
    have hcl : s.phases t = .closing := he
    cases hc : s.process.closes with
    | true =>
      simp only [ProcessEvents.next, hc, if_true]
      exact ⟨h.server.close hcl hc, fun e hev => mem_append_left _ (h.sent e hev),
        h.accounted.numbered (by rw [hcl]; rfl) rfl, h.client.extend (closes_iff.mp hc).1 rfl⟩
    | false =>
      simp only [ProcessEvents.next, hc, Bool.false_eq_true, if_false]
      exact ⟨h.server.finish (by rw [hcl]; rfl) fun _ => hc, h.sent,
        h.accounted.moved (by rw [hcl]; rfl) _, h.client⟩
  | arrive notification =>
    exact ⟨h.server, h.sent, h.accounted, h.client.arrive h.server (h.sent notification he)⟩

theorem inv_of_reachable (h : Reachable tty s) : Inv s := by
  refine EventSystem.Reaches.invariant (fun s event hs hen _ => hs.next tty hen) h ?_
  exact ⟨ServerInv.new, nofun, nofun, ⟨Follows.new _, rfl, nofun, nofun⟩⟩

/-- Whatever the order in which the tasks run and their notifications arrive, repeated or not:
the events are numbered from one, with one exit from the time it was noticed, and the closing
event, if there is one, is the last and comes once all tasks are through; every event is sent or
about to be; what the client has published is a prefix of them without repetition, all of them when
all have arrived, and so all of them once the tasks are through and what was sent has arrived. -/
theorem events_reach_subscribers {s : State} (h : Reachable tty s) :
    let events := s.process.events
    events.map ExecProcessEvent.seq = (range' 1 events.length).map some ∧
      events.countP ExecProcessEvent.isExited =
        (if s.phases .exitWatcher = .waiting then 0 else 1) ∧
      events.countP ExecProcessEvent.isClosed ≤ 1 ∧
      (∀ event ∈ events, event.isClosed = true → events.getLast? = some event ∧
        events.countP ExecProcessEvent.isExited = 1) ∧
      ((∀ task, s.phases task = .done) → events.countP ExecProcessEvent.isClosed = 1) ∧
      (∀ event ∈ events, event ∈ s.sent ∨ ∃ task, (s.phases task).notification = some event) ∧
      s.client.published <+: events ∧ s.client.published.Nodup ∧
      ((∀ event ∈ events, event ∈ s.arrived) → s.client.published = events) ∧
      ((∀ task, s.phases task = .done) → (∀ event ∈ s.sent, event ∈ s.arrived) →
        s.client.published = events) := by
  intro events
  have hi := inv_of_reachable tty h
  have hs := hi.server
  have hex : events.countP ExecProcessEvent.isExited =
      if s.phases .exitWatcher = .waiting then 0 else 1 := by
    rw [hs.exited]
    by_cases hw : s.phases .exitWatcher = .waiting
    · rw [if_pos hw, hs.watcher.mp hw]
      rfl
    · rw [if_neg hw]
      cases hcd : s.process.exitCode with
      | none => exact absurd (hs.watcher.mpr hcd) hw
      | some cd => rfl
  have hcl : s.process.closed = true → events.countP ExecProcessEvent.isClosed = 1 := by
    intro ht
    obtain ⟨_, _, e, seq, hev, her⟩ := hs.closed ht
    rw [show events = _ from hev, countP_append, her]
    rfl
  have hall : (∀ event ∈ events, event ∈ s.arrived) → s.client.published = events := by
    intro ha
    apply hi.client.follows.complete hi.client.settled
    intro seq hp hle
    obtain ⟨event, he, hsq⟩ := hs.numbered.exists_event hp hle
    exact (hi.client.arrived event (ha event he)).2 seq hsq
  refine ⟨hs.numbered.seqs, hex, ?_, ?_, ?_, hi.accounted, hi.client.follows.isPrefix, ?_, hall, ?_⟩
  · cases hc : s.process.closed with
    | false => exact (hs.unclosed hc).le.trans (Nat.zero_le 1)
    | true => exact (hcl hc).le
  · intro event he his
    cases hc : s.process.closed with
    | false =>
      have hn := countP_eq_zero.mp (hs.unclosed hc) event he
      exact absurd his hn
    | true =>
      obtain ⟨_, het, e, seq, hev, her⟩ := hs.closed hc
      constructor
      · rw [show events = _ from hev, mem_append] at he
        rcases he with hel | hl
        · exact absurd his (countP_eq_zero.mp her event hel)
        · rw [show events = _ from hev, mem_singleton.mp hl, getLast?_concat]
      · rw [hex, if_neg fun hw => het (hs.watcher.mp hw)]
  · exact fun hd => hcl (hs.closed_of_done hd)
  · exact hs.numbered.nodup.sublist hi.client.follows.isPrefix.sublist
  · intro hd ha
    refine hall fun event he => ha event ((hi.accounted event he).resolve_right ?_)
    rintro ⟨t, hn⟩
    rw [hd] at hn
    cases hn

instance decidableEnabled (s : State) (event : Event) :
    Decidable ((system tty).Enabled s event) := by
  cases event with
  | send task =>
    exact match h : s.phases task with
    | .sending notification => isTrue ⟨notification, .inl h⟩
    | .sendingClosed notification => isTrue ⟨notification, .inr h⟩
    | .waiting | .finishing | .closing | .done => isFalse (by simp [system, Enabled, h])
  | _ =>
    dsimp only [system, Enabled]
    infer_instance

/-- The exit is noticed while the first stream has a chunk to send, and is told of twice before
the chunk. -/
def exitOvertakes : List Event :=
  [.chunk .firstStream [1], .exit 0, .send .exitWatcher, .arrive (.exited 2 0),
    .arrive (.exited 2 0), .send .firstStream, .arrive (.output ⟨1, .stdout, [1]⟩),
    .streamEnd .secondStream, .finishStream .secondStream, .emitClosed .secondStream,
    .streamEnd .firstStream, .finishStream .firstStream, .emitClosed .exitWatcher,
    .send .exitWatcher, .emitClosed .firstStream, .arrive (.closed 3)]

theorem events_reach_subscribers_exit_overtakes :
    let s := (system false).run exitOvertakes State.new
    s.client.published = s.process.events ∧
      s.process.events = [.output ⟨1, .stdout, [1]⟩, .exited 2 0, .closed 3] := by
  have ha : (system false).Allows EventSystem.always exitOvertakes State.new := by
    decide +kernel
  have hr : Reachable false ((system false).run exitOvertakes State.new) :=
    EventSystem.Reaches.of_allows ha
  obtain ⟨_, _, _, _, _, _, _, _, _, hal⟩ := events_reach_subscribers false hr
  have hd : ∀ task, ((system false).run exitOvertakes State.new).phases task = .done := by
    rintro (_ | _ | _) <;> decide +kernel
  exact ⟨hal hd (by decide +kernel), by decide +kernel⟩

end ProcessEvents
