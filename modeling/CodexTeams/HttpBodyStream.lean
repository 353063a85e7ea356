import CodexTeams.Runs
import CodexTeams.RustStr

/-! The body of one remote HTTP response. The handler of notifications sends without waiting and
takes a lock again for each thing it does afterwards; the transport can fail in between. -/
namespace HttpBodyStream

open RustStr Runs EventSystem.Reaches

structure Delta where
  seq : ℕ
  delta : List UInt8
  done : Bool
  error : Option Str
  deriving DecidableEq, Repr

def Delta.terminal (delta : Delta) : Bool := delta.done || delta.error.isSome

/-- What a notification is still to do; until then its handler holds a sender. -/
inductive Handler
  | idle
  | sending (delta : Delta)
  | recording
  | removing
  deriving DecidableEq, Repr

inductive Answer
  | chunk (bytes : List UInt8)
  | eof
  | protocolError (message : Str)
  deriving Repr

structure State where
  routed : Bool
  failure : Option Str
  handler : Handler
  queue : List Delta
  nextSeq : ℕ
  pendingEof : Bool
  closed : Bool
  /-- The deltas that came in their turn. -/
  delivered : List Delta
  answers : List Answer
  deriving Repr

def State.new : State := ⟨true, none, .idle, [], 1, false, false, [], []⟩

def channelFilled : Str := "body delta channel filled before delivery"

def streamFailed (requestId error : Str) : Str :=
  "http response stream `" ++ requestId ++ "` failed: " ++ error

def unexpectedSeq (requestId : Str) (seq expected : ℕ) : Str :=
  "http response stream `" ++ requestId ++ "` received seq " ++
    (toString seq).toList ++ ", expected " ++ (toString expected).toList

section

variable (s : State)

def finishRemoteStream : State :=
  if s.closed then s else { s with closed := true, routed := false }

def State.hungUp : Prop := s.routed = false ∧ s.handler = .idle

instance decidableHungUp : Decidable s.hungUp := inferInstanceAs (Decidable (_ ∧ _))

/-- What `recv` returns; without an answer it waits. -/
def recv (requestId : Str) (s : State) : State × Option Answer :=
  if s.pendingEof then (finishRemoteStream { s with pendingEof := false }, some .eof)
  else
    match s.queue with
    | [] =>
      if s.hungUp then
        match s.failure with
        | some error => (finishRemoteStream { s with failure := none },
            some (.protocolError (streamFailed requestId error)))
        | none => (finishRemoteStream s, some .eof)
      else (s, none)
    | delta :: queue =>
      let s := { s with queue := queue }
      if delta.seq ≠ s.nextSeq then
        (finishRemoteStream s, some (.protocolError (unexpectedSeq requestId delta.seq s.nextSeq)))
      else
        let s := { s with nextSeq := s.nextSeq + 1, delivered := s.delivered ++ [delta] }
        match delta.error with
        | some error =>
          (finishRemoteStream s, some (.protocolError (streamFailed requestId error)))
        | none =>
          if delta.done then
            if delta.delta = [] then (finishRemoteStream s, some .eof)
            else ({ finishRemoteStream s with pendingEof := true }, some (.chunk delta.delta))
          else (s, some (.chunk delta.delta))

inductive Event
  | notified (delta : Delta)
  | trySend
  | record
  | remove
  | failAll (message : Str)
  | recv
  deriving Repr

def Enabled : Event → Prop
  | .notified _ => s.handler = .idle
  | .trySend => ∃ delta, s.handler = .sending delta
  | .record => s.handler = .recording
  | .remove => s.handler = .removing
  | .failAll _ | .recv => True

end

variable (capacity : ℕ) (requestId : Str) (s : State)

def next : Event → State
  | .notified delta => if s.routed then { s with handler := .sending delta } else s
  | .trySend =>
    match s.handler with
    | .sending delta =>
      if s.queue.length < capacity then
        { s with
          queue := s.queue ++ [delta]
          handler := if delta.terminal then .removing else .idle }
      else { s with handler := .recording }
    | _ => s
  | .record => { s with failure := some channelFilled, handler := .removing }
  | .remove => { s with routed := false, handler := .idle }
  | .failAll message =>
    if s.routed then
      if s.queue.length < capacity then
        { s with routed := false, queue := s.queue ++ [⟨1, [], true, some message⟩] }
      else { s with routed := false, failure := some message }
    else s
  | .recv =>
    let answered := recv requestId s
    { answered.1 with answers := answered.1.answers ++ answered.2.toList }

def stream : EventSystem State Event := ⟨Enabled, next capacity requestId⟩

def Answer.ends : Answer → Bool
  | .chunk _ => false
  | .eof | .protocolError _ => true

def State.Ended : Prop := ∃ answer ∈ s.answers, answer.ends = true

variable (delivered : List Delta)

def InOrder : Prop :=
  delivered.map Delta.seq = List.range' 1 delivered.length

def Complete : Prop :=
  InOrder delivered ∧ ∃ last, delivered.getLast? = some last ∧ last.done = true ∧ last.error = none

/-- The consumer will be told how the stream ends. -/
def State.Told : Prop :=
  s.pendingEof = true ∨ s.failure.isSome = true ∨ ∃ delta ∈ s.queue, delta.terminal = true

structure Inv (s : State) : Prop where
  order : InOrder s.delivered
  nextSeq : s.nextSeq = s.delivered.length + 1
  eof : s.pendingEof = true → Complete s.delivered
  told : ¬ s.Ended → s.routed = false ∨ s.handler = .removing → s.Told

section Endings

variable {s : State}

@[simp] theorem finishRemoteStream_keeps (s : State) :
    (finishRemoteStream s).delivered = s.delivered ∧ (finishRemoteStream s).nextSeq = s.nextSeq ∧
      (finishRemoteStream s).pendingEof = s.pendingEof ∧
      (finishRemoteStream s).answers = s.answers := by
  unfold finishRemoteStream
  split <;> exact ⟨rfl, rfl, rfl, rfl⟩

theorem InOrder.concat (h : InOrder d) (hs : dl.seq = d.length + 1) : InOrder (d ++ [dl]) := by
  rw [InOrder] at h
  simp [InOrder, h, hs, List.range'_concat, Nat.add_comm]

/-- What a receive leaves: the deltas in order, and an end that was told or will be. -/
structure Received (s : State) (answered : State × Option Answer) : Prop where
  answers : answered.1.answers = s.answers
  order : InOrder answered.1.delivered
  nextSeq : answered.1.nextSeq = answered.1.delivered.length + 1
  eof : answered.1.pendingEof = true → Complete answered.1.delivered
  told : ¬ s.Ended → (∀ answer, answered.2 = some answer → answer.ends = false) →
    answered.1.routed = false ∨ answered.1.handler = .removing → answered.1.Told
  complete : ¬ s.Ended → answered.2 = some .eof → Complete answered.1.delivered

theorem Received.ended (he : a.ends = true) (ha : s'.answers = s.answers)
    (hor : InOrder s'.delivered) (hn : s'.nextSeq = s'.delivered.length + 1)
    (hef : s'.pendingEof = false) (hc : ¬ s.Ended → a = .eof → Complete s'.delivered) :
    Received s (s', some a) := by
  refine ⟨ha, hor, hn, fun hp => ?_, fun _ ho => ?_, fun ho heq => ?_⟩
  · cases hef.symm.trans hp
  · cases he.symm.trans (ho a rfl)
  · exact hc ho (Option.some.inj heq)

theorem Inv.recv (h : Inv s) : Received s (recv requestId s) := by
  unfold HttpBodyStream.recv
  split
  · next hp =>
    apply Received.ended <;> simp [Answer.ends, h.order, h.nextSeq, h.eof hp]
  next hp =>
  rw [Bool.not_eq_true] at hp
  split
  · next hq =>
    split
    · next hup =>
      split
      · apply Received.ended <;> simp [Answer.ends, h.order, h.nextSeq, hp]
      · next hfl =>
        apply Received.ended <;> simp [Answer.ends, h.order, h.nextSeq, hp]
        -- the senders are not gone without the end being told
        intro hop
        have htl := h.told hop (.inl hup.1)
        simp [State.Told, hp, hq, hfl] at htl
    · exact ⟨rfl, h.order, h.nextSeq, h.eof, fun hop _ => h.told hop, nofun⟩
  · next dl q hq =>
    dsimp only
    split
    · apply Received.ended <;> simp [Answer.ends, h.order, h.nextSeq, hp]
    next hs =>
    have ho : InOrder (s.delivered ++ [dl]) := h.order.concat ((not_not.mp hs).trans h.nextSeq)
    split
    · apply Received.ended <;> simp [Answer.ends, ho, h.nextSeq, hp]
    next he =>
    have hc : dl.done = true → Complete (s.delivered ++ [dl]) := fun hd => ⟨ho, dl, by simp, hd, he⟩
    split
    · next hd =>
      split
      · apply Received.ended <;> simp [Answer.ends, ho, h.nextSeq, hp, hc hd]
      · refine ⟨?_, ?_, ?_, ?_, fun _ _ _ => .inl rfl, nofun⟩ <;> simp [ho, h.nextSeq, hc hd]
    · next hd =>
      refine ⟨rfl, ho, by simp [h.nextSeq], ?_, fun hop _ hg => ?_, nofun⟩
      · exact fun ha => by cases hp.symm.trans ha
      · refine (h.told hop hg).imp_right fun htl => htl.imp_right ?_
        rintro ⟨f, hf, ht⟩
        rw [hq] at hf
        rcases List.mem_cons.mp hf with rfl | hf
        · simp [Delta.terminal, he, hd] at ht
        · exact ⟨f, hf, ht⟩

theorem State.Told.append (h : s.Told) (dl : Delta) (handler : Handler) :
    State.Told { s with queue := s.queue ++ [dl], handler := handler } :=
  h.imp_right fun htl => htl.imp_right fun ⟨f, hf, ht⟩ =>
    ⟨f, List.mem_append_left _ hf, ht⟩

theorem Inv.next (h : Inv s) (he : Enabled s e) : Inv (next capacity requestId s e) := by
  cases e with
  | notified dl =>
    simp only [HttpBodyStream.next]
    split
    · next hrt => exact { h with told := fun _ hg => by simp_all }
    · exact h
  | trySend =>
    obtain ⟨dl, hs⟩ := he
    simp only [HttpBodyStream.next, hs]
    split
    · refine { h with told := fun ho hg => ?_ }
      by_cases ht : dl.terminal = true
      · exact .inr (.inr ⟨dl, by simp, ht⟩)
      · refine (h.told ho (.inl ?_)).append dl _
        simpa [ht] using hg
    · exact { h with told := fun ho hg => h.told ho (.inl (by simpa using hg)) }
  | record => exact { h with told := fun _ _ => .inr (.inl rfl) }
  | remove => exact { h with told := fun ho _ => h.told ho (.inr he) }
  | failAll message =>
    simp only [HttpBodyStream.next]
    split
    · split
      · exact { h with told := fun _ _ => .inr (.inr ⟨⟨1, [], true, some message⟩, by simp, rfl⟩) }
      · exact { h with told := fun _ _ => .inr (.inl rfl) }
    · exact h
  | recv =>
    have hr : Received s (HttpBodyStream.recv requestId s) := h.recv requestId
    refine { hr with told := fun ho hg => ?_ }
    simp only [HttpBodyStream.next, State.Ended, hr.answers, List.mem_append] at ho
    refine hr.told ?_ ?_ hg
    · exact fun ⟨answer, hm, hen⟩ => ho ⟨answer, .inl hm, hen⟩
    · intro answer ha
      by_contra hen
      exact ho ⟨answer, .inr (by simp [ha]), by simpa using hen⟩

end Endings

/-- Whatever ends a stream, for the first time, is an error or comes when the deltas were delivered
in order up to one that is the last of the body. -/
theorem ending_complete_or_error {s : State}
    (h : (stream capacity requestId).Reaches EventSystem.always State.new s) (hopen : ¬ s.Ended)
    {answer : Answer} (hanswer : (recv requestId s).2 = some answer) (hends : answer.ends = true) :
    answer = .eof ∧ Complete (recv requestId s).1.delivered ∨
      ∃ message, answer = .protocolError message := by
  have hn : Inv State.new := ⟨rfl, rfl, nofun, fun _ hg => by simp [State.new] at hg⟩
  have hi : Inv s := invariant (fun s event hs he _ => hs.next capacity requestId he) h hn
  cases answer with
  | chunk bs => cases hends
  | eof => exact .inl ⟨rfl, (hi.recv requestId).complete hopen hanswer⟩
  | protocolError message => exact .inr ⟨message, rfl⟩

theorem ending_complete_or_error_one_delta :
    let s := (stream 256 "http-0").run
      [.notified ⟨1, [7], true, none⟩, .trySend, .remove, .recv] State.new
    s.answers = [.chunk [7]] ∧ Complete (recv "http-0" s).1.delivered := by
  refine ⟨rfl, ?_⟩
  have ha : (stream 256 "http-0").Allows EventSystem.always
      [.notified ⟨1, [7], true, none⟩, .trySend, .remove, .recv] State.new :=
    ⟨rfl, trivial, ⟨_, rfl⟩, trivial, rfl, trivial, trivial, trivial, trivial⟩
  have ho : ¬ ((stream 256 "http-0").run
      [.notified ⟨1, [7], true, none⟩, .trySend, .remove, .recv] State.new).Ended := by
    rintro ⟨answer, hm, hen⟩
    cases List.mem_singleton.mp hm
    cases hen
  rcases ending_complete_or_error 256 "http-0" (of_allows ha) ho rfl rfl with ⟨_, hc⟩ | ⟨_, he⟩
  · exact hc
  · cases he

/-- After an error the next receive finds the channel closed and returns `Ok(None)`. -/
theorem eof_after_error : ∃ s, (stream 256 "http-0").Reaches EventSystem.always State.new s ∧
      .eof ∉ s.answers ∧ (recv "http-0" s).2 = some .eof ∧ (recv "http-0" s).1.delivered = [] := by
  have ha : (stream 256 "http-0").Allows EventSystem.always
      [.notified ⟨2, [], false, none⟩, .trySend, .recv] State.new :=
    ⟨rfl, trivial, ⟨_, rfl⟩, trivial, trivial, trivial, trivial⟩
  refine ⟨_, of_allows ha, ?_, rfl, rfl⟩
  intro hm
  cases List.mem_singleton.mp hm

end HttpBodyStream
