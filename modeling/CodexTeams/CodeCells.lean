import CodexTeams.Runs
import CodexTeams.RustStr

/-! The control loop of one code-mode cell: the events of its runtime, the commands of the calls
that wait for the cell or terminate it, and the slot for the sender of the next response. -/
namespace CodeCells

open RustStr Runs

/-- Who holds the receiver of a response. A session that shuts down drops it at once. -/
inductive Caller
  | execute
  | call (id : ℕ)
  | shutdown
  deriving DecidableEq, Repr

/-- The call that reports a missing cell when its sender is dropped. -/
def Caller.call? : Caller → Option ℕ
  | .call id => some id
  | _ => none

inductive SenderKind
  | runtime
  | executeToPending
  deriving Repr

structure CellResponseSender where
  caller : Caller
  kind : SenderKind
  deriving Repr

inductive CellControl
  | poll
  | pollToPending
  | terminate
  deriving Repr

/-- What a call asks for; a shutdown asks for the end of the cell without a call. -/
structure CellControlCommand where
  control : CellControl
  call : Option ℕ
  deriving Repr

def CellControlCommand.caller (command : CellControlCommand) : Caller :=
  command.call.elim .shutdown .call

inductive RuntimeEvent (α : Type*)
  | started
  | pending
  | contentItem (item : α)
  | yieldRequested
  | notify (callId text : Str)
  | toolCall (id : Str)
  | result (errorText : Option Str)
  deriving Repr

inductive Response (α : Type*)
  | yielded (contentItems : List α)
  | pending (contentItems : List α) (pendingToolCallIds : List Str)
  | result (contentItems : List α) (errorText : Option Str)
  | terminated (contentItems : List α)
  deriving DecidableEq, Repr

structure PendingResult (α : Type*) where
  contentItems : List α
  errorText : Option Str
  deriving Repr

section

variable {α : Type*}

def Response.contentItems : Response α → List α
  | .yielded items | .pending items _ | .result items _ | .terminated items => items

def Response.isFinal : Response α → Bool
  | .yielded _ | .pending _ _ => false
  | .result _ _ | .terminated _ => true

def pendingResultResponse (result : PendingResult α) : Response α :=
  .result result.contentItems result.errorText

end

structure State (α : Type*) where
  contentItems : List α
  pendingToolCallIds : List Str
  pendingResult : Option (PendingResult α)
  responseTx : Option CellResponseSender
  terminationRequested : Bool
  runtimeClosed : Bool
  yieldTimer : Bool
  /-- The loop is over; the cell is in the session's table until it is `gone`. -/
  ended : Bool
  gone : Bool
  commands : List CellControlCommand
  /-- The runtime has sent its result, the last thing it sends. -/
  resulted : Bool
  emitted : List α
  answers : List (Caller × Response α)
  missing : List ℕ
  deriving Repr

variable {α : Type*} (paused : Bool)

/-- A cell of `execute`, or, when it pauses, of `execute_to_pending`. -/
def State.new : State α where
  contentItems := []
  pendingToolCallIds := []
  pendingResult := none
  responseTx := some ⟨.execute, if paused then .executeToPending else .runtime⟩
  terminationRequested := false
  runtimeClosed := false
  yieldTimer := false
  ended := false
  gone := false
  commands := []
  resulted := false
  emitted := []
  answers := []
  missing := []

def endedUnexpectedly : Str := "exec runtime ended unexpectedly"

def State.dropSenders (callers : List Caller) (s : State α) : State α :=
  { s with missing := s.missing ++ callers.filterMap Caller.call? }

def sendOrBufferResult (result : PendingResult α) (s : State α) : State α :=
  match s.responseTx with
  | some tx => { s with
      responseTx := none, ended := true
      answers := s.answers ++ [(tx.caller, pendingResultResponse result)] }
  | none => { s with pendingResult := some result }

section

variable (s : State α)

def sendYieldResponse : State α :=
  match s.responseTx with
  | some ⟨caller, .runtime⟩ => { s with
      responseTx := none, contentItems := []
      answers := s.answers ++ [(caller, .yielded s.contentItems)] }
  | _ => s

def finishTermination : State α :=
  match s.responseTx with
  | some tx => { s with
      responseTx := none, contentItems := [], ended := true
      answers := s.answers ++ [(tx.caller, .terminated s.contentItems)] }
  | none => { s with ended := true }

def finishRuntime (errorText : Option Str) (s : State α) : State α :=
  if s.terminationRequested then finishTermination s
  else sendOrBufferResult ⟨s.contentItems, errorText⟩ { s with contentItems := [] }

def onRuntimeEvent : RuntimeEvent α → State α → State α
  | .started, s => { s with yieldTimer := !paused }
  | .pending, s => match s.responseTx with
    | some ⟨caller, .executeToPending⟩ => { s with
        responseTx := none, contentItems := [], pendingToolCallIds := []
        answers := s.answers ++ [(caller, .pending s.contentItems s.pendingToolCallIds)] }
    | _ => s
  | .contentItem item, s => { s with
      contentItems := s.contentItems ++ [item], emitted := s.emitted ++ [item] }
  | .yieldRequested, s => sendYieldResponse { s with yieldTimer := false }
  | .notify _ _, s => s
  | .toolCall id, s =>
    if paused then { s with pendingToolCallIds := s.pendingToolCallIds ++ [id] } else s
  | .result errorText, s => finishRuntime errorText { s with yieldTimer := false, resulted := true }

def onRuntimeClosed : State α :=
  if s.terminationRequested || s.pendingResult.isNone then
    finishRuntime (some endedUnexpectedly) { s with runtimeClosed := true }
  else { s with runtimeClosed := true }

def State.setSender (tx : CellResponseSender) (s : State α) : State α :=
  { s.dropSenders (s.responseTx.map (·.caller)).toList with responseTx := some tx }

def onCommand (command : CellControlCommand) (s : State α) : State α :=
  match s.pendingResult with
  | some result => { s with
      pendingResult := none, ended := true
      answers := s.answers ++ [(command.caller, pendingResultResponse result)] }
  | none => match command.control with
    | .poll => { s.setSender ⟨command.caller, .runtime⟩ with yieldTimer := true }
    | .pollToPending => { s.setSender ⟨command.caller, .executeToPending⟩ with
        yieldTimer := false }
    | .terminate =>
      let s := { s.setSender ⟨command.caller, .runtime⟩ with
        terminationRequested := true, yieldTimer := false }
      if s.runtimeClosed then finishTermination s else s

/-- One iteration of the loop, what a call does before it waits, and what follows the loop. -/
inductive Event (α : Type*)
  | runtime (event : RuntimeEvent α)
  | runtimeClosed
  | submit (command : CellControlCommand)
  | command
  | yieldTimer
  | cleanUp
  deriving Repr

def next : Event α → State α
  | .runtime event => onRuntimeEvent paused event s
  | .runtimeClosed => onRuntimeClosed s
  | .submit command =>
    if s.gone then s.dropSenders [command.caller]
    else { s with commands := s.commands ++ [command] }
  | .command => match s.commands with
    | command :: commands => onCommand command { s with commands }
    | [] => s
  | .yieldTimer => sendYieldResponse { s with yieldTimer := false }
  | .cleanUp => { s.dropSenders ((s.responseTx.map (·.caller)).toList ++
      s.commands.map (·.caller)) with responseTx := none, commands := [], gone := true }

def Enabled : Event α → Prop
  | .runtime _ => s.ended = false ∧ s.runtimeClosed = false ∧ s.resulted = false
  | .runtimeClosed => s.ended = false ∧ s.runtimeClosed = false
  | .submit _ => True
  | .command => s.ended = false ∧ s.commands ≠ []
  | .yieldTimer => s.ended = false ∧ s.yieldTimer = true
  | .cleanUp => s.ended = true ∧ s.gone = false

def system : EventSystem (State α) (Event α) := ⟨Enabled, next paused⟩

instance decidableEnabled (event : Event α) : Decidable ((system paused).Enabled s event) := by
  cases event <;> simp only [system, Enabled] <;> infer_instance

def State.Finished : Prop := ∃ answer ∈ s.answers, answer.2.isFinal = true

theorem CellControlCommand.caller_ne_execute (c : CellControlCommand) : c.caller ≠ .execute := by
  cases hc : c.call <;> simp [caller, hc]

/-- What the callers received; a session that shuts down receives nothing. -/
def delivered (answers : List (Caller × Response α)) : List α :=
  (answers.filter (·.1 ≠ .shutdown)).flatMap (·.2.contentItems)

def State.unsent : List α := s.pendingResult.elim s.contentItems (·.contentItems)

end

variable {paused}

/-- No command finds another call in the slot, and nothing is yielded to a call that
terminates the cell. -/
def Orderly (s : State α) : Event α → Prop
  | .command => s.pendingResult = none → ∀ tx ∈ s.responseTx, tx.caller = .execute
  | .runtime .yieldRequested | .yieldTimer => s.terminationRequested = false
  | _ => True

instance decidableOrderly (s : State α) (event : Event α) : Decidable (Orderly s event) := by
  rcases event with (_ | _) | _ | _ | _ | _ | _ <;> unfold Orderly <;> infer_instance

structure Answering (s : State α) : Prop where
  missing : s.missing ≠ [] ∨ s.gone = true → s.ended = true
  finished : s.ended = true → s.Finished
  terminator : s.ended = false → s.terminationRequested = true →
    ∃ tx, s.responseTx = some tx ∧ tx.kind = .runtime ∧ tx.caller ≠ .execute

namespace Answering

variable {s : State α}

theorem new : Answering (State.new paused : State α) :=
  ⟨by simp [State.new], by simp [State.new], by simp [State.new]⟩

theorem of_finished (hf : s.Finished) (he : s.ended = true) : Answering s :=
  ⟨fun _ => he, fun _ => hf, by simp [he]⟩

theorem missing_nil (hi : Answering s) (he : s.ended = false) : s.missing = [] := by
  by_contra hm
  simp [hi.missing (.inl hm)] at he

theorem finished_append (ans : List (Caller × Response α)) (c : Caller) (hf : rs.isFinal = true) :
    ∃ a ∈ ans ++ [(c, rs)], a.2.isFinal = true :=
  ⟨(c, rs), by simp, hf⟩

theorem finishTermination (htx : s.responseTx ≠ none) :
    Answering (CodeCells.finishTermination s) := by
  obtain ⟨tx, htx⟩ := Option.ne_none_iff_exists'.1 htx
  simp only [CodeCells.finishTermination, htx]
  exact of_finished (finished_append _ _ rfl) rfl

variable (hi : Answering s)

include hi

variable (he : s.ended = false)

include he

theorem finishRuntime (et : Option Str) : Answering (CodeCells.finishRuntime et s) := by
  unfold CodeCells.finishRuntime
  split
  · next ht =>
    obtain ⟨tx, htx, -⟩ := hi.terminator he ht
    exact finishTermination (by simp [htx])
  · next ht =>
    unfold sendOrBufferResult
    split
    · exact of_finished (finished_append _ _ rfl) rfl
    · exact ⟨hi.missing, by simp [he], by simp [ht]⟩

theorem sendYieldResponse (ht : s.terminationRequested = false) :
    Answering (CodeCells.sendYieldResponse s) := by
  unfold CodeCells.sendYieldResponse
  split
  · exact ⟨hi.missing, by simp [he], by simp [ht]⟩
  · exact hi

omit he in
theorem frame (ids : List Str) (cs : List CellControlCommand) (yt rc rs : Bool) :
    Answering { s with
      pendingToolCallIds := ids, commands := cs, yieldTimer := yt, runtimeClosed := rc,
      resulted := rs } :=
  { hi with }

theorem onRuntimeEvent (hc : Orderly s (.runtime e)) :
    Answering (CodeCells.onRuntimeEvent paused e s) := by
  cases e with
  | started | contentItem | notify => exact { hi with }
  | pending =>
    simp only [CodeCells.onRuntimeEvent]
    split
    · next caller htx =>
      refine ⟨hi.missing, by simp [he], fun _ ht => ?_⟩
      obtain ⟨tx, hs, hk, -⟩ := hi.terminator he ht
      simp [htx] at hs
      simp [← hs] at hk
    · exact hi
  | yieldRequested => exact (hi.frame ..).sendYieldResponse he hc
  | toolCall =>
    simp only [CodeCells.onRuntimeEvent]
    split
    · exact hi.frame ..
    · exact hi
  | result => exact (hi.frame _ _ false _ true).finishRuntime he _

theorem onRuntimeClosed : Answering (CodeCells.onRuntimeClosed s) := by
  unfold CodeCells.onRuntimeClosed
  split
  · exact (hi.frame _ _ _ true _).finishRuntime he _
  · exact hi.frame ..

theorem setSender (ht : s.terminationRequested = false)
    (hc : ∀ tx ∈ s.responseTx, tx.caller = .execute) (tx : CellResponseSender) :
    Answering (s.setSender tx) := by
  have hm : (s.setSender tx).missing = [] := by
    rcases hs : s.responseTx with _ | old
    · simp [State.setSender, State.dropSenders, hs, hi.missing_nil he]
    · simp [State.setSender, State.dropSenders, hs, hi.missing_nil he, hc, Caller.call?]
  refine ⟨?_, hi.finished, fun _ h => ?_⟩
  · rintro (h | h)
    · exact absurd hm h
    · exact hi.missing (.inr h)
  · exact absurd (ht.symm.trans h) (by simp)

theorem onCommand (c : CellControlCommand)
    (hc : s.pendingResult = none → ∀ tx ∈ s.responseTx, tx.caller = .execute) :
    Answering (CodeCells.onCommand c s) := by
  unfold CodeCells.onCommand
  split
  · exact of_finished (finished_append _ _ rfl) rfl
  · next hp =>
    have ht : s.terminationRequested = false := by
      by_contra ht
      obtain ⟨tx, htx, -, hn⟩ := hi.terminator he (by simpa using ht)
      exact hn (hc hp tx htx)
    have hj kind := hi.setSender he ht (hc hp) ⟨c.caller, kind⟩
    split
    · exact (hj .runtime).frame ..
    · exact (hj .executeToPending).frame ..
    · dsimp only
      split
      · exact finishTermination (by simp [State.setSender])
      · exact ⟨(hj .runtime).missing, (hj .runtime).finished,
          fun _ _ => ⟨_, rfl, rfl, c.caller_ne_execute⟩⟩

omit he

theorem next (e : Event α) (he : Enabled s e) (hc : Orderly s e) :
    Answering (CodeCells.next paused s e) := by
  cases e with
  | runtime e => exact hi.onRuntimeEvent he.1 hc
  | runtimeClosed => exact hi.onRuntimeClosed he.1
  | submit command =>
    simp only [CodeCells.next]
    split
    · next hg =>
      exact { hi with missing := fun _ => hi.missing (.inr hg) }
    · exact hi.frame ..
  | command =>
    simp only [CodeCells.next]
    split
    · next command commands _ => exact (hi.frame _ commands _ _ _).onCommand he.1 command hc
    · exact hi
  | yieldTimer => exact (hi.frame ..).sendYieldResponse he.1 hc
  | cleanUp => exact of_finished (hi.finished he.1) he.1

end Answering

/-- In every run in which the calls take turns, a missing cell has ended and its end was handed
out. -/
theorem missing_only_after_end {s : State α} (hr : (system paused).Reaches Orderly (.new paused) s)
    (hm : s.missing ≠ []) : s.ended = true ∧ s.Finished := by
  have hi : Answering s := hr.invariant (fun _ event hi he hc => hi.next event he hc) .new
  have he := hi.missing (.inl hm)
  exact ⟨he, hi.finished he⟩

theorem missing_only_after_end_late_poll :
    let events : List (Event ℕ) := [.runtime (.result none), .submit ⟨.poll, some 0⟩, .cleanUp]
    let s := (system false).run events (.new false)
    s.missing = [0] ∧ s.ended = true ∧ s.Finished := by
  intro events s
  exact ⟨by decide, missing_only_after_end (.of_allows (by decide : (system false).Allows
    Orderly events (.new false))) (by decide)⟩

/-- Of two polls, the second takes the slot of the first, which reports a missing cell while
the loop goes on. -/
theorem overwritten_poll_missing : ∃ s : State ℕ,
    (system false).Reaches EventSystem.always (.new false) s ∧ s.missing = [0] ∧
      s.ended = false ∧ s.answers = [] := by
  let es : List (Event ℕ) :=
    [.submit ⟨.poll, some 0⟩, .submit ⟨.poll, some 1⟩, .command, .command]
  have ha : (system false).Allows EventSystem.always es (.new false) := by decide
  exact ⟨_, .of_allows ha, by decide, by decide, by decide⟩

/-- No session shuts down: every other caller waits for its response. -/
def NoAbandon (_ : State α) : Event α → Prop
  | .submit command => command.call ≠ none
  | _ => True

instance decidableNoAbandon (s : State α) (event : Event α) : Decidable (NoAbandon s event) := by
  cases event <;> unfold NoAbandon <;> infer_instance

def Sent (s : State α) : Prop :=
  delivered s.answers <+: s.emitted ∧ (s.Finished → delivered s.answers = s.emitted)

/-- A cell whose loop goes on. -/
structure Going (s : State α) : Prop where
  unfinished : ¬ s.Finished
  conserved : delivered s.answers ++ s.unsent = s.emitted
  buffered : s.pendingResult ≠ none → s.responseTx = none ∧ s.terminationRequested = false ∧
      (s.runtimeClosed = false → s.resulted = true)

structure Conserving (s : State α) : Prop where
  sender : ∀ tx ∈ s.responseTx, tx.caller ≠ .shutdown
  commands : ∀ command ∈ s.commands, command.call ≠ none
  going : s.ended = false → Going s
  sent : s.ended = true → Sent s

theorem delivered_append (ans : List (Caller × Response α)) (hc : c ≠ .shutdown) (rs : Response α) :
    delivered (ans ++ [(c, rs)]) = delivered ans ++ rs.contentItems := by
  simp [delivered, hc]

namespace Going

variable {r : Response α}

theorem delivered_all (hi : Going s) (r : Response α) (hc : c ≠ .shutdown)
    (hr : r.contentItems = s.unsent) : delivered (s.answers ++ [(c, r)]) = s.emitted := by
  rw [delivered_append _ hc, hr, hi.conserved]

theorem unfinished_append (hi : Going s) (hr : r.isFinal = false) :
    ¬ ∃ a ∈ s.answers ++ [(c, r)], a.2.isFinal = true := by
  rintro ⟨a, hm, hf⟩
  rcases List.mem_append.1 hm with hm | hm
  · exact hi.unfinished ⟨a, hm, hf⟩
  · simp_all

theorem sent (hi : Going s) : Sent s :=
  ⟨⟨s.unsent, hi.conserved⟩, fun hf => absurd hf hi.unfinished⟩

theorem pendingResult_none (hi : Going s) (htx : s.responseTx = some tx) :
    s.pendingResult = none := by
  by_contra hp
  simp [(hi.buffered hp).1] at htx

theorem unsent_eq (hi : Going s) (htx : s.responseTx = some tx) : s.unsent = s.contentItems := by
  simp [State.unsent, hi.pendingResult_none htx]

end Going

namespace Conserving

variable {s : State α}

theorem new : Conserving (State.new paused : State α) := by
  refine ⟨by simp [State.new], by simp [State.new], fun _ => ⟨?_, rfl, ?_⟩, by simp [State.new]⟩
  · simp [State.Finished, State.new]
  · simp [State.new]

theorem of_delivered (hs : ∀ tx ∈ s.responseTx, tx.caller ≠ .shutdown)
    (hc : ∀ c ∈ s.commands, c.call ≠ none) (he : s.ended = true)
    (hd : delivered s.answers = s.emitted) : Conserving s :=
  ⟨hs, hc, by simp [he], fun _ => ⟨hd ▸ List.prefix_rfl, fun _ => hd⟩⟩

variable (hi : Conserving s)

include hi

theorem frame (ids : List Str) (yt gone : Bool) (missing : List ℕ) (hc : ∀ c ∈ cs, c.call ≠ none) :
    Conserving { s with
      pendingToolCallIds := ids, yieldTimer := yt, gone, missing, commands := cs } :=
  ⟨hi.sender, hc, fun h => ⟨(hi.going h).unfinished, (hi.going h).conserved,
    (hi.going h).buffered⟩, hi.sent⟩

section

variable (he : s.ended = false)

include he

theorem finishTermination : Conserving (CodeCells.finishTermination s) := by
  have hg := hi.going he
  unfold CodeCells.finishTermination
  split
  · next tx htx =>
    have hd := hg.delivered_all (.terminated s.contentItems) (hi.sender tx htx)
      (hg.unsent_eq htx).symm
    exact of_delivered (by simp) hi.commands rfl hd
  · exact ⟨hi.sender, hi.commands, by simp, fun _ => hg.sent⟩

theorem finishRuntime (hr : s.runtimeClosed = false → s.resulted = true)
    (hp : s.terminationRequested = false → s.pendingResult = none) (et : Option Str) :
    Conserving (CodeCells.finishRuntime et s) := by
  have hg := hi.going he
  unfold CodeCells.finishRuntime
  split
  · exact hi.finishTermination he
  · next ht =>
    have ht : s.terminationRequested = false := by simpa using ht
    have hu : s.unsent = s.contentItems := by simp [State.unsent, hp ht]
    unfold sendOrBufferResult
    split
    · next tx htx =>
      have hd := hg.delivered_all (.result s.contentItems et) (hi.sender tx htx) hu.symm
      exact of_delivered (by simp) hi.commands rfl hd
    · next htx =>
      refine ⟨hi.sender, hi.commands, fun _ => ⟨hg.unfinished, ?_, fun _ => ⟨htx, ht, hr⟩⟩,
        fun h => absurd (he.symm.trans h) (by simp)⟩
      rw [← hg.conserved, hu]
      rfl

theorem sendYieldResponse : Conserving (CodeCells.sendYieldResponse s) := by
  have hg := hi.going he
  unfold CodeCells.sendYieldResponse
  split
  · next caller htx =>
    have hd := hg.delivered_all (.yielded s.contentItems) (hi.sender _ htx) (hg.unsent_eq htx).symm
    have hp := hg.pendingResult_none htx
    refine ⟨by simp, hi.commands, fun _ => ⟨hg.unfinished_append rfl, ?_, by simp [hp]⟩,
      by simp [he]⟩
    simp [State.unsent, hp, hd]
  · exact hi

end

theorem onRuntimeEvent (he : Enabled s (.runtime e)) :
    Conserving (CodeCells.onRuntimeEvent paused e s) := by
  obtain ⟨he, hcl, hr⟩ := he
  have hg := hi.going he
  have hp : s.pendingResult = none := by
    by_contra hp
    simp [(hg.buffered hp).2.2 hcl] at hr
  cases e with
  | started | notify => exact hi.frame _ _ _ _ hi.commands
  | pending =>
    simp only [CodeCells.onRuntimeEvent]
    split
    · next caller htx =>
      have hd := hg.delivered_all (.pending s.contentItems s.pendingToolCallIds)
        (hi.sender _ htx) (hg.unsent_eq htx).symm
      refine ⟨by simp, hi.commands, fun _ => ⟨hg.unfinished_append rfl, ?_, by simp [hp]⟩,
        by simp [he]⟩
      simp [State.unsent, hp, hd]
    · exact hi
  | contentItem i =>
    refine ⟨hi.sender, hi.commands, fun _ => { hg with conserved := ?_ },
      fun h => absurd (he.symm.trans h) (by simp)⟩
    simp [CodeCells.onRuntimeEvent, ← hg.conserved, State.unsent, hp]
  | yieldRequested => exact (hi.frame _ _ _ _ hi.commands).sendYieldResponse he
  | toolCall =>
    simp only [CodeCells.onRuntimeEvent]
    split
    · exact hi.frame _ _ _ _ hi.commands
    · exact hi
  | result et =>
    exact finishRuntime (s := { s with yieldTimer := false, resulted := true })
      { hi with going := fun _ => ⟨hg.unfinished, hg.conserved, by simp [hp]⟩ }
      he (fun _ => rfl) (fun _ => hp) et

section

variable (he : s.ended = false)

include he

theorem onRuntimeClosed : Conserving (CodeCells.onRuntimeClosed s) := by
  have hg := hi.going he
  have hj : Conserving { s with runtimeClosed := true } :=
    { hi with going := fun _ => ⟨hg.unfinished, hg.conserved, fun hp =>
        ⟨(hg.buffered hp).1, (hg.buffered hp).2.1, by simp⟩⟩ }
  unfold CodeCells.onRuntimeClosed
  split
  · next hc =>
    refine hj.finishRuntime he (by simp) (fun ht => ?_) _
    have ht : s.terminationRequested = false := ht
    simpa [ht] using hc
  · exact hj

theorem setSender (hp : s.pendingResult = none)
    (tx : CellResponseSender) (htx : tx.caller ≠ .shutdown) : Conserving (s.setSender tx) := by
  have hg := hi.going he
  refine ⟨?_, hi.commands, fun _ => { hg with buffered := ?_ }, hi.sent⟩
  · simpa [State.setSender] using htx
  · simp [State.setSender, State.dropSenders, hp]

theorem onCommand (hc : c.call ≠ none) : Conserving (CodeCells.onCommand c s) := by
  have hn : c.caller ≠ .shutdown := by
    obtain ⟨id, hid⟩ := Option.ne_none_iff_exists'.1 hc
    simp [CellControlCommand.caller, hid]
  have hg := hi.going he
  unfold CodeCells.onCommand
  split
  · next r hp =>
    have hd := hg.delivered_all (pendingResultResponse r) hn
      (by simp [State.unsent, hp, pendingResultResponse, Response.contentItems])
    exact of_delivered hi.sender hi.commands rfl hd
  · next hp =>
    have hj kind := hi.setSender he hp ⟨c.caller, kind⟩ hn
    split
    · exact (hj .runtime).frame _ _ _ _ hi.commands
    · exact (hj .executeToPending).frame _ _ _ _ hi.commands
    · have ht : Conserving { s.setSender ⟨c.caller, .runtime⟩ with
          terminationRequested := true, yieldTimer := false } :=
        ⟨(hj .runtime).sender, hi.commands, fun _ => { hg with buffered := absurd hp }, hi.sent⟩
      dsimp only
      split
      · exact ht.finishTermination he
      · exact ht

end

theorem next (e : Event α) (he : Enabled s e)
    (hc : NoAbandon s e) : Conserving (CodeCells.next paused s e) := by
  cases e with
  | runtime e => exact hi.onRuntimeEvent he
  | runtimeClosed => exact hi.onRuntimeClosed he.1
  | submit command =>
    simp only [CodeCells.next]
    split
    · exact hi.frame _ _ _ _ hi.commands
    · refine hi.frame _ _ _ _ fun c hm => ?_
      rcases List.mem_append.1 hm with hm | hm
      · exact hi.commands c hm
      · exact List.mem_singleton.1 hm ▸ hc
  | command =>
    simp only [CodeCells.next]
    split
    · next command commands hcs =>
      have hm := hi.commands
      rw [hcs] at hm
      exact (hi.frame _ _ _ _ fun c h => hm c (.tail _ h)).onCommand he.1 (hm _ (.head _))
    · exact hi
  | yieldTimer => exact (hi.frame _ _ _ _ hi.commands).sendYieldResponse he.1
  | cleanUp =>
    exact ⟨by simp [CodeCells.next], by simp [CodeCells.next],
      fun h => absurd (he.1.symm.trans h) (by simp), hi.sent⟩

end Conserving

/-- Whatever the order of events and commands, what the callers received is a prefix of what
the runtime emitted, and all of it once the cell's end was handed out. -/
theorem output_once_in_order {s : State α}
    (hr : (system paused).Reaches NoAbandon (.new paused) s) :
    delivered s.answers <+: s.emitted ∧ (s.Finished → delivered s.answers = s.emitted) := by
  have hi : Conserving s := hr.invariant (fun _ event hi he hc => hi.next event he hc) .new
  cases he : s.ended with
  | false => exact (hi.going he).sent
  | true => exact hi.sent he

theorem output_once_in_order_two_items :
    let events := [.runtime .started, .runtime (.contentItem 1), .yieldTimer,
      .runtime (.contentItem 2), .submit ⟨.poll, some 0⟩, .command, .runtime (.result none)]
    let s : State ℕ := (system false).run events (.new false)
    s.Finished ∧ delivered s.answers = [1, 2] ∧ delivered s.answers = s.emitted := by
  intro events s
  have hf : s.Finished := ⟨(.call 0, .result [2] none), by decide, rfl⟩
  have ha : (system false).Allows NoAbandon events (.new false) := by decide
  exact ⟨hf, by decide, (output_once_in_order (.of_allows ha)).2 hf⟩

end CodeCells
