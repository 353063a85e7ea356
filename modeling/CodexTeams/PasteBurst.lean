import CodexTeams.Utf8

/-! Detection of pastes that arrive as a burst of key events. The first character of what may be a
burst is held back, and inserted characters may be moved into the buffer later. -/
namespace PasteBurst

open RustStr SizedLists Utf8

/-- Nanoseconds on the clock of the key events. -/
abbrev Instant := ℕ

def fromMillis (n : ℕ) : ℕ := n * 1000000

def pasteBurstMinChars : ℕ := 3

def pasteEnterSuppressWindow : ℕ := fromMillis 120

def pasteBurstCharInterval : ℕ := fromMillis 8

def pasteBurstActiveIdleTimeout (windows : Bool) : ℕ :=
  if windows then fromMillis 60 else fromMillis 8

structure Burst where
  lastPlainCharTime : Option Instant
  consecutivePlainCharBurst : ℕ
  burstWindowUntil : Option Instant
  buffer : Str
  active : Bool
  pendingFirstChar : Option (Char × Instant)
  deriving Repr

inductive CharDecision
  | beginBuffer (retroChars : ℕ)
  | bufferAppend
  | retainFirstChar
  | beginBufferFromPending
  deriving Repr

structure RetroGrab where
  startByte : ℕ
  grabbed : Str
  deriving Repr

inductive FlushResult
  | paste (text : Str)
  | typed (ch : Char)
  | none
  deriving Repr

def retroStartIndex (before : Str) (retroChars : ℕ) : ℕ := byteLen (before.rdrop retroChars)

namespace Burst

def new : Burst := ⟨none, 0, none, [], false, none⟩

section

variable (now : Instant) (b : Burst)

/-- The counter is sixteen bits wide and saturates. -/
def notePlainChar : Burst :=
  let count :=
    match b.lastPlainCharTime with
    | some prev =>
      if now - prev ≤ pasteBurstCharInterval then min (b.consecutivePlainCharBurst + 1) 65535
      else 1
    | none => 1
  { b with consecutivePlainCharBurst := count, lastPlainCharTime := some now }

def extendWindow : Burst :=
  { b with burstWindowUntil := some (now + pasteEnterSuppressWindow) }

/-- The character held back, if the next one comes soon enough to make it a burst. -/
def heldAt : Option Char :=
  b.pendingFirstChar.bind fun (held, heldAt) =>
    if now - heldAt ≤ pasteBurstCharInterval then some held else none

variable (ch : Char)

def onPlainChar (now : Instant) (b : Burst) : CharDecision × Burst :=
  let b := b.notePlainChar now
  if b.active then
    (.bufferAppend, b.extendWindow now)
  else
    match b.heldAt now with
    | some held =>
      (.beginBufferFromPending,
        { b with active := true, pendingFirstChar := none, buffer := b.buffer ++ [held] }
          |>.extendWindow now)
    | none =>
      if pasteBurstMinChars ≤ b.consecutivePlainCharBurst then
        (.beginBuffer (b.consecutivePlainCharBurst - 1), b)
      else
        (.retainFirstChar, { b with pendingFirstChar := some (ch, now) })

def onPlainCharNoHold : Option CharDecision × Burst :=
  let b := b.notePlainChar now
  if b.active then
    (some .bufferAppend, b.extendWindow now)
  else if pasteBurstMinChars ≤ b.consecutivePlainCharBurst then
    (some (.beginBuffer (b.consecutivePlainCharBurst - 1)), b)
  else
    (none, b)

def isActiveInternal : Bool := b.active || !b.buffer.isEmpty

def isActive : Bool := b.isActiveInternal || b.pendingFirstChar.isSome

variable (windows : Bool)

def timeout (b : Burst) : ℕ :=
  if b.isActiveInternal then pasteBurstActiveIdleTimeout windows else pasteBurstCharInterval

def timedOut (now : Instant) (b : Burst) : Bool :=
  b.lastPlainCharTime.any fun last => b.timeout windows < now - last

def flushIfDue (now : Instant) (b : Burst) : FlushResult × Burst :=
  if b.timedOut windows now then
    if b.isActiveInternal then
      (.paste b.buffer, { b with active := false, buffer := [] })
    else
      match b.pendingFirstChar with
      | some (ch, _) => (.typed ch, { b with pendingFirstChar := none })
      | none => (.none, b)
  else (.none, b)

def appendNewlineIfActive : Bool × Burst :=
  if b.isActive then (true, { b with buffer := b.buffer ++ ['\n'] } |>.extendWindow now)
  else (false, b)

def beginWithRetroGrabbed (grabbed : Str) (now : Instant) (b : Burst) : Burst :=
  { b with buffer := b.buffer ++ grabbed, active := true } |>.extendWindow now

def appendCharToBuffer (now : Instant) (b : Burst) : Burst :=
  { b with buffer := b.buffer ++ [ch] } |>.extendWindow now

def tryAppendCharIfActive (now : Instant) (b : Burst) : Bool × Burst :=
  if b.isActiveInternal then (true, b.appendCharToBuffer ch now) else (false, b)

def decideBeginBuffer (before : Str) (retroChars : ℕ) (b : Burst) : Option RetroGrab × Burst :=
  let startByte := retroStartIndex before retroChars
  let grabbed := behind utf8 startByte before
  if grabbed.any isWhitespace || 16 ≤ grabbed.length then
    (some ⟨startByte, grabbed⟩, b.beginWithRetroGrabbed grabbed now)
  else (none, b)

end

def flushBeforeModifiedInput (b : Burst) : Option Str × Burst :=
  if b.isActive then
    (some (b.buffer ++ (b.pendingFirstChar.map Prod.fst).toList),
      { b with active := false, buffer := [], pendingFirstChar := none })
  else (none, b)

def clearAfterExplicitPaste (_ : Burst) : Burst := new

section Lemmas

variable {b : Burst}

theorem isActiveInternal_eq_false :
    b.isActiveInternal = false ↔ b.active = false ∧ b.buffer = [] := by
  simp [isActiveInternal]

theorem isActive_eq_false :
    b.isActive = false ↔ b.active = false ∧ b.buffer = [] ∧ b.pendingFirstChar = none := by
  simp [isActive, isActiveInternal, and_assoc]

theorem timeout_of_internal (h : b.isActiveInternal = false) (ws : Bool) :
    b.timeout ws = pasteBurstCharInterval :=
  if_neg (ne_true_of_eq_false h)

theorem flushIfDue_cases (ws : Bool) (now : Instant) (b : Burst) :
    (b.timedOut ws now = true ∧ b.isActiveInternal = true ∧
      b.flushIfDue ws now = (.paste b.buffer, { b with active := false, buffer := [] })) ∨
    (b.timedOut ws now = true ∧ b.isActiveInternal = false ∧ ∃ ch a,
      b.pendingFirstChar = some (ch, a) ∧
        b.flushIfDue ws now = (.typed ch, { b with pendingFirstChar := none })) ∨
    (b.flushIfDue ws now = (.none, b) ∧ (b.timedOut ws now = false ∨
      b.isActiveInternal = false ∧ b.pendingFirstChar = none)) := by
  cases hd : b.timedOut ws now with
  | false => exact .inr (.inr ⟨by simp [flushIfDue, hd], .inl rfl⟩)
  | true =>
    cases ha : b.isActiveInternal with
    | true => exact .inl ⟨rfl, rfl, by simp [flushIfDue, hd, ha]⟩
    | false =>
      cases hp : b.pendingFirstChar with
      | none =>
        exact .inr (.inr ⟨by simp [flushIfDue, hd, ha, hp], .inr ⟨rfl, rfl⟩⟩)
      | some held =>
        exact .inr (.inl ⟨rfl, rfl, held.1, held.2, rfl, by simp [flushIfDue, hd, ha, hp]⟩)

/-- A burst that counts a third character goes on from one within the interval. -/
theorem notePlainChar_count
    (h : pasteBurstMinChars ≤ (b.notePlainChar now).consecutivePlainCharBurst) :
    ∃ l, b.lastPlainCharTime = some l ∧ now - l ≤ pasteBurstCharInterval ∧
      (b.notePlainChar now).consecutivePlainCharBurst ≤ b.consecutivePlainCharBurst + 1 := by
  cases hl : b.lastPlainCharTime with
  | none => simp [notePlainChar, hl, pasteBurstMinChars] at h
  | some l =>
    by_cases hs : now - l ≤ pasteBurstCharInterval
    · refine ⟨l, rfl, hs, ?_⟩
      simp only [notePlainChar, hl, if_pos hs]
      exact Nat.min_le_left _ _
    · simp only [notePlainChar, hl, if_neg hs, pasteBurstMinChars] at h
      omega

theorem onPlainChar_of_active (h : b.active = true) (ch : Char) :
    b.onPlainChar ch now = (.bufferAppend, (b.notePlainChar now).extendWindow now) :=
  if_pos h

theorem onPlainChar_of_held (h : b.active = false) (hh : b.heldAt now = some held) (ch : Char) :
    b.onPlainChar ch now = (.beginBufferFromPending,
      { b.notePlainChar now with
        active := true, pendingFirstChar := none, buffer := b.buffer ++ [held] }
        |>.extendWindow now) := by
  have hnt : ¬ (b.notePlainChar now).active = true := ne_true_of_eq_false h
  have hn : (b.notePlainChar now).heldAt now = some held := hh
  simp only [onPlainChar, if_neg hnt, hn]
  rfl

theorem onPlainChar_of_quiet (h : b.active = false) (hp : b.pendingFirstChar = none) (ch : Char) :
    b.onPlainChar ch now =
      if pasteBurstMinChars ≤ (b.notePlainChar now).consecutivePlainCharBurst then
        (.beginBuffer ((b.notePlainChar now).consecutivePlainCharBurst - 1), b.notePlainChar now)
      else (.retainFirstChar, { b.notePlainChar now with pendingFirstChar := some (ch, now) }) := by
  have hnt : ¬ (b.notePlainChar now).active = true := ne_true_of_eq_false h
  have hn : (b.notePlainChar now).heldAt now = none := by
    rw [heldAt, show (b.notePlainChar now).pendingFirstChar = none from hp]
    rfl
  simp [onPlainChar, if_neg hnt, hn]

theorem onPlainCharNoHold_of_quiet (h : b.active = false) : b.onPlainCharNoHold now =
      if pasteBurstMinChars ≤ (b.notePlainChar now).consecutivePlainCharBurst then
        (some (.beginBuffer ((b.notePlainChar now).consecutivePlainCharBurst - 1)),
          b.notePlainChar now) else (none, b.notePlainChar now) :=
  if_neg (ne_true_of_eq_false h)

end Lemmas

end Burst

end PasteBurst
