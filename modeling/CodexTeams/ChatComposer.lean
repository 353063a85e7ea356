import CodexTeams.PasteBurst
import CodexTeams.Runs
import CodexTeams.TextEditing
import Mathlib.Data.List.Infix
import Mathlib.Algebra.Group.Nat.Defs

/-! Typing into the composer while pastes are detected from bursts of keys. Characters wait in the
burst detector or stand in the text. -/
namespace ChatComposer

open RustStr SizedLists Utf8 PasteBurst TextEditing

structure Composer where
  textarea : EditArea
  burst : Burst
  isBashMode : Bool
  disablePasteBurst : Bool
  imagePasteEnabled : Bool
  pendingPastes : List (Str × Str)
  images : ℕ

def Within (text : Str) (elements : List TextElement) : Prop :=
  ∀ element ∈ elements, element.stop ≤ byteLen text

/-- What the composer has from the platform, the file system and its popups. -/
structure Surroundings where
  windows : Bool
  readsImage : Str → Bool
  /-- The elements once the command at the start of the text is marked as one. -/
  markedElements : Composer → List TextElement
  markedElements_within : ∀ c, Within c.textarea.text c.textarea.elements →
    Within c.textarea.text (markedElements c)

inductive Key
  | char (ch : Char)
  | enter
  deriving Repr

/-- A key without modifiers, or a tick of the user interface. -/
inductive Event
  | key (now : Instant) (key : Key)
  | tick (now : Instant)
  deriving Repr

def largePasteCharThreshold : ℕ := 1000

def isAsciiControl (ch : Char) : Bool := ch.val < 32 || ch.val == 127

def isAscii (ch : Char) : Bool := ch.val < 128

def decimal (n : ℕ) : Str := (Nat.repr n).toList

def parseUsize (s : Str) : Option ℕ :=
  let digits := (stripPrefix s ['+']).getD s
  let value := digits.foldl (fun value ch => 10 * value + (ch.toNat - '0'.toNat)) 0
  if digits ≠ [] ∧ digits.all Char.isDigit ∧ value < 2 ^ 64 then some value else none

def replaceCrLf : Str → Str
  | '\r' :: '\n' :: rest => '\n' :: replaceCrLf rest
  | ch :: rest => ch :: replaceCrLf rest
  | [] => []

def normalizeNewlines (pasted : Str) : Str :=
  (replaceCrLf pasted).map fun ch => if ch = '\r' then '\n' else ch

def pastedContent (charCount : ℕ) : Str :=
  "[Pasted Content " ++ decimal charCount ++ " chars]"

def numbered (base : Str) : Str := base ++ " #"

def localImageLabelText (labelNumber : ℕ) : Str :=
  "[Image #" ++ decimal labelNumber ++ "]"

namespace Composer

def nextLargePastePlaceholder (charCount : ℕ) (c : Composer) : Str :=
  let base := pastedContent charCount
  let maxSuffix := c.pendingPastes.foldl (fun maxSuffix (placeholder, _) =>
    if placeholder = base then max maxSuffix 1
    else
      match (stripPrefix placeholder (numbered base)).bind parseUsize with
      | some value => max maxSuffix value
      | none => maxSuffix) 0
  if maxSuffix = 0 then base else numbered base ++ decimal (maxSuffix + 1)

variable (c : Composer)

def attachImage : Composer :=
  { c with
    textarea := c.textarea.insertElement (localImageLabelText (c.images + 1))
    images := c.images + 1 }

def syncBashModeFromText : Composer :=
  if !c.isBashMode ∧ c.textarea.text.head? = some '!' then
    { c with textarea := c.textarea.replaceRange ⟨0, 1⟩ [], isBashMode := true }
  else c

def retainPendingPastes : Composer :=
  { c with pendingPastes := c.pendingPastes.filter fun pending => pending.1 <:+: c.textarea.text }

def input (key : Key) (c : Composer) : Composer :=
  match key with
  | .char ch =>
    if isAsciiControl ch then c else { c with textarea := c.textarea.insertStr [ch] }
  | .enter => { c with textarea := c.textarea.insertStr ['\n'] }

def clampToCharBoundary (text : Str) (pos : ℕ) : ℕ := floorCut utf8 text (min pos (byteLen text))

/-- Moves what was typed last into the buffer, if it looks like part of a paste. -/
def beginBuffer (ch : Char) (now : Instant) (retroChars : ℕ) (c : Composer) : Option Composer :=
  let safeCur := clampToCharBoundary c.textarea.text c.textarea.cursorPos
  match c.burst.decideBeginBuffer now (before utf8 safeCur c.textarea.text) retroChars with
  | (some grab, burst) =>
    some { c with
      textarea :=
        if grab.grabbed = [] then c.textarea
        else c.textarea.replaceRange ⟨grab.startByte, safeCur⟩ []
      burst := burst.appendCharToBuffer ch now }
  | (none, _) => none

variable (env : Surroundings)

def syncPopups (c : Composer) : Composer :=
  { c with textarea := { c.textarea with elements := env.markedElements c } }

def insertStr (str : Str) (c : Composer) : Composer :=
  syncPopups env { c with textarea := c.textarea.insertStr str }.syncBashModeFromText

def handlePaste (pasted : Str) (c : Composer) : Composer :=
  let pasted := normalizeNewlines pasted
  let c :=
    if largePasteCharThreshold < pasted.length then
      let placeholder := c.nextLargePastePlaceholder pasted.length
      { c with
        textarea := c.textarea.insertElement placeholder
        pendingPastes := c.pendingPastes ++ [(placeholder, pasted)] }
    else if 1 < pasted.length ∧ c.imagePasteEnabled ∧ env.readsImage pasted then
      let c := c.attachImage
      { c with textarea := c.textarea.insertStr [' '] }
    else c.insertStr env pasted
  syncPopups env { c with burst := c.burst.clearAfterExplicitPaste }

def handlePasteBurstFlush (now : Instant) (c : Composer) : Composer :=
  match c.burst.flushIfDue env.windows now with
  | (.paste pasted, burst) => { c with burst := burst }.handlePaste env pasted
  | (.typed ch, burst) => { c with burst := burst }.insertStr env [ch]
  | (.none, burst) => { c with burst := burst }

def flushBeforeModifiedInput (c : Composer) : Composer :=
  match c.burst.flushBeforeModifiedInput with
  | (some pasted, burst) => { c with burst := burst }.handlePaste env pasted
  | (none, burst) => { c with burst := burst }

def handleNonAsciiChar (ch : Char) (now : Instant) (c : Composer) : Composer :=
  if c.disablePasteBurst then (c.input (.char ch)).retainPendingPastes
  else
    match c.burst.tryAppendCharIfActive ch now with
    | (true, burst) => { c with burst := burst }
    | (false, _) =>
      let c := c.flushBeforeModifiedInput env
      let insert (c : Composer) : Composer :=
        ((c.flushBeforeModifiedInput env).input (.char ch)).retainPendingPastes
      match c.burst.onPlainCharNoHold now with
      | (some .bufferAppend, burst) => { c with burst := burst.appendCharToBuffer ch now }
      | (some (.beginBuffer retroChars), burst) =>
        let c := { c with burst := burst }
        (c.beginBuffer ch now retroChars).getD (insert c)
      | (_, burst) => insert { c with burst := burst }

def insertChar (ch : Char) (c : Composer) : Composer :=
  ((c.flushBeforeModifiedInput env).input (.char ch)).syncBashModeFromText

def handleAsciiChar (ch : Char) (now : Instant) (c : Composer) : Composer :=
  match c.burst.onPlainChar ch now with
  | (.bufferAppend, burst) => { c with burst := burst.appendCharToBuffer ch now }
  | (.beginBuffer retroChars, burst) =>
    let c := { c with burst := burst }
    (c.beginBuffer ch now retroChars).getD (c.insertChar env ch)
  | (.beginBufferFromPending, burst) => { c with burst := burst.appendCharToBuffer ch now }
  | (.retainFirstChar, burst) => { c with burst := burst }

def handleEnter (now : Instant) (c : Composer) : Composer :=
  if !c.disablePasteBurst ∧ c.burst.isActive then
    { c with burst := (c.burst.appendNewlineIfActive now).2 }
  else (c.input .enter).syncBashModeFromText

def handleInputBasicWithTime (key : Key) (now : Instant) (c : Composer) : Composer :=
  let c := c.handlePasteBurstFlush env now
  match key with
  | .enter => c.handleEnter now
  | .char ch =>
    if c.disablePasteBurst then c.insertChar env ch
    else if !isAscii ch then c.handleNonAsciiChar env ch now
    else c.handleAsciiChar env ch now

/-- The popups are brought up to date after a key. -/
def handleKeyEvent (key : Key) (now : Instant) (c : Composer) : Composer :=
  syncPopups env (c.handleInputBasicWithTime env key now)

end Composer

end ChatComposer
