import CodexTeams.StableSort
import CodexTeams.Utf8
import Mathlib.Logic.Function.Iterate

/-! The edits, cursor movements and element operations of the text area, with positions in bytes of
UTF-8. Movements set the cursor to a clamped position; leaving the insert mode has a rule of its
own. -/
namespace TextEditing

open RustStr SizedLists Utf8 StableSort

structure TextElement where
  start : ℕ
  stop : ℕ
  deriving DecidableEq, Repr

structure Range where
  start : ℕ
  stop : ℕ
  deriving Repr

variable (element : TextElement) (range : Range)

def TextElement.Meets : Prop :=
  element.start < range.stop ∧ range.start < element.stop

instance TextElement.decidableMeets :
    Decidable (element.Meets range) := inferInstanceAs (Decidable (_ ∧ _))

def expandOver (element : TextElement) : Range :=
  if element.Meets range then ⟨min range.start element.start, max range.stop element.stop⟩
  else range

/-- A pass that changes the range takes in an element for good, so the source's passes until
nothing changes are at most as many as there are elements. -/
def expandRangeToElementBoundaries (elements : List TextElement) (range : Range) : Range :=
  (fun range => elements.foldl expandOver range)^[elements.length] range

variable (pos removed inserted : ℕ)

def shiftElement (element : TextElement) : TextElement :=
  if element.stop ≤ pos then element
  else if pos + removed ≤ element.start then
    ⟨element.start + inserted - removed, element.stop + inserted - removed⟩
  else ⟨min pos element.start, pos + max inserted (element.stop - (pos + removed))⟩

def shiftElements (elements : List TextElement) : List TextElement :=
  (elements.filter fun element => !(pos ≤ element.start ∧ element.stop ≤ pos + removed)).map
    (shiftElement pos removed inserted)

/-- What is used of unicode-segmentation. The grapheme cursor is given the whole text, so it never
asks for more. -/
structure Segmentation where
  prevBoundary : Str → ℕ → Option ℕ
  nextBoundary : Str → ℕ → Option ℕ
  splitWordBounds : Str → List Str
  prevBoundary_cut : ∀ text pos b, IsCut utf8 text pos → prevBoundary text pos = some b →
    IsCut utf8 text b ∧ b ≤ pos
  nextBoundary_cut : ∀ text pos b, IsCut utf8 text pos → nextBoundary text pos = some b →
    IsCut utf8 text b ∧ pos ≤ b
  splitWordBounds_flatten : ∀ run, (splitWordBounds run).flatten = run

structure EditArea where
  text : Str
  cursorPos : ℕ
  elements : List TextElement
  killBuffer : Str

def isWordSeparator (ch : Char) : Bool :=
  ch ∈ "`~!@#$%^&*()-=+[\x7b]\x7d\\|;:'\",.<>/?".toList

namespace EditArea

def new : EditArea := ⟨[], 0, [], []⟩

variable (pos : ℕ) (a : EditArea)

def findElementContaining : Option TextElement :=
  a.elements.find? fun e => e.start < pos ∧ pos < e.stop

def clampPosToCharBoundary : ℕ := nearestCut utf8 a.text pos

/-- A position inside an element moves to the nearer end of it. -/
def clampPosToNearestBoundary : ℕ :=
  let pos := a.clampPosToCharBoundary pos
  match a.findElementContaining pos with
  | some e =>
    if pos - e.start ≤ e.stop - pos then a.clampPosToCharBoundary e.start
    else a.clampPosToCharBoundary e.stop
  | none => pos

def clampPosForInsertion : ℕ := a.clampPosToNearestBoundary pos

def beginningOfCurrentLine : ℕ :=
  byteLen ((before utf8 a.cursorPos a.text).rdropWhile (· ≠ '\n'))

def endOfCurrentLine : ℕ :=
  a.cursorPos + byteLen ((behind utf8 a.cursorPos a.text).takeWhile (· ≠ '\n'))

def currentLineRangeWithNewline : Range :=
  let eol := a.endOfCurrentLine
  ⟨a.beginningOfCurrentLine, if eol < byteLen a.text then eol + 1 else eol⟩

def adjustPosOutOfElements (preferStart : Bool) (a : EditArea) : ℕ :=
  match a.findElementContaining pos with
  | some e => if preferStart then e.start else e.stop
  | none => pos

variable (str : Str) (a : EditArea)

def insertStrAt : EditArea :=
  let pos := a.clampPosForInsertion pos
  { a with
    text := before utf8 pos a.text ++ str ++ behind utf8 pos a.text
    cursorPos := if pos ≤ a.cursorPos then a.cursorPos + byteLen str else a.cursorPos
    elements := shiftElements pos 0 (byteLen str) a.elements }

def insertStr : EditArea := a.insertStrAt a.cursorPos str

def setCursor : EditArea :=
  { a with cursorPos := a.clampPosToNearestBoundary (min pos (byteLen a.text)) }

def movedCursor (start stop inserted pos : ℕ) : ℕ :=
  if pos < start then pos
  else if pos ≤ stop then start + inserted
  else pos + inserted - (stop - start)

variable (range : Range)

def replaceRangeRaw (str : Str) (a : EditArea) : EditArea :=
  let start := min range.start (byteLen a.text)
  let stop := min range.stop (byteLen a.text)
  if stop - start = 0 ∧ byteLen str = 0 then a
  else
    let text := before utf8 range.start a.text ++ str ++ behind utf8 range.stop a.text
    let edited := { a with
      text, elements := shiftElements start (stop - start) (byteLen str) a.elements }
    { edited with
      cursorPos := edited.clampPosToNearestBoundary
        (min (movedCursor start stop (byteLen str) a.cursorPos) (byteLen text)) }

def replaceRange (str : Str) (a : EditArea) : EditArea :=
  a.replaceRangeRaw (expandRangeToElementBoundaries a.elements range) str

def setTextWithElements (text : Str) (elements : List Range) (a : EditArea) : EditArea :=
  let replaced := { a with text, cursorPos := min a.cursorPos (byteLen text) }
  let clamped := elements.map fun range =>
    (⟨replaced.clampPosToCharBoundary (min range.start (byteLen text)),
      replaced.clampPosToCharBoundary (min range.stop (byteLen text))⟩ : TextElement)
  let marked := { replaced with
    elements := sortByKey TextElement.start (clamped.filter fun e => e.start < e.stop) }
  { marked with cursorPos := marked.clampPosToNearestBoundary marked.cursorPos }

variable (a : EditArea)

def killRange : EditArea :=
  let range := expandRangeToElementBoundaries a.elements range
  let removed := before utf8 (range.stop - range.start) (behind utf8 range.start a.text)
  if range.stop ≤ range.start ∨ removed = [] then a
  else { a with killBuffer := removed }.replaceRangeRaw range []

def killCurrentLine : EditArea := a.killRange a.currentLineRangeWithNewline

def killToEndOfLine : EditArea :=
  let eol := a.endOfCurrentLine
  if a.cursorPos = eol then
    if eol < byteLen a.text then a.killRange ⟨a.cursorPos, eol + 1⟩ else a
  else a.killRange ⟨a.cursorPos, eol⟩

def vimKillToEndOfLine : EditArea :=
  let eol := a.endOfCurrentLine
  if a.cursorPos < eol then a.killRange ⟨a.cursorPos, eol⟩ else a

def killToBeginningOfLine : EditArea :=
  let bol := a.beginningOfCurrentLine
  if a.cursorPos = bol then if 0 < bol then a.killRange ⟨bol - 1, bol⟩ else a
  else a.killRange ⟨bol, a.cursorPos⟩

def yank : EditArea := if a.killBuffer = [] then a else a.insertStr a.killBuffer

def addElement (element : TextElement) (a : EditArea) : EditArea :=
  { a with elements := sortByKey TextElement.start (a.elements ++ [element]) }

def insertElement : EditArea :=
  let start := a.clampPosForInsertion a.cursorPos
  let stop := start + byteLen str
  ((a.insertStrAt start str).addElement ⟨start, stop⟩).setCursor stop

def clampRange : TextElement :=
  ⟨a.clampPosToCharBoundary (min range.start (byteLen a.text)),
    a.clampPosToCharBoundary (min range.stop (byteLen a.text))⟩

/-- Marks existing text as an element, unless it overlaps one. -/
def addElementRange : EditArea :=
  let new := a.clampRange range
  if new.stop ≤ new.start then a
  else if new ∈ a.elements then a
  else if a.elements.any fun e => new.start < e.stop ∧ e.start < new.stop then a
  else a.addElement new

def removeElementRange : EditArea :=
  let old := a.clampRange range
  if old.stop ≤ old.start then a else { a with elements := a.elements.filter (· ≠ old) }

def textOf (e : TextElement) (a : EditArea) : Option Str :=
  if e.start ≤ e.stop ∧ isCut utf8 a.text e.start ∧ isCut utf8 a.text e.stop then
    some (before utf8 (e.stop - e.start) (behind utf8 e.start a.text))
  else none

def shiftedBeside (start stop inserted : ℕ) (e : TextElement) : TextElement :=
  if inserted = stop - start ∨ e.stop ≤ start then e
  else if stop ≤ e.start then
    ⟨e.start + inserted - (stop - start), e.stop + inserted - (stop - start)⟩
  else ⟨min start e.start, max (start + inserted) (e.stop + inserted - (stop - start))⟩

def replaceElementPayload (old new : Str) (a : EditArea) : EditArea :=
  match a.elements.findIdx? fun e => a.textOf e = some old with
  | none => a
  | some idx =>
    match a.elements[idx]? with
    | none => a
    | some e =>
      if e.stop < e.start ∨ byteLen a.text < e.stop then a
      else
        let replaced := { a with
          text := before utf8 e.start a.text ++ new ++ behind utf8 e.stop a.text
          elements := a.elements.mapIdx fun j f =>
            if j = idx then ⟨e.start, e.start + byteLen new⟩
            else shiftedBeside e.start e.stop (byteLen new) f }
        { replaced with
          cursorPos := replaced.clampPosToNearestBoundary
            (movedCursor e.start e.stop (byteLen new) a.cursorPos)
          elements := sortByKey TextElement.start replaced.elements }

variable (seg : Segmentation) (a : EditArea)

def prevAtomicBoundary (pos : ℕ) : ℕ :=
  if pos = 0 then 0
  else match a.elements.find? fun e => e.start < pos ∧ pos ≤ e.stop with
    | some e => e.start
    | none => match seg.prevBoundary a.text pos with
      | some b => a.adjustPosOutOfElements b true
      | none => 0

def nextAtomicBoundary (pos : ℕ) : ℕ :=
  if byteLen a.text ≤ pos then byteLen a.text
  else match a.elements.find? fun e => e.start ≤ pos ∧ pos < e.stop with
    | some e => e.stop
    | none => match seg.nextBoundary a.text pos with
      | some b => a.adjustPosOutOfElements b false
      | none => byteLen a.text

/-- The pieces of a run: its words, cut where separators begin or end. -/
def splitWordPieces (run : Str) : List Str :=
  (seg.splitWordBounds run).flatMap (·.splitBy fun a b => isWordSeparator a == isWordSeparator b)

def beginningOfPreviousWord : ℕ :=
  let upToWord := (before utf8 a.cursorPos a.text).rdropWhile isWhitespace
  if upToWord = [] then 0
  else
    let beforeRun := upToWord.rdropWhile (!isWhitespace ·)
    let pieces := splitWordPieces seg (upToWord.rtakeWhile (!isWhitespace ·))
    match pieces.getLast? with
    | none => byteLen beforeRun
    | some piece =>
      let kept := if piece.all isWordSeparator then pieces.rdropWhile (·.all isWordSeparator)
        else pieces.dropLast
      a.adjustPosOutOfElements (byteLen beforeRun + byteLen kept.flatten) true

def endOfNextWord : ℕ :=
  let suffix := behind utf8 a.cursorPos a.text
  let fromWord := suffix.dropWhile isWhitespace
  let firstNonWs := a.cursorPos + byteLen (suffix.takeWhile isWhitespace)
  if fromWord = [] then byteLen a.text
  else
    let pieces := splitWordPieces seg (fromWord.takeWhile (!isWhitespace ·))
    match pieces.head? with
    | none => firstNonWs
    | some piece =>
      let passed := if piece.all isWordSeparator then pieces.takeWhile (·.all isWordSeparator)
        else [piece]
      a.adjustPosOutOfElements (firstNonWs + byteLen passed.flatten) false

variable (n : ℕ) (a : EditArea)

def deleteBackward : EditArea :=
  if n = 0 ∨ a.cursorPos = 0 then a
  else a.replaceRange ⟨(a.prevAtomicBoundary seg)^[n] a.cursorPos, a.cursorPos⟩ []

def deleteForward : EditArea :=
  if n = 0 ∨ byteLen a.text ≤ a.cursorPos then a
  else a.replaceRange ⟨a.cursorPos, (a.nextAtomicBoundary seg)^[n] a.cursorPos⟩ []

def deleteForwardKill : EditArea :=
  if n = 0 ∨ byteLen a.text ≤ a.cursorPos then a
  else a.killRange ⟨a.cursorPos, (a.nextAtomicBoundary seg)^[n] a.cursorPos⟩

def deleteBackwardWord : EditArea :=
  a.killRange ⟨a.beginningOfPreviousWord seg, a.cursorPos⟩

def deleteForwardWord : EditArea :=
  let stop := a.endOfNextWord seg
  if a.cursorPos < stop then a.killRange ⟨a.cursorPos, stop⟩ else a

def moveCursorLeft : EditArea :=
  { a with cursorPos := a.prevAtomicBoundary seg a.cursorPos }

def moveCursorRight : EditArea :=
  { a with cursorPos := a.nextAtomicBoundary seg a.cursorPos }

/-- The escape key in the insert mode of Vim. -/
def leaveInsertMode : EditArea :=
  let bol := a.beginningOfCurrentLine
  if bol < a.cursorPos then
    { a with cursorPos := max (a.prevAtomicBoundary seg a.cursorPos) bol }
  else a

end EditArea

/-- The commands that kill text. -/
inductive Kill
  | toEndOfLine
  | vimToEndOfLine
  | toBeginningOfLine
  | currentLine
  | backwardWord
  | forwardWord
  | forward (n : ℕ)
  deriving Repr

variable (seg : Segmentation)

def Kill.apply : Kill → EditArea → EditArea
  | .toEndOfLine => EditArea.killToEndOfLine
  | .vimToEndOfLine => EditArea.vimKillToEndOfLine
  | .toBeginningOfLine => EditArea.killToBeginningOfLine
  | .currentLine => EditArea.killCurrentLine
  | .backwardWord => EditArea.deleteBackwardWord seg
  | .forwardWord => EditArea.deleteForwardWord seg
  | .forward n => EditArea.deleteForwardKill seg n

inductive Edit
  | insertStrAt (pos : ℕ) (str : Str)
  | replaceRange (range : Range) (str : Str)
  | setTextWithElements (text : Str) (elements : List Range)
  | deleteBackward (n : ℕ)
  | deleteForward (n : ℕ)
  | kill (command : Kill)
  | yank
  | setCursor (pos : ℕ)
  | moveCursorLeft
  | moveCursorRight
  | leaveInsertMode
  | insertElement (str : Str)
  | addElementRange (range : Range)
  | removeElementRange (range : Range)
  | replaceElementPayload (old new : Str)

def Edit.apply (a : EditArea) : Edit → EditArea
  | .insertStrAt pos str => a.insertStrAt pos str
  | .replaceRange range str => a.replaceRange range str
  | .setTextWithElements text elements => a.setTextWithElements text elements
  | .deleteBackward n => a.deleteBackward seg n
  | .deleteForward n => a.deleteForward seg n
  | .kill command => command.apply seg a
  | .yank => a.yank
  | .setCursor pos => a.setCursor pos
  | .moveCursorLeft => a.moveCursorLeft seg
  | .moveCursorRight => a.moveCursorRight seg
  | .leaveInsertMode => a.leaveInsertMode seg
  | .insertElement str => a.insertElement str
  | .addElementRange range => a.addElementRange range
  | .removeElementRange range => a.removeElementRange range
  | .replaceElementPayload old new => a.replaceElementPayload old new

end TextEditing
