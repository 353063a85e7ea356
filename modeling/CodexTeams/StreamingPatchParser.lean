import CodexTeams.PatchParser

/-! The streaming parser of the apply-patch format. Characters are fed one by one; every completed
line moves a mode machine. -/
namespace StreamingPatchParser

open RustStr PatchParser

inductive StreamingParserMode where
  | notStarted
  | startedPatch
  | addFile
  | deleteFile
  | updateFile (hunkLineNumber : ℕ)
  | endedPatch
  deriving DecidableEq, Repr

structure StreamingParserState where
  mode : StreamingParserMode
  hunks : List Hunk
  deriving Repr

structure Parser where
  lineBuffer : Str
  state : StreamingParserState
  lineNumber : ℕ
  deriving Repr

def Parser.default : Parser := ⟨[], ⟨.notStarted, []⟩, 0⟩

def isEnvironmentIdPreambleLine (line : Str) : Bool := startsWith line environmentIdMarker

def hasNoLines (chunk : UpdateFileChunk) : Bool :=
  chunk.oldLines.isEmpty && chunk.newLines.isEmpty

variable (s : StreamingParserState) (lineNumber : ℕ)

def ensureUpdateHunkIsNotEmpty (line : Str) : Except ParseError Unit :=
  match s.hunks.getLast? with
  | some (.updateFile path _ []) =>
    match s.mode with
    | .updateFile hunkLineNumber =>
      .error (.invalidHunkError (emptyUpdateMessage path) hunkLineNumber)
    | _ => .ok ()
  | some (.updateFile _ _ chunks) =>
    if chunks.getLast?.any hasNoLines then
      if line = endPatchMarker then .error (.invalidHunkError noLinesMessage lineNumber)
      else .error (.invalidHunkError (unexpectedLineMessage line) lineNumber)
    else .ok ()
  | _ => .ok ()

/-- The state that a header or end line opens, before the check of the hunk it closes. -/
def headerState (trimmed : Str) : Option StreamingParserState :=
  if trimmed = endPatchMarker then some { s with mode := .endedPatch }
  else
    match stripPrefix trimmed addFileMarker with
    | some path => some ⟨.addFile, s.hunks ++ [.addFile path []]⟩
    | none =>
      match stripPrefix trimmed deleteFileMarker with
      | some path => some ⟨.deleteFile, s.hunks ++ [.deleteFile path]⟩
      | none =>
        match stripPrefix trimmed updateFileMarker with
        | some path => some ⟨.updateFile lineNumber, s.hunks ++ [.updateFile path none []]⟩
        | none => none

/-- The result is none for Ok(false), a line that is neither header nor end. -/
def handleHunkHeadersAndEndPatch (trimmed : Str) :
    Except ParseError (Option StreamingParserState) :=
  match headerState s lineNumber trimmed with
  | none => .ok none
  | some s' =>
    match ensureUpdateHunkIsNotEmpty s lineNumber trimmed with
    | .error e => .error e
    | .ok () => .ok (some s')

/-- A line that only a header or the end marker may be. -/
def processHeaderLine (line : Str) : Except ParseError StreamingParserState :=
  match handleHunkHeadersAndEndPatch s lineNumber (trim line) with
  | .error e => .error e
  | .ok (some s') => .ok s'
  | .ok none => .error (.invalidHunkError (invalidHeaderMessage (trim line)) lineNumber)

def processAddLine (line : Str) : Except ParseError StreamingParserState :=
  match handleHunkHeadersAndEndPatch s lineNumber (trim line) with
  | .error e => .error e
  | .ok (some s') => .ok s'
  | .ok none =>
    match stripPrefix line ['+'], s.hunks.getLast? with
    | some lineToAdd, some (.addFile path contents) =>
      .ok { s with hunks := s.hunks.dropLast ++ [.addFile path (contents ++ lineToAdd ++ ['\n'])] }
    | _, _ => .error (.invalidHunkError (invalidHeaderMessage (trim line)) lineNumber)

/-- The chunk list a tagged line is pushed onto; a missing first chunk is opened. -/
def openChunks (chunks : List UpdateFileChunk) : List UpdateFileChunk :=
  if chunks.isEmpty then [.empty none] else chunks

def processChunkLine (line : Str) (movePath : Option Str)
    (chunks : List UpdateFileChunk) : Except ParseError (Option Str × List UpdateFileChunk) :=
  let updateLine := trimEnd line
  match if chunks.isEmpty && movePath.isNone then stripPrefix updateLine moveToMarker else none with
  | some moveToPath => .ok (some moveToPath, chunks)
  | none =>
    if (updateLine = emptyChangeContextMarker ∨ startsWith updateLine changeContextMarker) ∧
        chunks.getLast?.any hasNoLines then
      .error (.invalidHunkError (unexpectedLineMessage line) lineNumber)
    else if updateLine = emptyChangeContextMarker then .ok (movePath, chunks ++ [.empty none])
    else
      match stripPrefix updateLine changeContextMarker with
      | some context => .ok (movePath, chunks ++ [.empty (some context)])
      | none =>
        if updateLine = eofMarker then
          if chunks.getLast?.any hasNoLines then
            .error (.invalidHunkError noLinesMessage lineNumber)
          else
            match chunks.getLast? with
            | some chunk =>
              .ok (movePath, chunks.dropLast ++ [{ chunk with isEndOfFile := true }])
            | none => .ok (movePath, chunks)
        else
          match (openChunks chunks).getLast?.bind (·.pushLine line) with
          | some chunk => .ok (movePath, (openChunks chunks).dropLast ++ [chunk])
          | none =>
            if chunks.getLast?.any (!hasNoLines ·) then
              .error (.invalidHunkError (missingContextMessage line) lineNumber)
            else .error (.invalidHunkError (unexpectedLineMessage line) lineNumber)

def processUpdateLine (lineNumber hunkLineNumber : ℕ) (line : Str) :
    Except ParseError StreamingParserState :=
  match handleHunkHeadersAndEndPatch s lineNumber (trimEnd line) with
  | .error e => .error e
  | .ok (some s') => .ok s'
  | .ok none =>
    match s.hunks.getLast? with
    | some (.updateFile path movePath chunks) =>
      match processChunkLine lineNumber line movePath chunks with
      | .error e => .error e
      | .ok (movePath', chunks') =>
        .ok ⟨.updateFile hunkLineNumber, s.hunks.dropLast ++ [.updateFile path movePath' chunks']⟩
    | _ => .error (.invalidHunkError (unexpectedLineMessage line) lineNumber)

def processLine (line : Str) : Except ParseError StreamingParserState :=
  match s.mode with
  | .notStarted =>
    if trim line = beginPatchMarker then .ok { s with mode := .startedPatch }
    else .error firstLineError
  | .startedPatch =>
    if isEnvironmentIdPreambleLine line then .ok s else processHeaderLine s lineNumber line
  | .addFile => processAddLine s lineNumber line
  | .deleteFile => processHeaderLine s lineNumber line
  | .updateFile hunkLineNumber => processUpdateLine s lineNumber hunkLineNumber line
  | .endedPatch => .ok s

variable (p : Parser)

def pushChar (ch : Char) : Parser × Except ParseError Unit :=
  if ch = '\n' then
    match processLine p.state (p.lineNumber + 1) (stripCr p.lineBuffer) with
    | .error e => (⟨[], p.state, p.lineNumber + 1⟩, .error e)
    | .ok s => (⟨[], s, p.lineNumber + 1⟩, .ok ())
  else ({ p with lineBuffer := p.lineBuffer ++ [ch] }, .ok ())

def pushDelta (p : Parser) : Str → Parser × Except ParseError (List Hunk)
  | [] => (p, .ok p.state.hunks)
  | ch :: rest =>
    match pushChar p ch with
    | (p', .error e) => (p', .error e)
    | (p', .ok ()) => pushDelta p' rest

/-- The line left without a newline; it may be the end marker under any indentation. -/
def finishLine : Except ParseError StreamingParserState :=
  if p.lineBuffer = [] then .ok p.state
  else if trim p.lineBuffer = endPatchMarker then
    match ensureUpdateHunkIsNotEmpty p.state (p.lineNumber + 1) (trim p.lineBuffer) with
    | .error e => .error e
    | .ok () => .ok { p.state with mode := .endedPatch }
  else processLine p.state (p.lineNumber + 1) p.lineBuffer

def finish : Parser × Except ParseError (List Hunk) :=
  let lineNumber := if p.lineBuffer = [] then p.lineNumber else p.lineNumber + 1
  match finishLine p with
  | .error e => (⟨[], p.state, lineNumber⟩, .error e)
  | .ok s =>
    (⟨[], s, lineNumber⟩, if s.mode = .endedPatch then .ok s.hunks else .error lastLineError)

/-- A whole session: every delta is pushed in turn, then the parser is finished. The first
failing call is the result. -/
def stream : Parser → List Str → Except ParseError (List Hunk)
  | p, [] => (finish p).2
  | p, delta :: rest =>
    match pushDelta p delta with
    | (_, .error e) => .error e
    | (p', .ok _) => stream p' rest

theorem pushDelta_append (a b : Str) : pushDelta p (a ++ b) = match pushDelta p a with
      | (p', .error e) => (p', .error e)
      | (p', .ok _) => pushDelta p' b := by
  induction a generalizing p with
  | nil => rfl
  | cons ch a ih =>
    rw [List.cons_append, pushDelta, pushDelta]
    rcases pushChar p ch with ⟨p', e | u⟩
    · rfl
    · exact ih p'

/-- The cut into deltas is invisible: a session depends on the whole text only. -/
theorem stream_eq (ds : List Str) : stream p ds = match pushDelta p ds.flatten with
      | (_, .error e) => .error e
      | (p', .ok _) => (finish p').2 := by
  induction ds generalizing p with
  | nil => rfl
  | cons d r ih =>
    rw [List.flatten_cons, pushDelta_append, stream]
    rcases pushDelta p d with ⟨p', e | hs⟩
    · rfl
    · exact ih p'

end StreamingPatchParser
