import CodexTeams.RustStr

/-! The batch parser of the apply-patch format. A hunk, and inside an update hunk a chunk, ends
where the first character of the next line says so. -/
namespace PatchParser

open RustStr

def beginPatchMarker : Str := "*** Begin Patch"
def environmentIdMarker : Str := "*** Environment ID: "
def endPatchMarker : Str := "*** End Patch"
def addFileMarker : Str := "*** Add File: "
def deleteFileMarker : Str := "*** Delete File: "
def updateFileMarker : Str := "*** Update File: "
def moveToMarker : Str := "*** Move to: "
def eofMarker : Str := "*** End of File"
def changeContextMarker : Str := "@@ "
def emptyChangeContextMarker : Str := "@@"

inductive ParseError where
  | invalidPatchError (message : Str)
  | invalidHunkError (message : Str) (lineNumber : ℕ)
  deriving DecidableEq, Repr

structure UpdateFileChunk where
  changeContext : Option Str
  oldLines : List Str
  newLines : List Str
  isEndOfFile : Bool
  deriving DecidableEq, Repr

inductive Hunk where
  | addFile (path contents : Str)
  | deleteFile (path : Str)
  | updateFile (path : Str) (movePath : Option Str) (chunks : List UpdateFileChunk)
  deriving DecidableEq, Repr

structure ApplyPatchArgs where
  patch : Str
  hunks : List Hunk
  workdir : Option Str
  environmentId : Option Str
  deriving DecidableEq, Repr

inductive ParseMode where
  | strict
  | lenient
  deriving Repr

def firstLineError : ParseError :=
  .invalidPatchError "The first line of the patch must be '*** Begin Patch'"

def lastLineError : ParseError :=
  .invalidPatchError "The last line of the patch must be '*** End Patch'"

variable (line : Str)

def invalidHeaderMessage : Str :=
  "'" ++ line ++ "' is not a valid hunk header. Valid hunk headers: " ++
    "'*** Add File: \x7bpath\x7d', '*** Delete File: \x7bpath\x7d', " ++
    "'*** Update File: \x7bpath\x7d'"

def emptyUpdateMessage (path : Str) : Str :=
  "Update file hunk for path '" ++ path ++ "' is empty"

def noLinesMessage : Str := "Update hunk does not contain any lines"

def missingContextMessage : Str :=
  "Expected update hunk to start with a @@ context marker, got: '" ++ line ++ "'"

def unexpectedLineMessage : Str :=
  "Unexpected line found in update hunk: '" ++ line ++
    "'. Every line should start with ' ' (context line), '+' (added line), " ++
    "or '-' (removed line)"

def UpdateFileChunk.empty (changeContext : Option Str) : UpdateFileChunk :=
  ⟨changeContext, [], [], false⟩

/-- One tagged line of a chunk, by its first character; none when the line is not tagged. -/
def UpdateFileChunk.pushLine (chunk : UpdateFileChunk) (line : Str) : Option UpdateFileChunk :=
  match line with
  | [] =>
    some { chunk with oldLines := chunk.oldLines ++ [[]], newLines := chunk.newLines ++ [[]] }
  | c :: text =>
    if c = ' ' then
      some { chunk with
        oldLines := chunk.oldLines ++ [text]
        newLines := chunk.newLines ++ [text] }
    else if c = '+' then some { chunk with newLines := chunk.newLines ++ [text] }
    else if c = '-' then some { chunk with oldLines := chunk.oldLines ++ [text] }
    else none

def tagged : Bool :=
  line.head?.all fun c => c == ' ' || c == '+' || c == '-'

theorem pushLine_isSome (ch : UpdateFileChunk) (line : Str) :
    (ch.pushLine line).isSome = tagged line := by
  cases line with
  | nil => rfl
  | cons c text =>
    simp only [UpdateFileChunk.pushLine, tagged]
    split
    · simp [*]
    · split
      · simp [*]
      · split <;> simp [*]

theorem pushLine_eq_none {ch : UpdateFileChunk} : ch.pushLine l = none ↔ tagged l = false := by
  rw [← pushLine_isSome]
  cases ch.pushLine l <;> simp

variable (lineNumber : ℕ)

def parseChunkLines : ℕ → UpdateFileChunk → List Str → Except ParseError (UpdateFileChunk × ℕ)
  | parsed, chunk, [] => .ok (chunk, parsed)
  | parsed, chunk, line :: rest =>
    if line = eofMarker then
      if parsed = 0 then .error (.invalidHunkError noLinesMessage (lineNumber + 1))
      else .ok ({ chunk with isEndOfFile := true }, parsed + 1)
    else
      match chunk.pushLine line with
      | some chunk' => parseChunkLines (parsed + 1) chunk' rest
      | none =>
        if parsed = 0 then
          .error (.invalidHunkError (unexpectedLineMessage line) (lineNumber + 1))
        else .ok (chunk, parsed)

def chunkStart (first : Str) (lineNumber : ℕ) (allowMissingContext : Bool) :
    Except ParseError (Option Str × ℕ) :=
  if first = emptyChangeContextMarker then .ok (none, 1)
  else
    match stripPrefix first changeContextMarker with
    | some context => .ok (some context, 1)
    | none =>
      if allowMissingContext then .ok (none, 0)
      else .error (.invalidHunkError (missingContextMessage first) lineNumber)

def parseUpdateFileChunk (lines : List Str) (lineNumber : ℕ) (allowMissingContext : Bool) :
    Except ParseError (UpdateFileChunk × ℕ) :=
  match lines with
  | [] => .error (.invalidHunkError noLinesMessage lineNumber)
  | first :: _ =>
    match chunkStart first lineNumber allowMissingContext with
    | .error e => .error e
    | .ok (changeContext, startIndex) =>
      if lines.length ≤ startIndex then
        .error (.invalidHunkError noLinesMessage (lineNumber + 1))
      else
        match parseChunkLines lineNumber 0 (.empty changeContext) (lines.drop startIndex) with
        | .error e => .error e
        | .ok (chunk, parsed) => .ok (chunk, parsed + startIndex)

theorem parseChunkLines_le : ∀ {n c c' n'}, parseChunkLines ln n c ls = .ok (c', n') → n ≤ n' := by
  induction ls with
  | nil => intro n c c' n' h; simp [parseChunkLines] at h; omega
  | cons l ls ih =>
    intro n c c' n' h
    rw [parseChunkLines] at h
    split at h
    · split at h
      · cases h
      · cases h; omega
    · split at h
      · exact Nat.le_of_succ_le (ih h)
      · split at h
        · cases h
        · cases h; exact le_rfl

theorem parseChunkLines_pos (h : parseChunkLines ln 0 c (l :: ls) = .ok (c', n')) : 0 < n' := by
  rw [parseChunkLines] at h
  split at h
  · simp at h
  · split at h
    · exact parseChunkLines_le h
    · simp at h

theorem parseUpdateFileChunk_pos (h : parseUpdateFileChunk ls ln a = .ok (c, n)) : 0 < n := by
  cases ls with
  | nil => cases h
  | cons first r =>
    simp only [parseUpdateFileChunk] at h
    split at h
    · cases h
    · next ctx start _ =>
      split at h
      · cases h
      · next hln =>
        split at h
        · cases h
        · next c' p hp =>
          cases h
          have hne : (first :: r).drop start ≠ [] := by
            simpa using Nat.lt_of_not_le hln
          obtain ⟨l, ls, hl⟩ := List.exists_cons_of_ne_nil hne
          rw [hl] at hp
          have := parseChunkLines_pos hp
          omega

/-- The chunk loop of an update hunk: blank lines are skipped, a star ends the hunk. -/
def parseChunks (parsed : ℕ) (chunks : List UpdateFileChunk)
    (remaining : List Str) : Except ParseError (List UpdateFileChunk × ℕ) :=
  match remaining with
  | [] => .ok (chunks, parsed)
  | line :: rest =>
    if trim line = [] then parseChunks (parsed + 1) chunks rest
    else if line.head? = some '*' then .ok (chunks, parsed)
    else
      match h : parseUpdateFileChunk (line :: rest) (lineNumber + parsed) chunks.isEmpty with
      | .error e => .error e
      | .ok (chunk, chunkLines) =>
        have := parseUpdateFileChunk_pos h
        parseChunks (parsed + chunkLines) (chunks ++ [chunk])
          ((line :: rest).drop chunkLines)
termination_by remaining.length
decreasing_by
  · simp
  · simp only [List.length_drop, List.length_cons]
    omega

theorem parseChunks_star (h : ∀ l ∈ ls.head?, trim l ≠ [] ∧ l.head? = some '*') :
    parseChunks ln p cs ls = .ok (cs, p) := by
  cases ls with
  | nil => rw [parseChunks]
  | cons l r =>
    obtain ⟨hb, hs⟩ := h l rfl
    rw [parseChunks, if_neg hb, if_pos hs]

theorem parseChunks_chunk (hb : trim l ≠ []) (hs : l.head? ≠ some '*')
    (h : parseUpdateFileChunk (l :: r) (ln + p) cs.isEmpty = .ok (chunk, n)) :
    parseChunks ln p cs (l :: r) = parseChunks ln (p + n) (cs ++ [chunk]) ((l :: r).drop n) := by
  rw [parseChunks, if_neg hb, if_neg hs]
  split
  · next he => rw [h] at he; cases he
  · next he => rw [h] at he; cases he; rfl

def parseAddLines : List Str → Str × ℕ
  | ('+' :: text) :: rest =>
    let (contents, parsed) := parseAddLines rest
    (text ++ '\n' :: contents, parsed + 1)
  | _ => ([], 0)

/-- The slice is non-empty at every call, so its first line is a separate argument. -/
def parseOneHunk (first : Str) (rest : List Str) (lineNumber : ℕ) : Except ParseError (Hunk × ℕ) :=
  let firstLine := trim first
  match stripPrefix firstLine addFileMarker with
  | some path =>
    let (contents, parsed) := parseAddLines rest
    .ok (.addFile path contents, 1 + parsed)
  | none =>
    match stripPrefix firstLine deleteFileMarker with
    | some path => .ok (.deleteFile path, 1)
    | none =>
      match stripPrefix firstLine updateFileMarker with
      | some path =>
        let movePath := rest.head?.bind (stripPrefix · moveToMarker)
        let moveLines := if movePath.isSome then 1 else 0
        match parseChunks lineNumber (1 + moveLines) [] (rest.drop moveLines) with
        | .error e => .error e
        | .ok (chunks, parsed) =>
          if chunks.isEmpty then .error (.invalidHunkError (emptyUpdateMessage path) lineNumber)
          else .ok (.updateFile path movePath chunks, parsed)
      | none => .error (.invalidHunkError (invalidHeaderMessage firstLine) lineNumber)

theorem parseChunks_le (h : parseChunks ln p cs ls = .ok r) : p ≤ r.2 := by
  induction p, cs, ls using parseChunks.induct ln with
  | case1 => simp [parseChunks] at h; subst h; exact le_rfl
  | case2 p cs l rs hb ih =>
    rw [parseChunks, if_pos hb] at h
    exact Nat.le_of_succ_le (ih h)
  | case3 p cs l rs hb hs =>
    rw [parseChunks, if_neg hb, if_pos hs] at h
    cases h; exact le_rfl
  | case4 p cs l rs hb hs e he =>
    rw [parseChunks, if_neg hb, if_neg hs] at h
    split at h
    · cases h
    · next he' => rw [he] at he'; cases he'
  | case5 p cs l rs hb hs chunk n he _ ih =>
    rw [parseChunks_chunk hb hs he] at h
    exact le_trans (Nat.le_add_right _ _) (ih h)

theorem parseOneHunk_pos (h : parseOneHunk first rs ln = .ok r) : 0 < r.2 := by
  simp only [parseOneHunk] at h
  split at h
  · cases h; simp only; omega
  · split at h
    · cases h; exact Nat.one_pos
    · split at h
      · split at h
        · cases h
        · next hc =>
          have := parseChunks_le hc
          split at h
          · cases h
          · cases h; simp only at this ⊢; omega
      · cases h

def parseHunks (hunks : List Hunk) (remaining : List Str) (lineNumber : ℕ) :
    Except ParseError (List Hunk) :=
  match remaining with
  | [] => .ok hunks
  | first :: rest =>
    match h : parseOneHunk first rest lineNumber with
    | .error e => .error e
    | .ok (hunk, hunkLines) =>
      have := parseOneHunk_pos h
      parseHunks (hunks ++ [hunk]) ((first :: rest).drop hunkLines) (lineNumber + hunkLines)
termination_by remaining.length
decreasing_by
  simp only [List.length_drop, List.length_cons] at *
  omega

theorem parseHunks_hunk (h : parseOneHunk first r ln = .ok (hunk, n)) :
    parseHunks hunks (first :: r) ln =
      parseHunks (hunks ++ [hunk]) ((first :: r).drop n) (ln + n) := by
  rw [parseHunks]
  split
  · next he => rw [h] at he; cases he
  · next he => rw [h] at he; cases he; rfl

def parseEnvironmentIdPreamble (hunkLines : List Str) :
    Except ParseError (Option Str × List Str × ℕ) :=
  match hunkLines with
  | [] => .ok (none, hunkLines, 2)
  | first :: rest =>
    match stripPrefix (trimStart first) environmentIdMarker with
    | none => .ok (none, hunkLines, 2)
    | some environmentId =>
      if trim environmentId = [] then
        .error (.invalidPatchError "apply_patch environment_id cannot be empty")
      else .ok (some (trim environmentId), rest, 3)

def checkStartAndEndLinesStrict (firstLine lastLine : Option Str) : Except ParseError Unit :=
  match firstLine.map trim, lastLine.map trim with
  | some first, some last =>
    if first = beginPatchMarker ∧ last = endPatchMarker then .ok ()
    else if first ≠ beginPatchMarker then .error firstLineError
    else .error lastLineError
  | some first, none =>
    if first ≠ beginPatchMarker then .error firstLineError else .error lastLineError
  | none, _ => .error lastLineError

def checkPatchBoundariesStrict (lines : List Str) : Except ParseError (List Str × List Str) :=
  match checkStartAndEndLinesStrict lines.head? lines.getLast? with
  | .error e => .error e
  | .ok () => .ok (lines, lines.tail.dropLast)

def checkPatchBoundariesLenient (originalLines : List Str) :
    Except ParseError (List Str × List Str) :=
  match checkPatchBoundariesStrict originalLines with
  | .ok lines => .ok lines
  | .error originalParseError =>
    match originalLines.head?, originalLines.getLast? with
    | some first, some last =>
      if (first = "<<EOF" ∨ first = "<<'EOF'" ∨ first = "<<\"EOF\"") ∧
          "EOF".toList.isSuffixOf last ∧ 4 ≤ originalLines.length then
        checkPatchBoundariesStrict originalLines.tail.dropLast
      else .error originalParseError
    | _, _ => .error originalParseError

def parsePatchText (patch : Str) (mode : ParseMode) : Except ParseError ApplyPatchArgs :=
  let lines := lines (trim patch)
  let boundaries :=
    match mode with
    | .strict => checkPatchBoundariesStrict lines
    | .lenient => checkPatchBoundariesLenient lines
  match boundaries with
  | .error e => .error e
  | .ok (patchLines, hunkLines) =>
    match parseEnvironmentIdPreamble hunkLines with
    | .error e => .error e
    | .ok (environmentId, remaining, lineNumber) =>
      match parseHunks [] remaining lineNumber with
      | .error e => .error e
      | .ok hunks =>
        .ok { patch := ['\n'].intercalate patchLines, hunks, workdir := none, environmentId }

/-- PARSE_IN_STRICT_MODE is false in the source, so every caller parses leniently. -/
def parsePatch (patch : Str) : Except ParseError ApplyPatchArgs :=
  parsePatchText patch .lenient

end PatchParser
