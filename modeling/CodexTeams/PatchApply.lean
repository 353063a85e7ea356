import CodexTeams.ComputeReplacements
import CodexTeams.Paths

/-! Applying the hunks of a patch to files. The file system is a map from absolute paths to text,
without links or directories. What was committed is recorded as a delta. -/
namespace PatchApply

open RustStr Paths PatchParser ComputeReplacements Function

abbrev FileMap := AbsolutePathBuf → Option Str

inductive IoErrorKind
  | notFound
  | invalidInput
  | other
  deriving DecidableEq, Repr

structure Metadata where
  isDirectory : Bool
  isFile : Bool
  isSymlink : Bool
  deriving Repr

namespace FileMap

variable (fs : FileMap) (path : AbsolutePathBuf)

def getMetadata : Except IoErrorKind Metadata :=
  match fs path with
  | some _ => .ok ⟨false, true, false⟩
  | none => .error .notFound

def readFileText : Except IoErrorKind Str :=
  match fs path with
  | some content => .ok content
  | none => .error .notFound

/-- Missing parents are made on the way, so that a write always succeeds. -/
def writeFile (content : Str) : FileMap :=
  update fs path (some content)

def remove : Except IoErrorKind FileMap :=
  match fs path with
  | some _ => .ok (update fs path none)
  | none => .error .notFound

end FileMap

inductive AppliedPatchFileChange
  | add (content : Str) (overwrittenContent : Option Str)
  | delete (content : Str)
  | update (movePath : Option AbsolutePathBuf) (oldContent : Str)
      (overwrittenMoveContent : Option Str) (newContent : Str)
  deriving DecidableEq

structure AppliedPatchChange where
  path : AbsolutePathBuf
  change : AppliedPatchFileChange
  deriving DecidableEq

structure AppliedPatchDelta where
  changes : List AppliedPatchChange
  exact : Bool
  deriving DecidableEq

def AppliedPatchDelta.empty : AppliedPatchDelta := ⟨[], true⟩

structure AffectedPaths where
  added : List Str
  modified : List Str
  deleted : List Str
  deriving Repr

inductive ApplyError
  | noFilesModified
  | failedToRead (path : AbsolutePathBuf)
  | patch (error : ApplyPatchError)
  | failedToDelete (path : AbsolutePathBuf)
  | failedToRemoveOriginal (path : AbsolutePathBuf)
  | panicked
  deriving DecidableEq

structure Applying where
  fs : FileMap
  delta : AppliedPatchDelta
  affected : AffectedPaths

variable (fs : FileMap)

def Applying.start : Applying := ⟨fs, .empty, ⟨[], [], []⟩⟩

def Applying.inexact (s : Applying) : Applying :=
  { s with delta := { s.delta with exact := false } }

def Applying.commit (s : Applying) (fs : FileMap) (path : AbsolutePathBuf)
    (change : AppliedPatchFileChange) : Applying :=
  { s with fs := fs, delta := { s.delta with changes := s.delta.changes ++ [⟨path, change⟩] } }

variable (path : AbsolutePathBuf)

/-- Whether a path is missing or a plain file, so that its text says all about it. -/
def noteExistingPathDeltaSupport : Bool :=
  match fs.getMetadata path with
  | .ok metadata => metadata.isFile && !metadata.isSymlink
  | .error .notFound => true
  | .error _ => false

def readOptionalFileTextForDelta : Option Str × Bool :=
  match fs.readFileText path with
  | .ok content => (some content, noteExistingPathDeltaSupport fs path)
  | .error .notFound => (none, noteExistingPathDeltaSupport fs path)
  | .error _ => (none, false)

def ensureNotDirectory : Except IoErrorKind Unit :=
  match fs.getMetadata path with
  | .ok metadata => if metadata.isDirectory then .error .invalidInput else .ok ()
  | .error e => .error e

def removeFailureWasSideEffectFree (expectedContent : Option Str) : Bool :=
  match expectedContent, fs.readFileText path with
  | some expected, .ok content => content == expected
  | _, _ => false

def splitNewline (text : Str) : List Str :=
  let split := splitLines [] text
  split.1 ++ [split.2]

def deriveNewContentsFromChunks (chunks : List UpdateFileChunk) : Except ApplyError (Str × Str) :=
  match fs.readFileText path with
  | .error _ => .error (.failedToRead path)
  | .ok originalContents =>
    let originalLines := withoutFinalEmpty (splitNewline originalContents)
    match computeReplacements originalLines path.display chunks with
    | .error e => .error (.patch e)
    | .ok replacements =>
      match applyReplacements originalLines replacements with
      | none => .error .panicked
      | some newLines =>
        let newLines := if newLines.getLast? = some [] then newLines else newLines ++ [[]]
        .ok (originalContents, List.intercalate "\n" newLines)

def applyAdd (s : Applying) (path : AbsolutePathBuf) (name contents : Str) : Applying :=
  let (overwritten, supported) := readOptionalFileTextForDelta s.fs path
  let s := if supported then s else s.inexact
  let s := s.commit (s.fs.writeFile path contents) path (.add contents overwritten)
  { s with affected := { s.affected with added := s.affected.added ++ [name] } }

def applyDelete (s : Applying) (path : AbsolutePathBuf) (name : Str) :
    Applying × Option ApplyError :=
  let s := if noteExistingPathDeltaSupport s.fs path then s else s.inexact
  let deletedContent := (s.fs.readFileText path).toOption
  let s := if deletedContent.isNone then s.inexact else s
  match ensureNotDirectory s.fs path with
  | .error _ => (s, some (.failedToDelete path))
  | .ok _ =>
    match s.fs.remove path with
    | .error _ =>
      (if removeFailureWasSideEffectFree s.fs path deletedContent then s else s.inexact,
        some (.failedToDelete path))
    | .ok fs =>
      let s := match deletedContent with
        | some content => s.commit fs path (.delete content)
        | none => { s with fs := fs }
      ({ s with affected := { s.affected with deleted := s.affected.deleted ++ [name] } }, none)

/-- The destination is written and recorded first; when the original is gone, the record is
turned into a move. -/
def applyMove (s : Applying) (path dest : AbsolutePathBuf)
    (name originalContents newContents : Str) : Applying × Option ApplyError :=
  let (overwritten, supported) := readOptionalFileTextForDelta s.fs dest
  let s := if supported then s else s.inexact
  let before := s
  let s := s.commit (s.fs.writeFile dest newContents) dest (.add newContents overwritten)
  match ensureNotDirectory s.fs path with
  | .error _ => (s, some (.failedToRemoveOriginal path))
  | .ok _ =>
    match s.fs.remove path with
    | .error _ =>
      (if removeFailureWasSideEffectFree s.fs path (some originalContents) then s else s.inexact,
        some (.failedToRemoveOriginal path))
    | .ok fs =>
      let s := before.commit fs path (.update (some dest) originalContents overwritten newContents)
      ({ s with affected := { s.affected with modified := s.affected.modified ++ [name] } }, none)

section

variable (env : ProcessEnv) (cwd : AbsolutePathBuf)

def applyUpdate (s : Applying) (path : AbsolutePathBuf)
    (name : Str) (movePath : Option Str) (chunks : List UpdateFileChunk) :
    Applying × Option ApplyError :=
  let s := if noteExistingPathDeltaSupport s.fs path then s else s.inexact
  match deriveNewContentsFromChunks s.fs path chunks with
  | .error e => (s, some e)
  | .ok (originalContents, newContents) =>
    match movePath with
    | some dest =>
      applyMove s path (AbsolutePathBuf.resolvePathAgainstBase env (.ofStr dest) cwd) dest
        originalContents newContents
    | none =>
      let s := s.commit (s.fs.writeFile path newContents) path
        (.update none originalContents none newContents)
      ({ s with affected := { s.affected with modified := s.affected.modified ++ [name] } }, none)

def applyHunk (s : Applying) : Hunk → Applying × Option ApplyError
  | .addFile path contents =>
    (applyAdd s (.resolvePathAgainstBase env (.ofStr path) cwd) path contents, none)
  | .deleteFile path => applyDelete s (.resolvePathAgainstBase env (.ofStr path) cwd) path
  | .updateFile path movePath chunks =>
    applyUpdate env cwd s (.resolvePathAgainstBase env (.ofStr path) cwd) path movePath chunks

def applyEach : Applying → List Hunk → Applying × Option ApplyError
  | s, [] => (s, none)
  | s, hunk :: rest =>
    match applyHunk env cwd s hunk with
    | (s, some e) => (s, some e)
    | (s, none) => applyEach s rest

def applyHunksToFiles (fs : FileMap) (hunks : List Hunk) : Applying × Option ApplyError :=
  if hunks = [] then (.start fs, some .noFilesModified) else applyEach env cwd (.start fs) hunks

end

/-- What a recorded change says about the files before and after it. -/
inductive Commits : FileMap → AppliedPatchChange → FileMap → Prop
  | add (fs : FileMap) (path : AbsolutePathBuf) (content : Str) :
      Commits fs ⟨path, .add content (fs path)⟩ (update fs path (some content))
  | delete (fs : FileMap) (path : AbsolutePathBuf) (content : Str) (h : fs path = some content) :
      Commits fs ⟨path, .delete content⟩ (update fs path none)
  | update (fs : FileMap) (path : AbsolutePathBuf) (old new : Str) (h : fs path = some old) :
      Commits fs ⟨path, .update none old none new⟩ (update fs path (some new))
  | move (fs : FileMap) (path dest : AbsolutePathBuf) (old new : Str) (h : fs path = some old) :
      Commits fs ⟨path, .update (some dest) old (fs dest) new⟩
        (update (update fs dest (some new)) path none)

inductive CommitsAll : FileMap → List AppliedPatchChange → FileMap → Prop
  | nil (fs : FileMap) : CommitsAll fs [] fs
  | snoc {fs fs' fs'' : FileMap} {changes : List AppliedPatchChange}
      {change : AppliedPatchChange} (h : CommitsAll fs changes fs')
      (hlast : Commits fs' change fs'') : CommitsAll fs (changes ++ [change]) fs''

/-- The delta accounts for everything that happened to the files since the start. -/
structure Accounted (start : FileMap) (s : Applying) : Prop where
  commits : CommitsAll start s.delta.changes s.fs

section Steps

@[simp] theorem noteExistingPathDeltaSupport_eq_true (fs : FileMap) (p : AbsolutePathBuf) :
    noteExistingPathDeltaSupport fs p = true := by
  unfold noteExistingPathDeltaSupport FileMap.getMetadata
  cases fs p <;> rfl

@[simp] theorem readOptionalFileTextForDelta_eq (fs : FileMap) (p : AbsolutePathBuf) :
    readOptionalFileTextForDelta fs p = (fs p, true) := by
  unfold readOptionalFileTextForDelta FileMap.readFileText
  cases hp : fs p <;> simp

variable {fs : FileMap}

theorem ensureNotDirectory_of_some (h : fs p = some c) : ensureNotDirectory fs p = .ok () := by
  simp [ensureNotDirectory, FileMap.getMetadata, h]

theorem remove_of_some (h : fs p = some c) : fs.remove p = .ok (update fs p none) := by
  simp [FileMap.remove, h]

theorem Accounted.commit (h : Accounted st s) (hc : Commits s.fs ⟨p, change⟩ fs) :
    Accounted st (s.commit fs p change) := ⟨h.commits.snoc hc⟩

theorem accounted_applyAdd (h : Accounted st s) (p : AbsolutePathBuf)
    (n cs : Str) : Accounted st (applyAdd s p n cs) := by
  simp only [applyAdd, readOptionalFileTextForDelta_eq]
  exact ⟨(h.commit (Commits.add s.fs p cs)).commits⟩

theorem accounted_applyDelete (h : Accounted st s) (p : AbsolutePathBuf) (n : Str) :
    Accounted st (applyDelete s p n).1 := by
  simp only [applyDelete, noteExistingPathDeltaSupport_eq_true, if_true]
  cases hp : s.fs p with
  | none =>
    have hr : (s.fs.readFileText p).toOption = none := by
      simp [FileMap.readFileText, hp, Except.toOption]
    have he : ensureNotDirectory s.inexact.fs p = .error .notFound := by
      simp [ensureNotDirectory, FileMap.getMetadata, Applying.inexact, hp]
    simp only [hr, Option.isNone_none, if_true, he]
    exact ⟨h.commits⟩
  | some content =>
    have hr : (s.fs.readFileText p).toOption = some content := by
      simp [FileMap.readFileText, hp, Except.toOption]
    simp only [hr, Option.isNone_some, Bool.false_eq_true, if_false,
      ensureNotDirectory_of_some hp, remove_of_some hp]
    exact ⟨(h.commit (Commits.delete s.fs p content hp)).commits⟩

theorem writeFile_of_some (h : fs p = some c) (d : AbsolutePathBuf) (ncs : Str) :
    ∃ c', fs.writeFile d ncs p = some c' := by
  unfold FileMap.writeFile
  by_cases hs : p = d
  · exact ⟨ncs, by rw [hs, update_self]⟩
  · exact ⟨c, by rw [update_of_ne hs, h]⟩

theorem accounted_applyMove (h : Accounted st s) (d : AbsolutePathBuf) (n ncs : Str)
    (hp : s.fs p = some ocs) : Accounted st (applyMove s p d n ocs ncs).1 := by
  obtain ⟨c, hc⟩ := writeFile_of_some hp d ncs
  simp only [applyMove, readOptionalFileTextForDelta_eq, if_true, Applying.commit,
    ensureNotDirectory_of_some hc, remove_of_some hc]
  exact ⟨(h.commit (Commits.move s.fs p d ocs ncs hp)).commits⟩

theorem deriveNewContents_original (h : deriveNewContentsFromChunks fs p cs = .ok (original, new)) :
    fs p = some original := by
  unfold deriveNewContentsFromChunks FileMap.readFileText at h
  cases hp : fs p with
  | none => simp [hp] at h
  | some c =>
    simp only [hp] at h
    split at h
    · cases h
    · split at h
      · cases h
      · cases h
        rfl

theorem accounted_applyUpdate (h : Accounted st s) (p : AbsolutePathBuf) (n : Str) (mp : Option Str)
    (cs : List UpdateFileChunk) : Accounted st (applyUpdate env cwd s p n mp cs).1 := by
  simp only [applyUpdate, noteExistingPathDeltaSupport_eq_true, if_true]
  cases hd : deriveNewContentsFromChunks s.fs p cs with
  | error e => exact h
  | ok contents =>
    obtain ⟨o, new⟩ := contents
    have hp := deriveNewContents_original hd
    cases mp with
    | some d => exact accounted_applyMove h _ d new hp
    | none => exact ⟨(h.commit (Commits.update s.fs p o new hp)).commits⟩

theorem accounted_applyHunk (h : Accounted st s) (hunk : Hunk) :
    Accounted st (applyHunk env cwd s hunk).1 := by
  cases hunk with
  | addFile p contents => exact accounted_applyAdd h _ p contents
  | deleteFile p => exact accounted_applyDelete h _ p
  | updateFile p mp chunks => exact accounted_applyUpdate h _ p mp chunks

theorem accounted_applyEach (h : Accounted st s) (hunks : List Hunk) :
    Accounted st (applyEach env cwd s hunks).1 := by
  induction hunks generalizing s with
  | nil => exact h
  | cons hunk r ih =>
    have hs : Accounted st (applyHunk env cwd s hunk).1 := accounted_applyHunk h hunk
    unfold applyEach
    split
    · rename_i s' e heq
      rwa [heq] at hs
    · rename_i s' heq
      rw [heq] at hs
      exact ih hs

/-- The delta is an account of the files, whether or not all hunks could be applied. -/
theorem accounted_applyHunksToFiles (env : ProcessEnv) (cwd : AbsolutePathBuf) (fs : FileMap)
    (hunks : List Hunk) : Accounted fs (applyHunksToFiles env cwd fs hunks).1 := by
  have hs : Accounted fs (.start fs) := ⟨.nil fs⟩
  unfold applyHunksToFiles
  split
  · exact hs
  · exact accounted_applyEach hs hunks

end Steps

/-! Two files of a working directory. -/
namespace Sample

def env : ProcessEnv := ⟨none, none⟩

def work : AbsolutePathBuf := .ofParts ["w"]

def file (name : String) : AbsolutePathBuf := .join env work (.ofStr name.toList)

def files : FileMap :=
  update (update (fun _ => none) (file "a") (some "x\n")) (file "b") (some "old\n")

end Sample

end PatchApply
