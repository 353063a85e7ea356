import CodexTeams.PatchApply

/-! Applying a patch when file operations fail, and taking it back. A failed write leaves any
content at its path, a failed removal has removed the file or not. When the delta calls itself
exact and no lookup has missed a file, undoing its changes gives back the files of the start. -/
namespace PatchFaults

open RustStr Paths PatchParser PatchApply Function FileMap Applying

/-- The error of a failed operation and what a failed write leaves. A failed removal has removed
the file when nothing is left. -/
structure Fault where
  kind : IoErrorKind
  residue : Option Str

/-- A lookup does not fail by missing a file that is there; for one that is not, missing it is
what happens without a fault. -/
structure LookupFault where
  kind : IoErrorKind
  ne_notFound : kind ≠ .notFound

/-- How the lookups and the other operations to come fail. -/
structure Faults where
  lookups : List (Option LookupFault)
  changes : List (Option Fault)

structure Faulty where
  state : Applying
  faults : Faults

inductive FaultyError
  | apply (error : ApplyError)
  | failedToCreateParents (path : AbsolutePathBuf)
  | failedToWrite (path : AbsolutePathBuf)
  deriving DecidableEq

variable (fs : FileMap)

namespace Faulty

variable (r : Faulty) (path : AbsolutePathBuf)

/-- What a lookup finds, unless it fails. -/
def lookup (found : Except IoErrorKind α) : Except IoErrorKind α × Faulty :=
  match r.faults.lookups with
  | some fault :: rest => (.error fault.kind, ⟨r.state, rest, r.faults.changes⟩)
  | faults => (found, ⟨r.state, faults.tail, r.faults.changes⟩)

def getMetadata : Except IoErrorKind Metadata × Faulty := r.lookup (r.state.fs.getMetadata path)

def readFileText : Except IoErrorKind Str × Faulty := r.lookup (r.state.fs.readFileText path)

def withFiles (fs : FileMap) (changes : List (Option Fault)) : Faulty :=
  ⟨⟨fs, r.state.delta, r.state.affected⟩, r.faults.lookups, changes⟩

def writeFile (content : Str) : Except IoErrorKind Unit × Faulty :=
  match r.faults.changes with
  | some fault :: rest =>
    (.error fault.kind, r.withFiles (update r.state.fs path fault.residue) rest)
  | faults => (.ok (), r.withFiles (r.state.fs.writeFile path content) faults.tail)

/-- Directories are not part of the files. -/
def createDirectory : Except IoErrorKind Unit × Faulty :=
  match r.faults.changes with
  | some fault :: rest => (.error fault.kind, ⟨r.state, r.faults.lookups, rest⟩)
  | faults => (.ok (), ⟨r.state, r.faults.lookups, faults.tail⟩)

def remove : Except IoErrorKind Unit × Faulty :=
  match r.faults.changes with
  | some fault :: rest =>
    (.error fault.kind, r.withFiles (if fault.residue.isNone then update r.state.fs path none
      else r.state.fs) rest)
  | faults =>
    match r.state.fs.remove path with
    | .ok fs => (.ok (), r.withFiles fs faults.tail)
    | .error e => (.error e, r.withFiles r.state.fs faults.tail)

def inexact : Faulty := ⟨r.state.inexact, r.faults⟩

def noteExistingPathDeltaSupport : Faulty :=
  match r.getMetadata path with
  | (.ok metadata, r) => if metadata.isFile && !metadata.isSymlink then r else r.inexact
  | (.error .notFound, r) => r
  | (.error _, r) => r.inexact

def readOptionalFileTextForDelta : Option Str × Faulty :=
  match (r.noteExistingPathDeltaSupport path).readFileText path with
  | (.ok content, r) => (some content, r)
  | (.error .notFound, r) => (none, r)
  | (.error _, r) => (none, r.inexact)

def ensureNotDirectory : Except IoErrorKind Unit × Faulty :=
  match r.getMetadata path with
  | (.ok metadata, r) => (if metadata.isDirectory then .error .invalidInput else .ok (), r)
  | (.error e, r) => (.error e, r)

/-- Reads the file again and clears the exactness unless it holds what it held. -/
def noteRemoveFailure (expectedContent : Option Str) : Faulty :=
  match expectedContent with
  | none => r.inexact
  | some expected =>
    match r.readFileText path with
    | (.ok content, r) => if content = expected then r else r.inexact
    | (.error _, r) => r.inexact

def writeFileWithMissingParentRetry (contents : Str) : Except FaultyError Unit × Faulty :=
  match r.writeFile path contents with
  | (.ok _, r) => (.ok (), r)
  | (.error .notFound, r) =>
    match (if path.parent.isSome then r.createDirectory else (.ok (), r)) with
    | (.error _, r) => (.error (.failedToCreateParents path), r)
    | (.ok _, r) =>
      match r.writeFile path contents with
      | (.ok _, r) => (.ok (), r)
      | (.error _, r) => (.error (.failedToWrite path), r)
  | (.error _, r) => (.error (.failedToWrite path), r)

def commit (change : AppliedPatchFileChange) : Faulty :=
  ⟨r.state.commit r.state.fs path change, r.faults⟩

def withAffected (affected : AffectedPaths) : Faulty :=
  ⟨⟨r.state.fs, r.state.delta, affected⟩, r.faults⟩

variable (name : Str)

def addedPath : Faulty :=
  r.withAffected { r.state.affected with added := r.state.affected.added ++ [name] }

def modifiedPath : Faulty :=
  r.withAffected { r.state.affected with modified := r.state.affected.modified ++ [name] }

def deletedPath : Faulty :=
  r.withAffected { r.state.affected with deleted := r.state.affected.deleted ++ [name] }

/-- The text is derived from what was read, so that only the reading can fail here. -/
def deriveNewContentsFromChunks
    (chunks : List UpdateFileChunk) : Except ApplyError (Str × Str) × Faulty :=
  match r.readFileText path with
  | (.error _, r) => (.error (.failedToRead path), r)
  | (.ok _, r) => (PatchApply.deriveNewContentsFromChunks r.state.fs path chunks, r)

end Faulty

section

variable (r : Faulty) (path : AbsolutePathBuf)

def applyAdd (name contents : Str) : Faulty × Option FaultyError :=
  match r.readOptionalFileTextForDelta path with
  | (overwritten, r) =>
    match r.writeFileWithMissingParentRetry path contents with
    | (.error e, r) => (r.inexact, some e)
    | (.ok _, r) => ((r.commit path (.add contents overwritten)).addedPath name, none)

def commitDelete : Option Str → Faulty
  | some content => r.commit path (.delete content)
  | none => r

def applyDelete (name : Str) : Faulty × Option FaultyError :=
  match (r.noteExistingPathDeltaSupport path).readFileText path with
  | (read, r) =>
    match (if read.toOption.isNone then r.inexact else r).ensureNotDirectory path with
    | (.error _, r) => (r, some (.apply (.failedToDelete path)))
    | (.ok _, r) =>
      match r.remove path with
      | (.error _, r) =>
        (r.noteRemoveFailure path read.toOption, some (.apply (.failedToDelete path)))
      | (.ok _, r) => ((commitDelete r path read.toOption).deletedPath name, none)

/-- The record of the written destination is turned into a move when the original is gone. -/
def applyMove (path dest : AbsolutePathBuf)
    (name originalContents newContents : Str) : Faulty × Option FaultyError :=
  match r.readOptionalFileTextForDelta dest with
  | (overwritten, r) =>
    match r.writeFileWithMissingParentRetry dest newContents with
    | (.error e, r) => (r.inexact, some e)
    | (.ok _, r) =>
      let before := r.state.delta.changes
      match (r.commit dest (.add newContents overwritten)).ensureNotDirectory path with
      | (.error _, r) => (r, some (.apply (.failedToRemoveOriginal path)))
      | (.ok _, r) =>
        match r.remove path with
        | (.error _, r) =>
          (r.noteRemoveFailure path (some originalContents),
            some (.apply (.failedToRemoveOriginal path)))
        | (.ok _, r) =>
          let moved := ⟨path, .update (some dest) originalContents overwritten newContents⟩
          (Faulty.modifiedPath ⟨⟨r.state.fs, ⟨before ++ [moved], r.state.delta.exact⟩,
            r.state.affected⟩, r.faults⟩ name, none)

end

section

variable (env : ProcessEnv) (cwd : AbsolutePathBuf)

def applyUpdate (r : Faulty) (path : AbsolutePathBuf)
    (name : Str) (movePath : Option Str) (chunks : List UpdateFileChunk) :
    Faulty × Option FaultyError :=
  match (r.noteExistingPathDeltaSupport path).deriveNewContentsFromChunks path chunks with
  | (.error e, r) => (r, some (.apply e))
  | (.ok (originalContents, newContents), r) =>
    match movePath with
    | some dest =>
      applyMove r path (AbsolutePathBuf.resolvePathAgainstBase env (.ofStr dest) cwd) dest
        originalContents newContents
    | none =>
      match r.writeFile path newContents with
      | (.error _, r) => (r.inexact, some (.failedToWrite path))
      | (.ok _, r) =>
        ((r.commit path (.update none originalContents none newContents)).modifiedPath name, none)

def applyHunk (r : Faulty) : Hunk → Faulty × Option FaultyError
  | .addFile path contents =>
    applyAdd r (.resolvePathAgainstBase env (.ofStr path) cwd) path contents
  | .deleteFile path => applyDelete r (.resolvePathAgainstBase env (.ofStr path) cwd) path
  | .updateFile path movePath chunks =>
    applyUpdate env cwd r (.resolvePathAgainstBase env (.ofStr path) cwd) path movePath chunks

def applyEach : Faulty → List Hunk → Faulty × Option FaultyError
  | r, [] => (r, none)
  | r, hunk :: rest =>
    match applyHunk env cwd r hunk with
    | (r, some e) => (r, some e)
    | (r, none) => applyEach r rest

def applyHunksToFiles (fs : FileMap) (faults : Faults) (hunks : List Hunk) :
    Faulty × Option FaultyError :=
  if hunks = [] then (⟨.start fs, faults⟩, some (.apply .noFilesModified))
  else applyEach env cwd ⟨.start fs, faults⟩ hunks

end

def undoChange (change : AppliedPatchChange) : FileMap :=
  match change.change with
  | .add _ overwrittenContent => update fs change.path overwrittenContent
  | .delete content => update fs change.path (some content)
  | .update none oldContent _ _ => update fs change.path (some oldContent)
  | .update (some dest) oldContent overwrittenMoveContent _ =>
    update (update fs dest overwrittenMoveContent) change.path (some oldContent)

def undoChanges (changes : List AppliedPatchChange) : FileMap :=
  changes.reverse.foldl undoChange fs

theorem undoChange_of_commits {fs : FileMap} (h : Commits fs change fs') :
    undoChange fs' change = fs := by
  cases h with
  | add pt c =>
    simp [undoChange]
  | delete pt c hp =>
    simp [undoChange, ← hp]
  | update pt old new hp =>
    simp [undoChange, ← hp]
  | move pt d old new hp =>
    -- also when the destination is the path itself
    funext other
    simp only [undoChange, update_apply]
    by_cases ho : other = pt
    · rw [if_pos ho, ho, hp]
    · rw [if_neg ho]
      by_cases hd : other = d
      · rw [if_pos hd, hd]
      · rw [if_neg hd, if_neg ho, if_neg hd]

theorem undoChanges_of_commitsAll {start fs : FileMap} (h : CommitsAll start changes fs) :
    undoChanges fs changes = start := by
  induction h with
  | nil => rfl
  | @snoc fs fs' changes change _ hl ih =>
    rw [undoChanges, List.reverse_append, List.reverse_singleton, List.singleton_append,
      List.foldl_cons, undoChange_of_commits hl]
    exact ih

/-- An exact delta holds everything that happened to the files. -/
def Sound (start : FileMap) (s : Applying) : Prop :=
  s.delta.exact = true → CommitsAll start s.delta.changes s.fs

/-- The files are as before, and the delta is still exact only when something was found out. -/
structure Noted (s s' : Applying) (found : Prop) : Prop where
  fs : s'.fs = s.fs
  changes : s'.delta.changes = s.delta.changes
  exact : s'.delta.exact = true → s.delta.exact = true ∧ found

section Operations

variable {r : Faulty}

theorem Sound.inexact (st : FileMap) (s : Applying) : Sound st s.inexact := by
  intro he
  cases he

theorem Noted.self (h : found) : Noted s s found := ⟨rfl, rfl, fun he => ⟨he, h⟩⟩

theorem Noted.inexact (s : Applying) (found : Prop) : Noted s s.inexact found := ⟨rfl, rfl, nofun⟩

theorem Sound.noted (h : Sound st s) (hn : Noted s s' found) : Sound st s' := by
  intro he
  rw [hn.fs, hn.changes]
  exact h (hn.exact he).1

theorem Sound.commit (h : Sound st s) (hn : Noted s s' found) {fs : FileMap}
    (hr : r.state = ⟨fs, s'.delta, s'.affected⟩) (hc : found → Commits s.fs ⟨p, change⟩ fs) :
    Sound st (r.commit p change).state := by
  rw [Faulty.commit, hr]
  intro he
  obtain ⟨hb, hf⟩ := hn.exact he
  have ha := (h hb).snoc (hc hf)
  rwa [← hn.changes] at ha

theorem Noted.read (hn : Noted s s' found) (hs : r.state = s') (h : found') :
    Noted s r.state found' := by
  rw [hs]
  exact { hn with exact := fun he => ⟨(hn.exact he).1, h⟩ }

theorem Noted.lost (hn : Noted s s' found) (hs : r.state = s') :
    Noted s r.inexact.state found' := by
  rw [Faulty.inexact, hs]
  exact { hn with exact := nofun }

theorem lookup_state (h : r.lookup f = (m, r')) : r'.state = r.state := by
  unfold Faulty.lookup at h
  split at h <;> cases h <;> rfl

theorem readFileText_ok (h : r.readFileText p = (.ok content, r')) :
    r.state.fs p = some content := by
  unfold Faulty.readFileText Faulty.lookup readFileText at h
  split at h
  · cases h
  · cases hp : r.state.fs p with
    | none => simp [hp] at h
    | some text => simp_all

theorem readFileText_notFound (h : r.readFileText p = (.error .notFound, r')) :
    r.state.fs p = none := by
  unfold Faulty.readFileText Faulty.lookup readFileText at h
  split at h
  · rename_i fault _ _
    exact absurd (Except.error.inj (Prod.mk.inj h).1) fault.ne_notFound
  · cases hp : r.state.fs p with
    | none => rfl
    | some text => simp [hp] at h

theorem noteExistingPathDeltaSupport_noted (r : Faulty) (p : AbsolutePathBuf) :
    Noted r.state (r.noteExistingPathDeltaSupport p).state True := by
  unfold Faulty.noteExistingPathDeltaSupport
  split <;> rename_i heq <;> rw [← lookup_state heq]
  · split
    · exact .self trivial
    · exact .inexact _ _
  · exact .self trivial
  · exact .inexact _ _

theorem readOptionalFileTextForDelta_noted (h : r.readOptionalFileTextForDelta p = (o, r')) :
    Noted r.state r'.state (o = r.state.fs p) := by
  have hn := noteExistingPathDeltaSupport_noted r p
  unfold Faulty.readOptionalFileTextForDelta at h
  split at h <;> rename_i heq <;> cases h <;> have hs := lookup_state heq
  · exact hn.read hs (by rw [← hn.fs, readFileText_ok heq])
  · exact hn.read hs (by rw [← hn.fs, readFileText_notFound heq])
  · exact hn.lost hs

theorem writeFile_state (r : Faulty) (p : AbsolutePathBuf) (c : Str) :
    ∃ left, (r.writeFile p c).2.state =
        ⟨update r.state.fs p left, r.state.delta, r.state.affected⟩ ∧
      ((r.writeFile p c).1 = .ok () → left = some c) := by
  unfold Faulty.writeFile
  split
  · rename_i fault rest heq
    exact ⟨fault.residue, rfl, nofun⟩
  · exact ⟨some c, rfl, fun _ => rfl⟩

theorem writeFile_ok (h : r.writeFile p c = (.ok (), r')) : r'.state =
      ⟨update r.state.fs p (some c), r.state.delta, r.state.affected⟩ := by
  obtain ⟨left, hs, hl⟩ := writeFile_state r p c
  rw [h] at hs hl
  rw [hs, hl rfl]

theorem createDirectory_state (h : r.createDirectory = (u, r')) : r'.state = r.state := by
  unfold Faulty.createDirectory at h
  split at h <;> cases h <;> rfl

/-- What a failed first write has left is gone after the second one. -/
theorem writeFileWithMissingParentRetry_ok
    (h : r.writeFileWithMissingParentRetry p c = (.ok (), r')) :
    r'.state = ⟨update r.state.fs p (some c), r.state.delta, r.state.affected⟩ := by
  obtain ⟨left, hf, -⟩ := writeFile_state r p c
  unfold Faulty.writeFileWithMissingParentRetry at h
  split at h
  · rename_i r₁ heq
    cases h
    exact writeFile_ok heq
  · rename_i r₁ heq
    rw [heq] at hf
    split at h
    · cases h
    · rename_i r₂ hp
      have hst : r₂.state = r₁.state := by
        split at hp
        · exact createDirectory_state hp
        · cases hp
          rfl
      split at h
      · rename_i r₃ hs
        cases h
        rw [writeFile_ok hs, hst, hf, update_idem]
      · cases h
  · cases h

theorem ensureNotDirectory_state (h : r.ensureNotDirectory p = (u, r')) : r'.state = r.state := by
  unfold Faulty.ensureNotDirectory at h
  split at h <;> rename_i heq <;> cases h <;> exact lookup_state heq

theorem remove_ok (h : r.remove p = (.ok (), r')) : r'.state =
      ⟨update r.state.fs p none, r.state.delta, r.state.affected⟩ := by
  unfold Faulty.remove remove at h
  split at h
  · cases h
  · split at h
    · rename_i fs hfs
      cases h
      split at hfs
      · cases hfs
        rfl
      · cases hfs
    · cases h

theorem remove_error (h : r.remove p = (.error e, r')) : r'.state = r.state ∨ r'.state =
      ⟨update r.state.fs p none, r.state.delta, r.state.affected⟩ := by
  unfold Faulty.remove at h
  split at h
  · obtain ⟨-, rfl⟩ := Prod.mk.inj h
    split
    · exact .inr rfl
    · exact .inl rfl
  · split at h
    · cases h
    · cases h
      exact .inl rfl

theorem noteRemoveFailure_noted (r : Faulty) (p : AbsolutePathBuf) (e : Option Str) :
    Noted r.state (r.noteRemoveFailure p e).state (r.state.fs p ≠ none) := by
  unfold Faulty.noteRemoveFailure
  split
  · exact .inexact _ _
  · split <;> rename_i heq <;> have hs := lookup_state heq
    · split
      · exact (Noted.self trivial).read hs (by simp [readFileText_ok heq])
      · exact (Noted.self trivial).lost hs
    · exact (Noted.self trivial).lost hs

theorem Sound.removeFailure (h : Sound st r.state) (hr : r.remove p = (.error e, r'))
    (ex : Option Str) : Sound st (r'.noteRemoveFailure p ex).state := by
  have hn := noteRemoveFailure_noted r' p ex
  rcases remove_error hr with hs | hs
  · rw [hs] at hn
    exact h.noted hn
  · intro he
    obtain ⟨-, ht⟩ := hn.exact he
    rw [hs] at ht
    exact absurd (update_self p none r.state.fs) ht

end Operations

theorem sound_applyAdd (h : Sound st r.state) (pt : AbsolutePathBuf)
    (n cs : Str) : Sound st (applyAdd r pt n cs).1.state := by
  unfold applyAdd
  split
  rename_i overwritten r₁ hr
  have hn := readOptionalFileTextForDelta_noted hr
  split
  · exact .inexact st _
  · rename_i r₂ hw
    refine h.commit hn (writeFileWithMissingParentRetry_ok hw) ?_
    rintro rfl
    rw [hn.fs]
    exact .add r.state.fs pt cs

theorem sound_applyDelete (h : Sound st r.state) (pt : AbsolutePathBuf) (n : Str) :
    Sound st (applyDelete r pt n).1.state := by
  have hn := noteExistingPathDeltaSupport_noted r pt
  unfold applyDelete
  split
  rename_i read r₁ hr
  -- what the delta rests on once the file was read
  have hr' : Noted r.state (if read.toOption.isNone then r₁.inexact else r₁).state
      (∃ c, read.toOption = some c ∧ r.state.fs pt = some c) := by
    cases read with
    | error e => exact hn.lost (lookup_state hr)
    | ok c =>
      exact hn.read (lookup_state hr) ⟨c, rfl, by rw [← hn.fs, readFileText_ok hr]⟩
  split <;> rename_i r₂ heq <;> rw [← ensureNotDirectory_state heq] at hr'
  · exact h.noted hr'
  · split
    · rename_i r₃ hrm
      exact (h.noted hr').removeFailure hrm read.toOption
    · rename_i r₃ hrm
      have hrv := remove_ok hrm
      cases hc : read.toOption with
      | none =>
        intro he
        have he' : r₂.state.delta.exact = true := by
          rw [← he]
          simp [commitDelete, hrv, Faulty.deletedPath, Faulty.withAffected]
        obtain ⟨-, c, hs, -⟩ := hr'.exact he'
        rw [hc] at hs
        cases hs
      | some c =>
        refine h.commit hr' hrv ?_
        rintro ⟨c', hs, hp⟩
        rw [hc] at hs
        cases hs
        rw [hr'.fs]
        exact .delete r.state.fs pt c hp

theorem sound_applyMove (h : Sound st r.state) (d : AbsolutePathBuf) (n ncs : Str)
    (hp : r.state.fs pt = some ocs) : Sound st (applyMove r pt d n ocs ncs).1.state := by
  unfold applyMove
  split
  rename_i overwritten r₁ hrd
  have hn := readOptionalFileTextForDelta_noted hrd
  split
  · exact .inexact st _
  · rename_i r₂ hwr
    have hw := writeFileWithMissingParentRetry_ok hwr
    have ha : Sound st (r₂.commit d (.add ncs overwritten)).state := by
      refine h.commit hn hw ?_
      rintro rfl
      rw [hn.fs]
      exact .add r.state.fs d ncs
    split <;> rename_i r₃ heq
    · rwa [ensureNotDirectory_state heq]
    · have hs := ensureNotDirectory_state heq
      rw [← hs] at ha
      split
      · rename_i r₄ hr
        exact ha.removeFailure hr _
      · rename_i r₄ hr
        simp only [remove_ok hr, hs, Faulty.commit, hw]
        refine h.commit (p := pt) (r := ⟨⟨update (update r₁.state.fs d (some ncs)) pt none,
          r₁.state.delta, r₁.state.affected⟩, [], []⟩) hn rfl ?_
        rintro rfl
        rw [hn.fs]
        exact .move r.state.fs pt d ocs ncs hp

theorem sound_applyUpdate (h : Sound st r.state) (pt : AbsolutePathBuf) (n : Str) (mp : Option Str)
    (cs : List UpdateFileChunk) : Sound st (applyUpdate env cwd r pt n mp cs).1.state := by
  have hn := noteExistingPathDeltaSupport_noted r pt
  have hs : ((r.noteExistingPathDeltaSupport pt).deriveNewContentsFromChunks pt
      cs).2.state = (r.noteExistingPathDeltaSupport pt).state := by
    unfold Faulty.deriveNewContentsFromChunks
    split <;> rename_i heq <;> exact lookup_state heq
  unfold applyUpdate
  split <;> rename_i r₁ heq <;> rw [heq] at hs <;> rw [← hs] at hn
  · exact h.noted hn
  · rename_i original new
    have hp : r₁.state.fs pt = some original := by
      unfold Faulty.deriveNewContentsFromChunks at heq
      split at heq
      · cases heq
      · obtain ⟨hd, rfl⟩ := Prod.mk.inj heq
        exact deriveNewContents_original hd
    cases mp with
    | some d => exact sound_applyMove (h.noted hn) _ d new hp
    | none =>
      simp only
      split
      · exact .inexact st _
      · rename_i r₂ hwr
        exact (h.noted hn).commit (.self trivial) (writeFile_ok hwr)
          fun _ => .update r₁.state.fs pt original new hp

theorem sound_applyHunk (h : Sound st r.state) (hunk : Hunk) :
    Sound st (applyHunk env cwd r hunk).1.state := by
  cases hunk with
  | addFile pt contents => exact sound_applyAdd h _ pt contents
  | deleteFile pt => exact sound_applyDelete h _ pt
  | updateFile pt mp chunks => exact sound_applyUpdate h _ pt mp chunks

theorem sound_applyEach (h : Sound st r.state) (hunks : List Hunk) :
    Sound st (applyEach env cwd r hunks).1.state := by
  induction hunks generalizing r with
  | nil => exact h
  | cons hunk rs ih =>
    have hs : Sound st (applyHunk env cwd r hunk).1.state := sound_applyHunk h hunk
    unfold applyEach
    split <;> rename_i heq
    · rwa [heq] at hs
    · rw [heq] at hs
      exact ih hs

/-- Whichever operations fail, an exact delta can be taken back. -/
theorem exact_delta_undoable (env : ProcessEnv) (cwd : AbsolutePathBuf) (fs : FileMap)
    (faults : Faults) (hunks : List Hunk)
    (hexact : (applyHunksToFiles env cwd fs faults hunks).1.state.delta.exact = true) :
    undoChanges (applyHunksToFiles env cwd fs faults hunks).1.state.fs
      (applyHunksToFiles env cwd fs faults hunks).1.state.delta.changes = fs := by
  have hs : Sound fs (.start fs) := fun _ => .nil fs
  have hsn : Sound fs (applyHunksToFiles env cwd fs faults hunks).1.state := by
    unfold applyHunksToFiles
    split
    · exact hs
    · exact sound_applyEach hs hunks
  exact undoChanges_of_commitsAll (hsn hexact)

section Instances

open Sample

def moveOver : List Hunk :=
  [.updateFile "a" (some "b") [⟨none, ["x"], ["y"], false⟩]]

/-- The destination's parent seems to be missing and its file is lost on the way; after the
second write the original is not removed. -/
def unluckyMove : Faults :=
  ⟨[], [some ⟨.notFound, none⟩, none, none, some ⟨.other, some "x\n"⟩]⟩

theorem half_move_undone : (applyHunksToFiles env work files unluckyMove moveOver).2 =
        some (.apply (.failedToRemoveOriginal (file "a"))) ∧
      (applyHunksToFiles env work files unluckyMove moveOver).1.state.delta =
        ⟨[⟨file "b", .add "y\n" (some "old\n")⟩], true⟩ ∧
      undoChanges (applyHunksToFiles env work files unluckyMove moveOver).1.state.fs
        (applyHunksToFiles env work files unluckyMove moveOver).1.state.delta.changes = files := by
  have hd : (applyHunksToFiles env work files unluckyMove moveOver).1.state.delta =
      ⟨[⟨file "b", .add "y\n" (some "old\n")⟩], true⟩ := by decide +kernel
  refine ⟨by decide +kernel, hd, exact_delta_undoable _ _ _ _ _ ?_⟩
  rw [hd]

end Instances

section NoFaults

variable (s : Applying) (p : AbsolutePathBuf)

theorem noteExistingPathDeltaSupport_no_faults :
    Faulty.noteExistingPathDeltaSupport ⟨s, [], []⟩ p = ⟨s, [], []⟩ := by
  unfold Faulty.noteExistingPathDeltaSupport Faulty.getMetadata getMetadata Faulty.lookup
  cases s.fs p <;> rfl

theorem readOptionalFileTextForDelta_no_faults :
    Faulty.readOptionalFileTextForDelta ⟨s, [], []⟩ p = (s.fs p, ⟨s, [], []⟩) := by
  unfold Faulty.readOptionalFileTextForDelta
  rw [noteExistingPathDeltaSupport_no_faults]
  unfold Faulty.readFileText readFileText Faulty.lookup
  cases s.fs p <;> rfl

theorem applyAdd_no_faults (n cs : Str) : applyAdd ⟨s, [], []⟩ p n cs =
      (⟨PatchApply.applyAdd s p n cs, [], []⟩, none) := by
  simp only [applyAdd, readOptionalFileTextForDelta_no_faults, PatchApply.applyAdd,
    PatchApply.readOptionalFileTextForDelta_eq]
  rfl

theorem applyDelete_no_faults (n : Str) :
    applyDelete ⟨s, [], []⟩ p n = (⟨(PatchApply.applyDelete s p n).1, [], []⟩,
      (PatchApply.applyDelete s p n).2.map .apply) := by
  simp only [applyDelete, noteExistingPathDeltaSupport_no_faults, PatchApply.applyDelete,
    Faulty.readFileText, readFileText, Faulty.lookup]
  cases hp : s.fs p with
  | none =>
    simp [Faulty.ensureNotDirectory, Faulty.getMetadata, getMetadata, Faulty.lookup, Faulty.inexact,
      inexact, PatchApply.ensureNotDirectory, Except.toOption, hp]
  | some c =>
    simp [Faulty.ensureNotDirectory, Faulty.getMetadata, getMetadata, Faulty.lookup, Faulty.remove,
      remove, Except.toOption, hp, PatchApply.ensureNotDirectory]
    rfl

theorem applyMove_no_faults (hp : s.fs p = some ocs) (d : AbsolutePathBuf) (n ncs : Str) :
    applyMove ⟨s, [], []⟩ p d n ocs ncs = (⟨(PatchApply.applyMove s p d n ocs ncs).1, [], []⟩,
        (PatchApply.applyMove s p d n ocs ncs).2.map .apply) := by
  obtain ⟨c, hc⟩ := writeFile_of_some hp d ncs
  simp only [applyMove, readOptionalFileTextForDelta_no_faults, PatchApply.applyMove,
    PatchApply.readOptionalFileTextForDelta_eq, if_true, commit, ensureNotDirectory_of_some hc]
  simp [Faulty.writeFileWithMissingParentRetry, Faulty.writeFile, Faulty.ensureNotDirectory,
    Faulty.getMetadata, getMetadata, Faulty.lookup, Faulty.remove, Faulty.commit, commit,
    Faulty.withFiles, hc, remove_of_some]
  rfl

variable (env : ProcessEnv) (cwd : AbsolutePathBuf)

theorem applyUpdate_no_faults (n : Str) (mp : Option Str) (cs : List UpdateFileChunk) :
    applyUpdate env cwd ⟨s, [], []⟩ p n mp cs =
      (⟨(PatchApply.applyUpdate env cwd s p n mp cs).1, [], []⟩,
        (PatchApply.applyUpdate env cwd s p n mp cs).2.map .apply) := by
  have hd : Faulty.deriveNewContentsFromChunks ⟨s, [], []⟩ p cs =
      (PatchApply.deriveNewContentsFromChunks s.fs p cs, ⟨s, [], []⟩) := by
    unfold Faulty.deriveNewContentsFromChunks Faulty.readFileText Faulty.lookup
    cases hp : s.fs p with
    | none => simp [PatchApply.deriveNewContentsFromChunks, readFileText, hp]
    | some c => simp [readFileText, hp]
  simp only [applyUpdate, noteExistingPathDeltaSupport_no_faults, hd, PatchApply.applyUpdate,
    PatchApply.noteExistingPathDeltaSupport_eq_true, if_true]
  cases hc : PatchApply.deriveNewContentsFromChunks s.fs p cs with
  | error e => rfl
  | ok contents =>
    obtain ⟨o, new⟩ := contents
    cases mp with
    | some d =>
      exact applyMove_no_faults s p (deriveNewContents_original hc) _ d new
    | none => rfl

theorem applyEach_no_faults (hunks : List Hunk) :
    applyEach env cwd ⟨s, [], []⟩ hunks = (⟨(PatchApply.applyEach env cwd s hunks).1, [], []⟩,
      (PatchApply.applyEach env cwd s hunks).2.map .apply) := by
  induction hunks generalizing s with
  | nil => rfl
  | cons hunk rs ih =>
    have hs : applyHunk env cwd ⟨s, [], []⟩ hunk =
        (⟨(PatchApply.applyHunk env cwd s hunk).1, [], []⟩,
        (PatchApply.applyHunk env cwd s hunk).2.map .apply) := by
      cases hunk with
      | addFile n contents => exact applyAdd_no_faults s _ n contents
      | deleteFile n => exact applyDelete_no_faults s _ n
      | updateFile n mp chunks =>
        exact applyUpdate_no_faults s _ env cwd n mp chunks
    rw [applyEach, PatchApply.applyEach, hs]
    rcases PatchApply.applyHunk env cwd s hunk with ⟨s', _ | e⟩
    · exact ih s'
    · rfl

theorem applyHunksToFiles_no_faults (fs : FileMap) (hunks : List Hunk) :
    applyHunksToFiles env cwd fs ⟨[], []⟩ hunks =
      (⟨(PatchApply.applyHunksToFiles env cwd fs hunks).1, [], []⟩,
        (PatchApply.applyHunksToFiles env cwd fs hunks).2.map .apply) := by
  unfold applyHunksToFiles PatchApply.applyHunksToFiles
  split
  · rfl
  · exact applyEach_no_faults (.start fs) env cwd hunks

end NoFaults

end PatchFaults
