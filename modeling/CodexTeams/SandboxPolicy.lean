import CodexTeams.Paths
import CodexTeams.RustIter
import Mathlib.Data.Prod.Lex

/-! File system sandbox policies. The most specific entry decides. The metadata directories right
below a writable entry stay protected unless an entry opens them. The host is a file system without
links. -/
namespace SandboxPolicy

open RustStr RustIter Paths

inductive FileSystemAccessMode
  | read
  | write
  | deny
  deriving DecidableEq, Repr

namespace FileSystemAccessMode

/-- Of two entries for one path, deny beats write and write beats read. -/
def precedence : FileSystemAccessMode → ℕ
  | .read => 0
  | .write => 1
  | .deny => 2

theorem precedence_injective : Function.Injective precedence := by
  intro a b h
  cases a <;> cases b <;> first | rfl | cases h

instance linearOrder : LinearOrder FileSystemAccessMode :=
  LinearOrder.lift' precedence precedence_injective

def canRead : FileSystemAccessMode → Bool
  | .deny => false
  | _ => true

def canWrite : FileSystemAccessMode → Bool
  | .write => true
  | _ => false

end FileSystemAccessMode

inductive FileSystemSpecialPath
  | root
  | minimal
  | projectRoots (subpath : Option UnixPath)
  | tmpdir
  | slashTmp
  | unknown (path : Str) (subpath : Option UnixPath)
  deriving DecidableEq

inductive FileSystemPath
  | path (path : AbsolutePathBuf)
  | globPattern (pattern : Str)
  | special (value : FileSystemSpecialPath)
  deriving DecidableEq

structure FileSystemSandboxEntry where
  path : FileSystemPath
  access : FileSystemAccessMode
  deriving DecidableEq

inductive FileSystemSandboxKind
  | restricted
  | unrestricted
  | externalSandbox
  deriving DecidableEq, Repr

structure FileSystemSandboxPolicy where
  kind : FileSystemSandboxKind
  entries : List FileSystemSandboxEntry

structure ResolvedFileSystemEntry where
  path : AbsolutePathBuf
  access : FileSystemAccessMode

structure WritableRoot where
  root : AbsolutePathBuf
  readOnlySubpaths : List AbsolutePathBuf
  protectedMetadataNames : List Str

def protectedMetadataPathNames : List Str := [".git", ".agents", ".codex"]

/-- What is at a path; a file may not be readable as text. -/
inductive Node
  | directory
  | file (contents : Option Str)
  deriving DecidableEq, Repr

structure HostEnv extends ProcessEnv where
  tmpdir : Option Str
  node : AbsolutePathBuf → Option Node

namespace HostEnv

variable (env : HostEnv) (path : AbsolutePathBuf)

def isDir : Bool := env.node path == some .directory

def isFile : Bool :=
  match env.node path with
  | some (.file _) => true
  | _ => false

def readToString : Option Str :=
  match env.node path with
  | some (.file contents) => contents
  | _ => none

/-- Without links, what exists is its own canonical path. -/
def canonicalize : Option AbsolutePathBuf :=
  (env.node path).map fun _ => path

end HostEnv

variable (w : WritableRoot) (path : UnixPath)

def WritableRoot.pathContainsProtectedMetadataName : Bool :=
  match w.root.names.isPrefixOf? path.parts with
  | some (firstComponent :: _) => path.absolute && w.protectedMetadataNames.contains firstComponent
  | _ => false

def UnixPath.startsWith (base : AbsolutePathBuf) : Bool :=
  path.absolute && base.names.isPrefixOf path.parts

def WritableRoot.isPathWritable : Bool :=
  if !UnixPath.startsWith path w.root then false
  else if w.readOnlySubpaths.any fun subpath => UnixPath.startsWith path subpath then false
  else !w.pathContainsProtectedMetadataName path

def specialPathsShareTarget : FileSystemSpecialPath → FileSystemSpecialPath → Bool
  | .root, .root | .minimal, .minimal | .tmpdir, .tmpdir | .slashTmp, .slashTmp => true
  | .projectRoots left, .projectRoots right => left == right
  | .unknown left leftSubpath, .unknown right rightSubpath =>
    left == right && leftSubpath == rightSubpath
  | _, _ => false

def specialPathMatchesAbsolutePath (value : FileSystemSpecialPath) (path : AbsolutePathBuf) :
    Bool :=
  match value with
  | .root => path.parent.isNone
  | .slashTmp => path.names == ["tmp".toList]
  | _ => false

def fileSystemPathsShareTarget : FileSystemPath → FileSystemPath → Bool
  | .path left, .path right => left == right
  | .special left, .special right => specialPathsShareTarget left right
  | .path path, .special value | .special value, .path path =>
    specialPathMatchesAbsolutePath value path
  | .globPattern left, .globPattern right => left == right
  | .globPattern _, _ | _, .globPattern _ => false

namespace FileSystemSandboxPolicy

variable (policy : FileSystemSandboxPolicy)

def hasRootAccess (predicate : FileSystemAccessMode → Bool) : Bool :=
  policy.kind == .restricted && policy.entries.any fun entry =>
    entry.path == .special .root && predicate entry.access

def hasSameTargetWriteOverride (entry : FileSystemSandboxEntry) : Bool :=
  policy.entries.any fun candidate =>
    candidate.access.canWrite && candidate.access > entry.access &&
      fileSystemPathsShareTarget candidate.path entry.path

/-- An entry that really takes something away from write access to the root. -/
def hasWriteNarrowingEntries : Bool :=
  policy.kind == .restricted && policy.entries.any fun entry =>
    if entry.access.canWrite then false else
      match entry.path with
      | .path _ => !policy.hasSameTargetWriteOverride entry
      | .globPattern _ => true
      | .special .root => entry.access == .deny
      | .special .minimal | .special (.unknown _ _) => false
      | .special _ => !policy.hasSameTargetWriteOverride entry

def hasFullDiskWriteAccess : Bool :=
  match policy.kind with
  | .unrestricted | .externalSandbox => true
  | .restricted =>
    policy.hasRootAccess FileSystemAccessMode.canWrite && !policy.hasWriteNarrowingEntries

end FileSystemSandboxPolicy

section Resolution

variable (env : HostEnv)

def resolveFileSystemSpecialPath (value : FileSystemSpecialPath) (cwd : Option AbsolutePathBuf) :
    Option AbsolutePathBuf :=
  match value with
  | .root | .minimal | .unknown _ _ => none
  | .projectRoots subpath =>
    cwd.map fun cwd =>
      match subpath with
      | some subpath => .resolvePathAgainstBase env.toProcessEnv subpath cwd
      | none => cwd
  | .tmpdir =>
    match env.tmpdir with
    | none => none
    | some tmpdir =>
      if tmpdir = [] then none
      else AbsolutePathBuf.fromAbsolutePath env.toProcessEnv (.ofStr tmpdir)
  | .slashTmp =>
    let slashTmp := AbsolutePathBuf.ofParts ["tmp"]
    if env.isDir slashTmp then some slashTmp else none

def resolveEntryPath (path : FileSystemPath) (cwd : Option AbsolutePathBuf) :
    Option AbsolutePathBuf :=
  match path with
  | .special .root => cwd.map fun _ => .ofParts []
  | .path path => some path
  | .globPattern _ => none
  | .special value => resolveFileSystemSpecialPath env value cwd

variable (policy : FileSystemSandboxPolicy) (cwd : UnixPath)

def resolvedEntriesWithCwd : List ResolvedFileSystemEntry :=
  let cwdAbsolute := AbsolutePathBuf.fromAbsolutePath env.toProcessEnv cwd
  policy.entries.filterMap fun entry =>
    (resolveEntryPath env entry.path cwdAbsolute).map fun path => ⟨path, entry.access⟩

def resolveCandidatePath (path cwd : UnixPath) : Option AbsolutePathBuf :=
  if path.absolute then AbsolutePathBuf.fromAbsolutePath env.toProcessEnv path
  else (AbsolutePathBuf.fromAbsolutePath env.toProcessEnv cwd).map fun cwd =>
    cwd.join env.toProcessEnv path

def resolvedEntryPrecedence (entry : ResolvedFileSystemEntry) : ℕ ×ₗ FileSystemAccessMode :=
  toLex (entry.path.names.length + 1, entry.access)

variable (entries : List ResolvedFileSystemEntry) (path : AbsolutePathBuf)

/-- The access the most specific entry gives to a path. -/
def accessAt : FileSystemAccessMode :=
  match maxByKey resolvedEntryPrecedence
      (entries.filter fun entry => path.startsWith entry.path) with
  | some entry => entry.access
  | none => .deny

def resolveAccessWithCwd (path cwd : UnixPath) : FileSystemAccessMode :=
  match policy.kind with
  | .unrestricted | .externalSandbox => .write
  | .restricted =>
    match resolveCandidatePath env path cwd with
    | none => .deny
    | some path => accessAt (resolvedEntriesWithCwd env policy cwd) path

def joinName (name : Str) : AbsolutePathBuf :=
  path.join env.toProcessEnv (.ofStr name)

variable (target : AbsolutePathBuf)

/-- The metadata directory right below a writable entry that the path is in. -/
def metadataChildOf (entry : ResolvedFileSystemEntry) : Option (AbsolutePathBuf × Str) :=
  match target.stripPrefix entry.path with
  | some (firstComponent :: _) =>
    if protectedMetadataPathNames.contains firstComponent then
      some (joinName env entry.path firstComponent, firstComponent)
    else none
  | _ => none

/-- The first writable entry with a metadata directory over the path counts. -/
def metadataChildOfWritableRoot : Option (AbsolutePathBuf × Str) :=
  (entries.filter fun entry => entry.access.canWrite).findSome? (metadataChildOf env target)

def hasExplicitWriteEntryForMetadataPath (protectedMetadataPath target : AbsolutePathBuf) : Bool :=
  entries.any fun entry =>
    entry.access.canWrite && target.startsWith entry.path &&
      entry.path.startsWith protectedMetadataPath

def metadataDeniedAt : Bool :=
  match metadataChildOfWritableRoot env entries target with
  | none => false
  | some (protectedMetadataPath, _) =>
    !hasExplicitWriteEntryForMetadataPath entries protectedMetadataPath target

def isMetadataWriteDenied (path cwd : UnixPath) : Bool :=
  if policy.kind ≠ .restricted then false else
    match resolveCandidatePath env path cwd with
    | none => true
    | some target => metadataDeniedAt env (resolvedEntriesWithCwd env policy cwd) target

def canWritePathWithCwd (path cwd : UnixPath) : Bool :=
  if !(resolveAccessWithCwd env policy path cwd).canWrite then false
  else if policy.hasFullDiskWriteAccess then true
  else !isMetadataWriteDenied env policy path cwd

def splitOnceColon (text : Str) : Option (Str × Str) :=
  if ':' ∈ text then some (text.takeWhile (· ≠ ':'), (text.dropWhile (· ≠ ':')).tail) else none

def isGitPointerFile : Bool :=
  env.isFile path && path.fileName == some ".git".toList

/-- The directory a `.git` file points to, taken from the directory the file is in. -/
def resolveGitdirFromFile (dotGit : AbsolutePathBuf) : Option AbsolutePathBuf := do
  let contents ← env.readToString dotGit
  let (key, gitdirRaw) ← splitOnceColon (trim contents)
  if trim key ≠ "gitdir" then none
  else if trim gitdirRaw = [] then none
  else
    let base ← dotGit.parent
    let gitdirPath :=
      AbsolutePathBuf.resolvePathAgainstBase env.toProcessEnv (.ofStr (trim gitdirRaw)) base
    if (env.node gitdirPath).isSome then some gitdirPath else none

def defaultReadOnlySubpathsForWritableRoot (writableRoot : AbsolutePathBuf)
    (protectMissingDotCodex : Bool) : List AbsolutePathBuf :=
  let topLevelGit := joinName env writableRoot ".git"
  let topLevelAgents := joinName env writableRoot ".agents"
  let topLevelCodex := joinName env writableRoot ".codex"
  let gitSubpaths :=
    if env.isDir topLevelGit || env.isFile topLevelGit then
      (if env.isFile topLevelGit && isGitPointerFile env topLevelGit then
        (resolveGitdirFromFile env topLevelGit).toList else []) ++ [topLevelGit]
    else []
  dedupFrom [] (gitSubpaths ++
    (if env.isDir topLevelAgents then [topLevelAgents] else []) ++
    (if protectMissingDotCodex || env.isDir topLevelCodex then [topLevelCodex] else []))

/-- The nearest existing ancestor made canonical, with the rest of the path behind it. -/
def normalizeEffectiveAbsolutePath : AbsolutePathBuf :=
  (path.ancestors.findSome? fun ancestor => do
    let normalizedAncestor ← env.canonicalize ancestor
    let suffix ← path.stripPrefix ancestor
    AbsolutePathBuf.fromAbsolutePath env.toProcessEnv
      (normalizedAncestor.asPath.join ⟨false, suffix⟩)).getD path

def dedupAbsolutePaths (paths : List AbsolutePathBuf) (normalizeEffectivePaths : Bool) :
    List AbsolutePathBuf :=
  dedupFrom [] (if normalizeEffectivePaths then paths.map (normalizeEffectiveAbsolutePath env)
    else paths)

variable (root : AbsolutePathBuf) (rawWritableRoots : List AbsolutePathBuf)

def protectedMetadataNamesForWritableRoot (cwd : UnixPath) : List Str :=
  protectedMetadataPathNames.filter fun metadataName =>
    (joinName env root metadataName ::
        rawWritableRoots.map fun rawRoot => joinName env rawRoot metadataName).all fun path =>
      !canWritePathWithCwd env policy path.asPath cwd

/-- The path below the root that an entry below a spelling of the root stands for. -/
def carveoutBelow (root entry rawRoot : AbsolutePathBuf) : Option AbsolutePathBuf :=
  match entry.stripPrefix rawRoot with
  | none | some [] => none
  | some suffix => some (root.join env.toProcessEnv ⟨false, suffix⟩)

/-- The path a non-writable entry takes out of a writable root, if it is below the root. -/
def carveout (entry : AbsolutePathBuf) : Option AbsolutePathBuf :=
  let effectivePath := normalizeEffectiveAbsolutePath env entry
  let rawCarveoutPath :=
    if root.parent.isNone then none
    else if entry = root then none
    else if entry.startsWith root then some entry
    else rawWritableRoots.findSome? (carveoutBelow env root entry)
  match rawCarveoutPath with
  | some path => some path
  | none =>
    if effectivePath = root || !effectivePath.startsWith root then none else some effectivePath

def writableRootFor
    (writableEntries : List AbsolutePathBuf) (root : AbsolutePathBuf) : WritableRoot :=
  let resolvedEntries := resolvedEntriesWithCwd env policy cwd
  let rawWritableRoots :=
    writableEntries.filter fun path => normalizeEffectiveAbsolutePath env path = root
  let protectMissingDotCodex :=
    (AbsolutePathBuf.fromAbsolutePath env.toProcessEnv cwd).any fun cwd =>
      normalizeEffectiveAbsolutePath env cwd = root
  let defaults := (defaultReadOnlySubpathsForWritableRoot env root protectMissingDotCodex).filter
    fun path => !resolvedEntries.any fun entry => entry.path = path
  let carveouts := ((resolvedEntries.filter fun entry => !entry.access.canWrite).filter
    fun entry => !canWritePathWithCwd env policy entry.path.asPath cwd).filterMap
      fun entry => carveout env root rawWritableRoots entry.path
  { root := root
    readOnlySubpaths := dedupAbsolutePaths env (defaults ++ carveouts) false
    protectedMetadataNames :=
      protectedMetadataNamesForWritableRoot env policy root rawWritableRoots cwd }

def getWritableRootsWithCwd : List WritableRoot :=
  if policy.hasFullDiskWriteAccess then [] else
    let writableEntries := ((resolvedEntriesWithCwd env policy cwd).filter fun entry =>
      entry.access.canWrite && canWritePathWithCwd env policy entry.path.asPath cwd).map
        ResolvedFileSystemEntry.path
    (dedupAbsolutePaths env writableEntries true).map
      (writableRootFor env policy cwd writableEntries)

end Resolution

end SandboxPolicy
