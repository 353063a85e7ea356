import CodexTeams.DenyRead
import CodexTeams.Layers
import CodexTeams.StableSort

/-! The mounts that bubblewrap is given for a file system policy: denied directories above the
writable roots are masked, then the roots are bound from the top down, and the other denied paths
are masked in the end. The host has no links. -/
namespace Bubblewrap

open RustStr RustIter StableSort Paths SandboxPolicy DenyRead Layers

/-- What the set-up asks the host beyond what is at a path. -/
structure SandboxHost extends HostEnv where
  /-- A file of length zero, or a directory that can be listed and has nothing in it. -/
  empty : AbsolutePathBuf → Bool
  /-- Why `/dev/null` cannot be opened. -/
  nullError : Option Str
  /-- The paths that deny patterns match, down to a depth. -/
  expandGlobs : List Str → Option ℕ → Except Str (List AbsolutePathBuf)

inductive BwrapArg
  | roBind (path : AbsolutePathBuf)
  | bind (path : AbsolutePathBuf)
  | tmpfs (path : AbsolutePathBuf)
  | dev (path : AbsolutePathBuf)
  | roBindData (path : AbsolutePathBuf)
  | remountRo (path : AbsolutePathBuf)
  | dir (path : AbsolutePathBuf)
  | perms (mode : Str)

inductive SyntheticMountTarget
  | missing (path : AbsolutePathBuf)
  | missingEmptyDirectory (path : AbsolutePathBuf)
  | existingEmptyFile (path : AbsolutePathBuf)
  | existingEmptyDirectory (path : AbsolutePathBuf)

structure BwrapArgs where
  args : List BwrapArg
  syntheticMountTargets : List SyntheticMountTarget
  protectedCreateTargets : List AbsolutePathBuf

namespace BwrapArgs

def append (first second : BwrapArgs) : BwrapArgs where
  args := first.args ++ second.args
  syntheticMountTargets := first.syntheticMountTargets ++ second.syntheticMountTargets
  protectedCreateTargets := first.protectedCreateTargets ++ second.protectedCreateTargets

instance instAppend : Append BwrapArgs := ⟨append⟩

def ofArgs (args : List BwrapArg) : BwrapArgs := ⟨args, [], []⟩

def concat (pieces : List BwrapArgs) : BwrapArgs := pieces.foldr (· ++ ·) (ofArgs [])

end BwrapArgs

def linuxPlatformDefaultReadRoots : List AbsolutePathBuf :=
  [["bin"], ["sbin"], ["usr"], ["etc"], ["lib"], ["lib64"], ["nix", "store"],
    ["run", "current-system", "sw"]].map fun names => .ofParts (names.map String.toList)

def rootPath : AbsolutePathBuf := .ofParts []

def devPath : AbsolutePathBuf := .ofParts ["dev"]

section

variable (path : AbsolutePathBuf)

def pathDepth : ℕ := path.names.length + 1

def sortedSet (paths : List AbsolutePathBuf) : List AbsolutePathBuf :=
  dedupFrom [] (sortByKey AbsolutePathBuf.names paths)

def isWithinAllowedWritePaths (allowed : List AbsolutePathBuf) : Bool :=
  allowed.any fun root => path.startsWith root

def isMetadataPath : Bool :=
  path.fileName.any fun name => protectedMetadataPathNames.contains name

end

inductive EmptyProtectedMetadataPath
  | file
  | directory
  deriving Repr

section

variable (path : AbsolutePathBuf)

def components : List AbsolutePathBuf :=
  (List.range path.names.length).map fun k => path.take (k + 1)

def appendEmptyFileBindDataArgs : BwrapArgs := .ofArgs [.roBindData path]

def appendEmptyDirectoryArgs : BwrapArgs :=
  .ofArgs [.perms "555", .tmpfs path, .remountRo path]

def synthetic (target : SyntheticMountTarget) : BwrapArgs := ⟨[], [target], []⟩

def appendMissingEmptyFileBindDataArgs : BwrapArgs :=
  appendEmptyFileBindDataArgs path ++ synthetic (.missing path)

def appendMissingReadOnlySubpathArgs : BwrapArgs :=
  if isMetadataPath path then
    appendEmptyDirectoryArgs path ++ synthetic (.missingEmptyDirectory path)
  else appendMissingEmptyFileBindDataArgs path

end

section

variable (policy : FileSystemSandboxPolicy)

def hasFullDiskReadAccess : Bool :=
  match policy.kind with
  | .unrestricted | .externalSandbox => true
  | .restricted =>
    policy.hasRootAccess FileSystemAccessMode.canRead && !hasDeniedReadRestrictions policy

def includePlatformDefaults : Bool :=
  !hasFullDiskReadAccess policy && policy.kind == .restricted && policy.entries.any fun entry =>
    entry.path == .special .minimal && entry.access.canRead

end

section Plan

variable (host : SandboxHost) (path : AbsolutePathBuf)

def pathExists : Bool := (host.node path).isSome

variable (policy : FileSystemSandboxPolicy) (cwd : UnixPath)

def getReadableRootsWithCwd : List AbsolutePathBuf :=
  if hasFullDiskReadAccess policy then []
  else
    dedupAbsolutePaths host.toHostEnv (((resolvedEntriesWithCwd host.toHostEnv policy cwd).filter
      fun entry => entry.access.canRead &&
        (resolveAccessWithCwd host.toHostEnv policy entry.path.asPath cwd).canRead).map (·.path))
      true

def transientEmptyMetadataPath : Option EmptyProtectedMetadataPath :=
  if !isMetadataPath path || !host.empty path then none
  else
    match host.node path with
    | some (.file _) => some .file
    | some .directory => some .directory
    | none => none

def findFirstNonExistentComponent : Option AbsolutePathBuf :=
  (components path).find? fun current => !pathExists host current

section

variable (allowed : List AbsolutePathBuf)

def appendMissingComponent
    (appendMissing : AbsolutePathBuf → BwrapArgs) (path : AbsolutePathBuf) : BwrapArgs :=
  match findFirstNonExistentComponent host path with
  | some firstMissing =>
    if isWithinAllowedWritePaths firstMissing allowed then appendMissing firstMissing
    else .ofArgs []
  | none => .ofArgs []

def appendReadOnlySubpathArgs (subpath : AbsolutePathBuf) : BwrapArgs :=
  match transientEmptyMetadataPath host subpath, isWithinAllowedWritePaths subpath allowed with
  | some .file, true =>
    appendEmptyFileBindDataArgs subpath ++ synthetic (.existingEmptyFile subpath)
  | some .directory, true =>
    appendEmptyDirectoryArgs subpath ++ synthetic (.existingEmptyDirectory subpath)
  | _, within =>
    if !pathExists host subpath then
      appendMissingComponent host allowed appendMissingReadOnlySubpathArgs subpath
    else if within then .ofArgs [.roBind subpath]
    else .ofArgs []

def appendMountTargetParentDirArgs (anchor mountTarget : AbsolutePathBuf) : List BwrapArg :=
  let mountTargetDir := if host.isDir mountTarget then some mountTarget else mountTarget.parent
  match mountTargetDir with
  | none => []
  | some dir => ((dir.ancestors.takeWhile fun path => path ≠ anchor).reverse).map .dir

variable (unreadableRoot : AbsolutePathBuf)

def appendExistingUnreadablePathArgs : BwrapArgs :=
  if host.isDir unreadableRoot then
    let writableDescendants := allowed.filter fun path =>
      path ≠ unreadableRoot && path.startsWith unreadableRoot
    .ofArgs (
      [.perms (if writableDescendants = [] then "000" else "111"),
        .tmpfs unreadableRoot] ++
      (sortByKey pathDepth writableDescendants).flatMap
        (appendMountTargetParentDirArgs host unreadableRoot) ++
      [.remountRo unreadableRoot])
  else .ofArgs [.perms "000"] ++ appendEmptyFileBindDataArgs unreadableRoot

def appendUnreadableRootArgs : BwrapArgs :=
  if !pathExists host unreadableRoot then
    appendMissingComponent host allowed appendMissingEmptyFileBindDataArgs unreadableRoot
  else appendExistingUnreadablePathArgs host allowed unreadableRoot

end

def ancestorHasGitMetadata (ancestor : AbsolutePathBuf) : Bool :=
  let gitPath := joinName host.toHostEnv ancestor ".git"
  match host.node gitPath with
  | some .directory => pathExists host (joinName host.toHostEnv gitPath "HEAD")
  | some (.file contents) =>
    contents.any fun contents => startsWith (trimStart contents) "gitdir:"
  | none => false

def shouldLeaveMissingGitForParentRepoDiscovery (mountRoot : AbsolutePathBuf) (name : Str) : Bool :=
  name == ".git" && !pathExists host (joinName host.toHostEnv mountRoot name) &&
    (mountRoot.ancestors.drop 1).any (ancestorHasGitMetadata host)

variable (root : AbsolutePathBuf)

def appendMetadataPathMask (readOnlySubpaths : List AbsolutePathBuf)
    (name : Str) : List AbsolutePathBuf :=
  let path := joinName host.toHostEnv root name
  if shouldLeaveMissingGitForParentRepoDiscovery host root name then readOnlySubpaths
  else if readOnlySubpaths.contains path then readOnlySubpaths
  else readOnlySubpaths ++ [path]

variable (protectedMetadataNames : List Str)

def appendMetadataPathMasksForWritableRoot (readOnlySubpaths : List AbsolutePathBuf) :
    List AbsolutePathBuf :=
  protectedMetadataNames.foldl (appendMetadataPathMask host root) readOnlySubpaths

def protectedCreateTargetsForWritableRoot
    (root : AbsolutePathBuf) (readOnlySubpaths : List AbsolutePathBuf) : List AbsolutePathBuf :=
  (protectedMetadataNames.map (joinName host.toHostEnv root)).filter fun path =>
    !(readOnlySubpaths.contains path || pathExists host path)

/-- Metadata directories of the working directory that have an entry and are not there. They are
left to the protection of the names below the root. -/
def missingAutoMetadataReadOnlyProjectRootSubpaths : List AbsolutePathBuf :=
  -- below a relative directory the paths would be relative, and equal to no subpath of a root
  if !cwd.absolute then []
  else
    policy.entries.filterMap fun entry =>
      match entry.access, entry.path with
      | .read, .special (.projectRoots (some subpath)) =>
        if (protectedMetadataPathNames.map UnixPath.ofStr).contains subpath then
          let resolved := AbsolutePathBuf.resolvePathAgainstBase host.toProcessEnv subpath
            (.ofParts cwd.parts)
          if pathExists host resolved then none else some resolved
        else none
      | _, _ => none

structure Inputs where
  writableRoots : List WritableRoot
  unreadableRoots : List AbsolutePathBuf
  missingMetadata : List AbsolutePathBuf

variable (inputs : Inputs)

def Inputs.allowed : List AbsolutePathBuf :=
  inputs.writableRoots.map WritableRoot.root

variable (writableRoot : WritableRoot)

def readOnlySubpathsOf : List AbsolutePathBuf :=
  appendMetadataPathMasksForWritableRoot host writableRoot.root writableRoot.protectedMetadataNames
    ((writableRoot.readOnlySubpaths.filter fun path =>
      !inputs.unreadableRoots.contains path).filter fun path =>
        !inputs.missingMetadata.contains path)

def maskedParentDirArgs (root : AbsolutePathBuf) : List BwrapArg :=
  match maxByKey pathDepth (inputs.unreadableRoots.filter fun unreadableRoot =>
      root.startsWith unreadableRoot) with
  | some maskingRoot => appendMountTargetParentDirArgs host maskingRoot root
  | none => []

def writableRootArgs : BwrapArgs :=
  let root := writableRoot.root
  let readOnlySubpaths := readOnlySubpathsOf host inputs writableRoot
  .ofArgs (maskedParentDirArgs host inputs root) ++
  .ofArgs [.bind root] ++
  ⟨[], [], protectedCreateTargetsForWritableRoot host writableRoot.protectedMetadataNames root
    readOnlySubpaths⟩ ++
  .concat ((sortByKey pathDepth readOnlySubpaths).map
    (appendReadOnlySubpathArgs host inputs.allowed)) ++
  .concat ((sortByKey pathDepth (inputs.unreadableRoots.filter fun path =>
    path.startsWith root)).map (appendUnreadableRootArgs host inputs.allowed))

/-- The denied paths above a root that are below none. -/
def unreadableAncestors : List AbsolutePathBuf :=
  inputs.unreadableRoots.filter fun path =>
    !(inputs.allowed.any fun root => path.startsWith root) &&
      inputs.allowed.any fun root => root.startsWith path

def rootlessUnreadableRoots : List AbsolutePathBuf :=
  inputs.unreadableRoots.filter fun path =>
    !inputs.allowed.any fun root => path.startsWith root || root.startsWith path

def unreadableArgs (paths : List AbsolutePathBuf) : BwrapArgs :=
  .concat ((sortByKey pathDepth paths).map (appendUnreadableRootArgs host inputs.allowed))

def sortedWritableRoots : List WritableRoot :=
  sortByKey (fun writableRoot => pathDepth writableRoot.root) inputs.writableRoots

def readableRoots : List AbsolutePathBuf :=
  sortedSet (getReadableRootsWithCwd host policy cwd ++
    if includePlatformDefaults policy then
      linuxPlatformDefaultReadRoots.filter (pathExists host)
    else [])

def baseArgs : List BwrapArg :=
  if hasFullDiskReadAccess policy || (readableRoots host policy cwd).contains rootPath then
    [.roBind rootPath, .dev devPath]
  else
    [.tmpfs rootPath, .dev devPath] ++
      ((readableRoots host policy cwd).filter (pathExists host)).map .roBind

def planFor (inputs : Inputs) : BwrapArgs :=
  .ofArgs (baseArgs host policy cwd) ++
  unreadableArgs host inputs (unreadableAncestors inputs) ++
  .concat ((sortedWritableRoots inputs).map (writableRootArgs host inputs)) ++
  unreadableArgs host inputs (rootlessUnreadableRoots inputs)

def expandUnreadableGlobsWithRipgrep (patterns : List Str) (maxDepth : Option ℕ) :
    Except Str (List AbsolutePathBuf) :=
  if patterns = [] ∨ maxDepth = some 0 then .ok [] else host.expandGlobs patterns maxDepth

def inputsFor (globs : List Str) (matched : List AbsolutePathBuf) : Inputs :=
  let existing := (getWritableRootsWithCwd host.toHostEnv policy cwd).filter fun writableRoot =>
    pathExists host writableRoot.root
  { writableRoots :=
      if existing = [] ∧ policy.hasFullDiskWriteAccess ∧ globs ≠ [] then [⟨rootPath, [], []⟩]
      else existing
    unreadableRoots := sortedSet (getUnreadableRootsWithCwd host.toHostEnv policy cwd ++ matched)
    missingMetadata := missingAutoMetadataReadOnlyProjectRootSubpaths host policy cwd }

def BwrapArg.needsNull : BwrapArg → Bool
  | .roBindData _ => true
  | _ => false

def createFilesystemArgs
    (globScanMaxDepth : Option ℕ) : Except Str BwrapArgs := do
  let globs := getUnreadableGlobsWithCwd host.toHostEnv policy cwd
  let matched ← expandUnreadableGlobsWithRipgrep host globs globScanMaxDepth
  let plan := planFor host policy cwd (inputsFor host policy cwd globs matched)
  match host.nullError with
  | some error => if plan.args.any BwrapArg.needsNull then .error error else .ok plan
  | none => .ok plan

end Plan

/-- What a mount shows. -/
inductive View
  | readOnly
  | writable
  | devices
  | hidden
  deriving DecidableEq, Repr

def BwrapArg.layer? : BwrapArg → Option (Layer Str View)
  | .roBind path => some ⟨path.names, .readOnly⟩
  | .bind path => some ⟨path.names, .writable⟩
  | .dev path => some ⟨path.names, .devices⟩
  | .tmpfs path | .roBindData path => some ⟨path.names, .hidden⟩
  | .remountRo _ | .dir _ | .perms _ => none

variable (args : List BwrapArg)

def layersOf : List (Layer Str View) := args.filterMap BwrapArg.layer?

/-- What is seen at a path once the arguments are carried out in order. -/
def viewAt (path : AbsolutePathBuf) : Option View :=
  (top (layersOf args) path.names).map Layer.kind

end Bubblewrap
