import CodexTeams.WritableRoots
import Mathlib.Data.List.Lex
import Mathlib.Data.Char

/-! Denials of reads, and the matcher that tools ask before they read a path: the roots that nothing
opens again, and the globs, which a library compiles. -/
namespace DenyRead

open RustStr RustIter Paths SandboxPolicy WritableRoots List

/-- A policy with the bound for how deep globs are looked for. -/
structure GlobScanPolicy extends FileSystemSandboxPolicy where
  globScanMaxDepth : Option ℕ

section

variable (entries : List FileSystemSandboxEntry)

def GlobScanPolicy.restricted : GlobScanPolicy :=
  { kind := .restricted
    entries := entries
    globScanMaxDepth := none }

def hasDeniedReadRestrictions (policy : FileSystemSandboxPolicy) : Bool :=
  policy.kind == .restricted && policy.entries.any fun entry => entry.access == .deny

def pushEntry (entry : FileSystemSandboxEntry) : List FileSystemSandboxEntry :=
  if entries.contains entry then entries else entries ++ [entry]

def denyEntries : List FileSystemSandboxEntry :=
  entries.filter fun entry => entry.access == .deny

end

def GlobScanPolicy.preserveDenyReadRestrictionsFrom (policy existing : GlobScanPolicy) :
    GlobScanPolicy :=
  let hasDenyReadEntries := existing.entries.any fun entry => entry.access == .deny
  let policy :=
    if policy.kind = .unrestricted ∧ hasDenyReadEntries then
      .restricted [⟨.special .root, .write⟩]
    else policy
  if policy.kind ≠ .restricted then policy
  else
    { kind := policy.kind
      entries := (denyEntries existing.entries).foldl pushEntry policy.entries
      globScanMaxDepth := policy.globScanMaxDepth.or existing.globScanMaxDepth }

section Matcher

variable (env : HostEnv)

/-- The components of a path walked on disk: each name must be there, below a directory. -/
def walkPart (names : AbsolutePathBuf) (part : Str) : Option AbsolutePathBuf :=
  if !env.isDir names then none
  else
    let next := AbsolutePathBuf.ofParts (names.names ++ [part])
    if (env.node next).isSome then some next else none

def realPath (path : UnixPath) : Option AbsolutePathBuf :=
  if path.absolute then path.parts.foldlM (walkPart env) (.ofParts [])
  else if path.parts = [] then none
  else env.currentDir.bind fun cwd => path.parts.foldlM (walkPart env) cwd

def normalizedAndCanonicalCandidates (path : UnixPath) : List UnixPath :=
  let normalized := ((AbsolutePathBuf.fromAbsolutePath env.toProcessEnv path).map
    AbsolutePathBuf.asPath).getD path
  let canonical := (realPath env path).bind fun canonical =>
    AbsolutePathBuf.fromAbsolutePath env.toProcessEnv canonical.asPath
  dedupFrom [] (normalized :: (canonical.map AbsolutePathBuf.asPath).toList)

def pathStartsWith (path base : UnixPath) : Bool :=
  path.absolute == base.absolute && base.parts.isPrefixOf path.parts

section

variable (policy : FileSystemSandboxPolicy) (cwd : UnixPath)

/-- The deny entries that nothing at the same path opens. The root of the file system is left out:
a restricted policy denies what no entry allows anyway. -/
def unreadableEntries : List ResolvedFileSystemEntry :=
  let root := (AbsolutePathBuf.fromAbsolutePath env.toProcessEnv cwd).map fun _ =>
    AbsolutePathBuf.ofParts []
  (resolvedEntriesWithCwd env policy cwd).filter fun entry =>
    entry.access == .deny &&
      !(resolveAccessWithCwd env policy entry.path.asPath cwd).canRead &&
      root != some entry.path

def getUnreadableRootsWithCwd : List AbsolutePathBuf :=
  if policy.kind ≠ .restricted then []
  else dedupAbsolutePaths env ((unreadableEntries env policy cwd).map (·.path)) true

/-- The pattern below the directory, which need not be absolute itself. -/
def resolvePattern (pattern : Str) (cwd : UnixPath) : Str :=
  let joined := cwd.join (maybeExpandHomeDirectory env.toProcessEnv (.ofStr pattern))
  let names := normalizeParts joined.parts
  if joined.absolute then "/" ++ List.intercalate "/" names
  else if names = [] then curDir
  else List.intercalate "/" names

def dedupNeighbours : List Str → List Str
  | [] => []
  | text :: rest =>
    match dedupNeighbours rest with
    | [] => [text]
    | next :: more => if text = next then next :: more else text :: next :: more

def getUnreadableGlobsWithCwd : List Str :=
  if policy.kind ≠ .restricted then []
  else
    let patterns := (denyEntries policy.entries).filterMap fun entry =>
      match entry.path with
      | .globPattern pattern => some (resolvePattern env pattern cwd)
      | _ => none
    dedupNeighbours (patterns.mergeSort fun a b => decide (a ≤ b))

end

abbrev GlobMatcher := UnixPath → Bool

structure ReadDenyMatcher where
  deniedCandidates : List (List UnixPath)
  denyReadMatchers : List GlobMatcher
  invalidPattern : Bool

inductive InvalidDenyReadGlobBehavior
  | failClosed
  | returnError
  deriving Repr

variable (buildGlobMatcher : Str → Except Str GlobMatcher)

def buildMatchers (behavior : InvalidDenyReadGlobBehavior) :
    List Str → Except Str (List GlobMatcher × Bool)
  | [] => .ok ([], false)
  | pattern :: rest =>
    match buildGlobMatcher pattern with
    | .ok globMatcher => do
      let (matchers, invalid) ← buildMatchers behavior rest
      .ok (globMatcher :: matchers, invalid)
    | .error err =>
      match behavior with
      | .failClosed => do
        let (matchers, _) ← buildMatchers behavior rest
        .ok (matchers, true)
      | .returnError =>
        .error ("invalid deny-read glob pattern " ++ ['\x60'] ++ pattern ++ ['\x60'] ++ ": " ++ err)

namespace ReadDenyMatcher

variable (policy : FileSystemSandboxPolicy) (cwd : UnixPath)

def build (behavior : InvalidDenyReadGlobBehavior) : Except Str (Option ReadDenyMatcher) :=
  if !hasDeniedReadRestrictions policy then .ok none
  else do
    let (matchers, invalid) ←
      buildMatchers buildGlobMatcher behavior (getUnreadableGlobsWithCwd env policy cwd)
    .ok (some
      { deniedCandidates := (getUnreadableRootsWithCwd env policy cwd).map fun path =>
          normalizedAndCanonicalCandidates env path.asPath
        denyReadMatchers := matchers
        invalidPattern := invalid })

/-- Malformed patterns close the matcher, so that there is no error here. -/
def new : Option ReadDenyMatcher :=
  match build env buildGlobMatcher policy cwd .failClosed with
  | .ok denyMatcher => denyMatcher
  | .error _ => none

def isReadDenied (denyMatcher : ReadDenyMatcher) (path : UnixPath) : Bool :=
  if denyMatcher.invalidPattern then true
  else
    let pathCandidates := normalizedAndCanonicalCandidates env path
    if denyMatcher.deniedCandidates.any fun deniedCandidates =>
        pathCandidates.any fun candidate => deniedCandidates.any fun denied =>
          candidate == denied || pathStartsWith candidate denied then true
    else denyMatcher.denyReadMatchers.any fun globMatcher => pathCandidates.any globMatcher

end ReadDenyMatcher

/-- The matcher of the policy denies the path; without deny entries there is no matcher. -/
def readDeniedBy (policy : FileSystemSandboxPolicy) (cwd path : UnixPath) : Bool :=
  (ReadDenyMatcher.new env buildGlobMatcher policy cwd).any fun denyMatcher =>
    denyMatcher.isReadDenied env path

end Matcher

theorem mem_dedupNeighbours : t ∈ dedupNeighbours texts ↔ t ∈ texts := by
  induction texts with
  | nil => rfl
  | cons first r ih =>
    rw [dedupNeighbours, mem_cons, ← ih]
    cases dedupNeighbours r with
    | nil => simp
    | cons next m =>
      by_cases hn : first = next <;> simp [hn]

theorem buildMatchers_failClosed (ps : List Str) : buildMatchers bgm .failClosed ps =
      .ok (ps.filterMap fun p => (bgm p).toOption, ps.any fun p => !(bgm p).isOk) := by
  induction ps with
  | nil => rfl
  | cons p r ih =>
    rw [buildMatchers, filterMap_cons, any_cons]
    cases bgm p with simp only [ih]
    | ok gm | error err => rfl

/-- A path at or below a denied root, in one of the ways to write both. -/
def UnderRoot (env : HostEnv) (root : AbsolutePathBuf) (path : UnixPath) : Prop :=
  ∃ candidate ∈ normalizedAndCanonicalCandidates env path,
    ∃ denied ∈ normalizedAndCanonicalCandidates env root.asPath,
      candidate = denied ∨ pathStartsWith candidate denied = true

/-- A path that a pattern denies: any path, where the pattern is malformed. -/
def DeniedByGlob (env : HostEnv) (buildGlobMatcher : Str → Except Str GlobMatcher)
    (pattern : Str) (path : UnixPath) : Prop :=
  match buildGlobMatcher pattern with
  | .error _ => True
  | .ok globMatcher => ∃ candidate ∈ normalizedAndCanonicalCandidates env path,
      globMatcher candidate = true

theorem isReadDenied_iff {dm : ReadDenyMatcher} : dm.isReadDenied env p = true ↔
      dm.invalidPattern = true ∨
      (∃ dcs ∈ dm.deniedCandidates, ∃ c ∈ normalizedAndCanonicalCandidates env p, ∃ d ∈ dcs,
          c = d ∨ pathStartsWith c d = true) ∨
      ∃ gm ∈ dm.denyReadMatchers, ∃ c ∈ normalizedAndCanonicalCandidates env p, gm c = true := by
  simp [ReadDenyMatcher.isReadDenied]

theorem deniedByGlob_iff {ps : List Str} : (∃ p ∈ ps, DeniedByGlob env bgm p pt) ↔
      (ps.any fun p => !(bgm p).isOk) = true ∨ ∃ gm ∈ ps.filterMap fun p => (bgm p).toOption,
        ∃ c ∈ normalizedAndCanonicalCandidates env pt, gm c = true := by
  rw [any_eq_true]
  constructor
  · rintro ⟨p, hp, hd⟩
    rw [DeniedByGlob] at hd
    cases hb : bgm p with
    | error err =>
      refine .inl ⟨p, hp, ?_⟩
      rw [hb]
      rfl
    | ok gm =>
      rw [hb] at hd
      refine .inr ⟨gm, mem_filterMap.mpr ⟨p, hp, ?_⟩, hd⟩
      rw [hb]
      rfl
  · rintro (⟨p, hp, hi⟩ | ⟨gm, hmm, hm⟩)
    · refine ⟨p, hp, ?_⟩
      rw [DeniedByGlob]
      cases hb : bgm p with
      | error err => trivial
      | ok gm =>
        rw [hb] at hi
        cases hi
    · obtain ⟨p, hp, hb⟩ := mem_filterMap.mp hmm
      refine ⟨p, hp, ?_⟩
      rw [DeniedByGlob]
      cases hr : bgm p with
      | error err => trivial
      | ok f =>
        rw [hr] at hb
        cases hb
        exact hm

theorem readDeniedBy_iff {p : FileSystemSandboxPolicy} :
    readDeniedBy env bgm p cwd ph = true ↔ hasDeniedReadRestrictions p = true ∧
        ((∃ r ∈ getUnreadableRootsWithCwd env p cwd, UnderRoot env r ph) ∨
          ∃ pt ∈ getUnreadableGlobsWithCwd env p cwd, DeniedByGlob env bgm pt ph) := by
  cases hd : hasDeniedReadRestrictions p with
  | false => simp [readDeniedBy, ReadDenyMatcher.new, ReadDenyMatcher.build, hd]
  | true =>
    have hn : ReadDenyMatcher.new env bgm p cwd = some
        { deniedCandidates := (getUnreadableRootsWithCwd env p cwd).map fun ph =>
            normalizedAndCanonicalCandidates env ph.asPath
          denyReadMatchers := (getUnreadableGlobsWithCwd env p cwd).filterMap
            fun pt => (bgm pt).toOption
          invalidPattern := (getUnreadableGlobsWithCwd env p cwd).any
            fun pt => !(bgm pt).isOk } := by
      simp only [ReadDenyMatcher.new, ReadDenyMatcher.build, hd, buildMatchers_failClosed]
      rfl
    rw [readDeniedBy, hn, Option.any_some, isReadDenied_iff, deniedByGlob_iff]
    simp only [mem_map, exists_exists_and_eq_and, true_and]
    exact or_left_comm

theorem readDeniedBy_mono (hdn : hasDeniedReadRestrictions new = true)
    (hr : getUnreadableRootsWithCwd env old cwd ⊆ getUnreadableRootsWithCwd env new cwd)
    (hg : getUnreadableGlobsWithCwd env old cwd ⊆ getUnreadableGlobsWithCwd env new cwd)
    (h : readDeniedBy env bgm old cwd pt = true) : readDeniedBy env bgm new cwd pt = true := by
  obtain ⟨-, hd⟩ := readDeniedBy_iff.mp h
  apply readDeniedBy_iff.mpr
  refine ⟨hdn, ?_⟩
  rcases hd with ⟨root, hrt, hu⟩ | ⟨p, hp, hm⟩
  · exact .inl ⟨root, hr hrt, hu⟩
  · exact .inr ⟨p, hg hp, hm⟩

section Preserved

variable {env : HostEnv} {cwd : UnixPath}

theorem accessAt_deny (he : e ∈ es) (hd : e.access = .deny) : accessAt es e.path = .deny := by
  obtain ⟨b, hb⟩ := exists_best he prefix_rfl
  rw [hb.accessAt_eq]
  rcases hb.cases he prefix_rfl with hlt | ⟨-, hle⟩
  · exact absurd hb.above.length_le (Nat.not_le.mpr hlt)
  · rw [hd] at hle
    revert hle
    cases b.access <;> decide

theorem mem_resolvedEntries : e ∈ resolvedEntriesWithCwd env p cwd ↔ ∃ en ∈ p.entries,
      resolveEntryPath env en.path (AbsolutePathBuf.fromAbsolutePath env.toProcessEnv cwd) =
        some e.path ∧ en.access = e.access := by
  simp only [resolvedEntriesWithCwd, mem_filterMap, Option.map_eq_some_iff]
  constructor
  · rintro ⟨en, he, pt, hp, rfl⟩
    exact ⟨en, he, hp, rfl⟩
  · rintro ⟨en, he, hp, ha⟩
    refine ⟨en, he, e.path, hp, ?_⟩
    rw [ha]

theorem mem_unreadableRoots (hk : new.kind = .restricted) :
    root ∈ getUnreadableRootsWithCwd env new cwd ↔
      ∃ u ∈ unreadableEntries env new cwd, u.path = root := by
  simp [getUnreadableRootsWithCwd, hk, dedupAbsolutePaths, mem_dedupFrom]

theorem unreadableGlobs_eq_nil (h : ∀ en ∈ denyEntries new.entries, ∀ p, en.path ≠ .globPattern p) :
    getUnreadableGlobsWithCwd env new cwd = [] := by
  rw [eq_nil_iff_forall_not_mem]
  intro text ht
  rw [getUnreadableGlobsWithCwd] at ht
  split at ht
  · cases ht
  · simp only [mem_dedupNeighbours, mem_mergeSort, mem_filterMap] at ht
    obtain ⟨en, he, hg⟩ := ht
    split at hg
    · rename_i p hp
      exact h en he p hp
    · cases hg

theorem unreadableRoots_subset (hk : new.kind = .restricted)
    (hen : denyEntries old.entries ⊆ new.entries) :
    getUnreadableRootsWithCwd env old cwd ⊆ getUnreadableRootsWithCwd env new cwd := by
  intro root hr
  rw [getUnreadableRootsWithCwd] at hr ⊢
  split at hr
  · cases hr
  · rw [if_neg (not_not_intro hk)]
    simp only [dedupAbsolutePaths, if_true, mem_dedupFrom, mem_map, not_mem_nil,
      not_false_eq_true, and_true] at hr ⊢
    obtain ⟨p, ⟨e, he, rfl⟩, rfl⟩ := hr
    refine ⟨e.path, ⟨e, ?_, rfl⟩, rfl⟩
    simp only [unreadableEntries, mem_filter, Bool.and_eq_true, beq_iff_eq] at he ⊢
    obtain ⟨hm, ⟨hd, -⟩, hn⟩ := he
    obtain ⟨en, het, hp, ha⟩ := mem_resolvedEntries.mp hm
    have hkp : en ∈ new.entries := by
      apply hen
      rw [denyEntries, mem_filter, ha, hd]
      exact ⟨het, rfl⟩
    have hnw := mem_resolvedEntries.mpr ⟨en, hkp, hp, ha⟩
    refine ⟨hnw, ⟨hd, ?_⟩, hn⟩
    simp only [resolveAccessWithCwd, hk, resolveCandidatePath_asPath, accessAt_deny hnw hd]
    rfl

theorem unreadableGlobs_subset (hk : new.kind = .restricted)
    (hen : denyEntries old.entries ⊆ new.entries) :
    getUnreadableGlobsWithCwd env old cwd ⊆ getUnreadableGlobsWithCwd env new cwd := by
  intro p hp
  rw [getUnreadableGlobsWithCwd] at hp ⊢
  split at hp
  · cases hp
  · rw [if_neg (not_not_intro hk)]
    simp only [mem_dedupNeighbours, mem_mergeSort, mem_filterMap] at hp ⊢
    obtain ⟨en, he, hg⟩ := hp
    refine ⟨en, ?_, hg⟩
    rw [denyEntries, mem_filter]
    exact ⟨hen he, (mem_filter.mp he).2⟩

theorem mem_foldl_pushEntry {added : List FileSystemSandboxEntry} :
    en ∈ added.foldl pushEntry es ↔ en ∈ es ∨ en ∈ added := by
  induction added generalizing es with
  | nil => simp
  | cons first r ih =>
    have hp : en ∈ pushEntry es first ↔ en ∈ es ∨ en = first := by
      rw [pushEntry]
      split
      · rename_i hm
        constructor
        · exact .inl
        · rintro (he | rfl)
          · exact he
          · exact contains_iff_mem.mp hm
      · rw [mem_append, mem_singleton]
    rw [foldl_cons, ih, hp, mem_cons, or_assoc]

theorem preserve_spec {p : GlobScanPolicy} (hk : p.kind ≠ .externalSandbox)
    (hd : e.entries.any (fun en => en.access == .deny) = true) :
    (p.preserveDenyReadRestrictionsFrom e).kind = .restricted ∧ denyEntries e.entries ⊆
        (p.preserveDenyReadRestrictionsFrom e).entries := by
  rw [GlobScanPolicy.preserveDenyReadRestrictionsFrom]
  cases hp : p.kind with
  | externalSandbox => exact absurd hp hk
  | unrestricted =>
    simp only [hd]
    refine ⟨rfl, ?_⟩
    intro en he
    exact mem_foldl_pushEntry.mpr (.inr he)
  | restricted =>
    simp only [hp, reduceCtorEq, false_and, if_false, ne_eq, not_true_eq_false]
    refine ⟨trivial, ?_⟩
    intro en he
    exact mem_foldl_pushEntry.mpr (.inr he)

/-- Whatever the old policy's matcher denies, the matcher of the new policy denies too. -/
theorem readDenied_preserved {buildGlobMatcher : Str → Except Str GlobMatcher}
    {policy existing : GlobScanPolicy} {path : UnixPath} (hkind : policy.kind ≠ .externalSandbox)
    (h : readDeniedBy env buildGlobMatcher existing.toFileSystemSandboxPolicy cwd path = true) :
    readDeniedBy env buildGlobMatcher
      (policy.preserveDenyReadRestrictionsFrom existing).toFileSystemSandboxPolicy cwd path =
        true := by
  obtain ⟨hd, -⟩ := readDeniedBy_iff.mp h
  obtain ⟨-, han⟩ := Bool.and_eq_true_iff.mp hd
  obtain ⟨hn, he⟩ := preserve_spec hkind han
  apply readDeniedBy_mono ?_ (unreadableRoots_subset hn he) (unreadableGlobs_subset hn he) h
  obtain ⟨en, hen, ha⟩ := any_eq_true.mp han
  rw [hasDeniedReadRestrictions, hn, Bool.and_eq_true, any_eq_true]
  exact ⟨rfl, en, he (mem_filter.mpr ⟨hen, ha⟩), ha⟩

def secretsDenied : GlobScanPolicy :=
  .restricted [⟨.special .root, .read⟩, ⟨.path (.ofParts ["secrets"]), .deny⟩]

def unrestrictedPolicy : GlobScanPolicy :=
  { kind := .unrestricted
    entries := []
    globScanMaxDepth := none }

theorem readDenied_preserved_secrets :
    let path : UnixPath := ⟨true, ["secrets", "key"]⟩
    readDeniedBy bareHost (fun _ => .error []) (unrestrictedPolicy.preserveDenyReadRestrictionsFrom
      secretsDenied).toFileSystemSandboxPolicy ⟨true, []⟩ path = true :=
  readDenied_preserved (by decide) (by decide +kernel)

end Preserved

end DenyRead
