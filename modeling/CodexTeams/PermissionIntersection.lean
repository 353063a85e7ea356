import CodexTeams.AdditionalPermissions

/-! What is left of a request after it was granted in part. Every granted entry is tested against
the request at its own path; deny entries that touch what was accepted are kept. With a relative
working directory the root is tested somewhere else. -/
namespace PermissionIntersection

open RustStr RustIter Paths SandboxPolicy WritableRoots DenyRead PolicyAccess List AbsolutePathBuf
  AdditionalPermissions

section Model

variable (env : HostEnv)

/-- The last ancestor of a relative directory is the empty path, which is the current directory. -/
def resolvePermissionPath (path : FileSystemPath) (cwd : UnixPath) : Option AbsolutePathBuf :=
  match path with
  | .path path => some path
  | .globPattern _ => none
  | .special .root => fromAbsolutePath env.toProcessEnv ⟨cwd.absolute, []⟩
  | .special value =>
    resolveFileSystemSpecialPath env value
      (fromAbsolutePath env.toProcessEnv cwd)

def accessCovers (requested granted : FileSystemAccessMode) : Bool :=
  match granted with
  | .read => requested.canRead
  | .write => requested.canWrite
  | .deny => false

def materializeCwdDependentEntry (entry : FileSystemSandboxEntry) (cwd : UnixPath) :
    FileSystemSandboxEntry :=
  match entry.path with
  | .special (.projectRoots _) =>
    match resolvePermissionPath env entry.path cwd with
    | some path => ⟨.path path, entry.access⟩
    | none => entry
  | .globPattern pattern => ⟨.globPattern (resolvePattern env pattern cwd), entry.access⟩
  | _ => entry

def pathsOverlap (left right : AbsolutePathBuf) : Bool :=
  left.startsWith right || right.startsWith left

def isGlobChar (c : Char) : Bool := c == '*' || c == '?' || c == '[' || c == ']'

def parentPath (path : UnixPath) : Option UnixPath :=
  if path.parts = [] then none else some ⟨path.absolute, path.parts.dropLast⟩

/-- The directory a pattern cannot reach out of. -/
def globStaticPrefixPath (pattern : Str) (cwd : UnixPath) : Option AbsolutePathBuf := do
  let resolved := resolvePattern env pattern cwd
  let front := resolved.takeWhile (!isGlobChar ·)
  let directory ←
    if front = resolved then some (UnixPath.ofStr resolved)
    else if front = [] then none
    else if front.getLast? = some '/' ∨ front.getLast? = some '\\' then some (UnixPath.ofStr front)
    else parentPath (UnixPath.ofStr front)
  fromAbsolutePath env.toProcessEnv directory

def denyEntryConstrainsAcceptedGrant (denyEntry : FileSystemSandboxEntry)
    (acceptedEntries : List FileSystemSandboxEntry) (cwd : UnixPath) : Bool :=
  (acceptedEntries.filter fun entry => entry.access.canRead).any fun entry =>
    match resolvePermissionPath env entry.path cwd with
    | none => false
    | some grantPath =>
      match denyEntry.path with
      | .globPattern pattern => (globStaticPrefixPath env pattern cwd).any fun front =>
          pathsOverlap front grantPath
      | path => (resolvePermissionPath env path cwd).any fun denyPath =>
          pathsOverlap denyPath grantPath

def retainConstrainingDenyEntries (sourceEntries acceptedEntries : List FileSystemSandboxEntry)
    (cwd : UnixPath) : List FileSystemSandboxEntry :=
  ((denyEntries sourceEntries).filter fun entry =>
    denyEntryConstrainsAcceptedGrant env entry acceptedEntries cwd).map fun entry =>
      materializeCwdDependentEntry env entry cwd

def grantedFileSystemEntryWithinRequest (requested : FileSystemPermissions)
    (requestedPolicy : FileSystemSandboxPolicy) (readDenyMatcher : Option ReadDenyMatcher)
    (grantedEntry : FileSystemSandboxEntry) (cwd : UnixPath) : Bool :=
  if !grantedEntry.access.canRead then false
  else match resolvePermissionPath env grantedEntry.path cwd with
    | some path =>
      if readDenyMatcher.any fun denyMatcher => denyMatcher.isReadDenied env path.asPath then false
      else accessCovers (resolveAccessWithCwd env requestedPolicy path.asPath cwd)
        grantedEntry.access
    | none => requested.entries.any fun requestedEntry =>
        accessCovers requestedEntry.access grantedEntry.access &&
          requestedEntry.path == grantedEntry.path

def nonZero (n : ℕ) : Option ℕ+ := if h : 0 < n then some ⟨n, h⟩ else none

variable (buildGlobMatcher : Str → Except Str GlobMatcher)

def acceptedEntries (requested : FileSystemPermissions) (granted : List FileSystemSandboxEntry)
    (cwd : UnixPath) : List FileSystemSandboxEntry :=
  let requestedPolicy : FileSystemSandboxPolicy := ⟨.restricted, requested.entries⟩
  let readDenyMatcher := ReadDenyMatcher.new env buildGlobMatcher requestedPolicy cwd
  ((granted.filter fun entry => grantedFileSystemEntryWithinRequest env requested requestedPolicy
    readDenyMatcher entry cwd).map fun entry =>
      materializeCwdDependentEntry env entry cwd).foldl pushEntry []

def intersectFileSystem (requested granted : FileSystemPermissions) (cwd : UnixPath) :
    FileSystemPermissions :=
  let accepted := acceptedEntries env buildGlobMatcher requested granted.entries cwd
  let requestedRetained := retainConstrainingDenyEntries env requested.entries accepted cwd
  let grantedRetained := retainConstrainingDenyEntries env granted.entries accepted cwd
  { entries := grantedRetained.foldl pushEntry (requestedRetained.foldl pushEntry accepted)
    globScanMaxDepth := (mergeGlobScanMaxDepth requestedRetained
      (requested.globScanMaxDepth.map PNat.val) grantedRetained
      (granted.globScanMaxDepth.map PNat.val)).bind nonZero }

def intersectPermissionProfiles (requested granted : AdditionalPermissionProfile)
    (cwd : UnixPath) : AdditionalPermissionProfile :=
  { network := match requested.network, granted.network with
      | some ⟨some true⟩, some ⟨some true⟩ => some ⟨some true⟩
      | _, _ => none
    fileSystem := (requested.fileSystem.map fun requested =>
      intersectFileSystem env buildGlobMatcher requested (granted.fileSystem.getD ⟨[], none⟩)
        cwd).filter fun permissions => !permissions.isEmpty }

end Model

def policyOf (profile : AdditionalPermissionProfile) : FileSystemSandboxPolicy :=
  ⟨.restricted, addedEntries (some profile)⟩

theorem walkPart_foldlM (h : ∀ p ∈ parts, NormalName p) {l : AbsolutePathBuf}
    (hw : parts.foldlM (walkPart env) b = some l) : l.names = b.names ++ parts := by
  induction parts generalizing b with
  | nil =>
    cases hw
    rw [append_nil]
  | cons p parts ih =>
    obtain ⟨next, hn, hr⟩ := Option.bind_eq_some_iff.mp hw
    have hns : next.names = b.names ++ [p] := by
      rw [walkPart] at hn
      split at hn
      · cases hn
      · dsimp only at hn
        split at hn
        · cases hn
          apply normalizeParts_of_normal
          intro n hnm
          rcases mem_append.mp hnm with hnm | hnm
          · exact b.normal n hnm
          · rw [mem_singleton.mp hnm]
            exact h p mem_cons_self
        · cases hn
    have hl := ih (fun o ho => h o (mem_cons_of_mem p ho)) hr
    rw [hl, hns, append_assoc, singleton_append]

theorem candidates_asPath (p : AbsolutePathBuf) :
    normalizedAndCanonicalCandidates env p.asPath = [p.asPath] := by
  have hr : ∀ c, realPath env p.asPath = some c → c = p := by
    intro c hc
    apply ext_names
    have hn := walkPart_foldlM p.normal hc
    rw [hn]
    rfl
  rw [normalizedAndCanonicalCandidates, fromAbsolutePath_asPath]
  cases hpt : realPath env p.asPath with
  | none => rfl
  | some c =>
    rw [hr c hpt]
    simp [dedupFrom]

theorem underRoot_iff {p : AbsolutePathBuf} : UnderRoot env r p.asPath ↔ r.names <+: p.names := by
  simp only [UnderRoot, candidates_asPath, mem_singleton, exists_eq_left]
  constructor
  · rintro (heq | hs)
    · have hn : p.names = r.names := congrArg UnixPath.parts heq
      exact hn ▸ prefix_rfl
    · exact isPrefixOf_iff_prefix.mp (Bool.and_eq_true_iff.mp hs).2
  · intro h
    exact .inr (Bool.and_eq_true_iff.mpr ⟨rfl, isPrefixOf_iff_prefix.mpr h⟩)

def GlobFree (entries : List FileSystemSandboxEntry) : Prop :=
  ∀ entry ∈ entries, ∀ pattern, entry.path ≠ .globPattern pattern

theorem unreadableGlobs_of_globFree (h : GlobFree es) :
    getUnreadableGlobsWithCwd env ⟨.restricted, es⟩ cwd = [] :=
  unreadableGlobs_eq_nil fun e he => h e (mem_filter.mp he).1

/-- Without globs, what is denied is what lies under a deny entry that nothing opens. -/
theorem readDeniedBy_globFree (h : GlobFree es) {p : AbsolutePathBuf} :
    readDeniedBy env m ⟨.restricted, es⟩ cwd p.asPath = true ↔
      ∃ u ∈ unreadableEntries env ⟨.restricted, es⟩ cwd, u.path.names <+: p.names := by
  rw [readDeniedBy_iff, unreadableGlobs_of_globFree h]
  simp only [mem_unreadableRoots, underRoot_iff, not_mem_nil, false_and, exists_false, or_false]
  constructor
  · rintro ⟨-, root, ⟨u, hu, rfl⟩, hun⟩
    exact ⟨u, hu, hun⟩
  · rintro ⟨u, hu, hun⟩
    refine ⟨?_, u.path, ⟨u, hu, rfl⟩, hun⟩
    rw [unreadableEntries, mem_filter, Bool.and_eq_true, Bool.and_eq_true] at hu
    obtain ⟨e, he, -, ha⟩ := mem_resolvedEntries.mp hu.1
    rw [hasDeniedReadRestrictions, Bool.and_eq_true, any_eq_true]
    refine ⟨rfl, e, he, ?_⟩
    rw [ha]
    exact hu.2.1.1

section Entries

variable (env : HostEnv) (cwd : UnixPath)

def placeOf (path : FileSystemPath) : Option AbsolutePathBuf :=
  resolveEntryPath env path (fromAbsolutePath env.toProcessEnv cwd)

/-- The root is granted, and tested at another path than the one it stands for. -/
def RootElsewhere (granted : List FileSystemSandboxEntry) : Prop :=
  resolvePermissionPath env (.special .root) cwd ≠ placeOf env cwd (.special .root) ∧
    ∃ entry ∈ granted, entry.path = .special .root

/-- An access within the request at a path: it is covered there, and no deny entry of the request
lies above it. -/
structure Covered (requested : List FileSystemSandboxEntry) (r : ResolvedFileSystemEntry) :
    Prop where
  access : r.access ≠ .deny
  covers : accessCovers (accessAt (resolvedOf env cwd requested) r.path) r.access = true
  notDenied : ∀ u ∈ unreadableEntries env ⟨.restricted, requested⟩ cwd,
    ¬u.path.names <+: r.path.names

def Accepts (requested : List FileSystemSandboxEntry) (entry : FileSystemSandboxEntry) : Prop :=
  match resolvePermissionPath env entry.path cwd with
  | some path => Covered env cwd requested ⟨path, entry.access⟩
  | none => entry.access ≠ .deny ∧
    ∃ e ∈ requested, accessCovers e.access entry.access = true ∧ e.path = entry.path

variable (requested granted : List FileSystemSandboxEntry)

def Grants (r : ResolvedFileSystemEntry) : Prop :=
  ∃ entry ∈ granted, placeOf env cwd entry.path = some r.path ∧ entry.access = r.access ∧
    Accepts env cwd requested entry

/-- A deny entry that is on one line with an accepted grant, where both are tested. -/
def Kept (source : List FileSystemSandboxEntry) (d : ResolvedFileSystemEntry) : Prop :=
  ∃ entry ∈ source, placeOf env cwd entry.path = some d.path ∧ entry.access = d.access ∧
    d.access = .deny ∧ ∃ p, resolvePermissionPath env entry.path cwd = some p ∧
      ∃ g ∈ granted, Accepts env cwd requested g ∧
        ∃ gp, resolvePermissionPath env g.path cwd = some gp ∧
          (gp.names <+: p.names ∨ p.names <+: gp.names)

def Retains (d : ResolvedFileSystemEntry) : Prop :=
  Kept env cwd requested granted requested d ∨ Kept env cwd requested granted granted d

end Entries

theorem resolvePermissionPath_of_absolute (hc : cwd.absolute = true) (path : FileSystemPath) :
    resolvePermissionPath env path cwd = placeOf env cwd path := by
  cases path with
  | special value =>
    cases value with
    | root =>
      have hr : fromAbsolutePath env.toProcessEnv ⟨true, []⟩ =
          some (.ofParts []) := fromAbsolutePath_absolute _ rfl
      rw [resolvePermissionPath, placeOf, hc, hr, fromAbsolutePath_absolute _ hc]
      rfl
    | _ => rfl
  | _ => rfl

theorem resolvePermissionPath_of_ne (h : path ≠ .special .root) :
    resolvePermissionPath env path cwd = placeOf env cwd path := by
  cases path with
  | special value =>
    cases value with
    | root => exact absurd rfl h
    | _ => rfl
  | _ => rfl

theorem resolve_materialize (e : FileSystemSandboxEntry) :
    resolvePermissionPath env (materializeCwdDependentEntry env e cwd).path cwd =
        resolvePermissionPath env e.path cwd ∧
      placeOf env cwd (materializeCwdDependentEntry env e cwd).path = placeOf env cwd e.path ∧
      (materializeCwdDependentEntry env e cwd).access = e.access := by
  rw [materializeCwdDependentEntry]
  split
  · rename_i hp
    have hr : resolvePermissionPath env e.path cwd = placeOf env cwd e.path :=
      resolvePermissionPath_of_ne (by rw [hp]; nofun)
    cases ht : resolvePermissionPath env e.path cwd with
    | some path =>
      rw [← hr, ht]
      exact ⟨rfl, rfl, rfl⟩
    | none => exact ⟨ht, rfl, rfl⟩
  · rename_i hp
    rw [hp]
    exact ⟨rfl, rfl, rfl⟩
  · exact ⟨rfl, rfl, rfl⟩

theorem within_iff (hg : GlobFree rq.entries) (e : FileSystemSandboxEntry) :
    grantedFileSystemEntryWithinRequest env rq ⟨.restricted, rq.entries⟩
        (ReadDenyMatcher.new env bgm ⟨.restricted, rq.entries⟩ cwd) e cwd = true ↔
      Accepts env cwd rq.entries e := by
  rw [grantedFileSystemEntryWithinRequest, Accepts]
  by_cases hc : e.access = .deny
  · rw [hc]
    refine iff_of_false Bool.false_ne_true fun h => ?_
    split at h
    · exact absurd rfl h.access
    · exact absurd rfl h.1
  · rw [if_neg (by simpa using canRead_iff.mpr hc)]
    cases resolvePermissionPath env e.path cwd with
    | none => simp [hc]
    | some p =>
      have hd : ((ReadDenyMatcher.new env bgm ⟨.restricted, rq.entries⟩
          cwd).any fun dm => dm.isReadDenied env p.asPath) = true ↔ _ :=
        readDeniedBy_globFree hg
      have ha : resolveAccessWithCwd env ⟨.restricted, rq.entries⟩ p.asPath cwd =
          accessAt (resolvedOf env cwd rq.entries) p := by
        simp only [resolveAccessWithCwd, resolveCandidatePath_asPath]
        rfl
      dsimp only
      rw [ha]
      split
      · rename_i hdn
        obtain ⟨u, hu, hun⟩ := hd.mp hdn
        exact iff_of_false Bool.false_ne_true fun h => h.notDenied u hu hun
      · rename_i hn
        exact ⟨fun h => ⟨hc, h, fun u hu hun => hn (hd.mpr ⟨u, hu, hun⟩)⟩, fun h => h.covers⟩

theorem mem_accepted (hg : GlobFree rq.entries) : e ∈ acceptedEntries env bgm rq gr cwd ↔
    ∃ g ∈ gr, Accepts env cwd rq.entries g ∧ materializeCwdDependentEntry env g cwd = e := by
  simp only [acceptedEntries, mem_foldl_pushEntry, not_mem_nil, false_or, mem_map, mem_filter,
    within_iff hg, and_assoc]

theorem Accepts.ne_deny (h : Accepts env cwd rs g) : g.access ≠ .deny := by
  rw [Accepts] at h
  split at h
  · exact h.access
  · exact h.1

theorem pathsOverlap_iff : pathsOverlap left right = true ↔
      right.names <+: left.names ∨ left.names <+: right.names := by
  rw [pathsOverlap, Bool.or_eq_true, AbsolutePathBuf.startsWith_iff, AbsolutePathBuf.startsWith_iff]

theorem constrains_iff (hg : GlobFree rq.entries) (hn : ∀ pattern, e.path ≠ .globPattern pattern) :
    denyEntryConstrainsAcceptedGrant env e (acceptedEntries env bgm rq gr cwd) cwd = true ↔
      ∃ p, resolvePermissionPath env e.path cwd = some p ∧
        ∃ g ∈ gr, Accepts env cwd rq.entries g ∧
          ∃ gp, resolvePermissionPath env g.path cwd = some gp ∧
            (gp.names <+: p.names ∨ p.names <+: gp.names) := by
  have hm : ∀ gp : AbsolutePathBuf, (match e.path with
      | .globPattern pattern => (globStaticPrefixPath env pattern cwd).any fun front =>
          pathsOverlap front gp
      | path => (resolvePermissionPath env path cwd).any fun denyPath =>
          pathsOverlap denyPath gp) = true ↔ ∃ p, resolvePermissionPath env e.path cwd = some p ∧
            (gp.names <+: p.names ∨ p.names <+: gp.names) := by
    intro gp
    split
    · rename_i hp
      exact absurd hp (hn _)
    · simp [Option.any_eq_true, pathsOverlap_iff]
  rw [denyEntryConstrainsAcceptedGrant, any_eq_true]
  constructor
  · rintro ⟨a, ha, ho⟩
    obtain ⟨g, hgr, hac, rfl⟩ := (mem_accepted hg).mp (mem_filter.mp ha).1
    rw [(resolve_materialize g).1] at ho
    split at ho
    · cases ho
    · rename_i gp hgp
      obtain ⟨p, hp, hl⟩ := (hm gp).mp ho
      exact ⟨p, hp, g, hgr, hac, gp, hgp, hl⟩
  · rintro ⟨p, hp, g, hgr, hac, gp, hgp, hl⟩
    refine ⟨materializeCwdDependentEntry env g cwd,
      mem_filter.mpr ⟨(mem_accepted hg).mpr ⟨g, hgr, hac, rfl⟩, ?_⟩, ?_⟩
    · rw [(resolve_materialize g).2.2]
      exact canRead_iff.mpr hac.ne_deny
    · rw [(resolve_materialize g).1, hgp]
      exact (hm gp).mpr ⟨p, hp, hl⟩

/-- What the result consists of. -/
def Intersects (env : HostEnv) (cwd : UnixPath) (requested granted : List FileSystemSandboxEntry)
    (result : List ResolvedFileSystemEntry) : Prop :=
  ∀ r, r ∈ result ↔ Grants env cwd requested granted r ∨ Retains env cwd requested granted r

section Lines

variable {env : HostEnv} {cwd : UnixPath} {rs gr : List FileSystemSandboxEntry}
  {rl : List ResolvedFileSystemEntry} {q : AbsolutePathBuf} {e : ResolvedFileSystemEntry}

theorem covers_ne_deny (h : accessCovers first s = true) : first ≠ .deny := by
  rintro rfl
  cases s <;> cases h

theorem unreadable_deny (hu : u ∈ unreadableEntries env ⟨.restricted, rs⟩ cwd) :
    u ∈ resolvedOf env cwd rs ∧ u.access = .deny := by
  rw [unreadableEntries, mem_filter, Bool.and_eq_true, Bool.and_eq_true, beq_iff_eq] at hu
  exact ⟨hu.1, hu.2.1.1⟩

theorem tested_of_not_elsewhere (h : ¬RootElsewhere env cwd gr) (hg : g ∈ gr) :
    resolvePermissionPath env g.path cwd = placeOf env cwd g.path := by
  by_cases hr : g.path = .special .root
  · by_contra hn
    rw [hr] at hn
    exact h ⟨hn, g, hg, hr⟩
  · exact resolvePermissionPath_of_ne hr

theorem placeOf_root (hr : path = .special .root) (h : placeOf env cwd path = some p) :
    p.names = [] := by
  subst hr
  obtain ⟨-, -, rfl⟩ := Option.map_eq_some_iff.mp h
  rfl

theorem Retains.deny (h : Retains env cwd rs gr d) : d.access = .deny := by
  rcases h with ⟨-, -, -, -, hd, -⟩ | ⟨-, -, -, -, hd, -⟩ <;> exact hd

theorem Grants.mem (h : Grants env cwd rs gr e) : e ∈ resolvedOf env cwd gr := by
  obtain ⟨g, hm, hp, ha, -⟩ := h
  exact mem_resolvedOf.mpr ⟨g, hm, hp, ha⟩

theorem Grants.covered (h : Grants env cwd rs gr e) (hs : ¬RootElsewhere env cwd gr) :
    Covered env cwd rs e := by
  obtain ⟨g, hg, hp, ha, hac⟩ := h
  rw [Accepts, tested_of_not_elsewhere hs hg, hp, ha] at hac
  exact hac

section

variable (h : Intersects env cwd rs gr rl)

include h

theorem Intersects.grants (hr : e ∈ rl) (ha : e.access ≠ .deny) : Grants env cwd rs gr e := by
  rcases (h e).mp hr with hc | hd
  · exact hc
  · exact absurd hd.deny ha

theorem Intersects.retained_shorter (he : Best rl q e) (ha : e.access ≠ .deny)
    (hd : Retains env cwd rs gr d) (hab : d.path.names <+: q.names) :
    d.path.names.length < e.path.names.length := by
  apply he.length_lt ((h d).mpr (.inr hd)) hab
  rw [hd.deny]
  cases hac : e.access with
  | deny => exact absurd hac ha
  | _ => decide

variable (hs : ¬RootElsewhere env cwd gr)

include hs

section

variable (he : Best rl q e)

include he

section

variable (ha : e.access ≠ .deny)

include ha

/-- Deny entries above a path stay, if the best entry of the result for it is an access. -/
theorem Intersects.deny_shorter (hd : d ∈ resolvedOf env cwd rs ∨ d ∈ resolvedOf env cwd gr)
    (hdn : d.access = .deny) (hab : d.path.names <+: q.names) :
    d.path.names.length < e.path.names.length := by
  have hgr := h.grants he.mem ha
  have hk : ∀ s en, en ∈ s → placeOf env cwd en.path = some d.path → en.access = d.access →
      resolvePermissionPath env en.path cwd = placeOf env cwd en.path → Kept env cwd rs gr s d := by
    intro s en hm hp hac ht
    obtain ⟨g, hg, hgp, -, hga⟩ := hgr
    exact ⟨en, hm, hp, hac, hdn, d.path, ht.trans hp, g, hg, hga, e.path,
      (tested_of_not_elsewhere hs hg).trans hgp, prefix_or_prefix_of_prefix he.above hab⟩
  rcases hd with hd | hd <;> obtain ⟨en, hm, hp, hac⟩ := mem_resolvedOf.mp hd
  · by_cases hr : en.path = .special .root
    · -- a grant for the root itself would not be covered
      rw [placeOf_root hr hp]
      apply Nat.pos_of_ne_zero
      intro hz
      have heq : d.path = e.path :=
        ext_names ((placeOf_root hr hp).trans (length_eq_zero_iff.mp hz).symm)
      exact covers_ne_deny (hgr.covered hs).covers (heq ▸ accessAt_deny hd hdn)
    · have hkp := hk rs en hm hp hac (resolvePermissionPath_of_ne hr)
      exact h.retained_shorter he ha (.inl hkp) hab
  · have hkp := hk gr en hm hp hac (tested_of_not_elsewhere hs hm)
    exact h.retained_shorter he ha (.inr hkp) hab

theorem Intersects.requested_readable (hbl : e.path.names <+: p.names) (hab : p.names <+: q.names) :
    accessAt (resolvedOf env cwd rs) p ≠ .deny := by
  have hcv := ((h.grants he.mem ha).covered hs).covers
  obtain ⟨g, hg⟩ := exists_best_of_access (covers_ne_deny hcv)
  obtain ⟨f, hf⟩ := exists_best hg.mem (hg.above.trans hbl)
  rw [hf.accessAt_eq]
  intro hd
  have hlt := h.deny_shorter hs he ha (.inl hf.mem) hd (hf.above.trans hab)
  have hsh := prefix_of_prefix_length_le hf.above hbl hlt.le
  have hat := hf.between hsh hbl
  rw [hat.accessAt_eq, hd] at hcv
  exact covers_ne_deny hcv rfl

theorem Intersects.granted_readable :
    accessAt (resolvedOf env cwd gr) q ≠ .deny := by
  have hgr := (h.grants he.mem ha).mem
  obtain ⟨g, hg⟩ := exists_best hgr he.above
  rw [hg.accessAt_eq]
  intro hd
  have hlt := h.deny_shorter hs he ha (.inr hg.mem) hd hg.above
  have hle := hg.length_le hgr he.above
  omega

theorem Intersects.covered_read (hr : g.access = .read) (hbl : e.path.names <+: g.path.names)
    (hab : g.path.names <+: q.names) : Covered env cwd rs g := by
  have hc := (h.grants he.mem ha).covered hs
  refine ⟨by rw [hr]; decide, ?_, ?_⟩
  · rw [hr, accessCovers]
    exact canRead_iff.mpr (h.requested_readable hs he ha hbl hab)
  · intro u hu hun
    obtain ⟨hm, hd⟩ := unreadable_deny hu
    have hlt := h.deny_shorter hs he ha (.inl hm) hd (hun.trans hab)
    exact hc.notDenied u hu (prefix_of_prefix_length_le hun hbl hlt.le)

end

theorem Intersects.granted_write (hw : e.access = .write) :
    accessAt (resolvedOf env cwd gr) q = .write := by
  have ha : e.access ≠ .deny := by
    rw [hw]
    decide
  have hgr := (h.grants he.mem ha).mem
  have hrd := h.granted_readable hs he ha
  obtain ⟨g, hg⟩ := exists_best hgr he.above
  rw [hg.accessAt_eq] at hrd ⊢
  cases hgc : g.access with
  | write => rfl
  | deny => exact absurd hgc hrd
  | read =>
    have hl := hg.length_lt hgr he.above (by rw [hw, hgc]; decide)
    have hb := prefix_of_prefix_length_le he.above hg.above hl.le
    have hc := h.covered_read hs he ha hgc hb hg.above
    obtain ⟨en, hm, hp, hac⟩ := mem_resolvedOf.mp hg.mem
    have hgg : Grants env cwd rs gr g := by
      refine ⟨en, hm, hp, hac, ?_⟩
      rw [Accepts, (tested_of_not_elsewhere hs hm).trans hp, hac]
      exact hc
    have hle := he.length_le ((h g).mpr (.inl hgg)) hg.above
    omega

end

end

section

variable (env : HostEnv) (cwd : UnixPath) (requested granted : List FileSystemSandboxEntry)
  (q : AbsolutePathBuf)

/-- An accepted grant that reaches the path: no deny entry that is kept is in between. -/
def GrantReads : Prop :=
  ∃ e, Grants env cwd requested granted e ∧ e.path.names <+: q.names ∧
    ∀ d, Retains env cwd requested granted d → d.path.names <+: q.names →
      d.path.names.length < e.path.names.length

/-- An accepted grant to write that reaches the path: neither a deny entry that is kept nor an
accepted grant to read is in between. -/
def GrantWrites : Prop :=
  ∃ e, Grants env cwd requested granted e ∧ e.access = .write ∧ e.path.names <+: q.names ∧
    (∀ g, Grants env cwd requested granted g → g.access = .read → g.path.names <+: q.names →
      g.path.names.length ≤ e.path.names.length) ∧
    ∀ d, Retains env cwd requested granted d → d.path.names <+: q.names →
      d.path.names.length < e.path.names.length

end

variable (h : Intersects env cwd rs gr rl)

include h

theorem Intersects.reads_iff : accessAt rl q ≠ .deny ↔ GrantReads env cwd rs gr q := by
  constructor
  · intro hr
    obtain ⟨e, he⟩ := exists_best_of_access hr
    rw [he.accessAt_eq] at hr
    exact ⟨e, h.grants he.mem hr, he.above, fun d hd hab => h.retained_shorter he hr hd hab⟩
  · rintro ⟨e, hg, ha, hdn⟩
    obtain ⟨b, hb⟩ := exists_best ((h e).mpr (.inl hg)) ha
    rw [hb.accessAt_eq]
    rcases (h b).mp hb.mem with ⟨en, -, -, hac, hbv⟩ | hbd
    · exact hac ▸ hbv.ne_deny
    · have hlt := hdn b hbd hb.above
      have hle := hb.length_le ((h e).mpr (.inl hg)) ha
      omega

theorem Intersects.writes_iff : accessAt rl q = .write ↔ GrantWrites env cwd rs gr q := by
  constructor
  · intro hw
    obtain ⟨e, he, hec⟩ := exists_best_of_write hw
    have hne : e.access ≠ .deny := by
      rw [hec]
      decide
    refine ⟨e, h.grants he.mem hne, hec, he.above, ?_, ?_⟩
    · intro g hg _ hgb
      exact he.length_le ((h g).mpr (.inl hg)) hgb
    · intro d hd hdb
      exact h.retained_shorter he hne hd hdb
  · rintro ⟨e, hgr, hw, ha, hr, hdn⟩
    have hm : e ∈ rl := (h e).mpr (.inl hgr)
    obtain ⟨b, hb⟩ := exists_best hm ha
    have hne := h.reads_iff.mpr ⟨e, hgr, ha, hdn⟩
    rw [hb.accessAt_eq] at hne ⊢
    cases hbc : b.access with
    | write => rfl
    | deny => exact absurd hbc hne
    | read =>
      have hle := hr b (h.grants hb.mem hne) hbc hb.above
      have hlt := hb.length_lt hm ha (by rw [hw, hbc]; decide)
      omega

end Lines

section Main

variable {env : HostEnv} {cwd path : UnixPath} {buildGlobMatcher : Str → Except Str GlobMatcher}
  {requested granted : AdditionalPermissionProfile}

theorem mem_resolved_materialize : r ∈ resolvedOf env cwd (es.map fun entry =>
      materializeCwdDependentEntry env entry cwd) ↔ r ∈ resolvedOf env cwd es := by
  simp only [mem_resolvedOf, ← placeOf.eq_1, mem_map, exists_exists_and_eq_and,
    resolve_materialize]

theorem mem_intersectFileSystem {rs gr : FileSystemPermissions} (hr : GlobFree rs.entries)
    (hg : GlobFree gr.entries) :
    Intersects env cwd rs.entries gr.entries (resolvedOf env cwd (intersectFileSystem env m rs gr
        cwd).entries) := by
  intro r
  have ha : r ∈ resolvedOf env cwd (acceptedEntries env m rs gr.entries cwd) ↔
      Grants env cwd rs.entries gr.entries r := by
    rw [acceptedEntries, mem_resolvedOf_foldl, nil_append, mem_resolved_materialize, mem_resolvedOf,
      Grants]
    simp only [mem_filter, within_iff hr]
    constructor
    · rintro ⟨en, ⟨hm, hc⟩, hp, hac⟩
      exact ⟨en, hm, hp, hac, hc⟩
    · rintro ⟨en, hm, hp, hac, hc⟩
      exact ⟨en, ⟨hm, hc⟩, hp, hac⟩
  have hk : ∀ s, GlobFree s → (r ∈ resolvedOf env cwd (retainConstrainingDenyEntries env s
      (acceptedEntries env m rs gr.entries cwd) cwd) ↔ Kept env cwd rs.entries gr.entries s r) := by
    intro s hs
    rw [retainConstrainingDenyEntries, mem_resolved_materialize, mem_resolvedOf]
    simp only [denyEntries, mem_filter, beq_iff_eq]
    constructor
    · rintro ⟨en, ⟨⟨hm, hd⟩, hc⟩, hp, hac⟩
      exact ⟨en, hm, hp, hac, hac ▸ hd, (constrains_iff hr (hs en hm)).mp hc⟩
    · rintro ⟨en, hm, hp, hac, hd, hc⟩
      exact ⟨en, ⟨⟨hm, hac.trans hd⟩, (constrains_iff hr (hs en hm)).mpr hc⟩, hp, hac⟩
  rw [intersectFileSystem, mem_resolvedOf_foldl, resolvedOf_append, mem_append,
    mem_resolvedOf_foldl, resolvedOf_append, mem_append, ha, hk _ hr, hk _ hg, or_assoc]
  rfl

theorem accepted_nil : acceptedEntries env m ⟨[], none⟩ gr cwd = [] := by
  rw [eq_nil_iff_forall_not_mem]
  intro e he
  obtain ⟨g, -, hac, -⟩ := (mem_accepted (by nofun)).mp he
  rw [Accepts] at hac
  split at hac
  · exact covers_ne_deny hac.covers rfl
  · obtain ⟨-, d, hd, -⟩ := hac
    cases hd

theorem entries_intersect : addedEntries (some (intersectPermissionProfiles env m rs gr cwd)) =
    (intersectFileSystem env m ⟨addedEntries (some rs), none⟩ ⟨addedEntries (some gr), none⟩
      cwd).entries := by
  have hg : addedEntries (some gr) = (gr.fileSystem.getD ⟨[], none⟩).entries := by
    rw [addedEntries, Option.bind_some]
    cases gr.fileSystem <;> rfl
  rw [hg]
  cases hf : rs.fileSystem with
  | none =>
    simp [addedEntries, intersectPermissionProfiles, hf, intersectFileSystem, accepted_nil,
      retainConstrainingDenyEntries, denyEntryConstrainsAcceptedGrant]
  | some fileSystem =>
    simp only [addedEntries, intersectPermissionProfiles, hf, Option.bind_some, Option.map_some,
      Option.filter_some]
    split
    · rfl
    · rename_i he
      rw [Bool.not_eq_true, Bool.not_eq_false'] at he
      exact (isEmpty_iff.mp he).symm

section

variable (env : HostEnv) (cwd : UnixPath) (m : Str → Except Str GlobMatcher)
  (profile : AdditionalPermissionProfile) (q : AbsolutePathBuf)

def accessOf :
    FileSystemAccessMode := accessAt (resolvedOf env cwd (addedEntries (some profile))) q

def MetadataAllows : Prop :=
  (policyOf profile).hasFullDiskWriteAccess = true ∨
    metadataDeniedAt env (resolvedOf env cwd (policyOf profile).entries) q = false

/-- The accepted grants and the deny entries that are kept write everything, or leave the path out
of the metadata directories they protect. -/
def GrantsOpen (requested granted : List FileSystemSandboxEntry) (q : AbsolutePathBuf) : Prop :=
  let accepted := acceptedEntries env m ⟨requested, none⟩ granted cwd
  MetadataOpen env cwd accepted (retainConstrainingDenyEntries env requested accepted cwd ++
    retainConstrainingDenyEntries env granted accepted cwd) q

end

theorem metadataAllows_intersect :
    MetadataAllows env cwd (intersectPermissionProfiles env m rs gr cwd) q ↔
      GrantsOpen env cwd m (addedEntries (some rs)) (addedEntries (some gr)) q := by
  rw [MetadataAllows, policyOf, entries_intersect, intersectFileSystem, ← foldl_append,
    metadataDeniedAt_foldl, GrantsOpen, MetadataOpen]
  have hf : ∀ {es es' : List FileSystemSandboxEntry}, (∀ e, e ∈ es ↔ e ∈ es') →
      (FileSystemSandboxPolicy.mk .restricted es).hasFullDiskWriteAccess =
        (FileSystemSandboxPolicy.mk .restricted es').hasFullDiskWriteAccess :=
    fun hm => hasFullDiskWriteAccess_congr rfl hm
  rw [hf fun e => mem_foldl_pushEntry.trans mem_append.symm]

theorem canRead_policyOf (hq : resolveCandidatePath env path cwd = some q) :
    canReadPathWithCwd env (policyOf p) path cwd = true ↔
      accessOf env cwd p q ≠ .deny := by
  rw [canRead_restricted rfl, hq]
  simp only [Option.some_inj, exists_eq_left']
  rfl

theorem canWrite_policyOf (hq : resolveCandidatePath env path cwd = some q) :
    canWritePathWithCwd env (policyOf p) path cwd = true ↔
      accessOf env cwd p q = .write ∧ MetadataAllows env cwd p q := by
  rw [canWrite_restricted rfl, hq]
  simp only [Option.some_inj, exists_eq_left']
  rfl

section

variable (env : HostEnv) (cwd path : UnixPath) (m : Str → Except Str GlobMatcher)
  (requested granted : AdditionalPermissionProfile)

/-- The root was accepted at another path, and one of the two denies what it reaches. -/
def ReadExposed : Prop :=
  let r := addedEntries (some requested)
  let g := addedEntries (some granted)
  ∃ q, resolveCandidatePath env path cwd = some q ∧ GrantReads env cwd r g q ∧
    RootElsewhere env cwd g ∧
      (accessOf env cwd requested q = .deny ∨ accessOf env cwd granted q = .deny)

/-- An accepted grant writes where the request only reads or one of the two protects the path as
metadata, or the root was accepted at another path. -/
def WriteExposed : Prop :=
  let r := addedEntries (some requested)
  let g := addedEntries (some granted)
  ∃ q, resolveCandidatePath env path cwd = some q ∧ GrantWrites env cwd r g q ∧
    GrantsOpen env cwd m r g q ∧ (accessOf env cwd requested q = .read ∨
      ¬MetadataAllows env cwd requested q ∨ ¬MetadataAllows env cwd granted q ∨
      RootElsewhere env cwd g ∧
        (accessOf env cwd requested q = .deny ∨ accessOf env cwd granted q ≠ .write))

end

theorem writable_of_not_exposed (hq : resolveCandidatePath env path cwd = some q)
    (hi : Intersects env cwd (addedEntries (some requested)) (addedEntries (some granted))
      (resolvedOf env cwd (addedEntries (some result))))
    (hn : ¬WriteExposed env cwd path m requested granted) (hw : accessOf env cwd result q = .write)
    (ho : GrantsOpen env cwd m (addedEntries (some requested)) (addedEntries (some granted)) q) :
    (accessOf env cwd requested q = .write ∧ MetadataAllows env cwd requested q) ∧
      accessOf env cwd granted q = .write ∧ MetadataAllows env cwd granted q := by
  have hk := fun hc => hn ⟨q, hq, hi.writes_iff.mp hw, ho, hc⟩
  simp only [imp_false, not_or, not_and, not_not] at hk
  obtain ⟨hr, hrm, hgm, hel⟩ := hk
  have hac : accessOf env cwd requested q ≠ .deny ∧ accessOf env cwd granted q = .write := by
    by_cases hs : RootElsewhere env cwd (addedEntries (some granted))
    · exact hel hs
    · obtain ⟨e, he, hec⟩ := exists_best_of_write hw
      have ha : e.access ≠ .deny := by
        rw [hec]
        decide
      exact ⟨hi.requested_readable hs he ha he.above prefix_rfl, hi.granted_write hs he hec⟩
  refine ⟨⟨?_, hrm⟩, hac.2, hgm⟩
  cases hra : accessOf env cwd requested q with
  | write => rfl
  | read => exact absurd hra hr
  | deny => exact absurd hra hac.1

def filesOnly (entries : List FileSystemSandboxEntry) : AdditionalPermissionProfile :=
  ⟨none, some ⟨entries, none⟩⟩

def noGlobs : Str → Except Str GlobMatcher := fun _ => .error []

end Main

end PermissionIntersection
