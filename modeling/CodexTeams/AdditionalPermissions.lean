import CodexTeams.PolicyAccess
import Mathlib.Data.PNat.Basic

/-! Additional permissions, which a command asks for on top of the policy of its session. As the
most specific entry decides, an added entry can also take access away. -/
namespace AdditionalPermissions

open RustStr Paths SandboxPolicy WritableRoots DenyRead PolicyAccess List

structure FileSystemPermissions where
  entries : List FileSystemSandboxEntry
  globScanMaxDepth : Option ℕ+

def FileSystemPermissions.isEmpty (permissions : FileSystemPermissions) : Bool :=
  permissions.entries.isEmpty

structure NetworkPermissions where
  enabled : Option Bool
  deriving DecidableEq, Repr

structure AdditionalPermissionProfile where
  network : Option NetworkPermissions
  fileSystem : Option FileSystemPermissions

inductive GlobScanDepth
  | bounded (depth : ℕ)
  | unbounded
  deriving Repr

def effectiveGlobScanDepth (entries : List FileSystemSandboxEntry) (depth : Option ℕ) :
    Option GlobScanDepth :=
  let hasDenyGlob := entries.any fun entry =>
    entry.access == .deny && match entry.path with
      | .globPattern _ => true
      | _ => false
  if hasDenyGlob then
    match depth with
    | some depth => some (.bounded depth)
    | none => some .unbounded
  else none

def mergeGlobScanMaxDepth (leftEntries : List FileSystemSandboxEntry) (leftDepth : Option ℕ)
    (rightEntries : List FileSystemSandboxEntry) (rightDepth : Option ℕ) : Option ℕ :=
  match effectiveGlobScanDepth leftEntries leftDepth,
      effectiveGlobScanDepth rightEntries rightDepth with
  | some .unbounded, _ | _, some .unbounded => none
  | some (.bounded left), some (.bounded right) => some (max left right)
  | some (.bounded depth), none | none, some (.bounded depth) => some depth
  | none, none => none

variable (policy : GlobScanPolicy)

def mergeFileSystemPolicyWithAdditionalPermissions
    (additional : FileSystemPermissions) : GlobScanPolicy :=
  match policy.kind with
  | .restricted =>
    { kind := policy.kind
      entries := additional.entries.foldl pushEntry policy.entries
      globScanMaxDepth := mergeGlobScanMaxDepth policy.entries policy.globScanMaxDepth
        additional.entries (additional.globScanMaxDepth.map PNat.val) }
  | .unrestricted | .externalSandbox => policy

variable (additional : Option AdditionalPermissionProfile)

def effectiveFileSystemSandboxPolicy : GlobScanPolicy :=
  match additional with
  | none => policy
  | some additional =>
    match additional.fileSystem with
    | none => policy
    | some permissions =>
      if permissions.isEmpty then policy
      else mergeFileSystemPolicyWithAdditionalPermissions policy permissions

def addedEntries : List FileSystemSandboxEntry :=
  ((additional.bind (·.fileSystem)).map (·.entries)).getD []

theorem effective_open (hk : p.kind ≠ .restricted) : effectiveFileSystemSandboxPolicy p ad = p := by
  have hm : ∀ ps, mergeFileSystemPolicyWithAdditionalPermissions p ps = p := by
    intro ps
    cases hp : p.kind with
    | restricted => exact absurd hp hk
    | _ => simp [mergeFileSystemPolicyWithAdditionalPermissions, hp]
  cases ad with
  | none => rfl
  | some ad =>
    simp only [effectiveFileSystemSandboxPolicy]
    split
    · rfl
    · rw [hm, ite_self]

theorem effective_restricted (hk : p.kind = .restricted) :
    (effectiveFileSystemSandboxPolicy p ad).kind = .restricted ∧
      (effectiveFileSystemSandboxPolicy p ad).entries =
        (addedEntries ad).foldl pushEntry p.entries := by
  cases ad with
  | none => exact ⟨hk, rfl⟩
  | some ad =>
    simp only [effectiveFileSystemSandboxPolicy, addedEntries, Option.bind_some]
    cases ad.fileSystem with
    | none => exact ⟨hk, rfl⟩
    | some ps =>
      simp only [Option.map_some, Option.getD_some]
      by_cases he : ps.isEmpty = true
      · rw [if_pos he]
        have hn : ps.entries = [] := isEmpty_iff.mp he
        exact ⟨hk, by rw [hn]; rfl⟩
      · rw [if_neg he, mergeFileSystemPolicyWithAdditionalPermissions]
        simp only [hk]
        exact ⟨trivial, trivial⟩

theorem metadataChild_append (first s : List ResolvedFileSystemEntry) (q : AbsolutePathBuf) :
    metadataChildOfWritableRoot env (first ++ s) q =
      (metadataChildOfWritableRoot env first q).or (metadataChildOfWritableRoot env s q) := by
  rw [metadataChildOfWritableRoot, filter_append, List.findSome?_append]
  rfl

theorem metadataChild_none_of_subset (hs : s ⊆ first)
    (h : metadataChildOfWritableRoot env first q = none) :
    metadataChildOfWritableRoot env s q = none := by
  rw [metadataChildOfWritableRoot, List.findSome?_eq_none_iff] at h ⊢
  intro e he
  obtain ⟨hm, hw⟩ := mem_filter.mp he
  exact h e (mem_filter.mpr ⟨hs hm, hw⟩)

theorem metadataChild_foldl_pushEntry (a entries : List FileSystemSandboxEntry)
    (q : AbsolutePathBuf) :
    metadataChildOfWritableRoot env (resolvedOf env cwd (a.foldl pushEntry entries)) q =
      metadataChildOfWritableRoot env (resolvedOf env cwd (entries ++ a)) q := by
  induction a generalizing entries with
  | nil => rw [foldl_nil, append_nil]
  | cons en a ih =>
    rw [foldl_cons, ih, pushEntry]
    split
    · rename_i hm
      have hs : resolvedOf env cwd [en] ⊆ resolvedOf env cwd entries := by
        intro e he
        obtain ⟨f, hf, hr⟩ := mem_resolvedOf.mp he
        rw [mem_singleton.mp hf] at hr
        exact mem_resolvedOf.mpr ⟨en, contains_iff_mem.mp hm, hr⟩
      rw [append_cons]
      simp only [resolvedOf_append, metadataChild_append]
      cases hf : metadataChildOfWritableRoot env (resolvedOf env cwd entries) q with
      | some f => rfl
      | none =>
        rw [metadataChild_none_of_subset hs hf]
        rfl
    · rw [append_assoc, singleton_append]

theorem hasExplicitWrite_congr (h : ∀ e, e ∈ first ↔ e ∈ s) (mp q : AbsolutePathBuf) :
    hasExplicitWriteEntryForMetadataPath first mp q =
      hasExplicitWriteEntryForMetadataPath s mp q := by
  rw [Bool.eq_iff_iff, hasExplicitWriteEntryForMetadataPath, hasExplicitWriteEntryForMetadataPath]
  simp [h]

section

variable (a es : List FileSystemSandboxEntry)

theorem mem_resolvedOf_foldl (e : ResolvedFileSystemEntry) :
    e ∈ resolvedOf env cwd (a.foldl pushEntry es) ↔ e ∈ resolvedOf env cwd (es ++ a) := by
  simp [mem_resolvedOf, mem_foldl_pushEntry]

theorem metadataDeniedAt_foldl (q : AbsolutePathBuf) :
    metadataDeniedAt env (resolvedOf env cwd (a.foldl pushEntry es)) q =
      metadataDeniedAt env (resolvedOf env cwd (es ++ a)) q := by
  rw [metadataDeniedAt, metadataDeniedAt, metadataChild_foldl_pushEntry]
  cases metadataChildOfWritableRoot env (resolvedOf env cwd (es ++ a)) q with
  | none => rfl
  | some c =>
    obtain ⟨mp, n⟩ := c
    have hs : ∀ e, e ∈ resolvedOf env cwd (a.foldl pushEntry es) ↔
        e ∈ resolvedOf env cwd (es ++ a) := mem_resolvedOf_foldl a es
    simp [hasExplicitWrite_congr hs mp q]

end

section Keeps

variable {env : HostEnv} {cwd path : UnixPath} {policy : GlobScanPolicy}
  {additional : Option AdditionalPermissionProfile}

section

variable (env : HostEnv)

/-- An added read entry above the path that is more specific than every writable entry there. -/
def Shadowed (cwd : UnixPath) (base added : List FileSystemSandboxEntry)
    (q : AbsolutePathBuf) : Prop :=
  ∃ d ∈ resolvedOf env cwd added, d.access = .read ∧ d.path.names <+: q.names ∧
    ∀ w ∈ resolvedOf env cwd (base ++ added), w.access = .write → w.path.names <+: q.names →
      w.path.names.length < d.path.names.length

/-- Both lists of entries together write everything, or leave the path out of the metadata
directories they protect. -/
def MetadataOpen (cwd : UnixPath) (base added : List FileSystemSandboxEntry)
    (q : AbsolutePathBuf) : Prop :=
  (FileSystemSandboxPolicy.mk .restricted (base ++ added)).hasFullDiskWriteAccess = true ∨
    metadataDeniedAt env (resolvedOf env cwd (base ++ added)) q = false

/-- What a path that is writable needs to stay so under a restricted policy. -/
def StaysWritable (policy : FileSystemSandboxPolicy)
    (added : List FileSystemSandboxEntry) (path cwd : UnixPath) : Prop :=
  policy.kind = .restricted → ∀ q, resolveCandidatePath env path cwd = some q →
    ¬Shadowed env cwd policy.entries added q ∧ MetadataOpen env cwd policy.entries added q

end

theorem no_deny_resolved (hdn : ∀ en ∈ a, en.access ≠ .deny) (hd : d ∈ resolvedOf env cwd a) :
    d.access ≠ .deny := by
  obtain ⟨en, he, -, ha⟩ := mem_resolvedOf.mp hd
  rw [← ha]
  exact hdn en he

theorem accessAt_append_ne_deny (ha : ∀ d ∈ a, d.access ≠ .deny) (h : accessAt bs q ≠ .deny) :
    accessAt (bs ++ a) q ≠ .deny := by
  obtain ⟨e, he⟩ := exists_best_of_access h
  obtain ⟨b, hb⟩ := exists_best (mem_append_left a he.mem) he.above
  rw [hb.accessAt_eq]
  rcases mem_append.mp hb.mem with hm | hm
  · have hbs : Best bs q b := hb.of_subset hm (subset_append_left bs a)
    rwa [← hbs.accessAt_eq]
  · exact ha b hm

theorem accessAt_append_write_iff (had : ∀ d ∈ a, d.access ≠ .deny) (h : accessAt bs q = .write) :
    accessAt (bs ++ a) q = .write ↔ ¬∃ d ∈ a, d.access = .read ∧ d.path.names <+: q.names ∧
        ∀ w ∈ bs ++ a, w.access = .write → w.path.names <+: q.names →
          w.path.names.length < d.path.names.length := by
  obtain ⟨e, he, hwr⟩ := exists_best_of_write h
  obtain ⟨b, hb⟩ := exists_best (mem_append_left a he.mem) he.above
  rw [hb.accessAt_eq]
  constructor
  · rintro hbw ⟨d, hd, -, ha, hl⟩
    have hlt := hl b hb.mem hbw hb.above
    have hle := hb.length_le (mem_append_right bs hd) ha
    omega
  · intro hnn
    by_contra hn
    rcases mem_append.mp hb.mem with hm | hm
    · have hbs : Best bs q b := hb.of_subset hm (subset_append_left bs a)
      rw [← hbs.accessAt_eq, h] at hn
      exact hn rfl
    · have hr : b.access = .read := by
        cases hb : b.access with
        | read => rfl
        | write => exact absurd hb hn
        | deny => exact absurd hb (had b hm)
      refine hnn ⟨b, hm, hr, hb.above, ?_⟩
      intro w hw hww hwb
      exact hb.length_lt hw hwb (by rw [hww, hr]; decide)

/-- Reads are always kept. What was writable stays writable exactly where no added read entry is
in front and the metadata directories of all entries together leave the path open. -/
theorem effective_keeps (hdeny : ∀ entry ∈ addedEntries additional, entry.access ≠ .deny) :
    let effective := effectiveFileSystemSandboxPolicy policy additional
    (canReadPathWithCwd env policy.toFileSystemSandboxPolicy path cwd = true →
      canReadPathWithCwd env effective.toFileSystemSandboxPolicy path cwd = true) ∧
    (canWritePathWithCwd env policy.toFileSystemSandboxPolicy path cwd = true →
      (canWritePathWithCwd env effective.toFileSystemSandboxPolicy path cwd = true ↔
        StaysWritable env policy.toFileSystemSandboxPolicy (addedEntries additional) path
          cwd)) := by
  intro effective
  have ho : policy.kind ≠ .restricted → effective = policy := effective_open
  have hr : policy.kind = .restricted → effective.kind = .restricted ∧
      effective.entries = (addedEntries additional).foldl pushEntry policy.entries :=
    effective_restricted
  clear_value effective
  by_cases hk : policy.kind = .restricted
  · obtain ⟨hk', he⟩ := hr hk
    have hsm : ∀ e, e ∈ resolvedOf env cwd effective.entries ↔
        e ∈ resolvedOf env cwd policy.entries ++ resolvedOf env cwd (addedEntries additional) := by
      intro e
      rw [he, mem_resolvedOf_foldl, resolvedOf_append]
    have ha := accessAt_congr hsm
    have had : ∀ d ∈ resolvedOf env cwd (addedEntries additional), d.access ≠ .deny :=
      fun d hd => no_deny_resolved hdeny hd
    constructor
    · intro hrd
      obtain ⟨q, hq, hne⟩ := (canRead_restricted hk).mp hrd
      refine (canRead_restricted hk').mpr ⟨q, hq, ?_⟩
      rw [ha]
      exact accessAt_append_ne_deny had hne
    · intro hw
      obtain ⟨q, hq, hb, -⟩ := (canWrite_restricted hk).mp hw
      have hf : effective.hasFullDiskWriteAccess = (FileSystemSandboxPolicy.mk .restricted
          (policy.entries ++ addedEntries additional)).hasFullDiskWriteAccess := by
        apply hasFullDiskWriteAccess_congr hk'
        intro e
        rw [he, mem_foldl_pushEntry, mem_append]
      have hm : metadataDeniedAt env (resolvedOf env cwd effective.entries) q = metadataDeniedAt env
            (resolvedOf env cwd (policy.entries ++ addedEntries additional)) q := by
        rw [he, metadataDeniedAt_foldl]
      have hs := accessAt_append_write_iff had hb
      rw [← resolvedOf_append] at hs ha
      rw [canWrite_restricted hk', hq]
      simp only [Option.some_inj, exists_eq_left', WritableAt, ha, hs, hf, hm,
        StaysWritable, hk, hq, forall_eq', forall_const, Shadowed, MetadataOpen]
  · rw [ho hk]
    refine ⟨id, ?_⟩
    intro hw
    constructor
    · intro _ hr
      exact absurd hr hk
    · intro _
      exact hw

def dirEntry (names : List Str) (access : FileSystemAccessMode) : FileSystemSandboxEntry :=
  ⟨.path (.ofParts names), access⟩

def asksFor (entries : List FileSystemSandboxEntry) : Option AdditionalPermissionProfile :=
  some ⟨none, some ⟨entries, none⟩⟩

def workPolicy : GlobScanPolicy := .restricted [dirEntry ["work"] .write]

def workFile : UnixPath := ⟨true, ["work", "docs", "notes"]⟩

theorem effective_keeps_work :
    let additional := asksFor [dirEntry ["extra"] .write]
    let e := effectiveFileSystemSandboxPolicy workPolicy additional
    canWritePathWithCwd bareHost workPolicy.toFileSystemSandboxPolicy workFile ⟨true, []⟩ = true ∧
      canWritePathWithCwd bareHost e.toFileSystemSandboxPolicy workFile ⟨true, []⟩ = true := by
  intro additional e
  have hw : canWritePathWithCwd bareHost workPolicy.toFileSystemSandboxPolicy workFile
      ⟨true, []⟩ = true := by decide +kernel
  have hdn : ∀ en ∈ addedEntries additional, en.access ≠ .deny := by
    intro en he
    rw [mem_singleton.mp he]
    decide
  refine ⟨hw, ((effective_keeps hdn).2 hw).mpr ?_⟩
  intro _ q hq
  have hr : resolveCandidatePath bareHost workFile ⟨true, []⟩ =
      some (.ofParts workFile.parts) := by decide +kernel
  cases hr.symm.trans hq
  constructor
  · rintro ⟨d, hd, hrd, -⟩
    obtain ⟨en, he, -, ha⟩ := mem_resolvedOf.mp hd
    rw [mem_singleton.mp he, hrd] at ha
    cases ha
  · right
    decide +kernel

/-- Asking to read a directory below a writable one makes it read-only. -/
theorem read_request_takes_write_away :
    let additional := asksFor [dirEntry ["work", "docs"] .read]
    let e := effectiveFileSystemSandboxPolicy workPolicy additional
    (addedEntries additional).all (fun en => en.access != .deny) = true ∧
      canWritePathWithCwd bareHost workPolicy.toFileSystemSandboxPolicy workFile ⟨true, []⟩ = true ∧
      canWritePathWithCwd bareHost e.toFileSystemSandboxPolicy workFile ⟨true, []⟩ = false := by
  decide +kernel

end Keeps

end AdditionalPermissions
