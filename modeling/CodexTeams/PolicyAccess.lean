import CodexTeams.DenyRead

/-! What a policy lets be read and written: the access at a path is that of the best entry above it.
-/
namespace PolicyAccess

open RustIter Paths SandboxPolicy WritableRoots DenyRead FileSystemSandboxPolicy

def canReadPathWithCwd (env : HostEnv) (policy : FileSystemSandboxPolicy) (path cwd : UnixPath) :
    Bool := (resolveAccessWithCwd env policy path cwd).canRead

def resolvedOf (env : HostEnv) (cwd : UnixPath) (entries : List FileSystemSandboxEntry) :
    List ResolvedFileSystemEntry := resolvedEntriesWithCwd env ⟨.restricted, entries⟩ cwd

theorem accessAt_congr (h : ∀ f, f ∈ es ↔ f ∈ o) (p : AbsolutePathBuf) :
    accessAt es p = accessAt o p := by
  have hbc : ∀ {l l' : List ResolvedFileSystemEntry}, (∀ f, f ∈ l ↔ f ∈ l') →
      accessAt l p ≠ .deny → accessAt l' p = accessAt l p := by
    intro l l' hs hd
    obtain ⟨b, hb⟩ := exists_best_of_access hd
    have hb' : Best l' p b := hb.of_subset ((hs b).mp hb.mem) fun f hf => (hs f).mpr hf
    rw [hb.accessAt_eq, hb'.accessAt_eq]
  by_cases hd : accessAt es p = .deny
  · by_cases hd' : accessAt o p = .deny
    · rw [hd, hd']
    · exact hbc (fun f => (h f).symm) hd'
  · exact (hbc h hd).symm

section Policies

variable {pl : FileSystemSandboxPolicy}

theorem mem_resolvedOf : e ∈ resolvedOf env cwd es ↔ ∃ en ∈ es,
      resolveEntryPath env en.path (AbsolutePathBuf.fromAbsolutePath env.toProcessEnv cwd) =
        some e.path ∧ en.access = e.access := mem_resolvedEntries

theorem resolvedOf_append (first second : List FileSystemSandboxEntry) :
    resolvedOf env cwd (first ++ second) =
      resolvedOf env cwd first ++ resolvedOf env cwd second := List.filterMap_append

theorem canRead_iff {a : FileSystemAccessMode} : a.canRead = true ↔ a ≠ .deny := by
  cases a <;> simp [FileSystemAccessMode.canRead]

theorem canRead_restricted (hk : pl.kind = .restricted) :
    canReadPathWithCwd env pl p cwd = true ↔ ∃ q, resolveCandidatePath env p cwd = some q ∧
        accessAt (resolvedOf env cwd pl.entries) q ≠ .deny := by
  simp only [canReadPathWithCwd, resolveAccessWithCwd, hk, canRead_iff]
  cases resolveCandidatePath env p cwd with
  | none => simp
  | some q => simp [resolvedOf, resolvedEntriesWithCwd]

/-- Outside metadata directories access is all it takes; in them, an entry inside or write access
to everything. -/
def WritableAt (env : HostEnv) (cwd : UnixPath) (policy : FileSystemSandboxPolicy)
    (q : AbsolutePathBuf) : Prop :=
  accessAt (resolvedOf env cwd policy.entries) q = .write ∧ (policy.hasFullDiskWriteAccess = true ∨
      metadataDeniedAt env (resolvedOf env cwd policy.entries) q = false)

theorem canWrite_restricted (hk : pl.kind = .restricted) : canWritePathWithCwd env pl p cwd = true ↔
      ∃ q, resolveCandidatePath env p cwd = some q ∧ WritableAt env cwd pl q := by
  have hr : resolvedEntriesWithCwd env pl cwd = resolvedOf env cwd pl.entries := rfl
  simp only [canWritePathWithCwd, resolveAccessWithCwd, isMetadataWriteDenied, hk, hr]
  cases resolveCandidatePath env p cwd with
  | none => simp [FileSystemAccessMode.canWrite]
  | some q =>
    simp only [Option.some_inj, exists_eq_left', WritableAt, ← canWrite_iff]
    cases (accessAt (resolvedOf env cwd pl.entries) q).canWrite with
    | false => simp
    | true =>
      cases pl.hasFullDiskWriteAccess <;> simp

theorem hasFullDiskWriteAccess_congr {o : FileSystemSandboxPolicy}
    (hk : pl.kind = o.kind) (h : ∀ e, e ∈ pl.entries ↔ e ∈ o.entries) :
    pl.hasFullDiskWriteAccess = o.hasFullDiskWriteAccess := by
  have ha : ∀ test : FileSystemSandboxEntry → Bool, pl.entries.any test = o.entries.any test := by
    intro test
    rw [Bool.eq_iff_iff]
    simp [h]
  have ho : pl.hasSameTargetWriteOverride = o.hasSameTargetWriteOverride := by
    funext entry
    exact ha _
  simp [hasFullDiskWriteAccess, hasRootAccess, hasWriteNarrowingEntries, hk, ha, ho]

end Policies

end PolicyAccess
