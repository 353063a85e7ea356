import CodexTeams.MountEnforcement

/-! Policies that are reported to give the same access.
The full-disk flags look at the entries as they are written, and the roots are left out where a
flag is set. -/
namespace PolicyEquivalence

open Paths SandboxPolicy WritableRoots PolicyAccess Bubblewrap
  MountEnforcement List
open AbsolutePathBuf
open FileSystemSandboxPolicy

def slashTmp : AbsolutePathBuf := .ofParts ["tmp"]

/-- An entry that lets `/tmp` be read only is made up for by one that lets it be written. -/
def TmpCovered (env : HostEnv) (entries : List FileSystemSandboxEntry) (cwd : UnixPath) : Prop :=
  ⟨.path slashTmp, .read⟩ ∈ entries →
    ∃ entry ∈ resolvedOf env cwd entries, entry.path = slashTmp ∧ entry.access = .write

section Flags

variable {q : AbsolutePathBuf}

theorem root_best (hc : AbsolutePathBuf.fromAbsolutePath env.toProcessEnv cwd = some c)
    (h : FileSystemSandboxPolicy.hasRootAccess ⟨.restricted, es⟩ p = true) (q : AbsolutePathBuf) :
    (∃ r ∈ resolvedOf env cwd es, r.path = rootPath ∧ p r.access = true) ∧
      ∃ b, Best (resolvedOf env cwd es) q b := by
  simp only [hasRootAccess, beq_self_eq_true, Bool.true_and, any_eq_true,
    Bool.and_eq_true, beq_iff_eq] at h
  obtain ⟨e, he, hp, ha⟩ := h
  have hm : ⟨rootPath, e.access⟩ ∈ resolvedOf env cwd es :=
    mem_resolvedOf.mpr ⟨e, he, by rw [hp, hc]; rfl, rfl⟩
  exact ⟨⟨_, hm, rfl, ha⟩, exists_best hm (List.nil_prefix ..)⟩

theorem names_of_parent (h : q.parent.isNone = true) : q = rootPath := by
  unfold parent at h
  split at h
  · next hn => exact ext_names hn
  · cases h

/-- Paths with one target stand for one path; only `/tmp` as a special path may stand for none. -/
theorem share_resolves (h : fileSystemPathsShareTarget x y = true)
    (hy : resolveEntryPath env y (some c) = some q) :
    resolveEntryPath env x (some c) = some q ∨ y = .path slashTmp ∧ q = slashTmp := by
  cases x with
  | path p =>
    cases y with
    | path r => exact .inl (by rwa [show p = r by simpa [fileSystemPathsShareTarget] using h])
    | globPattern => cases h
    | special v =>
      cases v with
      | root =>
        cases hy
        rw [names_of_parent h]
        exact .inl rfl
      | slashTmp =>
        have hp : p = slashTmp := ext_names (beq_iff_eq.mp h)
        simp only [resolveEntryPath, resolveFileSystemSpecialPath,
          Option.ite_none_right_eq_some] at hy
        exact .inl (by rw [hp, ← hy.2]; rfl)
      | _ => cases h
  | globPattern => cases y <;> first | cases h | cases hy
  | special v =>
    cases y with
    | path r =>
      cases v with
      | root =>
        cases hy
        rw [names_of_parent h]
        exact .inl rfl
      | slashTmp =>
        have hr : r = slashTmp := ext_names (beq_iff_eq.mp h)
        cases hy
        exact .inr ⟨by rw [hr], hr⟩
      | _ => cases h
    | globPattern => cases h
    | special w =>
      have hv : v = w := by
        cases v <;> cases w <;> simp_all [fileSystemPathsShareTarget, specialPathsShareTarget]
      exact .inl (hv ▸ hy)

/-- With the flag for writing set, every path may be written, but for `/tmp`. -/
theorem accessAt_fullWrite (hc : AbsolutePathBuf.fromAbsolutePath env.toProcessEnv cwd = some c)
    (hf : FileSystemSandboxPolicy.hasFullDiskWriteAccess ⟨.restricted, es⟩ = true)
    (ht : TmpCovered env es cwd) (q : AbsolutePathBuf) :
    accessAt (resolvedOf env cwd es) q = .write := by
  simp only [hasFullDiskWriteAccess, Bool.and_eq_true, Bool.not_eq_true'] at hf
  obtain ⟨⟨r, hr, hrp, hrw⟩, b, hb⟩ := root_best hc hf.1 q
  rw [hb.accessAt_eq]
  by_contra hbw
  obtain ⟨e, he, hp, ha⟩ := mem_resolvedOf.mp hb.mem
  rw [hc] at hp
  -- an entry at the same path may be written, and this one is not denied
  suffices hs : (∃ f ∈ resolvedOf env cwd es, f.path = b.path ∧ f.access = .write) ∧
      b.access ≠ .deny by
    obtain ⟨⟨f, hf, hfp, hfw⟩, hd⟩ := hs
    exact hd (Best.not_beaten hb hf hfp hfw hbw)
  have hn := any_eq_false.mp hf.2 e he
  rw [show e.access.canWrite = false from
    Bool.eq_false_iff.mpr fun h => hbw (ha ▸ canWrite_iff.mp h)] at hn
  by_cases hroot : e.path = .special .root
  · rw [hroot] at hn hp
    exact ⟨⟨r, hr, hrp.trans (Option.some.inj hp), canWrite_iff.mp hrw⟩,
      fun hd => hn (by rw [ha, hd]; rfl)⟩
  · have ho : hasSameTargetWriteOverride ⟨.restricted, es⟩ e = true := by
      cases hep : e.path with
      | path p => simpa [hep] using hn
      | globPattern => simp [hep] at hn
      | special v =>
        rw [hep] at hn hp hroot
        cases v with
        | root => exact absurd rfl hroot
        | minimal => cases hp
        | unknown => cases hp
        | _ => simpa using hn
    simp only [hasSameTargetWriteOverride, any_eq_true, Bool.and_eq_true, canWrite_iff] at ho
    obtain ⟨x, hx, ⟨hxw, hgt⟩, hsh⟩ := ho
    rw [hxw, ha] at hgt
    have hd : b.access = .read := by
      cases hba : b.access with
      | read => rfl
      | write => exact absurd hba hbw
      | deny => rw [hba] at hgt; exact absurd hgt (by decide)
    refine ⟨?_, by rw [hd]; decide⟩
    rcases share_resolves hsh hp with hxp | ⟨hep, hbp⟩
    · exact ⟨⟨b.path, .write⟩, mem_resolvedOf.mpr ⟨x, hx, by rw [hc]; exact hxp, hxw⟩, rfl, rfl⟩
    · rw [hbp]
      exact ht (by rw [← hep, ← hd, ← ha]; exact he)

theorem accessAt_fullRead (hc : AbsolutePathBuf.fromAbsolutePath env.toProcessEnv cwd = some c)
    (hf : hasFullDiskReadAccess ⟨.restricted, es⟩ = true) (q : AbsolutePathBuf) :
    accessAt (resolvedOf env cwd es) q ≠ .deny := by
  obtain ⟨-, b, hb⟩ := root_best hc (Bool.and_eq_true_iff.mp hf).1 q
  rw [hb.accessAt_eq]
  exact no_deny_of_fullRead rfl hf b hb.mem

/-- The flag for reading is sound. The one for writing is, unless `/tmp` may be read only and the
entry that overrides this stands for nothing, as `/tmp` is no directory. -/
theorem full_disk_flags_iff (env : HostEnv) (entries : List FileSystemSandboxEntry)
    {cwd : UnixPath} (hcwd : cwd.absolute = true) :
    (hasFullDiskReadAccess ⟨.restricted, entries⟩ = true → ∀ path : UnixPath,
        path.absolute = true → canReadPathWithCwd env ⟨.restricted, entries⟩ path cwd = true) ∧
      (FileSystemSandboxPolicy.hasFullDiskWriteAccess ⟨.restricted, entries⟩ = true →
        ((∀ path : UnixPath, path.absolute = true →
            resolveAccessWithCwd env ⟨.restricted, entries⟩ path cwd = .write) ↔
          TmpCovered env entries cwd)) := by
  have hc := fromAbsolutePath_absolute env.toProcessEnv hcwd
  have hp : ∀ path : UnixPath, path.absolute = true →
      ∃ q, resolveCandidatePath env path cwd = some q := by
    intro path h
    rw [resolveCandidatePath, if_pos h]
    exact ⟨_, fromAbsolutePath_absolute _ h⟩
  refine ⟨fun hf path h => ?_, fun hf => ⟨fun h hm => ?_, fun ht path h => ?_⟩⟩
  · obtain ⟨q, hq⟩ := hp path h
    exact (canRead_restricted rfl).mpr ⟨q, hq, accessAt_fullRead hc hf q⟩
  · have ha := h slashTmp.asPath rfl
    simp only [resolveAccessWithCwd, resolveCandidatePath_asPath] at ha
    have hr : ⟨slashTmp, .read⟩ ∈ resolvedOf env cwd entries := mem_resolvedOf.mpr ⟨_, hm, rfl, rfl⟩
    exact ((accessAt_entry_iff hr).mp ha).1
  · obtain ⟨q, hq⟩ := hp path h
    simp only [resolveAccessWithCwd, hq]
    exact accessAt_fullWrite hc hf ht q

end Flags

def rootWritable : FileSystemSandboxEntry := ⟨.special .root, .write⟩

def tmpReadable : FileSystemSandboxEntry := ⟨.path slashTmp, .read⟩

theorem full_disk_flags_root : resolveAccessWithCwd bareHost ⟨.restricted, [rootWritable]⟩
    ⟨true, ["tmp"]⟩ ⟨true, []⟩ = .write :=
  ((full_disk_flags_iff bareHost [rootWritable] rfl).2 rfl).mpr
    (fun h => absurd h (by decide)) _ rfl

/-- Without the directory `/tmp` its special path gives no access. -/
theorem full_disk_flag_unsound :
    let policy : FileSystemSandboxPolicy :=
      ⟨.restricted, [rootWritable, tmpReadable, ⟨.special .slashTmp, .write⟩]⟩
    policy.hasFullDiskWriteAccess = true ∧
      resolveAccessWithCwd bareHost policy ⟨true, ["tmp", "x"]⟩ ⟨true, []⟩ = .read := by
  decide

end PolicyEquivalence
