import CodexTeams.Bubblewrap
import CodexTeams.PolicyAccess

/-! What a mount plan shows at an existing path: the roots at or above the path, the paths that a
root keeps read-only by default, which may lie elsewhere, and the denied paths. -/
namespace MountPlan

open RustStr RustIter StableSort Paths SandboxPolicy WritableRoots DenyRead Layers List
  Bubblewrap
open AbsolutePathBuf

section Arguments

variable {p q : AbsolutePathBuf}

@[simp] theorem append_args (first s : BwrapArgs) : (first ++ s).args = first.args ++ s.args := rfl

@[simp] theorem ofArgs_args (args : List BwrapArg) : (BwrapArgs.ofArgs args).args = args := rfl

@[simp] theorem layersOf_append (first second : List BwrapArg) :
    layersOf (first ++ second) = layersOf first ++ layersOf second := filterMap_append

theorem layersOf_concat (f : im → BwrapArgs) (its : List im) :
    layersOf (BwrapArgs.concat (its.map f)).args = its.flatMap fun i => layersOf (f i).args := by
  induction its with
  | nil => rfl
  | cons i its ih =>
    rw [flatMap_cons, ← ih]
    exact layersOf_append (f i).args _

theorem layersOf_parentDirs (a mt : AbsolutePathBuf) :
    layersOf (appendMountTargetParentDirArgs host a mt) = [] := by
  rw [layersOf, filterMap_eq_nil_iff]
  intro arg ha
  simp only [appendMountTargetParentDirArgs] at ha
  split at ha
  · cases ha
  · obtain ⟨dir, _, rfl⟩ := mem_map.mp ha
    rfl

theorem layersOf_maskedParentDirs (ins : Inputs) (rt : AbsolutePathBuf) :
    layersOf (maskedParentDirArgs host ins rt) = [] := by
  rw [maskedParentDirArgs]
  split
  · exact layersOf_parentDirs _ _
  · rfl

theorem layersOf_unreadableRoot (hq : pathExists host q = true) :
    layersOf (appendUnreadableRootArgs host al q).args = [⟨q.names, .hidden⟩] := by
  rw [appendUnreadableRootArgs, if_neg (by simp [hq]), appendExistingUnreadablePathArgs]
  split
  · have hd : ∀ ps : List AbsolutePathBuf,
        layersOf (ps.flatMap (appendMountTargetParentDirArgs host q)) = [] := by
      intro ps
      rw [layersOf, filterMap_flatMap, flatMap_eq_nil_iff]
      exact fun pt _ => layersOf_parentDirs q pt
    rw [ofArgs_args, layersOf_append, layersOf_append, hd]
    rfl
  · rfl

def shown (host : SandboxHost) (d : AbsolutePathBuf) : View :=
  if (transientEmptyMetadataPath host d).isSome then .hidden else .readOnly

theorem shown_ne_writable : shown host d ≠ .writable := by
  unfold shown
  split <;> simp

/-- Whatever is at a path has directories above it. -/
def Rooted (host : SandboxHost) : Prop :=
  ∀ p q : AbsolutePathBuf, q.names <+: p.names → pathExists host p = true → pathExists host q = true

theorem top_missingComponent (hr : Rooted host) (hp : pathExists host p = true)
    (ht : ∀ c, ∀ l ∈ layersOf (m c).args, l.target = c.names) :
    top (layersOf (appendMissingComponent host al m d).args) p.names = none := by
  rw [top_eq_none]
  intro l hl hcv
  rw [appendMissingComponent] at hl
  split at hl
  · rename_i c hc
    split at hl
    · have hm := List.find?_some hc
      rw [ht c l hl] at hcv
      rw [hr p c hcv hp] at hm
      cases hm
    · cases hl
  · cases hl

theorem missing_target (c : AbsolutePathBuf) :
    ∀ l ∈ layersOf (appendMissingReadOnlySubpathArgs c).args, l.target = c.names := by
  intro l hl
  rw [appendMissingReadOnlySubpathArgs] at hl
  split at hl
  · exact mem_singleton.mp hl ▸ rfl
  · exact mem_singleton.mp hl ▸ rfl

theorem top_singleton (l : Layer Str View) (pl : List Str) :
    top [l] pl = if l.target <+: pl then some l else none := by
  rw [top_cons]
  rfl

theorem top_readOnlySubpath (hr : Rooted host) (hp : pathExists host p = true)
    (al : List AbsolutePathBuf) (d : AbsolutePathBuf) :
    top (layersOf (appendReadOnlySubpathArgs host al d).args) p.names =
      if d.names <+: p.names ∧ isWithinAllowedWritePaths d al = true then
        some ⟨d.names, shown host d⟩ else none := by
  by_cases hd : pathExists host d = true
  · by_cases hw : isWithinAllowedWritePaths d al = true
    · have hl : layersOf (appendReadOnlySubpathArgs host al d).args =
          [⟨d.names, shown host d⟩] := by
        rw [appendReadOnlySubpathArgs, shown, hw, hd]
        cases transientEmptyMetadataPath host d with
        | none => rfl
        | some n => cases n <;> rfl
      rw [hl, top_singleton]
      simp [hw]
    · have ha : appendReadOnlySubpathArgs host al d = .ofArgs [] := by
        rw [appendReadOnlySubpathArgs, Bool.eq_false_iff.mpr hw, hd]
        cases transientEmptyMetadataPath host d with
        | none => rfl
        | some n => cases n <;> rfl
      rw [ha, if_neg fun h => hw h.2]
      rfl
  · have ht : transientEmptyMetadataPath host d = none := by
      rw [pathExists, Option.not_isSome_iff_eq_none] at hd
      rw [transientEmptyMetadataPath, hd, ite_self]
    have ha : appendReadOnlySubpathArgs host al d =
        appendMissingComponent host al appendMissingReadOnlySubpathArgs d := by
      simp only [appendReadOnlySubpathArgs, ht, hd]
      rfl
    rw [ha, top_missingComponent hr hp missing_target, if_neg]
    exact fun h => hd (hr p d h.1 hp)

end Arguments

abbrev entriesOf (host : SandboxHost) (policy : FileSystemSandboxPolicy) (cwd : UnixPath) :
    List ResolvedFileSystemEntry := resolvedEntriesWithCwd host.toHostEnv policy cwd

/-- A restricted policy without deny globs whose paths all exist. -/
structure Setting (host : SandboxHost) (policy : FileSystemSandboxPolicy) (cwd : UnixPath) :
    Prop where
  restricted : policy.kind = .restricted
  globFree : ∀ entry ∈ denyEntries policy.entries, ∀ pattern, entry.path ≠ .globPattern pattern
  named : ∀ e ∈ entriesOf host policy cwd, pathExists host e.path = true
  rooted : Rooted host

section Roots

variable (host : SandboxHost) (policy : FileSystemSandboxPolicy) (cwd : UnixPath)

def rootPaths : List AbsolutePathBuf :=
  (getWritableRootsWithCwd host.toHostEnv policy cwd).map WritableRoot.root

def IsRoot (r : AbsolutePathBuf) : Prop := r ∈ rootPaths host policy cwd

/-- Deeper roots are mounted later, and those of one depth in the order of the entries. -/
def MountedAfter (r w : AbsolutePathBuf) : Prop :=
  pathDepth w < pathDepth r ∨ pathDepth w = pathDepth r ∧ [w, r].Sublist (rootPaths host policy cwd)

def Unreadable (q : AbsolutePathBuf) : Prop :=
  q ∈ getUnreadableRootsWithCwd host.toHostEnv policy cwd

/-- A path that a root keeps read-only by default lies over another one. No entry is about it, and
it is in a root, though not always in the one it belongs to: a `.git` file can point anywhere. -/
structure Covers (w d p : AbsolutePathBuf) : Prop where
  byDefault : d ∈ defaultReadOnlySubpathsForWritableRoot host.toHostEnv w
    (isCwdRoot host.toHostEnv cwd w)
  unnamed : ∀ e ∈ entriesOf host policy cwd, e.path ≠ d
  within : ∃ r, IsRoot host policy cwd r ∧ r.names <+: d.names
  above : d.names <+: p.names

variable (w p : AbsolutePathBuf)

def Touches : Prop :=
  w.names <+: p.names ∨ ∃ d, Covers host policy cwd w d p

def LastFor : Prop :=
  ∀ r, IsRoot host policy cwd r → MountedAfter host policy cwd r w → ¬Touches host policy cwd r p

inductive KeptReadOnly (r : AbsolutePathBuf) : AbsolutePathBuf → Prop
  | byDefault {d : AbsolutePathBuf} :
    d ∈ defaultReadOnlySubpathsForWritableRoot host.toHostEnv r (isCwdRoot host.toHostEnv cwd r) →
    (∀ e ∈ entriesOf host policy cwd, e.path ≠ d) → KeptReadOnly r d
  | carved {n : ResolvedFileSystemEntry} : n ∈ entriesOf host policy cwd → n.access ≠ .write →
    ¬Overridden (entriesOf host policy cwd) n.path → r.names <+: n.path.names → n.path ≠ r →
    ¬Unreadable host policy cwd n.path → KeptReadOnly r n.path
  | metadata {m : Str} : m ∈ protectedMetadataPathNames →
    ¬CanWriteAt host.toHostEnv (entriesOf host policy cwd) (joinName host.toHostEnv r m) →
    KeptReadOnly r (joinName host.toHostEnv r m)

def planInputs : Inputs := inputsFor host policy cwd [] []

end Roots

theorem rootPaths_eq : rootPaths host pc cwd = if pc.hasFullDiskWriteAccess then [] else
      dedupFrom [] (((entriesOf host pc cwd).filter fun e => e.access.canWrite &&
        canWritePathWithCwd host.toHostEnv pc e.path.asPath cwd).map
          ResolvedFileSystemEntry.path) := by
  rw [rootPaths, getWritableRootsWithCwd]
  split
  · rfl
  · have hr : ∀ writableEntries : List AbsolutePathBuf, WritableRoot.root ∘
        writableRootFor host.toHostEnv pc cwd writableEntries = id := fun _ => rfl
    have hs : normalizeEffectiveAbsolutePath host.toHostEnv = id :=
      funext normalizeEffectiveAbsolutePath_eq
    simp [hr, dedupAbsolutePaths, hs]

theorem nodup_rootPaths : (rootPaths host pc cwd).Nodup := by
  rw [rootPaths_eq]
  split
  · exact nodup_nil
  · exact nodup_dedupFrom [] _

theorem isRoot_iff : IsRoot host pc cwd r ↔
    pc.hasFullDiskWriteAccess = false ∧ Overridden (entriesOf host pc cwd) r := by
  rw [IsRoot, rootPaths_eq]
  cases hf : pc.hasFullDiskWriteAccess with
  | true => simp
  | false =>
    rw [if_neg Bool.false_ne_true, mem_dedupFrom, mem_writableEntries hf]
    simp

def rootAt (host : SandboxHost) (policy : FileSystemSandboxPolicy) (cwd : UnixPath)
    (r : AbsolutePathBuf) : WritableRoot :=
  writableRootFor host.toHostEnv policy cwd
    (((entriesOf host policy cwd).filter fun entry => entry.access.canWrite &&
      canWritePathWithCwd host.toHostEnv policy entry.path.asPath cwd).map
        ResolvedFileSystemEntry.path) r

theorem getWritableRoots_eq : getWritableRootsWithCwd host.toHostEnv pc cwd =
    (rootPaths host pc cwd).map (rootAt host pc cwd) := by
  rw [rootPaths, getWritableRootsWithCwd]
  split
  · rfl
  · rw [map_map, map_map]
    rfl

section

variable (h : Setting host pc cwd)

include h

theorem writableRoots_eq : (planInputs host pc cwd).writableRoots =
      (rootPaths host pc cwd).map (rootAt host pc cwd) := by
  have hex : (getWritableRootsWithCwd host.toHostEnv pc cwd).filter
      (fun wr => pathExists host wr.root) = getWritableRootsWithCwd host.toHostEnv pc cwd := by
    rw [filter_eq_self]
    intro wr hm
    obtain ⟨_, ⟨e, he, hp, _⟩, _⟩ := isRoot_iff.mp (mem_map.mpr ⟨wr, hm, rfl⟩)
    rw [← hp]
    exact h.named e he
  rw [planInputs, inputsFor]
  simp only [hex, ne_eq, not_true_eq_false, and_false]
  exact getWritableRoots_eq

theorem allowed_eq : (planInputs host pc cwd).allowed = rootPaths host pc cwd := by
  rw [Inputs.allowed, writableRoots_eq h, map_map]
  exact map_id _

theorem within_iff : isWithinAllowedWritePaths d (planInputs host pc cwd).allowed = true ↔
      ∃ r, IsRoot host pc cwd r ∧ r.names <+: d.names := by
  rw [isWithinAllowedWritePaths, allowed_eq h]
  simp [AbsolutePathBuf.startsWith_iff, IsRoot]

end

theorem mem_planInputs_unreadableRoots :
    q ∈ (planInputs host pc cwd).unreadableRoots ↔ Unreadable host pc cwd q := by
  rw [planInputs, inputsFor, sortedSet, mem_dedupFrom]
  simp [Unreadable]

theorem unreadable_iff (hk : pc.kind = .restricted) : Unreadable host pc cwd q ↔
    (∃ e ∈ entriesOf host pc cwd, e.path = q ∧ e.access = .deny) ∧
      ((AbsolutePathBuf.fromAbsolutePath host.toProcessEnv cwd).isSome → q ≠ rootPath) := by
  have hr : ∀ pt : AbsolutePathBuf, (((fromAbsolutePath host.toProcessEnv cwd).map fun _ =>
        ofParts []) != some pt) = true ↔
      ((fromAbsolutePath host.toProcessEnv cwd).isSome → pt ≠ rootPath) := by
    intro pt
    cases fromAbsolutePath host.toProcessEnv cwd with
    | none => simp
    | some cwd =>
      simp only [Option.map_some, bne_iff_ne, ne_eq, Option.some.injEq, Option.isSome_some,
        forall_const]
      exact not_congr eq_comm
  rw [Unreadable, mem_unreadableRoots hk]
  simp only [unreadableEntries, mem_filter, Bool.and_eq_true, beq_iff_eq, hr]
  constructor
  · rintro ⟨e, ⟨he, ⟨hd, -⟩, hn⟩, rfl⟩
    exact ⟨⟨e, he, rfl, hd⟩, hn⟩
  · rintro ⟨⟨e, he, rfl, hd⟩, hn⟩
    refine ⟨e, ⟨he, ⟨hd, ?_⟩, hn⟩, rfl⟩
    simp only [resolveAccessWithCwd, hk, resolveCandidatePath_asPath, accessAt_deny he hd]
    rfl

theorem Setting.exists_unreadable (h : Setting host pc cwd)
    (hq : Unreadable host pc cwd q) : pathExists host q = true := by
  obtain ⟨⟨e, he, rfl, _⟩, _⟩ := (unreadable_iff h.restricted).mp hq
  exact h.named e he

theorem mem_metadataPathMasks : d ∈ appendMetadataPathMasksForWritableRoot host r ns ss ↔
      d ∈ ss ∨ ∃ m ∈ ns, shouldLeaveMissingGitForParentRepoDiscovery host r m = false ∧
        d = joinName host.toHostEnv r m := by
  induction ns generalizing ss with
  | nil => simp [appendMetadataPathMasksForWritableRoot]
  | cons m ns ih =>
    have hms : d ∈ appendMetadataPathMask host r ss m ↔
        d ∈ ss ∨ shouldLeaveMissingGitForParentRepoDiscovery host r m = false ∧
          d = joinName host.toHostEnv r m := by
      rw [appendMetadataPathMask]
      by_cases hl : shouldLeaveMissingGitForParentRepoDiscovery host r m = true
      · simp [hl]
      · by_cases hm : joinName host.toHostEnv r m ∈ ss
        · simp only [hl, contains_iff_mem.mpr hm, true_and]
          refine ⟨.inl, ?_⟩
          rintro (hd | rfl)
          · exact hd
          · exact hm
        · simp [hl, hm]
    refine Iff.trans ih ?_
    simp [hms, or_assoc]

theorem mem_readOnlySubpathsOf (h : Setting host pc cwd) (hr : IsRoot host pc cwd r)
    (hd : pathExists host d = true) :
    d ∈ readOnlySubpathsOf host (planInputs host pc cwd) (rootAt host pc cwd r) ↔
      KeptReadOnly host pc cwd r d := by
  obtain ⟨hf, _⟩ := isRoot_iff.mp hr
  have hms : d ∉ (planInputs host pc cwd).missingMetadata := by
    intro hmm
    simp only [planInputs, inputsFor, missingAutoMetadataReadOnlyProjectRootSubpaths] at hmm
    split at hmm
    · cases hmm
    · obtain ⟨entry, _, hen⟩ := mem_filterMap.mp hmm
      split at hen
      · split at hen
        · split at hen
          · cases hen
          · rename_i hnn
            cases hen
            exact hnn hd
        · cases hen
      · cases hen
  have hnm : ∀ m, m ∈ (rootAt host pc cwd r).protectedMetadataNames ↔
      m ∈ protectedMetadataPathNames ∧
        ¬CanWriteAt host.toHostEnv (entriesOf host pc cwd) (joinName host.toHostEnv r m) :=
    fun m => mem_protectedMetadataNames hf fun _ => mem_rawWritableRoots
  rw [readOnlySubpathsOf, mem_metadataPathMasks, mem_filter, mem_filter]
  simp only [Bool.not_eq_true', contains_eq_mem, decide_eq_false_iff_not,
    mem_planInputs_unreadableRoots, hms, not_false_eq_true, and_true, hnm]
  rw [show (rootAt host pc cwd r).root = r from rfl, rootAt, mem_readOnlySubpaths hf]
  constructor
  · rintro (⟨⟨hdf, hnn⟩ | ⟨n, hn, hw, hnt, rfl, hrn, hne⟩, hrd⟩ | ⟨m, ⟨hm, hc⟩, _, rfl⟩)
    · exact .byDefault hdf hnn
    · exact .carved hn hw hnt hrn hne hrd
    · exact .metadata hm hc
  · intro hk
    cases hk with
    | byDefault hdf hnn =>
      refine .inl ⟨.inl ⟨hdf, hnn⟩, fun hu => ?_⟩
      obtain ⟨⟨e, he, hp, _⟩, _⟩ := (unreadable_iff h.restricted).mp hu
      exact hnn e he hp
    | carved hn hw hnt hrn hne hrd =>
      exact .inl ⟨.inr ⟨_, hn, hw, hnt, rfl, hrn, hne⟩, hrd⟩
    | @metadata m hm hc =>
      refine .inr ⟨m, ⟨hm, hc⟩, ?_, rfl⟩
      rw [shouldLeaveMissingGitForParentRepoDiscovery, hd]
      simp

section Views

variable {host : SandboxHost} {policy : FileSystemSandboxPolicy} {cwd : UnixPath}
variable {p r : AbsolutePathBuf}

def maskLayers (paths : List AbsolutePathBuf) : List (Layer Str View) :=
  paths.map fun q => ⟨q.names, .hidden⟩

theorem top_maskLayers (h : top (maskLayers ps) p.names = some l) :
    l.kind = .hidden ∧ ∃ q ∈ ps, q.names <+: p.names := by
  obtain ⟨hm, hc⟩ := top_mem h
  obtain ⟨q, hq, rfl⟩ := mem_map.mp hm
  exact ⟨rfl, q, hq, hc⟩

theorem top_maskLayers_eq_none :
    top (maskLayers ps) p.names = none ↔ ∀ q ∈ ps, ¬q.names <+: p.names := by
  rw [top_eq_none]
  simp [maskLayers]

theorem layersOf_unreadableArgs (ins : Inputs) (hp : ∀ q ∈ ps, pathExists host q = true) :
    layersOf (unreadableArgs host ins ps).args = maskLayers (sortByKey pathDepth ps) := by
  rw [unreadableArgs, layersOf_concat, maskLayers, ← flatMap_singleton' (List.map _ _), flatMap_map]
  refine flatMap_congr fun q hq => ?_
  exact layersOf_unreadableRoot (hp q (mem_sortByKey.mp hq))

def groupLayers (host : SandboxHost) (policy : FileSystemSandboxPolicy) (cwd : UnixPath)
    (r : AbsolutePathBuf) : List (Layer Str View) :=
  layersOf (writableRootArgs host (planInputs host policy cwd) (rootAt host policy cwd r)).args

theorem groupLayers_eq (h : Setting host pc cwd) (r : AbsolutePathBuf) :
    groupLayers host pc cwd r = [⟨r.names, .writable⟩] ++
      (sortByKey pathDepth (readOnlySubpathsOf host (planInputs host pc cwd)
        (rootAt host pc cwd r))).flatMap (fun d =>
          layersOf (appendReadOnlySubpathArgs host (planInputs host pc cwd).allowed d).args) ++
      maskLayers (sortByKey pathDepth ((planInputs host pc cwd).unreadableRoots.filter
        fun pt => pt.startsWith r)) := by
  have he : ∀ q ∈ (planInputs host pc cwd).unreadableRoots.filter
      (fun pt => pt.startsWith r), pathExists host q = true := by
    intro q hq
    exact h.exists_unreadable (mem_planInputs_unreadableRoots.mp (mem_filter.mp hq).1)
  rw [← layersOf_unreadableArgs (planInputs host pc cwd) he, ← layersOf_concat]
  simp only [groupLayers, writableRootArgs, append_args, ofArgs_args, layersOf_append,
    layersOf_maskedParentDirs]
  rfl

variable (host policy cwd) in
inductive GroupView (r p : AbsolutePathBuf) : Option View → Prop
  | untouched : ¬Touches host policy cwd r p → GroupView r p none
  | nested {u : AbsolutePathBuf} : Unreadable host policy cwd u → r.names <+: u.names →
    u.names <+: p.names → GroupView r p (some .hidden)
  | subpath {d : AbsolutePathBuf} :
    (∀ u, Unreadable host policy cwd u → r.names <+: u.names → ¬u.names <+: p.names) →
    KeptReadOnly host policy cwd r d → (∃ s, IsRoot host policy cwd s ∧ s.names <+: d.names) →
    d.names <+: p.names → GroupView r p (some (shown host d))
  | root :
    (∀ u, Unreadable host policy cwd u → r.names <+: u.names → ¬u.names <+: p.names) →
    (∀ d, KeptReadOnly host policy cwd r d →
      (∃ s, IsRoot host policy cwd s ∧ s.names <+: d.names) → ¬d.names <+: p.names) →
    r.names <+: p.names → GroupView r p (some .writable)

/-- Only what is kept read-only by default can lie outside the root it belongs to. -/
theorem KeptReadOnly.below_or_covers (hk : KeptReadOnly host pc cwd r d)
    (hw : ∃ s, IsRoot host pc cwd s ∧ s.names <+: d.names) (hdp : d.names <+: p.names) :
    r.names <+: p.names ∨ Covers host pc cwd r d p := by
  cases hk with
  | byDefault hd hn => exact .inr ⟨hd, hn, hw, hdp⟩
  | carved _ _ _ hrn _ _ => exact .inl (hrn.trans hdp)
  | @metadata m hm _ =>
    rw [joinName_names r hm] at hdp
    exact .inl ((prefix_append r.names [m]).trans hdp)

theorem GroupView.touches (h : GroupView host pc cwd r p (some v)) : Touches host pc cwd r p := by
  cases h with
  | nested _ hru hup => exact .inl (hru.trans hup)
  | root _ _ hrp => exact .inl hrp
  | subpath _ hk hw hdp =>
    rcases hk.below_or_covers hw hdp with hrp | hc
    · exact .inl hrp
    · exact .inr ⟨_, hc⟩

theorem groupView (h : Setting host pc cwd) (hr : IsRoot host pc cwd r)
    (hp : pathExists host p = true) :
    GroupView host pc cwd r p ((top (groupLayers host pc cwd r) p.names).map Layer.kind) := by
  rw [groupLayers_eq h, top_append, top_append]
  set ms := sortByKey pathDepth ((planInputs host pc cwd).unreadableRoots.filter
    fun pt => pt.startsWith r) with hms
  set subpaths := sortByKey pathDepth (readOnlySubpathsOf host (planInputs host pc cwd)
    (rootAt host pc cwd r)) with hs
  have hm : ∀ u, u ∈ ms ↔ Unreadable host pc cwd u ∧ r.names <+: u.names := by
    intro u
    rw [mem_sortByKey, mem_filter, mem_planInputs_unreadableRoots, AbsolutePathBuf.startsWith_iff]
  have hsb : ∀ d, d.names <+: p.names → (d ∈ subpaths ↔ KeptReadOnly host pc cwd r d) := by
    intro d hdp
    rw [mem_sortByKey, mem_readOnlySubpathsOf h hr (h.rooted p d hdp hp)]
  cases ht : top (maskLayers ms) p.names with
  | some l =>
    obtain ⟨hkn, u, hu, hup⟩ := top_maskLayers ht
    obtain ⟨hu, hru⟩ := (hm u).mp hu
    rw [Option.some_or, Option.map_some, hkn]
    exact .nested hu hru hup
  | none =>
    have hun : ∀ u, Unreadable host pc cwd u → r.names <+: u.names →
        ¬u.names <+: p.names := fun u hu hru =>
      top_maskLayers_eq_none.mp ht u ((hm u).mpr ⟨hu, hru⟩)
    cases htp : top (subpaths.flatMap fun d => layersOf (appendReadOnlySubpathArgs host
        (planInputs host pc cwd).allowed d).args) p.names with
    | some l =>
      obtain ⟨_, d, _, hsp, hl, _⟩ := top_flatMap htp
      rw [top_readOnlySubpath h.rooted hp] at hl
      split at hl
      · rename_i hc
        cases hl
        have hd : d ∈ subpaths := hsp ▸ mem_append_right _ mem_cons_self
        exact .subpath hun ((hsb d hc.1).mp hd) ((within_iff h).mp hc.2) hc.1
      · cases hl
    | none =>
      have hb : ∀ d, KeptReadOnly host pc cwd r d →
          (∃ s, IsRoot host pc cwd s ∧ s.names <+: d.names) → ¬d.names <+: p.names := by
        intro d hk hw hdp
        have hl := top_readOnlySubpath h.rooted hp (planInputs host pc cwd).allowed d
        rw [if_pos ⟨hdp, (within_iff h).mpr hw⟩] at hl
        obtain ⟨hmm, hc⟩ := top_mem hl
        exact top_eq_none.mp htp _ (mem_flatMap.mpr ⟨d, (hsb d hdp).mpr hk, hmm⟩) hc
      rw [top_singleton]
      by_cases hrp : r.names <+: p.names
      · rw [if_pos hrp]
        exact .root hun hb hrp
      · rw [if_neg hrp]
        refine .untouched ?_
        rintro (hc | ⟨d, hcv⟩)
        · exact hrp hc
        · exact hb d (.byDefault hcv.byDefault hcv.unnamed) hcv.within hcv.above

variable (host policy cwd) in
inductive Origin (p : AbsolutePathBuf) : View → Prop
  | masked {u : AbsolutePathBuf} : Unreadable host policy cwd u → u.names <+: p.names →
    (∀ r, IsRoot host policy cwd r → ¬Touches host policy cwd r p) → Origin p .hidden
  | group {w : AbsolutePathBuf} {v : View} : IsRoot host policy cwd w →
    LastFor host policy cwd w p → GroupView host policy cwd w p (some v) → Origin p v
  | base {layer : Layer Str View} :
    (∀ r, IsRoot host policy cwd r → ¬Touches host policy cwd r p) →
    (∀ u, Unreadable host policy cwd u → ¬u.names <+: p.names) →
    top (layersOf (baseArgs host policy cwd)) p.names = some layer → Origin p layer.kind

theorem MountedAfter.mem_after {after : List AbsolutePathBuf}
    (hs : sortByKey pathDepth (rootPaths host pc cwd) = b ++ w :: after) (hr : IsRoot host pc cwd r)
    (h : MountedAfter host pc cwd r w) : r ∈ after := by
  have hn : (sortByKey pathDepth (rootPaths host pc cwd)).Nodup :=
    nodup_sortByKey.mpr nodup_rootPaths
  have hw : w ∈ sortByKey pathDepth (rootPaths host pc cwd) := by
    rw [hs]
    exact mem_append_right b mem_cons_self
  have hne : w ≠ r := by
    rintro rfl
    rcases h with hlt | ⟨_, hp⟩
    · exact Nat.lt_irrefl _ hlt
    · exact nodup_iff_sublist.mp nodup_rootPaths w hp
  have hp := (pair_sublist_sortByKey nodup_rootPaths (mem_sortByKey.mp hw) hr hne).mpr h
  rw [hs] at hp hn
  exact (pair_sublist_split hn).mp hp

theorem LastFor.length_le (hl : LastFor host pc cwd w p) (hr : IsRoot host pc cwd r)
    (ht : Touches host pc cwd r p) : r.names.length ≤ w.names.length := by
  by_contra hlt
  refine hl r hr (.inl ?_) ht
  rw [pathDepth, pathDepth]
  omega

theorem LastFor.unique (hw : IsRoot host pc cwd w) (hl : LastFor host pc cwd w p)
    (ht : Touches host pc cwd w p) (hr : IsRoot host pc cwd r)
    (hl' : LastFor host pc cwd r p) (ht' : Touches host pc cwd r p) : r = w := by
  by_contra hne
  have hwr : pathDepth w = pathDepth r := by
    have hle := hl.length_le hr ht'
    have hge := hl'.length_le hw ht
    rw [pathDepth, pathDepth]
    omega
  rcases pair_sublist_total hr hw hne with hp | hp
  · exact hl' w hw (.inr ⟨hwr.symm, hp⟩) ht
  · exact hl r hr (.inr ⟨hwr, hp⟩) ht'

theorem layersOf_plan (h : Setting host pc cwd) :
    layersOf (planFor host pc cwd (planInputs host pc cwd)).args =
      layersOf (baseArgs host pc cwd) ++
      maskLayers (sortByKey pathDepth (unreadableAncestors (planInputs host pc cwd))) ++
      (sortByKey pathDepth (rootPaths host pc cwd)).flatMap (groupLayers host pc cwd) ++
      maskLayers (sortByKey pathDepth (rootlessUnreadableRoots (planInputs host pc cwd))) := by
  have hu : ∀ f, layersOf (unreadableArgs host (planInputs host pc cwd)
      ((planInputs host pc cwd).unreadableRoots.filter f)).args =
      maskLayers (sortByKey pathDepth ((planInputs host pc cwd).unreadableRoots.filter f)) :=
    fun f => layersOf_unreadableArgs _ fun q hq =>
      h.exists_unreadable (mem_planInputs_unreadableRoots.mp (mem_filter.mp hq).1)
  have hs : sortedWritableRoots (planInputs host pc cwd) =
      (sortByKey pathDepth (rootPaths host pc cwd)).map (rootAt host pc cwd) := by
    rw [sortedWritableRoots, writableRoots_eq h]
    exact (map_sortByKey (rootAt host pc cwd) _).symm
  rw [unreadableAncestors, rootlessUnreadableRoots, ← hu, ← hu]
  simp only [planFor, append_args, layersOf_append, hs, map_map]
  rw [layersOf_concat]
  rfl

theorem comparable {a b : AbsolutePathBuf} (ha : a.names <+: p.names) (hb : b.names <+: p.names) :
    a.names <+: b.names ∨ b.names <+: a.names := prefix_or_prefix_of_prefix ha hb

theorem Touches.exists_root (h : Touches host pc cwd r p) (hr : IsRoot host pc cwd r) :
    ∃ s, IsRoot host pc cwd s ∧ s.names <+: p.names := by
  rcases h with hrp | ⟨d, hc⟩
  · exact ⟨r, hr, hrp⟩
  · obtain ⟨s, hs, hsd⟩ := hc.within
    exact ⟨s, hs, hsd.trans hc.above⟩

variable (h : Setting host pc cwd)

include h

theorem mem_rootless :
    u ∈ rootlessUnreadableRoots (planInputs host pc cwd) ↔ Unreadable host pc cwd u ∧
      ∀ r, IsRoot host pc cwd r → ¬r.names <+: u.names ∧ ¬u.names <+: r.names := by
  rw [rootlessUnreadableRoots, mem_filter, mem_planInputs_unreadableRoots, allowed_eq h,
    Bool.not_eq_true', any_eq_false]
  simp [AbsolutePathBuf.startsWith_iff, not_or, IsRoot]

theorem mem_ancestors :
    u ∈ unreadableAncestors (planInputs host pc cwd) ↔ Unreadable host pc cwd u ∧
      (∀ r, IsRoot host pc cwd r → ¬r.names <+: u.names) ∧
      ∃ r, IsRoot host pc cwd r ∧ u.names <+: r.names := by
  rw [unreadableAncestors, mem_filter, mem_planInputs_unreadableRoots, allowed_eq h,
    Bool.and_eq_true, Bool.not_eq_true', any_eq_true]
  simp [AbsolutePathBuf.startsWith_iff, IsRoot]

theorem origin_of_view (hp : pathExists host p = true)
    (hv : viewAt (planFor host pc cwd (planInputs host pc cwd)).args p = some v) :
    Origin host pc cwd p v := by
  obtain ⟨l, hl, rfl⟩ := Option.map_eq_some_iff.mp hv
  rw [layersOf_plan h, top_append, top_append, top_append] at hl
  cases hrt : top (maskLayers (sortByKey pathDepth
      (rootlessUnreadableRoots (planInputs host pc cwd)))) p.names with
  | some m =>
    rw [hrt] at hl
    cases hl
    obtain ⟨hk, u, hu, hup⟩ := top_maskLayers hrt
    obtain ⟨hu, hap⟩ := (mem_rootless h).mp (mem_sortByKey.mp hu)
    rw [hk]
    refine .masked hu hup fun r hr ht => ?_
    obtain ⟨s, hs, hsp⟩ := ht.exists_root hr
    rcases comparable hsp hup with hsu | hus
    · exact (hap s hs).1 hsu
    · exact (hap s hs).2 hus
  | none =>
    rw [hrt, Option.none_or] at hl
    cases hg : top ((sortByKey pathDepth (rootPaths host pc cwd)).flatMap
        (groupLayers host pc cwd)) p.names with
    | some sn =>
      rw [hg, Option.some_or] at hl
      cases hl
      obtain ⟨b, w, after, hsl, hw, haf⟩ := top_flatMap hg
      have hm : w ∈ sortByKey pathDepth (rootPaths host pc cwd) := by
        rw [hsl]
        exact mem_append_right b mem_cons_self
      have hro : IsRoot host pc cwd w := mem_sortByKey.mp hm
      have hgr := groupView h hro hp
      rw [hw] at hgr
      refine .group hro (fun r hr hlt => ?_) hgr
      have hn := groupView h hr hp
      rw [haf r (hlt.mem_after hsl hr)] at hn
      cases hn with
      | untouched hun => exact hun
    | none =>
      rw [hg, Option.none_or] at hl
      have hun : ∀ r, IsRoot host pc cwd r → ¬Touches host pc cwd r p := by
        intro r hr
        have hgr := groupView h hr hp
        have hn : top (groupLayers host pc cwd r) p.names = none := by
          rw [top_eq_none] at hg ⊢
          exact fun sn hsn => hg sn (mem_flatMap.mpr ⟨r, mem_sortByKey.mpr hr, hsn⟩)
        rw [hn] at hgr
        cases hgr with
        | untouched hun => exact hun
      cases ha : top (maskLayers (sortByKey pathDepth
          (unreadableAncestors (planInputs host pc cwd)))) p.names with
      | some m =>
        rw [ha, Option.some_or] at hl
        cases hl
        obtain ⟨hk, u, hu, hup⟩ := top_maskLayers ha
        rw [hk]
        exact .masked ((mem_ancestors h).mp (mem_sortByKey.mp hu)).1 hup hun
      | none =>
        rw [ha, Option.none_or] at hl
        refine .base hun (fun u hu hup => ?_) hl
        -- no root is above the denied path, so it is masked before or after the roots
        have ho : ∀ r, IsRoot host pc cwd r → ¬r.names <+: u.names :=
          fun r hr hru => hun r hr (.inl (hru.trans hup))
        by_cases hab : ∃ r, IsRoot host pc cwd r ∧ u.names <+: r.names
        · exact top_maskLayers_eq_none.mp ha u
            (mem_sortByKey.mpr ((mem_ancestors h).mpr ⟨hu, ho, hab⟩)) hup
        · refine top_maskLayers_eq_none.mp hrt u (mem_sortByKey.mpr
            ((mem_rootless h).mpr ⟨hu, fun r hr => ⟨ho r hr, fun hur => ?_⟩⟩)) hup
          exact hab ⟨r, hr, hur⟩

theorem exists_view (p : AbsolutePathBuf) :
    ∃ v, viewAt (planFor host pc cwd (planInputs host pc cwd)).args p = some v := by
  have hb : ∃ k, (⟨rootPath.names, k⟩ : Layer Str View) ∈ layersOf (baseArgs host pc cwd) := by
    rw [baseArgs]
    split
    · exact ⟨.readOnly, mem_cons_self⟩
    · exact ⟨.hidden, mem_cons_self⟩
  obtain ⟨k, hm⟩ := hb
  have hp : (⟨rootPath.names, k⟩ : Layer Str View) ∈
      layersOf (planFor host pc cwd (planInputs host pc cwd)).args := by
    rw [layersOf_plan h]
    exact mem_append_left _ (mem_append_left _ (mem_append_left _ hm))
  obtain ⟨sn, hs⟩ := top_isSome hp (List.nil_prefix (l := p.names))
  exact ⟨sn.kind, by rw [viewAt, hs]; rfl⟩

end Views

end MountPlan
