import CodexTeams.MountPlan

/-! The mount plan against the policy it is made from. What a root keeps read-only by default is
mounted with the root, and may lie over paths of other roots that have been set up already. -/
namespace MountEnforcement

open RustIter StableSort Paths SandboxPolicy WritableRoots DenyRead PolicyAccess Layers List
  Bubblewrap MountPlan
open Bool

variable {host : SandboxHost}
variable {d p q w : AbsolutePathBuf}

def UnderPlatformDefault (p : AbsolutePathBuf) : Prop :=
  ∃ d ∈ linuxPlatformDefaultReadRoots, d.names <+: p.names

theorem overridden_of_best (hb : Best es p b) (hw : b.access = .write) : Overridden es b.path := by
  refine ⟨⟨b, hb.mem, rfl, hw⟩, fun f hf hp hd => ?_⟩
  have hlt := hb.length_lt hf (hp ▸ hb.above) (by rw [hd, hw]; decide)
  rw [hp] at hlt
  exact Nat.lt_irrefl _ hlt

/-- A denied path in a metadata directory: the one of the entry that decides. -/
theorem denied_child (hb : Best es q b) (hw : b.access = .write)
    (hd : metadataDeniedAt env es q = true) :
    ∃ m ∈ protectedMetadataPathNames, (joinName env b.path m).names <+: q.names ∧
      ¬CanWriteAt env es (joinName env b.path m) := by
  obtain ⟨c, m, hc, hu⟩ := metadataDenied_iff.mp hd
  obtain ⟨g, hg, hgw, hcn, hm, rfl, hcq⟩ := metadataChild_spec hc
  have hgq := (below_joinName g.path hm).trans hcq
  have hl : g.path.names.length = b.path.names.length := by
    have hle := hb.length_le hg hgq
    by_contra hne
    refine hu b hb.mem hw hb.above (prefix_of_prefix_length_le hcq hb.above ?_)
    rw [hcn, length_append, length_singleton]
    omega
  have hp : g.path = b.path := path_eq_of_le (prefix_of_prefix_length_le hgq hb.above hl.le) hl.ge
  rw [hp] at hc hcq hu
  refine ⟨m, hm, hcq, fun hcw => ?_⟩
  have hdc : metadataDeniedAt env es (joinName env b.path m) = true :=
    metadataDenied_iff.mpr ⟨_, m, metadataChild_self hc,
      fun x hx hxw hxc => hu x hx hxw (hxc.trans hcq)⟩
  rw [hcw.metadata] at hdc
  cases hdc

theorem canWriteAt_metadata (hb : Best es p b) (hw : b.access = .write) (hcn : CanWriteAt env es p)
    (hm : m ∈ protectedMetadataPathNames) (hmp : (joinName env b.path m).names <+: p.names) :
    CanWriteAt env es (joinName env b.path m) := by
  have hnm : (joinName env b.path m).names = b.path.names ++ [m] := joinName_names b.path hm
  have hl : (joinName env b.path m).names.length = b.path.names.length + 1 := by
    rw [hnm, length_append, length_singleton]
  have hbt := hb.between (hnm ▸ prefix_append b.path.names [m]) hmp
  refine ⟨hbt.accessAt_eq.trans hw, eq_false_iff.mpr fun hdn => ?_⟩
  obtain ⟨q, m', hfn, hu⟩ := metadataDenied_iff.mp hdn
  -- writable entries above the path are not deeper than the deciding one, so both paths have the
  -- same metadata directories over them
  have hs : ∀ f ∈ es, f.path.names <+: p.names →
      f.path.names.length ≤ b.path.names.length := fun f hf hfp => hb.length_le hf hfp
  have hsm : metadataChildOfWritableRoot env es p = some (q, m') := by
    refine findSome_of_agree hfn ?_ ?_
    · rintro f hf ⟨q', n⟩ hc
      obtain ⟨hn, hq', hle⟩ := metadataChildOf_eq_some.mp hc
      have hfq : q'.names = f.path.names ++ [n] := hq' ▸ joinName_names f.path hn
      have hfp : f.path.names <+: p.names := (hfq ▸ prefix_append f.path.names [n]).trans hle
      have hdp := hs f (mem_filter.mp hf).1 hfp
      refine metadataChildOf_eq_some.mpr ⟨hn, hq', prefix_of_prefix_length_le hle hmp ?_⟩
      rw [hfq, length_append, length_singleton]
      omega
    · intro f _ hc
      obtain ⟨hn, hq, hle⟩ := metadataChildOf_eq_some.mp hc
      exact metadataChildOf_eq_some.mpr ⟨hn, hq, hle.trans hmp⟩
  have hd : metadataDeniedAt env es p = true := by
    refine metadataDenied_iff.mpr ⟨q, m', hsm, fun f hf hfw hfp hqf => ?_⟩
    refine hu f hf hfw (prefix_of_prefix_length_le hfp hmp ?_) hqf
    have hle := hs f hf hfp
    omega
  rw [hcn.metadata] at hd
  cases hd

theorem mem_readableRoots (hk : pc.kind = .restricted) :
    q ∈ getReadableRootsWithCwd host pc cwd ↔ hasFullDiskReadAccess pc = false ∧
      ∃ e ∈ entriesOf host pc cwd, e.path = q ∧ e.access ≠ .deny ∧
        accessAt (entriesOf host pc cwd) q ≠ .deny := by
  rw [getReadableRootsWithCwd]
  cases hasFullDiskReadAccess pc with
  | true => simp
  | false =>
    rw [if_neg Bool.false_ne_true]
    simp only [dedupAbsolutePaths, mem_dedupFrom, if_true, mem_map, mem_filter,
      normalizeEffectiveAbsolutePath_eq, Bool.and_eq_true, resolveAccessWithCwd, hk,
      resolveCandidatePath_asPath, canRead_iff]
    constructor
    · rintro ⟨⟨_, ⟨e, ⟨he, hd, hr⟩, rfl⟩, rfl⟩, _⟩
      exact ⟨trivial, e, he, rfl, hd, hr⟩
    · rintro ⟨-, e, he, rfl, hd, hr⟩
      exact ⟨⟨e.path, ⟨e, ⟨he, hd, hr⟩, rfl⟩, rfl⟩, not_mem_nil⟩

theorem rootPath_not_default : rootPath ∉ linuxPlatformDefaultReadRoots := by decide

theorem base_view (h : Setting host pc cwd)
    (hly : top (layersOf (baseArgs host pc cwd)) p.names = some l) :
    l.kind ≠ .writable ∧ (l.kind = .readOnly → hasFullDiskReadAccess pc = true ∨
      (∃ e ∈ entriesOf host pc cwd, e.path.names <+: p.names ∧
        accessAt (entriesOf host pc cwd) e.path ≠ .deny) ∨ UnderPlatformDefault p) := by
  have hr : ∀ q ∈ readableRoots host pc cwd, q.names <+: p.names →
      (∃ e ∈ entriesOf host pc cwd, e.path.names <+: p.names ∧
        accessAt (entriesOf host pc cwd) e.path ≠ .deny) ∨
      q ∈ linuxPlatformDefaultReadRoots := by
    intro q hq hqp
    rw [readableRoots, sortedSet, mem_dedupFrom, mem_sortByKey, mem_append] at hq
    rcases hq.1 with hq | hq
    · obtain ⟨-, e, he, rfl, -, hrd⟩ := (mem_readableRoots h.restricted).mp hq
      exact .inl ⟨e, he, hqp, hrd⟩
    · split at hq
      · exact .inr (mem_filter.mp hq).1
      · cases hq
  obtain ⟨hm, hc⟩ := top_mem hly
  rw [baseArgs] at hm
  split at hm
  · rename_i hf
    rcases mem_cons.mp hm with rfl | hm
    · refine ⟨by simp, fun _ => ?_⟩
      rcases or_eq_true_iff.mp hf with hf | hrt
      · exact .inl hf
      · rcases hr rootPath (contains_iff_mem.mp hrt) hc with hen | hd
        · exact .inr (.inl hen)
        · exact absurd hd rootPath_not_default
    · rw [mem_singleton.mp hm]
      simp
  · rw [layersOf_append] at hm
    rcases mem_append.mp hm with hm | hm
    · rcases mem_cons.mp hm with rfl | hm
      · simp
      · rw [mem_singleton.mp hm]
        simp
    · obtain ⟨arg, har, ha⟩ := mem_filterMap.mp hm
      obtain ⟨q, hq, rfl⟩ := mem_map.mp har
      cases ha
      refine ⟨by simp, fun _ => ?_⟩
      rcases hr q (mem_filter.mp hq).1 hc with hen | hd
      · exact .inr (.inl hen)
      · exact .inr (.inr ⟨q, hd, hc⟩)

theorem base_view_full (hf : hasFullDiskReadAccess pc = true) (hd : ¬devPath.names <+: p.names)
    (hl : top (layersOf (baseArgs host pc cwd)) p.names = some l) : l.kind = .readOnly := by
  obtain ⟨hm, hc⟩ := top_mem hl
  rw [baseArgs, hf] at hm
  rcases mem_cons.mp hm with rfl | hm
  · rfl
  · rw [mem_singleton.mp hm] at hc
    exact absurd hc hd

theorem no_deny_of_fullRead (hk : pc.kind = .restricted) (hf : hasFullDiskReadAccess pc = true) :
    ∀ e ∈ resolvedOf env cwd pc.entries, e.access ≠ .deny := by
  intro e he hd
  obtain ⟨en, hen, _, ha⟩ := mem_resolvedEntries.mp he
  rw [hasFullDiskReadAccess, hk] at hf
  have hn := (and_eq_true_iff.mp hf).2
  rw [hasDeniedReadRestrictions, hk, not_eq_true', and_eq_false_iff] at hn
  rcases hn with hnt | hn
  · cases hnt
  · have ht := any_eq_false.mp hn en hen
    rw [ha, hd] at ht
    exact ht rfl

section Plan

variable {v : View}

theorem canRead_asPath (h : Setting host pc cwd) :
    canReadPathWithCwd host.toHostEnv pc p.asPath cwd = true ↔
      accessAt (entriesOf host pc cwd) p ≠ .deny := by
  rw [canRead_restricted h.restricted, resolveCandidatePath_asPath]
  simp only [Option.some.injEq, exists_eq_left']
  rfl

theorem canWriteAt_of_bound (hw : IsRoot host pc cwd w) (hl : LastFor host pc cwd w p)
    (hum : ∀ u, Unreadable host pc cwd u → w.names <+: u.names → ¬u.names <+: p.names)
    (hbr : ∀ d, KeptReadOnly host pc cwd w d →
      (∃ s, IsRoot host pc cwd s ∧ s.names <+: d.names) → ¬d.names <+: p.names)
    (hwp : w.names <+: p.names) : CanWriteAt host.toHostEnv (entriesOf host pc cwd) p := by
  obtain ⟨hfl, ho⟩ := isRoot_iff.mp hw
  have ha : accessAt (entriesOf host pc cwd) p = .write := by
    refine accessAt_of_uncarved ho hwp fun n hn hwr hwn hne hnp => ?_
    by_contra hnt
    by_cases hu : Unreadable host pc cwd n.path
    · exact hum n.path hu hwn hnp
    · exact hbr n.path (.carved hn hwr hnt hwn hne hu) ⟨w, hw, hwn⟩ hnp
  refine ⟨ha, eq_false_iff.mpr fun hd => ?_⟩
  obtain ⟨b, hb, hbw⟩ := exists_best_of_write ha
  obtain ⟨m, hm, hmp, hnc⟩ := denied_child hb hbw hd
  have hr := isRoot_iff.mpr ⟨hfl, overridden_of_best hb hbw⟩
  have hlw := hl.length_le hr (.inl hb.above)
  obtain ⟨f, hf, hfp, _⟩ := ho.1
  have hwl := hb.length_le hf (hfp ▸ hwp)
  rw [hfp] at hwl
  have hew : b.path = w := path_eq_of_le (prefix_of_prefix_length_le hb.above hwp hlw) hwl
  rw [hew] at hmp hnc
  exact hbr _ (.metadata hm hnc) ⟨w, hw, below_joinName w hm⟩ hmp

theorem canWriteAt_of_origin (h : Setting host pc cwd) (ho : Origin host pc cwd p .writable) :
    pc.hasFullDiskWriteAccess = false ∧ CanWriteAt host.toHostEnv (entriesOf host pc cwd) p := by
  generalize hv : View.writable = v at ho
  cases ho with
  | masked => cases hv
  | base _ _ hl => exact absurd hv.symm (base_view h hl).1
  | group hw hls hg =>
    refine ⟨(isRoot_iff.mp hw).1, ?_⟩
    cases hg with
    | nested => cases hv
    | subpath => exact absurd hv.symm shown_ne_writable
    | root hu hb hwp => exact canWriteAt_of_bound hw hls hu hb hwp

/-- The policy lets the path be read nowhere, but the sandbox shows it: the policy reads the whole
disk for a working directory that cannot be made absolute, or a `.git` file of a root elsewhere
points above the path and that root is mounted last. -/
structure Exposed (host : SandboxHost) (policy : FileSystemSandboxPolicy) (cwd : UnixPath)
    (p : AbsolutePathBuf) : Prop where
  unreadable : canReadPathWithCwd host.toHostEnv policy p.asPath cwd = false
  noDefault : ¬UnderPlatformDefault p
  shown : hasFullDiskReadAccess policy = true ∨
    ∃ w d, IsRoot host policy cwd w ∧ ¬w.names <+: p.names ∧ Covers host policy cwd w d p ∧
      LastFor host policy cwd w p ∧ transientEmptyMetadataPath host d = none

/-- The policy lets the path be written, but the sandbox does not: the policy writes the whole
disk, for which there are no roots, or the last of the roots that matter keeps a directory above
the path read-only by default. -/
structure Blocked (host : SandboxHost) (policy : FileSystemSandboxPolicy) (cwd : UnixPath)
    (p : AbsolutePathBuf) : Prop where
  writable : canWritePathWithCwd host.toHostEnv policy p.asPath cwd = true
  noEmpty : ∀ q : AbsolutePathBuf, q.names <+: p.names → transientEmptyMetadataPath host q = none
  kept : policy.hasFullDiskWriteAccess = true ∨
    ∃ w d, IsRoot host policy cwd w ∧ Covers host policy cwd w d p ∧ LastFor host policy cwd w p

structure Enforces (host : SandboxHost) (policy : FileSystemSandboxPolicy) (cwd : UnixPath)
    (args : List BwrapArg) (p : AbsolutePathBuf) : Prop where
  writable : viewAt args p = some .writable →
    canWritePathWithCwd host.toHostEnv policy p.asPath cwd = true
  readable : viewAt args p = some .readOnly ∨ viewAt args p = some .writable →
    canReadPathWithCwd host.toHostEnv policy p.asPath cwd = true ∨ UnderPlatformDefault p
  kept : canWritePathWithCwd host.toHostEnv policy p.asPath cwd = true →
    (∀ q : AbsolutePathBuf, q.names <+: p.names → transientEmptyMetadataPath host q = none) →
    viewAt args p = some .writable

theorem transient_of_shown (h : shown host d = .readOnly) :
    transientEmptyMetadataPath host d = none := by
  rw [shown] at h
  split at h
  · cases h
  · rename_i hn
    exact Option.not_isSome_iff_eq_none.mp hn

section

variable (h : Setting host pc cwd)

include h

theorem masked_of_deny (hw : IsRoot host pc cwd w)
    (hwp : w.names <+: p.names) (hd : accessAt (entriesOf host pc cwd) p = .deny) :
    ∃ u, Unreadable host pc cwd u ∧ w.names <+: u.names ∧ u.names <+: p.names := by
  obtain ⟨_, ⟨e, he, hp, hwr⟩, hn⟩ := isRoot_iff.mp hw
  obtain ⟨b, hb⟩ := exists_best he (hp ▸ hwp)
  have hbd : b.access = .deny := hb.accessAt_eq.symm.trans hd
  have hl := hb.length_le he (hp ▸ hwp)
  rw [hp] at hl
  have hwb := prefix_of_prefix_length_le hwp hb.above hl
  refine ⟨b.path, (unreadable_iff h.restricted).mpr ⟨⟨b, hb.mem, rfl, hbd⟩, fun _ hr => ?_⟩, hwb,
    hb.above⟩
  have hnl : w.names.length = 0 := by
    have hle := hwb.length_le
    rw [hr] at hle
    exact Nat.le_zero.mp hle
  have hbw : b.path = w := (path_eq_of_le hwb (by rw [hr, hnl]; rfl)).symm
  exact hn b hb.mem hbw hbd

theorem readable_of_origin (ho : Origin host pc cwd p .readOnly)
    (hdn : accessAt (entriesOf host pc cwd) p = .deny) (hd : ¬UnderPlatformDefault p) :
    Exposed host pc cwd p := by
  have hur : canReadPathWithCwd host.toHostEnv pc p.asPath cwd = false :=
    eq_false_iff.mpr fun hr => (canRead_asPath h).mp hr hdn
  refine ⟨hur, hd, ?_⟩
  generalize hv : View.readOnly = v at ho
  cases ho with
  | masked => cases hv
  | group hw hls hg =>
    rename_i w
    cases hg with
    | subpath hun hk hwt hdp =>
      have hot : ¬w.names <+: p.names := by
        intro hwp
        obtain ⟨u, hu, hwu, hup⟩ := masked_of_deny h hw hwp hdn
        exact hun u hu hwu hup
      have hc := (hk.below_or_covers hwt hdp).resolve_left hot
      exact .inr ⟨w, _, hw, hot, hc, hls, transient_of_shown hv.symm⟩
    | _ => cases hv
  | base hut hun hl =>
    rcases (base_view h hl).2 hv.symm with hf | ⟨e, he, hep, hr⟩ | hud
    · exact .inl hf
    · obtain ⟨b, hb⟩ := exists_best he hep
      have hbd : b.access = .deny := hb.accessAt_eq.symm.trans hdn
      have hrt : b.path = rootPath := by
        by_contra hne
        exact hun b.path ((unreadable_iff h.restricted).mpr ⟨⟨b, hb.mem, rfl, hbd⟩, fun _ => hne⟩)
          hb.above
      have hle := hb.length_le he hep
      have hp : e.path = b.path := by
        refine path_eq_of_le (prefix_of_prefix_length_le hep hb.above hle) ?_
        rw [hrt]
        exact Nat.zero_le _
      rw [hp, accessAt_deny hb.mem hbd] at hr
      contradiction
    · exact absurd hud hd

theorem writable_of_origin (hf : pc.hasFullDiskWriteAccess = false)
    (hcn : CanWriteAt host.toHostEnv (entriesOf host pc cwd) p) (ho : Origin host pc cwd p v) :
    v = .writable ∨ ∃ w d, IsRoot host pc cwd w ∧ Covers host pc cwd w d p ∧
      LastFor host pc cwd w p := by
  obtain ⟨b, hb, hbw⟩ := exists_best_of_write hcn.access
  have hr := isRoot_iff.mpr ⟨hf, overridden_of_best hb hbw⟩
  have ht : Touches host pc cwd b.path p := .inl hb.above
  cases ho with
  | masked _ _ hun => exact absurd ht (hun b.path hr)
  | base hun _ _ => exact absurd ht (hun b.path hr)
  | group hw hl hg =>
    rename_i w
    -- a root above the path is the one of the deciding entry
    have hs : w.names <+: p.names → w = b.path := by
      intro hwp
      obtain ⟨_, ⟨e, he, hp, _⟩, _⟩ := isRoot_iff.mp hw
      have hle := hb.length_le he (hp ▸ hwp)
      rw [hp] at hle
      exact path_eq_of_le (prefix_of_prefix_length_le hwp hb.above hle) (hl.length_le hr ht)
    cases hg with
    | root => exact .inl rfl
    | nested hu hwu hup =>
      obtain ⟨⟨e, he, hp, hd⟩, _⟩ := (unreadable_iff h.restricted).mp hu
      have hwb := hs (hwu.trans hup)
      have hlt := hb.length_lt he (hp ▸ hup) (by rw [hd, hbw]; decide)
      have hln := hwu.length_le
      rw [hp, ← hwb] at hlt
      omega
    | subpath _ hk hwt hdp =>
      cases hk with
      | byDefault hby hum =>
        exact .inr ⟨w, _, hw, ⟨hby, hum, hwt, hdp⟩, hl⟩
      | carved hn _ _ hwn hne _ =>
        have hwb := hs (hwn.trans hdp)
        have hle := hb.length_le hn hdp
        rw [← hwb] at hle
        exact absurd (path_eq_of_le hwn hle).symm hne
      | @metadata m hm hc =>
        have hwp : w.names <+: p.names := by
          rw [joinName_names w hm] at hdp
          exact (prefix_append w.names [m]).trans hdp
        rw [hs hwp] at hc hdp
        exact absurd (canWriteAt_metadata hb hbw hcn hm hdp) hc

end

/-- Besides the metadata directories, where a `.git` file points is kept read-only by default. -/
theorem mem_defaults (hd : d ∈ defaultReadOnlySubpathsForWritableRoot host.toHostEnv w pm) :
    (∃ m ∈ protectedMetadataPathNames, d = joinName host.toHostEnv w m) ∨
      resolveGitdirFromFile host.toHostEnv (joinName host.toHostEnv w ".git") = some d := by
  rw [defaultReadOnlySubpathsForWritableRoot, mem_dedupFrom, mem_append, mem_append] at hd
  rcases hd.1 with (hg | ha) | hc
  · split at hg
    · rcases mem_append.mp hg with hp | hs
      · split at hp
        · exact .inr (Option.mem_toList.mp hp)
        · cases hp
      · exact .inl ⟨_, by decide, mem_singleton.mp hs⟩
    · cases hg
  · split at ha
    · exact .inl ⟨_, by decide, mem_singleton.mp ha⟩
    · cases ha
  · split at hc
    · exact .inl ⟨_, by decide, mem_singleton.mp hc⟩
    · cases hc

section

variable (h : Setting host pc cwd)

include h

theorem origin_of_exposed (hdv : ¬devPath.names <+: p.names)
    (hex : Exposed host pc cwd p) (hor : Origin host pc cwd p v) : v = .readOnly := by
  have hd : accessAt (entriesOf host pc cwd) p = .deny := by
    by_contra hrd
    have hcn := (canRead_asPath h).mpr hrd
    rw [hex.unreadable] at hcn
    cases hcn
  rcases hex.shown with hf | ⟨w, d, hw, ho, hc, hl, htr⟩
  · have hn : ∀ e ∈ entriesOf host pc cwd, e.access ≠ .deny :=
      no_deny_of_fullRead h.restricted hf
    cases hor with
    | masked hu _ _ =>
      obtain ⟨⟨e, he, _, hed⟩, _⟩ := (unreadable_iff h.restricted).mp hu
      exact absurd hed (hn e he)
    | base _ _ hly => exact base_view_full hf hdv hly
    | group hr _ hg =>
      obtain ⟨s, hs, hsp⟩ := hg.touches.exists_root hr
      obtain ⟨u, hu, _, _⟩ := masked_of_deny h hs hsp hd
      obtain ⟨⟨e, he, _, hed⟩, _⟩ := (unreadable_iff h.restricted).mp hu
      exact absurd hed (hn e he)
  · have ht : Touches host pc cwd w p := .inr ⟨d, hc⟩
    have hgd : ∀ {d}, Covers host pc cwd w d p → resolveGitdirFromFile host.toHostEnv
        (joinName host.toHostEnv w ".git") = some d := by
      intro d hc
      refine (mem_defaults hc.byDefault).resolve_left ?_
      rintro ⟨m, hm, rfl⟩
      exact ho ((below_joinName w hm).trans hc.above)
    cases hor with
    | masked _ _ hun => exact absurd ht (hun w hw)
    | base hun _ _ => exact absurd ht (hun w hw)
    | group hr hl' hg =>
      have hsm := LastFor.unique hw hl ht hr hl' hg.touches
      subst hsm
      cases hg with
      | nested _ hwu hup => exact absurd (hwu.trans hup) ho
      | root _ _ hwp => exact absurd hwp ho
      | @subpath d' _ hk hwt hdp =>
        have hc' := (hk.below_or_covers hwt hdp).resolve_left ho
        -- both paths are where the `.git` file of the root points
        have hgt := hgd hc
        have hgt' := hgd hc'
        rw [hgt] at hgt'
        cases hgt'
        rw [shown, htr]
        rfl

theorem origin_of_blocked (hb : Blocked host pc cwd p)
    (ho : Origin host pc cwd p v) : v ≠ .writable := by
  rintro rfl
  have hf := (canWriteAt_of_origin h ho).1
  rcases hb.kept with ha | ⟨w, d, hw, hc, hl⟩
  · rw [hf] at ha
    cases ha
  · have ht : Touches host pc cwd w p := .inr ⟨d, hc⟩
    generalize hv : View.writable = v at ho
    cases ho with
    | masked => cases hv
    | base hu _ _ => exact absurd ht (hu w hw)
    | group hr hl' hg =>
      have hsm := LastFor.unique hw hl ht hr hl' hg.touches
      subst hsm
      cases hg with
      | nested => cases hv
      | subpath => exact absurd hv.symm shown_ne_writable
      | root _ hbr _ =>
        exact hbr d (.byDefault hc.byDefault hc.unnamed) hc.within hc.above

theorem createFilesystemArgs_eq (gd : Option ℕ) :
    createFilesystemArgs host pc cwd gd = match host.nullError with
      | some error =>
        if (planFor host pc cwd (planInputs host pc cwd)).args.any BwrapArg.needsNull then
          .error error
        else .ok (planFor host pc cwd (planInputs host pc cwd))
      | none => .ok (planFor host pc cwd (planInputs host pc cwd)) := by
  rw [createFilesystemArgs, unreadableGlobs_eq_nil h.globFree]
  rfl

theorem createFilesystemArgs_ok (hp : createFilesystemArgs host pc cwd gd = .ok pl) :
    pl = planFor host pc cwd (planInputs host pc cwd) := by
  rw [createFilesystemArgs_eq h] at hp
  split at hp
  · split at hp
    · cases hp
    · cases hp
      rfl
  · cases hp
    rfl

end

/-- The sandbox enforces the policy at a path, unless the path is exposed or blocked. -/
theorem plan_enforces_iff (host : SandboxHost) (policy : FileSystemSandboxPolicy) (cwd : UnixPath)
    (globScanMaxDepth : Option ℕ) (plan : BwrapArgs) (p : AbsolutePathBuf)
    (h : Setting host policy cwd)
    (hplan : createFilesystemArgs host policy cwd globScanMaxDepth = .ok plan)
    (hp : pathExists host p = true) (hdev : ¬devPath.names <+: p.names) :
    Enforces host policy cwd plan.args p ↔
      ¬Exposed host policy cwd p ∧ ¬Blocked host policy cwd p := by
  obtain rfl := createFilesystemArgs_ok h hplan
  obtain ⟨v, hvw⟩ := exists_view h p
  have ho := origin_of_view h hp hvw
  constructor
  · intro hen
    constructor
    · intro he
      have hv := origin_of_exposed h hdev he ho
      rcases hen.readable (.inl (hv ▸ hvw)) with hr | hd
      · rw [he.unreadable] at hr
        cases hr
      · exact he.noDefault hd
    · intro hb
      have hw := hen.kept hb.writable hb.noEmpty
      rw [hvw] at hw
      exact origin_of_blocked h hb ho (Option.some.inj hw)
  · rintro ⟨he, hb⟩
    have hwr : viewAt (planFor host policy cwd (planInputs host policy cwd)).args p =
        some .writable → policy.hasFullDiskWriteAccess = false ∧
          CanWriteAt host.toHostEnv (entriesOf host policy cwd) p := fun hw =>
      canWriteAt_of_origin h (origin_of_view h hp hw)
    refine ⟨fun hw => ?_, fun hrl => ?_, fun hc hn => ?_⟩
    · obtain ⟨hf, hc⟩ := hwr hw
      exact (canWritePathWithCwd_iff hf).mpr hc
    · by_contra hnt
      obtain ⟨hr, hd⟩ := not_or.mp hnt
      have hdn : accessAt (entriesOf host policy cwd) p = .deny :=
        not_not.mp fun hne => hr ((canRead_asPath h).mpr hne)
      rcases hrl with hrd | hw
      · exact he (readable_of_origin h (origin_of_view h hp hrd) hdn hd)
      · have ha := (hwr hw).2.access
        rw [hdn] at ha
        cases ha
    · cases hf : policy.hasFullDiskWriteAccess with
      | true => exact absurd ⟨hc, hn, .inl hf⟩ hb
      | false =>
        rcases writable_of_origin h hf ((canWritePathWithCwd_iff hf).mp hc) ho with
          hv | hk
        · rw [hvw, hv]
        · exact absurd ⟨hc, hn, .inr hk⟩ hb

def hostWith (nodes : List (AbsolutePathBuf × Node)) : SandboxHost where
  homeDir := none
  currentDir := none
  tmpdir := none
  node := fun path => (nodes.find? fun entry => entry.1 = path).map Prod.snd
  empty := fun _ => false
  nullError := none
  expandGlobs := fun _ _ => .ok []

theorem exists_hostWith : pathExists (hostWith ns) p = true ↔ p ∈ ns.map Prod.fst := by
  rw [pathExists, hostWith]
  simp

theorem rooted_hostWith (hc : ∀ p ∈ ns.map Prod.fst, ∀ k ∈ List.range (p.names.length + 1),
      p.take k ∈ ns.map Prod.fst) : Rooted (hostWith ns) := by
  intro p q hqp hp
  rw [exists_hostWith] at hp ⊢
  have ht : p.take q.names.length = q := AbsolutePathBuf.ext_names (prefix_iff_eq_take.mp hqp).symm
  rw [← ht]
  exact hc p hp _ (mem_range.mpr (Nat.lt_succ_of_le hqp.length_le))

def pathOf (names : List String) : AbsolutePathBuf := .ofParts (names.map String.toList)

theorem globFree_of_path (pt : AbsolutePathBuf) (hd : denyEntries ens = [⟨.path pt, .deny⟩]) :
    ∀ en ∈ denyEntries ens, ∀ pattern, en.path ≠ .globPattern pattern := by
  intro en he pattern hp
  rw [hd, mem_singleton] at he
  rw [he] at hp
  cases hp

def workspaceHost : SandboxHost :=
  hostWith [(pathOf [], .directory), (pathOf ["ws"], .directory),
    (pathOf ["ws", ".git"], .directory), (pathOf ["ws", "src"], .directory),
    (pathOf ["ws", "key"], .file (some "secret"))]

def workspacePolicy : FileSystemSandboxPolicy where
  kind := .restricted
  entries := [⟨.path (pathOf ["ws"]), .write⟩, ⟨.path (pathOf ["ws", "key"]), .deny⟩]

def workspaceDir : UnixPath := .ofStr "/ws"

theorem workspace_setting : Setting workspaceHost workspacePolicy workspaceDir where
  restricted := rfl
  globFree := globFree_of_path (pathOf ["ws", "key"]) (by decide)
  named := by decide +kernel
  rooted := rooted_hostWith (by decide +kernel)

theorem plan_enforces_workspace :
    ∃ plan, createFilesystemArgs workspaceHost workspacePolicy workspaceDir none = .ok plan ∧
      Enforces workspaceHost workspacePolicy workspaceDir plan.args (pathOf ["ws", "src"]) := by
  have hp := createFilesystemArgs_eq workspace_setting none
  refine ⟨_, hp, ?_⟩
  apply (plan_enforces_iff workspaceHost workspacePolicy workspaceDir none _ (pathOf ["ws", "src"])
    workspace_setting hp (by decide +kernel) (by decide)).mpr
  constructor
  · intro he
    have hr : canReadPathWithCwd workspaceHost.toHostEnv workspacePolicy
        (pathOf ["ws", "src"]).asPath workspaceDir = true := by decide +kernel
    rw [he.unreadable] at hr
    cases hr
  · intro hb
    rcases hb.kept with hf | ⟨w, d, hw, hc, _⟩
    · revert hf
      decide
    · have hrt : rootPaths workspaceHost workspacePolicy workspaceDir = [pathOf ["ws"]] := by
        decide +kernel
      rw [IsRoot, hrt, mem_singleton] at hw
      subst hw
      have hd : ∀ d ∈ defaultReadOnlySubpathsForWritableRoot workspaceHost.toHostEnv
          (pathOf ["ws"]) (isCwdRoot workspaceHost.toHostEnv workspaceDir (pathOf ["ws"])),
          ¬d.names <+: (pathOf ["ws", "src"]).names := by decide +kernel
      exact hd d hc.byDefault hc.above

/-- A repository whose `.git` file points into another root, above a key that is denied there. -/
def pointingHost : SandboxHost :=
  hostWith [(pathOf [], .directory), (pathOf ["a"], .directory), (pathOf ["a", "x"], .directory),
    (pathOf ["a", "x", "key"], .file (some "secret")), (pathOf ["b"], .directory),
    (pathOf ["b", "repo"], .directory),
    (pathOf ["b", "repo", ".git"], .file (some "gitdir: /a/x"))]

def pointingPolicy : FileSystemSandboxPolicy where
  kind := .restricted
  entries := [⟨.path (pathOf ["a"]), .write⟩, ⟨.path (pathOf ["a", "x", "key"]), .deny⟩,
    ⟨.path (pathOf ["b", "repo"]), .write⟩]

def repositoryDir : UnixPath := .ofStr "/b/repo"

theorem pointing_setting : Setting pointingHost pointingPolicy repositoryDir where
  restricted := rfl
  globFree := globFree_of_path (pathOf ["a", "x", "key"]) (by decide)
  named := by decide +kernel
  rooted := rooted_hostWith (by decide +kernel)

/-- The key is masked with the first root and shown again by the second. -/
theorem pointed_key_shown : Setting pointingHost pointingPolicy repositoryDir ∧
    pathExists pointingHost (pathOf ["a", "x", "key"]) = true ∧
    (∃ plan, createFilesystemArgs pointingHost pointingPolicy repositoryDir none = .ok plan ∧
      viewAt plan.args (pathOf ["a", "x", "key"]) = some .readOnly) ∧
    canReadPathWithCwd pointingHost.toHostEnv pointingPolicy (pathOf ["a", "x", "key"]).asPath
      repositoryDir = false ∧ (linuxPlatformDefaultReadRoots.any fun d =>
      (pathOf ["a", "x", "key"]).startsWith d) = false := by
  refine ⟨pointing_setting, by decide +kernel,
    ⟨_, createFilesystemArgs_eq pointing_setting none, ?_⟩, by decide +kernel, by decide +kernel⟩
  decide +kernel

end Plan

end MountEnforcement
