import CodexTeams.SandboxPolicy

/-! Writable roots against the policy they come from. The directory of an inner writable entry is
protected by the policy and by the inner root, but an outer root does not know about it. -/
namespace WritableRoots

open RustStr RustIter Paths SandboxPolicy List AbsolutePathBuf FileSystemAccessMode

section Entries

variable {es : List ResolvedFileSystemEntry} {p q r : AbsolutePathBuf}
  (entries : List ResolvedFileSystemEntry)

/-- An entry makes the path writable, and none denies it. -/
def Overridden (q : AbsolutePathBuf) : Prop :=
  (∃ e ∈ entries, e.path = q ∧ e.access = .write) ∧ ∀ e ∈ entries, e.path = q → e.access ≠ .deny

/-- Writable for the policy, once it is known not to cover the whole disk. -/
structure CanWriteAt (env : HostEnv) (entries : List ResolvedFileSystemEntry)
    (q : AbsolutePathBuf) : Prop where
  access : accessAt entries q = .write
  metadata : metadataDeniedAt env entries q = false

theorem canWrite_iff {a : FileSystemAccessMode} : a.canWrite = true ↔ a = .write := by
  cases a <;> simp [canWrite]

variable {e : ResolvedFileSystemEntry} {m : Str}

theorem precedence_le_iff : resolvedEntryPrecedence e ≤ resolvedEntryPrecedence f ↔
      e.path.names.length < f.path.names.length ∨
        e.path.names.length = f.path.names.length ∧ e.access ≤ f.access := by
  rw [resolvedEntryPrecedence, resolvedEntryPrecedence, Prod.Lex.toLex_le_toLex]
  simp

theorem mem_above :
    f ∈ (es.filter fun en => p.startsWith en.path) ↔ f ∈ es ∧ f.path.names <+: p.names := by
  rw [mem_filter, AbsolutePathBuf.startsWith_iff]

/-- An entry at or above the path that no other such entry beats. -/
structure Best (entries : List ResolvedFileSystemEntry) (p : AbsolutePathBuf)
    (e : ResolvedFileSystemEntry) : Prop where
  mem : e ∈ entries
  above : e.path.names <+: p.names
  le : ∀ f ∈ entries, f.path.names <+: p.names →
    resolvedEntryPrecedence f ≤ resolvedEntryPrecedence e

theorem best_of_max (h : maxByKey resolvedEntryPrecedence (es.filter fun en =>
    p.startsWith en.path) = some e) : Best es p e := by
  obtain ⟨hm, hle⟩ := maxByKey_spec h
  obtain ⟨he, ha⟩ := mem_above.mp hm
  exact ⟨he, ha, fun f hf hfp => hle f (mem_above.mpr ⟨hf, hfp⟩)⟩

theorem exists_best (he : e ∈ es) (ha : e.path.names <+: p.names) : ∃ b, Best es p b := by
  cases hm : maxByKey resolvedEntryPrecedence (es.filter fun en => p.startsWith en.path) with
  | some b => exact ⟨b, best_of_max hm⟩
  | none =>
    have hmm := mem_above.mpr ⟨he, ha⟩
    rw [maxByKey_eq_none.mp hm] at hmm
    cases hmm

theorem exists_best_of_access (h : accessAt es p ≠ .deny) : ∃ b, Best es p b := by
  rw [accessAt] at h
  split at h
  · rename_i b hm
    exact ⟨b, best_of_max hm⟩
  · contradiction

theorem path_eq_of_le (h : p.names <+: q.names) (hl : q.names.length ≤ p.names.length) : p = q :=
  ext_names (h.eq_of_length_le hl)

section

variable (h : Best es p e)

include h

theorem Best.accessAt_eq : accessAt es p = e.access := by
  unfold accessAt
  split
  · rename_i f hm
    have hf := best_of_max hm
    have hk := le_antisymm (h.le f hf.mem hf.above) (hf.le e h.mem h.above)
    exact congrArg (fun key : ℕ ×ₗ FileSystemAccessMode => (ofLex key).2) hk
  · rename_i hn
    have hm := mem_above.mpr ⟨h.mem, h.above⟩
    rw [maxByKey_eq_none.mp hn] at hm
    cases hm

theorem Best.cases (hf : f ∈ es) (ha : f.path.names <+: p.names) :
    f.path.names.length < e.path.names.length ∨ f.path = e.path ∧ f.access ≤ e.access := by
  rcases precedence_le_iff.mp (h.le f hf ha) with hlt | ⟨heq, hle⟩
  · exact .inl hlt
  · have hs := prefix_of_prefix_length_le ha h.above heq.le
    exact .inr ⟨path_eq_of_le hs heq.ge, hle⟩

theorem Best.length_le (hf : f ∈ es) (ha : f.path.names <+: p.names) :
    f.path.names.length ≤ e.path.names.length := by
  rcases h.cases hf ha with hlt | ⟨hp, -⟩
  · exact hlt.le
  · rw [hp]

theorem Best.length_lt (hf : f ∈ es) (ha : f.path.names <+: p.names)
    (hac : ¬f.access ≤ e.access) : f.path.names.length < e.path.names.length :=
  (h.cases hf ha).resolve_right fun hs => hac hs.2

/-- The best entry is none that a write entry at the same path beats. -/
theorem Best.not_beaten (hf : f ∈ es) (hp : f.path = e.path) (hw : f.access = .write)
    (hr : e.access ≠ .write) : e.access = .deny := by
  cases he : e.access with
  | read =>
    have hl := h.length_lt hf (hp ▸ h.above) (by rw [hw, he]; decide)
    rw [hp] at hl
    exact absurd hl (Nat.lt_irrefl _)
  | write => exact absurd he hr
  | deny => rfl

/-- The best entry for a path is the best one for every path between the two. -/
theorem Best.between (hep : e.path.names <+: q.names) (hqp : q.names <+: p.names) : Best es q e :=
  ⟨h.mem, hep, fun f hf hfq => h.le f hf (hfq.trans hqp)⟩

theorem Best.of_subset (he : e ∈ l) (hs : l ⊆ es) : Best l p e :=
  ⟨he, h.above, fun f hf hfp => h.le f (hs hf) hfp⟩

end

theorem exists_best_of_write (h : accessAt es p = .write) :
    ∃ b, Best es p b ∧ b.access = .write := by
  obtain ⟨b, hb⟩ := exists_best_of_access (by rw [h]; decide)
  exact ⟨b, hb, hb.accessAt_eq.symm.trans h⟩

/-- Among the entries at or above the path, the one that opens it comes last. -/
theorem Overridden.best (h : Overridden es q) :
    ∃ e, Best es q e ∧ e.path = q ∧ e.access = .write := by
  obtain ⟨⟨e, he, hp, hw⟩, hd⟩ := h
  refine ⟨e, ⟨he, hp ▸ prefix_rfl, fun f hf hfq => ?_⟩, hp, hw⟩
  rw [precedence_le_iff, hp, hw]
  by_cases hl : f.path.names.length < q.names.length
  · exact .inl hl
  · have hfp := path_eq_of_le hfq (by omega)
    refine .inr ⟨by rw [hfp], ?_⟩
    have hn := hd f hf hfp
    cases hfa : f.access with
    | read => decide
    | write => exact le_refl _
    | deny => exact absurd hfa hn

theorem accessAt_entry_iff (hn : n ∈ es) : accessAt es n.path = .write ↔ Overridden es n.path := by
  constructor
  · intro h
    obtain ⟨e, he, hw⟩ := exists_best_of_write h
    have hp := path_eq_of_le he.above (he.length_le hn prefix_rfl)
    refine ⟨⟨e, he.mem, hp, hw⟩, fun f hf hfp hd => ?_⟩
    have hlt := he.length_lt hf (hfp ▸ prefix_rfl) (by rw [hd, hw]; decide)
    rw [hfp, hp] at hlt
    exact absurd hlt (Nat.lt_irrefl _)
  · intro h
    obtain ⟨e, he, -, hw⟩ := h.best
    exact he.accessAt_eq.trans hw

theorem mem_protected (hm : m ∈ protectedMetadataPathNames) :
    UnixPath.ofStr m = ⟨false, [m]⟩ ∧ m ≠ "~" ∧ NormalName m := by
  have ha : ∀ m ∈ protectedMetadataPathNames,
      UnixPath.ofStr m = ⟨false, [m]⟩ ∧ m ≠ "~" ∧ NormalName m := by decide
  exact ha m hm

theorem joinName_names (r : AbsolutePathBuf) (hm : m ∈ protectedMetadataPathNames) :
    (joinName env r m).names = r.names ++ [m] := by
  obtain ⟨ho, hh, hn⟩ := mem_protected hm
  rw [joinName, ho]
  exact join_name env.toProcessEnv r hh hn

theorem below_joinName (r : AbsolutePathBuf) (hm : m ∈ protectedMetadataPathNames) :
    r.names <+: (joinName env r m).names := by
  rw [joinName_names r hm]
  exact prefix_append r.names [m]

theorem metadataChildOf_eq_some : metadataChildOf env p e = some (q, m) ↔
      m ∈ protectedMetadataPathNames ∧ q = joinName env e.path m ∧ q.names <+: p.names := by
  unfold metadataChildOf
  constructor
  · intro h
    split at h
    · rename_i first rs hs
      split_ifs at h with hf
      cases h
      have hm := contains_iff_mem.mp hf
      refine ⟨hm, rfl, rs, ?_⟩
      rw [joinName_names e.path hm, ← stripPrefix_eq_some.mp hs, append_assoc]
      rfl
    · cases h
  · rintro ⟨hm, rfl, rs, hr⟩
    rw [joinName_names e.path hm, append_assoc] at hr
    rw [stripPrefix_eq_some.mpr hr]
    exact if_pos (contains_iff_mem.mpr hm)

theorem metadataChild_spec (h : metadataChildOfWritableRoot env es p = some (q, m)) :
    ∃ e ∈ es, e.access = .write ∧ q.names = e.path.names ++ [m] ∧
      m ∈ protectedMetadataPathNames ∧ q = joinName env e.path m ∧ q.names <+: p.names := by
  obtain ⟨e, he, hc⟩ := exists_of_findSome?_eq_some h
  obtain ⟨he, hw⟩ := mem_filter.mp he
  obtain ⟨hm, hq, hqp⟩ := metadataChildOf_eq_some.mp hc
  exact ⟨e, he, canWrite_iff.mp hw, hq ▸ joinName_names e.path hm, hm, hq, hqp⟩

/-- If what `f` finds is found first by `g` too, and `g` finds nothing that `f` does not. -/
theorem findSome_of_agree {l : List α} (hf : l.findSome? f = some b)
    (hb : ∀ a ∈ l, ∀ c, g a = some c → f a = some c) (ht : ∀ a ∈ l, f a = some b → g a = some b) :
    l.findSome? g = some b := by
  induction l with
  | nil => cases hf
  | cons a l ih =>
    rw [List.findSome?_cons] at hf ⊢
    cases hfa : f a with rw [hfa] at hf
    | none =>
      cases hga : g a with
      | none =>
        exact ih hf (fun a ha => hb a (mem_cons_of_mem _ ha))
          fun a ha => ht a (mem_cons_of_mem _ ha)
      | some c => rw [hb a mem_cons_self c hga] at hfa; cases hfa
    | some c =>
      cases hf
      rw [ht a mem_cons_self hfa]

theorem metadataChild_self (h : metadataChildOfWritableRoot env es p = some (q, m)) :
    metadataChildOfWritableRoot env es q = some (q, m) := by
  obtain ⟨_, _, _, _, _, _, hqp⟩ := metadataChild_spec h
  refine findSome_of_agree h ?_ ?_
  · rintro e - ⟨q', m'⟩ hc
    obtain ⟨hm, hq', hle⟩ := metadataChildOf_eq_some.mp hc
    exact metadataChildOf_eq_some.mpr ⟨hm, hq', hle.trans hqp⟩
  · intro e _ hc
    obtain ⟨hm, hq, _⟩ := metadataChildOf_eq_some.mp hc
    exact metadataChildOf_eq_some.mpr ⟨hm, hq, prefix_rfl⟩

/-- No entry makes the path writable from inside the metadata directory. -/
def Unopened (q p : AbsolutePathBuf) : Prop :=
  ∀ e ∈ entries, e.access = .write → e.path.names <+: p.names → ¬q.names <+: e.path.names

theorem hasExplicitWrite_eq_false :
    hasExplicitWriteEntryForMetadataPath es q p = false ↔ Unopened es q p := by
  rw [hasExplicitWriteEntryForMetadataPath, any_eq_false]
  simp only [Bool.and_eq_true, canWrite_iff, AbsolutePathBuf.startsWith_iff, not_and]
  exact ⟨fun h e he hw hep => h e he ⟨hw, hep⟩, fun h e he ⟨hw, hep⟩ => h e he hw hep⟩

theorem metadataDenied_iff : metadataDeniedAt env es p = true ↔
      ∃ q m, metadataChildOfWritableRoot env es p = some (q, m) ∧ Unopened es q p := by
  unfold metadataDeniedAt
  cases hc : metadataChildOfWritableRoot env es p with
  | none => simp
  | some c =>
    obtain ⟨q, m⟩ := c
    simp only [Bool.not_eq_true', hasExplicitWrite_eq_false, Option.some.injEq, Prod.mk.injEq]
    constructor
    · intro h
      exact ⟨q, m, ⟨rfl, rfl⟩, h⟩
    · rintro ⟨q', m', ⟨rfl, rfl⟩, h⟩
      exact h

theorem canWriteAt_entry_iff (hn : n ∈ es) : CanWriteAt env es n.path ↔ Overridden es n.path := by
  constructor
  · intro h
    exact (accessAt_entry_iff hn).mp h.access
  · intro h
    refine ⟨(accessAt_entry_iff hn).mpr h, Bool.eq_false_iff.mpr fun hd => ?_⟩
    -- the entry that makes the path writable opens its metadata directory as well
    obtain ⟨q, m, hc, hu⟩ := metadataDenied_iff.mp hd
    obtain ⟨_, _, _, _, _, _, hqn⟩ := metadataChild_spec hc
    obtain ⟨e, he, hp, hw⟩ := h.1
    exact hu e he hw (hp ▸ prefix_rfl) (hp ▸ hqn)

/-- When a root leaves the metadata directory of that name open: an entry opens it, or the
policy finds the directory below an entry further up, for which the root itself is an opening. -/
def ChildOpen (env : HostEnv) (entries : List ResolvedFileSystemEntry) (r : AbsolutePathBuf)
    (m : Str) : Prop :=
  Overridden entries (joinName env r m) ∨ (∀ e ∈ entries, e.path ≠ joinName env r m) ∧
      ∃ q m', metadataChildOfWritableRoot env entries (joinName env r m) = some (q, m') ∧
        q ≠ joinName env r m

section

variable (hr : Overridden es r)

include hr

theorem accessAt_child (hm : m ∈ protectedMetadataPathNames)
    (hn : ∀ e ∈ es, e.path ≠ joinName env r m) : accessAt es (joinName env r m) = .write := by
  obtain ⟨e, he, hp, hw⟩ := hr.best
  have hc : (joinName env r m).names = r.names ++ [m] := joinName_names r hm
  have hb : Best es (joinName env r m) e := by
    refine ⟨he.mem, hp ▸ below_joinName r hm, fun f hf hfc => ?_⟩
    have hne : f.path.names ≠ (joinName env r m).names := fun h => hn f hf (ext_names h)
    rw [hc] at hfc hne
    exact he.le f hf ((prefix_concat_iff.mp hfc).resolve_left hne)
  exact hb.accessAt_eq.trans hw

theorem canWriteAt_child_iff (hm : m ∈ protectedMetadataPathNames) :
    CanWriteAt env es (joinName env r m) ↔ ChildOpen env es r m := by
  have hc : (joinName env r m).names = r.names ++ [m] := joinName_names r hm
  by_cases hen : ∃ n ∈ es, n.path = joinName env r m
  · obtain ⟨n, hn, hp⟩ := hen
    rw [← hp, canWriteAt_entry_iff hn, ChildOpen, ← hp]
    constructor
    · exact .inl
    · rintro (h | ⟨hnn, _⟩)
      · exact h
      · exact absurd rfl (hnn n hn)
  · have hnn : ∀ e ∈ es, e.path ≠ joinName env r m := fun e he h => hen ⟨e, he, h⟩
    obtain ⟨e, he, hp, hw⟩ := hr.1
    constructor
    · intro h
      refine .inr ⟨hnn, ?_⟩
      cases hfn : metadataChildOfWritableRoot env es (joinName env r m) with
      | none =>
        -- the root has the directory right below it
        have hmm : e ∈ es.filter fun en => en.access.canWrite :=
          mem_filter.mpr ⟨he, canWrite_iff.mpr hw⟩
        have hfd := List.findSome?_eq_none_iff.mp hfn e hmm
        have hs : metadataChildOf env (joinName env r m) e = some (joinName env r m, m) :=
          metadataChildOf_eq_some.mpr ⟨hm, by rw [hp], prefix_rfl⟩
        rw [hs] at hfd
        cases hfd
      | some fn =>
        obtain ⟨q, m'⟩ := fn
        refine ⟨q, m', rfl, fun hq => ?_⟩
        have hd : metadataDeniedAt env es (joinName env r m) = true := by
          refine metadataDenied_iff.mpr ⟨q, m', hfn, fun f hf _ hfc hqf => ?_⟩
          exact hnn f hf (path_eq_of_le hfc (hq ▸ hqf.length_le))
        rw [h.metadata] at hd
        cases hd
    · rintro (⟨⟨f, hf, hfp, _⟩, _⟩ | ⟨_, q, m', hfn, hq⟩)
      · exact absurd hfp (hnn f hf)
      · refine ⟨accessAt_child hr hm hnn, Bool.eq_false_iff.mpr fun hd => ?_⟩
        obtain ⟨q', m'', hfn', hu⟩ := metadataDenied_iff.mp hd
        rw [hfn] at hfn'
        cases hfn'
        obtain ⟨_, _, _, _, _, _, hqc⟩ := metadataChild_spec hfn
        have hne : q.names ≠ (joinName env r m).names := fun h => hq (ext_names h)
        rw [hc] at hqc hne
        have hqr : q.names <+: r.names := (prefix_concat_iff.mp hqc).resolve_left hne
        refine hu e he hw ?_ (hp ▸ hqr)
        rw [hp, hc]
        exact prefix_append r.names [m]

theorem accessAt_of_uncarved (hbl : r.names <+: p.names)
    (hu : ∀ n ∈ es, n.access ≠ .write → r.names <+: n.path.names → n.path ≠ r →
      n.path.names <+: p.names → Overridden es n.path) : accessAt es p = .write := by
  obtain ⟨⟨e, he, hp, hwr⟩, hd⟩ := hr
  obtain ⟨b, hb⟩ := exists_best he (hp ▸ hbl)
  rw [hb.accessAt_eq]
  by_contra hn
  have hl := hb.length_le he (hp ▸ hbl)
  rw [hp] at hl
  have hrb := prefix_of_prefix_length_le hbl hb.above hl
  by_cases hbr : b.path = r
  · exact hd b hb.mem hbr (hb.not_beaten he (hp.trans hbr.symm) hwr hn)
  · obtain ⟨⟨f, hf, hfp, hfw⟩, hbd⟩ := hu b hb.mem hn hrb hbr hb.above
    exact hbd b hb.mem rfl (hb.not_beaten hf hfp hfw hn)

/-- What a root grants, by the entries. -/
structure Reaches (env : HostEnv) (entries : List ResolvedFileSystemEntry)
    (protectMissingDotCodex : Bool) (r p : AbsolutePathBuf) : Prop where
  below : r.names <+: p.names
  uncarved : ∀ n ∈ entries, n.access ≠ .write → r.names <+: n.path.names → n.path ≠ r →
    n.path.names <+: p.names → Overridden entries n.path
  defaults : ∀ d ∈ defaultReadOnlySubpathsForWritableRoot env r protectMissingDotCodex,
    (∀ e ∈ entries, e.path ≠ d) → ¬d.names <+: p.names
  metadata : ∀ m ∈ protectedMetadataPathNames, r.names ++ [m] <+: p.names →
    ChildOpen env entries r m

/-- A root never grants against the most specific entry. -/
theorem Reaches.accessAt_eq (h : Reaches env es pm r p) : accessAt es p = .write :=
  accessAt_of_uncarved hr h.below h.uncarved

/-- A path in a metadata directory that the policy protects below an inner writable entry, and
that a root further up reaches. -/
def ShadowedMetadata (env : HostEnv) (entries : List ResolvedFileSystemEntry)
    (protectMissingDotCodex : AbsolutePathBuf → Bool) (p : AbsolutePathBuf) : Prop :=
  ∃ q m, metadataChildOfWritableRoot env entries p = some (q, m) ∧ Unopened entries q p ∧
    ∃ r, Overridden entries r ∧ r.names.length + 1 < q.names.length ∧
      Reaches env entries (protectMissingDotCodex r) r p

/-- Where a root grants what the policy denies, the policy's metadata directory lies deeper
than any of the root's own. -/
theorem Reaches.shadowed (h : Reaches env es (pm r) r p)
    (hd : metadataDeniedAt env es p = true) : ShadowedMetadata env es pm p := by
  obtain ⟨q, m, hfn, hu⟩ := metadataDenied_iff.mp hd
  obtain ⟨e, he, hw, hq, hm, hqe, hqp⟩ := metadataChild_spec hfn
  refine ⟨q, m, hfn, hu, r, hr, ?_, h⟩
  have hql : q.names.length = e.path.names.length + 1 := by
    rw [hq, length_append, length_singleton]
  obtain ⟨f, hf, hfp, hfw⟩ := hr.1
  have hrq : r.names.length < q.names.length := by
    by_contra hl
    have hqr := prefix_of_prefix_length_le hqp h.below (by omega)
    exact hu f hf hfw (hfp ▸ h.below) (hfp ▸ hqr)
  by_contra hn
  have hep := (hq ▸ prefix_append e.path.names [m]).trans hqp
  have hre : r = e.path :=
    path_eq_of_le (prefix_of_prefix_length_le h.below hep (by omega)) (by omega)
  -- the directory is the root's own, which then has to be open for the root
  subst hre
  rcases h.metadata m hm (hq ▸ hqp) with ⟨⟨g, hg, hgp, hgw⟩, _⟩ | ⟨_, q', m', hs, hne⟩
  · rw [← hqe] at hgp
    exact hu g hg hgw (hgp ▸ hqp) (hgp ▸ prefix_rfl)
  · rw [← hqe, metadataChild_self hfn] at hs
    cases hs
    exact hne hqe

end

end Entries

section Roots

variable {pl : FileSystemSandboxPolicy}
variable {p r : AbsolutePathBuf}

theorem resolveCandidatePath_asPath : resolveCandidatePath env p.asPath cwd = some p := by
  exact (if_pos rfl).trans (fromAbsolutePath_asPath env.toProcessEnv p)

theorem kind_restricted (hf : pl.hasFullDiskWriteAccess = false) : pl.kind = .restricted := by
  unfold FileSystemSandboxPolicy.hasFullDiskWriteAccess at hf
  cases hk : pl.kind with
  | restricted => rfl
  | _ => rw [hk] at hf; cases hf

theorem canWritePathWithCwd_iff (hf : pl.hasFullDiskWriteAccess = false) :
    canWritePathWithCwd env pl p.asPath cwd = true ↔
      CanWriteAt env (resolvedEntriesWithCwd env pl cwd) p := by
  have hk := kind_restricted hf
  have ha : resolveAccessWithCwd env pl p.asPath cwd =
      accessAt (resolvedEntriesWithCwd env pl cwd) p := by
    simp [resolveAccessWithCwd, hk, resolveCandidatePath_asPath]
  have hd : isMetadataWriteDenied env pl p.asPath cwd =
      metadataDeniedAt env (resolvedEntriesWithCwd env pl cwd) p := by
    unfold isMetadataWriteDenied
    rw [if_neg (not_not.mpr hk), resolveCandidatePath_asPath]
  unfold canWritePathWithCwd
  rw [ha, hd, hf]
  by_cases hw : accessAt (resolvedEntriesWithCwd env pl cwd) p = .write
  · rw [if_neg (by simp [hw, canWrite]), if_neg Bool.false_ne_true, Bool.not_eq_true']
    exact ⟨fun h => ⟨hw, h⟩, fun h => h.metadata⟩
  · have hc : canWrite (accessAt (resolvedEntriesWithCwd env pl cwd) p) = false :=
      Bool.eq_false_iff.mpr fun h => hw (canWrite_iff.mp h)
    rw [if_pos (by rw [hc]; rfl)]
    exact ⟨fun h => absurd h Bool.false_ne_true, fun h => absurd h.access hw⟩

@[simp] theorem normalizeEffectiveAbsolutePath_eq (path : AbsolutePathBuf) :
    normalizeEffectiveAbsolutePath env path = path := by
  unfold normalizeEffectiveAbsolutePath
  rw [Option.getD_eq_iff]
  cases hf : path.ancestors.findSome? fun a => do
      let na ← env.canonicalize a
      let suffix ← path.stripPrefix a
      fromAbsolutePath env.toProcessEnv
        (na.asPath.join ⟨false, suffix⟩) with
  | none => exact .inr ⟨rfl, rfl⟩
  | some fn =>
    obtain ⟨a, _, hs⟩ := exists_of_findSome?_eq_some hf
    simp only [Option.bind_eq_bind, Option.bind_eq_some_iff, HostEnv.canonicalize,
      Option.map_eq_some_iff] at hs
    obtain ⟨_, ⟨_, _, rfl⟩, suffix, hst, hp⟩ := hs
    have hn := stripPrefix_eq_some.mp hst
    have hj : a.asPath.join ⟨false, suffix⟩ = path.asPath := by
      have hsf : suffix.filter (· ≠ curDir) = suffix :=
        filter_eq_self.mpr fun n hnm => decide_eq_true
          (path.normal n (hn ▸ mem_append_right _ hnm)).1
      rw [UnixPath.join, if_neg Bool.false_ne_true, asPath, hsf, hn]
      rfl
    rw [hj, fromAbsolutePath_asPath] at hp
    exact .inl hp.symm

theorem carveout_eq_some (hrw : ∀ raw ∈ rs, raw = r) :
    carveout env r rs n = some c ↔ n = c ∧ r.names <+: n.names ∧ n ≠ r := by
  unfold carveout
  by_cases hs : n = r
  · simp [hs]
  by_cases hb : n.startsWith r = true
  · have hle := startsWith_iff.mp hb
    by_cases hp : r.parent.isNone = true <;> simp [hp, hs, hb, hle]
  · have hn : ¬r.names <+: n.names := fun h => hb (startsWith_iff.mpr h)
    have hr : rs.findSome? (carveoutBelow env r n) = none := by
      refine List.findSome?_eq_none_iff.mpr fun raw hr => ?_
      rw [hrw raw hr, carveoutBelow]
      cases hst : n.stripPrefix r with
      | none => rfl
      | some rt => exact absurd ⟨rt, stripPrefix_eq_some.mp hst⟩ hn
    simp [hr, hb, hn]

/-- The root of the working directory keeps a `.codex` that is not there yet. -/
def isCwdRoot (env : HostEnv) (cwd : UnixPath) (r : AbsolutePathBuf) : Bool :=
  AbsolutePathBuf.fromAbsolutePath env.toProcessEnv cwd == some r

theorem mem_rawWritableRoots {wes : List AbsolutePathBuf}
    (h : raw ∈ wes.filter fun pt => normalizeEffectiveAbsolutePath env pt = r) : raw = r := by
  have hr := of_decide_eq_true (mem_filter.mp h).2
  rwa [normalizeEffectiveAbsolutePath_eq] at hr

theorem mem_protectedMetadataNames (hf : pl.hasFullDiskWriteAccess = false)
    (hr : ∀ raw ∈ rs, raw = r) :
    m ∈ protectedMetadataNamesForWritableRoot env pl r rs cwd ↔ m ∈ protectedMetadataPathNames ∧
        ¬CanWriteAt env (resolvedEntriesWithCwd env pl cwd) (joinName env r m) := by
  rw [protectedMetadataNamesForWritableRoot, mem_filter, all_cons, Bool.and_eq_true,
    Bool.not_eq_true', ← Bool.not_eq_true, canWritePathWithCwd_iff hf]
  refine and_congr_right fun _ => and_iff_left_of_imp fun hd => ?_
  rw [all_eq_true]
  intro pt hp
  obtain ⟨raw, hrw, rfl⟩ := mem_map.mp hp
  rw [hr raw hrw, Bool.not_eq_true', ← Bool.not_eq_true, canWritePathWithCwd_iff hf]
  exact hd

theorem mem_readOnlySubpaths (hf : pl.hasFullDiskWriteAccess = false)
    (wes : List AbsolutePathBuf) {pt : AbsolutePathBuf} :
    pt ∈ (writableRootFor env pl cwd wes r).readOnlySubpaths ↔
      (pt ∈ defaultReadOnlySubpathsForWritableRoot env r (isCwdRoot env cwd r) ∧
        ∀ e ∈ resolvedEntriesWithCwd env pl cwd, e.path ≠ pt) ∨
      ∃ n ∈ resolvedEntriesWithCwd env pl cwd, n.access ≠ .write ∧
        ¬Overridden (resolvedEntriesWithCwd env pl cwd) n.path ∧
        n.path = pt ∧ r.names <+: n.path.names ∧ n.path ≠ r := by
  have hc : ((fromAbsolutePath env.toProcessEnv cwd).any fun cwd =>
      normalizeEffectiveAbsolutePath env cwd = r) = isCwdRoot env cwd r := by
    unfold isCwdRoot
    cases fromAbsolutePath env.toProcessEnv cwd with
    | none => rfl
    | some cwd => simp [Bool.beq_eq_decide_eq]
  unfold writableRootFor dedupAbsolutePaths
  simp only [hc, Bool.false_eq_true, if_false, mem_dedupFrom, not_mem_nil, not_false_eq_true,
    and_true, mem_append]
  refine or_congr ?_ ?_
  · simp
  · simp only [mem_filterMap, mem_filter, Bool.not_eq_true', ← Bool.not_eq_true,
      canWrite_iff, canWritePathWithCwd_iff hf, carveout_eq_some fun _ => mem_rawWritableRoots]
    constructor
    · rintro ⟨n, ⟨⟨hn, hw⟩, hd⟩, hp⟩
      exact ⟨n, hn, hw, fun h => hd ((canWriteAt_entry_iff hn).mpr h), hp⟩
    · rintro ⟨n, hn, hw, hd, hp⟩
      exact ⟨n, ⟨⟨hn, hw⟩, fun h => hd ((canWriteAt_entry_iff hn).mp h)⟩, hp⟩

variable (w : WritableRoot)

theorem pathContainsProtectedMetadataName_iff :
    w.pathContainsProtectedMetadataName p.asPath = true ↔
      ∃ m ∈ w.protectedMetadataNames, w.root.names ++ [m] <+: p.names := by
  have hb : ∀ m, w.root.names ++ [m] <+: p.names ↔ ∃ rs, p.stripPrefix w.root = some (m :: rs) := by
    intro m
    simp [AbsolutePathBuf.stripPrefix_eq_some, List.IsPrefix]
  have hs : w.root.names.isPrefixOf? p.asPath.parts = p.stripPrefix w.root := rfl
  simp only [hb, WritableRoot.pathContainsProtectedMetadataName, hs]
  cases p.stripPrefix w.root with
  | none => simp
  | some ns =>
    cases ns with
    | nil => simp
    | cons first rs => simp [asPath]

theorem isPathWritable_asPath : w.isPathWritable p.asPath = true ↔
      w.root.names <+: p.names ∧ (∀ d ∈ w.readOnlySubpaths, ¬d.names <+: p.names) ∧
        ∀ m ∈ w.protectedMetadataNames, ¬w.root.names ++ [m] <+: p.names := by
  have hs : ∀ b : AbsolutePathBuf, UnixPath.startsWith p.asPath b = true ↔ b.names <+: p.names :=
    fun b => startsWith_iff
  unfold WritableRoot.isPathWritable
  by_cases hr : w.root.names <+: p.names
  · by_cases hsb : ∃ d ∈ w.readOnlySubpaths, d.names <+: p.names
    · have ha : (w.readOnlySubpaths.any fun d => UnixPath.startsWith p.asPath d) = true := by
        simpa [hs] using hsb
      rw [if_neg (by simp [hs, hr]), if_pos ha]
      obtain ⟨d, hd, hdp⟩ := hsb
      exact iff_of_false Bool.false_ne_true fun h => h.2.1 d hd hdp
    · have hn : ∀ d ∈ w.readOnlySubpaths, ¬d.names <+: p.names :=
        fun d hd hdp => hsb ⟨d, hd, hdp⟩
      rw [if_neg (by simp [hs, hr]), if_neg (by simpa [hs] using hn),
        Bool.not_eq_true', ← Bool.not_eq_true, pathContainsProtectedMetadataName_iff]
      constructor
      · intro h
        exact ⟨hr, hn, fun m hm hmp => h ⟨m, hm, hmp⟩⟩
      · rintro ⟨_, _, h⟩ ⟨m, hm, hmp⟩
        exact h m hm hmp
  · rw [if_pos (by rw [Bool.not_eq_true', ← Bool.not_eq_true, hs]; exact hr)]
    exact iff_of_false Bool.false_ne_true fun h => hr h.1

section

variable (hf : pl.hasFullDiskWriteAccess = false)

include hf

theorem isPathWritable_iff (wes : List AbsolutePathBuf)
    (hr : Overridden (resolvedEntriesWithCwd env pl cwd) r) :
    (writableRootFor env pl cwd wes r).isPathWritable p.asPath = true ↔
      Reaches env (resolvedEntriesWithCwd env pl cwd) (isCwdRoot env cwd r) r p := by
  have hmt : ∀ m, m ∈ (writableRootFor env pl cwd wes
      r).protectedMetadataNames ↔ m ∈ protectedMetadataPathNames ∧
        ¬CanWriteAt env (resolvedEntriesWithCwd env pl cwd) (joinName env r m) :=
    fun m => mem_protectedMetadataNames hf fun _ => mem_rawWritableRoots
  rw [isPathWritable_asPath]
  constructor
  · rintro ⟨hb, hs, hnm⟩
    refine ⟨hb, ?_, ?_, ?_⟩
    · intro n hn hw hrn hne hnp
      by_contra hnt
      exact hs n.path ((mem_readOnlySubpaths hf wes).mpr (.inr ⟨n, hn, hw, hnt, rfl, hrn, hne⟩)) hnp
    · intro d hd hnn
      exact hs d ((mem_readOnlySubpaths hf wes).mpr (.inl ⟨hd, hnn⟩))
    · intro m hm hmp
      rw [← canWriteAt_child_iff hr hm]
      by_contra hnt
      exact hnm m ((hmt m).mpr ⟨hm, hnt⟩) hmp
  · intro h
    refine ⟨h.below, ?_, ?_⟩
    · intro d hd hdp
      rcases (mem_readOnlySubpaths hf wes).mp hd with
        ⟨hd, hnn⟩ | ⟨n, hn, hw, hnt, rfl, hrn, hne⟩
      · exact h.defaults d hd hnn hdp
      · exact hnt (h.uncarved n hn hw hrn hne hdp)
    · intro m hm hmp
      obtain ⟨hm, hnt⟩ := (hmt m).mp hm
      exact hnt ((canWriteAt_child_iff hr hm).mpr (h.metadata m hm hmp))

theorem mem_writableEntries :
    r ∈ ((resolvedEntriesWithCwd env pl cwd).filter fun en =>
      en.access.canWrite && canWritePathWithCwd env pl en.path.asPath cwd).map
        ResolvedFileSystemEntry.path ↔ Overridden (resolvedEntriesWithCwd env pl cwd) r := by
  simp only [mem_map, mem_filter, Bool.and_eq_true, canWrite_iff, canWritePathWithCwd_iff hf]
  constructor
  · rintro ⟨e, ⟨he, _, hc⟩, rfl⟩
    exact (canWriteAt_entry_iff he).mp hc
  · intro h
    obtain ⟨e, he, rfl, hw⟩ := h.1
    exact ⟨e, ⟨he, hw, (canWriteAt_entry_iff he).mpr h⟩, rfl⟩

theorem granted_iff : (∃ w ∈ getWritableRootsWithCwd env pl cwd, w.isPathWritable p.asPath = true) ↔
      ∃ r, Overridden (resolvedEntriesWithCwd env pl cwd) r ∧
        Reaches env (resolvedEntriesWithCwd env pl cwd) (isCwdRoot env cwd r) r p := by
  unfold getWritableRootsWithCwd dedupAbsolutePaths
  simp only [hf, Bool.false_eq_true, if_false, if_true, mem_map, mem_dedupFrom,
    not_mem_nil, not_false_eq_true, and_true, normalizeEffectiveAbsolutePath_eq,
    exists_eq_right]
  constructor
  · rintro ⟨w, ⟨r, hr, rfl⟩, hw⟩
    have hrt := (mem_writableEntries hf).mp (mem_map.mpr hr)
    exact ⟨r, hrt, (isPathWritable_iff hf _ hrt).mp hw⟩
  · rintro ⟨r, hrt, hrc⟩
    exact ⟨_, ⟨r, mem_map.mp ((mem_writableEntries hf).mpr hrt), rfl⟩,
      (isPathWritable_iff hf _ hrt).mpr hrc⟩

end

/-- What the roots grant is writable for the policy, except where an outer root reaches the
protected metadata of an inner writable entry. -/
theorem granted_writable_iff_not_shadowed (env : HostEnv) (policy : FileSystemSandboxPolicy)
    (cwd : UnixPath) (p : AbsolutePathBuf) (hfull : policy.hasFullDiskWriteAccess = false) :
    ((∃ w ∈ getWritableRootsWithCwd env policy cwd, w.isPathWritable p.asPath = true) →
      canWritePathWithCwd env policy p.asPath cwd = true) ↔
    ¬ShadowedMetadata env (resolvedEntriesWithCwd env policy cwd) (isCwdRoot env cwd) p := by
  rw [granted_iff hfull, canWritePathWithCwd_iff hfull]
  constructor
  · rintro hi ⟨q, m, hf, hu, r, hrt, _, hr⟩
    have hd := metadataDenied_iff.mpr ⟨q, m, hf, hu⟩
    rw [(hi ⟨r, hrt, hr⟩).metadata] at hd
    cases hd
  · rintro hn ⟨r, hrt, hr⟩
    refine ⟨hr.accessAt_eq hrt, Bool.eq_false_iff.mpr fun hd => ?_⟩
    exact hn (hr.shadowed hrt hd)

def bareHost : HostEnv where
  homeDir := none
  currentDir := none
  tmpdir := none
  node := fun _ => none

def nestedPolicy : FileSystemSandboxPolicy where
  kind := .restricted
  entries := [⟨.path (.ofParts ["ws"]), .write⟩, ⟨.path (.ofParts ["ws", "app"]), .write⟩]

def workspaceCwd : UnixPath := .ofStr "/ws"

theorem nested_source_writable : nestedPolicy.hasFullDiskWriteAccess = false ∧
    canWritePathWithCwd bareHost nestedPolicy (.ofStr "/ws/app/main.rs") workspaceCwd = true := by
  refine ⟨by decide, ?_⟩
  apply (granted_writable_iff_not_shadowed bareHost nestedPolicy workspaceCwd
    (.ofParts ["ws", "app", "main.rs"]) (by decide)).mpr
  · rintro ⟨q, m, hf, _⟩
    cases hf
  · decide

/-- The root of the workspace grants writes to the git directory of the project in it, which the
policy protects. -/
theorem nested_git_granted : nestedPolicy.hasFullDiskWriteAccess = false ∧
    ((getWritableRootsWithCwd bareHost nestedPolicy workspaceCwd).any fun w =>
      w.isPathWritable (.ofStr "/ws/app/.git/config")) = true ∧
    canWritePathWithCwd bareHost nestedPolicy (.ofStr "/ws/app/.git/config")
      workspaceCwd = false := by
  decide

end Roots

end WritableRoots
