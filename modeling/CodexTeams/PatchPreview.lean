import CodexTeams.PatchApply
import CodexTeams.PatchRoundTrip

/-! The changes shown for approval and the files the patch leaves. Every hunk is verified against
the untouched files, while application goes hunk by hunk over the changed ones. -/
namespace PatchPreview

open RustStr Paths PatchParser PatchApply List Option Function

inductive ApplyPatchFileChange
  | add (content : Str)
  | delete (content : Str)
  | update (unifiedDiff : Str) (movePath : Option AbsolutePathBuf) (newContent : Str)
  deriving DecidableEq

/-- A hash map: one entry for a path, in no order that means anything. -/
abbrev Changes := List (AbsolutePathBuf × ApplyPatchFileChange)

def Changes.insert (changes : Changes) (path : AbsolutePathBuf) (change : ApplyPatchFileChange) :
    Changes :=
  changes.filter (fun entry => entry.1 ≠ path) ++ [(path, change)]

structure ApplyPatchAction where
  changes : Changes
  patch : Str
  cwd : AbsolutePathBuf
  deriving DecidableEq

inductive CorrectnessError
  | failedToRead (path : AbsolutePathBuf)
  | update (error : ApplyError)
  deriving DecidableEq

inductive MaybeApplyPatchVerified
  | body (action : ApplyPatchAction)
  | correctnessError (error : CorrectnessError)
  deriving DecidableEq

def resolvePath (env : ProcessEnv) (cwd : AbsolutePathBuf) : Hunk → AbsolutePathBuf
  | .addFile path _ => .resolvePathAgainstBase env (.ofStr path) cwd
  | .deleteFile path => .resolvePathAgainstBase env (.ofStr path) cwd
  | .updateFile path _ _ => .resolvePathAgainstBase env (.ofStr path) cwd

section Verify

variable (unifiedDiff : Str → Str → Str) (env : ProcessEnv) (fs : FileMap)
  (cwd : AbsolutePathBuf)

def verifyHunk (hunk : Hunk) : Except CorrectnessError ApplyPatchFileChange :=
  let path := resolvePath env cwd hunk
  match hunk with
  | .addFile _ contents => .ok (.add contents)
  | .deleteFile _ =>
    match fs.readFileText path with
    | .ok content => .ok (.delete content)
    | .error _ => .error (.failedToRead path)
  | .updateFile _ movePath chunks =>
    match deriveNewContentsFromChunks fs path chunks with
    | .ok (originalContents, newContents) =>
      .ok (.update (unifiedDiff originalContents newContents)
        (movePath.map fun dest => .join env cwd (.ofStr dest)) newContents)
    | .error e => .error (.update e)

def verifyEach : Changes → List Hunk → Except CorrectnessError Changes
  | changes, [] => .ok changes
  | changes, hunk :: rest =>
    match verifyHunk unifiedDiff env fs cwd hunk with
    | .ok change => verifyEach (changes.insert (resolvePath env cwd hunk) change) rest
    | .error e => .error e

variable (args : ApplyPatchArgs) (cwd : AbsolutePathBuf)

def effectiveCwd : AbsolutePathBuf :=
  match args.workdir with
  | some dir => .join env cwd (.ofStr dir)
  | none => cwd

def verifyApplyPatchArgs : MaybeApplyPatchVerified :=
  match verifyEach unifiedDiff env fs (effectiveCwd env args cwd) [] args.hunks with
  | .ok changes => .body ⟨changes, args.patch, effectiveCwd env args cwd⟩
  | .error e => .correctnessError e

end Verify

variable (fs : FileMap)

def performChange (entry : AbsolutePathBuf × ApplyPatchFileChange) : FileMap :=
  match entry.2 with
  | .add content => update fs entry.1 (some content)
  | .delete _ => update fs entry.1 none
  | .update _ none newContent => update fs entry.1 (some newContent)
  | .update _ (some dest) newContent =>
    update (update fs dest (some newContent)) entry.1 none

def performChanges (changes : Changes) : FileMap := changes.foldl performChange fs

def contentAt (path : AbsolutePathBuf) (entry : AbsolutePathBuf × ApplyPatchFileChange) :
    Option (Option Str) :=
  match entry.2 with
  | .add content => if path = entry.1 then some (some content) else none
  | .delete _ => if path = entry.1 then some none else none
  | .update _ none newContent => if path = entry.1 then some (some newContent) else none
  | .update _ (some dest) newContent =>
    if path = entry.1 then some none else if path = dest then some (some newContent) else none

section

variable (e : AbsolutePathBuf × ApplyPatchFileChange)

theorem performChange_apply (p : AbsolutePathBuf) :
    performChange fs e p = (contentAt p e).getD (fs p) := by
  obtain ⟨s, change⟩ := e
  rcases change with content | content | ⟨diff, _ | dest, nc⟩
  all_goals
    simp only [performChange, contentAt, update_apply]
    split
    · rfl
    · first
      | rfl
      | split <;> rfl

theorem performChanges_apply (cs : Changes) (p : AbsolutePathBuf) :
    performChanges fs cs p = (cs.reverse.findSome? (contentAt p)).getD (fs p) := by
  induction cs using List.reverseRecOn with
  | nil => rfl
  | append_singleton cs e ih =>
    have hs : performChanges fs (cs ++ [e]) p = (contentAt p e).getD (performChanges fs cs p) := by
      rw [performChanges, foldl_append]
      exact performChange_apply _ e p
    rw [hs, ih, reverse_append, reverse_singleton, singleton_append, List.findSome?_cons]
    cases contentAt p e <;> rfl

theorem contentAt_source : (contentAt e.1 e).isSome = true := by
  obtain ⟨s, change⟩ := e
  rcases change with content | content | ⟨diff, _ | dest, nc⟩ <;> simp [contentAt]

end

/-- A later change next to an earlier one: they touch different paths, or they have one source
and the earlier one touches nothing else. -/
def KeepsApart (earlier later : AbsolutePathBuf × ApplyPatchFileChange) : Prop :=
  (∀ path, contentAt path earlier = none ∨ contentAt path later = none) ∨
    earlier.1 = later.1 ∧ ∀ path, path ≠ earlier.1 → contentAt path earlier = none

def collected (shown : Changes) : Changes :=
  shown.foldl (fun changes entry => changes.insert entry.1 entry.2) []

theorem mem_collected_concat (s : Changes) (last e : AbsolutePathBuf × ApplyPatchFileChange) :
    e ∈ collected (s ++ [last]) ↔ (e ∈ collected s ∧ e.1 ≠ last.1) ∨ e = last := by
  simp [collected, Changes.insert]

theorem mem_of_mem_collected (h : e ∈ collected shown) : e ∈ shown := by
  induction shown using List.reverseRecOn with
  | nil => exact h
  | append_singleton shown l ih =>
    rw [mem_collected_concat] at h
    rcases h with ⟨hm, -⟩ | rfl
    · exact mem_append_left _ (ih hm)
    · exact mem_append_right _ (mem_singleton_self _)

theorem findSome_contentAt_iff (h : s.Pairwise KeepsApart) (p : AbsolutePathBuf) (c : Option Str) :
    s.reverse.findSome? (contentAt p) = some c ↔ ∃ e ∈ collected s, contentAt p e = some c := by
  induction s using List.reverseRecOn with
  | nil => simp [collected]
  | append_singleton s last ih =>
    obtain ⟨hsh, -, ha⟩ := pairwise_append.mp h
    have hl : ∀ e ∈ collected s, KeepsApart e last := by
      intro e he
      exact ha e (mem_of_mem_collected he) last (mem_singleton_self _)
    rw [reverse_append, reverse_singleton, singleton_append, List.findSome?_cons]
    simp only [mem_collected_concat]
    cases hd : contentAt p last with
    | some c' =>
      -- whatever else touches the path has the same source and was replaced
      constructor
      · intro heq
        exact ⟨last, .inr rfl, hd.trans heq⟩
      · rintro ⟨e, ⟨hm, hne⟩ | rfl, he⟩
        · rcases hl e hm with ha | ⟨hs, -⟩
          · rcases ha p with hn | hn
            · rw [hn] at he
              cases he
            · rw [hn] at hd
              cases hd
          · exact absurd hs hne
        · exact hd.symm.trans he
    | none =>
      -- what was replaced touched only the source of the last change, not this path
      refine (ih hsh).trans ⟨?_, ?_⟩
      · rintro ⟨e, hm, he⟩
        refine ⟨e, .inl ⟨hm, ?_⟩, he⟩
        intro hs
        have ht := contentAt_source last
        rcases hl e hm with ha | ⟨-, ho⟩
        · rcases ha last.1 with hn | hn
          · have := contentAt_source e
            rw [hs, hn] at this
            cases this
          · rw [hn] at ht
            cases ht
        · by_cases hp : p = e.1
          · rw [← hs, ← hp, hd] at ht
            cases ht
          · rw [ho p hp] at he
            cases he
      · rintro ⟨e, ⟨hm, -⟩ | rfl, he⟩
        · exact ⟨e, hm, he⟩
        · rw [hd] at he
          cases he

/-- In whatever order the map is gone through, the files are those of the changes in turn. -/
theorem performChanges_collected (h : shown.Pairwise KeepsApart) (ho : o.Perm (collected shown))
    (fs : FileMap) : performChanges fs o = performChanges fs shown := by
  funext path
  rw [performChanges_apply, performChanges_apply]
  have hm : ∀ e, e ∈ o.reverse ↔ e ∈ collected shown := by
    intro e
    rw [mem_reverse, ho.mem_iff]
  congr 1
  cases hf : o.reverse.findSome? (contentAt path) with
  | some c =>
    obtain ⟨e, he, hc⟩ := exists_of_findSome?_eq_some hf
    exact ((findSome_contentAt_iff h path c).mpr ⟨e, (hm e).mp he, hc⟩).symm
  | none =>
    cases hs : shown.reverse.findSome? (contentAt path) with
    | none => rfl
    | some c =>
      obtain ⟨e, he, hc⟩ := (findSome_contentAt_iff h path c).mp hs
      have hn := List.findSome?_eq_none_iff.mp hf e ((hm e).mpr he)
      rw [hn] at hc
      cases hc

section

variable (env : ProcessEnv) (cwd : AbsolutePathBuf)

def destination : Hunk → Option AbsolutePathBuf
  | .updateFile _ (some dest) _ => some (.resolvePathAgainstBase env (.ofStr dest) cwd)
  | _ => none

def touchedPaths (hunk : Hunk) : List AbsolutePathBuf :=
  resolvePath env cwd hunk :: (destination env cwd hunk).toList

/-- Whether a later hunk on the same source does away with all that an earlier one did and
still finds what it needs. An update needs the untouched text, a deletion some file. -/
def supersedes : Hunk → Hunk → Bool
  | .updateFile _ (some _) _, _ => false
  | _, .updateFile _ _ _ => false
  | .deleteFile _, .deleteFile _ => false
  | _, _ => true

variable (earlier later : Hunk)

def Independent : Prop :=
  (touchedPaths env cwd earlier).Disjoint (touchedPaths env cwd later) ∨
    resolvePath env cwd earlier = resolvePath env cwd later ∧ supersedes earlier later = true

instance Independent.decidable : Decidable (Independent env cwd earlier later) :=
  inferInstanceAs (Decidable ((∀ _ ∈ _, _) ∨ _ ∧ _))

end

section Application

variable {unifiedDiff : Str → Str → Str} {env : ProcessEnv} {fs : FileMap}

structure Shows (unifiedDiff : Str → Str → Str) (env : ProcessEnv) (fs : FileMap)
    (cwd : AbsolutePathBuf) (hunk : Hunk)
    (entry : AbsolutePathBuf × ApplyPatchFileChange) : Prop where
  source : entry.1 = resolvePath env cwd hunk
  verified : verifyHunk unifiedDiff env fs cwd hunk = .ok entry.2

theorem verifyEach_inv (h : verifyEach ud env fs cwd cs hunks = .ok cs') :
    ∃ s, List.Forall₂ (Shows ud env fs cwd) hunks s ∧
      cs' = s.foldl (fun cs en => cs.insert en.1 en.2) cs := by
  induction hunks generalizing cs with
  | nil =>
    cases h
    exact ⟨[], .nil, rfl⟩
  | cons hunk r ih =>
    simp only [verifyEach] at h
    cases hv : verifyHunk ud env fs cwd hunk with rw [hv] at h
    | error e => cases h
    | ok change =>
      obtain ⟨s, hs, heq⟩ := ih h
      exact ⟨(resolvePath env cwd hunk, change) :: s, .cons ⟨rfl, hv⟩ hs, heq⟩

theorem Shows.update_inv {cs : List UpdateFileChunk}
    (h : Shows ud env fs cwd (.updateFile p mp cs) e) :
    ∃ o new, deriveNewContentsFromChunks fs (resolvePath env cwd (.updateFile p mp cs))
        cs = .ok (o, new) ∧ e.2 = .update (ud o new)
        (mp.map fun d => .join env cwd (.ofStr d)) new := by
  have hv := h.verified
  simp only [verifyHunk] at hv
  split at hv
  · rename_i o new hd
    exact ⟨o, new, hd, (Except.ok.inj hv).symm⟩
  · cases hv

theorem Shows.add_inv (h : Shows ud env fs cwd (.addFile p contents) e) :
    e.2 = .add contents := (Except.ok.inj h.verified).symm

theorem Shows.delete_inv (h : Shows ud env fs cwd (.deleteFile p) e) :
    ∃ content, fs e.1 = some content ∧ e.2 = .delete content := by
  have hv := h.verified
  simp only [verifyHunk, FileMap.readFileText, ← h.source] at hv
  cases hc : fs e.1 with rw [hc] at hv
  | none => cases hv
  | some content => exact ⟨content, rfl, (Except.ok.inj hv).symm⟩

theorem Shows.contentAt_eq_none (h : Shows ud env fs cwd hunk e) {p : AbsolutePathBuf}
    (hp : p ∉ touchedPaths env cwd hunk) : contentAt p e = none := by
  have hs : p ≠ e.1 := by
    rw [h.source]
    exact fun heq => hp (heq ▸ mem_cons_self)
  cases hunk with
  | addFile n contents => simp [contentAt, h.add_inv, hs]
  | deleteFile n =>
    obtain ⟨c, -, hc⟩ := h.delete_inv
    simp [contentAt, hc, hs]
  | updateFile n mp chunks =>
    obtain ⟨o, new, -, hc⟩ := h.update_inv
    cases mp with
    | none => simp [contentAt, hc, hs]
    | some d =>
      have hd : p ≠ AbsolutePathBuf.join env cwd (.ofStr d) := by
        rintro rfl
        exact hp (mem_cons_of_mem _ (mem_singleton_self _))
      simp [contentAt, hc, hs, hd]

theorem supersedes_destination {e l : Hunk} (h : supersedes e l = true) :
    destination env cwd e = none := by
  rcases e with _ | _ | ⟨_, _ | _, _⟩
  · rfl
  · rfl
  · rfl
  · cases h

theorem Independent.keepsApart (h : Independent env cwd er l) (he : Shows ud env fs cwd er e)
    (hl : Shows ud env fs cwd l e') : KeepsApart e e' := by
  rcases h with hd | ⟨hsr, hs⟩
  · left
    intro p
    by_cases hp : p ∈ touchedPaths env cwd er
    · exact .inr (hl.contentAt_eq_none fun hm => hd hp hm)
    · exact .inl (he.contentAt_eq_none hp)
  · right
    refine ⟨by rw [he.source, hl.source, hsr], ?_⟩
    intro p hne
    apply he.contentAt_eq_none
    rw [touchedPaths, supersedes_destination hs, ← he.source]
    simpa using hne

theorem exists_shows {s : Changes} (hsh : List.Forall₂ (Shows ud env fs cwd) hunks s)
    {entry : AbsolutePathBuf × ApplyPatchFileChange} (h : entry ∈ s) :
    ∃ hunk ∈ hunks, Shows ud env fs cwd hunk entry := by
  induction hsh with
  | nil => cases h
  | @cons hunk _ hunks _ hs _ ih =>
    rcases mem_cons.mp h with rfl | hm
    · exact ⟨hunk, mem_cons_self, hs⟩
    · obtain ⟨hunk', hm', hs'⟩ := ih hm
      exact ⟨hunk', mem_cons_of_mem _ hm', hs'⟩

theorem shown_keepsApart {s : Changes} (hs : List.Forall₂ (Shows ud env fs cwd) hunks s)
    (h : hunks.Pairwise (Independent env cwd)) : s.Pairwise KeepsApart := by
  induction hs with
  | nil => exact .nil
  | cons hsh hr ih =>
    obtain ⟨hf, ht⟩ := pairwise_cons.mp h
    refine pairwise_cons.mpr ⟨?_, ih ht⟩
    intro e he
    obtain ⟨hunk, hh, hs⟩ := exists_shows hr he
    exact (hf hunk hh).keepsApart hsh hs

/-- All that was done so far is shown and independent of the hunk. -/
def AllIndependent (unifiedDiff : Str → Str → Str) (env : ProcessEnv) (fs : FileMap)
    (cwd : AbsolutePathBuf) (done : Changes) (hunk : Hunk) : Prop :=
  ∀ entry ∈ done, ∃ earlier, Shows unifiedDiff env fs cwd earlier entry ∧
    Independent env cwd earlier hunk

theorem AllIndependent.update_source {p : Option Str}
    (h : AllIndependent ud env fs cwd d (.updateFile pt p cs)) :
    performChanges fs d (resolvePath env cwd (.updateFile pt p cs)) =
      fs (resolvePath env cwd (.updateFile pt p cs)) := by
  rw [performChanges_apply, List.findSome?_eq_none_iff.mpr]
  · rfl
  · intro en he
    obtain ⟨e, hsh, hd | ⟨-, hs⟩⟩ := h en (mem_reverse.mp he)
    · apply hsh.contentAt_eq_none
      exact fun hm => hd hm mem_cons_self
    · rcases e with _ | _ | ⟨_, _ | _, _⟩ <;> cases hs

theorem AllIndependent.delete_source (h : AllIndependent ud env fs cwd d (.deleteFile p))
    (hfs : (fs (resolvePath env cwd (.deleteFile p))).isSome) :
    (performChanges fs d (resolvePath env cwd (.deleteFile p))).isSome := by
  rw [performChanges_apply]
  cases hf : d.reverse.findSome?
      (contentAt (resolvePath env cwd (.deleteFile p))) with
  | none => exact hfs
  | some c =>
    obtain ⟨en, he, hc⟩ := exists_of_findSome?_eq_some hf
    obtain ⟨e, hsh, hd | ⟨hsr, hs⟩⟩ := h en (mem_reverse.mp he)
    · rw [hsh.contentAt_eq_none fun hm => hd hm mem_cons_self] at hc
      cases hc
    · rw [← hsr, ← hsh.source] at hc
      rcases e with ⟨name, contents⟩ | name | ⟨name, _ | dest, chunks⟩
      · simp only [contentAt, hsh.add_inv] at hc
        rw [← hc]
        rfl
      · cases hs
      · obtain ⟨o, new, -, hch⟩ := hsh.update_inv
        simp only [contentAt, hch] at hc
        rw [← hc]
        rfl
      · cases hs

theorem deriveNewContents_congr {fs' : FileMap} {p : AbsolutePathBuf} (h : fs p = fs' p)
    (chunks : List UpdateFileChunk) :
    deriveNewContentsFromChunks fs p chunks = deriveNewContentsFromChunks fs' p chunks := by
  unfold deriveNewContentsFromChunks FileMap.readFileText
  rw [h]

theorem applyMove_fs {p : AbsolutePathBuf} (d : AbsolutePathBuf)
    (n new : Str) {o : Str} (hp : s.fs p = some o) :
    (applyMove s p d n o new).2 = none ∧ (applyMove s p d n o new).1.fs =
        update (update s.fs d (some new)) p none := by
  obtain ⟨c, hc⟩ := writeFile_of_some hp d new
  simp only [applyMove, readOptionalFileTextForDelta_eq, if_true, Applying.commit,
    ensureNotDirectory_of_some hc, remove_of_some hc, true_and]
  rfl

/-- A hunk that depends on nothing done so far does what it shows. -/
theorem applyHunk_shown {entry : AbsolutePathBuf × ApplyPatchFileChange}
    (hsh : Shows ud env fs cwd h entry) (hfs : s.fs = performChanges fs d)
    (hdn : AllIndependent ud env fs cwd d h) :
    (applyHunk env cwd s h).2 = none ∧ (applyHunk env cwd s h).1.fs = performChange s.fs entry := by
  have hs := hsh.source
  cases h with
  | addFile n contents =>
    simp only [applyHunk, applyAdd, readOptionalFileTextForDelta_eq, performChange, hsh.add_inv, hs,
      true_and]
    rfl
  | deleteFile n =>
    obtain ⟨o, ho, hch⟩ := hsh.delete_inv
    have hsm : (s.fs (resolvePath env cwd (.deleteFile n))).isSome := by
      rw [hfs]
      apply hdn.delete_source
      rw [← hs, ho]
      rfl
    obtain ⟨content, hc⟩ := isSome_iff_exists.mp hsm
    have hr : (s.fs.readFileText (resolvePath env cwd (.deleteFile n))).toOption =
        some content := by
      simp [FileMap.readFileText, hc, Except.toOption]
    simp only [resolvePath] at hc hr hs
    simp [applyHunk, applyDelete, hr, ensureNotDirectory_of_some hc, remove_of_some hc,
      Applying.commit, performChange, hch, hs]
  | updateFile n p chunks =>
    obtain ⟨o, new, hd, hch⟩ := hsh.update_inv
    have hu := hdn.update_source
    rw [← hfs] at hu
    rw [← deriveNewContents_congr hu] at hd
    have hp := deriveNewContents_original hd
    simp only [resolvePath] at hd hp hs
    cases p with
    | some ds =>
      simp only [applyHunk, applyUpdate, noteExistingPathDeltaSupport_eq_true, if_true, hd,
        performChange, hch, hs]
      exact applyMove_fs _ ds new hp
    | none =>
      simp only [applyHunk, applyUpdate, noteExistingPathDeltaSupport_eq_true, if_true, hd,
        performChange, hch, hs, true_and]
      rfl

theorem applyEach_shown (hsh : List.Forall₂ (Shows ud env fs cwd) hunks sh)
    (hp : hunks.Pairwise (Independent env cwd)) (hfs : s.fs = performChanges fs d)
    (hd : ∀ h ∈ hunks, AllIndependent ud env fs cwd d h) :
    (applyEach env cwd s hunks).1.fs = performChanges fs (d ++ sh) := by
  induction hsh generalizing s d with
  | nil => rw [append_nil, ← hfs]; rfl
  | @cons h e hunks sh hs hr ih =>
    obtain ⟨hf, ht⟩ := pairwise_cons.mp hp
    obtain ⟨hok, hst⟩ := applyHunk_shown hs hfs (hd h mem_cons_self)
    have hfs' : (applyHunk env cwd s h).1.fs = performChanges fs (d ++ [e]) := by
      rw [hst, hfs, performChanges, performChanges, foldl_append]
      rfl
    have hd' : ∀ later ∈ hunks, AllIndependent ud env fs cwd (d ++ [e]) later := by
      intro later hl e' he'
      rcases mem_append.mp he' with ho | hn
      · exact hd later (mem_cons_of_mem _ hl) e' ho
      · rw [mem_singleton.mp hn]
        exact ⟨h, hs, hf later hl⟩
    have hec : applyEach env cwd s (h :: hunks) =
        applyEach env cwd (applyHunk env cwd s h).1 hunks := by
      rw [applyEach]
      split <;> rename_i heq
      · rw [heq] at hok
        cases hok
      · rw [heq]
    rw [hec, ih ht hfs' hd', append_assoc, singleton_append]

/-- What is shown for approval is what gets written, if the hunks are independent. -/
theorem applied_eq_performed {args : ApplyPatchArgs} {cwd : AbsolutePathBuf}
    {action : ApplyPatchAction}
    (hverified : verifyApplyPatchArgs unifiedDiff env fs args cwd = .body action)
    (hindependent : args.hunks.Pairwise (Independent env (effectiveCwd env args cwd)))
    {order : Changes} (horder : order.Perm action.changes) :
    (applyHunksToFiles env (effectiveCwd env args cwd) fs args.hunks).1.fs =
      performChanges fs order := by
  simp only [verifyApplyPatchArgs] at hverified
  split at hverified
  · rename_i changes hec
    cases hverified
    obtain ⟨shown, hs, rfl⟩ := verifyEach_inv hec
    rw [performChanges_collected (shown_keepsApart hs hindependent) horder]
    have hst : (Applying.start fs).fs = performChanges fs [] := rfl
    have ha := applyEach_shown hs hindependent hst (by intro _ _ _ hm; cases hm)
    unfold applyHunksToFiles
    split
    · rename_i he
      rw [he] at hs
      cases hs
      rfl
    · exact ha
  · cases hverified

end Application

section Instances

open Sample

def rewrite (old new : String) : UpdateFileChunk := ⟨none, [old.toList], [new.toList], false⟩

def diff (old new : Str) : Str := old ++ new

def patchOf (hunks : List Hunk) : ApplyPatchArgs := ⟨[], hunks, none, none⟩

def separateHunks : List Hunk :=
  [.updateFile "a" (some "b") [rewrite "x" "y"], .addFile "c" "1\n", .addFile "c" "2\n"]

theorem separateHunks_independent : separateHunks.Pairwise (Independent env work) := by
  decide +kernel

theorem separate_hunks_as_shown :
    ∃ action, verifyApplyPatchArgs diff env files (patchOf separateHunks) work = .body action ∧
      action.changes = [(file "a", .update "x\ny\n" (some (file "b")) "y\n"),
        (file "c", .add "2\n")] ∧ (applyHunksToFiles env work files separateHunks).1.fs =
        performChanges files action.changes := by
  have hv : verifyApplyPatchArgs diff env files (patchOf separateHunks) work =
      .body ⟨[(file "a", .update "x\ny\n" (some (file "b")) "y\n"),
        (file "c", .add "2\n")], [], work⟩ := by
    decide +kernel
  exact ⟨_, hv, rfl, applied_eq_performed hv separateHunks_independent (List.Perm.refl _)⟩

open PatchRoundTrip in
def rewriteSource (old new : ContentLine) : HunkSource :=
  .updateFile ⟨"a", by decide, by decide, by decide, by decide⟩ none
    [⟨none, [(.removed, old), (.added, new)], false, by simp⟩] (by simp)

/-- Two edits of one line: the second is shown, the first is written. -/
def editedTwice : List Hunk :=
  [.updateFile "a" none [rewrite "x" "y"], .updateFile "a" none [rewrite "x" "z"]]

theorem editedTwice_shown_not_applied :
    (∃ args, parsePatch ("*** Begin Patch\n*** Update File: a\n@@\n-x\n+y\n" ++
      "*** Update File: a\n@@\n-x\n+z\n*** End Patch\n").toList = .ok args ∧
        args.hunks = editedTwice) ∧
    ∃ action, verifyApplyPatchArgs diff env files (patchOf editedTwice) work = .body action ∧
      performChanges files action.changes (file "a") = some "z\n".toList ∧
      (applyHunksToFiles env work files editedTwice).1.fs (file "a") = some "y\n".toList := by
  have hv : verifyApplyPatchArgs diff env files (patchOf editedTwice) work =
      .body ⟨[(file "a", .update "x\nz\n".toList none "z\n".toList)], [], work⟩ := by
    decide +kernel
  refine ⟨?_, _, hv, ?_, ?_⟩
  · let ss := [rewriteSource ⟨['x'], by decide, by decide⟩ ⟨['y'], by decide, by decide⟩,
      rewriteSource ⟨['x'], by decide, by decide⟩ ⟨['z'], by decide, by decide⟩]
    exact PatchRoundTrip.parsePatch_printPatch ss true
  · decide +kernel
  · decide +kernel

end Instances

end PatchPreview
