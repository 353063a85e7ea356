import CodexTeams.PatchApply

/-! The net effect of a turn on files, followed from the deltas of its patches without reading a
file. A move of a file onto its own path removes it, while the tracker takes it for an edit. -/
namespace TurnDiff

open RustStr Paths PatchParser PatchApply List Function

structure TurnDiffTracker where
  valid : Bool
  baselineByPath : AbsolutePathBuf → Option Str
  currentByPath : AbsolutePathBuf → Option Str
  originByCurrentPath : AbsolutePathBuf → Option AbsolutePathBuf

namespace TurnDiffTracker

def new : TurnDiffTracker := ⟨true, fun _ => none, fun _ => none, fun _ => none⟩

variable (t : TurnDiffTracker) (path : AbsolutePathBuf)

def known : Bool :=
  (t.currentByPath path).isSome || (t.baselineByPath path).isSome

def noteBaseline (content : Option Str) : TurnDiffTracker :=
  match content with
  | some content =>
    if t.known path then t
    else { t with baselineByPath := update t.baselineByPath path (some content) }
  | none => t

def applyAdd (content : Str) (overwrittenContent : Option Str) : TurnDiffTracker :=
  let t := { t with originByCurrentPath := update t.originByCurrentPath path none }
  let t := t.noteBaseline path overwrittenContent
  { t with currentByPath := update t.currentByPath path (some content) }

def applyDelete (content : Str) : TurnDiffTracker :=
  { t.noteBaseline path (some content) with
    currentByPath := update t.currentByPath path none
    originByCurrentPath := update t.originByCurrentPath path none }

def applyUpdate (source : AbsolutePathBuf)
    (movePath : Option AbsolutePathBuf) (oldContent : Str) (overwrittenMoveContent : Option Str)
    (newContent : Str) : TurnDiffTracker :=
  let t := t.noteBaseline source (some oldContent)
  match movePath with
  | some dest =>
    let t := t.noteBaseline dest overwrittenMoveContent
    let origin := (t.originByCurrentPath source).getD source
    let origins := update (update t.originByCurrentPath source none) dest none
    { t with
      currentByPath := update (update t.currentByPath source none) dest
        (some newContent)
      originByCurrentPath :=
        if dest = origin then origins else update origins dest (some origin) }
  | none => { t with currentByPath := update t.currentByPath source (some newContent) }

def applyChange (change : AppliedPatchChange) : TurnDiffTracker :=
  match change.change with
  | .add content overwrittenContent => t.applyAdd change.path content overwrittenContent
  | .delete content => t.applyDelete change.path content
  | .update movePath oldContent overwrittenMoveContent newContent =>
    t.applyUpdate change.path movePath oldContent overwrittenMoveContent newContent

def invalidate : TurnDiffTracker := { t with valid := false }

def trackDelta (delta : AppliedPatchDelta) : TurnDiffTracker :=
  if delta.exact then delta.changes.foldl applyChange t else t.invalidate

end TurnDiffTracker

variable (change : AppliedPatchChange)

def destination : Option AbsolutePathBuf :=
  match change.change with
  | .update movePath _ _ _ => movePath
  | _ => none

def Names (path : AbsolutePathBuf) : Prop :=
  path = change.path ∨ destination change = some path

def SelfMove : Prop := destination change = some change.path

instance decidableSelfMove : Decidable (SelfMove change) :=
  inferInstanceAs (Decidable (_ = _))

instance decidableNames (path : AbsolutePathBuf) : Decidable (Names change path) :=
  inferInstanceAs (Decidable (_ ∨ _))

/-- The files, the tracker and all changes committed so far in a turn. -/
structure Turn where
  fs : FileMap
  tracker : TurnDiffTracker
  committed : List AppliedPatchChange

def Turn.start (fs : FileMap) : Turn := ⟨fs, .new, []⟩

def Turn.applyPatch (env : ProcessEnv) (turn : Turn) (cwd : AbsolutePathBuf)
    (hunks : List Hunk) : Turn :=
  let applied := (applyHunksToFiles env cwd turn.fs hunks).1
  ⟨applied.fs, turn.tracker.trackDelta applied.delta, turn.committed ++ applied.delta.changes⟩

def Turn.run (env : ProcessEnv) (turn : Turn) (patches : List (AbsolutePathBuf × List Hunk)) :
    Turn :=
  patches.foldl (fun turn patch => turn.applyPatch env patch.1 patch.2) turn

def Named (changes : List AppliedPatchChange) (p : AbsolutePathBuf) : Prop :=
  ∃ change ∈ changes, Names change p

/-- The tracker against the files before the turn and now, over the paths named so far. -/
structure Mirrors (before : FileMap) (changes : List AppliedPatchChange) (fs : FileMap)
    (t : TurnDiffTracker) : Prop where
  current : ∀ p, Named changes p → t.currentByPath p = fs p
  baseline : ∀ p, Named changes p → t.baselineByPath p = before p
  unnamed : ∀ p, ¬Named changes p →
    fs p = before p ∧ t.currentByPath p = none ∧ t.baselineByPath p = none

section Mirror

variable {b fs : FileMap} {t : TurnDiffTracker}

theorem mirrors_start (fs : FileMap) : Mirrors fs [] fs .new := by
  have hn : ∀ p, ¬Named [] p := by
    rintro p ⟨ch, hc, _⟩
    cases hc
  exact ⟨fun p hp => absurd hp (hn p), fun p hp => absurd hp (hn p), fun _ _ => ⟨rfl, rfl, rfl⟩⟩

@[simp] theorem noteBaseline_current (p : AbsolutePathBuf) (c : Option Str) :
    (t.noteBaseline p c).currentByPath = t.currentByPath := by
  unfold TurnDiffTracker.noteBaseline
  split
  · split <;> rfl
  · rfl

theorem noteBaseline_of_ne (hne : p ≠ pt) (c : Option Str) :
    (t.noteBaseline pt c).baselineByPath p = t.baselineByPath p := by
  unfold TurnDiffTracker.noteBaseline
  split
  · split
    · rfl
    · exact update_of_ne hne _ _
  · rfl

/-- Noting the content a path has now leaves the content it had before the turn: a named path
that has a content now is known, and an unnamed one still has its first content. -/
theorem noteBaseline_self (n : Prop)
    (hn : n → t.currentByPath path = fs path ∧ t.baselineByPath path = b path)
    (hu : ¬n → fs path = b path ∧ t.currentByPath path = none ∧ t.baselineByPath path = none) :
    (t.noteBaseline path (fs path)).baselineByPath path = b path := by
  unfold TurnDiffTracker.noteBaseline TurnDiffTracker.known
  by_cases hp : n
  · obtain ⟨hc, hb⟩ := hn hp
    cases hfs : fs path with
    | none => exact hb
    | some c =>
      simp only [hc, hfs]
      exact hb
  · obtain ⟨hs, hc, hb⟩ := hu hp
    cases hfs : fs path with
    | none => exact hb.trans (hfs.symm.trans hs)
    | some c =>
      simp only [hc, hb, Option.isSome_none, Bool.or_self, Bool.false_eq_true,
        if_false, update_self]
      exact hfs.symm.trans hs

theorem Mirrors.noteBaseline_some (h : Mirrors b cs fs t) (hfs : fs path = some c) :
    (t.noteBaseline path (some c)).baselineByPath path = b path := by
  rw [← hfs]
  exact noteBaseline_self (Named cs path)
    (fun hp => ⟨h.current path hp, h.baseline path hp⟩) (h.unnamed path)

theorem applyChange_frame (hc : Commits fs ch fs') (hp : ¬Names ch p) :
    fs' p = fs p ∧ (t.applyChange ch).currentByPath p = t.currentByPath p ∧
      (t.applyChange ch).baselineByPath p = t.baselineByPath p := by
  have hpt : p ≠ ch.path := fun heq => hp (.inl heq)
  cases hc with
  | add pt c =>
    refine ⟨update_of_ne hpt _ _, ?_, noteBaseline_of_ne hpt _⟩
    simp [TurnDiffTracker.applyChange, TurnDiffTracker.applyAdd, update_of_ne hpt]
  | delete pt c hfs =>
    exact ⟨update_of_ne hpt _ _, update_of_ne hpt _ _, noteBaseline_of_ne hpt _⟩
  | update pt old new hfs =>
    refine ⟨update_of_ne hpt _ _, ?_, noteBaseline_of_ne hpt _⟩
    simp [TurnDiffTracker.applyChange, TurnDiffTracker.applyUpdate, update_of_ne hpt]
  | move pt dest old new hfs =>
    have hd : p ≠ dest := fun heq => hp (.inr (congrArg some heq.symm))
    refine ⟨?_, ?_, ?_⟩
    · rw [update_of_ne hpt, update_of_ne hd]
    · simp [TurnDiffTracker.applyChange, TurnDiffTracker.applyUpdate,
        update_of_ne hpt, update_of_ne hd]
    · exact (noteBaseline_of_ne hd _).trans (noteBaseline_of_ne hpt _)

section

variable (h : Mirrors b cs fs t)

include h

theorem Mirrors.applyChange_named (hc : Commits fs ch fs') (hs : ¬SelfMove ch) (hp : Names ch p) :
    (t.applyChange ch).currentByPath p = fs' p ∧ (t.applyChange ch).baselineByPath p = b p := by
  cases hc with
  | add path c =>
    obtain rfl : p = path := hp.resolve_right nofun
    refine ⟨?_, ?_⟩
    · simp [TurnDiffTracker.applyChange, TurnDiffTracker.applyAdd]
    · exact noteBaseline_self (Named cs p)
        (fun hp => ⟨h.current p hp, h.baseline p hp⟩) (h.unnamed p)
  | delete path c hfs =>
    obtain rfl : p = path := hp.resolve_right nofun
    refine ⟨?_, ?_⟩
    · simp [TurnDiffTracker.applyChange, TurnDiffTracker.applyDelete]
    · exact h.noteBaseline_some hfs
  | update path old new hfs =>
    obtain rfl : p = path := hp.resolve_right nofun
    refine ⟨?_, ?_⟩
    · simp [TurnDiffTracker.applyChange, TurnDiffTracker.applyUpdate]
    · exact h.noteBaseline_some hfs
  | move path d old new hfs =>
    have hne : d ≠ path := fun heq => hs (congrArg some heq)
    rcases hp with rfl | hp
    · -- the source is gone, and its baseline was noted before the destination's
      refine ⟨?_, ?_⟩
      · simp [TurnDiffTracker.applyChange, TurnDiffTracker.applyUpdate, update_of_ne hne.symm]
      · exact (noteBaseline_of_ne hne.symm _).trans (h.noteBaseline_some hfs)
    · obtain rfl : d = p := by
        cases hp
        rfl
      refine ⟨?_, ?_⟩
      · simp [TurnDiffTracker.applyChange, TurnDiffTracker.applyUpdate, update_of_ne hne]
      · refine noteBaseline_self (Named cs d) ?_ ?_ <;> intro hp
        · rw [noteBaseline_current, noteBaseline_of_ne hne]
          exact ⟨h.current d hp, h.baseline d hp⟩
        · rw [noteBaseline_current, noteBaseline_of_ne hne]
          exact h.unnamed d hp

theorem Mirrors.step (hc : Commits fs ch fs')
    (hsl : ¬SelfMove ch) : Mirrors b (cs ++ [ch]) fs' (t.applyChange ch) := by
  have hs : ∀ p, Named (cs ++ [ch]) p ↔ Named cs p ∨ Names ch p := by
    intro p
    simp [Named]
  have hcs : ∀ p, Named (cs ++ [ch]) p → (t.applyChange ch).currentByPath p = fs' p ∧
        (t.applyChange ch).baselineByPath p = b p := by
    intro p hp
    by_cases hn : Names ch p
    · exact h.applyChange_named hc hsl hn
    · obtain ⟨hfs, hcr, hb⟩ := applyChange_frame (t := t) hc hn
      have he := ((hs p).mp hp).resolve_right hn
      rw [hfs, hcr, hb]
      exact ⟨h.current p he, h.baseline p he⟩
  refine ⟨fun p hp => (hcs p hp).1, fun p hp => (hcs p hp).2, fun p hp => ?_⟩
  rw [hs, not_or] at hp
  obtain ⟨hfs, hcr, hb⟩ := applyChange_frame (t := t) hc hp.2
  rw [hfs, hcr, hb]
  exact h.unnamed p hp.1

theorem Mirrors.run (hc : CommitsAll fs new fs') (hs : ∀ ch ∈ new, ¬SelfMove ch) :
    Mirrors b (cs ++ new) fs' (new.foldl TurnDiffTracker.applyChange t) := by
  induction hc with
  | nil => rwa [append_nil]
  | snoc hr hl ih =>
    rw [foldl_append, ← append_assoc]
    exact (ih fun ch hch => hs ch (mem_append_left _ hch)).step hl
      (hs _ (mem_append_right _ mem_cons_self))

end

end Mirror

theorem valid_foldl_applyChange (chs : List AppliedPatchChange) (t : TurnDiffTracker) :
    (chs.foldl TurnDiffTracker.applyChange t).valid = t.valid := by
  have hn : ∀ (t : TurnDiffTracker) (p : AbsolutePathBuf) (c : Option Str),
      (t.noteBaseline p c).valid = t.valid := by
    intro t p c
    unfold TurnDiffTracker.noteBaseline
    split
    · split <;> rfl
    · rfl
  induction chs generalizing t with
  | nil => rfl
  | cons change r ih =>
    rw [foldl_cons, ih]
    unfold TurnDiffTracker.applyChange
    cases change.change with
    | update mp old overwritten new =>
      cases mp with
      | none => exact hn _ _ _
      | some d => exact (hn _ _ _).trans (hn _ _ _)
    | _ => exact hn _ _ _

theorem trackDelta_valid {d : AppliedPatchDelta} (h : (t.trackDelta d).valid = true) :
    t.valid = true ∧ t.trackDelta d = d.changes.foldl TurnDiffTracker.applyChange t := by
  unfold TurnDiffTracker.trackDelta at h ⊢
  by_cases he : d.exact = true
  · rw [if_pos he] at h ⊢
    rw [valid_foldl_applyChange] at h
    exact ⟨h, rfl⟩
  · rw [if_neg he] at h
    cases h

theorem run_valid {ps : List (AbsolutePathBuf × List Hunk)} {tr : Turn}
    (h : (tr.run env ps).tracker.valid = true) : tr.tracker.valid = true := by
  induction ps generalizing tr with
  | nil => exact h
  | cons p r ih => exact (trackDelta_valid (ih h)).1

theorem run_committed (env : ProcessEnv) (ps : List (AbsolutePathBuf × List Hunk))
    (tr : Turn) : ∀ change ∈ tr.committed, change ∈ (tr.run env ps).committed := by
  induction ps generalizing tr with
  | nil => exact fun _ h => h
  | cons p r ih =>
    intro change hc
    exact ih (tr.applyPatch env p.1 p.2) change (mem_append_left _ hc)

theorem mirrors_run {bf : FileMap} {tr : Turn} (h : Mirrors bf tr.committed tr.fs tr.tracker)
    (hv : (tr.run env ps).tracker.valid = true)
    (hs : ∀ change ∈ (tr.run env ps).committed, ¬SelfMove change) :
    Mirrors bf (tr.run env ps).committed (tr.run env ps).fs (tr.run env ps).tracker := by
  induction ps generalizing tr with
  | nil => exact h
  | cons p r ih =>
    have ha := accounted_applyHunksToFiles env p.1 tr.fs p.2
    have hn : (tr.applyPatch env p.1 p.2).tracker.valid = true := run_valid hv
    have hd := (trackDelta_valid hn).2
    have hst : Mirrors bf (tr.applyPatch env p.1 p.2).committed (tr.applyPatch env p.1 p.2).fs
        (tr.tracker.trackDelta (applyHunksToFiles env p.1 tr.fs p.2).1.delta) := by
      rw [hd]
      refine h.run ha.commits fun change hc => ?_
      have hm : change ∈ (tr.applyPatch env p.1 p.2).committed := mem_append_right _ hc
      exact hs change (run_committed env r _ change hm)
    exact ih hst hv hs

/-- After any patches of a turn, a tracker that is still valid has for every path named by a
committed change its present content and its content before the turn, and has nothing for
the other paths, which are as before, unless a change moved a file onto its own path. -/
theorem tracker_mirrors_files (env : ProcessEnv) (before : FileMap)
    (patches : List (AbsolutePathBuf × List Hunk))
    (hvalid : ((Turn.start before).run env patches).tracker.valid = true)
    (hself : ∀ change ∈ ((Turn.start before).run env patches).committed, ¬SelfMove change) :
    let turn := (Turn.start before).run env patches
    ∀ p, (Named turn.committed p → turn.tracker.currentByPath p = turn.fs p ∧
        turn.tracker.baselineByPath p = before p) ∧
      (¬Named turn.committed p → turn.fs p = before p ∧ turn.tracker.currentByPath p = none ∧
        turn.tracker.baselineByPath p = none) := by
  intro turn p
  have hm := mirrors_run (mirrors_start before) hvalid hself
  exact ⟨fun hp => ⟨hm.current p hp, hm.baseline p hp⟩, hm.unnamed p⟩

theorem move_over_file_mirrored :
    let a : AbsolutePathBuf := ⟨["a".toList], by decide⟩
    let b : AbsolutePathBuf := ⟨["b".toList], by decide⟩
    let before : FileMap := fun p =>
      if p = a then some "x\n".toList else if p = b then some "y\n".toList else none
    let turn := (Turn.start before).run ⟨none, none⟩
      [(⟨[], by decide⟩, [.updateFile "a".toList (some "b".toList)
        [⟨none, ["x".toList], ["z".toList], false⟩]])]
    (turn.tracker.currentByPath a = none ∧ turn.tracker.baselineByPath a = some "x\n".toList) ∧
      turn.tracker.currentByPath b = some "z\n".toList ∧
      turn.tracker.baselineByPath b = some "y\n".toList := by
  intro a b before turn
  have hm := tracker_mirrors_files ⟨none, none⟩ before
    [(⟨[], by decide⟩, [.updateFile "a".toList (some "b".toList)
      [⟨none, ["x".toList], ["z".toList], false⟩]])] (by decide) (by decide)
  obtain ⟨hc, hb⟩ := (hm a).1 ⟨_, mem_cons_self, by decide⟩
  obtain ⟨hc', hb'⟩ := (hm b).1 ⟨_, mem_cons_self, by decide⟩
  exact ⟨⟨hc.trans (by decide), hb.trans (by decide)⟩, hc'.trans (by decide), hb'.trans (by decide)⟩

/-- A hunk that cannot be applied leaves no trace: its file is there, the tracker is valid
and does not have it. -/
theorem failed_hunk_not_tracked :
    let a : AbsolutePathBuf := ⟨["a".toList], by decide⟩
    let before : FileMap := fun p => if p = a then some "x\n".toList else none
    let turn := (Turn.start before).run ⟨none, none⟩
      [(⟨[], by decide⟩, [.updateFile "a".toList none
        [⟨none, ["missing".toList], ["z".toList], false⟩]])]
    turn.tracker.valid = true ∧ turn.fs a = some "x\n".toList ∧
      turn.tracker.currentByPath a = none := by
  decide

end TurnDiff
