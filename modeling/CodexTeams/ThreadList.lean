import CodexTeams.CursorPaging
import CodexTeams.RustStr
import CodexTeams.StableSort
import Mathlib.Data.List.Perm.Basic
import Mathlib.Data.Prod.Lex

/-! Listing the recorded threads page by page: the rollout files are walked newest first, and the
cursor is the timestamp of the last listed thread. -/
namespace ThreadList

open RustStr StableSort CursorPaging Prod.Lex

abbrev Date := ℤ ×ₗ ℕ ×ₗ ℕ

/-- A time in UTC: the date, and the nanoseconds of the day. -/
abbrev Timestamp := Date ×ₗ ℕ

def unixEpoch : Timestamp := toLex (toLex (1970, toLex (1, 1)), 0)

inductive SessionSource where
  | cli
  | vsCode
  | exec
  | mcp
  | custom (name : Str)
  | internal (name : Str)
  | subAgent (name : Str)
  | unknown
  deriving DecidableEq

/-- What the head of a rollout file tells, as far as listing looks at it. -/
structure HeadTailSummary where
  sawSessionMeta : Bool
  preview : Option Str
  cwd : Option Str
  source : Option SessionSource
  modelProvider : Option Str
  createdAt : Option Str
  updatedAt : Option Str
  deriving DecidableEq

/-- A rollout file: the timestamp and id of its name, its time of modification in milliseconds,
and its head. -/
structure RolloutFile where
  path : Str
  created : Timestamp
  id : ℕ
  modified : Option Timestamp
  summary : HeadTailSummary
  deriving DecidableEq

structure ThreadItem where
  file : RolloutFile
  preview : Option Str
  cwd : Option Str
  source : Option SessionSource
  modelProvider : Option Str
  createdAt : Option Str
  updatedAt : Option Str
  deriving DecidableEq

inductive ThreadSortKey where
  | createdAt
  | updatedAt

inductive ThreadListLayout where
  | nestedByDate
  | flat

structure ThreadListConfig where
  allowedSources : List SessionSource
  modelProviders : Option (List Str)
  cwdFilters : Option (List Str)
  defaultProvider : Str
  layout : ThreadListLayout

/-- The library functions that listing calls. -/
structure Library where
  formatRfc3339 : Timestamp → Option Str
  parseRfc3339 : Str → Option Timestamp
  pathsMatchAfterNormalization : Str → Str → Bool

structure ProviderMatcher where
  filters : List Str
  matchesDefaultProvider : Bool

def ProviderMatcher.new (filters : List Str) (defaultProvider : Str) : Option ProviderMatcher :=
  if filters = [] then none else some ⟨filters, defaultProvider ∈ filters⟩

def ProviderMatcher.matches (matcher : ProviderMatcher) : Option Str → Bool
  | some provider => provider ∈ matcher.filters
  | none => matcher.matchesDefaultProvider

def ThreadListConfig.providerMatcher (config : ThreadListConfig) : Option ProviderMatcher :=
  config.modelProviders.bind fun filters => ProviderMatcher.new filters config.defaultProvider

variable (lib : Library)

def buildThreadItem (config : ThreadListConfig) (file : RolloutFile)
    (updatedAt : Option Str) : Option ThreadItem :=
  let summary := file.summary
  if config.allowedSources ≠ [] ∧ !(summary.source.any fun source =>
      source ∈ config.allowedSources) then none
  else if config.providerMatcher.any fun matcher => !matcher.matches summary.modelProvider then none
  else if config.cwdFilters.any fun filters => !(summary.cwd.any fun cwd =>
      filters.any fun filter => lib.pathsMatchAfterNormalization cwd filter) then none
  else if summary.sawSessionMeta ∧ summary.preview.isSome then
    some {
      file
      preview := summary.preview
      cwd := summary.cwd
      source := summary.source
      modelProvider := summary.modelProvider
      createdAt := summary.createdAt
      updatedAt := (summary.updatedAt.or updatedAt).or summary.createdAt }
  else none

def threadItem (config : ThreadListConfig) (file : RolloutFile) : Option ThreadItem :=
  buildThreadItem lib config file (file.modified.bind lib.formatRfc3339)

structure AnchorState where
  ts : Timestamp
  passed : Bool

def AnchorState.new : Option Timestamp → AnchorState
  | some cursor => ⟨cursor, false⟩
  | none => ⟨unixEpoch, true⟩

def AnchorState.shouldSkip (anchor : AnchorState) (ts : Timestamp) : Bool × AnchorState :=
  if anchor.passed then (false, anchor)
  else if ts < anchor.ts then (false, { anchor with passed := true })
  else (true, anchor)

structure Collected where
  items : List ThreadItem
  anchorState : AnchorState
  moreMatchesAvailable : Bool

def Collected.start (anchor : Option Timestamp) : Collected := ⟨[], .new anchor, false⟩

def maxScanFiles : ℕ := 10000

structure ThreadsPage where
  items : List ThreadItem
  nextCursor : Option Timestamp
  numScannedFiles : ℕ
  reachedScanCap : Bool

variable (sortKey : ThreadSortKey)

def itemCursor (item : ThreadItem) : Option Timestamp :=
  match sortKey with
  | .createdAt => some item.file.created
  | .updatedAt => item.updatedAt.bind lib.parseRfc3339

def buildNextCursor (items : List ThreadItem) (sortKey : ThreadSortKey) : Option Timestamp :=
  items.getLast?.bind (itemCursor lib sortKey)

def finishPage (collected : Collected) (scannedFiles : ℕ) : ThreadsPage :=
  let reachedScanCap : Bool := maxScanFiles ≤ scannedFiles
  let moreMatchesAvailable :=
    collected.moreMatchesAvailable || (reachedScanCap && !collected.items.isEmpty)
  { items := collected.items
    nextCursor := if moreMatchesAvailable then buildNextCursor lib collected.items sortKey else none
    numScannedFiles := scannedFiles
    reachedScanCap }

variable (item : RolloutFile → Option ThreadItem) (stamp : RolloutFile → Timestamp)

def collectPage
    (pageSize : ℕ) : List RolloutFile → Collected → Collected
  | [], collected => collected
  | file :: rest, collected =>
    let (skip, anchorState) := collected.anchorState.shouldSkip (stamp file)
    if skip then collectPage pageSize rest { collected with anchorState }
    else if collected.items.length = pageSize then
      { collected with anchorState, moreMatchesAvailable := true }
    else
      match item file with
      | some threadItem => collectPage pageSize rest
          { collected with anchorState, items := collected.items ++ [threadItem] }
      | none => collectPage pageSize rest { collected with anchorState }

abbrev Dir (α : Type) := List (ℕ × α)

abbrev DayDir := List RolloutFile

def collectDirsDesc {α : Type} (parent : Dir α) : Dir α :=
  sortByKey (fun entry => OrderDual.toDual entry.1) parent

def latestFirst (file : RolloutFile) : Timestampᵒᵈ ×ₗ ℕᵒᵈ :=
  toLex (OrderDual.toDual (stamp file), OrderDual.toDual file.id)

def collectRolloutDayFiles (day : DayDir) : List RolloutFile :=
  sortByKey (latestFirst RolloutFile.created) day

/-- A walk: what the visitor has, how many files were scanned, and whether the walk is over. -/
structure Walk (σ : Type) where
  visitor : σ
  scannedFiles : ℕ
  stopped : Bool

section Walking

variable {σ : Type} (visit : σ → RolloutFile → ℕ → σ × Bool)

def walkFiles : List RolloutFile → Walk σ → Walk σ
  | [], walk => walk
  | file :: rest, walk =>
    let scannedFiles := walk.scannedFiles + 1
    if scannedFiles > maxScanFiles then { walk with scannedFiles, stopped := true }
    else
      let (visitor, stop) := visit walk.visitor file scannedFiles
      if stop then ⟨visitor, scannedFiles, true⟩ else walkFiles rest ⟨visitor, scannedFiles, false⟩

def walkDirs {α : Type} (enter : α → Walk σ → Walk σ) : Dir α → Walk σ → Walk σ
  | [], walk => walk
  | (_, entry) :: rest, walk =>
    if walk.scannedFiles ≥ maxScanFiles then { walk with stopped := true }
    else
      let entered := enter entry walk
      if entered.stopped then entered else walkDirs enter rest entered

def walkRolloutFiles (years : Dir (Dir (Dir DayDir))) (visitor : σ) : Walk σ :=
  walkDirs
    (fun months => walkDirs
      (fun days => walkDirs
        (fun day => walkFiles visit (collectRolloutDayFiles day))
        (collectDirsDesc days))
      (collectDirsDesc months))
    (collectDirsDesc years) ⟨visitor, 0, false⟩

end Walking

def visitCreated (pageSize : ℕ) (collected : Collected)
    (file : RolloutFile) (scanned : ℕ) : Collected × Bool :=
  if scanned ≥ maxScanFiles ∧ collected.items.length ≥ pageSize then
    ({ collected with moreMatchesAvailable := true }, true)
  else
    let (skip, anchorState) := collected.anchorState.shouldSkip file.created
    if skip then ({ collected with anchorState }, false)
    else if collected.items.length = pageSize then
      ({ collected with anchorState, moreMatchesAvailable := true }, true)
    else
      match item file with
      | some threadItem =>
        ({ collected with anchorState, items := collected.items ++ [threadItem] }, false)
      | none => ({ collected with anchorState }, false)

def visitUpdated (candidates : List RolloutFile) (file : RolloutFile) (_scanned : ℕ) :
    List RolloutFile × Bool :=
  (candidates ++ [file], false)

def sortStamp (file : RolloutFile) : Timestamp :=
  match sortKey with
  | .createdAt => file.created
  | .updatedAt => file.modified.getD unixEpoch

/-- Directories are named after the dates of the files in them, each date once. -/
structure InLayout (years : Dir (Dir (Dir DayDir))) : Prop where
  dated : ∀ year ∈ years, ∀ month ∈ year.2, ∀ day ∈ month.2, ∀ file ∈ day.2,
    file.created.1 = toLex ((year.1 : ℤ), toLex (month.1, day.1))
  years_nodup : (years.map Prod.fst).Nodup
  months_nodup : ∀ year ∈ years, (year.2.map Prod.fst).Nodup
  days_nodup : ∀ year ∈ years, ∀ month ∈ year.2, (month.2.map Prod.fst).Nodup

variable (years : Dir (Dir (Dir DayDir)))

def nestedFiles : List RolloutFile :=
  years.flatMap fun year => year.2.flatMap fun month => month.2.flatMap Prod.snd

/-- The sessions directory: the directories of the nested layout and the files of the flat one. -/
structure SessionsRoot where
  years : Dir (Dir (Dir DayDir))
  files : List RolloutFile
  inLayout : InLayout years
  distinct : ((nestedFiles years ++ files).map RolloutFile.path).Nodup

variable (root : SessionsRoot)

def SessionsRoot.filesOf : ThreadListLayout → List RolloutFile
  | .nestedByDate => nestedFiles root.years
  | .flat => root.files

section Traversals

variable (lib : Library) (config : ThreadListConfig) (root : SessionsRoot) (pageSize : ℕ)
  (anchor : Option Timestamp)

def traverseDirectoriesForPathsCreated : ThreadsPage :=
  let walk := walkRolloutFiles (visitCreated (threadItem lib config) pageSize) root.years
    (.start anchor)
  finishPage lib .createdAt walk.visitor walk.scannedFiles

def traverseDirectoriesForPathsUpdated : ThreadsPage :=
  let walk := walkRolloutFiles visitUpdated root.years []
  let candidates := sortByKey (latestFirst (sortStamp .updatedAt)) walk.visitor
  let collected := collectPage (threadItem lib config) (sortStamp .updatedAt) pageSize candidates
    (.start anchor)
  finishPage lib .updatedAt collected walk.scannedFiles

/-- The two flat traversals: the files up to the cap, sorted. -/
def traverseFlatPaths (sortKey : ThreadSortKey) : ThreadsPage :=
  let scanned := root.files.take maxScanFiles
  let candidates := sortByKey (latestFirst (sortStamp sortKey)) scanned
  let collected := collectPage (threadItem lib config) (sortStamp sortKey) pageSize candidates
    (.start anchor)
  finishPage lib sortKey collected scanned.length

def getThreadsInRoot (root : Option SessionsRoot) (sortKey : ThreadSortKey) : ThreadsPage :=
  match root with
  | none => ⟨[], none, 0, false⟩
  | some root =>
    match config.layout, sortKey with
    | .nestedByDate, .createdAt =>
      traverseDirectoriesForPathsCreated lib config root pageSize anchor
    | .nestedByDate, .updatedAt =>
      traverseDirectoriesForPathsUpdated lib config root pageSize anchor
    | .flat, sortKey => traverseFlatPaths lib config root pageSize anchor sortKey

end Traversals

def walkOrder : List RolloutFile :=
  (collectDirsDesc years).flatMap fun year => (collectDirsDesc year.2).flatMap fun month =>
    (collectDirsDesc month.2).flatMap fun day => collectRolloutDayFiles day.2

variable {a b : RolloutFile}

theorem perm_collectDirsDesc (dir : Dir α) : (collectDirsDesc dir).Perm dir := perm_sortByKey _ dir

theorem perm_flatMap_dirs {g : ℕ × α → List RolloutFile} (h : ∀ e, (f e).Perm (g e)) (dir : Dir α) :
    ((collectDirsDesc dir).flatMap f).Perm (dir.flatMap g) := by
  calc ((collectDirsDesc dir).flatMap f).Perm ((collectDirsDesc dir).flatMap g) :=
        List.Perm.flatMap_left _ fun e _ => h e
    _ |>.Perm (dir.flatMap g) := (perm_collectDirsDesc dir).flatMap_right g

theorem perm_walkOrder (ys : Dir (Dir (Dir DayDir))) : (walkOrder ys).Perm (nestedFiles ys) := by
  refine perm_flatMap_dirs (fun y => ?_) ys
  refine perm_flatMap_dirs (fun m => ?_) y.2
  exact perm_flatMap_dirs (fun day => perm_sortByKey _ day.2) m.2

section Walking

variable {σ : Type} {vs : σ → RolloutFile → ℕ → σ × Bool}

theorem scannedFiles_walkFiles (fs : List RolloutFile) (w : Walk σ) :
    (walkFiles vs fs w).scannedFiles ≤ w.scannedFiles + fs.length := by
  induction fs generalizing w with
  | nil => exact le_refl _
  | cons file r ih =>
    rw [walkFiles, List.length_cons]
    split <;> dsimp only
    · omega
    · split
      · dsimp only
        omega
      · have hr := ih ⟨(vs w.visitor file (w.scannedFiles + 1)).1, w.scannedFiles + 1, false⟩
        dsimp only at hr
        omega

theorem walkFiles_append (f r : List RolloutFile) (h : w.stopped = false) :
    walkFiles vs (f ++ r) w = if (walkFiles vs f w).stopped then walkFiles vs f w
      else walkFiles vs r (walkFiles vs f w) := by
  induction f generalizing w with
  | nil => simp [walkFiles, h]
  | cons file f ih =>
    rw [List.cons_append, walkFiles, walkFiles]
    by_cases hc : w.scannedFiles + 1 > maxScanFiles
    · simp [hc]
    · simp only [hc]
      by_cases hs : (vs w.visitor file (w.scannedFiles + 1)).2 = true
      · simp [hs]
      · simp only [hs]
        exact ih rfl

theorem walkDirs_eq {fs : α → List RolloutFile} (hen : ∀ e walk, walk.stopped = false →
      walk.scannedFiles + (fs e).length < maxScanFiles → en e walk = walkFiles vs (fs e) walk)
    (dir : Dir α) (hw : walk.stopped = false)
    (hc : walk.scannedFiles + (dir.flatMap fun e => fs e.2).length < maxScanFiles) :
    walkDirs en dir walk = walkFiles vs (dir.flatMap fun e => fs e.2) walk := by
  induction dir generalizing walk with
  | nil => rfl
  | cons e dir ih =>
    rw [List.flatMap_cons, List.length_append] at hc
    have hb : ¬ walk.scannedFiles ≥ maxScanFiles := by omega
    have he := hen e.2 walk hw (by omega)
    rw [walkDirs, if_neg hb, he, List.flatMap_cons, walkFiles_append _ _ hw]
    by_cases hs : (walkFiles vs (fs e.2) walk).stopped = true
    · simp only [hs, if_true]
    · have hsc : (walkFiles vs (fs e.2) walk).scannedFiles ≤ _ :=
        scannedFiles_walkFiles _ walk
      simp only [hs]
      exact ih (Bool.eq_false_iff.mpr hs) (by omega)

theorem walkRolloutFiles_eq (v : σ) (hc : (walkOrder ys).length < maxScanFiles) :
    walkRolloutFiles vs ys v = walkFiles vs (walkOrder ys) ⟨v, 0, false⟩ := by
  let dfs : Dir DayDir → List RolloutFile := fun ds =>
    (collectDirsDesc ds).flatMap fun day => collectRolloutDayFiles day.2
  let mfs : Dir (Dir DayDir) → List RolloutFile := fun ms =>
    (collectDirsDesc ms).flatMap fun m => dfs m.2
  have hd : ∀ ds walk, walk.stopped = false → walk.scannedFiles + (dfs ds).length < maxScanFiles →
        walkDirs (fun day => walkFiles vs (collectRolloutDayFiles day)) (collectDirsDesc ds)
          walk = walkFiles vs (dfs ds) walk :=
    fun ds _ hw hb => walkDirs_eq (fun _ _ _ _ => rfl) _ hw hb
  have hm : ∀ ms walk, walk.stopped = false → walk.scannedFiles + (mfs ms).length < maxScanFiles →
        walkDirs (fun ds => walkDirs
          (fun day => walkFiles vs (collectRolloutDayFiles day)) (collectDirsDesc ds))
          (collectDirsDesc ms) walk = walkFiles vs (mfs ms) walk :=
    fun ms _ hw hb => walkDirs_eq hd _ hw hb
  have hb := (Nat.zero_add _).trans_lt hc
  exact walkDirs_eq hm _ rfl hb

end Walking

variable (fs : List RolloutFile)

theorem walkFiles_visitCreated (w : Walk Collected)
    (hc : w.scannedFiles + fs.length < maxScanFiles) :
    (walkFiles (visitCreated im p) fs w).visitor =
      collectPage im RolloutFile.created p fs w.visitor := by
  induction fs generalizing w with
  | nil => rfl
  | cons file r ih =>
    rw [List.length_cons] at hc
    have hb : ¬ w.scannedFiles + 1 > maxScanFiles := by omega
    have hv : ¬ (w.scannedFiles + 1 ≥ maxScanFiles ∧ w.visitor.items.length ≥ p) := by omega
    rw [walkFiles, collectPage]
    simp only [hb, visitCreated, hv]
    by_cases hs : (w.visitor.anchorState.shouldSkip file.created).1 = true
    · simp only [hs]
      exact ih _ (by dsimp only; omega)
    · simp only [hs, Bool.false_eq_true, if_false]
      by_cases hf : w.visitor.items.length = p
      · simp only [hf, if_true]
      · simp only [hf]
        cases im file <;> exact ih _ (by dsimp only; omega)

variable (files : List RolloutFile)

theorem walkFiles_visitUpdated (w : Walk (List RolloutFile))
    (hc : w.scannedFiles + files.length < maxScanFiles) :
    (walkFiles visitUpdated files w).visitor = w.visitor ++ files := by
  induction files generalizing w with
  | nil => exact (List.append_nil _).symm
  | cons file r ih =>
    rw [List.length_cons] at hc
    have hb : ¬ w.scannedFiles + 1 > maxScanFiles := by omega
    rw [walkFiles]
    simp only [hb, if_false, visitUpdated, Bool.false_eq_true]
    rw [ih _ (by dsimp only; omega), List.append_assoc, List.singleton_append]

theorem collectPage_passed (hp : c.anchorState.passed = true)
    (hr : c.items.length ≤ p) (hm : c.moreMatchesAvailable = false) :
    ((collectPage i s p fs c).items, (collectPage i s p fs c).moreMatchesAvailable) =
      (c.items ++ (fill i (p - c.items.length) fs).1, (fill i (p - c.items.length) fs).2) := by
  induction fs generalizing c with
  | nil => cases p - c.items.length <;> simp [collectPage, fill, hm]
  | cons file r ih =>
    have hs : c.anchorState.shouldSkip (s file) = (false, c.anchorState) := by
      rw [AnchorState.shouldSkip, if_pos hp]
    rw [collectPage, hs]
    by_cases hf : c.items.length = p
    · simp [hf, fill]
    · obtain ⟨wanted, hw⟩ : ∃ wanted, p - c.items.length = wanted + 1 :=
        ⟨p - c.items.length - 1, by omega⟩
      simp only [hf, Bool.false_eq_true, if_false, hw, fill]
      cases hi : i file with
      | none =>
        rw [← hw]
        exact ih hp hr hm
      | some threadItem =>
        have hr' : (c.items ++ [threadItem]).length ≤ p := by
          rw [List.length_append, List.length_singleton]
          omega
        have hl : p - (c.items ++ [threadItem]).length = wanted := by
          rw [List.length_append, List.length_singleton]
          omega
        let c' := { c with items := c.items ++ [threadItem] }
        have hp' : c'.anchorState.passed = true := hp
        have hrs := ih hp' hr' hm
        simp only [c', hl] at hrs
        rw [hrs, List.append_assoc, List.singleton_append]

theorem collectPage_start (ac : Option Timestamp) : ((collectPage i s p files (.start ac)).items,
      (collectPage i s p files (.start ac)).moreMatchesAvailable) =
      fill i p (after files s ac) := by
  have hp : ∀ (files : List RolloutFile) (ts : Timestamp),
      ((collectPage i s p files ⟨[], ⟨ts, true⟩, false⟩).items,
        (collectPage i s p files ⟨[], ⟨ts, true⟩, false⟩).moreMatchesAvailable) =
        fill i p files := by
    intro files ts
    exact collectPage_passed files rfl (Nat.zero_le p) rfl
  cases ac with
  | none => exact hp files unixEpoch
  | some c =>
    induction files with
    | nil => cases p <;> rfl
    | cons file rest ih =>
      by_cases hlt : s file < c
      · have hst : after (file :: rest) s (some c) = file :: rest := by
          simp [after, hlt]
        have hsk : AnchorState.shouldSkip ⟨c, false⟩ (s file) =
            AnchorState.shouldSkip ⟨c, true⟩ (s file) := by
          simp [AnchorState.shouldSkip, hlt]
        have hs : collectPage i s p (file :: rest) (.start (some c)) =
            collectPage i s p (file :: rest) ⟨[], ⟨c, true⟩, false⟩ := by
          rw [collectPage, collectPage, Collected.start, AnchorState.new]
          simp [hsk]
        rw [hst, hs, hp]
      · have hgo : after (file :: rest) s (some c) = after rest s (some c) := by
          simp [after, not_lt.mp hlt]
        have hs : collectPage i s p (file :: rest) (.start (some c)) =
            collectPage i s p rest (.start (some c)) := by
          rw [collectPage, Collected.start, AnchorState.new, AnchorState.shouldSkip]
          simp [hlt]
        rw [hgo, hs, ih]

/-- Below the cap a traversal of files in order gives the page of that order. -/
theorem finishPage_collectPage (sk : ThreadSortKey)
    (fs : List RolloutFile) (ac : Option Timestamp) {sfs : ℕ}
    (hc : sfs < maxScanFiles) :
    let threads := finishPage lib sk
      (collectPage i s p fs (.start ac)) sfs
    (threads.items, threads.nextCursor) = page fs s i (itemCursor lib sk) p ac := by
  have hf : _ = fill i p (after fs s ac) := collectPage_start fs ac
  have hb : decide (maxScanFiles ≤ sfs) = false := by
    rw [decide_eq_false_iff_not]
    omega
  simp only [finishPage, hb, Bool.false_and, Bool.or_false, page, ← hf, buildNextCursor]

def listOrder : ThreadListLayout → ThreadSortKey → List RolloutFile
  | .nestedByDate, .createdAt => walkOrder root.years
  | .nestedByDate, .updatedAt =>
    sortByKey (latestFirst (sortStamp .updatedAt)) (walkOrder root.years)
  | .flat, sortKey => sortByKey (latestFirst (sortStamp sortKey)) root.files

variable (rt : SessionsRoot) (l : ThreadListLayout)

theorem perm_listOrder (sk : ThreadSortKey) : (listOrder rt l sk).Perm (rt.filesOf l) := by
  cases l with
  | nestedByDate =>
    cases sk with
    | createdAt => exact perm_walkOrder rt.years
    | updatedAt => exact (perm_sortByKey _ _).trans (perm_walkOrder rt.years)
  | flat => exact perm_sortByKey _ _

theorem pairwise_collectDirsDesc {dir : Dir α} (h : (dir.map Prod.fst).Nodup) :
    (collectDirsDesc dir).Pairwise fun a b => b.1 < a.1 := by
  have hle := pairwise_sortByKey (fun e : ℕ × α => OrderDual.toDual e.1) dir
  have hn := ((perm_collectDirsDesc dir).map Prod.fst).nodup_iff.mpr h
  rw [List.Nodup, List.pairwise_map] at hn
  refine (hle.and hn).imp ?_
  rintro a b ⟨hab, hne⟩
  exact lt_of_le_of_ne hab (Ne.symm hne)

theorem latestFirst_of_lt (h : st b < st a) : latestFirst st a ≤ latestFirst st b :=
  (toLex_le_toLex.mpr (.inl h))

theorem stamp_le_of_latestFirst (h : latestFirst st a ≤ latestFirst st b) : st b ≤ st a := by
  rcases toLex_le_toLex.mp h with hlt | ⟨heq, -⟩
  · exact le_of_lt hlt
  · exact le_of_eq (congrArg OrderDual.ofDual heq).symm

theorem latestFirst_of_date (ha : a.created.1 = d) (hb : b.created.1 = d') (h : d' < d) :
    latestFirst RolloutFile.created a ≤ latestFirst RolloutFile.created b := by
  apply latestFirst_of_lt
  subst ha hb
  exact lt_iff.mpr (.inl h)

theorem mem_collectDirsDesc : e ∈ collectDirsDesc dir ↔ e ∈ dir := mem_sortByKey

/-- In the layout the walk goes from the latest file to the oldest. -/
theorem pairwise_walkOrder {ys : Dir (Dir (Dir DayDir))} (h : InLayout ys) : (walkOrder ys).Pairwise
      fun a b => latestFirst RolloutFile.created a ≤ latestFirst RolloutFile.created b := by
  have hdt : ∀ y ∈ collectDirsDesc ys, ∀ m ∈ collectDirsDesc y.2,
      ∀ day ∈ collectDirsDesc m.2, ∀ file ∈ collectRolloutDayFiles day.2,
        file.created.1 = toLex ((y.1 : ℤ), toLex (m.1, day.1)) := by
    intro y hy m hm day hd file hf
    exact h.dated y (mem_collectDirsDesc.mp hy) m (mem_collectDirsDesc.mp hm) day
      (mem_collectDirsDesc.mp hd) file (mem_sortByKey.mp hf)
  refine List.pairwise_flatMap.mpr ⟨fun y hy => ?_, ?_⟩
  · have hy' := mem_collectDirsDesc.mp hy
    refine List.pairwise_flatMap.mpr ⟨fun m hm => ?_, ?_⟩
    · have hm' := mem_collectDirsDesc.mp hm
      refine List.pairwise_flatMap.mpr ⟨fun day _ => pairwise_sortByKey _ day.2, ?_⟩
      refine (pairwise_collectDirsDesc (h.days_nodup y hy' m hm')).imp_of_mem ?_
      intro day day' hd hd' hlt a ha b hb
      apply latestFirst_of_date (hdt y hy m hm day hd a ha) (hdt y hy m hm day' hd' b hb)
      exact toLex_lt_toLex.mpr (.inr ⟨rfl, toLex_lt_toLex.mpr (.inr ⟨rfl, hlt⟩)⟩)
    · refine (pairwise_collectDirsDesc (h.months_nodup y hy')).imp_of_mem ?_
      intro m m' hm hm' hlt a ha b hb
      obtain ⟨day, hd, ha⟩ := List.mem_flatMap.mp ha
      obtain ⟨day', hd', hb⟩ := List.mem_flatMap.mp hb
      apply latestFirst_of_date (hdt y hy m hm day hd a ha) (hdt y hy m' hm' day' hd' b hb)
      exact toLex_lt_toLex.mpr (.inr ⟨rfl, toLex_lt_toLex.mpr (.inl hlt)⟩)
  · refine (pairwise_collectDirsDesc h.years_nodup).imp_of_mem ?_
    intro y y' hy hy' hlt a ha b hb
    obtain ⟨m, hm, ha⟩ := List.mem_flatMap.mp ha
    obtain ⟨day, hd, ha⟩ := List.mem_flatMap.mp ha
    obtain ⟨m', hm', hb⟩ := List.mem_flatMap.mp hb
    obtain ⟨day', hd', hb⟩ := List.mem_flatMap.mp hb
    apply latestFirst_of_date (hdt y hy m hm day hd a ha) (hdt y' hy' m' hm' day' hd' b hb)
    exact toLex_lt_toLex.mpr (.inl (Int.ofNat_lt.mpr hlt))

theorem pairwise_listOrder (sk : ThreadSortKey) : (listOrder rt l sk).Pairwise
      fun a b => latestFirst (sortStamp sk) a ≤ latestFirst (sortStamp sk) b := by
  cases l with
  | nestedByDate =>
    cases sk with
    | createdAt => exact pairwise_walkOrder rt.inLayout
    | updatedAt => exact pairwise_sortByKey _ _
  | flat => exact pairwise_sortByKey _ _

section Complete

variable (lib : Library) (config : ThreadListConfig) (root : SessionsRoot) (pageSize : ℕ)

def threadsPage (sortKey : ThreadSortKey) (cursor : Option Timestamp) :
    List ThreadItem × Option Timestamp :=
  let threads := getThreadsInRoot lib config pageSize cursor (some root) sortKey
  (threads.items, threads.nextCursor)

variable (cn : ThreadListConfig) (rt : SessionsRoot) (p : ℕ)

theorem threadsPage_eq_page (sk : ThreadSortKey)
    (hc : (rt.filesOf cn.layout).length < maxScanFiles) :
    threadsPage lib cn rt p sk = page (listOrder rt cn.layout sk) (sortStamp sk) (threadItem lib cn)
        (itemCursor lib sk) p := by
  funext cursor
  cases hl : cn.layout with rw [hl] at hc
  | nestedByDate =>
    have hw := (perm_walkOrder rt.years).length_eq.trans_lt hc
    have hb := (Nat.zero_add _).trans_lt hw
    cases sk with
    | createdAt =>
      simp only [threadsPage, getThreadsInRoot, hl, traverseDirectoriesForPathsCreated]
      rw [walkRolloutFiles_eq _ hw, walkFiles_visitCreated _ _ hb]
      exact finishPage_collectPage lib _ _ cursor ((scannedFiles_walkFiles _ _).trans_lt hb)
    | updatedAt =>
      simp only [threadsPage, getThreadsInRoot, hl, traverseDirectoriesForPathsUpdated]
      rw [walkRolloutFiles_eq _ hw, walkFiles_visitUpdated _ _ hb]
      exact finishPage_collectPage lib _ _ cursor ((scannedFiles_walkFiles _ _).trans_lt hb)
  | flat =>
    have ha : rt.files.take maxScanFiles = rt.files := List.take_of_length_le (le_of_lt hc)
    have ht : threadsPage lib cn rt p sk cursor =
        let ts := traverseFlatPaths lib cn rt p cursor sk
        (ts.items, ts.nextCursor) := by
      cases sk <;> simp [threadsPage, getThreadsInRoot, hl]
    rw [ht, traverseFlatPaths, ha]
    exact finishPage_collectPage lib sk _ cursor hc

theorem file_of_threadItem (h : threadItem lib cn file = some im) : im.file = file := by
  rw [threadItem, buildThreadItem] at h
  split at h
  · cases h
  split at h
  · cases h
  split at h
  · cases h
  split at h
  · cases h
    rfl
  · cases h

variable (l : ThreadListLayout)

theorem nodup_listOrder (sk : ThreadSortKey) : (listOrder rt l sk).Nodup := by
  have hd := rt.distinct
  rw [List.map_append, List.nodup_append] at hd
  rw [(perm_listOrder rt l sk).nodup_iff]
  cases l with
  | nestedByDate => exact hd.1.of_map _
  | flat => exact hd.2.1.of_map _

theorem nodup_threadItems (sk : ThreadSortKey) :
    ((listOrder rt l sk).filterMap (threadItem lib cn)).Nodup := by
  apply (nodup_listOrder rt l sk).filterMap
  intro file file' im hi hi'
  rw [← file_of_threadItem lib cn hi, ← file_of_threadItem lib cn hi']

/-- The listed order has every file once, the latest first. Following the cursors from the first
page lists every matching thread once in that order exactly if every page is cut clean: the
cursor of its last thread is not later than that thread, and later than the matching ones after
it. -/
theorem pagination_complete_iff (sortKey : ThreadSortKey)
    (hcap : (root.filesOf config.layout).length < maxScanFiles) (hpageSize : 0 < pageSize) :
    let order := listOrder root config.layout sortKey
    (order.Perm (root.filesOf config.layout) ∧ order.Nodup ∧ order.Pairwise fun a b =>
      latestFirst (sortStamp sortKey) a ≤ latestFirst (sortStamp sortKey) b) ∧
    (Lists (threadsPage lib config root pageSize sortKey) none
        (order.filterMap (threadItem lib config)) ↔
      CleanCuts order (sortStamp sortKey) (threadItem lib config) (itemCursor lib sortKey)
        pageSize) := by
  intro order
  have hp := pairwise_listOrder root config.layout sortKey
  refine ⟨⟨perm_listOrder root config.layout sortKey,
    nodup_listOrder root config.layout sortKey, hp⟩, ?_⟩
  rw [threadsPage_eq_page lib config root pageSize sortKey hcap]
  exact lists_iff_cleanCuts (hp.imp stamp_le_of_latestFirst)
    (nodup_threadItems lib config root config.layout sortKey) hpageSize

end Complete

theorem cleanCut_created (cn : ThreadListConfig) (hi : threadItem lib cn f = some im) :
    CleanCut (sortStamp .createdAt) (threadItem lib cn) (itemCursor lib .createdAt) f im r ↔
      ∀ l ∈ r, (threadItem lib cn l).isSome → l.created < f.created := by
  have hf := file_of_threadItem lib cn hi
  simp only [CleanCut, itemCursor, sortStamp, hf, le_refl, true_and]
  constructor
  · intro h l hl
    exact h (List.ne_nil_of_mem hl) l hl
  · intro h _
    exact h

def sampleDate : Date := toLex (2025, toLex (6, 1))

def sampleFile (name : Char) (second id : ℕ) : RolloutFile where
  path := [name]
  created := toLex (sampleDate, second * 1000000000)
  id := id
  modified := none
  summary := ⟨true, some "hello", none, some .cli, none, none, none⟩

def sampleItem (file : RolloutFile) : ThreadItem :=
  ⟨file, some "hello", none, some .cli, none, none, none⟩

def sampleRoot (hdated : ∀ file ∈ files, file.created.1 = sampleDate)
    (hdistinct : (files.map RolloutFile.path).Nodup) : SessionsRoot where
  years := [(2025, [(6, [(1, files)])])]
  files := []
  inLayout := by
    refine ⟨?_, by simp, by simp, by simp⟩
    simpa [sampleDate] using hdated
  distinct := by simpa [nestedFiles] using hdistinct

def sampleConfig : ThreadListConfig := ⟨[.cli], none, none, [], .nestedByDate⟩

def sampleLibrary : Library := ⟨fun _ => none, fun _ => none, fun a b => a = b⟩

theorem pagination_complete_two_seconds :
    let older := sampleFile 'a' 1 7
    let newer := sampleFile 'b' 2 5
    Lists (threadsPage sampleLibrary sampleConfig
        (sampleRoot [older, newer] (by decide) (by decide)) 1 .createdAt) none
      [sampleItem newer, sampleItem older] := by
  intro older newer
  let root := sampleRoot [older, newer] (by decide) (by decide)
  have ho : listOrder root .nestedByDate .createdAt = [] ++ newer :: [older] := by
    decide +kernel
  have hn : threadItem sampleLibrary sampleConfig newer = some (sampleItem newer) := by
    decide +kernel
  have holder : threadItem sampleLibrary sampleConfig older = some (sampleItem older) := by
    decide +kernel
  have hl : (List.filterMap (threadItem sampleLibrary sampleConfig) []).length + 1 = 1 := rfl
  have hc : CleanCuts (listOrder root .nestedByDate .createdAt) (sortStamp .createdAt)
      (threadItem sampleLibrary sampleConfig) (itemCursor sampleLibrary .createdAt) 1 := by
    rw [ho, cleanCuts_of_filled hn hl, cleanCut_created _ _ hn]
    refine ⟨by decide +kernel, ?_⟩
    rw [← List.nil_append [older], cleanCuts_of_filled holder hl, cleanCut_created _ _ holder]
    exact ⟨by decide, cleanCuts_of_short Nat.zero_lt_one⟩
  have hls := (pagination_complete_iff sampleLibrary sampleConfig root 1 .createdAt
    (by decide +kernel) Nat.zero_lt_one).2.mpr hc
  have hi : (listOrder root .nestedByDate .createdAt).filterMap
      (threadItem sampleLibrary sampleConfig) = [sampleItem newer, sampleItem older] := by
    decide +kernel
  exact hi ▸ hls

/-- Of two threads of one second, pages of one list only the first. -/
theorem same_second_thread_lost :
    let first := sampleFile 'a' 1 7
    let s := sampleFile 'b' 1 5
    let root := sampleRoot [first, s] (by decide) (by decide)
    let ps := threadsPage sampleLibrary sampleConfig root 1 .createdAt
    (listOrder root .nestedByDate .createdAt).filterMap (threadItem sampleLibrary sampleConfig) =
        [sampleItem first, sampleItem s] ∧
      ps none = ([sampleItem first], some first.created) ∧
      ps (some first.created) = ([], none) := by
  decide +kernel

end ThreadList
