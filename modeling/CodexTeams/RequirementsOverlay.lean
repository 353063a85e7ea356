import CodexTeams.ExecPolicy

/-! Requirements laid over a user's exec policy. Merging adds the rules, but base names are tried
only when no rule matches the command as written, and the user's paths for a base name count when
the requirements list none. -/
namespace RequirementsOverlay

open RustStr Paths ExecPolicy ExecPolicy.Policy List

/-- The user's paths for the base name keep the program from being looked up by it. -/
def Unlisted (env : ProcessEnv) (base overlay : Policy) (cmd : List Str) : Prop :=
  match hostProgram env cmd with
  | none => False
  | some (program, basename) =>
    overlay.hostExecutables basename = none ∧ base.pathAllowed program basename = false

/-- The requirements match the command as written, or no rule of the user does and the base
name is open; failing that, the user's own rules or the heuristics are as strict. -/
def Upheld (env : ProcessEnv) (base overlay : Policy) (cmd : List Str)
    (fallback : List Str → Decision) (d : Decision) : Prop :=
  overlay.matchExactRules cmd ≠ [] ∨
    if base.matchExactRules cmd = [] then ¬Unlisted env base overlay cmd ∨ d ≤ fallback cmd
    else ∃ m ∈ base.matchExactRules cmd, d ≤ m.decision

theorem getVec_mergeOverlay (b o : Policy) (program : Str) :
    (b.mergeOverlay o).getVec program = b.getVec program ++ o.getVec program :=
  filterMap_append

theorem matchExactRules_mergeOverlay (b o : Policy) (cmd : List Str) :
    (b.mergeOverlay o).matchExactRules cmd = b.matchExactRules cmd ++ o.matchExactRules cmd := by
  cases cmd with
  | nil => rfl
  | cons first r =>
    simp [matchExactRules, getVec_mergeOverlay]

theorem pathAllowed_mergeOverlay (b o : Policy) (p : AbsolutePathBuf)
    (basename : Str) : (b.mergeOverlay o).pathAllowed p basename =
      if o.hostExecutables basename = none then b.pathAllowed p basename
      else o.pathAllowed p basename := by
  have hl : (b.mergeOverlay o).hostExecutables basename =
      (o.hostExecutables basename).or (b.hostExecutables basename) :=
    lookup_append
  unfold pathAllowed
  rw [hl]
  cases o.hostExecutables basename <;> rfl

theorem matchHostExecutableRules_unlisted (h : Unlisted env b o cmd) :
    (b.mergeOverlay o).matchHostExecutableRules env cmd = [] := by
  unfold Unlisted at h
  unfold matchHostExecutableRules
  cases hp : hostProgram env cmd with
  | none => rfl
  | some f =>
    rw [hp] at h
    obtain ⟨hn, hb⟩ := h
    simp [pathAllowed_mergeOverlay, hn, hb]

theorem matchHostExecutableRules_listed (h : ¬Unlisted env b o cmd)
    (hm : m ∈ o.matchHostExecutableRules env cmd) :
    m ∈ (b.mergeOverlay o).matchHostExecutableRules env cmd := by
  unfold Unlisted at h
  unfold matchHostExecutableRules at hm ⊢
  cases hp : hostProgram env cmd with
  | none =>
    rw [hp] at hm
    cases hm
  | some f =>
    obtain ⟨p, bs⟩ := f
    rw [hp] at h hm
    simp only at h hm ⊢
    by_cases ha : o.pathAllowed p bs = true
    · rw [if_pos ha] at hm
      have hmr : (b.mergeOverlay o).pathAllowed p bs = true := by
        rw [pathAllowed_mergeOverlay]
        by_cases hn : o.hostExecutables bs = none
        · rw [if_pos hn]
          by_contra hb
          exact h ⟨hn, Bool.eq_false_iff.mpr hb⟩
        · rw [if_neg hn]
          exact ha
      rw [if_pos hmr, getVec_mergeOverlay, filterMap_append]
      exact mem_append_right _ hm
    · rw [if_neg ha] at hm
      cases hm

/-- What decides in the merged policy for a match the requirements have. -/
theorem merged_reaches_iff (hm : m ∈ o.ruleMatches env true cmd) (f : List Str → Decision) :
    (∃ m' ∈ (b.mergeOverlay o).matchesForCommandWithOptions env (some f) true cmd,
        m.decision ≤ m'.decision) ↔ Upheld env b o cmd f m.decision := by
  have he := matchExactRules_mergeOverlay b o cmd
  unfold Upheld
  by_cases ho : o.matchExactRules cmd = []
  · -- the requirements match by base name only
    have hh : m ∈ o.matchHostExecutableRules env cmd := by
      rwa [ruleMatches, if_neg (not_not_intro ho)] at hm
    rw [ho, append_nil] at he
    rw [or_iff_right (not_not_intro ho)]
    by_cases hb : b.matchExactRules cmd = []
    · have hr : (b.mergeOverlay o).ruleMatches env true cmd =
          (b.mergeOverlay o).matchHostExecutableRules env cmd := by
        rw [ruleMatches, he, if_neg (not_not_intro hb), if_pos rfl]
      rw [if_pos hb]
      by_cases hu : Unlisted env b o cmd
      · rw [or_iff_right (not_not_intro hu)]
        have hn := hr.trans (matchHostExecutableRules_unlisted hu)
        rw [matches_of_no_rules hn]
        simp [RuleMatch.decision]
      · have hmm := matchHostExecutableRules_listed hu hh
        refine iff_of_true ⟨m, ?_, le_refl _⟩ (.inl hu)
        rw [matches_of_rules (hr ▸ ne_nil_of_mem hmm), hr]
        exact hmm
    · have hr : (b.mergeOverlay o).ruleMatches env true cmd = b.matchExactRules cmd := by
        rw [ruleMatches, he, if_pos hb]
      rw [if_neg hb, matches_of_rules (hr ▸ hb), hr]
  · have hne : (b.mergeOverlay o).matchExactRules cmd ≠ [] := by
      rw [he]
      exact append_ne_nil_of_right_ne_nil _ ho
    have hr : (b.mergeOverlay o).ruleMatches env true cmd =
        b.matchExactRules cmd ++ o.matchExactRules cmd := by
      rw [ruleMatches, if_pos hne, he]
    refine iff_of_true ⟨m, ?_, le_refl _⟩ (.inl ho)
    rw [matches_of_rules (hr ▸ he ▸ hne), hr]
    rw [ruleMatches, if_pos ho] at hm
    exact mem_append_right _ hm

/-- A rule match of the requirements binds the merged policy exactly when it is upheld. -/
theorem merged_at_least_iff_upheld (env : ProcessEnv) (base overlay : Policy) (cmd : List Str)
    (fallback : List Str → Decision) (m : RuleMatch)
    (hm : m ∈ overlay.matchesForCommandWithOptions env none true cmd) :
    (∃ evaluation, (base.mergeOverlay overlay).checkWithOptions env cmd fallback true =
        some evaluation ∧ m.decision ≤ evaluation.decision) ↔
      Upheld env base overlay cmd fallback m.decision := by
  rw [matches_without_fallback] at hm
  obtain ⟨evaluation, he⟩ := Evaluation.exists_of_ne_nil
    (matches_ne_nil env (base.mergeOverlay overlay) true cmd fallback)
  rw [← merged_reaches_iff hm, ← Evaluation.le_decision_iff he]
  constructor
  · rintro ⟨evaluation', he', hle⟩
    cases he.symm.trans he'
    exact hle
  · intro hle
    exact ⟨evaluation, he, hle⟩

/-- A user's rule for another program leaves the requirement on rm in force. -/
theorem rm_requirement_upheld : ∃ evaluation,
      ((Policy.mk [("git", ⟨⟨"git", []⟩, .allow, none⟩)] []).mergeOverlay
          (Policy.mk [("rm", ⟨⟨"rm", []⟩, .forbidden, none⟩)] [])).checkWithOptions
        ⟨none, none⟩ ["/usr/bin/rm", "-rf"] (fun _ => .allow) true =
          some evaluation ∧ Decision.forbidden ≤ evaluation.decision := by
  have hu := merged_at_least_iff_upheld ⟨none, none⟩
    (Policy.mk [("git", ⟨⟨"git", []⟩, .allow, none⟩)] [])
    (Policy.mk [("rm", ⟨⟨"rm", []⟩, .forbidden, none⟩)] [])
    ["/usr/bin/rm", "-rf"] (fun _ => .allow)
    (.prefixRuleMatch ["rm"] .forbidden (some ⟨["usr", "bin", "rm"], by decide⟩) none) (by decide)
  refine hu.mpr (.inr ?_)
  exact .inl (fun h => absurd h.2 (by decide))

/-- A user's rule for the path of rm hides the requirement on rm. -/
theorem path_rule_hides_requirement : ((Policy.mk [("rm", ⟨⟨"rm", []⟩, .forbidden, none⟩)]
          []).matchesForCommandWithOptions ⟨none, none⟩ none true
        ["/usr/bin/rm", "-rf"]).map RuleMatch.decision = [.forbidden] ∧
      (((Policy.mk [("/usr/bin/rm", ⟨⟨"/usr/bin/rm", []⟩, .allow, none⟩)] []).mergeOverlay
          (Policy.mk [("rm", ⟨⟨"rm", []⟩, .forbidden, none⟩)] [])).checkWithOptions
        ⟨none, none⟩ ["/usr/bin/rm", "-rf"] (fun _ => .prompt) true).map
          Evaluation.decision = some .allow := by
  decide

end RequirementsOverlay
