import CodexTeams.RolloutReconstruction

/-! What a rollback leaves of a rollout. The backward loop skips the turns that were rolled back;
the forward loop replays them and cuts the history at the user messages. -/
namespace RollbackUndo

open RustInt RustStr ResponseItems ContextualMessages TextTruncation RolloutReconstruction List Bool

def insideTurn : RolloutItem → Bool
  | .eventMsg (.turnStarted _) | .eventMsg (.threadRolledBack _) => false
  | _ => true

structure Turn where
  turnId : Str
  body : List RolloutItem
  aborted : Bool
  inside : body.all insideTurn = true

namespace Turn

def ending (t : Turn) : RolloutItem :=
  .eventMsg (if t.aborted then .turnAborted (some t.turnId) else .turnComplete t.turnId)

def items (t : Turn) : List RolloutItem :=
  .eventMsg (.turnStarted t.turnId) :: (t.body ++ [t.ending])

end Turn

/-- A compaction that carries the history it left. -/
def isCheckpoint : RolloutItem → Bool
  | .compacted compacted => compacted.replacementHistory.isSome
  | _ => false

section Backwards

variable (parsers : TextParsers)

def startsUserTurn : RolloutItem → Bool
  | .eventMsg .userMessage => true
  | .responseItem item => isUserTurnBoundary parsers item
  | _ => false

def Turn.isUserTurn (t : Turn) : Bool := t.body.any (startsUserTurn parsers)

variable (ps : TextParsers)

theorem scanFrom_cons (h : (scanItem ps n i s).baseReplacementHistory = none) :
    scanFrom ps (i :: o) n s = scanFrom ps o (i :: n) (scanItem ps n i s) := by
  have hc : (scanItem ps n i s).complete = false := by simp [Scan.complete, h]
  rw [scanFrom, hc]
  exact if_neg Bool.false_ne_true

theorem turnContextSegment_turnId (ctx : TurnContextItem) {s : ActiveReplaySegment}
    (h : s.turnId = some ti) :
    (turnContextSegment ctx s).turnId = some ti ∧
      (turnContextSegment ctx s).countsAsUserTurn = s.countsAsUserTurn := by
  unfold turnContextSegment
  simp only [h]
  split <;> exact ⟨rfl, rfl⟩

theorem scanItem_inside (n : List RolloutItem) (hi : insideTurn i = true)
    (ha : s.activeSegment = some sg) (hid : sg.turnId = some ti) :
    ∃ sg' suffix, scanItem ps n i s =
        { s with activeSegment := some sg', rolloutSuffix := suffix } ∧
      sg'.turnId = some ti ∧
      sg'.countsAsUserTurn = (sg.countsAsUserTurn || startsUserTurn ps i) ∧
      (isCheckpoint i = false → suffix = s.rolloutSuffix) := by
  obtain ⟨b, ss, r, pending, suffix, a⟩ := s
  cases ha
  cases i with
  | sessionMeta => exact ⟨sg, suffix, rfl, hid, (Bool.or_false _).symm, fun _ => rfl⟩
  | responseItem i => exact ⟨_, suffix, rfl, hid, rfl, fun _ => rfl⟩
  | compacted compacted =>
    refine ⟨_, _, rfl, hid, (Bool.or_false _).symm, fun hn => ?_⟩
    exact if_neg (by simp [show compacted.replacementHistory.isSome = false from hn])
  | turnContext ctx =>
    obtain ⟨hid', hc⟩ := turnContextSegment_turnId ctx hid
    exact ⟨_, suffix, rfl, hid', hc.trans (Bool.or_false _).symm, fun _ => rfl⟩
  | eventMsg event =>
    cases event with
    | userMessage => exact ⟨_, suffix, rfl, hid, (Bool.or_true _).symm, fun _ => rfl⟩
    | other => exact ⟨sg, suffix, rfl, hid, (Bool.or_false _).symm, fun _ => rfl⟩
    | turnComplete other =>
      refine ⟨_, suffix, rfl, ?_, (Bool.or_false _).symm, fun _ => rfl⟩
      simp [Scan.segment, hid]
    | turnAborted other =>
      refine ⟨_, suffix, rfl, ?_, (Bool.or_false _).symm, fun _ => rfl⟩
      simp [hid]
    | _ => cases hi

theorem scanFrom_inside (r n : List RolloutItem) (hi : its.all insideTurn = true)
    (hb : s.baseReplacementHistory = none) (ha : s.activeSegment = some sg)
    (hid : sg.turnId = some ti) :
    ∃ sg' sf, scanFrom ps (its ++ r) n s = scanFrom ps r (its.reverse ++ n)
          { s with activeSegment := some sg', rolloutSuffix := sf } ∧
      sg'.turnId = some ti ∧
      sg'.countsAsUserTurn = (sg.countsAsUserTurn || its.any (startsUserTurn ps)) ∧
      (its.any isCheckpoint = false → sf = s.rolloutSuffix) := by
  induction its generalizing n s sg with
  | nil =>
    refine ⟨sg, s.rolloutSuffix, ?_, hid, (Bool.or_false _).symm, fun _ => rfl⟩
    rw [← ha]
    rfl
  | cons i its ih =>
    rw [all_cons, and_eq_true] at hi
    obtain ⟨mid, sf, hst, hm, hc, hs⟩ := scanItem_inside ps n hi.1 ha hid
    obtain ⟨l, sf', hr, hl, hc', hs'⟩ := ih (i :: n) hi.2
        (s := { s with activeSegment := some mid, rolloutSuffix := sf }) hb rfl hm
    refine ⟨l, sf', ?_, hl, ?_, ?_⟩
    · rw [cons_append, scanFrom_cons ps (by rw [hst]; exact hb), hst, hr, reverse_cons,
        append_assoc]
      rfl
    · rw [hc', hc, any_cons, Bool.or_assoc]
    · intro hn
      rw [any_cons, Bool.or_eq_false_iff] at hn
      exact (hs' hn.2).trans (hs hn.1)

theorem scanFrom_turn (t : Turn) (hu : t.isUserTurn ps = true)
    (r n : List RolloutItem) (hb : s.baseReplacementHistory = none)
    (ha : s.activeSegment = none) (hp : 0 < s.pendingRollbackTurns) :
    ∃ suffix, scanFrom ps (t.items.reverse ++ r) n s = scanFrom ps r (t.items ++ n)
          { s with
            pendingRollbackTurns := s.pendingRollbackTurns - 1
            rolloutSuffix := suffix } ∧
      (t.body.any isCheckpoint = false → suffix = s.rolloutSuffix) := by
  have he : scanItem ps n t.ending s =
      { s with
        activeSegment := some { ActiveReplaySegment.default with turnId := some t.turnId } } := by
    unfold Turn.ending
    cases t.aborted with
    | true => simp [scanItem, ha]
    | false => simp [scanItem, Scan.segment, ha, ActiveReplaySegment.default]
  have hr : t.items.reverse ++ r = t.ending :: (t.body.reverse ++
      .eventMsg (.turnStarted t.turnId) :: r) := by
    simp [Turn.items]
  have hi : t.body.reverse.all insideTurn = true := by
    rw [all_reverse]
    exact t.inside
  obtain ⟨segment, suffix, hrn, hid, hc, hs⟩ :=
    scanFrom_inside ps (.eventMsg (.turnStarted t.turnId) :: r) (t.ending :: n)
      (s := { s with
        activeSegment := some { ActiveReplaySegment.default with turnId := some t.turnId } })
      hi hb rfl rfl
  rw [any_reverse] at hc hs
  have hc' : segment.countsAsUserTurn = true := by
    rw [hc]
    exact (Bool.false_or _).trans hu
  refine ⟨suffix, ?_, hs⟩
  have hst : scanItem ps (t.body.reverse.reverse ++ t.ending :: n)
      (.eventMsg (.turnStarted t.turnId))
        { s with activeSegment := some segment, rolloutSuffix := suffix } =
      { s with
        pendingRollbackTurns := s.pendingRollbackTurns - 1
        rolloutSuffix := suffix } := by
    have hcm : turnIdsAreCompatible segment.turnId (some t.turnId) = true := by
      simp [turnIdsAreCompatible, hid]
    simp only [scanItem, hcm, if_true, finalizeActiveSegment, hp, hc', ← ha]
  rw [hr, scanFrom_cons ps (by rw [he]; exact hb), he, hrn,
    scanFrom_cons ps (by rw [hst]; exact hb), hst]
  simp [Turn.items]

theorem scanFrom_turns (ts : List Turn) (hus : ∀ t ∈ ts, t.isUserTurn ps = true)
    (r n : List RolloutItem) (hb : s.baseReplacementHistory = none)
    (ha : s.activeSegment = none) (hp : ts.length ≤ s.pendingRollbackTurns) :
    ∃ sf, scanFrom ps ((ts.flatMap Turn.items).reverse ++ r) n s =
        scanFrom ps r (ts.flatMap Turn.items ++ n)
          { s with
            pendingRollbackTurns := s.pendingRollbackTurns - ts.length
            rolloutSuffix := sf } ∧
      ((∀ t ∈ ts, t.body.any isCheckpoint = false) → sf = s.rolloutSuffix) := by
  induction ts using List.reverseRecOn generalizing n s with
  | nil => exact ⟨s.rolloutSuffix, rfl, fun _ => rfl⟩
  | append_singleton ts t ih =>
    rw [length_append, length_singleton] at hp
    obtain ⟨sf, htr, hs⟩ := scanFrom_turn ps t (hus t (mem_append_right _ mem_cons_self))
      ((ts.flatMap Turn.items).reverse ++ r) n hb ha (by omega)
    obtain ⟨sf', ht, hs'⟩ := ih (fun u hu => hus u (mem_append_left _ hu)) (t.items ++ n)
      (s := { s with
        pendingRollbackTurns := s.pendingRollbackTurns - 1
        rolloutSuffix := sf })
      hb ha (by change ts.length ≤ s.pendingRollbackTurns - 1; omega)
    refine ⟨sf', ?_, fun hn => ?_⟩
    · simp only [flatMap_append, flatMap_cons, flatMap_nil, append_nil,
        reverse_append, append_assoc, length_append, length_singleton]
      rw [htr, ht, Nat.sub_sub, Nat.add_comm 1]
    · exact (hs' fun u hu => hn u (mem_append_left _ hu)).trans
        (hs (hn t (mem_append_right _ mem_cons_self)))

def extend (tail : List RolloutItem) (s : Scan) : Scan :=
  { s with rolloutSuffix := s.rolloutSuffix ++ tail }

/-- Two scans that differ at most in the suffix they keep for the replay. -/
def SameFindings (s s' : Scan) : Prop := ∃ suffix, s' = { s with rolloutSuffix := suffix }

/-- In addition, the suffixes are related. -/
def Alike (P : List RolloutItem → List RolloutItem → Prop) (s s' : Scan) : Prop :=
  ∃ sf, P s.rolloutSuffix sf ∧ s' = { s with rolloutSuffix := sf }

theorem finalizeActiveSegment_alike (sg : ActiveReplaySegment) (h : Alike P s s') :
    Alike P (finalizeActiveSegment sg s) (finalizeActiveSegment sg s') := by
  obtain ⟨sf, hs, rfl⟩ := h
  unfold finalizeActiveSegment
  split
  · split <;> exact ⟨sf, hs, rfl⟩
  · exact ⟨sf, hs, rfl⟩

theorem scanItem_alike (hn : P n n') (i : RolloutItem) (h : Alike P s s') :
    Alike P (scanItem ps n i s) (scanItem ps n' i s') := by
  obtain ⟨b, ss, r, pending, sf, a⟩ := s
  obtain ⟨sf', hs, rfl⟩ := h
  cases i with
  | compacted compacted =>
    refine ⟨_, (apply_ite₂ P _ n sf n' sf').mpr ?_, rfl⟩
    split
    · exact hn
    · exact hs
  | eventMsg event =>
    cases event with
    | turnStarted ti =>
      cases a with
      | none => exact ⟨_, hs, rfl⟩
      | some segment =>
        by_cases hc : turnIdsAreCompatible segment.turnId (some ti) = true
        · simp only [scanItem, hc]
          exact finalizeActiveSegment_alike segment ⟨_, hs, rfl⟩
        · simp only [scanItem, hc]
          exact ⟨_, hs, rfl⟩
    | turnAborted ti => cases a <;> cases ti <;> exact ⟨_, hs, rfl⟩
    | _ => exact ⟨_, hs, rfl⟩
  | _ => exact ⟨_, hs, rfl⟩

theorem Alike.complete_eq (h : Alike P s s') : s.complete = s'.complete := by
  obtain ⟨sf, -, rfl⟩ := h
  rfl

theorem scanFrom_alike (hP : ∀ i n n', P n n' → P (i :: n) (i :: n')) (o : List RolloutItem)
    (hn : P n n') (h : Alike P s s') : Alike P (scanFrom ps o n s) (scanFrom ps o n' s') := by
  induction o generalizing n n' s s' with
  | nil => exact h
  | cons i o ih =>
    have hi := scanItem_alike ps hn i h
    simp only [scanFrom, hi.complete_eq]
    by_cases hc : (scanItem ps n' i s').complete = true
    · rw [if_pos hc, if_pos hc]
      exact hi
    · rw [if_neg hc, if_neg hc]
      exact ih (hP i n n' hn) hi

theorem finish_alike (h : Alike P s s') : Alike P s.finish s'.finish := by
  obtain ⟨b, ss, r, pending, sf, a⟩ := s
  obtain ⟨sf', hs, rfl⟩ := h
  cases a with
  | none => exact ⟨_, hs, rfl⟩
  | some segment => exact finalizeActiveSegment_alike segment ⟨_, hs, rfl⟩

def rolledBack (rollout : List RolloutItem) (turns : List Turn) (numTurns : UInt32) :
    List RolloutItem :=
  rollout ++ (turns.flatMap Turn.items ++ [.eventMsg (.threadRolledBack numTurns)])

/-- The backward loop over the rolled-back turns ends where it would have begun without them,
with the suffix it had unless a checkpoint was among them. -/
theorem scan_rolledBack (rl : List RolloutItem) (hu : ∀ t ∈ ts, t.isUserTurn ps = true)
    (hnm : nts.toNat = ts.length) :
    SameFindings (scan ps rl) (scan ps (rolledBack rl ts nts)) ∧
    ((∀ t ∈ ts, t.body.any isCheckpoint = false) → scan ps (rolledBack rl ts nts) =
        extend (ts.flatMap Turn.items ++ [.eventMsg (.threadRolledBack nts)]) (scan ps rl)) := by
  have hp : saturatingAdd 0 nts.toNat = ts.length := by
    have hlt := nts.toNat_lt
    rw [saturatingAdd, Nat.zero_add, ← hnm]
    exact Nat.min_eq_left (by unfold usizeMax; omega)
  obtain ⟨sf, ht, hsf⟩ := scanFrom_turns ps ts hu rl.reverse [.eventMsg (.threadRolledBack nts)]
    (s := ⟨none, none, .neverSet, ts.length, rolledBack rl ts nts, none⟩)
    rfl rfl le_rfl
  have hs : scanFrom ps (rolledBack rl ts nts).reverse [] (.init (rolledBack rl ts nts)) =
      scanFrom ps rl.reverse
        (ts.flatMap Turn.items ++ [.eventMsg (.threadRolledBack nts)])
        ⟨none, none, .neverSet, 0, sf, none⟩ := by
    have hr : (rolledBack rl ts nts).reverse = .eventMsg (.threadRolledBack nts) ::
          ((ts.flatMap Turn.items).reverse ++ rl.reverse) := by
      simp [rolledBack]
    have hst : scanItem ps [] (.eventMsg (.threadRolledBack nts)) (.init (rolledBack rl ts nts)) =
        ⟨none, none, .neverSet, ts.length, rolledBack rl ts nts, none⟩ := by
      rw [← hp]
      rfl
    rw [hr, scanFrom_cons ps (by rw [hst]), hst, ht, Nat.sub_self]
  have hal : ∀ {P : List RolloutItem → List RolloutItem → Prop},
      (∀ i n n', P n n' → P (i :: n) (i :: n')) →
      P [] (ts.flatMap Turn.items ++ [.eventMsg (.threadRolledBack nts)]) → P rl sf →
      Alike P (scan ps rl) (scan ps (rolledBack rl ts nts)) := by
    intro P hP hn hsf
    unfold scan
    rw [hs]
    exact finish_alike (scanFrom_alike ps hP rl.reverse hn ⟨sf, hsf, rfl⟩)
  constructor
  · obtain ⟨sf, -, hsf⟩ := hal (P := fun _ _ => True) (fun _ _ _ h => h) trivial trivial
    exact ⟨sf, hsf⟩
  · intro hn
    obtain ⟨sf', hsf', he⟩ := hal (P := fun n n' => n' = n ++ _)
      (fun i _ _ h => congrArg (i :: ·) h) rfl (hsf hn)
    rw [he, hsf']
    rfl

end Backwards

section Forwards

variable (parsers : TextParsers) (policy : TruncationPolicy)

def isLegacyCompaction : RolloutItem → Bool
  | .compacted compacted => compacted.replacementHistory.isNone
  | _ => false

def onlyRecords : RolloutItem → Bool
  | .compacted _ | .eventMsg (.threadRolledBack _) => false
  | _ => true

def isInstruction : RolloutItem → Bool
  | .responseItem item => isUserTurnBoundary parsers item
  | _ => false

def recordedItem : RolloutItem → Option ResponseItem
  | .responseItem item => if isApiMessage item then some (processItem policy item) else none
  | _ => none

def recorded (items : List RolloutItem) : List ResponseItem :=
  items.filterMap (recordedItem policy)

variable (ps : TextParsers) (pl : TruncationPolicy) (its its' : List RolloutItem)

theorem replay_append (r : Replay) : replay ps pl (its ++ its') r =
      replay ps pl its' (replay ps pl its r) :=
  foldl_append

variable (its : List RolloutItem)

theorem replay_sawLegacyCompaction (r : Replay) : (replay ps pl its r).sawLegacyCompaction =
      (r.sawLegacyCompaction || its.any isLegacyCompaction) := by
  induction its generalizing r with
  | nil => exact (Bool.or_false _).symm
  | cons i its ih =>
    rw [replay, foldl_cons, ← replay, ih, any_cons, ← Bool.or_assoc]
    congr 1
    cases i with
    | compacted compacted =>
      obtain ⟨message, h⟩ := compacted
      cases h with
      | none => exact (Bool.or_true _).symm
      | some h => exact (Bool.or_false _).symm
    | eventMsg event => cases event <;> exact (Bool.or_false _).symm
    | _ => exact (Bool.or_false _).symm

theorem replay_items_congr (h : r.items = r'.items) :
    (replay ps pl its r).items = (replay ps pl its r').items := by
  induction its generalizing r r' with
  | nil => exact h
  | cons i its ih =>
    apply ih
    cases i with
    | responseItem i => exact congrArg (fun its => recordItem pl its i) h
    | compacted compacted =>
      obtain ⟨message, history⟩ := compacted
      cases history with
      | none =>
        exact congrArg (fun its => buildCompactedHistory [] (collectUserMessages ps its) message) h
      | some history => rfl
    | eventMsg event =>
      cases event with
      | threadRolledBack nts =>
        exact congrArg (dropLastNUserTurns ps nts.toNat) h
      | _ => exact h
    | _ => exact h

theorem replay_records (h : items.all onlyRecords = true) (r : Replay) :
    (replay ps pl items r).items = r.items ++ recorded pl items := by
  induction items generalizing r with
  | nil => exact (append_nil _).symm
  | cons i items ih =>
    rw [all_cons, and_eq_true] at h
    rw [replay, foldl_cons, ← replay, ih h.2, recorded, recorded]
    cases i with
    | compacted compacted => cases h.1
    | responseItem i =>
      by_cases ha : isApiMessage i = true <;> simp [replayItem, recordItem, recordedItem, ha]
    | eventMsg event =>
      cases event with
      | threadRolledBack nts => cases h.1
      | _ => rfl
    | _ => rfl

theorem recordedItem_boundary (item : RolloutItem) :
    (recordedItem pl item).any (isUserTurnBoundary ps) = isInstruction ps item := by
  cases item with
  | responseItem item =>
    cases item with
    | message id r c p =>
      by_cases hs : r = "system"
      · subst hs
        rfl
      · have ha : isApiMessage (.message id r c p) = true := decide_eq_true hs
        rw [recordedItem, if_pos ha]
        rfl
    | _ => rfl
  | _ => rfl

theorem countP_recorded :
    (recorded pl its).countP (isUserTurnBoundary ps) = its.countP (isInstruction ps) := by
  induction its with
  | nil => rfl
  | cons i its ih =>
    have hi := recordedItem_boundary ps pl i
    rw [recorded, filterMap_cons, countP_cons, ← ih, ← hi]
    cases recordedItem pl i with
    | none => rfl
    | some recordedItem => exact countP_cons

theorem rdropWhile_append_of_all {tail : List α} (h : tail.all p = true) :
    (l ++ tail).rdropWhile p = l.rdropWhile p := by
  rw [List.rdropWhile, reverse_append, dropWhile_append_of_pos]
  · rfl
  · intro a ha
    exact all_eq_true.mp h a (mem_reverse.mp ha)

theorem take_trim (a b : List ResponseItem)
    (hf : ∃ i, a[first]? = some i ∧ isContextUpdate ps i = false) :
    (a ++ b).take (trimPreTurnContextUpdates ps (a ++ b) first a.length) =
      a.rdropWhile (isContextUpdate ps) := by
  induction a using List.reverseRecOn generalizing b with
  | nil =>
    obtain ⟨i, hi, _⟩ := hf
    cases hi
  | append_singleton a last ih =>
    obtain ⟨i, hi, hn⟩ := hf
    have hl : (a ++ [last] ++ b)[a.length]? = some last := by simp
    have hln : first < a.length + 1 := by
      have := (List.getElem?_eq_some_iff.mp hi).1
      simpa using this
    rw [length_append, length_singleton, trimPreTurnContextUpdates, hl]
    by_cases hc : isContextUpdate ps last = true
    · rw [if_pos ⟨hln, hc⟩, rdropWhile_concat_pos _ _ _ hc, append_assoc]
      apply ih
      have hne : first ≠ a.length := by
        rintro rfl
        rw [List.getElem?_concat_length, Option.some.injEq] at hi
        rw [hi, hn] at hc
        cases hc
      rw [List.getElem?_append_left (by omega)] at hi
      exact ⟨i, hi, hn⟩
    · rw [if_neg fun h => hc h.2, rdropWhile_concat_neg _ _ _ hc]
      exact take_left' (by simp)

/-- The history above the oldest instruction that is dropped: without the context right above
the cut, unless there is no older instruction. -/
theorem dropLastNUserTurns_cut (above bl : List ResponseItem)
    (hb : isUserTurnBoundary ps b = true) :
    dropLastNUserTurns ps ((b :: bl).countP (isUserTurnBoundary ps)) (above ++ b :: bl) =
      if above.any (isUserTurnBoundary ps) then above.rdropWhile (isContextUpdate ps)
      else above := by
  have hp : userMessagePositions ps (above ++ b :: bl) = above.findIdxs (isUserTurnBoundary ps) ++
        above.length :: bl.findIdxs (isUserTurnBoundary ps) (above.length + 1) := by
    rw [userMessagePositions, findIdxs_append, Nat.zero_add, findIdxs_cons, if_pos hb]
  have hcn : (b :: bl).countP (isUserTurnBoundary ps) =
      bl.countP (isUserTurnBoundary ps) + 1 := countP_cons_of_pos hb
  unfold dropLastNUserTurns
  rw [if_neg (by omega), hp, hcn]
  cases ha : above.findIdxs (isUserTurnBoundary ps) with
  | nil =>
    have hn : above.any (isUserTurnBoundary ps) = false := by
      rw [any_eq_false]
      intro i hi
      rw [findIdxs_eq_nil_iff] at ha
      simp [ha i hi]
    have ht : trimPreTurnContextUpdates ps (above ++ b :: bl) above.length
        above.length = above.length := by
      cases above.length with
      | zero => rfl
      | succ n => exact if_neg fun h => absurd h.1 (Nat.lt_irrefl _)
    rw [hn]
    simp only [nil_append, length_cons, length_findIdxs, le_refl, if_true, ht]
    exact take_left
  | cons first l =>
    have hm := ha ▸ mem_cons_self
    obtain ⟨hlt, hf⟩ := mem_findIdxs_iff_exists_getElem_pos.mp hm
    have han := any_eq_true.mpr ⟨_, getElem_mem hlt, hf⟩
    have hnt : isContextUpdate ps above[first] = false := by
      by_contra hc
      rw [not_boundary_of_contextUpdate ps (not_eq_false _ ▸ hc)] at hf
      cases hf
    have hl : (first :: (l ++ above.length ::
        bl.findIdxs (isUserTurnBoundary ps) (above.length + 1))).length =
        l.length + 1 + (bl.countP (isUserTurnBoundary ps) + 1) := by
      simp only [length_cons, length_append, length_findIdxs]
      omega
    simp only [cons_append]
    rw [hl, if_neg (by omega), Nat.add_sub_cancel, han]
    have hct : (first :: (l ++ above.length ::
        bl.findIdxs (isUserTurnBoundary ps) (above.length + 1))).getD
          (l.length + 1) 0 = above.length := by
      simp
    rw [hct]
    exact take_trim ps above (b :: bl) ⟨_, List.getElem?_eq_getElem hlt, hnt⟩

def Turn.leadIn (t : Turn) : List ResponseItem :=
  recorded policy (t.body.takeWhile fun item => !isInstruction parsers item)

def leadIn : List Turn → List ResponseItem
  | [] => []
  | t :: _ => t.leadIn parsers policy

theorem recorded_append : recorded pl (its ++ its') = recorded pl its ++ recorded pl its' :=
  filterMap_append

theorem recorded_items (t : Turn) : recorded pl t.items = recorded pl t.body := by
  have he : recorded pl [t.ending] = [] := by
    cases t.aborted <;> rfl
  have hs : recorded pl [.eventMsg (.turnStarted t.turnId)] = [] := rfl
  rw [Turn.items, ← singleton_append, recorded_append, recorded_append, hs, he,
    nil_append, append_nil]

variable {t : Turn}

theorem items_onlyRecord (h : t.body.all onlyRecords = true) : t.items.all onlyRecords = true := by
  have he : onlyRecords t.ending = true := by
    unfold Turn.ending
    cases t.aborted <;> rfl
  rw [Turn.items, all_cons, all_append, h, all_cons, he]
  rfl

theorem leadIn_no_boundary (t : Turn) : (t.leadIn ps pl).any (isUserTurnBoundary ps) = false := by
  have hc : (t.leadIn ps pl).countP (isUserTurnBoundary ps) = 0 := by
    rw [Turn.leadIn, countP_recorded, countP_eq_zero]
    intro i hi
    have hn := mem_takeWhile_imp hi
    simpa using hn
  rw [any_eq_false]
  exact countP_eq_zero.mp hc

theorem recorded_first_instruction (h : 0 < t.body.countP (isInstruction ps)) :
    ∃ b r, recorded pl t.items = t.leadIn ps pl ++ b :: r ∧ isUserTurnBoundary ps b = true := by
  have hs := takeWhile_append_dropWhile (p := fun i => !isInstruction ps i) (l := t.body)
  cases hd : t.body.dropWhile fun i => !isInstruction ps i with
  | nil =>
    rw [dropWhile_eq_nil_iff] at hd
    obtain ⟨i, hit, hi⟩ := countP_pos_iff.mp h
    have hn := hd i hit
    rw [hi] at hn
    cases hn
  | cons i r =>
    have hi : isInstruction ps i = true := by
      have hh := head_dropWhile_not (fun i => !isInstruction ps i)
        (l := t.body) (by rw [hd]; exact cons_ne_nil _ _)
      simpa [hd] using hh
    have hit := recordedItem_boundary ps pl i
    rw [hi] at hit
    cases hr : recordedItem pl i with
    | none => rw [hr] at hit; cases hit
    | some b =>
      rw [hr] at hit
      refine ⟨b, recorded pl r, ?_, hit⟩
      rw [hd] at hs
      rw [recorded_items, ← hs, recorded_append]
      congr 1
      rw [recorded, filterMap_cons, hr]
      rfl

theorem dropLastNUserTurns_turns (ho : ∀ u ∈ t :: ts, u.body.countP (isInstruction ps) = 1)
    (h : List ResponseItem) :
    dropLastNUserTurns ps (ts.length + 1) (h ++ recorded pl ((t :: ts).flatMap Turn.items)) =
      if h.any (isUserTurnBoundary ps) then (h ++ t.leadIn ps pl).rdropWhile (isContextUpdate ps)
      else h ++ t.leadIn ps pl := by
  have hc : ∀ ts : List Turn, (∀ u ∈ ts, u.body.countP (isInstruction ps) = 1) →
      (recorded pl (ts.flatMap Turn.items)).countP (isUserTurnBoundary ps) = ts.length := by
    intro ts ho
    induction ts with
    | nil => rfl
    | cons u ts ih =>
      rw [flatMap_cons, recorded_append, countP_append, recorded_items,
        countP_recorded, ho u mem_cons_self,
        ih fun v hv => ho v (mem_cons_of_mem u hv), length_cons, Nat.add_comm]
  have ht := ho t mem_cons_self
  obtain ⟨b, r, hf, hb⟩ := recorded_first_instruction ps pl (t := t) (by rw [ht]; exact Nat.one_pos)
  have hs : recorded pl ((t :: ts).flatMap Turn.items) = t.leadIn ps pl ++
        b :: (r ++ recorded pl (ts.flatMap Turn.items)) := by
    rw [flatMap_cons, recorded_append, hf, append_assoc, cons_append]
  have hn := leadIn_no_boundary ps pl t
  have hl := countP_eq_zero.mpr (any_eq_false.mp hn)
  have hln : ts.length + 1 = (b :: (r ++ recorded pl (ts.flatMap Turn.items))).countP
        (isUserTurnBoundary ps) := by
    have ha := hc (t :: ts) ho
    rw [hs, countP_append, hl, Nat.zero_add] at ha
    exact ha.symm
  rw [hs, ← append_assoc, hln, dropLastNUserTurns_cut ps _ _ hb, any_append, hn, Bool.or_false]

end Forwards

section Rollback

variable (ps : TextParsers) (pl : TruncationPolicy) (rl : List RolloutItem)

theorem any_isLegacyCompaction_items (t : Turn) :
    t.items.any isLegacyCompaction = t.body.any isLegacyCompaction := by
  rw [Turn.items, any_cons, any_append]
  exact (Bool.false_or _).trans (Bool.or_false _)

/-- Without a checkpoint the turns are replayed on the history of the rollout. -/
theorem reconstruct_rolledBack (hn : nts.toNat = ts.length) (hu : ∀ t ∈ ts, t.isUserTurn ps = true)
    (hnn : ∀ t ∈ ts, t.body.any isCheckpoint = false) :
    (reconstructHistoryFromRollout ps pl (rolledBack rl ts nts)).referenceContextItem =
      (if ts.any fun t => t.body.any isLegacyCompaction then none
        else (reconstructHistoryFromRollout ps pl rl).referenceContextItem) ∧
    (reconstructHistoryFromRollout ps pl (rolledBack rl ts nts)).history =
      dropLastNUserTurns ps ts.length (replay ps pl (ts.flatMap Turn.items)
          ⟨(reconstructHistoryFromRollout ps pl rl).history, false⟩).items := by
  have hs := (scan_rolledBack ps rl hu hn).2 hnn
  unfold reconstructHistoryFromRollout
  rw [hs]
  simp only [extend, replay_append]
  generalize replay ps pl (scan ps rl).rolloutSuffix
    ⟨(scan ps rl).baseReplacementHistory.getD [], false⟩ = before
  constructor
  · have hsw : (replay ps pl [.eventMsg (.threadRolledBack nts)]
        (replay ps pl (ts.flatMap Turn.items) before)).sawLegacyCompaction =
        (before.sawLegacyCompaction || ts.any fun t => t.body.any isLegacyCompaction) := by
      rw [← funext any_isLegacyCompaction_items, ← any_flatMap,
        replay_sawLegacyCompaction, replay_sawLegacyCompaction]
      exact or_false _
    rw [hsw]
    by_cases hl : (ts.any fun t => t.body.any isLegacyCompaction) = true
    · rw [hl, Bool.or_true, if_pos rfl, if_pos rfl]
    · rw [Bool.eq_false_iff.mpr hl, Bool.or_false, if_neg Bool.false_ne_true]
  · change dropLastNUserTurns ps nts.toNat _ = _
    rw [hn]
    exact congrArg (dropLastNUserTurns ps ts.length) (replay_items_congr ps pl _ rfl)

/-- Rolling back user turns gives the settings of the rollout without them. Unless one of them
holds a checkpoint, the baseline is that of the rollout too, but for a legacy compaction, and
the history is the one the turns were replayed on, cut at the newest instructions. With one
instruction in each turn and no compaction the history is what it was before the turns; what
was recorded before the first instruction of a session stays. -/
theorem rollback_undoes_turns (parsers : TextParsers) (policy : TruncationPolicy)
    (rollout : List RolloutItem) (turns : List Turn) (numTurns : UInt32)
    (hnum : numTurns.toNat = turns.length)
    (huser : ∀ t ∈ turns, t.isUserTurn parsers = true) :
    let base := reconstructHistoryFromRollout parsers policy rollout
    let un := reconstructHistoryFromRollout parsers policy (rolledBack rollout turns numTurns)
    un.previousTurnSettings = base.previousTurnSettings ∧
    ((∀ t ∈ turns, t.body.any isCheckpoint = false) → un.referenceContextItem =
        (if turns.any fun t => t.body.any isLegacyCompaction then none
          else base.referenceContextItem) ∧
      un.history = dropLastNUserTurns parsers turns.length
        (replay parsers policy (turns.flatMap Turn.items) ⟨base.history, false⟩).items ∧
      ((∀ t ∈ turns, t.body.all onlyRecords = true ∧ t.body.countP (isInstruction parsers) = 1) →
        (base.history.any (isUserTurnBoundary parsers) = false →
          un.history = base.history ++ leadIn parsers policy turns) ∧
        ((leadIn parsers policy turns).all (isContextUpdate parsers) = true →
          base.history.any (isUserTurnBoundary parsers) = true →
          (∀ item ∈ base.history.getLast?, isContextUpdate parsers item = false) →
          un.history = base.history))) := by
  intro base un
  constructor
  · obtain ⟨sf, hsf⟩ := (scan_rolledBack parsers rollout huser hnum).1
    change (scan parsers (rolledBack rollout turns numTurns)).previousTurnSettings = _
    rw [hsf]
    rfl
  intro hn
  obtain ⟨hr, hh⟩ := reconstruct_rolledBack parsers policy rollout hnum huser hn
  refine ⟨hr, hh, fun ht => ?_⟩
  cases turns with
  | nil =>
    -- a rollback of no turns
    have hs : un.history = base.history := hh
    exact ⟨fun _ => hs.trans (append_nil _).symm, fun _ _ _ => hs⟩
  | cons t turns =>
    have hrc : ((t :: turns).flatMap Turn.items).all onlyRecords = true := by
      rw [all_flatMap, all_eq_true]
      exact fun u hu => items_onlyRecord (ht u hu).1
    rw [replay_records parsers policy hrc, length_cons,
      dropLastNUserTurns_turns parsers policy fun u hu => (ht u hu).2] at hh
    constructor
    · intro hf
      exact hh.trans (if_neg (by rw [hf]; exact false_ne_true))
    · intro hc ha hl
      have hct := hh.trans ((if_pos ha).trans (rdropWhile_append_of_all hc))
      refine hct.trans (rdropWhile_eq_self_iff.mpr fun hne => ?_)
      rw [hl _ (List.getLast?_eq_some_getLast hne)]
      exact false_ne_true

def message (role text : String) : RolloutItem :=
  .responseItem (.message none role.toList [.inputText text.toList] none)

def question (turnId text : String) (context : List RolloutItem) : Turn where
  turnId := turnId.toList
  body := context.filter insideTurn ++
    [.eventMsg .userMessage, .turnContext ⟨some turnId.toList, turnId.toList, none, []⟩,
      message "user" text, .responseItem (.functionCall none [] none [] turnId.toList),
      .responseItem (.functionCallOutput turnId.toList ⟨.text "ok", none⟩),
      message "assistant" "done"]
  aborted := false
  inside := by
    rw [List.all_append, Bool.and_eq_true]
    exact ⟨List.all_eq_true.mpr fun item hitem => (List.mem_filter.mp hitem).2, rfl⟩

def cwdUpdate : RolloutItem :=
  message "user" "<environment_context>\n  <cwd>/ws</cwd>\n</environment_context>"

def firstSession : List RolloutItem := (question "1" "first" [cwdUpdate]).items

def laterTurns : List Turn := [question "2" "second" [cwdUpdate], question "3" "third" []]

theorem later_turns_undone :
    let base := reconstructHistoryFromRollout plainParsers (.bytes 100) firstSession
    let un := reconstructHistoryFromRollout plainParsers (.bytes 100)
      (rolledBack firstSession laterTurns 2)
    un.previousTurnSettings = base.previousTurnSettings ∧
      un.referenceContextItem = base.referenceContextItem ∧
      un.history = base.history := by
  obtain ⟨hs, hrs⟩ := rollback_undoes_turns plainParsers (.bytes 100) firstSession
    laterTurns 2 rfl (by decide +kernel)
  obtain ⟨hr, _, hh⟩ := hrs (by decide +kernel)
  exact ⟨hs, hr, (hh (by decide +kernel)).2 (by decide +kernel)
    (by decide +kernel) (by decide +kernel)⟩

def standaloneTurn : Turn := ⟨"0", [], false, rfl⟩

/-- The context put in before the first question of a session stays when it is rolled back. -/
theorem session_prefix_survives :
    (question "1" "first" [cwdUpdate]).isUserTurn plainParsers = true ∧
    (reconstructHistoryFromRollout plainParsers (.bytes 100) standaloneTurn.items).history = [] ∧
    (reconstructHistoryFromRollout plainParsers (.bytes 100)
      (rolledBack standaloneTurn.items [question "1" "first" [cwdUpdate]] 1)).history ≠ [] := by
  decide +kernel

end Rollback

end RollbackUndo
