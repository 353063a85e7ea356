import CodexTeams.ChatComposer
import CodexTeams.TextAreaInvariant

/-! What is typed into the composer is neither lost nor reordered by paste detection. -/
namespace ChatComposer

open RustStr SizedLists Utf8 PasteBurst TextEditing Runs List Burst Nat

def Key.text : Key → Str
  | .char ch => [ch]
  | .enter => ['\n']

namespace Event

def now : Event → Instant
  | .key now _ | .tick now => now

def text : Event → Str
  | .key _ pressed => pressed.text
  | .tick _ => []

end Event

def typed (events : List Event) : Str := events.flatMap Event.text

structure Session where
  composer : Composer
  clock : Instant

section Sessions

variable (env : Surroundings)

def Verbatim (c : Composer) (pasted : Str) : Prop :=
  '\r' ∉ pasted ∧ pasted.length ≤ largePasteCharThreshold ∧
    ¬ (1 < pasted.length ∧ c.imagePasteEnabled = true ∧ env.readsImage pasted = true)

instance decidableVerbatim (c : Composer) (pasted : Str) : Decidable (Verbatim env c pasted) :=
  inferInstanceAs (Decidable (_ ∧ _ ∧ _))

/-- Time does not go back, bursts are pasted verbatim, and keys are no control characters. -/
def Enabled (s : Session) (event : Event) : Prop :=
  s.clock ≤ event.now ∧
  (∀ pasted burst, s.composer.burst.flushIfDue env.windows event.now = (.paste pasted, burst) →
    Verbatim env s.composer pasted) ∧
  ∀ now ch, event = .key now (.char ch) → isAsciiControl ch = false

def next (s : Session) : Event → Session
  | .key now key => ⟨s.composer.handleKeyEvent env key now, now⟩
  | .tick now => ⟨s.composer.handlePasteBurstFlush env now, now⟩

def typing : EventSystem Session Event := ⟨Enabled env, next env⟩

end Sessions

/-- If the key at this time goes on from the last ones, no element reaches into the characters
that count as typed in one go. -/
def LooksBackSafely (now : Instant) (c : Composer) : Prop :=
  c.burst.isActive = false → ∀ last, c.burst.lastPlainCharTime = some last →
    now - last ≤ pasteBurstCharInterval →
      Within (c.textarea.text.rdrop c.burst.consecutivePlainCharBurst) c.textarea.elements

/-- Enter does not follow within the interval on a character that is held back, and what may be
taken back into a burst is behind the elements. -/
def Undisturbed (s : Session) : Event → Prop
  | .key now .enter => ∀ held heldAt, s.composer.burst.pendingFirstChar = some (held, heldAt) →
      pasteBurstCharInterval < now - heldAt
  | .key now (.char _) => LooksBackSafely now s.composer
  | .tick _ => True

/-- The cursor is behind the text, and no element reaches beyond it. -/
structure AtEnd (a : EditArea) : Prop where
  cursor : a.cursorPos = byteLen a.text
  within : Within a.text a.elements

/-- Nothing waits in the detector, which is on, and the cursor is behind the text. -/
structure Composer.Idle (c : Composer) : Prop where
  atEnd : AtEnd c.textarea
  enabled : c.disablePasteBurst = false
  quiet : c.burst.isActive = false

def held (b : Burst) : Str := b.buffer ++ (b.pendingFirstChar.map Prod.fst).toList

/-- The text and what waits are the whole of what was typed. -/
structure Keeps (clock : Instant) (whole : Str) (c : Composer) : Prop where
  atEnd : AtEnd c.textarea
  enabled : c.disablePasteBurst = false
  whole : c.textarea.text ++ held c.burst = whole
  buffered : c.burst.buffer ≠ [] → c.burst.active = true
  pending : ∀ ch heldAt, c.burst.pendingFirstChar = some (ch, heldAt) →
    c.burst.active = false ∧ c.burst.lastPlainCharTime = some heldAt ∧ isAsciiControl ch = false
  timed : c.burst.isActive = true → ∃ last, c.burst.lastPlainCharTime = some last ∧ last ≤ clock

section Areas

variable {a : EditArea}

theorem stop_le_of_shift (h : ∀ e ∈ es, e.stop ≤ pos) :
    ∀ e ∈ shiftElements pos r n es, e.stop ≤ pos := by
  intro e he
  obtain ⟨o, ho, rfl⟩ := mem_map.mp he
  have hs := h o (mem_filter.mp ho).1
  rwa [shiftElement, if_pos hs]

theorem AtEnd.clamped (hw : Within a.text a.elements) :
    AtEnd { a with cursorPos := a.clampPosToNearestBoundary (byteLen a.text) } :=
  ⟨clamp_of_rests (rests_end hw), hw⟩

variable (h : AtEnd a)

include h

theorem AtEnd.insertStr_eq (str : Str) : a.insertStr str = { a with
      text := a.text ++ str, cursorPos := byteLen a.text + byteLen str
      elements := shiftElements (byteLen a.text) 0 (byteLen str) a.elements } := by
  have hp : a.clampPosForInsertion (byteLen a.text) = byteLen a.text :=
    clamp_of_rests (rests_end h.within)
  have hb := before_byteLen a.text []
  have hf := behind_byteLen a.text []
  rw [append_nil] at hb hf
  simp [EditArea.insertStr, EditArea.insertStrAt, h.cursor, hp, hb, hf]

theorem AtEnd.insertStr (str : Str) : AtEnd (a.insertStr str) := by
  rw [h.insertStr_eq]
  refine ⟨(byteLen_append _ _).symm, fun e he => ?_⟩
  have hs := stop_le_of_shift h.within e he
  rw [byteLen_append]
  omega

/-- What is behind all elements is cut off. -/
theorem AtEnd.replaceRange (ht : a.text = x ++ y) (hy : y ≠ []) (hf : Within x a.elements) :
    (a.replaceRange ⟨byteLen x, byteLen a.text⟩ []).text = x ∧
      AtEnd (a.replaceRange ⟨byteLen x, byteLen a.text⟩ []) := by
  have hl : byteLen a.text = byteLen x + byteLen y := by rw [ht, byteLen_append]
  have hr : expandRangeToElementBoundaries a.elements ⟨byteLen x, byteLen x + byteLen y⟩ =
      ⟨byteLen x, byteLen x + byteLen y⟩ :=
    Function.iterate_fixed (foldl_of_clean fun e he => .inl (hf e he)) _
  have hx : (edited a x y [] []).text = x := by simp [edited]
  have hm : min (EditArea.movedCursor (byteLen x) (byteLen x + byteLen y) 0 a.cursorPos)
      (byteLen (x ++ [] ++ [])) = byteLen x := by
    rw [h.cursor, hl, EditArea.movedCursor, if_neg (by omega), if_pos le_rfl]
    simp
  have he : a.replaceRangeRaw ⟨byteLen x, byteLen x + byteLen y⟩ [] =
      { edited a x y [] [] with
        cursorPos := (edited a x y [] []).clampPosToNearestBoundary
          (byteLen (edited a x y [] []).text) } := by
    refine (replaceRangeRaw_eq (z := []) (by simpa using ht) []).trans ?_
    rw [if_neg fun hz => hy (eq_nil_of_byteLen hz.1), hx]
    exact congrArg (fun n => { edited a x y [] [] with
      cursorPos := (edited a x y [] []).clampPosToNearestBoundary n }) hm
  have hw : Within (edited a x y [] []).text (edited a x y [] []).elements := by
    rw [hx]
    exact stop_le_of_shift hf
  rw [hl, EditArea.replaceRange, hr, he]
  exact ⟨hx, AtEnd.clamped hw⟩

end Areas

section Steps

variable (env : Surroundings) {c : Composer} {cl : Instant} {w : Str}

theorem AtEnd.syncPopups (h : AtEnd c.textarea) : AtEnd (c.syncPopups env).textarea :=
  ⟨h.cursor, env.markedElements_within c h.within⟩

theorem syncBashModeFromText_of_head (h : c.textarea.text.head? ≠ some '!') :
    c.syncBashModeFromText = c :=
  if_neg fun hb => h hb.2

theorem insertStr_spec (he : AtEnd c.textarea) (hb : (c.textarea.text ++ str).head? ≠ some '!') :
    (c.insertStr env str).textarea.text = c.textarea.text ++ str ∧
      AtEnd (c.insertStr env str).textarea ∧ (c.insertStr env str).burst = c.burst ∧
      (c.insertStr env str).disablePasteBurst = c.disablePasteBurst := by
  have hs : { c with textarea := c.textarea.insertStr str }.syncBashModeFromText =
      { c with textarea := c.textarea.insertStr str } := by
    apply syncBashModeFromText_of_head
    rwa [he.insertStr_eq]
  rw [Composer.insertStr, hs]
  refine ⟨?_, (he.insertStr str).syncPopups env, rfl, rfl⟩
  change (c.textarea.insertStr str).text = _
  rw [he.insertStr_eq]

theorem replaceCrLf_of_notMem (h : '\r' ∉ s) : replaceCrLf s = s := by
  induction s with
  | nil => rfl
  | cons ch rs ih =>
    rw [mem_cons, not_or] at h
    rw [replaceCrLf, ih h.2]
    intro _ hcr
    exact absurd hcr.symm h.1

theorem normalizeNewlines_of_notMem (h : '\r' ∉ s) : normalizeNewlines s = s := by
  rw [normalizeNewlines, replaceCrLf_of_notMem h]
  conv_rhs => rw [← map_id s]
  apply map_congr_left
  intro ch hm
  refine if_neg ?_
  rintro rfl
  exact h hm

theorem handlePaste_spec (he : AtEnd c.textarea) (hv : Verbatim env c p)
    (hb : (c.textarea.text ++ p).head? ≠ some '!') :
    (c.handlePaste env p).textarea.text = c.textarea.text ++ p ∧
      AtEnd (c.handlePaste env p).textarea ∧ (c.handlePaste env p).burst = Burst.new ∧
      (c.handlePaste env p).disablePasteBurst = c.disablePasteBurst := by
  obtain ⟨hcr, hs, him⟩ := hv
  obtain ⟨ht, hi, _, hd⟩ := insertStr_spec env he hb
  simp only [Composer.handlePaste, normalizeNewlines_of_notMem hcr, if_neg (not_lt.mpr hs),
    if_neg him]
  exact ⟨ht, AtEnd.syncPopups env (c := { c.insertStr env p with burst := _ }) hi, rfl, hd⟩

theorem head?_ne_of_append {b : Str} (h : (a ++ b).head? ≠ some '!') : a.head? ≠ some '!' := by
  cases a with
  | nil => simp
  | cons ch rs => simpa using h

theorem Keeps.of_quiet (hen : AtEnd c.textarea) (he : c.disablePasteBurst = false)
    (ht : c.textarea.text = w) (hq : c.burst.isActive = false) : Keeps cl w c := by
  obtain ⟨_, hb, hp⟩ := isActive_eq_false.mp hq
  refine ⟨hen, he, ?_, absurd hb, ?_, ?_⟩
  · rw [held, hb, hp, ← ht]
    exact append_nil _
  · intro ch heldAt hs
    rw [hp] at hs
    cases hs
  · intro ha
    rw [hq] at ha
    cases ha

variable (h : Keeps cl w c)

include h

theorem Keeps.quiet_text (hq : c.burst.isActive = false) : c.textarea.text = w := by
  obtain ⟨_, hb, hp⟩ := isActive_eq_false.mp hq
  rw [← h.whole, held, hb, hp]
  exact (append_nil _).symm

theorem Keeps.buffer_eq_nil (ha : c.burst.active = false) : c.burst.buffer = [] := by
  by_contra hne
  rw [h.buffered hne] at ha
  cases ha

theorem Keeps.active (hi : c.burst.isActiveInternal = true) : c.burst.active = true := by
  by_contra hn
  rw [Bool.not_eq_true] at hn
  rw [isActiveInternal_eq_false.mpr ⟨hn, h.buffer_eq_nil hn⟩] at hi
  cases hi

theorem Keeps.pending_eq_none (ha : c.burst.active = true) : c.burst.pendingFirstChar = none := by
  cases hp : c.burst.pendingFirstChar with
  | none => rfl
  | some held =>
    obtain ⟨hn, _⟩ := h.pending held.1 held.2 hp
    rw [ha] at hn
    cases hn

theorem Keeps.flush
    (hv : ∀ p burst, c.burst.flushIfDue env.windows now = (.paste p, burst) → Verbatim env c p)
    (hbn : w.head? ≠ some '!') :
    Keeps cl w (c.handlePasteBurstFlush env now) ∧
      (∀ l, (c.handlePasteBurstFlush env now).burst.lastPlainCharTime = some l →
        now - l ≤ pasteBurstCharInterval → c.handlePasteBurstFlush env now = c) ∧
      ∀ ch a, (c.handlePasteBurstFlush env now).burst.pendingFirstChar = some (ch, a) →
        now - a ≤ pasteBurstCharInterval := by
  rcases c.burst.flushIfDue_cases env.windows now with
    ⟨_, hi, hf⟩ | ⟨hd, hi, ch, a, hp, hf⟩ | ⟨hf, hwh⟩
  · have hn := h.pending_eq_none (h.active hi)
    have hw : c.textarea.text ++ c.burst.buffer = w := by
      rw [← h.whole, held, hn]
      exact congrArg _ (append_nil _).symm
    rw [← hw] at hbn
    let q : Composer := { c with burst := { c.burst with active := false, buffer := [] } }
    have hfl : c.handlePasteBurstFlush env now = q.handlePaste env c.burst.buffer := by
      simp [Composer.handlePasteBurstFlush, hf, q]
    obtain ⟨ht, hen, hb, he⟩ := handlePaste_spec env (c := q) h.atEnd (hv _ _ hf) hbn
    rw [hfl]
    refine ⟨Keeps.of_quiet hen (he.trans h.enabled) (ht.trans hw) ?_, ?_, ?_⟩
    · rfl
    · intro l hl
      cases hl
    · intro ch a hp
      cases hp
  · obtain ⟨ha, hbf⟩ := isActiveInternal_eq_false.mp hi
    have hw : c.textarea.text ++ [ch] = w := by
      rw [← h.whole, held, hbf, hp]
      rfl
    rw [← hw] at hbn
    let q : Composer := { c with burst := { c.burst with pendingFirstChar := none } }
    have hfl : c.handlePasteBurstFlush env now = q.insertStr env [ch] := by
      simp [Composer.handlePasteBurstFlush, hf, q]
    obtain ⟨ht, hen, hb, he⟩ := insertStr_spec env (c := q) h.atEnd hbn
    rw [hfl]
    refine ⟨Keeps.of_quiet hen (he.trans h.enabled) (ht.trans hw) ?_, ?_, ?_⟩
    · rw [hb]
      exact isActive_eq_false.mpr ⟨ha, hbf, rfl⟩
    · intro l hl hsn
      rw [hb] at hl
      rw [timedOut, hl, Option.any_some, decide_eq_true_eq, timeout_of_internal hi] at hd
      exact absurd hsn (not_le.mpr hd)
    · intro o a' hs
      rw [hb] at hs
      cases hs
  · have hsm : c.handlePasteBurstFlush env now = c := by
      simp [Composer.handlePasteBurstFlush, hf]
    rw [hsm]
    refine ⟨h, fun _ _ _ => rfl, fun ch a hp => ?_⟩
    obtain ⟨ha, hl, _⟩ := h.pending ch a hp
    have hi := isActiveInternal_eq_false.mpr ⟨ha, h.buffer_eq_nil ha⟩
    rcases hwh with hnt | ⟨_, hn⟩
    · rw [timedOut, hl, Option.any_some, decide_eq_false_iff_not, timeout_of_internal hi] at hnt
      exact not_lt.mp hnt
    · rw [hp] at hn
      cases hn

theorem Keeps.buffer (hb : burst.buffer = held c.burst ++ str) (ha : burst.active = true)
    (hp : burst.pendingFirstChar = none) (hl : ∃ l, burst.lastPlainCharTime = some l ∧ l ≤ now) :
    Keeps now (w ++ str) { c with burst := burst } := by
  refine ⟨h.atEnd, h.enabled, ?_, fun _ => ha, ?_, fun _ => hl⟩
  · rw [held, hb, hp, ← h.whole]
    simp
  · intro ch heldAt hs
    rw [show burst.pendingFirstChar = some (ch, heldAt) from hs] at hp
    cases hp

theorem Keeps.syncPopups : Keeps cl w (c.syncPopups env) :=
  { h with atEnd := h.atEnd.syncPopups env }

theorem Keeps.retainPendingPastes : Keeps cl w c.retainPendingPastes := { h with }

theorem Keeps.syncBashModeFromText (hb : w.head? ≠ some '!') :
    Keeps cl w c.syncBashModeFromText := by
  rw [← h.whole] at hb
  rwa [syncBashModeFromText_of_head (head?_ne_of_append hb)]

theorem Keeps.input (hq : c.burst.isActive = false) (key : Key)
    (hk : ∀ ch, key = .char ch → isAsciiControl ch = false) :
    Keeps now (w ++ key.text) (c.input key) := by
  have ht : (c.textarea.insertStr key.text).text = w ++ key.text := by
    rw [h.atEnd.insertStr_eq, h.quiet_text hq]
  have hi : c.input key = { c with textarea := c.textarea.insertStr key.text } := by
    cases key with
    | enter => rfl
    | char ch =>
      rw [Composer.input, hk ch rfl]
      rfl
  rw [hi]
  exact Keeps.of_quiet (h.atEnd.insertStr _) h.enabled ht hq

theorem Keeps.handleEnter (hc : cl ≤ now) (hp : c.burst.pendingFirstChar = none)
    (hbn : (w ++ ['\n']).head? ≠ some '!') : Keeps now (w ++ ['\n']) (c.handleEnter now) := by
  unfold Composer.handleEnter
  split
  case isTrue ha =>
    obtain ⟨l, hl, hle⟩ := h.timed ha.2
    have hb : c.burst.active = true := by
      by_contra hn
      rw [Bool.not_eq_true] at hn
      rw [isActive_eq_false.mpr ⟨hn, h.buffer_eq_nil hn, hp⟩] at ha
      cases ha.2
    rw [appendNewlineIfActive, if_pos ha.2]
    apply h.buffer
    · rw [held, hp]
      exact congrArg (· ++ ['\n']) (append_nil _).symm
    · exact hb
    · exact hp
    · exact ⟨l, hl, hle.trans hc⟩
  case isFalse hq =>
    rw [h.enabled] at hq
    have hq' : c.burst.isActive = false := by simpa using hq
    have hi : Keeps now (w ++ ['\n']) (c.input .enter) := h.input hq' .enter nofun
    exact hi.syncBashModeFromText hbn

theorem Keeps.note (hq : c.burst.isActive = false) (now : Instant) :
    Keeps cl w { c with burst := c.burst.notePlainChar now } :=
  Keeps.of_quiet h.atEnd h.enabled (h.quiet_text hq) hq

omit h

theorem byteLen_rdrop_le (t : Str) (h : n ≤ m) : byteLen (t.rdrop m) ≤ byteLen (t.rdrop n) := by
  obtain ⟨k, hk⟩ : t.rdrop m <+: t.rdrop n := take_prefix_take_left (by omega)
  rw [← hk, byteLen_append]
  exact le_add_right _ _

theorem held_grabbed {b : Burst} (hq : b.isActive = false) (g : Str) (ch : Char) (now : Instant) :
    held ((b.beginWithRetroGrabbed g now).appendCharToBuffer ch now) = g ++ [ch] := by
  obtain ⟨_, hb, hp⟩ := isActive_eq_false.mp hq
  simp [held, beginWithRetroGrabbed, appendCharToBuffer, extendWindow, hb, hp]

theorem Keeps.beginBuffer (h : Keeps cl w c) (hq : c.burst.isActive = false)
    (hl : ∃ l, c.burst.lastPlainCharTime = some l ∧ l ≤ now)
    (hf : Within (c.textarea.text.rdrop retroChars) c.textarea.elements)
    (hs : c.beginBuffer ch now retroChars = some c') : Keeps now (w ++ [ch]) c' := by
  obtain ⟨_, _, hpn⟩ := isActive_eq_false.mp hq
  have hc : Composer.clampToCharBoundary c.textarea.text c.textarea.cursorPos =
      byteLen c.textarea.text := by
    obtain ⟨_, hle, hge⟩ := floorCut_spec utf8_pos c.textarea.text (byteLen c.textarea.text)
    rw [Composer.clampToCharBoundary, h.atEnd.cursor, Nat.min_self]
    exact le_antisymm hle (hge _ (isCut_total _) le_rfl)
  have hb : before utf8 (byteLen c.textarea.text) c.textarea.text = c.textarea.text := by
    have hb := before_byteLen c.textarea.text []
    rwa [append_nil] at hb
  have hsplit : c.textarea.text.rdrop retroChars ++ c.textarea.text.rtake retroChars =
      c.textarea.text := take_append_drop _ _
  have hg : behind utf8 (retroStartIndex c.textarea.text retroChars) c.textarea.text =
      c.textarea.text.rtake retroChars := by
    have hb := behind_byteLen (c.textarea.text.rdrop retroChars) (c.textarea.text.rtake retroChars)
    rwa [hsplit] at hb
  simp only [Composer.beginBuffer, hc, hb, decideBeginBuffer, hg] at hs
  by_cases hp : ((c.textarea.text.rtake retroChars).any isWhitespace ||
      16 ≤ (c.textarea.text.rtake retroChars).length) = true
  · have hne : c.textarea.text.rtake retroChars ≠ [] := by
      intro hn
      rw [hn] at hp
      cases hp
    simp only [if_pos hp, if_neg hne, Option.some.injEq] at hs
    subst hs
    obtain ⟨ht, he⟩ := h.atEnd.replaceRange hsplit.symm hne hf
    refine ⟨he, h.enabled, ?_, fun _ => rfl, ?_, fun _ => hl⟩
    · rw [← h.quiet_text hq]
      conv_rhs => rw [← hsplit]
      rw [append_assoc, ← held_grabbed hq _ ch now]
      exact congrArg (· ++ _) ht
    · intro ch' heldAt hh
      rw [show c.burst.pendingFirstChar = some (ch', heldAt) from hh] at hpn
      cases hpn
  · simp only [if_neg hp] at hs
    cases hs

theorem Keeps.beginBuffer_noted (h : Keeps cl w c) (hq : c.burst.isActive = false)
    (hf : LooksBackSafely now c)
    (hc : pasteBurstMinChars ≤ (c.burst.notePlainChar now).consecutivePlainCharBurst)
    (hs : { c with burst := c.burst.notePlainChar now }.beginBuffer ch now
      ((c.burst.notePlainChar now).consecutivePlainCharBurst - 1) = some c') :
    Keeps now (w ++ [ch]) c' := by
  obtain ⟨l, hl, hsn, hle⟩ := notePlainChar_count hc
  refine (h.note hq now).beginBuffer hq ⟨now, rfl, le_refl now⟩ ?_ hs
  intro e hm
  exact (hf hq l hl hsn e hm).trans (byteLen_rdrop_le _ (by omega))

theorem flushBeforeModifiedInput_of_quiet (hq : c.burst.isActive = false) :
    c.flushBeforeModifiedInput env = c := by
  rw [Composer.flushBeforeModifiedInput, flushBeforeModifiedInput, hq]
  rfl

section

variable (h : Keeps cl w c)

include h

theorem Keeps.insertChar (hq : c.burst.isActive = false) (hp : isAsciiControl ch = false)
    (hb : (w ++ [ch]).head? ≠ some '!') : Keeps now (w ++ [ch]) (c.insertChar env ch) := by
  rw [Composer.insertChar, flushBeforeModifiedInput_of_quiet env hq]
  have hi : Keeps now (w ++ [ch]) (c.input (.char ch)) :=
    h.input hq (.char ch) fun o ho => by cases ho; exact hp
  exact hi.syncBashModeFromText hb

theorem Keeps.handleAsciiChar
    (hh : ∀ held a, c.burst.pendingFirstChar = some (held, a) → now - a ≤ pasteBurstCharInterval)
    (hfr : LooksBackSafely now c) (hpl : isAsciiControl ch = false)
    (hbn : (w ++ [ch]).head? ≠ some '!') :
    Keeps now (w ++ [ch]) (c.handleAsciiChar env ch now) := by
  cases ha : c.burst.active with
  | true =>
    simp only [Composer.handleAsciiChar, onPlainChar_of_active ha]
    have hp := h.pending_eq_none ha
    refine h.buffer ?_ ha hp ⟨now, rfl, le_refl now⟩
    rw [held, hp]
    exact congrArg (· ++ [ch]) (append_nil _).symm
  | false =>
    cases hp : c.burst.pendingFirstChar with
    | some pending =>
      obtain ⟨first, a⟩ := pending
      have hf : c.burst.heldAt now = some first := by
        rw [heldAt, hp]
        exact if_pos (hh first a hp)
      simp only [Composer.handleAsciiChar, onPlainChar_of_held ha hf]
      refine h.buffer ?_ rfl rfl ⟨now, rfl, le_refl now⟩
      rw [held, hp]
      rfl
    | none =>
      have hq := isActive_eq_false.mpr ⟨ha, h.buffer_eq_nil ha, hp⟩
      rw [Composer.handleAsciiChar, onPlainChar_of_quiet ha hp]
      by_cases hc : pasteBurstMinChars ≤ (c.burst.notePlainChar now).consecutivePlainCharBurst
      · rw [if_pos hc]
        dsimp only
        cases hb : { c with burst := c.burst.notePlainChar now }.beginBuffer ch now
            ((c.burst.notePlainChar now).consecutivePlainCharBurst - 1) with
        | some b => exact h.beginBuffer_noted hq hfr hc hb
        | none => exact (h.note hq now).insertChar env hq hpl hbn
      · rw [if_neg hc]
        refine ⟨h.atEnd, h.enabled, ?_, fun hne => absurd (h.buffer_eq_nil ha) hne, ?_,
          fun _ => ⟨now, rfl, le_refl now⟩⟩
        · change c.textarea.text ++ (c.burst.buffer ++ [ch]) = w ++ [ch]
          rw [h.buffer_eq_nil ha, h.quiet_text hq]
          rfl
        · intro o a ho
          cases ho
          exact ⟨ha, rfl, hpl⟩

theorem Keeps.flushBeforeModifiedInput (hi : c.burst.isActiveInternal = false)
    (hbn : w.head? ≠ some '!') :
    Keeps cl w (c.flushBeforeModifiedInput env) ∧
      (c.flushBeforeModifiedInput env).burst.isActive = false ∧
      ((c.flushBeforeModifiedInput env).burst.lastPlainCharTime = none ∨
        c.flushBeforeModifiedInput env = c) := by
  cases ha : c.burst.isActive with
  | false =>
    rw [flushBeforeModifiedInput_of_quiet env ha]
    exact ⟨h, ha, .inr rfl⟩
  | true =>
    obtain ⟨_, hb⟩ := isActiveInternal_eq_false.mp hi
    rw [isActive, hi, Bool.false_or, Option.isSome_iff_exists] at ha
    obtain ⟨⟨first, heldAt⟩, hp⟩ := ha
    obtain ⟨hn, _, hpl⟩ := h.pending first heldAt hp
    have hv : Verbatim env c [first] := by
      refine ⟨?_, le_add_left 1 999, fun hl => absurd hl.1 (lt_irrefl 1)⟩
      intro hcr
      rw [← mem_singleton.mp hcr] at hpl
      revert hpl
      decide
    have hw : c.textarea.text ++ [first] = w := by
      rw [← h.whole, held, hb, hp]
      rfl
    let q : Composer := { c with burst := { c.burst with
      active := false, buffer := [], pendingFirstChar := none } }
    have hf : c.flushBeforeModifiedInput env = q.handlePaste env [first] := by
      rw [Composer.flushBeforeModifiedInput, Burst.flushBeforeModifiedInput, Burst.isActive, hp, hb]
      simp [q]
    rw [← hw] at hbn
    obtain ⟨ht, hen, hbr, he⟩ := handlePaste_spec env (c := q) h.atEnd hv hbn
    rw [hf]
    have hq : (q.handlePaste env [first]).burst.isActive = false := rfl
    exact ⟨Keeps.of_quiet hen (he.trans h.enabled) (ht.trans hw) hq, hq, .inl rfl⟩

theorem Keeps.handleNonAsciiChar (hcl : cl ≤ now) (hf : LooksBackSafely now c)
    (hpl : isAsciiControl ch = false) (hbn : (w ++ [ch]).head? ≠ some '!') :
    Keeps now (w ++ [ch]) (c.handleNonAsciiChar env ch now) := by
  have hon := ne_true_of_eq_false h.enabled
  rw [Composer.handleNonAsciiChar, if_neg hon, tryAppendCharIfActive]
  cases hi : c.burst.isActiveInternal with
  | true =>
    have ha := h.active hi
    have hp := h.pending_eq_none ha
    have hsm : c.burst.isActive = true := by
      rw [isActive, hi]
      rfl
    obtain ⟨l, hl, hle⟩ := h.timed hsm
    refine h.buffer ?_ ha hp ⟨l, hl, hle.trans hcl⟩
    rw [held, hp]
    exact congrArg (· ++ [ch]) (append_nil _).symm
  | false =>
    dsimp only
    obtain ⟨hk, hq, hl⟩ := h.flushBeforeModifiedInput env hi (head?_ne_of_append hbn)
    have hf' : LooksBackSafely now (c.flushBeforeModifiedInput env) := by
      rcases hl with hnn | hs
      · intro _ l hl
        rw [hnn] at hl
        cases hl
      · rwa [hs]
    generalize c.flushBeforeModifiedInput env = flushed at hk hq hf'
    have hin : Keeps now (w ++ [ch])
        (({ flushed with burst := flushed.burst.notePlainChar now }.flushBeforeModifiedInput
          env).input (.char ch)).retainPendingPastes := by
      have hn : { flushed with burst := flushed.burst.notePlainChar now }.burst.isActive =
          false := hq
      rw [flushBeforeModifiedInput_of_quiet env hn]
      apply Keeps.retainPendingPastes
      refine (hk.note hq now).input hn (.char ch) fun o ho => ?_
      cases ho
      exact hpl
    rw [onPlainCharNoHold_of_quiet (isActive_eq_false.mp hq).1]
    by_cases hc : pasteBurstMinChars ≤ (flushed.burst.notePlainChar now).consecutivePlainCharBurst
    · rw [if_pos hc]
      dsimp only
      cases hb : { flushed with burst := flushed.burst.notePlainChar now }.beginBuffer ch now
          ((flushed.burst.notePlainChar now).consecutivePlainCharBurst - 1) with
      | some b => exact hk.beginBuffer_noted hq hf' hc hb
      | none => exact hin
    · rw [if_neg hc]
      exact hin

theorem Keeps.handleInputBasicWithTime (hc : cl ≤ now)
    (hv : ∀ p b, c.burst.flushIfDue env.windows now = (.paste p, b) → Verbatim env c p)
    (hpl : ∀ ch, key = .char ch → isAsciiControl ch = false)
    (hu : Undisturbed ⟨c, cl⟩ (.key now key)) (hb : (w ++ key.text).head? ≠ some '!') :
    Keeps now (w ++ key.text) (c.handleInputBasicWithTime env key now) := by
  obtain ⟨hk, hsm, hh⟩ := h.flush env hv (head?_ne_of_append hb)
  cases key with
  | enter =>
    apply hk.handleEnter hc _ hb
    cases hp : (c.handlePasteBurstFlush env now).burst.pendingFirstChar with
    | none => rfl
    | some pending =>
      obtain ⟨held, heldAt⟩ := pending
      have hs := hh held heldAt hp
      rw [hsm heldAt (hk.pending held heldAt hp).2.1 hs] at hp
      exact absurd hs (not_le.mpr (hu held heldAt hp))
  | char ch =>
    have hf : LooksBackSafely now (c.handlePasteBurstFlush env now) := by
      intro hq l hl hs
      have heq := hsm l hl hs
      rw [heq] at hq hl ⊢
      exact hu hq l hl hs
    have hon := ne_true_of_eq_false hk.enabled
    rw [Composer.handleInputBasicWithTime, if_neg hon]
    split
    · exact hk.handleNonAsciiChar env hc hf (hpl ch rfl) hb
    · exact hk.handleAsciiChar env hh hf (hpl ch rfl) hb

end

theorem Keeps.next (h : Keeps s.clock w s.composer) (he : Enabled env s e) (hu : Undisturbed s e)
    (hb : (w ++ e.text).head? ≠ some '!') :
    Keeps (next env s e).clock (w ++ e.text) (next env s e).composer := by
  obtain ⟨hc, hv, hp⟩ := he
  cases e with
  | tick now =>
    obtain ⟨hk, _⟩ := h.flush env hv (head?_ne_of_append hb)
    change Keeps now (w ++ []) (s.composer.handlePasteBurstFlush env now)
    rw [append_nil]
    refine { hk with timed := ?_ }
    intro ha
    obtain ⟨l, hl, hle⟩ := hk.timed ha
    exact ⟨l, hl, hle.trans hc⟩
  | key now key =>
    apply Keeps.syncPopups
    apply h.handleInputBasicWithTime env hc hv _ hu hb
    rintro ch rfl
    exact hp now ch rfl

theorem Keeps.run (h : Keeps s.clock w s.composer) (ha : (typing env).Allows Undisturbed events s)
    (hb : (w ++ typed events).head? ≠ some '!') :
    Keeps ((typing env).run events s).clock (w ++ typed events)
      ((typing env).run events s).composer := by
  induction events generalizing s w with
  | nil =>
    rw [typed, flatMap_nil, append_nil]
    exact h
  | cons event events ih =>
    obtain ⟨he, hu, hr⟩ := ha
    have ht : w ++ typed (event :: events) = w ++ event.text ++ typed events := by
      rw [append_assoc]
      rfl
    rw [ht] at hb ⊢
    exact ih (h.next env he hu (head?_ne_of_append hb)) hr hb

theorem timeout_le (windows : Bool) (b : Burst) :
    b.timeout windows ≤ pasteBurstActiveIdleTimeout windows := by
  unfold timeout
  split
  · exact le_refl _
  · cases windows <;> decide

theorem Keeps.flush_quiet (h : Keeps cl w c)
    (hlt : pasteBurstActiveIdleTimeout env.windows < now - cl) :
    (c.handlePasteBurstFlush env now).burst.isActive = false := by
  rcases c.burst.flushIfDue_cases env.windows now with
    ⟨_, _, hf⟩ | ⟨_, hi, ch, heldAt, _, hf⟩ | ⟨hf, hw⟩
  · simp only [Composer.handlePasteBurstFlush, hf]
    rfl
  · obtain ⟨ha, hb⟩ := isActiveInternal_eq_false.mp hi
    simp only [Composer.handlePasteBurstFlush, hf, Composer.insertStr,
      Composer.syncBashModeFromText]
    split <;> exact isActive_eq_false.mpr ⟨ha, hb, rfl⟩
  · simp only [Composer.handlePasteBurstFlush, hf]
    rcases hw with hn | ⟨hi, hp⟩
    · by_contra ha
      rw [Bool.not_eq_false] at ha
      obtain ⟨last, hl, hle⟩ := h.timed ha
      rw [timedOut, hl, Option.any_some, decide_eq_false_iff_not] at hn
      have ht := timeout_le env.windows c.burst
      have hs : now - cl ≤ now - last := Nat.sub_le_sub_left hle now
      exact hn (ht.trans_lt (hlt.trans_le hs))
    · obtain ⟨ha, hb⟩ := isActiveInternal_eq_false.mp hi
      exact isActive_eq_false.mpr ⟨ha, hb, hp⟩

end Steps

def emptySession : Session := ⟨⟨EditArea.new, Burst.new, false, false, true, [], 0⟩, 0⟩

def plainTerminal : Surroundings :=
  ⟨false, fun _ => false, fun c => c.textarea.elements, fun _ hwithin => hwithin⟩

def twoLines : List Event :=
  [.key 0 (.char 'h'), .key (fromMillis 1) (.char 'i'), .key (fromMillis 2) .enter,
    .key (fromMillis 3) (.char 'é')]

theorem Enabled.of_not_due (hc : s.clock ≤ event.now)
    (hd : (s.composer.burst.flushIfDue env.windows event.now).1 = .none)
    (hp : ∀ now ch, event = .key now (.char ch) → isAsciiControl ch = false) :
    Enabled env s event := by
  refine ⟨hc, fun p b hf => ?_, hp⟩
  rw [hf] at hd
  cases hd

def enterAtOnce : List Event := [.key 0 (.char 'a'), .key (fromMillis 1) .enter]

end ChatComposer
