import CodexTeams.ComputeReplacements

/-! When the scheduled replacements do not conflict: no end-of-file chunk reaches back behind what
is scheduled, and no match and pure addition meet at a final empty line. -/
namespace ReplacementSafety

open RustStr PatchParser ListEdits ComputeReplacements List

variable (lines : List Str) (scheduled : List Replacement)

/-- A pure addition, when the file ends with an empty line that an earlier match covers. -/
def ClearAddition (new : List Str) : Prop :=
  lines.getLast? = some [] → ∀ s ∈ scheduled, s.oldLen ≠ 0 → s.stop = lines.length →
    s.oldLen = 1 ∧ ∀ line ∈ new, line = []

/-- A match, at the end of the file or from the search position on. -/
def ClearMatch (eof : Bool) (r : Replacement) : Prop :=
  if eof then ∀ s ∈ scheduled, s.stop ≤ lines.length - r.oldLen ∨ s.start = lines.length
  else lines.getLast? = some [] → r.stop = lines.length → 2 ≤ r.oldLen →
    ∀ s ∈ scheduled, s.oldLen = 0 → s.start ≠ lines.length - 1

/-- A chunk against the replacements scheduled before it; the index is where its search starts. -/
def ClearChunk (lineIndex : ℕ) (chunk : UpdateFileChunk) : Prop :=
  if chunk.oldLines.isEmpty then ClearAddition lines scheduled chunk.newLines
  else ∀ r ∈ locate lines lineIndex chunk, r.oldLen ≠ 0 →
    ClearMatch lines scheduled chunk.isEndOfFile r

variable (path : Str)

def ClearChunks : Progress → List UpdateFileChunk → Prop
  | _, [] => True
  | p, chunk :: rest =>
    (∀ i, seekContext lines path p.lineIndex chunk = .ok i →
      ClearChunk lines p.replacements i chunk) ∧
    ∀ p', scheduleChunk lines path p chunk = .ok p' → ClearChunks p' rest

instance decidableClearAddition (new : List Str) :
    Decidable (ClearAddition lines scheduled new) := by
  unfold ClearAddition
  infer_instance

instance decidableClearMatch (eof : Bool) (r : Replacement) :
    Decidable (ClearMatch lines scheduled eof r) := by
  unfold ClearMatch
  infer_instance

instance decidableClearChunk (i : ℕ) (chunk : UpdateFileChunk) :
    Decidable (ClearChunk lines scheduled i chunk) := by
  unfold ClearChunk
  infer_instance

instance decidableForallOk {ε α : Type} {x : Except ε α} {P : α → Prop} [DecidablePred P] :
    Decidable (∀ a, x = .ok a → P a) :=
  match x with
  | .ok a => decidable_of_iff (P a) ⟨fun h _ hb => Except.ok.inj hb ▸ h, fun h => h a rfl⟩
  | .error _ => isTrue nofun

def ClearChunks.decide :
    (p : Progress) → (chunks : List UpdateFileChunk) → Decidable (ClearChunks lines path p chunks)
  | _, [] => isTrue trivial
  | p, chunk :: rest =>
    have : DecidablePred fun p' => ClearChunks lines path p' rest :=
      fun p' => ClearChunks.decide p' rest
    inferInstanceAs (Decidable
      ((∀ i, seekContext lines path p.lineIndex chunk = .ok i →
          ClearChunk lines p.replacements i chunk) ∧
        ∀ p', scheduleChunk lines path p chunk = .ok p' → ClearChunks lines path p' rest))

instance decidableClearChunks (p : Progress) (chunks : List UpdateFileChunk) :
    Decidable (ClearChunks lines path p chunks) := ClearChunks.decide lines path p chunks

/-- The replacements lie in the file, do not conflict, and applying them keeps every new line
and every line outside them, in order. -/
structure NonConflicting (lines : List Str) (rs : List Replacement) : Prop where
  bounds : ∀ r ∈ rs, r.start + r.oldLen ≤ lines.length
  apart : rs.Pairwise Apart
  kept : ∃ out, applyReplacements lines rs = some out ∧ (splice lines 0 rs).Sublist out

section Pairs

variable {lns : List Str}

structure Overlays (lines : List Str) (a b : Replacement) : Prop where
  blank : lines.getLast? = some []
  single : a.oldLen = 1
  last : a.stop = lines.length
  insertion : b.oldLen = 0
  same : b.start = a.start

variable (lines : List Str)

section

variable (a b : Replacement)

def Ordered : Prop := Before a b ∨ Overlays lines a b

def ClearPair : Prop :=
  Before a b ∨ (Overlays lines a b ∧ ∀ line ∈ b.new, line = [])

/-- A relation along the sorted schedule, for two replacements in chunk order. -/
def Lift (Q : Replacement → Replacement → Prop) (a b : Replacement) : Prop :=
  if a.start ≤ b.start then Q a b else Q b a

/-- An insertion can share its start with an earlier replacement only at a final empty line. -/
def Tied : Prop :=
  a.start = b.start → a.oldLen ≠ 0 → b.oldLen = 0 → Overlays lines a b

end

theorem Overlays.apart (h : Overlays lns a b) : Apart a b := by
  refine ⟨fun i h₁ h₂ h₃ h₄ => ?_, fun h₁ => ?_, fun _ h₁ => ?_⟩
  · rw [Edit.stop, h.insertion] at h₄
    omega
  · have := h.single
    omega
  · have := h.same
    omega

theorem Apart.ordered (h : Apart a b) (hle : a.start ≤ b.start) (ht : Tied lns a b) :
    Ordered lns a b := by
  rcases h.before_or hle with hbf | ⟨hs, ha, hb⟩
  · exact .inl hbf
  · exact .inr (ht hs ha hb)

theorem insertionIdx_cases (lns : List Str) :
    (lns.getLast? = some [] ∧ insertionIdx lns + 1 = lns.length) ∨
      (lns.getLast? ≠ some [] ∧ insertionIdx lns = lns.length) := by
  by_cases h : lns.getLast? = some []
  · left
    have hne : lns ≠ [] := by
      rintro rfl
      cases h
    have := length_pos_of_ne_nil hne
    rw [insertionIdx, if_pos h]
    exact ⟨h, by omega⟩
  · right
    rw [insertionIdx, if_neg h]
    exact ⟨h, rfl⟩

variable {p : Progress} (hp : Placed lns p)

include hp

section

variable (hs : s ∈ p.replacements)

include hs

theorem tied_addition (new : List Str) : Tied lns s ⟨insertionIdx lns, 0, new⟩ := by
  intro hsm hne hz
  have hw := hp.within s hs
  rw [Edit.stop] at hw
  rcases insertionIdx_cases lns with ⟨hb, hi⟩ | ⟨-, hi⟩
  · refine ⟨hb, ?_, ?_, rfl, hsm.symm⟩ <;> simp only at hsm
    · omega
    · rw [Edit.stop]
      omega
  · simp only at hsm
    omega

theorem tied_located (hge : p.lineIndex ≤ i) (hr : Located lns i eof r) : Tied lns s r := by
  intro hsm hne hz
  have hst := hr.empty hz
  rcases hp.behind s hs with hb | ⟨hb, -⟩
  · rw [Edit.stop] at hb
    omega
  · exact absurd hb hne

theorem clear_addition (new : List Str) :
    Lift (ClearPair lns) s ⟨insertionIdx lns, 0, new⟩ ↔
      (lns.getLast? = some [] → s.oldLen ≠ 0 → s.stop = lns.length →
        s.oldLen = 1 ∧ ∀ l ∈ new, l = []) := by
  have hw := hp.within s hs
  have hst : s.stop = s.start + s.oldLen := rfl
  have ht := tied_addition hp hs new
  rcases insertionIdx_cases lns with ⟨hb, hi⟩ | ⟨hb, hi⟩
  · constructor
    · intro h _ hne hl
      rw [Lift] at h
      split at h
      · rcases h with h | ⟨h, hn⟩
        · rw [Before] at h
          simp only at h
          omega
        · exact ⟨h.single, hn⟩
      · next hlt =>
        simp only at hlt
        omega
    · intro h
      rw [Lift]
      by_cases hz : s.oldLen = 0
      · split
        · next hle => exact .inl (by rw [Before]; simp only at hle ⊢; omega)
        · next hlt => exact .inl (by rw [Before, Edit.stop]; simp only at hlt ⊢; omega)
      · by_cases hl : s.stop = lns.length
        · obtain ⟨ho, hn⟩ := h hb hz hl
          have hsm : s.start = insertionIdx lns := by omega
          rw [if_pos (le_of_eq hsm)]
          exact .inr ⟨ht hsm hz rfl, hn⟩
        · rw [if_pos (by simp only; omega)]
          exact .inl (by rw [Before]; simp only; omega)
  · constructor
    · exact fun _ h => absurd h hb
    · intro _
      rw [Lift, if_pos (by simp only; omega)]
      exact .inl (by rw [Before]; simp only; omega)

theorem lift_located_empty (hge : p.lineIndex ≤ i) (hr : Located lns i eof r) (hz : r.oldLen = 0) :
    Lift (ClearPair lns) s r := by
  have hst := hr.empty hz
  have hsp : s.stop = s.start + s.oldLen := rfl
  rw [Lift]
  rcases hp.behind s hs with hb | ⟨hb, -⟩
  · rw [if_pos (by omega)]
    exact .inl (by rw [Before]; omega)
  · split
    · exact .inl (by rw [Before]; omega)
    · exact .inl (by rw [Before, Edit.stop]; omega)

theorem clear_eof (hr : Located lns i true r) (hne : r.oldLen ≠ 0) :
    Lift (ClearPair lns) s r ↔ (s.stop ≤ lns.length - r.oldLen ∨ s.start = lns.length) := by
  have he := hr.atEnd rfl hne
  have hw := hp.within s hs
  have hrs : r.stop = r.start + r.oldLen := rfl
  have hst : s.stop = s.start + s.oldLen := rfl
  rw [Lift]
  constructor
  · intro h
    split at h
    · rcases h with h | ⟨h, -⟩
      · left
        rw [Before] at h
        omega
      · exact absurd h.insertion hne
    · next hlt =>
      rcases h with h | ⟨h, -⟩
      · right
        rw [Before] at h
        omega
      · have := h.same
        omega
  · rintro (h | h)
    · rw [if_pos (by omega)]
      exact .inl (by rw [Before]; omega)
    · rw [if_neg (by omega)]
      exact .inl (by rw [Before]; omega)

theorem clear_ahead (hge : p.lineIndex ≤ i) (hr : Located lns i false r) (hne : r.oldLen ≠ 0) :
    Lift (ClearPair lns) s r ↔ (lns.getLast? = some [] → r.stop = lns.length →
      2 ≤ r.oldLen → s.oldLen = 0 → s.start ≠ lns.length - 1) := by
  have ha := hr.ahead rfl
  have hrw := hr.within
  have hrs : r.stop = r.start + r.oldLen := rfl
  have hst : s.stop = s.start + s.oldLen := rfl
  rcases hp.behind s hs with hb | ⟨hz, hi⟩
  · refine iff_of_true ?_ fun _ _ _ _ => by omega
    rw [Lift, if_pos (by omega)]
    exact .inl (by rw [Before]; omega)
  · rcases insertionIdx_cases lns with ⟨hbl, hl⟩ | ⟨hbl, hl⟩
    · constructor
      · intro h _ hls ht _
        rw [Lift, if_neg (by omega)] at h
        rcases h with h | ⟨h, -⟩
        · rw [Before] at h
          omega
        · have := h.same
          omega
      · intro h
        rw [Lift]
        by_cases hle : s.start ≤ r.start
        · rw [if_pos hle]
          exact .inl (by rw [Before]; omega)
        · rw [if_neg hle]
          left
          by_contra hn
          rw [Before] at hn
          exact h hbl (by omega) (by omega) hz (by omega)
    · refine iff_of_true ?_ fun h => absurd h hbl
      rw [Lift, if_neg (by omega)]
      exact .inl (by rw [Before]; omega)

end

theorem clearChunk_iff (hge : p.lineIndex ≤ i) (hle : i ≤ lns.length)
    (hc : (c.oldLines.isEmpty = true ∧ r = ⟨insertionIdx lns, 0, c.newLines⟩) ∨
      (c.oldLines.isEmpty = false ∧ locate lns i c = some r)) :
    ClearChunk lns p.replacements i c ↔ ∀ s ∈ p.replacements, Lift (ClearPair lns) s r := by
  rw [ClearChunk]
  rcases hc with ⟨he, rfl⟩ | ⟨he, hlc⟩
  · rw [if_pos he, ClearAddition]
    constructor
    · intro h s hs
      exact (clear_addition hp hs _).mpr fun hb => h hb s hs
    · intro h hb s hs
      exact (clear_addition hp hs _).mp (h s hs) hb
  · have hr := locate_spec hle hlc
    rw [if_neg (by simp [he]), hlc]
    simp only [Option.mem_def, Option.some.injEq, forall_eq']
    by_cases hz : r.oldLen = 0
    · exact iff_of_true (absurd hz) fun s hs => lift_located_empty hp hs hge hr hz
    · cases hef : c.isEndOfFile with rw [hef] at hr
      | true =>
        constructor
        · intro h s hs
          exact (clear_eof hp hs hr hz).mpr (h hz s hs)
        · intro h _ s hs
          exact (clear_eof hp hs hr hz).mp (h s hs)
      | false =>
        constructor
        · intro h s hs
          refine (clear_ahead hp hs hge hr hz).mpr fun hb hl ht => ?_
          exact h hz hb hl ht s hs
        · intro h _ hb hl ht s hs
          exact (clear_ahead hp hs hge hr hz).mp (h s hs) hb hl ht

end Pairs

/-- Over a whole run: the chunks are clear exactly when every scheduled pair is. -/
theorem clearChunks_iff (hp : Placed ls p) (h : scheduleChunks ls pt p cs = .ok q) :
    (p.replacements.Pairwise (Lift (ClearPair ls)) ∧ ClearChunks ls pt p cs) ↔
      q.replacements.Pairwise (Lift (ClearPair ls)) := by
  induction cs generalizing p with
  | nil =>
    cases h
    exact and_iff_left trivial
  | cons chunk cs ih =>
    rw [scheduleChunks] at h
    split at h
    · cases h
    next p' hst =>
    have hrn := ih (hp.step hst) h
    obtain ⟨i, r, hct, hge, hle, hrs, hcs⟩ := scheduleChunk_cases hp hst
    have hc := clearChunk_iff (r := r) hp hge hle (by
      rcases hcs with ⟨he, hr, -⟩ | ⟨he, hr, -⟩
      · exact .inl ⟨he, hr⟩
      · exact .inr ⟨he, hr⟩)
    rw [← hrn, hrs, pairwise_append]
    constructor
    · rintro ⟨hpr, hch, hrt⟩
      refine ⟨⟨hpr, pairwise_singleton .., fun a ha b hb => ?_⟩, hrt p' hst⟩
      rw [mem_singleton.mp hb]
      exact hc.mp (hch i hct) a ha
    · rintro ⟨⟨hpr, -, hl⟩, hrt⟩
      refine ⟨hpr, fun j hj => ?_, fun q' hq' => ?_⟩
      · cases hct.symm.trans hj
        exact hc.mpr fun s hs => hl s hs r (mem_singleton_self r)
      · cases hst.symm.trans hq'
        exact hrt

theorem placed_tied (hp : Placed ls p) (ht : p.replacements.Pairwise (Tied ls))
    (h : scheduleChunks ls pt p cs = .ok q) : Placed ls q ∧ q.replacements.Pairwise (Tied ls) := by
  induction cs generalizing p with
  | nil =>
    cases h
    exact ⟨hp, ht⟩
  | cons chunk cs ih =>
    rw [scheduleChunks] at h
    split at h
    · cases h
    next p' hst =>
    obtain ⟨i, r, -, hge, hle, hrs, hc⟩ := scheduleChunk_cases hp hst
    refine ih (hp.step hst) ?_ h
    rw [hrs, pairwise_append]
    refine ⟨ht, pairwise_singleton .., fun s hs r' hr' => ?_⟩
    rw [mem_singleton.mp hr']
    rcases hc with ⟨-, rfl, -⟩ | ⟨-, hl, -⟩
    · exact tied_addition hp hs _
    · exact tied_located hp hs hge (locate_spec hle hl)

theorem overlay_split (hs : (b ++ a :: af).Pairwise (·.start ≤ ·.start))
    (hbn : ∀ r ∈ b ++ a :: af, r.stop ≤ ls.length) (ho : (b ++ a :: af).Pairwise (Ordered ls))
    (hbl : ls.getLast? = some []) (hsn : a.oldLen = 1) (hl : a.stop = ls.length) :
    ∃ fr ys zs, (∀ y, y ∈ ys ↔ ∃ e ∈ af, e.start = a.start ∧ y ∈ e.new) ∧
      applyEdits ls (b ++ a :: af) = fr ++ (a.new ++ (ys ++ [] :: zs).tail) ∧
      splice ls 0 (b ++ a :: af) = fr ++ (a.new ++ (ys ++ zs)) := by
  obtain ⟨l, rfl⟩ := List.getLast?_eq_some_iff.mp hbl
  rw [pairwise_append, pairwise_cons] at ho hs
  obtain ⟨hbf, ⟨ha, -⟩, hc⟩ := ho
  have hso : a.stop = a.start + a.oldLen := rfl
  rw [length_append, length_singleton] at hl
  have hb : ∀ e ∈ b, e.stop ≤ l.length := by
    intro e he
    rcases hc e he a mem_cons_self with h | h
    · rw [Before] at h
      omega
    · have := h.insertion
      omega
  have hsp : b.Pairwise Before := by
    refine hbf.imp_of_mem fun {e f} he _ hef => ?_
    rcases hef with h | h
    · exact h
    · have hle := hb e he
      have hen := h.last
      rw [length_append, length_singleton] at hen
      omega
  have hi : ∀ e ∈ af, e.oldLen = 0 ∧ l.length ≤ e.start ∧ e.start ≤ l.length + 1 := by
    intro e he
    have hw := hbn e (mem_append_right b (mem_cons_of_mem a he))
    rw [length_append, length_singleton, Edit.stop] at hw
    rcases ha e he with h | h
    · rw [Before] at h
      omega
    · have hz := h.insertion
      have hsm := h.same
      omega
  obtain ⟨ys, zs, hys, hap, hsl⟩ := overtaken hsp hb (by omega) hsn hs.2.1.2 hi
  refine ⟨_, ys, zs, fun y => ?_, hap, hsl⟩
  rw [hys]
  have hst : a.start = l.length := by omega
  rw [hst]

theorem kept_iff_blank (hsr : (b ++ a :: af).Pairwise (·.start ≤ ·.start))
    (hbn : ∀ r ∈ b ++ a :: af, r.stop ≤ ls.length) (ho : (b ++ a :: af).Pairwise (Ordered ls))
    (hb : ls.getLast? = some []) (hsn : a.oldLen = 1) (hls : a.stop = ls.length) :
    ((splice ls 0 (b ++ a :: af)).Sublist (applyEdits ls (b ++ a :: af)) ↔
        ∀ e ∈ af, e.start = a.start → ∀ l ∈ e.new, l = []) ∧
      ((∀ e ∈ af, e.start = a.start → ∀ l ∈ e.new, l = []) →
        applyEdits ls (b ++ a :: af) = splice ls 0 (b ++ a :: af)) := by
  obtain ⟨fr, ys, zs, hys, ha, hsp⟩ := overlay_split hsr hbn ho hb hsn hls
  have hal : (∀ y ∈ ys, y = []) ↔ ∀ e ∈ af, e.start = a.start → ∀ l ∈ e.new, l = [] := by
    constructor
    · intro h e he hs l hl
      exact h l ((hys l).mpr ⟨e, he, hs, hl⟩)
    · intro h y hy
      obtain ⟨e, he, hs, hl⟩ := (hys y).mp hy
      exact h e he hs y hl
  rw [ha, hsp, ← hal]
  constructor
  · constructor
    · intro hsb
      have hln : (fr ++ (a.new ++ (ys ++ zs))).length =
          (fr ++ (a.new ++ (ys ++ [] :: zs).tail)).length := by
        simp only [length_append, length_tail, length_cons]
        omega
      have heq := hsb.eq_of_length hln
      rw [append_cancel_left_eq, append_cancel_left_eq] at heq
      exact shift_eq_self.mp heq.symm
    · intro h
      rw [shift_eq_self.mpr h]
  · intro h
    rw [shift_eq_self.mpr h]

theorem exists_split_of_sublist (h : [a, b].Sublist rs) :
    ∃ bf after, rs = bf ++ a :: after ∧ b ∈ after := by
  obtain ⟨r₁, r₂, rfl, ha, hb⟩ := cons_sublist_iff.mp h
  obtain ⟨bf, mid, rfl⟩ := append_of_mem ha
  refine ⟨bf, mid ++ r₂, by simp, mem_append_right _ ?_⟩
  exact singleton_sublist.mp hb

/-- The sorted schedule: no conflict and nothing lost exactly when every pair is clear, and
then the result is the splice. -/
theorem sorted_safe_iff (hsr : rs.Pairwise (·.start ≤ ·.start))
    (hbn : ∀ r ∈ rs, r.stop ≤ ls.length) (hor : rs.Pairwise (Ordered ls)) :
    ((splice ls 0 rs).Sublist (applyEdits ls rs) ↔ rs.Pairwise (ClearPair ls)) ∧
      (rs.Pairwise (ClearPair ls) → applyEdits ls rs = splice ls 0 rs) := by
  have hex : rs.Pairwise (ClearPair ls) → applyEdits ls rs = splice ls 0 rs := by
    intro hc
    by_cases hs : rs.Pairwise Before
    · rw [applyEdits_eq_splice hs hbn 0 (by simp), take_zero, nil_append]
    · simp only [pairwise_iff_forall_sublist, not_forall] at hs
      obtain ⟨a, b, hsb, hn⟩ := hs
      obtain ⟨bf, after, rfl, hb⟩ := exists_split_of_sublist hsb
      have ho := ((pairwise_iff_forall_sublist.mp hc hsb).resolve_left hn).1
      refine (kept_iff_blank hsr hbn hor ho.blank ho.single ho.last).2 ?_
      intro e he hsm
      have hcl := (pairwise_cons.mp (pairwise_append.mp hc).2.1).1 e he
      rcases hcl with h | h
      · have hon := ho.single
        rw [Before, Edit.stop] at h
        omega
      · exact h.2
  refine ⟨⟨fun hsb => ?_, fun hc => ?_⟩, hex⟩
  · rw [pairwise_iff_forall_sublist]
    intro a b hab
    rcases pairwise_iff_forall_sublist.mp hor hab with h | h
    · exact .inl h
    · right
      refine ⟨h, ?_⟩
      obtain ⟨bf, after, rfl, hb⟩ := exists_split_of_sublist hab
      exact (kept_iff_blank hsr hbn hor h.blank h.single h.last).1.mp hsb b hb h.same
  · rw [hex hc]

section Main

variable {lines : List Str} {path : Str} {chunks : List UpdateFileChunk} {rs : List Replacement}

theorem ordered_iff_apart (hs : rs.Pairwise (·.start ≤ ·.start))
    (htd : rs.Pairwise (Tied lns)) : rs.Pairwise (Ordered lns) ↔ rs.Pairwise Apart := by
  constructor
  · intro h
    refine h.imp fun {a b} hab => ?_
    rcases hab with hab | hab
    · exact hab.apart
    · exact hab.apart
  · intro h
    have hal := (h.and (hs.and htd))
    exact hal.imp fun ⟨ha, hle, ht⟩ => Apart.ordered ha hle ht

/-- Replacements are non-conflicting exactly when every chunk is clear of the ones before it;
then applying them gives exactly the spliced file. -/
theorem nonConflicting_iff_clearChunks (h : computeReplacements lines path chunks = .ok rs) :
    (NonConflicting lines rs ↔ ClearChunks lines path ⟨[], 0⟩ chunks) ∧
      (ClearChunks lines path ⟨[], 0⟩ chunks →
        applyReplacements lines rs = some (splice lines 0 rs)) := by
  rw [computeReplacements] at h
  split at h
  · cases h
  next q hq =>
  cases h
  obtain ⟨hp, ht⟩ := placed_tied (Placed.start lines) List.Pairwise.nil hq
  have hs := sortByStart_sorted q.replacements
  have hb : ∀ r ∈ sortByStart q.replacements, r.stop ≤ lines.length := fun r hr =>
    hp.within r ((sortByStart_perm _).mem_iff.mp hr)
  have ht' : (sortByStart q.replacements).Pairwise (Tied lines) := by
    rw [pairwise_sortByStart]
    refine ht.imp fun {a b} hab => ?_
    split
    · exact hab
    · exact fun hsm => by omega
  have ha : applyReplacements lines (sortByStart q.replacements) =
      some (applyEdits lines (sortByStart q.replacements)) :=
    applyReplacements_eq hs fun r hr =>
      le_trans (Nat.le_add_right _ _) (hb r hr)
  have hcl : ClearChunks lines path ⟨[], 0⟩ chunks ↔
      (sortByStart q.replacements).Pairwise (ClearPair lines) := by
    rw [pairwise_sortByStart]
    have hrn := clearChunks_iff (Placed.start lines) hq
    exact ⟨fun hc => hrn.mp ⟨List.Pairwise.nil, hc⟩, fun hc => (hrn.mpr hc).2⟩
  have ho : (sortByStart q.replacements).Pairwise (ClearPair lines) →
      (sortByStart q.replacements).Pairwise (Ordered lines) := fun hc =>
    hc.imp fun {a b} hab => hab.imp_right And.left
  rw [hcl]
  refine ⟨⟨fun hsf => ?_, fun hc => ?_⟩, fun hc => ?_⟩
  · obtain ⟨out, hot, hsb⟩ := hsf.kept
    cases ha.symm.trans hot
    have hor := (ordered_iff_apart hs ht').mpr hsf.apart
    exact (sorted_safe_iff hs hb hor).1.mp hsb
  · have hor := ho hc
    exact ⟨hb, (ordered_iff_apart hs ht').mp hor, _, ha, (sorted_safe_iff hs hb hor).1.mpr hc⟩
  · rw [ha, (sorted_safe_iff hs hb (ho hc)).2 hc]

theorem separate_chunks_spliced : applyReplacements ["a", "b", "c"] [⟨0, 1, ["x"]⟩, ⟨2, 1, ["y"]⟩] =
      some ["x".toList, "b".toList, "y".toList] := by
  have h : computeReplacements ["a", "b", "c"] "f"
      [⟨none, ["a"], ["x"], false⟩, ⟨none, ["c"], ["y"], true⟩] =
      .ok [⟨0, 1, ["x"]⟩, ⟨2, 1, ["y"]⟩] := by
    decide +kernel
  exact (nonConflicting_iff_clearChunks h).2 (by decide +kernel)

/-- An end-of-file chunk that matches lines an earlier chunk has replaced already. -/
theorem eof_chunk_reaches_back : ∃ rs, computeReplacements ["a", "b"] "f"
        [⟨none, ["a", "b"], ["x"], false⟩, ⟨none, ["b"], ["y"], true⟩] = .ok rs ∧
      ¬NonConflicting ["a", "b"] rs ∧
      applyReplacements ["a".toList, "b".toList] rs = some ["x".toList] := by
  refine ⟨[⟨0, 2, ["x"]⟩, ⟨1, 1, ["y"]⟩], by decide +kernel, fun hs => ?_, by decide +kernel⟩
  have ha := rel_of_pairwise_cons hs.apart (mem_singleton_self _)
  exact ha.windows 1 (by decide) (by decide) (by decide) (by decide)

end Main

end ReplacementSafety
