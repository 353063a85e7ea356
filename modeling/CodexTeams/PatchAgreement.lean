import CodexTeams.PatchDrift

/-! Where the two apply-patch parsers agree: on the streamable patches, and on no others, streaming
yields the batch parser's hunks under every cut into deltas. -/
namespace PatchAgreement

open RustStr PatchParser StreamingPatchParser PatchLineMachine PatchSimulation PatchDrift List
open Option

def hunkLines (patch : Str) : List Str := (lines (trim patch)).tail.dropLast

def bodyLines : List Str → List Str
  | [] => []
  | first :: rest =>
    if startsWith (trimStart first) environmentIdMarker then rest else first :: rest

@[mk_iff] structure Streamable (patch : Str) : Prop where
  leading : '\n' ∉ patch.takeWhile isWhitespace
  preamble : ∀ line ∈ (hunkLines patch).head?,
    startsWith (trimStart line) environmentIdMarker → startsWith line environmentIdMarker
  clean : CleanLines .outside (bodyLines (hunkLines patch))
  trailing : (bodyLines (hunkLines patch)).foldl nextPlace .outside ≠ .outside →
    (lines (trim patch)).getLast? = some endPatchMarker ∨
      '\n' ∉ (trimStart patch).rtakeWhile isWhitespace

instance decidableStreamable (patch : Str) : Decidable (Streamable patch) :=
  decidable_of_iff' _ (streamable_iff patch)

theorem processLines_append (s : StreamingParserState) (ln : ℕ) (a b : List Str) :
    processLines s ln (a ++ b) = match processLines s ln a with
      | .error e => .error e
      | .ok s' => processLines s' (ln + a.length) b := by
  induction a generalizing s ln with
  | nil => rfl
  | cons lin a ih =>
    rw [cons_append, processLines, processLines]
    cases processLine s (ln + 1) lin with
    | error e => rfl
    | ok s' =>
      simp only [ih, length_cons]
      rw [Nat.add_right_comm, Nat.add_assoc]

theorem pushDelta_eq (buf : Str) (s : StreamingParserState) (ln : ℕ) (t : Str) :
    match processLines s ln ((splitLines buf t).1.map stripCr) with
    | .error e => (pushDelta ⟨buf, s, ln⟩ t).2 = .error e
    | .ok s' => pushDelta ⟨buf, s, ln⟩ t =
        (⟨(splitLines buf t).2, s', ln + (splitLines buf t).1.length⟩, .ok s'.hunks) := by
  induction t generalizing buf s ln with
  | nil => rfl
  | cons c t ih =>
    rw [pushDelta, splitLines, pushChar]
    by_cases hc : c = '\n'
    · simp only [if_pos hc, map_cons, processLines]
      cases processLine s (ln + 1) (stripCr buf) with
      | error e => rfl
      | ok s₁ =>
        have hr := ih [] s₁ (ln + 1)
        simp only [length_cons]
        rw [← Nat.add_assoc, Nat.add_right_comm]
        exact hr
    · simp only [if_neg hc]
      exact ih (buf ++ [c]) s ln

def finishFrom (rest : Str) (s : StreamingParserState) (ln : ℕ) : Except ParseError (List Hunk) :=
  (finish ⟨rest, s, ln⟩).2

theorem stream_default (ds : List Str) : stream .default ds =
      match processLines ⟨.notStarted, []⟩ 0 ((splitLines [] ds.flatten).1.map stripCr) with
      | .error e => .error e
      | .ok s => finishFrom (splitLines [] ds.flatten).2 s
          (splitLines [] ds.flatten).1.length := by
  rw [stream_eq]
  have h := pushDelta_eq [] ⟨.notStarted, []⟩ 0 ds.flatten
  rw [Parser.default]
  cases hp : processLines ⟨.notStarted, []⟩ 0 ((splitLines [] ds.flatten).1.map stripCr) with
  | error e =>
    rw [hp] at h
    cases hd : pushDelta ⟨[], ⟨.notStarted, []⟩, 0⟩ ds.flatten with
    | mk p r =>
      rw [hd] at h
      cases h
      rfl
  | ok s =>
    rw [hp] at h
    rw [h, Nat.zero_add]
    rfl

structure Layout (patch first : Str) (mid : List Str) (last : Str) : Prop where
  split : splitLines [] (trim patch) = (first :: mid, last)
  begins : trim first = beginPatchMarker
  ends : trim last = endPatchMarker
  full : trimEnd last = last

theorem boundaries_inv (h : checkPatchBoundariesStrict ls = .ok r) :
    (∃ first, ls.head? = some first ∧ trim first = beginPatchMarker) ∧
      (∃ la, ls.getLast? = some la ∧ trim la = endPatchMarker) ∧ r.2 = ls.tail.dropLast := by
  rw [checkPatchBoundariesStrict, checkStartAndEndLinesStrict] at h
  cases hf : ls.head? with
  | none => simp [hf] at h
  | some first =>
    cases hl : ls.getLast? with
    | none =>
      simp only [hf, hl, map_some, map_none] at h
      split at h
      · cases h
      · next hok => split at hok <;> cases hok
    | some la =>
      simp only [hf, hl, map_some] at h
      by_cases hm : trim first = beginPatchMarker ∧ trim la = endPatchMarker
      · rw [if_pos hm] at h
        cases h
        exact ⟨⟨first, rfl, hm.1⟩, ⟨la, rfl, hm.2⟩, rfl⟩
      · rw [if_neg hm] at h
        split at h
        · cases h
        · next hok => split at hok <;> cases hok

theorem preamble_inv (h : parseEnvironmentIdPreamble ls = .ok (environmentId, rs, ln)) :
    rs = bodyLines ls := by
  cases ls with
  | nil => cases h; rfl
  | cons first ls =>
    rw [parseEnvironmentIdPreamble] at h
    rw [bodyLines]
    split at h
    · next hn =>
      cases h
      rw [if_neg]
      rw [startsWith_iff]
      rintro ⟨r, hr⟩
      exact stripPrefix_eq_none.mp hn r hr
    · next env he =>
      split at h
      · cases h
      · cases h
        rw [if_pos (startsWith_iff.mpr ⟨env, stripPrefix_eq_some.mp he⟩)]

theorem layout_of_boundaries (h : checkPatchBoundariesStrict (lines (trim pt)) = .ok r) :
    ∃ first mid la, Layout pt first mid la := by
  obtain ⟨⟨first, hf, hb⟩, ⟨la, hl, he⟩, -⟩ := boundaries_inv h
  rcases eq_nil_or_concat' (trim pt) with hn | ⟨q, c, hq⟩
  · rw [hn] at hf
    cases hf
  have hc : isWhitespace c = false := not_whitespace_of_trimEnd hq
  have hnl : '\n' ∉ [c] := by
    intro hmm
    rw [← mem_singleton.mp hmm] at hc
    revert hc
    decide
  have hs : splitLines [] (trim pt) = ((splitLines [] q).1, (splitLines [] q).2 ++ [c]) := by
    rw [hq, splitLines_append, splitLines_of_not_mem hnl, append_nil]
  have hln : lines (trim pt) = (splitLines [] q).1.map stripCr ++ [(splitLines [] q).2 ++ [c]] := by
    rw [lines, linesFrom_eq, hs, if_neg (by simp)]
  cases hr : (splitLines [] q).1 with rw [hln, hr] at hf hl
  | nil =>
    cases hf
    cases hl
    have hm := hb.symm.trans he
    cases hm
  | cons raw mid =>
    refine ⟨raw, mid, _, by rw [hs, hr], ?_, ?_, trimEnd_concat_of_not hc⟩
    · cases hf
      rwa [trim_stripCr] at hb
    · rw [List.getLast?_append] at hl
      cases hl
      exact he

theorem Layout.lines_eq (hl : Layout pt first mid la) :
    lines (trim pt) = stripCr first :: (mid.map stripCr ++ [la]) := by
  have hne : la ≠ [] := by
    rintro rfl
    have := hl.ends
    revert this
    decide
  rw [lines, linesFrom_eq, hl.split, if_neg hne]
  rfl

theorem Layout.hunkLines_eq (hl : Layout pt first mid la) :
    hunkLines pt = mid.map stripCr := by
  rw [hunkLines, hl.lines_eq, tail_cons, dropLast_concat]

/-- What strict acceptance says about a patch: its layout and the machine's run. -/
theorem accepted_inv (h : parsePatchText pt .strict = .ok ars) :
    (∃ first mid la, Layout pt first mid la) ∧
      ∃ c, run .started (bodyLines (hunkLines pt)) = some c ∧ c.hunks = ars.hunks ∧ c.Complete := by
  simp only [parsePatchText] at h
  split at h
  · cases h
  next pls ls hb =>
  split at h
  · cases h
  next ei rs ln he =>
  split at h
  · cases h
  next hunks hh =>
  cases h
  refine ⟨layout_of_boundaries hb, ?_⟩
  obtain ⟨-, -, hls⟩ := boundaries_inv hb
  rw [hunkLines, ← hls, ← preamble_inv he]
  exact run_of_parseHunks hh

section Ending

variable {s' : StreamingParserState}

theorem blank_ne_end (h : Blank li) : trim li ≠ endPatchMarker := by
  rw [trim_eq_nil.mpr h]
  decide

theorem processLines_ended (hm : s.mode = .endedPatch) : processLines s ln ls = .ok s := by
  induction ls generalizing ln with
  | nil => rfl
  | cons li ls ih =>
    simp only [processLines, processLine, hm]
    exact ih

theorem finishFrom_ended (hm : s.mode = .endedPatch) (hr : Blank rs) :
    finishFrom rs s ln = .ok s.hunks := by
  have he := blank_ne_end hr
  by_cases hn : rs = []
  · simp [finishFrom, finish, finishLine, hn, hm]
  · simp [finishFrom, finish, finishLine, he, processLine, hm]

theorem ends_not_environmentId (h : trim li = endPatchMarker) :
    isEnvironmentIdPreambleLine li = false := by
  by_contra he
  have hs := (trim_environmentId (trimStart_environmentId (by simpa using he))).2
  rw [h] at hs
  cases hs

theorem processLine_end (hs : Sound c) (cm : c.Complete) (h : trim li = endPatchMarker)
    (hb : c.inUpdate → trimEnd li = endPatchMarker) :
    processLine (stateOf n c) ln li = .ok ⟨.endedPatch, c.hunks⟩ := by
  rw [processLine_of_state rfl (ends_not_environmentId h) (fun hu => (hb hu).trans h.symm)
    (by rw [h]; rfl), ensure_of_complete hs cm]
  rfl

def endingFrom (s : StreamingParserState) (ln : ℕ) (last blank : Str) :
    Except ParseError (List Hunk) :=
  match processLines s ln ((splitLines last blank).1.map stripCr) with
  | .error e => .error e
  | .ok s' => finishFrom (splitLines last blank).2 s' (ln + (splitLines last blank).1.length)

/-- Where the blank tail has a newline, the end line is a line of its own, with blank lines
behind it. -/
theorem endingFrom_newline (he : trim la = endPatchMarker) (hb : Blank b) (hnl : '\n' ∈ b) :
    ∃ li ls r, trim li = endPatchMarker ∧ trimEnd li = trimEnd la ∧
      (∀ l ∈ ls, Blank l) ∧ Blank r ∧ ∀ s ln, endingFrom s ln la b =
        match processLines s ln (li :: ls) with
        | .error e => .error e
        | .ok s' => finishFrom r s' (ln + (ls.length + 1)) := by
  obtain ⟨u, v, rfl, hs⟩ := splitLines_of_mem hnl la
  have hu : Blank u := fun x hx => hb x (mem_append_left _ hx)
  have hv : Blank v := fun x hx => hb x (by simp [hx])
  have hvb := splitLines_blank (show Blank [] by simp [Blank]) hv
  refine ⟨stripCr (la ++ u), (splitLines [] v).1.map stripCr, (splitLines [] v).2, ?_, ?_, ?_,
    hvb.2, fun s ln => by rw [endingFrom, hs, length_map]; rfl⟩
  · rw [trim_stripCr, trim_append_blank hu, he]
  · rw [trimEnd_stripCr, trimEnd_append_blank hu]
  · intro l hl
    obtain ⟨l', hl', rfl⟩ := mem_map.mp hl
    rw [← trim_eq_nil, trim_stripCr, trim_eq_nil]
    exact hvb.1 l' hl'

theorem endingFrom_ok (hs : Sound c) (cm : c.Complete) (he : trim la = endPatchMarker)
    (hb : Blank b) (ht : c.inUpdate → la = endPatchMarker ∨ '\n' ∉ b) :
    endingFrom (stateOf n c) ln la b = .ok c.hunks := by
  by_cases hnl : '\n' ∈ b
  · obtain ⟨li, ls, r, hl, hle, -, hr, heq⟩ := endingFrom_newline he hb hnl
    have hbr : c.inUpdate → trimEnd li = endPatchMarker := by
      intro hu
      rcases ht hu with rfl | hno
      · rw [hle]
        decide
      · exact absurd hnl hno
    simp only [heq, processLines, processLine_end hs cm hl hbr]
    rw [processLines_ended rfl]
    exact finishFrom_ended rfl hr
  · have hf : trim (la ++ b) = endPatchMarker := by
      rw [trim_append_blank hb, he]
    have hne : la ++ b ≠ [] := by
      intro hn
      rw [hn] at hf
      cases hf
    rw [endingFrom, splitLines_of_not_mem hnl]
    simp only [map_nil, processLines, finishFrom, finish, finishLine, hne, hf, ensure_of_complete hs
      cm]
    rfl

theorem processLine_end_inv (hf : Follows s c) (he : trim li = endPatchMarker)
    (hb : c.inUpdate → trimEnd li = endPatchMarker) (h : processLine s ln li = .ok s') :
    s' = { s with mode := .endedPatch } := by
  obtain ⟨n, hm⟩ := hf.mode
  exact state_of_processLine hm (ends_not_environmentId he) (fun hu => (hb hu).trans he.symm)
    (by rw [he]; rfl) h

theorem update_stays (hm : s.mode = .updateFile n)
    (handle : handleHunkHeadersAndEndPatch s ln (trimEnd li) = .ok none)
    (h : processLine s ln li = .ok s') : s'.mode = .updateFile n := by
  obtain ⟨d, p, mp, chunks, r, -, -, rfl⟩ := processLine_update_inv hm handle h
  rfl

theorem handle_blank (hb : Blank li) :
    handleHunkHeadersAndEndPatch s ln (trimEnd li) = .ok none := by
  apply handle_of_head
  rw [trimEnd_eq_nil.mpr hb]
  simp

theorem update_stays_blank (hm : s.mode = .updateFile n) (hb : ∀ li ∈ ls, Blank li)
    (h : processLines s ln ls = .ok s') : s'.mode = .updateFile n := by
  induction ls generalizing s ln with
  | nil =>
    cases h
    exact hm
  | cons li ls ih =>
    rw [processLines] at h
    split at h
    · cases h
    next s₁ hln =>
    have hm₁ := update_stays hm (handle_blank (hb li mem_cons_self)) hln
    exact ih hm₁ (fun l hl => hb l (mem_cons_of_mem li hl)) h

theorem finishFrom_update (hm : s.mode = .updateFile n) (hr : Blank rs)
    (hunks : List Hunk) : finishFrom rs s ln ≠ .ok hunks := by
  have he := blank_ne_end hr
  by_cases hn : rs = []
  · simp [finishFrom, finish, finishLine, hn, hm]
  · intro h
    simp only [finishFrom, finish, finishLine, hn, he] at h
    split at h
    · cases h
    · next s' hl =>
      have hm' := update_stays hm (handle_blank hr) hl
      simp [hm'] at h

theorem finishFrom_end_inv (hen : trim rs = endPatchMarker) (h : finishFrom rs s ln = .ok hunks) :
    hunks = s.hunks := by
  have hne : rs ≠ [] := by
    rintro rfl
    cases hen
  simp only [finishFrom, finish, finishLine, hne, hen] at h
  cases he : ensureUpdateHunkIsNotEmpty s (ln + 1) endPatchMarker with rw [he] at h
  | error e => cases h
  | ok u =>
    cases h
    rfl

theorem endingFrom_inv (hf : Follows s c) (he : trim la = endPatchMarker) (hfl : trimEnd la = la)
    (hb : Blank b) (h : endingFrom s ln la b = .ok hunks) :
    hunks = s.hunks ∧ (c.inUpdate → la = endPatchMarker ∨ '\n' ∉ b) := by
  by_cases hnl : '\n' ∈ b
  · obtain ⟨li, ls, r, hl, hle, hls, hr, heq⟩ := endingFrom_newline he hb hnl
    rw [hfl] at hle
    rw [heq, processLines] at h
    cases hp : processLine s (ln + 1) li with rw [hp] at h
    | error e => cases h
    | ok s₁ =>
      simp only at h
      by_cases hbr : c.inUpdate → la = endPatchMarker
      · cases processLine_end_inv hf hl (fun hu => hle.trans (hbr hu)) hp
        rw [processLines_ended rfl] at h
        have hfn := h.symm.trans (finishFrom_ended (s := { s with mode := .endedPatch }) rfl hr)
        cases hfn
        exact ⟨rfl, fun hu => .inl (hbr hu)⟩
      · obtain ⟨hup, hne⟩ := Classical.not_imp.mp hbr
        exfalso
        obtain ⟨n, hm⟩ := hf.mode
        have hm' : s.mode = .updateFile n := by
          cases c with
          | update => exact hm
          | _ => cases hup
        have handle : handleHunkHeadersAndEndPatch s (ln + 1) (trimEnd li) = .ok none := by
          rw [hle]
          apply handle_of_head
          intro hst
          rw [trim_eq_trimEnd hst star_not_whitespace, hfl] at he
          exact hne he
        split at h
        · cases h
        · next s₂ hr' =>
          have hm₂ := update_stays_blank (update_stays hm' handle hp) hls hr'
          exact finishFrom_update hm₂ hr hunks h
  · refine ⟨?_, fun _ => .inr hnl⟩
    rw [endingFrom, splitLines_of_not_mem hnl] at h
    exact finishFrom_end_inv (by rw [trim_append_blank hb, he]) h

end Ending

section Session

variable {patch : Str}

def trailingBlank (patch : Str) : Str := (trimStart patch).rtakeWhile isWhitespace

theorem trailingBlank_blank (pt : Str) : Blank (trailingBlank pt) := fun _ h => mem_rtakeWhile_imp h

theorem patch_eq (pt : Str) : pt = pt.takeWhile isWhitespace ++ (trim pt ++ trailingBlank pt) := by
  have he : trim pt ++ trailingBlank pt = trimStart pt := rdropWhile_append_rtakeWhile
  rw [he]
  exact takeWhile_append_dropWhile.symm

theorem Layout.split_patch (hl : Layout pt f mid l) (hld : '\n' ∉ pt.takeWhile isWhitespace) :
    splitLines [] pt = ((pt.takeWhile isWhitespace ++ f) ::
        (mid ++ (splitLines l (trailingBlank pt)).1), (splitLines l (trailingBlank pt)).2) := by
  have hc : splitLines (pt.takeWhile isWhitespace) (trim pt) =
      ((pt.takeWhile isWhitespace ++ f) :: mid, l) := by
    have h := splitLines_prepend (pt.takeWhile isWhitespace) [] (trim pt)
    rw [append_nil, hl.split] at h
    exact h
  conv_lhs => rw [patch_eq pt]
  simp [splitLines_append, splitLines_of_not_mem hld, hc]

theorem Layout.stream_eq (hl : Layout pt f mid l) (hd : ds.flatten = pt)
    (hld : '\n' ∉ pt.takeWhile isWhitespace) :
    stream .default ds = match processLines ⟨.startedPatch, []⟩ 1 (mid.map stripCr) with
      | .error e => .error e
      | .ok s => endingFrom s (1 + mid.length) l (trailingBlank pt) := by
  have hf : trim (stripCr (pt.takeWhile isWhitespace ++ f)) = beginPatchMarker := by
    rw [trim_stripCr, trim_append_left_blank (fun _ h => mem_takeWhile_imp h), hl.begins]
  rw [stream_default, hd, hl.split_patch hld]
  simp only [map_cons, map_append, processLines, processLine, hf, if_true,
    processLines_append, length_map, length_cons, length_append]
  cases processLines ⟨.startedPatch, []⟩ (0 + 1) (mid.map stripCr) with
  | error e => rfl
  | ok s =>
    simp only [endingFrom]
    have hln : mid.length + (splitLines l (trailingBlank pt)).1.length + 1 =
        1 + mid.length + (splitLines l (trailingBlank pt)).1.length := by omega
    rw [hln]

theorem stream_leading (hd : ds.flatten = pt) (hld : '\n' ∈ pt.takeWhile isWhitespace)
    (hunks : List Hunk) : stream .default ds ≠ .ok hunks := by
  obtain ⟨u, v, hl, hs⟩ := splitLines_of_mem hld []
  have hb : Blank u := by
    intro x hx
    have hm : x ∈ pt.takeWhile isWhitespace := hl ▸ mem_append_left _ hx
    exact mem_takeWhile_imp hm
  have hne : trim (stripCr u) ≠ beginPatchMarker := by
    rw [trim_stripCr, trim_eq_nil.mpr hb]
    decide
  rw [stream_default, hd]
  conv in splitLines [] pt => rw [patch_eq pt]
  rw [splitLines_append, hs]
  simp [processLines, processLine, hne]

theorem processLines_body (ln : ℕ) (hp : ∀ lin ∈ ls.head?, startsWith (trimStart lin)
      environmentIdMarker → startsWith lin environmentIdMarker) :
    ∃ ln', processLines ⟨.startedPatch, []⟩ ln ls =
      processLines ⟨.startedPatch, []⟩ ln' (bodyLines ls) := by
  cases ls with
  | nil => exact ⟨ln, rfl⟩
  | cons lin ls =>
    rw [bodyLines]
    split
    · next he =>
      have he' : isEnvironmentIdPreambleLine lin = true := hp lin rfl he
      exact ⟨ln + 1, by simp [processLines, processLine, he']⟩
    · exact ⟨ln, rfl⟩

theorem preamble_of_ok (h : processLines ⟨.startedPatch, []⟩ ln ls = .ok s) : ∀ line ∈ ls.head?,
      startsWith (trimStart line) environmentIdMarker → startsWith line environmentIdMarker := by
  intro line hl hen
  obtain ⟨rest, rfl⟩ := List.head?_eq_some_iff.mp hl
  by_contra hr
  obtain ⟨hf, hs⟩ := trim_environmentId hen
  have handle : handleHunkHeadersAndEndPatch ⟨.startedPatch, []⟩ (ln + 1) (trim line) =
      .ok none := by
    apply handle_none
    · intro he
      rw [he] at hs
      cases hs
    · exact openHunk_none 'E' hf (by decide) _
  have hr' : isEnvironmentIdPreambleLine line = false := Bool.eq_false_iff.mpr hr
  simp [processLines, processLine, hr', processHeaderLine, handle] at h

theorem Streamable.stream_ok (hs : Streamable pt) (h : parsePatchText pt .strict = .ok ars)
    (hd : ds.flatten = pt) : stream .default ds = .ok ars.hunks := by
  obtain ⟨⟨f, mid, l, hl⟩, c, hr, hh, hc⟩ := accepted_inv h
  obtain ⟨ln', hb⟩ := processLines_body 1 hs.preamble
  obtain ⟨hsn, n', hln⟩ := clean_run (show Sound .started from trivial) hr hs.clean 0 ln'
  have ht : c.inUpdate → l = endPatchMarker ∨ '\n' ∉ trailingBlank pt := by
    intro hu
    rw [inUpdate_iff, ← foldl_nextPlace hr] at hu
    rcases hs.trailing hu with hls | hno
    · rw [hl.lines_eq, ← cons_append, List.getLast?_append, List.getLast?_singleton, some_or] at hls
      exact .inl (some.inj hls)
    · exact .inr hno
  rw [hl.stream_eq hd hs.leading, ← hl.hunkLines_eq, hb]
  rw [show stateOf 0 .started = ⟨.startedPatch, []⟩ from rfl] at hln
  rw [hln]
  simp only
  rw [endingFrom_ok hsn hc hl.ends (trailingBlank_blank pt) ht, hh]

theorem streamable_of_ok (h : parsePatchText pt .strict = .ok ars) (hd : ds.flatten = pt)
    (hok : stream .default ds = .ok ars.hunks) : Streamable pt := by
  obtain ⟨⟨f, mid, l, hl⟩, c, hr, hh, hcm⟩ := accepted_inv h
  have hld : '\n' ∉ pt.takeWhile isWhitespace := by
    intro hld
    exact stream_leading hd hld ars.hunks hok
  rw [hl.stream_eq hd hld] at hok
  split at hok
  · cases hok
  next s hln =>
  rw [← hl.hunkLines_eq] at hln
  have hp := preamble_of_ok hln
  obtain ⟨ln', hb⟩ := processLines_body 1 hp
  rw [hb] at hln
  have hs : Follows ⟨.startedPatch, []⟩ .started := ⟨⟨0, rfl⟩, nofun⟩
  obtain ⟨hf, hle, hc⟩ := processLines_drifts (show Sound .started from trivial) hs hr hln
  obtain ⟨hsm, ht⟩ := endingFrom_inv hf hl.ends hl.full (trailingBlank_blank pt) hok
  have hdr : drift s c = 0 := by
    rw [drift, ← hsm, hh, Int.sub_self]
  refine ⟨hld, hp, ?_, ?_⟩
  · rcases hc with hc | hlt
    · exact hc
    · rw [hdr] at hlt
      cases hlt
  · intro hu
    rw [show Place.outside = placeOf .started from rfl, foldl_nextPlace hr] at hu
    rcases ht (inUpdate_iff.mpr hu) with rfl | hno
    · left
      rw [hl.lines_eq, ← cons_append, List.getLast?_append, List.getLast?_singleton, some_or]
    · exact .inr hno

/-- On a patch that the batch parser accepts, streaming returns the same hunks under every
cut into deltas exactly when the patch is streamable. -/
theorem stream_agrees_iff_streamable {args : ApplyPatchArgs}
    (h : parsePatchText patch .strict = .ok args) :
    (∀ deltas : List Str, deltas.flatten = patch → stream .default deltas = .ok args.hunks) ↔
      Streamable patch := by
  constructor
  · intro ha
    have hd : [patch].flatten = patch := flatten_singleton
    exact streamable_of_ok h hd (ha [patch] hd)
  · intro hs deltas hd
    exact hs.stream_ok h hd

theorem stream_agrees_on_empty_change_line : stream .default ["*** Begin Pa",
        "tch\n*** Update File: a.txt\n@@\n-old\n\n+new\n*** End Patch\n"] =
      .ok [.updateFile "a.txt" none [⟨none, ["old", []], [[], "new"], false⟩]] := by
  have h : parsePatchText
      "*** Begin Patch\n*** Update File: a.txt\n@@\n-old\n\n+new\n*** End Patch\n" .strict =
      .ok ⟨"*** Begin Patch\n*** Update File: a.txt\n@@\n-old\n\n+new\n*** End Patch",
        [.updateFile "a.txt" none [⟨none, ["old", []], [[], "new"], false⟩]], none, none⟩ := by
    decide +kernel
  exact (stream_agrees_iff_streamable h).mpr (by decide +kernel) _ (by decide +kernel)

/-- The batch parser skips a blank line before the first chunk; streamed, it becomes a change. -/
theorem blank_line_streams_as_change : ∃ patch args, parsePatchText patch .strict = .ok args ∧
      args.hunks = [.updateFile "a.txt" none [⟨none, ["old"], ["new"], false⟩]] ∧
      stream .default [patch] = .ok [.updateFile "a.txt" none
        [⟨none, [[]], [[]], false⟩, ⟨none, ["old"], ["new"], false⟩]] := by
  refine ⟨"*** Begin Patch\n*** Update File: a.txt\n\n@@\n-old\n+new\n*** End Patch",
    ⟨"*** Begin Patch\n*** Update File: a.txt\n\n@@\n-old\n+new\n*** End Patch",
      [.updateFile "a.txt" none [⟨none, ["old"], ["new"], false⟩]],
      none, none⟩, ?_, rfl, ?_⟩
  · decide +kernel
  · decide +kernel

end Session

end PatchAgreement
