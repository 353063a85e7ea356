import CodexTeams.PatchSimulation
import Mathlib.Algebra.BigOperators.Group.List.Basic
import Mathlib.Algebra.Order.Ring.Int

/-! What an unclean line costs. The surplus counts lines kept less characters of contexts and
targets; unclean lines push it up and no line brings it back. -/
namespace PatchDrift

open RustStr PatchParser StreamingPatchParser PatchLineMachine PatchSimulation List Cursor Option
open UpdateFileChunk

def textSize (text : Option Str) : ℤ := text.elim 0 fun t => t.length + 1

def chunkSurplus (chunk : UpdateFileChunk) : ℤ :=
  chunk.oldLines.length + chunk.newLines.length - textSize chunk.changeContext

def chunksSurplus (movePath : Option Str) (chunks : List UpdateFileChunk) : ℤ :=
  (chunks.map chunkSurplus).sum - textSize movePath

def hunkSurplus : Hunk → ℤ
  | .updateFile _ movePath chunks => chunksSurplus movePath chunks
  | _ => 0

variable (hunks : List Hunk)

def surplus : ℤ := (hunks.map hunkSurplus).sum

def drift (s : StreamingParserState) (c : Cursor) : ℤ := surplus s.hunks - surplus c.hunks

/-- The streaming parser is in the machine's mode, whatever data it has kept. -/
structure Follows (s : StreamingParserState) (c : Cursor) : Prop where
  mode : ∃ n, s.mode = modeOf n c
  fresh : ∀ done path movePath, c = .update done path movePath .header →
    ∃ path', s.hunks.getLast? = some (.updateFile path' none [])

theorem surplus_concat (hunk : Hunk) :
    surplus (hunks ++ [hunk]) = surplus hunks + hunkSurplus hunk := by
  simp [surplus]

theorem chunksSurplus_concat (movePath chunks chunk) : chunksSurplus movePath (chunks ++ [chunk]) =
      chunksSurplus movePath chunks + chunkSurplus chunk := by
  simp only [chunksSurplus, map_append, map_cons, map_nil, sum_append, sum_cons, sum_nil]
  omega

theorem chunkSurplus_empty (ctx : Option Str) : chunkSurplus (.empty ctx) = -textSize ctx := by
  simp [chunkSurplus, empty]

def lineWeight (line : Str) : ℤ := if line.head?.all (· == ' ') then 2 else 1

theorem lineWeight_pos (l : Str) : 0 < lineWeight l := by
  rw [lineWeight]
  split <;> decide

theorem pushLine_surplus (h : ch.pushLine l = some ch') :
    chunkSurplus ch' = chunkSurplus ch + lineWeight l := by
  cases l with
  | nil =>
    cases h
    simp [chunkSurplus, lineWeight]
    omega
  | cons c text =>
    rw [pushLine] at h
    split at h
    · next hc => cases h; simp [chunkSurplus, lineWeight, hc]; omega
    · next hc =>
      split at h
      · cases h; simp [chunkSurplus, lineWeight, hc]; omega
      · split at h
        · cases h; simp [chunkSurplus, lineWeight, hc]; omega
        · cases h

theorem surplus_openHunk (h : openHunk dn t = some c) : surplus c.hunks = surplus dn := by
  obtain ⟨p, ⟨-, rfl⟩ | ⟨-, rfl⟩ | ⟨-, rfl⟩⟩ := openHunk_eq_some.mp h
  all_goals simp [hunks, surplus_concat, hunkSurplus, Body.chunks, chunksSurplus, textSize]

theorem openHunk_rebase (dn' : List Hunk) (h : openHunk dn t = some c) :
    ∃ c', openHunk dn' t = some c' ∧ (∀ n, modeOf n c' = modeOf n c) ∧
      (∀ d p mp, c = .update d p mp .header →
        c'.hunks.getLast? = some (.updateFile p none [])) := by
  obtain ⟨p, ⟨rfl, rfl⟩ | ⟨rfl, rfl⟩ | ⟨rfl, rfl⟩⟩ := openHunk_eq_some.mp h
  · exact ⟨.add dn' p [], rfl, fun _ => rfl, by simp⟩
  · exact ⟨.delete dn' p, rfl, fun _ => rfl, by simp⟩
  · refine ⟨.update dn' p none .header, rfl, fun _ => rfl, ?_⟩
    intro d p' mp heq
    cases heq
    simp [hunks, Body.chunks]

theorem processLine_update_inv (hm : s.mode = .updateFile n)
    (handle : handleHunkHeadersAndEndPatch s ln (trimEnd l) = .ok none)
    (h : processLine s ln l = .ok s') :
    ∃ dn pt p cs r, s.hunks = dn ++ [.updateFile pt p cs] ∧ processChunkLine ln l p cs = .ok r ∧
      s' = ⟨.updateFile n, dn ++ [.updateFile pt r.1 r.2]⟩ := by
  simp only [processLine, hm, processUpdateLine, handle] at h
  split at h
  · next pt p cs hl =>
    obtain ⟨dn, hd⟩ := List.getLast?_eq_some_iff.mp hl
    rw [hd, dropLast_concat] at h
    split at h
    · cases h
    · next p' cs' hc =>
      cases h
      exact ⟨dn, pt, p, cs, _, hd, hc, rfl⟩
  · cases h

theorem openChunks_exists (mp : Option Str) (chunks : List UpdateFileChunk) :
    ∃ b ch, openChunks chunks = b ++ [ch] ∧
      chunksSurplus mp (b ++ [ch]) = chunksSurplus mp chunks := by
  rcases eq_nil_or_concat' chunks with rfl | ⟨b, ch, rfl⟩
  · exact ⟨[], .empty none, rfl, rfl⟩
  · exact ⟨b, ch, by simp [openChunks], rfl⟩

theorem plain_surplus (hs : l.head? ≠ some '*')
    (hat : l.head? ≠ some '@') (h : processChunkLine ln l movePath chunks = .ok r) :
    chunksSurplus r.1 r.2 = chunksSurplus movePath chunks + lineWeight l := by
  obtain ⟨b, chunk, ho, hsm⟩ := openChunks_exists movePath chunks
  have hpl := processChunkLine_plain ln movePath hs hat ho
  cases hp : chunk.pushLine l with
  | none => exact absurd h (hpl.2 hp r)
  | some chunk' =>
    rw [hpl.1 chunk' hp] at h
    cases h
    have hps := pushLine_surplus hp
    simp only [chunksSurplus_concat] at hsm ⊢
    omega

theorem eof_surplus (h : processChunkLine ln eofMarker movePath chunks = .ok r) :
    chunksSurplus r.1 r.2 = chunksSurplus movePath chunks := by
  have ht : trimEnd eofMarker = eofMarker := by decide
  have hm : eofMarker ≠ emptyChangeContextMarker ∧
      stripPrefix eofMarker changeContextMarker = none ∧
      startsWith eofMarker changeContextMarker = false ∧
      stripPrefix eofMarker moveToMarker = none := by decide
  simp only [processChunkLine, ht, hm, ite_self, false_or, Bool.false_eq_true,
    false_and, if_false, if_true] at h
  split at h
  · cases h
  · split at h
    · next chunk hl =>
      cases h
      obtain ⟨b, rfl⟩ := List.getLast?_eq_some_iff.mp hl
      simp [chunksSurplus_concat, chunkSurplus]
    · cases h
      rfl

theorem context_trimEnd (h : contextOf l = some ctx) :
    ∃ ctx', contextOf (trimEnd l) = some ctx' ∧ textSize ctx' ≤ textSize ctx ∧
      (trimEnd l = l ∨ textSize ctx' < textSize ctx) := by
  by_cases he : l = emptyChangeContextMarker
  · have ht : trimEnd l = l := by rw [he]; decide
    exact ⟨ctx, by rw [ht, h], Int.le_refl _, .inl ht⟩
  rw [contextOf, if_neg he] at h
  obtain ⟨text, htx, rfl⟩ := map_eq_some_iff.mp h
  have hl := stripPrefix_eq_some.mp htx
  by_cases hb : trimEnd text = []
  · have ht : trimEnd l = emptyChangeContextMarker := by
      rw [hl, trimEnd_append_blank (trimEnd_eq_nil.mp hb)]
      decide
    refine ⟨none, by rw [contextOf, if_pos ht], ?_, .inr ?_⟩
    · simp [textSize]
      omega
    · simp [textSize]
  · have ht : trimEnd l = changeContextMarker ++ trimEnd text := by
      rw [hl, trimEnd_append_of_ne _ hb]
    have hct : contextOf (trimEnd l) = some (some (trimEnd text)) := by
      have hne : trimEnd l ≠ emptyChangeContextMarker := by
        rw [ht]
        intro h
        have := congrArg List.length h
        simp [changeContextMarker, emptyChangeContextMarker] at this
      rw [contextOf, if_neg hne, ht, stripPrefix_append, map_some]
    by_cases hs : trimEnd text = text
    · rw [hs] at ht hct
      exact ⟨_, hct, Int.le_refl _, .inl (ht.trans hl.symm)⟩
    · have hlt := length_trimEnd_lt hs
      refine ⟨_, hct, ?_, .inr ?_⟩ <;> simp only [textSize, elim_some]
      · omega
      · omega

theorem move_inv (h : processChunkLine ln (moveToMarker ++ d) none [] = .ok r) :
    ∃ d', r = (some d', []) ∧ d'.length ≤ d.length ∧
      (trimEnd (moveToMarker ++ d) = moveToMarker ++ d ∨ d'.length < d.length) := by
  by_cases hb : trimEnd d = []
  · have hm : trimEnd (moveToMarker ++ d) = trimEnd moveToMarker := by
      rw [trimEnd_eq_nil] at hb
      exact trimEnd_append_blank hb
    have ho : openChunks [] = [] ++ [empty none] := rfl
    refine absurd h ((processChunkLine_push ln none ?_ ?_ ?_ ?_ ho).2 rfl r)
    all_goals
      rw [hm]
      decide
  · have ht := trimEnd_append_of_ne moveToMarker hb
    simp only [processChunkLine, ht, stripPrefix_append] at h
    cases h
    refine ⟨_, rfl, ?_⟩
    by_cases hs : trimEnd d = d
    · rw [hs] at ht ⊢
      exact ⟨Nat.le_refl _, .inl ht⟩
    · have := length_trimEnd_lt hs
      exact ⟨by omega, .inr this⟩

/-- The line kept the two together, or it was unclean and the streaming parser drifted. -/
structure Drifts (s s' : StreamingParserState) (c c' : Cursor) (line : Str) : Prop where
  follows : Follows s' c'
  le : drift s c ≤ drift s' c'
  clean : CleanLine (placeOf c) line ∨ drift s c < drift s' c'

section Lines

variable (h : processLine s ln l = .ok s')

include h

theorem handle_of_processLine (hf : Follows s c) (st : c.inUpdate → l.head? = some '*')
    (ho : openHunk s.hunks (trim l) = some c₁) : s' = stateOf ln c₁ := by
  obtain ⟨n, hm⟩ := hf.mode
  exact state_of_processLine hm (not_environmentId_of_opens ho)
    (fun hu => (trim_eq_trimEnd (st hu) star_not_whitespace).symm) (headerState_open ho) h

theorem drifts_header (hf : Follows s c) (cm : c.Complete) (st : c.inUpdate → l.head? = some '*')
    (os : openHunk c.hunks (trim l) = some c') : Drifts s s' c c' l := by
  obtain ⟨c₁, ho, hm, hfr⟩ := openHunk_rebase s.hunks os
  cases handle_of_processLine h hf st ho
  have hd : drift (stateOf ln c₁) c' = drift s c := by
    simp [drift, stateOf, surplus_openHunk os, surplus_openHunk ho]
  refine ⟨⟨⟨ln, hm ln⟩, ?_⟩, Int.le_of_eq hd.symm, .inl ?_⟩
  · intro dn pt p hup
    exact ⟨pt, hfr dn pt p hup⟩
  · have hb : c.inUpdate → CleanBetween l := by
      intro hu
      constructor
      · intro hn
        have := openHunk_head os
        rw [hn] at this
        cases this
      · intro hct
        obtain ⟨r, rfl⟩ := startsWith_iff.mp hct
        cases st hu
    cases c with
    | update dn pt p b =>
      cases b with
      | inside => exact .inr (hb rfl)
      | closed => exact hb rfl
      | _ => exact cm.elim
    | _ => trivial

theorem drifts_update (hf : Follows s (.update dn pt mp body))
    (hb : body' ≠ .header) (handle : handleHunkHeadersAndEndPatch s ln (trimEnd l) = .ok none)
    (gain : ℤ) (hmc : chunksSurplus mp' body'.chunks = chunksSurplus mp body.chunks + gain)
    (hs : ∀ pt₀ mp₀ cs r, s.hunks.getLast? = some (.updateFile pt₀ mp₀ cs) → processChunkLine ln l
      mp₀ cs = .ok r → chunksSurplus mp₀ cs + gain ≤ chunksSurplus r.1 r.2 ∧ (CleanLine (placeOf
      (.update dn pt mp body)) l ∨ chunksSurplus mp₀ cs + gain < chunksSurplus r.1 r.2)) :
    Drifts s s' (.update dn pt mp body) (.update dn pt mp' body') l := by
  obtain ⟨n, hmd⟩ := hf.mode
  obtain ⟨dn₀, pt₀, mp₀, cs, r, hh, hr, rfl⟩ := processLine_update_inv hmd handle h
  obtain ⟨hle, hc⟩ := hs pt₀ mp₀ cs r (by rw [hh]; simp) hr
  have hd : drift ⟨.updateFile n, dn₀ ++ [.updateFile pt₀ r.1 r.2]⟩
        (.update dn pt mp' body') - drift s (.update dn pt mp body) =
      chunksSurplus r.1 r.2 - (chunksSurplus mp₀ cs + gain) := by
    have hm : surplus (update dn pt mp' body').hunks -
        surplus (update dn pt mp body).hunks = gain := by
      simp only [hunks, surplus_concat, hunkSurplus]
      omega
    simp only [drift, hh, surplus_concat, hunkSurplus] at hm ⊢
    omega
  refine ⟨⟨⟨n, rfl⟩, ?_⟩, by omega, ?_⟩
  · intro d p m heq
    cases heq
    contradiction
  · rcases hc with hc | hlt
    · exact .inl hc
    · exact .inr (by omega)

theorem drifts_blank (hf : Follows s (.update done pt p body))
    (b : body.behind = some chunks) (bl : trim l = []) :
    Drifts s s' (.update done pt p body) (.update done pt p
      (if chunks.isEmpty then .unopened else .closed chunks)) l := by
  have hh := blank_head_ne bl
  refine drifts_update h hf ?_ (handle_of_head (trimEnd_head_ne hh.1)) 0 ?_ ?_
  · split <;> simp
  · rw [behind_eq_chunks b, Int.add_zero]
    split
    · next he => rw [isEmpty_iff.mp he]; rfl
    · rfl
  · intro pt₀ p₀ chunks₀ r hl hr
    have hs := plain_surplus hh.1 hh.2 hr
    have hp := lineWeight_pos l
    exact ⟨by omega, .inr (by omega)⟩

theorem drifts_context (hf : Follows s (.update done p mp body)) (b : body.behind = some chunks)
    (cn : contextOf l = some ctx) :
    Drifts s s' (.update done p mp body) (.update done p mp (.opened chunks (.empty ctx))) l := by
  have hat := contextOf_head cn
  have hst : l.head? ≠ some '*' := by simp [hat]
  obtain ⟨ctx', hct', hsz, hc⟩ := context_trimEnd cn
  refine drifts_update h hf nofun (handle_of_head (trimEnd_head_ne hst)) (-textSize ctx) ?_ ?_
  · rw [behind_eq_chunks b, Body.chunks, chunksSurplus_concat, chunkSurplus_empty]
  · intro p₀ mp₀ chunks₀ r hl hr
    have hs : Settled chunks₀ := by
      by_contra hns
      exact (processChunkLine_context ln mp₀ hct').2 hns r hr
    rw [(processChunkLine_context ln mp₀ hct').1 hs] at hr
    cases hr
    simp only [chunksSurplus_concat, chunkSurplus_empty]
    refine ⟨by omega, ?_⟩
    rcases hc with ht | hlt
    · exact .inl ((clean_context_iff b cn).mpr ht)
    · exact .inr (by omega)

theorem drifts_tagged (hf : Follows s (.update done pt p body))
    (t : body.target = some (chunks, chunk)) (push : chunk.pushLine l = some chunk')
    (nb : body.behind = some [] → trim l ≠ []) :
    Drifts s s' (.update done pt p body) (.update done pt p (.inside chunks chunk')) l := by
  have ht := tagged_of_push push
  have hh := tagged_head_ne ht
  refine drifts_update h hf nofun (handle_of_head (trimEnd_head_ne hh.1)) (lineWeight l) ?_ ?_
  · have htr : chunksSurplus p body.chunks = chunksSurplus p (chunks ++ [chunk]) := by
      cases body with
      | closed chunks =>
        cases chunks with
        | nil => cases t; rfl
        | cons => cases t
      | _ => cases t; rfl
    rw [htr, Body.chunks, chunksSurplus_concat, chunksSurplus_concat, pushLine_surplus push]
    omega
  · intro pt₀ p₀ chunks₀ r hl hr
    have hs := plain_surplus hh.1 hh.2 hr
    refine ⟨by omega, .inl ?_⟩
    have hc : startsWith l changeContextMarker → trimEnd l = l := by
      intro hc
      obtain ⟨r, rfl⟩ := startsWith_iff.mp hc
      contradiction
    have hm := not_move_of_head hh.1
    cases body with
    | header => exact (cleanLine_iff_between rfl hm (by simp)).mpr ⟨nb rfl, hc⟩
    | unopened => exact ⟨nb rfl, hc⟩
    | closed chunks =>
      cases chunks with
      | nil => exact ⟨nb rfl, hc⟩
      | cons => cases t
    | _ => exact .inl ht

end Lines

theorem drifts_eof (hf : Follows s (.update done p mp (.inside chunks chunk)))
    (h : processLine s ln eofMarker = .ok s') :
    Drifts s s' (.update done p mp (.inside chunks chunk))
      (.update done p mp (.closed (chunks ++ [{ chunk with isEndOfFile := true }])))
      eofMarker := by
  refine drifts_update h hf nofun (handle_eof s ln) 0 ?_ ?_
  · simp [Body.chunks, chunksSurplus_concat, chunkSurplus]
  · intro p₀ mp₀ chunks₀ r hl hr
    have hs := eof_surplus hr
    refine ⟨by omega, .inl (.inr ⟨by decide, fun hc => ?_⟩)⟩
    decide

theorem drifts_move (hs : mp = none) (hf : Follows s (.update done p mp .header))
    (h : processLine s ln (moveToMarker ++ d) = .ok s') :
    Drifts s s' (.update done p mp .header)
      (.update done p (some d) .unopened) (moveToMarker ++ d) := by
  subst hs
  refine drifts_update h hf nofun (handle_of_fourth s ln (trimEnd_move_fourth d))
    (-textSize (some d)) ?_ ?_
  · simp [Body.chunks, chunksSurplus, textSize]
  · intro p₀ mp₀ chunks₀ r hl hr
    obtain ⟨p', hfr⟩ := hf.fresh done p none rfl
    rw [hfr] at hl
    cases hl
    obtain ⟨d', rfl, hle, hc⟩ := move_inv hr
    simp only [chunksSurplus, textSize, elim_some, elim_none]
    refine ⟨by omega, ?_⟩
    rcases hc with ht | hlt
    · left
      exact ht
    · exact .inr (by omega)

theorem drifts_added (hf : Follows s (.add dn p contents))
    (h : processLine s ln ('+' :: text) = .ok s') :
    Drifts s s' (.add dn p contents) (.add dn p (contents ++ text ++ ['\n'])) ('+' :: text) := by
  obtain ⟨n, hm⟩ := hf.mode
  have ht : trim ('+' :: text) = trimEnd ('+' :: text) := trim_eq_trimEnd (c := '+') rfl (by decide)
  have handle : handleHunkHeadersAndEndPatch s ln (trim ('+' :: text)) = .ok none := by
    rw [ht]
    exact handle_of_head (trimEnd_head_ne (by simp))
  simp only [processLine, hm, modeOf, processAddLine, handle] at h
  split at h
  · next text' p₀ contents₀ _ hl =>
    cases h
    obtain ⟨dn₀, hdn⟩ := List.getLast?_eq_some_iff.mp hl
    have hd : drift ⟨.addFile, s.hunks.dropLast ++ [.addFile p₀ (contents₀ ++ text' ++ ['\n'])]⟩
        (.add dn p (contents ++ text ++ ['\n'])) = drift s (.add dn p contents) := by
      simp [drift, hdn, hunks, surplus_concat, hunkSurplus]
    refine ⟨⟨⟨n, rfl⟩, ?_⟩, Int.le_of_eq hd.symm, .inl trivial⟩
    intro d p' m heq
    cases heq
  · cases h

/-- No line of the machine brings a drifted streaming parser back. -/
theorem processLine_drifts (hs : Sound c) (hf : Follows s c) (hm : Moves c l c')
    (h : processLine s ln l = .ok s') : Drifts s s' c c' l := by
  cases hm with
  | header complete st os => exact drifts_header h hf complete st os
  | added => exact drifts_added hf h
  | move => exact drifts_move hs hf h
  | blank behind blank u => exact drifts_blank h hf behind blank
  | context behind context => exact drifts_context h hf behind context
  | tagged target push nb => exact drifts_tagged h hf target push nb
  | eof => exact drifts_eof hf h

theorem processLines_drifts (hs : Sound c₀) (hf : Follows s c₀) (hr : run c₀ ls = some c₁)
    (h : processLines s ln ls = .ok s') :
    Follows s' c₁ ∧ drift s c₀ ≤ drift s' c₁ ∧
      (CleanLines (placeOf c₀) ls ∨ drift s c₀ < drift s' c₁) := by
  induction ls generalizing c₀ s ln with
  | nil =>
    cases hr
    cases h
    exact ⟨hf, Int.le_refl _, .inl trivial⟩
  | cons l ls ih =>
    obtain ⟨c, hst, hr⟩ := bind_eq_some_iff.mp hr
    have hm := step_moves hst
    rw [processLines] at h
    split at h
    · cases h
    next s₁ hl =>
    have hd := processLine_drifts hs hf hm hl
    obtain ⟨hf', hle, hc⟩ := ih (hs.moves hm) hd.follows hr h
    have hle₁ := hd.le
    refine ⟨hf', by omega, ?_⟩
    rcases hd.clean with hc₁ | hlt
    · rcases hc with hc | hlt
      · left
        rw [← nextPlace_of_moves hm] at hc
        exact ⟨hc₁, hc⟩
      · exact .inr (by omega)
    · exact .inr (by omega)

end PatchDrift
