import CodexTeams.StreamingPatchParser
import CodexTeams.PatchLineMachine

/-! The streaming parser against the line machine. The two read a line alike when it is clean. -/
namespace PatchSimulation

open RustStr PatchParser StreamingPatchParser PatchLineMachine List

def modeOf (hunkLineNumber : ℕ) : Cursor → StreamingParserMode
  | .started => .startedPatch
  | .add .. => .addFile
  | .delete .. => .deleteFile
  | .update .. => .updateFile hunkLineNumber

def stateOf (hunkLineNumber : ℕ) (c : Cursor) : StreamingParserState :=
  ⟨modeOf hunkLineNumber c, c.hunks⟩

def Settled (chunks : List UpdateFileChunk) : Prop := chunks.getLast?.any hasNoLines = false

def Sound : Cursor → Prop
  | .update _ _ movePath .header => movePath = none
  | .update _ _ _ (.inside _ chunk) => hasNoLines chunk = false
  | .update _ _ _ (.closed chunks) => chunks ≠ [] ∧ Settled chunks
  | _ => True

/-- A line between chunks: not blank, and a context without trailing whitespace. -/
def CleanBetween (line : Str) : Prop :=
  trim line ≠ [] ∧ (startsWith line changeContextMarker → trimEnd line = line)

/-- Where a hunk line stands: outside update hunks, right after an update header, between
chunks, or in a chunk. -/
inductive Place where
  | outside
  | header
  | between
  | chunk
  deriving DecidableEq, Repr

variable (line : Str)

def afterHeader : Place :=
  if startsWith (trim line) updateFileMarker then .header else .outside

def afterBetween : Place :=
  if trim line = [] then .between
  else if line.head? = some '*' then afterHeader line
  else .chunk

def nextPlace : Place → Str → Place
  | .outside, line => afterHeader line
  | .header, line => if startsWith line moveToMarker then .between else afterBetween line
  | .between, line => afterBetween line
  | .chunk, line =>
    if line = eofMarker then .between else if tagged line then .chunk else afterBetween line

/-- The lines both parsers read alike, by where they stand. -/
def CleanLine : Place → Str → Prop
  | .outside, _ => True
  | .header, line =>
    if startsWith line moveToMarker then trimEnd line = line else CleanBetween line
  | .between, line => CleanBetween line
  | .chunk, line => tagged line ∨ CleanBetween line

def CleanLines : Place → List Str → Prop
  | _, [] => True
  | place, line :: rest => CleanLine place line ∧ CleanLines (nextPlace place line) rest

instance decidableCleanBetween : Decidable (CleanBetween line) :=
  inferInstanceAs (Decidable (_ ∧ _))

instance decidableCleanLine (place : Place) (line : Str) : Decidable (CleanLine place line) := by
  cases place <;> unfold CleanLine <;> infer_instance

def CleanLines.decide : (place : Place) → (ls : List Str) → Decidable (CleanLines place ls)
  | _, [] => isTrue trivial
  | place, line :: rest =>
    have := CleanLines.decide (nextPlace place line) rest
    inferInstanceAs (Decidable (CleanLine place line ∧ CleanLines (nextPlace place line) rest))

instance decidableCleanLines (place : Place) (ls : List Str) : Decidable (CleanLines place ls) :=
  CleanLines.decide place ls

def placeOf : Cursor → Place
  | .update _ _ _ .header => .header
  | .update _ _ _ .unopened | .update _ _ _ (.closed _) => .between
  | .update _ _ _ (.opened ..) | .update _ _ _ (.inside ..) => .chunk
  | .started | .add .. | .delete .. => .outside

/-- The lines a parser meets when no line is left over. -/
def processLines : StreamingParserState → ℕ → List Str → Except ParseError StreamingParserState
  | s, _, [] => .ok s
  | s, ln, line :: rest =>
    match processLine s (ln + 1) line with
    | .error e => .error e
    | .ok s' => processLines s' (ln + 1) rest

theorem star_not_whitespace : isWhitespace '*' = false := by decide

theorem openHunk_none (ch : Char) (hf : t[4]? = some ch) (hne : ch ∉ ['A', 'D', 'U'])
    (done : List Hunk) : openHunk done t = none := by
  rw [Option.eq_none_iff_forall_ne_some]
  intro c hc
  obtain ⟨p, ⟨rfl, -⟩ | ⟨rfl, -⟩ | ⟨rfl, -⟩⟩ := openHunk_eq_some.mp hc
  all_goals
    cases hf
    exact hne (by decide)

theorem openHunk_head (h : openHunk done t = some c) : t.head? = some '*' := by
  obtain ⟨p, ⟨rfl, -⟩ | ⟨rfl, -⟩ | ⟨rfl, -⟩⟩ := openHunk_eq_some.mp h <;> rfl

theorem headerState_eq (s : StreamingParserState) (ln : ℕ) (t : Str) : headerState s ln t =
      if t = endPatchMarker then some { s with mode := .endedPatch }
      else (openHunk s.hunks t).map (stateOf ln) := by
  rw [headerState, openHunk]
  split
  · rfl
  · cases stripPrefix t addFileMarker with
    | some pt => rfl
    | none =>
      cases stripPrefix t deleteFileMarker with
      | some pt => rfl
      | none => cases stripPrefix t updateFileMarker <;> rfl

theorem handle_none (he : t ≠ endPatchMarker)
    (ho : openHunk s.hunks t = none) : handleHunkHeadersAndEndPatch s ln t = .ok none := by
  rw [handleHunkHeadersAndEndPatch, headerState_eq, if_neg he, ho]
  rfl

theorem handle_of_head (h : t.head? ≠ some '*') :
    handleHunkHeadersAndEndPatch s ln t = .ok none := by
  apply handle_none
  · rintro rfl
    exact h rfl
  · rw [Option.eq_none_iff_forall_ne_some]
    exact fun c hc => h (openHunk_head hc)

theorem headerState_open (ho : openHunk s.hunks t = some c) :
    headerState s ln t = some (stateOf ln c) := by
  rw [headerState_eq, if_neg, ho]
  · rfl
  · rintro rfl
    cases ho

theorem trim_environmentId (h : startsWith (trimStart l) environmentIdMarker) :
    (trim l)[4]? = some 'E' ∧ (trim l)[6]? = some 'v' := by
  obtain ⟨r, hr⟩ := startsWith_iff.mp h
  have hs : environmentIdMarker = "*** En" ++ ['v'] ++ "ironment ID: " := by
    decide
  rw [trim, hr, hs, append_assoc, trimEnd_append_of_not _ _ (by decide)]
  constructor <;> rw [getElem?_append_left (by decide)]
  · decide
  · decide

theorem trimStart_environmentId (h : isEnvironmentIdPreambleLine l = true) :
    startsWith (trimStart l) environmentIdMarker := by
  obtain ⟨r, rfl⟩ := startsWith_iff.mp h
  exact h

theorem not_environmentId_of_opens (h : openHunk done (trim l) = some c) :
    isEnvironmentIdPreambleLine l = false := by
  by_contra he
  have hf := (trim_environmentId (trimStart_environmentId (by simpa using he))).1
  rw [openHunk_none 'E' hf (by decide)] at h
  cases h

theorem handle_of_fourth (s : StreamingParserState) (ln : ℕ)
    (hf : t[4]? = some 'M') : handleHunkHeadersAndEndPatch s ln t = .ok none := by
  apply handle_none
  · rintro rfl
    revert hf
    decide
  · exact openHunk_none 'M' hf (by decide) _

theorem trimEnd_move_fourth (d : Str) : (trimEnd (moveToMarker ++ d))[4]? = some 'M' := by
  have hs : moveToMarker = "*** " ++ ['M'] ++ "ove to: " := by decide
  rw [hs, append_assoc, trimEnd_append_of_not _ _ (by decide), getElem?_append_left (by decide)]
  decide

theorem handle_eof (s : StreamingParserState) (ln : ℕ) :
    handleHunkHeadersAndEndPatch s ln eofMarker = .ok none :=
  handle_none (by decide) (openHunk_none 'E' rfl (by decide) _)

theorem trimEnd_head_ne (h : l.head? ≠ some '*') : (trimEnd l).head? ≠ some '*' :=
  fun hc => h (head?_of_trimEnd hc)

theorem tagged_head (h : tagged l = true) (hc : l.head? = some c) :
    c = ' ' ∨ c = '+' ∨ c = '-' := by
  rw [tagged, hc] at h
  simpa [or_assoc] using h

theorem contextOf_head (h : contextOf l = some ctx) : l.head? = some '@' := by
  rw [contextOf] at h
  split at h
  · next he => rw [he]; rfl
  · obtain ⟨cn, hc, -⟩ := Option.map_eq_some_iff.mp h
    rw [stripPrefix_eq_some.mp hc]
    rfl

section Update

variable {ch : UpdateFileChunk}

theorem settled_concat : Settled (cs ++ [ch]) ↔ hasNoLines ch = false := by
  simp [Settled]

theorem pushLine_hasLines (h : ch.pushLine l = some ch') : hasNoLines ch' = false := by
  cases l with
  | nil => cases h; simp [hasNoLines]
  | cons c text =>
    rw [UpdateFileChunk.pushLine] at h
    split at h
    · cases h; simp [hasNoLines]
    · split at h
      · cases h; simp [hasNoLines]
      · split at h
        · cases h; simp [hasNoLines]
        · cases h

theorem stripPrefix_of_head (hp : pre.head?.isSome) (h : s.head? ≠ pre.head?) :
    stripPrefix s pre = none := by
  rw [stripPrefix_eq_none]
  rintro r rfl
  cases pre with
  | nil => simp at hp
  | cons c pre => exact h rfl

theorem processChunkLine_push (ln : ℕ) (m : Option Str)
    (hm : stripPrefix (trimEnd l) moveToMarker = none) (he : trimEnd l ≠ emptyChangeContextMarker)
    (hc : stripPrefix (trimEnd l) changeContextMarker = none) (hef : trimEnd l ≠ eofMarker)
    (ho : openChunks cs = b ++ [ch]) :
    (∀ ch', ch.pushLine l = some ch' → processChunkLine ln l m cs = .ok (m, b ++ [ch'])) ∧
    (ch.pushLine l = none → ∀ r, processChunkLine ln l m cs ≠ .ok r) := by
  have hs : startsWith (trimEnd l) changeContextMarker = false := by
    rw [← Bool.not_eq_true, startsWith_iff]
    exact fun ⟨r, hr⟩ => stripPrefix_eq_none.mp hc r hr
  constructor
  · intro ch' hp
    simp [processChunkLine, hm, he, hc, hef, hs, ho, hp]
  · intro hp r
    simp only [processChunkLine, hm, he, hc, hef, hs, ho, hp, ite_self, false_or,
      Bool.false_eq_true, false_and, if_false, getLast?_append, getLast?_singleton,
      Option.bind_some, Option.some_or]
    split <;> simp

theorem processChunkLine_plain (ln : ℕ) (m : Option Str)
    (hs : l.head? ≠ some '*') (hat : l.head? ≠ some '@') (ho : openChunks cs = b ++ [ch]) :
    (∀ ch', ch.pushLine l = some ch' → processChunkLine ln l m cs = .ok (m, b ++ [ch'])) ∧
    (ch.pushLine l = none → ∀ r, processChunkLine ln l m cs ≠ .ok r) := by
  have hs' := trimEnd_head_ne hs
  have hat' : (trimEnd l).head? ≠ some '@' := fun h => hat (head?_of_trimEnd h)
  refine processChunkLine_push ln m (stripPrefix_of_head rfl hs') ?_
    (stripPrefix_of_head rfl hat') ?_ ho
  · intro h
    rw [h] at hat'
    exact hat' rfl
  · intro h
    rw [h] at hs'
    exact hs' rfl

theorem processChunkLine_context (ln : ℕ) (m : Option Str) (h : contextOf (trimEnd l) = some ctx) :
    (Settled cs → processChunkLine ln l m cs = .ok (m, cs ++ [.empty ctx])) ∧
    (¬Settled cs → ∀ r, processChunkLine ln l m cs ≠ .ok r) := by
  have hm : stripPrefix (trimEnd l) moveToMarker = none :=
    stripPrefix_of_head rfl (by rw [contextOf_head h]; decide)
  have hmr : trimEnd l = emptyChangeContextMarker ∨ startsWith (trimEnd l) changeContextMarker := by
    rw [contextOf] at h
    split at h
    · next he => exact .inl he
    · obtain ⟨cn, hc, -⟩ := Option.map_eq_some_iff.mp h
      exact .inr (startsWith_iff.mpr ⟨cn, stripPrefix_eq_some.mp hc⟩)
  constructor
  · intro hs
    rw [Settled] at hs
    simp only [processChunkLine, hm, ite_self, hs, Bool.false_eq_true, and_false, if_false]
    rw [contextOf] at h
    split at h
    · next he =>
      cases h
      rw [if_pos he]
    · next he =>
      obtain ⟨cn, hc, rfl⟩ := Option.map_eq_some_iff.mp h
      rw [if_neg he, hc]
  · intro hs r
    rw [Settled] at hs
    simp [processChunkLine, hm, hs, hmr]

theorem processChunkLine_eof (h : hasNoLines ch = false) :
    processChunkLine ln eofMarker m (b ++ [ch]) =
      .ok (m, b ++ [{ ch with isEndOfFile := true }]) := by
  have ht : trimEnd eofMarker = eofMarker := by decide
  have hm : eofMarker ≠ emptyChangeContextMarker ∧
      stripPrefix eofMarker changeContextMarker = none := by decide
  simp [processChunkLine, ht, hm, h]

theorem processUpdateLine_eq (hs : s.hunks = d ++ [.updateFile p m cs])
    (hh : handleHunkHeadersAndEndPatch s ln (trimEnd l) = .ok none) :
    processUpdateLine s ln n l = (processChunkLine ln l m cs).map fun r =>
        ⟨.updateFile n, d ++ [.updateFile p r.1 r.2]⟩ := by
  rw [processUpdateLine, hh]
  simp only [hs, getLast?_append, getLast?_singleton, Option.some_or, dropLast_concat]
  cases processChunkLine ln l m cs <;> rfl

end Update

section Clean

variable {b : Body}

theorem ensure_ok
    (h : ∀ pt mp chs, s.hunks.getLast? = some (.updateFile pt mp chs) → chs ≠ [] ∧ Settled chs) :
    ensureUpdateHunkIsNotEmpty s ln t = .ok () := by
  rw [ensureUpdateHunkIsNotEmpty]
  split
  · next pt mp hl => exact absurd rfl (h _ _ _ hl).1
  · next pt mp chs _ hl =>
    have hs := (h _ _ _ hl).2
    rw [Settled] at hs
    simp [hs]
  · rfl

theorem ensure_of_complete (hs : Sound c) (hc : c.Complete) :
    ensureUpdateHunkIsNotEmpty (stateOf n c) ln t = .ok () := by
  apply ensure_ok
  intro pt mp chunks hl
  cases c with
  | update dn pt mp b =>
    simp only [stateOf, Cursor.hunks, getLast?_append] at hl
    obtain ⟨rfl, rfl, rfl⟩ := hl
    cases b with
    | inside bf chunk => exact ⟨by simp [Body.chunks], settled_concat.mpr hs⟩
    | closed chunks => exact hs
    | _ => exact hc.elim
  | _ => simp [stateOf, Cursor.hunks] at hl

theorem sound_of_openHunk (h : openHunk dn t = some c) : Sound c := by
  obtain ⟨p, ⟨-, rfl⟩ | ⟨-, rfl⟩ | ⟨-, rfl⟩⟩ := openHunk_eq_some.mp h
  · trivial
  · trivial
  · rfl

theorem settled_of_behind (hs : Sound (.update done path movePath body))
    (hb : body.behind = some chunks) : Settled chunks := by
  cases body with
  | opened => cases hb
  | inside b chunk => cases hb; exact settled_concat.mpr hs
  | closed chunks => cases hb; exact hs.2
  | _ => cases hb; rfl

theorem Sound.moves (hs : Sound c) (hm : Moves c li c') : Sound c' := by
  cases hm with
  | header complete star opens => exact sound_of_openHunk opens
  | added => trivial
  | move => trivial
  | @blank done path movePath body chunks li behind blank untagged =>
    by_cases hne : chunks = []
    · subst hne
      trivial
    · rw [if_neg (by simpa using hne)]
      exact ⟨hne, settled_of_behind hs behind⟩
  | context => trivial
  | tagged target push notBlank => exact pushLine_hasLines push
  | eof => exact ⟨by simp, settled_concat.mpr hs⟩

theorem openChunks_of_target (h : b.target = some (chunks, chunk)) :
    openChunks b.chunks = chunks ++ [chunk] := by
  cases b with
  | header => cases h; rfl
  | unopened => cases h; rfl
  | closed chunks =>
    cases chunks with
    | nil => cases h; rfl
    | cons => cases h
  | _ => cases h; simp [openChunks, Body.chunks]

theorem behind_eq_chunks (h : b.behind = some chunks) : b.chunks = chunks := by
  cases b <;> cases h <;> rfl

/-- Every mode gives a line to the header handler first, and stops with what that opens. -/
theorem processLine_of_state (hm : s.mode = modeOf n c)
    (he : isEnvironmentIdPreambleLine li = false) (hu : c.inUpdate → trimEnd li = trim li)
    (h : headerState s ln (trim li) = some s₁) :
    processLine s ln li = (ensureUpdateHunkIsNotEmpty s ln (trim li)).map fun _ => s₁ := by
  cases c with
  | update =>
    simp only [processLine, hm, modeOf, processUpdateLine, hu rfl, handleHunkHeadersAndEndPatch, h]
    cases ensureUpdateHunkIsNotEmpty s ln (trim li) <;> rfl
  | _ =>
    simp only [processLine, hm, modeOf, he, processHeaderLine, processAddLine,
      handleHunkHeadersAndEndPatch, h]
    cases ensureUpdateHunkIsNotEmpty s ln (trim li) <;> rfl

theorem state_of_processLine (hm : s.mode = modeOf n c)
    (he : isEnvironmentIdPreambleLine li = false) (hu : c.inUpdate → trimEnd li = trim li)
    (hs : headerState s ln (trim li) = some s₁) (h : processLine s ln li = .ok s') : s' = s₁ := by
  rw [processLine_of_state hm he hu hs] at h
  cases hr : ensureUpdateHunkIsNotEmpty s ln (trim li) with rw [hr] at h
  | error e => cases h
  | ok u => cases h; rfl

theorem processLine_header (hs : Sound c) (cm : c.Complete) (s : c.inUpdate → li.head? = some '*')
    (os : openHunk c.hunks (trim li) = some c') (ln : ℕ) :
    processLine (stateOf n c) ln li = .ok (stateOf ln c') := by
  rw [processLine_of_state rfl (not_environmentId_of_opens os)
    (fun hu => (trim_eq_trimEnd (s hu) star_not_whitespace).symm) (headerState_open os),
    ensure_of_complete hs cm]
  rfl

theorem tagged_of_push {ch : UpdateFileChunk} (h : ch.pushLine li = some ch') :
    tagged li = true := by
  rw [← pushLine_isSome, h]
  rfl

theorem tagged_head_ne (h : tagged li = true) : li.head? ≠ some '*' ∧ li.head? ≠ some '@' := by
  constructor
  all_goals
    intro hc
    rcases tagged_head h hc with h | h | h <;> revert h <;> decide

theorem not_move_of_head (h : li.head? ≠ some '*') : startsWith li moveToMarker = false := by
  rw [← Bool.not_eq_true, startsWith_iff]
  rintro ⟨r, rfl⟩
  exact h rfl

theorem blank_head_ne (h : trim li = []) : li.head? ≠ some '*' ∧ li.head? ≠ some '@' := by
  constructor
  all_goals
    intro hc
    have := trim_eq_nil.mp h _ (mem_of_mem_head? hc)
    revert this
    decide

theorem not_tagged_of_head (h : li.head? = some '*' ∨ li.head? = some '@') : tagged li = false := by
  by_contra ht
  have hne := tagged_head_ne (Bool.not_eq_false _ ▸ ht)
  rcases h with h | h
  · exact hne.1 h
  · exact hne.2 h

theorem cleanLine_iff_between (bh : body.behind = some chunks)
    (hm : startsWith li moveToMarker = false)
    (u : ∀ bf ch, body = .inside bf ch → tagged li = false) :
    CleanLine (placeOf (.update done path movePath body)) li ↔ CleanBetween li := by
  cases body with
  | header => simp [placeOf, CleanLine, hm]
  | opened => cases bh
  | inside bf ch => simp [placeOf, CleanLine, u bf ch rfl]
  | _ => rfl

theorem clean_context_iff (b : body.behind = some chunks)
    (cn : contextOf li = some ctx) :
    CleanLine (placeOf (.update done path movePath body)) li ↔ trimEnd li = li := by
  have hh := contextOf_head cn
  have hs : li.head? ≠ some '*' := by simp [hh]
  rw [cleanLine_iff_between b (not_move_of_head hs) fun _ _ _ => not_tagged_of_head (.inr hh)]
  constructor
  · intro hb
    rw [contextOf] at cn
    split at cn
    · next he => rw [he]; decide
    · obtain ⟨text, htx, -⟩ := Option.map_eq_some_iff.mp cn
      exact hb.2 (startsWith_iff.mpr ⟨text, stripPrefix_eq_some.mp htx⟩)
  · exact fun ht => ⟨fun hn => (blank_head_ne hn).2 hh, fun _ => ht⟩

theorem not_clean_of_blank (bh : body.behind = some chunks)
    (b : trim li = []) (u : ∀ bf ch, body = .inside bf ch → tagged li = false) :
    ¬CleanLine (placeOf (.update done path movePath body)) li := by
  rw [cleanLine_iff_between bh (not_move_of_head (blank_head_ne b).1) u]
  exact fun hc => hc.1 b

theorem processLine_update (h : handleHunkHeadersAndEndPatch (stateOf
      n (.update done path movePath b)) ln (trimEnd li) = .ok none)
    (hc : processChunkLine ln li movePath b.chunks = .ok (movePath', b'.chunks)) :
    processLine (stateOf n (.update done path movePath b)) ln li =
      .ok (stateOf n (.update done path movePath' b')) := by
  have hh : (stateOf n (.update done path movePath b)).hunks =
      done ++ [.updateFile path movePath b.chunks] := rfl
  have hl := processUpdateLine_eq (n := n) hh h
  rwa [hc] at hl

theorem processLine_clean (hs : Sound c) (hm : Moves c li c') (hc : CleanLine (placeOf c) li)
    (n ln : ℕ) : ∃ n', processLine (stateOf n c) ln li = .ok (stateOf n' c') := by
  cases hm with
  | header complete star opens => exact ⟨ln, processLine_header hs complete star opens ln⟩
  | @added done path contents text =>
    have ht : trim ('+' :: text) = trimEnd ('+' :: text) :=
      trim_eq_trimEnd (c := '+') rfl (by decide)
    have handle : handleHunkHeadersAndEndPatch (stateOf n (.add done path contents)) ln
        (trim ('+' :: text)) = .ok none := by
      rw [ht]
      exact handle_of_head (trimEnd_head_ne (by simp))
    have hst : stripPrefix ('+' :: text) ['+'] = some text := stripPrefix_append ['+'] text
    simp only [processLine, stateOf, modeOf, processAddLine] at handle ⊢
    rw [handle]
    simp [hst, Cursor.hunks]
  | @move done path movePath dest =>
    refine ⟨n, ?_⟩
    obtain rfl : movePath = none := hs
    have ht : trimEnd (moveToMarker ++ dest) = moveToMarker ++ dest := by
      exact hc
    have hch : processChunkLine ln (moveToMarker ++ dest) none [] = .ok (some dest, []) := by
      simp [processChunkLine, ht, stripPrefix_append]
    exact processLine_update (handle_of_fourth _ ln (trimEnd_move_fourth dest)) hch
  | blank behind blank untagged => exact absurd hc (not_clean_of_blank behind blank untagged)
  | @context done path movePath body chunks li ctx behind context =>
    refine ⟨n, processLine_update ?_ ?_⟩
    · exact handle_of_head (trimEnd_head_ne (by simp [contextOf_head context]))
    · rw [behind_eq_chunks behind]
      refine (processChunkLine_context ln movePath ?_).1 (settled_of_behind hs behind)
      rw [(clean_context_iff behind context).mp hc, context]
  | tagged target push notBlank =>
    have hh := tagged_head_ne (tagged_of_push push)
    refine ⟨n, processLine_update (handle_of_head (trimEnd_head_ne hh.1)) ?_⟩
    exact (processChunkLine_plain ln _ hh.1 hh.2 (openChunks_of_target target)).1 _ push
  | eof =>
    exact ⟨n, processLine_update (handle_eof _ ln) (processChunkLine_eof hs)⟩

theorem afterHeader_of_fourth (ch : Char) (h : (trim li)[4]? = some ch) (hne : ch ≠ 'U') :
    afterHeader li = .outside := by
  rw [afterHeader, if_neg]
  intro hu
  obtain ⟨r, hr⟩ := startsWith_iff.mp hu
  rw [hr] at h
  exact hne (Option.some.inj h).symm

theorem afterHeader_of_opens (h : openHunk dn (trim li) = some c) : afterHeader li = placeOf c := by
  obtain ⟨p, ⟨ht, rfl⟩ | ⟨ht, rfl⟩ | ⟨ht, rfl⟩⟩ := openHunk_eq_some.mp h
  · exact afterHeader_of_fourth 'A' (by rw [ht]; rfl) (by decide)
  · exact afterHeader_of_fourth 'D' (by rw [ht]; rfl) (by decide)
  · rw [afterHeader, if_pos (startsWith_iff.mpr ⟨p, ht⟩)]
    rfl

theorem ne_eof_of_head (h : li.head? ≠ some '*') : li ≠ eofMarker := by
  rintro rfl
  exact h rfl

theorem nextPlace_between (bh : body.behind = some chunks)
    (hm : startsWith li moveToMarker = false) (he : li ≠ eofMarker)
    (u : ∀ b ch, body = .inside b ch → tagged li = false) :
    nextPlace (placeOf (.update done path movePath body)) li = afterBetween li := by
  cases body with
  | header => rw [placeOf, nextPlace, if_neg (by simp [hm])]
  | opened => cases bh
  | inside b ch =>
    rw [placeOf, nextPlace, if_neg he, if_neg (by simp [u b ch rfl])]
  | _ => rfl

theorem nextPlace_header (complete : c.Complete) (star : c.inUpdate → li.head? = some '*')
    (opens : openHunk c.hunks (trim li) = some c') : nextPlace (placeOf c) li = afterHeader li := by
  have hb : c.inUpdate → afterBetween li = afterHeader li := by
    intro hu
    have hne : trim li ≠ [] := by
      intro hn
      have hs := openHunk_head opens
      rw [hn] at hs
      cases hs
    rw [afterBetween, if_neg hne, if_pos (star hu)]
  cases c with
  | update done path movePath body =>
    cases body with
    | inside before chunk =>
      have he : li ≠ eofMarker := by
        rintro rfl
        cases opens
      have ht := not_tagged_of_head (.inl (star rfl))
      rw [placeOf, nextPlace, if_neg he, if_neg (by simp [ht])]
      exact hb rfl
    | closed chunks => exact hb rfl
    | _ => exact complete.elim
  | _ => rfl

theorem nextPlace_tagged (t : body.target = some (chunks, chunk)) (ht : tagged li = true)
    (nb : body.behind = some [] → trim li ≠ []) :
    nextPlace (placeOf (.update done path movePath body)) li = .chunk := by
  have hh := tagged_head_ne ht
  have hbt : body.behind = some [] → afterBetween li = .chunk := by
    intro hb
    rw [afterBetween, if_neg (nb hb), if_neg hh.1]
  have hc : nextPlace .chunk li = .chunk := by
    rw [nextPlace, if_neg (ne_eof_of_head hh.1), if_pos ht]
  cases body with
  | header =>
    rw [placeOf, nextPlace, if_neg (by simp [not_move_of_head hh.1])]
    exact hbt rfl
  | unopened => exact hbt rfl
  | opened => exact hc
  | inside => exact hc
  | closed chunks =>
    cases chunks with
    | nil => exact hbt rfl
    | cons => cases t

/-- The place depends on the lines alone, and the machine keeps to it. -/
theorem nextPlace_of_moves (hm : Moves c li c') : nextPlace (placeOf c) li = placeOf c' := by
  cases hm with
  | header complete star opens =>
    rw [nextPlace_header complete star opens, afterHeader_of_opens opens]
  | @added done path contents text =>
    have hh : (trim ('+' :: text)).head? ≠ some '*' := by
      rw [trim_eq_trimEnd (c := '+') rfl (by decide)]
      exact trimEnd_head_ne (by simp)
    rw [placeOf, nextPlace, afterHeader, if_neg]
    · rfl
    · intro hu
      obtain ⟨r, hr⟩ := startsWith_iff.mp hu
      rw [hr] at hh
      exact hh rfl
  | @move done path movePath dest =>
    rfl
  | @blank done path movePath body chunks li behind blank untagged =>
    have hh := blank_head_ne blank
    rw [nextPlace_between behind (not_move_of_head hh.1) (ne_eof_of_head hh.1) untagged,
      afterBetween, if_pos blank]
    split <;> rfl
  | @context done path movePath body chunks li ctx behind context =>
    have hat := contextOf_head context
    have hs : li.head? ≠ some '*' := by simp [hat]
    have hne : trim li ≠ [] := fun hn => (blank_head_ne hn).2 hat
    rw [nextPlace_between behind (not_move_of_head hs) (ne_eof_of_head hs)
      (fun _ _ _ => not_tagged_of_head (.inr hat)), afterBetween, if_neg hne, if_neg hs]
    rfl
  | tagged target push notBlank =>
    exact nextPlace_tagged target (tagged_of_push push) notBlank
  | eof =>
    show nextPlace .chunk eofMarker = .between
    rw [nextPlace, if_pos rfl]

theorem foldl_nextPlace (hr : run c₀ ls = some c₁) :
    ls.foldl nextPlace (placeOf c₀) = placeOf c₁ := by
  induction ls generalizing c₀ with
  | nil =>
    cases hr
    rfl
  | cons li ls ih =>
    obtain ⟨c, hs, hr⟩ := Option.bind_eq_some_iff.mp hr
    rw [foldl_cons, nextPlace_of_moves (step_moves hs)]
    exact ih hr

theorem inUpdate_iff : c.inUpdate ↔ placeOf c ≠ .outside := by
  cases c with
  | update dn pt mp b => cases b <;> simp [placeOf, Cursor.inUpdate]
  | _ => simp [placeOf, Cursor.inUpdate]

theorem clean_run (hs : Sound c₀) (hr : run c₀ ls = some c₁) (hc : CleanLines (placeOf c₀) ls)
    (n ln : ℕ) : Sound c₁ ∧ ∃ n', processLines (stateOf n c₀) ln ls = .ok (stateOf n' c₁) := by
  induction ls generalizing c₀ n ln with
  | nil =>
    cases hr
    exact ⟨hs, n, rfl⟩
  | cons li ls ih =>
    obtain ⟨c, hst, hr⟩ := Option.bind_eq_some_iff.mp hr
    have hm := step_moves hst
    have hp := nextPlace_of_moves hm
    obtain ⟨n₁, hln⟩ := processLine_clean hs hm hc.1 n (ln + 1)
    obtain ⟨hsn, n', hl⟩ := ih (hs.moves hm) hr (hp ▸ hc.2) n₁ (ln + 1)
    refine ⟨hsn, n', ?_⟩
    rw [processLines, hln]
    exact hl

end Clean

end PatchSimulation
