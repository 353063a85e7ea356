import CodexTeams.PatchParser

/-! Printing and reparsing patches. A hunk source is a patch hunk as it is written; every
well-formed list of hunks has sources, and each of them parses back to that list. -/
namespace PatchRoundTrip

open RustStr PatchParser List UpdateFileChunk

/-- A path, a move target or a change context. -/
structure GoodName (name : Str) : Prop where
  noNewline : '\n' ∉ name
  first : name.head?.any isWhitespace = false
  last : name.getLast?.any isWhitespace = false
  nonempty : name ≠ []

abbrev Name := { name : Str // GoodName name }
abbrev ContentLine := { line : Str // PlainLine line }

inductive Tag where
  | context
  | added
  | removed
  deriving DecidableEq, Repr

def Tag.char : Tag → Char
  | .context => ' '
  | .added => '+'
  | .removed => '-'

structure ChunkSource where
  changeContext : Option Name
  tagged : List (Tag × ContentLine)
  isEndOfFile : Bool
  nonempty : tagged ≠ []

inductive HunkSource where
  | addFile (path : Name) (contents : List ContentLine)
  | deleteFile (path : Name)
  | updateFile (path : Name) (movePath : Option Name) (chunks : List ChunkSource)
      (nonempty : chunks ≠ [])

variable (tagged : List (Tag × ContentLine))

def oldLines : List Str :=
  (tagged.filter (·.1 ≠ .added)).map (·.2.1)

def newLines : List Str :=
  (tagged.filter (·.1 ≠ .removed)).map (·.2.1)

def ChunkSource.chunk (c : ChunkSource) : UpdateFileChunk :=
  ⟨c.changeContext.map (·.1), oldLines c.tagged, newLines c.tagged, c.isEndOfFile⟩

def HunkSource.hunk : HunkSource → Hunk
  | .addFile path contents => .addFile path.1 (unlines (contents.map (·.1)))
  | .deleteFile path => .deleteFile path.1
  | .updateFile path movePath chunks _ =>
    .updateFile path.1 (movePath.map (·.1)) (chunks.map ChunkSource.chunk)

def printTagged (line : Tag × ContentLine) : Str := line.1.char :: line.2.1

def printContext : Option Name → Str
  | none => emptyChangeContextMarker
  | some context => changeContextMarker ++ context.1

def ChunkSource.print (c : ChunkSource) : List Str :=
  printContext c.changeContext ::
    (c.tagged.map printTagged ++ if c.isEndOfFile then [eofMarker] else [])

def HunkSource.print : HunkSource → List Str
  | .addFile path contents => (addFileMarker ++ path.1) :: contents.map ('+' :: ·.1)
  | .deleteFile path => [deleteFileMarker ++ path.1]
  | .updateFile path movePath chunks _ =>
    (updateFileMarker ++ path.1) :: (movePath.toList.map (moveToMarker ++ ·.1) ++
      chunks.flatMap ChunkSource.print)

variable (sources : List HunkSource) (finalNewline : Bool)

/-- The whole patch; the newline after the end marker is optional in the grammar. -/
def printPatch : Str :=
  unlines (beginPatchMarker :: sources.flatMap HunkSource.print) ++ endPatchMarker ++
    if finalNewline then ['\n'] else []

theorem plain_of_name (hm : '\n' ∉ m) (nm : Name) : PlainLine (m ++ nm.1) := by
  obtain ⟨nm, hn⟩ := nm
  constructor
  · intro hmm
    rcases mem_append.mp hmm with h | h
    · exact hm h
    · exact hn.noNewline h
  · intro hl
    obtain ⟨init, c, rfl⟩ := (eq_nil_or_concat' nm).resolve_left hn.nonempty
    have hc : isWhitespace c = false := by simpa using hn.last
    have : c = '\r' := by simpa using hl
    subst this
    revert hc
    decide

theorem plain_cons (hn : c ≠ '\n') (hr : c ≠ '\r') (l : ContentLine) : PlainLine (c :: l.1) := by
  obtain ⟨l, hln⟩ := l
  constructor
  · intro hm
    rcases mem_cons.mp hm with h | h
    · exact hn h.symm
    · exact hln.noNewline h
  · intro hl
    cases l with
    | nil => exact hr (Option.some.inj hl)
    | cons d l =>
      exact hln.noReturn hl

theorem plain_printTagged (l : Tag × ContentLine) : PlainLine (printTagged l) := by
  obtain ⟨tag, l⟩ := l
  have hn : tag.char ≠ '\n' := by cases tag <;> decide
  have hr : tag.char ≠ '\r' := by cases tag <;> decide
  exact plain_cons hn hr l

theorem plain_chunk (c : ChunkSource) : ∀ line ∈ c.print, PlainLine line := by
  intro line hl
  rcases mem_cons.mp hl with rfl | hl
  · cases c.changeContext with
    | none => exact ⟨by decide, by decide⟩
    | some cn => exact plain_of_name (by decide) cn
  · rcases mem_append.mp hl with hl | hl
    · obtain ⟨tagged, -, rfl⟩ := mem_map.mp hl
      exact plain_printTagged tagged
    · split at hl
      · rw [mem_singleton.mp hl]
        exact ⟨by decide, by decide⟩
      · cases hl

theorem plain_hunk (s : HunkSource) : ∀ line ∈ s.print, PlainLine line := by
  intro line hl
  cases s with
  | addFile p contents =>
    rcases mem_cons.mp hl with rfl | hl
    · exact plain_of_name (by decide) p
    · obtain ⟨c, -, rfl⟩ := mem_map.mp hl
      exact plain_cons (by decide) (by decide) c
  | deleteFile p =>
    rw [mem_singleton.mp hl]
    exact plain_of_name (by decide) p
  | updateFile p m chunks n =>
    rcases mem_cons.mp hl with rfl | hl
    · exact plain_of_name (by decide) p
    · rcases mem_append.mp hl with hl | hl
      · obtain ⟨d, -, rfl⟩ := mem_map.mp hl
        exact plain_of_name (by decide) d
      · obtain ⟨chunk, -, hl⟩ := mem_flatMap.mp hl
        exact plain_chunk chunk line hl

theorem lines_printPatch : lines (trim (printPatch sources finalNewline)) =
      (beginPatchMarker :: sources.flatMap HunkSource.print) ++ [endPatchMarker] := by
  have hp : ∀ line ∈ beginPatchMarker :: sources.flatMap HunkSource.print, PlainLine line := by
    intro line hl
    rcases mem_cons.mp hl with rfl | hl
    · exact ⟨by decide, by decide⟩
    · obtain ⟨source, -, hl⟩ := mem_flatMap.mp hl
      exact plain_hunk source line hl
  have ht : trim (printPatch sources finalNewline) =
      unlines (beginPatchMarker :: sources.flatMap HunkSource.print) ++ endPatchMarker := by
    have hb : Blank (if finalNewline then ['\n'] else []) := by
      cases finalNewline <;> decide
    have he : endPatchMarker = "*** End Patc" ++ ['h'] := by decide
    rw [printPatch, trim_append_blank hb, trim_eq_trimEnd (c := '*') rfl (by decide), he,
      ← append_assoc, trimEnd_concat_of_not (by decide)]
  rw [ht]
  exact lines_unlines hp (by decide) (by decide)

def EndsChunk (line : Str) : Prop := PatchParser.tagged line = false ∧ line ≠ eofMarker

structure OpensHunk (line : Str) : Prop where
  star : line.head? = some '*'
  nonblank : trim line ≠ []
  notEof : line ≠ eofMarker

theorem OpensHunk.endsChunk (h : OpensHunk line) : EndsChunk line := by
  refine ⟨?_, h.notEof⟩
  rw [PatchParser.tagged, h.star]
  decide

def push (chunk : UpdateFileChunk) (tagged : List (Tag × ContentLine)) : UpdateFileChunk :=
  { chunk with
    oldLines := chunk.oldLines ++ oldLines tagged
    newLines := chunk.newLines ++ newLines tagged }

theorem pushLine_printTagged (c : UpdateFileChunk) (l : Tag × ContentLine) :
    c.pushLine (printTagged l) = some (push c [l]) := by
  obtain ⟨tag, l⟩ := l
  cases tag <;>
    simp [printTagged, Tag.char, pushLine, push, oldLines, newLines]

theorem push_cons (c : UpdateFileChunk) (l : Tag × ContentLine) (t : List (Tag × ContentLine)) :
    push (push c [l]) t = push c (l :: t) := by
  obtain ⟨tag, l⟩ := l
  cases tag <;> simp [push, oldLines, newLines]

theorem printTagged_ne_eof (l : Tag × ContentLine) : printTagged l ≠ eofMarker := by
  obtain ⟨tag, l⟩ := l
  intro h
  have hh : some tag.char = eofMarker.head? := congrArg head? h
  revert hh
  cases tag <;> decide

theorem parseChunkLines_tagged (ln : ℕ) (t : List (Tag × ContentLine)) (rest : List Str) :
    ∀ p c, parseChunkLines ln p c (t.map printTagged ++ rest) =
      parseChunkLines ln (p + t.length) (push c t) rest := by
  induction t with intro p c
  | nil => simp [push, oldLines, newLines]
  | cons l t ih =>
    rw [map_cons, cons_append, parseChunkLines, if_neg (printTagged_ne_eof l)]
    simp only [pushLine_printTagged]
    rw [ih, push_cons, length_cons, Nat.add_assoc, Nat.add_comm 1]

theorem parseChunkLines_end (hp : p ≠ 0) (hr : ∀ l ∈ r.head?, EndsChunk l) :
    parseChunkLines ln p c r = .ok (c, p) := by
  cases r with
  | nil => rw [parseChunkLines]
  | cons l r =>
    obtain ⟨ht, he⟩ := hr l rfl
    have hps : c.pushLine l = none := pushLine_eq_none.mpr ht
    rw [parseChunkLines, if_neg he, hps]
    simp [hp]

variable (cn : Option Name)

theorem chunkStart_print (ln : ℕ) (a : Bool) :
    chunkStart (printContext cn) ln a = .ok (cn.map (·.1), 1) := by
  cases cn with
  | none => rw [chunkStart, printContext, if_pos rfl]; rfl
  | some cn =>
    rfl

theorem parseUpdateFileChunk_print (c : ChunkSource) (ln : ℕ) (a : Bool)
    (hr : ∀ l ∈ r.head?, EndsChunk l) :
    parseUpdateFileChunk (c.print ++ r) ln a = .ok (c.chunk, c.print.length) := by
  have hp : 0 < c.tagged.length := length_pos_of_ne_nil c.nonempty
  have hl : parseChunkLines ln 0 (.empty (c.changeContext.map (·.1)))
      (c.tagged.map printTagged ++ ((if c.isEndOfFile then [eofMarker] else []) ++ r)) =
      .ok (c.chunk, c.print.length - 1) := by
    rw [parseChunkLines_tagged]
    cases he : c.isEndOfFile with
    | true =>
      simp only [if_true, cons_append]
      rw [parseChunkLines, if_pos rfl, if_neg (by omega)]
      simp [ChunkSource.chunk, ChunkSource.print, push, empty, he]
    | false =>
      simp only [Bool.false_eq_true, if_false, nil_append]
      rw [parseChunkLines_end (by omega) hr]
      simp [ChunkSource.chunk, ChunkSource.print, push, empty, he]
  have hln : ¬ (c.print ++ r).length ≤ 1 := by
    simp only [ChunkSource.print, length_append, length_cons, length_map]
    omega
  have hd : (c.print ++ r).drop 1 =
      c.tagged.map printTagged ++ ((if c.isEndOfFile then [eofMarker] else []) ++ r) := by
    simp [ChunkSource.print]
  have hc : c.print ++ r = printContext c.changeContext :: (c.print ++ r).drop 1 := by
    simp [ChunkSource.print]
  have hs : c.print.length - 1 + 1 = c.print.length := by
    simp [ChunkSource.print]
  rw [hc, parseUpdateFileChunk]
  simp only [chunkStart_print]
  rw [← hc, if_neg hln, hd, hl]
  simp [hs]

theorem printContext_head : (printContext cn).head? = some '@' := by
  cases cn <;> rfl

theorem nonblank_of_head (h : l.head? = some c) (hc : isWhitespace c = false) : trim l ≠ [] := by
  intro hn
  have hb := trim_eq_nil.mp hn c (mem_of_mem_head? h)
  rw [hc] at hb
  cases hb

theorem endsChunk_printContext : EndsChunk (printContext cn) := by
  have hh := printContext_head cn
  constructor
  · rw [PatchParser.tagged, hh]
    decide
  · intro h
    rw [h] at hh
    cases hh

theorem endsChunk_chunks (cs : List ChunkSource) (hr : ∀ line ∈ r.head?, OpensHunk line) :
    ∀ line ∈ (cs.flatMap ChunkSource.print ++ r).head?, EndsChunk line := by
  intro line hl
  cases cs with
  | nil => exact (hr line hl).endsChunk
  | cons c cs =>
    cases hl
    exact endsChunk_printContext c.changeContext

theorem parseChunks_print (ln : ℕ) (ss : List ChunkSource) (hr : ∀ l ∈ r.head?, OpensHunk l) :
    ∀ p chunks, parseChunks ln p chunks (ss.flatMap ChunkSource.print ++ r) =
      .ok (chunks ++ ss.map ChunkSource.chunk, p + (ss.flatMap ChunkSource.print).length) := by
  induction ss with intro p chunks
  | nil =>
    have hs : ∀ l ∈ r.head?, trim l ≠ [] ∧ l.head? = some '*' :=
      fun l hl => ⟨(hr l hl).nonblank, (hr l hl).star⟩
    simpa using parseChunks_star hs
  | cons c ss ih =>
    have hh := printContext_head c.changeContext
    have hch := parseUpdateFileChunk_print c (ln + p) chunks.isEmpty (endsChunk_chunks ss hr)
    have hc : c.print ++ (ss.flatMap ChunkSource.print ++ r) = printContext c.changeContext ::
          (c.print ++ (ss.flatMap ChunkSource.print ++ r)).tail := rfl
    rw [flatMap_cons, append_assoc, hc,
      parseChunks_chunk (nonblank_of_head hh (by decide)) (by simp [hh])
        (hc ▸ hch), ← hc, drop_left, ih]
    simp [Nat.add_assoc]

theorem trim_name (m : Str) (hs : m.head? = some '*') (nm : Name) :
    trim (m ++ nm.1) = m ++ nm.1 := by
  obtain ⟨nm, hn⟩ := nm
  obtain ⟨init, c, rfl⟩ := (eq_nil_or_concat' nm).resolve_left hn.nonempty
  have hc : isWhitespace c = false := by simpa using hn.last
  have hh : (m ++ (init ++ [c])).head? = some '*' := by
    rw [head?_append, hs, Option.some_or]
  rw [trim_eq_trimEnd hh (by decide), ← append_assoc, trimEnd_concat_of_not hc]

theorem opensHunk_name (hs : m.head? = some '*') (hl : 4 < m.length) (hf : m[4]? ≠ some 'E')
    (nm : Name) : OpensHunk (m ++ nm.1) := by
  have hh : (m ++ nm.1).head? = some '*' := by
    rw [head?_append, hs, Option.some_or]
  refine ⟨hh, nonblank_of_head hh (by decide), fun he => ?_⟩
  have hc : (m ++ nm.1)[4]? = m[4]? := getElem?_append_left hl
  rw [he] at hc
  exact hf hc.symm

variable (ss : List HunkSource)

theorem opensHunk_sources : ∀ line ∈ (ss.flatMap HunkSource.print).head?, OpensHunk line := by
  intro line hl
  cases ss with
  | nil => cases hl
  | cons s ss =>
    cases s with cases hl
    | addFile p contents => exact opensHunk_name rfl (by decide) (by decide) p
    | deleteFile p => exact opensHunk_name rfl (by decide) (by decide) p
    | updateFile p m chunks n => exact opensHunk_name rfl (by decide) (by decide) p

theorem parseAddLines_print (cs : List ContentLine) (hr : ∀ l ∈ r.head?, OpensHunk l) :
    parseAddLines (cs.map ('+' :: ·.1) ++ r) = (unlines (cs.map (·.1)), cs.length) := by
  induction cs with
  | nil =>
    cases r with
    | nil => rfl
    | cons l r =>
      have hs := (hr l rfl).star
      rw [parseAddLines]
      · rfl
      · rintro text r' hc
        rw [(cons.inj hc).1] at hs
        cases hs
  | cons c cs ih =>
    rw [map_cons, cons_append, parseAddLines, ih]
    simp [unlines]

theorem strip_other (h : o[4]? ≠ m[4]?) (hm : 4 < m.length) (ho : 4 < o.length) :
    stripPrefix (m ++ nm) o = none := by
  rw [stripPrefix_eq_none]
  intro r hr
  have hc := congrArg (·[4]?) hr
  simp only [getElem?_append_left hm, getElem?_append_left ho] at hc
  exact h hc.symm

theorem parseOneHunk_print (s : HunkSource) (ln : ℕ) (hrs : ∀ l ∈ rs.head?, OpensHunk l) :
    ∃ first tail, s.print ++ rs = first :: tail ∧
      parseOneHunk first tail ln = .ok (s.hunk, s.print.length) := by
  cases s with
  | addFile p contents =>
    refine ⟨addFileMarker ++ p.1, contents.map ('+' :: ·.1) ++ rs, rfl, ?_⟩
    simp only [parseOneHunk, trim_name addFileMarker rfl, stripPrefix_append,
      parseAddLines_print contents hrs]
    simp [HunkSource.hunk, HunkSource.print, Nat.add_comm]
  | deleteFile p =>
    refine ⟨deleteFileMarker ++ p.1, rs, rfl, ?_⟩
    simp only [parseOneHunk, trim_name deleteFileMarker rfl]
    rfl
  | updateFile p m chunks nonempty =>
    refine ⟨updateFileMarker ++ p.1, m.toList.map (moveToMarker ++ ·.1) ++
      chunks.flatMap ChunkSource.print ++ rs, by simp [HunkSource.print], ?_⟩
    have ha : stripPrefix (updateFileMarker ++ p.1) addFileMarker = none :=
      strip_other (by decide) (by decide) (by decide)
    have hd : stripPrefix (updateFileMarker ++ p.1) deleteFileMarker = none :=
      strip_other (by decide) (by decide) (by decide)
    have hc := parseChunks_print ln chunks hrs
    have he : (chunks.map ChunkSource.chunk).isEmpty = false := by
      simpa using nonempty
    simp only [parseOneHunk, trim_name updateFileMarker rfl, ha, hd, stripPrefix_append]
    cases m with
    | none =>
      have hm : ((chunks.flatMap ChunkSource.print ++ rs).head?.bind
          (stripPrefix · moveToMarker)) = none := by
        obtain ⟨c, chunks, rfl⟩ := exists_cons_of_ne_nil nonempty
        have hh := printContext_head c.changeContext
        refine stripPrefix_eq_none.mpr fun r hr => ?_
        rw [hr] at hh
        cases hh
      simp only [Option.toList_none, map_nil, nil_append, hm, Option.isSome_none,
        Bool.false_eq_true, if_false, drop_zero, hc, he]
      simp [HunkSource.hunk, HunkSource.print, Nat.add_comm]
    | some d =>
      have hm : (((moveToMarker ++ d.1) :: (chunks.flatMap ChunkSource.print ++ rs)).head?.bind
            (stripPrefix · moveToMarker)) = some d.1 := stripPrefix_append _ _
      simp only [Option.toList_some, map_cons, map_nil, cons_append, nil_append, hm,
        Option.isSome_some, if_true, drop_succ_cons, drop_zero, hc, he]
      simp [HunkSource.hunk, HunkSource.print]
      omega

theorem parseHunks_print : ∀ hunks ln, parseHunks hunks (ss.flatMap HunkSource.print) ln =
      .ok (hunks ++ ss.map HunkSource.hunk) := by
  induction ss with intro hunks ln
  | nil => simp [parseHunks]
  | cons s ss ih =>
    obtain ⟨first, tail, hc, ho⟩ := parseOneHunk_print s ln (opensHunk_sources ss)
    rw [flatMap_cons, hc, parseHunks_hunk ho, ← hc, drop_left, ih]
    simp

theorem preamble_print : parseEnvironmentIdPreamble (ss.flatMap HunkSource.print) =
      .ok (none, ss.flatMap HunkSource.print, 2) := by
  have key : ∀ (m : Str) (nm : Name), m.head? = some '*' →
      environmentIdMarker[4]? ≠ m[4]? → 4 < m.length →
      stripPrefix (trimStart (m ++ nm.1)) environmentIdMarker = none := by
    intro m nm hs hf hl
    obtain ⟨r, rfl⟩ := head?_eq_some_iff.mp hs
    rw [cons_append, trimStart_cons_of_not (by decide), ← cons_append]
    exact strip_other hf hl (by decide)
  cases ss with
  | nil => rfl
  | cons s ss =>
    cases s with
    | addFile p contents =>
      simp [HunkSource.print, parseEnvironmentIdPreamble,
        key addFileMarker p rfl (by decide) (by decide)]
    | deleteFile p =>
      simp [HunkSource.print, parseEnvironmentIdPreamble,
        key deleteFileMarker p rfl (by decide) (by decide)]
    | updateFile p mpt chunks n =>
      simp [HunkSource.print, parseEnvironmentIdPreamble,
        key updateFileMarker p rfl (by decide) (by decide)]

theorem boundaries_print : checkPatchBoundariesStrict
        ((beginPatchMarker :: sources.flatMap HunkSource.print) ++ [endPatchMarker]) =
      .ok ((beginPatchMarker :: sources.flatMap HunkSource.print) ++ [endPatchMarker],
        sources.flatMap HunkSource.print) := by
  have hm : trim beginPatchMarker = beginPatchMarker ∧
      trim endPatchMarker = endPatchMarker := by decide
  have hl : ((beginPatchMarker :: sources.flatMap HunkSource.print) ++
      [endPatchMarker]).getLast? = some endPatchMarker := by
    rw [getLast?_append, getLast?_singleton, Option.some_or]
  rw [checkPatchBoundariesStrict, checkStartAndEndLinesStrict, hl]
  simp [hm]

/-- Every way of writing hunks down parses back to them. -/
theorem parsePatch_printPatch : ∃ args, parsePatch (printPatch sources finalNewline) = .ok args ∧
      args.hunks = sources.map HunkSource.hunk := by
  simp only [parsePatch, parsePatchText, lines_printPatch, checkPatchBoundariesLenient,
    boundaries_print, preamble_print, parseHunks_print]
  exact ⟨_, rfl, rfl⟩

/-- A list of chunks that the grammar can write: names are good, content lines are plain and
no chunk is empty. -/
structure GoodChunk (chunk : UpdateFileChunk) : Prop where
  context : ∀ context ∈ chunk.changeContext, GoodName context
  old : ∀ line ∈ chunk.oldLines, PlainLine line
  new : ∀ line ∈ chunk.newLines, PlainLine line
  nonempty : chunk.oldLines ≠ [] ∨ chunk.newLines ≠ []

def GoodHunk : Hunk → Prop
  | .addFile path contents =>
    GoodName path ∧ ∃ ls, (∀ line ∈ ls, PlainLine line) ∧ contents = unlines ls
  | .deleteFile path => GoodName path
  | .updateFile path movePath chunks =>
    GoodName path ∧ (∀ dest ∈ movePath, GoodName dest) ∧ chunks ≠ [] ∧
      ∀ chunk ∈ chunks, GoodChunk chunk

theorem exists_map_eq {f : α → β} (h : ∀ b ∈ ls, ∃ a, f a = b) : ∃ ss : List α, ss.map f = ls := by
  induction ls with
  | nil => exact ⟨[], rfl⟩
  | cons b ls ih =>
    obtain ⟨a, ha⟩ := h b mem_cons_self
    obtain ⟨ss, hs⟩ := ih fun b' hb' => h b' (mem_cons_of_mem b hb')
    exact ⟨a :: ss, by rw [map_cons, ha, hs]⟩

theorem exists_option_map_eq {p : Str → Prop} (h : ∀ t ∈ o, p t) :
    ∃ o' : Option { t // p t }, o'.map (·.1) = o := by
  cases o with
  | none => exact ⟨none, rfl⟩
  | some t => exact ⟨some ⟨t, h t rfl⟩, rfl⟩

theorem exists_chunkSource (h : GoodChunk chunk) : ∃ s : ChunkSource, s.chunk = chunk := by
  obtain ⟨cn, hc⟩ := exists_option_map_eq h.context
  obtain ⟨old, ho⟩ : ∃ old : List ContentLine, old.map (·.1) = chunk.oldLines :=
    exists_map_eq fun l hl => ⟨⟨l, h.old l hl⟩, rfl⟩
  obtain ⟨new, hn⟩ : ∃ new : List ContentLine, new.map (·.1) = chunk.newLines :=
    exists_map_eq fun l hl => ⟨⟨l, h.new l hl⟩, rfl⟩
  have hne : old.map (Prod.mk Tag.removed) ++ new.map (Prod.mk Tag.added) ≠ [] := by
    intro hnl
    rw [append_eq_nil_iff, map_eq_nil_iff, map_eq_nil_iff] at hnl
    rcases h.nonempty with ho' | hn'
    · exact ho' (by rw [← ho, hnl.1, map_nil])
    · exact hn' (by rw [← hn, hnl.2, map_nil])
  refine ⟨⟨cn, _, chunk.isEndOfFile, hne⟩, ?_⟩
  cases chunk
  simp_all [ChunkSource.chunk, oldLines, newLines, filter_map]

theorem exists_hunkSource (h : GoodHunk hunk) : ∃ s : HunkSource, s.hunk = hunk := by
  cases hunk with
  | addFile p contents =>
    obtain ⟨hp, ls, hls, rfl⟩ := h
    obtain ⟨contents, hcn⟩ : ∃ contents : List ContentLine, contents.map (·.1) = ls :=
      exists_map_eq fun l hl => ⟨⟨l, hls l hl⟩, rfl⟩
    exact ⟨.addFile ⟨p, hp⟩ contents, by rw [HunkSource.hunk, hcn]⟩
  | deleteFile p => exact ⟨.deleteFile ⟨p, h⟩, rfl⟩
  | updateFile p m chunks =>
    obtain ⟨hp, hm, hne, hch⟩ := h
    obtain ⟨d, hd⟩ := exists_option_map_eq hm
    obtain ⟨ss, hs⟩ : ∃ ss : List ChunkSource, ss.map ChunkSource.chunk = chunks :=
      exists_map_eq fun chunk hc => exists_chunkSource (hch chunk hc)
    have hne' : ss ≠ [] := by
      rintro rfl
      exact hne hs.symm
    exact ⟨.updateFile ⟨p, hp⟩ d ss hne', by
      rw [HunkSource.hunk, hd, hs]⟩

/-- Well-formed hunks can be printed, and however they are printed they parse back to exactly
themselves. -/
theorem wellFormed_roundTrip (hunks : List Hunk) (hgood : ∀ hunk ∈ hunks, GoodHunk hunk) :
    (∃ sources : List HunkSource, sources.map HunkSource.hunk = hunks) ∧
      ∀ sources : List HunkSource, sources.map HunkSource.hunk = hunks → ∀ finalNewline,
        ∃ args, parsePatch (printPatch sources finalNewline) = .ok args ∧ args.hunks = hunks := by
  constructor
  · exact exists_map_eq fun hunk hh => exists_hunkSource (hgood hunk hh)
  · rintro sources rfl finalNewline
    exact parsePatch_printPatch sources finalNewline

/-- Content lines that look like markers stay content. -/
theorem markers_as_content_roundTrip : ∃ sources : List HunkSource, sources.map HunkSource.hunk =
        [.updateFile "a.txt" none [⟨some "fn main", ["*** End Patch"], ["@@"], true⟩],
          .addFile "b.txt" "*** Delete File: a.txt\n"] ∧
      ∃ args, parsePatch (printPatch sources true) = .ok args ∧ args.hunks =
        [.updateFile "a.txt" none [⟨some "fn main", ["*** End Patch"], ["@@"], true⟩],
          .addFile "b.txt" "*** Delete File: a.txt\n"] := by
  suffices hg : ∀ hunk ∈ _, GoodHunk hunk by
    obtain ⟨⟨sources, hs⟩, hp⟩ := wellFormed_roundTrip _ hg
    exact ⟨sources, hs, hp sources hs true⟩
  intro hunk hh
  rcases mem_cons.mp hh with rfl | hh
  · refine ⟨⟨by decide, by decide, by decide, by decide⟩, by simp, by simp, ?_⟩
    intro chunk hc
    rw [mem_singleton.mp hc]
    refine ⟨?_, ?_, ?_, by simp⟩
    · rintro cn ⟨⟩
      exact ⟨by decide, by decide, by decide, by decide⟩
    · intro l hl
      rw [mem_singleton.mp hl]
      exact ⟨by decide, by decide⟩
    · intro l hl
      rw [mem_singleton.mp hl]
      exact ⟨by decide, by decide⟩
  · rw [mem_singleton.mp hh]
    refine ⟨⟨by decide, by decide, by decide, by decide⟩, ["*** Delete File: a.txt"], ?_,
      by decide⟩
    intro l hl
    rw [mem_singleton.mp hl]
    exact ⟨by decide, by decide⟩

end PatchRoundTrip
