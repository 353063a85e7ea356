import CodexTeams.ListEdits
import CodexTeams.PatchParser
import CodexTeams.SeekSequence

/-! The replacements of an update hunk and their application. An end-of-file chunk is sought at the
end of the file wherever the earlier chunks stopped, and a pure addition goes there whatever the
other chunks replace. -/
namespace ComputeReplacements

open RustStr PatchParser SeekSequence ListEdits List

inductive ApplyPatchError where
  | computeReplacements (message : Str)
  deriving DecidableEq, Repr

/-- A start index, the number of old lines and the new lines. -/
abbrev Replacement := Edit Str

/-- The loop state: what is scheduled so far, in chunk order, and where to search from. -/
structure Progress where
  replacements : List Replacement
  lineIndex : ℕ
  deriving Repr

def contextNotFound (ctxLine path : Str) : ApplyPatchError :=
  .computeReplacements
    ("Failed to find context '" ++ ctxLine ++ "' in " ++ path)

def linesNotFound (path : Str) (oldLines : List Str) : ApplyPatchError :=
  .computeReplacements ("Failed to find expected lines in " ++ path ++ ":\n" ++
    ['\n'].intercalate oldLines)

variable (originalLines : List Str)

def seekContext (path : Str) (lineIndex : ℕ) (chunk : UpdateFileChunk) : Except ApplyPatchError ℕ :=
  match chunk.changeContext with
  | none => .ok lineIndex
  | some ctxLine =>
    match seekSequence originalLines [ctxLine] lineIndex false with
    | some idx => .ok (idx + 1)
    | none => .error (contextNotFound ctxLine path)

def insertionIdx : ℕ :=
  if originalLines.getLast? = some [] then originalLines.length - 1 else originalLines.length

def withoutFinalEmpty (ls : List Str) : List Str :=
  if ls.getLast? = some [] then ls.dropLast else ls

def locate (lineIndex : ℕ) (chunk : UpdateFileChunk) : Option Replacement :=
  match seekSequence originalLines chunk.oldLines lineIndex chunk.isEndOfFile with
  | some startIdx => some ⟨startIdx, chunk.oldLines.length, chunk.newLines⟩
  | none =>
    if chunk.oldLines.getLast? = some [] then
      (seekSequence originalLines chunk.oldLines.dropLast lineIndex chunk.isEndOfFile).map
        fun startIdx =>
          ⟨startIdx, chunk.oldLines.dropLast.length, withoutFinalEmpty chunk.newLines⟩
    else none

def scheduleChunk (path : Str) (p : Progress)
    (chunk : UpdateFileChunk) : Except ApplyPatchError Progress :=
  match seekContext originalLines path p.lineIndex chunk with
  | .error e => .error e
  | .ok lineIndex =>
    if chunk.oldLines.isEmpty then
      .ok ⟨p.replacements ++ [⟨insertionIdx originalLines, 0, chunk.newLines⟩], lineIndex⟩
    else
      match locate originalLines lineIndex chunk with
      | some r => .ok ⟨p.replacements ++ [r], r.stop⟩
      | none => .error (linesNotFound path chunk.oldLines)

def scheduleChunks (path : Str) : Progress → List UpdateFileChunk → Except ApplyPatchError Progress
  | p, [] => .ok p
  | p, chunk :: rest =>
    match scheduleChunk originalLines path p chunk with
    | .error e => .error e
    | .ok p' => scheduleChunks path p' rest

def computeReplacements (path : Str) (chunks : List UpdateFileChunk) :
    Except ApplyPatchError (List Replacement) :=
  match scheduleChunks originalLines path ⟨[], 0⟩ chunks with
  | .error e => .error e
  | .ok p => .ok (sortByStart p.replacements)

def removeLines (startIdx : ℕ) : ℕ → List Str → List Str
  | 0, lines => lines
  | oldLen + 1, lines =>
    removeLines startIdx oldLen
      (if startIdx < lines.length then lines.eraseIdx startIdx else lines)

/-- Vec::insert panics behind the end of the vector. -/
def insertLines : ℕ → List Str → List Str → Option (List Str)
  | _, [], lines => some lines
  | idx, newLine :: rest, lines =>
    if idx ≤ lines.length then insertLines (idx + 1) rest (lines.insertIdx idx newLine) else none

variable (lines : List Str)

def applyReplacement (r : Replacement) : Option (List Str) :=
  insertLines r.start r.new (removeLines r.start r.oldLen lines)

def applyReplacements (replacements : List Replacement) : Option (List Str) :=
  replacements.reverse.foldlM applyReplacement lines

section Apply

variable {ls : List Str}

theorem removeLines_eq (k : ℕ) (h : start ≤ ls.length) :
    removeLines start k ls = ls.take start ++ ls.drop (start + k) := by
  induction k generalizing ls with
  | zero => rw [removeLines, Nat.add_zero, take_append_drop]
  | succ k ih =>
    rw [removeLines]
    by_cases hlt : start < ls.length
    · have hl : start ≤ (ls.eraseIdx start).length := by
        rw [length_eraseIdx_of_lt hlt]
        omega
      have ht : (ls.take start).length = start := by
        rw [length_take]
        omega
      rw [if_pos hlt, ih hl, eraseIdx_eq_take_drop_succ, take_left' ht, drop_append,
        drop_eq_nil_of_le (by omega), nil_append, drop_drop]
      congr 2
      omega
    · rw [if_neg hlt, ih h, drop_eq_nil_of_le (by omega), drop_eq_nil_of_le (by omega)]

theorem insertIdx_eq_append (x : Str) (h : idx ≤ ls.length) :
    ls.insertIdx idx x = ls.take idx ++ x :: ls.drop idx := by
  induction ls generalizing idx with
  | nil =>
    obtain rfl : idx = 0 := Nat.le_zero.mp h
    rfl
  | cons l ls ih =>
    cases idx with
    | zero => rfl
    | succ idx =>
      rw [insertIdx_succ_cons, ih (Nat.le_of_succ_le_succ h)]
      rfl

theorem insertLines_eq (new : List Str) (h : idx ≤ ls.length) :
    insertLines idx new ls = some (ls.take idx ++ (new ++ ls.drop idx)) := by
  induction new generalizing ls idx with
  | nil => rw [insertLines, nil_append, take_append_drop]
  | cons x new ih =>
    have ht : (ls.take idx).length = idx := by
      rw [length_take]
      omega
    have hs : ls.insertIdx idx x = (ls.take idx ++ [x]) ++ ls.drop idx := by
      rw [insertIdx_eq_append x h, append_assoc, singleton_append]
    have hl : (ls.take idx ++ [x]).length = idx + 1 := by
      rw [length_append, ht, length_singleton]
    have hle : idx + 1 ≤ (ls.insertIdx idx x).length := by
      rw [hs, length_append]
      omega
    rw [insertLines, if_pos h, ih hle, hs, take_left' hl, drop_left' hl, append_assoc]
    rfl

theorem applyReplacement_eq (h : r.start ≤ ls.length) :
    applyReplacement ls r = some (applyEdit r ls) := by
  have ht : (ls.take r.start).length = r.start := by
    rw [length_take]
    omega
  rw [applyReplacement, removeLines_eq r.oldLen h, insertLines_eq, take_left' ht, drop_left' ht]
  · rfl
  · rw [length_append]
    omega

/-- Sorted replacements inside the file never panic: applying them is editing the list. -/
theorem applyReplacements_eq (hs : rs.Pairwise (·.start ≤ ·.start))
    (hb : ∀ r ∈ rs, r.start ≤ ls.length) : applyReplacements ls rs = some (applyEdits ls rs) := by
  induction rs with
  | nil => rfl
  | cons r rs ih =>
    have hr := ih (List.Pairwise.of_cons hs) fun s hs' => hb s (mem_cons_of_mem r hs')
    have hst := hb r mem_cons_self
    have hl : r.start ≤ (applyEdits ls rs).length := by
      have h := congrArg List.length (take_applyEdits hst fun e he => rel_of_pairwise_cons hs he)
      rw [length_take, length_take] at h
      omega
    rw [applyReplacements, reverse_cons, foldlM_append]
    rw [applyReplacements] at hr
    rw [hr]
    simp [applyReplacement_eq hl, applyEdits_cons]

end Apply

/-- What every scheduled replacement satisfies: it lies in the file, and it ends at or before
the search position unless it is a pure addition. -/
structure Placed (lines : List Str) (p : Progress) : Prop where
  index : p.lineIndex ≤ lines.length
  within : ∀ r ∈ p.replacements, r.stop ≤ lines.length
  behind : ∀ r ∈ p.replacements,
    r.stop ≤ p.lineIndex ∨ (r.oldLen = 0 ∧ r.start = insertionIdx lines)

theorem insertionIdx_le (lns : List Str) : insertionIdx lns ≤ lns.length := by
  rw [insertionIdx]
  split
  · omega
  · exact le_rfl

theorem seekContext_spec (hle : li ≤ lns.length) (h : seekContext lns ph li c = .ok i) :
    li ≤ i ∧ i ≤ lns.length := by
  rw [seekContext] at h
  split at h
  · cases h
    exact ⟨le_rfl, hle⟩
  · next cl _ =>
    split at h
    · next idx hi =>
      cases h
      obtain ⟨hl, hs, -⟩ := seekSequence_spec (cons_ne_nil cl []) hi
      have := hs rfl
      rw [length_singleton] at hl
      omega
    · cases h

/-- A located replacement: an insertion at the search position, a match at the end of the
file, or a match from the search position on. -/
structure Located (lines : List Str) (lineIndex : ℕ) (eof : Bool) (r : Replacement) : Prop where
  within : r.stop ≤ lines.length
  empty : r.oldLen = 0 → r.start = lineIndex
  ahead : eof = false → lineIndex ≤ r.start
  atEnd : eof = true → r.oldLen ≠ 0 → r.stop = lines.length

theorem located_of_seek (hle : li ≤ lns.length) (h : seekSequence lns pt li eof = some si) :
    Located lns li eof ⟨si, pt.length, new⟩ := by
  by_cases hne : pt = []
  · subst hne
    cases h
    exact ⟨hle, fun _ => rfl, fun _ => le_rfl, fun _ h0 => absurd rfl h0⟩
  · obtain ⟨hl, hs, he⟩ := seekSequence_spec hne h
    exact ⟨hl, fun h0 => absurd (length_eq_zero_iff.mp h0) hne, hs, fun hef _ => he hef⟩

theorem locate_spec (hle : li ≤ lns.length) (h : locate lns li c = some r) :
    Located lns li c.isEndOfFile r := by
  rw [locate] at h
  split at h
  · next si hs =>
    cases h
    exact located_of_seek hle hs
  · split at h
    · obtain ⟨si, hs, rfl⟩ := Option.map_eq_some_iff.mp h
      exact located_of_seek hle hs
    · cases h

theorem scheduleChunk_cases (hp : Placed lns p) (h : scheduleChunk lns ph p c = .ok p') :
    ∃ i r, seekContext lns ph p.lineIndex c = .ok i ∧ p.lineIndex ≤ i ∧
      i ≤ lns.length ∧ p'.replacements = p.replacements ++ [r] ∧
      ((c.oldLines.isEmpty = true ∧ r = ⟨insertionIdx lns, 0, c.newLines⟩ ∧
          p'.lineIndex = i) ∨ (c.oldLines.isEmpty = false ∧ locate lns i c = some r ∧
          p'.lineIndex = r.stop)) := by
  rw [scheduleChunk] at h
  split at h
  · cases h
  next i hi =>
  obtain ⟨hge, hle⟩ := seekContext_spec hp.index hi
  split at h
  · next he =>
    cases h
    exact ⟨i, _, hi, hge, hle, rfl, .inl ⟨he, rfl, rfl⟩⟩
  · next he =>
    split at h
    · next r hr =>
      cases h
      exact ⟨i, r, hi, hge, hle, rfl, .inr ⟨by simpa using he, hr, rfl⟩⟩
    · cases h

theorem Placed.step (hp : Placed lns p) (h : scheduleChunk lns ph p c = .ok p') :
    Placed lns p' := by
  obtain ⟨i, r, -, hge, hle, hrs, hc⟩ := scheduleChunk_cases hp h
  have hm : ∀ s ∈ p'.replacements, s ∈ p.replacements ∨ s = r := by
    intro s hs
    rw [hrs, mem_append, mem_singleton] at hs
    exact hs
  rcases hc with ⟨-, rfl, hi⟩ | ⟨-, hl, hi⟩
  · refine ⟨hi ▸ hle, fun s hs => ?_, fun s hs => ?_⟩
    · rcases hm s hs with hs | rfl
      · exact hp.within s hs
      · exact insertionIdx_le lns
    · rcases hm s hs with hs | rfl
      · rcases hp.behind s hs with hb | hb
        · exact .inl (by omega)
        · exact .inr hb
      · exact .inr ⟨rfl, rfl⟩
  · have hr := locate_spec hle hl
    have hst : i ≤ r.stop := by
      by_cases hz : r.oldLen = 0
      · rw [Edit.stop, hr.empty hz]
        omega
      · cases he : c.isEndOfFile with
        | true =>
          have := hr.atEnd he hz
          omega
        | false =>
          have := hr.ahead he
          rw [Edit.stop]
          omega
    refine ⟨hi ▸ hr.within, fun s hs => ?_, fun s hs => ?_⟩
    · rcases hm s hs with hs | rfl
      · exact hp.within s hs
      · exact hr.within
    · rcases hm s hs with hs | rfl
      · rcases hp.behind s hs with hb | hb
        · exact .inl (by omega)
        · exact .inr hb
      · exact .inl (by omega)

theorem Placed.start (lns : List Str) : Placed lns ⟨[], 0⟩ := ⟨Nat.zero_le _, by simp, by simp⟩

end ComputeReplacements
