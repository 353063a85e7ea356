import CodexTeams.RustStr
import Mathlib.Order.Bounds.Basic

/-! Locating the old lines of a chunk in a file: four passes of decreasing strictness over the same
window of start positions. -/
namespace SeekSequence

open RustStr

/-- Typographic dashes, quotes and spaces as their ASCII counterparts. -/
def normaliseChar (c : Char) : Char :=
  if (0x2010 ≤ c.val && c.val ≤ 0x2015) || c.val == 0x2212 then '-'
  else if 0x2018 ≤ c.val && c.val ≤ 0x201B then '\''
  else if 0x201C ≤ c.val && c.val ≤ 0x201F then '"'
  else if c.val == 0xA0 || (0x2002 ≤ c.val && c.val ≤ 0x200A) || c.val == 0x202F ||
      c.val == 0x205F || c.val == 0x3000 then ' '
  else c

def normalise (s : Str) : Str := (trim s).map normaliseChar

def matchesAt (same : Str → Str → Bool) : List Str → List Str → Bool
  | _, [] => true
  | [], _ :: _ => false
  | line :: lines, pat :: pattern => same line pat && matchesAt same lines pattern

def seekPass (same : Str → Str → Bool) (lines pattern : List Str) (searchStart : ℕ) : Option ℕ :=
  (List.range' searchStart (lines.length - pattern.length + 1 - searchStart)).find?
    fun i => matchesAt same (lines.drop i) pattern

variable (lines pattern : List Str) (start : ℕ)

def seekSequence (eof : Bool) : Option ℕ :=
  if pattern.isEmpty then some start
  else if pattern.length > lines.length then none
  else
    let searchStart :=
      if eof && lines.length ≥ pattern.length then lines.length - pattern.length else start
    seekPass (· == ·) lines pattern searchStart
      <|> seekPass (fun line pat => trimEnd line == trimEnd pat) lines pattern searchStart
      <|> seekPass (fun line pat => trim line == trim pat) lines pattern searchStart
      <|> seekPass (fun line pat => normalise line == normalise pat) lines pattern searchStart

/-- The comparisons of lines, strictest first. -/
def levels : List (Str → Str → Bool) :=
  [(· == ·), fun line pat => trimEnd line == trimEnd pat, fun line pat => trim line == trim pat,
    fun line pat => normalise line == normalise pat]

/-- The positions from a start on at which a comparison of lines accepts the pattern. -/
def matchesFrom (same : Str → Str → Bool) (lines pattern : List Str) (start : ℕ) : Set ℕ :=
  {j | start ≤ j ∧ matchesAt same (lines.drop j) pattern = true}

/-- A search from a position on: the leftmost match at the strictest level that has one. -/
def FoundFrom : Option ℕ → Prop
  | some i => ∃ stricter same weaker, levels = stricter ++ same :: weaker ∧
      IsLeast (matchesFrom same lines pattern start) i ∧
      ∀ s ∈ stricter, matchesFrom s lines pattern start = ∅
  | none => ∀ s ∈ levels, matchesFrom s lines pattern start = ∅

def endsFile : Bool :=
  levels.any fun same => matchesAt same (lines.drop (lines.length - pattern.length)) pattern

/-- With the end-of-file flag the position at which the pattern ends the file comes first, unless
it lies before the start; otherwise the search goes on from the start. -/
def Documented (eof : Bool) (result : Option ℕ) : Prop :=
  if eof = true ∧ endsFile lines pattern = true ∧ start ≤ lines.length - pattern.length then
    result = some (lines.length - pattern.length)
  else FoundFrom lines pattern start result

section Order

variable {ls p : List Str}

theorem length_le_of_matchesAt (h : matchesAt same ls p = true) : p.length ≤ ls.length := by
  fun_induction matchesAt same ls p with
  | case1 => exact Nat.zero_le _
  | case2 => cases h
  | case3 line ls pat p ih =>
    rw [Bool.and_eq_true] at h
    exact Nat.succ_le_succ (ih h.2)

theorem isLeast_of_seekPass (h : seekPass same ls p s = some i) :
    IsLeast (matchesFrom same ls p s) i := by
  obtain ⟨hi, hr, hj⟩ := List.find?_range'_eq_some.mp h
  refine ⟨⟨(List.mem_range'_1.mp hr).1, hi⟩, fun j ⟨hs, hm⟩ => Nat.le_of_not_lt fun hlt => ?_⟩
  simpa [hm] using hj j hs hlt

variable (hne : p ≠ [])

include hne

theorem le_of_matchesAt (h : matchesAt same (ls.drop i) p = true) : i + p.length ≤ ls.length := by
  have hl := length_le_of_matchesAt h
  have hp := List.length_pos_iff.mpr hne
  rw [List.length_drop] at hl
  omega

theorem matchesFrom_of_seekPass (h : seekPass same ls p s = none) :
    matchesFrom same ls p s = ∅ := by
  rw [seekPass, List.find?_range'_eq_none] at h
  refine Set.eq_empty_of_forall_notMem fun j ⟨hs, hm⟩ => ?_
  have hle := le_of_matchesAt hne hm
  simpa [hm] using h j hs (by omega)

theorem seekSequence_eq (hl : p.length ≤ ls.length) : seekSequence ls p s eof = levels.findSome?
    fun same => seekPass same ls p (if eof then ls.length - p.length else s) := by
  have hf : ∀ (f : (Str → Str → Bool) → Option ℕ) a b c d,
      [a, b, c, d].findSome? f = (f a <|> f b <|> f c <|> f d) := by grind [List.findSome?]
  simp only [seekSequence, levels, hf]
  simp [hne, hl]

/-- A search starts where it is told, or where the pattern ends the file. -/
theorem foundFrom_seekSequence (ls : List Str) (s : ℕ) (eof : Bool) :
    FoundFrom ls p (if eof then ls.length - p.length else s) (seekSequence ls p s eof) := by
  by_cases hl : p.length ≤ ls.length
  · rw [seekSequence_eq hne hl]
    generalize (if eof then ls.length - p.length else s) = s
    cases h : levels.findSome? fun same => seekPass same ls p s with
    | some i =>
      obtain ⟨st, same, wk, hl, hi, hs⟩ := List.findSome?_eq_some_iff.mp h
      exact ⟨st, same, wk, hl, isLeast_of_seekPass hi,
        fun o ho => matchesFrom_of_seekPass hne (hs o ho)⟩
    | none => exact fun o ho => matchesFrom_of_seekPass hne (List.findSome?_eq_none_iff.mp h o ho)
  · have hn : seekSequence ls p s eof = none := by simp [seekSequence, hne, Nat.lt_of_not_le hl]
    rw [hn]
    refine fun o _ => Set.eq_empty_of_forall_notMem fun j ⟨_, hm⟩ => ?_
    have hle := le_of_matchesAt hne hm
    omega

theorem seekSequence_eof (ls : List Str) (s : ℕ) : seekSequence ls p s true =
    if endsFile ls p then some (ls.length - p.length) else none := by
  have hf := foundFrom_seekSequence hne ls s true
  cases hr : seekSequence ls p s true with rw [hr] at hf
  | none =>
    rw [if_neg]
    rw [endsFile, List.any_eq_true]
    rintro ⟨o, ho, hm⟩
    exact Set.eq_empty_iff_forall_notMem.mp (hf o ho) _ ⟨Nat.le_refl _, hm⟩
  | some i =>
    obtain ⟨st, o, wk, hl, ⟨⟨hs, hm⟩, -⟩, -⟩ := hf
    have hle := le_of_matchesAt hne hm
    obtain rfl : i = ls.length - p.length := Nat.le_antisymm (by omega) hs
    rw [if_pos]
    exact List.any_eq_true.mpr ⟨o, by simp [hl], hm⟩

/-- Where a non-empty pattern is found: from the start on, or exactly at the end of the file. -/
theorem seekSequence_spec (h : seekSequence ls p s eof = some i) :
    i + p.length ≤ ls.length ∧ (eof = false → s ≤ i) ∧ (eof = true → i + p.length = ls.length) := by
  have hf := foundFrom_seekSequence hne ls s eof
  rw [h] at hf
  obtain ⟨_, o, _, _, ⟨⟨hs, hm⟩, -⟩, -⟩ := hf
  have hle := le_of_matchesAt hne hm
  refine ⟨hle, fun he => ?_, fun he => ?_⟩ <;> rw [he] at hs
  · exact hs
  · rw [if_pos rfl] at hs
    omega

end Order

/-- Without the flag the search is the documented one. With it there is no search from the start:
the result is right if the pattern ends the file at or behind the start, or matches nowhere. -/
theorem seekSequence_documented_iff (lines pattern : List Str) (start : ℕ) (eof : Bool)
    (hne : pattern ≠ []) :
    Documented lines pattern start eof (seekSequence lines pattern start eof) ↔
      (eof = true → if endsFile lines pattern then start ≤ lines.length - pattern.length
        else FoundFrom lines pattern start none) := by
  cases eof with
  | false =>
    have hf := foundFrom_seekSequence hne lines start false
    simpa [Documented] using hf
  | true =>
    rw [seekSequence_eof hne, Documented]
    cases endsFile lines pattern with
    | false => simp
    | true =>
      by_cases hs : start ≤ lines.length - pattern.length
      · simp [hs]
      · simp only [hs, if_true, forall_const, iff_false]
        rintro ⟨_, o, _, _, ⟨⟨hi, -⟩, -⟩, -⟩
        exact hs hi

def poem : List Str := ["one ", "two", "one"]

theorem seekSequence_documented_poem : Documented poem ["one"] 0 false (some 2) ∧
    Documented poem ["one"] 1 true (some 2) :=
  ⟨(seekSequence_documented_iff poem ["one"] 0 false (by simp)).mpr nofun,
    (seekSequence_documented_iff poem ["one"] 1 true (by simp)).mpr fun _ => by
      rw [if_pos] <;> decide⟩

/-- No search from the start behind a failed look at the end of the file. -/
theorem no_fallback_at_eof : seekSequence poem ["two"] 0 true = none ∧
    ¬ Documented poem ["two"] 0 true none := by
  refine ⟨by decide, fun h => ?_⟩
  exact Set.eq_empty_iff_forall_notMem.mp (h _ List.mem_cons_self) 1 ⟨by decide, by decide⟩

end SeekSequence
