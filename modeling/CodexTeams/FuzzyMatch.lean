import CodexTeams.RustStr
import Mathlib.Data.List.Destutter

/-! The fuzzy matcher: it looks for the characters of the needle in the haystack, both lowered,
and maps the hits back to the characters of the haystack. -/
namespace FuzzyMatch

open RustStr List

/-- The tables of Unicode for lower case. -/
structure CaseTables where
  lower : Char → Str
  cased : Char → Bool
  caseIgnorable : Char → Bool
  lower_sigma : lower 'Σ' = ['σ']

variable (tables : CaseTables)

def caseIgnorableThenCased (s : Str) : Bool :=
  (s.dropWhile tables.caseIgnorable).head?.any tables.cased

def isWordFinal (before after : Str) : Bool :=
  caseIgnorableThenCased tables before.reverse && !caseIgnorableThenCased tables after

/-- A text is lowered by characters, except for a sigma that ends a word. -/
def toLowercaseFrom (before : Str) : Str → Str
  | [] => []
  | c :: rest =>
    (if c = 'Σ' then [if isWordFinal tables before rest then 'ς' else 'σ'] else tables.lower c) ++
      toLowercaseFrom (before ++ [c]) rest

def toLowercase (s : Str) : Str := toLowercaseFrom tables [] s

/-- The characters lowered one by one, each with the index it comes from. -/
def lowerFrom (origIdx : ℕ) : Str → List (Char × ℕ)
  | [] => []
  | ch :: rest => (tables.lower ch).map (·, origIdx) ++ lowerFrom (origIdx + 1) rest

/-- The hits, by the index in the haystack and the position among the lowered characters. -/
def matchFrom : Str → List (Char × ℕ) → ℕ → Option (List (ℕ × ℕ))
  | [], _, _ => some []
  | _ :: _, [], _ => none
  | nc :: needle, (lc, origIdx) :: rest, cur =>
    if lc = nc then (matchFrom needle rest (cur + 1)).map ((origIdx, cur) :: ·)
    else matchFrom (nc :: needle) rest (cur + 1)

def score (lowered : List (Char × ℕ)) (neededLength : ℕ) (hits : List (ℕ × ℕ)) : ℤ :=
  let firstLowerPos := (hits.head?.bind fun hit => lowered.findIdx? (·.2 = hit.1)).getD 0
  let lastLowerPos := (hits.getLast?.map Prod.snd).getD firstLowerPos
  let window : ℤ := (lastLowerPos - firstLowerPos + 1) - neededLength
  max window 0 - if firstLowerPos = 0 then 100 else 0

def fuzzyMatch (haystack needle : Str) : Option (List ℕ × ℤ) :=
  if needle = [] then some ([], 2147483647)
  else
    let lowered := lowerFrom tables 0 haystack
    let loweredNeedle := toLowercase tables needle
    (matchFrom loweredNeedle lowered 0).map fun hits =>
      (((hits.map Prod.fst).mergeSort).destutter (· ≠ ·), score lowered loweredNeedle.length hits)

/-- No capital sigma ends a word. -/
def NoFinalSigma (before s : Str) : Prop :=
  ∀ f b, s = f ++ 'Σ' :: b → isWordFinal tables (before ++ f) b = false

section Lowering

variable {t : CaseTables}

theorem length_toLowercaseFrom (before s : Str) :
    (toLowercaseFrom t before s).length = (s.flatMap t.lower).length := by
  induction s generalizing before with
  | nil => rfl
  | cons c s ih =>
    rw [toLowercaseFrom, flatMap_cons, length_append, length_append, ih]
    split
    · next hc => rw [hc, t.lower_sigma]; rfl
    · rfl

theorem toLowercaseFrom_eq_iff (before s : Str) :
    toLowercaseFrom t before s = s.flatMap t.lower ↔ NoFinalSigma t before s := by
  induction s generalizing before with
  | nil => simp [toLowercaseFrom, NoFinalSigma]
  | cons c s ih =>
    have hn : NoFinalSigma t before (c :: s) ↔
        (c = 'Σ' → isWordFinal t before s = false) ∧ NoFinalSigma t (before ++ [c]) s := by
      constructor
      · intro h
        refine ⟨fun hc => ?_, fun f b hs => ?_⟩
        · simpa using h [] s (by rw [hc]; rfl)
        · simpa using h (c :: f) b (by rw [hs]; rfl)
      · rintro ⟨hc, h⟩ f b hs
        cases f with
        | nil =>
          cases hs
          simpa using hc rfl
        | cons x f =>
          cases hs
          simpa using h f b rfl
    rw [hn, ← ih, toLowercaseFrom, flatMap_cons]
    split
    · next hc =>
      rw [hc, t.lower_sigma]
      cases isWordFinal t before s <;> simp
    · next hc => simp [hc]

theorem lowerFrom_fst (i : ℕ) (s : Str) : (lowerFrom t i s).map Prod.fst = s.flatMap t.lower := by
  induction s generalizing i with
  | nil => rfl
  | cons c s ih =>
    rw [lowerFrom, map_append, ih, flatMap_cons, map_map]
    exact congrArg (· ++ _) (map_id _)

theorem lowerFrom_snd (i : ℕ) (s : Str) : ((lowerFrom t i s).map Prod.snd).Pairwise (· ≤ ·) ∧
    ∀ j ∈ (lowerFrom t i s).map Prod.snd, i ≤ j ∧ j < i + s.length := by
  induction s generalizing i with
  | nil => simp [lowerFrom]
  | cons c s ih =>
    obtain ⟨hp, hb⟩ := ih (i + 1)
    have hc : ((t.lower c).map (·, i)).map Prod.snd = replicate (t.lower c).length i := by
      simp [Function.comp_def, map_const']
    rw [lowerFrom, map_append, hc, length_cons]
    refine ⟨pairwise_append.mpr ⟨by simp [pairwise_replicate], hp, fun j hj k hk => ?_⟩,
      fun j hj => ?_⟩
    · have := hb k hk
      rw [eq_of_mem_replicate hj]
      omega
    · rcases mem_append.mp hj with hj | hj
      · rw [eq_of_mem_replicate hj]
        omega
      · have := hb j hj
        omega

end Lowering

theorem isSome_matchFrom (n : Str) (ls : List (Char × ℕ)) (cur : ℕ) :
    (matchFrom n ls cur).isSome ↔ n <+ ls.map Prod.fst := by
  induction n, ls, cur using matchFrom.induct with
  | case1 ls cur | case2 c n cur => simp [matchFrom]
  | case3 c n i ls cur ih => simpa [matchFrom] using ih
  | case4 c n lc i ls cur hne ih =>
    rw [matchFrom, if_neg hne, ih, map_cons]
    exact ⟨.cons _, fun h => h.of_cons_of_ne (Ne.symm hne)⟩

theorem matchFrom_sublist (h : matchFrom n ls cur = some hits) :
    hits.map Prod.fst <+ ls.map Prod.snd := by
  induction n, ls, cur using matchFrom.induct generalizing hits with
  | case1 ls cur =>
    rw [matchFrom] at h
    cases h
    exact nil_sublist _
  | case2 c n cur => cases h
  | case3 c n i ls cur ih =>
    rw [matchFrom, if_pos rfl] at h
    obtain ⟨hits, hm, rfl⟩ := Option.map_eq_some_iff.mp h
    exact (ih hm).cons_cons i
  | case4 c n lc i ls cur hne ih =>
    rw [matchFrom, if_neg hne] at h
    exact (ih h).cons i

theorem pairwise_lt_destutter {ns : List ℕ} (h : ns.Pairwise (· ≤ ·)) :
    (ns.destutter (· ≠ ·)).Pairwise (· < ·) := by
  have hc := isChain_destutter (· ≠ ·) ns
  have hs := (h.sublist (destutter_sublist (· ≠ ·) ns)).isChain
  refine isChain_iff_pairwise.mp (isChain_iff_getElem.mpr fun i hi => ?_)
  exact lt_of_le_of_ne (isChain_iff_getElem.mp hs i hi) (isChain_iff_getElem.mp hc i hi)

variable (t : CaseTables)

theorem fuzzyMatch_indices (h : fuzzyMatch t haystack needle = some r) :
    r.1.Pairwise (· < ·) ∧ ∀ i ∈ r.1, i < haystack.length := by
  rw [fuzzyMatch] at h
  split at h
  · cases h
    simp
  · obtain ⟨hits, hm, rfl⟩ := Option.map_eq_some_iff.mp h
    obtain ⟨hp, hb⟩ := lowerFrom_snd (t := t) 0 haystack
    have hs := matchFrom_sublist hm
    have hi := hp.sublist hs
    rw [mergeSort_of_pairwise (by simpa using hi)]
    refine ⟨pairwise_lt_destutter hi, fun i hi => ?_⟩
    simpa using (hb i (hs.subset ((destutter_sublist _ _).subset hi))).2

theorem isSome_fuzzyMatch (haystack needle : Str) : (fuzzyMatch t haystack needle).isSome ↔
    toLowercase t needle <+ haystack.flatMap t.lower := by
  rw [fuzzyMatch]
  split
  · next hn => simp [hn, toLowercase, toLowercaseFrom]
  · rw [Option.isSome_map, isSome_matchFrom, lowerFrom_fst]

/-- The indices are always in order and in the haystack. The matcher accepts exactly the
subsequences, for all needles, on a haystack in which no sigma ends a word. -/
theorem fuzzyMatch_exact_iff (haystack : Str) : (∀ needle, ((fuzzyMatch t haystack needle).isSome ↔
        toLowercase t needle <+ toLowercase t haystack) ∧
      ∀ r, fuzzyMatch t haystack needle = some r →
        r.1.Pairwise (· < ·) ∧ ∀ i ∈ r.1, i < haystack.length) ↔ NoFinalSigma t [] haystack := by
  rw [← toLowercaseFrom_eq_iff]
  constructor
  · intro h
    have hs := (isSome_fuzzyMatch t haystack haystack).mp ((h haystack).1.mpr (.refl _))
    exact hs.eq_of_length (length_toLowercaseFrom [] haystack)
  · intro h needle
    refine ⟨?_, fun r => fuzzyMatch_indices t⟩
    rw [isSome_fuzzyMatch, ← h]
    rfl

/-- Tables for the capital letters of a word. -/
def sampleTables : CaseTables where
  lower c := if c = 'Ο' then ['ο'] else if c = 'Σ' then ['σ'] else [c]
  cased c := c ∈ ['Ο', 'Σ', 'ο', 'σ', 'ς']
  caseIgnorable _ := false
  lower_sigma := rfl

/-- The needle is lowered with the sigma of a word's end, and the haystack without it. -/
theorem word_not_matched : fuzzyMatch sampleTables "ΟΣ" "ΟΣ" = none ∧
    toLowercase sampleTables "ΟΣ" = "ος" := by
  decide

end FuzzyMatch
