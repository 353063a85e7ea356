import Mathlib.Data.List.DropRight

/-! Rust string slices as lists of Unicode scalar values, with the operations of the standard
library. -/
namespace RustStr

open List

abbrev Str := List Char

instance instCoeStr : Coe String Str := ⟨String.toList⟩

instance instLawfulBEqStr : LawfulBEq Str := inferInstanceAs (LawfulBEq (List Char))

/-- The Unicode White_Space property, which is what char::is_whitespace tests. -/
def isWhitespace (c : Char) : Bool :=
  (0x09 ≤ c.val && c.val ≤ 0x0D) || c.val == 0x20 || c.val == 0x85 || c.val == 0xA0 ||
  c.val == 0x1680 || (0x2000 ≤ c.val && c.val ≤ 0x200A) || c.val == 0x2028 ||
  c.val == 0x2029 || c.val == 0x202F || c.val == 0x205F || c.val == 0x3000

section

variable (s : Str)

def trimStart : Str := s.dropWhile isWhitespace

def trimEnd : Str := s.rdropWhile isWhitespace

def trim : Str := trimEnd (trimStart s)

def stripPrefix (s pre : Str) : Option Str := pre.isPrefixOf? s

def startsWith (s pre : Str) : Bool := pre.isPrefixOf s

def stripCr (line : Str) : Str :=
  if line.getLast? = some '\r' then line.dropLast else line

/-- The scan behind str::lines; the buffer holds the current unfinished line. -/
def linesFrom : Str → Str → List Str
  | buf, [] => if buf = [] then [] else [buf]
  | buf, c :: cs =>
    if c = '\n' then stripCr buf :: linesFrom [] cs else linesFrom (buf ++ [c]) cs

def lines : List Str := linesFrom [] s

def Blank : Prop := ∀ c ∈ s, isWhitespace c = true

instance decidableBlank : Decidable (Blank s) := List.decidableBAll _ s

end

def splitLines : Str → Str → List Str × Str
  | buf, [] => ([], buf)
  | buf, c :: cs =>
    if c = '\n' then (buf :: (splitLines [] cs).1, (splitLines [] cs).2)
    else splitLines (buf ++ [c]) cs

def unlines (ls : List Str) : Str := ls.flatMap (· ++ ['\n'])

theorem stripPrefix_eq_some : stripPrefix s pre = some r ↔ s = pre ++ r := by
  simp [stripPrefix, eq_comm]

theorem stripPrefix_append (pre r : Str) : stripPrefix (pre ++ r) pre = some r :=
  stripPrefix_eq_some.mpr rfl

theorem stripPrefix_eq_none : stripPrefix s pre = none ↔ ∀ r, s ≠ pre ++ r := by
  rw [Option.eq_none_iff_forall_ne_some]
  exact forall_congr' fun r => not_congr stripPrefix_eq_some

theorem startsWith_iff : startsWith s pre = true ↔ ∃ r, s = pre ++ r := by
  rw [startsWith, isPrefixOf_iff_prefix]
  exact ⟨fun ⟨r, hr⟩ => ⟨r, hr.symm⟩, fun ⟨r, hr⟩ => ⟨r, hr.symm⟩⟩

theorem trimStart_cons_of_not (h : isWhitespace c = false) : trimStart (c :: s) = c :: s := by
  simp [trimStart, h]

theorem trimStart_append_blank (hw : Blank w) : trimStart (w ++ s) = trimStart s :=
  dropWhile_append_of_pos hw

theorem trimEnd_append_blank (hw : Blank w) : trimEnd (s ++ w) = trimEnd s := by
  induction w using List.reverseRecOn with
  | nil => simp
  | append_singleton w c ih =>
    rw [← append_assoc, trimEnd, rdropWhile_concat_pos]
    · exact ih fun x hx => hw x (by simp [hx])
    · exact hw c (by simp)

theorem trimEnd_concat_of_not (h : isWhitespace c = false) : trimEnd (s ++ [c]) = s ++ [c] := by
  simp [trimEnd, h]

theorem trimEnd_eq_nil : trimEnd s = [] ↔ Blank s := rdropWhile_eq_nil_iff

theorem trimStart_eq_nil : trimStart s = [] ↔ Blank s := dropWhile_eq_nil_iff

theorem exists_blank_append_trimStart (s : Str) : ∃ w, Blank w ∧ s = w ++ trimStart s :=
  ⟨s.takeWhile isWhitespace, fun _ h => mem_takeWhile_imp h, takeWhile_append_dropWhile.symm⟩

theorem exists_trimEnd_append_blank (s : Str) : ∃ w, Blank w ∧ s = trimEnd s ++ w :=
  ⟨s.rtakeWhile isWhitespace, fun _ h => mem_rtakeWhile_imp h, rdropWhile_append_rtakeWhile.symm⟩

theorem trim_eq_nil : trim s = [] ↔ Blank s := by
  rw [trim, trimEnd_eq_nil]
  obtain ⟨w, hw, hs⟩ := exists_blank_append_trimStart s
  constructor
  · intro h c hc
    rw [hs] at hc
    rcases mem_append.mp hc with hc | hc
    · exact hw c hc
    · exact h c hc
  · intro h
    rw [trimStart_eq_nil.mpr h]
    simp [Blank]

theorem head?_of_trimEnd (h : (trimEnd s).head? = some c) : s.head? = some c := by
  obtain ⟨w, -, hs⟩ := exists_trimEnd_append_blank s
  rw [hs, List.head?_append, h, Option.some_or]

theorem trim_eq_trimEnd (h : s.head? = some c)
    (hc : isWhitespace c = false) : trim s = trimEnd s := by
  obtain ⟨r, rfl⟩ := List.head?_eq_some_iff.mp h
  rw [trim, trimStart_cons_of_not hc]

theorem not_whitespace_of_trimEnd (h : trimEnd s = q ++ [c]) : isWhitespace c = false := by
  have hne : s.rdropWhile isWhitespace ≠ [] := by rw [← trimEnd, h]; simp
  have hl := rdropWhile_last_not isWhitespace s hne
  simpa [getLast_congr hne (by simp) h] using hl

theorem trimEnd_append_of_not (p r : Str) (hc : isWhitespace c = false) :
    trimEnd (p ++ [c] ++ r) = p ++ [c] ++ trimEnd r := by
  obtain ⟨w, hw, hr⟩ := exists_trimEnd_append_blank r
  have hct : trimEnd (p ++ [c] ++ trimEnd r) = p ++ [c] ++ trimEnd r := by
    rcases eq_nil_or_concat' (trimEnd r) with h | ⟨q, d, h⟩
    · rw [h, append_nil, trimEnd_concat_of_not hc]
    · rw [h, ← append_assoc, trimEnd_concat_of_not (not_whitespace_of_trimEnd h)]
  calc trimEnd (p ++ [c] ++ r) = trimEnd (p ++ [c] ++ trimEnd r ++ w) := by
        rw [append_assoc _ (trimEnd r), ← hr]
    _ = p ++ [c] ++ trimEnd r := by rw [trimEnd_append_blank hw, hct]

theorem trimEnd_append_of_ne (p : Str) (h : trimEnd r ≠ []) :
    trimEnd (p ++ r) = p ++ trimEnd r := by
  obtain ⟨w, hw, hr⟩ := exists_trimEnd_append_blank r
  rcases eq_nil_or_concat' (trimEnd r) with hn | ⟨q, c, hq⟩
  · exact absurd hn h
  · have hc := not_whitespace_of_trimEnd hq
    calc trimEnd (p ++ r) = trimEnd (p ++ trimEnd r ++ w) := by rw [append_assoc, ← hr]
      _ = trimEnd (p ++ q ++ [c]) := by rw [trimEnd_append_blank hw, hq, append_assoc]
      _ = p ++ trimEnd r := by rw [trimEnd_concat_of_not hc, hq, append_assoc]

theorem length_trimEnd_lt (h : trimEnd s ≠ s) : (trimEnd s).length < s.length := by
  obtain ⟨w, -, hs⟩ := exists_trimEnd_append_blank s
  have hw : w ≠ [] := by
    rintro rfl
    rw [append_nil] at hs
    exact h hs.symm
  have hl : s.length = (trimEnd s).length + w.length := by rw [← length_append, ← hs]
  have := length_pos_of_ne_nil hw
  omega

theorem trim_append_blank (hw : Blank w) : trim (s ++ w) = trim s := by
  rw [trim, trim, trimStart, dropWhile_append]
  split
  · next h =>
    have hs : trimStart s = [] := isEmpty_iff.mp h
    rw [hs, dropWhile_eq_nil_iff.mpr hw]
  · exact trimEnd_append_blank hw

theorem trim_append_left_blank (hw : Blank w) : trim (w ++ s) = trim s := by
  rw [trim, trimStart_append_blank hw, trim]

theorem trim_stripCr (s : Str) : trim (stripCr s) = trim s := by
  rw [stripCr]
  split
  · next h =>
    obtain ⟨r, rfl⟩ := List.getLast?_eq_some_iff.mp h
    rw [dropLast_concat, trim_append_blank (w := ['\r']) (by decide)]
  · rfl

theorem trimEnd_stripCr (s : Str) : trimEnd (stripCr s) = trimEnd s := by
  rw [stripCr]
  split
  · next h =>
    obtain ⟨r, rfl⟩ := List.getLast?_eq_some_iff.mp h
    rw [dropLast_concat, trimEnd_append_blank (w := ['\r']) (by decide)]
  · rfl

theorem linesFrom_eq (buf s : Str) : linesFrom buf s = (splitLines buf s).1.map stripCr ++
      if (splitLines buf s).2 = [] then [] else [(splitLines buf s).2] := by
  induction s generalizing buf with
  | nil => rfl
  | cons c cs ih =>
    rw [linesFrom, splitLines]
    split
    · rw [ih, map_cons, cons_append]
    · exact ih _

theorem splitLines_append (buf a b : Str) :
    splitLines buf (a ++ b) = ((splitLines buf a).1 ++ (splitLines (splitLines buf a).2 b).1,
      (splitLines (splitLines buf a).2 b).2) := by
  induction a generalizing buf with
  | nil => rfl
  | cons c a ih =>
    rw [cons_append, splitLines, splitLines]
    split
    · rw [ih, cons_append]
    · exact ih _

theorem splitLines_of_not_mem (h : '\n' ∉ s) (buf : Str) : splitLines buf s = ([], buf ++ s) := by
  induction s generalizing buf with
  | nil => rw [splitLines, append_nil]
  | cons c s ih =>
    rw [mem_cons, not_or] at h
    rw [splitLines, if_neg (Ne.symm h.1), ih h.2, append_assoc, singleton_append]

theorem splitLines_of_mem (h : '\n' ∈ s) (buf : Str) : ∃ u v, s = u ++ '\n' :: v ∧
      splitLines buf s = ((buf ++ u) :: (splitLines [] v).1, (splitLines [] v).2) := by
  induction s generalizing buf with
  | nil => cases h
  | cons c s ih =>
    rw [splitLines]
    split
    · next hc => exact ⟨[], s, by rw [hc, nil_append], by rw [append_nil]⟩
    · next hc =>
      obtain ⟨u, v, hs, hsp⟩ := ih (mem_of_ne_of_mem (Ne.symm hc) h) (buf ++ [c])
      exact ⟨c :: u, v, by rw [hs, cons_append], by rw [hsp, append_assoc]; rfl⟩

theorem splitLines_unlines (h : ∀ ln ∈ ls, '\n' ∉ ln) (s : Str) :
    splitLines [] (unlines ls ++ s) = (ls ++ (splitLines [] s).1, (splitLines [] s).2) := by
  induction ls with
  | nil => rfl
  | cons ln ls ih =>
    have hln := splitLines_of_not_mem (h ln mem_cons_self) []
    have hr := ih fun l hl => h l (mem_cons_of_mem ln hl)
    have ht : unlines (ln :: ls) ++ s = ln ++ '\n' :: (unlines ls ++ s) := by
      simp [unlines]
    rw [ht, splitLines_append, hln, splitLines, hr]
    rfl

theorem stripCr_of_ne (h : s.getLast? ≠ some '\r') : stripCr s = s := if_neg h

/-- A line that line splitting gives back unchanged. -/
structure PlainLine (line : Str) : Prop where
  noNewline : '\n' ∉ line
  noReturn : line.getLast? ≠ some '\r'

theorem lines_unlines (h : ∀ ln ∈ ls, PlainLine ln) (hls : '\n' ∉ l) (hne : l ≠ []) :
    lines (unlines ls ++ l) = ls ++ [l] := by
  have hm : ls.map stripCr = ls :=
    (map_congr_left fun ln hl => stripCr_of_ne (h ln hl).noReturn).trans (map_id _)
  rw [lines, linesFrom_eq, splitLines_unlines fun ln hl => (h ln hl).noNewline,
    splitLines_of_not_mem hls, nil_append, if_neg hne, append_nil, hm]

theorem splitLines_prepend (p buf s : Str) : splitLines (p ++ buf) s = match splitLines buf s with
      | ([], rest) => ([], p ++ rest)
      | (ln :: ls, rest) => ((p ++ ln) :: ls, rest) := by
  induction s generalizing buf with
  | nil => rfl
  | cons c s ih =>
    rw [splitLines, splitLines]
    split
    · rfl
    · rw [append_assoc, ih]

theorem splitLines_blank (hb : Blank buf) (hs : Blank s) :
    (∀ ln ∈ (splitLines buf s).1, Blank ln) ∧ Blank (splitLines buf s).2 := by
  induction s generalizing buf with
  | nil => exact ⟨by simp [splitLines], hb⟩
  | cons c s ih =>
    have ht : Blank s := fun x hx => hs x (mem_cons_of_mem c hx)
    rw [splitLines]
    split
    · obtain ⟨hln, hr⟩ := ih (show Blank [] by simp [Blank]) ht
      refine ⟨fun ln hl => ?_, hr⟩
      rcases mem_cons.mp hl with rfl | hl
      · exact hb
      · exact hln ln hl
    · refine ih (fun x hx => ?_) ht
      rcases mem_append.mp hx with hx | hx
      · exact hb x hx
      · rw [mem_singleton.mp hx]
        exact hs c mem_cons_self

end RustStr
